import Mathlib.Data.List.Nodup

/-!
# 番号の表

値を初めて現れた順に並べ、その位置を番号とする表。
-/

namespace Infra

open List Function

variable {α : Type*} [BEq α]

/-- 表に無い値だけを末尾に足す。 -/
def intern (table : List α) (x : α) : List α := if table.contains x then table else table ++ [x]

/-- 値の列を順に入れる。 -/
def internAll (table xs : List α) : List α := xs.foldl intern table

@[simp] theorem internAll_nil (table : List α) : internAll table [] = table := rfl

@[simp] theorem internAll_cons (table : List α) (x : α) (xs : List α) :
    internAll table (x :: xs) = internAll (intern table x) xs := rfl

theorem internAll_append (table xs ys : List α) :
    internAll table (xs ++ ys) = internAll (internAll table xs) ys := foldl_append

theorem internAll_concat (table xs : List α) (x : α) :
    internAll table (xs ++ [x]) = intern (internAll table xs) x := by
  rw [internAll_append, internAll_cons, internAll_nil]

variable [LawfulBEq α]

theorem intern_of_mem {table : List α} {x : α} (h : x ∈ table) : intern table x = table :=
  if_pos (contains_iff_mem.mpr h)

theorem intern_of_notMem {table : List α} {x : α} (h : x ∉ table) :
    intern table x = table ++ [x] :=
  if_neg fun hc => h (contains_iff_mem.mp hc)

@[simp] theorem mem_intern {table : List α} {x y : α} : y ∈ intern table x ↔ y ∈ table ∨ y = x := by
  by_cases h : x ∈ table
  · rw [intern_of_mem h]
    refine ⟨Or.inl, ?_⟩
    rintro (hy | rfl)
    · exact hy
    · exact h
  · rw [intern_of_notMem h]
    simp

@[simp] theorem mem_internAll {table xs : List α} {y : α} :
    y ∈ internAll table xs ↔ y ∈ table ∨ y ∈ xs := by
  induction xs generalizing table with
  | nil => simp
  | cons x xs ih => simp [ih, or_assoc]

theorem nodup_intern {table : List α} (h : table.Nodup) (x : α) : (intern table x).Nodup := by
  by_cases hx : x ∈ table
  · rw [intern_of_mem hx]
    exact h
  · rw [intern_of_notMem hx]
    exact nodup_append.mpr ⟨h, by simp, fun a ha b hb => by
      obtain rfl : b = x := by simpa using hb
      rintro rfl
      exact hx ha⟩

theorem nodup_internAll {table : List α} (h : table.Nodup) (xs : List α) :
    (internAll table xs).Nodup := by
  induction xs generalizing table with
  | nil => exact h
  | cons x xs ih => exact ih (nodup_intern h x)

theorem idxOf_intern {table : List α} {y : α} (hy : y ∈ table) (x : α) :
    (intern table x).idxOf y = table.idxOf y := by
  by_cases hx : x ∈ table
  · rw [intern_of_mem hx]
  · rw [intern_of_notMem hx]
    exact idxOf_append_of_mem hy

theorem idxOf_internAll {table : List α} {y : α} (hy : y ∈ table) (xs : List α) :
    (internAll table xs).idxOf y = table.idxOf y := by
  induction xs generalizing table with
  | nil => rfl
  | cons x xs ih =>
    rw [internAll_cons, ih (mem_intern.mpr (.inl hy)), idxOf_intern hy]

end Infra
