import MsProjects.Sql.Record

/-! # 行と欄の対応 -/

namespace Sql

open List Function

variable {s t row : List Line}

/-- 末尾の空の欄を落とした行。 -/
def trimRow (row : List Line) : List Line := row.rdropWhile fun field => field = []

theorem trimRow_append (h : ∃ f ∈ t, f ≠ []) : trimRow (s ++ t) = s ++ trimRow t := by
  obtain ⟨f, hf, hne⟩ := h
  have hkeep : (t.reverse.dropWhile fun field => decide (field = [])).isEmpty = false := by
    rw [isEmpty_eq_false_iff]
    intro hnil
    have hall := dropWhile_eq_nil_iff.mp hnil f (mem_reverse.mpr hf)
    exact hne (by simpa using hall)
  simp [trimRow, rdropWhile, dropWhile_append, hkeep]

theorem trimRow_append_of_forall (h : ∀ f ∈ t, f = []) : trimRow (s ++ t) = trimRow s := by
  have hdrop : (t.reverse ++ s.reverse).dropWhile (fun field => decide (field = [])) =
      s.reverse.dropWhile fun field => decide (field = []) :=
    dropWhile_append_of_pos fun f hf => by simpa using h f (mem_reverse.mp hf)
  rw [trimRow, trimRow, rdropWhile, rdropWhile, reverse_append, hdrop]

theorem trimRow_ne_nil (h : ∃ f ∈ row, f ≠ []) : trimRow row ≠ [] := by
  obtain ⟨f, hf, hne⟩ := h
  intro hnil
  exact hne (by simpa using rdropWhile_eq_nil_iff.mp hnil f hf)

theorem getElem?_trimRow {i : Nat} (h : ∃ f ∈ row.drop i, f ≠ []) :
    (trimRow row)[i]? = row[i]? := by
  have hlt : i < (trimRow row).length := by
    have hrow : trimRow row = row.take i ++ trimRow (row.drop i) := by
      rw [← trimRow_append h, take_append_drop]
    have hpos := length_pos_iff.mpr (trimRow_ne_nil h)
    obtain ⟨f, hf, -⟩ := h
    have hi := length_pos_of_mem hf
    rw [length_drop] at hi
    rw [hrow, length_append, length_take]
    omega
  obtain ⟨rest, hrest⟩ := rdropWhile_prefix (fun field => decide (field = [])) row
  nth_rewrite 2 [← hrest]
  exact (getElem?_append_left hlt).symm

theorem getElem?_trimRow_eq_none {i : Nat} (h : ∀ f ∈ row.drop i, f = []) :
    (trimRow row)[i]? = none := by
  have hrow : trimRow (row.take i ++ row.drop i) = trimRow (row.take i) :=
    trimRow_append_of_forall h
  rw [take_append_drop] at hrow
  have hpre : trimRow (row.take i) <+: row.take i := rdropWhile_prefix _ _
  rw [hrow]
  refine getElem?_eq_none (hpre.length_le.trans ?_)
  rw [length_take]
  omega

theorem line_cons {f : Line} (h : row ≠ []) : line (f :: row) = f ++ '|' :: line row := by
  rw [line, intercalate_cons_of_ne_nil h, line, append_assoc, singleton_append]

theorem line_append (hs : s ≠ []) (ht : t ≠ []) : line (s ++ t) = line s ++ '|' :: line t := by
  induction s with
  | nil => exact absurd rfl hs
  | cons f s ih =>
    rw [cons_append, line_cons (append_ne_nil_of_right_ne_nil s ht)]
    cases s with
    | nil => simp [line]
    | cons f' s => rw [ih (cons_ne_nil f' s), line_cons (cons_ne_nil f' s),
        append_assoc, cons_append]

/-- **欄を繋いだ行を分けると、末尾の空の欄だけが落ちる。** -/
theorem split_line (hbar : ∀ f ∈ row, '|' ∉ f) (h : ∃ f ∈ row, f ≠ []) :
    split (line row) = trimRow row := by
  obtain ⟨f, hf, hne⟩ := h
  have hrow : row ≠ [] := ne_nil_of_mem hf
  rw [split]
  split
  · rw [line, splitOn_intercalate '|' hbar hrow, trimRow]
  · next hno =>
    cases row with
    | nil => exact absurd rfl hrow
    | cons a row =>
      cases row with
      | nil =>
        obtain rfl : f = a := mem_singleton.mp hf
        simp [line, trimRow, rdropWhile_singleton, hne]
      | cons b row =>
        rw [line_cons (cons_ne_nil b row)] at hno
        simp at hno

end Sql
