import Mathlib.Algebra.BigOperators.Ring.Finset
import Mathlib.Algebra.Order.BigOperators.Group.List
import Mathlib.Algebra.Order.Group.Nat

/-!
# 番号で束に分けた列

要素に番号を付けて束に分け、束を番号の順に繋ぎ直したものは、元の列の並べ替えである
（`perm_flatMap_filter`）。
-/

namespace Infra

open List Function

variable {α β : Type*}

theorem perm_flatMap_filter_lt (tag : α → Nat) (xs : List α) (n : Nat) :
    ((range n).flatMap fun b => xs.filter fun x => tag x = b).Perm
      (xs.filter fun x => tag x < n) := by
  induction n with
  | zero => simp
  | succ n ih =>
    rw [range_succ, flatMap_append, flatMap_singleton]
    refine (ih.append_right _).trans ?_
    have hlt : (xs.filter fun x => tag x < n) =
        (xs.filter fun x => tag x < n + 1).filter fun x => tag x < n := by
      rw [filter_filter]
      refine filter_congr fun x _ => ?_
      simp only [← Bool.decide_and, decide_eq_decide]
      omega
    have heq : (xs.filter fun x => tag x = n) =
        (xs.filter fun x => tag x < n + 1).filter fun x => !decide (tag x < n) := by
      rw [filter_filter]
      refine filter_congr fun x _ => ?_
      simp only [← decide_not, ← Bool.decide_and, decide_eq_decide]
      omega
    rw [hlt, heq]
    exact filter_append_perm _ _

/-- **束を繋ぎ直したものは、元の列の並べ替えである。** -/
theorem perm_flatMap_filter (tag : α → Nat) {xs : List α} {n : Nat} (h : ∀ x ∈ xs, tag x < n) :
    ((range n).flatMap fun b => xs.filter fun x => tag x = b).Perm xs := by
  have hall : (xs.filter fun x => tag x < n) = xs :=
    filter_eq_self.mpr fun x hx => by simpa using h x hx
  have hperm := perm_flatMap_filter_lt tag xs n
  rwa [hall] at hperm

theorem eq_of_sum_le {f g : α → Nat} {xs : List α} (hle : ∀ x ∈ xs, g x ≤ f x)
    (hsum : (xs.map f).sum ≤ (xs.map g).sum) : ∀ x ∈ xs, f x = g x := by
  induction xs with
  | nil => simp
  | cons a xs ih =>
    have hrest (x : α) (hx : x ∈ xs) : g x ≤ f x := hle x (mem_cons_of_mem _ hx)
    have hge : (xs.map g).sum ≤ (xs.map f).sum := sum_le_sum hrest
    have ha := hle a mem_cons_self
    simp only [map_cons, sum_cons] at hsum
    intro x hx
    rcases mem_cons.mp hx with rfl | hx
    · omega
    · exact ih hrest (by omega) x hx

theorem length_eq_of_perm_map {f g : α → List β} {xs : List α}
    (hle : ∀ x ∈ xs, (g x).length ≤ (f x).length) (h : (xs.map f).Perm (xs.map g)) :
    ∀ x ∈ xs, (f x).length = (g x).length := by
  refine eq_of_sum_le hle ?_
  have hsum := (h.map length).sum_eq
  rw [map_map, map_map] at hsum
  exact hsum.le

end Infra
