import Mathlib.Data.Fintype.BigOperators

/-!
# 参照数の釣り合い

対象 `κ` を指す slot の数と、対象が持つ参照数の関係。
-/

namespace Infra

open List Function

variable {ι κ : Type*}

/-! ## 釣り合い -/

/-- `refs h` は対象 `h` の参照数で、`none` なら対象は無い。 -/
def Balanced (refs : κ → Option Nat) (ptrs : κ → Nat) : Prop :=
  ∀ h, refs h = if ptrs h = 0 then none else some (ptrs h)

namespace Balanced

variable {refs : κ → Option Nat} {ptrs ptrs' : κ → Nat}

theorem congr (hb : Balanced refs ptrs) (h : ∀ k, ptrs' k = ptrs k) : Balanced refs ptrs' := by
  intro k
  rw [hb k, h k]

theorem eq_of_some (hb : Balanced refs ptrs) {h : κ} {n : Nat} (hn : refs h = some n) :
    n = ptrs h ∧ 0 < n := by
  rw [hb h] at hn
  split at hn
  · cases hn
  · cases hn
    exact ⟨rfl, by omega⟩

theorem exists_some (hb : Balanced refs ptrs) {h : κ} (hp : 0 < ptrs h) : refs h = some (ptrs h) := by
  rw [hb h, if_neg (by omega)]

theorem eq_none_iff (hb : Balanced refs ptrs) {h : κ} : refs h = none ↔ ptrs h = 0 := by
  rw [hb h]
  split <;> simp_all

variable [DecidableEq κ]

theorem update (hb : Balanced refs ptrs) {h : κ} {r : Option Nat}
    (hr : r = if ptrs' h = 0 then none else some (ptrs' h)) (hne : ∀ k, k ≠ h → ptrs' k = ptrs k) :
    Balanced (update refs h r) ptrs' := by
  intro k
  by_cases hk : k = h
  · subst hk
    rw [update_self, hr]
  · rw [update_of_ne hk, hb k, hne k hk]

theorem retain (hb : Balanced refs ptrs) {h : κ} {n : Nat} (hn : refs h = some n)
    (hp : ∀ k, ptrs' k = ptrs k + if k = h then 1 else 0) :
    Balanced (Function.update refs h (some (n + 1))) ptrs' := by
  refine hb.update ?_ fun k hk => by rw [hp k, if_neg hk, Nat.add_zero]
  have := (hb.eq_of_some hn).1
  rw [hp h, if_pos rfl, if_neg (by omega), this]

theorem release (hb : Balanced refs ptrs) {h : κ} {n : Nat} (hn : refs h = some n)
    (hp : ∀ k, ptrs k = ptrs' k + if k = h then 1 else 0) :
    Balanced (Function.update refs h (if 1 < n then some (n - 1) else none)) ptrs' := by
  refine hb.update ?_ fun k hk => by rw [hp k, if_neg hk, Nat.add_zero]
  obtain ⟨hn', hpos⟩ := hb.eq_of_some hn
  have heq := hp h
  rw [if_pos rfl] at heq
  by_cases h1 : 1 < n
  · rw [if_pos h1, if_neg (by omega)]
    exact congrArg some (by omega)
  · rw [if_neg h1, if_pos (by omega)]

theorem create (hb : Balanced refs ptrs) {h : κ} (hn : refs h = none)
    (hp : ∀ k, ptrs' k = ptrs k + if k = h then 1 else 0) :
    Balanced (Function.update refs h (some 1)) ptrs' := by
  refine hb.update ?_ fun k hk => by rw [hp k, if_neg hk, Nat.add_zero]
  rw [hp h, if_pos rfl, hb.eq_none_iff.mp hn]
  rfl

end Balanced

/-! ## 表の slot -/

theorem sum_update {β M : Type*} [AddCommMonoid M] [DecidableEq ι] {s : Finset ι} {i : ι} (hi : i ∈ s)
    (f : ι → β) (b : β) (w : β → M) :
    ∑ j ∈ s, w (update f i b j) + w (f i) = ∑ j ∈ s, w (f j) + w b := by
  have hrest : ∑ j ∈ s.erase i, w (update f i b j) = ∑ j ∈ s.erase i, w (f j) := by
    refine Finset.sum_congr rfl fun j hj => ?_
    rw [update_of_ne (Finset.ne_of_mem_erase hj)]
  rw [← Finset.add_sum_erase s (fun j => w (update f i b j)) hi,
    ← Finset.add_sum_erase s (fun j => w (f j)) hi, update_self, hrest, add_assoc, add_comm,
    add_comm (∑ j ∈ s.erase i, w (f j))]

variable [DecidableEq κ]

section Table

variable [Fintype ι]

/-- 表の中で `h` を指す slot の数。 -/
def slotCount (t : ι → Option κ) (h : κ) : Nat := ∑ i, if t i = some h then 1 else 0

variable [DecidableEq ι]

theorem slotCount_update (t : ι → Option κ) (i : ι) (x : Option κ) (h : κ) :
    slotCount (update t i x) h + (if t i = some h then 1 else 0) =
      slotCount t h + if x = some h then 1 else 0 :=
  sum_update (Finset.mem_univ i) t x fun y => if y = some h then 1 else 0

theorem slotCount_pos {t : ι → Option κ} {i : ι} {h : κ} (hi : t i = some h) : 0 < slotCount t h := by
  unfold slotCount
  rw [← Finset.add_sum_erase _ _ (Finset.mem_univ i), if_pos hi]
  omega

end Table

/-- 空でない slot の指す先を順に並べたもの。 -/
def slotList {κ : Type*} {n : Nat} (t : Fin n → Option κ) : List κ := (finRange n).filterMap t

theorem slotCount_eq_count {n : Nat} (t : Fin n → Option κ) (h : κ) :
    slotCount t h = (slotList t).count h := by
  have key : ∀ l : List (Fin n),
      (l.map fun i => if t i = some h then 1 else 0).sum = (l.filterMap t).count h := by
    intro l
    induction l with
    | nil => rfl
    | cons i l ih =>
      rw [map_cons, sum_cons, ih, filterMap_cons]
      cases hi : t i with
      | none => simp
      | some k =>
        rw [count_cons]
        simp [Nat.add_comm]
  unfold slotCount slotList
  rw [← key, ← sum_toFinset _ (nodup_finRange n), toFinset_finRange]

theorem mem_slotList {κ : Type*} {n : Nat} {t : Fin n → Option κ} {h : κ} :
    h ∈ slotList t ↔ ∃ i, t i = some h := by
  simp [slotList]

theorem foldl_slotList {κ σ : Type*} {n : Nat} (t : Fin n → Option κ) (f : σ → Option κ → σ)
    (hf : ∀ s, f s none = s) (s : σ) :
    (finRange n).foldl (fun s i => f s (t i)) s = (slotList t).foldl (fun s h => f s (some h)) s := by
  unfold slotList
  rw [foldl_filterMap]
  congr
  funext s i
  cases t i with
  | none => exact hf s
  | some h => rfl

theorem slotList_getElem? {κ : Type*} {n : Nat} (l : List κ) (hl : l.length ≤ n) :
    slotList (fun i : Fin n => l[i.val]?) = l := by
  unfold slotList
  induction n generalizing l with
  | zero =>
    obtain rfl := length_eq_zero_iff.mp (Nat.le_zero.mp hl)
    rfl
  | succ n ih =>
    cases l with
    | nil => simp
    | cons x l =>
      rw [finRange_succ, filterMap_cons]
      simp only [Fin.val_zero, getElem?_cons_zero, filterMap_map]
      exact congrArg (x :: ·) (ih l (by simpa using hl))

end Infra
