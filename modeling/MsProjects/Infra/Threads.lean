import Mathlib.Algebra.BigOperators.Ring.Finset
import Mathlib.Algebra.Order.BigOperators.Group.Finset
import MsProjects.Infra.RefCount

/-!
# thread ごとの重み

thread の集まりの各々が状態 `π` を一つ持つとき、状態に重みを付けて足し合わせる。
-/

namespace Infra

open List Function

variable {T π : Type*}

/-! ## 一つの thread の移動 -/

section Update

variable [DecidableEq T] {f : T → π} {t : T} {b y : π}

theorem update_eq_iff (hold : f t ≠ y) (hnew : b ≠ y) (u : T) : update f t b u = y ↔ f u = y := by
  by_cases h : u = t
  · subst h
    simp [hold, hnew]
  · rw [update_of_ne h]

theorem update_eq_or_iff {z : π} (hold : f t ≠ y ∧ f t ≠ z) (hnew : b ≠ y ∧ b ≠ z) (u : T) :
    (update f t b u = y ∨ update f t b u = z) ↔ (f u = y ∨ f u = z) := by
  rw [update_eq_iff hold.1 hnew.1, update_eq_iff hold.2 hnew.2]

theorem update_eq_iff_or (u : T) : update f t y u = y ↔ f u = y ∨ u = t := by
  by_cases h : u = t
  · subst h
    simp
  · simp [h]

theorem update_eq_iff_and (hnew : b ≠ y) (u : T) : update f t b u = y ↔ f u = y ∧ u ≠ t := by
  by_cases h : u = t
  · subst h
    simp [hnew]
  · simp [h]

end Update

/-! ## 番号を付けた thread の列 -/

section List

variable {l : List π} {t : Nat} {x x' c : π}

theorem getElem?_set_iff (hx : l[t]? = some x) {u : Nat} {y : π} :
    (l.set t x')[u]? = some y ↔ (u = t ∧ y = x') ∨ (u ≠ t ∧ l[u]? = some y) := by
  have hlt : t < l.length := (List.getElem?_eq_some_iff.mp hx).1
  by_cases hu : u = t
  · subst hu
    simp [hlt, eq_comm]
  · simp [getElem?_set_ne (Ne.symm hu), hu]

theorem getElem?_concat_iff {u : Nat} {y : π} :
    (l ++ [c])[u]? = some y ↔ l[u]? = some y ∨ (u = l.length ∧ y = c) := by
  by_cases hu : u < l.length
  · simp [getElem?_append_left hu, Nat.ne_of_lt hu]
  · rw [getElem?_append_right (Nat.le_of_not_lt hu), getElem?_eq_none (Nat.le_of_not_lt hu)]
    by_cases heq : u = l.length
    · subst heq
      simp [eq_comm]
    · have hne : u - l.length ≠ 0 := by omega
      simp [heq, hne]

theorem sum_map_set (w : π → Nat) (hx : l[t]? = some x) (b : π) :
    ((l.set t b).map w).sum + w x = (l.map w).sum + w b := by
  induction l generalizing t with
  | nil => simp at hx
  | cons y l ih =>
    cases t with
    | zero =>
      obtain rfl : y = x := by simpa using hx
      simp only [set_cons_zero, map_cons, sum_cons]
      omega
    | succ t =>
      have hsum := ih (by simpa using hx)
      simp only [set_cons_succ, map_cons, sum_cons]
      omega

end List

/-! ## 重みの和 -/

variable [Fintype T]

/-- thread の状態の重みの和。 -/
def total {M : Type*} [AddCommMonoid M] (w : π → M) (f : T → π) : M := ∑ t, w (f t)

theorem total_update {M : Type*} [AddCommMonoid M] [DecidableEq T] (w : π → M) (f : T → π) (t : T) (b : π) :
    total w (update f t b) + w (f t) = total w f + w b :=
  sum_update (Finset.mem_univ t) f b w

theorem exists_of_total_pos {w : π → Nat} {f : T → π} (h : 0 < total w f) : ∃ t, 0 < w (f t) := by
  by_contra hno
  have hzero : total w f = 0 :=
    Finset.sum_eq_zero fun t _ => Nat.eq_zero_of_not_pos fun ht => hno ⟨t, ht⟩
  omega

section Int

variable {w : π → Int} {f : T → π}

theorem total_le_total {w' : π → Int} (h : ∀ t, w (f t) ≤ w' (f t)) : total w f ≤ total w' f :=
  Finset.sum_le_sum fun t _ => h t

theorem sum_le_total (hw : ∀ t, 0 ≤ w (f t)) (s : Finset T) : ∑ t ∈ s, w (f t) ≤ total w f :=
  Finset.sum_le_univ_sum_of_nonneg hw

theorem add_le_total [DecidableEq T] (hw : ∀ t, 0 ≤ w (f t)) {t u : T} (hne : t ≠ u) :
    w (f t) + w (f u) ≤ total w f := by
  rw [← Finset.sum_pair (f := fun t => w (f t)) hne]
  exact sum_le_total hw {t, u}

theorem card_le_total {ι : Type*} [Fintype ι] (hw : ∀ t, 0 ≤ w (f t)) {g : ι → T}
    (hg : Injective g) (h : ∀ i, w (f (g i)) = 1) : (Fintype.card ι : Int) ≤ total w f := by
  have hsum := sum_le_total hw (Finset.univ.map ⟨g, hg⟩)
  rw [Finset.sum_map] at hsum
  simpa [h] using hsum

theorem total_eq_single {t : T} (h : ∀ u, u ≠ t → w (f u) = 0) : total w f = w (f t) :=
  Finset.sum_eq_single t (fun u _ hu => h u hu) fun ht => absurd (Finset.mem_univ t) ht

theorem total_eq_zero (h : ∀ t, w (f t) = 0) : total w f = 0 := Finset.sum_eq_zero fun t _ => h t

end Int

end Infra
