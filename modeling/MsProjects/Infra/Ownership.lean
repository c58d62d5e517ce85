import Mathlib.Data.Set.Basic
import Mathlib.Logic.Equiv.Basic

/-!
# 資源の持ち主

持ち主 `i` が資源の集合 `foot i` を持つとき、集合は互いに重ならず、どの資源も使用中である。
-/

namespace Infra

open List Function

variable {ι ρ : Type*}

/-- 持ち主ごとの集合は重ならず、持たれている資源は使用中である。 -/
structure Ownership (held : ρ → Prop) (foot : ι → Set ρ) : Prop where
  held : ∀ i, ∀ p ∈ foot i, held p
  disjoint : ∀ i j, i ≠ j → ∀ p ∈ foot i, p ∉ foot j

namespace Ownership

variable {held held' : ρ → Prop} {foot : ι → Set ρ}

theorem comp {κ : Type*} {f : κ → ι} (hf : Injective f) (h : Ownership held foot) :
    Ownership held (foot ∘ f) :=
  ⟨fun k p hp => h.held (f k) p hp, fun _ _ hkl p hp => h.disjoint _ _ (hf.ne hkl) p hp⟩

variable [DecidableEq ι]

theorem update (h : Ownership held foot) {i : ι} {S : Set ρ}
    (hk : ∀ p, p ∉ foot i → held p → held' p) (hS : ∀ p ∈ S, held' p)
    (hnew : ∀ p ∈ S, p ∈ foot i ∨ ¬ held p) : Ownership held' (update foot i S) := by
  constructor
  · intro j p hp
    by_cases hj : j = i
    · subst hj
      rw [update_self] at hp
      exact hS p hp
    · rw [update_of_ne hj] at hp
      exact hk p (h.disjoint j i hj p hp) (h.held j p hp)
  · intro j k hjk p hp hp'
    -- 他の持ち主の資源は、`i` が元から持っていたものでも、使われていなかったものでもない
    have key : ∀ l, l ≠ i → p ∈ foot l → p ∉ S := by
      intro l hl hpl hpS
      rcases hnew p hpS with hpi | hfree
      · exact h.disjoint l i hl p hpl hpi
      · exact hfree (h.held l p hpl)
    by_cases hj : j = i
    · subst hj
      rw [update_self] at hp
      rw [update_of_ne hjk.symm] at hp'
      exact key k hjk.symm hp' hp
    · rw [update_of_ne hj] at hp
      by_cases hki : k = i
      · subst hki
        rw [update_self] at hp'
        exact key j hj hp hp'
      · rw [update_of_ne hki] at hp'
        exact h.disjoint j k hjk p hp hp'

theorem release (h : Ownership held foot) {i : ι} (hk : ∀ p, p ∉ foot i → held p → held' p) :
    Ownership held' (Function.update foot i ∅) :=
  h.update hk (fun _ hp => absurd hp (Set.notMem_empty _)) fun _ hp =>
    absurd hp (Set.notMem_empty _)

theorem move (h : Ownership held foot) {i j : ι} (hij : i ≠ j) (hj : foot j = ∅) :
    Ownership held (Function.update (Function.update foot j (foot i)) i ∅) := by
  have heq : Function.update (Function.update foot j (foot i)) i ∅ = foot ∘ Equiv.swap i j := by
    funext k
    by_cases hki : k = i
    · subst hki
      simp [hj]
    · rw [update_of_ne hki]
      by_cases hkj : k = j
      · subst hkj
        simp
      · simp [update_of_ne hkj, Equiv.swap_apply_of_ne_of_ne hki hkj]
  rw [heq]
  exact h.comp (Equiv.swap i j).injective

end Ownership

end Infra
