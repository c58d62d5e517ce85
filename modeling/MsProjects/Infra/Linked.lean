import Mathlib.Data.List.Nodup

/-!
# pointer で繋いだ列

`next` を辿って得られる列。
-/

namespace Infra

open List Function

variable {α : Type*}

/-- `head` から `next` を辿ると、順に `l` を通って終わる。 -/
def Linked (next : α → Option α) : Option α → List α → Prop
  | head, [] => head = none
  | head, a :: l => head = some a ∧ Linked next (next a) l

variable {next next' : α → Option α} {head : Option α} {l r : List α} {a b : α}

@[simp] theorem linked_nil : Linked next head [] ↔ head = none := Iff.rfl

@[simp] theorem linked_cons : Linked next head (a :: l) ↔ head = some a ∧ Linked next (next a) l :=
  Iff.rfl

theorem Linked.congr (h : Linked next head l) (heq : ∀ x ∈ l, next' x = next x) :
    Linked next' head l := by
  induction l generalizing head with
  | nil => exact h
  | cons a l ih =>
    refine ⟨h.1, ?_⟩
    rw [heq a mem_cons_self]
    exact ih h.2 fun x hx => heq x (mem_cons_of_mem _ hx)

variable [DecidableEq α]

theorem Linked.unlink (h : Linked next head (l ++ b :: a :: r)) (hnodup : (l ++ b :: a :: r).Nodup) :
    Linked (update next b (next a)) head (l ++ b :: r) := by
  induction l generalizing head with
  | nil =>
    obtain ⟨hhead, hb, hr⟩ := h
    refine ⟨hhead, ?_⟩
    rw [update_self]
    refine hr.congr fun x hx => update_of_ne ?_ _ _
    rintro rfl
    rw [nil_append, nodup_cons] at hnodup
    exact hnodup.1 (mem_cons_of_mem _ hx)
  | cons c l ih =>
    obtain ⟨hhead, hrest⟩ := h
    rw [cons_append, nodup_cons] at hnodup
    refine ⟨hhead, ?_⟩
    rw [update_of_ne]
    · exact ih hrest hnodup.2
    · rintro rfl
      exact hnodup.1 (by simp)

end Infra
