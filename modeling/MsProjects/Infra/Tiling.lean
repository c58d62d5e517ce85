import Mathlib.Algebra.BigOperators.Ring.Finset

/-!
# 区間を敷き詰める block

長さを持つ block を隙間なく並べたもの。
-/

namespace Infra

open List Function

variable {β : Type*} (len : β → Nat)

/-- 並べた長さ。 -/
def span (bs : List β) : Nat := (bs.map len).sum

/-- 並びの最後の block の長さ。 -/
def lastLen (prev : Nat) : List β → Nat
  | [] => prev
  | b :: bs => lastLen (len b) bs

/-- 並びのすべての block が `P` を満たす。 -/
def Tiles (P : Nat → Nat → β → Prop) : Nat → Nat → List β → Prop
  | _, _, [] => True
  | pos, prev, b :: bs => P pos prev b ∧ Tiles P (pos + len b) (len b) bs

/-- 位置を付けた block。 -/
def place (pos : Nat) : List β → List (Nat × β)
  | [] => []
  | b :: bs => (pos, b) :: place (pos + len b) bs

variable {len} {P Q : Nat → Nat → β → Prop} {pos prev : Nat} {a b : List β} {x : β}

@[simp] theorem span_nil : span len [] = 0 := rfl
@[simp] theorem span_cons : span len (x :: b) = len x + span len b := by simp [span]
@[simp] theorem span_append : span len (a ++ b) = span len a + span len b := by simp [span]

@[simp] theorem tiles_nil : Tiles len P pos prev [] := trivial

@[simp] theorem tiles_cons :
    Tiles len P pos prev (x :: b) ↔ P pos prev x ∧ Tiles len P (pos + len x) (len x) b := Iff.rfl

theorem lastLen_append : lastLen len prev (a ++ b) = lastLen len (lastLen len prev a) b := by
  induction a generalizing prev with
  | nil => rfl
  | cons y a ih => exact ih

theorem lastLen_le : lastLen len prev b ≤ prev + span len b := by
  induction b generalizing prev with
  | nil => simp [lastLen]
  | cons y b ih =>
    have hle : lastLen len prev (y :: b) ≤ len y + span len b := ih
    rw [span_cons]
    omega

theorem tiles_append :
    Tiles len P pos prev (a ++ b) ↔
      Tiles len P pos prev a ∧ Tiles len P (pos + span len a) (lastLen len prev a) b := by
  induction a generalizing pos prev with
  | nil => simp [lastLen]
  | cons y a ih =>
    rw [cons_append, tiles_cons, ih, tiles_cons, span_cons, ← Nat.add_assoc, and_assoc]
    rfl

theorem Tiles.imp (h : Tiles len P pos prev b)
    (hPQ : ∀ q p y, y ∈ b → pos ≤ q → q + len y ≤ pos + span len b → P q p y → Q q p y) :
    Tiles len Q pos prev b := by
  induction b generalizing pos prev with
  | nil => trivial
  | cons y b ih =>
    rw [span_cons] at hPQ
    obtain ⟨hy, hb⟩ := h
    refine ⟨hPQ pos prev y mem_cons_self le_rfl (by omega) hy, ih hb fun q p z hz hq hend => ?_⟩
    exact hPQ q p z (mem_cons_of_mem _ hz) (by omega) (by omega)

theorem place_append :
    place len pos (a ++ b) = place len pos a ++ place len (pos + span len a) b := by
  induction a generalizing pos with
  | nil => rfl
  | cons y a ih => simp [place, ih, Nat.add_assoc]

theorem mem_place {q : Nat} (h : (q, x) ∈ place len pos b) :
    x ∈ b ∧ pos ≤ q ∧ q + len x ≤ pos + span len b := by
  induction b generalizing pos with
  | nil => simp [place] at h
  | cons y b ih =>
    rw [span_cons]
    rcases mem_cons.mp h with heq | h
    · obtain ⟨rfl, rfl⟩ := Prod.mk.inj heq
      exact ⟨mem_cons_self, le_rfl, by omega⟩
    · obtain ⟨hmem, hle, hend⟩ := ih h
      exact ⟨mem_cons_of_mem _ hmem, by omega, by omega⟩

theorem exists_of_mem_place {q : Nat} (h : (q, x) ∈ place len pos b) :
    ∃ l r, b = l ++ x :: r ∧ q = pos + span len l := by
  induction b generalizing pos with
  | nil => simp [place] at h
  | cons y b ih =>
    rcases mem_cons.mp h with heq | h
    · obtain ⟨rfl, rfl⟩ := Prod.mk.inj heq
      exact ⟨[], b, rfl, by simp⟩
    · obtain ⟨l, r, rfl, rfl⟩ := ih h
      exact ⟨y :: l, r, rfl, by rw [span_cons]; omega⟩

theorem map_snd_place : (place len pos b).map Prod.snd = b := by
  induction b generalizing pos with
  | nil => rfl
  | cons y b ih => rw [place, map_cons, ih]

theorem Tiles.isChain (h : Tiles len P pos prev b) :
    (place len pos b).IsChain fun u v => (∃ p, P u.1 p u.2) ∧ P v.1 (len u.2) v.2 := by
  induction b generalizing pos prev with
  | nil => exact .nil
  | cons y b ih =>
    cases b with
    | nil => exact .singleton _
    | cons z b => exact .cons_cons ⟨⟨prev, h.1⟩, h.2.1⟩ (ih h.2)

theorem pairwise_place : (place len pos b).Pairwise fun u v => u.1 + len u.2 ≤ v.1 := by
  induction b generalizing pos with
  | nil => exact .nil
  | cons y b ih =>
    refine .cons ?_ ih
    rintro ⟨q, z⟩ hz
    exact (mem_place hz).2.1

end Infra
