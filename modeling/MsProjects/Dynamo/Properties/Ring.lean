import MsProjects.Dynamo.Ring

/-! # 担当の node -/

namespace Dynamo

open Infra (IsLowest Owns)

theorem nontrivial_of_card {ι : Type*} [Fintype ι] (h : 2 < Fintype.card ι) : Nontrivial ι :=
  Fintype.one_lt_card_iff_nontrivial.mp h.le

/-! ## 三つの節 -/

section inPartition

variable {H : Type*} [LinearOrder H] {h own pred : H}

theorem inPartition_iff_of_lt (hlt : pred < own) :
    inPartition h own pred = true ↔ pred < h ∧ h ≤ own := by
  simp [inPartition, not_lt.mpr hlt.le, and_comm]

theorem inPartition_iff_of_gt (hlt : own < pred) :
    inPartition h own pred = true ↔ pred < h ∨ h < own := by
  have hempty : ¬ (h ≤ own ∧ h > pred) := fun ⟨hle, hgt⟩ => absurd hlt (not_lt.mpr (hgt.le.trans hle))
  simp only [inPartition, hempty, if_false, hlt, and_true]
  rcases lt_or_ge pred h with hp | hp
  · simp [hp, hlt.trans hp]
  · simp [not_lt.mpr hp]
    intro ho
    exact ho.trans hlt

end inPartition

namespace Ring

variable {ι H : Type*} [LinearOrder H] {r : Ring ι H} {i j : ι} {h : H}

theorem successor_ne [Nontrivial ι] (r : Ring ι H) (i : ι) : r.successor i ≠ i := by
  intro heq
  apply r.cyclic.pred_ne i
  rw [← heq, r.predessor_successor, heq]

theorem successor_successor_ne [Fintype ι] (hcard : 2 < Fintype.card ι) (i : ι) :
    r.successor (r.successor i) ≠ i := by
  intro heq
  apply r.cyclic.pred_pred_ne hcard i
  nth_rewrite 1 [← heq]
  rw [r.predessor_successor, r.predessor_successor]

theorem isMyPartiton_iff [Nontrivial ι] :
    r.isMyPartiton i h = true ↔ Owns r.hashKey i h ∧ ¬ (IsLowest r.hashKey i ∧ h = r.hashKey i) := by
  have hne : r.hashKey (r.predessor i) ≠ r.hashKey i :=
    fun heq => r.cyclic.pred_ne i (r.cyclic.injective heq)
  rw [isMyPartiton, r.cyclic.owns_iff, r.cyclic.isLowest_iff]
  rcases lt_or_gt_of_ne hne with hlt | hgt
  · rw [inPartition_iff_of_lt hlt]
    simp [not_le.mpr hlt]
  · rw [inPartition_iff_of_gt hgt]
    -- 最小の node では、自分の hash だけが抜ける
    simp only [hgt.le, true_and]
    constructor
    · rintro (hp | hown)
      · exact ⟨.inr (.inl hp), (hgt.trans hp).ne'⟩
      · exact ⟨.inr (.inr hown.le), hown.ne⟩
    · rintro ⟨⟨hp, -⟩ | hp | hown, hne⟩
      · exact .inl hp
      · exact .inl hp
      · exact .inr (lt_of_le_of_ne hown hne)

theorem isMyPartiton_lowest [Nontrivial ι] (hi : IsLowest r.hashKey i) (j : ι) :
    r.isMyPartiton j (r.hashKey i) = false := by
  rw [← Bool.not_eq_true, isMyPartiton_iff]
  rintro ⟨hj, hne⟩
  have howns : Owns r.hashKey i (r.hashKey i) := .inl ⟨le_rfl, fun k _ => hi k⟩
  obtain rfl := hj.unique r.cyclic.injective howns
  exact hne ⟨hi, rfl⟩

theorem exists_isMyPartiton_iff [Finite ι] [Nontrivial ι] (r : Ring ι H)
    (hlow : ∀ j, IsLowest r.hashKey j → h ≠ r.hashKey j) :
    ∃ i, ∀ j, r.isMyPartiton j h = true ↔ j = i := by
  obtain ⟨i, hi, huniq⟩ := Infra.existsUnique_owns r.cyclic.injective h
  refine ⟨i, fun j => ?_⟩
  rw [isMyPartiton_iff]
  constructor
  · exact fun hj => huniq j hj.1
  · rintro rfl
    exact ⟨hi, fun hj => hlow j hj.1 hj.2⟩

theorem getNodeLoop_eq (hi : ∀ j, r.isMyPartiton j h = true ↔ j = i) {nodeMap : List ι}
    (hmem : i ∈ nodeMap) (last : Option ι) : r.getNodeLoop h last nodeMap = some i := by
  induction nodeMap generalizing last with
  | nil => simp at hmem
  | cons j nodeMap ih =>
    rw [getNodeLoop]
    by_cases hj : j = i
    · rw [if_pos (by exact (hi j).mpr hj), hj]
    · rw [if_neg (by exact fun ht => hj ((hi j).mp ht))]
      exact ih ((List.mem_cons.mp hmem).resolve_left fun heq => hj heq.symm) _

end Ring

/-! ## `join` の輪 -/

theorem genHash_eq_join_hashKey (n : JoinNode) : genHash n.name = join.hashKey n := rfl

theorem join_hashKey : join.hashKey = JoinNode.digest := funext JoinNode.genHash_name

theorem join_isLowest_iff (n : JoinNode) : IsLowest join.hashKey n ↔ n = .n5 := by
  rw [join_hashKey]
  unfold IsLowest
  revert n
  decide +kernel

end Dynamo
