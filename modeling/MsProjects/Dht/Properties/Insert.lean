import MsProjects.Dht.Insert
import MsProjects.Dynamo.Properties.Ring

/-! # SimpleDht の insert の担当 -/

namespace Dht

open Dynamo Infra

variable {ι H : Type*} [LinearOrder H] [DecidableEq ι] {r : Ring ι H} {i : ι} {h : H}

theorem insert_eq_store_iff [Nontrivial ι] : insert r i h = .store ↔ r.isMyPartiton i h = true := by
  rw [insert, if_neg (r.successor_ne i), Ring.isMyPartiton]
  cases inPartition h (r.hashKey i) (r.hashKey (r.predessor i)) <;> simp

theorem processInsertRequestMsg_eq_store_iff [Nontrivial ι] :
    processInsertRequestMsg r i h = some .store ↔ r.isMyPartiton i h = true := by
  rw [processInsertRequestMsg]
  split <;> rename_i hin
  · rw [Option.some.injEq, insert_eq_store_iff]
  · simpa [Ring.isMyPartiton] using hin

/-- **担当の node がちょうど一つ定まるのは、key の hash が最小の node の hash と異なるときである。** -/
theorem partition_iff [Fintype ι] (r : Ring ι H) (hcard : 2 ≤ Fintype.card ι) (h : H) :
    (∃ i, (∀ j, r.isMyPartiton j h = true ↔ j = i) ∧
      (∀ j, insert r j h = .store ↔ j = i) ∧
      (∀ j, processInsertRequestMsg r j h = some .store ↔ j = i) ∧
      ∀ nodeMap : List ι, (∀ j, j ∈ nodeMap) → r.getNode nodeMap h = some i) ↔
    ∀ j, IsLowest r.hashKey j → h ≠ r.hashKey j := by
  have : Nontrivial ι := Fintype.one_lt_card_iff_nontrivial.mp hcard
  constructor
  · rintro ⟨i, hi, -⟩ j hj rfl
    have hnone := Ring.isMyPartiton_lowest hj i
    rw [(hi i).mpr rfl] at hnone
    cases hnone
  · intro hlow
    obtain ⟨i, hown⟩ := r.exists_isMyPartiton_iff hlow
    refine ⟨i, hown, ?_, ?_, ?_⟩
    · exact fun j => insert_eq_store_iff.trans (hown j)
    · exact fun j => processInsertRequestMsg_eq_store_iff.trans (hown j)
    · exact fun nodeMap hall => Ring.getNodeLoop_eq hown (hall i) none

/-- `join` の輪で、key "5560" の担当は `n4` に定まる。 -/
theorem partition_iff_join :
    2 ≤ Fintype.card JoinNode ∧
      ∃ i, (∀ j, join.isMyPartiton j (genHash "5560") = true ↔ j = i) ∧
        (∀ j, insert join j (genHash "5560") = .store ↔ j = i) ∧
        (∀ j, processInsertRequestMsg join j (genHash "5560") = some .store ↔ j = i) ∧
        ∀ nodeMap : List JoinNode, (∀ j, j ∈ nodeMap) →
          join.getNode nodeMap (genHash "5560") = some i := by
  refine ⟨by decide, (partition_iff join (by decide) _).mpr fun j hj heq => ?_⟩
  obtain rfl := (join_isLowest_iff j).mp hj
  cases join.cyclic.injective ((genHash_eq_join_hashKey .n4).symm.trans heq)

/-- `join` の輪の key "5562" には担当の node が無い。 -/
theorem no_partition_join :
    (∀ j, join.isMyPartiton j (genHash "5562") = false) ∧
      join.getNode [.n1, .n2, .n3, .n4, .n5] (genHash "5562") = some .n5 ∧
      join.getNode [.n5, .n4, .n3, .n2, .n1] (genHash "5562") = some .n1 ∧
      ∀ j, insert join j (genHash "5562") = .forward ∧
        processInsertRequestMsg join j (genHash "5562") = none := by
  rw [show genHash "5562" = JoinNode.digest .n5 from JoinNode.genHash_name .n5]
  simp only [Ring.isMyPartiton, Ring.getNode, Ring.getNodeLoop, insert, processInsertRequestMsg,
    join_hashKey]
  decide +kernel

end Dht
