import Mathlib.Data.List.Dedup
import MsProjects.Infra.Intern
import MsProjects.WikiIndexer.Index

/-! # LocalDictionary の番号 -/

namespace WikiIndexer.Dictionary

open Infra List

variable {d : Dictionary} {v : Term} {vs : List Term}

/-- `fld` の値が入る表。 -/
def table (d : Dictionary) : List Term :=
  match d.fld with
  | .link => d.sharedDict
  | .term | .author | .category => d.localDict

/-- `LocalDictionary.lookup` を順に呼んだときの番号の列と、後の辞書。 -/
def lookups (d : Dictionary) : List Term → List Nat × Dictionary
  | [] => ([], d)
  | v :: vs =>
    let (id, d) := d.localLookup v
    let (ids, d) := lookups d vs
    (id :: ids, d)

theorem exists_eq (d : Dictionary) (v : Term) : d.exists v = d.table.contains v := by
  unfold Dictionary.exists table
  cases d.fld <;> rfl

theorem localLookup_table (d : Dictionary) (v : Term) :
    (d.localLookup v).1 = (intern d.table v).idxOf v ∧ (d.localLookup v).2.table = intern d.table v := by
  unfold localLookup sharedLookup table intern
  cases hfld : d.fld <;> simp only [exists_eq, table, hfld] <;> split <;> exact ⟨rfl, by simp only [hfld]⟩

/-- 前の値の番号は、後の `lookup` で動かない。 -/
theorem lookups_eq (d : Dictionary) (vs : List Term) :
    (d.lookups vs).1 = vs.map (internAll d.table vs).idxOf ∧
      (d.lookups vs).2.table = internAll d.table vs := by
  induction vs generalizing d with
  | nil => exact ⟨rfl, rfl⟩
  | cons v vs ih =>
    obtain ⟨hid, htable⟩ := d.localLookup_table v
    obtain ⟨hids, hrest⟩ := ih (d.localLookup v).2
    rw [htable] at hids hrest
    refine ⟨?_, hrest⟩
    rw [map_cons, internAll_cons, idxOf_internAll (mem_intern.mpr (.inr rfl)), ← hid, ← hids]
    rfl

theorem length_internAll (vs : List Term) : (internAll [] vs).length = vs.dedup.length := by
  refine Perm.length_eq ((perm_ext_iff_of_nodup (nodup_internAll nodup_nil vs) (nodup_dedup vs)).mpr ?_)
  simp

theorem idxOf_internAll_first (h : v ∈ vs) :
    (internAll [] vs).idxOf v = (vs.takeWhile (· ≠ v)).dedup.length := by
  obtain ⟨pre, rest, rfl, hpre⟩ := eq_append_cons_of_mem h
  have hfirst : (pre ++ v :: rest).takeWhile (· ≠ v) = pre := by
    rw [takeWhile_append_of_pos fun w hw => by simpa using ne_of_mem_of_not_mem hw hpre]
    simp
  have hout : v ∉ internAll [] pre := by simpa using hpre
  rw [hfirst, internAll_append, internAll_cons, idxOf_internAll (mem_intern.mpr (.inr rfl)),
    intern_of_notMem hout, idxOf_append_of_notMem hout, length_internAll]
  simp

/-- 順に引いた値 `vs` に番号 `ids` が付き、辞書が `d` になった。 -/
structure Numbered (vs : List Term) (ids : List Nat) (d : Dictionary) : Prop where
  length : ids.length = vs.length
  same : ∀ i j, i < vs.length → j < vs.length → (ids[i]? = ids[j]? ↔ vs[i]? = vs[j]?)
  first : ∀ (i : Nat) v, vs[i]? = some v → ids[i]? = some (vs.takeWhile (· ≠ v)).dedup.length
  range : ∀ n, n ∈ ids ↔ n < vs.dedup.length
  stored : ∀ (i : Nat) v id, vs[i]? = some v → ids[i]? = some id → d.table[id]? = some v
  present : ∀ v, d.exists v = true ↔ v ∈ vs

/-- **`lookup` は、どの field の辞書でも、初めて引かれた順に 0 からの番号を付け、その番号は動かない。** -/
theorem numbered_lookups (fld : IndexField) (vs : List Term) :
    Numbered vs ((Dictionary.new fld).lookups vs).1 ((Dictionary.new fld).lookups vs).2 := by
  have hempty : (Dictionary.new fld).table = [] := by cases fld <;> rfl
  obtain ⟨hids, htable⟩ := (Dictionary.new fld).lookups_eq vs
  rw [hempty] at hids htable
  have hmem : ∀ {v}, v ∈ internAll [] vs ↔ v ∈ vs := by simp
  have hget : ∀ {i : Nat} {v}, vs[i]? = some v →
      ((Dictionary.new fld).lookups vs).1[i]? = some ((internAll [] vs).idxOf v) := by
    intro i v hv
    simp [hids, hv]
  constructor
  · rw [hids, length_map]
  · intro i j hi hj
    rw [hget (getElem?_eq_getElem hi), hget (getElem?_eq_getElem hj), getElem?_eq_getElem hi,
      getElem?_eq_getElem hj, Option.some.injEq, Option.some.injEq]
    exact idxOf_inj (hmem.mpr (getElem_mem hi))
  · intro i v hv
    rw [hget hv, idxOf_internAll_first (mem_of_getElem? hv)]
  · intro n
    rw [hids, ← length_internAll, mem_map]
    constructor
    · rintro ⟨v, hv, rfl⟩
      exact idxOf_lt_length_of_mem (hmem.mpr hv)
    · intro hn
      exact ⟨_, hmem.mp (getElem_mem hn), (nodup_internAll nodup_nil vs).idxOf_getElem n hn⟩
  · intro i v id hv hid
    rw [hget hv, Option.some.injEq] at hid
    rw [htable, ← hid]
    exact getElem?_idxOf (hmem.mpr (mem_of_getElem? hv))
  · intro v
    rw [exists_eq, htable, contains_iff_mem]
    exact hmem

end WikiIndexer.Dictionary
