import MsProjects.Sql.Group

/-! # group と結果の行の正しさ -/

namespace Sql

open List Function

/-! ## `calculateGroupBy` -/

section

variable {α : Type} (key : α → Text)

theorem addToGroup_eq (l : List α) (row : α) {ks : List Text} (hks : ks.Nodup)
    (h : ∀ r ∈ l, key r = key row → key r ∈ ks) :
    addToGroup (key row) row (ks.map fun k => (k, l.filter fun r => key r = k)) =
      (if key row ∈ ks then ks else ks ++ [key row]).map fun k =>
        (k, (l ++ [row]).filter fun r => key r = k) := by
  induction ks with
  | nil =>
    have hnone : l.filter (fun r => key r = key row) = [] :=
      filter_eq_nil_iff.mpr fun r hr => by simpa using h r hr
    simp [addToGroup, hnone]
  | cons k ks ih =>
    obtain ⟨hk, hks⟩ := nodup_cons.mp hks
    rw [map_cons, addToGroup]
    by_cases heq : k = key row
    · subst heq
      have hrest : ks.map (fun k => (k, l.filter fun r => key r = k)) =
          ks.map fun k => (k, (l ++ [row]).filter fun r => key r = k) := by
        refine map_congr_left fun k hmem => ?_
        have hne : key row ≠ k := fun heq => hk (heq ▸ hmem)
        simp [hne]
      simp [hrest]
    · have hne : key row ≠ k := Ne.symm heq
      rw [if_neg heq, ih hks fun r hr hrow => (mem_cons.mp (h r hr hrow)).resolve_left (hrow ▸ hne)]
      by_cases hmem : key row ∈ ks <;> simp [hmem, hne]

theorem exists_keys (l : List α) :
    ∃ ks : List Text, ks.Nodup ∧ (∀ k, k ∈ ks ↔ ∃ r ∈ l, key r = k) ∧
      l.foldl (fun grouped row => addToGroup (key row) row grouped) [] =
        ks.map fun k => (k, l.filter fun r => key r = k) := by
  induction l using reverseRecOn with
  | nil => exact ⟨[], nodup_nil, by simp, rfl⟩
  | append_singleton l row ih =>
    obtain ⟨ks, hks, hmem, heq⟩ := ih
    refine ⟨if key row ∈ ks then ks else ks ++ [key row], ?_, fun k => ?_, ?_⟩
    · split
      · exact hks
      · next hnot => exact hks.append (nodup_singleton _) (by simpa using hnot)
    · split
      · next hrow =>
        obtain ⟨r, hr, hkey⟩ := (hmem _).mp hrow
        rw [hmem]
        constructor
        · rintro ⟨r, hr, hk⟩
          exact ⟨r, mem_append_left _ hr, hk⟩
        · rintro ⟨r', hr', rfl⟩
          rcases mem_append.mp hr' with hr' | hr'
          · exact ⟨r', hr', rfl⟩
          · exact ⟨r, hr, by rw [hkey, mem_singleton.mp hr']⟩
      · simp [hmem, eq_comm]
    · rw [foldl_append, heq, foldl_cons, foldl_nil]
      exact addToGroup_eq key l row hks fun r hr _ => (hmem _).mpr ⟨r, hr, rfl⟩

end

section

variable {τ : Type} (value : τ → Column → Option Text) (groupBy : List Column)
  (instream : List (List τ))

/-- group は列の値がすべて等しい行を入力の順に並べたもので、同じ group は二つ無い。 -/
def GroupsExact (groups : List (List (List τ))) : Prop :=
  groups.Nodup ∧ ∀ g, g ∈ groups ↔
    ∃ row ∈ instream, g = instream.filter fun r => rowValues value groupBy r = rowValues value groupBy row

/-- 繋ぐと等しくなる値の列は、同じ列である。 -/
def KeysSeparate : Prop :=
  ∀ row ∈ instream, ∀ row' ∈ instream,
    groupKey (rowValues value groupBy row) = groupKey (rowValues value groupBy row') →
      rowValues value groupBy row = rowValues value groupBy row'

theorem groupRows_exact_iff :
    GroupsExact value groupBy instream (groupRows value groupBy instream) ↔
      KeysSeparate value groupBy instream := by
  obtain ⟨ks, hks, hmem, heq⟩ := exists_keys (fun row => groupKey (rowValues value groupBy row)) instream
  unfold groupRows GroupsExact KeysSeparate
  rw [heq, map_map]
  simp only [comp_def]
  generalize rowValues value groupBy = values at hmem ⊢
  have hself {row : List τ} (hrow : row ∈ instream) :
      row ∈ instream.filter fun r => groupKey (values r) = groupKey (values row) := by simpa using hrow
  constructor
  · rintro ⟨-, hgroups⟩ row hrow row' hrow' hkey
    obtain ⟨first, -, hsame⟩ := (hgroups _).mp (mem_map_of_mem ((hmem _).mpr ⟨row, hrow, rfl⟩))
    have hin := hself hrow
    have hin' := hself hrow'
    rw [hsame] at hin
    rw [← hkey, hsame] at hin'
    simp only [mem_filter, decide_eq_true_eq] at hin hin'
    exact hin.2.trans hin'.2.symm
  · intro hsep
    have hclass : ∀ row ∈ instream,
        (instream.filter fun r => groupKey (values r) = groupKey (values row)) =
          instream.filter fun r => values r = values row := by
      refine fun row hrow => filter_congr fun r hr => ?_
      rw [decide_eq_decide]
      exact ⟨hsep r hr row hrow, congrArg groupKey⟩
    refine ⟨?_, fun g => ?_⟩
    · refine (nodup_map_iff_inj_on hks).mpr fun k hk k' _ hkk' => ?_
      obtain ⟨row, hrow, rfl⟩ := (hmem k).mp hk
      have hin := hself hrow
      rw [hkk'] at hin
      simpa using (mem_filter.mp hin).2
    · rw [mem_map]
      constructor
      · rintro ⟨k, hk, rfl⟩
        obtain ⟨row, hrow, rfl⟩ := (hmem k).mp hk
        exact ⟨row, hrow, hclass row hrow⟩
      · rintro ⟨row, hrow, rfl⟩
        exact ⟨_, (hmem _).mpr ⟨row, hrow, rfl⟩, hclass row hrow⟩

/-- **group が正しいのは、繋いだ値の等しい行がどの列の値も等しいときに限る。** -/
theorem groupBy_exact_iff :
    (GroupsExact value groupBy instream (calculateGroupBy value groupBy instream) ↔
        KeysSeparate value groupBy instream) ∧
      (GroupsExact value groupBy instream (combineGroupBy value groupBy instream) ↔
        KeysSeparate value groupBy instream) :=
  ⟨groupRows_exact_iff value groupBy instream, groupRows_exact_iff value groupBy instream⟩

end

/-- 値が `a`、`bc` の行と `ab`、`c` の行は同じ group になる。 -/
theorem groupBy_joins_rows :
    calculateGroupBy (fun (tup : List Text) c => tup[c.id]?) [⟨['p'], 0⟩, ⟨['q'], 1⟩]
        [[[['a'], ['b', 'c']]], [[['a', 'b'], ['c']]]] =
      [[[[['a'], ['b', 'c']]], [[['a', 'b'], ['c']]]]] := by
  decide

/-! ## `processQuery` -/

/-- **GROUP BY も sub-select も無い query の結果がすべての行の射影になるのは、行が一つも無いときに限る。** -/
theorem processRows_iff {α : Type} (op : RowOperators α) (addToOutstream files : Nat → List α) :
    (processRows op .none false addToOutstream [] files).1.Perm
        ((range bins).flatMap fun j => (addToOutstream j).map op.project) ↔
      ∀ j < bins, addToOutstream j = [] := by
  have hbin : processBin op .none false addToOutstream = fun st _ => st := rfl
  unfold processRows
  rw [hbin]
  simp

/-- 一つの bin に一行があっても、何も返らない。 -/
theorem processRows_drops_row :
    (processRows (⟨id, pure, fun _ => [], pure, fun _ => []⟩ : RowOperators (List Tuple)) .none false
      (fun j => if j = 0 then [[(['t'], [some ['1']])]] else []) [] fun _ => []).1 = [] := by
  decide

end Sql
