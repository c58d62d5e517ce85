import MsProjects.Dynamo.System

/-! # 行を集める表 -/

namespace Dynamo

open List

variable {m rows : List Row} {key value x y : String}

theorem put_of_not_mem (h : key ∉ m.map Prod.fst) : put key value m = m ++ [(key, value)] := by
  induction m with
  | nil => rfl
  | cons row m ih =>
    rw [map_cons, mem_cons, not_or] at h
    rw [put, if_neg (Ne.symm h.1), ih h.2]
    rfl

theorem putAll_of_nodup (h : ((m ++ rows).map Prod.fst).Nodup) : putAll m rows = m ++ rows := by
  induction rows generalizing m with
  | nil => simp [putAll]
  | cons row rows ih =>
    have hput : put row.1 row.2 m = m ++ [row] := by
      refine put_of_not_mem fun hmem => ?_
      rw [map_append, nodup_append] at h
      exact h.2.2 _ hmem _ (by simp) rfl
    have hassoc : m ++ row :: rows = m ++ [row] ++ rows := by simp
    rw [putAll, foldl_cons, hput, hassoc]
    rw [hassoc] at h
    exact ih h

theorem putAll_append (m rows rows' : List Row) :
    putAll m (rows ++ rows') = putAll (putAll m rows) rows' := foldl_append

theorem map_fst_put_of_mem (h : key ∈ m.map Prod.fst) :
    (put key value m).map Prod.fst = m.map Prod.fst := by
  induction m with
  | nil => cases h
  | cons row m ih =>
    rw [put]
    split
    · rfl
    · next hne =>
      rw [map_cons, map_cons, ih ((mem_cons.mp h).resolve_left (Ne.symm hne))]

theorem nodup_put (h : (m.map Prod.fst).Nodup) : ((put key value m).map Prod.fst).Nodup := by
  by_cases hmem : key ∈ m.map Prod.fst
  · rwa [map_fst_put_of_mem hmem]
  · rw [put_of_not_mem hmem, map_append, nodup_append]
    refine ⟨h, nodup_singleton _, fun a ha b hb hab => hmem ?_⟩
    obtain rfl : b = key := mem_singleton.mp hb
    exact hab ▸ ha

theorem mem_put_iff (h : (m.map Prod.fst).Nodup) :
    (x, y) ∈ put key value m ↔ x = key ∧ y = value ∨ x ≠ key ∧ (x, y) ∈ m := by
  induction m with
  | nil => simp [put]
  | cons row m ih =>
    obtain ⟨k, v⟩ := row
    rw [map_cons, nodup_cons] at h
    rw [put]
    split
    · next heq =>
      subst heq
      grind
    · grind

theorem nodup_putAll (h : (m.map Prod.fst).Nodup) : ((putAll m rows).map Prod.fst).Nodup := by
  induction rows generalizing m with
  | nil => exact h
  | cons row rows ih => exact ih (nodup_put h)

/-- `rows` にある key の値は最後のもので、無い key の値は `m` のままである。 -/
theorem mem_putAll_iff (h : (m.map Prod.fst).Nodup) :
    (x, y) ∈ putAll m rows ↔
      rows.reverse.lookup x = some y ∨ rows.reverse.lookup x = none ∧ (x, y) ∈ m := by
  induction rows generalizing m with
  | nil => simp [putAll]
  | cons row rows ih =>
    obtain ⟨k, v⟩ := row
    rw [putAll, foldl_cons]
    refine (ih (nodup_put h)).trans ?_
    rw [reverse_cons, lookup_append, mem_put_iff h, lookup_cons]
    cases rows.reverse.lookup x with
    | some w => simp
    | none =>
      by_cases hx : x = k
      · simp [hx, eq_comm]
      · simp [hx, beq_false_of_ne hx]

/-! ## 引く -/

theorem filter_key_eq_nil_iff :
    rows.filter (fun row => row.1 = key) = [] ↔ ¬ ∃ value, (key, value) ∈ rows := by
  simp only [filter_eq_nil_iff, decide_eq_true_eq, Prod.forall]
  constructor
  · rintro h ⟨value, hmem⟩
    exact h key value hmem rfl
  · rintro h k value hmem rfl
    exact h ⟨value, hmem⟩

theorem mem_of_lookup (h : rows.lookup x = some y) : (x, y) ∈ rows := by
  obtain ⟨a, b, rfl, -⟩ := lookup_eq_some_iff.mp h
  simp

theorem exists_lookup (h : (x, y) ∈ rows) : ∃ v, rows.lookup x = some v := by
  induction rows with
  | nil => cases h
  | cons row rows ih =>
    obtain ⟨k, v⟩ := row
    rw [lookup_cons]
    by_cases hx : x = k
    · exact ⟨v, by simp [hx]⟩
    · obtain ⟨w, hw⟩ := ih ((mem_cons.mp h).resolve_left fun heq => hx (congrArg Prod.fst heq))
      exact ⟨w, by rw [beq_false_of_ne hx, hw]⟩

theorem lookup_eq_none_iff_forall : rows.lookup x = none ↔ ∀ y, (x, y) ∉ rows := by
  refine ⟨fun h y hy => ?_, fun h => ?_⟩
  · obtain ⟨v, hv⟩ := exists_lookup hy
    cases h.symm.trans hv
  · cases hx : rows.lookup x with
    | none => rfl
    | some v => exact absurd (mem_of_lookup hx) (h v)

theorem lookup_eq_some_iff_mem (hone : ∀ y y', (x, y) ∈ rows → (x, y') ∈ rows → y = y') :
    rows.lookup x = some y ↔ (x, y) ∈ rows := by
  refine ⟨mem_of_lookup, fun h => ?_⟩
  obtain ⟨v, hv⟩ := exists_lookup h
  rw [hv, hone v y (mem_of_lookup hv) h]

end Dynamo
