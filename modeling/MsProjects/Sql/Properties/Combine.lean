import Mathlib
import MsProjects.Infra.Emit
import MsProjects.Sql.Properties.Aggregate

/-! # bin に分けた集計と group 全体の集計 -/

namespace Sql

open Infra List Function Sql.Symbol SelectItem Value

open Option (bind_eq_bind bind_eq_some_iff elim_some getD_some some)

variable {D : Decimal} {q : Query}

variable {name exp : Text} {s : Option Symbol} {c : Column} {rows bin : List Row} {i : Nat}
  {item : SelectItem} {σ : Symbol}

/-! ## 仕様 -/

/-- 項目の group 全体での値。 -/
def SelectItem.aggregate (rows : List Row) (item : SelectItem) : Cell :=
  match item.expression with
  | .column c => .value (first rows c.id)
  | .function _ (.count _) => .value (.int rows.length)
  | .function _ (.countDistinct c) => .value (.int (rows.map fun row => row c.id).toFinset.card)
  | .function _ (.sum c) => .decimal (total rows c.id)
  | .function _ (.avg c) => .decimal (total rows c.id / rows.length)

def Query.aggregates (q : Query) (rows : List Row) : List Cell := q.items.map (aggregate rows)

def SelectItem.aggregated (item : SelectItem) : Option Column :=
  match item.expression with
  | .function _ (.countDistinct c) => some c
  | .function _ (.sum c) => some c
  | .function _ (.avg c) => some c
  | _ => none

/-- 一つの group の行と、その bin への分け方。 -/
structure Group (q : Query) where
  rows : List Row
  bins : List (List Row)
  perm : bins.flatten.Perm rows
  ne_nil : rows ≠ []
  sameKey : ∀ c ∈ q.groupBy, ∀ row ∈ rows, ∀ row' ∈ rows, row c.id = row' c.id
  isInt : ∀ item ∈ q.items, ∀ c, item.aggregated = some c → IsIntColumn rows c.id

/-! ## 欄の探索 -/

/-- 名前で探した bin の結果の欄の記号。 -/
def Query.read (q : Query) (name : Text) : Option (Option Symbol) :=
  getOsColValue q.outputSchema q.emitted name

def Query.lookup (q : Query) (item : SelectItem) (fn : Fn) : Text :=
  stripParens (item.expn q.ctSize fn)

/-- 列が GROUP BY の列であること。 -/
def Query.IsKey (q : Query) (c : Column) : Prop := ∃ g ∈ q.groupBy, g.id = c.id

/-- 項目が自分の値を見つけること。 -/
def SelectItem.Found (q : Query) (item : SelectItem) : Prop :=
  match item.expression with
  | .column c => q.read c.name = some (some (.key c.id))
  | .function _ (.count c) => q.read (q.lookup item (.count c)) = some (some .count)
  | .function _ (.sum c) => q.read (q.lookup item (.sum c)) = some (some (.sum c.id))
  | .function _ (.avg _) => False
  | .function _ (.countDistinct c) =>
    (∀ g ∈ q.groupBy, q.read g.name = some (some (.key g.id))) ∧
      ∀ c', q.firstDistinct = some c' → c.id = c'.id ∨ q.IsKey c ∧ q.IsKey c'

/-- どの項目も自分の値を見つけ、key を読み直しても例外にならない。 -/
structure Query.Combines (q : Query) : Prop where
  found : ∀ item ∈ q.items, item.Found q
  keys : ∀ g ∈ q.groupBy, (q.read g.name).isSome

theorem getOsColValue_map {α β : Type} (f : α → β) (os : List Text) (tuple : List α) (col : Text) :
    getOsColValue os (tuple.map f) col = (getOsColValue os tuple col).map (Option.map f) := by
  simp only [getOsColValue, bind_eq_bind]
  cases columnPart col with
  | none => rfl
  | some col =>
    simp only [Option.bind_some]
    cases os.findIdx? fun text => decide (col <:+: text) with
    | none => rfl
    | some i => cases h : tuple[i]? <;> simp [h]

theorem getOsColValue_emitted (h : q.read name = some s) (bin : List Row) :
    getOsColValue q.outputSchema (q.emitted.map (cell bin)) name = some (s.map (cell bin)) := by
  rw [getOsColValue_map, show getOsColValue q.outputSchema q.emitted name = some s from h,
    Option.map_some]

/-- 列の名前で見つかる記号。 -/
def Query.symbol (q : Query) (c : Column) : Option Symbol := (q.read c.name).getD none

theorem read_eq_symbol (h : (q.read c.name).isSome) : q.read c.name = some (q.symbol c) := by
  obtain ⟨s, hs⟩ := Option.isSome_iff_exists.mp h
  rw [Query.symbol, hs, getD_some]

/-- bin の結果の行から読み直した key の一部。 -/
def keyText (D : Decimal) (bin : List Row) (s : Option Symbol) : Text :=
  (s.map fun σ => (σ.cell bin).toText D).getD []

theorem getGroupByOSKey_eq (h : ∀ g ∈ q.groupBy, (q.read g.name).isSome) (bin : List Row)
    (rest : List (List Cell)) :
    getGroupByOSKey D q (q.emitted.map (cell bin) :: rest) =
      some (q.groupBy.flatMap fun c => keyText D bin (q.symbol c)) := by
  have hmap : (q.groupBy.mapM fun c => getOsColValue q.outputSchema
      (q.emitted.map (cell bin)) c.name) =
        some (q.groupBy.map fun c => (q.symbol c).map (cell bin)) :=
    mapM_eq_map fun c hc => getOsColValue_emitted (read_eq_symbol (h c hc)) bin
  rw [getGroupByOSKey, head?_cons, getD_some, hmap]
  simp [flatMap_map, keyText, Option.map_map, comp_def]

theorem getGroupByKey_eq (h : rows ≠ []) :
    getGroupByKey q.groupBy (rows.map some) =
      q.groupBy.flatMap fun c => (first rows c.id).toText := by
  cases rows with
  | nil => exact absurd rfl h
  | cons row rows => rfl

/-! ## 欄の合成 -/

/-- bin ごとに `T bin` を足す畳み込みは、すべての行の `T` を足す。 -/
theorem foldlM_emitted {R : Type} [AddMonoid R] {f : R → List Cell → Option R} {T : List Row → R}
    (hnil : T [] = 0) (happend : ∀ a b, T (a ++ b) = T a + T b)
    (hf : ∀ sum bin, f sum (q.emitted.map (cell bin)) = some (sum + T bin))
    (bins : List (List Row)) (sum : R) :
    (bins.map fun bin => q.emitted.map (cell bin)).foldlM f sum = some (sum + T bins.flatten) := by
  induction bins generalizing sum with
  | nil => simp [hnil]
  | cons bin bins ih =>
    rw [map_cons, foldlM_cons, hf, flatten_cons, happend, ← add_assoc]
    exact ih (sum + T bin)

theorem combineCount_eq (h : q.read (stripParens exp) = some (some .count)) (bins : List (List Row)) :
    combineCount q.outputSchema exp (bins.map fun bin => q.emitted.map (cell bin)) =
      some (bins.flatten.length : Int) := by
  refine (foldlM_emitted (T := fun rows => (rows.length : Int)) rfl (by simp)
    (fun sum bin => ?_) bins 0).trans (by rw [zero_add])
  rw [getOsColValue_emitted h]
  rfl

theorem combineSum_eq (h : q.read (stripParens exp) = some (some (.sum i))) (bins : List (List Row)) :
    combineSum D q.outputSchema exp (bins.map fun bin => q.emitted.map (cell bin)) =
      some (total bins.flatten i : ℚ) := by
  refine (foldlM_emitted (T := fun rows => (total rows i : ℚ)) (by simp [total])
    (fun a b => by rw [total_append, Int.cast_add]) (fun sum bin => ?_) bins 0).trans
    (by rw [zero_add])
  rw [getOsColValue_emitted h]
  rfl

theorem Value.toText_int_injective {a b : Int} (h : (int a).toText = (int b).toText) :
    a = b :=
  Int.repr_injective (String.toList_injective h)

theorem card_texts (h : IsIntColumn rows i) :
    (texts rows i).card = (rows.map fun row => row i).toFinset.card := by
  have himage : texts rows i = (rows.map fun row => row i).toFinset.image toText := by
    ext s
    simp [texts]
  rw [himage]
  refine Finset.card_image_of_injOn fun a ha b hb hab => ?_
  have hint (v : Value) (hv : v ∈ (rows.map fun row => row i).toFinset) : ∃ n, v = .int n := by
    obtain ⟨row, hrow, rfl⟩ := mem_map.mp (mem_toFinset.mp hv)
    exact h row hrow
  obtain ⟨m, rfl⟩ := hint a ha
  obtain ⟨n, rfl⟩ := hint b hb
  rw [toText_int_injective hab]

theorem card_of_forall_eq (hne : rows ≠ []) (h : ∀ row ∈ rows, ∀ row' ∈ rows, row i = row' i) :
    (rows.map fun row => row i).toFinset.card = 1 := by
  obtain ⟨row, hrow⟩ := exists_mem_of_ne_nil rows hne
  rw [Finset.card_eq_one]
  refine ⟨row i, Finset.eq_singleton_iff_unique_mem.mpr ⟨?_, fun v hv => ?_⟩⟩
  · exact mem_toFinset.mpr (mem_map_of_mem hrow)
  · obtain ⟨row', hrow', rfl⟩ := mem_map.mp (mem_toFinset.mp hv)
    exact h row' hrow' row hrow

/-! ## 項目ごとの合成 -/

theorem length_combineItem_le {gh : Sets} {key : Text} {instream : List (List Cell)}
    {cells : List Cell} (h : combineItem D q gh key instream item = some cells) :
    cells.length ≤ 1 := by
  obtain ⟨expression, aliasName⟩ := item
  cases expression with
  | column c =>
    simp only [combineItem, bind_eq_bind, bind_eq_some_iff, Option.pure_def, some.injEq] at h
    obtain ⟨v, -, rfl⟩ := h
    cases v <;> simp
  | function name fn =>
    cases fn <;>
      (simp only [combineItem, bind_eq_bind, bind_eq_some_iff, Option.pure_def, some.injEq] at h
       obtain ⟨v, -, rfl⟩ := h
       simp)

theorem combineGroupByProjection_eq_iff {gh : Sets} {instream : List (List Cell)} :
    combineGroupByProjection D q gh instream = some (q.aggregates rows) ↔
      ∃ key, getGroupByOSKey D q instream = some key ∧
        ∀ item ∈ q.items, combineItem D q gh key instream item = some [item.aggregate rows] := by
  simp only [combineGroupByProjection, bind_eq_bind, bind_eq_some_iff]
  refine exists_congr fun key => and_congr_right fun _ => ?_
  have hflat : (q.items.map fun item => [item.aggregate rows]).flatten = q.aggregates rows := by
    rw [← flatMap_def]
    exact flatMap_pure_eq_map _ _
  constructor
  · rintro ⟨cells, hcells, hrow⟩ item hitem
    obtain ⟨-, hrow⟩ : ¬ cells.flatten.isEmpty ∧ cells.flatten = q.aggregates rows := by
      simpa using hrow
    have hmap := mapM_eq_some_iff.mp hcells
    have hlen : cells.length = (q.aggregates rows).length := by
      have hlen := congrArg length hmap
      rw [length_map, length_map] at hlen
      rw [Query.aggregates, length_map, hlen]
    have hle (l : List Cell) (hl : l ∈ cells) : l.length ≤ 1 := by
      have hmem : some l ∈ q.items.map (combineItem D q gh key instream) := hmap ▸ mem_map_of_mem hl
      obtain ⟨item, -, hitem⟩ := mem_map.mp hmem
      exact length_combineItem_le hitem
    rw [eq_singletons_of_flatten hle hrow hlen, Query.aggregates, map_map, map_map] at hmap
    exact map_inj_left.mp hmap item hitem
  · intro h
    refine ⟨_, mapM_eq_map h, ?_⟩
    have hne : q.aggregates rows ≠ [] := by
      rw [Query.aggregates, Ne, map_eq_nil_iff]
      exact q.ne_nil
    rw [hflat]
    simp [hne]

/-! ## 正しく合成される query -/

theorem first_mem (h : rows ≠ []) : first rows ∈ rows := by
  cases rows with
  | nil => exact absurd rfl h
  | cons row rows => exact mem_cons_self

namespace Group

variable (g : Group q) {bin : List Row}

theorem mem_rows {row : Row} (hbin : bin ∈ g.bins) (h : row ∈ bin) : row ∈ g.rows :=
  g.perm.subset (mem_flatten_of_mem hbin h)

theorem isIntColumn_bin (hbin : bin ∈ g.bins) (h : IsIntColumn g.rows i) : IsIntColumn bin i :=
  fun row hrow => h row (g.mem_rows hbin hrow)

theorem sameValue (hc : q.IsKey c) {row row' : Row} (h : row ∈ g.rows) (h' : row' ∈ g.rows) :
    row c.id = row' c.id := by
  obtain ⟨k, hk, hid⟩ := hc
  rw [← hid]
  exact g.sameKey k hk row h row' h'

theorem first_eq (hc : q.IsKey c) (hbin : bin ∈ g.bins) (hne : bin ≠ []) :
    first bin c.id = first g.rows c.id :=
  g.sameValue hc (g.mem_rows hbin (first_mem hne)) (first_mem g.ne_nil)

theorem getGroupByKey_bin (hbin : bin ∈ g.bins) (hne : bin ≠ []) :
    getGroupByKey q.groupBy (bin.map some) = getGroupByKey q.groupBy (g.rows.map some) := by
  rw [getGroupByKey_eq hne, getGroupByKey_eq g.ne_nil]
  exact flatMap_congr fun c hc => by rw [g.first_eq ⟨c, hc, rfl⟩ hbin hne]

theorem exists_bin : ∃ bin ∈ g.bins, bin ≠ [] := by
  obtain ⟨row, hrow⟩ := exists_mem_of_ne_nil _ g.ne_nil
  obtain ⟨bin, hbin, hmem⟩ := mem_flatten.mp (g.perm.mem_iff.mpr hrow)
  exact ⟨bin, hbin, ne_nil_of_mem hmem⟩

theorem flatten_ne_nil : g.bins.flatten ≠ [] := by
  intro h
  have hlen := g.perm.length_eq
  rw [h] at hlen
  exact g.ne_nil (length_eq_zero_iff.mp hlen.symm)

theorem total_flatten_eq (i : Nat) : total g.bins.flatten i = total g.rows i :=
  (g.perm.map _).sum_eq

theorem texts_flatten_eq (i : Nat) : texts g.bins.flatten i = texts g.rows i :=
  toFinset_eq_of_perm _ _ (g.perm.map _)

end Group

theorem SelectItem.Found.summable (h : item.Found q) (hitem : item ∈ q.items) (g : Group q)
    (hbin : bin ∈ g.bins) : item.Summable bin := by
  have hint := g.isInt item hitem
  obtain ⟨expression, aliasName⟩ := item
  cases expression with
  | column c => trivial
  | function name fn =>
    cases fn with
    | count c => trivial
    | countDistinct c => trivial
    | sum c => exact g.isIntColumn_bin hbin (hint c rfl)
    | avg c => exact absurd h id

theorem exists_firstDistinct (hitem : item ∈ q.items) (h : item.distinct = some c) :
    ∃ c' item', item' ∈ q.items ∧ item'.distinct = some c' ∧ q.firstDistinct = some c' := by
  have hsome : q.firstDistinct.isSome := by
    rw [Query.firstDistinct, findSome?_isSome_iff]
    exact ⟨item, hitem, by rw [h]; rfl⟩
  obtain ⟨c', hc'⟩ := Option.isSome_iff_exists.mp hsome
  obtain ⟨item', hitem', hd⟩ := exists_of_findSome?_eq_some hc'
  exact ⟨c', item', hitem', hd, hc'⟩

theorem SelectItem.aggregated_of_distinct (h : item.distinct = some c) :
    item.aggregated = some c := by
  obtain ⟨expression, aliasName⟩ := item
  cases expression with
  | column c => cases h
  | function name fn => cases fn <;> first | exact h | cases h

theorem combineItem_eq (hitem : item ∈ q.items) (h : item.Found q) (g : Group q)
    {bins : List (List Row)} (hbins : g.bins.filter (!·.isEmpty) = bin :: bins) {key : Text}
    (hkey : key = q.groupBy.flatMap fun c => keyText D bin (q.symbol c)) :
    combineItem D q (q.addRows (getGroupByKey q.groupBy (g.rows.map some)) g.bins.flatten fun _ => none)
      key ((bin :: bins).map fun bin => q.emitted.map (cell bin)) item =
      some [item.aggregate g.rows] := by
  have hflat : (bin :: bins).flatten = g.bins.flatten := by
    rw [← hbins, flatten_filter_not_isEmpty]
  have hmem : bin ∈ g.bins ∧ bin ≠ [] := by
    have hbin : bin ∈ g.bins.filter (!·.isEmpty) := hbins ▸ mem_cons_self
    simpa using hbin
  have hgrouped := q.grouped item hitem
  have hint := g.isInt item hitem
  have hdistinct := fun c => exists_firstDistinct (c := c) hitem
  obtain ⟨expression, aliasName⟩ := item
  cases expression with
  | column c =>
    have hread : q.read c.name = some (some (.key c.id)) := h
    simp only [combineItem, map_cons, head?_cons, getD_some, getOsColValue_emitted hread]
    simp [cell, aggregate, g.first_eq (hgrouped c rfl) hmem.1 hmem.2]
  | function name fn =>
    cases fn with
    | count c =>
      simp only [combineItem]
      rw [combineCount_eq h, hflat, g.perm.length_eq]
      rfl
    | sum c =>
      simp only [combineItem]
      rw [combineSum_eq h, hflat, g.total_flatten_eq]
      rfl
    | avg c => exact absurd h id
    | countDistinct c =>
      obtain ⟨hkeys, hsame⟩ := h
      obtain ⟨c', item', hitem', hd', hfirst⟩ := hdistinct c rfl
      have hint' := g.isInt item' hitem' c' (aggregated_of_distinct hd')
      have hkey' : key = getGroupByKey q.groupBy (g.rows.map some) := by
        rw [hkey, getGroupByKey_eq g.ne_nil]
        refine flatMap_congr fun k hk => ?_
        rw [Query.symbol, hkeys k hk, getD_some, ← g.first_eq ⟨k, hk, rfl⟩ hmem.1 hmem.2]
        rfl
      have hcard : (texts g.rows c'.id).card = (g.rows.map fun row => row c.id).toFinset.card := by
        rw [card_texts hint']
        rcases hsame c' hfirst with hid | ⟨hc, hc'⟩
        · rw [hid]
        · rw [card_of_forall_eq g.ne_nil fun row h row' h' => g.sameValue hc h h',
            card_of_forall_eq g.ne_nil fun row h row' h' => g.sameValue hc' h h']
      simp only [combineItem, Query.addRows, hfirst, elim_some]
      rw [addDistinct_empty _ _ g.flatten_ne_nil, if_pos hkey', g.texts_flatten_eq]
      simp [aggregate, hcard]

theorem Query.Combines.combineBins_eq (hq : q.Combines) (g : Group q) :
    combineBins D q g.bins = some (q.aggregates g.rows) := by
  have hcalc := calculateBins_eq (D := D) (q := q) g.bins _
    (fun bin hbin _ item hitem => (hq.found item hitem).summable hitem g hbin)
    (fun bin hbin hne => g.getGroupByKey_bin hbin hne)
  obtain ⟨bin, bins, hbins⟩ : ∃ bin bins, g.bins.filter (!·.isEmpty) = bin :: bins := by
    obtain ⟨bin, hbin, hne⟩ := g.exists_bin
    exact exists_cons_of_ne_nil (ne_nil_of_mem (mem_filter.mpr ⟨hbin, by simpa using hne⟩))
  have hkey := getGroupByOSKey_eq (D := D) hq.keys bin
    (bins.map fun bin => q.emitted.map (cell bin))
  rw [combineBins, hcalc, hbins]
  exact combineGroupByProjection_eq_iff.mpr ⟨_, hkey, fun item hitem =>
    combineItem_eq hitem (hq.found item hitem) g hbins rfl⟩

/-! ## 正しく合成されない query -/

def intRow (f : Nat → Int) : Row := fun i => .int (f i)

def Group.single (q : Query) (rows : List (Nat → Int)) (hne : rows ≠ [])
    (h : ∀ c ∈ q.groupBy, ∀ f ∈ rows, ∀ f' ∈ rows, f c.id = f' c.id) : Group q where
  rows := rows.map intRow
  bins := [rows.map intRow]
  perm := by rw [flatten_singleton]
  ne_nil := by simpa using hne
  sameKey c hc row hrow row' hrow' := by
    obtain ⟨f, hf, rfl⟩ := mem_map.mp hrow
    obtain ⟨f', hf', rfl⟩ := mem_map.mp hrow'
    rw [intRow, intRow, h c hc f hf f' hf']
  isInt item _ c _ row hrow := by
    obtain ⟨f, -, rfl⟩ := mem_map.mp hrow
    exact ⟨f c.id, rfl⟩

theorem isIntColumn_intRow (rows : List (Nat → Int)) (i : Nat) :
    IsIntColumn (rows.map intRow) i := by
  intro row hrow
  obtain ⟨f, -, rfl⟩ := mem_map.mp hrow
  exact ⟨f i, rfl⟩

theorem combineBins_single (hne : rows ≠ []) {out : List Cell}
    (h : combineBins D q [rows] = some out) :
    ∃ gh cells, combineGroupByProjection D q gh [cells] = some out := by
  rw [combineBins, calculateBins, filter_cons_of_pos (by simpa using hne), filter_nil] at h
  simp only [foldlM_cons, foldlM_nil, bind_eq_bind, bind_eq_some_iff,
    Option.pure_def, some.injEq] at h
  obtain ⟨-, ⟨-, ⟨s, -, rfl⟩, rfl⟩, h⟩ := h
  exact ⟨_, _, h⟩

theorem getAvgOfResults_eq_none (exp : Text) (cells : List Cell) :
    getAvgOfResults D exp [cells] = none := by
  by_cases hdot : '.' ∈ exp <;> simp [getAvgOfResults, getColValueOfResult, hdot]

theorem combineCount_single {n : Int}
    (h : combineCount q.outputSchema exp [q.emitted.map (cell bin)] = some n) :
    ∃ s, q.read (stripParens exp) = some s ∧
      (s.elim (some 0) fun σ => (σ.cell bin).parseInt) = some n := by
  simp only [combineCount, foldlM_cons, foldlM_nil, getOsColValue_map] at h
  cases hread : getOsColValue q.outputSchema q.emitted (stripParens exp) with
  | none => simp [hread] at h
  | some s =>
    refine ⟨s, hread, ?_⟩
    cases s with
    | none => simpa [hread] using h
    | some σ => cases hparse : (σ.cell bin).parseInt <;> simp_all

theorem combineSum_single {x : ℚ}
    (h : combineSum D q.outputSchema exp [q.emitted.map (cell bin)] = some x) :
    ∃ s, q.read (stripParens exp) = some s ∧
      (s.elim (some 0) fun σ => (σ.cell bin).parseDouble D) = some x := by
  simp only [combineSum, foldlM_cons, foldlM_nil, getOsColValue_map] at h
  cases hread : getOsColValue q.outputSchema q.emitted (stripParens exp) with
  | none => simp [hread] at h
  | some s =>
    refine ⟨s, hread, ?_⟩
    cases s with
    | none => simpa [hread] using h
    | some σ => cases hparse : (σ.cell bin).parseDouble D <;> simp_all

/-- 列 `i` だけが 3 で、他は 2 の行。 -/
def marked (i : Nat) : Nat → Int := fun j => if j = i then 3 else 2

/-! ### 記号の特定 -/

theorem Symbol.eq_key (h : σ.cell [intRow (marked i)] = .value (.int (marked i i))) :
    σ = .key i := by
  cases σ with
  | key j =>
    by_cases hj : j = i
    · rw [hj]
    · simp [cell, first, intRow, marked, hj] at h
  | count | zero => simp [cell, marked] at h
  | sum j | avg j | infinity => simp [cell] at h

theorem Symbol.eq_count (h : (σ.cell [intRow (marked i)]).parseInt = some 1) : σ = .count := by
  cases σ with
  | key j =>
    simp only [cell, first, headD_cons, intRow, marked, Cell.parseInt] at h
    split at h <;> simp at h
  | count => rfl
  | zero | sum j | avg j | infinity => simp [cell, Cell.parseInt] at h

theorem Symbol.eq_sum (h : (σ.cell [intRow (marked i), intRow (marked i)]).parseDouble D = some 6) :
    σ = .sum i := by
  cases σ with
  | key j =>
    simp only [cell, first, headD_cons, intRow, marked, Cell.parseDouble, parseDouble] at h
    split at h <;> norm_num at h
  | count | zero => norm_num [cell, Cell.parseDouble, parseDouble] at h
  | sum j =>
    by_cases hj : j = i
    · rw [hj]
    · norm_num [cell, Cell.parseDouble, total, intRow, marked, hj, num] at h
  | avg j =>
    simp only [cell, Cell.parseDouble, total, intRow, marked, map_cons, map_nil,
      sum_cons, sum_nil, num] at h
    split at h <;> norm_num at h
  | infinity => simp [cell, Cell.parseDouble] at h

theorem toText_marked (i j : Nat) : (int (marked i j)).toText = [if j = i then '3' else '2'] := by
  rw [marked]
  split <;> decide

theorem length_keyText_le (h : '.' ∉ keyText D [intRow (marked i)] s) :
    (keyText D [intRow (marked i)] s).length ≤ 1 := by
  cases s with
  | none => simp [keyText]
  | some σ =>
    cases σ with
    | key j =>
      show ((int (marked i j)).toText).length ≤ 1
      rw [toText_marked, length_singleton]
    | count =>
      show ((int 1).toText).length ≤ 1
      decide
    | zero =>
      show ((int 0).toText).length ≤ 1
      decide
    | sum j => exact absurd (D.dot _) h
    | avg j => exact absurd (D.dot _) h
    | infinity => exact Nat.le_refl 1

theorem eq_key_of_keyText (h : keyText D [intRow (marked i)] s = ['3']) : s = some (.key i) := by
  cases s with
  | none => cases h
  | some σ =>
    have hdot (x : ℚ) (hx : D.format x = ['3']) : False := by
      have hmem := D.dot x
      rw [hx] at hmem
      exact absurd hmem (by decide)
    cases σ with
    | key j =>
      have hj : [if j = i then '3' else '2'] = ['3'] := (toText_marked i j).symm.trans h
      by_cases hji : j = i
      · rw [hji]
      · rw [if_neg hji] at hj
        cases hj
    | count => exact absurd (show (int 1).toText = ['3'] from h) (by decide)
    | zero => exact absurd (show (int 0).toText = ['3'] from h) (by decide)
    | sum j => exact (hdot _ h).elim
    | avg j => exact (hdot _ h).elim
    | infinity => exact absurd (show ['∞'] = ['3'] from h) (by decide)

section

variable (hall : ∀ g : Group q, combineBins D q g.bins = some (q.aggregates g.rows))
include hall

theorem not_avg (hitem : item ∈ q.items) (name : Text) (c : Column) :
    item.expression ≠ .function name (.avg c) := by
  intro hexp
  have h := hall (.single q [fun _ => 2] (by simp) (by simp))
  obtain ⟨gh, cells, hcombine⟩ := combineBins_single (by simp) h
  obtain ⟨key, -, hitems⟩ := combineGroupByProjection_eq_iff.mp hcombine
  have hnone := hitems item hitem
  simp [combineItem, hexp, getAvgOfResults_eq_none] at hnone

theorem single_items (rows : List (Nat → Int)) (hne : rows ≠ [])
    (hsame : ∀ c ∈ q.groupBy, ∀ f ∈ rows, ∀ f' ∈ rows, f c.id = f' c.id) :
    ∃ key, getGroupByOSKey D q [q.emitted.map (cell (rows.map intRow))] = some key ∧
      ∀ item ∈ q.items, combineItem D q
        (q.addRows (getGroupByKey q.groupBy ((rows.map intRow).map some)) (rows.map intRow)
          fun _ => none) key [q.emitted.map (cell (rows.map intRow))] item =
        some [item.aggregate (rows.map intRow)] := by
  have hsummable (item : SelectItem) (hitem : item ∈ q.items) :
      item.Summable (rows.map intRow) := by
    have havg := not_avg hall hitem
    obtain ⟨expression, aliasName⟩ := item
    cases expression with
    | column c => trivial
    | function name fn =>
      cases fn with
      | count c => trivial
      | countDistinct c => trivial
      | sum c => exact isIntColumn_intRow rows c.id
      | avg c => exact absurd rfl (havg name c)
  have hcalc := calculateBins_eq (D := D) (q := q) [rows.map intRow]
    (getGroupByKey q.groupBy ((rows.map intRow).map some))
    (fun bin hbin _ => mem_singleton.mp hbin ▸ hsummable)
    (fun bin hbin _ => by rw [mem_singleton.mp hbin])
  have h : combineBins D q [rows.map intRow] = some (q.aggregates (rows.map intRow)) :=
    hall (.single q rows hne hsame)
  rw [combineBins, hcalc, filter_cons_of_pos (by simpa using hne)] at h
  simp only [flatten_singleton, filter_nil] at h
  exact combineGroupByProjection_eq_iff.mp h

theorem read_key_isSome : ∀ g ∈ q.groupBy, (q.read g.name).isSome := by
  intro g hg
  obtain ⟨key, hkey, -⟩ := single_items hall [fun _ => 2] (by simp) (by simp)
  cases hread : q.read g.name with
  | some s => rfl
  | none =>
    have hnone : getOsColValue q.outputSchema (q.emitted.map (cell
        ([fun _ => 2].map intRow))) g.name = none := by
      rw [getOsColValue_map, show getOsColValue q.outputSchema q.emitted g.name = none from hread]
      rfl
    rw [getGroupByOSKey, head?_cons, getD_some, mapM_eq_none hg hnone] at hkey
    cases hkey

section

variable (hitem : item ∈ q.items)

include hitem

theorem distinct_single {c' : Column} (hexp : item.expression = .function name (.countDistinct c))
    (hfirst : q.firstDistinct = some c') (rows : List (Nat → Int)) (hne : rows ≠ [])
    (hsame : ∀ c ∈ q.groupBy, ∀ f ∈ rows, ∀ f' ∈ rows, f c.id = f' c.id) :
    (q.groupBy.flatMap fun g => keyText D (rows.map intRow) (q.symbol g)) =
        q.groupBy.flatMap (fun g => (first (rows.map intRow) g.id).toText) ∧
      ((rows.map intRow).map fun row => row c'.id).toFinset.card =
        ((rows.map intRow).map fun row => row c.id).toFinset.card := by
  have hne' : rows.map intRow ≠ [] := by simpa using hne
  obtain ⟨key, hkey, hitems⟩ := single_items hall rows hne hsame
  rw [getGroupByOSKey_eq (read_key_isSome hall), some.injEq] at hkey
  have hcount := hitems item hitem
  simp only [combineItem, hexp, Query.addRows, hfirst, elim_some,
    addDistinct_empty _ _ hne', getGroupByKey_eq hne'] at hcount
  by_cases hk : key = q.groupBy.flatMap fun g => (first (rows.map intRow) g.id).toText
  · rw [if_pos hk] at hcount
    refine ⟨hkey.trans hk, ?_⟩
    rw [← card_texts (isIntColumn_intRow rows c'.id)]
    simpa [aggregate, hexp] using hcount
  · rw [if_neg hk] at hcount
    cases hcount

theorem read_key_eq (hexp : item.expression = .function name (.countDistinct c)) :
    ∀ g ∈ q.groupBy, q.read g.name = some (some (.key g.id)) := by
  intro g hg
  obtain ⟨c', -, -, -, hfirst⟩ := exists_firstDistinct hitem (c := c) (by rw [distinct, hexp])
  obtain ⟨hkey, -⟩ := distinct_single hall hitem hexp hfirst [marked g.id] (by simp) (by simp)
  -- group の値をどれも一桁にすると、key の文字は列と一つずつ対応する
  have hkey' : (q.groupBy.map fun k => keyText D [intRow (marked g.id)] (q.symbol k)).flatten =
      q.groupBy.map fun k => if k.id = g.id then '3' else '2' := by
    rw [← flatMap_def]
    refine hkey.trans ?_
    rw [flatMap_congr fun k _ => toText_marked g.id k.id]
    exact flatMap_pure_eq_map _ _
  have hdot : '.' ∉ (q.groupBy.map fun k =>
      keyText D [intRow (marked g.id)] (q.symbol k)).flatten := by
    rw [hkey']
    intro hmem
    obtain ⟨k, -, hk⟩ := mem_map.mp hmem
    split at hk <;> exact absurd hk (by decide)
  have hle (l : Text) (hl : l ∈ q.groupBy.map fun k =>
      keyText D [intRow (marked g.id)] (q.symbol k)) : l.length ≤ 1 := by
    have hl' : '.' ∉ l := fun h => hdot (mem_flatten_of_mem hl h)
    obtain ⟨k, -, rfl⟩ := mem_map.mp hl
    exact length_keyText_le hl'
  have hsingle := eq_singletons_of_flatten hle hkey' (by rw [length_map, length_map])
  rw [map_map] at hsingle
  have hg' : keyText D [intRow (marked g.id)] (q.symbol g) = [if g.id = g.id then '3' else '2'] :=
    map_inj_left.mp hsingle g hg
  rw [if_pos rfl] at hg'
  rw [read_eq_symbol (read_key_isSome hall g hg), eq_key_of_keyText hg']

theorem distinct_id_eq {c' : Column} (hexp : item.expression = .function name (.countDistinct c))
    (hfirst : q.firstDistinct = some c') : c.id = c'.id ∨ q.IsKey c ∧ q.IsKey c' := by
  by_contra hno
  obtain ⟨hid, hkeys⟩ := not_or.mp hno
  -- GROUP BY の列でない方の値だけを変えた二行を比べる
  have hcount {k : Column} (hk : ¬ q.IsKey k) :
      (([fun _ => 2, marked k.id].map intRow).map fun row => row c'.id).toFinset.card =
        (([fun _ => 2, marked k.id].map intRow).map fun row => row c.id).toFinset.card := by
    refine (distinct_single hall hitem hexp hfirst _ (by simp) fun g hg f hf f' hf' => ?_).2
    have hg' : g.id ≠ k.id := fun h => hk ⟨g, hg, h⟩
    have hval (f : Nat → Int) (hf : f ∈ [fun _ => 2, marked k.id]) : f g.id = 2 := by
      simp only [mem_cons, not_mem_nil, or_false] at hf
      rcases hf with rfl | rfl
      · rfl
      · exact if_neg hg'
    rw [hval f hf, hval f' hf']
  rcases not_and_or.mp hkeys with hc | hc'
  · have h := hcount hc
    simp [intRow, marked, Ne.symm hid] at h
  · have h := hcount hc'
    simp [intRow, marked, hid] at h

theorem read_column_eq (hexp : item.expression = .column c) :
    q.read c.name = some (some (.key c.id)) := by
  obtain ⟨key, -, hitems⟩ := single_items hall [marked c.id] (by simp) (by simp)
  have h := hitems item hitem
  simp only [combineItem, hexp, head?_cons, getD_some, getOsColValue_map] at h
  cases hread : getOsColValue q.outputSchema q.emitted c.name with
  | none => simp [hread] at h
  | some s =>
    cases s with
    | none => simp [hread] at h
    | some σ =>
      have hcell : σ.cell [intRow (marked c.id)] = .value (.int (marked c.id c.id)) := by
        simpa [hread, aggregate, hexp, first, intRow] using h
      rw [Query.read, hread, eq_key hcell]

theorem read_count_eq {c : Option Column} (hexp : item.expression = .function name (.count c)) :
    q.read (q.lookup item (.count c)) = some (some .count) := by
  obtain ⟨key, -, hitems⟩ := single_items hall [marked 0] (by simp) (by simp)
  have h := hitems item hitem
  simp only [combineItem, hexp, bind_eq_bind, bind_eq_some_iff, Option.pure_def,
    aggregate, some.injEq, cons.injEq, Cell.value.injEq, int.injEq,
    and_true] at h
  obtain ⟨n, hcount, rfl⟩ := h
  obtain ⟨s, hread, hparse⟩ := combineCount_single hcount
  cases s with
  | none => simp at hparse
  | some σ =>
    have hone : (σ.cell [intRow (marked 0)]).parseInt = some 1 := by simpa using hparse
    rw [Query.lookup, hread, eq_count hone]

theorem read_sum_eq (hexp : item.expression = .function name (.sum c)) :
    q.read (q.lookup item (.sum c)) = some (some (.sum c.id)) := by
  obtain ⟨key, -, hitems⟩ := single_items hall [marked c.id, marked c.id] (by simp) (by simp)
  have h := hitems item hitem
  simp only [combineItem, hexp, bind_eq_bind, bind_eq_some_iff, Option.pure_def,
    aggregate, some.injEq, cons.injEq, Cell.decimal.injEq, and_true] at h
  obtain ⟨x, hsum, rfl⟩ := h
  obtain ⟨s, hread, hparse⟩ := combineSum_single hsum
  have htotal : (total ([marked c.id, marked c.id].map intRow) c.id : ℚ) = 6 := by
    norm_num [total, intRow, marked, num]
  rw [htotal] at hparse
  cases s with
  | none => norm_num at hparse
  | some σ => rw [Query.lookup, hread, eq_sum hparse]

end

end

/-- **bin に分けた集計が、どの group のどの分け方でも group 全体の集計に等しいのは、どの項目も自分の
値を見つけるとき、そのときに限る。** -/
theorem combineBins_iff (D : Decimal) (q : Query) :
    (∀ g : Group q, combineBins D q g.bins = some (q.aggregates g.rows)) ↔ q.Combines := by
  refine ⟨fun hall => ⟨fun item hitem => ?_, read_key_isSome hall⟩, fun hq => hq.combineBins_eq⟩
  rw [SelectItem.Found]
  cases hexp : item.expression with
  | column c => exact read_column_eq hall hitem hexp
  | function name fn =>
    cases fn with
    | count c => exact read_count_eq hall hitem hexp
    | countDistinct c =>
      exact ⟨read_key_eq hall hitem hexp, fun c' hfirst => distinct_id_eq hall hitem hexp hfirst⟩
    | sum c => exact read_sum_eq hall hitem hexp
    | avg c => exact absurd hexp (not_avg hall hitem name c)

def groupQuery (fns : List SelectExpression) (h : ∀ e ∈ fns, ∀ c, e ≠ .column c) : Query where
  items := ⟨.column ⟨"T.g".toList, 0⟩, none⟩ :: fns.map fun e => ⟨e, none⟩
  groupBy := [⟨"T.g".toList, 0⟩]
  ctSize := 1
  grouped item hitem c hexp := by
    rcases mem_cons.mp hitem with rfl | hmem
    · exact ⟨_, mem_singleton.mpr rfl, congrArg Column.id (SelectExpression.column.inj hexp)⟩
    · obtain ⟨e, he, rfl⟩ := mem_map.mp hmem
      exact absurd hexp (h e he c)
  ne_nil := cons_ne_nil _ _

/-- `SELECT T.g, COUNT(*), SUM(T.pay)` はどの分け方でも正しい。 -/
theorem combineBins_iff_count_sum :
    let q := groupQuery [.function "COUNT".toList (.count none),
      .function "SUM".toList (.sum ⟨"T.pay".toList, 1⟩)] (by simp)
    ∀ (D : Decimal) (g : Group q), combineBins D q g.bins = some (q.aggregates g.rows) := by
  intro q D
  refine (combineBins_iff D q).mpr ⟨fun item hitem => ?_, by decide⟩
  rcases mem_cons.mp hitem with rfl | hitem
  · show q.read _ = _
    decide
  rcases mem_cons.mp hitem with rfl | hitem
  · show q.read _ = _
    decide
  rcases mem_singleton.mp hitem with rfl
  show q.read _ = _
  decide

/-- `SELECT T.g, AVG(T.pay)` は、二つの bin に一行ずつあるだけで例外になる。 -/
theorem combineBins_avg :
    let q := groupQuery [.function "AVG".toList (.avg ⟨"T.pay".toList, 1⟩)] (by simp)
    ∀ D : Decimal, combineBins D q [[intRow fun i => if i = 0 then 7 else 1],
        [intRow fun i => if i = 0 then 7 else 3]] = none ∧
      q.aggregates [intRow fun i => if i = 0 then 7 else 1, intRow fun i => if i = 0 then 7 else 3] =
        [.value (.int 7), .decimal 2] := by
  intro q D
  exact ⟨rfl, by decide +kernel⟩

end Sql

