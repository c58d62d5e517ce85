import Mathlib.Algebra.BigOperators.Group.List.Basic
import Mathlib.Algebra.Order.Ring.Rat
import MsProjects.Sql.Aggregate

/-! # bin ごとの集計の結果 -/

namespace Sql

open List Function

variable {D : Decimal}

variable {bin : List Row}

/-! ## group の値 -/

def Value.num : Value → Int
  | .text _ => 0
  | .int n => n

def first (rows : List Row) : Row := rows.headD fun _ => .int 0

def total (rows : List Row) (i : Nat) : Int := (rows.map fun row => (row i).num).sum

def texts (rows : List Row) (i : Nat) : Finset Text := (rows.map fun row => (row i).toText).toFinset

/-- 列がどの行でも整数であること。 -/
def IsIntColumn (rows : List Row) (i : Nat) : Prop := ∀ row ∈ rows, ∃ n, row i = .int n

theorem total_append (a b : List Row) (i : Nat) : total (a ++ b) i = total a i + total b i := by
  rw [total, total, total, map_append, sum_append]

/-! ## 書かれる欄 -/

inductive Symbol where
  /-- GROUP BY の列の値。 -/
  | key (i : Nat)
  | count
  /-- `COUNT(DISTINCT ..)` の書く 0。 -/
  | zero
  | sum (i : Nat)
  | avg (i : Nat)
  | infinity
  deriving DecidableEq

def Symbol.cell (bin : List Row) : Symbol → Cell
  | .key i => .value (first bin i)
  | .count => .value (.int bin.length)
  | .zero => .value (.int 0)
  | .sum i => .decimal (total bin i)
  | .avg i => .decimal (total bin i / bin.length)
  | .infinity => .infinity

def SelectItem.distinct (item : SelectItem) : Option Column :=
  match item.expression with
  | .function _ (.countDistinct c) => some c
  | _ => none

def SelectItem.emit (cleared : Bool) (item : SelectItem) : List Symbol :=
  match item.expression with
  | .column c => if cleared then [] else [.key c.id]
  | .function _ (.count _) => [.count]
  | .function _ (.countDistinct _) => [.zero]
  | .function _ (.sum c) => [if cleared then .infinity else .sum c.id]
  | .function _ (.avg c) => [.avg c.id]

def emit : Bool → List SelectItem → List Symbol
  | _, [] => []
  | cleared, item :: rest => item.emit cleared ++ emit (cleared || item.distinct.isSome) rest

def Query.emitted (q : Query) : List Symbol := emit false q.items

/-- 最初の `COUNT(DISTINCT ..)` の列。 -/
def Query.firstDistinct (q : Query) : Option Column := q.items.findSome? SelectItem.distinct

theorem Query.emitted_ne_nil (q : Query) : q.emitted ≠ [] := by
  rw [emitted]
  cases hitems : q.items with
  | nil => exact absurd hitems q.ne_nil
  | cons item rest =>
    rw [emit, SelectItem.emit]
    split <;> simp

/-- 項目が平均でなく、和の列が整数であること。 -/
def SelectItem.Summable (rows : List Row) (item : SelectItem) : Prop :=
  match item.expression with
  | .function _ (.sum c) => IsIntColumn rows c.id
  | .function _ (.avg _) => False
  | _ => True

/-! ## 一つの項目 -/

def stream (cleared : Bool) (bin : List Row) : List Tuples :=
  if cleared then bin.map fun _ => none else bin.map some

theorem stream_false (bin : List Row) : stream false bin = bin.map some := rfl

theorem stream_true (bin : List Row) : stream true bin = bin.map fun _ => none := rfl

theorem length_stream (cleared : Bool) (bin : List Row) :
    (stream cleared bin).length = bin.length := by
  cases cleared <;> simp [stream]

theorem map_none_stream (cleared : Bool) (bin : List Row) :
    ((stream cleared bin).map fun _ => none) = stream true bin := by
  cases cleared with
  | false => rw [stream_false, map_map]; rfl
  | true => rw [stream_true, map_map]; rfl

theorem head_stream_false (h : bin ≠ []) : (stream false bin).head?.join = some (first bin) := by
  cases bin with
  | nil => exact absurd rfl h
  | cons row bin => rfl

theorem head_stream_true (bin : List Row) : (stream true bin).head?.join = none := by
  cases bin <;> rfl

theorem addDistinct_cleared (key : Text) (c : Column) (bin : List Row) (gh : Sets) :
    addDistinct key c (stream true bin) gh = gh := by
  rw [addDistinct, stream_true, foldl_map]
  induction bin with
  | nil => rfl
  | cons row bin ih => exact ih

theorem foldlM_getSum {c : Column} (h : IsIntColumn bin c.id) (s : ℚ) :
    (bin.map some).foldlM (fun sum tlist =>
      match getColValue tlist c with
      | none => some none
      | some v => do
        let d ← v.parseDouble D
        return sum.map (· + d)) (some s) = some (some (s + total bin c.id)) := by
  induction bin generalizing s with
  | nil => simp [total]
  | cons row bin ih =>
    obtain ⟨n, hn⟩ := h row mem_cons_self
    rw [map_cons, foldlM_cons]
    refine Eq.trans ?_ ((ih (fun r hr => h r (mem_cons_of_mem _ hr)) (s + n)).trans ?_)
    · simp [getColValue, hn, Value.parseDouble]
    · rw [total, total, map_cons, sum_cons, hn, Value.num]
      push_cast
      rw [add_assoc]

theorem getSum_live {c : Column} (h : IsIntColumn bin c.id) :
    getSum D (stream false bin) c = some (some (total bin c.id : ℚ)) := by
  rw [getSum, stream_false]
  refine (foldlM_getSum h 0).trans ?_
  rw [zero_add]

theorem getSum_cleared (c : Column) (h : bin ≠ []) : getSum D (stream true bin) c = some none := by
  have hrest (bin : List Row) : (stream true bin).foldlM (fun sum tlist =>
      match getColValue tlist c with
      | none => some none
      | some v => do
        let d ← v.parseDouble D
        return sum.map (· + d)) none = some none := by
    induction bin with
    | nil => rfl
    | cons row bin ih => exact ih
  cases bin with
  | nil => exact absurd rfl h
  | cons row bin => exact hrest bin

theorem calculateItem_eq (hbin : bin ≠ []) {item : SelectItem} (h : item.Summable bin) (key : Text)
    (cleared : Bool) (gh : Sets) (cells : List Cell) :
    calculateItem D key { gh := gh, instream := stream cleared bin, cells := cells } item =
      some { gh := item.distinct.elim gh fun c => addDistinct key c (stream cleared bin) gh,
             instream := stream (cleared || item.distinct.isSome) bin,
             cells := cells ++ (item.emit cleared).map (Symbol.cell bin) } := by
  obtain ⟨expression, aliasName⟩ := item
  cases expression with
  | column c =>
    cases cleared with
    | false =>
      simp [calculateItem, head_stream_false hbin, SelectItem.distinct, SelectItem.emit, Symbol.cell]
    | true => simp [calculateItem, head_stream_true, SelectItem.distinct, SelectItem.emit]
  | function name fn =>
    cases fn with
    | count c =>
      simp [calculateItem, length_stream, SelectItem.distinct, SelectItem.emit, Symbol.cell]
    | countDistinct c =>
      simp only [calculateItem, map_none_stream, SelectItem.distinct, SelectItem.emit, Symbol.cell,
        Option.elim_some, Option.isSome_some, Bool.or_true, map_cons, map_nil]
    | sum c =>
      have h : IsIntColumn bin c.id := h
      cases cleared with
      | false =>
        simp [calculateItem, getSum_live h, SelectItem.distinct, SelectItem.emit, Symbol.cell]
      | true =>
        simp [calculateItem, getSum_cleared c hbin, SelectItem.distinct, SelectItem.emit,
          Symbol.cell]
    | avg c => exact absurd h id

/-! ## 一つの bin -/

theorem foldlM_calculateItem (hbin : bin ≠ []) {items : List SelectItem}
    (h : ∀ item ∈ items, item.Summable bin) (key : Text) (cleared : Bool) (gh : Sets)
    (cells : List Cell) :
    ∃ instream, items.foldlM (calculateItem D key)
        { gh := gh, instream := stream cleared bin, cells := cells } =
      some { gh := (items.findSome? SelectItem.distinct).elim gh fun c =>
               addDistinct key c (stream cleared bin) gh,
             instream := instream, cells := cells ++ (emit cleared items).map (Symbol.cell bin) } := by
  induction items generalizing cleared gh cells with
  | nil => exact ⟨_, by simp [emit]; rfl⟩
  | cons item items ih =>
    obtain ⟨instream, hrest⟩ := ih (fun i hi => h i (mem_cons_of_mem _ hi))
      (cleared || item.distinct.isSome)
      (item.distinct.elim gh fun c => addDistinct key c (stream cleared bin) gh)
      (cells ++ (item.emit cleared).map (Symbol.cell bin))
    refine ⟨instream, ?_⟩
    rw [foldlM_cons, calculateItem_eq hbin (h item mem_cons_self)]
    refine hrest.trans ?_
    rw [findSome?_cons, emit, map_append, append_assoc]
    cases hd : item.distinct with
    | none => simp
    | some c =>
      -- 二つ目の DISTINCT は消された tuple を読むので、何も足さない
      have hnone : ((items.findSome? SelectItem.distinct).elim
          (addDistinct key c (stream cleared bin) gh) fun c' =>
            addDistinct key c' (stream true bin) (addDistinct key c (stream cleared bin) gh)) =
          addDistinct key c (stream cleared bin) gh := by
        cases items.findSome? SelectItem.distinct with
        | none => rfl
        | some c' => exact addDistinct_cleared key c' bin _
      simp [hnone]

/-- `GH` に、最初の DISTINCT の列の値を足す。 -/
def Query.addRows (q : Query) (key : Text) (rows : List Row) (gh : Sets) : Sets :=
  q.firstDistinct.elim gh fun c => addDistinct key c (rows.map some) gh

variable {q : Query}

/-- **bin の結果の行は、select list の記号の欄である。** -/
theorem calculateGroupByProjection_eq (hbin : bin ≠ []) (h : ∀ item ∈ q.items, item.Summable bin)
    (gh : Sets) :
    calculateGroupByProjection D q gh (bin.map some) =
      some (q.addRows (getGroupByKey q.groupBy (bin.map some)) bin gh,
        q.emitted.map (Symbol.cell bin)) := by
  obtain ⟨instream, hfold⟩ := foldlM_calculateItem (D := D) hbin h
    (getGroupByKey q.groupBy (bin.map some)) false gh []
  rw [calculateGroupByProjection, ← stream_false]
  simp only [stream_false] at hfold ⊢
  rw [hfold]
  have hne := q.emitted_ne_nil
  rw [Query.emitted] at hne ⊢
  simp [hne, Query.addRows, Query.firstDistinct]

/-! ## すべての bin -/

theorem addRows_append (key : Text) (a b : List Row) (gh : Sets) :
    q.addRows key (a ++ b) gh = q.addRows key b (q.addRows key a gh) := by
  rw [Query.addRows, Query.addRows, Query.addRows]
  cases q.firstDistinct with
  | none => rfl
  | some c =>
    show addDistinct key c ((a ++ b).map some) gh = _
    rw [addDistinct, map_append, foldl_append]
    rfl

theorem foldlM_bins {bins : List (List Row)} {key : Text} (hne : ∀ bin ∈ bins, bin ≠ [])
    (h : ∀ bin ∈ bins, ∀ item ∈ q.items, item.Summable bin)
    (hkey : ∀ bin ∈ bins, getGroupByKey q.groupBy (bin.map some) = key) (gh : Sets)
    (out : List (List Cell)) :
    bins.foldlM (fun s bin => do
        let (gh, cells) ← calculateGroupByProjection D q s.1 (bin.map some)
        return (gh, s.2 ++ [cells])) (gh, out) =
      some (q.addRows key bins.flatten gh,
        out ++ bins.map fun bin => q.emitted.map (Symbol.cell bin)) := by
  induction bins generalizing gh out with
  | nil =>
    have hnil : q.addRows key [] gh = gh := by
      rw [Query.addRows]
      cases q.firstDistinct <;> rfl
    simp [hnil]
  | cons bin bins ih =>
    rw [foldlM_cons]
    simp only [calculateGroupByProjection_eq (hne bin mem_cons_self)
      (h bin mem_cons_self), hkey bin mem_cons_self]
    refine (ih (fun b hb => hne b (mem_cons_of_mem _ hb))
      (fun b hb => h b (mem_cons_of_mem _ hb))
      (fun b hb => hkey b (mem_cons_of_mem _ hb)) _ _).trans ?_
    rw [flatten_cons, addRows_append]
    simp

/-- **bin ごとの行と、`GH` に集まる値。** -/
theorem calculateBins_eq (bins : List (List Row)) (key : Text)
    (h : ∀ bin ∈ bins, bin ≠ [] → ∀ item ∈ q.items, item.Summable bin)
    (hkey : ∀ bin ∈ bins, bin ≠ [] → getGroupByKey q.groupBy (bin.map some) = key) :
    calculateBins D q bins =
      some (q.addRows key bins.flatten fun _ => none,
        (bins.filter fun bin => !bin.isEmpty).map fun bin => q.emitted.map (Symbol.cell bin)) := by
  have hmem {bin : List Row} (hbin : bin ∈ bins.filter fun bin => !bin.isEmpty) :
      bin ∈ bins ∧ bin ≠ [] := by simpa using hbin
  rw [calculateBins]
  refine (foldlM_bins (fun bin hb => (hmem hb).2) (fun bin hb => h bin (hmem hb).1 (hmem hb).2)
    (fun bin hb => hkey bin (hmem hb).1 (hmem hb).2) _ _).trans ?_
  rw [flatten_filter_not_isEmpty, nil_append]

theorem addDistinct_empty (key : Text) (c : Column) {rows : List Row} (h : rows ≠ []) (k : Text) :
    addDistinct key c (rows.map some) (fun _ => none) k =
      if k = key then some (texts rows c.id) else none := by
  have hgen (rows : List Row) (gh : Sets) (k : Text) :
      addDistinct key c (rows.map some) gh k =
        if k = key ∧ rows ≠ [] then some ((gh key).getD ∅ ∪ texts rows c.id) else gh k := by
    induction rows generalizing gh with
    | nil => simp [addDistinct]
    | cons row rows ih =>
      have hstep : addDistinct key c ((row :: rows).map some) gh =
          addDistinct key c (rows.map some)
            (update gh key (some (insert (row c.id).toText ((gh key).getD ∅)))) := rfl
      have htexts : texts (row :: rows) c.id = insert (row c.id).toText (texts rows c.id) := by
        simp [texts]
      rw [hstep, ih, htexts]
      by_cases hk : k = key
      · subst hk
        cases rows with
        | nil => simp [texts]
        | cons row' rows => simp
      · simp [hk]
  rw [hgen]
  simp [h]

end Sql
