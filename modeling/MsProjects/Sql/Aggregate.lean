import Mathlib.Data.Finset.Card
import Mathlib.Data.Rat.Defs
import MsProjects.Sql.Condition

/-!
# bin ごとの集計とその合成

`OperatorProject` の `calculateGroupByProjection` は、一つの bin の中の group を一行にまとめる。
-/

namespace Sql

/-- 空でなく、区切りの `|` を含まない欄。 -/
abbrev Field := {s : Text // s ≠ [] ∧ '|' ∉ s}

/-- 行の欄の値。 -/
inductive Value where
  | text (s : Field)
  | int (n : Int)
  deriving DecidableEq

/-- 欄の文字列。 -/
def Value.toText : Value → Text
  | .text s => s.1
  | .int n => n.repr.toList

/-- 列の参照。 -/
structure Column where
  name : Text
  id : Nat
  deriving DecidableEq

/-- join した一行。 -/
abbrev Row := Nat → Value

/-- `instream` の一つの `List<Tuple>`。 -/
abbrev Tuples := Option Row

/-- 行の `getColValue`。 -/
def getColValue (tlist : Tuples) (c : Column) : Option Value := tlist.map fun row => row c.id

/-- bin の結果の欄。 -/
inductive Cell where
  | value (v : Value)
  /-- `DecimalFormat` で書いた小数。 -/
  | decimal (q : ℚ)
  /-- `DecimalFormat` で書いた無限大。 -/
  | infinity
  deriving DecidableEq

/-- `DecimalFormat("##0.0##")` と `Double.parseDouble`。 -/
structure Decimal where
  format : ℚ → Text
  parse : Text → Option ℚ
  dot : ∀ q, '.' ∈ format q

/-- 小数点より後の三桁への、偶数への丸め。 -/
def roundHalfEven (q : ℚ) : Int :=
  let n := (1000 * q).floor
  let rest := 1000 * q - n
  if rest < 1 / 2 ∨ rest = 1 / 2 ∧ n % 2 = 0 then n else n + 1

/-- 小数点より後の桁。末尾の 0 は、最初の桁を除いて書かない。 -/
def fraction (n : Nat) : Text :=
  let digits := [n / 100 % 10, n / 10 % 10, n % 10].map Nat.digitChar
  digits.take 1 ++ (digits.drop 1).rdropWhile (· = '0')

/-- 書式と読み方を式で書いたもの。 -/
def Decimal.standard : Decimal where
  format q :=
    let n := roundHalfEven q
    (if q < 0 then ['-'] else []) ++ (n.natAbs / 1000).repr.toList ++ '.' :: fraction (n.natAbs % 1000)
  parse s := (parseDecimal s).map fun x => x.1 / 10 ^ x.2
  dot _ := by simp

example : Decimal.standard.format (-5 / 16) = "-0.312".toList := by decide +kernel

variable (D : Decimal)

def Cell.toText : Cell → Text
  | .value v => v.toText
  | .decimal q => D.format q
  | .infinity => ['∞']

/-- 欄の `Integer.parseInt`。 -/
def Cell.parseInt : Cell → Option Int
  | .value (.text s) => Sql.parseInt s.1
  | .value (.int n) => some n
  | .decimal _ => none
  | .infinity => none

/-- 値の `Double.parseDouble`。 -/
def Value.parseDouble : Value → Option ℚ
  | .text s => D.parse s.1
  | .int n => some n

/-- 欄の `Double.parseDouble`。 -/
def Cell.parseDouble : Cell → Option ℚ
  | .value v => v.parseDouble D
  | .decimal q => some q
  | .infinity => none

/-! ## select list -/

/-- 集計関数。 -/
inductive Fn where
  | count (c : Option Column)
  | countDistinct (c : Column)
  | sum (c : Column)
  | avg (c : Column)
  deriving DecidableEq

def Fn.parameters : Fn → Text
  | .count none => "null".toList
  | .count (some c) | .countDistinct c | .sum c | .avg c => '(' :: c.name ++ [')']

inductive SelectExpression where
  | column (c : Column)
  /-- `name` は書かれた関数の名前である。 -/
  | function (name : Text) (fn : Fn)
  deriving DecidableEq

/-- `SelectExpressionItem`。 -/
structure SelectItem where
  expression : SelectExpression
  aliasName : Option Text
  deriving DecidableEq

/-- `createOutputSchema` の一列の文字列。 -/
def SelectItem.outputColumn (item : SelectItem) : Text :=
  match item.aliasName, item.expression with
  | some a, _ => "ostable.".toList ++ a
  | none, .column c => c.name
  | none, .function name fn => "ostable.".toList ++ name ++ '|' :: fn.parameters

/-- GROUP BY のある query。 -/
structure Query where
  items : List SelectItem
  groupBy : List Column
  /-- `Main.ct.size()`。 -/
  ctSize : Nat
  /-- 集計しない列は GROUP BY の列である。 -/
  grouped : ∀ item ∈ items, ∀ c, item.expression = .column c → ∃ g ∈ groupBy, g.id = c.id
  ne_nil : items ≠ []

/-- `OutputSchema.os` の列。 -/
def Query.outputSchema (q : Query) : List Text := q.items.map SelectItem.outputColumn

/-- `EvaluateStatement.GH`。 -/
abbrev Sets := Text → Option (Finset Text)

/-! ## 一つの bin -/

def getGroupByKey (groupBy : List Column) (instream : List Tuples) : Text :=
  groupBy.flatMap fun c => ((instream.head?.join).map fun row => (row c.id).toText).getD []

/-- `DISTINCT` のときの `getCount` が `GH` に足す値。 -/
def addDistinct (key : Text) (c : Column) (instream : List Tuples) (gh : Sets) : Sets :=
  instream.foldl (fun gh tlist =>
    match getColValue tlist c with
    | none => gh
    | some v => Function.update gh key (some (insert v.toText ((gh key).getD ∅)))) gh

def getSum (instream : List Tuples) (c : Column) : Option (Option ℚ) :=
  instream.foldlM (fun sum tlist =>
    match getColValue tlist c with
    | none => some none
    | some v => do
      let d ← v.parseDouble D
      return sum.map (· + d)) (some 0)

def getAvg (instream : List Tuples) (c : Column) : Option ℚ := do
  let sum ← ← getSum D instream c
  return sum / instream.length

/-- `calculateGroupByProjection` の loop の状態。 -/
structure Projecting where
  gh : Sets
  instream : List Tuples
  cells : List Cell

/-- 一つの項目。 -/
def calculateItem (key : Text) (p : Projecting) (item : SelectItem) : Option Projecting :=
  match item.expression with
  | .column c =>
    match p.instream.head?.join with
    | none => some p
    | some row => some { p with cells := p.cells ++ [.value (row c.id)] }
  | .function _ (.count _) =>
    some { p with cells := p.cells ++ [.value (.int p.instream.length)] }
  | .function _ (.countDistinct c) =>
    some { gh := addDistinct key c p.instream p.gh, instream := p.instream.map fun _ => none,
           cells := p.cells ++ [.value (.int 0)] }
  | .function _ (.sum c) => do
    let sum ← getSum D p.instream c
    return { p with cells := p.cells ++ [sum.elim .infinity .decimal] }
  | .function _ (.avg c) => do
    let avg ← getAvg D p.instream c
    return { p with cells := p.cells ++ [.decimal avg] }

def calculateGroupByProjection (q : Query) (gh : Sets) (instream : List Tuples) :
    Option (Sets × List Cell) := do
  let key := getGroupByKey q.groupBy instream
  let p ← q.items.foldlM (calculateItem D key) { gh := gh, instream := instream, cells := [] }
  if p.cells.isEmpty then none else some (p.gh, p.cells)

/-- 同じ group の行を bin ごとにまとめる。 -/
def calculateBins (q : Query) (bins : List (List Row)) : Option (Sets × List (List Cell)) :=
  (bins.filter fun bin => !bin.isEmpty).foldlM (fun s bin => do
    let (gh, cells) ← calculateGroupByProjection D q s.1 (bin.map some)
    return (gh, s.2 ++ [cells])) (fun _ => none, [])

/-! ## bin の合成 -/

def getOsColValue {α : Type} (os : List Text) (tuple : List α) (col : Text) : Option (Option α) := do
  let col ← columnPart col
  match os.findIdx? fun text => col <:+: text with
  | none => some none
  | some count => (tuple[count]?).map some

def getGroupByOSKey (q : Query) (instream : List (List Cell)) : Option Text := do
  let cells ← q.groupBy.mapM fun c =>
    getOsColValue q.outputSchema (instream.head?.getD []) c.name
  return cells.flatMap fun v => (v.map (Cell.toText D)).getD []

def combineCount (os : List Text) (exp : Text) (instream : List (List Cell)) : Option Int :=
  instream.foldlM (fun sum tuple => do
    match ← getOsColValue os tuple (stripParens exp) with
    | none => return sum
    | some v => return sum + (← v.parseInt)) 0

def combineSum (os : List Text) (exp : Text) (instream : List (List Cell)) : Option ℚ :=
  instream.foldlM (fun sum tuple => do
    match ← getOsColValue os tuple (stripParens exp) with
    | none => return sum
    | some v => return sum + (← v.parseDouble D)) 0

/-- bin の結果の行での `getColValue`。 -/
def getColValueOfResult (col : Text) : Option (Option Value) :=
  if '.' ∈ col then none else some none

/-- bin の結果の行に対する `getAvg`。 -/
def getAvgOfResults (exp : Text) (instream : List (List Cell)) : Option ℚ := do
  let sum ← instream.foldlM (fun sum _ => do
    match ← getColValueOfResult exp with
    | none => return none
    | some v => return sum.map (· + (← v.parseDouble D))) (some 0)
  return (← sum) / instream.length

/-- bin の結果から探す名前。 -/
def SelectItem.expn (ctSize : Nat) (item : SelectItem) (fn : Fn) : Text :=
  if ctSize < 5 then item.aliasName.getD fn.parameters else fn.parameters

/-- 一つの項目。 -/
def combineItem (q : Query) (gh : Sets) (key : Text) (instream : List (List Cell))
    (item : SelectItem) : Option (List Cell) :=
  match item.expression with
  | .column c => do
    let v ← getOsColValue q.outputSchema (instream.head?.getD []) c.name
    return v.toList
  | .function _ (.count c) => do
    return [.value (.int (← combineCount q.outputSchema (item.expn q.ctSize (.count c)) instream))]
  | .function _ (.countDistinct _) => do
    return [.value (.int (← gh key).card)]
  | .function _ (.sum c) => do
    return [.decimal (← combineSum D q.outputSchema (item.expn q.ctSize (.sum c)) instream)]
  | .function _ (.avg c) => do
    return [.decimal (← getAvgOfResults D (item.expn q.ctSize (.avg c)) instream)]

def combineGroupByProjection (q : Query) (gh : Sets) (instream : List (List Cell)) :
    Option (List Cell) := do
  let key ← getGroupByOSKey D q instream
  let cells ← q.items.mapM (combineItem D q gh key instream)
  if cells.flatten.isEmpty then none else some cells.flatten

/-- bin に分けた group の集計。 -/
def combineBins (q : Query) (bins : List (List Row)) : Option (List Cell) := do
  let (gh, instream) ← calculateBins D q bins
  combineGroupByProjection D q gh instream

end Sql
