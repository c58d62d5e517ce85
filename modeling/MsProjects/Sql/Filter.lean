import MsProjects.Sql.Expression
import MsProjects.Sql.Schema

/-!
# 表ごとの条件

一つの表だけの条件を文字列から `Metadata` に直す `setCondition`、条件を `AND` と `OR` の list に
まとめる `getSingleExpressions`、その list で行を選ぶ `calculateBoolean`。
-/

namespace Sql

/-! ## 日付 -/

def digit (c : Char) : Option Nat := if c.isDigit then some (c.toNat - '0'.toNat) else none

/-- 月の日数。 -/
def daysIn (year month : Nat) : Nat :=
  if month = 2 then if year % 4 = 0 ∧ (year % 100 ≠ 0 ∨ year % 400 = 0) then 29 else 28
  else if month ∈ [4, 6, 9, 11] then 30 else 31

/-- `SimpleDateFormat("yyyy-MM-dd").parse`。 -/
def parseDate : Text → Option Nat
  | [y₁, y₂, y₃, y₄, '-', m₁, m₂, '-', d₁, d₂] => do
    let year := 1000 * (← digit y₁) + 100 * (← digit y₂) + 10 * (← digit y₃) + (← digit y₄)
    let month := 10 * (← digit m₁) + (← digit m₂)
    let day := 10 * (← digit d₁) + (← digit d₂)
    if 1 ≤ month ∧ month ≤ 12 ∧ 1 ≤ day ∧ day ≤ daysIn year month then
      some (10000 * year + 100 * month + day)
    else none
  | _ => none

/-! ## `Metadata` -/

def Operator.text : Operator → Text
  | .equalsTo => ['=']
  | .notEqualsTo => ['<', '>']
  | .minorThan => ['<']
  | .greaterThan => ['>']
  | .minorThanEquals => ['<', '=']
  | .greaterThanEquals => ['>', '=']

structure Metadata where
  operator : Operator
  rhs : Text
  datatype : Datatype
  lhscol : Option Nat
  rhscol : Option Nat
  rhsdate : Option Nat
  deriving DecidableEq, Repr

/-- 条件の文字列に含まれる演算子。 -/
def findOperator (condition : Text) : Option Operator :=
  if ['='] <:+: condition then
    if ['<', '='] <:+: condition then some .minorThanEquals
    else if ['>', '='] <:+: condition then some .greaterThanEquals
    else some .equalsTo
  else if ['<', '>'] <:+: condition then some .notEqualsTo
  else if ['<'] <:+: condition then some .minorThan
  else if ['>'] <:+: condition then some .greaterThan
  else none

/-- `date('..')` の中身。 -/
def dateText (rhs : Text) : Text :=
  removeText "')".toList (removeText "DATE('".toList (removeText "date('".toList rhs))

/-- `rhs.substring(1, rhs.length() - 1)`。 -/
def unquote (rhs : Text) : Option Text :=
  if rhs.length < 2 then none else some rhs.tail.dropLast

/-- 両辺の文字列から決まる `Metadata`。 -/
def metadataOf (ct : List CreateTable) (operator : Operator) (lhs rhs : Text) : Option Metadata := do
  let datatype ← getDatatype ct lhs
  let lhscol ← getColNumber ct lhs
  let rhscol ← getColNumber ct rhs
  match datatype, rhscol with
  | .date, none =>
    return { operator, datatype, lhscol, rhscol, rhs := dateText rhs,
             rhsdate := parseDate (dateText rhs) }
  | .string, none =>
    return { operator, datatype, lhscol, rhscol, rhs := ← unquote rhs, rhsdate := none }
  | _, _ => return { operator, datatype, lhscol, rhscol, rhs, rhsdate := none }

def setCondition (ct : List CreateTable) (condition : Text) : Option Metadata := do
  let operator ← findOperator condition
  let parts := splitText operator.text condition
  metadataOf ct operator (trim (← parts[0]?)) (trim (← parts[1]?))

/-! ## `getSingleExpressions` -/

def createORlist (ct : List CreateTable) (or : Text) : Option (List Metadata) :=
  (splitText " OR ".toList (stripParens or)).mapM (setCondition ct)

/-- `AND` の list と `OR` の list。 -/
abbrev AndOrList := List (Option Metadata) × List Metadata

/-- 一つの条件を加える。 -/
def addExpression (ct : List CreateTable) (mlist : AndOrList) (w : Text) : Option AndOrList :=
  if " OR ".toList <:+: w then do
    return (mlist.1 ++ [none], ← createORlist ct w)
  else do
    return (mlist.1 ++ [some (← setCondition ct w)], mlist.2)

/-- 一つの表についての `getSingleExpressions`。 -/
def getSingleExpressions (ct : List CreateTable) (ws : List Text) : Option AndOrList :=
  ws.foldlM (addExpression ct) ([], [])

/-! ## `calculateBoolean` -/

/-- 一つの比較の結果。 -/
inductive Outcome where
  | pass
  | fail
  /-- 何も起きない。 -/
  | skip
  /-- 捕まえられない例外。 -/
  | error
  deriving DecidableEq, Repr

def Outcome.ofBool (b : Bool) : Outcome := if b then .pass else .fail

/-- `record.split("\\|")[col]`。 -/
def fieldOf (record : Line) (col : Option Nat) : Option Line := col.bind fun i => (split record)[i]?

/-- null の日付との比較。 -/
def Operator.testNull : Operator → Outcome
  | .equalsTo => .fail
  | .notEqualsTo => .pass
  | _ => .error

/-- 文字列の比較。 -/
def Metadata.testString (m : Metadata) (record : Line) : Outcome :=
  match m.operator with
  | .equalsTo => (fieldOf record m.lhscol).elim .error fun f => .ofBool (f = m.rhs)
  | .notEqualsTo => (fieldOf record m.lhscol).elim .error fun f => .ofBool (f ≠ m.rhs)
  | _ => .skip

/-- 日付の比較。 -/
def Metadata.testDate (m : Metadata) (record : Line) : Outcome :=
  match fieldOf record m.lhscol with
  | none => .error
  | some lhs =>
    match parseDate lhs with
    | none => .skip
    | some datelhs =>
      match m.rhscol with
      | none => m.rhsdate.elim m.operator.testNull fun d => .ofBool (m.operator.test (compare datelhs d))
      | some _ =>
        match fieldOf record m.rhscol with
        | none => .error
        | some rhs =>
          (parseDate rhs).elim .skip fun d => .ofBool (m.operator.test (compare datelhs d))

/-- 一つの比較。 -/
def Metadata.evaluate (m : Metadata) (record : Line) : Outcome :=
  match m.datatype with
  | .string => m.testString record
  | .date => m.testDate record
  | .long => .skip
  | .double => .skip

/-- `OR` の list。空の list では何も起きない。 -/
def calculateOr : List Outcome → Outcome
  | [] => .skip
  | .pass :: _ => .pass
  | .error :: _ => .error
  | [_] => .fail
  | _ :: rest => calculateOr rest

/-- `AND` の list。 -/
def calculateAnd : List Outcome → Bool → Option Bool
  | [], result => some result
  | .pass :: rest, _ => calculateAnd rest true
  | .fail :: _, _ => some false
  | .skip :: rest, result => calculateAnd rest result
  | .error :: _, _ => none

def calculateBoolean (mlist : AndOrList) (record : Line) : Option Bool :=
  let or := calculateOr (mlist.2.map fun m => m.evaluate record)
  calculateAnd (mlist.1.map fun m => m.elim or fun m => m.evaluate record) false

/-- 行が選ばれるか。 -/
def accepts (ct : List CreateTable) (ws : List Text) (record : Line) : Option Bool :=
  if ws.isEmpty then some true
  else do calculateBoolean (← getSingleExpressions ct ws) record

end Sql
