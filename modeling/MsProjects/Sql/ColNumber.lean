import MsProjects.Sql.HashJoin
import MsProjects.Sql.Schema

/-!
# join の列の番号

`+` で繋いだ表の行の中での列の番号を求める `ConditionEvaluator.getColNumber`。
-/

namespace Sql

/-- 列の名前。 -/
structure ColumnName where
  table : Option Text
  column : Text
  deriving DecidableEq, Repr

/-- `+` で繋いだ名前の `equalsIgnoreCase`。 -/
def sameName (a b : TableName) : Bool := a.map (List.map Char.toLower) = b.map (List.map Char.toLower)

/-- `+` で繋いだ表の中での、表 `table` の列の番号。 -/
def plusOffset (ct : List CreateTable) (table : TableName) : TableName → Nat → Option Nat
  | [], _ => none
  | s :: rest, n =>
    if sameName table [s] then some n
    else
      plusOffset ct table rest ((ct.filter fun t => equalsIgnoreCase t.name s).foldl
        (fun n t => n + t.columnDefinitions.length) n)

/-- `Main.ct` を前から探す loop。 -/
def colNumberLoop (ct : List CreateTable) (table : TableName) (col : Text) (maintable : TableName) :
    List CreateTable → Nat → Nat
  | [], _ => 0
  | t :: rest, count =>
    if sameName [t.name] table then
      let count := count + t.columnDefinitions.findIdx fun d => col <:+: d.toText
      if maintable.length > 1 then
        (plusOffset ct table maintable count).getD (colNumberLoop ct table col maintable rest count)
      else count
    else colNumberLoop ct table col maintable rest count

def ConditionEvaluator.getColNumber (ct : List CreateTable) (col : ColumnName)
    (maintable : TableName) : Nat :=
  colNumberLoop ct (col.table.elim maintable fun t => [t]) col.column maintable ct 0

end Sql
