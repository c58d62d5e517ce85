import MsProjects.Sql.Aggregate
import MsProjects.Sql.HashJoin

/-!
# group と結果の行

`OperatorGroupBy`、`CombineGroup` と、`EvaluateStatement.processQuery` の bin を読むところから
ORDER BY の前まで。
-/

namespace Sql

abbrev Tuple := Text × List (Option Line)

/-! ## `calculateGroupBy` -/

section

variable {τ : Type}

/-- 行の `GROUP BY` の列の値。 -/
def rowValues (value : τ → Column → Option Text) (groupBy : List Column) (row : List τ) :
    List (Option Text) :=
  groupBy.map fun c => row.findSome? fun tup => value tup c

/-- 値を繋いだ key。 -/
def groupKey (values : List (Option Text)) : Text := values.flatMap fun v => v.getD []

/-- `grouped` に一行を加える。 -/
def addToGroup {α : Type} (key : Text) (row : α) : List (Text × List α) → List (Text × List α)
  | [] => [(key, [row])]
  | group :: rest =>
    if group.1 = key then (group.1, group.2 ++ [row]) :: rest else group :: addToGroup key row rest

/-- `sel_op` の group。 -/
def groupRows (value : τ → Column → Option Text) (groupBy : List Column) (instream : List (List τ)) :
    List (List (List τ)) :=
  (instream.foldl (fun grouped row => addToGroup (groupKey (rowValues value groupBy row)) row
    grouped) []).map Prod.snd

/-- `OperatorGroupBy.calculateGroupBy`。`getColValue` は `Tuple` の method である。 -/
def calculateGroupBy (getColValue : τ → Column → Option Text) := groupRows getColValue

/-- `CombineGroup.combineGroupBy`。 -/
def combineGroupBy (getOsColValue : τ → Column → Option Text) := groupRows getOsColValue

end

/-! ## `processQuery` の後半 -/

/-- `isSubselect`。 -/
inductive Subselect where
  | none
  | inner
  | outer
  deriving DecidableEq, Repr

/-- 行の演算。`groups` は `sel_op`、`combine` は `CombineGroup.sel_op` の group である。 -/
structure RowOperators (α : Type) where
  project : α → α
  groups : List α → List (List α)
  projectGroup : List α → α
  combine : List α → List (List α)
  projectCombined : List α → α

section

variable {α : Type} (op : RowOperators α) (isSubselect : Subselect) (hasGroupBy : Bool)
  (addToOutstream : Nat → List α)

/-- 一つの bin。組の左は `outstream`、右は `writeMap` で書いた file である。 -/
def processBin (st : List α × (Nat → List α)) (j : Nat) : List α × (Nat → List α) :=
  if isSubselect = .inner then
    (st.1, Function.update st.2 j ((addToOutstream j).map op.project))
  else
    let temp := if isSubselect = .outer then st.2 j else addToOutstream j
    if hasGroupBy then (st.1 ++ (op.groups temp).map op.projectGroup, st.2) else st

/-- bin を読むところから ORDER BY の前まで。 -/
def processRows (outstream : List α) (files : Nat → List α) : List α × (Nat → List α) :=
  if outstream.isEmpty then
    let st := (List.range bins).foldl (processBin op isSubselect hasGroupBy addToOutstream)
      (outstream, files)
    if hasGroupBy then ((op.combine st.1).map op.projectCombined, st.2) else st
  else if hasGroupBy then ((op.groups outstream).map op.projectGroup, files)
  else (outstream.map op.project, files)

end

end Sql
