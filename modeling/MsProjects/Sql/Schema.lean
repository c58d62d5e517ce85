import MsProjects.Infra.Split
import MsProjects.Sql.Record

/-!
# 表の定義と列の名前

`CREATE TABLE` の列の定義と、query に書かれた列の名前からその番号と型を求める `getColNumber`、
`getDatatype`。
-/

namespace Sql

open Infra

/-- query に書かれた文字列。 -/
abbrev Text := List Char

/-- `String.split`。 -/
def splitText (sep s : Text) : List Text :=
  if sep <:+: s then (pieces sep s).rdropWhile fun part => part = [] else [s]

/-- `replaceAll(pattern, "")`。 -/
def removeText (pattern s : Text) : Text := (pieces pattern s).flatten

def trim (s : Text) : Text := (s.dropWhile (· ≤ ' ')).rdropWhile (· ≤ ' ')

/-- `equalsIgnoreCase`。名前は ASCII の識別子なので、ASCII の文字だけを揃える。 -/
def equalsIgnoreCase (a b : Text) : Bool := a.map Char.toLower = b.map Char.toLower

/-- 括弧を除く。 -/
def stripParens (exp : Text) : Text := exp.filter fun c => c ≠ '(' ∧ c ≠ ')'

/-- 名前の表の部分を除く。 -/
def columnPart (col : Text) : Option Text :=
  if '.' ∈ col then (splitText ['.'] col)[1]? else some col

structure ColumnDefinition where
  name : Text
  type : Text
  deriving DecidableEq, Repr

def ColumnDefinition.toText (d : ColumnDefinition) : Text := d.name ++ ' ' :: d.type

structure CreateTable where
  name : Text
  columnDefinitions : List ColumnDefinition
  deriving DecidableEq, Repr

/-- `Metadata.getColNumber`。 -/
def getColNumber (ct : List CreateTable) (col : Text) : Option (Option Nat) :=
  if '.' ∈ col then do
    let table ← (splitText ['.'] col)[0]?
    let col ← (splitText ['.'] col)[1]?
    let definitions :=
      (ct.filter fun t => equalsIgnoreCase t.name table).flatMap CreateTable.columnDefinitions
    return definitions.findIdx? fun d => col <:+: d.toText
  else some none

/-- `DataType` の返す型。 -/
inductive Datatype where
  | string
  | long
  | double
  | date
  deriving DecidableEq, Repr

/-- 型の名前から型を決める。 -/
def datatypeOf (datatype : Text) : Datatype :=
  if "char".toList <:+: datatype ∨ "string".toList <:+: datatype ∨ "CHAR".toList <:+: datatype ∨
      "STRING".toList <:+: datatype then .string
  else if "int".toList <:+: datatype ∨ "INT".toList <:+: datatype then .long
  else if "decimal".toList <:+: datatype ∨ "DECIMAL".toList <:+: datatype then .double
  else if "date".toList <:+: datatype ∨ "DATE".toList <:+: datatype then .date
  else .double

/-- 一つの表の中での型の名前。 -/
def findDatatype (colName : Text) (b : Bool) : List ColumnDefinition → Option (Option Text)
  | [] => some none
  | d :: rest =>
    if colName <:+: d.toText then ((splitText [' '] d.toText)[1]?).map some
    else if b then some none
    else findDatatype colName b rest

/-- `DataType.getDatatype`。 -/
def getDatatype (ct : List CreateTable) (col : Text) : Option Datatype := do
  let colName ← columnPart col
  let found ← ct.foldlM (fun (found : Option Text) t => do
    let next ← findDatatype colName found.isSome t.columnDefinitions
    return next.or found) none
  return datatypeOf (found.getD [])

end Sql
