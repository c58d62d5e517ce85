import MsProjects.Sql.Filter

/-!
# 条件の式とその文字列

一つの表の列についての条件の式と、JSqlParser がそれを書き戻す文字列。
-/

namespace Sql

/-- 比較の右辺。 -/
inductive Operand where
  | string (s : Text)
  | date (fn d : Text)
  | number (s : Text)
  | column (i : Nat)
  deriving DecidableEq, Repr

/-- 列を左辺に置く比較。 -/
structure Comparison where
  lhs : Nat
  operator : Operator
  rhs : Operand
  deriving DecidableEq, Repr

/-- 条件。 -/
inductive Conjunct (α : Type) where
  | comparison (c : α)
  | or (c₁ c₂ : α) (rest : List α)
  deriving DecidableEq, Repr

/-! ## 文字列 -/

/-- 列の名前。 -/
def CreateTable.columnText (t : CreateTable) (i : Nat) : Text :=
  t.name ++ '.' :: (t.columnDefinitions[i]?.map ColumnDefinition.name).getD []

/-- 引用符を重ねる。 -/
def escape (s : Text) : Text := s.flatMap fun c => if c = '\'' then ['\'', '\''] else [c]

def Operand.text (t : CreateTable) : Operand → Text
  | .string s => '\'' :: (escape s ++ ['\''])
  | .date fn d => fn ++ ('(' :: '\'' :: (d ++ ['\'', ')']))
  | .number s => s
  | .column i => t.columnText i

def Comparison.text (t : CreateTable) (c : Comparison) : Text :=
  t.columnText c.lhs ++ ' ' :: (c.operator.text ++ ' ' :: c.rhs.text t)

def Conjunct.text (t : CreateTable) : Conjunct Comparison → Text
  | .comparison c => c.text t
  | .or c₁ c₂ rest =>
    '(' :: (" OR ".toList.intercalate ((c₁ :: c₂ :: rest).map fun c => c.text t) ++ [')'])

/-! ## 真偽 -/

/-- 列の型。 -/
def CreateTable.typeOf (t : CreateTable) (i : Nat) : Datatype :=
  datatypeOf ((t.columnDefinitions[i]?.map ColumnDefinition.type).getD [])

/-- 文字列の順序。 -/
def compareText (a b : Text) : Ordering := if a = b then .eq else if a < b then .lt else .gt

/-- 日付の順序。 -/
def compareDate (a b : Text) : Ordering := compare ((parseDate a).getD 0) ((parseDate b).getD 0)

/-- 小数の、小数点を除いた整数と、小数点より後の桁数。 -/
def parseDecimal (s : Text) : Option (Int × Nat) :=
  if s.count '.' ≤ 1 then
    (parseSigned (s.filter (· ≠ '.'))).map fun n => (n, (s.dropWhile (· ≠ '.')).length - 1)
  else none

/-- 小数の順序。 -/
def compareDecimal (a b : Text) : Ordering :=
  let x := (parseDecimal a).getD (0, 0)
  let y := (parseDecimal b).getD (0, 0)
  compare (x.1 * 10 ^ y.2) (y.1 * 10 ^ x.2)

/-- 型の値として読めること。 -/
def Datatype.reads (s : Text) : Datatype → Bool
  | .string => true
  | .date => (parseDate s).isSome
  | .long | .double => (parseDecimal s).isSome

/-- 型ごとの順序。 -/
def Datatype.compareAs (a b : Text) : Datatype → Ordering
  | .string => compareText a b
  | .date => compareDate a b
  | .long | .double => compareDecimal a b

def Operand.value (row : List Line) : Operand → Text
  | .string s => s
  | .date _ d => d
  | .number s => s
  | .column i => row[i]?.getD []

/-- 比較の真偽。 -/
def Comparison.holds (t : CreateTable) (row : List Line) (c : Comparison) : Bool :=
  c.operator.test ((t.typeOf c.lhs).compareAs (row[c.lhs]?.getD []) (c.rhs.value row))

/-- 条件の真偽。 -/
def Conjunct.holds {α : Type} (holds : α → Bool) : Conjunct α → Bool
  | .comparison c => holds c
  | .or c₁ c₂ rest => (c₁ :: c₂ :: rest).any holds

/-- 比較の両辺の型が合っていること。 -/
def Comparison.WellTyped (t : CreateTable) (c : Comparison) : Prop :=
  c.lhs < t.columnDefinitions.length ∧
    match c.rhs with
    | .string _ => t.typeOf c.lhs = .string
    | .date fn d => t.typeOf c.lhs = .date ∧ equalsIgnoreCase fn "date".toList ∧ (parseDate d).isSome
    | .number s => (t.typeOf c.lhs = .long ∨ t.typeOf c.lhs = .double) ∧ (parseDecimal s).isSome
    | .column i => i < t.columnDefinitions.length ∧ t.typeOf i = t.typeOf c.lhs

instance (t : CreateTable) : (c : Comparison) → Decidable (c.WellTyped t)
  | ⟨_, _, .string _⟩ => inferInstanceAs (Decidable (_ ∧ _))
  | ⟨_, _, .date _ _⟩ => inferInstanceAs (Decidable (_ ∧ _ ∧ _ ∧ _))
  | ⟨_, _, .number _⟩ => inferInstanceAs (Decidable (_ ∧ (_ ∨ _) ∧ _))
  | ⟨_, _, .column _⟩ => inferInstanceAs (Decidable (_ ∧ _ ∧ _))

end Sql
