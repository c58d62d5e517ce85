import Mathlib.Data.Int.Basic
import MsProjects.Infra.Intern

/-!
# WHERE の式と ExpressionEvaluator

JSqlParser の式のうち、比較を `AND`、`OR`、括弧で組んだものと、それを辿る `ExpressionEvaluator`。
-/

namespace Sql

/-- 比較の演算子。 -/
inductive Operator where
  | equalsTo
  | notEqualsTo
  | minorThan
  | greaterThan
  | minorThanEquals
  | greaterThanEquals
  deriving DecidableEq, Repr

/-- 左辺を右辺と比べた結果についての演算子の真偽。 -/
def Operator.test : Operator → Ordering → Bool
  | equalsTo, o => o == .eq
  | notEqualsTo, o => o != .eq
  | minorThan, o => o == .lt
  | greaterThan, o => o == .gt
  | minorThanEquals, o => o != .gt
  | greaterThanEquals, o => o != .lt

/-- 整数の列と定数の比較。 -/
structure LongComparison where
  column : List Char
  operator : Operator
  value : Int
  deriving DecidableEq, Repr

/-- 列の値を与える行での比較の真偽。 -/
def LongComparison.holds (row : List Char → Int) (c : LongComparison) : Bool :=
  c.operator.test (compare (row c.column) c.value)

/-- 比較を `AND`、`OR`、括弧で組んだ式。 -/
inductive Expression (P : Type*) where
  | comparison (p : P)
  | and (left right : Expression P)
  | or (left right : Expression P)
  | parenthesis (e : Expression P)
  deriving DecidableEq, Repr

namespace Expression

variable {P : Type*}

/-- 比較の真偽から決まる式の真偽。 -/
def eval (holds : P → Bool) : Expression P → Bool
  | comparison p => holds p
  | and l r => l.eval holds && r.eval holds
  | or l r => l.eval holds || r.eval holds
  | parenthesis e => e.eval holds

/-- 括弧を外すと `AND` である。 -/
def isAnd : Expression P → Bool
  | comparison _ => false
  | and _ _ => true
  | or _ _ => false
  | parenthesis e => e.isAnd

/-- `AND` がどこにも現れない。 -/
def andFree : Expression P → Bool
  | comparison _ => true
  | and _ _ => false
  | or l r => l.andFree && r.andFree
  | parenthesis e => e.andFree

/-- 括弧を外すと `AND` であり、`AND` はそれだけである。 -/
def singleAnd : Expression P → Bool
  | comparison _ => false
  | and l r => l.andFree && r.andFree
  | or _ _ => false
  | parenthesis e => e.singleAnd

/-- 比較を除いて同じ形をしている。 -/
inductive SameShape : Expression P → Expression P → Prop
  | comparison (p q : P) : SameShape (comparison p) (comparison q)
  | and {l l' r r' : Expression P} :
      SameShape l l' → SameShape r r' → SameShape (and l r) (and l' r')
  | or {l l' r r' : Expression P} :
      SameShape l l' → SameShape r r' → SameShape (or l r) (or l' r')
  | parenthesis {e e' : Expression P} : SameShape e e' → SameShape (parenthesis e) (parenthesis e')

end Expression

/-- `ExpressionEvaluator` の欄のうち、式の list と列の名前の集合。 -/
structure ExpressionEvaluator (P : Type*) where
  whereExp : List (Expression P)
  orExp : List (Expression P)
  colList : List (List Char)

namespace ExpressionEvaluator

variable {P : Type*} (columns : P → List (List Char))

/-- `new ExpressionEvaluator()`。 -/
def new : ExpressionEvaluator P := { whereExp := [], orExp := [], colList := [] }

/-- `accept` による走査。 -/
def visit : Expression P → ExpressionEvaluator P → ExpressionEvaluator P
  | .comparison p, e => { e with colList := Infra.internAll e.colList (columns p) }
  | .and l r, e =>
    visit r (visit l { e with whereExp := e.whereExp ++ [l, r] })
  | .or l r, e =>
    visit r (visit l { e with orExp := e.orExp ++ [l, r] })
  | .parenthesis x, e => visit x e

end ExpressionEvaluator

/-- WHERE の式を辿った後の `getExpList()`。 -/
def getExpList {P : Type*} (columns : P → List (List Char)) (w : Expression P) :
    List (Expression P) :=
  (ExpressionEvaluator.visit columns w ExpressionEvaluator.new).whereExp

end Sql
