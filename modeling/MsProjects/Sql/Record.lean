import Mathlib.Algebra.Ring.Int.Defs
import Mathlib.Algebra.Ring.Nat
import Mathlib.Data.List.DropRight

/-!
# 表の一行

`.dat` の一行は欄を `|` で繋いだ文字列である。
-/

namespace Sql

/-- file の一行。 -/
abbrev Line := List Char

/-- 欄を `|` で繋ぐ。 -/
def line (row : List Line) : Line := ['|'].intercalate row

/-- `s.split("\\|")`。 -/
def split (s : Line) : List Line :=
  if '|' ∈ s then (s.splitOn '|').rdropWhile fun field => field = [] else [s]

/-- `Arrays.copyOfRange`。 -/
def copyOfRange (a : List Line) (lo hi : Nat) : Option (List (Option Line)) :=
  if lo ≤ a.length then some ((List.range (hi - lo)).map fun i => a[lo + i]?) else none

/-- 文字列に繋いだ欄。 -/
def display (field : Option Line) : Line := field.getD "null".toList

/-- 一つ以上の数字を読む。 -/
def parseDigits (s : List Char) : Option Nat :=
  if s ≠ [] ∧ s.all Char.isDigit then
    some (s.foldl (fun n c => 10 * n + (c.toNat - '0'.toNat)) 0)
  else none

/-- 符号と数字を読む。 -/
def parseSigned : List Char → Option Int
  | [] => none
  | c :: s =>
    if c = '-' then (parseDigits s).map fun n => -(n : Int)
    else if c = '+' then (parseDigits s).map fun n => (n : Int)
    else (parseDigits (c :: s)).map fun n => (n : Int)

/-- `Integer.parseInt`。 -/
def parseInt (s : List Char) : Option Int := do
  let n ← parseSigned s
  if -2 ^ 31 ≤ n ∧ n < 2 ^ 31 then some n else none

end Sql
