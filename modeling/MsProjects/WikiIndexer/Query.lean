import Mathlib.Data.List.Infix
import MsProjects.WikiIndexer.Index

/-!
# 索引と辞書への問い合わせ

`IndexReader.query` と `Dictionary.query`。
-/

namespace WikiIndexer

/-! ## `IndexReader.query` -/

/-- 語を引いた結果の `HashMap`。 -/
structure Counts where
  entries : List (Term × Int)
  nodup : (entries.map Prod.fst).Nodup

namespace Counts

def keySet (m : Counts) : List Term := m.entries.map Prod.fst

/-- `m.get(t)`。 -/
def get (m : Counts) (t : Term) : Int := (m.entries.lookup t).getD 0

end Counts

/-- ほかの語の結果を調べた後の `flag`。 -/
def scanFlag (t : Term) : List Counts → Bool → Bool
  | [], flag => flag
  | m :: rest, _ => if t ∈ m.keySet then scanFlag t rest true else false

/-- 一つ目の語の文書を順に調べる。 -/
def collect (l : List Counts) : List Term → Bool → Int → List (Term × Int)
  | [], _, _ => []
  | t :: rest, flag, cnt =>
    let flag := scanFlag t l.tail flag
    if flag then
      let cnt := l.foldl (fun cnt m => cnt + m.get t) cnt
      (t, cnt) :: collect l rest flag cnt
    else collect l rest flag cnt

/-- `pq` を `temp` に移す。 -/
def drain : List (Term × Int) → Option (List (Term × Int))
  | [] => some []
  | [_] => none
  | first :: second :: rest => (drain rest).map ((first.1, second.2) :: ·)

-- `poll` は `PriorityQueue` から取り出される順、`stem` は `Stemmer`
variable (poll : List (Term × Int) → List (Term × Int)) (stem : Term → Term)
  (getPostings : Term → Option Counts)

def IndexReader.query (terms : List Term) : Option (List (Term × Int)) :=
  match terms.map stem with
  | [t] => (getPostings t).map Counts.entries
  | ts => do
    let l ← ts.mapM getPostings
    let result := collect l (← l.head?).keySet false 0
    if result.isEmpty then none else drain (poll result)

/-! ## `Dictionary.query` -/

/-- 大文字と小文字の対応。 -/
structure Casing where
  /-- `Character.toLowerCase`。 -/
  lower : Char → Char
  /-- `Character.toUpperCase`。 -/
  upper : Char → Char
  /-- `String.toLowerCase`。 -/
  toLowerCase : Term → Term
  toLowerCase_eq : ∀ s, (∀ c ∈ s, lower c = c) → toLowerCase s = s

namespace Casing

/-- ASCII の文字だけを変える対応。 -/
def ascii : Casing where
  lower := Char.toLower
  upper := Char.toUpper
  toLowerCase s := s.map Char.toLower
  toLowerCase_eq s h := (List.map_congr_left h).trans (List.map_id s)

variable (cs : Casing)

/-- `compareToIgnoreCase` が比べる文字。 -/
def fold (c : Char) : Char := cs.lower (cs.upper c)

/-- `compareToIgnoreCase(..) == 0`。 -/
def sameIgnoreCase (a b : Term) : Bool := a.map cs.fold = b.map cs.fold

/-- 末尾を比べる。 -/
def endsLike (temp s : Term) : Bool :=
  s <:+: temp && cs.sameIgnoreCase (temp.drop (temp.length - s.length)) s

/-- 先頭を比べる。 -/
def startsLike (temp s : Term) : Bool := s <:+: temp && cs.sameIgnoreCase (temp.take s.length) s

end Casing

/-- 辞書の語の list を受け取る `Dictionary.query`。 -/
def Dictionary.query (cs : Casing) (l : List Term) (queryStr : Term) : Option (List Term) := do
  let first ← queryStr.head?
  let temps := l.map cs.toLowerCase
  if first = '*' then return temps.filter fun temp => cs.endsLike temp queryStr.tail
  else if queryStr.getLast? = some '*' then
    return temps.filter fun temp => cs.startsLike temp queryStr.dropLast
  else if '*' ∈ queryStr then
    let parts := queryStr.splitOn '*'
    let s1 := cs.toLowerCase (← parts[0]?)
    let s2 := cs.toLowerCase (← parts[1]?)
    return temps.filter fun temp => cs.startsLike temp s1 && cs.endsLike temp s2
  else return []

end WikiIndexer
