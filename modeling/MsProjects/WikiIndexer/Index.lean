import Mathlib.Logic.Function.Basic

/-!
# Wikipedia Indexer の索引

`indexer/` の `Partitioner`、`LocalDictionary`、`SharedDictionary`、`IndexWriter`、`IndexReader`。
-/

namespace WikiIndexer

/-- Java の `String`。 -/
abbrev Term := List Char

inductive IndexField where
  | term
  | author
  | category
  | link
  deriving DecidableEq, Repr

/-! ## Partitioner -/

/-- `Partitioner.getNumPartitions`。 -/
def numPartitions : Nat := 15

/-- `getPartitionNumber` のうち、先頭の文字から番号を選ぶところ。 -/
def charPartition (c : Char) : Nat :=
  if c = 'a' ∨ c = 'A' then 0
  else if c = 'c' ∨ c = 'C' then 1
  else if c = 'm' ∨ c = 'M' then 2
  else if c = 'p' ∨ c = 'P' then 3
  else if c = 's' ∨ c = 'S' then 4
  else if c = 't' ∨ c = 'T' then 5
  else if c = 'b' ∨ c = 'v' ∨ c = 'B' ∨ c = 'V' then 6
  else if c = 'd' ∨ c = 'j' ∨ c = 'D' ∨ c = 'J' then 7
  else if c = 'e' ∨ c = 'o' ∨ c = 'E' ∨ c = 'O' then 8
  else if c = 'f' ∨ c = 'w' ∨ c = 'F' ∨ c = 'W' then 9
  else if c = 'g' ∨ c = 'i' ∨ c = 'G' ∨ c = 'I' then 10
  else if c = 'h' ∨ c = 'u' ∨ c = 'H' ∨ c = 'U' then 11
  else if c = 'k' ∨ c = 'r' ∨ c = 'K' ∨ c = 'R' then 12
  else if c = 'l' ∨ c = 'n' ∨ c = 'L' ∨ c = 'N' then 13
  else if c = 'q' ∨ c = 'x' ∨ c = 'y' ∨ c = 'z' ∨ c = 'Q' ∨ c = 'X' ∨ c = 'Y' ∨ c = 'Z' ∨
      c = '0' ∨ c = '1' ∨ c = '2' ∨ c = '3' ∨ c = '4' ∨ c = '5' ∨ c = '6' ∨ c = '7' ∨ c = '8' ∨
      c = '9' then 14
  else 18

/-- `Partitioner.getPartitionNumber`。 -/
def getPartitionNumber : Term → Option Nat
  | [] => none
  | c :: _ => some (charPartition c)

/-! ## 辞書 -/

structure Dictionary where
  fld : IndexField
  sharedDict : List Term
  localDict : List Term
  deriving DecidableEq, Repr

/-- `Dictionary` の constructor。 -/
def Dictionary.new (fld : IndexField) : Dictionary :=
  { fld := fld, sharedDict := [], localDict := [] }

def Dictionary.exists (d : Dictionary) (value : Term) : Bool :=
  match d.fld with
  | .link => d.sharedDict.contains value
  | .term | .author | .category => d.localDict.contains value

/-- `SharedDictionary.lookup`。 -/
def Dictionary.sharedLookup (d : Dictionary) (value : Term) : Nat × Dictionary :=
  if d.exists value then (d.sharedDict.idxOf value, d)
  else
    let d := { d with sharedDict := d.sharedDict ++ [value] }
    (d.sharedDict.idxOf value, d)

/-- `LocalDictionary.lookup`。 -/
def Dictionary.localLookup (d : Dictionary) (value : Term) : Nat × Dictionary :=
  match d.fld with
  | .link => d.sharedLookup value
  | .term | .author | .category =>
    if d.exists value then (d.localDict.idxOf value, d)
    else
      let d := { d with localDict := d.localDict ++ [value] }
      (d.localDict.idxOf value, d)

/-! ## IndexWriter -/

/-- 番号から posting の列への `HashMap`。 -/
abbrev PostingMap := Nat → Option (List (Nat × Int))

structure IndexWriter where
  keyfld : IndexField
  isfwd : Bool
  partno : Nat
  index : PostingMap
  authindex : PostingMap
  termindex : PostingMap
  categoryindex : PostingMap
  linkindex : PostingMap
  localDict : Dictionary

namespace IndexWriter

/-- `IndexWriter` の constructor。 -/
def new (keyField : IndexField) (isForward : Bool) : IndexWriter where
  keyfld := keyField
  isfwd := isForward
  partno := 0
  index := fun _ => none
  authindex := fun _ => none
  termindex := fun _ => none
  categoryindex := fun _ => none
  linkindex := fun _ => none
  localDict := Dictionary.new keyField

/-- `index` に posting を一つ足す。 -/
def addPosting (index : PostingMap) (keyId : Nat) (doc : Nat × Int) : PostingMap :=
  match index keyId with
  | none => Function.update index keyId (some [doc])
  | some d => Function.update index keyId (some (d ++ [doc]))

/-- `addToIndex(int, int, int)`。 -/
def addIds (w : IndexWriter) (keyId valueId : Nat) (numOccurances : Int) : IndexWriter :=
  let w := if w.isfwd then { w with partno := 17 } else w
  let w := { w with index := addPosting w.index keyId (valueId, numOccurances) }
  if w.isfwd then { w with linkindex := w.index } else w

/-- `addToIndex(String, int, int)` の三つの枝に共通の、番号を引いて足すところ。 -/
def addKey (w : IndexWriter) (key : Term) (valueId : Nat) (numOccurances : Int) : IndexWriter :=
  let (id, dict) := w.localDict.localLookup key
  { w with localDict := dict }.addIds id valueId numOccurances

/-- `addToIndex(String, int, int)`。 -/
def addToIndex (w : IndexWriter) (key : Term) (valueId : Nat) (numOccurances : Int) :
    Option IndexWriter :=
  match w.keyfld with
  | .term => do
    let part ← getPartitionNumber key
    let w := { w with partno := part }.addKey key valueId numOccurances
    some { w with termindex := w.index }
  | .author =>
    let w := { w with partno := 15 }.addKey key valueId numOccurances
    some { w with authindex := w.index }
  | .category =>
    let w := { w with partno := 16 }.addKey key valueId numOccurances
    some { w with categoryindex := w.index }
  | .link => some w

end IndexWriter

/-- `serialized` directory。 -/
structure Disk where
  index : Nat → Option IndexWriter
  sharedDict : Option Dictionary

/-- 何も書かれていない directory。 -/
def Disk.empty : Disk := { index := fun _ => none, sharedDict := none }

def IndexWriter.writeToDisk (w : IndexWriter) (disk : Disk) : Disk :=
  if w.partno ≠ 18 then { disk with index := Function.update disk.index w.partno (some w) }
  else disk

/-! ## IndexReader -/

structure IndexReader where
  fld : IndexField
  sDict : List Term
  lDict : List Term

namespace IndexReader

/-- `IndexReader` の constructor。 -/
def new (disk : Disk) (field : IndexField) : Option IndexReader := do
  let shared ← disk.sharedDict
  let lDict ← match field with
    | .link => some shared.sharedDict
    | .term => do
      let parts ← (List.range numPartitions).mapM disk.index
      some (parts.flatMap fun w => w.localDict.localDict)
    | .author => (disk.index 15).map fun w => w.localDict.localDict
    | .category => (disk.index 16).map fun w => w.localDict.localDict
  some { fld := field, sDict := shared.sharedDict, lDict := lDict }

/-- 語を引いた結果の `Map<String, Integer>`。 -/
abbrev Postings := Term → Option Int

/-- `getPostings` の `while` loop。 -/
def putAll (sDict : List Term) : List (Nat × Int) → Postings → Option Postings
  | [], output => some output
  | val :: rest, output => do
    let docID ← sDict[val.1]?
    putAll sDict rest (Function.update output docID (some val.2))

/-- `getPostings` のうち、索引を選んだ後のところ。 -/
def lookupIn (r : IndexReader) (lDict : List Term) (index : PostingMap) (key : Term) :
    Option Postings :=
  if lDict.contains key then do
    let pList ← index (lDict.idxOf key)
    putAll r.sDict pList fun _ => none
  else some fun _ => none

def getPostings (r : IndexReader) (disk : Disk) (key : Term) : Option Postings :=
  match r.fld with
  | .term => do
    let part ← getPartitionNumber key
    let idx ← disk.index part
    r.lookupIn idx.localDict.localDict idx.termindex key
  | .author => do
    let idx ← disk.index 15
    r.lookupIn idx.localDict.localDict idx.authindex key
  | .link => do
    let idx ← disk.index 17
    r.lookupIn r.lDict idx.linkindex key
  | .category => do
    let idx ← disk.index 16
    r.lookupIn idx.localDict.localDict idx.categoryindex key

end IndexReader

end WikiIndexer
