import MsProjects.WikiIndexer.Index

/-!
# 索引を作る thread

`SingleIndexerRunner` と `ThreadedIndexerRunner`。
-/

namespace WikiIndexer

/-! ## consumer -/

/-- `RunnerThread.run` の中の位置。 -/
inductive RunPc (ε : Type*) where
  /-- thread がまだ start されていない。 -/
  | idle
  /-- `pvtQueue.poll()` の前。 -/
  | poll
  /-- `poll` が `null` を返した。 -/
  | check
  /-- 取り出した entry を索引に足す前。 -/
  | add (etr : ε)
  /-- `isComplete` が真だった。 -/
  | write
  /-- `writeToDisk` と `cleanUp` を終えた。 -/
  | stopped
  deriving DecidableEq, Repr

structure RunnerThread (ε : Type*) where
  pvtQueue : List ε
  isComplete : Bool
  isRunning : Bool
  pc : RunPc ε
  added : List ε
  deriving DecidableEq, Repr

namespace RunnerThread

variable {ε : Type*}

/-- constructor の直後。 -/
def new : RunnerThread ε :=
  { pvtQueue := [], isComplete := false, isRunning := false, pc := .idle, added := [] }

/-- `pvtQueue.add`。 -/
def enqueue (t : RunnerThread ε) (etr : ε) : RunnerThread ε :=
  { t with pvtQueue := t.pvtQueue ++ [etr] }

/-- `if (!isRunning) { isRunning = true; new Thread(..).start(); }` -/
def start (t : RunnerThread ε) : RunnerThread ε :=
  if t.isRunning then t else { t with isRunning := true, pc := .poll }

def setComplete (t : RunnerThread ε) : RunnerThread ε := { t with isComplete := true }

/-- `run` の一歩。 -/
def run (t : RunnerThread ε) : Option (RunnerThread ε) :=
  match t.pc with
  | .idle => none
  | .poll =>
    match t.pvtQueue with
    | [] => some { t with pc := .check }
    | etr :: rest => some { t with pvtQueue := rest, pc := .add etr }
  | .check => some { t with pc := if t.isComplete then .write else .poll }
  | .add etr => some { t with added := t.added ++ [etr], pc := .poll }
  | .write => some { t with pc := .stopped }
  | .stopped => none

end RunnerThread

/-! ## producer -/

/-- producer の一歩。 -/
inductive Action (ι ε : Type*) where
  | add (i : ι) (etr : ε)
  | start (i : ι)
  | setComplete (i : ι)
  deriving DecidableEq, Repr

/-- 語の索引の entry。 -/
structure TermIndexEntry where
  term : Term
  docId : Nat
  numOccurances : Int
  deriving DecidableEq, Repr

/-- `ThreadedIndexerRunner.addToIndex` が queue に入れる entry と、その queue の番号。 -/
def addToIndexEntries (docid : Nat) : List (Option Term × Int) → Option (List (Nat × TermIndexEntry))
  | [] => some []
  | (none, _) :: rest => addToIndexEntries docid rest
  | (some term, numOccur) :: rest =>
    if 0 < numOccur then do
      let numPart ← getPartitionNumber term
      let tail ← addToIndexEntries docid rest
      some (if numPart < numPartitions then (numPart, ⟨term, docid, numOccur⟩) :: tail else tail)
    else addToIndexEntries docid rest

/-- `SingleIndexerRunner` の queue に入る `Object[3]`。 -/
inductive SingleEntry where
  | ids (key value : Nat) (numOccurances : Int)
  | named (key : Term) (value : Nat) (numOccurances : Int)
  deriving DecidableEq, Repr

/-- `SingleIndexerRunner.processTokenMap`。 -/
def processTokenMap (lookupBoth : Bool) (docid : Nat) :
    List (Option Term × Int) → Dictionary → List SingleEntry × Dictionary
  | [], docDict => ([], docDict)
  | (none, _) :: rest, docDict => processTokenMap lookupBoth docid rest docDict
  | (some key, value) :: rest, docDict =>
    if lookupBoth then
      let (id, docDict) := docDict.sharedLookup key
      let (tail, docDict) := processTokenMap lookupBoth docid rest docDict
      (.ids docid id value :: tail, docDict)
    else
      let (tail, docDict) := processTokenMap lookupBoth docid rest docDict
      (.named key docid value :: tail, docDict)

section

variable {ι ε : Type*}

/-- entry を一つずつ queue に入れ、その度に thread を確かめ、最後に `cleanup` を呼ぶ。 -/
def producer (threads : List ι) (entries : List (ι × ε)) : List (Action ι ε) :=
  (entries.flatMap fun p => [.add p.1 p.2, .start p.1]) ++ threads.map .setComplete

/-- 全体の状態。 -/
structure IndexerRunner (ι ε : Type*) where
  rthreads : ι → RunnerThread ε
  todo : List (Action ι ε)

namespace IndexerRunner

/-- 始まり。 -/
def initial (todo : List (Action ι ε)) : IndexerRunner ι ε :=
  { rthreads := fun _ => RunnerThread.new, todo := todo }

/-- 次に動くもの。 -/
inductive Actor (ι : Type*) where
  | producer
  | consumer (i : ι)
  deriving DecidableEq, Repr

variable [DecidableEq ι]

/-- `i` 番の thread を書き換える。 -/
def update (s : IndexerRunner ι ε) (i : ι) (t : RunnerThread ε) : IndexerRunner ι ε :=
  { s with rthreads := Function.update s.rthreads i t }

/-- producer の一歩を行う。 -/
def act (s : IndexerRunner ι ε) : Action ι ε → IndexerRunner ι ε
  | .add i etr => s.update i ((s.rthreads i).enqueue etr)
  | .start i => s.update i (s.rthreads i).start
  | .setComplete i => s.update i (s.rthreads i).setComplete

/-- 全体の一歩。 -/
def step (s : IndexerRunner ι ε) : Actor ι → Option (IndexerRunner ι ε)
  | .producer =>
    match s.todo with
    | [] => none
    | a :: todo => some ({ s with todo := todo }.act a)
  | .consumer i => (s.rthreads i).run.map (s.update i)

end IndexerRunner

end

/-! ## 文書の列から索引の file まで -/

/-- 一つの文書。 -/
structure Doc where
  identifier : Term
  terms : List (Term × Int)
  links : List (Option Term × Int)
  deriving DecidableEq, Repr

/-- `Runner.tokenizeAndIndex` の loop のうち、文書の辞書と語の索引に関わるところ。 -/
def tokenizeAndIndex (docDict : Dictionary) :
    List Doc → Option (Dictionary × List (Nat × TermIndexEntry))
  | [] => some (docDict, [])
  | doc :: docs => do
    let (currDocId, docDict) := docDict.sharedLookup doc.identifier
    let entries ← addToIndexEntries currDocId (doc.terms.map fun p => (some p.1, p.2))
    let (_, docDict) := processTokenMap true currDocId doc.links docDict
    let (docDict, rest) ← tokenizeAndIndex docDict docs
    some (docDict, entries ++ rest)

/-- 一つの thread が entry を順に足し終えたときの `IndexWriter`。 -/
def buildWriter (entries : List TermIndexEntry) : Option IndexWriter :=
  entries.foldlM (fun w etr => w.addToIndex etr.term etr.docId etr.numOccurances)
    (IndexWriter.new .term false)

/-- `part` 番の queue に入った entry。 -/
def received (entries : List (Nat × TermIndexEntry)) (part : Nat) : List TermIndexEntry :=
  (entries.filter fun p => p.1 = part).map fun p => p.2

/-- 各 thread が書き終えた後の directory。 -/
def writePartitions (entries : List (Nat × TermIndexEntry)) (disk : Disk) : Option Disk :=
  (List.range numPartitions).foldlM (fun disk part =>
    if received entries part = [] then some disk
    else (buildWriter (received entries part)).map fun w => w.writeToDisk disk) disk

/-- 索引を書き、語の索引の `IndexReader` を作って語を引く。 -/
def indexAndRead (docDict : Dictionary) (entries : List (Nat × TermIndexEntry)) (key : Term) :
    Option IndexReader.Postings := do
  let disk ← writePartitions entries { Disk.empty with sharedDict := some docDict }
  let reader ← IndexReader.new disk .term
  reader.getPostings disk key

end WikiIndexer
