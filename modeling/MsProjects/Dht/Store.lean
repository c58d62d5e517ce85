import MsProjects.Dht.Insert
import MsProjects.Dynamo.System

/-!
# SimpleDht の query と delete

join の終わった輪での `SimpleDhtProvider` の `query` と `delete`、それらの message を扱う `MessageProcessor`。
-/

namespace Dht

open Dynamo (Row Env putAll)

namespace Store

/-- `Message.type` と、その type の運ぶもの。 -/
inductive Payload where
  /-- "query-*" -/
  | queryAll (result : List Row)
  /-- "query-k" -/
  | queryKey (key : String)
  | queryResult (result : List Row)
  /-- "del-*" -/
  | delAll (delrows : Nat)
  /-- "del-k" -/
  | delKey (key : String)
  | delResult (delrows : Nat)
  deriving DecidableEq, Repr

structure Message (ι : Type*) where
  sender : ι
  sendTo : ι
  payload : Payload

end Store

open Store Function

structure Store (ι : Type*) where
  table : ι → List Row
  lastNode : ι → Bool
  resultCursor : ι → List Row
  isresult : ι → Bool
  /-- `query` が `isresult` を待っている。 -/
  waiting : ι → Bool
  /-- `query` の返した cursor。 -/
  answers : List (ι × Option (List Row))
  delrows : ι → Nat
  senders : List (Message ι)

namespace Store

variable {ι H : Type*} [LinearOrder H]

def sendMsg (s : Store ι) (m : Message ι) : Store ι := { s with senders := s.senders ++ [m] }

def answer (s : Store ι) (n : ι) (rows : Option (List Row)) : Store ι :=
  { s with answers := s.answers ++ [(n, rows)] }

variable [DecidableEq ι]

def setTable (s : Store ι) (n : ι) (rows : List Row) : Store ι :=
  { s with table := update s.table n rows }

variable (env : Env ι H) (s : Store ι)

/-! ## `SimpleDhtProvider` -/

/-- 呼ばれるたびに作り直す `resultCursor`。 -/
def newCursor (myNode : ι) : Store ι := { s with resultCursor := update s.resultCursor myNode [] }

/-- `sortOrder` が null の `query`。 -/
def query (myNode : ι) (selection : String) : Store ι :=
  let rows := s.table myNode
  let s := newCursor s myNode
  if env.ring.successor myNode = myNode then s.answer myNode (env.selectAny selection rows)
  else if selection = "@" then s.answer myNode (some rows)
  else if selection = "*" then
    { s.sendMsg ⟨myNode, env.ring.successor myNode, .queryAll (putAll [] (rows.map Prod.swap))⟩ with
      waiting := update s.waiting myNode true }
  else
    match env.rawQuery selection rows with
    | none => s.answer myNode none
    | some (row :: rows) => s.answer myNode (some (row :: rows))
    | some [] =>
      { s with
        senders := s.senders ++ (env.nodeMap.filter (· ≠ myNode)).map fun n =>
          ⟨myNode, n, .queryKey selection⟩
        waiting := update s.waiting myNode true }

/-- 自分の行を消す。 -/
def deleteLocal (myNode : ι) (key : String) : Option (Nat × Store ι) :=
  (env.deleteWhere key (s.table myNode)).map fun rows =>
    ((s.table myNode).length - rows.length, s.setTable myNode rows)

/-- `delete` が key を自分のものとみなす節。 -/
def inRange (myNode : ι) (hashKey : H) : Bool :=
  hashKey ≤ env.ring.hashKey myNode ∧ hashKey > env.ring.hashKey (env.ring.predessor myNode)

/-- `delete` の返す行数と、後の状態。 -/
def delete (myNode : ι) (selection : String) : Nat × Store ι :=
  if selection = "@" then ((s.table myNode).length, s.setTable myNode [])
  else if selection = "*" then
    (s.delrows myNode, (s.setTable myNode []).sendMsg
      ⟨myNode, env.ring.successor myNode, .delAll (s.table myNode).length⟩)
  else if inRange env myNode (env.genHash selection) then
    (deleteLocal env s myNode selection).getD (0, s)
  else if s.lastNode myNode then
    match deleteLocal env s myNode selection with
    | none => (0, s)
    | some (n, s) => (n, { s with lastNode := update s.lastNode myNode false })
  else
    (s.delrows myNode, s.sendMsg ⟨myNode, env.ring.successor myNode, .delKey selection⟩)

/-! ## `MessageProcessor` -/

/-- 届いた表の行を `resultCursor` に足し、待っている `query` を起こす。 -/
def addResult (myNode : ι) (result : List Row) : Store ι :=
  { s with
    resultCursor := update s.resultCursor myNode
      (s.resultCursor myNode ++ (env.keySet result).map Prod.swap)
    isresult := update s.isresult myNode true }

def processQueryRequestMsg (myNode : ι) (sender : ι) : Payload → Store ι
  | .queryAll result =>
    if sender = myNode then addResult env s myNode result
    else
      (newCursor s myNode).sendMsg ⟨sender, env.ring.successor myNode,
        .queryAll (putAll result ((s.table myNode).map Prod.swap))⟩
  | .queryKey key =>
    match env.rawQuery key (s.table myNode) with
    | none | some [] => newCursor s myNode
    | some (row :: rows) =>
      (newCursor s myNode).sendMsg
        ⟨sender, sender, .queryResult (putAll [] ((row :: rows).map Prod.swap))⟩
  | .queryResult result => addResult env s myNode result
  | _ => s

def processDeleteRequestMsg (myNode : ι) (sender : ι) : Payload → Store ι
  | .delAll delrows =>
    if sender = myNode then { s with delrows := update s.delrows myNode delrows }
    else
      let r := delete env s myNode "@"
      r.2.sendMsg ⟨sender, env.ring.successor myNode, .delAll (delrows + r.1)⟩
  | .delKey key =>
    if inRange env myNode (env.genHash key) then
      let r := delete env s myNode key
      r.2.sendMsg ⟨sender, sender, .delResult r.1⟩
    else if sender = myNode then
      (delete env { s with lastNode := update s.lastNode myNode true } myNode key).2
    else s.sendMsg ⟨sender, env.ring.successor myNode, .delKey key⟩
  | .delResult delrows => { s with delrows := update s.delrows myNode delrows }
  | _ => s

def processMessage (m : Message ι) : Store ι :=
  match m.payload with
  | .queryAll _ | .queryKey _ | .queryResult _ =>
    processQueryRequestMsg env s m.sendTo m.sender m.payload
  | .delAll _ | .delKey _ | .delResult _ => processDeleteRequestMsg env s m.sendTo m.sender m.payload

/-! ## step -/

inductive Label (ι : Type*) where
  | query (o : ι) (selection : String)
  | delete (o : ι) (selection : String)
  /-- `i` 番目の `Sender` の message が処理される。 -/
  | connect (i : Nat)
  /-- `isresult` を見た `query` が返る。 -/
  | returnQuery (o : ι)

def step : Label ι → Option (Store ι)
  | .query o selection => if s.waiting o then none else some (query env s o selection)
  | .delete o selection => some (delete env s o selection).2
  | .connect i =>
    (s.senders[i]?).map fun m => processMessage env { s with senders := s.senders.eraseIdx i } m
  | .returnQuery o =>
    if s.waiting o ∧ s.isresult o then
      some { s.answer o (some (s.resultCursor o)) with
        isresult := update s.isresult o false
        waiting := update s.waiting o false }
    else none

end Store

end Dht
