import MsProjects.Dynamo.Ring

/-!
# SimpleDynamo の系

`SimpleDynamoProvider`、`MessageProcessor`、`Sender`、`Receiver` を、node 全体の状態の step として書く。
-/

namespace Dynamo

open Function

/-- 行は key と value の組である。 -/
abbrev Row := String × String

/-- `Message.type`。 -/
inductive MsgType where
  | insert
  /-- "query-*" -/
  | queryAll
  /-- "query-k" -/
  | queryKey
  /-- "query-result" -/
  | queryResult
  /-- "del-*" -/
  | delAll
  /-- "del-k" -/
  | delKey
  | recovery
  /-- "@-recovery" -/
  | atRecovery
  /-- "recovery-result" -/
  | recoveryResult
  deriving DecidableEq, Repr

structure Message (ι : Type*) where
  type : MsgType
  key : String := ""
  value : String := ""
  sender : ι
  sendto : ι
  replica : Nat := 0
  delrows : Nat := 0
  result : List Row := []

namespace Message

variable {ι : Type*}

/-- insert の message の運ぶ行。 -/
def row (m : Message ι) : Row := (m.key, m.value)

end Message

def put (key value : String) : List Row → List Row
  | [] => [(key, value)]
  | (k, v) :: rest => if k = key then (k, value) :: rest else (k, v) :: put key value rest

/-- cursor の行を順に `put` する。 -/
def putAll (result rows : List Row) : List Row := rows.foldl (fun m row => put row.1 row.2 m) result

/-- 動かす環境。 -/
structure Env (ι H : Type*) [LinearOrder H] where
  ring : Ring ι H
  genHash : String → H
  /-- `nodeMap.keySet` の巡回の順。 -/
  nodeMap : List ι
  mem_nodeMap : ∀ i, i ∈ nodeMap
  /-- `result.keySet` の巡回の順に並べた中身。 -/
  keySet : List Row → List Row
  keySet_perm : ∀ m, (keySet m).Perm m
  /-- apostrophe を含む文字列での SELECT。 -/
  quotedSelect : String → List Row → Option (List Row)
  /-- apostrophe を含む文字列での DELETE の残す行。 -/
  quotedDelete : String → List Row → Option (List Row)

/-- database にまだ書いていない thread。 -/
structure Task (ι : Type*) where
  node : ι
  row : Row
  /-- `Receiver` の thread である。 -/
  receiver : Bool

/-- `recover` の待っているもの。 -/
inductive Recovering where
  | idle
  | predessor
  | predessorPredessor
  | successor
  deriving DecidableEq, Repr

structure System (ι : Type*) where
  up : ι → Bool
  table : ι → List Row
  /-- 走っている `Sender` と、それが動いている node。 -/
  senders : List (ι × Message ι)
  tasks : List (Task ι)
  resultCursor : ι → List Row
  isQueried : ι → Bool
  /-- `query` が `isQueried` を待っている。 -/
  querying : ι → Bool
  /-- `query` の返した cursor。 -/
  answers : List (ι × Option (List Row))
  recoveryCursor : ι → List Row
  recovery : ι → Bool
  recovering : ι → Recovering
  delrows : ι → Nat

namespace System

variable {ι : Type*}

/-- `up` の node が動いていて、何も入っていない系。 -/
def boot (up : ι → Bool) : System ι where
  up := up
  table _ := []
  senders := []
  tasks := []
  resultCursor _ := []
  isQueried _ := false
  querying _ := false
  answers := []
  recoveryCursor _ := []
  recovery _ := false
  recovering _ := .idle
  delrows _ := 0

/-- `Sender` を起動する。 -/
def sendMsg (s : System ι) (host : ι) (m : Message ι) : System ι :=
  { s with senders := s.senders ++ [(host, m)] }

def addTask (s : System ι) (t : Task ι) : System ι := { s with tasks := s.tasks ++ [t] }

def answer (s : System ι) (n : ι) (rows : Option (List Row)) : System ι :=
  { s with answers := s.answers ++ [(n, rows)] }

/-- 送りかけの message も書きかけの行も無い。 -/
def Quiet (s : System ι) : Prop := s.senders = [] ∧ s.tasks = []

variable [DecidableEq ι]

def setTable (s : System ι) (n : ι) (rows : List Row) : System ι :=
  { s with table := update s.table n rows }

/-- `n` の `Receiver` が前の message を処理している。 -/
def busy (s : System ι) (n : ι) : Bool := s.tasks.any fun t => t.receiver && t.node = n

end System

/-- 系の step の名前。 -/
inductive Label (ι : Type*) where
  | insert (o : ι) (key value : String)
  | query (o : ι) (selection : String)
  | delete (o : ι) (selection : String)
  /-- `i` 番目の `Sender` が接続する。 -/
  | connect (i : Nat)
  /-- `i` 番目の `Task` が database に書く。 -/
  | store (i : Nat)
  /-- `isQueried` を見た `query` が返る。 -/
  | returnQuery (o : ι)
  /-- `recovery` を見た `recover` が先に進む。 -/
  | recoverNext (x : ι)
  | crash (x : ι)
  /-- 落ちていた node の `onCreate`。 -/
  | restart (x : ι)

namespace Env

variable {ι H : Type*} [LinearOrder H] [DecidableEq ι] (env : Env ι H) (s : System ι)

/-- key の担当の node。 -/
def getNode (key : String) : Option ι := env.ring.getNode env.nodeMap (env.genHash key)

/-- `SELECT * FROM Dynamo WHERE key = '…'`。 -/
def rawQuery (selection : String) (rows : List Row) : Option (List Row) :=
  if '\'' ∈ selection.toList then env.quotedSelect selection rows
  else some (rows.filter fun row => row.1 = selection)

/-- `DELETE FROM Dynamo WHERE key='…'` の残す行。 -/
def deleteWhere (key : String) (rows : List Row) : Option (List Row) :=
  if '\'' ∈ key.toList then env.quotedDelete key rows
  else some (rows.filter fun row => row.1 ≠ key)

/-! ## `SimpleDynamoProvider` -/

def insert (myNode : ι) (key value : String) : System ι :=
  if env.ring.successor myNode = myNode then s.addTask ⟨myNode, (key, value), false⟩
  else
    match env.getNode key with
    -- null の `sendNode` は例外になり、catch 節が書く
    | none => s.addTask ⟨myNode, (key, value), false⟩
    | some sendNode =>
      if sendNode = myNode then
        (s.sendMsg myNode
          { type := .insert, key := key, value := value, sender := myNode,
            sendto := env.ring.successor sendNode, replica := 1 }).addTask
          ⟨myNode, (key, value), false⟩
      else
        s.sendMsg myNode
          { type := .insert, key := key, value := value, sender := myNode, sendto := sendNode }

/-- catch 節の select。 -/
def selectAny (selection : String) (rows : List Row) : Option (List Row) :=
  if selection = "*" ∨ selection = "@" then some rows else env.rawQuery selection rows

def query (myNode : ι) (selection : String) : System ι :=
  let rows := s.table myNode
  let s := { s with resultCursor := update s.resultCursor myNode [] }
  if env.ring.successor myNode = myNode then s.answer myNode (env.selectAny selection rows)
  else if selection = "@" then s.answer myNode (some rows)
  else if selection = "*" then
    { s.sendMsg myNode
        { type := .queryAll, sender := myNode, sendto := env.ring.successor myNode,
          -- value と key が入れ替わっている
          result := putAll [] (rows.map Prod.swap) } with
      querying := update s.querying myNode true }
  else
    match env.getNode selection with
    | none => s.answer myNode (env.selectAny selection rows)
    | some n =>
      if n = myNode then s.answer myNode (env.rawQuery selection rows)
      else
        { s.sendMsg myNode { type := .queryKey, key := selection, sender := myNode, sendto := n } with
          querying := update s.querying myNode true }

def delete (myNode : ι) (selection : String) : System ι :=
  if selection = "@" then s.setTable myNode []
  else if selection = "*" then
    (s.setTable myNode []).sendMsg myNode
      { type := .delAll, sender := myNode, sendto := env.ring.successor myNode,
        delrows := (s.table myNode).length }
  else
    match env.getNode selection with
    | none => s
    | some sendNode =>
      s.sendMsg myNode
        { type := .delKey, key := selection, sender := myNode, sendto := sendNode, replica := 3 }

/-- `recover` の始め。 -/
def recover (myNode : ι) : System ι :=
  { (s.setTable myNode []).sendMsg myNode
      { type := .recovery, sender := myNode, sendto := env.ring.predessor myNode } with
    recoveryCursor := update s.recoveryCursor myNode []
    recovering := update s.recovering myNode .predessor }

def insertReplications (myNode : ι) : System ι :=
  s.setTable myNode (s.table myNode ++ s.recoveryCursor myNode)

def insertMissedKeys (myNode : ι) : System ι :=
  s.setTable myNode (s.table myNode ++
    (s.recoveryCursor myNode).filter fun row => env.ring.isMyPartiton myNode (env.genHash row.1))

/-- 届いた行を入れて cursor を空にし、次に待つものへ移る。 -/
def recoverTo (myNode : ι) (next : Recovering) : System ι :=
  { s with
    recovery := update s.recovery myNode false
    recoveryCursor := update s.recoveryCursor myNode []
    recovering := update s.recovering myNode next }

/-- `recovery` が立った後の `recover`。 -/
def recoverNext (myNode : ι) : Option (System ι) :=
  if s.recovery myNode then
    match s.recovering myNode with
    | .idle => none
    | .predessor =>
      some ((recoverTo (insertReplications s myNode) myNode .predessorPredessor).sendMsg myNode
        { type := .recovery, sender := myNode,
          sendto := env.ring.predessor (env.ring.predessor myNode) })
    | .predessorPredessor =>
      some ((recoverTo (insertReplications s myNode) myNode .successor).sendMsg myNode
        { type := .atRecovery, sender := myNode, sendto := env.ring.successor myNode })
    | .successor => some (recoverTo (env.insertMissedKeys s myNode) myNode .idle)
  else none

/-! ## `MessageProcessor` -/

def processInsertRequestMsg (myNode : ι) (m : Message ι) : System ι :=
  if m.replica < 3 then
    (s.sendMsg myNode { m with replica := m.replica + 1, sendto := env.ring.successor myNode }).addTask
      ⟨myNode, m.row, true⟩
  else s

/-- 届いた行を `resultCursor` に足し、待っている `query` を起こす。 -/
def addResult (myNode : ι) (m : Message ι) : System ι :=
  { s with
    resultCursor := update s.resultCursor myNode (s.resultCursor myNode ++ env.keySet m.result)
    isQueried := update s.isQueried myNode true }

/-- "query-k" の処理。 -/
def processQueryKey (myNode : ι) (m : Message ι) : System ι :=
  match env.rawQuery m.key (s.table myNode) with
  | none | some [] => s
  | some (row :: rows) =>
    s.sendMsg myNode
      { m with type := .queryResult, sendto := m.sender, result := putAll m.result (row :: rows) }

/-- "query-*" の処理。 -/
def processQueryAll (myNode : ι) (m : Message ι) : System ι :=
  if m.sender = myNode then env.addResult s myNode m
  else
    s.sendMsg myNode
      { m with result := putAll m.result (s.table myNode), sendto := env.ring.successor myNode }

/-- "del-*" の処理。 -/
def processDeleteAll (myNode : ι) (m : Message ι) : System ι :=
  if m.sender = myNode then { s with delrows := update s.delrows myNode m.delrows }
  else
    (s.setTable myNode []).sendMsg myNode
      { m with sendto := env.ring.successor myNode,
               delrows := m.delrows + (s.table myNode).length }

/-- "del-k" の処理。 -/
def processDeleteKey (myNode : ι) (m : Message ι) : System ι :=
  if m.replica > 0 then
    match env.deleteWhere m.key (s.table myNode) with
    | none => s
    | some rows =>
      (s.setTable myNode rows).sendMsg myNode
        { m with replica := m.replica - 1, sendto := env.ring.successor myNode }
  else s

/-- "recovery" と "@-recovery" の返事。 -/
def replyRecovery (myNode : ι) (m : Message ι) (rows : List Row) : System ι :=
  s.sendMsg myNode
    { m with type := .recoveryResult, sendto := m.sender, result := putAll m.result rows }

/-- "recovery-result" の処理。 -/
def addRecovery (myNode : ι) (m : Message ι) : System ι :=
  { s with
    recoveryCursor := update s.recoveryCursor myNode
      (s.recoveryCursor myNode ++ env.keySet m.result)
    recovery := update s.recovery myNode true }

def processMessage (myNode : ι) (m : Message ι) : System ι :=
  match m.type with
  | .insert => env.processInsertRequestMsg s myNode m
  | .queryAll => env.processQueryAll s myNode m
  | .queryKey => env.processQueryKey s myNode m
  | .queryResult => env.addResult s myNode m
  | .delAll => env.processDeleteAll s myNode m
  | .delKey => env.processDeleteKey s myNode m
  | .recovery =>
    replyRecovery s myNode m
      ((s.table myNode).filter fun row => env.ring.isMyPartiton myNode (env.genHash row.1))
  | .atRecovery => replyRecovery s myNode m (s.table myNode)
  | .recoveryResult => env.addRecovery s myNode m

/-! ## `Sender` -/

/-- 接続に失敗した `Sender.run` の catch 節。 -/
def connectFailed (host : ι) (m : Message ι) : System ι :=
  match m.type with
  | .insert =>
    if m.replica < 3 then
      s.sendMsg host { m with replica := m.replica + 1, sendto := env.ring.successor m.sendto }
    else s
  | .queryKey | .queryAll =>
    if m.replica < 2 then s.sendMsg host { m with sendto := env.ring.successor m.sendto }
    else s.sendMsg host { m with type := .queryResult, sendto := m.sender }
  | _ => s

/-- `Sender.run`。 -/
def connect (i : Nat) : Option (System ι) :=
  match s.senders[i]? with
  | none => none
  | some (host, m) =>
    let rest := { s with senders := s.senders.eraseIdx i }
    if s.up m.sendto then
      if s.busy m.sendto then none else some (env.processMessage rest m.sendto m)
    else some (env.connectFailed rest host m)

/-! ## step -/

/-- `i` 番目の `Task` が行を書く。 -/
def store (i : Nat) : Option (System ι) :=
  match s.tasks[i]? with
  | none => none
  | some t => some { s.setTable t.node (s.table t.node ++ [t.row]) with tasks := s.tasks.eraseIdx i }

/-- `query` が返る。 -/
def returnQuery (myNode : ι) : Option (System ι) :=
  if s.querying myNode ∧ s.isQueried myNode then
    some { s.answer myNode (some (s.resultCursor myNode)) with
      isQueried := update s.isQueried myNode false
      querying := update s.querying myNode false }
  else none

/-- node が落ちる。 -/
def crash (x : ι) : System ι :=
  { s with
    up := update s.up x false
    senders := s.senders.filter fun m => m.1 ≠ x
    tasks := s.tasks.filter fun t => t.node ≠ x
    querying := update s.querying x false
    recovering := update s.recovering x .idle }

/-- 落ちていた node の `onCreate`。 -/
def restart (x : ι) : System ι :=
  env.recover
    { s with
      up := update s.up x true
      resultCursor := update s.resultCursor x []
      isQueried := update s.isQueried x false
      recovery := update s.recovery x false
      delrows := update s.delrows x 0 }
    x

/-- 系の step。 -/
def step (s : System ι) : Label ι → Option (System ι)
  | .insert o key value => if s.up o then some (env.insert s o key value) else none
  | .query o selection =>
    if s.up o ∧ s.querying o = false then some (env.query s o selection) else none
  | .delete o selection => if s.up o then some (env.delete s o selection) else none
  | .connect i => env.connect s i
  | .store i => store s i
  | .returnQuery o => returnQuery s o
  | .recoverNext x => env.recoverNext s x
  | .crash x => if s.up x then some (crash s x) else none
  | .restart x => if s.up x then none else some (env.restart s x)

end Env

end Dynamo
