import Mathlib.Data.Set.Insert
import MsProjects.Infra.Run

/-!
# SimpleDht の join

`SimpleDhtProvider.onCreate` が送る join と、それを受け取る `MessageProcessor`。
-/

namespace Dht

structure Node (ι : Type) where
  name : ι
  predessor : Option Nat
  successor : Option Nat
  deriving DecidableEq, Repr

/-- object の表と、その中の一つを指す根。 -/
structure Graph (ι : Type) where
  nodes : List (Node ι)
  root : Nat
  deriving DecidableEq, Repr

namespace Graph

variable {ι : Type} (g : Graph ι)

/-- 参照の先。 -/
def deref (r : Option Nat) : Option (Node ι) := r.bind fun i => g.nodes[i]?

def setSuccessor (r : Nat) (x : Option Nat) : Graph ι :=
  { g with nodes := g.nodes.modify r fun n => { n with successor := x } }

def setPredessor (r : Nat) (x : Option Nat) : Graph ι :=
  { g with nodes := g.nodes.modify r fun n => { n with predessor := x } }

/-- 届いた join の `sender` を、両隣が null の新しい object として持つ。 -/
def receive (sender : ι) : Graph ι := { g with nodes := g.nodes ++ [⟨sender, none, none⟩] }

/-- 根を取り替える。 -/
def rootedAt (r : Nat) : Graph ι := { g with root := r }

/-- 根の object。 -/
def myNode : Option (Node ι) := g.nodes[g.root]?

def successor : Option (Node ι) := g.myNode.bind fun n => g.deref n.successor

def predessor : Option (Node ι) := g.myNode.bind fun n => g.deref n.predessor

def successorSuccessor : Option (Node ι) := g.successor.bind fun n => g.deref n.successor

end Graph

/-- message。 -/
inductive Message (ι : Type) where
  /-- 両隣が null の `sender` からの join。 -/
  | join (sendTo sender : ι)
  /-- `modified-node`。 -/
  | modifiedNode (sendTo : ι) (modified : Graph ι)
  deriving DecidableEq, Repr

section

variable {ι : Type} {H : Type*} [DecidableEq ι] [LinearOrder H] (hashKey : ι → H)

/-- `joiner` を自分と `suc` の間に入れる。 -/
def insertAfterMe (g : Graph ι) (joiner suc : Nat) (joinerName sucName : ι) :
    Graph ι × List (Message ι) :=
  let linked := (g.setSuccessor joiner (some suc)).setPredessor joiner (some g.root)
  let modified := (linked.setSuccessor g.root (some joiner)).setPredessor suc (some joiner)
  (modified, [.modifiedNode joinerName (linked.rootedAt joiner),
    .modifiedNode sucName (modified.rootedAt suc)])

/-- 自分しかいない輪に `joiner` を入れる。 -/
def firstJoin (g : Graph ι) (joiner : Nat) (joinerName : ι) : Graph ι × List (Message ι) :=
  let linked := (g.setPredessor joiner (some g.root)).setSuccessor joiner (some g.root)
  let modified := (linked.setSuccessor g.root (some joiner)).setPredessor g.root (some joiner)
  (modified, [.modifiedNode joinerName (modified.rootedAt joiner)])

/-- `joiner` を `suc` の後ろに入れるつもりの枝。 -/
def insertAfterSuccessor (g : Graph ι) (joiner suc : Nat) (joinerName : ι) (sucNode : Node ι)
    (myName : ι) : Graph ι × List (Message ι) :=
  let linked := (g.setPredessor joiner (some suc)).setSuccessor joiner sucNode.successor
  let modified := linked.setSuccessor suc (some joiner)
  let final := modified.setPredessor joiner (some joiner)
  (final, [.modifiedNode joinerName (linked.rootedAt joiner),
    .modifiedNode sucNode.name (modified.rootedAt suc)] ++
    if myName ≠ joinerName then [.modifiedNode joinerName (final.rootedAt joiner)] else [])

def processJoinRequestMsg (g : Graph ι) (joinerName : ι) :
    Option (Graph ι × List (Message ι)) := do
  let me ← g.myNode
  let suc ← me.successor
  let sucNode ← g.nodes[suc]?
  -- 届いた複製は新しい object になる。転送するだけのときは、どこからも指されない
  let joiner := g.nodes.length
  let received := g.receive joinerName
  let own := hashKey me.name
  let next := hashKey sucNode.name
  let new := hashKey joinerName
  if new > own ∧ new < next then
    return insertAfterMe received joiner suc joinerName sucNode.name
  else if sucNode.name = me.name then
    return firstJoin received joiner joinerName
  else if next < own then
    if new > next ∧ new > own then
      return insertAfterMe received joiner suc joinerName sucNode.name
    else if new < own then
      if new < next then
        return insertAfterMe received joiner suc joinerName sucNode.name
      else if new > next then
        return insertAfterSuccessor received joiner suc joinerName sucNode me.name
      else return (g, [])
    else return (g, [])
  else
    return (g, [.join sucNode.name joinerName])

end

/-! ## 全体の状態 -/

/-- 各 process の `myNode` の graph と、届いていない message。 -/
structure System (ι : Type) where
  process : ι → Option (Graph ι)
  network : List (Message ι)

namespace System

variable {ι : Type} {H : Type*} [DecidableEq ι] [LinearOrder H] (hashKey : ι → H)

/-- 起動した node。 -/
def joined (s : System ι) : Set ι := {x | (s.process x).isSome = true}

/-- `5554` だけが起動した状態。 -/
def initial (first : ι) : System ι where
  process := fun x => if x = first then some ⟨[⟨first, some 0, some 0⟩], 0⟩ else none
  network := []

def processMessage (s : System ι) : Message ι → Option (System ι)
  | .join sendTo sender => do
    let g ← s.process sendTo
    let (g, sent) ← processJoinRequestMsg hashKey g sender
    return { process := Function.update s.process sendTo (some g), network := s.network ++ sent }
  | .modifiedNode sendTo modified =>
    some { s with process := Function.update s.process sendTo (some modified) }

/-- 届いていない message の `i` 番目が届く。 -/
def deliver (s : System ι) (i : Nat) : Option (System ι) := do
  let m ← s.network[i]?
  processMessage hashKey { s with network := s.network.eraseIdx i } m

/-- 新しい node の `onCreate`。 -/
def onCreate (first : ι) (s : System ι) (joiner : ι) : System ι where
  process := Function.update s.process joiner (some ⟨[⟨joiner, none, none⟩], 0⟩)
  network := s.network ++ [.join first joiner]

/-- 一つの join。 -/
def Join (first : ι) (s : System ι) (joiner : ι) (t : System ι) : Prop :=
  s.network = [] ∧ s.process joiner = none ∧ t.network = [] ∧
    ∃ tr, Infra.Run (fun p i q => deliver hashKey p i = some q) (onCreate first s joiner) tr t

end System

end Dht
