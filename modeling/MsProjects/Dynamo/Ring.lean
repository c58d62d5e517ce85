import MsProjects.Infra.Ring
import MsProjects.Dynamo.GenHash
import Mathlib.Data.String.Basic

/-!
# node の輪

`Node` と、key の hash から担当の node を決める関数。
-/

namespace Dynamo

/-- node の輪。 -/
structure Ring (ι H : Type*) [LinearOrder H] where
  hashKey : ι → H
  predessor : ι → ι
  successor : ι → ι
  cyclic : Infra.Cyclic hashKey predessor
  successor_predessor : ∀ i, successor (predessor i) = i
  predessor_successor : ∀ i, predessor (successor i) = i

/-- 自分の hash `own` と手前の node の hash `pred` から、担当かどうかを決める三つの節。 -/
def inPartition {H : Type*} [LinearOrder H] (hashKey own pred : H) : Bool :=
  if hashKey ≤ own ∧ hashKey > pred then true
  else if hashKey > own ∧ hashKey > pred ∧ own < pred then true
  else if hashKey < own ∧ hashKey < pred ∧ own < pred then true
  else false

namespace Ring

variable {ι H : Type*} [LinearOrder H] (r : Ring ι H)

/-- `SimpleDynamoProvider.isMyPartiton`。 -/
def isMyPartiton (myNode : ι) (hashKey : H) : Bool :=
  inPartition hashKey (r.hashKey myNode) (r.hashKey (r.predessor myNode))

/-- `getNode` の loop。 -/
def getNodeLoop (hashKey : H) (last : Option ι) : List ι → Option ι
  | [] => last
  | myNode :: rest =>
    if inPartition hashKey (r.hashKey myNode) (r.hashKey (r.predessor myNode)) then some myNode
    else getNodeLoop hashKey (some myNode) rest

def getNode (nodeMap : List ι) (hashKey : H) : Option ι := r.getNodeLoop hashKey none nodeMap

end Ring

/-! ## `join` の作る輪 -/

/-- `join` の五つの node。 -/
inductive JoinNode where
  | n1 | n2 | n3 | n4 | n5
  deriving DecidableEq, Repr

namespace JoinNode

instance : Fintype JoinNode where
  elems := {n1, n2, n3, n4, n5}
  complete n := by cases n <;> decide

def name : JoinNode → String
  | n1 => "5554"
  | n2 => "5556"
  | n3 => "5558"
  | n4 => "5560"
  | n5 => "5562"

def successor : JoinNode → JoinNode
  | n1 => n3
  | n2 => n1
  | n3 => n4
  | n4 => n5
  | n5 => n2

def predessor : JoinNode → JoinNode
  | n1 => n2
  | n2 => n5
  | n3 => n1
  | n4 => n3
  | n5 => n4

/-- `genHash(name)` の値。 -/
def digest : JoinNode → String
  | n1 => "33d6357cfaaf0f72991b0ecd8c56da066613c089"
  | n2 => "208f7f72b198dadd244e61801abe1ec3a4857bc9"
  | n3 => "abf0fd8db03e5ecb199a9b82929e9db79b909643"
  | n4 => "c25ddd596aa7c81fa12378fa725f706d54325d12"
  | n5 => "177ccecaec32c54b82d5aaafc18a2dadb753e3b1"

theorem genHash_name (n : JoinNode) : genHash n.name = n.digest := by
  cases n <;> decide +kernel

theorem cyclic_digest : Infra.Cyclic digest predessor where
  injective := by unfold Function.Injective; decide +kernel
  adjacent := by unfold Infra.IsLowest; decide +kernel

end JoinNode

/-- `join` の作る輪。 -/
def join : Ring JoinNode String where
  hashKey n := genHash n.name
  predessor := JoinNode.predessor
  successor := JoinNode.successor
  cyclic := (funext JoinNode.genHash_name : (fun n => genHash n.name) = JoinNode.digest) ▸
    JoinNode.cyclic_digest
  successor_predessor := by decide
  predessor_successor := by decide

end Dynamo
