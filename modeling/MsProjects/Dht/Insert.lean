import MsProjects.Dynamo.Ring

/-!
# SimpleDht の insert

`SimpleDhtProvider.insert` と、ほかの node から届いた insert を扱う `MessageProcessor.processInsertRequestMsg`。
-/

namespace Dht

open Dynamo

/-- `insert` の行うこと。 -/
inductive Action where
  /-- 自分の database に入れる。 -/
  | store
  /-- 自分以外のすべての port に送る。 -/
  | forward
  deriving DecidableEq, Repr

variable {ι H : Type*} [LinearOrder H] (r : Ring ι H)

def insert [DecidableEq ι] (myNode : ι) (hashKey : H) : Action :=
  if r.successor myNode = myNode then .store
  else if inPartition hashKey (r.hashKey myNode) (r.hashKey (r.predessor myNode)) then .store
  else .forward

/-- `MessageProcessor.processInsertRequestMsg`。 -/
def processInsertRequestMsg [DecidableEq ι] (myNode : ι) (hashKey : H) : Option Action :=
  if inPartition hashKey (r.hashKey myNode) (r.hashKey (r.predessor myNode)) then
    some (insert r myNode hashKey)
  else none

end Dht
