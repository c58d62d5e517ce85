import MsProjects.Infra.Program

/-!
# reader-writer lock

`kern/thread/synch.c` の `rwlock_*`。
-/

namespace Os161

open Infra

/-- `struct rwlock` の二つの lock。 -/
inductive RwLk where
  | lkRead | lkWrite
  deriving DecidableEq, Repr

/-- rwlock の持ち方。 -/
inductive RwMode where
  | read | write
  deriving DecidableEq, Repr

abbrev maxReaders : Nat := 30

abbrev RwInstr := Instr RwLk Unit RwMode

def rwlockAcquireRead : List RwInstr := [.acquire .lkRead, .p (), .release .lkRead]

def rwlockReleaseRead : List RwInstr := [.v ()]

def rwlockAcquireWrite : List RwInstr :=
  .acquire .lkWrite :: List.replicate maxReaders (.p ()) ++ [.release .lkWrite]

def rwlockReleaseWrite : List RwInstr := List.replicate maxReaders (.v ())

/-- 取得から解放まで。 -/
def rwSession : RwMode → List RwInstr
  | .read => rwlockAcquireRead ++ .event .read :: rwlockReleaseRead
  | .write => rwlockAcquireWrite ++ .event .write :: rwlockReleaseWrite

/-- 残りの列の先頭が印なら、その持ち方。 -/
def modeOf : List RwInstr → Option RwMode
  | .event mode :: _ => some mode
  | _ => none

/-- rwlock と、それを使う thread。 -/
abbrev RwLock (T : Type*) := Machine T RwLk Unit RwMode

namespace RwLock

variable {T : Type*} [DecidableEq T]

def create : RwLock T := ⟨fun _ => none, fun _ => maxReaders, fun _ => []⟩

inductive Op (T : Type*) where
  | start (t : T) (mode : RwMode)
  | advance (t : T)

def step (m : RwLock T) : Op T → Option (RwLock T)
  | .start t mode => if m.rest t = [] then some (m.setRest t (rwSession mode)) else none
  | .advance t => m.advance t

/-- rwlock を持っていれば、その持ち方。 -/
def inside (m : RwLock T) (t : T) : Option RwMode := modeOf (m.rest t)

end RwLock

end Os161
