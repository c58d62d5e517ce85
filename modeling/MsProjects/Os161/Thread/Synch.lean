import MsProjects.Os161.Arch

/-!
# wait channel、semaphore、lock

`kern/thread/synch.c` の `P`、`V`、`lock_acquire`、`lock_release` と、その下の
`kern/thread/thread.c` の `wchan_*`。
-/

namespace Os161

open Function

variable {T : Type*} [DecidableEq T]

/-! ## wait channel -/

/-- `struct wchan`。 -/
structure Wchan (T : Type*) where
  wcLock : Option T
  wcThreads : List T

namespace Wchan

def create : Wchan T := ⟨none, []⟩

def lock (wc : Wchan T) (t : T) : Option (Wchan T) :=
  if wc.wcLock.isSome then none else some { wc with wcLock := some t }

/-- `wchan_sleep`。 -/
def sleep (wc : Wchan T) (t : T) : Wchan T := ⟨none, wc.wcThreads ++ [t]⟩

/-- `wchan_wakeone`。 -/
def wakeone (wc : Wchan T) : Option (Option T × Wchan T) :=
  if wc.wcLock.isSome then none
  else some (wc.wcThreads.head?, { wc with wcThreads := wc.wcThreads.tail })

/-- `wchan_wakeall`。 -/
def wakeall (wc : Wchan T) : Option (List T × Wchan T) :=
  if wc.wcLock.isSome then none else some (wc.wcThreads, { wc with wcThreads := [] })

end Wchan

/-- 起こした thread を `x` に移す。 -/
def wake {π : Type*} (pc : T → π) (target : Option T) (x : π) : T → π :=
  match target with
  | none => pc
  | some u => update pc u x

/-! ## semaphore -/

/-- `P` と `V` の中の位置。 -/
inductive SemPc where
  | out | p | pSleep | asleep | v | vWake
  deriving DecidableEq, Repr

/-- `struct semaphore` と、それを使う thread の位置。 -/
structure Semaphore (T : Type*) where
  semCount : Int
  semLock : Option T
  semWchan : Wchan T
  pc : T → SemPc

namespace Semaphore

def create (initialCount : Int) : Semaphore T := ⟨initialCount, none, .create, fun _ => .out⟩

def setPc (s : Semaphore T) (t : T) (x : SemPc) : Semaphore T := { s with pc := update s.pc t x }

/-- `P` の `while` の条件と、0 でなければ続く減算。 -/
def pTest (s : Semaphore T) (t : T) : Option (Semaphore T) :=
  if s.semLock.isSome then none
  else if s.semCount = 0 then
    (s.semWchan.lock t).map fun wc => { s.setPc t .pSleep with semWchan := wc }
  else if 0 < s.semCount then some { s.setPc t .out with semCount := s.semCount - 1 }
  else none

/-- `V` の加算。 -/
def vInc (s : Semaphore T) (t : T) : Option (Semaphore T) :=
  if s.semLock.isSome then none
  else if s.semCount = intMax then none
  else if 0 < s.semCount + 1 then
    some { s.setPc t .vWake with semCount := s.semCount + 1, semLock := some t }
  else none

/-- `V` の `wchan_wakeone` と、続く `sem_lock` の解放。 -/
def vWakeone (s : Semaphore T) (t : T) : Option (Semaphore T) :=
  s.semWchan.wakeone.map fun r =>
    { s with semLock := none, semWchan := r.2, pc := update (wake s.pc r.1 .p) t .out }

/-- `P` か `V` の中の thread を一つ進める。 -/
def advance (s : Semaphore T) (t : T) : Option (Semaphore T) :=
  match s.pc t with
  | .p => s.pTest t
  | .pSleep => some { s.setPc t .asleep with semWchan := s.semWchan.sleep t }
  | .v => s.vInc t
  | .vWake => s.vWakeone t
  | .out => none
  | .asleep => none

inductive Op (T : Type*) where
  | callP (t : T)
  | callV (t : T)
  | advance (t : T)

def step (s : Semaphore T) : Op T → Option (Semaphore T)
  | .callP t => if s.pc t = .out then some (s.setPc t .p) else none
  | .callV t => if s.pc t = .out then some (s.setPc t .v) else none
  | .advance t => s.advance t

end Semaphore

/-! ## lock -/

/-- `lock_acquire` と `lock_release` の中の位置。 -/
inductive LockPc where
  | out | acqCheck | acqTest | acqSleep | asleep | relCheck | relClear | relWake
  deriving DecidableEq, Repr

/-- `struct lock` と、それを使う thread の位置。 -/
structure Lock (T : Type*) where
  ownerThread : Option T
  lkSpinlock : Option T
  lkWchan : Wchan T
  pc : T → LockPc
  held : T → Bool

namespace Lock

def create : Lock T := ⟨none, none, .create, fun _ => .out, fun _ => false⟩

def setPc (s : Lock T) (t : T) (x : LockPc) : Lock T := { s with pc := update s.pc t x }

/-- `lock_acquire` から戻る。 -/
def returnAcquire (s : Lock T) (t : T) : Lock T :=
  { s.setPc t .out with held := update s.held t true }

/-- `lock_acquire` の呼び出し。 -/
def callAcquire (s : Lock T) (t : T) : Lock T := s.setPc t .acqCheck

/-- `lock_release` の呼び出し。 -/
def callRelease (s : Lock T) (t : T) : Lock T :=
  { s.setPc t .relCheck with held := update s.held t false }

/-- `lock_acquire` の `while` の条件と、NULL なら続く代入。 -/
def acqTest (s : Lock T) (t : T) : Option (Lock T) :=
  if s.lkSpinlock.isSome then none
  else if s.ownerThread.isSome then
    (s.lkWchan.lock t).map fun wc => { s.setPc t .acqSleep with lkWchan := wc }
  else some { s.returnAcquire t with ownerThread := some t }

/-- `lock_release` の `wchan_wakeone` と、続く `lk_spinlock` の解放。 -/
def relWakeone (s : Lock T) (t : T) : Option (Lock T) :=
  s.lkWchan.wakeone.map fun r =>
    { s with lkSpinlock := none, lkWchan := r.2, pc := update (wake s.pc r.1 .acqTest) t .out }

/-- `lock_acquire` か `lock_release` の中の thread を一つ進める。 -/
def advance (s : Lock T) (t : T) : Option (Lock T) :=
  match s.pc t with
  | .acqCheck => some (if s.ownerThread = some t then s.returnAcquire t else s.setPc t .acqTest)
  | .acqTest => s.acqTest t
  | .acqSleep => some { s.setPc t .asleep with lkWchan := s.lkWchan.sleep t }
  | .relCheck => some (if s.ownerThread = some t then s.setPc t .relClear else s.setPc t .out)
  | .relClear =>
    if s.lkSpinlock.isSome then none
    else some { s.setPc t .relWake with lkSpinlock := some t, ownerThread := none }
  | .relWake => s.relWakeone t
  | .out => none
  | .asleep => none

inductive Op (T : Type*) where
  | acquire (t : T)
  | release (t : T)
  | advance (t : T)

def step (s : Lock T) : Op T → Option (Lock T)
  | .acquire t => if s.pc t = .out then some (s.callAcquire t) else none
  | .release t => if s.pc t = .out then some (s.callRelease t) else none
  | .advance t => s.advance t

end Lock

end Os161
