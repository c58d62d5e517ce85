import MsProjects.Os161.Thread.Synch

/-!
# condition variable

`kern/thread/synch.c` の `cv_wait`、`cv_signal`、`cv_broadcast`。
-/

namespace Os161

variable {T : Type*} [DecidableEq T]

/-- condition variable の操作の中の位置。 -/
inductive CvPc where
  | out | waitSpin | waitRelease | waitWchan | waitSleep | asleep | waitAcquire | signal | broadcast
  deriving DecidableEq, Repr

/-- `struct cv` と、一緒に使う `struct lock`、各 thread の位置。 -/
structure Cv (T : Type*) where
  lock : Lock T
  cvSpinlock : Option T
  cvWchan : Wchan T
  pc : T → CvPc

namespace Cv

def create : Cv T := ⟨.create, none, .create, fun _ => .out⟩

def setPc (s : Cv T) (t : T) (x : CvPc) : Cv T := { s with pc := Function.update s.pc t x }

/-- 中で呼んだ lock の操作を一つ進め、戻ったら `next` に移る。 -/
def advanceLock (s : Cv T) (t : T) (next : CvPc) : Option (Cv T) :=
  (s.lock.advance t).map fun l =>
    if l.pc t = .out then { s.setPc t next with lock := l } else { s with lock := l }

/-- 起こされた thread は `cv_wait` の最後の `lock_acquire` を呼ぶ。 -/
def wakeAll (s : Cv T) (targets : List T) : Cv T :=
  { s with
    lock := { s.lock with pc := fun u => if u ∈ targets then .acqCheck else s.lock.pc u }
    pc := fun u => if u ∈ targets then .waitAcquire else s.pc u }

/-- condition variable の操作の中の thread を一つ進める。 -/
def advance (s : Cv T) (t : T) : Option (Cv T) :=
  match s.pc t with
  | .waitSpin =>
    if s.cvSpinlock.isSome then none
    else some { s.setPc t .waitRelease with cvSpinlock := some t, lock := s.lock.callRelease t }
  | .waitRelease => s.advanceLock t .waitWchan
  | .waitWchan =>
    (s.cvWchan.lock t).map fun wc => { s.setPc t .waitSleep with cvWchan := wc, cvSpinlock := none }
  | .waitSleep => some { s.setPc t .asleep with cvWchan := s.cvWchan.sleep t }
  | .waitAcquire => s.advanceLock t .out
  | .signal =>
    s.cvWchan.wakeone.map fun r => { (s.wakeAll r.1.toList).setPc t .out with cvWchan := r.2 }
  | .broadcast => s.cvWchan.wakeall.map fun r => { (s.wakeAll r.1).setPc t .out with cvWchan := r.2 }
  | .out => none
  | .asleep => none

/-- lock の操作をする thread。 -/
def lockThread : Lock.Op T → T
  | .acquire t => t
  | .release t => t
  | .advance t => t

inductive Op (T : Type*) where
  | lock (op : Lock.Op T)
  | wait (t : T)
  | signal (t : T)
  | broadcast (t : T)
  | advance (t : T)

/-- どの操作も、ほかの操作の途中では呼べない。 -/
def idle (s : Cv T) (t : T) : Bool := s.pc t = .out ∧ s.lock.pc t = .out

def step (s : Cv T) : Op T → Option (Cv T)
  | .lock op =>
    if s.pc (lockThread op) = .out then (s.lock.step op).map fun l => { s with lock := l } else none
  | .wait t => if s.idle t then some (s.setPc t .waitSpin) else none
  | .signal t => if s.idle t then some (s.setPc t .signal) else none
  | .broadcast t => if s.idle t then some (s.setPc t .broadcast) else none
  | .advance t => s.advance t

end Cv

end Os161
