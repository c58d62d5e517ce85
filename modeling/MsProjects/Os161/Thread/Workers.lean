import MsProjects.Infra.Program
import MsProjects.Os161.Thread.Synch

/-!
# lock と semaphore の実装の上で走る列

命令の列を走らせる thread が、`kern/thread/synch.c` の `lock_acquire`、`lock_release`、`P`、`V` を
呼び出し、その中を一つずつ進む。
-/

namespace Os161

open Infra Function

/-- 各 lock と semaphore の中の状態と、各 thread の残りの列。先頭は、戻るまで残る。 -/
structure Workers (T L S E : Type*) where
  lock : L → Lock T
  sem : S → Semaphore T
  rest : T → List (Instr L S E)

namespace Workers

variable {T L S E : Type*} [DecidableEq T]

/-- `t` の残りの列を置き換える。 -/
def setRest (m : Workers T L S E) (t : T) (prog : List (Instr L S E)) : Workers T L S E :=
  { m with rest := update m.rest t prog }

/-- lock か semaphore の中を進んだ `t` が、戻っていれば次の命令に移る。 -/
def next (m : Workers T L S E) (t : T) (returned : Bool) (prog : List (Instr L S E)) :
    T → List (Instr L S E) :=
  if returned then update m.rest t prog else m.rest

variable [DecidableEq L] [DecidableEq S]

/-- `call` を呼び出すか、その中を一つ進む。 -/
def onLock (m : Workers T L S E) (t : T) (l : L) (call : Lock.Op T) (prog : List (Instr L S E)) :
    Option (Workers T L S E) :=
  ((m.lock l).step (if (m.lock l).pc t = .out then call else .advance t)).map fun s =>
    { m with lock := update m.lock l s, rest := m.next t (s.pc t = .out) prog }

def onSem (m : Workers T L S E) (t : T) (s : S) (call : Semaphore.Op T) (prog : List (Instr L S E)) :
    Option (Workers T L S E) :=
  ((m.sem s).step (if (m.sem s).pc t = .out then call else .advance t)).map fun s' =>
    { m with sem := update m.sem s s', rest := m.next t (s'.pc t = .out) prog }

/-- `t` を一つ進める。 -/
def advance (m : Workers T L S E) (t : T) : Option (Workers T L S E) :=
  match m.rest t with
  | [] => none
  | .acquire l :: prog => m.onLock t l (.acquire t) prog
  | .release l :: prog => m.onLock t l (.release t) prog
  | .p s :: prog => m.onSem t s (.callP t) prog
  | .v s :: prog => m.onSem t s (.callV t) prog
  | .event _ :: prog => some (m.setRest t prog)

/-- 何も走らせていない `t` が、列を始める。 -/
def start (m : Workers T L S E) (t : T) (prog : List (Instr L S E)) : Option (Workers T L S E) :=
  if m.rest t = [] then some (m.setRest t prog) else none

end Workers

end Os161
