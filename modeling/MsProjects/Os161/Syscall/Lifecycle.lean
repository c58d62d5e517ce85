import MsProjects.Os161.Syscall.Process

/-!
# process の一生

`kern/syscall/process_syscalls.c` の `sys_fork`、`sys_waitpid`、`sys__exit` を、ほかの thread の step が
間に入る細かさで書く。
-/

namespace Os161

/-- thread を作ったもの。 -/
inductive Origin where
  /-- 起動時からある thread。 -/
  | boot
  /-- kernel の `thread_fork`。 -/
  | kernel
  /-- `sys_fork`。 -/
  | fork
  deriving DecidableEq, Repr

/-- `sys__exit` の次の文。 -/
inductive ExitPc where
  | vForkSem | vExecvSem | setExecvSem | setExitcode | setExited | vExitsem
  deriving DecidableEq, Repr

/-- `sys_waitpid` の引数。 -/
structure WaitCall where
  pid : Int
  status : Vaddr
  options : Int
  deriving DecidableEq

/-- `sys_waitpid` の次の文。 -/
inductive WaitPc where
  /-- pid の範囲を調べ、`getptable_index` を呼ぶ。 -/
  | lookup
  /-- slot が NULL でないことと `status` を調べる。 -/
  | nullTest (i : Fin procMax)
  /-- `ppid` と `options` を調べる。 -/
  | ppidTest (i : Fin procMax)
  /-- `exited` を調べる。 -/
  | exitedTest (i : Fin procMax)
  /-- `P(exitsem)`。 -/
  | semP (i : Fin procMax)
  /-- `*status` に書く。 -/
  | readCode (i : Fin procMax)
  /-- `destroy_process` を呼んで返る。 -/
  | destroy (i : Fin procMax) (status : Int32)
  deriving DecidableEq

/-- thread が次に行うこと。 -/
inductive Pc where
  | run
  /-- `sys_fork` の `P(forkSem)`。 -/
  | forkP
  /-- `sys_fork` の `kmalloc` と `thread_fork`。 -/
  | forkBody
  /-- 失敗した `sys_fork` の `V(forkSem)`。 -/
  | forkV
  | exit (exitcode : Int32) (stage : ExitPc)
  | wait (call : WaitCall) (stage : WaitPc)
  | threadExit (exitcode : Option Int32)
  | zombie (exitcode : Option Int32)
  deriving DecidableEq

/-- thread の変わらない部分。 -/
structure Ident where
  pid : Int
  ptableIndex : Fin procMax
  parent : Option Nat
  origin : Origin

/-- `struct thread` のうち使う field と、次に行うこと。 -/
structure Thread extends Ident where
  /-- user mode の program を走らせている。 -/
  user : Bool
  pc : Pc

namespace Thread

def goto (x : Thread) (pc : Pc) : Thread := { x with pc := pc }

/-- entry の関数をまだ走らせている。 -/
def inEntry (x : Thread) : Bool := x.origin = .kernel && !x.user && x.pc = .run

/-- user mode から system call を呼べる。 -/
def inUser (x : Thread) : Bool := x.user && x.pc = .run

/-- menu を走らせている。 -/
def inMenu (x : Thread) : Bool := x.origin = .boot && x.pc = .run

end Thread

/-- `sys_waitpid` の一回の呼び出しの結果。 -/
structure Returned where
  caller : Int
  call : WaitCall
  result : Except Errno Procs.Waited

/-- thread の間で共有するもの。 -/
structure Kernel where
  procs : Procs
  exitsem : Fin procMax → Nat
  forkSem : Nat
  execvSem : Nat
  log : List Returned

namespace Kernel

/-! ## 一つの thread の step -/

/-- slot の指す `struct process` に書き込む。 -/
def write (k : Kernel) (i : Fin procMax) (f : Process → Process) : Option Kernel :=
  match k.procs.processTable i with
  | none => none
  | some _ => some { k with procs := k.procs.modify i f }

/-- `sys_waitpid` から返る。 -/
def returns (k : Kernel) (x : Thread) (call : WaitCall) (result : Except Errno Procs.Waited) :
    Option (Thread × Kernel) :=
  some (x.goto .run, { k with log := k.log ++ [⟨x.pid, call, result⟩] })

def sysWaitpid (k : Kernel) (x : Thread) (call : WaitCall) : WaitPc → Option (Thread × Kernel)
  | .lookup =>
    if call.pid < 1 ∨ pidMax ≤ call.pid then k.returns x call (.error .esrch)
    else
      match k.procs.getptableIndex call.pid with
      | none => k.returns x call (.error .esrch)
      | some i => some (x.goto (.wait call (.nullTest i)), k)
  | .nullTest i =>
    if k.procs.processTable i |>.isNone then k.returns x call (.error .esrch)
    else if call.status = 0 ∨ call.status ≤ 0x40000000 ∨ call.status % 4 ≠ 0 then
      k.returns x call (.error .efault)
    else if x.pid ≠ 0 ∧ userspacetop ≤ call.status then k.returns x call (.error .efault)
    else some (x.goto (.wait call (.ppidTest i)), k)
  | .ppidTest i =>
    match k.procs.processTable i with
    | none => none
    | some p =>
      if p.ppid ≠ x.pid then k.returns x call (.error .echild)
      else if call.options = wnohang ∨ call.options = 0 then
        some (x.goto (.wait call (.exitedTest i)), k)
      else k.returns x call (.error .einval)
  | .exitedTest i =>
    match k.procs.processTable i with
    | none => none
    | some p =>
      if p.exited then some (x.goto (.wait call (.readCode i)), k)
      else if call.options = wnohang then k.returns x call (.ok ⟨0, none⟩)
      else some (x.goto (.wait call (.semP i)), k)
  | .semP i =>
    match k.procs.processTable i with
    | none => none
    | some _ =>
      if k.exitsem i = 0 then none
      else some (x.goto (.wait call (.readCode i)),
        { k with exitsem := Function.update k.exitsem i (k.exitsem i - 1) })
  | .readCode i =>
    match k.procs.processTable i with
    | none => none
    | some p => some (x.goto (.wait call (.destroy i (mkwaitExit p.exitcode))), k)
  | .destroy i status =>
    match k.procs.processTable i with
    | none => none
    | some _ =>
      { k with procs := k.procs.destroyProcess i }.returns x call (.ok ⟨call.pid, some status⟩)

def sysExit (k : Kernel) (x : Thread) (exitcode : Int32) : ExitPc → Option (Thread × Kernel)
  | .vForkSem => some (x.goto (.exit exitcode .vExecvSem), { k with forkSem := k.forkSem + 1 })
  | .vExecvSem => some (x.goto (.exit exitcode .setExecvSem), { k with execvSem := k.execvSem + 1 })
  | .setExecvSem => some (x.goto (.exit exitcode .setExitcode), { k with execvSem := 2 })
  | .setExitcode =>
    (k.write x.ptableIndex fun p => { p with exitcode := exitcode }).map
      fun k => (x.goto (.exit exitcode .setExited), k)
  | .setExited =>
    (k.write x.ptableIndex fun p => { p with exited := true }).map
      fun k => (x.goto (.exit exitcode .vExitsem), k)
  | .vExitsem =>
    match k.procs.processTable x.ptableIndex with
    | none => none
    | some _ => some (x.goto (.threadExit (some exitcode)),
        { k with exitsem := Function.update k.exitsem x.ptableIndex (k.exitsem x.ptableIndex + 1) })

/-- 次の文を実行する。 -/
def advance (k : Kernel) (x : Thread) : Option (Thread × Kernel) :=
  match x.pc with
  | .run | .forkBody | .zombie _ => none
  | .forkP => if k.forkSem = 0 then none else some (x.goto .forkBody, { k with forkSem := k.forkSem - 1 })
  | .forkV => some (x.goto .run, { k with forkSem := k.forkSem + 1 })
  | .exit exitcode stage => k.sysExit x exitcode stage
  | .wait call stage => k.sysWaitpid x call stage
  | .threadExit exitcode => some (x.goto (.zombie exitcode), k)

/-- thread を作らない step。 -/
inductive Act where
  /-- `runprogram` が user mode に入る。 -/
  | enterUser
  /-- entry の関数から戻る。 -/
  | entryReturns
  | callFork
  | callExit (exitcode : Int32)
  | callWaitpid (call : WaitCall)
  | advance

def exec (k : Kernel) (x : Thread) : Act → Option (Thread × Kernel)
  | .enterUser => if x.inEntry then some ({ x with user := true }, k) else none
  | .entryReturns => if x.inEntry then some (x.goto (.threadExit none), k) else none
  | .callFork => if x.inUser then some (x.goto .forkP, k) else none
  | .callExit exitcode => if x.inUser then some (x.goto (.exit exitcode .vForkSem), k) else none
  | .callWaitpid call => if x.inUser || x.inMenu then some (x.goto (.wait call .lookup), k) else none
  | .advance => k.advance x

end Kernel

/-- 系の状態。 -/
structure Life where
  kernel : Kernel
  threads : List Thread

namespace Life

/-! ## 系の step -/

/-- `thread_bootstrap` の直後。 -/
def boot : Life where
  kernel := ⟨.boot, fun _ => 0, 8, 2, []⟩
  threads := [⟨⟨0, 0, none, .boot⟩, false, .run⟩]

/-- thread `t` の `thread_fork`。 -/
def threadFork (s : Life) (t : Nat) (x : Thread) (origin : Origin) (env : Procs.ForkEnv) :
    Option (Bool × Life) :=
  match s.kernel.procs.threadFork x.pid env, s.kernel.procs.pidAlloc with
  | some (.ok pid, procs), some (.slot i, _) =>
    some (true, ⟨{ s.kernel with procs := procs, exitsem := Function.update s.kernel.exitsem i 0 },
      s.threads ++ [⟨⟨pid, i, some t, origin⟩, origin = .fork, .run⟩]⟩)
  | some (.ok _, _), _ => none
  | some (.error _, procs), _ => some (false, { s with kernel := { s.kernel with procs := procs } })
  | none, _ => none

def setThread (s : Life) (t : Nat) (x : Thread) : Life := { s with threads := s.threads.set t x }

inductive Op where
  | act (t : Nat) (a : Kernel.Act)
  /-- menu が `thread_fork` を呼ぶ。 -/
  | spawn (t : Nat) (env : Procs.ForkEnv)
  /-- `sys_fork` の本体。 -/
  | fork (t : Nat) (kmalloc : Bool) (env : Procs.ForkEnv)

def step (s : Life) : Op → Option Life
  | .act t a =>
    match s.threads[t]? with
    | none => none
    | some x => (s.kernel.exec x a).map fun r => ⟨r.2, s.threads.set t r.1⟩
  | .spawn t env =>
    match s.threads[t]? with
    | none => none
    | some x => if x.inMenu then (s.threadFork t x .kernel env).map Prod.snd else none
  | .fork t kmalloc env =>
    match s.threads[t]? with
    | none => none
    | some x =>
      if x.pc = .forkBody then
        if kmalloc = false then some (s.setThread t (x.goto .forkV))
        else (s.threadFork t x .fork env).map fun r =>
          r.2.setThread t (x.goto (if r.1 then .run else .forkV))
      else none

end Life

end Os161
