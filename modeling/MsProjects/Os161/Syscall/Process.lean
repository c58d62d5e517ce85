import MsProjects.Os161.Arch

/-!
# process の表と pid

`kern/syscall/process_syscalls.c` の `pid_alloc`、`init_process`、`sys_waitpid`、`sys__exit` と、
`kern/thread/thread.c` の `thread_fork` のうち `process_table` を触る部分。
-/

namespace Os161

abbrev pidMax : Int := 32767

abbrev procMax : Nat := 100

abbrev wnohang : Int := 1

structure Process where
  pid : Int
  ppid : Int
  exited : Bool
  exitcode : Int32

/-- `process_table` と `pid_counter`。 -/
structure Procs where
  processTable : Fin procMax → Option Process
  pidCounter : Int

def mkwaitExit (x : Int32) : Int32 := (x <<< 2) ||| 0

namespace Procs

/-! ## 表の操作 -/

/-- slot に書き込む。 -/
def setSlot (s : Procs) (i : Fin procMax) (p : Option Process) : Procs :=
  { s with processTable := Function.update s.processTable i p }

/-- slot の指す `struct process` の field を書き換える。 -/
def modify (s : Procs) (i : Fin procMax) (f : Process → Process) : Procs :=
  s.setSlot i ((s.processTable i).map f)

/-- `pid_alloc` の結果。 -/
inductive PidAlloc where
  | full
  | exhausted
  | slot (i : Fin procMax)

def pidAlloc (s : Procs) : Option (PidAlloc × Procs) :=
  match (List.finRange procMax).find? fun i => 1 ≤ i.val && (s.processTable i).isNone with
  | none => some (.full, s)
  | some i =>
    if s.pidCounter = intMax then none
    else
      let s := { s with pidCounter := s.pidCounter + 1 }
      some (if s.pidCounter = pidMax then (.exhausted, s) else (.slot i, s))

/-- `thread_fork` が呼ぶ関数の結果。 -/
structure ForkEnv where
  threadCreate : Bool
  kmallocStack : Bool
  kmallocProcess : Bool
  semCreate : Bool
  asCopy : Except Errno Unit
  initFiletable : Except Errno Unit

def initProcess (s : Procs) (i : Fin procMax) (env : ForkEnv) : Except Errno Unit × Procs :=
  if env.kmallocProcess = false then (.error .enomem, s)
  else if env.semCreate = false then (.error .enomem, s)
  else (.ok (), s.setSlot i (some ⟨0, 0, false, 0⟩))

def destroyProcess (s : Procs) (i : Fin procMax) : Procs := s.setSlot i none

def getptableIndex (s : Procs) (pid : Int) : Option (Fin procMax) :=
  (List.finRange procMax).find? fun i => (s.processTable i).any fun p => p.pid = pid

/-! ## fork、exit、waitpid -/

def threadFork (s : Procs) (curpid : Int) (env : ForkEnv) : Option (Except Errno Int × Procs) :=
  if env.threadCreate = false then some (.error .enomem, s)
  else if env.kmallocStack = false then some (.error .enomem, s)
  else
    match s.pidAlloc with
    | none => none
    | some (.full, s) => some (.error .enproc, s)
    | some (.exhausted, s) => some (.error .emproc, s)
    | some (.slot i, s) =>
      let pid := s.pidCounter
      match s.initProcess i env with
      | (.error err, s) => some (.error err, s)
      | (.ok (), s) =>
        let s := s.modify i fun p => { p with ppid := curpid, pid := pid }
        match if curpid ≠ 0 then env.asCopy else env.initFiletable with
        | .error err => some (.error err, s.destroyProcess i)
        | .ok () => some (.ok pid, s)

def sysExit (s : Procs) (i : Fin procMax) (exitcode : Int32) : Procs :=
  s.modify i fun p => { p with exitcode := exitcode, exited := true }

/-- `sys_waitpid` の返す値と、`*status` に書く値。 -/
structure Waited where
  retval : Int
  status : Option Int32

/-- 終わった子を片付ける。 -/
def reap (s : Procs) (pid : Int) (i : Fin procMax) (p : Process) : Except Errno Waited × Procs :=
  (.ok ⟨pid, some (mkwaitExit p.exitcode)⟩, s.destroyProcess i)

def sysWaitpid (s : Procs) (curpid pid : Int) (status : Vaddr) (options : Int) :
    Option (Except Errno Waited × Procs) :=
  if pid < 1 ∨ pidMax ≤ pid then some (.error .esrch, s)
  else
    match s.getptableIndex pid with
    | none => some (.error .esrch, s)
    | some i =>
      match s.processTable i with
      | none => some (.error .esrch, s)
      | some p =>
        if status = 0 ∨ status ≤ 0x40000000 ∨ status % 4 ≠ 0 then some (.error .efault, s)
        else if curpid ≠ 0 ∧ userspacetop ≤ status then some (.error .efault, s)
        else if p.ppid ≠ curpid then some (.error .echild, s)
        else if options = wnohang then
          if p.exited = false then some (.ok ⟨0, none⟩, s) else some (s.reap pid i p)
        else if options = 0 then
          if p.exited = false then none else some (s.reap pid i p)
        else some (.error .einval, s)

/-! ## 系の step -/

/-- 呼び出す thread。 -/
abbrev Caller := Option (Fin procMax)

/-- 動いている thread は、表に載っていてまだ終わっていない。 -/
def running (s : Procs) : Caller → Bool
  | none => true
  | some i => (s.processTable i).any fun p => !p.exited

/-- `curthread->pid`。 -/
def curpid (s : Procs) : Caller → Int
  | none => 0
  | some i => ((s.processTable i).map Process.pid).getD 0

inductive Op where
  | fork (caller : Caller) (env : ForkEnv)
  | exit (i : Fin procMax) (exitcode : Int32)
  | waitpid (caller : Caller) (pid : Int) (status : Vaddr) (options : Int)

def step (s : Procs) : Op → Option Procs
  | .fork caller env =>
    if s.running caller then (s.threadFork (s.curpid caller) env).map Prod.snd else none
  | .exit i exitcode => if s.running (some i) then some (s.sysExit i exitcode) else none
  | .waitpid caller pid status options =>
    if s.running caller then (s.sysWaitpid (s.curpid caller) pid status options).map Prod.snd else none

/-- `thread_bootstrap` の直後。 -/
def boot : Procs := ⟨fun _ => none, 0⟩

end Procs

end Os161
