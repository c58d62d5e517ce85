import MsProjects.Os161.Syscall.File
import MsProjects.Os161.Syscall.Process

/-!
# thread_fork の片付け

`kern/thread/thread.c` の `thread_create`、`thread_destroy`、`thread_fork`。
-/

namespace Os161

/-- `thread_fork` が heap に取る object。 -/
inductive ForkObject where
  | thread
  | name
  | stack
  | process
  | exitsem
  deriving DecidableEq, Repr

/-- heap への呼び出し。 -/
inductive HeapCall where
  | kmalloc (o : ForkObject)
  | kfree (o : ForkObject)
  deriving DecidableEq, Repr

/-- `thread_fork` が触る kernel の状態。 -/
structure ForkKernel where
  procs : Procs
  files : Files
  /-- `thread_fork` の object についての呼び出しの記録。 -/
  heap : List HeapCall

namespace ForkKernel

/-- `thread_fork` が呼ぶ関数の結果。 -/
structure Env where
  kmallocThread : Bool
  kstrdup : Bool
  kmallocStack : Bool
  kmallocProcess : Bool
  semCreate : Bool
  asCopy : Except Errno Unit
  stdin : Files.ConEnv
  stdout : Files.ConEnv
  stderr : Files.ConEnv

def kmalloc (k : ForkKernel) (o : ForkObject) : ForkKernel := { k with heap := k.heap ++ [.kmalloc o] }

def kfree (k : ForkKernel) (o : ForkObject) : ForkKernel := { k with heap := k.heap ++ [.kfree o] }

def threadCreate (k : ForkKernel) (env : Env) : Bool × ForkKernel :=
  if env.kmallocThread = false then (false, k)
  else
    let k := k.kmalloc .thread
    if env.kstrdup = false then (false, k.kfree .thread) else (true, k.kmalloc .name)

def threadDestroy (k : ForkKernel) (stack : Bool) : ForkKernel :=
  let k := if stack then k.kfree .stack else k
  (k.kfree .name).kfree .thread

def initProcess (k : ForkKernel) (i : Fin procMax) (env : Env) : Except Errno Unit × ForkKernel :=
  if env.kmallocProcess = false then (.error .enomem, k)
  else
    let k := k.kmalloc .process
    if env.semCreate = false then (.error .enomem, k.kfree .process)
    else
      let k := k.kmalloc .exitsem
      (.ok (), { k with procs := k.procs.setSlot i (some ⟨0, 0, false, 0⟩) })

/-- 表の slot を片付ける。 -/
def destroyProcess (k : ForkKernel) (i : Fin procMax) : ForkKernel :=
  let k := (k.kfree .exitsem).kfree .process
  { k with procs := k.procs.destroyProcess i }

/-- stack を取った後の失敗。 -/
def abandonStack (k : ForkKernel) : ForkKernel := (k.kfree .stack).threadDestroy true

/-- 子の file の表を置く。 -/
def giveTable (k : ForkKernel) (child : Nat) (t : FdTable) : ForkKernel :=
  { k with files := { k.files with
    fdTable := Function.update k.files.fdTable child t
    live := insert child k.files.live } }

/-- address space と file の表。 -/
def inherit (k : ForkKernel) (parent child : Nat) (env : Env) : Except Errno Unit × ForkKernel :=
  if parent ≠ 0 then
    match env.asCopy with
    | .error err => (.error err, k)
    | .ok () =>
      let t := k.files.fdTable parent
      let files := (List.finRange openMax).foldl (fun s i => s.incref (t i)) k.files
      (.ok (), { k with files := files }.giveTable child t)
  else
    match k.files.initFiletable env.stdin env.stdout env.stderr with
    | (.error err, files) => (.error err, { k with files := files })
    | (.ok t, files) => (.ok (), { k with files := files }.giveTable child t)

/-- slot が決まってからの `thread_fork`。 -/
def startProcess (k : ForkKernel) (i : Fin procMax) (parent : Nat) (env : Env) :
    Except Errno Int × ForkKernel :=
  let pid := k.procs.pidCounter
  match k.initProcess i env with
  | (.error err, k) => (.error err, k.abandonStack)
  | (.ok (), k) =>
    let k := { k with procs := k.procs.modify i fun p => { p with ppid := parent, pid := pid } }
    match k.inherit parent pid.toNat env with
    | (.error err, k) => (.error err, (k.destroyProcess i).abandonStack)
    | (.ok (), k) => (.ok pid, k)

def threadFork (k : ForkKernel) (parent : Nat) (env : Env) : Option (Except Errno Int × ForkKernel) :=
  match k.threadCreate env with
  | (false, k) => some (.error .enomem, k)
  | (true, k) =>
    if env.kmallocStack = false then some (.error .enomem, k.threadDestroy false)
    else
      let k := k.kmalloc .stack
      match k.procs.pidAlloc with
      | none => none
      | some (.full, procs) => some (.error .enproc, { k with procs := procs }.abandonStack)
      | some (.exhausted, procs) => some (.error .emproc, { k with procs := procs }.abandonStack)
      | some (.slot i, procs) => some ({ k with procs := procs }.startProcess i parent env)

end ForkKernel

end Os161
