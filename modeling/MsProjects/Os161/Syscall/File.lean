import MsProjects.Os161.Vfs.Path

/-!
# file handle と descriptor の表

`kern/syscall/file_syscalls.c` の `init_filetable`、`sys_open`、`sys_close`、`sys_dup2` と、
`kern/thread/thread.c` の `thread_fork`、`thread_exit` のうち `fd_table` を触る部分。
-/

namespace Os161

open Function

abbrev openMax : Nat := 128

abbrev pathMax : Nat := 1024

/-- `struct file_handle`。 -/
structure FileHandle where
  filename : String
  flags : Int32
  offset : Int
  references : Nat
  vnode : Option Nat

abbrev FdTable := Fin openMax → Option Nat

/-- kernel の heap の handle と、process ごとの表。 -/
structure Files where
  handle : Nat → FileHandle
  /-- `kmalloc` されていて、まだ `kfree` されていない。 -/
  allocated : Nat → Bool
  /-- これまでに `kmalloc` した handle の数。 -/
  allocs : Nat
  /-- これまでに成功した `vfs_open` の数。 -/
  opened : Nat
  /-- `vfs_close` に渡した vnode。 -/
  closes : List Nat
  /-- 生きている process。 -/
  live : Finset Nat
  fdTable : Nat → FdTable

namespace Files

/-! ## handle の操作 -/

/-- `kmalloc(sizeof(struct file_handle))` に成功して中身を書く。 -/
def kmalloc (s : Files) (f : FileHandle) : Files :=
  { s with
    handle := update s.handle s.allocs f
    allocated := update s.allocated s.allocs true
    allocs := s.allocs + 1 }

def kfree (s : Files) (h : Nat) : Files := { s with allocated := update s.allocated h false }

def vfsClose (s : Files) (v : Option Nat) : Files := { s with closes := s.closes ++ v.toList }

/-- handle の field を書き換える。 -/
def modify (s : Files) (h : Nat) (f : FileHandle → FileHandle) : Files :=
  { s with handle := update s.handle h (f (s.handle h)) }

/-- 一つの slot に書き込む。 -/
def setSlot (s : Files) (p : Nat) (i : Fin openMax) (x : Option Nat) : Files :=
  { s with fdTable := update s.fdTable p (update (s.fdTable p) i x) }

/-- slot が空でなければ `references++`。 -/
def incref (s : Files) : Option Nat → Files
  | none => s
  | some h => s.modify h fun f => { f with references := f.references + 1 }

/-- handle を一つ手放す。 -/
def release (s : Files) (h : Nat) : Files :=
  if 1 < (s.handle h).references then
    s.modify h fun f => { f with references := f.references - 1 }
  else (s.vfsClose (s.handle h).vnode).kfree h

/-- slot が空でなければ手放す。 -/
def decref (s : Files) : Option Nat → Files
  | none => s
  | some h => s.release h

/-! ## system call -/

/-- descriptor の範囲の検査。 -/
def fdIndex (fd : Int) : Option (Fin openMax) :=
  if h : 0 ≤ fd ∧ fd < openMax then some ⟨fd.toNat, by omega⟩ else none

/-- `sys_open` が呼ぶ関数の結果。 -/
structure OpenEnv where
  fname : Option (Except Errno String)
  kmalloc : Bool
  lockCreate : Bool
  vfsOpen : Except Errno Unit
  vopStat : Except Errno Int

def sysOpen (s : Files) (p : Nat) (flag : Int32) (env : OpenEnv) : Except Errno (Fin openMax) × Files :=
  match env.fname with
  | none => (.error .efault, s)
  | some (.error err) => (.error err, s)
  | some (.ok dest) =>
    if pathMax < dest.length then (.error .enametoolong, s)
    else
      match (List.finRange openMax).find? fun i => (s.fdTable p i).isNone with
      | none => (.error .enfile, s)
      | some index =>
        if env.kmalloc = false then (.error .enomem, s)
        else
          let h := s.allocs
          let s := (s.kmalloc ⟨dest, flag, 0, 1, none⟩).setSlot p index (some h)
          let undo := fun s : Files => (s.kfree h).setSlot p index none
          if env.lockCreate = false then (.error .enomem, undo s)
          else
            match env.vfsOpen with
            | .error err => (.error err, undo s)
            | .ok () =>
              let v := s.opened
              let s := { s.modify h fun f => { f with vnode := some v } with opened := s.opened + 1 }
              if flag = oAppend then
                match env.vopStat with
                | .error err => (.error err, undo s)
                | .ok size => (.ok index, s.modify h fun f => { f with offset := size })
              else (.ok index, s.modify h fun f => { f with offset := 0 })

def sysClose (s : Files) (p : Nat) (fd : Int) : Except Errno Unit × Files :=
  match fdIndex fd with
  | none => (.error .ebadf, s)
  | some i =>
    match s.fdTable p i with
    | none => (.error .ebadf, s)
    | some h => (.ok (), (s.release h).setSlot p i none)

def sysDup2 (s : Files) (p : Nat) (oldfd newfd : Int) : Except Errno Int × Files :=
  match fdIndex newfd, fdIndex oldfd with
  | some new, some old =>
    if (s.fdTable p old).isNone then (.error .ebadf, s)
    else if oldfd ≠ newfd then
      let s := if (s.fdTable p new).isSome then (s.sysClose p newfd).2 else s
      let s := s.setSlot p new (s.fdTable p old)
      (.ok newfd, s.incref (s.fdTable p old))
    else (.ok newfd, s)
  | _, _ => (.error .ebadf, s)

/-! ## fork と exit -/

/-- `init_filetable` が console を一つ開くときに呼ぶ関数の結果。 -/
structure ConEnv where
  vfs : VfsEnv
  kmalloc : Bool
  lockCreate : Bool

/-- 途中まで開いた vnode を閉じ、handle を返す。 -/
def abandon (s : Files) (vs hs : List Nat) : Files :=
  { s with
    closes := s.closes ++ vs
    allocated := fun h => if h ∈ hs then false else s.allocated h }

/-- `init_filetable` の中で console を開く部分。 -/
def openConsoles : List (Int32 × ConEnv) → List Nat → List Nat → Files →
    Except Errno (List Nat) × Files
  | [], _, hs, s => (.ok hs, s)
  | (flags, env) :: rest, vs, hs, s =>
    match vfsOpen flags env.vfs with
    | .error err => (.error err, s.abandon vs hs)
    | .ok () =>
      let v := s.opened
      let s := { s with opened := s.opened + 1 }
      if env.kmalloc = false then (.error .enomem, s.abandon (vs ++ [v]) hs)
      else
        let h := s.allocs
        let s := s.kmalloc ⟨"con:", flags, 0, 1, some v⟩
        if env.lockCreate = false then (.error .enomem, s.abandon (vs ++ [v]) (hs ++ [h]))
        else openConsoles rest (vs ++ [v]) (hs ++ [h]) s

def initFiletable (s : Files) (stdin stdout stderr : ConEnv) : Except Errno FdTable × Files :=
  match openConsoles [(oRdonly, stdin), (oWronly, stdout), (oWronly, stderr)] [] [] s with
  | (.error err, s) => (.error err, s)
  | (.ok hs, s) => (.ok fun i => hs[i.val]?, s)

/-- `thread_fork` の中で `fd_table` より前に失敗しうる部分の結果。 -/
structure ForkEnv where
  prior : Except Errno Unit
  asCopy : Except Errno Unit
  stdin : ConEnv
  stdout : ConEnv
  stderr : ConEnv

def threadFork (s : Files) (parent child : Nat) (env : ForkEnv) : Except Errno Unit × Files :=
  match env.prior with
  | .error err => (.error err, s)
  | .ok () =>
    if parent ≠ 0 then
      match env.asCopy with
      | .error err => (.error err, s)
      | .ok () =>
        let t := s.fdTable parent
        let s := (List.finRange openMax).foldl (fun s i => s.incref (t i)) s
        (.ok (), { s with fdTable := update s.fdTable child t, live := insert child s.live })
    else
      match s.initFiletable env.stdin env.stdout env.stderr with
      | (.error err, s) => (.error err, s)
      | (.ok t, s) =>
        (.ok (), { s with fdTable := update s.fdTable child t, live := insert child s.live })

def threadExit (s : Files) (p : Nat) : Files :=
  let t := s.fdTable p
  let s := (List.finRange openMax).foldl (fun s i => s.decref (t i)) s
  { s with live := s.live.erase p }

/-! ## 系の step -/

/-- 一つの step。 -/
inductive Op where
  | «open» (p : Nat) (flag : Int32) (vfs : VfsEnv) (env : OpenEnv)
  | close (p : Nat) (fd : Int)
  | dup2 (p : Nat) (oldfd newfd : Int)
  | fork (parent child : Nat) (env : ForkEnv)
  | exit (p : Nat)

/-- system call を呼べるのは生きている process だけである。 -/
def step (s : Files) : Op → Option Files
  | .open p flag vfs env =>
    if p ∈ s.live then some (s.sysOpen p flag { env with vfsOpen := vfsOpen flag vfs }).2 else none
  | .close p fd => if p ∈ s.live then some (s.sysClose p fd).2 else none
  | .dup2 p oldfd newfd => if p ∈ s.live then some (s.sysDup2 p oldfd newfd).2 else none
  | .fork parent child env =>
    if (parent = 0 ∨ parent ∈ s.live) ∧ child ∉ s.live then some (s.threadFork parent child env).2
    else none
  | .exit p => if p ∈ s.live then some (s.threadExit p) else none

/-- process がまだ無い系。 -/
def boot : Files where
  handle := fun _ => ⟨"", 0, 0, 0, none⟩
  allocated := fun _ => false
  allocs := 0
  opened := 0
  closes := []
  live := ∅
  fdTable := fun _ _ => none

end Files

end Os161
