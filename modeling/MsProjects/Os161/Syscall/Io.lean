import MsProjects.Os161.Lib.Uio
import MsProjects.Os161.Syscall.File
import MsProjects.Os161.Vm.CopyIn

/-!
# sys_read と sys_write

`kern/syscall/file_syscalls.c` の `sys_read` と `sys_write`。
-/

namespace Os161

abbrev nameMax : UInt32 := 255

/-! ## buffer の検査 -/

/-- 検査の `copyinstr`。 -/
def probe (kmalloc : Bool) (m : UserMem) (buf : Vaddr) : Except Errno Nat × List UInt8 :=
  if kmalloc then copyinstr m buf nameMax else (.error .efault, [])

/-- 検査をする system call。 -/
inductive Prober where
  | read
  | write
  | getcwd
  | execv
  deriving DecidableEq, Repr

/-- system call の検査が `check` に書く byte。 -/
def Prober.written (call : Prober) (m : UserMem) (ptr : Vaddr) : List UInt8 :=
  if call = .execv ∧ ptr = 0 then [] else (probe true m ptr).2

/-! ## 転送 -/

/-- `VOP_READ` と `VOP_WRITE`。 -/
structure Vop where
  run : UioRw → Option Nat → Int → Vaddr → UInt32 → UserMem → Except Errno (Int × UInt32)
  blind : ∀ rw vnode offset buf buflen {m m' : UserMem}, m.readablePage = m'.readablePage →
    run rw vnode offset buf buflen m = run rw vnode offset buf buflen m'

/-- `sys_read` と `sys_write`。 -/
def Files.sysIo (rw : UioRw) (s : Files) (p : Nat) (vop : Vop) (kmalloc : Bool) (fd : Int) (buf : Vaddr)
    (buflen : UInt32) (m : UserMem) : Except Errno UInt32 × Files :=
  match (probe kmalloc m buf).1 with
  | .error err => (.error err, s)
  | .ok _ =>
    match Files.fdIndex fd with
    | none => (.error .ebadf, s)
    | some i =>
      match s.fdTable p i with
      | none => (.error .ebadf, s)
      | some h =>
        match vop.run rw (s.handle h).vnode (s.handle h).offset buf buflen m with
        | .error err => (.error err, s)
        | .ok (offset, resid) =>
          (.ok (buflen - resid), s.modify h fun f => { f with offset := offset })

def Files.sysWrite (s : Files) (p : Nat) (vop : Vop) (kmalloc : Bool) (fd : Int) (buf : Vaddr)
    (buflen : UInt32) (m : UserMem) : Except Errno UInt32 × Files :=
  s.sysIo .write p vop kmalloc fd buf buflen m

def Files.sysRead (s : Files) (p : Nat) (vop : Vop) (kmalloc : Bool) (fd : Int) (buf : Vaddr)
    (buflen : UInt32) (m : UserMem) : Except Errno UInt32 × Files :=
  s.sysIo .read p vop kmalloc fd buf buflen m

end Os161
