import MsProjects.Os161.Syscall.File

/-!
# lseek

`kern/syscall/file_syscalls.c` の `sys_lseek` と、`kern/arch/mips/syscall/syscall.c` の `syscall` のうち
`SYS_lseek` の部分。
-/

namespace Os161

abbrev seekSet : Int32 := 0

abbrev seekCur : Int32 := 1

abbrev seekEnd : Int32 := 2

/-! ## vnode の操作 -/

/-- 開いた file の vnode。 -/
inductive SeekVnode where
  | sfsFile (size : UInt32)
  | sfsDir (size : UInt32)
  | emufsFile (size : Except Errno UInt32)
  | emufsDir (size : Except Errno UInt32)
  | device (blocks blocksize : UInt32)

/-- `VOP_STAT` の `st_size`。 -/
def SeekVnode.stat : SeekVnode → Except Errno Int
  | .sfsFile size | .sfsDir size => .ok size.toNat
  | .emufsFile size | .emufsDir size => size.map fun n => (n.toNat : Int)
  | .device blocks blocksize => .ok (if 0 < blocks then (blocks * blocksize).toNat else 0)

def devTryseek (blocks blocksize : UInt32) (pos : Int) : Except Errno Unit :=
  if 0 < blocks then
    if pos.tmod blocksize.toNat ≠ 0 then .error .einval
    else if pos < 0 then .error .einval
    else if (blocks.toNat : Int) ≤ pos.tdiv blocksize.toNat then .error .einval
    else .ok ()
  else .error .espipe

/-- `VOP_TRYSEEK`。 -/
def SeekVnode.tryseek : SeekVnode → Int → Except Errno Unit
  | .sfsFile _, pos | .emufsFile _, pos => if pos < 0 then .error .einval else .ok ()
  | .sfsDir _, _ | .emufsDir _, _ => .error .eunimp
  | .device blocks blocksize, pos => devTryseek blocks blocksize pos

/-! ## sys_lseek -/

/-- `off_t` の加算。 -/
def offAdd (a b : Int) : Int := (a + b).bmod (2 ^ 64)

/-- `switch (whence)` が書く offset。 -/
def seekOffset (offset fileSize pos : Int) (whence : Int32) : Int :=
  if whence = seekSet then pos
  else if whence = seekCur then offAdd offset pos
  else offAdd fileSize pos

def Files.sysLseek (s : Files) (p : Nat) (vn : SeekVnode) (fd pos : Int) (whence : Int32) :
    Except Errno Int32 × Files :=
  match fdIndex fd with
  | none => (.error .ebadf, s)
  | some i =>
    match s.fdTable p i with
    | none => (.error .ebadf, s)
    | some h =>
      if (s.handle h).filename = "con:" then (.error .espipe, s)
      else if whence ≠ seekSet ∧ whence ≠ seekCur ∧ whence ≠ seekEnd then (.error .einval, s)
      else if pos < 0 then (.error .einval, s)
      else
        match vn.stat with
        | .error err => (.error err, s)
        | .ok fileSize =>
          let offset := seekOffset (s.handle h).offset fileSize pos whence
          let s := s.modify h fun f => { f with offset := offset }
          match vn.tryseek offset with
          | .error err => (.error err, s)
          | .ok () => (.ok (Int32.ofInt offset), s)

/-! ## system call の入口 -/

/-- `struct trapframe` のうち、`SYS_lseek` が使う register。 -/
structure Trapframe where
  v0 : UInt32
  v1 : UInt32
  a0 : UInt32
  a2 : UInt32
  a3 : UInt32
  epc : UInt32
  deriving DecidableEq, Repr

/-- `kern/errno.h` の番号。 -/
def Errno.code : Errno → UInt32
  | .eunimp => 2
  | .enomem => 3
  | .efault => 6
  | .enametoolong => 7
  | .einval => 8
  | .emproc => 11
  | .enproc => 12
  | .enoexec => 13
  | .e2big => 14
  | .esrch => 15
  | .echild => 16
  | .eisdir => 18
  | .enoent => 19
  | .eexist => 22
  | .ebusy => 27
  | .enfile => 29
  | .ebadf => 30
  | .eio => 32
  | .espipe => 33
  | .enospc => 36
  | .efbig => 38

/-- 失敗して user に戻る。 -/
def Trapframe.fail (tf : Trapframe) (err : Errno) : Trapframe :=
  { tf with v0 := err.code, a3 := 1, epc := tf.epc + 4 }

/-- 成功して user に戻る。 -/
def Trapframe.succeed (tf : Trapframe) (retval : Int32) : Trapframe :=
  { tf with v0 := retval.toUInt32, a3 := 0, epc := tf.epc + 4 }

/-- 二つの register を並べた `off_t`。 -/
def packOffset (hi lo : UInt32) : Int64 := (hi.toUInt64 <<< 32 ||| lo.toUInt64).toInt64

/-- `syscall` の `SYS_lseek`。 -/
def syscallLseek (s : Files) (p : Nat) (vn : SeekVnode) (whence : Except Errno Int32)
    (tf : Trapframe) : Trapframe × Files :=
  match whence with
  | .error err => (tf.fail err, s)
  | .ok whence =>
    match s.sysLseek p vn tf.a0.toInt32.toInt (packOffset tf.a2 tf.a3).toInt whence with
    | (.error err, s) => (tf.fail err, s)
    | (.ok retval, s) =>
      let ret := retval.toInt64
      ({ tf with v1 := ret.toUInt64.toUInt32 }.succeed (ret >>> 32).toInt32, s)

end Os161
