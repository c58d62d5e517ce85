import MsProjects.Os161.Syscall.Io

/-!
# sys_execv の引数

`kern/syscall/process_syscalls.c` の `sys_execv` が、user の `argv` を kernel に写し、新しい stack に並べるときに
使う配列の添字。
-/

namespace Os161

abbrev argMax : Nat := 65536

/-- `kargv` の要素の数。 -/
abbrev kargvSize : Nat := 512

/-- NUL を含む長さを 4 の倍数に切り上げる。 -/
def paddedLen (strlen : Nat) : Nat :=
  let len := strlen + 1
  if 4 < len then
    if len % 4 = 1 then len + 3
    else if len % 4 = 2 then len + 2
    else if len % 4 = 3 then len + 1
    else len
  else 4

/-- user の番地にある語。 -/
def UserMem.word (m : UserMem) (addr : Vaddr) : Option UInt32 :=
  if addr.toNat % 4 = 0 ∧ m.readable addr = true then
    some ((m.byte addr).toUInt32 <<< 24 ||| (m.byte (addr + 1)).toUInt32 <<< 16 |||
      (m.byte (addr + 2)).toUInt32 <<< 8 ||| (m.byte (addr + 3)).toUInt32)
  else none

/-- `sys_execv` が使う添字。 -/
inductive ArgIndex where
  | kargv (i : Nat)
  /-- `kargv[k]` の指す buffer。 -/
  | buffer (k i : Nat)
  | argvptr (i : Nat)
  deriving DecidableEq, Repr

/-- 添字が配列の中にある。 -/
def ArgIndex.InBounds (kbufsize : Nat) : ArgIndex → Prop
  | .kargv i => i < kargvSize
  | .buffer _ i => i < nameMax.toNat
  | .argvptr i => i < kbufsize

/-! ## kernel への写し -/

/-- 一つの引数を写すときの添字。 -/
def copyIndices (argc : Nat) (written : List UInt8) : List ArgIndex :=
  .kargv argc :: (List.range written.length).map (.buffer argc)

/-- 引数を写す loop。 -/
def copyArgs (m : UserMem) (argv : Vaddr) :
    Nat → Nat → Option (Except Errno (List (List UInt8)) × List ArgIndex)
  | _, 0 => some (.error .e2big, [])
  | argc, fuel + 1 =>
    match m.word (argv + 4 * UInt32.ofNat argc) with
    | none => none
    | some ptr =>
      if ptr = 0 then some (.ok [], [.kargv argc])
      else
        match copyinstr m ptr nameMax with
        | (.error err, written) => some (.error err, copyIndices argc written)
        | (.ok _, written) =>
          match copyArgs m argv (argc + 1) fuel with
          | none => none
          | some (.error err, used) => some (.error err, copyIndices argc written ++ used)
          | some (.ok args, used) => some (.ok (written :: args), copyIndices argc written ++ used)

/-! ## stack への写し -/

/-- 一つの引数を stack に写すときの添字。 -/
def pushOneIndices (i : Nat) (arg : List UInt8) : List ArgIndex :=
  .kargv i :: (List.range arg.length).map (.buffer i) ++
    .argvptr i :: (List.range (paddedLen (arg.length - 1))).map (.buffer i)

/-- 引数を後ろから stack に写す loop。 -/
def pushIndices : Nat → List (List UInt8) → List ArgIndex
  | _, [] => []
  | i, arg :: args => pushIndices (i + 1) args ++ pushOneIndices i arg

/-- stack に写し、`argvptr` を閉じ、buffer を返し、`argvptr` を写す。 -/
def stackIndices (args : List (List UInt8)) : List ArgIndex :=
  pushIndices 0 args ++ [.argvptr args.length] ++ (List.range args.length).map .kargv ++
    (List.range (args.length + 1)).map .argvptr

/-! ## sys_execv -/

/-- `sys_execv` が呼ぶ関数の結果。 -/
structure ExecvEnv where
  /-- 検査の `kmalloc`。 -/
  kmalloc : Bool
  /-- `progname` の `copyinstr` と `vfs_open`。 -/
  opened : Except Errno Unit
  /-- `as_create`、`load_elf`、`as_define_stack`。 -/
  loaded : Except Errno Unit

/-- `sys_execv` が受け付けた引数と、使った添字。 -/
def sysExecv (m : UserMem) (argv : Vaddr) (env : ExecvEnv) :
    Option (Except Errno (List (List UInt8)) × List ArgIndex) :=
  if argv = 0 then some (.error .efault, [])
  else
    match (probe env.kmalloc m argv).1, env.opened with
    | .error err, _ => some (.error err, [])
    | .ok _, .error err => some (.error err, [])
    | .ok _, .ok () =>
      match copyArgs m argv 0 argMax, env.loaded with
      | none, _ => none
      | some (.error err, used), _ => some (.error err, used)
      | some (.ok _, used), .error err => some (.error err, used)
      | some (.ok args, used), .ok () => some (.ok args, used ++ stackIndices args)

end Os161
