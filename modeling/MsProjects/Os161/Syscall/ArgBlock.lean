import MsProjects.Os161.Syscall.Argv

/-!
# 新しい stack に並べる引数

`kern/syscall/process_syscalls.c` の `sys_execv` と `kern/syscall/runprogram.c` の `runprogram` のうち、引数を新しい
stack に写すところ。
-/

namespace Os161

/-- kernel の buffer にある引数。 -/
structure Arg where
  str : List UInt8
  stale : Nat → UInt8
  nonzero : ∀ b ∈ str, b ≠ 0

/-- 引数に使う stack の長さ。 -/
def Arg.len (a : Arg) : Nat := paddedLen a.str.length

/-- 引数として写される byte。 -/
def Arg.bytes (a : Arg) : List UInt8 :=
  a.str ++ 0 :: (List.range (a.len - (a.str.length + 1))).map a.stale

/-- user の memory の byte。 -/
abbrev UserBytes := Vaddr → UInt8

/-- 引数を後ろから置く loop。 -/
def pushArgs (avail : Nat → Vaddr → Bool) : List Arg → UserBytes → List Vaddr × Vaddr × UserBytes
  | [], m => ([], userstack, m)
  | a :: args, m =>
    let (argvptr, stackptr, m) := pushArgs avail args m
    let stackptr := stackptr - UInt32.ofNat a.len
    (stackptr :: argvptr, stackptr, (copyout ⟨m, avail args.length⟩ a.bytes stackptr).2.byte)

/-- big endian の語。 -/
def wordBytes (w : UInt32) : List UInt8 :=
  [(w >>> 24).toUInt8, (w >>> 16).toUInt8, (w >>> 8).toUInt8, w.toUInt8]

/-- 引数と番地の並びを置く。 -/
def buildArgs (avail : Nat → Vaddr → Bool) (args : List Arg) (m : UserBytes) : Vaddr × UserBytes :=
  let (argvptr, stackptr, m) := pushArgs avail args m
  let stackptr := stackptr - UInt32.ofNat (4 * args.length * 4)
  (stackptr, (copyout ⟨m, avail args.length⟩ ((argvptr ++ [0]).flatMap wordBytes) stackptr).2.byte)

/-- `sys_execv`。 -/
def sysExecvArgs := buildArgs

/-- `runprogram`。 -/
def runprogramArgs := buildArgs

end Os161
