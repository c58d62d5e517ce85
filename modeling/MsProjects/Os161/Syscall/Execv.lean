import MsProjects.Os161.Syscall.ArgBlock
import MsProjects.Os161.Syscall.Loading

/-!
# sys_execv の全体

`kern/syscall/process_syscalls.c` の `sys_execv`。引数は、読み込んだ address space に `copyout` で置く。
-/

namespace Os161

namespace Cpu

/-- 引数を後ろから置く loop。 -/
def pushArgs (random : Nat → Nat → Fin numTlb) : List Arg → Cpu → Option (List Vaddr × Vaddr × Cpu)
  | [], s => some ([], userstack, s)
  | a :: args, s =>
    match pushArgs random args s with
    | none => none
    | some (argvptr, stackptr, s) =>
      let stackptr := stackptr - UInt32.ofNat a.len
      match s.copyout (random args.length) a.bytes stackptr with
      | none => none
      | some (_, s) => some (stackptr :: argvptr, stackptr, s)

/-- 引数と番地の並びを置く。 -/
def buildArgs (random : Nat → Nat → Fin numTlb) (args : List Arg) (s : Cpu) : Option (Vaddr × Cpu) :=
  match pushArgs random args s with
  | none => none
  | some (argvptr, stackptr, s) =>
    let stackptr := stackptr - UInt32.ofNat (4 * args.length * 4)
    match s.copyout (random args.length) ((argvptr ++ [0]).flatMap wordBytes) stackptr with
    | none => none
    | some (_, s) => some (stackptr, s)

end Cpu

theorem nonzero_of_mem_takeWhile {buf : List UInt8} {b : UInt8} (h : b ∈ buf.takeWhile (· != 0)) : b ≠ 0 := by
  simpa using List.mem_takeWhile_imp h

/-- `kargv[i]` の buffer。 -/
def Arg.ofBuffer (stale : Nat → UInt8) (buf : List UInt8) : Arg :=
  ⟨buf.takeWhile (· != 0), stale, fun _ => nonzero_of_mem_takeWhile⟩

/-- `sys_execv` の呼び出し。 -/
structure ExecvCall where
  user : UserMem
  argv : Vaddr
  kmalloc : Bool
  opened : Except Errno Vnode
  /-- 引数の buffer の、写していない byte。 -/
  stale : Nat → Nat → UInt8
  loadRandom : Nat → Nat → Fin numTlb
  argRandom : Nat → Nat → Fin numTlb
  oldaddr : AddrSpace
  mem : Mem
  tlb : Tlb

namespace ExecvCall

def args (c : ExecvCall) (bufs : List (List UInt8)) : List Arg :=
  bufs.mapIdx fun i => .ofBuffer (c.stale i)

/-- `load_elf` の後の `sys_execv`。 -/
def enter (c : ExecvCall) (bufs : List (List UInt8)) (entrypoint : Vaddr) (t : Curthread) :
    Option (Except Errno (Vaddr × Vaddr) × Curthread) :=
  match t.tAddrspace with
  | none => none
  | some as =>
    match Cpu.buildArgs c.argRandom (c.args bufs) ⟨⟨t.mem, as⟩, t.tlb⟩ with
    | none => none
    | some (stackptr, s) => some (.ok (entrypoint, stackptr), ⟨s.mem, some s.as, s.tlb⟩)

/-- 入口と stack、または失敗。 -/
def run (c : ExecvCall) : Option (Except Errno (Vaddr × Vaddr) × Curthread) :=
  let fail (err : Errno) := some (.error err, ⟨c.mem, some c.oldaddr, c.tlb⟩)
  if c.argv = 0 then fail .efault
  else
    match (probe c.kmalloc c.user c.argv).1, c.opened with
    | .error err, _ => fail err
    | .ok _, .error err => fail err
    | .ok _, .ok vn =>
      match copyArgs c.user c.argv 0 argMax with
      | none => none
      | some (.error err, _) => fail err
      | some (.ok bufs, _) =>
        match sysExecvLoad vn c.loadRandom c.oldaddr c.mem c.tlb with
        | none => none
        | some (.error err, t) => some (.error err, t)
        | some (.ok entrypoint, t) => c.enter bufs entrypoint t

end ExecvCall

end Os161
