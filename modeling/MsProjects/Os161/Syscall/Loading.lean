import MsProjects.Os161.Syscall.LoadElf

/-!
# 新しい address space への読み込み

`kern/syscall/process_syscalls.c` の `sys_execv` と `kern/syscall/runprogram.c` の `runprogram` のうち、`as_create` から
`as_define_stack` まで。
-/

namespace Os161

/-- curthread から見える状態。 -/
structure Curthread where
  mem : Mem
  tAddrspace : Option AddrSpace
  tlb : Tlb

/-- `sys_execv`。 -/
def sysExecvLoad (v : Vnode) (random : Nat → Nat → Fin numTlb) (oldaddr : AddrSpace) (mem : Mem)
    (tlb : Tlb) :
    Option (Except Errno Vaddr × Curthread) :=
  match asCreate mem with
  | none => some (.error .enomem, ⟨mem, some oldaddr, tlb⟩)
  | some (temp, mem) =>
    match loadElf v random ⟨⟨mem, temp⟩, Tlb.flushed⟩ with
    | none => none
    | some (.error err, s) => some (.error err, ⟨asDestroy s.mem s.as, some oldaddr, s.tlb⟩)
    | some (.ok entrypoint, s) => some (.ok entrypoint, ⟨asDestroy s.mem oldaddr, some s.as, s.tlb⟩)

/-- `runprogram`。 -/
def runprogramLoad (v : Vnode) (random : Nat → Nat → Fin numTlb) (mem : Mem) (tlb : Tlb) :
    Option (Except Errno Vaddr × Curthread) :=
  match asCreate mem with
  | none => some (.error .enomem, ⟨mem, none, tlb⟩)
  | some (as, mem) =>
    match loadElf v random ⟨⟨mem, as⟩, Tlb.flushed⟩ with
    | none => none
    | some (r, s) => some (r, ⟨s.mem, some s.as, s.tlb⟩)

/-- `thread_exit` のうち address space を壊すところ。 -/
def threadExit (t : Curthread) : Curthread :=
  match t.tAddrspace with
  | none => t
  | some as => ⟨asDestroy t.mem as, none, Tlb.flushed⟩

end Os161
