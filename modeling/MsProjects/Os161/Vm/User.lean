import MsProjects.Os161.Vm.Fault

/-!
# user の load と store

user の命令が memory に触るときに MIPS がすることと、`kern/arch/mips/locore/trap.c` が
TLB の例外を `vm_fault` に渡すところ。
-/

namespace Os161

/-- page を訳す有効な枠。 -/
def Tlb.lookup (tlb : Tlb) (page : Vaddr) : Option (Fin numTlb) :=
  (List.finRange numTlb).find? fun i => (tlb i).valid && (tlb i).vpage == page

/-- page の中の位置。 -/
def pageOffset (addr : Vaddr) : Fin 4096 := ⟨addr.toNat % 4096, Nat.mod_lt _ (by decide)⟩

/-- frame の一 byte を書き換える。 -/
def Mem.writeByte (m : Mem) (paddr : Paddr) (offset : Fin 4096) (b : UInt8) : Mem :=
  m.writePage paddr (Function.update (m.page paddr) offset b)

/-- user の命令と、TLB の枠が失われること。 -/
inductive Access where
  | load (addr : Vaddr) (random : Fin numTlb)
  | store (addr : Vaddr) (b : UInt8) (random : Fin numTlb)
  | evict (i : Fin numTlb)

/-- 一回の命令。 -/
def Cpu.access (s : Cpu) : Access → Option (Except Errno Unit × Cpu)
  | .load addr random =>
    match s.tlb.lookup (addr &&& pageFrame) with
    | some _ => some (.ok (), s)
    | none => vmFault .read addr random s
  | .store addr b random =>
    match s.tlb.lookup (addr &&& pageFrame) with
    | some i =>
      if (s.tlb i).dirty then
        some (.ok (), { s with mem := s.mem.writeByte (s.tlb i).ppage (pageOffset addr) b })
      else vmFault .readonly addr random s
    | none => vmFault .write addr random s
  | .evict i => some (.ok (), { s with tlb := Function.update s.tlb i (Tlb.flushed i) })

/-! ## copyout -/

/-- `copyout` の `memcpy` が一 byte を書く。 -/
def Cpu.storeByte (s : Cpu) (addr : Vaddr) (b : UInt8) (random : Fin numTlb) :
    Option (Except Errno Unit × Cpu) :=
  match s.tlb.lookup (addr &&& pageFrame), s.access (.store addr b random) with
  | _, none => none
  | _, some (.error _, s) => some (.error .efault, s)
  | some _, some (.ok (), s) => some (.ok (), s)
  | none, some (.ok (), s) => s.access (.store addr b random)

/-- `memcpy((void *)userdest, src, len)`。 -/
def Cpu.copyBytes (random : Nat → Fin numTlb) :
    List UInt8 → Vaddr → Nat → Cpu → Option (Except Errno Unit × Cpu)
  | [], _, _, s => some (.ok (), s)
  | b :: src, addr, k, s =>
    match s.storeByte addr b (random k) with
    | some (.ok (), s) => copyBytes random src (addr + 1) (k + 1) s
    | r => r

def copycheck (userptr : Vaddr) (len : UInt32) : Bool :=
  let top := userptr + len - 1
  decide (userptr ≤ top ∧ top < userspacetop)

def Cpu.copyout (s : Cpu) (random : Nat → Fin numTlb) (src : List UInt8) (userdest : Vaddr) :
    Option (Except Errno Unit × Cpu) :=
  if copycheck userdest (UInt32.ofNat src.length) then Cpu.copyBytes random src userdest 0 s
  else some (.error .efault, s)

end Os161
