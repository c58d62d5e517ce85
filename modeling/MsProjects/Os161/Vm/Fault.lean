import MsProjects.Os161.Vm.AddrSpace

/-!
# TLB と vm_fault

`kern/arch/mips/include/tlb.h` の TLB と、`kern/vm/addrspace.c` の `vm_fault`、`as_activate`。
-/

namespace Os161

abbrev numTlb : Nat := 64

abbrev tlbloDirty : UInt32 := 0x400

abbrev tlbloValid : UInt32 := 0x200

/-- TLB の一つの枠。 -/
structure TlbEntry where
  ehi : UInt32
  elo : UInt32
  deriving DecidableEq, Repr

namespace TlbEntry

/-- 有効な枠である。 -/
def valid (x : TlbEntry) : Bool := x.elo &&& tlbloValid != 0

/-- 書き込みを許す枠である。 -/
def dirty (x : TlbEntry) : Bool := x.elo &&& tlbloDirty != 0

/-- `TLBHI_VPAGE` の部分。 -/
def vpage (x : TlbEntry) : Vaddr := x.ehi &&& pageFrame

/-- `TLBLO_PPAGE` の部分。 -/
def ppage (x : TlbEntry) : Paddr := x.elo &&& pageFrame

end TlbEntry

/-- TLB の全体。 -/
abbrev Tlb := Fin numTlb → TlbEntry

namespace Tlb

/-- `TLBHI_INVALID(i)` と `TLBLO_INVALID()`。 -/
def flushed : Tlb := fun i => ⟨(0x80000 + UInt32.ofNat i) <<< 12, 0⟩

/-- `vm_fault` が書き込む枠。 -/
def slot (tlb : Tlb) (random : Fin numTlb) : Fin numTlb :=
  ((List.finRange numTlb).find? fun i => !(tlb i).valid).getD random

/-- `vm_fault` の後半。 -/
def install (tlb : Tlb) (faultaddress : Vaddr) (paddr : Paddr) (random : Fin numTlb) : Tlb :=
  Function.update tlb (tlb.slot random) ⟨faultaddress, paddr ||| tlbloDirty ||| tlbloValid⟩

end Tlb

/-- `vm_fault` の `faulttype`。 -/
inductive FaultType where
  | read | write | readonly | other
  deriving DecidableEq, Repr

/-- `vm_fault` の前半。 -/
def faultFrame (faulttype : FaultType) (page : Vaddr) (c : Cur) :
    Option (Except Errno Paddr × Cur) :=
  if userstack ≤ page ∨ page < c.as.vstart then some (.error .efault, c)
  else
    match faulttype, findEntry page c.as.tables with
    | .readonly, _ => some (.error .efault, c)
    | .read, some e => some (.ok e.pagePaddr, c)
    | .read, none => some (.error .efault, c)
    | .write, some e =>
      if e.isWrite then some (.ok e.pagePaddr, c) else some (.error .efault, c)
    | .write, none =>
      if stackBase ≤ page ∧ page < userstack then
        match c.mem.allocUpage with
        | none => some (.error .enomem, c)
        | some (paddr, mem) =>
          match addPageEntry { c with mem := mem } ⟨page, paddr, true, true, false⟩ with
          | none => none
          | some c => some (.ok paddr, { c with mem := c.mem.asZeroRegion paddr })
      else some (.error .efault, c)
    | .other, _ => some (.error .einval, c)

/-- 一つの CPU。 -/
structure Cpu extends Cur where
  tlb : Tlb

def vmFault (faulttype : FaultType) (faultaddress : Vaddr) (random : Fin numTlb) (s : Cpu) :
    Option (Except Errno Unit × Cpu) :=
  let faultaddress := faultaddress &&& pageFrame
  match faultFrame faulttype faultaddress s.toCur with
  | none => none
  | some (.error e, c) => some (.error e, { s with toCur := c })
  | some (.ok paddr, c) =>
    some (.ok (), { toCur := c, tlb := s.tlb.install faultaddress paddr random })

end Os161
