import MsProjects.Os161.Vm.AddrSpace

/-!
# sbrk

`kern/vm/vm.c` の `page_alloc` と `sys_sbrk`。
-/

namespace Os161

def pageAlloc : Nat → Vaddr → Cur → Option (Bool × Cur)
  | 0, _, c => some (true, c)
  | n + 1, vaddr, c =>
    match c.mem.allocUpage with
    | none => some (false, c)
    | some (paddr, mem) =>
      match addPageEntry { c with mem := mem } ⟨vaddr, paddr, true, true, false⟩ with
      | none => none
      | some c =>
        pageAlloc n (vaddr + pageSize) { c with as := { c.as with heapNPages := c.as.heapNPages + 1 } }

/-- `sys_sbrk` が足す page の数。 -/
def sbrkNPages (as : AddrSpace) : Int :=
  let npages := (as.vbreaktop - (as.vbreakbase + as.heapNPages * pageSize)).toInt32.toInt
  if npages.tmod 4096 = 0 then npages.tdiv 4096 else npages.tdiv 4096 + 1

/-- `sys_sbrk` が page を足し始める番地。 -/
def sbrkStart (vaddr : Vaddr) : Vaddr :=
  if vaddr % pageSize = 0 then vaddr else (vaddr &&& pageFrame) + pageSize

def sysSbrk (amount : Int32) (c : Cur) : Option (Except Errno Vaddr × Cur) :=
  let vaddr := c.as.vbreaktop
  let as := { c.as with vbreaktop := vaddr + amount.toUInt32 }
  if stackBase - 4096 ≤ as.vbreaktop then some (.error .enomem, { c with as := as })
  else if as.vbreaktop < as.vbreakbase then some (.error .einval, c)
  else if as.heapNPages * pageSize ≤ as.vbreaktop - as.vbreakbase then
    match pageAlloc (sbrkNPages as).toNat (sbrkStart vaddr) { c with as := as } with
    | none => none
    | some (false, c) => some (.error .enomem, c)
    | some (true, c) => some (.ok vaddr, c)
  else some (.ok vaddr, { c with as := as })

end Os161
