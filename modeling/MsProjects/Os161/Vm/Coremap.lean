import MsProjects.Os161.Arch

/-!
# coremap

`kern/vm/coremap.c` と、`kern/vm/vm.c` のうち coremap だけを触る関数。
-/

namespace Os161

/-- `struct cm_entry`。 -/
structure CmEntry where
  chunkCnt : BitVec 17
  isKernPage : Bool
  isAllocated : Bool
  deriving DecidableEq, Repr

/-- `init_coremap` と `removefromcoremap` が書く値。 -/
def CmEntry.free : CmEntry := { chunkCnt := 0, isKernPage := false, isAllocated := false }

/-- `coremap_bootstrap` が決める `freespace` と `cm_entries`。 -/
structure CmLayout where
  freespace : Paddr
  cmEntries : Nat
  aligned : PageAligned freespace
  pos : 0 < freespace.toNat
  fits : freespace.toNat + cmEntries * 4096 ≤ 508 * 1024 * 1024

/-- coremap の全体。 -/
structure Coremap extends CmLayout where
  entry : Nat → CmEntry

namespace Coremap

def initCoremap (l : CmLayout) (mem : Nat → CmEntry) : Coremap :=
  { l with entry := fun i => if i < l.cmEntries then CmEntry.free else mem i }

def getindex (cm : Coremap) (paddr : Paddr) : Nat := ((paddr - cm.freespace) / pageSize).toNat

def indextopaddr (cm : Coremap) (index : Nat) : Paddr :=
  UInt32.ofNat index * pageSize + cm.freespace

/-- `addtocoremap` の loop。 -/
def addLoop (e : CmEntry) : Nat → Nat → (Nat → CmEntry) → Nat → CmEntry
  | 0, _, m => m
  | n + 1, index, m => addLoop e n (index + 1) (Function.update m index e)

def addtocoremap (cm : Coremap) (paddr : Paddr) (npages : Int) (iskern : Bool) : Coremap :=
  { cm with
    entry := addLoop
      { chunkCnt := BitVec.ofInt 17 npages, isKernPage := iskern, isAllocated := true }
      npages.toNat (cm.getindex paddr) cm.entry }

/-- `removefromcoremap` の loop。 -/
def removeLoop (m : Nat → CmEntry) (index i : Nat) : Nat → CmEntry :=
  if i < (m index).chunkCnt.toNat then
    removeLoop (Function.update m index CmEntry.free) (index + 1) (i + 1)
  else m
termination_by 2 ^ 17 - i
decreasing_by
  have := (m index).chunkCnt.isLt
  omega

def removefromcoremap (cm : Coremap) (paddr : Paddr) : Coremap :=
  { cm with entry := removeLoop cm.entry (cm.getindex paddr) 0 }

/-- `getpaddr` の loop。 -/
def getpaddrLoop (cm : Coremap) (npages : Int) : Nat → Nat → Nat → Paddr
  | 0, _, _ => 0
  | rest + 1, i, count =>
    if (cm.entry i).isAllocated = false then
      if ((count + 1 : Nat) : Int) = npages then cm.indextopaddr (i + 1 - (count + 1))
      else getpaddrLoop cm npages rest (i + 1) (count + 1)
    else getpaddrLoop cm npages rest (i + 1) 0

def getpaddr (cm : Coremap) (npages : Int) : Paddr := cm.getpaddrLoop npages cm.cmEntries 0 0

def allocKpages (cm : Coremap) (npages : Int) : Vaddr × Coremap :=
  let paddr := cm.getpaddr npages
  if paddr = 0 ∨ npages = 0 then (0, cm)
  else (paddrToKvaddr paddr, cm.addtocoremap paddr npages true)

/-- user の page を一枚取る。 -/
def allocUpage (cm : Coremap) : Option (Paddr × Coremap) :=
  let paddr := cm.getpaddr 1
  if paddr = 0 then none else some (paddr, cm.addtocoremap paddr 1 false)

def pageFree (cm : Coremap) (paddr : Paddr) : Coremap := cm.removefromcoremap paddr

def freeKpages (cm : Coremap) (vaddr : Vaddr) : Coremap :=
  cm.removefromcoremap (kvaddrToPaddr vaddr)

end Coremap

/-! ## boot 時の割り付け -/

def roundUp (numToRound multiple : UInt32) : UInt32 :=
  (numToRound + multiple - 1) &&& ~~~(multiple - 1)

/-- `coremap_bootstrap` のうち `freespace` の計算。 -/
def bootFreespace (first last : Paddr) : Paddr :=
  let totalPages := (last - first) / pageSize
  let coremapSize := roundUp (totalPages * 4) pageSize
  let first := first + coremapSize
  if first % pageSize ≠ 0 then (first &&& pageFrame) + pageSize else first

/-- `coremap_bootstrap` のうち `cm_entries` の計算。 -/
def bootCmEntries (first last : Paddr) : UInt32 :=
  last / pageSize - bootFreespace first last / pageSize

end Os161
