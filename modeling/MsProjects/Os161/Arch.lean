import Mathlib.Data.UInt
import Mathlib.Tactic.IntervalCases

/-!
# MIPS の番地と errno

`kern/arch/mips/include/vm.h`、`kern/include/addrspace.h`、`kern/include/kern/errno.h` の定数。
-/

namespace Os161

/-- 仮想番地 `vaddr_t`。 -/
abbrev Vaddr := UInt32

/-- 物理番地 `paddr_t`。 -/
abbrev Paddr := UInt32

abbrev pageSize : UInt32 := 4096

/-- `PAGE_FRAME`。 -/
abbrev pageFrame : UInt32 := 0xfffff000

/-- `MIPS_KSEG0`。 -/
abbrev mipsKseg0 : UInt32 := 0x80000000

/-- `USERSPACETOP`。 -/
abbrev userspacetop : UInt32 := mipsKseg0

/-- `USERSTACK`。 -/
abbrev userstack : UInt32 := userspacetop

/-- `STACK_BASE`。 -/
abbrev stackBase : UInt32 := 0x7ff00000

def paddrToKvaddr (paddr : Paddr) : Vaddr := paddr + mipsKseg0

def kvaddrToPaddr (vaddr : Vaddr) : Paddr := vaddr - mipsKseg0

@[simp] theorem kvaddrToPaddr_paddrToKvaddr (p : Paddr) : kvaddrToPaddr (paddrToKvaddr p) = p := by
  simp [kvaddrToPaddr, paddrToKvaddr]

@[simp] theorem toNat_pageSize : pageSize.toNat = 4096 := rfl

@[simp] theorem toNat_mipsKseg0 : mipsKseg0.toNat = 0x80000000 := rfl

/-- `int` の最大値。 -/
abbrev intMax : Int := 2147483647

/-- system call と VM が返す errno。 -/
inductive Errno where
  | enomem | efault | einval | eunimp | enoexec | eio
  | ebadf | enfile | enametoolong | enoent | eisdir
  | esrch | echild | enproc | emproc
  | enospc | efbig | eexist | ebusy
  | espipe | e2big
  deriving DecidableEq, Repr

/-! ## page への切り捨て -/

theorem toNat_and_pageFrame (x : UInt32) : (x &&& pageFrame).toNat = x.toNat / 4096 * 4096 := by
  have hbits : x.toBitVec &&& 0xfffff000#32 = (x.toBitVec >>> 12) <<< 12 := by
    ext i hi
    interval_cases i <;> simp
  have hdef : (x &&& pageFrame).toNat = (x.toBitVec &&& 0xfffff000#32).toNat := rfl
  rw [hdef, hbits]
  have hlt := x.toNat_lt
  simp only [BitVec.toNat_shiftLeft, BitVec.toNat_ushiftRight, UInt32.toNat_toBitVec,
    Nat.shiftLeft_eq, Nat.shiftRight_eq_div_pow]
  omega

/-- page の先頭を指すこと。 -/
def PageAligned (x : UInt32) : Prop := x.toNat % 4096 = 0

instance (x : UInt32) : Decidable (PageAligned x) := by
  unfold PageAligned; infer_instance

theorem and_pageFrame_of_aligned {x : UInt32} (h : PageAligned x) : x &&& pageFrame = x := by
  apply UInt32.toNat.inj
  rw [toNat_and_pageFrame]
  unfold PageAligned at h
  omega

theorem pageAligned_and_pageFrame (x : UInt32) : PageAligned (x &&& pageFrame) := by
  unfold PageAligned
  rw [toNat_and_pageFrame]
  omega

end Os161
