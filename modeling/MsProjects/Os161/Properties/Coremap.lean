import Mathlib.Data.List.Pairwise
import MsProjects.Infra.Run
import MsProjects.Os161.Vm.Coremap

/-!
# coremap の性質
-/

namespace Os161

open Infra List Function CmEntry Coremap

variable {i n : Nat} {paddr : Paddr} {c : Chunk} {s t : CmSys} {op : CmOp}

namespace Coremap

variable {cm : Coremap}

/-! ## 添字と物理番地 -/

section

variable (h : i ≤ cm.cmEntries)

include h

theorem toNat_indextopaddr : (cm.indextopaddr i).toNat = cm.freespace.toNat + i * 4096 := by
  have hfit := cm.fits
  have hpos := cm.pos
  unfold indextopaddr pageSize
  simp only [UInt32.toNat_add, UInt32.toNat_mul, UInt32.toNat_ofNat', UInt32.reduceToNat]
  omega

theorem getindex_indextopaddr : cm.getindex (cm.indextopaddr i) = i := by
  have hnat := toNat_indextopaddr h
  unfold getindex
  rw [UInt32.toNat_div, UInt32.toNat_sub_of_le]
  · rw [hnat]
    simp
  · rw [UInt32.le_iff_toNat_le, hnat]
    omega

theorem indextopaddr_ne_zero : cm.indextopaddr i ≠ 0 := by
  have hnat := toNat_indextopaddr h
  have hpos := cm.pos
  intro h0
  rw [h0] at hnat
  simp at hnat
  omega

theorem pageAligned_indextopaddr : PageAligned (cm.indextopaddr i) := by
  have hal := cm.aligned
  unfold PageAligned at hal ⊢
  rw [toNat_indextopaddr h]
  omega

theorem paddrToKvaddr_indextopaddr_ne_zero : paddrToKvaddr (cm.indextopaddr i) ≠ 0 := by
  have hnat := toNat_indextopaddr h
  have hfit := cm.fits
  intro h0
  have hz := congrArg UInt32.toNat h0
  simp only [paddrToKvaddr, UInt32.toNat_add, hnat] at hz
  simp at hz
  omega

end

/-! ## addtocoremap -/

theorem addLoop_apply (e : CmEntry) (n index : Nat) (m : Nat → CmEntry) (k : Nat) :
    addLoop e n index m k = if index ≤ k ∧ k < index + n then e else m k := by
  induction n generalizing index m with
  | zero =>
    rw [addLoop, if_neg (by omega)]
  | succ n ih =>
    rw [addLoop, ih]
    by_cases hk : k = index
    · subst hk
      rw [if_neg (by omega), if_pos (by omega), update_self]
    · rw [update_of_ne hk]
      by_cases hin : index + 1 ≤ k ∧ k < index + 1 + n
      · rw [if_pos hin, if_pos (by omega)]
      · rw [if_neg hin, if_neg (by omega)]

/-! ## removefromcoremap -/

/-- `removeLoop` が `index + d` まで届くこと。 -/
def Reaches (m : Nat → CmEntry) (index i d : Nat) : Prop :=
  ∀ j ≤ d, i + j < (m (index + j)).chunkCnt.toNat

theorem reaches_succ {m : Nat → CmEntry} {index d : Nat} (h0 : i < (m index).chunkCnt.toNat) :
    Reaches (update m index free) (index + 1) (i + 1) d ↔ Reaches m index i (d + 1) := by
  constructor
  · intro h j hj
    cases j with
    | zero => simpa using h0
    | succ j =>
      have := h j (by omega)
      rw [update_of_ne (by omega)] at this
      rw [show index + (j + 1) = index + 1 + j by omega]
      omega
  · intro h j hj
    have := h (j + 1) (by omega)
    rw [update_of_ne (by omega)]
    rw [show index + (j + 1) = index + 1 + j by omega] at this
    omega

theorem removeLoop_of_lt (m : Nat → CmEntry) (index i k : Nat) (h : k < index) :
    removeLoop m index i k = m k := by
  fun_induction removeLoop m index i with
  | case1 m index i _ ih => rw [ih (by omega), update_of_ne (by omega)]
  | case2 => rfl

theorem removeLoop_of_reach (m : Nat → CmEntry) (index i d : Nat) (h : Reaches m index i d) :
    removeLoop m index i (index + d) = free := by
  fun_induction removeLoop m index i generalizing d with
  | case1 m index i hlt ih =>
    cases d with
    | zero =>
      -- 先頭は今書いたばかりで、残りの loop は `index + 1` から先しか触らない
      rw [removeLoop_of_lt _ _ _ _ (by omega)]
      simp
    | succ d =>
      rw [show index + (d + 1) = index + 1 + d by omega]
      exact ih d ((reaches_succ hlt).mpr h)
  | case2 m index i hge =>
    exact absurd (h 0 (by omega)) (by simpa using hge)

theorem removeLoop_of_not_reach (m : Nat → CmEntry) (index i d : Nat)
    (h : ¬ Reaches m index i d) : removeLoop m index i (index + d) = m (index + d) := by
  fun_induction removeLoop m index i generalizing d with
  | case1 m index i hlt ih =>
    cases d with
    | zero => exact absurd (fun j hj => by simpa [Nat.le_zero.mp hj] using hlt) h
    | succ d =>
      rw [show index + (d + 1) = index + 1 + d by omega]
      rw [ih d (fun hc => h ((reaches_succ hlt).mp hc)), update_of_ne (by omega)]
  | case2 => rfl

/-- `paddr` から始まる chunk の大きさ。 -/
def chunkLen (cm : Coremap) (paddr : Paddr) : Nat := (cm.entry (cm.getindex paddr)).chunkCnt.toNat

/-- `cm'` は `paddr` の chunk だけを空きにしたものである。 -/
def ClearsChunk (cm cm' : Coremap) (paddr : Paddr) : Prop :=
  ∀ k, cm'.entry k =
    if cm.getindex paddr ≤ k ∧ k < cm.getindex paddr + cm.chunkLen paddr then free
    else cm.entry k

/-- chunk の直後の要素の `chunk_cnt` が、chunk の大きさ以下である。 -/
def NextFits (cm : Coremap) (paddr : Paddr) : Prop :=
  (cm.entry (cm.getindex paddr + cm.chunkLen paddr)).chunkCnt.toNat ≤ cm.chunkLen paddr

/-- chunk の全要素が同じ `chunk_cnt` を持つ。 -/
def UniformChunk (cm : Coremap) (paddr : Paddr) : Prop :=
  ∀ j < cm.chunkLen paddr, (cm.entry (cm.getindex paddr + j)).chunkCnt.toNat = cm.chunkLen paddr

theorem UniformChunk.reaches (hu : cm.UniformChunk paddr) {d : Nat} (hd : d < cm.chunkLen paddr) :
    Reaches cm.entry (cm.getindex paddr) 0 d := by
  intro j hj
  have := hu j (by omega)
  omega

theorem clearsChunk_removefromcoremap_iff (hu : cm.UniformChunk paddr) :
    cm.ClearsChunk (cm.removefromcoremap paddr) paddr ↔ cm.NextFits paddr := by
  constructor
  · intro h
    by_contra hbig
    unfold NextFits at hbig
    have hreach : Reaches cm.entry (cm.getindex paddr) 0 (cm.chunkLen paddr) := by
      intro j hj
      rcases Nat.lt_or_eq_of_le hj with hlt | rfl
      · exact hu.reaches hlt j le_rfl
      · omega
    have hfree := removeLoop_of_reach _ _ _ _ hreach
    have hkeep := h (cm.getindex paddr + cm.chunkLen paddr)
    rw [if_neg (by omega)] at hkeep
    have hzero : cm.entry (cm.getindex paddr + cm.chunkLen paddr) = free := hkeep.symm.trans hfree
    rw [hzero] at hbig
    exact hbig (by simp [free])
  · intro hfit k
    by_cases hlt : k < cm.getindex paddr
    · rw [if_neg (by omega)]
      exact removeLoop_of_lt _ _ _ _ hlt
    · obtain ⟨d, rfl⟩ := Nat.exists_eq_add_of_le (Nat.not_lt.mp hlt)
      by_cases hd : d < cm.chunkLen paddr
      · rw [if_pos (by omega)]
        exact removeLoop_of_reach _ _ _ _ (hu.reaches hd)
      · rw [if_neg (by omega)]
        refine removeLoop_of_not_reach _ _ _ _ ?_
        -- chunk の直後で止まるので、その先へは届かない
        intro hreach
        have := hreach (cm.chunkLen paddr) (by omega)
        unfold NextFits at hfit
        omega

/-! ## getpaddr -/

/-- 添字 `i` から `n` 個の空きが coremap の中に並ぶ。 -/
def FreeRun (cm : Coremap) (i n : Nat) : Prop :=
  i + n ≤ cm.cmEntries ∧ ∀ k, i ≤ k → k < i + n → (cm.entry k).isAllocated = false

theorem getpaddrLoop_of_nonpos {npages : Int} (h : npages ≤ 0) (rest i count : Nat) :
    cm.getpaddrLoop npages rest i count = 0 := by
  induction rest generalizing i count with
  | zero => rfl
  | succ rest ih =>
    rw [getpaddrLoop]
    split
    · rw [if_neg (by omega)]
      exact ih _ _
    · exact ih _ _

theorem getpaddrLoop_cases (rest i count : Nat) (hi : i + rest = cm.cmEntries) (hci : count ≤ i)
    (hcn : count < n) (hfree : ∀ k, i - count ≤ k → k < i → (cm.entry k).isAllocated = false)
    (hmin : ∀ j, j < i - count → ¬ cm.FreeRun j n) :
    (∃ j, cm.FreeRun j n ∧ (∀ j' < j, ¬ cm.FreeRun j' n) ∧
        cm.getpaddrLoop n rest i count = cm.indextopaddr j) ∨
      ((∀ j, ¬ cm.FreeRun j n) ∧ cm.getpaddrLoop n rest i count = 0) := by
  induction rest generalizing i count with
  | zero =>
    right
    refine ⟨?_, rfl⟩
    intro j hj
    by_cases hlt : j < i - count
    · exact hmin j hlt hj
    · have := hj.1
      omega
  | succ rest ih =>
    rw [getpaddrLoop]
    by_cases ha : (cm.entry i).isAllocated = false
    · rw [if_pos ha]
      have hfree' : ∀ k, i - count ≤ k → k < i + 1 → (cm.entry k).isAllocated = false := by
        intro k h1 h2
        rcases Nat.lt_succ_iff_lt_or_eq.mp h2 with h | rfl
        · exact hfree k h1 h
        · exact ha
      by_cases hn : ((count + 1 : Nat) : Int) = n
      · rw [if_pos hn, show i + 1 - (count + 1) = i - count by omega]
        exact Or.inl ⟨i - count, ⟨by omega, fun k h1 h2 => hfree' k h1 (by omega)⟩, hmin, rfl⟩
      · rw [if_neg hn]
        refine ih (i + 1) (count + 1) (by omega) (by omega) (by omega) ?_ ?_
        · intro k h1 h2
          exact hfree' k (by omega) h2
        · intro j hj
          exact hmin j (by omega)
    · rw [if_neg ha]
      refine ih (i + 1) 0 (by omega) (by omega) (by omega) (by intro k h1 h2; omega) ?_
      intro j hj hrun
      -- `i` が使用中なので、`i` をまたぐ並びは無い
      by_cases hlt : j < i - count
      · exact hmin j hlt hrun
      · exact ha (hrun.2 i (by omega) (by omega))

theorem getpaddr_cases (cm : Coremap) (hn : 0 < n) :
    (∃ j, cm.FreeRun j n ∧ (∀ j' < j, ¬ cm.FreeRun j' n) ∧
        cm.getpaddr n = cm.indextopaddr j) ∨
      ((∀ j, ¬ cm.FreeRun j n) ∧ cm.getpaddr n = 0) :=
  getpaddrLoop_cases cm.cmEntries 0 0 (by omega) le_rfl hn
    (by intro k _ h; omega) (by intro j hj; omega)

theorem freeRun_of_getpaddr {npages : Int} (h : cm.getpaddr npages ≠ 0) :
    ∃ j, 0 < npages ∧ cm.FreeRun j npages.toNat ∧ cm.getpaddr npages = cm.indextopaddr j := by
  have hpos : 0 < npages := by
    by_contra hle
    exact h (getpaddrLoop_of_nonpos (by omega) _ _ _)
  obtain ⟨n, rfl⟩ := Int.eq_ofNat_of_zero_le (by omega : 0 ≤ npages)
  rcases cm.getpaddr_cases (n := n) (by omega) with ⟨j, hrun, _, he⟩ | ⟨_, he⟩
  · exact ⟨j, hpos, by simpa using hrun, he⟩
  · exact absurd he h

theorem allocKpages_cases (cm : Coremap) (npages : Int) :
    (cm.getpaddr npages = 0 ∧ cm.allocKpages npages = (0, cm)) ∨
      ∃ j, 0 < npages ∧ cm.FreeRun j npages.toNat ∧
        paddrToKvaddr (cm.indextopaddr j) ≠ 0 ∧
        cm.allocKpages npages = (paddrToKvaddr (cm.indextopaddr j),
          cm.addtocoremap (cm.indextopaddr j) npages true) := by
  by_cases h0 : cm.getpaddr npages = 0
  · exact Or.inl ⟨h0, by simp [allocKpages, h0]⟩
  · obtain ⟨j, hpos, hrun, hj⟩ := freeRun_of_getpaddr h0
    have hne : ¬ (cm.getpaddr npages = 0 ∨ npages = 0) := by
      rintro (h | h)
      · exact h0 h
      · omega
    refine Or.inr ⟨j, hpos, hrun, paddrToKvaddr_indextopaddr_ne_zero (by have := hrun.1; omega), ?_⟩
    rw [← hj]
    exact if_neg hne

theorem allocUpage_cases (cm : Coremap) :
    (cm.getpaddr 1 = 0 ∧ cm.allocUpage = none) ∨
      ∃ j, cm.FreeRun j 1 ∧
        cm.allocUpage = some (cm.indextopaddr j, cm.addtocoremap (cm.indextopaddr j) 1 false) := by
  by_cases h0 : cm.getpaddr 1 = 0
  · exact Or.inl ⟨h0, by simp [allocUpage, h0]⟩
  · obtain ⟨j, _, hrun, hj⟩ := freeRun_of_getpaddr h0
    exact Or.inr ⟨j, hrun, by rw [← hj]; exact if_neg h0⟩

theorem entry_addtocoremap (npages : Int) (iskern : Bool) (hi : i ≤ cm.cmEntries) (k : Nat) :
    (cm.addtocoremap (cm.indextopaddr i) npages iskern).entry k =
      if i ≤ k ∧ k < i + npages.toNat then
        { chunkCnt := BitVec.ofInt 17 npages, isKernPage := iskern, isAllocated := true }
      else cm.entry k := by
  simp only [addtocoremap, addLoop_apply, getindex_indextopaddr hi]

theorem FreeRun.toNat_chunkCnt (h : cm.FreeRun i n) : (BitVec.ofInt 17 n).toNat = n := by
  have hfit := cm.fits
  have hin := h.1
  rw [BitVec.ofInt_natCast, BitVec.toNat_ofNat]
  exact Nat.mod_eq_of_lt (by omega)

/-- `npages` 枚の空きの並びの先頭のうち、最も小さい添字。 -/
def LowestFit (cm : Coremap) (n j : Nat) : Prop := cm.FreeRun j n ∧ ∀ j' < j, ¬ cm.FreeRun j' n

theorem LowestFit.unique {j : Nat} (hi : cm.LowestFit n i) (hj : cm.LowestFit n j) : i = j := by
  rcases Nat.lt_trichotomy i j with h | h | h
  · exact absurd hi.1 (hj.2 i h)
  · exact h
  · exact absurd hj.1 (hi.2 j h)

/-- **`getpaddr` は first fit であり、`addtocoremap` はその並びだけに印を付ける。** -/
theorem getpaddr_first_fit (cm : Coremap) (npages : Int) (hn : 1 ≤ npages) (iskern : Bool) :
    (cm.getpaddr npages = 0 ↔ ∀ j, ¬ cm.FreeRun j npages.toNat) ∧
      ∀ j, cm.LowestFit npages.toNat j →
        cm.getpaddr npages = cm.indextopaddr j ∧
        (cm.getpaddr npages).toNat = cm.freespace.toNat + j * 4096 ∧
        ∀ k, (j ≤ k ∧ k < j + npages.toNat →
            ((cm.addtocoremap (cm.getpaddr npages) npages iskern).entry k).isAllocated = true ∧
            ((cm.addtocoremap (cm.getpaddr npages) npages iskern).entry k).isKernPage = iskern ∧
            (((cm.addtocoremap (cm.getpaddr npages) npages iskern).entry k).chunkCnt.toNat : Int)
              = npages) ∧
          (¬ (j ≤ k ∧ k < j + npages.toNat) →
            (cm.addtocoremap (cm.getpaddr npages) npages iskern).entry k = cm.entry k) := by
  obtain ⟨n, rfl⟩ := Int.eq_ofNat_of_zero_le (by omega : 0 ≤ npages)
  simp only [Int.toNat_natCast]
  rcases cm.getpaddr_cases (n := n) (by omega) with ⟨i, hrun, hleast, he⟩ | ⟨hnone, he⟩
  · have hle : i ≤ cm.cmEntries := by have := hrun.1; omega
    refine ⟨⟨fun h0 => absurd (he ▸ h0) (indextopaddr_ne_zero hle), fun hno => absurd hrun (hno i)⟩,
      ?_⟩
    intro j hj
    obtain rfl := LowestFit.unique ⟨hrun, hleast⟩ hj
    rw [he]
    refine ⟨rfl, toNat_indextopaddr hle, ?_⟩
    intro k
    rw [entry_addtocoremap _ _ hle, Int.toNat_natCast]
    refine ⟨fun hk => ?_, fun hk => if_neg hk⟩
    rw [if_pos hk]
    exact ⟨rfl, rfl, congrArg Nat.cast hrun.toNat_chunkCnt⟩
  · exact ⟨⟨fun _ => hnone, fun _ => he⟩, fun j hj => absurd hj.1 (hnone j)⟩

end Coremap

/-- 四枚だけを管理する coremap。 -/
def smallLayout : CmLayout where
  freespace := 0x40000
  cmEntries := 4
  aligned := by decide
  pos := by decide
  fits := by decide

/-- 先頭と三枚目が使用中の coremap では、二枚の並びは無く、一枚なら添字 1 が選ばれる。 -/
theorem getpaddr_first_fit_fragmented :
    ∃ cm : Coremap, cm.getpaddr 2 = 0 ∧ cm.getpaddr 1 = cm.indextopaddr 1 := by
  let cm : Coremap := { smallLayout with entry := fun i => { free with isAllocated := i % 2 == 0 } }
  have hused (i : Nat) : (cm.entry i).isAllocated = (i % 2 == 0) := rfl
  refine ⟨cm, (cm.getpaddr_first_fit 2 (by decide) true).1.mpr ?_,
    ((cm.getpaddr_first_fit 1 (by decide) true).2 1 ⟨⟨by decide, ?_⟩, ?_⟩).1⟩
  · rintro j ⟨-, hfree⟩
    have h1 := hfree j le_rfl (by simp)
    have h2 := hfree (j + 1) (by omega) (by simp)
    simp only [hused, beq_eq_false_iff_ne] at h1 h2
    omega
  · intro k h1 h2
    obtain rfl : k = 1 := by simp at h2; omega
    rfl
  · rintro j hj ⟨-, hfree⟩
    obtain rfl : j = 0 := by omega
    simpa [hused] using hfree 0 le_rfl (by decide)

/-! ## 生きている割り付け -/

structure Chunk where
  start : Nat
  len : Nat
  deriving DecidableEq, Repr

namespace Chunk

/-- 添字 `i` がこの割り付けに属する。 -/
def Covers (c : Chunk) (i : Nat) : Prop := c.start ≤ i ∧ i < c.start + c.len

/-- 二つの割り付けが page を共有しない。 -/
def Apart (c d : Chunk) : Prop := ∀ i, ¬ (c.Covers i ∧ d.Covers i)

instance : Std.Symm Apart := ⟨fun _ _ h i hi => h i hi.symm⟩

end Chunk

/-- coremap と、呼び出し側が持っている割り付けの一覧。 -/
structure CmSys where
  cm : Coremap
  live : List Chunk

inductive CmOp where
  | allocKpages (npages : Int)
  | allocUpage
  | freeKpages (vaddr : Vaddr)
  | pageFree (paddr : Paddr)

def CmOp.target : CmOp → Option Paddr
  | .freeKpages vaddr => some (kvaddrToPaddr vaddr)
  | .pageFree paddr => some paddr
  | _ => none

inductive CmStep : CmSys → CmOp → CmSys → Prop where
  | kallocFail {s : CmSys} {n : Int} : (s.cm.allocKpages n).1 = 0 →
      CmStep s (.allocKpages n) ⟨(s.cm.allocKpages n).2, s.live⟩
  | kalloc {s : CmSys} {n : Int} : (s.cm.allocKpages n).1 ≠ 0 →
      CmStep s (.allocKpages n)
        ⟨(s.cm.allocKpages n).2,
          ⟨s.cm.getindex (kvaddrToPaddr (s.cm.allocKpages n).1), n.toNat⟩ :: s.live⟩
  | uallocFail {s : CmSys} : s.cm.allocUpage = none → CmStep s .allocUpage s
  | ualloc {s : CmSys} {paddr : Paddr} {cm' : Coremap} : s.cm.allocUpage = some (paddr, cm') →
      CmStep s .allocUpage ⟨cm', ⟨s.cm.getindex paddr, 1⟩ :: s.live⟩
  | kfree {s : CmSys} {c : Chunk} : c ∈ s.live →
      CmStep s (.freeKpages (paddrToKvaddr (s.cm.indextopaddr c.start)))
        ⟨s.cm.freeKpages (paddrToKvaddr (s.cm.indextopaddr c.start)), s.live.erase c⟩
  | pfree {s : CmSys} {c : Chunk} : c ∈ s.live →
      CmStep s (.pageFree (s.cm.indextopaddr c.start))
        ⟨s.cm.pageFree (s.cm.indextopaddr c.start), s.live.erase c⟩

def CmSys.initial (l : CmLayout) (mem : Nat → CmEntry) : CmSys := ⟨initCoremap l mem, []⟩

/-- 生きている割り付けは互いに素で、使用中の印はちょうどそれらの要素に立つ。 -/
def CmSys.LiveExact (s : CmSys) : Prop :=
  s.live.Pairwise Chunk.Apart ∧
    ∀ i < s.cm.cmEntries, (s.cm.entry i).isAllocated = true ↔ ∃ c ∈ s.live, c.Covers i

structure CmInv (s : CmSys) : Prop where
  pos : ∀ c ∈ s.live, 0 < c.len
  bound : ∀ c ∈ s.live, c.start + c.len ≤ s.cm.cmEntries
  apart : s.live.Pairwise Chunk.Apart
  used : ∀ c ∈ s.live, ∀ i, c.Covers i →
    (s.cm.entry i).chunkCnt.toNat = c.len ∧ (s.cm.entry i).isAllocated = true
  unused : ∀ i < s.cm.cmEntries, (∀ c ∈ s.live, ¬ c.Covers i) → s.cm.entry i = free

namespace CmInv

variable {s : CmSys}

theorem liveExact (h : CmInv s) : s.LiveExact := by
  refine ⟨h.apart, ?_⟩
  intro i hi
  constructor
  · intro ha
    by_contra hnone
    rw [h.unused i hi fun c hc hcov => hnone ⟨c, hc, hcov⟩] at ha
    simp [free] at ha
  · rintro ⟨c, hc, hcov⟩
    exact (h.used c hc i hcov).2

theorem initial (l : CmLayout) (mem : Nat → CmEntry) : CmInv (CmSys.initial l mem) where
  pos := by simp [CmSys.initial]
  bound := by simp [CmSys.initial]
  apart := by simp [CmSys.initial]
  used := by simp [CmSys.initial]
  unused := by
    intro i hi _
    exact if_pos hi

theorem add (h : CmInv s) (iskern : Bool) {j : Nat} (hn : 0 < n) (hrun : s.cm.FreeRun j n) :
    CmInv ⟨s.cm.addtocoremap (s.cm.indextopaddr j) n iskern, ⟨j, n⟩ :: s.live⟩ := by
  have hj : j ≤ s.cm.cmEntries := by have := hrun.1; omega
  have hentry := entry_addtocoremap n iskern hj
  simp only [Int.toNat_natCast] at hentry
  -- 空きの並びは、生きているどの割り付けとも交わらない
  have hdis : ∀ c ∈ s.live, Chunk.Apart ⟨j, n⟩ c := by
    intro c hc i hi
    have hfree := hrun.2 i hi.1.1 hi.1.2
    rw [(h.used c hc i hi.2).2] at hfree
    simp at hfree
  refine ⟨?_, ?_, ?_, ?_, ?_⟩
  · intro c hc
    rcases mem_cons.mp hc with rfl | hc
    · exact hn
    · exact h.pos c hc
  · intro c hc
    rcases mem_cons.mp hc with rfl | hc
    · exact hrun.1
    · exact h.bound c hc
  · exact pairwise_cons.mpr ⟨hdis, h.apart⟩
  · intro c hc i hi
    rw [hentry]
    rcases mem_cons.mp hc with rfl | hc
    · rw [if_pos (show j ≤ i ∧ i < j + n from hi)]
      exact ⟨hrun.toNat_chunkCnt, rfl⟩
    · rw [if_neg (fun hcov : j ≤ i ∧ i < j + n => hdis c hc i ⟨hcov, hi⟩)]
      exact h.used c hc i hi
  · intro i hi hnone
    rw [hentry, if_neg (show ¬ (j ≤ i ∧ i < j + n) from hnone ⟨j, n⟩ (by simp))]
    exact h.unused i hi fun c hc => hnone c (by simp [hc])

theorem nodup (h : CmInv s) : s.live.Nodup := by
  refine h.apart.imp_of_mem ?_
  rintro c d hc _ hap rfl
  have hpos := h.pos c hc
  exact hap c.start ⟨⟨le_rfl, by omega⟩, ⟨le_rfl, by omega⟩⟩

theorem chunkLen_eq (h : CmInv s) (hc : c ∈ s.live) :
    s.cm.getindex (s.cm.indextopaddr c.start) = c.start ∧
      s.cm.chunkLen (s.cm.indextopaddr c.start) = c.len := by
  have hb := h.bound c hc
  have hpos := h.pos c hc
  have hidx := s.cm.getindex_indextopaddr (i := c.start) (by omega)
  refine ⟨hidx, ?_⟩
  unfold chunkLen
  rw [hidx]
  exact (h.used c hc c.start ⟨le_rfl, by omega⟩).1

theorem uniformChunk (h : CmInv s) (hc : c ∈ s.live) :
    s.cm.UniformChunk (s.cm.indextopaddr c.start) := by
  obtain ⟨hidx, hlen⟩ := h.chunkLen_eq hc
  intro j hj
  rw [hlen] at hj ⊢
  rw [hidx]
  exact (h.used c hc _ ⟨by omega, by omega⟩).1

theorem remove (h : CmInv s) (hc : c ∈ s.live) {cm' : Coremap}
    (hlay : cm'.toCmLayout = s.cm.toCmLayout)
    (hclear : s.cm.ClearsChunk cm' (s.cm.indextopaddr c.start)) : CmInv ⟨cm', s.live.erase c⟩ := by
  obtain ⟨hidx, hlen⟩ := h.chunkLen_eq hc
  have hentry : ∀ k, cm'.entry k = if c.start ≤ k ∧ k < c.start + c.len then free
      else s.cm.entry k := by
    intro k
    rw [hclear k, hidx, hlen]
  have hmem : ∀ d, d ∈ s.live.erase c → d ∈ s.live ∧ d ≠ c := by
    intro d hd
    have := (h.nodup.mem_erase_iff).mp hd
    exact ⟨this.2, this.1⟩
  -- 残る割り付けは `c` と交わらないので、消した要素を含まない
  have hout : ∀ d, d ∈ s.live.erase c → ∀ i, d.Covers i → ¬ c.Covers i := by
    intro d hd i hi hci
    obtain ⟨hdm, hne⟩ := hmem d hd
    exact h.apart.forall hdm hc hne i ⟨hi, hci⟩
  have hcm : cm'.cmEntries = s.cm.cmEntries := by rw [hlay]
  refine ⟨?_, ?_, ?_, ?_, ?_⟩
  · exact fun d hd => h.pos d (hmem d hd).1
  · intro d hd
    show d.start + d.len ≤ cm'.cmEntries
    rw [hcm]
    exact h.bound d (hmem d hd).1
  · exact h.apart.sublist erase_sublist
  · intro d hd i hi
    rw [hentry, if_neg (show ¬ (c.start ≤ i ∧ i < c.start + c.len) from hout d hd i hi)]
    exact h.used d (hmem d hd).1 i hi
  · intro i hi hnone
    rw [hentry]
    split
    · rfl
    · next hnc =>
      refine h.unused i (hcm ▸ hi) ?_
      intro d hd hdi
      by_cases hdc : d = c
      · exact hnc (hdc ▸ hdi)
      · exact hnone d ((h.nodup.mem_erase_iff).mpr ⟨hdc, hd⟩) hdi

end CmInv

/-! ## 操作の列 -/

/-- 操作の前の状態だけで決まる条件。 -/
def FreeFits (s : CmSys) (op : CmOp) : Prop := ∀ paddr, op.target = some paddr → s.cm.NextFits paddr

/-- 一回の操作が正しいこと。 -/
def CmExact (s : CmSys) (op : CmOp) (t : CmSys) : Prop :=
  t.LiveExact ∧ ∀ paddr, op.target = some paddr → s.cm.ClearsChunk t.cm paddr

theorem CmStep.inv (h : CmStep s op t) (hs : CmInv s)
    (hclear : ∀ paddr, op.target = some paddr → s.cm.ClearsChunk t.cm paddr) : CmInv t := by
  cases h with
  | @kallocFail n h0 =>
    rcases s.cm.allocKpages_cases n with ⟨_, he⟩ | ⟨j, _, _, hne, he⟩
    · rw [he]
      exact hs
    · rw [he] at h0
      exact absurd h0 hne
  | @kalloc n h0 =>
    rcases s.cm.allocKpages_cases n with ⟨_, he⟩ | ⟨j, hpos, hrun, _, he⟩
    · rw [he] at h0
      exact absurd rfl h0
    · have hj : j ≤ s.cm.cmEntries := by have := hrun.1; omega
      rw [he, kvaddrToPaddr_paddrToKvaddr, getindex_indextopaddr hj]
      have hadd := hs.add true (by omega) hrun
      rwa [Int.toNat_of_nonneg (by omega)] at hadd
  | uallocFail _ => exact hs
  | @ualloc paddr cm' he =>
    rcases s.cm.allocUpage_cases with ⟨_, hn⟩ | ⟨j, hrun, hj⟩
    · rw [hn] at he
      cases he
    · rw [hj] at he
      cases he
      rw [getindex_indextopaddr (by have := hrun.1; omega)]
      exact hs.add false Nat.one_pos hrun
  | @kfree c hc =>
    refine hs.remove hc rfl ?_
    have := hclear _ rfl
    rwa [kvaddrToPaddr_paddrToKvaddr] at this
  | @pfree c hc => exact hs.remove hc rfl (hclear _ rfl)

theorem CmStep.target_cases (h : CmStep s op t) (ht : op.target = some paddr) :
    ∃ c ∈ s.live, paddr = s.cm.indextopaddr c.start ∧ t.cm = s.cm.removefromcoremap paddr := by
  cases h with
  | kallocFail _ | kalloc _ | uallocFail _ | ualloc _ => simp [CmOp.target] at ht
  | @kfree c hc =>
    simp only [CmOp.target, Option.some.injEq, kvaddrToPaddr_paddrToKvaddr] at ht
    refine ⟨c, hc, ht.symm, ?_⟩
    simp only [freeKpages, kvaddrToPaddr_paddrToKvaddr, ht]
  | @pfree c hc =>
    simp only [CmOp.target, Option.some.injEq] at ht
    refine ⟨c, hc, ht.symm, ?_⟩
    simp only [pageFree, ht]

theorem CmStep.clears_iff (h : CmStep s op t) (hs : CmInv s) :
    (∀ paddr, op.target = some paddr → s.cm.ClearsChunk t.cm paddr) ↔ FreeFits s op := by
  refine forall_congr' fun paddr => forall_congr' fun ht => ?_
  obtain ⟨c, hc, rfl, he⟩ := h.target_cases ht
  rw [he]
  exact clearsChunk_removefromcoremap_iff (hs.uniformChunk hc)

/--
`init_coremap` から始まるどの操作の列でも、どの操作も正しい (`CmExact`) のは、どの解放でも chunk の直後の
`chunk_cnt` が chunk の大きさ以下である (`FreeFits`) ときに限る。
-/
theorem coremap_exact_iff (l : CmLayout) (mem : Nat → CmEntry) {u : CmSys}
    {tr : List (Transition CmSys CmOp)} (h : Run CmStep (CmSys.initial l mem) tr u) :
    (∀ x ∈ tr, CmExact x.pre x.label x.post) ↔ ∀ x ∈ tr, FreeFits x.pre x.label := by
  refine h.forall_iff ?_ ?_ (CmInv.initial l mem)
  · intro p a q hp hstep hfit
    have hclear := (hstep.clears_iff hp).mpr hfit
    have hq := hstep.inv hp hclear
    exact ⟨hq, hq.liveExact, hclear⟩
  · intro p a q hp hstep hfit hex
    exact hfit ((hstep.clears_iff hp).mp hex.2)

/-- 二枚と一枚を取り、一枚の方を返す列。 -/
theorem coremap_exact_iff_small :
    ∃ u tr, Run CmStep (CmSys.initial smallLayout fun _ => free) tr u ∧
      tr.length = 3 ∧ ∀ x ∈ tr, CmExact x.pre x.label x.post := by
  have hrun : Run CmStep (CmSys.initial smallLayout fun _ => free) _ _ :=
    .cons (.kalloc (n := 2) (by decide))
      (.cons (.ualloc (s := ⟨_, _⟩) rfl) (.cons (.pfree (c := ⟨2, 1⟩) (by decide)) (.nil _)))
  refine ⟨_, _, hrun, rfl, (coremap_exact_iff smallLayout _ hrun).mpr ?_⟩
  simp only [forall_mem_cons, not_mem_nil, false_implies, implies_true, and_true]
  refine ⟨by simp [FreeFits, CmOp.target], by simp [FreeFits, CmOp.target], ?_⟩
  intro paddr hp
  cases hp
  show Coremap.NextFits _ _
  unfold Coremap.NextFits
  decide

/-- 一枚と二枚を並べて取り、一枚の方を返すと、二枚の方の先頭まで空きになる。 -/
theorem coremap_free_overruns :
    ∃ u tr, Run CmStep (CmSys.initial smallLayout fun _ => free) tr u ∧ ¬ u.LiveExact := by
  have hrun : Run CmStep (CmSys.initial smallLayout fun _ => free) _ _ :=
    .cons (.kalloc (n := 1) (by decide))
      (.cons (.kalloc (n := 2) (by decide)) (.cons (.kfree (c := ⟨0, 1⟩) (by decide)) (.nil _)))
  refine ⟨_, _, hrun, ?_⟩
  intro h
  have hused := (h.2 1 (by decide)).mpr ⟨⟨1, 2⟩, by decide, by unfold Chunk.Covers; decide⟩
  have hfree : ∀ (m : Nat → CmEntry) (index : Nat), index = 0 → Coremap.Reaches m 0 0 1 →
      removeLoop m index 0 1 = free := by
    rintro m _ rfl hr
    exact removeLoop_of_reach m 0 0 1 hr
  simp only [freeKpages, removefromcoremap] at hused
  rw [hfree _ _ (by decide) (by unfold Coremap.Reaches; decide)] at hused
  simp [free] at hused

end Os161

