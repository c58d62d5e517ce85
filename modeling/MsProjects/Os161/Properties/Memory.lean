import MsProjects.Os161.Vm.AddrSpace
import MsProjects.Os161.Properties.Coremap

/-! # 物理 page の割り付け -/

namespace Os161

open List Function

namespace Coremap

variable {cm : Coremap}

/-- 添字 `j` の page が管理下にあって使用中である。 -/
def Used (cm : Coremap) (j : Nat) : Prop := j < cm.cmEntries ∧ (cm.entry j).isAllocated = true

def frees (cm : Coremap) : Nat :=
  ((Finset.range cm.cmEntries).filter fun j => (cm.entry j).isAllocated = false).card

theorem freeRun_one {j : Nat} :
    cm.FreeRun j 1 ↔ j < cm.cmEntries ∧ (cm.entry j).isAllocated = false := by
  constructor
  · rintro ⟨hb, hf⟩
    exact ⟨by omega, hf j le_rfl (by omega)⟩
  · rintro ⟨hb, hf⟩
    refine ⟨by omega, ?_⟩
    intro k h1 h2
    obtain rfl : k = j := by omega
    exact hf

theorem used_addtocoremap {j : Nat} {iskern : Bool} (hj : j < cm.cmEntries) {k : Nat} :
    (cm.addtocoremap (cm.indextopaddr j) 1 iskern).Used k ↔ cm.Used k ∨ k = j := by
  unfold Used
  rw [entry_addtocoremap 1 iskern (by omega)]
  show k < cm.cmEntries ∧ _ ↔ _
  by_cases hk : k = j
  · subst hk
    simp [hj]
  · rw [if_neg (by simp; omega)]
    simp [hk]

theorem chunkCnt_addtocoremap {j : Nat} {iskern : Bool} (hj : j < cm.cmEntries) {k : Nat}
    (hk : k ≠ j) : (cm.addtocoremap (cm.indextopaddr j) 1 iskern).entry k = cm.entry k := by
  rw [entry_addtocoremap 1 iskern (by omega), if_neg]
  rintro ⟨h1, h2⟩
  have : (1 : Int).toNat = 1 := rfl
  omega

theorem chunkCnt_addtocoremap_self {j : Nat} {iskern : Bool} (hj : j < cm.cmEntries) :
    ((cm.addtocoremap (cm.indextopaddr j) 1 iskern).entry j).chunkCnt = 1 := by
  rw [entry_addtocoremap 1 iskern (by omega), if_pos ⟨le_rfl, by simp⟩]
  rfl

theorem entry_removefromcoremap_of_single {i j : Nat} (hi : i ≤ cm.cmEntries) (hne : j ≠ i)
    (hj : (cm.entry j).chunkCnt = 1) :
    (cm.removefromcoremap (cm.indextopaddr i)).entry j = cm.entry j := by
  unfold removefromcoremap
  rw [getindex_indextopaddr hi]
  show removeLoop cm.entry i 0 j = _
  rcases Nat.lt_or_ge j i with hlt | hge
  · exact removeLoop_of_lt _ _ _ _ hlt
  · obtain ⟨d, rfl⟩ := Nat.exists_eq_add_of_le hge
    refine removeLoop_of_not_reach _ _ _ _ ?_
    intro hr
    have hd := hr d le_rfl
    rw [hj] at hd
    have h1 : (1 : BitVec 17).toNat = 1 := rfl
    omega

theorem frees_addtocoremap {j : Nat} {iskern : Bool} (hj : cm.FreeRun j 1) :
    (cm.addtocoremap (cm.indextopaddr j) 1 iskern).frees + 1 = cm.frees := by
  obtain ⟨hb, hf⟩ := freeRun_one.mp hj
  have hmem : j ∈ (Finset.range cm.cmEntries).filter
      fun k => (cm.entry k).isAllocated = false := by simp [hb, hf]
  have herase : (Finset.range cm.cmEntries).filter (fun k =>
        ((cm.addtocoremap (cm.indextopaddr j) 1 iskern).entry k).isAllocated = false)
      = ((Finset.range cm.cmEntries).filter fun k => (cm.entry k).isAllocated = false).erase j := by
    ext k
    rw [Finset.mem_filter, entry_addtocoremap 1 iskern (by omega)]
    by_cases hk : k = j
    · subst hk
      simp
    · rw [if_neg (by simp; omega)]
      simp [hk]
  have hcard := Finset.card_erase_of_mem hmem
  have hpos := Finset.card_pos.mpr ⟨j, hmem⟩
  show ((Finset.range cm.cmEntries).filter _).card + 1 = _
  rw [herase, hcard]
  unfold frees
  omega

theorem getpaddr_one_eq_zero_iff : cm.getpaddr 1 = 0 ↔ cm.frees = 0 := by
  have hfree : cm.frees = 0 ↔ ∀ j, ¬ cm.FreeRun j 1 := by
    unfold frees
    rw [Finset.card_eq_zero, Finset.filter_eq_empty_iff]
    simp [freeRun_one]
  rw [hfree]
  rcases cm.getpaddr_cases Nat.one_pos with ⟨j, hrun, _, he⟩ | ⟨hnone, he⟩
  · constructor
    · intro h0
      rw [show ((1 : Nat) : Int) = 1 from rfl] at he
      rw [he] at h0
      exact absurd h0 (indextopaddr_ne_zero (by have := hrun.1; omega))
    · intro hnone
      exact absurd hrun (hnone j)
  · exact ⟨fun _ => hnone, fun _ => he⟩

theorem indextopaddr_inj {i j : Nat} (hi : i ≤ cm.cmEntries) (hj : j ≤ cm.cmEntries)
    (h : cm.indextopaddr i = cm.indextopaddr j) : i = j := by
  rw [← getindex_indextopaddr hi, h, getindex_indextopaddr hj]

end Coremap

/-! ## 使用中の frame -/

/-- `paddr` は使用中の page の先頭番地である。 -/
def Mem.Allocated (m : Mem) (paddr : Paddr) : Prop := ∃ j, m.cm.Used j ∧ paddr = m.cm.indextopaddr j

/-- `paddr` は、一枚だけの chunk として使用中である。 -/
def Mem.Held (m : Mem) (paddr : Paddr) : Prop :=
  ∃ j, m.cm.Used j ∧ (m.cm.entry j).chunkCnt = 1 ∧ paddr = m.cm.indextopaddr j

theorem Mem.Held.allocated {m : Mem} {paddr : Paddr} (h : m.Held paddr) : m.Allocated paddr := by
  obtain ⟨j, hj, _, he⟩ := h
  exact ⟨j, hj, he⟩

theorem Mem.Allocated.aligned {m : Mem} {paddr : Paddr} (h : m.Allocated paddr) :
    PageAligned paddr := by
  obtain ⟨j, hj, rfl⟩ := h
  exact Coremap.pageAligned_indextopaddr (le_of_lt hj.1)

/-- 管理している page の数は、割り付けで変わらない。 -/
structure Mem.Takes (m : Mem) (paddr : Paddr) (m' : Mem) : Prop where
  fresh : ¬ m.Allocated paddr
  allocated : ∀ q, m'.Allocated q ↔ m.Allocated q ∨ q = paddr
  held : ∀ q, m.Held q ∨ q = paddr → m'.Held q
  frees : m'.cm.frees + 1 = m.cm.frees
  page : m'.page = m.page
  layout : m'.cm.toCmLayout = m.cm.toCmLayout
  ne_zero : paddr ≠ 0
  aligned : PageAligned paddr

theorem Mem.takes_of_freeRun {m m' : Mem} {j : Nat} {iskern : Bool} (hrun : m.cm.FreeRun j 1)
    (hcm : m'.cm = m.cm.addtocoremap (m.cm.indextopaddr j) 1 iskern) (hpage : m'.page = m.page) :
    m.Takes (m.cm.indextopaddr j) m' := by
  obtain ⟨hb, hf⟩ := Coremap.freeRun_one.mp hrun
  have hlay : m'.cm.toCmLayout = m.cm.toCmLayout := by rw [hcm]; rfl
  have hidx : ∀ k, m'.cm.indextopaddr k = m.cm.indextopaddr k := by
    intro k
    unfold Coremap.indextopaddr
    rw [hlay]
  refine ⟨?_, ?_, ?_, ?_, hpage, hlay, Coremap.indextopaddr_ne_zero (by omega),
    Coremap.pageAligned_indextopaddr (by omega)⟩
  · rintro ⟨k, hk, he⟩
    obtain rfl := Coremap.indextopaddr_inj (by omega) (le_of_lt hk.1) he
    rw [hk.2] at hf
    simp at hf
  · intro q
    constructor
    · rintro ⟨k, hk, rfl⟩
      rw [hcm, Coremap.used_addtocoremap hb] at hk
      rcases hk with hk | rfl
      · exact Or.inl ⟨k, hk, hidx k⟩
      · exact Or.inr (hidx k)
    · rintro (⟨k, hk, rfl⟩ | rfl)
      · exact ⟨k, by rw [hcm, Coremap.used_addtocoremap hb]; exact Or.inl hk, (hidx k).symm⟩
      · exact ⟨j, by rw [hcm, Coremap.used_addtocoremap hb]; exact Or.inr rfl, (hidx j).symm⟩
  · rintro q (⟨k, hk, hc, rfl⟩ | rfl)
    · have hne : k ≠ j := by
        rintro rfl
        rw [hk.2] at hf
        simp at hf
      refine ⟨k, ?_, ?_, (hidx k).symm⟩
      · rw [hcm, Coremap.used_addtocoremap hb]
        exact Or.inl hk
      · rw [hcm, Coremap.chunkCnt_addtocoremap hb hne, hc]
    · refine ⟨j, ?_, ?_, (hidx j).symm⟩
      · rw [hcm, Coremap.used_addtocoremap hb]
        exact Or.inr rfl
      · rw [hcm, Coremap.chunkCnt_addtocoremap_self hb]
  · rw [hcm]
    exact Coremap.frees_addtocoremap hrun

theorem Mem.allocUpage_eq_none_iff {m : Mem} : m.allocUpage = none ↔ m.cm.frees = 0 := by
  unfold Mem.allocUpage
  rw [← Coremap.getpaddr_one_eq_zero_iff, Option.map_eq_none_iff]
  unfold Coremap.allocUpage
  simp

theorem Mem.allocUpage_some {m m' : Mem} {paddr : Paddr} (h : m.allocUpage = some (paddr, m')) :
    m.Takes paddr m' ∧ m'.junk = m.junk ∧ m'.kmallocs = m.kmallocs := by
  unfold Mem.allocUpage at h
  rcases m.cm.allocUpage_cases with ⟨_, hn⟩ | ⟨j, hrun, hj⟩
  · rw [hn] at h
    cases h
  · rw [hj] at h
    cases h
    exact ⟨Mem.takes_of_freeRun hrun rfl rfl, rfl, rfl⟩

theorem Mem.kmalloc_eq_none_iff {m : Mem} : m.kmalloc = none ↔ m.cm.frees = 0 := by
  unfold Mem.kmalloc
  rw [← Coremap.getpaddr_one_eq_zero_iff]
  rcases m.cm.allocKpages_cases 1 with ⟨h0, he⟩ | ⟨j, _, hrun, hne, he⟩
  · simp [he, h0]
  · constructor
    · intro h
      simp only [he, if_neg hne] at h
      cases h
    · intro h0
      simp only [Coremap.allocKpages, h0, true_or, if_true, Prod.mk.injEq] at he
      exact absurd he.1.symm hne

theorem Mem.kmalloc_some {m m' : Mem} {temp : PageTable} (h : m.kmalloc = some (temp, m')) :
    m.Takes (kvaddrToPaddr temp.addr) m' ∧ m'.junk = m.junk := by
  unfold Mem.kmalloc at h
  rcases m.cm.allocKpages_cases 1 with ⟨_, he⟩ | ⟨j, _, hrun, hne, he⟩
  · simp [he] at h
  · simp only [he, if_neg hne, Option.some.injEq, Prod.mk.injEq] at h
    obtain ⟨rfl, rfl⟩ := h
    simp only [kvaddrToPaddr_paddrToKvaddr]
    exact ⟨Mem.takes_of_freeRun hrun rfl rfl, trivial⟩

/-! ## 使用中の frame を保つ変化 -/

/-- 使用中の frame は返されず、その中身も変わらない。 -/
structure Mem.Keeps (m m' : Mem) : Prop where
  allocated : ∀ q, m.Allocated q → m'.Allocated q
  held : ∀ q, m.Held q → m'.Held q
  page : ∀ q, m.Allocated q → m'.page q = m.page q

theorem Mem.Keeps.refl (m : Mem) : m.Keeps m := ⟨fun _ h => h, fun _ h => h, fun _ _ => rfl⟩

theorem Mem.Keeps.trans {m₁ m₂ m₃ : Mem} (h : m₁.Keeps m₂) (h' : m₂.Keeps m₃) : m₁.Keeps m₃ :=
  ⟨fun q hq => h'.allocated q (h.allocated q hq), fun q hq => h'.held q (h.held q hq),
    fun q hq => (h'.page q (h.allocated q hq)).trans (h.page q hq)⟩

theorem Mem.Takes.keeps {m m' : Mem} {p : Paddr} (h : m.Takes p m') : m.Keeps m' :=
  ⟨fun q hq => (h.allocated q).mpr (Or.inl hq), fun q hq => h.held q (Or.inl hq),
    fun q _ => congrFun h.page q⟩

theorem Mem.Takes.keeps_writePage {m m' : Mem} {p : Paddr} (h : m.Takes p m') (x : Page) :
    m.Keeps (m'.writePage p x) := by
  refine ⟨fun q hq => (h.allocated q).mpr (Or.inl hq), fun q hq => h.held q (Or.inl hq), ?_⟩
  intro q hq
  have hne : q ≠ p := fun he => h.fresh (he ▸ hq)
  exact (update_of_ne hne _ _).trans (congrFun h.page q)

/-! ## page を返す -/

/-- `paddr` は coremap が管理する page の先頭番地である。 -/
def Mem.IsFrame (m : Mem) (paddr : Paddr) : Prop :=
  ∃ j, j < m.cm.cmEntries ∧ paddr = m.cm.indextopaddr j

theorem Mem.Held.isFrame {m : Mem} {paddr : Paddr} (h : m.Held paddr) : m.IsFrame paddr := by
  obtain ⟨j, hj, _, he⟩ := h
  exact ⟨j, hj.1, he⟩

theorem Mem.held_pageFree {m : Mem} {p q : Paddr} (hp : m.IsFrame p) (hq : m.Held q)
    (hne : q ≠ p) : (m.pageFree p).Held q := by
  obtain ⟨i, hi, rfl⟩ := hp
  obtain ⟨j, hj, hc, rfl⟩ := hq
  have hji : j ≠ i := fun h => hne (by rw [h])
  have hent := Coremap.entry_removefromcoremap_of_single (le_of_lt hi) hji hc
  refine ⟨j, ⟨hj.1, ?_⟩, ?_, rfl⟩
  · show ((m.cm.removefromcoremap _).entry j).isAllocated = true
    rw [hent]
    exact hj.2
  · show ((m.cm.removefromcoremap _).entry j).chunkCnt = 1
    rw [hent, hc]

theorem Mem.held_foldl_pageFree {m : Mem} {ps : List Paddr} {q : Paddr}
    (hps : ∀ p ∈ ps, m.IsFrame p) (hq : m.Held q) (hne : q ∉ ps) :
    (ps.foldl Mem.pageFree m).Held q := by
  induction ps generalizing m with
  | nil => exact hq
  | cons p ps ih =>
    obtain ⟨hqp, hne'⟩ := not_or.mp (mt mem_cons.mpr hne)
    exact ih (fun x hx => hps x (mem_cons_of_mem _ hx))
      (Mem.held_pageFree (hps p mem_cons_self) hq hqp) hne'

/-! ## 起動直後の memory -/

theorem Coremap.frees_initCoremap (l : CmLayout) (mem : Nat → CmEntry) :
    (Coremap.initCoremap l mem).frees = l.cmEntries := by
  unfold Coremap.frees
  rw [Finset.filter_true_of_mem, Finset.card_range]
  · rfl
  · intro j hj
    show (if j < l.cmEntries then CmEntry.free else mem j).isAllocated = false
    have hlt : j < l.cmEntries := Finset.mem_range.mp hj
    rw [if_pos hlt]
    rfl

def PageTable.blank : PageTable where
  addr := 0
  table := replicate ptableArraySize ⟨0, 0, false, false, false⟩
  entryCount := 0
  len := length_replicate

/-- 何も決まっていない address space。 -/
def AddrSpace.blank : AddrSpace where
  vbreakbase := 0
  vbreaktop := 0
  heapNPages := 0
  vstart := 0
  start := PageTable.blank
  next := []
  «end» := 0
  codeNPages := 0
  dataNPages := 0

theorem Mem.boot_aligned : PageAligned 0x40000 := by decide

theorem Mem.boot_pos : 0 < (0x40000 : Paddr).toNat := by decide

theorem Mem.boot_fits {n : Nat} (h : n ≤ 100000) :
    (0x40000 : Paddr).toNat + n * 4096 ≤ 508 * 1024 * 1024 := by
  show 262144 + n * 4096 ≤ _
  omega

/-- `n` 枚の page がすべて空いている memory。 -/
def Mem.boot (n : Nat) (h : n ≤ 100000) : Mem where
  cm := Coremap.initCoremap
    { freespace := 0x40000
      cmEntries := n
      aligned := Mem.boot_aligned
      pos := Mem.boot_pos
      fits := Mem.boot_fits h } fun _ => CmEntry.free
  page := fun _ => Page.zero
  junk := fun _ => PageTable.blank
  kmallocs := 0
  obtained := []
  freed := []

theorem Mem.frees_boot (n : Nat) (h : n ≤ 100000) : (Mem.boot n h).cm.frees = n :=
  Coremap.frees_initCoremap _ _

end Os161
