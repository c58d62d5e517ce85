import MsProjects.Os161.Vm.Fault
import MsProjects.Os161.Properties.Pages
import MsProjects.Os161.Properties.Release

/-! # vm_fault と page table の対応 -/

namespace Os161

open Infra List Function AddrSpace

variable {s : Cpu} {random : Fin numTlb} {c c' : Cur} {e : PageEntry} {es : List PageEntry}

/-! ## TLB の枠 -/

theorem or_and_mask (x y z : UInt32) : (x ||| y) &&& z = (x &&& z) ||| (y &&& z) := by
  apply UInt32.eq_of_toBitVec_eq
  ext i hi
  simp [Bool.and_or_distrib_right]

theorem and_or_mask_self (x z : UInt32) : (x &&& z) ||| z = z := by
  apply UInt32.eq_of_toBitVec_eq
  ext i hi
  simp

abbrev TlbEntry.installed (page : Vaddr) (paddr : Paddr) : TlbEntry :=
  ⟨page, paddr ||| tlbloDirty ||| tlbloValid⟩

namespace TlbEntry

variable {page : Vaddr} {paddr : Paddr}

theorem valid_installed : (installed page paddr).valid = true := by
  have h : (paddr ||| tlbloDirty ||| tlbloValid) &&& tlbloValid = tlbloValid := by
    rw [or_and_mask, UInt32.and_self, and_or_mask_self]
  simp only [valid, h]
  decide

theorem dirty_installed : (installed page paddr).dirty = true := by
  have hz : tlbloValid &&& tlbloDirty = 0 := by decide
  have h : (paddr ||| tlbloDirty ||| tlbloValid) &&& tlbloDirty = tlbloDirty := by
    rw [or_and_mask, hz, UInt32.or_zero, or_and_mask, UInt32.and_self, and_or_mask_self]
  simp only [dirty, h]
  decide

theorem vpage_installed (h : PageAligned page) : (installed page paddr).vpage = page :=
  and_pageFrame_of_aligned h

theorem ppage_installed (h : PageAligned paddr) : (installed page paddr).ppage = paddr := by
  have hd : tlbloDirty &&& pageFrame = 0 := by decide
  have hv : tlbloValid &&& pageFrame = 0 := by decide
  unfold ppage
  rw [or_and_mask, or_and_mask, hd, hv, UInt32.or_zero, UInt32.or_zero, and_pageFrame_of_aligned h]

end TlbEntry

namespace Tlb

theorem valid_flushed (i : Fin numTlb) : (flushed i).valid = false := by
  simp [flushed, TlbEntry.valid]

theorem install_cases (tlb : Tlb) (page : Vaddr) (paddr : Paddr) (random i : Fin numTlb) :
    tlb.install page paddr random i = TlbEntry.installed page paddr ∨
      tlb.install page paddr random i = tlb i := by
  unfold install
  by_cases h : i = tlb.slot random
  · left
    rw [h, update_self]
  · right
    rw [update_of_ne h]

theorem exists_installed (tlb : Tlb) (page : Vaddr) (paddr : Paddr) (random : Fin numTlb) :
    ∃ i, tlb.install page paddr random i = TlbEntry.installed page paddr :=
  ⟨tlb.slot random, update_self ..⟩

end Tlb

/-! ## vm_fault に起こること -/

variable {ft : FaultType} {page : Vaddr} {c c' : Cur}

/-- stack の page を一つ足す `vm_fault`。 -/
structure Grows (page : Vaddr) (c : Cur) (paddr : Paddr) (c' : Cur) : Prop where
  unmapped : findEntry page c.as.tables = none
  stack : stackBase ≤ page ∧ page < userstack
  grown : ∃ mem c₁, c.mem.allocUpage = some (paddr, mem) ∧
    addPageEntry { c with mem := mem } ⟨page, paddr, true, true, false⟩ = some c₁ ∧
    c' = { c₁ with mem := c₁.mem.asZeroRegion paddr }

theorem faultFrame_cases {r : Except Errno Paddr} (h : faultFrame ft page c = some (r, c')) :
    (∃ err, r = .error err ∧ c' = c) ∨
    (∃ e, findEntry page c.as.tables = some e ∧ r = .ok e.pagePaddr ∧ c' = c ∧
      (ft = .read ∨ ft = .write ∧ e.isWrite = true)) ∨
    (∃ paddr, ft = .write ∧ r = .ok paddr ∧ Grows page c paddr c') := by
  unfold faultFrame at h
  split at h
  · cases h
    exact Or.inl ⟨_, rfl, rfl⟩
  · split at h
    · cases h
      exact Or.inl ⟨_, rfl, rfl⟩
    · next e he =>
      cases h
      exact Or.inr (Or.inl ⟨e, he, rfl, rfl, Or.inl rfl⟩)
    · cases h
      exact Or.inl ⟨_, rfl, rfl⟩
    · next e he =>
      split at h
      · next hw =>
        cases h
        exact Or.inr (Or.inl ⟨e, he, rfl, rfl, Or.inr ⟨rfl, hw⟩⟩)
      · cases h
        exact Or.inl ⟨_, rfl, rfl⟩
    · next hnone =>
      split at h
      · next hstack =>
        split at h
        · cases h
          exact Or.inl ⟨_, rfl, rfl⟩
        · next paddr mem halloc =>
          split at h
          · cases h
          · next c₁ hadd =>
            simp only [Option.some.injEq, Prod.mk.injEq] at h
            obtain ⟨rfl, rfl⟩ := h
            exact Or.inr (Or.inr ⟨paddr, rfl, rfl, hnone, hstack, mem, c₁, halloc, hadd, rfl⟩)
      · cases h
        exact Or.inl ⟨_, rfl, rfl⟩
    · cases h
      exact Or.inl ⟨_, rfl, rfl⟩

theorem vmFault_cases {s' : Cpu} {addr : Vaddr} {r : Except Errno Unit}
    (h : vmFault ft addr random s = some (r, s')) :
    (∃ err, r = .error err ∧ s' = s) ∨
    (∃ e, findEntry (addr &&& pageFrame) s.as.tables = some e ∧ r = .ok () ∧
      s' = { s with tlb := s.tlb.install (addr &&& pageFrame) e.pagePaddr random } ∧
      (ft = .read ∨ ft = .write ∧ e.isWrite = true)) ∨
    (∃ paddr c', ft = .write ∧ r = .ok () ∧ Grows (addr &&& pageFrame) s.toCur paddr c' ∧
      s' = ⟨c', s.tlb.install (addr &&& pageFrame) paddr random⟩) := by
  simp only [vmFault] at h
  split at h
  · cases h
  · next err c₁ hf =>
    cases h
    rcases faultFrame_cases hf with ⟨_, hr, rfl⟩ | ⟨_, _, hr, _⟩ | ⟨_, _, hr, _⟩
    · exact Or.inl ⟨err, rfl, rfl⟩
    · cases hr
    · cases hr
  · next paddr c₁ hf =>
    cases h
    rcases faultFrame_cases hf with ⟨_, hr, _⟩ | ⟨e, he, hr, rfl, hft⟩ | ⟨p, hft, hr, hg⟩
    · cases hr
    · cases hr
      exact Or.inr (Or.inl ⟨e, he, rfl, rfl, hft⟩)
    · cases hr
      exact Or.inr (Or.inr ⟨paddr, c₁, hft, rfl, hg, rfl⟩)

theorem inRange {vstart : Vaddr} (hlo : vstart ≤ page) (hhi : page < userstack) :
    ¬ (userstack ≤ page ∨ page < vstart) := by
  rintro (h | h)
  · exact absurd hhi (UInt32.not_lt.mpr h)
  · exact absurd h (UInt32.not_lt.mpr hlo)

theorem vmFault_read (ha : PageAligned page) (hlo : s.as.vstart ≤ page) (hhi : page < userstack) :
    vmFault .read page random s =
      match findEntry page s.as.tables with
      | some e => some (.ok (), { s with tlb := s.tlb.install page e.pagePaddr random })
      | none => some (.error .efault, s) := by
  unfold vmFault
  rw [and_pageFrame_of_aligned ha]
  simp only [faultFrame, if_neg (inRange hlo hhi)]
  cases findEntry page s.as.tables with
  | none | some e => rfl

/-! ## 足した entry の列 -/

/-- 表以外の field を差し替える。 -/
def AddrSpace.withBook (as : AddrSpace) (b : Book) : AddrSpace :=
  { as with
    vbreakbase := b.vbreakbase
    vbreaktop := b.vbreaktop
    heapNPages := b.heapNPages
    vstart := b.vstart
    codeNPages := b.codeNPages
    dataNPages := b.dataNPages }

/-- address space が kernel の heap に持つ block の物理番地。 -/
def AddrSpace.blocks (as : AddrSpace) : List Paddr :=
  (as.tables.map PageTable.addr).map kvaddrToPaddr

/-- `as_create` と、その後の `addPageEntry` で作られた CPU の状態。 -/
inductive Built : Cpu → List PageEntry → Prop where
  | create {m mem : Mem} {as : AddrSpace} (tlb : Tlb) :
      asCreate m = some (as, mem) → Built ⟨⟨mem, as⟩, tlb⟩ []
  | add {s : Cpu} {es : List PageEntry} {e : PageEntry} {c : Cur} :
      Built s es → PageAligned e.pageVaddr → e.pagePaddr ≠ 0 →
      (∀ x ∈ es, x.pageVaddr ≠ e.pageVaddr) → addPageEntry s.toCur e = some c →
      Built ⟨c, s.tlb⟩ (es ++ [e])
  | other {s : Cpu} {es : List PageEntry} (mem : Mem) (b : Book) (tlb : Tlb) :
      Built s es → (∀ p ∈ s.as.blocks, mem.Allocated p) →
      Built ⟨⟨mem, s.as.withBook b⟩, tlb⟩ es

/-- 足した entry の列 `es` と表の鎖の対応。 -/
structure Holds (c : Cur) (es : List PageEntry) : Prop where
  entries_eq : c.as.entries = es
  chain : Chain c.as.tables
  endLast : c.as.EndLast
  blocks : ∀ p ∈ c.as.blocks, c.mem.Allocated p
  nodup : c.as.blocks.Nodup
  vaddrs : (es.map PageEntry.pageVaddr).Nodup
  aligned : ∀ e ∈ es, PageAligned e.pageVaddr

theorem addPageEntry_blocks_cases (hc : Chain c.as.tables) (hend : c.as.EndLast)
    (he : e.pagePaddr ≠ 0) (ha : addPageEntry c e = some c') :
    (c'.as.blocks = c.as.blocks ∧ c'.mem = c.mem) ∨
      ∃ p, c'.as.blocks = c.as.blocks ++ [p] ∧ c.mem.Takes p c'.mem := by
  rcases Nat.lt_or_eq_of_le (entries_length_le c.as.tables) with hroom | hfull
  · obtain ⟨t, ts, hadd, _, _, haddr, haddrs⟩ := addPageEntry_room hc he hroom
    rw [hadd, Option.some.injEq] at ha
    subst ha
    refine Or.inl ⟨?_, rfl⟩
    simp only [blocks, tables, map_cons, haddr, haddrs]
  · rw [addPageEntry_full hc hfull] at ha
    obtain ⟨⟨temp, mem⟩, hk, rfl⟩ := Option.map_eq_some_iff.mp ha
    refine Or.inr ⟨kvaddrToPaddr temp.addr, ?_, (Mem.kmalloc_some hk).1⟩
    have htake : c.as.next.take c.as.end = c.as.next := by
      rw [hend]
      exact take_length
    simp [blocks, tables, PageTable.fresh, htake]

theorem addPageEntry_blocks (hc : Chain c.as.tables) (hend : c.as.EndLast) (he : e.pagePaddr ≠ 0)
    (hb : ∀ p ∈ c.as.blocks, c.mem.Allocated p) (hnd : c.as.blocks.Nodup)
    (ha : addPageEntry c e = some c') :
    (∀ p ∈ c'.as.blocks, c'.mem.Allocated p) ∧ c'.as.blocks.Nodup := by
  rcases addPageEntry_blocks_cases hc hend he ha with ⟨hblocks, hmem⟩ | ⟨q, hblocks, htakes⟩
  · rw [hblocks, hmem]
    exact ⟨hb, hnd⟩
  · rw [hblocks]
    refine ⟨?_, ?_⟩
    · intro p hp
      rw [htakes.allocated]
      rcases mem_append.mp hp with hp | hp
      · exact Or.inl (hb p hp)
      · exact Or.inr (mem_singleton.mp hp)
    · rw [nodup_append]
      refine ⟨hnd, nodup_singleton _, ?_⟩
      rintro p hp r hr rfl
      rw [mem_singleton.mp hr] at hp
      exact htakes.fresh (hb _ hp)

theorem Built.holds (h : Built s es) : Holds s.toCur es := by
  induction h with
  | create tlb hcreate =>
    obtain ⟨hent, hch, hend, _, hnext, _, htakes⟩ := asCreate_some hcreate
    refine ⟨hent, hch, hend, ?_, ?_, nodup_nil, by simp⟩
    · intro p hp
      simp only [blocks, tables, hnext, map_cons, map_nil, mem_singleton] at hp
      exact (htakes.allocated p).mpr (Or.inr hp)
    · simp [blocks, tables, hnext]
  | @add s es e c _ hal hne hnew hadd ih =>
    obtain ⟨hent, hch, hend, _, _⟩ := addPageEntry_append ih.chain ih.endLast hne hadd
    obtain ⟨hb, hnd⟩ := addPageEntry_blocks ih.chain ih.endLast hne ih.blocks ih.nodup hadd
    refine ⟨by rw [hent, ih.entries_eq], hch, hend, hb, hnd, ?_, ?_⟩
    · rw [map_append, nodup_append]
      refine ⟨ih.vaddrs, nodup_singleton _, ?_⟩
      rintro v hv w hw rfl
      obtain ⟨x, hx, rfl⟩ := mem_map.mp hv
      exact hnew x hx (mem_singleton.mp hw)
    · intro x hx
      rcases mem_append.mp hx with hx | hx
      · exact ih.aligned x hx
      · rw [mem_singleton.mp hx]
        exact hal
  | other mem b tlb _ hb ih =>
    exact ⟨ih.entries_eq, ih.chain, ih.endLast, hb, ih.nodup, ih.vaddrs, ih.aligned⟩

theorem Holds.findEntry_iff (h : Holds c es) :
    findEntry page c.as.tables = some e ↔ e ∈ es ∧ e.pageVaddr = page := by
  have hent : entries c.as.tables = es := h.entries_eq
  constructor
  · intro hf
    obtain ⟨he, hv⟩ := findEntry_some hf
    exact ⟨hent ▸ he, hv⟩
  · rintro ⟨he, rfl⟩
    exact findEntry_of_mem (by rw [hent]; exact h.vaddrs) (hent ▸ he)

theorem Holds.findEntry_none_iff (h : Holds c es) :
    findEntry page c.as.tables = none ↔ ∀ e ∈ es, e.pageVaddr ≠ page := by
  rw [findEntry_eq_none_iff, show entries c.as.tables = es from h.entries_eq]

/-! ## stack の伸長 -/

theorem Grows.built {paddr : Paddr} (h : Built s es) (ha : PageAligned page)
    (hg : Grows page s.toCur paddr c') (tlb : Tlb) :
    Built ⟨c', tlb⟩ (es ++ [⟨page, paddr, true, true, false⟩]) := by
  obtain ⟨hnone, _, mem, c₁, halloc, hadd, rfl⟩ := hg
  have htakes := (Mem.allocUpage_some halloc).1
  have hmem : Built ⟨⟨mem, s.as⟩, s.tlb⟩ es :=
    .other mem s.as.book s.tlb h fun p hp => (htakes.allocated p).mpr (Or.inl (h.holds.blocks p hp))
  have hnew := h.holds.findEntry_none_iff.mp hnone
  have hbuilt := hmem.add ha htakes.ne_zero hnew hadd
  exact .other (c₁.mem.asZeroRegion paddr) c₁.as.book tlb hbuilt hbuilt.holds.blocks

theorem Built.fault {s' : Cpu} {addr : Vaddr} {r : Except Errno Unit} (h : Built s es)
    (hf : vmFault ft addr random s = some (r, s')) :
    ∃ es', Built s' es' ∧ es <+: es' ∧ s'.as.book = s.as.book := by
  rcases vmFault_cases hf with ⟨_, _, rfl⟩ | ⟨e, _, _, rfl, _⟩ | ⟨paddr, c', _, _, hg, rfl⟩
  · exact ⟨es, h, prefix_refl _, rfl⟩
  · exact ⟨es, .other s.mem s.as.book _ h h.holds.blocks, prefix_refl _, rfl⟩
  · refine ⟨_, hg.built h (pageAligned_and_pageFrame addr) _, prefix_append _ _, ?_⟩
    obtain ⟨_, _, mem, c₁, halloc, hadd, rfl⟩ := hg
    have hne := (Mem.allocUpage_some halloc).1.ne_zero
    exact (addPageEntry_append (c := ⟨mem, s.as⟩) h.holds.chain h.holds.endLast hne hadd).2.2.2.1

theorem Grows.page_eq {paddr : Paddr} (h : Holds c es) (hg : Grows page c paddr c') :
    ¬ c.mem.Allocated paddr ∧ paddr ≠ 0 ∧ PageAligned paddr ∧
      c'.mem.page = update c.mem.page paddr Page.zero := by
  obtain ⟨_, _, mem, c₁, halloc, hadd, rfl⟩ := hg
  have htakes := (Mem.allocUpage_some halloc).1
  obtain ⟨_, _, _, _, hpage⟩ := addPageEntry_append (c := { c with mem := mem }) h.chain h.endLast
    htakes.ne_zero hadd
  refine ⟨htakes.fresh, htakes.ne_zero, htakes.aligned, ?_⟩
  show update c₁.mem.page paddr Page.zero = _
  rw [hpage]
  exact congrArg (update · paddr Page.zero) htakes.page

theorem vmFault_write_stack (random : Fin numTlb) (ha : PageAligned page) (hlo : s.as.vstart ≤ page)
    (hst : stackBase ≤ page) (hhi : page < userstack) (hnone : findEntry page s.as.tables = none) :
    vmFault .write page random s =
      match s.mem.allocUpage with
      | none => some (.error .enomem, s)
      | some (paddr, mem) =>
        (addPageEntry ⟨mem, s.as⟩ ⟨page, paddr, true, true, false⟩).map fun c =>
          (.ok (), ⟨{ c with mem := c.mem.asZeroRegion paddr },
            s.tlb.install page paddr random⟩) := by
  unfold vmFault
  rw [and_pageFrame_of_aligned ha]
  simp only [faultFrame, if_neg (inRange hlo hhi), hnone, if_pos (And.intro hst hhi)]
  cases s.mem.allocUpage with
  | none => rfl
  | some r =>
    obtain ⟨paddr, mem⟩ := r
    simp only
    cases addPageEntry ⟨mem, s.as⟩ ⟨page, paddr, true, true, false⟩ with
    | none => rfl
    | some c => rfl

/-! ## 後の fault -/

def FaultStep (s : Cpu) (x : FaultType × Vaddr × Fin numTlb) (s' : Cpu) : Prop :=
  ∃ r, vmFault x.1 x.2.1 x.2.2 s = some (r, s')

theorem Built.faults {u : Cpu} {tr} (h : Built s es) (hr : Run FaultStep s tr u) :
    ∃ es', Built u es' ∧ es <+: es' ∧ u.as.book = s.as.book := by
  refine (hr.invariant' (I := fun t => ∃ es', Built t es' ∧ es <+: es' ∧ t.as.book = s.as.book)
    ?_ ⟨es, h, prefix_refl _, rfl⟩).1
  rintro p a q ⟨es₁, hp, hpre, hbook⟩ ⟨r, hf⟩
  obtain ⟨es₂, hq, hpre', hbook'⟩ := hp.fault hf
  exact ⟨es₂, hq, hpre.trans hpre', hbook'.trans hbook⟩

theorem vmFault_hit (random : Fin numTlb) (ha : PageAligned page) (hlo : s.as.vstart ≤ page)
    (hhi : page < userstack) (hf : findEntry page s.as.tables = some e) (hw : e.isWrite = true)
    (hft : ft = .read ∨ ft = .write) :
    vmFault ft page random s =
      some (.ok (), { s with tlb := s.tlb.install page e.pagePaddr random }) := by
  rcases hft with rfl | rfl
  · rw [vmFault_read ha hlo hhi, hf]
  · unfold vmFault
    rw [and_pageFrame_of_aligned ha]
    simp only [faultFrame, if_neg (inRange hlo hhi), hf, hw, if_true]

/-! ## 列に従うこと -/

/-- read の fault は、列にある page でちょうど成功し、その entry の frame を TLB に入れる。 -/
def ReadsAs (s : Cpu) (es : List PageEntry) : Prop :=
  ∀ p random, PageAligned p → s.as.vstart ≤ p → p < userstack →
    ((∃ s', vmFault .read p random s = some (.ok (), s')) ↔ ∃ e ∈ es, e.pageVaddr = p) ∧
    ∀ e ∈ es, e.pageVaddr = p →
      vmFault .read p random s = some (.ok (), { s with tlb := s.tlb.install p e.pagePaddr random })

/-- stack の未使用の page への write の fault は、0 で埋めた page を一つだけ足す。 -/
def GrowsAs (s : Cpu) (es : List PageEntry) : Prop :=
  ∀ p random, PageAligned p → s.as.vstart ≤ p → stackBase ≤ p → p < userstack →
    (∀ e ∈ es, e.pageVaddr ≠ p) →
    (s.mem.cm.frees = 0 → vmFault .write p random s = some (.error .enomem, s)) ∧
    (2 ≤ s.mem.cm.frees → ∃ s', vmFault .write p random s = some (.ok (), s')) ∧
    ∀ s', vmFault .write p random s = some (.ok (), s') →
      ∃ paddr, ¬ s.mem.Allocated paddr ∧
        Built s' (es ++ [⟨p, paddr, true, true, false⟩]) ∧
        s'.as.entries = es ++ [⟨p, paddr, true, true, false⟩] ∧
        s'.mem.page = update s.mem.page paddr Page.zero ∧
        (∀ q, q ≠ p → findEntry q s'.as.tables = findEntry q s.as.tables) ∧
        s'.tlb = s.tlb.install p paddr random ∧
        ∀ tr u, Run FaultStep s' tr u → ∀ ft random, ft = .read ∨ ft = .write →
          vmFault ft p random u = some (.ok (), { u with tlb := u.tlb.install p paddr random })

/--
`as_destroy` は、列の frame を順に一度ずつ、互いに異なる表を一度ずつ `page_free` と `kfree` に渡し、ほかには何も渡さない。
-/
def DestroysAs (s : Cpu) (es : List PageEntry) : Prop :=
  ∃ tables, tables.Perm s.as.blocks ∧ tables.Nodup ∧
    (asDestroy s.mem s.as).freed = s.mem.freed ++ (es.map PageEntry.pagePaddr ++ tables) ∧
    ((∀ p ∈ es.map PageEntry.pagePaddr ++ tables, s.mem.Held p) → ∀ q,
      (q ∈ es.map PageEntry.pagePaddr ++ tables → ¬ (asDestroy s.mem s.as).Allocated q) ∧
      (q ∉ es.map PageEntry.pagePaddr ++ tables → s.mem.Held q → (asDestroy s.mem s.as).Held q))

theorem Built.readsAs (h : Built s es) : ReadsAs s es := by
  intro p random ha hlo hhi
  have hhit : ∀ e ∈ es, e.pageVaddr = p → vmFault .read p random s =
      some (.ok (), { s with tlb := s.tlb.install p e.pagePaddr random }) := by
    intro e he hv
    rw [vmFault_read ha hlo hhi, h.holds.findEntry_iff.mpr ⟨he, hv⟩]
  refine ⟨⟨?_, ?_⟩, hhit⟩
  · rintro ⟨s', hs'⟩
    rw [vmFault_read ha hlo hhi] at hs'
    cases hf : findEntry p s.as.tables with
    | none =>
      rw [hf] at hs'
      cases hs'
    | some e => exact ⟨e, h.holds.findEntry_iff.mp hf⟩
  · rintro ⟨e, he, hv⟩
    exact ⟨_, hhit e he hv⟩

theorem findEntry_of_append (h : Holds c es) (h' : Holds c' (es ++ [e])) {q : Vaddr}
    (hq : q ≠ e.pageVaddr) : findEntry q c'.as.tables = findEntry q c.as.tables := by
  rw [findEntry_eq_find?, findEntry_eq_find?, show Os161.entries c'.as.tables = _ from h'.entries_eq,
    show Os161.entries c.as.tables = _ from h.entries_eq, find?_append]
  have hne : (e.pageVaddr == q) = false := by simpa using hq.symm
  simp [hne]

theorem Built.growsAs (h : Built s es) : GrowsAs s es := by
  intro p random ha hlo hst hhi hnew
  have hnone := h.holds.findEntry_none_iff.mpr hnew
  have heq := vmFault_write_stack random ha hlo hst hhi hnone
  refine ⟨?_, ?_, ?_⟩
  · intro h0
    rw [heq, Mem.allocUpage_eq_none_iff.mpr h0]
  · intro h2
    cases halloc : s.mem.allocUpage with
    | none => exact absurd (Mem.allocUpage_eq_none_iff.mp halloc) (by omega)
    | some r =>
      obtain ⟨paddr, mem⟩ := r
      have hfrees := (Mem.allocUpage_some halloc).1.frees
      rw [heq, halloc]
      simp only
      cases hadd : addPageEntry ⟨mem, s.as⟩ ⟨p, paddr, true, true, false⟩ with
      | none => exact absurd hadd (addPageEntry_ne_none (by show mem.cm.frees ≠ 0; omega))
      | some c => exact ⟨_, rfl⟩
  · intro s' hs'
    rcases vmFault_cases hs' with ⟨_, hr, _⟩ | ⟨e, he, _⟩ | ⟨paddr, c', _, _, hg, rfl⟩
    · cases hr
    · rw [and_pageFrame_of_aligned ha, hnone] at he
      cases he
    · rw [and_pageFrame_of_aligned ha] at hg ⊢
      have hbuilt := hg.built h ha (s.tlb.install p paddr random)
      obtain ⟨hfresh, _, _, hpage⟩ := hg.page_eq h.holds
      refine ⟨paddr, hfresh, hbuilt, hbuilt.holds.entries_eq, hpage,
        fun q hq => findEntry_of_append h.holds hbuilt.holds hq, rfl, ?_⟩
      intro tr u hrun ft random' hft
      obtain ⟨es', hu, hpre, hbook⟩ := hbuilt.faults hrun
      have hmem : (⟨p, paddr, true, true, false⟩ : PageEntry) ∈ es' := hpre.subset (by simp)
      have hbook' : u.as.vstart = s.as.vstart := by
        have hb := (h.fault hs').choose_spec.2.2
        exact (congrArg Book.vstart hbook).trans (congrArg Book.vstart hb)
      have hfound := hu.holds.findEntry_iff.mpr (And.intro hmem rfl)
      exact vmFault_hit random' (e := ⟨p, paddr, true, true, false⟩) ha (hbook' ▸ hlo) hhi hfound rfl hft

theorem Built.destroysAs (h : Built s es) : DestroysAs s es := by
  have hperm : ((s.as.next.map PageTable.addr ++ [s.as.start.addr]).map kvaddrToPaddr).Perm s.as.blocks :=
    (perm_append_singleton _ _).map _
  have hrel := s.as.released_eq
  rw [h.holds.entries_eq] at hrel
  refine ⟨_, hperm, hperm.nodup_iff.mpr h.holds.nodup, ?_, fun hheld q => ?_⟩
  · rw [asDestroy_eq, Mem.freed_foldl_pageFree, hrel]
  · rw [asDestroy_eq, hrel]
    exact ⟨Mem.not_allocated_foldl_pageFree hheld,
      fun hq hold => Mem.held_foldl_pageFree (fun p hp => (hheld p hp).isFrame) hold hq⟩

/--
`as_create` と `addPageEntry` で作った address space は、表がいくつになっても足した entry の列に従う。
-/
theorem fault_follows_added_entries {s : Cpu} {es : List PageEntry} (h : Built s es) :
    ReadsAs s es ∧ GrowsAs s es ∧ DestroysAs s es :=
  ⟨h.readsAs, h.growsAs, h.destroysAs⟩

theorem exists_built (es : List PageEntry) (hal : ∀ e ∈ es, PageAligned e.pageVaddr)
    (hne : ∀ e ∈ es, e.pagePaddr ≠ 0) (hnd : (es.map PageEntry.pageVaddr).Nodup) (hlen : es.length < 999) :
    ∃ s, Built s es ∧ 999 ≤ s.mem.cm.frees + es.length := by
  induction es using reverseRecOn with
  | nil =>
    have hfrees := Mem.frees_boot 1000 (by decide)
    obtain ⟨as, m, hcreate⟩ := exists_asCreate (m := Mem.boot 1000 (by decide)) (by omega)
    have := (asCreate_some hcreate).2.2.2.2.2.2.frees
    exact ⟨_, .create Tlb.flushed hcreate, by simp only [length_nil]; omega⟩
  | append_singleton es e ih =>
    rw [length_append, length_singleton] at hlen ⊢
    rw [map_append, nodup_append] at hnd
    obtain ⟨s, hs, hfrees⟩ := ih (fun x hx => hal x (by simp [hx])) (fun x hx => hne x (by simp [hx]))
      hnd.1 (by omega)
    obtain ⟨c, hadd⟩ := Option.ne_none_iff_exists'.mp
      (addPageEntry_ne_none (c := s.toCur) (e := e) (by omega))
    refine ⟨_, hs.add (hal e (by simp)) (hne e (by simp)) (fun x hx => ?_) hadd, ?_⟩
    · exact hnd.2.2 _ (mem_map_of_mem hx) _ (by simp)
    · rcases addPageEntry_blocks_cases hs.holds.chain hs.holds.endLast (hne e (by simp)) hadd with
        ⟨-, hmem⟩ | ⟨p, -, htakes⟩
      · simp only [hmem]
        omega
      · have := htakes.frees
        simp only
        omega

/-- 339 枚の page を足した address space は、表を二つ持つ。 -/
theorem fault_follows_two_tables :
    ∃ s, Built s (entriesFrom 0x400000 339) ∧ s.as.next ≠ [] ∧ ReadsAs s (entriesFrom 0x400000 339) ∧
      GrowsAs s (entriesFrom 0x400000 339) ∧ DestroysAs s (entriesFrom 0x400000 339) := by
  obtain ⟨s, hs, -⟩ := exists_built (entriesFrom 0x400000 339) (by decide +kernel) (by decide +kernel)
    (nodup_of_isChain (by decide +kernel)) (by decide +kernel)
  refine ⟨s, hs, fun hnext => ?_, fault_follows_added_entries hs⟩
  have hle := entries_length_le s.as.tables
  rw [show Os161.entries s.as.tables = _ from hs.holds.entries_eq, tables, hnext, length_singleton] at hle
  exact absurd hle (by decide +kernel)

end Os161
