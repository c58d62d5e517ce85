import MsProjects.Os161.Vm.User
import MsProjects.Os161.Properties.Fault
import MsProjects.Os161.Properties.Fork

/-! # TLB と page table の一致、書き込み禁止の page -/

namespace Os161

open Infra List Function

variable {tlb : Tlb} {as : AddrSpace} {page : Vaddr} {s s' : Cpu} {m : Mem}

/-! ## 一致の不変量 -/

/-- 表の鎖が整っていて、entry の frame が使用中である。 -/
structure Backed (m : Mem) (as : AddrSpace) : Prop where
  chain : Chain as.tables
  endLast : as.EndLast
  owns : as.Owns m

/-- さらに、entry の page と frame に重なりが無い。 -/
structure Mapped (m : Mem) (as : AddrSpace) : Prop extends Backed m as where
  vaddrs : (as.entries.map PageEntry.pageVaddr).Nodup
  frames : (as.entries.map PageEntry.pagePaddr).Nodup

/-- TLB の有効な枠は、page table を引いた結果と一致する。 -/
def TlbAgrees (tlb : Tlb) (as : AddrSpace) : Prop :=
  ∀ i, (tlb i).valid = true →
    ∃ e, findEntry (tlb i).vpage as.tables = some e ∧ e.pagePaddr = (tlb i).ppage

theorem tlbAgrees_of_not_valid (h : ∀ i, (tlb i).valid = false) (as : AddrSpace) :
    TlbAgrees tlb as := by
  intro i hi
  rw [h i] at hi
  cases hi

theorem tlbAgrees_flushed (as : AddrSpace) : TlbAgrees Tlb.flushed as :=
  tlbAgrees_of_not_valid Tlb.valid_flushed as

theorem TlbAgrees.mono {as' : AddrSpace} (h : TlbAgrees tlb as)
    (hsub : ∀ v e, findEntry v as.tables = some e → findEntry v as'.tables = some e) :
    TlbAgrees tlb as' := by
  intro i hi
  obtain ⟨e, he, hp⟩ := h i hi
  exact ⟨e, hsub _ e he, hp⟩

theorem TlbAgrees.install (h : TlbAgrees tlb as) {e : PageEntry}
    (he : findEntry page as.tables = some e) (hal : PageAligned page)
    (hfr : PageAligned e.pagePaddr) (random : Fin numTlb) :
    TlbAgrees (tlb.install page e.pagePaddr random) as := by
  intro i hi
  rcases tlb.install_cases page e.pagePaddr random i with hnew | hold
  · rw [hnew]
    exact ⟨e, by rw [TlbEntry.vpage_installed hal, he], (TlbEntry.ppage_installed hfr).symm⟩
  · rw [hold] at hi ⊢
    exact h i hi

theorem findEntry_append {ts ts' : List PageTable} {es : List PageEntry}
    (h : entries ts' = entries ts ++ es) {v : Vaddr} {e : PageEntry}
    (he : findEntry v ts = some e) : findEntry v ts' = some e := by
  rw [findEntry_eq_find?] at he ⊢
  rw [h, find?_append, he]
  rfl

theorem Backed.grows {paddr : Paddr} {c c' : Cur} (h : Backed c.mem c.as)
    (hg : Grows page c paddr c') :
    Backed c'.mem c'.as ∧ c'.as.entries = c.as.entries ++ [⟨page, paddr, true, true, false⟩] ∧
      c.mem.Keeps c'.mem ∧ ¬ c.mem.Allocated paddr ∧ c'.as.book = c.as.book := by
  obtain ⟨_, _, mem, c₁, halloc, hadd, rfl⟩ := hg
  have htakes := (Mem.allocUpage_some halloc).1
  obtain ⟨hent, hch, hend, hbook, _⟩ :=
    addPageEntry_append (c := ⟨mem, c.as⟩) h.chain h.endLast htakes.ne_zero hadd
  have hk : c.mem.Keeps (c₁.mem.asZeroRegion paddr) := keeps_takePage htakes hadd
  have hnew : (c₁.mem.asZeroRegion paddr).Allocated paddr :=
    (addPageEntry_mem hadd).1.allocated _ ((htakes.allocated paddr).mpr (Or.inr rfl))
  have hent' : c₁.as.entries = c.as.entries ++ [⟨page, paddr, true, true, false⟩] := hent
  refine ⟨⟨hch, hend, ?_⟩, hent', hk, htakes.fresh, hbook⟩
  exact owns_append (h.owns.keeps hk) hnew (by rw [hent']; exact Subset.refl _)

theorem Mapped.grows {paddr : Paddr} {c c' : Cur} (h : Mapped c.mem c.as)
    (hg : Grows page c paddr c') : Mapped c'.mem c'.as := by
  obtain ⟨hb, hent, _, hfresh, _⟩ := h.toBacked.grows hg
  refine ⟨hb, ?_, ?_⟩
  · rw [hent, map_append, nodup_append]
    refine ⟨h.vaddrs, nodup_singleton _, ?_⟩
    rintro v hv w hw rfl
    obtain ⟨e, he, rfl⟩ := mem_map.mp hv
    exact findEntry_eq_none_iff.mp hg.unmapped e he (mem_singleton.mp hw)
  · rw [hent, map_append, nodup_append]
    refine ⟨h.frames, nodup_singleton _, ?_⟩
    rintro p hp q hq rfl
    obtain ⟨e, he, hep⟩ := mem_map.mp hp
    have hpaddr : e.pagePaddr = paddr := hep.trans (mem_singleton.mp hq)
    exact hfresh (hpaddr ▸ h.owns e he)

/-- **`vm_fault` は TLB と page table の一致を保つ。** -/
theorem vmFault_agrees {ft : FaultType} {addr : Vaddr} {random : Fin numTlb} {r : Except Errno Unit}
    (hm : Backed s.mem s.as) (ha : TlbAgrees s.tlb s.as)
    (h : vmFault ft addr random s = some (r, s')) :
    TlbAgrees s'.tlb s'.as ∧
      (s'.toCur = s.toCur ∨ ∃ paddr, Grows (addr &&& pageFrame) s.toCur paddr s'.toCur) := by
  have hal := pageAligned_and_pageFrame addr
  rcases vmFault_cases h with ⟨_, _, rfl⟩ | ⟨e, he, _, rfl, _⟩ | ⟨paddr, c', _, _, hg, rfl⟩
  · exact ⟨ha, Or.inl rfl⟩
  · exact ⟨ha.install he hal (hm.owns e (findEntry_some he).1).aligned random, Or.inl rfl⟩
  · obtain ⟨hm', hent, _⟩ := hm.grows hg
    refine ⟨?_, Or.inr ⟨paddr, hg⟩⟩
    have hfind : findEntry (addr &&& pageFrame) c'.as.tables =
        some ⟨addr &&& pageFrame, paddr, true, true, false⟩ := by
      have hnone := hg.unmapped
      rw [findEntry_eq_find?] at hnone ⊢
      rw [show entries c'.as.tables = _ from hent, find?_append,
        show (s.as.entries.find? _) = none from hnone]
      simp
    exact TlbAgrees.install (e := ⟨addr &&& pageFrame, paddr, true, true, false⟩)
      (ha.mono fun _ _ => findEntry_append hent) hfind hal
      (hm'.owns _ (findEntry_some hfind).1).aligned random

/-! ## user の命令 -/

theorem Tlb.lookup_some {i : Fin numTlb} (h : tlb.lookup page = some i) :
    (tlb i).valid = true ∧ (tlb i).vpage = page := by
  have := find?_some h
  simpa using this

theorem TlbAgrees.lookup {i : Fin numTlb} (ha : TlbAgrees tlb as) (h : tlb.lookup page = some i) :
    ∃ e ∈ as.entries, e.pageVaddr = page ∧ e.pagePaddr = (tlb i).ppage := by
  obtain ⟨hv, hp⟩ := Tlb.lookup_some h
  obtain ⟨e, he, hep⟩ := ha i hv
  obtain ⟨hmem, hev⟩ := findEntry_some he
  exact ⟨e, hmem, hev.trans hp, hep⟩

def AccessStep (s : Cpu) (a : Access) (s' : Cpu) : Prop := ∃ r, s.access a = some (r, s')

/-- 書き込み禁止の page の中身が変わらない。 -/
def ReadOnlyKept (s s' : Cpu) : Prop :=
  ∀ e ∈ s.as.entries, e.isWrite = false → s'.mem.page e.pagePaddr = s.mem.page e.pagePaddr

/-- 書き込み禁止の page への store は、書き込みを許す枠が TLB に無いか、同じ値を書く。 -/
def StoreAllowed (s : Cpu) : Access → Prop
  | .store addr b _ =>
    ∀ e ∈ s.as.entries, e.isWrite = false → e.pageVaddr = addr &&& pageFrame →
      ∀ i, s.tlb.lookup (addr &&& pageFrame) = some i → (s.tlb i).dirty = true →
        s.mem.page e.pagePaddr (pageOffset addr) = b
  | _ => True

def Agreeing (s : Cpu) : Prop := Mapped s.mem s.as ∧ TlbAgrees s.tlb s.as

theorem Agreeing.fault {ft : FaultType} {addr : Vaddr} {random : Fin numTlb} {r : Except Errno Unit}
    (hI : Agreeing s) (h : vmFault ft addr random s = some (r, s')) :
    Agreeing s' ∧ ReadOnlyKept s s' := by
  obtain ⟨ha, hsame | ⟨paddr, hg⟩⟩ := vmFault_agrees hI.1.toBacked hI.2 h
  · obtain ⟨hmem, has⟩ : s'.mem = s.mem ∧ s'.as = s.as :=
      ⟨congrArg Cur.mem hsame, congrArg Cur.as hsame⟩
    refine ⟨⟨?_, ha⟩, fun e _ _ => by rw [hmem]⟩
    rw [hmem, has]
    exact hI.1
  · obtain ⟨_, _, hk, _⟩ := hI.1.toBacked.grows hg
    exact ⟨⟨hI.1.grows hg, ha⟩, fun e he _ => hk.page _ (hI.1.owns e he)⟩

theorem page_writeByte (m : Mem) (p q : Paddr) (o : Fin 4096) (b : UInt8) :
    (m.writeByte p o b).page q = if q = p then update (m.page p) o b else m.page q := by
  unfold Mem.writeByte Mem.writePage
  exact update_apply _ _ _ _

theorem AccessStep.good {a : Access} (hI : Agreeing s) (h : AccessStep s a s')
    (hok : StoreAllowed s a) : Agreeing s' ∧ ReadOnlyKept s s' := by
  obtain ⟨r, hr⟩ := h
  cases a with
  | load addr random =>
    rw [Cpu.access] at hr
    split at hr
    · cases hr
      exact ⟨hI, fun _ _ _ => rfl⟩
    · exact hI.fault hr
  | store addr b random =>
    rw [Cpu.access] at hr
    split at hr
    · next i hi =>
      split at hr
      · next hd =>
        cases hr
        refine ⟨⟨⟨⟨hI.1.chain, hI.1.endLast, hI.1.owns⟩, hI.1.vaddrs, hI.1.frames⟩, hI.2⟩, ?_⟩
        intro e he hw
        show (s.mem.writeByte _ _ _).page _ = _
        rw [page_writeByte]
        split
        · next hp =>
          -- 枠の frame を持つ entry は一つなので、store の page の entry である
          obtain ⟨e', he', hv', hp'⟩ := hI.2.lookup hi
          obtain rfl := inj_on_of_nodup_map hI.1.frames he he' (hp.trans hp'.symm)
          have hb := hok e he hw hv' i hi hd
          rw [hp] at hb ⊢
          rw [← hb, update_eq_self]
        · rfl
      · exact hI.fault hr
    · exact hI.fault hr
  | evict i =>
    rw [Cpu.access] at hr
    cases hr
    refine ⟨⟨hI.1, ?_⟩, fun _ _ _ => rfl⟩
    intro j hj
    by_cases hij : j = i
    · subst hij
      simp only [update_self, Tlb.valid_flushed] at hj
      cases hj
    · simp only [update_of_ne hij] at hj ⊢
      exact hI.2 j hj

theorem AccessStep.bad {a : Access} (hI : Agreeing s) (h : AccessStep s a s')
    (hbad : ¬ StoreAllowed s a) : ¬ ReadOnlyKept s s' := by
  obtain ⟨r, hr⟩ := h
  cases a with
  | load addr random | evict i => exact absurd trivial hbad
  | store addr b random =>
    unfold StoreAllowed at hbad
    push Not at hbad
    obtain ⟨e, he, hw, hv, i, hi, hd, hne⟩ := hbad
    obtain ⟨e', he', hv', hp'⟩ := hI.2.lookup hi
    obtain rfl := inj_on_of_nodup_map hI.1.vaddrs he he' (hv.trans hv'.symm)
    rw [Cpu.access, hi] at hr
    simp only [hd, if_true] at hr
    cases hr
    intro hkept
    have := congrFun (hkept e he hw) (pageOffset addr)
    rw [show (s.mem.writeByte _ _ _).page e.pagePaddr = _ from page_writeByte _ _ _ _ _,
      if_pos hp', update_self] at this
    exact hne this.symm

/-! ## as_complete_load の後 -/

theorem Backed.complete (h : Backed m as) : Backed m (asCompleteLoad as) := by
  refine ⟨chain_asCompleteLoad h.chain, ?_, ?_⟩
  · have hend := h.endLast
    unfold AddrSpace.EndLast asCompleteLoad at *
    simpa using hend
  · intro e he
    rw [entries_asCompleteLoad] at he
    obtain ⟨x, hx, rfl⟩ := mem_map.mp he
    rw [(completeEntry_vaddr_paddr _ _ x).2]
    exact h.owns x hx

theorem map_entries_asCompleteLoad (as : AddrSpace) {β : Type} (f : PageEntry → β)
    (hf : ∀ e, f (completeEntry as.codeTop as.vbreakbase e) = f e) :
    (asCompleteLoad as).entries.map f = as.entries.map f := by
  rw [entries_asCompleteLoad, map_map]
  exact map_congr_left fun e _ => hf e

theorem Mapped.complete (h : Mapped m as) : Mapped m (asCompleteLoad as) := by
  refine ⟨h.toBacked.complete, ?_, ?_⟩
  · rw [map_entries_asCompleteLoad as _ fun e => (completeEntry_vaddr_paddr _ _ e).1]
    exact h.vaddrs
  · rw [map_entries_asCompleteLoad as _ fun e => (completeEntry_vaddr_paddr _ _ e).2]
    exact h.frames

theorem findEntry_asCompleteLoad (as : AddrSpace) (v : Vaddr) :
    findEntry v (asCompleteLoad as).tables =
      (findEntry v as.tables).map (completeEntry as.codeTop as.vbreakbase) := by
  rw [findEntry_eq_find?, findEntry_eq_find?,
    show entries (asCompleteLoad as).tables = _ from entries_asCompleteLoad as, find?_map]
  congr 1
  refine congrArg (fun p => find? p as.entries) (funext fun e => ?_)
  simp only [comp_apply, (completeEntry_vaddr_paddr _ _ e).1]

theorem TlbAgrees.complete (h : TlbAgrees tlb as) : TlbAgrees tlb (asCompleteLoad as) := by
  intro i hi
  obtain ⟨e, he, hp⟩ := h i hi
  refine ⟨completeEntry as.codeTop as.vbreakbase e, ?_, ?_⟩
  · rw [findEntry_asCompleteLoad, he]
    rfl
  · rw [(completeEntry_vaddr_paddr _ _ e).2, hp]

/--
**`as_complete_load` の後の命令の列で、書き込み禁止の page が一度も変わらないことは、
書き込み禁止の page への store がどれも書き込みを許す枠に当たらないか、
同じ値を書くことと同じである。**
-/
theorem readOnly_kept_iff {m : Mem} {as : AddrSpace} {tlb : Tlb} {u : Cpu}
    {tr : List (Transition Cpu Access)} (hm : Mapped m as) (ha : TlbAgrees tlb as)
    (hrun : Run AccessStep ⟨⟨m, asCompleteLoad as⟩, tlb⟩ tr u) :
    (∀ x ∈ tr, ReadOnlyKept x.pre x.post) ↔ ∀ x ∈ tr, StoreAllowed x.pre x.label :=
  hrun.forall_iff (I := Agreeing) (G := fun p _ q => ReadOnlyKept p q)
    (fun hI hstep hok => hstep.good hI hok) (fun hI hstep hbad => hstep.bad hI hbad)
    ⟨hm.complete, ha.complete⟩

/-! ### 具体的な列 -/

theorem Mem.eight_le : 8 ≤ 100000 := by decide

/-- frame がすべて使用中の memory。 -/
def codeMem : Mem :=
  { Mem.boot 8 Mem.eight_le with cm := { (Mem.boot 8 Mem.eight_le).cm with entry := fun _ =>
    ⟨1, false, true⟩ } }

/-- code の page を一枚だけ持つ address space。 -/
def codeSpace : AddrSpace :=
  { AddrSpace.blank with
    vstart := 0x400000, codeNPages := 1, vbreakbase := 0x401000
    start := PageTable.blank.fresh ⟨0x400000, 0x40000, true, true, false⟩ }

theorem mapped_codeSpace : Mapped codeMem codeSpace := by
  obtain ⟨hent, hok⟩ := PageTable.blank.entries_fresh (e := ⟨0x400000, 0x40000, true, true, false⟩)
    (by decide)
  have hentries : codeSpace.entries = [⟨0x400000, 0x40000, true, true, false⟩] := (append_nil _).trans hent
  refine ⟨⟨chain_singleton.mpr hok, rfl, fun e he => ?_⟩, ?_, ?_⟩
  · obtain rfl := mem_singleton.mp (hentries ▸ he)
    exact ⟨0, ⟨by decide, rfl⟩, by decide⟩
  · rw [hentries]
    exact nodup_singleton _
  · rw [hentries]
    exact nodup_singleton _

def Cpu.next (s : Cpu) (a : Access) : Option Cpu := (s.access a).map Prod.snd

theorem accessStep_of_next {a : Access} (h : s.next a = some s') : AccessStep s a s' := by
  obtain ⟨x, hx, rfl⟩ := Option.map_eq_some_iff.mp h
  exact ⟨x.1, hx⟩

/-- TLB に無い code の page への store は `EFAULT` になり、何も変えない。 -/
theorem readOnly_kept_iff_store_miss :
    ∃ m as u tr, Mapped m as ∧
      Run AccessStep ⟨⟨m, asCompleteLoad as⟩, Tlb.flushed⟩ tr u ∧
      tr.map (fun x => x.label) = [.store 0x400000 1 0] ∧ ∀ x ∈ tr, ReadOnlyKept x.pre x.post := by
  obtain ⟨s, u, hs, hrun, hlabels, hmiss⟩ := Run.exists_of_any Cpu.next
    (some ⟨⟨codeMem, asCompleteLoad codeSpace⟩, Tlb.flushed⟩) [.store 0x400000 1 0]
    (fun s _ => (Run.trace Cpu.next s [.store 0x400000 1 0]).all fun x =>
      (x.pre.tlb.lookup 0x400000).isNone)
    (by decide +kernel)
  obtain rfl := Option.some.inj hs
  have hrun := hrun.mono accessStep_of_next
  refine ⟨_, _, u, _, mapped_codeSpace, hrun, hlabels,
    (readOnly_kept_iff mapped_codeSpace (tlbAgrees_flushed _) hrun).mpr ?_⟩
  intro x hx
  rw [Run.forall_label (P := fun a => a = .store 0x400000 1 0) hlabels (by simp) x hx]
  intro _ _ _ _ i hi
  have hnone := Option.isNone_iff_eq_none.mp (all_eq_true.mp hmiss x hx)
  cases hnone.symm.trans hi

/-- code の page を load してから store すると、store は fault を起こさずに通る。 -/
theorem store_changes_code_page :
    ∃ m as u tr b, Mapped m as ∧
      Run AccessStep ⟨⟨m, asCompleteLoad as⟩, Tlb.flushed⟩ tr u ∧
      tr.map (fun x => x.label) = [.load 0x400000 0, .store 0x400000 b 0] ∧
      ∃ e ∈ (asCompleteLoad as).entries, e.pageVaddr = 0x400000 ∧ e.isWrite = false ∧
        u.mem.page e.pagePaddr ≠ m.page e.pagePaddr := by
  obtain ⟨s, u, hs, hrun, hlabels, hchanged⟩ := Run.exists_of_any Cpu.next
    (some ⟨⟨codeMem, asCompleteLoad codeSpace⟩, Tlb.flushed⟩) [.load 0x400000 0, .store 0x400000 1 0]
    (fun s u => s.as.entries.any fun e => decide (e.pageVaddr = 0x400000 ∧ e.isWrite = false ∧
      u.mem.page e.pagePaddr 0 ≠ s.mem.page e.pagePaddr 0)) (by decide +kernel)
  obtain rfl := Option.some.inj hs
  obtain ⟨e, he, hpage⟩ := any_eq_true.mp hchanged
  obtain ⟨hv, hw, hne⟩ := of_decide_eq_true hpage
  exact ⟨_, _, u, _, 1, mapped_codeSpace, hrun.mono accessStep_of_next, hlabels, e, he, hv, hw,
    fun heq => hne (congrFun heq 0)⟩

end Os161
