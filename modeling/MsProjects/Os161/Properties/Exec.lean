import MsProjects.Infra.Ownership
import MsProjects.Os161.Thread.Exec
import MsProjects.Os161.Properties.Load
import MsProjects.Os161.Properties.Release
import MsProjects.Os161.Properties.Tlb

/-! # TLB と thread の切り替え、execv -/

namespace Os161

open Infra List Function Sys

open Option (some)

variable {as temp : AddrSpace} {m mem : Mem} {q : Paddr} {c c₁ : Cur} {k : Nat × AsPtr}

/-! ## address space が持つ page -/

def AddrSpace.footprint (as : AddrSpace) : Set Paddr :=
  {p | p ∈ as.entries.map PageEntry.pagePaddr ∨ p ∈ as.blocks}

structure AddrSpace.Wf (as : AddrSpace) : Prop where
  chain : Chain as.tables
  endLast : as.EndLast

theorem AddrSpace.frame_mem_footprint {e : PageEntry} (he : e ∈ as.entries) :
    e.pagePaddr ∈ as.footprint :=
  Or.inl (mem_map_of_mem he)

theorem AddrSpace.Wf.backed (h : as.Wf) (hheld : ∀ p ∈ as.footprint, m.Held p) : Backed m as :=
  ⟨h.chain, h.endLast, fun _ he => (hheld _ (frame_mem_footprint he)).allocated⟩

/-! ### as_destroy -/

theorem mem_released_iff {p : Paddr} : p ∈ as.released ↔ p ∈ as.footprint := by
  rw [AddrSpace.released_eq]
  simp only [AddrSpace.footprint, AddrSpace.blocks, AddrSpace.tables, map_cons, map_append,
    map_nil, mem_append, mem_cons, not_mem_nil, or_false, Set.mem_ofPred_eq]
  tauto

theorem isFrame_foldl_pageFree {ps : List Paddr} :
    (ps.foldl Mem.pageFree m).IsFrame q ↔ m.IsFrame q := by
  induction ps generalizing m with
  | nil => rfl
  | cons p ps ih => exact ih

theorem isFrame_asDestroy : (asDestroy m as).IsFrame q ↔ m.IsFrame q := by
  rw [asDestroy_eq]
  exact isFrame_foldl_pageFree

theorem held_asDestroy (hfp : ∀ p ∈ as.footprint, m.IsFrame p) (hq : m.Held q)
    (hne : q ∉ as.footprint) : (asDestroy m as).Held q := by
  rw [asDestroy_eq]
  exact Mem.held_foldl_pageFree (fun p hp => hfp p (mem_released_iff.mp hp)) hq
    (mt mem_released_iff.mp hne)

/-! ### page を足す操作 -/

/-- address space が、使われていなかった page だけを加えて大きくなる。 -/
structure Enlarges (c c' : Cur) : Prop where
  wf : c'.as.Wf
  keeps : c.mem.Keeps c'.mem
  held : ∀ p ∈ c'.as.footprint, c'.mem.Held p
  fresh : ∀ p ∈ c'.as.footprint, p ∈ c.as.footprint ∨ ¬ c.mem.Held p
  agrees : ∀ tlb, TlbAgrees tlb c.as → TlbAgrees tlb c'.as

theorem Enlarges.refl (hwf : c.as.Wf) (hheld : ∀ p ∈ c.as.footprint, c.mem.Held p) : Enlarges c c :=
  ⟨hwf, Mem.Keeps.refl _, hheld, fun _ hp => Or.inl hp, fun _ ha => ha⟩

theorem Enlarges.trans {c₂ c₃ : Cur} (h : Enlarges c₁ c₂) (h' : Enlarges c₂ c₃) :
    Enlarges c₁ c₃ where
  wf := h'.wf
  keeps := h.keeps.trans h'.keeps
  held := h'.held
  fresh := by
    intro p hp
    rcases h'.fresh p hp with hp | hfree
    · exact h.fresh p hp
    · exact Or.inr (mt (h.keeps.held p) hfree)
  agrees := fun tlb ha => h'.agrees tlb (h.agrees tlb ha)

theorem enlarges_takePage {e : PageEntry} (hwf : c.as.Wf)
    (hheld : ∀ p ∈ c.as.footprint, c.mem.Held p)
    (halloc : c.mem.allocUpage = some (e.pagePaddr, mem))
    (hadd : addPageEntry ⟨mem, c.as⟩ e = some c₁) :
    Enlarges c { c₁ with mem := c₁.mem.asZeroRegion e.pagePaddr } := by
  have htakes := (Mem.allocUpage_some halloc).1
  have hk := keeps_takePage htakes hadd
  obtain ⟨hent, hch, hend, _, _⟩ :=
    addPageEntry_append (c := ⟨mem, c.as⟩) hwf.chain hwf.endLast htakes.ne_zero hadd
  -- 足した page は、取った frame か、`addPageEntry` が取った block である
  have hnew : ∀ p ∈ c₁.as.footprint, p ∈ c.as.footprint ∨ ¬ c.mem.Held p ∧ c₁.mem.Held p := by
    rintro p (hp | hp)
    · rw [hent, map_append] at hp
      rcases mem_append.mp hp with hp | hp
      · exact Or.inl (Or.inl hp)
      · obtain rfl : p = e.pagePaddr := by simpa using hp
        exact Or.inr ⟨fun h => htakes.fresh h.allocated,
          (addPageEntry_mem hadd).1.held _ (htakes.held _ (Or.inr rfl))⟩
    · rcases addPageEntry_blocks_cases (c := ⟨mem, c.as⟩) hwf.chain hwf.endLast htakes.ne_zero hadd
        with ⟨hb, _⟩ | ⟨q, hb, hq⟩
      · rw [hb] at hp
        exact Or.inl (Or.inr hp)
      · rw [hb] at hp
        rcases mem_append.mp hp with hp | hp
        · exact Or.inl (Or.inr hp)
        · obtain rfl := mem_singleton.mp hp
          exact Or.inr ⟨fun h => hq.fresh (htakes.keeps.held _ h).allocated, hq.held _ (Or.inr rfl)⟩
  refine ⟨⟨hch, hend⟩, hk, ?_, ?_, fun _ ha => ha.mono fun _ _ => findEntry_append hent⟩
  · intro p hp
    rcases hnew p hp with hp | ⟨_, hp⟩
    · exact hk.held p (hheld p hp)
    · exact hp
  · exact fun p hp => (hnew p hp).imp id And.left

theorem Grows.enlarges {page : Vaddr} {paddr : Paddr} {c' : Cur} (hg : Grows page c paddr c')
    (hwf : c.as.Wf) (hheld : ∀ p ∈ c.as.footprint, c.mem.Held p) : Enlarges c c' := by
  obtain ⟨_, _, mem, c₁, halloc, hadd, rfl⟩ := hg
  exact enlarges_takePage (e := ⟨page, paddr, true, true, false⟩) hwf hheld halloc hadd

theorem prepareLoop_enlarges {base : Vaddr} {n : Nat} {i : UInt32} {r : Except Errno Unit × Cur}
    (hwf : c.as.Wf) (hheld : ∀ p ∈ c.as.footprint, c.mem.Held p)
    (h : prepareLoop base n i c = some r) :
    ∃ c₁, Enlarges c c₁ ∧
      (r = (.ok (), c₁) ∨ ∃ err, r = (.error err, { c₁ with mem := asDestroy c₁.mem c₁.as })) := by
  induction n generalizing i c with
  | zero =>
    simp only [prepareLoop, some.injEq] at h
    exact ⟨c, Enlarges.refl hwf hheld, Or.inl h.symm⟩
  | succ n ih =>
    rw [prepareLoop] at h
    split at h
    · simp only [some.injEq] at h
      exact ⟨c, Enlarges.refl hwf hheld, Or.inr ⟨_, h.symm⟩⟩
    · next paddr mem halloc =>
      split at h
      · cases h
      · next c₁ hadd =>
        have hstep := enlarges_takePage (e := ⟨base + pageSize * i, paddr, true, true, false⟩)
          hwf hheld halloc hadd
        obtain ⟨c₂, hc₂, hr⟩ := ih hstep.wf hstep.held h
        exact ⟨c₂, hstep.trans hc₂, hr⟩

theorem asPrepareLoad_enlarges {r : Except Errno Unit × Cur} (hwf : c.as.Wf)
    (hheld : ∀ p ∈ c.as.footprint, c.mem.Held p) (h : asPrepareLoad c = some r) :
    ∃ c₁, Enlarges c c₁ ∧
      (r = (.ok (), c₁) ∨ ∃ err, r = (.error err, { c₁ with mem := asDestroy c₁.mem c₁.as })) := by
  unfold asPrepareLoad at h
  split at h
  · next c₁ hloop =>
    obtain ⟨c₂, hc₂, heq | ⟨err, heq⟩⟩ := prepareLoop_enlarges hwf hheld hloop
    · simp only [Prod.mk.injEq, true_and] at heq
      subst heq
      obtain ⟨c₃, hc₃, hr⟩ := prepareLoop_enlarges hc₂.wf hc₂.held h
      exact ⟨c₃, hc₂.trans hc₃, hr⟩
    · simp at heq
  · exact prepareLoop_enlarges hwf hheld h

theorem asCreate_enlarges (h : asCreate m = some (as, mem)) :
    as.Wf ∧ m.Keeps mem ∧ (∀ p ∈ as.footprint, mem.Held p) ∧ ∀ p ∈ as.footprint, ¬ m.Held p := by
  obtain ⟨hent, hch, hend, _, hnext, _, htakes⟩ := asCreate_some h
  have hfp : ∀ p ∈ as.footprint, p = kvaddrToPaddr as.start.addr := by
    rintro p (hp | hp)
    · simp [hent] at hp
    · simpa [AddrSpace.blocks, AddrSpace.tables, hnext] using hp
  refine ⟨⟨hch, hend⟩, htakes.keeps, ?_, ?_⟩
  · intro p hp
    exact htakes.held p (Or.inr (hfp p hp))
  · intro p hp hheld
    rw [hfp p hp] at hheld
    exact htakes.fresh hheld.allocated

theorem asDefineRegion_enlarges {as' : AddrSpace} {vaddr sz : UInt32} (hwf : as.Wf)
    (hheld : ∀ p ∈ as.footprint, m.Held p) (h : asDefineRegion as vaddr sz = .ok as') :
    Enlarges ⟨m, as⟩ ⟨m, as'⟩ := by
  obtain ⟨hstart, hnext, hend⟩ := asDefineRegion_tables h
  have ht : as'.tables = as.tables := by unfold AddrSpace.tables; rw [hstart, hnext]
  have hfp : as'.footprint = as.footprint := by
    unfold AddrSpace.footprint AddrSpace.entries AddrSpace.blocks
    rw [ht]
  refine ⟨⟨?_, ?_⟩, Mem.Keeps.refl _, ?_, fun p hp => Or.inl (hfp ▸ hp), ?_⟩
  · show Chain as'.tables
    rw [ht]
    exact hwf.chain
  · show as'.end = as'.next.length
    rw [hend, hnext]
    exact hwf.endLast
  · intro p hp
    exact hheld p (hfp ▸ hp)
  · intro tlb ha
    exact ha.mono fun v e he => by rw [ht]; exact he

theorem asCompleteLoad_enlarges (hwf : as.Wf) (hheld : ∀ p ∈ as.footprint, m.Held p) :
    Enlarges ⟨m, as⟩ ⟨m, asCompleteLoad as⟩ := by
  have hb := (hwf.backed hheld).complete
  have hblocks : (asCompleteLoad as).blocks = as.blocks := by
    unfold AddrSpace.blocks
    rw [tables_asCompleteLoad]
    refine congrArg (map kvaddrToPaddr) ?_
    rw [map_map]
    rfl
  have hfp : (asCompleteLoad as).footprint = as.footprint := by
    unfold AddrSpace.footprint
    rw [hblocks, map_entries_asCompleteLoad as _ fun e => (completeEntry_vaddr_paddr _ _ e).2]
  exact ⟨⟨hb.chain, hb.endLast⟩, Mem.Keeps.refl _, fun p hp => hheld p (hfp ▸ hp),
    fun p hp => Or.inl (hfp ▸ hp), fun _ ha => ha.complete⟩

/-! ## 系の不変量 -/

def spaceFoot : Option AddrSpace → Set Paddr
  | none => ∅
  | some as => as.footprint

namespace Sys

variable {s s' : Sys}

/-- どの pointer が何を持つか。 -/
def foot (s : Sys) : Nat × AsPtr → Set Paddr := spaceFoot ∘ s.space

structure Inv (s : Sys) : Prop where
  wf : ∀ k as, s.space k = some as → as.Wf
  owned : Ownership s.mem.Held s.foot
  agrees : ∀ as, s.tAddrspace = some as → TlbAgrees s.tlb as

/--
user mode で走る thread から、他の address space の frame にも、壊れた address space の
frame にも届かない。
-/
def Safe (s : Sys) : Prop :=
  ∀ as, s.tAddrspace = some as → s.oldaddr = none → ∀ i, (s.tlb i).valid = true →
    (∃ e, findEntry (s.tlb i).vpage as.tables = some e ∧ e.pagePaddr = (s.tlb i).ppage) ∧
    s.mem.Held (s.tlb i).ppage ∧
    ∀ k other, k ≠ (s.cur, .tAddrspace) → s.space k = some other → (s.tlb i).ppage ∉ other.footprint

theorem tAddrspace_put (s : Sys) (c : Cur) : (s.put c).tAddrspace = some c.as := update_self _ _ _

theorem oldaddr_undo (s : Sys) (c : Cur) (old : AddrSpace) : (s.undo c old).oldaddr = none :=
  update_self _ _ _

theorem tAddrspace_undo (s : Sys) (c : Cur) (old : AddrSpace) :
    (s.undo c old).tAddrspace = some old := by
  show update (update s.space (s.cur, .tAddrspace) (some old)) (s.cur, .oldaddr)
    none (s.cur, .tAddrspace) = _
  rw [update_of_ne (by simp), update_self]

theorem foot_of_space (h : s.space k = some as) : s.foot k = as.footprint := by
  unfold foot
  rw [comp_apply, h]
  rfl

theorem Inv.held (hI : s.Inv) (h : s.space k = some as) : ∀ p ∈ as.footprint, s.mem.Held p := by
  intro p hp
  exact hI.owned.held k p (by rw [foot_of_space h]; exact hp)

theorem Inv.apart (hI : s.Inv) {l : Nat × AsPtr} {other : AddrSpace} (hkl : k ≠ l)
    (hk : s.space k = some as) (hl : s.space l = some other) :
    ∀ p ∈ as.footprint, p ∉ other.footprint := by
  intro p hp
  rw [← foot_of_space hl]
  exact hI.owned.disjoint k l hkl p (by rw [foot_of_space hk]; exact hp)

theorem Inv.safe (hI : s.Inv) : s.Safe := by
  intro as has _ i hi
  obtain ⟨e, he, hp⟩ := hI.agrees as has i hi
  have hmem : (s.tlb i).ppage ∈ as.footprint :=
    hp ▸ AddrSpace.frame_mem_footprint (findEntry_some he).1
  exact ⟨⟨e, he, hp⟩, hI.held has _ hmem, fun k other hk ho => hI.apart hk.symm has ho _ hmem⟩

theorem wf_update {space : Nat × AsPtr → Option AddrSpace} (h : ∀ k as, space k = some as → as.Wf)
    {x : Option AddrSpace} (hx : ∀ as, x = some as → as.Wf) :
    ∀ l as, update space k x l = some as → as.Wf := by
  intro l as hl
  by_cases hlk : l = k
  · subst hlk
    rw [update_self] at hl
    exact hx as hl
  · rw [update_of_ne hlk] at hl
    exact h l as hl

theorem Inv.put (hI : s.Inv) {tlb : Tlb} (has : s.tAddrspace = some as)
    (hc : Enlarges ⟨s.mem, as⟩ c) (ha : TlbAgrees tlb c.as) : Inv { s.put c with tlb := tlb } := by
  refine ⟨wf_update hI.wf ?_, ?_, ?_⟩
  · rintro _ ⟨⟩
    exact hc.wf
  · show Ownership c.mem.Held (spaceFoot ∘ update s.space _ (some c.as))
    rw [comp_update]
    refine hI.owned.update (fun p _ => hc.keeps.held p) hc.held ?_
    intro p hp
    rw [foot_of_space has]
    exact hc.fresh p hp
  · intro as' has'
    obtain rfl : c.as = as' := some.inj ((tAddrspace_put s c).symm.trans has')
    exact ha

theorem Inv.undo (hI : s.Inv) {old : AddrSpace} (ht : s.tAddrspace = some temp)
    (ho : s.oldaddr = some old)
    (hk : ∀ p, p ∉ temp.footprint → s.mem.Held p → (asDestroy c.mem c.as).Held p)
    (hempty : ∀ i, (s.tlb i).valid = false) : Inv (s.undo c old) := by
  have hne : (s.cur, AsPtr.oldaddr) ≠ (s.cur, AsPtr.tAddrspace) := by simp
  refine ⟨wf_update (wf_update hI.wf ?_) ?_, ?_, fun as _ => tlbAgrees_of_not_valid hempty as⟩
  · rintro _ ⟨⟩
    exact hI.wf _ _ ho
  · rintro _ ⟨⟩
  · show Ownership _ (spaceFoot ∘ update (update s.space _ (some old)) _ none)
    rw [comp_update, comp_update]
    -- `temp_as` を手放してから、`oldaddr` の持ち物を `t_addrspace` に移す
    have hk' : ∀ p, p ∉ s.foot (s.cur, .tAddrspace) → s.mem.Held p →
        (asDestroy c.mem c.as).Held p := by
      rw [foot_of_space ht]
      exact hk
    have hrel := hI.owned.release hk'
    have hmove := hrel.move hne (update_self _ _ _)
    rw [update_of_ne hne, update_idem, foot_of_space ho] at hmove
    exact hmove

theorem Inv.held_destroy (hI : s.Inv) (h : s.space k = some as) :
    ∀ p, p ∉ s.foot k → s.mem.Held p → (asDestroy s.mem as).Held p := by
  intro p hp hheld
  rw [foot_of_space h] at hp
  exact held_asDestroy (fun q hq => (hI.held h q hq).isFrame) hheld hp

theorem Inv.owned_destroy (hI : s.Inv) (h : s.space k = some as) :
    Ownership (asDestroy s.mem as).Held (spaceFoot ∘ update s.space k none) := by
  rw [comp_update]
  exact hI.owned.release (hI.held_destroy h)

theorem held_destroy_twice (hc : Enlarges c c₁) :
    ∀ p, p ∉ c.as.footprint → c.mem.Held p → (asDestroy (asDestroy c₁.mem c₁.as) c₁.as).Held p := by
  intro p hp hheld
  have hp₁ : p ∉ c₁.as.footprint := by
    intro h
    rcases hc.fresh p h with h | h
    · exact hp h
    · exact h hheld
  have hframe : ∀ q ∈ c₁.as.footprint, c₁.mem.IsFrame q := fun q hq => (hc.held q hq).isFrame
  have hone := held_asDestroy hframe (hc.keeps.held p hheld) hp₁
  exact held_asDestroy (fun q hq => isFrame_asDestroy.mpr (hframe q hq)) hone hp₁

/-! ## 一つの step -/

/-- `sys_execv` を失敗で終える step。 -/
def Undoes (s : Sys) : SysOp → Prop
  | .execFail => True
  | .loadPrepare =>
    ∃ temp err c, s.tAddrspace = some temp ∧ asPrepareLoad ⟨s.mem, temp⟩ = some (.error err, c)
  | _ => False

/-- `sys_execv` を失敗で終えるとき、TLB に有効な枠は無い。 -/
def UndoClean (s : Sys) (op : SysOp) : Prop := s.Undoes op → ∀ i, (s.tlb i).valid = false

section

variable (hI : s.Inv)

include hI

theorem Inv.faultStep {ft : FaultType} {addr : Vaddr} {random : Fin numTlb}
    (h : s.step (.fault ft addr random) = some s') : s'.Inv := by
  rw [step] at h
  split at h
  · cases h
  · next as has =>
    have hheld := hI.held has
    have hwf := hI.wf _ _ has
    split at h
    · cases h
    · next r c hf =>
      simp only [some.injEq] at h
      subst h
      obtain ⟨ha, hsame | ⟨paddr, hg⟩⟩ := vmFault_agrees (hwf.backed hheld) (hI.agrees as has) hf
      · refine hI.put has ?_ ha
        rw [hsame]
        exact Enlarges.refl hwf hheld
      · exact hI.put has (hg.enlarges hwf hheld) ha

theorem Inv.switchStep {next : Nat} (h : s.step (.switch next) = some s') : s'.Inv := by
  rw [step] at h
  split at h
  · simp only [some.injEq] at h
    subst h
    exact ⟨hI.wf, hI.owned, fun as _ => tlbAgrees_flushed as⟩
  · next hnone =>
    simp only [some.injEq] at h
    subst h
    refine ⟨hI.wf, hI.owned, ?_⟩
    intro as has
    rw [has] at hnone
    exact absurd rfl hnone

theorem Inv.execBeginStep (h : s.step .execBegin = some s') : s'.Inv := by
  rw [step] at h
  split at h
  · next old hold hnone =>
    split at h
    · simp only [some.injEq] at h
      exact h ▸ hI
    · next temp mem hcreate =>
      simp only [some.injEq] at h
      subst h
      obtain ⟨hwf, hk, hheld, hfresh⟩ := asCreate_enlarges hcreate
      have hne : (s.cur, AsPtr.tAddrspace) ≠ (s.cur, AsPtr.oldaddr) := by simp
      refine ⟨wf_update (wf_update hI.wf ?_) ?_, ?_, fun as _ => tlbAgrees_flushed as⟩
      · rintro _ ⟨⟩
        exact hI.wf _ _ hold
      · rintro _ ⟨⟩
        exact hwf
      · show Ownership mem.Held (spaceFoot ∘ update (update s.space _ (some old)) _ (some temp))
        rw [comp_update, comp_update]
        -- 古い方を `oldaddr` に移し、空いた `t_addrspace` に新しい方を置く
        have hempty : s.foot (s.cur, .oldaddr) = ∅ := by
          unfold foot
          rw [comp_apply, show s.space (s.cur, .oldaddr) = none from hnone]
          rfl
        have hmove := (hI.owned.move hne hempty).update (i := (s.cur, .tAddrspace))
          (fun p _ => hk.held p) hheld fun p hp => Or.inr (hfresh p hp)
        rw [update_idem, foot_of_space hold] at hmove
        exact hmove
  · cases h

theorem Inv.loadRegionStep {vaddr sz : UInt32} (h : s.step (.loadRegion vaddr sz) = some s') :
    s'.Inv := by
  rw [step] at h
  split at h
  · next temp _ ht _ =>
    split at h
    · next temp' hdef =>
      simp only [some.injEq] at h
      subst h
      have hen := asDefineRegion_enlarges (hI.wf _ _ ht) (hI.held ht) hdef
      exact hI.put ht hen (hen.agrees _ (hI.agrees _ ht))
    · simp only [some.injEq] at h
      exact h ▸ hI
  · cases h

theorem Inv.loadPrepareStep (h : s.step .loadPrepare = some s') (hok : s.UndoClean .loadPrepare) :
    s'.Inv := by
  rw [step] at h
  split at h
  · next temp old ht ho =>
    split at h
    · cases h
    · next c hp =>
      simp only [some.injEq] at h
      subst h
      obtain ⟨c₁, hen, heq | ⟨_, heq⟩⟩ := asPrepareLoad_enlarges (c := ⟨s.mem, temp⟩)
        (hI.wf _ _ ht) (hI.held ht) hp
      · simp only [Prod.mk.injEq, true_and] at heq
        subst heq
        exact hI.put ht hen (hen.agrees _ (hI.agrees _ ht))
      · simp at heq
    · next err c hp =>
      simp only [some.injEq] at h
      subst h
      obtain ⟨c₁, hen, heq | ⟨_, heq⟩⟩ := asPrepareLoad_enlarges (c := ⟨s.mem, temp⟩)
        (hI.wf _ _ ht) (hI.held ht) hp
      · simp at heq
      · simp only [Prod.mk.injEq] at heq
        obtain ⟨-, rfl⟩ := heq
        exact hI.undo ht ho (held_destroy_twice hen) (hok ⟨temp, err, _, ht, hp⟩)
  · cases h

theorem Inv.loadCompleteStep (h : s.step .loadComplete = some s') : s'.Inv := by
  rw [step] at h
  split at h
  · next temp _ ht _ =>
    simp only [some.injEq] at h
    subst h
    have hen := asCompleteLoad_enlarges (hI.wf _ _ ht) (hI.held ht)
    exact hI.put ht hen (hen.agrees _ (hI.agrees _ ht))
  · cases h

theorem Inv.execFailStep (h : s.step .execFail = some s') (hok : s.UndoClean .execFail) :
    s'.Inv := by
  rw [step] at h
  split at h
  · next temp old ht ho =>
    simp only [some.injEq] at h
    subst h
    refine hI.undo ht ho ?_ (hok trivial)
    rw [← foot_of_space ht]
    exact hI.held_destroy ht
  · cases h

theorem Inv.execOkStep (h : s.step .execOk = some s') : s'.Inv := by
  rw [step] at h
  split at h
  · next temp old ht ho =>
    simp only [some.injEq] at h
    subst h
    refine ⟨wf_update hI.wf (by rintro _ ⟨⟩), hI.owned_destroy ho, ?_⟩
    intro as has
    simp only [tAddrspace, set] at has
    rw [update_of_ne (by simp)] at has
    exact hI.agrees as has
  · cases h

theorem Inv.exitStep {next : Nat} (h : s.step (.exit next) = some s') : s'.Inv := by
  rw [step] at h
  split at h
  · next as ht _ =>
    simp only [some.injEq] at h
    subst h
    exact ⟨wf_update hI.wf (by rintro _ ⟨⟩), hI.owned_destroy ht, fun as _ => tlbAgrees_flushed as⟩
  · cases h

theorem Inv.step {op : SysOp} (h : s.step op = some s') (hok : s.UndoClean op) : s'.Inv := by
  cases op with
  | fault ft addr random => exact hI.faultStep h
  | switch next => exact hI.switchStep h
  | execBegin => exact hI.execBeginStep h
  | loadRegion vaddr sz => exact hI.loadRegionStep h
  | loadPrepare => exact hI.loadPrepareStep h hok
  | loadComplete => exact hI.loadCompleteStep h
  | execFail => exact hI.execFailStep h hok
  | execOk => exact hI.execOkStep h
  | exit next => exact hI.exitStep h

end

theorem step_of_undoes {op : SysOp} (h : s.step op = some s') (hu : s.Undoes op) :
    ∃ temp old c, s.tAddrspace = some temp ∧ s.oldaddr = some old ∧ s' = s.undo c old := by
  cases op with
  | execFail =>
    rw [step] at h
    split at h
    · next temp old ht ho =>
      simp only [some.injEq] at h
      exact ⟨temp, old, _, ht, ho, h.symm⟩
    · cases h
  | loadPrepare =>
    obtain ⟨temp, err, c, ht, hp⟩ := hu
    rw [step] at h
    split at h
    · next temp' old ht' ho =>
      obtain rfl : temp' = temp := by
        rw [ht] at ht'
        exact (some.inj ht').symm
      rw [hp] at h
      simp only [some.injEq] at h
      exact ⟨temp', old, c, ht, ho, h.symm⟩
    · cases h
  | _ => exact absurd hu id

theorem Inv.not_safe_undo (hI : s.Inv) {old : AddrSpace} (ht : s.tAddrspace = some temp)
    (ho : s.oldaddr = some old) {i : Fin numTlb} (hi : (s.tlb i).valid = true) :
    ¬ (s.undo c old).Safe := by
  intro hsafe
  obtain ⟨⟨e, he, hp⟩, _⟩ := hsafe old (tAddrspace_undo s c old) (oldaddr_undo s c old) i hi
  obtain ⟨e', he', hp'⟩ := hI.agrees temp ht i hi
  refine hI.apart (by simp) ht ho _ (AddrSpace.frame_mem_footprint (findEntry_some he').1) ?_
  rw [hp', ← show e.pagePaddr = (s.tlb i).ppage from hp]
  exact AddrSpace.frame_mem_footprint (findEntry_some he).1

end Sys

def SysStep (s : Sys) (op : SysOp) (s' : Sys) : Prop := s.step op = some s'

/--
**一つの CPU の上の fault、切り替え、`sys_execv`、終了のどの列でも、user mode の TLB が
いつも自分の page table と一致することは、失敗した `sys_execv` が戻るときに TLB が
いつも空であることと同じである。**
-/
theorem tlb_safe_iff {s u : Sys} {tr : List (Transition Sys SysOp)} (hs : s.Inv)
    (hrun : Run SysStep s tr u) :
    (s.Safe ∧ ∀ x ∈ tr, x.post.Safe) ↔ ∀ x ∈ tr, x.pre.UndoClean x.label := by
  rw [and_iff_right hs.safe]
  refine hrun.forall_iff (I := Sys.Inv) (G := fun _ _ q => q.Safe) ?_ ?_ hs
  · intro p a q hI hstep hok
    have hI' := hI.step hstep hok
    exact ⟨hI', hI'.safe⟩
  · intro p a q hI hstep hbad
    simp only [Sys.UndoClean, not_forall, Bool.not_eq_false] at hbad
    obtain ⟨hu, i, hi⟩ := hbad
    obtain ⟨temp, old, c, ht, ho, rfl⟩ := step_of_undoes hstep hu
    exact hI.not_safe_undo ht ho hi

/-! ### 具体的な列 -/

/-- 一つの process だけがいる系。 -/
def Sys.single (m : Mem) (as : AddrSpace) : Sys where
  mem := m
  tlb := Tlb.flushed
  cur := 0
  space := update (fun _ => none) (0, .tAddrspace) (some as)

theorem Sys.inv_single (h : asCreate m = some (as, mem)) : (single mem as).Inv := by
  obtain ⟨hwf, _, hheld, _⟩ := asCreate_enlarges h
  have hspace : ∀ k x, (single mem as).space k = some x → k = (0, .tAddrspace) ∧ x = as := by
    intro k x hx
    by_cases hk : k = (0, .tAddrspace)
    · subst hk
      exact ⟨rfl, (some.inj hx).symm⟩
    · simp [single, update_of_ne hk] at hx
  refine ⟨?_, ⟨?_, ?_⟩, fun x _ => tlbAgrees_flushed x⟩
  · intro k x hx
    rw [(hspace k x hx).2]
    exact hwf
  · intro k p hp
    cases hk : (single mem as).space k with
    | none => simp [foot, hk, spaceFoot] at hp
    | some x =>
      rw [foot_of_space hk, (hspace k x hk).2] at hp
      exact hheld p hp
  · intro k l hkl p hp hp'
    cases hk : (single mem as).space k with
    | none => simp [foot, hk, spaceFoot] at hp
    | some x =>
      cases hl : (single mem as).space l with
      | none => simp [foot, hl, spaceFoot] at hp'
      | some y => exact hkl ((hspace k x hk).1.trans (hspace l y hl).1.symm)

theorem Mem.ten_le : 10 ≤ 100000 := by decide

/-- page が十枚の memory に、空の address space の process が一つだけいる系。 -/
def Sys.booted : Option Sys := (asCreate (Mem.boot 10 Mem.ten_le)).map fun x => single x.2 x.1

theorem Sys.inv_booted {s : Sys} (h : booted = some s) : s.Inv := by
  obtain ⟨x, hx, rfl⟩ := Option.map_eq_some_iff.mp h
  exact inv_single hx

/-- 読み込む前に失敗すれば TLB は空のままで、戻った後の stack の fault が自分の枠を入れる。 -/
theorem tlb_safe_iff_fail_early :
    ∃ s u tr, s.Inv ∧ Run SysStep s tr u ∧
      tr.map (fun x => x.label) =
        [.execBegin, .loadRegion 0x400000 4096, .loadPrepare, .execFail, .fault .write 0x7fffe000 0] ∧
      (u.tlb 0).valid = true ∧ (u.tlb 0).vpage = 0x7fffe000 ∧ ∀ x ∈ tr, x.post.Safe := by
  obtain ⟨s, u, hs, hrun, hlabels, hfacts⟩ := Run.exists_of_any step booted
    [.execBegin, .loadRegion 0x400000 4096, .loadPrepare, .execFail, .fault .write 0x7fffe000 0]
    (fun s u => ((Run.trace step s [.execBegin, .loadRegion 0x400000 4096, .loadPrepare, .execFail,
      .fault .write 0x7fffe000 0]).all fun x => decide (∀ i, (x.pre.tlb i).valid = false)) &&
      ((u.tlb 0).valid && (u.tlb 0).vpage = 0x7fffe000)) (by decide +kernel)
  simp only [Bool.and_eq_true, decide_eq_true_eq] at hfacts
  obtain ⟨hclean, hvalid, hpage⟩ := hfacts
  have hI := inv_booted hs
  refine ⟨s, u, _, hI, hrun, hlabels, hvalid, hpage,
    ((tlb_safe_iff hI hrun).mpr fun x hx _ => ?_).2⟩
  exact of_decide_eq_true (all_eq_true.mp hclean x hx)

/--
最初の segment を書き込んだ後に `load_elf` が失敗すると、古い address space で user mode に
戻った後も、新しい address space の page `0x400000` の枠が有効なまま残る。
-/
theorem failed_exec_leaves_stale_entry :
    ∃ s u tr, s.Inv ∧ Run SysStep s tr u ∧
      tr.map (fun x => x.label) =
        [.execBegin, .loadRegion 0x400000 4096, .loadPrepare, .fault .write 0x400000 0, .execFail] ∧
      ∃ as i, u.tAddrspace = some as ∧ u.oldaddr = none ∧ (u.tlb i).valid = true ∧
        (u.tlb i).vpage = 0x400000 ∧ findEntry 0x400000 as.tables = none := by
  obtain ⟨s, u, hs, hrun, hlabels, hstale⟩ := Run.exists_of_any step booted
    [.execBegin, .loadRegion 0x400000 4096, .loadPrepare, .fault .write 0x400000 0, .execFail]
    (fun _ u => (u.tAddrspace.any fun as => (findEntry 0x400000 as.tables).isNone) && u.oldaddr.isNone &&
      (u.tlb 0).valid && (u.tlb 0).vpage = 0x400000) (by decide +kernel)
  simp only [Bool.and_eq_true, Option.any_eq_true, Option.isNone_iff_eq_none, decide_eq_true_eq] at hstale
  obtain ⟨⟨⟨⟨as, has, hfind⟩, hold⟩, hvalid⟩, hpage⟩ := hstale
  exact ⟨s, u, _, inv_booted hs, hrun, hlabels, as, 0, has, hold, hvalid, hpage, hfind⟩

end Os161
