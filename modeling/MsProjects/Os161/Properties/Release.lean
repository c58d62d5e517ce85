import MsProjects.Os161.Properties.PageTable

/-! # 取った frame を返す -/

namespace Os161

open List Function CmEntry

open Coremap (indextopaddr_inj removefromcoremap)

namespace Coremap

variable {cm : Coremap}

variable {i k j : Nat} {q : Paddr}

/-- 空いている要素の値は `init_coremap` が書いた値である。 -/
def Clean (cm : Coremap) : Prop :=
  ∀ k < cm.cmEntries, (cm.entry k).isAllocated = false → cm.entry k = free

theorem clean_initCoremap (l : CmLayout) (mem : Nat → CmEntry) : (initCoremap l mem).Clean :=
  fun _ hk _ => if_pos hk

theorem entry_removefromcoremap_cases (cm : Coremap) (paddr : Paddr) (k : Nat) :
    (cm.removefromcoremap paddr).entry k = free ∨
      (cm.removefromcoremap paddr).entry k = cm.entry k := by
  rcases Nat.lt_or_ge k (cm.getindex paddr) with hlt | hge
  · exact .inr (removeLoop_of_lt _ _ _ _ hlt)
  · obtain ⟨d, rfl⟩ := Nat.exists_eq_add_of_le hge
    by_cases hr : Reaches cm.entry (cm.getindex paddr) 0 d
    · exact .inl (removeLoop_of_reach _ _ _ _ hr)
    · exact .inr (removeLoop_of_not_reach _ _ _ _ hr)

theorem entry_removefromcoremap_self (hi : i ≤ cm.cmEntries) (h : (cm.entry i).chunkCnt = 1) :
    (cm.removefromcoremap (cm.indextopaddr i)).entry i = free := by
  unfold removefromcoremap
  rw [getindex_indextopaddr hi]
  refine removeLoop_of_reach _ i 0 0 ?_
  intro j hj
  obtain rfl := Nat.le_zero.mp hj
  show 0 < (cm.entry i).chunkCnt.toNat
  rw [h]
  decide

theorem entry_removefromcoremap_of_next (hi : i ≤ cm.cmEntries)
    (hnext : (cm.entry (i + 1)).chunkCnt.toNat ≤ 1) (hk : k ≠ i) :
    (cm.removefromcoremap (cm.indextopaddr i)).entry k = cm.entry k := by
  unfold removefromcoremap
  rw [getindex_indextopaddr hi]
  rcases Nat.lt_or_ge k i with hlt | hge
  · exact removeLoop_of_lt _ _ _ _ hlt
  · obtain ⟨d, rfl⟩ := Nat.exists_eq_add_of_le hge
    refine removeLoop_of_not_reach _ _ _ _ ?_
    intro hr
    have := hr 1 (by omega)
    omega

theorem entry_removefromcoremap_next (hi : i ≤ cm.cmEntries) (h : (cm.entry i).chunkCnt = 1)
    (hnext : 2 ≤ (cm.entry (i + 1)).chunkCnt.toNat) :
    (cm.removefromcoremap (cm.indextopaddr i)).entry (i + 1) = free := by
  unfold removefromcoremap
  rw [getindex_indextopaddr hi]
  refine removeLoop_of_reach _ i 0 1 ?_
  intro j hj
  rcases Nat.le_one_iff_eq_zero_or_eq_one.mp hj with rfl | rfl
  · show 0 < (cm.entry i).chunkCnt.toNat
    rw [h]
    decide
  · omega

end Coremap

/-! ## 取った frame -/

/-- `m` から `ps` の frame を一枚ずつ取って `m'` になる。 -/
structure Mem.Took (m : Mem) (ps : List Paddr) (m' : Mem) : Prop where
  layout : m'.cm.toCmLayout = m.cm.toCmLayout
  nodup : ps.Nodup
  frame : ∀ p ∈ ps, m.IsFrame p
  fresh : ∀ p ∈ ps, ¬ m.Allocated p
  taken : ∀ k < m.cm.cmEntries, m.cm.indextopaddr k ∈ ps →
    (m'.cm.entry k).chunkCnt = 1 ∧ (m'.cm.entry k).isAllocated = true
  other : ∀ k < m.cm.cmEntries, m.cm.indextopaddr k ∉ ps → m'.cm.entry k = m.cm.entry k
  page : ∀ q, m.Allocated q → m'.page q = m.page q
  junk : m'.junk = m.junk
  frees : m'.cm.frees + ps.length = m.cm.frees
  obtained : m'.obtained.Perm (m.obtained ++ ps)
  freed : m'.freed = m.freed

namespace Mem

variable {m m₁ m₂ : Mem} {p : Paddr} {ps qs : List Paddr}

section

variable (h : m₁.cm.toCmLayout = m.cm.toCmLayout)

include h

theorem indextopaddr_of_layout (k : Nat) : m₁.cm.indextopaddr k = m.cm.indextopaddr k := by
  unfold Coremap.indextopaddr
  rw [h]

theorem cmEntries_of_layout : m₁.cm.cmEntries = m.cm.cmEntries := congrArg CmLayout.cmEntries h

theorem isFrame_of_layout : m₁.IsFrame p ↔ m.IsFrame p := by
  unfold IsFrame
  simp only [cmEntries_of_layout h, indextopaddr_of_layout h]

end

theorem not_allocated_iff (hk : k < m.cm.cmEntries) :
    ¬ m.Allocated (m.cm.indextopaddr k) ↔ (m.cm.entry k).isAllocated = false := by
  constructor
  · intro h
    by_contra hne
    exact h ⟨k, ⟨hk, by simpa using hne⟩, rfl⟩
  · rintro h ⟨j, hj, he⟩
    obtain rfl := indextopaddr_inj hk.le hj.1.le he
    exact absurd (hj.2.symm.trans h) (by decide)

namespace Took

theorem refl (m : Mem) : m.Took [] m :=
  ⟨rfl, .nil, by simp, by simp, by simp, fun _ _ _ => rfl, fun _ _ => rfl, rfl, rfl,
    .of_eq (append_nil _).symm, rfl⟩

section

variable (h : m.Took ps m₁)

include h

theorem allocated_iff (q : Paddr) : m₁.Allocated q ↔ m.Allocated q ∨ q ∈ ps := by
  constructor
  · rintro ⟨k, ⟨hk, hused⟩, rfl⟩
    rw [cmEntries_of_layout h.layout] at hk
    rw [indextopaddr_of_layout h.layout]
    by_cases hmem : m.cm.indextopaddr k ∈ ps
    · exact .inr hmem
    · rw [h.other k hk hmem] at hused
      exact .inl ⟨k, ⟨hk, hused⟩, rfl⟩
  · intro hq
    have hframe : m.IsFrame q := by
      rcases hq with ⟨k, hk, rfl⟩ | hq
      · exact ⟨k, hk.1, rfl⟩
      · exact h.frame q hq
    obtain ⟨k, hk, rfl⟩ := hframe
    refine ⟨k, ⟨by rwa [cmEntries_of_layout h.layout], ?_⟩, (indextopaddr_of_layout h.layout k).symm⟩
    by_cases hmem : m.cm.indextopaddr k ∈ ps
    · exact (h.taken k hk hmem).2
    · rw [h.other k hk hmem]
      by_contra hne
      exact (not_allocated_iff hk).mpr (by simpa using hne) (hq.resolve_right hmem)

theorem obtained_iff (q : Paddr) : m₁.Allocated q ∧ ¬ m.Allocated q ↔ q ∈ ps := by
  rw [h.allocated_iff]
  constructor
  · rintro ⟨hq | hq, hnot⟩
    · exact absurd hq hnot
    · exact hq
  · intro hq
    exact ⟨.inr hq, h.fresh q hq⟩

theorem held (hq : m.Held q) : m₁.Held q := by
  obtain ⟨j, hused, hone, rfl⟩ := hq
  have hnot : m.cm.indextopaddr j ∉ ps := fun hmem => h.fresh _ hmem ⟨j, hused, rfl⟩
  have hsame := h.other j hused.1 hnot
  refine ⟨j, ⟨?_, hsame ▸ hused.2⟩, hsame ▸ hone, (indextopaddr_of_layout h.layout j).symm⟩
  rw [cmEntries_of_layout h.layout]
  exact hused.1

theorem trans (h' : m₁.Took qs m₂) : m.Took (ps ++ qs) m₂ := by
  have hidx := indextopaddr_of_layout h.layout
  have hlen := cmEntries_of_layout h.layout
  have hapart : ∀ q ∈ qs, ¬ m.Allocated q ∧ q ∉ ps := fun q hq =>
    not_or.mp (mt (h.allocated_iff q).mpr (h'.fresh q hq))
  refine ⟨h'.layout.trans h.layout, ?_, ?_, ?_, ?_, ?_, ?_, h'.junk.trans h.junk, ?_, ?_,
    h'.freed.trans h.freed⟩
  · exact nodup_append.mpr ⟨h.nodup, h'.nodup, fun p hp q hq hpq => (hapart q hq).2 (hpq ▸ hp)⟩
  · intro p hp
    rcases mem_append.mp hp with hp | hp
    · exact h.frame p hp
    · exact (isFrame_of_layout h.layout).mp (h'.frame p hp)
  · intro p hp
    rcases mem_append.mp hp with hp | hp
    · exact h.fresh p hp
    · exact (hapart p hp).1
  · intro k hk hmem
    by_cases hq : m.cm.indextopaddr k ∈ qs
    · exact h'.taken k (hlen ▸ hk) (by rwa [hidx])
    · rw [h'.other k (hlen ▸ hk) (by rwa [hidx])]
      exact h.taken k hk ((mem_append.mp hmem).resolve_right hq)
  · intro k hk hmem
    obtain ⟨hp, hq⟩ := not_or.mp (mt mem_append.mpr hmem)
    rw [h'.other k (hlen ▸ hk) (by rwa [hidx]), h.other k hk hp]
  · intro q hq
    rw [h'.page q ((h.allocated_iff q).mpr (.inl hq)), h.page q hq]
  · rw [length_append, ← h.frees, ← h'.frees]
    omega
  · rw [← append_assoc]
    exact h'.obtained.trans (h.obtained.append_right qs)

theorem perm (hp : ps.Perm qs) : m.Took qs m₁ where
  layout := h.layout
  nodup := hp.nodup_iff.mp h.nodup
  frame := fun p hq => h.frame p (hp.mem_iff.mpr hq)
  fresh := fun p hq => h.fresh p (hp.mem_iff.mpr hq)
  taken := fun k hk hq => h.taken k hk (hp.mem_iff.mpr hq)
  other := fun k hk hq => h.other k hk (mt hp.mem_iff.mp hq)
  page := h.page
  junk := h.junk
  frees := hp.length_eq ▸ h.frees
  obtained := h.obtained.trans (hp.append_left _)
  freed := h.freed

theorem writePage (hp : p ∈ ps) (x : Page) : m.Took ps (m₁.writePage p x) where
  layout := h.layout
  nodup := h.nodup
  frame := h.frame
  fresh := h.fresh
  taken := h.taken
  other := h.other
  page := by
    intro q hq
    have hne : q ≠ p := fun heq => h.fresh p hp (heq ▸ hq)
    exact (update_of_ne hne _ _).trans (h.page q hq)
  junk := h.junk
  frees := h.frees
  obtained := h.obtained
  freed := h.freed

end

theorem of_add {iskern : Bool} (hrun : m.cm.FreeRun j 1)
    (hcm : m₁.cm = m.cm.addtocoremap (m.cm.indextopaddr j) 1 iskern) (hpage : m₁.page = m.page)
    (hjunk : m₁.junk = m.junk) (hobt : m₁.obtained = m.obtained ++ [m.cm.indextopaddr j])
    (hfreed : m₁.freed = m.freed) : m.Took [m.cm.indextopaddr j] m₁ := by
  have htakes := Mem.takes_of_freeRun hrun hcm hpage
  have hj := (Coremap.freeRun_one.mp hrun).1
  have hsame : ∀ k < m.cm.cmEntries, m.cm.indextopaddr k = m.cm.indextopaddr j → k = j :=
    fun k hk he => indextopaddr_inj hk.le hj.le he
  refine ⟨htakes.layout, nodup_singleton _, ?_, ?_, ?_, ?_, ?_, hjunk, htakes.frees, .of_eq hobt, hfreed⟩
  · simpa using ⟨j, hj, rfl⟩
  · simpa using htakes.fresh
  · intro k hk hmem
    obtain rfl := hsame k hk (by simpa using hmem)
    rw [hcm]
    refine ⟨Coremap.chunkCnt_addtocoremap_self hj, ?_⟩
    exact ((Coremap.used_addtocoremap hj).mpr (.inr rfl)).2
  · intro k hk hmem
    rw [hcm]
    refine Coremap.chunkCnt_addtocoremap hj ?_
    rintro rfl
    exact hmem (mem_singleton.mpr rfl)
  · intro q _
    rw [hpage]

theorem of_allocUpage (h : m.allocUpage = some (p, m₁)) : m.Took [p] m₁ ∧ m₁.kmallocs = m.kmallocs := by
  rcases m.cm.allocUpage_cases with ⟨_, hnone⟩ | ⟨j, hrun, hsome⟩
  · simp [allocUpage, hnone] at h
  · simp only [allocUpage, hsome, Option.map_some, Option.some.injEq, Prod.mk.injEq] at h
    obtain ⟨rfl, rfl⟩ := h
    exact ⟨.of_add hrun rfl rfl rfl rfl rfl, rfl⟩

theorem of_kmalloc {temp : PageTable} (h : m.kmalloc = some (temp, m₁)) :
    m.Took [kvaddrToPaddr temp.addr] m₁ ∧ m₁.kmallocs = m.kmallocs + 1 ∧
      temp.table = (m.junk m.kmallocs).table := by
  rcases m.cm.allocKpages_cases 1 with ⟨_, hnone⟩ | ⟨j, _, hrun, hne, hsome⟩
  · simp [kmalloc, hnone] at h
  · simp only [kmalloc, hsome, if_neg hne, Option.some.injEq, Prod.mk.injEq] at h
    obtain ⟨rfl, rfl⟩ := h
    refine ⟨?_, rfl, rfl⟩
    simp only [kvaddrToPaddr_paddrToKvaddr]
    exact .of_add hrun rfl rfl rfl rfl rfl

end Took

/-! ## 返す -/

variable {rel : List Paddr}

theorem freed_foldl_pageFree (m : Mem) (rel : List Paddr) :
    (rel.foldl pageFree m).freed = m.freed ++ rel := by
  induction rel generalizing m with
  | nil => exact (append_nil _).symm
  | cons p rel ih => exact (ih (m.pageFree p)).trans (append_assoc _ [p] rel)

theorem foldl_pageFree_eq {α : Type*} (f : Mem → α) (hf : ∀ m p, f (pageFree m p) = f m) (m : Mem)
    (rel : List Paddr) : f (rel.foldl pageFree m) = f m := by
  induction rel generalizing m with
  | nil => rfl
  | cons p rel ih => exact (ih (m.pageFree p)).trans (hf m p)

@[simp] theorem page_foldl_pageFree (m : Mem) (rel : List Paddr) : (rel.foldl pageFree m).page = m.page :=
  foldl_pageFree_eq page (fun _ _ => rfl) m rel

theorem toCmLayout_foldl_pageFree (m : Mem) (rel : List Paddr) :
    (rel.foldl pageFree m).cm.toCmLayout = m.cm.toCmLayout :=
  foldl_pageFree_eq (fun m => m.cm.toCmLayout) (fun _ _ => rfl) m rel

theorem entry_foldl_of_free (h : m.cm.entry k = free) (rel : List Paddr) :
    (rel.foldl pageFree m).cm.entry k = free := by
  induction rel generalizing m with
  | nil => exact h
  | cons p rel ih =>
    refine ih ?_
    rcases m.cm.entry_removefromcoremap_cases p k with he | he
    · exact he
    · exact he.trans h

theorem entry_foldl_self (hj : j < m.cm.cmEntries) (hframe : ∀ p ∈ rel, m.IsFrame p)
    (hmem : m.cm.indextopaddr j ∈ rel) (hone : (m.cm.entry j).chunkCnt = 1) :
    (rel.foldl pageFree m).cm.entry j = free := by
  induction rel generalizing m with
  | nil => simp at hmem
  | cons p rel ih =>
    obtain ⟨i, hi, rfl⟩ := hframe p mem_cons_self
    by_cases hij : j = i
    · subst hij
      exact entry_foldl_of_free (Coremap.entry_removefromcoremap_self hj.le hone) rel
    · have hkeep := Coremap.entry_removefromcoremap_of_single hi.le hij hone
      refine ih (m := m.pageFree (m.cm.indextopaddr i)) hj
        (fun q hq => hframe q (mem_cons_of_mem _ hq)) ?_ (hkeep ▸ hone)
      exact (mem_cons.mp hmem).resolve_left fun he => hij (indextopaddr_inj hj.le hi.le he)

/-- `m₁` から `rel` を返すと `m` に戻る。 -/
structure Restores (m : Mem) (rel : List Paddr) (m₁ : Mem) : Prop where
  layout : m₁.cm.toCmLayout = m.cm.toCmLayout
  nodup : rel.Nodup
  frame : ∀ p ∈ rel, m.IsFrame p
  single : ∀ k < m.cm.cmEntries, m.cm.indextopaddr k ∈ rel →
    (m₁.cm.entry k).chunkCnt = 1 ∧ m.cm.entry k = free
  other : ∀ k < m.cm.cmEntries, m.cm.indextopaddr k ∉ rel → m₁.cm.entry k = m.cm.entry k
  next : ∀ k, m.cm.indextopaddr k ∈ rel → k + 1 < m.cm.cmEntries →
    (m.cm.entry (k + 1)).chunkCnt.toNat ≤ 1

theorem Restores.pageFree (h : m.Restores (p :: rel) m₁) : m.Restores rel (m₁.pageFree p) := by
  obtain ⟨i, hi, rfl⟩ := h.frame p mem_cons_self
  obtain ⟨hnot, hnodup⟩ := nodup_cons.mp h.nodup
  have hlen := cmEntries_of_layout h.layout
  have hself := h.single i hi mem_cons_self
  have hfree : (m₁.pageFree (m.cm.indextopaddr i)).cm.entry i = free := by
    rw [← indextopaddr_of_layout h.layout]
    exact Coremap.entry_removefromcoremap_self (hlen ▸ hi.le) hself.1
  have hkeep : ∀ k < m.cm.cmEntries, k ≠ i →
      (m₁.pageFree (m.cm.indextopaddr i)).cm.entry k = m₁.cm.entry k := by
    intro k hk hne
    rw [← indextopaddr_of_layout h.layout]
    by_cases hlast : i + 1 < m.cm.cmEntries
    · -- 次の要素は、返す順番を待っているか、元のままである
      refine Coremap.entry_removefromcoremap_of_next (hlen ▸ hi.le) ?_ hne
      by_cases hmem : m.cm.indextopaddr (i + 1) ∈ m.cm.indextopaddr i :: rel
      · rw [(h.single (i + 1) hlast hmem).1]
        decide
      · rw [h.other (i + 1) hlast hmem]
        exact h.next i mem_cons_self hlast
    · have hlt : k < i := by omega
      unfold Mem.pageFree Coremap.pageFree removefromcoremap
      rw [Coremap.getindex_indextopaddr (hlen ▸ hi.le)]
      exact Coremap.removeLoop_of_lt _ _ _ _ hlt
  refine ⟨h.layout, hnodup, fun q hq => h.frame q (mem_cons_of_mem _ hq), ?_, ?_,
    fun k hk => h.next k (mem_cons_of_mem _ hk)⟩
  · intro k hk hmem
    have hne : k ≠ i := fun he => hnot (he ▸ hmem)
    rw [hkeep k hk hne]
    exact h.single k hk (mem_cons_of_mem _ hmem)
  · intro k hk hmem
    by_cases hki : k = i
    · subst hki
      exact hfree.trans hself.2.symm
    · rw [hkeep k hk hki]
      refine h.other k hk fun hmem' => ?_
      rcases mem_cons.mp hmem' with he | he
      · exact hki (indextopaddr_inj hk.le hi.le he)
      · exact hmem he

theorem Restores.entry (h : m.Restores rel m₁) (hk : k < m.cm.cmEntries) :
    (rel.foldl Mem.pageFree m₁).cm.entry k = m.cm.entry k := by
  induction rel generalizing m₁ with
  | nil => exact h.other k hk (by simp)
  | cons p rel ih => exact ih h.pageFree

/-- 空いている要素の次は、二枚以上の chunk に属さない。 -/
def NextSmall (m : Mem) : Prop :=
  ∀ k, k + 1 < m.cm.cmEntries → (m.cm.entry k).isAllocated = false →
    (m.cm.entry (k + 1)).chunkCnt.toNat ≤ 1

namespace Took

theorem entry_release (h : m.Took ps m₁) (hclean : m.cm.Clean) (hnext : m.NextSmall)
    (hnodup : rel.Nodup) (hrel : ∀ q, q ∈ rel ↔ q ∈ ps) (hk : k < m.cm.cmEntries) :
    (rel.foldl Mem.pageFree m₁).cm.entry k = m.cm.entry k := by
  have hfree : ∀ j < m.cm.cmEntries, m.cm.indextopaddr j ∈ rel → (m.cm.entry j).isAllocated = false :=
    fun j hj hmem => (not_allocated_iff hj).mp (h.fresh _ ((hrel _).mp hmem))
  refine Restores.entry ⟨h.layout, hnodup, fun p hp => h.frame p ((hrel p).mp hp), ?_, ?_, ?_⟩ hk
  · intro j hj hmem
    exact ⟨(h.taken j hj ((hrel _).mp hmem)).1, hclean j hj (hfree j hj hmem)⟩
  · intro j hj hmem
    exact h.other j hj (mt (hrel _).mpr hmem)
  · intro j hmem hj
    exact hnext j hj (hfree j (by omega) hmem)

theorem held_of_mem (h : m.Took ps m₁) (hq : q ∈ ps) : m₁.Held q := by
  obtain ⟨j, hj, rfl⟩ := h.frame q hq
  obtain ⟨hone, hused⟩ := h.taken j hj hq
  exact ⟨j, ⟨by rwa [cmEntries_of_layout h.layout], hused⟩, hone, (indextopaddr_of_layout h.layout j).symm⟩

end Took

theorem not_allocated_foldl_pageFree (h : ∀ p ∈ rel, m.Held p) (hq : q ∈ rel) :
    ¬ (rel.foldl pageFree m).Allocated q := by
  obtain ⟨j, hj, hone, rfl⟩ := h q hq
  have hlay := toCmLayout_foldl_pageFree m rel
  rintro ⟨k, ⟨hk, hused⟩, he⟩
  rw [cmEntries_of_layout hlay] at hk
  rw [indextopaddr_of_layout hlay] at he
  obtain rfl := indextopaddr_inj hj.1.le hk.le he
  rw [entry_foldl_self hk (fun p hp => (h p hp).isFrame) hq hone] at hused
  exact absurd hused (by decide)

theorem entry_foldl_next (hj : j + 1 < m.cm.cmEntries) (hframe : ∀ p ∈ rel, m.IsFrame p)
    (hmem : m.cm.indextopaddr j ∈ rel) (hone : (m.cm.entry j).chunkCnt = 1)
    (hnext : m.cm.entry (j + 1) = free ∨ 2 ≤ (m.cm.entry (j + 1)).chunkCnt.toNat) :
    (rel.foldl pageFree m).cm.entry (j + 1) = free := by
  induction rel generalizing m with
  | nil => simp at hmem
  | cons p rel ih =>
    obtain ⟨i, hi, rfl⟩ := hframe p mem_cons_self
    have hstep := m.cm.entry_removefromcoremap_cases (m.cm.indextopaddr i) (j + 1)
    by_cases hij : j = i
    · subst hij
      refine entry_foldl_of_free ?_ rel
      rcases hnext with hnext | hnext
      · exact hstep.elim id fun he => he.trans hnext
      · exact Coremap.entry_removefromcoremap_next (by omega) hone hnext
    · have hkeep := Coremap.entry_removefromcoremap_of_single hi.le hij hone
      refine ih (m := m.pageFree (m.cm.indextopaddr i)) hj
        (fun q hq => hframe q (mem_cons_of_mem _ hq)) ?_ (hkeep ▸ hone) ?_
      · refine (mem_cons.mp hmem).resolve_left fun he => hij ?_
        exact indextopaddr_inj (by omega) hi.le he
      · rcases hstep with he | he
        · exact .inl he
        · exact hnext.imp he.trans fun h2 => he ▸ h2

end Mem

/-! ## as_destroy -/

/-- `as_destroy` が `page_free` と `kfree` に渡す番地を、渡す順に並べたもの。 -/
def AddrSpace.released (as : AddrSpace) : List Paddr :=
  destroyFrames as.tables ++ (destroyTables as ++ [as.start.addr]).map kvaddrToPaddr

theorem asDestroy_eq (m : Mem) (as : AddrSpace) : asDestroy m as = as.released.foldl Mem.pageFree m := by
  rw [AddrSpace.released, foldl_append, foldl_map, foldl_append]
  rfl

theorem AddrSpace.released_eq (as : AddrSpace) :
    as.released = as.entries.map PageEntry.pagePaddr ++
      (as.next.map PageTable.addr ++ [as.start.addr]).map kvaddrToPaddr := by
  rw [released, destroyFrames_eq]
  rfl

theorem Mem.Took.of_asCreate {m m₁ : Mem} {new : AddrSpace} (h : asCreate m = some (new, m₁)) :
    m.Took [kvaddrToPaddr new.start.addr] m₁ ∧ m₁.kmallocs = m.kmallocs + 1 ∧
      (∀ i, (new.start.table.map PageEntry.pagePaddr).getD i 0 = 0) ∧ new.next = [] := by
  unfold asCreate at h
  cases hk : m.kmalloc with
  | none => simp [hk] at h
  | some r =>
    obtain ⟨temp, m'⟩ := r
    obtain ⟨htook, hkm, -⟩ := Mem.Took.of_kmalloc hk
    simp only [hk, Option.some.injEq, Prod.mk.injEq] at h
    obtain ⟨rfl, rfl⟩ := h
    refine ⟨htook, hkm, fun i => ?_, rfl⟩
    rw [getD_eq_getElem?_getD, getElem?_map, getElem?_map]
    cases temp.table[i]? <;> rfl

/-! ## page を足す -/

theorem addPageEntry_took {c c' : Cur} {e : PageEntry} (hc : Chain c.as.tables) (hend : c.as.EndLast)
    (he : e.pagePaddr ≠ 0) (h : addPageEntry c e = some c') :
    ∃ ps, c.mem.Took ps c'.mem ∧ c'.as.released.Perm (c.as.released ++ e.pagePaddr :: ps) := by
  have hent := (addPageEntry_append hc hend he h).1
  simp only [AddrSpace.released_eq, hent]
  rcases Nat.lt_or_eq_of_le (entries_length_le c.as.tables) with hroom | hfull
  · obtain ⟨t, ts, hadd, -, -, hstart, hnext⟩ := addPageEntry_room hc he hroom
    obtain rfl := Option.some.inj (hadd.symm.trans h)
    refine ⟨[], .refl _, perm_iff_count.mpr fun q => ?_⟩
    simp only [hstart, hnext, map_append, map_cons, map_nil, count_append]
    omega
  · rw [addPageEntry_full hc hfull] at h
    obtain ⟨⟨temp, mem⟩, hk, rfl⟩ := Option.map_eq_some_iff.mp h
    have htake : c.as.next.take c.as.end = c.as.next := by
      rw [hend]
      exact take_length
    refine ⟨_, (Mem.Took.of_kmalloc hk).1, perm_iff_count.mpr fun q => ?_⟩
    simp only [htake, PageTable.fresh, map_append, map_cons, map_nil, count_append,
      count_cons, count_nil]
    omega

theorem Mem.Took.takePage {m mem : Mem} {c c₁ : Cur} {e : PageEntry} (hc : Chain c.as.tables)
    (hend : c.as.EndLast) (halloc : c.mem.allocUpage = some (e.pagePaddr, mem))
    (hadd : addPageEntry { c with mem := mem } e = some c₁) (h : m.Took c.as.released c.mem) :
    m.Took c₁.as.released (c₁.mem.asZeroRegion e.pagePaddr) := by
  have hne := (Mem.allocUpage_some halloc).1.ne_zero
  obtain ⟨ps, htook, hperm⟩ := addPageEntry_took (c := { c with mem := mem }) hc hend hne hadd
  have hall : m.Took c₁.as.released c₁.mem :=
    ((h.trans (Mem.Took.of_allocUpage halloc).1).trans htook).perm (by
    rw [append_assoc]
    exact hperm.symm)
  exact hall.writePage (hperm.mem_iff.mpr (by simp)) Page.zero

end Os161

