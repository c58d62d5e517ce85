import MsProjects.Os161.Properties.PageTable

/-! # as_copy -/

namespace Os161

open Infra List Function PageEntry Slots

variable {m m₁ m' : Mem} {o n : PageTable} {os ns : List PageTable} {new as : AddrSpace}

/-! ## slot の対応 -/

structure CopyOf (m m' : Mem) (o n : PageEntry) : Prop where
  fields : n = { o with pagePaddr := n.pagePaddr }
  vacant : n.vacant = o.vacant
  fresh : o.pagePaddr ≠ 0 → ¬ m.Allocated n.pagePaddr
  allocated : o.pagePaddr ≠ 0 → m'.Allocated n.pagePaddr
  page : o.pagePaddr ≠ 0 → m'.page n.pagePaddr = m.page o.pagePaddr

theorem CopyOf.of_keeps {o n : PageEntry} (hk : m.Keeps m₁)
    (ho : o.pagePaddr ≠ 0 → m.Allocated o.pagePaddr) (h : CopyOf m₁ m' o n) : CopyOf m m' o n where
  fields := h.fields
  vacant := h.vacant
  fresh := fun hne ha => h.fresh hne (hk.allocated _ ha)
  allocated := h.allocated
  page := fun hne => (h.page hne).trans (hk.page _ (ho hne))

theorem CopyOf.keeps {o n : PageEntry} (h : CopyOf m m₁ o n) (hk : m₁.Keeps m') :
    CopyOf m m' o n where
  fields := h.fields
  vacant := h.vacant
  fresh := h.fresh
  allocated := fun hne => hk.allocated _ (h.allocated hne)
  page := fun hne => (hk.page _ (h.allocated hne)).trans (h.page hne)

/-- 使われている slot の frame はどれも使用中である。 -/
def Owned (m : Mem) (es : List PageEntry) : Prop :=
  ∀ e ∈ es, e.pagePaddr ≠ 0 → m.Allocated e.pagePaddr

theorem Owned.keeps {es : List PageEntry} (h : Owned m es) (hk : m.Keeps m') : Owned m' es :=
  fun e he hne => hk.allocated _ (h e he hne)

/-- 写しの frame は互いに異なる。 -/
def Apart (a b : PageEntry) : Prop := a.pagePaddr ≠ 0 → a.pagePaddr ≠ b.pagePaddr

/-- 写すのに要る frame の数。 -/
def mappedSlots (es : List PageEntry) : Nat := es.countP fun e => !e.vacant

/-- 一つの表の写しが成功したときに成り立つこと。 -/
structure SlotsCopied (m : Mem) (os ns : List PageEntry) (m' : Mem) : Prop where
  copy : Forall₂ (CopyOf m m') os ns
  apart : ns.Pairwise Apart
  keeps : m.Keeps m'
  frees : m'.cm.frees + mappedSlots os = m.cm.frees

theorem mappedSlots_cons (o : PageEntry) (os : List PageEntry) :
    mappedSlots (o :: os) = mappedSlots os + if o.pagePaddr ≠ 0 then 1 else 0 := by
  unfold mappedSlots
  rw [countP_cons]
  by_cases h : o.pagePaddr = 0 <;> simp [vacant, h]

theorem copySlots_true {os ns : List PageEntry} (hlen : os.length = ns.length) (hown : Owned m os)
    (h : (copySlots m os ns).1 = true) :
    SlotsCopied m os (copySlots m os ns).2.1 (copySlots m os ns).2.2 := by
  induction os generalizing m ns with
  | nil =>
    obtain rfl : ns = [] := by simpa using hlen.symm
    exact ⟨.nil, .nil, Mem.Keeps.refl m, rfl⟩
  | cons o os ih =>
    cases ns with
    | nil => simp at hlen
    | cons n ns =>
      have hlen' : os.length = ns.length := by simpa using hlen
      have hown' : Owned m os := fun e he => hown e (mem_cons_of_mem _ he)
      rw [copySlots] at h ⊢
      by_cases hne : o.pagePaddr ≠ 0
      · simp only [if_pos hne] at h ⊢
        cases halloc : m.allocUpage with
        | none => simp [halloc] at h
        | some r =>
          obtain ⟨paddr, m₁⟩ := r
          simp only [halloc] at h ⊢
          have htakes := (Mem.allocUpage_some halloc).1
          have hk := htakes.keeps_writePage (m₁.page o.pagePaddr)
          obtain ⟨hcopy, hap, hk', hfrees⟩ := ih hlen' (hown'.keeps hk) h
          have halloc₁ : (m₁.writePage paddr (m₁.page o.pagePaddr)).Allocated paddr :=
            (htakes.allocated paddr).mpr (Or.inr rfl)
          refine ⟨.cons ?_ ?_, .cons ?_ hap, hk.trans hk', ?_⟩
          · -- 書いた直後の frame は、残りの loop でも変わらない
            refine CopyOf.keeps ⟨rfl, ?_, fun _ => htakes.fresh, fun _ => halloc₁, fun _ => ?_⟩ hk'
            · simp [vacant, htakes.ne_zero, hne]
            · show update m₁.page paddr (m₁.page o.pagePaddr) paddr = _
              rw [update_self, htakes.page]
          · exact forall₂_imp_of_mem hcopy fun a b ha hab => hab.of_keeps hk (hown' a ha)
          · intro b hb _ heq
            obtain ⟨a, ha, hab⟩ := exists_left_of_forall₂ hcopy hb
            have hb0 : a.pagePaddr ≠ 0 := by
              intro h0
              have hv := hab.vacant
              simp only [vacant, h0, ← heq] at hv
              exact htakes.ne_zero (by simpa using hv)
            exact hab.fresh hb0 (heq ▸ halloc₁)
          · have h1 := htakes.frees
            have h2 : (m₁.writePage paddr (m₁.page o.pagePaddr)).cm.frees = m₁.cm.frees := rfl
            rw [mappedSlots_cons, if_pos hne]
            omega
      · simp only [if_neg hne] at h ⊢
        obtain ⟨hcopy, hap, hk, hfrees⟩ := ih hlen' hown' h
        have h0 : o.pagePaddr = 0 := not_not.mp hne
        refine ⟨.cons ⟨rfl, ?_, fun h => absurd h hne, fun h => absurd h hne,
          fun h => absurd h hne⟩ hcopy, .cons (fun _ _ hx => absurd rfl hx) hap, hk, ?_⟩
        · simp [vacant, h0]
        · rw [mappedSlots_cons, if_neg hne]
          exact hfrees

theorem copySlots_of_frees {os ns : List PageEntry} (h : mappedSlots os ≤ m.cm.frees) :
    (copySlots m os ns).1 = true := by
  induction os generalizing m ns with
  | nil => rw [copySlots]; simp
  | cons o os ih =>
    cases ns with
    | nil => rw [copySlots]; simp
    | cons n ns =>
      rw [copySlots]
      rw [mappedSlots_cons] at h
      by_cases hne : o.pagePaddr ≠ 0
      · rw [if_pos hne] at h ⊢
        cases halloc : m.allocUpage with
        | none =>
          have := Mem.allocUpage_eq_none_iff.mp halloc
          omega
        | some r =>
          obtain ⟨paddr, m₁⟩ := r
          have hfrees := (Mem.allocUpage_some halloc).1.frees
          exact ih (show mappedSlots os ≤ m₁.cm.frees by omega)
      · rw [if_neg hne] at h ⊢
        exact ih (by omega)

/-! ## 表の対応 -/

/-- 表 `n` は表 `o` の写しである。 -/
structure TableCopy (m m' : Mem) (o n : PageTable) : Prop where
  count : n.entryCount = o.entryCount
  slots : Forall₂ (CopyOf m m') o.table n.table

theorem CopyOf.vacant_eq (o n : PageEntry) (h : CopyOf m m' o n) :
    o.vacant = n.vacant := h.vacant.symm

theorem TableCopy.entries (h : TableCopy m m' o n) : Forall₂ (CopyOf m m') o.entries n.entries :=
  forall₂_occupied CopyOf.vacant_eq h.slots

theorem TableCopy.ok (h : TableCopy m m' o n) (ho : o.Ok) :
    n.Ok where
  packed := packed_of_forall₂ CopyOf.vacant_eq h.slots ho.packed
  count := by rw [h.count, ho.count, h.entries.length_eq]

theorem TableCopy.full (h : TableCopy m m' o n) (ho : o.Full) : n.Full := by
  unfold PageTable.Full at *
  rw [← h.entries.length_eq, ho]

theorem chain_of_copy (h : Forall₂ (TableCopy m m') os ns) (hc : Chain os) : Chain ns := by
  induction h with
  | nil => exact hc
  | @cons o n os ns hon htail ih =>
    cases htail with
    | nil => exact chain_singleton.mpr (hon.ok (chain_singleton.mp hc))
    | cons hon' htail' =>
      obtain ⟨hok, hfull, hc'⟩ := chain_cons_cons.mp hc
      exact chain_cons_cons.mpr ⟨hon.ok hok, hon.full hfull, ih hc'⟩

theorem entries_of_copy (h : Forall₂ (TableCopy m m') os ns) :
    Forall₂ (CopyOf m m') (entries os) (entries ns) :=
  rel_flatMap h fun _ _ hon => hon.entries

/-! ## 鎖の写し -/

/-- 鎖を写すのに要る frame の数。 -/
def chainCost (ts : List PageTable) : Nat := (ts.map fun t => mappedSlots t.table + 1).sum

theorem TableCopy.keeps (h : TableCopy m m₁ o n) (hk : m₁.Keeps m') : TableCopy m m' o n :=
  ⟨h.count, h.slots.imp fun _ _ hc => hc.keeps hk⟩

theorem TableCopy.of_keeps (hk : m.Keeps m₁) (ho : Owned m o.table) (h : TableCopy m₁ m' o n) :
    TableCopy m m' o n :=
  ⟨h.count, forall₂_imp_of_mem h.slots fun a _ ha hab => hab.of_keeps hk (ho a ha)⟩

/-- 鎖の写しが成功したときに成り立つこと。 -/
structure ChainCopied (m : Mem) (os ns : List PageTable) (m' : Mem) : Prop where
  copy : Forall₂ (TableCopy m m') os ns
  frames : ((entries ns).map pagePaddr).Nodup
  keeps : m.Keeps m'

theorem ChainCopied.fresh (h : ChainCopied m os ns m') {e : PageEntry} (he : e ∈ entries ns) :
    ¬ m.Allocated e.pagePaddr ∧ m'.Allocated e.pagePaddr := by
  obtain ⟨o, ho, hcopy⟩ := exists_left_of_forall₂ (entries_of_copy h.copy) he
  have hne := pagePaddr_ne_zero_of_mem ho
  exact ⟨hcopy.fresh hne, hcopy.allocated hne⟩

theorem nodup_frames_of_apart {t : PageTable} (h : t.table.Pairwise Apart) :
    (t.entries.map pagePaddr).Nodup := by
  have hsub : t.entries.Pairwise Apart := h.sublist (takeWhile_sublist _)
  refine pairwise_map.mpr (hsub.imp_of_mem ?_)
  intro a b ha _ hab
  exact hab (vacant_eq_false.mp (vacant_of_mem_occupied ha))

theorem ChainCopied.cons (hown : ∀ t ∈ os, Owned m t.table)
    (hslots : SlotsCopied m o.table n.table m₁) (hcount : n.entryCount = o.entryCount)
    (htail : ChainCopied m₁ os ns m') : ChainCopied m (o :: os) (n :: ns) m' := by
  have hcopy : TableCopy m m₁ o n := ⟨hcount, hslots.copy⟩
  refine ⟨.cons (hcopy.keeps htail.keeps) ?_, ?_, hslots.keeps.trans htail.keeps⟩
  · exact forall₂_imp_of_mem htail.copy fun t _ ht hc => hc.of_keeps hslots.keeps (hown t ht)
  · rw [entries_cons, map_append, nodup_append]
    refine ⟨nodup_frames_of_apart hslots.apart, htail.frames, ?_⟩
    -- 先の表の frame は使用中になっているので、後の表の frame とは異なる
    rintro p hp q hq rfl
    obtain ⟨a, ha, rfl⟩ := mem_map.mp hp
    obtain ⟨b, hb, hba⟩ := mem_map.mp hq
    obtain ⟨x, hx, hxa⟩ := exists_left_of_forall₂ hcopy.entries ha
    have hne : x.pagePaddr ≠ 0 := vacant_eq_false.mp (vacant_of_mem_occupied hx)
    exact (htail.fresh hb).1 (hba ▸ hxa.allocated hne)

theorem ChainCopied.of_keeps (hk : m.Keeps m₁) (hown : ∀ t ∈ os, Owned m t.table)
    (h : ChainCopied m₁ os ns m') : ChainCopied m os ns m' where
  copy := forall₂_imp_of_mem h.copy fun t _ ht hc => hc.of_keeps hk (hown t ht)
  frames := h.frames
  keeps := hk.trans h.keeps

theorem chainCost_cons (t : PageTable) (ts : List PageTable) :
    chainCost (t :: ts) = mappedSlots t.table + 1 + chainCost ts := rfl

theorem copyTable_true (hown : Owned m o.table) (h : (copyTable m o n).1 = true) :
    SlotsCopied m o.table (copyTable m o n).2.1.table (copyTable m o n).2.2 :=
  copySlots_true (o.len.trans n.len.symm) hown h

theorem copyChain_ok {new' : AddrSpace} (hown : ∀ t ∈ os, Owned m t.table)
    (h : copyChain m new os = some (.ok new', m')) :
    ∃ ns, new' = { new with next := new.next ++ ns } ∧ ChainCopied m os ns m' ∧
      m'.cm.frees + chainCost os = m.cm.frees := by
  induction os generalizing m new with
  | nil =>
    simp only [copyChain, Option.some.injEq, Prod.mk.injEq, Except.ok.injEq] at h
    obtain ⟨rfl, rfl⟩ := h
    exact ⟨[], by simp, ⟨.nil, nodup_nil, Mem.Keeps.refl m⟩, rfl⟩
  | cons o os ih =>
    rw [copyChain] at h
    cases hk : m.kmalloc with
    | none => simp [hk] at h
    | some r =>
      obtain ⟨temp, m₁⟩ := r
      have htakes := (Mem.kmalloc_some hk).1
      have hown₁ : ∀ t ∈ o :: os, Owned m₁ t.table := fun t ht => (hown t ht).keeps htakes.keeps
      simp only [hk] at h
      cases hr : (copyTable m₁ o temp).1 with
      | false => simp [hr] at h
      | true =>
        have hslots := copyTable_true (hown₁ o mem_cons_self) hr
        rw [if_pos hr] at h
        obtain ⟨ns, hnew, htail, hfrees⟩ := ih
          (fun t ht => (hown₁ t (mem_cons_of_mem _ ht)).keeps hslots.keeps) h
        refine ⟨(copyTable m₁ o temp).2.1 :: ns, by rw [hnew]; simp, ?_, ?_⟩
        · exact (ChainCopied.cons (fun t ht => hown₁ t (mem_cons_of_mem _ ht)) hslots rfl
            htail).of_keeps htakes.keeps hown
        · have h1 := htakes.frees
          have h2 := hslots.frees
          rw [chainCost_cons]
          omega

theorem copyChain_of_frees (hown : ∀ t ∈ os, Owned m t.table) (h : chainCost os ≤ m.cm.frees) :
    ∃ new' m', copyChain m new os = some (.ok new', m') := by
  induction os generalizing m new with
  | nil => exact ⟨new, m, rfl⟩
  | cons o os ih =>
    rw [chainCost_cons] at h
    rw [copyChain]
    cases hk : m.kmalloc with
    | none =>
      have := Mem.kmalloc_eq_none_iff.mp hk
      omega
    | some r =>
      obtain ⟨temp, m₁⟩ := r
      have htakes := (Mem.kmalloc_some hk).1
      have h1 := htakes.frees
      have hown₁ : ∀ t ∈ o :: os, Owned m₁ t.table := fun t ht => (hown t ht).keeps htakes.keeps
      have hr : (copyTable m₁ o temp).1 = true :=
        copySlots_of_frees (show mappedSlots o.table ≤ m₁.cm.frees by omega)
      have hslots := copyTable_true (hown₁ o mem_cons_self) hr
      have h2 := hslots.frees
      simp only [if_pos hr]
      exact ih (fun t ht => (hown₁ t (mem_cons_of_mem _ ht)).keeps hslots.keeps) (by omega)

/-! ## as_copy -/

/-- 表の使われている entry の frame はどれも使用中である。 -/
def AddrSpace.Owns (as : AddrSpace) (m : Mem) : Prop := ∀ e ∈ as.entries, m.Allocated e.pagePaddr

theorem AddrSpace.Owns.keeps (h : as.Owns m) (hk : m.Keeps m') : as.Owns m' :=
  fun e he => hk.allocated _ (h e he)

theorem owns_append {as' : AddrSpace} {e : PageEntry} (h : as.Owns m) (he : m.Allocated e.pagePaddr)
    (hsub : as'.entries ⊆ as.entries ++ [e]) : as'.Owns m := by
  intro x hx
  rcases mem_append.mp (hsub hx) with hx | hx
  · exact h x hx
  · rw [mem_singleton.mp hx]
    exact he

theorem AddrSpace.Owns.owned (h : as.Owns m) (hc : Chain as.tables) :
    ∀ t ∈ as.tables, Owned m t.table := by
  intro t ht e he hne
  refine h e (mem_flatMap.mpr ⟨t, ht, ?_⟩)
  exact mem_occupied_of_packed (hc.ok t ht).packed he (vacant_eq_false.mpr hne)

theorem chainCost_eq {ts : List PageTable} (hok : ∀ t ∈ ts, t.Ok) :
    chainCost ts = (entries ts).length + ts.length := by
  induction ts with
  | nil => rfl
  | cons t ts ih =>
    have ht : mappedSlots t.table = t.entries.length :=
      countP_of_packed (hok t mem_cons_self).packed
    have hts := ih fun u hu => hok u (mem_cons_of_mem _ hu)
    rw [chainCost_cons, entries_cons, length_append, length_cons, ht, hts]
    omega

/-- `as_copy` に要る frame の数。 -/
def copyCost (as : AddrSpace) : Nat := as.entries.length + as.tables.length

theorem copyCost_eq (hc : Chain as.tables) : copyCost as = chainCost as.tables :=
  (chainCost_eq hc.ok).symm

theorem asCopy_ok {old : AddrSpace} (hc : Chain old.tables) (hown : old.Owns m)
    (h : asCopy m old = some (.ok new, m')) :
    ChainCopied m old.tables new.tables m' ∧ new.end = 0 ∧
      new.book = ⟨0, 0, 0, 0, 0, 0⟩ ∧ m'.cm.frees + copyCost old = m.cm.frees := by
  have howned := hown.owned hc
  unfold asCopy at h
  cases hcr : asCreate m with
  | none => simp [hcr] at h
  | some r =>
    obtain ⟨as, m₁⟩ := r
    obtain ⟨_, _, _, hbook, hnext, hend, htakes⟩ := asCreate_some hcr
    have hown₁ : ∀ t ∈ old.tables, Owned m₁ t.table := fun t ht => (howned t ht).keeps htakes.keeps
    simp only [hcr] at h
    cases hr : (copyTable m₁ old.start as.start).1 with
    | false => simp [hr] at h
    | true =>
      have hslots := copyTable_true (hown₁ _ mem_cons_self) hr
      rw [if_pos hr] at h
      obtain ⟨ns, rfl, htail, hfrees⟩ := copyChain_ok
        (fun t ht => (hown₁ t (mem_cons_of_mem _ ht)).keeps hslots.keeps) h
      refine ⟨?_, hend, hbook, ?_⟩
      · show ChainCopied m old.tables ((copyTable m₁ old.start as.start).2.1 :: (as.next ++ ns)) m'
        rw [hnext, nil_append]
        exact (ChainCopied.cons (fun t ht => hown₁ t (mem_cons_of_mem _ ht)) hslots rfl
          htail).of_keeps htakes.keeps howned
      · have h1 := htakes.frees
        have h2 := hslots.frees
        rw [copyCost_eq hc]
        unfold AddrSpace.tables
        rw [chainCost_cons]
        omega

theorem asCopy_of_frees {old : AddrSpace} (hc : Chain old.tables) (hown : old.Owns m)
    (h : copyCost old ≤ m.cm.frees) : ∃ new m', asCopy m old = some (.ok new, m') := by
  rw [copyCost_eq hc] at h
  unfold AddrSpace.tables at h
  rw [chainCost_cons] at h
  obtain ⟨as, m₁, hcr⟩ := exists_asCreate (m := m) (by omega)
  have htakes := (asCreate_some hcr).2.2.2.2.2.2
  have h1 := htakes.frees
  have hown₁ : ∀ t ∈ old.tables, Owned m₁ t.table :=
    fun t ht => (hown.owned hc t ht).keeps htakes.keeps
  have hr : (copyTable m₁ old.start as.start).1 = true :=
    copySlots_of_frees (show mappedSlots old.start.table ≤ m₁.cm.frees by omega)
  have hslots := copyTable_true (hown₁ _ mem_cons_self) hr
  have h2 := hslots.frees
  unfold asCopy
  simp only [hcr, if_pos hr]
  exact copyChain_of_frees
    (fun t ht => (hown₁ t (mem_cons_of_mem _ ht)).keeps hslots.keeps) (by omega)

theorem ChainCopied.map_pageVaddr (h : ChainCopied m os ns m') :
    (entries ns).map pageVaddr = (entries os).map pageVaddr :=
  map_eq_of_forall₂ (entries_of_copy h.copy) fun _ _ _ hon => by rw [hon.fields]

end Os161
