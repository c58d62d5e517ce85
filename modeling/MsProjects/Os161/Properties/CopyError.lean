import MsProjects.Os161.Properties.Copy
import MsProjects.Os161.Properties.Release

/-! # as_copy の失敗 -/

namespace Os161

open Infra List Function PageEntry PageTable Mem Slots Mem.Took AddrSpace

variable {e : PageEntry} {os : List PageEntry} {m : Mem} {new old : AddrSpace}

/-! ## 途中まで作った写し -/

/-- `as_destroy` を呼ぶ前の `copyChain`。 -/
def copyChainFill (m : Mem) (new : AddrSpace) : List PageTable → Option (Bool × AddrSpace × Mem)
  | [] => some (true, new, m)
  | o :: os =>
    match m.kmalloc with
    | none => none
    | some (temp, m) =>
      let r := copyTable m o temp
      let new := { new with next := new.next ++ [r.2.1] }
      if r.1 then copyChainFill r.2.2 new os else some (false, new, r.2.2)

/-- `as_destroy` を呼ぶ前の `as_copy`。 -/
def asCopyFill (m : Mem) (old : AddrSpace) : Option (Bool × AddrSpace × Mem) :=
  match asCreate m with
  | none => none
  | some (new, m) =>
    let r := copyTable m old.start new.start
    let new := { new with start := r.2.1 }
    if r.1 then copyChainFill r.2.2 new old.next else some (false, new, r.2.2)

/-- 失敗していれば写しを壊す。 -/
def copyEnd : Bool × AddrSpace × Mem → Except Errno AddrSpace × Mem
  | (true, new, m) => (.ok new, m)
  | (false, new, m) => (.error .enomem, asDestroy m new)

theorem copyChain_eq (m : Mem) (new : AddrSpace) (os : List PageTable) :
    copyChain m new os = (copyChainFill m new os).map copyEnd := by
  induction os generalizing m new with
  | nil => rfl
  | cons o os ih =>
    rw [copyChain, copyChainFill]
    cases m.kmalloc with
    | none => rfl
    | some r =>
      cases hr : (copyTable r.2 o r.1).1 with
      | true => simpa [hr] using ih _ _
      | false => simp [hr, copyEnd]

theorem asCopy_eq (m : Mem) (old : AddrSpace) :
    asCopy m old = if asCreate m = none then some (.error .enomem, m)
      else (asCopyFill m old).map copyEnd := by
  unfold asCopy asCopyFill
  cases asCreate m with
  | none => rfl
  | some r =>
    cases hr : (copyTable r.2 old.start r.1.start).1 with
    | true => simpa [hr] using copyChain_eq _ _ _
    | false => simp [hr, copyEnd]

/-! ## 一つの表 -/

/-- 表の `i` 番目の slot に残っている frame。 -/
def PageTable.stale (t : PageTable) (i : Nat) : Paddr := (t.table.map pagePaddr).getD i 0

/-- 並びの使われている slot の frame。 -/
def frames (es : List PageEntry) : List Paddr := (occupied vacant es).map pagePaddr

theorem frames_cons_of_ne (h : e.pagePaddr ≠ 0) (es : List PageEntry) :
    frames (e :: es) = e.pagePaddr :: frames es := by
  rw [frames, occupied_cons, vacant_eq_false.mpr h]
  rfl

theorem frames_cons_of_eq (h : e.pagePaddr = 0) (es : List PageEntry) : frames (e :: es) = [] := by
  rw [frames, occupied_cons, if_pos (by simp [vacant, h])]
  rfl

theorem frames_cons_eq_nil_iff {es : List PageEntry} : frames (e :: es) = [] ↔ e.pagePaddr = 0 := by
  by_cases h : e.pagePaddr = 0
  · simp [frames_cons_of_eq h, h]
  · simp [frames_cons_of_ne h, h]

theorem mappedSlots_of_vacant {o : PageEntry} (h : o.pagePaddr = 0)
    (hp : Slots.Packed vacant (o :: os)) : mappedSlots (o :: os) = 0 := by
  have ho : o.vacant = true := by simp [vacant, h]
  rw [mappedSlots, countP_of_packed hp, occupied_cons, if_pos ho]
  rfl

theorem copySlots_took {ns : List PageEntry} (hlen : os.length = ns.length)
    (hp : Slots.Packed vacant os) (hroom : mappedSlots os ≤ m.cm.frees) :
    (copySlots m os ns).1 = true ∧
      m.Took (frames (copySlots m os ns).2.1) (copySlots m os ns).2.2 ∧
      (frames (copySlots m os ns).2.1).length = mappedSlots os ∧
      (copySlots m os ns).2.2.kmallocs = m.kmallocs := by
  refine ⟨copySlots_of_frees hroom, ?_⟩
  induction os generalizing m ns with
  | nil =>
    obtain rfl : ns = [] := by simpa using hlen.symm
    exact ⟨refl m, rfl, rfl⟩
  | cons o os ih =>
    cases ns with
    | nil => simp at hlen
    | cons n ns =>
      have hlen' : os.length = ns.length := by simpa using hlen
      by_cases hne : o.pagePaddr = 0
      · -- 空きの後ろはすべて空きで、何も取らない
        have hzero := mappedSlots_of_vacant hne hp
        have hall := (packed_cons_of_vacant (by simp [vacant, hne])).mp hp
        have htail := ih (m := m) hlen' (packed_of_all_vacant hall) (by
          rw [mappedSlots_cons] at hzero
          omega)
        have hnil : frames (copySlots m os ns).2.1 = [] := length_eq_zero_iff.mp (by
          rw [mappedSlots_cons] at hzero
          omega)
        rw [hnil] at htail
        rw [copySlots, if_neg (not_not.mpr hne), frames_cons_of_eq rfl]
        exact ⟨htail.1, hzero.symm, htail.2.2⟩
      · have hvac := vacant_eq_false.mpr hne
        rw [mappedSlots_cons, if_pos hne] at hroom
        cases halloc : m.allocUpage with
        | none =>
          have := allocUpage_eq_none_iff.mp halloc
          omega
        | some r =>
          obtain ⟨paddr, m₁⟩ := r
          obtain ⟨htook, hkm⟩ := of_allocUpage halloc
          have hne₁ := (allocUpage_some halloc).1.ne_zero
          have hfrees := htook.frees
          have htook' := htook.writePage mem_cons_self (m₁.page o.pagePaddr)
          obtain ⟨htail, hlength, hkm'⟩ := ih (m := m₁.writePage paddr (m₁.page o.pagePaddr)) hlen'
            ((packed_cons_of_occupied hvac).mp hp) (by
              change mappedSlots os ≤ m₁.cm.frees
              rw [length_singleton] at hfrees
              omega)
          rw [copySlots, if_pos hne, halloc]
          simp only
          rw [frames_cons_of_ne (by exact hne₁), mappedSlots_cons, if_pos hne]
          exact ⟨htook'.trans htail, congrArg (· + 1) hlength, hkm'.trans hkm⟩

theorem copySlots_short {ns : List PageEntry} (hlen : os.length = ns.length)
    (hp : Slots.Packed vacant os) (hshort : m.cm.frees < mappedSlots os) :
    (copySlots m os ns).1 = false ∧ ∃ ps stale, m.Took ps (copySlots m os ns).2.2 ∧
      (copySlots m os ns).2.2.cm.frees = 0 ∧ frames (copySlots m os ns).2.1 = ps ++ stale ∧
      (stale = [] ↔ (ns.map pagePaddr).getD m.cm.frees 0 = 0) := by
  induction os generalizing m ns with
  | nil => simp [mappedSlots] at hshort
  | cons o os ih =>
    cases ns with
    | nil => simp at hlen
    | cons n ns =>
      have hlen' : os.length = ns.length := by simpa using hlen
      have hne : o.pagePaddr ≠ 0 := by
        intro h0
        rw [mappedSlots_of_vacant h0 hp] at hshort
        omega
      have hvac := vacant_eq_false.mpr hne
      rw [copySlots, if_pos hne]
      cases halloc : m.allocUpage with
      | none =>
        have hzero := allocUpage_eq_none_iff.mp halloc
        refine ⟨rfl, [], _, refl m, hzero, (nil_append _).symm, ?_⟩
        rw [hzero]
        exact frames_cons_eq_nil_iff
      | some r =>
        obtain ⟨paddr, m₁⟩ := r
        have htook := (of_allocUpage halloc).1
        have hne₁ := (allocUpage_some halloc).1.ne_zero
        have hfrees : m₁.cm.frees + 1 = m.cm.frees := htook.frees
        have htook' := htook.writePage mem_cons_self (m₁.page o.pagePaddr)
        rw [mappedSlots_cons, if_pos hne] at hshort
        obtain ⟨hfalse, ps, stale, htail, hzero, hframes, hstale⟩ :=
          ih (m := m₁.writePage paddr (m₁.page o.pagePaddr)) hlen'
            ((packed_cons_of_occupied hvac).mp hp) (by
              change m₁.cm.frees < mappedSlots os
              omega)
        refine ⟨hfalse, paddr :: ps, stale, htook'.trans htail, hzero, ?_, ?_⟩
        · simp only
          rw [frames_cons_of_ne (by exact hne₁), hframes]
          rfl
        · rw [hstale, ← hfrees]
          rfl

/-! ## 鎖 -/

theorem released_link (new : AddrSpace) (t : PageTable) :
    ({ new with next := new.next ++ [t] } : AddrSpace).released.Perm
      (new.released ++ (kvaddrToPaddr t.addr :: frames t.table)) := by
  simp only [released, tables, destroyTables, destroyFrames, frames, map_append,
    map_cons, map_nil, flatMap_cons, flatMap_append, flatMap_nil, append_nil,
    append_assoc]
  refine .append_left _ (.append_left _ ?_)
  refine perm_append_comm.trans ?_
  simp only [append_assoc, cons_append, nil_append]
  refine .append_left _ ?_
  exact (Perm.swap _ _ _).trans (.cons _ (.cons _ (.refl _)))

/-- 二つ目からの表を写す途中で frame が尽きても、元に戻せる。 -/
def ChainSafe (junk : Nat → PageTable) : Nat → Nat → List PageTable → Prop
  | _, _, [] => True
  | f, n, o :: os =>
    f ≠ 0 ∧ (f ≤ mappedSlots o.table → (junk n).stale (f - 1) = 0) ∧
      (mappedSlots o.table < f → ChainSafe junk (f - 1 - mappedSlots o.table) (n + 1) os)

structure Stopped (m : Mem) (new : AddrSpace) (m' : Mem) (ps stale : List Paddr) : Prop where
  took : m.Took ps m'
  frees : m'.cm.frees = 0
  released : new.released.Perm (ps ++ stale)

theorem copyChainFill_short {m₀ : Mem} {os : List PageTable} {ps : List Paddr}
    (hok : ∀ t ∈ os, t.Ok) (htook : m₀.Took ps m) (hrel : new.released.Perm ps)
    (hshort : m.cm.frees < chainCost os) :
    (copyChainFill m new os = none ∧ ¬ ChainSafe m₀.junk m.cm.frees m.kmallocs os) ∨
      ∃ new' m' ps' stale, copyChainFill m new os = some (false, new', m') ∧
        Stopped m₀ new' m' ps' stale ∧
        (stale = [] ↔ ChainSafe m₀.junk m.cm.frees m.kmallocs os) := by
  induction os generalizing m new ps with
  | nil => simp [chainCost] at hshort
  | cons o os ih =>
    rw [copyChainFill, ChainSafe]
    cases hk : m.kmalloc with
    | none =>
      have hzero := kmalloc_eq_none_iff.mp hk
      exact .inl ⟨rfl, fun h => h.1 hzero⟩
    | some r =>
      obtain ⟨temp, m₁⟩ := r
      obtain ⟨htemp, hkm, htable⟩ := of_kmalloc hk
      have hfrees : m₁.cm.frees + 1 = m.cm.frees := htemp.frees
      have hpacked := (hok o mem_cons_self).packed
      have hlen : o.table.length = temp.table.length := o.len.trans temp.len.symm
      have hlink : ∀ {ps₁ : List Paddr} {t : PageTable}, t.addr = temp.addr → frames t.table = ps₁ →
          ({ new with next := new.next ++ [t] } : AddrSpace).released.Perm
            ((ps ++ [kvaddrToPaddr temp.addr]) ++ ps₁) := by
        intro ps₁ t haddr hframes
        refine (released_link new t).trans ?_
        rw [haddr, hframes, append_assoc]
        exact hrel.append_right _
      have hstale : (temp.table.map pagePaddr).getD m₁.cm.frees 0 =
          (m₀.junk m.kmallocs).stale (m.cm.frees - 1) := by
        rw [htable, htook.junk, ← hfrees]
        rfl
      rw [chainCost_cons] at hshort
      rcases Nat.lt_or_ge m₁.cm.frees (mappedSlots o.table) with hlt | hge
      · -- この表の途中で尽きる
        obtain ⟨hfalse, ps₁, stale, htook₁, hzero, hframes, hiff⟩ := copySlots_short hlen hpacked hlt
        have hfalse' : (copyTable m₁ o temp).1 = false := hfalse
        refine .inr ⟨_, _, ps ++ [kvaddrToPaddr temp.addr] ++ ps₁, stale, by simp only [hfalse']; rfl,
          ⟨(htook.trans htemp).trans htook₁, hzero, ?_⟩, ?_⟩
        · rw [append_assoc]
          exact hlink rfl hframes
        · rw [hiff, hstale]
          constructor
          · intro h
            exact ⟨by omega, fun _ => h, fun h' => by omega⟩
          · intro h
            exact h.2.1 (by omega)
      · obtain ⟨htrue, htook₁, hcount, hkm₁⟩ := copySlots_took hlen hpacked hge
        have htrue' : (copyTable m₁ o temp).1 = true := htrue
        have hfrees₁ := htook₁.frees
        have hleft : (copyTable m₁ o temp).2.2.cm.frees = m.cm.frees - 1 - mappedSlots o.table := by
          change (copySlots m₁ o.table temp.table).2.2.cm.frees = _
          omega
        have hnum : (copyTable m₁ o temp).2.2.kmallocs = m.kmallocs + 1 := hkm₁.trans hkm
        have hsafe : (m.cm.frees ≠ 0 ∧ (m.cm.frees ≤ mappedSlots o.table →
              (m₀.junk m.kmallocs).stale (m.cm.frees - 1) = 0) ∧
            (mappedSlots o.table < m.cm.frees → ChainSafe m₀.junk
              (m.cm.frees - 1 - mappedSlots o.table) (m.kmallocs + 1) os)) ↔
            ChainSafe m₀.junk (m.cm.frees - 1 - mappedSlots o.table) (m.kmallocs + 1) os :=
          ⟨fun h => h.2.2 (by omega), fun h => ⟨by omega, fun h' => by omega, fun _ => h⟩⟩
        simp only [htrue', if_true]
        rw [hsafe, ← hleft, ← hnum]
        exact ih (fun t ht => hok t (mem_cons_of_mem _ ht)) ((htook.trans htemp).trans htook₁)
          (hlink rfl rfl) (by omega)

/-! ## as_copy -/

/-- frame が足りないときに、`as_copy` が元に戻せる。 -/
def CopySafe (m : Mem) (old : AddrSpace) : Prop :=
  m.cm.frees ≤ mappedSlots old.start.table ∨
    ChainSafe m.junk (m.cm.frees - 1 - mappedSlots old.start.table) (m.kmallocs + 1) old.next

theorem released_start {t : PageTable} (hnext : new.next = []) (haddr : t.addr = new.start.addr) :
    ({ new with start := t } : AddrSpace).released.Perm
    (kvaddrToPaddr new.start.addr :: frames t.table) := by
  simp only [released, tables, destroyTables, destroyFrames, hnext, haddr,
    flatMap_cons, flatMap_nil, append_nil, map_nil, nil_append, map_cons]
  exact perm_append_comm

theorem asCopyFill_short (hc : Chain old.tables) (hpos : m.cm.frees ≠ 0)
    (hshort : m.cm.frees < copyCost old) :
    (asCopyFill m old = none ∧ ¬ CopySafe m old) ∨
      ∃ new m' ps stale, asCopyFill m old = some (false, new, m') ∧ Stopped m new m' ps stale ∧
        (stale = [] ↔ CopySafe m old) := by
  rw [copyCost_eq hc, tables, chainCost_cons] at hshort
  obtain ⟨new, m₁, hcr⟩ := exists_asCreate hpos
  obtain ⟨htook, hkm, hzeros, hnext⟩ := of_asCreate hcr
  have hfrees : m₁.cm.frees + 1 = m.cm.frees := htook.frees
  have hpacked := (hc.ok old.start mem_cons_self).packed
  have hlen : old.start.table.length = new.start.table.length := old.start.len.trans new.start.len.symm
  rw [asCopyFill, CopySafe]
  simp only [hcr]
  rcases Nat.lt_or_ge m₁.cm.frees (mappedSlots old.start.table) with hlt | hge
  · -- 一つ目の表の slot は 0 で埋まっている
    obtain ⟨hfalse, ps, stale, htook₁, hzero, hframes, hiff⟩ := copySlots_short hlen hpacked hlt
    have hfalse' : (copyTable m₁ old.start new.start).1 = false := hfalse
    refine .inr ⟨_, _, [kvaddrToPaddr new.start.addr] ++ ps, stale, by simp only [hfalse']; rfl,
      ⟨htook.trans htook₁, hzero, ?_⟩, ?_⟩
    · refine (released_start (t := (copyTable m₁ old.start new.start).2.1) hnext rfl).trans ?_
      rw [show frames (copyTable m₁ old.start new.start).2.1.table = ps ++ stale from hframes]
      exact .refl _
    · rw [hiff, hzeros]
      simp only [true_iff]
      exact .inl (by omega)
  · obtain ⟨htrue, htook₁, hcount, hkm₁⟩ := copySlots_took hlen hpacked hge
    have htrue' : (copyTable m₁ old.start new.start).1 = true := htrue
    have hfrees₁ := htook₁.frees
    have hleft : (copyTable m₁ old.start new.start).2.2.cm.frees =
        m.cm.frees - 1 - mappedSlots old.start.table := by
      change (copySlots m₁ old.start.table new.start.table).2.2.cm.frees = _
      omega
    have hnum : (copyTable m₁ old.start new.start).2.2.kmallocs = m.kmallocs + 1 := hkm₁.trans hkm
    have hnot : ¬ m.cm.frees ≤ mappedSlots old.start.table := by omega
    simp only [htrue', if_true, hnot, false_or]
    rw [← hleft, ← hnum]
    exact copyChainFill_short (fun t ht => hc.ok t (mem_cons_of_mem _ ht)) (htook.trans htook₁)
      (released_start hnext rfl) (by omega)

/-- `as_copy` が `ENOMEM` を返し、呼び出しの前と何も変わらない。 -/
def CopyUndone (m : Mem) (old : AddrSpace) : Prop :=
  ∃ m', asCopy m old = some (.error .enomem, m') ∧
    (∀ k < m.cm.cmEntries, m'.cm.entry k = m.cm.entry k) ∧
    (∀ q, m.Allocated q → m'.page q = m.page q) ∧
    ∀ new m₁, asCopyFill m old = some (false, new, m₁) →
      new.released.Nodup ∧ ∀ q, q ∈ new.released ↔ m₁.Allocated q ∧ ¬ m.Allocated q

namespace Stopped

variable {m m' : Mem} {new : AddrSpace} {ps stale : List Paddr}

theorem exact_iff (h : Stopped m new m' ps stale) :
    (new.released.Nodup ∧ ∀ q, q ∈ new.released ↔ m'.Allocated q ∧ ¬ m.Allocated q) ↔ stale = [] := by
  simp only [h.took.obtained_iff]
  constructor
  · rintro ⟨hnodup, hmem⟩
    have hperm : new.released.Perm ps := (perm_ext_iff_of_nodup hnodup h.took.nodup).mpr hmem
    have hlen := (h.released.symm.trans hperm).length_eq
    rw [length_append] at hlen
    exact length_eq_zero_iff.mp (by omega)
  · rintro rfl
    have hperm : new.released.Perm ps := by simpa using h.released
    exact ⟨hperm.nodup_iff.mpr h.took.nodup, fun q => hperm.mem_iff⟩

theorem mem_of_free (h : Stopped m new m' ps stale) {k : Nat} (hk : k < m.cm.cmEntries)
    (hfree : (m.cm.entry k).isAllocated = false) : m.cm.indextopaddr k ∈ ps := by
  by_contra hmem
  have hzero := h.frees
  have hk' : k < m'.cm.cmEntries := by rwa [cmEntries_of_layout h.took.layout]
  have hfree' : (m'.cm.entry k).isAllocated = false := by rwa [h.took.other k hk hmem]
  rw [Coremap.frees, Finset.card_eq_zero, Finset.filter_eq_empty_iff] at hzero
  exact hzero (Finset.mem_range.mpr hk') hfree'

theorem restored_iff (h : Stopped m new m' ps []) (hclean : m.cm.Clean) :
    (∀ k < m.cm.cmEntries, (asDestroy m' new).cm.entry k = m.cm.entry k) ↔ m.NextSmall := by
  obtain ⟨hnodup, hmem⟩ := h.exact_iff.mpr rfl
  simp only [h.took.obtained_iff] at hmem
  rw [asDestroy_eq]
  constructor
  · intro hsame k hk hfree
    by_contra hbig
    have hps := h.mem_of_free (by omega) hfree
    have hnext : m.cm.indextopaddr (k + 1) ∉ ps := by
      intro hps'
      have hfree' := (not_allocated_iff hk).mp (h.took.fresh _ hps')
      rw [hclean _ hk hfree'] at hbig
      exact hbig (by decide)
    have hover := entry_foldl_next (m := m') (j := k)
      (by rwa [cmEntries_of_layout h.took.layout])
      (fun p hp => (isFrame_of_layout h.took.layout).mpr (h.took.frame p ((hmem p).mp hp)))
      (by rw [indextopaddr_of_layout h.took.layout]; exact (hmem _).mpr hps)
      (h.took.taken k (by omega) hps).1
      (.inr (by rw [h.took.other _ hk hnext]; omega))
    rw [← hsame (k + 1) hk, hover] at hbig
    exact hbig (by decide)
  · intro hnext k hk
    exact h.took.entry_release hclean hnext hnodup hmem hk

end Stopped

theorem copyUndone_of_frees_zero (h : m.cm.frees = 0) : CopyUndone m old := by
  have hnone := asCreate_eq_none_iff.mpr h
  refine ⟨m, by rw [asCopy_eq, if_pos hnone], fun _ _ => rfl, fun _ _ => rfl, ?_⟩
  intro new m₁ hfill
  rw [asCopyFill, hnone] at hfill
  cases hfill

theorem copyUndone_of_stopped {m' : Mem} {ps stale : List Paddr} (hpos : m.cm.frees ≠ 0)
    (hclean : m.cm.Clean) (hfill : asCopyFill m old = some (false, new, m'))
    (hstop : Stopped m new m' ps stale) : CopyUndone m old ↔ stale = [] ∧ m.NextSmall := by
  have heq : asCopy m old = some (.error .enomem, asDestroy m' new) := by
    rw [asCopy_eq, if_neg (mt asCreate_eq_none_iff.mp hpos), hfill]
    rfl
  have hpage : ∀ q, m.Allocated q → (asDestroy m' new).page q = m.page q := by
    intro q hq
    rw [asDestroy_eq, page_foldl_pageFree]
    exact hstop.took.page q hq
  constructor
  · rintro ⟨m'', heq', hsame, -, hexact⟩
    obtain rfl : asDestroy m' new = m'' := by
      rw [heq] at heq'
      simpa using heq'
    obtain rfl := hstop.exact_iff.mp (hexact new m' hfill)
    exact ⟨rfl, (hstop.restored_iff hclean).mp hsame⟩
  · rintro ⟨rfl, hnext⟩
    refine ⟨_, heq, (hstop.restored_iff hclean).mpr hnext, hpage, ?_⟩
    intro new' m'' hfill'
    rw [hfill] at hfill'
    simp only [Option.some.injEq, Prod.mk.injEq, true_and] at hfill'
    obtain ⟨rfl, rfl⟩ := hfill'
    exact hstop.exact_iff.mpr rfl

theorem not_copyUndone_of_none (hpos : m.cm.frees ≠ 0) (h : asCopyFill m old = none) :
    ¬ CopyUndone m old := by
  rintro ⟨m', heq, -⟩
  rw [asCopy_eq, if_neg (mt asCreate_eq_none_iff.mp hpos), h] at heq
  cases heq

/--
**frame が足りない `as_copy` が呼び出しの前に戻すのは、途中の表の古い要素が解放されず (`CopySafe`)、空きの次に二枚以上の
chunk が無い (`NextSmall`) ときに限る。**
-/
theorem copy_undone_iff {m : Mem} {old : AddrSpace} (hc : Chain old.tables) (hclean : m.cm.Clean)
    (hshort : m.cm.frees < copyCost old) : CopyUndone m old ↔ CopySafe m old ∧ m.NextSmall := by
  by_cases hpos : m.cm.frees = 0
  · refine iff_of_true (copyUndone_of_frees_zero hpos) ⟨.inl (by omega), fun k hk hfree => ?_⟩
    rw [Coremap.frees, Finset.card_eq_zero, Finset.filter_eq_empty_iff] at hpos
    exact absurd hfree (hpos (Finset.mem_range.mpr (by omega)))
  · rcases asCopyFill_short hc hpos hshort with ⟨hnone, hunsafe⟩ | ⟨new, m', ps, stale, hfill, hstop, hiff⟩
    · exact iff_of_false (not_copyUndone_of_none hpos hnone) fun h => hunsafe h.1
    · rw [copyUndone_of_stopped hpos hclean hfill hstop, hiff]

/-! ## 二つの表を写す -/

def somePage : PageEntry := ⟨0x400000, 0x50000, true, true, false⟩

/-- 満杯の表と、一枚だけの表を持つ address space。 -/
def twoTables : AddrSpace where
  vbreakbase := 0
  vbreaktop := 0
  heapNPages := 0
  vstart := 0
  start := ⟨0, replicate ptableArraySize somePage, ptableArraySize, length_replicate⟩
  next := [blank.fresh somePage]
  «end» := 1
  codeNPages := 0
  dataNPages := 0

theorem chain_twoTables : Chain twoTables.tables := by
  have hfull : twoTables.start.entries.length = ptableArraySize := by decide +kernel
  refine chain_cons_cons.mpr ⟨⟨?_, by decide +kernel⟩, hfull,
    chain_singleton.mpr (blank.entries_fresh (by decide)).2⟩
  unfold Slots.Packed
  decide +kernel

theorem mappedSlots_twoTables : mappedSlots twoTables.start.table = 338 := by decide +kernel

theorem mappedSlots_fresh : mappedSlots (blank.fresh somePage).table = 1 := by decide +kernel

theorem copyCost_twoTables : copyCost twoTables = 341 := by decide +kernel

def shortMem (junk : PageTable) : Mem := { boot 340 (by decide) with junk := fun _ => junk }

theorem clean_shortMem (junk : PageTable) : (shortMem junk).cm.Clean := Coremap.clean_initCoremap _ _

theorem frees_shortMem (junk : PageTable) : (shortMem junk).cm.frees = 340 := frees_boot 340 (by decide)

theorem nextSmall_shortMem (junk : PageTable) : (shortMem junk).NextSmall := by
  intro k hk _
  rw [show (shortMem junk).cm.entry (k + 1) = CmEntry.free from if_pos hk]
  decide

theorem copySafe_twoTables_iff (junk : PageTable) :
    CopySafe (shortMem junk) twoTables ↔ junk.stale 0 = 0 := by
  rw [CopySafe, frees_shortMem, mappedSlots_twoTables]
  change 340 ≤ 338 ∨ ChainSafe (fun _ => junk) 1 1 [blank.fresh somePage] ↔ _
  simp [ChainSafe, mappedSlots_fresh]

theorem copy_undone_iff_blank :
    CopyUndone (shortMem blank) twoTables :=
  (copy_undone_iff chain_twoTables (clean_shortMem _) (by
    rw [frees_shortMem, copyCost_twoTables]
    decide)).mpr ⟨(copySafe_twoTables_iff _).mpr rfl, nextSmall_shortMem _⟩

/-- 表の block に前の値が残っていると、`as_copy` は取っていない frame を返す。 -/
theorem copy_releases_stale_frame :
    ∃ m old, Chain old.tables ∧ m.cm.Clean ∧ m.NextSmall ∧ m.cm.frees < copyCost old ∧
      ¬ CopyUndone m old := by
  have hshort : (shortMem (blank.fresh somePage)).cm.frees < copyCost twoTables := by
    rw [frees_shortMem, copyCost_twoTables]
    decide
  have hpos : (shortMem (blank.fresh somePage)).cm.frees ≠ 0 := by
    rw [frees_shortMem]
    decide
  have hunsafe : ¬ CopySafe (shortMem (blank.fresh somePage)) twoTables :=
    mt (copySafe_twoTables_iff _).mp (by decide)
  refine ⟨_, twoTables, chain_twoTables, clean_shortMem _, nextSmall_shortMem _, hshort, ?_⟩
  rcases asCopyFill_short chain_twoTables hpos hshort with ⟨hnone, -⟩ |
    ⟨new, m', ps, stale, hfill, hstop, hiff⟩
  · exact not_copyUndone_of_none hpos hnone
  · intro hundone
    exact hunsafe (hiff.mp ((copyUndone_of_stopped hpos (clean_shortMem _) hfill hstop).mp hundone).1)

end Os161
