import MsProjects.Os161.Properties.Release
import MsProjects.Os161.Properties.Sbrk

/-! # 写した address space のその後 -/

namespace Os161

open Infra List Function PageEntry

variable {as as' : AddrSpace} {es : List PageEntry}

/-! ## 空きの数 -/

/-- 鎖に残っている空き slot の数。 -/
def AddrSpace.room (as : AddrSpace) : Nat := ptableArraySize * as.tables.length - as.entries.length

theorem AddrSpace.room_add (as : AddrSpace) :
    as.entries.length + as.room = ptableArraySize * as.tables.length := by
  have := entries_length_le as.tables
  unfold AddrSpace.room AddrSpace.entries at *
  omega

theorem Chain.length_le {ts : List PageTable} (h : Chain ts) :
    ptableArraySize * ts.length ≤ (entries ts).length + ptableArraySize := by
  induction ts with
  | nil => simp
  | cons t ts ih =>
    cases ts with
    | nil => simp
    | cons u ts =>
      obtain ⟨_, hfull, hc⟩ := chain_cons_cons.mp h
      have := ih hc
      unfold PageTable.Full at hfull
      rw [entries_cons, length_append, hfull, length_cons (a := t), Nat.mul_add_one]
      omega

/-! ## 続けて足す -/

inductive Adds : AddrSpace → List PageEntry → AddrSpace → Prop where
  | nil (as : AddrSpace) : Adds as [] as
  | cons {as as' : AddrSpace} {e : PageEntry} {es : List PageEntry} {c : Cur} (mem : Mem) :
      addPageEntry ⟨mem, as⟩ e = some c → Adds c.as es as' → Adds as (e :: es) as'

theorem addPageEntry_room' {mem : Mem} {e : PageEntry} {c : Cur} (hc : Chain as.tables)
    (he : e.pagePaddr ≠ 0) (hroom : 0 < as.room) (h : addPageEntry ⟨mem, as⟩ e = some c) :
    c.as.entries = as.entries ++ [e] ∧ Chain c.as.tables ∧ c.as.end = as.end ∧
      c.as.next.length = as.next.length ∧ c.as.room + 1 = as.room ∧ c.as.book = as.book := by
  have hadd := as.room_add
  obtain ⟨t, ts, heq, hent, hch, _, haddr⟩ := addPageEntry_room (c := ⟨mem, as⟩) hc he
    (show as.entries.length < _ by show _ < ptableArraySize * as.tables.length; omega)
  rw [heq, Option.some.injEq] at h
  subst h
  have hlen : ts.length = as.next.length := by simpa using congrArg length haddr
  refine ⟨hent, hch, rfl, hlen, ?_, rfl⟩
  have hadd' := AddrSpace.room_add { as with start := t, next := ts }
  rw [show AddrSpace.entries { as with start := t, next := ts } = as.entries ++ [e] from hent,
    length_append] at hadd'
  simp only [AddrSpace.tables, length_cons, length_nil, hlen] at hadd hadd'
  show AddrSpace.room { as with start := t, next := ts } + 1 = _
  omega

theorem addPageEntry_full' {mem : Mem} {e : PageEntry} {c : Cur} (hc : Chain as.tables)
    (he : e.pagePaddr ≠ 0) (hroom : as.room = 0) (h : addPageEntry ⟨mem, as⟩ e = some c) :
    c.as.entries = entries (as.start :: as.next.take as.end) ++ [e] ∧ Chain c.as.tables ∧
      c.as.end = as.end + 1 ∧ c.as.next.length = (as.next.take as.end).length + 1 ∧
      c.as.book = as.book := by
  have hadd := as.room_add
  have hfull : as.entries.length = ptableArraySize * as.tables.length := by omega
  rw [addPageEntry_full (c := ⟨mem, as⟩) hc hfull] at h
  obtain ⟨⟨temp, m⟩, hk, rfl⟩ := Option.map_eq_some_iff.mp h
  obtain ⟨hent, hch⟩ := entries_link (c := ⟨mem, as⟩) he hc hfull temp
  exact ⟨hent, hch, rfl, by simp, rfl⟩

section

variable (h : Adds as es as') (hc : Chain as.tables)

include h hc

theorem Adds.entries_of_room (hne : ∀ e ∈ es, e.pagePaddr ≠ 0) (hroom : es.length ≤ as.room) :
    as'.entries = as.entries ++ es := by
  induction h with
  | nil => simp
  | @cons as as' e es c mem hadd _ ih =>
    simp only [length_cons] at hroom
    obtain ⟨hent, hch, _, _, hr, _⟩ := addPageEntry_room' hc (hne e mem_cons_self) (by omega) hadd
    rw [ih hch (fun x hx => hne x (mem_cons_of_mem _ hx)) (by omega), hent]
    simp

theorem Adds.entries_of_endLast (hend : as.EndLast) (hne : ∀ e ∈ es, e.pagePaddr ≠ 0) :
    as'.entries = as.entries ++ es := by
  induction h with
  | nil => simp
  | @cons as as' e es c mem hadd _ ih =>
    obtain ⟨hent, hch, hend', _, _⟩ := addPageEntry_append (c := ⟨mem, as⟩) hc hend
      (hne e mem_cons_self) hadd
    rw [ih hch hend' (fun x hx => hne x (mem_cons_of_mem _ hx)), hent]
    simp

theorem Adds.length_of_overflow (hend : as.end = 0) (hne : ∀ e ∈ es, e.pagePaddr ≠ 0)
    (hroom : as.room < es.length) : as'.entries.length + as.room = ptableArraySize + es.length := by
  induction h with
  | nil => simp at hroom
  | @cons as as' e es c mem hadd htail ih =>
    have he := hne e mem_cons_self
    have hne' : ∀ x ∈ es, x.pagePaddr ≠ 0 := fun x hx => hne x (mem_cons_of_mem _ hx)
    simp only [length_cons] at hroom ⊢
    rcases Nat.eq_zero_or_pos as.room with h0 | hpos
    · obtain ⟨hent, hch, hend', hlen, _⟩ := addPageEntry_full' hc he h0 hadd
      have hlast : c.as.EndLast := by
        unfold AddrSpace.EndLast
        rw [hend', hlen, hend]
        rfl
      have hstart : as.start.Full := by
        refine full_of_no_room as.tables ?_ as.start mem_cons_self
        have := as.room_add
        unfold AddrSpace.entries at this
        omega
      unfold PageTable.Full at hstart
      rw [htail.entries_of_endLast hch hlast hne', hent, hend]
      simp only [take_zero, entries_cons, entries_nil, length_append, length_cons,
        length_nil, hstart, h0]
      omega
    · obtain ⟨_, hch, hend', _, hr, _⟩ := addPageEntry_room' hc he hpos hadd
      have := ih hch (hend'.trans hend) hne' (by omega)
      omega

theorem Adds.subset (hne : ∀ e ∈ es, e.pagePaddr ≠ 0) : as'.entries ⊆ as.entries ++ es := by
  induction h with
  | nil => simp
  | @cons as as' e es c mem hadd htail ih =>
    have he := hne e mem_cons_self
    have hstep : Chain c.as.tables ∧ c.as.entries ⊆ as.entries ++ [e] := by
      rcases Nat.eq_zero_or_pos as.room with h0 | hpos
      · obtain ⟨hent, hch, _⟩ := addPageEntry_full' hc he h0 hadd
        refine ⟨hch, ?_⟩
        rw [hent]
        refine append_subset.mpr ⟨?_, subset_append_right _ _⟩
        intro x hx
        obtain ⟨t, ht, hxt⟩ := mem_flatMap.mp hx
        refine mem_append_left _ (mem_flatMap.mpr ⟨t, ?_, hxt⟩)
        rcases mem_cons.mp ht with rfl | ht
        · exact mem_cons_self
        · exact mem_cons_of_mem _ (mem_of_mem_take ht)
      · obtain ⟨hent, hch, _⟩ := addPageEntry_room' hc he hpos hadd
        exact ⟨hch, by rw [hent]; exact Subset.refl _⟩
    have htl := ih hstep.1 fun x hx => hne x (mem_cons_of_mem _ hx)
    intro x hx
    rcases mem_append.mp (htl hx) with hx | hx
    · rcases mem_append.mp (hstep.2 hx) with hx | hx
      · exact mem_append_left _ hx
      · rw [mem_singleton.mp hx]
        simp
    · simp [hx]

end

theorem exists_lost {all : List PageEntry} (hnd : (all.map pageVaddr).Nodup)
    (hlt : as.entries.length < all.length) : ∃ e ∈ all, e ∉ as.entries := by
  by_contra hall
  push Not at hall
  have hsub := (hnd.of_map _).subperm hall
  have := hsub.length_le
  omega

/-! ## as_copy の後の追加 -/

theorem ChainCopied.room_eq {m m' : Mem} {old new : AddrSpace}
    (h : ChainCopied m old.tables new.tables m') : new.room = old.room := by
  have h1 := h.copy.length_eq
  have h2 := (entries_of_copy h.copy).length_eq
  unfold AddrSpace.room AddrSpace.entries
  rw [h1, h2]

/-- 写した page と足した page がどれも、自分の frame で見つかり、`as_destroy` で返される。 -/
def AllReachable (as : AddrSpace) (all : List PageEntry) : Prop :=
  ∀ e ∈ all, findEntry e.pageVaddr as.tables = some e ∧
    ∀ m, (∃ log, (asDestroy m as).freed = m.freed ++ log ∧ e.pagePaddr ∈ log) ∧
      ((∀ p ∈ as.released, m.Held p) → ¬ (asDestroy m as).Allocated e.pagePaddr)

theorem allReachable_of_entries {all : List PageEntry} (hnd : (all.map pageVaddr).Nodup)
    (h : as.entries = all) : AllReachable as all := by
  intro e he
  have hent : entries as.tables = all := h
  have hmem : e.pagePaddr ∈ as.released := by
    rw [AddrSpace.released_eq, h]
    exact mem_append_left _ (mem_map_of_mem he)
  refine ⟨findEntry_of_mem (by rw [hent]; exact hnd) (hent ▸ he), fun m => ?_⟩
  rw [asDestroy_eq]
  exact ⟨⟨_, m.freed_foldl_pageFree _, hmem⟩, fun h => Mem.not_allocated_foldl_pageFree h hmem⟩

theorem Adds.entries_length_lt (h : Adds as es as') (hc : Chain as.tables) (hend : as.end = 0)
    (hnext : as.next ≠ []) (hne : ∀ e ∈ es, e.pagePaddr ≠ 0) (hroom : as.room < es.length) :
    as'.entries.length < (as.entries ++ es).length := by
  have hlen := h.length_of_overflow hc hend hne hroom
  have hadd := as.room_add
  have hpos := length_pos_iff.mpr hnext
  simp only [AddrSpace.tables, length_cons, length_append, ptableArraySize] at *
  omega

/-! ### 具体的な親と子 -/

theorem length_entriesFrom : (entriesFrom 0x400000 338).length = ptableArraySize := by decide +kernel

/-- 339 枚の page を持つ address space。 -/
def parent : AddrSpace :=
  { AddrSpace.blank with
    start := ⟨0, entriesFrom 0x400000 338, 338, length_entriesFrom⟩
    next := [PageTable.blank.fresh ⟨0x10000000, 0x40000, true, true, false⟩]
    «end» := 1 }

theorem Mem.thousand_le : 1000 ≤ 100000 := by decide

/-- 先頭の frame だけが使用中の memory。 -/
def parentMem : Mem :=
  { Mem.boot 1000 Mem.thousand_le with
    cm := (Mem.boot 1000 Mem.thousand_le).cm.addtocoremap 0x40000 1 false }

theorem chain_parent : Chain parent.tables := by
  have hfull : parent.start.entries.length = ptableArraySize := by decide +kernel
  refine chain_cons_cons.mpr ⟨⟨?_, by decide +kernel⟩, hfull,
    chain_singleton.mpr (PageTable.blank.entries_fresh (by decide)).2⟩
  unfold Slots.Packed
  decide +kernel

theorem owns_parent : parent.Owns parentMem := by
  intro e he
  have hpaddr : ∀ x ∈ parent.entries, x.pagePaddr = 0x40000 := by decide +kernel
  exact ⟨0, ⟨by decide, by decide⟩, (hpaddr e he).trans (by decide)⟩

theorem exists_adds (as : AddrSpace) (es : List PageEntry) : ∃ as', Adds as es as' := by
  induction es generalizing as with
  | nil => exact ⟨as, .nil as⟩
  | cons e es ih =>
    obtain ⟨c, hadd⟩ := Option.ne_none_iff_exists'.mp
      (addPageEntry_ne_none (c := ⟨Mem.boot 1 (by decide), as⟩) (e := e)
        (by rw [Mem.frees_boot]; decide))
    obtain ⟨as', h⟩ := ih c.as
    exact ⟨as', .cons _ hadd h⟩

theorem exists_copy_adds (es : List PageEntry) :
    ∃ m' new as, asCopy parentMem parent = some (.ok new, m') ∧ Adds new es as := by
  obtain ⟨new, m', hcopy⟩ := asCopy_of_frees chain_parent owns_parent (by decide +kernel)
  obtain ⟨as, hadds⟩ := exists_adds new es
  exact ⟨m', new, as, hcopy, hadds⟩

/--
`as_copy` の後に page を足していくとき、すべての page が辿れるのは、元の鎖が表一つだけだったか、
足した数が元の鎖の空きに収まるときに限る。
-/
theorem copy_reachable_iff {m m' : Mem} {old new as : AddrSpace} {es : List PageEntry}
    (hc : Chain old.tables) (hown : old.Owns m) (hcopy : asCopy m old = some (.ok new, m'))
    (hadds : Adds new es as) (hne : ∀ e ∈ es, e.pagePaddr ≠ 0)
    (hnd : ((old.entries ++ es).map pageVaddr).Nodup) :
    new.entries.map pageVaddr = old.entries.map pageVaddr ∧
      (AllReachable as (new.entries ++ es) ↔ old.next = [] ∨ es.length ≤ old.room) := by
  obtain ⟨hcopied, hend, _, _⟩ := asCopy_ok hc hown hcopy
  have hvaddrs : new.entries.map pageVaddr = old.entries.map pageVaddr := hcopied.map_pageVaddr
  have hc' : Chain new.tables := chain_of_copy hcopied.copy hc
  have hroom := hcopied.room_eq
  have hlen : new.next.length = old.next.length := by
    simpa [AddrSpace.tables] using hcopied.copy.length_eq.symm
  have hnd' : ((new.entries ++ es).map pageVaddr).Nodup := by
    rw [map_append, hvaddrs, ← map_append]
    exact hnd
  refine ⟨hvaddrs, ?_, ?_⟩
  · intro hall
    by_contra hcond
    push Not at hcond
    obtain ⟨hnext, hover⟩ := hcond
    have hnext' : new.next ≠ [] := by
      rw [← length_pos_iff, hlen]
      exact length_pos_iff.mpr hnext
    have hlt := hadds.entries_length_lt hc' hend hnext' hne (by omega)
    obtain ⟨e, he, hlost⟩ := exists_lost hnd' hlt
    exact hlost (findEntry_some (hall e he).1).1
  · rintro (hnext | hfit)
    · have hlast : new.EndLast := by
        unfold AddrSpace.EndLast
        rw [hend, hlen, hnext]
        rfl
      exact allReachable_of_entries hnd' (hadds.entries_of_endLast hc' hlast hne)
    · exact allReachable_of_entries hnd' (hadds.entries_of_room hc' hne (by omega))

/-- 339 枚の親を写した子に一枚足しても、すべての page が辿れる。 -/
theorem copy_reachable_iff_one_more :
    ∃ m old m' new es as, old.entries.length = 339 ∧ es.length = 1 ∧
      asCopy m old = some (.ok new, m') ∧ Adds new es as ∧ AllReachable as (new.entries ++ es) := by
  obtain ⟨m', new, as, hcopy, hadds⟩ := exists_copy_adds (entriesFrom 0x20000000 1)
  exact ⟨_, parent, m', new, _, as, by decide +kernel, by decide, hcopy, hadds,
    (copy_reachable_iff chain_parent owns_parent hcopy hadds (by decide)
      (nodup_of_isChain (by decide +kernel))).2.mpr (Or.inr (by decide +kernel))⟩

/-- 339 枚の親を写した子に 338 枚足すと、辿れない page がある。 -/
theorem copy_loses_pages :
    ∃ m old m' new es as, Chain old.tables ∧ old.Owns m ∧ old.entries.length = 339 ∧
      es.length = 338 ∧ (∀ e ∈ es, e.pagePaddr ≠ 0) ∧
      ((old.entries ++ es).map pageVaddr).Nodup ∧
      asCopy m old = some (.ok new, m') ∧ Adds new es as ∧
      ∃ e ∈ new.entries ++ es, findEntry e.pageVaddr as.tables = none := by
  obtain ⟨m', new, as, hcopy, hadds⟩ := exists_copy_adds (entriesFrom 0x20000000 338)
  have hne : ∀ e ∈ entriesFrom 0x20000000 338, e.pagePaddr ≠ 0 := by decide +kernel
  have hnd := nodup_of_isChain (by decide +kernel :
    ((parent.entries ++ entriesFrom 0x20000000 338).map pageVaddr).IsChain (· < ·))
  obtain ⟨hcopied, hend, _, _⟩ := asCopy_ok chain_parent owns_parent hcopy
  have hch' : Chain new.tables := chain_of_copy hcopied.copy chain_parent
  have hnd' : ((new.entries ++ entriesFrom 0x20000000 338).map pageVaddr).Nodup := by
    rw [map_append, show new.entries.map _ = _ from hcopied.map_pageVaddr, ← map_append]
    exact hnd
  have hroom : new.room = 337 := hcopied.room_eq.trans (by decide +kernel)
  have hnext : new.next.length = 1 := by
    simpa [AddrSpace.tables, parent] using hcopied.copy.length_eq.symm
  obtain ⟨e, he, hlost⟩ := exists_lost hnd' (hadds.entries_length_lt hch' hend
    (ne_nil_of_length_eq_add_one hnext) hne (by rw [hroom]; decide +kernel))
  refine ⟨_, parent, m', new, _, as, chain_parent,
    owns_parent, by decide +kernel, by decide +kernel, hne, hnd,
    hcopy, hadds, e, he, ?_⟩
  rw [findEntry_eq_none_iff]
  intro x hx hv
  -- 同じ page の entry は一つしか無いので、見つかったなら e 自身である
  have hxe := inj_on_of_nodup_map hnd' (hadds.subset hch' hne hx) he hv
  exact hlost (hxe ▸ hx)

end Os161
