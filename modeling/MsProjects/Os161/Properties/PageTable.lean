import MsProjects.Os161.Properties.Memory

/-! # page table の鎖 -/

namespace Os161

open Infra List Function PageEntry Slots

variable {e : PageEntry} {ts : List PageTable} {t : PageTable} {c : Cur} {m : Mem}

/-- 表の中の使われている entry。 -/
def PageTable.entries (t : PageTable) : List PageEntry := occupied vacant t.table

/-- 鎖を一本の列として見たもの。 -/
def entries (ts : List PageTable) : List PageEntry := ts.flatMap PageTable.entries

@[simp] theorem entries_nil : entries [] = [] := rfl

@[simp] theorem entries_cons (t : PageTable) (ts : List PageTable) :
    entries (t :: ts) = t.entries ++ entries ts := rfl

@[simp] theorem entries_append (ts us : List PageTable) :
    entries (ts ++ us) = entries ts ++ entries us := flatMap_append

def AddrSpace.entries (as : AddrSpace) : List PageEntry := Os161.entries as.tables

theorem PageEntry.vacant_eq_false : e.vacant = false ↔ e.pagePaddr ≠ 0 := by
  simp [vacant]

theorem pagePaddr_ne_zero_of_mem (h : e ∈ entries ts) : e.pagePaddr ≠ 0 := by
  obtain ⟨t, _, he⟩ := mem_flatMap.mp h
  exact vacant_eq_false.mp (vacant_of_mem_occupied he)

/-! ## 走査 -/

theorem findEntry_eq_find? (vaddr : Vaddr) (ts : List PageTable) :
    findEntry vaddr ts = (entries ts).find? fun e => e.pageVaddr == vaddr := by
  induction ts with
  | nil => rfl
  | cons t ts ih =>
    rw [findEntry, entries_cons, find?_append]
    unfold PageTable.find PageTable.entries
    rw [scan_eq_find?]
    cases (occupied vacant t.table).find? fun e => e.pageVaddr == vaddr with
    | none => simpa using ih
    | some e => rfl

theorem destroyFrames_eq (ts : List PageTable) : destroyFrames ts = (entries ts).map pagePaddr := by
  unfold destroyFrames entries
  rw [map_flatMap]
  rfl

theorem findEntry_some {vaddr : Vaddr} (h : findEntry vaddr ts = some e) :
    e ∈ entries ts ∧ e.pageVaddr = vaddr := by
  rw [findEntry_eq_find?] at h
  exact ⟨mem_of_find?_eq_some h, by simpa using find?_some h⟩

theorem findEntry_eq_none_iff {vaddr : Vaddr} :
    findEntry vaddr ts = none ↔ ∀ e ∈ entries ts, e.pageVaddr ≠ vaddr := by
  rw [findEntry_eq_find?, find?_eq_none]
  simp

theorem findEntry_of_mem (hnd : ((entries ts).map pageVaddr).Nodup) (he : e ∈ entries ts) :
    findEntry e.pageVaddr ts = some e := by
  cases hf : findEntry e.pageVaddr ts with
  | none => exact absurd rfl (findEntry_eq_none_iff.mp hf e he)
  | some e' =>
    obtain ⟨he', hv⟩ := findEntry_some hf
    rw [inj_on_of_nodup_map hnd he' he hv]

/-! ## 表と鎖の不変量 -/

/-- 空きが後ろに寄り、`entry_count` が使われている数と一致する。 -/
structure PageTable.Ok (t : PageTable) : Prop where
  packed : Slots.Packed vacant t.table
  count : t.entryCount = t.entries.length

def PageTable.Full (t : PageTable) : Prop := t.entries.length = ptableArraySize

/-- 末尾以外の表は満杯である。 -/
structure Chain (ts : List PageTable) : Prop where
  ok : ∀ t ∈ ts, t.Ok
  full : ∀ t ∈ ts.dropLast, t.Full

theorem PageTable.entries_length_le (t : PageTable) : t.entries.length ≤ ptableArraySize := by
  rw [← t.len]
  exact length_occupied_le _

theorem chain_singleton : Chain [t] ↔ t.Ok := by
  constructor
  · intro h
    exact h.ok t (by simp)
  · intro h
    exact ⟨by simpa using h, by simp⟩

theorem chain_cons_cons {u : PageTable} :
    Chain (t :: u :: ts) ↔ t.Ok ∧ t.Full ∧ Chain (u :: ts) := by
  constructor
  · rintro ⟨hok, hfull⟩
    rw [dropLast_cons_cons] at hfull
    exact ⟨hok t (by simp), hfull t (by simp), fun x hx => hok x (mem_cons_of_mem _ hx),
      fun x hx => hfull x (mem_cons_of_mem _ hx)⟩
  · rintro ⟨ht, hf, hok, hfull⟩
    refine ⟨?_, ?_⟩
    · intro x hx
      rcases mem_cons.mp hx with rfl | hx
      · exact ht
      · exact hok x hx
    · rw [dropLast_cons_cons]
      intro x hx
      rcases mem_cons.mp hx with rfl | hx
      · exact hf
      · exact hfull x hx

theorem entries_length_le (ts : List PageTable) :
    (entries ts).length ≤ ptableArraySize * ts.length := by
  induction ts with
  | nil => simp
  | cons t ts ih =>
    have := t.entries_length_le
    simp only [entries_cons, length_append, length_cons, Nat.mul_add_one]
    omega

/-! ## 一つの表への追加 -/

theorem PageTable.add_eq_none_iff (h : t.Ok) : t.add e = none ↔ t.Full := by
  unfold PageTable.add
  constructor
  · intro hn
    split at hn
    · split at hn
      · simp at hn
      · next hfill =>
        unfold PageTable.Full
        rw [← t.len]
        exact fill_eq_none_iff.mp hfill
    · next hc =>
      unfold PageTable.Full
      rw [← h.count]
      exact not_not.mp hc
  · intro hfull
    have hc : ¬ (t.entryCount ≠ ptableArraySize) := by
      rw [h.count]
      exact not_not.mpr hfull
    rw [if_neg hc]

theorem PageTable.add_some {t' : PageTable} (h : t.Ok) (he : e.pagePaddr ≠ 0)
    (ha : t.add e = some t') : t'.entries = t.entries ++ [e] ∧ t'.Ok ∧ t'.addr = t.addr := by
  unfold PageTable.add at ha
  split at ha
  · next hc =>
    split at ha
    · next l hfill =>
      cases ha
      obtain ⟨hocc, hpk⟩ := fill_spec (vacant_eq_false.mpr he) h.packed hfill
      refine ⟨hocc, ⟨hpk, ?_⟩, rfl⟩
      have hle := t.entries_length_le
      have hlen : (occupied vacant l).length = t.entries.length + 1 := by
        rw [hocc, length_append]
        rfl
      show (t.entryCount + 1) % 2 ^ 9 = (occupied vacant l).length
      rw [hlen, h.count, Nat.mod_eq_of_lt]
      simp only [ptableArraySize] at hle
      omega
    · simp at ha
  · simp at ha

/-! ## 鎖への追加 -/

theorem addToTables_full (h : ∀ t ∈ ts, t.Ok) (hf : ∀ t ∈ ts, t.Full) :
    addToTables e ts = none := by
  induction ts with
  | nil => rfl
  | cons t ts ih =>
    rw [addToTables, (PageTable.add_eq_none_iff (h t (by simp))).mpr (hf t (by simp))]
    simp only
    rw [ih (fun u hu => h u (by simp [hu])) (fun u hu => hf u (by simp [hu]))]
    rfl

theorem addToTables_room (hc : Chain ts) (he : e.pagePaddr ≠ 0)
    (hroom : (entries ts).length < ptableArraySize * ts.length) :
    ∃ ts', addToTables e ts = some ts' ∧ entries ts' = entries ts ++ [e] ∧ Chain ts' ∧
      ts'.map PageTable.addr = ts.map PageTable.addr := by
  induction ts with
  | nil => simp at hroom
  | cons t ts ih =>
    cases ts with
    | nil =>
      have hok := chain_singleton.mp hc
      cases ha : t.add e with
      | none =>
        have := (PageTable.add_eq_none_iff hok).mp ha
        unfold PageTable.Full at this
        simp [this] at hroom
      | some t' =>
        obtain ⟨hent, hok', haddr⟩ := PageTable.add_some hok he ha
        exact ⟨[t'], by simp [addToTables, ha], by simp [hent], chain_singleton.mpr hok',
          by simp [haddr]⟩
    | cons u ts =>
      obtain ⟨hok, hfull, hc'⟩ := chain_cons_cons.mp hc
      have hroom' : (entries (u :: ts)).length < ptableArraySize * (u :: ts).length := by
        unfold PageTable.Full at hfull
        rw [entries_cons, length_append, hfull, length_cons (a := t), Nat.mul_add_one] at hroom
        omega
      obtain ⟨us, hus, hent, hch, haddr⟩ := ih hc' hroom'
      refine ⟨t :: us, ?_, ?_, ?_, by simp [haddr]⟩
      · rw [addToTables, (PageTable.add_eq_none_iff hok).mpr hfull]
        simp [hus]
      · rw [entries_cons, hent, entries_cons t, append_assoc]
      · cases us with
        | nil => simp at haddr
        | cons v us => exact chain_cons_cons.mpr ⟨hok, hfull, hch⟩

/-! ## addPageEntry -/

structure Book where
  vbreakbase : Vaddr
  vbreaktop : Vaddr
  heapNPages : UInt32
  vstart : Vaddr
  codeNPages : UInt32
  dataNPages : UInt32
  deriving DecidableEq

/-- address space の表以外の field。 -/
def AddrSpace.book (as : AddrSpace) : Book where
  vbreakbase := as.vbreakbase
  vbreaktop := as.vbreaktop
  heapNPages := as.heapNPages
  vstart := as.vstart
  codeNPages := as.codeNPages
  dataNPages := as.dataNPages

theorem PageTable.entries_fresh (temp : PageTable) (he : e.pagePaddr ≠ 0) :
    (temp.fresh e).entries = [e] ∧ (temp.fresh e).Ok := by
  have htail : ∀ x ∈ temp.table.tail.map (fun x => ({ x with pagePaddr := 0 } : PageEntry)),
      x.vacant = true := by
    intro x hx
    obtain ⟨y, _, rfl⟩ := mem_map.mp hx
    rfl
  have hent : (temp.fresh e).entries = [e] := by
    unfold PageTable.entries PageTable.fresh
    rw [occupied_cons, if_neg (by simpa [vacant] using he), occupied_of_all_vacant htail]
  refine ⟨hent, ⟨?_, by rw [hent]; rfl⟩⟩
  exact (packed_cons_of_occupied (vacant_eq_false.mpr he)).mpr (packed_of_all_vacant htail)

theorem chain_concat {u : PageTable} (hok : ∀ t ∈ ts, t.Ok) (hfull : ∀ t ∈ ts, t.Full) (hu : u.Ok) :
    Chain (ts ++ [u]) := by
  refine ⟨?_, ?_⟩
  · intro t ht
    rcases mem_append.mp ht with ht | ht
    · exact hok t ht
    · rw [mem_singleton.mp ht]
      exact hu
  · rw [dropLast_concat]
    exact hfull

theorem full_of_no_room (ts : List PageTable)
    (h : (entries ts).length = ptableArraySize * ts.length) : ∀ t ∈ ts, t.Full := by
  induction ts with
  | nil => simp
  | cons t ts ih =>
    have ht := t.entries_length_le
    have hts := entries_length_le ts
    simp only [entries_cons, length_append, length_cons, Nat.mul_add_one] at h
    intro u hu
    rcases mem_cons.mp hu with rfl | hu
    · unfold PageTable.Full
      omega
    · exact ih (by omega) u hu

theorem addPageEntry_eq (c : Cur) (e : PageEntry) :
    addPageEntry c e =
      match addToTables e c.as.tables with
      | some (t :: ts) => some { c with as := { c.as with start := t, next := ts } }
      | _ => c.mem.kmalloc.map fun r =>
          ⟨r.2, { c.as with
            next := c.as.next.take c.as.end ++ [r.1.fresh e]
            «end» := c.as.end + 1 }⟩ := by
  unfold addPageEntry AddrSpace.tables
  rw [addToTables]
  cases hs : c.as.start.add e with
  | some t => rfl
  | none =>
    simp only
    cases hn : addToTables e c.as.next with
    | some ts => rfl
    | none =>
      simp only [Option.map_none]
      cases c.mem.kmalloc with
      | none => rfl
      | some r => rfl

theorem addPageEntry_room (hc : Chain c.as.tables) (he : e.pagePaddr ≠ 0)
    (hroom : (c.as.entries).length < ptableArraySize * c.as.tables.length) :
    ∃ t ts, addPageEntry c e = some { c with as := { c.as with start := t, next := ts } } ∧
      entries (t :: ts) = c.as.entries ++ [e] ∧ Chain (t :: ts) ∧
      t.addr = c.as.start.addr ∧ ts.map PageTable.addr = c.as.next.map PageTable.addr := by
  obtain ⟨us, hus, hent, hch, haddr⟩ := addToTables_room hc he hroom
  rw [addPageEntry_eq, hus]
  cases us with
  | nil => simp [AddrSpace.tables] at haddr
  | cons t ts =>
    simp only [AddrSpace.tables, map_cons, cons.injEq] at haddr
    exact ⟨t, ts, rfl, hent, hch, haddr.1, haddr.2⟩

theorem addPageEntry_full (hc : Chain c.as.tables)
    (hfull : (c.as.entries).length = ptableArraySize * c.as.tables.length) :
    addPageEntry c e = c.mem.kmalloc.map fun r =>
      ⟨r.2, { c.as with
        next := c.as.next.take c.as.end ++ [r.1.fresh e]
        «end» := c.as.end + 1 }⟩ := by
  rw [addPageEntry_eq, addToTables_full hc.ok (full_of_no_room _ hfull)]

theorem entries_link (he : e.pagePaddr ≠ 0) (hc : Chain c.as.tables)
    (hfull : (c.as.entries).length = ptableArraySize * c.as.tables.length) (temp : PageTable) :
    entries (c.as.start :: (c.as.next.take c.as.end ++ [temp.fresh e])) =
        entries (c.as.start :: c.as.next.take c.as.end) ++ [e] ∧
      Chain (c.as.start :: (c.as.next.take c.as.end ++ [temp.fresh e])) := by
  obtain ⟨hent, hok⟩ := temp.entries_fresh he
  have hall := full_of_no_room _ hfull
  have hsub : ∀ t ∈ c.as.start :: c.as.next.take c.as.end, t ∈ c.as.tables := by
    intro t ht
    rcases mem_cons.mp ht with rfl | ht
    · exact mem_cons_self
    · exact mem_cons_of_mem _ (mem_of_mem_take ht)
  refine ⟨?_, ?_⟩
  · simp [hent]
  · rw [← cons_append]
    exact chain_concat (fun t ht => hc.ok t (hsub t ht)) (fun t ht => hall t (hsub t ht)) hok

/-- `end` が鎖の末尾を指していること。 -/
def AddrSpace.EndLast (as : AddrSpace) : Prop := as.end = as.next.length

theorem addPageEntry_append {c' : Cur} (hc : Chain c.as.tables) (hend : c.as.EndLast)
    (he : e.pagePaddr ≠ 0) (ha : addPageEntry c e = some c') :
    c'.as.entries = c.as.entries ++ [e] ∧ Chain c'.as.tables ∧ c'.as.EndLast ∧
      c'.as.book = c.as.book ∧ c'.mem.page = c.mem.page := by
  rcases Nat.lt_or_eq_of_le (entries_length_le c.as.tables) with hroom | hfull
  · obtain ⟨t, ts, hadd, hent, hch, _, haddr⟩ := addPageEntry_room hc he hroom
    rw [hadd, Option.some.injEq] at ha
    subst ha
    refine ⟨hent, hch, ?_, rfl, rfl⟩
    have hlen := congrArg length haddr
    simp only [length_map] at hlen
    exact hend.trans hlen.symm
  · rw [addPageEntry_full hc hfull] at ha
    obtain ⟨⟨temp, mem⟩, hk, rfl⟩ := Option.map_eq_some_iff.mp ha
    obtain ⟨hent, hch⟩ := entries_link he hc hfull temp
    have htake : c.as.next.take c.as.end = c.as.next := by
      rw [hend]
      exact take_length
    rw [htake] at hent hch
    refine ⟨?_, ?_, ?_, rfl, (Mem.kmalloc_some hk).1.page⟩
    · show entries (c.as.start :: (c.as.next.take c.as.end ++ [temp.fresh e])) = _
      rw [htake, hent]
      rfl
    · show Chain (c.as.start :: (c.as.next.take c.as.end ++ [temp.fresh e]))
      rw [htake]
      exact hch
    · show c.as.end + 1 = (c.as.next.take c.as.end ++ [temp.fresh e]).length
      rw [htake, hend]
      simp

theorem addPageEntry_ne_none (h : c.mem.cm.frees ≠ 0) : addPageEntry c e ≠ none := by
  rw [addPageEntry_eq]
  split
  · simp
  · simp [Mem.kmalloc_eq_none_iff, h]

theorem addPageEntry_mem {c' : Cur} (h : addPageEntry c e = some c') :
    c.mem.Keeps c'.mem ∧ c.mem.cm.frees ≤ c'.mem.cm.frees + 1 := by
  rw [addPageEntry_eq] at h
  split at h
  · cases h
    exact ⟨Mem.Keeps.refl _, Nat.le_succ _⟩
  · obtain ⟨⟨temp, mem⟩, hk, rfl⟩ := Option.map_eq_some_iff.mp h
    have htakes := (Mem.kmalloc_some hk).1
    exact ⟨htakes.keeps, le_of_eq htakes.frees.symm⟩

theorem addPageEntry_writePage (m : Mem) (as : AddrSpace) (e : PageEntry) (q : Paddr) (x : Page) :
    addPageEntry ⟨m.writePage q x, as⟩ e =
      (addPageEntry ⟨m, as⟩ e).map fun c => { c with mem := c.mem.writePage q x } := by
  have hk : (m.writePage q x).kmalloc = m.kmalloc.map fun r => (r.1, r.2.writePage q x) := by
    unfold Mem.kmalloc Mem.writePage
    simp only
    split <;> rfl
  rw [addPageEntry_eq, addPageEntry_eq]
  cases addToTables e as.tables with
  | none =>
    simp only [hk, Option.map_map]
    rfl
  | some ts =>
    cases ts with
    | nil =>
      simp only [hk, Option.map_map]
      rfl
    | cons t ts => rfl

/-! ## as_create -/

theorem asCreate_some {m' : Mem} {as : AddrSpace} (h : asCreate m = some (as, m')) :
    as.entries = [] ∧ Chain as.tables ∧ as.EndLast ∧
      as.book = ⟨0, 0, 0, 0, 0, 0⟩ ∧ as.next = [] ∧ as.end = 0 ∧
      m.Takes (kvaddrToPaddr as.start.addr) m' := by
  unfold asCreate at h
  cases hk : m.kmalloc with
  | none => simp [hk] at h
  | some r =>
    obtain ⟨temp, m₁⟩ := r
    simp only [hk, Option.some.injEq, Prod.mk.injEq] at h
    obtain ⟨rfl, rfl⟩ := h
    have hvac : ∀ x ∈ temp.table.map (fun x => ({ x with pagePaddr := 0 } : PageEntry)),
        x.vacant = true := by
      intro x hx
      obtain ⟨y, _, rfl⟩ := mem_map.mp hx
      rfl
    have hocc := occupied_of_all_vacant hvac
    refine ⟨?_, ?_, rfl, rfl, rfl, rfl, (Mem.kmalloc_some hk).1⟩
    · simp only [AddrSpace.entries, AddrSpace.tables, entries_cons, entries_nil, append_nil]
      exact hocc
    · refine chain_singleton.mpr ⟨packed_of_all_vacant hvac, ?_⟩
      unfold PageTable.entries
      rw [hocc]
      rfl

theorem asCreate_eq_none_iff : asCreate m = none ↔ m.cm.frees = 0 := by
  rw [← Mem.kmalloc_eq_none_iff]
  unfold asCreate
  cases m.kmalloc with
  | none | some r => simp

theorem exists_asCreate (h : m.cm.frees ≠ 0) : ∃ as m', asCreate m = some (as, m') := by
  obtain ⟨r, hr⟩ := Option.ne_none_iff_exists'.mp (mt asCreate_eq_none_iff.mp h)
  exact ⟨r.1, r.2, hr⟩

/-! ## as_complete_load -/

theorem vacant_completeEntry (codeTop dataTop : Vaddr) (e : PageEntry) :
    (completeEntry codeTop dataTop e).vacant = e.vacant := by
  unfold completeEntry
  split
  · rfl
  · split <;> rfl

theorem completeEntry_vaddr_paddr (codeTop dataTop : Vaddr) (e : PageEntry) :
    (completeEntry codeTop dataTop e).pageVaddr = e.pageVaddr ∧
      (completeEntry codeTop dataTop e).pagePaddr = e.pagePaddr := by
  unfold completeEntry
  split
  · exact ⟨rfl, rfl⟩
  · split
    · exact ⟨rfl, rfl⟩
    · exact ⟨rfl, rfl⟩

theorem PageTable.entries_complete (t : PageTable) (codeTop dataTop : Vaddr) :
    (t.complete codeTop dataTop).entries = t.entries.map (completeEntry codeTop dataTop) :=
  occupied_mapOccupied (vacant_completeEntry codeTop dataTop) t.table

theorem PageTable.Ok.complete (h : t.Ok) (codeTop dataTop : Vaddr) :
    (t.complete codeTop dataTop).Ok where
  packed := packed_mapOccupied (vacant_completeEntry codeTop dataTop) h.packed
  count := by
    rw [entries_complete, length_map]
    exact h.count

/-- `as_complete_load` が permission を決める境。 -/
abbrev AddrSpace.codeTop (as : AddrSpace) : Vaddr := as.vstart + pageSize * as.codeNPages

theorem tables_asCompleteLoad (as : AddrSpace) :
    (asCompleteLoad as).tables = as.tables.map fun t => t.complete as.codeTop as.vbreakbase := rfl

theorem entries_asCompleteLoad (as : AddrSpace) :
    (asCompleteLoad as).entries = as.entries.map (completeEntry as.codeTop as.vbreakbase) := by
  unfold AddrSpace.entries
  rw [tables_asCompleteLoad]
  induction as.tables with
  | nil => rfl
  | cons t ts ih =>
    rw [map_cons, entries_cons, entries_cons, ih, map_append, PageTable.entries_complete]

theorem chain_asCompleteLoad {as : AddrSpace} (h : Chain as.tables) :
    Chain (asCompleteLoad as).tables := by
  rw [tables_asCompleteLoad]
  refine ⟨?_, ?_⟩
  · intro t ht
    obtain ⟨u, hu, rfl⟩ := mem_map.mp ht
    exact (h.ok u hu).complete _ _
  · rw [← map_dropLast]
    intro t ht
    obtain ⟨u, hu, rfl⟩ := mem_map.mp ht
    unfold PageTable.Full
    rw [PageTable.entries_complete, length_map]
    exact h.full u hu

end Os161
