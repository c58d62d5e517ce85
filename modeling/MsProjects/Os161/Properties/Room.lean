import MsProjects.Os161.Properties.PageTable

/-! # 表の余りと、要る frame の数 -/

namespace Os161

open Infra List Function PageEntry

/-! ## 表の余り -/

def PageTable.room (t : PageTable) : Nat :=
  if t.entryCount ≤ ptableArraySize then
    min (t.table.countP vacant) (ptableArraySize - t.entryCount)
  else t.table.countP vacant

/-- 表の列にあと何枚書けるか。 -/
def room : List PageTable → Nat
  | [] => 0
  | t :: ts => t.room + room ts

/-- `entry_count` は 9 bit に収まる。 -/
def CountsFit (ts : List PageTable) : Prop := ∀ t ∈ ts, t.entryCount < 2 ^ 9

theorem room_append (ts us : List PageTable) : room (ts ++ us) = room ts + room us := by
  induction ts with
  | nil => simp [room]
  | cons t ts ih => simp [room, ih, Nat.add_assoc]

theorem room_eq_zero_iff {ts : List PageTable} : room ts = 0 ↔ ∀ t ∈ ts, t.room = 0 := by
  induction ts with
  | nil => simp [room]
  | cons t ts ih => simp [room, ih]

theorem PageTable.Ok.room_add {t : PageTable} (h : t.Ok) : t.room + t.entries.length = ptableArraySize := by
  have hlen := length_eq_countP_add_countP vacant (l := t.table)
  have hocc := Slots.countP_of_packed h.packed
  rw [t.len] at hlen
  have hneg : t.table.countP (fun e => decide ¬ e.vacant = true) = t.entries.length := by
    rw [← show _ = t.entries.length from hocc]
    congr 1
    funext e
    cases e.vacant <;> rfl
  rw [hneg] at hlen
  rw [PageTable.room, h.count, if_pos t.entries_length_le]
  omega

theorem PageTable.add_cases {t : PageTable} {e : PageEntry} (hcount : t.entryCount < 2 ^ 9)
    (he : e.pagePaddr ≠ 0) :
    (t.add e = none ∧ t.room = 0) ∨
      ∃ t', t.add e = some t' ∧ t'.room + 1 = t.room ∧ t'.entryCount < 2 ^ 9 := by
  have hlen : t.table.countP vacant ≤ ptableArraySize := t.len ▸ countP_le_length
  have hvacant : e.vacant = false := by simpa [vacant] using he
  rw [PageTable.add, PageTable.room]
  by_cases hfull : t.entryCount = ptableArraySize
  · left
    simp [hfull]
  rw [if_pos hfull]
  rcases Slots.countP_fill hvacant t.table with ⟨hnone, hzero⟩ | ⟨l, hsome, hless⟩
  · left
    refine ⟨?_, by simp [hzero]⟩
    split
    · next l hl => exact absurd (hnone.symm.trans hl) (by simp)
    · rfl
  · right
    split
    · next l' hl =>
      obtain rfl : l = l' := Option.some.inj (hsome.symm.trans hl)
      refine ⟨_, rfl, ?_, Nat.mod_lt _ (by decide)⟩
      simp only [PageTable.room]
      simp only [ptableArraySize] at *
      split <;> split <;> omega
    · next hl => exact absurd (hsome.symm.trans hl) (by simp)

theorem addToTables_cases {e : PageEntry} (he : e.pagePaddr ≠ 0) (ts : List PageTable)
    (hcount : CountsFit ts) :
    (addToTables e ts = none ∧ room ts = 0) ∨
      ∃ ts', addToTables e ts = some ts' ∧ room ts' + 1 = room ts ∧ CountsFit ts' ∧
        ts'.length = ts.length := by
  induction ts with
  | nil => exact .inl ⟨rfl, rfl⟩
  | cons t ts ih =>
    have hts : CountsFit ts := fun u hu => hcount u (mem_cons_of_mem _ hu)
    rcases PageTable.add_cases (hcount t mem_cons_self) he with ⟨hnone, hzero⟩ | ⟨t', hsome, hless, ht'⟩
    · rcases ih hts with ⟨hnone', hzero'⟩ | ⟨ts', hsome', hless', hts', hlen⟩
      · exact .inl ⟨by simp [addToTables, hnone, hnone'], by simp [room, hzero, hzero']⟩
      · refine .inr ⟨t :: ts', by simp [addToTables, hnone, hsome'], by simp [room]; omega,
        ?_, by simp [hlen]⟩
        intro u hu
        rcases mem_cons.mp hu with rfl | hu
        · exact hcount u mem_cons_self
        · exact hts' u hu
    · refine .inr ⟨t' :: ts, by simp [addToTables, hsome], by simp [room]; omega, ?_, rfl⟩
      intro u hu
      rcases mem_cons.mp hu with rfl | hu
      · exact ht'
      · exact hts u hu

theorem room_fresh (temp : PageTable) {e : PageEntry} (he : e.pagePaddr ≠ 0) :
    (temp.fresh e).room = 337 := by
  have hvacant : e.vacant = false := by simpa [vacant] using he
  have htail : temp.table.tail.length = 337 := by
    rw [length_tail, temp.len]
    rfl
  have hall : ∀ x ∈ temp.table.tail.map fun x => ({ x with pagePaddr := 0 } : PageEntry),
    x.vacant = true := by
    intro x hx
    obtain ⟨y, -, rfl⟩ := mem_map.mp hx
    rfl
  have hcount : (temp.fresh e).table.countP vacant = 337 := by
    rw [PageTable.fresh, countP_cons_of_neg (by simp [hvacant]), countP_eq_length.mpr hall,
      length_map, htail]
  rw [PageTable.room, hcount]
  rfl

/-! ## 一枚足す -/

theorem addPageEntry_cases {c : Cur} {e : PageEntry} (he : e.pagePaddr ≠ 0)
    (hcount : CountsFit c.as.tables) :
    (0 < room c.as.tables ∧ ∃ t ts, addPageEntry c e =
        some { c with as := { c.as with start := t, next := ts } } ∧
        room (t :: ts) + 1 = room c.as.tables ∧ CountsFit (t :: ts)) ∨
      (room c.as.tables = 0 ∧ addPageEntry c e = c.mem.kmalloc.map fun r =>
        ⟨r.2, { c.as with
          next := c.as.next.take c.as.end ++ [r.1.fresh e]
          «end» := c.as.end + 1 }⟩) := by
  rw [addPageEntry_eq]
  rcases addToTables_cases he c.as.tables hcount with ⟨hnone, hzero⟩ | ⟨ts, hsome, hless, hts, hlen⟩
  · exact .inr ⟨hzero, by simp [hnone]⟩
  · left
    refine ⟨by omega, ?_⟩
    cases ts with
    | nil => simp [AddrSpace.tables] at hlen
    | cons t ts => exact ⟨t, ts, by simp [hsome], hless, hts⟩

theorem room_link {as : AddrSpace} (hzero : room as.tables = 0) (hcount : CountsFit as.tables)
    (temp : PageTable) {e : PageEntry} (he : e.pagePaddr ≠ 0) :
    room (as.start :: (as.next.take as.end ++ [temp.fresh e])) = 337 ∧
      CountsFit (as.start :: (as.next.take as.end ++ [temp.fresh e])) := by
  have hsub : ∀ t ∈ as.start :: as.next.take as.end, t ∈ as.tables := by
    intro t ht
    rcases mem_cons.mp ht with rfl | ht
    · exact mem_cons_self
    · exact mem_cons_of_mem _ (mem_of_mem_take ht)
  rw [← cons_append]
  constructor
  · have hold : room (as.start :: as.next.take as.end) = 0 :=
      room_eq_zero_iff.mpr fun t ht => room_eq_zero_iff.mp hzero t (hsub t ht)
    rw [room_append, hold, room, room_fresh temp he]
    rfl
  · intro t ht
    rcases mem_append.mp ht with ht | ht
    · exact hcount t (hsub t ht)
    · rw [mem_singleton.mp ht]
      exact (by decide : 1 < 2 ^ 9)

/-! ## 要る frame の数 -/

/-- 余りが `room` の表に `n` 枚足すのに要る frame の数。 -/
def framesFor (room n : Nat) : Nat := n + (n - room + 337) / 338

@[simp] theorem framesFor_zero (r : Nat) : framesFor r 0 = 0 := by
  rw [framesFor]
  omega

theorem framesFor_succ_succ (r n : Nat) : framesFor (r + 1) (n + 1) = framesFor r n + 1 := by
  rw [framesFor, framesFor]
  omega

theorem framesFor_zero_succ (n : Nat) : framesFor 0 (n + 1) = framesFor 337 n + 2 := by
  rw [framesFor, framesFor]
  omega

theorem le_framesFor (r n : Nat) : n ≤ framesFor r n := Nat.le_add_right _ _

theorem framesFor_le {r i j : Nat} (h : i ≤ j) : framesFor r i ≤ framesFor r j := by
  rw [framesFor, framesFor]
  omega

/-- `c` から一枚足して `c₁` になる。 -/
structure TakesPage (c : Cur) (e : PageEntry) (c₁ : Cur) : Prop where
  taken : ∃ mem, c.mem.allocUpage = some (e.pagePaddr, mem) ∧ addPageEntry { c with mem := mem } e = some c₁
  counts : CountsFit c₁.as.tables
  budget : ∀ n, framesFor (room c.as.tables) (n + 1) + c₁.mem.cm.frees =
    framesFor (room c₁.as.tables) n + c.mem.cm.frees
  book : c₁.as.book = c.as.book

theorem takePage_cases {c : Cur} (v : Vaddr) (r w x : Bool) (hcount : CountsFit c.as.tables) :
    (c.mem.cm.frees = 0 ∧ c.mem.allocUpage = none) ∨
      (c.mem.cm.frees = 1 ∧ room c.as.tables = 0 ∧ ∃ paddr mem, c.mem.allocUpage = some (paddr, mem) ∧
        addPageEntry { c with mem := mem } ⟨v, paddr, r, w, x⟩ = none) ∨
      ∃ paddr c₁, TakesPage c ⟨v, paddr, r, w, x⟩ c₁ := by
  cases halloc : c.mem.allocUpage with
  | none => exact .inl ⟨Mem.allocUpage_eq_none_iff.mp halloc, rfl⟩
  | some a =>
    obtain ⟨paddr, mem⟩ := a
    have htakes := (Mem.allocUpage_some halloc).1
    have hfrees := htakes.frees
    right
    rcases addPageEntry_cases (c := { c with mem := mem }) (e := ⟨v, paddr, r, w, x⟩) htakes.ne_zero
      hcount with
      ⟨hpos, t, ts, hadd, hroom, hcounts⟩ | ⟨hzero, hadd⟩
    · refine .inr ⟨paddr, _, ⟨mem, halloc, hadd⟩, hcounts, fun n => ?_, rfl⟩
      have hroom' : room c.as.tables = room (t :: ts) + 1 := hroom.symm
      change framesFor (room c.as.tables) (n + 1) + mem.cm.frees =
        framesFor (room (t :: ts)) n + c.mem.cm.frees
      rw [hroom', framesFor_succ_succ]
      omega
    · have hzero' : room c.as.tables = 0 := hzero
      cases hk : mem.kmalloc with
      | none =>
        have hfree := Mem.kmalloc_eq_none_iff.mp hk
        refine .inl ⟨by omega, hzero', paddr, mem, rfl, ?_⟩
        rw [hadd]
        simp [hk]
      | some a =>
        obtain ⟨temp, mem'⟩ := a
        have hfrees' := (Mem.kmalloc_some hk).1.frees
        obtain ⟨hroom, hcounts⟩ := room_link hzero' hcount temp (e := ⟨v, paddr, r, w, x⟩) htakes.ne_zero
        have hadd' : addPageEntry { c with mem := mem } ⟨v, paddr, r, w, x⟩ = some ⟨mem', { c.as with
            next := c.as.next.take c.as.end ++ [temp.fresh ⟨v, paddr, r, w, x⟩]
            «end» := c.as.end + 1 }⟩ := hadd.trans (congrArg (Option.map _) hk)
        refine .inr ⟨paddr, _, ⟨mem, halloc, hadd'⟩, hcounts, fun n => ?_, rfl⟩
        change framesFor (room c.as.tables) (n + 1) + mem'.cm.frees = framesFor (room (c.as.start ::
          (c.as.next.take c.as.end ++ [temp.fresh ⟨v, paddr, r, w, x⟩]))) n + c.mem.cm.frees
        rw [hroom, hzero', framesFor_zero_succ]
        omega

end Os161
