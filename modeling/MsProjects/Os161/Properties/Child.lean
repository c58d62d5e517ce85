import MsProjects.Os161.Properties.Fault
import MsProjects.Os161.Properties.Fork

/-! # fork した子の振る舞い -/

namespace Os161

open Infra List Function

variable {as old new : AddrSpace} {m m' : Mem} {k : Nat} {a b : Cur} {e : PageEntry}

/-! ## 見えるもの -/

/-- user から見た一枚の page。 -/
structure PageView where
  vaddr : Vaddr
  isRead : Bool
  isWrite : Bool
  isExe : Bool
  content : Page

def PageEntry.view (m : Mem) (e : PageEntry) : PageView :=
  ⟨e.pageVaddr, e.isRead, e.isWrite, e.isExe, m.page e.pagePaddr⟩

/-- address space の page の並び。 -/
def AddrSpace.view (as : AddrSpace) (m : Mem) : List PageView := as.entries.map (PageEntry.view m)

/-- user の process が引き起こす呼び出し。 -/
inductive Call where
  | fault (faulttype : FaultType) (faultaddress : Vaddr) (random : Fin numTlb)
  | sbrk (amount : Int32)

inductive Reply where
  | fault (r : Except Errno Unit)
  | sbrk (r : Except Errno Vaddr)

def Call.perform : Call → Cpu → Option (Reply × Cpu)
  | .fault ft addr random, s => (vmFault ft addr random s).map fun r => (.fault r.1, r.2)
  | .sbrk amount, s =>
    (sysSbrk amount s.toCur).map fun r => (.sbrk r.1, { s with toCur := r.2 })

/-- 一回の呼び出しで見えるもの。 -/
structure Seen where
  reply : Reply
  book : Book
  view : List PageView

/-- 呼び出しの列で見えるもの。 -/
def observe : List Call → Cpu → List (Option Seen)
  | [], _ => []
  | x :: xs, s =>
    match x.perform s with
    | none => [none]
    | some (r, s) => some ⟨r, s.as.book, s.as.view s.mem⟩ :: observe xs s

/-! ## 同じに見える二つの address space -/

/-- 同じ memory の上の、同じに見える二つの address space。 -/
structure Sim (k : Nat) (a b : Cur) : Prop where
  mem : a.mem = b.mem
  chainL : Chain a.as.tables
  chainR : Chain b.as.tables
  next : a.as.next.length = b.as.next.length
  book : a.as.book = b.as.book
  view : a.as.view a.mem = b.as.view b.mem
  ownsL : a.as.Owns a.mem
  ownsR : b.as.Owns b.mem
  ends : a.as.end = b.as.end ∨ a.mem.cm.frees ≤ a.as.room + k

namespace Sim

variable {k : Nat} {a b : Cur}

theorem length_entries (h : Sim k a b) : a.as.entries.length = b.as.entries.length := by
  simpa [AddrSpace.view] using congrArg length h.view

theorem room_eq (h : Sim k a b) : a.as.room = b.as.room := by
  unfold AddrSpace.room
  rw [h.length_entries]
  simp only [AddrSpace.tables, length_cons, h.next]

end Sim

theorem AddrSpace.Owns.view_eq (h : as.Owns m) (hk : m.Keeps m') : as.view m' = as.view m := by
  unfold AddrSpace.view
  refine map_congr_left ?_
  intro e he
  unfold PageEntry.view
  rw [hk.page _ (h e he)]

theorem Sim.keeps {j : Nat} (h : Sim k a b) (hk : a.mem.Keeps m)
    (hj : a.mem.cm.frees ≤ a.as.room + k → m.cm.frees ≤ a.as.room + j) :
    Sim j ⟨m, a.as⟩ ⟨m, b.as⟩ where
  mem := rfl
  chainL := h.chainL
  chainR := h.chainR
  next := h.next
  book := h.book
  view := by
    have hk' : b.mem.Keeps m := h.mem ▸ hk
    show a.as.view m = b.as.view m
    rw [h.ownsL.view_eq hk, h.ownsR.view_eq hk', h.view]
  ownsL := h.ownsL.keeps hk
  ownsR := h.ownsR.keeps (h.mem ▸ hk)
  ends := h.ends.imp id hj

/-! ## addPageEntry -/

theorem entries_take {ts : List PageTable} (hfull : ∀ t ∈ ts, t.Full) (n : Nat) :
    entries (ts.take n) = (entries ts).take (ptableArraySize * n) := by
  induction ts generalizing n with
  | nil => simp
  | cons t ts ih =>
    cases n with
    | zero => simp
    | succ n =>
      have ht : t.entries.length = ptableArraySize := hfull t mem_cons_self
      have hall : t.entries.take (ptableArraySize * n + ptableArraySize) = t.entries :=
        take_of_length_le (by rw [ht]; omega)
      rw [take_succ_cons, entries_cons, entries_cons, take_append, ht,
        ih fun u hu => hfull u (mem_cons_of_mem _ hu), Nat.mul_add_one, Nat.add_sub_cancel,
        hall]

theorem view_link {mem : Mem} {c : Cur} (hc : Chain as.tables) (he : e.pagePaddr ≠ 0)
    (hroom : as.room = 0) (h : addPageEntry ⟨mem, as⟩ e = some c) :
    c.as.view m = (as.view m).take (ptableArraySize * (as.end + 1)) ++ [e.view m] := by
  obtain ⟨hent, _⟩ := addPageEntry_full' hc he hroom h
  have hfull := full_of_no_room as.tables (by
    have := as.room_add
    unfold AddrSpace.entries at this
    omega)
  have htake : as.start :: as.next.take as.end = as.tables.take (as.end + 1) := rfl
  unfold AddrSpace.view
  rw [hent, htake, entries_take hfull, map_append, map_take]
  rfl

theorem addPageEntry_mem_of_room (mem : Mem) (hc : Chain as.tables) (he : e.pagePaddr ≠ 0)
    (hroom : 0 < as.room) : ∃ as', addPageEntry ⟨mem, as⟩ e = some ⟨mem, as'⟩ := by
  have hadd := as.room_add
  obtain ⟨t, ts, heq, _⟩ := addPageEntry_room (c := ⟨mem, as⟩) hc he
    (show as.entries.length < ptableArraySize * as.tables.length by omega)
  exact ⟨_, heq⟩

theorem addPageEntry_mem_of_full (mem : Mem) (e : PageEntry) (hc : Chain as.tables)
    (hroom : as.room = 0) :
    addPageEntry ⟨mem, as⟩ e = none ∧ mem.kmalloc = none ∨
      ∃ temp m as', mem.kmalloc = some (temp, m) ∧ addPageEntry ⟨mem, as⟩ e = some ⟨m, as'⟩ := by
  have hadd := as.room_add
  rw [addPageEntry_full (c := ⟨mem, as⟩) hc
    (show as.entries.length = ptableArraySize * as.tables.length by omega)]
  cases hk : mem.kmalloc with
  | none => exact Or.inl ⟨rfl, rfl⟩
  | some r => exact Or.inr ⟨r.1, r.2, _, rfl, rfl⟩

theorem Sim.addPageEntry_full {p c : AddrSpace} (h : Sim 0 ⟨m, p⟩ ⟨m, c⟩) (he : e.pagePaddr ≠ 0)
    (hal : m.Allocated e.pagePaddr) (h0 : p.room = 0) :
    Option.Rel (Sim 1) (Os161.addPageEntry ⟨m, p⟩ e) (Os161.addPageEntry ⟨m, c⟩ e) := by
  have hroomeq : p.room = c.room := h.room_eq
  have h0' : c.room = 0 := hroomeq ▸ h0
  rcases addPageEntry_mem_of_full m e h.chainL h0 with
    ⟨hn, hk⟩ | ⟨temp, m₁, p', hk, hp⟩
  · rcases addPageEntry_mem_of_full m e h.chainR h0' with
      ⟨hn', _⟩ | ⟨_, _, _, hk', _⟩
    · rw [hn, hn']
      exact .none
    · rw [hk] at hk'
      cases hk'
  · rcases addPageEntry_mem_of_full m e h.chainR h0' with
      ⟨_, hk'⟩ | ⟨_, _, c', hk', hc'⟩
    · rw [hk] at hk'
      cases hk'
    · rw [hk, Option.some.injEq, Prod.mk.injEq] at hk'
      obtain ⟨-, rfl⟩ := hk'
      have htakes := (Mem.kmalloc_some hk).1
      -- 新しい表が取れたので memory には空きがあった。だから `end` は揃っている
      have hends : p.end = c.end := by
        rcases h.ends with hends | hf
        · exact hends
        · have hfrees := htakes.frees
          have : m.cm.frees ≤ p.room + 0 := hf
          omega
      obtain ⟨_, hchp, hep, hlp, hbp⟩ := addPageEntry_full' h.chainL he h0 hp
      obtain ⟨_, hchc, hec, hlc, hbc⟩ := addPageEntry_full' h.chainR he h0' hc'
      have hnext : p.next.length = c.next.length := h.next
      have hviewp := view_link (m := m₁) h.chainL he h0 hp
      have hviewc := view_link (m := m₁) h.chainR he h0' hc'
      have hview : p.view m = c.view m := h.view
      have hsubp := (Adds.cons m hp (.nil p')).subset h.chainL (by simpa using he)
      have hsubc := (Adds.cons m hc' (.nil c')).subset h.chainR (by simpa using he)
      have hal₁ := htakes.keeps.allocated _ hal
      rw [hp, hc']
      refine .some ⟨rfl, hchp, hchc, ?_, ?_, ?_, ?_, ?_, Or.inl ?_⟩
      · rw [hlp, hlc, length_take, length_take, hends, hnext]
      · rw [hbp, hbc]
        exact h.book
      · show p'.view m₁ = c'.view m₁
        rw [hviewp, hviewc, h.ownsL.view_eq htakes.keeps, h.ownsR.view_eq htakes.keeps]
        simp only [hview, hends]
      · exact owns_append (h.ownsL.keeps htakes.keeps) hal₁ hsubp
      · exact owns_append (h.ownsR.keeps htakes.keeps) hal₁ hsubc
      · rw [hep, hec, hends]

theorem Sim.addPageEntry_room {p c : AddrSpace} (h : Sim 0 ⟨m, p⟩ ⟨m, c⟩) (he : e.pagePaddr ≠ 0)
    (hal : m.Allocated e.pagePaddr) (hpos : 0 < p.room) :
    Option.Rel (Sim 1) (Os161.addPageEntry ⟨m, p⟩ e) (Os161.addPageEntry ⟨m, c⟩ e) := by
  have hroomeq : p.room = c.room := h.room_eq
  obtain ⟨p', hp⟩ := addPageEntry_mem_of_room m h.chainL he hpos
  obtain ⟨c', hc'⟩ := addPageEntry_mem_of_room m h.chainR he (hroomeq ▸ hpos)
  obtain ⟨hentp, hchp, hep, hlp, hrp, hbp⟩ := addPageEntry_room' h.chainL he hpos hp
  obtain ⟨hentc, hchc, hec, hlc, hrc, hbc⟩ := addPageEntry_room' h.chainR he (hroomeq ▸ hpos) hc'
  rw [hp, hc']
  refine .some ⟨rfl, hchp, hchc, ?_, ?_, ?_, ?_, ?_, ?_⟩
  · rw [hlp, hlc]
    exact h.next
  · rw [hbp, hbc]
    exact h.book
  · unfold AddrSpace.view
    rw [hentp, hentc, map_append, map_append]
    exact congrArg (· ++ _) h.view
  · exact owns_append h.ownsL hal (by rw [hentp]; exact Subset.refl _)
  · exact owns_append h.ownsR hal (by rw [hentc]; exact Subset.refl _)
  · rcases h.ends with hends | hf
    · exact Or.inl (by rw [hep, hec]; exact hends)
    · right
      have : m.cm.frees ≤ p.room + 0 := hf
      show m.cm.frees ≤ p'.room + 1
      have hr : p'.room + 1 = p.room := hrp
      omega

theorem Sim.addPageEntry (h : Sim 0 a b) (he : e.pagePaddr ≠ 0) (hal : a.mem.Allocated e.pagePaddr) :
    Option.Rel (Sim 1) (Os161.addPageEntry a e) (Os161.addPageEntry b e) := by
  obtain ⟨m, p⟩ := a
  obtain ⟨m', c⟩ := b
  obtain rfl : m = m' := h.mem
  rcases Nat.eq_zero_or_pos p.room with h0 | hpos
  · exact h.addPageEntry_full he hal h0
  · exact h.addPageEntry_room he hal hpos

/-! ## vm_fault -/

theorem Sim.takes (h : Sim 1 a b) {paddr : Paddr} (halloc : a.mem.allocUpage = some (paddr, m))
    (x : Page) :
    Sim 0 ⟨m, a.as⟩ ⟨m, b.as⟩ ∧ Sim 0 ⟨m.writePage paddr x, a.as⟩ ⟨m.writePage paddr x, b.as⟩ := by
  have htakes := (Mem.allocUpage_some halloc).1
  have hfrees := htakes.frees
  refine ⟨h.keeps htakes.keeps fun hle => by omega, h.keeps (htakes.keeps_writePage x) ?_⟩
  intro hle
  show m.cm.frees ≤ _
  omega

theorem Sim.findEntry (h : Sim k a b) (page : Vaddr) :
    (findEntry page a.as.tables = none ∧ findEntry page b.as.tables = none) ∨
      ∃ e e', findEntry page a.as.tables = some e ∧ findEntry page b.as.tables = some e' ∧
        e.isWrite = e'.isWrite := by
  have hmap : ∀ (as : AddrSpace) (m : Mem), (Os161.findEntry page as.tables).map (PageEntry.view m) =
      (as.view m).find? fun v => v.vaddr == page := by
    intro as m
    rw [findEntry_eq_find?, AddrSpace.view, find?_map]
    rfl
  have heq : (Os161.findEntry page a.as.tables).map (PageEntry.view a.mem) =
      (Os161.findEntry page b.as.tables).map (PageEntry.view b.mem) := by
    rw [hmap, hmap, h.view]
  cases ha : Os161.findEntry page a.as.tables with
  | none =>
    rw [ha] at heq
    exact Or.inl ⟨rfl, Option.map_eq_none_iff.mp heq.symm⟩
  | some e =>
    rw [ha] at heq
    obtain ⟨e', hb, hview⟩ := Option.map_eq_some_iff.mp heq.symm
    exact Or.inr ⟨e, e', rfl, hb, (congrArg PageView.isWrite hview).symm⟩

theorem optionRel_cases {α β : Type*} {R : α → β → Prop} {x : Option α} {y : Option β}
    (h : Option.Rel R x y) : (x = none ∧ y = none) ∨ ∃ a b, x = some a ∧ y = some b ∧ R a b := by
  cases h with
  | none => exact .inl ⟨rfl, rfl⟩
  | some hab => exact .inr ⟨_, _, rfl, rfl, hab⟩

/-- 成功したか、どの errno で失敗したかが同じで、その後も同じに見える。 -/
def SameFault (x y : Except Errno Paddr × Cur) : Prop :=
  x.1.map (fun _ => ()) = y.1.map (fun _ => ()) ∧ Sim 1 x.2 y.2

theorem Sim.faultFrame (h : Sim 1 a b) (ft : FaultType) (page : Vaddr) :
    Option.Rel SameFault (Os161.faultFrame ft page a) (Os161.faultFrame ft page b) := by
  have hvs : a.as.vstart = b.as.vstart := congrArg Book.vstart h.book
  unfold Os161.faultFrame
  rw [hvs]
  by_cases hr : userstack ≤ page ∨ page < b.as.vstart
  · rw [if_pos hr, if_pos hr]
    exact .some ⟨rfl, h⟩
  · rw [if_neg hr, if_neg hr]
    rcases h.findEntry page with ⟨ha, hb⟩ | ⟨e, e', ha, hb, hw⟩
    · rw [ha, hb]
      cases ft with
      | write =>
        by_cases hst : stackBase ≤ page ∧ page < userstack
        · simp only [if_pos hst, ← h.mem]
          cases halloc : a.mem.allocUpage with
          | none => exact .some ⟨rfl, h⟩
          | some r =>
            obtain ⟨paddr, m⟩ := r
            have htakes := (Mem.allocUpage_some halloc).1
            -- 0 で埋めるのを先にしても `addPageEntry` の結果は変わらない
            have hrel := (h.takes halloc Page.zero).2.addPageEntry
              (e := ⟨page, paddr, true, true, false⟩) htakes.ne_zero
              ((htakes.allocated paddr).mpr (Or.inr rfl))
            rw [addPageEntry_writePage, addPageEntry_writePage] at hrel
            simp only
            rcases optionRel_cases hrel with ⟨hp, hc⟩ | ⟨c₁, c₂, hp, hc, hsim⟩
            · rw [Option.map_eq_none_iff.mp hp, Option.map_eq_none_iff.mp hc]
              exact .none
            · obtain ⟨d₁, hd₁, rfl⟩ := Option.map_eq_some_iff.mp hp
              obtain ⟨d₂, hd₂, rfl⟩ := Option.map_eq_some_iff.mp hc
              rw [hd₁, hd₂]
              exact .some ⟨rfl, hsim⟩
        · simp only [if_neg hst]
          exact .some ⟨rfl, h⟩
      | _ => exact .some ⟨rfl, h⟩
    · rw [ha, hb]
      cases ft with
      | write =>
        simp only [hw]
        cases e'.isWrite with
        | true => exact .some ⟨rfl, h⟩
        | false => exact .some ⟨rfl, h⟩
      | _ => exact .some ⟨rfl, h⟩

/-! ## sys_sbrk -/

theorem Sim.mapBook (h : Sim k a b) (f : Book → Book) :
    Sim k ⟨a.mem, a.as.withBook (f a.as.book)⟩ ⟨b.mem, b.as.withBook (f b.as.book)⟩ :=
  ⟨h.mem, h.chainL, h.chainR, h.next, congrArg f h.book, h.view, h.ownsL, h.ownsR, h.ends⟩

/-- 返り値が同じで、その後も同じに見える。 -/
def SameResult {α : Type} (x y : α × Cur) : Prop := x.1 = y.1 ∧ Sim 1 x.2 y.2

theorem Sim.pageAlloc (h : Sim 1 a b) (n : Nat) (v : Vaddr) :
    Option.Rel SameResult (Os161.pageAlloc n v a) (Os161.pageAlloc n v b) := by
  induction n generalizing v a b with
  | zero => exact .some ⟨rfl, h⟩
  | succ n ih =>
    rw [Os161.pageAlloc, Os161.pageAlloc, ← h.mem]
    cases halloc : a.mem.allocUpage with
    | none => exact .some ⟨rfl, h⟩
    | some r =>
      obtain ⟨paddr, m⟩ := r
      have htakes := (Mem.allocUpage_some halloc).1
      have hrel := (h.takes halloc Page.zero).1.addPageEntry (e := ⟨v, paddr, true, true, false⟩)
        htakes.ne_zero ((htakes.allocated paddr).mpr (Or.inr rfl))
      simp only
      rcases optionRel_cases hrel with ⟨hp, hc⟩ | ⟨c₁, c₂, hp, hc, hsim⟩
      · rw [hp, hc]
        exact .none
      · rw [hp, hc]
        exact ih (hsim.mapBook fun x => { x with heapNPages := x.heapNPages + 1 }) (v + pageSize)

theorem sameResult_ofAlloc {x y : Option (Bool × Cur)} (vaddr : Vaddr) :
    Option.Rel SameResult x y → Option.Rel (@SameResult (Except Errno Vaddr))
      (match x with
        | none => none
        | some (false, c) => some (.error .enomem, c)
        | some (true, c) => some (.ok vaddr, c))
      (match y with
        | none => none
        | some (false, c) => some (.error .enomem, c)
        | some (true, c) => some (.ok vaddr, c)) := by
  intro h
  cases h with
  | none => exact .none
  | @some x y hxy =>
    obtain ⟨r, c₁⟩ := x
    obtain ⟨r', c₂⟩ := y
    obtain ⟨hr, hsim⟩ := hxy
    obtain rfl : r = r' := hr
    cases r with
    | false => exact .some ⟨rfl, hsim⟩
    | true => exact .some ⟨rfl, hsim⟩

theorem Sim.sysSbrk (h : Sim 1 a b) (amount : Int32) :
    Option.Rel SameResult (Os161.sysSbrk amount a) (Os161.sysSbrk amount b) := by
  have hmove := h.mapBook fun x => { x with vbreaktop := x.vbreaktop + amount.toUInt32 }
  have hbook := h.book
  -- 表以外の field が揃っているので、検査はどれも同じ値になる
  obtain ⟨m, ⟨base, top, heap, vstart, st, nx, en, code, data⟩⟩ := a
  obtain ⟨m', ⟨base', top', heap', vstart', st', nx', en', code', data'⟩⟩ := b
  simp only [AddrSpace.book, Book.mk.injEq] at hbook
  obtain ⟨rfl, rfl, rfl, rfl, rfl, rfl⟩ := hbook
  simp only [Os161.sysSbrk]
  by_cases h1 : stackBase - 4096 ≤ top + amount.toUInt32
  · rw [if_pos h1, if_pos h1]
    exact .some ⟨rfl, hmove⟩
  · rw [if_neg h1, if_neg h1]
    by_cases h2 : top + amount.toUInt32 < base
    · rw [if_pos h2, if_pos h2]
      exact .some ⟨rfl, h⟩
    · rw [if_neg h2, if_neg h2]
      by_cases h3 : heap * pageSize ≤ top + amount.toUInt32 - base
      · rw [if_pos h3, if_pos h3]
        exact sameResult_ofAlloc top (hmove.pageAlloc _ _)
      · rw [if_neg h3, if_neg h3]
        exact .some ⟨rfl, hmove⟩

/-! ## 呼び出しの列 -/

theorem Sim.perform {a b : Cpu} (h : Sim 1 a.toCur b.toCur) (x : Call) :
    Option.Rel (fun r r' => r.1 = r'.1 ∧ Sim 1 r.2.toCur r'.2.toCur) (x.perform a) (x.perform b) := by
  cases x with
  | fault ft addr random =>
    have hrel := h.faultFrame ft (addr &&& pageFrame)
    simp only [Call.perform, vmFault]
    rcases optionRel_cases hrel with ⟨hp, hc⟩ | ⟨⟨r, c₁⟩, ⟨r', c₂⟩, hp, hc, hr, hsim⟩
    · rw [hp, hc]
      exact .none
    · rw [hp, hc]
      cases r with
      | error e =>
        cases r' with
        | error e' =>
          obtain rfl : e = e' := by simpa [Except.map] using hr
          exact .some ⟨rfl, hsim⟩
        | ok p => simp [Except.map] at hr
      | ok p =>
        cases r' with
        | error e => simp [Except.map] at hr
        | ok p' => exact .some ⟨rfl, hsim⟩
  | sbrk amount =>
    have hrel := h.sysSbrk amount
    simp only [Call.perform]
    rcases optionRel_cases hrel with ⟨hp, hc⟩ | ⟨_, _, hp, hc, hr, hsim⟩
    · rw [hp, hc]
      exact .none
    · rw [hp, hc]
      exact .some ⟨congrArg Reply.sbrk hr, hsim⟩

theorem Sim.observe_eq {a b : Cpu} (h : Sim 1 a.toCur b.toCur) (xs : List Call) :
    observe xs a = observe xs b := by
  induction xs generalizing a b with
  | nil => rfl
  | cons x xs ih =>
    have hrel := h.perform x
    rw [observe, observe]
    rcases optionRel_cases hrel with ⟨hp, hc⟩ | ⟨⟨reply, s⟩, ⟨reply', s'⟩, hp, hc, hr, hsim⟩
    · rw [hp, hc]
    · rw [hp, hc]
      obtain rfl : reply = reply' := hr
      simp only
      rw [hsim.book, hsim.view, ih hsim]

/-! ## as_copy の直後 -/

theorem ChainCopied.view_eq (h : ChainCopied m old.tables new.tables m') :
    new.view m' = old.view m := by
  refine Slots.map_eq_of_forall₂ (entries_of_copy h.copy) ?_
  intro o n ho hon
  unfold PageEntry.view
  rw [hon.page (pagePaddr_ne_zero_of_mem ho), hon.fields]

theorem sim_of_copy (hc : Chain old.tables) (hown : old.Owns m)
    (hcopied : ChainCopied m old.tables new.tables m') (hbook : new.book = old.book)
    (hends : old.end = new.end ∨ m'.cm.frees ≤ old.room + 1) : Sim 1 ⟨m', old⟩ ⟨m', new⟩ where
  mem := rfl
  chainL := hc
  chainR := chain_of_copy hcopied.copy hc
  next := by simpa [AddrSpace.tables] using hcopied.copy.length_eq
  book := hbook.symm
  view := by
    show old.view m' = new.view m'
    rw [hown.view_eq hcopied.keeps, hcopied.view_eq]
  ownsL := hown.keeps hcopied.keeps
  ownsR := fun _ he => (hcopied.fresh he).2
  ends := hends

theorem length_entries_of_full (ts : List PageTable) (hfull : ∀ t ∈ ts, t.Full) :
    (entries ts).length = ptableArraySize * ts.length := by
  induction ts with
  | nil => rfl
  | cons t ts ih =>
    have ht : t.entries.length = ptableArraySize := hfull t mem_cons_self
    rw [entries_cons, length_append, ht, ih fun u hu => hfull u (mem_cons_of_mem _ hu),
      length_cons, Nat.mul_add_one]
    omega

theorem pageAlloc_overflow {n : Nat} {v : Vaddr} {c : Cur} (hc : Chain c.as.tables)
    (hroom : c.as.room = n) (hf : n + 2 ≤ c.mem.cm.frees) :
    ∃ c', pageAlloc (n + 1) v c = some (true, c') ∧
      c'.as.entries.length = ptableArraySize * (1 + min c.as.end c.as.next.length) + 1 := by
  induction n generalizing v c with
  | zero =>
    rw [pageAlloc]
    cases halloc : c.mem.allocUpage with
    | none =>
      have := Mem.allocUpage_eq_none_iff.mp halloc
      omega
    | some r =>
      obtain ⟨paddr, mem⟩ := r
      have htakes := (Mem.allocUpage_some halloc).1
      have hfrees := htakes.frees
      obtain ⟨c₁, hadd⟩ := Option.ne_none_iff_exists'.mp
        (addPageEntry_ne_none (c := ⟨mem, c.as⟩) (e := ⟨v, paddr, true, true, false⟩)
          (show mem.cm.frees ≠ 0 by omega))
      obtain ⟨hent, _⟩ := addPageEntry_full' hc htakes.ne_zero hroom hadd
      have hfull := full_of_no_room c.as.tables (by
        have := c.as.room_add
        unfold AddrSpace.entries at this
        omega)
      have hlen := length_entries_of_full (c.as.tables.take (c.as.end + 1))
        fun t ht => hfull t (mem_of_mem_take ht)
      refine ⟨_, by simp only [hadd]; rfl, ?_⟩
      show c₁.as.entries.length = _
      rw [hent, length_append]
      show (entries (c.as.tables.take (c.as.end + 1))).length + 1 = _
      rw [hlen, length_take, AddrSpace.tables, length_cons, Nat.add_min_add_right, Nat.add_comm 1]
  | succ n ih =>
    rw [pageAlloc]
    cases halloc : c.mem.allocUpage with
    | none =>
      have := Mem.allocUpage_eq_none_iff.mp halloc
      omega
    | some r =>
      obtain ⟨paddr, mem⟩ := r
      have htakes := (Mem.allocUpage_some halloc).1
      have hfrees := htakes.frees
      obtain ⟨as₁, hadd⟩ := addPageEntry_mem_of_room mem
        (e := ⟨v, paddr, true, true, false⟩) hc htakes.ne_zero (by omega)
      obtain ⟨_, hch, hend, hlen, hr, _⟩ := addPageEntry_room' hc htakes.ne_zero (by omega) hadd
      have hr' : as₁.room + 1 = c.as.room := hr
      obtain ⟨c', hc', hcount⟩ := ih (v := v + pageSize)
        (c := ⟨mem, { as₁ with heapNPages := as₁.heapNPages + 1 }⟩) hch
        (show as₁.room = n by omega) (show n + 2 ≤ mem.cm.frees by omega)
      refine ⟨c', by simp only [hadd]; exact hc', ?_⟩
      have hend' : as₁.end = c.as.end := hend
      have hlen' : as₁.next.length = c.as.next.length := hlen
      rw [hcount]
      show ptableArraySize * (1 + min as₁.end as₁.next.length) + 1 = _
      rw [hend', hlen']

theorem sysSbrk_of_zero {n : Nat} {amount : Int32} {c' : Cur} (hbook : as.book = ⟨0, 0, 0, 0, 0, 0⟩)
    (ha : amount.toUInt32.toNat = n * 4096) (hn : n ≤ 1000)
    (halloc : pageAlloc n 0 ⟨m, as.moveBreak amount⟩ = some (true, c')) :
    sysSbrk amount ⟨m, as⟩ = some (.ok 0, c') := by
  obtain ⟨base, top, heap, vstart, st, nx, en, code, data⟩ := as
  simp only [AddrSpace.book, Book.mk.injEq] at hbook
  obtain ⟨rfl, rfl, rfl, rfl, rfl, rfl⟩ := hbook
  have hl : (stackBase - 4096).toNat = 0x7feff000 := by decide
  have h0 : ((0 : UInt32) + amount.toUInt32).toNat = n * 4096 := by
    rw [UInt32.zero_add, ha]
  have h1 : ¬ stackBase - 4096 ≤ 0 + amount.toUInt32 := by
    rw [UInt32.le_iff_toNat_le, hl, h0]
    omega
  have h2 : ¬ 0 + amount.toUInt32 < 0 := by
    rw [UInt32.lt_iff_toNat_lt, h0]
    simp
  have h3 : (0 : UInt32) * pageSize ≤ 0 + amount.toUInt32 - 0 := by
    rw [UInt32.le_iff_toNat_le]
    simp
  have hnp : (sbrkNPages ⟨0, 0 + amount.toUInt32, 0, 0, st, nx, en, 0, 0⟩).toNat = n := by
    rw [toNat_sbrkNPages (d := n * 4096) (by omega)]
    · omega
    · show ((0 : UInt32) + amount.toUInt32 - (0 + 0 * pageSize)).toNat = _
      simpa using ha
  simp only [sysSbrk, if_neg h1, if_neg h2, if_pos h3, hnp]
  rw [show sbrkStart 0 = 0 by decide, halloc]

theorem observe_ne_of_overflow (tlb : Tlb) (hc : Chain old.tables) (hc' : Chain new.tables)
    (hroom : new.room = old.room) (hend : old.end ≤ old.next.length) (hend0 : old.end ≠ 0)
    (hnew : new.end = 0) (hbook : old.book = ⟨0, 0, 0, 0, 0, 0⟩)
    (hbook' : new.book = ⟨0, 0, 0, 0, 0, 0⟩) (hf : old.room + 2 ≤ m.cm.frees) :
    ∃ xs, observe xs ⟨⟨m, new⟩, tlb⟩ ≠ observe xs ⟨⟨m, old⟩, tlb⟩ := by
  have hle : old.room ≤ ptableArraySize := by
    have h1 := old.room_add
    have h2 : ptableArraySize * old.tables.length ≤ old.entries.length + ptableArraySize :=
      hc.length_le
    omega
  simp only [ptableArraySize] at hle
  let amount : Int32 := (UInt32.ofNat ((old.room + 1) * 4096)).toInt32
  have ha : amount.toUInt32.toNat = (old.room + 1) * 4096 := by
    simp only [amount, UInt32.toUInt32_toInt32, UInt32.toNat_ofNat']
    omega
  obtain ⟨c₁, halloc₁, hlen₁⟩ := pageAlloc_overflow (v := 0) (c := ⟨m, old.moveBreak amount⟩)
    hc (show old.room = old.room from rfl) hf
  obtain ⟨c₂, halloc₂, hlen₂⟩ := pageAlloc_overflow (v := 0) (c := ⟨m, new.moveBreak amount⟩)
    hc' (show new.room = old.room from hroom) hf
  have hs₁ := sysSbrk_of_zero hbook ha (by omega) halloc₁
  have hs₂ := sysSbrk_of_zero hbook' ha (by omega) halloc₂
  refine ⟨[.sbrk amount], ?_⟩
  intro heq
  simp only [observe, Call.perform, hs₁, hs₂, Option.map_some, cons.injEq, Option.some.injEq,
    Seen.mk.injEq, and_true, true_and] at heq
  have hlen := congrArg length heq.2
  simp only [AddrSpace.view, length_map] at hlen
  have h1 : c₁.as.entries.length = ptableArraySize * (1 + min old.end old.next.length) + 1 := hlen₁
  have h2 : c₂.as.entries.length = ptableArraySize * (1 + min new.end new.next.length) + 1 := hlen₂
  simp only [ptableArraySize] at h1 h2
  rw [hnew] at h2
  omega

/-- `new` は `old` の正確な写しである。 -/
structure ExactCopy (m : Mem) (old : AddrSpace) (m' : Mem) (new : AddrSpace) : Prop where
  book : new.book = old.book
  view : new.view m' = old.view m
  fresh : ∀ e ∈ new.entries, ¬ m.Allocated e.pagePaddr
  apart : (new.entries.map PageEntry.pagePaddr).Nodup
  behaves : ∀ xs tlb tlb', observe xs ⟨⟨m', new⟩, tlb'⟩ = observe xs ⟨⟨m', old⟩, tlb⟩

/-- **frame が足りていれば `as_copy` は成功し、page はいつも正しく写る。** -/
theorem asCopy_exact_iff {m : Mem} {old : AddrSpace} (hc : Chain old.tables)
    (hend : old.end ≤ old.next.length) (hown : old.Owns m) (hfrees : copyCost old ≤ m.cm.frees) :
    ∃ new m', asCopy m old = some (.ok new, m') ∧ new.view m' = old.view m ∧
      (∀ e ∈ new.entries, ¬ m.Allocated e.pagePaddr) ∧
      (new.entries.map PageEntry.pagePaddr).Nodup ∧
      (ExactCopy m old m' new ↔ old.book = ⟨0, 0, 0, 0, 0, 0⟩ ∧
        (old.end = 0 ∨ m.cm.frees ≤ copyCost old + old.room + 1)) := by
  obtain ⟨new, m', hcopy⟩ := asCopy_of_frees hc hown hfrees
  obtain ⟨hcopied, hend', hbook', hcost⟩ := asCopy_ok hc hown hcopy
  have hfresh : ∀ e ∈ new.entries, ¬ m.Allocated e.pagePaddr := fun e he => (hcopied.fresh he).1
  refine ⟨new, m', hcopy, hcopied.view_eq, hfresh, hcopied.frames, ?_, ?_⟩
  · intro hex
    have hbook : old.book = ⟨0, 0, 0, 0, 0, 0⟩ := hex.book.symm.trans hbook'
    refine ⟨hbook, ?_⟩
    by_contra hcond
    push Not at hcond
    obtain ⟨hend0, hlt⟩ := hcond
    obtain ⟨xs, hne⟩ := observe_ne_of_overflow (m := m') Tlb.flushed hc
      (chain_of_copy hcopied.copy hc) hcopied.room_eq hend hend0 hend' hbook hbook' (by omega)
    exact hne (hex.behaves xs _ _)
  · rintro ⟨hbook, hcond⟩
    have hsim := sim_of_copy hc hown hcopied (hbook'.trans hbook.symm)
      (hcond.imp (fun h => h.trans hend'.symm) fun h => by omega)
    refine ⟨hbook'.trans hbook.symm, hcopied.view_eq, hfresh, hcopied.frames, ?_⟩
    intro xs tlb tlb'
    exact (Sim.observe_eq (a := ⟨_, tlb⟩) (b := ⟨_, tlb'⟩) hsim xs).symm

/-- page を一枚だけ持ち、ほかの欄が 0 の address space。 -/
def AddrSpace.onePage : AddrSpace :=
  { AddrSpace.blank with start := PageTable.blank.fresh ⟨0x400000, 0x40000, true, true, false⟩ }

theorem owns_onePage : AddrSpace.onePage.Owns parentMem := by
  intro e he
  have hpaddr : ∀ x ∈ AddrSpace.onePage.entries, x.pagePaddr = 0x40000 := by decide +kernel
  exact ⟨0, ⟨by decide, by decide⟩, (hpaddr e he).trans (by decide)⟩

/-- page を一枚持つ address space の写しは正確である。 -/
theorem asCopy_exact_iff_onePage :
    ∃ m old new m', old.entries.length = 1 ∧ asCopy m old = some (.ok new, m') ∧
      ExactCopy m old m' new := by
  have hchain : Chain AddrSpace.onePage.tables :=
    chain_singleton.mpr (PageTable.blank.entries_fresh (by decide)).2
  obtain ⟨new, m', hcopy, _, _, _, hiff⟩ := asCopy_exact_iff hchain (by decide) owns_onePage
    (by decide +kernel)
  exact ⟨_, _, new, m', by decide +kernel, hcopy, hiff.mpr ⟨rfl, Or.inl rfl⟩⟩

/-- code の領域に一枚の page を持つ親を写すと、子の `vstart` と break は 0 になる。 -/
theorem asCopy_forgets_break :
    ∃ m as old new m', asDefineRegion as 0x400000 4096 = .ok old ∧ old.entries.length = 1 ∧ old.Owns m ∧
      copyCost old ≤ m.cm.frees ∧ asCopy m old = some (.ok new, m') ∧
      old.vstart = 0x400000 ∧ new.vstart = 0 ∧
      (∃ c, sysSbrk 0 ⟨m', old⟩ = some (.ok 0x401000, c)) ∧
      ∃ c, sysSbrk 0 ⟨m', new⟩ = some (.ok 0, c) := by
  let old : AddrSpace := { AddrSpace.onePage with
    vstart := 0x400000, codeNPages := 1, vbreakbase := 0x401000, vbreaktop := 0x401000 }
  obtain ⟨⟨r, m'⟩, hcopy, h⟩ := (Option.any_eq_true _ _).mp (by decide +kernel :
    ((asCopy parentMem old).any fun x => x.1.toOption.any fun new => decide (new.vstart = 0) &&
      (sysSbrk 0 ⟨x.2, old⟩).any (fun y => y.1 = .ok 0x401000) &&
      (sysSbrk 0 ⟨x.2, new⟩).any fun y => y.1 = .ok 0) = true)
  cases r with
  | error err => cases h
  | ok new =>
    simp only [Except.toOption, Option.any_some, Bool.and_eq_true, decide_eq_true_eq,
      Option.any_eq_true] at h
    obtain ⟨⟨hvstart, ⟨r, c⟩, hc, rfl⟩, ⟨r', c'⟩, hc', rfl⟩ := h
    exact ⟨_, AddrSpace.onePage, old, new, m', rfl, by decide +kernel,
      owns_onePage, by decide +kernel, hcopy, rfl,
      hvstart, ⟨c, hc⟩, c', hc'⟩

end Os161
