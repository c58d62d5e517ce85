import MsProjects.Os161.Properties.Release
import MsProjects.Os161.Properties.Room
import MsProjects.Os161.Properties.Tlb

/-! # user 番地への書き込みと frame -/

namespace Os161

open List Function PageEntry

variable {p : Vaddr} {e : PageEntry} {done : Bool} {new : List Vaddr} {ws : List (Vaddr × UInt8)}

/-! ## user から見た memory -/

def AddrSpace.pages (as : AddrSpace) : List Vaddr := as.entries.map pageVaddr

def Cur.userByte (c : Cur) (a : Vaddr) : UInt8 :=
  match findEntry (a &&& pageFrame) c.as.tables with
  | some e => c.mem.page e.pagePaddr (pageOffset a)
  | none => 0

def writeAll (ws : List (Vaddr × UInt8)) (f : Vaddr → UInt8) : Vaddr → UInt8 :=
  ws.foldl (fun f w => update f w.1 w.2) f

theorem mem_pages_iff {as : AddrSpace} : p ∈ as.pages ↔ ∃ e, findEntry p as.tables = some e := by
  constructor
  · intro h
    obtain ⟨e, he, rfl⟩ := mem_map.mp h
    cases hf : findEntry e.pageVaddr as.tables with
    | none => exact absurd rfl (findEntry_eq_none_iff.mp hf e he)
    | some e' => exact ⟨e', rfl⟩
  · rintro ⟨e, he⟩
    obtain ⟨hmem, rfl⟩ := findEntry_some he
    exact mem_map_of_mem hmem

theorem not_mem_pages_iff {as : AddrSpace} : p ∉ as.pages ↔ findEntry p as.tables = none := by
  rw [mem_pages_iff]
  cases findEntry p as.tables <;> simp

theorem eq_of_page_offset {a b : Vaddr} (hpage : a &&& pageFrame = b &&& pageFrame)
    (hoff : pageOffset a = pageOffset b) : a = b := by
  have h1 := congrArg UInt32.toNat hpage
  have h2 : a.toNat % 4096 = b.toNat % 4096 := congrArg Fin.val hoff
  rw [toNat_and_pageFrame, toNat_and_pageFrame] at h1
  exact UInt32.toNat.inj (by omega)

theorem userByte_writeByte {c : Cur} {a : Vaddr} (b : UInt8)
    (hframes : (c.as.entries.map pagePaddr).Nodup)
    (he : findEntry (a &&& pageFrame) c.as.tables = some e) :
    ({ c with mem := c.mem.writeByte e.pagePaddr (pageOffset a) b } : Cur).userByte =
      update c.userByte a b := by
  obtain ⟨hmem, hpage⟩ := findEntry_some he
  funext x
  by_cases hxa : x = a
  · subst hxa
    rw [update_self, Cur.userByte]
    simp only [he]
    rw [page_writeByte, if_pos rfl, update_self]
  · rw [update_of_ne hxa, Cur.userByte, Cur.userByte]
    simp only
    cases hx : findEntry (x &&& pageFrame) c.as.tables with
    | none => rfl
    | some e' =>
      obtain ⟨hmem', hpage'⟩ := findEntry_some hx
      simp only
      rw [page_writeByte]
      split
      · next heq =>
        -- 同じ frame の entry は一つなので、page も同じである
        obtain rfl := inj_on_of_nodup_map hframes hmem' hmem heq
        refine update_of_ne (fun hoff => hxa ?_) _ _
        exact eq_of_page_offset (hpage'.symm.trans hpage) hoff
      · rfl

theorem userByte_grow {c c' : Cur} (howns : c.as.Owns c.mem)
    (hent : c'.as.entries = c.as.entries ++ [e]) (hfresh : ¬ c.mem.Allocated e.pagePaddr)
    (hpage : c'.mem.page = update c.mem.page e.pagePaddr Page.zero) : c'.userByte = c.userByte := by
  funext x
  rw [Cur.userByte, Cur.userByte]
  cases hx : findEntry (x &&& pageFrame) c.as.tables with
  | some y =>
    rw [findEntry_append hent hx]
    simp only
    rw [hpage, update_of_ne]
    exact fun heq => hfresh (heq ▸ howns y (findEntry_some hx).1)
  | none =>
    cases hx' : findEntry (x &&& pageFrame) c'.as.tables with
    | none => rfl
    | some y =>
      obtain ⟨hmem, hy⟩ := findEntry_some hx'
      have hmem' : y ∈ c.as.entries ++ [e] := hent ▸ hmem
      rcases mem_append.mp hmem' with hold | hnew
      · exact absurd hy (findEntry_eq_none_iff.mp hx y hold)
      · rw [mem_singleton.mp hnew]
        simp only
        rw [hpage, update_self]
        rfl

/-! ## 書き込みの間に保たれること -/

theorem countsFit_of_chain {ts : List PageTable} (h : Chain ts) : CountsFit ts := by
  intro t ht
  have hle := t.entries_length_le
  rw [(h.ok t ht).count]
  simp only [ptableArraySize] at hle
  omega

/-- `lo` より上の page はどれも書ける。 -/
structure StoreOk (lo : Vaddr) (s : Cpu) : Prop where
  chain : Chain s.as.tables
  endLast : s.as.EndLast
  owns : s.as.Owns s.mem
  frames : (s.as.entries.map pagePaddr).Nodup
  writable : ∀ e ∈ s.as.entries, lo ≤ e.pageVaddr → e.isWrite = true
  agrees : TlbAgrees s.tlb s.as
  dirty : ∀ i, (s.tlb i).valid = true → (s.tlb i).dirty = true
  range : ∀ i, (s.tlb i).valid = true → s.as.vstart ≤ (s.tlb i).vpage ∧ (s.tlb i).vpage < userstack

/-- `s` から `new` の page を足し、`ws` を書いて `s'` になる。 -/
structure Extended (lo : Vaddr) (s : Cpu) (new : List Vaddr) (ws : List (Vaddr × UInt8)) (s' : Cpu) :
    Prop where
  ok : StoreOk lo s'
  pages : s'.as.pages = s.as.pages ++ new
  bytes : s'.userByte = writeAll ws s.userByte
  inside : ∀ w ∈ ws, w.1 &&& pageFrame ∈ s'.as.pages
  book : s'.as.book = s.as.book
  budget : ∀ n, framesFor (room s.as.tables) (new.length + n) + s'.mem.cm.frees =
    framesFor (room s'.as.tables) n + s.mem.cm.frees
  took : ∀ m : Mem, m.Took s.as.released s.mem → m.Took s'.as.released s'.mem

section

variable {lo : Vaddr} {s s₁ s₂ : Cpu} {addr : Vaddr}

theorem Extended.refl (h : StoreOk lo s) : Extended lo s [] [] s :=
  ⟨h, by simp, rfl, by simp, rfl, fun n => by simp, fun _ h => h⟩

theorem Extended.trans {new₁ new₂ : List Vaddr} {ws₁ ws₂ : List (Vaddr × UInt8)}
    (h₁ : Extended lo s new₁ ws₁ s₁) (h₂ : Extended lo s₁ new₂ ws₂ s₂) :
    Extended lo s (new₁ ++ new₂) (ws₁ ++ ws₂) s₂ where
  ok := h₂.ok
  pages := by rw [h₂.pages, h₁.pages, append_assoc]
  bytes := by
    rw [h₂.bytes, h₁.bytes, writeAll, writeAll, writeAll, foldl_append]
  inside := by
    intro w hw
    rcases mem_append.mp hw with hw | hw
    · rw [h₂.pages]
      exact mem_append_left _ (h₁.inside w hw)
    · exact h₂.inside w hw
  book := h₂.book.trans h₁.book
  budget := by
    intro n
    have e₁ := h₁.budget (new₂.length + n)
    have e₂ := h₂.budget n
    rw [length_append, Nat.add_assoc]
    omega
  took := fun m hm => h₂.took m (h₁.took m hm)

theorem StoreOk.install (h : StoreOk lo s) (ha : PageAligned p) (hlo : s.as.vstart ≤ p)
    (hhi : p < userstack) (he : findEntry p s.as.tables = some e) (random : Fin numTlb) :
    Extended lo s [] [] { s with tlb := s.tlb.install p e.pagePaddr random } := by
  have hal := (h.owns e (findEntry_some he).1).aligned
  refine ⟨⟨h.chain, h.endLast, h.owns, h.frames, h.writable, h.agrees.install he ha hal random, ?_, ?_⟩,
    by simp, rfl, by simp, rfl, fun n => by simp, fun _ hm => hm⟩
  · intro i hi
    rcases s.tlb.install_cases p e.pagePaddr random i with hnew | hold
    · simp only [hnew]
      exact TlbEntry.dirty_installed
    · simp only [hold] at hi ⊢
      exact h.dirty i hi
  · intro i hi
    rcases s.tlb.install_cases p e.pagePaddr random i with hnew | hold
    · simp only [hnew, TlbEntry.vpage_installed ha]
      exact ⟨hlo, hhi⟩
    · simp only [hold] at hi ⊢
      exact h.range i hi

theorem lookup_install (tlb : Tlb) (paddr : Paddr) (random : Fin numTlb) (ha : PageAligned p) :
    ∃ i, (tlb.install p paddr random).lookup p = some i := by
  obtain ⟨i, hi⟩ := tlb.exists_installed p paddr random
  refine Option.isSome_iff_exists.mp (find?_isSome.mpr ⟨i, mem_finRange i, ?_⟩)
  rw [hi, TlbEntry.valid_installed, TlbEntry.vpage_installed ha]
  simp

theorem StoreOk.access_of_lookup (h : StoreOk lo s) (b : UInt8) (random : Fin numTlb) {i : Fin numTlb}
    (hi : s.tlb.lookup (addr &&& pageFrame) = some i) :
    ∃ s', s.access (.store addr b random) = some (.ok (), s') ∧ Extended lo s [] [(addr, b)] s' := by
  obtain ⟨hvalid, hpage⟩ := Tlb.lookup_some hi
  obtain ⟨e, he, hpaddr⟩ := h.agrees i hvalid
  rw [hpage] at he
  refine ⟨{ s with mem := s.mem.writeByte (s.tlb i).ppage (pageOffset addr) b }, ?_,
    ⟨h.chain, h.endLast, h.owns, h.frames, h.writable, h.agrees, h.dirty, h.range⟩, ?_, ?_, ?_, rfl,
    fun n => by simp [Mem.writeByte, Mem.writePage], ?_⟩
  · rw [Cpu.access, hi]
    simp only
    rw [if_pos (h.dirty i hvalid)]
  · simp
  · rw [← hpaddr]
    exact userByte_writeByte b h.frames he
  · intro w hw
    rw [mem_singleton.mp hw]
    exact mem_pages_iff.mpr ⟨e, he⟩
  · intro m hm
    refine hm.writePage ?_ _
    rw [AddrSpace.released_eq, ← hpaddr]
    exact mem_append_left _ (mem_map_of_mem (findEntry_some he).1)

theorem StoreOk.take (h : StoreOk lo s) {paddr : Paddr} {c₁ : Cur}
    (ht : TakesPage s.toCur ⟨p, paddr, true, true, false⟩ c₁) :
    Extended lo s [p] [] ⟨{ c₁ with mem := c₁.mem.asZeroRegion paddr }, s.tlb⟩ := by
  obtain ⟨mem, halloc, hadd⟩ := ht.taken
  have htakes := (Mem.allocUpage_some halloc).1
  obtain ⟨hent, hch, hend, hbook, hpage⟩ :=
    addPageEntry_append (c := { s.toCur with mem := mem }) h.chain h.endLast htakes.ne_zero hadd
  have hent' : c₁.as.entries = s.as.entries ++ [⟨p, paddr, true, true, false⟩] := hent
  have hkeeps : s.mem.Keeps (c₁.mem.asZeroRegion paddr) := keeps_takePage htakes hadd
  have hnew : (c₁.mem.asZeroRegion paddr).Allocated paddr :=
    (addPageEntry_mem hadd).1.allocated _ ((htakes.allocated paddr).mpr (.inr rfl))
  have hvstart : c₁.as.vstart = s.as.vstart := congrArg Book.vstart hbook
  refine ⟨⟨hch, hend, ?_, ?_, ?_, ?_, h.dirty, ?_⟩, ?_, ?_, by simp, hbook, ?_, ?_⟩
  · exact owns_append (h.owns.keeps hkeeps) hnew (by rw [hent']; exact Subset.refl _)
  · show (c₁.as.entries.map pagePaddr).Nodup
    rw [hent', map_append, nodup_append]
    refine ⟨h.frames, nodup_singleton _, ?_⟩
    rintro x hx y hy rfl
    obtain ⟨e, he, hex⟩ := mem_map.mp hx
    exact htakes.fresh ((hex.trans (mem_singleton.mp hy)) ▸ h.owns e he)
  · intro e he hlo
    have he' : e ∈ s.as.entries ++ [⟨p, paddr, true, true, false⟩] := hent' ▸ he
    rcases mem_append.mp he' with he' | he'
    · exact h.writable e he' hlo
    · rw [mem_singleton.mp he']
  · exact h.agrees.mono fun v e he => findEntry_append hent' he
  · intro i hi
    show c₁.as.vstart ≤ _ ∧ _
    rw [hvstart]
    exact h.range i hi
  · show c₁.as.entries.map pageVaddr = _
    rw [hent', map_append]
    rfl
  · refine userByte_grow h.owns hent' htakes.fresh ?_
    show update c₁.mem.page paddr Page.zero = _
    rw [show c₁.mem.page = mem.page from hpage, htakes.page]
  · intro n
    rw [length_singleton, Nat.add_comm 1 n]
    exact ht.budget n
  · intro m hm
    exact hm.takePage (e := ⟨p, paddr, true, true, false⟩) h.chain h.endLast halloc hadd

theorem StoreOk.findEntry_take (h : StoreOk lo s) {c₁ : Cur}
    (hnone : findEntry e.pageVaddr s.as.tables = none) (ht : TakesPage s.toCur e c₁) :
    findEntry e.pageVaddr c₁.as.tables = some e := by
  obtain ⟨mem, halloc, hadd⟩ := ht.taken
  have hent : entries c₁.as.tables = entries s.as.tables ++ [e] :=
    (addPageEntry_append (c := { s.toCur with mem := mem }) h.chain h.endLast
      (Mem.allocUpage_some halloc).1.ne_zero hadd).1
  rw [findEntry_eq_find?] at hnone ⊢
  rw [hent, find?_append, hnone]
  simp

/-! ## 一 byte -/

/-- 書き込みが断られる page。 -/
def Refused (vstart : Vaddr) (mapped : List Vaddr) (p : Vaddr) : Prop :=
  (userstack ≤ p ∨ p < vstart) ∨ p ∉ mapped ∧ p < stackBase

instance (vstart : Vaddr) (mapped : List Vaddr) (p : Vaddr) : Decidable (Refused vstart mapped p) :=
  inferInstanceAs (Decidable (_ ∨ _))

inductive StoreEnd (lo : Vaddr) (s : Cpu) (addr : Vaddr) (b : UInt8) :
    Option (Except Errno Unit × Cpu) → Prop where
  | refused : Refused s.as.vstart s.as.pages (addr &&& pageFrame) →
    StoreEnd lo s addr b (some (.error .efault, s))
  | hit {s' : Cpu} : ¬ Refused s.as.vstart s.as.pages (addr &&& pageFrame) →
    addr &&& pageFrame ∈ s.as.pages →
      Extended lo s [] [(addr, b)] s' → StoreEnd lo s addr b (some (.ok (), s'))
  | grown {s' : Cpu} : ¬ Refused s.as.vstart s.as.pages (addr &&& pageFrame) →
    addr &&& pageFrame ∉ s.as.pages →
      Extended lo s [addr &&& pageFrame] [(addr, b)] s' → StoreEnd lo s addr b (some (.ok (), s'))
  /-- frame が無い。 -/
  | short : ¬ Refused s.as.vstart s.as.pages (addr &&& pageFrame) →
    addr &&& pageFrame ∉ s.as.pages → s.mem.cm.frees = 0 →
      StoreEnd lo s addr b (some (.error .efault, s))
  /-- frame はあったが、繋ぐ表が無い。 -/
  | crash : ¬ Refused s.as.vstart s.as.pages (addr &&& pageFrame) →
    addr &&& pageFrame ∉ s.as.pages → s.mem.cm.frees = 1 →
      room s.as.tables = 0 → StoreEnd lo s addr b none

theorem vmFault_page (ft : FaultType) (addr : Vaddr) (random : Fin numTlb) (s : Cpu) :
    vmFault ft addr random s = vmFault ft (addr &&& pageFrame) random s := by
  unfold vmFault
  rw [and_pageFrame_of_aligned (pageAligned_and_pageFrame addr)]

theorem vmFault_refused (random : Fin numTlb) (ha : PageAligned p)
    (h : Refused s.as.vstart s.as.pages p) :
    vmFault .write p random s = some (.error .efault, s) := by
  unfold vmFault
  rw [and_pageFrame_of_aligned ha]
  by_cases hout : userstack ≤ p ∨ p < s.as.vstart
  · simp only [faultFrame, if_pos hout]
  · obtain ⟨hpages, hlt⟩ := h.resolve_left hout
    have hnot : ¬ (stackBase ≤ p ∧ p < userstack) := fun hst => UInt32.not_le.mpr hlt hst.1
    simp only [faultFrame, if_neg hout, not_mem_pages_iff.mp hpages, if_neg hnot]

theorem storeByte_of_miss {b : UInt8} {random : Fin numTlb} (h : s.tlb.lookup (addr &&& pageFrame) = none) :
    s.storeByte addr b random =
      match vmFault .write (addr &&& pageFrame) random s with
      | none => none
      | some (.error _, s) => some (.error .efault, s)
      | some (.ok (), s) => s.access (.store addr b random) := by
  have hacc : s.access (.store addr b random) = vmFault .write (addr &&& pageFrame) random s := by
    rw [Cpu.access, h]
    exact vmFault_page _ _ _ _
  rw [Cpu.storeByte, h, hacc]
  rcases vmFault .write (addr &&& pageFrame) random s with _ | ⟨_ | _, _⟩ <;> rfl

/-- 枠を入れた後の書き込みは成功する。 -/
theorem Extended.access_install {s₁ : Cpu} {new : List Vaddr} {e : PageEntry} (hext : Extended lo s new [] s₁)
    (hvs : s.as.vstart ≤ addr &&& pageFrame) (hus : addr &&& pageFrame < userstack) (b : UInt8)
    (random : Fin numTlb) (he : findEntry (addr &&& pageFrame) s₁.as.tables = some e) :
    ∃ s', Cpu.access { s₁ with tlb := s₁.tlb.install (addr &&& pageFrame) e.pagePaddr random }
      (.store addr b random) = some (.ok (), s') ∧ Extended lo s new [(addr, b)] s' := by
  have ha := pageAligned_and_pageFrame addr
  have hvs₁ : s₁.as.vstart ≤ addr &&& pageFrame := by
    rw [show s₁.as.vstart = s.as.vstart from congrArg Book.vstart hext.book]
    exact hvs
  have hins := hext.ok.install ha hvs₁ hus he random
  obtain ⟨i, hi⟩ := lookup_install s₁.tlb e.pagePaddr random ha
  obtain ⟨s', hacc, hext'⟩ := hins.ok.access_of_lookup b random hi
  exact ⟨s', hacc, by simpa using (hext.trans hins).trans hext'⟩

theorem StoreOk.storeByte_end (h : StoreOk lo s) (hlo : lo ≤ addr &&& pageFrame) (b : UInt8)
    (random : Fin numTlb) : StoreEnd lo s addr b (s.storeByte addr b random) := by
  have ha := pageAligned_and_pageFrame addr
  cases hi : s.tlb.lookup (addr &&& pageFrame) with
  | some i =>
    obtain ⟨hvalid, hpage⟩ := Tlb.lookup_some hi
    obtain ⟨e, he, -⟩ := h.agrees i hvalid
    obtain ⟨hvs, hus⟩ := h.range i hvalid
    rw [hpage] at he hvs hus
    have hmem := mem_pages_iff.mpr ⟨e, he⟩
    obtain ⟨s', hacc, hext⟩ := h.access_of_lookup b random hi
    rw [Cpu.storeByte, hi, hacc]
    refine .hit ?_ hmem hext
    rintro (hout | ⟨hnot, -⟩)
    · exact inRange hvs hus hout
    · exact hnot hmem
  | none =>
    rw [storeByte_of_miss hi]
    by_cases hout : userstack ≤ addr &&& pageFrame ∨ addr &&& pageFrame < s.as.vstart
    · rw [vmFault_refused random ha (.inl hout)]
      exact .refused (.inl hout)
    have hvs : s.as.vstart ≤ addr &&& pageFrame := UInt32.not_lt.mp fun h => hout (.inr h)
    have hus : addr &&& pageFrame < userstack := UInt32.not_le.mp fun h => hout (.inl h)
    cases he : findEntry (addr &&& pageFrame) s.as.tables with
    | some e =>
      obtain ⟨hmem, hpage⟩ := findEntry_some he
      have hw := h.writable e hmem (hpage ▸ hlo)
      obtain ⟨s', hacc, hext⟩ := (Extended.refl h).access_install hvs hus b random he
      rw [vmFault_hit random ha hvs hus he hw (.inr rfl)]
      have hpages := mem_pages_iff.mpr ⟨e, he⟩
      simp only
      rw [hacc]
      refine .hit ?_ hpages hext
      rintro (hout' | ⟨hnot, -⟩)
      · exact hout hout'
      · exact hnot hpages
    | none =>
      have hpages := not_mem_pages_iff.mpr he
      by_cases hst : addr &&& pageFrame < stackBase
      · rw [vmFault_refused random ha (.inr ⟨hpages, hst⟩)]
        exact .refused (.inr ⟨hpages, hst⟩)
      have hnot : ¬ Refused s.as.vstart s.as.pages (addr &&& pageFrame) := by
        rintro (hout' | ⟨-, hlt⟩)
        · exact hout hout'
        · exact hst hlt
      rw [vmFault_write_stack random ha hvs (UInt32.not_lt.mp hst) hus he]
      rcases takePage_cases (c := s.toCur) (addr &&& pageFrame) true true false
        (countsFit_of_chain h.chain) with
        ⟨hzero, halloc⟩ | ⟨hone, hroom, paddr, mem, halloc, hadd⟩ | ⟨paddr, c₁, htakes⟩
      · rw [halloc]
        exact .short hnot hpages hzero
      · have hadd' : addPageEntry ⟨mem, s.as⟩ ⟨addr &&& pageFrame, paddr, true, true, false⟩ = none := hadd
        rw [halloc]
        simp only [hadd', Option.map_none]
        exact .crash hnot hpages hone hroom
      · have hext := h.take htakes
        have he₁ := h.findEntry_take (e := ⟨addr &&& pageFrame, paddr, true, true, false⟩) he htakes
        obtain ⟨mem, halloc, hadd⟩ := htakes.taken
        have hadd' : addPageEntry ⟨mem, s.as⟩ ⟨addr &&& pageFrame, paddr, true, true, false⟩ =
          some c₁ := hadd
        obtain ⟨s', hacc, hext'⟩ := hext.access_install hvs hus b random he₁
        rw [halloc]
        simp only [hadd', Option.map_some]
        rw [hacc]
        exact .grown hnot hpages hext'

/-! ## byte の列 -/

/-- 番地の列に順に書き込むときに足される page。 -/
def touch (vstart : Vaddr) : List Vaddr → List Vaddr → List Vaddr × Bool
  | _, [] => ([], true)
  | mapped, a :: as =>
    if Refused vstart mapped (a &&& pageFrame) then ([], false)
    else if a &&& pageFrame ∈ mapped then touch vstart mapped as
    else
      let r := touch vstart (mapped ++ [a &&& pageFrame]) as
      ((a &&& pageFrame) :: r.1, r.2)

/-- `addr` から順に並ぶ書き込み。 -/
def writesFrom : List UInt8 → Vaddr → List (Vaddr × UInt8)
  | [], _ => []
  | b :: src, addr => (addr, b) :: writesFrom src (addr + 1)

inductive WriteEnd (lo : Vaddr) (s : Cpu) (new : List Vaddr) (done : Bool) (ws : List (Vaddr × UInt8)) :
    Option (Except Errno Unit × Cpu) → Prop where
  | done {s' : Cpu} : done = true → Extended lo s new ws s' → WriteEnd lo s new done ws (some (.ok (), s'))
  | refused {s' : Cpu} {ws₁ : List (Vaddr × UInt8)} {err : Errno} : done = false → ws₁ <+: ws →
      Extended lo s new ws₁ s' → WriteEnd lo s new done ws (some (.error err, s'))
  /-- `i` 枚を足したところで frame が尽きる。 -/
  | short {s' : Cpu} {ws₁ ws₂ : List (Vaddr × UInt8)} {w : Vaddr × UInt8} {i : Nat} {err : Errno} :
      i < new.length → ws = ws₁ ++ w :: ws₂ → Extended lo s (new.take i) ws₁ s' →
      w.1 &&& pageFrame ∉ s'.as.pages → s'.mem.cm.frees = 0 →
      WriteEnd lo s new done ws (some (.error err, s'))
  /-- `i` 枚を足した後の一枚に、表の分が足りない。 -/
  | crash {i : Nat} : i < new.length → s.mem.cm.frees = framesFor (room s.as.tables) i + 1 →
      framesFor (room s.as.tables) (i + 1) = framesFor (room s.as.tables) i + 2 →
      WriteEnd lo s new done ws none

theorem WriteEnd.prepend {new₁ new₂ : List Vaddr} {ws₁ ws₂ : List (Vaddr × UInt8)}
    {r : Option (Except Errno Unit × Cpu)} (h₁ : Extended lo s new₁ ws₁ s₁)
    (h₂ : WriteEnd lo s₁ new₂ done ws₂ r) : WriteEnd lo s (new₁ ++ new₂) done (ws₁ ++ ws₂) r := by
  cases h₂ with
  | done hd hext => exact .done hd (h₁.trans hext)
  | refused hd hpre hext => exact .refused hd ((prefix_append_right_inj ws₁).mpr hpre) (h₁.trans hext)
  | @short _ ws₃ ws₄ w i _ hi hws hext hpage hzero =>
    have hsplit : ws₁ ++ ws₂ = (ws₁ ++ ws₃) ++ w :: ws₄ := by rw [hws, append_assoc]
    refine .short (i := new₁.length + i) ?_ hsplit ?_ hpage hzero
    · rw [length_append]
      omega
    · rw [take_length_add_append]
      exact h₁.trans hext
  | @crash i hi hfrees hroom =>
    have e₁ := h₁.budget i
    have e₂ := h₁.budget (i + 1)
    refine .crash (i := new₁.length + i) ?_ ?_ ?_
    · rw [length_append]
      omega
    · omega
    · rw [Nat.add_assoc]
      omega

theorem WriteEnd.eq_none_iff {r : Option (Except Errno Unit × Cpu)}
    (h : WriteEnd lo s new done ws r) :
    r = none ↔ ∃ i < new.length, framesFor (room s.as.tables) i < s.mem.cm.frees ∧
      s.mem.cm.frees < framesFor (room s.as.tables) (i + 1) := by
  -- 足し終えた枚数の分は足りている
  have hdone : ∀ {new' : List Vaddr} {ws' : List (Vaddr × UInt8)} {s' : Cpu}, Extended lo s new' ws' s' →
      framesFor (room s.as.tables) new'.length + s'.mem.cm.frees = s.mem.cm.frees := by
    intro new' ws' s' hext
    simpa using hext.budget 0
  cases h with
  | crash hi hfrees hroom => exact iff_of_true rfl ⟨_, hi, by omega, by omega⟩
  | done _ hext | refused _ _ hext =>
    refine iff_of_false (by simp) ?_
    rintro ⟨j, hj, -, hlt⟩
    have hle := framesFor_le (r := room s.as.tables) (i := j + 1) hj
    have hsum := hdone hext
    omega
  | @short _ _ _ _ i _ hi _ hext _ hzero =>
    refine iff_of_false (by simp) ?_
    rintro ⟨j, -, hgt, hlt⟩
    have hsum := hdone hext
    rw [length_take_of_le hi.le] at hsum
    rcases Nat.lt_or_ge j i with hji | hij
    · have := framesFor_le (r := room s.as.tables) (i := j + 1) hji
      omega
    · have := framesFor_le (r := room s.as.tables) hij
      omega

theorem WriteEnd.took {s' : Cpu} {x : Except Errno Unit}
    (h : WriteEnd lo s new done ws (some (x, s'))) {m : Mem} (hm : m.Took s.as.released s.mem) :
    m.Took s'.as.released s'.mem := by
  cases h with
  | done _ hext | refused _ _ hext | short _ _ hext => exact hext.took m hm

theorem WriteEnd.reject {s' : Cpu} (err : Errno) (h : WriteEnd lo s new done ws (some (.ok (), s'))) :
    WriteEnd lo s new false ws (some (.error err, s')) := by
  cases h with
  | done _ hext => exact .refused rfl (prefix_refl _) hext

theorem StoreOk.copyBytes_end (h : StoreOk lo s) {src : List UInt8} (random : Nat → Fin numTlb) (k : Nat)
    (hlo : ∀ w ∈ writesFrom src addr, lo ≤ w.1 &&& pageFrame) :
    WriteEnd lo s (touch s.as.vstart s.as.pages ((writesFrom src addr).map Prod.fst)).1
      (touch s.as.vstart s.as.pages ((writesFrom src addr).map Prod.fst)).2 (writesFrom src addr)
      (Cpu.copyBytes random src addr k s) := by
  induction src generalizing s addr k with
  | nil => exact .done rfl (.refl h)
  | cons b src ih =>
    have hlo' : ∀ w ∈ writesFrom src (addr + 1), lo ≤ w.1 &&& pageFrame :=
      fun w hw => hlo w (mem_cons_of_mem _ hw)
    -- 一 byte の後は、足した page を覚えて続ける
    have hnext : ∀ {s₁ : Cpu} {new : List Vaddr}, Extended lo s new [(addr, b)] s₁ →
        WriteEnd lo s (new ++ (touch s.as.vstart (s.as.pages ++ new)
            ((writesFrom src (addr + 1)).map Prod.fst)).1)
          (touch s.as.vstart (s.as.pages ++ new) ((writesFrom src (addr + 1)).map Prod.fst)).2
          ((addr, b) :: writesFrom src (addr + 1)) (Cpu.copyBytes random src (addr + 1) (k + 1) s₁) := by
      intro s₁ new hext
      have htail := ih (s := s₁) hext.ok (k + 1) hlo'
      rw [hext.pages, show s₁.as.vstart = s.as.vstart from congrArg Book.vstart hext.book] at htail
      exact .prepend hext htail
    have hstore := h.storeByte_end (hlo _ mem_cons_self) b (random k)
    rw [Cpu.copyBytes, writesFrom, map_cons, touch]
    generalize s.storeByte addr b (random k) = r at hstore
    cases hstore with
    | refused href =>
      rw [if_pos href]
      exact .refused rfl nil_prefix (.refl h)
    | hit hnot hmem hext =>
      rw [if_neg hnot, if_pos hmem]
      simpa using hnext hext
    | grown hnot hmem hext =>
      rw [if_neg hnot, if_neg hmem]
      exact hnext hext
    | short hnot hmem hzero =>
      rw [if_neg hnot, if_neg hmem]
      have hsplit : (addr, b) :: writesFrom src (addr + 1) =
        [] ++ (addr, b) :: writesFrom src (addr + 1) := rfl
      exact .short (i := 0) (by simp) hsplit (.refl h) hmem hzero
    | crash hnot hmem hone hroom =>
      rw [if_neg hnot, if_neg hmem]
      refine .crash (i := 0) (by simp) (by simp [hone]) ?_
      rw [hroom]
      rfl

def copyoutPlan (vstart : Vaddr) (mapped : List Vaddr) (src : List UInt8) (userdest : Vaddr) :
    List Vaddr × Bool :=
  if copycheck userdest (UInt32.ofNat src.length) then
    touch vstart mapped ((writesFrom src userdest).map Prod.fst)
  else ([], false)

/-- **`copyout` の終わり方。** -/
theorem StoreOk.copyout_end (h : StoreOk lo s) {src : List UInt8} (random : Nat → Fin numTlb)
    (hlo : ∀ w ∈ writesFrom src addr, lo ≤ w.1 &&& pageFrame) :
    WriteEnd lo s (copyoutPlan s.as.vstart s.as.pages src addr).1
      (copyoutPlan s.as.vstart s.as.pages src addr).2 (writesFrom src addr)
      (s.copyout random src addr) := by
  rw [Cpu.copyout, copyoutPlan]
  split
  · exact h.copyBytes_end random 0 hlo
  · exact .refused rfl nil_prefix (.refl h)

end

end Os161
