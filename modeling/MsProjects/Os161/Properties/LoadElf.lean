import MsProjects.Os161.Syscall.LoadElf
import MsProjects.Os161.Properties.Load
import MsProjects.Os161.Properties.Tlb

/-! # load_elf の後の address space -/

namespace Os161

open List Function ElfPhdr Book

open UInt32 (le_iff_toNat_le lt_iff_toNat_lt ofNat toNat toNat_lt toNat_mul)

variable {addr b entry p : Vaddr} {random : Nat → Nat → Fin numTlb} {s s' : Cpu}
  {r : Except Errno Unit} {a i : Nat} {v : Vnode} {ph : ElfPhdr} {eh : ElfEhdr} {as as' : AddrSpace}
  {m : Mem} {segs : List ElfPhdr}

/-! ## 読み込みの書き込みで変わるもの -/

/-- 表に起こるのは、置かれていなかった page が末尾に足されることだけである。 -/
structure OnlyGrows (c c' : Cur) : Prop where
  book : c'.as.book = c.as.book
  backed : Backed c'.mem c'.as
  grown : ∃ new, c'.as.entries = c.as.entries ++ new ∧
    ∀ e ∈ new, ∀ x ∈ c.as.entries, x.pageVaddr ≠ e.pageVaddr

theorem OnlyGrows.refl {c : Cur} (h : Backed c.mem c.as) : OnlyGrows c c :=
  ⟨rfl, h, [], by simp, by simp⟩

theorem OnlyGrows.trans {c₁ c₂ c₃ : Cur} (h : OnlyGrows c₁ c₂) (h' : OnlyGrows c₂ c₃) :
    OnlyGrows c₁ c₃ := by
  obtain ⟨new, hent, hnew⟩ := h.grown
  obtain ⟨new', hent', hnew'⟩ := h'.grown
  refine ⟨h'.book.trans h.book, h'.backed, new ++ new', ?_, ?_⟩
  · rw [hent', hent, append_assoc]
  · intro e he x hx
    rcases mem_append.mp he with he | he
    · exact hnew e he x hx
    · exact hnew' e he x (by rw [hent]; exact mem_append_left _ hx)

section

variable (hb : Backed s.mem s.as)

include hb

theorem OnlyGrows.vmFault {ft : FaultType} {random : Fin numTlb}
    (h : vmFault ft addr random s = some (r, s')) : OnlyGrows s.toCur s'.toCur := by
  rcases vmFault_cases h with ⟨_, _, rfl⟩ | ⟨e, _, _, rfl, _⟩ | ⟨paddr, c', _, _, hg, rfl⟩
  · exact .refl hb
  · exact .refl hb
  · obtain ⟨hb', hent, _, _, hbook⟩ := hb.grows hg
    refine ⟨hbook, hb', _, hent, ?_⟩
    intro e he x hx
    rw [mem_singleton.mp he]
    exact findEntry_eq_none_iff.mp hg.unmapped x hx

theorem OnlyGrows.access {a : Access} (h : s.access a = some (r, s')) :
    OnlyGrows s.toCur s'.toCur := by
  cases a with
  | load addr random =>
    rw [Cpu.access] at h
    split at h
    · cases h
      exact .refl hb
    · exact .vmFault hb h
  | store addr b random =>
    rw [Cpu.access] at h
    split at h
    · split at h
      · cases h
        exact ⟨rfl, ⟨hb.chain, hb.endLast, hb.owns⟩, [], by simp, by simp⟩
      · exact .vmFault hb h
    · exact .vmFault hb h
  | evict i =>
    cases h
    exact .refl hb

theorem OnlyGrows.storeByte {b : UInt8} {random : Fin numTlb}
    (h : s.storeByte addr b random = some (r, s')) : OnlyGrows s.toCur s'.toCur := by
  unfold Cpu.storeByte at h
  split at h
  · cases h
  · next hacc =>
    cases h
    exact .access hb hacc
  · next hacc =>
    cases h
    exact .access hb hacc
  · next hacc =>
    have h₁ := OnlyGrows.access hb hacc
    exact h₁.trans (.access h₁.backed h)

theorem OnlyGrows.copyBytes {random : Nat → Fin numTlb} {src : List UInt8} {k : Nat}
    (h : Cpu.copyBytes random src addr k s = some (r, s')) : OnlyGrows s.toCur s'.toCur := by
  induction src generalizing addr k s with
  | nil =>
    cases h
    exact .refl hb
  | cons b src ih =>
    rw [Cpu.copyBytes] at h
    split at h
    · next s₁ hstore =>
      have h₁ := OnlyGrows.storeByte hb hstore
      exact h₁.trans (ih h₁.backed h)
    · exact .storeByte hb h

theorem OnlyGrows.loadSegment {random : Nat → Fin numTlb}
    (h : loadSegment v random ph s = some (r, s')) : OnlyGrows s.toCur s'.toCur := by
  have hcopy : ∀ {bytes r s'}, s.copyout random bytes ph.pVaddr = some (r, s') →
      OnlyGrows s.toCur s'.toCur := by
    intro bytes r s' hc
    unfold Cpu.copyout at hc
    split at hc
    · exact .copyBytes hb hc
    · cases hc
      exact .refl hb
  unfold Os161.loadSegment at h
  simp only at h
  split at h
  · cases h
    exact .refl hb
  · cases h
    exact .refl hb
  · split at h
    · next hc =>
      cases h
      exact hcopy hc
    · exact hcopy h

theorem OnlyGrows.loadSegments {n : Nat} (h : loadSegments v eh random n i s = some (r, s')) :
    OnlyGrows s.toCur s'.toCur := by
  induction n generalizing i s with
  | zero =>
    cases h
    exact .refl hb
  | succ n ih =>
    rw [Os161.loadSegments] at h
    split at h
    · cases h
      exact .refl hb
    · exact ih hb h
    · split at h
      · next s₁ hseg =>
        have h₁ := OnlyGrows.loadSegment hb hseg
        exact h₁.trans (ih h₁.backed h)
      · exact .loadSegment hb h

end

/-! ## file が持つ segment -/

/-- `PT_LOAD` の header を順に並べたもの。 -/
def loadHeaders (v : Vnode) (eh : ElfEhdr) : Nat → Nat → List ElfPhdr
  | 0, _ => []
  | n + 1, i =>
    match loadPhdr v eh i with
    | .ok (some ph) => ph :: loadHeaders v eh n (i + 1)
    | _ => loadHeaders v eh n (i + 1)

def Vnode.segments (v : Vnode) : List ElfPhdr :=
  match v.readAll 0 ehdrSize with
  | .error _ => []
  | .ok bytes =>
    let eh := ElfEhdr.ofBytes bytes
    loadHeaders v eh eh.ePhnum.toNat 0

def defineAll (as : AddrSpace) (segs : List ElfPhdr) : Except Errno AddrSpace :=
  segs.foldlM (fun as ph => asDefineRegion as ph.pVaddr ph.pMemsz) as

theorem defineRegions_ok {n : Nat} (h : defineRegions v eh n i as = (.ok (), as')) :
    defineAll as (loadHeaders v eh n i) = .ok as' := by
  induction n generalizing i as with
  | zero =>
    simp only [defineRegions, Prod.mk.injEq, true_and] at h
    subst h
    rfl
  | succ n ih =>
    rw [defineRegions] at h
    rw [loadHeaders]
    split at h
    · simp at h
    · next hph =>
      rw [hph]
      exact ih h
    · next ph hph =>
      rw [hph]
      split at h
      · simp at h
      · next as₁ hdef =>
        have htail := ih h
        unfold defineAll at htail ⊢
        rw [foldlM_cons, hdef]
        exact htail

theorem loadElf_ok (h : loadElf v random s = some (.ok entry, s')) :
    ∃ (as : AddrSpace) (c : Cur) (s₁ : Cpu), defineAll s.as v.segments = .ok as ∧
      asPrepareLoad ⟨s.mem, as⟩ = some (.ok (), c) ∧
      (Backed c.mem c.as → OnlyGrows c s₁.toCur) ∧ s' = { s₁ with as := asCompleteLoad s₁.as } := by
  unfold loadElf at h
  split at h
  · simp at h
  · next bytes hbytes =>
    simp only at h
    split at h
    · simp at h
    · split at h
      · simp at h
      · next as hdef =>
        split at h
        · cases h
        · simp at h
        · next c hprep =>
          split at h
          · cases h
          · simp at h
          · next s₁ hload =>
            simp only [Option.some.injEq, Prod.mk.injEq] at h
            refine ⟨as, c, s₁, ?_, hprep, fun hb => .loadSegments hb hload, h.2.symm⟩
            unfold Vnode.segments
            rw [hbytes]
            exact defineRegions_ok hdef

/-! ## 領域の計算 -/

namespace ElfPhdr

def Covers (ph : ElfPhdr) (a : Nat) : Prop :=
  ph.pVaddr.toNat ≤ a ∧ a < ph.pVaddr.toNat + ph.pMemsz.toNat

/-- segment の byte が page `p` にある。 -/
def Touches (ph : ElfPhdr) (p : Vaddr) : Prop := ∃ a, ph.Covers a ∧ p.toNat = a / 4096 * 4096

/-- segment の先頭を page に切り捨てた番地。 -/
def lo (ph : ElfPhdr) : Nat := ph.pVaddr.toNat / 4096 * 4096

/-- segment の終わりを page に切り上げた番地。 -/
def hi (ph : ElfPhdr) : Nat := (ph.pVaddr.toNat + ph.pMemsz.toNat + 4095) / 4096 * 4096

/-- `as_define_region` が計算する先頭。 -/
def base (ph : ElfPhdr) : Vaddr := ph.pVaddr &&& pageFrame

/-- `as_define_region` が計算する枚数。 -/
def npages (ph : ElfPhdr) : UInt32 :=
  (ph.pMemsz + (ph.pVaddr &&& ~~~pageFrame) + pageSize - 1 &&& pageFrame) / pageSize

variable {ph : ElfPhdr}

theorem toNat_base : ph.base.toNat = ph.lo := toNat_and_pageFrame ph.pVaddr

theorem toNat_and_not_pageFrame (x : UInt32) : (x &&& ~~~pageFrame).toNat = x.toNat % 4096 := by
  rw [UInt32.toNat_and, show (~~~pageFrame).toNat = 2 ^ 12 - 1 by decide,
    Nat.and_two_pow_sub_one_eq_mod]

theorem toNat_npages
    (h : ph.pMemsz.toNat + ph.pVaddr.toNat % 4096 + 4095 < 2 ^ 32) :
    ph.npages.toNat * 4096 = ph.hi - ph.lo := by
  have hsub : ∀ x : UInt32, x + pageSize - 1 = x + 4095 := by
    intro x
    rw [UInt32.sub_eq_add_neg, UInt32.add_assoc]
    rfl
  unfold npages
  rw [hsub, UInt32.toNat_div, toNat_and_pageFrame, toNat_pageSize, UInt32.toNat_add,
    UInt32.toNat_add, toNat_and_not_pageFrame, show (4095 : UInt32).toNat = 4095 from rfl]
  unfold hi lo
  omega

theorem fits_of_hi (h : ph.hi < 2 ^ 32) :
    ph.pMemsz.toNat + ph.pVaddr.toNat % 4096 + 4095 < 2 ^ 32 := by
  unfold hi at h
  omega

theorem fits_of_empty (h : ph.pMemsz = 0) :
    ph.pMemsz.toNat + ph.pVaddr.toNat % 4096 + 4095 < 2 ^ 32 := by
  rw [h, UInt32.toNat_zero]
  omega

theorem not_covers_of_empty (h : ph.pMemsz = 0) : ¬ ph.Covers a := by
  rintro ⟨h1, h2⟩
  rw [h, UInt32.toNat_zero] at h2
  omega

theorem Covers.lt_hi (h : ph.Covers a) : a < ph.hi := by
  obtain ⟨_, h2⟩ := h
  unfold hi
  omega

theorem Covers.exists_page (ha : ph.Covers a) (hhi : ph.hi < 2 ^ 32) :
    ∃ p : Vaddr, p.toNat = a / 4096 * 4096 := by
  have hlt := ha.lt_hi
  refine ⟨ofNat (a / 4096 * 4096), ?_⟩
  rw [UInt32.toNat_ofNat', Nat.mod_eq_of_lt (by omega)]

theorem memsz_pos (h : ph.pMemsz ≠ 0) : 0 < ph.pMemsz.toNat :=
  Nat.pos_of_ne_zero fun h0 => h (toNat.inj h0)

theorem touches_base (h : ph.pMemsz ≠ 0) : ph.Touches ph.base := by
  have := memsz_pos h
  exact ⟨ph.pVaddr.toNat, ⟨le_rfl, by omega⟩, toNat_base⟩

theorem Touches.range (h : ph.Touches p) : ph.lo ≤ p.toNat ∧ p.toNat + 4096 ≤ ph.hi := by
  obtain ⟨a, ⟨h1, h2⟩, hp⟩ := h
  unfold lo hi
  omega

theorem Touches.aligned (h : ph.Touches p) : PageAligned p := by
  obtain ⟨a, _, hp⟩ := h
  unfold PageAligned
  omega

theorem hi_le {b : Nat} (h : ph.pMemsz ≠ 0) (hb : b % 4096 = 0) (hcov : ∀ a, ph.Covers a → a < b) :
    ph.hi ≤ b := by
  have hpos := memsz_pos h
  have hlast := hcov (ph.pVaddr.toNat + ph.pMemsz.toNat - 1) ⟨by omega, by omega⟩
  unfold hi
  omega

theorem lo_le_hi : ph.lo ≤ ph.hi := by
  unfold lo hi
  omega

theorem lo_lt_hi (h : ph.pMemsz ≠ 0) : ph.lo + 4096 ≤ ph.hi := (touches_base h).range.2.trans' (by
  rw [toNat_base])

theorem hi_le_of_empty (h : ph.pMemsz = 0) : ph.hi ≤ ph.lo + 4096 := by
  unfold hi lo
  rw [h, UInt32.toNat_zero]
  omega

theorem hi_mod : ph.hi % 4096 = 0 := by
  unfold hi
  omega

theorem exists_last (h : ph.pMemsz ≠ 0) (hhi : ph.hi < 2 ^ 32) :
    ∃ p, ph.Touches p ∧ p.toNat + 4096 = ph.hi := by
  have hpos := memsz_pos h
  have hlast : ph.Covers (ph.pVaddr.toNat + ph.pMemsz.toNat - 1) := ⟨by omega, by omega⟩
  obtain ⟨p, hp⟩ := hlast.exists_page hhi
  refine ⟨p, ⟨_, hlast, hp⟩, ?_⟩
  rw [hp]
  unfold hi
  omega

theorem lo_mod : ph.lo % 4096 = 0 := by
  unfold lo
  omega

theorem aligned_base : PageAligned ph.base := by
  unfold PageAligned
  rw [toNat_base]
  exact lo_mod

end ElfPhdr

/-! ## 読み込みの後の表 -/

/-- 二つの領域に置かれる page。 -/
def AddrSpace.regionPages (as : AddrSpace) : List Vaddr :=
  pagesFrom as.vstart as.codeNPages.toNat ++ pagesFrom as.dataStart as.dataNPages.toNat

/-- 読み込みが成功した後の表。 -/
structure Placed (as : AddrSpace) (region grown : List PageEntry) : Prop where
  entries_eq : as.entries = region ++ grown
  pages : region.map PageEntry.pageVaddr = as.regionPages
  apart : ∀ e ∈ grown, ∀ x ∈ region, x.pageVaddr ≠ e.pageVaddr
  writable : ∀ e ∈ region, as.codeTop ≤ e.pageVaddr → e.isWrite = true
  readOnly : ∀ e ∈ as.entries, e.pageVaddr < as.codeTop → e.isWrite = false

namespace Placed

variable {as : AddrSpace} {region grown : List PageEntry}

section

variable (h : Placed as region grown) (hp : p ∈ as.regionPages)

include h hp

theorem mem_region {e : PageEntry} (he : e ∈ as.entries) (hv : e.pageVaddr = p) : e ∈ region := by
  rw [h.entries_eq] at he
  rcases mem_append.mp he with he | he
  · exact he
  · rw [← h.pages] at hp
    obtain ⟨x, hx, hxp⟩ := mem_map.mp hp
    exact absurd (hxp.trans hv.symm) (h.apart e he x hx)

theorem mappings_eq : mappings as p = as.regionPages.count p := by
  have hgrown : p ∉ grown.map PageEntry.pageVaddr := by
    intro hg
    obtain ⟨e, he, hv⟩ := mem_map.mp hg
    rw [← h.pages] at hp
    obtain ⟨x, hx, hxp⟩ := mem_map.mp hp
    exact h.apart e he x hx (hxp.trans hv.symm)
  unfold mappings
  rw [h.entries_eq, map_append, count_append, h.pages,
    count_eq_zero_of_not_mem hgrown, Nat.add_zero]

theorem exists_entry : ∃ e ∈ as.entries, e.pageVaddr = p := by
  rw [← h.pages] at hp
  obtain ⟨x, hx, hxp⟩ := mem_map.mp hp
  exact ⟨x, by rw [h.entries_eq]; exact mem_append_left _ hx, hxp⟩

end

end Placed

theorem exists_placed {c c' : Cur} (hent : as.entries = []) (hch : Chain as.tables)
    (hend : as.EndLast) (hprep : asPrepareLoad ⟨m, as⟩ = some (.ok (), c))
    (hg : Backed c.mem c.as → OnlyGrows c c') :
    (∃ region grown, Placed (asCompleteLoad c'.as) region grown) ∧
      (asCompleteLoad c'.as).book = as.book := by
  obtain ⟨⟨code, data, c₁, hcode, hdata⟩, hbook⟩ := asPrepareLoad_ok (c := ⟨m, as⟩) hch hend hprep
  have hent₁ : c.as.entries = code ++ data := by
    rw [hdata.entries_eq, hcode.entries_eq, show (⟨m, as⟩ : Cur).as.entries = [] from hent,
      nil_append]
  have howns : c.as.Owns c.mem := by
    intro e he
    rw [hent₁] at he
    rcases mem_append.mp he with he | he
    · exact hdata.keeps.allocated _ (hcode.owned e he)
    · exact hdata.owned e he
  have hgrow := hg ⟨hdata.chain, hdata.endLast, howns⟩
  obtain ⟨new, hent₂, hnew⟩ := hgrow.grown
  have hbook' : c'.as.book = as.book := hgrow.book.trans hbook
  have hvs : c'.as.vstart = as.vstart := congrArg vstart hbook'
  have hcn : c'.as.codeNPages = as.codeNPages := congrArg codeNPages hbook'
  have hdn : c'.as.dataNPages = as.dataNPages := congrArg dataNPages hbook'
  have hvb : c'.as.vbreakbase = as.vbreakbase := congrArg vbreakbase hbook'
  let f := completeEntry c'.as.codeTop c'.as.vbreakbase
  have hf : ∀ e, (f e).pageVaddr = e.pageVaddr := fun e => (completeEntry_vaddr_paddr _ _ e).1
  refine ⟨⟨(code ++ data).map f, new.map f, ?_, ?_, ?_, ?_, ?_⟩, hbook'⟩
  · rw [entries_asCompleteLoad, hent₂, hent₁, map_append]
  · rw [map_map, show PageEntry.pageVaddr ∘ f = PageEntry.pageVaddr from funext hf,
      map_append, hcode.pages, hdata.pages]
    show _ = pagesFrom c'.as.vstart c'.as.codeNPages.toNat ++
      pagesFrom c'.as.dataStart c'.as.dataNPages.toNat
    unfold AddrSpace.dataStart
    rw [hvs, hcn, hdn, hvb]
  · intro e he x hx
    obtain ⟨e', he', rfl⟩ := mem_map.mp he
    obtain ⟨x', hx', rfl⟩ := mem_map.mp hx
    rw [hf, hf]
    exact hnew e' he' x' (hent₁ ▸ hx')
  · intro e he hge
    obtain ⟨x, hx, rfl⟩ := mem_map.mp he
    have hge' : c'.as.codeTop ≤ x.pageVaddr := hf x ▸ hge
    have hw : x.isWrite = true := by
      rcases mem_append.mp hx with hx | hx
      · exact hcode.writable x hx
      · exact hdata.writable x hx
    show (completeEntry _ _ x).isWrite = true
    unfold completeEntry
    rw [if_neg (UInt32.not_lt.mpr hge')]
    split
    · rfl
    · exact hw
  · intro e he hlt
    rw [entries_asCompleteLoad] at he
    obtain ⟨x, hx, rfl⟩ := mem_map.mp he
    have hlt' : x.pageVaddr < c'.as.codeTop := (completeEntry_vaddr_paddr _ _ x).1 ▸ hlt
    unfold completeEntry
    rw [if_pos hlt']

/-! ## segment の page の条件 -/

/-- 読み込みの後の address space に求めること。 -/
structure WellPlaced (segs : List ElfPhdr) (as : AddrSpace) : Prop where
  /-- segment の page は一度だけ置かれている。 -/
  once : ∀ ph ∈ segs, ∀ a, ph.Covers a → ∃ p : Vaddr, p.toNat = a / 4096 * 4096 ∧ mappings as p = 1
  /-- `vm_fault` の下限に断られない。 -/
  reachable : ∀ ph ∈ segs, ∀ p, ph.Touches p → as.vstart ≤ p
  /-- code だけの page は書き込めない。 -/
  codeReadOnly : ∀ code, segs[0]? = some code → ∀ p, code.Touches p →
    (∀ data, segs[1]? = some data → ¬ data.Touches p) →
    ∀ e ∈ as.entries, e.pageVaddr = p → e.isWrite = false
  /-- data の page は書き込める。 -/
  dataWritable : ∀ data, segs[1]? = some data → ∀ p, data.Touches p →
    ∀ e ∈ as.entries, e.pageVaddr = p → e.isWrite = true
  /-- heap の始まりは segment の終わりより下にない。 -/
  breakAbove : ∀ ph ∈ segs, ∀ a, ph.Covers a → a < as.vbreakbase.toNat

/-- segment の番地と大きさの条件。 -/
def SegsOk : List ElfPhdr → Prop
  | [] => True
  | [code] => code.pMemsz = 0 ∨ code.hi < 2 ^ 32
  | code :: data :: _ =>
    (code.pMemsz = 0 ∧ data.pMemsz = 0) ∨ (code.lo < code.hi ∧ code.hi ≤ data.lo ∧ data.hi < 2 ^ 32)

theorem wellPlaced_of_empty (as : AddrSpace) (h : ∀ ph ∈ segs, ph.pMemsz = 0) :
    WellPlaced segs as := by
  have hcov : ∀ ph ∈ segs, ∀ a, ¬ ph.Covers a := fun ph hph a =>
    not_covers_of_empty (h ph hph)
  refine ⟨?_, ?_, ?_, ?_, ?_⟩
  · intro ph hph a ha
    exact absurd ha (hcov ph hph a)
  · rintro ph hph p ⟨a, ha, _⟩
    exact absurd ha (hcov ph hph a)
  · rintro code hc p ⟨a, ha, _⟩
    exact absurd ha (hcov code (mem_of_getElem? hc) a)
  · rintro data hd p ⟨a, ha, _⟩
    exact absurd ha (hcov data (mem_of_getElem? hd) a)
  · intro ph hph a ha
    exact absurd ha (hcov ph hph a)

section

variable (hb : b = ph.npages * pageSize + ph.base)

include hb

theorem toNat_break : b.toNat = (ph.npages.toNat * 4096 % 2 ^ 32 + ph.lo) % 2 ^ 32 := by
  rw [hb, UInt32.toNat_add, toNat_mul, toNat_pageSize, toNat_base]

theorem break_mod : b.toNat % 4096 = 0 := by
  have hlo := ph.lo_mod
  rw [toNat_break hb]
  omega

theorem break_eq_hi (hhi : ph.hi < 2 ^ 32) : b.toNat = ph.hi := by
  have hn := toNat_npages (fits_of_hi hhi)
  have hle := ph.lo_le_hi
  rw [toNat_break hb, hn]
  omega

end

theorem toNat_codeTop (hvs : as.vstart = ph.base) (hcn : as.codeNPages = ph.npages) :
    as.codeTop.toNat = (ph.lo + ph.npages.toNat * 4096 % 2 ^ 32) % 2 ^ 32 := by
  unfold AddrSpace.codeTop
  rw [hvs, hcn, UInt32.toNat_add, toNat_mul, toNat_pageSize, toNat_base, Nat.mul_comm 4096]

theorem codeTop_eq_hi (hvs : as.vstart = ph.base) (hcn : as.codeNPages = ph.npages)
    (hhi : ph.hi < 2 ^ 32) : as.codeTop.toNat = ph.hi := by
  have hn := toNat_npages (fits_of_hi hhi)
  have hle := ph.lo_le_hi
  rw [toNat_codeTop hvs hcn, hn]
  omega

theorem count_region (hhi : ph.hi < 2 ^ 32) (hp : PageAligned p) :
    (pagesFrom ph.base ph.npages.toNat).count p =
      if ph.lo ≤ p.toNat ∧ p.toNat < ph.hi then 1 else 0 := by
  have hn := toNat_npages (fits_of_hi hhi)
  have hle := ph.lo_le_hi
  rw [count_pagesFrom ph.aligned_base hp (by rw [toNat_base, hn]; omega), toNat_base, hn]
  exact if_congr (by omega) rfl rfl

theorem mem_region (hhi : ph.hi < 2 ^ 32) (hp : PageAligned p) (hlo : ph.lo ≤ p.toNat)
    (hlt : p.toNat < ph.hi) : p ∈ pagesFrom ph.base ph.npages.toNat := by
  rw [← count_pos_iff, count_region hhi hp, if_pos ⟨hlo, hlt⟩]
  decide

/-! ### 一つの segment -/

section One

variable {as : AddrSpace} {region grown : List PageEntry} {code : ElfPhdr}

theorem wellPlaced_one_iff (h : Placed as region grown) (hvs : as.vstart = code.base)
    (hcn : as.codeNPages = code.npages) (hdn : as.dataNPages = 0)
    (hb : as.vbreakbase = code.npages * pageSize + code.base) :
    WellPlaced [code] as ↔ SegsOk [code] := by
  constructor
  · intro hw
    by_cases h0 : code.pMemsz = 0
    · exact Or.inl h0
    · have hle := hi_le h0 (break_mod hb) (hw.breakAbove code mem_cons_self)
      exact Or.inr (lt_of_le_of_lt hle (toNat_lt _))
  · rintro (h0 | hhi)
    · exact wellPlaced_of_empty as (by simpa using h0)
    · have hpages : as.regionPages = pagesFrom code.base code.npages.toNat := by
        unfold AddrSpace.regionPages
        rw [hvs, hcn, hdn]
        exact append_nil _
      have htop := codeTop_eq_hi hvs hcn hhi
      refine ⟨?_, ?_, ?_, ?_, ?_⟩
      · intro ph hph a ha
        obtain rfl := mem_singleton.mp hph
        obtain ⟨p, hp⟩ := ha.exists_page hhi
        have ht : ph.Touches p := ⟨a, ha, hp⟩
        have hrange := ht.range
        refine ⟨p, hp, ?_⟩
        rw [h.mappings_eq (hpages ▸ mem_region hhi ht.aligned hrange.1 (by omega)), hpages,
          count_region hhi ht.aligned, if_pos ⟨hrange.1, by omega⟩]
      · intro ph hph p ht
        obtain rfl := mem_singleton.mp hph
        rw [hvs, le_iff_toNat_le, toNat_base]
        exact ht.range.1
      · intro c hc p ht _ e he hv
        obtain rfl : code = c := by simpa using hc
        refine h.readOnly e he ?_
        rw [hv, lt_iff_toNat_lt, htop]
        have := ht.range.2
        omega
      · intro d hd
        simp at hd
      · intro ph hph a ha
        obtain rfl := mem_singleton.mp hph
        rw [break_eq_hi hb hhi]
        exact ha.lt_hi

end One

/-! ### 二つの segment -/

section Two

variable {as : AddrSpace} {region grown : List PageEntry} {code data : ElfPhdr}

theorem wellPlaced_two_empty_iff (h : Placed as region grown) (hcode : code.npages = 0)
    (hvs : as.vstart = data.base) (hcn : as.codeNPages = data.npages)
    (hb : as.vbreakbase = data.npages * pageSize + data.base) :
    WellPlaced [code, data] as ↔ SegsOk [code, data] := by
  have hzero : code.npages.toNat = 0 := by rw [hcode]; rfl
  constructor
  · intro hw
    have hc0 : code.pMemsz = 0 := by
      by_contra h0
      have hle := hi_le h0 (break_mod hb) (hw.breakAbove code mem_cons_self)
      have hn := toNat_npages (fits_of_hi (lt_of_le_of_lt hle (toNat_lt _)))
      have := lo_lt_hi h0
      omega
    refine Or.inl ⟨hc0, ?_⟩
    by_contra h0
    have hle := hi_le h0 (break_mod hb) (hw.breakAbove data (by simp))
    have hhi : data.hi < 2 ^ 32 := lt_of_le_of_lt hle (toNat_lt _)
    have hlt := lo_lt_hi h0
    have hmem : data.base ∈ as.regionPages := by
      unfold AddrSpace.regionPages
      rw [hvs, hcn]
      exact mem_append_left _ (mem_region hhi data.aligned_base
        (le_of_eq toNat_base.symm) (by rw [toNat_base]; omega))
    obtain ⟨e, he, hv⟩ := h.exists_entry hmem
    have hro := h.readOnly e he (by
      rw [hv, lt_iff_toNat_lt, codeTop_eq_hi hvs hcn hhi, toNat_base]
      omega)
    rw [hw.dataWritable data rfl _ (touches_base h0) e he hv] at hro
    cases hro
  · rintro (⟨hc0, hd0⟩ | ⟨hlt, hle, hhi⟩)
    · exact wellPlaced_of_empty as (by simpa using ⟨hc0, hd0⟩)
    · have hdlo := data.lo_le_hi
      have hn := toNat_npages (fits_of_hi (show code.hi < 2 ^ 32 by omega))
      omega

/-- 一つ目の領域に page があれば、二つの segment が code と data の領域になる。 -/
structure TwoRegions (as : AddrSpace) (code data : ElfPhdr) : Prop where
  vstart : as.vstart = code.base
  codeNPages : as.codeNPages = code.npages
  dataNPages : as.dataNPages = data.npages
  vbreakbase : as.vbreakbase = data.npages * pageSize + data.base

theorem TwoRegions.pages (r : TwoRegions as code data) : as.regionPages =
    pagesFrom code.base code.npages.toNat ++ pagesFrom data.base data.npages.toNat := by
  have hstart : as.dataStart = data.base := by
    unfold AddrSpace.dataStart
    rw [r.vbreakbase, r.dataNPages, UInt32.add_comm, UInt32.add_sub_cancel]
  unfold AddrSpace.regionPages
  rw [r.vstart, r.codeNPages, hstart, r.dataNPages]

theorem TwoRegions.count (r : TwoRegions as code data) (hc : code.hi < 2 ^ 32)
    (hd : data.hi < 2 ^ 32) (hp : PageAligned p) : as.regionPages.count p =
      (if code.lo ≤ p.toNat ∧ p.toNat < code.hi then 1 else 0) +
        if data.lo ≤ p.toNat ∧ p.toNat < data.hi then 1 else 0 := by
  rw [r.pages, count_append, count_region hc hp, count_region hd hp]

theorem TwoRegions.data_above_of_empty (r : TwoRegions as code data)
    (h : Placed as region grown) (hw : WellPlaced [code, data] as) (hd0 : data.pMemsz = 0)
    (hc0 : code.pMemsz ≠ 0) : code.hi ≤ data.lo ∧ data.hi < 2 ^ 32 := by
  have hb := r.vbreakbase
  have hchi := hi_le hc0 (break_mod hb) (hw.breakAbove code mem_cons_self)
  have hc32 : code.hi < 2 ^ 32 := lt_of_le_of_lt hchi (toNat_lt _)
  have hdhi := hi_le_of_empty hd0
  have hd32 : data.hi < 2 ^ 32 := by
    have hclt := lo_lt_hi hc0
    have hbrk := toNat_break hb
    have hn := toNat_npages (fits_of_empty hd0)
    have hlo32 : data.lo < 2 ^ 32 := by
      rw [← toNat_base]
      exact toNat_lt _
    have hmod := data.lo_mod
    have hle := data.lo_le_hi
    omega
  have hbeq := break_eq_hi hb hd32
  refine ⟨?_, hd32⟩
  by_contra hnot
  -- 残るのは、code の最後の page と data の一枚が同じ場合である
  obtain ⟨p, ht, hlast⟩ := exists_last hc0 hc32
  obtain ⟨a, ha, hp⟩ := ht
  obtain ⟨q, hq, hone⟩ := hw.once code mem_cons_self a ha
  obtain rfl : q = p := toNat.inj (hq.trans hp.symm)
  have ht : code.Touches q := ⟨a, ha, hp⟩
  have hcount := r.count hc32 hd32 ht.aligned
  have hmodc := code.hi_mod
  have hmodd := data.hi_mod
  have hmodl := data.lo_mod
  have hrange := ht.range
  rw [if_pos ⟨hrange.1, by omega⟩, if_pos ⟨by omega, by omega⟩] at hcount
  have hmem : q ∈ as.regionPages := by
    rw [← count_pos_iff, hcount]
    decide
  rw [h.mappings_eq hmem, hcount] at hone
  cases hone

theorem TwoRegions.data_above (r : TwoRegions as code data) (h : Placed as region grown)
    (hw : WellPlaced [code, data] as) (hd0 : data.pMemsz ≠ 0) :
    code.hi ≤ data.lo ∧ data.hi < 2 ^ 32 := by
  have hb := r.vbreakbase
  have hdle := hi_le hd0 (break_mod hb) (hw.breakAbove data (by simp))
  have hd32 : data.hi < 2 ^ 32 := lt_of_le_of_lt hdle (toNat_lt _)
  have hdlt := lo_lt_hi hd0
  have htb := touches_base hd0
  have hreach : code.lo ≤ data.lo := by
    have := hw.reachable data (by simp) _ htb
    rw [r.vstart, le_iff_toNat_le, toNat_base, toNat_base] at this
    exact this
  have hmem : data.base ∈ as.regionPages := by
    rw [r.pages]
    exact mem_append_right _ (mem_region hd32 data.aligned_base
      (le_of_eq toNat_base.symm) (by rw [toNat_base]; omega))
  obtain ⟨e, he, hv⟩ := h.exists_entry hmem
  have hge : as.codeTop.toNat ≤ data.lo := by
    by_contra hlt
    have hro := h.readOnly e he (by
      rw [hv, lt_iff_toNat_lt, toNat_base]
      omega)
    rw [hw.dataWritable data rfl _ htb e he hv] at hro
    cases hro
  have hc32 : code.hi < 2 ^ 32 := by
    by_cases hc0 : code.pMemsz = 0
    · have := hi_le_of_empty hc0
      omega
    · exact lt_of_le_of_lt (hi_le hc0 (break_mod hb)
        (hw.breakAbove code mem_cons_self)) (toNat_lt _)
  rw [codeTop_eq_hi r.vstart r.codeNPages hc32] at hge
  exact ⟨hge, hd32⟩

theorem TwoRegions.wellPlaced (r : TwoRegions as code data) (h : Placed as region grown)
    (hle : code.hi ≤ data.lo) (hd32 : data.hi < 2 ^ 32) : WellPlaced [code, data] as := by
  have hdle := data.lo_le_hi
  have hc32 : code.hi < 2 ^ 32 := by omega
  have htop := codeTop_eq_hi r.vstart r.codeNPages hc32
  have hbrk := break_eq_hi r.vbreakbase hd32
  have hone : ∀ p : Vaddr, code.Touches p ∨ data.Touches p → as.regionPages.count p = 1 := by
    rintro p (ht | ht)
    · have hrange := ht.range
      rw [r.count hc32 hd32 ht.aligned, if_pos ⟨hrange.1, by omega⟩, if_neg (by omega)]
    · have hrange := ht.range
      rw [r.count hc32 hd32 ht.aligned, if_neg (by omega), if_pos ⟨hrange.1, by omega⟩]
  have hmemOf : ∀ p : Vaddr, code.Touches p ∨ data.Touches p → p ∈ as.regionPages := by
    intro p hp
    rw [← count_pos_iff, hone p hp]
    decide
  have hsegs : ∀ ph ∈ [code, data], ph = code ∨ ph = data := by simp
  refine ⟨?_, ?_, ?_, ?_, ?_⟩
  · intro ph hph a ha
    have hhi : ph.hi < 2 ^ 32 := by
      rcases hsegs ph hph with rfl | rfl <;> assumption
    obtain ⟨p, hp⟩ := ha.exists_page hhi
    have ht : code.Touches p ∨ data.Touches p := by
      rcases hsegs ph hph with rfl | rfl
      · exact Or.inl ⟨a, ha, hp⟩
      · exact Or.inr ⟨a, ha, hp⟩
    exact ⟨p, hp, by rw [h.mappings_eq (hmemOf p ht), hone p ht]⟩
  · intro ph hph p ht
    have hrange := ht.range
    have hcle := code.lo_le_hi
    rw [r.vstart, le_iff_toNat_le, toNat_base]
    rcases hsegs ph hph with rfl | rfl <;> omega
  · intro c hc p ht _ e he hv
    obtain rfl : code = c := by simpa using hc
    refine h.readOnly e he ?_
    rw [hv, lt_iff_toNat_lt, htop]
    have := ht.range.2
    omega
  · intro d hd p ht e he hv
    obtain rfl : data = d := by simpa using hd
    refine h.writable e (h.mem_region (hmemOf p (Or.inr ht)) he hv) ?_
    rw [hv, le_iff_toNat_le, htop]
    have := ht.range.1
    omega
  · intro ph hph a ha
    have hlt := ha.lt_hi
    rw [hbrk]
    rcases hsegs ph hph with rfl | rfl <;> omega

theorem TwoRegions.wellPlaced_iff (r : TwoRegions as code data) (h : Placed as region grown)
    (hcode : code.npages ≠ 0) : WellPlaced [code, data] as ↔ SegsOk [code, data] := by
  constructor
  · intro hw
    by_cases hempty : code.pMemsz = 0 ∧ data.pMemsz = 0
    · exact Or.inl hempty
    · have habove : code.hi ≤ data.lo ∧ data.hi < 2 ^ 32 := by
        by_cases hd0 : data.pMemsz = 0
        · exact r.data_above_of_empty h hw hd0 fun hc0 => hempty ⟨hc0, hd0⟩
        · exact r.data_above h hw hd0
      have hpos : 0 < code.npages.toNat := Nat.pos_of_ne_zero fun h0 => hcode (toNat.inj h0)
      have hdle := data.lo_le_hi
      have hn := toNat_npages (fits_of_hi (show code.hi < 2 ^ 32 by omega))
      exact Or.inr ⟨by omega, habove⟩
  · rintro (⟨hc0, hd0⟩ | ⟨_, hle, hd32⟩)
    · exact wellPlaced_of_empty as (by simpa using ⟨hc0, hd0⟩)
    · exact r.wellPlaced h hle hd32

end Two

/-! ## load_elf -/

theorem defineAll_cons_ok (h : defineAll as (ph :: segs) = .ok as') :
    ∃ as₁, asDefineRegion as ph.pVaddr ph.pMemsz = .ok as₁ ∧ defineAll as₁ segs = .ok as' := by
  unfold defineAll at h
  rw [foldlM_cons] at h
  cases hd : asDefineRegion as ph.pVaddr ph.pMemsz with
  | error err =>
    rw [hd] at h
    cases h
  | ok as₁ =>
    rw [hd] at h
    exact ⟨as₁, rfl, h⟩

theorem defineAll_tables (h : defineAll as segs = .ok as') :
    as'.tables = as.tables ∧ (as.EndLast → as'.EndLast) := by
  induction segs generalizing as with
  | nil =>
    cases h
    exact ⟨rfl, id⟩
  | cons ph segs ih =>
    obtain ⟨as₁, hdef, hrest⟩ := defineAll_cons_ok h
    obtain ⟨hstart, hnext, hend⟩ := asDefineRegion_tables hdef
    obtain ⟨ht, he⟩ := ih hrest
    refine ⟨?_, fun hlast => he ?_⟩
    · rw [ht]
      unfold AddrSpace.tables
      rw [hstart, hnext]
    · unfold AddrSpace.EndLast at hlast ⊢
      rw [hend, hnext, hlast]

theorem asDefineRegion_code (hcn : as.codeNPages = 0)
    (h : asDefineRegion as ph.pVaddr ph.pMemsz = .ok as') :
    as'.vstart = ph.base ∧ as'.codeNPages = ph.npages ∧ as'.dataNPages = as.dataNPages ∧
      as'.vbreakbase = ph.npages * pageSize + ph.base := by
  unfold asDefineRegion at h
  simp only [hcn, if_true, Except.ok.injEq] at h
  subst h
  exact ⟨rfl, rfl, rfl, rfl⟩

theorem asDefineRegion_data (hcn : as.codeNPages ≠ 0) (hdn : as.dataNPages = 0)
    (h : asDefineRegion as ph.pVaddr ph.pMemsz = .ok as') :
    as'.vstart = as.vstart ∧ as'.codeNPages = as.codeNPages ∧ as'.dataNPages = ph.npages ∧
      as'.vbreakbase = ph.npages * pageSize + ph.base := by
  unfold asDefineRegion at h
  simp only [if_neg hcn, hdn, if_true, Except.ok.injEq] at h
  subst h
  exact ⟨rfl, rfl, rfl, rfl⟩

theorem twoRegions_of_defineAll {as₀ as₁ : AddrSpace} {code data : ElfPhdr}
    (hcn : as₀.codeNPages = 0) (hdn : as₀.dataNPages = 0) (hcode : code.npages ≠ 0)
    (hdef : defineAll as₀ [code, data] = .ok as₁) (hbook : as.book = as₁.book) :
    TwoRegions as code data := by
  obtain ⟨as₂, h₁, hrest⟩ := defineAll_cons_ok hdef
  obtain ⟨_, h₂, hnil⟩ := defineAll_cons_ok hrest
  cases hnil
  obtain ⟨e1, e2, e3, _⟩ := asDefineRegion_code hcn h₁
  obtain ⟨f1, f2, f3, f4⟩ := asDefineRegion_data (e2 ▸ hcode) (e3.trans hdn) h₂
  exact ⟨(congrArg vstart hbook).trans (f1.trans e1),
    (congrArg codeNPages hbook).trans (f2.trans e2),
    (congrArg dataNPages hbook).trans f3, (congrArg vbreakbase hbook).trans f4⟩

theorem wellPlaced_iff_of_defineAll {as₀ as₁ : AddrSpace} {region grown : List PageEntry}
    (hcn : as₀.codeNPages = 0) (hdn : as₀.dataNPages = 0) (hlen : segs.length ≤ 2)
    (hdef : defineAll as₀ segs = .ok as₁) (hbook : as.book = as₁.book) (h : Placed as region grown) :
    WellPlaced segs as ↔ SegsOk segs := by
  have hvs : as.vstart = as₁.vstart := congrArg vstart hbook
  have hc : as.codeNPages = as₁.codeNPages := congrArg codeNPages hbook
  have hd : as.dataNPages = as₁.dataNPages := congrArg dataNPages hbook
  have hb : as.vbreakbase = as₁.vbreakbase := congrArg vbreakbase hbook
  match segs, hlen with
  | [], _ => exact iff_of_true (wellPlaced_of_empty as (by simp)) trivial
  | [code], _ =>
    obtain ⟨_, h₁, hnil⟩ := defineAll_cons_ok hdef
    cases hnil
    obtain ⟨e1, e2, e3, e4⟩ := asDefineRegion_code hcn h₁
    exact wellPlaced_one_iff h (hvs.trans e1) (hc.trans e2) (hd.trans (e3.trans hdn)) (hb.trans e4)
  | [code, data], _ =>
    by_cases hzero : code.npages = 0
    · obtain ⟨as₂, h₁, hrest⟩ := defineAll_cons_ok hdef
      obtain ⟨_, h₂, hnil⟩ := defineAll_cons_ok hrest
      cases hnil
      obtain ⟨_, e2, _⟩ := asDefineRegion_code hcn h₁
      obtain ⟨f1, f2, _, f4⟩ := asDefineRegion_code (e2.trans hzero) h₂
      exact wellPlaced_two_empty_iff h hzero (hvs.trans f1) (hc.trans f2) (hb.trans f4)
    · exact (twoRegions_of_defineAll hcn hdn hzero hdef hbook).wellPlaced_iff h hzero

theorem loadElf_placed {mem : Mem} {tlb : Tlb} (hcreate : asCreate m = some (as, mem))
    (hload : loadElf v random ⟨⟨mem, as⟩, tlb⟩ = some (.ok entry, s')) :
    ∃ as₁ region grown, defineAll as v.segments = .ok as₁ ∧ s'.as.book = as₁.book ∧
      Placed s'.as region grown := by
  obtain ⟨hent, hch, hend, _⟩ := asCreate_some hcreate
  obtain ⟨as₁, c, s₁, hdef, hprep, hgrow, rfl⟩ := loadElf_ok hload
  obtain ⟨ht, he⟩ := defineAll_tables hdef
  have hent₁ : as₁.entries = [] := by
    unfold AddrSpace.entries
    rw [ht]
    exact hent
  obtain ⟨⟨region, grown, hp⟩, hbook⟩ := exists_placed hent₁ (ht.symm ▸ hch) (he hend) hprep hgrow
  exact ⟨as₁, region, grown, hdef, hbook, hp⟩

/--
**segment が二つまでの file の `load_elf` が成功したとき、segment の page が一度だけ置かれ、
`vm_fault` に断られず、code だけの page は書き込めず、data の page は書き込め、heap が segment の
後ろから始まることは、segment の番地と大きさの条件 `SegsOk` と同じである。**
-/
theorem loadElf_wellPlaced_iff {v : Vnode} {random : Nat → Nat → Fin numTlb} {m mem : Mem}
    {as : AddrSpace} {tlb : Tlb} {entry : Vaddr} {s' : Cpu} (hcreate : asCreate m = some (as, mem))
    (hlen : v.segments.length ≤ 2)
    (hload : loadElf v random ⟨⟨mem, as⟩, tlb⟩ = some (.ok entry, s')) :
    WellPlaced v.segments s'.as ↔ SegsOk v.segments := by
  obtain ⟨_, _, _, hbook₀, _⟩ := asCreate_some hcreate
  obtain ⟨as₁, region, grown, hdef, hbook, hp⟩ := loadElf_placed hcreate hload
  exact wellPlaced_iff_of_defineAll (congrArg codeNPages hbook₀)
    (congrArg dataNPages hbook₀) hlen hdef hbook hp

/-! ### 具体的な file -/

def Vnode.ofBytes (bytes : List UInt8) : Vnode where
  vopRead offset len := .ok ((bytes.drop offset).take len)

/-- `filesize` が 0 で `memsize` が一枚の segment を、`0x00b10000` と `0x00b20000` に持つ file。 -/
def twoSegments (b1 b2 : UInt8) : List UInt8 :=
  [0x7f, 0x45, 0x4c, 0x46, 1, 2, 1, 0, 0, 0, 0, 0, 0, 0, 0, 0] ++
  [0, 2, 0, 8, 0, 0, 0, 1, 0, b1, 0, 0, 0, 0, 0, 52, 0, 0, 0, 0, 0, 0, 0, 0] ++
  [0, 52, 0, 32, 0, 2, 0, 0, 0, 0, 0, 0] ++
  [0, 0, 0, 1, 0, 0, 0, 0, 0, b1, 0, 0, 0, b1, 0, 0] ++
  [0, 0, 0, 0, 0, 0, 0x10, 0, 0, 0, 0, 5, 0, 0, 0x10, 0] ++
  [0, 0, 0, 1, 0, 0, 0, 0, 0, b2, 0, 0, 0, b2, 0, 0] ++
  [0, 0, 0, 0, 0, 0, 0x10, 0, 0, 0, 0, 6, 0, 0, 0x10, 0]

def onePage (b : UInt8) : ElfPhdr := ⟨1, 0, b.toUInt32 <<< 16, 0, 4096⟩

theorem exists_loadElf {v : Vnode} (entry : Vaddr) (P : AddrSpace → Bool)
    (h : ((asCreate (Mem.boot 10 (by decide))).any fun x =>
      (loadElf v (fun _ _ => 0) ⟨⟨x.2, x.1⟩, Tlb.flushed⟩).any fun y =>
        decide (y.1.toOption = some entry) && P y.2.as) = true) :
    ∃ m mem as s', asCreate m = some (as, mem) ∧
      loadElf v (fun _ _ => 0) ⟨⟨mem, as⟩, Tlb.flushed⟩ = some (.ok entry, s') ∧ P s'.as = true := by
  obtain ⟨⟨as, mem⟩, hcreate, h⟩ := (Option.any_eq_true _ _).mp h
  obtain ⟨⟨r, s'⟩, hload, h⟩ := (Option.any_eq_true _ _).mp h
  obtain ⟨hr, hP⟩ := (Bool.and_eq_true _ _).mp h
  cases r with
  | error err => cases of_decide_eq_true hr
  | ok entry' =>
    obtain rfl := Option.some.inj (of_decide_eq_true hr)
    exact ⟨_, mem, as, s', hcreate, hload, hP⟩

/-- code が `0x400000`、data が `0x500000` の file では、求めることがすべて成り立つ。 -/
theorem loadElf_wellPlaced_iff_data_above :
    ∃ m mem as s', asCreate m = some (as, mem) ∧
      loadElf (Vnode.ofBytes (twoSegments 0x40 0x50)) (fun _ _ => 0) ⟨⟨mem, as⟩, Tlb.flushed⟩ =
        some (.ok 0x400000, s') ∧
      WellPlaced (Vnode.ofBytes (twoSegments 0x40 0x50)).segments s'.as := by
  obtain ⟨m, mem, as, s', hcreate, hload, -⟩ := exists_loadElf (v := Vnode.ofBytes (twoSegments 0x40 0x50))
    0x400000 (fun _ => true) (by decide +kernel)
  have hsegs : (Vnode.ofBytes (twoSegments 0x40 0x50)).segments = [onePage 0x40, onePage 0x50] := by
    decide +kernel
  refine ⟨m, mem, as, s', hcreate, hload,
    (loadElf_wellPlaced_iff hcreate (by rw [hsegs]; exact le_rfl) hload).mpr ?_⟩
  rw [hsegs]
  exact Or.inr ⟨by decide, by decide, by decide⟩

/--
data の segment が code より下の番地にあると、読み込みは成功するのに、data の page `0x400000` は `vstart` より
下にあって書き込めない。
-/
theorem loadElf_misplaces_low_data :
    ∃ m mem as s', asCreate m = some (as, mem) ∧
      loadElf (Vnode.ofBytes (twoSegments 0x50 0x40)) (fun _ _ => 0) ⟨⟨mem, as⟩, Tlb.flushed⟩ =
        some (.ok 0x500000, s') ∧
      (Vnode.ofBytes (twoSegments 0x50 0x40)).segments = [onePage 0x50, onePage 0x40] ∧
      s'.as.vstart = 0x500000 ∧ s'.as.vbreakbase = 0x401000 ∧
      ∃ e ∈ s'.as.entries, e.pageVaddr = 0x400000 ∧ e.isWrite = false := by
  obtain ⟨m, mem, as, s', hcreate, hload, h⟩ := exists_loadElf (v := Vnode.ofBytes (twoSegments 0x50 0x40))
    0x500000 (fun as => decide (as.vstart = 0x500000 ∧ as.vbreakbase = 0x401000 ∧
      ∃ e ∈ as.entries, e.pageVaddr = 0x400000 ∧ e.isWrite = false)) (by decide +kernel)
  exact ⟨m, mem, as, s', hcreate, hload, by decide +kernel, of_decide_eq_true h⟩

end Os161
