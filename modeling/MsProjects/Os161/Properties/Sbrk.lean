import MsProjects.Os161.Vm.Sbrk
import MsProjects.Os161.Properties.Copy
import MsProjects.Os161.Properties.Pages

/-! # sbrk と heap の page -/

namespace Os161

open Infra List Function

variable {n : Nat} {v : Vaddr} {c : Cur} {x : SbrkCall} {as as' : AddrSpace} {amount : Int32}
  {new : List PageEntry}

/-! ## page_alloc -/

/-- `page_alloc` が成功したときに成り立つこと。 -/
structure HeapGrown (v : Vaddr) (n : Nat) (c : Cur) (new : List PageEntry) (c' : Cur) : Prop
    extends PagesAdded v n c new c' where
  book : c'.as.book = { c.as.book with heapNPages := c.as.heapNPages + UInt32.ofNat n }

theorem pageAlloc_true {c' : Cur} (hc : Chain c.as.tables) (hend : c.as.EndLast)
    (h : pageAlloc n v c = some (true, c')) : ∃ new, HeapGrown v n c new c' := by
  induction n generalizing v c with
  | zero =>
    simp only [pageAlloc, Option.some.injEq, Prod.mk.injEq, true_and] at h
    subst h
    exact ⟨[], .nil hc hend, by simp [AddrSpace.book]⟩
  | succ n ih =>
    rw [pageAlloc] at h
    split at h
    · simp at h
    · next paddr mem halloc =>
      have htakes := (Mem.allocUpage_some halloc).1
      split at h
      · simp at h
      · next c₁ hadd =>
        obtain ⟨_, hch, hend₁, hbook, _⟩ :=
          addPageEntry_append (c := { c with mem := mem }) hc hend htakes.ne_zero hadd
        have hk := (addPageEntry_mem hadd).1
        obtain ⟨new, hg⟩ := ih
          (c := { c₁ with as := { c₁.as with heapNPages := c₁.as.heapNPages + 1 } }) hch hend₁ h
        refine ⟨_, hg.toPagesAdded.cons hc hend htakes hadd rfl (htakes.keeps.trans hk)
          (hk.allocated _ ((htakes.allocated paddr).mpr (Or.inr rfl))), ?_⟩
        rw [hg.book]
        show { c₁.as.book with heapNPages := c₁.as.book.heapNPages + 1 + UInt32.ofNat n } = _
        rw [hbook, UInt32.ofNat_add, UInt32.add_assoc, UInt32.add_comm 1]
        rfl

/-! ## 番地の計算 -/

theorem toInt_toInt32 {x : UInt32} (h : x.toNat < 2 ^ 31) : x.toInt32.toInt = x.toNat := by
  show x.toBitVec.toInt = _
  rw [BitVec.toInt_eq_toNat_of_lt (by simp only [UInt32.toNat_toBitVec]; omega)]
  rfl

theorem toNat_ceilDiv (d : Nat) :
    (if (d : Int).tmod 4096 = 0 then (d : Int).tdiv 4096 else (d : Int).tdiv 4096 + 1).toNat =
      (d + 4095) / 4096 := by
  have hmod : (d : Int).tmod 4096 = ((d % 4096 : Nat) : Int) := by
    rw [Int.tmod_eq_emod_of_nonneg (by omega)]
    rfl
  have hdiv : (d : Int).tdiv 4096 = ((d / 4096 : Nat) : Int) := by
    rw [Int.tdiv_eq_ediv_of_nonneg (by omega)]
    rfl
  rw [hmod, hdiv]
  split <;> omega

theorem toNat_sbrkStart (h : v.toNat < 0x7feff000) :
    (sbrkStart v).toNat = (v.toNat + 4095) / 4096 * 4096 := by
  have hmod : v % pageSize = 0 ↔ v.toNat % 4096 = 0 := by
    rw [← UInt32.toNat_inj, UInt32.toNat_mod]
    rfl
  unfold sbrkStart
  by_cases h0 : v % pageSize = 0
  · rw [if_pos h0]
    have := hmod.mp h0
    omega
  · have hne := mt hmod.mpr h0
    have hand := toNat_and_pageFrame v
    rw [if_neg h0, toNat_add_pageSize (by omega), hand]
    omega

/-! ## heap の不変量 -/

/-- 置かれている heap の page の終わり。 -/
def heapEnd (as : AddrSpace) : Nat := as.vbreakbase.toNat + as.heapNPages.toNat * 4096

def mappings (as : AddrSpace) (p : Vaddr) : Nat := (as.entries.map PageEntry.pageVaddr).count p

/-- まだ `sbrk` されていない heap。 -/
structure FreshHeap (as : AddrSpace) : Prop where
  chain : Chain as.tables
  endLast : as.EndLast
  aligned : PageAligned as.vbreakbase
  top : as.vbreaktop = as.vbreakbase
  none : as.heapNPages = 0
  clear : ∀ e ∈ as.entries, e.pageVaddr.toNat < as.vbreakbase.toNat ∨ 0x7feff000 ≤ e.pageVaddr.toNat

/-- `heapNPages` と break が食い違わない間の heap。 -/
structure HeapInv (as : AddrSpace) : Prop where
  chain : Chain as.tables
  endLast : as.EndLast
  aligned : PageAligned as.vbreakbase
  base_le : as.vbreakbase.toNat ≤ as.vbreaktop.toNat
  top_le : as.vbreaktop.toNat ≤ heapEnd as
  limit : as.heapNPages.toNat = 0 ∨ heapEnd as ≤ 0x7feff000
  once : ∀ p, PageAligned p → as.vbreakbase.toNat ≤ p.toNat → p.toNat < 0x7feff000 →
    mappings as p = if p.toNat < heapEnd as then 1 else 0

theorem FreshHeap.inv (h : FreshHeap as) : HeapInv as := by
  have hend : heapEnd as = as.vbreakbase.toNat := by
    unfold heapEnd
    rw [h.none]
    rfl
  refine ⟨h.chain, h.endLast, h.aligned, by rw [h.top], by rw [h.top, hend],
    Or.inl (by rw [h.none]; rfl), ?_⟩
  intro p _ hlo hhi
  rw [hend, if_neg (by omega)]
  refine count_eq_zero.mpr ?_
  intro hmem
  obtain ⟨e, he, rfl⟩ := mem_map.mp hmem
  have := h.clear e he
  omega

/-- 一回の成功した `sys_sbrk`。 -/
structure SbrkCall where
  amount : Int32
  mem : Mem
  ret : Vaddr

/-- `sys_sbrk` が成功して address space を `as'` にする。 -/
def SbrkStep (as : AddrSpace) (x : SbrkCall) (as' : AddrSpace) : Prop :=
  ∃ c', sysSbrk x.amount ⟨x.mem, as⟩ = some (.ok x.ret, c') ∧ c'.as = as'

/-- break を動かした address space。 -/
abbrev AddrSpace.moveBreak (as : AddrSpace) (amount : Int32) : AddrSpace :=
  { as with vbreaktop := as.vbreaktop + amount.toUInt32 }

theorem sysSbrk_ok {c' : Cur} {r : Vaddr} (h : sysSbrk amount c = some (.ok r, c')) :
    r = c.as.vbreaktop ∧ (c.as.moveBreak amount).vbreaktop.toNat < 0x7feff000 ∧
      c.as.vbreakbase.toNat ≤ (c.as.moveBreak amount).vbreaktop.toNat ∧
      ((c.as.heapNPages * pageSize ≤ (c.as.moveBreak amount).vbreaktop - c.as.vbreakbase ∧
          pageAlloc (sbrkNPages (c.as.moveBreak amount)).toNat (sbrkStart c.as.vbreaktop)
            ⟨c.mem, c.as.moveBreak amount⟩ = some (true, c')) ∨
        (¬ c.as.heapNPages * pageSize ≤ (c.as.moveBreak amount).vbreaktop - c.as.vbreakbase ∧
          c' = ⟨c.mem, c.as.moveBreak amount⟩)) := by
  simp only [sysSbrk] at h
  split at h
  · simp at h
  · next hlim =>
    have hlim' : (c.as.moveBreak amount).vbreaktop.toNat < 0x7feff000 := by
      have hl : (stackBase - 4096).toNat = 0x7feff000 := by decide
      rw [← hl]
      exact UInt32.lt_iff_toNat_lt.mp (UInt32.not_le.mp hlim)
    split at h
    · simp at h
    · next hbase =>
      have hbase' := UInt32.le_iff_toNat_le.mp (UInt32.not_lt.mp hbase)
      split at h
      · next hgrow =>
        split at h
        · simp at h
        · simp at h
        · next c₁ halloc =>
          simp only [Option.some.injEq, Prod.mk.injEq, Except.ok.injEq] at h
          obtain ⟨rfl, rfl⟩ := h
          exact ⟨rfl, hlim', hbase', Or.inl ⟨hgrow, halloc⟩⟩
      · next hgrow =>
        simp only [Option.some.injEq, Prod.mk.injEq, Except.ok.injEq] at h
        obtain ⟨rfl, rfl⟩ := h
        exact ⟨rfl, hlim', hbase', Or.inr ⟨hgrow, rfl⟩⟩

/-- 新しい break まで heap を伸ばすのに足りない page の数。 -/
def sbrkNeed (as : AddrSpace) (amount : Int32) : Nat :=
  ((as.moveBreak amount).vbreaktop.toNat - heapEnd as + 4095) / 4096

/-- 成功した `sys_sbrk` の効果。 -/
structure SbrkEffect (as : AddrSpace) (x : SbrkCall) (new : List PageEntry) (as' : AddrSpace) :
    Prop where
  ret : x.ret = as.vbreaktop
  entries_eq : as'.entries = as.entries ++ new
  pages : new.map PageEntry.pageVaddr = pagesFrom (sbrkStart as.vbreaktop) (sbrkNeed as x.amount)
  chain : Chain as'.tables
  endLast : as'.EndLast
  base : as'.vbreakbase = as.vbreakbase
  top : as'.vbreaktop = (as.moveBreak x.amount).vbreaktop
  heap : as'.heapNPages = as.heapNPages + UInt32.ofNat (sbrkNeed as x.amount)
  limit : (as.moveBreak x.amount).vbreaktop.toNat < 0x7feff000
  base_le : as.vbreakbase.toNat ≤ (as.moveBreak x.amount).vbreaktop.toNat

theorem HeapInv.toNat_heapBytes (hI : HeapInv as) :
    (as.heapNPages * pageSize).toNat = as.heapNPages.toNat * 4096 := by
  rw [UInt32.toNat_mul, toNat_pageSize, Nat.mod_eq_of_lt]
  have := hI.limit
  unfold heapEnd at this
  omega

theorem HeapInv.grows_iff (hI : HeapInv as)
    (hb : as.vbreakbase.toNat ≤ (as.moveBreak amount).vbreaktop.toNat) :
    as.heapNPages * pageSize ≤ (as.moveBreak amount).vbreaktop - as.vbreakbase ↔
      heapEnd as ≤ (as.moveBreak amount).vbreaktop.toNat := by
  rw [UInt32.le_iff_toNat_le, hI.toNat_heapBytes,
    UInt32.toNat_sub_of_le _ _ (UInt32.le_iff_toNat_le.mpr hb)]
  unfold heapEnd
  omega

theorem toNat_sbrkNPages {d : Nat} (hd : d < 2 ^ 31)
    (h : (as.vbreaktop - (as.vbreakbase + as.heapNPages * pageSize)).toNat = d) :
    (sbrkNPages as).toNat = (d + 4095) / 4096 := by
  have hint := toInt_toInt32 (h.trans_lt hd)
  simp only [sbrkNPages, hint, h]
  exact toNat_ceilDiv d

theorem HeapInv.sbrkNPages_eq (hI : HeapInv as)
    (hlim : (as.moveBreak amount).vbreaktop.toNat < 0x7feff000)
    (hle : heapEnd as ≤ (as.moveBreak amount).vbreaktop.toNat) :
    (sbrkNPages (as.moveBreak amount)).toNat = sbrkNeed as amount := by
  have hend : (as.vbreakbase + as.heapNPages * pageSize).toNat = heapEnd as := by
    rw [UInt32.toNat_add, hI.toNat_heapBytes, Nat.mod_eq_of_lt]
    · rfl
    · unfold heapEnd at hle
      omega
  have hdiff : ((as.moveBreak amount).vbreaktop -
      (as.vbreakbase + as.heapNPages * pageSize)).toNat =
        (as.moveBreak amount).vbreaktop.toNat - heapEnd as := by
    rw [UInt32.toNat_sub_of_le _ _ (UInt32.le_iff_toNat_le.mpr (by omega)), hend]
  exact toNat_sbrkNPages (by omega) hdiff

theorem SbrkStep.effect (hI : HeapInv as) (h : SbrkStep as x as') :
    ∃ new, SbrkEffect as x new as' := by
  obtain ⟨c', hs, rfl⟩ := h
  obtain ⟨hret, hlim, hb, ⟨hgrow, halloc⟩ | ⟨hgrow, rfl⟩⟩ := sysSbrk_ok hs
  · have hle := (hI.grows_iff hb).mp hgrow
    rw [hI.sbrkNPages_eq hlim hle] at halloc
    obtain ⟨new, hg⟩ := pageAlloc_true hI.chain hI.endLast halloc
    exact ⟨new, hret, hg.entries_eq, hg.pages, hg.chain, hg.endLast,
      congrArg Book.vbreakbase hg.book, congrArg Book.vbreaktop hg.book,
      congrArg Book.heapNPages hg.book, hlim, hb⟩
  · have hneed : sbrkNeed as x.amount = 0 := by
      have hlt := mt (hI.grows_iff hb).mpr hgrow
      unfold sbrkNeed
      omega
    refine ⟨[], hret, by simp [AddrSpace.entries, AddrSpace.tables], ?_, hI.chain, hI.endLast,
      rfl, rfl, ?_, hlim, hb⟩
    · rw [hneed]
      rfl
    · rw [hneed]
      simp

/-- 伸ばすときに、元の break を切り上げた番地が、置かれている heap の終わりと一致する。 -/
def SbrkFits (as : AddrSpace) (x : SbrkCall) : Prop :=
  heapEnd as < (as.moveBreak x.amount).vbreaktop.toNat →
    (as.vbreaktop.toNat + 4095) / 4096 * 4096 = heapEnd as

instance (as : AddrSpace) (x : SbrkCall) : Decidable (SbrkFits as x) := by
  unfold SbrkFits
  infer_instance

/-- 呼び出しの後の heap の page はどれもちょうど一つの entry を持ち、返り値は元の break である。 -/
def SbrkExact (as : AddrSpace) (x : SbrkCall) (as' : AddrSpace) : Prop :=
  (∀ p, PageAligned p → p.toNat < as'.vbreaktop.toNat → as'.vbreakbase.toNat < p.toNat + 4096 →
    mappings as' p = 1) ∧ x.ret = as.vbreaktop

theorem SbrkEffect.mappings_eq (h : SbrkEffect as x new as') (p : Vaddr) :
    mappings as' p = mappings as p +
      (pagesFrom (sbrkStart as.vbreaktop) (sbrkNeed as x.amount)).count p := by
  unfold mappings
  rw [h.entries_eq, map_append, count_append, h.pages]

theorem pageAligned_sbrkStart (h : v.toNat < 0x7feff000) : PageAligned (sbrkStart v) := by
  unfold PageAligned
  rw [toNat_sbrkStart h]
  omega

section

variable (hI : HeapInv as) (h : SbrkEffect as x new as')

include hI h

theorem SbrkEffect.heapEnd_eq : heapEnd as' = heapEnd as + sbrkNeed as x.amount * 4096 := by
  have hlim := h.limit
  have hH := hI.limit
  have hN : sbrkNeed as x.amount * 4096 ≤ (as.moveBreak x.amount).vbreaktop.toNat + 4095 := by
    unfold sbrkNeed
    omega
  unfold heapEnd at hH ⊢
  rw [h.base, h.heap, UInt32.toNat_add, UInt32.toNat_ofNat',
    Nat.mod_eq_of_lt (by omega : sbrkNeed as x.amount < 2 ^ 32), Nat.mod_eq_of_lt (by omega)]
  omega

theorem SbrkEffect.count_new (hfit : SbrkFits as x) {p : Vaddr} (hp : PageAligned p) :
    (pagesFrom (sbrkStart as.vbreaktop) (sbrkNeed as x.amount)).count p =
      if heapEnd as ≤ p.toNat ∧ p.toNat < heapEnd as' then 1 else 0 := by
  have hend := h.heapEnd_eq hI
  have hlim := h.limit
  have htop := hI.top_le
  by_cases hgrow : heapEnd as < (as.moveBreak x.amount).vbreaktop.toNat
  · have hstart := toNat_sbrkStart (v := as.vbreaktop) (by omega)
    rw [hfit hgrow] at hstart
    have hN : sbrkNeed as x.amount * 4096 ≤ (as.moveBreak x.amount).vbreaktop.toNat + 4095 := by
      unfold sbrkNeed
      omega
    rw [count_pagesFrom (pageAligned_sbrkStart (by omega)) hp (by omega), hstart, hend]
  · have hN : sbrkNeed as x.amount = 0 := by
      unfold sbrkNeed
      omega
    rw [hend, hN, if_neg (by omega)]
    rfl

theorem SbrkEffect.once (hfit : SbrkFits as x) {p : Vaddr} (hp : PageAligned p)
    (hlo : as.vbreakbase.toNat ≤ p.toNat) (hhi : p.toNat < 0x7feff000) :
    mappings as' p = if p.toNat < heapEnd as' then 1 else 0 := by
  have hend := h.heapEnd_eq hI
  rw [h.mappings_eq, hI.once p hp hlo hhi, h.count_new hI hfit hp]
  by_cases hpe : p.toNat < heapEnd as
  · rw [if_pos hpe, if_neg (by omega), if_pos (by omega)]
  · rw [if_neg hpe, Nat.zero_add]
    exact if_congr (by omega) rfl rfl

theorem SbrkEffect.good (hfit : SbrkFits as x) : HeapInv as' ∧ SbrkExact as x as' := by
  have hend := h.heapEnd_eq hI
  have hlim := h.limit
  have hbase : as'.vbreakbase.toNat = as.vbreakbase.toNat := congrArg UInt32.toNat h.base
  have htop' : as'.vbreaktop.toNat = (as.moveBreak x.amount).vbreaktop.toNat :=
    congrArg UInt32.toNat h.top
  have halB := hI.aligned
  have halE : heapEnd as % 4096 = 0 := by
    unfold PageAligned at halB
    unfold heapEnd
    omega
  have hge : (as.moveBreak x.amount).vbreaktop.toNat ≤ heapEnd as' := by
    rw [hend]
    unfold sbrkNeed
    omega
  have hle : as.heapNPages.toNat = 0 ∧ heapEnd as' = as.vbreakbase.toNat ∨
      heapEnd as' ≤ 0x7feff000 := by
    have hH := hI.limit
    have hb := h.base_le
    unfold PageAligned at halB
    rw [hend]
    unfold sbrkNeed heapEnd at *
    omega
  refine ⟨⟨h.chain, h.endLast, ?_, ?_, ?_, ?_, ?_⟩, ?_, h.ret⟩
  · rw [h.base]
    exact halB
  · rw [hbase, htop']
    exact h.base_le
  · rw [htop']
    exact hge
  · rcases hle with ⟨_, hle⟩ | hle
    · left
      unfold heapEnd at hle
      omega
    · exact Or.inr hle
  · rw [hbase]
    exact fun p hp hlo hhi => h.once hI hfit hp hlo hhi
  · intro p hp hlt hgt
    have hp' := hp
    unfold PageAligned at halB hp'
    rw [h.once hI hfit hp (by omega) (by omega), if_pos (by omega)]

theorem SbrkEffect.bad (hfit : ¬ SbrkFits as x) : ¬ SbrkExact as x as' := by
  intro hex
  unfold SbrkFits at hfit
  obtain ⟨hgrow, hne⟩ := Classical.not_imp.mp hfit
  have hlim := h.limit
  have htop := hI.top_le
  have hbl := hI.base_le
  have halB := hI.aligned
  unfold PageAligned at halB
  have halE : heapEnd as % 4096 = 0 := by
    unfold heapEnd
    omega
  have hstart := toNat_sbrkStart (v := as.vbreaktop) (by omega)
  have hal := pageAligned_sbrkStart (v := as.vbreaktop) (by omega)
  have hneed : 0 < sbrkNeed as x.amount ∧
      sbrkNeed as x.amount * 4096 ≤ (as.moveBreak x.amount).vbreaktop.toNat + 4095 := by
    unfold sbrkNeed
    omega
  have htwo : mappings as' (sbrkStart as.vbreaktop) = 2 := by
    rw [h.mappings_eq, hI.once _ hal (by omega) (by omega), if_pos (by omega),
      count_pagesFrom hal hal (by omega), if_pos (by omega)]
  have hone := hex.1 _ hal
    (by rw [show as'.vbreaktop = _ from h.top]; omega)
    (by rw [show as'.vbreakbase = _ from h.base]; omega)
  omega

end

/--
成功した `sys_sbrk` の列では、heap の page がいつもちょうど一度ずつ置かれることと、
伸ばす呼び出しのたびに元の break を切り上げた番地が heap の終わりと一致することは同じである。
-/
theorem sbrk_exact_iff {as u : AddrSpace} {tr : List (Transition AddrSpace SbrkCall)}
    (hfresh : FreshHeap as) (hrun : Run SbrkStep as tr u) :
    (∀ x ∈ tr, SbrkExact x.pre x.label x.post) ↔ ∀ x ∈ tr, SbrkFits x.pre x.label := by
  refine hrun.forall_iff (I := HeapInv) ?_ ?_ hfresh.inv
  · intro p a q hI hstep hfit
    obtain ⟨new, heff⟩ := hstep.effect hI
    exact heff.good hI hfit
  · intro p a q hI hstep hfit
    obtain ⟨new, heff⟩ := hstep.effect hI
    exact heff.bad hI hfit

/-! ## 具体的な列 -/

/-- 成功した `sys_sbrk` の後の address space。 -/
def sbrkOk (as : AddrSpace) (x : SbrkCall) : Option AddrSpace :=
  (sysSbrk x.amount ⟨x.mem, as⟩).bind fun y => if y.1 = .ok x.ret then some y.2.as else none

theorem sbrkStep_of_ok (h : sbrkOk as x = some as') : SbrkStep as x as' := by
  obtain ⟨⟨r, c⟩, hc, h⟩ := Option.bind_eq_some_iff.mp h
  obtain ⟨rfl, has⟩ := Option.ite_none_right_eq_some.mp h
  exact ⟨c, hc, Option.some.inj has⟩

theorem Mem.twoHundred_le : 200 ≤ 100000 := by decide

def sbrkCall (amount : Int32) (ret : Vaddr) : SbrkCall := ⟨amount, Mem.boot 200 Mem.twoHundred_le, ret⟩

/-- `0x500000` から始まる、空の heap。 -/
def emptyHeap : Option AddrSpace := (asCreate (Mem.boot 200 Mem.twoHundred_le)).map fun x =>
  { x.1 with vbreakbase := 0x500000, vbreaktop := 0x500000, heapNPages := 0 }

theorem freshHeap_emptyHeap (h : emptyHeap = some as) : FreshHeap as := by
  obtain ⟨⟨as, m⟩, hcreate, rfl⟩ := Option.map_eq_some_iff.mp h
  obtain ⟨hent, hch, hend, -⟩ := asCreate_some hcreate
  refine ⟨hch, hend, (by decide : PageAligned 0x500000), rfl, rfl, fun e he => ?_⟩
  have hnil : e ∈ as.entries := he
  simp [hent] at hnil

/-- 三枚伸ばしてから、最後の page の中まで縮め、また伸ばす列。 -/
theorem sbrk_exact_iff_grow_shrink :
    ∃ as u tr, FreshHeap as ∧ Run SbrkStep as tr u ∧
      tr.map (fun x => x.label.amount) = [12288, -5, 4096] ∧
      ∀ x ∈ tr, SbrkExact x.pre x.label x.post := by
  obtain ⟨as, u, has, hrun, hlabels, hfits⟩ := Run.exists_of_any sbrkOk emptyHeap
    [sbrkCall 12288 0x500000, sbrkCall (-5) 0x503000, sbrkCall 4096 0x502ffb]
    (fun as _ => (Run.trace sbrkOk as [sbrkCall 12288 0x500000, sbrkCall (-5) 0x503000,
      sbrkCall 4096 0x502ffb]).all fun x => decide (SbrkFits x.pre x.label)) (by decide +kernel)
  have hfresh := freshHeap_emptyHeap has
  have hrun := hrun.mono sbrkStep_of_ok
  have hamounts := congrArg (map SbrkCall.amount) hlabels
  rw [map_map] at hamounts
  refine ⟨as, u, _, hfresh, hrun, hamounts, (sbrk_exact_iff hfresh hrun).mpr fun x hx => ?_⟩
  exact of_decide_eq_true (all_eq_true.mp hfits x hx)

/-- `sbrk(12288)`、`sbrk(-8192)`、`sbrk(12288)` の後、一枚は二度置かれ、末尾の一枚は置かれていない。 -/
theorem sbrk_maps_page_twice :
    ∃ as u tr, FreshHeap as ∧ Run SbrkStep as tr u ∧
      tr.map (fun x => x.label.amount) = [12288, -8192, 12288] ∧
      u.vbreakbase = 0x500000 ∧ u.vbreaktop = 0x504000 ∧
      mappings u 0x501000 = 2 ∧ mappings u 0x503000 = 0 := by
  obtain ⟨as, u, has, hrun, hlabels, htwice⟩ := Run.exists_of_any sbrkOk emptyHeap
    [sbrkCall 12288 0x500000, sbrkCall (-8192) 0x503000, sbrkCall 12288 0x501000]
    (fun _ u => decide (u.vbreakbase = 0x500000 ∧ u.vbreaktop = 0x504000 ∧ mappings u 0x501000 = 2 ∧
      mappings u 0x503000 = 0)) (by decide +kernel)
  have hamounts := congrArg (map SbrkCall.amount) hlabels
  rw [map_map] at hamounts
  exact ⟨as, u, _, freshHeap_emptyHeap has, hrun.mono sbrkStep_of_ok, hamounts, of_decide_eq_true htwice⟩

end Os161
