import MsProjects.Infra.Bits
import MsProjects.Os161.Properties.Freelist
import Mathlib.Data.Fintype.Card

/-! # pageref の列 -/

namespace Os161.Kmalloc

open List Function

open Infra (Linked)

/-! ## bitmap -/

section bitmap

variable {h : Heap} {r r' : Ref}

theorem wordOf_refOf (i : Fin 8) (j : Fin 32) : Heap.wordOf (Heap.refOf i j) = i := by
  apply Fin.ext
  simp only [Heap.wordOf, Heap.refOf]
  omega

theorem refOf_mod (i : Fin 8) (j : Fin 32) : (Heap.refOf i j).val % 32 = j := by
  simp only [Heap.refOf]
  omega

theorem eq_of_wordOf_eq (hw : Heap.wordOf r = Heap.wordOf r') (hb : r.val % 32 = r'.val % 32) : r = r' := by
  have hdiv := congrArg Fin.val hw
  simp only [Heap.wordOf] at hdiv
  apply Fin.ext
  omega

theorem inuse_of_findPageref (hr : h.findPageref = some r) : h.inuse r = false := by
  obtain ⟨i, -, hi⟩ := exists_of_findSome?_eq_some hr
  split at hi
  · cases hi
  · obtain ⟨j, hj, rfl⟩ := Option.map_eq_some_iff.mp hi
    have hbit := find?_some hj
    rw [Heap.inuse, wordOf_refOf, refOf_mod]
    simpa using hbit

theorem inuse_of_findPageref_none (hnone : h.findPageref = none) (r : Ref) : h.inuse r = true := by
  have hword := findSome?_eq_none_iff.mp hnone (Heap.wordOf r) (mem_finRange _)
  have hlt : r.val % 32 < 32 := Nat.mod_lt _ (by decide)
  rw [Heap.inuse]
  split at hword
  · next hones => rw [hones, BitVec.getLsbD_allOnes, decide_eq_true hlt]
  · simpa using find?_eq_none.mp (Option.map_eq_none_iff.mp hword) ⟨r.val % 32, hlt⟩ (mem_finRange _)

theorem allocpageref_eq {h' : Heap} (ha : h.allocpageref = some (r, h')) :
    h.inuse r = false ∧ (∀ r', h'.inuse r' = (h.inuse r' || decide (r' = r))) ∧
      h' = { h with pagerefsInuse := h'.pagerefsInuse } := by
  rw [Heap.allocpageref] at ha
  split at ha
  · cases ha
  · rename_i r₀ hr
    obtain ⟨rfl, rfl⟩ := Prod.mk.inj (Option.some.inj ha)
    refine ⟨inuse_of_findPageref hr, fun r' => ?_, rfl⟩
    rw [Heap.inuse, Heap.inuse]
    by_cases hw : Heap.wordOf r' = Heap.wordOf r₀
    · rw [hw]
      simp only [update_self]
      rw [Infra.getLsbD_set _ (Nat.mod_lt _ (by decide))]
      congr 1
      simp only [decide_eq_decide]
      exact ⟨fun hb => eq_of_wordOf_eq hw hb.symm, fun heq => heq ▸ rfl⟩
    · have hne : r' ≠ r₀ := fun heq => hw (heq ▸ rfl)
      simp [update_of_ne hw, hne]

theorem freepageref_eq (hr : h.inuse r = true) :
    ∃ h', h.freepageref r = some h' ∧ (∀ r', h'.inuse r' = (h.inuse r' && !decide (r' = r))) ∧
      h' = { h with pagerefsInuse := h'.pagerefsInuse } := by
  rw [Heap.freepageref, if_pos hr]
  refine ⟨_, rfl, fun r' => ?_, rfl⟩
  rw [Heap.inuse, Heap.inuse]
  by_cases hw : Heap.wordOf r' = Heap.wordOf r
  · rw [hw]
    simp only [update_self]
    rw [Infra.getLsbD_clear _ (Nat.mod_lt _ (by decide))]
    congr 2
    simp only [decide_eq_decide]
    exact ⟨fun hb => eq_of_wordOf_eq hw hb.symm, fun heq => heq ▸ rfl⟩
  · have hne : r' ≠ r := fun heq => hw (heq ▸ rfl)
    simp [update_of_ne hw, hne]

end bitmap

/-! ## 列を辿る loop -/

section loops

variable {next : Ref → Option Ref} {head : Option Ref} {l : List Ref} {pr : Ref}

theorem length_lt_fuel (hl : l.Nodup) : l.length < Heap.fuel := by
  have hle := hl.length_le_card
  rw [Fintype.card_fin] at hle
  rw [Heap.fuel]
  omega

theorem search_eq {check stop : Ref → Bool} {fuel : Nat} (hl : Linked next head l)
    (hcheck : ∀ r ∈ l, check r = true) (hfuel : l.length < fuel) :
    Heap.search next check stop fuel head = some (l.find? stop) := by
  induction l generalizing head fuel with
  | nil =>
    obtain ⟨fuel, rfl⟩ : ∃ n, fuel = n + 1 := ⟨fuel - 1, by simp at hfuel; omega⟩
    obtain rfl : head = none := hl
    rfl
  | cons r l ih =>
    obtain ⟨fuel, rfl⟩ : ∃ n, fuel = n + 1 := ⟨fuel - 1, by simp at hfuel; omega⟩
    obtain ⟨rfl, hrest⟩ := hl
    rw [Heap.search, hcheck r mem_cons_self, if_neg (by simp)]
    cases hstop : stop r with
    | true => simp [hstop]
    | false =>
      rw [if_neg (by simp), find?_cons_of_neg (by simp [hstop])]
      exact ih hrest (fun x hx => hcheck x (mem_cons_of_mem _ hx)) (Nat.lt_of_succ_lt_succ hfuel)

def guyAfter (guy : Heap.Guy) : List Ref → Heap.Guy
  | [] => guy
  | r :: l => guyAfter (.field r) l

theorem guyAfter_concat (guy : Heap.Guy) (l : List Ref) (r : Ref) : guyAfter guy (l ++ [r]) = .field r := by
  induction l generalizing guy with
  | nil => rfl
  | cons c l ih => exact ih _

theorem findGuy_eq {a b : List Ref} {guy : Heap.Guy} {fuel : Nat} (hl : Linked next head (a ++ pr :: b))
    (hnot : pr ∉ a) (hfuel : a.length < fuel) :
    Heap.findGuy next pr fuel guy head = some (guyAfter guy a) := by
  induction a generalizing head guy fuel with
  | nil =>
    obtain ⟨fuel, rfl⟩ : ∃ n, fuel = n + 1 := ⟨fuel - 1, by simp at hfuel; omega⟩
    obtain ⟨rfl, -⟩ := hl
    rw [Heap.findGuy, if_pos rfl]
    rfl
  | cons r a ih =>
    obtain ⟨fuel, rfl⟩ : ∃ n, fuel = n + 1 := ⟨fuel - 1, by simp at hfuel; omega⟩
    obtain ⟨rfl, hrest⟩ := hl
    rw [mem_cons, not_or] at hnot
    rw [Heap.findGuy, if_neg (Ne.symm hnot.1)]
    exact ih hrest hnot.2 (Nat.lt_of_succ_lt_succ hfuel)

end loops

/-! ## 列から外すこと -/

/-- 空きの列に関わる部分が等しい。 -/
structure SamePages (h h' : Heap) : Prop where
  mem : h'.mem = h.mem
  inuse : h'.pagerefsInuse = h.pagerefsInuse
  pab : ∀ r, (h'.pagerefs r).pageaddrAndBlocktype = (h.pagerefs r).pageaddrAndBlocktype
  offset : ∀ r, (h'.pagerefs r).freelistOffset = (h.pagerefs r).freelistOffset
  nfree : ∀ r, (h'.pagerefs r).nfree = (h.pagerefs r).nfree

theorem SamePages.trans {h₁ h₂ h₃ : Heap} (h : SamePages h₁ h₂) (h' : SamePages h₂ h₃) :
    SamePages h₁ h₃ where
  mem := h'.mem.trans h.mem
  inuse := h'.inuse.trans h.inuse
  pab r := (h'.pab r).trans (h.pab r)
  offset r := (h'.offset r).trans (h.offset r)
  nfree r := (h'.nfree r).trans (h.nfree r)

theorem SamePages.modify (h : Heap) {r : Ref} {f : Pageref → Pageref}
    (hpab : ∀ p, (f p).pageaddrAndBlocktype = p.pageaddrAndBlocktype)
    (hoffset : ∀ p, (f p).freelistOffset = p.freelistOffset) (hnfree : ∀ p, (f p).nfree = p.nfree) :
    SamePages h (h.modify r f) := by
  refine ⟨rfl, rfl, ?_, ?_, ?_⟩ <;> intro r' <;> by_cases hr : r' = r
  · subst hr
    simp [Heap.modify, hpab]
  · simp [Heap.modify, hr]
  · subst hr
    simp [Heap.modify, hoffset]
  · simp [Heap.modify, hr]
  · subst hr
    simp [Heap.modify, hnfree]
  · simp [Heap.modify, hr]

theorem nextSamesize_modify (h : Heap) (r : Ref) (f : Pageref → Pageref) :
    (h.modify r f).nextSamesize = update h.nextSamesize r (f (h.pagerefs r)).nextSamesize := by
  funext r'
  by_cases hr : r' = r
  · subst hr
    simp [Heap.nextSamesize, Heap.modify]
  · simp [Heap.nextSamesize, Heap.modify, hr]

theorem nextAll_modify (h : Heap) (r : Ref) (f : Pageref → Pageref) :
    (h.modify r f).nextAll = update h.nextAll r (f (h.pagerefs r)).nextAll := by
  funext r'
  by_cases hr : r' = r
  · subst hr
    simp [Heap.nextAll, Heap.modify]
  · simp [Heap.nextAll, Heap.modify, hr]

section remove

variable {h : Heap} {pr : Ref} {a b : List Ref} {k : Fin 8}

theorem removeSamesize_eq (hl : Linked h.nextSamesize (h.sizebases k) (a ++ pr :: b))
    (hnodup : (a ++ pr :: b).Nodup) :
    ∃ h', h.removeSamesize pr k = some h' ∧ SamePages h h' ∧
      Linked h'.nextSamesize (h'.sizebases k) (a ++ b) ∧
      (∀ k', k' ≠ k → h'.sizebases k' = h.sizebases k') ∧
      (∀ r, r ∉ a ++ pr :: b → h'.nextSamesize r = h.nextSamesize r) ∧
      h'.nextAll = h.nextAll ∧ h'.allbase = h.allbase := by
  have hfuel := length_lt_fuel hnodup
  have hnot : pr ∉ a := by
    rw [nodup_append] at hnodup
    exact fun hmem => hnodup.2.2 pr hmem pr mem_cons_self rfl
  rw [Heap.removeSamesize, findGuy_eq hl hnot (by simp at hfuel; omega)]
  rcases eq_nil_or_concat' a with rfl | ⟨a, c, rfl⟩
  · refine ⟨_, rfl, ⟨rfl, rfl, fun _ => rfl, fun _ => rfl, fun _ => rfl⟩, ?_,
      fun k' hk' => update_of_ne hk' _ _, fun _ _ => rfl, rfl, rfl⟩
    dsimp only
    rw [update_self]
    exact hl.2
  · rw [guyAfter_concat]
    refine ⟨_, rfl, .modify h (fun _ => rfl) (fun _ => rfl) fun _ => rfl, ?_, fun _ _ => rfl, ?_, ?_, rfl⟩
    · rw [nextSamesize_modify, append_assoc]
      rw [append_assoc] at hl hnodup
      exact hl.unlink hnodup
    · intro r hr
      rw [nextSamesize_modify, update_of_ne]
      rintro rfl
      simp at hr
    · rw [nextAll_modify]
      exact update_eq_self _ _

theorem removeAll_eq (hl : Linked h.nextAll h.allbase (a ++ pr :: b))
    (hnodup : (a ++ pr :: b).Nodup) :
    ∃ h', h.removeAll pr = some h' ∧ SamePages h h' ∧ Linked h'.nextAll h'.allbase (a ++ b) ∧
      h'.nextSamesize = h.nextSamesize ∧ h'.sizebases = h.sizebases := by
  have hfuel := length_lt_fuel hnodup
  have hnot : pr ∉ a := by
    rw [nodup_append] at hnodup
    exact fun hmem => hnodup.2.2 pr hmem pr mem_cons_self rfl
  rw [Heap.removeAll, findGuy_eq hl hnot (by simp at hfuel; omega)]
  rcases eq_nil_or_concat' a with rfl | ⟨a, c, rfl⟩
  · exact ⟨_, rfl, ⟨rfl, rfl, fun _ => rfl, fun _ => rfl, fun _ => rfl⟩, hl.2, rfl, rfl⟩
  · rw [guyAfter_concat]
    refine ⟨_, rfl, .modify h (fun _ => rfl) (fun _ => rfl) fun _ => rfl, ?_, ?_, rfl⟩
    · rw [nextAll_modify, append_assoc]
      rw [append_assoc] at hl hnodup
      exact hl.unlink hnodup
    · rw [nextSamesize_modify]
      exact update_eq_self _ _

end remove

/-! ## 管理している page -/

def Heap.ofSize (h : Heap) (all : List Ref) (k : Fin 8) : List Ref :=
  all.filter fun r => (h.pagerefs r).blocktype = k

theorem mem_ofSize {h : Heap} {all : List Ref} {k : Fin 8} {r : Ref} :
    r ∈ h.ofSize all k ↔ r ∈ all ∧ (h.pagerefs r).blocktype = k := by
  simp [Heap.ofSize]

theorem ofSize_congr {h h' : Heap} {all : List Ref} (hpab : ∀ r ∈ all,
    (h'.pagerefs r).pageaddrAndBlocktype = (h.pagerefs r).pageaddrAndBlocktype) (k : Fin 8) :
    h'.ofSize all k = h.ofSize all k :=
  filter_congr fun r hr => by rw [Pageref.blocktype, hpab r hr, Pageref.blocktype]

/-- `all` は全体の列、`free r` は空きの列である。 -/
structure Shape (h : Heap) (all : List Ref) (free : Ref → List Nat) : Prop where
  allLinked : Linked h.nextAll h.allbase all
  /-- 大きさごとの列は、全体の列からその大きさの page を選んだものになる。 -/
  sizeLinked : ∀ k, Linked h.nextSamesize (h.sizebases k) (h.ofSize all k)
  inuse : ∀ r, h.inuse r = true ↔ r ∈ all
  page : ∀ r ∈ all, ∃ k, PageOk h.mem (h.pagerefs r) k (free r)
  /-- 異なる pageref は異なる page を指す。 -/
  addrNodup : (all.map fun r => (h.pagerefs r).pageaddr).Nodup

theorem Pageref.pageaddr_mod (p : Pageref) : p.pageaddr % pageSize = 0 := by
  rw [Pageref.pageaddr, Nat.mul_mod_left]

theorem page_disjoint {p q : Nat} (hp : p % pageSize = 0) (hq : q % pageSize = 0) (hne : p ≠ q) :
    p + pageSize ≤ q ∨ q + pageSize ≤ p := by
  simp only [pageSize] at *
  omega

namespace Shape

variable {h h' : Heap} {all : List Ref} {free : Ref → List Nat} {r : Ref} {k : Fin 8}

section

variable (hs : Shape h all free)

include hs

theorem allNodup : all.Nodup := hs.addrNodup.of_map _

theorem inj {r' : Ref} (hr : r ∈ all) (hr' : r' ∈ all)
    (heq : (h.pagerefs r).pageaddr = (h.pagerefs r').pageaddr) : r = r' :=
  inj_on_of_nodup_map hs.addrNodup hr hr' heq

theorem page_eq (hr : r ∈ all) (hk : (h.pagerefs r).blocktype = k) :
    PageOk h.mem (h.pagerefs r) k (free r) := by
  obtain ⟨k', hp⟩ := hs.page r hr
  obtain rfl : k' = k := Fin.ext (hp.blocktype.symm.trans hk)
  exact hp

theorem replace (hr : r ∈ all) {p : Pageref} {l : List Nat} {mem : Nat → Nat}
    (hp : PageOk mem p k l) (hsame : p.nextSamesize = h.nextSamesize r)
    (hall : p.nextAll = h.nextAll r)
    (hpab : p.pageaddrAndBlocktype = (h.pagerefs r).pageaddrAndBlocktype)
    (hmem : ∀ a, a < p.pageaddr ∨ p.pageaddr + pageSize ≤ a → mem a = h.mem a) :
    Shape { h with pagerefs := update h.pagerefs r p, mem := mem } all (update free r l) := by
  have hpage : ∀ r', ((update h.pagerefs r p) r').pageaddrAndBlocktype =
      (h.pagerefs r').pageaddrAndBlocktype := by
    intro r'
    by_cases heq : r' = r
    · subst heq
      rw [update_self, hpab]
    · rw [update_of_ne heq]
  have haddr : ∀ r', ((update h.pagerefs r p) r').pageaddr = (h.pagerefs r').pageaddr :=
    fun r' => by rw [Pageref.pageaddr, hpage, Pageref.pageaddr]
  have hnextAll : ∀ r', ((update h.pagerefs r p) r').nextAll = (h.pagerefs r').nextAll := by
    intro r'
    by_cases heq : r' = r
    · subst heq
      rw [update_self, hall]
      rfl
    · rw [update_of_ne heq]
  have hnextSame : ∀ r', ((update h.pagerefs r p) r').nextSamesize =
      (h.pagerefs r').nextSamesize := by
    intro r'
    by_cases heq : r' = r
    · subst heq
      rw [update_self, hsame]
      rfl
    · rw [update_of_ne heq]
  refine ⟨hs.allLinked.congr fun r' _ => hnextAll r', fun k' => ?_, hs.inuse, ?_, ?_⟩
  · rw [ofSize_congr fun r' _ => hpage r']
    exact (hs.sizeLinked k').congr fun r' _ => hnextSame r'
  · intro r' hr'
    by_cases heq : r' = r
    · subst heq
      exact ⟨k, by simpa using hp⟩
    · obtain ⟨k', hp'⟩ := hs.page r' hr'
      refine ⟨k', ?_⟩
      dsimp only
      rw [update_of_ne heq, update_of_ne heq]
      -- ほかの page の block は、書き換えた page の外にある
      refine hp'.congr fun b hb => hmem b ?_
      have hbounds := (hp'.blocks b hb).bounds
      have hne : (h.pagerefs r').pageaddr ≠ p.pageaddr := by
        intro haddr'
        have hpr := haddr r
        rw [update_self] at hpr
        exact heq (hs.inj hr' hr (haddr'.trans hpr))
      have hsize := sizes_cases k'
      rcases page_disjoint (Pageref.pageaddr_mod _) (Pageref.pageaddr_mod _) hne with hle | hle
      · exact .inl (by omega)
      · exact .inr (by omega)
  · simpa only [haddr] using hs.addrNodup

theorem doalloc (hr : r ∈ all) {a : Nat} {l : List Nat} (hfree : free r = a :: l) :
    ∃ h', h.doalloc r = some (a, h') ∧ Shape h' all (update free r l) ∧
      ∀ r', (h'.pagerefs r').pageaddrAndBlocktype = (h.pagerefs r').pageaddrAndBlocktype := by
  obtain ⟨k, hp⟩ := hs.page r hr
  rw [hfree] at hp
  obtain ⟨p, halloc, hp', hsame, hall, hpab⟩ := doalloc_eq hp
  refine ⟨_, halloc, hs.replace hr hp' hsame hall hpab fun _ _ => rfl, fun r' => ?_⟩
  by_cases heq : r' = r
  · subst heq
    simpa using hpab
  · simp [heq]

theorem subpageKmalloc (k : Fin 8) :
    h.subpageKmalloc k = some .needPage ∨
      ∃ r a l h', r ∈ all ∧ (h.pagerefs r).blocktype = k ∧ free r = a :: l ∧
        h.subpageKmalloc k = some (.block a h') ∧ Shape h' all (update free r l) ∧
        ∀ r', (h'.pagerefs r').pageaddrAndBlocktype = (h.pagerefs r').pageaddrAndBlocktype := by
  have hsearch : Heap.search h.nextSamesize (fun r => (h.pagerefs r).blocktype = k)
      (fun r => 0 < (h.pagerefs r).nfree) Heap.fuel (h.sizebases k) =
        some ((h.ofSize all k).find? fun r => 0 < (h.pagerefs r).nfree) :=
    search_eq (hs.sizeLinked k) (fun r hr => decide_eq_true (mem_ofSize.mp hr).2)
      (length_lt_fuel (hs.allNodup.filter _))
  rw [Heap.subpageKmalloc, hsearch]
  cases hfind : (h.ofSize all k).find? fun r => 0 < (h.pagerefs r).nfree with
  | none => exact .inl rfl
  | some r =>
    obtain ⟨hr, htype⟩ := mem_ofSize.mp (mem_of_find?_eq_some hfind)
    have hnfree : 0 < (h.pagerefs r).nfree := by simpa using find?_some hfind
    rw [(hs.page_eq hr htype).nfree] at hnfree
    cases hfree : free r with
    | nil => simp [hfree] at hnfree
    | cons a l =>
      obtain ⟨h', halloc, hs', hpab⟩ := hs.doalloc hr hfree
      refine .inr ⟨r, a, l, h', hr, htype, hfree, ?_, hs', hpab⟩
      simp only [halloc]

theorem addPage {page : Nat} (halloc : h.allocpageref = some (r, h')) (hpage : page % pageSize = 0)
    (hpos : 0 < page) (hbound : page + pageSize ≤ 2 ^ 32)
    (hnew : ∀ r' ∈ all, (h.pagerefs r').pageaddr ≠ page) :
    r ∉ all ∧ Shape (h'.addPage r page k) (r :: all)
      (update free r (descending page (sizes k) (nblocks k - 1))) ∧
      ((h'.addPage r page k).pagerefs r).pageaddrAndBlocktype = mkpab page k ∧
      ∀ r', r' ≠ r → (h'.addPage r page k).pagerefs r' = h.pagerefs r' := by
  obtain ⟨hunused, hinuse, hsame⟩ := allocpageref_eq halloc
  obtain ⟨haddr, htype⟩ := mkpab_eq hpage k
  have hr : r ∉ all := by
    intro hmem
    rw [(hs.inuse r).mpr hmem] at hunused
    cases hunused
  have hne : ∀ {r'}, r' ∈ all → r' ≠ r := fun hr' heq => hr (heq ▸ hr')
  have hrefs : ∀ r', r' ≠ r → (h'.addPage r page k).pagerefs r' = h.pagerefs r' := by
    intro r' hr'
    rw [hsame]
    exact update_of_ne hr' _ _
  have hpab : ((h'.addPage r page k).pagerefs r).pageaddrAndBlocktype = mkpab page k := by
    simp [Heap.addPage]
  have hnewaddr : ((h'.addPage r page k).pagerefs r).pageaddr = page := by
    rw [Pageref.pageaddr, hpab, haddr]
  have hnewtype : ((h'.addPage r page k).pagerefs r).blocktype = k := by
    rw [Pageref.blocktype, hpab, htype]
  refine ⟨hr, ⟨?_, ?_, ?_, ?_, ?_⟩, hpab, hrefs⟩
  · refine ⟨rfl, ?_⟩
    have hnext : (h'.addPage r page k).nextAll r = h.allbase := by
      rw [hsame]
      simp [Heap.nextAll, Heap.addPage]
    rw [hnext]
    exact hs.allLinked.congr fun r' hr' => by rw [Heap.nextAll, hrefs r' (hne hr'), Heap.nextAll]
  · intro k'
    have hold : Linked (h'.addPage r page k).nextSamesize (h.sizebases k') (h.ofSize all k') :=
      (hs.sizeLinked k').congr fun r' hr' => by
        rw [Heap.nextSamesize, hrefs r' (hne (mem_ofSize.mp hr').1), Heap.nextSamesize]
    rw [Heap.ofSize, filter_cons, hnewtype, ← Heap.ofSize,
      ofSize_congr (h := h) fun r' hr' => by rw [hrefs r' (hne hr')]]
    by_cases hk' : k' = k
    · subst hk'
      have hnext : (h'.addPage r page k').nextSamesize r = h.sizebases k' := by
        rw [hsame]
        simp [Heap.nextSamesize, Heap.addPage]
      rw [if_pos (by simp)]
      refine ⟨by simp [Heap.addPage], ?_⟩
      rw [hnext]
      exact hold
    · have hbase : (h'.addPage r page k).sizebases k' = h.sizebases k' := by
        rw [hsame]
        exact update_of_ne hk' _ _
      rw [if_neg (by simpa [Fin.val_inj] using Ne.symm hk'), hbase]
      exact hold
  · intro r'
    have hbit : (h'.addPage r page k).inuse r' = (h.inuse r' || decide (r' = r)) := hinuse r'
    rw [hbit, Bool.or_eq_true, hs.inuse, mem_cons, decide_eq_true_eq, or_comm]
  · intro r' hr'
    by_cases heq : r' = r
    · subst heq
      rw [update_self]
      exact ⟨k, addPage_eq k hpage hpos hbound⟩
    · have hmem : r' ∈ all := (mem_cons.mp hr').resolve_left heq
      obtain ⟨k', hp⟩ := hs.page r' hmem
      rw [hrefs r' heq, update_of_ne heq]
      -- 新しい page に書いた語は、ほかの page の外にある
      refine ⟨k', hp.congr fun b hb => ?_⟩
      have hbounds := (hp.blocks b hb).bounds
      have hsize := sizes_cases k'
      have hmemEq : (h'.addPage r page k).mem = Heap.initFreelist h.mem page (sizes k) (nblocks k - 1) := by
        rw [hsame]
        rfl
      rw [hmemEq]
      refine initFreelist_of_not_mem fun hmem' => ?_
      have hbounds' := (mem_descending_iff.mp hmem').bounds
      have hsize' := sizes_cases k
      have hdisj := page_disjoint (Pageref.pageaddr_mod _) hpage (hnew r' hmem)
      omega
  · rw [map_cons, hnewaddr, map_congr_left fun r' hr' => by rw [hrefs r' (hne hr')], nodup_cons, mem_map]
    exact ⟨fun ex => ex.elim fun r' hr' => hnew r' hr'.1 hr'.2, hs.addrNodup⟩

theorem removeLists (hr : r ∈ all) (hk : (h.pagerefs r).blocktype = k) :
    ∃ h', h.removeLists r k = some h' ∧ SamePages h h' ∧ Linked h'.nextAll h'.allbase (all.erase r) ∧
      ∀ k', Linked h'.nextSamesize (h'.sizebases k') (h.ofSize (all.erase r) k') := by
  obtain ⟨a, b, rfl⟩ := append_of_mem hr
  have hnodup := hs.allNodup
  have hnot : r ∉ a := fun hmem => (nodup_append.mp hnodup).2.2 r hmem r mem_cons_self rfl
  have hsplit : h.ofSize (a ++ r :: b) k = h.ofSize a k ++ r :: h.ofSize b k := by
    simp [Heap.ofSize, hk]
  have hlinked := hsplit ▸ hs.sizeLinked k
  obtain ⟨h₁, hremove₁, hsame₁, hchain₁, hbases₁, hnext₁, hnextAll₁, hallbase₁⟩ :=
    removeSamesize_eq hlinked (hsplit ▸ hnodup.filter _)
  have hallLinked := hs.allLinked
  rw [← hnextAll₁, ← hallbase₁] at hallLinked
  obtain ⟨h₂, hremove₂, hsame₂, hall₂, hnext₂, hbases₂⟩ := removeAll_eq hallLinked hnodup
  rw [erase_append_right _ hnot, erase_cons_head]
  refine ⟨h₂, ?_, hsame₁.trans hsame₂, hall₂, fun k' => ?_⟩
  · rw [Heap.removeLists, hremove₁, Option.bind_some, hremove₂]
  · rw [hnext₂, hbases₂]
    by_cases hk' : k' = k
    · subst hk'
      rwa [Heap.ofSize, filter_append]
    · have hkeep : h.ofSize (a ++ b) k' = h.ofSize (a ++ r :: b) k' := by
        simp [Heap.ofSize, hk, Fin.val_inj, Ne.symm hk']
      rw [hbases₁ k' hk', hkeep]
      refine (hs.sizeLinked k').congr fun r' hr' => hnext₁ r' fun hmem => hk' ?_
      rw [← hsplit] at hmem
      exact Fin.ext ((mem_ofSize.mp hr').2.symm.trans (mem_ofSize.mp hmem).2)

theorem remove (hr : r ∈ all) (hk : (h.pagerefs r).blocktype = k) :
    ∃ h', ((h.removeLists r k).bind fun h => h.freepageref r) = some h' ∧
      Shape h' (all.erase r) free ∧
      ∀ r', (h'.pagerefs r').pageaddrAndBlocktype = (h.pagerefs r').pageaddrAndBlocktype := by
  obtain ⟨h₁, hremove, hsame, hall, hchain⟩ := hs.removeLists hr hk
  have hinuse : ∀ r', h₁.inuse r' = h.inuse r' := fun r' => by rw [Heap.inuse, hsame.inuse, Heap.inuse]
  obtain ⟨h₂, hfree, hinuse₂, heq₂⟩ := freepageref_eq ((hinuse r).trans ((hs.inuse r).mpr hr))
  have hrefs : h₂.pagerefs = h₁.pagerefs := by rw [heq₂]
  have hpab : ∀ r', (h₂.pagerefs r').pageaddrAndBlocktype = (h.pagerefs r').pageaddrAndBlocktype :=
    fun r' => by rw [hrefs, hsame.pab]
  have hnot : ∀ r', r' ∈ all.erase r ↔ r' ≠ r ∧ r' ∈ all := fun r' => hs.allNodup.mem_erase_iff
  refine ⟨h₂, by rw [hremove, Option.bind_some, hfree], ⟨?_, fun k' => ?_, ?_, ?_, ?_⟩, hpab⟩
  · rw [heq₂]
    exact hall
  · rw [ofSize_congr fun r' _ => hpab r', heq₂]
    exact hchain k'
  · intro r'
    rw [hinuse₂, hinuse, hnot, Bool.and_eq_true, hs.inuse]
    simp [and_comm]
  · intro r' hr'
    obtain ⟨k', hp⟩ := hs.page r' ((hnot r').mp hr').2
    have hmem : h₂.mem = h.mem := by
      rw [heq₂]
      exact hsame.mem
    rw [hmem, hrefs]
    exact ⟨k', hp.of_eq (hsame.pab r') (hsame.offset r') (hsame.nfree r')⟩
  · simp only [Pageref.pageaddr, hpab]
    exact (hs.addrNodup).sublist (erase_sublist.map _)

theorem subpageNewPage {page : Nat} (hpage : page % pageSize = 0) (hpos : 0 < page)
    (hbound : page + pageSize ≤ 2 ^ 32) (hnew : ∀ r' ∈ all, (h.pagerefs r').pageaddr ≠ page)
    (k : Fin 8) :
    h.subpageNewPage page k = some .noPageref ∨
      ∃ r a l h', r ∉ all ∧ descending page (sizes k) (nblocks k - 1) = a :: l ∧
        h.subpageNewPage page k = some (.block a h') ∧
        Shape h' (r :: all) (update free r l) ∧
        (h'.pagerefs r).pageaddrAndBlocktype = mkpab page k ∧
        ∀ r', r' ≠ r → (h'.pagerefs r').pageaddrAndBlocktype = (h.pagerefs r').pageaddrAndBlocktype := by
  rw [Heap.subpageNewPage]
  cases halloc : h.allocpageref with
  | none => exact .inl rfl
  | some res =>
    obtain ⟨r, h₁⟩ := res
    obtain ⟨hr, hs₁, hpab, hrefs⟩ := hs.addPage (k := k) halloc hpage hpos hbound hnew
    cases hblocks : descending page (sizes k) (nblocks k - 1) with
    | nil =>
      have hlen := length_descending page (sizes k) (nblocks k - 1)
      rw [hblocks] at hlen
      cases hlen
    | cons a l =>
      rw [hblocks] at hs₁
      obtain ⟨h', hdo, hs', hpab'⟩ := hs₁.doalloc mem_cons_self (update_self ..)
      rw [update_idem] at hs'
      refine .inr ⟨r, a, l, h', hr, rfl, ?_, hs', (hpab' r).trans hpab, fun r' hr' => ?_⟩
      · simp only [hdo]
      · rw [hpab', hrefs r' hr']

theorem release (hr : r ∈ all) (hk : (h.pagerefs r).blocktype = k) {ptr : Nat}
    (hptr : IsBlock (h.pagerefs r).pageaddr k ptr) (hnot : ptr ∉ free r) :
    (∃ h', (free r).length + 1 < nblocks k ∧ h.release r ptr k = some (.kept h') ∧
      Shape h' all (update free r (ptr :: free r)) ∧
      ∀ r', (h'.pagerefs r').pageaddrAndBlocktype = (h.pagerefs r').pageaddrAndBlocktype) ∨
    ∃ h', (free r).length + 1 = nblocks k ∧
      h.release r ptr k = some (.whole h' (h.pagerefs r).pageaddr) ∧
      Shape h' (all.erase r) (update free r (ptr :: free r)) ∧
      ∀ r', (h'.pagerefs r').pageaddrAndBlocktype = (h.pagerefs r').pageaddrAndBlocktype := by
  have hp := hs.page_eq hr hk
  have hbounds := hptr.bounds
  have hsize := sizes_cases k
  have hpush := pushFree_eq hp hptr hnot
  have hlen := hpush.length_le
  rw [length_cons] at hlen
  have hrefs : ∀ r', r' ≠ r → (h.pushFree r ptr k).pagerefs r' = h.pagerefs r' :=
    fun r' hr' => update_of_ne hr' _ _
  have hpab : ∀ r', ((h.pushFree r ptr k).pagerefs r').pageaddrAndBlocktype =
      (h.pagerefs r').pageaddrAndBlocktype := by
    intro r'
    by_cases heq : r' = r
    · subst heq
      simp [Heap.pushFree, Heap.modify]
    · rw [hrefs r' heq]
  have hmem : ∀ a, a < (h.pagerefs r).pageaddr ∨ (h.pagerefs r).pageaddr + pageSize ≤ a →
      (h.pushFree r ptr k).mem a = h.mem a := by
    intro a ha
    have hne : a ≠ ptr := by omega
    simp only [Heap.pushFree, update_of_ne hne, Heap.fillDeadbeef]
    rw [if_neg (by omega)]
  have hshape : Shape (h.pushFree r ptr k) all (update free r (ptr :: free r)) := by
    have hrec : h.pushFree r ptr k = { h with
        pagerefs := update h.pagerefs r ((h.pushFree r ptr k).pagerefs r)
        mem := (h.pushFree r ptr k).mem } := by
      simp [Heap.pushFree, Heap.modify]
    have haddr : ((h.pushFree r ptr k).pagerefs r).pageaddr = (h.pagerefs r).pageaddr := by
      rw [Pageref.pageaddr, hpab, Pageref.pageaddr]
    rw [hrec]
    refine hs.replace hr hpush ?_ ?_ (hpab r) ?_
    · simp [Heap.pushFree, Heap.modify, Heap.nextSamesize]
    · simp [Heap.pushFree, Heap.modify, Heap.nextAll]
    · rwa [haddr]
  have hnfree : ((h.pushFree r ptr k).pagerefs r).nfree = (free r).length + 1 := hpush.nfree
  have hoffset : ¬(pageSize ≤ ptr - (h.pagerefs r).pageaddr ∨
      (ptr - (h.pagerefs r).pageaddr) % sizes k ≠ 0) := by
    obtain ⟨i, -, rfl⟩ := hptr
    rw [Nat.add_sub_cancel_left, Nat.mul_mod_left]
    omega
  rw [Heap.release, if_neg hoffset]
  dsimp only
  rw [hnfree, if_neg (by omega)]
  by_cases hall : (free r).length + 1 = nblocks k
  · refine .inr ?_
    obtain ⟨h', hremove, hs', hpab'⟩ := hshape.remove hr (k := k) (by
      rw [Pageref.blocktype, hpab]
      exact hk)
    refine ⟨h', hall, ?_, hs', fun r' => (hpab' r').trans (hpab r')⟩
    rw [if_pos hall, hremove]
    rfl
  · refine .inl ⟨_, by omega, ?_, hshape, hpab⟩
    rw [if_neg hall]

theorem search_page (ptr : Nat) :
    Heap.search h.nextAll (fun r => (h.pagerefs r).blocktype < 8)
      (fun r => (h.pagerefs r).pageaddr ≤ ptr ∧ ptr < (h.pagerefs r).pageaddr + pageSize) Heap.fuel
        h.allbase =
      some (all.find? fun r => (h.pagerefs r).pageaddr ≤ ptr ∧
        ptr < (h.pagerefs r).pageaddr + pageSize) := by
  refine search_eq hs.allLinked (fun r hr => ?_) (length_lt_fuel hs.allNodup)
  obtain ⟨k, hp⟩ := hs.page r hr
  rw [decide_eq_true_eq, hp.blocktype]
  exact k.isLt

theorem subpageKfree_of_mem (hr : r ∈ all) (hk : (h.pagerefs r).blocktype = k) {ptr : Nat}
    (hptr : IsBlock (h.pagerefs r).pageaddr k ptr) : h.subpageKfree ptr = h.release r ptr k := by
  have hbounds := hptr.bounds
  have hsize := sizes_cases k
  have hfind : (all.find? fun r => (h.pagerefs r).pageaddr ≤ ptr ∧
      ptr < (h.pagerefs r).pageaddr + pageSize) = some r := by
    cases hfind : all.find? fun r => (h.pagerefs r).pageaddr ≤ ptr ∧
        ptr < (h.pagerefs r).pageaddr + pageSize with
    | none =>
      have hnone := find?_eq_none.mp hfind r hr
      simp only [decide_eq_true_eq] at hnone
      omega
    | some r' =>
      have hin := find?_some hfind
      simp only [decide_eq_true_eq] at hin
      have haddr : (h.pagerefs r').pageaddr = (h.pagerefs r).pageaddr := by
        by_contra hne
        have hdisj := page_disjoint (Pageref.pageaddr_mod _) (Pageref.pageaddr_mod _) hne
        omega
      rw [hs.inj (mem_of_find?_eq_some hfind) hr haddr]
  have hlt : (h.pagerefs r).blocktype < 8 := hk ▸ k.isLt
  have hkind : (⟨(h.pagerefs r).blocktype, hlt⟩ : Fin 8) = k := Fin.ext hk
  rw [Heap.subpageKfree, hs.search_page, hfind]
  simp only [dif_pos hlt, hkind]

theorem subpageKfree_of_forall {ptr : Nat}
    (hout : ∀ r ∈ all, ptr < (h.pagerefs r).pageaddr ∨ (h.pagerefs r).pageaddr + pageSize ≤ ptr) :
    h.subpageKfree ptr = some .notOurs := by
  have hfind : (all.find? fun r => (h.pagerefs r).pageaddr ≤ ptr ∧
      ptr < (h.pagerefs r).pageaddr + pageSize) = none := by
    rw [find?_eq_none]
    intro r hr
    have hout := hout r hr
    simp only [decide_eq_true_eq]
    omega
  rw [Heap.subpageKfree, hs.search_page, hfind]

theorem write {a value : Nat} (hout : ∀ r ∈ all, a ∉ free r) :
    Shape { h with mem := update h.mem a value } all free := by
  refine { hs with page := fun r hr => ?_ }
  obtain ⟨k, hp⟩ := hs.page r hr
  refine ⟨k, hp.congr fun b hb => update_of_ne ?_ _ _⟩
  rintro rfl
  exact hout r hr hb

end

theorem boot (mem : Nat → Nat) : Shape (boot mem).heap [] fun _ => [] where
  allLinked := rfl
  sizeLinked _ := rfl
  inuse := by simp [Heap.inuse, Kmalloc.boot]
  page := by simp
  addrNodup := .nil

end Shape

end Os161.Kmalloc

