import MsProjects.Os161.Properties.Pageref
import Mathlib.Data.List.Pairwise

/-! # page の持ち主 -/

namespace Os161.Kmalloc

open List Function

variable {sz addr a i ptr : Nat} {k : Fin 8} {r : Ref} {x : Nat × Nat} {c : Call} {h' : Heap}

/-! ## 大きさ -/

theorem exists_blocktype (hsz : sz < largestSubpageSize) :
    ∃ k, blocktype sz = some k ∧ sz ≤ sizes k := by
  rw [largestSubpageSize] at hsz
  cases hfind : blocktype sz with
  | none =>
    have hle : sz ≤ sizes 7 := by
      rw [sizes]
      omega
    exact absurd (decide_eq_true hle) (find?_eq_none.mp hfind 7 (mem_finRange 7))
  | some k => exact ⟨k, rfl, by simpa using find?_some hfind⟩

theorem extent_small (hsz : sz < largestSubpageSize) (hk : blocktype sz = some k) :
    extent sz = sizes k := by
  rw [extent, if_neg (by omega), hk]
  rfl

theorem extent_big (hsz : largestSubpageSize ≤ sz) : extent sz = npages sz * pageSize := if_pos hsz

theorem npages_bounds (hsz : largestSubpageSize ≤ sz) (hmax : sz ≤ 2 ^ 32 - 4096) :
    0 < npages sz ∧ sz ≤ npages sz * pageSize := by
  rw [npages, largestSubpageSize, pageSize] at *
  omega

/-! ## page の持ち主 -/

/-- `free_kpages` に渡した番地。 -/
def Call.freeing : Call → Option Nat
  | .free addr => some addr
  | _ => none

def Call.Ok : Call → Prop
  | .subpage sz => sz < largestSubpageSize
  | .big sz => largestSubpageSize ≤ sz ∧ sz ≤ 2 ^ 32 - 4096
  | .free _ => True

def bigPtrs (live : List (Nat × Nat)) : List Nat :=
  (live.filter fun x => largestSubpageSize ≤ x.2).map Prod.fst

/-- 二つの page の並びは重ならない。 -/
def Apart (p q : Nat × Nat) : Prop := p.1 + p.2 * pageSize ≤ q.1 ∨ q.1 + q.2 * pageSize ≤ p.1

instance : Std.Symm Apart := ⟨fun _ _ h => h.symm⟩

structure Holdings (refs : Ref → Pageref) (s : System) (all : List Ref) (free : Ref → List Nat) : Prop where
  calls : ∀ c ∈ s.calls, c.Ok
  pagesOk : ∀ p ∈ s.pages, p.1 % pageSize = 0 ∧ 0 < p.1 ∧ 0 < p.2 ∧ p.1 + p.2 * pageSize ≤ 2 ^ 32
  pagesApart : s.pages.Pairwise Apart
  /-- どの page にも持ち主が一つある。 -/
  owners : ∀ a, (all.map fun r => (refs r).pageaddr).count a + (bigPtrs s.live).count a +
    (s.calls.filterMap Call.freeing).count a = (s.pages.map Prod.fst).count a
  managed : ∀ r ∈ all, ((refs r).pageaddr, 1) ∈ s.pages
  big : ∀ x ∈ s.live, largestSubpageSize ≤ x.2 → x.2 ≤ 2 ^ 32 - 4096 ∧ (x.1, npages x.2) ∈ s.pages
  small : ∀ x ∈ s.live, x.2 < largestSubpageSize → ∃ r ∈ all, ∃ k, blocktype x.2 = some k ∧
    (refs r).blocktype = k ∧ IsBlock (refs r).pageaddr k x.1
  liveNodup : (s.live.map Prod.fst).Nodup
  /-- 空きの列は、使われていない block をちょうど持つ。 -/
  mem_free : ∀ r ∈ all, ∀ k : Fin 8, (refs r).blocktype = k → ∀ a,
    IsBlock (refs r).pageaddr k a → (a ∈ free r ↔ a ∉ s.live.map Prod.fst)
  /-- 管理している page には使われている block がある。 -/
  occupied : ∀ r ∈ all, ∀ k : Fin 8, (refs r).blocktype = k → (free r).length < nblocks k

structure Owned (s : System) (all : List Ref) (free : Ref → List Nat) : Prop
    extends Holdings s.heap.pagerefs s all free where
  shape : Shape s.heap all free
  panicked : s.panicked = false

theorem Holdings.congr (refs : Ref → Pageref) {refs' : Ref → Pageref} {s : System} {all : List Ref}
    {free : Ref → List Nat}
    (h : Holdings refs s all free)
    (hpab : ∀ r ∈ all, (refs' r).pageaddrAndBlocktype = (refs r).pageaddrAndBlocktype) :
    Holdings refs' s all free := by
  have haddr (r : Ref) (hr : r ∈ all) : (refs' r).pageaddr = (refs r).pageaddr := by
    rw [Pageref.pageaddr, hpab r hr, Pageref.pageaddr]
  have hkind (r : Ref) (hr : r ∈ all) : (refs' r).blocktype = (refs r).blocktype := by
    rw [Pageref.blocktype, hpab r hr, Pageref.blocktype]
  refine { h with owners := ?_, managed := ?_, small := ?_, mem_free := ?_, occupied := ?_ }
  · intro a
    rw [map_congr_left haddr]
    exact h.owners a
  · intro r hr
    rw [haddr r hr]
    exact h.managed r hr
  · intro x hx hsmall
    obtain ⟨r, hr, k, hk, htype, hblock⟩ := h.small x hx hsmall
    exact ⟨r, hr, k, hk, (hkind r hr).trans htype, (haddr r hr).symm ▸ hblock⟩
  · intro r hr k hk a ha
    exact h.mem_free r hr k ((hkind r hr).symm.trans hk) a (haddr r hr ▸ ha)
  · intro r hr k hk
    exact h.occupied r hr k ((hkind r hr).symm.trans hk)

namespace Owned

variable {s t : System} {all : List Ref} {free : Ref → List Nat}

section

variable (hs : Owned s all free)

include hs

theorem nodup_pages : (s.pages.map Prod.fst).Nodup := by
  rw [Nodup, pairwise_map]
  refine hs.pagesApart.imp_of_mem fun {p q} hp hq hapart heq => ?_
  have hp := hs.pagesOk p hp
  have hq := hs.pagesOk q hq
  simp only [Apart, pageSize] at *
  omega

theorem page_unique {p q : Nat × Nat} (hp : p ∈ s.pages) (hq : q ∈ s.pages) (heq : p.1 = q.1) :
    p = q :=
  inj_on_of_nodup_map hs.nodup_pages hp hq heq

theorem apart {p q : Nat × Nat} (hp : p ∈ s.pages) (hq : q ∈ s.pages) (hne : p ≠ q) : Apart p q :=
  hs.pagesApart.forall hp hq hne

theorem count_le_one (a : Nat) :
    (all.map fun r => (s.heap.pagerefs r).pageaddr).count a + (bigPtrs s.live).count a +
      (s.calls.filterMap Call.freeing).count a ≤ 1 := by
  rw [hs.owners]
  exact nodup_iff_count_le_one.mp hs.nodup_pages a

end

theorem count_managed (hr : r ∈ all) :
    0 < (all.map fun r => (s.heap.pagerefs r).pageaddr).count (s.heap.pagerefs r).pageaddr :=
  count_pos_iff.mpr (mem_map_of_mem hr)

theorem count_big (hx : x ∈ s.live) (hbig : largestSubpageSize ≤ x.2) :
    0 < (bigPtrs s.live).count x.1 :=
  count_pos_iff.mpr (mem_map_of_mem (mem_filter.mpr ⟨hx, by simpa using hbig⟩))

theorem count_freeing (h : Call.free addr ∈ s.calls) :
    0 < (s.calls.filterMap Call.freeing).count addr :=
  count_pos_iff.mpr (mem_filterMap.mpr ⟨_, h, rfl⟩)

theorem live_unique (hs : Owned s all free) {y : Nat × Nat} (hx : x ∈ s.live)
    (hy : y ∈ s.live) (heq : x.1 = y.1) : x = y :=
  inj_on_of_nodup_map hs.liveNodup hx hy heq

/-- block は、それを含む page の並びの中にある。 -/
def Inside (x p : Nat × Nat) : Prop := p.1 ≤ x.1 ∧ x.1 + extent x.2 ≤ p.1 + p.2 * pageSize

theorem inside (hs : Owned s all free) (hx : x ∈ s.live) :
    (largestSubpageSize ≤ x.2 ∧ (x.1, npages x.2) ∈ s.pages ∧ Inside x (x.1, npages x.2)) ∨
      ∃ r ∈ all, ∃ k : Fin 8, x.2 < largestSubpageSize ∧ extent x.2 = sizes k ∧
        (s.heap.pagerefs r).blocktype = k ∧ IsBlock (s.heap.pagerefs r).pageaddr k x.1 ∧
        Inside x ((s.heap.pagerefs r).pageaddr, 1) := by
  rcases Nat.lt_or_ge x.2 largestSubpageSize with hsmall | hbig
  · obtain ⟨r, hr, k, hk, htype, hblock⟩ := hs.small x hx hsmall
    refine .inr ⟨r, hr, k, hsmall, extent_small hsmall hk, htype, hblock, ?_⟩
    rw [Inside, extent_small hsmall hk, Nat.one_mul]
    exact hblock.bounds
  · refine .inl ⟨hbig, (hs.big x hx hbig).2, ?_⟩
    rw [Inside, extent_big hbig]
    exact ⟨le_rfl, le_rfl⟩

theorem ref_unique (hs : Owned s all free) {r' : Ref} (hr : r ∈ all) (hr' : r' ∈ all)
    (ha : (s.heap.pagerefs r).pageaddr ≤ a ∧ a < (s.heap.pagerefs r).pageaddr + pageSize)
    (ha' : (s.heap.pagerefs r').pageaddr ≤ a ∧ a < (s.heap.pagerefs r').pageaddr + pageSize) :
    r = r' := by
  refine hs.shape.inj hr hr' ?_
  by_contra hne
  have hdisj := page_disjoint (Pageref.pageaddr_mod _) (Pageref.pageaddr_mod _) hne
  omega

theorem big_apart (hs : Owned s all free) (hx : x ∈ s.live) (hbig : largestSubpageSize ≤ x.2)
    (hr : r ∈ all) : Apart (x.1, npages x.2) ((s.heap.pagerefs r).pageaddr, 1) := by
  refine hs.apart (hs.big x hx hbig).2 (hs.managed r hr) fun heq => ?_
  have hcount := hs.count_le_one x.1
  have hbigCount := count_big hx hbig
  have hmanaged := count_managed (s := s) hr
  rw [← (Prod.mk.inj heq).1] at hmanaged
  omega

/-! ## 呼び出しの出入り -/

theorem calls_concat (hs : Owned s all free) (hok : c.Ok) : ∀ d ∈ s.calls ++ [c], d.Ok := by
  intro d hd
  rcases mem_append.mp hd with hd | hd
  · exact hs.calls d hd
  · exact mem_singleton.mp hd ▸ hok

theorem addCall (hs : Owned s all free) (hok : c.Ok) (hc : c.freeing = none) :
    Owned { s with calls := s.calls ++ [c] } all free := by
  refine { hs with calls := hs.calls_concat hok, owners := fun a => ?_ }
  simpa [filterMap_cons, hc] using hs.owners a

theorem count_eraseIdx {calls : List Call} (h : calls[i]? = some c) (a : Nat) :
    (calls.filterMap Call.freeing).count a =
      c.freeing.toList.count a + ((calls.eraseIdx i).filterMap Call.freeing).count a := by
  obtain ⟨hi, rfl⟩ := List.getElem?_eq_some_iff.mp h
  have hperm := (List.getElem_cons_eraseIdx_perm hi).filterMap Call.freeing
  rw [← hperm.count_eq a, filterMap_cons]
  cases calls[i].freeing with
  | none => simp
  | some b => simp [count_cons, Nat.add_comm]

theorem dropCall (hs : Owned s all free) (hi : s.calls[i]? = some c) (hc : c.freeing = none) :
    Owned { s with calls := s.calls.eraseIdx i } all free := by
  refine { hs with calls := fun d hd => hs.calls d (mem_of_mem_eraseIdx hd), owners := ?_ }
  intro a
  have howners := hs.owners a
  rw [count_eraseIdx hi, hc] at howners
  simpa using howners

/-! ## block を取ること -/

theorem bigPtrs_concat_small {live : List (Nat × Nat)} (hsz : sz < largestSubpageSize) :
    bigPtrs (live ++ [(a, sz)]) = bigPtrs live := by
  simp [bigPtrs, filter_append, Nat.not_le.mpr hsz]

section

variable (hs : Owned s all free)

include hs

theorem take {l : List Nat} (hr : r ∈ all) (htype : (s.heap.pagerefs r).blocktype = k)
    (hfree : free r = a :: l) (hsz : sz < largestSubpageSize) (hk : blocktype sz = some k)
    (hshape : Shape h' all (update free r l))
    (hpab : ∀ r', (h'.pagerefs r').pageaddrAndBlocktype = (s.heap.pagerefs r').pageaddrAndBlocktype) :
    Owned { s with heap := h', live := s.live ++ [(a, sz)] } all (update free r l) := by
  have hpage := hs.shape.page_eq hr htype
  rw [hfree] at hpage
  have hblock := hpage.blocks a mem_cons_self
  have hbounds := hblock.bounds
  have hsize := sizes_cases k
  have hnew : a ∉ s.live.map Prod.fst :=
    (hs.mem_free r hr k htype a hblock).mp (hfree ▸ mem_cons_self)
  refine ⟨Holdings.congr s.heap.pagerefs ?_ fun r' _ => hpab r', hshape, hs.panicked⟩
  refine ⟨hs.calls, hs.pagesOk, hs.pagesApart, ?_, hs.managed, ?_, ?_, ?_, ?_, ?_⟩
  · rw [bigPtrs_concat_small hsz]
    exact hs.owners
  · intro x hx hbig
    rcases mem_append.mp hx with hx | hx
    · exact hs.big x hx hbig
    · obtain rfl := mem_singleton.mp hx
      exact absurd hbig (by simpa using hsz)
  · intro x hx hsmall
    rcases mem_append.mp hx with hx | hx
    · exact hs.small x hx hsmall
    · obtain rfl := mem_singleton.mp hx
      exact ⟨r, hr, k, hk, htype, hblock⟩
  · rw [map_append]
    exact Nodup.append hs.liveNodup (nodup_singleton a) (by simpa using hnew)
  · intro r' hr' k' hk' b hb
    have hold := hs.mem_free r' hr' k' hk' b hb
    rw [map_append, mem_append, not_or, ← hold]
    by_cases heq : r' = r
    · subst heq
      have hnot := (nodup_cons.mp hpage.nodup).1
      rw [update_self, hfree]
      by_cases hba : b = a
      · simp [hba, hnot]
      · simp [hba]
    · have hba : b ≠ a := by
        rintro rfl
        have hb' := hb.bounds
        have hsize' := sizes_cases k'
        exact heq (hs.ref_unique hr' hr ⟨hb'.1, by omega⟩ ⟨hbounds.1, by omega⟩)
      rw [update_of_ne heq]
      simp [hba]
  · intro r' hr' k' hk'
    have hlt := hs.occupied r' hr' k' hk'
    by_cases heq : r' = r
    · subst heq
      rw [hfree, length_cons] at hlt
      rw [update_self]
      omega
    · rw [update_of_ne heq]
      exact hlt

theorem pages_concat {n : Nat} (hpos : addr ≠ 0) (hn : 0 < n) (hfresh : s.Fresh addr n) :
    (∀ p ∈ s.pages ++ [(addr, n)], p.1 % pageSize = 0 ∧ 0 < p.1 ∧ 0 < p.2 ∧ p.1 + p.2 * pageSize ≤ 2 ^ 32) ∧
      (s.pages ++ [(addr, n)]).Pairwise Apart := by
  obtain ⟨halign, hbound, hout⟩ := hfresh
  constructor
  · intro p hp
    rcases mem_append.mp hp with hp | hp
    · exact hs.pagesOk p hp
    · obtain rfl := mem_singleton.mp hp
      exact ⟨halign, Nat.pos_of_ne_zero hpos, hn, hbound.le⟩
  · rw [pairwise_append]
    refine ⟨hs.pagesApart, pairwise_singleton _ _, fun p hp q hq => ?_⟩
    obtain rfl := mem_singleton.mp hq
    exact hout p hp

theorem takeBig (hpos : addr ≠ 0) (hbig : largestSubpageSize ≤ sz) (hmax : sz ≤ 2 ^ 32 - 4096)
    (hfresh : s.Fresh addr (npages sz)) :
    Owned { s with live := s.live ++ [(addr, sz)], pages := s.pages ++ [(addr, npages sz)] }
      all free := by
  obtain ⟨hpagesOk, hpagesApart⟩ := hs.pages_concat hpos (npages_bounds hbig hmax).1 hfresh
  obtain ⟨-, -, hout⟩ := hfresh
  -- 新しい番地は、どの page の中にも無い
  have hnotin : ∀ p ∈ s.pages, ∀ a, p.1 ≤ a → a < p.1 + p.2 * pageSize → a ≠ addr := by
    intro p hp a hle hlt heq
    have hout := hout p hp
    have hn := (npages_bounds hbig hmax).1
    rw [pageSize] at *
    omega
  have hinside : ∀ x ∈ s.live, x.1 ≠ addr := by
    intro x hx
    rcases hs.inside hx with ⟨hb, hp, -⟩ | ⟨r, hr, k, -, -, -, hblock, -⟩
    · have hn := (npages_bounds hb (hs.big x hx hb).1).1
      refine hnotin _ hp x.1 le_rfl ?_
      rw [pageSize]
      omega
    · have hbounds := hblock.bounds
      have hsize := sizes_cases k
      exact hnotin _ (hs.managed r hr) x.1 hbounds.1 (by omega)
  refine ⟨⟨hs.calls, hpagesOk, hpagesApart, ?_, ?_, ?_, ?_, ?_, ?_, hs.occupied⟩, hs.shape, hs.panicked⟩
  · intro a
    have howners := hs.owners a
    have hptrs : bigPtrs (s.live ++ [(addr, sz)]) = bigPtrs s.live ++ [addr] := by
      simp [bigPtrs, filter_append, hbig]
    simp only [hptrs, map_append, map_cons, map_nil, count_append]
    omega
  · exact fun r hr => mem_append_left _ (hs.managed r hr)
  · intro x hx hbig'
    rcases mem_append.mp hx with hx | hx
    · exact ⟨(hs.big x hx hbig').1, mem_append_left _ (hs.big x hx hbig').2⟩
    · obtain rfl := mem_singleton.mp hx
      exact ⟨hmax, mem_append_right _ mem_cons_self⟩
  · intro x hx hsmall
    rcases mem_append.mp hx with hx | hx
    · exact hs.small x hx hsmall
    · obtain rfl := mem_singleton.mp hx
      exact absurd hsmall (Nat.not_lt.mpr hbig)
  · rw [map_append]
    refine Nodup.append hs.liveNodup (nodup_singleton addr) ?_
    simpa using fun x hx => hinside (addr, x) hx
  · intro r hr k hk b hb
    dsimp only at hk hb
    have hbounds := hb.bounds
    have hsize := sizes_cases k
    have hne := hnotin _ (hs.managed r hr) b hbounds.1 (by omega)
    rw [hs.mem_free r hr k hk b hb]
    simp [hne]

theorem giveUp (hpos : addr ≠ 0) (hfresh : s.Fresh addr 1) :
    Owned { s with pages := s.pages ++ [(addr, 1)], calls := s.calls ++ [.free addr] } all free := by
  obtain ⟨hpagesOk, hpagesApart⟩ := hs.pages_concat hpos Nat.one_pos hfresh
  refine { hs with
    calls := hs.calls_concat trivial, pagesOk := hpagesOk, pagesApart := hpagesApart, owners := ?_
    managed := fun r hr => mem_append_left _ (hs.managed r hr)
    big := fun x hx hb => ⟨(hs.big x hx hb).1, mem_append_left _ (hs.big x hx hb).2⟩ }
  · intro a
    have howners := hs.owners a
    simp only [filterMap_append, filterMap_cons, filterMap_nil, Call.freeing, map_append,
      map_cons, map_nil, count_append]
    omega

theorem takeNew {l : List Nat} (hpos : addr ≠ 0) (hfresh : s.Fresh addr 1) (hr : r ∉ all)
    (hblocks : descending addr (sizes k) (nblocks k - 1) = a :: l) (hsz : sz < largestSubpageSize)
    (hk : blocktype sz = some k)
    (hshape : Shape h' (r :: all) (update free r l))
    (hpabNew : (h'.pagerefs r).pageaddrAndBlocktype = mkpab addr k)
    (hpab : ∀ r', r' ≠ r → (h'.pagerefs r').pageaddrAndBlocktype =
      (s.heap.pagerefs r').pageaddrAndBlocktype) :
    Owned { s with heap := h', live := s.live ++ [(a, sz)], pages := s.pages ++ [(addr, 1)] }
      (r :: all) (update free r l) := by
  obtain ⟨hpagesOk, hpagesApart⟩ := hs.pages_concat hpos Nat.one_pos hfresh
  obtain ⟨halign, -, hout⟩ := hfresh
  obtain ⟨hpage, htype⟩ := mkpab_eq halign k
  have hnewAddr : (h'.pagerefs r).pageaddr = addr := by rw [Pageref.pageaddr, hpabNew, hpage]
  have hnewType : (h'.pagerefs r).blocktype = k := by rw [Pageref.blocktype, hpabNew, htype]
  have hne : ∀ {r'}, r' ∈ all → r' ≠ r := fun hr' heq => hr (heq ▸ hr')
  have hold := hs.toHoldings.congr _ fun r' hr' => hpab r' (hne hr')
  have hblock : ∀ b, IsBlock addr k b ↔ b ∈ a :: l := fun b => by rw [← hblocks, mem_descending_iff]
  have hbounds := ((hblock a).mpr mem_cons_self).bounds
  have hsize := sizes_cases k
  have hnodup : (a :: l).Nodup := hblocks ▸ nodup_descending (by omega) _
  -- 新しい page の中には、使われている block が無い
  have hnotin : ∀ x ∈ s.live, x.1 < addr ∨ addr + pageSize ≤ x.1 := by
    intro x hx
    rcases hs.inside hx with ⟨hb, hp, -⟩ | ⟨r', hr', k', -, -, -, hb, -⟩
    · have hn := (npages_bounds hb (hs.big x hx hb).1).1
      have hout := hout _ hp
      simp only [pageSize] at hout ⊢
      omega
    · have hb := hb.bounds
      have hsize' := sizes_cases k'
      have hout := hout _ (hs.managed r' hr')
      simp only at hout
      omega
  have hnew : ∀ b, IsBlock addr k b → b ∉ s.live.map Prod.fst := by
    intro b hb hmem
    obtain ⟨x, hx, rfl⟩ := mem_map.mp hmem
    have hb := hb.bounds
    have hout := hnotin x hx
    omega
  refine ⟨⟨hs.calls, hpagesOk, hpagesApart, ?_, ?_, ?_, ?_, ?_, ?_, ?_⟩, hshape, hs.panicked⟩
  · intro b
    have howners := hold.owners b
    simp only [map_cons, hnewAddr, bigPtrs_concat_small hsz, map_append, map_nil, count_append,
      count_cons, count_nil]
    omega
  · intro r' hr'
    rcases mem_cons.mp hr' with rfl | hr'
    · rw [hnewAddr]
      exact mem_append_right _ mem_cons_self
    · exact mem_append_left _ (hold.managed r' hr')
  · intro x hx hbig
    rcases mem_append.mp hx with hx | hx
    · exact ⟨(hs.big x hx hbig).1, mem_append_left _ (hs.big x hx hbig).2⟩
    · obtain rfl := mem_singleton.mp hx
      exact absurd hbig (by simpa using hsz)
  · intro x hx hsmall
    rcases mem_append.mp hx with hx | hx
    · obtain ⟨r', hr', hblock'⟩ := hold.small x hx hsmall
      exact ⟨r', mem_cons_of_mem _ hr', hblock'⟩
    · obtain rfl := mem_singleton.mp hx
      refine ⟨r, mem_cons_self, k, hk, hnewType, ?_⟩
      rw [hnewAddr]
      exact (hblock a).mpr mem_cons_self
  · rw [map_append]
    refine Nodup.append hs.liveNodup (nodup_singleton a) ?_
    simpa using hnew a ((hblock a).mpr mem_cons_self)
  · intro r' hr' k' hk' b hb
    rw [map_append, mem_append, not_or]
    rcases mem_cons.mp hr' with rfl | hr'
    · obtain rfl : k' = k := Fin.ext (hk'.symm.trans hnewType)
      rw [hnewAddr] at hb
      have hmem := (hblock b).mp hb
      have hnot := (nodup_cons.mp hnodup).1
      rw [update_self]
      by_cases hba : b = a
      · simp [hba, hnot]
      · have hl := (mem_cons.mp hmem).resolve_left hba
        simp only [hl, hnew b hb, map_cons, map_nil, mem_singleton, hba, not_false_iff, and_self]
    · have hba : b ≠ a := by
        have hb' := hb.bounds
        have hsize' := sizes_cases k'
        have hout := hout _ (hold.managed r' hr')
        simp only at hout hb'
        omega
      rw [update_of_ne (hne hr'), hold.mem_free r' hr' k' hk' b hb]
      simp [hba]
  · intro r' hr' k' hk'
    rcases mem_cons.mp hr' with rfl | hr'
    · obtain rfl : k' = k := Fin.ext (hk'.symm.trans hnewType)
      have hlen := length_descending addr (sizes k') (nblocks k' - 1)
      have hn := nblocks_cases k'
      rw [hblocks, length_cons] at hlen
      rw [update_self]
      omega
    · rw [update_of_ne (hne hr')]
      exact hold.occupied r' hr' k' hk'

end

/-! ## block を返すこと -/

theorem mem_live_filter : x ∈ s.live.filter (fun x => x.1 ≠ ptr) ↔ x ∈ s.live ∧ x.1 ≠ ptr := by
  rw [mem_filter, decide_eq_true_eq]

theorem mem_map_filter :
    a ∈ (s.live.filter fun x => x.1 ≠ ptr).map Prod.fst ↔ a ∈ s.live.map Prod.fst ∧ a ≠ ptr := by
  simp only [mem_map, mem_live_filter]
  constructor
  · rintro ⟨x, ⟨hx, hne⟩, rfl⟩
    exact ⟨⟨x, hx, rfl⟩, hne⟩
  · rintro ⟨⟨x, hx, rfl⟩, hne⟩
    exact ⟨x, ⟨hx, hne⟩, rfl⟩

theorem nodup_filter (hs : Owned s all free) (ptr : Nat) :
    ((s.live.filter fun x => x.1 ≠ ptr).map Prod.fst).Nodup :=
  hs.liveNodup.sublist (filter_sublist.map _)

theorem perm_cons_filter {l : List (Nat × Nat)} (hl : (l.map Prod.fst).Nodup) (hx : x ∈ l) :
    l.Perm (x :: l.filter fun y => y.1 ≠ x.1) := by
  obtain ⟨a, b, rfl⟩ := append_of_mem hx
  rw [map_append, map_cons, nodup_append, nodup_cons] at hl
  obtain ⟨-, ⟨hb, -⟩, ha⟩ := hl
  have hfilter : (a ++ x :: b).filter (fun y => y.1 ≠ x.1) = a ++ b := by
    rw [filter_append, filter_cons_of_neg (by simp), filter_eq_self.mpr, filter_eq_self.mpr]
    · intro y hy
      rw [decide_eq_true_eq]
      exact fun heq => hb (heq ▸ mem_map_of_mem hy)
    · intro y hy
      rw [decide_eq_true_eq]
      exact ha y.1 (mem_map_of_mem hy) x.1 mem_cons_self
  rw [hfilter]
  exact perm_middle

section

variable (hs : Owned s all free)

include hs

theorem bigPtrs_filter_small (hx : (ptr, sz) ∈ s.live) (hsz : sz < largestSubpageSize) :
    bigPtrs (s.live.filter fun x => x.1 ≠ ptr) = bigPtrs s.live := by
  rw [bigPtrs, bigPtrs, filter_filter]
  refine congrArg (map Prod.fst) (filter_congr fun x hx' => ?_)
  by_cases heq : x.1 = ptr
  · obtain rfl := hs.live_unique hx' hx heq
    simp [Nat.not_le.mpr hsz]
  · simp [heq]

theorem mem_free_push (hr : r ∈ all) (hblock : IsBlock (s.heap.pagerefs r).pageaddr k ptr)
    {r' : Ref} (hr' : r' ∈ all) {k' : Fin 8} (hk' : (s.heap.pagerefs r').blocktype = k') {b : Nat}
    (hb : IsBlock (s.heap.pagerefs r').pageaddr k' b) :
    b ∈ update free r (ptr :: free r) r' ↔ b ∉ (s.live.filter fun x => x.1 ≠ ptr).map Prod.fst := by
  have hold := hs.mem_free r' hr' k' hk' b hb
  rw [mem_map_filter, not_and_or, ← hold, not_not]
  by_cases heq : r' = r
  · subst heq
    rw [update_self, mem_cons, or_comm]
  · have hne : b ≠ ptr := by
      rintro rfl
      have hbounds := hblock.bounds
      have hsize := sizes_cases k
      have hbounds' := hb.bounds
      have hsize' := sizes_cases k'
      exact heq (hs.ref_unique hr' hr ⟨hbounds'.1, by omega⟩ ⟨hbounds.1, by omega⟩)
    simp [update_of_ne heq, hne]

theorem give (hx : (ptr, sz) ∈ s.live) (hsz : sz < largestSubpageSize) (hr : r ∈ all)
    (htype : (s.heap.pagerefs r).blocktype = k)
    (hblock : IsBlock (s.heap.pagerefs r).pageaddr k ptr) (hlen : (free r).length + 1 < nblocks k)
    (hshape : Shape h' all (update free r (ptr :: free r)))
    (hpab : ∀ r', (h'.pagerefs r').pageaddrAndBlocktype = (s.heap.pagerefs r').pageaddrAndBlocktype) :
    Owned { s with heap := h', live := s.live.filter fun x => x.1 ≠ ptr } all
      (update free r (ptr :: free r)) := by
  refine ⟨Holdings.congr s.heap.pagerefs ?_ fun r' _ => hpab r', hshape, hs.panicked⟩
  refine ⟨hs.calls, hs.pagesOk, hs.pagesApart, ?_, hs.managed, ?_, ?_, hs.nodup_filter ptr, ?_, ?_⟩
  · rw [hs.bigPtrs_filter_small hx hsz]
    exact hs.owners
  · intro x hx' hbig
    exact hs.big x (mem_live_filter.mp hx').1 hbig
  · intro x hx' hsmall
    exact hs.small x (mem_live_filter.mp hx').1 hsmall
  · intro r' hr' k' hk' b hb
    exact hs.mem_free_push hr hblock hr' hk' hb
  · intro r' hr' k' hk'
    by_cases heq : r' = r
    · subst heq
      obtain rfl : k' = k := Fin.ext (hk'.symm.trans htype)
      rw [update_self, length_cons]
      exact hlen
    · rw [update_of_ne heq]
      exact hs.occupied r' hr' k' hk'

theorem giveWhole (hx : (ptr, sz) ∈ s.live) (hsz : sz < largestSubpageSize) (hr : r ∈ all)
    (htype : (s.heap.pagerefs r).blocktype = k)
    (hblock : IsBlock (s.heap.pagerefs r).pageaddr k ptr) (hlen : (free r).length + 1 = nblocks k)
    (hshape : Shape h' (all.erase r) (update free r (ptr :: free r)))
    (hpab : ∀ r', (h'.pagerefs r').pageaddrAndBlocktype = (s.heap.pagerefs r').pageaddrAndBlocktype) :
    Owned { s with
      heap := h'
      live := s.live.filter fun x => x.1 ≠ ptr
      calls := s.calls ++ [.free (s.heap.pagerefs r).pageaddr] }
      (all.erase r) (update free r (ptr :: free r)) := by
  have herase : ∀ {r'}, r' ∈ all.erase r ↔ r' ≠ r ∧ r' ∈ all := hs.shape.allNodup.mem_erase_iff
  have hpage := hs.shape.page_eq hr htype
  -- page のほかの block はどれも空いている
  have hlast : ∀ b, IsBlock (s.heap.pagerefs r).pageaddr k b → b ∈ s.live.map Prod.fst → b = ptr := by
    intro b hb hmem
    by_contra hne
    have hptr : ptr ∉ free r := fun hptr =>
      (hs.mem_free r hr k htype ptr hblock).mp hptr (mem_map_of_mem hx)
    have hnotFree : b ∉ free r := fun hb' => (hs.mem_free r hr k htype b hb).mp hb' hmem
    have hpush := pushFree_eq hpage hblock hptr
    have hfull := hpush.mem_of_full (a := b) (by rw [length_cons]; omega) (by
      simpa [Heap.pushFree, Heap.modify, Pageref.pageaddr] using hb)
    rcases mem_cons.mp hfull with heq | hmem'
    · exact hne heq
    · exact hnotFree hmem'
  refine ⟨Holdings.congr s.heap.pagerefs ?_ fun r' _ => hpab r', hshape, hs.panicked⟩
  refine ⟨hs.calls_concat trivial, hs.pagesOk, hs.pagesApart, ?_, ?_, ?_, ?_, hs.nodup_filter ptr, ?_, ?_⟩
  · intro a
    have howners := hs.owners a
    have hperm := (perm_cons_erase hr).map fun r => (s.heap.pagerefs r).pageaddr
    rw [hperm.count_eq, map_cons, count_cons] at howners
    simp only [hs.bigPtrs_filter_small hx hsz, filterMap_append, filterMap_cons,
      filterMap_nil, Call.freeing, count_append, count_cons, count_nil]
    omega
  · intro r' hr'
    exact hs.managed r' (herase.mp hr').2
  · intro x hx' hbig
    exact hs.big x (mem_live_filter.mp hx').1 hbig
  · intro x hx' hsmall
    obtain ⟨hlive, hne⟩ := mem_live_filter.mp hx'
    obtain ⟨r', hr', k', hk', htype', hblock'⟩ := hs.small x hlive hsmall
    have hr'r : r' ≠ r := by
      rintro rfl
      obtain rfl : k' = k := Fin.ext (htype'.symm.trans htype)
      exact hne (hlast x.1 hblock' (mem_map_of_mem hlive))
    exact ⟨r', herase.mpr ⟨hr'r, hr'⟩, k', hk', htype', hblock'⟩
  · intro r' hr' k' hk' b hb
    exact hs.mem_free_push hr hblock (herase.mp hr').2 hk' hb
  · intro r' hr' k' hk'
    obtain ⟨hne, hr'⟩ := herase.mp hr'
    rw [update_of_ne hne]
    exact hs.occupied r' hr' k' hk'

theorem giveBig (hx : (ptr, sz) ∈ s.live) (hbig : largestSubpageSize ≤ sz) :
    Owned { s with live := s.live.filter fun x => x.1 ≠ ptr, calls := s.calls ++ [.free ptr] }
      all free := by
  refine { hs with
    calls := hs.calls_concat trivial, owners := ?_, liveNodup := hs.nodup_filter ptr, mem_free := ?_
    big := fun x hx' hb => hs.big x (mem_live_filter.mp hx').1 hb
    small := fun x hx' hb => hs.small x (mem_live_filter.mp hx').1 hb }
  · intro a
    have howners := hs.owners a
    have hptrs : (bigPtrs s.live).count a =
        (bigPtrs (s.live.filter fun x => x.1 ≠ ptr)).count a + if ptr = a then 1 else 0 := by
      have hperm := ((perm_cons_filter hs.liveNodup hx).filter fun x =>
        largestSubpageSize ≤ x.2).map Prod.fst
      rw [filter_cons_of_pos (by simpa using hbig), map_cons] at hperm
      rw [bigPtrs, hperm.count_eq a, count_cons]
      simp [bigPtrs]
    simp only [filterMap_append, filterMap_cons, filterMap_nil, Call.freeing,
      count_append, count_cons, count_nil, beq_iff_eq]
    omega
  · intro r hr k hk b hb
    dsimp only at hk hb
    have hne : b ≠ ptr := by
      have hbounds := hb.bounds
      have hsize := sizes_cases k
      have happart := hs.big_apart hx hbig hr
      have hn := (npages_bounds hbig (hs.big _ hx hbig).1).1
      simp only [Apart, pageSize] at *
      omega
    rw [hs.mem_free r hr k hk b hb, mem_map_filter]
    simp [hne]

theorem freed (hi : s.calls[i]? = some (.free addr)) :
    Owned { s with calls := s.calls.eraseIdx i, pages := s.pages.filter fun p => p.1 ≠ addr }
      all free := by
  have hcount := hs.count_le_one addr
  have hfreeing := count_freeing (mem_of_getElem? hi)
  have hmem : ∀ {p}, p ∈ s.pages.filter (fun p => p.1 ≠ addr) ↔ p ∈ s.pages ∧ p.1 ≠ addr := by
    simp
  refine { hs with
    calls := fun c hc => hs.calls c (mem_of_mem_eraseIdx hc)
    pagesOk := fun p hp => hs.pagesOk p (hmem.mp hp).1
    pagesApart := hs.pagesApart.filter _
    owners := ?_, managed := ?_, big := ?_ }
  · intro a
    have howners := hs.owners a
    obtain ⟨p, hp, rfl⟩ : ∃ p ∈ s.pages, p.1 = addr := by
      have hpos : 0 < (s.pages.map Prod.fst).count addr := by
        rw [← hs.owners]
        omega
      simpa using count_pos_iff.mp hpos
    have hperm := (perm_cons_filter hs.nodup_pages hp).map Prod.fst
    rw [count_eraseIdx hi, hperm.count_eq a, map_cons, count_cons, Call.freeing,
      Option.toList_some, count_singleton] at howners
    dsimp only
    omega
  · intro r hr
    refine hmem.mpr ⟨hs.managed r hr, fun heq => ?_⟩
    have hmanaged := count_managed (s := s) hr
    simp only at heq
    rw [heq] at hmanaged
    omega
  · intro x hx hbig
    dsimp only at hx
    refine ⟨(hs.big x hx hbig).1, hmem.mpr ⟨(hs.big x hx hbig).2, fun heq => ?_⟩⟩
    have hbigCount := count_big hx hbig
    simp only at heq
    rw [heq] at hbigCount
    omega

theorem disjoint_free (hx : x ∈ s.live) (hr : r ∈ all) (ha : a ∈ free r) :
    x.1 + extent x.2 ≤ a ∨ a + 16 ≤ x.1 := by
  obtain ⟨k, hp⟩ := hs.shape.page r hr
  have hblock := hp.blocks a ha
  have hbounds := hblock.bounds
  have hsize := sizes_cases k
  rcases hs.inside hx with ⟨hbig, -, hin⟩ | ⟨r', hr', k', -, hext, htype', hblock', hin⟩
  · have hapart := hs.big_apart hx hbig hr
    simp only [Apart, Inside] at hapart hin
    omega
  · by_cases heq : r = r'
    · subst heq
      obtain rfl : k' = k := Fin.ext (htype'.symm.trans hp.blocktype)
      have hne : a ≠ x.1 := fun heq =>
        (hs.mem_free r hr k' htype' a hblock).mp ha (heq ▸ mem_map_of_mem hx)
      have hdisj := hblock.disjoint hblock' hne
      omega
    · have hdisj := page_disjoint (Pageref.pageaddr_mod _) (Pageref.pageaddr_mod _)
        fun haddr => heq (hs.shape.inj hr hr' haddr)
      simp only [Inside] at hin
      omega

theorem write (ha : s.Writable a) (value : Nat) :
    Owned { s with heap := { s.heap with mem := update s.heap.mem a value } } all free := by
  refine { hs with shape := hs.shape.write fun r hr hmem => ?_ }
  rcases ha with ⟨x, hx, hle, hlt⟩ | hout
  · have hdisj := hs.disjoint_free hx hr hmem
    omega
  · obtain ⟨k, hp⟩ := hs.shape.page r hr
    have hbounds := (hp.blocks a hmem).bounds
    have hsize := sizes_cases k
    have hout := hout _ (hs.managed r hr)
    simp only at hout
    omega

end

end Owned

end Os161.Kmalloc

