import MsProjects.Infra.Run
import MsProjects.Os161.Properties.Owned

/-! # `kmalloc` と `kfree` の列 -/

namespace Os161.Kmalloc

open List Function

open Infra (Linked)

/-! ## step -/

section step

variable {s t : System} {all : List Ref} {free : Ref → List Nat}

/-- 不変量を満たす列がある。 -/
def Inv (s : System) : Prop := ∃ all free, Owned s all free

theorem Inv.boot (mem : Nat → Nat) : Inv (boot mem) := by
  refine ⟨[], fun _ => [], ⟨?_, ?_, .nil, ?_, ?_, ?_, ?_, .nil, ?_, ?_⟩, .boot mem, rfl⟩ <;>
    simp [Kmalloc.boot, bigPtrs]

theorem Owned.kmalloc (hs : Owned s all free) {sz : Nat} (hmax : sz ≤ 2 ^ 32 - 4096) :
    Inv (s.kmalloc sz) := by
  rw [System.kmalloc]
  split
  · rename_i hbig
    exact ⟨_, _, hs.addCall ⟨hbig, hmax⟩ rfl⟩
  · rename_i hsmall
    rw [Nat.not_le] at hsmall
    obtain ⟨k, hk, -⟩ := exists_blocktype hsmall
    rcases hs.shape.subpageKmalloc k with hneed | ⟨r, a, l, h', hr, htype, hfree, heq, hshape, hpab⟩
    · simp only [hk, hneed]
      exact ⟨_, _, hs.addCall hsmall rfl⟩
    · simp only [hk, heq]
      exact ⟨_, _, hs.take hr htype hfree hsmall hk hshape hpab⟩

theorem Owned.newPage (hs : Owned s all free) {sz addr : Nat} (hsz : sz < largestSubpageSize)
    (hpos : addr ≠ 0) (hfresh : s.Fresh addr 1) : Inv (s.newPage sz addr) := by
  obtain ⟨k, hk, -⟩ := exists_blocktype hsz
  obtain ⟨halign, hbound, hout⟩ := id hfresh
  have hnew : ∀ r ∈ all, (s.heap.pagerefs r).pageaddr ≠ addr := by
    intro r hr heq
    have hout := hout _ (hs.managed r hr)
    simp only [pageSize] at hout
    omega
  rw [System.newPage]
  rcases hs.shape.subpageNewPage halign (Nat.pos_of_ne_zero hpos) (by simpa using hbound.le) hnew k with
    hnone | ⟨r, a, l, h', hr, hblocks, heq, hshape, hpabNew, hpab⟩
  · simp only [hk, hnone]
    exact ⟨_, _, hs.giveUp hpos hfresh⟩
  · simp only [hk, heq]
    exact ⟨_, _, hs.takeNew hpos hfresh hr hblocks hsz hk hshape hpabNew hpab⟩

theorem Owned.kfree (hs : Owned s all free) {ptr : Nat} (hptr : ptr = 0 ∨ ptr ∈ s.live.map Prod.fst) :
    Inv (s.kfree ptr) := by
  rw [System.kfree]
  split
  · exact ⟨_, _, hs⟩
  · rename_i hne
    obtain ⟨⟨ptr, sz⟩, hx, rfl⟩ := mem_map.mp (hptr.resolve_left hne)
    rcases hs.inside hx with ⟨hbig, hp, -⟩ | ⟨r, hr, k, hsmall, -, htype, hblock, -⟩
    · have hout : ∀ r ∈ all, ptr < (s.heap.pagerefs r).pageaddr ∨
          (s.heap.pagerefs r).pageaddr + pageSize ≤ ptr := by
        intro r hr
        have hapart := hs.big_apart hx hbig hr
        have hn : 0 < npages sz := (npages_bounds hbig (hs.big _ hx hbig).1).1
        simp only [Apart, pageSize] at hapart ⊢
        omega
      have halign : ¬ ptr % pageSize ≠ 0 := not_not.mpr (hs.pagesOk _ hp).1
      simp only [hs.shape.subpageKfree_of_forall hout, if_neg halign]
      exact ⟨_, _, hs.giveBig hx hbig⟩
    · have hnot : ptr ∉ free r := fun hmem =>
        (hs.mem_free r hr k htype ptr hblock).mp hmem (mem_map_of_mem hx)
      simp only [hs.shape.subpageKfree_of_mem hr htype hblock]
      rcases hs.shape.release hr htype hblock hnot with
        ⟨h', hlen, heq, hshape, hpab⟩ | ⟨h', hlen, heq, hshape, hpab⟩
      · simp only [heq]
        exact ⟨_, _, hs.give hx hsmall hr htype hblock hlen hshape hpab⟩
      · simp only [heq]
        exact ⟨_, _, hs.giveWhole hx hsmall hr htype hblock hlen hshape hpab⟩

def Step (s : System) (op : Op) (t : System) : Prop := s.step op = some t

/-- 一つの step ができること。 -/
inductive Next (s : System) : Op → System → Prop where
  | kmalloc {sz : Nat} : sz ≤ 2 ^ 32 - 4096 → Next s (.kmalloc sz) (s.kmalloc sz)
  | failed {i : Nat} {c : Call} : s.calls[i]? = some c → c.freeing = none →
      Next s (.allocated i 0) { s with calls := s.calls.eraseIdx i }
  | newPage {i sz addr : Nat} : s.calls[i]? = some (.subpage sz) → addr ≠ 0 → s.Fresh addr 1 →
      Next s (.allocated i addr) (System.newPage { s with calls := s.calls.eraseIdx i } sz addr)
  | big {i sz addr : Nat} : s.calls[i]? = some (.big sz) → addr ≠ 0 → s.Fresh addr (npages sz) →
      Next s (.allocated i addr) { s with
        calls := s.calls.eraseIdx i
        live := s.live ++ [(addr, sz)]
        pages := s.pages ++ [(addr, npages sz)] }
  | kfree {ptr : Nat} : ptr = 0 ∨ ptr ∈ s.live.map Prod.fst → Next s (.kfree ptr) (s.kfree ptr)
  | freed {i addr : Nat} : s.calls[i]? = some (.free addr) →
      Next s (.freed i) { s with
        calls := s.calls.eraseIdx i
        pages := s.pages.filter fun p => p.1 ≠ addr }
  | write {a value : Nat} : s.Writable a →
      Next s (.write a value) { s with heap := { s.heap with mem := update s.heap.mem a value } }

theorem step_cases {op : Op} (h : Step s op t) : Next s op t := by
  cases op with
  | kmalloc | kfree | write =>
    simp only [Step, System.step, Option.ite_none_right_eq_some, Option.some.injEq] at h
    obtain ⟨hguard, rfl⟩ := h
    constructor
    exact hguard.2
  | allocated i addr =>
    simp only [Step, System.step, Option.ite_none_right_eq_some] at h
    obtain ⟨-, h⟩ := h
    split at h
    · rename_i hi
      split at h
      · next hzero =>
        cases h
        exact hzero ▸ .failed hi rfl
      · next hpos =>
        simp only [Option.ite_none_right_eq_some, Option.some.injEq] at h
        obtain ⟨hfresh, rfl⟩ := h
        exact .newPage hi hpos hfresh
    · rename_i hi
      split at h
      · next hzero =>
        cases h
        exact hzero ▸ .failed hi rfl
      · next hpos =>
        simp only [Option.ite_none_right_eq_some, Option.some.injEq] at h
        obtain ⟨hfresh, rfl⟩ := h
        exact .big hi hpos hfresh
    · cases h
  | freed i =>
    simp only [Step, System.step, Option.ite_none_right_eq_some] at h
    obtain ⟨-, h⟩ := h
    split at h
    · rename_i hi
      cases h
      exact .freed hi
    · cases h

theorem Inv.step {op : Op} (hs : Inv s) (h : Step s op t) : Inv t := by
  obtain ⟨all, free, hs⟩ := hs
  cases step_cases h with
  | kmalloc hmax => exact hs.kmalloc hmax
  | failed hi hfreeing => exact ⟨_, _, hs.dropCall hi hfreeing⟩
  | newPage hi hpos hfresh =>
    exact (hs.dropCall hi rfl).newPage (hs.calls _ (mem_of_getElem? hi)) hpos hfresh
  | big hi hpos hfresh =>
    obtain ⟨hbig, hmax⟩ := hs.calls _ (mem_of_getElem? hi)
    exact ⟨_, _, (hs.dropCall hi rfl).takeBig hpos hbig hmax hfresh⟩
  | kfree hptr => exact hs.kfree hptr
  | freed hi => exact ⟨_, _, hs.freed hi⟩
  | write hwritable => exact ⟨_, _, hs.write hwritable _⟩

theorem kmalloc_frame (s : System) (sz : Nat) :
    s.live ⊆ (s.kmalloc sz).live ∧ (s.kmalloc sz).pages = s.pages := by
  rw [System.kmalloc]
  split
  · exact ⟨fun _ hx => hx, rfl⟩
  · split
    · exact ⟨fun _ hx => hx, rfl⟩
    · split
      · exact ⟨fun _ hx => hx, rfl⟩
      · exact ⟨fun _ hx => hx, rfl⟩
      · exact ⟨fun _ hx => mem_append_left _ hx, rfl⟩

/-- 新しい page は、pageref が残っていれば管理する page に加わり、残っていなければ返される。 -/
theorem newPage_cases (s : System) (sz addr : Nat) :
    s.newPage sz addr = s.panic ∨
      s.heap.findPageref = none ∧ s.newPage sz addr =
        { s with pages := s.pages ++ [(addr, 1)], calls := s.calls ++ [.free addr] } ∨
      ∃ r heap ptr, s.heap.findPageref = some r ∧ s.newPage sz addr =
        { s with heap := heap, live := s.live ++ [(ptr, sz)], pages := s.pages ++ [(addr, 1)] } := by
  rw [System.newPage]
  split
  · exact .inl rfl
  · rw [Heap.subpageNewPage, Heap.allocpageref]
    cases hfind : s.heap.findPageref with
    | none => exact .inr (.inl ⟨rfl, rfl⟩)
    | some r =>
      dsimp only
      cases Heap.doalloc _ r with
      | none => exact .inl rfl
      | some res => exact .inr (.inr ⟨r, _, _, rfl, rfl⟩)

theorem kfree_frame (s : System) (ptr : Nat) :
    (∀ x ∈ s.live, x ∈ (s.kfree ptr).live ∨ x.1 = ptr) ∧ (s.kfree ptr).pages = s.pages := by
  have hkeep : ∀ x ∈ s.live, x ∈ (s.live.filter fun x => x.1 ≠ ptr) ∨ x.1 = ptr := by
    intro x hx
    by_cases heq : x.1 = ptr
    · exact .inr heq
    · exact .inl (Owned.mem_live_filter.mpr ⟨hx, heq⟩)
  rw [System.kfree]
  split
  · exact ⟨fun x hx => .inl hx, rfl⟩
  · dsimp only
    split
    · exact ⟨hkeep, rfl⟩
    · split
      · exact ⟨hkeep, rfl⟩
      · exact ⟨hkeep, rfl⟩
    · exact ⟨hkeep, rfl⟩
    · exact ⟨hkeep, rfl⟩

theorem step_frame {op : Op} (h : Step s op t) :
    (∀ x ∈ s.live, x ∈ t.live ∨ op = .kfree x.1) ∧
      ∀ p ∈ s.pages, p ∈ t.pages ∨ Call.free p.1 ∈ s.calls := by
  cases step_cases h with
  | kmalloc =>
    obtain ⟨hlive, hpages⟩ := kmalloc_frame s _
    exact ⟨fun x hx => .inl (hlive hx), fun p hp => .inl (hpages ▸ hp)⟩
  | failed | write => exact ⟨fun x hx => .inl hx, fun p hp => .inl hp⟩
  | @newPage i sz addr =>
    rcases newPage_cases { s with calls := s.calls.eraseIdx i } sz addr with
      heq | ⟨-, heq⟩ | ⟨r, heap, ptr, -, heq⟩ <;> rw [heq]
    · exact ⟨fun x hx => .inl hx, fun p hp => .inl hp⟩
    · exact ⟨fun x hx => .inl hx, fun p hp => .inl (mem_append_left _ hp)⟩
    · exact ⟨fun x hx => .inl (mem_append_left _ hx), fun p hp => .inl (mem_append_left _ hp)⟩
  | big =>
    exact ⟨fun x hx => .inl (mem_append_left _ hx), fun p hp => .inl (mem_append_left _ hp)⟩
  | kfree =>
    obtain ⟨hlive, hpages⟩ := kfree_frame s _
    exact ⟨fun x hx => (hlive x hx).imp id fun heq => by rw [heq], fun p hp => .inl (hpages ▸ hp)⟩
  | @freed i addr hi =>
    refine ⟨fun x hx => .inl hx, fun p hp => ?_⟩
    by_cases heq : p.1 = addr
    · exact .inr (heq ▸ mem_of_getElem? hi)
    · exact .inl (mem_filter.mpr ⟨hp, by simpa using heq⟩)

end step

/-! ## block と page の整合 -/

structure Consistent (s : System) (all : List Ref) (chain : Fin 8 → List Ref) (free : Ref → List Nat) :
    Prop where
  /-- 使われている block は重ならない。 -/
  disjoint : s.live.Pairwise fun x y => x.1 + extent x.2 ≤ y.1 ∨ y.1 + extent y.2 ≤ x.1
  /-- block は引数の大きさを持つ。 -/
  fits : ∀ x ∈ s.live, x.2 ≤ extent x.2
  allLinked : Linked s.heap.nextAll s.heap.allbase all
  allNodup : all.Nodup
  sizeLinked : ∀ k, Linked s.heap.nextSamesize (s.heap.sizebases k) (chain k)
  sizeNodup : ∀ k, (chain k).Nodup
  /-- 使われている pageref は全体の列にある。 -/
  inuse : ∀ r, s.heap.inuse r = true ↔ r ∈ all
  /-- 管理している page の pageref は、ちょうど一つの大きさの列にある。 -/
  oneSize : ∀ r, r ∈ all ↔ ∃! k, r ∈ chain k
  /-- 空きの列は、使われていない block をちょうど一度ずつ通る。 -/
  freelist : ∀ r ∈ all, ∃ k : Fin 8, (s.heap.pagerefs r).blocktype = k ∧ r ∈ chain k ∧
    Linked (nextFree s.heap.mem) (s.heap.pagerefs r).head (free r) ∧ (free r).Nodup ∧
    ∀ a, a ∈ free r ↔ IsBlock (s.heap.pagerefs r).pageaddr k a ∧ a ∉ s.live.map Prod.fst
  nfree : ∀ r ∈ all, (s.heap.pagerefs r).nfree = (free r).length
  offset : ∀ r ∈ all, (s.heap.pagerefs r).freelistOffset = invalidOffset ↔ free r = []
  managed : ∀ r ∈ all, ((s.heap.pagerefs r).pageaddr, 1) ∈ s.pages
  /-- 使われている block は、`alloc_kpages` の返した page の中にある。 -/
  inside : ∀ x ∈ s.live, ∃ p ∈ s.pages, Owned.Inside x p
  /-- page は、中に使われている block が無いとき、そのときに限り `free_kpages` に渡してある。 -/
  givenBack : ∀ p ∈ s.pages, Call.free p.1 ∈ s.calls ↔ ∀ x ∈ s.live, ¬ Owned.Inside x p
  /-- 渡した page はまだ返しておらず、一度しか渡していない。 -/
  once : (s.calls.filterMap Call.freeing).Nodup ∧
    ∀ addr, Call.free addr ∈ s.calls → addr ∈ s.pages.map Prod.fst

namespace Owned

variable {s t : System} {all : List Ref} {free : Ref → List Nat}

section

variable (hs : Owned s all free)

include hs

theorem disjoint {x y : Nat × Nat} (hx : x ∈ s.live) (hy : y ∈ s.live) (hne : x.1 ≠ y.1) :
    x.1 + extent x.2 ≤ y.1 ∨ y.1 + extent y.2 ≤ x.1 := by
  rcases hs.inside hx with ⟨hbx, hpx, hix⟩ | ⟨r, hr, k, -, hex, hkx, hbx, hix⟩ <;>
    rcases hs.inside hy with ⟨hby, hpy, hiy⟩ | ⟨r', hr', k', -, hey, hky, hby, hiy⟩
  · have hapart := hs.apart hpx hpy fun heq => hne (Prod.mk.inj heq).1
    simp only [Apart, Inside] at hapart hix hiy
    omega
  · have hapart := hs.big_apart hx hbx hr'
    simp only [Apart, Inside] at hapart hix hiy
    omega
  · have hapart := hs.big_apart hy hby hr
    simp only [Apart, Inside] at hapart hix hiy
    omega
  · by_cases heq : r = r'
    · subst heq
      obtain rfl : k = k' := Fin.ext (hkx.symm.trans hky)
      rw [hex, hey]
      exact hbx.disjoint hby hne
    · have haddr : (s.heap.pagerefs r).pageaddr ≠ (s.heap.pagerefs r').pageaddr :=
        fun haddr => heq (hs.shape.inj hr hr' haddr)
      have hdisj := page_disjoint (Pageref.pageaddr_mod _) (Pageref.pageaddr_mod _) haddr
      simp only [Inside] at hix hiy
      omega

theorem extent_pos {x : Nat × Nat} (hx : x ∈ s.live) : 0 < extent x.2 ∧ x.2 ≤ extent x.2 := by
  rcases Nat.lt_or_ge x.2 largestSubpageSize with hsmall | hbig
  · obtain ⟨k, hk, hle⟩ := exists_blocktype hsmall
    have hsize := sizes_cases k
    rw [extent_small hsmall hk]
    omega
  · have hn := npages_bounds hbig (hs.big x hx hbig).1
    rw [extent_big hbig]
    rw [largestSubpageSize] at hbig
    omega

theorem exists_live {r : Ref} (hr : r ∈ all) :
    ∃ x ∈ s.live, Inside x ((s.heap.pagerefs r).pageaddr, 1) := by
  obtain ⟨k, hp⟩ := hs.shape.page r hr
  have hlt := hs.occupied r hr k hp.blocktype
  obtain ⟨a, ha, hnot⟩ : ∃ a, IsBlock (s.heap.pagerefs r).pageaddr k a ∧ a ∉ free r := by
    by_contra hall
    push Not at hall
    have hsize := sizes_cases k
    have hn := nblocks_cases k
    have hnodup : (descending (s.heap.pagerefs r).pageaddr (sizes k) (nblocks k - 1)).Nodup :=
      nodup_descending (by omega) _
    have hle := (subperm_of_subset hnodup fun a ha => hall a (mem_descending_iff.mp ha)).length_le
    rw [length_descending] at hle
    omega
  obtain ⟨x, hx, rfl⟩ := mem_map.mp
    (not_not.mp fun hlive => hnot ((hs.mem_free r hr k hp.blocktype a ha).mpr hlive))
  refine ⟨x, hx, ?_⟩
  have hbounds := ha.bounds
  have hsize := sizes_cases k
  rcases hs.inside hx with ⟨hbig, -, -⟩ | ⟨r', hr', k', -, -, -, hblock', hin⟩
  · have hapart := hs.big_apart hx hbig hr
    have hpos := (npages_bounds hbig (hs.big x hx hbig).1).1
    simp only [Apart, pageSize] at hapart hbounds hsize
    omega
  · have hbounds' := hblock'.bounds
    have hsize' := sizes_cases k'
    obtain rfl := hs.ref_unique hr hr' ⟨hbounds.1, by omega⟩ ⟨hbounds'.1, by omega⟩
    exact hin

theorem owner {p : Nat × Nat} (hp : p ∈ s.pages) :
    (∃ r ∈ all, p = ((s.heap.pagerefs r).pageaddr, 1)) ∨
      (∃ x ∈ s.live, largestSubpageSize ≤ x.2 ∧ p = (x.1, npages x.2)) ∨ Call.free p.1 ∈ s.calls := by
  have hcount : 0 < (s.pages.map Prod.fst).count p.1 := count_pos_iff.mpr (mem_map_of_mem hp)
  rw [← hs.owners] at hcount
  rcases Nat.eq_zero_or_pos ((s.calls.filterMap Call.freeing).count p.1) with hfree | hfree
  · rcases Nat.eq_zero_or_pos ((bigPtrs s.live).count p.1) with hbig | hbig
    · obtain ⟨r, hr, heq⟩ := mem_map.mp (count_pos_iff.mp (show 0 < (all.map fun r =>
        (s.heap.pagerefs r).pageaddr).count p.1 by omega))
      exact .inl ⟨r, hr, hs.page_unique hp (hs.managed r hr) heq.symm⟩
    · obtain ⟨x, hx, heq⟩ := mem_map.mp (count_pos_iff.mp hbig)
      obtain ⟨hx, hbig⟩ := mem_filter.mp hx
      rw [decide_eq_true_eq] at hbig
      exact .inr (.inl ⟨x, hx, hbig, hs.page_unique hp (hs.big x hx hbig).2 heq.symm⟩)
  · obtain ⟨c, hc, heq⟩ := mem_filterMap.mp (count_pos_iff.mp hfree)
    cases c with
    | subpage | big => cases heq
    | free addr =>
      obtain rfl : addr = p.1 := Option.some.inj heq
      exact .inr (.inr hc)

theorem givenBack {p : Nat × Nat} (hp : p ∈ s.pages) :
    Call.free p.1 ∈ s.calls ↔ ∀ x ∈ s.live, ¬ Inside x p := by
  constructor
  · intro hfree x hx hin
    have hcount := hs.count_le_one p.1
    have hfreeing := count_freeing hfree
    have hpos := (hs.extent_pos hx).1
    rcases hs.inside hx with ⟨hbig, hpx, hix⟩ | ⟨r, hr, k, -, -, -, hblock, hix⟩
    · have hbigCount := count_big hx hbig
      by_cases heq : p = (x.1, npages x.2)
      · rw [heq] at hcount hfreeing
        simp only at hcount hfreeing
        omega
      · have hapart := hs.apart hp hpx heq
        simp only [Apart, Inside] at hapart hin hix
        omega
    · have hmanaged := count_managed (s := s) hr
      by_cases heq : p = ((s.heap.pagerefs r).pageaddr, 1)
      · rw [heq] at hcount hfreeing
        simp only at hcount hfreeing
        omega
      · have hapart := hs.apart hp (hs.managed r hr) heq
        simp only [Apart, Inside] at hapart hin hix
        omega
  · intro hnone
    rcases hs.owner hp with ⟨r, hr, rfl⟩ | ⟨x, hx, hbig, rfl⟩ | hfree
    · obtain ⟨x, hx, hin⟩ := hs.exists_live hr
      exact absurd hin (hnone x hx)
    · refine absurd ?_ (hnone x hx)
      rw [Inside, extent_big hbig]
      exact ⟨le_rfl, le_rfl⟩
    · exact hfree

theorem not_freeing {addr n : Nat} (hn : 0 < n) (hfresh : s.Fresh addr n) :
    Call.free addr ∉ s.calls := by
  intro hfree
  have hcount := count_freeing hfree
  have howners := hs.owners addr
  obtain ⟨p, hp, rfl⟩ := mem_map.mp (count_pos_iff.mp (show 0 < (s.pages.map Prod.fst).count addr by omega))
  have hout := hfresh.2.2 p hp
  have hpos := (hs.pagesOk p hp).2.2.1
  simp only [pageSize] at hout
  omega

theorem consistent : Consistent s all (s.heap.ofSize all) free where
  disjoint := by
    have hnodup := hs.liveNodup
    rw [Nodup, pairwise_map] at hnodup
    exact hnodup.imp_of_mem fun hx hy hne => hs.disjoint hx hy hne
  fits x hx := (hs.extent_pos hx).2
  allLinked := hs.shape.allLinked
  allNodup := hs.shape.allNodup
  sizeLinked := hs.shape.sizeLinked
  sizeNodup _ := hs.shape.allNodup.filter _
  inuse := hs.shape.inuse
  oneSize r := by
    constructor
    · intro hr
      obtain ⟨k, hp⟩ := hs.shape.page r hr
      refine ⟨k, mem_ofSize.mpr ⟨hr, hp.blocktype⟩, fun k' hk' => ?_⟩
      exact Fin.ext ((mem_ofSize.mp hk').2.symm.trans hp.blocktype)
    · rintro ⟨k, hk, -⟩
      exact (mem_ofSize.mp hk).1
  freelist r hr := by
    obtain ⟨k, hp⟩ := hs.shape.page r hr
    refine ⟨k, hp.blocktype, mem_ofSize.mpr ⟨hr, hp.blocktype⟩, hp.linked, hp.nodup,
      fun a => ⟨fun ha => ?_, fun ha => ?_⟩⟩
    · have hblock := hp.blocks a ha
      exact ⟨hblock, (hs.mem_free r hr k hp.blocktype a hblock).mp ha⟩
    · exact (hs.mem_free r hr k hp.blocktype a ha.1).mpr ha.2
  nfree r hr := by
    obtain ⟨k, hp⟩ := hs.shape.page r hr
    exact hp.nfree
  offset r hr := by
    obtain ⟨k, hp⟩ := hs.shape.page r hr
    constructor
    · intro hinvalid
      cases hfree : free r with
      | nil => rfl
      | cons a l =>
        rw [hfree] at hp
        have hlt := hp.offset_of_cons.1
        rw [hinvalid, invalidOffset, pageSize] at hlt
        omega
    · intro hnil
      have hhead := hp.linked
      rw [hnil, Infra.linked_nil, Pageref.head] at hhead
      by_contra hne
      rw [if_neg hne] at hhead
      cases hhead
  managed := hs.managed
  inside x hx := by
    rcases hs.inside hx with ⟨-, hp, hin⟩ | ⟨r, hr, -, -, -, -, -, hin⟩
    · exact ⟨_, hp, hin⟩
    · exact ⟨_, hs.managed r hr, hin⟩
  givenBack _ hp := hs.givenBack hp
  once := by
    constructor
    · rw [nodup_iff_count_le_one]
      intro a
      have hcount := hs.count_le_one a
      omega
    · intro addr hfree
      have hcount := count_freeing hfree
      rw [← count_pos_iff, ← hs.owners]
      omega

end

end Owned

/-- step が page を `free_kpages` に渡す。 -/
def GivesBack (x : Infra.Transition System Op) (p : Nat × Nat) : Prop :=
  Call.free p.1 ∉ x.pre.calls ∧ Call.free p.1 ∈ x.post.calls

/-- step が page の最後の block を返す。 -/
def FreesLast (x : Infra.Transition System Op) (p : Nat × Nat) : Prop :=
  ∃ y ∈ x.pre.live, x.label = .kfree y.1 ∧ Owned.Inside y p ∧ ∀ z ∈ x.post.live, ¬ Owned.Inside z p

/-- pageref が残っていないので、`alloc_kpages` の返した page を使わずに渡す。 -/
def NoPageref (x : Infra.Transition System Op) (p : Nat × Nat) : Prop :=
  (∃ i sz, x.label = .allocated i p.1 ∧ x.pre.calls[i]? = some (.subpage sz)) ∧ p ∉ x.pre.pages ∧
    p.1 ≠ 0 ∧ ∀ r, x.pre.heap.inuse r = true

section

variable {x : Infra.Transition System Op} (hpre : Inv x.pre) (hpost : Inv x.post)
  (hstep : Step x.pre x.label x.post) {p : Nat × Nat}

include hpre hpost hstep

theorem givesBack_iff_freesLast (hp : p ∈ x.pre.pages) : GivesBack x p ↔ FreesLast x p := by
  obtain ⟨all, free, hs⟩ := hpre
  obtain ⟨all', free', ht⟩ := hpost
  obtain ⟨hlive, hpages⟩ := step_frame hstep
  constructor
  · rintro ⟨hbefore, hafter⟩
    have hp' := (hpages p hp).resolve_right hbefore
    have hnone := (ht.givenBack hp').mp hafter
    rw [hs.givenBack hp] at hbefore
    push Not at hbefore
    obtain ⟨y, hy, hin⟩ := hbefore
    exact ⟨y, hy, (hlive y hy).resolve_left fun hy' => hnone y hy' hin, hin, hnone⟩
  · rintro ⟨y, hy, -, hin, hnone⟩
    have hbefore : Call.free p.1 ∉ x.pre.calls := fun hfree => (hs.givenBack hp).mp hfree y hy hin
    exact ⟨hbefore, (ht.givenBack ((hpages p hp).resolve_right hbefore)).mpr hnone⟩

theorem givesBack_iff_noPageref (hp : p ∉ x.pre.pages) (hp' : p ∈ x.post.pages) :
    ¬ FreesLast x p ∧ (GivesBack x p ↔ NoPageref x p) := by
  obtain ⟨all, free, hs⟩ := hpre
  obtain ⟨_, _, ht⟩ := hpost
  obtain ⟨s, op, t⟩ := x
  have hnext : Next s op t := step_cases hstep
  cases hnext with
  | kmalloc => exact absurd ((kmalloc_frame s _).2 ▸ hp') hp
  | kfree => exact absurd ((kfree_frame s _).2 ▸ hp') hp
  | failed | write => exact absurd hp' hp
  | freed => exact absurd (mem_of_mem_filter hp') hp
  | @newPage i sz addr hi hpos hfresh =>
    refine ⟨by simp [FreesLast], ?_⟩
    have hbefore := hs.not_freeing Nat.one_pos hfresh
    rcases newPage_cases { s with calls := s.calls.eraseIdx i } sz addr with
      heq | ⟨hnone, heq⟩ | ⟨r, heap, ptr, hsome, heq⟩
    · have hpanicked := ht.panicked
      simp only [heq, System.panic] at hpanicked
      cases hpanicked
    all_goals
      simp only [heq] at hp'
      obtain rfl : p = (addr, 1) := by simpa [hp] using hp'
    · exact iff_of_true ⟨hbefore, by simp [heq]⟩
        ⟨⟨i, sz, rfl, hi⟩, hp, hpos, inuse_of_findPageref_none hnone⟩
    · refine iff_of_false ?_ ?_
      · rintro ⟨-, hafter⟩
        simp only [heq] at hafter
        exact hbefore (mem_of_mem_eraseIdx hafter)
      · rintro ⟨-, -, -, hall⟩
        cases (hall r).symm.trans (inuse_of_findPageref hsome)
  | @big i sz addr hi hpos hfresh =>
    obtain ⟨hbig, hmax⟩ := hs.calls _ (mem_of_getElem? hi)
    have hbefore := hs.not_freeing (npages_bounds hbig hmax).1 hfresh
    obtain rfl : p = (addr, npages sz) := by simpa [hp] using hp'
    refine ⟨by simp [FreesLast], iff_of_false ?_ ?_⟩
    · rintro ⟨-, hafter⟩
      exact hbefore (mem_of_mem_eraseIdx hafter)
    · rintro ⟨⟨i', sz', hlabel, hi'⟩, -⟩
      cases hlabel
      cases hi.symm.trans hi'

theorem givesBack_iff (hp : p ∈ x.pre.pages ∨ p ∈ x.post.pages) :
    GivesBack x p ↔ FreesLast x p ∨ NoPageref x p := by
  by_cases hold : p ∈ x.pre.pages
  · rw [givesBack_iff_freesLast hpre hpost hstep hold, or_iff_left]
    exact fun h => h.2.1 hold
  · obtain ⟨hlast, hiff⟩ := givesBack_iff_noPageref hpre hpost hstep hold (hp.resolve_left hold)
    rw [hiff, or_iff_right hlast]

end

/--
**使われている block は重ならず、空きの列と pageref の列は整合していて、どの検査も失敗しない。page が
`free_kpages` に渡るのは、最後の block を返すときと、pageref が無くて使わないときだけである。**
-/
theorem blocks_disjoint_and_consistent (mem : Nat → Nat) {t : System}
    {tr : List (Infra.Transition System Op)} (hrun : Infra.Run Step (boot mem) tr t) :
    ((∃ all chain free, Consistent t all chain free) ∧ t.panicked = false) ∧
      ∀ x ∈ tr, ((∃ all chain free, Consistent x.post all chain free) ∧ x.post.panicked = false) ∧
        ∀ p, p ∈ x.pre.pages ∨ p ∈ x.post.pages → (GivesBack x p ↔ FreesLast x p ∨ NoPageref x p) := by
  have hok {s : System} (hs : Inv s) :
      (∃ all chain free, Consistent s all chain free) ∧ s.panicked = false := by
    obtain ⟨all, free, hs⟩ := hs
    exact ⟨⟨all, _, free, hs.consistent⟩, hs.panicked⟩
  obtain ⟨ht, hall⟩ := hrun.invariant' (fun hs h => hs.step h) (Inv.boot mem)
  refine ⟨hok ht, fun x hx => ⟨hok (hall x hx).2, fun p hp => ?_⟩⟩
  exact givesBack_iff (hall x hx).1 (hall x hx).2 (hrun.step_of_mem x hx) hp

/-- 一つの page の二つの block と大きな block を取り、書き、一つの block と大きな block を返す。 -/
theorem blocks_disjoint_and_consistent_page :
    ∃ tr t, Infra.Run Step (boot fun _ => 7) tr t ∧ t.live = [(4096, 1100)] ∧ t.calls = [.free 8192] ∧
      t.pages = [(4096, 1), (8192, 1)] ∧ t.heap.allbase = some 0 ∧
      (∃ all chain free, Consistent t all chain free) ∧ t.panicked = false := by
  obtain ⟨_, t, ⟨⟩, hrun, -, hfacts⟩ := Infra.Run.exists_of_any System.step (some (boot fun _ => 7))
    [.kmalloc 1500, .kmalloc 3000, .allocated 0 4096, .kmalloc 1100, .allocated 0 8192, .write 4096 5,
      .kfree 6144, .kfree 8192]
    (fun _ t => t.live = [(4096, 1100)] ∧ t.calls = [.free 8192] ∧ t.pages = [(4096, 1), (8192, 1)] ∧
      t.heap.allbase = some 0) (by decide +kernel)
  obtain ⟨hlive, hcalls, hpages, hall⟩ := of_decide_eq_true hfacts
  obtain ⟨⟨hconsistent, hpanicked⟩, -⟩ := blocks_disjoint_and_consistent (fun _ => 7) hrun
  exact ⟨_, t, hrun, hlive, hcalls, hpages, hall, hconsistent, hpanicked⟩

/-- 257 個の呼び出しが `alloc_kpages` の中で重なり、そのうちの `n` 個が一つずつ page を得る。 -/
def overlapping (n : Nat) : List Op :=
  replicate 257 (.kmalloc 1500) ++ (range n).map fun i => .allocated 0 (4096 * (i + 1))

/-- 257 個の `kmalloc(1500)` が重なると、最後の page は block を一つも返さずに `free_kpages` に渡る。 -/
theorem page_given_back_unused :
    ∃ tr x, Infra.Run Step (boot fun _ => 7) (tr ++ [x]) x.post ∧
      tr.map (fun y => y.label) = overlapping 256 ∧ x.label = .allocated 0 1052672 ∧
      GivesBack x (1052672, 1) ∧ ¬ FreesLast x (1052672, 1) := by
  obtain ⟨_, s, ⟨⟩, hrun, hlabels, hlast⟩ := Infra.Run.exists_of_any System.step
    (some (boot fun _ => 7)) (overlapping 256)
    (fun _ s => s.calls = [.subpage 1500] ∧ (s.step (.allocated 0 1052672)).any fun t =>
      t.calls = [.free 1052672]) (by decide +kernel)
  obtain ⟨hcalls, hstep⟩ := of_decide_eq_true hlast
  obtain ⟨t, ht, hfree⟩ := (Option.any_eq_true _ _).mp hstep
  refine ⟨_, ⟨s, .allocated 0 1052672, t⟩, hrun.append (.cons ht (.nil t)), hlabels, rfl, ⟨?_, ?_⟩, ?_⟩
  · simp [hcalls]
  · simp [of_decide_eq_true hfree]
  · simp [FreesLast]

end Os161.Kmalloc
