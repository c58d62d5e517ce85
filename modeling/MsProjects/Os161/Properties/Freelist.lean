import MsProjects.Infra.Linked
import MsProjects.Os161.Vm.Kmalloc
import Mathlib.Data.List.Perm.Subperm

/-! # 一つの page の空きの列 -/

namespace Os161.Kmalloc

open List Function

open Infra (Linked)

variable {page a sz : Nat} {k : Fin 8} {h : Heap} {pr : Ref}

/-! ## block の大きさ -/

theorem sizes_cases (k : Fin 8) : 16 ≤ sizes k ∧ sizes k ≤ 2048 ∧ sizes k * nblocks k = pageSize := by
  revert k
  decide

theorem nblocks_cases (k : Fin 8) : 2 ≤ nblocks k ∧ nblocks k ≤ 256 := by
  revert k
  decide

theorem mkpab_eq {pa : Nat} (hpa : pa % pageSize = 0) (k : Fin 8) :
    mkpab pa k / pageSize * pageSize = pa ∧ mkpab pa k % pageSize = k := by
  have hk := k.isLt
  rw [mkpab]
  simp only [pageSize] at *
  omega

def IsBlock (page : Nat) (k : Fin 8) (a : Nat) : Prop := ∃ i < nblocks k, a = page + i * sizes k

theorem IsBlock.bounds (h : IsBlock page k a) : page ≤ a ∧ a + sizes k ≤ page + pageSize := by
  obtain ⟨i, hi, rfl⟩ := h
  obtain ⟨-, -, hmul⟩ := sizes_cases k
  have hle : (i + 1) * sizes k ≤ nblocks k * sizes k := Nat.mul_le_mul_right _ hi
  rw [Nat.mul_comm (nblocks k), hmul, Nat.add_mul] at hle
  omega

theorem IsBlock.disjoint {b : Nat} (ha : IsBlock page k a) (hb : IsBlock page k b) (hne : a ≠ b) :
    a + sizes k ≤ b ∨ b + sizes k ≤ a := by
  obtain ⟨i, -, rfl⟩ := ha
  obtain ⟨j, -, rfl⟩ := hb
  rcases Nat.lt_trichotomy i j with hij | rfl | hij
  · have hle : (i + 1) * sizes k ≤ j * sizes k := Nat.mul_le_mul_right _ hij
    rw [Nat.add_mul] at hle
    omega
  · exact absurd rfl hne
  · have hle : (j + 1) * sizes k ≤ i * sizes k := Nat.mul_le_mul_right _ hij
    rw [Nat.add_mul] at hle
    omega

/-! ## 空きの列 -/

def nextFree (mem : Nat → Nat) (a : Nat) : Option Nat := if mem a = 0 then none else some (mem a)

def Pageref.head (p : Pageref) : Option Nat :=
  if p.freelistOffset = invalidOffset then none else some (p.pageaddr + p.freelistOffset)

/-- page `p` の空きの列は `l` である。 -/
structure PageOk (mem : Nat → Nat) (p : Pageref) (k : Fin 8) (l : List Nat) : Prop where
  blocktype : p.blocktype = k
  pos : 0 < p.pageaddr
  bound : p.pageaddr + pageSize ≤ 2 ^ 32
  offset : p.freelistOffset < pageSize ∨ p.freelistOffset = invalidOffset
  linked : Linked (nextFree mem) p.head l
  nodup : l.Nodup
  blocks : ∀ a ∈ l, IsBlock p.pageaddr k a
  nfree : p.nfree = l.length

namespace PageOk

variable {mem mem' : Nat → Nat} {p : Pageref} {k : Fin 8} {l : List Nat} {a : Nat}

theorem subset_blocks (h : PageOk mem p k l) :
    l ⊆ (range (nblocks k)).map fun i => p.pageaddr + i * sizes k := by
  intro b hb
  obtain ⟨i, hi, rfl⟩ := h.blocks b hb
  exact mem_map_of_mem (mem_range.mpr hi)

theorem length_le (h : PageOk mem p k l) : l.length ≤ nblocks k := by
  simpa using (subperm_of_subset h.nodup h.subset_blocks).length_le

theorem mem_of_full (h : PageOk mem p k l) (hlen : nblocks k ≤ l.length) (ha : IsBlock p.pageaddr k a) :
    a ∈ l := by
  have hperm := (subperm_of_subset h.nodup h.subset_blocks).perm_of_length_le (by simpa using hlen)
  obtain ⟨i, hi, rfl⟩ := ha
  exact hperm.mem_iff.mpr (mem_map_of_mem (mem_range.mpr hi))

theorem congr (h : PageOk mem p k l) (heq : ∀ b ∈ l, mem' b = mem b) : PageOk mem' p k l :=
  { h with linked := h.linked.congr fun b hb => by rw [nextFree, nextFree, heq b hb] }

theorem of_eq {p' : Pageref} (h : PageOk mem p k l)
    (hpab : p'.pageaddrAndBlocktype = p.pageaddrAndBlocktype)
    (hoffset : p'.freelistOffset = p.freelistOffset) (hnfree : p'.nfree = p.nfree) :
    PageOk mem p' k l := by
  obtain ⟨sames, all, pab, offset, nfree⟩ := p
  obtain ⟨sames', all', pab', offset', nfree'⟩ := p'
  simp only at hpab hoffset hnfree
  subst hpab hoffset hnfree
  exact ⟨h.blocktype, h.pos, h.bound, h.offset, h.linked, h.nodup, h.blocks, h.nfree⟩

theorem offset_of_cons (h : PageOk mem p k (a :: l)) :
    p.freelistOffset < pageSize ∧ p.pageaddr + p.freelistOffset = a := by
  have hhead := h.linked.1
  rw [Pageref.head] at hhead
  split at hhead
  · cases hhead
  · rename_i hne
    exact ⟨h.offset.resolve_right hne, Option.some.inj hhead⟩

end PageOk

theorem doalloc_eq {l : List Nat} (hp : PageOk h.mem (h.pagerefs pr) k (a :: l)) :
    ∃ p, h.doalloc pr = some (a, { h with pagerefs := update h.pagerefs pr p }) ∧
      PageOk h.mem p k l ∧ p.nextSamesize = h.nextSamesize pr ∧ p.nextAll = h.nextAll pr ∧
      p.pageaddrAndBlocktype = (h.pagerefs pr).pageaddrAndBlocktype := by
  obtain ⟨hoffset, hptr⟩ := hp.offset_of_cons
  have hnfree := hp.nfree
  have hlen := hp.length_le
  have hblocks := nblocks_cases k
  rw [length_cons] at hnfree hlen
  have hrest : ((h.pagerefs pr).nfree + 65535) % 65536 = l.length := by omega
  have hnext : Linked (nextFree h.mem) (nextFree h.mem a) l := hp.linked.2
  have hnodup := (nodup_cons.mp hp.nodup).2
  rw [Heap.doalloc]
  simp only [if_pos hoffset, hptr, hrest]
  cases l with
  | nil =>
    have hzero : h.mem a = 0 := by
      by_contra hne
      simp [nextFree, hne] at hnext
    rw [if_neg (not_not.mpr hzero), length_nil, if_pos rfl]
    refine ⟨_, rfl, ⟨hp.blocktype, hp.pos, hp.bound, .inr rfl, ?_, .nil, by simp, rfl⟩, rfl, rfl, rfl⟩
    simp [Pageref.head]
  | cons b l =>
    have hb : h.mem a ≠ 0 ∧ h.mem a = b := by
      have hhead := hnext.1
      rw [nextFree] at hhead
      split at hhead
      · cases hhead
      · rename_i hne
        exact ⟨hne, Option.some.inj hhead⟩
    have hbounds := (hp.blocks b (by simp)).bounds
    have hsize := sizes_cases k
    have hbound := hp.bound
    simp only [pageSize] at hbounds hbound
    have hsub : (h.mem a + 2 ^ 32 - (h.pagerefs pr).pageaddr) % 2 ^ 32 = b - (h.pagerefs pr).pageaddr := by
      rw [hb.2]
      omega
    rw [if_pos hb.1, hsub, if_pos (by simp only [length_cons, pageSize]; omega)]
    refine ⟨_, rfl, ⟨hp.blocktype, hp.pos, hp.bound, .inl (by simp only [pageSize]; omega), ?_, hnodup,
      fun c hc => hp.blocks c (mem_cons_of_mem _ hc), rfl⟩, rfl, rfl, rfl⟩
    have hne : b - (h.pagerefs pr).pageaddr ≠ invalidOffset := by
      rw [invalidOffset]
      omega
    refine ⟨?_, hnext.2⟩
    rw [Pageref.head, if_neg hne]
    exact congrArg some (Nat.add_sub_cancel' hbounds.1)

theorem pushFree_eq {ptr : Nat} {l : List Nat} (hp : PageOk h.mem (h.pagerefs pr) k l)
    (hptr : IsBlock (h.pagerefs pr).pageaddr k ptr) (hnot : ptr ∉ l) :
    PageOk (h.pushFree pr ptr k).mem ((h.pushFree pr ptr k).pagerefs pr) k (ptr :: l) := by
  have hbounds := hptr.bounds
  have hsize := sizes_cases k
  have hbound := hp.bound
  have hpos := hp.pos
  have hlen := hp.length_le
  have hblocks := nblocks_cases k
  simp only [pageSize] at hbounds hbound
  -- ほかの空いている block の最初の語は変わらない
  have hkeep : ∀ b ∈ l, (h.pushFree pr ptr k).mem b = h.mem b := by
    intro b hb
    have hne : b ≠ ptr := fun heq => hnot (heq ▸ hb)
    have hdisj := (hp.blocks b hb).disjoint hptr hne
    simp only [Heap.pushFree, update_of_ne hne, Heap.fillDeadbeef]
    rw [if_neg (by omega)]
  have hlinked : Linked (nextFree (h.pushFree pr ptr k).mem) (h.pagerefs pr).head l :=
    hp.linked.congr fun b hb => by rw [nextFree, nextFree, hkeep b hb]
  have hnext : nextFree (h.pushFree pr ptr k).mem ptr = (h.pagerefs pr).head := by
    simp only [nextFree, Heap.pushFree, update_self, Pageref.head]
    by_cases hinvalid : (h.pagerefs pr).freelistOffset = invalidOffset
    · simp [hinvalid]
    · rw [if_neg hinvalid, if_neg hinvalid, if_neg (by omega)]
  have hpr : (h.pushFree pr ptr k).pagerefs pr = { h.pagerefs pr with
      freelistOffset := ptr - (h.pagerefs pr).pageaddr
      nfree := ((h.pagerefs pr).nfree + 1) % 65536 } := by
    simp [Heap.pushFree, Heap.modify]
  have hoffset : ptr - (h.pagerefs pr).pageaddr < pageSize := by
    rw [pageSize]
    omega
  have hne : ptr - (h.pagerefs pr).pageaddr ≠ invalidOffset := by
    rw [invalidOffset]
    omega
  rw [hpr]
  refine ⟨hp.blocktype, hp.pos, hp.bound, .inl hoffset, ⟨?_, ?_⟩, nodup_cons.mpr ⟨hnot, hp.nodup⟩,
    ?_, ?_⟩
  · rw [Pageref.head, if_neg hne]
    exact congrArg some (Nat.add_sub_cancel' hbounds.1)
  · rw [hnext]
    exact hlinked
  · intro b hb
    rcases mem_cons.mp hb with rfl | hb
    · exact hptr
    · exact hp.blocks b hb
  · have hnfree := hp.nfree
    rw [length_cons]
    simp only
    omega

/-! ## 新しい page -/

def descending (page sz : Nat) : Nat → List Nat
  | 0 => [page]
  | i + 1 => (page + (i + 1) * sz) :: descending page sz i

theorem mem_descending {i : Nat} : a ∈ descending page sz i ↔ ∃ j ≤ i, a = page + j * sz := by
  induction i with
  | zero =>
    rw [descending, mem_singleton]
    constructor
    · rintro rfl
      exact ⟨0, le_rfl, by simp⟩
    · rintro ⟨j, hj, rfl⟩
      obtain rfl : j = 0 := by omega
      simp
  | succ i ih =>
    rw [descending, mem_cons, ih]
    constructor
    · rintro (rfl | ⟨j, hj, rfl⟩)
      · exact ⟨i + 1, le_rfl, rfl⟩
      · exact ⟨j, by omega, rfl⟩
    · rintro ⟨j, hj, rfl⟩
      by_cases heq : j = i + 1
      · exact .inl (by rw [heq])
      · exact .inr ⟨j, by omega, rfl⟩

theorem length_descending (page sz i : Nat) : (descending page sz i).length = i + 1 := by
  induction i with
  | zero => rfl
  | succ i ih => rw [descending, length_cons, ih]

theorem next_not_mem_descending (hsz : 0 < sz) (i : Nat) :
    page + (i + 1) * sz ∉ descending page sz i := by
  rw [mem_descending]
  rintro ⟨j, hj, heq⟩
  have hlt : j * sz < (i + 1) * sz := Nat.mul_lt_mul_of_pos_right (by omega) hsz
  omega

theorem nodup_descending (hsz : 0 < sz) (i : Nat) : (descending page sz i).Nodup := by
  induction i with
  | zero => simp [descending]
  | succ i ih => exact nodup_cons.mpr ⟨next_not_mem_descending hsz i, ih⟩

theorem linked_descending (mem : Nat → Nat) (hsz : 0 < sz) (hpage : 0 < page) (i : Nat) :
    Linked (nextFree (Heap.initFreelist mem page sz i)) (some (page + i * sz)) (descending page sz i) := by
  induction i with
  | zero => simp [descending, Heap.initFreelist, nextFree]
  | succ i ih =>
    have hnext : nextFree (Heap.initFreelist mem page sz (i + 1)) (page + (i + 1) * sz) =
        some (page + i * sz) := by
      rw [nextFree, Heap.initFreelist, update_self, if_neg (by omega)]
    refine ⟨rfl, ?_⟩
    rw [hnext]
    refine ih.congr fun b hb => ?_
    have hne : b ≠ page + (i + 1) * sz := fun heq => next_not_mem_descending hsz i (heq ▸ hb)
    rw [nextFree, nextFree, Heap.initFreelist, update_of_ne hne]

theorem initFreelist_of_not_mem {mem : Nat → Nat} {i : Nat} (h : a ∉ descending page sz i) :
    Heap.initFreelist mem page sz i a = mem a := by
  induction i with
  | zero =>
    rw [descending, mem_singleton] at h
    exact update_of_ne h _ _
  | succ i ih =>
    rw [descending, mem_cons, not_or] at h
    rw [Heap.initFreelist, update_of_ne h.1, ih h.2]

theorem mem_descending_iff : a ∈ descending page (sizes k) (nblocks k - 1) ↔ IsBlock page k a := by
  have hn := nblocks_cases k
  rw [mem_descending, IsBlock]
  constructor
  · rintro ⟨j, hj, rfl⟩
    exact ⟨j, by omega, rfl⟩
  · rintro ⟨j, hj, rfl⟩
    exact ⟨j, by omega, rfl⟩

theorem addPage_eq (k : Fin 8) (hpage : page % pageSize = 0) (hpos : 0 < page)
    (hbound : page + pageSize ≤ 2 ^ 32) :
    PageOk (h.addPage pr page k).mem ((h.addPage pr page k).pagerefs pr) k
      (descending page (sizes k) (nblocks k - 1)) := by
  obtain ⟨haddr, htype⟩ := mkpab_eq hpage k
  have hn := nblocks_cases k
  obtain ⟨hmin, hmax, hmul⟩ := sizes_cases k
  have hoffset : (nblocks k - 1) * sizes k < pageSize := by
    rw [Nat.sub_mul, Nat.mul_comm, hmul, pageSize]
    omega
  have hne : (nblocks k - 1) * sizes k ≠ invalidOffset := by
    rw [pageSize] at hoffset
    rw [invalidOffset]
    omega
  simp only [Heap.addPage, update_self]
  refine ⟨htype, ?_, ?_, .inl hoffset, ?_, nodup_descending (by omega) _, ?_, ?_⟩
  · rw [Pageref.pageaddr, haddr]
    exact hpos
  · rw [Pageref.pageaddr, haddr]
    exact hbound
  · rw [Pageref.head, if_neg hne]
    have hlinked := linked_descending h.mem (show 0 < sizes k by omega) hpos (nblocks k - 1)
    rwa [Pageref.pageaddr, haddr]
  · intro a ha
    rw [Pageref.pageaddr, haddr]
    exact mem_descending_iff.mp ha
  · rw [length_descending]
    simp only
    omega

end Os161.Kmalloc
