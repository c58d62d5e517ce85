import MsProjects.Infra.Run
import MsProjects.Os161.Properties.Tiled

/-! # `malloc` と `free` の列 -/

namespace Os161.Malloc

open List Function Block MHeader

open Infra (span lastLen Tiles place)

variable {h : Heap} {base : Nat} {bs : List Block} {s t : Program}

/-! ## 関数の仕様 -/

theorem mallocInit_spec (hbase : h.heapbase = 0) (htop : h.heaptop = 0) (hpos : 0 < h.brk)
    (env : Sbrks) :
    (∃ e, h.mallocInit env = .error e ∧ e.ofSbrk = true) ∨
      ∃ h' base, h.mallocInit env = .ok h' ∧ Tiled h' base [] := by
  have hempty {h' : Heap} {q : Nat} (hq : 0 < q) (hb : h'.heapbase = 8 * q) (ht : h'.heaptop = 8 * q)
      (hk : h'.brk = 8 * q) (hbound : 8 * q < 2 ^ 32) : Tiled h' q [] :=
    ⟨hq, hb, by simpa using ht, hk.trans ht.symm, ht ▸ hbound, by simp, trivial⟩
  rw [Heap.mallocInit, if_neg (by simp [hbase, htop])]
  by_cases hfirst : env.initial = true ∧ h.brk + 0 < 2 ^ 32
  · rw [show h.sbrk env.initial 0 = (h.brk, h) from if_pos hfirst]
    dsimp only
    by_cases hminus : h.brk = minusOne
    · rw [if_pos hminus]
      exact .inl ⟨_, rfl, rfl⟩
    · rw [if_neg hminus, if_neg (by omega)]
      by_cases halign : h.brk % 8 ≠ 0
      · rw [mblocksize, if_pos halign]
        by_cases hsecond : env.align = true ∧ h.brk + (8 - h.brk % 8) < 2 ^ 32
        · rw [show h.sbrk env.align (8 - h.brk % 8) =
            (h.brk, { h with brk := h.brk + (8 - h.brk % 8) }) from if_pos hsecond]
          dsimp only
          rw [if_neg hminus, if_neg (not_not.mpr rfl)]
          have hmul : h.brk + (8 - h.brk % 8) = 8 * ((h.brk + (8 - h.brk % 8)) / 8) := by omega
          have hwrap := (wrap_of_lt hsecond.2).trans hmul
          exact .inr ⟨_, _, rfl, hempty (by omega) hwrap hwrap hmul (by omega)⟩
        · rw [show h.sbrk env.align (8 - h.brk % 8) = (minusOne, h) from if_neg hsecond]
          exact .inl ⟨_, rfl, rfl⟩
      · rw [mblocksize, if_neg halign]
        have hmul : h.brk = 8 * (h.brk / 8) := by omega
        exact .inr ⟨_, h.brk / 8, rfl, hempty (by omega) hmul hmul hmul (by omega)⟩
  · rw [show h.sbrk env.initial 0 = (minusOne, h) from if_neg hfirst]
    exact .inl ⟨_, rfl, rfl⟩

theorem allocate_spec (ht : Tiled h base bs) (hwf : Wf bs) (success : Bool) {n : Nat} (hn : n < 2 ^ 31) :
    h.allocate success n = .ok (0, h) ∨
      ∃ x h' bs', h.allocate success n = .ok (x, h') ∧ x ≠ 0 ∧ Tiled h' base bs' ∧ Wf bs' ∧
        (livePairs base bs').Perm ((x, n) :: livePairs base bs) := by
  obtain ⟨k, hk, hle, hmax⟩ := roundup_eq hn
  have hpos := ht.pos
  have hbase := ht.heapbase
  have htop := ht.heaptop
  have hfuel : span len bs < h.fuel := by
    rw [Heap.fuel, hbase, htop, mblocksize]
    omega
  rw [Heap.allocate, if_neg (by omega), hk, hbase]
  rcases Tiled.scan_eq k ht.laid ht.positive htop ht.bound hfuel with
    ⟨a, b, c, rfl, hfree, hlen, hscan⟩ | hscan
  · obtain ⟨h', htake, ht'⟩ := ht.take_eq hfree hlen n
    refine .inr ⟨_, h', _, ?_, by omega, ht', hwf.carve hfree hlen hle, livePairs_carve hfree hlen⟩
    rw [hscan]
    exact htake
  · rw [hscan]
    simp only [ne_eq, not_true_eq_false, if_false]
    rcases ht.expand_eq hmax success n with hnull | ⟨h', hexpand, ht'⟩
    · exact .inl hnull
    · refine .inr ⟨_, h', _, hexpand, by omega, ht', hwf.concat hle, ?_⟩
      rw [livePairs_append, livePairs_cons_used rfl]
      exact perm_append_singleton _ _

theorem free_spec (ht : Tiled h base bs) (hwf : Wf bs) {x n : Nat} (hx : (x, n) ∈ livePairs base bs)
    (hbelow : x ≠ h.heaptop) :
    ∃ h' bs', h.free x = .ok h' ∧ Tiled h' base bs' ∧ Wf bs' ∧
      (livePairs base bs).Perm ((x, n) :: livePairs base bs') := by
  obtain ⟨a, b, c, rfl, hused, rfl⟩ := mem_livePairs hx
  obtain ⟨h', a', len₁, len₂, c', hfree, hnext, hprev, ht'⟩ := ht.free_eq hused hbelow
  refine ⟨h', _, hfree, ht', hwf.absorb hnext hprev, ?_⟩
  rw [livePairs_absorbsPrev hprev, livePairs_append, livePairs_append, livePairs_absorbsNext hnext,
    livePairs_cons_used hused, livePairs_cons rfl]
  exact perm_middle

theorem write_spec (ht : Tiled h base bs) {x n j : Nat} (hx : (x, n) ∈ livePairs base bs)
    (hj : j < (h.header (wsub x mblocksize)).size / mblocksize) (value : MHeader) :
    Tiled { h with mem := update h.mem (x / mblocksize + j) value } base bs := by
  obtain ⟨a, b, c, rfl, -, rfl⟩ := mem_livePairs hx
  have hend := ht.end_le
  have hbound := ht.bound
  have hlen := ht.len_pos
  have hmh : wsub (8 * (base + span len a + 1)) mblocksize = 8 * (base + span len a) := by
    rw [mblocksize, wsub_of_le (by omega) (by omega)]
    omega
  rw [hmh, Heap.header_eight, ht.size_eq, mblocksize] at hj
  refine ht.of_mem_eq rfl rfl rfl fun i hi => update_of_ne ?_ _ _
  rw [mblocksize]
  omega

/-! ## 不変量 -/

/-- `malloc` の前か、heap が block の列を表している。 -/
structure Inv (s : Program) : Prop where
  heap : s.heap.heapbase = 0 ∧ s.heap.heaptop = 0 ∧ 0 < s.heap.brk ∧ s.live = [] ∨
    ∃ base bs, Tiled s.heap base bs ∧ Wf bs ∧ s.live.Perm (livePairs base bs)
  exited : ∀ e ∈ s.exited, e.ofSbrk = true

/-- `free` に渡す pointer は `__heaptop` に等しくない。 -/
def FreesBelow (s : Program) : Op → Prop
  | .free x => x ≠ s.heap.heaptop ∨ x = 0
  | _ => True

instance (s : Program) : DecidablePred (FreesBelow s)
  | .free x => inferInstanceAs (Decidable (x ≠ s.heap.heaptop ∨ x = 0))
  | .malloc _ _ | .write _ _ _ => isTrue trivial

def Step (s : Program) (op : Op) (t : Program) : Prop := s.step op = some t

namespace Inv

theorem perm_filter {x n : Nat} {live rest : List (Nat × Nat)} (hlive : live.Perm ((x, n) :: rest))
    (hne : ∀ y ∈ rest, y.1 ≠ x) : (live.filter fun y => y.1 ≠ x).Perm rest := by
  have hrest : rest.filter (fun y => y.1 ≠ x) = rest := filter_eq_self.mpr (by simpa using hne)
  have hperm := hlive.filter fun y => y.1 ≠ x
  rwa [filter_cons_of_neg (by simp), hrest] at hperm

theorem malloc {size : Nat} {env : Sbrks} (hs : Inv s) (h : Step s (.malloc size env) t) : Inv t := by
  simp only [Step, Program.step] at h
  split at h
  · rename_i hguard
    obtain ⟨hrun, hsize⟩ := hguard
    have hexit : ∀ e ∈ s.exited, e.ofSbrk = true := hs.exited
    -- 初期化の済んだ heap の上の `malloc`
    have hallocate {h₁ : Heap} {base : Nat} {bs : List Block} (ht : Tiled h₁ base bs) (hwf : Wf bs)
        (hlive : s.live.Perm (livePairs base bs)) :
        ∃ x h₂, h₁.allocate env.grow size = .ok (x, h₂) ∧
          Inv { s with heap := h₂, live := if x = 0 then s.live else s.live ++ [(x, size)] } := by
      rcases allocate_spec ht hwf env.grow hsize with hnull | ⟨x, h₂, bs', heq, hx, ht', hwf', hperm⟩
      · exact ⟨0, h₁, hnull, .inr ⟨base, bs, ht, hwf, hlive⟩, hexit⟩
      · refine ⟨x, h₂, heq, .inr ⟨base, bs', ht', hwf', ?_⟩, hexit⟩
        rw [if_neg hx]
        exact (perm_append_singleton _ _).trans ((hlive.cons _).trans hperm.symm)
    rcases hs.heap with ⟨hbase, htop, hbrk, hlive⟩ | ⟨base, bs, ht, hwf, hlive⟩
    · rw [Heap.malloc, if_pos hbase] at h
      rcases mallocInit_spec hbase htop hbrk env with ⟨e, hinit, he⟩ | ⟨h₁, base, hinit, ht⟩
      · rw [hinit] at h
        cases h
        exact ⟨hs.heap, by simpa using he⟩
      · obtain ⟨x, h₂, heq, hinv⟩ := hallocate ht ⟨by simp, .nil⟩ (by rw [hlive]; exact .refl _)
        rw [hinit] at h
        dsimp only at h
        rw [heq] at h
        cases h
        exact hinv
    · obtain ⟨x, h₂, heq, hinv⟩ := hallocate ht hwf hlive
      have hne : s.heap.heapbase ≠ 0 := by
        have := ht.pos
        rw [ht.heapbase]
        omega
      rw [Heap.malloc, if_neg hne, heq] at h
      cases h
      exact hinv
  · cases h

theorem free {x : Nat} (hs : Inv s) (hbelow : FreesBelow s (.free x)) (h : Step s (.free x) t) :
    Inv t := by
  simp only [Step, Program.step] at h
  split at h
  · rename_i hguard
    obtain ⟨-, hx⟩ := hguard
    rcases hs.heap with ⟨hbase, htop, hbrk, hlive⟩ | ⟨base, bs, ht, hwf, hlive⟩
    · obtain rfl : x = 0 := by simpa [hlive] using hx
      rw [Heap.free, if_pos rfl] at h
      cases h
      exact ⟨.inl ⟨hbase, htop, hbrk, by simp [hlive]⟩, hs.exited⟩
    · by_cases hzero : x = 0
      · -- NULL は pointer ではない
        have hkeep : s.live.filter (fun y => y.1 ≠ x) = s.live := by
          refine filter_eq_self.mpr fun y hy => ?_
          obtain ⟨a, b, c, -, -, hptr⟩ := mem_livePairs (hlive.mem_iff.mp hy)
          simp [hptr, hzero]
        rw [Heap.free, if_pos hzero, hkeep] at h
        cases h
        exact ⟨.inr ⟨base, bs, ht, hwf, hlive⟩, hs.exited⟩
      · obtain ⟨⟨y, n⟩, hmem, rfl⟩ := mem_map.mp (hx.resolve_left hzero)
        obtain ⟨h', bs', hfree, ht', hwf', hperm⟩ :=
          free_spec ht hwf (hlive.mem_iff.mp hmem) (hbelow.resolve_right hzero)
        have hnodup := (hperm.map Prod.fst).nodup_iff.mp (nodup_livePairs ht.positive)
        rw [map_cons, nodup_cons] at hnodup
        rw [hfree] at h
        cases h
        refine ⟨.inr ⟨base, bs', ht', hwf', perm_filter (hlive.trans hperm) ?_⟩, hs.exited⟩
        intro z hz heq
        exact hnodup.1 (heq ▸ mem_map_of_mem hz)
  · cases h

theorem write {x j : Nat} {value : MHeader} (hs : Inv s) (h : Step s (.write x j value) t) : Inv t := by
  simp only [Step, Program.step] at h
  split at h
  · rename_i hguard
    obtain ⟨-, hx, hj⟩ := hguard
    cases h
    obtain ⟨⟨y, n⟩, hmem, rfl⟩ := mem_map.mp hx
    rcases hs.heap with ⟨-, -, -, hlive⟩ | ⟨base, bs, ht, hwf, hlive⟩
    · simp [hlive] at hmem
    · exact ⟨.inr ⟨base, bs, write_spec ht (hlive.mem_iff.mp hmem) hj value, hwf, hlive⟩, hs.exited⟩
  · cases h

end Inv

theorem Inv.step {op : Op} (hs : Inv s) (hop : FreesBelow s op) (h : Step s op t) : Inv t := by
  cases op with
  | malloc => exact hs.malloc h
  | free => exact hs.free hop h
  | write => exact hs.write h

/-! ## heap の姿 -/

/-- 番地 `i` から header を順に辿ると、`l` を通って、ちょうど上端に着く。 -/
inductive Walk (h : Heap) : Nat → List Nat → Prop where
  | top : Walk h h.heaptop []
  | header {i : Nat} {l : List Nat} (hlt : i < h.heaptop) (hok : (h.header i).ok = true)
      (hrest : Walk h (i + (h.header i).nextoff) l) : Walk h i (i :: l)

/-- pointer `x` の block の大きさ。 -/
def areaSize (h : Heap) (x : Nat) : Nat := (h.header (x - mblocksize)).size

structure Consistent (s : Program) (l : List Nat) : Prop where
  /-- header は `[__heapbase, __heaptop)` を敷き詰める。 -/
  walk : Walk s.heap s.heap.heapbase l
  first : ∀ i ∈ l.head?, (s.heap.header i).prevblock = 0
  prevblock : l.IsChain fun i j => (s.heap.header j).prevblock = (s.heap.header i).nextblock
  /-- 隣り合う二つの block の一方は使われている。 -/
  apart : l.IsChain fun i j => (s.heap.header i).inuse = true ∨ (s.heap.header j).inuse = true
  /-- 返した block は使われていて、引数の大きさを持つ。 -/
  live : ∀ x ∈ s.live, ∃ i ∈ l, x.1 = i + mblocksize ∧ (s.heap.header i).inuse = true ∧
    x.2 ≤ areaSize s.heap x.1
  disjoint : s.live.Pairwise fun x y => x.1 ≠ y.1 ∧
    (x.1 + areaSize s.heap x.1 ≤ y.1 ∨ y.1 + areaSize s.heap y.1 ≤ x.1)
  /-- block の中に header は無い。 -/
  noHeader : ∀ x ∈ s.live, ∀ i ∈ l, i + mblocksize ≤ x.1 ∨ x.1 + areaSize s.heap x.1 ≤ i

namespace Tiled

theorem walk {q prev : Nat} (hlaid : Tiles len (IsHeader h.mem) q prev bs)
    (hpos : ∀ b ∈ bs, 0 < b.len) (htop : h.heaptop = 8 * (q + span len bs)) :
    Walk h (8 * q) ((place len q bs).map fun u => 8 * u.1) := by
  induction bs generalizing q prev with
  | nil =>
    have heq : 8 * q = h.heaptop := by simpa using htop.symm
    rw [heq]
    exact .top
  | cons b bs ih =>
    obtain ⟨hb, hrest⟩ := hlaid
    have hlen := hpos b mem_cons_self
    rw [Infra.span_cons] at htop
    refine .header (by omega) (by rw [Heap.header_eight]; exact hb.ok) ?_
    rw [Heap.header_eight, nextoff, hb.nextblock, mblocksize, Nat.mul_comm b.len, ← Nat.mul_add]
    exact ih hrest (fun d hd => hpos d (mem_cons_of_mem _ hd)) (by omega)

theorem header_of_mem (ht : Tiled h base bs) {u : Nat × Block} (hu : u ∈ place len base bs) :
    ∃ p, IsHeader h.mem u.1 p u.2 := by
  obtain ⟨a, c, rfl, hq⟩ := Infra.exists_of_mem_place hu
  exact ⟨_, hq ▸ ht.header_at⟩

theorem areaSize_eq {a c : List Block} {b : Block} (ht : Tiled h base (a ++ b :: c)) :
    areaSize h (8 * (base + span len a + 1)) = 8 * (b.len - 1) := by
  have hmh : 8 * (base + span len a + 1) - mblocksize = 8 * (base + span len a) := by
    rw [mblocksize]
    omega
  rw [areaSize, hmh, Heap.header_eight, ht.size_eq]

end Tiled

theorem livePairs_disjoint (ht : Tiled h base bs) :
    (livePairs base bs).Pairwise fun x y => x.1 + areaSize h x.1 < y.1 := by
  rw [livePairs, pairwise_filterMap]
  refine Pairwise.imp_of_mem ?_ Infra.pairwise_place
  rintro ⟨q, b⟩ ⟨r, d⟩ hb - hle x hx y hy
  obtain ⟨n, -, rfl⟩ := Option.map_eq_some_iff.mp hx
  obtain ⟨m, -, rfl⟩ := Option.map_eq_some_iff.mp hy
  obtain ⟨a, c, rfl, rfl⟩ := Infra.exists_of_mem_place hb
  have hlen := ht.len_pos
  simp only [ht.areaSize_eq] at hle ⊢
  omega

theorem consistent_of_tiled (ht : Tiled s.heap base bs) (hwf : Wf bs)
    (hlive : s.live.Perm (livePairs base bs)) :
    Consistent s ((place len base bs).map fun u => 8 * u.1) where
  walk := by
    rw [ht.heapbase]
    exact Tiled.walk ht.laid ht.positive ht.heaptop
  first := by
    intro i hi
    cases bs with
    | nil => simp [place] at hi
    | cons b bs =>
      obtain rfl : 8 * base = i := by simpa [place] using hi
      rw [Heap.header_eight]
      exact BitVec.eq_of_toNat_eq ht.laid.1.prevblock
  prevblock := by
    rw [isChain_map]
    refine ht.laid.isChain.imp fun u v huv => ?_
    obtain ⟨⟨p, hu⟩, hv⟩ := huv
    rw [Heap.header_eight, Heap.header_eight]
    apply BitVec.eq_of_toNat_eq
    rw [hv.prevblock, hu.nextblock]
  apart := by
    have hapart : ((place len base bs).map Prod.snd).IsChain Apart := by
      rw [Infra.map_snd_place]
      exact hwf.apart
    rw [isChain_map] at hapart ⊢
    refine hapart.imp_of_mem_imp fun u v hu hv huv => ?_
    obtain ⟨p, hu⟩ := ht.header_of_mem hu
    obtain ⟨p', hv⟩ := ht.header_of_mem hv
    rw [Heap.header_eight, Heap.header_eight, hu.inuse, hv.inuse]
    exact huv
  live x hx := by
    obtain ⟨a, b, c, rfl, hused, hptr⟩ := mem_livePairs (hlive.mem_iff.mp hx)
    refine ⟨8 * (base + span len a), ?_, ?_, ?_, ?_⟩
    · rw [Infra.place_append, map_append]
      exact mem_append_right _ mem_cons_self
    · rw [hptr, mblocksize]
      omega
    · rw [Heap.header_eight, ht.header_at.inuse, hused]
      rfl
    · rw [hptr, ht.areaSize_eq]
      exact hwf.fits b (by simp) _ hused
  disjoint := by
    have hpair := (livePairs_disjoint ht).imp (S := fun x y => x.1 ≠ y.1 ∧
      (x.1 + areaSize s.heap x.1 ≤ y.1 ∨ y.1 + areaSize s.heap y.1 ≤ x.1)) fun h =>
        ⟨by omega, .inl h.le⟩
    exact (hlive.pairwise_iff fun h => ⟨h.1.symm, h.2.symm⟩).mpr hpair
  noHeader x hx i hi := by
    obtain ⟨a, b, c, rfl, -, hptr⟩ := mem_livePairs (hlive.mem_iff.mp hx)
    obtain ⟨⟨q, d⟩, hd, rfl⟩ := mem_map.mp hi
    have hlen := ht.len_pos
    rw [hptr, ht.areaSize_eq, mblocksize]
    -- header は、block の手前か、block の header 自身か、block の後にある
    rw [Infra.place_append] at hd
    rcases mem_append.mp hd with hd | hd
    · have hle := (Infra.mem_place hd).2.2
      have hpos := ht.positive d (by simp [(Infra.mem_place hd).1])
      simp only
      omega
    · rcases mem_cons.mp hd with heq | hd
      · obtain ⟨rfl, rfl⟩ := Prod.mk.inj heq
        simp only
        omega
      · have hle := (Infra.mem_place hd).2.1
        simp only
        omega

/-- **`__heaptop` に等しい pointer を `free` に渡さない列では、heap は常に整合していて、検査は失敗しない。** -/
theorem heap_consistent {brk : Nat} (hbrk : 0 < brk) (mem : Nat → MHeader)
    {tr : List (Infra.Transition Program Op)} (hrun : Infra.Run Step (boot brk mem) tr t)
    (hl : ∀ x ∈ tr, FreesBelow x.pre x.label) :
    ((∃ l, Consistent t l) ∧ ∀ e ∈ t.exited, e.ofSbrk = true) ∧
      ∀ x ∈ tr, (∃ l, Consistent x.post l) ∧ ∀ e ∈ x.post.exited, e.ofSbrk = true := by
  have hboot : Inv (boot brk mem) := ⟨.inl ⟨rfl, rfl, hbrk, rfl⟩, by simp [boot]⟩
  have hok {s : Program} (hs : Inv s) : (∃ l, Consistent s l) ∧ ∀ e ∈ s.exited, e.ofSbrk = true := by
    refine ⟨?_, hs.exited⟩
    rcases hs.heap with ⟨hbase, htop, -, hlive⟩ | ⟨base, bs, ht, hwf, hlive⟩
    · refine ⟨[], ?_, by simp, .nil, .nil, by simp [hlive], by simp [hlive], by simp⟩
      rw [hbase, ← htop]
      exact .top
    · exact ⟨_, consistent_of_tiled ht hwf hlive⟩
  obtain ⟨ht, hall⟩ := hrun.invariant (fun hs hop h => hs.step hop h) hl hboot
  exact ⟨hok ht, fun x hx => hok (hall x hx).2⟩

/-- block を取り、書き、返し、隣と繋いでから、もう一度取る。 -/
theorem heap_consistent_reuse :
    ∃ tr t, Infra.Run Step (boot 4096 fun _ => deadbeef) tr t ∧
      t.live = [(4136, 20), (4104, 3)] ∧ (∃ l, Consistent t l) ∧ t.exited = none := by
  obtain ⟨t, ht⟩ : ∃ t, [Op.malloc 10 ⟨true, true, true⟩, .malloc 0 ⟨true, true, true⟩,
      .malloc 20 ⟨true, true, true⟩, .write 4104 1 deadbeef, .free 4104, .free 4128,
      .malloc 3 ⟨true, true, false⟩].foldlM Program.step (boot 4096 fun _ => deadbeef) = some t :=
    ⟨_, rfl⟩
  obtain ⟨hrun, -⟩ := Infra.Run.of_foldlM ht
  have hfacts : t.live = [(4136, 20), (4104, 3)] ∧ t.exited = none := by
    cases ht
    exact ⟨rfl, rfl⟩
  have hl : ∀ x ∈ Infra.Run.trace Program.step (boot 4096 fun _ => deadbeef)
      [Op.malloc 10 ⟨true, true, true⟩, .malloc 0 ⟨true, true, true⟩, .malloc 20 ⟨true, true, true⟩,
        .write 4104 1 deadbeef, .free 4104, .free 4128, .malloc 3 ⟨true, true, false⟩],
      FreesBelow x.pre x.label := by
    decide +kernel
  exact ⟨_, t, hrun, hfacts.1, (heap_consistent (by decide) _ hrun hl).1.1, hfacts.2⟩

/-- `malloc(0)` の返した pointer を `free` に渡すと、program が終わる。 -/
theorem free_at_top :
    ∃ tr t, Infra.Run Step (boot 4096 fun _ => deadbeef) tr t ∧
      tr.map (fun x => x.label) = [.malloc 0 ⟨true, true, true⟩, .free 4104] ∧
      (∀ x ∈ tr.head?, x.post.live = [(4104, 0)] ∧ x.post.exited = none) ∧
      t.exited = some (.outOfRange 4104) := by
  obtain ⟨t, ht⟩ : ∃ t, [Op.malloc 0 ⟨true, true, true⟩, .free 4104].foldlM Program.step
      (boot 4096 fun _ => deadbeef) = some t := ⟨_, rfl⟩
  obtain ⟨hrun, hlabels⟩ := Infra.Run.of_foldlM ht
  refine ⟨_, t, hrun, hlabels, by decide +kernel, ?_⟩
  cases ht
  rfl

end Os161.Malloc
