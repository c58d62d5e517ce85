import MsProjects.Os161.User.Blocks
import MsProjects.Os161.User.Malloc

/-! # heap と block の列 -/

namespace Os161.Malloc

open List Function MHeader

open Infra (span lastLen Tiles span_append span_cons span_nil lastLen_append tiles_append)

variable {n k q prev len : Nat}

/-! ## 数 -/

theorem wrap_of_lt (h : n < 2 ^ 32) : wrap n = n := Nat.mod_eq_of_lt h

theorem wsub_of_le {a b : Nat} (h : b ≤ a) (ha : a < 2 ^ 32) : wsub a b = a - b := by
  rw [wsub, show a + 2 ^ 32 - b = a - b + 2 ^ 32 by omega, Nat.add_mod_right,
    Nat.mod_eq_of_lt (by omega)]

theorem wrap_add_mblocksize (h : 8 * (k + 1) < 2 ^ 32) : wrap (8 * k + mblocksize) = 8 * (k + 1) := by
  rw [mblocksize, wrap_of_lt (by omega)]
  omega

theorem toNat_mkfield (h : 8 * k < 2 ^ 32) : (mkfield (8 * k)).toNat = k := by
  rw [mkfield, mblocksize, Nat.mul_div_cancel_left k (by decide), BitVec.toNat_ofNat]
  exact Nat.mod_eq_of_lt (by omega)

theorem roundup_eq (h : n < 2 ^ 31) : ∃ k, Heap.roundup n = 8 * k ∧ n ≤ 8 * k ∧ 8 * k ≤ 2 ^ 31 := by
  have hw : wrap (n + 8 - 1) = n + 7 := wrap_of_lt (by omega)
  refine ⟨(n + 7) / 8, ?_, by omega, by omega⟩
  rw [Heap.roundup, mblocksize, hw, Nat.mul_comm]

/-! ## cell -/

namespace Heap

variable (h : Heap) (q : Nat)

@[simp] theorem header_eight : h.header (8 * q) = h.mem q := by
  simp [header, mblocksize]

@[simp] theorem modify_heapbase (mh : Nat) (f : MHeader → MHeader) :
    (h.modify mh f).heapbase = h.heapbase := rfl
@[simp] theorem modify_heaptop (mh : Nat) (f : MHeader → MHeader) :
    (h.modify mh f).heaptop = h.heaptop := rfl
@[simp] theorem modify_brk (mh : Nat) (f : MHeader → MHeader) : (h.modify mh f).brk = h.brk := rfl

@[simp] theorem modify_mem (f : MHeader → MHeader) :
    (h.modify (8 * q) f).mem = update h.mem q (f (h.mem q)) := by
  simp [modify, header, mblocksize]

theorem deadbeef_mem (k i : Nat) :
    (h.mallocDeadbeef (8 * q) (8 * k)).mem i = if q ≤ i ∧ i < q + k then deadbeef else h.mem i := by
  simp [mallocDeadbeef, mblocksize]

theorem setPrevblock_mem {top : Nat} (htop : h.heaptop = 8 * top) (prevblock : BitVec 29) (i : Nat) :
    (h.setPrevblock (8 * q) prevblock).mem i =
      if i = q ∧ q ≠ top then { h.mem q with prevblock := prevblock } else h.mem i := by
  rw [setPrevblock, htop]
  by_cases hq : q = top
  · simp [hq]
  · rw [if_pos (by omega), modify_mem]
    by_cases hi : i = q <;> simp [hi, hq]

theorem setPrevblock_eq (mh : Nat) (prevblock : BitVec 29) :
    (h.setPrevblock mh prevblock).heapbase = h.heapbase ∧
      (h.setPrevblock mh prevblock).heaptop = h.heaptop ∧
      (h.setPrevblock mh prevblock).brk = h.brk := by
  rw [setPrevblock]
  split <;> exact ⟨rfl, rfl, rfl⟩

end Heap

/-! ## block の列 -/

/-- cell `q` が block の header である。 -/
structure IsHeader (mem : Nat → MHeader) (q prev : Nat) (b : Block) : Prop where
  ok : (mem q).ok = true
  prevblock : (mem q).prevblock.toNat = prev
  nextblock : (mem q).nextblock.toNat = b.len
  inuse : (mem q).inuse = b.used.isSome

theorem IsHeader.of_eq {mem mem' : Nat → MHeader} {b : Block} (h : IsHeader mem q prev b)
    (heq : mem' q = mem q) : IsHeader mem' q prev b := by
  obtain ⟨hok, hprev, hnext, huse⟩ := h
  rw [← heq] at hok hprev hnext huse
  exact ⟨hok, hprev, hnext, huse⟩

theorem IsHeader.of_value {mem : Nat → MHeader} {b : Block} {v : MHeader} (hv : mem q = v)
    (hok : v.ok = true) (hprev : v.prevblock.toNat = prev) (hnext : v.nextblock.toNat = b.len)
    (huse : v.inuse = b.used.isSome) : IsHeader mem q prev b := by
  subst hv
  exact ⟨hok, hprev, hnext, huse⟩

structure Tiled (h : Heap) (base : Nat) (bs : List Block) : Prop where
  pos : 0 < base
  heapbase : h.heapbase = 8 * base
  heaptop : h.heaptop = 8 * (base + span Block.len bs)
  brk : h.brk = h.heaptop
  bound : h.heaptop < 2 ^ 32
  positive : ∀ b ∈ bs, 0 < b.len
  laid : Tiles Block.len (IsHeader h.mem) base 0 bs

namespace Tiled

variable {h h' : Heap} {base : Nat} {a c m bs : List Block} {b d : Block}

section

variable (ht : Tiled h base (a ++ b :: c))

include ht

theorem header_at : IsHeader h.mem (base + span Block.len a) (lastLen Block.len 0 a) b :=
  (tiles_append.mp ht.laid).2.1

theorem end_le : 8 * (base + span Block.len a + b.len) ≤ h.heaptop := by
  rw [ht.heaptop]
  simp only [span_append, span_cons]
  omega

theorem len_pos : 0 < b.len := ht.positive b (by simp)

theorem nextoff_eq : (h.mem (base + span Block.len a)).nextoff = 8 * b.len := by
  rw [nextoff, ht.header_at.nextblock, mblocksize, Nat.mul_comm]

theorem size_eq : (h.mem (base + span Block.len a)).size = 8 * (b.len - 1) := by
  have hend := ht.end_le
  have hbound := ht.bound
  have hpos := ht.len_pos
  rw [size, ht.nextoff_eq, mblocksize, wsub_of_le (by omega) (by omega)]
  omega

theorem next_eq :
    h.next (8 * (base + span Block.len a)) = 8 * (base + span Block.len a + b.len) := by
  have hend := ht.end_le
  have hbound := ht.bound
  rw [Heap.next, Heap.header_eight, ht.nextoff_eq, wrap_of_lt (by omega)]
  omega

end

theorem top_iff (ht : Tiled h base (a ++ m ++ c)) :
    base + span Block.len a + span Block.len m = base + span Block.len (a ++ m ++ c) ↔ c = [] := by
  constructor
  · intro heq
    cases c with
    | nil => rfl
    | cons d c =>
      have hpos := ht.positive d (by simp)
      simp only [span_append, span_cons] at heq
      omega
  · rintro rfl
    simp only [append_nil, span_append]
    omega

theorem splice (ht : Tiled h base (a ++ m ++ c)) (m' : List Block) (hbase : h'.heapbase = h.heapbase)
    (htop : h'.heaptop = h.heaptop) (hbrk : h'.brk = h.brk)
    (hspan : span Block.len m' = span Block.len m) (hpos : ∀ b ∈ m', 0 < b.len)
    (hlaid : Tiles Block.len (IsHeader h'.mem) (base + span Block.len a) (lastLen Block.len 0 a) m')
    (hout : ∀ i, i < base + span Block.len a ∨ base + span Block.len a + span Block.len m < i →
      h'.mem i = h.mem i)
    (hnext : ∀ b ∈ c.head?, IsHeader h'.mem (base + span Block.len a + span Block.len m)
      (lastLen Block.len (lastLen Block.len 0 a) m') b) :
    Tiled h' base (a ++ m' ++ c) := by
  have hsame : span Block.len (a ++ m' ++ c) = span Block.len (a ++ m ++ c) := by
    simp only [span_append, hspan]
  obtain ⟨hleft, hright⟩ := tiles_append.mp ht.laid
  obtain ⟨hleft, -⟩ := tiles_append.mp hleft
  refine ⟨ht.pos, hbase.trans ht.heapbase, ?_, ?_, ?_, ?_, ?_⟩
  · rw [htop, ht.heaptop, hsame]
  · rw [hbrk, htop, ht.brk]
  · rw [htop]
    exact ht.bound
  · intro b hb
    simp only [mem_append] at hb
    rcases hb with (hb | hb) | hb
    · exact ht.positive b (by simp [hb])
    · exact hpos b hb
    · exact ht.positive b (by simp [hb])
  · rw [tiles_append, tiles_append]
    refine ⟨⟨hleft.imp fun q p b hb hq hend hP => ?_, hlaid⟩, ?_⟩
    · -- 左の列の header は範囲より前にある
      have hlen := ht.positive b (by simp [hb])
      exact hP.of_eq (hout q (.inl (by omega)))
    · rw [span_append, hspan, lastLen_append, ← Nat.add_assoc]
      rw [span_append, ← Nat.add_assoc] at hright
      cases c with
      | nil => trivial
      | cons d c =>
        have hlen := ht.positive d (by simp)
        refine ⟨hnext d rfl, hright.2.imp fun q p b _ hq _ hP => ?_⟩
        exact hP.of_eq (hout q (.inr (by omega)))

theorem next_header (ht : Tiled h base (a ++ m ++ c)) :
    ∀ b ∈ c.head?, IsHeader h.mem (base + span Block.len a + span Block.len m)
      (lastLen Block.len (lastLen Block.len 0 a) m) b := by
  intro b hb
  cases c with
  | nil => simp at hb
  | cons d c =>
    obtain rfl : d = b := by simpa using hb
    have hd := (tiles_append.mp ht.laid).2.1
    rwa [span_append, lastLen_append, ← Nat.add_assoc] at hd

theorem replace (ht : Tiled h base (a ++ b :: c)) (hbase : h'.heapbase = h.heapbase)
    (htop : h'.heaptop = h.heaptop) (hbrk : h'.brk = h.brk) (hlen : d.len = b.len)
    (hd : IsHeader h'.mem (base + span Block.len a) (lastLen Block.len 0 a) d)
    (hout : ∀ i, i < base + span Block.len a ∨ base + span Block.len a + b.len ≤ i →
      h'.mem i = h.mem i) :
    Tiled h' base (a ++ d :: c) := by
  have ht' : Tiled h base (a ++ [b] ++ c) := by simpa using ht
  have hb := ht.len_pos
  have hnext := ht'.next_header
  simp only [span_cons, span_nil, Nat.add_zero] at hnext
  have := ht'.splice [d] hbase htop hbrk (by simp [hlen]) (by simp [hlen, hb]) ⟨hd, trivial⟩
    (fun i hi => hout i (by simp at hi; omega))
    (fun e he => by
      have hnext := hnext e he
      simp only [span_cons, span_nil, Nat.add_zero]
      rw [show lastLen Block.len (lastLen Block.len 0 a) [d] = d.len from rfl, hlen]
      exact hnext.of_eq (hout _ (.inr le_rfl)))
  simpa using this

/-- 印を書き換える。 -/
theorem mark (ht : Tiled h base (a ++ b :: c)) (used : Option Nat) :
    Tiled (h.modify (8 * (base + span Block.len a)) fun c => { c with inuse := used.isSome }) base
      (a ++ ⟨b.len, used⟩ :: c) := by
  have hb := ht.header_at
  have hlen := ht.len_pos
  refine ht.replace rfl rfl rfl rfl (.of_value
    (v := { h.mem (base + span Block.len a) with inuse := used.isSome }) ?_ hb.ok hb.prevblock
    hb.nextblock rfl) fun i hi => ?_
  · rw [Heap.modify_mem, update_self]
  · rw [Heap.modify_mem, update_of_ne (by omega)]

theorem of_mem_eq (ht : Tiled h base (a ++ b :: c)) (hbase : h'.heapbase = h.heapbase)
    (htop : h'.heaptop = h.heaptop) (hbrk : h'.brk = h.brk)
    (hout : ∀ i, i ≤ base + span Block.len a ∨ base + span Block.len a + b.len ≤ i →
      h'.mem i = h.mem i) :
    Tiled h' base (a ++ b :: c) :=
  ht.replace hbase htop hbrk rfl (ht.header_at.of_eq (hout _ (.inl le_rfl)))
    fun i hi => hout i (by omega)

theorem wipe (ht : Tiled h base (a ++ b :: c)) (k : Nat) (hleft : base + span Block.len a < q)
    (hright : q + k ≤ base + span Block.len a + b.len) :
    Tiled (h.mallocDeadbeef (8 * q) (8 * k)) base (a ++ b :: c) := by
  refine ht.of_mem_eq rfl rfl rfl fun i hi => ?_
  rw [Heap.deadbeef_mem, if_neg (by omega)]

theorem relink (ht : Tiled h base (a ++ m ++ c)) (m' : List Block) {prevblock : BitVec 29}
    (hbase : h'.heapbase = h.heapbase) (htop : h'.heaptop = h.heaptop) (hbrk : h'.brk = h.brk)
    (hspan : span Block.len m' = span Block.len m) (hpos : ∀ b ∈ m', 0 < b.len)
    (hlaid : Tiles Block.len (IsHeader h'.mem) (base + span Block.len a) (lastLen Block.len 0 a) m')
    (hout : ∀ i, i < base + span Block.len a ∨ base + span Block.len a + span Block.len m ≤ i →
      h'.mem i = h.mem i)
    (hprev : prevblock.toNat = lastLen Block.len (lastLen Block.len 0 a) m') :
    Tiled (h'.setPrevblock (8 * (base + span Block.len a + span Block.len m)) prevblock) base
      (a ++ m' ++ c) := by
  have hmem := h'.setPrevblock_mem (base + span Block.len a + span Block.len m) (htop.trans ht.heaptop)
    prevblock
  obtain ⟨hbase', htop', hbrk'⟩ :=
    h'.setPrevblock_eq (8 * (base + span Block.len a + span Block.len m)) prevblock
  refine ht.splice m' (hbase'.trans hbase) (htop'.trans htop) (hbrk'.trans hbrk) hspan hpos ?_ ?_ ?_
  · refine hlaid.imp fun q p b hb _ hend hP => hP.of_eq ?_
    have hlen := hpos b hb
    rw [hmem, if_neg (by omega)]
  · intro i hi
    rw [hmem, if_neg (by omega)]
    exact hout i (by omega)
  · intro b hb
    have hne : c ≠ [] := by
      rintro rfl
      simp at hb
    have hb' := (ht.next_header b hb).of_eq (hout _ (.inr le_rfl))
    refine ⟨?_, ?_, ?_, ?_⟩ <;> rw [hmem, if_pos ⟨rfl, fun heq => hne (ht.top_iff.mp heq)⟩]
    · exact hb'.ok
    · exact hprev
    · exact hb'.nextblock
    · exact hb'.inuse

/-! ## `malloc` -/

theorem scan_eq (k : Nat) {fuel : Nat} (hlaid : Tiles Block.len (IsHeader h.mem) q prev c)
    (hpos : ∀ b ∈ c, 0 < b.len) (htop : h.heaptop = 8 * (q + span Block.len c))
    (hbound : h.heaptop < 2 ^ 32) (hfuel : span Block.len c < fuel) :
    (∃ l b r, c = l ++ b :: r ∧ b.used = none ∧ k < b.len ∧
      h.scan (8 * k) fuel (8 * q) prev = .ok (.found (8 * (q + span Block.len l)))) ∨
    h.scan (8 * k) fuel (8 * q) prev = .ok (.top h.heaptop (lastLen Block.len prev c)) := by
  induction c generalizing q prev fuel with
  | nil =>
    refine .inr ?_
    obtain ⟨fuel, rfl⟩ : ∃ n, fuel = n + 1 := ⟨fuel - 1, by simp at hfuel; omega⟩
    have heq : h.heaptop = 8 * q := by simpa using htop
    rw [Heap.scan, if_neg (by omega), heq]
    rfl
  | cons b c ih =>
    obtain ⟨hb, hc⟩ := hlaid
    have hlen := hpos b mem_cons_self
    rw [span_cons] at htop hfuel
    obtain ⟨fuel, rfl⟩ : ∃ n, fuel = n + 1 := ⟨fuel - 1, by omega⟩
    have hnextoff : (h.mem q).nextoff = 8 * b.len := by
      rw [nextoff, hb.nextblock, mblocksize, Nat.mul_comm]
    have hsize : (h.mem q).size = 8 * (b.len - 1) := by
      rw [size, hnextoff, mblocksize, wsub_of_le (by omega) (by omega)]
      omega
    rw [Heap.scan, if_pos (by omega), Heap.header_eight]
    simp only [hb.ok, Bool.true_eq_false, if_false, hb.prevblock, ne_eq, not_true_eq_false, hb.inuse,
      hsize]
    by_cases huse : b.used.isSome = true ∨ 8 * (b.len - 1) < 8 * k
    · -- 使えない block は飛ばす
      rw [if_pos huse, hnextoff, hb.nextblock, wrap_of_lt (by omega), ← Nat.mul_add]
      have hfuel' : span Block.len c < fuel := by omega
      rcases ih hc (fun d hd => hpos d (mem_cons_of_mem _ hd)) (by omega) hfuel' with
        ⟨l, d, r, rfl, hfree, hk, hscan⟩ | hscan
      · refine .inl ⟨b :: l, d, r, rfl, hfree, hk, ?_⟩
        rw [hscan, span_cons, Nat.add_assoc]
      · exact .inr hscan
    · rw [if_neg huse]
      rw [not_or] at huse
      refine .inl ⟨[], b, c, rfl, ?_, by omega, by simp⟩
      simpa using huse.1

theorem mallocSplit_small (ht : Tiled h base (a ++ b :: c)) (hk : k < b.len)
    (hsmall : b.len < k + 3) : h.mallocSplit (8 * (base + span Block.len a)) (8 * k) = .ok h := by
  have hend := ht.end_le
  have hbound := ht.bound
  rw [Heap.mallocSplit, Heap.header_eight, ht.size_eq, mblocksize, if_neg (by omega),
    wsub_of_le (by omega) (by omega), if_pos (by omega)]

theorem mallocSplit_large (ht : Tiled h base (a ++ b :: c)) (hfree : b.used = none)
    (hlarge : k + 3 ≤ b.len) :
    ∃ h', h.mallocSplit (8 * (base + span Block.len a)) (8 * k) = .ok h' ∧
      Tiled h' base (a ++ [⟨k + 1, none⟩, ⟨b.len - (k + 1), none⟩] ++ c) := by
  have hend := ht.end_le
  have hbound := ht.bound
  have hheader := ht.header_at
  have hnext := ht.next_eq
  have hsize := ht.size_eq
  have ht' : Tiled h base (a ++ [b] ++ c) := by simpa using ht
  have htop := ht'.heaptop
  set q := base + span Block.len a
  have hfirst : (mkfield (8 * (k + 1))).toNat = k + 1 := toNat_mkfield (by omega)
  have hsecond : (mkfield (8 * (b.len - (k + 1)))).toNat = b.len - (k + 1) := toNat_mkfield (by omega)
  have hnew : (h.modify (8 * q) fun c => { c with nextblock := mkfield (8 * (k + 1)) }).next (8 * q) =
      8 * (q + (k + 1)) := by
    rw [Heap.next, Heap.header_eight, Heap.modify_mem, update_self, nextoff, hfirst,
      mblocksize, wrap_of_lt (by omega)]
    omega
  have hold : wsub (8 * (b.len - 1)) (8 * k) = 8 * (b.len - (k + 1)) := by
    rw [wsub_of_le (by omega) (by omega)]
    omega
  have hwrap := wrap_add_mblocksize (k := k) (by omega)
  rw [Heap.mallocSplit, if_neg (by simp [mblocksize]), Heap.header_eight, hsize, hold,
    if_neg (by rw [mblocksize]; omega)]
  simp only [hnext, hwrap, hnew, hold]
  rw [if_neg (by omega)]
  refine ⟨_, rfl, ?_⟩
  refine ht'.relink [⟨k + 1, none⟩, ⟨b.len - (k + 1), none⟩] rfl rfl rfl ?_ ?_ ?_ ?_ ?_
  · simp only [span_cons, span_nil]
    omega
  · simp only [mem_cons, not_mem_nil, or_false, forall_eq_or_imp, forall_eq]
    omega
  · have hne : q ≠ q + (k + 1) := by omega
    refine ⟨.of_value (v := { h.mem q with nextblock := mkfield (8 * (k + 1)) }) ?_ hheader.ok
      hheader.prevblock hfirst (hheader.inuse.trans (by rw [hfree])),
      .of_value (v := ⟨mkfield (8 * (k + 1)), false, mmagic, mkfield (8 * (b.len - (k + 1))), false,
        mmagic⟩) ?_ rfl hfirst hsecond rfl, trivial⟩
    · rw [Heap.modify_mem, Heap.modify_mem, update_of_ne hne, update_self]
    · rw [Heap.modify_mem]
      exact update_self _ _ _
  · intro i hi
    have hi' : i < q ∨ q + b.len ≤ i := by simpa using hi
    rw [Heap.modify_mem, Heap.modify_mem, update_of_ne (by omega), update_of_ne (by omega)]
  · rw [Heap.header_eight, Heap.modify_mem, update_self]
    exact hsecond

theorem take_eq (ht : Tiled h base (a ++ b :: c)) (hfree : b.used = none) (hk : k < b.len) (n : Nat) :
    ∃ h', h.take (8 * (base + span Block.len a)) (8 * k) =
        .ok (8 * (base + span Block.len a + 1), h') ∧
      Tiled h' base (a ++ carve b k n ++ c) := by
  have hend := ht.end_le
  have hbound := ht.bound
  rw [Heap.take, wrap_add_mblocksize (by omega), carve]
  by_cases hsmall : b.len < k + 3
  · rw [ht.mallocSplit_small hk hsmall, if_pos hsmall]
    exact ⟨_, rfl, by simpa using ht.mark (some n)⟩
  · obtain ⟨h₁, hsplit, ht₁⟩ := ht.mallocSplit_large hfree (Nat.le_of_not_lt hsmall)
    rw [hsplit, if_neg hsmall]
    have ht₁ : Tiled h₁ base (a ++ ⟨k + 1, none⟩ :: ⟨b.len - (k + 1), none⟩ :: c) := by simpa using ht₁
    exact ⟨_, rfl, by simpa using ht₁.mark (some n)⟩

theorem expand_eq (ht : Tiled h base bs) (hk : 8 * k ≤ 2 ^ 31) (success : Bool) (n : Nat) :
    h.expand success (8 * k) (lastLen Block.len 0 bs) = .ok (0, h) ∨
    ∃ h', h.expand success (8 * k) (lastLen Block.len 0 bs) =
        .ok (8 * (base + span Block.len bs + 1), h') ∧
      Tiled h' base (bs ++ [⟨k + 1, some n⟩]) := by
  have hbound := ht.bound
  have htop := ht.heaptop
  have hbrk := ht.brk
  have hpos := ht.pos
  rw [Heap.expand, wrap_add_mblocksize (by omega), Heap.mallocSbrk, Heap.sbrk]
  by_cases hok : success = true ∧ h.brk + 8 * (k + 1) < 2 ^ 32
  · refine .inr ?_
    rw [if_pos hok]
    have hne : h.brk ≠ minusOne := by
      rw [minusOne]
      omega
    have hnz : h.brk ≠ 0 := by omega
    have hlast : lastLen Block.len 0 bs ≤ 0 + span Block.len bs := Infra.lastLen_le
    have hgrow : wrap (h.heaptop + 8 * (k + 1)) =
      8 * (base + span Block.len (bs ++ [⟨k + 1, some n⟩])) := by
      simp only [span_append, span_cons, span_nil]
      rw [wrap_of_lt (by omega)]
      omega
    dsimp only
    rw [if_neg hne, if_neg (not_not.mpr hbrk)]
    dsimp only
    rw [if_neg hnz, hbrk, hgrow, htop, wrap_add_mblocksize (by omega)]
    refine ⟨_, rfl, ht.pos, ht.heapbase, rfl, ?_, ?_, ?_, ?_⟩
    · simp only [Heap.modify_brk, Heap.modify_heaptop, span_append, span_cons, span_nil]
      omega
    · simp only [Heap.modify_heaptop, span_append, span_cons, span_nil]
      omega
    · intro b hb
      rcases mem_append.mp hb with hb | hb
      · exact ht.positive b hb
      · rw [mem_singleton.mp hb]
        exact Nat.succ_pos k
    · rw [tiles_append]
      refine ⟨ht.laid.imp fun q p b hb _ hend hP => hP.of_eq ?_, .of_value (v := ⟨BitVec.ofNat 29
        (lastLen Block.len 0 bs), false, mmagic, mkfield (8 * (k + 1)), true, mmagic⟩) ?_ rfl ?_ ?_ rfl,
        trivial⟩
      · have hlen := ht.positive b hb
        rw [Heap.modify_mem, update_of_ne (by omega)]
      · rw [Heap.modify_mem]
        exact update_self _ _ _
      · rw [BitVec.toNat_ofNat]
        exact Nat.mod_eq_of_lt (by omega)
      · exact toNat_mkfield (by omega)
  · refine .inl ?_
    rw [if_neg hok]
    simp

/-! ## `free` -/

theorem mallocTrymerge_eq (ht : Tiled h base (a ++ b :: d :: c)) :
    ∃ h', h.mallocTrymerge (8 * (base + span Block.len a)) (8 * (base + span Block.len a + b.len)) =
        .ok h' ∧
      Tiled h' base (a ++ join b d ++ c) := by
  have hb := ht.header_at
  have ht₂ : Tiled h base ((a ++ [b]) ++ d :: c) := by simpa using ht
  have hd := ht₂.header_at
  have hend := ht₂.end_le
  have hbound := ht.bound
  have hpos := ht.len_pos
  have hpos₂ := ht₂.len_pos
  have hsize := ht.size_eq
  have hsize₂ := ht₂.size_eq
  have hnext₂ := ht₂.next_eq
  simp only [span_append, span_cons, span_nil, Nat.add_zero, lastLen_append,
    ← Nat.add_assoc] at hd hend hsize₂ hnext₂
  set q := base + span Block.len a
  have hagree : (h.mem q).nextblock = (h.mem (q + b.len)).prevblock := by
    apply BitVec.eq_of_toNat_eq
    rw [hb.nextblock, hd.prevblock]
    rfl
  rw [Heap.mallocTrymerge, Heap.header_eight, Heap.header_eight, if_neg (not_not.mpr hagree),
    hb.inuse, hd.inuse, join]
  by_cases huse : b.used.isSome = true ∨ d.used.isSome = true
  · rw [if_pos huse, if_pos huse]
    exact ⟨h, rfl, by simpa using ht⟩
  · rw [if_neg huse, if_neg huse]
    have hmerged : wrap (mblocksize + (h.mem q).size + mblocksize + (h.mem (q + b.len)).size) =
        8 * (b.len + d.len) := by
      rw [hsize, hsize₂, mblocksize, wrap_of_lt (by omega)]
      omega
    have hfield : (mkfield (8 * (b.len + d.len))).toNat = b.len + d.len := toNat_mkfield (by omega)
    simp only [hmerged, hnext₂]
    refine ⟨_, rfl, ?_⟩
    have ht' : Tiled h base (a ++ [b, d] ++ c) := by simpa using ht
    have hspan : q + b.len + d.len = q + span Block.len [b, d] := by
      simp only [span_cons, span_nil]
      omega
    rw [hspan, Heap.header_eight, Heap.modify_mem, update_self]
    have hrelink : Tiled ((h.modify (8 * q) fun c => { c with
        nextblock := mkfield (8 * (b.len + d.len)) }).setPrevblock (8 * (q + span Block.len [b, d]))
        (mkfield (8 * (b.len + d.len)))) base (a ++ [⟨b.len + d.len, none⟩] ++ c) := by
      refine ht'.relink [⟨b.len + d.len, none⟩] rfl rfl rfl (by simp) (by simp; omega) ?_ ?_ hfield
      · refine ⟨.of_value (v := { h.mem q with nextblock := mkfield (8 * (b.len + d.len)) }) ?_ hb.ok
          hb.prevblock hfield (hb.inuse.trans ?_), trivial⟩
        · rw [Heap.modify_mem, update_self]
        · simpa using (not_or.mp huse).1
      · intro i hi
        rw [← hspan] at hi
        rw [Heap.modify_mem, update_of_ne (by omega)]
    -- 消えた header の cell は、繋いだ block の中にある
    rw [append_assoc, singleton_append] at hrelink ⊢
    exact hrelink.wipe 1 (by omega) (by simp; omega)

section

variable (ht : Tiled h base (a ++ ⟨len, none⟩ :: c))

include ht

theorem merge_next :
    ∃ h' len' c', (if h.next (8 * (base + span Block.len a)) ≠ h.heaptop then
        h.mallocTrymerge (8 * (base + span Block.len a)) (h.next (8 * (base + span Block.len a)))
        else .ok h) = .ok h' ∧
      AbsorbsNext len c len' c' ∧ Tiled h' base (a ++ ⟨len', none⟩ :: c') := by
  have hnext : h.next (8 * (base + span Block.len a)) = 8 * (base + span Block.len a + len) := ht.next_eq
  have ht' : Tiled h base (a ++ [⟨len, none⟩] ++ c) := by simpa using ht
  have htop : base + span Block.len a + len = base + span Block.len (a ++ [⟨len, none⟩] ++ c) ↔ c = [] :=
    ht'.top_iff
  rw [hnext, ht'.heaptop]
  cases c with
  | nil =>
    have heq := htop.mpr rfl
    rw [if_neg (by simp only [not_not]; omega)]
    exact ⟨h, len, [], rfl, .keep (by simp), ht⟩
  | cons d c =>
    have hne := mt htop.mp (cons_ne_nil d c)
    rw [if_pos (by omega)]
    obtain ⟨h', hmerge, ht₁⟩ := ht.mallocTrymerge_eq
    refine ⟨h', ?_⟩
    cases hd : d.used with
    | none =>
      rw [join_of_free hd] at ht₁
      exact ⟨_, c, hmerge, .merge hd, by simpa using ht₁⟩
    | some n =>
      rw [join_of_used (by simp [hd])] at ht₁
      exact ⟨len, d :: c, hmerge, .keep (by simp [hd]), by simpa using ht₁⟩

theorem merge_prev :
    ∃ h' a' len', (if 8 * (base + span Block.len a) ≠ h.heapbase then
        h.mallocTrymerge (h.prev (8 * (base + span Block.len a))) (8 * (base + span Block.len a))
        else .ok h) = .ok h' ∧
      AbsorbsPrev len a a' len' ∧ Tiled h' base (a' ++ ⟨len', none⟩ :: c) := by
  rw [ht.heapbase]
  rcases eq_nil_or_concat' a with rfl | ⟨a, e, rfl⟩
  · rw [if_neg (by simp)]
    exact ⟨h, [], len, rfl, .keep (by simp), ht⟩
  · have hpos := ht.positive e (by simp)
    have hend := ht.end_le
    have hbound := ht.bound
    have hheader := ht.header_at.prevblock
    rw [span_append, span_cons, span_nil, Nat.add_zero] at hend
    have hprev : h.prev (8 * (base + span Block.len (a ++ [e]))) = 8 * (base + span Block.len a) := by
      rw [Heap.prev, Heap.header_eight, prevoff, hheader, lastLen_append, mblocksize,
        show lastLen Block.len (lastLen Block.len 0 a) [e] = e.len from rfl]
      rw [span_append, span_cons, span_nil, wsub_of_le (by omega) (by omega)]
      omega
    have ht' : Tiled h base (a ++ e :: ⟨len, none⟩ :: c) := by simpa using ht
    obtain ⟨h', hmerge, ht₁⟩ := ht'.mallocTrymerge_eq
    have hspan : base + span Block.len (a ++ [e]) = base + span Block.len a + e.len := by
      rw [span_append, span_cons, span_nil]
      omega
    rw [hprev, hspan, if_pos (by omega), hmerge]
    refine ⟨h', ?_⟩
    cases he : e.used with
    | none => exact ⟨a, e.len + len, rfl, .merge he, by simpa [join, he] using ht₁⟩
    | some n => exact ⟨a ++ [e], len, rfl, .keep (by simp [he]), by simpa [join, he] using ht₁⟩

theorem merge_eq :
    ∃ h' a' len₁ len₂ c', h.merge (8 * (base + span Block.len a)) = .ok h' ∧
      AbsorbsNext len c len₁ c' ∧ AbsorbsPrev len₁ a a' len₂ ∧
      Tiled h' base (a' ++ ⟨len₂, none⟩ :: c') := by
  obtain ⟨h₁, len₁, c', hfirst, hnext, ht₁⟩ := ht.merge_next
  obtain ⟨h₂, a', len₂, hsecond, hprev, ht₂⟩ := ht₁.merge_prev
  refine ⟨h₂, a', len₁, len₂, c', ?_, hnext, hprev, ht₂⟩
  rw [Heap.merge, hfirst]
  exact hsecond

end

theorem free_eq (ht : Tiled h base (a ++ b :: c)) (hused : b.used = some n)
    (hbelow : 8 * (base + span Block.len a + 1) ≠ h.heaptop) :
    ∃ h' a' len₁ len₂ c', h.free (8 * (base + span Block.len a + 1)) = .ok h' ∧
      AbsorbsNext b.len c len₁ c' ∧ AbsorbsPrev len₁ a a' len₂ ∧
      Tiled h' base (a' ++ ⟨len₂, none⟩ :: c') := by
  have hb := ht.header_at
  have hend := ht.end_le
  have hbound := ht.bound
  have hpos := ht.len_pos
  have hbase := ht.heapbase
  have hbasepos := ht.pos
  have hsize := ht.size_eq
  set q := base + span Block.len a
  have hmh : wsub (8 * (q + 1)) mblocksize = 8 * q := by
    rw [mblocksize, wsub_of_le (by omega) (by omega)]
    omega
  have hdata := wrap_add_mblocksize (k := q) (by omega)
  -- 印を外して中身を消す
  have hwipe := (ht.mark none).wipe (b.len - 1) (show base + span Block.len a < q + 1 by omega)
    (by simp only; omega)
  have hmerge := hwipe.merge_eq
  rw [Heap.free, if_neg (by omega), if_neg (by omega), if_neg (by omega)]
  simp only [hmh, hdata, Heap.header_eight, hb.ok, hb.inuse, hused, Option.isSome_some,
    Bool.true_eq_false, if_false]
  have hsize' : ((h.modify (8 * q) fun c => { c with inuse := false }).mem q).size =
      8 * (b.len - 1) := by
    rw [Heap.modify_mem, update_self]
    exact hsize
  rw [hsize']
  exact hmerge

end Tiled

end Os161.Malloc

