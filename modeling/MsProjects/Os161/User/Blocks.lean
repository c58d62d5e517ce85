import MsProjects.Infra.Tiling

/-!
# block の列としての heap

`malloc` の heap が表すもの。
-/

namespace Os161.Malloc

open Infra (span place)

open List

/-- header を含めた長さ（8 byte を単位とする）と、使われていれば `malloc` の引数。 -/
structure Block where
  len : Nat
  used : Option Nat

variable {base k n len len₁ len₂ : Nat} {a a' c c' bs : List Block} {b d : Block}

/-! ## 操作 -/

/-- 空いている block から `k` 個の cell を取った後の列。 -/
def carve (b : Block) (k n : Nat) : List Block :=
  if b.len < k + 3 then [⟨b.len, some n⟩] else [⟨k + 1, some n⟩, ⟨b.len - (k + 1), none⟩]

/-- 二つの隣り合う block を、どちらも空いていれば繋ぐ。 -/
def join (b d : Block) : List Block :=
  if b.used.isSome = true ∨ d.used.isSome = true then [b, d] else [⟨b.len + d.len, none⟩]

theorem join_of_free {len : Nat} (hd : d.used = none) : join ⟨len, none⟩ d = [⟨len + d.len, none⟩] := by
  simp [join, hd]

theorem join_of_used {len : Nat} (hd : d.used.isSome = true) : join ⟨len, none⟩ d = [⟨len, none⟩, d] := by
  simp [join, hd]

/-- 空いた block が、次の block も空いていればそれを取り込む。 -/
inductive AbsorbsNext (len : Nat) : List Block → Nat → List Block → Prop where
  | keep {c : List Block} (h : ∀ d ∈ c.head?, d.used.isSome = true) : AbsorbsNext len c len c
  | merge {d : Block} {c : List Block} (h : d.used = none) : AbsorbsNext len (d :: c) (len + d.len) c

/-- 空いた block を、手前の block も空いていれば取り込ませる。 -/
inductive AbsorbsPrev (len : Nat) : List Block → List Block → Nat → Prop where
  | keep {a : List Block} (h : ∀ e ∈ a.getLast?, e.used.isSome = true) : AbsorbsPrev len a a len
  | merge {a : List Block} {e : Block} (h : e.used = none) :
      AbsorbsPrev len (a ++ [e]) a (e.len + len)

/-! ## 使われている block -/

/-- block の pointer と引数。 -/
def Block.live (q : Nat) (b : Block) : Option (Nat × Nat) := b.used.map fun n => (8 * (q + 1), n)

/-- 列の中の使われている block。 -/
def livePairs (base : Nat) (bs : List Block) : List (Nat × Nat) :=
  (place Block.len base bs).filterMap fun u => u.2.live u.1

theorem livePairs_append :
    livePairs base (a ++ bs) = livePairs base a ++ livePairs (base + span Block.len a) bs := by
  rw [livePairs, Infra.place_append, filterMap_append]
  rfl

theorem livePairs_cons (hfree : b.used = none) :
    livePairs base (b :: c) = livePairs (base + b.len) c := by
  simp [livePairs, place, Block.live, hfree]

theorem livePairs_cons_used (hused : b.used = some n) :
    livePairs base (b :: c) = (8 * (base + 1), n) :: livePairs (base + b.len) c := by
  simp [livePairs, place, Block.live, hused]

theorem mem_livePairs {x : Nat × Nat} (h : x ∈ livePairs base bs) :
    ∃ a b c, bs = a ++ b :: c ∧ b.used = some x.2 ∧ x.1 = 8 * (base + span Block.len a + 1) := by
  obtain ⟨⟨q, b⟩, hmem, hlive⟩ := mem_filterMap.mp h
  obtain ⟨n, hn, rfl⟩ := Option.map_eq_some_iff.mp hlive
  obtain ⟨a, c, rfl, rfl⟩ := Infra.exists_of_mem_place hmem
  exact ⟨a, b, c, rfl, hn, rfl⟩

theorem nodup_livePairs (hpos : ∀ b ∈ bs, 0 < b.len) : ((livePairs base bs).map Prod.fst).Nodup := by
  rw [List.Nodup, pairwise_map, livePairs, pairwise_filterMap]
  refine List.Pairwise.imp_of_mem ?_ Infra.pairwise_place
  rintro ⟨q, b⟩ ⟨r, d⟩ hb - hle x hx y hy
  obtain ⟨n, -, rfl⟩ := Option.map_eq_some_iff.mp hx
  obtain ⟨m, -, rfl⟩ := Option.map_eq_some_iff.mp hy
  have hlen := hpos b (Infra.mem_place hb).1
  simp only at hle ⊢
  omega

theorem livePairs_carve (hfree : b.used = none) (hk : k < b.len) :
    (livePairs base (a ++ carve b k n ++ c)).Perm
      ((8 * (base + span Block.len a + 1), n) :: livePairs base (a ++ b :: c)) := by
  have hcarve (q : Nat) : livePairs q (carve b k n ++ c) = (8 * (q + 1), n) :: livePairs (q + b.len) c := by
    rw [carve]
    split
    · exact livePairs_cons_used rfl
    · have hlen : q + (k + 1) + (b.len - (k + 1)) = q + b.len := by
        rw [Nat.add_assoc, Nat.add_sub_cancel' hk]
      rw [cons_append, livePairs_cons_used rfl, singleton_append, livePairs_cons rfl, hlen]
  rw [append_assoc, livePairs_append, hcarve, livePairs_append, livePairs_cons hfree]
  exact perm_middle

theorem livePairs_absorbsNext (h : AbsorbsNext len c len₁ c') :
    livePairs base (⟨len₁, none⟩ :: c') = livePairs base (⟨len, none⟩ :: c) := by
  cases h with
  | keep => rfl
  | merge hd => rw [livePairs_cons rfl, livePairs_cons rfl, livePairs_cons hd, Nat.add_assoc]

theorem livePairs_absorbsPrev (h : AbsorbsPrev len a a' len₁) :
    livePairs base (a' ++ ⟨len₁, none⟩ :: c) = livePairs base (a ++ ⟨len, none⟩ :: c) := by
  cases h with
  | keep => rfl
  | merge he =>
    rw [append_assoc, singleton_append, livePairs_append, livePairs_append,
      livePairs_cons rfl, livePairs_cons he, livePairs_cons rfl, Nat.add_assoc _ _ len]

/-! ## 保たれる性質 -/

/-- どちらかは使われている。 -/
def Apart (b d : Block) : Prop := b.used.isSome = true ∨ d.used.isSome = true

/-- 使われている block は引数の大きさを持ち、空いている block は隣り合わない。 -/
structure Wf (bs : List Block) : Prop where
  fits : ∀ b ∈ bs, ∀ n ∈ b.used, n ≤ 8 * (b.len - 1)
  apart : bs.IsChain Apart

theorem isChain_middle :
    (a ++ b :: c).IsChain Apart ↔ a.IsChain Apart ∧ c.IsChain Apart ∧
      (∀ e ∈ a.getLast?, Apart e b) ∧ ∀ d ∈ c.head?, Apart b d := by
  rw [isChain_append, isChain_cons]
  simp only [head?_cons, Option.mem_def, Option.some.injEq, forall_eq']
  tauto

namespace Wf

theorem replace {m : List Block} (h : Wf (a ++ b :: c)) (hm : ∀ d ∈ m, ∀ n ∈ d.used, n ≤ 8 * (d.len - 1))
    (hapart : (a ++ m ++ c).IsChain Apart) : Wf (a ++ m ++ c) := by
  refine ⟨fun d hd => ?_, hapart⟩
  simp only [mem_append] at hd
  rcases hd with (hd | hd) | hd
  · exact h.fits d (by simp [hd])
  · exact hm d hd
  · exact h.fits d (by simp [hd])

theorem carve (h : Wf (a ++ b :: c)) (hfree : b.used = none) (hk : k < b.len) (hn : n ≤ 8 * k) :
    Wf (a ++ carve b k n ++ c) := by
  obtain ⟨ha, hc, -, hright⟩ := isChain_middle.mp h.apart
  refine h.replace (fun d hd => ?_) ?_ <;> rw [Malloc.carve] at *
  · split at hd
    · obtain rfl := mem_singleton.mp hd
      simp only [Option.mem_def, Option.some.injEq, forall_eq']
      omega
    · simp only [mem_cons, not_mem_nil, or_false] at hd
      rcases hd with rfl | rfl
      · simpa using hn
      · simp
  · split
    · rw [append_assoc, singleton_append]
      exact isChain_middle.mpr ⟨ha, hc, fun e _ => .inr rfl, fun d _ => .inl rfl⟩
    · -- 残りの空いた block の次は、元の block の次なので使われている
      have hrest : ((⟨b.len - (k + 1), none⟩ : Block) :: c).IsChain Apart := by
        refine isChain_cons.mpr ⟨fun d hd => .inr ?_, hc⟩
        simpa [Apart, hfree] using hright d hd
      rw [append_assoc, cons_append, singleton_append]
      exact isChain_middle.mpr ⟨ha, hrest, fun e _ => .inr rfl, fun d _ => .inl rfl⟩

theorem concat (h : Wf bs) (hn : n ≤ 8 * k) : Wf (bs ++ [⟨k + 1, some n⟩]) := by
  refine ⟨fun d hd => ?_, ?_⟩
  · rcases mem_append.mp hd with hd | hd
    · exact h.fits d hd
    · obtain rfl := mem_singleton.mp hd
      simpa using hn
  · exact isChain_middle.mpr ⟨h.apart, .nil, fun e _ => .inr rfl, by simp⟩

theorem absorb (h : Wf (a ++ b :: c)) (hnext : AbsorbsNext len c len₁ c')
    (hprev : AbsorbsPrev len₁ a a' len₂) : Wf (a' ++ ⟨len₂, none⟩ :: c') := by
  obtain ⟨ha, hc, -, -⟩ := isChain_middle.mp h.apart
  have hright : c'.IsChain Apart ∧ (∀ d ∈ c'.head?, d.used.isSome = true) ∧ ∀ d ∈ c', d ∈ c := by
    cases hnext with
    | keep hhead => exact ⟨hc, hhead, fun d hd => hd⟩
    | merge hd =>
      rw [isChain_cons] at hc
      refine ⟨hc.2, fun e he => ?_, fun e he => mem_cons_of_mem _ he⟩
      simpa [Apart, hd] using hc.1 e he
  have hleft : a'.IsChain Apart ∧ (∀ e ∈ a'.getLast?, e.used.isSome = true) ∧ ∀ e ∈ a', e ∈ a := by
    cases hprev with
    | keep hlast => exact ⟨ha, hlast, fun e he => he⟩
    | merge he =>
      obtain ⟨ha, -, hlast, -⟩ := isChain_middle.mp ha
      refine ⟨ha, fun d hd => ?_, fun d hd => mem_append_left _ hd⟩
      simpa [Apart, he] using hlast d hd
  refine ⟨fun d hd => ?_, isChain_middle.mpr ⟨hleft.1, hright.1, fun e he => .inl (hleft.2.1 e he),
    fun d hd => .inr (hright.2.1 d hd)⟩⟩
  rcases mem_append.mp hd with hd | hd
  · exact h.fits d (mem_append_left _ (hleft.2.2 d hd))
  · rcases mem_cons.mp hd with rfl | hd
    · simp
    · exact h.fits d (mem_append_right _ (mem_cons_of_mem _ (hright.2.2 d hd)))

end Wf

end Os161.Malloc
