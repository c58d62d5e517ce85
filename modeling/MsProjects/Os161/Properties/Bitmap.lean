import MsProjects.Infra.Bits
import MsProjects.Infra.Run
import MsProjects.Os161.Lib.Bitmap

/-! # bitmap の操作の仕様 -/

namespace Os161.Bitmap

open List Function Infra.Comp

open Infra (Comp)

variable {b : Bitmap} {i j : Nat}

theorem isset_update (b : Bitmap) (i j : Nat) (w : BitVec 8) :
    isset { b with v := update b.v (i / 8) w } j =
      if j / 8 = i / 8 then w.getLsbD (j % 8) else b.isset j := by
  unfold isset
  split
  · next hw => simp only [hw, update_self]
  · next hw => simp only [update_of_ne hw]

theorem isset_set (b : Bitmap) (i j : Nat) : (b.set i).isset j = (b.isset j || decide (j = i)) := by
  rw [set, isset_update]
  by_cases hw : j / 8 = i / 8
  · rw [if_pos hw, Infra.getLsbD_set _ (Nat.mod_lt _ (by decide)), ← hw, isset]
    congr 1
    simp only [decide_eq_decide]
    exact ⟨fun hm => Nat.ext_div_mod hw hm.symm, fun heq => heq ▸ rfl⟩
  · have hne : j ≠ i := fun heq => hw (heq ▸ rfl)
    simp [hw, hne]

theorem isset_clear (b : Bitmap) (i j : Nat) : (b.clear i).isset j = (b.isset j && !decide (j = i)) := by
  rw [clear, isset_update]
  by_cases hw : j / 8 = i / 8
  · rw [if_pos hw, Infra.getLsbD_clear _ (Nat.mod_lt _ (by decide)), ← hw, isset]
    congr 2
    simp only [decide_eq_decide]
    exact ⟨fun hm => Nat.ext_div_mod hw hm.symm, fun heq => heq ▸ rfl⟩
  · have hne : j ≠ i := fun heq => hw (heq ▸ rfl)
    simp [hw, hne]

theorem find_word {w : BitVec 8} (hw : w ≠ BitVec.allOnes 8) :
    ∃ j : Fin 8, (finRange 8).find? (fun j : Fin 8 => !w.getLsbD j) = some j ∧
      w.getLsbD j = false ∧ ∀ k : Fin 8, k < j → w.getLsbD k = true := by
  cases hfind : (finRange 8).find? fun j : Fin 8 => !w.getLsbD j with
  | none =>
    refine absurd (BitVec.eq_of_getLsbD_eq fun k hk => ?_) hw
    have hnone := find?_eq_none.mp hfind ⟨k, hk⟩ (mem_finRange _)
    rw [BitVec.getLsbD_allOnes, decide_eq_true hk]
    simpa using hnone
  | some j =>
    refine ⟨j, rfl, by simpa using find?_some hfind, fun k hk => ?_⟩
    obtain ⟨-, l₁, l₂, heq, hbefore⟩ := find?_eq_some_iff_append.mp hfind
    -- `finRange` は小さい順に並ぶので、`j` より小さい番号は前にある
    have hmem : k ∈ l₁ ++ j :: l₂ := heq ▸ mem_finRange k
    have hsorted : (l₁ ++ j :: l₂).Pairwise (· < ·) := heq ▸ pairwise_lt_finRange 8
    rcases mem_append.mp hmem with hk' | hk'
    · simpa using hbefore k hk'
    · rcases mem_cons.mp hk' with rfl | hk'
      · exact absurd hk (lt_irrefl _)
      · have hlt := (pairwise_cons.mp (pairwise_append.mp hsorted).2.1).1 k hk'
        exact absurd hk (lt_asymm hlt)

theorem find_eq (b : Bitmap) (ix n : Nat) :
    (b.find ix n = some (.error .enospc) ∧ ∀ j, ix * 8 ≤ j → j < (ix + n) * 8 → b.isset j = true) ∨
      ∃ i, b.find ix n = some (.ok i) ∧ ix * 8 ≤ i ∧ i < (ix + n) * 8 ∧ b.isset i = false ∧
        ∀ j, ix * 8 ≤ j → j < i → b.isset j = true := by
  induction n generalizing ix with
  | zero => exact .inl ⟨rfl, fun j hle hlt => absurd hle (by omega)⟩
  | succ n ih =>
    rw [find]
    by_cases hw : b.v ix ≠ BitVec.allOnes 8
    · obtain ⟨j, hfind, hclear, hbefore⟩ := find_word hw
      rw [if_pos hw, hfind]
      have hj := j.isLt
      have hdiv : (ix * 8 + j) / 8 = ix := by omega
      have hmod : (ix * 8 + j) % 8 = j := by omega
      refine .inr ⟨ix * 8 + j, rfl, by omega, by omega, ?_, fun k hle hlt => ?_⟩
      · rw [isset, hdiv, hmod]
        exact hclear
      · have hkdiv : k / 8 = ix := by omega
        rw [isset, hkdiv]
        exact hbefore ⟨k % 8, Nat.mod_lt _ (by decide)⟩ (Fin.lt_def.mpr (by simp only; omega))
    · rw [if_neg hw]
      have hfull : ∀ j, ix * 8 ≤ j → j < (ix + 1) * 8 → b.isset j = true := by
        intro j hle hlt
        have hdiv : j / 8 = ix := by omega
        rw [isset, hdiv, not_not.mp hw, BitVec.getLsbD_allOnes]
        simpa using Nat.mod_lt j (by decide)
      rcases ih (ix + 1) with ⟨heq, hall⟩ | ⟨i, heq, hle, hlt, hclear, hbefore⟩
      · refine .inl ⟨heq, fun j hle hlt => ?_⟩
        rcases Nat.lt_or_ge j ((ix + 1) * 8) with h | h
        · exact hfull j hle h
        · exact hall j h (by omega)
      · refine .inr ⟨i, heq, by omega, by omega, hclear, fun j hle' hlt' => ?_⟩
        rcases Nat.lt_or_ge j ((ix + 1) * 8) with h | h
        · exact hfull j hle' h
        · exact hbefore j h hlt'

theorem alloc_post (hsize : b.nbits + 7 < 2 ^ 32)
    (hpad : ∀ i, b.nbits ≤ i → i < words b.nbits * 8 → b.isset i = true) :
    Comp.Post alloc b
      (fun i b' => i < b.nbits ∧ b.isset i = false ∧ (∀ j < i, b.isset j = true) ∧ b' = b.set i)
      (fun e b' => e = .enospc ∧ b' = b ∧ ∀ i < b.nbits, b.isset i = true) := by
  have hwords : b.nbits ≤ words b.nbits * 8 := by
    rw [words]
    omega
  simp only [alloc, post_bind, post_get]
  rcases find_eq b 0 (words b.nbits) with ⟨heq, hall⟩ | ⟨i, heq, -, hlt, hclear, hbefore⟩
  · simp only [heq, post_throw]
    exact ⟨trivial, trivial, fun i hi => hall i (by omega) (by omega)⟩
  · have hi : i < b.nbits := by
      by_contra hge
      rw [hpad i (by omega) (by omega)] at hclear
      cases hclear
    simp only [heq, post_bind, post_modify, post_assert, post_pure]
    exact ⟨hi, hi, hclear, fun j hj => hbefore j (by omega) hj, trivial⟩

/-! ## 作った bitmap の操作の列 -/

/-- 末尾の byte の余りの bit は立っている。 -/
def Padded (b : Bitmap) : Prop := ∀ i, b.nbits ≤ i → i < (b.nbits + 7) / 8 * 8 → b.isset i = true

/-- `b'` は `b` の `i` 番の bit だけを変えたものである。 -/
def Flips (b : Bitmap) (i : Nat) (b' : Bitmap) : Prop :=
  b'.nbits = b.nbits ∧ ∀ j, b'.isset j = if j = i then !b.isset j else b.isset j

theorem flips_set (hi : b.isset i = false) : b.Flips i (b.set i) := by
  refine ⟨rfl, fun j => ?_⟩
  rw [isset_set]
  split
  · next heq => simp [heq, hi]
  · next hne => simp [hne]

theorem flips_clear (hi : b.isset i = true) : b.Flips i (b.clear i) := by
  refine ⟨rfl, fun j => ?_⟩
  rw [isset_clear]
  split
  · next heq => simp [heq, hi]
  · next hne => simp [hne]

theorem Padded.flips {b' : Bitmap} (hb : Padded b) (hi : i < b.nbits) (h : b.Flips i b') : Padded b' := by
  intro j hle hlt
  rw [h.1] at hle hlt
  rw [h.2, if_neg (by omega)]
  exact hb j hle hlt

/-- `bitmap_create` の二つの `KASSERT` はいつも成り立つ。 -/
theorem create_asserts {n : Nat} (h : n / 8 < words n) :
    n / 8 = words n - 1 ∧ 0 < n - (words n - 1) * 8 ∧ n - (words n - 1) * 8 < 8 := by
  rw [words] at *
  omega

theorem padded_create {n : Nat} (hsize : n + 7 < 2 ^ 32) : Padded (create n) := by
  intro i hle hlt
  replace hle : n ≤ i := hle
  replace hlt : i < (n + 7) / 8 * 8 := hlt
  have hwords : n / 8 < words n := by
    rw [words]
    omega
  obtain ⟨hix, -, hover⟩ := create_asserts hwords
  have hdiv : i / 8 = words n - 1 := by omega
  have hbits : ∀ k < 8, ∀ j < 8, k ≤ j → ((range 8).foldl (fun w j =>
      if k ≤ j then w ||| BitVec.twoPow 8 j else w) (0 : BitVec 8)).getLsbD j = true := by decide
  simp only [isset, create, if_pos hwords, hdiv, update_self]
  exact hbits _ hover _ (Nat.mod_lt _ (by decide)) (by omega)

/-- 操作。 -/
inductive Op where
  | alloc
  | mark (index : Nat)
  | unmark (index : Nat)

def Op.run : Op → Comp Errno Bitmap Unit
  | .alloc => do
    let _ ← Bitmap.alloc
    pure ()
  | .mark index => Bitmap.mark index
  | .unmark index => Bitmap.unmark index

/-- `nbits` より小さい番号の、下りている bit を立てるか、立っている bit を下ろす。 -/
def Op.Allowed (b : Bitmap) : Op → Prop
  | .alloc => True
  | .mark index => index < b.nbits ∧ b.isset index = false
  | .unmark index => index < b.nbits ∧ b.isset index = true

def Step (b : Bitmap) (op : Op) (b' : Bitmap) : Prop := op.Allowed b ∧ ∃ r, op.run b = some (r, b')

/-- 余りの bit は立っていて、`bitmap_alloc` は最も小さい空きを返し、どの操作も一つの bit だけを変える。 -/
structure Exact (b : Bitmap) : Prop where
  padded : Padded b
  alloc : Comp.Post Bitmap.alloc b
    (fun i b' => i < b.nbits ∧ b.isset i = false ∧ (∀ j < i, b.isset j = true) ∧ b.Flips i b')
    (fun e b' => e = .enospc ∧ b' = b ∧ ∀ i < b.nbits, b.isset i = true)
  mark : ∀ i < b.nbits, b.isset i = false →
    Comp.Post (Bitmap.mark i) b (fun _ b' => b.Flips i b') fun _ _ => False
  unmark : ∀ i < b.nbits, b.isset i = true →
    Comp.Post (Bitmap.unmark i) b (fun _ b' => b.Flips i b') fun _ _ => False

theorem Padded.exact (hb : Padded b) (hsize : b.nbits + 7 < 2 ^ 32) : Exact b where
  padded := hb
  alloc := by
    refine (alloc_post hsize fun i hle hlt => hb i hle ?_).imp fun i b' ⟨hi, hclear, hbefore, heq⟩ => ?_
    · rwa [words, Nat.mod_eq_of_lt hsize] at hlt
    · exact ⟨hi, hclear, hbefore, heq ▸ flips_set hclear⟩
  mark i hi hclear := by
    simp only [Bitmap.mark, post_bind, post_get, post_assert, post_modify]
    exact ⟨hi, hclear, flips_set hclear⟩
  unmark i hi hset := by
    simp only [Bitmap.unmark, post_bind, post_get, post_assert, post_modify]
    exact ⟨hi, hset, flips_clear hset⟩

theorem Exact.step {op : Op} {b' : Bitmap} (hb : Exact b) (h : Step b op b') :
    Padded b' ∧ b'.nbits = b.nbits := by
  obtain ⟨hallowed, r, h⟩ := h
  have hflips {i : Nat} {b' : Bitmap} (hi : i < b.nbits) (hf : b.Flips i b') :
      Padded b' ∧ b'.nbits = b.nbits :=
    ⟨hb.padded.flips hi hf, hf.1⟩
  have hpost : Comp.Post op.run b (fun _ b' => Padded b' ∧ b'.nbits = b.nbits)
      fun _ b' => Padded b' ∧ b'.nbits = b.nbits := by
    cases op with
    | alloc =>
      simp only [Op.run, post_bind, post_pure]
      exact hb.alloc.mono (fun _ _ hok => hflips hok.1 hok.2.2.2)
        fun _ _ herr => herr.2.1.symm ▸ ⟨hb.padded, rfl⟩
    | mark i =>
      exact (hb.mark i hallowed.1 hallowed.2).mono (fun _ _ => hflips hallowed.1) fun _ _ => False.elim
    | unmark i =>
      exact (hb.unmark i hallowed.1 hallowed.2).mono (fun _ _ => hflips hallowed.1) fun _ _ => False.elim
  cases r with
  | ok => exact hpost.of_ok h
  | error => exact hpost.of_error h

/--
**作った bitmap のどの操作の列の後でも、余りの bit は立っていて、`bitmap_alloc` は最も小さい空きを返し、どの操作も
一つの bit だけを変える。ただし `DIVROUNDUP` の足し算が溢れないとき、かつそのときに限る。**
-/
theorem bitmap_exact_iff (nbits : UInt32) :
    (∀ tr b, Infra.Run Step (create nbits.toNat) tr b → Exact b) ↔ nbits.toNat + 7 < 2 ^ 32 := by
  constructor
  · intro h
    by_contra hge
    have hwords : words nbits.toNat = 0 := by
      have hlt := nbits.toNat_lt
      rw [words]
      omega
    have hfind : (create nbits.toNat).find 0 (words (create nbits.toNat).nbits) =
        some (.error .enospc) := by
      show find _ 0 (words nbits.toNat) = _
      rw [hwords, find]
    -- 語が一つも無いので、どの bit も立っていないのに空きが見つからない
    have halloc := (h [] _ (.nil _)).alloc
    simp only [Bitmap.alloc, post_bind, post_get, hfind, post_throw] at halloc
    have hset := halloc.2.2 0 (show 0 < nbits.toNat by omega)
    simp [isset, create, hwords] at hset
  · intro hsize tr b hrun
    obtain ⟨⟨hpad, hn⟩, -⟩ := hrun.invariant' (I := fun b => Padded b ∧ b.nbits = nbits.toNat)
      (fun hp hstep => (hp.1.exact (hp.2 ▸ hsize)).step hstep |>.imp id (·.trans hp.2))
      ⟨padded_create hsize, rfl⟩
    exact hpad.exact (hn ▸ hsize)

/-- 語の数が 0 に溢れた bitmap は、何も立っていないのに空きが無い。 -/
theorem bitmap_full_at_once :
    Bitmap.alloc (create (2 ^ 32 - 1)) = some (.error .enospc, create (2 ^ 32 - 1)) ∧
      (create (2 ^ 32 - 1)).isset 0 = false :=
  ⟨rfl, rfl⟩

end Os161.Bitmap
