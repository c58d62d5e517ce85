import MsProjects.Os161.Properties.PageTable

/-! # 連続した page を足す loop -/

namespace Os161

open List Function

variable {c : Cur} {v : Vaddr} {n : Nat}

/-! ## 一回分 -/

theorem keeps_takePage {c₁ : Cur} {e : PageEntry} {mem : Mem} (htakes : c.mem.Takes e.pagePaddr mem)
    (hadd : addPageEntry ⟨mem, c.as⟩ e = some c₁) :
    c.mem.Keeps (c₁.mem.asZeroRegion e.pagePaddr) := by
  have hadd' := addPageEntry_writePage mem c.as e e.pagePaddr Page.zero
  rw [hadd] at hadd'
  -- 0 で埋めてから足したとみなす
  exact (htakes.keeps_writePage Page.zero).trans (addPageEntry_mem hadd').1

/-! ## 連続した番地 -/

/-- `v` から順に並ぶ `n` 個の page。 -/
def pagesFrom (v : Vaddr) : Nat → List Vaddr
  | 0 => []
  | n + 1 => v :: pagesFrom (v + pageSize) n

/-- `v` から始まる `n` 枚の page の entry。 -/
def entriesFrom (v : Vaddr) (n : Nat) : List PageEntry :=
  (pagesFrom v n).map fun p => ⟨p, 0x40000, true, true, false⟩

theorem nodup_of_isChain {l : List Vaddr} (h : l.IsChain (· < ·)) : l.Nodup :=
  (isChain_iff_pairwise.mp h).imp UInt32.ne_of_lt

theorem toNat_add_pageSize (h : v.toNat + 4096 < 2 ^ 32) :
    (v + pageSize).toNat = v.toNat + 4096 := by
  rw [UInt32.toNat_add, toNat_pageSize, Nat.mod_eq_of_lt h]

theorem count_pagesFrom {p : Vaddr} (hv : PageAligned v) (hp : PageAligned p)
    (hfit : v.toNat + n * 4096 < 2 ^ 32) :
    (pagesFrom v n).count p =
      if v.toNat ≤ p.toNat ∧ p.toNat < v.toNat + n * 4096 then 1 else 0 := by
  induction n generalizing v with
  | zero => rw [if_neg (by omega)]; rfl
  | succ n ih =>
    have hnext := toNat_add_pageSize (v := v) (by omega)
    have hv' : PageAligned (v + pageSize) := by
      unfold PageAligned at hv ⊢
      omega
    rw [pagesFrom, count_cons, ih hv' (by omega), hnext]
    unfold PageAligned at hv hp
    by_cases heq : v = p
    · subst heq
      rw [if_neg (by omega), if_pos (by simp), if_pos (by omega)]
    · have hne : v.toNat ≠ p.toNat := fun h => heq (UInt32.toNat.inj h)
      rw [if_neg (by simpa using heq : ¬ (v == p) = true), Nat.add_zero]
      exact if_congr (by omega) rfl rfl

theorem length_pagesFrom (v : Vaddr) (n : Nat) : (pagesFrom v n).length = n := by
  induction n generalizing v with
  | zero => rfl
  | succ n ih => rw [pagesFrom, length_cons, ih]

/-! ## 足した後の列 -/

/-- `v` から `n` 枚を足したときに成り立つこと。 -/
structure PagesAdded (v : Vaddr) (n : Nat) (c : Cur) (new : List PageEntry) (c' : Cur) : Prop where
  entries_eq : c'.as.entries = c.as.entries ++ new
  pages : new.map PageEntry.pageVaddr = pagesFrom v n
  writable : ∀ e ∈ new, e.isWrite = true
  owned : ∀ e ∈ new, c'.mem.Allocated e.pagePaddr
  chain : Chain c'.as.tables
  endLast : c'.as.EndLast
  keeps : c.mem.Keeps c'.mem

theorem PagesAdded.nil (hc : Chain c.as.tables) (hend : c.as.EndLast) : PagesAdded v 0 c [] c :=
  ⟨by simp, rfl, by simp, by simp, hc, hend, Mem.Keeps.refl _⟩

theorem PagesAdded.cons {c₁ c₂ c' : Cur} {new : List PageEntry} {mem : Mem} {paddr : Paddr}
    (h : PagesAdded (v + pageSize) n c₂ new c') (hc : Chain c.as.tables) (hend : c.as.EndLast)
    (htakes : c.mem.Takes paddr mem)
    (hadd : addPageEntry { c with mem := mem } ⟨v, paddr, true, true, false⟩ = some c₁)
    (hsame : c₂.as.entries = c₁.as.entries) (hk : c.mem.Keeps c₂.mem) (hal : c₂.mem.Allocated paddr) :
    PagesAdded v (n + 1) c (⟨v, paddr, true, true, false⟩ :: new) c' := by
  obtain ⟨hent, _⟩ := addPageEntry_append (c := { c with mem := mem }) hc hend htakes.ne_zero hadd
  refine ⟨?_, ?_, ?_, ?_, h.chain, h.endLast, hk.trans h.keeps⟩
  · rw [h.entries_eq, hsame, hent]
    simp
  · rw [map_cons, h.pages]
    rfl
  · intro e he
    rcases mem_cons.mp he with rfl | he
    · rfl
    · exact h.writable e he
  · intro e he
    rcases mem_cons.mp he with rfl | he
    · exact h.keeps.allocated _ hal
    · exact h.owned e he

end Os161
