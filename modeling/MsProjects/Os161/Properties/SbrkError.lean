import MsProjects.Os161.Properties.Room
import MsProjects.Os161.Properties.Sbrk

/-!
# 失敗した sbrk
-/

namespace Os161

/-! ## page_alloc の失敗 -/

theorem pageAlloc_false {n : Nat} {v : Vaddr} {c c' : Cur} (hcount : CountsFit c.as.tables)
    (h : pageAlloc n v c = some (false, c')) :
    c'.mem.cm.frees = 0 ∧ (c.mem.cm.frees = 0 → c' = c) ∧
      ∃ i < n, c.mem.cm.frees = framesFor (room c.as.tables) i := by
  induction n generalizing v c with
  | zero => cases h
  | succ n ih =>
    rcases takePage_cases v true true false hcount with
      ⟨hzero, hnone⟩ | ⟨-, -, paddr, mem, halloc, hadd⟩ |
        ⟨paddr, c₁, ⟨mem, halloc, hadd⟩, hcounts, hbudget, -⟩
    · simp only [pageAlloc, hnone] at h
      cases h
      exact ⟨hzero, fun _ => rfl, 0, Nat.succ_pos n, by rw [hzero, framesFor_zero]⟩
    · simp [pageAlloc, halloc, hadd] at h
    · simp only [pageAlloc, halloc, hadd] at h
      obtain ⟨hfrees, -, i, hi, heq⟩ := ih
        (c := { c₁ with as := { c₁.as with heapNPages := c₁.as.heapNPages + 1 } }) hcounts h
      have hi' : c₁.mem.cm.frees = framesFor (room c₁.as.tables) i := heq
      have := hbudget i
      have hpos := le_framesFor (room c.as.tables) (i + 1)
      exact ⟨hfrees, fun hzero => by omega, i + 1, by omega, by omega⟩

theorem exists_pageAlloc_false {n i : Nat} {v : Vaddr} {c : Cur} (hcount : CountsFit c.as.tables)
    (hi : i < n)
    (hfrees : c.mem.cm.frees = framesFor (room c.as.tables) i) :
    ∃ c', pageAlloc n v c = some (false, c') := by
  induction n generalizing v c i with
  | zero => omega
  | succ n ih =>
    rcases takePage_cases v true true false hcount with
      ⟨-, hnone⟩ | ⟨hone, hroom, -⟩ | ⟨paddr, c₁, ⟨mem, halloc, hadd⟩, hcounts, hbudget, -⟩
    · exact ⟨c, by simp [pageAlloc, hnone]⟩
    · -- 余りが無いとき、要る frame の数は 1 にならない
      rw [hroom] at hfrees
      cases i with
      | zero => simp at hfrees; omega
      | succ i =>
        rw [framesFor_zero_succ] at hfrees
        omega
    · cases i with
      | zero =>
        have := Mem.allocUpage_eq_none_iff.mpr (hfrees.trans (framesFor_zero _))
        rw [halloc] at this
        cases this
      | succ i =>
        have := hbudget i
        obtain ⟨c', hc'⟩ := ih (v := v + pageSize) (i := i)
          (c := { c₁ with as := { c₁.as with heapNPages := c₁.as.heapNPages + 1 } }) hcounts (by omega)
          (show c₁.mem.cm.frees = framesFor (room c₁.as.tables) i by omega)
        exact ⟨c', by simp only [pageAlloc, halloc, hadd]; exact hc'⟩

/-! ## sys_sbrk の失敗 -/

/-- break、heap の枚数、表、coremap が変わらない。 -/
structure SbrkUnchanged (c c' : Cur) : Prop where
  vbreaktop : c'.as.vbreaktop = c.as.vbreaktop
  heapNPages : c'.as.heapNPages = c.as.heapNPages
  tables : c'.as.tables = c.as.tables
  tableEnd : c'.as.end = c.as.end
  coremap : c'.mem.cm = c.mem.cm

theorem SbrkUnchanged.refl (c : Cur) : SbrkUnchanged c c := ⟨rfl, rfl, rfl, rfl, rfl⟩

/-- 失敗した `sys_sbrk` は何も変えない。 -/
def SbrkAtomic (amount : Int32) (c : Cur) : Prop :=
  ∀ err c', sysSbrk amount c = some (.error err, c') → SbrkUnchanged c c'

/-- `sys_sbrk` が `ENOMEM` にならないか、`amount` が 0 で frame を一つも取れない。 -/
structure SbrkSafe (amount : Int32) (c : Cur) : Prop where
  limit : stackBase - 4096 ≤ (c.as.moveBreak amount).vbreaktop → amount = 0
  frames : (c.as.moveBreak amount).vbreaktop < stackBase - 4096 →
    c.as.vbreakbase ≤ (c.as.moveBreak amount).vbreaktop →
    c.as.heapNPages * pageSize ≤ (c.as.moveBreak amount).vbreaktop - c.as.vbreakbase →
    ∀ i < (sbrkNPages (c.as.moveBreak amount)).toNat, c.mem.cm.frees = framesFor (room c.as.tables) i →
      amount = 0 ∧ i = 0

theorem moveBreak_vbreaktop_eq_iff {as : AddrSpace} {amount : Int32} :
    (as.moveBreak amount).vbreaktop = as.vbreaktop ↔ amount = 0 := by
  constructor
  · intro h
    have hzero : amount.toUInt32 = 0 := by simpa using h
    simpa using congrArg UInt32.toInt32 hzero
  · rintro rfl
    exact UInt32.add_zero _

/--
**失敗した `sys_sbrk` が break、heap の枚数、page table、coremap のどれも変えないのは、`ENOMEM` にならないか、
`amount` が 0 で frame を一つも取れないとき、かつそのときに限る。**

`EINVAL` のときだけ break は元に戻される。途中で frame が尽きたとき、それまでに足した page は残る。
-/
theorem sbrk_atomic_iff {c : Cur} (hcount : CountsFit c.as.tables) (amount : Int32) :
    SbrkAtomic amount c ↔ SbrkSafe amount c := by
  constructor
  · intro hatomic
    constructor
    · intro hlimit
      have herror : sysSbrk amount c = some (.error .enomem, ⟨c.mem, c.as.moveBreak amount⟩) := by
        rw [sysSbrk]
        exact if_pos hlimit
      exact moveBreak_vbreaktop_eq_iff.mp (hatomic _ _ herror).vbreaktop
    · intro hlimit hbase hgrow i hi hfrees
      obtain ⟨c', hc'⟩ := exists_pageAlloc_false (v := sbrkStart c.as.vbreaktop)
        (c := ⟨c.mem, c.as.moveBreak amount⟩) hcount hi hfrees
      have herror : sysSbrk amount c = some (.error .enomem, c') := by
        simp only [sysSbrk]
        rw [if_neg (UInt32.not_le.mpr hlimit), if_neg (UInt32.not_lt.mpr hbase), if_pos hgrow, hc']
      obtain ⟨hzero, hsame, -⟩ := pageAlloc_false (c := ⟨c.mem, c.as.moveBreak amount⟩) hcount hc'
      have hunchanged := hatomic _ _ herror
      -- frame を一つでも取っていれば coremap が変わる
      have hnone : c.mem.cm.frees = 0 := by
        rw [← hunchanged.coremap]
        exact hzero
      have hle := le_framesFor (room c.as.tables) i
      have htop : (c.as.moveBreak amount).vbreaktop = c.as.vbreaktop := by
        rw [← hunchanged.vbreaktop, hsame hnone]
      exact ⟨moveBreak_vbreaktop_eq_iff.mp htop, by omega⟩
  · rintro ⟨hlim, hfr⟩ err c' herror
    simp only [sysSbrk] at herror
    split at herror
    · next hlimit =>
      obtain rfl := hlim hlimit
      cases herror
      exact ⟨moveBreak_vbreaktop_eq_iff.mpr rfl, rfl, rfl, rfl, rfl⟩
    · next hlimit =>
      split at herror
      · cases herror
        exact .refl c
      · next hbase =>
        split at herror
        · next hgrow =>
          split at herror
          · cases herror
          · next c₁ halloc =>
            cases herror
            obtain ⟨-, hsame, i, hi, hfrees⟩ :=
              pageAlloc_false (c := ⟨c.mem, c.as.moveBreak amount⟩) hcount halloc
            obtain ⟨rfl, rfl⟩ := hfr (UInt32.not_le.mp hlimit) (UInt32.not_lt.mp hbase) hgrow i hi hfrees
            rw [hsame (hfrees.trans (framesFor_zero _))]
            exact ⟨moveBreak_vbreaktop_eq_iff.mpr rfl, rfl, rfl, rfl, rfl⟩
          · cases herror
        · cases herror

/-! ## 具体的な呼び出し -/

/-- `0x500000` から始まる heap と、frame が `n` 枚ある memory。 -/
def heapCur (n : Nat) (h : n ≤ 100000) : Cur where
  mem := Mem.boot n h
  as :=
    { vbreakbase := 0x500000, vbreaktop := 0x500000, heapNPages := 0, vstart := 0x400000
      start := PageTable.blank, next := [], «end» := 0, codeNPages := 1, dataNPages := 0 }

theorem countsFit_heapCur (n : Nat) (h : n ≤ 100000) : CountsFit (heapCur n h).as.tables := by
  intro t ht
  obtain rfl : t = PageTable.blank := by simpa [heapCur, AddrSpace.tables] using ht
  decide

/-- break を heap の始めより下げる呼び出しは `EINVAL` になり、何も変えない。 -/
theorem sbrk_atomic_below_base :
    sysSbrk (-1) (heapCur 2 (by decide)) = some (.error .einval, heapCur 2 (by decide)) ∧
      SbrkAtomic (-1) (heapCur 2 (by decide)) := by
  refine ⟨rfl, (sbrk_atomic_iff (countsFit_heapCur 2 (by decide)) (-1)).mpr ⟨fun h => ?_, fun _ h => ?_⟩⟩
  · exact absurd h (by decide)
  · exact absurd h (by decide)

/-- stack の手前を越える呼び出しは `ENOMEM` になり、break は進んだまま残る。 -/
theorem sbrk_error_changes_state :
    (∃ c', sysSbrk 0x7fa00000 (heapCur 2 (by decide)) = some (.error .enomem, c') ∧
      c'.as.vbreaktop = 0x7ff00000 ∧ ¬ SbrkUnchanged (heapCur 2 (by decide)) c') ∧
    ∃ c', sysSbrk 12288 (heapCur 2 (by decide)) = some (.error .enomem, c') ∧
      (heapCur 2 (by decide)).mem.cm.frees = 2 ∧ c'.mem.cm.frees = 0 ∧
        ¬ SbrkUnchanged (heapCur 2 (by decide)) c' := by
  refine ⟨⟨⟨_, (heapCur 2 (by decide)).as.moveBreak 0x7fa00000⟩, rfl, rfl, fun h => ?_⟩, ?_⟩
  · exact absurd h.vbreaktop (by decide)
  · have hfrees : (heapCur 2 (by decide)).mem.cm.frees = 2 := Mem.frees_boot 2 (by decide)
    have hany : ((sysSbrk 12288 (heapCur 2 (by decide))).any fun x =>
        decide (x.1 = .error .enomem ∧ x.2.mem.cm.frees = 0)) = true := by
      decide +kernel
    obtain ⟨⟨r, c'⟩, hc', herror⟩ := (Option.any_eq_true _ _).mp hany
    obtain ⟨rfl, hzero⟩ := of_decide_eq_true herror
    refine ⟨c', hc', hfrees, hzero, fun h => ?_⟩
    rw [h.coremap, hfrees] at hzero
    cases hzero

end Os161
