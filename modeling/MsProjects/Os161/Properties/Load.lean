import MsProjects.Os161.Properties.Pages

/-! # as_define_region と as_prepare_load -/

namespace Os161

/-! ## as_define_region -/

theorem asDefineRegion_tables {as as' : AddrSpace} {vaddr sz : UInt32}
    (h : asDefineRegion as vaddr sz = .ok as') :
    as'.start = as.start ∧ as'.next = as.next ∧ as'.end = as.end := by
  unfold asDefineRegion at h
  simp only at h
  split at h
  · cases h
    exact ⟨rfl, rfl, rfl⟩
  · split at h
    · cases h
      exact ⟨rfl, rfl, rfl⟩
    · cases h

/-! ## as_prepare_load -/

theorem prepareLoop_ok {base : Vaddr} {n : Nat} {i : UInt32} {c c' : Cur}
    (hc : Chain c.as.tables) (hend : c.as.EndLast)
    (h : prepareLoop base n i c = some (.ok (), c')) :
    (∃ new, PagesAdded (base + pageSize * i) n c new c') ∧ c'.as.book = c.as.book := by
  induction n generalizing i c with
  | zero =>
    simp only [prepareLoop, Option.some.injEq, Prod.mk.injEq, true_and] at h
    subst h
    exact ⟨⟨[], .nil hc hend⟩, rfl⟩
  | succ n ih =>
    rw [prepareLoop] at h
    split at h
    · simp at h
    · next paddr mem halloc =>
      have htakes := (Mem.allocUpage_some halloc).1
      split at h
      · simp at h
      · next c₁ hadd =>
        obtain ⟨_, hch, hend₁, hbook, _⟩ :=
          addPageEntry_append (c := { c with mem := mem }) hc hend htakes.ne_zero hadd
        obtain ⟨⟨new, hg⟩, hbook'⟩ := ih (c := { c₁ with mem := c₁.mem.asZeroRegion paddr })
          hch hend₁ h
        have hnext : base + pageSize * (i + 1) = base + pageSize * i + pageSize := by
          rw [UInt32.mul_add, UInt32.mul_one, UInt32.add_assoc]
        rw [hnext] at hg
        have hal : c₁.mem.Allocated paddr :=
          (addPageEntry_mem hadd).1.allocated _ ((htakes.allocated paddr).mpr (Or.inr rfl))
        exact ⟨⟨_, hg.cons hc hend htakes hadd rfl (keeps_takePage htakes hadd) hal⟩,
          hbook'.trans hbook⟩

abbrev AddrSpace.dataStart (as : AddrSpace) : Vaddr := as.vbreakbase - as.dataNPages * pageSize

theorem asPrepareLoad_ok {c c' : Cur} (hc : Chain c.as.tables) (hend : c.as.EndLast)
    (h : asPrepareLoad c = some (.ok (), c')) :
    (∃ code data c₁, PagesAdded c.as.vstart c.as.codeNPages.toNat c code c₁ ∧
      PagesAdded c.as.dataStart c.as.dataNPages.toNat c₁ data c') ∧ c'.as.book = c.as.book := by
  unfold asPrepareLoad at h
  split at h
  · next c₁ hloop =>
    obtain ⟨⟨code, hcode⟩, hbook₁⟩ := prepareLoop_ok hc hend hloop
    obtain ⟨⟨data, hdata⟩, hbook₂⟩ := prepareLoop_ok hcode.chain hcode.endLast h
    have hbreak : c₁.as.vbreakbase = c.as.vbreakbase := congrArg Book.vbreakbase hbook₁
    have hnpages : c₁.as.dataNPages = c.as.dataNPages := congrArg Book.dataNPages hbook₁
    rw [UInt32.mul_zero, UInt32.add_zero] at hcode
    rw [UInt32.mul_zero, UInt32.add_zero, hbreak, hnpages] at hdata
    exact ⟨⟨code, data, c₁, hcode, hdata⟩, hbook₂.trans hbook₁⟩
  · next hnot => exact absurd h (hnot c')

end Os161
