import MsProjects.Os161.Syscall.Loading
import MsProjects.Os161.Properties.LoadElf
import MsProjects.Os161.Properties.UserStore

/-! # 読み込みの失敗 -/

namespace Os161

open List Function Book Tlb

/-! ## as_destroy を呼ぶ前の load_elf -/

/-- `as_destroy` を呼ぶ前の `prepareLoop`。 -/
def prepareFill (base : Vaddr) : Nat → UInt32 → Cur → Option (Bool × Cur)
  | 0, _, c => some (true, c)
  | n + 1, i, c =>
    match c.mem.allocUpage with
    | none => some (false, c)
    | some (paddr, mem) =>
      match addPageEntry { c with mem := mem } ⟨base + pageSize * i, paddr, true, true, false⟩ with
      | none => none
      | some c => prepareFill base n (i + 1) { c with mem := c.mem.asZeroRegion paddr }

/-- `as_destroy` を呼ぶ前の `as_prepare_load`。 -/
def asPrepareFill (c : Cur) : Option (Bool × Cur) :=
  match prepareFill c.as.vstart c.as.codeNPages.toNat 0 c with
  | some (true, c) => prepareFill c.as.dataStart c.as.dataNPages.toNat 0 c
  | r => r

/-- frame が足りなければ address space を壊す。 -/
def prepareEnd : Bool × Cur → Except Errno Unit × Cur
  | (true, c) => (.ok (), c)
  | (false, c) => (.error .enomem, { c with mem := asDestroy c.mem c.as })

theorem prepareLoop_eq (base : Vaddr) (n : Nat) (i : UInt32) (c : Cur) :
    prepareLoop base n i c = (prepareFill base n i c).map prepareEnd := by
  induction n generalizing i c with
  | zero => rfl
  | succ n ih =>
    rw [prepareLoop, prepareFill]
    cases c.mem.allocUpage with
    | none => rfl
    | some r =>
      simp only
      cases addPageEntry { c with mem := r.2 } ⟨base + pageSize * i, r.1, true, true, false⟩ with
      | none => rfl
      | some c₁ => exact ih _ _

theorem asPrepareLoad_eq (c : Cur) : asPrepareLoad c = (asPrepareFill c).map prepareEnd := by
  rw [asPrepareLoad, asPrepareFill, prepareLoop_eq]
  rcases prepareFill c.as.vstart c.as.codeNPages.toNat 0 c with _ | ⟨_ | _, c₁⟩
  · rfl
  · rfl
  · exact prepareLoop_eq _ _ _ _

inductive LoadEnd where
  | ok (entrypoint : Vaddr)
  /-- `as_prepare_load` が address space を壊す。 -/
  | prepareFailed
  | failed (err : Errno)
  deriving DecidableEq

/-- `as_destroy` を呼ぶ前の `load_elf`。 -/
def loadElfFill (v : Vnode) (random : Nat → Nat → Fin numTlb) (s : Cpu) : Option (LoadEnd × Cpu) :=
  match v.readAll 0 ehdrSize with
  | .error err => some (.failed err, s)
  | .ok bytes =>
    let eh := ElfEhdr.ofBytes bytes
    if eh.executable = false then some (.failed .enoexec, s)
    else
      match defineRegions v eh eh.ePhnum.toNat 0 s.as with
      | (.error err, as) => some (.failed err, { s with as := as })
      | (.ok (), as) =>
        match asPrepareFill ⟨s.mem, as⟩ with
        | none => none
        | some (false, c) => some (.prepareFailed, ⟨c, s.tlb⟩)
        | some (true, c) =>
          match loadSegments v eh random eh.ePhnum.toNat 0 ⟨c, s.tlb⟩ with
          | none => none
          | some (.error err, s) => some (.failed err, s)
          | some (.ok (), s) => some (.ok eh.eEntry, { s with as := asCompleteLoad s.as })

/-- `as_prepare_load` が失敗していれば、address space を壊す。 -/
def loadEnd : LoadEnd × Cpu → Except Errno Vaddr × Cpu
  | (.ok entrypoint, s) => (.ok entrypoint, s)
  | (.prepareFailed, s) => (.error .enomem, { s with mem := asDestroy s.mem s.as })
  | (.failed err, s) => (.error err, s)

theorem loadElf_eq (v : Vnode) (random : Nat → Nat → Fin numTlb) (s : Cpu) :
    loadElf v random s = (loadElfFill v random s).map loadEnd := by
  rw [loadElf, loadElfFill]
  rcases v.readAll 0 ehdrSize with err | bytes
  · rfl
  simp only
  split
  · rfl
  rcases defineRegions v (ElfEhdr.ofBytes bytes) (ElfEhdr.ofBytes bytes).ePhnum.toNat 0
    s.as with ⟨_ | _, as⟩
  · rfl
  simp only
  rw [asPrepareLoad_eq]
  rcases asPrepareFill ⟨s.mem, as⟩ with _ | ⟨_ | _, c⟩
  · rfl
  · rfl
  · simp only [Option.map_some, prepareEnd]
    rcases loadSegments v (ElfEhdr.ofBytes bytes) random (ElfEhdr.ofBytes bytes).ePhnum.toNat 0
      ⟨c, s.tlb⟩ with
      _ | ⟨_ | _, s'⟩ <;> rfl

/-! ## as_prepare_load に要る frame -/

section

variable {s : Cpu}

theorem prepareFill_end (h : StoreOk 0 s) (base : Vaddr) (n : Nat) (i : UInt32) :
    (framesFor (room s.as.tables) n ≤ s.mem.cm.frees ∧ ∃ c, prepareFill base n i s.toCur = some (true, c) ∧
        Extended 0 s (pagesFrom (base + pageSize * i) n) [] ⟨c, s.tlb⟩) ∨
      (s.mem.cm.frees < framesFor (room s.as.tables) n ∧
        (prepareFill base n i s.toCur = none ∨ ∃ c, prepareFill base n i s.toCur = some (false, c) ∧
          ∀ m : Mem, m.Took s.as.released s.mem → m.Took c.as.released c.mem)) := by
  induction n generalizing i s with
  | zero => exact .inl ⟨by simp, s.toCur, rfl, .refl h⟩
  | succ n ih =>
    rw [prepareFill]
    rcases takePage_cases (c := s.toCur) (base + pageSize * i) true true false
      (countsFit_of_chain h.chain) with
      ⟨hzero, halloc⟩ | ⟨hone, hroom, paddr, mem, halloc, hadd⟩ | ⟨paddr, c₁, htakes⟩
    · refine .inr ⟨?_, .inr ⟨s.toCur, by rw [halloc], fun _ h => h⟩⟩
      rw [hzero]
      exact (Nat.succ_pos n).trans_le (le_framesFor _ _)
    · refine .inr ⟨?_, .inl (by rw [halloc]; simp only [hadd])⟩
      rw [hone, hroom, framesFor_zero_succ]
      omega
    · have hext := h.take htakes
      have hbudget := hext.budget n
      rw [length_singleton, Nat.add_comm 1 n] at hbudget
      have hnext : base + pageSize * (i + 1) = base + pageSize * i + pageSize := by
        rw [UInt32.mul_add, UInt32.mul_one, UInt32.add_assoc]
      obtain ⟨mem, halloc, hadd⟩ := htakes.taken
      simp only [halloc, hadd]
      rcases ih hext.ok (i + 1) with ⟨hroom, c, hfill, htail⟩ | ⟨hshort, hfill⟩
      · refine .inl ⟨by omega, c, hfill, ?_⟩
        rw [hnext] at htail
        exact hext.trans htail
      · refine .inr ⟨by omega, hfill.imp_right ?_⟩
        exact fun ⟨c, hc, htook⟩ => ⟨c, hc, fun m h => htook m (hext.took m h)⟩

def AddrSpace.regionCount (as : AddrSpace) : Nat := as.codeNPages.toNat + as.dataNPages.toNat

theorem asPrepareFill_end (h : StoreOk 0 s) :
    (framesFor (room s.as.tables) s.as.regionCount ≤ s.mem.cm.frees ∧
        ∃ c, asPrepareFill s.toCur = some (true, c) ∧ Extended 0 s s.as.regionPages [] ⟨c, s.tlb⟩) ∨
      (s.mem.cm.frees < framesFor (room s.as.tables) s.as.regionCount ∧
        (asPrepareFill s.toCur = none ∨ ∃ c, asPrepareFill s.toCur = some (false, c) ∧
          ∀ m : Mem, m.Took s.as.released s.mem → m.Took c.as.released c.mem)) := by
  rw [asPrepareFill, AddrSpace.regionCount]
  rcases prepareFill_end h s.as.vstart s.as.codeNPages.toNat 0 with ⟨hroom, c, hfill, hext⟩ |
    ⟨hshort, hfill⟩
  · have hbudget := hext.budget s.as.dataNPages.toNat
    rw [length_pagesFrom] at hbudget
    have hnum : c.as.dataNPages = s.as.dataNPages := congrArg dataNPages hext.book
    have hstart : c.as.dataStart = s.as.dataStart := by
      rw [AddrSpace.dataStart, AddrSpace.dataStart, hnum,
        show c.as.vbreakbase = s.as.vbreakbase from congrArg vbreakbase hext.book]
    simp only [hfill, hnum, hstart]
    rcases prepareFill_end hext.ok s.as.dataStart s.as.dataNPages.toNat 0 with
      ⟨hroom', c', hfill', hext'⟩ | ⟨hshort', hfill'⟩
    · refine .inl ⟨by omega, c', hfill', ?_⟩
      rw [UInt32.mul_zero, UInt32.add_zero] at hext hext'
      exact hext.trans hext'
    · refine .inr ⟨by omega, hfill'.imp_right ?_⟩
      exact fun ⟨c', hc', htook⟩ => ⟨c', hc', fun m h => htook m (hext.took m h)⟩
  · have hle := framesFor_le (r := room s.as.tables)
      (Nat.le_add_right s.as.codeNPages.toNat s.as.dataNPages.toNat)
    refine .inr ⟨by omega, ?_⟩
    rcases hfill with hfill | ⟨c, hfill, htook⟩
    · exact .inl (by rw [hfill])
    · exact .inr ⟨c, by rw [hfill], htook⟩

/-! ## 読み込みの間に足される page -/

def segmentPlan (v : Vnode) (vstart : Vaddr) (mapped : List Vaddr) (ph : ElfPhdr) : List Vaddr × Bool :=
  let filesize := min ph.pFilesz.toNat ph.pMemsz.toNat
  match v.read ph.pOffset.toNat filesize with
  | .error _ => ([], false)
  | .ok [] => ([], decide (filesize = 0))
  | .ok bytes =>
    let r := copyoutPlan vstart mapped bytes ph.pVaddr
    (r.1, r.2 && decide (bytes.length = filesize))

/-- 二つ目の loop が足す page。 -/
def segmentsPlan (v : Vnode) (eh : ElfEhdr) (vstart : Vaddr) : Nat → Nat → List Vaddr → List Vaddr × Bool
  | 0, _, _ => ([], true)
  | n + 1, i, mapped =>
    match loadPhdr v eh i with
    | .error _ => ([], false)
    | .ok none => segmentsPlan v eh vstart n (i + 1) mapped
    | .ok (some ph) =>
      let r := segmentPlan v vstart mapped ph
      if r.2 then
        let r' := segmentsPlan v eh vstart n (i + 1) (mapped ++ r.1)
        (r.1 ++ r'.1, r'.2)
      else r

theorem loadSegment_end (h : StoreOk 0 s) (v : Vnode) (random : Nat → Fin numTlb) (ph : ElfPhdr) :
    ∃ ws, WriteEnd 0 s (segmentPlan v s.as.vstart s.as.pages ph).1
      (segmentPlan v s.as.vstart s.as.pages ph).2 ws (loadSegment v random ph s) := by
  rw [segmentPlan, loadSegment]
  simp only
  rcases hread : v.read ph.pOffset.toNat (min ph.pFilesz.toNat ph.pMemsz.toNat) with err | bytes
  · exact ⟨[], .refused rfl (prefix_refl _) (.refl h)⟩
  cases bytes with
  | nil =>
    refine ⟨[], ?_⟩
    by_cases hsize : min ph.pFilesz.toNat ph.pMemsz.toNat = 0
    · simp only [hsize, decide_true, ne_eq, not_true, if_false]
      exact .done rfl (.refl h)
    · simp only [hsize, decide_false, ne_eq, not_false_iff, if_true]
      exact .refused rfl (prefix_refl _) (.refl h)
  | cons b src =>
    have hcopy := h.copyout_end random fun w (_ : w ∈ writesFrom (b :: src) ph.pVaddr) => UInt32.zero_le
    refine ⟨writesFrom (b :: src) ph.pVaddr, ?_⟩
    simp only
    generalize s.copyout random (b :: src) ph.pVaddr = r at hcopy
    by_cases hsize : (b :: src).length = min ph.pFilesz.toNat ph.pMemsz.toNat
    · simp only [hsize, decide_true, Bool.and_true, ne_eq, not_true, if_false]
      rcases r with _ | ⟨_ | _, s'⟩ <;> exact hcopy
    · simp only [hsize, decide_false, Bool.and_false, ne_eq, not_false_iff, if_true]
      rcases r with _ | ⟨_ | _, s'⟩
      · cases hcopy with
        | crash hi hfrees hroom => exact .crash hi hfrees hroom
      · cases hcopy with
        | refused _ hpre hext => exact .refused rfl hpre hext
        | short hi hws hext hpage hzero => exact .short hi hws hext hpage hzero
      · exact hcopy.reject _

theorem loadSegments_end (h : StoreOk 0 s) (v : Vnode) (eh : ElfEhdr) (random : Nat → Nat → Fin numTlb)
    (n i : Nat) :
    ∃ ws, WriteEnd 0 s (segmentsPlan v eh s.as.vstart n i s.as.pages).1
      (segmentsPlan v eh s.as.vstart n i s.as.pages).2 ws (loadSegments v eh random n i s) := by
  induction n generalizing i s with
  | zero => exact ⟨[], .done rfl (.refl h)⟩
  | succ n ih =>
    rw [segmentsPlan, loadSegments]
    rcases loadPhdr v eh i with err | _ | ph
    · exact ⟨[], .refused rfl (prefix_refl _) (.refl h)⟩
    · exact ih h (i + 1)
    · obtain ⟨ws, hseg⟩ := loadSegment_end h v (random i) ph
      simp only
      generalize loadSegment v (random i) ph s = r at hseg
      generalize segmentPlan v s.as.vstart s.as.pages ph = plan at hseg
      cases hseg with
      | @done s' hd hext =>
        obtain ⟨ws', htail⟩ := ih hext.ok (i + 1)
        rw [hext.pages, show s'.as.vstart = s.as.vstart from congrArg vstart hext.book] at htail
        simp only [hd, if_true]
        exact ⟨ws ++ ws', .prepend hext htail⟩
      | refused hd hpre hext =>
        simp only [hd, Bool.false_eq_true, if_false]
        exact ⟨ws, .refused rfl hpre hext⟩
      | short hi hws hext hpage hzero =>
        refine ⟨ws, ?_⟩
        split
        · refine .short (lt_of_lt_of_le hi ?_) hws ?_ hpage hzero
          · simp
          · rw [take_append_of_le_length hi.le]
            exact hext
        · exact .short hi hws hext hpage hzero
      | crash hi hfrees hroom =>
        refine ⟨ws, ?_⟩
        split
        · exact .crash (lt_of_lt_of_le hi (by simp)) hfrees hroom
        · exact .crash hi hfrees hroom

end

/-! ## header から決まる領域 -/

/-- header と、そこから決まる領域。 -/
def Vnode.regions (v : Vnode) : Option (ElfEhdr × AddrSpace) :=
  match v.readAll 0 ehdrSize with
  | .error _ => none
  | .ok bytes =>
    let eh := ElfEhdr.ofBytes bytes
    if eh.executable = false then none
    else
      match defineRegions v eh eh.ePhnum.toNat 0 AddrSpace.blank with
      | (.error _, _) => none
      | (.ok (), as) => some (eh, as)

theorem asDefineRegion_congr {as as' : AddrSpace} (h : as.book = as'.book) (vaddr sz : UInt32) :
    (asDefineRegion as vaddr sz).map AddrSpace.book = (asDefineRegion as' vaddr sz).map AddrSpace.book := by
  have hcode : as.codeNPages = as'.codeNPages := congrArg codeNPages h
  have hdata : as.dataNPages = as'.dataNPages := congrArg dataNPages h
  have hheap : as.heapNPages = as'.heapNPages := congrArg heapNPages h
  have hvstart : as.vstart = as'.vstart := congrArg vstart h
  unfold asDefineRegion
  simp only [hcode, hdata]
  split
  · simp [Except.map, AddrSpace.book, hheap]
  · split
    · simp [Except.map, AddrSpace.book, hheap, hvstart]
    · rfl

theorem defineRegions_congr (v : Vnode) (eh : ElfEhdr) (n i : Nat) {as as' : AddrSpace}
    (h : as.book = as'.book) :
    (defineRegions v eh n i as).1 = (defineRegions v eh n i as').1 ∧
      (defineRegions v eh n i as).2.book = (defineRegions v eh n i as').2.book ∧
      (defineRegions v eh n i as).2.start = as.start ∧ (defineRegions v eh n i as).2.next = as.next ∧
      (defineRegions v eh n i as).2.end = as.end := by
  induction n generalizing i as as' with
  | zero => exact ⟨rfl, h, rfl, rfl, rfl⟩
  | succ n ih =>
    rw [defineRegions, defineRegions]
    rcases loadPhdr v eh i with err | _ | ph
    · exact ⟨rfl, h, rfl, rfl, rfl⟩
    · exact ih (i + 1) h
    · have hcongr := asDefineRegion_congr h ph.pVaddr ph.pMemsz
      simp only
      rcases hdef : asDefineRegion as ph.pVaddr ph.pMemsz with err | as₁
      · rcases hdef' : asDefineRegion as' ph.pVaddr ph.pMemsz with err' | as₁'
        · rw [hdef, hdef'] at hcongr
          simp only [Except.map, Except.error.injEq] at hcongr
          exact ⟨by rw [hcongr], h, rfl, rfl, rfl⟩
        · rw [hdef, hdef'] at hcongr
          simp [Except.map] at hcongr
      · rcases hdef' : asDefineRegion as' ph.pVaddr ph.pMemsz with err' | as₁'
        · rw [hdef, hdef'] at hcongr
          simp [Except.map] at hcongr
        · rw [hdef, hdef'] at hcongr
          simp only [Except.map, Except.ok.injEq] at hcongr
          obtain ⟨hstart, hnext, hend⟩ := asDefineRegion_tables hdef
          obtain ⟨h1, h2, h3, h4, h5⟩ := ih (i + 1) hcongr
          exact ⟨h1, h2, h3.trans hstart, h4.trans hnext, h5.trans hend⟩

theorem regionPages_congr {as as' : AddrSpace} (h : as.book = as'.book) :
    as.regionPages = as'.regionPages ∧ as.regionCount = as'.regionCount ∧ as.vstart = as'.vstart := by
  have hcode : as.codeNPages = as'.codeNPages := congrArg codeNPages h
  have hdata : as.dataNPages = as'.dataNPages := congrArg dataNPages h
  have hvstart : as.vstart = as'.vstart := congrArg vstart h
  have hbase : as.vbreakbase = as'.vbreakbase := congrArg vbreakbase h
  simp only [AddrSpace.regionPages, AddrSpace.regionCount, AddrSpace.dataStart, hcode, hdata,
    hvstart, hbase,
    and_self]

/-! ## 読み込みに要る frame -/

/-- 新しい address space を作った後の、`as_destroy` を呼ぶ前の `load_elf`。 -/
def loadFill (v : Vnode) (random : Nat → Nat → Fin numTlb) (m : Mem) : Option (LoadEnd × Cpu) :=
  match asCreate m with
  | none => none
  | some (temp, mem) => loadElfFill v random ⟨⟨mem, temp⟩, flushed⟩

/-- `f` 枚の空きで読み込みが `as_prepare_load` を抜け、その後も落ちない。 -/
def LoadFits (v : Vnode) (f : Nat) : Prop :=
  ∀ x ∈ v.regions,
    framesFor ptableArraySize x.2.regionCount ≤ f ∧
    ∀ i < (segmentsPlan v x.1 x.2.vstart x.1.ePhnum.toNat 0 x.2.regionPages).1.length,
      ¬ (framesFor ptableArraySize (x.2.regionCount + i) < f ∧
        f < framesFor ptableArraySize (x.2.regionCount + i + 1))

instance (v : Vnode) (f : Nat) : Decidable (LoadFits v f) :=
  inferInstanceAs (Decidable (∀ x ∈ v.regions, _))

theorem storeOk_of_entries_nil {c : Cur} (hc : Chain c.as.tables) (hend : c.as.EndLast)
    (hent : c.as.entries = []) : StoreOk 0 ⟨c, flushed⟩ := by
  have hinvalid : ∀ i, ¬ (flushed i).valid = true := fun i h => by simp [valid_flushed] at h
  refine ⟨hc, hend, ?_, ?_, ?_, tlbAgrees_flushed _, fun i hi => absurd hi (hinvalid i),
    fun i hi => absurd hi (hinvalid i)⟩
  · intro e he
    simp [hent] at he
  · simp [hent]
  · intro e he
    simp [hent] at he

theorem loadAfter_cases (v : Vnode) (eh : ElfEhdr) (as : AddrSpace) (random : Nat → Nat → Fin numTlb)
    {m : Mem} {c : Cur} (hok : StoreOk 0 ⟨c, flushed⟩) (hpages : c.as.pages = [])
    (hroom : room c.as.tables = ptableArraySize) (hbook : c.as.book = as.book)
    (htook : m.Took c.as.released c.mem) :
    (framesFor ptableArraySize as.regionCount ≤ c.mem.cm.frees ∧
      ∃ c', asPrepareFill c = some (true, c') ∧
        (loadSegments v eh random eh.ePhnum.toNat 0 ⟨c', flushed⟩ = none ↔
          ∃ i < (segmentsPlan v eh as.vstart eh.ePhnum.toNat 0 as.regionPages).1.length,
            framesFor ptableArraySize (as.regionCount + i) < c.mem.cm.frees ∧
              c.mem.cm.frees < framesFor ptableArraySize (as.regionCount + i + 1)) ∧
        ∀ x s', loadSegments v eh random eh.ePhnum.toNat 0 ⟨c', flushed⟩ = some (x, s') →
          m.Took s'.as.released s'.mem) ∨
      (c.mem.cm.frees < framesFor ptableArraySize as.regionCount ∧
        (asPrepareFill c = none ∨ ∃ c', asPrepareFill c = some (false, c') ∧
          m.Took c'.as.released c'.mem)) := by
  obtain ⟨hregion, hcount, hvstart⟩ := regionPages_congr hbook
  rcases asPrepareFill_end hok with ⟨hfit, c', hfill, hext⟩ | ⟨hshort, hfill⟩
  · simp only [hroom, hcount] at hfit
    refine .inl ⟨hfit, c', hfill, ?_⟩
    obtain ⟨ws, hend⟩ := loadSegments_end hext.ok v eh random eh.ePhnum.toNat 0
    have hstart' : c'.as.vstart = as.vstart := (congrArg vstart hext.book).trans hvstart
    have hpages' : c'.as.pages = as.regionPages := by
      have h := hext.pages
      simp only [hpages, nil_append] at h
      exact h.trans hregion
    have hbudget : ∀ n, framesFor ptableArraySize (as.regionCount + n) + c'.mem.cm.frees =
        framesFor (room c'.as.tables) n + c.mem.cm.frees := by
      intro n
      have h := hext.budget n
      simp only [AddrSpace.regionPages, length_append, length_pagesFrom, hroom] at h
      rw [← hcount]
      exact h
    constructor
    · rw [hend.eq_none_iff]
      simp only [hstart', hpages']
      refine exists_congr fun i => and_congr_right fun _ => ?_
      have h1 := hbudget i
      have h2 := hbudget (i + 1)
      rw [Nat.add_assoc]
      omega
    · intro x s' hload
      rw [hload] at hend
      exact hend.took (hext.took m htook)
  · simp only [hroom, hcount] at hshort
    exact .inr ⟨hshort, hfill.imp_right fun ⟨c', hc', h⟩ => ⟨c', hc', h m htook⟩⟩

/-- 作ったばかりの address space の、領域を決めた後の表。 -/
structure Blank (m mem : Mem) (as : AddrSpace) : Prop where
  entries : as.entries = []
  chain : Chain as.tables
  endLast : as.EndLast
  room : room as.tables = ptableArraySize
  took : m.Took as.released mem

theorem blank_of_asCreate {m mem : Mem} {temp as : AddrSpace} (hcreate : asCreate m = some (temp, mem))
    (hstart : as.start = temp.start) (hnext : as.next = temp.next) (hend : as.end = temp.end) :
    Blank m mem as := by
  obtain ⟨hent, hchain, hlast, -, hnil, -, -⟩ := asCreate_some hcreate
  have htables : as.tables = temp.tables := by rw [AddrSpace.tables, AddrSpace.tables, hstart, hnext]
  have hent' : as.entries = [] := by rw [← hent, AddrSpace.entries, AddrSpace.entries, htables]
  have hchain' : Chain as.tables := htables ▸ hchain
  have hone : as.tables = [temp.start] := by rw [htables, AddrSpace.tables, hnil]
  refine ⟨hent', hchain', ?_, ?_, ?_⟩
  · rw [AddrSpace.EndLast, hend, hnext]
    exact hlast
  · have hroom := (hchain'.ok temp.start (by rw [hone]; exact mem_cons_self)).room_add
    have hempty : temp.start.entries = [] := by
      rw [AddrSpace.entries, hone] at hent'
      simpa using hent'
    rw [hempty] at hroom
    rw [hone, room, room]
    exact hroom
  · have hreleased : as.released = [kvaddrToPaddr temp.start.addr] := by
      rw [AddrSpace.released_eq, hent', hstart, hnext, hnil]
      rfl
    rw [hreleased]
    exact (Mem.Took.of_asCreate hcreate).1

/-- **足りていれば、読み込みは失敗しても address space を壊さない。足りなければ、落ちるか二重に壊される。** -/
theorem loadFill_cases {v : Vnode} (random : Nat → Nat → Fin numTlb) {m : Mem} (hpos : m.cm.frees ≠ 0) :
    (LoadFits v (m.cm.frees - 1) ∧ ∃ e s, loadFill v random m = some (e, s) ∧ e ≠ .prepareFailed ∧
        ((∃ err, e = .failed err) → m.Took s.as.released s.mem)) ∨
      (¬ LoadFits v (m.cm.frees - 1) ∧
        (loadFill v random m = none ∨
          ∃ s, loadFill v random m = some (.prepareFailed, s) ∧ m.Took s.as.released s.mem)) := by
  obtain ⟨temp, mem, hcreate⟩ := exists_asCreate hpos
  obtain ⟨-, -, -, hbook, -⟩ := asCreate_some hcreate
  have hblank := blank_of_asCreate hcreate rfl rfl rfl
  have hfrees : mem.cm.frees = m.cm.frees - 1 := by
    have h : mem.cm.frees + 1 = m.cm.frees := (Mem.Took.of_asCreate hcreate).1.frees
    omega
  rw [loadFill, hcreate, LoadFits, Vnode.regions]
  simp only
  rw [loadElfFill]
  rcases v.readAll 0 ehdrSize with err | bytes
  · exact .inl ⟨by simp, _, _, rfl, by simp, fun _ => hblank.took⟩
  simp only
  by_cases hexe : (ElfEhdr.ofBytes bytes).executable = false
  · exact .inl ⟨by simp [hexe], .failed .enoexec, ⟨⟨mem, temp⟩, flushed⟩, by simp [hexe], by simp,
      fun _ => hblank.took⟩
  simp only [if_neg hexe]
  obtain ⟨hres, hbook', hstart, hnext', hend'⟩ := defineRegions_congr v (ElfEhdr.ofBytes bytes)
    (ElfEhdr.ofBytes bytes).ePhnum.toNat 0 (show temp.book = AddrSpace.blank.book from hbook)
  rcases hdef₀ : defineRegions v (ElfEhdr.ofBytes bytes) (ElfEhdr.ofBytes bytes).ePhnum.toNat 0
    AddrSpace.blank
    with ⟨err | _, as⟩
  all_goals
    rcases hdef : defineRegions v (ElfEhdr.ofBytes bytes) (ElfEhdr.ofBytes bytes).ePhnum.toNat 0 temp
      with ⟨err' | _, as'⟩
  all_goals
    rw [hdef₀, hdef] at hres hbook'
    rw [hdef] at hstart hnext' hend'
    simp only at hres hbook' hstart hnext' hend'
  · exact .inl ⟨by simp, _, _, rfl, by simp, fun _ => (blank_of_asCreate hcreate hstart hnext' hend').took⟩
  · simp at hres
  · simp at hres
  -- 領域が決まった
  have hdefined := blank_of_asCreate hcreate hstart hnext' hend'
  simp only [Option.mem_def, Option.some.injEq, forall_eq']
  rw [← hfrees]
  rcases loadAfter_cases v (ElfEhdr.ofBytes bytes) as random (m := m) (c := ⟨mem, as'⟩)
      (storeOk_of_entries_nil hdefined.chain hdefined.endLast hdefined.entries)
      (by simp [AddrSpace.pages, hdefined.entries]) hdefined.room hbook' hdefined.took with
    ⟨hfit, c', hfill, hnone, htail⟩ | ⟨hshort, hfill⟩
  · rw [hfill]
    simp only
    rcases hload : loadSegments v (ElfEhdr.ofBytes bytes) random (ElfEhdr.ofBytes bytes).ePhnum.toNat 0
        ⟨c', flushed⟩ with _ | ⟨err | _, s'⟩
    · obtain ⟨i, hi, hsplit⟩ := hnone.mp hload
      exact .inr ⟨fun h => h.2 i hi hsplit, .inl rfl⟩
    · refine .inl ⟨⟨hfit, fun i hi hsplit => ?_⟩, _, _, rfl, by simp, fun _ => htail _ _ hload⟩
      rw [hload] at hnone
      exact absurd (hnone.mpr ⟨i, hi, hsplit⟩) (by simp)
    · refine .inl ⟨⟨hfit, fun i hi hsplit => ?_⟩, _, _, rfl, by simp, fun h => by simp at h⟩
      rw [hload] at hnone
      exact absurd (hnone.mpr ⟨i, hi, hsplit⟩) (by simp)
  · refine .inr ⟨fun h => ?_, ?_⟩
    · have := h.1
      change mem.cm.frees < _ at hshort
      omega
    · rcases hfill with hfill | ⟨c', hfill, htook⟩
      · exact .inl (by rw [hfill])
      · exact .inr ⟨⟨c', flushed⟩, by rw [hfill], htook⟩

/-! ## 呼び出しの後 -/

/-- `m` から `m'` までに取った page は、どれもちょうど一度返され、ほかに返された page は無い。 -/
def Mem.ReleasedOnce (m m' : Mem) : Prop :=
  ∃ log, m'.freed = m.freed ++ log ∧ log.Nodup ∧ m'.obtained.Perm (m.obtained ++ log) ∧
    ∀ q ∈ log, ¬ m.Allocated q ∧ ¬ m'.Allocated q

/-- `sys_execv` は落ちず、失敗すれば新しい address space を一度だけ返し、元の address space に戻る。 -/
structure ExecvUndone (v : Vnode) (random : Nat → Nat → Fin numTlb) (old : AddrSpace) (m : Mem)
    (tlb : Tlb) :
    Prop where
  returns : sysExecvLoad v random old m tlb ≠ none
  released : ∀ err t, sysExecvLoad v random old m tlb = some (.error err, t) →
    m.ReleasedOnce t.mem
  current : ∀ err t, sysExecvLoad v random old m tlb = some (.error err, t) → t.tAddrspace = some old
  intact : ∀ err t, sysExecvLoad v random old m tlb = some (.error err, t) →
    ∀ p ∈ old.released, t.mem.Held p ∧ t.mem.page p = m.page p

/-- `runprogram` は落ちず、失敗すれば `thread_exit` までに address space を一度だけ返す。 -/
structure RunprogramUndone (v : Vnode) (random : Nat → Nat → Fin numTlb) (m : Mem) (tlb : Tlb) : Prop where
  returns : runprogramLoad v random m tlb ≠ none
  released : ∀ err t, runprogramLoad v random m tlb = some (.error err, t) →
    m.ReleasedOnce (threadExit t).mem
  gone : ∀ err t, runprogramLoad v random m tlb = some (.error err, t) → (threadExit t).tAddrspace = none

section

variable {v : Vnode} {random : Nat → Nat → Fin numTlb} {old : AddrSpace} {m : Mem} {tlb : Tlb}

theorem sysExecvLoad_eq (v : Vnode) (random : Nat → Nat → Fin numTlb) (old : AddrSpace) (tlb : Tlb)
    (hpos : m.cm.frees ≠ 0) :
    sysExecvLoad v random old m tlb = (loadFill v random m).map fun r =>
      match loadEnd r with
      | (.error err, s) => (.error err, ⟨asDestroy s.mem s.as, some old, s.tlb⟩)
      | (.ok entrypoint, s) => (.ok entrypoint, ⟨asDestroy s.mem old, some s.as, s.tlb⟩) := by
  obtain ⟨temp, mem, hcreate⟩ := exists_asCreate hpos
  rw [sysExecvLoad, loadFill, hcreate]
  simp only
  rw [loadElf_eq]
  rcases loadElfFill v random ⟨⟨mem, temp⟩, flushed⟩ with _ | ⟨_ | _ | _, s⟩ <;> rfl

theorem runprogramLoad_eq (v : Vnode) (random : Nat → Nat → Fin numTlb) (tlb : Tlb)
    (hpos : m.cm.frees ≠ 0) :
    runprogramLoad v random m tlb = (loadFill v random m).map fun r =>
      ((loadEnd r).1, ⟨(loadEnd r).2.mem, some (loadEnd r).2.as, (loadEnd r).2.tlb⟩) := by
  obtain ⟨temp, mem, hcreate⟩ := exists_asCreate hpos
  rw [runprogramLoad, loadFill, hcreate]
  simp only
  rw [loadElf_eq]
  rcases loadElfFill v random ⟨⟨mem, temp⟩, flushed⟩ with _ | ⟨_ | _ | _, s⟩ <;> rfl

theorem freed_asDestroy (m : Mem) (as : AddrSpace) : (asDestroy m as).freed = m.freed ++ as.released := by
  rw [asDestroy_eq, Mem.freed_foldl_pageFree]

theorem obtained_asDestroy (m : Mem) (as : AddrSpace) : (asDestroy m as).obtained = m.obtained := by
  rw [asDestroy_eq]
  exact Mem.foldl_pageFree_eq Mem.obtained (fun _ _ => rfl) m _

theorem releasedOnce_refl (m : Mem) : m.ReleasedOnce m :=
  ⟨[], (append_nil _).symm, nodup_nil, .of_eq (append_nil _).symm, by simp⟩

theorem releasedOnce_of_took {s : Cpu} (h : m.Took s.as.released s.mem) :
    m.ReleasedOnce (asDestroy s.mem s.as) := by
  refine ⟨s.as.released, by rw [freed_asDestroy, h.freed], h.nodup, ?_, fun q hq => ⟨h.fresh q hq, ?_⟩⟩
  · rw [obtained_asDestroy]
    exact h.obtained
  · rw [asDestroy_eq]
    exact Mem.not_allocated_foldl_pageFree (fun _ => h.held_of_mem) hq

theorem not_releasedOnce_twice {s : Cpu} (h : m.Took s.as.released s.mem) :
    ¬ m.ReleasedOnce (asDestroy (asDestroy s.mem s.as) s.as) := by
  rintro ⟨log, hlog, hnodup, -⟩
  rw [freed_asDestroy, freed_asDestroy, h.freed, append_assoc] at hlog
  have hmem : kvaddrToPaddr s.as.start.addr ∈ s.as.released := by simp [AddrSpace.released]
  rw [← append_cancel_left hlog] at hnodup
  exact (nodup_append.mp hnodup).2.2 _ hmem _ hmem rfl

theorem ExecvUndone.of_error {err₀ : Errno} {t₀ : Curthread}
    (heq : sysExecvLoad v random old m tlb = some (.error err₀, t₀))
    (hreleased : m.ReleasedOnce t₀.mem)
    (hcurrent : t₀.tAddrspace = some old)
    (hintact : ∀ p ∈ old.released, t₀.mem.Held p ∧ t₀.mem.page p = m.page p) :
    ExecvUndone v random old m tlb := by
  have ht : ∀ {err t}, sysExecvLoad v random old m tlb = some (.error err, t) → t = t₀ := by
    intro err t h
    rw [heq] at h
    simp only [Option.some.injEq, Prod.mk.injEq] at h
    exact h.2.symm
  exact ⟨by simp [heq], fun _ _ h => ht h ▸ hreleased, fun _ _ h => ht h ▸ hcurrent,
    fun _ _ h => ht h ▸ hintact⟩

theorem execvUndone_iff (hold : ∀ p ∈ old.released, m.Held p) :
    ExecvUndone v random old m tlb ↔ m.cm.frees = 0 ∨ LoadFits v (m.cm.frees - 1) := by
  by_cases hpos : m.cm.frees = 0
  · have heq : sysExecvLoad v random old m tlb = some (.error .enomem, ⟨m, some old, tlb⟩) := by
      rw [sysExecvLoad, asCreate_eq_none_iff.mpr hpos]
    exact iff_of_true (.of_error heq (releasedOnce_refl m) rfl fun p hp => ⟨hold p hp, rfl⟩) (.inl hpos)
  have heq := sysExecvLoad_eq v random old tlb hpos
  rcases loadFill_cases (v := v) random hpos with ⟨hfits, e, s, hfill, hne, htook⟩ | ⟨hnot, hfill⟩
  · refine iff_of_true ?_ (.inr hfits)
    rw [hfill, Option.map_some] at heq
    cases e with
    | prepareFailed => exact absurd rfl hne
    | ok entrypoint => constructor <;> simp [heq, loadEnd]
    | failed err₀ =>
      have htook := htook ⟨err₀, rfl⟩
      refine .of_error heq (releasedOnce_of_took htook) rfl fun p hp => ?_
      have hheld := hold p hp
      simp only [asDestroy_eq, Mem.page_foldl_pageFree]
      refine ⟨Mem.held_foldl_pageFree (fun q hq => (htook.held_of_mem hq).isFrame) (htook.held hheld) ?_,
        htook.page p hheld.allocated⟩
      exact fun hmem => htook.fresh p hmem hheld.allocated
  · refine iff_of_false (fun hundone => ?_) (not_or.mpr ⟨hpos, hnot⟩)
    rcases hfill with hfill | ⟨s, hfill, htook⟩
    · rw [hfill] at heq
      exact hundone.returns heq
    · rw [hfill] at heq
      exact not_releasedOnce_twice htook (hundone.released _ _ heq)

theorem runprogramUndone_iff :
    RunprogramUndone v random m tlb ↔ m.cm.frees = 0 ∨ LoadFits v (m.cm.frees - 1) := by
  have hgone : ∀ t, (threadExit t).tAddrspace = none := by
    rintro ⟨mem, _ | as, tlb⟩ <;> rfl
  by_cases hpos : m.cm.frees = 0
  · refine iff_of_true ⟨?_, ?_, fun _ _ _ => hgone _⟩ (.inl hpos)
    · simp [runprogramLoad, asCreate_eq_none_iff.mpr hpos]
    · intro err t h
      simp only [runprogramLoad, asCreate_eq_none_iff.mpr hpos, Option.some.injEq, Prod.mk.injEq] at h
      exact h.2 ▸ releasedOnce_refl m
  have heq := runprogramLoad_eq v random tlb hpos
  rcases loadFill_cases (v := v) random hpos with ⟨hfits, e, s, hfill, hne, htook⟩ | ⟨hnot, hfill⟩
  · refine iff_of_true ⟨by simp [heq, hfill], ?_, fun _ _ _ => hgone _⟩ (.inr hfits)
    cases e with
    | prepareFailed => exact absurd rfl hne
    | ok entrypoint => simp [heq, hfill, loadEnd]
    | failed err₀ =>
      intro err t h
      simp only [heq, hfill, Option.map_some, Option.some.injEq, Prod.mk.injEq] at h
      exact h.2 ▸ releasedOnce_of_took (htook ⟨err₀, rfl⟩)
  · refine iff_of_false (fun hundone => ?_) (not_or.mpr ⟨hpos, hnot⟩)
    rcases hfill with hfill | ⟨s, hfill, htook⟩
    · rw [hfill] at heq
      exact hundone.returns heq
    · rw [hfill] at heq
      exact not_releasedOnce_twice htook (hundone.released _ _ heq)

end

/-! ## 一枚だけ空いている memory -/

theorem exists_old (n : Nat) (h : n + 1 ≤ 100000) (P : AddrSpace → Mem → Bool)
    (hP : ((asCreate (Mem.boot (n + 1) h)).any fun x => P x.1 x.2) = true) :
    ∃ (old : AddrSpace) (m : Mem), m.cm.frees = n ∧ (∀ p ∈ old.released, m.Held p) ∧ P old m = true := by
  have hboot := Mem.frees_boot (n + 1) h
  obtain ⟨⟨old, m⟩, hcreate, hP⟩ := (Option.any_eq_true _ _).mp hP
  obtain ⟨hent, -, -, -, hnext, -, htakes⟩ := asCreate_some hcreate
  have hfrees := htakes.frees
  refine ⟨old, m, by omega, fun p hp => htakes.held p (.inr ?_), hP⟩
  rw [AddrSpace.released_eq, hent, hnext] at hp
  simpa using hp

/-- 一つ目の segment が stack にあり、その `memsize` は切り上げで溢れて 0 枚になる file。 -/
def stackSegment : Vnode := Vnode.ofBytes ((twoSegments 0x40 0x50).take 52 ++
  [0, 0, 0, 1, 0, 0, 0, 0, 0x7f, 0xff, 0, 0, 0x7f, 0xff, 0, 0] ++
  [0, 0, 0, 1, 0xff, 0xff, 0xf0, 1, 0, 0, 0, 5, 0, 0, 0x10, 0] ++ (twoSegments 0x40 0x50).drop 84)

end Os161
