import MsProjects.Infra.Run
import MsProjects.Os161.Thread.RwLock

/-! # reader-writer lock の排他と進行 -/

namespace Os161

open Infra Machine

namespace RwLock

/-! ## 残りの列 -/

/-- lock か数を待つかもしれない位置。 -/
def mayWait : List RwInstr → Bool
  | .acquire _ :: _ => true
  | .p _ :: _ => true
  | _ => false

/-- lock を待つかもしれない位置。 -/
def mayAcquire : List RwInstr → Bool
  | .acquire _ :: _ => true
  | _ => false

structure Fair (prog : List RwInstr) : Prop where
  nonneg : 0 ≤ borrowed () prog
  read : modeOf prog = some .read → borrowed () prog = 1
  write : modeOf prog = some .write → borrowed () prog = 30
  collects : mayWait prog = true → borrowed () prog < 30 ∧
    (borrowed () prog ≠ 0 → holds .lkWrite prog = true)
  acquires : mayAcquire prog = true → ∀ l, holds l prog = false

theorem fair_of_suffix {mode : RwMode} {prog : List RwInstr} (h : prog <:+ rwSession mode) :
    Fair prog := by
  have hall : ∀ q ∈ (rwSession mode).tails, 0 ≤ borrowed () q ∧
      (modeOf q = some .read → borrowed () q = 1) ∧ (modeOf q = some .write → borrowed () q = 30) ∧
      (mayWait q = true → borrowed () q < 30 ∧ (borrowed () q ≠ 0 → holds .lkWrite q = true)) ∧
      (mayAcquire q = true → holds .lkRead q = false ∧ holds .lkWrite q = false) := by
    cases mode <;> decide +kernel
  obtain ⟨hnonneg, hread, hwrite, hcollects, hacquires⟩ := hall prog ((List.mem_tails _ _).mpr h)
  refine ⟨hnonneg, hread, hwrite, hcollects, fun hm l => ?_⟩
  cases l with
  | lkRead => exact (hacquires hm).1
  | lkWrite => exact (hacquires hm).2

theorem rwSession_closed (mode : RwMode) : borrowed () (rwSession mode) = 0 ∧
    (∀ l, alternates l (rwSession mode) = true) ∧ ∀ l, holds l (rwSession mode) = false := by
  refine ⟨?_, fun l => ?_, fun l => ?_⟩
  · cases mode <;> decide +kernel
  · cases mode <;> cases l <;> decide +kernel
  · cases mode <;> cases l <;> decide +kernel

theorem mayWait_of_blocked {T : Type*} [DecidableEq T] {m : RwLock T}
    (hstuck : ∀ t, m.rest t ≠ [] → m.advance t = none) (t : T) (ht : m.rest t ≠ []) :
    mayWait (m.rest t) = true := by
  rcases blocked_cases (hstuck t ht) ht with ⟨l, prog, u, hrest, -⟩ | ⟨s, prog, hrest, -⟩ <;>
    simp [hrest, mayWait]

/-! ## 不変量 -/

variable {T : Type*} [Fintype T] {m m' : RwLock T} {t : T}

structure Inv (m : RwLock T) : Prop where
  wellLocked : m.WellLocked
  supply : m.supply () = 30
  suffix : ∀ t, ∃ mode, m.rest t <:+ rwSession mode

theorem inv_create : Inv (create : RwLock T) where
  wellLocked := ⟨fun _ _ => rfl, fun _ _ => by simp [create, holds]⟩
  supply := by
    show (30 : Int) + total (borrowed ()) (fun _ : T => ([] : List RwInstr)) = 30
    simp [total, borrowed]
  suffix _ := ⟨.read, List.nil_suffix⟩

theorem Inv.fair (h : Inv m) (t : T) : Fair (m.rest t) := by
  obtain ⟨mode, hsuffix⟩ := h.suffix t
  exact fair_of_suffix hsuffix

theorem Inv.borrowed_le (h : Inv m) : total (borrowed ()) m.rest ≤ 30 := by
  have hsupply : (m.count () : Int) + total (borrowed ()) m.rest = 30 := h.supply
  omega

def readers (m : RwLock T) : Nat := (Finset.univ.filter fun t => m.inside t = some .read).card

theorem Inv.readers_le (h : Inv m) : m.readers ≤ 30 := by
  have hcard : (m.readers : Int) =
      total (fun prog => if modeOf prog = some .read then 1 else 0) m.rest := by
    rw [readers, Finset.card_filter, Nat.cast_sum]
    exact Finset.sum_congr rfl fun t _ => Nat.cast_ite ..
  have hle : total (fun prog => if modeOf prog = some .read then 1 else 0) m.rest ≤
      total (borrowed ()) m.rest := by
    refine total_le_total fun t => ?_
    by_cases hmode : modeOf (m.rest t) = some .read
    · simp [hmode, (h.fair t).read hmode]
    · simpa [hmode] using (h.fair t).nonneg
  have hborrowed := h.borrowed_le
  omega

variable [DecidableEq T]

def RwStep (m : RwLock T) (op : Op T) (m' : RwLock T) : Prop := m.step op = some m'

theorem Inv.step {op : Op T} (h : Inv m) (hstep : RwStep m op m') : Inv m' := by
  cases op with
  | start t mode =>
    simp only [RwStep, RwLock.step, Option.ite_none_right_eq_some, Option.some.injEq] at hstep
    obtain ⟨hrest, rfl⟩ := hstep
    obtain ⟨hborrowed, halternates, hholds⟩ := rwSession_closed mode
    refine ⟨h.wellLocked.setRest halternates fun l => ?_, ?_, fun u => ?_⟩
    · rw [hrest, hholds l]
      rfl
    · rw [supply_setRest, h.supply]
      rw [hrest, hborrowed]
      rfl
    · by_cases hu : u = t
      · subst hu
        exact ⟨mode, by simp [setRest]⟩
      · simpa [setRest, Function.update_of_ne hu] using h.suffix u
  | advance t =>
    refine ⟨h.wellLocked.advance hstep, (supply_advance hstep ()).trans h.supply, fun u => ?_⟩
    obtain ⟨mode, hsuffix⟩ := h.suffix u
    exact ⟨mode, (advance_suffix hstep u).trans hsuffix⟩

/-! ## 排他 -/

theorem Inv.exclusive (h : Inv m) {t u : T} (ht : m.inside t = some .write) (hu : m.inside u ≠ none) :
    u = t := by
  by_contra hne
  have hsum := add_le_total (w := borrowed ()) (f := m.rest) (fun v => (h.fair v).nonneg) hne
  have hle := h.borrowed_le
  have hwrite := (h.fair t).write ht
  cases hmode : m.inside u with
  | none => exact hu hmode
  | some mode =>
    cases mode with
    | read =>
      have := (h.fair u).read hmode
      omega
    | write =>
      have := (h.fair u).write hmode
      omega

/-! ## 進行 -/

theorem Inv.count_pos (h : Inv m) (hstuck : ∀ t, m.rest t ≠ [] → m.advance t = none) :
    0 < m.count () := by
  have hsupply : (m.count () : Int) + total (borrowed ()) m.rest = 30 := h.supply
  have hcollects : ∀ u, borrowed () (m.rest u) ≠ 0 → borrowed () (m.rest u) < 30 ∧
      m.owner .lkWrite = some u := by
    intro u hu
    have hne : m.rest u ≠ [] := by
      intro hnil
      simp [hnil, borrowed] at hu
    obtain ⟨hlt, hholds⟩ := (h.fair u).collects (mayWait_of_blocked hstuck u hne)
    exact ⟨hlt, (h.wellLocked.owner u _).mpr (hholds hu)⟩
  by_cases hsome : ∃ t, borrowed () (m.rest t) ≠ 0
  · -- 数を借りたまま待つのは `lk_write` の持ち主だけである。
    obtain ⟨t, ht⟩ := hsome
    obtain ⟨hlt, howner⟩ := hcollects t ht
    have hsingle := total_eq_single (w := borrowed ()) (f := m.rest) (t := t) fun u hut => by
      by_contra hu
      exact hut (Option.some.inj ((hcollects u hu).2.symm.trans howner))
    omega
  · simp only [not_exists, not_not] at hsome
    have hzero := total_eq_zero hsome
    omega

theorem Inv.progress (h : Inv m) (hsome : ∃ t, m.rest t ≠ []) :
    ∃ t, m.rest t ≠ [] ∧ (m.advance t).isSome := by
  by_contra hno
  have hstuck : ∀ t, m.rest t ≠ [] → m.advance t = none := by
    intro t ht
    by_contra hadv
    exact hno ⟨t, ht, Option.isSome_iff_ne_none.mpr hadv⟩
  have hpos := h.count_pos hstuck
  -- 数は残っているので、待っているのは lock である。
  have hacquire : ∀ t, m.rest t ≠ [] → ∃ l prog u, m.rest t = .acquire l :: prog ∧ m.owner l = some u := by
    intro t ht
    rcases blocked_cases (hstuck t ht) ht with hlock | ⟨s, prog, -, hzero⟩
    · exact hlock
    · exact absurd hzero (Nat.pos_iff_ne_zero.mp hpos)
  obtain ⟨t, ht⟩ := hsome
  obtain ⟨l, prog, u, -, howner⟩ := hacquire t ht
  -- その lock の持ち主も何かの lock を待つが、lock を待つ thread は何も持たない。
  have hholds := (h.wellLocked.owner u l).mp howner
  have hu : m.rest u ≠ [] := by
    intro hnil
    simp [hnil, holds] at hholds
  obtain ⟨l', prog', -, hrest, -⟩ := hacquire u hu
  rw [(h.fair u).acquires (by simp [hrest, mayAcquire]) l] at hholds
  cases hholds

/-! ## 起動からの列 -/

/--
**`rwlock_create` からのどの列の後でも、writer が持つ間はほかに誰も持たず、reader は 30 までで、
誰も持っていないのに操作の途中の全員が待つことは無い。**
-/
theorem rwlock_exact {tr : List (Transition (RwLock T) (Op T))} {u : RwLock T}
    (hrun : Run RwStep create tr u) :
    (∀ t v, u.inside t = some .write → u.inside v ≠ none → v = t) ∧ u.readers ≤ 30 ∧
      ((∀ t, u.inside t = none) → (∃ t, u.rest t ≠ []) →
        ∃ t, u.rest t ≠ [] ∧ ∃ u', u.step (.advance t) = some u') := by
  have hinv : Inv u := (hrun.invariant' (fun hp hq => hp.step hq) inv_create).1
  refine ⟨fun t v => hinv.exclusive, hinv.readers_le, fun _ hsome => ?_⟩
  obtain ⟨t, ht, hadv⟩ := hinv.progress hsome
  exact ⟨t, ht, Option.isSome_iff_exists.mp hadv⟩

/-- writer が持つ間に reader が待つ列と、誰も持たずに writer が集めている列。 -/
theorem rwlock_exact_writer_inside :
    (∃ tr u, Run RwStep (create : RwLock (Fin 2)) tr u ∧ u.inside 0 = some .write ∧
      u.rest 1 = rwSession .read ∧ u.inside 1 = none ∧ u.readers ≤ 30) ∧
    ∃ tr u, Run RwStep (create : RwLock (Fin 2)) tr u ∧ (∀ t, u.inside t = none) ∧
      ∃ t, u.rest t ≠ [] ∧ ∃ u', u.step (.advance t) = some u' := by
  constructor
  · obtain ⟨u, hu⟩ : ∃ u, (.start 1 .read :: .start 0 .write :: List.replicate 32 (.advance 0)).foldlM step
        (create : RwLock (Fin 2)) = some u := ⟨_, rfl⟩
    have hrun := (Run.of_foldlM hu).1
    obtain ⟨hexclusive, hreaders, -⟩ := rwlock_exact hrun
    have hinside : u.inside 0 = some .write ∧ u.rest 1 = rwSession .read := by
      cases hu
      exact ⟨rfl, rfl⟩
    refine ⟨_, u, hrun, hinside.1, hinside.2, ?_, hreaders⟩
    by_contra hother
    exact absurd (hexclusive 0 1 hinside.1 hother) (by decide)
  · obtain ⟨u, hu⟩ : ∃ u, [Op.start 0 .write, .start 1 .read, .advance 0, .advance 0].foldlM step
        (create : RwLock (Fin 2)) = some u := ⟨_, rfl⟩
    have hrun := (Run.of_foldlM hu).1
    have hinside : ∀ t, u.inside t = none := by
      cases hu
      decide
    have hrest : u.rest 1 ≠ [] := by
      cases hu
      exact List.cons_ne_nil _ _
    exact ⟨_, u, hrun, hinside, (rwlock_exact hrun).2.2 hinside ⟨1, hrest⟩⟩

end RwLock

end Os161
