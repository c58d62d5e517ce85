import MsProjects.Os161.Properties.RwLock
import MsProjects.Os161.Properties.Stoplight
import MsProjects.Os161.Properties.Workers

/-! # 実装の lock と semaphore の上の reader-writer lock と交差点 -/

namespace Os161

open Infra Machine

variable {T : Type*}

/-! ## reader-writer lock -/

namespace RwLock

/-- `rwlock_create` の直後。 -/
def created : Workers T RwLk Unit RwMode := ⟨fun _ => .create, fun _ => .create maxReaders, fun _ => []⟩

theorem inv_created [Fintype T] : (created : Workers T RwLk Unit RwMode).Inv where
  lock _ := Lock.inv_create
  sem _ := Semaphore.inv_create (by decide)
  head t o i hi := by cases o <;> cases hi

section Atomic

variable [Fintype T] {u : Workers T RwLk Unit RwMode} (h : u.Inv)

include h

theorem inside_of_rest {t : T} {mode : RwMode} (ht : modeOf (u.rest t) = some mode) :
    inside u.atomic t = some mode := by
  rcases h.rest_cases t with hrest | ⟨l, hrest⟩ | ⟨s, hrest⟩
  · rw [inside, hrest, ht]
  · simp [hrest, modeOf] at ht
  · simp [hrest, modeOf] at ht

end Atomic

variable [DecidableEq T]

/-- `rwlock_*` を呼び出すか、その中を一つ進む。 -/
def stepIn (m : Workers T RwLk Unit RwMode) : Op T → Option (Workers T RwLk Unit RwMode)
  | .start t mode => m.start t (rwSession mode)
  | .advance t => m.advance t

def StepIn (m : Workers T RwLk Unit RwMode) (op : Op T) (m' : Workers T RwLk Unit RwMode) : Prop :=
  stepIn m op = some m'

variable [Fintype T] {m m' u : Workers T RwLk Unit RwMode}

theorem refines_step {op : Op T} (h : m.Inv) (hstep : StepIn m op m') :
    m'.Inv ∧ (m'.atomic = m.atomic ∨ ∃ op', RwStep m.atomic op' m'.atomic) := by
  cases op with
  | start t mode =>
    obtain ⟨hinv, hrest, hatomic⟩ := h.start hstep
    refine ⟨hinv, .inr ⟨.start t mode, ?_⟩⟩
    rw [RwStep, RwLock.step, if_pos hrest, hatomic]
  | advance t =>
    obtain ⟨hinv, hsame | hadv⟩ := h.advance hstep
    · exact ⟨hinv, .inl hsame⟩
    · exact ⟨hinv, .inr ⟨.advance t, hadv⟩⟩

/-- 実装の上の列は、一度に効く命令の列になる。 -/
theorem refines_run {tr : List (Transition (Workers T RwLk Unit RwMode) (Op T))}
    (hrun : Run StepIn created tr u) : u.Inv ∧ ∃ tr', Run RwStep create tr' u.atomic :=
  hrun.image refines_step inv_created

/--
**`lock_acquire` などの中を一つずつ進むどの列の後でも、writer が持つ間はほかに誰も持たず、reader は 30 までで、
操作の途中の全員が進めなくなることは無い。**
-/
theorem rwlock_implemented {tr : List (Transition (Workers T RwLk Unit RwMode) (Op T))}
    (hrun : Run StepIn created tr u) :
    (∀ t v, modeOf (u.rest t) = some .write → modeOf (u.rest v) ≠ none → v = t) ∧
      (Finset.univ.filter fun t => modeOf (u.rest t) = some .read).card ≤ 30 ∧
      ((∃ t, u.rest t ≠ []) → ∃ t u', u.advance t = some u') := by
  obtain ⟨hworkers, tr', hatomic⟩ := refines_run hrun
  have hinv : Inv u.atomic := (hatomic.invariant' (fun hp hq => hp.step hq) inv_create).1
  refine ⟨fun t v ht hv => ?_, ?_, fun hsome => ?_⟩
  · obtain ⟨mode, hmode⟩ := Option.ne_none_iff_exists'.mp hv
    exact hinv.exclusive (inside_of_rest hworkers ht) (by simp [inside_of_rest hworkers hmode])
  · refine le_trans (Finset.card_le_card fun t => ?_) hinv.readers_le
    simpa using inside_of_rest hworkers
  · have hmax := hworkers.semCount_lt hinv.supply (by decide) fun t => (hinv.fair t).nonneg
    refine hworkers.progress (fun _ => hmax) hinv.wellLocked (fun hrest => ?_) hsome
    obtain ⟨t, -, hadv⟩ := hinv.progress hrest
    exact ⟨t, Option.isSome_iff_exists.mp hadv⟩

end RwLock

/-! ## 交差点 -/

namespace Car

variable {car : Car} {i : CarInstr} {rest : List CarInstr}

theorem passed_tail (h : i :: rest <:+ car.program) :
    car.passed rest = car.passed (i :: rest) ++ [i] := by
  obtain ⟨pre, hpre⟩ := h
  have htail : car.program = pre ++ [i] ++ rest := by simp [← hpre]
  have hrest : car.passed rest = pre ++ [i] := by
    rw [passed, htail, List.length_append, Nat.add_sub_cancel, List.take_left]
  have hcons : car.passed (i :: rest) = pre := by
    rw [passed, ← hpre, List.length_append, Nat.add_sub_cancel, List.take_left]
  rw [hrest, hcons]

/-- 解放と `v` は、車のいる所にも、通った quadrant にも、出たことにも関わらない。 -/
theorem seen_tail (h : i :: rest <:+ car.program) (hi : (∃ q, i = .release q) ∨ ∃ s, i = .v s) :
    car.position (i :: rest) = car.position rest ∧ car.visited (i :: rest) = car.visited rest ∧
      car.left (i :: rest) = car.left rest := by
  have hpassed := passed_tail h
  rcases hi with ⟨q, rfl⟩ | ⟨s, rfl⟩ <;>
    simp [position, visited, left, hpassed, move, quadrant?, List.filterMap_append]

theorem menu_of_suffix (h : rest <:+ car.program) : 0 ≤ borrowed .stoplightMenuSemaphore rest := by
  obtain ⟨turn, direction⟩ := car
  have hall : ∀ d : Fin 4, ∀ r ∈ (mk turn d).program.tails, 0 ≤ borrowed .stoplightMenuSemaphore r := by
    cases turn <;> decide +kernel
  exact hall direction rest ((List.mem_tails _ _).mpr h)

theorem menu_program (car : Car) : borrowed .stoplightMenuSemaphore car.program = 1 := by
  obtain ⟨turn, direction⟩ := car
  cases turn <;> rfl

end Car

namespace Stoplight

/-- `stoplight_init` の直後。 -/
def started (cars : T → Car) : Workers T (Fin 4) StopSem Drive where
  lock _ := .create
  sem
    | .allow3sem => .create 3
    | .stoplightMenuSemaphore => .create 0
  rest t := (cars t).program

theorem inv_started [Fintype T] (cars : T → Car) : (started cars).Inv where
  lock _ := Lock.inv_create
  sem s := by cases s <;> exact Semaphore.inv_create (by decide)
  head t o i hi := by
    rcases o with l | ⟨⟨⟩ | ⟨⟩⟩ <;> cases hi

theorem started_atomic (cars : T → Car) : (started cars).atomic = init cars := by
  have hstage : ∀ t, (started cars).stage t = .idle := fun t =>
    Workers.stage_of_idle fun o => by rcases o with l | ⟨⟨⟩ | ⟨⟩⟩ <;> rfl
  refine Machine.ext rfl (funext fun s => by cases s <;> rfl) (funext fun t => ?_)
  show Stage.remaining _ ((started cars).stage t) = _
  rw [hstage]
  rfl

section Atomic

variable [Fintype T] {cars : T → Car} {m : Workers T (Fin 4) StopSem Drive}

theorem seen_atomic (h : m.Inv) (hsuffix : ∀ t, m.rest t <:+ (cars t).program) (t : T) :
    (cars t).position (m.rest t) = (cars t).position (m.atomic.rest t) ∧
      (cars t).visited (m.rest t) = (cars t).visited (m.atomic.rest t) ∧
      (cars t).left (m.rest t) = (cars t).left (m.atomic.rest t) := by
  have ht := hsuffix t
  rcases h.rest_cases t with hrest | ⟨q, hrest⟩ | ⟨s, hrest⟩
  · simp [hrest]
  · rw [hrest] at ht ⊢
    exact Car.seen_tail ht (.inl ⟨q, rfl⟩)
  · rw [hrest] at ht ⊢
    exact Car.seen_tail ht (.inr ⟨s, rfl⟩)

theorem menu_init (cars : T → Car) : (init cars).supply .stoplightMenuSemaphore = Fintype.card T := by
  simp [supply, init, total, Car.menu_program]

end Atomic

variable [DecidableEq T]

def StepIn (m : Workers T (Fin 4) StopSem Drive) (t : T) (m' : Workers T (Fin 4) StopSem Drive) : Prop :=
  m.advance t = some m'

variable [Fintype T] {cars : T → Car} {m : Workers T (Fin 4) StopSem Drive}

/-- 実装の上の列は、一度に効く命令の列になる。 -/
theorem refines_run {tr : List (Transition (Workers T (Fin 4) StopSem Drive) T)}
    (hrun : Run StepIn (started cars) tr m) :
    (m.Inv ∧ ∀ t, m.rest t <:+ (cars t).program) ∧ ∃ tr', Run StopStep (init cars) tr' m.atomic := by
  rw [← started_atomic]
  refine hrun.image (I := fun m => m.Inv ∧ ∀ t, m.rest t <:+ (cars t).program) ?_
    ⟨inv_started cars, fun t => List.suffix_rfl⟩
  rintro p t q ⟨hp, hsuffix⟩ hstep
  obtain ⟨hq, hshow⟩ := hp.advance hstep
  exact ⟨⟨hq, fun u => (hp.advance_suffix hstep u).trans (hsuffix u)⟩, hshow.imp_right fun hadv => ⟨t, hadv⟩⟩

/--
**`lock_acquire` などの中を一つずつ進むどの列の後でも、同じ quadrant に二台の車はいない。車は通り道を順に通り、
出たときには通り終えている。終わっていない車があれば、どれかの車が進める。**
-/
theorem stoplight_implemented (hcars : (Fintype.card T : Int) < intMax)
    {tr : List (Transition (Workers T (Fin 4) StopSem Drive) T)} (hrun : Run StepIn (started cars) tr m) :
    (∀ t u q, (cars t).position (m.rest t) = some q → (cars u).position (m.rest u) = some q → t = u) ∧
      (∀ t, (cars t).visited (m.rest t) <+: (cars t).route ∧
        ((cars t).left (m.rest t) = true → (cars t).visited (m.rest t) = (cars t).route)) ∧
      ((∃ t, m.rest t ≠ []) → ∃ t m', StepIn m t m') := by
  obtain ⟨⟨hworkers, hsuffix⟩, tr', hatomic⟩ := refines_run hrun
  have hinv : Inv cars m.atomic := (hatomic.invariant' (fun hp hq => hp.step hq) (inv_init cars)).1
  have hmenu : m.atomic.supply .stoplightMenuSemaphore = Fintype.card T :=
    (hatomic.invariant' (I := fun m => m.supply .stoplightMenuSemaphore = (Fintype.card T : Int))
      (fun hp hq => (supply_advance hq _).trans hp) (menu_init cars)).1
  have hseen := seen_atomic hworkers hsuffix
  refine ⟨fun t u q ht hu => ?_, fun t => ?_, fun hsome => ?_⟩
  · rw [(hseen t).1] at ht
    rw [(hseen u).1] at hu
    have howner := hinv.owner_of_position ht
    rw [hinv.owner_of_position hu] at howner
    exact (Option.some.inj howner).symm
  · rw [(hseen t).2.1, (hseen t).2.2]
    exact ⟨(hinv.fair t).visited, (hinv.fair t).left⟩
  · refine hworkers.progress (fun s => ?_) hinv.wellLocked hinv.progress hsome
    cases s with
    | allow3sem => exact hworkers.semCount_lt hinv.supply (by decide) fun t => (hinv.fair t).nonneg
    | stoplightMenuSemaphore =>
      exact hworkers.semCount_lt hmenu hcars fun t => Car.menu_of_suffix (hinv.suffix t)

end Stoplight

end Os161
