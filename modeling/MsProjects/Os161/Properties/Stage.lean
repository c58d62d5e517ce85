import MsProjects.Infra.Stage
import MsProjects.Os161.Properties.Primitives

/-! # lock と semaphore の中の進み具合 -/

namespace Os161

open Infra List Function Machine

variable {T : Type*} [DecidableEq T]

/-! ## lock -/

namespace Lock

variable {s s' : Lock T} {op : Op T} {i : Instr Unit Empty Empty}

def stage : LockPc → Stage (Instr Unit Empty Empty)
  | .out => .idle
  | .acqCheck | .acqTest | .acqSleep | .asleep => .before (.acquire ())
  | .relCheck | .relClear => .before (.release ())
  | .relWake => .after (.release ())

theorem pending_eq (pc : LockPc) : pending pc = (stage pc).pending := by
  cases pc <;> rfl

theorem stage_eq_idle {pc : LockPc} : stage pc = .idle ↔ pc = .out := by
  cases pc <;> simp [stage]

/-- 呼び出す命令。 -/
def Op.instr? : Op T → Option (Instr Unit Empty Empty)
  | .acquire _ => some (.acquire ())
  | .release _ => some (.release ())
  | .advance _ => none

theorem next_stage (h : LockStep s op s')
    (hi : op.instr? = some i ∨ (stage (s.pc op.thread)).calling = some i) :
    (stage (s.pc op.thread)).Next i (stage (s'.pc op.thread)) := by
  cases step_cases h <;>
    simp_all [Op.instr?, Op.thread, Stage.calling, stage, callAcquire, callRelease, returnAcquire, setPc] <;>
    subst hi <;> constructor

/-- ほかの thread の進み具合は変わらない。 -/
theorem Inv.stage_of_ne (h : Inv s) (hstep : LockStep s op s') {u : T} (hu : u ≠ op.thread) :
    stage (s'.pc u) = stage (s.pc u) := by
  cases step_cases hstep with
  | wakeone hpc hwake => exact apply_update_wake stage h.wchan hwake rfl hu
  | _ => simp_all [Op.thread, callAcquire, callRelease, returnAcquire, setPc, update_of_ne]

theorem Inv.taken (h : Inv s) (hstep : LockStep s op s')
    (hnext : (stage (s.pc op.thread)).Next i (stage (s'.pc op.thread))) :
    s.atomic.taken op.thread i (stage (s.pc op.thread)) (stage (s'.pc op.thread)) =
      some { s'.atomic with rest := s.atomic.rest } :=
  (h.follows hstep).taken (pending_eq _) (pending_eq _) hnext

/-- 呼び出しの中の誰も進めないなら、みな眠っていて、lock には持ち主がいる。 -/
theorem Inv.stuck (h : Inv s) (hstuck : ∀ u, s.pc u ≠ .out → s.advance u = none) :
    (∀ u, s.pc u = .out ∨ s.pc u = .asleep) ∧ (s.ownerThread = none → ∀ u, s.pc u = .out) := by
  have hsleep : ∀ u, s.pc u ≠ .acqSleep := by
    intro u hu
    simpa [advance, hu] using hstuck u (by simp [hu])
  have hwc : s.lkWchan.wcLock = none :=
    Option.eq_none_iff_forall_ne_some.mpr fun u hu => hsleep u ((h.wchan.lock u).mp hu)
  have hwake : ∀ u, s.pc u ≠ .relWake := by
    intro u hu
    simpa [advance, hu, relWakeone, Wchan.wakeone, hwc] using hstuck u (by simp [hu])
  have hspin : s.lkSpinlock = none :=
    Option.eq_none_iff_forall_ne_some.mpr fun u hu => hwake u ((h.spin u).mp hu)
  have htest : ∀ u, s.pc u ≠ .acqTest := by
    intro u hu
    have hnone := hstuck u (by simp [hu])
    by_cases howner : s.ownerThread.isSome = true <;>
      simp [advance, hu, acqTest, hspin, Wchan.lock, hwc, howner] at hnone
  have hall : ∀ u, s.pc u = .out ∨ s.pc u = .asleep := by
    intro u
    cases hpc : s.pc u with
    | out | asleep => simp
    | acqSleep => exact absurd hpc (hsleep u)
    | relWake => exact absurd hpc (hwake u)
    | acqTest => exact absurd hpc (htest u)
    | acqCheck | relCheck | relClear => simpa [advance, hpc, hspin] using hstuck u (by simp [hpc])
  refine ⟨hall, fun howner u => (hall u).resolve_right fun hu => ?_⟩
  -- 持ち主がいなければ、眠っている thread のほかに調べに行く thread がいる。
  obtain ⟨v, hv⟩ := h.waiters howner (by simp [hspin]) u (.inl hu)
  exact htest v hv

end Lock

/-! ## semaphore -/

namespace Semaphore

variable {s s' : Semaphore T} {op : Op T} {i : Instr Empty Unit Empty}

def stage : SemPc → Stage (Instr Empty Unit Empty)
  | .out => .idle
  | .p | .pSleep | .asleep => .before (.p ())
  | .v => .before (.v ())
  | .vWake => .after (.v ())

theorem pending_eq (pc : SemPc) : pending pc = (stage pc).pending := by
  cases pc <;> rfl

theorem stage_eq_idle {pc : SemPc} : stage pc = .idle ↔ pc = .out := by
  cases pc <;> simp [stage]

/-- 呼び出す命令。 -/
def Op.instr? : Op T → Option (Instr Empty Unit Empty)
  | .callP _ => some (.p ())
  | .callV _ => some (.v ())
  | .advance _ => none

theorem next_stage (h : SemStep s op s')
    (hi : op.instr? = some i ∨ (stage (s.pc op.thread)).calling = some i) :
    (stage (s.pc op.thread)).Next i (stage (s'.pc op.thread)) := by
  cases step_cases h <;> simp_all [Op.instr?, Op.thread, Stage.calling, stage, setPc] <;>
    subst hi <;> constructor

variable [Fintype T]

/-- ほかの thread の進み具合は変わらない。 -/
theorem Inv.stage_of_ne (h : Inv s) (hstep : SemStep s op s') {u : T} (hu : u ≠ op.thread) :
    stage (s'.pc u) = stage (s.pc u) := by
  cases step_cases hstep with
  | wakeone hpc hwake => exact apply_update_wake stage h.wchan hwake rfl hu
  | _ => simp_all [Op.thread, setPc, update_of_ne]

theorem Inv.taken (h : Inv s) (hstep : SemStep s op s')
    (hnext : (stage (s.pc op.thread)).Next i (stage (s'.pc op.thread))) :
    s.atomic.taken op.thread i (stage (s.pc op.thread)) (stage (s'.pc op.thread)) =
      some { s'.atomic with rest := s.atomic.rest } :=
  (h.follows hstep).taken (pending_eq _) (pending_eq _) hnext

/-- 呼び出しの中の誰も進めないなら、みな眠っていて、数は 0 である。 -/
theorem Inv.stuck (h : Inv s) (hmax : s.semCount < intMax)
    (hstuck : ∀ u, s.pc u ≠ .out → s.advance u = none) :
    (∀ u, s.pc u = .out ∨ s.pc u = .asleep) ∧ (0 < s.semCount → ∀ u, s.pc u = .out) := by
  have hsleep : ∀ u, s.pc u ≠ .pSleep := by
    intro u hu
    simpa [advance, hu] using hstuck u (by simp [hu])
  have hwc : s.semWchan.wcLock = none :=
    Option.eq_none_iff_forall_ne_some.mpr fun u hu => hsleep u ((h.wchan.lock u).mp hu)
  have hwake : ∀ u, s.pc u ≠ .vWake := by
    intro u hu
    simpa [advance, hu, vWakeone, Wchan.wakeone, hwc] using hstuck u (by simp [hu])
  have hspin : s.semLock = none :=
    Option.eq_none_iff_forall_ne_some.mpr fun u hu => hwake u ((h.spin u).mp hu)
  have hnonneg := h.nonneg
  have htest : ∀ u, s.pc u ≠ .p := by
    intro u hu
    have hnone := hstuck u (by simp [hu])
    by_cases hzero : s.semCount = 0
    · simp [advance, hu, pTest, hspin, Wchan.lock, hwc, hzero] at hnone
    · have hpos : 0 < s.semCount := by omega
      simp [advance, hu, pTest, hspin, hzero, hpos] at hnone
  have hall : ∀ u, s.pc u = .out ∨ s.pc u = .asleep := by
    intro u
    cases hpc : s.pc u with
    | out | asleep => simp
    | pSleep => exact absurd hpc (hsleep u)
    | vWake => exact absurd hpc (hwake u)
    | p => exact absurd hpc (htest u)
    | v =>
      have hnone := hstuck u (by simp [hpc])
      have hpos : 0 < s.semCount + 1 := by omega
      simp [advance, hpc, vInc, hspin, hmax.ne, hpos] at hnone
  refine ⟨hall, fun hpos u => (hall u).resolve_right fun hu => ?_⟩
  -- 数が残っていれば、眠っている thread のほかに調べに行く thread がいる。
  have henough : s.semCount ≤ total tests s.pc := by simpa [hspin] using h.enough u (.inl hu)
  obtain ⟨v, hv⟩ := exists_of_total_pos (w := tests) (f := s.pc) (by omega)
  simp [tests, htest v] at hv

end Semaphore

end Os161
