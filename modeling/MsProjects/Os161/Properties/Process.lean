import MsProjects.Infra.Run
import MsProjects.Os161.Syscall.Process

/-! # pid の一意性 -/

namespace Os161

open Infra List Function

open Option (map_eq_some_iff map_some some)

namespace Procs

variable {s s' : Procs}

/-! ## 性質 -/

/-- 載っている process の pid は `sys_waitpid` の受け付ける範囲にあり、互いに異なる。 -/
structure PidsOk (s : Procs) : Prop where
  inRange : ∀ {i p}, s.processTable i = some p → 1 ≤ p.pid ∧ p.pid < pidMax
  inj : ∀ {i j p q}, s.processTable i = some p → s.processTable j = some q → p.pid = q.pid → i = j

/-- 親はどの子も pid で名指しできる。 -/
def Nameable (s : Procs) : Prop :=
  ∀ i p, s.processTable i = some p → ∀ status : Vaddr, 0x40000000 < status → status % 4 = 0 →
    status < userspacetop → s.sysWaitpid p.ppid p.pid status wnohang =
      some (if p.exited = false then (.ok ⟨0, none⟩, s) else s.reap p.pid i p)

/-- 次の pid が範囲の中に残っていない fork は失敗し、何も作らない。 -/
def ForkClean (s : Procs) : Op → Prop
  | .fork caller env => pidMax ≤ s.pidCounter + 1 →
      ∀ r, s.threadFork (s.curpid caller) env = some r →
        (∃ err, r.1 = .error err) ∧ r.2.processTable = s.processTable
  | _ => True

/-! ## `thread_fork` のすること -/

def Full (s : Procs) : Prop := ∀ i : Fin procMax, 1 ≤ i.val → (s.processTable i).isSome = true

/-- memory が足りていて、途中で失敗しない。 -/
def ForkEnv.Ok (env : ForkEnv) (curpid : Int) : Prop :=
  env.threadCreate = true ∧ env.kmallocStack = true ∧ env.kmallocProcess = true ∧
    env.semCreate = true ∧ (if curpid ≠ 0 then env.asCopy else env.initFiletable) = .ok ()

/-- pid が `curpid` の thread の fork が process を作る条件。 -/
def Creates (s : Procs) (curpid : Int) (env : ForkEnv) : Prop :=
  env.Ok curpid ∧ ¬ s.Full ∧ s.pidCounter + 1 ≠ pidMax

theorem pidAlloc_cases {r : PidAlloc × Procs} (h : s.pidAlloc = some r) :
    (s.Full ∧ r = (.full, s)) ∨
    (¬ s.Full ∧ s.pidCounter + 1 = pidMax ∧
      r = (.exhausted, { s with pidCounter := s.pidCounter + 1 })) ∨
    (∃ i, ¬ s.Full ∧ s.pidCounter + 1 ≠ pidMax ∧ s.processTable i = none ∧
      r = (.slot i, { s with pidCounter := s.pidCounter + 1 })) := by
  unfold pidAlloc at h
  split at h
  · rename_i hfind
    refine .inl ⟨fun i hi => ?_, (some.inj h).symm⟩
    have hnot := find?_eq_none.mp hfind i (mem_finRange i)
    simp only [hi, decide_true, Bool.true_and, Bool.not_eq_true] at hnot
    rwa [← Option.not_isSome, Bool.not_eq_false'] at hnot
  · rename_i i hfind
    have hsome := find?_some hfind
    simp only [Bool.and_eq_true, decide_eq_true_eq, Option.isNone_iff_eq_none] at hsome
    have hfull : ¬ s.Full := fun hf => by simpa [hsome.2] using hf i hsome.1
    split at h
    · cases h
    · simp only [some.injEq] at h
      split at h
      · rename_i heq
        exact .inr (.inl ⟨hfull, heq, h.symm⟩)
      · rename_i hne
        exact .inr (.inr ⟨i, hfull, hne, hsome.2, h.symm⟩)

/-- 失敗した fork は表を変えない。 -/
structure ForkFails (s : Procs) (curpid : Int) (env : ForkEnv) (r : Except Errno Int × Procs) :
    Prop where
  not_creates : ¬ s.Creates curpid env
  error : ∃ err, r.1 = .error err
  processTable : r.2.processTable = s.processTable
  pidCounter : r.2.pidCounter = s.pidCounter ∨ r.2.pidCounter = s.pidCounter + 1

theorem threadFork_cases {curpid : Int} {env : ForkEnv} {r : Except Errno Int × Procs}
    (h : s.threadFork curpid env = some r) :
    ForkFails s curpid env r ∨
    (s.Creates curpid env ∧ ∃ i, s.processTable i = none ∧
      s.pidAlloc = some (.slot i, { s with pidCounter := s.pidCounter + 1 }) ∧
      r = (.ok (s.pidCounter + 1), setSlot { s with pidCounter := s.pidCounter + 1 } i
        (some ⟨s.pidCounter + 1, curpid, false, 0⟩))) := by
  unfold threadFork at h
  by_cases hcreate : env.threadCreate = false
  · rw [if_pos hcreate] at h
    cases h
    exact .inl ⟨fun hc => by simp [hc.1.1] at hcreate, ⟨_, rfl⟩, rfl, .inl rfl⟩
  by_cases hstack : env.kmallocStack = false
  · rw [if_neg hcreate, if_pos hstack] at h
    cases h
    exact .inl ⟨fun hc => by simp [hc.1.2.1] at hstack, ⟨_, rfl⟩, rfl, .inl rfl⟩
  rw [if_neg hcreate, if_neg hstack] at h
  cases halloc : s.pidAlloc with
  | none =>
    rw [halloc] at h
    cases h
  | some a =>
    rw [halloc] at h
    rcases pidAlloc_cases halloc with ⟨hfull, rfl⟩ | ⟨hfull, hmax, rfl⟩ | ⟨i, hfull, hmax, hi, rfl⟩
    · cases h
      exact .inl ⟨fun hc => hc.2.1 hfull, ⟨_, rfl⟩, rfl, .inl rfl⟩
    · cases h
      exact .inl ⟨fun hc => hc.2.2 hmax, ⟨_, rfl⟩, rfl, .inr rfl⟩
    simp only [initProcess] at h
    by_cases hk : env.kmallocProcess = false
    · rw [if_pos hk] at h
      cases h
      exact .inl ⟨fun hc => by simp [hc.1.2.2.1] at hk, ⟨_, rfl⟩, rfl, .inr rfl⟩
    by_cases hsem : env.semCreate = false
    · rw [if_neg hk, if_pos hsem] at h
      cases h
      exact .inl ⟨fun hc => by simp [hc.1.2.2.2.1] at hsem, ⟨_, rfl⟩, rfl, .inr rfl⟩
    rw [if_neg hk, if_neg hsem] at h
    cases hlast : (if curpid ≠ 0 then env.asCopy else env.initFiletable) with
    | error err =>
      simp only [hlast, some.injEq] at h
      subst h
      refine .inl ⟨fun hc => ?_, ⟨_, rfl⟩, ?_, .inr rfl⟩
      · have hok := hc.1.2.2.2.2
        rw [hlast] at hok
        cases hok
      · simp only [destroyProcess, modify, setSlot, update_idem]
        rw [← hi, update_eq_self]
    | ok =>
      simp only [hlast, some.injEq] at h
      subst h
      refine .inr ⟨⟨⟨by simpa using hcreate, by simpa using hstack, by simpa using hk,
        by simpa using hsem, hlast⟩, hfull, hmax⟩, i, hi, rfl, ?_⟩
      simp only [modify, setSlot, update_self, update_idem, map_some]

/-! ## 表の変化 -/

/-- どの slot も、空になるか pid を変えない。 -/
def Inherits (s s' : Procs) : Prop :=
  ∀ i q, s'.processTable i = some q → ∃ p, s.processTable i = some p ∧ q.pid = p.pid

theorem inherits_of_eq (h : s'.processTable = s.processTable) : Inherits s s' :=
  fun _ q hi => ⟨q, h ▸ hi, rfl⟩

theorem inherits_sysExit (s : Procs) (i : Fin procMax) (exitcode : Int32) :
    Inherits s (s.sysExit i exitcode) := by
  intro j q hj
  by_cases hji : j = i
  · subst hji
    simp only [sysExit, modify, setSlot, update_self, map_eq_some_iff] at hj
    obtain ⟨p, hp, rfl⟩ := hj
    exact ⟨p, hp, rfl⟩
  · simp only [sysExit, modify, setSlot, update_of_ne hji] at hj
    exact ⟨q, hj, rfl⟩

theorem inherits_destroyProcess (s : Procs) (i : Fin procMax) : Inherits s (s.destroyProcess i) := by
  intro j q hj
  by_cases hji : j = i
  · subst hji
    simp [destroyProcess, setSlot] at hj
  · simp only [destroyProcess, setSlot, update_of_ne hji] at hj
    exact ⟨q, hj, rfl⟩

theorem PidsOk.inherits (h : PidsOk s) (hs : Inherits s s') : PidsOk s' where
  inRange hi := by
    obtain ⟨p, hp, heq⟩ := hs _ _ hi
    rw [heq]
    exact h.inRange hp
  inj hi hj hpq := by
    obtain ⟨p, hp, hp'⟩ := hs _ _ hi
    obtain ⟨q, hq, hq'⟩ := hs _ _ hj
    exact h.inj hp hq (by rw [← hp', ← hq', hpq])

theorem PidsOk.setSlot {i : Fin procMax} (h : PidsOk s) {p : Process} (counter : Int)
    (hrange : 1 ≤ p.pid ∧ p.pid < pidMax) (hnew : ∀ j q, s.processTable j = some q → q.pid ≠ p.pid) :
    PidsOk (setSlot { s with pidCounter := counter } i (some p)) := by
  have hself : (Procs.setSlot { s with pidCounter := counter } i (some p)).processTable i = some p := by
    simp [Procs.setSlot]
  have hother : ∀ {j}, j ≠ i →
      (Procs.setSlot { s with pidCounter := counter } i (some p)).processTable j = s.processTable j :=
    fun hj => update_of_ne hj _ _
  refine ⟨?_, ?_⟩
  · intro j q hj
    by_cases hji : j = i
    · rw [hji, hself] at hj
      rwa [← some.inj hj]
    · exact h.inRange ((hother hji).symm.trans hj)
  · intro j k q r hj hk heq
    by_cases hji : j = i <;> by_cases hki : k = i
    · rw [hji, hki]
    · rw [hji, hself] at hj
      rw [← some.inj hj] at heq
      exact absurd heq.symm (hnew k r ((hother hki).symm.trans hk))
    · rw [hki, hself] at hk
      rw [← some.inj hk] at heq
      exact absurd heq (hnew j q ((hother hji).symm.trans hj))
    · exact h.inj ((hother hji).symm.trans hj) ((hother hki).symm.trans hk) heq

theorem getptableIndex_eq {i : Fin procMax} {p : Process} (h : PidsOk s)
    (hi : s.processTable i = some p) : s.getptableIndex p.pid = some i := by
  unfold getptableIndex
  cases hfind : (finRange procMax).find? fun j => (s.processTable j).any fun q => q.pid = p.pid with
  | none =>
    have hnot := find?_eq_none.mp hfind i (mem_finRange i)
    simp [hi] at hnot
  | some j =>
    have hsome := find?_some hfind
    simp only [Option.any_eq_true, decide_eq_true_eq] at hsome
    obtain ⟨q, hq, heq⟩ := hsome
    rw [h.inj hq hi heq]

theorem PidsOk.nameable (h : PidsOk s) : Nameable s := by
  intro i p hi status hlo halign hhi
  obtain ⟨hpos, hmax⟩ := h.inRange hi
  have hrange : ¬ (p.pid < 1 ∨ pidMax ≤ p.pid) := by omega
  have hstatus : ¬ (status = 0 ∨ status ≤ 0x40000000 ∨ status % 4 ≠ 0) := by
    rintro (rfl | hle | hne)
    · exact absurd hlo (by decide)
    · exact absurd hlo (UInt32.not_lt.mpr hle)
    · exact hne halign
  have htop : ¬ (p.ppid ≠ 0 ∧ userspacetop ≤ status) := fun hc => UInt32.not_lt.mpr hc.2 hhi
  unfold sysWaitpid
  rw [if_neg hrange, getptableIndex_eq h hi]
  simp only [hi, if_neg hstatus, if_neg htop, ne_eq, not_true_eq_false, if_false, if_true]
  split <;> rfl

theorem sysWaitpid_sub {curpid pid : Int} {status : Vaddr} {options : Int}
    {r : Except Errno Waited × Procs} (h : s.sysWaitpid curpid pid status options = some r) :
    r.2 = s ∨ ∃ i, r.2 = s.destroyProcess i := by
  have hsame : ∀ {e}, some (e, s) = some r → r.2 = s ∨ ∃ i, r.2 = s.destroyProcess i :=
    fun he => .inl (by rw [← some.inj he])
  have hreap : ∀ {i p}, some (s.reap pid i p) = some r → r.2 = s ∨ ∃ i, r.2 = s.destroyProcess i :=
    fun {i p} he => .inr ⟨i, by rw [← some.inj he, reap]⟩
  unfold sysWaitpid at h
  repeat' split at h
  all_goals first
    | exact hreap h
    | exact hsame h
    | cases h

/-! ## 系の step -/

def ProcStep (s : Procs) (op : Op) (s' : Procs) : Prop := s.step op = some s'

/-- 一つの step が使う pid の数の上限。 -/
def Op.forks : Op → Nat
  | .fork _ _ => 1
  | _ => 0

theorem procStep_cases {op : Op} (hstep : ProcStep s op s') :
    (∃ caller env i, op = .fork caller env ∧ s.Creates (s.curpid caller) env ∧ s.processTable i = none ∧
      s' = setSlot { s with pidCounter := s.pidCounter + 1 } i
        (some ⟨s.pidCounter + 1, s.curpid caller, false, 0⟩)) ∨
    (Inherits s s' ∧ (∀ caller env, op = .fork caller env → ¬ s.Creates (s.curpid caller) env) ∧
      (s'.pidCounter = s.pidCounter ∨ op.forks = 1 ∧ s'.pidCounter = s.pidCounter + 1)) := by
  cases op with
  | fork caller env =>
    simp only [ProcStep, step, Option.ite_none_right_eq_some, map_eq_some_iff] at hstep
    obtain ⟨-, r, hr, rfl⟩ := hstep
    rcases threadFork_cases hr with hfail | ⟨hcreate, i, hi, -, rfl⟩
    · refine .inr ⟨inherits_of_eq hfail.processTable, ?_, hfail.pidCounter.imp_right (⟨rfl, ·⟩)⟩
      intro c e heq
      cases heq
      exact hfail.not_creates
    · exact .inl ⟨caller, env, i, rfl, hcreate, hi, rfl⟩
  | exit i exitcode =>
    simp only [ProcStep, step, Option.ite_none_right_eq_some, some.injEq] at hstep
    obtain ⟨-, rfl⟩ := hstep
    exact .inr ⟨inherits_sysExit s i exitcode, (fun _ _ h => nomatch h), .inl rfl⟩
  | waitpid caller pid status options =>
    simp only [ProcStep, step, Option.ite_none_right_eq_some, map_eq_some_iff] at hstep
    obtain ⟨-, r, hr, rfl⟩ := hstep
    rcases sysWaitpid_sub hr with heq | ⟨i, heq⟩
    · rw [heq]
      exact .inr ⟨inherits_of_eq rfl, (fun _ _ h => nomatch h), .inl rfl⟩
    · rw [heq]
      exact .inr ⟨inherits_destroyProcess s i, (fun _ _ h => nomatch h), .inl rfl⟩

/-- process を作る fork は、`pid_counter` が `__PID_MAX` に届く前に行われる。 -/
def ForkInTime (s : Procs) : Op → Prop
  | .fork caller env => s.Creates (s.curpid caller) env → s.pidCounter < pidMax
  | _ => True

/-- `pid_counter` は負にならず、載っている pid を下回らない。 -/
structure Counted (s : Procs) : Prop where
  nonneg : 0 ≤ s.pidCounter
  pids : ∀ {i p}, s.processTable i = some p → p.pid ≤ s.pidCounter

theorem Counted.step {op : Op} (h : Counted s) (hstep : ProcStep s op s') : Counted s' := by
  have hnonneg := h.nonneg
  rcases procStep_cases hstep with ⟨caller, env, i, rfl, -, -, rfl⟩ | ⟨hinh, -, hcounter⟩
  · refine ⟨?_, fun {j q} hj => ?_⟩
    · show 0 ≤ s.pidCounter + 1
      omega
    · show q.pid ≤ s.pidCounter + 1
      by_cases hji : j = i
      · subst hji
        simp only [Procs.setSlot, update_self, some.injEq] at hj
        rw [← hj]
      · simp only [Procs.setSlot, update_of_ne hji] at hj
        have := h.pids hj
        omega
  · have hle : s.pidCounter ≤ s'.pidCounter := by omega
    refine ⟨by omega, fun hi => ?_⟩
    obtain ⟨p, hp, heq⟩ := hinh _ _ hi
    have := h.pids hp
    omega

theorem forkClean_of_inTime {op : Op} (h : s.ForkInTime op) : s.ForkClean op := by
  cases op with
  | fork caller env =>
    intro hmax r hr
    rcases threadFork_cases hr with hfail | ⟨hcreate, -⟩
    · exact ⟨hfail.error, hfail.processTable⟩
    · have hlt := h hcreate
      have hne := hcreate.2.2
      omega
  | exit i exitcode | waitpid caller pid status options => trivial

theorem PidsOk.step {op : Op} (h : PidsOk s) (hcount : Counted s) (hstep : ProcStep s op s')
    (hc : s.ForkInTime op) : PidsOk s' := by
  rcases procStep_cases hstep with ⟨caller, env, i, rfl, hcreate, hi, rfl⟩ | ⟨hinh, -⟩
  · have hlt := hc hcreate
    have hne := hcreate.2.2
    have hnonneg := hcount.nonneg
    refine h.setSlot _ ⟨?_, ?_⟩ fun j q hj heq => ?_
    · show 1 ≤ s.pidCounter + 1
      omega
    · show s.pidCounter + 1 < pidMax
      omega
    · have hle := hcount.pids hj
      have heq' : q.pid = s.pidCounter + 1 := heq
      omega
  · exact h.inherits hinh

theorem not_pidsOk_step {op : Op} (hstep : ProcStep s op s') (hc : ¬ s.ForkInTime op) :
    ¬ PidsOk s' := by
  rcases procStep_cases hstep with ⟨caller, env, i, rfl, hcreate, hi, rfl⟩ | ⟨-, hno, -⟩
  · intro hok
    refine hc fun _ => ?_
    have hlt := (hok.inRange (i := i) (p := ⟨s.pidCounter + 1, s.curpid caller, false, 0⟩)
      (by simp [Procs.setSlot])).2
    have hlt' : s.pidCounter + 1 < pidMax := hlt
    omega
  · cases op with
    | fork caller env => exact absurd (fun hcreate => absurd hcreate (hno caller env rfl)) hc
    | exit i exitcode | waitpid caller pid status options => exact absurd trivial hc

theorem pidsOk_empty (counter : Int) : PidsOk ⟨fun _ => none, counter⟩ where
  inRange h := nomatch h
  inj h := nomatch h

theorem counted_boot : Counted boot := ⟨le_rfl, fun h => nomatch h⟩

theorem pidCounter_le {op : Op} (hstep : ProcStep s op s') :
    s'.pidCounter ≤ s.pidCounter + op.forks := by
  rcases procStep_cases hstep with ⟨caller, env, i, rfl, -, -, rfl⟩ | ⟨-, -, hsame | ⟨hone, hsucc⟩⟩
  · exact le_rfl
  · omega
  · omega

theorem forkInTime_of_few_forks {tr : List (Transition Procs Op)} {u : Procs}
    (hrun : Run ProcStep s tr u) (hn : s.pidCounter + (tr.map fun x => x.label.forks).sum ≤ pidMax) :
    ∀ x ∈ tr, ForkInTime x.pre x.label := by
  induction hrun with
  | nil => simp
  | @cons s t u op tr hstep _ ih =>
    simp only [map_cons, sum_cons, Nat.cast_add] at hn
    have hle := pidCounter_le hstep
    intro x hx
    rcases mem_cons.mp hx with rfl | hx
    · cases op with
      | fork caller env =>
        intro _
        have hone : (Op.fork caller env).forks = 1 := rfl
        show s.pidCounter < pidMax
        omega
      | exit i exitcode => trivial
      | waitpid caller pid status options => trivial
    · exact ih (by omega) x hx

/-! ## 起動からの列 -/

/--
**起動からの列で pid がいつも一意で名指しでき、pid の残っていない fork が何も作らないのは、
process を作る fork がどれも `pid_counter` が `__PID_MAX` に届く前に行われるとき、そのときに限る。
fork が `__PID_MAX` 回までならその条件は必ず成り立つ。**
-/
theorem pids_exact_iff {tr : List (Transition Procs Op)} {u : Procs} (hrun : Run ProcStep boot tr u) :
    ((∀ x ∈ tr, PidsOk x.post ∧ Nameable x.post ∧ ForkClean x.pre x.label) ↔
      ∀ x ∈ tr, ForkInTime x.pre x.label) ∧
    ((tr.map fun x => x.label.forks).sum ≤ 32767 → ∀ x ∈ tr, ForkInTime x.pre x.label) := by
  refine ⟨hrun.forall_iff (I := fun s => PidsOk s ∧ Counted s)
    (G := fun s op s' => PidsOk s' ∧ Nameable s' ∧ ForkClean s op) ?_ ?_
    ⟨pidsOk_empty 0, counted_boot⟩, fun hn => forkInTime_of_few_forks hrun ?_⟩
  · rintro s op s' ⟨hok, hcount⟩ hstep hc
    have hok' := hok.step hcount hstep hc
    exact ⟨⟨hok', hcount.step hstep⟩, hok', hok'.nameable, forkClean_of_inTime hc⟩
  · intro s op s' _ hstep hc hg
    exact not_pidsOk_step hstep hc hg.1
  · show (0 : Int) + _ ≤ 32767
    omega

/-! ### pid を使い切る列 -/

def forkOk : ForkEnv := ⟨true, true, true, true, .ok (), .ok ()⟩

theorem pidAlloc_empty (c : Int) :
    pidAlloc ⟨fun _ => none, c⟩ = if c = intMax then none
      else some (if c + 1 = pidMax then (.exhausted, ⟨fun _ => none, c + 1⟩) else
        (.slot 1, ⟨fun _ => none, c + 1⟩)) :=
  rfl

theorem fork_empty {c : Int} (hc : c + 1 ≠ pidMax) (hmax : c ≠ intMax) :
    ∃ i, ProcStep ⟨fun _ => none, c⟩ (.fork none forkOk)
      (setSlot ⟨fun _ => none, c + 1⟩ i (some ⟨c + 1, 0, false, 0⟩)) := by
  refine ⟨1, ?_⟩
  simp only [ProcStep, step, running, if_true, threadFork, pidAlloc_empty, if_neg hmax, if_neg hc]
  simp [forkOk, initProcess, modify, setSlot, curpid]

theorem run_program {c : Int} (hlo : 0 ≤ c) (hhi : c + 1 < pidMax) :
    ∃ i tr, Run ProcStep ⟨fun _ => none, c⟩ tr ⟨fun _ => none, c + 1⟩ ∧ tr.map (fun x => x.label) =
      [.fork none forkOk, .exit i 0, .waitpid none (c + 1) 0x7ffffff0 wnohang] := by
  have hmax : pidMax ≤ intMax := by decide
  obtain ⟨i, h₁⟩ := fork_empty (c := c) (by omega) (by omega)
  let p : Process := ⟨c + 1, 0, false, 0⟩
  let s₁ : Procs := setSlot ⟨fun _ => none, c + 1⟩ i (some p)
  let s₂ : Procs := s₁.sysExit i 0
  have hs₁ : s₁.processTable i = some p := by simp [s₁, setSlot]
  have hs₂ : s₂.processTable i = some { p with exited := true } := by
    simp [s₂, sysExit, modify, setSlot, hs₁, p]
  have hok : PidsOk s₂ := by
    refine PidsOk.inherits ?_ (inherits_sysExit s₁ i 0)
    refine (pidsOk_empty c).setSlot (p := p) (c + 1) ⟨?_, hhi⟩ fun j q hj => nomatch hj
    show 1 ≤ c + 1
    omega
  have hwait := hok.nameable i _ hs₂ 0x7ffffff0 (by decide) (by decide) (by decide)
  have h₂ : ProcStep s₁ (.exit i 0) s₂ := by
    simp only [ProcStep, step, running, hs₁, Option.any_some]
    rfl
  have h₃ : ProcStep s₂ (.waitpid none (c + 1) 0x7ffffff0 wnohang) ⟨fun _ => none, c + 1⟩ := by
    simp only [ProcStep, step, running, if_true]
    refine (congrArg (Option.map Prod.snd) hwait).trans ?_
    simp only [Bool.true_eq_false, if_false, map_some, reap, destroyProcess, s₂, sysExit, modify,
      s₁, setSlot, update_idem]
    rw [show update (fun _ : Fin procMax => (none : Option Process)) i none = fun _ => none
      from update_eq_self i _]
  exact ⟨i, _, .cons h₁ (.cons h₂ (.cons h₃ (.nil _))), rfl⟩

theorem run_programs (n : Nat) (hn : (n : Int) < pidMax) :
    ∃ tr : List (Transition Procs Op), Run ProcStep boot tr ⟨fun _ => none, n⟩ ∧ tr.length = 3 * n := by
  induction n with
  | zero => exact ⟨[], .nil _, rfl⟩
  | succ n ih =>
    obtain ⟨tr, hrun, hlen⟩ := ih (by omega)
    obtain ⟨i, tr', hrun', hlabels⟩ := run_program (c := n) (by omega) (by omega)
    have hlen' : tr'.length = 3 := by simpa using congrArg length hlabels
    refine ⟨tr ++ tr', ?_, ?_⟩
    · rw [Nat.cast_succ]
      exact hrun.append hrun'
    · rw [length_append]
      omega

theorem fork_exhausted :
    ProcStep ⟨fun _ => none, 32766⟩ (.fork none forkOk) ⟨fun _ => none, 32767⟩ := rfl

/-- 起動から一つの program を走らせて待つ列では、pid はいつも一意で名指しできる。 -/
theorem pids_exact_iff_one_program :
    ∃ i tr u, Run ProcStep boot tr u ∧ tr.map (fun x => x.label) =
        [.fork none forkOk, .exit i 0, .waitpid none 1 0x7ffffff0 wnohang] ∧
      ∀ x ∈ tr, PidsOk x.post ∧ Nameable x.post ∧ ForkClean x.pre x.label := by
  obtain ⟨i, tr, hrun, hlabels⟩ := run_program (c := 0) le_rfl (by decide)
  have hforks : (tr.map fun x => x.label.forks).sum = 1 := by
    rw [show (tr.map fun x => x.label.forks) = (tr.map fun x => x.label).map Op.forks by simp, hlabels]
    rfl
  obtain ⟨hiff, hfew⟩ := pids_exact_iff hrun
  exact ⟨i, tr, _, hrun, hlabels, hiff.mpr (hfew (by omega))⟩

/--
program を 32766 個走らせて待ち、次の fork が断られた後、もう一度 fork すると pid 32768 の process ができる。
-/
theorem fork_passes_pid_max :
    ∃ tr u i p, Run ProcStep boot tr u ∧ tr.length = 3 * 32766 + 2 ∧ u.processTable i = some p ∧
      p.pid = 32768 ∧ p.ppid = 0 ∧
      ∀ status options, u.sysWaitpid 0 32768 status options = some (.error .esrch, u) := by
  obtain ⟨tr, hrun, hlen⟩ := run_programs 32766 (by decide)
  obtain ⟨i, hlast⟩ := fork_empty (c := 32767) (by decide) (by decide)
  refine ⟨_, _, i, ⟨32767 + 1, 0, false, 0⟩, hrun.append (.cons fork_exhausted (.cons hlast (.nil _))),
    ?_, by simp [setSlot], by decide, rfl, fun status options => ?_⟩
  · rw [length_append, hlen]
    rfl
  · unfold sysWaitpid
    exact if_pos (.inr (by decide))

end Procs

end Os161
