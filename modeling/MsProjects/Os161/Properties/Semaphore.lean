import MsProjects.Infra.Run
import MsProjects.Os161.Properties.Wchan

/-! # semaphore の正しさ -/

namespace Os161

open Infra List Function Option

namespace Semaphore

variable {T : Type*}

/-! ## 不変量 -/

section Basic

variable [Fintype T] {s : Semaphore T}

/-- これから `sem_count` を調べる。 -/
def tests (pc : SemPc) : Nat := if pc = .p then 1 else 0

/-- `enough` が起こし忘れの無さを運ぶ。 -/
structure Inv (s : Semaphore T) : Prop where
  wchan : s.semWchan.OkAt s.pc .asleep .pSleep
  spin : ∀ u, s.semLock = some u ↔ s.pc u = .vWake
  nonneg : 0 ≤ s.semCount
  enough : ∀ u, s.pc u = .asleep ∨ s.pc u = .pSleep →
    s.semCount ≤ total tests s.pc + if s.semLock.isSome then 1 else 0

theorem Inv.not_vWake (h : Inv s) (hfree : s.semLock.isSome = false) (u : T) : s.pc u ≠ .vWake := by
  intro hu
  rw [(h.spin u).mpr hu] at hfree
  cases hfree

theorem inv_create {n : Int} (hn : 0 ≤ n) : Inv (create n : Semaphore T) where
  wchan := Wchan.ok_create (fun _ => by simp [create]) (fun _ => by simp [create])
  spin u := by simp [create]
  nonneg := hn
  enough u hu := by simp [create] at hu

end Basic

variable [DecidableEq T]

/-! ## step の場合分け -/

/-- 一つの step ができること。 -/
inductive Step : Semaphore T → Op T → Semaphore T → Prop where
  | callP {s : Semaphore T} {t : T} : s.pc t = .out → Step s (.callP t) (s.setPc t .p)
  | callV {s : Semaphore T} {t : T} : s.pc t = .out → Step s (.callV t) (s.setPc t .v)
  | block {s : Semaphore T} {t : T} {wc : Wchan T} : s.pc t = .p → s.semLock.isSome = false →
      s.semCount = 0 → s.semWchan.lock t = some wc →
      Step s (.advance t) { s.setPc t .pSleep with semWchan := wc }
  | take {s : Semaphore T} {t : T} : s.pc t = .p → s.semLock.isSome = false → 0 < s.semCount →
      Step s (.advance t) { s.setPc t .out with semCount := s.semCount - 1 }
  | sleep {s : Semaphore T} {t : T} : s.pc t = .pSleep →
      Step s (.advance t) { s.setPc t .asleep with semWchan := s.semWchan.sleep t }
  | inc {s : Semaphore T} {t : T} : s.pc t = .v → s.semLock.isSome = false → 0 < s.semCount + 1 →
      Step s (.advance t) { s.setPc t .vWake with semCount := s.semCount + 1, semLock := some t }
  | wakeone {s : Semaphore T} {t : T} {x : Option T} {wc : Wchan T} : s.pc t = .vWake →
      s.semWchan.wakeone = some (x, wc) →
      Step s (.advance t) { s with
        semLock := none, semWchan := wc, pc := update (wake s.pc x .p) t .out }

theorem step_advance {s s' : Semaphore T} {t : T} (h : s.advance t = some s') :
    Step s (.advance t) s' := by
  unfold advance at h
  cases hpc : s.pc t with
  | out | asleep => simp [hpc] at h
  | p =>
    simp only [hpc, pTest] at h
    by_cases hlock : s.semLock.isSome = true
    · simp [hlock] at h
    rw [if_neg hlock] at h
    by_cases hzero : s.semCount = 0
    · rw [if_pos hzero, map_eq_some_iff] at h
      obtain ⟨wc, hwc, rfl⟩ := h
      exact .block hpc (Bool.eq_false_iff.mpr hlock) hzero hwc
    · rw [if_neg hzero, ite_none_right_eq_some] at h
      obtain ⟨hpos, h⟩ := h
      cases h
      exact .take hpc (Bool.eq_false_iff.mpr hlock) hpos
  | pSleep =>
    simp only [hpc, some.injEq] at h
    subst h
    exact .sleep hpc
  | v =>
    simp only [hpc, vInc] at h
    by_cases hlock : s.semLock.isSome = true
    · simp [hlock] at h
    rw [if_neg hlock, ite_none_left_eq_some, ite_none_right_eq_some] at h
    obtain ⟨-, hpos, h⟩ := h
    cases h
    exact .inc hpc (Bool.eq_false_iff.mpr hlock) hpos
  | vWake =>
    simp only [hpc, vWakeone, map_eq_some_iff] at h
    obtain ⟨⟨x, wc⟩, hwake, rfl⟩ := h
    exact .wakeone hpc hwake

def SemStep (s : Semaphore T) (op : Op T) (s' : Semaphore T) : Prop := s.step op = some s'

theorem step_cases {s s' : Semaphore T} {op : Op T} (h : SemStep s op s') : Step s op s' := by
  cases op with
  | callP t =>
    simp only [SemStep, step, ite_none_right_eq_some, some.injEq] at h
    obtain ⟨hpc, rfl⟩ := h
    exact .callP hpc
  | callV t =>
    simp only [SemStep, step, ite_none_right_eq_some, some.injEq] at h
    obtain ⟨hpc, rfl⟩ := h
    exact .callV hpc
  | advance t => exact step_advance h

/-! ## 数 -/

def Increments (x : Transition (Semaphore T) (Op T)) : Bool :=
  match x.label with
  | .advance t => x.pre.pc t = .v
  | _ => false

def Completes (x : Transition (Semaphore T) (Op T)) : Bool :=
  match x.label with
  | .advance t => x.pre.pc t = .p ∧ x.post.pc t = .out
  | _ => false

theorem semCount_step {s s' : Semaphore T} {op : Op T} (h : Step s op s') :
    s'.semCount = s.semCount + (if Increments ⟨s, op, s'⟩ then 1 else 0) -
      if Completes ⟨s, op, s'⟩ then 1 else 0 := by
  cases h <;> simp_all [Increments, Completes, setPc]

theorem semCount_eq {s u : Semaphore T} {tr : List (Transition (Semaphore T) (Op T))}
    (hrun : Run SemStep s tr u) :
    u.semCount = s.semCount + tr.countP Increments - tr.countP Completes := by
  induction hrun with
  | nil => simp
  | cons hstep _ ih =>
    rw [ih, semCount_step (step_cases hstep), countP_cons, countP_cons]
    push_cast
    omega

/-! ## step が不変量を保つこと -/

section Invariant

variable [Fintype T] {s s' : Semaphore T} {t : T}

theorem Inv.call {x : SemPc} (h : Inv s) (hpc : s.pc t = .out) (hx : x = .p ∨ x = .v) :
    Inv (s.setPc t x) := by
  have hnew : x ≠ .asleep ∧ x ≠ .pSleep ∧ x ≠ .vWake := by rcases hx with rfl | rfl <;> simp
  refine ⟨h.wchan.move (by simp [hpc]) ⟨hnew.1, hnew.2.1⟩,
    fun u => (h.spin u).trans (update_eq_iff (by simp [hpc]) hnew.2.2 u).symm, h.nonneg, fun u hu => ?_⟩
  have hle := h.enough u ((update_eq_or_iff (by simp [hpc]) ⟨hnew.1, hnew.2.1⟩ u).mp hu)
  have htotal := total_update tests s.pc t x
  simp only [hpc, tests, reduceCtorEq, if_false] at htotal
  show s.semCount ≤ total tests (update s.pc t x) + if s.semLock.isSome then 1 else 0
  omega

theorem Inv.block {wc : Wchan T} (h : Inv s) (hpc : s.pc t = .p) (hzero : s.semCount = 0)
    (hwc : s.semWchan.lock t = some wc) : Inv { s.setPc t .pSleep with semWchan := wc } where
  wchan := h.wchan.lockAt hwc (by simp [hpc]) (by simp)
  spin u := (h.spin u).trans (update_eq_iff (by rw [hpc]; simp) (by simp) u).symm
  nonneg := h.nonneg
  enough u _ := by
    show s.semCount ≤ _
    omega

theorem Inv.take (h : Inv s) (hpc : s.pc t = .p) (hpos : 0 < s.semCount) :
    Inv { s.setPc t .out with semCount := s.semCount - 1 } := by
  refine ⟨h.wchan.move (by simp [hpc]) (by simp),
    fun u => (h.spin u).trans (update_eq_iff (by rw [hpc]; simp) (by simp) u).symm,
    Int.le_sub_one_of_lt hpos, fun u hu => ?_⟩
  have hle := h.enough u ((update_eq_or_iff (by simp [hpc]) (by simp) u).mp hu)
  have htotal := total_update tests s.pc t .out
  simp only [hpc, tests, if_true, reduceCtorEq, if_false] at htotal
  show s.semCount - 1 ≤ total tests (update s.pc t .out) + if s.semLock.isSome then 1 else 0
  omega

theorem Inv.sleep (h : Inv s) (hpc : s.pc t = .pSleep) :
    Inv { s.setPc t .asleep with semWchan := s.semWchan.sleep t } where
  wchan := h.wchan.sleepAt hpc (by simp)
  spin u := (h.spin u).trans (update_eq_iff (by rw [hpc]; simp) (by simp) u).symm
  nonneg := h.nonneg
  enough u _ := by
    have hle := h.enough t (.inr hpc)
    have htotal := total_update tests s.pc t .asleep
    simp only [hpc, tests, reduceCtorEq, if_false] at htotal
    show s.semCount ≤ total tests (update s.pc t .asleep) + if s.semLock.isSome then 1 else 0
    omega

theorem Inv.inc (h : Inv s) (hpc : s.pc t = .v) (hfree : s.semLock.isSome = false) :
    Inv { s.setPc t .vWake with semCount := s.semCount + 1, semLock := some t } := by
  refine ⟨h.wchan.move (by simp [hpc]) (by simp), fun u => ?_, ?_, fun u hu => ?_⟩
  · rw [show (s.setPc t .vWake).pc u = .vWake ↔ s.pc u = .vWake ∨ u = t from update_eq_iff_or u,
      or_iff_right (h.not_vWake hfree u), some.injEq]
    exact eq_comm
  · have := h.nonneg
    show 0 ≤ s.semCount + 1
    omega
  · have hle := h.enough u ((update_eq_or_iff (by simp [hpc]) (by simp) u).mp hu)
    have htotal := total_update tests s.pc t .vWake
    simp only [hpc, tests, reduceCtorEq, if_false] at htotal
    simp only [hfree, Bool.false_eq_true, if_false] at hle
    show s.semCount + 1 ≤ total tests (update s.pc t .vWake) + 1
    omega

theorem Inv.wakeone {x : Option T} {wc : Wchan T} (h : Inv s) (hpc : s.pc t = .vWake)
    (hwake : s.semWchan.wakeone = some (x, wc)) :
    Inv { s with semLock := none, semWchan := wc, pc := update (wake s.pc x .p) t .out } := by
  have hxt := h.wchan.woken_ne hwake (t := t) (by simp [hpc])
  have hmid : wake s.pc x .p t = .vWake := by rw [wake_of_ne hxt, hpc]
  refine ⟨h.wchan.wakeoneAt hwake (by simp [hpc]) (by simp) (by simp), fun u => ?_, h.nonneg,
    fun u hu => ?_⟩
  · simp only [reduceCtorEq, false_iff]
    exact update_wake_ne h.spin hpc (by simp) (by simp) u
  · have hu' := h.wchan.asleep_of_update_wake hwake (by simp [hpc]) (by simp) (by simp) hu
    have hle := h.enough u (.inl hu')
    rw [(h.spin t).mpr hpc] at hle
    have htotal := total_update tests (wake s.pc x .p) t .out
    rw [hmid] at htotal
    cases x with
    | none => exact absurd hu' (h.wchan.not_asleep_of_wakeone hwake u)
    | some v =>
      have hv : s.pc v = .asleep := h.wchan.asleep_of_wakeone hwake
      have hwoken := total_update tests s.pc v .p
      simp only [hv, tests, reduceCtorEq, if_false, if_true] at hwoken
      simp only [wake, tests, reduceCtorEq, if_false] at htotal
      simp only [isSome_some, if_true] at hle
      show s.semCount ≤ total tests (update (update s.pc v .p) t .out) + 0
      omega

theorem Inv.step {op : Op T} (h : Inv s) (hstep : SemStep s op s') : Inv s' := by
  cases step_cases hstep with
  | callP hpc => exact h.call hpc (.inl rfl)
  | callV hpc => exact h.call hpc (.inr rfl)
  | block hpc _ hzero hwc => exact h.block hpc hzero hwc
  | take hpc _ hpos => exact h.take hpc hpos
  | sleep hpc => exact h.sleep hpc
  | inc hpc hfree _ => exact h.inc hpc hfree
  | wakeone hpc hwake => exact h.wakeone hpc hwake

/-! ## 起動からの列 -/

def NoLostWakeup (s : Semaphore T) : Prop :=
  (∀ u, s.pc u ≠ .vWake) → (∃ u, s.pc u = .asleep) →
    s.semCount ≤ total tests s.pc ∧
    (0 < s.semCount → ∃ u s', s.pc u = .p ∧ s.step (.advance u) = some s' ∧ s'.pc u = .out)

theorem Inv.noLostWakeup (h : Inv s) : NoLostWakeup s := by
  rintro hno ⟨u, hu⟩
  have hfree : s.semLock.isSome = false := by
    cases hlock : s.semLock with
    | none => rfl
    | some v => exact absurd ((h.spin v).mp hlock) (hno v)
  have hle := h.enough u (.inl hu)
  simp only [hfree, Bool.false_eq_true, if_false] at hle
  refine ⟨by omega, fun hpos => ?_⟩
  obtain ⟨v, hv⟩ := exists_of_total_pos (w := tests) (f := s.pc) (by omega)
  have hvp : s.pc v = .p := by
    by_contra hne
    simp [tests, hne] at hv
  refine ⟨v, { s.setPc v .out with semCount := s.semCount - 1 }, hvp, ?_, ?_⟩
  · simp only [Semaphore.step, advance, hvp, pTest, hfree, Bool.false_eq_true, if_false]
    rw [if_neg (by omega), if_pos hpos]
  · simp [setPc]

/-- 加算を終えた `V` は、眠る手前の thread を高々一つ待って進み、眠る列の先頭を起こす。 -/
def WakesHead (s : Semaphore T) : Prop :=
  ∀ t, s.pc t = .vWake →
    (∃ s₁ s₂, (s₁ = s ∨ ∃ u, s.pc u = .pSleep ∧ s.step (.advance u) = some s₁) ∧
      s₁.step (.advance t) = some s₂) ∧
    ∀ s', s.step (.advance t) = some s' → s'.pc t = .out ∧
      ((∃ u, s.pc u = .asleep) →
        ∃ w, s.semWchan.wcThreads.head? = some w ∧ s.pc w = .asleep ∧ s'.pc w = .p)

omit [Fintype T] in
theorem exists_wakeone (hpc : s.pc t = .vWake) (hfree : s.semWchan.wcLock = none) :
    ∃ s', s.step (.advance t) = some s' := by
  simp [Semaphore.step, advance, hpc, vWakeone, Wchan.wakeone, hfree]

theorem Inv.wakesHead (h : Inv s) : WakesHead s := by
  refine fun t hpc => ⟨?_, fun s' hstep => ?_⟩
  · cases hlock : s.semWchan.wcLock with
    | none =>
      obtain ⟨s₂, hs₂⟩ := exists_wakeone hpc hlock
      exact ⟨s, s₂, .inl rfl, hs₂⟩
    | some u =>
      have hu : s.pc u = .pSleep := (h.wchan.lock u).mp hlock
      have htu : t ≠ u := by
        rintro rfl
        simp [hpc] at hu
      obtain ⟨s₂, hs₂⟩ := exists_wakeone (t := t)
        (s := { s.setPc u .asleep with semWchan := s.semWchan.sleep u })
        ((update_of_ne htu _ _).trans hpc) rfl
      exact ⟨_, s₂, .inr ⟨u, hu, by simp [Semaphore.step, advance, hu]⟩, hs₂⟩
  · cases step_cases hstep with
    | block hp | take hp | sleep hp | inc hp => simp [hpc] at hp
    | @wakeone _ x _ _ hwake =>
      refine ⟨update_self _ _ _, ?_⟩
      rintro ⟨u, hu⟩
      cases x with
      | none => exact absurd hu (h.wchan.not_asleep_of_wakeone hwake u)
      | some w =>
        have hw : s.pc w = .asleep := h.wchan.asleep_of_wakeone hwake
        have hwt : w ≠ t := fun hwt => by simp [hwt, hpc] at hw
        exact ⟨w, (Wchan.wakeone_eq_some hwake).2.1.symm, hw, (update_of_ne hwt _ _).trans (wake_self w)⟩

/--
**`sem_create` からのどの列の後でも、`sem_count` は初期値と `V` の加算と済んだ `P` の差で、
負でなく、起こし忘れは無く、加算を終えた `V` は眠る thread を起こす。**
-/
theorem sem_exact {n : Int} (hn : 0 ≤ n) {tr : List (Transition (Semaphore T) (Op T))}
    {u : Semaphore T} (hrun : Run SemStep (create n) tr u) :
    u.semCount = n + tr.countP Increments - tr.countP Completes ∧ 0 ≤ u.semCount ∧
      NoLostWakeup u ∧ WakesHead u := by
  have hinv : Inv u := (hrun.invariant' (fun hp hq => hp.step hq) (inv_create hn)).1
  exact ⟨semCount_eq hrun, hinv.nonneg, hinv.noLostWakeup, hinv.wakesHead⟩

/-- 0 と 1 が眠り、2 の `V` が先頭の 0 を起こす。 -/
theorem sem_exact_woken :
    ∃ tr u, Run SemStep (create 0 : Semaphore (Fin 3)) tr u ∧ tr.map (fun x => x.label) =
        [.callP 0, .advance 0, .advance 0, .callP 1, .advance 1, .callV 2, .advance 2, .advance 1,
          .advance 2] ∧
      u.semCount = 1 ∧ u.pc 0 = .p ∧ u.pc 1 = .asleep ∧
      u.semCount = 0 + tr.countP Increments - tr.countP Completes ∧ 0 ≤ u.semCount ∧
      NoLostWakeup u ∧ WakesHead u := by
  obtain ⟨u, hu⟩ : ∃ u, [Op.callP 0, .advance 0, .advance 0, .callP 1, .advance 1, .callV 2,
      .advance 2, .advance 1, .advance 2].foldlM step (create 0 : Semaphore (Fin 3)) = some u := ⟨_, rfl⟩
  obtain ⟨hrun, hlabels⟩ := Run.of_foldlM hu
  have hstate : u.semCount = 1 ∧ u.pc 0 = .p ∧ u.pc 1 = .asleep := by
    cases hu
    exact ⟨rfl, rfl, rfl⟩
  exact ⟨_, u, hrun, hlabels, hstate.1, hstate.2.1, hstate.2.2, sem_exact le_rfl hrun⟩

end Invariant

end Semaphore

end Os161
