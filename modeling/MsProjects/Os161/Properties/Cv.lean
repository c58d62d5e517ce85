import MsProjects.Infra.Run
import MsProjects.Os161.Properties.Wchan
import MsProjects.Os161.Thread.Cv

/-! # condition variable の合図 -/

namespace Os161

open Infra List Function Option

namespace Cv

variable {T : Type*} {s s' : Cv T} {t w : T}

/-! ## 不変量 -/

/-- `cv_spinlock` は、`lock_release` を呼んでから `wchan_lock` が済むまで持つ。 -/
structure Inv (s : Cv T) : Prop where
  wchan : s.cvWchan.OkAt s.pc .asleep .waitSleep
  spin : ∀ u, s.cvSpinlock = some u ↔ s.pc u = .waitRelease ∨ s.pc u = .waitWchan

theorem inv_create : Inv (create : Cv T) where
  wchan := Wchan.ok_create (fun _ => by simp [create]) (fun _ => by simp [create])
  spin u := by simp [create]

theorem Inv.holder_eq (h : Inv s) {u : T} (ht : s.pc t = .waitRelease ∨ s.pc t = .waitWchan)
    (hu : s.pc u = .waitRelease ∨ s.pc u = .waitWchan) : u = t :=
  some.inj (((h.spin u).mpr hu).symm.trans ((h.spin t).mpr ht))

theorem idle_eq_true (h : s.idle t = true) : s.pc t = .out := (decide_eq_true_eq.mp h).1

variable [DecidableEq T]

/-! ## step の場合分け -/

/-- 一つの step ができること。 -/
inductive Step : Cv T → Op T → Cv T → Prop where
  | lock {s : Cv T} {op : Lock.Op T} (l : Lock T) : Step s (.lock op) { s with lock := l }
  | wait {s : Cv T} {t : T} : s.pc t = .out → Step s (.wait t) (s.setPc t .waitSpin)
  | signal {s : Cv T} {t : T} : s.pc t = .out → Step s (.signal t) (s.setPc t .signal)
  | broadcast {s : Cv T} {t : T} : s.pc t = .out → Step s (.broadcast t) (s.setPc t .broadcast)
  | spin {s : Cv T} {t : T} (l : Lock T) : s.pc t = .waitSpin → s.cvSpinlock.isSome = false →
      Step s (.advance t) { s.setPc t .waitRelease with cvSpinlock := some t, lock := l }
  | inner {s : Cv T} {t : T} (l : Lock T) : s.pc t = .waitRelease ∨ s.pc t = .waitAcquire →
      Step s (.advance t) { s with lock := l }
  | released {s : Cv T} {t : T} (l : Lock T) : s.pc t = .waitRelease →
      Step s (.advance t) { s.setPc t .waitWchan with lock := l }
  | lockWchan {s : Cv T} {t : T} {wc : Wchan T} : s.pc t = .waitWchan → s.cvWchan.lock t = some wc →
      Step s (.advance t) { s.setPc t .waitSleep with cvWchan := wc, cvSpinlock := none }
  | sleep {s : Cv T} {t : T} : s.pc t = .waitSleep →
      Step s (.advance t) { s.setPc t .asleep with cvWchan := s.cvWchan.sleep t }
  | acquired {s : Cv T} {t : T} (l : Lock T) : s.pc t = .waitAcquire →
      Step s (.advance t) { s.setPc t .out with lock := l }
  | wakeone {s : Cv T} {t : T} {x : Option T} {wc : Wchan T} : s.pc t = .signal →
      s.cvWchan.wakeone = some (x, wc) →
      Step s (.advance t) { (s.wakeAll x.toList).setPc t .out with cvWchan := wc }
  | wakeall {s : Cv T} {t : T} {targets : List T} {wc : Wchan T} : s.pc t = .broadcast →
      s.cvWchan.wakeall = some (targets, wc) →
      Step s (.advance t) { (s.wakeAll targets).setPc t .out with cvWchan := wc }

theorem advanceLock_cases {x : CvPc} (h : s.advanceLock t x = some s') :
    ∃ l, s' = { s with lock := l } ∨ s' = { s.setPc t x with lock := l } := by
  simp only [advanceLock, map_eq_some_iff] at h
  obtain ⟨l, -, rfl⟩ := h
  refine ⟨l, ?_⟩
  split
  · exact .inr rfl
  · exact .inl rfl

theorem step_advance (h : s.advance t = some s') : Step s (.advance t) s' := by
  unfold advance at h
  cases hpc : s.pc t with
  | out | asleep => simp [hpc] at h
  | waitSpin =>
    simp only [hpc, ite_none_left_eq_some, some.injEq] at h
    obtain ⟨hfree, rfl⟩ := h
    exact .spin _ hpc (Bool.eq_false_iff.mpr hfree)
  | waitRelease =>
    simp only [hpc] at h
    obtain ⟨l, rfl | rfl⟩ := advanceLock_cases h
    · exact .inner l (.inl hpc)
    · exact .released l hpc
  | waitWchan =>
    simp only [hpc, map_eq_some_iff] at h
    obtain ⟨wc, hwc, rfl⟩ := h
    exact .lockWchan hpc hwc
  | waitSleep =>
    simp only [hpc, some.injEq] at h
    subst h
    exact .sleep hpc
  | waitAcquire =>
    simp only [hpc] at h
    obtain ⟨l, rfl | rfl⟩ := advanceLock_cases h
    · exact .inner l (.inr hpc)
    · exact .acquired l hpc
  | signal =>
    simp only [hpc, map_eq_some_iff] at h
    obtain ⟨⟨x, wc⟩, hwake, rfl⟩ := h
    exact .wakeone hpc hwake
  | broadcast =>
    simp only [hpc, map_eq_some_iff] at h
    obtain ⟨⟨targets, wc⟩, hwake, rfl⟩ := h
    exact .wakeall hpc hwake

def CvStep (s : Cv T) (op : Op T) (s' : Cv T) : Prop := s.step op = some s'

theorem step_cases {op : Op T} (h : CvStep s op s') : Step s op s' := by
  cases op with
  | lock op =>
    simp only [CvStep, step, ite_none_right_eq_some, map_eq_some_iff] at h
    obtain ⟨-, l, -, rfl⟩ := h
    exact .lock l
  | wait t =>
    simp only [CvStep, step, ite_none_right_eq_some, some.injEq] at h
    obtain ⟨hidle, rfl⟩ := h
    exact .wait (idle_eq_true hidle)
  | signal t =>
    simp only [CvStep, step, ite_none_right_eq_some, some.injEq] at h
    obtain ⟨hidle, rfl⟩ := h
    exact .signal (idle_eq_true hidle)
  | broadcast t =>
    simp only [CvStep, step, ite_none_right_eq_some, some.injEq] at h
    obtain ⟨hidle, rfl⟩ := h
    exact .broadcast (idle_eq_true hidle)
  | advance t => exact step_advance h

/-! ## step が不変量を保つこと -/

theorem Inv.move {x : CvPc} (h : Inv s)
    (hold : s.pc t ∉ [CvPc.asleep, .waitSleep, .waitRelease, .waitWchan])
    (hnew : x ∉ [CvPc.asleep, .waitSleep, .waitRelease, .waitWchan]) (l : Lock T) :
    Inv { s.setPc t x with lock := l } := by
  simp only [mem_cons, not_mem_nil, or_false, not_or] at hold hnew
  obtain ⟨hasleep, hlocking, hrelease, hwchan⟩ := hold
  refine ⟨h.wchan.move ⟨hasleep, hlocking⟩ ⟨hnew.1, hnew.2.1⟩, fun u => ?_⟩
  show s.cvSpinlock = some u ↔ update s.pc t x u = _ ∨ update s.pc t x u = _
  rw [update_eq_or_iff ⟨hrelease, hwchan⟩ hnew.2.2]
  exact h.spin u

theorem wakeAll_toList_pc (s : Cv T) (x : Option T) :
    (s.wakeAll x.toList).pc = wake s.pc x .waitAcquire := by
  funext u
  cases x with
  | none => simp [wakeAll, wake]
  | some v => simp [wakeAll, wake, update_apply]

theorem Inv.wakeone {x : Option T} {wc : Wchan T} (h : Inv s) (hpc : s.pc t = .signal)
    (hwake : s.cvWchan.wakeone = some (x, wc)) :
    Inv { (s.wakeAll x.toList).setPc t .out with cvWchan := wc } := by
  have hpc' : ((s.wakeAll x.toList).setPc t .out).pc =
      update (wake s.pc x .waitAcquire) t .out := by
    rw [← wakeAll_toList_pc]
    rfl
  have hxt := h.wchan.woken_ne hwake (t := t) (by simp [hpc])
  refine ⟨?_, fun u => ?_⟩
  · show wc.OkAt ((s.wakeAll x.toList).setPc t .out).pc _ _
    rw [hpc']
    exact h.wchan.wakeoneAt hwake (by simp [hpc]) (by simp) (by simp)
  · show s.cvSpinlock = some u ↔ ((s.wakeAll x.toList).setPc t .out).pc u = _ ∨
      ((s.wakeAll x.toList).setPc t .out).pc u = _
    rw [hpc', update_wake_eq_iff hxt (by simp [hpc]) (by simp) (by simp),
      update_wake_eq_iff hxt (by simp [hpc]) (by simp) (by simp), h.spin u, ← or_and_right]
    refine (and_iff_left_of_imp fun hu hxu => ?_).symm
    subst hxu
    have := h.wchan.asleep_of_wakeone hwake
    simp [this] at hu

theorem Inv.wakeall_pc (h : Inv s) (t u : T) :
    ((s.wakeAll s.cvWchan.wcThreads).setPc t .out).pc u =
      if u = t then .out else if s.pc u = .asleep then .waitAcquire else s.pc u := by
  simp only [setPc, wakeAll, update_apply, h.wchan.mem u]

theorem Inv.wakeall {targets : List T} {wc : Wchan T} (h : Inv s) (hpc : s.pc t = .broadcast)
    (hwake : s.cvWchan.wakeall = some (targets, wc)) :
    Inv { (s.wakeAll targets).setPc t .out with cvWchan := wc } := by
  obtain ⟨hfree, rfl, rfl⟩ := Wchan.wakeall_eq_some hwake
  have hlocking := h.wchan.not_locking hfree
  refine ⟨⟨fun u => ?_, nodup_nil, fun u => ?_⟩, fun u => ?_⟩
  · simp only [h.wakeall_pc]
    split <;> [simp; (split <;> simp_all)]
  · simp only [h.wakeall_pc, h.wchan.lock u]
    split <;> [simp_all; (split <;> simp_all)]
  · show s.cvSpinlock = some u ↔ _
    simp only [h.wakeall_pc, h.spin u]
    split <;> [simp_all; (split <;> simp_all)]

theorem Inv.step {op : Op T} (h : Inv s) (hstep : CvStep s op s') : Inv s' := by
  cases step_cases hstep with
  | lock l => exact ⟨h.wchan, h.spin⟩
  | wait hpc | signal hpc | broadcast hpc => exact h.move (by simp [hpc]) (by simp) s.lock
  | @spin t l hpc hfree =>
    have hnone : ∀ u, ¬ (s.pc u = .waitRelease ∨ s.pc u = .waitWchan) := by
      intro u hu
      rw [(h.spin u).mpr hu] at hfree
      cases hfree
    refine ⟨h.wchan.move (by simp [hpc]) (by simp), fun u => ?_⟩
    show some t = some u ↔ update s.pc t .waitRelease u = _ ∨ update s.pc t .waitRelease u = _
    rw [update_eq_iff_or, update_eq_iff (by simp [hpc]) (by simp), some.injEq]
    have := hnone u
    grind
  | inner l _ => exact ⟨h.wchan, h.spin⟩
  | @released t l hpc =>
    refine ⟨h.wchan.move (by simp [hpc]) (by simp), fun u => ?_⟩
    show s.cvSpinlock = some u ↔ update s.pc t .waitWchan u = _ ∨ update s.pc t .waitWchan u = _
    rw [update_eq_iff_and (by simp), update_eq_iff_or, h.spin u]
    have := h.holder_eq (u := u) (.inl hpc)
    grind
  | @lockWchan t wc hpc hwc =>
    refine ⟨h.wchan.lockAt hwc (by simp [hpc]) (by simp), fun u => ?_⟩
    show none = some u ↔ update s.pc t .waitSleep u = _ ∨ update s.pc t .waitSleep u = _
    rw [update_eq_iff_and (by simp), update_eq_iff_and (by simp)]
    have := h.holder_eq (u := u) (.inr hpc)
    grind
  | @sleep t hpc =>
    refine ⟨h.wchan.sleepAt hpc (by simp), fun u => ?_⟩
    show s.cvSpinlock = some u ↔ update s.pc t .asleep u = _ ∨ update s.pc t .asleep u = _
    rw [update_eq_or_iff (by simp [hpc]) (by simp)]
    exact h.spin u
  | acquired l hpc => exact h.move (by simp [hpc]) (by simp) l
  | wakeone hpc hwake => exact h.wakeone hpc hwake
  | wakeall hpc hwake => exact h.wakeall hpc hwake

/-! ## 合図 -/

/-- `w` が `cv_wait` の中で `owner_thread` を NULL にする遷移。 -/
def Releases (z : Transition (Cv T) (Op T)) (w : T) : Bool :=
  match z.label with
  | .advance t => t = w ∧ z.pre.pc w = .waitRelease ∧ z.pre.lock.pc w = .relClear
  | _ => false

def Acquires (z : Transition (Cv T) (Op T)) (t : T) : Bool :=
  z.pre.lock.ownerThread ≠ some t ∧ z.post.lock.ownerThread = some t

/-- `t` の `cv_signal` か `cv_broadcast` が列から取り出す遷移。 -/
def Signals (z : Transition (Cv T) (Op T)) (t : T) : Bool :=
  match z.label with
  | .advance u => u = t ∧ (z.pre.pc t = .signal ∨ z.pre.pc t = .broadcast)
  | _ => false

/-- `w` が `cv_wait` を呼ぶ遷移。 -/
def CallsWait (z : Transition (Cv T) (Op T)) (w : T) : Bool :=
  match z.label with
  | .wait t => t = w
  | _ => false

/-- `w` の今の `cv_wait` について遷移を読む。 -/
def track (w t : T) (acc : Option Bool) (z : Transition (Cv T) (Op T)) : Option Bool :=
  if CallsWait z w then none
  else if Releases z w then some false
  else if acc = some false ∧ Acquires z t then some true
  else acc

/-- `w` が `cv_wait` の中で lock を放した後に、`t` が lock を取った。 -/
def AcquiredAfter (tr : List (Transition (Cv T) (Op T))) (w t : T) : Prop :=
  tr.foldl (track w t) none = some true

/-- `cv_wait` の眠りから覚めている。 -/
def Woken (pc : CvPc) : Prop := pc = .waitAcquire ∨ pc = .out ∨ pc = .signal ∨ pc = .broadcast

def Found (z : Transition (Cv T) (Op T)) (t w : T) : Prop :=
  Woken (z.pre.pc w) ∨ w ∈ z.pre.cvWchan.wcThreads ∧
    if z.pre.pc t = .broadcast then z.post.pc w = .waitAcquire
    else ∃ v ∈ z.pre.cvWchan.wcThreads, z.post.pc v = .waitAcquire

theorem Step.signal_cases {op : Op T} (hstep : Step s op s') (hsignal : Signals ⟨s, op, s'⟩ t) :
    (s.pc t = .signal ∧ ∃ x wc, s.cvWchan.wakeone = some (x, wc) ∧
      s' = { (s.wakeAll x.toList).setPc t .out with cvWchan := wc }) ∨
    (s.pc t = .broadcast ∧ ∃ targets wc, s.cvWchan.wakeall = some (targets, wc) ∧
      s' = { (s.wakeAll targets).setPc t .out with cvWchan := wc }) := by
  cases op with
  | lock | wait | signal | broadcast => simp [Signals] at hsignal
  | advance u =>
    simp only [Signals, decide_eq_true_eq] at hsignal
    obtain ⟨rfl, hpc⟩ := hsignal
    cases hstep with
    | spin _ hpc' | released _ hpc' | lockWchan hpc' | sleep hpc' | acquired _ hpc' =>
      simp [hpc'] at hpc
    | inner _ hpc' => rcases hpc' with hpc' | hpc' <;> simp [hpc'] at hpc
    | wakeone hpc' hwake => exact .inl ⟨hpc', _, _, hwake, rfl⟩
    | wakeall hpc' hwake => exact .inr ⟨hpc', _, _, hwake, rfl⟩

theorem Inv.signal_wakes {op : Op T} (h : Inv s) (hstep : Step s op s')
    (hsignal : Signals ⟨s, op, s'⟩ t) (hw : w ∈ s.cvWchan.wcThreads) :
    if s.pc t = .broadcast then s'.pc w = .waitAcquire
    else ∃ v ∈ s.cvWchan.wcThreads, s'.pc v = .waitAcquire := by
  have hasleep := (h.wchan.mem w).mp hw
  rcases hstep.signal_cases hsignal with ⟨hpc, x, wc, hwake, rfl⟩ | ⟨hpc, targets, wc, hwake, rfl⟩
  · rw [if_neg (by simp [hpc])]
    cases x with
    | none => exact absurd hasleep (h.wchan.not_asleep_of_wakeone hwake w)
    | some v =>
      have hv := h.wchan.asleep_of_wakeone hwake
      have hvt : v ≠ t := fun hvt => by simp [hvt ▸ hv] at hpc
      refine ⟨v, (h.wchan.mem v).mpr hv, ?_⟩
      simp [setPc, wakeAll, hvt]
  · obtain ⟨-, rfl, -⟩ := Wchan.wakeall_eq_some hwake
    have hwt : w ≠ t := fun hwt => by simp [hwt ▸ hasleep] at hpc
    rw [if_pos hpc]
    show ((s.wakeAll s.cvWchan.wcThreads).setPc t .out).pc w = _
    rw [h.wakeall_pc, if_neg hwt, if_pos hasleep]

theorem Step.wchan_free {op : Op T} (hstep : Step s op s') (hsignal : Signals ⟨s, op, s'⟩ t) :
    s.cvWchan.wcLock.isSome = false := by
  rcases hstep.signal_cases hsignal with ⟨-, x, wc, hwake, -⟩ | ⟨-, targets, wc, hwake, -⟩
  · exact (Wchan.wakeone_eq_some hwake).1
  · exact (Wchan.wakeall_eq_some hwake).1

theorem Inv.found_iff {op : Op T} (h : Inv s) (hstep : Step s op s') (hsignal : Signals ⟨s, op, s'⟩ t)
    (hw : s.pc w ≠ .waitSpin) : Found ⟨s, op, s'⟩ t w ↔ s.cvSpinlock ≠ some w := by
  have hfree := h.wchan.not_locking (hstep.wchan_free hsignal) w
  rw [ne_eq, h.spin w]
  constructor
  · rintro (hwoken | ⟨hmem, -⟩)
    · rcases hwoken with hpc | hpc | hpc | hpc <;> simp only at hpc <;> simp [hpc]
    · have hasleep : s.pc w = .asleep := (h.wchan.mem w).mp hmem
      simp [hasleep]
  · intro hspin
    by_cases hasleep : s.pc w = .asleep
    · have hmem := (h.wchan.mem w).mpr hasleep
      exact .inr ⟨hmem, h.signal_wakes hstep hsignal hmem⟩
    · refine .inl ?_
      show Woken (s.pc w)
      cases hpc : s.pc w <;> simp_all [Woken]

theorem Step.waitSpin {op : Op T} (hstep : Step s op s') (hw : s'.pc w = .waitSpin) :
    s.pc w = .waitSpin ∨ CallsWait ⟨s, op, s'⟩ w = true := by
  have hupdate : ∀ {t : T} {x : CvPc}, x ≠ .waitSpin → update s.pc t x w = .waitSpin →
      s.pc w = .waitSpin := fun hx hu => ((update_eq_iff_and hx w).mp hu).1
  cases hstep with
  | lock _ | inner _ _ => exact .inl hw
  | wait _ =>
    rcases (update_eq_iff_or w).mp hw with hw | rfl
    · exact .inl hw
    · exact .inr (by simp [CallsWait])
  | signal _ | broadcast _ | spin _ _ _ | released _ _ | lockWchan _ _ | sleep _ | acquired _ _ =>
    exact .inl (hupdate (by simp) hw)
  | wakeone _ _ | wakeall _ _ =>
    have hw' := ((update_eq_iff_and (by simp) w).mp hw).1
    simp only [wakeAll] at hw'
    split at hw'
    · cases hw'
    · exact .inl hw'

theorem not_waitSpin_of_track {tr : List (Transition (Cv T) (Op T))} {u : Cv T} (t : T) (acc : Option Bool)
    (hrun : Run CvStep s tr u) (hacc : acc ≠ none → s.pc w ≠ .waitSpin)
    (htrack : tr.foldl (track w t) acc ≠ none) : u.pc w ≠ .waitSpin := by
  induction hrun generalizing acc with
  | nil => exact hacc htrack
  | @cons s s' u op tr hstep _ ih =>
    refine ih (track w t acc ⟨s, op, s'⟩) (fun hne hw => ?_) htrack
    simp only [track] at hne
    split at hne
    · exact hne rfl
    · rename_i hcall
      have hpre := ((step_cases hstep).waitSpin hw).resolve_right hcall
      split at hne
      · rename_i hrel
        cases op <;> simp [Releases, hpre] at hrel
      · split at hne
        · rename_i hsome
          exact hacc (by simp [hsome.1]) hpre
        · exact hacc hne hpre

/--
**どの列でも、合図が、自分が lock を取る前に lock を放した待つ thread をいつも見つけるのは、
合図のときにその thread が `cv_spinlock` をもう放しているとき、そのときに限る。**
-/
theorem signals_found_iff {tr : List (Transition (Cv T) (Op T))} {u : Cv T}
    (hrun : Run CvStep create tr u) :
    (∀ tr₁ z tr₂ t w, tr = tr₁ ++ z :: tr₂ → Signals z t → AcquiredAfter tr₁ w t → Found z t w) ↔
      ∀ tr₁ z tr₂ t w, tr = tr₁ ++ z :: tr₂ → Signals z t → AcquiredAfter tr₁ w t →
        z.pre.cvSpinlock ≠ some w := by
  have hiff : ∀ {tr₁ z tr₂ t w}, tr = tr₁ ++ z :: tr₂ → Signals z t → AcquiredAfter tr₁ w t →
      (Found z t w ↔ z.pre.cvSpinlock ≠ some w) := by
    rintro tr₁ z tr₂ t w rfl hsignal hafter
    obtain ⟨hbefore, hstep, -⟩ := hrun.split
    have hinv : Inv z.pre := (hbefore.invariant' (fun hp hq => hp.step hq) inv_create).1
    refine hinv.found_iff (step_cases hstep) hsignal
      (not_waitSpin_of_track t none hbefore (by simp) ?_)
    rw [hafter]
    simp
  constructor
  · intro h tr₁ z tr₂ t w htr hsignal hafter
    exact (hiff htr hsignal hafter).mp (h tr₁ z tr₂ t w htr hsignal hafter)
  · intro h tr₁ z tr₂ t w htr hsignal hafter
    exact (hiff htr hsignal hafter).mpr (h tr₁ z tr₂ t w htr hsignal hafter)

/-! ### 見つかる合図と失われる合図 -/

/-- 0 が lock を取り、`cv_wait` を呼んで lock を放すまで。 -/
def waitAndRelease : List (Op (Fin 2)) :=
  [.lock (.acquire 0), .lock (.advance 0), .lock (.advance 0), .wait 0, .advance 0, .advance 0, .advance 0,
    .advance 0]

/-- 1 が lock を取り、`cv_signal` を呼ぶまで。 -/
def acquireAndSignal : List (Op (Fin 2)) :=
  [.lock (.acquire 1), .lock (.advance 1), .lock (.advance 1), .signal 1]

/-- 0 が列に入ってから 1 が合図を出す。 -/
def sleepThenSignal : List (Op (Fin 2)) :=
  waitAndRelease ++ [.advance 0, .advance 0] ++ acquireAndSignal ++ [.advance 1]

/-- 0 が列に入ってから 1 が合図を出せば、0 は起こされる。 -/
theorem signals_found_after_sleep :
    ∃ tr u, Run CvStep (create : Cv (Fin 2)) tr u ∧ tr.map (fun x => x.label) = sleepThenSignal ∧
      u.pc 0 = .waitAcquire ∧
      ∀ tr₁ z tr₂ t w, tr = tr₁ ++ z :: tr₂ → Signals z t → AcquiredAfter tr₁ w t → Found z t w := by
  obtain ⟨u, hu⟩ : ∃ u, sleepThenSignal.foldlM step create = some u := ⟨_, rfl⟩
  obtain ⟨hrun, hlabels⟩ := Run.of_foldlM hu
  have hpc : u.pc 0 = .waitAcquire := by
    cases hu
    rfl
  have hfree : ∀ z ∈ Run.trace step create sleepThenSignal, ∀ t, Signals z t = true →
      z.pre.cvSpinlock = none := by
    decide
  refine ⟨_, u, hrun, hlabels, hpc, (signals_found_iff hrun).mpr ?_⟩
  intro tr₁ z tr₂ t w htr hsignal _
  rw [hfree z (by rw [htr]; simp) t hsignal]
  simp

/-- 0 が lock を放して `wc_lock` を取る前に 1 が合図を出すときの、合図の直前の状態。 -/
def beforeLost : Cv (Fin 2) := ((waitAndRelease ++ acquireAndSignal).foldlM step create).get rfl

/-- 0 が `cv_wait` で lock を放し、1 が lock を取って `cv_signal` を呼ぶ。 -/
theorem signal_lost :
    ∃ tr₁ z tr₂ u, Run CvStep (create : Cv (Fin 2)) (tr₁ ++ z :: tr₂) u ∧ Signals z 1 ∧
      AcquiredAfter tr₁ 0 1 ∧ ¬ Found z 1 0 ∧ u.pc 0 = .asleep ∧ u.cvWchan.wcThreads = [0] := by
  have hfold : (waitAndRelease ++ acquireAndSignal).foldlM step create = some beforeLost := rfl
  have hbefore := (Run.of_foldlM hfold).1
  obtain ⟨u, hu⟩ : ∃ u, [Op.advance 1, .advance 0, .advance 0].foldlM step beforeLost = some u :=
    ⟨_, rfl⟩
  have hafter := (Run.of_foldlM hu).1
  have hend : u.pc 0 = .asleep ∧ u.cvWchan.wcThreads = [0] := by
    cases hu
    exact ⟨rfl, rfl⟩
  refine ⟨_, _, _, u, hbefore.append hafter, rfl, rfl, ?_, hend.1, hend.2⟩
  have hpc : beforeLost.pc 0 = .waitWchan := rfl
  have hempty : beforeLost.cvWchan.wcThreads = [] := rfl
  rintro (hwoken | ⟨hmem, -⟩)
  · simp [Woken, hpc] at hwoken
  · simp [hempty] at hmem

end Cv

end Os161
