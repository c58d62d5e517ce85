import MsProjects.Infra.Run
import MsProjects.Os161.Properties.Wchan

/-! # lock の正しさ -/

namespace Os161

open Infra List Function Option

namespace Lock

variable {T : Type*} {s s' : Lock T} {t : T}

/-! ## 不変量 -/

def releasing (pc : LockPc) : Prop := pc = .relCheck ∨ pc = .relClear ∨ pc = .relWake

/-- 一つの thread の位置と所持が `owner_thread` と合っている。 -/
structure Fits (o : Option T) (u : T) (pc : LockPc) (b : Bool) : Prop where
  held : b = true → o = some u
  released : releasing pc → b = false
  clear : pc = .relClear → o = some u
  wake : pc = .relWake → o = none
  owner : o = some u → b = true ∨ pc = .relCheck ∨ pc = .relClear

/-- どの thread も `owner_thread` と合っている。 -/
def Owned (s : Lock T) : Prop := ∀ u, Fits s.ownerThread u (s.pc u) (s.held u)

/-- `waiters` が起こし忘れの無さを運ぶ。 -/
structure Inv (s : Lock T) : Prop where
  wchan : s.lkWchan.OkAt s.pc .asleep .acqSleep
  spin : ∀ u, s.lkSpinlock = some u ↔ s.pc u = .relWake
  owned : Owned s
  waiters : s.ownerThread = none → s.lkSpinlock.isSome = false →
    ∀ u, s.pc u = .asleep ∨ s.pc u = .acqSleep → ∃ v, s.pc v = .acqTest

theorem inv_create : Inv (create : Lock T) where
  wchan := Wchan.ok_create (fun _ => by simp [create]) (fun _ => by simp [create])
  spin u := by simp [create]
  owned u := by constructor <;> simp [create, releasing]
  waiters _ _ u hu := by simp [create] at hu

theorem Inv.not_relWake (h : Inv s) (hfree : s.lkSpinlock.isSome = false) (u : T) :
    s.pc u ≠ .relWake := by
  intro hu
  rw [(h.spin u).mpr hu] at hfree
  cases hfree

variable [DecidableEq T]

/-! ## step の場合分け -/

/-- 一つの step ができること。 -/
inductive Step : Lock T → Op T → Lock T → Prop where
  | acquire {s : Lock T} {t : T} : s.pc t = .out → Step s (.acquire t) (s.callAcquire t)
  | release {s : Lock T} {t : T} : s.pc t = .out → Step s (.release t) (s.callRelease t)
  | again {s : Lock T} {t : T} : s.pc t = .acqCheck → s.ownerThread = some t →
      Step s (.advance t) (s.returnAcquire t)
  | check {s : Lock T} {t : T} : s.pc t = .acqCheck → s.ownerThread ≠ some t →
      Step s (.advance t) (s.setPc t .acqTest)
  | block {s : Lock T} {t : T} {wc : Wchan T} : s.pc t = .acqTest → s.lkSpinlock.isSome = false →
      s.ownerThread.isSome = true → s.lkWchan.lock t = some wc →
      Step s (.advance t) { s.setPc t .acqSleep with lkWchan := wc }
  | take {s : Lock T} {t : T} : s.pc t = .acqTest → s.lkSpinlock.isSome = false →
      s.ownerThread = none → Step s (.advance t) { s.returnAcquire t with ownerThread := some t }
  | sleep {s : Lock T} {t : T} : s.pc t = .acqSleep →
      Step s (.advance t) { s.setPc t .asleep with lkWchan := s.lkWchan.sleep t }
  | own {s : Lock T} {t : T} : s.pc t = .relCheck → s.ownerThread = some t →
      Step s (.advance t) (s.setPc t .relClear)
  | other {s : Lock T} {t : T} : s.pc t = .relCheck → s.ownerThread ≠ some t →
      Step s (.advance t) (s.setPc t .out)
  | clear {s : Lock T} {t : T} : s.pc t = .relClear → s.lkSpinlock.isSome = false →
      Step s (.advance t) { s.setPc t .relWake with lkSpinlock := some t, ownerThread := none }
  | wakeone {s : Lock T} {t : T} {x : Option T} {wc : Wchan T} : s.pc t = .relWake →
      s.lkWchan.wakeone = some (x, wc) →
      Step s (.advance t) { s with
        lkSpinlock := none, lkWchan := wc, pc := update (wake s.pc x .acqTest) t .out }

theorem step_advance (h : s.advance t = some s') : Step s (.advance t) s' := by
  unfold advance at h
  cases hpc : s.pc t with
  | out | asleep => simp [hpc] at h
  | acqCheck =>
    simp only [hpc, some.injEq] at h
    subst h
    split
    · rename_i hown
      exact .again hpc hown
    · rename_i hown
      exact .check hpc hown
  | acqTest =>
    simp only [hpc, acqTest] at h
    by_cases hlock : s.lkSpinlock.isSome = true
    · simp [hlock] at h
    rw [if_neg hlock] at h
    by_cases hown : s.ownerThread.isSome = true
    · rw [if_pos hown, map_eq_some_iff] at h
      obtain ⟨wc, hwc, rfl⟩ := h
      exact .block hpc (Bool.eq_false_iff.mpr hlock) hown hwc
    · rw [if_neg hown, some.injEq] at h
      subst h
      exact .take hpc (Bool.eq_false_iff.mpr hlock) (by simpa using hown)
  | acqSleep =>
    simp only [hpc, some.injEq] at h
    subst h
    exact .sleep hpc
  | relCheck =>
    simp only [hpc, some.injEq] at h
    subst h
    split
    · rename_i hown
      exact .own hpc hown
    · rename_i hown
      exact .other hpc hown
  | relClear =>
    simp only [hpc, ite_none_left_eq_some, some.injEq] at h
    obtain ⟨hlock, rfl⟩ := h
    exact .clear hpc (Bool.eq_false_iff.mpr hlock)
  | relWake =>
    simp only [hpc, relWakeone, map_eq_some_iff] at h
    obtain ⟨⟨x, wc⟩, hwake, rfl⟩ := h
    exact .wakeone hpc hwake

def LockStep (s : Lock T) (op : Op T) (s' : Lock T) : Prop := s.step op = some s'

theorem step_cases {op : Op T} (h : LockStep s op s') : Step s op s' := by
  cases op with
  | acquire t =>
    simp only [LockStep, step, ite_none_right_eq_some, some.injEq] at h
    obtain ⟨hpc, rfl⟩ := h
    exact .acquire hpc
  | release t =>
    simp only [LockStep, step, ite_none_right_eq_some, some.injEq] at h
    obtain ⟨hpc, rfl⟩ := h
    exact .release hpc
  | advance t => exact step_advance h

/-! ## 所持 -/

section Owner

omit [DecidableEq T]

variable {owner : Option T} {u : T} {pc x : LockPc} {b : Bool}

theorem Fits.outside (h : Fits owner u pc b) (hpc : ¬ releasing pc) (hx : ¬ releasing x) :
    Fits owner u x b where
  held := h.held
  released hr := absurd hr hx
  clear hc := absurd (.inr (.inl hc)) hx
  wake hw := absurd (.inr (.inr hw)) hx
  owner ho := by
    rcases h.owner ho with hb | hc | hc
    · exact .inl hb
    · exact absurd (.inl hc) hpc
    · exact absurd (.inr (.inl hc)) hpc

theorem fits_owner (u : T) : Fits (some u) u .out true := by
  constructor <;> simp [releasing]

theorem Fits.callRelease (u : T) (owner : Option T) : Fits owner u .relCheck false := by
  constructor <;> simp

theorem Fits.own (h : Fits owner u .relCheck b) (hown : owner = some u) : Fits owner u .relClear b := by
  constructor <;> simp [hown, h.released (.inl rfl)]

theorem Fits.other (h : Fits owner u .relCheck b) (hown : owner ≠ some u) : Fits owner u .out b := by
  constructor <;> simp [releasing, hown, h.released (.inl rfl)]

theorem Fits.clearOwner (h : Fits owner u .relClear b) : Fits none u .relWake b := by
  constructor <;> simp [h.released (.inr (.inl rfl))]

theorem Fits.finish (h : Fits owner u .relWake b) : Fits owner u .out b := by
  constructor <;> simp [releasing, h.wake rfl, h.released (.inr (.inr rfl))]

theorem Fits.otherTakes {t : T} (h : Fits none u pc b) (hne : u ≠ t) (hpc : pc ≠ .relWake) :
    Fits (some t) u pc b where
  held hb := nomatch h.held hb
  released := h.released
  clear hc := nomatch h.clear hc
  wake hw := absurd hw hpc
  owner ho := absurd (some.inj ho).symm hne

theorem Fits.otherClears {t : T} (h : Fits (some t) u pc b) (hne : u ≠ t) : Fits none u pc b where
  held hb := absurd (some.inj (h.held hb)).symm hne
  released := h.released
  clear hc := absurd (some.inj (h.clear hc)).symm hne
  wake _ := rfl
  owner ho := nomatch ho

end Owner

theorem Owned.move (h : ∀ u, u ≠ t → Fits s'.ownerThread u (s.pc u) (s.held u))
    (hother : ∀ u, u ≠ t → s'.pc u = s.pc u ∧ s'.held u = s.held u)
    (ht : Fits s'.ownerThread t (s'.pc t) (s'.held t)) : Owned s' := by
  intro u
  by_cases hu : u = t
  · subst hu
    exact ht
  · obtain ⟨hpc, hheld⟩ := hother u hu
    rw [hpc, hheld]
    exact h u hu

theorem Owned.outside (h : Owned s) {x : LockPc} (hpc : ¬ releasing (s.pc t)) (hx : ¬ releasing x)
    (wc : Wchan T) : Owned { s.setPc t x with lkWchan := wc } := by
  refine Owned.move (t := t) (fun u _ => h u) (fun u hu => ⟨update_of_ne hu _ _, rfl⟩) ?_
  simpa [setPc] using (h t).outside hpc hx

theorem Inv.owned_step {op : Op T} (hinv : Inv s) (hstep : Step s op s') : Owned s' := by
  have h := hinv.owned
  cases hstep with
  | acquire hpc => exact h.outside (by simp [hpc, releasing]) (by simp [releasing]) s.lkWchan
  | @release t hpc =>
    refine Owned.move (t := t) (fun u _ => h u)
      (fun u hu => ⟨update_of_ne hu _ _, update_of_ne hu _ _⟩) ?_
    simpa [callRelease, setPc] using Fits.callRelease t s.ownerThread
  | @again t hpc hown =>
    refine Owned.move (t := t) (fun u _ => h u)
      (fun u hu => ⟨update_of_ne hu _ _, update_of_ne hu _ _⟩) ?_
    simpa [returnAcquire, setPc, hown] using fits_owner t
  | check hpc _ => exact h.outside (by simp [hpc, releasing]) (by simp [releasing]) s.lkWchan
  | block hpc _ _ _ => exact h.outside (by simp [hpc, releasing]) (by simp [releasing]) _
  | @take t hpc hfree hown =>
    refine Owned.move (t := t) (fun u hu => ?_)
      (fun u hu => ⟨update_of_ne hu _ _, update_of_ne hu _ _⟩) ?_
    · have hother := h u
      rw [hown] at hother
      exact hother.otherTakes hu (hinv.not_relWake hfree u)
    · simpa [returnAcquire, setPc] using fits_owner t
  | sleep hpc => exact h.outside (by simp [hpc, releasing]) (by simp [releasing]) _
  | @own t hpc hown =>
    refine Owned.move (t := t) (fun u _ => h u) (fun u hu => ⟨update_of_ne hu _ _, rfl⟩) ?_
    have ht := h t
    rw [hpc] at ht
    simpa [setPc] using ht.own hown
  | @other t hpc hown =>
    refine Owned.move (t := t) (fun u _ => h u) (fun u hu => ⟨update_of_ne hu _ _, rfl⟩) ?_
    have ht := h t
    rw [hpc] at ht
    simpa [setPc] using ht.other hown
  | @clear t hpc hfree =>
    have ht := h t
    rw [hpc] at ht
    refine Owned.move (t := t) (fun u hu => ?_) (fun u hu => ⟨update_of_ne hu _ _, rfl⟩) ?_
    · have hother := h u
      rw [ht.clear rfl] at hother
      exact hother.otherClears hu
    · simpa [setPc] using ht.clearOwner
  | @wakeone t x wc hpc hwake =>
    intro u
    show Fits s.ownerThread u (update (Os161.wake s.pc x .acqTest) t .out u) (s.held u)
    have hu := h u
    by_cases hut : u = t
    · subst hut
      rw [hpc] at hu
      rw [update_self]
      exact hu.finish
    rw [update_of_ne hut]
    by_cases hxu : x = some u
    · subst hxu
      rw [wake_self]
      exact hu.outside (by simp [hinv.wchan.asleep_of_wakeone hwake, releasing]) (by simp [releasing])
    · rw [wake_of_ne hxu]
      exact hu

/-! ## step が不変量を保つこと -/

theorem Inv.move {x : LockPc} (h : Inv s) (howned : Owned s') (hpc' : s'.pc = update s.pc t x)
    (hwchan : s'.lkWchan = s.lkWchan) (hspin : s'.lkSpinlock = s.lkSpinlock)
    (howner : s'.ownerThread = s.ownerThread)
    (hold : s.pc t ∉ [LockPc.asleep, .acqSleep, .relWake, .acqTest])
    (hnew : x ∉ [LockPc.asleep, .acqSleep, .relWake]) : Inv s' := by
  simp only [mem_cons, not_mem_nil, or_false, not_or] at hold hnew
  obtain ⟨hasleep, hlocking, hrel, htest⟩ := hold
  refine ⟨?_, ?_, howned, ?_⟩
  · rw [hwchan, hpc']
    exact h.wchan.move ⟨hasleep, hlocking⟩ ⟨hnew.1, hnew.2.1⟩
  · intro u
    rw [hspin, hpc', h.spin u]
    exact (update_eq_iff hrel hnew.2.2 u).symm
  · intro hnone hfree u hu
    rw [howner] at hnone
    rw [hspin] at hfree
    rw [hpc', update_eq_or_iff ⟨hasleep, hlocking⟩ ⟨hnew.1, hnew.2.1⟩] at hu
    obtain ⟨v, hv⟩ := h.waiters hnone hfree u hu
    refine ⟨v, ?_⟩
    have hvt : v ≠ t := fun hvt => htest (hvt ▸ hv)
    rw [hpc', update_of_ne hvt, hv]

theorem Inv.block {wc : Wchan T} (h : Inv s) (hpc : s.pc t = .acqTest)
    (hown : s.ownerThread.isSome = true) (hwc : s.lkWchan.lock t = some wc)
    (howned : Owned { s.setPc t .acqSleep with lkWchan := wc }) :
    Inv { s.setPc t .acqSleep with lkWchan := wc } where
  wchan := h.wchan.lockAt hwc (by simp [hpc]) (by simp)
  spin u := (h.spin u).trans (update_eq_iff (by rw [hpc]; simp) (by simp) u).symm
  owned := howned
  waiters hnone := by
    have hnone' : s.ownerThread = none := hnone
    rw [hnone'] at hown
    cases hown

theorem Inv.take (h : Inv s) (hpc : s.pc t = .acqTest)
    (howned : Owned { s.returnAcquire t with ownerThread := some t }) :
    Inv { s.returnAcquire t with ownerThread := some t } where
  wchan := h.wchan.move (by simp [hpc]) (by simp)
  spin u := (h.spin u).trans (update_eq_iff (by rw [hpc]; simp) (by simp) u).symm
  owned := howned
  waiters hnone := nomatch hnone

theorem Inv.sleep (h : Inv s) (hpc : s.pc t = .acqSleep)
    (howned : Owned { s.setPc t .asleep with lkWchan := s.lkWchan.sleep t }) :
    Inv { s.setPc t .asleep with lkWchan := s.lkWchan.sleep t } where
  wchan := h.wchan.sleepAt hpc (by simp)
  spin u := (h.spin u).trans (update_eq_iff (by rw [hpc]; simp) (by simp) u).symm
  owned := howned
  waiters hnone hfree _ _ := by
    obtain ⟨v, hv⟩ := h.waiters hnone hfree t (.inr hpc)
    exact ⟨v, (update_eq_iff (by rw [hpc]; simp) (by simp) v).mpr hv⟩

theorem Inv.clear (h : Inv s) (hpc : s.pc t = .relClear) (hfree : s.lkSpinlock.isSome = false)
    (howned : Owned { s.setPc t .relWake with lkSpinlock := some t, ownerThread := none }) :
    Inv { s.setPc t .relWake with lkSpinlock := some t, ownerThread := none } where
  wchan := h.wchan.move (by simp [hpc]) (by simp)
  spin u := by
    rw [show (s.setPc t .relWake).pc u = .relWake ↔ s.pc u = .relWake ∨ u = t from update_eq_iff_or u,
      or_iff_right (h.not_relWake hfree u), some.injEq]
    exact eq_comm
  owned := howned
  waiters _ hfree' := nomatch hfree'

theorem Inv.wakeone {x : Option T} {wc : Wchan T} (h : Inv s) (hpc : s.pc t = .relWake)
    (hwake : s.lkWchan.wakeone = some (x, wc))
    (howned : Owned { s with
      lkSpinlock := none, lkWchan := wc, pc := update (wake s.pc x .acqTest) t .out }) :
    Inv { s with
      lkSpinlock := none, lkWchan := wc, pc := update (wake s.pc x .acqTest) t .out } := by
  have hxt := h.wchan.woken_ne hwake (t := t) (by simp [hpc])
  refine ⟨h.wchan.wakeoneAt hwake (by simp [hpc]) (by simp) (by simp), fun u => ?_, howned,
    fun _ _ u hu => ?_⟩
  · simp only [reduceCtorEq, false_iff]
    exact update_wake_ne h.spin hpc (by simp) (by simp) u
  · have hu' := h.wchan.asleep_of_update_wake hwake (by simp [hpc]) (by simp) (by simp) hu
    cases x with
    | none => exact absurd hu' (h.wchan.not_asleep_of_wakeone hwake u)
    | some v =>
      have hvt : v ≠ t := fun hvt => hxt (by rw [hvt])
      refine ⟨v, ?_⟩
      show update (wake s.pc (some v) .acqTest) t .out v = .acqTest
      rw [update_of_ne hvt, wake_self]

theorem Inv.step {op : Op T} (h : Inv s) (hstep : LockStep s op s') : Inv s' := by
  have howned := h.owned_step (step_cases hstep)
  cases step_cases hstep with
  | acquire hpc | release hpc | again hpc _ | check hpc _ =>
    exact h.move howned rfl rfl rfl rfl (by simp [hpc]) (by simp)
  | block hpc _ hown hwc => exact h.block hpc hown hwc howned
  | take hpc _ _ => exact h.take hpc howned
  | sleep hpc => exact h.sleep hpc howned
  | own hpc _ | other hpc _ => exact h.move howned rfl rfl rfl rfl (by simp [hpc]) (by simp)
  | clear hpc hfree => exact h.clear hpc hfree howned
  | wakeone hpc hwake => exact h.wakeone hpc hwake howned

/-! ## 起動からの列 -/

/-- `lock_acquire` から戻って `lock_release` を呼んでいない thread は高々一つで、それが `owner_thread` である。 -/
def Exclusive (s : Lock T) : Prop :=
  (∀ u, s.held u = true → s.ownerThread = some u) ∧
  (∀ u v, s.held u = true → s.held v = true → u = v) ∧
  ∀ u, s.ownerThread = some u → s.held u = true ∨ s.pc u = .relCheck ∨ s.pc u = .relClear

def NoLostWakeup (s : Lock T) : Prop :=
  s.ownerThread = none → (∀ u, s.pc u ≠ .relWake) → (∃ u, s.pc u = .asleep) →
    ∃ v s', s.pc v = .acqTest ∧ s.step (.advance v) = some s' ∧ s'.ownerThread = some v

omit [DecidableEq T] in
theorem Inv.exclusive (h : Inv s) : Exclusive s := by
  refine ⟨fun u => (h.owned u).held, fun u v hu hv => ?_, fun u => (h.owned u).owner⟩
  exact some.inj (((h.owned u).held hu).symm.trans ((h.owned v).held hv))

theorem Inv.noLostWakeup (h : Inv s) : NoLostWakeup s := by
  rintro hnone hno ⟨u, hu⟩
  have hfree : s.lkSpinlock.isSome = false := by
    cases hlock : s.lkSpinlock with
    | none => rfl
    | some v => exact absurd ((h.spin v).mp hlock) (hno v)
  obtain ⟨v, hv⟩ := h.waiters hnone hfree u (.inl hu)
  refine ⟨v, { s.returnAcquire v with ownerThread := some v }, hv, ?_, rfl⟩
  simp [Lock.step, advance, hv, acqTest, hfree, hnone]

/--
**`lock_create` からのどの列の後でも、`lock_acquire` から戻った thread は高々一つで `owner_thread` に等しく、
起こし忘れは無い。**
-/
theorem lock_exact {tr : List (Transition (Lock T) (Op T))} {u : Lock T}
    (hrun : Run LockStep create tr u) : Exclusive u ∧ NoLostWakeup u := by
  have hinv : Inv u := (hrun.invariant' (fun hp hq => hp.step hq) inv_create).1
  exact ⟨hinv.exclusive, hinv.noLostWakeup⟩

/-- 0 が持つ lock を 1 と 2 が待ち、放した 0 が 1 を起こした後の列。 -/
theorem lock_exact_handover :
    ∃ tr u, Run LockStep (create : Lock (Fin 3)) tr u ∧ tr.map (fun x => x.label) =
        [.acquire 0, .advance 0, .advance 0, .acquire 1, .advance 1, .advance 1, .advance 1,
          .acquire 2, .advance 2, .advance 2, .advance 2, .release 0, .advance 0, .advance 0,
          .advance 0] ∧
      u.ownerThread = none ∧ u.pc 1 = .acqTest ∧ u.pc 2 = .asleep ∧ Exclusive u ∧ NoLostWakeup u := by
  obtain ⟨u, hu⟩ : ∃ u, [Op.acquire 0, .advance 0, .advance 0, .acquire 1, .advance 1, .advance 1,
      .advance 1, .acquire 2, .advance 2, .advance 2, .advance 2, .release 0, .advance 0, .advance 0,
      .advance 0].foldlM step (create : Lock (Fin 3)) = some u := ⟨_, rfl⟩
  obtain ⟨hrun, hlabels⟩ := Run.of_foldlM hu
  have hstate : u.ownerThread = none ∧ u.pc 1 = .acqTest ∧ u.pc 2 = .asleep := by
    cases hu
    exact ⟨rfl, rfl, rfl⟩
  exact ⟨_, u, hrun, hlabels, hstate.1, hstate.2.1, hstate.2.2, lock_exact hrun⟩

end Lock

end Os161
