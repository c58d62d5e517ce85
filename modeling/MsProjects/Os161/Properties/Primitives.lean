import MsProjects.Infra.Program
import MsProjects.Os161.Properties.Lock
import MsProjects.Os161.Properties.Semaphore

/-! # 一命令としての `P`、`V`、`lock_acquire`、`lock_release` -/

namespace Os161

open Infra List Function Machine

theorem update_unit {β : Type*} (f : Unit → β) (v : β) : update f () v = fun _ => v :=
  update_eq_const_of_subsingleton () v f

variable {T : Type*} [DecidableEq T]

section Wake

variable {π ρ : Type*} (f : π → ρ) {pc : T → π} {wc wc' : Wchan T} {x : Option T} {t u : T}
  {asleep locking a b : π}

/-- 起こされた thread は、`f` では変わらない。 -/
theorem apply_update_wake (h : wc.OkAt pc asleep locking) (hwake : wc.wakeone = some (x, wc'))
    (ha : f a = f asleep) (hu : u ≠ t) : f (update (wake pc x a) t b u) = f (pc u) := by
  by_cases hx : x = some u
  · subst hx
    simp [update_of_ne hu, wake_self, ha, h.asleep_of_wakeone hwake]
  · simp [update_of_ne hu, wake_of_ne hx]

/-- 起こされた thread も起こした thread も、`f` では変わらない。 -/
theorem comp_update_wake (h : wc.OkAt pc asleep locking) (hwake : wc.wakeone = some (x, wc'))
    (ha : f a = f asleep) (hb : f b = f (pc t)) : f ∘ update (wake pc x a) t b = f ∘ pc := by
  funext u
  by_cases hu : u = t
  · subst hu
    simp [hb]
  · exact apply_update_wake f h hwake ha hu

end Wake

theorem comp_update_same {π ρ : Type*} (f : π → ρ) {pc : T → π} {t : T} {b : π} (hb : f b = f (pc t)) :
    f ∘ update pc t b = f ∘ pc := by
  rw [comp_update, hb]
  exact update_eq_self t (f ∘ pc)

/-! ## semaphore -/

namespace Semaphore

/-- 呼び出してまだ効いていない命令。 -/
def pending : SemPc → List (Instr Empty Unit Empty)
  | .out | .vWake => []
  | .p | .pSleep | .asleep => [.p ()]
  | .v => [.v ()]

/-- semaphore を、数だけの機械と見る。 -/
def atomic (s : Semaphore T) : Machine T Empty Unit Empty where
  owner := nofun
  count _ := s.semCount.toNat
  rest := pending ∘ s.pc

def Op.thread : Op T → T
  | .callP t | .callV t | .advance t => t

/-- 呼び出しと、それが効いたところ。 -/
def call (x : Transition (Semaphore T) (Op T)) : Option (Machine.Call T Empty Unit Empty) :=
  Call.between x.label.thread (x.pre.atomic.rest x.label.thread) (x.post.atomic.rest x.label.thread)

variable {s s' : Semaphore T} {t : T} {x : SemPc}

theorem atomic_update (hpc : s'.pc = update s.pc t x) :
    s'.atomic = setRest { s.atomic with count := fun _ => s'.semCount.toNat } t (pending x) := by
  simp only [atomic, setRest, hpc, comp_update]

theorem Inv.follows [Fintype T] {op : Op T} (h : Inv s) (hstep : SemStep s op s') :
    Follows op.thread s.atomic s'.atomic := by
  cases step_cases hstep with
  | callP hpc | callV hpc =>
    exact follows_start (congrArg pending hpc) (atomic_update rfl) rfl
  | block hpc | sleep hpc => exact follows_of_rest (comp_update_same pending (by rw [hpc]; rfl)) rfl
  | take hpc _ hpos =>
    refine follows_finish (congrArg pending hpc) (atomic_update rfl) rfl ?_
    have hcount : (s.semCount - 1).toNat = s.semCount.toNat - 1 := by omega
    simp [exec, atomic, update_unit, hcount, hpos]
  | inc hpc =>
    refine follows_finish (congrArg pending hpc) (atomic_update rfl) rfl ?_
    have hnonneg := h.nonneg
    have hcount : (s.semCount + 1).toNat = s.semCount.toNat + 1 := by omega
    simp [exec, atomic, update_unit, hcount]
  | wakeone hpc hwake =>
    exact follows_of_rest (comp_update_wake pending h.wchan hwake (by rfl) (by rw [hpc]; rfl)) rfl

/--
**`P` と `V` のどの列も、呼び出しとその効いた step だけを残すと、一度に効く `p` と `v` の列になる。**
-/
theorem sem_linearizable [Fintype T] {n : Int} (hn : 0 ≤ n) {tr : List (Transition (Semaphore T) (Op T))}
    {u : Semaphore T} (hrun : Run SemStep (create n) tr u) :
    ∃ tr', Run Machine.CallStep (create n : Semaphore T).atomic tr' u.atomic ∧
      tr'.map (fun x => x.label) = tr.filterMap call :=
  hrun.simulates (fun h hstep => h.step hstep) (fun h hstep => h.follows hstep) (inv_create hn)

/-- 先に呼んだ `P` が、後から呼んだ `V` の効くのを待つ。 -/
theorem sem_linearizable_wait :
    ∃ u tr', Run Machine.CallStep (create 0 : Semaphore (Fin 2)).atomic tr' (atomic u) ∧
      tr'.map (fun x => x.label) = [.start 0 (.p ()), .start 1 (.v ()), .finish 1, .finish 0] := by
  obtain ⟨u, hu⟩ : ∃ u, [Op.callP 0, .callV 1, .advance 1, .advance 1, .advance 0].foldlM step
    (create 0 : Semaphore (Fin 2)) = some u := ⟨_, rfl⟩
  exact ⟨u, sem_linearizable le_rfl (Run.of_foldlM hu).1⟩

end Semaphore

/-! ## lock -/

namespace Lock

/-- 呼び出してまだ効いていない命令。 -/
def pending : LockPc → List (Instr Unit Empty Empty)
  | .out | .relWake => []
  | .acqCheck | .acqTest | .acqSleep | .asleep => [.acquire ()]
  | .relCheck | .relClear => [.release ()]

/-- lock を、持ち主だけの機械と見る。 -/
def atomic (s : Lock T) : Machine T Unit Empty Empty where
  owner _ := s.ownerThread
  count := nofun
  rest := pending ∘ s.pc

def Op.thread : Op T → T
  | .acquire t | .release t | .advance t => t

/-- 呼び出しと、それが効いたところ。 -/
def call (x : Transition (Lock T) (Op T)) : Option (Machine.Call T Unit Empty Empty) :=
  Call.between x.label.thread (x.pre.atomic.rest x.label.thread) (x.post.atomic.rest x.label.thread)

variable {s s' : Lock T} {t : T} {x : LockPc}

theorem atomic_update (hpc : s'.pc = update s.pc t x) :
    s'.atomic = setRest { s.atomic with owner := fun _ => s'.ownerThread } t (pending x) := by
  simp only [atomic, setRest, hpc, comp_update]

theorem Inv.follows {op : Op T} (h : Inv s) (hstep : LockStep s op s') :
    Follows op.thread s.atomic s'.atomic := by
  cases step_cases hstep with
  | acquire hpc | release hpc =>
    exact follows_start (congrArg pending hpc) (atomic_update rfl) rfl
  | check hpc | block hpc | sleep hpc | own hpc =>
    exact follows_of_rest (comp_update_same pending (by rw [hpc]; rfl)) rfl
  | again hpc hown | take hpc _ hown | other hpc hown =>
    refine follows_finish (congrArg pending hpc) (atomic_update rfl) rfl ?_
    simp [exec, atomic, update_unit, Op.thread, hown, returnAcquire, setPc]
  | clear hpc =>
    refine follows_finish (congrArg pending hpc) (atomic_update rfl) rfl ?_
    -- NULL を書く thread は持ち主である。
    simp [exec, atomic, update_unit, Op.thread, (h.owned _).clear hpc]
  | wakeone hpc hwake =>
    exact follows_of_rest (comp_update_wake pending h.wchan hwake (by rfl) (by rw [hpc]; rfl)) rfl

/--
**`lock_acquire` と `lock_release` のどの列も、呼び出しとその効いた step だけを残すと、一度に効く取得と解放の列になる。**
-/
theorem lock_linearizable {tr : List (Transition (Lock T) (Op T))} {u : Lock T}
    (hrun : Run LockStep create tr u) :
    ∃ tr', Run Machine.CallStep (create : Lock T).atomic tr' u.atomic ∧
      tr'.map (fun x => x.label) = tr.filterMap call :=
  hrun.simulates (fun h hstep => h.step hstep) (fun h hstep => h.follows hstep) inv_create

/-- 後から呼んだ thread が先に取る。 -/
theorem lock_linearizable_overtake :
    ∃ u tr', Run Machine.CallStep (create : Lock (Fin 2)).atomic tr' (atomic u) ∧
      tr'.map (fun x => x.label) = [.start 0 (.acquire ()), .start 1 (.acquire ()), .finish 1] := by
  obtain ⟨u, hu⟩ : ∃ u, [Op.acquire 0, .acquire 1, .advance 1, .advance 0, .advance 1].foldlM step
    (create : Lock (Fin 2)) = some u := ⟨_, rfl⟩
  exact ⟨u, lock_linearizable (Run.of_foldlM hu).1⟩

end Lock

end Os161
