import MsProjects.Os161.Properties.Lifecycle

/-! # `forkSem` の保存 -/

namespace Os161

open Infra List Function Thread

namespace Life

variable {s s' : Life} {op : Op}

/-! ## 数える process -/

/-- `sys__exit` の `V(forkSem)` を済ませた。 -/
def pastForkSem : Pc → Bool
  | .exit _ .vForkSem => false
  | .exit _ _ | .threadExit _ | .zombie _ => true
  | _ => false

/-- `sys_fork` の作った、まだ終わっていない process である。 -/
def forked : Origin → Pc → Bool
  | .fork, pc => !pastForkSem pc
  | _, _ => false

/-- `sys_fork` で `P` を済ませ、まだ子を作っていない。 -/
def forking : Pc → Bool
  | .forkBody | .forkV => true
  | _ => false

/-- 一つの thread のもとで数える process の数。 -/
def forkShare (x : Thread) : Nat := (forked x.origin x.pc).toNat + (forking x.pc).toNat

/-- `sys_fork` の作った、まだ終わっていない process の数。 -/
def liveForked (s : Life) : Nat := (s.threads.map forkShare).sum

/-! ## 和の変化 -/

/-- `sys_fork` の作ったのでない process が行う `V(forkSem)` の数。 -/
def surplus (x : Thread) : Kernel.Act → Nat
  | .advance =>
    match x.pc with
    | .exit _ .vForkSem => if x.origin = .fork then 0 else 1
    | _ => 0
  | _ => 0

theorem forkShare_exec {k k' : Kernel} {x x' : Thread} {a : Kernel.Act} (h : Kernel.Exec k x a x' k') :
    k'.forkSem + forkShare x' = k.forkSem + forkShare x + surplus x a := by
  cases h with
  | enterUser hpc => rfl
  | entryReturns hpc =>
    have hkernel : x.origin = .kernel := by
      simp only [inEntry, Bool.and_eq_true, decide_eq_true_eq] at hpc
      exact hpc.1.1
    simp [forkShare, forked, forking, pc_of_inEntry hpc, goto, hkernel, surplus]
  | callFork hpc | callExit _ hpc =>
    cases horigin : x.origin <;>
      simp [forkShare, forked, forking, pastForkSem, pc_of_inUser hpc, goto, horigin, surplus]
  | callWaitpid _ hpc =>
    cases horigin : x.origin <;>
      simp [forkShare, forked, forking, pastForkSem, pc_of_mayCall hpc, goto, horigin, surplus]
  | forkP hpc hpos =>
    cases horigin : x.origin <;>
      simp [forkShare, forked, forking, pastForkSem, hpc, goto, horigin, surplus] <;> omega
  | forkV hpc =>
    cases horigin : x.origin <;>
      simp [forkShare, forked, forking, pastForkSem, hpc, goto, horigin, surplus]
  | vForkSem hpc | vExecvSem hpc | setExecvSem hpc | setExitcode hpc _ | setExited hpc _ | vExitsem hpc _
  | threadExit hpc | refuses hpc _ _ | lookup hpc _ | nullTest hpc | ppidTest hpc _ _ | sawExited hpc _ _
  | mustWait hpc | semP hpc _ | readCode hpc _ | destroy hpc _ =>
    cases horigin : x.origin <;>
      simp [forkShare, forked, forking, pastForkSem, hpc, goto, horigin, surplus, Kernel.put,
        Kernel.record]

/-- 系の一 step による和の変化。 -/
def opSurplus (s : Life) : Op → Nat
  | .act t a => ((s.threads[t]?).map fun x => surplus x a).getD 0
  | _ => 0

theorem opSurplus_of_not_act (h : op.isAct = false) : s.opSurplus op = 0 := by
  cases op with
  | act => cases h
  | spawn | fork => rfl

theorem balance_step (h : Step s op s') :
    s'.kernel.forkSem + s'.liveForked = s.kernel.forkSem + s.liveForked + s.opSurplus op := by
  cases h with
  | @act t a x x' k' hx hexec =>
    have hset := sum_map_set forkShare hx x'
    have hexec := forkShare_exec hexec
    simp only [liveForked, opSurplus, hx, Option.map_some, Option.getD_some]
    omega
  | @born _ t x origin i hx hmay _ hop =>
    have hset := sum_map_set forkShare hx (x.goto .run)
    have hshare : forkShare (x.goto .run) + forkShare (s.child t i origin) = forkShare x := by
      rcases hmay with ⟨rfl, hmenu⟩ | ⟨rfl, hpc⟩
      · simp [forkShare, forked, forking, child, pc_of_inMenu hmenu, goto, pastForkSem]
      · cases horigin : x.origin <;>
          simp [forkShare, forked, forking, child, hpc, goto, pastForkSem, horigin]
    simp only [liveForked, Kernel.create, map_append, map_cons, map_nil, sum_append,
      sum_cons, sum_nil, opSurplus_of_not_act hop]
    omega
  | @refused _ t x pc counter hx hpc _ hop =>
    have hset := sum_map_set forkShare hx (x.goto pc)
    have hshare : forkShare (x.goto pc) = forkShare x := by
      rcases hpc with ⟨hmenu, rfl⟩ | ⟨hpc, rfl⟩
      · simp [forkShare, forked, forking, pc_of_inMenu hmenu, goto, pastForkSem]
      · cases horigin : x.origin <;>
          simp [forkShare, forked, forking, hpc, goto, pastForkSem, horigin]
    simp only [liveForked, opSurplus_of_not_act hop]
    omega

/-! ## 起動からの列 -/

/-- `sys_fork` の作った process だけが、`sys__exit` の `V(forkSem)` を実行する。 -/
def ForkedExit (s : Life) (op : Op) : Prop :=
  ∀ (t : Nat) (x : Thread) (code : Int32), op = .act t .advance → s.threads[t]? = some x →
    x.pc = .exit code .vForkSem → x.origin = .fork

theorem opSurplus_eq_zero_iff : s.opSurplus op = 0 ↔ s.ForkedExit op := by
  cases op with
  | spawn | fork => exact ⟨fun _ _ _ _ hop => (nomatch hop), fun _ => rfl⟩
  | act t a =>
    cases hx : s.threads[t]? with
    | none =>
      refine ⟨fun _ u x code hop hu => ?_, fun _ => by simp [opSurplus, hx]⟩
      cases hop
      simp [hx] at hu
    | some x =>
      simp only [opSurplus, hx, Option.map_some, Option.getD_some]
      constructor
      · intro hzero u y code hop hy hpc
        cases hop
        cases hx.symm.trans hy
        simpa [surplus, hpc] using hzero
      · intro hexit
        unfold surplus
        split
        · split
          · rename_i code hpc
            rw [if_pos (hexit t x code rfl hx hpc)]
          · rfl
        · rfl

/--
**起動からの列で、`forkSem` の数とまだ終わっていない forked process の数の和がいつも 8 であり、よってその数が
8 を超えないことは、`sys_fork` の作った process だけが `sys__exit` の `V(forkSem)` を実行することと同じである。**
-/
theorem forkSem_balanced_iff {tr : List (Transition Life Op)} {u : Life} (hrun : Run LifeStep boot tr u) :
    (∀ x ∈ tr, x.post.kernel.forkSem + x.post.liveForked = 8 ∧ x.post.liveForked ≤ 8) ↔
      ∀ x ∈ tr, ForkedExit x.pre x.label := by
  refine Run.forall_iff (I := fun s => s.kernel.forkSem + s.liveForked = 8) (C := ForkedExit)
    (G := fun _ _ s => s.kernel.forkSem + s.liveForked = 8 ∧ s.liveForked ≤ 8)
    (fun hp hq hc => ?_) (fun hp hq hc hg => ?_) hrun rfl
  · have hstep := balance_step (step_cases hq)
    rw [opSurplus_eq_zero_iff.mpr hc] at hstep
    omega
  · have hstep := balance_step (step_cases hq)
    refine hc (opSurplus_eq_zero_iff.mp ?_)
    omega

/-- menu の program が子を作り、子が終わるまで。 -/
def childExits : List Op :=
  [.spawn 0 plentiful, .act 1 .enterUser, .act 1 .callFork, .act 1 .advance, .fork 1 true plentiful,
    .act 2 (.callExit 7)] ++ replicate 7 (.act 2 .advance)

/-- menu の program が子を作り、子が終わる列。 -/
theorem forkSem_balanced_child :
    ∃ (tr : List (Transition Life Op)) (u : Life), Run LifeStep boot tr u ∧
      (∀ x ∈ tr, ForkedExit x.pre x.label) ∧ u.threads.map pc = [.run, .run, .zombie (some 7)] ∧
      ∀ x ∈ tr, x.post.kernel.forkSem + x.post.liveForked = 8 ∧ x.post.liveForked ≤ 8 := by
  obtain ⟨u, hu⟩ : ∃ u, childExits.foldlM step boot = some u := ⟨_, rfl⟩
  have hrun := (Run.of_foldlM hu).1
  have hzero : ∀ x ∈ Run.trace step boot childExits, x.pre.opSurplus x.label = 0 := by decide
  have hexit : ∀ x ∈ Run.trace step boot childExits, ForkedExit x.pre x.label :=
    fun x hx => opSurplus_eq_zero_iff.mp (hzero x hx)
  refine ⟨_, u, hrun, hexit, ?_, (forkSem_balanced_iff hrun).mpr hexit⟩
  cases hu
  rfl

/-- menu から始めた program が一つ終わると、`forkSem` は 9 になる。 -/
theorem forkSem_grows :
    ∃ (tr : List (Transition Life Op)) (u : Life), Run LifeStep boot tr u ∧
      u.kernel.forkSem = 9 ∧ u.liveForked = 0 := by
  obtain ⟨u, hu⟩ : ∃ u, [Op.spawn 0 plentiful, .act 1 .enterUser, .act 1 (.callExit 0),
      .act 1 .advance].foldlM step boot = some u := ⟨_, rfl⟩
  refine ⟨_, u, (Run.of_foldlM hu).1, ?_⟩
  cases hu
  exact ⟨rfl, rfl⟩

end Life

end Os161
