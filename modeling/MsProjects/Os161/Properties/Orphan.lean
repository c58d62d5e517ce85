import MsProjects.Os161.Properties.Lifecycle

/-! # slot の持ち主 -/

namespace Os161

open Infra List Function

namespace Life

variable {s s' : Life} {op : Op}

/-! ## 待った子 -/

/-- pid の status を得た `sys_waitpid` がある。 -/
def WaitedFor (s : Life) (pid : Int) : Prop :=
  ∃ r ∈ s.kernel.log, Kernel.obtains r.result = true ∧ r.call.pid = pid

instance (s : Life) (pid : Int) : Decidable (s.WaitedFor pid) :=
  inferInstanceAs (Decidable (∃ r ∈ s.kernel.log, _ ∧ _))

/-- status を得た process は、もう載っていない。 -/
def Reaped (s : Life) : Prop :=
  ∀ pid, s.WaitedFor pid → pid ≤ s.kernel.procs.pidCounter ∧
    ∀ i p, s.kernel.procs.processTable i = some p → p.pid ≠ pid

theorem Reaped.inherits (h : Reaped s) (hcounter : s.kernel.procs.pidCounter ≤ s'.kernel.procs.pidCounter)
    (hlog : ∀ pid, s'.WaitedFor pid → s.WaitedFor pid)
    (htable : ∀ i q, s'.kernel.procs.processTable i = some q →
      ∃ p, s.kernel.procs.processTable i = some p ∧ q.pid = p.pid) : Reaped s' := by
  intro pid hpid
  obtain ⟨hle, hno⟩ := h pid (hlog pid hpid)
  refine ⟨hle.trans hcounter, fun i q hq => ?_⟩
  obtain ⟨p, hp, heq⟩ := htable i q hq
  rw [heq]
  exact hno i p hp

theorem Reaped.destroy (h : Reaped s) (hbase : Base s) {t : Nat} {x : Thread} {call : WaitCall}
    {i : Fin procMax} {status : Int32} (hx : s.threads[t]? = some x)
    (hpc : x.pc = .wait call (.destroy i status)) (l : List Thread) :
    Reaped ⟨(s.kernel.put i none).record x call (.ok ⟨call.pid, some status⟩), l⟩ := by
  have hinherits : ∀ {j q}, ((s.kernel.put i none).record x call
    (.ok ⟨call.pid, some status⟩)).procs.processTable
      j = some q → j ≠ i ∧ s.kernel.procs.processTable j = some q := by
    intro j q hq
    by_cases hj : j = i
    · simp [hj, Kernel.put, Kernel.record, Procs.setSlot] at hq
    · exact ⟨hj, by simpa [Kernel.put, Kernel.record, Procs.setSlot, update_of_ne hj] using hq⟩
  rintro pid ⟨r, hr, hobtains, rfl⟩
  rcases mem_append.mp hr with hr | hr
  · obtain ⟨hle, hno⟩ := h _ ⟨r, hr, hobtains, rfl⟩
    exact ⟨hle, fun j q hq => hno j q (hinherits hq).2⟩
  · -- 今空にした slot のほかに、同じ pid の process は載っていない。
    rw [mem_singleton.mp hr]
    obtain ⟨p, hp, -, hcall⟩ := (hbase.waiting t x hx).after call i (by rw [hpc]; rfl)
    obtain ⟨u, z, -, -, hz, hzpid, hindex, -⟩ := hbase.linked.exists_owner hp
    refine ⟨?_, fun j q hq heq => ?_⟩
    · rw [← hcall, ← hzpid]
      exact hbase.linked.pid_le hz
    · obtain ⟨hj, hq⟩ := hinherits hq
      exact hj ((hbase.linked.of_pid hz hq (by rw [heq, hzpid, hcall])).1.symm.trans hindex)

theorem Reaped.create (h : Reaped s) (i : Fin procMax) (ppid : Int) (l : List Thread) :
    Reaped ⟨s.kernel.create i ppid, l⟩ := by
  intro pid hpid
  obtain ⟨hle, hno⟩ := h pid hpid
  refine ⟨?_, fun j q hq => ?_⟩
  · show pid ≤ s.kernel.procs.pidCounter + 1
    omega
  · by_cases hj : j = i
    · subst hj
      simp only [Kernel.create, Procs.setSlot, update_self, Option.some.injEq] at hq
      rw [← hq]
      show s.kernel.procs.pidCounter + 1 ≠ pid
      omega
    · simp only [Kernel.create, Procs.setSlot, update_of_ne hj] at hq
      exact hno j q hq

theorem Reaped.step (h : Reaped s) (hbase : Base s) (hstep : Step s op s') : Reaped s' := by
  cases hstep with
  | @act t a x x' k' hx hexec =>
    have hinherits : ∀ i q, k'.procs.processTable i = some q →
        ∃ p, s.kernel.procs.processTable i = some p ∧ q.pid = p.pid := by
      intro i q hq
      obtain ⟨p, hp, hpid, -⟩ := hexec.inherits hq
      exact ⟨p, hp, hpid⟩
    have hcounter := hexec.pidCounter.ge
    cases hexec with
    | refuses _ _ hresult =>
      refine h.inherits hcounter (fun pid hpid => ?_) hinherits
      obtain ⟨r, hr, hobtains, heq⟩ := hpid
      rcases mem_append.mp hr with hr | hr
      · exact ⟨r, hr, hobtains, heq⟩
      · rw [mem_singleton.mp hr] at hobtains
        simp [hresult] at hobtains
    | destroy hpc => exact h.destroy hbase hx hpc _
    | _ => exact h.inherits hcounter (fun _ hpid => hpid) hinherits
  | born => exact h.create _ _ _
  | refused _ _ hle _ => exact h.inherits hle (fun _ hpid => hpid) fun i q hq => ⟨q, hq, rfl⟩

/-! ## 親のいない子 -/

/-- 自分の slot に載っている thread は、それ自身か親が終わっていない。 -/
def NoOrphan (s : Life) : Prop :=
  ∀ (t : Nat) (x : Thread) (q : Nat) (y : Thread), s.threads[t]? = some x → x.parent = some q →
    s.threads[q]? = some y → s.Holds x → x.terminated = false ∨ y.terminated = false

def exiting : Pc → Bool
  | .threadExit _ => true
  | _ => false

/-- 終わる thread は、終わった子をすべて待っていて、その親はまだ終わっていない。 -/
def EndsInOrder (s : Life) (op : Op) : Prop :=
  op.OnAdvance fun t => ∀ x ∈ s.threads[t]?, exiting x.pc = true →
    (∀ z ∈ s.threads, z.parent = some t → z.terminated = true → ¬ s.Holds z) ∧
      ∀ q ∈ x.parent, ∀ y ∈ s.threads[q]?, y.terminated = false

instance (s : Life) (op : Op) : Decidable (s.EndsInOrder op) := by
  unfold EndsInOrder
  infer_instance

theorem terminated_exec {k k' : Kernel} {x x' : Thread} {a : Kernel.Act} (h : Kernel.Exec k x a x' k')
    (hend : x'.terminated = true) : a = .advance ∧ exiting x.pc = true := by
  cases h with
  | threadExit hpc => exact ⟨rfl, by rw [hpc]; rfl⟩
  | enterUser hentry => simp [Thread.terminated, Thread.pc_of_inEntry hentry] at hend
  | _ => cases hend

theorem NoOrphan.act (h : NoOrphan s) (hlinked : Linked s) {t : Nat} {a : Kernel.Act} {x x' : Thread}
    {k' : Kernel} (hends : EndsInOrder s (.act t a)) (hx : s.threads[t]? = some x)
    (hexec : Kernel.Exec s.kernel x a x' k') : NoOrphan ⟨k', s.threads.set t x'⟩ := by
  intro u z q y hz hparent hy hholds
  have hold : s.Holds z := by
    obtain ⟨p, hp, hpid⟩ := hholds
    obtain ⟨p', hp', hpid', -⟩ := hexec.inherits hp
    exact ⟨p', hp', hpid'.symm.trans hpid⟩
  by_contra hboth
  simp only [not_or, Bool.not_eq_false] at hboth
  obtain ⟨hzend, hyend⟩ := hboth
  rcases (getElem?_set_iff hx).mp hz with ⟨rfl, rfl⟩ | ⟨-, hzold⟩
  · -- 今終わる thread の親は終わっていない。
    obtain ⟨rfl, hexiting⟩ := terminated_exec hexec hzend
    have hxparent : x.parent = some q := by
      rw [← hparent, hexec.ident]
    have hlt := hlinked.parent u _ q (ids_of_thread hx) hxparent
    rcases (getElem?_set_iff hx).mp hy with ⟨rfl, -⟩ | ⟨-, hyold⟩
    · omega
    · simp [(hends x hx hexiting).2 q hxparent y hyold] at hyend
  · rcases (getElem?_set_iff hx).mp hy with ⟨rfl, rfl⟩ | ⟨-, hyold⟩
    · -- 今終わる thread の終わった子は、もう載っていない。
      obtain ⟨rfl, hexiting⟩ := terminated_exec hexec hyend
      exact (hends x hx hexiting).1 z (mem_of_getElem? hzold) hparent hzend hold
    · rcases h u z q y hzold hparent hyold hold with hend | hend
      · simp [hend] at hzend
      · simp [hend] at hyend

theorem terminated_of_idle {x : Thread} (h : idle x.pc = true) : x.terminated = false := by
  cases hpc : x.pc <;> simp [hpc, idle, Thread.terminated] at h ⊢

theorem NoOrphan.step (h : NoOrphan s) (hlinked : Linked s) (hends : EndsInOrder s op)
    (hstep : Step s op s') :
    NoOrphan s' := by
  rcases hstep.act_or_quiet hlinked with ⟨t, a, x, x', k', rfl, hx, hexec, rfl⟩ | hquiet
  · exact h.act hlinked hends hx hexec
  · intro u z q y hz hparent hy hholds
    rcases hquiet.idle_or_old hz with hidle | hzold
    · exact .inl (terminated_of_idle hidle)
    rcases hquiet.idle_or_old hy with hidle | hyold
    · exact .inr (terminated_of_idle hidle)
    · obtain ⟨p, hp, hpid⟩ := hholds
      exact h u z q y hzold hparent hyold ⟨p, (hquiet.slot hzold hp hpid).1, hpid⟩

/-! ## 起動からの列 -/

structure OrphanInv (s : Life) : Prop where
  base : Base s
  reaped : Reaped s
  noOrphan : NoOrphan s

theorem orphanInv_boot : OrphanInv boot where
  base := base_boot
  reaped := fun _ ⟨_, hr, _⟩ => (nomatch hr)
  noOrphan := fun _ _ _ _ _ _ _ ⟨_, hp, _⟩ => (nomatch hp)

theorem OrphanInv.step (h : OrphanInv s) (hends : EndsInOrder s op) (hstep : LifeStep s op s') :
    OrphanInv s' := by
  have hstep := step_cases hstep
  exact ⟨h.base.step hstep, h.reaped.step h.base hstep, h.noOrphan.step h.base.linked hends hstep⟩

/-- 載っている slot は、終わっていない thread か、終わっていない親にまだ待たれていない子のものである。 -/
def Accounted (s : Life) : Prop :=
  ∀ i p, s.kernel.procs.processTable i = some p → ∃ (t : Nat) (x : Thread) (q : Nat) (y : Thread),
    s.threads[t]? = some x ∧ x.pid = p.pid ∧ x.ptableIndex = i ∧ x.parent = some q ∧
      s.threads[q]? = some y ∧
      (x.terminated = false ∨ y.terminated = false ∧ ¬ s.WaitedFor x.pid)

/-- 作られた thread がみな終わり、作った thread は終わったか待った。 -/
def AllEnded (s : Life) : Prop :=
  ∀ x ∈ s.threads, ∀ q ∈ x.parent, x.terminated = true ∧
    ((∀ y ∈ s.threads[q]?, y.terminated = true) ∨ s.WaitedFor x.pid)

instance (s : Life) : Decidable s.AllEnded :=
  inferInstanceAs (Decidable (∀ x ∈ s.threads, ∀ q ∈ x.parent, _ ∧ (_ ∨ s.WaitedFor x.pid)))

/--
**終わる thread がどれも、終わった子をすべて待っていて、親がまだ終わっていない列では、載っている slot は
終わっていない thread か、終わっていない親にまだ待たれていない子のものである。よって、作られた thread がみな
終わり、作った thread が終わったか待ったなら、すべての slot が空いている。**
-/
theorem slots_accounted {tr : List (Transition Life Op)} {u : Life} (hrun : Run LifeStep boot tr u)
    (hends : ∀ x ∈ tr, EndsInOrder x.pre x.label) :
    Accounted u ∧ (AllEnded u → ∀ i, u.kernel.procs.processTable i = none) := by
  have hinv : OrphanInv u := (hrun.invariant (fun hp hc hq => hp.step hc hq) hends orphanInv_boot).1
  have haccounted : Accounted u := by
    intro i p hp
    obtain ⟨t, x, q, y, hx, hpid, hindex, hparent, hy, -⟩ := hinv.base.linked.exists_owner hp
    refine ⟨t, x, q, y, hx, hpid, hindex, hparent, hy, ?_⟩
    refine (hinv.noOrphan t x q y hx hparent hy ⟨p, by rw [hindex, hp], hpid.symm⟩).imp_right
      fun hyend => ?_
    exact ⟨hyend, fun hwaited => (hinv.reaped _ hwaited).2 i p hp hpid.symm⟩
  refine ⟨haccounted, fun hall i => ?_⟩
  by_contra hne
  obtain ⟨p, hp⟩ := Option.ne_none_iff_exists'.mp hne
  obtain ⟨t, x, q, y, hx, -, -, hparent, hy, hcase⟩ := haccounted i p hp
  obtain ⟨hxend, hyend⟩ := hall x (mem_of_getElem? hx) q hparent
  rcases hcase with hend | ⟨hend, hno⟩
  · simp [hend] at hxend
  · rcases hyend with hyend | hwaited
    · simp [hyend y hy] at hend
    · exact hno hwaited

/-- menu が一つ目の program の終わりを待ち、二つ目の program を走らせている列。 -/
theorem slots_accounted_program :
    ∃ (tr : List (Transition Life Op)) (u : Life), Run LifeStep boot tr u ∧
      (∀ x ∈ tr, EndsInOrder x.pre x.label) ∧
      u.threads.map Thread.pc = [.run, .zombie (some 7), .run] ∧
      (u.kernel.procs.processTable 1).isSome ∧ Accounted u ∧
      (AllEnded u → ∀ i, u.kernel.procs.processTable i = none) := by
  obtain ⟨u, hu⟩ : ∃ u, (exitThenWait 7 ++ [Op.spawn 0 plentiful, .act 2 .enterUser]).foldlM step boot =
    some u := ⟨_, rfl⟩
  have hrun := (Run.of_foldlM hu).1
  have hends : ∀ x ∈ Run.trace step boot (exitThenWait 7 ++ [Op.spawn 0 plentiful, .act 2 .enterUser]),
      EndsInOrder x.pre x.label := by decide +kernel
  refine ⟨_, u, hrun, hends, ?_, ?_, slots_accounted hrun hends⟩ <;> cases hu
  · rfl
  · rfl

/-- menu の program が子を作って先に終わり、menu がそれを待ち、その後で子が終わるまで。 -/
def orphanEnds : List Op :=
  [.spawn 0 plentiful, .act 1 .enterUser, .act 1 .callFork, .act 1 .advance, .fork 1 true plentiful,
    .act 1 (.callExit 0)] ++ replicate 7 (.act 1 .advance) ++
    .act 0 (.callWaitpid ⟨1, 0x80001000, 0⟩) :: replicate 6 (.act 0 .advance) ++
    .act 2 (.callExit 0) :: replicate 7 (.act 2 .advance)

/-- 親が先に終わった子が終わっても、その slot は空かない。 -/
theorem orphan_leaks :
    ∃ (tr : List (Transition Life Op)) (u : Life), Run LifeStep boot tr u ∧ AllEnded u ∧
      ∃ i, u.kernel.procs.processTable i ≠ none := by
  obtain ⟨u, hu⟩ : ∃ u, orphanEnds.foldlM step boot = some u := ⟨_, rfl⟩
  refine ⟨_, u, (Run.of_foldlM hu).1, ?_, 2, ?_⟩ <;> cases hu
  · decide +kernel
  · exact nofun

end Life

end Os161
