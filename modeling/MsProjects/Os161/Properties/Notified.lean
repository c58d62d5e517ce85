import MsProjects.Os161.Properties.Lifecycle

/-! # 終わった thread の知らせ -/

namespace Os161

open Infra List Function Kernel Thread

namespace Life

variable {s s' : Life} {op : Op}

variable {k k' : Kernel} {x x' : Thread} {a : Kernel.Act} {i : Fin procMax} {t : Nat}

/-! ## 終わり方 -/

/-- `exited` に書いた後である。 -/
def wroteExited : Pc → Bool
  | .exit _ .vExitsem | .threadExit (some _) | .zombie (some _) => true
  | _ => false

def signalled : Pc → Bool
  | .threadExit (some _) | .zombie (some _) => true
  | _ => false

/-- slot `i` の `exited` か `exitsem` を見て、status を取りに行くところである。 -/
def fetching (i : Fin procMax) : Pc → Bool
  | .wait _ (.readCode j) | .wait _ (.destroy j _) => j = i
  | _ => false

/-- slot `i` の status を取りに行く thread がいる。 -/
def Fetched (s : Life) (i : Fin procMax) : Prop :=
  ∃ (q : Nat) (y : Thread), s.threads[q]? = some y ∧ fetching i y.pc = true

/-! ## 一つの thread の step -/

section

variable (h : Kernel.Exec k x a x' k')

include h

theorem exited_exec {q : Process} (hq : k'.procs.processTable i = some q) :
    ∃ p, k.procs.processTable i = some p ∧ q.pid = p.pid ∧ (p.exited = true → q.exited = true) := by
  cases h with
  | setExitcode _ hp | setExited _ hp =>
    by_cases hi : i = x.ptableIndex
    · subst hi
      simp only [put, Procs.setSlot, update_self, Option.some.injEq] at hq
      subst hq
      exact ⟨_, hp, rfl, by simp⟩
    · simp only [put, Procs.setSlot, update_of_ne hi] at hq
      exact ⟨q, hq, rfl, id⟩
  | @destroy _ j =>
    by_cases hi : i = j
    · subst hi
      simp [put, record, Procs.setSlot] at hq
    · simp only [put, record, Procs.setSlot, update_of_ne hi] at hq
      exact ⟨q, hq, rfl, id⟩
  | _ => exact ⟨q, hq, rfl, id⟩

theorem exitsem_exec (hpos : 0 < k.exitsem i) : 0 < k'.exitsem i ∨ fetching i x'.pc = true := by
  cases h with
  | vExitsem =>
    left
    by_cases hi : i = x.ptableIndex
    · subst hi
      simp
    · simpa [update_of_ne hi] using hpos
  | @semP _ j =>
    by_cases hi : i = j
    · subst hi
      exact .inr (by simp [fetching, goto])
    · exact .inl (by simpa [update_of_ne hi] using hpos)
  | _ => exact .inl hpos

theorem fetching_exec (hfetch : fetching i x.pc = true) :
    fetching i x'.pc = true ∨ k'.procs.processTable i = none := by
  obtain rfl := h.act_eq fun hrun => by simp [hrun, fetching] at hfetch
  cases h with
  | readCode hpc => exact .inl (by simpa [hpc, fetching, goto] using hfetch)
  | destroy hpc =>
    obtain rfl : _ = i := by simpa [hpc, fetching] using hfetch
    exact .inr (by simp [put, record, Procs.setSlot])
  | @refuses _ stage _ hpc hstage =>
    cases stage <;> simp [hpc, fetching, mayRefuse] at hfetch hstage
  | forkP hpc | forkV hpc | vForkSem hpc | vExecvSem hpc | setExecvSem hpc | setExitcode hpc | setExited hpc
  | vExitsem hpc | threadExit hpc | lookup hpc | nullTest hpc | ppidTest hpc | sawExited hpc
  | mustWait hpc | semP hpc => simp [hpc, fetching] at hfetch

theorem wroteExited_exec (hwrote : wroteExited x'.pc = true) {p : Process}
    (hp : k'.procs.processTable x.ptableIndex = some p) :
    p.exited = true ∨ (wroteExited x.pc = true ∧ k'.procs = k.procs) := by
  cases h with
  | setExited =>
    simp only [put, Procs.setSlot, update_self, Option.some.injEq] at hp
    exact .inl (by rw [← hp])
  | vExitsem hpc => exact .inr ⟨by rw [hpc]; rfl, rfl⟩
  | @threadExit code hpc =>
    refine .inr ⟨?_, rfl⟩
    rw [hpc]
    cases code with
    | none => cases hwrote
    | some => rfl
  | enterUser hrun => simp [pc_of_inEntry hrun, wroteExited] at hwrote
  | _ => cases hwrote

theorem signalled_exec (hsignalled : signalled x'.pc = true) :
    0 < k'.exitsem x.ptableIndex ∨ (signalled x.pc = true ∧ k' = k) := by
  cases h with
  | vExitsem => exact .inl (by simp)
  | @threadExit code hpc =>
    refine .inr ⟨?_, rfl⟩
    rw [hpc]
    cases code with
    | none => cases hsignalled
    | some => rfl
  | enterUser hrun => simp [pc_of_inEntry hrun, signalled] at hsignalled
  | _ => cases hsignalled

end

/-! ## 不変量 -/

/-- 自分の slot に載っている thread について、`sys__exit` の進みに応じて `exited` と `exitsem` が決まる。 -/
structure Notified (s : Life) : Prop where
  exited : ∀ (t : Nat) (x : Thread) (p : Process), s.threads[t]? = some x → wroteExited x.pc = true →
    s.kernel.procs.processTable x.ptableIndex = some p → p.pid = x.pid → p.exited = true
  signalled : ∀ (t : Nat) (x : Thread), s.threads[t]? = some x → signalled x.pc = true → s.Holds x →
    0 < s.kernel.exitsem x.ptableIndex ∨ s.Fetched x.ptableIndex

theorem Notified.act (h : Notified s) (hx : s.threads[t]? = some x)
    (hexec : Kernel.Exec s.kernel x a x' k') : Notified ⟨k', s.threads.set t x'⟩ := by
  have hindex : x'.ptableIndex = x.ptableIndex := congrArg Ident.ptableIndex hexec.ident
  have hpid : x'.pid = x.pid := congrArg Ident.pid hexec.ident
  refine ⟨fun u z p hz hwrote hp hzpid => ?_, fun u z hz hsignalled hholds => ?_⟩
  · obtain ⟨p', hp', hpid', hmono⟩ := exited_exec hexec hp
    rcases (getElem?_set_iff hx).mp hz with ⟨rfl, rfl⟩ | ⟨-, hzold⟩
    · rw [hindex] at hp hp'
      rcases wroteExited_exec hexec hwrote hp with hexited | ⟨hwrote', -⟩
      · exact hexited
      · exact hmono (h.exited u x p' hx hwrote' hp' (by rw [← hpid', hzpid, hpid]))
    · exact hmono (h.exited u z p' hzold hwrote hp' (hpid'.symm.trans hzpid))
  · obtain ⟨p, hp, hzpid⟩ := hholds
    obtain ⟨p', hp', hpid', -⟩ := exited_exec hexec hp
    -- 前の知らせは、V の数か、status を取りに行く thread として残っている。
    have hkeep : ∀ {i}, k'.procs.processTable i ≠ none → 0 < s.kernel.exitsem i ∨ s.Fetched i →
        0 < k'.exitsem i ∨ Fetched ⟨k', s.threads.set t x'⟩ i := by
      rintro i hi (hpos | ⟨q, y, hy, hfetch⟩)
      · refine (exitsem_exec hexec hpos).imp_right fun hfetch => ⟨t, x', ?_, hfetch⟩
        exact (getElem?_set_iff hx).mpr (.inl ⟨rfl, rfl⟩)
      · by_cases hq : q = t
        · subst hq
          cases hx.symm.trans hy
          rcases fetching_exec hexec hfetch with hfetch' | hnone
          · exact .inr ⟨q, x', (getElem?_set_iff hx).mpr (.inl ⟨rfl, rfl⟩), hfetch'⟩
          · exact absurd hnone hi
        · exact .inr ⟨q, y, (getElem?_set_iff hx).mpr (.inr ⟨hq, hy⟩), hfetch⟩
    rcases (getElem?_set_iff hx).mp hz with ⟨rfl, rfl⟩ | ⟨-, hzold⟩
    · rw [hindex] at hp hp' ⊢
      rcases signalled_exec hexec hsignalled with hpos | ⟨hsignalled', -⟩
      · exact .inl hpos
      · refine hkeep (Option.ne_none_iff_exists'.mpr ⟨p, hp⟩) (h.signalled u x hx hsignalled' ⟨p', hp', ?_⟩)
        rw [← hpid', hzpid, hpid]
    · exact hkeep (Option.ne_none_iff_exists'.mpr ⟨p, hp⟩)
        (h.signalled u z hzold hsignalled ⟨p', hp', hpid'.symm.trans hzpid⟩)

theorem Notified.quiet (h : Notified s) (hquiet : Quiet s s') : Notified s' := by
  refine ⟨fun u z p hz hwrote hp hpid => ?_, fun u z hz hsignalled hholds => ?_⟩
  · rcases hquiet.idle_or_old hz with hidle | hzold
    · cases hpc : z.pc <;> simp [hpc, idle, wroteExited] at hidle hwrote
    · exact h.exited u z p hzold hwrote (hquiet.slot hzold hp hpid).1 hpid
  · rcases hquiet.idle_or_old hz with hidle | hzold
    · cases hpc : z.pc <;> simp [hpc, idle, Life.signalled] at hidle hsignalled
    · obtain ⟨p, hp, hpid⟩ := hholds
      obtain ⟨hpold, hsem⟩ := hquiet.slot hzold hp hpid
      rw [hsem]
      refine (h.signalled u z hzold hsignalled ⟨p, hpold, hpid⟩).imp_right ?_
      rintro ⟨q, y, hy, hfetch⟩
      refine ⟨q, y, hquiet.keeps hy ?_, hfetch⟩
      cases hpc : y.pc <;> simp [hpc, idle, fetching] at hfetch ⊢

theorem Notified.step (h : Notified s) (hlinked : Linked s) (hstep : Step s op s') : Notified s' := by
  rcases hstep.act_or_quiet hlinked with ⟨t, a, x, x', k', -, hx, hexec, rfl⟩ | hquiet
  · exact h.act hx hexec
  · exact h.quiet hquiet

/-! ## `sys__exit` を通らない終わり方 -/

/-- entry の関数から戻る step ではない。 -/
def NoReturn (op : Op) : Prop := ∀ t, op ≠ .act t .entryReturns

/-- `sys__exit` を通らずに終わる、または終わった。 -/
def silent : Pc → Bool
  | .threadExit none | .zombie none => true
  | _ => false

/-- どの thread も、終わるときは `sys__exit` を通る。 -/
def NoSilent (s : Life) : Prop := ∀ (t : Nat) (x : Thread), s.threads[t]? = some x → silent x.pc = false

theorem silent_exec (h : Kernel.Exec k x a x' k') (ha : a ≠ .entryReturns)
    (hx : silent x.pc = false) : silent x'.pc = false := by
  cases h with
  | entryReturns => exact absurd rfl ha
  | enterUser => exact hx
  | @threadExit code hpc =>
    rw [hpc] at hx
    cases code with
    | none => cases hx
    | some => rfl
  | _ => rfl

theorem NoSilent.step (h : NoSilent s) (hlinked : Linked s) (hno : NoReturn op) (hstep : Step s op s') :
    NoSilent s' := by
  intro u z hz
  rcases hstep.act_or_quiet hlinked with ⟨t, a, x, x', k', rfl, hx, hexec, rfl⟩ | hquiet
  · rcases (getElem?_set_iff hx).mp hz with ⟨-, rfl⟩ | ⟨-, hzold⟩
    · refine silent_exec hexec ?_ (h t x hx)
      rintro rfl
      exact hno t rfl
    · exact h u z hzold
  · rcases hquiet.idle_or_old hz with hidle | hzold
    · cases hpc : z.pc <;> simp [hpc, idle, silent] at hidle ⊢
    · exact h u z hzold

/-! ## 起動からの列 -/

structure NotifiedInv (s : Life) : Prop where
  base : Base s
  notified : Notified s
  noSilent : NoSilent s

theorem notified_boot : Notified boot where
  exited _ _ _ _ _ hp := nomatch hp
  signalled _ _ _ _ := fun ⟨_, hp, _⟩ => (nomatch hp)

theorem noSilent_boot : NoSilent boot := by
  intro t x hx
  rw [boot_thread hx]
  rfl

theorem NotifiedInv.step (h : NotifiedInv s) (hno : NoReturn op) (hstep : LifeStep s op s') :
    NotifiedInv s' := by
  have hstep := step_cases hstep
  exact ⟨h.base.step hstep, h.notified.step h.base.linked hstep, h.noSilent.step h.base.linked hno hstep⟩

theorem accepted_of_fetching {pc : Pc} (h : fetching i pc = true) :
    ∃ call, accepted pc = some (call, i) := by
  unfold fetching at h
  split at h <;> simp_all [accepted]

theorem exitsem_pos (hbase : Base s) (hnotified : Notified s) {q : Nat} {y : Thread}
    {call : WaitCall} (hy : s.threads[q]? = some y) (hpc : y.pc = .wait call (.semP i))
    (hx : s.threads[t]? = some x) (hpid : x.pid = call.pid) (hsignalled : signalled x.pc = true) :
    0 < s.kernel.exitsem i := by
  obtain ⟨p, hp, hppid, hcall⟩ := (hbase.waiting q y hy).after call i (by rw [hpc]; rfl)
  obtain ⟨rfl, -⟩ := hbase.linked.of_pid hx hp (hcall.trans hpid.symm)
  rcases hnotified.signalled t x hx hsignalled ⟨p, hp, hcall.trans hpid.symm⟩ with hpos | ⟨r, z, hz, hfetch⟩
  · exact hpos
  · -- status を取りに行けるのは、待っている親自身だけである。
    obtain ⟨call', haccepted⟩ := accepted_of_fetching hfetch
    obtain ⟨p', hp', hppid', -⟩ := (hbase.waiting r z hz).after call' _ haccepted
    cases hp.symm.trans hp'
    obtain rfl := hbase.linked.inj hz hy (hppid'.symm.trans hppid)
    cases hz.symm.trans hy
    simp [hpc, fetching] at hfetch

theorem semP_enabled (hbase : Base s) (hnotified : Notified s) {q : Nat} {y : Thread}
    {call : WaitCall} (hy : s.threads[q]? = some y) (hpc : y.pc = .wait call (.semP i))
    (hx : s.threads[t]? = some x) (hpid : x.pid = call.pid) (hsignalled : signalled x.pc = true) :
    ∃ s', LifeStep s (.act q .advance) s' := by
  obtain ⟨p, hp, -⟩ := (hbase.waiting q y hy).after call i (by rw [hpc]; rfl)
  have hpos := exitsem_pos hbase hnotified hy hpc hx hpid hsignalled
  simp only [LifeStep, step, hy, exec, advance, hpc, sysWaitpid, hp,
    if_neg (Nat.pos_iff_ne_zero.mp hpos), Option.map_some, Option.some.injEq, exists_eq']

/--
**entry の関数から戻る thread が無い列では、作られて終わった thread の slot は、もう空いているか、`exited` が真で、
`exitsem` に V がされている。よって、終わった子を `P(exitsem)` で待つ親は動ける。**
-/
theorem ended_notified {tr : List (Transition Life Op)} {u : Life} (hrun : Run LifeStep boot tr u)
    (hno : ∀ x ∈ tr, NoReturn x.label) :
    (∀ (t : Nat) (x : Thread), u.threads[t]? = some x → x.parent ≠ none → x.terminated = true →
      ¬ u.Holds x ∨ ∃ p, u.kernel.procs.processTable x.ptableIndex = some p ∧ p.pid = x.pid ∧
        p.exited = true ∧ (0 < u.kernel.exitsem x.ptableIndex ∨ u.Fetched x.ptableIndex)) ∧
      ∀ (q t : Nat) (y x : Thread) (call : WaitCall) (i : Fin procMax), u.threads[q]? = some y →
        y.pc = .wait call (.semP i) → u.threads[t]? = some x → x.pid = call.pid → x.terminated = true →
          ∃ u', LifeStep u (.act q .advance) u' := by
  have hinv : NotifiedInv u :=
    (hrun.invariant (C := fun _ op => NoReturn op) (fun hp hc hq => hp.step hc hq) hno
      ⟨base_boot, notified_boot, noSilent_boot⟩).1
  have hended : ∀ {t : Nat} {x : Thread}, u.threads[t]? = some x → x.terminated = true →
      signalled x.pc = true ∧ wroteExited x.pc = true := by
    intro t x hx hend
    have hsilent := hinv.noSilent t x hx
    unfold terminated at hend
    split at hend
    · rename_i code hpc
      rw [hpc] at hsilent ⊢
      cases code with
      | none => cases hsilent
      | some => exact ⟨rfl, rfl⟩
    · cases hend
  refine ⟨fun t x hx _ hend => ?_, fun q t y x call i hy hpc hx hpid hend => ?_⟩
  · obtain ⟨hsignalled, hwrote⟩ := hended hx hend
    by_cases hholds : u.Holds x
    · have hnotified := hinv.notified.signalled t x hx hsignalled hholds
      obtain ⟨p, hp, hpid⟩ := hholds
      exact .inr ⟨p, hp, hpid, hinv.notified.exited t x p hx hwrote hp hpid, hnotified⟩
    · exact .inl hholds
  · exact semP_enabled hinv.base hinv.notified hy hpc hx hpid (hended hx hend).1

/-- menu が `P(exitsem)` で待つ間に、program が `sys__exit` を通って終わるまで。 -/
def menuWaits : List Op :=
  [.spawn 0 plentiful, .act 1 .enterUser, .act 0 (.callWaitpid ⟨1, 0x80001000, 0⟩)] ++
    replicate 4 (.act 0 .advance) ++ .act 1 (.callExit 7) :: replicate 7 (.act 1 .advance)

/-- menu が `P(exitsem)` で待つ間に、program が `sys__exit` を通って終わる列。 -/
theorem ended_notified_menu :
    ∃ (tr : List (Transition Life Op)) (u : Life), Run LifeStep boot tr u ∧ (∀ x ∈ tr, NoReturn x.label) ∧
      u.threads.map pc = [.wait ⟨1, 0x80001000, 0⟩ (.semP 1), .zombie (some 7)] ∧
      ∃ u', LifeStep u (.act 0 .advance) u' := by
  obtain ⟨u, hu⟩ : ∃ u, menuWaits.foldlM step boot = some u := ⟨_, rfl⟩
  obtain ⟨hrun, hlabels⟩ := Run.of_foldlM hu
  have hno : ∀ x ∈ Run.trace step boot menuWaits, NoReturn x.label := by
    have hall : ∀ op ∈ menuWaits, NoReturn op := by
      simp [menuWaits, NoReturn]
    intro x hx
    exact hall _ (hlabels ▸ mem_map_of_mem hx)
  obtain ⟨y, x, hthreads, hy, hpid, hx⟩ : ∃ y x, u.threads = [y, x] ∧
      y.pc = .wait ⟨1, 0x80001000, 0⟩ (.semP 1) ∧ x.pid = 1 ∧ x.pc = .zombie (some 7) := by
    cases hu
    exact ⟨_, _, rfl, rfl, rfl, rfl⟩
  refine ⟨_, u, hrun, hno, by simp [hthreads, hy, hx], ?_⟩
  exact (ended_notified hrun hno).2 0 1 y x _ 1 (by simp [hthreads]) hy (by simp [hthreads]) hpid
    (by simp [terminated, hx])

/-- menu が待つ間に、`runprogram` の失敗した program の thread が終わるまで。 -/
def programFails : List Op :=
  [.spawn 0 plentiful, .act 1 .entryReturns, .act 1 .advance, .act 0 (.callWaitpid ⟨1, 0x80001000, 0⟩)] ++
    replicate 4 (.act 0 .advance)

/--
`runprogram` が失敗すると、thread は終わっているのに slot の `exited` は偽、`exitsem` は 0 のままで、menu は
`P(exitsem)` で待ち、系のどの step も無い。
-/
theorem menu_stuck :
    ∃ (tr : List (Transition Life Op)) (u : Life), Run LifeStep boot tr u ∧
      u.threads.map pc = [.wait ⟨1, 0x80001000, 0⟩ (.semP 1), .zombie none] ∧
      (∃ p, u.kernel.procs.processTable 1 = some p ∧ p.pid = 1 ∧ p.exited = false) ∧
      u.kernel.exitsem 1 = 0 ∧ ∀ op, u.step op = none := by
  obtain ⟨u, hu⟩ : ∃ u, programFails.foldlM step boot = some u := ⟨_, rfl⟩
  refine ⟨_, u, (Run.of_foldlM hu).1, ?_, ?_, ?_, fun op => ?_⟩ <;> cases hu
  · rfl
  · exact ⟨_, rfl, rfl, rfl⟩
  · rfl
  · cases op with
    | act t a =>
      match t with
      | 0 => cases a <;> rfl
      | 1 => cases a <;> rfl
      | t + 2 => rfl
    | spawn t env | fork t kmalloc env =>
      match t with
      | 0 => rfl
      | 1 => rfl
      | t + 2 => rfl

end Life

end Os161

