import MsProjects.Os161.Properties.Calls
import MsProjects.Os161.Properties.Notified

/-! # 終了する子と待つ親 -/

namespace Os161

open Infra List Function Kernel

open Procs (setSlot)

namespace Life

variable {s s' : Life} {op : Op} {k k' : Kernel} {x x' : Thread} {a : Kernel.Act}

variable {i : Fin procMax} {q p : Process} {pc : Pc} {u : Nat} {z : Thread} {call : WaitCall}
  {status code : Int32} {l : List Thread}

/-! ## 位置の分類 -/

/-- `exitcode` に書いた後なら、その値。 -/
def wroteCode : Pc → Option Int32
  | .exit code .setExited | .exit code .vExitsem => some code
  | .threadExit code | .zombie code => code
  | _ => none

/-- `V(exitsem)` の後なら、`sys__exit` の引数。 -/
def ended : Pc → Option Int32
  | .threadExit code | .zombie code => code
  | _ => none

/-- 自分の slot の `struct process` に書くところである。 -/
def stores : Pc → Bool
  | .exit _ .setExitcode | .exit _ .setExited => true
  | _ => false

/-- `V(exitsem)` をするところである。 -/
def signals : Pc → Bool
  | .exit _ .vExitsem => true
  | _ => false

/-- `destroy_process` を呼ぶところである。 -/
def destroying : Pc → Option (WaitCall × Fin procMax)
  | .wait call (.destroy i _) => some (call, i)
  | _ => none

def fetchedStatus : Pc → Option Int32
  | .wait _ (.destroy _ status) => some status
  | _ => none

/-- `sys__exit` に入った後である。 -/
def leaving : Pc → Bool
  | .exit _ _ | .threadExit _ | .zombie _ => true
  | _ => false

/-- slot を空にするとき、そこに載った子は `exited` に書いて `V(exitsem)` をする前ではない。 -/
def Settled (s : Life) (op : Op) : Prop :=
  op.OnAdvance fun q => ∀ y ∈ s.threads[q]?, ∀ c ∈ destroying y.pc, ∀ x ∈ s.threads,
    x.ptableIndex = c.2 → x.pid = c.1.pid → signals x.pc = false

instance (s : Life) (op : Op) : Decidable (s.Settled op) := by
  unfold Settled
  infer_instance

/-! ## menu -/

/-- 起動時からある thread は、`sys__exit` に入らない。 -/
def MenuOk (s : Life) : Prop :=
  ∀ (t : Nat) (x : Thread), s.threads[t]? = some x → x.parent = none →
    x.origin = .boot ∧ x.user = false ∧ leaving x.pc = false

theorem menuOk_boot : MenuOk boot := by
  intro t x hx _
  rw [boot_thread hx]
  exact ⟨rfl, rfl, rfl⟩

theorem leaving_exec (h : Kernel.Exec k x a x' k') (horigin : x.origin = .boot) (huser : x.user = false)
    (hleaving : leaving x.pc = false) : x'.user = false ∧ leaving x'.pc = false := by
  cases h with
  | enterUser hentry | entryReturns hentry => simp [Thread.inEntry, horigin] at hentry
  | callExit _ hcall => simp [Thread.inUser, huser] at hcall
  | vForkSem hpc | vExecvSem hpc | setExecvSem hpc | setExitcode hpc | setExited hpc | vExitsem hpc
  | threadExit hpc => simp [hpc, leaving] at hleaving
  | _ => exact ⟨huser, rfl⟩

theorem MenuOk.step (h : MenuOk s) (hstep : Step s op s') : MenuOk s' := by
  intro u z hz hparent
  cases hstep with
  | @act t a x x' k' hx hexec =>
    rcases (getElem?_set_iff hx).mp hz with ⟨rfl, rfl⟩ | ⟨-, hzold⟩
    · rw [hexec.ident] at hparent
      obtain ⟨horigin, huser, hleaving⟩ := h u x hx hparent
      exact ⟨by rw [hexec.ident, horigin], leaving_exec hexec horigin huser hleaving⟩
    · exact h u z hzold hparent
  | @born _ t x origin i hx =>
    rcases getElem?_concat_iff.mp hz with hz | ⟨-, rfl⟩
    · rcases (getElem?_set_iff hx).mp hz with ⟨rfl, rfl⟩ | ⟨-, hzold⟩
      · obtain ⟨horigin, huser, -⟩ := h u x hx hparent
        exact ⟨horigin, huser, rfl⟩
      · exact h u z hzold hparent
    · cases hparent
  | @refused _ t x pc _ hx hpc =>
    rcases (getElem?_set_iff hx).mp hz with ⟨rfl, rfl⟩ | ⟨-, hzold⟩
    · obtain ⟨horigin, huser, -⟩ := h u x hx hparent
      refine ⟨horigin, huser, ?_⟩
      rcases hpc with ⟨-, rfl⟩ | ⟨-, rfl⟩ <;> rfl
    · exact h u z hzold hparent

/-! ## 一つの thread の step -/

theorem table_exec (h : Kernel.Exec k x a x' k') (hq : k'.procs.processTable i = some q)
    (hown : stores x.pc = true → i ≠ x.ptableIndex) : k.procs.processTable i = some q := by
  cases h with
  | setExitcode hpc | setExited hpc =>
    have hi := hown (by rw [hpc]; rfl)
    simpa [put, setSlot, update_of_ne hi] using hq
  | @destroy _ j =>
    by_cases hi : i = j
    · subst hi
      simp [put, record, setSlot] at hq
    · simpa [put, record, setSlot, update_of_ne hi] using hq
  | _ => exact hq

theorem exitsem_le_exec (h : Kernel.Exec k x a x' k')
    (hown : signals x.pc = true → i ≠ x.ptableIndex) : k'.exitsem i ≤ k.exitsem i := by
  cases h with
  | vExitsem hpc =>
    have hi := hown (by rw [hpc]; rfl)
    simp [update_of_ne hi]
  | @semP _ j =>
    by_cases hi : i = j
    · subst hi
      simp
    · simp [update_of_ne hi]
  | _ => exact le_rfl

/-- process の field と `exitsem` は、thread の `sys__exit` の進みのとおりである。 -/
structure Tracks (p : Process) (sem : Nat) (pc : Pc) : Prop where
  exited : p.exited = true → wroteExited pc = true
  exitcode : ∀ code ∈ wroteCode pc, p.exitcode = code
  signalled : 0 < sem → signalled pc = true

theorem Tracks.plain {sem sem' : Nat} {pc' : Pc} (h : Tracks p sem pc)
    (hexited : wroteExited pc = false) (hsignalled : Life.signalled pc = false)
    (hcode : wroteCode pc' = none) (hsem : sem' ≤ sem) : Tracks p sem' pc' where
  exited hp := by simp [h.exited hp] at hexited
  exitcode code hmem := by simp [hcode] at hmem
  signalled hpos := by simp [h.signalled (by omega)] at hsignalled

theorem tracks_exec (h : Kernel.Exec k x a x' k')
    (hq : k'.procs.processTable x.ptableIndex = some q)
    (htracks : ∀ p, k.procs.processTable x.ptableIndex = some p → p.pid = q.pid →
      Tracks p (k.exitsem x.ptableIndex) x.pc) :
    Tracks q (k'.exitsem x.ptableIndex) x'.pc := by
  cases h with
  | @setExitcode code p hpc hp =>
    simp only [put, setSlot, update_self, Option.some.injEq] at hq
    subst hq
    have hold := htracks p hp rfl
    rw [hpc] at hold
    refine ⟨fun hexited => ?_, fun c hc => ?_, fun hpos => ?_⟩
    · cases hold.exited hexited
    · cases hc
      rfl
    · cases hold.signalled hpos
  | @setExited code p hpc hp =>
    simp only [put, setSlot, update_self, Option.some.injEq] at hq
    subst hq
    have hold := htracks p hp rfl
    rw [hpc] at hold
    refine ⟨fun _ => rfl, hold.exitcode, fun hpos => ?_⟩
    cases hold.signalled hpos
  | vExitsem hpc =>
    have hold := htracks q hq rfl
    rw [hpc] at hold
    exact ⟨fun _ => rfl, hold.exitcode, fun _ => rfl⟩
  | @threadExit code hpc =>
    have hold := htracks q hq rfl
    rw [hpc] at hold
    cases code with
    | none => exact hold.plain rfl rfl rfl le_rfl
    | some code => exact ⟨fun _ => rfl, hold.exitcode, fun _ => rfl⟩
  | enterUser => exact htracks q hq rfl
  | entryReturns hrun =>
    have hold := htracks q hq rfl
    rw [Thread.pc_of_inEntry hrun] at hold
    exact hold.plain rfl rfl rfl le_rfl
  | callFork hrun | callExit _ hrun =>
    have hold := htracks q hq rfl
    rw [Thread.pc_of_inUser hrun] at hold
    exact hold.plain rfl rfl rfl le_rfl
  | callWaitpid _ hrun =>
    have hold := htracks q hq rfl
    rw [Thread.pc_of_mayCall hrun] at hold
    exact hold.plain rfl rfl rfl le_rfl
  | @semP _ i hpc hpos =>
    have hold := htracks q hq rfl
    rw [hpc] at hold
    refine hold.plain rfl rfl rfl ?_
    exact exitsem_le_exec (.semP hpc hpos) (by simp [hpc, signals])
  | destroy hpc hp =>
    have hold := htracks q (table_exec (.destroy hpc hp) hq (by simp [hpc, stores])) rfl
    rw [hpc] at hold
    exact hold.plain rfl rfl rfl le_rfl
  | forkP hpc | forkV hpc | vForkSem hpc | vExecvSem hpc | setExecvSem hpc | refuses hpc | lookup hpc
  | nullTest hpc | ppidTest hpc | sawExited hpc | mustWait hpc | readCode hpc =>
    have hold := htracks q hq rfl
    rw [hpc] at hold
    exact hold.plain rfl rfl rfl le_rfl

theorem signalled_mono_exec (h : Kernel.Exec k x a x' k') (hsignalled : signalled x.pc = true) :
    signalled x'.pc = true := by
  obtain rfl := h.act_eq fun hrun => by simp [hrun, signalled] at hsignalled
  cases h with
  | @threadExit code hpc =>
    rw [hpc] at hsignalled
    cases code with
    | none => cases hsignalled
    | some => rfl
  | forkP hpc | forkV hpc | vForkSem hpc | vExecvSem hpc | setExecvSem hpc | setExitcode hpc | setExited hpc
  | vExitsem hpc | refuses hpc | lookup hpc | nullTest hpc | ppidTest hpc | sawExited hpc | mustWait hpc
  | semP hpc | readCode hpc | destroy hpc => simp [hpc, signalled] at hsignalled

/-! ## slot の中身 -/

/-- `V(exitsem)` の前の thread は自分の slot に載っていて、slot の中身は `sys__exit` の進みのとおりである。 -/
structure Honest (s : Life) : Prop where
  present : ∀ (t : Nat) (x : Thread), s.threads[t]? = some x → x.parent ≠ none → signalled x.pc = false →
    s.Holds x
  tracks : ∀ (t : Nat) (x : Thread) (p : Process), s.threads[t]? = some x →
    s.kernel.procs.processTable x.ptableIndex = some p → p.pid = x.pid →
      Tracks p (s.kernel.exitsem x.ptableIndex) x.pc
  fetched : ∀ (q : Nat) (y : Thread) (i : Fin procMax) (p : Process), s.threads[q]? = some y →
    fetching i y.pc = true → s.kernel.procs.processTable i = some p →
      p.exited = true ∧ ∀ status ∈ fetchedStatus y.pc, status = mkwaitExit p.exitcode

theorem honest_boot : Honest boot where
  present t x hx hparent := by
    rw [boot_thread hx] at hparent
    exact absurd rfl hparent
  tracks _ _ _ _ hp := nomatch hp
  fetched _ _ _ _ _ _ hp := nomatch hp

/-- どの列でも成り立つ不変量と、slot の中身。 -/
structure HonestInv (s : Life) : Prop where
  base : Base s
  notified : Notified s
  menu : MenuOk s
  honest : Honest s

variable {t : Nat}

theorem HonestInv.holds_of_leaving (h : HonestInv s) (hx : s.threads[t]? = some x)
    (hleaving : leaving x.pc = true) (hsignalled : signalled x.pc = false) : s.Holds x := by
  refine h.honest.present t x hx (fun hparent => ?_) hsignalled
  simp [(h.menu t x hx hparent).2.2] at hleaving

theorem HonestInv.slot_ne (h : HonestInv s) (hx : s.threads[t]? = some x)
    (hleaving : leaving x.pc = true) (hsignalled : signalled x.pc = false)
    (hz : s.threads[u]? = some z) (hne : u ≠ t)
    (hp : s.kernel.procs.processTable z.ptableIndex = some p) (hpid : p.pid = z.pid) :
    z.ptableIndex ≠ x.ptableIndex := by
  intro heq
  obtain ⟨p', hp', hpid'⟩ := h.holds_of_leaving hx hleaving hsignalled
  rw [← heq, hp] at hp'
  cases hp'
  exact hne (h.base.linked.inj hz hx (hpid.symm.trans hpid'))

theorem leaving_of_stores (h : stores pc = true) :
    leaving pc = true ∧ signalled pc = false ∧ wroteExited pc = false := by
  unfold stores at h
  split at h
  · exact ⟨rfl, rfl, rfl⟩
  · exact ⟨rfl, rfl, rfl⟩
  · cases h

theorem leaving_of_signals (h : signals pc = true) : leaving pc = true ∧ signalled pc = false := by
  unfold signals at h
  split at h
  · exact ⟨rfl, rfl⟩
  · cases h

theorem HonestInv.destroyer (h : HonestInv s) (hx : s.threads[t]? = some x)
    (hpc : x.pc = .wait call (.destroy i status)) (hp : s.kernel.procs.processTable i = some p) :
    p.ppid = x.pid ∧ p.pid = call.pid ∧ p.exited = true := by
  obtain ⟨p', hp', hppid, hpid⟩ := (h.base.waiting t x hx).after call i (by rw [hpc]; rfl)
  cases hp.symm.trans hp'
  exact ⟨hppid, hpid, (h.honest.fetched t x i p hx (by simp [hpc, fetching]) hp).1⟩

theorem HonestInv.present_act (h : HonestInv s) (hsettled : s.Settled (.act t a))
    (hx : s.threads[t]? = some x) (hexec : Kernel.Exec s.kernel x a x' k')
    (hz : (s.threads.set t x')[u]? = some z) (hparent : z.parent ≠ none)
    (hbefore : signalled z.pc = false) : Holds ⟨k', s.threads.set t x'⟩ z := by
  -- 前の状態の同じ thread を `w` とする。
  obtain ⟨w, hw, hident, hbefore'⟩ : ∃ w, s.threads[u]? = some w ∧ z.toIdent = w.toIdent ∧
      signalled w.pc = false := by
    rcases (getElem?_set_iff hx).mp hz with ⟨rfl, rfl⟩ | ⟨-, hzold⟩
    · refine ⟨x, hx, hexec.ident, ?_⟩
      rw [Bool.eq_false_iff] at hbefore ⊢
      exact fun hsignalled => hbefore (signalled_mono_exec hexec hsignalled)
    · exact ⟨z, hzold, rfl, hbefore⟩
  rw [hident] at hparent
  obtain ⟨p, hp, hpid⟩ := h.honest.present u w hw hparent hbefore'
  have hholds : Holds ⟨k', s.threads.set t x'⟩ w := by
    rcases hexec.stays hp with ⟨q, hq, hqpid, -⟩ | ⟨call, status, hpc⟩
    · exact ⟨q, hq, hqpid.trans hpid⟩
    · -- 空にするのは親で、そのとき子は `exited` に書いた後である。
      obtain ⟨-, hcall, hexited⟩ := h.destroyer hx hpc hp
      have hwrote := (h.honest.tracks u w p hw hp hpid).exited hexited
      obtain rfl := hexec.act_eq (by simp [hpc])
      have hnot := hsettled x hx (call, w.ptableIndex) (by rw [hpc]; rfl) w (mem_of_getElem? hw) rfl
        (hpid.symm.trans hcall)
      cases hwpc : w.pc with
      | exit code stage => cases stage <;> simp [hwpc, wroteExited, signals] at hwrote hnot
      | threadExit code | zombie code => cases code <;>
        simp [hwpc, wroteExited, signalled] at hwrote hbefore'
      | _ => simp [hwpc, wroteExited] at hwrote
  exact (holds_congr hident).mpr hholds

theorem HonestInv.tracks_act (h : HonestInv s) (hx : s.threads[t]? = some x)
    (hexec : Kernel.Exec s.kernel x a x' k') (hz : (s.threads.set t x')[u]? = some z)
    (hq : k'.procs.processTable z.ptableIndex = some q) (hpid : q.pid = z.pid) :
    Tracks q (k'.exitsem z.ptableIndex) z.pc := by
  rcases (getElem?_set_iff hx).mp hz with ⟨rfl, rfl⟩ | ⟨hne, hzold⟩
  · rw [hexec.ident] at hq hpid ⊢
    exact tracks_exec hexec hq fun p hp heq => h.honest.tracks u x p hx hp (heq.trans hpid)
  · obtain ⟨p, hp, hqpid, -⟩ := hexec.inherits hq
    have hslot := fun hleaving hsignalled =>
      h.slot_ne hx hleaving hsignalled hzold hne hp (hqpid.symm.trans hpid)
    have hold := h.honest.tracks u z q hzold
      (table_exec hexec hq fun hstores => hslot (leaving_of_stores hstores).1
        (leaving_of_stores hstores).2.1) hpid
    have hle := exitsem_le_exec hexec (i := z.ptableIndex)
      fun hsignals => hslot (leaving_of_signals hsignals).1 (leaving_of_signals hsignals).2
    exact ⟨hold.exited, hold.exitcode, fun hpos => hold.signalled (by omega)⟩

theorem HonestInv.exited_of_exitsem (h : HonestInv s) (hp : s.kernel.procs.processTable i = some p)
    (hpos : s.kernel.exitsem i ≠ 0) : p.exited = true := by
  obtain ⟨u, z, -, -, hz, hzpid, rfl, -⟩ := h.base.linked.exists_owner hp
  have hsignalled := (h.honest.tracks u z p hz hp hzpid.symm).signalled (Nat.pos_of_ne_zero hpos)
  refine h.notified.exited u z p hz ?_ hp hzpid.symm
  unfold signalled at hsignalled
  split at hsignalled
  · rename_i hpc
    rw [hpc]
    rfl
  · rename_i hpc
    rw [hpc]
    rfl
  · cases hsignalled

theorem HonestInv.fetched_act (h : HonestInv s) (hx : s.threads[t]? = some x)
    (hexec : Kernel.Exec s.kernel x a x' k') {q : Nat} {y : Thread}
    (hy : (s.threads.set t x')[q]? = some y) (hfetch : fetching i y.pc = true)
    (hp : k'.procs.processTable i = some p) :
    p.exited = true ∧ ∀ status ∈ fetchedStatus y.pc, status = mkwaitExit p.exitcode := by
  rcases (getElem?_set_iff hx).mp hy with ⟨rfl, rfl⟩ | ⟨-, hyold⟩
  · cases hexec with
    | sawExited hpc hp' hexited =>
      obtain rfl : _ = i := by simpa [fetching, Thread.goto] using hfetch
      cases hp.symm.trans hp'
      refine ⟨hexited, fun _ hstatus => ?_⟩
      cases hstatus
    | semP hpc hpos =>
      obtain rfl : _ = i := by simpa [fetching, Thread.goto] using hfetch
      refine ⟨h.exited_of_exitsem hp hpos, fun _ hstatus => ?_⟩
      cases hstatus
    | readCode hpc hp' =>
      obtain rfl : _ = i := by simpa [fetching, Thread.goto] using hfetch
      cases hp.symm.trans hp'
      refine ⟨(h.honest.fetched q x _ p hx (by simp [hpc, fetching]) hp).1, fun status hstatus => ?_⟩
      cases hstatus
      rfl
    | enterUser hrun => simp [Thread.pc_of_inEntry hrun, fetching] at hfetch
    | _ => cases hfetch
  · -- `exited` の後の process に書く thread は無い。
    refine h.honest.fetched q y i p hyold hfetch (table_exec hexec hp fun hstores heq => ?_)
    obtain ⟨hleaving, hsignalled, hwrote⟩ := leaving_of_stores hstores
    obtain ⟨p', hp', hpid'⟩ := h.holds_of_leaving hx hleaving hsignalled
    have hexited := (h.honest.fetched q y i p' hyold hfetch (heq ▸ hp')).1
    simp [(h.honest.tracks t x p' hx hp' hpid').exited hexited] at hwrote

theorem plain_of_idle (h : idle pc = true) :
    wroteExited pc = false ∧ signalled pc = false ∧ wroteCode pc = none := by
  cases pc <;> simp [idle, wroteExited, signalled, wroteCode] at h ⊢

theorem HonestInv.quiet (h : HonestInv s) (hquiet : Quiet s s') : Honest s' := by
  have hholds : ∀ {w}, s.Holds w → s'.Holds w := fun ⟨p, hp, hpid⟩ => ⟨p, hquiet.occupied hp, hpid⟩
  refine ⟨fun u z hz hparent hbefore => ?_, fun u z p hz hp hpid => ?_, fun q y i p hy hfetch hp => ?_⟩
  · rcases hquiet.get hz with hzold | ⟨-, ⟨w, hw, hident, hidle⟩ | hfresh⟩
    · exact hholds (h.honest.present u z hzold hparent hbefore)
    · rw [hident] at hparent
      exact (holds_congr hident).mpr (hholds (h.honest.present u w hw hparent (plain_of_idle hidle).2.1))
    · obtain ⟨ppid, hslot⟩ := hfresh.slot
      exact ⟨_, hslot, rfl⟩
  · rcases hquiet.get hz with hzold | ⟨hidle', ⟨w, hw, hident, hidle⟩ | hfresh⟩
    · obtain ⟨hpold, hsem⟩ := hquiet.slot hzold hp hpid
      rw [hsem]
      exact h.honest.tracks u z p hzold hpold hpid
    · rw [hident] at hp hpid ⊢
      obtain ⟨hpold, hsem⟩ := hquiet.slot hw hp hpid
      rw [hsem]
      obtain ⟨hexited, hsignalled, -⟩ := plain_of_idle hidle
      exact (h.honest.tracks u w p hw hpold hpid).plain hexited hsignalled (plain_of_idle hidle').2.2 le_rfl
    · obtain ⟨ppid, hslot⟩ := hfresh.slot
      cases hp.symm.trans hslot
      refine ⟨fun hexited => ?_, fun code hcode => ?_, fun hpos => ?_⟩
      · cases hexited
      · simp [(plain_of_idle hidle').2.2] at hcode
      · simp [hfresh.exitsem] at hpos
  · rcases hquiet.idle_or_old hy with hidle | hyold
    · cases hpc : y.pc <;> simp [hpc, idle, fetching] at hidle hfetch
    · -- 待っている slot には前から子が載っている。
      obtain ⟨call, haccepted⟩ := accepted_of_fetching hfetch
      obtain ⟨p', hp', -⟩ := (h.base.waiting q y hyold).after call i haccepted
      cases hp.symm.trans (hquiet.occupied hp')
      exact h.honest.fetched q y i p hyold hfetch hp'

theorem HonestInv.step (h : HonestInv s) (hsettled : s.Settled op) (hstep : LifeStep s op s') :
    HonestInv s' := by
  have hstep := step_cases hstep
  refine ⟨h.base.step hstep, h.notified.step h.base.linked hstep, h.menu.step hstep, ?_⟩
  rcases hstep.act_or_quiet h.base.linked with ⟨t, a, x, x', k', rfl, hx, hexec, rfl⟩ | hquiet
  · exact ⟨fun _ _ => h.present_act hsettled hx hexec, fun _ _ _ => h.tracks_act hx hexec,
      fun _ _ _ _ => h.fetched_act hx hexec⟩
  · exact h.quiet hquiet

/-! ## 親の得た status -/

/-- pid の status を得た呼び出しの数。 -/
def obtained (s : Life) (pid : Int) : Nat :=
  s.kernel.log.countP fun r => obtains r.result && r.call.pid = pid

/-- pid の子の status を、その親が得た結果である。 -/
def Correct (s : Life) (r : Returned) : Prop :=
  ∃ (t : Nat) (x : Thread) (q : Nat) (y : Thread) (code : Int32), s.threads[t]? = some x ∧
    x.pid = r.call.pid ∧ x.parent = some q ∧ s.threads[q]? = some y ∧ y.pid = r.caller ∧
      ended x.pc = some code ∧ r.result = .ok ⟨x.pid, some (mkwaitExit code)⟩

/-- 載っている子の status はまだ得ておらず、載っていない子の status は一回だけ得ている。 -/
structure Logged (s : Life) : Prop where
  once : ∀ (t : Nat) (x : Thread), s.threads[t]? = some x → x.parent ≠ none →
    s.obtained x.pid = if s.Holds x then 0 else 1
  results : ∀ r ∈ s.kernel.log, obtains r.result = true → s.Correct r

theorem logged_boot : Logged boot where
  once t x hx hparent := by
    rw [boot_thread hx] at hparent
    exact absurd rfl hparent
  results _ hr := nomatch hr

theorem wroteCode_of_ended (h : ended pc = some code) :
    wroteCode pc = some code ∧ wroteExited pc = true ∧ signalled pc = true := by
  unfold ended at h
  split at h
  · subst h
    exact ⟨rfl, rfl, rfl⟩
  · subst h
    exact ⟨rfl, rfl, rfl⟩
  · cases h

theorem ended_exec (h : Kernel.Exec k x a x' k') (hended : ended x.pc = some code) :
    ended x'.pc = some code := by
  have hsignalled := signalled_mono_exec h (wroteCode_of_ended hended).2.2
  cases h with
  | threadExit hpc => simpa [hpc, ended] using hended
  | enterUser => exact hended
  | vExitsem hpc => simp [hpc, ended] at hended
  | _ => cases hsignalled

theorem Correct.act {r : Returned} (h : s.Correct r) (hx : s.threads[t]? = some x)
    (hexec : Kernel.Exec s.kernel x a x' k') : Correct ⟨k', s.threads.set t x'⟩ r := by
  obtain ⟨u, z, q, y, code, hz, hpid, hparent, hy, hcaller, hended, hresult⟩ := h
  have hstep : Step s (.act t a) ⟨k', s.threads.set t x'⟩ := .act hx hexec
  obtain ⟨y', hy', hident⟩ := hstep.survives hy
  have hypid : y'.pid = r.caller := by
    rw [hident]
    exact hcaller
  by_cases hu : u = t
  · subst hu
    cases hx.symm.trans hz
    have hxpid : x'.pid = x.pid := congrArg Ident.pid hexec.ident
    refine ⟨u, x', q, y', code, (getElem?_set_iff hx).mpr (.inl ⟨rfl, rfl⟩), ?_, ?_, hy', hypid,
      ended_exec hexec hended, ?_⟩
    · rw [hxpid, hpid]
    · rw [hexec.ident, hparent]
    · rw [hxpid, hresult]
  · exact ⟨u, z, q, y', code, (getElem?_set_iff hx).mpr (.inr ⟨hu, hz⟩), hpid, hparent, hy', hypid, hended,
      hresult⟩

theorem HonestInv.correct_destroy (h : HonestInv s) (hsettled : s.Settled (.act t .advance))
    (hx : s.threads[t]? = some x) (hpc : x.pc = .wait call (.destroy i status))
    (hp : s.kernel.procs.processTable i = some p) :
    s.Correct ⟨x.pid, call, .ok ⟨call.pid, some status⟩⟩ := by
  obtain ⟨hppid, hcall, hexited⟩ := h.destroyer hx hpc hp
  obtain ⟨u, z, q, y, hz, hzpid, rfl, hparent, hy, hypid⟩ := h.base.linked.exists_owner hp
  have htracks := h.honest.tracks u z p hz hp hzpid.symm
  have hwrote := htracks.exited hexited
  have hnot := hsettled x hx (call, z.ptableIndex) (by rw [hpc]; rfl) z (mem_of_getElem? hz) rfl
    (hzpid.trans hcall)
  obtain ⟨code, hended, hcode⟩ : ∃ code, ended z.pc = some code ∧ wroteCode z.pc = some code := by
    cases hzpc : z.pc with
    | exit code stage => cases stage <;> simp [hzpc, wroteExited, signals] at hwrote hnot
    | threadExit code | zombie code => cases code <;> simp [hzpc, wroteExited, ended, wroteCode] at hwrote ⊢
    | _ => simp [hzpc, wroteExited] at hwrote
  have hstatus := (h.honest.fetched t x z.ptableIndex p hx (by simp [hpc, fetching]) hp).2 status
    (by rw [hpc]; rfl)
  refine ⟨u, z, q, y, code, hz, hzpid.trans hcall, hparent, hy, hypid.trans hppid, hended, ?_⟩
  rw [hstatus, htracks.exitcode code hcode, hzpid, hcall]

theorem holds_act_iff (hexec : Kernel.Exec s.kernel x a x' k') (hno : destroying x.pc = none) :
    Holds ⟨k', l⟩ z ↔ s.Holds z := by
  constructor
  · rintro ⟨q, hq, hpid⟩
    obtain ⟨p, hp, hqpid, -⟩ := hexec.inherits hq
    exact ⟨p, hp, hqpid.symm.trans hpid⟩
  · rintro ⟨p, hp, hpid⟩
    rcases hexec.stays hp with ⟨q, hq, hqpid, -⟩ | ⟨call, status, hpc⟩
    · exact ⟨q, hq, hqpid.trans hpid⟩
    · simp [hpc, destroying] at hno

theorem obtained_record (k : Kernel) (l : List Thread) (x : Thread) (call : WaitCall)
    (result : Except Errno Procs.Waited) (pid : Int) :
    obtained ⟨k.record x call result, l⟩ pid =
      obtained ⟨k, l⟩ pid + if obtains result && call.pid = pid then 1 else 0 := by
  simp [obtained, record, countP_append, countP_cons]

theorem obtained_exec (hexec : Kernel.Exec s.kernel x a x' k') (hno : destroying x.pc = none)
    (pid : Int) : obtained ⟨k', l⟩ pid = s.obtained pid := by
  cases hexec with
  | refuses _ _ hresult =>
    rw [obtained_record]
    simp [hresult, obtained]
  | destroy hpc => simp [hpc, destroying] at hno
  | _ => rfl

theorem HonestInv.once_destroy (h : HonestInv s) (hlogged : Logged s) (hx : s.threads[t]? = some x)
    (hpc : x.pc = .wait call (.destroy i status)) (hp : s.kernel.procs.processTable i = some p)
    {w : Thread} (hw : s.threads[u]? = some w) (hparent : w.parent ≠ none) :
    obtained ⟨(s.kernel.put i none).record x call (.ok ⟨call.pid, some status⟩), l⟩ w.pid =
      if Holds ⟨(s.kernel.put i none).record x call (.ok ⟨call.pid, some status⟩), l⟩ w then 0 else 1 := by
  obtain ⟨-, hcall, -⟩ := h.destroyer hx hpc hp
  have honce := hlogged.once u w hw hparent
  rw [obtained_record]
  show s.obtained w.pid + _ = _
  rw [honce]
  by_cases hpid : call.pid = w.pid
  · obtain ⟨rfl, -⟩ := h.base.linked.of_pid hw hp (hcall.trans hpid)
    have hold : s.Holds w := ⟨p, hp, hcall.trans hpid⟩
    have hnew : ¬ Holds ⟨(s.kernel.put w.ptableIndex none).record x call
      (.ok ⟨call.pid, some status⟩), l⟩ w := by
      rintro ⟨q, hq, -⟩
      simp [put, record, setSlot] at hq
    rw [if_pos hold, if_neg hnew]
    simp [hpid, obtains]
  · have hiff : Holds ⟨(s.kernel.put i none).record x call (.ok ⟨call.pid, some status⟩), l⟩ w ↔
        s.Holds w := by
      by_cases hi : w.ptableIndex = i
      · constructor
        · rintro ⟨q, hq, -⟩
          simp [hi, put, record, setSlot] at hq
        · rintro ⟨q, hq, hqpid⟩
          rw [hi, hp] at hq
          cases hq
          exact absurd (hcall.symm.trans hqpid) hpid
      · simp [Holds, put, record, setSlot, update_of_ne hi]
    simp [hiff, hpid]

theorem destroying_cases (h : destroying pc ≠ none) :
    ∃ call i status, pc = .wait call (.destroy i status) := by
  unfold destroying at h
  split at h
  · exact ⟨_, _, _, rfl⟩
  · exact absurd rfl h

theorem destroy_exec (h : Kernel.Exec k x a x' k') (hpc : x.pc = .wait call (.destroy i status)) :
    ∃ p, k.procs.processTable i = some p ∧
      k' = (k.put i none).record x call (.ok ⟨call.pid, some status⟩) := by
  obtain rfl := h.act_eq (by simp [hpc])
  cases h with
  | destroy hpc' hp =>
    cases hpc.symm.trans hpc'
    exact ⟨_, hp, rfl⟩
  | refuses hpc' hstage =>
    cases hpc.symm.trans hpc'
    cases hstage
  | forkP hpc' | forkV hpc' | vForkSem hpc' | vExecvSem hpc' | setExecvSem hpc' | setExitcode hpc'
  | setExited hpc' | vExitsem hpc' | threadExit hpc' | lookup hpc' | nullTest hpc' | ppidTest hpc'
  | sawExited hpc' | mustWait hpc' | semP hpc' | readCode hpc' => cases hpc.symm.trans hpc'

theorem HonestInv.logged_act (h : HonestInv s) (hlogged : Logged s) (hsettled : s.Settled (.act t a))
    (hx : s.threads[t]? = some x) (hexec : Kernel.Exec s.kernel x a x' k') :
    Logged ⟨k', s.threads.set t x'⟩ := by
  refine ⟨fun u z hz hparent => ?_, fun r hr hobtains => ?_⟩
  · obtain ⟨w, hw, hident⟩ := exists_before hx hexec.ident hz
    have hgoal : obtained ⟨k', s.threads.set t x'⟩ w.pid =
        if Holds ⟨k', s.threads.set t x'⟩ w then 0 else 1 := by
      rw [hident] at hparent
      by_cases hno : destroying x.pc = none
      · simp only [obtained_exec hexec hno, holds_act_iff hexec hno]
        exact hlogged.once u w hw hparent
      · obtain ⟨call, i, status, hpc⟩ := destroying_cases hno
        obtain ⟨p, hp, rfl⟩ := destroy_exec hexec hpc
        exact h.once_destroy hlogged hx hpc hp hw hparent
    rw [hident]
    simpa only [holds_congr hident] using hgoal
  · have hold : r ∈ s.kernel.log → Correct ⟨k', s.threads.set t x'⟩ r :=
      fun hr => (hlogged.results r hr hobtains).act hx hexec
    cases hexec with
    | refuses hpc hstage hresult =>
      rcases mem_append.mp hr with hr | hr
      · exact hold hr
      · rw [mem_singleton.mp hr] at hobtains
        simp [hresult] at hobtains
    | destroy hpc hp =>
      rcases mem_append.mp hr with hr | hr
      · exact hold hr
      · rw [mem_singleton.mp hr]
        exact (h.correct_destroy hsettled hx hpc hp).act hx (.destroy hpc hp)
    | _ => exact hold hr

theorem Logged.quiet (h : Logged s) (hlinked : Linked s) (hstep : Step s op s') (hquiet : Quiet s s') :
    Logged s' := by
  have hobtained : ∀ pid, s'.obtained pid = s.obtained pid :=
    fun pid => by rw [obtained, hquiet.log, obtained]
  have hold : ∀ {u : Nat} {w : Thread}, s.threads[u]? = some w → w.parent ≠ none →
      s'.obtained w.pid = if s'.Holds w then 0 else 1 := by
    intro u w hw hparent
    have hiff : s'.Holds w ↔ s.Holds w :=
      ⟨fun ⟨p, hp, hpid⟩ => ⟨p, (hquiet.slot hw hp hpid).1, hpid⟩,
        fun ⟨p, hp, hpid⟩ => ⟨p, hquiet.occupied hp, hpid⟩⟩
    simp only [hobtained, hiff]
    exact h.once u w hw hparent
  refine ⟨fun u z hz hparent => ?_, fun r hr hobtains => ?_⟩
  · rcases hquiet.get hz with hzold | ⟨-, ⟨w, hw, hident, -⟩ | hfresh⟩
    · exact hold hzold hparent
    · rw [hident] at hparent ⊢
      simpa only [holds_congr hident] using hold hw hparent
    · obtain ⟨ppid, hslot⟩ := hfresh.slot
      rw [if_pos ⟨_, hslot, rfl⟩, hobtained, obtained, countP_eq_zero]
      intro r hr hobtains
      simp only [Bool.and_eq_true, decide_eq_true_eq] at hobtains
      -- status を得られた pid は、前からいる thread のものである。
      obtain ⟨t, x, -, -, -, hx, hpid, -⟩ := h.results r hr hobtains.1
      have hle := hlinked.pid_le hx
      have hlt := hfresh.pid
      omega
  · rw [hquiet.log] at hr
    obtain ⟨t, x, q, y, code, hx, hpid, hparent, hy, hcaller, hended, hresult⟩ := h.results r hr hobtains
    obtain ⟨y', hy', hident⟩ := hstep.survives hy
    have hbusy : idle x.pc = false := by
      cases hpc : x.pc <;> simp [hpc, ended, idle] at hended ⊢
    refine ⟨t, x, q, y', code, hquiet.keeps hx hbusy, hpid, hparent, hy', ?_, hended, hresult⟩
    rw [hident, hcaller]

/-! ## 名指しした子 -/

/-- 親が `getptable_index` で見つけた子は、まだその slot に載っている。 -/
def Seen (s : Life) : Prop :=
  ∀ (q t : Nat) (y x : Thread) (call : WaitCall) (i : Fin procMax), s.threads[q]? = some y →
    checking y.pc = some (call, i) → s.threads[t]? = some x → x.pid = call.pid → x.parent = some q →
      x.ptableIndex = i ∧ s.Holds x

theorem seen_boot : Seen boot := by
  intro q t y x call i hy hchecking
  rw [boot_thread hy] at hchecking
  cases hchecking

theorem checking_exec (h : Kernel.Exec k x a x' k') (hchecking : checking x'.pc = some (call, i)) :
    k' = k ∧ (checking x.pc = some (call, i) ∨ k.procs.getptableIndex call.pid = some i) := by
  cases h with
  | lookup hpc hi =>
    simp only [Thread.goto, checking, Option.some.injEq, Prod.mk.injEq] at hchecking
    obtain ⟨rfl, rfl⟩ := hchecking
    exact ⟨rfl, .inr hi⟩
  | nullTest hpc =>
    rw [hpc]
    exact ⟨rfl, .inl hchecking⟩
  | enterUser => exact ⟨rfl, .inl hchecking⟩
  | _ => cases hchecking

theorem Base.holds_act (h : Base s) (hx : s.threads[t]? = some x)
    (hexec : Kernel.Exec s.kernel x a x' k') {q : Nat} (hz : s.threads[u]? = some z)
    (hparent : z.parent = some q) (hne : q ≠ t) (hholds : s.Holds z) : Holds ⟨k', l⟩ z := by
  obtain ⟨p, hp, hpid⟩ := hholds
  rcases hexec.stays hp with ⟨r, hr, hrpid, -⟩ | ⟨call, status, hpc⟩
  · exact ⟨r, hr, hrpid.trans hpid⟩
  · obtain ⟨p', hp', hppid, -⟩ := (h.waiting t x hx).after call _ (by rw [hpc]; rfl)
    cases hp.symm.trans hp'
    obtain ⟨-, q', y, hparent', -, hy, hypid⟩ := h.linked.of_pid hz hp hpid
    cases hparent.symm.trans hparent'
    exact absurd (h.linked.inj hy hx (hypid.trans hppid)) hne

theorem Seen.act (h : Seen s) (hbase : Base s) (hx : s.threads[t]? = some x)
    (hexec : Kernel.Exec s.kernel x a x' k') : Seen ⟨k', s.threads.set t x'⟩ := by
  intro q u y z call i hy hchecking hz hpid hparent
  obtain ⟨w, hw, hident⟩ := exists_before hx hexec.ident hz
  rw [hident] at hpid hparent ⊢
  rw [holds_congr hident]
  rcases (getElem?_set_iff hx).mp hy with ⟨rfl, rfl⟩ | ⟨hne, hyold⟩
  · obtain ⟨rfl, hchecking' | hi⟩ := checking_exec hexec hchecking
    · exact h q u x w call i hx hchecking' hw hpid hparent
    · obtain ⟨p, hp, hppid⟩ := exists_of_getptableIndex hi
      obtain ⟨rfl, -⟩ := hbase.linked.of_pid hw hp (hppid.trans hpid.symm)
      exact ⟨rfl, p, hp, hppid.trans hpid.symm⟩
  · obtain ⟨hindex, hholds⟩ := h q u y w call i hyold hchecking hw hpid hparent
    exact ⟨hindex, hbase.holds_act hx hexec hw hparent hne hholds⟩

theorem Seen.quiet (h : Seen s) (hquiet : Quiet s s') : Seen s' := by
  intro q u y z call i hy hchecking hz hpid hparent
  have hbusy : idle y.pc = false := by
    cases hpc : y.pc <;> simp [hpc, checking, idle] at hchecking ⊢
  have hyold : s.threads[q]? = some y := by
    rcases hquiet.idle_or_old hy with hidle | hyold
    · simp [hidle] at hbusy
    · exact hyold
  have hold : ∀ {w : Thread}, s.threads[u]? = some w → w.pid = call.pid → w.parent = some q →
      w.ptableIndex = i ∧ s'.Holds w := by
    intro w hw hwpid hwparent
    obtain ⟨hindex, p, hp, hppid⟩ := h q u y w call i hyold hchecking hw hwpid hwparent
    exact ⟨hindex, p, hquiet.occupied hp, hppid⟩
  rcases hquiet.get hz with hzold | ⟨-, ⟨w, hw, hident, -⟩ | hfresh⟩
  · exact hold hzold hpid hparent
  · rw [hident] at hpid hparent ⊢
    rw [holds_congr hident]
    exact hold hw hpid hparent
  · obtain ⟨t, x, hparent', hx, hidle⟩ := hfresh.parent
    cases hparent.symm.trans hparent'
    cases hyold.symm.trans hx
    simp [hidle] at hbusy

/-! ## status の届け方 -/

/-- `q` だけが進むと `sys_waitpid` から返り、`log` に `r` を足す。 -/
def Delivers (s : Life) (q : Nat) (r : Returned) : Prop :=
  ∃ s', Alone q s s' ∧ s'.kernel.log = s.kernel.log ++ [r]

variable {q : Nat} {y : Thread} {call : WaitCall} {i : Fin procMax} {p : Process}

section

variable (hy : s.threads[q]? = some y)

include hy

theorem delivers_destroy (hpc : y.pc = .wait call (.destroy i status))
    (hp : s.kernel.procs.processTable i = some p) :
    Delivers s q ⟨y.pid, call, .ok ⟨call.pid, some status⟩⟩ := by
  have hreturns : s.kernel.advance y =
      { s.kernel with procs := s.kernel.procs.destroyProcess i }.returns y call
      (.ok ⟨call.pid, some status⟩) := by
    simp [advance, hpc, sysWaitpid, hp]
  exact ⟨_, alone_advance hy hreturns, rfl⟩

theorem delivers_readCode (hpc : y.pc = .wait call (.readCode i))
    (hp : s.kernel.procs.processTable i = some p) :
    Delivers s q ⟨y.pid, call, .ok ⟨call.pid, some (mkwaitExit p.exitcode)⟩⟩ :=
  ⟨_, Alone.reap (alone_here hy hpc) hy hp, rfl⟩

theorem delivers_semP (hpc : y.pc = .wait call (.semP i))
    (hp : s.kernel.procs.processTable i = some p) (hpos : s.kernel.exitsem i ≠ 0) :
    Delivers s q ⟨y.pid, call, .ok ⟨call.pid, some (mkwaitExit p.exitcode)⟩⟩ := by
  have hwoken : s.kernel.advance y = some (y.goto (.wait call (.readCode i)),
      { s.kernel with exitsem := update s.kernel.exitsem i (s.kernel.exitsem i - 1) }) := by
    simp [advance, hpc, sysWaitpid, hp, hpos]
  exact ⟨_, (alone_advance hy hwoken).reap hy hp, rfl⟩

theorem delivers_exitedTest (hpc : y.pc = .wait call (.exitedTest i))
    (hp : s.kernel.procs.processTable i = some p) (hexited : p.exited = true) :
    Delivers s q ⟨y.pid, call, .ok ⟨call.pid, some (mkwaitExit p.exitcode)⟩⟩ := by
  have hanswers := (alone_here hy hpc).answers hy hp
  rw [if_pos hexited] at hanswers
  exact ⟨_, hanswers, rfl⟩

end

/-- pid 番の thread の呼び出しの引数が、`sys_waitpid` の検査を通る。 -/
structure ValidCall (pid : Int) (call : WaitCall) : Prop where
  range : ¬(call.pid < 1 ∨ pidMax ≤ call.pid)
  status : ¬(call.status = 0 ∨ call.status ≤ 0x40000000 ∨ call.status % 4 ≠ 0)
  user : ¬(pid ≠ 0 ∧ userspacetop ≤ call.status)
  options : call.options = wnohang ∨ call.options = 0

theorem ValidCall.sysWaitpid {procs : Procs} {pid : Int} (h : ValidCall pid call)
    (hindex : procs.getptableIndex call.pid = some i) (hp : procs.processTable i = some p)
    (hppid : p.ppid = pid)
    (hexited : p.exited = true) :
    procs.sysWaitpid pid call.pid call.status call.options = some (procs.reap call.pid i p) := by
  simp only [Procs.sysWaitpid, if_neg h.range, hindex, hp, if_neg h.status, if_neg h.user, hppid,
    ne_eq, not_true,
    if_false, hexited, Bool.true_eq_false]
  rcases h.options with hoptions | hoptions <;> simp [hoptions]

theorem delivers_lookup (hvalid : ValidCall y.pid call) (hy : s.threads[q]? = some y)
    (hpc : y.pc = .wait call .lookup) (hindex : s.kernel.procs.getptableIndex call.pid = some i)
    (hp : s.kernel.procs.processTable i = some p) (hppid : p.ppid = y.pid) (hexited : p.exited = true) :
    Delivers s q ⟨y.pid, call, .ok ⟨call.pid, some (mkwaitExit p.exitcode)⟩⟩ := by
  have hanswers := waitpid_alone hy hpc
  rw [hvalid.sysWaitpid hindex hp hppid hexited] at hanswers
  exact ⟨_, hanswers, rfl⟩

/-! ## 起動からの列 -/

structure SoundInv (s : Life) : Prop where
  honest : HonestInv s
  logged : Logged s
  seen : Seen s

theorem soundInv_boot : SoundInv boot where
  honest := ⟨base_boot, notified_boot, menuOk_boot, honest_boot⟩
  logged := logged_boot
  seen := seen_boot

theorem SoundInv.step (h : SoundInv s) (hsettled : s.Settled op) (hstep : LifeStep s op s') :
    SoundInv s' := by
  have honest := h.honest.step hsettled hstep
  have hstep := step_cases hstep
  rcases hstep.act_or_quiet h.honest.base.linked with ⟨t, a, x, x', k', rfl, hx, hexec, rfl⟩ | hquiet
  · exact ⟨honest, h.honest.logged_act h.logged hsettled hx hexec, h.seen.act h.honest.base hx hexec⟩
  · exact ⟨honest, h.logged.quiet h.honest.base.linked hstep hquiet, h.seen.quiet hquiet⟩

theorem Linked.getptableIndex_eq (h : Linked s) (hx : s.threads[t]? = some x)
    (hp : s.kernel.procs.processTable x.ptableIndex = some p) (hpid : p.pid = x.pid) :
    s.kernel.procs.getptableIndex x.pid = some x.ptableIndex := by
  cases hfind : s.kernel.procs.getptableIndex x.pid with
  | none =>
    have hall := find?_eq_none.mp hfind x.ptableIndex (mem_finRange _)
    simp [hp, hpid] at hall
  | some j =>
    obtain ⟨p', hp', hpid'⟩ := exists_of_getptableIndex hfind
    rw [(h.of_pid hx hp' hpid').1]

theorem HonestInv.of_ended (h : HonestInv s) (hx : s.threads[t]? = some x)
    (hended : ended x.pc = some code) (hp : s.kernel.procs.processTable x.ptableIndex = some p)
    (hpid : p.pid = x.pid) : p.exitcode = code ∧ p.exited = true := by
  obtain ⟨hcode, hwrote, -⟩ := wroteCode_of_ended hended
  exact ⟨(h.honest.tracks t x p hx hp hpid).exitcode code hcode, h.notified.exited t x p hx hwrote hp hpid⟩

theorem HonestInv.delivers (h : HonestInv s) (hy : s.threads[q]? = some y)
    (haccepted : accepted y.pc = some (call, i)) (hx : s.threads[t]? = some x)
    (hpid : x.pid = call.pid) (hended : ended x.pc = some code) :
    Delivers s q ⟨y.pid, call, .ok ⟨x.pid, some (mkwaitExit code)⟩⟩ := by
  obtain ⟨p, hp, hppid, hcall⟩ := (h.base.waiting q y hy).after call i haccepted
  obtain ⟨rfl, -⟩ := h.base.linked.of_pid hx hp (hcall.trans hpid.symm)
  obtain ⟨rfl, hexited⟩ := h.of_ended hx hended hp (hcall.trans hpid.symm)
  rw [hpid]
  unfold accepted at haccepted
  split at haccepted <;> rename_i hpc <;> cases haccepted
  · exact delivers_exitedTest hy hpc hp hexited
  · have hpos := exitsem_pos h.base h.notified hy hpc hx hpid (wroteCode_of_ended hended).2.2
    exact delivers_semP hy hpc hp (Nat.pos_iff_ne_zero.mp hpos)
  · exact delivers_readCode hy hpc hp
  · have hstatus := (h.honest.fetched q y x.ptableIndex p hy (by simp [hpc, fetching]) hp).2 _
      (by rw [hpc]; rfl)
    rw [← hstatus]
    exact delivers_destroy hy hpc hp

theorem HonestInv.answers (h : HonestInv s) (hy : s.threads[q]? = some y)
    (hvalid : ValidCall y.pid call) (hpc : y.pc = .wait call .lookup) (hx : s.threads[t]? = some x)
    (hpid : x.pid = call.pid) (hparent : x.parent = some q) (hholds : s.Holds x)
    (hended : ended x.pc = some code) :
    Delivers s q ⟨y.pid, call, .ok ⟨x.pid, some (mkwaitExit code)⟩⟩ := by
  obtain ⟨p, hp, hppid⟩ := hholds
  obtain ⟨rfl, hexited⟩ := h.of_ended hx hended hp hppid
  obtain ⟨-, q', y', hparent', -, hy', hypid⟩ := h.base.linked.of_pid hx hp hppid
  cases hparent.symm.trans hparent'
  cases hy.symm.trans hy'
  have hindex := h.base.linked.getptableIndex_eq hx hp hppid
  rw [hpid] at hindex ⊢
  exact delivers_lookup hvalid hy hpc hindex hp hypid.symm hexited

/-- 終了する子と待つ親についての約束。 -/
structure Sound (s : Life) : Prop where
  /-- 自分の slot や `exitsem` に触れる子は、まだ載っている。 -/
  child : ∀ (t : Nat) (x : Thread), s.threads[t]? = some x → (stores x.pc || signals x.pc) = true →
    s.Holds x
  /-- 子の slot に触れる親にとって、その子はまだ載っている。 -/
  parent : ∀ (q t : Nat) (y x : Thread) (call : WaitCall) (i : Fin procMax), s.threads[q]? = some y →
    (checking y.pc = some (call, i) ∨ accepted y.pc = some (call, i)) → s.threads[t]? = some x →
      x.pid = call.pid → x.parent = some q → x.ptableIndex = i ∧ s.Holds x
  /-- 子の status を得た呼び出しは、slot が空くまでは無く、空いた後はちょうど一つである。 -/
  once : ∀ (t : Nat) (x : Thread), s.threads[t]? = some x → x.parent ≠ none →
    s.obtained x.pid = if s.Holds x then 0 else 1
  /-- 得た status は、終わった子の `sys__exit` の引数で、得たのはその親である。 -/
  correct : ∀ r ∈ s.kernel.log, obtains r.result = true → s.Correct r
  /-- 終わって載っている子を待つ親は、自分の step だけで status を得る。 -/
  delivers : ∀ (q t : Nat) (y x : Thread) (call : WaitCall) (code : Int32), s.threads[q]? = some y →
    s.threads[t]? = some x → x.pid = call.pid → x.parent = some q → s.Holds x → ended x.pc = some code →
      ((∃ i, accepted y.pc = some (call, i)) ∨ (y.pc = .wait call .lookup ∧ ValidCall y.pid call)) →
        Delivers s q ⟨y.pid, call, .ok ⟨x.pid, some (mkwaitExit code)⟩⟩

theorem SoundInv.sound (h : SoundInv s) : Sound s where
  child t x hx htouch := by
    rcases Bool.or_eq_true_iff.mp htouch with hstores | hsignals
    · obtain ⟨hleaving, hsignalled, -⟩ := leaving_of_stores hstores
      exact h.honest.holds_of_leaving hx hleaving hsignalled
    · obtain ⟨hleaving, hsignalled⟩ := leaving_of_signals hsignals
      exact h.honest.holds_of_leaving hx hleaving hsignalled
  parent q t y x call i hy htouch hx hpid hparent := by
    rcases htouch with hchecking | haccepted
    · exact h.seen q t y x call i hy hchecking hx hpid hparent
    · obtain ⟨p, hp, -, hcall⟩ := (h.honest.base.waiting q y hy).after call i haccepted
      obtain ⟨rfl, -⟩ := h.honest.base.linked.of_pid hx hp (hcall.trans hpid.symm)
      exact ⟨rfl, p, hp, hcall.trans hpid.symm⟩
  once := h.logged.once
  correct := h.logged.results
  delivers q t y x call code hy hx hpid hparent hholds hended := by
    rintro (⟨i, haccepted⟩ | ⟨hpc, hvalid⟩)
    · exact h.honest.delivers hy haccepted hx hpid hended
    · exact h.honest.answers hy hvalid hpc hx hpid hparent hholds hended

/--
**`destroy_process` の時に子が `exited` に書いて `V(exitsem)` をする前であることの無い列では、終了する子も待つ親も空いた
slot に触れず、親はちょうど一回の呼び出しで正しい status を得る。**
-/
theorem exit_wait_sound {tr : List (Transition Life Op)} {u : Life} (hrun : Run LifeStep boot tr u)
    (hsettled : ∀ x ∈ tr, Settled x.pre x.label) : Sound u :=
  (hrun.invariant (C := Settled) (fun hp hc hq => hp.step hc hq) hsettled soundInv_boot).1.sound

/-- menu が program の status を得る列。 -/
theorem exit_wait_sound_program :
    ∃ (tr : List (Transition Life Op)) (u : Life), Run LifeStep boot tr u ∧
      (∀ x ∈ tr, Settled x.pre x.label) ∧ u.obtained 1 = 1 ∧ Sound u := by
  obtain ⟨u, hu⟩ : ∃ u, (exitThenWait 7).foldlM step boot = some u := ⟨_, rfl⟩
  have hrun := (Run.of_foldlM hu).1
  have hsettled : ∀ x ∈ Run.trace step boot (exitThenWait 7), Settled x.pre x.label := by decide +kernel
  refine ⟨_, u, hrun, hsettled, ?_, exit_wait_sound hrun hsettled⟩
  cases hu
  rfl

/--
子が `exited` に書き、`V(exitsem)` の前に menu が `exited` を見て slot を空にすると、子の次の文は空いた slot に触れる。
-/
theorem destroyed_before_signal :
    ∃ (tr : List (Transition Life Op)) (u : Life), Run LifeStep boot tr u ∧
      u.threads.map Thread.pc = [.run, .exit 7 .vExitsem] ∧
        u.threads.map (fun x => x.ptableIndex) = [0, 1] ∧
      u.obtained 1 = 1 ∧ (u.kernel.procs.processTable 1).isNone ∧ (u.step (.act 1 .advance)).isNone ∧
      ¬ Sound u := by
  obtain ⟨u, hu⟩ : ∃ u, (exitThenWait 5).foldlM step boot = some u := ⟨_, rfl⟩
  refine ⟨_, u, (Run.of_foldlM hu).1, ?_, ?_, ?_, ?_, ?_, fun hsound => ?_⟩ <;> cases hu
  · rfl
  · rfl
  · rfl
  · rfl
  · rfl
  · obtain ⟨p, hp, -⟩ := hsound.child 1 _ rfl rfl
    cases hp

end Life

end Os161

