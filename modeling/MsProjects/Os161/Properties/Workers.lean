import MsProjects.Os161.Properties.Stage
import MsProjects.Os161.Thread.Workers

/-! # 実装の上で走る列と、一度に効く命令の列 -/

namespace Os161

open Infra List Function Machine

/-! ## 列を走らせる thread -/

namespace Workers

variable {T L S E : Type*} {m m' : Workers T L S E} {t : T} {i : Instr L S E} {prog : List (Instr L S E)}
  {o : L ⊕ S}

/-- `t` の、lock か semaphore の中の進み具合。 -/
def stageAt (m : Workers T L S E) (t : T) : L ⊕ S → Stage (Instr L S E)
  | .inl l => (Lock.stage ((m.lock l).pc t)).map (.atLock l)
  | .inr s => (Semaphore.stage ((m.sem s).pc t)).map (.atSem s)

/-- 命令が使う lock か semaphore。 -/
def object : Instr L S E → Option (L ⊕ S)
  | .acquire l | .release l => some (.inl l)
  | .p s | .v s => some (.inr s)
  | .event _ => none

/-- `t` の先頭の命令の進み具合。 -/
def stage (m : Workers T L S E) (t : T) : Stage (Instr L S E) :=
  match (m.rest t).head?.bind object with
  | some o => m.stageAt t o
  | none => .idle

/-- 効いた命令を終わったものと見て、持ち主と数だけを残す。 -/
def atomic (m : Workers T L S E) : Machine T L S E where
  owner l := (m.lock l).ownerThread
  count s := (m.sem s).semCount.toNat
  rest t := (m.stage t).remaining (m.rest t)

theorem stage_of_idle (hidle : ∀ o, m.stageAt t o = .idle) : m.stage t = .idle := by
  unfold stage
  split
  · exact hidle _
  · rfl

theorem stage_eq {o : L ⊕ S} (hrest : m.rest t = i :: prog) (ho : object i = some o) :
    m.stage t = m.stageAt t o := by
  simp [stage, hrest, ho]

theorem atomic_rest_congr (hrest : m'.rest t = m.rest t) (hstage : ∀ o, m'.stageAt t o = m.stageAt t o) :
    m'.atomic.rest t = m.atomic.rest t := by
  have hsame : m'.stage t = m.stage t := by simp only [stage, hrest, hstage]
  simp only [atomic, hsame, hrest]

theorem calling_object {o : L ⊕ S} (h : (m.stageAt t o).calling = some i) : object i = some o := by
  cases o with
  | inl l =>
    simp only [stageAt, Stage.calling_map, Option.map_eq_some_iff] at h
    obtain ⟨⟨⟩ | ⟨⟩ | ⟨⟨⟩⟩ | ⟨⟨⟩⟩ | ⟨⟨⟩⟩, -, rfl⟩ := h <;> rfl
  | inr s =>
    simp only [stageAt, Stage.calling_map, Option.map_eq_some_iff] at h
    obtain ⟨⟨⟨⟩⟩ | ⟨⟨⟩⟩ | ⟨⟩ | ⟨⟩ | ⟨⟨⟩⟩, -, rfl⟩ := h <;> rfl

theorem stageAt_after (hafter : m.stageAt t o = .after i) :
    (∃ l, i = .release l) ∨ ∃ s, i = .v s := by
  cases o with
  | inl l =>
    cases hpc : (m.lock l).pc t with
    | relWake =>
      rw [stageAt, hpc] at hafter
      cases hafter
      exact .inl ⟨l, rfl⟩
    | _ => simp [stageAt, hpc, Lock.stage, Stage.map] at hafter
  | inr s =>
    cases hpc : (m.sem s).pc t with
    | vWake =>
      rw [stageAt, hpc] at hafter
      cases hafter
      exact .inr ⟨s, rfl⟩
    | _ => simp [stageAt, hpc, Semaphore.stage, Stage.map] at hafter

/-- 呼び出しの中にいる thread は、先頭の命令を呼び出している。 -/
structure Inv [Fintype T] (m : Workers T L S E) : Prop where
  lock : ∀ l, (m.lock l).Inv
  sem : ∀ s, (m.sem s).Inv
  head : ∀ t o i, (m.stageAt t o).calling = some i → (m.rest t).head? = some i

section Idle

variable [Fintype T]

theorem Inv.idle (h : Inv m) {o : L ⊕ S} (hne : (m.rest t).head?.bind object ≠ some o) :
    m.stageAt t o = .idle := by
  rw [← Stage.calling_eq_none, Option.eq_none_iff_forall_ne_some]
  intro i hi
  exact hne (by rw [h.head t o i hi, Option.bind_some, calling_object hi])

theorem Inv.idle_of_object (h : Inv m) (hnone : (m.rest t).head?.bind object = none) (o : L ⊕ S) :
    m.stageAt t o = .idle :=
  h.idle (by simp [hnone])

theorem Inv.busy_lock (h : Inv m) {l : L} (hbusy : (m.lock l).pc t ≠ .out) :
    ∃ k prog, (Lock.stage ((m.lock l).pc t)).calling = some k ∧ m.rest t = k.atLock l :: prog := by
  cases hk : (Lock.stage ((m.lock l).pc t)).calling with
  | none => exact absurd (Lock.stage_eq_idle.mp (Stage.calling_eq_none.mp hk)) hbusy
  | some k =>
    obtain ⟨prog, hprog⟩ := head?_eq_some_iff.mp
      (h.head t (.inl l) (k.atLock l) (by simp [stageAt, Stage.calling_map, hk]))
    exact ⟨k, prog, rfl, hprog⟩

theorem Inv.busy_sem (h : Inv m) {s : S} (hbusy : (m.sem s).pc t ≠ .out) :
    ∃ k prog, (Semaphore.stage ((m.sem s).pc t)).calling = some k ∧ m.rest t = k.atSem s :: prog := by
  cases hk : (Semaphore.stage ((m.sem s).pc t)).calling with
  | none => exact absurd (Semaphore.stage_eq_idle.mp (Stage.calling_eq_none.mp hk)) hbusy
  | some k =>
    obtain ⟨prog, hprog⟩ := head?_eq_some_iff.mp
      (h.head t (.inr s) (k.atSem s) (by simp [stageAt, Stage.calling_map, hk]))
    exact ⟨k, prog, rfl, hprog⟩

/-- 効いてまだ戻っていない命令は、解放か `v` である。 -/
theorem Inv.rest_cases (h : Inv m) (t : T) : m.atomic.rest t = m.rest t ∨
    (∃ l, m.rest t = .release l :: m.atomic.rest t) ∨ ∃ s, m.rest t = .v s :: m.atomic.rest t := by
  cases hstage : m.stage t with
  | idle | before => simp [atomic, hstage, Stage.remaining]
  | after i =>
    right
    have hrest : m.atomic.rest t = (m.rest t).tail := by simp [atomic, hstage, Stage.remaining]
    cases ho : (m.rest t).head?.bind object with
    | none => simp [stage, ho] at hstage
    | some o =>
      simp only [stage, ho] at hstage
      have hhead := h.head t o i (by rw [hstage]; rfl)
      obtain ⟨prog, hprog⟩ := head?_eq_some_iff.mp hhead
      rw [hrest, hprog, tail_cons]
      rcases stageAt_after hstage with ⟨l, rfl⟩ | ⟨s, rfl⟩
      · exact .inl ⟨l, rfl⟩
      · exact .inr ⟨s, rfl⟩

end Idle

variable [DecidableEq T]

theorem atomic_setRest (hidle : ∀ o, m.stageAt t o = .idle) :
    (m.setRest t prog).atomic = m.atomic.setRest t prog := by
  refine congrArg (Machine.mk _ _) (funext fun u => ?_)
  by_cases hu : u = t
  · subst hu
    have hstage : (m.setRest u prog).stage u = .idle := stage_of_idle hidle
    rw [hstage]
    simp [setRest, Stage.remaining]
  · rw [update_of_ne hu]
    exact atomic_rest_congr (by simp [setRest, update_of_ne hu]) fun _ => rfl

theorem Inv.setRest [Fintype T] (h : Inv m) (hidle : ∀ o, m.stageAt t o = .idle) : Inv (m.setRest t prog) := by
  refine ⟨h.lock, h.sem, fun u o i hi => ?_⟩
  by_cases hu : u = t
  · subst hu
    have hnone : (m.stageAt u o).calling = some i := hi
    simp [hidle o, Stage.calling] at hnone
  · simpa [Workers.setRest, update_of_ne hu] using h.head u o i hi

theorem Inv.start [Fintype T] (h : Inv m) (hstep : m.start t prog = some m') :
    Inv m' ∧ m.atomic.rest t = [] ∧ m'.atomic = m.atomic.setRest t prog := by
  simp only [Workers.start, Option.ite_none_right_eq_some, Option.some.injEq] at hstep
  obtain ⟨hrest, rfl⟩ := hstep
  have hidle := h.idle_of_object (t := t) (by simp [hrest])
  refine ⟨h.setRest hidle, ?_, atomic_setRest hidle⟩
  simp [atomic, stage_of_idle hidle, hrest, Stage.remaining]

/-! ## 一つの step -/

variable [DecidableEq L] [DecidableEq S]

theorem advance_eq_none_lock {l : L} {k : Instr Unit Empty Empty} (hrest : m.rest t = k.atLock l :: prog)
    (hnone : m.advance t = none) : (m.lock l).pc t ≠ .out ∧ (m.lock l).advance t = none := by
  cases k with
  | acquire | release =>
    simp only [Workers.advance, hrest, Instr.atLock, onLock, Option.map_eq_none_iff] at hnone
    by_cases hout : (m.lock l).pc t = .out
    · simp [hout, Lock.step] at hnone
    · rw [if_neg hout] at hnone
      exact ⟨hout, hnone⟩
  | p s | v s => exact s.elim
  | event e => exact e.elim

theorem advance_eq_none_sem {s : S} {k : Instr Empty Unit Empty} (hrest : m.rest t = k.atSem s :: prog)
    (hnone : m.advance t = none) : (m.sem s).pc t ≠ .out ∧ (m.sem s).advance t = none := by
  cases k with
  | p | v =>
    simp only [Workers.advance, hrest, Instr.atSem, onSem, Option.map_eq_none_iff] at hnone
    by_cases hout : (m.sem s).pc t = .out
    · simp [hout, Semaphore.step] at hnone
    · rw [if_neg hout] at hnone
      exact ⟨hout, hnone⟩
  | acquire l | release l => exact l.elim
  | event e => exact e.elim

variable [Fintype T]

/-- `t` が `o` の中を一つ進む。 -/
structure Moves (m : Workers T L S E) (t : T) (i : Instr L S E) (prog : List (Instr L S E)) (o : L ⊕ S)
    (m' : Workers T L S E) : Prop where
  lock : ∀ l, (m'.lock l).Inv
  sem : ∀ s, (m'.sem s).Inv
  next : (m.stageAt t o).Next i (m'.stageAt t o)
  taken : m.atomic.taken t i (m.stageAt t o) (m'.stageAt t o) =
    some { m'.atomic with rest := m.atomic.rest }
  rest : m'.stageAt t o = .idle ∧ m'.rest = update m.rest t prog ∨
    m'.stageAt t o ≠ .idle ∧ m'.rest = m.rest
  other : ∀ u o', u ≠ t ∨ o' ≠ o → m'.stageAt u o' = m.stageAt u o'

theorem Inv.moves_lock (h : Inv m) {l : L} {call : Lock.Op T} {k : Instr Unit Empty Empty}
    (hstep : m.onLock t l call prog = some m') (hcall : call.instr? = some k) (ht : call.thread = t)
    (hrest : m.rest t = k.atLock l :: prog) : Moves m t (k.atLock l) prog (.inl l) m' := by
  simp only [onLock, Option.map_eq_some_iff] at hstep
  obtain ⟨s', hs', rfl⟩ := hstep
  generalize hop : (if (m.lock l).pc t = .out then call else Lock.Op.advance t) = op at hs'
  have hthread : op.thread = t := by
    rw [← hop, apply_ite Lock.Op.thread, ht]
    exact ite_self t
  have hi : op.instr? = some k ∨ (Lock.stage ((m.lock l).pc op.thread)).calling = some k := by
    by_cases hout : (m.lock l).pc t = .out
    · left
      rw [← hop, if_pos hout, hcall]
    · right
      obtain ⟨j, prog', hj, hrest'⟩ := h.busy_lock hout
      rw [hthread, hj, Instr.atLock_injective l (head_eq_of_cons_eq (hrest'.symm.trans hrest))]
  have hnext := Lock.next_stage hs' hi
  have htaken := (h.lock l).taken hs' hnext
  have hother : ∀ u, u ≠ t → Lock.stage (s'.pc u) = Lock.stage ((m.lock l).pc u) :=
    fun u hu => (h.lock l).stage_of_ne hs' (hthread ▸ hu)
  rw [hthread] at hnext htaken
  refine ⟨?_, h.sem, ?_, ?_, ?_, ?_⟩
  · exact (forall_update_iff m.lock fun _ x => x.Inv).mpr ⟨(h.lock l).step hs', fun l' _ => h.lock l'⟩
  · simpa [stageAt] using hnext.map (Instr.atLock l)
  · have howner : (fun l' => (update m.lock l s' l').ownerThread) = update m.atomic.owner l s'.ownerThread :=
      comp_update Lock.ownerThread m.lock l s'
    simpa [stageAt, atomic, Lock.atomic, howner] using taken_atLock (m := m.atomic) (l := l) rfl htaken
  · by_cases hout : s'.pc t = .out
    · left
      simp [stageAt, next, hout, Stage.map_eq_idle, Lock.stage_eq_idle]
    · right
      simp [stageAt, next, hout, Stage.map_eq_idle, Lock.stage_eq_idle]
  · rintro u (l' | s) huo
    · by_cases hl : l' = l
      · subst hl
        simp [stageAt, hother u (by simpa using huo)]
      · simp [stageAt, update_of_ne hl]
    · rfl

theorem Inv.moves_sem (h : Inv m) {s : S} {call : Semaphore.Op T} {k : Instr Empty Unit Empty}
    (hstep : m.onSem t s call prog = some m') (hcall : call.instr? = some k) (ht : call.thread = t)
    (hrest : m.rest t = k.atSem s :: prog) : Moves m t (k.atSem s) prog (.inr s) m' := by
  simp only [onSem, Option.map_eq_some_iff] at hstep
  obtain ⟨s', hs', rfl⟩ := hstep
  generalize hop : (if (m.sem s).pc t = .out then call else Semaphore.Op.advance t) = op at hs'
  have hthread : op.thread = t := by
    rw [← hop, apply_ite Semaphore.Op.thread, ht]
    exact ite_self t
  have hi : op.instr? = some k ∨ (Semaphore.stage ((m.sem s).pc op.thread)).calling = some k := by
    by_cases hout : (m.sem s).pc t = .out
    · left
      rw [← hop, if_pos hout, hcall]
    · right
      obtain ⟨j, prog', hj, hrest'⟩ := h.busy_sem hout
      rw [hthread, hj, Instr.atSem_injective s (head_eq_of_cons_eq (hrest'.symm.trans hrest))]
  have hnext := Semaphore.next_stage hs' hi
  have htaken := (h.sem s).taken hs' hnext
  have hother : ∀ u, u ≠ t → Semaphore.stage (s'.pc u) = Semaphore.stage ((m.sem s).pc u) :=
    fun u hu => (h.sem s).stage_of_ne hs' (hthread ▸ hu)
  rw [hthread] at hnext htaken
  refine ⟨h.lock, ?_, ?_, ?_, ?_, ?_⟩
  · exact (forall_update_iff m.sem fun _ x => x.Inv).mpr ⟨(h.sem s).step hs', fun r _ => h.sem r⟩
  · simpa [stageAt] using hnext.map (Instr.atSem s)
  · have hcount : (fun r => (update m.sem s s' r).semCount.toNat) =
        update m.atomic.count s s'.semCount.toNat :=
      comp_update (fun r : Semaphore T => r.semCount.toNat) m.sem s s'
    simpa [stageAt, atomic, Semaphore.atomic, hcount] using taken_atSem (m := m.atomic) (s := s) rfl htaken
  · by_cases hout : s'.pc t = .out
    · left
      simp [stageAt, next, hout, Stage.map_eq_idle, Semaphore.stage_eq_idle]
    · right
      simp [stageAt, next, hout, Stage.map_eq_idle, Semaphore.stage_eq_idle]
  · rintro u (l | r) huo
    · rfl
    · by_cases hr : r = s
      · subst hr
        simp [stageAt, hother u (by simpa using huo)]
      · simp [stageAt, update_of_ne hr]

/-- 一つの step ができること。 -/
theorem Inv.advance_cases (h : Inv m) (hstep : m.advance t = some m') :
    ∃ i prog, m.rest t = i :: prog ∧
      (object i = none ∧ m' = m.setRest t prog ∨
        ∃ o, object i = some o ∧ Moves m t i prog o m') := by
  unfold advance at hstep
  cases hrest : m.rest t with
  | nil => simp [hrest] at hstep
  | cons i prog =>
    refine ⟨i, prog, rfl, ?_⟩
    cases i with
    | acquire l | release l =>
      simp only [hrest] at hstep
      exact .inr ⟨_, rfl, h.moves_lock hstep rfl rfl hrest⟩
    | p s | v s =>
      simp only [hrest] at hstep
      exact .inr ⟨_, rfl, h.moves_sem hstep rfl rfl hrest⟩
    | event e =>
      simp only [hrest, Option.some.injEq] at hstep
      exact .inl ⟨rfl, hstep.symm⟩

/-! ## 一度に効く命令 -/

section Moves

variable {o : L ⊕ S} (hmoves : Moves m t i prog o m')

include hmoves

theorem Moves.rest_of_ne {u : T} (hu : u ≠ t) : m'.rest u = m.rest u := by
  rcases hmoves.rest with ⟨-, hrest⟩ | ⟨-, hrest⟩ <;> simp [hrest, update_of_ne hu]

variable (hrest : m.rest t = i :: prog)

include hrest

theorem Moves.rest_self : m'.stageAt t o = .idle ∧ m'.rest t = prog ∨
    m'.stageAt t o ≠ .idle ∧ m'.rest t = i :: prog := by
  rcases hmoves.rest with ⟨hidle, hpop⟩ | ⟨hbusy, hkeep⟩
  · exact .inl ⟨hidle, by rw [hpop, update_self]⟩
  · exact .inr ⟨hbusy, by rw [hkeep, hrest]⟩

variable (h : Inv m) (ho : object i = some o)

include h ho

/-- ほかの lock と semaphore の中にはいない。 -/
theorem Moves.idle {o' : L ⊕ S} (hoo : o' ≠ o) : m'.stageAt t o' = .idle := by
  rw [hmoves.other t o' (.inr hoo)]
  exact h.idle (by simpa [hrest, ho] using Ne.symm hoo)

theorem Moves.inv : Inv m' := by
  refine ⟨hmoves.lock, hmoves.sem, fun u o' j hj => ?_⟩
  by_cases hu : u = t
  · subst hu
    by_cases hoo : o' = o
    · subst hoo
      -- 戻っていないので、先頭はまだ `i` である。
      rcases hmoves.rest_self hrest with ⟨hidle, -⟩ | ⟨hbusy, hkeep⟩
      · simp [hidle, Stage.calling] at hj
      · have hcalling := hmoves.next.calling_post.resolve_left hbusy
        rw [hkeep, head?_cons, ← hj, hcalling]
    · simp [hmoves.idle hrest h ho hoo, Stage.calling] at hj
  · rw [hmoves.other u o' (.inl hu)] at hj
    rw [hmoves.rest_of_ne hu]
    exact h.head u o' j hj

theorem Moves.stage_self : m'.stage t = m'.stageAt t o := by
  rcases hmoves.rest_self hrest with ⟨hidle, -⟩ | ⟨-, hkeep⟩
  · rw [hidle]
    refine stage_of_idle fun o' => ?_
    by_cases hoo : o' = o
    · rw [hoo, hidle]
    · exact hmoves.idle hrest h ho hoo
  · exact stage_eq hkeep ho

theorem Moves.refines : m'.atomic = m.atomic ∨ m.atomic.advance t = some m'.atomic := by
  refine advance_or_eq ?_ hmoves.next (hmoves.rest_self hrest) hmoves.taken ?_
  · rw [← hrest, ← stage_eq hrest ho]
    rfl
  · rw [← hmoves.stage_self hrest h ho]
    funext u
    by_cases hu : u = t
    · subst hu
      simp [atomic]
    · rw [update_of_ne hu]
      exact atomic_rest_congr (hmoves.rest_of_ne hu) fun o' => hmoves.other u o' (.inl hu)

end Moves

/-- **`lock_acquire` などの中を一つ進むことは、一命令が一度に効くことか、何も変わらないことである。** -/
theorem Inv.advance (h : Inv m) (hstep : m.advance t = some m') :
    Inv m' ∧ (m'.atomic = m.atomic ∨ m.atomic.advance t = some m'.atomic) := by
  obtain ⟨i, prog, hrest, ⟨hnone, rfl⟩ | ⟨o, ho, hmoves⟩⟩ := h.advance_cases hstep
  · have hidle := h.idle_of_object (t := t) (by simp [hrest, hnone])
    have hatomic : m.atomic.rest t = i :: prog := by
      simp [atomic, stage_of_idle hidle, hrest, Stage.remaining]
    have hexec : m.atomic.exec t i = some m.atomic := by
      cases i with
      | event e => rfl
      | _ => cases hnone
    refine ⟨h.setRest hidle, .inr ?_⟩
    rw [atomic_setRest hidle, Machine.advance, hatomic]
    simp [hexec]
  · exact ⟨hmoves.inv hrest h ho, hmoves.refines hrest h ho⟩

theorem Inv.advance_suffix (h : Inv m) (hstep : m.advance t = some m') (u : T) : m'.rest u <:+ m.rest u := by
  obtain ⟨i, prog, hrest, ⟨-, rfl⟩ | ⟨o, -, hmoves⟩⟩ := h.advance_cases hstep
  · by_cases hu : u = t
    · subst hu
      simp [Workers.setRest, hrest]
    · simp [Workers.setRest, update_of_ne hu]
  · by_cases hu : u = t
    · subst hu
      rcases hmoves.rest_self hrest with ⟨-, hpop⟩ | ⟨-, hkeep⟩
      · simp [hpop, hrest]
      · simp [hkeep, hrest]
    · rw [hmoves.rest_of_ne hu]

/-! ## 進行 -/

section Stuck

variable (h : Inv m) (hmax : ∀ s, (m.sem s).semCount < intMax) (hstuck : ∀ u, m.advance u = none)

include h hstuck

theorem Inv.stuck_lock (l : L) : (∀ u, (m.lock l).pc u = .out ∨ (m.lock l).pc u = .asleep) ∧
    ((m.lock l).ownerThread = none → ∀ u, (m.lock l).pc u = .out) := by
  refine (h.lock l).stuck fun u hu => ?_
  obtain ⟨k, prog, -, hrest⟩ := h.busy_lock hu
  exact (advance_eq_none_lock hrest (hstuck u)).2

include hmax

theorem Inv.stuck_sem (s : S) : (∀ u, (m.sem s).pc u = .out ∨ (m.sem s).pc u = .asleep) ∧
    (0 < (m.sem s).semCount → ∀ u, (m.sem s).pc u = .out) := by
  refine (h.sem s).stuck (hmax s) fun u hu => ?_
  obtain ⟨k, prog, -, hrest⟩ := h.busy_sem hu
  exact (advance_eq_none_sem hrest (hstuck u)).2

/-- 誰も進めないなら、残りのある thread はみな lock か semaphore で眠っている。 -/
theorem Inv.asleep (hrest : m.rest t = i :: prog) :
    (∃ l, i = .acquire l ∧ (m.lock l).pc t = .asleep) ∨ ∃ s, i = .p s ∧ (m.sem s).pc t = .asleep := by
  have hlock : ∀ {l : L} {k : Instr Unit Empty Empty}, m.rest t = k.atLock l :: prog →
      (m.lock l).pc t = .asleep ∧ (k.atLock l : Instr L S E) = .acquire l := by
    intro l k hk
    have hpc := ((h.stuck_lock hstuck l).1 t).resolve_left (advance_eq_none_lock hk (hstuck t)).1
    have hhead := h.head t (.inl l) (.acquire l) (by rw [stageAt, hpc]; rfl)
    rw [hk, head?_cons, Option.some.injEq] at hhead
    exact ⟨hpc, hhead⟩
  have hsem : ∀ {s : S} {k : Instr Empty Unit Empty}, m.rest t = k.atSem s :: prog →
      (m.sem s).pc t = .asleep ∧ (k.atSem s : Instr L S E) = .p s := by
    intro s k hk
    have hpc := ((h.stuck_sem hmax hstuck s).1 t).resolve_left (advance_eq_none_sem hk (hstuck t)).1
    have hhead := h.head t (.inr s) (.p s) (by rw [stageAt, hpc]; rfl)
    rw [hk, head?_cons, Option.some.injEq] at hhead
    exact ⟨hpc, hhead⟩
  cases i with
  | acquire l => exact .inl ⟨l, rfl, (hlock (k := .acquire ()) hrest).1⟩
  | release l => cases (hlock (k := .release ()) hrest).2
  | p s => exact .inr ⟨s, rfl, (hsem (k := .p ()) hrest).1⟩
  | v s => cases (hsem (k := .v ()) hrest).2
  | event e =>
    have hnone := hstuck t
    simp [Workers.advance, hrest] at hnone

theorem Inv.atomic_rest_of_stuck (t : T) : m.atomic.rest t = m.rest t := by
  cases hrest : m.rest t with
  | nil =>
    have hidle : m.stage t = .idle := by simp [stage, hrest]
    simp [atomic, hidle, hrest, Stage.remaining]
  | cons i prog =>
    rcases h.asleep hmax hstuck hrest with ⟨l, rfl, hpc⟩ | ⟨s, rfl, hpc⟩
    · have hstage : m.stage t = .before (.acquire l) := by
        simp [stage, hrest, object, stageAt, hpc, Lock.stage, Stage.map, Instr.atLock]
      simp [atomic, hstage, hrest, Stage.remaining]
    · have hstage : m.stage t = .before (.p s) := by
        simp [stage, hrest, object, stageAt, hpc, Semaphore.stage, Stage.map, Instr.atSem]
      simp [atomic, hstage, hrest, Stage.remaining]

/-- 誰も進めないなら、一度に効く命令としても誰も進めない。 -/
theorem Inv.stuck (hlocked : m.atomic.WellLocked) (t : T) : m.atomic.advance t = none := by
  rw [Option.eq_none_iff_forall_ne_some]
  intro m₁ hadv
  obtain ⟨i, prog, m₂, hrest, hexec, -⟩ := Machine.advance_cases hadv
  rw [h.atomic_rest_of_stuck hmax hstuck] at hrest
  rcases h.asleep hmax hstuck hrest with ⟨l, rfl, hpc⟩ | ⟨s, rfl, hpc⟩
  · cases howner : (m.lock l).ownerThread with
    | none => simp [(h.stuck_lock hstuck l).2 howner t] at hpc
    | some u =>
      simp only [exec, atomic, howner, Option.ite_none_right_eq_some] at hexec
      obtain ⟨rfl, -⟩ := hexec
      have hholds := (hlocked.owner u l).mp howner
      rw [h.atomic_rest_of_stuck hmax hstuck, hrest] at hholds
      simp [holds] at hholds
  · have hcount : (m.sem s).semCount.toNat ≠ 0 := by
      intro hzero
      simp [exec, atomic, hzero] at hexec
    have hpos : 0 < (m.sem s).semCount := by omega
    simp [(h.stuck_sem hmax hstuck s).2 hpos t] at hpc

end Stuck

omit [DecidableEq T] [DecidableEq L] in
/-- 借りている数が負でなければ、semaphore の数は全体の数を超えない。 -/
theorem Inv.semCount_lt (h : Inv m) {s : S} {n : Int} (hsupply : m.atomic.supply s = n) (hn : n < intMax)
    (hborrowed : ∀ t, 0 ≤ borrowed s (m.atomic.rest t)) : (m.sem s).semCount < intMax := by
  have hsum : ((m.sem s).semCount.toNat : Int) + total (borrowed s) m.atomic.rest = n := hsupply
  have htotal : 0 ≤ total (borrowed s) m.atomic.rest := Finset.sum_nonneg fun t _ => hborrowed t
  have hnonneg := (h.sem s).nonneg
  omega

/-- **一度に効く命令としていつも誰かが進めるなら、実装の中でも誰かが進める。** -/
theorem Inv.progress (h : Inv m) (hmax : ∀ s, (m.sem s).semCount < intMax)
    (hlocked : m.atomic.WellLocked)
    (hatomic : (∃ t, m.atomic.rest t ≠ []) → ∃ t m₁, m.atomic.advance t = some m₁)
    (hsome : ∃ t, m.rest t ≠ []) : ∃ t m₁, m.advance t = some m₁ := by
  by_contra hno
  have hstuck : ∀ t, m.advance t = none := fun t =>
    Option.eq_none_iff_forall_ne_some.mpr fun m₁ hm₁ => hno ⟨t, m₁, hm₁⟩
  obtain ⟨t, ht⟩ := hsome
  rw [← h.atomic_rest_of_stuck hmax hstuck] at ht
  obtain ⟨u, m₁, hu⟩ := hatomic ⟨t, ht⟩
  rw [h.stuck hmax hstuck hlocked u] at hu
  cases hu

end Workers

end Os161
