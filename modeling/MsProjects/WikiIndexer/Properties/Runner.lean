import MsProjects.Infra.Run
import MsProjects.WikiIndexer.Runner

/-! # 索引に足し終えてから書くこと -/

namespace WikiIndexer

open Infra List Function RunnerThread RunPc

variable {ι ε : Type*}

/-! ## 位置 -/

namespace RunPc

/-- 取り出したが、まだ索引に足していない entry。 -/
def held : RunPc ε → List ε
  | .add etr => [etr]
  | _ => []

def sawNull : RunPc ε → Bool
  | .check | .write | .stopped => true
  | _ => false

/-- `writeToDisk` を呼ぶことが決まった後。 -/
def closing : RunPc ε → Bool
  | .write | .stopped => true
  | _ => false

theorem sawNull_of_closing {pc : RunPc ε} (h : pc.closing = true) : pc.sawNull = true := by
  cases pc <;> simp_all [closing, sawNull]

theorem held_of_closing {pc : RunPc ε} (h : pc.closing = true) : pc.held = [] := by
  cases pc <;> simp_all [closing, held]

end RunPc

/-! ## `run` の一歩 -/

namespace RunnerThread

variable {t t' : RunnerThread ε}

/-- `run` は旗を書かず、entry を失わない。 -/
structure Ran (t t' : RunnerThread ε) : Prop where
  isComplete : t'.isComplete = t.isComplete
  isRunning : t'.isRunning = t.isRunning
  started : t.pc ≠ .idle
  kept : t'.added ++ t'.pc.held ++ t'.pvtQueue = t.added ++ t.pc.held ++ t.pvtQueue
  closing : t'.pc.closing = true → t.pc.closing = true ∨ t.isComplete = true
  sawNull : t'.pc.sawNull = true → t'.pvtQueue = t.pvtQueue ∧
    (t.pc.sawNull = true ∨ t.pvtQueue = [])
  stays : t.isComplete = true → t.pc.sawNull = true →
    t'.pc.sawNull = true ∧ t'.pvtQueue = t.pvtQueue

theorem ran_of_run (h : t.run = some t') : Ran t t' := by
  rw [run] at h
  rcases hpc : t.pc with _ | _ | _ | etr | _ | _
  case poll =>
    rcases hq : t.pvtQueue with _ | ⟨etr, rest⟩ <;>
      simp only [hpc, hq, Option.some.injEq] at h <;> subst h <;> constructor <;>
      simp [hpc, hq, held, closing, sawNull]
  case check =>
    simp only [hpc, Option.some.injEq] at h
    subst h
    cases hc : t.isComplete <;> constructor <;>
      simp [hpc, hc, held, closing, sawNull]
  all_goals
    simp only [hpc, Option.some.injEq, reduceCtorEq] at h
    try subst h
    try constructor
  all_goals simp [hpc, held, closing, sawNull]

end RunnerThread

namespace IndexerRunner

variable [DecidableEq ι] {i : ι} {s s' : IndexerRunner ι ε} {a : Actor ι}

/-- producer の残りのうち、`i` 番の queue に入る entry。 -/
def entriesFor (i : ι) : List (Action ι ε) → List ε
  | [] => []
  | .add j etr :: rest => if j = i then etr :: entriesFor i rest else entriesFor i rest
  | _ :: rest => entriesFor i rest

/-- `setComplete` の後に同じ queue への `add` は来ない。 -/
def Ordered (todo : List (Action ι ε)) : Prop :=
  todo.Pairwise fun a b => ∀ i etr, a = .setComplete i → b ≠ .add i etr

@[simp] theorem entriesFor_start (j : ι) (rest : List (Action ι ε)) :
    entriesFor i (.start j :: rest) = entriesFor i rest := rfl

@[simp] theorem entriesFor_setComplete (j : ι) (rest : List (Action ι ε)) :
    entriesFor i (.setComplete j :: rest) = entriesFor i rest := rfl

theorem entriesFor_eq_nil {todo : List (Action ι ε)} (h : ∀ etr, Action.add i etr ∉ todo) :
    entriesFor i todo = [] := by
  induction todo with
  | nil => rfl
  | cons b rest ih =>
    have hrest := ih fun etr hmem => h etr (mem_cons_of_mem _ hmem)
    cases b with
    | add j etr =>
      have hj : j ≠ i := by
        rintro rfl
        exact h etr mem_cons_self
      rw [entriesFor, if_neg hj, hrest]
    | start j => exact hrest
    | setComplete j => exact hrest

/-! ## 一歩 -/

/-- 一つの thread から見た一歩。 -/
inductive Moves (i : ι) (s : IndexerRunner ι ε) (a : Actor ι) (s' : IndexerRunner ι ε) : Prop where
  | other : s'.rthreads i = s.rthreads i → (s'.todo = s.todo ∨ ∃ b, s.todo = b :: s'.todo) →
      entriesFor i s'.todo = entriesFor i s.todo →
      (a = .producer → s.todo.head? ≠ some (.setComplete i)) → Moves i s a s'
  | add (etr : ε) : s.todo = .add i etr :: s'.todo →
      s'.rthreads i = (s.rthreads i).enqueue etr → Moves i s a s'
  | start : s.todo = .start i :: s'.todo → s'.rthreads i = (s.rthreads i).start → Moves i s a s'
  | setComplete : a = .producer → s.todo = .setComplete i :: s'.todo →
      s'.rthreads i = (s.rthreads i).setComplete → Moves i s a s'
  | run : a = .consumer i → s'.todo = s.todo → (s.rthreads i).run = some (s'.rthreads i) →
      Moves i s a s'

theorem moves_of_step (i : ι) (h : s.step a = some s') : Moves i s a s' := by
  cases a with
  | producer =>
    rw [step] at h
    rcases htodo : s.todo with _ | ⟨b, todo⟩
    · simp [htodo] at h
    · simp only [htodo, Option.some.injEq] at h
      subst h
      cases b with
      | add j etr =>
        by_cases hj : j = i
        · subst hj
          exact .add etr (by simp [htodo, act, update]) (by simp [act, update])
        · exact .other (by simp [act, update, Ne.symm hj]) (.inr ⟨_, htodo⟩)
            (by simp [htodo, act, update, entriesFor, hj]) (by simp [htodo])
      | start j =>
        by_cases hj : j = i
        · subst hj
          exact .start (by simp [htodo, act, update]) (by simp [act, update])
        · exact .other (by simp [act, update, Ne.symm hj]) (.inr ⟨_, htodo⟩)
            (by simp [htodo, act, update]) (by simp [htodo])
      | setComplete j =>
        by_cases hj : j = i
        · subst hj
          exact .setComplete rfl (by simp [htodo, act, update]) (by simp [act, update])
        · exact .other (by simp [act, update, Ne.symm hj]) (.inr ⟨_, htodo⟩)
            (by simp [htodo, act, update]) (by simp [htodo, hj])
  | consumer j =>
    rw [step, Option.map_eq_some_iff] at h
    obtain ⟨t, ht, rfl⟩ := h
    by_cases hj : j = i
    · subst hj
      exact .run rfl rfl (by simpa [update] using ht)
    · exact .other (by simp [update, Ne.symm hj]) (.inl rfl) rfl (by simp)

/-! ## 不変量 -/

structure Inv (all : List ε) (i : ι) (s : IndexerRunner ι ε) : Prop where
  ordered : Ordered s.todo
  late : (s.rthreads i).isComplete = true → entriesFor i s.todo = []
  idle : (s.rthreads i).isRunning = false → (s.rthreads i).pc = .idle
  complete : (s.rthreads i).pc.closing = true → (s.rthreads i).isComplete = true
  kept : (s.rthreads i).added ++ (s.rthreads i).pc.held ++ (s.rthreads i).pvtQueue
    ++ entriesFor i s.todo = all

theorem Inv.step {all : List ε} (hinv : Inv all i s) (h : s.step a = some s') : Inv all i s' := by
  obtain ⟨hord, hlate, hidle, hcomp, hkept⟩ := hinv
  cases moves_of_step i h with
  | other hthread htodo hentries _ =>
    refine ⟨?_, ?_, hthread ▸ hidle, hthread ▸ hcomp, ?_⟩
    · rcases htodo with heq | ⟨b, heq⟩
      · exact heq ▸ hord
      · rw [heq] at hord
        exact (pairwise_cons.mp hord).2
    · rw [hthread, hentries]
      exact hlate
    · rw [hthread, hentries]
      exact hkept
  | add etr htodo hthread =>
    rw [htodo] at hord hlate hkept
    rw [entriesFor, if_pos rfl] at hlate hkept
    refine ⟨(pairwise_cons.mp hord).2, ?_, hthread ▸ hidle, hthread ▸ hcomp, ?_⟩
    · rw [hthread]
      intro hc
      exact absurd (hlate hc) (by simp)
    · rw [hthread, ← hkept]
      simp [enqueue]
  | start htodo hthread =>
    rw [htodo] at hord hlate hkept
    rw [entriesFor_start] at hlate hkept
    obtain ⟨-, hord⟩ := pairwise_cons.mp hord
    rw [start] at hthread
    split at hthread
    · exact ⟨hord, hthread ▸ hlate, hthread ▸ hidle, hthread ▸ hcomp, hthread ▸ hkept⟩
    · next hr =>
      rw [hidle (by simpa using hr)] at hkept
      exact ⟨hord, hthread ▸ hlate, by simp [hthread], by simp [hthread, closing],
        by simpa [hthread, held] using hkept⟩
  | setComplete _ htodo hthread =>
    rw [htodo] at hord hkept
    rw [entriesFor_setComplete] at hkept
    obtain ⟨hafter, hord⟩ := pairwise_cons.mp hord
    refine ⟨hord, ?_, hthread ▸ hidle, fun _ => by rw [hthread]; rfl, hthread ▸ hkept⟩
    intro _
    exact entriesFor_eq_nil fun etr hmem => hafter _ hmem i etr rfl rfl
  | run _ htodo hrun =>
    have hran := ran_of_run hrun
    refine ⟨htodo ▸ hord, ?_, ?_, ?_, ?_⟩
    · rw [hran.isComplete, htodo]
      exact hlate
    · rw [hran.isRunning]
      exact fun hr => absurd (hidle hr) hran.started
    · rw [hran.isComplete]
      exact fun hc => (hran.closing hc).elim hcomp id
    · rw [hran.kept, htodo]
      exact hkept

/-! ## 隙間 -/

/-- `null` を見た後に旗が立っているなら、queue に残りは無い。 -/
def Safe (i : ι) (s : IndexerRunner ι ε) : Prop :=
  (s.rthreads i).isComplete = true → (s.rthreads i).pc.sawNull = true → (s.rthreads i).pvtQueue = []

/--
`setComplete` が呼ばれるとき、thread は「`null` を見たがまだ `isComplete` を読んでいない、
しかも queue に entry がある」状態にない。
-/
def Timely (i : ι) (s : IndexerRunner ι ε) (a : Actor ι) : Prop :=
  a = .producer → s.todo.head? = some (.setComplete i) →
    ¬ ((s.rthreads i).pc = .check ∧ (s.rthreads i).pvtQueue ≠ [])

variable {all : List ε}

theorem Inv.pc_eq_check (hinv : Inv all i s) (hc : (s.rthreads i).isComplete = false)
    (hnull : (s.rthreads i).pc.sawNull = true) : (s.rthreads i).pc = .check := by
  have hclosing : ¬ (s.rthreads i).pc.closing = true := by
    intro hcl
    rw [hinv.complete hcl] at hc
    cases hc
  cases hpc : (s.rthreads i).pc <;> simp_all [sawNull, closing]

theorem Safe.step (hsafe : Safe i s) (hinv : Inv all i s) (h : s.step a = some s')
    (htimely : Timely i s a) : Safe i s' := by
  intro hc hnull
  cases moves_of_step i h with
  | other hthread _ _ _ =>
    rw [hthread] at hc hnull ⊢
    exact hsafe hc hnull
  | add etr htodo hthread =>
    rw [hthread] at hc
    have hlate := hinv.late hc
    rw [htodo, entriesFor, if_pos rfl] at hlate
    cases hlate
  | start htodo hthread =>
    rw [start] at hthread
    split at hthread
    · rw [hthread] at hc hnull ⊢
      exact hsafe hc hnull
    · rw [hthread] at hnull
      cases hnull
  | setComplete ha htodo hthread =>
    rw [hthread] at hnull ⊢
    cases hold : (s.rthreads i).isComplete with
    | true => exact hsafe hold hnull
    | false =>
      by_contra hq
      exact htimely ha (by rw [htodo]; rfl) ⟨hinv.pc_eq_check hold hnull, hq⟩
  | run _ _ hrun =>
    have hran := ran_of_run hrun
    obtain ⟨hq, hold⟩ := hran.sawNull hnull
    rw [hran.isComplete] at hc
    rw [hq]
    exact hold.elim (hsafe hc) id

theorem not_safe_of_not_timely (h : s.step a = some s') (hlate : ¬ Timely i s a) : ¬ Safe i s' := by
  simp only [Timely, not_forall, not_not] at hlate
  obtain ⟨ha, hhead, hpc, hq⟩ := hlate
  cases moves_of_step i h with
  | other _ _ _ hne => exact absurd hhead (hne ha)
  | add etr htodo _ | start htodo _ => simp [htodo] at hhead
  | setComplete _ _ hthread =>
    intro hsafe
    rw [Safe, hthread] at hsafe
    exact hq (hsafe rfl (by simp [setComplete, hpc, sawNull]))
  | run hc _ _ => simp [hc] at ha

theorem Safe.of_step (hinv : Inv all i s) (h : s.step a = some s') (hsafe : Safe i s') :
    Safe i s := by
  intro hc hnull
  cases moves_of_step i h with
  | other hthread _ _ _ =>
    rw [Safe, hthread] at hsafe
    exact hsafe hc hnull
  | add etr htodo _ =>
    have hlate := hinv.late hc
    rw [htodo, entriesFor, if_pos rfl] at hlate
    cases hlate
  | start _ hthread =>
    rw [start] at hthread
    split at hthread
    · rw [Safe, hthread] at hsafe
      exact hsafe hc hnull
    · next hr =>
      rw [hinv.idle (by simpa using hr)] at hnull
      cases hnull
  | setComplete _ _ hthread =>
    rw [Safe, hthread] at hsafe
    exact hsafe rfl hnull
  | run _ _ hrun =>
    have hran := ran_of_run hrun
    obtain ⟨hnull', hq⟩ := hran.stays hc hnull
    rw [← hq]
    exact hsafe (hran.isComplete.trans hc) hnull'

/-! ## 始まり -/

theorem entriesFor_append (todo todo' : List (Action ι ε)) :
    entriesFor i (todo ++ todo') = entriesFor i todo ++ entriesFor i todo' := by
  induction todo with
  | nil => rfl
  | cons b rest ih =>
    cases b with
    | add j etr =>
      rw [cons_append, entriesFor, entriesFor, ih]
      split
      · rfl
      · rfl
    | start j => exact ih
    | setComplete j => exact ih

theorem entriesFor_producer (threads : List ι) (entries : List (ι × ε)) :
    entriesFor i (producer threads entries) =
      (entries.filter fun p => p.1 = i).map fun p => p.2 := by
  have hclean : entriesFor i (threads.map .setComplete : List (Action ι ε)) = [] :=
    entriesFor_eq_nil fun etr => by simp
  rw [producer, entriesFor_append, hclean, append_nil]
  induction entries with
  | nil => rfl
  | cons p rest ih =>
    rw [flatMap_cons, entriesFor_append, ih]
    by_cases hp : p.1 = i <;> simp [entriesFor, hp]

omit [DecidableEq ι] in
theorem ordered_producer (threads : List ι) (entries : List (ι × ε)) :
    Ordered (producer threads entries) := by
  refine pairwise_append.mpr ⟨?_, ?_, ?_⟩
  · -- `cleanup` より前に `setComplete` は無い
    refine Pairwise.imp_of_mem (R := fun _ _ => True) ?_ (pairwise_of_forall fun _ _ => trivial)
    rintro a b ha - - i etr rfl
    simp at ha
  · refine Pairwise.imp_of_mem (R := fun _ _ => True) ?_ (pairwise_of_forall fun _ _ => trivial)
    rintro a b - hb - i etr - rfl
    simp at hb
  · rintro a ha b - i etr rfl
    simp at ha

theorem inv_initial (threads : List ι) (entries : List (ι × ε)) (i : ι) :
    Inv ((entries.filter fun p => p.1 = i).map fun p => p.2) i
      (initial (producer threads entries)) where
  ordered := ordered_producer threads entries
  late := by simp [initial, new]
  idle := by simp [initial, new]
  complete := by simp [initial, new, closing]
  kept := by
    simp only [initial, new, held, nil_append]
    exact entriesFor_producer threads entries

omit [DecidableEq ι] in
theorem safe_initial (todo : List (Action ι ε)) (i : ι) : Safe i (initial todo) := by
  simp [Safe, initial, new]

theorem Inv.added_iff_safe (hinv : Inv all i s) (hcl : (s.rthreads i).pc.closing = true) :
    (s.rthreads i).added = all ↔ Safe i s := by
  have hc := hinv.complete hcl
  have hkept := hinv.kept
  rw [held_of_closing hcl, hinv.late hc, append_nil, append_nil] at hkept
  constructor
  · intro hall _ _
    rw [← hall] at hkept
    simpa using hkept
  · intro hsafe
    rw [hsafe hc (sawNull_of_closing hcl), append_nil] at hkept
    exact hkept

/-- **`writeToDisk` の前にすべての entry が足されているのは、どの `setComplete` も隙間を避けたとき、かつそのときに限る。** -/
theorem added_iff_timely (threads : List ι) (entries : List (ι × ε))
    {tr : List (Transition (IndexerRunner ι ε) (Actor ι))} {u : IndexerRunner ι ε}
    (hrun : Run (fun s a s' => s.step a = some s') (initial (producer threads entries)) tr u)
    (i : ι) (hcl : (u.rthreads i).pc.closing = true) :
    (u.rthreads i).added = (entries.filter fun p => p.1 = i).map (fun p => p.2) ↔
      ∀ x ∈ tr, Timely i x.pre x.label := by
  have h0 := inv_initial threads entries i
  have hsafe0 := safe_initial (producer threads entries) i
  have hu := (hrun.invariant' (fun hp hstep => hp.step hstep) h0).1
  rw [hu.added_iff_safe hcl]
  have hiff := hrun.forall_iff (I := fun s => Inv _ i s ∧ Safe i s) (C := Timely i)
    (G := fun _ _ q => Safe i q)
    (fun hp hstep ht => ⟨⟨hp.1.step hstep, hp.2.step hp.1 hstep ht⟩, hp.2.step hp.1 hstep ht⟩)
    (fun _ hstep ht => not_safe_of_not_timely hstep ht) ⟨h0, hsafe0⟩
  rw [← hiff]
  constructor
  · intro hsafe
    exact (hrun.backward (fun hp hstep => hp.step hstep)
      (fun hp hstep hq => hq.of_step hp hstep) h0 hsafe).2
  · intro hall
    have hend := hrun.invariant (I := fun s => Inv _ i s ∧ Safe i s) (C := Timely i)
      (fun hp ht hstep => ⟨hp.1.step hstep, hp.2.step hp.1 hstep ht⟩) (hiff.mp hall) ⟨h0, hsafe0⟩
    exact hend.1.2

/-- 文書 0 と 1 の語 `a` を、partition 0 の thread に入れる。 -/
def twoEntries : List (Nat × TermIndexEntry) := [(0, ⟨['a'], 0, 1⟩), (0, ⟨['a'], 1, 2⟩)]

example : (addToIndexEntries 0 [(some ['a'], 1)]).bind (fun l =>
    (addToIndexEntries 1 [(some ['a'], 2)]).map fun l' => l ++ l') = some twoEntries := by
  decide

/-- 旗を立ててから thread が動けば、二つとも足される。 -/
theorem added_iff_timely_late_consumer :
    ∃ u tr, Run (fun s a s' => s.step a = some s') (initial (producer [0] twoEntries)) tr u ∧
      (u.rthreads 0).pc = .write ∧ (u.rthreads 0).added = twoEntries.map (fun p => p.2) ∧
      ∀ x ∈ tr, Timely 0 x.pre x.label := by
  have hfacts : ((replicate 5 .producer ++ replicate 6 (.consumer 0) :
      List (Actor Nat)).foldlM step (initial (producer [0] twoEntries))).map
        (fun u => ((u.rthreads 0).pc, (u.rthreads 0).added)) =
      some (.write, twoEntries.map fun p => p.2) := by
    decide +kernel
  obtain ⟨u, hu, heq⟩ := Option.map_eq_some_iff.mp hfacts
  obtain ⟨hrun, -⟩ := Run.of_foldlM hu
  obtain ⟨hpc, hadded⟩ := Prod.mk.inj heq
  refine ⟨u, _, hrun, hpc, hadded, (added_iff_timely [0] twoEntries hrun 0 ?_).mp ?_⟩
  · rw [hpc]
    rfl
  · rw [hadded]
    decide

/-- 一つ目を足して `null` を見た thread が旗を読む前に、二つ目と `cleanup` が入る。 -/
theorem entry_lost_in_gap :
    ∃ u tr, Run (fun s a s' => s.step a = some s') (initial (producer [0] twoEntries)) tr u ∧
      (u.rthreads 0).pc = .write ∧ (u.rthreads 0).added ≠ twoEntries.map fun p => p.2 := by
  have hfacts : (([.producer, .producer, .consumer 0, .consumer 0, .consumer 0, .producer,
      .producer, .producer, .consumer 0] : List (Actor Nat)).foldlM step
        (initial (producer [0] twoEntries))).map
        (fun u => ((u.rthreads 0).pc, (u.rthreads 0).added)) =
      some (.write, [⟨['a'], 0, 1⟩]) := by
    decide +kernel
  obtain ⟨u, hu, heq⟩ := Option.map_eq_some_iff.mp hfacts
  obtain ⟨hpc, hadded⟩ := Prod.mk.inj heq
  refine ⟨u, _, (Run.of_foldlM hu).1, hpc, ?_⟩
  rw [hadded]
  decide

end IndexerRunner

end WikiIndexer
