import MsProjects.Dynamo.Properties.Replication

/-! # 一つの insert -/

namespace Dynamo

open List Function Dynamo.System

variable {ι H : Type*} [LinearOrder H] [DecidableEq ι] {env : Env ι H} {s₀ s t : System ι} {ρ : Row}

variable {o c : ι} {key value : String} {l : Label ι}
  {tr : List (Infra.Transition (System ι) (Label ι))}

/-- message を届けるか、行を書く step。 -/
def Label.Delivers : Label ι → Prop
  | .connect _ | .store _ => True
  | _ => False

instance : DecidablePred (Label.Delivers : Label ι → Prop)
  | .connect _ | .store _ => isTrue trivial
  | .insert _ _ _ | .query _ _ | .delete _ _ | .returnQuery _ | .recoverNext _ | .crash _
  | .restart _ => isFalse id

/-- `s₀` で行 `ρ` の insert を一つ始めた後の状態。 -/
structure Single (s₀ : System ι) (ρ : Row) (s : System ι) : Prop where
  up : s.up = s₀.up
  table : ∀ n, ∃ j, s.table n = s₀.table n ++ replicate j ρ
  down : ∀ n, s.up n = false → s.table n = s₀.table n
  tasks : ∀ w ∈ s.tasks, w.row = ρ ∧ s.up w.node = true
  senders : ∀ x ∈ s.senders, x.2.type = .insert ∧ x.2.row = ρ
  isQueried : s.isQueried = s₀.isQueried
  querying : s.querying = s₀.querying
  answers : s.answers = s₀.answers

namespace Single

omit [DecidableEq ι] in
theorem of_eq (hs : Single s₀ ρ s) (hup : t.up = s.up) (htable : t.table = s.table)
    (htasks : ∀ w ∈ t.tasks, w ∈ s.tasks ∨ w.row = ρ ∧ s.up w.node = true)
    (hsenders : ∀ x ∈ t.senders, x ∈ s.senders ∨ x.2.type = .insert ∧ x.2.row = ρ)
    (hq : t.isQueried = s.isQueried) (hw : t.querying = s.querying)
    (ha : t.answers = s.answers) : Single s₀ ρ t where
  up := hup.trans hs.up
  table n := by rw [htable]; exact hs.table n
  down n hn := by rw [htable]; exact hs.down n (hup ▸ hn)
  tasks w hw := by
    rw [hup]
    rcases htasks w hw with hw | hw
    · exact hs.tasks w hw
    · exact hw
  senders x hx := by
    rcases hsenders x hx with hx | hx
    · exact hs.senders x hx
    · exact hx
  isQueried := hq.trans hs.isQueried
  querying := hw.trans hs.querying
  answers := ha.trans hs.answers

omit [DecidableEq ι] in
theorem of_quiet (hq : s₀.Quiet) (ρ : Row) : Single s₀ ρ s₀ where
  up := rfl
  table n := ⟨0, by simp⟩
  down _ _ := rfl
  tasks w hw := by simp [hq.2] at hw
  senders x hx := by simp [hq.1] at hx
  isQueried := rfl
  querying := rfl
  answers := rfl

theorem insert [Nontrivial ι] (hq : s₀.Quiet) (hc : env.getNode key = some c) (ho : s₀.up o = true) :
    Single s₀ (key, value) (env.insert s₀ o key value) := by
  rw [insert_eq hc]
  split
  · refine (of_quiet hq _).of_eq rfl rfl (fun w hw => ?_) (fun x hx => ?_) rfl rfl rfl
    · rcases mem_append.mp hw with hw | hw
      · exact .inl hw
      · rw [mem_singleton.mp hw]
        exact .inr ⟨rfl, ho⟩
    · rcases mem_append.mp hx with hx | hx
      · exact .inl hx
      · rw [mem_singleton.mp hx]
        exact .inr ⟨rfl, rfl⟩
  · refine (of_quiet hq _).of_eq rfl rfl (fun w hw => .inl hw) (fun x hx => ?_) rfl rfl rfl
    rcases mem_append.mp hx with hx | hx
    · exact .inl hx
    · rw [mem_singleton.mp hx]
      exact .inr ⟨rfl, rfl⟩

theorem connects (hs : Single s₀ ρ s) {a b : List (ι × Message ι)} {host : ι} {m : Message ι}
    (hsplit : s.senders = a ++ (host, m) :: b) (h : Connects env s a b host m t) :
    Single s₀ ρ t := by
  have hmem : (host, m) ∈ s.senders := by simp [hsplit]
  obtain ⟨hins, hrow⟩ := hs.senders _ hmem
  have hsub : ∀ x ∈ a ++ b, x ∈ s.senders := by
    intro x hx
    rw [hsplit]
    rcases mem_append.mp hx with hx | hx
    · exact mem_append_left _ hx
    · exact mem_append_right _ (mem_cons_of_mem _ hx)
  cases h with
  | taken hup =>
    refine hs.of_eq rfl rfl (fun w hw => ?_) (fun x hx => ?_) rfl rfl rfl
    · rcases mem_append.mp hw with hw | hw
      · exact .inl hw
      · rw [mem_singleton.mp hw]
        exact .inr ⟨hrow, hup⟩
    · rcases mem_append.mp hx with hx | hx
      · exact .inl (hsub x hx)
      · rw [mem_singleton.mp hx]
        exact .inr ⟨hins, hrow⟩
  | skipped =>
    refine hs.of_eq rfl rfl (fun w hw => .inl hw) (fun x hx => ?_) rfl rfl rfl
    rcases mem_append.mp hx with hx | hx
    · exact .inl (hsub x hx)
    · rw [mem_singleton.mp hx]
      exact .inr ⟨hins, hrow⟩
  | dropped => exact hs.of_eq rfl rfl (fun w hw => .inl hw) (fun x hx => .inl (hsub x hx)) rfl rfl rfl
  | other _ _ htype | otherFailed _ htype => exact absurd hins htype

theorem store (hs : Single s₀ ρ s) {a b : List (Task ι)} {w : Task ι}
    (hsplit : s.tasks = a ++ w :: b) :
    Single s₀ ρ { s.setTable w.node (s.table w.node ++ [w.row]) with tasks := a ++ b } := by
  obtain ⟨hrow, hup⟩ := hs.tasks w (by simp [hsplit])
  refine ⟨hs.up, fun n => ?_, fun n hn => ?_, fun v hv => ?_, hs.senders, hs.isQueried, hs.querying,
    hs.answers⟩
  · obtain ⟨j, hj⟩ := hs.table n
    by_cases hne : n = w.node
    · subst hne
      refine ⟨j + 1, ?_⟩
      simp only [setTable_table, update_self, hj, hrow, append_assoc, replicate_succ']
    · exact ⟨j, by simpa [hne] using hj⟩
  · have hne : n ≠ w.node := by
      rintro rfl
      rw [show s.up w.node = false from hn] at hup
      cases hup
    simpa [hne] using hs.down n hn
  · apply hs.tasks v
    rw [hsplit]
    rcases mem_append.mp hv with hv | hv
    · exact mem_append_left _ hv
    · exact mem_append_right _ (mem_cons_of_mem _ hv)

theorem step (hs : Single s₀ ρ s) (hl : l.Delivers) (h : env.Step s l t) : Single s₀ ρ t := by
  cases l with
  | connect i =>
    obtain ⟨a, b, host, m, hsplit, -, hc⟩ := connect_cases h
    exact hs.connects hsplit hc
  | store i =>
    obtain ⟨a, b, w, hsplit, -, rfl⟩ := store_cases h
    exact hs.store hsplit
  | insert | query | delete | returnQuery | recoverNext | crash | restart => exact hl.elim

end Single

/-! ## 終わること -/

def work (s : System ι) : Nat := (s.senders.map fun x => 2 * (4 - x.2.replica)).sum + s.tasks.length

theorem work_step (hs : Single s₀ ρ s) (hsound : Sound env s) (hl : l.Delivers) (h : env.Step s l t) :
    work t < work s := by
  cases l with
  | connect i =>
    obtain ⟨a, b, host, m, hsplit, -, hc⟩ := connect_cases h
    have hmem : (host, m) ∈ s.senders := by simp [hsplit]
    obtain ⟨hins, -⟩ := hs.senders _ hmem
    obtain ⟨-, -, hle, -⟩ : Placed env m := hsound.placed _ hmem hins
    cases hc with
    | taken _ _ _ hr | skipped _ _ hr =>
      simp only [work, hsplit, addTask_senders, addTask_tasks, sendMsg_senders,
        sendMsg_tasks, map_append, map_cons, map_nil, sum_append,
        sum_cons, sum_nil, length_append, length_singleton,
        Message.advance_replica]
      omega
    | dropped =>
      simp only [work, hsplit, map_append, map_cons, sum_append, sum_cons]
      omega
    | other _ _ htype => exact absurd hins htype
    | otherFailed _ htype => exact absurd hins htype
  | store i =>
    obtain ⟨a, b, w, hsplit, -, rfl⟩ := store_cases h
    simp only [work, hsplit, setTable_senders, length_append, length_cons]
    omega
  | insert | query | delete | returnQuery | recoverNext | crash | restart => exact hl.elim

theorem exists_delivers (hq : ¬ s.Quiet) : ∃ l t, Label.Delivers l ∧ env.Step s l t := by
  cases htasks : s.tasks with
  | cons w tasks => exact ⟨.store 0, _, trivial, by rw [Env.Step, Env.step, Env.store, htasks]; rfl⟩
  | nil =>
    cases hsenders : s.senders with
    | nil => exact absurd ⟨hsenders, htasks⟩ hq
    | cons x senders =>
      have hbusy : s.busy x.2.sendto = false := by simp [busy, htasks]
      refine ⟨.connect 0, ?_⟩
      simp only [Env.Step, Env.step, Env.connect, hsenders, getElem?_cons_zero, hbusy]
      split
      · exact ⟨_, trivial, rfl⟩
      · exact ⟨_, trivial, rfl⟩

/-! ## 結果 -/

omit [DecidableEq ι] in
theorem sound_of_quiet (hq : s.Quiet) : Sound env s := by
  refine ⟨?_, ?_, ?_⟩ <;> intro x hx <;> simp [hq.1] at hx

theorem Sound.delivers (hs : Sound env s) (hl : l.Delivers) (h : env.Step s l t) : Sound env t := by
  cases l with
  | connect i =>
    obtain ⟨a, b, host, m, hsplit, -, hc⟩ := connect_cases h
    exact hc.sound hs hsplit
  | store i =>
    obtain ⟨a, b, w, hsplit, -, rfl⟩ := store_cases h
    exact hs.of_senders fun x hx => .inl hx
  | insert | query | delete | returnQuery | recoverNext | crash | restart => exact hl.elim

omit [DecidableEq ι] in
theorem keeps_of_delivers {n : ι} (hl : l.Delivers) : Keeps n s l := by
  cases l with
  | connect | store => trivial
  | insert | query | delete | returnQuery | recoverNext | crash | restart => exact hl.elim

theorem starts_of_delivers {n : ι} (hl : l.Delivers) : starts env n ρ l = false := by
  cases l with
  | connect | store => rfl
  | insert | query | delete | returnQuery | recoverNext | crash | restart => exact hl.elim

theorem work_insert_le [Nontrivial ι] (hq : s₀.Quiet) (hc : env.getNode key = some c) :
    work (env.insert s₀ o key value) ≤ 8 := by
  rw [insert_eq hc]
  split
  · simp [work, hq.1, hq.2, origin]
  · simp [work, hq.1, hq.2, origin]

theorem length_add_work_le (hrun : Infra.Run env.Step s tr t) (hs : Single s₀ ρ s)
    (hsound : Sound env s) (hl : ∀ x ∈ tr, x.label.Delivers) :
    tr.length + work t ≤ work s ∧ Single s₀ ρ t := by
  induction hrun with
  | nil => exact ⟨by simp, hs⟩
  | cons hstep _ ih =>
    have hdel := hl _ mem_cons_self
    have hlt := work_step hs hsound hdel hstep
    obtain ⟨hle, hend⟩ := ih (hs.step hdel hstep) (hsound.delivers hdel hstep)
      fun x hx => hl x (mem_cons_of_mem _ hx)
    exact ⟨by rw [length_cons]; omega, hend⟩

theorem table_of_single [Fintype ι] (hcard : 2 < Fintype.card ι) (hq₀ : s₀.Quiet)
    (hc : env.getNode key = some c) (hrun : Infra.Run env.Step (env.insert s₀ o key value) tr t)
    (hl : ∀ x ∈ tr, x.label.Delivers) (hs : Single s₀ (key, value) t) (hq : t.Quiet) (n : ι) :
    t.table n = s₀.table n ++
      if s₀.up n = true ∧ n ∈ env.owners key then [(key, value)] else [] := by
  have := nontrivial_of_card hcard
  have hnodup := env.owners_nodup hcard
  cases hup : s₀.up n with
  | false => simp [hs.down n (hs.up ▸ hup)]
  | true =>
    have hsound : Sound env (env.insert s₀ o key value) := sound_insert (sound_of_quiet hq₀) hc
    have hup' : (env.insert s₀ o key value).up n = true := by
      rw [insert_eq hc]
      split <;> exact hup
    have hrun' : balance env t n (key, value) = _ ∧ _ :=
      balance_run hnodup hrun hsound hup' fun x hx => keeps_of_delivers (hl x hx)
    have hbal := hrun'.1
    have hzero : tr.countP (fun x => starts env n (key, value) x.label) = 0 := by
      rw [countP_eq_zero]
      intro x hx
      simp [starts_of_delivers (hl x hx)]
    rw [hzero, balance_insert (hnodup key) hc, balance_of_quiet hq, balance_of_quiet hq₀] at hbal
    obtain ⟨j, hj⟩ := hs.table n
    rw [hj, count_append, count_replicate_self] at hbal
    rw [hj]
    by_cases hmem : n ∈ env.owners key
    · obtain rfl : j = 1 := by simpa [starts, hmem] using hbal
      simp [hmem]
    · obtain rfl : j = 0 := by simpa [starts, hmem] using hbal
      simp [hmem]

/-- **insert の行は、担当の node とその二つの successor のうち生きているものに、ちょうど一つずつ入る。** -/
theorem insert_replicated [Fintype ι] (hcard : 3 ≤ Fintype.card ι) (env : Env ι H) {o c : ι}
    {key value : String} {s₁ : System ι} {tr : List (Infra.Transition (System ι) (Label ι))}
    (hq : s₀.Quiet) (hc : env.getNode key = some c)
    (hinsert : env.Step s₀ (.insert o key value) s₁) (hrun : Infra.Run env.Step s₁ tr t)
    (hl : ∀ x ∈ tr, x.label.Delivers) :
    tr.length ≤ 8 ∧ (¬ t.Quiet → ∃ l u, Label.Delivers l ∧ env.Step t l u) ∧
      (t.Quiet → ∀ n, t.table n = s₀.table n ++
        if s₀.up n = true ∧ (n = c ∨ n = env.ring.successor c ∨
          n = env.ring.successor (env.ring.successor c)) then [(key, value)] else []) := by
  have := nontrivial_of_card hcard
  obtain ⟨ho, rfl⟩ : s₀.up o = true ∧ env.insert s₀ o key value = s₁ := by
    simpa [Env.Step, Env.step] using hinsert
  obtain ⟨hlen, hs⟩ := length_add_work_le hrun (Single.insert hq hc ho)
    (sound_insert (sound_of_quiet hq) hc) hl
  refine ⟨?_, exists_delivers, fun hquiet n => ?_⟩
  · have hwork : work (env.insert s₀ o key value) ≤ 8 := work_insert_le hq hc
    omega
  · have htable := table_of_single (by omega) hq hc hrun hl hs hquiet n
    simpa [Env.owners_eq hc] using htable

/-! ## 三つの node の輪 -/

def trioRing : Ring (Fin 3) Nat where
  hashKey i := 10 * (i.val + 1)
  predessor i := i - 1
  successor i := i + 1
  cyclic := { injective := by unfold Injective; decide
              adjacent := by unfold Infra.IsLowest; decide }
  successor_predessor := by decide
  predessor_successor := by decide

/-- 文字列の長さを hash とする環境。 -/
def trio : Env (Fin 3) Nat where
  ring := trioRing
  genHash := String.length
  nodeMap := [0, 1, 2]
  mem_nodeMap := by decide
  keySet m := m
  keySet_perm _ := .refl _
  quotedSelect _ _ := none
  quotedDelete _ _ := none

/-- node 1 が落ちているとき、node 0 の担当する key は node 0 と node 2 に入る。 -/
theorem insert_replicated_trio :
    ∃ s₁ tr t, trio.Step (boot fun n => n ≠ 1) (.insert 0 "k" "v") s₁ ∧
      Infra.Run trio.Step s₁ tr t ∧ t.Quiet ∧ tr.length ≤ 8 ∧
      t.table 0 = [("k", "v")] ∧ t.table 1 = [] ∧ t.table 2 = [("k", "v")] := by
  obtain ⟨s₁, hs₁⟩ : ∃ s₁, trio.step (boot fun n => n ≠ 1) (.insert 0 "k" "v") = some s₁ := ⟨_, rfl⟩
  obtain ⟨t, ht⟩ : ∃ t, [Label.store 0, .connect 0, .connect 0, .store 0, .connect 0].foldlM
      trio.step s₁ = some t := by
    cases hs₁
    exact ⟨_, rfl⟩
  obtain ⟨hrun, hlabels⟩ := Infra.Run.of_foldlM ht
  have hq : t.Quiet := by
    cases hs₁
    cases ht
    exact ⟨rfl, rfl⟩
  obtain ⟨hlen, -, htable⟩ := insert_replicated (by decide) trio ⟨rfl, rfl⟩
    (show trio.getNode "k" = some 0 by decide) hs₁ hrun
    (Infra.Run.forall_label hlabels (by decide))
  refine ⟨s₁, _, t, hs₁, hrun, hq, hlen, ?_, ?_, ?_⟩
  · exact (htable hq 0).trans rfl
  · exact (htable hq 1).trans rfl
  · exact (htable hq 2).trans rfl

end Dynamo
