import MsProjects.Dynamo.Properties.Query

/-! # 落ちた node の回復 -/

namespace Dynamo

open List Function Infra Env Dynamo.System

open Infra (IsLowest Owns)

variable {ι H : Type*} [LinearOrder H] [DecidableEq ι] {env : Env ι H} {s t base : System ι}
  {x n : ι} {ρ : Row}

/-! ## 担当の判定 -/

omit [DecidableEq ι] in
theorem isMyPartiton_iff_getNode [Finite ι] [Nontrivial ι] (env : Env ι H) {key : String}
    (hlow : ∀ i, IsLowest env.ring.hashKey i → env.genHash key ≠ env.ring.hashKey i) (n : ι) :
    env.ring.isMyPartiton n (env.genHash key) = true ↔ env.getNode key = some n := by
  obtain ⟨c, hpart⟩ := env.ring.exists_isMyPartiton_iff hlow
  have hget : env.getNode key = some c := Ring.getNodeLoop_eq hpart (env.mem_nodeMap c) none
  rw [hpart, hget, Option.some.injEq, eq_comm]

/-! ## 履歴 -/

/-- `x` だけが落ちることのある、insert の履歴の step。 -/
def History (x : ι) (s : System ι) : Label ι → Prop
  | .delete _ _ => False
  | .crash y => y = x ∧ Vacant s x
  | .restart y => y = x
  | .recoverNext y => y = x
  | _ => True

instance (s : System ι) (x : ι) : Decidable (Vacant s x) :=
  inferInstanceAs (Decidable ((∀ y ∈ s.senders, y.1 ≠ x) ∧ ∀ w ∈ s.tasks, w.node ≠ x))

instance (x : ι) (s : System ι) : DecidablePred (History x s)
  | .delete _ _ => isFalse id
  | .crash y => inferInstanceAs (Decidable (y = x ∧ Vacant s x))
  | .restart y | .recoverNext y => inferInstanceAs (Decidable (y = x))
  | .insert _ _ _ | .query _ _ | .connect _ | .store _ | .returnQuery _ => isTrue trivial

omit [DecidableEq ι] in
theorem History.keeps {l : Label ι} (h : History x s l) (hne : n ≠ x) : Keeps n s l := by
  cases l with
  | delete => exact h
  | crash y =>
    obtain ⟨rfl, hvacant⟩ := h
    exact ⟨hne.symm, hvacant⟩
  | restart y | recoverNext y =>
    obtain rfl : y = x := h
    exact hne.symm
  | insert | query | connect | store | returnQuery => trivial

/-- 列の中で insert された行。 -/
def inserted (tr : List (Infra.Transition (System ι) (Label ι))) : List Row :=
  tr.filterMap fun x => x.label.row?

theorem countP_starts (tr : List (Infra.Transition (System ι) (Label ι))) :
    tr.countP (fun x => starts env n ρ x.label) =
      if n ∈ env.owners ρ.1 then (inserted tr).count ρ else 0 := by
  induction tr with
  | nil => simp [inserted]
  | cons x tr ih =>
    rw [countP_cons, ih]
    obtain ⟨pre, label, post⟩ := x
    cases label with
    | insert o key value =>
      by_cases hρ : (key, value) = ρ
      · subst hρ
        by_cases hn : n ∈ env.owners key <;> simp [starts, hn, inserted, Label.row?]
      · simp [starts, hρ, inserted, Label.row?]
    | query | delete | connect | store | returnQuery | recoverNext | crash | restart =>
      simp [starts, inserted, Label.row?]

theorem count_table [Fintype ι] (hcard : 2 < Fintype.card ι) {up : ι → Bool}
    {tr : List (Infra.Transition (System ι) (Label ι))} (hup : up n = true)
    (hrun : Infra.Run env.Step (boot up) tr s) (hl : ∀ y ∈ tr, History x y.pre y.label)
    (hne : n ≠ x) (hq : s.Quiet) (ρ : Row) :
    (s.table n).count ρ = (if n ∈ env.owners ρ.1 then (inserted tr).count ρ else 0) ∧
      s.up n = true := by
  have := nontrivial_of_card hcard
  have hboot : (boot up).Quiet := ⟨rfl, rfl⟩
  have hbal : balance env s n ρ = _ ∧ _ := balance_run (env.owners_nodup hcard) hrun
    (sound_of_quiet hboot) hup fun y hy => (hl y hy).keeps hne
  have hend : balance env s n ρ = _ := balance_of_quiet hq
  refine ⟨?_, hbal.2.2⟩
  rw [← countP_starts, ← hend, hbal.1, balance_of_quiet hboot]
  simp [boot]

/-- `x` 以外の node は動いていて、担当の行をちょうど一つずつ持つ。 -/
structure Stored (env : Env ι H) (rows : List Row) (x : ι) (s : System ι) : Prop where
  quiet : s.Quiet
  up : ∀ n, n ≠ x → s.up n = true
  keys : (rows.map Prod.fst).Nodup
  lowest : ∀ row ∈ rows, ∀ i, IsLowest env.ring.hashKey i → env.genHash row.1 ≠ env.ring.hashKey i
  count : ∀ n, n ≠ x → ∀ row, (s.table n).count row = if n ∈ env.owners row.1 then rows.count row else 0

namespace Stored

variable {rows : List Row}

section

variable (hs : Stored env rows x s) (hne : n ≠ x)

include hs hne

theorem mem_table_iff : ρ ∈ s.table n ↔ ρ ∈ rows ∧ n ∈ env.owners ρ.1 := by
  have hcount := hs.count n hne ρ
  rw [← count_pos_iff, hcount]
  by_cases hn : n ∈ env.owners ρ.1 <;> simp [hn]

theorem nodup_table : ((s.table n).map Prod.fst).Nodup := by
  have hrows : ∀ row, rows.count row ≤ 1 := nodup_iff_count_le_one.mp (Nodup.of_map _ hs.keys)
  have hnodup : (s.table n).Nodup := by
    rw [nodup_iff_count_le_one]
    intro row
    rw [hs.count n hne]
    split
    · exact hrows row
    · exact Nat.zero_le 1
  refine Nodup.map_on (fun a ha b hb hab => ?_) hnodup
  exact inj_on_of_nodup_map hs.keys ((hs.mem_table_iff hne).mp ha).1
    ((hs.mem_table_iff hne).mp hb).1 hab

theorem mem_filter_iff [Finite ι] [Nontrivial ι] {c : ι} (hn : n = c ∨ n = env.ring.successor c)
    (ρ : Row) :
    ρ ∈ (s.table n).filter (fun row => env.ring.isMyPartiton c (env.genHash row.1)) ↔
      ρ ∈ rows ∧ env.getNode ρ.1 = some c := by
  rw [mem_filter, hs.mem_table_iff hne]
  constructor
  · rintro ⟨⟨hmem, -⟩, hpart⟩
    exact ⟨hmem, (isMyPartiton_iff_getNode env (hs.lowest ρ hmem) c).mp hpart⟩
  · rintro ⟨hmem, hget⟩
    refine ⟨⟨hmem, ?_⟩, (isMyPartiton_iff_getNode env (hs.lowest ρ hmem) c).mpr hget⟩
    rw [owners_eq hget]
    rcases hn with rfl | rfl <;> simp

end

end Stored

/-! ## `recover` の段階 -/

def Label.Recovers (x : ι) : Label ι → Prop
  | .connect _ | .store _ => True
  | .recoverNext y => y = x
  | _ => False

instance (x : ι) : DecidablePred (Label.Recovers x : Label ι → Prop)
  | .connect _ | .store _ => isTrue trivial
  | .recoverNext y => inferInstanceAs (Decidable (y = x))
  | .insert _ _ _ | .query _ _ | .delete _ _ | .returnQuery _ | .crash _ | .restart _ => isFalse id

omit [DecidableEq ι] in
theorem Label.recovers_iff (l : Label ι) : l.Recovers x ↔ l.Delivers ∨ l = .recoverNext x := by
  cases l <;> simp [Recovers, Delivers]

/-- 行を求める message の種類。 -/
inductive Fetch where
  /-- 相手の担当の行を求める "recovery"。 -/
  | own
  /-- 相手のすべての行を求める "@-recovery"。 -/
  | all

namespace Fetch

def type : Fetch → MsgType
  | own => .recovery
  | all => .atRecovery

def rows (env : Env ι H) (s : System ι) (n : ι) : Fetch → List Row
  | own => (s.table n).filter fun row => env.ring.isMyPartiton n (env.genHash row.1)
  | all => s.table n

def message (f : Fetch) (x n : ι) : Message ι := { type := f.type, sender := x, sendto := n }

end Fetch

def arrivedAt (base : System ι) (x : ι) (rows : List Row) : System ι :=
  { base with
    recoveryCursor := update base.recoveryCursor x rows
    recovery := update base.recovery x true }

structure Awaits (x : ι) (base : System ι) : Prop where
  quiet : base.Quiet
  up : ∀ n, base.up n = true
  recovery : base.recovery x = false
  cursor : base.recoveryCursor x = []

/-- 届いた行を入れ終えた状態。 -/
def received (base : System ι) (x : ι) (rows : List Row) (next : Recovering) : System ι :=
  { base with
    table := update base.table x (base.table x ++ rows)
    recovery := update base.recovery x false
    recoveryCursor := update base.recoveryCursor x []
    recovering := update base.recovering x next }

namespace Awaits

variable {f : Fetch} {k : Nat} {l : Label ι}

theorem received (hb : Awaits x base) (rows : List Row) (next : Recovering) :
    Awaits x (received base x rows next) :=
  ⟨hb.quiet, hb.up, update_self _ _ _, update_self _ _ _⟩

/-- 行を求めて返事を受け取り、次に進む。 -/
theorem until_fetch {Q : System ι → Prop} {u : System ι} (hb : Awaits x base)
    (hne : base.recovering x ≠ .idle)
    (hnext : env.recoverNext
      (arrivedAt base x (env.keySet (putAll [] (f.rows env base n)))) x = some u)
    (h : Until env.Step (Label.Recovers x) (·.recovering x ≠ .idle) Q k u) :
    Until env.Step (Label.Recovers x) (·.recovering x ≠ .idle) Q (k + 3)
      (base.sendMsg x (f.message x n)) := by
  have hno (host : ι) (m : Message ι) :
      ∀ a v, a = .recoverNext x → ¬ env.Step (base.sendMsg host m) a v := by
    rintro a v rfl hstep
    simp [Env.Step, step, recoverNext, sendMsg, hb.recovery] at hstep
  refine until_deliver Label.recovers_iff hb.quiet (hno _ _) hne ?_
  have hreply : env.deliver base x (f.message x n) = base.sendMsg n
      { type := .recoveryResult, sender := x, sendto := x, result := putAll [] (f.rows env base n) } := by
    rw [deliver, if_pos (hb.up _)]
    cases f <;> rfl
  rw [hreply]
  refine until_deliver Label.recovers_iff hb.quiet (hno _ _) hne ?_
  rw [deliver, if_pos (hb.up _)]
  simp only [processMessage, addRecovery, hb.cursor, nil_append]
  exact until_only Label.recovers_iff hb.quiet hnext hne h

end Awaits

theorem recovering_received {rows : List Row} {next : Recovering} :
    (received base x rows next).recovering x = next := update_self _ _ _

/-- predessor の行を入れ終えた状態。 -/
def afterPredessor (env : Env ι H) (base : System ι) (x : ι) : System ι :=
  received base x (env.keySet (putAll [] (Fetch.own.rows env base (env.ring.predessor x))))
    .predessorPredessor

/-- predessor の predessor の行を入れ終えた状態。 -/
def afterPredessorPredessor (env : Env ι H) (base : System ι) (x : ι) : System ι :=
  received (afterPredessor env base x) x
    (env.keySet (putAll [] (Fetch.own.rows env (afterPredessor env base x)
      (env.ring.predessor (env.ring.predessor x))))) .successor

/-- successor の行から自分の担当の行を入れ終えた状態。 -/
def afterSuccessor (env : Env ι H) (base : System ι) (x : ι) : System ι :=
  received (afterPredessorPredessor env base x) x
    ((env.keySet (putAll [] (Fetch.all.rows env (afterPredessorPredessor env base x)
      (env.ring.successor x)))).filter fun row => env.ring.isMyPartiton x (env.genHash row.1)) .idle

section recoverNext

variable {rows : List Row}

theorem recoverNext_predessor (h : base.recovering x = .predessor) :
    env.recoverNext (arrivedAt base x rows) x =
      some ((received base x rows .predessorPredessor).sendMsg x
        (Fetch.own.message x (env.ring.predessor (env.ring.predessor x)))) := by
  simp [recoverNext, arrivedAt, h, recoverTo, insertReplications, received,
    setTable, Fetch.message, Fetch.type]

theorem recoverNext_predessorPredessor (h : base.recovering x = .predessorPredessor) :
    env.recoverNext (arrivedAt base x rows) x =
      some ((received base x rows .successor).sendMsg x
        (Fetch.all.message x (env.ring.successor x))) := by
  simp [recoverNext, arrivedAt, h, recoverTo, insertReplications, received,
    setTable, Fetch.message, Fetch.type]

theorem recoverNext_successor (h : base.recovering x = .successor) :
    env.recoverNext (arrivedAt base x rows) x =
      some (received base x
        (rows.filter fun row => env.ring.isMyPartiton x (env.genHash row.1)) .idle) := by
  simp [recoverNext, arrivedAt, h, recoverTo, insertMissedKeys, received, setTable]

end recoverNext

theorem until_recover (hb : Awaits x base) (hfirst : base.recovering x = .predessor) :
    Until env.Step (Label.Recovers x) (·.recovering x ≠ .idle) (· = afterSuccessor env base x) 9
      (base.sendMsg x (Fetch.own.message x (env.ring.predessor x))) := by
  have hb₁ : Awaits x (afterPredessor env base x) := hb.received _ _
  have hb₂ : Awaits x (afterPredessorPredessor env base x) := hb₁.received _ _
  have hb₃ : Awaits x (afterSuccessor env base x) := hb₂.received _ _
  refine hb.until_fetch (by simp [hfirst]) (recoverNext_predessor hfirst) ?_
  refine hb₁.until_fetch (by simp [afterPredessor, recovering_received])
    (recoverNext_predessorPredessor recovering_received) ?_
  refine hb₂.until_fetch (by simp [afterPredessorPredessor, recovering_received])
    (recoverNext_successor recovering_received) ?_
  refine until_done Label.recovers_iff hb₃.quiet ?_ rfl
  rintro a u rfl hstep
  have hrecovery : (received _ _ _ _).recovery x = false := hb₃.recovery
  simp [Env.Step, step, recoverNext, hrecovery] at hstep

/-! ## 結果 -/

/-- 回復の最初の message を送る直前の状態。 -/
def restarted (s : System ι) (x : ι) : System ι :=
  { s with
    up := update s.up x true
    table := update s.table x []
    resultCursor := update s.resultCursor x []
    isQueried := update s.isQueried x false
    recoveryCursor := update s.recoveryCursor x []
    recovery := update s.recovery x false
    recovering := update s.recovering x .predessor
    delrows := update s.delrows x 0 }

namespace Stored

variable {rows : List Row}

theorem awaits (hs : Stored env rows x s) : Awaits x (restarted s x) := by
  refine ⟨hs.quiet, fun n => ?_, update_self _ _ _, update_self _ _ _⟩
  by_cases hn : n = x
  · subst hn
    exact update_self _ _ _
  · exact (update_of_ne hn _ _).trans (hs.up n hn)

theorem keySet_perm (hs : Stored env rows x s) (hne : n ≠ x) {l : List Row}
    (hl : l.Sublist (s.table n)) : (env.keySet (putAll [] l)).Perm l := by
  have hput : putAll [] l = l := putAll_of_nodup ((hl.map Prod.fst).nodup (hs.nodup_table hne))
  have hperm := env.keySet_perm (putAll [] l)
  rwa [hput] at hperm ⊢

theorem table_perm [Fintype ι] (hcard : 2 < Fintype.card ι) (hs : Stored env rows x s) :
    ((afterSuccessor env (restarted s x) x).table x).Perm
      ((s.table (env.ring.predessor x)).filter (fun row =>
          env.ring.isMyPartiton (env.ring.predessor x) (env.genHash row.1)) ++
        (s.table (env.ring.predessor (env.ring.predessor x))).filter (fun row =>
          env.ring.isMyPartiton (env.ring.predessor (env.ring.predessor x)) (env.genHash row.1)) ++
        (s.table (env.ring.successor x)).filter fun row =>
          env.ring.isMyPartiton x (env.genHash row.1)) := by
  have := nontrivial_of_card hcard
  have hpred : env.ring.predessor x ≠ x := env.ring.cyclic.pred_ne x
  have hpred₂ : env.ring.predessor (env.ring.predessor x) ≠ x := env.ring.cyclic.pred_pred_ne hcard x
  have hsucc : env.ring.successor x ≠ x := env.ring.successor_ne x
  simp only [afterSuccessor, afterPredessorPredessor, afterPredessor, received, restarted,
    update_self, Fetch.rows, update_of_ne hpred, update_of_ne hpred₂,
    update_of_ne hsucc, nil_append]
  refine Perm.append (Perm.append ?_ ?_) (Perm.filter _ ?_)
  · exact hs.keySet_perm hpred filter_sublist
  · exact hs.keySet_perm hpred₂ filter_sublist
  · exact hs.keySet_perm hsucc (Sublist.refl _)

end Stored

/-- **回復した node の database は、自分、predessor、predessor の predessor が担当の行をちょうど一つずつ持つ。** -/
theorem recover_restores [Fintype ι] (hcard : 3 ≤ Fintype.card ι) (env : Env ι H) {up : ι → Bool}
    {s₁ : System ι} {tr tr' : List (Infra.Transition (System ι) (Label ι))}
    (hup : ∀ n, n ≠ x → up n = true) (hrun : Infra.Run env.Step (boot up) tr s)
    (hl : ∀ y ∈ tr, History x y.pre y.label) (hkeys : ((inserted tr).map Prod.fst).Nodup)
    (hlow : ∀ row ∈ inserted tr, ∀ i, IsLowest env.ring.hashKey i →
      env.genHash row.1 ≠ env.ring.hashKey i)
    (hq : s.Quiet) (hrestart : env.Step s (.restart x) s₁) (hrun' : Infra.Run env.Step s₁ tr' t)
    (hl' : ∀ y ∈ tr', y.label.Recovers x) :
    tr'.length ≤ 9 ∧ (t.recovering x ≠ .idle → ∃ l u, Label.Recovers x l ∧ env.Step t l u) ∧
      (t.recovering x = .idle → (t.table x).Nodup ∧ ∀ row, row ∈ t.table x ↔ row ∈ inserted tr ∧
        (env.getNode row.1 = some x ∨ env.getNode row.1 = some (env.ring.predessor x) ∨
          env.getNode row.1 = some (env.ring.predessor (env.ring.predessor x)))) := by
  have := nontrivial_of_card hcard
  have hcount (n : ι) (hn : n ≠ x) (row : Row) := count_table (by omega) (hup n hn) hrun hl hn hq row
  have hs : Stored env (inserted tr) x s :=
    ⟨hq, fun n hn => (hcount n hn ("", "")).2, hkeys, hlow, fun n hn row => (hcount n hn row).1⟩
  obtain ⟨-, rfl⟩ : s.up x = false ∧ env.restart s x = s₁ := by
    simpa [Env.Step, step] using hrestart
  have hfirst : (restarted s x).recovering x = .predessor := update_self _ _ _
  obtain ⟨k, hk, hend⟩ := (until_recover hs.awaits hfirst).run hrun' hl'
  refine ⟨by omega, fun hne => ?_, fun hidle => ?_⟩
  · cases hend with
    | done ht _ => exact absurd (ht ▸ recovering_received) hne
    | next _ hgo _ => exact hgo
  obtain rfl : t = afterSuccessor env (restarted s x) x := by
    cases hend with
    | done ht _ => exact ht
    | next hne _ _ => exact absurd hidle hne
  have hperm := hs.table_perm (by omega)
  have hpred : env.ring.predessor x ≠ x := env.ring.cyclic.pred_ne x
  have hpred₂ : env.ring.predessor (env.ring.predessor x) ≠ x :=
    env.ring.cyclic.pred_pred_ne (by omega) x
  have hsucc : env.ring.successor x ≠ x := env.ring.successor_ne x
  have hmem₁ := hs.mem_filter_iff hpred (.inl rfl)
  have hmem₂ := hs.mem_filter_iff hpred₂ (.inl rfl)
  have hmem₃ := hs.mem_filter_iff hsucc (.inr rfl)
  constructor
  · -- 三つの部分は担当の node が異なるので重ならない
    have hpart {n : ι} (hn : n ≠ x) (p : Row → Bool) : ((s.table n).filter p).Nodup :=
      ((hs.nodup_table hn).of_map _).filter p
    rw [hperm.nodup_iff, nodup_append', nodup_append']
    refine ⟨⟨hpart hpred _, hpart hpred₂ _, fun row h₁ h₂ => ?_⟩, hpart hsucc _, fun row h h₃ => ?_⟩
    · have heq := ((hmem₁ row).mp h₁).2.symm.trans ((hmem₂ row).mp h₂).2
      exact env.ring.cyclic.pred_ne _ (Option.some.inj heq).symm
    · have hx := ((hmem₃ row).mp h₃).2
      rcases mem_append.mp h with h₁ | h₂
      · exact hpred (Option.some.inj (((hmem₁ row).mp h₁).2.symm.trans hx))
      · exact hpred₂ (Option.some.inj (((hmem₂ row).mp h₂).2.symm.trans hx))
  · intro row
    rw [hperm.mem_iff, mem_append, mem_append, hmem₁, hmem₂, hmem₃]
    tauto

/-- node 1 が落ちている間に node 0 が担当する key を入れ、node 1 を戻す。 -/
theorem recover_restores_trio :
    ∃ tr s s₁ tr' t, Infra.Run trio.Step (boot fun _ => true) tr s ∧ s.up 1 = false ∧
      trio.Step s (.restart 1) s₁ ∧ Infra.Run trio.Step s₁ tr' t ∧ t.recovering 1 = .idle ∧
      tr'.length ≤ 9 ∧ (t.table 1).Nodup ∧ ("k", "v") ∈ t.table 1 ∧
      ("kkkkkkkkkkk", "w") ∈ t.table 1 := by
  obtain ⟨s, s₁, t, hs, hs₁, ht, hq, hdown, hidle⟩ : ∃ s s₁ t,
      [Label.insert 2 "kkkkkkkkkkk" "w", .connect 0, .store 0, .connect 0, .store 0, .connect 0,
        .store 0, .connect 0, .crash 1, .insert 0 "k" "v", .store 0, .connect 0, .connect 0, .store 0,
        .connect 0].foldlM trio.step (boot fun _ => true) = some s ∧
      trio.step s (.restart 1) = some s₁ ∧
      [Label.connect 0, .connect 0, .recoverNext 1, .connect 0, .connect 0, .recoverNext 1, .connect 0,
        .connect 0, .recoverNext 1].foldlM trio.step s₁ = some t ∧
      s.Quiet ∧ s.up 1 = false ∧ t.recovering 1 = .idle :=
    ⟨_, _, _, rfl, rfl, rfl, ⟨rfl, rfl⟩, rfl, rfl⟩
  have hrun := (Infra.Run.of_foldlM hs).1
  obtain ⟨hrun', hlabels'⟩ := Infra.Run.of_foldlM ht
  obtain ⟨hlen, -, hend⟩ := recover_restores (by decide) trio (fun _ _ => rfl) hrun
    (by decide +kernel) (by decide +kernel) (by unfold IsLowest; decide +kernel) hq hs₁ hrun'
    (Infra.Run.forall_label hlabels' (by decide))
  obtain ⟨hnodup, hmem⟩ := hend hidle
  refine ⟨_, s, s₁, _, t, hrun, hdown, hs₁, hrun', hidle, hlen, hnodup, ?_, ?_⟩
  · exact (hmem _).mpr (by decide +kernel)
  · exact (hmem _).mpr (by decide +kernel)

end Dynamo

