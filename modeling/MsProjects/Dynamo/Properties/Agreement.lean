import MsProjects.Dynamo.Properties.Insert

/-! # 同じ key の insert の順 -/

namespace Dynamo

open List Function Dynamo.System Fintype

variable {ι H : Type*} [LinearOrder H] [DecidableEq ι] {env : Env ι H} {s t : System ι}

/-- insert を呼ぶか、message を届けるか、行を書く step。 -/
def Label.Inserts : Label ι → Prop
  | .insert _ _ _ | .connect _ | .store _ => True
  | _ => False

instance : DecidablePred (Label.Inserts : Label ι → Prop)
  | .insert _ _ _ | .connect _ | .store _ => isTrue trivial
  | .query _ _ | .delete _ _ | .returnQuery _ | .recoverNext _ | .crash _ | .restart _ => isFalse id

/-- `n` に書きかけの行が無い。 -/
def Idle (s : System ι) (n : ι) : Prop := ∀ w ∈ s.tasks, w.node ≠ n

/-- 書きかけの行のある node は insert を受けず、replica への message は、key と位置ごとに送った順に届く。 -/
def InOrder (env : Env ι H) (s : System ι) : Label ι → Prop
  | .insert o key _ => env.getNode key = some o → Idle s o
  | .connect i => ∀ x ∈ s.senders[i]?, Idle s x.2.sendto ∧ (1 ≤ x.2.replica →
      ∀ y ∈ s.senders.take i, ¬ (y.2.key = x.2.key ∧ y.2.replica = x.2.replica))
  | _ => True

instance (s : System ι) (n : ι) : Decidable (Idle s n) :=
  inferInstanceAs (Decidable (∀ w ∈ s.tasks, w.node ≠ n))

instance (env : Env ι H) (s : System ι) : DecidablePred (InOrder env s)
  | .insert o key _ => inferInstanceAs (Decidable (env.getNode key = some o → Idle s o))
  | .connect i => inferInstanceAs (Decidable (∀ x ∈ s.senders[i]?, Idle s x.2.sendto ∧
      (1 ≤ x.2.replica → ∀ y ∈ s.senders.take i, ¬ (y.2.key = x.2.key ∧ y.2.replica = x.2.replica))))
  | .store _ | .query _ _ | .delete _ _ | .returnQuery _ | .recoverNext _ | .crash _
  | .restart _ => isTrue trivial

/-! ## 行の並び -/

/-- `n` の database にある key の行と、書きかけの行。 -/
def settled (s : System ι) (key : String) (n : ι) : List Row :=
  (s.table n ++ (s.tasks.filter fun w => w.node = n).map Task.row).filter fun row => row.1 = key

/-- 位置 `r` に向かっている key の行。 -/
def traveling (key : String) (r : Nat) (senders : List (ι × Message ι)) : List Row :=
  (senders.filter fun x => x.2.type = .insert ∧ x.2.key = key ∧ x.2.replica = r).map fun x => x.2.row

variable {key : String} {r : Nat} {n : ι}

theorem settled_addTask (w : Task ι) :
    settled (s.addTask w) key n =
      settled s key n ++ if w.node = n ∧ w.row.1 = key then [w.row] else [] := by
  simp only [settled, addTask_table, addTask_tasks, filter_append, map_append, append_assoc]
  by_cases hn : w.node = n <;> by_cases hk : w.row.1 = key <;> simp [hn, hk]

omit [DecidableEq ι] in
theorem traveling_append (a b : List (ι × Message ι)) :
    traveling key r (a ++ b) = traveling key r a ++ traveling key r b := by
  simp [traveling]

omit [DecidableEq ι] in
theorem traveling_singleton (x : ι × Message ι) :
    traveling key r [x] =
      if x.2.type = .insert ∧ x.2.key = key ∧ x.2.replica = r then [x.2.row] else [] := by
  by_cases h : x.2.type = .insert ∧ x.2.key = key ∧ x.2.replica = r
  · simp [traveling, h]
  · rw [if_neg h, traveling, filter_cons_of_neg (by simpa using h)]
    rfl

omit [DecidableEq ι] in
theorem traveling_eq_nil {senders : List (ι × Message ι)}
    (h : ∀ x ∈ senders, x.2.type = .insert → x.2.key = key → x.2.replica ≠ r) :
    traveling key r senders = [] := by
  rw [traveling, map_eq_nil_iff, filter_eq_nil_iff]
  intro x hx
  simpa using h x hx

/-! ## 不変量 -/

/-- 担当の node の行の並びが、順に replica に写る。 -/
structure Agrees (env : Env ι H) (s : System ι) : Prop where
  up : ∀ n, s.up n = true
  sound : Sound env s
  only : ∀ x ∈ s.senders, x.2.type = .insert
  /-- node ごとに書きかけの行は高々一つである。 -/
  alone : ∀ n, (s.tasks.filter fun w => w.node = n).length ≤ 1
  /-- 手前の node の行は、次の node の行に、届いていない行を続けたものである。 -/
  chain : ∀ key c, env.getNode key = some c → ∀ r < 2, settled s key (env.ring.successor^[r] c) =
      settled s key (env.ring.successor^[r + 1] c) ++ traveling key (r + 1) s.senders

theorem agrees_boot (env : Env ι H) : Agrees env (boot fun _ => true) where
  up _ := rfl
  sound := sound_of_quiet ⟨rfl, rfl⟩
  only x hx := by simp [boot] at hx
  alone n := by simp [boot]
  chain _ _ _ _ _ := rfl

theorem length_filter_addTask (halone : ∀ n, (s.tasks.filter fun w => w.node = n).length ≤ 1)
    {w : Task ι} (hidle : Idle s w.node) (n : ι) :
    ((s.addTask w).tasks.filter fun v => v.node = n).length ≤ 1 := by
  rw [addTask_tasks, filter_append, length_append]
  by_cases hn : w.node = n
  · have hnil : s.tasks.filter (fun v => v.node = n) = [] := by
      rw [filter_eq_nil_iff]
      intro v hv
      simpa [← hn] using hidle v hv
    simp [hnil, hn]
  · simpa [hn] using halone n

namespace Agrees

variable {m : Message ι} {a b : List (ι × Message ι)} {host : ι}

theorem take [Fintype ι] (hcard : 2 < card ι) (hs : Agrees env s)
    (hm : Placed env m) (htype : m.type = .insert) (hr : m.replica < 3) (receiver : Bool)
    {rest : List (ι × Message ι)} (hsub : ∀ x ∈ rest, x ∈ s.senders)
    (hidle : Idle s m.sendto)
    (hfirst : ∀ r, 1 ≤ r → traveling m.key r s.senders =
      (if m.replica = r then [m.row] else []) ++ traveling m.key r rest)
    (hothers : ∀ key r, key ≠ m.key → traveling key r s.senders = traveling key r rest) :
    Agrees env (({ s with senders := rest }.sendMsg m.sendto (m.advance env.ring)).addTask
      ⟨m.sendto, m.row, receiver⟩) := by
  have := nontrivial_of_card hcard
  have hmem : ∀ x ∈ rest ++ [(m.sendto, m.advance env.ring)],
      x ∈ s.senders ∨ x = (m.sendto, m.advance env.ring) := by
    intro x hx
    rcases mem_append.mp hx with hx | hx
    · exact .inl (hsub x hx)
    · exact .inr (mem_singleton.mp hx)
  refine ⟨hs.up, ?_, ?_, length_filter_addTask hs.alone hidle, ?_⟩
  · refine hs.sound.of_senders fun x hx => ?_
    rcases hmem x hx with hx | rfl
    · exact .inl hx
    · exact .inr ⟨htype, hm.advance hr⟩
  · intro x hx
    rcases hmem x hx with hx | rfl
    · exact hs.only x hx
    · exact htype
  · intro key c hc r hr2
    have hold := hs.chain key c hc r hr2
    simp only [settled_addTask, addTask_senders, sendMsg_senders, traveling_append,
      traveling_singleton, Message.advance_type, Message.advance_key, Message.advance_replica,
      Message.advance_row, htype, true_and]
    by_cases hkey : key = m.key
    · subst hkey
      obtain ⟨c', hc', -, hto⟩ := hm
      obtain rfl : c' = c := Option.some.inj (hc'.symm.trans hc)
      rw [hfirst (r + 1) (Nat.succ_pos r)] at hold
      have hnode (j : Nat) (hj : j < 3) : m.sendto = env.ring.successor^[j] c' ↔ m.replica = j := by
        rw [hto]
        exact Env.iterate_successor_inj hcard hc hr hj
      have hrow : m.row.1 = m.key := rfl
      simp only [hnode r (by omega), hnode (r + 1) (by omega), hrow, and_true, true_and]
      have hsend (n : ι) : settled ({ s with senders := rest }.sendMsg m.sendto
          (m.advance env.ring)) m.key n = settled s m.key n := rfl
      rw [hsend, hsend, hold]
      by_cases h1 : m.replica = r
      · simp [h1]
      · by_cases h2 : m.replica = r + 1
        · simp [h2]
        · simp [h1, h2]
    · have hrow : ¬ m.row.1 = key := fun h => hkey h.symm
      rw [hothers key (r + 1) hkey] at hold
      have hsend (n : ι) : settled ({ s with senders := rest }.sendMsg m.sendto
          (m.advance env.ring)) key n = settled s key n := rfl
      simp [hrow, Ne.symm hkey, hsend, hold]

theorem connects [Fintype ι] (hcard : 2 < card ι) (hs : Agrees env s)
    (hsplit : s.senders = a ++ (host, m) :: b) (hidle : Idle s m.sendto)
    (hfifo : 1 ≤ m.replica → ∀ y ∈ a, ¬ (y.2.key = m.key ∧ y.2.replica = m.replica)) (h : Connects env s a b host m t) :
    Agrees env t := by
  have hmem : (host, m) ∈ s.senders := by simp [hsplit]
  have htype : m.type = .insert := hs.only _ hmem
  have hsub : ∀ x ∈ a ++ b, x ∈ s.senders := by
    intro x hx
    rw [hsplit]
    rcases mem_append.mp hx with hx | hx
    · exact mem_append_left _ hx
    · exact mem_append_right _ (mem_cons_of_mem _ hx)
  have hparts (key : String) (r : Nat) : traveling key r s.senders =
      traveling key r a ++ (traveling key r [(host, m)] ++ traveling key r b) := by
    rw [hsplit, ← singleton_append, traveling_append, traveling_append]
  cases h with
  | taken _ _ _ hr =>
    refine hs.take hcard (hs.sound.placed _ hmem htype) htype hr true hsub hidle ?_ ?_
    · intro r hone
      rw [hparts, traveling_append, traveling_singleton]
      by_cases hrep : m.replica = r
      · subst hrep
        have hnil : traveling m.key m.replica a = [] :=
          traveling_eq_nil fun y hy _ hkey hyr => hfifo hone y hy ⟨hkey, hyr⟩
        simp [hnil, htype]
      · simp [hrep]
    · intro key r hkey
      rw [hparts, traveling_append, traveling_singleton]
      simp [Ne.symm hkey]
  | skipped hdown =>
    rw [hs.up] at hdown
    cases hdown
  | dropped _ hr =>
    refine ⟨hs.up, hs.sound.of_senders fun x hx => .inl (hsub x hx), fun x hx => hs.only x (hsub x hx),
      hs.alone, fun key c hc r hr2 => ?_⟩
    have hne : m.replica ≠ r + 1 := by omega
    have hold := hs.chain key c hc r hr2
    rw [hparts, traveling_singleton, if_neg fun h => hne h.2.2, nil_append,
      ← traveling_append] at hold
    exact hold
  | other _ _ hne | otherFailed _ hne => exact absurd htype hne

theorem insert [Fintype ι] (hcard : 2 < card ι) (hs : Agrees env s) {o : ι}
    {key value : String} (hidle : env.getNode key = some o → Idle s o) :
    Agrees env (env.insert s o key value) := by
  have := nontrivial_of_card hcard
  obtain ⟨c, hc⟩ := env.exists_getNode key
  have hplaced : Placed env (origin o c key value) := placed_origin o value hc
  rw [insert_eq hc]
  split
  · rename_i hco
    subst hco
    refine hs.take hcard hplaced rfl (Nat.succ_pos 2) false (fun x hx => hx) (hidle hc) ?_ ?_
    · intro r hone
      have hne : (origin c c key value).replica ≠ r := (show 0 ≠ r by omega)
      rw [if_neg hne, nil_append]
    · exact fun _ _ _ => rfl
  · refine ⟨hs.up, ?_, ?_, hs.alone, ?_⟩
    · refine hs.sound.of_senders fun x hx => ?_
      rcases mem_append.mp hx with hx | hx
      · exact .inl hx
      · rw [mem_singleton.mp hx]
        exact .inr ⟨rfl, hplaced⟩
    · intro x hx
      rcases mem_append.mp hx with hx | hx
      · exact hs.only x hx
      · rw [mem_singleton.mp hx]
        rfl
    · intro k c' hc' r hr
      have hsend (n : ι) : settled (s.sendMsg o (origin o c key value)) k n = settled s k n := rfl
      rw [hsend, hsend, sendMsg_senders, traveling_append, traveling_singleton,
        if_neg fun h => absurd h.2.2 (show ¬ 0 = r + 1 by omega), append_nil]
      exact hs.chain k c' hc' r hr

theorem store (hs : Agrees env s) {a b : List (Task ι)} {w : Task ι}
    (hsplit : s.tasks = a ++ w :: b) :
    Agrees env { s.setTable w.node (s.table w.node ++ [w.row]) with tasks := a ++ b } := by
  -- node に書きかけの行は一つしか無いので、並びは変わらない
  have hnone : (a.filter fun v => v.node = w.node) = [] := by
    have hlen := hs.alone w.node
    rw [hsplit, filter_append, filter_cons_of_pos (by simp), length_append, length_cons] at hlen
    exact length_eq_zero_iff.mp (by omega)
  have hsettled (key : String) (n : ι) : settled
      { s.setTable w.node (s.table w.node ++ [w.row]) with tasks := a ++ b } key n =
        settled s key n := by
    refine congrArg (filter _) ?_
    by_cases hn : n = w.node
    · subst hn
      simp [hsplit, hnone]
    · simp [hsplit, hn, Ne.symm hn]
  refine ⟨hs.up, hs.sound.of_senders fun x hx => .inl hx, hs.only, fun n => ?_, ?_⟩
  · refine le_trans ?_ (hs.alone n)
    rw [hsplit]
    exact ((sublist_cons_self w b).append_left a |>.filter _).length_le
  · intro key c hc r hr
    rw [hsettled, hsettled]
    exact hs.chain key c hc r hr

theorem step [Fintype ι] (hcard : 2 < card ι) (hs : Agrees env s) {l : Label ι}
    (hl : l.Inserts ∧ InOrder env s l) (h : env.Step s l t) : Agrees env t := by
  obtain ⟨hins, hord⟩ := hl
  cases l with
  | insert o key value =>
    obtain ⟨-, rfl⟩ : s.up o = true ∧ env.insert s o key value = t := by
      simpa [Env.Step, Env.step] using h
    exact hs.insert hcard hord
  | connect i =>
    obtain ⟨a, b, host, m, hsplit, hlen, hc⟩ := connect_cases h
    obtain ⟨hidle, hfifo⟩ := hord (host, m) (by simp [hsplit, ← hlen])
    refine hs.connects hcard hsplit hidle (fun hone y hy => hfifo hone y ?_) hc
    rw [hsplit, ← hlen, take_left]
    exact hy
  | store i =>
    obtain ⟨a, b, w, hsplit, -, rfl⟩ := store_cases h
    exact hs.store hsplit
  | query | delete | returnQuery | recoverNext | crash | restart => exact hins.elim

end Agrees

/-! ## 一致 -/

/-- **順を守る step だけの列では、insert がすべて終わったとき、担当の node と二つの replica の行が一致する。** -/
theorem replicas_agree [Fintype ι] (hcard : 3 ≤ card ι) (env : Env ι H)
    {tr : List (Infra.Transition (System ι) (Label ι))} {key : String} {c : ι}
    (hrun : Infra.Run env.Step (boot fun _ => true) tr t)
    (hl : ∀ x ∈ tr, x.label.Inserts ∧ InOrder env x.pre x.label) (hq : t.Quiet)
    (hc : env.getNode key = some c) :
    let rows := fun n => (t.table n).filter fun row => row.1 = key
    rows c = rows (env.ring.successor c) ∧
      rows (env.ring.successor c) = rows (env.ring.successor (env.ring.successor c)) := by
  have hinv := (hrun.invariant (C := fun s l => l.Inserts ∧ InOrder env s l)
    (fun hs hl h => hs.step (by omega) hl h) hl (agrees_boot env)).1
  have hrows (n : ι) : settled t key n = (t.table n).filter fun row => row.1 = key := by
    simp [settled, hq.2]
  have htravel (r : Nat) : traveling key r t.senders = [] := by rw [hq.1]; rfl
  have hfirst := hinv.chain key c hc 0 (by omega)
  have hsecond := hinv.chain key c hc 1 (by omega)
  rw [hrows, hrows, htravel, append_nil] at hfirst hsecond
  exact ⟨hfirst, hsecond⟩

/-- 後の insert が先に担当の node 0 に届いても、順を守って写せば行は一致する。 -/
theorem replicas_agree_trio :
    ∃ tr t, Infra.Run trio.Step (boot fun _ => true) tr t ∧ t.Quiet ∧
      ((t.table 0).filter fun row => row.1 = "k") = [("k", "v2"), ("k", "v1")] ∧
      ((t.table 0).filter fun row => row.1 = "k") = (t.table 1).filter fun row => row.1 = "k" := by
  obtain ⟨t, ht⟩ : ∃ t, [Label.insert 1 "k" "v1", .insert 2 "k" "v2", .connect 1, .store 0, .connect 0,
      .store 0, .connect 0, .store 0, .connect 0, .store 0, .connect 0, .store 0, .connect 0, .store 0,
      .connect 0, .connect 0].foldlM trio.step (boot fun _ => true) = some t := ⟨_, rfl⟩
  have hq : t.Quiet := by
    cases ht
    exact ⟨rfl, rfl⟩
  have hrows : ((t.table 0).filter fun row => row.1 = "k") = [("k", "v2"), ("k", "v1")] := by
    cases ht
    rfl
  have hrun := (Infra.Run.of_foldlM ht).1
  exact ⟨_, t, hrun, hq, hrows, (replicas_agree (by decide) trio hrun (by decide +kernel) hq
      (show trio.getNode "k" = some 0 by decide)).1⟩

/-- 接続の順が入れ替わると、担当の node 0 とその replica で key の値が食い違う。 -/
theorem disagreement_trio :
    ∃ tr t, Infra.Run trio.Step (boot fun _ => true) tr t ∧ t.Quiet ∧
      (∀ x ∈ tr, x.label.Inserts) ∧
      tr.filterMap (fun x => x.label.row?) = [("k", "v1"), ("k", "v2")] ∧
      trio.getNode "k" = some 0 ∧
      (trio.rawQuery "k" (t.table 0)).map (putAll []) = some [("k", "v2")] ∧
      (trio.rawQuery "k" (t.table 1)).map (putAll []) = some [("k", "v1")] ∧
      (trio.rawQuery "k" (t.table 2)).map (putAll []) = some [("k", "v1")] := by
  obtain ⟨t, ht⟩ : ∃ t, [Label.insert 1 "k" "v1", .insert 2 "k" "v2", .connect 0, .store 0, .connect 0,
      .store 0, .connect 1, .store 0, .connect 0, .store 0, .connect 0, .store 0, .connect 0, .store 0,
      .connect 0, .connect 0].foldlM trio.step (boot fun _ => true) = some t := ⟨_, rfl⟩
  obtain ⟨hrun, hlabels⟩ := Infra.Run.of_foldlM ht
  refine ⟨_, t, hrun, ?_, Infra.Run.forall_label hlabels (by decide), by decide +kernel, by decide,
    ?_, ?_, ?_⟩
  · cases ht
    exact ⟨rfl, rfl⟩
  all_goals
    cases ht
    decide +kernel

end Dynamo
