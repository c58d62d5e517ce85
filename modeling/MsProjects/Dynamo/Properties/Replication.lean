import MsProjects.Dynamo.Properties.Connect
import Mathlib.Algebra.BigOperators.Ring.Finset

/-! # insert の行き先 -/

namespace Dynamo

open List Function Dynamo.System Message

variable {ι H : Type*} [LinearOrder H] [DecidableEq ι] {env : Env ι H} {s t : System ι}

variable {key value : String} {c o : ι}

/-! ## 担当の node とその先 -/

namespace Env

/-- key の担当の node と、その二つの successor。 -/
def owners (env : Env ι H) (key : String) : List ι :=
  match env.getNode key with
  | none => []
  | some c => [c, env.ring.successor c, env.ring.successor (env.ring.successor c)]

omit [DecidableEq ι] in
theorem exists_getNode [Nonempty ι] (env : Env ι H) (key : String) : ∃ c, env.getNode key = some c := by
  rw [getNode, Ring.getNode]
  have hne : env.nodeMap ≠ [] := by
    obtain ⟨i⟩ := ‹Nonempty ι›
    exact ne_nil_of_mem (env.mem_nodeMap i)
  generalize (none : Option ι) = last
  revert hne
  induction env.nodeMap generalizing last with
  | nil => simp
  | cons i rest ih =>
    intro _
    rw [Ring.getNodeLoop]
    split
    · exact ⟨i, rfl⟩
    · cases rest with
      | nil => exact ⟨i, rfl⟩
      | cons j rest => exact ih _ (by simp)

omit [DecidableEq ι] in
theorem owners_eq {env : Env ι H} (hc : env.getNode key = some c) :
    env.owners key = [c, env.ring.successor c, env.ring.successor (env.ring.successor c)] := by
  rw [owners, hc]

omit [DecidableEq ι] in
theorem owners_nodup [Fintype ι] (hcard : 2 < Fintype.card ι) (env : Env ι H) (key : String) :
    (env.owners key).Nodup := by
  have := nontrivial_of_card hcard
  rw [owners]
  cases env.getNode key with
  | none => simp
  | some c =>
    have h1 := env.ring.successor_ne c
    have h2 := env.ring.successor_ne (env.ring.successor c)
    have h3 := env.ring.successor_successor_ne hcard c
    simp [h1.symm, h2.symm, h3.symm]

omit [DecidableEq ι] in
theorem iterate_successor_inj [Fintype ι] (hcard : 2 < Fintype.card ι) {env : Env ι H}
    (hc : env.getNode key = some c) {i j : Nat} (hi : i < 3) (hj : j < 3) :
    env.ring.successor^[i] c = env.ring.successor^[j] c ↔ i = j := by
  have hnodup := env.owners_nodup hcard key
  rw [owners_eq hc, show [c, env.ring.successor c, env.ring.successor (env.ring.successor c)] =
    (range 3).map fun r => env.ring.successor^[r] c from rfl] at hnodup
  refine ⟨fun h => ?_, fun h => h ▸ rfl⟩
  exact inj_on_of_nodup_map hnodup (mem_range.mpr hi) (mem_range.mpr hj) h

end Env

/-- insert の message は、担当の node から `replica` 個先に向かっている。 -/
def Placed (env : Env ι H) (m : Message ι) : Prop :=
  ∃ c, env.getNode m.key = some c ∧ m.replica ≤ 3 ∧ m.sendto = env.ring.successor^[m.replica] c

namespace Placed

omit [DecidableEq ι]

variable {m : Message ι}

theorem advance (hm : Placed env m) (hr : m.replica < 3) : Placed env (m.advance env.ring) := by
  obtain ⟨c, hc, -, hto⟩ := hm
  refine ⟨c, hc, hr, ?_⟩
  rw [advance_sendto, advance_replica, iterate_succ_apply', ← hto]

theorem drop_owners (hm : Placed env m) (hr : m.replica < 3) :
    (env.owners m.key).drop m.replica = m.sendto :: (env.owners m.key).drop (m.replica + 1) := by
  obtain ⟨c, hc, -, hto⟩ := hm
  rw [Env.owners_eq hc, hto]
  generalize m.replica = r at hr
  obtain rfl | rfl | rfl : r = 0 ∨ r = 1 ∨ r = 2 := by omega
  all_goals rfl

end Placed

/-! ## 帳尻 -/

/-- message がこれから `n` に行 `ρ` を届ける。 -/
def owes (env : Env ι H) (n : ι) (ρ : Row) (m : Message ι) : Bool :=
  m.type = .insert ∧ m.row = ρ ∧ n ∈ (env.owners m.key).drop m.replica

/-- `n` にある行 `ρ` の数と、これから入る数の和。 -/
def balance (env : Env ι H) (s : System ι) (n : ι) (ρ : Row) : Nat :=
  (s.table n).count ρ + s.tasks.countP (fun w => w.node = n ∧ w.row = ρ) +
    s.senders.countP fun x => owes env n ρ x.2

/-- insert の始まる step の行。 -/
def Label.row? : Label ι → Option Row
  | .insert _ key value => some (key, value)
  | _ => none

/-- step が、`n` に `ρ` を届ける insert を始める。 -/
def starts (env : Env ι H) (n : ι) (ρ : Row) : Label ι → Bool
  | .insert _ key value => (key, value) = ρ ∧ n ∈ env.owners key
  | _ => false

/-- insert の message は正しい位置にあり、delete の message は無い。 -/
structure Sound (env : Env ι H) (s : System ι) : Prop where
  placed : ∀ x ∈ s.senders, x.2.type = .insert → Placed env x.2
  noDelAll : ∀ x ∈ s.senders, x.2.type ≠ .delAll
  noDelKey : ∀ x ∈ s.senders, x.2.type ≠ .delKey

/-- `x` では `Sender` も書きかけの thread も走っていない。 -/
def Vacant (s : System ι) (x : ι) : Prop := (∀ y ∈ s.senders, y.1 ≠ x) ∧ ∀ w ∈ s.tasks, w.node ≠ x

def Keeps (n : ι) (s : System ι) : Label ι → Prop
  | .delete _ _ => False
  | .crash x => x ≠ n ∧ Vacant s x
  | .restart x => x ≠ n
  | .recoverNext x => x ≠ n
  | _ => True

variable {n : ι} {ρ : Row} {m : Message ι}

theorem owes_eq_false_of_type (h : m.type ≠ .insert) : owes env n ρ m = false := by
  simp [owes, h]

theorem owes_eq_false_of_replica (hm : Placed env m) (hr : 3 ≤ m.replica) :
    owes env n ρ m = false := by
  obtain ⟨c, hc, -⟩ := hm
  have hnil : (env.owners m.key).drop m.replica = [] := by
    rw [Env.owners_eq hc]
    exact drop_eq_nil_of_le hr
  simp [owes, hnil]

theorem owes_advance (hnodup : (env.owners m.key).Nodup) (hm : Placed env m)
    (htype : m.type = .insert) (hr : m.replica < 3) :
    (if owes env n ρ m then 1 else 0) =
      (if owes env n ρ (m.advance env.ring) then 1 else 0) +
        if m.sendto = n ∧ m.row = ρ then 1 else 0 := by
  have hdrop := hm.drop_owners hr
  have hnot : m.sendto ∉ (env.owners m.key).drop (m.replica + 1) := by
    have := (drop_sublist m.replica _).nodup hnodup
    rw [hdrop] at this
    exact (nodup_cons.mp this).1
  simp only [owes, advance_type, advance_row, advance_key,
    advance_replica, htype, hdrop, mem_cons, true_and, decide_eq_true_eq]
  by_cases hρ : m.row = ρ
  · by_cases hn : n = m.sendto
    · simp [hρ, hn, hnot]
    · simp [hρ, hn, Ne.symm hn]
  · simp [hρ]

namespace Aside

theorem balance_eq (h : Aside s t) (n : ι) (ρ : Row) : balance env t n ρ = balance env s n ρ := by
  obtain ⟨extra, hsenders, hextra⟩ := h.senders
  have hzero : extra.countP (fun x => owes env n ρ x.2) = 0 := by
    rw [countP_eq_zero]
    intro x hx
    rw [owes_eq_false_of_type (hextra x hx).1]
    simp
  rw [balance, balance, h.table, h.tasks, hsenders, countP_append, hzero, Nat.add_zero]

omit [DecidableEq ι] in
theorem sound (h : Aside s t) (hs : Sound env s) : Sound env t := by
  obtain ⟨extra, hsenders, hextra⟩ := h.senders
  refine ⟨?_, ?_, ?_⟩ <;> intro x hx <;> rw [hsenders, mem_append] at hx <;>
    rcases hx with hx | hx
  · exact hs.placed x hx
  · exact fun htype => absurd htype (hextra x hx).1
  · exact hs.noDelAll x hx
  · exact (hextra x hx).2.1
  · exact hs.noDelKey x hx
  · exact (hextra x hx).2.2

end Aside

namespace Sound

omit [DecidableEq ι]

theorem of_senders (hs : Sound env s)
    (hsub : ∀ x ∈ t.senders, x ∈ s.senders ∨ x.2.type = .insert ∧ Placed env x.2) :
    Sound env t := by
  refine ⟨fun x hx htype => ?_, fun x hx htype => ?_, fun x hx htype => ?_⟩ <;>
    rcases hsub x hx with hx | ⟨hins, hplaced⟩
  · exact hs.placed x hx htype
  · exact hplaced
  · exact hs.noDelAll x hx htype
  · rw [hins] at htype
    cases htype
  · exact hs.noDelKey x hx htype
  · rw [hins] at htype
    cases htype

theorem aside_type (hs : Sound env s) {x : ι × Message ι} (hx : x ∈ s.senders)
    (htype : x.2.type ≠ .insert) : x.2.type.Aside :=
  ⟨htype, hs.noDelAll x hx, hs.noDelKey x hx⟩

end Sound

/-! ## insert の始め -/

/-- `insert` を呼んだ node `o` から担当の node `c` へ向かう message。 -/
def origin (o c : ι) (key value : String) : Message ι :=
  { type := .insert, key := key, value := value, sender := o, sendto := c }

theorem insert_eq [Nontrivial ι] (hc : env.getNode key = some c) :
    env.insert s o key value =
      if c = o then
        (s.sendMsg o ((origin o c key value).advance env.ring)).addTask ⟨o, (key, value), false⟩
      else s.sendMsg o (origin o c key value) := by
  rw [Env.insert, if_neg (env.ring.successor_ne o), hc]
  rfl

omit [DecidableEq ι] in
theorem placed_origin (o : ι) (value : String) (hc : env.getNode key = some c) :
    Placed env (origin o c key value) :=
  ⟨c, hc, Nat.zero_le 3, rfl⟩

theorem balance_insert [Nontrivial ι] (hnodup : (env.owners key).Nodup)
    (hc : env.getNode key = some c) :
    balance env (env.insert s o key value) n ρ =
      balance env s n ρ + if starts env n ρ (.insert o key value) then 1 else 0 := by
  have hstart : owes env n ρ (origin o c key value) = starts env n ρ (.insert o key value) := by
    simp [owes, starts, origin, row]
  rw [insert_eq hc]
  split
  · rename_i hco
    have hadv : (if owes env n ρ (origin o c key value) then 1 else 0) = _ :=
      owes_advance hnodup (placed_origin o value hc) rfl (Nat.succ_pos 2)
    have hto : (origin o c key value).sendto = o := hco
    rw [hstart, hto] at hadv
    simp only [balance, addTask_table, sendMsg_table, addTask_tasks,
      sendMsg_tasks, addTask_senders, sendMsg_senders, countP_append,
      countP_singleton, hadv, decide_eq_true_eq]
    have hrow : (origin o c key value).row = (key, value) := rfl
    rw [hrow]
    omega
  · simp only [balance, sendMsg_table, sendMsg_tasks, sendMsg_senders,
      countP_append, countP_singleton, hstart]
    omega

theorem sound_insert [Nontrivial ι] (hs : Sound env s) (hc : env.getNode key = some c) :
    Sound env (env.insert s o key value) := by
  have hplaced := placed_origin o value hc
  rw [insert_eq hc]
  split
  · refine hs.of_senders fun x hx => ?_
    rcases mem_append.mp hx with hx | hx
    · exact .inl hx
    · rw [mem_singleton] at hx
      exact .inr ⟨by rw [hx]; rfl, by rw [hx]; exact hplaced.advance (Nat.succ_pos 2)⟩
  · refine hs.of_senders fun x hx => ?_
    rcases mem_append.mp hx with hx | hx
    · exact .inl hx
    · rw [mem_singleton] at hx
      exact .inr ⟨by rw [hx]; rfl, by rw [hx]; exact hplaced⟩

/-! ## 接続 -/

namespace Connects

variable {a b : List (ι × Message ι)} {host : ι}

theorem up_eq (hs : Sound env s) (hsplit : s.senders = a ++ (host, m) :: b)
    (h : Connects env s a b host m t) : t.up = s.up := by
  have hmem : (host, m) ∈ s.senders := by simp [hsplit]
  cases h with
  | taken | skipped | dropped => rfl
  | other _ _ htype => exact (processMessage_aside (hs.aside_type hmem htype)).up
  | otherFailed _ htype => exact (connectFailed_aside (hs.aside_type hmem htype)).up

theorem balance_eq (hnodup : ∀ key, (env.owners key).Nodup) (hs : Sound env s)
    (hn : s.up n = true) (hsplit : s.senders = a ++ (host, m) :: b)
    (h : Connects env s a b host m t) : balance env t n ρ = balance env s n ρ := by
  have hmem : (host, m) ∈ s.senders := by simp [hsplit]
  -- 接続した message の分を除いた帳尻
  have hrest : balance env { s with senders := a ++ b } n ρ + (if owes env n ρ m then 1 else 0) =
      balance env s n ρ := by
    simp only [balance, hsplit, countP_append, countP_cons]
    omega
  cases h with
  | taken hup hbusy htype hr =>
    rw [← hrest, owes_advance (hnodup m.key) (hs.placed _ hmem htype) htype hr]
    simp only [balance, addTask_table, sendMsg_table, addTask_tasks,
      sendMsg_tasks, addTask_senders, sendMsg_senders, countP_append,
      countP_singleton, decide_eq_true_eq]
    omega
  | skipped hdown htype hr =>
    have hne : ¬ (m.sendto = n ∧ m.row = ρ) := by
      rintro ⟨rfl, -⟩
      rw [hn] at hdown
      cases hdown
    rw [← hrest, owes_advance (hnodup m.key) (hs.placed _ hmem htype) htype hr, if_neg hne]
    simp only [balance, sendMsg_table, sendMsg_tasks, sendMsg_senders,
      countP_append, countP_singleton]
    omega
  | dropped htype hr =>
    rw [← hrest, owes_eq_false_of_replica (hs.placed _ hmem htype) hr]
    simp
  | other _ _ htype =>
    rw [← hrest, owes_eq_false_of_type htype,
      (processMessage_aside (hs.aside_type hmem htype)).balance_eq]
    simp
  | otherFailed _ htype =>
    rw [← hrest, owes_eq_false_of_type htype,
      (connectFailed_aside (hs.aside_type hmem htype)).balance_eq]
    simp

theorem sound (hs : Sound env s) (hsplit : s.senders = a ++ (host, m) :: b)
    (h : Connects env s a b host m t) : Sound env t := by
  have hmem : (host, m) ∈ s.senders := by simp [hsplit]
  have hsub : ∀ x ∈ a ++ b, x ∈ s.senders := by
    intro x hx
    rw [hsplit]
    rcases mem_append.mp hx with hx | hx
    · exact mem_append_left _ hx
    · exact mem_append_right _ (mem_cons_of_mem _ hx)
  have hrest : Sound env { s with senders := a ++ b } :=
    hs.of_senders fun x hx => .inl (hsub x hx)
  cases h with
  | taken _ _ htype hr | skipped _ htype hr =>
    refine hrest.of_senders fun x hx => ?_
    rcases mem_append.mp hx with hx | hx
    · exact .inl hx
    · rw [mem_singleton] at hx
      have hplaced := (hs.placed _ hmem htype).advance hr
      exact .inr ⟨by rw [hx]; exact htype, by rw [hx]; exact hplaced⟩
  | dropped => exact hrest
  | other _ _ htype => exact (processMessage_aside (hs.aside_type hmem htype)).sound hrest
  | otherFailed _ htype => exact (connectFailed_aside (hs.aside_type hmem htype)).sound hrest

end Connects

/-! ## 帳尻の保存 -/

theorem store_balance {a b : List (Task ι)} {w : Task ι} (hsplit : s.tasks = a ++ w :: b) :
    balance env { s.setTable w.node (s.table w.node ++ [w.row]) with tasks := a ++ b } n ρ =
      balance env s n ρ := by
  simp only [balance, setTable_table, setTable_senders, hsplit, countP_append, countP_cons]
  by_cases hn : n = w.node
  · subst hn
    by_cases hρ : w.row = ρ
    · simp only [update_self, count_append, hρ, count_singleton_self, true_and,
        decide_true, if_true]
      omega
    · have hzero : [w.row].count ρ = 0 := by simp [hρ]
      simp [count_append, hzero, hρ]
  · simp [hn, Ne.symm hn]

theorem recoverNext_other {x : ι} (hne : x ≠ n) (h : env.recoverNext s x = some t) :
    t.up = s.up ∧ t.table n = s.table n ∧ t.tasks = s.tasks ∧
      ∃ extra, t.senders = s.senders ++ extra ∧ ∀ y ∈ extra, y.2.type.Aside := by
  rw [Env.recoverNext] at h
  split at h
  · split at h
    · cases h
    · cases h
      exact ⟨rfl, update_of_ne hne.symm _ _, rfl, [_], rfl, by simp [MsgType.Aside]⟩
    · cases h
      exact ⟨rfl, update_of_ne hne.symm _ _, rfl, [_], rfl, by simp [MsgType.Aside]⟩
    · cases h
      exact ⟨rfl, update_of_ne hne.symm _ _, rfl, [], by simp; rfl, by simp⟩
  · cases h

theorem balance_of_local (htable : t.table n = s.table n) (htasks : t.tasks = s.tasks)
    (hsenders : ∃ extra, t.senders = s.senders ++ extra ∧ ∀ x ∈ extra, x.2.type.Aside) :
    balance env t n ρ = balance env s n ρ := by
  have h : Aside s { t with up := s.up, table := s.table } := ⟨rfl, rfl, htasks, hsenders⟩
  rw [← h.balance_eq, balance, balance, htable]

/-- **帳尻が変わるのは、`n` に `ρ` を届ける insert が始まったときだけである。** -/
theorem balance_step [Nontrivial ι] (hnodup : ∀ key, (env.owners key).Nodup) {l : Label ι}
    (hs : Sound env s) (hn : s.up n = true) (hl : Keeps n s l) (h : env.Step s l t) :
    balance env t n ρ = balance env s n ρ + (if starts env n ρ l then 1 else 0) ∧
      Sound env t ∧ t.up n = true := by
  unfold Env.Step at h
  cases l with
  | insert o key value =>
    simp only [Env.step] at h
    split at h
    · cases h
      obtain ⟨c, hc⟩ := env.exists_getNode key
      refine ⟨balance_insert (hnodup key) hc, sound_insert hs hc, ?_⟩
      rw [insert_eq hc]
      split <;> exact hn
    · cases h
  | query o selection =>
    simp only [Env.step] at h
    split at h
    · cases h
      have haside : Aside s (env.query s o selection) := query_aside o selection
      exact ⟨haside.balance_eq n ρ, haside.sound hs, by rw [haside.up]; exact hn⟩
    · cases h
  | delete => exact hl.elim
  | connect i =>
    obtain ⟨a, b, host, m, hsplit, -, hc⟩ := connect_cases h
    exact ⟨hc.balance_eq hnodup hs hn hsplit, hc.sound hs hsplit, by rw [hc.up_eq hs hsplit]; exact hn⟩
  | store i =>
    obtain ⟨a, b, w, hsplit, -, rfl⟩ := store_cases h
    exact ⟨store_balance hsplit, hs.of_senders fun x hx => .inl hx, hn⟩
  | returnQuery o =>
    have haside := returnQuery_aside h
    exact ⟨haside.balance_eq n ρ, haside.sound hs, by rw [haside.up]; exact hn⟩
  | recoverNext x =>
    obtain ⟨hup, htable, htasks, hsenders⟩ := recoverNext_other hl h
    have haside : Aside s { t with up := s.up, table := s.table } := ⟨rfl, rfl, htasks, hsenders⟩
    exact ⟨balance_of_local htable htasks hsenders, (haside.sound hs).of_senders fun x hx => .inl hx,
      by rw [hup]; exact hn⟩
  | crash x =>
    obtain ⟨hx, hsenders, htasks⟩ := hl
    simp only [Env.step] at h
    split at h
    · cases h
      refine ⟨?_, hs.of_senders fun y hy => .inl (mem_filter.mp hy).1, ?_⟩
      · have hsame : s.senders.filter (fun y => y.1 ≠ x) = s.senders :=
          filter_eq_self.mpr fun y hy => by simpa using hsenders y hy
        have hsame' : s.tasks.filter (fun w => w.node ≠ x) = s.tasks :=
          filter_eq_self.mpr fun w hw => by simpa using htasks w hw
        rw [balance, Env.crash, hsame, hsame']
        rfl
      · exact (update_of_ne hx.symm _ _).trans hn
    · cases h
  | restart x =>
    simp only [Env.step] at h
    split at h
    · cases h
    · cases h
      have htable : (env.restart s x).table n = s.table n := update_of_ne (Ne.symm hl) _ _
      have hsenders : ∃ extra, (env.restart s x).senders = s.senders ++ extra ∧
          ∀ y ∈ extra, y.2.type.Aside := ⟨[_], rfl, by simp [MsgType.Aside]⟩
      have haside : Aside s { env.restart s x with up := s.up, table := s.table } :=
        ⟨rfl, rfl, rfl, hsenders⟩
      exact ⟨balance_of_local htable rfl hsenders, (haside.sound hs).of_senders fun y hy => .inl hy,
        (update_of_ne (Ne.symm hl) _ _).trans hn⟩

theorem balance_run [Nontrivial ι] (hnodup : ∀ key, (env.owners key).Nodup)
    {tr : List (Infra.Transition (System ι) (Label ι))} (h : Infra.Run env.Step s tr t)
    (hs : Sound env s) (hn : s.up n = true) (hl : ∀ x ∈ tr, Keeps n x.pre x.label) :
    balance env t n ρ = balance env s n ρ + tr.countP (fun x => starts env n ρ x.label) ∧
      Sound env t ∧ t.up n = true := by
  induction h with
  | nil => exact ⟨rfl, hs, hn⟩
  | cons hstep _ ih =>
    have hone : balance env _ n ρ = _ ∧ _ := balance_step hnodup hs hn (hl _ mem_cons_self) hstep
    obtain ⟨hbal, hs', hn'⟩ := hone
    obtain ⟨hbal', hend⟩ := ih hs' hn' fun x hx => hl x (mem_cons_of_mem _ hx)
    refine ⟨?_, hend⟩
    rw [hbal', hbal, countP_cons]
    omega

theorem balance_of_quiet (h : s.Quiet) : balance env s n ρ = (s.table n).count ρ := by
  simp [balance, h.1, h.2]

end Dynamo
