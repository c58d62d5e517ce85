import MsProjects.Infra.Pool
import MsProjects.Infra.Run
import MsProjects.Dynamo.System
import MsProjects.Dynamo.Properties.Ring

/-! # step の場合分け -/

namespace Dynamo

variable {ι H : Type*} [LinearOrder H] [DecidableEq ι] {env : Env ι H} {s t : System ι}

variable {host : ι} {m : Message ι}

def Env.Step (env : Env ι H) (s : System ι) (a : Label ι) (t : System ι) : Prop :=
  env.step s a = some t

/-! ## 状態の更新 -/

namespace System

section

omit [DecidableEq ι]

variable (s) (host : ι) (m : Message ι) (w : Task ι) (rows : Option (List Row))

@[simp] theorem sendMsg_up : (s.sendMsg host m).up = s.up := rfl
@[simp] theorem sendMsg_table : (s.sendMsg host m).table = s.table := rfl
@[simp] theorem sendMsg_tasks : (s.sendMsg host m).tasks = s.tasks := rfl
@[simp] theorem sendMsg_senders : (s.sendMsg host m).senders = s.senders ++ [(host, m)] := rfl
@[simp] theorem addTask_up : (s.addTask w).up = s.up := rfl
@[simp] theorem addTask_table : (s.addTask w).table = s.table := rfl
@[simp] theorem addTask_tasks : (s.addTask w).tasks = s.tasks ++ [w] := rfl
@[simp] theorem addTask_senders : (s.addTask w).senders = s.senders := rfl
@[simp] theorem answer_up : (s.answer host rows).up = s.up := rfl
@[simp] theorem answer_table : (s.answer host rows).table = s.table := rfl
@[simp] theorem answer_tasks : (s.answer host rows).tasks = s.tasks := rfl
@[simp] theorem answer_senders : (s.answer host rows).senders = s.senders := rfl

end

variable (s) (n : ι) (rows : List Row)

@[simp] theorem setTable_up : (s.setTable n rows).up = s.up := rfl
@[simp] theorem setTable_table : (s.setTable n rows).table = Function.update s.table n rows := rfl
@[simp] theorem setTable_tasks : (s.setTable n rows).tasks = s.tasks := rfl
@[simp] theorem setTable_senders : (s.setTable n rows).senders = s.senders := rfl

end System

/-- insert の message を一つ先の node に進める。 -/
def Message.advance (r : Ring ι H) (m : Message ι) : Message ι :=
  { m with replica := m.replica + 1, sendto := r.successor m.sendto }

namespace Message

omit [DecidableEq ι]

variable (r : Ring ι H) (m : Message ι)

@[simp] theorem advance_type : (m.advance r).type = m.type := rfl
@[simp] theorem advance_key : (m.advance r).key = m.key := rfl
@[simp] theorem advance_row : (m.advance r).row = m.row := rfl
@[simp] theorem advance_replica : (m.advance r).replica = m.replica + 1 := rfl
@[simp] theorem advance_sendto : (m.advance r).sendto = r.successor m.sendto := rfl

end Message

/-! ## insert に関わらない変化 -/

/-- 行を消さない message で、insert でもない。 -/
def MsgType.Aside (t : MsgType) : Prop := t ≠ .insert ∧ t ≠ .delAll ∧ t ≠ .delKey

/-- 行と書きかけの行を変えず、insert と delete の message を増やさない変化。 -/
structure Aside (s t : System ι) : Prop where
  up : t.up = s.up
  table : t.table = s.table
  tasks : t.tasks = s.tasks
  senders : ∃ extra, t.senders = s.senders ++ extra ∧ ∀ x ∈ extra, x.2.type.Aside

namespace Aside

omit [DecidableEq ι]

theorem of_senders_eq (hup : t.up = s.up) (htable : t.table = s.table) (htasks : t.tasks = s.tasks)
    (hsenders : t.senders = s.senders) : Aside s t :=
  ⟨hup, htable, htasks, [], by simpa using hsenders, by simp⟩

theorem sendMsg (hm : m.type.Aside) : Aside s (s.sendMsg host m) :=
  ⟨rfl, rfl, rfl, [(host, m)], rfl, by simpa using hm⟩

end Aside

theorem processMessage_aside {n : ι} (hm : m.type.Aside) : Aside s (env.processMessage s n m) := by
  obtain ⟨hins, hall, hkey⟩ := hm
  rw [Env.processMessage]
  cases htype : m.type with
  | insert => exact absurd htype hins
  | delAll => exact absurd htype hall
  | delKey => exact absurd htype hkey
  | queryAll =>
    simp only [Env.processQueryAll]
    split
    · exact .of_senders_eq rfl rfl rfl rfl
    · exact .sendMsg (by simp [MsgType.Aside, htype])
  | queryKey =>
    simp only [Env.processQueryKey]
    split
    · exact .of_senders_eq rfl rfl rfl rfl
    · exact .of_senders_eq rfl rfl rfl rfl
    · exact .sendMsg (by simp [MsgType.Aside])
  | queryResult => exact .of_senders_eq rfl rfl rfl rfl
  | recovery | atRecovery => exact .sendMsg (by simp [MsgType.Aside])
  | recoveryResult => exact .of_senders_eq rfl rfl rfl rfl

omit [DecidableEq ι] in
theorem connectFailed_aside (hm : m.type.Aside) : Aside s (env.connectFailed s host m) := by
  obtain ⟨hins, -⟩ := hm
  rw [Env.connectFailed]
  cases htype : m.type with
  | insert => exact absurd htype hins
  | queryAll | queryKey =>
    dsimp only
    split
    all_goals exact .sendMsg (by simp [MsgType.Aside])
  | queryResult | delAll | delKey | recovery | atRecovery | recoveryResult =>
    exact .of_senders_eq rfl rfl rfl rfl

theorem query_aside (o : ι) (selection : String) : Aside s (env.query s o selection) := by
  unfold Env.query
  dsimp only
  repeat' split
  all_goals first
    | exact .of_senders_eq rfl rfl rfl rfl
    | exact ⟨rfl, rfl, rfl, [_], rfl, by simp [MsgType.Aside]⟩

/-! ## 接続 -/

theorem processMessage_insert {n : ι} (htype : m.type = .insert) :
    env.processMessage s n m = env.processInsertRequestMsg s n m := by
  simp only [Env.processMessage, htype]

omit [DecidableEq ι] in
theorem connectFailed_insert (htype : m.type = .insert) :
    env.connectFailed s host m =
      if m.replica < 3 then s.sendMsg host (m.advance env.ring) else s := by
  cases m
  cases htype
  rfl

inductive Connects (env : Env ι H) (s : System ι) (a b : List (ι × Message ι)) (host : ι)
    (m : Message ι) : System ι → Prop where
  /-- 生きている node が insert を受け取り、次へ送る。 -/
  | taken (hup : s.up m.sendto = true) (hbusy : s.busy m.sendto = false) (htype : m.type = .insert)
      (hr : m.replica < 3) :
      Connects env s a b host m
        (({ s with senders := a ++ b }.sendMsg m.sendto (m.advance env.ring)).addTask
          ⟨m.sendto, m.row, true⟩)
  /-- 落ちている node を飛ばして送り直す。 -/
  | skipped (hdown : s.up m.sendto = false) (htype : m.type = .insert) (hr : m.replica < 3) :
      Connects env s a b host m ({ s with senders := a ++ b }.sendMsg host (m.advance env.ring))
  /-- 三つ数え終えた insert は捨てられる。 -/
  | dropped (htype : m.type = .insert) (hr : 3 ≤ m.replica) :
      Connects env s a b host m { s with senders := a ++ b }
  /-- 生きている node がほかの message を受け取る。 -/
  | other (hup : s.up m.sendto = true) (hbusy : s.busy m.sendto = false) (htype : m.type ≠ .insert) :
      Connects env s a b host m (env.processMessage { s with senders := a ++ b } m.sendto m)
  /-- ほかの message の接続が失敗する。 -/
  | otherFailed (hdown : s.up m.sendto = false) (htype : m.type ≠ .insert) :
      Connects env s a b host m (env.connectFailed { s with senders := a ++ b } host m)

theorem connect_cases {i : Nat} (h : env.connect s i = some t) :
    ∃ a b host m, s.senders = a ++ (host, m) :: b ∧ a.length = i ∧ Connects env s a b host m t := by
  rw [Env.connect] at h
  split at h
  · cases h
  · rename_i host m hm
    obtain ⟨a, b, hsplit, herase, hlen⟩ := Infra.Pool.exists_split hm
    rw [herase] at h
    refine ⟨a, b, host, m, hsplit, hlen, ?_⟩
    cases hup : s.up m.sendto with
    | false =>
      simp only [hup, Bool.false_eq_true, if_false, Option.some.injEq] at h
      by_cases htype : m.type = .insert
      · rw [connectFailed_insert htype] at h
        split at h <;> rename_i hr
        · exact h ▸ .skipped hup htype hr
        · exact h ▸ .dropped htype (not_lt.mp hr)
      · exact h ▸ .otherFailed hup htype
    | true =>
      cases hbusy : s.busy m.sendto with
      | true => simp [hup, hbusy] at h
      | false =>
        simp only [hup, hbusy, if_true, Bool.false_eq_true, if_false, Option.some.injEq] at h
        by_cases htype : m.type = .insert
        · rw [processMessage_insert htype, Env.processInsertRequestMsg] at h
          split at h <;> rename_i hr
          · exact h ▸ .taken hup hbusy htype hr
          · exact h ▸ .dropped htype (not_lt.mp hr)
        · exact h ▸ .other hup hbusy htype

theorem store_cases {i : Nat} (h : Env.store s i = some t) :
    ∃ a b w, s.tasks = a ++ w :: b ∧ a.length = i ∧
      t = { s.setTable w.node (s.table w.node ++ [w.row]) with tasks := a ++ b } := by
  rw [Env.store] at h
  split at h
  · cases h
  · rename_i w hw
    obtain ⟨a, b, hsplit, herase, hlen⟩ := Infra.Pool.exists_split hw
    rw [herase, Option.some.injEq] at h
    exact ⟨a, b, w, hsplit, hlen, h.symm⟩

theorem returnQuery_aside {o : ι} (h : Env.returnQuery s o = some t) : Aside s t := by
  rw [Env.returnQuery] at h
  split at h
  · cases h
    exact .of_senders_eq rfl rfl rfl rfl
  · cases h

end Dynamo
