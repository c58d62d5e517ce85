import MsProjects.Dynamo.Properties.Insert

/-! # 一つだけの message -/

namespace Dynamo

open List Function Infra

variable {ι H : Type*} [LinearOrder H] [DecidableEq ι] {env : Env ι H} {base t : System ι}
  {host : ι} {m : Message ι}

/-- 一つだけの `Sender` の接続。 -/
def Env.deliver (env : Env ι H) (base : System ι) (host : ι) (m : Message ι) : System ι :=
  if base.up m.sendto then env.processMessage base m.sendto m else env.connectFailed base host m

theorem connect_sole {i : Nat} (hq : base.Quiet) (h : env.connect (base.sendMsg host m) i = some t) :
    t = env.deliver base host m := by
  obtain ⟨hsenders, htasks⟩ := hq
  have hbusy : (base.sendMsg host m).busy m.sendto = false := by simp [System.busy, htasks]
  have hsole : (base.sendMsg host m).senders = [(host, m)] := by simp [hsenders]
  have hbase : { base.sendMsg host m with senders := [] } = base := by
    cases base
    cases hsenders
    rfl
  rw [Env.connect, hsole] at h
  cases i with
  | zero =>
    simp only [getElem?_cons_zero, eraseIdx_cons_zero, System.sendMsg_up, hbusy,
      Bool.false_eq_true, if_false] at h
    rw [Env.deliver]
    split at h <;> rename_i hup
    · rw [if_pos hup, ← Option.some.inj h]
      exact congrArg (fun x => env.processMessage x m.sendto m) hbase
    · rw [if_neg hup, ← Option.some.inj h]
      exact congrArg (fun x => env.connectFailed x host m) hbase
  | succ i => simp at h

theorem not_delivers_of_quiet {l : Label ι} (hq : base.Quiet) (hl : l.Delivers) :
    ¬ env.Step base l t := by
  intro hstep
  cases l with
  | connect i =>
    obtain ⟨a, b, host, m, hsplit, -, -⟩ := connect_cases hstep
    simp [hq.1] at hsplit
  | store i =>
    obtain ⟨a, b, w, hsplit, -, -⟩ := store_cases hstep
    simp [hq.2] at hsplit
  | insert | query | delete | returnQuery | recoverNext | crash | restart => exact hl.elim

section

variable {A E : Label ι → Prop} {P Q : System ι → Prop} {n : Nat}
  (hA : ∀ a, A a ↔ a.Delivers ∨ E a) (hq : base.Quiet)

include hA hq

theorem until_deliver (hno : ∀ a u, E a → ¬ env.Step (base.sendMsg host m) a u)
    (hP : P (base.sendMsg host m)) (h : Until env.Step A P Q n (env.deliver base host m)) :
    Until env.Step A P Q (n + 1) (base.sendMsg host m) := by
  have hsole : ∀ a u, A a → env.Step (base.sendMsg host m) a u → u = env.deliver base host m := by
    intro a u ha hstep
    rcases (hA a).mp ha with hl | he
    · cases a with
      | connect i => exact connect_sole hq hstep
      | store i =>
        obtain ⟨a, b, w, hsplit, -, -⟩ := store_cases hstep
        simp [hq.2] at hsplit
      | insert | query | delete | returnQuery | recoverNext | crash | restart => exact hl.elim
    · exact absurd hstep (hno a u he)
  obtain ⟨l, u, hl, hstep⟩ : ∃ l u, Label.Delivers l ∧ env.Step (base.sendMsg host m) l u :=
    exists_delivers (by simp [System.Quiet])
  have ha := (hA l).mpr (.inl hl)
  exact .only hP ha (hsole l u ha hstep ▸ hstep) hsole h

theorem until_done (hno : ∀ a u, E a → ¬ env.Step base a u) (hQ : Q base) :
    Until env.Step A P Q 0 base := by
  refine .done hQ fun a u ha hstep => ?_
  rcases (hA a).mp ha with hl | he
  · exact not_delivers_of_quiet hq hl hstep
  · exact hno a u he hstep

end

/-- 残っている message が無く、`l` だけが起こる。 -/
theorem until_only {A : Label ι → Prop} {P Q : System ι → Prop} {n : Nat} {l : Label ι}
    (hA : ∀ a, A a ↔ a.Delivers ∨ a = l) (hq : base.Quiet) (hstep : env.step base l = some t)
    (hP : P base) (h : Until env.Step A P Q n t) : Until env.Step A P Q (n + 1) base := by
  refine .only hP ((hA l).mpr (.inr rfl)) hstep (fun a u ha hu => ?_) h
  rcases (hA a).mp ha with hl | rfl
  · exact absurd hu (not_delivers_of_quiet hq hl)
  · exact (Option.some.inj (hstep.symm.trans hu)).symm

end Dynamo
