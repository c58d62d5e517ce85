import MsProjects.Dynamo.Properties.Query

/-! # key の delete -/

namespace Dynamo

open List Function Infra Env

variable {ι H : Type*} [LinearOrder H] [DecidableEq ι] {env : Env ι H} {s t : System ι}
  {o c x : ι} {key : String}

theorem holds_setTable {n : ι} :
    (s.setTable x ((s.table x).filter fun row => row.1 ≠ key)).Holds key n ↔
      n ≠ x ∧ s.Holds key n := by
  by_cases hn : n = x
  · subst hn
    simp [System.Holds]
  · simp [System.Holds, hn]

def eraseMsg (o x : ι) (key : String) (replica : Nat) : Message ι :=
  { type := .delKey, key := key, sender := o, sendto := x, replica := replica }

/-- `x` から `replica` 個の node の行を、落ちている node の手前まで消した系。 -/
def Env.erased (env : Env ι H) (key : String) : Nat → ι → System ι → System ι
  | 0, _, s => s
  | replica + 1, x, s =>
    if s.up x then env.erased key replica (env.ring.successor x)
      (s.setTable x ((s.table x).filter fun row => row.1 ≠ key))
    else s

/-- 消す message の届く node。 -/
def Env.reached (env : Env ι H) (up : ι → Bool) : Nat → ι → List ι
  | 0, _ => []
  | replica + 1, x => if up x then x :: env.reached up replica (env.ring.successor x) else []

theorem erased_up (replica : Nat) : (env.erased key replica x s).up = s.up := by
  induction replica generalizing s x with
  | zero => rfl
  | succ replica ih =>
    rw [erased]
    split
    · exact ih
    · rfl

theorem holds_erased {n : ι} (replica : Nat) :
    (env.erased key replica x s).Holds key n ↔ s.Holds key n ∧ n ∉ env.reached s.up replica x := by
  induction replica generalizing s x with
  | zero => simp [erased, reached]
  | succ replica ih =>
    rw [erased, reached]
    split
    · rw [ih, holds_setTable, System.setTable_up, mem_cons, not_or]
      tauto
    · simp

theorem exists_until_erased (hquote : '\'' ∉ key.toList) (hq : s.Quiet) (host : ι) (replica : Nat) :
    ∃ n, Until env.Step Label.Delivers (¬ ·.Quiet) (· = env.erased key replica x s) n
      (s.sendMsg host (eraseMsg o x key replica)) := by
  have hA : ∀ a : Label ι, a.Delivers ↔ a.Delivers ∨ False := fun a => (or_false _).symm.to_iff
  have hbusy (s : System ι) (host : ι) (m : Message ι) : ¬ (s.sendMsg host m).Quiet := by
    simp [System.Quiet]
  -- 落ちている node か、最後の message では何も変わらない
  have hend {s : System ι} {host : ι} {m : Message ι} (hq : s.Quiet)
      (hstay : env.deliver s host m = s) :
      Until env.Step Label.Delivers (¬ ·.Quiet) (· = s) 1 (s.sendMsg host m) :=
    until_deliver hA hq (by simp) (hbusy s host m) (hstay.symm ▸ until_done hA hq (by simp) rfl)
  induction replica generalizing s x host with
  | zero =>
    refine ⟨1, hend hq ?_⟩
    rw [deliver]
    split <;> rfl
  | succ replica ih =>
    rw [erased]
    by_cases hup : s.up x = true
    · obtain ⟨n, hn⟩ := ih (x := env.ring.successor x)
        (s := s.setTable x ((s.table x).filter fun row => row.1 ≠ key)) hq x
      rw [if_pos hup]
      refine ⟨n + 1, until_deliver hA hq (by simp) (hbusy _ _ _) ?_⟩
      rw [deliver, eraseMsg, if_pos hup]
      simp only [processMessage, processDeleteKey, deleteWhere, if_neg hquote,
        if_pos (Nat.succ_pos _)]
      exact hn
    · rw [if_neg hup]
      refine ⟨1, hend hq ?_⟩
      rw [deliver, eraseMsg, if_neg hup]
      rfl

/-- **担当の列で、落ちている node の後ろに動いている node が無いときに限り、delete は key を残さない。** -/
theorem delete_complete_iff [Fintype ι] (hcard : 3 ≤ Fintype.card ι) (env : Env ι H) (hq : s.Quiet)
    (hstored : ∀ n, s.Holds key n ↔ n ∈ env.owners key) (hat : key ≠ "@") (hstar : key ≠ "*")
    (hquote : '\'' ∉ key.toList) (hdelete : env.Step s (.delete o key) t) :
    (∃ n, Until env.Step Label.Delivers (¬ ·.Quiet)
      (fun u => ∀ n, u.up n = true → ¬ u.Holds key n) n t) ↔
      (env.owners key).Pairwise fun a b => s.up b = true → s.up a = true := by
  have := nontrivial_of_card hcard
  obtain ⟨c, hc⟩ := env.exists_getNode key
  obtain ⟨ho, rfl⟩ : s.up o = true ∧ env.delete s o key = t := by
    simpa [Env.Step, step] using hdelete
  have hsend : env.delete s o key = s.sendMsg o (eraseMsg o c key 3) := by
    simp [delete, hat, hstar, hc, eraseMsg]
  obtain ⟨n, hn⟩ : ∃ n, Until env.Step Label.Delivers (¬ ·.Quiet) (· = env.erased key 3 c s) n
      (s.sendMsg o (eraseMsg o c key 3)) := exists_until_erased hquote hq o 3
  rw [hsend, hn.exists_iff]
  simp only [erased_up, holds_erased, hstored]
  rw [owners_eq hc]
  obtain ⟨⟨h₁₂, h₁₃⟩, h₂₃⟩ : (c ≠ env.ring.successor c ∧ c ≠ env.ring.successor (env.ring.successor c)) ∧
      env.ring.successor c ≠ env.ring.successor (env.ring.successor c) := by
    simpa [owners_eq hc] using env.owners_nodup (by omega) key
  -- 届く node は、担当の列の初めの動いている部分である
  simp only [reached, pairwise_cons, mem_cons, not_mem_nil, or_false]
  by_cases h₁ : s.up c = true
  · by_cases h₂ : s.up (env.ring.successor c) = true
    · grind
    · grind
  · grind

/-- 担当の列の最後の node 2 だけが落ちている。 -/
def lastDown : System (Fin 3) := { System.boot fun n => n.val ≠ 2 with table := fun _ => [("k", "v")] }

/-- node 1 の delete は、動いている node 0 と node 1 の行を消す。 -/
theorem delete_complete_iff_trio :
    ∃ t n, trio.Step lastDown (.delete 1 "k") t ∧
      Until trio.Step Label.Delivers (¬ ·.Quiet) (fun u => ∀ n, u.up n = true → ¬ u.Holds "k" n) n t := by
  obtain ⟨t, ht⟩ : ∃ t, trio.step lastDown (.delete 1 "k") = some t := ⟨_, rfl⟩
  have hstored : ∀ n, lastDown.Holds "k" n ↔ n ∈ trio.owners "k" :=
    fun n => iff_of_true ⟨"v", mem_singleton.mpr rfl⟩ (by revert n; decide)
  obtain ⟨n, hn⟩ := (delete_complete_iff (by decide) trio ⟨rfl, rfl⟩ hstored (by decide) (by decide)
    (by decide) ht).mpr (by decide)
  exact ⟨t, n, ht, hn⟩

/-- 担当の node 0 が落ちていると、delete の message は失われ、node 1 に行が残る。 -/
theorem delete_lost_trio :
    ∃ s₁ s₂, trio.step coordinatorDown (.delete 1 "k") = some s₁ ∧
      trio.step s₁ (.connect 0) = some s₂ ∧ s₂.Quiet ∧ s₂.up 1 = true ∧ s₂.Holds "k" 1 :=
  ⟨_, _, rfl, rfl, ⟨rfl, rfl⟩, rfl, "v", mem_singleton.mpr rfl⟩

end Dynamo
