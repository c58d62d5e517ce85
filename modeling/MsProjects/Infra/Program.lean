import MsProjects.Infra.Threads

/-!
# lock と semaphore を使う逐次 program

各 thread が、lock の取得と解放、semaphore の `p` と `v`、印だけの命令を並べた列を先頭から実行する。
-/

namespace Infra

open List Function Option

/-- 一つの命令。 -/
inductive Instr (L S E : Type*) where
  | acquire (l : L)
  | release (l : L)
  | p (s : S)
  | v (s : S)
  | event (e : E)
  deriving DecidableEq

/-- lock の持ち主、semaphore の数、各 thread の残りの列。 -/
@[ext]
structure Machine (T L S E : Type*) where
  owner : L → Option T
  count : S → Nat
  rest : T → List (Instr L S E)

/-! ## 列から読み取れること -/

section Program

variable {L S E : Type*}

/-- 一命令が `s` に戻す数。 -/
def Instr.gives [DecidableEq S] (s : S) : Instr L S E → Int
  | .v s' => if s' = s then 1 else 0
  | .p s' => if s' = s then -1 else 0
  | _ => 0

/-- 残りの列が `s` に戻す数。 -/
def borrowed [DecidableEq S] (s : S) (prog : List (Instr L S E)) : Int := (prog.map (Instr.gives s)).sum

variable [DecidableEq L]

/-- `l` に最初に触れる命令が解放である。 -/
def holds (l : L) : List (Instr L S E) → Bool
  | [] => false
  | .acquire l' :: prog => if l' = l then false else holds l prog
  | .release l' :: prog => if l' = l then true else holds l prog
  | _ :: prog => holds l prog

/-- `l` の取得と解放が交互に並び、最後は解放である。 -/
def alternates (l : L) : List (Instr L S E) → Bool
  | [] => true
  | .acquire l' :: prog => (if l' = l then holds l prog else true) && alternates l prog
  | .release l' :: prog => (if l' = l then !holds l prog else true) && alternates l prog
  | _ :: prog => alternates l prog

/-- 命令 `i` を実行した後に `l` を持つかどうか。 -/
def Instr.after (l : L) (b : Bool) : Instr L S E → Bool
  | .acquire l' => if l' = l then true else b
  | .release l' => if l' = l then false else b
  | _ => b

theorem holds_tail {l : L} {i : Instr L S E} {prog : List (Instr L S E)}
    (h : alternates l (i :: prog) = true) :
    alternates l prog = true ∧ holds l prog = Instr.after l (holds l (i :: prog)) i := by
  cases i with
  | acquire l' | release l' =>
    by_cases hl : l' = l <;> simp_all [alternates, holds, Instr.after]
  | p s | v s | event e => exact ⟨by simpa [alternates] using h, rfl⟩

end Program

namespace Machine

variable {T L S E : Type*} [DecidableEq T]

/-- `t` の残りの列を置き換える。 -/
def setRest (m : Machine T L S E) (t : T) (prog : List (Instr L S E)) : Machine T L S E :=
  { m with rest := update m.rest t prog }

/-- semaphore に残っている数と、thread が借りている数の和。 -/
def supply [Fintype T] [DecidableEq S] (m : Machine T L S E) (s : S) : Int :=
  m.count s + total (borrowed s) m.rest

/-- lock の持ち主は、残りの列から決まる。 -/
structure WellLocked [DecidableEq L] (m : Machine T L S E) : Prop where
  alternates : ∀ t l, alternates l (m.rest t) = true
  owner : ∀ t l, m.owner l = some t ↔ holds l (m.rest t) = true

/-! ## 新しい列を始めること -/

section Start

variable {m : Machine T L S E} {t : T} {prog : List (Instr L S E)}

theorem supply_setRest [Fintype T] [DecidableEq S] {s : S}
    (h : borrowed s prog = borrowed s (m.rest t)) : (m.setRest t prog).supply s = m.supply s := by
  have htotal := total_update (borrowed s) m.rest t prog
  show (m.count s : Int) + total (borrowed s) (update m.rest t prog) =
    m.count s + total (borrowed s) m.rest
  omega

theorem WellLocked.setRest [DecidableEq L] (h : WellLocked m)
    (halt : ∀ l, Infra.alternates l prog = true) (hholds : ∀ l, holds l prog = holds l (m.rest t)) :
    WellLocked (m.setRest t prog) := by
  refine ⟨fun u l => ?_, fun u l => ?_⟩ <;> by_cases hu : u = t
  · subst hu
    simpa [Machine.setRest] using halt l
  · simpa [Machine.setRest, update_of_ne hu] using h.alternates u l
  · subst hu
    simpa [Machine.setRest, hholds l] using h.owner u l
  · simpa [Machine.setRest, update_of_ne hu] using h.owner u l

end Start

/-! ## 一命令の実行 -/

variable [DecidableEq L] [DecidableEq S]

/-- 命令を実行した後の lock と semaphore。 -/
def exec (m : Machine T L S E) (t : T) : Instr L S E → Option (Machine T L S E)
  | .acquire l =>
    match m.owner l with
    | none => some { m with owner := update m.owner l (some t) }
    | some u => if u = t then some m else none
  | .release l =>
    some (if m.owner l = some t then { m with owner := update m.owner l none } else m)
  | .p s =>
    if m.count s = 0 then none
    else some { m with count := update m.count s (m.count s - 1) }
  | .v s => some { m with count := update m.count s (m.count s + 1) }
  | .event _ => some m

/-- `t` が一命令を実行する。 -/
def advance (m : Machine T L S E) (t : T) : Option (Machine T L S E) :=
  match m.rest t with
  | [] => none
  | i :: prog => (m.exec t i).map fun m' => m'.setRest t prog

variable {m m' : Machine T L S E} {t : T}

theorem advance_cases (h : m.advance t = some m') :
    ∃ i prog m₁, m.rest t = i :: prog ∧ m.exec t i = some m₁ ∧ m' = m₁.setRest t prog := by
  unfold advance at h
  cases hrest : m.rest t with
  | nil => simp [hrest] at h
  | cons i prog =>
    simp only [hrest, map_eq_some_iff] at h
    obtain ⟨m₁, hexec, rfl⟩ := h
    exact ⟨i, prog, m₁, rfl, hexec, rfl⟩

theorem exec_rest {i : Instr L S E} (h : m.exec t i = some m') : m'.rest = m.rest := by
  cases i with
  | acquire l =>
    simp only [exec] at h
    split at h
    · cases h
      rfl
    · simp only [ite_none_right_eq_some, some.injEq] at h
      rw [h.2]
  | release l =>
    simp only [exec, some.injEq] at h
    subst h
    split <;> rfl
  | p s =>
    simp only [exec, ite_none_left_eq_some, some.injEq] at h
    rw [← h.2]
  | v s =>
    simp only [exec, some.injEq] at h
    rw [← h]
  | event e =>
    simp only [exec, some.injEq] at h
    rw [h]

theorem advance_suffix (h : m.advance t = some m') (u : T) : m'.rest u <:+ m.rest u := by
  obtain ⟨i, prog, m₁, hrest, hexec, rfl⟩ := advance_cases h
  by_cases hu : u = t
  · subst hu
    rw [hrest]
    simp [setRest]
  · simp [setRest, update_of_ne hu, exec_rest hexec]

/-! ## 一命令ずつの呼び出し -/

/-- 命令を一つずつ呼び出す機械のラベル。 -/
inductive Call (T L S E : Type*) where
  | start (t : T) (i : Instr L S E)
  | finish (t : T)

/-- 何も実行していない thread が命令を呼び出し、その命令が一度に効く。 -/
inductive CallStep : Machine T L S E → Call T L S E → Machine T L S E → Prop where
  | start {m : Machine T L S E} {t : T} {i : Instr L S E} : m.rest t = [] →
      CallStep m (.start t i) (m.setRest t [i])
  | finish {m m' : Machine T L S E} {t : T} {i : Instr L S E} : m.rest t = [i] → m.exec t i = some m' →
      CallStep m (.finish t) (m'.setRest t [])

/-- `t` の残りの変わり方に現れる呼び出し。 -/
def Call.between (t : T) : List (Instr L S E) → List (Instr L S E) → Option (Call T L S E)
  | [], [i] => some (.start t i)
  | [_], [] => some (.finish t)
  | _, _ => none

/-- `t` の残りの変わり方のとおりの step であるか、機械が変わらない。 -/
def Follows (t : T) (m m' : Machine T L S E) : Prop :=
  (Call.between t (m.rest t) (m'.rest t)).elim (m' = m) (CallStep m · m')

theorem follows_of_rest (hrest : m'.rest = m.rest) (h : m' = { m with rest := m'.rest }) :
    Follows t m m' := by
  rw [hrest] at h
  subst h
  unfold Follows
  rcases m.rest t with _ | ⟨_, _ | _⟩ <;> rfl

section

variable {i : Instr L S E} {m₁ : Machine T L S E} {prog : List (Instr L S E)}

theorem follows_start (hrest : m.rest t = []) (h : m' = m.setRest t prog) (hprog : prog = [i]) :
    Follows t m m' := by
  subst h hprog
  simpa [Follows, Call.between, hrest, setRest] using CallStep.start hrest

theorem follows_finish (hrest : m.rest t = [i]) (h : m' = m₁.setRest t prog) (hprog : prog = [])
    (hexec : m.exec t i = some m₁) : Follows t m m' := by
  subst h hprog
  simpa [Follows, Call.between, hrest, setRest] using CallStep.finish hrest hexec

end

/-! ## semaphore の数の保存 -/

theorem exec_count {i : Instr L S E} (h : m.exec t i = some m') (s : S) :
    (m'.count s : Int) = m.count s + i.gives s := by
  cases i with
  | acquire l =>
    simp only [exec] at h
    split at h
    · cases h
      simp [Instr.gives]
    · simp only [ite_none_right_eq_some, some.injEq] at h
      simp [h.2, Instr.gives]
  | release l =>
    simp only [exec, some.injEq] at h
    subst h
    split <;> simp [Instr.gives]
  | p s' =>
    simp only [exec, ite_none_left_eq_some, some.injEq] at h
    obtain ⟨hpos, rfl⟩ := h
    by_cases hs : s' = s
    · subst hs
      simp only [update_self, Instr.gives, if_true]
      omega
    · simp [Instr.gives, hs, update_of_ne (Ne.symm hs)]
  | v s' =>
    simp only [exec, some.injEq] at h
    subst h
    by_cases hs : s' = s
    · subst hs
      simp [Instr.gives]
    · simp [Instr.gives, hs, update_of_ne (Ne.symm hs)]
  | event e =>
    simp only [exec, some.injEq] at h
    subst h
    simp [Instr.gives]

/-- **借りることと返すことで、全体の数は変わらない。** -/
theorem supply_advance [Fintype T] (h : m.advance t = some m') (s : S) : m'.supply s = m.supply s := by
  obtain ⟨i, prog, m₁, hrest, hexec, rfl⟩ := advance_cases h
  have hcount := exec_count hexec s
  have htotal := total_update (borrowed s) m₁.rest t prog
  rw [exec_rest hexec, hrest] at htotal
  have hhead : borrowed s (i :: prog) = i.gives s + borrowed s prog := by simp [borrowed]
  rw [hhead] at htotal
  show (m₁.count s : Int) + total (borrowed s) (update m₁.rest t prog) =
    m.count s + total (borrowed s) m.rest
  rw [exec_rest hexec, hcount]
  omega

/-! ## lock の持ち主 -/

/-- 取得の前は誰も持たず、解放の前は自分が持つので、持ち主の変化は自分の所持の変化である。 -/
theorem WellLocked.exec_owner {m₁ : Machine T L S E} {i : Instr L S E} {prog : List (Instr L S E)}
    (h : WellLocked m) (hrest : m.rest t = i :: prog) (hexec : m.exec t i = some m₁) (l : L) :
    (m₁.owner l = some t ↔ Instr.after l (holds l (i :: prog)) i = true) ∧
      ∀ u, u ≠ t → (m₁.owner l = some u ↔ m.owner l = some u) := by
  have hown := h.owner t l
  rw [hrest] at hown
  cases i with
  | acquire l' =>
    simp only [exec] at hexec
    by_cases hl : l' = l
    · subst hl
      have hnot : m.owner l' ≠ some t := by
        rw [ne_eq, hown]
        simp [holds]
      split at hexec
      · rename_i hfree
        cases hexec
        simp [Instr.after, hfree, eq_comm]
      · rename_i u hu
        simp only [ite_none_right_eq_some] at hexec
        exact absurd (hexec.1 ▸ hu) hnot
    · split at hexec
      · cases hexec
        simp [Instr.after, hl, hown, update_of_ne (Ne.symm hl)]
      · simp only [ite_none_right_eq_some, some.injEq] at hexec
        obtain ⟨-, rfl⟩ := hexec
        simp [Instr.after, hl, hown]
  | release l' =>
    simp only [exec, some.injEq] at hexec
    subst hexec
    by_cases hl : l' = l
    · subst hl
      have hmine : m.owner l' = some t := by
        rw [hown]
        simp [holds]
      simp [hmine, Instr.after, eq_comm]
    · split <;> simp [Instr.after, hl, hown, update_of_ne (Ne.symm hl)]
  | p s =>
    simp only [exec, ite_none_left_eq_some, some.injEq] at hexec
    obtain ⟨-, rfl⟩ := hexec
    exact ⟨hown, fun _ _ => Iff.rfl⟩
  | v s | event e =>
    simp only [exec, some.injEq] at hexec
    subst hexec
    exact ⟨hown, fun _ _ => Iff.rfl⟩

/-- **lock の持ち主は、いつも残りの列から決まる。** -/
theorem WellLocked.advance (h : WellLocked m) (hstep : m.advance t = some m') : WellLocked m' := by
  obtain ⟨i, prog, m₁, hrest, hexec, rfl⟩ := advance_cases hstep
  have htail : ∀ l, _ := fun l => holds_tail (hrest ▸ h.alternates t l)
  refine ⟨fun u l => ?_, fun u l => ?_⟩
  · show Infra.alternates l (update m₁.rest t prog u) = true
    rw [exec_rest hexec]
    by_cases hu : u = t
    · subst hu
      rw [update_self]
      exact (htail l).1
    · rw [update_of_ne hu]
      exact h.alternates u l
  · show m₁.owner l = some u ↔ holds l (update m₁.rest t prog u) = true
    obtain ⟨hself, hother⟩ := h.exec_owner hrest hexec l
    rw [exec_rest hexec]
    by_cases hu : u = t
    · subst hu
      rw [update_self, (htail l).2]
      exact hself
    · rw [update_of_ne hu, hother u hu]
      exact h.owner u l

/-! ## 待つ thread -/

theorem blocked_cases (h : m.advance t = none) (hrest : m.rest t ≠ []) :
    (∃ l prog u, m.rest t = .acquire l :: prog ∧ m.owner l = some u) ∨
      ∃ s prog, m.rest t = .p s :: prog ∧ m.count s = 0 := by
  cases hprog : m.rest t with
  | nil => exact absurd hprog hrest
  | cons i prog =>
    simp only [Machine.advance, hprog, map_eq_none_iff] at h
    cases i with
    | acquire l =>
      simp only [exec] at h
      split at h
      · cases h
      · rename_i u hu
        exact .inl ⟨l, prog, u, rfl, hu⟩
    | p s =>
      simp only [exec, ite_eq_left_iff, reduceCtorEq, imp_false, not_not] at h
      exact .inr ⟨s, prog, rfl, h⟩
    | release l | v s | event e => simp [exec] at h

end Machine

end Infra
