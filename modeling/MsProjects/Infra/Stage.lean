import MsProjects.Infra.Program

/-!
# 何 step かで効く命令

部品の中で何 step かけて実行される命令の進み具合と、それを一度に効く命令と見たときの機械。
-/

namespace Infra

open List Function Option

/-- 一命令の呼び出しの進み具合。 -/
inductive Stage (I : Type*) where
  | idle
  | before (i : I)
  | after (i : I)

namespace Stage

variable {I J : Type*} {i : I} {x x' : Stage I}

/-- 呼び出してまだ効いていない命令。 -/
def pending : Stage I → List I
  | .before i => [i]
  | .idle | .after _ => []

/-- 呼び出している命令。 -/
def calling : Stage I → Option I
  | .idle => none
  | .before i | .after i => some i

def map (f : I → J) : Stage I → Stage J
  | .idle => .idle
  | .before i => .before (f i)
  | .after i => .after (f i)

/-- 効いた命令を除いた残り。 -/
def remaining (rest : List I) : Stage I → List I
  | .after _ => rest.tail
  | .idle | .before _ => rest

/-- ここで命令が効く。 -/
def takes : Stage I → Stage I → Bool
  | .before _, .idle | .before _, .after _ => true
  | _, _ => false

/-- 命令 `i` の呼び出しが一つ進む。 -/
inductive Next (i : I) : Stage I → Stage I → Prop where
  | call : Next i .idle (.before i)
  | work : Next i (.before i) (.before i)
  | done : Next i (.before i) .idle
  | effect : Next i (.before i) (.after i)
  | back : Next i (.after i) .idle

theorem Next.map (f : I → J) (h : Next i x x') : Next (f i) (x.map f) (x'.map f) := by
  cases h <;> constructor

@[simp] theorem takes_map (f : I → J) (x x' : Stage I) : (x.map f).takes (x'.map f) = x.takes x' := by
  cases x <;> cases x' <;> rfl

theorem calling_eq_none : x.calling = none ↔ x = .idle := by
  cases x <;> simp [calling]

theorem map_eq_idle {f : I → J} : x.map f = .idle ↔ x = .idle := by
  cases x <;> simp [map]

theorem calling_map (f : I → J) (x : Stage I) : (x.map f).calling = x.calling.map f := by
  cases x <;> rfl

theorem Next.calling_post (h : Next i x x') : x' = .idle ∨ x'.calling = some i := by
  cases h <;> simp [calling]

section

variable {prog rest' : List I} (h : Next i x x')
  (hrest : x' = .idle ∧ rest' = prog ∨ x' ≠ .idle ∧ rest' = i :: prog)

include h hrest

theorem Next.remaining_same (htakes : x.takes x' = false) : x'.remaining rest' = x.remaining (i :: prog) := by
  cases h <;> simp_all [remaining, takes]

theorem Next.remaining_taken (htakes : x.takes x' = true) :
    x.remaining (i :: prog) = i :: prog ∧ x'.remaining rest' = prog := by
  cases h <;> simp_all [remaining, takes]

end

end Stage

namespace Machine

variable {T L S E : Type*} [DecidableEq T] [DecidableEq L] [DecidableEq S]

/-- 進み具合が `x` から `x'` に変わるときの機械。 -/
def taken (m : Machine T L S E) (t : T) (i : Instr L S E) (x x' : Stage (Instr L S E)) :
    Option (Machine T L S E) :=
  if x.takes x' then m.exec t i else some m

variable {m m' : Machine T L S E} {t : T} {i : Instr L S E} {x x' : Stage (Instr L S E)}

/-- 呼び出しの順のとおりに動く機械は、命令が効くところでだけ変わる。 -/
theorem Follows.taken (h : Follows t m m') (hx : m.rest t = x.pending) (hx' : m'.rest t = x'.pending)
    (hnext : x.Next i x') : m.taken t i x x' = some { m' with rest := m.rest } := by
  unfold Follows at h
  rw [hx, hx'] at h
  cases hnext with
  | call =>
    obtain ⟨-⟩ : CallStep m (.start t i) m' := h
    rfl
  | work | back =>
    obtain rfl : m' = m := h
    rfl
  | done | effect =>
    have h : CallStep m (.finish t) m' := h
    cases h with
    | @finish _ _ j hrest hexec =>
      obtain rfl : i = j := by simpa [hx, Stage.pending] using hrest
      simp [Machine.taken, Stage.takes, hexec, setRest, ← exec_rest hexec]

/-- `t` の残りのうち、効いた命令を除いたものが一つ進む。 -/
theorem advance_or_eq {prog rest' : List (Instr L S E)} (hrest : m.rest t = x.remaining (i :: prog))
    (hnext : x.Next i x') (hrest' : x' = .idle ∧ rest' = prog ∨ x' ≠ .idle ∧ rest' = i :: prog)
    (htaken : m.taken t i x x' = some { m' with rest := m.rest })
    (hm' : m'.rest = update m.rest t (x'.remaining rest')) :
    m' = m ∨ m.advance t = some m' := by
  unfold Machine.taken at htaken
  cases htakes : x.takes x' with
  | false =>
    rw [htakes, if_neg Bool.false_ne_true, some.injEq] at htaken
    rw [hnext.remaining_same hrest' htakes, ← hrest, update_eq_self] at hm'
    rw [← hm'] at htaken
    exact .inl htaken.symm
  | true =>
    obtain ⟨hbefore, hafter⟩ := hnext.remaining_taken hrest' htakes
    rw [htakes, if_pos rfl] at htaken
    rw [hbefore] at hrest
    rw [hafter] at hm'
    simp [Machine.advance, hrest, htaken, setRest, ← hm']

end Machine

/-! ## 一つの部品の機械 -/

namespace Instr

variable {L S E : Type*}

/-- lock `l` の命令。 -/
def atLock (l : L) : Instr Unit Empty Empty → Instr L S E
  | .acquire _ => .acquire l
  | .release _ => .release l

/-- semaphore `s` の命令。 -/
def atSem (s : S) : Instr Empty Unit Empty → Instr L S E
  | .p _ => .p s
  | .v _ => .v s

theorem atLock_injective (l : L) : Injective (atLock l : Instr Unit Empty Empty → Instr L S E)
  | .acquire _, .acquire _, _ | .release _, .release _, _ => rfl

theorem atSem_injective (s : S) : Injective (atSem s : Instr Empty Unit Empty → Instr L S E)
  | .p _, .p _, _ | .v _, .v _, _ => rfl

end Instr

namespace Machine

variable {T L S E : Type*} [DecidableEq T] [DecidableEq L] [DecidableEq S] {m : Machine T L S E} {t : T}

/-- 部品の機械の命令が `m` の命令になるなら、進み具合に沿う変化もそうなる。 -/
theorem taken_map {L' S' E' : Type*} [DecidableEq L'] [DecidableEq S'] {k k' : Machine T L' S' E'}
    {f : Instr L' S' E' → Instr L S E} {i : Instr L' S' E'} {x x' : Stage (Instr L' S' E')}
    (put : Machine T L' S' E' → Machine T L S E)
    (hexec : ∀ {k₁}, k.exec t i = some k₁ → m.exec t (f i) = some (put k₁)) (hput : put k = m)
    (h : k.taken t i x x' = some k') : m.taken t (f i) (x.map f) (x'.map f) = some (put k') := by
  unfold taken at h ⊢
  rw [Stage.takes_map]
  by_cases htakes : x.takes x' = true
  · rw [if_pos htakes] at h ⊢
    exact hexec h
  · rw [if_neg htakes] at h ⊢
    obtain rfl : k = k' := some.inj h
    rw [hput]

theorem exec_atLock {k k' : Machine T Unit Empty Empty} {i : Instr Unit Empty Empty} {l : L}
    (hown : m.owner l = k.owner ()) (h : k.exec t i = some k') :
    m.exec t (i.atLock l) = some { m with owner := update m.owner l (k'.owner ()) } := by
  cases i with
  | acquire =>
    simp only [exec] at h
    cases howner : k.owner () with
    | none =>
      simp only [howner, some.injEq] at h
      subst h
      simp [exec, Instr.atLock, hown, howner]
    | some u =>
      simp only [howner, ite_none_right_eq_some, some.injEq] at h
      obtain ⟨rfl, rfl⟩ := h
      have hkeep := update_eq_self l m.owner
      rw [hown, howner] at hkeep
      simp [exec, Instr.atLock, hown, howner, hkeep]
  | release =>
    simp only [exec, some.injEq] at h
    subst h
    by_cases howner : k.owner () = some t
    · simp [exec, Instr.atLock, hown, howner]
    · have hkeep := update_eq_self l m.owner
      rw [hown] at hkeep
      simp [exec, Instr.atLock, hown, howner, hkeep]
  | p s | v s => exact s.elim
  | event e => exact e.elim

theorem taken_atLock {k k' : Machine T Unit Empty Empty} {i : Instr Unit Empty Empty} {l : L}
    {x x' : Stage (Instr Unit Empty Empty)} (hown : m.owner l = k.owner ())
    (h : k.taken t i x x' = some k') :
    m.taken t (i.atLock l) (x.map (.atLock l)) (x'.map (.atLock l)) =
      some { m with owner := update m.owner l (k'.owner ()) } := by
  refine taken_map (fun k' : Machine T Unit Empty Empty => { m with owner := update m.owner l (k'.owner ()) })
    (exec_atLock hown) ?_ h
  rw [← hown, update_eq_self]

theorem exec_atSem {k k' : Machine T Empty Unit Empty} {i : Instr Empty Unit Empty} {s : S}
    (hcount : m.count s = k.count ()) (h : k.exec t i = some k') :
    m.exec t (i.atSem s) = some { m with count := update m.count s (k'.count ()) } := by
  cases i with
  | p =>
    simp only [exec, ite_none_left_eq_some, some.injEq] at h
    obtain ⟨hpos, rfl⟩ := h
    simp [exec, Instr.atSem, hcount, hpos]
  | v =>
    simp only [exec, some.injEq] at h
    subst h
    simp [exec, Instr.atSem, hcount]
  | acquire l | release l => exact l.elim
  | event e => exact e.elim

theorem taken_atSem {k k' : Machine T Empty Unit Empty} {i : Instr Empty Unit Empty} {s : S}
    {x x' : Stage (Instr Empty Unit Empty)} (hcount : m.count s = k.count ())
    (h : k.taken t i x x' = some k') :
    m.taken t (i.atSem s) (x.map (.atSem s)) (x'.map (.atSem s)) =
      some { m with count := update m.count s (k'.count ()) } := by
  refine taken_map (fun k' : Machine T Empty Unit Empty => { m with count := update m.count s (k'.count ()) })
    (exec_atSem hcount) ?_ h
  rw [← hcount, update_eq_self]

end Machine

end Infra
