import MsProjects.Infra.Run
import MsProjects.Os161.Synchprobs.Stoplight

/-! # 交差点の安全と進行 -/

namespace Os161

open Infra Car

namespace Car

/-! ## 車の通り道 -/

/-- 残りが `rest` のとき、もう実行した命令。 -/
def passed (car : Car) (rest : List CarInstr) : List CarInstr :=
  car.program.take (car.program.length - rest.length)

/-- 一命令の後に車がいる quadrant。 -/
def move (q : Option (Fin 4)) : CarInstr → Option (Fin 4)
  | .event (.inQuadrant q') => some q'
  | .event .leaveIntersection => none
  | _ => q

def position (car : Car) (rest : List CarInstr) : Option (Fin 4) := (car.passed rest).foldl move none

def quadrant? : CarInstr → Option (Fin 4)
  | .event (.inQuadrant q) => some q
  | _ => none

/-- これまでに入った quadrant。 -/
def visited (car : Car) (rest : List CarInstr) : List (Fin 4) := (car.passed rest).filterMap quadrant?

def left (car : Car) (rest : List CarInstr) : Bool := (car.passed rest).contains (.event .leaveIntersection)

/-- lock を待つかもしれない位置なら、その quadrant。 -/
def wants : List CarInstr → Option (Fin 4)
  | .acquire q :: _ => some q
  | _ => none

/-- semaphore を待つかもしれない位置なら、その semaphore。 -/
def asks : List CarInstr → Option StopSem
  | .p s :: _ => some s
  | _ => none

structure Fair (car : Car) (rest : List CarInstr) : Prop where
  position : ∀ q, car.position rest = some q → holds q rest = true
  visited : car.visited rest <+: car.route
  stays : car.visited rest ≠ [] → car.left rest = false →
    car.position rest ≠ none ∧ car.position rest = (car.visited rest).getLast?
  left : car.left rest = true → car.visited rest = car.route
  finished : rest = [] → car.left rest = true
  nonneg : 0 ≤ borrowed .allow3sem rest
  inside : ∀ q, holds q rest = true → borrowed .allow3sem rest = 1
  wants : ∀ q, wants rest = some q → borrowed .allow3sem rest = 1 ∧
    ∀ q', holds q' rest = true → q' = q + 1
  enters : ∀ s, asks rest = some s → s = .allow3sem ∧ borrowed .allow3sem rest = 0

theorem fair_of_suffix {car : Car} {rest : List CarInstr} (h : rest <:+ car.program) : Fair car rest := by
  obtain ⟨turn, direction⟩ := car
  have hall : ∀ d : Fin 4, ∀ r ∈ (mk turn d).program.tails,
      (∀ q, (mk turn d).position r = some q → holds q r = true) ∧
      (mk turn d).visited r <+: (mk turn d).route ∧
      ((mk turn d).visited r ≠ [] → (mk turn d).left r = false →
        (mk turn d).position r ≠ none ∧ (mk turn d).position r = ((mk turn d).visited r).getLast?) ∧
      ((mk turn d).left r = true → (mk turn d).visited r = (mk turn d).route) ∧
      (r = [] → (mk turn d).left r = true) ∧
      0 ≤ borrowed .allow3sem r ∧ (∀ q, holds q r = true → borrowed .allow3sem r = 1) ∧
      (∀ q, wants r = some q → borrowed .allow3sem r = 1 ∧ ∀ q', holds q' r = true → q' = q + 1) ∧
      (asks r = none ∨ asks r = some .allow3sem ∧ borrowed .allow3sem r = 0) := by
    cases turn <;> decide +kernel
  obtain ⟨hposition, hvisited, hstays, hleft, hfinished, hnonneg, hinside, hwants, henters⟩ :=
    hall direction rest ((List.mem_tails _ _).mpr h)
  refine ⟨hposition, hvisited, hstays, hleft, hfinished, hnonneg, hinside, hwants, fun s hs => ?_⟩
  rcases henters with hnone | ⟨hsome, hzero⟩
  · simp [hnone] at hs
  · exact ⟨Option.some.inj (hs.symm.trans hsome), hzero⟩

theorem program_closed (car : Car) : borrowed .allow3sem car.program = 0 ∧
    (∀ q, alternates q car.program = true) ∧ ∀ q, holds q car.program = false := by
  obtain ⟨turn, direction⟩ := car
  cases turn <;> revert direction <;> decide +kernel

end Car

namespace Stoplight

/-! ## 不変量 -/

variable {T : Type*} [Fintype T] {cars : T → Car} {m m' : Stoplight T} {t : T}

structure Inv (cars : T → Car) (m : Stoplight T) : Prop where
  wellLocked : m.WellLocked
  supply : m.supply .allow3sem = 3
  suffix : ∀ t, m.rest t <:+ (cars t).program

theorem inv_init (cars : T → Car) : Inv cars (init cars) where
  wellLocked := by
    refine ⟨fun t q => (cars t).program_closed.2.1 q, fun t q => ?_⟩
    simp [init, (cars t).program_closed.2.2 q]
  supply := by
    have hzero : total (borrowed .allow3sem) (fun t => (cars t).program) = 0 :=
      total_eq_zero fun t => (cars t).program_closed.1
    show (3 : Int) + total (borrowed .allow3sem) (fun t => (cars t).program) = 3
    omega
  suffix t := List.suffix_rfl

theorem Inv.fair (h : Inv cars m) (t : T) : (cars t).Fair (m.rest t) := fair_of_suffix (h.suffix t)

theorem Inv.owner_of_position (h : Inv cars m) {q : Fin 4}
    (ht : (cars t).position (m.rest t) = some q) : m.owner q = some t :=
  (h.wellLocked.owner t q).mpr ((h.fair t).position q ht)

variable [DecidableEq T]

def StopStep (m : Stoplight T) (t : T) (m' : Stoplight T) : Prop := m.advance t = some m'

theorem Inv.step (h : Inv cars m) (hstep : StopStep m t m') : Inv cars m' :=
  ⟨h.wellLocked.advance hstep, (Machine.supply_advance hstep _).trans h.supply,
    fun u => (Machine.advance_suffix hstep u).trans (h.suffix u)⟩

/-! ## 進行 -/

theorem Inv.owner_waits (h : Inv cars m) (hstuck : ∀ t, m.rest t ≠ [] → m.advance t = none) {q : Fin 4}
    (howner : m.owner q = some t) :
    wants (m.rest t) = some (q - 1) ∧ ∃ u, m.owner (q - 1) = some u := by
  have hholds := (h.wellLocked.owner t q).mp howner
  have hne : m.rest t ≠ [] := by
    intro hnil
    simp [hnil, holds] at hholds
  rcases Machine.blocked_cases (hstuck t hne) hne with ⟨q', prog, u, hrest, hu⟩ | ⟨s, prog, hrest, -⟩
  · have hwants : wants (m.rest t) = some q' := by simp [hrest, wants]
    have hprev : ∀ r : Fin 4, r + 1 - 1 = r := by decide
    rw [((h.fair t).wants q' hwants).2 q hholds, hprev]
    exact ⟨hwants, u, hu⟩
  · have hzero := ((h.fair t).enters s (by simp [hrest, asks])).2
    have hone := (h.fair t).inside q hholds
    omega

theorem Inv.unowned (h : Inv cars m) (hstuck : ∀ t, m.rest t ≠ [] → m.advance t = none) (q : Fin 4) :
    m.owner q = none := by
  by_contra hq
  obtain ⟨t, ht⟩ := Option.ne_none_iff_exists'.mp hq
  obtain ⟨-, t₁, ht₁⟩ := h.owner_waits hstuck ht
  obtain ⟨-, t₂, ht₂⟩ := h.owner_waits hstuck ht₁
  obtain ⟨-, t₃, ht₃⟩ := h.owner_waits hstuck ht₂
  have hring : ∀ q r : Fin 4, r = q ∨ r = q - 1 ∨ r = q - 1 - 1 ∨ r = q - 1 - 1 - 1 := by decide
  have hall : ∀ r, ∃ u, m.owner r = some u := by
    intro r
    rcases hring q r with rfl | rfl | rfl | rfl
    exacts [⟨t, ht⟩, ⟨t₁, ht₁⟩, ⟨t₂, ht₂⟩, ⟨t₃, ht₃⟩]
  choose u hu using hall
  have hholds : ∀ r, holds r (m.rest (u r)) = true := fun r => (h.wellLocked.owner _ r).mp (hu r)
  -- 待つ車の持つ lock は一つなので、四つの持ち主は異なる。
  have hinj : Function.Injective u := by
    intro r r' hr
    have hone := ((h.fair (u r)).wants _ (h.owner_waits hstuck (hu r)).1).2
    rw [hone r (hholds r), hone r' (hr ▸ hholds r')]
  have hfour : (Fintype.card (Fin 4) : Int) ≤ total (borrowed .allow3sem) m.rest :=
    card_le_total (fun t => (h.fair t).nonneg) hinj fun r => (h.fair (u r)).inside r (hholds r)
  have hsupply : (m.count .allow3sem : Int) + total (borrowed .allow3sem) m.rest = 3 := h.supply
  rw [Fintype.card_fin] at hfour
  omega

theorem Inv.progress (h : Inv cars m) (hsome : ∃ t, m.rest t ≠ []) : ∃ t m', StopStep m t m' := by
  by_contra hno
  have hstuck : ∀ t, m.rest t ≠ [] → m.advance t = none := by
    intro t _
    by_contra hadv
    obtain ⟨m', hm'⟩ := Option.ne_none_iff_exists'.mp hadv
    exact hno ⟨t, m', hm'⟩
  -- どの lock も空いているので、待っている車はみな `allow3sem` を待ち、何も借りていない。
  have hasks : ∀ t, m.rest t ≠ [] → m.count .allow3sem = 0 ∧ borrowed .allow3sem (m.rest t) = 0 := by
    intro t ht
    rcases Machine.blocked_cases (hstuck t ht) ht with ⟨q, prog, u, -, howner⟩ | ⟨s, prog, hrest, hcount⟩
    · simp [h.unowned hstuck q] at howner
    · obtain ⟨rfl, hzero⟩ := (h.fair t).enters s (by simp [hrest, asks])
      exact ⟨hcount, hzero⟩
  have hzero : total (borrowed .allow3sem) m.rest = 0 := by
    refine total_eq_zero fun t => ?_
    by_cases ht : m.rest t = []
    · simp [ht, borrowed]
    · exact (hasks t ht).2
  have hsupply : (m.count .allow3sem : Int) + total (borrowed .allow3sem) m.rest = 3 := h.supply
  obtain ⟨t, ht⟩ := hsome
  have hcount := (hasks t ht).1
  omega

/-! ## 起動からの列 -/

/--
**どの車の集まりのどの列の後でも、同じ quadrant に二台の車はいない。車は通り道を順に通り、入ってから
出るまで最後に入った quadrant にいて、出たときには通り終えている。終わっていない車があれば、
どれかの車が進める。**
-/
theorem stoplight_exact (cars : T → Car) {tr : List (Transition (Stoplight T) T)} {m : Stoplight T}
    (hrun : Run StopStep (init cars) tr m) :
    (∀ t u q, (cars t).position (m.rest t) = some q → (cars u).position (m.rest u) = some q → t = u) ∧
      (∀ t, (cars t).visited (m.rest t) <+: (cars t).route ∧
        ((cars t).visited (m.rest t) ≠ [] → (cars t).left (m.rest t) = false →
          (cars t).position (m.rest t) ≠ none ∧
            (cars t).position (m.rest t) = ((cars t).visited (m.rest t)).getLast?) ∧
        ((cars t).left (m.rest t) = true → (cars t).visited (m.rest t) = (cars t).route) ∧
        (m.rest t = [] → (cars t).left (m.rest t) = true)) ∧
      ((∃ t, m.rest t ≠ []) → ∃ t m', StopStep m t m') := by
  have hinv : Inv cars m := (hrun.invariant' (fun hp hq => hp.step hq) (inv_init cars)).1
  refine ⟨fun t u q ht hu => ?_, fun t => ?_, hinv.progress⟩
  · have howner := hinv.owner_of_position ht
    rw [hinv.owner_of_position hu] at howner
    exact (Option.some.inj howner).symm
  · exact ⟨(hinv.fair t).visited, (hinv.fair t).stays, (hinv.fair t).left, (hinv.fair t).finished⟩

/-- 三台が quadrant を一つずつ持ち、四台目が `allow3sem` を待つ列。 -/
theorem stoplight_exact_three_inside :
    ∃ (cars : Fin 4 → Car) (tr : List (Transition (Stoplight (Fin 4)) (Fin 4))) (m : Stoplight (Fin 4)),
      Run StopStep (init cars) tr m ∧ m.owner 0 = some 0 ∧ m.owner 1 = some 1 ∧ m.owner 2 = some 2 ∧
      m.advance 3 = none ∧ m.rest 3 ≠ [] ∧ m.advance 1 = none ∧ ∃ t m', StopStep m t m' := by
  obtain ⟨m, hm⟩ : ∃ m, [0, 1, 2, 0, 1, 2, 0, 1, 2].foldlM Machine.advance
      (init fun t : Fin 4 => ⟨.turnleft, t⟩) = some m := ⟨_, rfl⟩
  have hrun := (Run.of_foldlM hm).1
  have hrest : m.rest 3 ≠ [] := by
    cases hm
    exact List.cons_ne_nil _ _
  refine ⟨_, _, m, hrun, ?_, ?_, ?_, ?_, hrest, ?_, (stoplight_exact _ hrun).2.2 ⟨3, hrest⟩⟩ <;>
    cases hm <;> rfl

end Stoplight

end Os161
