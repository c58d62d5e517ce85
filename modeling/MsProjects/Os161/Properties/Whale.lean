import MsProjects.Infra.Run
import MsProjects.Infra.Threads
import MsProjects.Os161.Synchprobs.Whale

/-! # 鯨の交尾の釣り合い -/

namespace Os161

open Infra List Function Option

/-! ## 三つの関数の違い -/

theorem Role.tests_ne (r : Role) : r.code.own = r ∧ r.code.tests.1 ≠ r ∧ r.code.tests.2 ≠ r := by
  cases r <;> decide

theorem Role.signals_tests (r : Role) : r.code.signals = r.code.tests ∨
    r.code.signals = r.code.tests.swap := by
  cases r <;> decide

theorem Role.signals_ne (r : Role) : r.code.signals.2 ≠ r.code.signals.1 := by
  cases r <;> decide

namespace Whale

/-! ## thread の位置 -/

def inside : WhalePc → Bool
  | .arrived | .signalFirst | .signalSecond | .waiting | .ending | .releasing => true
  | _ => false

/-- 種類 `r` の変数に数えられている。 -/
def counted (r : Role) : Role × WhalePc → Int
  | (r', .signalFirst) | (r', .signalSecond) | (r', .waiting) | (r', .asleep) | (r', .woken)
  | (r', .ending) => if r = r' then 1 else 0
  | _ => 0

/-- 種類 `r` の鯨で組に入ったものの数。 -/
def share (r : Role) : Role × WhalePc → Int
  | (_, .signalFirst) => 1
  | (r', .signalSecond) => if r = r'.code.signals.1 then 0 else 1
  | (r', .woken) | (r', .ending) | (r', .releasing) | (r', .leaving) | (r', .done) =>
    if r = r' then 1 else 0
  | _ => 0

variable {T : Type*} {role : T → Role} {s s' : Whale T} {t : T}

/-- これから signal を送る相手は眠っていて、これから眠る鯨には欠けている種類がある。 -/
def Ready (cv : Role → List T) : Role × WhalePc → Prop
  | (r, .signalFirst) => cv r.code.signals.1 ≠ [] ∧ cv r.code.signals.2 ≠ []
  | (r, .signalSecond) => cv r.code.signals.2 ≠ []
  | (r, .waiting) => ∃ r', r' ≠ r ∧ cv r' = []
  | _ => True

theorem ready_of_outside {cv : Role → List T} {r : Role} {p : WhalePc} (h : inside p = false) :
    Ready cv (r, p) := by
  cases p <;> simp_all [inside, Ready]

theorem share_second (r x : Role) : share r (x, .signalSecond) =
    (if r = x then 1 else 0) + if r = x.code.signals.2 then 1 else 0 := by
  cases r <;> cases x <;> rfl

theorem othersPresent_addTo (s : Whale T) (r : Role) (n : Int) :
    (s.addTo r n).othersPresent r.code = s.othersPresent r.code := by
  obtain ⟨-, h₁, h₂⟩ := r.tests_ne
  simp [othersPresent, addTo, update_of_ne h₁, update_of_ne h₂]

/-! ## lock と条件変数 -/

/-- lock の持ち主は位置から決まる。 -/
def Owned (owner : Option T) (pc : T → WhalePc) : Prop := ∀ t, owner = some t ↔ inside (pc t) = true

/-- 条件変数で眠る thread は位置から決まる。 -/
structure Sleeping (role : T → Role) (cv : Role → List T) (pc : T → WhalePc) : Prop where
  mem : ∀ r t, t ∈ cv r ↔ pc t = .asleep ∧ role t = r
  nodup : ∀ r, (cv r).Nodup

structure Placed (role : T → Role) (s : Whale T) : Prop where
  owned : Owned s.owner s.pc
  sleeping : Sleeping role s.cv s.pc

/-- 調べた二つの変数がどちらも 0 でなければ、その二つの条件変数でまだ眠っている thread がいる。 -/
def Paired (role : T → Role) (s : Whale T) (t : T) : Prop :=
  s.pc t = .arrived → s.othersPresent (role t).code = true →
    s.cv (role t).code.tests.1 ≠ [] ∧ s.cv (role t).code.tests.2 ≠ []

instance [DecidableEq T] : Decidable (Paired role s t) := inferInstanceAs (Decidable (_ → _ → _))

theorem Paired.signals (hpaired : Paired role s t) (hpc : s.pc t = .arrived)
    (hpresent : s.othersPresent (role t).code = true) :
    s.cv (role t).code.signals.1 ≠ [] ∧ s.cv (role t).code.signals.2 ≠ [] := by
  obtain ⟨h₁, h₂⟩ := hpaired hpc hpresent
  rcases (role t).signals_tests with heq | heq <;> rw [heq]
  exacts [⟨h₁, h₂⟩, ⟨h₂, h₁⟩]

section Weigh

variable [Fintype T]

/-- すべての thread の重みの和。 -/
def weigh (w : Role × WhalePc → Int) (role : T → Role) (pc : T → WhalePc) : Int :=
  total w fun t => (role t, pc t)

/-- 変数は、数えられている thread の数である。 -/
def Counts (role : T → Role) (s : Whale T) : Prop := ∀ r, s.noOf r = weigh (counted r) role s.pc

theorem Counts.cv_eq_nil (h : Counts role s) (hplaced : Placed role s) {r : Role} (hzero : s.noOf r = 0) :
    s.cv r = [] := by
  rw [eq_nil_iff_forall_not_mem]
  intro u hu
  obtain ⟨hasleep, hrole⟩ := (hplaced.sleeping.mem r u).mp hu
  have hnonneg : ∀ v, 0 ≤ counted r (role v, s.pc v) := by
    intro v
    cases s.pc v <;> simp only [counted] <;> first | exact Int.le_refl 0 | (split <;> decide)
  have hle := sum_le_total hnonneg {u}
  have hcount := h r
  simp only [Finset.sum_singleton, hasleep, hrole, counted, if_true] at hle
  rw [hzero, weigh] at hcount
  omega

structure Inv (role : T → Role) (s : Whale T) : Prop where
  placed : Placed role s
  counts : Counts role s
  balanced : ∀ r r', weigh (share r) role s.pc = weigh (share r') role s.pc
  ready : ∀ t, Ready s.cv (role t, s.pc t)
  lacks : ∃ r, s.cv r = []

theorem Inv.exists_absent (h : Inv role s) {r : Role} (habsent : s.othersPresent r.code = false) :
    ∃ r', r' ≠ r ∧ s.cv r' = [] := by
  obtain ⟨-, h₁, h₂⟩ := r.tests_ne
  simp only [othersPresent, Bool.and_eq_false_iff, decide_eq_false_iff_not, ne_eq, not_not] at habsent
  rcases habsent with hzero | hzero
  · exact ⟨_, h₁, h.counts.cv_eq_nil h.placed hzero⟩
  · exact ⟨_, h₂, h.counts.cv_eq_nil h.placed hzero⟩

theorem inv_init (role : T → Role) : Inv role (init : Whale T) where
  placed := ⟨fun _ => by simp [init, inside], fun _ _ => by simp [init], fun _ => nodup_nil⟩
  counts r := (total_eq_zero fun _ => rfl).symm
  balanced r r' := (total_eq_zero fun _ => rfl).trans (total_eq_zero fun _ => rfl).symm
  ready _ := trivial
  lacks := ⟨.male, rfl⟩

theorem weigh_update [DecidableEq T] (w : Role × WhalePc → Int) (role : T → Role) (pc : T → WhalePc) (t : T)
    (p : WhalePc) : weigh w role (update pc t p) + w (role t, pc t) =
      weigh w role pc + w (role t, p) := by
  have hview : (fun v => (role v, update pc t p v)) =
      update (fun v => (role v, pc v)) t (role t, p) := by
    funext v
    by_cases hv : v = t
    · subst hv
      simp
    · simp [update_of_ne hv]
  rw [weigh, weigh, hview]
  exact total_update w _ t _

end Weigh

variable [DecidableEq T]

section Move

variable {role : T → Role} {owner : Option T} {cv : Role → List T} {pc : T → WhalePc} {t : T} {p : WhalePc}

theorem Owned.keep (h : Owned owner pc) (hp : inside p = inside (pc t)) :
    Owned owner (update pc t p) := by
  intro u
  by_cases hu : u = t
  · subst hu
    rw [update_self, hp]
    exact h u
  · rw [update_of_ne hu]
    exact h u

theorem Owned.acquire (h : Owned none pc) (hp : inside p = true) :
    Owned (some t) (update pc t p) := by
  intro u
  by_cases hu : u = t
  · subst hu
    simp [hp]
  · simpa [update_of_ne hu, Ne.symm hu] using h u

theorem Owned.release (h : Owned owner pc) (ht : inside (pc t) = true) (hp : inside p = false) :
    Owned none (update pc t p) := by
  intro u
  by_cases hu : u = t
  · subst hu
    simp [hp]
  · have hother : owner ≠ some u := by
      rw [(h t).mpr ht]
      exact fun heq => hu (some.inj heq).symm
    simpa [update_of_ne hu, hother] using h u

theorem Sleeping.keep (h : Sleeping role cv pc) (ht : pc t ≠ .asleep) (hp : p ≠ .asleep) :
    Sleeping role cv (update pc t p) :=
  ⟨fun r u => by rw [update_eq_iff ht hp u]; exact h.mem r u, h.nodup⟩

theorem Sleeping.wait (h : Sleeping role cv pc) (ht : pc t ≠ .asleep) :
    Sleeping role (update cv (role t) (cv (role t) ++ [t])) (update pc t .asleep) := by
  have hnot : t ∉ cv (role t) := fun hmem => ht ((h.mem _ _).mp hmem).1
  refine ⟨fun r u => ?_, fun r => ?_⟩ <;> by_cases hr : r = role t
  · subst hr
    rw [update_self, update_eq_iff_or, mem_append, mem_singleton, h.mem]
    constructor
    · rintro (⟨hasleep, hrole⟩ | rfl)
      exacts [⟨.inl hasleep, hrole⟩, ⟨.inr rfl, rfl⟩]
    · rintro ⟨hasleep | rfl, hrole⟩
      exacts [.inl ⟨hasleep, hrole⟩, .inr rfl]
  · rw [update_of_ne hr, update_eq_iff_or, h.mem]
    constructor
    · exact fun ⟨hasleep, hrole⟩ => ⟨.inl hasleep, hrole⟩
    · rintro ⟨hasleep | rfl, hrole⟩
      exacts [⟨hasleep, hrole⟩, absurd hrole.symm hr]
  · subst hr
    rw [update_self, ← concat_eq_append]
    exact (h.nodup _).concat hnot
  · rw [update_of_ne hr]
    exact h.nodup r

theorem Sleeping.signal (h : Sleeping role cv pc) {r : Role} {u : T} {rest : List T}
    (hcv : cv r = u :: rest) :
    Sleeping role (update cv r rest) (update pc u .woken) := by
  obtain ⟨-, hrole⟩ := (h.mem r u).mp (by simp [hcv])
  have hnodup := h.nodup r
  rw [hcv, nodup_cons] at hnodup
  refine ⟨fun r' v => ?_, fun r' => ?_⟩ <;> by_cases hr : r' = r
  · subst hr
    have hmem := h.mem r' v
    rw [hcv, mem_cons] at hmem
    rw [update_self, update_eq_iff_and (by decide)]
    constructor
    · intro hv
      obtain ⟨hasleep, hrole'⟩ := hmem.mp (.inr hv)
      exact ⟨⟨hasleep, fun heq => hnodup.1 (heq ▸ hv)⟩, hrole'⟩
    · rintro ⟨⟨hasleep, hne⟩, hrole'⟩
      exact (hmem.mpr ⟨hasleep, hrole'⟩).resolve_left hne
  · rw [update_of_ne hr, update_eq_iff_and (by decide), h.mem]
    constructor
    · exact fun ⟨hasleep, hrole'⟩ => ⟨⟨hasleep, fun heq => hr (by rw [← hrole', heq, hrole])⟩, hrole'⟩
    · exact fun ⟨⟨hasleep, _⟩, hrole'⟩ => ⟨hasleep, hrole'⟩
  · subst hr
    rw [update_self]
    exact hnodup.2
  · rw [update_of_ne hr]
    exact h.nodup r'

end Move

def WhaleStep (role : T → Role) (s : Whale T) (t : T) (s' : Whale T) : Prop := s.advance role t = some s'

/-! ## step の場合分け -/

inductive Step (role : T → Role) (s : Whale T) (t : T) : Whale T → Prop
  | enter : s.pc t = .start → s.owner = none → Step role s t ({ s with owner := some t }.setPc t .arrived)
  | present : s.pc t = .arrived → s.othersPresent (role t).code = true →
      Step role s t ((s.addTo (role t) 1).setPc t .signalFirst)
  | absent : s.pc t = .arrived → s.othersPresent (role t).code = false →
      Step role s t ((s.addTo (role t) 1).setPc t .waiting)
  | first : s.pc t = .signalFirst →
      Step role s t ((s.cvSignal (role t).code.signals.1).setPc t .signalSecond)
  | second : s.pc t = .signalSecond → Step role s t ((s.cvSignal (role t).code.signals.2).setPc t .ending)
  | wait : s.pc t = .waiting → Step role s t (s.cvWait t (role t))
  | wake : s.pc t = .woken → s.owner = none → Step role s t ({ s with owner := some t }.setPc t .ending)
  | finish : s.pc t = .ending → Step role s t ((s.addTo (role t) (-1)).setPc t .releasing)
  | release : s.pc t = .releasing → Step role s t ({ s with owner := none }.setPc t .leaving)
  | leave : s.pc t = .leaving → Step role s t ({ s with menu := s.menu + 1 }.setPc t .done)

theorem step_cases (h : WhaleStep role s t s') : Step role s t s' := by
  unfold WhaleStep advance at h
  obtain ⟨hown, -, -⟩ := (role t).tests_ne
  simp only [hown, othersPresent_addTo] at h
  cases hpc : s.pc t with
  | start =>
    simp only [hpc, ite_none_right_eq_some, some.injEq] at h
    exact h.2 ▸ .enter hpc h.1
  | arrived =>
    simp only [hpc, some.injEq] at h
    subst h
    cases htest : s.othersPresent (role t).code with
    | true => exact .present hpc htest
    | false => exact .absent hpc htest
  | signalFirst =>
    simp only [hpc, some.injEq] at h
    exact h ▸ .first hpc
  | signalSecond =>
    simp only [hpc, some.injEq] at h
    exact h ▸ .second hpc
  | waiting =>
    simp only [hpc, some.injEq] at h
    exact h ▸ .wait hpc
  | woken =>
    simp only [hpc, ite_none_right_eq_some, some.injEq] at h
    exact h.2 ▸ .wake hpc h.1
  | ending =>
    simp only [hpc, some.injEq] at h
    exact h ▸ .finish hpc
  | releasing =>
    simp only [hpc, some.injEq] at h
    exact h ▸ .release hpc
  | leaving =>
    simp only [hpc, some.injEq] at h
    exact h ▸ .leave hpc
  | asleep | done => simp [hpc] at h

theorem cvSignal_cases (s : Whale T) (r : Role) : (s.cv r = [] ∧ s.cvSignal r = s) ∨
    ∃ u rest, s.cv r = u :: rest ∧
      s.cvSignal r = { s with cv := update s.cv r rest }.setPc u .woken := by
  cases hcv : s.cv r with
  | nil => exact .inl ⟨rfl, by simp [cvSignal, hcv]⟩
  | cons u rest => exact .inr ⟨u, rest, rfl, by simp [cvSignal, hcv]⟩

theorem cvSignal_noOf (s : Whale T) (r : Role) : (s.cvSignal r).noOf = s.noOf := by
  rcases s.cvSignal_cases r with ⟨-, heq⟩ | ⟨u, rest, -, heq⟩ <;> rw [heq]
  rfl

theorem cvSignal_cv (s : Whale T) (r r' : Role) : (r' ≠ r → (s.cvSignal r).cv r' = s.cv r') ∧
    (s.cv r' = [] → (s.cvSignal r).cv r' = []) := by
  rcases s.cvSignal_cases r with ⟨-, heq⟩ | ⟨u, rest, hcv, heq⟩ <;> rw [heq]
  · exact ⟨fun _ => rfl, id⟩
  · refine ⟨fun hne => by simp [setPc, update_of_ne hne], fun hnil => ?_⟩
    have hne : r' ≠ r := by
      rintro rfl
      simp [hnil] at hcv
    simpa [setPc, update_of_ne hne] using hnil

/-! ## lock と条件変数の step -/

theorem Placed.cvSignal (h : Placed role s) (r : Role) : Placed role (s.cvSignal r) := by
  rcases s.cvSignal_cases r with ⟨-, heq⟩ | ⟨u, rest, hcv, heq⟩
  · rwa [heq]
  · rw [heq]
    obtain ⟨hasleep, -⟩ := (h.sleeping.mem r u).mp (by simp [hcv])
    exact ⟨h.owned.keep (by simp [hasleep, inside]), h.sleeping.signal hcv⟩

theorem cvSignal_pc (h : Placed role s) (ht : s.pc t ≠ .asleep) (r : Role) :
    (s.cvSignal r).pc t = s.pc t := by
  rcases s.cvSignal_cases r with ⟨-, heq⟩ | ⟨u, rest, hcv, heq⟩
  · rw [heq]
  · rw [heq]
    obtain ⟨hasleep, -⟩ := (h.sleeping.mem r u).mp (by simp [hcv])
    have hne : t ≠ u := fun htu => ht (htu ▸ hasleep)
    simp [setPc, update_of_ne hne]

theorem Placed.step (h : Placed role s) (hstep : Step role s t s') : Placed role s' := by
  cases hstep with
  | enter hpc hfree | wake hpc hfree =>
    exact ⟨Owned.acquire (hfree ▸ h.owned) rfl, h.sleeping.keep (by simp [hpc]) (by decide)⟩
  | present hpc _ | absent hpc _ | finish hpc | leave hpc =>
    exact ⟨h.owned.keep (by simp [hpc, inside]), h.sleeping.keep (by simp [hpc]) (by decide)⟩
  | first hpc | second hpc =>
    have hp := cvSignal_pc h (t := t) (by simp [hpc])
    exact ⟨(h.cvSignal _).owned.keep (by simp [hp, hpc, inside]),
      (h.cvSignal _).sleeping.keep (by simp [hp, hpc]) (by decide)⟩
  | wait hpc => exact ⟨h.owned.release (by simp [hpc, inside]) rfl, h.sleeping.wait (by simp [hpc])⟩
  | release hpc =>
    exact ⟨h.owned.release (by simp [hpc, inside]) rfl, h.sleeping.keep (by simp [hpc]) (by decide)⟩

theorem Step.pc_other (hstep : Step role s t s') {v : T} (hv : v ≠ t) :
    s'.pc v = s.pc v ∨ s'.pc v = .woken := by
  have hsignal : ∀ r, (s.cvSignal r).pc v = s.pc v ∨ (s.cvSignal r).pc v = .woken := by
    intro r
    rcases s.cvSignal_cases r with ⟨-, heq⟩ | ⟨u, rest, -, heq⟩
    · exact .inl (by rw [heq])
    · rw [heq]
      by_cases hu : v = u
      · subst hu
        exact .inr (by simp [setPc])
      · exact .inl (by simp [setPc, update_of_ne hu])
  cases hstep with
  | first | second => simpa [setPc, update_of_ne hv] using hsignal _
  | enter | present | absent | wait | wake | finish | release | leave =>
    exact .inl (by simp [setPc, cvWait, addTo, update_of_ne hv])

theorem Step.cv_other (h : Placed role s) (hstep : Step role s t s') {v : T} (hv : v ≠ t)
    (hin : inside (s.pc v) = true) : s'.cv = s.cv := by
  have howner := (h.owned v).mpr hin
  have hout : inside (s.pc t) = false := by
    rw [Bool.eq_false_iff]
    intro ht
    exact hv (some.inj (howner.symm.trans ((h.owned t).mpr ht)))
  cases hstep with
  | enter _ hfree | wake _ hfree => simp [hfree] at howner
  | present hpc _ | absent hpc _ | finish hpc | first hpc | second hpc | wait hpc | release hpc =>
    simp [hpc, inside] at hout
  | leave => rfl

/-! ## 変数の数 -/

variable [Fintype T]

theorem weigh_setPc (w : Role × WhalePc → Int) (s : Whale T) (t : T) (p : WhalePc) :
    weigh w role (s.setPc t p).pc = weigh w role s.pc + w (role t, p) - w (role t, s.pc t) := by
  have hupdate := weigh_update w role s.pc t p
  show weigh w role (update s.pc t p) = _
  omega

theorem weigh_cvSignal (h : Placed role s) {r : Role} (hne : s.cv r ≠ []) (w : Role × WhalePc → Int) :
    weigh w role (s.cvSignal r).pc + w (r, .asleep) = weigh w role s.pc + w (r, .woken) := by
  rcases s.cvSignal_cases r with ⟨hnil, -⟩ | ⟨u, rest, hcv, heq⟩
  · exact absurd hnil hne
  · obtain ⟨hasleep, hrole⟩ := (h.sleeping.mem r u).mp (by simp [hcv])
    have hupdate := weigh_update w role s.pc u .woken
    rw [hasleep, hrole] at hupdate
    rw [heq]
    exact hupdate

theorem counts_cvSignal (h : Placed role s) (r r' : Role) :
    weigh (counted r) role (s.cvSignal r').pc = weigh (counted r) role s.pc := by
  by_cases hnil : s.cv r' = []
  · simp [cvSignal, hnil]
  · have hweigh := weigh_cvSignal h hnil (counted r)
    simpa [counted] using hweigh

theorem Counts.step (h : Counts role s) (hplaced : Placed role s) (hstep : Step role s t s') :
    Counts role s' := by
  intro r
  have hr := h r
  cases hstep with
  | enter hpc _ | wake hpc _ | release hpc | leave hpc =>
    show s.noOf r = _
    simpa [weigh_setPc, hpc, counted] using hr
  | present hpc _ | absent hpc _ | finish hpc =>
    rw [weigh_setPc]
    show update s.noOf (role t) _ r = weigh (counted r) role s.pc + _ - counted r (role t, s.pc t)
    by_cases hrole : r = role t
    · subst hrole
      simp [hpc, counted, hr]
      try omega
    · simpa [hpc, counted, hrole] using hr
  | first hpc | second hpc =>
    rw [weigh_setPc, counts_cvSignal hplaced, cvSignal_pc hplaced (by simp [hpc]), hpc]
    simpa [setPc, cvSignal_noOf, counted] using hr
  | wait hpc =>
    show s.noOf r = weigh (counted r) role (({ s with owner := none, cv := _ } : Whale T).setPc t
      .asleep).pc
    simpa [weigh_setPc, hpc, counted] using hr

/-! ## 組の釣り合い -/

theorem Inv.share_step (h : Inv role s) (hstep : Step role s t s') (r : Role) :
    weigh (share r) role s'.pc = weigh (share r) role s.pc + if s'.pc t = .signalFirst then 1 else 0 := by
  have hready := h.ready t
  cases hstep with
  | enter hpc _ | wake hpc _ | release hpc | leave hpc | present hpc _ | absent hpc _ | finish hpc =>
    rw [weigh_setPc]
    simp [addTo, setPc, hpc, share]
  | first hpc =>
    rw [hpc] at hready
    have hweigh := weigh_cvSignal h.placed hready.1 (share r)
    rw [weigh_setPc, cvSignal_pc h.placed (by simp [hpc]), hpc]
    simp only [share, setPc, update_self] at hweigh ⊢
    split at hweigh <;> simp_all
  | second hpc =>
    rw [hpc] at hready
    have hweigh := weigh_cvSignal h.placed hready (share r)
    rw [weigh_setPc, cvSignal_pc h.placed (by simp [hpc]), hpc, share_second]
    simp only [share, setPc, update_self] at hweigh ⊢
    simp
    omega
  | wait hpc =>
    show weigh (share r) role (({ s with owner := none, cv := _ } : Whale T).setPc t .asleep).pc = _
    rw [weigh_setPc]
    simp [cvWait, setPc, hpc, share]

theorem Inv.ready_step (h : Inv role s) (hpaired : Paired role s t) (hstep : Step role s t s') (v : T) :
    Ready s'.cv (role v, s'.pc v) := by
  by_cases hv : v = t
  · subst hv
    have hready := h.ready v
    cases hstep with
    | present hpc hpresent => simpa [setPc, addTo, Ready] using hpaired.signals hpc hpresent
    | absent hpc habsent => simpa [setPc, addTo, Ready] using h.exists_absent habsent
    | first hpc =>
      rw [hpc] at hready
      have hne := (role v).signals_ne
      simpa [setPc, Ready, (cvSignal_cv s _ _).1 hne] using hready.2
    | enter | second | wait | wake | finish | release | leave => simp [setPc, cvWait, Ready]
  · rcases hstep.pc_other hv with heq | heq <;> rw [heq]
    · cases hin : inside (s.pc v) with
      | true =>
        rw [hstep.cv_other h.placed hv hin]
        exact h.ready v
      | false => exact ready_of_outside hin
    · trivial

theorem Inv.lacks_step (h : Inv role s) (hstep : Step role s t s') : ∃ r, s'.cv r = [] := by
  obtain ⟨r, hr⟩ := h.lacks
  cases hstep with
  | enter | present | absent | wake | finish | release | leave => exact ⟨r, hr⟩
  | first | second => exact ⟨r, (cvSignal_cv s _ r).2 hr⟩
  | wait hpc =>
    -- 眠りに行く鯨は、欠けている種類があることを確かめている。
    have hready := h.ready t
    rw [hpc] at hready
    obtain ⟨r', hne, hnil⟩ := hready
    exact ⟨r', by simpa [cvWait, setPc, update_of_ne hne] using hnil⟩

theorem Inv.step (h : Inv role s) (hpaired : Paired role s t) (hstep : WhaleStep role s t s') :
    Inv role s' := by
  have hstep := step_cases hstep
  refine ⟨h.placed.step hstep, h.counts.step h.placed hstep, fun r r' => ?_, h.ready_step hpaired hstep,
    h.lacks_step hstep⟩
  rw [h.share_step hstep r, h.share_step hstep r', h.balanced r r']

/-! ## 動ける thread が無いとき -/

def population (role : T → Role) (r : Role) : Nat := (Finset.univ.filter fun t => role t = r).card

/-- 種類 `r` の終わった thread の数。 -/
def finished (role : T → Role) (s : Whale T) (r : Role) : Nat :=
  (Finset.univ.filter fun t => role t = r ∧ s.pc t = .done).card

theorem Inv.asleep_or_done (h : Inv role s) (hstuck : ∀ t, s.advance role t = none) (t : T) :
    s.pc t = .asleep ∨ s.pc t = .done := by
  have hfree : s.owner = none := by
    by_contra howner
    obtain ⟨u, hu⟩ := ne_none_iff_exists'.mp howner
    have hin := (h.placed.owned u).mp hu
    have hu := hstuck u
    cases hpc : s.pc u <;> simp [hpc, inside, advance] at hin hu
  have ht := hstuck t
  cases hpc : s.pc t <;> simp [hpc, advance, hfree] at ht <;> simp

theorem Inv.finished_eq (h : Inv role s) (hstuck : ∀ t, s.advance role t = none) (r : Role) :
    (s.finished role r : Int) = weigh (share r) role s.pc := by
  rw [finished, Finset.card_filter, Nat.cast_sum, weigh, total]
  refine Finset.sum_congr rfl fun t _ => ?_
  rcases h.asleep_or_done hstuck t with hpc | hpc
  · simp [hpc, share]
  · simp [hpc, share, eq_comm]

/--
**調べた変数が 0 でない種類にはまだ眠っている鯨がいる、という条件を守る列では、動ける thread が無くなった
とき、終わった数は三種類で等しく、一番少ない種類の頭数である。**
-/
theorem mates_equal (role : T → Role) {tr : List (Transition (Whale T) T)} {s : Whale T}
    (hrun : Run (WhaleStep role) init tr s) (hpaired : ∀ x ∈ tr, Paired role x.pre x.label)
    (hstuck : ∀ t, s.advance role t = none) (r : Role) :
    s.finished role r =
      min (population role .male) (min (population role .female) (population role .matchmaker)) := by
  have hinv : Inv role s :=
    (hrun.invariant (fun hp hc hq => hp.step hc hq) hpaired (inv_init role)).1
  have hle : ∀ r, s.finished role r ≤ population role r := fun r =>
    Finset.card_le_card fun t ht => by simp_all
  have heq : ∀ r r', s.finished role r = s.finished role r' := by
    intro r r'
    have := hinv.balanced r r'
    rw [← hinv.finished_eq hstuck r, ← hinv.finished_eq hstuck r'] at this
    exact_mod_cast this
  -- 誰も眠っていない種類は、全員が終わっている。
  obtain ⟨r₀, hnil⟩ := hinv.lacks
  have hall : s.finished role r₀ = population role r₀ := by
    refine congrArg Finset.card (Finset.filter_congr fun t _ => and_iff_left_of_imp fun hrole => ?_)
    refine (hinv.asleep_or_done hstuck t).resolve_left fun hasleep => ?_
    have := (hinv.placed.sleeping.mem r₀ t).mpr ⟨hasleep, hrole⟩
    simp [hnil] at this
  have hmale := hle .male
  have hfemale := hle .female
  have hmatchmaker := hle .matchmaker
  rw [heq _ r₀] at hmale hfemale hmatchmaker ⊢
  cases r₀ <;> omega

/-- 雄が二頭、ほかが一頭ずつの群れ。 -/
def twoMales : Fin 4 → Role
  | 0 | 1 => .male
  | 2 => .female
  | 3 => .matchmaker

/-- 二頭目の雄が、組の済んだ後に来て眠ったままになる列。 -/
theorem mates_equal_second_asleep :
    ∃ (tr : List (Transition (Whale (Fin 4)) (Fin 4))) (s : Whale (Fin 4)),
      Run (WhaleStep twoMales) init tr s ∧ (∀ x ∈ tr, Paired twoMales x.pre x.label) ∧
      (∀ t, s.advance twoMales t = none) ∧ s.pc 1 = .asleep ∧ s.finished twoMales .male =
        min (population twoMales .male) (min (population twoMales .female)
          (population twoMales .matchmaker)) := by
  obtain ⟨s, hs⟩ : ∃ s, [2, 2, 2, 3, 3, 3, 0, 0, 0, 0, 0, 0, 0, 2, 2, 2, 2, 3, 3, 3, 3, 1, 1, 1].foldlM
      (advance twoMales) init = some s := ⟨_, rfl⟩
  have hrun := (Run.of_foldlM hs).1
  have hpaired : ∀ x ∈ Run.trace (advance twoMales) init
      [2, 2, 2, 3, 3, 3, 0, 0, 0, 0, 0, 0, 0, 2, 2, 2, 2, 3, 3, 3, 3, 1, 1, 1],
      Paired twoMales x.pre x.label := by decide
  have hstuck : ∀ t, s.pc t = .asleep ∨ s.pc t = .done := by
    cases hs
    decide
  have hnone : ∀ t, s.advance twoMales t = none := by
    intro t
    rcases hstuck t with hpc | hpc <;> simp [advance, hpc]
  refine ⟨_, s, hrun, hpaired, hnone, ?_, mates_equal twoMales hrun hpaired hnone .male⟩
  cases hs
  rfl

/--
一頭目の雄に起こされた雌と仲人が lock を取り直す前に二頭目の雄が来ると、雌も仲人もまだ数えられているので、
二頭目は相手のいないまま終わる。
-/
theorem unmatched_male :
    ∃ (tr : List (Transition (Whale (Fin 4)) (Fin 4))) (s : Whale (Fin 4)),
      Run (WhaleStep twoMales) init tr s ∧ (∀ t, s.advance twoMales t = none) ∧
      s.finished twoMales .male = 2 ∧ s.finished twoMales .female = 1 ∧
        s.finished twoMales .matchmaker = 1 ∧
      min (population twoMales .male) (min (population twoMales .female)
        (population twoMales .matchmaker)) = 1 := by
  obtain ⟨s, hs⟩ : ∃ s, [2, 2, 2, 3, 3, 3, 0, 0, 0, 0, 0, 0, 0, 1, 1, 1, 1, 1, 1, 1, 2, 2, 2, 2, 3,
    3, 3, 3].foldlM
      (advance twoMales) init = some s := ⟨_, rfl⟩
  have hdone : ∀ t, s.pc t = .done := by
    cases hs
    decide
  refine ⟨_, s, (Run.of_foldlM hs).1, fun t => by simp [advance, hdone t], ?_⟩
  simp only [finished, hdone, and_true]
  decide

end Whale

end Os161
