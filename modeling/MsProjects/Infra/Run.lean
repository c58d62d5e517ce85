import Mathlib.Data.List.Basic

/-!
# 遷移の列

状態 `σ` とラベル `α` の上の step 関係を繋いだ列を扱う。
-/

namespace Infra

open List Function

/-- 一回の遷移。 -/
structure Transition (σ α : Type*) where
  pre : σ
  label : α
  post : σ

/-- `Step` を繋いだ列。 -/
inductive Run {σ α : Type*} (Step : σ → α → σ → Prop) :
    σ → List (Transition σ α) → σ → Prop where
  | nil (s : σ) : Run Step s [] s
  | cons {s t u : σ} {a : α} {tr : List (Transition σ α)} :
      Step s a t → Run Step t tr u → Run Step s (⟨s, a, t⟩ :: tr) u

namespace Run

variable {σ α : Type*} {Step : σ → α → σ → Prop} {s u : σ} {tr : List (Transition σ α)}

theorem step_of_mem (h : Run Step s tr u) : ∀ x ∈ tr, Step x.pre x.label x.post := by
  induction h with
  | nil => intro x hx; simp at hx
  | cons hstep _ ih =>
    intro x hx
    rcases mem_cons.mp hx with rfl | hx
    · exact hstep
    · exact ih x hx

theorem append {t : σ} {tr' : List (Transition σ α)} (h : Run Step s tr t) (h' : Run Step t tr' u) :
    Run Step s (tr ++ tr') u := by
  induction h with
  | nil => exact h'
  | cons hstep _ ih => exact .cons hstep (ih h')

theorem split {tr' : List (Transition σ α)} {x : Transition σ α} (h : Run Step s (tr ++ x :: tr') u) :
    Run Step s tr x.pre ∧ Step x.pre x.label x.post ∧ Run Step x.post tr' u := by
  induction tr generalizing s with
  | nil =>
    cases h with
    | cons hstep hrest => exact ⟨.nil _, hstep, hrest⟩
  | cons y tr ih =>
    cases h with
    | cons hstep hrest =>
      obtain ⟨hpre, hx, hpost⟩ := ih hrest
      exact ⟨.cons hstep hpre, hx, hpost⟩

theorem invariant {I : σ → Prop} {C : σ → α → Prop}
    (hkeep : ∀ {p a q}, I p → C p a → Step p a q → I q)
    (h : Run Step s tr u) (hc : ∀ x ∈ tr, C x.pre x.label) (hs : I s) :
    I u ∧ ∀ x ∈ tr, I x.pre ∧ I x.post := by
  induction h with
  | nil => exact ⟨hs, by simp⟩
  | cons hstep _ ih =>
    have ht := hkeep hs (hc _ mem_cons_self) hstep
    obtain ⟨hu, hall⟩ := ih (fun x hx => hc x (mem_cons_of_mem _ hx)) ht
    refine ⟨hu, ?_⟩
    intro x hx
    rcases mem_cons.mp hx with rfl | hx
    · exact ⟨hs, ht⟩
    · exact hall x hx

theorem invariant' {I : σ → Prop} (hkeep : ∀ {p a q}, I p → Step p a q → I q)
    (h : Run Step s tr u) (hs : I s) : I u ∧ ∀ x ∈ tr, I x.pre ∧ I x.post :=
  h.invariant (C := fun _ _ => True) (fun hp _ hq => hkeep hp hq) (fun _ _ => trivial) hs

theorem forall_iff {I : σ → Prop} {C : σ → α → Prop} {G : σ → α → σ → Prop}
    (hgood : ∀ {p a q}, I p → Step p a q → C p a → I q ∧ G p a q)
    (hbad : ∀ {p a q}, I p → Step p a q → ¬ C p a → ¬ G p a q)
    (h : Run Step s tr u) (hs : I s) :
    (∀ x ∈ tr, G x.pre x.label x.post) ↔ ∀ x ∈ tr, C x.pre x.label := by
  induction h with
  | nil => simp
  | @cons s t u a tr hstep _ ih =>
    by_cases hc : C s a
    · obtain ⟨ht, hg⟩ := hgood hs hstep hc
      have := ih ht
      simp [hc, hg, this]
    · have hg := hbad hs hstep hc
      simp [hc, hg]

theorem backward {I Q : σ → Prop} (hkeep : ∀ {p a q}, I p → Step p a q → I q)
    (hback : ∀ {p a q}, I p → Step p a q → Q q → Q p)
    (h : Run Step s tr u) (hs : I s) (hu : Q u) : Q s ∧ ∀ x ∈ tr, Q x.post := by
  induction h with
  | nil => exact ⟨hu, by simp⟩
  | cons hstep _ ih =>
    obtain ⟨ht, hall⟩ := ih (hkeep hs hstep) hu
    refine ⟨hback hs hstep ht, ?_⟩
    intro x hx
    rcases mem_cons.mp hx with rfl | hx
    · exact ht
    · exact hall x hx

/-- step のたびに減る数は、列の長さを抑える。 -/
theorem length_add_le {R : Nat → σ → Prop} {n : Nat}
    (hdec : ∀ {n p a q}, R n p → Step p a q → ∃ m < n, R m q) (h : Run Step s tr u) (hs : R n s) :
    ∃ m, tr.length + m ≤ n ∧ R m u := by
  induction h generalizing n with
  | nil => exact ⟨n, by simp, hs⟩
  | cons hstep _ ih =>
    obtain ⟨m, hlt, hm⟩ := hdec hs hstep
    obtain ⟨m', hle, hm'⟩ := ih hm
    exact ⟨m', by rw [length_cons]; omega, hm'⟩

/-- 見える遷移だけを残すと、`f` で写した先の列になる。 -/
theorem simulates {τ β : Type*} {Step' : τ → β → τ → Prop} {I : σ → Prop} {f : σ → τ}
    {visible : Transition σ α → Option β} (hkeep : ∀ {p a q}, I p → Step p a q → I q)
    (hsim : ∀ {p a q}, I p → Step p a q → (visible ⟨p, a, q⟩).elim (f q = f p) (Step' (f p) · (f q)))
    (h : Run Step s tr u) (hs : I s) :
    ∃ tr', Run Step' (f s) tr' (f u) ∧ tr'.map (fun x => x.label) = tr.filterMap visible := by
  induction h with
  | nil s => exact ⟨[], .nil (f s), rfl⟩
  | @cons p q _ a _ hstep _ ih =>
    obtain ⟨tr', hrun, hlabels⟩ := ih (hkeep hs hstep)
    have hshow := hsim hs hstep
    cases hv : visible ⟨p, a, q⟩ with
    | none =>
      rw [hv] at hshow
      exact ⟨tr', hshow ▸ hrun, by rw [hlabels, filterMap_cons_none hv]⟩
    | some b =>
      rw [hv] at hshow
      exact ⟨_, .cons hshow hrun, by rw [map_cons, hlabels, filterMap_cons_some hv]⟩

/-- 各 step が、`f` で写した先でも step であるか何も変えないなら、写した先でも列になる。 -/
theorem image {τ β : Type*} {Step' : τ → β → τ → Prop} {I : σ → Prop} {f : σ → τ}
    (hsim : ∀ {p a q}, I p → Step p a q → I q ∧ (f q = f p ∨ ∃ b, Step' (f p) b (f q)))
    (h : Run Step s tr u) (hs : I s) : I u ∧ ∃ tr', Run Step' (f s) tr' (f u) := by
  induction h with
  | nil s => exact ⟨hs, [], .nil (f s)⟩
  | cons hstep _ ih =>
    obtain ⟨hkeep, hshow⟩ := hsim hs hstep
    obtain ⟨hu, tr', hrun⟩ := ih hkeep
    rcases hshow with hsame | ⟨b, hb⟩
    · exact ⟨hu, tr', hsame ▸ hrun⟩
    · exact ⟨hu, _, .cons hb hrun⟩

/-- 関数で与えた step をラベルの列に沿って進めたときに通る遷移。 -/
def trace (f : σ → α → Option σ) (s : σ) : List α → List (Transition σ α)
  | [] => []
  | a :: labels =>
    match f s a with
    | none => []
    | some t => ⟨s, a, t⟩ :: trace f t labels

theorem of_foldlM {f : σ → α → Option σ} {labels : List α} (h : labels.foldlM f s = some u) :
    Run (fun p a q => f p a = some q) s (trace f s labels) u ∧
      (trace f s labels).map (fun x => x.label) = labels := by
  induction labels generalizing s with
  | nil =>
    obtain rfl : s = u := by simpa using h
    exact ⟨.nil s, rfl⟩
  | cons a labels ih =>
    rw [foldlM_cons] at h
    obtain ⟨t, ht, h⟩ := Option.bind_eq_some_iff.mp h
    obtain ⟨hrun, hlabels⟩ := ih h
    simp only [trace, ht, map_cons, hlabels, and_true]
    exact .cons ht hrun

theorem mono {Step' : σ → α → σ → Prop} (hstep : ∀ {p a q}, Step p a q → Step' p a q)
    (h : Run Step s tr u) :
    Run Step' s tr u := by
  induction h with
  | nil s => exact .nil s
  | cons h _ ih => exact .cons (hstep h) ih

/-- 計算で得た始まりと終わりが `P` を満たす列。 -/
theorem exists_of_any (f : σ → α → Option σ) (start : Option σ) (labels : List α) (P : σ → σ → Bool)
    (h : (start.any fun s => (labels.foldlM f s).any (P s)) = true) :
    ∃ s u, start = some s ∧ Run (fun p a q => f p a = some q) s (trace f s labels) u ∧
      (trace f s labels).map (fun x => x.label) = labels ∧ P s u = true := by
  obtain ⟨s, hs, h⟩ := (Option.any_eq_true _ _).mp h
  obtain ⟨u, hu, hP⟩ := (Option.any_eq_true _ _).mp h
  obtain ⟨hrun, hlabels⟩ := of_foldlM hu
  exact ⟨s, u, hs, hrun, hlabels, hP⟩

theorem forall_label {labels : List α} {P : α → Prop} (h : tr.map (fun x => x.label) = labels)
    (hl : ∀ a ∈ labels, P a) : ∀ x ∈ tr, P x.label :=
  fun _ hx => hl _ (h ▸ mem_map_of_mem hx)

end Run

/-! ## 必ず着く状態 -/

/-- `A` の step を続ける限り、`P` のまま止まらずに進み、`n` 回の後に `Q` で終わる。 -/
inductive Until {σ α : Type*} (Step : σ → α → σ → Prop) (A : α → Prop) (P Q : σ → Prop) :
    Nat → σ → Prop where
  | done {s : σ} : Q s → (∀ a t, A a → ¬ Step s a t) → Until Step A P Q 0 s
  | next {n : Nat} {s : σ} : P s → (∃ a t, A a ∧ Step s a t) →
      (∀ a t, A a → Step s a t → Until Step A P Q n t) → Until Step A P Q (n + 1) s

namespace Until

variable {σ α : Type*} {Step : σ → α → σ → Prop} {A : α → Prop} {P Q Q' : σ → Prop} {n k : Nat}
  {s t : σ}

theorem run {tr : List (Transition σ α)} (h : Until Step A P Q n s) (hrun : Run Step s tr t)
    (hl : ∀ x ∈ tr, A x.label) : ∃ m, m + tr.length = n ∧ Until Step A P Q m t := by
  induction hrun generalizing n with
  | nil => exact ⟨n, rfl, h⟩
  | cons hstep _ ih =>
    have ha := hl _ mem_cons_self
    cases h with
    | done _ hstuck => exact absurd hstep (hstuck _ _ ha)
    | next _ _ hnext =>
      obtain ⟨m, hm, ht⟩ := ih (hnext _ _ ha hstep) fun x hx => hl x (mem_cons_of_mem _ hx)
      exact ⟨m, by rw [length_cons, ← Nat.add_assoc, hm], ht⟩

theorem mono (h : Until Step A P Q n s) (hQ : ∀ u, Q u → Q' u) : Until Step A P Q' n s := by
  induction h with
  | done hu hstuck => exact .done (hQ _ hu) hstuck
  | next hp hgo _ ih => exact .next hp hgo ih

theorem only {a : α} (hP : P s) (ha : A a) (hstep : Step s a t)
    (hsole : ∀ b u, A b → Step s b u → u = t) (h : Until Step A P Q n t) : Until Step A P Q (n + 1) s :=
  .next hP ⟨a, t, ha, hstep⟩ fun b u hb hu => hsole b u hb hu ▸ h

theorem joint (h : Until Step A P Q n s) (h' : Until Step A P Q' k s) : ∃ u, Q u ∧ Q' u := by
  induction h generalizing k with
  | @done s hu hstuck =>
    cases h' with
    | done hu' _ => exact ⟨s, hu, hu'⟩
    | next _ hgo _ =>
      obtain ⟨a, t, ha, hstep⟩ := hgo
      exact absurd hstep (hstuck a t ha)
  | next _ hgo _ ih =>
    obtain ⟨a, t, ha, hstep⟩ := hgo
    cases h' with
    | done _ hstuck => exact absurd hstep (hstuck a t ha)
    | next _ _ hnext => exact ih a t ha hstep (hnext a t ha hstep)

/-- 終わりの状態で `Q` が `C` と同値なら、`Q` に着くことは `C` と同値である。 -/
theorem exists_iff_of {C : Prop} (h : Until Step A P Q' n s) (hC : ∀ u, Q' u → (Q u ↔ C)) :
    (∃ n, Until Step A P Q n s) ↔ C := by
  constructor
  · rintro ⟨m, hm⟩
    obtain ⟨u, hu, hu'⟩ := hm.joint h
    exact (hC u hu').mp hu
  · exact fun hc => ⟨n, h.mono fun u hu => (hC u hu).mpr hc⟩

theorem exists_iff {u : σ} (h : Until Step A P (· = u) n s) :
    (∃ n, Until Step A P Q n s) ↔ Q u :=
  h.exists_iff_of fun _ hv => hv ▸ Iff.rfl

end Until

end Infra
