import Mathlib.Logic.Basic

/-!
# 失敗する計算

状態を変えながら進み、値を返すか、誤りで終わるか、進めなくなる計算を扱う。
-/

namespace Infra

/-- 状態 `σ` の上の計算。 -/
def Comp (ε σ α : Type) : Type := σ → Option (Except ε α × σ)

namespace Comp

variable {ε σ τ α β : Type}

instance : Monad (Comp ε σ) where
  pure a := fun s => some (.ok a, s)
  bind x f := fun s =>
    match x s with
    | none => none
    | some (.error e, t) => some (.error e, t)
    | some (.ok a, t) => f a t

instance : MonadStateOf σ (Comp ε σ) where
  get := fun s => some (.ok s, s)
  set s := fun _ => some (.ok (), s)
  modifyGet f := fun s => some (.ok (f s).1, (f s).2)

instance : MonadExceptOf ε (Comp ε σ) where
  throw e := fun s => some (.error e, s)
  tryCatch x f := fun s =>
    match x s with
    | some (.error e, t) => f e t
    | r => r

/-- 進めなくなる。 -/
def stuck : Comp ε σ α := fun _ => none

/-- 条件が成り立たなければ、進めなくなる。 -/
def assert (p : Prop) [Decidable p] : Comp ε σ Unit := if p then pure () else stuck

/-- 誤りも値として返す。 -/
def attempt (x : Comp ε σ α) : Comp ε σ (Except ε α) := fun s => (x s).map fun r => (.ok r.1, r.2)

/-- 値として受け取った結果で終わる。 -/
def conclude : Except ε α → Comp ε σ α
  | .ok a => pure a
  | .error e => throw e

/-- 状態の一部の上の計算を、全体の上の計算にする。 -/
def zoom (get : σ → τ) (set : τ → σ → σ) (x : Comp ε τ α) : Comp ε σ α :=
  fun s => (x (get s)).map fun r => (r.1, set r.2 s)

/-- 進めなくなることはなく、値を返せば `ok` が、誤りで終われば `err` が成り立つ。 -/
def Post (x : Comp ε σ α) (s : σ) (ok : α → σ → Prop) (err : ε → σ → Prop) : Prop :=
  match x s with
  | none => False
  | some (.ok a, t) => ok a t
  | some (.error e, t) => err e t

section rules

variable {x : Comp ε σ α} {s t : σ} {ok ok' : α → σ → Prop} {err err' : ε → σ → Prop}

@[simp] theorem post_pure (a : α) : (pure a : Comp ε σ α).Post s ok err ↔ ok a s := Iff.rfl

@[simp] theorem post_bind {f : α → Comp ε σ β} {ok : β → σ → Prop} :
    (x >>= f).Post s ok err ↔ x.Post s (fun a t => (f a).Post t ok err) err := by
  simp only [Post, Bind.bind]
  rcases x s with _ | ⟨_ | _, _⟩ <;> rfl

@[simp] theorem post_get {ok : σ → σ → Prop} : (get : Comp ε σ σ).Post s ok err ↔ ok s s := Iff.rfl

@[simp] theorem post_set {ok : Unit → σ → Prop} : (set t : Comp ε σ Unit).Post s ok err ↔ ok () t := Iff.rfl

@[simp] theorem post_modify {f : σ → σ} {ok : Unit → σ → Prop} :
    (modify f : Comp ε σ Unit).Post s ok err ↔ ok () (f s) := Iff.rfl

@[simp] theorem post_throw (e : ε) : (throw e : Comp ε σ α).Post s ok err ↔ err e s := Iff.rfl

@[simp] theorem post_stuck : (stuck : Comp ε σ α).Post s ok err ↔ False := Iff.rfl

@[simp] theorem post_assert {p : Prop} [Decidable p] {ok : Unit → σ → Prop} :
    (assert p : Comp ε σ Unit).Post s ok err ↔ p ∧ ok () s := by
  rw [assert]
  split <;> simp [*]

@[simp] theorem post_attempt {ok : Except ε α → σ → Prop} :
    x.attempt.Post s ok err ↔ x.Post s (fun a t => ok (.ok a) t) fun e t => ok (.error e) t := by
  simp only [Post, attempt]
  rcases x s with _ | ⟨_ | _, _⟩ <;> rfl

@[simp] theorem post_conclude_ok (a : α) : (conclude (.ok a) : Comp ε σ α).Post s ok err ↔ ok a s := Iff.rfl

@[simp] theorem post_conclude_error (e : ε) :
    (conclude (.error e) : Comp ε σ α).Post s ok err ↔ err e s := Iff.rfl

@[simp] theorem post_zoom {get : σ → τ} {set : τ → σ → σ} {x : Comp ε τ α} :
    (zoom get set x).Post s ok err ↔
      x.Post (get s) (fun a t => ok a (set t s)) fun e t => err e (set t s) := by
  simp only [Post, zoom]
  rcases x (get s) with _ | ⟨_ | _, _⟩ <;> rfl

theorem post_ite {p : Prop} [Decidable p] {y : Comp ε σ α} :
    (if p then x else y).Post s ok err ↔ (p → x.Post s ok err) ∧ (¬ p → y.Post s ok err) := by
  split <;> simp [*]

theorem Post.mono (h : x.Post s ok err) (hok : ∀ a t, ok a t → ok' a t)
    (herr : ∀ e t, err e t → err' e t) : x.Post s ok' err' := by
  revert h
  simp only [Post]
  rcases x s with _ | ⟨_ | _, _⟩
  · exact id
  · exact herr _ _
  · exact hok _ _

theorem Post.imp (h : x.Post s ok err) (hok : ∀ a t, ok a t → ok' a t) : x.Post s ok' err :=
  h.mono hok fun _ _ h => h

theorem Post.exists (h : x.Post s ok err) : ∃ r t, x s = some (r, t) := by
  revert h
  simp only [Post]
  rcases x s with _ | ⟨r, t⟩
  · exact False.elim
  · exact fun _ => ⟨r, t, rfl⟩

theorem Post.of_ok {a : α} (h : x.Post s ok err) (hx : x s = some (.ok a, t)) : ok a t := by
  rw [Post, hx] at h
  exact h

theorem Post.of_error {e : ε} (h : x.Post s ok err) (hx : x s = some (.error e, t)) : err e t := by
  rw [Post, hx] at h
  exact h

end rules

-- 規則だけで示す。型を調べるたびに計算を進めないようにする
attribute [irreducible] Post

end Comp

end Infra
