import Mathlib.Data.List.Basic

/-!
# 要素ごとに書き出す loop

要素ごとに失敗しうる計算を順に行う `mapM` と、要素ごとの出力を繋いだ列。
-/

namespace Infra

open List Function

variable {α β : Type} {f : α → Option β} {g : α → β} {xs : List α} {ys : List β}

theorem mapM_eq_some_iff : xs.mapM f = some ys ↔ xs.map f = ys.map some := by
  induction xs generalizing ys with
  | nil => cases ys <;> simp
  | cons x xs ih =>
    rw [mapM_cons, map_cons]
    cases hx : f x with
    | none => cases ys <;> simp
    | some y =>
      simp only [Option.bind_eq_bind, Option.bind_some, Option.pure_def, Option.bind_eq_some_iff,
        Option.some.injEq, ih]
      constructor
      · rintro ⟨zs, hzs, rfl⟩
        rw [hzs, map_cons]
      · intro h
        obtain _ | ⟨z, zs⟩ := ys
        · cases h
        · obtain ⟨hhead, htail⟩ := cons.inj h
          exact ⟨zs, htail, by rw [Option.some.inj hhead]⟩

theorem mapM_eq_map (h : ∀ x ∈ xs, f x = some (g x)) : xs.mapM f = some (xs.map g) := by
  rw [mapM_eq_some_iff, map_map]
  exact map_congr_left h

theorem mapM_eq_none {x : α} (hx : x ∈ xs) (h : f x = none) : xs.mapM f = none := by
  cases hys : xs.mapM f with
  | none => rfl
  | some ys =>
    have hmem : f x ∈ ys.map some := mapM_eq_some_iff.mp hys ▸ mem_map_of_mem hx
    rw [h] at hmem
    simp at hmem

theorem length_flatten_le {ls : List (List β)} (h : ∀ l ∈ ls, l.length ≤ 1) :
    ls.flatten.length ≤ ls.length := by
  induction ls with
  | nil => simp
  | cons l ls ih =>
    have hl := h l mem_cons_self
    have hrest := ih fun l hl => h l (mem_cons_of_mem _ hl)
    rw [flatten_cons, length_append, length_cons]
    omega

/-- **一つ以下ずつの出力が要素の数だけ並ぶなら、どの要素もちょうど一つを出している。** -/
theorem eq_singletons_of_flatten {ls : List (List β)} (h : ∀ l ∈ ls, l.length ≤ 1)
    (hflat : ls.flatten = ys) (hlen : ls.length = ys.length) : ls = ys.map fun y => [y] := by
  induction ls generalizing ys with
  | nil =>
    cases ys with
    | nil => rfl
    | cons y ys => cases hlen
  | cons l ls ih =>
    have hl := h l mem_cons_self
    have hls : ∀ l ∈ ls, l.length ≤ 1 := fun l hl => h l (mem_cons_of_mem _ hl)
    have hle := length_flatten_le hls
    have htotal := congrArg length hflat
    rw [flatten_cons, length_append, ← hlen, length_cons] at htotal
    obtain ⟨y, rfl⟩ := length_eq_one_iff.mp (show l.length = 1 by omega)
    subst hflat
    rw [flatten_cons, singleton_append, map_cons, ← ih hls rfl (by simpa using hlen)]

end Infra
