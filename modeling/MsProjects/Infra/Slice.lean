import Mathlib.Data.List.Basic
import Mathlib.Data.List.GetD

/-!
# 位置から値への関数の一部

`slice c off n` は関数 `c` の `off` から `n` 個の値を並べ、`overwrite c off l` は `off` から列 `l` を書き込む。
-/

namespace Infra

open List Function

variable {α : Type*}

/-- `off` から `n` 個の値。 -/
def slice (c : Nat → α) (off n : Nat) : List α := (range n).map fun i => c (off + i)

/-- `off` から列を書き込む。 -/
def overwrite [Inhabited α] (c : Nat → α) (off : Nat) (l : List α) : Nat → α :=
  fun p => if off ≤ p ∧ p < off + l.length then l.getD (p - off) default else c p

@[simp] theorem length_slice (c : Nat → α) (off n : Nat) : (slice c off n).length = n := by simp [slice]

theorem slice_add (c : Nat → α) (off a b : Nat) :
    slice c off (a + b) = slice c off a ++ slice c (off + a) b := by
  rw [slice, slice, slice, range_add, map_append, map_map]
  refine congrArg _ (map_congr_left fun i _ => ?_)
  simp only [comp_apply, Nat.add_assoc]

variable [Inhabited α]

@[simp] theorem overwrite_nil (c : Nat → α) (off : Nat) : overwrite c off [] = c := by
  funext p
  rw [overwrite, if_neg]
  simp only [length_nil]
  omega

theorem overwrite_append (c : Nat → α) (off : Nat) (l r : List α) :
    overwrite (overwrite c off l) (off + l.length) r = overwrite c off (l ++ r) := by
  funext p
  simp only [overwrite, length_append]
  by_cases hl : off ≤ p ∧ p < off + l.length
  · rw [if_neg (by omega), if_pos hl, if_pos (by omega), getD_append _ _ _ _ (by omega)]
  · by_cases hr : off + l.length ≤ p ∧ p < off + l.length + r.length
    · rw [if_pos hr, if_pos (by omega), getD_append_right _ _ _ _ (by omega)]
      congr 1
      omega
    · rw [if_neg hr, if_neg hl, if_neg (by omega)]

end Infra
