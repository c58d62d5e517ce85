import Mathlib.Logic.Basic

/-!
# 一つの bit の書き換え

幅 `w` の語の一つの bit を立てること、下ろすことが、ほかの bit を変えないことを示す。
-/

namespace Infra

variable {w : Nat} (x : BitVec w) {i j : Nat}

theorem getLsbD_set (hi : i < w) :
    (x ||| BitVec.twoPow w j).getLsbD i = (x.getLsbD i || decide (j = i)) := by
  rw [BitVec.getLsbD_or, BitVec.getLsbD_twoPow]
  by_cases hij : j = i <;> simp [hij, hi]

theorem getLsbD_clear (hi : i < w) :
    (x &&& ~~~ BitVec.twoPow w j).getLsbD i = (x.getLsbD i && !decide (j = i)) := by
  rw [BitVec.getLsbD_and, BitVec.getLsbD_not, BitVec.getLsbD_twoPow]
  by_cases hij : j = i <;> simp [hij, hi]

end Infra
