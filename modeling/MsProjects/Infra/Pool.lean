import Mathlib.Data.List.Basic

/-!
# 順不同に取り出す並び

新しい要素を末尾に足し、好きな位置の要素を取り出す並び。
-/

namespace Infra.Pool

variable {α : Type*} {l : List α} {i : Nat} {x : α}

theorem exists_split (h : l[i]? = some x) :
    ∃ a b, l = a ++ x :: b ∧ l.eraseIdx i = a ++ b ∧ a.length = i := by
  obtain ⟨hi, rfl⟩ := List.getElem?_eq_some_iff.mp h
  refine ⟨l.take i, l.drop (i + 1), ?_, List.eraseIdx_eq_take_drop_succ l i, ?_⟩
  · rw [← List.drop_eq_getElem_cons hi, List.take_append_drop]
  · exact List.length_take_of_le (Nat.le_of_lt hi)

end Infra.Pool
