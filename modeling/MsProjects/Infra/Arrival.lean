import Mathlib.Data.List.Induction
import Mathlib.Order.Lattice

/-!
# 届いた順に並べる整列

届いたものを一つずつ、鍵が自分以下のものすべての後ろに入れて作る列。
-/

namespace Infra

open List Function

variable {α β κ : Type*} [LinearOrder κ] (key : α → κ)

/-- 鍵が自分以下のものの後ろに入れる。 -/
def insertAfter (x : α) (l : List α) : List α :=
  l.filter (fun y => key y ≤ key x) ++ x :: l.filter fun y => key x < key y

/-- 鍵の順に並んでいる。 -/
def InOrder (l : List α) : Prop := l.Pairwise fun a b => key a ≤ key b

/-- 届いた順に入れた列。 -/
def arrange (l : List α) : List α := l.foldl (fun acc x => insertAfter key x acc) []

variable {key}

theorem perm_insertAfter (x : α) (l : List α) : (insertAfter key x l).Perm (x :: l) := by
  refine perm_middle.trans (Perm.cons x ?_)
  have hgt : (l.filter fun y => key x < key y) = l.filter fun y => !decide (key y ≤ key x) :=
    filter_congr fun y _ => by rw [← decide_not, decide_eq_decide, not_le]
  rw [hgt]
  exact filter_append_perm (fun y => decide (key y ≤ key x)) l

theorem insertAfter_append_of_lt {x : α} {a b : List α} (h : ∀ y ∈ b, key x < key y) :
    insertAfter key x (a ++ b) = insertAfter key x a ++ b := by
  have hnone : b.filter (fun y => key y ≤ key x) = [] :=
    filter_eq_nil_iff.mpr fun y hy => by simpa using h y hy
  have hall : b.filter (fun y => key x < key y) = b :=
    filter_eq_self.mpr fun y hy => by simpa using h y hy
  simp [insertAfter, hnone, hall]

theorem insertAfter_append_of_le {x : α} {a b : List α} (h : ∀ y ∈ a, key y ≤ key x) :
    insertAfter key x (a ++ b) = a ++ insertAfter key x b := by
  have hall : a.filter (fun y => key y ≤ key x) = a :=
    filter_eq_self.mpr fun y hy => by simpa using h y hy
  have hnone : a.filter (fun y => key x < key y) = [] :=
    filter_eq_nil_iff.mpr fun y hy => by simpa using h y hy
  simp [insertAfter, hnone, hall]

theorem insertAfter_map (f : β → α) (x : β) (l : List β) :
    insertAfter key (f x) (l.map f) = (insertAfter (fun b => key (f b)) x l).map f := by
  simp [insertAfter, filter_map, comp_def]

theorem InOrder.insertAfter {l : List α} (h : InOrder key l) (x : α) :
    InOrder key (insertAfter key x l) := by
  refine pairwise_append.mpr ⟨h.filter _, pairwise_cons.mpr ⟨?_, h.filter _⟩, ?_⟩
  · intro y hy
    exact le_of_lt (by simpa using (mem_filter.mp hy).2)
  · intro a ha b hb
    have ha : key a ≤ key x := by simpa using (mem_filter.mp ha).2
    rcases mem_cons.mp hb with rfl | hb
    · exact ha
    · exact ha.trans (le_of_lt (by simpa using (mem_filter.mp hb).2))

theorem filter_insertAfter (x : α) (l : List α) (t : κ) :
    (insertAfter key x l).filter (fun y => key y = t) = (l ++ [x]).filter fun y => key y = t := by
  have hle : (l.filter fun y => key y ≤ key x).filter (fun y => key y = t) =
      if t ≤ key x then l.filter (fun y => key y = t) else [] := by
    rw [filter_filter]
    split
    · next h =>
      refine filter_congr fun y _ => ?_
      by_cases hy : key y = t <;> simp [hy, h]
    · next h =>
      refine filter_eq_nil_iff.mpr fun y _ => ?_
      simp only [Bool.and_eq_true, decide_eq_true_eq, not_and]
      rintro rfl
      exact h
  have hgt : (l.filter fun y => key x < key y).filter (fun y => key y = t) =
      if t ≤ key x then [] else l.filter fun y => key y = t := by
    rw [filter_filter]
    split
    · next h =>
      refine filter_eq_nil_iff.mpr fun y _ => ?_
      simp only [Bool.and_eq_true, decide_eq_true_eq, not_and]
      rintro rfl
      exact not_lt.mpr h
    · next h =>
      refine filter_congr fun y _ => ?_
      by_cases hy : key y = t <;> simp [hy, not_le.mp h]
  rw [insertAfter, filter_append, filter_cons, hle, hgt, filter_append, filter_cons, filter_nil]
  by_cases h : t ≤ key x
  · simp only [h, if_true]
  · have hx : key x ≠ t := fun heq => h heq.ge
    simp [h, hx]

theorem arrange_concat (l : List α) (x : α) :
    arrange key (l ++ [x]) = insertAfter key x (arrange key l) := by
  simp [arrange, foldl_append]

theorem perm_arrange (l : List α) : (arrange key l).Perm l := by
  induction l using reverseRecOn with
  | nil => exact .refl _
  | append_singleton l x ih =>
    rw [arrange_concat]
    exact (perm_insertAfter x _).trans ((ih.cons x).trans (perm_append_singleton x l).symm)

theorem inOrder_arrange (l : List α) : InOrder key (arrange key l) := by
  induction l using reverseRecOn with
  | nil => exact Pairwise.nil
  | append_singleton l x ih =>
    rw [arrange_concat]
    exact ih.insertAfter x

/-- **鍵の等しいもの同士は届いた順に並ぶ。** -/
theorem filter_arrange (l : List α) (t : κ) :
    (arrange key l).filter (fun y => key y = t) = l.filter fun y => key y = t := by
  induction l using reverseRecOn with
  | nil => rfl
  | append_singleton l x ih =>
    rw [arrange_concat, filter_insertAfter, filter_append, filter_append, ih]

theorem InOrder.eq_append {l : List α} (h : InOrder key l) (t : κ) :
    l = l.filter (fun y => key y < t) ++ l.filter (fun y => key y = t) ++
      l.filter fun y => t < key y := by
  induction l with
  | nil => rfl
  | cons x l ih =>
    obtain ⟨hx, hl⟩ := pairwise_cons.mp h
    have ih := ih hl
    rcases lt_trichotomy (key x) t with hlt | heq | hgt
    · simp only [filter_cons, hlt, hlt.ne, not_lt_of_gt hlt, decide_true, decide_false, if_true,
        Bool.false_eq_true, if_false, cons_append]
      rw [← ih]
    · have hnil : l.filter (fun y => key y < t) = [] :=
        filter_eq_nil_iff.mpr fun y hy => by simpa [heq] using hx y hy
      rw [hnil] at ih
      simp only [filter_cons, heq, lt_irrefl, decide_true, decide_false, if_true, hnil,
        Bool.false_eq_true, if_false, nil_append, cons_append]
      rw [nil_append] at ih
      rw [← ih]
    · have hall (y : α) (hy : y ∈ l) : t < key y := hgt.trans_le (hx y hy)
      have hlt : l.filter (fun y => key y < t) = [] :=
        filter_eq_nil_iff.mpr fun y hy => by simpa using (hall y hy).le
      have heq : l.filter (fun y => key y = t) = [] :=
        filter_eq_nil_iff.mpr fun y hy => by simpa using (hall y hy).ne'
      have hself : l.filter (fun y => t < key y) = l :=
        filter_eq_self.mpr fun y hy => by simpa using hall y hy
      simp [hgt, hgt.ne', not_lt_of_gt hgt, hlt, heq, hself]

theorem getElem?_arrange {l rest : List α} {t : κ} {x : α}
    (h : (l.filter fun y => key y = t) = x :: rest) :
    (arrange key l)[(l.filter fun y => key y < t).length]? = some x := by
  have hlen : (l.filter fun y => key y < t).length =
      ((arrange key l).filter fun y => key y < t).length :=
    ((perm_arrange l).filter _).length_eq.symm
  have hsplit := (inOrder_arrange l : InOrder key (arrange key l)).eq_append t
  rw [filter_arrange, h, append_assoc] at hsplit
  rw [hlen]
  generalize (arrange key l).filter (fun y => key y < t) = small at hsplit
  rw [hsplit, getElem?_append_right (Nat.le_refl _)]
  simp

/-- **並びが届く順によらないのは、鍵の等しいものが同じ値を持つとき、かつそのときに限る。** -/
theorem map_arrange_iff (value : α → β) (l : List α) :
    (∀ a b : List α, a.Perm l → b.Perm l →
        (arrange key a).map value = (arrange key b).map value) ↔
      ∀ x ∈ l, ∀ y ∈ l, key x = key y → value x = value y := by
  classical
  constructor
  · intro hall x hx y hy hkey
    by_cases hxy : x = y
    · rw [hxy]
    · -- `x` と `y` を先頭に置き、その順だけを入れ替えた二つの届き方を比べる
      have hy' : y ∈ l.erase x := (mem_erase_of_ne (Ne.symm hxy)).mpr hy
      have hperm : (x :: y :: (l.erase x).erase y).Perm l :=
        ((perm_cons_erase hy').symm.cons x).trans (perm_cons_erase hx).symm
      have heq := hall _ _ hperm ((Perm.swap x y _).trans hperm)
      have hx1 : ((x :: y :: (l.erase x).erase y).filter fun z => key z = key x) =
          x :: y :: ((l.erase x).erase y).filter fun z => key z = key x := by simp [hkey]
      have hy1 : ((y :: x :: (l.erase x).erase y).filter fun z => key z = key x) =
          y :: x :: ((l.erase x).erase y).filter fun z => key z = key x := by simp [hkey]
      have h1 := getElem?_arrange hx1
      have h2 := getElem?_arrange hy1
      have hlen : ((y :: x :: (l.erase x).erase y).filter fun z => key z < key x).length =
          ((x :: y :: (l.erase x).erase y).filter fun z => key z < key x).length :=
        ((Perm.swap x y _).filter _).length_eq
      rw [hlen] at h2
      have hval := congrArg (fun m : List β =>
        m[((x :: y :: (l.erase x).erase y).filter fun z => key z < key x).length]?) heq
      simp only [getElem?_map, h1, h2, Option.map_some, Option.some.injEq] at hval
      exact hval
  · intro hval a b ha hb
    -- 鍵と値の組で見ると順序は反対称になり、並べ方は一通りである
    have hpair (c : List α) : ((arrange key c).map fun x => (key x, value x)).Pairwise
        fun p q => p.1 ≤ q.1 := pairwise_map.mpr (inOrder_arrange c)
    have hab : ((arrange key a).map fun x => (key x, value x)) =
        (arrange key b).map fun x => (key x, value x) := by
      refine Perm.eq_of_pairwise ?_ (hpair a) (hpair b)
        (((perm_arrange a).trans (ha.trans (hb.symm.trans (perm_arrange b).symm))).map _)
      rintro p q hp hq hpq hqp
      obtain ⟨x, hx, rfl⟩ := mem_map.mp hp
      obtain ⟨y, hy, rfl⟩ := mem_map.mp hq
      have hkey : key x = key y := le_antisymm hpq hqp
      have hx : x ∈ l := ha.mem_iff.mp ((perm_arrange a).mem_iff.mp hx)
      have hy : y ∈ l := hb.mem_iff.mp ((perm_arrange b).mem_iff.mp hy)
      exact Prod.ext hkey (hval x hx y hy hkey)
    have hsnd := congrArg (map Prod.snd) hab
    simpa [map_map, comp_def] using hsnd

end Infra
