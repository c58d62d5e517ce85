import Mathlib.Data.List.Infix

/-!
# 区切りの列で分けた列

一文字とは限らない区切り `sep` で列を前から分ける `pieces`。
-/

namespace Infra

open List Function

variable {α : Type*} [DecidableEq α] {sep a b s : List α}

/-- 分ける loop。 -/
def splitLoop (sep : List α) : Nat → List α → List α → List (List α)
  | _, [], acc => [acc.reverse]
  | skip + 1, _ :: s, acc => splitLoop sep skip s acc
  | 0, c :: s, acc =>
    if sep <+: c :: s then acc.reverse :: splitLoop sep (sep.length - 1) s []
    else splitLoop sep 0 s (c :: acc)

/-- 区切りで分けた部分の列。 -/
def pieces (sep s : List α) : List (List α) := splitLoop sep 0 s []

/-- `a` の空でない後ろの部分は、どれも `sep` の先頭と重ならない。 -/
def Clear (sep a : List α) : Prop := ∀ v, v <:+ a → v ≠ [] → ¬ sep <+: v ∧ ¬ v <+: sep

instance : Decidable (Clear sep a) :=
  decidable_of_iff (∀ v ∈ a.tails, v ≠ [] → ¬ sep <+: v ∧ ¬ v <+: sep) (by simp only [mem_tails, Clear])

omit [DecidableEq α] in
theorem Clear.tail {c : α} (h : Clear sep (c :: a)) : Clear sep a :=
  fun v hv => h v (hv.trans (suffix_cons c a))

omit [DecidableEq α] in
theorem clear_cons_iff {c : α} :
    Clear sep (c :: a) ↔ (¬ sep <+: c :: a ∧ ¬ c :: a <+: sep) ∧ Clear sep a := by
  refine ⟨fun h => ⟨h _ suffix_rfl (cons_ne_nil c a), h.tail⟩, fun ⟨hc, h⟩ v hv hne => ?_⟩
  rcases suffix_cons_iff.mp hv with rfl | hv
  · exact hc
  · exact h v hv hne

omit [DecidableEq α] in
theorem Clear.of_head_notMem {c : α} {rest : List α} (h : c ∉ a) : Clear (c :: rest) a := by
  intro v hv hne
  obtain ⟨d, v, rfl⟩ := exists_cons_of_ne_nil hne
  have hd : d ∈ a := hv.subset mem_cons_self
  constructor
  · intro hpre
    exact h ((cons_prefix_cons.mp hpre).1 ▸ hd)
  · intro hpre
    exact h ((cons_prefix_cons.mp hpre).1 ▸ hd)

omit [DecidableEq α] in
theorem Clear.not_occurs (hsep : sep ≠ []) (h : Clear sep a) : ¬ sep <:+: a := by
  rintro ⟨u, w, rfl⟩
  refine (h (sep ++ w) ?_ (append_ne_nil_of_left_ne_nil hsep w)).1 (prefix_append _ _)
  rw [append_assoc]
  exact suffix_append _ _

theorem splitLoop_skip (sep a b acc : List α) :
    splitLoop sep a.length (a ++ b) acc = splitLoop sep 0 b acc := by
  induction a with
  | nil => rfl
  | cons c a ih => exact ih

theorem splitLoop_append (hsep : sep ≠ []) (h : Clear sep a) (b acc : List α) :
    splitLoop sep 0 (a ++ (sep ++ b)) acc = (acc.reverse ++ a) :: pieces sep b := by
  induction a generalizing acc with
  | nil =>
    obtain ⟨c, sep', rfl⟩ := exists_cons_of_ne_nil hsep
    have hpre : c :: sep' <+: c :: (sep' ++ b) := prefix_append (c :: sep') b
    rw [nil_append, cons_append, splitLoop, if_pos hpre, append_nil, pieces]
    exact congrArg _ (splitLoop_skip (c :: sep') sep' b [])
  | cons c a ih =>
    have hno : ¬ sep <+: c :: (a ++ (sep ++ b)) := by
      intro hpre
      have hc := (clear_cons_iff.mp h).1
      rcases prefix_or_prefix_of_prefix hpre (prefix_append (c :: a) (sep ++ b)) with h' | h'
      · exact hc.1 h'
      · exact hc.2 h'
    rw [cons_append, splitLoop, if_neg hno, ih h.tail, reverse_cons, append_assoc, singleton_append]

theorem pieces_append (hsep : sep ≠ []) (h : Clear sep a) (b : List α) :
    pieces sep (a ++ (sep ++ b)) = a :: pieces sep b :=
  splitLoop_append hsep h b []

theorem splitLoop_of_not_infix (h : ¬ sep <:+: s) (acc : List α) :
    splitLoop sep 0 s acc = [acc.reverse ++ s] := by
  induction s generalizing acc with
  | nil => rw [splitLoop, append_nil]
  | cons c s ih =>
    have hno : ¬ sep <+: c :: s := fun hpre => h hpre.isInfix
    have htail : ¬ sep <:+: s := fun hin => h (hin.trans (suffix_cons c s).isInfix)
    rw [splitLoop, if_neg hno, ih htail, reverse_cons, append_assoc, singleton_append]

theorem pieces_of_not_infix (h : ¬ sep <:+: s) : pieces sep s = [s] := splitLoop_of_not_infix h []

theorem exists_mem_splitLoop {c d : α} (hcd : c ≠ d) {acc : List α} (h : c ∈ s ∨ c ∈ acc) :
    ∃ p ∈ splitLoop [d] 0 s acc, c ∈ p := by
  induction s generalizing acc with
  | nil =>
    refine ⟨_, mem_singleton.mpr rfl, ?_⟩
    simpa using h
  | cons x s ih =>
    rw [splitLoop]
    split
    · next hpre =>
      obtain ⟨rfl, -⟩ := cons_prefix_cons.mp hpre
      rcases h with h | h
      · have hs : c ∈ s ∨ c ∈ ([] : List α) := .inl ((mem_cons.mp h).resolve_left hcd)
        obtain ⟨p, hp, hc⟩ := ih hs
        exact ⟨p, mem_cons_of_mem _ hp, hc⟩
      · exact ⟨_, mem_cons_self, mem_reverse.mpr h⟩
    · refine ih ?_
      rcases h with h | h
      · rcases mem_cons.mp h with rfl | h
        · exact .inr mem_cons_self
        · exact .inl h
      · exact .inr (mem_cons_of_mem _ h)

theorem exists_mem_pieces {c d : α} (hcd : c ≠ d) (h : c ∈ s) : ∃ p ∈ pieces [d] s, c ∈ p :=
  exists_mem_splitLoop hcd (.inl h)

/-- **区切りと重ならない列を繋いで分けると、元の列に戻る。** -/
theorem pieces_intercalate (hsep : sep ≠ []) {as : List (List α)} (hne : as ≠ [])
    (h : ∀ a ∈ as, Clear sep a) : pieces sep (sep.intercalate as) = as := by
  induction as with
  | nil => exact absurd rfl hne
  | cons a as ih =>
    have ha := h a mem_cons_self
    cases as with
    | nil =>
      rw [intercalate_singleton, pieces_of_not_infix (ha.not_occurs hsep)]
    | cons a' as =>
      rw [intercalate_cons_of_ne_nil (cons_ne_nil a' as), append_assoc, pieces_append hsep ha,
        ih (cons_ne_nil a' as) fun x hx => h x (mem_cons_of_mem a hx)]

omit [DecidableEq α] in
theorem infix_intercalate (sep a b : List α) (rest : List (List α)) :
    sep <:+: sep.intercalate (a :: b :: rest) := by
  rw [intercalate_cons_cons, append_assoc]
  exact infix_append' a sep _

end Infra
