import MsProjects.Sql.Expression

/-! # getExpList は WHERE の連言か -/

namespace Sql

variable {P Row : Type*} {columns : P → List (List Char)}

namespace Expression

variable {e w : Expression P} {holds : Row → P → Bool} {q p : P} {row : Row}

/-- 式に現れる `AND` の両辺。 -/
def operands : Expression P → List (Expression P)
  | comparison _ => []
  | and l r => [l, r] ++ l.operands ++ r.operands
  | or l r => l.operands ++ r.operands
  | parenthesis e => e.operands

theorem operands_eq_nil_iff : e.operands = [] ↔ e.andFree = true := by
  induction e with
  | comparison p | and l r => simp [operands, andFree]
  | or l r ihl ihr => simp [operands, andFree, ihl, ihr]
  | parenthesis e ih => simpa [operands, andFree] using ih

theorem isAnd_of_andFree (h : e.andFree = true) : e.isAnd = false := by
  induction e with
  | comparison p => rfl
  | and l r => cases h
  | or l r => rfl
  | parenthesis e ih => exact ih h

theorem SameShape.refl (e : Expression P) : SameShape e e := by
  induction e with
  | comparison p => exact .comparison p p
  | and l r ihl ihr => exact .and ihl ihr
  | or l r ihl ihr => exact .or ihl ihr
  | parenthesis e ih => exact .parenthesis ih

theorem SameShape.andFree_eq {e' : Expression P} (h : SameShape e e') : e.andFree = e'.andFree := by
  induction h with
  | comparison p q | and _ _ => rfl
  | or _ _ ihl ihr => rw [andFree, andFree, ihl, ihr]
  | parenthesis _ ih => exact ih

theorem SameShape.singleAnd_eq {e' : Expression P} (h : SameShape e e') :
    e.singleAnd = e'.singleAnd := by
  induction h with
  | comparison p q => rfl
  | and hl hr => rw [singleAnd, singleAnd, hl.andFree_eq, hr.andFree_eq]
  | or _ _ => rfl
  | parenthesis _ ih => exact ih

/-! ## 同じ比較で埋めた式 -/

/-- すべての比較を `p` に置き換える。 -/
def fill (p : P) : Expression P → Expression P
  | comparison _ => comparison p
  | and l r => and (l.fill p) (r.fill p)
  | or l r => or (l.fill p) (r.fill p)
  | parenthesis e => parenthesis (e.fill p)

theorem sameShape_fill (p : P) (e : Expression P) : SameShape (e.fill p) e := by
  induction e with
  | comparison q => exact .comparison p q
  | and l r ihl ihr => exact .and ihl ihr
  | or l r ihl ihr => exact .or ihl ihr
  | parenthesis e ih => exact .parenthesis ih

theorem eval_fill (holds : P → Bool) (p : P) (e : Expression P) :
    (e.fill p).eval holds = holds p := by
  induction e with
  | comparison _ => rfl
  | and l r ihl ihr | or l r ihl ihr => simp [fill, eval, ihl, ihr]
  | parenthesis e ih => exact ih

theorem operands_fill (p : P) (e : Expression P) :
    (e.fill p).operands = e.operands.map (fill p) := by
  induction e with
  | comparison _ => rfl
  | and l r ihl ihr | or l r ihl ihr => simp [fill, operands, ihl, ihr]
  | parenthesis e ih => exact ih

theorem exists_operand_fill {holds : P → Bool} (hq : holds q = false) (h : e.andFree = false) :
    ∃ x ∈ (e.fill q).operands, x.eval holds = false := by
  have hne : (e.fill q).operands ≠ [] := by
    intro hnil
    rw [operands_eq_nil_iff, (sameShape_fill q e).andFree_eq, h] at hnil
    cases hnil
  obtain ⟨x, hx⟩ := List.exists_mem_of_ne_nil _ hne
  obtain ⟨y, -, rfl⟩ := List.mem_map.mp (operands_fill q e ▸ hx)
  exact ⟨y.fill q, hx, (eval_fill holds q y).trans hq⟩

theorem exists_spoiled_or {holds : P → Bool} (hp : holds p = true) (hq : holds q = false)
    {l r : Expression P} (h : (or l r).andFree = false) :
    ∃ e', SameShape e' (or l r) ∧ e'.eval holds = true ∧
      ∃ x ∈ e'.operands, x.eval holds = false := by
  rcases (Bool.and_eq_false_iff.mp h : l.andFree = false ∨ r.andFree = false) with hl | hr
  · obtain ⟨x, hx, hxf⟩ := exists_operand_fill hq hl
    refine ⟨or (l.fill q) (r.fill p), (sameShape_fill q l).or (sameShape_fill p r), ?_, x,
      List.mem_append_left _ hx, hxf⟩
    rw [eval, eval_fill, eval_fill, hp, Bool.or_true]
  · obtain ⟨x, hx, hxf⟩ := exists_operand_fill hq hr
    refine ⟨or (l.fill p) (r.fill q), (sameShape_fill p l).or (sameShape_fill q r), ?_, x,
      List.mem_append_right _ hx, hxf⟩
    rw [eval, eval_fill, eval_fill, hp, Bool.true_or]

theorem exists_spoiled {holds : P → Bool} (hp : holds p = true) (hq : holds q = false)
    (h : e.andFree = false) :
    ∃ e', SameShape e' e ∧
      (e'.isAnd = true ∨ e'.eval holds = true ∧ ∃ x ∈ e'.operands, x.eval holds = false) := by
  induction e with
  | comparison _ => cases h
  | and l r => exact ⟨and l r, SameShape.refl _, .inl rfl⟩
  | or l r =>
    obtain ⟨e', hshape, hspoiled⟩ := exists_spoiled_or hp hq h
    exact ⟨e', hshape, .inr hspoiled⟩
  | parenthesis e ih =>
    obtain ⟨e', hshape, hspoiled⟩ := ih h
    exact ⟨parenthesis e', .parenthesis hshape, hspoiled⟩

end Expression

open Expression

/-! ## 走査の結果 -/

theorem ExpressionEvaluator.whereExp_visit (w : Expression P) (e : ExpressionEvaluator P) :
    (visit columns w e).whereExp = e.whereExp ++ w.operands := by
  induction w generalizing e with
  | comparison p => simp [visit, operands]
  | and l r ihl ihr | or l r ihl ihr => simp [visit, operands, ihl, ihr]
  | parenthesis w ih => simpa [visit, operands] using ih e

/-- **`getExpList` が返すのは、式に現れるすべての `AND` の両辺である。** -/
theorem getExpList_eq (w : Expression P) : getExpList columns w = w.operands := by
  rw [getExpList, ExpressionEvaluator.whereExp_visit]
  rfl

/-- list の要素が `AND` でなく、どの行でもその連言が WHERE の式と同じ真偽を持つ。 -/
structure ExpListCorrect (columns : P → List (List Char)) (holds : Row → P → Bool)
    (w : Expression P) : Prop where
  noAnd : ∀ x ∈ getExpList columns w, x.isAnd = false
  eval_eq : ∀ row, (getExpList columns w).all (fun x => x.eval (holds row)) = w.eval (holds row)

theorem expListCorrect_parenthesis :
    ExpListCorrect columns holds (parenthesis w) ↔ ExpListCorrect columns holds w := by
  have hlist : getExpList columns (parenthesis w) = getExpList columns w := by
    rw [getExpList_eq, getExpList_eq, operands]
  constructor
  · intro h
    exact ⟨hlist ▸ h.noAnd, fun row => hlist ▸ h.eval_eq row⟩
  · intro h
    exact ⟨hlist ▸ h.noAnd, fun row => hlist.symm ▸ h.eval_eq row⟩

theorem expListCorrect_of_singleAnd (h : w.singleAnd = true) : ExpListCorrect columns holds w := by
  induction w with
  | comparison p | or l r => cases h
  | and l r =>
    obtain ⟨hl, hr⟩ : l.andFree = true ∧ r.andFree = true := by simpa [singleAnd] using h
    have hlist : getExpList columns (and l r) = [l, r] := by
      rw [getExpList_eq, operands, operands_eq_nil_iff.mpr hl, operands_eq_nil_iff.mpr hr]
      rfl
    constructor
    · rw [hlist]
      simp [isAnd_of_andFree hl, isAnd_of_andFree hr]
    · intro row
      simp [hlist, eval]
  | parenthesis e ih => exact expListCorrect_parenthesis.mpr (ih h)

theorem not_expListCorrect_of_spoiled {x : Expression P} (hw : w.eval (holds row) = true)
    (hx : x ∈ w.operands) (hxf : x.eval (holds row) = false) :
    ¬ ExpListCorrect columns holds w := by
  intro hcorrect
  have hall := (hcorrect.eval_eq row).trans hw
  rw [getExpList_eq, List.all_eq_true] at hall
  simp [hall x hx] at hxf

theorem not_expListCorrect_of_andFree (hw : w.eval (holds row) = false) (hfree : w.andFree = true) :
    ¬ ExpListCorrect columns holds w := by
  intro hcorrect
  have hnil := hcorrect.eval_eq row
  rw [getExpList_eq, operands_eq_nil_iff.mpr hfree, hw] at hnil
  cases hnil

theorem exists_not_expListCorrect (hp : holds row p = true) (hq : holds row q = false)
    (h : w.singleAnd = false) : ∃ w', SameShape w' w ∧ ¬ ExpListCorrect columns holds w' := by
  induction w with
  | comparison _ =>
    exact ⟨comparison q, .comparison q _, not_expListCorrect_of_andFree hq rfl⟩
  | or l r =>
    by_cases hfree : (or l r).andFree = true
    · refine ⟨(or l r).fill q, sameShape_fill q _,
        not_expListCorrect_of_andFree ((eval_fill (holds row) q _).trans hq) ?_⟩
      rw [(sameShape_fill q _).andFree_eq, hfree]
    · obtain ⟨e', hshape, htrue, x, hx, hxf⟩ :=
        exists_spoiled_or hp hq (Bool.eq_false_iff.mpr hfree)
      exact ⟨e', hshape, not_expListCorrect_of_spoiled htrue hx hxf⟩
  | and l r =>
    have hmem (a b x : Expression P) (hx : x = a ∨ x = b ∨ x ∈ a.operands ∨ x ∈ b.operands) :
        x ∈ (and a b).operands := by simpa [operands] using hx
    rcases (Bool.and_eq_false_iff.mp h : l.andFree = false ∨ r.andFree = false) with hl | hr
    · obtain ⟨l', hshape, hand | ⟨htrue, x, hx, hxf⟩⟩ := exists_spoiled hp hq hl
      · refine ⟨and l' r, .and hshape (.refl r), fun hcorrect => ?_⟩
        have hno := hcorrect.noAnd l' (by rw [getExpList_eq]; exact hmem _ _ _ (.inl rfl))
        simp [hand] at hno
      · refine ⟨and l' (r.fill p), .and hshape (sameShape_fill p r),
          not_expListCorrect_of_spoiled ?_ (hmem _ _ x (.inr (.inr (.inl hx)))) hxf⟩
        rw [eval, htrue, eval_fill, hp, Bool.and_self]
    · obtain ⟨r', hshape, hand | ⟨htrue, x, hx, hxf⟩⟩ := exists_spoiled hp hq hr
      · refine ⟨and l r', .and (.refl l) hshape, fun hcorrect => ?_⟩
        have hno := hcorrect.noAnd r' (by rw [getExpList_eq]; exact hmem _ _ _ (.inr (.inl rfl)))
        simp [hand] at hno
      · refine ⟨and (l.fill p) r', .and (sameShape_fill p l) hshape,
          not_expListCorrect_of_spoiled ?_ (hmem _ _ x (.inr (.inr (.inr hx)))) hxf⟩
        rw [eval, htrue, eval_fill, hp, Bool.and_self]
  | parenthesis e ih =>
    obtain ⟨e', hshape, hbad⟩ := ih h
    exact ⟨parenthesis e', .parenthesis hshape, fun hcorrect =>
      hbad (expListCorrect_parenthesis.mp hcorrect)⟩

/-- **同じ形のどの式でも list が WHERE の連言になるのは、式の全体である `AND` のほかに `AND` が無いとき、かつそのときに限る。** -/
theorem getExpList_iff {holds : Row → P → Bool}
    (hsep : ∃ row p q, holds row p = true ∧ holds row q = false) (w : Expression P) :
    (∀ w', SameShape w' w → ExpListCorrect columns holds w') ↔ w.singleAnd = true := by
  constructor
  · intro hall
    by_contra hnot
    obtain ⟨row, p, q, hp, hq⟩ := hsep
    obtain ⟨w', hshape, hbad⟩ := exists_not_expListCorrect hp hq (Bool.eq_false_iff.mpr hnot)
    exact hbad (hall w' hshape)
  · intro hsingle w' hshape
    exact expListCorrect_of_singleAnd (hshape.singleAnd_eq.trans hsingle)

/-! ## 例 -/

def equals (column : String) (value : Int) : Expression LongComparison :=
  comparison { column := column.toList, operator := .equalsTo, value := value }

/-- `a = 1 AND (b = 2 OR c = 3)` は正しく分けられる。 -/
theorem getExpList_iff_and_or :
    ExpListCorrect (fun c => [LongComparison.column c]) LongComparison.holds
      (and (equals "a" 1) (parenthesis (or (equals "b" 2) (equals "c" 3)))) :=
  (getExpList_iff ⟨fun _ => 1, ⟨['a'], .equalsTo, 1⟩, ⟨['a'], .equalsTo, 2⟩, by decide⟩ _).mpr
    (by decide) _ (SameShape.refl _)

/-- 条件が一つだけの `a = 1` は list に入らず、`a` が 0 の行でも連言は真になる。 -/
theorem getExpList_single_comparison :
    getExpList (fun c => [LongComparison.column c]) (equals "a" 1) = [] ∧
      ¬ ExpListCorrect (fun c => [LongComparison.column c]) LongComparison.holds (equals "a" 1) := by
  refine ⟨by decide, fun h => ?_⟩
  exact absurd (h.eval_eq fun _ => 0) (by decide)

/-- `a = 1 AND b = 2 AND c = 3` では、左辺の `a = 1 AND b = 2` も分けられずに list に入る。 -/
example : (getExpList (fun c => [LongComparison.column c])
    (and (and (equals "a" 1) (equals "b" 2)) (equals "c" 3))).map isAnd =
      [true, false, false, false] := by decide

end Sql
