import MsProjects.Infra.Emit
import MsProjects.Sql.Properties.Condition

/-! # 表ごとの条件の正しさ -/

namespace Sql

open Infra

open List (all_cons foldl_cons map_congr_left map_cons)

/-! ## 条件の形 -/

namespace Conjunct

variable {α β γ : Type}

def map (f : Place → α → β) : Conjunct α → Conjunct β
  | .comparison c => .comparison (f .conjunct c)
  | .or c₁ c₂ rest => .or (f .inOr c₁) (f .inOr c₂) (rest.map (f .inOr))

/-- すべての比較が条件を満たすこと。 -/
def Forall (p : Place → α → Prop) : Conjunct α → Prop
  | .comparison c => p .conjunct c
  | .or c₁ c₂ rest => ∀ c ∈ c₁ :: c₂ :: rest, p .inOr c

def isOr : Conjunct α → Bool
  | .comparison _ => false
  | .or _ _ _ => true

def marker : Conjunct α → Option α
  | .comparison c => some c
  | .or _ _ _ => none

def nextOr (acc : List α) : Conjunct α → List α
  | .comparison _ => acc
  | .or c₁ c₂ rest => c₁ :: c₂ :: rest

theorem map_map (f : Place → α → β) (g : Place → β → γ) (c : Conjunct α) :
    (c.map f).map g = c.map fun p x => g p (f p x) := by
  cases c <;> simp [map]

theorem map_id (c : Conjunct α) : (c.map fun _ x => x) = c := by
  cases c <;> simp [map]

theorem map_congr {f g : Place → α → β} {c : Conjunct α} (h : c.Forall fun p x => f p x = g p x) :
    c.map f = c.map g := by
  cases c with
  | comparison c => exact congrArg comparison h
  | or c₁ c₂ rest =>
    obtain ⟨h₁, h₂, hrest⟩ : _ ∧ _ ∧ _ := by simpa [Forall] using h
    simp only [map, h₁, h₂, map_congr_left hrest]

theorem Forall.imp {p q : Place → α → Prop} {c : Conjunct α} (h : c.Forall p)
    (hpq : ∀ b x, p b x → q b x) : c.Forall q := by
  cases c with
  | comparison c => exact hpq _ _ h
  | or c₁ c₂ rest => exact fun c hc => hpq _ _ (h c hc)

theorem Forall.and {p q : Place → α → Prop} {c : Conjunct α} (hp : c.Forall p) (hq : c.Forall q) :
    c.Forall fun b x => p b x ∧ q b x := by
  cases c with
  | comparison c => exact ⟨hp, hq⟩
  | or c₁ c₂ rest => exact fun c hc => ⟨hp c hc, hq c hc⟩

theorem forall_map {f : Place → α → β} {p : Place → β → Prop} {c : Conjunct α} :
    (c.map f).Forall p ↔ c.Forall fun b x => p b (f b x) := by
  cases c <;> simp [map, Forall]

theorem forall_of {p : Place → α → Prop} (h : ∀ b x, p b x) (c : Conjunct α) : c.Forall p := by
  cases c with
  | comparison c => exact h _ _
  | or c₁ c₂ rest => exact fun c _ => h _ _

theorem isOr_map (f : Place → α → β) (c : Conjunct α) : (c.map f).isOr = c.isOr := by cases c <;> rfl

theorem holds_map (f : Place → α → β) (g : β → Bool) (c : Conjunct α) :
    (c.map f).holds g = (c.map fun p x => g (f p x)).holds id := by
  cases c <;> simp [map, holds, List.any_map, Function.comp_def]

theorem holds_map_id (h : α → Bool) (c : Conjunct α) : (c.map fun _ => h).holds id = c.holds h := by
  cases c <;> simp [map, holds]

theorem marker_map (f : Place → α → β) (c : Conjunct α) :
    (c.map f).marker = c.marker.map (f .conjunct) := by
  cases c <;> rfl

theorem nextOr_map (f : Place → α → β) (acc : List α) (c : Conjunct α) :
    (c.map f).nextOr (acc.map (f .inOr)) = (c.nextOr acc).map (f .inOr) := by
  cases c <;> simp [map, nextOr]

end Conjunct

open Conjunct

def lastOr {α : Type} (cs : List (Conjunct α)) : List α := cs.foldl nextOr []

section

variable {α β : Type}

theorem lastOr_map (f : Place → α → β) (cs : List (Conjunct α)) :
    lastOr (cs.map (Conjunct.map f)) = (lastOr cs).map (f .inOr) := by
  have hfold (acc : List α) : (cs.map (Conjunct.map f)).foldl nextOr (acc.map (f .inOr)) =
      (cs.foldl nextOr acc).map (f .inOr) := by
    induction cs generalizing acc with
    | nil => rfl
    | cons c cs ih => rw [map_cons, foldl_cons, nextOr_map, ih, foldl_cons]
  exact hfold []

theorem length_filter_isOr_map (f : Place → α → β) (cs : List (Conjunct α)) :
    ((cs.map (Conjunct.map f)).filter isOr).length = (cs.filter isOr).length := by
  have hisOr : isOr ∘ Conjunct.map f = isOr := funext (isOr_map f)
  rw [List.filter_map, List.length_map, hisOr]

theorem foldl_nextOr_eq {cs : List (Conjunct α)} (h : ∃ c ∈ cs, c.isOr = true) (acc acc' : List α) :
    cs.foldl nextOr acc = cs.foldl nextOr acc' := by
  induction cs generalizing acc acc' with
  | nil => simp at h
  | cons c cs ih =>
    cases c with
    | comparison x =>
      have hcs : ∃ c ∈ cs, c.isOr = true := by simpa [isOr] using h
      exact ih hcs acc acc'
    | or c₁ c₂ rest => rfl

theorem foldl_nextOr_of_not {cs : List (Conjunct α)} (h : ∀ c ∈ cs, c.isOr = false) (acc : List α) :
    cs.foldl nextOr acc = acc := by
  induction cs generalizing acc with
  | nil => rfl
  | cons c cs ih =>
    rw [List.forall_mem_cons] at h
    cases c with
    | comparison x => exact ih h.2 acc
    | or c₁ c₂ rest => cases h.1

theorem lastOr_eq {cs : List (Conjunct α)} (h : (cs.filter isOr).length ≤ 1) {c₁ c₂ : α} {rest : List α}
    (hmem : .or c₁ c₂ rest ∈ cs) : lastOr cs = c₁ :: c₂ :: rest := by
  obtain ⟨pre, post, rfl⟩ := List.append_of_mem hmem
  have hpost : ∀ c ∈ post, c.isOr = false := by
    have hlen : (post.filter isOr).length = 0 := by
      simp only [List.filter_append, List.filter_cons, isOr, if_true, List.length_append,
        List.length_cons] at h
      omega
    simpa using hlen
  rw [lastOr, List.foldl_append, foldl_cons, foldl_nextOr_of_not hpost, nextOr]

theorem exists_two_or {cs : List (Conjunct α)} (h : 1 < (cs.filter isOr).length) :
    ∃ pre c post, cs = pre ++ c :: post ∧ c.isOr = true ∧ ∃ c' ∈ post, c'.isOr = true := by
  induction cs with
  | nil => simp at h
  | cons c cs ih =>
    cases hc : c.isOr with
    | true =>
      rw [List.filter_cons_of_pos hc, List.length_cons] at h
      obtain ⟨c', hc'⟩ := List.exists_mem_of_length_pos (Nat.lt_of_succ_lt_succ h)
      exact ⟨[], c, cs, rfl, hc, c', List.mem_filter.mp hc'⟩
    | false =>
      rw [List.filter_cons_of_neg (by simp [hc])] at h
      obtain ⟨pre, d, post, rfl, hd, hpost⟩ := ih h
      exact ⟨c :: pre, d, post, rfl, hd, hpost⟩

end

/-! ## 読み -/

def Comparison.reading (ct : List CreateTable) (t : CreateTable) (place : Place) (c : Comparison) :
    Metadata :=
  (setCondition ct (c.textIn t place)).getD (c.metadata t)

/-- 比較の文字列が ` OR ` と紛れず、読めること。 -/
structure Comparison.Readable (ct : List CreateTable) (t : CreateTable) (place : Place)
    (c : Comparison) : Prop where
  clear : Clear " OR ".toList (c.textIn t place)
  ne_nil : c.textIn t place ≠ []
  isSome : (setCondition ct (c.textIn t place)).isSome = true

section

variable {ct : List CreateTable} {t : CreateTable}

theorem Comparison.Readable.setCondition_eq {place : Place} {c : Comparison}
    (h : c.Readable ct t place) : setCondition ct (c.textIn t place) = some (c.reading ct t place) := by
  obtain ⟨m, hm⟩ := Option.isSome_iff_exists.mp h.isSome
  rw [Comparison.reading, hm, Option.getD_some]

theorem stripParens_or (c₁ c₂ : Comparison) (rest : List Comparison) :
    stripParens ((Conjunct.or c₁ c₂ rest).text t) =
      " OR ".toList.intercalate ((c₁ :: c₂ :: rest).map (Comparison.textIn t .inOr)) := by
  have hinter (ts : List Text) : stripParens (" OR ".toList.intercalate ts) =
      " OR ".toList.intercalate (ts.map stripParens) := by
    induction ts with
    | nil => rfl
    | cons s ts ih =>
      cases ts with
      | nil => simp
      | cons s' ts =>
        rw [map_cons, map_cons, List.intercalate_cons_cons, List.intercalate_cons_cons,
          ← map_cons, ← ih]
        simp [stripParens]
  have htext : stripParens ((Conjunct.or c₁ c₂ rest).text t) =
      stripParens (" OR ".toList.intercalate ((c₁ :: c₂ :: rest).map fun c => c.text t)) := by
    simp [Conjunct.text, stripParens]
  rw [htext, hinter, List.map_map]
  rfl

theorem createORlist_eq {c₁ c₂ : Comparison} {rest : List Comparison}
    (h : (Conjunct.or c₁ c₂ rest).Forall (Comparison.Readable ct t)) :
    createORlist ct ((Conjunct.or c₁ c₂ rest).text t) =
      some ((c₁ :: c₂ :: rest).map (Comparison.reading ct t .inOr)) := by
  have hne : ∀ part ∈ (c₁ :: c₂ :: rest).map (Comparison.textIn t .inOr), part ≠ [] := by
    rw [List.forall_mem_map]
    exact fun c hc => (h c hc).ne_nil
  have hclear : ∀ part ∈ (c₁ :: c₂ :: rest).map (Comparison.textIn t .inOr),
      Clear " OR ".toList part := by
    rw [List.forall_mem_map]
    exact fun c hc => (h c hc).clear
  have hinfix : " OR ".toList <:+: " OR ".toList.intercalate
      ((c₁ :: c₂ :: rest).map (Comparison.textIn t .inOr)) :=
    infix_intercalate _ _ _ _
  have hsplit : splitText " OR ".toList (stripParens ((Conjunct.or c₁ c₂ rest).text t)) =
      (c₁ :: c₂ :: rest).map (Comparison.textIn t .inOr) := by
    rw [stripParens_or, splitText, if_pos hinfix, pieces_intercalate (by decide) (by simp) hclear,
      List.rdropWhile_eq_self_iff]
    intro hcons
    simpa using hne _ (List.getLast_mem hcons)
  rw [createORlist, hsplit, mapM_eq_some_iff, List.map_map, List.map_map]
  exact map_congr_left fun c hc => (h c hc).setCondition_eq

theorem addExpression_eq {c : Conjunct Comparison} (h : c.Forall (Comparison.Readable ct t))
    (mlist : AndOrList) :
    addExpression ct mlist (c.text t) =
      some (mlist.1 ++ [(c.map (Comparison.reading ct t)).marker],
        (c.map (Comparison.reading ct t)).nextOr mlist.2) := by
  cases c with
  | comparison c =>
    have hread : c.Readable ct t .conjunct := h
    have hno : ¬ " OR ".toList <:+: (Conjunct.comparison c).text t :=
      hread.clear.not_occurs (by decide)
    have hset : setCondition ct ((Conjunct.comparison c).text t) = some (c.reading ct t .conjunct) :=
      hread.setCondition_eq
    rw [addExpression, if_neg hno, hset]
    rfl
  | or c₁ c₂ rest =>
    have hinfix : " OR ".toList <:+: (Conjunct.or c₁ c₂ rest).text t :=
      (infix_intercalate _ _ _ _).trans (List.infix_append' ['('] _ [')'])
    rw [addExpression, if_pos hinfix, createORlist_eq h]
    rfl

theorem getSingleExpressions_eq {cs : List (Conjunct Comparison)}
    (h : ∀ c ∈ cs, c.Forall (Comparison.Readable ct t)) :
    getSingleExpressions ct (cs.map (Conjunct.text t)) =
      some ((cs.map (Conjunct.map (Comparison.reading ct t))).map marker,
        lastOr (cs.map (Conjunct.map (Comparison.reading ct t)))) := by
  have hfold (cs : List (Conjunct Comparison)) (h : ∀ c ∈ cs, c.Forall (Comparison.Readable ct t))
      (mlist : AndOrList) :
      (cs.map (Conjunct.text t)).foldlM (addExpression ct) mlist =
        some (mlist.1 ++ (cs.map (Conjunct.map (Comparison.reading ct t))).map marker,
          (cs.map (Conjunct.map (Comparison.reading ct t))).foldl nextOr mlist.2) := by
    induction cs generalizing mlist with
    | nil => simp
    | cons c cs ih =>
      rw [List.forall_mem_cons] at h
      rw [map_cons, List.foldlM_cons, addExpression_eq h.1, Option.bind_eq_bind,
        Option.bind_some, ih h.2]
      simp
  exact hfold cs h ([], [])

end

/-! ## 判定 -/

/-- 比較の結果の列についての判定。 -/
def judge (cs : List (Conjunct Outcome)) : Option Bool :=
  if cs.isEmpty then some true
  else calculateAnd (cs.map fun c => c.marker.getD (calculateOr (lastOr cs))) false

theorem calculateBoolean_eq (ms : List (Conjunct Metadata)) (record : Line) :
    calculateBoolean (ms.map marker, lastOr ms) record =
      calculateAnd ((ms.map (Conjunct.map fun _ m => m.evaluate record)).map fun c =>
        c.marker.getD (calculateOr (lastOr (ms.map (Conjunct.map fun _ m => m.evaluate record)))))
          false := by
  rw [lastOr_map, calculateBoolean, List.map_map, List.map_map]
  refine congrArg (calculateAnd · false) (map_congr_left fun c _ => ?_)
  rw [Function.comp_apply, Function.comp_apply, marker_map]
  cases c.marker <;> rfl

theorem accepts_eq {ct : List CreateTable} {t : CreateTable} {cs : List (Conjunct Comparison)}
    (h : ∀ c ∈ cs, c.Forall (Comparison.Readable ct t)) (record : Line) :
    accepts ct (cs.map (Conjunct.text t)) record =
      judge (cs.map (Conjunct.map fun p c => (c.reading ct t p).evaluate record)) := by
  have hmap : (cs.map (Conjunct.map (Comparison.reading ct t))).map
      (Conjunct.map fun _ m => m.evaluate record) =
      cs.map (Conjunct.map fun p c => (c.reading ct t p).evaluate record) := by
    rw [List.map_map]
    exact map_congr_left fun c _ => map_map _ _ c
  rw [accepts, getSingleExpressions_eq h, judge, List.isEmpty_map, List.isEmpty_map,
    Option.bind_eq_bind, Option.bind_some, calculateBoolean_eq, hmap]

theorem calculateOr_ofBool {bs : List Bool} (h : bs ≠ []) :
    calculateOr (bs.map Outcome.ofBool) = .ofBool (bs.any id) := by
  induction bs with
  | nil => exact absurd rfl h
  | cons b bs ih =>
    cases b with
    | true => rfl
    | false =>
      cases bs with
      | nil => rfl
      | cons b' bs => exact ih (List.cons_ne_nil b' bs)

theorem calculateAnd_ofBool (bs : List Bool) (result : Bool) :
    calculateAnd (bs.map Outcome.ofBool) result = some (if bs.isEmpty then result else bs.all id) := by
  induction bs generalizing result with
  | nil => rfl
  | cons b bs ih =>
    cases b with
    | true => exact (ih true).trans (by cases bs <;> rfl)
    | false => rfl

/-- **`OR` が高々一つなら、判定は条件の通りである。** -/
theorem judge_eq {cs : List (Conjunct Bool)} (h : (cs.filter isOr).length ≤ 1) :
    judge (cs.map (Conjunct.map fun _ => Outcome.ofBool)) = some (cs.all (Conjunct.holds id)) := by
  have hmap : (cs.map (Conjunct.map fun _ => Outcome.ofBool)).map (fun c => c.marker.getD
      (calculateOr (lastOr (cs.map (Conjunct.map fun _ => Outcome.ofBool))))) =
        (cs.map (Conjunct.holds id)).map Outcome.ofBool := by
    rw [List.map_map, List.map_map]
    refine map_congr_left fun c hc => ?_
    cases c with
    | comparison b => rfl
    | or b₁ b₂ bs =>
      rw [lastOr_map, lastOr_eq h hc]
      exact calculateOr_ofBool (List.cons_ne_nil _ _)
  rw [judge, hmap, calculateAnd_ofBool]
  cases cs <;> simp

theorem judge_overwritten {pre post : List (Conjunct Outcome)} {c c' : Conjunct Outcome}
    (hc : c.isOr = true) (hc' : c'.isOr = true) (h : ∃ d ∈ post, d.isOr = true) :
    judge (pre ++ c :: post) = judge (pre ++ c' :: post) := by
  have hlast : lastOr (pre ++ c :: post) = lastOr (pre ++ c' :: post) := by
    simp only [lastOr, List.foldl_append, foldl_cons]
    exact foldl_nextOr_eq h _ _
  have hmarker : c.marker = c'.marker := by
    cases c <;> cases c' <;> simp_all [isOr, marker]
  simp [judge, hlast, hmarker]

/-! ## 条件の形 -/

section

variable {S : Schema} {t : CreateTable} (ht : t ∈ S.tables) {c : Comparison} (htyped : c.WellTyped t)
  {row : List Line} {place : Place} (h : (c.kind S.tables t row place).evaluated place = true)
include ht htyped h

theorem reading_of_evaluated : c.reading S.tables t place = c.metadata t := by
  obtain ⟨hsafe, hev⟩ := evaluated_of_kind htyped h
  rw [Comparison.reading, setCondition_text ht htyped.1 hsafe hev, Option.getD_some]

theorem readable_of_evaluated (hplace : place ≠ .alone) : c.Readable S.tables t place := by
  obtain ⟨hsafe, hev⟩ := evaluated_of_kind htyped h
  refine ⟨clear_text ht htyped.1 hsafe hev hplace, ?_, ?_⟩
  · rw [Comparison.textIn_eq ht htyped.1]
    simp
  · rw [setCondition_text ht htyped.1 hsafe hev, Option.isSome_some]

end

/-- その形の条件が、どの表のどの行についても正しく評価されること。 -/
def FilterCorrect (shape : List (Conjunct Kind)) : Prop :=
  ∀ (S : Schema), ∀ t ∈ S.tables, ∀ (cs : List (Conjunct Comparison)) (r : Record t),
    (∀ c ∈ cs, c.Forall fun _ x => x.WellTyped t) →
    cs.map (Conjunct.map (Comparison.kind S.tables t r.row)) = shape →
    accepts S.tables (cs.map (Conjunct.text t)) (line r.row) =
      some (cs.all (Conjunct.holds (Comparison.holds t r.row)))

/-- 評価される種類だけからなり、`OR` が高々一つの形。 -/
def Supported (shape : List (Conjunct Kind)) : Prop :=
  (shape.filter isOr).length ≤ 1 ∧ ∀ c ∈ shape, c.Forall fun place k => k.evaluated place = true

theorem Conjunct.Forall.place {α : Type} {p : Place → α → Prop} {c : Conjunct α} (h : c.Forall p) :
    c.Forall fun place x => place ≠ .alone ∧ p place x := by
  cases c with
  | comparison c => exact ⟨by decide, h⟩
  | or c₁ c₂ rest => exact fun c hc => ⟨by decide, h c hc⟩

theorem filterCorrect_of_supported {shape : List (Conjunct Kind)} (h : Supported shape) :
    FilterCorrect shape := by
  rintro S t ht cs r htyped rfl
  have hev : ∀ c ∈ cs, c.Forall fun place x => place ≠ .alone ∧ x.WellTyped t ∧
      (x.kind S.tables t r.row place).evaluated place = true := fun c hc =>
    ((htyped c hc).and (forall_map.mp (h.2 _ (List.mem_map_of_mem hc)))).place
  have hread : ∀ c ∈ cs, c.Forall (Comparison.Readable S.tables t) := fun c hc =>
    (hev c hc).imp fun _ _ hx => readable_of_evaluated ht hx.2.1 hx.2.2 hx.1
  have hout : cs.map (Conjunct.map fun p c => (c.reading S.tables t p).evaluate (line r.row)) =
      (cs.map (Conjunct.map fun _ => Comparison.holds t r.row)).map
        (Conjunct.map fun _ => Outcome.ofBool) := by
    rw [List.map_map]
    refine map_congr_left fun c hc => ?_
    rw [Function.comp_apply, map_map]
    refine map_congr ((hev c hc).imp fun _ x hx => ?_)
    rw [reading_of_evaluated ht hx.2.1 hx.2.2]
    exact evaluate_metadata hx.2.1.1 r (evaluated_of_kind hx.2.1 hx.2.2).2
  have hlen := h.1
  rw [length_filter_isOr_map, ← length_filter_isOr_map fun _ => Comparison.holds t r.row] at hlen
  rw [accepts_eq hread, hout, judge_eq hlen, List.all_map]
  exact congrArg (fun p => some (cs.all p)) (funext fun c => holds_map_id _ c)

end Sql
