import Mathlib.Data.Fintype.Sigma
import Mathlib.Data.Fintype.Sum
import Mathlib.Tactic.DeriveFintype
import MsProjects.Sql.Properties.Filter

/-! # 評価されない条件 -/

namespace Sql

open Infra Conjunct

/-! ## 有限の型 -/

instance : Fintype Datatype where
  elems := {.string, .long, .double, .date}
  complete type := by cases type <;> decide

instance : Fintype Operator where
  elems := {.equalsTo, .notEqualsTo, .minorThan, .greaterThan, .minorThanEquals, .greaterThanEquals}
  complete operator := by cases operator <;> decide

instance : Fintype Place where
  elems := {.alone, .conjunct, .inOr}
  complete place := by cases place <;> decide

deriving instance Fintype for Kind

namespace Sample

/-! ## 標本の表と行 -/

/-- 二つ目の列は、その文字を含む一つ目の列に取り違えられる。 -/
def columns (name : Char) (type : Text) : List ColumnDefinition :=
  [['w', name], [name], [name, '0'], [name, '1'], [name, '2']].map (⟨·, type⟩)

def table : CreateTable :=
  ⟨['T'], columns 'y' ['s', 't', 'r', 'i', 'n', 'g'] ++ columns 'x' ['d', 'a', 't', 'e'] ++
    columns 'k' ['i', 'n', 't'] ++ columns 'z' ['d', 'e', 'c', 'i', 'm', 'a', 'l'] ++
    [⟨['v'], ['s', 't', 'r', 'i', 'n', 'g']⟩]⟩

/-- 型の値。 -/
def value (c : Char) : Datatype → Text
  | .date => ['1', '9', c, '0', '-', '0', '6', '-', '0', '1']
  | _ => [c]

/-- 列の値は、取り違えられる列が 0、左辺に使う列が 5、右辺に使う列が 5、9、1 である。 -/
def row : List Line :=
  [.string, .date, .long, .double].flatMap (fun type =>
    ['0', '5', '5', '9', '1'].map (value · type)) ++ [[]]

def first : Datatype → Nat
  | .string => 0
  | .date => 5
  | .long => 10
  | .double => 15

/-- 左辺の値と大小が `o` になる文字。 -/
def choose {α : Type} (eq lt gt : α) : Ordering → α
  | .eq => eq
  | .lt => lt
  | .gt => gt

/-- 演算子の値が `b` になる大小。 -/
def ordering (operator : Operator) (b : Bool) : Ordering :=
  if operator.test .eq = b then .eq else if operator.test .lt = b then .lt else .gt

def constant (type : Datatype) (s : Text) : Operand :=
  match type with
  | .string => .string s
  | .date => .date ['d', 'a', 't', 'e'] s
  | .long | .double => .number s

/-- 真偽が `b` になる、種類 `k` の比較。 -/
def comparison (k : Kind) (b : Bool) : Comparison :=
  match k with
  | .field type operator rhsColumn safe =>
    let o := ordering operator b
    ⟨first type + if safe then 2 else 1, operator,
      if rhsColumn then .column (first type + choose 2 3 4 o) else constant type
        (value (choose '5' '9' '1' o) type)⟩
  | .dropped negated => ⟨20, if negated then .notEqualsTo else .equalsTo,
    .string (if b = negated then ['5'] else [])⟩

/-! ## 標本の性質 -/

theorem ident : ∀ t ∈ [table], IsIdent t.name ∧ ∀ d ∈ t.columnDefinitions, IsIdent d.name := by
  have hnames : ∀ d ∈ table.columnDefinitions, d.name ≠ [] ∧ d.name.all isIdentChar = true := by decide
  intro t ht
  rw [List.mem_singleton.mp ht]
  refine ⟨⟨by decide, List.all_eq_true.mp (by decide)⟩, fun d hd => ?_⟩
  exact ⟨(hnames d hd).1, List.all_eq_true.mp (hnames d hd).2⟩

def schema : Schema := ⟨[table], ident⟩

theorem table_mem : table ∈ schema.tables := List.mem_singleton.mpr rfl

def record : Record table := ⟨row, rfl, by decide, by decide +kernel⟩

theorem wellTyped (k : Kind) (b : Bool) : (comparison k b).WellTyped table := by
  revert k b
  decide +kernel

theorem kind_eq (place : Place) (k : Kind) (b : Bool) :
    (comparison k b).kind [table] table row place = k := by
  revert place k b
  decide +kernel

theorem holds_eq (k : Kind) (b : Bool) : (comparison k b).holds table row = b := by
  revert k b
  decide +kernel

theorem readable (place : Place) (k : Kind) (b : Bool) :
    Clear " OR ".toList ((comparison k b).textIn table place) ∧
      (setCondition [table] ((comparison k b).textIn table place)).isSome = true := by
  revert place k b
  decide +kernel

def outcome (place : Place) (k : Kind) (b : Bool) : Outcome :=
  ((comparison k b).reading [table] table place).evaluate (line row)

theorem outcome_eq {place : Place} {k : Kind} (h : k.evaluated place = false) :
    outcome place k true = outcome place k false := by
  revert place k
  decide +kernel

/-! ## 標本の判定 -/

section

variable (truth : Place → Kind → Bool) (c : Conjunct Kind)

/-- 比較ごとの真偽を決めた標本。 -/
def conjunct : Conjunct Comparison := c.map fun place k => comparison k (truth place k)

theorem conjunct_wellTyped : (conjunct truth c).Forall fun _ x => x.WellTyped table :=
  forall_map.mpr (forall_of (fun _ _ => wellTyped _ _) c)

theorem conjunct_readable : (conjunct truth c).Forall (Comparison.Readable [table] table) := by
  refine forall_map.mpr (forall_of (fun place k => ?_) c)
  obtain ⟨hclear, hsome⟩ := readable place k (truth place k)
  refine ⟨hclear, ?_, hsome⟩
  rw [Comparison.textIn_eq table_mem (wellTyped k _).1]
  simp

theorem conjunct_kind : (conjunct truth c).map (Comparison.kind [table] table row) = c := by
  rw [conjunct, map_map, map_congr (forall_of (fun place k => kind_eq place k (truth place k)) c), map_id]

theorem conjunct_holds :
    (conjunct truth c).holds (Comparison.holds table row) = (c.map truth).holds id := by
  rw [conjunct, holds_map, map_congr (forall_of (fun place k => holds_eq k (truth place k)) c)]

theorem conjunct_outcome :
    (conjunct truth c).map (fun place x => (x.reading [table] table place).evaluate (line row)) =
      c.map fun place k => outcome place k (truth place k) := map_map _ _ c

end

theorem judge_eq_of_correct {pre post : List (Conjunct Kind)} {c : Conjunct Kind}
    (h : FilterCorrect (pre ++ c :: post)) (truth : Place → Kind → Bool) :
    judge (pre.map (map fun place k => outcome place k true) ++
        c.map (fun place k => outcome place k (truth place k)) ::
          post.map (map fun place k => outcome place k true)) =
      some ((c.map truth).holds id) := by
  have hforall {P : Conjunct Comparison → Prop} (hP : ∀ truth c, P (conjunct truth c)) :
      ∀ d ∈ pre.map (conjunct fun _ _ => true) ++ conjunct truth c ::
        post.map (conjunct fun _ _ => true), P d := by
    simp only [List.forall_mem_append, List.forall_mem_cons, List.forall_mem_map]
    exact ⟨fun d _ => hP _ d, hP truth c, fun d _ => hP _ d⟩
  have htrue (ds : List (Conjunct Kind)) : (ds.map (conjunct fun _ _ => true)).all
      (Conjunct.holds (Comparison.holds table row)) = true := by
    rw [List.all_map, List.all_eq_true]
    intro d _
    rw [Function.comp_apply, conjunct_holds]
    cases d <;> simp [map, Conjunct.holds]
  have hcorrect := h schema table table_mem _ record (hforall conjunct_wellTyped) (by
    simp only [List.map_append, List.map_cons, List.map_map, Function.comp_def]
    exact congrArg₂ _ (by simp [schema, record, conjunct_kind]) (by simp [schema, record, conjunct_kind]))
  have hrow : record.row = row := rfl
  have htables : schema.tables = [table] := rfl
  rw [htables, accepts_eq (hforall conjunct_readable), hrow, List.all_append, List.all_cons, htrue,
    htrue, conjunct_holds, Bool.and_true, Bool.true_and] at hcorrect
  simpa only [List.map_append, List.map_cons, List.map_map, Function.comp_def,
    conjunct_outcome] using hcorrect

theorem supported_of_correct {shape : List (Conjunct Kind)} (h : FilterCorrect shape) :
    Supported shape := by
  constructor
  · by_contra hlen
    obtain ⟨pre, c, post, rfl, hc, d, hd, hor⟩ := exists_two_or (Nat.lt_of_not_le hlen)
    have htrue := judge_eq_of_correct h fun _ _ => true
    have hfalse := judge_eq_of_correct h fun _ _ => false
    rw [judge_overwritten ((isOr_map _ c).trans hc) ((isOr_map _ c).trans hc)
      ⟨_, List.mem_map_of_mem hd, (isOr_map _ d).trans hor⟩, hfalse] at htrue
    cases c <;> simp [map, Conjunct.holds] at htrue
  · intro c hc
    obtain ⟨pre, post, rfl⟩ := List.append_of_mem hc
    -- 評価されない比較だけを真にした標本と、すべてを偽にした標本は区別されない。
    have hbad := judge_eq_of_correct h fun place k => !k.evaluated place
    have hfalse := judge_eq_of_correct h fun _ _ => false
    have hsame : c.map (fun place k => outcome place k (!k.evaluated place)) =
        c.map (fun place k => outcome place k false) := by
      refine map_congr (forall_of (fun place k => ?_) c)
      cases hk : k.evaluated place with
      | true => rfl
      | false => exact outcome_eq hk
    rw [hsame, hfalse] at hbad
    cases c with
    | comparison k | or k₁ k₂ rest => simpa [map, Conjunct.holds, Conjunct.Forall] using hbad

def twoOr : List (Conjunct Comparison) :=
  [.or ⟨2, .equalsTo, .string ['1']⟩ ⟨2, .equalsTo, .string ['9']⟩ [],
    .or ⟨2, .equalsTo, .string ['5']⟩ ⟨2, .equalsTo, .string ['1']⟩ []]

end Sample

/-- `setCondition` で読んだ条件を、空の `OR` の list とともに評価する。 -/
def andList (ct : List CreateTable) (ws : List Text) (record : Line) : Option Bool := do
  let ms ← ws.mapM (setCondition ct)
  calculateBoolean (ms.map some, []) record

/-- その種類の条件の列が、どの表のどの行についても正しく評価されること。 -/
def AndListCorrect (kinds : List Kind) : Prop :=
  ∀ (S : Schema), ∀ t ∈ S.tables, ∀ (cs : List Comparison) (r : Record t),
    (∀ c ∈ cs, c.WellTyped t) → cs.map (Comparison.kind S.tables t r.row .alone) = kinds →
    andList S.tables (cs.map (Comparison.text t)) (line r.row) =
      some (cs.all (Comparison.holds t r.row))

theorem andList_eq {ct : List CreateTable} {t : CreateTable} {cs : List Comparison}
    (h : ∀ c ∈ cs, (setCondition ct (c.textIn t .alone)).isSome = true) (record : Line) :
    andList ct (cs.map (Comparison.text t)) record =
      calculateAnd (cs.map fun c => (c.reading ct t .alone).evaluate record) false := by
  have hread : (cs.map (Comparison.text t)).mapM (setCondition ct) =
      some (cs.map (Comparison.reading ct t .alone)) := by
    rw [mapM_eq_some_iff, List.map_map, List.map_map]
    refine List.map_congr_left fun c hc => ?_
    obtain ⟨m, hm⟩ := Option.isSome_iff_exists.mp (h c hc)
    rw [Function.comp_apply, Function.comp_apply, Comparison.reading, hm]
    exact hm
  rw [andList, hread, Option.bind_eq_bind, Option.bind_some, calculateBoolean]
  simp only [List.map_map, Function.comp_def, Option.elim_some]

theorem andListCorrect_of_evaluated {kinds : List Kind} (hne : kinds ≠ [])
    (h : ∀ k ∈ kinds, k.evaluated .alone = true) : AndListCorrect kinds := by
  rintro S t ht cs r htyped rfl
  have hev (c : Comparison) (hc : c ∈ cs) := h _ (List.mem_map_of_mem hc)
  have hout : cs.map (fun c => (c.reading S.tables t .alone).evaluate (line r.row)) =
      (cs.map (Comparison.holds t r.row)).map Outcome.ofBool := by
    rw [List.map_map]
    refine List.map_congr_left fun c hc => ?_
    rw [reading_of_evaluated ht (htyped c hc) (hev c hc)]
    exact evaluate_metadata (htyped c hc).1 r (evaluated_of_kind (htyped c hc) (hev c hc)).2
  have hcs : cs ≠ [] := fun hnil => hne (by rw [hnil, List.map_nil])
  rw [andList_eq, hout, calculateAnd_ofBool]
  · simp [hcs]
  · intro c hc
    obtain ⟨hsafe, hc'⟩ := evaluated_of_kind (htyped c hc) (hev c hc)
    rw [setCondition_text ht (htyped c hc).1 hsafe hc', Option.isSome_some]

end Sql
