import MsProjects.Sql.Properties.Record
import MsProjects.Sql.Condition

/-! # 条件の読み戻し -/

namespace Sql

open Infra List Function Operand Metadata Option

/-! ## 名前 -/

/-- 表や列の名前に使える文字。 -/
def isIdentChar (c : Char) : Bool := c.isAlphanum || c = '_'

def IsIdent (s : Text) : Prop := s ≠ [] ∧ ∀ c ∈ s, isIdentChar c = true

theorem IsIdent.notMem {s : Text} (h : IsIdent s) {c : Char} (hc : isIdentChar c = false) : c ∉ s :=
  fun hmem => Bool.false_ne_true (hc ▸ h.2 c hmem)

theorem space_lt_of_isIdentChar {c : Char} (h : isIdentChar c = true) : ' ' < c := by
  rw [isIdentChar, Bool.or_eq_true, decide_eq_true_eq] at h
  rcases h with h | rfl
  · delta Char.isAlphanum Char.isAlpha Char.isUpper Char.isLower Char.isDigit at h
    simp only [Bool.or_eq_true, Bool.and_eq_true, decide_eq_true_eq, Char.lt_def, UInt32.le_iff_toNat_le,
      UInt32.lt_iff_toNat_lt, ge_iff_le] at h ⊢
    simp at h ⊢
    omega
  · decide

theorem toLower_ne_quote {c : Char} (h : isIdentChar c = true) : c.toLower ≠ '\'' := by
  intro hquote
  delta Char.toLower at hquote
  split at hquote
  · next hupper =>
    have hval := congrArg (fun c : Char => c.val.toNat) hquote
    simp [UInt32.le_iff_toNat_le, UInt32.toNat_add] at hval hupper
    omega
  · rw [hquote] at h
    exact absurd h (by decide)

structure Schema where
  tables : List CreateTable
  ident : ∀ t ∈ tables, IsIdent t.name ∧ ∀ d ∈ t.columnDefinitions, IsIdent d.name

/-! ## 比較の種類 -/

/-- 比較の置かれる所。 -/
inductive Place where
  /-- 文字列が直に `setCondition` に渡る。 -/
  | alone
  /-- `WHERE` の条件である。 -/
  | conjunct
  /-- `OR` の中にある。 -/
  | inOr
  deriving DecidableEq, Repr

/-- `setCondition` が右辺を取り違えないこと。 -/
def Operand.safe (ct : List CreateTable) (t : CreateTable) (operator : Operator) : Operand → Bool
  | .string s => '=' ∉ s ∧ '\'' ∉ s ∧ (operator = .notEqualsTo → ¬ ['<', '>'] <:+: s)
  | .date fn _ => fn = "date".toList || fn = "DATE".toList
  | .number _ => true
  | .column i => getColNumber ct (t.columnText i) = some (some i)

def Comparison.safe (ct : List CreateTable) (t : CreateTable) (c : Comparison) : Bool :=
  getColNumber ct (t.columnText c.lhs) = some (some c.lhs) &&
    getDatatype ct (t.columnText c.lhs) = some (t.typeOf c.lhs) && c.rhs.safe ct t c.operator

/-- ` OR ` での分割と括弧の除去が、定数を変えないこと。 -/
def Operand.plain : Place → Operand → Bool
  | .conjunct, .string s => ¬ " OR ".toList <:+: s
  | .inOr, .string s => ¬ " OR ".toList <:+: s ∧ '(' ∉ s ∧ ')' ∉ s
  | _, _ => true

def Operand.isColumn : Operand → Bool
  | .column _ => true
  | _ => false

/-- 比較の種類。 -/
inductive Kind where
  /-- 列の型と演算子、右辺が列か、取り違えられないか。 -/
  | field (datatype : Datatype) (operator : Operator) (rhsColumn safe : Bool)
  /-- 文字列の列と定数の `=` と `<>` で、列の欄が末尾の空の欄とともに落ちるもの。 -/
  | dropped (negated : Bool)
  deriving DecidableEq, Repr

def Operator.isEquality (operator : Operator) : Bool :=
  operator = .equalsTo || operator = .notEqualsTo

def Comparison.kind (ct : List CreateTable) (t : CreateTable) (row : List Line) (place : Place)
    (c : Comparison) : Kind :=
  if t.typeOf c.lhs = .string ∧ c.rhs.isColumn = false ∧ c.operator.isEquality = true ∧
      ∀ f ∈ row.drop c.lhs, f = [] then
    .dropped (c.operator = .notEqualsTo)
  else .field (t.typeOf c.lhs) c.operator c.rhs.isColumn (c.safe ct t && c.rhs.plain place)

/-- `calculateBoolean` の評価する種類。 -/
def Kind.evaluated (place : Place) : Kind → Bool
  | .field .string operator rhsColumn safe => safe && !rhsColumn && operator.isEquality
  | .field .date _ rhsColumn safe => safe && (rhsColumn || place ≠ .inOr)
  | _ => false

/-- 評価される比較。 -/
inductive Evaluated (ct : List CreateTable) (t : CreateTable) (row : List Line) (place : Place) :
    Comparison → Prop where
  | string {lhs : Nat} {operator : Operator} {s : Text} : t.typeOf lhs = .string →
      operator = .equalsTo ∨ operator = .notEqualsTo → (∃ f ∈ row.drop lhs, f ≠ []) →
      (Operand.string s).plain place = true → Evaluated ct t row place ⟨lhs, operator, .string s⟩
  | date {lhs : Nat} {operator : Operator} {fn d : Text} : t.typeOf lhs = .date →
      (parseDate d).isSome → place ≠ .inOr → Evaluated ct t row place ⟨lhs, operator, .date fn d⟩
  | column {lhs i : Nat} {operator : Operator} : t.typeOf lhs = .date → i < t.columnDefinitions.length →
      t.typeOf i = .date → Evaluated ct t row place ⟨lhs, operator, .column i⟩

theorem evaluated_of_kind {ct : List CreateTable} {t : CreateTable} {row : List Line} {place : Place}
    {c : Comparison} (htyped : c.WellTyped t) (h : (c.kind ct t row place).evaluated place = true) :
    c.safe ct t = true ∧ Evaluated ct t row place c := by
  obtain ⟨lhs, operator, rhs⟩ := c
  rw [Comparison.kind] at h
  split at h
  · cases h
  · rename_i hkept
    obtain ⟨-, hrhs⟩ := htyped
    cases rhs with
    | string s =>
      have htype : t.typeOf lhs = .string := hrhs
      simp only [htype, Kind.evaluated, Operand.isColumn, Bool.and_eq_true] at h
      refine ⟨h.1.1.1, .string htype (by simpa [Operator.isEquality] using h.2) ?_ h.1.1.2⟩
      by_contra hall
      push Not at hall
      exact hkept ⟨htype, rfl, h.2, hall⟩
    | date fn d =>
      obtain ⟨htype, -, hd⟩ := hrhs
      have htype : t.typeOf lhs = .date := htype
      simp only [htype, Kind.evaluated, Operand.isColumn, Bool.and_eq_true, Bool.false_or,
        decide_eq_true_eq] at h
      exact ⟨h.1.1, .date htype hd h.2⟩
    | number s =>
      obtain ⟨hnumber, -⟩ := hrhs
      rcases hnumber with htype | htype <;>
      · have htype : t.typeOf lhs = _ := htype
        rw [htype] at h
        cases h
    | column i =>
      obtain ⟨hi, htype⟩ := hrhs
      cases hlhs : t.typeOf lhs with
      | date =>
        simp only [hlhs, Kind.evaluated, Bool.and_eq_true] at h
        exact ⟨h.1.1, .column hlhs hi (htype.trans hlhs)⟩
      | string | long | double => simp [hlhs, Kind.evaluated, Operand.isColumn] at h

def Comparison.metadata (t : CreateTable) (c : Comparison) : Metadata where
  operator := c.operator
  datatype := t.typeOf c.lhs
  lhscol := some c.lhs
  rhscol := match c.rhs with
    | .column i => some i
    | _ => none
  rhs := match c.rhs with
    | .string s => s
    | .date _ d => d
    | .number s => s
    | .column i => t.columnText i
  rhsdate := match c.rhs with
    | .date _ d => parseDate d
    | _ => none

/-! ## 演算子 -/

/-- 演算子の文字を含まないこと。 -/
def OperatorFree (s : Text) : Prop := '=' ∉ s ∧ '<' ∉ s ∧ '>' ∉ s

/-- 右辺 `s` の文字が、演算子 `op` を取り違えさせないこと。 -/
structure Operator.Reads (op : Operator) (s : Text) : Prop where
  equals : '=' ∉ s
  angles : op = .equalsTo ∨ op = .notEqualsTo ∨ '<' ∉ s ∧ '>' ∉ s
  notEquals : op = .notEqualsTo → ¬ ['<', '>'] <:+: s

theorem OperatorFree.reads {s : Text} (h : OperatorFree s) (op : Operator) : op.Reads s :=
  ⟨h.1, .inr (.inr h.2), fun _ hin => h.2.1 (hin.subset mem_cons_self)⟩

theorem infix_append_of_head_notMem {c : Char} {p x y : Text} (h : c ∉ x) (hin : c :: p <:+: x ++ y) :
    c :: p <:+: y := by
  induction x with
  | nil => exact hin
  | cons d x ih =>
    obtain ⟨hd, hx⟩ := not_or.mp (mem_cons.not.mp h)
    rcases infix_cons_iff.mp hin with hpre | hin
    · exact absurd (cons_prefix_cons.mp hpre).1 hd
    · exact ih hx hin

theorem findOperator_eq {a b : Text} {op : Operator} (ha : OperatorFree a) (hb : op.Reads b) :
    findOperator (a ++ (op.text ++ b)) = some op := by
  obtain ⟨ha₁, ha₂, ha₃⟩ := ha
  have hmiss {c : Char} {p s : Text} (hc : c ∈ p) (h : c ∉ s) : ¬ p <:+: s := fun hin => h (hin.subset hc)
  have hop := infix_append' a op.text b
  have heq := hb.equals
  cases op with
  | equalsTo =>
    have hpair {c : Char} (hc : c ∉ a) (hne : c ≠ '=') : ¬ [c, '='] <:+: a ++ '=' :: b := by
      intro hin
      rcases infix_cons_iff.mp (infix_append_of_head_notMem hc hin) with hpre | hin
      · exact hne (cons_prefix_cons.mp hpre).1
      · exact hmiss (mem_cons_of_mem c mem_cons_self) heq hin
    exact (if_pos hop).trans ((if_neg (hpair ha₂ (by decide))).trans (if_neg (hpair ha₃ (by decide))))
  | notEqualsTo =>
    exact (if_neg (by simp [singleton_infix_iff, ha₁, heq, Operator.text])).trans (if_pos hop)
  | minorThan =>
    obtain ⟨-, hgt⟩ : '<' ∉ b ∧ '>' ∉ b := by simpa using hb.angles
    have hnone : ¬ ['<', '>'] <:+: a ++ '<' :: b := hmiss (c := '>') (by simp) (by simp [ha₃, hgt])
    simp [findOperator, singleton_infix_iff, ha₁, heq, hnone, Operator.text]
  | greaterThan =>
    obtain ⟨hlt, -⟩ : '<' ∉ b ∧ '>' ∉ b := by simpa using hb.angles
    have hnone : ¬ ['<', '>'] <:+: a ++ '>' :: b := hmiss (c := '<') (by simp) (by simp [ha₂, hlt])
    simp [findOperator, singleton_infix_iff, ha₁, heq, ha₂, hlt, hnone, Operator.text]
  | minorThanEquals => exact (if_pos (by simp [singleton_infix_iff, Operator.text])).trans (if_pos hop)
  | greaterThanEquals =>
    obtain ⟨hlt, -⟩ : '<' ∉ b ∧ '>' ∉ b := by simpa using hb.angles
    refine (if_pos (by simp [singleton_infix_iff, Operator.text])).trans
      ((if_neg (hmiss (c := '<') mem_cons_self ?_)).trans (if_pos hop))
    simp [ha₂, hlt, Operator.text]

theorem splitText_operator {a b : Text} {op : Operator} (ha : OperatorFree a) (hb : op.Reads b)
    (hne : b ≠ []) : splitText op.text (a ++ (op.text ++ b)) = [a, b] := by
  obtain ⟨c, rest, hop, hca⟩ : ∃ c rest, op.text = c :: rest ∧ c ∉ a := by
    obtain ⟨ha₁, ha₂, ha₃⟩ := ha
    cases op <;> exact ⟨_, _, rfl, by assumption⟩
  have hnot : ¬ op.text <:+: b := by
    intro hin
    cases op with
    | equalsTo => exact hb.equals (hin.subset mem_cons_self)
    | notEqualsTo => exact hb.notEquals rfl hin
    | minorThan | greaterThan | minorThanEquals | greaterThanEquals =>
      obtain ⟨hlt, hgt⟩ : '<' ∉ b ∧ '>' ∉ b := by simpa using hb.angles
      first | exact hlt (hin.subset mem_cons_self) | exact hgt (hin.subset mem_cons_self)
  have hpieces : pieces op.text (a ++ (op.text ++ b)) = [a, b] := by
    rw [hop, pieces_append (cons_ne_nil c rest) (.of_head_notMem hca), ← hop, pieces_of_not_infix hnot]
  rw [splitText, if_pos (infix_append' a op.text b), hpieces]
  simp [rdropWhile, hne]

/-! ## 空白 -/

def Trimmed (s : Text) : Prop :=
  (∀ c, s.head? = some c → ' ' < c) ∧ ∀ c, s.getLast? = some c → ' ' < c

theorem not_le_space {c : Char} (h : ' ' < c) : decide (c ≤ ' ') = false :=
  decide_eq_false (Char.not_le.mpr h)

theorem dropWhile_trimmed {s : Text} (h : Trimmed s) (hne : s ≠ []) (u : Text) :
    (s ++ u).dropWhile (· ≤ ' ') = s ++ u := by
  obtain ⟨c, s, rfl⟩ := exists_cons_of_ne_nil hne
  rw [cons_append, dropWhile_cons_of_neg (by simpa using h.1 c rfl)]

theorem rdropWhile_trimmed {s : Text} (h : Trimmed s) : s.rdropWhile (· ≤ ' ') = s := by
  rw [rdropWhile_eq_self_iff]
  intro hne
  rw [not_le_space (h.2 _ (getLast?_eq_getLast_of_ne_nil hne))]
  exact Bool.false_ne_true

theorem trim_append_space {s : Text} (h : Trimmed s) (hne : s ≠ []) : trim (s ++ [' ']) = s := by
  rw [trim, dropWhile_trimmed h hne, rdropWhile_concat_pos _ _ _ (by decide), rdropWhile_trimmed h]

theorem trim_space_cons {s : Text} (h : Trimmed s) (hne : s ≠ []) : trim (' ' :: s) = s := by
  have hdrop := dropWhile_trimmed h hne []
  rw [append_nil] at hdrop
  rw [trim, dropWhile_cons_of_pos (by decide), hdrop, rdropWhile_trimmed h]

theorem setCondition_append {ct : List CreateTable} {lhs rhs : Text} (hl : OperatorFree lhs)
    {op : Operator} (hr : op.Reads rhs) (tl : Trimmed lhs) (tr : Trimmed rhs) (nl : lhs ≠ [])
    (nr : rhs ≠ []) :
    setCondition ct (lhs ++ ' ' :: (op.text ++ ' ' :: rhs)) = metadataOf ct op lhs rhs := by
  have hl' : OperatorFree (lhs ++ [' ']) := by
    obtain ⟨h₁, h₂, h₃⟩ := hl
    exact ⟨by simp [h₁], by simp [h₂], by simp [h₃]⟩
  have hr' : op.Reads (' ' :: rhs) := by
    refine ⟨by simp [hr.equals], by simpa using hr.angles, fun hop hin => hr.notEquals hop ?_⟩
    exact infix_append_of_head_notMem (x := [' ']) (by decide) hin
  have htext : lhs ++ ' ' :: (op.text ++ ' ' :: rhs) =
      (lhs ++ [' ']) ++ (op.text ++ ' ' :: rhs) := by simp
  rw [setCondition, htext, findOperator_eq hl' hr']
  simp only [bind_eq_bind, bind_some,
    splitText_operator hl' hr' (cons_ne_nil ' ' rhs), getElem?_cons_zero,
    getElem?_cons_succ, trim_append_space tl nl, trim_space_cons tr nr]

/-! ## 列の名前 -/

section

variable {S : Schema} {t : CreateTable} (ht : t ∈ S.tables) {i : Nat}
  (hi : i < t.columnDefinitions.length)
include ht hi

theorem columnText_eq : ∃ n, IsIdent n ∧ t.columnText i = t.name ++ '.' :: n := by
  refine ⟨_, (S.ident t ht).2 _ (getElem_mem hi), ?_⟩
  rw [CreateTable.columnText, getElem?_eq_getElem hi]
  rfl

theorem columnText_notMem {c : Char} (hc : isIdentChar c = false) (hdot : c ≠ '.') :
    c ∉ t.columnText i := by
  obtain ⟨n, hn, htext⟩ := columnText_eq ht hi
  rw [htext]
  simp [(S.ident t ht).1.notMem hc, hn.notMem hc, hdot]

theorem columnText_trimmed : Trimmed (t.columnText i) := by
  obtain ⟨n, hn, htext⟩ := columnText_eq ht hi
  have hname := (S.ident t ht).1
  rw [htext]
  constructor
  · intro c hc
    rw [head?_append_of_ne_nil _ hname.1] at hc
    exact space_lt_of_isIdentChar (hname.2 c (mem_of_mem_head? hc))
  · intro c hc
    obtain ⟨d, n', rfl⟩ := exists_cons_of_ne_nil hn.1
    have hlast : (d :: n').getLast? = some c := by simpa [getLast?_cons] using hc
    exact space_lt_of_isIdentChar (hn.2 c (mem_of_getLast? hlast))

theorem columnText_ne_nil : t.columnText i ≠ [] := by
  obtain ⟨n, -, htext⟩ := columnText_eq ht hi
  simp [htext]

theorem setCondition_column {rhs : Text} {op : Operator} (hr : op.Reads rhs) (tr : Trimmed rhs)
    (nr : rhs ≠ []) :
    setCondition S.tables (t.columnText i ++ ' ' :: (op.text ++ ' ' :: rhs)) =
      metadataOf S.tables op (t.columnText i) rhs := by
  have hnot {c : Char} := @columnText_notMem S t ht i hi c
  exact setCondition_append
    ⟨hnot (by decide) (by decide), hnot (by decide) (by decide), hnot (by decide) (by decide)⟩ hr
    (columnText_trimmed ht hi) tr (columnText_ne_nil ht hi) nr

end

theorem splitText_dot {a b : Text} (ha : '.' ∉ a) {c : Char} (hc : c ∈ b) (hdot : c ≠ '.') :
    ∃ p rest, splitText ['.'] (a ++ '.' :: b) = a :: p :: rest := by
  have hpieces : pieces ['.'] (a ++ '.' :: b) = [a] ++ pieces ['.'] b :=
    pieces_append (cons_ne_nil _ _) (.of_head_notMem ha) b
  obtain ⟨p, hp, hcp⟩ := exists_mem_pieces hdot hc
  have hex : ∃ f ∈ pieces ['.'] b, f ≠ [] := ⟨p, hp, ne_nil_of_mem hcp⟩
  obtain ⟨p', rest, hrest⟩ := exists_cons_of_ne_nil (trimRow_ne_nil hex)
  refine ⟨p', rest, ?_⟩
  have hinfix : ['.'] <:+: a ++ '.' :: b := infix_append' a ['.'] b
  rw [splitText, if_pos hinfix, hpieces]
  exact (trimRow_append hex).trans (by rw [hrest]; rfl)

theorem equalsIgnoreCase_quoted {name : Text} (h : IsIdent name) (a : Text) :
    equalsIgnoreCase name ('\'' :: a) = false := by
  obtain ⟨c, name, rfl⟩ := exists_cons_of_ne_nil h.1
  have hc := toLower_ne_quote (h.2 c mem_cons_self)
  have hquote : Char.toLower '\'' = '\'' := by decide
  simp [equalsIgnoreCase, hquote, hc]

theorem getColNumber_quoted (S : Schema) (s : Text) :
    getColNumber S.tables ('\'' :: (s ++ ['\''])) = some none := by
  rw [getColNumber]
  split
  · next hdot =>
    obtain ⟨a, b, hab, ha⟩ := eq_append_cons_of_mem hdot
    obtain ⟨a', rfl⟩ : ∃ a', a = '\'' :: a' := by
      cases a with
      | nil => exact absurd (cons.inj hab).1 (by decide)
      | cons c a => exact ⟨a, by rw [(cons.inj hab).1]⟩
    have hb : '\'' ∈ b := by
      have hlast := congrArg getLast? hab
      cases b with
      | nil => simp [getLast?_cons] at hlast
      | cons d b => exact mem_of_getLast? (by simpa [getLast?_cons] using hlast.symm)
    obtain ⟨p, rest, hsplit⟩ := splitText_dot ha hb (by decide)
    have hnone : (S.tables.filter fun t => equalsIgnoreCase t.name ('\'' :: a')) = [] :=
      filter_eq_nil_iff.mpr fun t ht => by
        simp [equalsIgnoreCase_quoted (S.ident t ht).1 a']
    rw [hab, hsplit]
    simp [hnone]
  · rfl

/-! ## 定数 -/

theorem escape_eq {s : Text} (h : '\'' ∉ s) : escape s = s := by
  induction s with
  | nil => rfl
  | cons c s ih =>
    obtain ⟨hc, hs⟩ : '\'' ≠ c ∧ '\'' ∉ s := by simpa using h
    rw [escape, flatMap_cons, if_neg (Ne.symm hc)]
    exact congrArg (c :: ·) (ih hs)

theorem unquote_quoted (s : Text) : unquote ('\'' :: (s ++ ['\''])) = some s := by
  simp [unquote]

theorem parseDate_chars {d : Text} (h : (parseDate d).isSome) :
    ∀ c ∈ d, c.isDigit = true ∨ c = '-' := by
  have hdigit {c : Char} {n : Nat} (hc : digit c = some n) : c.isDigit = true := by
    rw [digit] at hc
    split at hc
    · assumption
    · cases hc
  rw [parseDate.eq_def] at h
  split at h
  · obtain ⟨n, hn⟩ := isSome_iff_exists.mp h
    simp only [bind_eq_bind, bind_eq_some_iff] at hn
    obtain ⟨_, h₁, _, h₂, _, h₃, _, h₄, _, h₅, _, h₆, _, h₇, _, h₈, -⟩ := hn
    simp [hdigit h₁, hdigit h₂, hdigit h₃, hdigit h₄, hdigit h₅, hdigit h₆, hdigit h₇, hdigit h₈]
  · cases h

theorem parseDate_notMem {d : Text} (h : (parseDate d).isSome) {c : Char} (hc : c.isDigit = false)
    (hdash : c ≠ '-') : c ∉ d := by
  intro hmem
  rcases parseDate_chars h c hmem with hdigit | rfl
  · exact Bool.false_ne_true (hc ▸ hdigit)
  · exact hdash rfl

theorem removeText_of_head_notMem {c : Char} {rest s : Text} (h : c ∉ s) :
    removeText (c :: rest) s = s := by
  rw [removeText, pieces_of_not_infix ((Clear.of_head_notMem h).not_occurs (cons_ne_nil _ _))]
  simp

theorem removeText_append {c : Char} {rest a b : Text} (h : c ∉ a) :
    removeText (c :: rest) (a ++ (c :: rest ++ b)) = a ++ removeText (c :: rest) b := by
  rw [removeText, pieces_append (cons_ne_nil _ _) (.of_head_notMem h), flatten_cons, removeText]

theorem dateText_eq {fn d : Text} (hfn : fn = "date".toList ∨ fn = "DATE".toList)
    (hd : (parseDate d).isSome) : dateText (fn ++ ('(' :: '\'' :: (d ++ ['\'', ')']))) = d := by
  have hlower : 'd' ∉ d ++ ['\'', ')'] := by simp [parseDate_notMem hd]
  have hupper : 'D' ∉ d ++ ['\'', ')'] := by simp [parseDate_notMem hd]
  have hquote : '\'' ∉ d := parseDate_notMem hd (by decide) (by decide)
  have hclose : removeText "')".toList (d ++ ['\'', ')']) = d :=
    (removeText_append (b := []) hquote).trans (append_nil d)
  have hopen : removeText "DATE('".toList (removeText "date('".toList
      (fn ++ ('(' :: '\'' :: (d ++ ['\'', ')'])))) = d ++ ['\'', ')'] := by
    rcases hfn with rfl | rfl
    · have hremove : removeText "date('".toList ("date('".toList ++ (d ++ ['\'', ')'])) =
          d ++ ['\'', ')'] :=
        (removeText_append (a := []) not_mem_nil).trans (removeText_of_head_notMem hlower)
      exact (congrArg _ hremove).trans (removeText_of_head_notMem hupper)
    · have hno : 'd' ∉ "DATE('".toList ++ (d ++ ['\'', ')']) := by simpa using hlower
      have hkeep : removeText "date('".toList ("DATE('".toList ++ (d ++ ['\'', ')'])) =
          "DATE('".toList ++ (d ++ ['\'', ')']) := removeText_of_head_notMem hno
      exact (congrArg _ hkeep).trans
        ((removeText_append (a := []) not_mem_nil).trans (removeText_of_head_notMem hupper))
  rw [dateText, hopen, hclose]

/-! ### ` OR ` との重なり -/

theorem clear_append_iff {a b : Text} (h : ' ' ∉ a) :
    Clear " OR ".toList (a ++ b) ↔ Clear " OR ".toList b := by
  induction a with
  | nil => rfl
  | cons c a ih =>
    obtain ⟨hc, ha⟩ : ' ' ≠ c ∧ ' ' ∉ a := by simpa using h
    rw [cons_append, clear_cons_iff, ih ha]
    refine and_iff_right ⟨fun hpre => ?_, fun hpre => ?_⟩
    · exact hc (cons_prefix_cons.mp hpre).1
    · exact hc (cons_prefix_cons.mp hpre).1.symm

theorem clear_append_quote {s : Text} (h : ¬ " OR ".toList <:+: s) :
    Clear " OR ".toList (s ++ ['\'']) := by
  have hquote : '\'' ∉ " OR ".toList := by decide
  induction s with
  | nil => exact .of_head_notMem (by decide)
  | cons c s ih =>
    refine clear_cons_iff.mpr ⟨⟨fun hpre => ?_, fun hpre => ?_⟩,
      ih fun hin => h (infix_cons_iff.mpr (.inr hin))⟩
    · rcases prefix_concat_iff.mp (show _ <+: (c :: s) ++ ['\''] from hpre) with heq | hpre
      · exact hquote (heq ▸ mem_append_right _ mem_cons_self)
      · exact h hpre.isInfix
    · exact hquote (hpre.subset (mem_cons_of_mem c (mem_append_right s mem_cons_self)))

theorem clear_comparison_iff {S : Schema} {t : CreateTable} (ht : t ∈ S.tables) {i : Nat}
    (hi : i < t.columnDefinitions.length) {op : Operator} {rhs : Text} :
    Clear " OR ".toList (t.columnText i ++ ' ' :: (op.text ++ ' ' :: rhs)) ↔
      Clear " OR ".toList (' ' :: rhs) := by
  have hop : ' ' ∉ op.text ∧ ∀ s, ¬ " OR ".toList <+: ' ' :: (op.text ++ s) ∧
      ¬ ' ' :: (op.text ++ s) <+: " OR ".toList := by
    cases op <;> simp [Operator.text]
  rw [clear_append_iff (columnText_notMem ht hi (by decide) (by decide)), clear_cons_iff,
    clear_append_iff hop.1]
  exact and_iff_right (hop.2 _)

theorem Operand.text_date {t : CreateTable} {fn d : Text}
    (hfn : fn = "date".toList ∨ fn = "DATE".toList) (hd : (parseDate d).isSome) {c : Char}
    (hc : c ∉ "dateDATE()'-".toList) (hdigit : c.isDigit = false) :
    c ∉ (date fn d).text t := by
  have hdash : c ≠ '-' := by
    rintro rfl
    exact hc (by decide)
  have hmem := parseDate_notMem hd hdigit hdash
  rcases hfn with rfl | rfl <;> simp_all [text]

theorem Operand.text_string {ct : List CreateTable} {t : CreateTable} {operator : Operator} {s : Text}
    (h : (string s).safe ct t operator = true) :
    (string s).text t = '\'' :: (s ++ ['\'']) ∧ '=' ∉ s ∧
      (operator = .notEqualsTo → ¬ ['<', '>'] <:+: s) := by
  rw [safe, decide_eq_true_eq] at h
  rw [text, escape_eq h.2.1]
  exact ⟨rfl, h.1, h.2.2⟩

theorem infix_quoted_iff {p s : Text} (h : '\'' ∉ p) (hne : p ≠ []) :
    p <:+: '\'' :: (s ++ ['\'']) ↔ p <:+: s := by
  refine ⟨fun hin => ?_, fun hin => hin.trans (infix_append' ['\''] s ['\''])⟩
  obtain ⟨c, p, rfl⟩ := exists_cons_of_ne_nil hne
  have hin := infix_append_of_head_notMem (x := ['\''])
    (fun hc => h (mem_singleton.mp hc ▸ mem_cons_self)) hin
  rcases infix_concat_iff.mp hin with hsuf | hin
  · have hlast := hsuf.getLast (cons_ne_nil c p)
    rw [getLast_concat] at hlast
    exact absurd (hlast ▸ getLast_mem _) h
  · exact hin
/-! ## 比較の読み戻し -/

/-- `setCondition` に渡る文字列。 -/
def textIn (place : Place) (s : Text) : Text := if place = .inOr then stripParens s else s

def Comparison.textIn (t : CreateTable) (place : Place) (c : Comparison) : Text :=
  Sql.textIn place (c.text t)

theorem textIn_eq_self {s : Text} (h : '(' ∉ s ∧ ')' ∉ s) (place : Place) : textIn place s = s := by
  rw [textIn]
  split
  · rw [stripParens, filter_eq_self]
    intro d hd
    have hopen : d ≠ '(' := fun heq => h.1 (heq ▸ hd)
    have hclose : d ≠ ')' := fun heq => h.2 (heq ▸ hd)
    simp [hopen, hclose]
  · rfl

theorem textIn_append (place : Place) (a b : Text) :
    textIn place (a ++ b) = textIn place a ++ textIn place b := by
  cases place <;> simp [textIn, stripParens]

section

variable {S : Schema} {t : CreateTable} (ht : t ∈ S.tables) {c : Comparison}
  (hlhs : c.lhs < t.columnDefinitions.length)
include ht hlhs

theorem Comparison.textIn_eq (place : Place) :
    c.textIn t place =
      t.columnText c.lhs ++ ' ' :: (c.operator.text ++ ' ' :: Sql.textIn place (c.rhs.text t)) := by
  have hcol : Sql.textIn place (t.columnText c.lhs) = t.columnText c.lhs :=
    textIn_eq_self ⟨columnText_notMem ht hlhs (by decide) (by decide),
      columnText_notMem ht hlhs (by decide) (by decide)⟩ place
  have hop : Sql.textIn place (' ' :: (c.operator.text ++ [' '])) = ' ' :: (c.operator.text ++ [' ']) :=
    textIn_eq_self (by cases c.operator <;> decide) place
  have htext : c.text t =
      t.columnText c.lhs ++ (' ' :: (c.operator.text ++ [' ']) ++ c.rhs.text t) := by
    simp [Comparison.text]
  rw [Comparison.textIn, htext, textIn_append, textIn_append, hcol, hop]
  simp

variable {row : List Line} {place : Place} (hsafe : c.safe S.tables t = true)
  (h : Evaluated S.tables t row place c)
include hsafe h

theorem textIn_of_evaluated : c.textIn t place = c.text t := by
  rw [Comparison.textIn_eq ht hlhs, Comparison.text]
  suffices hright : textIn place (c.rhs.text t) = c.rhs.text t by rw [hright]
  cases h with
  | string _ _ _ hplain =>
    cases place with
    | alone | conjunct => rfl
    | inOr =>
      obtain ⟨htext, -, -⟩ := text_string (Bool.and_eq_true_iff.mp hsafe).2
      rw [Operand.plain, decide_eq_true_eq] at hplain
      rw [htext]
      exact textIn_eq_self (by simp [hplain.2.1, hplain.2.2]) _
  | date _ _ hplace => exact if_neg hplace
  | column _ hi _ =>
    exact textIn_eq_self ⟨columnText_notMem ht hi (by decide) (by decide),
      columnText_notMem ht hi (by decide) (by decide)⟩ place

omit hlhs in
theorem rhs_text : c.operator.Reads (c.rhs.text t) ∧ Trimmed (c.rhs.text t) ∧ c.rhs.text t ≠ [] := by
  have hsafe := (Bool.and_eq_true_iff.mp hsafe).2
  cases h with
  | string _ hop _ _ =>
    obtain ⟨htext, hequals, hangles⟩ := text_string hsafe
    rw [htext]
    refine ⟨⟨by simp [hequals], hop.imp_right .inl, fun hne hin => ?_⟩, ⟨by simp, by simp [getLast?_cons]⟩,
      cons_ne_nil _ _⟩
    exact hangles hne ((infix_quoted_iff (by decide) (by decide)).mp hin)
  | date _ hd _ =>
    have hfn := (Bool.or_eq_true_iff.mp hsafe).imp of_decide_eq_true of_decide_eq_true
    have hnot {c : Char} := @text_date t _ _ hfn hd c
    refine ⟨OperatorFree.reads ⟨?_, ?_, ?_⟩ _, ⟨?_, ?_⟩, ?_⟩
    · exact hnot (by decide) (by decide)
    · exact hnot (by decide) (by decide)
    · exact hnot (by decide) (by decide)
    · rcases hfn with rfl | rfl <;> simp [text]
    · simp [text, getLast?_cons]
    · simp [text]
  | column _ hi _ =>
    have hnot {c : Char} := @columnText_notMem S t ht _ hi c
    exact ⟨OperatorFree.reads ⟨hnot (by decide) (by decide), hnot (by decide) (by decide),
      hnot (by decide) (by decide)⟩ _, columnText_trimmed ht hi, columnText_ne_nil ht hi⟩

/-- **評価される比較は、式の通りに読まれる。** -/
theorem setCondition_text : setCondition S.tables (c.textIn t place) = some (c.metadata t) := by
  obtain ⟨hreads, htrim, hne⟩ := rhs_text ht hsafe h
  rw [textIn_of_evaluated ht hlhs hsafe h, Comparison.text, setCondition_column ht hlhs hreads htrim hne]
  simp only [Comparison.safe, Bool.and_eq_true, decide_eq_true_eq] at hsafe
  obtain ⟨⟨hcol, htype⟩, hsafe⟩ := hsafe
  cases h with
  | string hstring _ _ _ =>
    obtain ⟨htext, -, -⟩ := text_string hsafe
    simp [metadataOf, htype, hcol, htext, getColNumber_quoted, unquote_quoted, Comparison.metadata, hstring]
  | @date _ _ fn d hdate hd _ =>
    have hfn := (Bool.or_eq_true_iff.mp hsafe).imp of_decide_eq_true of_decide_eq_true
    have hnone : getColNumber S.tables ((date fn d).text t) = some none :=
      if_neg (text_date hfn hd (by decide) (by decide))
    have htext : dateText ((date fn d).text t) = d := dateText_eq hfn hd
    simp [metadataOf, htype, hcol, hnone, htext, Comparison.metadata, hdate]
  | @column _ i _ hdate _ _ =>
    have hi : getColNumber S.tables (t.columnText i) = some (some i) := of_decide_eq_true hsafe
    simp [metadataOf, htype, hcol, hi, text, Comparison.metadata, hdate]

theorem clear_text (hplace : place ≠ .alone) : Clear " OR ".toList (c.textIn t place) := by
  rw [textIn_of_evaluated ht hlhs hsafe h, Comparison.text, clear_comparison_iff ht hlhs]
  have hsafe := (Bool.and_eq_true_iff.mp hsafe).2
  cases h with
  | @string _ _ s _ _ _ hplain =>
    obtain ⟨htext, -, -⟩ := text_string hsafe
    have hor : ¬ " OR ".toList <:+: s := by
      cases place with
      | alone => exact absurd rfl hplace
      | conjunct => exact of_decide_eq_true hplain
      | inOr => exact (of_decide_eq_true hplain).1
    rw [htext, clear_cons_iff, clear_cons_iff]
    exact ⟨by simp, by simp, clear_append_quote hor⟩
  | date _ hd _ =>
    have hfn := (Bool.or_eq_true_iff.mp hsafe).imp of_decide_eq_true of_decide_eq_true
    refine clear_cons_iff.mpr ⟨?_, .of_head_notMem (text_date hfn hd (by decide) (by decide))⟩
    rcases hfn with rfl | rfl <;> simp [text]
  | @column _ i _ _ hi _ =>
    have hspace := columnText_notMem ht hi (c := ' ') (by decide) (by decide)
    refine clear_cons_iff.mpr ⟨⟨fun hpre => ?_, fun hpre => ?_⟩, .of_head_notMem hspace⟩
    · have hmem : ' ' ∈ "OR ".toList := by decide
      exact hspace ((cons_prefix_cons.mp hpre).2.subset hmem)
    · obtain ⟨n, -, htext⟩ := columnText_eq ht hi
      have hdot : '.' ∈ ' ' :: (column i).text t := by
        rw [text, htext]
        simp
      exact absurd (hpre.subset hdot) (by decide)

end

/-! ## 評価 -/

structure Record (t : CreateTable) where
  row : List Line
  length_eq : row.length = t.columnDefinitions.length
  noBar : ∀ f ∈ row, '|' ∉ f
  typed : ∀ i < row.length, (t.typeOf i).reads (row[i]?.getD []) = true

namespace Record

variable {t : CreateTable} (r : Record t) {i : Nat} (hi : i < t.columnDefinitions.length)
include hi

theorem getElem?_eq : r.row[i]? = some (r.row[i]?.getD []) := by
  rw [getElem?_eq_getElem (r.length_eq ▸ hi), getD_some]

theorem exists_parseDate (htype : t.typeOf i = .date) : ∃ n, parseDate (r.row[i]?.getD []) = some n := by
  have htyped := r.typed i (r.length_eq ▸ hi)
  rw [htype] at htyped
  exact isSome_iff_exists.mp htyped

theorem exists_mem_drop (htype : t.typeOf i = .date) : ∃ f ∈ r.row.drop i, f ≠ [] := by
  obtain ⟨n, hn⟩ := r.exists_parseDate hi htype
  refine ⟨r.row[i]?.getD [], ?_, fun hnil => ?_⟩
  · refine mem_of_getElem? (i := 0) ?_
    rw [getElem?_drop, Nat.add_zero, ← r.getElem?_eq hi]
  · rw [hnil] at hn
    cases hn

theorem fieldOf_eq (hkept : ∃ f ∈ r.row.drop i, f ≠ []) :
    fieldOf (line r.row) (some i) = some (r.row[i]?.getD []) := by
  have hsome : ∃ f ∈ r.row, f ≠ [] := hkept.imp fun f hf => ⟨mem_of_mem_drop hf.1, hf.2⟩
  rw [fieldOf, bind_some, split_line r.noBar hsome, getElem?_trimRow hkept, r.getElem?_eq hi, getD_some]

end Record

theorem test_equalsTo (a b : Text) : Operator.equalsTo.test (compareText a b) = decide (a = b) := by
  rw [compareText]
  split
  · next h => simp [Operator.test, h]
  · next h => split <;> simp [Operator.test, h]

theorem test_notEqualsTo (a b : Text) :
    Operator.notEqualsTo.test (compareText a b) = decide (a ≠ b) := by
  rw [show Operator.notEqualsTo.test (compareText a b) =
    !Operator.equalsTo.test (compareText a b) from rfl, test_equalsTo, decide_not]

theorem evaluate_metadata {ct : List CreateTable} {t : CreateTable} {c : Comparison} {place : Place}
    (hlhs : c.lhs < t.columnDefinitions.length) (r : Record t) (h : Evaluated ct t r.row place c) :
    (c.metadata t).evaluate (line r.row) = .ofBool (c.holds t r.row) := by
  cases h with
  | string htype hop hkept _ =>
    rcases hop with rfl | rfl
    · simp [Comparison.metadata, evaluate, testString, Comparison.holds, htype, r.fieldOf_eq hlhs hkept,
        Datatype.compareAs, Operand.value, test_equalsTo]
    · simp [Comparison.metadata, evaluate, testString, Comparison.holds, htype, r.fieldOf_eq hlhs hkept,
        Datatype.compareAs, Operand.value, test_notEqualsTo]
  | date htype hd _ =>
    obtain ⟨m, hm⟩ := r.exists_parseDate hlhs htype
    obtain ⟨n, hn⟩ := isSome_iff_exists.mp hd
    simp [Comparison.metadata, evaluate, testDate, Comparison.holds, Datatype.compareAs, Operand.value,
      compareDate, htype, r.fieldOf_eq hlhs (r.exists_mem_drop hlhs htype), hm, hn]
  | column htype hi hitype =>
    obtain ⟨m, hm⟩ := r.exists_parseDate hlhs htype
    obtain ⟨n, hn⟩ := r.exists_parseDate hi hitype
    simp [Comparison.metadata, evaluate, testDate, Comparison.holds, Datatype.compareAs, Operand.value,
      compareDate, htype, r.fieldOf_eq hlhs (r.exists_mem_drop hlhs htype), hm,
      r.fieldOf_eq hi (r.exists_mem_drop hi hitype), hn]

end Sql
