import Mathlib.Data.List.Nodup
import MsProjects.Sql.ColNumber

/-! # 列の番号 -/

namespace Sql

open List CreateTable

variable {ct tables : List CreateTable} {t u : CreateTable} {table names : TableName}
  {col s x : Text} {i : Nat}

/-- 大文字と小文字を区別しない表の名前。 -/
abbrev CreateTable.key (t : CreateTable) : Text := t.name.map Char.toLower

theorem sameName_single_iff {a b : Text} : sameName [a] [b] = true ↔
    a.map Char.toLower = b.map Char.toLower := by
  simp [sameName]

theorem filter_key (hct : (ct.map key).Nodup) (hu : u ∈ ct) (hs : s.map Char.toLower = u.key) :
    ct.filter (fun t => equalsIgnoreCase t.name s) = [u] := by
  induction ct with
  | nil => cases hu
  | cons v ct ih =>
    rw [map_cons, nodup_cons] at hct
    rw [filter_cons]
    rcases mem_cons.mp hu with rfl | hu
    · rw [if_pos (by simp [equalsIgnoreCase, hs]), filter_eq_nil_iff.mpr]
      intro t ht heq
      exact hct.1 (mem_map.mpr ⟨t, ht, by simpa [equalsIgnoreCase, hs] using heq⟩)
    · rw [if_neg, ih hct.2 hu]
      intro heq
      exact hct.1 (mem_map.mpr ⟨u, hu, by simpa [equalsIgnoreCase, hs, eq_comm] using heq⟩)

theorem colNumberLoop_eq {ct' : List CreateTable} {n : Nat} (hct : (ct.map key).Nodup) (ht : t ∈ ct)
    (hname : x.map Char.toLower = t.key)
    (hplus : names.length > 1 →
      plusOffset ct' [x] names (t.columnDefinitions.findIdx fun d => col <:+: d.toText) = some n) :
    colNumberLoop ct' [x] col names ct 0 =
      if names.length > 1 then n else t.columnDefinitions.findIdx fun d => col <:+: d.toText := by
  induction ct with
  | nil => cases ht
  | cons u ct ih =>
    rw [map_cons, nodup_cons] at hct
    unfold colNumberLoop
    rcases mem_cons.mp ht with rfl | ht
    · rw [if_pos (sameName_single_iff.mpr hname.symm)]
      split
      · next hlen => simp [hplus hlen]
      · simp
    · rw [if_neg, ih hct.2 ht]
      rw [sameName_single_iff, hname]
      exact fun heq => hct.1 (mem_map.mpr ⟨t, ht, heq.symm⟩)

theorem colNumberLoop_composed (hlen : 1 < table.length) (ct' : List CreateTable) (n : Nat) :
    colNumberLoop ct' table col names ct n = 0 := by
  induction ct generalizing n with
  | nil => rfl
  | cons u ct ih =>
    unfold colNumberLoop
    rw [if_neg, ih]
    intro hsame
    have hlength := congrArg length (of_decide_eq_true hsame)
    simp only [length_map, length_singleton] at hlength
    omega

theorem plusOffset_eq (hct : (ct.map key).Nodup) (htables : ∀ u ∈ tables, u ∈ ct)
    (hnodup : (tables.map key).Nodup) (ht : tables[i]? = some t)
    (hx : x.map Char.toLower = t.key) (n : Nat) :
    ∀ {names : TableName}, names.map (map Char.toLower) = tables.map key →
      plusOffset ct [x] names n =
        some (((tables.take i).flatMap columnDefinitions).length + n) := by
  induction tables generalizing i n with
  | nil => simp at ht
  | cons u tables ih =>
    intro names hnames
    cases names with
    | nil => simp at hnames
    | cons s rest =>
      obtain ⟨hs, hrest⟩ := cons.inj hnames
      rw [map_cons, nodup_cons] at hnodup
      obtain ⟨hu, htables⟩ := forall_mem_cons.mp htables
      unfold plusOffset
      cases i with
      | zero =>
        obtain rfl : u = t := by simpa using ht
        rw [if_pos (sameName_single_iff.mpr (hx.trans hs.symm))]
        simp
      | succ i =>
        have ht : tables[i]? = some t := ht
        rw [if_neg, filter_key hct hu hs, ih htables hnodup.2 ht _ hrest]
        · simp; omega
        · rw [sameName_single_iff, hx, hs]
          exact fun heq => hnodup.1 (mem_map.mpr ⟨t, mem_of_getElem? ht, heq⟩)

/-- 列 `col` は、`names` の名前で繋いだ表 `tables` の `i` 番目の表の `k` 番目の列である。 -/
structure Refers (ct tables : List CreateTable) (names : TableName) (col : ColumnName) (i k : Nat)
    (t : CreateTable) : Prop where
  mem : ∀ u ∈ tables, u ∈ ct
  nodup : tables.Nodup
  composed : sameName names (tables.map name) = true
  table : tables[i]? = some t
  column : (t.columnDefinitions[k]?).map ColumnDefinition.name = some col.column
  qualified : ∀ x, col.table = some x → equalsIgnoreCase x t.name = true

/-- 繋いだ行の中の、`i` 番目の表の `k` 番目の列の位置。 -/
def position (tables : List CreateTable) (i k : Nat) : Nat :=
  ((tables.take i).flatMap columnDefinitions).length + k

/--
**`getColNumber` が繋いだ行の中の列の位置を返すのは、その表の前の列の定義の文字列が列の名前を含まないとき、かつ
そのときに限る。ただし、join の中で表の名前を付けずに書いた列には、いつも 0 を返す。**
-/
theorem getColNumber_iff {col : ColumnName} {k : Nat} (hct : (ct.map key).Nodup)
    (h : Refers ct tables names col i k t) :
    ConditionEvaluator.getColNumber ct col names = position tables i k ↔
      if col.table = none ∧ 1 < tables.length then position tables i k = 0
      else ∀ d ∈ t.columnDefinitions.take k, ¬ col.column <:+: d.toText := by
  have hnodup : (tables.map key).Nodup :=
    h.nodup.map_on fun u hu v hv heq => inj_on_of_nodup_map hct (h.mem u hu) (h.mem v hv) heq
  have hnames : names.map (map Char.toLower) = tables.map key := by
    simpa [sameName, Function.comp_def] using h.composed
  have hlength : names.length = tables.length := by simpa using congrArg length hnames
  have hi := (List.getElem?_eq_some_iff.mp h.table).1
  by_cases hbare : col.table = none ∧ 1 < tables.length
  · rw [if_pos hbare, ConditionEvaluator.getColNumber, hbare.1]
    exact (colNumberLoop_composed (hlength ▸ hbare.2) ct 0).symm ▸ eq_comm
  rw [if_neg hbare]
  have hone (hnone : col.table = none) : tables.length = 1 := by
    have hle := mt (And.intro hnone) hbare
    omega
  obtain ⟨d, hd, hname⟩ := Option.map_eq_some_iff.mp h.column
  obtain ⟨hk, rfl⟩ := List.getElem?_eq_some_iff.mp hd
  -- 列の名前の付かない表は、ただ一つの表である
  obtain ⟨x, hx, htable⟩ : ∃ x, x.map Char.toLower = t.key ∧ col.table.elim names (fun t => [t]) = [x] := by
    cases htable : col.table with
    | some x => exact ⟨x, by simpa [equalsIgnoreCase] using h.qualified x htable, rfl⟩
    | none =>
      obtain ⟨u, rfl⟩ := length_eq_one_iff.mp (hone htable)
      obtain ⟨x, rfl⟩ := length_eq_one_iff.mp (hlength.trans (hone htable))
      obtain ⟨hi, rfl⟩ := List.getElem?_eq_some_iff.mp h.table
      exact ⟨x, by simpa using hnames, rfl⟩
  have hplus := plusOffset_eq hct h.mem hnodup h.table hx
    (t.columnDefinitions.findIdx fun d => col.column <:+: d.toText) hnames
  have hsingle : ¬ names.length > 1 → tables.take i = [] := by
    intro hle
    rw [show i = 0 by omega, take_zero]
  have hnumber : ConditionEvaluator.getColNumber ct col names =
      ((tables.take i).flatMap columnDefinitions).length +
        t.columnDefinitions.findIdx fun d => col.column <:+: d.toText := by
    rw [ConditionEvaluator.getColNumber, htable,
      colNumberLoop_eq hct (h.mem t (mem_of_getElem? h.table)) hx fun _ => hplus]
    split
    · rfl
    · next hle => simp [hsingle hle]
  have hself : col.column <:+: (t.columnDefinitions[k]).toText := by
    rw [← hname]
    exact (prefix_append _ _).isInfix
  rw [hnumber, position, Nat.add_left_cancel_iff, findIdx_eq hk]
  simp only [hself, decide_true, true_and, decide_eq_false_iff_not]
  constructor
  · intro hfirst d hmem
    obtain ⟨j, hj, rfl⟩ := mem_take_iff_getElem.mp hmem
    exact hfirst j (by omega)
  · intro hfirst j hj
    exact hfirst _ (mem_take_iff_getElem.mpr ⟨j, by omega, rfl⟩)

/-- 二つの表。 -/
def ordersAndItems : List CreateTable :=
  [⟨"R".toList, [⟨"orderkey".toList, "int".toList⟩, ⟨"key".toList, "int".toList⟩]⟩,
    ⟨"S".toList, [⟨"b".toList, "date".toList⟩, ⟨"c".toList, "int".toList⟩]⟩]

/-- 名前を小文字で書いた二つの表の join で、二つめの表の列を引く。 -/
theorem getColNumber_iff_join : ConditionEvaluator.getColNumber ordersAndItems ⟨some "S".toList, "c".toList⟩
    ["r".toList, "s".toList] = position ordersAndItems 1 1 := by
  have h : Refers ordersAndItems ordersAndItems ["r".toList, "s".toList] ⟨some "S".toList, "c".toList⟩ 1 1
      ⟨"S".toList, [⟨"b".toList, "date".toList⟩, ⟨"c".toList, "int".toList⟩]⟩ :=
    ⟨by decide, by decide, by decide, rfl, rfl, by decide⟩
  exact (getColNumber_iff (by decide) h).mpr (by decide)

/-- 列 `key` の番号として、その名前を含む列 `orderkey` の番号が返る。 -/
theorem getColNumber_part : ConditionEvaluator.getColNumber ordersAndItems ⟨none, "key".toList⟩
    ["R".toList] = 0 ∧ position ordersAndItems 0 1 = 1 := by
  decide

end Sql
