import MsProjects.Infra.Bucket
import MsProjects.Sql.Properties.Record
import MsProjects.Sql.Properties.Bins

/-! # hash join と nested-loop join -/

namespace Sql

open Infra List Function

variable {t : List Line} {i : Nat} {p : List Line × List Line}

/-! ## 表 -/

/-- 整数の key の列を持つ表。 -/
structure Table where
  name : List Char
  columns : Nat
  key : Nat
  rows : List (List Line)
  length_eq : ∀ row ∈ rows, row.length = columns
  noBar : ∀ row ∈ rows, ∀ f ∈ row, '|' ∉ f
  isInt : ∀ row ∈ rows, (row[key]?.bind parseInt).isSome = true

namespace Table

variable (t : Table)

def file : List Line := t.rows.map line

def keyOf (row : List Line) : Option Int := row[t.key]?.bind parseInt

def binOf (row : List Line) : Option Nat := (t.keyOf row).bind Sql.binOf

def read : List (List Line) := t.rows.takeWhile fun row => (t.binOf row).isSome

/-- `createBins` が読まない行。 -/
def unread : List (List Line) := t.rows.dropWhile fun row => (t.binOf row).isSome

theorem rows_eq : t.rows = t.read ++ t.unread := takeWhile_append_dropWhile.symm

variable {t} {row : List Line}

theorem mem_rows_of_mem_read (h : row ∈ t.read) : row ∈ t.rows := (takeWhile_subset _) h

theorem exists_key (h : row ∈ t.rows) : ∃ f, row[t.key]? = some f ∧ f ≠ [] := by
  obtain ⟨k, hk⟩ := Option.isSome_iff_exists.mp (t.isInt row h)
  obtain ⟨f, hf, hparse⟩ := Option.bind_eq_some_iff.mp hk
  refine ⟨f, hf, ?_⟩
  rintro rfl
  cases hparse

theorem exists_ne_nil (h : row ∈ t.rows) : ∃ f ∈ row, f ≠ [] := by
  obtain ⟨f, hf, hne⟩ := exists_key h
  exact ⟨f, mem_of_getElem? hf, hne⟩

theorem ne_nil (h : row ∈ t.rows) : row ≠ [] := by
  obtain ⟨f, hf, -⟩ := exists_ne_nil h
  exact ne_nil_of_mem hf

theorem keyOf_line (h : row ∈ t.rows) : Sql.keyOf t.key (line row) = t.keyOf row := by
  obtain ⟨f, hf, hne⟩ := exists_key h
  have hdrop : ∃ f ∈ row.drop t.key, f ≠ [] := ⟨f, mem_of_getElem? (i := 0) (by simpa using hf), hne⟩
  rw [Sql.keyOf, split_line (t.noBar row h) (exists_ne_nil h), getElem?_trimRow hdrop, keyOf]

theorem readable_file : readable t.key t.file = t.read.map line := by
  rw [readable, file, read, takeWhile_map]
  have hcongr (rows : List (List Line)) (h : ∀ row ∈ rows, row ∈ t.rows) :
      rows.takeWhile ((fun s => ((Sql.keyOf t.key s).bind Sql.binOf).isSome) ∘ line) =
        rows.takeWhile fun row => (t.binOf row).isSome := by
    induction rows with
    | nil => rfl
    | cons row rows ih =>
      rw [takeWhile_cons, takeWhile_cons, comp_apply,
        keyOf_line (h row mem_cons_self), ih fun r hr => h r (mem_cons_of_mem _ hr)]
      rfl
  rw [hcongr t.rows fun _ h => h]

theorem tagOf_line (h : row ∈ t.rows) : tagOf t.key (line row) = (t.binOf row).getD 0 := by
  rw [tagOf, keyOf_line h, binOf]

theorem binOf_read (h : row ∈ t.read) : (t.binOf row).isSome = true := by
  rw [read] at h
  exact mem_takeWhile_imp (p := fun row => (t.binOf row).isSome) h

end Table

/-! ## 射影 -/

section

variable (l r : Table) (projL : List (Fin l.columns)) (projR : List (Fin r.columns))

/-- 二つの表だけの data directory。 -/
def dataOf : Directory
  | .table t =>
    if t = [l.name] then some l.file else if t = [r.name] then some r.file else none
  | .bin _ _ => none

/-- 結果の行に並ぶ二つの表の範囲と、射影する列。 -/
def offsetsOf : List Projected :=
  [⟨0, l.columns, projL.map Fin.val⟩, ⟨l.columns, l.columns + r.columns, projR.map Fin.val⟩]

/-- 射影した列の欄を、それぞれ `|` を付けて並べる。 -/
def cells (proj : List Nat) (field : Nat → Line) : Line := proj.flatMap fun i => field i ++ ['|']

def joinedRow (p : List Line × List Line) : Line :=
  cells (projL.map Fin.val) (fun i => p.1[i]?.getD []) ++
    cells (projR.map Fin.val) fun i => p.2[i]?.getD []

def writtenRow (p : List Line × List Line) : Line :=
  cells (projL.map Fin.val) (fun i => p.1[i]?.getD []) ++
    cells (projR.map Fin.val) fun i => display (trimRow p.2)[i]?

def pairs (rowsL rowsR : List (List Line)) : List (List Line × List Line) :=
  rowsL.flatMap fun s => (rowsR.filter fun t => r.keyOf t = l.keyOf s).map fun t => (s, t)

def nestedLoopJoin : List Line := (pairs l r l.rows r.rows).map (joinedRow l r projL projR)

end

variable {l r : Table} {projL : List (Fin l.columns)} {projR : List (Fin r.columns)}

theorem foldlM_cells (temp : List (Option Line)) (field : Nat → Line) {proj : List Nat}
    (h : ∀ i ∈ proj, ∃ v, temp[i]? = some v ∧ display v = field i) (out : Line) :
    proj.foldlM (fun out i => do return out ++ display (← temp[i]?) ++ ['|']) out =
      some (out ++ cells proj field) := by
  induction proj generalizing out with
  | nil => simp [cells]
  | cons i proj ih =>
    obtain ⟨v, hv, hd⟩ := h i mem_cons_self
    rw [foldlM_cons, hv]
    refine (ih (fun i hi => h i (mem_cons_of_mem _ hi)) _).trans ?_
    simp [cells, hd]

theorem fields_eq (lo : Nat) {n : Nat} (proj : List (Fin n)) (record : Line) (field : Nat → Line)
    (hlo : lo ≤ (split record).length)
    (h : ∀ i < n, display (split record)[lo + i]? = field i) :
    Projected.fields ⟨lo, lo + n, proj.map Fin.val⟩ record =
      some (cells (proj.map Fin.val) field) := by
  rw [Projected.fields, copyOfRange, if_pos hlo]
  simp only [Option.bind_eq_bind, Option.bind_some]
  refine (foldlM_cells _ field ?_ []).trans (by rw [nil_append])
  intro i hi
  obtain ⟨j, -, rfl⟩ := mem_map.mp hi
  exact ⟨_, by simp, h j j.isLt⟩

theorem projectRecord_eq {s : List Line} (hs : s ∈ l.rows) (ht : t ∈ r.rows) :
    projectRecord (offsetsOf l r projL projR) (line s ++ '|' :: line t) =
      some (writtenRow l r projL projR (s, t)) := by
  have hbar : ∀ f ∈ s ++ t, '|' ∉ f := by
    intro f hf
    rcases mem_append.mp hf with hf | hf
    · exact l.noBar s hs f hf
    · exact r.noBar t ht f hf
  have hne := Table.exists_ne_nil ht
  have hsplit : split (line s ++ '|' :: line t) = s ++ trimRow t := by
    obtain ⟨f, hf, hf'⟩ := hne
    rw [← line_append (Table.ne_nil hs) (Table.ne_nil ht),
      split_line hbar ⟨f, mem_append_right _ hf, hf'⟩, trimRow_append ⟨f, hf, hf'⟩]
  have hlen := l.length_eq s hs
  have hleft : Projected.fields ⟨0, l.columns, projL.map Fin.val⟩ (line s ++ '|' :: line t) =
      some (cells (projL.map Fin.val) fun i => s[i]?.getD []) := by
    have hfields := fields_eq 0 projL (line s ++ '|' :: line t) (fun i => s[i]?.getD [])
      (Nat.zero_le _) fun i hi => by
        have hi' : i < s.length := by omega
        rw [hsplit, Nat.zero_add, getElem?_append_left hi']
        simp [hi', display]
    rwa [Nat.zero_add] at hfields
  have hright : Projected.fields ⟨l.columns, l.columns + r.columns, projR.map Fin.val⟩
      (line s ++ '|' :: line t) =
        some (cells (projR.map Fin.val) fun i => display (trimRow t)[i]?) := by
    refine fields_eq l.columns projR _ _ ?_ ?_
    · rw [hsplit, length_append]
      omega
    · intro i hi
      rw [hsplit, getElem?_append_right (by omega), hlen, Nat.add_sub_cancel_left]
  simp [projectRecord, offsetsOf, hleft, hright, writtenRow]

/-! ## 結果の行 -/

def Table.tag (t : Table) (row : List Line) : Nat := (t.binOf row).getD 0

/-- bin `i` に入る行。 -/
def Table.bucket (t : Table) (i : Nat) : List (List Line) := t.read.filter fun row => t.tag row = i

/-- bin `i` の file の行。 -/
def Table.lines (t : Table) (i : Nat) : List Line :=
  (readable t.key t.file).filter fun s => tagOf t.key s = i

/-- 行 `s` から作られる結果の行。 -/
def writtenFor (l r : Table) (projL : List (Fin l.columns)) (projR : List (Fin r.columns))
    (s : List Line) : List Line :=
  (r.read.filter fun t => r.keyOf t = l.keyOf s).map fun t => writtenRow l r projL projR (s, t)

theorem lines_eq (t : Table) (i : Nat) : t.lines i = (t.bucket i).map line := by
  rw [Table.lines, Table.readable_file, filter_map]
  refine congrArg _ (filter_congr fun row hrow => ?_)
  rw [comp_apply, Table.tagOf_line (Table.mem_rows_of_mem_read hrow)]
  rfl

theorem filter_bin_key {s : List Line} (i : Nat) (hs : l.tag s = i) :
    ((r.bucket i).filter fun t => r.keyOf t = l.keyOf s) =
      r.read.filter fun t => r.keyOf t = l.keyOf s := by
  rw [Table.bucket, filter_filter]
  refine filter_congr fun t _ => ?_
  rw [← Bool.decide_and, decide_eq_decide]
  refine ⟨fun h => h.1, fun h => ⟨h, ?_⟩⟩
  rw [← hs, Table.tag, Table.tag, Table.binOf, Table.binOf, h]

theorem matched_eq (i : Nat) :
    matched l.key r.key l.lines r.lines
        (fun a b => (projectRecord (offsetsOf l r projL projR) (a ++ '|' :: b)).getD []) i =
      (l.bucket i).flatMap (writtenFor l r projL projR) := by
  simp only [matched, lines_eq]
  rw [flatMap_map]
  refine flatMap_congr fun s hs => ?_
  obtain ⟨hsread, hstag⟩ := mem_filter.mp hs
  have hsrow := Table.mem_rows_of_mem_read hsread
  rw [writtenFor, filter_map, map_map, ← filter_bin_key i (of_decide_eq_true hstag)]
  have hfilter : (r.bucket i).filter
      ((fun t => decide (keyOf r.key t = keyOf l.key (line s))) ∘ line) =
        (r.bucket i).filter fun t => r.keyOf t = l.keyOf s := by
    refine filter_congr fun t ht => ?_
    have htrow := Table.mem_rows_of_mem_read (mem_filter.mp ht).1
    rw [comp_apply, Table.keyOf_line htrow, Table.keyOf_line hsrow]
  rw [hfilter]
  refine map_congr_left fun t ht => ?_
  have htrow := Table.mem_rows_of_mem_read (mem_filter.mp (mem_filter.mp ht).1).1
  rw [comp_apply, projectRecord_eq hsrow htrow, Option.getD_some]

theorem outstreamCreator_bin (hname : l.name ≠ r.name) (hi : i < bins) :
    outstreamCreator (dataOf l r) [l.name] l.key [r.name] r.key (offsetsOf l r projL projR)
        (fun _ => none) (.bin [l.name, r.name] i) =
      some ((l.bucket i).flatMap (writtenFor l r projL projR)) := by
  have hbin {a b : TableName} (h : a ≠ b) (i j : Nat) : FileName.bin a i ≠ .bin b j :=
    fun heq => h (FileName.bin.inj heq).1
  have hlr : [l.name] ≠ [r.name] := fun h => hname (singleton_inj.mp h)
  have hl : [l.name] ≠ [l.name, r.name] := by simp
  have hr : [r.name] ≠ [l.name, r.name] := by simp
  have hopenL : openFile (dataOf l r) (fun _ => none) (.table [l.name]) = some l.file := by
    simp [openFile, dataOf]
  have hopenR (swap : Directory) : openFile (dataOf l r) swap (.table [r.name]) = some r.file := by
    simp [openFile, dataOf, Ne.symm hname]
  have hrow {t : Table} {i : Nat} {a : Line} (ha : a ∈ t.lines i) :
      ∃ row ∈ t.rows, a = line row ∧ ∃ key, keyOf t.key a = some key ∧ binOf key = some i := by
    rw [lines_eq] at ha
    obtain ⟨row, hrow, rfl⟩ := mem_map.mp ha
    obtain ⟨hread, htag⟩ := mem_filter.mp hrow
    obtain ⟨b, hb⟩ := Option.isSome_iff_exists.mp (Table.binOf_read hread)
    obtain ⟨key, hkey, hbin⟩ := Option.bind_eq_some_iff.mp hb
    have hbi : b = i := by simpa [Table.tag, hb] using htag
    exact ⟨row, Table.mem_rows_of_mem_read hread, rfl, key,
      (Table.keyOf_line (Table.mem_rows_of_mem_read hread)).trans hkey, hbi ▸ hbin⟩
  have hout (i : Nat) : ∀ a ∈ l.lines i, ∀ b ∈ r.lines i, keyOf r.key b = keyOf l.key a →
      projectRecord (offsetsOf l r projL projR) (a ++ '|' :: b) =
        some ((projectRecord (offsetsOf l r projL projR) (a ++ '|' :: b)).getD []) := by
    intro a ha b hb _
    obtain ⟨s, hs, rfl, -⟩ := hrow ha
    obtain ⟨t, ht, rfl, -⟩ := hrow hb
    rw [projectRecord_eq hs ht, Option.getD_some]
  rw [← matched_eq]
  refine (joinBins_bin (fun _ _ => rfl) hr hl ?_ ?_ ?_ ?_ hout hi).trans ?_
  · intro i hi
    rw [createBins_of_ne (hbin hlr i), createBins_bin hopenL hi]
    rfl
  · intro i hi
    rw [createBins_bin (hopenR _) hi, createBins_of_ne (hbin hlr.symm i)]
    rfl
  · intro i a ha
    obtain ⟨-, -, -, hkey⟩ := hrow ha
    exact hkey
  · intro i b hb
    obtain ⟨-, -, -, key, hkey, -⟩ := hrow hb
    rw [hkey]
    rfl
  · rw [createBins_of_ne (hbin hr.symm i), createBins_of_ne (hbin hl.symm i)]
    rfl

/-- **結果の行は、読めた行の組の射影の並べ替えである。** -/
theorem binRows_perm (hname : l.name ≠ r.name) :
    (binRows (outstreamCreator (dataOf l r) [l.name] l.key [r.name] r.key
        (offsetsOf l r projL projR) fun _ => none) [l.name, r.name]).Perm
      ((pairs l r l.read r.read).map (writtenRow l r projL projR)) := by
  have hrows : binRows (outstreamCreator (dataOf l r) [l.name] l.key [r.name] r.key
      (offsetsOf l r projL projR) fun _ => none) [l.name, r.name] =
      ((range bins).flatMap l.bucket).flatMap (writtenFor l r projL projR) := by
    rw [binRows, flatMap_assoc]
    refine flatMap_congr fun i hi => ?_
    rw [outstreamCreator_bin hname (mem_range.mp hi), Option.getD_some]
  have hpairs : (pairs l r l.read r.read).map (writtenRow l r projL projR) =
      l.read.flatMap (writtenFor l r projL projR) := by
    simp only [pairs, map_flatMap, map_map]
    rfl
  rw [hrows, hpairs]
  refine Perm.flatMap_right _ (perm_flatMap_filter l.tag fun s hs => ?_)
  obtain ⟨b, hb⟩ := Option.isSome_iff_exists.mp (Table.binOf_read hs)
  obtain ⟨key, -, hkey⟩ := Option.bind_eq_some_iff.mp hb
  rw [Table.tag, hb]
  exact binOf_lt hkey

/-! ## nested-loop join との一致 -/

theorem pairs_append_left (a b c : List (List Line)) :
    pairs l r (a ++ b) c = pairs l r a c ++ pairs l r b c := flatMap_append

theorem length_pairs_append_right (a b c : List (List Line)) :
    (pairs l r a (b ++ c)).length = (pairs l r a b).length + (pairs l r a c).length := by
  induction a with
  | nil => rfl
  | cons s a ih =>
    simp only [pairs, flatMap_cons, length_append, length_map, filter_append] at ih ⊢
    omega

theorem mem_pairs {a b : List (List Line)} :
    p ∈ pairs l r a b ↔ p.1 ∈ a ∧ p.2 ∈ b ∧ r.keyOf p.2 = l.keyOf p.1 := by
  obtain ⟨s, t⟩ := p
  simp only [pairs, mem_flatMap, mem_map, mem_filter, decide_eq_true_eq]
  constructor
  · rintro ⟨s', hs', t', ⟨ht', hkey⟩, heq⟩
    obtain ⟨rfl, rfl⟩ := Prod.mk.inj heq
    exact ⟨hs', ht', hkey⟩
  · rintro ⟨hs, ht, hkey⟩
    exact ⟨s, hs, t, ⟨ht, hkey⟩, rfl⟩

theorem pairs_eq_nil_iff {a b : List (List Line)} :
    pairs l r a b = [] ↔ ∀ s ∈ a, ∀ t ∈ b, r.keyOf t ≠ l.keyOf s := by
  rw [eq_nil_iff_forall_not_mem]
  constructor
  · intro h s hs t ht hkey
    exact h (s, t) (mem_pairs.mpr ⟨hs, ht, hkey⟩)
  · intro h p hp
    obtain ⟨hs, ht, hkey⟩ := mem_pairs.mp hp
    exact h p.1 hs p.2 ht hkey

theorem pairs_rows_eq (hL : pairs l r l.unread r.rows = []) (hR : pairs l r l.read r.unread = []) :
    pairs l r l.rows r.rows = pairs l r l.read r.read := by
  have hrest : pairs l r l.read r.rows = pairs l r l.read r.read := by
    refine flatMap_congr fun s hs => ?_
    have hnone : (r.unread.filter fun t => r.keyOf t = l.keyOf s) = [] :=
      filter_eq_nil_iff.mpr fun t ht => by
        simpa using pairs_eq_nil_iff.mp hR s hs t ht
    rw [r.rows_eq, filter_append, hnone, append_nil]
  rw [l.rows_eq, pairs_append_left, hL, append_nil, hrest]

/-- 射影する右の欄のどれも、末尾の空の欄ではない。 -/
def NoTrailingEmpty (projR : List (Fin r.columns)) (t : List Line) : Prop :=
  ∀ i ∈ projR, ∃ f ∈ t.drop i, f ≠ []

theorem length_cells (proj : List Nat) (field : Nat → Line) :
    (cells proj field).length = (proj.map fun i => (field i).length + 1).sum := by
  induction proj with
  | nil => rfl
  | cons i proj ih =>
    simp only [cells, flatMap_cons, length_append, map_cons, sum_cons] at ih ⊢
    rw [ih]
    simp

theorem display_trimRow (h : ∃ f ∈ t.drop i, f ≠ []) : display (trimRow t)[i]? = t[i]?.getD [] := by
  have hi : i < t.length := by
    obtain ⟨f, hf, -⟩ := h
    have hpos := length_pos_of_mem hf
    rw [length_drop] at hpos
    omega
  rw [getElem?_trimRow h, getElem?_eq_getElem hi]
  rfl

theorem length_lt_display_trimRow (h : ∀ f ∈ t.drop i, f = []) :
    (t[i]?.getD []).length < (display (trimRow t)[i]?).length := by
  have hnil : t[i]?.getD [] = [] := by
    cases hfield : t[i]? with
    | none => rfl
    | some f => exact h f (mem_of_getElem? (i := 0) (by simpa using hfield))
  rw [hnil, getElem?_trimRow_eq_none h]
  decide

theorem length_le_display_trimRow (t : List Line) (i : Nat) :
    (t[i]?.getD []).length ≤ (display (trimRow t)[i]?).length := by
  by_cases h : ∃ f ∈ t.drop i, f ≠ []
  · exact (congrArg length (display_trimRow h)).ge
  · exact (length_lt_display_trimRow (by simpa using h)).le

theorem writtenRow_eq_joinedRow (h : NoTrailingEmpty projR p.2) :
    writtenRow l r projL projR p = joinedRow l r projL projR p := by
  rw [writtenRow, joinedRow]
  congr 1
  refine flatMap_congr fun i hi => ?_
  obtain ⟨j, hj, rfl⟩ := mem_map.mp hi
  exact congrArg (· ++ ['|']) (display_trimRow (h j hj))

theorem length_joinedRow_le (p : List Line × List Line) :
    (joinedRow l r projL projR p).length ≤ (writtenRow l r projL projR p).length := by
  rw [writtenRow, joinedRow, length_append, length_append, length_cells (projR.map _),
    length_cells (projR.map _)]
  refine Nat.add_le_add_left (sum_le_sum fun i _ => ?_) _
  exact Nat.add_le_add_right (length_le_display_trimRow p.2 i) 1

theorem noTrailingEmpty_of_length
    (h : (writtenRow l r projL projR p).length = (joinedRow l r projL projR p).length) :
    NoTrailingEmpty projR p.2 := by
  rw [writtenRow, joinedRow, length_append, length_append, length_cells (projR.map _),
    length_cells (projR.map _)] at h
  have hfield := eq_of_sum_le
    (fun i _ => Nat.add_le_add_right (length_le_display_trimRow p.2 i) 1) (Nat.add_left_cancel h).le
  intro i hi
  by_contra hnone
  have hlt := length_lt_display_trimRow (t := p.2) (i := i) (by simpa using hnone)
  have heq := hfield i (mem_map_of_mem hi)
  omega

/-- **hash join が nested-loop join に一致するのは、読まれない行に同じ key の相手が無く、同じ key の
右の行の射影する欄がどれも末尾の空の欄でないとき、そのときに限る。** -/
theorem outstreamCreator_perm_iff (hname : l.name ≠ r.name) :
    (binRows (outstreamCreator (dataOf l r) [l.name] l.key [r.name] r.key
        (offsetsOf l r projL projR) fun _ => none) [l.name, r.name]).Perm
      (nestedLoopJoin l r projL projR) ↔
    (∀ s ∈ l.unread, ∀ t ∈ r.rows, r.keyOf t ≠ l.keyOf s) ∧
      (∀ s ∈ l.rows, ∀ t ∈ r.unread, r.keyOf t ≠ l.keyOf s) ∧
      ∀ s ∈ l.rows, ∀ t ∈ r.rows, r.keyOf t = l.keyOf s → NoTrailingEmpty projR t := by
  have hmem {s : List Line} (hs : s ∈ l.rows) : s ∈ l.read ∨ s ∈ l.unread := by
    rwa [l.rows_eq, mem_append] at hs
  have hunread {t : List Line} (ht : t ∈ r.unread) : t ∈ r.rows := by
    rw [r.rows_eq]
    exact mem_append_right _ ht
  constructor
  · intro h
    have hperm := (binRows_perm hname).symm.trans h
    -- 行の数が等しいので、読まれない行を含む組は無い
    have hlen := hperm.length_eq
    rw [length_map, nestedLoopJoin, length_map] at hlen
    have hcount : (pairs l r l.rows r.rows).length = (pairs l r l.read r.read).length +
        (pairs l r l.read r.unread).length + (pairs l r l.unread r.rows).length := by
      rw [← length_pairs_append_right, ← r.rows_eq, ← length_append, ← pairs_append_left,
        ← l.rows_eq]
    have hR : pairs l r l.read r.unread = [] := length_eq_zero_iff.mp (by omega)
    have hL : pairs l r l.unread r.rows = [] := length_eq_zero_iff.mp (by omega)
    have hnoL := pairs_eq_nil_iff.mp hL
    refine ⟨hnoL, fun s hs t ht => ?_, fun s hs t ht hkey => ?_⟩
    · rcases hmem hs with hs | hs
      · exact pairs_eq_nil_iff.mp hR s hs t ht
      · exact hnoL s hs t (hunread ht)
    · -- 残るのは同じ組の射影なので、行の長さを比べられる
      rw [nestedLoopJoin, pairs_rows_eq hL hR] at hperm
      have hpair : (s, t) ∈ pairs l r l.read r.read := by
        rw [← pairs_rows_eq hL hR]
        exact mem_pairs.mpr ⟨hs, ht, hkey⟩
      exact noTrailingEmpty_of_length
        (length_eq_of_perm_map (fun p _ => length_joinedRow_le p) hperm (s, t) hpair)
  · rintro ⟨hnoL, hnoR, hfull⟩
    have hL : pairs l r l.unread r.rows = [] := pairs_eq_nil_iff.mpr hnoL
    have hR : pairs l r l.read r.unread = [] :=
      pairs_eq_nil_iff.mpr fun s hs => hnoR s (Table.mem_rows_of_mem_read hs)
    rw [nestedLoopJoin, pairs_rows_eq hL hR]
    have hwritten : (pairs l r l.read r.read).map (writtenRow l r projL projR) =
        (pairs l r l.read r.read).map (joinedRow l r projL projR) := by
      refine map_congr_left fun p hp => writtenRow_eq_joinedRow ?_
      obtain ⟨hs, ht, hkey⟩ := mem_pairs.mp hp
      exact hfull p.1 (Table.mem_rows_of_mem_read hs) p.2 (Table.mem_rows_of_mem_read ht) hkey
    rw [← hwritten]
    exact binRows_perm hname

def keyedTable (name : List Char) (rows : List (List Line))
    (h : ∀ row ∈ rows, row.length = 2 ∧ (∀ f ∈ row, '|' ∉ f) ∧
      (row[0]?.bind parseInt).isSome = true) : Table where
  name := name
  columns := 2
  key := 0
  rows := rows
  length_eq row hrow := (h row hrow).1
  noBar row hrow := (h row hrow).2.1
  isInt row hrow := (h row hrow).2.2

/-- 同じ key の行が複数ある二つの表の join。 -/
theorem outstreamCreator_perm_iff_two_tables :
    let l := keyedTable ['R'] [[['1'], ['a']], [['2', '6'], ['b']], [['1'], ['c']]] (by decide)
    let r := keyedTable ['S'] [[['2', '6'], ['x']], [['1'], ['y']]] (by decide)
    l.name ≠ r.name ∧
      (binRows (outstreamCreator (dataOf l r) [l.name] l.key [r.name] r.key
        (offsetsOf l r (finRange _) (finRange _)) fun _ => none) [l.name, r.name]).Perm
        (nestedLoopJoin l r (finRange _) (finRange _)) ∧
      nestedLoopJoin l r (finRange _) (finRange _) =
        ["1|a|1|y|".toList, "26|b|26|x|".toList, "1|c|1|y|".toList] := by
  intro l r
  have hname : l.name ≠ r.name := by decide
  refine ⟨hname, (outstreamCreator_perm_iff hname).mpr ⟨by decide, by decide, ?_⟩, by decide⟩
  unfold NoTrailingEmpty
  decide

/-- 負の key の行は、同じ key の相手があっても結果に現れない。 -/
theorem outstreamCreator_negative_key :
    let l := keyedTable ['R'] [[['-', '1'], ['a']]] (by decide)
    let r := keyedTable ['S'] [[['-', '1'], ['x']]] (by decide)
    ¬ (binRows (outstreamCreator (dataOf l r) [l.name] l.key [r.name] r.key
        (offsetsOf l r (finRange _) (finRange _)) fun _ => none) [l.name, r.name]).Perm
        (nestedLoopJoin l r (finRange _) (finRange _)) ∧
      binRows (outstreamCreator (dataOf l r) [l.name] l.key [r.name] r.key
        (offsetsOf l r (finRange _) (finRange _)) fun _ => none) [l.name, r.name] = [] ∧
      nestedLoopJoin l r (finRange _) (finRange _) = ["-1|a|-1|x|".toList] := by
  intro l r
  exact ⟨by decide +kernel, by decide +kernel, by decide⟩

end Sql
