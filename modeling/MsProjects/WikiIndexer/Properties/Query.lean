import Mathlib.Algebra.Ring.Int.Defs
import Mathlib.Data.List.Sort
import MsProjects.Infra.Emit
import MsProjects.WikiIndexer.Query

/-! # 索引と辞書への問い合わせの正しさ -/

namespace WikiIndexer

open Infra List Dictionary

/-! ## `IndexReader.query` -/

/-- すべての語の結果にある文書が、回数の和とともに和の大きい順に並ぶこと。 -/
def QueryExact (l : List Counts) (out : Option (List (Term × Int))) : Prop :=
  ∃ rows, out = some rows ∧ (rows.map Prod.fst).Nodup ∧ rows.Pairwise (fun a b => b.2 ≤ a.2) ∧
    ∀ t n, (t, n) ∈ rows ↔ (∀ m ∈ l, t ∈ m.keySet) ∧ n = (l.map fun m => m.get t).sum

theorem scanFlag_eq {t : Term} {l : List Counts} (hl : l ≠ []) (flag : Bool) :
    scanFlag t l flag = decide (∀ m ∈ l, t ∈ m.keySet) := by
  induction l generalizing flag with
  | nil => exact absurd rfl hl
  | cons m rest ih =>
    unfold scanFlag
    by_cases hm : t ∈ m.keySet
    · rw [if_pos hm]
      cases rest with
      | nil => simp [scanFlag, hm]
      | cons m' rest => simp [ih (cons_ne_nil m' rest), hm]
    · simp [hm]

theorem keys_collect {l : List Counts} (hl : l.tail ≠ []) (ts : List Term) (flag : Bool) (cnt : Int) :
    (collect l ts flag cnt).map Prod.fst = ts.filter fun t => ∀ m ∈ l.tail, t ∈ m.keySet := by
  induction ts generalizing flag cnt with
  | nil => rfl
  | cons t ts ih =>
    unfold collect
    simp only [scanFlag_eq hl, filter_cons]
    split
    · rw [map_cons, ih]
    · exact ih _ _

theorem length_drain {l rows : List (Term × Int)} (h : drain l = some rows) :
    l.length = 2 * rows.length := by
  induction l using drain.induct generalizing rows with
  | case1 =>
    cases h
    rfl
  | case2 => cases h
  | case3 first second rest ih =>
    obtain ⟨rows', hrest, rfl⟩ := Option.map_eq_some_iff.mp h
    rw [length_cons, length_cons, length_cons, ih hrest]
    omega

/-- **二つ以上の語の問い合わせは、どの結果についても正しくない。** -/
theorem query_never_exact (poll : List (Term × Int) → List (Term × Int))
    (hpoll : ∀ result, (poll result).Perm result) (stem : Term → Term)
    (getPostings : Term → Option Counts) (terms : List Term) (hterms : 2 ≤ terms.length)
    (l : List Counts) (hl : (terms.map stem).mapM getPostings = some l) :
    ¬ QueryExact l (IndexReader.query poll stem getPostings terms) := by
  rintro ⟨rows, hquery, -, -, hrows⟩
  have hlen : terms.length = l.length := by
    simpa using congrArg length (mapM_eq_some_iff.mp hl)
  obtain _ | ⟨t₁, _ | ⟨t₂, ts⟩⟩ := terms
  · simp at hterms
  · simp at hterms
  obtain _ | ⟨m, _ | ⟨m', ms⟩⟩ := l
  · simp at hlen
  · simp at hlen
  have hkeys := keys_collect (l := m :: m' :: ms) (cons_ne_nil m' ms) m.keySet false 0
  unfold IndexReader.query at hquery
  simp only [map_cons] at hquery hl
  simp only [hl, Option.bind_eq_bind, Option.bind_some, head?_cons] at hquery
  generalize collect (m :: m' :: ms) m.keySet false 0 = result at hkeys hquery
  split at hquery
  · cases hquery
  · next hne =>
    -- 取り出した行は見つけた文書の半分しかない。
    have hhalf := length_drain hquery
    rw [(hpoll result).length_eq] at hhalf
    have hsub : result.map Prod.fst ⊆ rows.map Prod.fst := by
      intro t ht
      rw [hkeys, mem_filter] at ht
      have hall : ∀ c ∈ m :: m' :: ms, t ∈ c.keySet := by
        simpa [ht.1] using ht.2
      exact mem_map_of_mem ((hrows t _).mpr ⟨hall, rfl⟩)
    have hnodup : (result.map Prod.fst).Nodup := by
      rw [hkeys]
      exact m.nodup.filter _
    have hle := (subperm_of_subset hnodup hsub).length_le
    simp only [length_map] at hle
    exact hne (by simpa using length_eq_zero_iff.mp (show result.length = 0 by omega))

def oneDocument : Counts := ⟨[(['d'], 1)], by decide⟩

/-- 値の大きい順に取り出す `PriorityQueue`。 -/
def pollAll : List (Term × Int) → List (Term × Int) := insertionSort fun a b => b.2 ≤ a.2

theorem query_never_exact_document : ¬ QueryExact [oneDocument, oneDocument]
    (IndexReader.query pollAll id (fun _ => some oneDocument) [['a'], ['b']]) :=
  query_never_exact pollAll (perm_insertionSort _) id _ _ (by decide) _ rfl

/-- 一つの文書を共有する二つの語では、二つ目の `poll` が null を返す。 -/
theorem query_single_document :
    IndexReader.query pollAll id (fun _ => some oneDocument) [['a'], ['b']] = none ∧
      ∀ m ∈ [oneDocument, oneDocument], ['d'] ∈ m.keySet := by
  decide

/-! ## `Dictionary.query` -/

/-- 高々一つの `*` を含む型 `q` に語 `w` が合うこと。 -/
def Matches (q w : Term) : Prop :=
  (∃ a mid b, q = a ++ '*' :: b ∧ w = a ++ (mid ++ b)) ∨ '*' ∉ q ∧ w = q

/-- 型に合う語が、辞書の順に一度ずつ返ること。 -/
def LookupExact (cs : Casing) (l : List Term) (q : Term) : Prop :=
  ∃ o, query cs l q = some o ∧ o.Nodup ∧ o.Sublist l ∧ ∀ w, w ∈ o ↔ w ∈ l ∧ Matches q w

variable {cs : Casing}

/-- `*` の前後の `a` と `b` を含み、先頭が `a` と、末尾が `b` と大文字小文字を除いて等しい語。 -/
structure Resembles (cs : Casing) (a b w : Term) : Prop where
  before : a <:+: w ∧ cs.sameIgnoreCase (w.take a.length) a
  after : b <:+: w ∧ cs.sameIgnoreCase (w.drop (w.length - b.length)) b

theorem resembles_iff {a b w : Term} :
    Resembles cs a b w ↔ (cs.startsLike w a && cs.endsLike w b) = true := by
  simp only [Casing.startsLike, Casing.endsLike, Bool.and_eq_true, decide_eq_true_eq]
  exact ⟨fun h => ⟨h.before, h.after⟩, fun h => ⟨h.1, h.2⟩⟩

instance (a b w : Term) : Decidable (Resembles cs a b w) := decidable_of_iff' _ resembles_iff

theorem resembles_of_ends {a b w : Term} (ha : a <+: w) (hb : b <:+ w) : Resembles cs a b w where
  before := ⟨ha.isInfix, by simp [← prefix_iff_eq_take.mp ha, Casing.sameIgnoreCase]⟩
  after := ⟨hb.isInfix, by simp [← suffix_iff_eq_drop.mp hb, Casing.sameIgnoreCase]⟩

theorem query_star {l : List Term} (hl : ∀ w ∈ l, ∀ c ∈ w, cs.lower c = c) {a b : Term} (ha : '*' ∉ a)
    (hb : '*' ∉ b) (hla : cs.toLowerCase a = a) (hlb : cs.toLowerCase b = b) :
    query cs l (a ++ '*' :: b) = some (l.filter fun w => cs.startsLike w a && cs.endsLike w b) := by
  have hlower : l.map cs.toLowerCase = l :=
    (map_congr_left fun w hw => cs.toLowerCase_eq w (hl w hw)).trans (map_id l)
  unfold query
  rw [hlower]
  cases a with
  | nil => simp [Casing.startsLike, Casing.sameIgnoreCase]
  | cons c a =>
    have hc : c ≠ '*' := fun h => ha (h ▸ mem_cons_self)
    simp only [cons_append, head?_cons, Option.bind_eq_bind, Option.bind_some, if_neg hc]
    cases b with
    | nil =>
      rw [← cons_append, if_pos getLast?_concat, dropLast_concat]
      simp [Casing.endsLike, Casing.sameIgnoreCase]
    | cons d b =>
      have hlast : (c :: (a ++ '*' :: d :: b)).getLast? ≠ some '*' := by
        rw [← cons_append, getLast?_append_cons, getLast?_cons_cons]
        exact fun h => hb (mem_of_getLast? h)
      have hparts : (c :: (a ++ '*' :: d :: b)).splitOn '*' = [c :: a, d :: b] := by
        have hsplit : (['*'].intercalate [c :: a, d :: b]).splitOn '*' = [c :: a, d :: b] :=
          splitOn_intercalate '*' (by simp [ha, hb]) (by simp)
        simpa [intercalate] using hsplit
      rw [if_neg hlast, if_pos (by simp), hparts]
      simp only [getElem?_cons_zero, getElem?_cons_succ, Option.bind_some, hla, hlb]
      rfl

theorem matches_star_iff {a b : Term} (ha : '*' ∉ a) (hb : '*' ∉ b) {w : Term} :
    Matches (a ++ '*' :: b) w ↔ a <+: w ∧ b <:+ w ∧ a.length + b.length ≤ w.length := by
  constructor
  · rintro (⟨a', mid, b', hq, rfl⟩ | ⟨hno, -⟩)
    · obtain ⟨rfl, -, rfl⟩ := (append_cons_inj_of_notMem ha hb).mp hq
      exact ⟨prefix_append _ _, ⟨a ++ mid, by simp⟩, by simp⟩
    · simp at hno
  · rintro ⟨⟨rest, rfl⟩, hsuf, hlen⟩
    have hsuf : b <:+ rest := suffix_of_suffix_length_le hsuf (suffix_append a rest) (by simpa using hlen)
    obtain ⟨mid, rfl⟩ := hsuf
    exact .inl ⟨a, mid, b, rfl, rfl⟩

/--
**`Dictionary.query` が型に合う語をちょうど返すのは、型が空でなく、`*` の無い型が辞書に無く、
先頭と末尾が `*` の前後に似ている語では、それらが実際に等しく、重ならないときである。**
-/
theorem dictionary_query_iff (cs : Casing) (l : List Term) (q : Term) (hnodup : l.Nodup)
    (hl : ∀ w ∈ l, ∀ c ∈ w, cs.lower c = c) (hq : ∀ c ∈ q, cs.lower c = c) (hstar : q.count '*' ≤ 1) :
    LookupExact cs l q ↔ q ≠ [] ∧ ('*' ∉ q → q ∉ l) ∧
      ∀ a b, q = a ++ '*' :: b → ∀ w ∈ l, Resembles cs a b w →
        a <+: w ∧ b <:+ w ∧ a.length + b.length ≤ w.length := by
  by_cases hmem : '*' ∈ q
  · obtain ⟨a, b, rfl, ha⟩ := eq_append_cons_of_mem hmem
    have hb : '*' ∉ b := by
      rw [count_append, count_cons_self] at hstar
      exact count_eq_zero.mp (by omega)
    have hla := cs.toLowerCase_eq a fun c hc => hq c (mem_append_left _ hc)
    have hlb := cs.toLowerCase_eq b fun c hc => hq c (mem_append_right _ (mem_cons_of_mem _ hc))
    unfold LookupExact
    rw [query_star hl ha hb hla hlb]
    simp only [Option.some.injEq, exists_eq_left', matches_star_iff ha hb, mem_filter, ← resembles_iff]
    constructor
    · rintro ⟨-, -, hall⟩
      refine ⟨by simp, fun hno => absurd hmem hno, fun a' b' heq w hw hlike => ?_⟩
      obtain ⟨rfl, -, rfl⟩ := (append_cons_inj_of_notMem ha hb).mp heq
      exact ((hall w).mp ⟨hw, hlike⟩).2
    · rintro ⟨-, -, hends⟩
      refine ⟨hnodup.filter _, filter_sublist, fun w => ⟨?_, ?_⟩⟩
      · rintro ⟨hw, hlike⟩
        exact ⟨hw, hends a b rfl w hw hlike⟩
      · rintro ⟨hw, hpre, hsuf, -⟩
        exact ⟨hw, resembles_of_ends hpre hsuf⟩
  · have hmatch : ∀ w, Matches q w ↔ w = q := by
      intro w
      constructor
      · rintro (⟨a, mid, b, rfl, -⟩ | ⟨-, rfl⟩)
        · simp at hmem
        · rfl
      · exact fun h => .inr ⟨hmem, h⟩
    have hquery : query cs l q = if q = [] then none else some [] := by
      unfold query
      cases q with
      | nil => rfl
      | cons c q =>
        have hc : c ≠ '*' := fun h => hmem (h ▸ mem_cons_self)
        have hlast : (c :: q).getLast? ≠ some '*' := fun h => hmem (mem_of_getLast? h)
        simp [hc, hlast, hmem]
    have hnone : ∀ a b, q ≠ a ++ '*' :: b := by
      rintro a b rfl
      simp at hmem
    unfold LookupExact
    rw [hquery]
    by_cases hq : q = [] <;> simp [hq, hmatch, hmem, hnone, forall_mem_ne']

theorem dictionary_query_iff_middle : LookupExact .ascii [['a', 'b'], ['a', 'c', 'b']] ['a', '*', 'b'] := by
  refine (dictionary_query_iff .ascii _ _ (by decide) (by simp [Casing.ascii]) (by simp [Casing.ascii])
    (by decide)).mpr
    ⟨by decide, by decide, fun a b heq => ?_⟩
  have hsplit : ['a'] ++ '*' :: ['b'] = a ++ '*' :: b := heq
  obtain ⟨rfl, -, rfl⟩ := (append_cons_inj_of_notMem (by decide) (by decide)).mp hsplit
  decide

/-- 辞書にある語そのものを引いても、何も返らない。 -/
theorem dictionary_query_exact_word :
    query .ascii [['a']] ['a'] = some [] ∧ Matches ['a'] ['a'] :=
  ⟨rfl, .inr ⟨by decide, rfl⟩⟩

end WikiIndexer
