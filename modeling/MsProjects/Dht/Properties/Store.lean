import MsProjects.Dht.Store
import MsProjects.Dynamo.Properties.Insert
import MsProjects.Dynamo.Properties.Map

/-! # SimpleDht の query と delete -/

namespace Dht.Store

open List Function Infra Dynamo
open Dynamo (Row Env Ring putAll putAll_append mem_putAll_iff nodup_putAll lookup_eq_some_iff_mem)

variable {ι H : Type*} [LinearOrder H] [DecidableEq ι] {env : Env ι H} {s t base : Store ι}
  {q o c x : ι} {key : String}

def Step (env : Env ι H) (s : Store ι) (a : Label ι) (t : Store ι) : Prop := step env s a = some t

/-! ## 一つだけの message -/

/-- message を届ける step。 -/
def Label.Delivers : Label ι → Prop
  | .connect _ => True
  | _ => False

/-- message を届けるか、`q` の query を返す step。 -/
def Label.Answers (q : ι) : Label ι → Prop
  | .connect _ => True
  | .returnQuery o => o = q
  | _ => False

section

variable {A : Label ι → Prop} {P Q : Store ι → Prop} {n : Nat} {m : Message ι}
  (hq : base.senders = [])

include hq

theorem until_deliver (hconnect : A (.connect 0))
    (hA : ∀ a u, A a → Step env (base.sendMsg m) a u → a.Delivers) (hP : P (base.sendMsg m))
    (h : Until (Step env) A P Q n (processMessage env base m)) :
    Until (Step env) A P Q (n + 1) (base.sendMsg m) := by
  have hsole : (base.sendMsg m).senders = [m] := by simp [sendMsg, hq]
  have hbase : { base.sendMsg m with senders := [] } = base := by
    cases base
    cases hq
    rfl
  have hstep : step env (base.sendMsg m) (.connect 0) = some (processMessage env base m) := by
    simp only [step, hsole, getElem?_cons_zero, Option.map_some, eraseIdx_cons_zero]
    exact congrArg (fun s => some (processMessage env s m)) hbase
  refine .only hP hconnect hstep (fun a u ha hu => ?_) h
  have hl := hA a u ha hu
  cases a with
  | connect i =>
    cases i with
    | zero => exact (Option.some.inj (hstep.symm.trans hu)).symm
    | succ i => simp [Step, step, hsole] at hu
  | query | delete | returnQuery => exact hl.elim

theorem until_done (hA : ∀ a u, A a → Step env base a u → a.Delivers) (hQ : Q base) :
    Until (Step env) A P Q 0 base := by
  refine .done hQ fun a u ha hu => ?_
  have hl := hA a u ha hu
  cases a with
  | connect i => simp [Step, step, hq] at hu
  | query | delete | returnQuery => exact hl.elim

end

theorem Label.Answers.delivers {a : Label ι} (ha : a.Answers q) (hu : Step env s a t)
    (hno : ¬ (s.waiting q = true ∧ s.isresult q = true)) : a.Delivers := by
  cases a with
  | connect => trivial
  | returnQuery p =>
    obtain rfl : p = q := ha
    simp [Step, step, hno] at hu
  | query | delete => exact ha.elim

/-! ## すべての行の query -/

/-- 返事を待っている query。 -/
structure Waiting (base : Store ι) (q : ι) : Prop where
  quiet : base.senders = []
  waiting : base.waiting q = true
  cursor : base.resultCursor q = []
  isresult : base.isresult q = false

theorem Waiting.until_deliver (hb : Waiting base q) {Q : Store ι → Prop} {n : Nat} {m : Message ι}
    (h : Until (Step env) (Label.Answers q) (·.waiting q = true) Q n (processMessage env base m)) :
    Until (Step env) (Label.Answers q) (·.waiting q = true) Q (n + 1) (base.sendMsg m) :=
  Store.until_deliver hb.quiet trivial
    (fun _ _ ha hu => ha.delivers hu (by simp [sendMsg, hb.isresult])) hb.waiting h

/-- `q` の query が `rows` を返した。 -/
def Returned (s : Store ι) (q : ι) (rows : List Row) (u : Store ι) : Prop :=
  u.waiting q = false ∧ u.answers = s.answers ++ [(q, some rows)]

theorem Waiting.until_star (hb : Waiting base q) {l : List ι} (hwalk : Walk env.ring.successor q l x)
    (result : List Row) :
    Until (Step env) (Label.Answers q) (·.waiting q = true)
      (Returned base q ((env.keySet
        (putAll result (l.flatMap fun n => (base.table n).map Prod.swap))).map Prod.swap))
      (l.length + 2) (base.sendMsg ⟨q, x, .queryAll result⟩) := by
  induction l generalizing x result base with
  | nil =>
    obtain rfl : x = q := hwalk
    refine hb.until_deliver ?_
    have hadd : processMessage env base ⟨x, x, .queryAll result⟩ = addResult env base x result :=
      if_pos rfl
    rw [hadd]
    refine .only (a := .returnQuery x) hb.waiting rfl (if_pos ⟨hb.waiting, update_self _ _ _⟩) ?_ ?_
    · intro a u ha hu
      cases a with
      | connect i => simp [Step, step, addResult, hb.quiet] at hu
      | returnQuery p =>
        obtain rfl : p = x := ha
        exact (Option.some.inj ((if_pos ⟨hb.waiting, update_self _ _ _⟩).symm.trans hu)).symm
      | query | delete => exact ha.elim
    · refine until_done hb.quiet (fun _ _ ha hu => ha.delivers hu (by simp)) ⟨update_self _ _ _, ?_⟩
      simp [answer, addResult, hb.cursor, putAll]
  | cons y l ih =>
    obtain ⟨rfl, hne, hwalk⟩ := hwalk
    have hb' : Waiting (newCursor base x) q :=
      ⟨hb.quiet, hb.waiting, (update_of_ne hne.symm _ _).trans hb.cursor, hb.isresult⟩
    have hforward : processMessage env base ⟨q, x, .queryAll result⟩ =
        (newCursor base x).sendMsg ⟨q, env.ring.successor x,
          .queryAll (putAll result ((base.table x).map Prod.swap))⟩ := if_neg hne.symm
    refine hb.until_deliver ?_
    rw [hforward, flatMap_cons, putAll_append]
    exact ih hb' hwalk _

/-- `q` の query が、いずれかの node にある行をちょうど一つずつ返す。 -/
def ReturnsAll (s : Store ι) (q : ι) (u : Store ι) : Prop :=
  ∃ rows, Returned s q rows u ∧ rows.Nodup ∧ ∀ row, row ∈ rows ↔ ∃ n, row ∈ s.table n

/-- 一周する表に入る、value と key の組。 -/
def collected (s : Store ι) (q : ι) (l : List ι) : List Row :=
  (q :: l).flatMap fun n => (s.table n).map Prod.swap

omit [DecidableEq ι] in
theorem mem_reverse_collected_iff {l : List ι} (hl : ∀ n, n ∈ l ↔ n ≠ q) {k v : String} :
    (v, k) ∈ (collected s q l).reverse ↔ ∃ n, (k, v) ∈ s.table n := by
  have hswap : ∀ rows : List Row, (v, k) ∈ rows.map Prod.swap ↔ (k, v) ∈ rows := by simp
  simp only [collected, mem_reverse, mem_flatMap, hswap, mem_cons, hl]
  exact exists_congr fun n => and_iff_right (em _)

omit [DecidableEq ι] in
/-- 返る行の value には、その value の最後の行の key が付く。 -/
theorem mem_rows_iff {pairs : List Row} {k v : String} :
    (k, v) ∈ (env.keySet (putAll [] pairs)).map Prod.swap ↔ pairs.reverse.lookup v = some k := by
  have hswap : ∀ rows : List Row, (k, v) ∈ rows.map Prod.swap ↔ (v, k) ∈ rows := by simp
  rw [hswap, (env.keySet_perm _).mem_iff, mem_putAll_iff (m := []) nodup_nil]
  simp

omit [DecidableEq ι] in
theorem nodup_rows (env : Env ι H) (pairs : List Row) :
    ((env.keySet (putAll [] pairs)).map Prod.swap).Nodup := by
  have hnodup : (putAll [] pairs).Nodup := (nodup_putAll (m := []) nodup_nil).of_map _
  exact ((env.keySet_perm _).nodup_iff.mpr hnodup).map Prod.swap_injective

/-- **返る行が正しいのは、value の等しい行の key がすべて等しいときである。** -/
theorem star_query_exact_iff [Fintype ι] (hcard : 2 ≤ Fintype.card ι) (env : Env ι H)
    (hq : s.senders = []) (hidle : s.isresult q = false) (hquery : Step env s (.query q "*") t) :
    (∃ n, Until (Step env) (Label.Answers q) (·.waiting q = true) (ReturnsAll s q) n t) ↔
      ∀ n n' k k' v, (k, v) ∈ s.table n → (k', v) ∈ s.table n' → k = k' := by
  have : Nontrivial ι := Fintype.one_lt_card_iff_nontrivial.mp hcard
  obtain ⟨-, rfl⟩ : s.waiting q = false ∧ query env s q "*" = t := by
    simpa [Step, step] using hquery
  obtain ⟨l, hwalk, hl⟩ := env.ring.cyclic.exists_walk env.ring.predessor_successor
    env.ring.successor_predessor q
  have hb : Waiting { newCursor s q with waiting := update s.waiting q true } q :=
    ⟨hq, update_self _ _ _, update_self _ _ _, hidle⟩
  have huntil : Until (Step env) (Label.Answers q) (·.waiting q = true)
      (Returned s q ((env.keySet (putAll [] (collected s q l))).map Prod.swap)) (l.length + 2)
      (query env s q "*") := by
    rw [query, if_neg (env.ring.successor_ne q), collected, flatMap_cons, putAll_append]
    exact hb.until_star hwalk _
  refine huntil.exists_iff_of fun u ⟨hwait, hanswers⟩ => ⟨?_, fun hone => ?_⟩
  · rintro ⟨rows, ⟨-, hrows⟩, -, hexact⟩ n n' k k' v hk hk'
    obtain rfl : rows = (env.keySet (putAll [] (collected s q l))).map Prod.swap := by
      simpa using hrows.symm.trans hanswers
    have h₁ := mem_rows_iff.mp ((hexact (k, v)).mpr ⟨n, hk⟩)
    have h₂ := mem_rows_iff.mp ((hexact (k', v)).mpr ⟨n', hk'⟩)
    exact Option.some.inj (h₁.symm.trans h₂)
  · refine ⟨_, ⟨hwait, hanswers⟩, nodup_rows env _, fun ⟨k, v⟩ => ?_⟩
    rw [mem_rows_iff, lookup_eq_some_iff_mem, mem_reverse_collected_iff hl]
    intro k k' hk hk'
    obtain ⟨n, hk⟩ := (mem_reverse_collected_iff hl).mp hk
    obtain ⟨n', hk'⟩ := (mem_reverse_collected_iff hl).mp hk'
    exact hone n n' k k' v hk hk'

/-- 何も待っていない三つの node。 -/
def still (rows₀ rows₁ : List Row) : Store (Fin 3) where
  table n := if n.val = 0 then rows₀ else if n.val = 1 then rows₁ else []
  lastNode _ := false
  resultCursor _ := []
  isresult _ := false
  waiting _ := false
  answers := []
  delrows _ := 0
  senders := []

/-- 値の異なる行は、どれも一つずつ返る。 -/
theorem star_query_exact_iff_distinct :
    ∃ t n, Step trio (still [("a", "1")] [("b", "2")]) (.query 0 "*") t ∧
      Until (Step trio) (Label.Answers 0) (·.waiting 0 = true)
        (ReturnsAll (still [("a", "1")] [("b", "2")]) 0) n t := by
  obtain ⟨t, ht⟩ : ∃ t, step trio (still [("a", "1")] [("b", "2")]) (.query 0 "*") =
    some t := ⟨_, rfl⟩
  obtain ⟨n, hn⟩ := (star_query_exact_iff (by decide) trio rfl rfl ht).mpr (by
    intro n n' k k' v hk hk'
    simp only [still] at hk hk'
    grind)
  exact ⟨t, n, ht, hn⟩

/-- 値の等しい二つの行のうち、返るのは一つだけである。 -/
theorem star_query_drops_row :
    ∃ t, [Label.query 0 "*", .connect 0, .connect 0, .connect 0, .returnQuery 0].foldlM
        (step trio) (still [("a", "v")] [("b", "v")]) = some t ∧
      t.answers = [(0, some [("b", "v")])] := ⟨_, rfl, rfl⟩

/-! ## key の delete -/

/-- 特別な意味を持たず、SQL の文字列を閉じない key。 -/
structure Plain (key : String) : Prop where
  at_ne : key ≠ "@"
  star_ne : key ≠ "*"
  quote : '\'' ∉ key.toList

def Holds (s : Store ι) (key : String) (n : ι) : Prop := ∃ value, (key, value) ∈ s.table n

def rowsOf (s : Store ι) (key : String) (n : ι) : List Row := (s.table n).filter fun row => row.1 = key

/-- node `x` の key の行だけが消え、message も flag も残っていない。 -/
structure Erased (s : Store ι) (key : String) (x : ι) (u : Store ι) : Prop where
  senders : u.senders = []
  lastNode : u.lastNode = s.lastNode
  table : u.table = update s.table x ((s.table x).filter fun row => row.1 ≠ key)

/-- delete の message が処理されて終わる。 -/
abbrev Ends (env : Env ι H) (Q : Store ι → Prop) : Nat → Store ι → Prop :=
  Until (Step env) Label.Delivers (·.senders ≠ []) Q

/-- `o` の delete が key の行を消す node。担当の節を満たす node が無ければ、message は `o` に戻る。 -/
def Target (env : Env ι H) (o : ι) (hashKey : H) (x : ι) : Prop :=
  (∀ y, inRange env y hashKey = true ↔ y = x) ∨ (∀ y, inRange env y hashKey = false) ∧ x = o

theorem deleteLocal_eq (env : Env ι H) (s : Store ι) (hk : Plain key) (n : ι) :
    ∃ k, deleteLocal env s n key =
      some (k, s.setTable n ((s.table n).filter fun row => row.1 ≠ key)) := by
  rw [deleteLocal, Env.deleteWhere, if_neg hk.quote]
  exact ⟨_, rfl⟩

theorem exists_ends_walk (hk : Plain key) (hq : s.senders = []) (hflag : s.lastNode o = false)
    {y : ι} {l : List ι} (hwalk : Walk env.ring.successor o l y)
    (hx : (∀ y, inRange env y (env.genHash key) = true ↔ y = x) ∧ x ∈ l ∨
      (∀ y, inRange env y (env.genHash key) = false) ∧ x = o) :
    ∃ n, Ends env (Erased s key x) n (s.sendMsg ⟨o, y, .delKey key⟩) := by
  have hdeliver {s : Store ι} {m : Message ι} {Q : Store ι → Prop} {n : Nat} (hq : s.senders = [])
      (h : Ends env Q n (processMessage env s m)) : Ends env Q (n + 1) (s.sendMsg m) :=
    until_deliver hq trivial (fun _ _ ha _ => ha) (by simp [sendMsg]) h
  induction l generalizing y with
  | nil =>
    obtain rfl : y = o := hwalk
    obtain ⟨hnone, rfl⟩ := hx.resolve_left fun h => not_mem_nil h.2
    obtain ⟨k, hlocal⟩ := deleteLocal_eq env { s with lastNode := update s.lastNode x true } hk x
    refine ⟨1, hdeliver hq ?_⟩
    have hback : processMessage env s ⟨x, x, .delKey key⟩ =
        { s.setTable x ((s.table x).filter fun row => row.1 ≠ key) with
          lastNode := update (update s.lastNode x true) x false } := by
      simp [processMessage, processDeleteRequestMsg, delete, hnone, hk.at_ne, hk.star_ne, hlocal,
        setTable]
    rw [hback]
    refine until_done hq (fun _ _ ha _ => ha) ⟨hq, ?_, rfl⟩
    simp [← hflag]
  | cons z l ih =>
    obtain ⟨rfl, hne, hwalk⟩ := hwalk
    by_cases hin : inRange env y (env.genHash key) = true
    · obtain ⟨hiff, -⟩ := hx.resolve_right fun h => by simp [h.1] at hin
      obtain rfl := (hiff y).mp hin
      obtain ⟨k, hlocal⟩ := deleteLocal_eq env s hk y
      have hhit : processMessage env s ⟨o, y, .delKey key⟩ =
          (s.setTable y ((s.table y).filter fun row => row.1 ≠ key)).sendMsg
            ⟨o, o, .delResult k⟩ := by
        simp [processMessage, processDeleteRequestMsg, delete, hin, hk.at_ne, hk.star_ne, hlocal]
      refine ⟨2, hdeliver hq (hhit ▸ hdeliver hq ?_)⟩
      exact until_done hq (fun _ _ ha _ => ha) ⟨hq, rfl, rfl⟩
    · have hforward : processMessage env s ⟨o, y, .delKey key⟩ =
          s.sendMsg ⟨o, env.ring.successor y, .delKey key⟩ := by
        simp [processMessage, processDeleteRequestMsg, hin, hne.symm]
      obtain ⟨n, hn⟩ := ih hwalk (hx.imp_left fun ⟨hiff, hmem⟩ =>
        ⟨hiff, (mem_cons.mp hmem).resolve_left fun heq => hin ((hiff y).mpr heq.symm)⟩)
      exact ⟨n + 1, hdeliver hq (hforward ▸ hn)⟩

theorem exists_ends_delete [Finite ι] (hk : Plain key) (hq : s.senders = [])
    (hflag : s.lastNode o = false) (hx : Target env o (env.genHash key) x) :
    ∃ n, Ends env (Erased s key x) n (delete env s o key).2 := by
  by_cases hin : inRange env o (env.genHash key) = true
  · obtain rfl : o = x := by
      rcases hx with hiff | ⟨hnone, -⟩
      · exact (hiff o).mp hin
      · simp [hnone] at hin
    obtain ⟨k, hlocal⟩ := deleteLocal_eq env s hk o
    have hown : (delete env s o key).2 =
        s.setTable o ((s.table o).filter fun row => row.1 ≠ key) := by
      simp [delete, hin, hk.at_ne, hk.star_ne, hlocal]
    rw [hown]
    exact ⟨0, until_done hq (fun _ _ ha _ => ha) ⟨hq, rfl, rfl⟩⟩
  · have hsend : (delete env s o key).2 = s.sendMsg ⟨o, env.ring.successor o, .delKey key⟩ := by
      simp [delete, hin, hk.at_ne, hk.star_ne, hflag]
    rw [hsend]
    obtain ⟨l, hwalk, hl⟩ := env.ring.cyclic.exists_walk env.ring.predessor_successor
      env.ring.successor_predessor o
    refine exists_ends_walk hk hq hflag hwalk (hx.imp_left fun hiff => ⟨hiff, (hl x).mpr ?_⟩)
    rintro rfl
    exact hin ((hiff x).mpr rfl)

omit [DecidableEq ι] in
/-- 消える node。hash の最も小さい node が担当の key では、呼んだ node である。 -/
theorem target_of_owns {h : H} (hc : Owns env.ring.hashKey c h) (o : ι) :
    ¬ IsLowest env.ring.hashKey c ∧ Target env o h c ∨
      IsLowest env.ring.hashKey c ∧ Target env o h o := by
  have hin (y : ι) : inRange env y h = true ↔
      env.ring.hashKey (env.ring.predessor y) < h ∧ h ≤ env.ring.hashKey y := by
    simp [inRange, and_comm]
  have heq (y : ι) (hy : inRange env y h = true) : y = c :=
    (env.ring.cyclic.owns_iff.mpr (.inl ((hin y).mp hy))).unique env.ring.cyclic.injective hc
  by_cases hlow : IsLowest env.ring.hashKey c
  · refine .inr ⟨hlow, .inr ⟨fun y => Bool.eq_false_of_not_eq_true fun hy => ?_, rfl⟩⟩
    obtain rfl := heq y hy
    obtain ⟨hlt, hle⟩ := (hin y).mp hy
    exact absurd (hlow _) (not_le.mpr (hlt.trans_le hle))
  · refine .inl ⟨hlow, .inl fun y => ⟨heq y, ?_⟩⟩
    rintro rfl
    exact (hin y).mpr ((env.ring.cyclic.owns_iff.mp hc).resolve_right fun h => hlow h.1)

omit [DecidableEq ι] in
theorem exists_target [Finite ι] (env : Env ι H) (o : ι) (h : H) : ∃ x, Target env o h x := by
  have : Nonempty ι := ⟨o⟩
  obtain ⟨c, hc⟩ := exists_owns env.ring.hashKey h
  rcases target_of_owns hc o with ⟨-, hx⟩ | ⟨-, hx⟩
  · exact ⟨c, hx⟩
  · exact ⟨o, hx⟩

theorem Erased.rowsOf_eq (h : Erased s key x t) (n : ι) :
    rowsOf t key n = if n = x then [] else rowsOf s key n := by
  rw [rowsOf, h.table]
  split <;> rename_i hn
  · subst hn
    simp [filter_filter]
  · rw [update_of_ne hn, rowsOf]

theorem Erased.rowsOf_of_ne (h : Erased s key x t) {k : String} (hk : k ≠ key) (n : ι) :
    rowsOf t k n = rowsOf s k n := by
  rw [rowsOf, rowsOf, h.table]
  by_cases hn : n = x
  · subst hn
    rw [update_self, filter_filter]
    refine filter_congr fun row _ => ?_
    by_cases hrow : row.1 = k <;> simp [hrow, hk]
  · rw [update_of_ne hn]

/-- ほかの key の delete は、`s` からでも `u` からでも、その key の同じ行を残す。 -/
def Unaffected (env : Env ι H) (s : Store ι) (key : String) (u : Store ι) : Prop :=
  ∀ o k, Plain k → k ≠ key → ∀ n, ∃ rows,
    (∃ i, Ends env (fun v => rowsOf v k n = rows) i (delete env s o k).2) ∧
      ∃ i, Ends env (fun v => rowsOf v k n = rows) i (delete env u o k).2

theorem Erased.unaffected [Finite ι] (h : Erased s key x t) (hq : s.senders = [])
    (hflag : ∀ n, s.lastNode n = false) : Unaffected env s key t := by
  intro o k hk hne n
  obtain ⟨y, hy⟩ := exists_target env o (env.genHash k)
  obtain ⟨i, hi⟩ := exists_ends_delete hk hq (hflag o) hy
  obtain ⟨j, hj⟩ := exists_ends_delete hk h.senders (h.lastNode ▸ hflag o) hy
  refine ⟨if n = y then [] else rowsOf s k n, ⟨i, hi.mono fun v hv => hv.rowsOf_eq n⟩,
    ⟨j, hj.mono fun v hv => ?_⟩⟩
  rw [hv.rowsOf_eq, h.rowsOf_of_ne hne]

/-- **delete が担当の node の行を消すのは、担当が hash の最も小さい node でないか、その node で呼ばれたときである。** -/
theorem delete_erases_iff [Finite ι] (env : Env ι H) (hq : s.senders = [])
    (hflag : ∀ n, s.lastNode n = false) (hk : Plain key)
    (hc : Owns env.ring.hashKey c (env.genHash key)) (hstored : s.Holds key c)
    (hdelete : Step env s (.delete o key) t) :
    (∃ n, Until (Step env) Label.Delivers (·.senders ≠ [])
      (fun u => ¬ u.Holds key c ∧ Unaffected env s key u) n t) ↔
      (IsLowest env.ring.hashKey c → o = c) := by
  obtain rfl : (delete env s o key).2 = t := Option.some.inj hdelete
  have hiff {x : ι} (hx : Target env o (env.genHash key) x) :
      (∃ n, Ends env (fun u => ¬ u.Holds key c ∧ Unaffected env s key u) n
        (delete env s o key).2) ↔ x = c := by
    obtain ⟨n, hn⟩ := exists_ends_delete hk hq (hflag o) hx
    refine hn.exists_iff_of fun u hu => ?_
    have hnil : ¬ u.Holds key c ↔ rowsOf u key c = [] := filter_key_eq_nil_iff.symm
    rw [and_iff_left (hu.unaffected hq hflag), hnil, hu.rowsOf_eq]
    split <;> rename_i hcx
    · exact iff_of_true rfl hcx.symm
    · exact iff_of_false (fun h => filter_key_eq_nil_iff.mp h hstored) (Ne.symm hcx)
  rcases target_of_owns hc o with ⟨hlow, hx⟩ | ⟨hlow, hx⟩
  · exact (hiff hx).trans (iff_of_true rfl fun h => absurd h hlow)
  · exact (hiff hx).trans ⟨fun h _ => h, fun h => h hlow⟩

/-- 長さ 11 の key は node 1 が担当する。node 0 の delete で node 1 の行が消える。 -/
theorem delete_erases_iff_middle :
    ∃ t n, Step trio (still [] [("kkkkkkkkkkk", "v")]) (.delete 0 "kkkkkkkkkkk") t ∧
      Until (Step trio) Label.Delivers (·.senders ≠ []) (fun u => ¬ u.Holds "kkkkkkkkkkk" 1 ∧
        Unaffected trio (still [] [("kkkkkkkkkkk", "v")]) "kkkkkkkkkkk" u) n t := by
  obtain ⟨t, ht⟩ : ∃ t, step trio (still [] [("kkkkkkkkkkk", "v")])
    (.delete 0 "kkkkkkkkkkk") = some t := ⟨_, rfl⟩
  have hlow : ¬ IsLowest trio.ring.hashKey 1 := by
    unfold IsLowest
    decide
  obtain ⟨n, hn⟩ := (delete_erases_iff (c := 1) trio rfl (fun _ => rfl)
    ⟨by decide, by decide, by decide⟩ (.inl (by decide)) ⟨"v", mem_singleton.mpr rfl⟩ ht).mpr
    fun h => absurd h hlow
  exact ⟨t, n, ht, hn⟩

/-- 最も小さい node 0 が担当する key を node 1 で消しても、node 0 の行は残る。 -/
theorem delete_misses_lowest :
    ∃ t, [Label.delete 1 "k", .connect 0, .connect 0, .connect 0].foldlM (step trio)
        (still [("k", "v")] []) = some t ∧ t.senders = [] ∧
      Owns trio.ring.hashKey 0 (trio.genHash "k") ∧ t.Holds "k" 0 :=
  ⟨_, rfl, rfl, .inl (by decide), "v", mem_singleton.mpr rfl⟩

end Dht.Store
