import MsProjects.Dynamo.Properties.Query

/-! # すべての行の query -/

namespace Dynamo

open List Function Infra

variable {ι H : Type*} [LinearOrder H] [DecidableEq ι] {env : Env ι H} {s t base : System ι}
  {q x : ι}

def starMsg (q x : ι) (result : List Row) : Message ι :=
  { type := .queryAll, sender := q, sendto := x, result := result }

/-- 残りの node `l` の行をすべて足した表が返る。 -/
theorem Waiting.ends_star (hb : Waiting base q) (hup : ∀ n, base.up n = true) {l : List ι}
    (hwalk : Walk env.ring.successor q l x) (host : ι) (result : List Row) :
    Ends env q (· = answered base q (env.keySet (putAll result (l.flatMap base.table))))
      (l.length + 2) (base.sendMsg host (starMsg q x result)) := by
  induction l generalizing x host result with
  | nil =>
    obtain rfl : x = q := hwalk
    exact hb.ends_addResult (m := starMsg x x result) rfl
      (by simp [Env.processMessage, starMsg, Env.processQueryAll])
  | cons y l ih =>
    obtain ⟨rfl, hne, hwalk⟩ := hwalk
    have hdeliver : env.deliver base host (starMsg q x result) =
        base.sendMsg x (starMsg q (env.ring.successor x) (putAll result (base.table x))) := by
      rw [Env.deliver, if_pos (hup _)]
      exact if_neg hne.symm
    refine hb.ends_deliver ?_
    rw [hdeliver, flatMap_cons, putAll_append]
    exact ih hwalk x _

/-- value `x` を持つ最後の行の key。 -/
def lastKey (rows : List Row) (x : String) : Option String := (rows.map Prod.swap).reverse.lookup x

omit [DecidableEq ι] in
/-- 一周した表の行。 -/
theorem mem_collected_iff {l : List ι} (hl : ∀ n, n ∈ l ↔ n ≠ q) {x y : String}
    (hone : ∀ n n' x y y', (x, y) ∈ s.table n → (x, y') ∈ s.table n' → y = y') :
    (x, y) ∈ putAll (putAll [] ((s.table q).map Prod.swap)) (l.flatMap s.table) ↔
      (∃ n, n ≠ q ∧ (x, y) ∈ s.table n) ∨
        (∀ n, n ≠ q → ¬ s.Holds x n) ∧ lastKey (s.table q) x = some y := by
  have hmem {v : String} : (x, v) ∈ (l.flatMap s.table).reverse ↔ ∃ n, n ≠ q ∧ (x, v) ∈ s.table n := by
    simp [hl]
  have hsome : (l.flatMap s.table).reverse.lookup x = some y ↔ ∃ n, n ≠ q ∧ (x, y) ∈ s.table n := by
    rw [lookup_eq_some_iff_mem, hmem]
    intro v w hv hw
    obtain ⟨n, -, hv⟩ := hmem.mp hv
    obtain ⟨n', -, hw⟩ := hmem.mp hw
    exact hone n n' x v w hv hw
  have hnone : (l.flatMap s.table).reverse.lookup x = none ↔ ∀ n, n ≠ q → ¬ s.Holds x n := by
    simp only [lookup_eq_none_iff_forall, hmem, System.Holds]
    grind
  rw [mem_putAll_iff (nodup_putAll (m := []) nodup_nil), mem_putAll_iff (m := []) nodup_nil, hsome,
    hnone, lastKey]
  simp

/-- `q` の query が、いずれかの node にある行をちょうど返す。 -/
def ReturnsAll (s : System ι) (q : ι) (u : System ι) : Prop :=
  u.querying q = false ∧ ∃ rows, u.answers = s.answers ++ [(q, some rows)] ∧ rows.Nodup ∧
    ∀ row, row ∈ rows ↔ ∃ n, row ∈ s.table n

/-- **返る行が正しいのは、ほかの node に無い key について、呼んだ node の行が key と value の入れ替えで
変わらないときである。** -/
theorem queryAll_exact_iff [Fintype ι] (hcard : 2 ≤ Fintype.card ι) (env : Env ι H) (hq : s.Quiet)
    (hup : ∀ n, s.up n = true) (hidle : s.isQueried q = false)
    (hone : ∀ n n' x y y', (x, y) ∈ s.table n → (x, y') ∈ s.table n' → y = y')
    (hquery : env.Step s (.query q "*") t) :
    (∃ n, Until env.Step (Label.Answers q) (·.querying q = true) (ReturnsAll s q) n t) ↔
      ∀ x, (∀ n, n ≠ q → ¬ s.Holds x n) → ∀ y, (x, y) ∈ s.table q ↔ lastKey (s.table q) x = some y := by
  have : Nontrivial ι := Fintype.one_lt_card_iff_nontrivial.mp hcard
  obtain ⟨⟨-, hnot⟩, rfl⟩ : (s.up q = true ∧ s.querying q = false) ∧ env.query s q "*" = t := by
    simpa [Env.Step, Env.step] using hquery
  obtain ⟨l, hwalk, hl⟩ := env.ring.cyclic.exists_walk env.ring.predessor_successor
    env.ring.successor_predessor q
  have hb := waiting_asking hq (hup q) hidle
  have hsend : env.query s q "*" = (asking s q).sendMsg q
      (starMsg q (env.ring.successor q) (putAll [] ((s.table q).map Prod.swap))) := by
    simp only [Env.query, if_neg (env.ring.successor_ne q), if_true]
    rfl
  rw [hsend, (hb.ends_star hup hwalk q _).exists_iff, asking_table]
  have hcollected {x y : String} := mem_collected_iff hl (x := x) (y := y) hone
  have hnodup : ((putAll (putAll [] ((s.table q).map Prod.swap))
      (l.flatMap s.table)).map Prod.fst).Nodup := nodup_putAll (nodup_putAll (m := []) nodup_nil)
  have hperm := env.keySet_perm (putAll (putAll [] ((s.table q).map Prod.swap)) (l.flatMap s.table))
  constructor
  · rintro ⟨-, rows, hrows, -, hall⟩ x hx y
    obtain rfl : env.keySet _ = rows := by simpa [answered, asking] using hrows
    have hxy := hall (x, y)
    rw [hperm.mem_iff, hcollected] at hxy
    constructor
    · intro hmem
      rcases hxy.mpr ⟨q, hmem⟩ with ⟨n, hn, hother⟩ | ⟨-, hlast⟩
      · exact absurd ⟨y, hother⟩ (hx n hn)
      · exact hlast
    · intro hlast
      obtain ⟨n, hmem⟩ := hxy.mp (.inr ⟨hx, hlast⟩)
      obtain rfl : n = q := by_contra fun hn => hx n hn ⟨y, hmem⟩
      exact hmem
  · intro hmirror
    refine ⟨update_self _ _ _, _, rfl, hperm.nodup_iff.mpr (hnodup.of_map _), fun row => ?_⟩
    obtain ⟨x, y⟩ := row
    rw [hperm.mem_iff, hcollected]
    by_cases hx : ∀ n, n ≠ q → ¬ s.Holds x n
    · rw [← hmirror x hx y]
      grind [System.Holds]
    · grind [System.Holds]

/-- node 0 だけに行が無い。 -/
def emptyAtZero : System (Fin 3) :=
  { System.boot fun _ => true with table := fun n => if n.val = 0 then [] else [("k", "v")] }

/-- 行の無い node 0 の query は、ほかの node の行をそのまま返す。 -/
theorem queryAll_exact_iff_trio :
    ∃ t n, trio.Step emptyAtZero (.query 0 "*") t ∧
      Until trio.Step (Label.Answers 0) (·.querying 0 = true) (ReturnsAll emptyAtZero 0) n t := by
  obtain ⟨t, ht⟩ : ∃ t, trio.step emptyAtZero (.query 0 "*") = some t := ⟨_, rfl⟩
  have hone : ∀ n n' x y y', (x, y) ∈ emptyAtZero.table n → (x, y') ∈ emptyAtZero.table n' →
      y = y' := by
    intro n n' x y y' hy hy'
    simp only [emptyAtZero, mem_ite_nil_left, mem_singleton, Prod.mk.injEq] at hy hy'
    rw [hy.2.2, hy'.2.2]
  obtain ⟨n, hn⟩ := (queryAll_exact_iff (by decide) trio ⟨rfl, rfl⟩ (fun _ => rfl) rfl hone ht).mpr
    (fun x _ y => by simp [emptyAtZero, lastKey])
  exact ⟨t, n, ht, hn⟩

/-- node 0 だけが持つ行 ("k", "v") を node 0 で集めると、("v", "k") が返る。 -/
theorem queryAll_swaps_trio :
    ∃ t, [Label.query 0 "*", .connect 0, .connect 0, .connect 0, .returnQuery 0].foldlM trio.step
        { System.boot fun _ => true with table := fun n => if n = 0 then [("k", "v")] else [] } =
          some t ∧
      t.querying 0 = false ∧ t.answers = [(0, some [("v", "k")])] :=
  ⟨_, rfl, rfl, rfl⟩

end Dynamo
