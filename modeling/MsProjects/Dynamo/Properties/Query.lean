import MsProjects.Dynamo.Properties.Map
import MsProjects.Dynamo.Properties.Solo

/-! # key の query -/

namespace Dynamo

open List Function Infra Env Infra.Run

variable {ι H : Type*} [LinearOrder H] [DecidableEq ι] {env : Env ι H} {s t : System ι}
  {q c : ι} {key value : String}

/-! ## 返す表 -/

omit [DecidableEq ι] in
theorem keySet_singleton (row : Row) : env.keySet [row] = [row] :=
  perm_singleton.mp (env.keySet_perm [row])

theorem putAll_concat {rows : List Row} (hkey : ∀ row ∈ rows, row.1 = key) (value : String) :
    putAll [] (rows ++ [(key, value)]) = [(key, value)] := by
  have hsmall : ∀ (rows m : List Row), (∀ row ∈ rows, row.1 = key) → (m = [] ∨ ∃ v, m = [(key, v)]) →
      putAll m rows = [] ∨ ∃ v, putAll m rows = [(key, v)] := by
    intro rows
    induction rows with
    | nil => exact fun m _ hm => hm
    | cons row rows ih =>
      intro m hall hm
      obtain rfl : row.1 = key := hall row mem_cons_self
      refine ih (put row.1 row.2 m) (fun x hx => hall x (mem_cons_of_mem _ hx)) (.inr ⟨row.2, ?_⟩)
      rcases hm with rfl | ⟨v, rfl⟩
      · rfl
      · simp [put]
  rw [putAll, foldl_append]
  rcases hsmall rows [] hkey (.inl rfl) with hnil | ⟨v, hv⟩
  · rw [putAll] at hnil
    rw [hnil]
    rfl
  · rw [putAll] at hv
    rw [hv]
    simp [put]

/-! ## query の段階 -/

def Label.Answers (q : ι) : Label ι → Prop
  | .connect _ | .store _ => True
  | .returnQuery o => o = q
  | _ => False

omit [DecidableEq ι] in
theorem Label.answers_iff (l : Label ι) : l.Answers q ↔ l.Delivers ∨ l = .returnQuery q := by
  cases l <;> simp [Answers, Delivers]

/-- 返事を待っている query。 -/
structure Waiting (base : System ι) (q : ι) : Prop where
  quiet : base.Quiet
  up : base.up q = true
  querying : base.querying q = true
  cursor : base.resultCursor q = []
  isQueried : base.isQueried q = false

/-- message を送って待ち始めた query。 -/
def asking (s : System ι) (q : ι) : System ι :=
  { s with
    resultCursor := update s.resultCursor q []
    querying := update s.querying q true }

@[simp] theorem asking_table : (asking s q).table = s.table := rfl

theorem waiting_asking (hq : s.Quiet) (hup : s.up q = true) (hidle : s.isQueried q = false) :
    Waiting (asking s q) q := ⟨hq, hup, update_self _ _ _, update_self _ _ _, hidle⟩

/-- query が `rows` を返した後の状態。 -/
def answered (base : System ι) (q : ι) (rows : List Row) : System ι :=
  { base with
    resultCursor := update base.resultCursor q rows
    isQueried := update (update base.isQueried q true) q false
    querying := update base.querying q false
    answers := base.answers ++ [(q, some rows)] }

/-- 担当の node `c` に送る message。 -/
def ask (q c : ι) (key : String) : Message ι :=
  { type := .queryKey, key := key, sender := q, sendto := c }

namespace Waiting

variable {base : System ι} {Q : System ι → Prop} {n : Nat} {host : ι} {m : Message ι}

/-- query が返るまでの step。 -/
abbrev Ends (env : Env ι H) (q : ι) (Q : System ι → Prop) : Nat → System ι → Prop :=
  Until env.Step (Label.Answers q) (·.querying q = true) Q

theorem not_return (hb : Waiting base q) :
    ∀ a u, a = .returnQuery q → ¬ env.Step (base.sendMsg host m) a u := by
  rintro a u rfl hstep
  simp [Env.Step, step, returnQuery, System.sendMsg, hb.isQueried] at hstep

theorem ends_deliver (hb : Waiting base q) (h : Ends env q Q n (env.deliver base host m)) :
    Ends env q Q (n + 1) (base.sendMsg host m) :=
  until_deliver Label.answers_iff hb.quiet hb.not_return hb.querying h

/-- 返事が届けば query は返る。 -/
theorem ends_addResult (hb : Waiting base q) (hto : m.sendto = q)
    (hproc : env.processMessage base q m = env.addResult base q m) :
    Ends env q (· = answered base q (env.keySet m.result)) 2 (base.sendMsg host m) := by
  refine hb.ends_deliver ?_
  rw [deliver, hto, if_pos hb.up, hproc]
  refine until_only (t := answered base q (env.keySet m.result)) Label.answers_iff hb.quiet ?_
    hb.querying ?_
  · simp [step, returnQuery, addResult, System.answer, hb.querying, hb.cursor, answered]
  · refine until_done Label.answers_iff hb.quiet ?_ rfl
    rintro a u rfl hstep
    simp [Env.Step, step, returnQuery, answered] at hstep

section

variable (hb : Waiting base q) (hquote : '\'' ∉ key.toList) (hup : base.up c = true)

include hb hquote hup

theorem ends_ask (hrows : (base.table c).filter (fun row => row.1 = key) ≠ []) :
    Ends env q (· = answered base q
      (env.keySet (putAll [] ((base.table c).filter fun row => row.1 = key)))) 3
      (base.sendMsg q (ask q c key)) := by
  refine hb.ends_deliver ?_
  have hraw : env.rawQuery key (base.table c) =
      some ((base.table c).filter fun row => row.1 = key) := by
    rw [rawQuery, if_neg hquote]
  rw [deliver, ask, if_pos hup]
  simp only [processMessage, processQueryKey, hraw]
  cases hcons : (base.table c).filter fun row => row.1 = key with
  | nil => exact absurd hcons hrows
  | cons row rows =>
    exact hb.ends_addResult (m := { ask q c key with
      type := .queryResult, sendto := q, result := putAll [] (row :: rows) }) rfl rfl

/-- 行の無い node は返事をしない。 -/
theorem ends_ask_of_nil (hrows : (base.table c).filter (fun row => row.1 = key) = []) :
    Ends env q (· = base) 1 (base.sendMsg q (ask q c key)) := by
  refine hb.ends_deliver ?_
  have hstay : env.deliver base q (ask q c key) = base := by
    rw [deliver, ask, if_pos hup]
    simp [processMessage, processQueryKey, rawQuery, if_neg hquote, hrows]
  rw [hstay]
  refine until_done Label.answers_iff hb.quiet ?_ rfl
  rintro a u rfl hstep
  simp [Env.Step, step, returnQuery, hb.isQueried] at hstep

end

/-- 落ちている node への message は次の node に送り直される。 -/
theorem ends_ask_of_down (hb : Waiting base q) (hdown : base.up c = false)
    (h : Ends env q Q n (base.sendMsg q (ask q (env.ring.successor c) key))) :
    Ends env q Q (n + 1) (base.sendMsg q (ask q c key)) := by
  refine hb.ends_deliver ?_
  rw [deliver, ask, if_neg (by rw [hdown]; exact Bool.false_ne_true)]
  exact h

end Waiting

/-! ## 結果 -/

theorem query_eq_ask [Nontrivial ι] (hc : env.getNode key = some c) (hne : q ≠ c) (hat : key ≠ "@")
    (hstar : key ≠ "*") :
    env.query s q key = (asking s q).sendMsg q (ask q c key) := by
  simp only [query, if_neg (env.ring.successor_ne q), if_neg hat, if_neg hstar, hc, if_neg hne.symm]
  rfl

/-- 担当の node の query は、自分の表の行をそのまま返す。 -/
theorem ends_query_self [Nontrivial ι] (hq : s.Quiet) (hnot : s.querying q = false)
    (hc : env.getNode key = some q) (hat : key ≠ "@") (hstar : key ≠ "*") (hquote : '\'' ∉ key.toList) :
    Waiting.Ends env q (· = { s with resultCursor := update s.resultCursor q [] }.answer q
      (some ((s.table q).filter fun row => row.1 = key))) 0 (env.query s q key) := by
  have hself : env.query s q key = { s with resultCursor := update s.resultCursor q [] }.answer q
      (some ((s.table q).filter fun row => row.1 = key)) := by
    simp [query, env.ring.successor_ne q, hat, hstar, hc, rawQuery, hquote]
  rw [hself]
  refine until_done Label.answers_iff hq ?_ rfl
  rintro a u rfl hstep
  simp [Env.Step, step, returnQuery, System.answer, hnot] at hstep

/-- **query が最後に入れた値の一行だけを返すのは、担当でない node で呼ばれたとき、かつそのときに限る。** -/
theorem query_last_value_iff [Fintype ι] (hcard : 3 ≤ Fintype.card ι) (env : Env ι H)
    {s₀ s₁ s₂ s₃ s₄ s₅ : System ι} {o₁ o₂ : ι} {v₁ v₂ : String}
    {tr₁ tr₂ : List (Infra.Transition (System ι) (Label ι))} (hq₀ : s₀.Quiet)
    (hup : ∀ n, s₀.up n = true) (hidle : s₀.isQueried q = false) (hc : env.getNode key = some c)
    (hins₁ : env.Step s₀ (.insert o₁ key v₁) s₁) (hrun₁ : Infra.Run env.Step s₁ tr₁ s₂)
    (hl₁ : ∀ x ∈ tr₁, x.label.Delivers) (hq₂ : s₂.Quiet)
    (hins₂ : env.Step s₂ (.insert o₂ key v₂) s₃) (hrun₂ : Infra.Run env.Step s₃ tr₂ s₄)
    (hl₂ : ∀ x ∈ tr₂, x.label.Delivers) (hq₄ : s₄.Quiet)
    (hat : key ≠ "@") (hstar : key ≠ "*") (hquote : '\'' ∉ key.toList)
    (hquery : env.Step s₄ (.query q key) s₅) :
    (∃ n, Until env.Step (Label.Answers q) (·.querying q = true)
      (fun u => u.querying q = false ∧ u.answers = s₀.answers ++ [(q, some [(key, v₂)])]) n s₅) ↔
      q ≠ c := by
  have := nontrivial_of_card hcard
  obtain ⟨ho₁, rfl⟩ : s₀.up o₁ = true ∧ env.insert s₀ o₁ key v₁ = s₁ := by
    simpa [Env.Step, step] using hins₁
  obtain ⟨ho₂, rfl⟩ : s₂.up o₂ = true ∧ env.insert s₂ o₂ key v₂ = s₃ := by
    simpa [Env.Step, step] using hins₂
  obtain ⟨-, hs₂⟩ := length_add_work_le hrun₁ (Single.insert hq₀ hc ho₁)
    (sound_insert (sound_of_quiet hq₀) hc) hl₁
  obtain ⟨-, hs₄⟩ := length_add_work_le hrun₂ (Single.insert hq₂ hc ho₂)
    (sound_insert (sound_of_quiet hq₂) hc) hl₂
  have hcmem : c ∈ env.owners key := by simp [owners_eq hc]
  -- 担当の node には、二つの insert の行が順に入っている
  have htable : s₄.table c = s₀.table c ++ [(key, v₁)] ++ [(key, v₂)] := by
    rw [table_of_single (by omega) hq₂ hc hrun₂ hl₂ hs₄ hq₄,
      table_of_single (by omega) hq₀ hc hrun₁ hl₁ hs₂ hq₂]
    simp [hs₂.up, hup, hcmem]
  obtain ⟨⟨hupq, hnot⟩, rfl⟩ : (s₄.up q = true ∧ s₄.querying q = false) ∧ env.query s₄ q key = s₅ := by
    simpa [Env.Step, step] using hquery
  have hrows : (s₄.table c).filter (fun row => row.1 = key) =
      (s₀.table c ++ [(key, v₁)]).filter (fun row => row.1 = key) ++ [(key, v₂)] := by
    simp [htable]
  have hanswers : s₄.answers = s₀.answers := hs₄.answers.trans hs₂.answers
  by_cases hqc : q = c
  · -- 自分の表には、二つの insert の行が残っている
    subst hqc
    rw [(ends_query_self hq₄ hnot hc hat hstar hquote).exists_iff]
    refine iff_of_false ?_ (not_not_intro rfl)
    rintro ⟨-, hanswer⟩
    have hone := congrArg length (show (s₄.table q).filter (fun row => row.1 = key) = [(key, v₂)] by
      simpa [System.answer, hanswers] using hanswer)
    simp [hrows] at hone
  · have hwait := waiting_asking hq₄ hupq (by rw [hs₄.isQueried, hs₂.isQueried]; exact hidle)
    have hupc : s₄.up c = true := by
      rw [hs₄.up, hs₂.up]
      exact hup c
    have hends : Waiting.Ends env q _ 3 _ := hwait.ends_ask hquote hupc (by
      show (s₄.table c).filter _ ≠ []
      simp [hrows])
    rw [query_eq_ask hc hqc hat hstar, hends.exists_iff]
    refine iff_of_true ⟨update_self _ _ _, ?_⟩ hqc
    show s₄.answers ++ [(q, some (env.keySet (putAll [] ((s₄.table c).filter _))))] = _
    rw [hrows, putAll_concat (fun row hrow => by simpa using (mem_filter.mp hrow).2) v₂,
      keySet_singleton, hanswers]

/-- 担当でない node からの一つの insert を処理し終える step。 -/
def deliverAll : List (Label (Fin 3)) :=
  [.connect 0, .store 0, .connect 0, .store 0, .connect 0, .store 0, .connect 0]

/-- node 0 が担当する key に node 2 と node 1 から値を入れると、node 1 での query は後の値を返す。 -/
theorem query_last_value_iff_trio :
    ∃ s₁ s₂ s₃ s₄ s₅ n, trio.step (System.boot fun _ => true) (.insert 2 "k" "v1") = some s₁ ∧
      deliverAll.foldlM trio.step s₁ = some s₂ ∧ trio.step s₂ (.insert 1 "k" "v2") = some s₃ ∧
      deliverAll.foldlM trio.step s₃ = some s₄ ∧ trio.step s₄ (.query 1 "k") = some s₅ ∧
      Until trio.Step (Label.Answers 1) (·.querying 1 = true)
        (fun u => u.querying 1 = false ∧ u.answers = [(1, some [("k", "v2")])]) n s₅ := by
  obtain ⟨s₁, s₂, s₃, s₄, s₅, hs₁, hs₂, hq₂, hs₃, hs₄, hq₄, hs₅⟩ :
      ∃ s₁ s₂ s₃ s₄ s₅, trio.step (System.boot fun _ => true) (.insert 2 "k" "v1") = some s₁ ∧
        deliverAll.foldlM trio.step s₁ = some s₂ ∧ s₂.Quiet ∧
        trio.step s₂ (.insert 1 "k" "v2") = some s₃ ∧
        deliverAll.foldlM trio.step s₃ = some s₄ ∧ s₄.Quiet ∧
        trio.step s₄ (.query 1 "k") = some s₅ :=
    ⟨_, _, _, _, _, rfl, rfl, ⟨rfl, rfl⟩, rfl, rfl, ⟨rfl, rfl⟩, rfl⟩
  obtain ⟨hrun₁, hlabels₁⟩ := of_foldlM hs₂
  obtain ⟨hrun₂, hlabels₂⟩ := of_foldlM hs₄
  obtain ⟨n, hn⟩ := (query_last_value_iff (by decide) trio ⟨rfl, rfl⟩ (fun _ => rfl) rfl
    (show trio.getNode "k" = some 0 by decide) hs₁ hrun₁ (forall_label hlabels₁ (by decide))
    hq₂ hs₃ hrun₂ (forall_label hlabels₂ (by decide)) hq₄ (by decide) (by decide) (by decide)
    hs₅).mpr (by decide)
  exact ⟨s₁, s₂, s₃, s₄, s₅, n, hs₁, hs₂, hs₃, hs₄, hs₅, hn⟩

/-- 担当の node 0 での query は、前の値の行も返す。 -/
theorem two_rows_trio :
    ∃ s₁ s₂ s₃ s₄ s₅, trio.getNode "k" = some 0 ∧
      trio.step (System.boot fun _ => true) (.insert 2 "k" "v1") = some s₁ ∧
      deliverAll.foldlM trio.step s₁ = some s₂ ∧ s₂.Quiet ∧
      trio.step s₂ (.insert 1 "k" "v2") = some s₃ ∧
      deliverAll.foldlM trio.step s₃ = some s₄ ∧ s₄.Quiet ∧
      trio.step s₄ (.query 0 "k") = some s₅ ∧
      s₅.answers = [(0, some [("k", "v1"), ("k", "v2")])] :=
  ⟨_, _, _, _, _, by decide, rfl, rfl, ⟨rfl, rfl⟩, rfl, rfl, ⟨rfl, rfl⟩, rfl, rfl⟩

/-! ## 返らない query -/

/-- node `n` に key の行がある。 -/
def System.Holds (s : System ι) (key : String) (n : ι) : Prop := ∃ value, (key, value) ∈ s.table n

/-- 担当の node とその二つの successor のうち、動いている最初のもの。 -/
def Env.firstLive (env : Env ι H) (s : System ι) (c : ι) : ι :=
  if s.up c then c
  else if s.up (env.ring.successor c) then env.ring.successor c
  else env.ring.successor (env.ring.successor c)

theorem up_firstLive [Fintype ι] (hcard : 3 ≤ Fintype.card ι) (hc : env.getNode key = some c)
    (hdead : (Finset.univ.filter fun n => s.up n = false).card ≤ 2) :
    s.up (env.firstLive s c) = true := by
  by_contra hdown
  have hall : ∀ n ∈ env.owners key, s.up n = false := by
    rw [owners_eq hc]
    rw [firstLive] at hdown
    split at hdown
    · contradiction
    · split at hdown
      · contradiction
      · simp_all
  have hlen : (env.owners key).toFinset.card = 3 := by
    rw [toFinset_card_of_nodup (env.owners_nodup (by omega) key), owners_eq hc]
    rfl
  have hsub : (env.owners key).toFinset ⊆ Finset.univ.filter fun n => s.up n = false := by
    intro n hn
    simpa using hall n (mem_toFinset.mp hn)
  have := Finset.card_le_card hsub
  omega

theorem Waiting.exists_ends_firstLive {base : System ι} {Q : System ι → Prop} {n : Nat}
    (hb : Waiting base q) (h : Ends env q Q n (base.sendMsg q (ask q (env.firstLive base c) key))) :
    ∃ n, Ends env q Q n (base.sendMsg q (ask q c key)) := by
  rw [firstLive] at h
  split at h <;> rename_i hc
  · exact ⟨n, h⟩
  · split at h <;> rename_i hc'
    · exact ⟨_, hb.ends_ask_of_down (Bool.eq_false_of_not_eq_true hc) h⟩
    · exact ⟨_, hb.ends_ask_of_down (Bool.eq_false_of_not_eq_true hc)
        (hb.ends_ask_of_down (Bool.eq_false_of_not_eq_true hc') h)⟩

/-- query が返り、どの node にも無い key では空の結果になる。 -/
def Returned (s : System ι) (q : ι) (key : String) (u : System ι) : Prop :=
  u.querying q = false ∧ ∃ rows, u.answers = s.answers ++ [(q, some rows)] ∧
    ((∀ n, ¬ s.Holds key n) → rows = [])

/-- **query が返るのは、担当の node で呼ばれたか、担当から最初の動いている node に行があるときである。** -/
theorem query_returns_iff [Fintype ι] (hcard : 3 ≤ Fintype.card ι) (env : Env ι H) (hq : s.Quiet)
    (hdead : (Finset.univ.filter fun n => s.up n = false).card ≤ 2) (hidle : s.isQueried q = false)
    (hat : key ≠ "@") (hstar : key ≠ "*") (hquote : '\'' ∉ key.toList)
    (hc : env.getNode key = some c) (hquery : env.Step s (.query q key) t) :
    (∃ n, Until env.Step (Label.Answers q) (·.querying q = true) (Returned s q key) n t) ↔
      q = c ∨ s.Holds key (env.firstLive s c) := by
  have := nontrivial_of_card hcard
  obtain ⟨⟨hup, hnot⟩, rfl⟩ : (s.up q = true ∧ s.querying q = false) ∧ env.query s q key = t := by
    simpa [Env.Step, step] using hquery
  by_cases hqc : q = c
  · subst hqc
    rw [(ends_query_self hq hnot hc hat hstar hquote).exists_iff]
    exact iff_of_true ⟨hnot, _, rfl, fun hnone => filter_key_eq_nil_iff.mpr (hnone q)⟩ (.inl rfl)
  · rw [query_eq_ask hc hqc hat hstar, or_iff_right hqc]
    have hb := waiting_asking hq hup hidle
    have hlive := up_firstLive hcard hc hdead
    by_cases hholds : s.Holds key (env.firstLive s c)
    · obtain ⟨n, hn⟩ := hb.exists_ends_firstLive (hb.ends_ask hquote hlive
        fun hnil => filter_key_eq_nil_iff.mp hnil hholds)
      refine iff_of_true ⟨n, hn.mono ?_⟩ hholds
      rintro u rfl
      exact ⟨update_self _ _ _, _, rfl, fun hnone => absurd hholds (hnone _)⟩
    · -- 返事の無い query は待ち続ける
      obtain ⟨n, hn⟩ := hb.exists_ends_firstLive
        (hb.ends_ask_of_nil hquote hlive (filter_key_eq_nil_iff.mpr hholds))
      rw [hn.exists_iff]
      refine iff_of_false (fun hret => ?_) hholds
      simpa [asking] using hret.1

/-- 担当の node 0 が落ちていて、node 1 と node 2 が key を持つ。 -/
def coordinatorDown : System (Fin 3) :=
  { System.boot fun n => n.val ≠ 0 with table := fun _ => [("k", "v")] }

/-- node 2 の query は node 1 から返る。 -/
theorem query_returns_iff_trio :
    ∃ t n, trio.Step coordinatorDown (.query 2 "k") t ∧
      Until trio.Step (Label.Answers 2) (·.querying 2 = true) (Returned coordinatorDown 2 "k") n t := by
  obtain ⟨t, ht⟩ : ∃ t, trio.step coordinatorDown (.query 2 "k") = some t := ⟨_, rfl⟩
  obtain ⟨n, hn⟩ := (query_returns_iff (by decide) trio ⟨rfl, rfl⟩ (by decide) rfl (by decide)
    (by decide) (by decide) (show trio.getNode "k" = some 0 by decide) ht).mpr
      (.inr ⟨"v", mem_singleton.mpr rfl⟩)
  exact ⟨t, n, ht, hn⟩

/-- どこにも無い key の query を node 1 で呼ぶと、message が無くなっても返らない。 -/
theorem query_hangs_trio :
    ∃ s₁ s₂, trio.step (System.boot fun _ => true) (.query 1 "k") = some s₁ ∧
      trio.step s₁ (.connect 0) = some s₂ ∧ s₂.querying 1 = true ∧
      ∀ l t, Label.Answers 1 l → ¬ trio.Step s₂ l t := by
  refine ⟨_, _, rfl, rfl, rfl, fun l t hl hstep => ?_⟩
  rcases (Label.answers_iff l).mp hl with hl | rfl
  · exact not_delivers_of_quiet ⟨rfl, rfl⟩ hl hstep
  · cases hstep

end Dynamo
