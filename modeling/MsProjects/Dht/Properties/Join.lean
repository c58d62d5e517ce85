import MsProjects.Dht.Properties.JoinHandler

/-! # join の後の輪 -/

namespace Dht

open Infra List Function Option

variable {ι : Type} {H : Type*}

/-! ## 届くまで -/

namespace System

section

variable {E : ι → Option (Graph ι)} {X : Set ι} {s t : System ι}

/-- 残っている `modified-node` がすべて届くと、`X` の process が `E` になる。 -/
structure Settling (E : ι → Option (Graph ι)) (X : Set ι) (s : System ι) : Prop where
  sent : ∀ m ∈ s.network, ∃ x g, m = .modifiedNode x g ∧ (x ∈ X → E x = some g)
  settled : ∀ x ∈ X, s.process x = E x ∨ ∃ g, .modifiedNode x g ∈ s.network

theorem Settling.process_eq (h : Settling E X s) (hdone : s.network = []) {x : ι} (hx : x ∈ X) :
    s.process x = E x := by
  rcases h.settled x hx with heq | ⟨g, hg⟩
  · exact heq
  · simp [hdone] at hg

variable [DecidableEq ι] [LinearOrder H] {hashKey : ι → H}

theorem Settling.deliver (h : Settling E X s) {i : Nat} (hstep : s.deliver hashKey i = some t) :
    Settling E X t := by
  obtain ⟨m, hm, hstep⟩ := bind_eq_some_iff.mp hstep
  obtain ⟨x, g, rfl, hxg⟩ := h.sent m (mem_of_getElem? hm)
  obtain rfl : _ = t := some.inj hstep
  constructor
  · intro m' hm'
    exact h.sent m' (mem_of_mem_eraseIdx hm')
  · intro z hz
    by_cases hzx : z = x
    · subst hzx
      exact .inl (by simp [hxg hz])
    · rcases h.settled z hz with heq | ⟨g', hg'⟩
      · exact .inl (by simpa [hzx] using heq)
      · -- 届いたのは `x` 宛てなので、`z` 宛ての message は残る
        refine .inr ⟨g', ?_⟩
        obtain ⟨k, hk⟩ := mem_iff_getElem?.mp hg'
        have hki : k ≠ i := by
          rintro rfl
          rw [hm] at hk
          simp_all
        exact mem_eraseIdx_iff_getElem?.mpr ⟨k, hki, hk⟩

theorem Settling.run {tr : List (Transition (System ι) Nat)} (h : Settling E X s)
    (hrun : Run (fun p i q => System.deliver hashKey p i = some q) s tr t) : Settling E X t :=
  (hrun.invariant' (fun hp hq => hp.deliver hq) h).1

end

/-! ## 輪の正しさ -/

section

variable {s : System ι} {x : ι}

theorem mem_joined {g : Graph ι} (h : s.process x = some g) : x ∈ s.joined := by
  simp [joined, h]

theorem exists_of_mem_joined (h : x ∈ s.joined) : ∃ g, s.process x = some g :=
  isSome_iff_exists.mp h

theorem notMem_joined (h : s.process x = none) : x ∉ s.joined := by simp [joined, h]

end

variable [DecidableEq ι] [LinearOrder H]

/-- node `x` の `myNode` が、node の集合 `A` の輪での両隣を指している。 -/
structure NodeCorrect (hashKey : ι → H) (A : Set ι) (x : ι) (g : Graph ι) : Prop where
  name : g.name = some x
  succ : ∃ y, g.succName = some y ∧ Next hashKey A x y
  pred : ∃ z ∈ A, g.predName = some z ∧ Next hashKey A z x

/-- 起動したどの node も両隣を指している。 -/
def RingCorrect (hashKey : ι → H) (s : System ι) : Prop :=
  ∀ x g, s.process x = some g → NodeCorrect hashKey s.joined x g

/-- join が輪を壊さない条件。 -/
def CleanJoin (hashKey : ι → H) (first : ι) (s : System ι) (j : ι) : Prop :=
  ¬ (hashKey j < hashKey first ∧ ∃ y ∈ s.joined, hashKey y < hashKey j) ∧
    ∀ m gm y gy, s.process m = some gm → s.process y = some gy → gm.succName = some y → y ≠ m →
      Between hashKey m j y → gm.succSuccName = gy.succName

variable {hashKey : ι → H} {first j x y : ι} {s t : System ι}

/-- join が転送されて着いた node。 -/
structure Walk (hashKey : ι → H) (first j : ι) (s : System ι) (x : ι) : Prop where
  mem : x ∈ s.joined
  le : hashKey first ≤ hashKey x
  lt : hashKey first < hashKey j → hashKey x < hashKey j

theorem processMessage_join {g : Graph ι} {r : Graph ι × List (Message ι)}
    (hg : s.process x = some g) (hr : processJoinRequestMsg hashKey g j = some r) :
    processMessage hashKey s (.join x j) =
      some ⟨update s.process x (some r.1), s.network ++ r.2⟩ := by
  simp [processMessage, hg, hr]

theorem deliver_singleton {P : ι → Option (Graph ι)} {m : Message ι} {i : Nat}
    (h : deliver hashKey ⟨P, [m]⟩ i = some t) : processMessage hashKey ⟨P, []⟩ m = some t := by
  obtain ⟨m', hm', hstep⟩ := bind_eq_some_iff.mp h
  cases i with
  | zero =>
    obtain rfl : m = m' := by simpa using hm'
    exact hstep
  | succ i => simp at hm'

theorem exists_handled (hinj : Injective hashKey) (hring : RingCorrect hashKey s)
    (hj : s.process j = none) {P : ι → Option (Graph ι)} (hP : ∀ z, z ≠ j → P z = s.process z)
    {tr : List (Transition (System ι) Nat)} (hwalk : Walk hashKey first j s x)
    (hrun : Run (fun p i q => deliver hashKey p i = some q) ⟨P, [.join x j]⟩ tr t)
    (ht : t.network = []) :
    ∃ x y g suc sucNode r, Walk hashKey first j s x ∧ s.process x = some g ∧
      g.succName = some y ∧ g.succRef g.root = some suc ∧ g.nodes[suc]? = some sucNode ∧
      sucNode.name = y ∧ Handled hashKey g suc sucNode j x y r ∧
      ∃ tr', Run (fun p i q => deliver hashKey p i = some q)
        ⟨update P x (some r.1), r.2⟩ tr' t := by
  induction tr generalizing x with
  | nil =>
    cases hrun
    simp at ht
  | cons e tr ih =>
    obtain ⟨q, hq, hrest⟩ : ∃ q, (∃ i, deliver hashKey ⟨P, [.join x j]⟩ i = some q) ∧
        Run (fun p i q => deliver hashKey p i = some q) q tr t := by
      cases hrun with
      | cons hstep hrest => exact ⟨_, ⟨_, hstep⟩, hrest⟩
    obtain ⟨i, hq⟩ := hq
    have hq := deliver_singleton hq
    obtain ⟨g, hg⟩ := exists_of_mem_joined hwalk.mem
    have hxj : x ≠ j := fun heq => notMem_joined hj (heq ▸ hwalk.mem)
    obtain ⟨hname, ⟨y, hy, hnext⟩, -⟩ := hring x g hg
    have hyj : y ≠ j := fun heq => notMem_joined hj (heq ▸ hnext.1)
    obtain ⟨suc, sucNode, hsuc, hnode, hsucName, hcases⟩ :=
      processJoinRequestMsg_cases hinj hname hy hxj hyj
    have hPx : P x = some g := (hP x hxj).trans hg
    rcases hcases with ⟨hlt, hnot, hres⟩ | ⟨r, hr, hres⟩
    · -- 次の node に転送される
      rw [processMessage_join hPx hres, ← hPx] at hq
      obtain rfl : _ = q := some.inj hq
      rw [update_eq_self] at hrest
      refine ih ⟨hnext.1, hwalk.le.trans hlt.le, fun hfj => ?_⟩ hrest
      rcases lt_or_gt_of_ne (hinj.ne hyj) with hyj | hjy
      · exact hyj
      · exact absurd ⟨hwalk.lt hfj, hjy⟩ hnot
    · rw [processMessage_join hPx hres] at hq
      obtain rfl : _ = q := some.inj hq
      exact ⟨x, y, g, suc, sucNode, r, hwalk, hg, hy, hsuc, hnode, hsucName, hr, tr, hrest⟩

/-! ## join の結果 -/

variable {g gy g' gJ gS : Graph ι}

theorem ringCorrect_insert_iff (hinj : Injective hashKey) (hring : RingCorrect hashKey s)
    (hj : s.process j = none) (hg : s.process x = some g) (hgy : s.process y = some gy)
    (hne : x ≠ y) (hnext : Next hashKey s.joined x y) (hbetween : Between hashKey x j y)
    (hx : g'.name = some x ∧ g'.succName = some j ∧
      ∀ t, t ≠ j → (g'.predName = some t ↔ g.predName = some t))
    (hJ : gJ.name = some j ∧ gJ.succName = some y ∧ gJ.predName = some x)
    (hS : gS.name = some y ∧ gS.predName = some j ∧
      ∀ t, t ≠ j → (gS.succName = some t ↔ g.succSuccName = some t))
    (ht : t.process = update (update (update s.process x (some g')) j (some gJ)) y (some gS)) :
    RingCorrect hashKey t ↔ g.succSuccName = gy.succName := by
  have hjA := notMem_joined hj
  have hxA := mem_joined hg
  have hyA := mem_joined hgy
  have hxj : x ≠ j := fun heq => hjA (heq ▸ hxA)
  have hyj : y ≠ j := fun heq => hjA (heq ▸ hyA)
  have hA : t.joined = Insert.insert j s.joined := by
    ext z
    by_cases hzy : z = y
    · simp [joined, ht, hzy, hgy]
    by_cases hzj : z = j
    · simp [joined, ht, hzj, hyj.symm]
    by_cases hzx : z = x
    · simp [joined, ht, hzx, hne, hxj, hg]
    · simp [joined, ht, hzy, hzj, hzx]
  -- 新しい node と関わらない隣は変わらない
  have hkeep {a b : ι} (ha : a ∈ s.joined) (hax : a ≠ x) (hab : Next hashKey s.joined a b) :
      Next hashKey (Insert.insert j s.joined) a b :=
    Next.insert_of_ne hinj hnext hxA hbetween hab ha hax
  obtain ⟨-, ⟨T, hT, hyT⟩, -⟩ := hring y gy hgy
  have hTj : T ≠ j := fun heq => hjA (heq ▸ hyT.1)
  rw [hT]
  constructor
  · intro hcorrect
    obtain ⟨-, ⟨v, hv, hyv⟩, -⟩ := hcorrect y gS (by simp [ht])
    rw [hA] at hyv
    obtain rfl : v = T := hyv.right_unique hinj (hkeep hyA hne.symm hyT)
    exact (hS.2.2 v hTj).mp hv
  · intro hview z gz hz
    rw [hA]
    by_cases hzy : z = y
    · subst hzy
      obtain rfl : gS = gz := by simpa [ht] using hz
      exact ⟨hS.1, ⟨T, (hS.2.2 T hTj).mpr hview, hkeep hyA hne.symm hyT⟩,
        ⟨j, Set.mem_insert j _, hS.2.1, hnext.insert_right hxA hbetween⟩⟩
    by_cases hzj : z = j
    · subst hzj
      obtain rfl : gJ = gz := by simpa [ht, hyj.symm] using hz
      exact ⟨hJ.1, ⟨y, hJ.2.1, hnext.insert_right hxA hbetween⟩,
        ⟨x, Set.mem_insert_of_mem _ hxA, hJ.2.2, hnext.insert_left hxA hbetween⟩⟩
    by_cases hzx : z = x
    · subst hzx
      obtain rfl : g' = gz := by simpa [ht, hzy, hzj] using hz
      obtain ⟨-, -, w, hwA, hw, hwz⟩ := hring z g hg
      have hwz' : w ≠ z := fun heq => hne (Eq.symm (Next.eq_of_self hinj (heq ▸ hwz) hyA))
      have hwj : w ≠ j := fun heq => hjA (heq ▸ hwA)
      exact ⟨hx.1, ⟨j, hx.2.1, hnext.insert_left hxA hbetween⟩,
        ⟨w, Set.mem_insert_of_mem _ hwA, (hx.2.2 w hwj).mpr hw, hkeep hwA hwz' hwz⟩⟩
    · have hz : s.process z = some gz := by simpa [ht, hzy, hzj, hzx] using hz
      obtain ⟨hname, ⟨v, hv, hzv⟩, w, hwA, hw, hwz⟩ := hring z gz hz
      have hwx : w ≠ x := fun heq => hzy ((heq ▸ hwz).right_unique hinj hnext)
      exact ⟨hname, ⟨v, hv, hkeep (mem_joined hz) hzx hzv⟩,
        ⟨w, Set.mem_insert_of_mem _ hwA, hw, hkeep hwA hwx hwz⟩⟩

theorem ringCorrect_first (hinj : Injective hashKey) (hj : s.process j = none)
    (hg : s.process x = some g) (hnext : Next hashKey s.joined x x)
    (hx : g'.name = some x ∧ g'.succName = some j ∧ g'.predName = some j)
    (hJ : gJ.name = some j ∧ gJ.succName = some x ∧ gJ.predName = some x)
    (ht : t.process = update (update s.process x (some g')) j (some gJ)) :
    RingCorrect hashKey t := by
  have hjA := notMem_joined hj
  have hxA := mem_joined hg
  have hxj : x ≠ j := fun heq => hjA (heq ▸ hxA)
  have hA : t.joined = Insert.insert j s.joined := by
    ext z
    by_cases hzj : z = j
    · simp [joined, ht, hzj]
    by_cases hzx : z = x
    · simp [joined, ht, hzx, hxj, hg]
    · simp [joined, ht, hzj, hzx]
  have hbetween : Between hashKey x j x := .inr ⟨le_rfl, lt_or_gt_of_ne (hinj.ne hxj)⟩
  have hxj' := hnext.insert_left hxA hbetween
  have hjx := hnext.insert_right hxA hbetween
  intro z gz hz
  rw [hA]
  by_cases hzj : z = j
  · subst hzj
    obtain rfl : gJ = gz := by simpa [ht] using hz
    exact ⟨hJ.1, ⟨x, hJ.2.1, hjx⟩, ⟨x, Set.mem_insert_of_mem _ hxA, hJ.2.2, hxj'⟩⟩
  by_cases hzx : z = x
  · subst hzx
    obtain rfl : g' = gz := by simpa [ht, hzj] using hz
    exact ⟨hx.1, ⟨j, hx.2.1, hxj'⟩, ⟨j, Set.mem_insert j _, hx.2.2, hjx⟩⟩
  · have hz : s.process z = some gz := by simpa [ht, hzj, hzx] using hz
    exact absurd (hnext.eq_of_self hinj (mem_joined hz)) hzx

theorem not_ringCorrect_afterSuccessor (hinj : Injective hashKey)
    (hring : RingCorrect hashKey s) (hj : s.process j = none) (hg : s.process x = some g)
    (hgy : s.process y = some gy) (hxy : x ≠ y) (hS : gS.succName = some j)
    (hx : ∀ t, t ≠ j → (g'.predName = some t ↔ g.predName = some t))
    (hty : t.process y = some gS)
    (ht : ∀ z, z ≠ y → z ≠ j → t.process z = update s.process x (some g') z) :
    ¬ RingCorrect hashKey t := by
  intro hcorrect
  have hjA := notMem_joined hj
  have hyj : y ≠ j := fun heq => hjA (heq ▸ mem_joined hgy)
  -- `y` の次は新しい node を、元の次 `T` の手前は今も `y` を指している
  obtain ⟨-, ⟨T, hT, hyT⟩, -⟩ := hring y gy hgy
  have hTj : T ≠ j := fun heq => hjA (heq ▸ hyT.1)
  have hTy : T ≠ y := fun heq => hxy (Next.eq_of_self hinj (heq ▸ hyT) (mem_joined hg))
  obtain ⟨gT, hgT⟩ := exists_of_mem_joined hyT.1
  obtain ⟨-, -, w, hwA, hw, hwT⟩ := hring T gT hgT
  obtain rfl : w = y := hwT.left_unique hinj hwA (mem_joined hgy) hyT
  obtain ⟨gT', hgT', hpred⟩ : ∃ gT', t.process T = some gT' ∧ gT'.predName = some w := by
    rw [ht T hTy hTj]
    by_cases hTx : T = x
    · subst hTx
      obtain rfl : g = gT := some.inj (hg.symm.trans hgT)
      exact ⟨g', by simp, (hx w hyj).mpr hw⟩
    · exact ⟨gT, by simpa [hTx] using hgT, hw⟩
  obtain ⟨-, -, w', -, hw', hnextT⟩ := hcorrect T gT' hgT'
  obtain rfl : w = w' := some.inj (hpred.symm.trans hw')
  obtain ⟨-, ⟨v, hv, hnextj⟩, -⟩ := hcorrect w gS hty
  obtain rfl : j = v := some.inj (hS.symm.trans hv)
  exact hTj (hnextT.right_unique hinj hnextj)

/-! ## 条件との一致 -/

theorem cleanJoin_iff_of_between (hinj : Injective hashKey)
    (hring : RingCorrect hashKey s) (hj : s.process j = none) (hwalk : Walk hashKey first j s x)
    (hg : s.process x = some g) (hgy : s.process y = some gy) (hsucc : g.succName = some y)
    (hne : x ≠ y) (hnext : Next hashKey s.joined x y) (hbetween : Between hashKey x j y) :
    CleanJoin hashKey first s j ↔ g.succSuccName = gy.succName := by
  constructor
  · intro hclean
    exact hclean.2 x g y gy hg hgy hsucc hne.symm hbetween
  · intro hview
    refine ⟨?_, ?_⟩
    · rintro ⟨hjf, w, hwA, hwj⟩
      have hjx : hashKey j < hashKey x := hjf.trans_le hwalk.le
      rcases hnext.between_cases hbetween with ⟨hxj, -, -⟩ | ⟨-, hmin, hxj | hjy⟩
      · exact lt_asymm hjx hxj
      · exact lt_asymm hjx hxj
      · exact lt_irrefl _ ((hmin w hwA).trans_lt (hwj.trans hjy))
    · intro m gm y' gy' hgm hgy' hsucc' hne' hbetween'
      obtain ⟨-, ⟨v, hv, hnext'⟩, -⟩ := hring m gm hgm
      obtain rfl : y' = v := some.inj (hsucc'.symm.trans hv)
      -- 新しい node の入る場所は一つである
      obtain rfl : m = x := by
        by_contra hmx
        have hkeep := Next.insert_of_ne hinj hnext (mem_joined hg) hbetween hnext'
          (mem_joined hgm) hmx
        have hmj := hnext'.insert_left (mem_joined hgm) hbetween'
        exact notMem_joined hj (hkeep.right_unique hinj hmj ▸ mem_joined hgy')
      obtain rfl : g = gm := some.inj (hg.symm.trans hgm)
      obtain rfl : y = y' := some.inj (hsucc.symm.trans hsucc')
      obtain rfl : gy = gy' := some.inj (hgy.symm.trans hgy')
      exact hview

omit [DecidableEq ι] in
theorem cleanJoin_of_self (hinj : Injective hashKey) (hfirst : first ∈ s.joined)
    (hnext : Next hashKey s.joined x x) : CleanJoin hashKey first s j := by
  have hall {z : ι} (hz : z ∈ s.joined) : z = first :=
    (hnext.eq_of_self hinj hz).trans (hnext.eq_of_self hinj hfirst).symm
  constructor
  · rintro ⟨hjf, w, hwA, hwj⟩
    rw [hall hwA] at hwj
    exact lt_asymm hjf hwj
  · intro m gm y gy hgm hgy _ hne
    exact absurd ((hall (mem_joined hgy)).trans (hall (mem_joined hgm)).symm) hne

/-- **終わった join の後の輪が正しいのは、条件を満たすとき、かつそのときに限る。** -/
theorem Join.ringCorrect_iff (hinj : Injective hashKey) (hring : RingCorrect hashKey s)
    (hfirst : first ∈ s.joined) (hjoin : Join hashKey first s j t) :
    RingCorrect hashKey t ↔ CleanJoin hashKey first s j := by
  obtain ⟨hnet, hj, hdone, tr, hrun⟩ := hjoin
  have hstart : Walk hashKey first j s first := ⟨hfirst, le_rfl, id⟩
  rw [onCreate, hnet, nil_append] at hrun
  obtain ⟨x, y, g, suc, sucNode, r, hwalk, hg, hsucc, hsuc, hnode, rfl, hr, tr', hrun⟩ :=
    exists_handled hinj hring hj (fun z hz => update_of_ne hz _ _) hstart hrun hdone
  obtain ⟨hname, ⟨y, hy, hnext⟩, -⟩ := hring x g hg
  obtain rfl : sucNode.name = y := some.inj (hsucc.symm.trans hy)
  obtain ⟨gy, hgy⟩ := exists_of_mem_joined hnext.1
  have hyj : sucNode.name ≠ j := fun heq => notMem_joined hj (heq ▸ mem_joined hgy)
  have hnames : g.names[suc]? = some sucNode.name := by simp [Graph.names, hnode]
  cases hr with
  | insert hne hbetween =>
    have hroot : suc ≠ g.root := by
      rintro rfl
      rw [Graph.name_eq, hnames] at hname
      exact hne (some.inj hname).symm
    obtain ⟨g', gJ, gS, hres, hx, hJ, hS⟩ := insertAfterMe_spec hname hsuc hnames hroot
    rw [hres] at hrun
    have hsettle : Settling (update (update (update s.process x
        (some g')) j (some gJ)) sucNode.name (some gS)) Set.univ t := by
      refine Settling.run ⟨?_, fun z _ => ?_⟩ hrun
      · simp [hyj.symm]
      · by_cases hzy : z = sucNode.name
        · exact .inr ⟨gS, by simp [hzy]⟩
        by_cases hzj : z = j
        · exact .inr ⟨gJ, by simp [hzj]⟩
        · left
          simp [update_apply, hzy, hzj]
    rw [cleanJoin_iff_of_between hinj hring hj hwalk hg hgy hsucc hne hnext hbetween]
    exact ringCorrect_insert_iff hinj hring hj hg hgy hne hnext hbetween hx hJ hS
      (funext fun z => hsettle.process_eq hdone (Set.mem_univ z))
  | first heq =>
    rw [← heq] at hnext
    obtain ⟨g', gJ, hres, hx, hJ⟩ := firstJoin_spec (j := j) hname
    rw [hres] at hrun
    have hsettle : Settling (update (update s.process x (some g')) j (some gJ)) Set.univ t := by
      refine Settling.run ⟨?_, fun z _ => ?_⟩ hrun
      · simp
      · by_cases hzj : z = j
        · exact .inr ⟨gJ, by simp [hzj]⟩
        · left
          simp [update_apply, hzj]
    refine iff_of_true ?_ (cleanJoin_of_self hinj hfirst hnext)
    exact ringCorrect_first hinj hj hg hnext hx hJ
      (funext fun z => hsettle.process_eq hdone (Set.mem_univ z))
  | afterSuccessor hyj' hjx =>
    have hxy : x ≠ sucNode.name := fun heq => lt_asymm hyj' (heq ▸ hjx)
    obtain ⟨g', sent, gS, hres, hmem, hS, hx, hsent⟩ := insertAfterSuccessor_spec (j := j) hname hnode
    rw [hres] at hrun
    have hsettle : Settling (update (update s.process x (some g')) sucNode.name
        (some gS)) {z | z ≠ j} t := by
      refine Settling.run ⟨fun m hm => ?_, fun z hz => ?_⟩ hrun
      · rcases hsent m hm with rfl | ⟨gJ, rfl⟩
        · exact ⟨_, gS, rfl, fun _ => by simp⟩
        · exact ⟨j, gJ, rfl, fun hjj => absurd rfl hjj⟩
      · by_cases hzy : z = sucNode.name
        · exact .inr ⟨gS, hzy ▸ hmem⟩
        · left
          have hz : z ≠ j := hz
          simp [update_apply, hzy, hz]
    refine iff_of_false ?_ ?_
    · refine not_ringCorrect_afterSuccessor hinj hring hj hg hgy hxy hS hx ?_ fun z hzy hzj => ?_
      · simpa using hsettle.process_eq hdone (x := sucNode.name) hyj
      · simpa [hzy] using hsettle.process_eq hdone (x := z) hzj
    · intro hclean
      refine hclean.1 ⟨?_, sucNode.name, hnext.1, hyj'⟩
      rcases lt_trichotomy (hashKey j) (hashKey first) with hlt | heq | hgt
      · exact hlt
      · exact absurd hfirst (hinj heq ▸ notMem_joined hj)
      · exact absurd (hwalk.lt hgt) (lt_asymm hjx)

theorem mem_joined_deliver {i : Nat} (h : s.deliver hashKey i = some t) (hx : x ∈ s.joined) :
    x ∈ t.joined := by
  obtain ⟨m, -, hstep⟩ := bind_eq_some_iff.mp h
  cases m with
  | join sendTo sender =>
    obtain ⟨g, -, hstep⟩ := bind_eq_some_iff.mp hstep
    obtain ⟨r, -, hstep⟩ := bind_eq_some_iff.mp hstep
    obtain rfl : _ = t := some.inj hstep
    by_cases hz : x = sendTo
    · simp [joined, hz]
    · simpa [joined, hz] using hx
  | modifiedNode sendTo modified =>
    obtain rfl : _ = t := some.inj hstep
    by_cases hz : x = sendTo
    · simp [joined, hz]
    · simpa [joined, hz] using hx

theorem Join.mem_joined (h : Join hashKey first s j t) (hx : x ∈ s.joined) : x ∈ t.joined := by
  obtain ⟨-, -, -, tr, hrun⟩ := h
  refine (hrun.invariant' (fun hp hq => mem_joined_deliver hq hp) ?_).1
  by_cases hxj : x = j
  · simp [joined, onCreate, hxj]
  · simpa [joined, onCreate, hxj] using hx

theorem ringCorrect_initial (first : ι) : RingCorrect hashKey (initial first) := by
  have hA : (initial first).joined = {first} := by
    ext z
    by_cases hz : z = first <;> simp [joined, initial, hz]
  intro x g hg
  rw [hA]
  by_cases hx : x = first
  · subst hx
    obtain rfl : _ = g := by simpa [initial] using hg
    have hself : Next hashKey {x} x x := ⟨rfl, .inr (by simp)⟩
    exact ⟨rfl, ⟨x, rfl, hself⟩, ⟨x, rfl, rfl, hself⟩⟩
  · simp [initial, hx] at hg

/-! ## 列の計算 -/

/-- `schedule` の順に message を届けて一つの join を終える。 -/
def joinWith (hashKey : ι → H) (first : ι) (s : System ι) (label : ι × List Nat) :
    Option (System ι) := do
  let t ← label.2.foldlM (deliver hashKey) (onCreate first s label.1)
  if s.network = [] ∧ s.process label.1 = none ∧ t.network = [] then some t else none

theorem joinWith_join {label : ι × List Nat} (h : joinWith hashKey first s label = some t) :
    Join hashKey first s label.1 t := by
  obtain ⟨q, hq, h⟩ := bind_eq_some_iff.mp h
  split at h
  · next hcond =>
    obtain rfl : q = t := some.inj h
    exact ⟨hcond.1, hcond.2.1, hcond.2.2, _, (Run.of_foldlM hq).1⟩
  · cases h

/-- 計算した join の列。 -/
def joins (hashKey : ι → H) (first : ι) (s : System ι) (labels : List (ι × List Nat)) :
    List (Transition (System ι) ι) :=
  (Run.trace (joinWith hashKey first) s labels).map fun e => ⟨e.pre, e.label.1, e.post⟩

theorem run_joins {labels : List (ι × List Nat)} (h : labels.foldlM (joinWith hashKey first) s = some t) :
    Run (Join hashKey first) s (joins hashKey first s labels) t := by
  induction labels generalizing s with
  | nil =>
    obtain rfl : s = t := by simpa using h
    exact .nil s
  | cons label labels ih =>
    rw [foldlM_cons] at h
    obtain ⟨q, hq, h⟩ := bind_eq_some_iff.mp h
    simp only [joins, Run.trace, hq, map_cons]
    exact .cons (joinWith_join hq) (ih h)

section Decide

variable [Fintype ι]

instance : DecidablePred (· ∈ s.joined) :=
  fun x => inferInstanceAs (Decidable ((s.process x).isSome = true))

instance {A : Set ι} [DecidablePred (· ∈ A)] : Decidable (Next hashKey A x y) :=
  inferInstanceAs (Decidable (_ ∧ _))

instance {A : Set ι} [DecidablePred (· ∈ A)] : Decidable (NodeCorrect hashKey A x g) :=
  decidable_of_iff (g.name = some x ∧ (∃ y, g.succName = some y ∧ Next hashKey A x y) ∧
      ∃ z ∈ A, g.predName = some z ∧ Next hashKey A z x)
    ⟨fun h => ⟨h.1, h.2.1, h.2.2⟩, fun h => ⟨h.name, h.succ, h.pred⟩⟩

instance : Decidable (RingCorrect hashKey s) :=
  inferInstanceAs (Decidable (∀ x, ∀ g ∈ s.process x, NodeCorrect hashKey s.joined x g))

end Decide

/-! ## どの列でも -/

/-- **どの join の後でも輪が正しいのは、どの join も条件を満たすとき、かつそのときに限る。** -/
theorem ringCorrect_iff_cleanJoin (hinj : Injective hashKey)
    {tr : List (Transition (System ι) ι)}
    (hrun : Run (Join hashKey first) (initial first) tr t) :
    (∀ e ∈ tr, RingCorrect hashKey e.post) ↔ ∀ e ∈ tr, CleanJoin hashKey first e.pre e.label := by
  refine hrun.forall_iff (I := fun s => RingCorrect hashKey s ∧ first ∈ s.joined)
    (G := fun _ _ t => RingCorrect hashKey t) ?_ ?_ ⟨ringCorrect_initial first, by simp [joined, initial]⟩
  · intro p j q hp hjoin hclean
    have hq := (hjoin.ringCorrect_iff hinj hp.1 hp.2).mpr hclean
    exact ⟨⟨hq, hjoin.mem_joined hp.2⟩, hq⟩
  · intro p j q hp hjoin hnot hq
    exact hnot ((hjoin.ringCorrect_iff hinj hp.1 hp.2).mp hq)

/-- hash が 0 の最初の node に 2、1、3 の順に join した輪は、どの join の後でも正しい。 -/
theorem ringCorrect_iff_cleanJoin_three :
    ∃ tr t, Run (Join (id : Fin 4 → Fin 4) 0) (initial 0) tr t ∧
      tr.map (fun e => e.label) = [2, 1, 3] ∧ (∀ e ∈ tr, RingCorrect id e.post) ∧
      ∀ e ∈ tr, CleanJoin id 0 e.pre e.label := by
  let labels : List (Fin 4 × List Nat) := [(2, [0, 0]), (1, [0, 0, 0]), (3, [0, 0, 0, 0, 0])]
  obtain ⟨t, ht⟩ := isSome_iff_exists.mp
    (show (labels.foldlM (joinWith id 0) (initial 0)).isSome = true by decide +kernel)
  have hcorrect : ∀ e ∈ joins id 0 (initial 0) labels, RingCorrect id e.post := by decide +kernel
  exact ⟨_, t, run_joins ht, by decide +kernel, hcorrect,
    (ringCorrect_iff_cleanJoin injective_id (run_joins ht)).mp hcorrect⟩

/-- hash が 2 の最初の node に 0 が、続いて 1 が join する。 -/
theorem join_below_first_breaks :
    ∃ tr t, Run (Join (id : Fin 3 → Fin 3) 2) (initial 2) tr t ∧
      tr.map (fun e => e.label) = [0, 1] ∧ ¬ RingCorrect id t := by
  let labels : List (Fin 3 × List Nat) := [(0, [0, 0]), (1, [0, 0, 0, 0])]
  obtain ⟨t, ht, hbad⟩ := (any_eq_true _ _).mp
    (show (labels.foldlM (joinWith id 2) (initial 2)).any (fun t => !decide (RingCorrect id t)) = true by
      decide +kernel)
  exact ⟨_, t, run_joins ht, by decide +kernel, by simpa using hbad⟩

/-! ## join は終わる -/

/-- まだ届いていない message と、届くたびに減る数。 -/
inductive Remaining (hashKey : ι → H) (A : Finset ι) (E : ι → Option (Graph ι)) (j : ι) :
    Nat → System ι → Prop where
  | join {P : ι → Option (Graph ι)} {x : ι} : (∀ z, z ≠ j → P z = E z) → x ∈ A →
      Remaining hashKey A E j ((A.filter fun z => hashKey x < hashKey z).card + 4) ⟨P, [.join x j]⟩
  | settle {p : System ι} : (∀ m ∈ p.network, ∃ z gz, m = .modifiedNode z gz) →
      Remaining hashKey A E j p.network.length p

section

variable (hinj : Injective hashKey) (hring : RingCorrect hashKey s) (hfin : s.joined.Finite)
  (hj : s.process j = none)

include hinj hring hj

theorem Remaining.deliver {n i : Nat} {p : System ι}
    (h : Remaining hashKey hfin.toFinset s.process j n p) (hi : i < p.network.length) :
    ∃ q, p.deliver hashKey i = some q ∧ ∃ m < n, Remaining hashKey hfin.toFinset s.process j m q := by
  cases h with
  | @join P x hP hx =>
    obtain rfl : i = 0 := by simpa using hi
    rw [hfin.mem_toFinset] at hx
    obtain ⟨g, hg⟩ := exists_of_mem_joined hx
    have hxj : x ≠ j := fun heq => notMem_joined hj (heq ▸ hx)
    obtain ⟨hname, ⟨y, hy, hnext⟩, -⟩ := hring x g hg
    have hyj : y ≠ j := fun heq => notMem_joined hj (heq ▸ hnext.1)
    have hPx : P x = some g := (hP x hxj).trans hg
    obtain ⟨suc, sucNode, -, -, -, ⟨hlt, -, hres⟩ | ⟨r, hr, hres⟩⟩ :=
      processJoinRequestMsg_cases hinj hname hy hxj hyj
    · have hstep : processMessage hashKey ⟨P, []⟩ (.join x j) = some ⟨P, [.join y j]⟩ := by
        rw [processMessage_join hPx hres, ← hPx, update_eq_self]
        rfl
      have hyA := hfin.mem_toFinset.mpr hnext.1
      refine ⟨_, hstep, _, Nat.add_lt_add_right (Finset.card_lt_card ?_) 4, .join hP hyA⟩
      -- 転送のたびに、より大きい hash の node が減る
      refine ⟨fun z hz => ?_, fun hsub => ?_⟩
      · obtain ⟨hzA, hyz⟩ := Finset.mem_filter.mp hz
        exact Finset.mem_filter.mpr ⟨hzA, hlt.trans hyz⟩
      · exact lt_irrefl _ (Finset.mem_filter.mp (hsub (Finset.mem_filter.mpr ⟨hyA, hlt⟩))).2
    · have hstep : processMessage hashKey ⟨P, []⟩ (.join x j) =
          some ⟨update P x (some r.1), r.2⟩ := processMessage_join hPx hres
      obtain ⟨hall, hlen⟩ := hr.forall_modifiedNode
      exact ⟨_, hstep, r.2.length, by omega, .settle (p := ⟨_, r.2⟩) hall⟩
  | settle hall =>
    obtain ⟨z, gz, hz⟩ := hall _ (getElem_mem hi)
    refine ⟨⟨update p.process z (some gz), p.network.eraseIdx i⟩, ?_, _, ?_,
      .settle fun m hm => hall m (mem_of_mem_eraseIdx hm)⟩
    · simp [System.deliver, getElem?_eq_getElem hi, hz, processMessage]
    · rw [length_eraseIdx_of_lt hi]
      omega

/--
**正しい輪では、join の message をどの順に届けても、途中で止まらず、輪の node の数に 3 を足した回数までに終わる。**
-/
theorem join_terminates (hfirst : first ∈ s.joined) (hnet : s.network = [])
    {tr : List (Transition (System ι) Nat)}
    (hrun : Run (fun p i q => deliver hashKey p i = some q) (onCreate first s j) tr t) :
    tr.length ≤ hfin.toFinset.card + 3 ∧ ∀ i < t.network.length, ∃ q, t.deliver hashKey i = some q := by
  rw [onCreate, hnet] at hrun
  have hfirst := hfin.mem_toFinset.mpr hfirst
  obtain ⟨m, hle, hrest⟩ := hrun.length_add_le (R := Remaining hashKey hfin.toFinset s.process j)
    (fun h hstep => by
      obtain ⟨_, hget, -⟩ := bind_eq_some_iff.mp hstep
      obtain ⟨q, hq, hrest⟩ := h.deliver hinj hring hfin hj (List.getElem?_eq_some_iff.mp hget).1
      exact some.inj (hq.symm.trans hstep) ▸ hrest)
    (.join (fun z hz => update_of_ne hz _ _) hfirst)
  refine ⟨?_, fun i hi => (hrest.deliver hinj hring hfin hj hi).imp fun _ h => h.1⟩
  have hcard := Finset.card_lt_card (Finset.filter_ssubset (p := fun z => hashKey first < hashKey z).mpr
    ⟨first, hfirst, lt_irrefl _⟩)
  omega

end

/-- 三つの輪に入る 3 の join は、0、1、2 の順に転送されてから受け取られる。 -/
theorem join_terminates_forwarded :
    ∃ s tr t, (∀ x, x ∈ s.joined ↔ x ≠ (3 : Fin 4)) ∧
      Run (fun p i q => deliver id p i = some q) (onCreate 0 s 3) tr t ∧
      tr.map (fun e => e.pre.network) = [[.join 0 3], [.join 1 3], [.join 2 3]] ∧
      t.network.length = 2 ∧ tr.length ≤ 6 ∧ ∀ i < 2, ∃ q, t.deliver id i = some q := by
  obtain ⟨s, hs, hP⟩ := (any_eq_true _ _).mp
    (show ([(2, [0, 0]), (1, [0, 0, 0])].foldlM (joinWith (id : Fin 4 → Fin 4) 0) (initial 0)).any
      (fun s => RingCorrect id s ∧ (∀ x, x ∈ s.joined ↔ x ≠ 3) ∧ s.network = [] ∧
        ([0, 0, 0].foldlM (deliver id) (onCreate 0 s 3)).any fun t => t.network.length = 2 ∧
        (Run.trace (deliver id) (onCreate 0 s 3) [0, 0, 0]).map (fun e => e.pre.network) =
          [[.join 0 3], [.join 1 3], [.join 2 3]]) = true by decide +kernel)
  obtain ⟨hring, hjoined, hnet, hrest⟩ := of_decide_eq_true hP
  obtain ⟨t, ht, hQ⟩ := (any_eq_true _ _).mp hrest
  obtain ⟨hlen, htrace⟩ := of_decide_eq_true hQ
  have hrun := (Run.of_foldlM ht).1
  have hthree : (Set.toFinite s.joined).toFinset = {0, 1, 2} := by
    ext x
    rw [Set.Finite.mem_toFinset, hjoined]
    revert x
    decide
  obtain ⟨hle, hgo⟩ := join_terminates injective_id hring (Set.toFinite _)
    (by_contra fun h => (hjoined 3).mp (isSome_iff_ne_none.mpr h) rfl)
    ((hjoined 0).mpr (by decide)) hnet hrun
  rw [hthree] at hle
  exact ⟨s, _, t, hjoined, hrun, htrace, hlen, hle, hlen ▸ hgo⟩

end System

end Dht
