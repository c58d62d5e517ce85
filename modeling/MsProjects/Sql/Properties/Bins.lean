import MsProjects.Sql.HashJoin

/-! # bin の file の中身 -/

namespace Sql

open List Function

variable {sb : Buffers} {swap data : Directory} {tab newtab : TableName} {cnt : Nat}

variable {i b : Nat} {ls : List Line}

/-! ## 書き出し -/

/-- bin に書き出した行と、これから書き出す行。 -/
def held (sb : Buffers) (swap : Directory) (tab : TableName) (i : Nat) : List Line :=
  (swap (.bin tab i)).getD [] ++ sb i

@[simp] theorem held_initTmap (i : Nat) : held initTmap swap tab i = (swap (.bin tab i)).getD [] := by
  simp [held, initTmap]

theorem held_append (b i : Nat) (s : Line) :
    held (sb.append b s) swap tab i = held sb swap tab i ++ if b = i then [s] else [] := by
  by_cases h : b = i
  · subst h
    simp [held, Buffers.append]
  · simp [held, Buffers.append, h, update_of_ne (Ne.symm h)]

theorem flushToDisk_bin (h : i < bins) :
    flushToDisk sb tab swap (.bin tab i) = some (held sb swap tab i) := by
  simp [flushToDisk, h, held]

theorem flushToDisk_of_ne {f : FileName} (h : ∀ i, f ≠ .bin tab i) :
    flushToDisk sb tab swap f = swap f := by
  cases f with
  | table t => rfl
  | bin t i =>
    have ht : t ≠ tab := fun heq => h i (heq ▸ rfl)
    simp [flushToDisk, ht]

theorem held_flushToDisk (h : i < bins) :
    held initTmap (flushToDisk sb tab swap) tab i = held sb swap tab i := by
  simp [flushToDisk_bin h]

/-! ## 表を分ける -/

def tagOf (cnt : Nat) (s : Line) : Nat := ((keyOf cnt s).bind binOf).getD 0

/-- 例外で止まるまでに読める行。 -/
def readable (cnt : Nat) (ls : List Line) : List Line :=
  ls.takeWhile fun s => ((keyOf cnt s).bind binOf).isSome

theorem binOf_lt {key : Int} (h : binOf key = some b) : b < bins := by
  rw [binOf] at h
  split at h
  · obtain rfl := Option.some.inj h
    have hlt : key.tmod (bins : Int) < (bins : Int) := Int.tmod_lt_of_pos key (by decide)
    omega
  · cases h

theorem createBinsLoop_spec (cnt : Nat) (tab : TableName) (ls : List Line) (n : Nat) (sb : Buffers)
    (swap : Directory) :
    (∀ i < bins, held (createBinsLoop (fun _ => some true) cnt tab ls n sb swap).1
        (createBinsLoop (fun _ => some true) cnt tab ls n sb swap).2 tab i =
          held sb swap tab i ++ (readable cnt ls).filter fun s => tagOf cnt s = i) ∧
      ∀ f, (∀ i, f ≠ .bin tab i) →
        (createBinsLoop (fun _ => some true) cnt tab ls n sb swap).2 f = swap f := by
  induction ls generalizing n sb swap with
  | nil => simp [createBinsLoop, readable]
  | cons s ls ih =>
    cases hb : (keyOf cnt s).bind binOf with
    | none => simp [createBinsLoop, readable, hb]
    | some b =>
      have htag : tagOf cnt s = b := by simp [tagOf, hb]
      have hread : readable cnt (s :: ls) = s :: readable cnt ls := by simp [readable, hb]
      simp only [createBinsLoop, hb]
      split
      · obtain ⟨hheld, hframe⟩ := ih 0 initTmap (flushToDisk (sb.append b s) tab swap)
        refine ⟨fun i hi => ?_, fun f hf => (hframe f hf).trans (flushToDisk_of_ne hf)⟩
        rw [hheld i hi, held_flushToDisk hi, held_append, hread, filter_cons, htag]
        by_cases h : b = i <;> simp [h]
      · obtain ⟨hheld, hframe⟩ := ih (n + 1) (sb.append b s) swap
        refine ⟨fun i hi => ?_, hframe⟩
        rw [hheld i hi, held_append, hread, filter_cons, htag]
        by_cases h : b = i <;> simp [h]

/-- **`createBins` の後の bin には、読めた行がその順に入る。** -/
theorem createBins_bin (hfile : openFile data swap (.table tab) = some ls) (hi : i < bins) :
    createBins (fun _ => some true) data cnt tab swap (.bin tab i) =
      some ((swap (.bin tab i)).getD [] ++ (readable cnt ls).filter fun s => tagOf cnt s = i) := by
  rw [createBins, hfile]
  simp only [flushToDisk_bin hi, (createBinsLoop_spec cnt tab ls 0 initTmap swap).1 i hi,
    held_initTmap]

theorem createBins_of_ne {f : FileName} (h : ∀ i, f ≠ .bin tab i) :
    createBins (fun _ => some true) data cnt tab swap f = swap f := by
  rw [createBins]
  cases openFile data swap (.table tab) with
  | none => exact flushToDisk_of_ne h
  | some ls =>
    simp only [flushToDisk_of_ne h]
    exact (createBinsLoop_spec cnt tab ls 0 initTmap swap).2 f h

/-! ## 突き合わせ -/

theorem inMemoryLoop_apply (h : ∀ s ∈ ls, (keyOf cnt s).isSome) (inMem : Int → List Line)
    (key : Int) :
    inMemoryLoop (fun _ => some true) cnt ls inMem key =
      inMem key ++ ls.filter fun s => keyOf cnt s = some key := by
  induction ls generalizing inMem with
  | nil => simp [inMemoryLoop]
  | cons s ls ih =>
    obtain ⟨k, hk⟩ := Option.isSome_iff_exists.mp (h s mem_cons_self)
    simp only [inMemoryLoop, hk]
    rw [ih fun s' hs' => h s' (mem_cons_of_mem _ hs'), filter_cons, hk]
    by_cases hkey : k = key
    · subst hkey
      simp
    · simp [hkey, update_of_ne (Ne.symm hkey)]

variable {offsets : List Projected}

theorem appendMatches_spec {s : Line} {key : Int} (hb : binOf key = some b) {ts : List Line}
    {out : Line → Line} (hout : ∀ t ∈ ts, projectRecord offsets (s ++ '|' :: t) = some (out t))
    (newtab : TableName) (w : Writer) :
    ∃ w', appendMatches offsets s key ts w = (w', true) ∧ w'.swap = w.swap ∧
      ∀ i, held w'.sbArray w'.swap newtab i =
        held w.sbArray w.swap newtab i ++ if b = i then ts.map out else [] := by
  induction ts generalizing w with
  | nil => exact ⟨w, rfl, rfl, by simp⟩
  | cons t ts ih =>
    have hadd : addToOutstream offsets (s ++ '|' :: t) key w.sbArray =
        some (w.sbArray.append b (out t)) := by
      simp [addToOutstream, hb, hout t mem_cons_self]
    obtain ⟨w', hw', hswap, hheld⟩ := ih (fun t' ht' => hout t' (mem_cons_of_mem _ ht'))
      { w with sbArray := w.sbArray.append b (out t), linecount := w.linecount + 1 }
    refine ⟨w', by simp only [appendMatches, hadd, hw'], hswap, fun i => ?_⟩
    rw [hheld i, held_append]
    by_cases h : b = i <;> simp [h]

theorem lookupLoop_spec {inMem : Int → List Line} {out : Line → Line → Line}
    (hls : ∀ s ∈ ls, ∃ key, keyOf cnt s = some key ∧ binOf key = some b ∧
      ∀ t ∈ inMem key, projectRecord offsets (s ++ '|' :: t) = some (out s t))
    (newtab : TableName) (w : Writer) :
    ∃ w', lookupLoop offsets newtab cnt inMem ls w = (w', true) ∧
      (∀ f, (∀ i, f ≠ .bin newtab i) → w'.swap f = w.swap f) ∧
      ∀ i < bins, held w'.sbArray w'.swap newtab i = held w.sbArray w.swap newtab i ++
        if b = i then ls.flatMap fun s => (inMem ((keyOf cnt s).getD 0)).map (out s) else [] := by
  induction ls generalizing w with
  | nil => exact ⟨w, rfl, fun _ _ => rfl, by simp⟩
  | cons s ls ih =>
    obtain ⟨key, hkey, hb, hout⟩ := hls s mem_cons_self
    obtain ⟨w₁, hw₁, hswap₁, hheld₁⟩ := appendMatches_spec hb hout newtab w
    obtain ⟨w', hw', hframe, hheld⟩ := ih (fun s' hs' => hls s' (mem_cons_of_mem _ hs'))
      (if w₁.linecount > limit then w₁.flush newtab else w₁)
    -- 途中で書き出しても `held` は変わらない
    have hflush : (∀ f, (∀ i, f ≠ .bin newtab i) →
        (if w₁.linecount > limit then w₁.flush newtab else w₁).swap f = w.swap f) ∧
        ∀ i < bins, held (if w₁.linecount > limit then w₁.flush newtab else w₁).sbArray
          (if w₁.linecount > limit then w₁.flush newtab else w₁).swap newtab i =
            held w₁.sbArray w₁.swap newtab i := by
      split
      · exact ⟨fun f hf => (flushToDisk_of_ne hf).trans (by rw [hswap₁]),
          fun i hi => held_flushToDisk hi⟩
      · exact ⟨fun f _ => by rw [hswap₁], fun _ _ => rfl⟩
    refine ⟨w', by simp only [lookupLoop, hkey, hw₁, hw'], fun f hf => ?_, fun i hi => ?_⟩
    · rw [hframe f hf, hflush.1 f hf]
    · rw [hheld i hi, hflush.2 i hi, hheld₁ i]
      by_cases h : b = i <;> simp [h, hkey]

/-- **`readlineNlookup` の後の bin には、突き合わせた行がその順に書き足される。** -/
theorem readlineNlookup_bin (newtab : TableName) {inMem : Int → List Line} {file : FileName}
    {w : Writer} (hfile : openFile data w.swap file = some ls) {out : Line → Line → Line}
    (hls : ∀ s ∈ ls, ∃ key, keyOf cnt s = some key ∧ binOf key = some b ∧
      ∀ t ∈ inMem key, projectRecord offsets (s ++ '|' :: t) = some (out s t)) :
    (readlineNlookup offsets newtab data cnt inMem file w).sbArray = initTmap ∧
      (∀ f, (∀ i, f ≠ .bin newtab i) →
        (readlineNlookup offsets newtab data cnt inMem file w).swap f = w.swap f) ∧
      ∀ i < bins, (readlineNlookup offsets newtab data cnt inMem file w).swap (.bin newtab i) =
        some (held w.sbArray w.swap newtab i ++
          if b = i then ls.flatMap fun s => (inMem ((keyOf cnt s).getD 0)).map (out s) else []) := by
  obtain ⟨w', hw', hframe, hheld⟩ := lookupLoop_spec hls newtab w
  have heq : readlineNlookup offsets newtab data cnt inMem file w = w'.flush newtab := by
    simp only [readlineNlookup, hfile, hw']
  rw [heq]
  refine ⟨rfl, fun f hf => (flushToDisk_of_ne hf).trans (hframe f hf), fun i hi => ?_⟩
  rw [← hheld i hi]
  exact flushToDisk_bin hi

section

variable {joinTab breakBinsTab : TableName} {joinCnt : Nat} {L R : Nat → List Line}
  {out : Line → Line → Line}

/-- bin `i` の組を突き合わせた結果の行。 -/
def matched (cnt joinCnt : Nat) (L R : Nat → List Line) (out : Line → Line → Line) (i : Nat) :
    List Line :=
  (L i).flatMap fun s => ((R i).filter fun t => keyOf joinCnt t = keyOf cnt s).map (out s)

/-- bin の組を `n` 番目の前まで突き合わせた途中。 -/
structure Joining (swap : Directory) (newtab : TableName) (G : Nat → List Line) (n : Nat)
    (w : Writer) : Prop where
  sbArray : w.sbArray = initTmap
  frame : ∀ f, (∀ i, f ≠ .bin newtab i) → w.swap f = swap f
  content : ∀ i < bins, (w.swap (.bin newtab i)).getD [] =
    (swap (.bin newtab i)).getD [] ++ if i < n then G i else []
  exist : 0 < n → ∀ i < bins, (w.swap (.bin newtab i)).isSome = true

variable (hdata : ∀ t i, data (.bin t i) = none) (hjoin : joinTab ≠ newtab)
  (hbreak : breakBinsTab ≠ newtab) (hL : ∀ i < bins, swap (.bin breakBinsTab i) = some (L i))
  (hR : ∀ i < bins, swap (.bin joinTab i) = some (R i))
  (hLkey : ∀ i, ∀ s ∈ L i, ∃ key, keyOf cnt s = some key ∧ binOf key = some i)
  (hRkey : ∀ i, ∀ t ∈ R i, (keyOf joinCnt t).isSome)
  (hout : ∀ i, ∀ s ∈ L i, ∀ t ∈ R i, keyOf joinCnt t = keyOf cnt s →
    projectRecord offsets (s ++ '|' :: t) = some (out s t))

include hdata hjoin hbreak hL hR hLkey hRkey hout

theorem Joining.step {n : Nat} (hn : n < bins) {w : Writer}
    (h : Joining swap newtab (matched cnt joinCnt L R out) n w) :
    Joining swap newtab (matched cnt joinCnt L R out) (n + 1)
      (readlineNlookup offsets newtab data cnt (getInMemoryMap (fun _ => some true) data w.swap
        (.bin joinTab n) joinCnt) (.bin breakBinsTab n) w) := by
  have hother {t : TableName} (ht : t ≠ newtab) (i : Nat) : FileName.bin t n ≠ .bin newtab i :=
    fun heq => ht (FileName.bin.inj heq).1
  have hbin {t : TableName} (ht : t ≠ newtab) :
      openFile data w.swap (.bin t n) = swap (.bin t n) := by
    rw [openFile, hdata, h.frame _ (hother ht)]
    rfl
  have hmap (key : Int) : getInMemoryMap (fun _ => some true) data w.swap (.bin joinTab n) joinCnt
      key = (R n).filter fun t => keyOf joinCnt t = some key := by
    simp only [getInMemoryMap, hbin hjoin, hR n hn]
    simpa using inMemoryLoop_apply (hRkey n) (fun _ => []) key
  have hls (s : Line) (hs : s ∈ L n) : ∃ key, keyOf cnt s = some key ∧ binOf key = some n ∧
      ∀ t ∈ getInMemoryMap (fun _ => some true) data w.swap (.bin joinTab n) joinCnt key,
        projectRecord offsets (s ++ '|' :: t) = some (out s t) := by
    obtain ⟨key, hkey, hb⟩ := hLkey n s hs
    refine ⟨key, hkey, hb, fun t ht => ?_⟩
    rw [hmap] at ht
    obtain ⟨htR, htkey⟩ := mem_filter.mp ht
    exact hout n s hs t htR ((of_decide_eq_true htkey).trans hkey.symm)
  obtain ⟨hsb, hframe, hcontent⟩ := readlineNlookup_bin newtab ((hbin hbreak).trans (hL n hn)) hls
  have hG : ((L n).flatMap fun s => (getInMemoryMap (fun _ => some true) data w.swap
      (.bin joinTab n) joinCnt ((keyOf cnt s).getD 0)).map (out s)) =
        matched cnt joinCnt L R out n := by
    refine flatMap_congr fun s hs => ?_
    obtain ⟨key, hkey, -⟩ := hLkey n s hs
    rw [hkey, Option.getD_some, hmap]
  refine ⟨hsb, fun f hf => (hframe f hf).trans (h.frame f hf), fun i hi => ?_, fun _ i hi => ?_⟩
  · rw [hcontent i hi, Option.getD_some, hG, h.sbArray, held_initTmap, h.content i hi]
    rcases Nat.lt_trichotomy i n with hlt | rfl | hgt
    · simp [hlt, hlt.ne', Nat.lt_succ_of_lt hlt]
    · simp
    · simp [hgt.ne, Nat.not_lt.mpr hgt.le, Nat.not_lt.mpr (Nat.succ_le_of_lt hgt)]
  · rw [hcontent i hi]
    rfl

/-- **すべての bin の組を突き合わせた後の結果の bin。** -/
theorem joinBins_bin (hi : i < bins) :
    (joinBins offsets newtab (fun _ => some true) data joinTab joinCnt breakBinsTab cnt
      { sbArray := initTmap, linecount := 0, swap := swap }).swap (.bin newtab i) =
      some ((swap (.bin newtab i)).getD [] ++ matched cnt joinCnt L R out i) := by
  have hupto (n : Nat) (hn : n ≤ bins) : Joining swap newtab (matched cnt joinCnt L R out) n
      ((range n).foldl (fun w i => readlineNlookup offsets newtab data cnt
        (getInMemoryMap (fun _ => some true) data w.swap (.bin joinTab i) joinCnt)
        (.bin breakBinsTab i) w) { sbArray := initTmap, linecount := 0, swap := swap }) := by
    induction n with
    | zero => exact ⟨rfl, fun _ _ => rfl, by simp, by simp⟩
    | succ n ih =>
      rw [range_succ, foldl_append]
      exact (ih (by omega)).step hdata hjoin hbreak hL hR hLkey hRkey hout hn
  have hall := hupto bins (Nat.le_refl _)
  obtain ⟨rows, hrows⟩ := Option.isSome_iff_exists.mp (hall.exist (by decide) i hi)
  have hcontent := hall.content i hi
  rw [hrows, Option.getD_some, if_pos hi] at hcontent
  rw [joinBins, hrows, hcontent]

end

end Sql
