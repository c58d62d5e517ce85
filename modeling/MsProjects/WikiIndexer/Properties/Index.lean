import Mathlib.Data.List.Induction
import MsProjects.Infra.Intern
import MsProjects.WikiIndexer.Runner

/-! # 索引を書いて読み戻すこと -/

namespace WikiIndexer

open Infra List IndexReader Function

open IndexWriter (addIds addKey addPosting addToIndex)

open Option (bind_eq_bind bind_some some)

variable {t : Term} {d : Dictionary} {w : IndexWriter} {disk : Disk}

/-! ## partition -/

/-- ASCII の英字か数字で始まる。 -/
def StartsAlphanum : Term → Prop
  | [] => False
  | c :: _ => c.isAlphanum = true

instance : DecidablePred StartsAlphanum
  | [] => inferInstanceAs (Decidable False)
  | c :: _ => inferInstanceAs (Decidable (c.isAlphanum = true))

theorem charPartition_lt {c : Char} (h : c.isAlphanum = true) : charPartition c < numPartitions := by
  have hall : ∀ n < 128, (Char.ofNat n).isAlphanum = true →
      charPartition (Char.ofNat n) < numPartitions := by
    decide
  have hlt : c.toNat < 128 := by
    delta Char.isAlphanum Char.isAlpha Char.isUpper Char.isLower Char.isDigit at h
    simp only [Bool.or_eq_true, Bool.and_eq_true, decide_eq_true_eq, ge_iff_le,
      UInt32.le_iff_toNat_le] at h
    have hnat : c.val.toNat = c.toNat := rfl
    rcases h with (⟨-, h⟩ | ⟨-, h⟩) | ⟨-, h⟩ <;> exact Nat.lt_of_le_of_lt (hnat ▸ h) (by decide)
  have hc := hall c.toNat hlt
  rw [Char.ofNat_toNat] at hc
  exact hc h

def partOf : Term → Nat
  | [] => 18
  | c :: _ => charPartition c

theorem getPartitionNumber_eq (h : StartsAlphanum t) : getPartitionNumber t = some (partOf t) := by
  cases t with
  | nil => exact h.elim
  | cons c rest => rfl

theorem partOf_lt (h : StartsAlphanum t) : partOf t < numPartitions := by
  cases t with
  | nil => exact h.elim
  | cons c rest => exact charPartition_lt h

/-! ## 辞書 -/

theorem sharedLookup_eq (h : d.fld = .link) (value : Term) :
    d.sharedLookup value = ((intern d.sharedDict value).idxOf value,
      { d with sharedDict := intern d.sharedDict value }) := by
  have hex : d.exists value = d.sharedDict.contains value := by
    simp only [Dictionary.exists, h]
  unfold Dictionary.sharedLookup intern
  rw [hex]
  split
  · rfl
  · rfl

theorem localLookup_eq (h : d.fld = .term) (value : Term) :
    d.localLookup value = ((intern d.localDict value).idxOf value,
      { d with localDict := intern d.localDict value }) := by
  have hex : d.exists value = d.localDict.contains value := by
    simp only [Dictionary.exists, h]
  have hlocal : d.localLookup value =
      if d.exists value then (d.localDict.idxOf value, d)
      else ((d.localDict ++ [value]).idxOf value,
        { d with localDict := d.localDict ++ [value] }) := by
    simp only [Dictionary.localLookup, h]
  unfold intern
  rw [hlocal, hex]
  split
  · rfl
  · rfl

/-! ## IndexWriter の中身 -/

def postingsOf (t : Term) (entries : List TermIndexEntry) : List (Nat × Int) :=
  (entries.filter fun e => e.term = t).map fun e => (e.docId, e.numOccurances)

/-- `entries` を順に足した `IndexWriter`。 -/
structure Built (entries : List TermIndexEntry) (w : IndexWriter) : Prop where
  keyfld : w.keyfld = .term
  isfwd : w.isfwd = false
  fld : w.localDict.fld = .term
  dict : w.localDict.localDict = internAll [] (entries.map fun e => e.term)
  postings : ∀ t ∈ entries.map (fun e => e.term),
    w.index (w.localDict.localDict.idxOf t) = some (postingsOf t entries)
  fresh : ∀ n, w.localDict.localDict.length ≤ n → w.index n = none
  termindex : w.termindex = w.index
  partno : entries = [] ∨ ∃ e ∈ entries, partOf e.term = w.partno

theorem built_new : Built [] (IndexWriter.new .term false) where
  keyfld := rfl
  isfwd := rfl
  fld := rfl
  dict := rfl
  postings := by simp
  fresh := fun _ _ => rfl
  termindex := rfl
  partno := .inl rfl

theorem postingsOf_concat (t : Term) (entries : List TermIndexEntry) (e : TermIndexEntry) :
    postingsOf t (entries ++ [e]) =
      if e.term = t then postingsOf t entries ++ [(e.docId, e.numOccurances)]
      else postingsOf t entries := by
  unfold postingsOf
  by_cases h : e.term = t <;> simp [h]

theorem postingsOf_eq_nil {entries : List TermIndexEntry} (h : t ∉ entries.map fun e => e.term) :
    postingsOf t entries = [] := by
  unfold postingsOf
  rw [filter_eq_nil_iff.mpr, map_nil]
  intro e he
  simp only [decide_eq_true_eq]
  rintro rfl
  exact h (mem_map_of_mem he)

theorem addToIndex_eq (hk : w.keyfld = .term) (hf : w.isfwd = false) (hd : w.localDict.fld = .term)
    (ht : t ≠ []) (valueId : Nat) (n : Int) :
    w.addToIndex t valueId n = some
      { w with
        partno := partOf t
        localDict := { w.localDict with localDict := intern w.localDict.localDict t }
        index := addPosting w.index ((intern w.localDict.localDict t).idxOf t) (valueId, n)
        termindex :=
          addPosting w.index ((intern w.localDict.localDict t).idxOf t) (valueId, n) } := by
  cases t with
  | nil => exact absurd rfl ht
  | cons c rest =>
    simp [addToIndex, addKey, addIds, hk, hf, localLookup_eq hd, getPartitionNumber, partOf]

theorem Built.add {entries : List TermIndexEntry} (h : Built entries w) (e : TermIndexEntry)
    (he : e.term ≠ []) :
    ∃ w', w.addToIndex e.term e.docId e.numOccurances = some w' ∧ Built (entries ++ [e]) w' := by
  refine ⟨_, addToIndex_eq h.keyfld h.isfwd h.fld he _ _, ?_⟩
  have hmem (t : Term) : t ∈ w.localDict.localDict ↔ t ∈ entries.map fun e => e.term := by
    rw [h.dict, mem_internAll]
    simp
  -- 足す前の、この番号の列
  have hold : w.index ((intern w.localDict.localDict e.term).idxOf e.term) =
      if e.term ∈ w.localDict.localDict then some (postingsOf e.term entries) else none := by
    split
    · next hin =>
      rw [idxOf_intern hin]
      exact h.postings _ ((hmem _).mp hin)
    · next hout =>
      refine h.fresh _ ?_
      rw [intern_of_notMem hout, idxOf_append_of_notMem hout]
      omega
  have hnew : addPosting w.index ((intern w.localDict.localDict e.term).idxOf e.term)
        (e.docId, e.numOccurances) =
      update w.index ((intern w.localDict.localDict e.term).idxOf e.term)
        (some (postingsOf e.term (entries ++ [e]))) := by
    rw [addPosting, hold, postingsOf_concat, if_pos rfl]
    split
    · next hnone =>
      split at hnone
      · cases hnone
      · next hout =>
        rw [postingsOf_eq_nil fun hin => hout ((hmem _).mpr hin), nil_append]
    · next d hsome =>
      split at hsome
      · cases hsome
        rfl
      · cases hsome
  constructor
  · exact h.keyfld
  · exact h.isfwd
  · exact h.fld
  · simp only [map_append, map_cons, map_nil, internAll_concat, h.dict]
  · intro t ht
    simp only [hnew]
    by_cases hte : t = e.term
    · subst hte
      rw [update_self]
    · have hin : t ∈ w.localDict.localDict := (hmem t).mpr (by simpa [hte] using ht)
      have hne : (intern w.localDict.localDict e.term).idxOf t ≠
          (intern w.localDict.localDict e.term).idxOf e.term := by
        intro heq
        exact hte ((idxOf_inj (mem_intern.mpr (.inl hin))).mp heq)
      rw [update_of_ne hne, idxOf_intern hin, postingsOf_concat, if_neg (Ne.symm hte)]
      exact h.postings t ((hmem t).mp hin)
  · intro n hn
    simp only [hnew]
    have hlt := idxOf_lt_length_of_mem
      (mem_intern.mpr (.inr rfl) : e.term ∈ intern w.localDict.localDict e.term)
    have hlen : w.localDict.localDict.length ≤ (intern w.localDict.localDict e.term).length := by
      unfold intern
      split
      · exact Nat.le_refl _
      · simp
    simp only at hn
    rw [update_of_ne (by omega)]
    exact h.fresh n (by omega)
  · rfl
  · exact .inr ⟨e, by simp, rfl⟩

/-- **一つの thread は、受け取った entry を語ごとの posting の列に並べ終える。** -/
theorem built_buildWriter (entries : List TermIndexEntry) (h : ∀ e ∈ entries, e.term ≠ []) :
    ∃ w, buildWriter entries = some w ∧ Built entries w := by
  induction entries using reverseRecOn with
  | nil => exact ⟨_, rfl, built_new⟩
  | append_singleton entries e ih =>
    obtain ⟨w, hw, hbuilt⟩ := ih fun e' he' => h e' (by simp [he'])
    obtain ⟨w', hw', hbuilt'⟩ := hbuilt.add e (h e (by simp))
    refine ⟨w', ?_, hbuilt'⟩
    unfold buildWriter at hw ⊢
    rw [foldlM_append, hw]
    simpa using hw'

/-! ## 書かれた file -/

theorem writePartitions_foldlM {entries : List (Nat × TermIndexEntry)}
    (hroute : ∀ p ∈ entries, p.2.term ≠ [] ∧ partOf p.2.term = p.1) (hlt : ∀ p ∈ entries, p.1 ≠ 18)
    (parts : List Nat) (disk : Disk) :
    ∃ disk', parts.foldlM (fun disk part =>
        if received entries part = [] then some disk
        else (buildWriter (received entries part)).map fun w => w.writeToDisk disk) disk
          = some disk' ∧
      disk'.sharedDict = disk.sharedDict ∧
      ∀ n, disk'.index n =
        if n ∈ parts ∧ received entries n ≠ [] then buildWriter (received entries n)
        else disk.index n := by
  induction parts generalizing disk with
  | nil => exact ⟨disk, rfl, rfl, by simp⟩
  | cons part parts ih =>
    rw [foldlM_cons]
    by_cases hnil : received entries part = []
    · obtain ⟨disk', hfold, hshared, hindex⟩ := ih disk
      refine ⟨disk', by simpa [hnil] using hfold, hshared, fun n => ?_⟩
      rw [hindex n]
      by_cases hn : n = part
      · subst hn
        simp [hnil]
      · simp [hn]
    · have hmem (e : TermIndexEntry) (he : e ∈ received entries part) :
          e.term ≠ [] ∧ partOf e.term = part ∧ part ≠ 18 := by
        obtain ⟨p, hp, rfl⟩ := mem_map.mp he
        obtain ⟨hin, hpart⟩ := mem_filter.mp hp
        obtain rfl : p.1 = part := by simpa using hpart
        exact ⟨(hroute p hin).1, (hroute p hin).2, hlt p hin⟩
      obtain ⟨w, hw, hbuilt⟩ := built_buildWriter _ fun e he => (hmem e he).1
      have hpart : w.partno = part ∧ part ≠ 18 := by
        rcases hbuilt.partno with h | ⟨e, he, hpe⟩
        · exact absurd h hnil
        · exact ⟨hpe.symm.trans (hmem e he).2.1, (hmem e he).2.2⟩
      have hwrite : w.writeToDisk disk =
          { disk with index := update disk.index part (some w) } := by
        rw [IndexWriter.writeToDisk, hpart.1, if_pos hpart.2]
      obtain ⟨disk', hfold, hshared, hindex⟩ := ih (w.writeToDisk disk)
      refine ⟨disk', by simpa [hnil, hw] using hfold, by rw [hshared, hwrite], fun n => ?_⟩
      rw [hindex n, hwrite]
      by_cases hn : n = part
      · subst hn
        simp [hnil, hw]
      · simp [hn]

theorem writePartitions_spec {entries : List (Nat × TermIndexEntry)}
    (hroute : ∀ p ∈ entries, p.2.term ≠ [] ∧ partOf p.2.term = p.1)
    (hlt : ∀ p ∈ entries, p.1 < numPartitions) (docDict : Dictionary) :
    ∃ disk, writePartitions entries { Disk.empty with sharedDict := some docDict } = some disk ∧
      disk.sharedDict = some docDict ∧
      ∀ n < numPartitions, disk.index n =
        if received entries n = [] then none else buildWriter (received entries n) := by
  have h18 : ∀ p ∈ entries, p.1 ≠ 18 := by
    intro p hp heq
    have := hlt p hp
    rw [heq] at this
    exact absurd this (by decide)
  obtain ⟨disk, hfold, hshared, hindex⟩ := writePartitions_foldlM hroute h18
    (range numPartitions) { Disk.empty with sharedDict := some docDict }
  refine ⟨disk, hfold, hshared, fun n hn => ?_⟩
  rw [hindex n]
  by_cases hnil : received entries n = []
  · simp [hnil, Disk.empty]
  · simp [hnil, hn]

/-! ## 読み出し -/

theorem mapM_eq_none_iff {α β : Type*} {f : α → Option β} {l : List α} :
    l.mapM f = none ↔ ∃ x ∈ l, f x = none := by
  induction l with
  | nil => simp
  | cons x l ih =>
    cases hx : f x with
    | none => simp [mapM_cons, hx]
    | some y =>
      rw [mapM_cons, hx]
      simp [hx, ← ih, Option.bind_eq_none_iff, ← Option.eq_none_iff_forall_ne_some]

theorem new_term_eq_none_iff {docDict : Dictionary} (h : disk.sharedDict = some docDict) :
    new disk .term = none ↔ ∃ n < numPartitions, disk.index n = none := by
  have hparts := mapM_eq_none_iff (f := disk.index) (l := range numPartitions)
  simp only [mem_range] at hparts
  rw [← hparts]
  cases hm : (range numPartitions).mapM disk.index <;> simp [new, h, hm]

theorem new_term_eq_some {docDict : Dictionary} {r : IndexReader}
    (h : disk.sharedDict = some docDict) (hr : new disk .term = some r) :
    r.fld = .term ∧ r.sDict = docDict.sharedDict := by
  cases hm : (range numPartitions).mapM disk.index with
  | none => simp [new, h, hm] at hr
  | some parts =>
    simp only [new, h, hm, bind_eq_bind, bind_some, some.injEq] at hr
    subst hr
    exact ⟨rfl, rfl⟩

theorem putAll_spec {sDict : List Term} (hnodup : sDict.Nodup) (l : List (Nat × Int))
    (hin : ∀ v ∈ l, v.1 < sDict.length) (hids : (l.map fun v => v.1).Nodup)
    (output : IndexReader.Postings) :
    ∃ m, putAll sDict l output = some m ∧
      ∀ name c, m name = some c ↔ (∃ v ∈ l, sDict[v.1]? = some name ∧ v.2 = c) ∨
        (∀ v ∈ l, sDict[v.1]? ≠ some name) ∧ output name = some c := by
  induction l generalizing output with
  | nil => exact ⟨output, rfl, by simp⟩
  | cons v l ih =>
    obtain ⟨hv, hin⟩ := forall_mem_cons.mp hin
    rw [map_cons, nodup_cons] at hids
    have hget : sDict[v.1]? = some sDict[v.1] := getElem?_eq_getElem hv
    obtain ⟨m, hm, hspec⟩ := ih hin hids.2 (update output sDict[v.1] (some v.2))
    refine ⟨m, by simpa [putAll, hget] using hm, fun name c => ?_⟩
    -- 後の posting は別の文書のものなので、`v` の値を上書きしない
    have hother : ∀ v' ∈ l, sDict[v'.1]? ≠ some sDict[v.1] := by
      intro v' hv' heq
      rw [← hget] at heq
      have := (getElem?_inj (hin v' hv') hnodup).mp heq
      exact hids.1 (this ▸ mem_map_of_mem hv')
    rw [hspec name c]
    by_cases hname : name = sDict[v.1]
    · subst hname
      simp only [update_self, some.injEq, exists_mem_cons_iff, hget, true_and,
        forall_mem_cons, ne_eq, not_true_eq_false, false_and, or_false]
      constructor
      · rintro (⟨v', hv', heq, -⟩ | ⟨-, hc⟩)
        · exact absurd heq (hother v' hv')
        · exact .inl hc
      · rintro (hc | ⟨v', hv', heq, -⟩)
        · exact .inr ⟨hother, hc⟩
        · exact absurd heq (hother v' hv')
    · simp only [update_of_ne hname, exists_mem_cons_iff, forall_mem_cons, hget,
        some.injEq, Ne.symm hname, false_and, false_or, ne_eq, not_false_eq_true, true_and]

/-! ## 文書から entry まで -/

def entriesOf (names : List Term) (doc : Doc) : List (Nat × TermIndexEntry) :=
  (doc.terms.filter fun p => 0 < p.2).map fun p =>
    (partOf p.1, ⟨p.1, names.idxOf doc.identifier, p.2⟩)

theorem addToIndexEntries_eq (docid : Nat) (terms : List (Term × Int))
    (h : ∀ p ∈ terms, StartsAlphanum p.1) :
    addToIndexEntries docid (terms.map fun p => (some p.1, p.2)) =
      some ((terms.filter fun p => 0 < p.2).map fun p => (partOf p.1, ⟨p.1, docid, p.2⟩)) := by
  induction terms with
  | nil => rfl
  | cons p terms ih =>
    obtain ⟨hp, hterms⟩ := forall_mem_cons.mp h
    rw [map_cons, addToIndexEntries, ih hterms]
    by_cases hpos : 0 < p.2
    · simp [hpos, getPartitionNumber_eq hp, partOf_lt hp]
    · simp [hpos]

theorem processTokenMap_dict (docid : Nat) (links : List (Option Term × Int)) (h : d.fld = .link) :
    ∃ xs, (processTokenMap true docid links d).2 =
      { d with sharedDict := internAll d.sharedDict xs } := by
  induction links generalizing d with
  | nil => exact ⟨[], rfl⟩
  | cons p links ih =>
    obtain ⟨key | key, value⟩ := p
    · exact ih h
    · obtain ⟨xs, hxs⟩ := ih (d := { d with sharedDict := intern d.sharedDict key }) h
      refine ⟨key :: xs, ?_⟩
      simp only [processTokenMap, if_true, sharedLookup_eq h]
      exact hxs

theorem tokenizeAndIndex_eq (docs : List Doc)
    (hstart : ∀ doc ∈ docs, ∀ p ∈ doc.terms, StartsAlphanum p.1) (h : d.fld = .link) :
    ∃ xs, (∀ doc ∈ docs, doc.identifier ∈ internAll d.sharedDict xs) ∧
      tokenizeAndIndex d docs = some ({ d with sharedDict := internAll d.sharedDict xs },
        docs.flatMap (entriesOf (internAll d.sharedDict xs))) := by
  induction docs generalizing d with
  | nil => exact ⟨[], by simp, rfl⟩
  | cons doc docs ih =>
    obtain ⟨hdoc, hdocs⟩ := forall_mem_cons.mp hstart
    obtain ⟨ls, hls⟩ := processTokenMap_dict ((intern d.sharedDict doc.identifier).idxOf doc.identifier)
      doc.links (d := { d with sharedDict := intern d.sharedDict doc.identifier }) h
    obtain ⟨xs, hmem, hrest⟩ := ih hdocs (d := { d with
      sharedDict := internAll (intern d.sharedDict doc.identifier) ls }) h
    have hgrow : internAll d.sharedDict (doc.identifier :: (ls ++ xs)) =
        internAll (internAll (intern d.sharedDict doc.identifier) ls) xs := by
      rw [internAll_cons, internAll_append]
    have hself : doc.identifier ∈ intern d.sharedDict doc.identifier := mem_intern.mpr (.inr rfl)
    refine ⟨doc.identifier :: (ls ++ xs), ?_, ?_⟩
    · rw [hgrow]
      refine forall_mem_cons.mpr ⟨?_, hmem⟩
      simp [hself]
    · -- 後から伸びても、いま引いた番号は変わらない
      have hid : (internAll d.sharedDict (doc.identifier :: (ls ++ xs))).idxOf doc.identifier =
          (intern d.sharedDict doc.identifier).idxOf doc.identifier := by
        rw [internAll_cons, idxOf_internAll hself]
      rw [flatMap_cons, entriesOf, hid, hgrow]
      simp only [tokenizeAndIndex, sharedLookup_eq h, addToIndexEntries_eq _ _ hdoc, hls, hrest,
        bind_eq_bind, bind_some]

/-! ## 往復 -/

/-- 文書 `name` は語 `t` を `c` 回含む。 -/
def Contains (docs : List Doc) (t name : Term) (c : Int) : Prop :=
  ∃ doc ∈ docs, doc.identifier = name ∧ (t, c) ∈ doc.terms ∧ 0 < c

/-- 語と文書の組を、加えられる順に並べたもの。 -/
def addedPairs (docs : List Doc) : List (Term × Term) :=
  docs.flatMap fun doc => (doc.terms.filter fun p => 0 < p.2).map fun p => (p.1, doc.identifier)

section

variable {docs : List Doc} {names : List Term} {entries : List (Nat × TermIndexEntry)}

theorem mem_flatMap_entriesOf {p : Nat × TermIndexEntry} :
    p ∈ docs.flatMap (entriesOf names) ↔ ∃ doc ∈ docs, ∃ q ∈ doc.terms, 0 < q.2 ∧
      p = (partOf q.1, ⟨q.1, names.idxOf doc.identifier, q.2⟩) := by
  simp only [mem_flatMap, entriesOf, mem_map, mem_filter, decide_eq_true_eq,
    and_assoc, @eq_comm _ _ p]

theorem nodup_term_docId (honce : (addedPairs docs).Nodup)
    (hnames : ∀ doc ∈ docs, doc.identifier ∈ names)
    (hperm : entries.Perm (docs.flatMap (entriesOf names))) :
    (entries.map fun p => (p.2.term, p.2.docId)).Nodup := by
  have heq : (docs.flatMap (entriesOf names)).map (fun p => (p.2.term, p.2.docId)) =
      (addedPairs docs).map fun q => (q.1, names.idxOf q.2) := by
    simp only [addedPairs, map_flatMap, entriesOf, map_map, comp_def]
  rw [(hperm.map _).nodup_iff, heq]
  refine honce.map_on fun q hq q' _ hqq => ?_
  simp only [Prod.mk.injEq] at hqq
  have hin : q.2 ∈ names := by
    obtain ⟨doc, hdoc, hq⟩ := mem_flatMap.mp hq
    obtain ⟨_, _, rfl⟩ := mem_map.mp hq
    exact hnames doc hdoc
  exact Prod.ext hqq.1 ((idxOf_inj hin).mp hqq.2)

theorem mem_postingsOf_received (hperm : entries.Perm (docs.flatMap (entriesOf names)))
    {v : Nat × Int} :
    v ∈ postingsOf t (received entries (partOf t)) ↔
      ∃ doc ∈ docs, (t, v.2) ∈ doc.terms ∧ 0 < v.2 ∧ v.1 = names.idxOf doc.identifier := by
  simp only [postingsOf, received, mem_map, mem_filter, hperm.mem_iff,
    mem_flatMap_entriesOf, decide_eq_true_eq]
  constructor
  · rintro ⟨e, ⟨⟨p, ⟨⟨doc, hdoc, q, hq, hpos, rfl⟩, -⟩, rfl⟩, rfl⟩, rfl⟩
    exact ⟨doc, hdoc, hq, hpos, rfl⟩
  · rintro ⟨doc, hdoc, hq, hpos, hid⟩
    refine ⟨⟨t, names.idxOf doc.identifier, v.2⟩, ⟨⟨(partOf t, ⟨t, _, v.2⟩), ⟨⟨doc, hdoc, (t, v.2),
      hq, hpos, rfl⟩, rfl⟩, rfl⟩, rfl⟩, ?_⟩
    exact Prod.ext hid.symm rfl

theorem nodup_postingsOf_received (honce : (addedPairs docs).Nodup)
    (hnames : ∀ doc ∈ docs, doc.identifier ∈ names)
    (hperm : entries.Perm (docs.flatMap (entriesOf names))) (t : Term) :
    ((postingsOf t (received entries (partOf t))).map fun v => v.1).Nodup := by
  have hsub : (((received entries (partOf t)).filter fun e => e.term = t).map
      fun e => (e.term, e.docId)).Nodup := by
    refine (nodup_term_docId honce hnames hperm).sublist ?_
    refine (filter_sublist.map _).trans ?_
    rw [received, map_map]
    exact filter_sublist.map _
  have hconst : (((received entries (partOf t)).filter fun e => e.term = t).map
      fun e => (e.term, e.docId)) =
      ((postingsOf t (received entries (partOf t))).map fun v => v.1).map fun id => (t, id) := by
    simp only [postingsOf, map_map, comp_def]
    refine map_congr_left fun e he => ?_
    have hterm : e.term = t := by simpa using (mem_filter.mp he).2
    rw [hterm]
  rw [hconst] at hsub
  exact hsub.of_map _

theorem getPostings_spec (honce : (addedPairs docs).Nodup)
    (hnames : ∀ doc ∈ docs, doc.identifier ∈ names) (hnodup : names.Nodup)
    (hperm : entries.Perm (docs.flatMap (entriesOf names))) (ht : StartsAlphanum t)
    (hdisk : disk.index (partOf t) = some w) (hbuilt : Built (received entries (partOf t)) w)
    {r : IndexReader} (hfld : r.fld = .term) (hsDict : r.sDict = names) :
    ∃ m, r.getPostings disk t = some m ∧ ∀ name c, m name = some c ↔ Contains docs t name c := by
  have hread : r.getPostings disk t = r.lookupIn w.localDict.localDict w.index t := by
    simp only [getPostings, hfld, getPartitionNumber_eq ht, hdisk, hbuilt.termindex,
      bind_eq_bind, bind_some]
  have hcontains (name : Term) (c : Int) : Contains docs t name c ↔
      ∃ v ∈ postingsOf t (received entries (partOf t)), names[v.1]? = some name ∧ v.2 = c := by
    constructor
    · rintro ⟨doc, hdoc, rfl, hc, hpos⟩
      exact ⟨(names.idxOf doc.identifier, c),
        (mem_postingsOf_received hperm).mpr ⟨doc, hdoc, hc, hpos, rfl⟩,
        getElem?_idxOf (hnames doc hdoc), rfl⟩
    · rintro ⟨v, hv, hname, rfl⟩
      obtain ⟨doc, hdoc, hc, hpos, hid⟩ := (mem_postingsOf_received hperm).mp hv
      rw [hid, getElem?_idxOf (hnames doc hdoc), some.injEq] at hname
      exact ⟨doc, hdoc, hname, hc, hpos⟩
  rw [hread, lookupIn, hsDict]
  by_cases hin : t ∈ w.localDict.localDict
  · have hmem : t ∈ (received entries (partOf t)).map fun e => e.term := by
      rw [hbuilt.dict, mem_internAll] at hin
      exact hin.resolve_left (by simp)
    obtain ⟨m, hm, hspec⟩ := putAll_spec hnodup (postingsOf t (received entries (partOf t)))
      (fun v hv => by
        obtain ⟨doc, hdoc, -, -, hid⟩ := (mem_postingsOf_received hperm).mp hv
        rw [hid]
        exact idxOf_lt_length_of_mem (hnames doc hdoc))
      (nodup_postingsOf_received honce hnames hperm t) fun _ => none
    refine ⟨m, ?_, fun name c => ?_⟩
    · rw [if_pos (contains_iff_mem.mpr hin), hbuilt.postings t hmem]
      exact hm
    · rw [hspec name c, hcontains]
      simp
  · refine ⟨fun _ => none, if_neg fun hc => hin (contains_iff_mem.mp hc), fun name c => ?_⟩
    rw [hcontains]
    have hnil : postingsOf t (received entries (partOf t)) = [] := by
      refine postingsOf_eq_nil fun hmem => hin ?_
      rw [hbuilt.dict, mem_internAll]
      exact .inr hmem
    simp [hnil]

theorem received_ne_nil_iff {part : Nat} :
    received entries part ≠ [] ↔ ∃ p ∈ entries, p.1 = part := by
  simp [received, filter_eq_nil_iff]

end

/--
**索引を書いて読み戻すと、語を含む文書と回数の `Map` になる。ただし 15 個の partition のすべてに entry が来て
いなければならない。**
-/
theorem getPostings_iff (docs : List Doc)
    (hstart : ∀ doc ∈ docs, ∀ p ∈ doc.terms, StartsAlphanum p.1)
    (honce : (addedPairs docs).Nodup) :
    ∃ docDict entries, tokenizeAndIndex (Dictionary.new .link) docs = some (docDict, entries) ∧
      ∀ order, order.Perm entries → ∀ t, StartsAlphanum t →
        (∃ p ∈ order, some p.1 = getPartitionNumber t) →
        ((∃ m, indexAndRead docDict order t = some m ∧
            ∀ name c, m name = some c ↔ Contains docs t name c) ↔
          ∀ part < numPartitions, ∃ p ∈ order, p.1 = part) := by
  obtain ⟨xs, hnames, htok⟩ := tokenizeAndIndex_eq docs hstart (d := Dictionary.new .link) rfl
  refine ⟨_, _, htok, ?_⟩
  intro order hperm t ht hpart
  rw [getPartitionNumber_eq ht] at hpart
  simp only [some.injEq] at hpart
  have hfrom (p : Nat × TermIndexEntry) (hp : p ∈ order) :
      (p.2.term ≠ [] ∧ partOf p.2.term = p.1) ∧ p.1 < numPartitions := by
    obtain ⟨doc, hdoc, q, hq, -, rfl⟩ := mem_flatMap_entriesOf.mp (hperm.mem_iff.mp hp)
    have hq := hstart doc hdoc q hq
    refine ⟨⟨?_, rfl⟩, partOf_lt hq⟩
    rintro hnil
    simp only at hnil
    rw [hnil] at hq
    exact hq
  obtain ⟨disk, hwrite, hshared, hindex⟩ := writePartitions_spec (fun p hp => (hfrom p hp).1)
    (fun p hp => (hfrom p hp).2)
    { Dictionary.new .link with sharedDict := internAll (Dictionary.new .link).sharedDict xs }
  have hbuilt (part : Nat) (hlt : part < numPartitions) (hne : received order part ≠ []) :
      ∃ w, disk.index part = some w ∧ Built (received order part) w := by
    obtain ⟨w, hw, hb⟩ := built_buildWriter (received order part) fun e he => by
      obtain ⟨p, hp, rfl⟩ := mem_map.mp he
      exact (hfrom p (mem_filter.mp hp).1).1.1
    exact ⟨w, by rw [hindex part hlt, if_neg hne, hw], hb⟩
  rw [indexAndRead, hwrite, bind_eq_bind, bind_some]
  cases hr : new disk .term with
  | none =>
    obtain ⟨part, hlt, hnone⟩ := (new_term_eq_none_iff hshared).mp hr
    refine ⟨fun ⟨m, hm, _⟩ => absurd hm (by simp), fun hall => ?_⟩
    obtain ⟨w, hw, -⟩ := hbuilt part hlt (received_ne_nil_iff.mpr (hall part hlt))
    rw [hw] at hnone
    cases hnone
  | some r =>
    obtain ⟨hfld, hsDict⟩ := new_term_eq_some hshared hr
    have hne := received_ne_nil_iff.mpr (hpart.imp fun p hp => ⟨hp.1, hp.2⟩)
    obtain ⟨w, hw, hb⟩ := hbuilt (partOf t) (partOf_lt ht) hne
    refine ⟨fun _ part hlt => ?_, fun _ => ?_⟩
    · -- `IndexReader` が作れたので、どの file も書かれている
      by_contra hno
      have hnil : received order part = [] := by
        by_contra hne'
        exact hno (received_ne_nil_iff.mp hne')
      have hnone := (new_term_eq_none_iff hshared).mpr ⟨part, hlt, by rw [hindex part hlt, if_pos hnil]⟩
      rw [hr] at hnone
      cases hnone
    · exact getPostings_spec honce hnames (nodup_internAll nodup_nil xs) hperm ht hw hb hfld hsDict

/-- どの partition にも語を一つ入れる二つの文書。 -/
def fullCorpus : List Doc :=
  [⟨['D'], "acmpstbdefghklq".toList.map (fun c => ([c], 2)), [(some ['E'], 1)]⟩,
   ⟨['E'], [(['a'], 5), (['b'], 0)], []⟩]

/-- 二つの文書がある語 `a` の posting を引く。 -/
theorem getPostings_iff_full :
    ∃ docDict entries m, tokenizeAndIndex (Dictionary.new .link) fullCorpus = some (docDict, entries) ∧
      indexAndRead docDict entries ['a'] = some m ∧ m ['D'] = some 2 ∧ m ['E'] = some 5 := by
  obtain ⟨docDict, entries, htok, h⟩ := getPostings_iff fullCorpus (by decide) (by decide)
  have hparts : ∀ part < numPartitions, ∃ p ∈ entries, p.1 = part := by
    have hall : ∀ q, tokenizeAndIndex (Dictionary.new .link) fullCorpus = some q →
        ∀ part < numPartitions, ∃ p ∈ q.2, p.1 = part := by
      decide
    exact hall _ htok
  have h0 := hparts (partOf ['a']) (by decide)
  obtain ⟨m, hm, hspec⟩ := (h entries (List.Perm.refl _) ['a'] (by decide)
    (h0.imp fun p hp => ⟨hp.1, congrArg some hp.2⟩)).mpr hparts
  refine ⟨docDict, entries, m, htok, hm, (hspec _ _).mpr ?_, (hspec _ _).mpr ?_⟩
  · exact ⟨⟨['D'], _, _⟩, mem_cons_self, rfl, by decide, by decide⟩
  · exact ⟨⟨['E'], _, _⟩, mem_cons_of_mem _ mem_cons_self, rfl, by decide, by decide⟩

/-- 語 `a` だけの文書では、その語を引こうとしても `IndexReader` が作れない。 -/
theorem getPostings_single_term :
    ∃ docDict entries,
      tokenizeAndIndex (Dictionary.new .link) [⟨['D'], [(['a'], 1)], []⟩] = some (docDict, entries) ∧
      (∃ p ∈ entries, some p.1 = getPartitionNumber ['a']) ∧
      indexAndRead docDict entries ['a'] = none := by
  refine ⟨⟨.link, [['D']], []⟩, [(0, ⟨['a'], 0, 1⟩)], by decide, by decide, ?_⟩
  exact Option.isNone_iff_eq_none.mp (by decide)

end WikiIndexer
