import Mathlib.Algebra.Order.Ring.Int
import MsProjects.Infra.Arrival
import MsProjects.GroupMessenger.Order

/-!
# 受け手の間で表が一致する条件
-/

namespace GroupMessenger

open Infra List Function

variable {r : Receiver} {m : Msg} {msgs : List Msg}

/-! ## 比較と挿入 -/

theorem compare_neg_iff {t t' : Int} : compare t t' < 0 ↔ t < t' := by
  unfold compare compareTo
  split_ifs <;> omega

theorem compare_pos_iff {t t' : Int} : 0 < compare t t' ↔ t' ≤ t := by
  unfold compare compareTo
  split_ifs <;> omega

theorem TreeMap.entries_insert {β : Type*} (k : Int) (v : β) {t : TreeMap Int β}
    (h : InOrder Prod.fst t.entries) :
    (t.insert compare k v).entries = insertAfter Prod.fst (k, v) t.entries := by
  induction t with
  | nil => rfl
  | node l k' v' r ihl ihr =>
    obtain ⟨hl, hr, hlr⟩ := pairwise_append.mp h
    obtain ⟨hk', hr⟩ := pairwise_cons.mp hr
    rw [TreeMap.insert, TreeMap.entries]
    rcases lt_or_ge k k' with hlt | hge
    · -- 左へ下りる。節とその右はすべて `k` より大きい
      rw [if_pos (compare_neg_iff.mpr hlt), TreeMap.entries, ihl hl, insertAfter_append_of_lt]
      rintro y hy
      rcases mem_cons.mp hy with rfl | hy
      · exact hlt
      · exact Int.lt_of_lt_of_le hlt (hk' y hy)
    · -- 右へ下りる。左とその節はすべて `k` 以下である
      have hnlt : ¬ compare k k' < 0 := fun hneg => by
        have := compare_neg_iff.mp hneg
        omega
      rw [if_neg hnlt, if_pos (compare_pos_iff.mpr hge), TreeMap.entries, ihr hr]
      have hsplit : l.entries ++ (k', v') :: r.entries =
          (l.entries ++ [(k', v')]) ++ r.entries := by simp
      rw [hsplit, insertAfter_append_of_le, append_assoc, singleton_append]
      intro y hy
      rcases mem_append.mp hy with hy | hy
      · exact Int.le_trans (hlr y hy _ mem_cons_self) hge
      · rw [mem_singleton.mp hy]
        exact hge

/-! ## 表の書き直し -/

theorem insertAll_apply (vals : List (List Char)) (k : Nat) (table : Nat → Option (List Char))
    (j : Nat) :
    insertAll k vals table j =
      if k ≤ j ∧ j < k + vals.length then vals[j - k]? else table j := by
  induction vals generalizing k table with
  | nil =>
    have hnone : ¬ (k ≤ j ∧ j < k + 0) := by omega
    rw [insertAll, length_nil, if_neg hnone]
  | cons val vals ih =>
    rw [insertAll, ih, update_apply, length_cons]
    by_cases hjk : j = k
    · subst hjk
      rw [if_neg (by omega), if_pos rfl, if_pos (by omega), Nat.sub_self, getElem?_cons_zero]
    · by_cases hin : k + 1 ≤ j ∧ j < k + 1 + vals.length
      · have hin' : k ≤ j ∧ j < k + (vals.length + 1) := by omega
        rw [if_pos hin, if_pos hin', show j - k = (j - (k + 1)) + 1 by omega, getElem?_cons_succ]
      · have hin' : ¬ (k ≤ j ∧ j < k + (vals.length + 1)) := by omega
        rw [if_neg hin, if_neg hin', if_neg hjk]

theorem insertAll_eq {vals : List (List Char)} {table : Nat → Option (List Char)}
    (h : ∀ j, vals.length ≤ j → table j = none) : insertAll 0 vals table = fun j => vals[j]? := by
  funext j
  rw [insertAll_apply]
  by_cases hj : j < vals.length
  · simp [hj]
  · rw [if_neg (by omega), h j (by omega), getElem?_eq_none (by omega)]

/-! ## 届いた順と表 -/

section

variable {rebalance : TreeMap Int (List Char) → TreeMap Int (List Char)} {epoch : LocalTime → Int}

def Msg.received (epoch : LocalTime → Int) (m : Msg) : Int := epoch (parse m.time)

def Msg.value (m : Msg) : List Char := (wireValue m.text).getD []

/-- message `arrived` が届いた受け手。 -/
structure Holds (epoch : LocalTime → Int) (r : Receiver) (arrived : List Msg) : Prop where
  running : r.running = true
  entries : r.orderedMsgs.entries =
    (arrange (Msg.received epoch) arrived).map fun m => (m.received epoch, m.value)
  table : r.table = fun j => ((arrange (Msg.received epoch) arrived).map Msg.value)[j]?

theorem Holds.initial : Holds epoch Receiver.initial [] where
  running := rfl
  entries := rfl
  table := rfl

theorem Holds.onProgressUpdate {arrived : List Msg} (h : Holds epoch r arrived)
    (hfix : ∀ t, (rebalance t).entries = t.entries) (hm : (wireValue m.text).isSome) :
    Holds epoch (onProgressUpdate rebalance epoch r m) (arrived ++ [m]) := by
  obtain ⟨v, hv⟩ := Option.isSome_iff_exists.mp hm
  have hvalue : m.value = v := by simp [Msg.value, hv]
  have hsorted : InOrder Prod.fst r.orderedMsgs.entries := by
    rw [h.entries]
    exact pairwise_map.mpr (inOrder_arrange arrived)
  have hentries : (rebalance (r.orderedMsgs.insert compare (epoch (parse m.time)) v)).entries =
      (arrange (Msg.received epoch) (arrived ++ [m])).map fun m => (m.received epoch, m.value) := by
    rw [hfix, TreeMap.entries_insert _ _ hsorted, h.entries, ← hvalue, arrange_concat]
    exact insertAfter_map (fun m : Msg => (m.received epoch, m.value)) m _
  have hstep : GroupMessenger.onProgressUpdate rebalance epoch r m =
      { running := true
        orderedMsgs := rebalance (r.orderedMsgs.insert compare (epoch (parse m.time)) v)
        table := insertAll 0 ((arrange (Msg.received epoch) (arrived ++ [m])).map Msg.value)
          r.table } := by
    simp [GroupMessenger.onProgressUpdate, order, h.running, hv, hentries, map_map, comp_def]
  rw [hstep]
  refine { running := rfl, entries := hentries, table := insertAll_eq fun j hj => ?_ }
  -- 表の前の中身は一つ短い列なので、書き直しに覆われる
  rw [h.table]
  refine getElem?_eq_none ?_
  simp only [length_map, (perm_arrange _).length_eq, length_append] at hj ⊢
  omega

variable (epoch) in
/-- **届いた message を時刻と届いた順に並べた値が、そのまま表になる。** -/
theorem receive_of_hasValue (hfix : ∀ t, (rebalance t).entries = t.entries) (msgs : List Msg)
    (hall : ∀ m ∈ msgs, (wireValue m.text).isSome) :
    Holds epoch (receive rebalance epoch msgs) msgs := by
  induction msgs using reverseRecOn with
  | nil => exact Holds.initial
  | append_singleton msgs m ih =>
    have hmsgs := ih fun m' hm' => hall m' (mem_append_left _ hm')
    have hlast := hmsgs.onProgressUpdate hfix (hall m (by simp))
    simpa [receive, foldl_append] using hlast

/-! ## 値を取り出せない message -/

theorem onProgressUpdate_of_isNone (hm : wireValue m.text = none) :
    onProgressUpdate rebalance epoch r m = { r with running := false } := by
  cases hr : r.running <;> simp [onProgressUpdate, order, hm, hr]
  cases r
  simp_all

theorem foldl_of_not_running (h : r.running = false) (msgs : List Msg) :
    msgs.foldl (onProgressUpdate rebalance epoch) r = r := by
  induction msgs with
  | nil => rfl
  | cons m msgs ih =>
    rw [foldl_cons, show onProgressUpdate rebalance epoch r m = r by simp [onProgressUpdate, h], ih]

theorem table_receive_of_isNone (before : List Msg) (rest : List Msg) (hm : wireValue m.text = none) :
    (receive rebalance epoch (before ++ m :: rest)).table =
      (receive rebalance epoch before).table := by
  rw [receive, foldl_append, foldl_cons, onProgressUpdate_of_isNone hm,
    foldl_of_not_running rfl, receive]

theorem table_receive_of_forall_isNone (h : ∀ m ∈ msgs, wireValue m.text = none) :
    (receive rebalance epoch msgs).table = fun _ => none := by
  cases msgs with
  | nil => rfl
  | cons m msgs => exact table_receive_of_isNone [] msgs (h m mem_cons_self)

/-! ## 受け手の間の一致 -/

/-- 届く順によらず同じ表になる。 -/
def TotalOrder (rebalance : TreeMap Int (List Char) → TreeMap Int (List Char))
    (epoch : LocalTime → Int) (msgs : List Msg) : Prop :=
  ∀ a b : List Msg, a.Perm msgs → b.Perm msgs →
    (receive rebalance epoch a).table = (receive rebalance epoch b).table

theorem totalOrder_iff_of_hasValue (hfix : ∀ t, (rebalance t).entries = t.entries)
    (hall : ∀ m ∈ msgs, (wireValue m.text).isSome) :
    TotalOrder rebalance epoch msgs ↔
      ∀ m ∈ msgs, ∀ m' ∈ msgs, m.received epoch = m'.received epoch → m.value = m'.value := by
  rw [← map_arrange_iff]
  refine forall₄_congr fun a b ha hb => ?_
  have hta := receive_of_hasValue epoch hfix a fun m hm => hall m (ha.mem_iff.mp hm)
  have htb := receive_of_hasValue epoch hfix b fun m hm => hall m (hb.mem_iff.mp hm)
  rw [hta.table, htb.table]
  constructor
  · intro heq
    exact ext_getElem? fun j => congrFun heq j
  · intro heq
    rw [heq]

theorem not_totalOrder_of_mixed (hfix : ∀ t, (rebalance t).entries = t.entries) {good bad : Msg}
    (hgood : good ∈ msgs) (hbad : bad ∈ msgs) (hv : (wireValue good.text).isSome)
    (hn : wireValue bad.text = none) : ¬ TotalOrder rebalance epoch msgs := by
  intro htotal
  have hne : good ≠ bad := by
    rintro rfl
    simp [hn] at hv
  have hbad' : bad ∈ msgs.erase good := (mem_erase_of_ne hne.symm).mpr hbad
  have hperm : (good :: bad :: (msgs.erase good).erase bad).Perm msgs :=
    ((perm_cons_erase hbad').symm.cons good).trans (perm_cons_erase hgood).symm
  have heq := htotal _ _ hperm ((Perm.swap good bad _).trans hperm)
  have hone := receive_of_hasValue epoch hfix [good] (by simpa using hv)
  rw [← singleton_append, table_receive_of_isNone [good] _ hn, hone.table,
    ← nil_append (bad :: _), table_receive_of_isNone [] _ hn] at heq
  have hzero := congrFun heq 0
  simp [arrange, insertAfter, receive, Receiver.initial] at hzero

/-- **表が届く順によらないのは、時刻の等しい message の値が等しいとき、かつそのときに限る。** -/
theorem table_eq_iff (hfix : ∀ t, (rebalance t).entries = t.entries) (msgs : List Msg) :
    TotalOrder rebalance epoch msgs ↔
      (∀ m ∈ msgs, wireValue m.text = none) ∨
        (∀ m ∈ msgs, (wireValue m.text).isSome) ∧
          ∀ m ∈ msgs, ∀ m' ∈ msgs, epoch (parse m.time) = epoch (parse m'.time) →
            wireValue m.text = wireValue m'.text := by
  by_cases hall : ∀ m ∈ msgs, (wireValue m.text).isSome
  · have hvalue {m m' : Msg} (hm : m ∈ msgs) (hm' : m' ∈ msgs) :
        m.value = m'.value ↔ wireValue m.text = wireValue m'.text := by
      obtain ⟨v, hv⟩ := Option.isSome_iff_exists.mp (hall m hm)
      obtain ⟨v', hv'⟩ := Option.isSome_iff_exists.mp (hall m' hm')
      simp [Msg.value, hv, hv']
    rw [totalOrder_iff_of_hasValue hfix hall]
    constructor
    · intro h
      exact .inr ⟨hall, fun m hm m' hm' ht => (hvalue hm hm').mp (h m hm m' hm' ht)⟩
    · rintro (hnone | ⟨-, h⟩) m hm m' hm' ht
      · exact absurd (hall m hm) (by simp [hnone m hm])
      · exact (hvalue hm hm').mpr (h m hm m' hm' ht)
  · obtain ⟨bad, hbad, hn⟩ : ∃ m ∈ msgs, wireValue m.text = none := by simpa using hall
    constructor
    · intro htotal
      refine .inl fun good hgood => ?_
      by_contra hv
      exact not_totalOrder_of_mixed hfix hgood hbad (Option.isSome_iff_ne_none.mpr hv) hn htotal
    · rintro (hnone | ⟨hsome, -⟩) a b ha hb
      · rw [table_receive_of_forall_isNone fun m hm => hnone m (ha.mem_iff.mp hm),
          table_receive_of_forall_isNone fun m hm => hnone m (hb.mem_iff.mp hm)]
      · exact absurd (hsome bad hbad) (by simp [hn])

end

/-! ## 実際の時刻での例 -/

def clock (hour minute second millis : Nat)
    (h : hour < 24 ∧ minute < 60 ∧ second < 60 ∧ millis < 1000) : Timestamp :=
  { year := 2014, month := 2, day := 14, hour := hour, minute := minute, second := second,
    millis := millis, hour_lt := h.1, minute_lt := h.2.1, second_lt := h.2.2.1,
    millis_lt := h.2.2.2 }

/-- その日の 0 時からの millisecond。 -/
def millisOfDay (t : LocalTime) : Int :=
  (((t.hour * 60 + t.minute) * 60 + t.second) * 1000 + t.millis : Nat)

/-- 時刻の異なる二つの message なら、どの順に届いても表は同じである。 -/
theorem table_eq_iff_distinct : TotalOrder id millisOfDay
    [⟨clock 10 0 0 250 (by decide), "a\n".toList⟩, ⟨clock 10 0 1 250 (by decide), "b\n".toList⟩] :=
  (table_eq_iff (fun _ => rfl) _).mpr (.inr (by decide))

/-- 同じ millisecond に送られた二つの message は、受け手によって逆の順に番号が付く。 -/
theorem same_timestamp_reordered : ¬ TotalOrder id millisOfDay
    [⟨clock 10 0 0 250 (by decide), "a\n".toList⟩, ⟨clock 10 0 0 250 (by decide), "b\n".toList⟩] := by
  intro h
  have hzero := congrFun (h _ _ (.refl _) (.swap _ _ _)) 0
  exact absurd hzero (by decide)

/-- 時刻が違っても、読み取りで同じになれば順は決まらない。 -/
example : parse (clock 10 0 0 12 (by decide)) = parse (clock 10 0 0 120 (by decide)) := by decide

end GroupMessenger
