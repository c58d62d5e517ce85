import Mathlib.Order.Preorder.Finite

/-!
# 値の付いた点の輪

線形順序の値を持つ有限個の点を、値の順に輪に並べたもの。
-/

namespace Infra

open List Function

variable {ι H : Type*} [LinearOrder H]

/-- 値が最小の点。 -/
def IsLowest (hash : ι → H) (i : ι) : Prop := ∀ j, hash i ≤ hash j

/-- `h` 以上で最初の点。 -/
def Owns (hash : ι → H) (i : ι) (h : H) : Prop :=
  h ≤ hash i ∧ (∀ j, h ≤ hash j → hash i ≤ hash j) ∨ IsLowest hash i ∧ ∀ j, hash j < h

/-- `pred` は値の順で一つ手前の点である。 -/
structure Cyclic (hash : ι → H) (pred : ι → ι) : Prop where
  injective : Injective hash
  adjacent : ∀ i, hash (pred i) < hash i ∧ (∀ j, hash j < hash i → hash j ≤ hash (pred i)) ∨
    IsLowest hash i ∧ ∀ j, hash j ≤ hash (pred i)

variable {hash : ι → H} {pred : ι → ι} {i j : ι} {h : H}

theorem exists_isLowest [Finite ι] [Nonempty ι] (hash : ι → H) : ∃ i, IsLowest hash i := by
  obtain ⟨i, -, hi⟩ := (Set.toFinite (Set.univ : Set ι)).exists_minimalFor hash _ Set.univ_nonempty
  refine ⟨i, fun j => ?_⟩
  rcases le_total (hash i) (hash j) with hij | hji
  · exact hij
  · exact hi (Set.mem_univ j) hji

theorem exists_owns [Finite ι] [Nonempty ι] (hash : ι → H) (h : H) : ∃ i, Owns hash i h := by
  by_cases hup : ∃ j, h ≤ hash j
  · obtain ⟨i, hi, hmin⟩ := (Set.toFinite {j | h ≤ hash j}).exists_minimalFor hash _ hup
    refine ⟨i, .inl ⟨hi, fun j hj => ?_⟩⟩
    rcases le_total (hash i) (hash j) with hij | hji
    · exact hij
    · exact hmin hj hji
  · obtain ⟨i, hi⟩ := exists_isLowest hash
    exact ⟨i, .inr ⟨hi, fun j => lt_of_not_ge fun hj => hup ⟨j, hj⟩⟩⟩

theorem Owns.unique (hinj : Injective hash) (hi : Owns hash i h) (hj : Owns hash j h) : i = j := by
  rcases hi with ⟨hi, hfirst⟩ | ⟨hi, hall⟩ <;> rcases hj with ⟨hj, hfirst'⟩ | ⟨hj, hall'⟩
  · exact hinj (le_antisymm (hfirst j hj) (hfirst' i hi))
  · exact absurd (hall' i) (not_lt.mpr hi)
  · exact absurd (hall j) (not_lt.mpr hj)
  · exact hinj (le_antisymm (hi j) (hj i))

/-- **どの値にも持ち主がちょうど一つある。** -/
theorem existsUnique_owns [Finite ι] [Nonempty ι] (hinj : Injective hash) (h : H) :
    ∃! i, Owns hash i h := by
  obtain ⟨i, hi⟩ := exists_owns hash h
  exact ⟨i, hi, fun j hj => hj.unique hinj hi⟩

namespace Cyclic

theorem owns_iff (hc : Cyclic hash pred) :
    Owns hash i h ↔ hash (pred i) < h ∧ h ≤ hash i ∨
      IsLowest hash i ∧ (hash (pred i) < h ∨ h ≤ hash i) := by
  rcases hc.adjacent i with ⟨hlt, hbelow⟩ | ⟨hleast, hmax⟩
  · have hnot : ¬ IsLowest hash i := fun hl => absurd (hl (pred i)) (not_le.mpr hlt)
    simp only [Owns, hnot, false_and, or_false]
    refine ⟨fun ⟨hi, hfirst⟩ => ⟨?_, hi⟩, fun ⟨hp, hi⟩ => ⟨hi, fun j hj => ?_⟩⟩
    · exact lt_of_not_ge fun hle => absurd (hfirst _ hle) (not_le.mpr hlt)
    · exact le_of_not_gt fun hji => absurd (hp.trans_le hj) (not_lt.mpr (hbelow j hji))
  · simp only [Owns, hleast, true_and]
    constructor
    · rintro (⟨hi, -⟩ | hall)
      · exact .inr (.inr hi)
      · exact .inr (.inl (hall _))
    · rintro (⟨-, hi⟩ | hp | hi)
      · exact .inl ⟨hi, fun j _ => hleast j⟩
      · exact .inr fun j => (hmax j).trans_lt hp
      · exact .inl ⟨hi, fun j _ => hleast j⟩

theorem isLowest_iff (hc : Cyclic hash pred) : IsLowest hash i ↔ hash i ≤ hash (pred i) := by
  refine ⟨fun hl => hl _, fun hle => ?_⟩
  rcases hc.adjacent i with ⟨hlt, -⟩ | ⟨hleast, -⟩
  · exact absurd hle (not_le.mpr hlt)
  · exact hleast

theorem pred_ne [Nontrivial ι] (hc : Cyclic hash pred) (i : ι) : pred i ≠ i := by
  intro heq
  have hadj := hc.adjacent i
  rw [heq] at hadj
  rcases hadj with ⟨hlt, -⟩ | ⟨hleast, hmax⟩
  · exact lt_irrefl _ hlt
  · obtain ⟨j, hj⟩ := exists_ne i
    exact hj (hc.injective (le_antisymm (hmax j) (hleast j)))

theorem eq_or_eq_of_pred_pred (hc : Cyclic hash pred) (heq : pred (pred i) = i) (j : ι) :
    j = i ∨ j = pred i := by
  have hpred := hc.adjacent (pred i)
  rw [heq] at hpred
  rcases hc.adjacent i with ⟨hlt, hbelow⟩ | ⟨hleast, hmax⟩ <;>
    rcases hpred with ⟨hlt', hbelow'⟩ | ⟨hleast', hmax'⟩
  · exact absurd hlt (not_lt.mpr hlt'.le)
  · -- 手前が最小で、自分が最大である
    rcases lt_or_ge (hash j) (hash i) with hji | hij
    · exact .inr (hc.injective (le_antisymm (hbelow j hji) (hleast' j)))
    · exact .inl (hc.injective (le_antisymm (hmax' j) hij))
  · -- 自分が最小で、手前が最大である
    rcases lt_or_ge (hash j) (hash (pred i)) with hjp | hpj
    · exact .inl (hc.injective (le_antisymm (hbelow' j hjp) (hleast j)))
    · exact .inr (hc.injective (le_antisymm (hmax j) hpj))
  · exact .inl (hc.injective (le_antisymm (hmax' j) (hleast j)))

theorem pred_pred_ne [Fintype ι] (hc : Cyclic hash pred) (hcard : 2 < Fintype.card ι) (i : ι) :
    pred (pred i) ≠ i := by
  intro heq
  obtain ⟨a, b, c, hab, hac, hbc⟩ := Fintype.two_lt_card_iff.mp hcard
  have ha := hc.eq_or_eq_of_pred_pred heq a
  have hb := hc.eq_or_eq_of_pred_pred heq b
  have hc := hc.eq_or_eq_of_pred_pred heq c
  grind

end Cyclic

/-! ## 輪を一周する -/

/-- `x` から次の点へ進み、`l` の点を順に通って `q` に着く。 -/
def Walk (succ : ι → ι) (q : ι) : List ι → ι → Prop
  | [], x => x = q
  | y :: l, x => x = y ∧ x ≠ q ∧ Walk succ q l (succ x)

namespace Cyclic

variable {succ : ι → ι} [Finite ι] (hc : Cyclic hash pred) (hps : ∀ i, pred (succ i) = i)
  (hsp : ∀ i, succ (pred i) = i)

include hc hps hsp

/-- 次の点について閉じた集合は、空でなければすべての点を含む。 -/
theorem mem_of_closed {S : Set ι} (hS : ∀ i ∈ S, succ i ∈ S) (hi : i ∈ S) (j : ι) : j ∈ S := by
  obtain ⟨m, hm, hmax⟩ := (Set.toFinite S).exists_maximalFor hash _ ⟨i, hi⟩
  have hadj := hc.adjacent (succ m)
  rw [hps] at hadj
  rcases hadj with ⟨hlt, -⟩ | ⟨hlow, -⟩
  · exact absurd (hmax (hS m hm) hlt.le) (not_le.mpr hlt)
  · -- 最小の点が入っているので、入っていない最小の点には手前がある
    by_contra hj
    obtain ⟨k, hk, hmin⟩ := (Set.toFinite Sᶜ).exists_minimalFor hash _ ⟨j, hj⟩
    rcases hc.adjacent k with ⟨hlt, -⟩ | ⟨hleast, -⟩
    · have hpred : pred k ∈ S := by_contra fun h => absurd (hmin h hlt.le) (not_le.mpr hlt)
      exact hk (hsp k ▸ hS _ hpred)
    · exact hk (hc.injective (le_antisymm (hleast _) (hlow _)) ▸ hS m hm)

/-- **次の点をたどると、ほかのすべての点を通って元の点に戻る。** -/
theorem exists_walk (q : ι) : ∃ l, Walk succ q l (succ q) ∧ ∀ n, n ∈ l ↔ n ≠ q := by
  obtain ⟨d, hd⟩ : q ∈ {n | ∃ d, succ^[d] (succ q) = n} := by
    refine hc.mem_of_closed hps hsp (i := succ q) ?_ ?_ q
    · rintro n ⟨d, rfl⟩
      exact ⟨d + 1, iterate_succ_apply' succ d _⟩
    · exact ⟨0, rfl⟩
  have hwalk : ∀ d x, succ^[d] x = q →
      ∃ l, Walk succ q l x ∧ q ∉ l ∧ (x ∈ l ∨ x = q) ∧ ∀ n ∈ l, succ n ∈ l ∨ succ n = q := by
    intro d
    induction d with
    | zero => exact fun x hx => ⟨[], hx, by simp, .inr hx, by simp⟩
    | succ d ih =>
      intro x hx
      by_cases hxq : x = q
      · exact ⟨[], hxq, by simp, .inr hxq, by simp⟩
      · obtain ⟨l, hl, hq, hstart, hnext⟩ := ih (succ x) hx
        refine ⟨x :: l, ⟨rfl, hxq, hl⟩, by simp [Ne.symm hxq, hq], .inl mem_cons_self, ?_⟩
        intro n hn
        rcases mem_cons.mp hn with rfl | hn
        · exact hstart.imp_left (mem_cons_of_mem _)
        · exact (hnext n hn).imp_left (mem_cons_of_mem _)
  obtain ⟨l, hl, hq, hstart, hnext⟩ := hwalk d _ hd
  refine ⟨l, hl, fun n => ⟨fun hn => ne_of_mem_of_not_mem hn hq, fun hn => ?_⟩⟩
  have hall : n ∈ {n | n ∈ l ∨ n = q} := by
    refine hc.mem_of_closed hps hsp (i := q) ?_ (.inr rfl) n
    rintro k (hk | rfl)
    · exact hnext k hk
    · exact hstart
  exact hall.resolve_right hn

end Cyclic

/-! ## 点の増える輪 -/

/-- 点の集合 `A` の輪で、`x` の次の点が `y` である。 -/
def Next (hash : ι → H) (A : Set ι) (x y : ι) : Prop :=
  y ∈ A ∧ (hash x < hash y ∧ (∀ z ∈ A, hash x < hash z → hash y ≤ hash z) ∨
    (∀ z ∈ A, hash z ≤ hash x) ∧ ∀ z ∈ A, hash y ≤ hash z)

/-- `x` から `y` へ輪を進む途中に `j` がある。 -/
def Between (hash : ι → H) (x j y : ι) : Prop :=
  hash x < hash j ∧ hash j < hash y ∨ hash y ≤ hash x ∧ (hash x < hash j ∨ hash j < hash y)

namespace Next

variable {A : Set ι} {x y m s : ι}

theorem right_unique (hinj : Injective hash) {y' : ι} (hy : Next hash A x y)
    (hy' : Next hash A x y') : y = y' := by
  obtain ⟨hmem, ⟨hlt, hfirst⟩ | ⟨hmax, hmin⟩⟩ := hy <;>
    obtain ⟨hmem', ⟨hlt', hfirst'⟩ | ⟨hmax', hmin'⟩⟩ := hy'
  · exact hinj (le_antisymm (hfirst y' hmem' hlt') (hfirst' y hmem hlt))
  · exact absurd hlt (not_lt.mpr (hmax' y hmem))
  · exact absurd hlt' (not_lt.mpr (hmax y' hmem'))
  · exact hinj (le_antisymm (hmin y' hmem') (hmin' y hmem))

theorem left_unique (hinj : Injective hash) {x' : ι} (hx : x ∈ A) (hx' : x' ∈ A)
    (hy : Next hash A x y) (hy' : Next hash A x' y) : x = x' := by
  obtain ⟨hmem, ⟨hlt, hfirst⟩ | ⟨hmax, hmin⟩⟩ := hy <;>
    obtain ⟨-, ⟨hlt', hfirst'⟩ | ⟨hmax', hmin'⟩⟩ := hy'
  · refine hinj (le_antisymm (le_of_not_gt fun h => ?_) (le_of_not_gt fun h => ?_))
    · exact absurd hlt (not_lt.mpr (hfirst' x hx h))
    · exact absurd hlt' (not_lt.mpr (hfirst x' hx' h))
  · exact absurd hlt (not_lt.mpr (hmin' x hx))
  · exact absurd hlt' (not_lt.mpr (hmin x' hx'))
  · exact hinj (le_antisymm (hmax' x hx) (hmax x' hx'))

theorem eq_of_self (hinj : Injective hash) (h : Next hash A x x) {z : ι} (hz : z ∈ A) :
    z = x := by
  obtain ⟨-, ⟨hlt, -⟩ | ⟨hmax, hmin⟩⟩ := h
  · exact absurd hlt (lt_irrefl _)
  · exact hinj (le_antisymm (hmax z hz) (hmin z hz))

theorem between_cases (h : Next hash A m s) (hj : Between hash m j s) :
    (hash m < hash j ∧ hash j < hash s ∧ ∀ z ∈ A, hash m < hash z → hash s ≤ hash z) ∨
      (∀ z ∈ A, hash z ≤ hash m) ∧ (∀ z ∈ A, hash s ≤ hash z) ∧
        (hash m < hash j ∨ hash j < hash s) := by
  obtain ⟨hs, ⟨hlt, hfirst⟩ | ⟨hmax, hmin⟩⟩ := h
  · rcases hj with ⟨hmj, hjs⟩ | ⟨hsm, -⟩
    · exact .inl ⟨hmj, hjs, hfirst⟩
    · exact absurd hlt (not_lt.mpr hsm)
  · rcases hj with ⟨hmj, hjs⟩ | ⟨-, hout⟩
    · exact .inr ⟨hmax, hmin, .inl hmj⟩
    · exact .inr ⟨hmax, hmin, hout⟩

theorem insert_left (hs : Next hash A m s) (hm : m ∈ A) (hj : Between hash m j s) :
    Next hash (insert j A) m j := by
  refine ⟨Set.mem_insert j A, ?_⟩
  rcases hs.between_cases hj with ⟨hmj, hjs, hfirst⟩ | ⟨hmax, hmin, hmj | hjs⟩
  · refine .inl ⟨hmj, ?_⟩
    rintro z (rfl | hz) hmz
    · exact le_rfl
    · exact hjs.le.trans (hfirst z hz hmz)
  · refine .inl ⟨hmj, ?_⟩
    rintro z (rfl | hz) hmz
    · exact le_rfl
    · exact absurd hmz (not_lt.mpr (hmax z hz))
  · refine .inr ⟨?_, ?_⟩
    · rintro z (rfl | hz)
      · exact hjs.le.trans (hmin m hm)
      · exact hmax z hz
    · rintro z (rfl | hz)
      · exact le_rfl
      · exact hjs.le.trans (hmin z hz)

theorem insert_right (hs : Next hash A m s) (hm : m ∈ A) (hj : Between hash m j s) :
    Next hash (insert j A) j s := by
  refine ⟨Set.mem_insert_of_mem j hs.1, ?_⟩
  rcases hs.between_cases hj with ⟨hmj, hjs, hfirst⟩ | ⟨hmax, hmin, hmj | hjs⟩
  · refine .inl ⟨hjs, ?_⟩
    rintro z (rfl | hz) hjz
    · exact absurd hjz (lt_irrefl _)
    · exact hfirst z hz (hmj.trans hjz)
  · refine .inr ⟨?_, ?_⟩
    · rintro z (rfl | hz)
      · exact le_rfl
      · exact (hmax z hz).trans hmj.le
    · rintro z (rfl | hz)
      · exact (hmin m hm).trans hmj.le
      · exact hmin z hz
  · refine .inl ⟨hjs, ?_⟩
    rintro z (rfl | hz) hjz
    · exact absurd hjz (lt_irrefl _)
    · exact hmin z hz

theorem insert_of_ne (hinj : Injective hash) (hs : Next hash A m s) (hm : m ∈ A)
    (hj : Between hash m j s) (h : Next hash A x y) (hx : x ∈ A) (hne : x ≠ m) :
    Next hash (insert j A) x y := by
  obtain ⟨hy, ⟨hlt, hfirst⟩ | ⟨hmax, hmin⟩⟩ := h
  · refine ⟨Set.mem_insert_of_mem j hy, .inl ⟨hlt, ?_⟩⟩
    rintro z (rfl | hz) hxz
    · -- `j` が `x` と `y` の間にあれば、`x` が手前の点になる
      by_contra hzy
      rcases hs.between_cases hj with ⟨hmz, hzs, hfirst'⟩ | ⟨hmax, hmin, hmz | hzs⟩
      · refine hne (hinj (le_antisymm (le_of_not_gt fun hmx => ?_) (le_of_not_gt fun hxm => ?_)))
        · exact absurd (hfirst' x hx hmx) (not_le.mpr (hxz.trans hzs))
        · exact hzy ((hfirst m hm hxm).trans hmz.le)
      · exact hzy ((hmax y hy).trans hmz.le)
      · exact absurd (hmin x hx) (not_le.mpr (hxz.trans hzs))
    · exact hfirst z hz hxz
  · -- `x` は最大である。`j` がそれより外にあれば、`x` が手前の点になる
    rcases hs.between_cases hj with ⟨hmj, hjs, -⟩ | ⟨hmax', -, -⟩
    · refine ⟨Set.mem_insert_of_mem j hy, .inr ⟨?_, ?_⟩⟩
      · rintro z (rfl | hz)
        · exact hjs.le.trans (hmax s hs.1)
        · exact hmax z hz
      · rintro z (rfl | hz)
        · exact (hmin m hm).trans hmj.le
        · exact hmin z hz
    · exact absurd (hinj (le_antisymm (hmax' x hx) (hmax m hm))) hne

end Next

end Infra
