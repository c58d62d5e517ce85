import Mathlib.Data.List.Forall2
import Mathlib.Data.List.TakeWhile

/-!
# 空きの印を持つ slot の並び

固定長の配列で、空きの slot を値自身の印で見分けるもの。
-/

namespace Infra.Slots

open List Function

variable {α : Type*} (vacant : α → Bool)

/-- 最初の空きより前。 -/
def occupied (l : List α) : List α := l.takeWhile fun a => !vacant a

/-- 最初の空きで打ち切る線形探索。 -/
def scan (p : α → Bool) : List α → Option α
  | [] => none
  | a :: l => if !vacant a && p a then some a else if vacant a then none else scan p l

/-- 最初の空きに `x` を書く。 -/
def fill (x : α) : List α → Option (List α)
  | [] => none
  | a :: l => if vacant a then some (x :: l) else (fill x l).map (a :: ·)

/-- 最初の空きまでの slot を書き換える。 -/
def mapOccupied (f : α → α) : List α → List α
  | [] => []
  | a :: l => if vacant a then a :: l else f a :: mapOccupied f l

/-- 空きが後ろに寄っている。 -/
def Packed (l : List α) : Prop := ∀ a ∈ l.dropWhile fun a => !vacant a, vacant a = true

variable {vacant}

@[simp] theorem occupied_nil : occupied vacant ([] : List α) = [] := rfl

theorem occupied_cons (a : α) (l : List α) :
    occupied vacant (a :: l) = if vacant a then [] else a :: occupied vacant l := by
  unfold occupied
  rw [takeWhile_cons]
  cases vacant a <;> rfl

theorem length_occupied_le (l : List α) : (occupied vacant l).length ≤ l.length :=
  (takeWhile_sublist _).length_le

theorem vacant_of_mem_occupied {l : List α} {a : α} (h : a ∈ occupied vacant l) :
    vacant a = false := by
  have := mem_takeWhile_imp h
  simpa using this

theorem scan_eq_find? (p : α → Bool) (l : List α) :
    scan vacant p l = (occupied vacant l).find? p := by
  induction l with
  | nil => rfl
  | cons a l ih =>
    rw [scan, occupied_cons]
    cases hv : vacant a with
    | true => simp
    | false =>
      cases hp : p a with
      | true => simp [hp]
      | false => simp [hp, ih]

theorem occupied_of_all_vacant {l : List α} (h : ∀ a ∈ l, vacant a = true) :
    occupied vacant l = [] := by
  cases l with
  | nil => rfl
  | cons a l => rw [occupied_cons, if_pos (h a mem_cons_self)]

theorem packed_of_all_vacant {l : List α} (h : ∀ a ∈ l, vacant a = true) :
    Packed vacant l :=
  fun a ha => h a ((dropWhile_sublist _).subset ha)

theorem packed_cons_of_vacant {a : α} {l : List α} (ha : vacant a = true) :
    Packed vacant (a :: l) ↔ ∀ b ∈ l, vacant b = true := by
  simp [Packed, ha]

theorem packed_cons_of_occupied {a : α} {l : List α} (ha : vacant a = false) :
    Packed vacant (a :: l) ↔ Packed vacant l := by
  simp [Packed, ha]

theorem mem_occupied_of_packed {l : List α} (hp : Packed vacant l) {a : α} (ha : a ∈ l)
    (hv : vacant a = false) : a ∈ occupied vacant l := by
  rw [← takeWhile_append_dropWhile (p := fun a => !vacant a) (l := l)] at ha
  rcases mem_append.mp ha with ha | ha
  · exact ha
  · rw [hp a ha] at hv
    simp at hv

theorem fill_eq_none_iff {x : α} {l : List α} :
    fill vacant x l = none ↔ (occupied vacant l).length = l.length := by
  induction l with
  | nil => simp [fill]
  | cons a l ih =>
    rw [fill, occupied_cons]
    cases hv : vacant a with
    | true => simp
    | false => simpa using ih

theorem countP_of_packed {l : List α} (hp : Packed vacant l) :
    l.countP (fun a => !vacant a) = (occupied vacant l).length := by
  induction l with
  | nil => rfl
  | cons a l ih =>
    rw [countP_cons, occupied_cons]
    cases hv : vacant a with
    | true =>
      have hall := (packed_cons_of_vacant hv).mp hp
      simpa [countP_eq_zero] using hall
    | false => simp [ih ((packed_cons_of_occupied hv).mp hp)]

theorem length_fill {x : α} {l l' : List α} (h : fill vacant x l = some l') :
    l'.length = l.length := by
  induction l generalizing l' with
  | nil => simp [fill] at h
  | cons a l ih =>
    rw [fill] at h
    split at h
    · rw [← Option.some.inj h]; rfl
    · obtain ⟨m, hm, rfl⟩ := Option.map_eq_some_iff.mp h
      simp [ih hm]

theorem countP_fill {x : α} (hx : vacant x = false) (l : List α) :
    (fill vacant x l = none ∧ l.countP vacant = 0) ∨
      ∃ l', fill vacant x l = some l' ∧ l'.countP vacant + 1 = l.countP vacant := by
  induction l with
  | nil => exact .inl ⟨rfl, rfl⟩
  | cons a l ih =>
    rw [fill]
    cases hv : vacant a with
    | true => exact .inr ⟨x :: l, by simp, by simp [hx, hv]⟩
    | false =>
      rcases ih with ⟨hnone, hzero⟩ | ⟨l', hsome, hcount⟩
      · exact .inl ⟨by simp [hnone], by simp [hv, hzero]⟩
      · exact .inr ⟨a :: l', by simp [hsome], by simp [hv, hcount]⟩

theorem fill_spec {x : α} (hx : vacant x = false) {l l' : List α} (hp : Packed vacant l)
    (h : fill vacant x l = some l') :
    occupied vacant l' = occupied vacant l ++ [x] ∧ Packed vacant l' := by
  induction l generalizing l' with
  | nil => simp [fill] at h
  | cons a l ih =>
    rw [fill] at h
    cases hv : vacant a with
    | true =>
      rw [if_pos hv, Option.some.injEq] at h
      subst h
      have hall := (packed_cons_of_vacant hv).mp hp
      refine ⟨?_, (packed_cons_of_occupied hx).mpr (packed_of_all_vacant hall)⟩
      rw [occupied_cons, occupied_cons, hx, hv, occupied_of_all_vacant hall]
      rfl
    | false =>
      rw [if_neg (by simp [hv]), Option.map_eq_some_iff] at h
      obtain ⟨m, hm, rfl⟩ := h
      obtain ⟨hocc, hpk⟩ := ih ((packed_cons_of_occupied hv).mp hp) hm
      refine ⟨?_, (packed_cons_of_occupied hv).mpr hpk⟩
      rw [occupied_cons, occupied_cons, hv, hocc]
      rfl

theorem occupied_mapOccupied {f : α → α} (hf : ∀ a, vacant (f a) = vacant a) (l : List α) :
    occupied vacant (mapOccupied vacant f l) = (occupied vacant l).map f := by
  induction l with
  | nil => rfl
  | cons a l ih =>
    rw [mapOccupied, occupied_cons]
    cases hv : vacant a with
    | true => simp [occupied_cons, hv]
    | false => simp [occupied_cons, hf, hv, ih]

theorem packed_mapOccupied {f : α → α} (hf : ∀ a, vacant (f a) = vacant a) {l : List α}
    (hp : Packed vacant l) : Packed vacant (mapOccupied vacant f l) := by
  induction l with
  | nil => exact hp
  | cons a l ih =>
    rw [mapOccupied]
    cases hv : vacant a with
    | true => simpa using hp
    | false =>
      rw [if_neg (by simp), packed_cons_of_occupied (by rw [hf, hv])]
      exact ih ((packed_cons_of_occupied hv).mp hp)

@[simp] theorem length_mapOccupied (f : α → α) (l : List α) :
    (mapOccupied vacant f l).length = l.length := by
  induction l with
  | nil => rfl
  | cons a l ih =>
    rw [mapOccupied]
    split
    · rfl
    · simp [ih]

/-! ## 空きの印が揃った二つの並び -/

section Forall₂

variable {R : α → α → Prop} {l l' : List α}

theorem exists_left_of_forall₂ (h : Forall₂ R l l') {b : α} (hb : b ∈ l') :
    ∃ a ∈ l, R a b := by
  induction h with
  | nil => simp at hb
  | @cons x y l l' hxy _ ih =>
    rcases mem_cons.mp hb with rfl | hb
    · exact ⟨x, mem_cons_self, hxy⟩
    · obtain ⟨a, ha, hab⟩ := ih hb
      exact ⟨a, mem_cons_of_mem _ ha, hab⟩

theorem forall₂_imp_of_mem {S : α → α → Prop} (h : Forall₂ R l l')
    (hRS : ∀ a b, a ∈ l → R a b → S a b) : Forall₂ S l l' :=
  ((forall₂_and_left l l').mpr ⟨fun _ ha => ha, h⟩).imp fun a b hab => hRS a b hab.1 hab.2

theorem map_eq_of_forall₂ {β : Type*} {f g : α → β} (h : Forall₂ R l l')
    (hfg : ∀ a b, a ∈ l → R a b → g b = f a) : l'.map g = l.map f := by
  induction h with
  | nil => rfl
  | @cons a b l l' hab _ ih =>
    rw [map_cons, map_cons, hfg a b mem_cons_self hab,
      ih fun x y hx => hfg x y (mem_cons_of_mem _ hx)]

theorem forall₂_occupied (hR : ∀ a b, R a b → vacant a = vacant b) (h : Forall₂ R l l') :
    Forall₂ R (occupied vacant l) (occupied vacant l') := by
  induction h with
  | nil => exact .nil
  | @cons a b l l' hab _ ih =>
    rw [occupied_cons, occupied_cons, ← hR a b hab]
    cases vacant a with
    | true => exact .nil
    | false => exact .cons hab ih

theorem packed_of_forall₂ (hR : ∀ a b, R a b → vacant a = vacant b) (h : Forall₂ R l l')
    (hp : Packed vacant l) : Packed vacant l' := by
  induction h with
  | nil => exact hp
  | @cons a b l l' hab htail ih =>
    cases hv : vacant a with
    | true =>
      rw [packed_cons_of_vacant ((hR a b hab).symm.trans hv)]
      have hall := (packed_cons_of_vacant hv).mp hp
      intro c hc
      obtain ⟨x, hx, hxc⟩ := exists_left_of_forall₂ htail hc
      exact (hR x c hxc).symm.trans (hall x hx)
    | false =>
      rw [packed_cons_of_occupied ((hR a b hab).symm.trans hv)]
      exact ih ((packed_cons_of_occupied hv).mp hp)

end Forall₂

end Infra.Slots
