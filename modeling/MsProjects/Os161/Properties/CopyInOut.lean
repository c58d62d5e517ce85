import MsProjects.Os161.Vm.CopyIn

/-!
# user の memory との写しの性質
-/

namespace Os161

open List Function UserMem

open UInt32 (add_assoc lt_iff_toNat_lt ofNat ofNat_add toNat)

variable {k g : Nat} {limit : Errno} {m : UserMem} {a p : Vaddr} {bs : List UInt8}

/-! ## 番地の計算 -/

theorem toNat_add_ofNat (h : a.toNat + k < 2 ^ 32) : (a + ofNat k).toNat = a.toNat + k := by
  rw [UInt32.toNat_add, UInt32.toNat_ofNat', Nat.mod_eq_of_lt (by omega : k < 2 ^ 32), Nat.mod_eq_of_lt h]

theorem add_ofNat_succ (a : Vaddr) (k : Nat) : a + 1 + ofNat k = a + ofNat (k + 1) := by
  rw [ofNat_add, UInt32.add_comm (ofNat k), ← add_assoc]
  rfl

/-! ## copystr -/

theorem copycheckStop_of_lt {src : Vaddr} {len : UInt32} (hpos : 0 < len.toNat) (hlen : len.toNat ≤ 2 ^ 31)
    (hin : src < userspacetop) :
    ∃ stop, copycheckStop src len = .ok stop ∧ stop.toNat = min len.toNat (2 ^ 31 - src.toNat) := by
  have htop : (userspacetop : UInt32).toNat = 2 ^ 31 := rfl
  rw [lt_iff_toNat_lt, htop] at hin
  have hsum : (src + len - 1).toNat = src.toNat + len.toNat - 1 := by
    rw [UInt32.toNat_sub, UInt32.toNat_add, show (1 : UInt32).toNat = 1 from rfl]
    omega
  have hsub : (userspacetop - src).toNat = 2 ^ 31 - src.toNat := by
    rw [UInt32.toNat_sub, htop]
    omega
  simp only [copycheckStop, lt_iff_toNat_lt, UInt32.le_iff_toNat_le, hsum, htop]
  rw [if_neg (by omega), if_neg (by omega)]
  split
  · exact ⟨_, rfl, by omega⟩
  · exact ⟨_, rfl, by omega⟩

theorem copycheckStop_of_ge {src : Vaddr} (len : UInt32) (hout : userspacetop ≤ src) :
    copycheckStop src len = .error .efault := by
  simp only [copycheckStop, hout, if_true, ite_self]

namespace UserMem

variable (m : UserMem) (src : Vaddr)

/-- `k` より前の byte はどれも読めて、NUL でない。 -/
def Nonzero (i k : Nat) : Prop :=
  ∀ j, i ≤ j → j < k → m.readable (src + ofNat j) = true ∧ m.byte (src + ofNat j) ≠ 0

/-- `k` の byte は読める NUL である。 -/
def NulAt (k : Nat) : Prop := m.readable (src + ofNat k) = true ∧ m.byte (src + ofNat k) = 0

variable {m src}

theorem Nonzero.succ {i : Nat} (hr : m.readable (src + ofNat i) = true)
    (hb : m.byte (src + ofNat i) ≠ 0) (h : m.Nonzero src (i + 1) k) : m.Nonzero src i k := by
  intro j hij hjk
  rcases Nat.eq_or_lt_of_le hij with rfl | hlt
  · exact ⟨hr, hb⟩
  · exact h j hlt hjk

theorem Nonzero.mono {i i' k' : Nat} (h : m.Nonzero src i k) (hi : i ≤ i') (hk : k' ≤ k) :
    m.Nonzero src i' k' :=
  fun j hij hjk => h j (hi.trans hij) (hjk.trans_le hk)

def bytes (m : UserMem) (a : Vaddr) (n : Nat) : List UInt8 := (range n).map fun i => m.byte (a + ofNat i)

theorem length_bytes (m : UserMem) (a : Vaddr) (n : Nat) : (m.bytes a n).length = n := by
  rw [bytes, length_map, length_range]

theorem bytes_succ (m : UserMem) (a : Vaddr) (n : Nat) :
    m.bytes a (n + 1) = m.byte a :: m.bytes (a + 1) n := by
  rw [bytes, range_succ_eq_map, map_cons, map_map, bytes, show a + ofNat 0 = a from UInt32.add_zero a]
  refine congrArg _ (map_congr_left fun i _ => ?_)
  rw [add_ofNat_succ]
  rfl

/-- loop は、最大の長さか、NUL か、読めない byte で止まり、そこまでを写す。 -/
theorem copystrLoop_stops (m : UserMem) (src : Vaddr) (limit : Errno) (n i : Nat) :
    ∃ k, m.Nonzero src i (i + k) ∧
      (k = n ∧ copystrLoop m src limit i n = (.error limit, m.bytes (src + ofNat i) k) ∨
        k < n ∧ m.NulAt src (i + k) ∧
          copystrLoop m src limit i n = (.ok (i + k + 1), m.bytes (src + ofNat i) (k + 1)) ∨
        k < n ∧ m.readable (src + ofNat (i + k)) = false ∧
          copystrLoop m src limit i n = (.error .efault, m.bytes (src + ofNat i) k)) := by
  induction n generalizing i with
  | zero => exact ⟨0, fun j hij hj => absurd hj (by omega), .inl ⟨rfl, rfl⟩⟩
  | succ n ih =>
    have hempty : m.Nonzero src i (i + 0) := fun j hij hj => absurd hj (by omega)
    rw [copystrLoop]
    cases hr : m.readable (src + ofNat i) with
    | false => exact ⟨0, hempty, .inr (.inr ⟨n.succ_pos, hr, rfl⟩)⟩
    | true =>
      by_cases hb : m.byte (src + ofNat i) = 0
      · refine ⟨0, hempty, .inr (.inl ⟨n.succ_pos, ⟨hr, hb⟩, ?_⟩)⟩
        rw [bytes_succ]
        simp [hb, bytes]
      · obtain ⟨k, hnon, h⟩ := ih (i + 1)
        have hnext : src + ofNat i + 1 = src + ofNat (i + 1) := by
          rw [add_assoc, ofNat_add]
          rfl
        have hadd : i + 1 + k = i + (k + 1) := by omega
        rw [hadd] at hnon h
        refine ⟨k + 1, hnon.succ hr hb, ?_⟩
        simp only [hb, if_false, bytes_succ m (src + ofNat i), hnext]
        rcases h with ⟨rfl, h⟩ | ⟨hk, hnul, h⟩ | ⟨hk, hr', h⟩
        · exact .inl ⟨rfl, by rw [h]; rfl⟩
        · exact .inr (.inl ⟨by omega, hnul, by rw [h]; rfl⟩)
        · exact .inr (.inr ⟨by omega, hr', by rw [h]; rfl⟩)

theorem Nonzero.le_of_stop {j : Nat} (h : m.Nonzero src 0 k)
    (hstop : ¬ (m.readable (src + ofNat j) = true ∧ m.byte (src + ofNat j) ≠ 0)) : k ≤ j :=
  Nat.not_lt.mp fun hlt => hstop (h j (Nat.zero_le j) hlt)

end UserMem

variable {m : UserMem} {src : Vaddr} {n : Nat}

theorem copystrLoop_cases (m : UserMem) (src : Vaddr) (limit : Errno) (n : Nat) :
    ∃ k, m.Nonzero src 0 k ∧
      (k = n ∧ copystrLoop m src limit 0 n = (.error limit, m.bytes src k) ∨
        k < n ∧ m.NulAt src k ∧ copystrLoop m src limit 0 n = (.ok (k + 1), m.bytes src (k + 1)) ∨
        k < n ∧ m.readable (src + ofNat k) = false ∧
          copystrLoop m src limit 0 n = (.error .efault, m.bytes src k)) := by
  simpa only [Nat.zero_add, show src + ofNat 0 = src from UInt32.add_zero src] using
    copystrLoop_stops m src limit n 0

theorem copystrLoop_ok_iff :
    (copystrLoop m src limit 0 n).1 = .ok g ↔ ∃ k < n, m.Nonzero src 0 k ∧ m.NulAt src k ∧ g = k + 1 := by
  obtain ⟨j, hnon, h⟩ := copystrLoop_cases m src limit n
  constructor
  · intro hok
    rcases h with ⟨-, h⟩ | ⟨hj, hnul, h⟩ | ⟨-, -, h⟩ <;> rw [h] at hok <;> cases hok
    exact ⟨j, hj, hnon, hnul, rfl⟩
  · rintro ⟨k, hk, hnon', hnul', rfl⟩
    have hjk : j ≤ k := hnon.le_of_stop fun h => h.2 hnul'.2
    rcases h with ⟨rfl, -⟩ | ⟨-, hnul, h⟩ | ⟨-, hr, -⟩
    · omega
    · have hkj : k ≤ j := hnon'.le_of_stop fun h => h.2 hnul.2
      rw [h, Nat.le_antisymm hjk hkj]
    · have hkj : k ≤ j := hnon'.le_of_stop fun h => by simp [hr] at h
      rw [Nat.le_antisymm hjk hkj, hnul'.1] at hr
      cases hr

theorem copystrLoop_writes_iff :
    k < (copystrLoop m src limit 0 n).2.length ↔
      k < n ∧ m.Nonzero src 0 k ∧ m.readable (src + ofNat k) = true := by
  obtain ⟨j, hnon, h⟩ := copystrLoop_cases m src limit n
  have hbefore (hk : k < j) : m.Nonzero src 0 k ∧ m.readable (src + ofNat k) = true :=
    ⟨hnon.mono le_rfl hk.le, (hnon k (Nat.zero_le k) hk).1⟩
  rcases h with ⟨rfl, h⟩ | ⟨hj, hnul, h⟩ | ⟨hj, hr, h⟩ <;> rw [h, length_bytes]
  · exact ⟨fun hk => ⟨hk, hbefore hk⟩, fun h => h.1⟩
  · refine ⟨fun hk => ⟨by omega, ?_⟩, fun h => Nat.lt_succ_of_le (h.2.1.le_of_stop fun hne => hne.2 hnul.2)⟩
    rcases Nat.lt_succ_iff_lt_or_eq.mp hk with hlt | rfl
    · exact hbefore hlt
    · exact ⟨hnon, hnul.1⟩
  · refine ⟨fun hk => ⟨by omega, hbefore hk⟩, fun ⟨_, hnon', hr'⟩ => ?_⟩
    have hle : k ≤ j := hnon'.le_of_stop fun hne => by simp [hr] at hne
    refine lt_of_le_of_ne hle ?_
    rintro rfl
    simp [hr] at hr'

theorem copystrLoop_of_nonzero (hnon' : m.Nonzero src 0 n) :
    (copystrLoop m src limit 0 n).1 = .error limit := by
  obtain ⟨j, -, ⟨-, h⟩ | ⟨hj, hnul, -⟩ | ⟨hj, hr, -⟩⟩ := copystrLoop_cases m src limit n
  · rw [h]
  · exact absurd hnul.2 (hnon' j (Nat.zero_le j) hj).2
  · exact absurd (hnon' j (Nat.zero_le j) hj).1 (by simp [hr])

/-! ## memcpy -/

namespace UserMem

theorem load_of_readable {n : Nat} (h : ∀ i < n, m.readable (a + ofNat i) = true) :
    m.load n a = (.ok (), m.bytes a n) := by
  induction n generalizing a with
  | zero => rfl
  | succ n ih =>
    have hhead : m.readable a = true := by simpa using h 0 (by omega)
    have htail := ih (a := a + 1) fun i hi => by rw [add_ofNat_succ]; exact h (i + 1) (by omega)
    rw [load, htail, bytes_succ]
    simp [hhead]

theorem byte_store_of_not_mem {x : Vaddr} (hfit : a.toNat + bs.length ≤ 2 ^ 32)
    (hx : x.toNat < a.toNat ∨ a.toNat + bs.length ≤ x.toNat) : (m.store bs a).2.byte x = m.byte x := by
  induction bs generalizing m a with
  | nil => rfl
  | cons b bs ih =>
    rw [length_cons] at hfit hx
    rw [store]
    split
    · rfl
    · have hne : x ≠ a := by
        rintro rfl
        omega
      cases bs with
      | nil => exact update_of_ne hne _ _
      | cons c bs =>
        rw [length_cons] at hfit hx ih
        have hnext : (a + 1).toNat = a.toNat + 1 := toNat_add_ofNat (k := 1) (by omega)
        rw [ih (by omega) (by omega)]
        exact update_of_ne hne _ _

theorem byte_store (hfit : a.toNat + bs.length ≤ 2 ^ 32) {i : Nat} {b : UInt8} (hb : bs[i]? = some b) :
    (m.store bs a).2.byte (a + ofNat i) =
      if ∀ j ≤ i, m.readable (a + ofNat j) = true then b else m.byte (a + ofNat i) := by
  induction bs generalizing m a i with
  | nil => cases hb
  | cons c bs ih =>
    rw [length_cons] at hfit
    have hzero : a + ofNat 0 = a := UInt32.add_zero a
    rw [store]
    split
    · next hr => rw [if_neg fun h => by simpa [hzero, hr] using h 0 (Nat.zero_le i)]
    · next hr =>
      rw [Bool.not_eq_false] at hr
      cases i with
      | zero =>
        obtain rfl : c = b := Option.some.inj hb
        rw [if_pos (by intro j hj; rwa [Nat.le_zero.mp hj, hzero]), hzero]
        cases bs with
        | nil => exact update_self _ _ _
        | cons d bs =>
          rw [length_cons] at hfit
          have hnext : (a + 1).toNat = a.toNat + 1 := toNat_add_ofNat (k := 1) (by omega)
          rw [byte_store_of_not_mem (by rw [length_cons]; omega) (by omega)]
          exact update_self _ _ _
      | succ i =>
        have hlt : i < bs.length := by simpa using (List.getElem?_eq_some_iff.mp hb).1
        have hnext : (a + 1).toNat = a.toNat + 1 := toNat_add_ofNat (k := 1) (by omega)
        have hne : a + ofNat (i + 1) ≠ a := by
          intro he
          have := congrArg toNat he
          rw [toNat_add_ofNat (by omega)] at this
          omega
        have hstep := ih (m := { m with byte := update m.byte a c }) (a := a + 1) (by omega) hb
        rw [add_ofNat_succ] at hstep
        rw [hstep]
        -- 先頭の page は使えるので、二つの条件は同じである
        refine if_congr ⟨fun h j hj => ?_, fun h j hj => ?_⟩ rfl (update_of_ne hne _ _)
        · cases j with
          | zero => rwa [hzero]
          | succ j => exact add_ofNat_succ a j ▸ h j (by omega)
        · rw [add_ofNat_succ]
          exact h (j + 1) (by omega)

theorem store_of_readable (h : ∀ i < bs.length, m.readable (a + ofNat i) = true) :
    (m.store bs a).1 = .ok () := by
  induction bs generalizing m a with
  | nil => rfl
  | cons b bs ih =>
    have hhead : m.readable a = true := by simpa using h 0 (by simp)
    rw [store]
    simp only [hhead, Bool.true_eq_false, if_false]
    refine ih fun i hi => ?_
    rw [add_ofNat_succ]
    exact h (i + 1) (by simpa using hi)

end UserMem

/-! ## 範囲と結果 -/

/-- `p` から `n` byte が user の番地にある。 -/
def InUser (p : Vaddr) (n : Nat) : Prop := p.toNat + n ≤ userspacetop.toNat

instance (p : Vaddr) (n : Nat) : Decidable (InUser p n) := inferInstanceAs (Decidable (_ ≤ _))

/-- `p` からの最初の NUL は `k` 個目の byte である。 -/
def UserMem.FirstNul (m : UserMem) (p : Vaddr) (k : Nat) : Prop :=
  1 ≤ k ∧ m.byte (p + ofNat (k - 1)) = 0 ∧ ∀ i < k - 1, m.byte (p + ofNat i) ≠ 0

theorem lt_userspacetop {n : Nat} (h : InUser p n) (hk : k < n) : p + ofNat k < userspacetop := by
  rw [InUser, show userspacetop.toNat = 2 ^ 31 from rfl] at h
  rw [lt_iff_toNat_lt, toNat_add_ofNat (by omega), show userspacetop.toNat = 2 ^ 31 from rfl]
  omega

theorem not_inUser {n : Nat} (h : userspacetop.toNat ≤ p.toNat) (hn : 1 ≤ n) : ¬ InUser p n := by
  rw [InUser]
  omega

section

variable {len : UInt32} (hpos : 1 ≤ len.toNat) (hlen : len.toNat ≤ 2 ^ 31)

include hpos hlen

theorem copycheckStop_cases :
    (p < userspacetop ∧ ∃ stop, copycheckStop p len = .ok stop ∧
      stop.toNat = min len.toNat (2 ^ 31 - p.toNat) ∧
        (stop = len ↔ InUser p len.toNat)) ∨
      copycheckStop p len = .error .efault ∧ userspacetop.toNat ≤ p.toNat := by
  by_cases hin : p < userspacetop
  · obtain ⟨stop, hstop, hmin⟩ := copycheckStop_of_lt hpos hlen hin
    have hlt : p.toNat < 2 ^ 31 := lt_iff_toNat_lt.mp hin
    refine .inl ⟨hin, stop, hstop, hmin, ?_⟩
    rw [← UInt32.toNat_inj, hmin, InUser, show userspacetop.toNat = 2 ^ 31 from rfl]
    omega
  · have hout := UInt32.not_lt.mp hin
    exact .inr ⟨copycheckStop_of_ge len hout, UInt32.le_iff_toNat_le.mp hout⟩

theorem copyin_eq (hread : ∀ a, a < userspacetop → m.readable a = true) :
    copyin m p len = if InUser p len.toNat then (.ok (), m.bytes p len.toNat) else
    (.error .efault, []) := by
  rw [copyin]
  rcases copycheckStop_cases (p := p) hpos hlen with ⟨-, stop, hstop, -, hiff⟩ | ⟨hstop, hout⟩
  · simp only [hstop, ne_eq, hiff, ite_not]
    refine if_ctx_congr Iff.rfl (fun hin => ?_) fun _ => rfl
    exact load_of_readable fun i hi => hread _ (lt_userspacetop hin hi)
  · rw [hstop, if_neg (not_inUser hout hpos)]

theorem copyout_eq (m : UserMem) (hbs : bs.length = len.toNat) :
    copyout m bs p = if InUser p len.toNat then m.store bs p else (.error .efault, m) := by
  rw [copyout, hbs, UInt32.ofNat_toNat]
  rcases copycheckStop_cases (p := p) hpos hlen with ⟨-, stop, hstop, -, hiff⟩ | ⟨hstop, hout⟩
  · simp only [hstop, ne_eq, hiff, ite_not]
  · rw [hstop, if_neg (not_inUser hout hpos)]

theorem copyinstr_cases (m : UserMem) :
    (∃ n, copyinstr m p len = copystrLoop m p (if InUser p len.toNat then .enametoolong else .efault) 0 n ∧
        InUser p n ∧ ∀ k, k ≤ n ↔ k ≤ len.toNat ∧ InUser p k) ∨
      copyinstr m p len = (.error .efault, []) ∧ ∀ k, 1 ≤ k → ¬ InUser p k := by
  have htop : userspacetop.toNat = 2 ^ 31 := rfl
  rw [copyinstr]
  rcases copycheckStop_cases (p := p) hpos hlen with ⟨hin, stop, hstop, hmin, hiff⟩ | ⟨hstop, hout⟩
  · have hlt : p.toNat < 2 ^ 31 := lt_iff_toNat_lt.mp hin
    left
    simp only [hstop, copystr]
    refine ⟨min len.toNat stop.toNat, congrArg (copystrLoop m p · 0 _) ?_, ?_, fun k => ?_⟩
    · rw [← ite_not]
      refine if_congr ?_ rfl rfl
      rw [InUser]
      omega
    · rw [InUser]
      omega
    · rw [InUser]
      omega
  · rw [hstop]
    exact .inr ⟨rfl, fun k => not_inUser hout⟩

end

section

variable (hread : ∀ k < n, m.readable (src + ofNat k) = true)

include hread

theorem copystrLoop_ok_iff_firstNul :
    (copystrLoop m src limit 0 n).1 = .ok k ↔ m.FirstNul src k ∧ k ≤ n := by
  rw [copystrLoop_ok_iff]
  constructor
  · rintro ⟨j, hj, hnon, hnul, rfl⟩
    exact ⟨⟨by omega, hnul.2, fun i hi => (hnon i (Nat.zero_le i) hi).2⟩, by omega⟩
  · rintro ⟨⟨hpos, hnul, hnon⟩, hle⟩
    exact ⟨k - 1, by omega, fun i _ hi => ⟨hread i (by omega), hnon i hi⟩, ⟨hread _ (by omega), hnul⟩,
      by omega⟩

theorem copystrLoop_error (h : ∀ k, k ≤ n → ¬ m.FirstNul src k) :
    (copystrLoop m src limit 0 n).1 = .error limit := by
  obtain ⟨j, hnon, ⟨-, heq⟩ | ⟨hj, hnul, -⟩ | ⟨hj, hr, -⟩⟩ := copystrLoop_cases m src limit n
  · rw [heq]
  · exact absurd ⟨by omega, hnul.2, fun i hi => (hnon i (Nat.zero_le i) hi).2⟩ (h (j + 1) hj)
  · simp [hread j hj] at hr

end

theorem copystrLoop_bytes (h : (copystrLoop m src limit 0 n).1 = .ok k) :
    (copystrLoop m src limit 0 n).2 = m.bytes src k := by
  obtain ⟨j, -, ⟨-, heq⟩ | ⟨-, -, heq⟩ | ⟨-, -, heq⟩⟩ := copystrLoop_cases m src limit n <;>
    rw [heq] at h ⊢ <;> cases h
  rfl

theorem length_copystrLoop_le (m : UserMem) (src : Vaddr) (limit : Errno) (n : Nat) :
    (copystrLoop m src limit 0 n).2.length ≤ n := by
  obtain ⟨j, -, ⟨hj, heq⟩ | ⟨hj, -, heq⟩ | ⟨hj, -, heq⟩⟩ := copystrLoop_cases m src limit n <;>
    rw [heq, length_bytes] <;> omega

structure StringCopied (m : UserMem) (p : Vaddr) (len : Nat) (r : Except Errno Nat × List UInt8) :
    Prop where
  /-- user の番地だけに触る。 -/
  inUser : InUser p r.2.length ∨ r.2 = []
  length_le : r.2.length ≤ len
  ok_iff : ∀ k, r.1 = .ok k ↔ m.FirstNul p k ∧ k ≤ len ∧ InUser p k
  bytes : ∀ k, r.1 = .ok k → r.2 = m.bytes p k
  error : (∀ k, r.1 ≠ .ok k) → r.1 = .error (if InUser p len then .enametoolong else .efault)

theorem stringCopied_copyinstr {len : UInt32} (hpos : 1 ≤ len.toNat) (hlen : len.toNat ≤ 2 ^ 31)
    (hread : ∀ a, a < userspacetop → m.readable a = true) :
    StringCopied m p len.toNat (copyinstr m p len) := by
  rcases copyinstr_cases hpos hlen m with ⟨n, heq, hin, hn⟩ | ⟨heq, hout⟩
  · have hreadable : ∀ k < n, m.readable (p + ofNat k) = true :=
      fun k hk => hread _ (lt_userspacetop hin hk)
    have hlength := length_copystrLoop_le m p (if InUser p len.toNat then .enametoolong else .efault) n
    rw [heq]
    have hok : ∀ k,
        (copystrLoop m p (if InUser p len.toNat then .enametoolong else .efault) 0 n).1 = .ok k ↔
        m.FirstNul p k ∧ k ≤ len.toNat ∧ InUser p k := fun k => by
      rw [copystrLoop_ok_iff_firstNul hreadable, hn]
    refine ⟨.inl ?_, hlength.trans ((hn n).mp le_rfl).1, hok, fun k => copystrLoop_bytes, fun hne => ?_⟩
    · rw [InUser] at hin ⊢
      omega
    · exact copystrLoop_error hreadable fun k hk hnul => hne k ((hok k).mpr ⟨hnul, (hn k).mp hk⟩)
  · rw [heq]
    refine ⟨.inr rfl, Nat.zero_le _, fun k => ?_, fun k h => ?_, fun _ => ?_⟩
    · refine iff_of_false (fun h => ?_) fun h => hout k h.1.1 h.2.2
      cases h
    · cases h
    · rw [if_neg (hout _ hpos)]

/--
**user の page がどれも使えれば、`copyin` と `copyout` は範囲が user の番地にあるとき、かつそのときに限り成功し、
`copyinstr` は user の番地だけに触って最初の NUL までを写す。**
-/
theorem copyinout_bounds (m : UserMem) (p : Vaddr) (len : UInt32) (hpos : 1 ≤ len.toNat)
    (hlen : len.toNat ≤ 2 ^ 31) (hread : ∀ a, a < userspacetop → m.readable a = true) :
    (copyin m p len = if InUser p len.toNat then (.ok (), m.bytes p len.toNat) else (.error .efault, [])) ∧
      (∀ src : List UInt8, src.length = len.toNat →
        (InUser p len.toNat → (copyout m src p).1 = .ok () ∧
          (∀ i b, src[i]? = some b → (copyout m src p).2.byte (p + ofNat i) = b) ∧
          ∀ x : Vaddr, x.toNat < p.toNat ∨ p.toNat + len.toNat ≤ x.toNat →
          (copyout m src p).2.byte x = m.byte x) ∧
        (¬ InUser p len.toNat → copyout m src p = (.error .efault, m))) ∧
      StringCopied m p len.toNat (copyinstr m p len) := by
  refine ⟨copyin_eq hpos hlen hread, fun src hsrc => ?_, stringCopied_copyinstr hpos hlen hread⟩
  rw [copyout_eq hpos hlen m hsrc]
  refine ⟨fun hin => ?_, fun hout => if_neg hout⟩
  have hreadable : ∀ i < src.length, m.readable (p + ofNat i) = true :=
    fun i hi => hread _ (lt_userspacetop hin (hsrc ▸ hi))
  have hfit : p.toNat + src.length ≤ 2 ^ 32 := by
    rw [InUser, show userspacetop.toNat = 2 ^ 31 from rfl] at hin
    omega
  rw [if_pos hin]
  refine ⟨store_of_readable hreadable, fun i b hb => ?_, fun x hx => ?_⟩
  · have hi : i < src.length := (List.getElem?_eq_some_iff.mp hb).1
    rw [byte_store hfit hb, if_pos fun j hj => hreadable j (by omega)]
  · exact byte_store_of_not_mem hfit (hsrc ▸ hx)

theorem copyinout_bounds_zero :
    StringCopied ⟨fun _ => 0, fun _ => true⟩ 0x7fffffff 8
    (copyinstr ⟨fun _ => 0, fun _ => true⟩ 0x7fffffff 8) :=
  (copyinout_bounds _ 0x7fffffff 8 (by decide) (by decide) fun _ _ => rfl).2.2

end Os161
