import MsProjects.Os161.Properties.CopyInOut
import MsProjects.Os161.Properties.Kmalloc
import MsProjects.Os161.Syscall.Io

/-!
# buffer の検査の性質
-/

namespace Os161

variable {k g : Nat} {limit : Errno} {m : UserMem} {rw : UioRw} {buf : Vaddr} {buflen : UInt32}

variable {src : Vaddr}

/-! ## 検査 -/

def probeLimit (src : Vaddr) : Nat := min 255 (2 ^ 31 - src.toNat)

/-- 検査が最大の長さに達したときの errno。 -/
def probeErrno (src : Vaddr) : Errno := if probeLimit src < 255 then .efault else .enametoolong

theorem probe_of_lt (m : UserMem) (hin : src < userspacetop) :
    probe true m src = copystrLoop m src (probeErrno src) 0 (probeLimit src) := by
  obtain ⟨stop, hstop, hlimit⟩ : ∃ stop, copycheckStop src nameMax = .ok stop ∧
    stop.toNat = probeLimit src :=
    copycheckStop_of_lt (by decide) (by decide) hin
  have hmin : min 255 (probeLimit src) = probeLimit src := Nat.min_eq_right (Nat.min_le_left _ _)
  rw [probe, if_pos rfl, copyinstr, hstop]
  change copystr m src 255 stop.toNat = _
  rw [copystr, hlimit, hmin, probeErrno]

theorem probeLimit_of_ge (hout : userspacetop ≤ src) : probeLimit src = 0 := by
  have htop : 2 ^ 31 ≤ src.toNat := UInt32.le_iff_toNat_le.mp hout
  rw [probeLimit]
  omega

theorem probe_of_ge (m : UserMem) (hout : userspacetop ≤ src) :
    probe true m src = (.error .efault, []) := by
  rw [probe, if_pos rfl, copyinstr, copycheckStop_of_ge _ hout]

theorem probe_ok_iff :
    (probe true m src).1 = .ok g ↔
      ∃ k, k < probeLimit src ∧ m.Nonzero src 0 k ∧ m.NulAt src k ∧ g = k + 1 := by
  by_cases hin : src < userspacetop
  · simp only [probe_of_lt m hin, copystrLoop_ok_iff]
  · simp [probe_of_ge m (UInt32.not_lt.mp hin), probeLimit_of_ge (UInt32.not_lt.mp hin)]

theorem probe_writes_iff :
    k < (probe true m src).2.length ↔
      k < probeLimit src ∧ m.Nonzero src 0 k ∧ m.readable (src + UInt32.ofNat k) = true := by
  by_cases hin : src < userspacetop
  · rw [probe_of_lt m hin, copystrLoop_writes_iff]
  · simp [probe_of_ge m (UInt32.not_lt.mp hin), probeLimit_of_ge (UInt32.not_lt.mp hin)]

theorem exists_probe_ok (hk : k < probeLimit src)
    (hread : ∀ j ≤ k, m.readable (src + UInt32.ofNat j) = true)
    (hnul : m.byte (src + UInt32.ofNat k) = 0) : ∃ g, (probe true m src).1 = .ok g := by
  -- 最初の NUL で止まる
  have hex : ∃ j, m.byte (src + UInt32.ofNat j) = 0 := ⟨k, hnul⟩
  have hle : Nat.find hex ≤ k := Nat.find_min' hex hnul
  refine ⟨_, probe_ok_iff.mpr ⟨Nat.find hex, hle.trans_lt hk, fun j _ hj => ⟨hread j (by omega), ?_⟩,
    ⟨hread _ hle, Nat.find_spec hex⟩, rfl⟩⟩
  exact Nat.find_min hex hj

theorem probe_of_unreadable (hr : m.readable src = false) : (probe true m src).1 = .error .efault := by
  by_cases hin : src < userspacetop
  · have hlt : src.toNat < 2 ^ 31 := UInt32.lt_iff_toNat_lt.mp hin
    obtain ⟨n, hn⟩ : ∃ n, probeLimit src = n + 1 :=
      Nat.exists_eq_succ_of_ne_zero (by rw [probeLimit]; omega)
    rw [probe_of_lt m hin, hn, copystrLoop]
    simp [hr]
  · rw [probe_of_ge m (UInt32.not_lt.mp hin)]

/-! ## 二つの memory -/

namespace UserMem

/-- 番地が buffer の中にある。 -/
def InBuffer (buf : Vaddr) (buflen : UInt32) (addr : Vaddr) : Prop := addr - buf < buflen

instance (buf : Vaddr) (buflen : UInt32) (addr : Vaddr) : Decidable (InBuffer buf buflen addr) :=
  inferInstanceAs (Decidable (_ < _))

/-- 読める page は同じで、byte の違いは buffer の中だけにある。 -/
structure AgreeOutside (buf : Vaddr) (buflen : UInt32) (m m' : UserMem) : Prop where
  pages : m.readablePage = m'.readablePage
  bytes : ∀ addr, ¬ InBuffer buf buflen addr → m.byte addr = m'.byte addr

/-- buffer を一つの byte で埋める。 -/
def fill (m : UserMem) (buf : Vaddr) (buflen : UInt32) (b : UInt8) : UserMem :=
  { m with byte := fun addr => if InBuffer buf buflen addr then b else m.byte addr }

theorem agreeOutside_fill (m : UserMem) (buf : Vaddr) (buflen : UInt32) (b : UInt8) :
    AgreeOutside buf buflen m (m.fill buf buflen b) where
  pages := rfl
  bytes _ h := (if_neg h).symm

theorem inBuffer_iff (hk : k < 2 ^ 32) : InBuffer buf buflen (buf + UInt32.ofNat k) ↔ k < buflen.toNat := by
  rw [InBuffer, add_sub_cancel_left, UInt32.lt_iff_toNat_lt, UInt32.toNat_ofNat_of_lt' hk]

theorem AgreeOutside.readable_eq {m' : UserMem} (h : AgreeOutside buf buflen m m') (addr : Vaddr) :
    m.readable addr = m'.readable addr := by
  rw [UserMem.readable, UserMem.readable, h.pages]

end UserMem

theorem probeLimit_le (src : Vaddr) : probeLimit src ≤ 255 := Nat.min_le_left _ _

/-- 検査の成否が buffer の中身によらないための条件。 -/
def ProbeImmune (buf : Vaddr) (buflen : UInt32) (m : UserMem) : Prop :=
  buflen = 0 ∨ userspacetop ≤ buf ∨ m.readable buf = false ∨
    ∃ k, buflen.toNat ≤ k ∧ k < probeLimit buf ∧ (∀ j ≤ k, m.readable (buf + UInt32.ofNat j) = true) ∧
      m.byte (buf + UInt32.ofNat k) = 0

section

variable {s : Files} {p : Nat} {vop : Vop} {kmalloc : Bool} {fd : Int} {m₁ m₂ : UserMem}

theorem sysIo_result_congr (hpages : m₁.readablePage = m₂.readablePage)
    (hprobe : (probe kmalloc m₁ buf).1 = (probe kmalloc m₂ buf).1 ∨
      (∃ g, (probe kmalloc m₁ buf).1 = .ok g) ∧ ∃ g, (probe kmalloc m₂ buf).1 = .ok g) :
    s.sysIo rw p vop kmalloc fd buf buflen m₁ = s.sysIo rw p vop kmalloc fd buf buflen m₂ := by
  rcases hprobe with heq | ⟨⟨g₁, h₁⟩, g₂, h₂⟩
  · simp only [Files.sysIo, heq, vop.blind _ _ _ _ _ hpages]
  · simp only [Files.sysIo, h₁, h₂, vop.blind _ _ _ _ _ hpages]

theorem sysIo_eq_of_immune (himmune : ProbeImmune buf buflen m) (h₁ : m.AgreeOutside buf buflen m₁)
    (h₂ : m.AgreeOutside buf buflen m₂) :
    s.sysIo rw p vop kmalloc fd buf buflen m₁ = s.sysIo rw p vop kmalloc fd buf buflen m₂ := by
  refine sysIo_result_congr (h₁.pages.symm.trans h₂.pages) ?_
  cases kmalloc with
  | false => exact .inl rfl
  | true =>
    rcases himmune with hzero | hout | hunread | ⟨k, hlen, hk, hread, hnul⟩
    · left
      have hsame : m₁ = m₂ := by
        obtain ⟨hp₁, hb₁⟩ := h₁
        obtain ⟨hp₂, hb₂⟩ := h₂
        cases m₁
        cases m₂
        have hnot (addr : Vaddr) : ¬ UserMem.InBuffer buf buflen addr := by
          rw [hzero]
          exact UInt32.not_lt_zero
        simp only [UserMem.mk.injEq]
        exact ⟨funext fun addr => (hb₁ addr (hnot addr)).symm.trans (hb₂ addr (hnot addr)),
          hp₁.symm.trans hp₂⟩
      rw [hsame]
    · left
      rw [probe_of_ge _ hout, probe_of_ge _ hout]
    · left
      rw [probe_of_unreadable ((h₁.readable_eq buf).symm.trans hunread),
        probe_of_unreadable ((h₂.readable_eq buf).symm.trans hunread)]
    · right
      have hok {m' : UserMem} (h : m.AgreeOutside buf buflen m') : ∃ g, (probe true m' buf).1 = .ok g := by
        have hout : ¬ UserMem.InBuffer buf buflen (buf + UInt32.ofNat k) := by
          have := probeLimit_le buf
          rw [UserMem.inBuffer_iff (by omega)]
          omega
        exact exists_probe_ok hk (fun j hj => (h.readable_eq _).symm.trans (hread j hj))
          ((h.bytes _ hout).symm.trans hnul)
      exact ⟨hok h₁, hok h₂⟩

end

/-! ## 結果は buffer の中身によらない -/

/-- すべての descriptor が開いている。 -/
def openFiles : Files where
  handle _ := ⟨"", 0, 0, 1, some 0⟩
  allocated _ := true
  allocs := 1
  opened := 1
  closes := []
  live := {0}
  fdTable _ _ := some 0

def Vop.whole : Vop where
  run _ _ offset _ buflen _ := .ok (offset + buflen.toNat, 0)
  blind _ _ _ _ _ _ _ _ := rfl

theorem sysIo_openFiles_ok (hok : (probe true m buf).1 = .ok g) :
    (openFiles.sysIo rw 0 .whole true 0 buf buflen m).1 = .ok buflen := by
  have hfd : Files.fdIndex 0 = some 0 := rfl
  simp [Files.sysIo, hok, hfd, openFiles, Vop.whole]

theorem immune_of_sysIo_eq
    (hsame : ∀ m₁ m₂, m.AgreeOutside buf buflen m₁ → m.AgreeOutside buf buflen m₂ →
      (openFiles.sysIo rw 0 .whole true 0 buf buflen m₁).1 =
      (openFiles.sysIo rw 0 .whole true 0 buf buflen m₂).1) :
    ProbeImmune buf buflen m := by
  by_contra himmune
  simp only [ProbeImmune, not_or] at himmune
  obtain ⟨hlen, hin, hread, hnul⟩ := himmune
  rw [UInt32.not_le, UInt32.lt_iff_toNat_lt] at hin
  rw [Bool.not_eq_false] at hread
  have hpos : 0 < buflen.toNat := Nat.pos_of_ne_zero fun h => hlen (UInt32.toNat.inj h)
  have hlimit : 0 < probeLimit buf := by
    rw [probeLimit]
    have htop : (userspacetop : UInt32).toNat = 2 ^ 31 := rfl
    omega
  have hzero : buf + UInt32.ofNat 0 = buf := by simp
  -- NUL で埋めた buffer は通り、NUL の無い buffer は通らない
  obtain ⟨g, hg⟩ : ∃ g, (probe true (m.fill buf buflen 0) buf).1 = .ok g := by
    refine exists_probe_ok hlimit (fun j hj => ?_) ?_
    · obtain rfl : j = 0 := by omega
      rw [hzero]
      exact hread
    · exact if_pos ((UserMem.inBuffer_iff (by omega)).mpr hpos)
  have h := hsame _ _ (m.agreeOutside_fill buf buflen 0) (m.agreeOutside_fill buf buflen 1)
  rw [sysIo_openFiles_ok hg] at h
  cases hone : (probe true (m.fill buf buflen 1) buf).1 with
  | error err =>
    simp [Files.sysIo, hone] at h
  | ok g' =>
    obtain ⟨k, hk, hnon, hz, -⟩ := probe_ok_iff.mp hone
    have hle := probeLimit_le buf
    have hbuf : ¬ UserMem.InBuffer buf buflen (buf + UInt32.ofNat k) := fun hmem => by
      have hb : (m.fill buf buflen 1).byte (buf + UInt32.ofNat k) = 1 := if_pos hmem
      rw [hz.2] at hb
      exact absurd hb (by decide)
    have hb : m.byte (buf + UInt32.ofNat k) = 0 := (if_neg hbuf).symm.trans hz.2
    rw [UserMem.inBuffer_iff (by omega)] at hbuf
    refine hnul ⟨k, by omega, hk, fun j hj => ?_, hb⟩
    rcases Nat.eq_or_lt_of_le hj with rfl | hlt
    · exact hz.1
    · exact (hnon j (Nat.zero_le j) hlt).1

theorem sysIo_of_nonzero {s : Files} {p : Nat} {vop : Vop} {fd : Int}
    (hin : buf.toNat + 255 ≤ 2 ^ 31) (hnon : m.Nonzero buf 0 255) :
    s.sysIo rw p vop true fd buf buflen m = (.error .enametoolong, s) := by
  have hlimit : probeLimit buf = 255 := by
    rw [probeLimit]
    omega
  have hlt : buf < userspacetop := UInt32.lt_iff_toNat_lt.mpr (show buf.toNat < 2 ^ 31 by omega)
  have hprobe : (probe true m buf).1 = .error .enametoolong := by
    rw [probe_of_lt m hlt, probeErrno, if_neg (by omega), hlimit]
    exact copystrLoop_of_nonzero hnon
  rw [Files.sysIo, hprobe]

/--
**`sys_write` と `sys_read` の結果が buffer の中身によらないのは、検査が buffer に届かないか、buffer の後ろの
NUL で必ず止まるとき、かつそのときに限る。NUL の無い 255 byte は、書くことも読むこともできない。**
-/
theorem io_result_blind_iff (buf : Vaddr) (buflen : UInt32) (m : UserMem) :
    ((∀ s p vop kmalloc fd m₁ m₂, m.AgreeOutside buf buflen m₁ → m.AgreeOutside buf buflen m₂ →
        (Files.sysWrite s p vop kmalloc fd buf buflen m₁).1 =
          (Files.sysWrite s p vop kmalloc fd buf buflen m₂).1) ↔ ProbeImmune buf buflen m) ∧
      ((∀ s p vop kmalloc fd m₁ m₂, m.AgreeOutside buf buflen m₁ → m.AgreeOutside buf buflen m₂ →
        (Files.sysRead s p vop kmalloc fd buf buflen m₁).1 =
          (Files.sysRead s p vop kmalloc fd buf buflen m₂).1) ↔ ProbeImmune buf buflen m) ∧
      (buf.toNat + 255 ≤ 2 ^ 31 → m.Nonzero buf 0 255 → ∀ s p vop fd,
        Files.sysWrite s p vop true fd buf buflen m = (.error .enametoolong, s) ∧
          Files.sysRead s p vop true fd buf buflen m = (.error .enametoolong, s)) := by
  refine ⟨⟨fun h => ?_, fun himmune _ _ _ _ _ _ _ h₁ h₂ => ?_⟩,
    ⟨fun h => ?_, fun himmune _ _ _ _ _ _ _ h₁ h₂ => ?_⟩, fun hin hnon _ _ _ _ => ⟨?_, ?_⟩⟩
  · exact immune_of_sysIo_eq fun m₁ m₂ => h openFiles 0 .whole true 0 m₁ m₂
  · exact congrArg Prod.fst (sysIo_eq_of_immune himmune h₁ h₂)
  · exact immune_of_sysIo_eq fun m₁ m₂ => h openFiles 0 .whole true 0 m₁ m₂
  · exact congrArg Prod.fst (sysIo_eq_of_immune himmune h₁ h₂)
  · exact sysIo_of_nonzero hin hnon
  · exact sysIo_of_nonzero hin hnon

/-- すべての page が読め、番地 `nul` だけに NUL がある。 -/
def nulMem (nul : Option Vaddr) : UserMem where
  byte addr := if some addr = nul then 0 else 1
  readablePage _ := true

/-- 300 byte の buffer の先頭に NUL があれば書けるが、NUL が無ければ書けない。 -/
theorem write_depends_on_data :
    (nulMem none).AgreeOutside 0x10000000 300 (nulMem (some 0x10000000)) ∧
      (openFiles.sysWrite 0 .whole true 0 0x10000000 300 (nulMem (some 0x10000000))).1 = .ok 300 ∧
      (openFiles.sysWrite 0 .whole true 0 0x10000000 300 (nulMem none)).1 = .error .enametoolong := by
  refine ⟨⟨rfl, fun addr hout => ?_⟩, by decide +kernel, by decide +kernel⟩
  have hne : addr ≠ 0x10000000 := by
    rintro rfl
    exact hout (by decide)
  simp [nulMem, hne]

/-! ## 検査が書く番地 -/

open Kmalloc (extent Consistent Step)

/-- `check` から書いた byte は、`check` の block の中だけにあり、ほかの block にも空きの列にも触れない。 -/
structure WritesInside (t : Kmalloc.System) (check : Nat) (written : List UInt8) : Prop where
  inside : ∀ i < written.length, check + i < check + extent 1
  others : ∀ x ∈ t.live, x.1 ≠ check → ∀ i < written.length, check + i < x.1 ∨ x.1 + extent x.2 ≤ check + i
  /-- 空いている block の最初の語が、次の block を指す。 -/
  links : ∃ all chain free, Consistent t all chain free ∧
    ∀ r ∈ all, ∀ b ∈ free r, ∀ i < written.length, check + i < b ∨ b + 4 ≤ check + i

/-- 検査は、はじめの 17 byte を書き終える前に止まる。 -/
def Prober.StopsEarly (call : Prober) (m : UserMem) (ptr : Vaddr) : Prop :=
  (call = .execv ∧ ptr = 0) ∨ 2 ^ 31 ≤ ptr.toNat + 16 ∨
    (∃ i ≤ 16, m.readable (ptr + UInt32.ofNat i) = false) ∨ ∃ i < 16, m.byte (ptr + UInt32.ofNat i) = 0

theorem Prober.length_written_le_iff (call : Prober) (m : UserMem) (ptr : Vaddr) :
    (call.written m ptr).length ≤ 16 ↔ call.StopsEarly m ptr := by
  rw [Prober.written, Prober.StopsEarly]
  split
  · next hnull => exact iff_of_true (Nat.zero_le _) (.inl hnull)
  · next hnull =>
    rw [← Nat.not_lt, probe_writes_iff, probeLimit, or_iff_right hnull]
    constructor
    · intro hnot
      by_contra hlate
      push Not at hlate
      obtain ⟨hlimit, hread, hbyte⟩ := hlate
      simp only [ne_eq, Bool.not_eq_false] at hread
      exact hnot ⟨by omega, fun j _ hj => ⟨hread j hj.le, hbyte j hj⟩, hread 16 le_rfl⟩
    · rintro (hlimit | ⟨i, hi, hread⟩ | ⟨i, hi, hbyte⟩) ⟨hlt, hnon, hlast⟩
      · omega
      · rcases Nat.eq_or_lt_of_le hi with rfl | hi
        · exact absurd (hread.symm.trans hlast) (by decide)
        · exact absurd (hnon i (Nat.zero_le i) hi).1 (by simp [hread])
      · exact (hnon i (Nat.zero_le i) hi).2 hbyte

/-- **検査が `kmalloc` の block の中だけに書くのは、はじめの 17 byte を書き終える前に止まるとき、かつそのときに限る。** -/
theorem probe_stays_inside_iff {mem : Nat → Nat} {t : Kmalloc.System}
    {tr : List (Infra.Transition Kmalloc.System Kmalloc.Op)} (hrun : Infra.Run Step (Kmalloc.boot mem) tr t)
    {check : Nat} (hcheck : (check, 1) ∈ t.live) (call : Prober) (m : UserMem) (ptr : Vaddr) :
    WritesInside t check (call.written m ptr) ↔ call.StopsEarly m ptr := by
  have hext : extent 1 = 16 := by decide
  rw [← Prober.length_written_le_iff]
  constructor
  · intro h
    by_contra hlong
    have := h.inside 16 (by omega)
    omega
  · intro hlen
    obtain ⟨⟨all, free, hs⟩, -⟩ := hrun.invariant' (fun hs h => hs.step h) (Kmalloc.Inv.boot mem)
    refine ⟨fun i hi => by omega, fun x hx hne i hi => ?_, all, _, free, hs.consistent,
      fun r hr b hb i hi => ?_⟩
    · have hdisj := hs.disjoint hcheck hx hne.symm
      simp only at hdisj
      omega
    · have hdisj := hs.disjoint_free hcheck hr hb
      simp only at hdisj
      omega

theorem exists_run_two_blocks : ∃ tr t, Infra.Run Step (Kmalloc.boot fun _ => 7) tr t ∧
    t.live = [(8176, 1), (8160, 1)] := by
  have hfacts : ([Kmalloc.Op.kmalloc 1, .allocated 0 4096, .kmalloc 1].foldlM Kmalloc.System.step
      (Kmalloc.boot fun _ => 7)).map (fun t => t.live) = some [(8176, 1), (8160, 1)] := by
    decide +kernel
  obtain ⟨t, ht, hlive⟩ := Option.map_eq_some_iff.mp hfacts
  obtain ⟨hrun, -⟩ := Infra.Run.of_foldlM ht
  exact ⟨_, t, hrun, hlive⟩

/-- 10 文字の文字列の検査は、block の中に収まる。 -/
theorem probe_stays_inside_ten : ∃ t : Kmalloc.System, (8160, 1) ∈ t.live ∧
    WritesInside t 8160 (Prober.write.written (nulMem (some 0x1000000a)) 0x10000000) := by
  obtain ⟨tr, t, hrun, hlive⟩ := exists_run_two_blocks
  have hcheck : (8160, 1) ∈ t.live := by simp [hlive]
  refine ⟨t, hcheck, (probe_stays_inside_iff hrun hcheck .write _ _).mpr ?_⟩
  exact .inr (.inr (.inr ⟨10, by decide, by decide⟩))

/-- NUL の無い buffer の検査は、隣の block を書きつぶす。 -/
theorem probe_overwrites_neighbour : ∃ tr t, Infra.Run Step (Kmalloc.boot fun _ => 7) tr t ∧
    (8160, 1) ∈ t.live ∧ (8176, 1) ∈ t.live ∧
    (Prober.write.written (nulMem none) 0x10000000).length = 255 ∧
    ¬ WritesInside t 8160 (Prober.write.written (nulMem none) 0x10000000) := by
  obtain ⟨tr, t, hrun, hlive⟩ := exists_run_two_blocks
  have hlen : (Prober.write.written (nulMem none) 0x10000000).length = 255 := by decide +kernel
  refine ⟨tr, t, hrun, by simp [hlive], by simp [hlive], hlen, fun h => ?_⟩
  have hlt := h.others (8176, 1) (by simp [hlive]) (by decide) 16 (by omega)
  have hext : extent 1 = 16 := by decide
  simp only [hext] at hlt
  omega

end Os161
