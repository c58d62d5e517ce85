import MsProjects.Os161.Properties.CopyInOut
import MsProjects.Os161.Properties.UserStore

/-! # CPU の `copyout` と、user から見た byte -/

namespace Os161

open List Function

open UInt32 (ofNat)

variable {lo : Vaddr} {s s' : Cpu} {random : Nat → Fin numTlb} {r : Except Errno Unit} {src : List UInt8}
  {addr : Vaddr}

/-- 二つの `copycheck` は同じものを通す。 -/
theorem copycheck_iff (userptr : Vaddr) (len : UInt32) :
    copycheck userptr len = true ↔ copycheckStop userptr len = .ok len := by
  have hsub : userspacetop - userptr = len → userptr + len - 1 < userspacetop := by
    rintro rfl
    rw [UInt32.add_comm, UInt32.sub_add_cancel]
    decide
  simp only [copycheck, copycheckStop, decide_eq_true_eq]
  generalize userptr + len - 1 = top at *
  split_ifs <;> grind

/-- user の番地に見える byte と、`s'` で書ける page。 -/
def Cpu.view (s s' : Cpu) : UserMem :=
  ⟨s.userByte, fun p => decide (p ∈ s'.as.pages ∧ ¬ Refused s'.as.vstart s'.as.pages p)⟩

theorem readable_view : (s.view s').readable addr =
    decide (addr &&& pageFrame ∈ s'.as.pages ∧ ¬ Refused s'.as.vstart s'.as.pages (addr &&& pageFrame)) :=
  rfl

theorem Extended.not_refused {new : List Vaddr} {ws : List (Vaddr × UInt8)} {s₁ : Cpu} {p : Vaddr}
    (h : Extended lo s new ws s₁) (hmem : p ∈ s₁.as.pages) (hok : ¬ Refused s.as.vstart s.as.pages p) :
    ¬ Refused s₁.as.vstart s₁.as.pages p := by
  rintro (hout | ⟨hnot, -⟩)
  · rw [show s₁.as.vstart = s.as.vstart from congrArg Book.vstart h.book] at hout
    exact hok (.inl hout)
  · exact hnot hmem

/-- **CPU の `memcpy` は、終わりに書ける page だけに書けるものとして、user から見た byte を順に書き換える。** -/
theorem StoreOk.copyBytes_view (h : StoreOk lo s) {k : Nat}
    (hlo : ∀ i < src.length, lo ≤ (addr + ofNat i) &&& pageFrame)
    (hr : Cpu.copyBytes random src addr k s = some (r, s')) :
    (∃ new ws, Extended lo s new ws s') ∧ (s.view s').store src addr = (r, s'.view s') := by
  induction src generalizing addr k s with
  | nil =>
    cases hr
    exact ⟨⟨[], [], .refl h⟩, rfl⟩
  | cons b src ih =>
    have hhead : lo ≤ addr &&& pageFrame := by simpa using hlo 0 (by simp)
    have htail : ∀ i < src.length, lo ≤ (addr + 1 + ofNat i) &&& pageFrame := by
      intro i hi
      rw [add_ofNat_succ]
      exact hlo (i + 1) (by simpa using hi)
    have hend := h.storeByte_end hhead b (random k)
    -- 書けた byte の後は、残りの列の帰納法による
    have hnext : ∀ {s₁ : Cpu} {new : List Vaddr}, Extended lo s new [(addr, b)] s₁ →
        ¬ Refused s.as.vstart s.as.pages (addr &&& pageFrame) →
        Cpu.copyBytes random src (addr + 1) (k + 1) s₁ = some (r, s') →
        (∃ new ws, Extended lo s new ws s') ∧ (s.view s').store (b :: src) addr = (r, s'.view s') := by
      intro s₁ new hext hok hrest
      obtain ⟨⟨new', ws', hext'⟩, hstore⟩ := ih hext.ok htail hrest
      refine ⟨⟨_, _, hext.trans hext'⟩, ?_⟩
      have hin : addr &&& pageFrame ∈ s₁.as.pages := hext.inside _ mem_cons_self
      have hin' : addr &&& pageFrame ∈ s'.as.pages := by
        rw [hext'.pages]
        exact mem_append_left _ hin
      have hreadable := And.intro hin' (hext'.not_refused hin' (hext.not_refused hin hok))
      rw [UserMem.store, readable_view, decide_eq_true hreadable, if_neg (by simp), ← hstore]
      congr 1
      rw [Cpu.view, Cpu.view, hext.bytes]
      rfl
    rw [Cpu.copyBytes] at hr
    generalize hbyte : s.storeByte addr b (random k) = x at hr hend
    cases hend with
    | refused hno =>
      cases hr
      refine ⟨⟨[], [], .refl h⟩, ?_⟩
      rw [UserMem.store, readable_view, decide_eq_false fun hin => hin.2 hno, if_pos rfl]
    | hit hok _ hext | grown hok _ hext => exact hnext hext hok hr
    | short _ hnot =>
      cases hr
      refine ⟨⟨[], [], .refl h⟩, ?_⟩
      rw [UserMem.store, readable_view, decide_eq_false fun hin => hnot hin.1, if_pos rfl]
    | crash => cases hr

/-- **CPU の `copyout` は、user から見た byte の `copyout` である。** -/
theorem StoreOk.copyout_view (h : StoreOk lo s)
    (hlo : ∀ i < src.length, lo ≤ (addr + ofNat i) &&& pageFrame)
    (hr : s.copyout random src addr = some (r, s')) :
    (∃ new ws, Extended lo s new ws s') ∧ copyout (s.view s') src addr = (r, s'.view s') := by
  unfold Cpu.copyout at hr
  unfold copyout
  by_cases hcheck : copycheck addr (ofNat src.length) = true
  · rw [if_pos hcheck] at hr
    rw [(copycheck_iff _ _).mp hcheck]
    simpa using h.copyBytes_view hlo hr
  · rw [if_neg hcheck] at hr
    cases hr
    refine ⟨⟨[], [], .refl h⟩, ?_⟩
    rw [copycheck_iff] at hcheck
    cases hstop : copycheckStop addr (ofNat src.length) with
    | error err =>
      simp only [copycheckStop] at hstop
      split_ifs at hstop <;> cases hstop <;> rfl
    | ok stop =>
      have hne : stop ≠ ofNat src.length := by
        rintro rfl
        exact hcheck hstop
      simp [hne]

end Os161
