import MsProjects.Os161.Properties.Probe
import MsProjects.Os161.Syscall.Argv

/-!
# sys_execv の添字の性質
-/

namespace Os161

open List Function

/-! ## 切り上げた長さ -/

theorem paddedLen_eq (n : Nat) : paddedLen n = (n + 4) / 4 * 4 := by
  rw [paddedLen]
  split_ifs <;> omega

/-! ## 使う添字 -/

@[simp] theorem mem_copyIndices {argc : Nat} {written : List UInt8} {x : ArgIndex} :
    x ∈ copyIndices argc written ↔ x = .kargv argc ∨ ∃ i < written.length, x = .buffer argc i := by
  simp [copyIndices, eq_comm]

theorem length_pos_of_copyinstr {m : UserMem} {ptr : Vaddr} {len : UInt32} {g : Nat} {written : List UInt8}
    (h : copyinstr m ptr len = (.ok g, written)) : 0 < written.length := by
  have hloop (limit : Errno) (n i : Nat) (h : copystrLoop m ptr limit i n = (.ok g, written)) :
      0 < written.length := by
    cases n with
    | zero => cases h
    | succ n =>
      rw [copystrLoop] at h
      split at h
      · cases h
      · split at h
        · cases h
          exact Nat.one_pos
        · rw [← (Prod.mk.inj h).2]
          exact Nat.succ_pos _
  rw [copyinstr] at h
  split at h
  · cases h
  · exact hloop _ _ _ h

theorem copyArgs_ok {m : UserMem} {argv : Vaddr} {args : List (List UInt8)} {used : List ArgIndex}
    (fuel : Nat) : ∀ argc, copyArgs m argv argc fuel = some (.ok args, used) →
      args.length < fuel ∧ (∀ a ∈ args, 0 < a.length) ∧
        ∀ x, x ∈ used ↔ (∃ i, argc ≤ i ∧ i ≤ argc + args.length ∧ x = .kargv i) ∨
          ∃ k a i, args[k]? = some a ∧ i < a.length ∧ x = .buffer (argc + k) i := by
  induction fuel generalizing args used with
  | zero =>
    intro argc h
    cases h
  | succ fuel ih =>
    intro argc h
    rw [copyArgs] at h
    split at h
    · cases h
    · next ptr hptr =>
      split at h
      · cases h
        refine ⟨Nat.succ_pos _, fun _ ha => (not_mem_nil ha).elim, fun x => ?_⟩
        simp only [mem_singleton, length_nil, Nat.add_zero, getElem?_nil, reduceCtorEq,
          false_and, exists_false, or_false]
        constructor
        · rintro rfl
          exact ⟨argc, le_rfl, le_rfl, rfl⟩
        · rintro ⟨i, hle, hge, rfl⟩
          rw [Nat.le_antisymm hge hle]
      · split at h
        · cases h
        · next g written hcopied =>
          split at h
          · cases h
          · cases h
          · next args' used' hrest =>
            cases h
            obtain ⟨hlen, hpos, hused⟩ := ih (argc + 1) hrest
            refine ⟨by simpa using hlen, ?_, fun x => ?_⟩
            · intro a ha
              rcases mem_cons.mp ha with rfl | ha
              · exact length_pos_of_copyinstr hcopied
              · exact hpos a ha
            · rw [mem_append, mem_copyIndices, hused, length_cons]
              constructor
              · rintro ((rfl | ⟨i, hi, rfl⟩) | ⟨i, hle, hge, rfl⟩ | ⟨k, a, i, hk, hi, rfl⟩)
                · exact .inl ⟨argc, le_rfl, by omega, rfl⟩
                · exact .inr ⟨0, written, i, rfl, hi, rfl⟩
                · exact .inl ⟨i, by omega, by omega, rfl⟩
                · exact .inr ⟨k + 1, a, i, hk, hi, by rw [Nat.add_right_comm, Nat.add_assoc]⟩
              · rintro (⟨i, hle, hge, rfl⟩ | ⟨k, a, i, hk, hi, rfl⟩)
                · rcases Nat.eq_or_lt_of_le hle with rfl | hlt
                  · exact .inl (.inl rfl)
                  · exact .inr (.inl ⟨i, hlt, by omega, rfl⟩)
                · cases k with
                  | zero =>
                    obtain rfl : written = a := by simpa using hk
                    exact .inl (.inr ⟨i, hi, rfl⟩)
                  | succ k =>
                    exact .inr (.inr ⟨k, a, i, by simpa using hk, hi, by
                      rw [Nat.add_right_comm, Nat.add_assoc]⟩)

theorem mem_pushIndices {args : List (List UInt8)} (hpos : ∀ a ∈ args, 0 < a.length) :
    ∀ {j : Nat} {x : ArgIndex}, x ∈ pushIndices j args ↔
      (∃ i, j ≤ i ∧ i < j + args.length ∧ (x = .kargv i ∨ x = .argvptr i)) ∨
        ∃ k a i, args[k]? = some a ∧ i < paddedLen (a.length - 1) ∧ x = .buffer (j + k) i := by
  induction args with
  | nil =>
    intro j x
    simp only [pushIndices, not_mem_nil, length_nil, Nat.add_zero, getElem?_nil, reduceCtorEq,
      false_and, exists_false, or_false, false_iff]
    rintro ⟨i, hle, hlt, -⟩
    omega
  | cons arg args ih =>
    intro j x
    have hone : x ∈ pushOneIndices j arg ↔ x = .kargv j ∨ x = .argvptr j ∨
        ∃ i < paddedLen (arg.length - 1), x = .buffer j i := by
      have hle : arg.length ≤ paddedLen (arg.length - 1) := by
        have := hpos arg mem_cons_self
        rw [paddedLen_eq]
        omega
      simp only [pushOneIndices, cons_append, mem_cons, mem_append, mem_map, mem_range]
      constructor
      · rintro (rfl | ⟨i, hi, rfl⟩ | rfl | ⟨i, hi, rfl⟩)
        · exact .inl rfl
        · exact .inr (.inr ⟨i, hi.trans_le hle, rfl⟩)
        · exact .inr (.inl rfl)
        · exact .inr (.inr ⟨i, hi, rfl⟩)
      · rintro (rfl | rfl | ⟨i, hi, rfl⟩)
        · exact .inl rfl
        · exact .inr (.inr (.inl rfl))
        · exact .inr (.inr (.inr ⟨i, hi, rfl⟩))
    rw [pushIndices, mem_append, ih fun a ha => hpos a (mem_cons_of_mem _ ha), hone, length_cons]
    constructor
    · rintro ((⟨i, hle, hlt, hx⟩ | ⟨k, a, i, hk, hi, rfl⟩) | rfl | rfl | ⟨i, hi, rfl⟩)
      · exact .inl ⟨i, by omega, by omega, hx⟩
      · exact .inr ⟨k + 1, a, i, hk, hi, by rw [Nat.add_right_comm, Nat.add_assoc]⟩
      · exact .inl ⟨j, le_rfl, by omega, .inl rfl⟩
      · exact .inl ⟨j, le_rfl, by omega, .inr rfl⟩
      · exact .inr ⟨0, arg, i, rfl, hi, rfl⟩
    · rintro (⟨i, hle, hlt, hx⟩ | ⟨k, a, i, hk, hi, rfl⟩)
      · rcases Nat.eq_or_lt_of_le hle with rfl | hlt'
        · exact .inr (hx.imp_right .inl)
        · exact .inl (.inl ⟨i, hlt', by omega, hx⟩)
      · cases k with
        | zero =>
          obtain rfl : arg = a := by simpa using hk
          exact .inr (.inr (.inr ⟨i, hi, rfl⟩))
        | succ k =>
          exact .inl (.inr ⟨k, a, i, by simpa using hk, hi, by rw [Nat.add_right_comm, Nat.add_assoc]⟩)

section

variable {m : UserMem} {argv : Vaddr} {env : ExecvEnv} {args : List (List UInt8)} {used : List ArgIndex}

theorem sysExecv_ok (h : sysExecv m argv env = some (.ok args, used)) :
    ∃ copied, copyArgs m argv 0 argMax = some (.ok args, copied) ∧ used = copied ++ stackIndices args := by
  rw [sysExecv] at h
  split at h
  · cases h
  · split at h
    · cases h
    · cases h
    · split at h
      · cases h
      · cases h
      · cases h
      · next args' copied hcopied _ =>
        cases h
        exact ⟨copied, hcopied, rfl⟩

/-- **断られない `sys_execv` が使う添字の全体。** -/
theorem mem_sysExecv_iff (h : sysExecv m argv env = some (.ok args, used)) {x : ArgIndex} :
    x ∈ used ↔ (∃ i ≤ args.length, x = .kargv i ∨ x = .argvptr i) ∨
      ∃ k a i, args[k]? = some a ∧ i < paddedLen (a.length - 1) ∧ x = .buffer k i := by
  obtain ⟨copied, hcopied, rfl⟩ := sysExecv_ok h
  obtain ⟨-, hpos, hused⟩ := copyArgs_ok argMax 0 hcopied
  have hle {k : Nat} {a : List UInt8} (hk : args[k]? = some a) : a.length ≤ paddedLen (a.length - 1) := by
    have := hpos a (mem_of_getElem? hk)
    rw [paddedLen_eq]
    omega
  simp only [mem_append, hused, stackIndices, mem_pushIndices hpos, mem_singleton, mem_map,
    mem_range, Nat.zero_add, Nat.zero_le, true_and]
  constructor
  · rintro ((⟨i, hi, rfl⟩ | ⟨k, a, i, hk, hi, rfl⟩) |
      ((((⟨i, hi, hx⟩ | ⟨k, a, i, hk, hi, rfl⟩) | rfl) | ⟨i, hi, rfl⟩) | ⟨i, hi, rfl⟩))
    · exact .inl ⟨i, hi, .inl rfl⟩
    · exact .inr ⟨k, a, i, hk, hi.trans_le (hle hk), rfl⟩
    · exact .inl ⟨i, hi.le, hx⟩
    · exact .inr ⟨k, a, i, hk, hi, rfl⟩
    · exact .inl ⟨_, le_rfl, .inr rfl⟩
    · exact .inl ⟨i, hi.le, .inl rfl⟩
    · exact .inl ⟨i, by omega, .inr rfl⟩
  · rintro (⟨i, hi, rfl | rfl⟩ | ⟨k, a, i, hk, hi, rfl⟩)
    · exact .inl (.inl ⟨i, hi, rfl⟩)
    · exact .inr (.inr ⟨i, by omega, rfl⟩)
    · exact .inr (.inl (.inl (.inl (.inr ⟨k, a, i, hk, hi, rfl⟩))))

/-- **断られない `sys_execv` は、いつも `argvptr` の外に触る。** -/
theorem execv_index_never_in_bounds (h : sysExecv m argv env = some (.ok args, used)) :
    ¬ (∀ x ∈ used, x.InBounds args.length) ∧
      ((∀ i, .kargv i ∈ used → i < kargvSize) ↔ args.length ≤ 511) ∧
      ((∀ k i, .buffer k i ∈ used → i < nameMax.toNat) ↔ ∀ a ∈ args, a.length ≤ 252) ∧
      .argvptr args.length ∈ used := by
  have hlast : ArgIndex.argvptr args.length ∈ used := (mem_sysExecv_iff h).mpr (.inl ⟨_, le_rfl, .inr rfl⟩)
  refine ⟨fun hall => Nat.lt_irrefl _ (hall _ hlast), ⟨fun hall => ?_, fun hlen i hi => ?_⟩,
    ⟨fun hall a ha => ?_, fun hlen k i hi => ?_⟩, hlast⟩
  · exact Nat.le_of_lt_succ (hall args.length ((mem_sysExecv_iff h).mpr (.inl ⟨_, le_rfl, .inl rfl⟩)))
  · rcases (mem_sysExecv_iff h).mp hi with ⟨j, hj, hx | hx⟩ | ⟨_, _, _, _, _, hx⟩ <;> cases hx
    exact Nat.lt_succ_of_le (hj.trans hlen)
  · obtain ⟨k, hk⟩ := getElem?_of_mem ha
    by_contra hlong
    have hmem := (mem_sysExecv_iff h).mpr (.inr ⟨k, a, 255, hk, by rw [paddedLen_eq]; omega, rfl⟩)
    exact absurd (hall k 255 hmem) (by decide)
  · rcases (mem_sysExecv_iff h).mp hi with ⟨_, _, hx | hx⟩ | ⟨k', a, j, hk, hj, hx⟩ <;> cases hx
    have := hlen a (mem_of_getElem? hk)
    rw [paddedLen_eq] at hj
    change i < 255
    omega

end

/-- `argv` は 0x10000000 にあり、一つの引数 `"a"` が 0x10000008 にある。 -/
def argMem : UserMem where
  byte addr := if addr = 0x10000000 then 0x10 else if addr = 0x10000003 then 8
    else if addr = 0x10000008 then 0x61 else 0
  readablePage _ := true

def ExecvEnv.fine : ExecvEnv := ⟨true, .ok (), .ok ()⟩

theorem sysExecv_argMem : ∃ used, sysExecv argMem 0x10000000 .fine = some (.ok [[0x61, 0]], used) := by
  have h : (sysExecv argMem 0x10000000 .fine).map Prod.fst = some (.ok [[0x61, 0]]) := by decide +kernel
  obtain ⟨⟨r, used⟩, hrun, rfl⟩ := Option.map_eq_some_iff.mp h
  exact ⟨used, hrun⟩

/-- 引数が一つの呼び出しも、`argvptr[1]` に触る。 -/
theorem execv_index_never_in_bounds_one : ∃ used,
    sysExecv argMem 0x10000000 .fine = some (.ok [[0x61, 0]], used) ∧
      ¬ (∀ x ∈ used, x.InBounds 1) ∧ .argvptr 1 ∈ used := by
  obtain ⟨used, hrun⟩ := sysExecv_argMem
  obtain ⟨hnot, -, -, hlast⟩ := execv_index_never_in_bounds hrun
  exact ⟨used, hrun, hnot, hlast⟩

/-- 引数が一つの呼び出しが使う添字には、一つしか要素の無い `argvptr` の添字 1 がある。 -/
theorem execv_writes_past_argvptr :
    ∃ used, sysExecv argMem 0x10000000 .fine = some (.ok [[0x61, 0]], used) ∧
      ∃ x ∈ used, ¬ x.InBounds 1 := by
  obtain ⟨used, hrun⟩ := sysExecv_argMem
  exact ⟨used, hrun, .argvptr 1, (mem_sysExecv_iff hrun).mpr (.inl ⟨1, le_rfl, .inr rfl⟩), Nat.lt_irrefl 1⟩

end Os161
