import MsProjects.Os161.Properties.ArgBlock
import MsProjects.Os161.Properties.CopyView
import MsProjects.Os161.Syscall.Execv
import MsProjects.Os161.Thread.Exec

/-! # sys_execv の部分と全体 -/

namespace Os161

open List Function

open UInt32 (le_iff_toNat_le ofNat toNat)

/-! ## 引数 -/

section Args

variable {s s' : Cpu} {args : List Arg} {random : Nat → Nat → Fin numTlb}

theorem stackBase_le {d i : Nat} (hd : d ≤ 2 ^ 20) (hi : i < d) :
    stackBase ≤ (stackAt d + ofNat i) &&& pageFrame := by
  rw [le_iff_toNat_le, toNat_and_pageFrame, toNat_add_ofNat, toNat_stackAt]
  · show 2146435072 ≤ _
    omega
  · rw [toNat_stackAt]
    omega

/-- 引数は、後の `copyout` によらない。 -/
theorem pushArgs_update (avail : Nat → Vaddr → Bool) (readable : Vaddr → Bool) {n : Nat}
    (hn : args.length ≤ n) (m : UserBytes) : pushArgs (update avail n readable) args m = pushArgs avail args m := by
  induction args with
  | nil => rfl
  | cons a args ih =>
    have hlt : args.length < n := hn
    rw [pushArgs, pushArgs, ih hlt.le, update_of_ne hlt.ne]

theorem StoreOk.copyout_stack (h : StoreOk stackBase s) {random : Nat → Fin numTlb} {src : List UInt8}
    {d : Nat} {r : Except Errno Unit} (hd : d ≤ 2 ^ 20) (hsrc : src.length ≤ d)
    (hr : s.copyout random src (stackAt d) = some (r, s')) :
    StoreOk stackBase s' ∧
      ∃ readable, (copyout ⟨s.userByte, readable⟩ src (stackAt d)).2.byte = s'.userByte := by
  obtain ⟨⟨new, ws, hext⟩, hview⟩ := h.copyout_view (fun i hi => stackBase_le hd (by omega)) hr
  exact ⟨hext.ok, (s.view s').readablePage, congrArg (fun x => x.2.byte) hview⟩

theorem StoreOk.pushArgs_view (h : StoreOk stackBase s) (htotal : argsTotal args ≤ 2 ^ 20)
    {argvptr : List Vaddr} {stackptr : Vaddr}
    (hr : Cpu.pushArgs random args s = some (argvptr, stackptr, s')) :
    StoreOk stackBase s' ∧ argvptr = argAddrs args ∧ stackptr = stackAt (argsTotal args) ∧
      ∃ avail, pushArgs avail args s.userByte = (argvptr, stackptr, s'.userByte) := by
  induction args generalizing argvptr stackptr s' with
  | nil =>
    cases hr
    exact ⟨h, rfl, rfl, fun _ _ => true, rfl⟩
  | cons a args ih =>
    rw [argsTotal] at htotal
    cases hpush : Cpu.pushArgs random args s with
    | none => simp [Cpu.pushArgs, hpush] at hr
    | some x =>
      obtain ⟨argvptr₁, stackptr₁, s₁⟩ := x
      obtain ⟨hok, rfl, rfl, avail, hview⟩ := ih (by omega) hpush
      simp only [Cpu.pushArgs, hpush] at hr
      rw [stackAt_sub (by omega)] at hr
      cases hcopy : s₁.copyout (random args.length) a.bytes (stackAt (argsTotal args + a.len)) with
      | none => simp [hcopy] at hr
      | some y =>
        obtain ⟨r, s₂⟩ := y
        simp only [hcopy, Option.some.injEq, Prod.mk.injEq] at hr
        obtain ⟨rfl, rfl, rfl⟩ := hr
        obtain ⟨hok', readable, hbyte⟩ := hok.copyout_stack htotal (by rw [a.length_bytes]; omega) hcopy
        refine ⟨hok', rfl, rfl, update avail args.length readable, ?_⟩
        rw [pushArgs, pushArgs_update avail readable le_rfl, hview, ← hbyte]
        simp only [stackAt_sub (show argsTotal args + a.len ≤ 2 ^ 31 by omega), update_self]

/-- **CPU の `copyout` で置いた引数は、user から見た byte に置いた引数である。** -/
theorem StoreOk.buildArgs_view (h : StoreOk stackBase s) (hdepth : arrayDepth args ≤ 2 ^ 20)
    (hlen : 1 ≤ args.length) {stackptr : Vaddr} (hr : Cpu.buildArgs random args s = some (stackptr, s')) :
    ∃ avail, sysExecvArgs avail args s.userByte = (stackptr, s'.userByte) := by
  rw [arrayDepth] at hdepth
  cases hpush : Cpu.pushArgs random args s with
  | none => simp [Cpu.buildArgs, hpush] at hr
  | some x =>
    obtain ⟨argvptr, stackptr₁, s₁⟩ := x
    obtain ⟨hok, rfl, rfl, avail, hview⟩ := h.pushArgs_view (by omega) hpush
    simp only [Cpu.buildArgs, hpush] at hr
    rw [stackAt_sub (by omega)] at hr
    cases hcopy : s₁.copyout (random args.length) ((argAddrs args ++ [0]).flatMap wordBytes)
        (stackAt (argsTotal args + 4 * args.length * 4)) with
    | none => simp only [hcopy, reduceCtorEq] at hr
    | some y =>
      obtain ⟨r, s₂⟩ := y
      simp only [hcopy, Option.some.injEq, Prod.mk.injEq] at hr
      obtain ⟨rfl, rfl⟩ := hr
      have hwords : ((argAddrs args ++ [0]).flatMap wordBytes).length = 4 * (args.length + 1) := by
        rw [length_flatMap_wordBytes, length_append, length_argAddrs, length_singleton]
      obtain ⟨-, readable, hbyte⟩ := hok.copyout_stack hdepth (by omega) hcopy
      refine ⟨update avail args.length readable, ?_⟩
      rw [sysExecvArgs, buildArgs, pushArgs_update avail readable le_rfl, hview, ← hbyte]
      simp only [stackAt_sub (show argsTotal args + 4 * args.length * 4 ≤ 2 ^ 31 by omega), update_self]

end Args

/-! ## 添字と読み込み -/

namespace ExecvCall

/-- 添字の model から見た、呼び出す関数の結果。 -/
def env (c : ExecvCall) : ExecvEnv where
  kmalloc := c.kmalloc
  opened := c.opened.map fun _ => ()
  loaded :=
    match c.opened with
    | .error err => .error err
    | .ok vn =>
      match sysExecvLoad vn c.loadRandom c.oldaddr c.mem c.tlb with
      | some (.error err, _) => .error err
      | _ => .ok ()

theorem enter_some {c : ExecvCall} {bufs : List (List UInt8)} {entrypoint : Vaddr} {t t' : Curthread}
    {r : Except Errno (Vaddr × Vaddr)} (h : c.enter bufs entrypoint t = some (r, t')) :
    ∃ stackptr, r = .ok (entrypoint, stackptr) := by
  unfold enter at h
  split at h
  · cases h
  · split at h <;> cases h
    exact ⟨_, rfl⟩

/--
**`sys_execv` の全体は、失敗すれば添字の model と同じ誤りで終わる。成功すれば添字の model も成功し、読み込みは
`sysExecvLoad` の成功であり、添字の model の引数を新しい stack に置く。**
-/
theorem run_projects (c : ExecvCall) (t : Curthread) :
    (∀ err, c.run = some (.error err, t) →
      ∃ used, sysExecv c.user c.argv c.env = some (.error err, used)) ∧
    ∀ entrypoint stackptr, c.run = some (.ok (entrypoint, stackptr), t) →
      ∃ vn bufs used t₁, c.opened = .ok vn ∧ sysExecv c.user c.argv c.env = some (.ok bufs, used) ∧
        sysExecvLoad vn c.loadRandom c.oldaddr c.mem c.tlb = some (.ok entrypoint, t₁) ∧
        c.enter bufs entrypoint t₁ = some (.ok (entrypoint, stackptr), t) := by
  unfold run sysExecv env
  by_cases hargv : c.argv = 0
  · simp_all
  cases hprobe : (probe c.kmalloc c.user c.argv).1 with
  | error err => simp_all
  | ok n =>
    cases hopened : c.opened with
    | error err => simp_all [Except.map]
    | ok vn =>
      cases hargs : copyArgs c.user c.argv 0 argMax with
      | none => simp_all
      | some x =>
        obtain ⟨err | bufs, used⟩ := x
        · simp_all [Except.map]
        · cases hload : sysExecvLoad vn c.loadRandom c.oldaddr c.mem c.tlb with
          | none => simp_all
          | some y =>
            obtain ⟨err | entry, t₁⟩ := y
            · simp_all [Except.map]
            · simp only [hargv, hload, if_false, Except.map]
              refine ⟨fun err h => ?_, fun entrypoint stackptr h => ?_⟩
              · obtain ⟨stackptr, hr⟩ := enter_some h
                cases hr
              · obtain ⟨_, hr⟩ := enter_some h
                cases hr
                exact ⟨vn, bufs, _, t₁, rfl, rfl, hload, h⟩

end ExecvCall

/-! ## 系の step -/

namespace Sys

/-- 走っている thread から見える状態。 -/
def curthread (s : Sys) : Curthread := ⟨s.mem, s.tAddrspace, s.tlb⟩

variable {s : Sys} {old temp : AddrSpace} {mem : Mem}

/-- **`sysExecvLoad` は、`execBegin`、`load_elf`、`execOk` か `execFail` を続けたものである。** -/
theorem sysExecvLoad_steps (hcur : s.tAddrspace = some old) (hold : s.oldaddr = none)
    (hcreate : asCreate s.mem = some (temp, mem)) (vn : Vnode) (random : Nat → Nat → Fin numTlb)
    {r : Except Errno Vaddr} {c : Cpu} (hload : loadElf vn random ⟨⟨mem, temp⟩, Tlb.flushed⟩ = some (r, c)) :
    ∃ s₁ s₂, s.step .execBegin = some s₁ ∧ s₁.curthread = ⟨mem, some temp, Tlb.flushed⟩ ∧
      step { s₁.put c.toCur with tlb := c.tlb } (if r.isOk then .execOk else .execFail) = some s₂ ∧
      s₂.oldaddr = none ∧ sysExecvLoad vn random old s.mem s.tlb = some (r, s₂.curthread) := by
  obtain ⟨s₁, hs₁⟩ : ∃ s₁ : Sys,
      s₁ = { (s.set .oldaddr (some old)).put ⟨mem, temp⟩ with tlb := Tlb.flushed } := ⟨_, rfl⟩
  obtain ⟨s₃, hs₃⟩ : ∃ s₃ : Sys, s₃ = { s₁.put c.toCur with tlb := c.tlb } := ⟨_, rfl⟩
  have hbegin : s.step .execBegin = some s₁ := by simp [step, hcur, hold, hcreate, hs₁]
  have hstart : s₁.curthread = ⟨mem, some temp, Tlb.flushed⟩ := by
    simp [hs₁, curthread, put, set, tAddrspace]
  have ht : s₃.tAddrspace = some c.as := by simp [hs₃, put, set, tAddrspace]
  have ho : s₃.oldaddr = some old := by simp [hs₃, hs₁, put, set, oldaddr]
  refine ⟨s₁, ?_⟩
  rw [← hs₃]
  cases r with
  | error err =>
    refine ⟨s₃.undo ⟨s₃.mem, c.as⟩ old, hbegin, hstart,
      by simp [step, Except.isOk, Except.toBool, ht, ho], ?_, ?_⟩
    · simp [undo, set, oldaddr]
    · simp [sysExecvLoad, hcreate, hload, curthread, undo, set, tAddrspace, hs₃, put]
  | ok entrypoint =>
    refine ⟨{ s₃ with mem := asDestroy s₃.mem old }.set .oldaddr none, hbegin, hstart,
      by simp [step, Except.isOk, Except.toBool, ht, ho], ?_, ?_⟩
    · simp [set, oldaddr]
    · simp [sysExecvLoad, hcreate, hload, curthread, put, set, tAddrspace, hs₃]

end Sys

end Os161
