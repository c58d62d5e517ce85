import MsProjects.Os161.Properties.Process
import MsProjects.Os161.Thread.Fork

/-!
# thread_fork の片付けの性質
-/

namespace Os161

open List Function

namespace ForkKernel

variable {k k' : ForkKernel} {parent : Nat} {env : Env} {err : Errno}

/-! ## 元に戻ること -/

/-- 記録の中で、どの object も取った回数だけ返され、二度は取られない。 -/
def Settled (calls : List HeapCall) : Prop :=
  ∀ o, calls.count (.kfree o) = calls.count (.kmalloc o) ∧ calls.count (.kmalloc o) ≤ 1

/-- 元からある handle と表は変わらない。 -/
structure SameFiles (s s' : Files) : Prop where
  references : ∀ h < s.allocs, (s'.handle h).references = (s.handle h).references
  allocated : ∀ h < s.allocs, s'.allocated h = s.allocated h
  fdTable : s'.fdTable = s.fdTable

theorem SameFiles.refl (s : Files) : SameFiles s s := ⟨fun _ _ => rfl, fun _ _ => rfl, rfl⟩

/-- 失敗した呼び出しの後に、何も残らない。 -/
structure Undone (k k' : ForkKernel) : Prop where
  once : ∃ calls, k'.heap = k.heap ++ calls ∧ Settled calls
  table : k'.procs.processTable = k.procs.processTable
  files : SameFiles k.files k'.files

/-! ## init_filetable の失敗 -/

theorem openConsoles_error {n : Nat} (cs : List (Int32 × Files.ConEnv)) {vs hs : List Nat} {s s' : Files}
    (hn : n ≤ s.allocs) (hhs : ∀ h ∈ hs, n ≤ h) (h : Files.openConsoles cs vs hs s = (.error err, s')) :
    (∀ h < n, s'.handle h = s.handle h ∧ s'.allocated h = s.allocated h) ∧ s'.fdTable = s.fdTable := by
  have habandon {s : Files} {vs hs : List Nat} (hhs : ∀ h ∈ hs, n ≤ h) {h : Nat} (hlt : h < n) :
      (s.abandon vs hs).allocated h = s.allocated h :=
    if_neg fun hmem => absurd (hhs h hmem) (Nat.not_le.mpr hlt)
  induction cs generalizing vs hs s with
  | nil => cases h
  | cons c cs ih =>
    obtain ⟨flags, env⟩ := c
    have hopen {h : Nat} (hlt : h < n) (f : FileHandle) (s : Files) (hle : n ≤ s.allocs) :
        (s.kmalloc f).handle h = s.handle h ∧ (s.kmalloc f).allocated h = s.allocated h := by
      have hne : h ≠ s.allocs := by omega
      exact ⟨update_of_ne hne _ _, update_of_ne hne _ _⟩
    have hlast {s : Files} (hle : n ≤ s.allocs) : ∀ h ∈ hs ++ [s.allocs], n ≤ h := by
      intro h hmem
      rcases mem_append.mp hmem with hmem | hmem
      · exact hhs h hmem
      · rw [mem_singleton.mp hmem]
        exact hle
    simp only [Files.openConsoles] at h
    split at h
    · cases h
      exact ⟨fun h hlt => ⟨rfl, habandon hhs hlt⟩, rfl⟩
    · split at h
      · cases h
        exact ⟨fun h hlt => ⟨rfl, habandon hhs hlt⟩, rfl⟩
      · split at h
        · cases h
          refine ⟨fun h hlt => ?_, rfl⟩
          obtain ⟨hhandle, halloc⟩ := hopen hlt ⟨"con:", flags, 0, 1, some s.opened⟩
            { s with opened := s.opened + 1 } hn
          exact ⟨hhandle, (habandon (hlast hn) hlt).trans halloc⟩
        · obtain ⟨hrest, htable⟩ := ih (Nat.le_succ_of_le hn) (hlast hn) h
          refine ⟨fun h hlt => ?_, htable⟩
          obtain ⟨hhandle, halloc⟩ := hopen hlt ⟨"con:", flags, 0, 1, some s.opened⟩
            { s with opened := s.opened + 1 } hn
          exact ⟨(hrest h hlt).1.trans hhandle, (hrest h hlt).2.trans halloc⟩

theorem sameFiles_initFiletable {s s' : Files} {stdin stdout stderr : Files.ConEnv}
    (h : s.initFiletable stdin stdout stderr = (.error err, s')) : SameFiles s s' := by
  rw [Files.initFiletable] at h
  split at h
  · next hopen =>
    cases h
    obtain ⟨hold, htable⟩ := openConsoles_error _ le_rfl (fun _ hmem => (not_mem_nil hmem).elim) hopen
    exact ⟨fun h hlt => congrArg _ (hold h hlt).1, fun h hlt => (hold h hlt).2, htable⟩
  · cases h

/-! ## 失敗の一覧 -/

/-- stack を取る前に失敗する。 -/
def Env.FailsEarly (env : Env) : Prop :=
  env.kmallocThread = false ∨ env.kstrdup = false ∨ env.kmallocStack = false

/-- stack は一度取られて二度返され、ほかの object は一度ずつ返される。 -/
def StackTwice (calls : List HeapCall) : Prop :=
  calls.count (.kmalloc .stack) = 1 ∧ calls.count (.kfree .stack) = 2 ∧
    ∀ o, o ≠ .stack → calls.count (.kfree o) = calls.count (.kmalloc o) ∧ calls.count (.kmalloc o) ≤ 1

instance (calls : List HeapCall) : Decidable (Settled calls) :=
  decidable_of_iff (∀ o ∈ [ForkObject.thread, .name, .stack, .process, .exitsem],
      calls.count (.kfree o) = calls.count (.kmalloc o) ∧ calls.count (.kmalloc o) ≤ 1)
    ⟨fun h o => h o (by cases o <;> decide), fun h o _ => h o⟩

instance (calls : List HeapCall) : Decidable (StackTwice calls) :=
  decidable_of_iff (calls.count (.kmalloc .stack) = 1 ∧ calls.count (.kfree .stack) = 2 ∧
      ∀ o ∈ [ForkObject.thread, .name, .process, .exitsem],
        calls.count (.kfree o) = calls.count (.kmalloc o) ∧ calls.count (.kmalloc o) ≤ 1)
    ⟨fun ⟨h₁, h₂, h⟩ => ⟨h₁, h₂, fun o ho => h o (by cases o <;> first | decide | exact absurd rfl ho)⟩,
      fun ⟨h₁, h₂, h⟩ => ⟨h₁, h₂, fun o ho => h o (by rintro rfl; revert ho; decide)⟩⟩

theorem heap_abandonStack (k : ForkKernel) :
    k.abandonStack.heap = k.heap ++ [.kfree .stack, .kfree .stack, .kfree .name, .kfree .thread] := by
  simp [abandonStack, threadDestroy, kfree]

theorem inherit_error {child : Nat} (h : k.inherit parent child env = (.error err, k')) :
    k'.procs = k.procs ∧ k'.heap = k.heap ∧ SameFiles k.files k'.files := by
  rw [inherit] at h
  split at h
  · split at h
    · cases h
      exact ⟨rfl, rfl, .refl _⟩
    · cases h
  · split at h
    · next hinit =>
      cases h
      exact ⟨rfl, rfl, sameFiles_initFiletable hinit⟩
    · cases h

theorem startProcess_error {i : Fin procMax} (hi : k.procs.processTable i = none)
    (h : k.startProcess i parent env = (.error err, k')) :
    k'.procs.processTable = k.procs.processTable ∧ SameFiles k.files k'.files ∧
      ∃ calls ∈ [[], [HeapCall.kmalloc .process, .kfree .process],
          [.kmalloc .process, .kmalloc .exitsem, .kfree .exitsem, .kfree .process]],
        k'.heap = k.heap ++ calls ++ [.kfree .stack, .kfree .stack, .kfree .name, .kfree .thread] := by
  rw [startProcess] at h
  split at h
  · next hinit =>
    cases h
    rw [initProcess] at hinit
    split at hinit
    · cases hinit
      exact ⟨rfl, .refl _, [], by simp, by simp [heap_abandonStack]⟩
    · split at hinit
      · cases hinit
        exact ⟨rfl, .refl _, _, mem_cons_of_mem _ mem_cons_self,
          by simp [heap_abandonStack, kmalloc, kfree]⟩
      · cases hinit
  · next k₁ hinit =>
    dsimp only at h
    split at h
    · next err' k₂ hinherit =>
      cases h
      obtain ⟨hprocs, hheap, hfiles⟩ := inherit_error hinherit
      rw [initProcess] at hinit
      split at hinit
      · cases hinit
      · split at hinit
        · cases hinit
        · cases hinit
          refine ⟨?_, hfiles, _, mem_cons_of_mem _ (mem_cons_of_mem _ mem_cons_self), ?_⟩
          · change update k₂.procs.processTable i none = _
            rw [hprocs]
            simp only [Procs.modify, Procs.setSlot, update_idem, kmalloc]
            rw [← hi, update_eq_self]
          · rw [heap_abandonStack, destroyProcess]
            simp [kfree, kmalloc, hheap]
    · cases h

theorem threadFork_error (h : k.threadFork parent env = some (.error err, k')) :
    k'.procs.processTable = k.procs.processTable ∧ SameFiles k.files k'.files ∧
      ∃ calls, k'.heap = k.heap ++ calls ∧
        (env.FailsEarly ∧ Settled calls ∨ ¬ env.FailsEarly ∧ StackTwice calls) := by
  rw [threadFork] at h
  split at h
  · next k₁ hcreate =>
    cases h
    rw [threadCreate] at hcreate
    split at hcreate
    · next hthread =>
      cases hcreate
      exact ⟨rfl, .refl _, [], by simp, .inl ⟨.inl hthread, by decide⟩⟩
    · split at hcreate
      · next hname =>
        cases hcreate
        exact ⟨rfl, .refl _, [.kmalloc .thread, .kfree .thread], by simp [kmalloc, kfree],
          .inl ⟨.inr (.inl hname), by decide⟩⟩
      · cases hcreate
  · next k₁ hcreate =>
    rw [threadCreate] at hcreate
    split at hcreate
    · cases hcreate
    · next hthread =>
      split at hcreate
      · cases hcreate
      · next hname =>
        cases hcreate
        split at h
        · next hstack =>
          cases h
          exact ⟨rfl, .refl _, [.kmalloc .thread, .kmalloc .name, .kfree .name, .kfree .thread],
            by simp [kmalloc, kfree, threadDestroy], .inl ⟨.inr (.inr hstack), by decide⟩⟩
        · next hstack =>
          have hlate : ¬ env.FailsEarly := by
            rintro (h | h | h) <;> contradiction
          have htaken : [HeapCall.kmalloc .thread, .kmalloc .name, .kmalloc .stack, .kfree .stack,
              .kfree .stack, .kfree .name, .kfree .thread] |> StackTwice := by decide
          dsimp only at h
          split at h
          · cases h
          · next hpid =>
            cases h
            obtain ⟨-, heq⟩ | ⟨-, -, heq⟩ | ⟨_, -, -, -, heq⟩ := Procs.pidAlloc_cases hpid <;> cases heq
            exact ⟨rfl, .refl _, _, by simp [heap_abandonStack, kmalloc], .inr ⟨hlate, htaken⟩⟩
          · next hpid =>
            cases h
            obtain ⟨-, heq⟩ | ⟨-, -, heq⟩ | ⟨_, -, -, -, heq⟩ := Procs.pidAlloc_cases hpid <;> cases heq
            exact ⟨rfl, .refl _, _, by simp [heap_abandonStack, kmalloc], .inr ⟨hlate, htaken⟩⟩
          · next i procs hpid =>
            obtain ⟨-, heq⟩ | ⟨-, -, heq⟩ | ⟨_, -, -, hi, heq⟩ := Procs.pidAlloc_cases hpid <;> cases heq
            have hstart := Option.some.inj h
            obtain ⟨htable, hfiles, calls, hcalls, hheap⟩ := startProcess_error (by exact hi) hstart
            refine ⟨htable, hfiles, [.kmalloc .thread, .kmalloc .name, .kmalloc .stack] ++ calls ++
              [.kfree .stack, .kfree .stack, .kfree .name, .kfree .thread],
                by simp [hheap, kmalloc], .inr ⟨hlate, ?_⟩⟩
            simp only [mem_cons, not_mem_nil, or_false] at hcalls
            rcases hcalls with rfl | rfl | rfl <;> decide

/-! ## 主な結果 -/

/-- **失敗した `thread_fork` が、取った object を一度ずつ返し、process の表と参照の数を元に戻すのは、stack を取る前に失敗したとき、かつそのときに限る。** -/
theorem threadFork_undone_iff (h : k.threadFork parent env = some (.error err, k')) :
    (Undone k k' ↔ env.FailsEarly) ∧ k'.procs.processTable = k.procs.processTable ∧
      SameFiles k.files k'.files := by
  obtain ⟨htable, hfiles, calls, hheap, hcalls⟩ := threadFork_error h
  refine ⟨⟨fun hundone => ?_, fun hearly => ?_⟩, htable, hfiles⟩
  · obtain ⟨calls', hheap', hsettled⟩ := hundone.once
    obtain rfl : calls = calls' := append_cancel_left (hheap.symm.trans hheap')
    rcases hcalls with ⟨hearly, -⟩ | ⟨-, htaken, htwice, -⟩
    · exact hearly
    · have := (hsettled .stack).1
      omega
  · rcases hcalls with ⟨-, hsettled⟩ | ⟨hlate, -⟩
    · exact ⟨⟨calls, hheap, hsettled⟩, htable, hfiles⟩
    · exact absurd hearly hlate

/-- heap の外の呼び出しはすべて成功する。 -/
def Env.fine : Env where
  kmallocThread := true
  kstrdup := true
  kmallocStack := true
  kmallocProcess := true
  semCreate := true
  asCopy := .ok ()
  stdin := ⟨⟨.ok (), .error .enoent, .error .enoent, .ok ()⟩, true, true⟩
  stdout := ⟨⟨.ok (), .error .enoent, .error .enoent, .ok ()⟩, true, true⟩
  stderr := ⟨⟨.ok (), .error .enoent, .error .enoent, .ok ()⟩, true, true⟩

def boot : ForkKernel := ⟨.boot, .boot, []⟩

/-- stack が取れなければ、何も残らない。 -/
theorem threadFork_undone_no_stack : ∃ k', boot.threadFork 1 { Env.fine with kmallocStack := false } =
    some (.error .enomem, k') ∧ Undone boot k' := by
  have h : boot.threadFork 1 { Env.fine with kmallocStack := false } = some (.error .enomem, _) := rfl
  exact ⟨_, h, (threadFork_undone_iff h).1.mpr (.inr (.inr rfl))⟩

/-- `as_copy` が失敗すると、stack が二度返される。 -/
theorem threadFork_frees_stack_twice : ∃ k', boot.threadFork 1 { Env.fine with asCopy := .error .enomem } =
    some (.error .enomem, k') ∧ k'.heap.count (.kmalloc .stack) = 1 ∧ k'.heap.count (.kfree .stack) = 2 ∧
      ¬ Undone boot k' := by
  have h : boot.threadFork 1 { Env.fine with asCopy := .error .enomem } = some (.error .enomem, _) := rfl
  refine ⟨_, h, by decide, by decide, fun hundone => ?_⟩
  obtain ⟨calls, hheap, hsettled⟩ := hundone.once
  have hstack := (hsettled .stack).1
  rw [← show _ = calls from hheap] at hstack
  revert hstack
  decide

/-! ## 表だけの model との一致 -/

/-- process の表だけの model に渡す結果。 -/
def Env.procEnv (env : Env) (files : Files) : Procs.ForkEnv where
  threadCreate := env.kmallocThread && env.kstrdup
  kmallocStack := env.kmallocStack
  kmallocProcess := env.kmallocProcess
  semCreate := env.semCreate
  asCopy := env.asCopy
  initFiletable := (files.initFiletable env.stdin env.stdout env.stderr).1.map fun _ => ()

/-- file の表だけの model に渡す結果。 -/
def Env.fileEnv (env : Env) (prior : Except Errno Unit) : Files.ForkEnv :=
  ⟨prior, env.asCopy, env.stdin, env.stdout, env.stderr⟩

theorem inherit_eq (k : ForkKernel) (parent child : Nat) (env : Env) :
    (k.inherit parent child env).2.procs = k.procs ∧
      ((k.inherit parent child env).1, (k.inherit parent child env).2.files) =
        k.files.threadFork parent child (env.fileEnv (.ok ())) ∧
      (k.inherit parent child env).1 =
        if (parent : Int) ≠ 0 then (env.procEnv k.files).asCopy else
        (env.procEnv k.files).initFiletable := by
  rw [inherit, Files.threadFork]
  by_cases hp : parent = 0
  · subst hp
    simp only [Env.fileEnv, Env.procEnv, ne_eq, not_true_eq_false, if_false, Nat.cast_zero]
    cases h : k.files.initFiletable env.stdin env.stdout env.stderr with
    | mk r files =>
      cases r <;> exact ⟨rfl, rfl, rfl⟩
  · have hp' : (parent : Int) ≠ 0 := by omega
    simp only [Env.fileEnv, Env.procEnv, ne_eq, hp, not_false_eq_true, if_true, hp']
    cases env.asCopy <;> exact ⟨rfl, rfl, rfl⟩

/-- file の表に触る前の `thread_fork` の結果。成功すれば子の pid である。 -/
def prior (k : ForkKernel) (env : Env) : Option (Except Errno Int) :=
  if env.kmallocThread = false ∨ env.kstrdup = false ∨ env.kmallocStack = false then
    some (.error .enomem)
  else
    match k.procs.pidAlloc with
    | none => none
    | some (.full, _) => some (.error .enproc)
    | some (.exhausted, _) => some (.error .emproc)
    | some (.slot _, procs) =>
      some (if env.kmallocProcess = false ∨ env.semCreate = false then .error .enomem
        else .ok procs.pidCounter)

/-- `prior` の結果を渡した、handle と file の表だけの model。 -/
def filesFork (k : ForkKernel) (parent : Nat) (env : Env) : Option (Except Errno Int × Files) :=
  (k.prior env).map fun pid =>
    let r := k.files.threadFork parent (pid.toOption.getD 0).toNat (env.fileEnv (pid.map fun _ => ()))
    (r.1.bind fun _ => pid, r.2)

/-- **`thread_fork` の process の表と、handle と file の表は、それぞれの表だけの model のとおりに変わる。** -/
theorem threadFork_projects (k : ForkKernel) (parent : Nat) (env : Env) :
    (k.threadFork parent env).map (fun r => (r.1, r.2.procs)) =
        k.procs.threadFork parent (env.procEnv k.files) ∧
      (k.threadFork parent env).map (fun r => (r.1, r.2.files)) = k.filesFork parent env := by
  rw [threadFork, threadCreate, Procs.threadFork, filesFork, prior]
  cases hthread : env.kmallocThread
  · exact ⟨by simp [Env.procEnv, hthread], rfl⟩
  cases hname : env.kstrdup
  · exact ⟨by simp [Env.procEnv, hthread, hname, kmalloc, kfree], rfl⟩
  have hcreate : (env.procEnv k.files).threadCreate = true := by simp [Env.procEnv, hthread, hname]
  have hstack' : (env.procEnv k.files).kmallocStack = env.kmallocStack := rfl
  simp only [hcreate, hstack', Bool.true_eq_false, if_false, kmalloc, false_or]
  cases env.kmallocStack
  · exact ⟨rfl, rfl⟩
  simp only [Bool.true_eq_false, if_false]
  cases hpid : k.procs.pidAlloc with
  | none => exact ⟨rfl, rfl⟩
  | some a =>
    obtain ⟨_ | _ | i, procs⟩ := a
    · exact ⟨rfl, rfl⟩
    · exact ⟨rfl, rfl⟩
    · have hproc : (env.procEnv k.files).kmallocProcess = env.kmallocProcess := rfl
      have hsem : (env.procEnv k.files).semCreate = env.semCreate := rfl
      simp only [Option.map_some, startProcess, initProcess, Procs.initProcess, hproc, hsem, kmalloc]
      cases env.kmallocProcess
      · exact ⟨rfl, rfl⟩
      cases env.semCreate
      · exact ⟨rfl, rfl⟩
      simp only [Bool.true_eq_false, if_false, or_self]
      generalize hk₁ : ForkKernel.mk _ k.files _ = k₁
      obtain ⟨hprocs, hfiles, hres⟩ := inherit_eq k₁ parent procs.pidCounter.toNat env
      have hfiles₁ : k₁.files = k.files := by rw [← hk₁]
      have hprocs₁ : k₁.procs = (procs.setSlot i (some ⟨0, 0, false, 0⟩)).modify i
          fun p => { p with ppid := parent, pid := procs.pidCounter } := by rw [← hk₁]
      rw [hfiles₁] at hres hfiles
      rw [← hres, ← hprocs₁, ← hprocs]
      change _ ∧ _ = some ((k.files.threadFork parent procs.pidCounter.toNat
        (env.fileEnv (.ok ()))).1.bind _, (k.files.threadFork parent procs.pidCounter.toNat
        (env.fileEnv (.ok ()))).2)
      rw [← hfiles]
      cases hinherit : k₁.inherit parent procs.pidCounter.toNat env with
      | mk r k₂ => cases r <;> exact ⟨rfl, rfl⟩

end ForkKernel

end Os161
