import MsProjects.Infra.Threads
import MsProjects.Os161.Properties.Process
import MsProjects.Os161.Syscall.Lifecycle

/-! # process の一生の不変量 -/

namespace Os161

open Infra List Function Thread Kernel

open Procs (setSlot)

open Option (ite_none_right_eq_some map_eq_some_iff some)

variable {i : Fin procMax} {a : Act} {p : Process} {t u : Nat} {x x' : Thread}

/-! ## thread の位置 -/

namespace Thread

variable {x : Thread}

theorem pc_of_inEntry (h : x.inEntry = true) : x.pc = .run := by
  simp only [inEntry, Bool.and_eq_true, decide_eq_true_eq] at h
  exact h.2

theorem pc_of_inUser (h : x.inUser = true) : x.pc = .run := by
  simp only [inUser, Bool.and_eq_true, decide_eq_true_eq] at h
  exact h.2

theorem pc_of_inMenu (h : x.inMenu = true) : x.pc = .run := by
  simp only [inMenu, Bool.and_eq_true, decide_eq_true_eq] at h
  exact h.2

theorem pc_of_mayCall (h : (x.inUser || x.inMenu) = true) : x.pc = .run :=
  (Bool.or_eq_true_iff.mp h).elim pc_of_inUser pc_of_inMenu

@[simp] theorem goto_pc (x : Thread) (pc : Pc) : (x.goto pc).pc = pc := rfl

@[simp] theorem goto_toIdent (x : Thread) (pc : Pc) : (x.goto pc).toIdent = x.toIdent := rfl

@[simp] theorem goto_goto (x : Thread) (pc pc' : Pc) : (x.goto pc).goto pc' = x.goto pc' := rfl

def terminated (x : Thread) : Bool :=
  match x.pc with
  | .zombie _ => true
  | _ => false

end Thread

namespace Kernel

variable {k k' : Kernel} {x x' : Thread}

/-! ## 一つの thread の step の場合分け -/

def put (k : Kernel) (i : Fin procMax) (p : Option Process) : Kernel :=
  { k with procs := k.procs.setSlot i p }

def record (k : Kernel) (x : Thread) (call : WaitCall) (result : Except Errno Procs.Waited) : Kernel :=
  { k with log := k.log ++ [⟨x.pid, call, result⟩] }

/-- 子の status を得る結果である。 -/
def obtains : Except Errno Procs.Waited → Bool
  | .ok w => w.status.isSome
  | .error _ => false

/-- status を得ずに返ることのある位置である。 -/
def mayRefuse : WaitPc → Bool
  | .lookup | .nullTest _ | .ppidTest _ | .exitedTest _ => true
  | _ => false

/-- 一つの thread の step の効果。 -/
inductive Exec (k : Kernel) (x : Thread) : Act → Thread → Kernel → Prop
  | enterUser : x.inEntry = true → Exec k x .enterUser { x with user := true } k
  | entryReturns : x.inEntry = true → Exec k x .entryReturns (x.goto (.threadExit none)) k
  | callFork : x.inUser = true → Exec k x .callFork (x.goto .forkP) k
  | callExit (code : Int32) : x.inUser = true → Exec k x (.callExit code) (x.goto (.exit code .vForkSem)) k
  | callWaitpid (call : WaitCall) : (x.inUser || x.inMenu) = true →
      Exec k x (.callWaitpid call) (x.goto (.wait call .lookup)) k
  | forkP : x.pc = .forkP → k.forkSem ≠ 0 →
      Exec k x .advance (x.goto .forkBody) { k with forkSem := k.forkSem - 1 }
  | forkV : x.pc = .forkV → Exec k x .advance (x.goto .run) { k with forkSem := k.forkSem + 1 }
  | vForkSem {code : Int32} : x.pc = .exit code .vForkSem →
      Exec k x .advance (x.goto (.exit code .vExecvSem)) { k with forkSem := k.forkSem + 1 }
  | vExecvSem {code : Int32} : x.pc = .exit code .vExecvSem →
      Exec k x .advance (x.goto (.exit code .setExecvSem)) { k with execvSem := k.execvSem + 1 }
  | setExecvSem {code : Int32} : x.pc = .exit code .setExecvSem →
      Exec k x .advance (x.goto (.exit code .setExitcode)) { k with execvSem := 2 }
  | setExitcode {code : Int32} {p : Process} : x.pc = .exit code .setExitcode →
      k.procs.processTable x.ptableIndex = some p → Exec k x .advance (x.goto (.exit code .setExited))
        (k.put x.ptableIndex (some { p with exitcode := code }))
  | setExited {code : Int32} {p : Process} : x.pc = .exit code .setExited →
      k.procs.processTable x.ptableIndex = some p → Exec k x .advance (x.goto (.exit code .vExitsem))
        (k.put x.ptableIndex (some { p with exited := true }))
  | vExitsem {code : Int32} {p : Process} : x.pc = .exit code .vExitsem →
      k.procs.processTable x.ptableIndex = some p → Exec k x .advance (x.goto (.threadExit (some code)))
        { k with exitsem := update k.exitsem x.ptableIndex (k.exitsem x.ptableIndex + 1) }
  | threadExit {code : Option Int32} : x.pc = .threadExit code → Exec k x .advance (x.goto (.zombie code)) k
  | refuses {call : WaitCall} {stage : WaitPc} {result : Except Errno Procs.Waited} :
      x.pc = .wait call stage → mayRefuse stage = true → obtains result = false →
      Exec k x .advance (x.goto .run) (k.record x call result)
  | lookup {call : WaitCall} {i : Fin procMax} : x.pc = .wait call .lookup →
      k.procs.getptableIndex call.pid = some i → Exec k x .advance (x.goto (.wait call (.nullTest i))) k
  | nullTest {call : WaitCall} {i : Fin procMax} : x.pc = .wait call (.nullTest i) →
      Exec k x .advance (x.goto (.wait call (.ppidTest i))) k
  | ppidTest {call : WaitCall} {i : Fin procMax} {p : Process} : x.pc = .wait call (.ppidTest i) →
      k.procs.processTable i = some p → p.ppid = x.pid →
      Exec k x .advance (x.goto (.wait call (.exitedTest i))) k
  | sawExited {call : WaitCall} {i : Fin procMax} {p : Process} : x.pc = .wait call (.exitedTest i) →
      k.procs.processTable i = some p → p.exited = true →
      Exec k x .advance (x.goto (.wait call (.readCode i))) k
  | mustWait {call : WaitCall} {i : Fin procMax} : x.pc = .wait call (.exitedTest i) →
      Exec k x .advance (x.goto (.wait call (.semP i))) k
  | semP {call : WaitCall} {i : Fin procMax} : x.pc = .wait call (.semP i) → k.exitsem i ≠ 0 →
      Exec k x .advance (x.goto (.wait call (.readCode i)))
        { k with exitsem := update k.exitsem i (k.exitsem i - 1) }
  | readCode {call : WaitCall} {i : Fin procMax} {p : Process} : x.pc = .wait call (.readCode i) →
      k.procs.processTable i = some p →
      Exec k x .advance (x.goto (.wait call (.destroy i (mkwaitExit p.exitcode)))) k
  | destroy {call : WaitCall} {i : Fin procMax} {status : Int32} {p : Process} :
      x.pc = .wait call (.destroy i status) → k.procs.processTable i = some p →
      Exec k x .advance (x.goto .run) ((k.put i none).record x call (.ok ⟨call.pid, some status⟩))

theorem write_eq_some {f : Process → Process} (h : k.write i f = some k') :
    ∃ p, k.procs.processTable i = some p ∧ k' = k.put i (some (f p)) := by
  unfold write at h
  split at h
  · cases h
  · rename_i p hp
    cases h
    exact ⟨p, hp, by simp [put, Procs.modify, hp]⟩

theorem sysExit_cases {code : Int32} {stage : ExitPc} (hpc : x.pc = .exit code stage)
    (h : k.sysExit x code stage = some (x', k')) : Exec k x .advance x' k' := by
  cases stage with
  | vForkSem =>
    cases h
    exact .vForkSem hpc
  | vExecvSem =>
    cases h
    exact .vExecvSem hpc
  | setExecvSem =>
    cases h
    exact .setExecvSem hpc
  | setExitcode =>
    obtain ⟨k₁, hk, heq⟩ := map_eq_some_iff.mp h
    cases heq
    obtain ⟨p, hp, rfl⟩ := write_eq_some hk
    exact .setExitcode hpc hp
  | setExited =>
    obtain ⟨k₁, hk, heq⟩ := map_eq_some_iff.mp h
    cases heq
    obtain ⟨p, hp, rfl⟩ := write_eq_some hk
    exact .setExited hpc hp
  | vExitsem =>
    simp only [sysExit] at h
    split at h
    · cases h
    · rename_i p hp
      cases h
      exact .vExitsem hpc hp

theorem sysWaitpid_cases {call : WaitCall} {stage : WaitPc} (hpc : x.pc = .wait call stage)
    (h : k.sysWaitpid x call stage = some (x', k')) : Exec k x .advance x' k' := by
  have hrefuses : ∀ {result}, mayRefuse stage = true → obtains result = false →
      k.returns x call result = some (x', k') → Exec k x .advance x' k' := by
    intro result hstage hresult heq
    cases heq
    exact .refuses hpc hstage hresult
  cases stage with
  | lookup =>
    simp only [sysWaitpid] at h
    split at h
    · exact hrefuses rfl rfl h
    · split at h
      · exact hrefuses rfl rfl h
      · rename_i i hi
        cases h
        exact .lookup hpc hi
  | nullTest i =>
    simp only [sysWaitpid] at h
    split at h
    · exact hrefuses rfl rfl h
    · split at h
      · exact hrefuses rfl rfl h
      · split at h
        · exact hrefuses rfl rfl h
        · cases h
          exact .nullTest hpc
  | ppidTest i =>
    simp only [sysWaitpid] at h
    split at h
    · cases h
    · rename_i p hp
      split at h
      · exact hrefuses rfl rfl h
      · rename_i hppid
        split at h
        · cases h
          exact .ppidTest hpc hp (not_not.mp hppid)
        · exact hrefuses rfl rfl h
  | exitedTest i =>
    simp only [sysWaitpid] at h
    split at h
    · cases h
    · rename_i p hp
      split at h
      · rename_i hexited
        cases h
        exact .sawExited hpc hp hexited
      · split at h
        · exact hrefuses rfl rfl h
        · cases h
          exact .mustWait hpc
  | semP i =>
    simp only [sysWaitpid] at h
    split at h
    · cases h
    · simp only [Option.ite_none_left_eq_some] at h
      obtain ⟨hpos, heq⟩ := h
      cases heq
      exact .semP hpc hpos
  | readCode i =>
    simp only [sysWaitpid] at h
    split at h
    · cases h
    · rename_i p hp
      cases h
      exact .readCode hpc hp
  | destroy i status =>
    simp only [sysWaitpid] at h
    split at h
    · cases h
    · rename_i p hp
      cases h
      exact .destroy hpc hp

theorem exec_cases (h : k.exec x a = some (x', k')) : Exec k x a x' k' := by
  cases a with
  | enterUser | entryReturns | callFork | callExit | callWaitpid =>
    simp only [exec, ite_none_right_eq_some] at h
    obtain ⟨hready, heq⟩ := h
    cases heq
    constructor
    exact hready
  | advance =>
    simp only [exec, advance] at h
    split at h
    · cases h
    · cases h
    · cases h
    · rename_i hpc
      simp only [Option.ite_none_left_eq_some] at h
      obtain ⟨hpos, heq⟩ := h
      cases heq
      exact .forkP hpc hpos
    · rename_i hpc
      cases h
      exact .forkV hpc
    · rename_i hpc
      exact sysExit_cases hpc h
    · rename_i hpc
      exact sysWaitpid_cases hpc h
    · rename_i hpc
      cases h
      exact .threadExit hpc

section

variable (h : Exec k x a x' k')

include h

theorem Exec.ident : x'.toIdent = x.toIdent := by
  cases h <;> rfl

theorem Exec.act_eq (hpc : x.pc ≠ .run) : a = .advance := by
  cases h with
  | enterUser hrun | entryReturns hrun => exact absurd (pc_of_inEntry hrun) hpc
  | callFork hrun | callExit _ hrun => exact absurd (pc_of_inUser hrun) hpc
  | callWaitpid _ hrun => exact absurd (pc_of_mayCall hrun) hpc
  | _ => rfl

theorem Exec.pidCounter : k'.procs.pidCounter = k.procs.pidCounter := by
  cases h <;> rfl

theorem Exec.inherits {q : Process} (hq : k'.procs.processTable i = some q) :
    ∃ p, k.procs.processTable i = some p ∧ q.pid = p.pid ∧ q.ppid = p.ppid := by
  cases h with
  | setExitcode _ hp | setExited _ hp =>
    by_cases hi : i = x.ptableIndex
    · subst hi
      simp only [put, setSlot, update_self, some.injEq] at hq
      subst hq
      exact ⟨_, hp, rfl, rfl⟩
    · simp only [put, setSlot, update_of_ne hi] at hq
      exact ⟨q, hq, rfl, rfl⟩
  | @destroy _ j =>
    by_cases hi : i = j
    · subst hi
      simp [put, record, setSlot] at hq
    · simp only [put, record, setSlot, update_of_ne hi] at hq
      exact ⟨q, hq, rfl, rfl⟩
  | _ => exact ⟨q, hq, rfl, rfl⟩

theorem Exec.stays (hp : k.procs.processTable i = some p) :
    (∃ q, k'.procs.processTable i = some q ∧ q.pid = p.pid ∧ q.ppid = p.ppid) ∨
      ∃ call status, x.pc = .wait call (.destroy i status) := by
  cases h with
  | setExitcode _ hown | setExited _ hown =>
    by_cases hi : i = x.ptableIndex
    · subst hi
      cases hown.symm.trans hp
      exact .inl ⟨_, update_self .., rfl, rfl⟩
    · exact .inl ⟨p, by simpa [put, setSlot, update_of_ne hi] using hp, rfl, rfl⟩
  | @destroy call j status _ hpc =>
    by_cases hi : i = j
    · subst hi
      exact .inr ⟨call, status, hpc⟩
    · exact .inl ⟨p, by simpa [put, record, setSlot, update_of_ne hi] using hp, rfl, rfl⟩
  | _ => exact .inl ⟨p, hp, rfl, rfl⟩

end

/-- `i` に新しい process を載せる。 -/
def create (k : Kernel) (i : Fin procMax) (ppid : Int) : Kernel :=
  { k with
    procs := setSlot { k.procs with pidCounter := k.procs.pidCounter + 1 } i
      (some ⟨k.procs.pidCounter + 1, ppid, false, 0⟩)
    exitsem := update k.exitsem i 0 }

end Kernel

namespace Life

variable {s s' : Life}

/-! ## 系の step の場合分け -/

def child (s : Life) (t : Nat) (i : Fin procMax) (origin : Origin) : Thread :=
  ⟨⟨s.kernel.procs.pidCounter + 1, i, some t, origin⟩, origin = .fork, .run⟩

def MayFork (x : Thread) (origin : Origin) : Prop :=
  (origin = .kernel ∧ x.inMenu = true) ∨ (origin = .fork ∧ x.pc = .forkBody)

/-- thread を作らない step である。 -/
def Op.isAct : Op → Bool
  | .act _ _ => true
  | _ => false

inductive Step (s : Life) : Op → Life → Prop
  | act {t : Nat} {a : Kernel.Act} {x x' : Thread} {k' : Kernel} : s.threads[t]? = some x →
      Kernel.Exec s.kernel x a x' k' → Step s (.act t a) ⟨k', s.threads.set t x'⟩
  | born {op : Op} {t : Nat} {x : Thread} {origin : Origin} {i : Fin procMax} : s.threads[t]? = some x →
      MayFork x origin → s.kernel.procs.processTable i = none → op.isAct = false →
      Step s op ⟨s.kernel.create i x.pid, s.threads.set t (x.goto .run) ++ [s.child t i origin]⟩
  | refused {op : Op} {t : Nat} {x : Thread} {pc : Pc} {counter : Int} : s.threads[t]? = some x →
      (x.inMenu = true ∧ pc = .run) ∨ (x.pc = .forkBody ∧ pc = .forkV) →
      s.kernel.procs.pidCounter ≤ counter → op.isAct = false →
      Step s op ⟨{ s.kernel with procs := { s.kernel.procs with pidCounter := counter } },
        s.threads.set t (x.goto pc)⟩

def LifeStep (s : Life) (op : Op) (s' : Life) : Prop := s.step op = some s'

theorem threadFork_cases {origin : Origin} {env : Procs.ForkEnv} {r : Bool × Life}
    (h : s.threadFork t x origin env = some r) :
    (∃ i, s.kernel.procs.processTable i = none ∧
      r = (true, ⟨s.kernel.create i x.pid, s.threads ++ [s.child t i origin]⟩)) ∨
    ∃ counter, s.kernel.procs.pidCounter ≤ counter ∧ r = (false,
      { s with kernel := { s.kernel with procs := { s.kernel.procs with pidCounter := counter } } }) := by
  unfold threadFork at h
  cases hfork : s.kernel.procs.threadFork x.pid env with
  | none => simp [hfork] at h
  | some f =>
    obtain ⟨result, table, counter⟩ := f
    rcases Procs.threadFork_cases hfork with ⟨-, ⟨err, herr⟩, htable, hcounter⟩ | ⟨-, i, hi, halloc, heq⟩
    · obtain rfl : result = .error err := herr
      simp only [hfork, some.injEq] at h
      obtain rfl : table = s.kernel.procs.processTable := htable
      refine .inr ⟨counter, ?_, h.symm⟩
      rcases hcounter with heq | heq <;> simp only at heq <;> omega
    · cases heq
      simp only [hfork, halloc, some.injEq] at h
      exact .inl ⟨i, hi, h.symm⟩

theorem goto_run_of_inMenu (h : x.inMenu = true) : x.goto .run = x := by
  rw [goto, ← pc_of_inMenu h]

theorem set_self {l : List Thread} (h : l[t]? = some x) : l.set t x = l := by
  obtain ⟨hlt, rfl⟩ := List.getElem?_eq_some_iff.mp h
  exact List.set_getElem_self hlt

variable {op : Op}

theorem step_cases (h : LifeStep s op s') : Step s op s' := by
  cases op with
  | act t a =>
    simp only [LifeStep, step] at h
    split at h
    · cases h
    · rename_i x hx
      obtain ⟨r, hr, rfl⟩ := map_eq_some_iff.mp h
      exact .act hx (exec_cases hr)
  | spawn t env =>
    simp only [LifeStep, step] at h
    split at h
    · cases h
    · rename_i x hx
      simp only [ite_none_right_eq_some, map_eq_some_iff] at h
      obtain ⟨hmenu, r, hr, rfl⟩ := h
      have hself : s.threads.set t (x.goto .run) = s.threads := by
        rw [goto_run_of_inMenu hmenu, set_self hx]
      rcases threadFork_cases hr with ⟨i, hi, rfl⟩ | ⟨counter, hle, rfl⟩
      · have hborn : Step s (.spawn t env) _ := .born hx (.inl ⟨rfl, hmenu⟩) hi rfl
        rw [hself] at hborn
        exact hborn
      · have hrefused : Step s (.spawn t env) _ := .refused hx (.inl ⟨hmenu, rfl⟩) hle rfl
        rw [hself] at hrefused
        exact hrefused
  | fork t kmalloc env =>
    simp only [LifeStep, step] at h
    split at h
    · cases h
    · rename_i x hx
      simp only [ite_none_right_eq_some] at h
      obtain ⟨hpc, h⟩ := h
      split at h
      · cases h
        exact .refused hx (.inr ⟨hpc, rfl⟩) le_rfl rfl
      · obtain ⟨r, hr, rfl⟩ := map_eq_some_iff.mp h
        rcases threadFork_cases hr with ⟨i, hi, rfl⟩ | ⟨counter, hle, rfl⟩
        · have hlt : t < s.threads.length := (List.getElem?_eq_some_iff.mp hx).1
          have hborn : Step s (.fork t kmalloc env) _ := .born hx (.inr ⟨rfl, hpc⟩) hi rfl
          rw [← set_append_left _ _ hlt] at hborn
          exact hborn
        · exact .refused hx (.inr ⟨hpc, rfl⟩) hle rfl

theorem boot_thread (h : boot.threads[t]? = some x) : x = ⟨⟨0, 0, none, .boot⟩, false, .run⟩ := by
  rw [boot, getElem?_singleton, ite_none_right_eq_some] at h
  exact (some.inj h.2).symm

/-! ## pid と親子 -/

/-- thread の変わらない部分を並べたもの。 -/
def ids (s : Life) : List Ident := s.threads.map toIdent

theorem ids_set {l : List Thread} (hx : l[t]? = some x) (h : x'.toIdent = x.toIdent) :
    (l.set t x').map toIdent = l.map toIdent := by
  rw [map_set, h, ← map_set, set_self hx]

theorem exists_thread {a : Ident} (h : s.ids[t]? = some a) :
    ∃ x, s.threads[t]? = some x ∧ x.toIdent = a := by
  rwa [ids, getElem?_map, map_eq_some_iff] at h

theorem ids_of_thread (h : s.threads[t]? = some x) : s.ids[t]? = some x.toIdent := by
  rw [ids, getElem?_map, h, Option.map_some]

/-- pid は thread ごとに異なり、`pid_counter` を超えない。 -/
structure Linked (s : Life) : Prop where
  nonneg : 0 ≤ s.kernel.procs.pidCounter
  le : ∀ a ∈ s.ids, a.pid ≤ s.kernel.procs.pidCounter
  nodup : (s.ids.map Ident.pid).Nodup
  owner : ∀ i p, s.kernel.procs.processTable i = some p → ∃ (t : Nat) (a : Ident) (q : Nat) (b : Ident),
    s.ids[t]? = some a ∧ a.pid = p.pid ∧ a.ptableIndex = i ∧ a.parent = some q ∧ s.ids[q]? = some b ∧
      b.pid = p.ppid
  parent : ∀ (t : Nat) (a : Ident) (q : Nat), s.ids[t]? = some a → a.parent = some q → q < t

theorem linked_boot : Linked boot where
  nonneg := le_rfl
  le a ha := by
    simp only [ids, boot, map_cons, map_nil, mem_singleton] at ha
    rw [ha]
    exact le_rfl
  nodup := nodup_singleton _
  owner _ _ h := nomatch h
  parent t a q ha hparent := by
    obtain ⟨x, hx, rfl⟩ := exists_thread ha
    rw [boot_thread hx] at hparent
    cases hparent

theorem Linked.inj (h : Linked s) {y : Thread} (hx : s.threads[t]? = some x)
    (hy : s.threads[u]? = some y) (hpid : x.pid = y.pid) : t = u := by
  have hlt : t < (s.ids.map Ident.pid).length := by
    simpa [ids] using (List.getElem?_eq_some_iff.mp hx).1
  refine (List.getElem?_inj hlt h.nodup).mp ?_
  simp [ids, hx, hy, hpid]

theorem Linked.pid_le (h : Linked s) (hx : s.threads[t]? = some x) :
    x.pid ≤ s.kernel.procs.pidCounter :=
  h.le _ (mem_of_getElem? (ids_of_thread hx))

theorem Linked.exists_owner (h : Linked s) (hp : s.kernel.procs.processTable i = some p) :
    ∃ (t : Nat) (x : Thread) (q : Nat) (y : Thread),
      s.threads[t]? = some x ∧ x.pid = p.pid ∧ x.ptableIndex = i ∧ x.parent = some q ∧
        s.threads[q]? = some y ∧ y.pid = p.ppid := by
  obtain ⟨t, a, q, b, ha, hpid, hindex, hparent, hb, hppid⟩ := h.owner i p hp
  obtain ⟨x, hx, rfl⟩ := exists_thread ha
  obtain ⟨y, hy, rfl⟩ := exists_thread hb
  exact ⟨t, x, q, y, hx, hpid, hindex, hparent, hy, hppid⟩

theorem Linked.of_pid (h : Linked s) (hx : s.threads[t]? = some x)
    (hp : s.kernel.procs.processTable i = some p) (hpid : p.pid = x.pid) :
    x.ptableIndex = i ∧ ∃ (q : Nat) (y : Thread), x.parent = some q ∧ q < t ∧ s.threads[q]? = some y ∧
      y.pid = p.ppid := by
  obtain ⟨u, z, q, y, hz, hzpid, hindex, hparent, hy, hppid⟩ := h.exists_owner hp
  obtain rfl : t = u := h.inj hx hz (hpid.symm.trans hzpid.symm)
  cases hx.symm.trans hz
  exact ⟨hindex, q, y, hparent, h.parent t _ q (ids_of_thread hx) hparent, hy, hppid⟩

theorem Linked.inherits (h : Linked s) (hids : s'.ids = s.ids)
    (hcounter : s.kernel.procs.pidCounter ≤ s'.kernel.procs.pidCounter)
    (htable : ∀ i q, s'.kernel.procs.processTable i = some q →
      ∃ p, s.kernel.procs.processTable i = some p ∧ q.pid = p.pid ∧ q.ppid = p.ppid) : Linked s' where
  nonneg := h.nonneg.trans hcounter
  le a ha := (h.le a (hids ▸ ha)).trans hcounter
  nodup := by
    rw [hids]
    exact h.nodup
  owner i q hq := by
    obtain ⟨p, hp, hpid, hppid⟩ := htable i q hq
    rw [hids, hpid, hppid]
    exact h.owner i p hp
  parent := by
    rw [hids]
    exact h.parent

theorem Linked.step (h : Linked s) (hstep : Step s op s') : Linked s' := by
  cases hstep with
  | act hx hexec =>
    exact h.inherits (ids_set hx hexec.ident) hexec.pidCounter.ge fun i q => hexec.inherits
  | refused hx _ hle _ => exact h.inherits (ids_set hx rfl) hle fun i q hq => ⟨q, hq, rfl, rfl⟩
  | @born _ t x origin i hx _ hfree _ =>
    have hids : Life.ids ⟨s.kernel.create i x.pid, s.threads.set t (x.goto .run) ++ [s.child t i origin]⟩ =
        s.ids ++ [(s.child t i origin).toIdent] := by
      have hset : (s.threads.set t (x.goto .run)).map toIdent = s.ids := ids_set hx rfl
      simp only [ids, map_append, map_cons, map_nil]
      rw [hset, ids]
    have hnonneg := h.nonneg
    have hmono : ∀ {u b}, s.ids[u]? = some b → (s.ids ++ [(s.child t i origin).toIdent])[u]? = some b :=
      fun hb => getElem?_concat_iff.mpr (.inl hb)
    refine ⟨?_, fun a ha => ?_, ?_, fun j p hp => ?_, fun u a q ha hparent => ?_⟩
    · show 0 ≤ s.kernel.procs.pidCounter + 1
      omega
    · show a.pid ≤ s.kernel.procs.pidCounter + 1
      rw [hids] at ha
      rcases mem_append.mp ha with ha | ha
      · have := h.le a ha
        omega
      · rw [mem_singleton.mp ha]
        exact le_rfl
    · rw [hids, map_append, map_cons, map_nil, ← concat_eq_append]
      refine h.nodup.concat fun hmem => ?_
      obtain ⟨a, ha, hpid⟩ := mem_map.mp hmem
      have hle := h.le a ha
      have hnew : a.pid = s.kernel.procs.pidCounter + 1 := hpid
      omega
    · rw [hids]
      by_cases hj : j = i
      · subst hj
        simp only [create, setSlot, update_self, some.injEq] at hp
        subst hp
        exact ⟨s.ids.length, _, t, x.toIdent, getElem?_concat_iff.mpr (.inr ⟨rfl, rfl⟩), rfl, rfl, rfl,
          hmono (ids_of_thread hx), rfl⟩
      · simp only [create, setSlot, update_of_ne hj] at hp
        obtain ⟨u, a, q, b, ha, hpid, hindex, hparent, hb, hppid⟩ := h.owner j p hp
        exact ⟨u, a, q, b, hmono ha, hpid, hindex, hparent, hmono hb, hppid⟩
    · rw [hids] at ha
      rcases getElem?_concat_iff.mp ha with ha | ⟨rfl, rfl⟩
      · exact h.parent u a q ha hparent
      · cases hparent
        simpa [ids] using (List.getElem?_eq_some_iff.mp hx).1

theorem exists_before {z : Thread} (hx : s.threads[t]? = some x) (hident : x'.toIdent = x.toIdent)
    (hz : (s.threads.set t x')[u]? = some z) :
    ∃ w, s.threads[u]? = some w ∧ z.toIdent = w.toIdent := by
  rcases (getElem?_set_iff hx).mp hz with ⟨rfl, rfl⟩ | ⟨-, hz⟩
  · exact ⟨x, hx, hident⟩
  · exact ⟨z, hz, rfl⟩

theorem Step.survives (hstep : Step s op s') (hx : s.threads[t]? = some x) :
    ∃ x', s'.threads[t]? = some x' ∧ x'.toIdent = x.toIdent := by
  have hset : ∀ {u : Nat} {y : Thread} (y' : Thread), s.threads[u]? = some y → y'.toIdent = y.toIdent →
      ∃ x', (s.threads.set u y')[t]? = some x' ∧ x'.toIdent = x.toIdent := by
    intro u y y' hy hident
    by_cases ht : t = u
    · subst ht
      cases hx.symm.trans hy
      exact ⟨y', (getElem?_set_iff hy).mpr (.inl ⟨rfl, rfl⟩), hident⟩
    · exact ⟨x, (getElem?_set_iff hy).mpr (.inr ⟨ht, hx⟩), rfl⟩
  cases hstep with
  | act hy hexec => exact hset _ hy hexec.ident
  | @born _ u y _ _ hy =>
    obtain ⟨x', hx', hident⟩ := hset (y.goto .run) hy rfl
    exact ⟨x', getElem?_concat_iff.mpr (.inl hx'), hident⟩
  | @refused _ u y pc _ hy => exact hset (y.goto pc) hy rfl

/-! ## 待っている親 -/

/-- `ppid` の検査の前に、引数と `ptable_index` を持っている。 -/
def checking : Pc → Option (WaitCall × Fin procMax)
  | .wait call (.nullTest i) | .wait call (.ppidTest i) => some (call, i)
  | _ => none

/-- `ppid` の検査の後で、引数と `ptable_index` を持っている。 -/
def accepted : Pc → Option (WaitCall × Fin procMax)
  | .wait call (.exitedTest i) | .wait call (.semP i) | .wait call (.readCode i)
  | .wait call (.destroy i _) =>
    some (call, i)
  | _ => none

/-- `sys_waitpid` の途中の thread が知っていること。 -/
structure WaitOk (table : Fin procMax → Option Process) (x : Thread) : Prop where
  before : ∀ call i, checking x.pc = some (call, i) →
    ∀ p, table i = some p → p.ppid = x.pid → p.pid = call.pid
  after : ∀ call i, accepted x.pc = some (call, i) → ∃ p, table i = some p ∧ p.ppid = x.pid ∧
    p.pid = call.pid

def Waiting (s : Life) : Prop :=
  ∀ (t : Nat) (x : Thread), s.threads[t]? = some x → WaitOk s.kernel.procs.processTable x

theorem waitOk_of_outside {table : Fin procMax → Option Process} (hbefore : checking x.pc = none)
    (hafter : accepted x.pc = none) : WaitOk table x :=
  ⟨fun _ _ h => by simp [hbefore] at h, fun _ _ h => by simp [hafter] at h⟩

theorem WaitOk.transport {table table' : Fin procMax → Option Process} (h : WaitOk table x)
    (hinherits : ∀ i q, table' i = some q → q.ppid = x.pid → ∃ p, table i = some p ∧ q.pid = p.pid ∧
      q.ppid = p.ppid)
    (hstays : ∀ i p, table i = some p → p.ppid = x.pid → ∃ q, table' i = some q ∧ q.pid = p.pid ∧
      q.ppid = p.ppid) :
    WaitOk table' x := by
  refine ⟨fun call i hpc q hq hppid => ?_, fun call i hpc => ?_⟩
  · obtain ⟨p, hp, hpid, hppid'⟩ := hinherits i q hq hppid
    rw [hpid]
    exact h.before call i hpc p hp (hppid'.symm.trans hppid)
  · obtain ⟨p, hp, hppid, hpid⟩ := h.after call i hpc
    obtain ⟨q, hq, hpid', hppid'⟩ := hstays i p hp hppid
    exact ⟨q, hq, hppid'.trans hppid, hpid'.trans hpid⟩

theorem exists_of_getptableIndex {procs : Procs} {pid : Int} (h : procs.getptableIndex pid = some i) :
    ∃ p, procs.processTable i = some p ∧ p.pid = pid := by
  have hsome := find?_some h
  simpa [Option.any_eq_true] using hsome

theorem WaitOk.exec {k k' : Kernel} {a : Kernel.Act} (h : WaitOk k.procs.processTable x)
    (hexec : Kernel.Exec k x a x' k') : WaitOk k'.procs.processTable x' := by
  cases hexec with
  | lookup hpc hi =>
    refine ⟨fun call i heq p hp _ => ?_, fun _ _ heq => (nomatch heq)⟩
    simp only [goto, checking, some.injEq, Prod.mk.injEq] at heq
    obtain ⟨rfl, rfl⟩ := heq
    obtain ⟨p', hp', hpid⟩ := exists_of_getptableIndex hi
    cases hp.symm.trans hp'
    exact hpid
  | nullTest hpc =>
    refine ⟨fun call i heq p hp hppid => h.before call i ?_ p hp hppid, fun _ _ heq => (nomatch heq)⟩
    rw [hpc]
    exact heq
  | @ppidTest call i p hpc hp hppid =>
    refine ⟨fun _ _ heq => (nomatch heq), fun call' i' heq => ?_⟩
    simp only [goto, accepted, some.injEq, Prod.mk.injEq] at heq
    obtain ⟨rfl, rfl⟩ := heq
    exact ⟨p, hp, hppid, h.before call i (by rw [hpc]; rfl) p hp hppid⟩
  | sawExited hpc _ _ | mustWait hpc | semP hpc _ | readCode hpc _ =>
    refine ⟨fun _ _ heq => (nomatch heq), fun call i heq => h.after call i ?_⟩
    rw [hpc]
    exact heq
  | enterUser hentry =>
    simp only [inEntry, Bool.and_eq_true, decide_eq_true_eq] at hentry
    exact waitOk_of_outside (by simp [hentry.2, checking]) (by simp [hentry.2, accepted])
  | _ => exact waitOk_of_outside rfl rfl

theorem Waiting.step (h : Waiting s) (hlinked : Linked s) (hstep : Step s op s') : Waiting s' := by
  cases hstep with
  | @act t a x x' k' hx hexec =>
    intro u y hy
    rcases (getElem?_set_iff hx).mp hy with ⟨-, rfl⟩ | ⟨hne, hy⟩
    · exact (h t x hx).exec hexec
    · refine (h u y hy).transport (fun i q hq _ => hexec.inherits hq) fun i p hp hppid => ?_
      rcases hexec.stays hp with hstays | ⟨call, status, hpc⟩
      · exact hstays
      · -- slot を空にするのは、そこに載った子の親だけである。
        obtain ⟨q, hq, hppid', -⟩ := (h t x hx).after call i (by rw [hpc]; rfl)
        cases hp.symm.trans hq
        exact absurd (hlinked.inj hy hx (hppid.symm.trans hppid')) hne
  | @born _ t x origin i hx hmay hfree _ =>
    have hother : ∀ {j}, j ≠ i → (s.kernel.create i x.pid).procs.processTable j =
        s.kernel.procs.processTable j := fun hj => update_of_ne hj _ _
    intro u y hy
    rcases getElem?_concat_iff.mp hy with hset | ⟨-, rfl⟩
    · rcases (getElem?_set_iff hx).mp hset with ⟨-, rfl⟩ | ⟨hne, hold⟩
      · exact waitOk_of_outside rfl rfl
      · refine (h u y hold).transport (fun j q hq hppid => ?_) fun j p hp _ => ?_
        · by_cases hj : j = i
          · subst hj
            simp only [create, setSlot, update_self, some.injEq] at hq
            subst hq
            exact absurd (hlinked.inj hx hold hppid).symm hne
          · rw [hother hj] at hq
            exact ⟨q, hq, rfl, rfl⟩
        · have hj : j ≠ i := by
            rintro rfl
            simp [hfree] at hp
          exact ⟨p, (hother hj).trans hp, rfl, rfl⟩
    · exact waitOk_of_outside rfl rfl
  | @refused _ t x pc counter hx hpc _ _ =>
    intro u y hy
    rcases (getElem?_set_iff hx).mp hy with ⟨-, rfl⟩ | ⟨hne, hy⟩
    · rcases hpc with ⟨-, rfl⟩ | ⟨-, rfl⟩ <;> exact waitOk_of_outside rfl rfl
    · exact h u y hy

/-- どの列でも成り立つ不変量。 -/
structure Base (s : Life) : Prop where
  linked : Linked s
  waiting : Waiting s

theorem base_boot : Base boot where
  linked := linked_boot
  waiting t x hx := by
    rw [boot_thread hx]
    exact waitOk_of_outside rfl rfl

theorem Base.step (h : Base s) (hstep : Step s op s') : Base s' :=
  ⟨h.linked.step hstep, h.waiting.step h.linked hstep⟩

/-! ## thread の slot -/

/-- 自分の slot に載っている。 -/
def Holds (s : Life) (x : Thread) : Prop :=
  ∃ p, s.kernel.procs.processTable x.ptableIndex = some p ∧ p.pid = x.pid

instance (s : Life) (x : Thread) : Decidable (s.Holds x) :=
  decidable_of_iff ((s.kernel.procs.processTable x.ptableIndex).any (fun p => p.pid = x.pid) = true) (by
    simp [Holds, Option.any_eq_true])

theorem holds_congr {y : Thread} (h : x.toIdent = y.toIdent) : s.Holds x ↔ s.Holds y := by
  simp only [Holds, h]

theorem Linked.create_apply (h : Linked s) (hx : s.threads[t]? = some x) {ppid : Int}
    (hp : (s.kernel.create i ppid).procs.processTable x.ptableIndex = some p) (hpid : p.pid = x.pid) :
    x.ptableIndex ≠ i ∧ s.kernel.procs.processTable x.ptableIndex = some p := by
  have hne : x.ptableIndex ≠ i := by
    intro heq
    have hle := h.pid_le hx
    simp only [create, setSlot, heq, update_self, some.injEq] at hp
    rw [← hp] at hpid
    have hnew : s.kernel.procs.pidCounter + 1 = x.pid := hpid
    omega
  refine ⟨hne, ?_⟩
  simpa only [create, setSlot, update_of_ne hne] using hp

/-! ## thread を作る step -/

/-- `sys__exit` にも `sys_waitpid` にも入っていない。 -/
def idle : Pc → Bool
  | .run | .forkP | .forkBody | .forkV => true
  | _ => false

/-- 作られたばかりの thread である。 -/
structure Fresh (s s' : Life) (z : Thread) : Prop where
  pid : s.kernel.procs.pidCounter < z.pid
  parent : ∃ (t : Nat) (x : Thread), z.parent = some t ∧ s.threads[t]? = some x ∧ idle x.pc = true
  exitsem : s'.kernel.exitsem z.ptableIndex = 0
  slot : ∃ ppid, s'.kernel.procs.processTable z.ptableIndex = some ⟨z.pid, ppid, false, 0⟩

/-- 前からある slot と `log` を変えず、`sys__exit` や `sys_waitpid` の途中の thread にも関わらない。 -/
structure Quiet (s s' : Life) : Prop where
  get : ∀ {u : Nat} {z : Thread}, s'.threads[u]? = some z → s.threads[u]? = some z ∨ (idle z.pc = true ∧
    ((∃ w, s.threads[u]? = some w ∧ z.toIdent = w.toIdent ∧ idle w.pc = true) ∨ Fresh s s' z))
  keeps : ∀ {u : Nat} {z : Thread}, s.threads[u]? = some z → idle z.pc = false → s'.threads[u]? = some z
  slot : ∀ {u : Nat} {z : Thread} {p : Process}, s.threads[u]? = some z →
    s'.kernel.procs.processTable z.ptableIndex = some p → p.pid = z.pid →
      s.kernel.procs.processTable z.ptableIndex = some p ∧
        s'.kernel.exitsem z.ptableIndex = s.kernel.exitsem z.ptableIndex
  occupied : ∀ {i : Fin procMax} {p : Process}, s.kernel.procs.processTable i = some p →
    s'.kernel.procs.processTable i = some p
  log : s'.kernel.log = s.kernel.log

theorem Quiet.idle_or_old (h : Quiet s s') {z : Thread} (hz : s'.threads[u]? = some z) :
    idle z.pc = true ∨ s.threads[u]? = some z :=
  (h.get hz).symm.imp_left And.left

theorem idle_of_mayFork {origin : Origin} (h : MayFork x origin) : idle x.pc = true := by
  rcases h with ⟨-, hmenu⟩ | ⟨-, hpc⟩
  · rw [pc_of_inMenu hmenu]
    rfl
  · rw [hpc]
    rfl

theorem Step.quiet (hstep : Step s op s') (hlinked : Linked s) (hop : op.isAct = false) : Quiet s s' := by
  have hne : ∀ {t u : Nat} {x z : Thread}, s.threads[t]? = some x → idle x.pc = true →
      s.threads[u]? = some z → idle z.pc = false → u ≠ t := by
    rintro t u x z hx hidle hz hbusy rfl
    cases hx.symm.trans hz
    simp [hidle] at hbusy
  cases hstep with
  | act => cases hop
  | @born _ t x origin i hx hmay hfree _ =>
    have hidle := idle_of_mayFork hmay
    refine ⟨fun {u z} hz => ?_, fun {u z} hz hbusy => ?_, fun {u z p} hz hp hpid => ?_,
      fun {j p} hp => ?_, rfl⟩
    · rcases getElem?_concat_iff.mp hz with hz | ⟨-, rfl⟩
      · rcases (getElem?_set_iff hx).mp hz with ⟨rfl, rfl⟩ | ⟨-, hz⟩
        · exact .inr ⟨rfl, .inl ⟨x, hx, rfl, hidle⟩⟩
        · exact .inl hz
      · refine .inr ⟨rfl, .inr ⟨?_, ⟨t, x, rfl, hx, hidle⟩, ?_, x.pid, ?_⟩⟩
        · show s.kernel.procs.pidCounter < s.kernel.procs.pidCounter + 1
          omega
        · exact update_self ..
        · exact update_self ..
    · exact getElem?_concat_iff.mpr (.inl ((getElem?_set_iff hx).mpr (.inr ⟨hne hx hidle hz hbusy, hz⟩)))
    · obtain ⟨hi, hp⟩ := hlinked.create_apply hz hp hpid
      exact ⟨hp, by simp [create, update_of_ne hi]⟩
    · have hj : j ≠ i := by
        rintro rfl
        simp [hfree] at hp
      simpa [create, setSlot, update_of_ne hj] using hp
  | @refused _ t x pc counter hx hpc _ _ =>
    have hidle : idle x.pc = true ∧ idle pc = true := by
      rcases hpc with ⟨hmenu, rfl⟩ | ⟨hpc, rfl⟩
      · exact ⟨by rw [pc_of_inMenu hmenu]; rfl, rfl⟩
      · exact ⟨by rw [hpc]; rfl, rfl⟩
    refine ⟨fun {u z} hz => ?_, fun {u z} hz hbusy => ?_, fun hz hp hpid => ⟨hp, rfl⟩, fun hp => hp, rfl⟩
    · rcases (getElem?_set_iff hx).mp hz with ⟨rfl, rfl⟩ | ⟨-, hz⟩
      · exact .inr ⟨hidle.2, .inl ⟨x, hx, rfl, hidle.1⟩⟩
      · exact .inl hz
    · exact (getElem?_set_iff hx).mpr (.inr ⟨hne hx hidle.1 hz hbusy, hz⟩)

theorem Step.act_or_quiet (hstep : Step s op s') (hlinked : Linked s) :
    (∃ t a x x' k', op = .act t a ∧ s.threads[t]? = some x ∧ Kernel.Exec s.kernel x a x' k' ∧
      s' = ⟨k', s.threads.set t x'⟩) ∨ Quiet s s' := by
  cases hop : op.isAct with
  | false => exact .inr (hstep.quiet hlinked hop)
  | true =>
    cases hstep with
    | act hx hexec => exact .inl ⟨_, _, _, _, _, rfl, hx, hexec, rfl⟩
    | born _ _ _ hop' | refused _ _ _ hop' => simp [hop'] at hop

/-! ## 次の文を実行する step の条件 -/

/-- thread `t` が次の文を実行する step なら、`P t` が成り立つ。 -/
def Op.OnAdvance (P : Nat → Prop) : Op → Prop
  | .act t .advance => P t
  | _ => True

instance (P : Nat → Prop) [DecidablePred P] (op : Op) : Decidable (op.OnAdvance P) := by
  unfold Op.OnAdvance
  split <;> infer_instance

/-- 何も失敗しない `thread_fork`。 -/
def plentiful : Procs.ForkEnv := ⟨true, true, true, true, .ok (), .ok ()⟩

/-- program が `sys__exit` の文を `n` 個進めたところで、menu がその status を得るまで。 -/
def exitThenWait (n : Nat) : List Op :=
  [.spawn 0 plentiful, .act 1 .enterUser, .act 1 (.callExit 7)] ++
    List.replicate n (.act 1 .advance) ++
    .act 0 (.callWaitpid ⟨1, 0x80001000, 0⟩) :: List.replicate 6 (.act 0 .advance)

end Life

end Os161

