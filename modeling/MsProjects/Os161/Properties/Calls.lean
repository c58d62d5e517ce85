import MsProjects.Os161.Properties.Lifecycle

/-! # 単独で走る system call -/

namespace Os161

open Infra List Function

namespace Life

variable {s s' : Life} {q : Nat} {y y' : Thread} {k' : Kernel} {call : WaitCall} {i : Fin procMax}
  {p : Process}
  {procs' : Procs} {result : Except Errno Procs.Waited}

/-- `q` だけが進んで `s` から `s'` になる。 -/
def Alone (q : Nat) (s s' : Life) : Prop :=
  ∃ n, (replicate n (Op.act q .advance)).foldlM step s = some s'

theorem Alone.refl (q : Nat) (s : Life) : Alone q s s := ⟨0, rfl⟩

theorem getElem?_set_goto {pc : Pc} (hy : s.threads[q]? = some y) :
    (s.threads.set q (y.goto pc))[q]? = some (y.goto pc) :=
  (getElem?_set_iff hy).mpr (.inl ⟨rfl, rfl⟩)

theorem Alone.trans {s'' : Life} (h : Alone q s s') (h' : Alone q s' s'') : Alone q s s'' := by
  obtain ⟨n, hn⟩ := h
  obtain ⟨m, hm⟩ := h'
  refine ⟨n + m, ?_⟩
  rw [replicate_add, foldlM_append, hn]
  exact hm

theorem alone_advance (hy : s.threads[q]? = some y) (hadvance : s.kernel.advance y = some (y', k')) :
    Alone q s ⟨k', s.threads.set q y'⟩ :=
  ⟨1, by simp [step, hy, Kernel.exec, hadvance]⟩

theorem Alone.next {k : Kernel} {pc pc' : Pc} (h : Alone q s ⟨k, s.threads.set q (y.goto pc)⟩)
    (hy : s.threads[q]? = some y) (hadvance : k.advance (y.goto pc) = some (y.goto pc', k')) :
    Alone q s ⟨k', s.threads.set q (y.goto pc')⟩ := by
  have hstep := alone_advance (s := ⟨k, s.threads.set q (y.goto pc)⟩) (getElem?_set_goto hy) hadvance
  rw [set_set] at hstep
  exact h.trans hstep

/-! ## `sys_waitpid` -/

/-- 待つ thread が `pc` に移った状態。 -/
def moved (s : Life) (q : Nat) (y : Thread) (pc : Pc) : Life := ⟨s.kernel, s.threads.set q (y.goto pc)⟩

/-- `sys_waitpid` が `result` を返した後の状態。 -/
def returned (s : Life) (q : Nat) (y : Thread) (call : WaitCall) (result : Except Errno Procs.Waited)
    (procs : Procs) : Life :=
  ⟨{ s.kernel with procs := procs }.record y call result, s.threads.set q (y.goto .run)⟩

theorem Alone.move {pc : Pc} (pc' : Pc) (h : Alone q s (s.moved q y pc)) (hy : s.threads[q]? = some y)
    (hadvance : s.kernel.advance (y.goto pc) = some (y.goto pc', s.kernel)) : Alone q s (s.moved q y pc') :=
  Alone.next h hy hadvance

theorem Alone.returns {pc : Pc} (h : Alone q s (s.moved q y pc)) (hy : s.threads[q]? = some y)
    (hadvance : s.kernel.advance (y.goto pc) = { s.kernel with procs := procs' }.returns y call result) :
    Alone q s (s.returned q y call result procs') :=
  Alone.next h hy hadvance

theorem alone_here {pc : Pc} (hy : s.threads[q]? = some y) (hpc : y.pc = pc) :
    Alone q s (s.moved q y pc) := by
  have hself : s.moved q y pc = s := by
    rw [moved, ← hpc, show y.goto y.pc = y from rfl, set_self hy]
  rw [hself]
  exact .refl q s

theorem Alone.reap {k : Kernel} (h : Alone q s ⟨k, s.threads.set q (y.goto (.wait call (.readCode i)))⟩)
    (hy : s.threads[q]? = some y) (hp : k.procs.processTable i = some p) :
    Alone q s ⟨{ k with procs := (k.procs.reap call.pid i p).2 }.record y call
      (k.procs.reap call.pid i p).1,
      s.threads.set q (y.goto .run)⟩ := by
  have hread : k.advance (y.goto (.wait call (.readCode i))) =
      some (y.goto (.wait call (.destroy i (mkwaitExit p.exitcode))), k) := by
    simp [Kernel.advance, Kernel.sysWaitpid, hp]
  refine (h.next hy hread).next hy ?_
  simp [Kernel.advance, Kernel.sysWaitpid, hp, Procs.reap, Kernel.returns, Kernel.record]

/-- `sys_waitpid` が `r` のとおりに終わる。 -/
def Answers (s : Life) (q : Nat) (y : Thread) (call : WaitCall) :
    Option (Except Errno Procs.Waited × Procs) → Prop
  | some (result, procs) => Alone q s (s.returned q y call result procs)
  | none => ∃ i p, s.kernel.procs.processTable i = some p ∧ p.exited = false ∧
      Alone q s (s.moved q y (.wait call (.semP i)))

theorem Alone.answers (h : Alone q s (s.moved q y (.wait call (.exitedTest i))))
    (hy : s.threads[q]? = some y)
    (hp : s.kernel.procs.processTable i = some p) :
    Answers s q y call (if p.exited = true then some (s.kernel.procs.reap call.pid i p)
      else if call.options = wnohang then some (.ok ⟨0, none⟩, s.kernel.procs) else none) := by
  split
  · rename_i hexited
    refine Alone.reap (h.move (.wait call (.readCode i)) hy ?_) hy hp
    simp [Kernel.advance, Kernel.sysWaitpid, hp, hexited]
  rename_i hexited
  split
  · rename_i hoptions
    refine h.returns hy ?_
    simp [Kernel.advance, Kernel.sysWaitpid, hp, hexited, hoptions, Kernel.returns]
  · rename_i hoptions
    refine ⟨i, p, hp, Bool.eq_false_iff.mpr hexited, h.move (.wait call (.semP i)) hy ?_⟩
    simp [Kernel.advance, Kernel.sysWaitpid, hp, hexited, hoptions]

/-- **`sys_waitpid` は、呼び出した thread だけが進めば、`Procs.sysWaitpid` のとおりに終わる。** -/
theorem waitpid_alone (hy : s.threads[q]? = some y) (hpc : y.pc = .wait call .lookup) :
    Answers s q y call (s.kernel.procs.sysWaitpid y.pid call.pid call.status call.options) := by
  have hlookup := alone_here hy hpc
  unfold Procs.sysWaitpid
  split
  · rename_i hrange
    exact hlookup.returns hy (by simp [Kernel.advance, Kernel.sysWaitpid, hrange, Kernel.returns])
  rename_i hrange
  split
  · rename_i hindex
    exact hlookup.returns hy (by simp [Kernel.advance, Kernel.sysWaitpid, hrange, hindex, Kernel.returns])
  rename_i i hindex
  have hnull := hlookup.move (.wait call (.nullTest i)) hy
    (by simp [Kernel.advance, Kernel.sysWaitpid, hrange, hindex])
  split
  · rename_i hnone
    exact hnull.returns hy (by simp [Kernel.advance, Kernel.sysWaitpid, hnone, Kernel.returns])
  rename_i p hp
  split
  · rename_i hstatus
    exact hnull.returns hy (by simp [Kernel.advance, Kernel.sysWaitpid, hp, hstatus, Kernel.returns])
  rename_i hstatus
  -- `user` の検査は `y` の pid を見るので、`goto` をほどかずに進める。
  have huserTest : s.kernel.advance (y.goto (.wait call (.nullTest i))) =
      if y.pid ≠ 0 ∧ userspacetop ≤ call.status then s.kernel.returns y call (.error .efault)
      else some (y.goto (.wait call (.ppidTest i)), s.kernel) := by
    simp only [Kernel.advance, Thread.goto_pc, Thread.goto_goto, Kernel.sysWaitpid, hp, Option.isNone_some,
      Bool.false_eq_true, if_false, if_neg hstatus]
    rfl
  split
  · rename_i huser
    exact hnull.returns hy (by rw [huserTest, if_pos huser])
  rename_i huser
  have hppidTest := hnull.move (.wait call (.ppidTest i)) hy (by rw [huserTest, if_neg huser])
  split
  · rename_i hppid
    exact hppidTest.returns hy (by simp [Kernel.advance, Kernel.sysWaitpid, hp, hppid, Kernel.returns])
  rename_i hppid
  have hexited : call.options = wnohang ∨ call.options = 0 →
      Alone q s (s.moved q y (.wait call (.exitedTest i))) := by
    intro hoptions
    refine hppidTest.move (.wait call (.exitedTest i)) hy ?_
    simp [Kernel.advance, Kernel.sysWaitpid, hp, not_not.mp hppid, hoptions]
  split
  · rename_i hoptions
    have hanswers := (hexited (.inl hoptions)).answers hy hp
    rw [if_pos hoptions] at hanswers
    cases hflag : p.exited <;> simpa [hflag] using hanswers
  rename_i hwnohang
  split
  · rename_i hoptions
    have hanswers := (hexited (.inr hoptions)).answers hy hp
    rw [if_neg hwnohang] at hanswers
    cases hflag : p.exited <;> simpa [hflag] using hanswers
  · rename_i hoptions
    refine hppidTest.returns hy ?_
    simp [Kernel.advance, Kernel.sysWaitpid, hp, not_not.mp hppid, hwnohang, hoptions, Kernel.returns]

end Life

end Os161
