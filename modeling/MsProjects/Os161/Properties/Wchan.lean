import MsProjects.Infra.Threads
import MsProjects.Os161.Thread.Synch

/-! # wait channel の整合 -/

namespace Os161

open Infra List Function

variable {T : Type*}

namespace Wchan

variable {wc wc' : Wchan T} {asleep asleep' locking locking' : T → Prop} {t : T} {x : Option T}

/-- `asleep` は眠っている thread、`locking` は `wc_lock` を取って眠る手前の thread である。 -/
structure Ok (wc : Wchan T) (asleep locking : T → Prop) : Prop where
  mem : ∀ u, u ∈ wc.wcThreads ↔ asleep u
  nodup : wc.wcThreads.Nodup
  lock : ∀ u, wc.wcLock = some u ↔ locking u

theorem ok_create (ha : ∀ u, ¬ asleep u) (hl : ∀ u, ¬ locking u) :
    (create : Wchan T).Ok asleep locking where
  mem u := by simp [create, ha u]
  nodup := nodup_nil
  lock u := by simp [create, hl u]

theorem Ok.congr (h : wc.Ok asleep locking) (ha : ∀ u, asleep' u ↔ asleep u)
    (hl : ∀ u, locking' u ↔ locking u) : wc.Ok asleep' locking' where
  mem u := (h.mem u).trans (ha u).symm
  nodup := h.nodup
  lock u := (h.lock u).trans (hl u).symm

theorem Ok.not_locking (h : wc.Ok asleep locking) (hfree : wc.wcLock.isSome = false) (u : T) :
    ¬ locking u := by
  intro hu
  rw [(h.lock u).mpr hu] at hfree
  cases hfree

/-! ## 操作 -/

theorem lock_eq_some (h : wc.lock t = some wc') :
    wc.wcLock.isSome = false ∧ wc' = { wc with wcLock := some t } := by
  unfold lock at h
  split at h
  · cases h
  · rename_i hfree
    exact ⟨Bool.eq_false_iff.mpr hfree, (Option.some.inj h).symm⟩

theorem wakeone_eq_some (h : wc.wakeone = some (x, wc')) :
    wc.wcLock.isSome = false ∧ x = wc.wcThreads.head? ∧
      wc' = { wc with wcThreads := wc.wcThreads.tail } := by
  unfold wakeone at h
  split at h
  · cases h
  · rename_i hfree
    cases h
    exact ⟨Bool.eq_false_iff.mpr hfree, rfl, rfl⟩

theorem wakeall_eq_some {targets : List T} (h : wc.wakeall = some (targets, wc')) :
    wc.wcLock.isSome = false ∧ targets = wc.wcThreads ∧ wc' = { wc with wcThreads := [] } := by
  unfold wakeall at h
  split at h
  · cases h
  · rename_i hfree
    cases h
    exact ⟨Bool.eq_false_iff.mpr hfree, rfl, rfl⟩

section

variable (h : wc.Ok asleep locking)

include h

theorem Ok.wchanLock (hlock : wc.lock t = some wc') (ha : ∀ u, asleep' u ↔ asleep u)
    (hl : ∀ u, locking' u ↔ u = t) : wc'.Ok asleep' locking' := by
  obtain ⟨-, rfl⟩ := lock_eq_some hlock
  refine ⟨fun u => (h.mem u).trans (ha u).symm, h.nodup, fun u => ?_⟩
  rw [hl u, Option.some.injEq]
  exact eq_comm

theorem Ok.wchanSleep (ht : ¬ asleep t) (ha : ∀ u, asleep' u ↔ asleep u ∨ u = t)
    (hl : ∀ u, ¬ locking' u) :
    (wc.sleep t).Ok asleep' locking' where
  mem u := by simp [sleep, h.mem u, ha u]
  nodup := by
    have hnot : t ∉ wc.wcThreads := fun hmem => ht ((h.mem t).mp hmem)
    simpa [sleep] using h.nodup.append (nodup_singleton t) (by simpa using hnot)
  lock u := by simp [sleep, hl u]

theorem Ok.wchanWakeone (hwake : wc.wakeone = some (x, wc'))
    (ha : ∀ u, asleep' u ↔ asleep u ∧ x ≠ some u) (hl : ∀ u, locking' u ↔ locking u) :
    wc'.Ok asleep' locking' := by
  obtain ⟨-, rfl, rfl⟩ := wakeone_eq_some hwake
  have hnodup := h.nodup
  have hmem := h.mem
  refine ⟨fun u => ?_, hnodup.tail, fun u => (h.lock u).trans (hl u).symm⟩
  rw [ha u, ← hmem u]
  cases hq : wc.wcThreads with
  | nil => simp
  | cons v q =>
    rw [hq] at hnodup
    have hv : v ∉ q := (nodup_cons.mp hnodup).1
    simp only [tail_cons, mem_cons, head?_cons, ne_eq, Option.some.injEq]
    constructor
    · intro hu
      exact ⟨.inr hu, fun hvu => hv (hvu ▸ hu)⟩
    · rintro ⟨hu | hu, hne⟩
      · exact absurd hu.symm hne
      · exact hu

theorem Ok.asleep_of_wakeone (hwake : wc.wakeone = some (some t, wc')) : asleep t := by
  obtain ⟨-, hhead, -⟩ := wakeone_eq_some hwake
  exact (h.mem t).mp (mem_of_head? hhead.symm)

theorem Ok.woken_ne (hwake : wc.wakeone = some (x, wc')) (ht : ¬ asleep t) : x ≠ some t := by
  rintro rfl
  exact ht (h.asleep_of_wakeone hwake)

theorem Ok.not_asleep_of_wakeone (hwake : wc.wakeone = some (none, wc')) (u : T) : ¬ asleep u := by
  obtain ⟨-, hhead, -⟩ := wakeone_eq_some hwake
  intro hu
  have hmem := (h.mem u).mpr hu
  rw [head?_eq_none_iff.mp hhead.symm] at hmem
  cases hmem

end

end Wchan

/-! ## thread の位置で表した整合 -/

section Place

variable [DecidableEq T] {π : Type*} {pc : T → π} {x : Option T} {y : π}

theorem wake_of_ne {u : T} (h : x ≠ some u) : wake pc x y u = pc u := by
  cases x with
  | none => rfl
  | some v => exact update_of_ne (fun huv => h (by rw [huv])) _ _

theorem wake_self (u : T) : wake pc (some u) y u = y := update_self _ _ _

variable {t : T} {a b : π}

theorem update_wake_eq_iff (hxt : x ≠ some t) (hpc : pc t ≠ y) (ha : a ≠ y) (hb : b ≠ y) (u : T) :
    update (wake pc x a) t b u = y ↔ pc u = y ∧ x ≠ some u := by
  rw [update_eq_iff (by rwa [wake_of_ne hxt]) hb]
  by_cases hxu : x = some u
  · subst hxu
    simp [wake_self, ha]
  · rw [wake_of_ne hxu]
    simp [hxu]

theorem update_wake_ne {lock : Option T} (hspin : ∀ u, lock = some u ↔ pc u = y) (hpc : pc t = y)
    (ha : a ≠ y) (hb : b ≠ y) (u : T) : update (wake pc x a) t b u ≠ y := by
  intro hu
  obtain ⟨hu, hne⟩ := (update_eq_iff_and hb u).mp hu
  by_cases hxu : x = some u
  · subst hxu
    exact ha ((wake_self u).symm.trans hu)
  · rw [wake_of_ne hxu] at hu
    exact hne (Option.some.inj (((hspin u).mpr hu).symm.trans ((hspin t).mpr hpc)))

namespace Wchan

variable {wc wc' : Wchan T} {asleep locking : π}

/-- `asleep` で眠り、`locking` で `wc_lock` を持つ。 -/
abbrev OkAt (wc : Wchan T) (pc : T → π) (asleep locking : π) : Prop :=
  wc.Ok (fun u => pc u = asleep) (fun u => pc u = locking)

section

variable (h : wc.OkAt pc asleep locking)

include h

theorem OkAt.move (hold : pc t ≠ asleep ∧ pc t ≠ locking) (hnew : b ≠ asleep ∧ b ≠ locking) :
    wc.OkAt (update pc t b) asleep locking :=
  h.congr (update_eq_iff hold.1 hnew.1) (update_eq_iff hold.2 hnew.2)

theorem OkAt.lockAt (hlock : wc.lock t = some wc') (hpc : pc t ≠ asleep) (hne : locking ≠ asleep) :
    wc'.OkAt (update pc t locking) asleep locking := by
  have hfree := h.not_locking (lock_eq_some hlock).1
  refine h.wchanLock hlock (update_eq_iff hpc hne) fun u => ?_
  exact (update_eq_iff_or u).trans (or_iff_right (hfree u))

theorem OkAt.sleepAt (hpc : pc t = locking) (hne : locking ≠ asleep) :
    (wc.sleep t).OkAt (update pc t asleep) asleep locking := by
  refine h.wchanSleep (by rwa [hpc]) update_eq_iff_or fun u hu => ?_
  obtain ⟨hu, hut⟩ := (update_eq_iff_and hne.symm u).mp hu
  -- `wc_lock` を持つのは一人だけである。
  exact hut (Option.some.inj (((h.lock u).mpr hu).symm.trans ((h.lock t).mpr hpc)))

theorem OkAt.wakeoneAt (hwake : wc.wakeone = some (x, wc')) (hpc : pc t ≠ asleep ∧ pc t ≠ locking)
    (ha : a ≠ asleep ∧ a ≠ locking) (hb : b ≠ asleep ∧ b ≠ locking) :
    wc'.OkAt (update (wake pc x a) t b) asleep locking := by
  have hxt := h.woken_ne hwake hpc.1
  refine h.wchanWakeone hwake (update_wake_eq_iff hxt hpc.1 ha.1 hb.1) fun u => ?_
  rw [update_wake_eq_iff hxt hpc.2 ha.2 hb.2]
  exact and_iff_left_of_imp fun hu => absurd hu (h.not_locking (wakeone_eq_some hwake).1 u)

theorem OkAt.asleep_of_update_wake (hwake : wc.wakeone = some (x, wc'))
    (hpc : pc t ≠ asleep ∧ pc t ≠ locking) (ha : a ≠ asleep ∧ a ≠ locking)
    (hb : b ≠ asleep ∧ b ≠ locking) {u : T}
    (hu : update (wake pc x a) t b u = asleep ∨ update (wake pc x a) t b u = locking) :
    pc u = asleep := by
  have hxt := h.woken_ne hwake hpc.1
  rw [update_wake_eq_iff hxt hpc.1 ha.1 hb.1, update_wake_eq_iff hxt hpc.2 ha.2 hb.2] at hu
  rcases hu with hu | hu
  · exact hu.1
  · exact absurd hu.1 (h.not_locking (wakeone_eq_some hwake).1 u)

end

end Wchan

end Place

end Os161

