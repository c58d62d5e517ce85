import MsProjects.Os161.Lib.Uio

/-! # uio の転送の仕様 -/

namespace Os161

open List Function Infra.Comp

open Infra (Comp)

/-- iovec の指す番地を並べる。 -/
def addrs (iov : List Iovec) : List Nat := iov.flatMap fun v => range' v.base v.len

@[simp] theorem addrs_nil : addrs [] = [] := rfl

@[simp] theorem addrs_cons (v : Iovec) (iov : List Iovec) :
    addrs (v :: iov) = range' v.base v.len ++ addrs iov := rfl

theorem scatter_append {mem : Nat → UInt8} {as as' : List Nat} {bs bs' : List UInt8}
    (h : as.length = bs.length) :
    scatter mem (as ++ as') (bs ++ bs') = scatter (scatter mem as bs) as' bs' := by
  induction as generalizing mem bs with
  | nil =>
    obtain rfl := length_eq_zero_iff.mp h.symm
    simp [scatter]
  | cons a as ih =>
    cases bs with
    | nil => cases h
    | cons b bs => exact ih (Nat.succ.inj h)

/-- 残りは iovec の長さに収まり、32 bit の数である。 -/
structure Uio.Fits (u : Uio) : Prop where
  resid : u.resid ≤ (addrs u.iov).length
  bound : u.resid < 2 ^ 32

/-- `ptr` の長さだけ転送した。 -/
structure Moved (x x' : Xfer) (ptr out : List UInt8) : Prop where
  addrs : addrs x'.uio.iov = (Os161.addrs x.uio.iov).drop ptr.length
  resid : x'.uio.resid + ptr.length = x.uio.resid
  offset : x'.uio.offset = x.uio.offset + ptr.length
  rw : x'.uio.rw = x.uio.rw
  length : out.length = ptr.length
  read : x.uio.rw = .read → out = ptr ∧ x'.mem = scatter x.mem ((Os161.addrs x.uio.iov).take ptr.length) ptr
  write : x.uio.rw = .write → out = ((Os161.addrs x.uio.iov).take ptr.length).map x.mem ∧ x'.mem = x.mem

namespace Moved

variable {x x' x'' : Xfer} {p o p' o' : List UInt8}

theorem nil (x : Xfer) : Moved x x [] [] :=
  ⟨rfl, rfl, rfl, rfl, rfl, fun _ => ⟨rfl, by simp [scatter]⟩, fun _ => ⟨rfl, rfl⟩⟩

theorem fits (h : Moved x x' p o) (hx : x.uio.Fits) : x'.uio.Fits := by
  have hresid := h.resid
  have hfits := hx.resid
  have hbound := hx.bound
  refine ⟨?_, by omega⟩
  rw [h.addrs, length_drop]
  omega

theorem trans (h : Moved x x' p o) (h' : Moved x' x'' p' o') (hx : x.uio.Fits) :
    Moved x x'' (p ++ p') (o ++ o') := by
  have hresid := h.resid
  have hresid' := h'.resid
  have hfits := hx.resid
  have hlen : ((Os161.addrs x.uio.iov).take p.length).length = p.length := by
    rw [length_take]
    omega
  refine ⟨?_, ?_, ?_, h'.rw.trans h.rw, ?_, ?_, ?_⟩
  · rw [h'.addrs, h.addrs, drop_drop, length_append]
  · rw [length_append]
    omega
  · rw [h'.offset, h.offset, length_append, Nat.add_assoc]
  · rw [length_append, length_append, h.length, h'.length]
  · intro hrw
    obtain ⟨rfl, hmem⟩ := h.read hrw
    obtain ⟨rfl, hmem'⟩ := h'.read (h.rw.trans hrw)
    refine ⟨rfl, ?_⟩
    rw [hmem', hmem, h.addrs, length_append, take_add, scatter_append hlen]
  · intro hrw
    obtain ⟨rfl, hmem⟩ := h.write hrw
    obtain ⟨rfl, hmem'⟩ := h'.write (h.rw.trans hrw)
    refine ⟨?_, hmem'.trans hmem⟩
    rw [hmem, h.addrs, length_append, take_add, map_append]

end Moved

theorem moved_first {x : Xfer} {v : Iovec} {rest : List Iovec} {ptr : List UInt8} {size : Nat}
    (hiov : x.uio.iov = v :: rest) (hsize : size ≤ v.len) (hptr : size = ptr.length)
    (hresid : size ≤ x.uio.resid) (hbound : x.uio.resid < 2 ^ 32) :
    Moved x
      { uio := { x.uio with
          iov := ⟨v.base + size, v.len - size⟩ :: rest
          resid := (x.uio.resid + 2 ^ 32 - size) % 2 ^ 32
          offset := x.uio.offset + size }
        mem := if x.uio.rw = .read then scatter x.mem (range' v.base size) ptr else x.mem }
      ptr (if x.uio.rw = .read then ptr else (range' v.base size).map x.mem) := by
  have hsplit : range' v.base v.len =
      range' v.base size ++ range' (v.base + size) (v.len - size) := by
    rw [range'_append_1, Nat.add_sub_cancel' hsize]
  have htake : (addrs x.uio.iov).take ptr.length = range' v.base size := by
    rw [hiov, addrs_cons, hsplit, append_assoc, ← hptr, take_left' (by simp)]
  refine ⟨?_, ?_, ?_, rfl, ?_, ?_, ?_⟩
  · dsimp only
    rw [hiov, addrs_cons, addrs_cons, hsplit, append_assoc, ← hptr, drop_left' (by simp)]
  · dsimp only
    omega
  · rw [hptr]
  · split <;> simp [hptr]
  · intro hrw
    rw [if_pos hrw, if_pos hrw, htake]
    exact ⟨rfl, rfl⟩
  · intro hrw
    have hne : ¬ x.uio.rw = .read := by simp [hrw]
    rw [if_neg hne, if_neg hne, htake]
    exact ⟨rfl, rfl⟩

theorem Moved.skip {x x' : Xfer} {v : Iovec} {rest : List Iovec} {ptr out : List UInt8}
    (hiov : x.uio.iov = v :: rest) (hlen : v.len = 0)
    (h : Moved { x with uio := { x.uio with iov := rest } } x' ptr out) : Moved x x' ptr out := by
  have haddrs : Os161.addrs x.uio.iov = Os161.addrs rest := by
    rw [hiov, addrs_cons, hlen]
    rfl
  refine ⟨?_, h.resid, h.offset, h.rw, h.length, ?_, ?_⟩
  · rw [haddrs]
    exact h.addrs
  · rw [haddrs]
    exact h.read
  · rw [haddrs]
    exact h.write

theorem uiomoveLoop_post {fuel : Nat} {ptr : List UInt8} {x : Xfer} (hfits : x.uio.Fits)
    (hptr : ptr.length ≤ x.uio.resid) (hfuel : ptr.length + x.uio.iov.length < fuel) :
    Comp.Post (uiomoveLoop fuel ptr) x (fun out x' => Moved x x' ptr out) fun _ _ => False := by
  induction fuel generalizing ptr x with
  | zero => exact absurd hfuel (by omega)
  | succ fuel ih =>
    have hresid := hfits.resid
    have hbound := hfits.bound
    rw [uiomoveLoop, post_bind, post_get, post_ite]
    refine ⟨fun hdone => ?_, fun hmore => ?_⟩
    · obtain rfl : ptr = [] := length_eq_zero_iff.mp (by omega)
      rw [post_pure]
      exact Moved.nil x
    · rw [not_or] at hmore
      cases hiov : x.uio.iov with
      | nil =>
        rw [hiov, addrs_nil, length_nil] at hresid
        omega
      | cons v rest =>
        rw [hiov, addrs_cons, length_append, length_range'] at hresid
        rw [hiov, length_cons] at hfuel
        dsimp only
        rw [post_ite]
        refine ⟨fun hzero => ?_, fun hpos => ?_⟩
        · have hlen : v.len = 0 := by omega
          rw [post_bind, post_assert]
          refine ⟨?_, ?_⟩
          · rintro rfl
            rw [addrs_nil, length_nil] at hresid
            omega
          · rw [post_bind, post_set]
            refine (ih (x := { x with uio := { x.uio with iov := rest } }) ⟨?_, hbound⟩ hptr ?_).imp
              fun out x' h => h.skip hiov hlen
            · dsimp only
              omega
            · dsimp only
              omega
        · -- 一つの iovec に入るだけ送り、残りを続ける
          have hlen : (ptr.take (min v.len ptr.length)).length = min v.len ptr.length := by
            rw [length_take]
            omega
          have hmoved := moved_first hiov (Nat.min_le_left _ _) hlen.symm (by omega) hbound
          rw [post_bind, post_set, post_bind]
          refine (ih (hmoved.fits hfits) ?_ ?_).imp fun out x' h => ?_
          · have := hmoved.resid
            rw [length_drop]
            omega
          · dsimp only
            rw [length_drop, length_cons]
            omega
          · have htrans := hmoved.trans h hfits
            rw [take_append_drop] at htrans
            rw [post_pure]
            exact htrans

theorem uiomove_post {ptr : List UInt8} {x : Xfer} (hfits : x.uio.Fits) (hptr : ptr.length ≤ x.uio.resid) :
    Comp.Post (uiomove ptr) x (fun out x' => Moved x x' ptr out) fun _ _ => False := by
  rw [uiomove, post_bind, post_get]
  exact uiomoveLoop_post hfits hptr (Nat.lt_succ_self _)

theorem zerosLoop_post {fuel n : Nat} {x : Xfer} (hfits : x.uio.Fits) (hn : n ≤ x.uio.resid)
    (hfuel : n < fuel) :
    Comp.Post (zerosLoop fuel n) x (fun _ x' => ∃ out, Moved x x' (replicate n 0) out)
      fun _ _ => False := by
  induction fuel generalizing n x with
  | zero => exact absurd hfuel (by omega)
  | succ fuel ih =>
    rw [zerosLoop, post_ite]
    refine ⟨fun hzero => ?_, fun hpos => ?_⟩
    · subst hzero
      rw [post_pure]
      exact ⟨[], Moved.nil x⟩
    · rw [post_bind]
      refine (uiomove_post hfits (by rw [length_replicate]; omega)).imp fun out x' hmoved => ?_
      have hresid := hmoved.resid
      rw [length_replicate] at hresid
      refine (ih (hmoved.fits hfits) (by omega) (by omega)).imp fun _ x'' hrest => ?_
      obtain ⟨out', hrest⟩ := hrest
      have htrans := hmoved.trans hrest hfits
      rw [replicate_append_replicate, Nat.add_sub_cancel' (Nat.min_le_right _ _)] at htrans
      exact ⟨_, htrans⟩

theorem uiomovezeros_post {n : Nat} {x : Xfer} (hfits : x.uio.Fits) (hn : n ≤ x.uio.resid)
    (hread : x.uio.rw = .read) :
    Comp.Post (uiomovezeros n) x (fun _ x' => ∃ out, Moved x x' (replicate n 0) out)
      fun _ _ => False := by
  rw [uiomovezeros, post_bind, post_get, post_bind, post_assert]
  exact ⟨hread, zerosLoop_post hfits hn (Nat.lt_succ_self n)⟩

end Os161
