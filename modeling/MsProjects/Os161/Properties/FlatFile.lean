import MsProjects.Os161.Properties.SfsIo

/-! # SFS の file は平らな byte の列である -/

namespace Os161.Sfs

open List Function

open Infra (Run slice overwrite)

variable {x : Xfer} {f : File} {writes : List Xfer}

/-! ## 書き込みの列 -/

/-- `sfs_io` で最大の長さまでの範囲に書く要求。 -/
structure IsWrite (x : Xfer) : Prop where
  rw : x.uio.rw = .write
  fits : x.uio.Fits
  pos : 1 ≤ x.uio.resid
  range : x.uio.offset + x.uio.resid ≤ 143 * 512

def data (x : Xfer) : List UInt8 := ((addrs x.uio.iov).take x.uio.resid).map x.mem

def endpos (x : Xfer) : Nat := x.uio.offset + x.uio.resid

def Covers (p : Nat) (x : Xfer) : Prop := x.uio.offset ≤ p ∧ p < endpos x

instance (p : Nat) (x : Xfer) : Decidable (Covers p x) := inferInstanceAs (Decidable (_ ∧ _))

/-- 最も先の、書いた範囲の終わり。 -/
def lastEnd (writes : List Xfer) : Nat := (writes.map endpos).foldl max 0

/-- 位置 `p` に最後に書いた byte。 -/
def lastWritten (writes : List Xfer) (p : Nat) : UInt8 :=
  (writes.reverse.find? fun x => Covers p x).elim 0 fun x => (data x).getD (p - x.uio.offset) 0

def writeStep (f : File) (x : Xfer) : Option File :=
  match io ⟨f, x.uio, x.mem⟩ with
  | some (.ok _, t) => some t.toFile
  | _ => none

theorem IsWrite.length_data (h : IsWrite x) : (data x).length = x.uio.resid := by
  rw [data, length_map, length_take, Nat.min_eq_left h.fits.resid]

theorem writeStep_eq_some {g : File} (h : writeStep f x = some g) :
    ∃ t, io ⟨f, x.uio, x.mem⟩ = some (.ok (), t) ∧ t.toFile = g := by
  rw [writeStep] at h
  split at h
  · rename_i t ht
    cases h
    exact ⟨t, ht, rfl⟩
  · cases h

theorem lastEnd_concat (writes : List Xfer) (x : Xfer) :
    lastEnd (writes ++ [x]) = max (lastEnd writes) (endpos x) := by
  simp only [lastEnd, map_append, map_cons, map_nil, foldl_append, foldl_cons, foldl_nil]

theorem lastWritten_concat (writes : List Xfer) (hx : IsWrite x) (p : Nat) :
    lastWritten (writes ++ [x]) p = overwrite (lastWritten writes) x.uio.offset (data x) p := by
  rw [lastWritten, reverse_concat, find?_cons, overwrite, hx.length_data]
  by_cases hcover : Covers p x
  · rw [decide_eq_true hcover]
    exact (if_pos hcover).symm
  · rw [decide_eq_false hcover]
    exact (if_neg hcover).symm

/-! ## 一回の書き込み -/

/-- file は書き込みの列を行ったものである。 -/
structure Refines (f : File) (writes : List Xfer) : Prop where
  ok : f.Ok
  size : f.inode.size = lastEnd writes
  byte : ∀ p, f.byte p = lastWritten writes p
  bound : lastEnd writes ≤ 143 * 512

theorem refines_empty {v : Vol} (hv : v.Ok) {inode : Inode} {dirty : Bool} (hsize : inode.size = 0)
    (hdirect : ∀ i, inode.direct i = 0) (hindirect : inode.indirect = 0) :
    Refines ⟨v, inode, dirty⟩ [] := by
  have hblock : ∀ pl, File.block ⟨v, inode, dirty⟩ pl = 0 := by
    intro pl
    cases pl with
    | direct i => exact hdirect i
    | indirect => exact hindirect
    | listed j => exact if_pos hindirect
  have hnone : ∀ b, ¬ File.Uses ⟨v, inode, dirty⟩ b := by
    rintro b ⟨hne, pl, rfl⟩
    exact hne (hblock pl)
  refine ⟨⟨hv, fun b hb => absurd hb (hnone b), fun b hb => absurd hb (hnone b),
    fun pl _ _ hne => absurd (hblock pl) hne⟩, hsize, fun p => ?_, Nat.zero_le _⟩
  have hat : File.blockAt ⟨v, inode, dirty⟩ (p / 512) = 0 := by
    rw [File.blockAt]
    cases placeAt (p / 512) with
    | none => rfl
    | some pl => exact hblock pl
  rw [File.byte, if_pos hat]
  rfl

theorem Refines.write {t : Io} (h : Refines f writes) (hx : IsWrite x)
    (hio : io ⟨f, x.uio, x.mem⟩ = some (.ok (), t)) :
    Refines t.toFile (writes ++ [x]) ∧ t.uio.offset = x.uio.offset + x.uio.resid ∧ t.uio.resid = 0 := by
  have hrange := hx.range
  obtain ⟨u, hp, rfl⟩ := (io_write_post (s := ⟨f, x.uio, x.mem⟩) h.ok hx.fits hx.rw).of_ok hio
  have hoffset : u.uio.offset = x.uio.offset + x.uio.resid := hp.offset
  have hresid : u.uio.resid + x.uio.resid = x.uio.resid := hp.resid
  have hurw : u.uio.rw = .write := hp.rw.trans hx.rw
  have husize : u.inode.size = lastEnd writes := hp.size.trans h.size
  have hwrote := (hp.write hx.rw).2 (by dsimp only; omega)
  have hbound := h.bound
  refine ⟨⟨(evolves_finish hp.evolves.ok).ok, ?_, fun p => ?_, ?_⟩, ?_, ?_⟩
  · rw [finish_size hurw, lastEnd_concat, endpos, husize, hoffset]
    split
    · rw [Nat.mod_eq_of_lt (by omega)]
      omega
    · omega
  · have hbyte : f.byte = lastWritten writes := funext h.byte
    rw [finish_byte, hwrote.byte, lastWritten_concat _ hx, hbyte]
    rfl
  · rw [lastEnd_concat, endpos]
    omega
  · rw [finish_uio]
    exact hoffset
  · rw [finish_uio]
    dsimp only
    omega

/-! ## 書き込みの列 -/

theorem Refines.run {g : File} {tr : List (Infra.Transition File Xfer)} (h : Refines f writes)
    (hrun : Run (fun p x q => writeStep p x = some q) f tr g) (hwrites : ∀ x ∈ tr, IsWrite x.label) :
    Refines g (writes ++ tr.map fun x => x.label) ∧
      ∀ x ∈ tr, ∃ t, io ⟨x.pre, x.label.uio, x.label.mem⟩ = some (.ok (), t) ∧ t.toFile = x.post ∧
        t.uio.offset = x.label.uio.offset + x.label.uio.resid ∧ t.uio.resid = 0 := by
  induction hrun generalizing writes with
  | nil => exact ⟨by simpa using h, by simp⟩
  | @cons p q r x tr hstep _ ih =>
    obtain ⟨t, hio, rfl⟩ := writeStep_eq_some hstep
    obtain ⟨hq, hoffset, hresid⟩ := h.write (hwrites _ mem_cons_self) hio
    obtain ⟨hg, hall⟩ := ih hq fun y hy => hwrites y (mem_cons_of_mem _ hy)
    refine ⟨by simpa using hg, fun y hy => ?_⟩
    rcases mem_cons.mp hy with rfl | hy
    · exact ⟨t, hio, rfl, hoffset, hresid⟩
    · exact hall y hy

/-- 読み込みが `m` byte の `bytes` を転送した。 -/
structure Delivers (uio : Uio) (mem : Nat → UInt8) (bytes : List UInt8) (t : Io) : Prop where
  offset : t.uio.offset = uio.offset + bytes.length
  resid : t.uio.resid + bytes.length = uio.resid
  addrs : addrs t.uio.iov = (Os161.addrs uio.iov).drop bytes.length
  mem : t.mem = scatter mem ((Os161.addrs uio.iov).take bytes.length) bytes

theorem Refines.read (h : Refines f writes) {uio : Uio} (mem : Nat → UInt8) (hrw : uio.rw = .read)
    (hfits : uio.Fits) :
    ∃ t, io ⟨f, uio, mem⟩ = some (.ok (), t) ∧ t.toFile = f ∧
      Delivers uio mem (slice (lastWritten writes) uio.offset
        (min uio.resid (lastEnd writes - uio.offset))) t := by
  have hpost := io_read_post (s := ⟨f, uio, mem⟩) h.ok hfits hrw
  have hbyte : f.byte = lastWritten writes := funext h.byte
  have hbound := h.bound
  obtain ⟨r, t, hio⟩ := hpost.exists
  cases r with
  | error e =>
    -- 大きさの中に、番号の大きすぎる block は無い
    obtain ⟨-, -, p, -, hlt, hbig⟩ := hpost.of_error hio
    dsimp only at hlt
    rw [h.size] at hlt
    omega
  | ok _ =>
    obtain ⟨hp, hsame⟩ := hpost.of_ok hio
    dsimp only at hp hsame
    rw [h.size] at hp hsame
    obtain ⟨hfile, hmem⟩ := hp.read hrw
    refine ⟨t, hio, hfile, ?_, ?_, ?_, ?_⟩
    · rw [Infra.length_slice]
      exact hp.offset
    · rw [Infra.length_slice]
      exact hp.resid
    · rw [Infra.length_slice]
      exact hp.addrs
    · rw [Infra.length_slice, ← hbyte]
      by_cases hend : uio.offset < lastEnd writes
      · exact hmem (by dsimp only; omega)
      · rw [hsame (by omega), show min uio.resid (lastEnd writes - uio.offset) = 0 by omega]
        simp [scatter]

/-- **空の file に書いた後に読むと、file の終わりまでの、最後に書かれた byte が返る。** -/
theorem read_returns_last_written {v : Vol} {inode : Inode} {dirty : Bool} {f : File}
    {tr : List (Infra.Transition File Xfer)} (hv : v.Ok) (hsize : inode.size = 0)
    (hdirect : ∀ i, inode.direct i = 0) (hindirect : inode.indirect = 0)
    (hrun : Run (fun p x q => writeStep p x = some q) ⟨v, inode, dirty⟩ tr f)
    (hwrites : ∀ x ∈ tr, IsWrite x.label) :
    (∀ x ∈ tr, ∃ t, io ⟨x.pre, x.label.uio, x.label.mem⟩ = some (.ok (), t) ∧ t.toFile = x.post ∧
        t.uio.offset = x.label.uio.offset + x.label.uio.resid ∧ t.uio.resid = 0) ∧
      ∀ uio mem, uio.rw = .read → uio.Fits →
        ∃ t, io ⟨f, uio, mem⟩ = some (.ok (), t) ∧ t.toFile = f ∧
          Delivers uio mem (slice (lastWritten (tr.map fun x => x.label)) uio.offset
            (min uio.resid (lastEnd (tr.map fun x => x.label) - uio.offset))) t := by
  have hempty : Refines ⟨v, inode, dirty⟩ [] := refines_empty hv hsize hdirect hindirect
  obtain ⟨hf, htr⟩ := hempty.run hrun hwrites
  rw [nil_append] at hf
  exact ⟨htr, fun uio mem hrw hfits => hf.read mem hrw hfits⟩

/-- 重なる二つの書き込みと、穴の先の、indirect block を使う書き込み。 -/
def overlapping : List Xfer :=
  [⟨uioKinit 0 3 1 .write, fun a => .ofNat (a + 1)⟩, ⟨uioKinit 0 2 2 .write, fun _ => 9⟩,
    ⟨uioKinit 0 1 7680 .write, fun _ => 7⟩]

/-- 書き込みの後の読み込み。 -/
theorem read_returns_last_written_overlapping :
    ∃ v f t, domount (mksfs 8 fun _ => .zero) = .ok v ∧
      overlapping.foldlM writeStep ⟨v, ⟨0, typeFile, 1, fun _ => 0, 0⟩, false⟩ = some f ∧
      io ⟨f, uioKinit 0 8 0 .read, fun _ => 255⟩ = some (.ok (), t) ∧ t.uio.offset = 8 ∧ t.uio.resid = 0 ∧
      (range 8).map t.mem = [0, 1, 9, 9, 0, 0, 0, 0] := by
  obtain ⟨v, hmount, hv, -, -, -⟩ := domount_mksfs (n := 8) (by decide) (by decide) fun _ => .zero
  have hfacts : ((domount (mksfs 8 fun _ => .zero)).toOption.bind fun v =>
      (overlapping.foldlM writeStep ⟨v, ⟨0, typeFile, 1, fun _ => 0, 0⟩, false⟩).map fun f =>
        f.inode.size) =
        some 7681 := by decide +kernel
  rw [hmount] at hfacts
  obtain ⟨f, hf, -⟩ := Option.map_eq_some_iff.mp hfacts
  have hwrites : ∀ x ∈ overlapping, IsWrite x := by
    intro x hx
    have hparts : ∀ x ∈ overlapping, x.uio.rw = .write ∧ x.uio.resid ≤ (addrs x.uio.iov).length ∧
        x.uio.resid < 2 ^ 32 ∧ 1 ≤ x.uio.resid ∧ x.uio.offset + x.uio.resid ≤ 143 * 512 := by decide
    obtain ⟨hrw, hresid, hbound, hpos, hrange⟩ := hparts x hx
    exact ⟨hrw, ⟨hresid, hbound⟩, hpos, hrange⟩
  obtain ⟨hrun, hlabels⟩ := Infra.Run.of_foldlM hf
  obtain ⟨-, hread⟩ := read_returns_last_written hv rfl (fun _ => rfl) rfl hrun
    (Infra.Run.forall_label hlabels hwrites)
  obtain ⟨t, hio, -, hdelivers⟩ := hread (uioKinit 0 8 0 .read) (fun _ => 255) rfl ⟨by decide, by decide⟩
  rw [hlabels] at hdelivers
  refine ⟨v, f, t, hmount, hf, hio, ?_, ?_, ?_⟩
  · rw [hdelivers.offset]
    decide
  · have hresid := hdelivers.resid
    rw [Infra.length_slice] at hresid
    exact Nat.add_right_cancel (hresid.trans (by decide : 8 = 0 + _))
  · rw [hdelivers.mem]
    decide +kernel

end Os161.Sfs
