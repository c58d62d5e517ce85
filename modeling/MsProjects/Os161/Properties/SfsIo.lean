import MsProjects.Infra.Slice
import MsProjects.Os161.Properties.Bmap
import MsProjects.Os161.Properties.Uio

/-! # `sfs_io` の仕様 -/

namespace Os161.Sfs

open List Function Block Infra.Comp

open Infra (Comp slice overwrite)

variable {b fb n : Nat} {s t : Io} {e : Errno} {x : Xfer} {ptr out : List UInt8}

/-! ## 一つの block -/

theorem splice_apply {b : Block} {skip : Nat} {w : List UInt8} (hlen : skip + w.length ≤ 512) {j : Nat}
    (hj : j < 512) :
    ofBytes (b.bytes.take skip ++ w ++ b.bytes.drop (skip + w.length)) ⟨j, hj⟩ =
      if skip ≤ j ∧ j < skip + w.length then w.getD (j - skip) 0 else b ⟨j, hj⟩ := by
  have htake : (b.bytes.take skip).length = skip := by
    rw [length_take, length_bytes]
    omega
  have hold : ∀ {k : Nat} (hk : k < 512), b.bytes.getD k 0 = b ⟨k, hk⟩ := fun hk => by
    rw [getD_eq_getElem?_getD, bytes_getElem? b hk, Option.getD_some]
  show getD _ j 0 = _
  by_cases hbefore : j < skip
  · rw [if_neg (by omega), append_assoc, getD_append _ _ _ _ (by omega),
      getD_eq_getElem?_getD, getElem?_take, if_pos hbefore, ← getD_eq_getElem?_getD, hold hj]
  · by_cases hin : j < skip + w.length
    · rw [if_pos ⟨by omega, hin⟩, getD_append _ _ _ _ (by rw [length_append]; omega),
        getD_append_right _ _ _ _ (by omega), htake]
    · rw [if_neg (by omega), getD_append_right _ _ _ _ (by rw [length_append]; omega),
        length_append, htake, getD_eq_getElem?_getD, getElem?_drop,
        Nat.add_sub_cancel' (by omega), ← getD_eq_getElem?_getD, hold hj]

namespace File

variable {f g : File}

/-- file の `fb` 番目の block の中身。 -/
def blockOf (f : File) (fb : Nat) : Block := if f.blockAt fb = 0 then .zero else f.vol.disk (f.blockAt fb)

theorem byte_eq (f : File) (p : Nat) :
    f.byte p = f.blockOf (p / 512) ⟨p % 512, Nat.mod_lt _ (by decide)⟩ := by
  rw [byte, blockOf]
  split <;> rfl

theorem blockOf_apply (f : File) (fb : Nat) {j : Nat} (hj : j < 512) :
    f.blockOf fb ⟨j, hj⟩ = f.byte (512 * fb + j) := by
  have hdiv : (512 * fb + j) / 512 = fb := by omega
  have hmod : (512 * fb + j) % 512 = j := by omega
  rw [byte_eq]
  simp only [hdiv, hmod]

theorem window_eq_slice (f : File) (fb skip len : Nat) (hlen : skip + len ≤ 512) :
    ((f.blockOf fb).bytes.drop skip).take len = slice f.byte (512 * fb + skip) len := by
  refine ext_getElem? fun i => ?_
  rw [getElem?_take]
  split
  · rename_i hi
    rw [getElem?_drop, bytes_getElem? _ (by omega), slice, getElem?_map,
      getElem?_range hi, Option.map_some, blockOf_apply, Nat.add_assoc]
  · rename_i hi
    rw [getElem?_eq_none (by rw [Infra.length_slice]; omega)]

/-- 一つの block を書き換える。 -/
def writeAt (f : File) (b : Nat) (data : Block) : File :=
  { f with vol := { f.vol with disk := update f.vol.disk b data } }

section

variable (hf : f.Ok) (hb : f.blockAt fb ≠ 0)

include hf hb

theorem Ok.block_writeAt (data : Block) (pl : Place) :
    (f.writeAt (f.blockAt fb) data).block pl = f.block pl := by
  cases pl with
  | direct i | indirect => rfl
  | listed j =>
    exact block_listed_congr rfl fun _ => update_of_ne (hf.blockAt_ne_indirect hb).symm _ _

theorem Ok.blockAt_writeAt (data : Block) (fb' : Nat) :
    (f.writeAt (f.blockAt fb) data).blockAt fb' = f.blockAt fb' := by
  have hblock : (f.writeAt (f.blockAt fb) data).block = f.block := funext (hf.block_writeAt hb data)
  show (placeAt fb').elim 0 (f.writeAt (f.blockAt fb) data).block = f.blockAt fb'
  rw [hblock, blockAt]

theorem Ok.evolves_writeAt (data : Block) : Evolves f (f.writeAt (f.blockAt fb) data) := by
  have hblock := hf.block_writeAt hb data
  have huses : ∀ c, (f.writeAt (f.blockAt fb) data).Uses c ↔ f.Uses c := fun c => by
    simp only [Uses, hblock]
  refine ⟨⟨rfl, ⟨hf.vol.write _, ?_, ?_, ?_⟩, ?_, ?_, ?_, rfl, fun hd => ⟨hd, rfl⟩⟩, rfl, id⟩
  · exact fun c hc => hf.lt c ((huses c).mp hc)
  · exact fun c hc => hf.marked c ((huses c).mp hc)
  · intro pl pl' heq hne
    rw [hblock] at heq hne
    rw [hblock] at heq
    exact hf.inj pl pl' heq hne
  · intro c
    rw [huses]
    exact (Evolves.refl hf).marked c
  · exact fun c hc => .inl ((huses c).mp hc)
  · intro c _ hn
    refine update_of_ne ?_ _ _
    rintro rfl
    exact hn (uses_blockAt hb)

theorem Ok.blockOf_writeAt (data : Block) (fb' : Nat) :
    (f.writeAt (f.blockAt fb) data).blockOf fb' = if fb' = fb then data else f.blockOf fb' := by
  rw [blockOf, hf.blockAt_writeAt hb, blockOf]
  by_cases heq : fb' = fb
  · subst heq
    rw [if_neg hb, if_pos rfl]
    exact update_self ..
  · rw [if_neg heq]
    by_cases hzero : f.blockAt fb' = 0
    · rw [if_pos hzero, if_pos hzero]
    · rw [if_neg hzero, if_neg hzero]
      exact update_of_ne (fun h => heq (hf.blockAt_inj h hzero)) _ _

end

end File

/-! ## 書き込み -/

/-- `off` から列を書き込んだ file。 -/
structure Wrote (f g : File) (off : Nat) (l : List UInt8) : Prop where
  byte : ∀ p, g.byte p = overwrite f.byte off l p
  /-- あった対応は変わらない。 -/
  keep : ∀ fb, f.blockAt fb ≠ 0 → g.blockAt fb = f.blockAt fb
  /-- 書いた位置には block がある。 -/
  mapped : ∀ p, off ≤ p → p < off + l.length → g.blockAt (p / 512) ≠ 0

namespace Wrote

variable {f g h : File} {off : Nat} {l r : List UInt8}

theorem of_mapped (hm : Mapped f g) (off : Nat) : Wrote f g off [] where
  byte p := by rw [Infra.overwrite_nil, hm.byte]
  keep := hm.keep
  mapped p hle hlt := by
    rw [length_nil] at hlt
    omega

theorem after_mapped (hm : Mapped f g) (hw : Wrote g h off l) : Wrote f h off l where
  byte p := by
    have hbyte : g.byte = f.byte := funext hm.byte
    rw [hw.byte, hbyte]
  keep fb hne := by
    have hg := hm.keep fb hne
    rw [hw.keep fb (hg ▸ hne), hg]
  mapped := hw.mapped

theorem trans (h₁ : Wrote f g off l) (h₂ : Wrote g h (off + l.length) r) : Wrote f h off (l ++ r) where
  byte p := by
    have hbyte : g.byte = overwrite f.byte off l := funext h₁.byte
    rw [h₂.byte, hbyte, Infra.overwrite_append]
  keep fb hne := by
    have hg := h₁.keep fb hne
    rw [h₂.keep fb (hg ▸ hne), hg]
  mapped p hle hlt := by
    rw [length_append] at hlt
    rcases Nat.lt_or_ge p (off + l.length) with hp | hp
    · have hg := h₁.mapped p hle hp
      rwa [h₂.keep _ hg]
    · exact h₂.mapped p hp (by omega)

theorem splice (hf : f.Ok) (hb : f.blockAt fb ≠ 0) (skip : Nat) {w : List UInt8}
    (hlen : skip + w.length ≤ 512) :
    Wrote f (f.writeAt (f.blockAt fb) (.ofBytes ((f.blockOf fb).bytes.take skip ++ w ++
      (f.blockOf fb).bytes.drop (skip + w.length)))) (512 * fb + skip) w where
  byte p := by
    rw [File.byte_eq, hf.blockOf_writeAt hb, overwrite]
    by_cases hfb : p / 512 = fb
    · rw [if_pos hfb, splice_apply hlen]
      by_cases hin : skip ≤ p % 512 ∧ p % 512 < skip + w.length
      · rw [if_pos hin, if_pos (by omega)]
        have hidx : p - (512 * fb + skip) = p % 512 - skip := by omega
        rw [hidx]
        rfl
      · rw [if_neg hin, if_neg (by omega), File.byte_eq, hfb]
    · rw [if_neg hfb, if_neg (by omega), File.byte_eq]
  keep fb' _ := hf.blockAt_writeAt hb _ fb'
  mapped p hle hlt := by
    have hfb : p / 512 = fb := by omega
    rw [hf.blockAt_writeAt hb, hfb]
    exact hb

end Wrote

/-! ## 転送 -/

structure Progress (s t : Io) (n : Nat) : Prop where
  addrs : addrs t.uio.iov = (Os161.addrs s.uio.iov).drop n
  resid : t.uio.resid + n = s.uio.resid
  offset : t.uio.offset = s.uio.offset + n
  rw : t.uio.rw = s.uio.rw
  evolves : Evolves s.toFile t.toFile
  size : t.inode.size = s.inode.size
  read : s.uio.rw = .read → t.toFile = s.toFile ∧ (s.uio.offset + n < 2 ^ 41 →
    t.mem = scatter s.mem ((Os161.addrs s.uio.iov).take n) (slice s.byte s.uio.offset n))
  write : s.uio.rw = .write → t.mem = s.mem ∧ (s.uio.offset + n < 2 ^ 41 →
    Wrote s.toFile t.toFile s.uio.offset (((Os161.addrs s.uio.iov).take n).map s.mem))

namespace Progress

variable {s t u : Io} {n m : Nat}

theorem fits (h : Progress s t n) (hs : s.uio.Fits) : t.uio.Fits := by
  have hresid := h.resid
  have hfits := hs.resid
  have hbound := hs.bound
  refine ⟨?_, by omega⟩
  rw [h.addrs, length_drop]
  omega

theorem trans (h₁ : Progress s t n) (h₂ : Progress t u m) (hs : s.uio.Fits) : Progress s u (n + m) := by
  have hresid₁ := h₁.resid
  have hresid₂ := h₂.resid
  have hfits := hs.resid
  have hlen : ((Os161.addrs s.uio.iov).take n).length = n := by
    rw [length_take]
    omega
  refine ⟨?_, by omega, ?_, h₂.rw.trans h₁.rw, h₁.evolves.trans h₂.evolves, h₂.size.trans h₁.size, ?_, ?_⟩
  · rw [h₂.addrs, h₁.addrs, drop_drop]
  · rw [h₂.offset, h₁.offset, Nat.add_assoc]
  · intro hrw
    obtain ⟨hfile₁, hmem₁⟩ := h₁.read hrw
    obtain ⟨hfile₂, hmem₂⟩ := h₂.read (h₁.rw.trans hrw)
    refine ⟨hfile₂.trans hfile₁, fun hlt => ?_⟩
    rw [hmem₂ (by rw [h₁.offset]; omega), hmem₁ (by omega), h₁.addrs, h₁.offset, hfile₁,
      Infra.slice_add, take_add, scatter_append]
    rw [hlen, Infra.length_slice]
  · intro hrw
    obtain ⟨hmem₁, hwrote₁⟩ := h₁.write hrw
    obtain ⟨hmem₂, hwrote₂⟩ := h₂.write (h₁.rw.trans hrw)
    refine ⟨hmem₂.trans hmem₁, fun hlt => ?_⟩
    have hfirst := hwrote₁ (by omega)
    have hsecond := hwrote₂ (by rw [h₁.offset]; omega)
    rw [h₁.offset, h₁.addrs, hmem₁] at hsecond
    rw [take_add, map_append]
    refine hfirst.trans ?_
    rw [length_map, hlen]
    exact hsecond

end Progress

/-- block の対応が得られず、転送しなかった。 -/
structure Refused (s t : Io) (e : Errno) : Prop where
  uio : t.uio = s.uio
  mem : t.mem = s.mem
  mapped : Mapped s.toFile t.toFile
  read : s.uio.rw = .read → t.toFile = s.toFile
  hole : s.blockAt (fileblockOf s.uio) = 0
  reason : e = .enospc ∧ s.uio.rw = .write ∧ fileblockOf s.uio < 143 ∨ e = .efbig ∧ 143 ≤ fileblockOf s.uio

theorem Progress.of_read (hs : s.toFile.Ok) (hrw : s.uio.rw = .read)
    (hmoved : Moved ⟨s.uio, s.mem⟩ x ptr out)
    (hptr : s.uio.offset + ptr.length < 2 ^ 41 → ptr = slice s.byte s.uio.offset ptr.length) :
    Progress s { s with uio := x.uio, mem := x.mem } ptr.length := by
  refine ⟨hmoved.addrs, hmoved.resid, hmoved.offset, hmoved.rw, .refl hs, rfl,
    fun _ => ⟨rfl, fun hlt => ?_⟩, fun hw => ?_⟩
  · rw [← hptr hlt]
    exact (hmoved.read hrw).2
  · rw [hrw] at hw
    cases hw

theorem Progress.of_write {g : File} (hrw : s.uio.rw = .write)
    (hmoved : Moved ⟨s.uio, s.mem⟩ x ptr out) (hev : Evolves s.toFile g)
    (hsize : g.inode.size = s.inode.size)
    (hwrote : s.uio.offset + ptr.length < 2 ^ 41 → Wrote s.toFile g s.uio.offset out) :
    Progress s ⟨g, x.uio, x.mem⟩ ptr.length := by
  obtain ⟨hout, hmem⟩ := hmoved.write hrw
  refine ⟨hmoved.addrs, hmoved.resid, hmoved.offset, hmoved.rw, hev, hsize, fun hr => ?_,
    fun _ => ⟨hmem, fun hlt => ?_⟩⟩
  · rw [hrw] at hr
    cases hr
  · rw [← hout]
    exact hwrote hlt

theorem Progress.refl (hs : s.toFile.Ok) : Progress s s 0 := by
  refine ⟨rfl, rfl, rfl, rfl, .refl hs, rfl, fun _ => ⟨rfl, fun _ => ?_⟩, fun _ => ⟨rfl, fun _ => ?_⟩⟩
  · simp [scatter]
  · exact Wrote.of_mapped (.refl hs) _

theorem read_of_ne_write {rw : UioRw} (h : rw ≠ .write) : rw = .read := by
  cases rw with
  | read => rfl
  | write => exact absurd rfl h

/-! ## `sfs_partialio` -/

section partialio

variable {s : Io}

theorem offset_eq (uio : Uio) (h : uio.offset < 2 ^ 41) :
    512 * fileblockOf uio + uio.offset % 512 = uio.offset := by
  rw [fileblockOf, Nat.mod_eq_of_lt (by omega)]
  omega

theorem readBlock_post (hs : s.toFile.Ok) (hread : s.blockAt fb = 0 → s.uio.rw = .read) :
    Comp.Post (readBlock (s.blockAt fb)) s (fun b t => b = s.blockOf fb ∧ t = s) fun _ _ => False := by
  rw [readBlock, post_ite]
  refine ⟨fun hzero => ?_, fun hne => ?_⟩
  · simp only [post_bind, post_get, post_assert, post_pure]
    exact ⟨hread hzero, (if_pos hzero).symm, trivial⟩
  · simp only [onFile, onVol, post_zoom, rblock, post_bind, post_get, post_assert, post_pure]
    exact ⟨hs.lt _ (File.uses_blockAt hne), (if_neg hne).symm, trivial⟩

theorem onXfer_uiomove_post (hfits : s.uio.Fits) (ptr : List UInt8) (hptr : ptr.length ≤ s.uio.resid) :
    Comp.Post (onXfer (uiomove ptr)) s
      (fun out t => ∃ x, Moved ⟨s.uio, s.mem⟩ x ptr out ∧ t = { s with uio := x.uio, mem := x.mem })
      fun _ _ => False := by
  rw [onXfer, post_zoom]
  exact (uiomove_post hfits hptr).imp fun out x hmoved => ⟨x, hmoved, rfl⟩

theorem onFile_bmap_post (hs : s.toFile.Ok) :
    Comp.Post (onFile (bmap (fileblockOf s.uio) (doallocOf s.uio))) s
      (fun b t => ∃ g, t = { s with toFile := g } ∧ Mapped s.toFile g ∧ g.blockAt (fileblockOf s.uio) = b ∧
        (s.uio.rw = .write → b ≠ 0) ∧ (s.uio.rw = .read → g = s.toFile))
      (fun e t => Refused s t e) := by
  rw [onFile, post_zoom]
  refine (bmap_post hs _ _).mono ?_ ?_
  · rintro b g ⟨hmapped, hb, -, hdo, hno⟩
    refine ⟨g, rfl, hmapped, hb, fun hrw => hdo ?_, fun hrw => hno ?_⟩
    · simp [doallocOf, hrw]
    · simp [doallocOf, hrw]
  · rintro e g ⟨hmapped, hhole, hno, hreason⟩
    refine ⟨rfl, rfl, hmapped, fun hrw => hno ?_, hhole, ?_⟩
    · simp [doallocOf, hrw]
    · simpa [doallocOf] using hreason

/-- **`sfs_partialio` は、block の中の `len` byte を転送する。** -/
theorem partialio_post (hs : s.toFile.Ok) (hfits : s.uio.Fits) (len : Nat)
    (hlen : s.uio.offset % 512 + len ≤ 512) (hresid : len ≤ s.uio.resid) :
    Comp.Post (partialio (s.uio.offset % 512) len) s (fun _ t => Progress s t len)
      (fun e t => Refused s t e) := by
  rw [partialio, post_bind, post_get, post_bind, post_assert]
  refine ⟨hlen, ?_⟩
  rw [post_bind]
  refine (onFile_bmap_post hs).imp ?_
  rintro _ _ ⟨g, rfl, hmapped, rfl, hdo, hno⟩
  have hg := hmapped.evolves.ok
  have hread : g.blockAt (fileblockOf s.uio) = 0 → s.uio.rw = .read :=
    fun hzero => read_of_ne_write fun hrw => hdo hrw hzero
  rw [post_bind]
  refine (readBlock_post (s := { s with toFile := g }) hg hread).mono ?_ fun _ _ h => h.elim
  rintro _ _ ⟨rfl, rfl⟩
  have hwindow := g.window_eq_slice (fileblockOf s.uio) _ _ hlen
  have hwlen : (((g.blockOf (fileblockOf s.uio)).bytes.drop (s.uio.offset % 512)).take len).length =
    len := by
    rw [hwindow, Infra.length_slice]
  rw [post_bind]
  refine (onXfer_uiomove_post (s := { s with toFile := g }) hfits _ (hwlen.symm ▸ hresid)).mono ?_
    fun _ _ h => h.elim
  rintro out _ ⟨x, hmoved, rfl⟩
  rw [post_ite]
  refine ⟨fun hrw => ?_, fun hrw => ?_⟩
  · have hne := hdo hrw
    have hout : out.length = len := hmoved.length.trans hwlen
    simp only [onFile, onVol, post_zoom, wblock, post_bind, post_get, post_assert, post_set]
    refine ⟨hg.lt _ (File.uses_blockAt hne), ?_⟩
    have hsplice := Wrote.splice hg hne _ (w := out) (hout.symm ▸ hlen)
    rw [hout] at hsplice
    have hprogress := Progress.of_write hrw hmoved (hmapped.evolves.trans (hg.evolves_writeAt hne _))
      hmapped.size fun hlt => by
        rw [← offset_eq s.uio (by omega)]
        exact hsplice.after_mapped hmapped
    rwa [hwlen] at hprogress
  · have hr := read_of_ne_write hrw
    obtain rfl := hno hr
    rw [post_pure]
    have hprogress := Progress.of_read hs hr hmoved fun hlt => by
      rw [hwlen, hwindow, offset_eq _ (by omega)]
    rwa [hwlen] at hprogress

end partialio

/-! ## `sfs_blockio` -/

section blockio

variable {s : Io}

/-- block を一つ転送した後の状態。 -/
structure Swapped (s t : Io) (b : Nat) (x : Xfer) (out : List UInt8) : Prop where
  moved : Moved ⟨s.uio, s.mem⟩ x (if s.uio.rw = .write then zero else s.vol.disk b).bytes out
  state : t = ⟨if s.uio.rw = .write then s.toFile.writeAt b (.ofBytes out) else s.toFile, x.uio, x.mem⟩

theorem ioSector_post (hfits : s.uio.Fits) (hresid : 512 ≤ s.uio.resid) (hb : b < s.vol.nblocks) :
    Comp.Post (ioSector b) s (fun _ t => ∃ x out, Swapped s t b x out) fun _ _ => False := by
  have hbuf : ∀ b : Block, b.bytes.length ≤ s.uio.resid := fun b => by rwa [length_bytes]
  rw [ioSector, post_bind, post_get, post_ite]
  refine ⟨fun hrw => ?_, fun hrw => ?_⟩
  · rw [post_bind]
    refine (onXfer_uiomove_post hfits _ (hbuf _)).imp ?_
    rintro out _ ⟨x, hmoved, rfl⟩
    simp only [onFile, onVol, post_zoom, wblock, post_bind, post_get, post_assert, post_set]
    refine ⟨hb, x, out, ?_, ?_⟩
    · rw [if_pos hrw]
      exact hmoved
    · rw [if_pos hrw]
      rfl
  · simp only [onFile, onVol, post_zoom, rblock, post_bind, post_get, post_assert, post_pure]
    refine ⟨hb, (onXfer_uiomove_post hfits _ (hbuf _)).imp ?_⟩
    rintro out _ ⟨x, hmoved, rfl⟩
    refine ⟨x, out, ?_, ?_⟩
    · rw [if_neg hrw]
      exact hmoved
    · rw [if_neg hrw]

theorem rwblock_post (hfits : s.uio.Fits) (hoff : s.uio.offset = b * 512)
    (hresid : s.uio.resid = 512) (hb : b < s.vol.nblocks) (hbound : s.vol.nblocks ≤ 2 ^ 23) :
    Comp.Post rwblock s (fun _ t => ∃ x out, Swapped s t b x out) fun _ _ => False := by
  have hsector : s.uio.offset / 512 % 2 ^ 32 = b := by
    rw [hoff, Nat.mul_div_cancel _ (by decide), Nat.mod_eq_of_lt (by omega)]
  have hcount : s.uio.resid / 512 = 1 := by rw [hresid]
  rw [rwblock, post_bind, post_get]
  dsimp only
  rw [hsector, hcount, post_bind, post_assert]
  refine ⟨by omega, ?_⟩
  rw [post_bind, post_assert]
  refine ⟨by omega, ?_⟩
  rw [sectors, post_bind]
  refine (ioSector_post hfits hresid.ge hb).imp fun _ t h => ?_
  rwa [sectors, post_pure]

theorem moved_rebase {uio : Uio} {mem : Nat → UInt8} {off : Nat} (hn : n ≤ uio.resid)
    (hlen : ptr.length = n) (h : Moved ⟨{ uio with offset := off, resid := n }, mem⟩ x ptr out) :
    Moved ⟨uio, mem⟩
      ⟨{ x.uio with offset := x.uio.offset - off + uio.offset,
                    resid := x.uio.resid + uio.resid - n }, x.mem⟩
      ptr out := by
  have hoffset := h.offset
  have hresid := h.resid
  dsimp only at hoffset hresid
  refine ⟨h.addrs, ?_, ?_, h.rw, h.length, h.read, h.write⟩
  · dsimp only
    omega
  · dsimp only
    omega

theorem blockioAt_post (hfits : s.uio.Fits) (hresid : 512 ≤ s.uio.resid) (hb : b < s.vol.nblocks)
    (hbound : s.vol.nblocks ≤ 2 ^ 23) :
    Comp.Post (blockioAt b) s (fun _ t => ∃ x out, Swapped s t b x out) fun _ _ => False := by
  have hfits' := hfits.resid
  have hdiskoff : b * 512 % 2 ^ 32 = b * 512 := Nat.mod_eq_of_lt (by omega)
  rw [blockioAt, post_bind, post_get, post_bind, post_assert]
  refine ⟨hresid, ?_⟩
  rw [hdiskoff, post_bind, post_set, post_bind, post_attempt]
  refine (rwblock_post (s := { s with uio := { s.uio with offset := b * 512, resid := 512 } })
    ⟨hresid.trans hfits', by dsimp only; omega⟩ rfl rfl hb hbound).mono ?_ fun _ _ h => h.elim
  rintro _ _ ⟨x, out, hmoved, rfl⟩
  rw [post_bind, post_modify, post_conclude_ok]
  exact ⟨_, out, moved_rebase hresid (length_bytes _) hmoved, rfl⟩

theorem bytes_zero : zero.bytes = replicate 512 0 := ofFn_const 512 0

/-- **`sfs_blockio` は、block を一つ転送する。** -/
theorem blockio_post (hs : s.toFile.Ok) (hfits : s.uio.Fits) (halign : s.uio.offset % 512 = 0)
    (hresid : 512 ≤ s.uio.resid) :
    Comp.Post blockio s (fun _ t => Progress s t 512) (fun e t => Refused s t e) := by
  rw [blockio, post_bind, post_get, post_bind]
  refine (onFile_bmap_post hs).imp ?_
  rintro _ _ ⟨g, rfl, hmapped, rfl, hdo, hno⟩
  have hg := hmapped.evolves.ok
  have hwindow := g.window_eq_slice (fileblockOf s.uio) 0 512 (by decide)
  rw [drop_zero, take_of_length_le (by rw [length_bytes])] at hwindow
  have hoffset : s.uio.offset + 512 < 2 ^ 41 → 512 * fileblockOf s.uio + 0 = s.uio.offset := by
    intro hlt
    have := offset_eq s.uio (by omega)
    rwa [halign] at this
  rw [post_ite]
  refine ⟨fun hzero => ?_, fun hne => ?_⟩
  · have hr := read_of_ne_write fun hrw => hdo hrw hzero
    obtain rfl := hno hr
    rw [post_bind, post_assert, onXfer, post_zoom]
    refine ⟨hr, (uiomovezeros_post hfits hresid hr).mono ?_ fun _ _ h => h.elim⟩
    rintro _ x ⟨out, hmoved⟩
    have hprogress := Progress.of_read hs hr hmoved fun hlt => by
      rw [length_replicate] at hlt ⊢
      rw [← hoffset hlt, ← hwindow, File.blockOf, if_pos hzero, bytes_zero]
    rwa [length_replicate] at hprogress
  · have hlt := hg.lt _ (File.uses_blockAt hne)
    refine (blockioAt_post (s := { s with toFile := g }) hfits hresid hlt hg.vol.bound).mono ?_
      fun _ _ h => h.elim
    rintro _ _ ⟨x, out, hmoved, rfl⟩
    dsimp only at hmoved ⊢
    by_cases hrw : s.uio.rw = .write
    · rw [if_pos hrw] at hmoved ⊢
      have hout : out.length = 512 := hmoved.length.trans (length_bytes _)
      have hsplice := Wrote.splice hg hne 0 (w := out) (by omega)
      rw [take_zero, nil_append, hout, drop_of_length_le (by rw [length_bytes]),
        append_nil] at hsplice
      have hprogress := Progress.of_write hrw hmoved (hmapped.evolves.trans (hg.evolves_writeAt hne _))
        hmapped.size fun hlt => by
          rw [length_bytes] at hlt
          rw [← hoffset hlt]
          exact hsplice.after_mapped hmapped
      rwa [length_bytes] at hprogress
    · rw [if_neg hrw] at hmoved ⊢
      have hr := read_of_ne_write hrw
      obtain rfl := hno hr
      have hprogress := Progress.of_read hs hr hmoved fun hlt => by
        rw [length_bytes] at hlt ⊢
        rw [← hoffset hlt, ← hwindow, File.blockOf, if_neg hne]
      rwa [length_bytes] at hprogress

end blockio

/-! ## `sfs_io` -/

/-- 途中で block の対応が得られなかった。 -/
def Failed (s t : Io) (e : Errno) : Prop :=
  ∃ k u, Progress s u k ∧ Refused u t e ∧ (s.uio.resid ≠ 0 → u.uio.resid ≠ 0)

theorem Refused.failed (h : Refused s t e) (hs : s.toFile.Ok) : Failed s t e :=
  ⟨0, s, .refl hs, h, id⟩

theorem Failed.after {u : Io} {k : Nat} (hs : s.uio.Fits) (hp : Progress s t k)
    (ht : t.uio.resid ≠ 0) (h : Failed t u e) : Failed s u e := by
  obtain ⟨k', v, hp', href, hmore⟩ := h
  exact ⟨k + k', v, hp.trans hp' hs, href, fun _ => hmore ht⟩

section io

variable {s : Io}

theorem blocks_post (hs : s.toFile.Ok) (hfits : s.uio.Fits) (halign : s.uio.offset % 512 = 0)
    (hresid : 512 * n ≤ s.uio.resid) :
    Comp.Post (blocks n) s (fun _ t => Progress s t (512 * n)) (fun e t => n ≠ 0 ∧ Failed s t e) := by
  induction n generalizing s with
  | zero =>
    rw [blocks, post_pure]
    exact Progress.refl hs
  | succ n ih =>
    rw [blocks, post_bind]
    refine (blockio_post hs hfits halign (by omega)).mono ?_ fun e t h => ⟨n.succ_ne_zero, h.failed hs⟩
    intro _ t hp
    have hoffset := hp.offset
    have hleft := hp.resid
    refine (ih hp.evolves.ok (hp.fits hfits) (by omega) (by omega)).mono ?_ ?_
    · intro _ u hp'
      have htrans := hp.trans hp' hfits
      rwa [show 512 + 512 * n = 512 * (n + 1) by omega] at htrans
    · rintro e u ⟨hn, hfail⟩
      exact ⟨n.succ_ne_zero, hfail.after hfits hp (by omega)⟩

theorem leading_post (hs : s.toFile.Ok) (hfits : s.uio.Fits) :
    Comp.Post leading s
      (fun _ t => ∃ k, Progress s t k ∧ (t.uio.resid ≠ 0 → t.uio.offset % 512 = 0))
      (fun e t => Failed s t e) := by
  rw [leading, post_bind, post_get]
  dsimp only
  rw [post_ite]
  refine ⟨fun hne => ?_, fun hzero => ?_⟩
  · refine (partialio_post hs hfits _ (by omega) (Nat.min_le_right _ _)).mono ?_ fun e t h => h.failed hs
    intro _ t hp
    have hoffset := hp.offset
    have hresid := hp.resid
    exact ⟨_, hp, fun hleft => by omega⟩
  · rw [post_pure]
    exact ⟨0, .refl hs, fun _ => by omega⟩

theorem aligned_post (hs : s.toFile.Ok) (hfits : s.uio.Fits)
    (halign : s.uio.resid ≠ 0 → s.uio.offset % 512 = 0) :
    Comp.Post aligned s (fun _ t => Progress s t s.uio.resid)
      (fun e t => s.uio.resid ≠ 0 ∧ Failed s t e) := by
  rw [aligned, post_bind, post_get, post_ite]
  refine ⟨fun hzero => ?_, fun hne => ?_⟩
  · rw [post_pure, hzero]
    exact .refl hs
  have hoffset := halign hne
  rw [post_bind, post_assert]
  refine ⟨hoffset, ?_⟩
  rw [post_bind]
  refine (blocks_post hs hfits hoffset (by omega)).mono ?_ fun e t h => ⟨hne, h.2⟩
  intro _ t hp
  have hresid := hp.resid
  have hoff := hp.offset
  rw [post_bind, post_get, post_bind, post_assert]
  refine ⟨by omega, ?_⟩
  rw [post_ite]
  refine ⟨fun hpos => ?_, fun hdone => ?_⟩
  · have htail : t.uio.offset % 512 = 0 := by omega
    have hpost := partialio_post hp.evolves.ok (hp.fits hfits) t.uio.resid (by omega) le_rfl
    rw [htail] at hpost
    refine hpost.mono ?_ ?_
    · intro _ u hp'
      have htrans := hp.trans hp' hfits
      rwa [show 512 * (s.uio.resid / 512) + t.uio.resid = s.uio.resid by omega] at htrans
    · intro e u href
      exact ⟨hne, (href.failed hp.evolves.ok).after hfits hp (by omega)⟩
  · rw [post_pure]
    rwa [show 512 * (s.uio.resid / 512) = s.uio.resid by omega] at hp

theorem transfer_post (hs : s.toFile.Ok) (hfits : s.uio.Fits) :
    Comp.Post (do
      leading
      aligned) s (fun _ t => Progress s t s.uio.resid) (fun e t => Failed s t e) := by
  rw [post_bind]
  refine (leading_post hs hfits).imp ?_
  rintro _ t ⟨k, hp, halign⟩
  refine (aligned_post hp.evolves.ok (hp.fits hfits) halign).mono ?_ ?_
  · intro _ u hp'
    have htrans := hp.trans hp' hfits
    have hresid := hp.resid
    rwa [show k + t.uio.resid = s.uio.resid by omega] at htrans
  · rintro e u ⟨hne, hfail⟩
    exact hfail.after hfits hp hne

theorem evolves_finish (hs : s.toFile.Ok) : Evolves s.toFile (finish n s).toFile := by
  rw [finish]
  split
  · exact .resize hs (Nat.mod_lt _ (by decide))
  · exact .refl hs

theorem finish_byte (n p : Nat) : (finish n s).byte p = s.byte p := by
  rw [finish]
  split <;> rfl

theorem finish_uio (n : Nat) : (finish n s).uio = { s.uio with resid := s.uio.resid + n } := by
  rw [finish]
  split <;> rfl

theorem finish_size (hrw : s.uio.rw = .write) : (finish n s).inode.size =
    if s.inode.size < s.uio.offset then s.uio.offset % 2 ^ 32 else s.inode.size := by
  rw [finish]
  simp only [hrw, true_and]
  split <;> rfl

/-- **書き込みの `sfs_io` は、残りをすべて転送してから file の大きさを直す。** -/
theorem io_write_post (hs : s.toFile.Ok) (hfits : s.uio.Fits) (hrw : s.uio.rw = .write) :
    Comp.Post io s (fun _ t => ∃ u, Progress s u s.uio.resid ∧ t = finish 0 u)
      (fun e t => ∃ u, Failed s u e ∧ t = finish 0 u) := by
  have hnr : ∀ p : Prop, ¬ (s.uio.rw = .read ∧ p) := fun p h => by
    rw [hrw] at h
    cases h.1
  rw [io, post_bind, post_get, if_neg (hnr _)]
  dsimp only
  rw [if_neg (hnr _), post_bind, post_assert]
  refine ⟨fun h => absurd h (hnr _), ?_⟩
  rw [post_bind, post_set, post_bind, post_attempt]
  refine (transfer_post hs hfits).mono ?_ ?_
  · intro _ u hp
    rw [post_bind, post_modify, post_conclude_ok]
    exact ⟨u, hp, rfl⟩
  · intro e u hfail
    rw [post_bind, post_modify, post_conclude_error]
    exact ⟨u, hfail, rfl⟩

theorem Progress.extend {extra : Nat} (hrw : s.uio.rw = .read) (hextra : extra ≤ s.uio.resid)
    (hp : Progress { s with uio := { s.uio with resid := s.uio.resid - extra } } t n) :
    Progress s (finish extra t) n := by
  have hresid := hp.resid
  have htrw : ¬ (t.uio.rw = .write ∧ t.inode.size < t.uio.offset) := fun h => by
    rw [hp.rw, hrw] at h
    cases h.1
  rw [finish, if_neg htrw]
  refine ⟨hp.addrs, ?_, hp.offset, hp.rw, hp.evolves, hp.size, hp.read, hp.write⟩
  dsimp only at hresid ⊢
  omega

/-- **読み込みの `sfs_io` は、file の終わりまでを転送し、file を変えない。** -/
theorem io_read_post (hs : s.toFile.Ok) (hfits : s.uio.Fits) (hrw : s.uio.rw = .read) :
    Comp.Post io s (fun _ t => Progress s t (min s.uio.resid (s.inode.size - s.uio.offset)) ∧
        (s.inode.size ≤ s.uio.offset → t = s))
      (fun e t => e = .efbig ∧ t.toFile = s.toFile ∧
        ∃ p, s.uio.offset ≤ p ∧ p < s.inode.size ∧ 143 ≤ p / 512 % 2 ^ 32) := by
  have hbound := hfits.bound
  have hfits' := hfits.resid
  rw [io, post_bind, post_get, post_ite]
  refine ⟨fun ⟨_, hend⟩ => ?_, fun hmore => ?_⟩
  · rw [post_pure, show min s.uio.resid (s.inode.size - s.uio.offset) = 0 by omega]
    exact ⟨.refl hs, fun _ => rfl⟩
  have hlt : s.uio.offset < s.inode.size := by
    by_contra hge
    exact hmore ⟨hrw, by omega⟩
  obtain ⟨extra, hextra, hmin, hle⟩ : ∃ extra,
      (if s.uio.rw = .read ∧ s.inode.size < s.uio.offset + s.uio.resid then
        (s.uio.offset + s.uio.resid - s.inode.size) % 2 ^ 32 else 0) = extra ∧
      min s.uio.resid (s.inode.size - s.uio.offset) = s.uio.resid - extra ∧
      (s.inode.size < s.uio.offset + s.uio.resid ∨ extra ≠ 0 → extra < s.uio.resid) := by
    simp only [hrw, true_and]
    refine ⟨_, rfl, ?_, ?_⟩
    · split
      · omega
      · omega
    · split
      · omega
      · omega
  have hle' : extra ≤ s.uio.resid := by omega
  dsimp only
  rw [hextra, post_bind, post_assert]
  refine ⟨fun h => hle (.inl h.2), ?_⟩
  rw [post_bind, post_set, post_bind, post_attempt]
  refine (transfer_post (s := { s with uio := { s.uio with resid := s.uio.resid - extra } }) hs
    ⟨by dsimp only; omega, by dsimp only; omega⟩).mono ?_ ?_
  · intro _ u hp
    rw [post_bind, post_modify, post_conclude_ok, hmin]
    exact ⟨hp.extend hrw hle', fun hge => absurd hge (by omega)⟩
  · rintro e u ⟨k, v, hp, href, hleft⟩
    have hvread : v.uio.rw = .read := hp.rw.trans hrw
    have hfile : u.toFile = s.toFile := (href.read hvread).trans (hp.read hrw).1
    have hurw : ¬ (u.uio.rw = .write ∧ u.inode.size < u.uio.offset) := fun h => by
      rw [href.uio, hvread] at h
      cases h.1
    rw [post_bind, post_modify, post_conclude_error, finish, if_neg hurw]
    have hoffset := hp.offset
    have hresid := hp.resid
    dsimp only at hoffset hresid hleft
    rcases href.reason with ⟨-, hw, -⟩ | ⟨rfl, hbig⟩
    · rw [hvread] at hw
      cases hw
    · exact ⟨rfl, hfile, v.uio.offset, by omega, by omega, hbig⟩

end io

end Os161.Sfs

