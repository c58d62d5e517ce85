import MsProjects.Os161.Fs.Volume
import MsProjects.Os161.Lib.Uio

/-!
# SFS の file

`kern/fs/sfs/sfs_vnode.c` の `sfs_bmap`、`sfs_partialio`、`sfs_blockio`、`sfs_io` と、
`kern/dev/lamebus/lhd.c` の `lhd_io`。
-/

namespace Os161.Sfs

open Infra (Comp)
open Infra.Comp (assert stuck zoom attempt conclude)

/-- volume と、一つの vnode の `sv_i` と `sv_dirty`。 -/
structure File where
  vol : Vol
  inode : Inode
  dirty : Bool

/-- file への入出力の状態。 -/
structure Io extends File where
  uio : Uio
  mem : Nat → UInt8

section zooms

variable {α : Type}

def onVol (x : Comp Errno Vol α) : Comp Errno File α := zoom File.vol (fun v f => { f with vol := v }) x

def onFile (x : Comp Errno File α) : Comp Errno Io α := zoom Io.toFile (fun f s => { s with toFile := f }) x

def onXfer (x : Comp Errno Xfer α) : Comp Errno Io α :=
  zoom (fun s => ⟨s.uio, s.mem⟩) (fun t s => { s with uio := t.uio, mem := t.mem }) x

end zooms

/-! ## block の対応 -/

/-- `sfs_bmap` の最後。 -/
def handBack (block : Nat) : Comp Errno File Nat := do
  if block ≠ 0 then do
    let used ← onVol (bused block)
    assert (used = true)
    pure block
  else pure block

/-- direct block の番号を得る。 -/
def bmapDirect (i : Fin 15) (doalloc : Bool) : Comp Errno File Nat := do
  let f ← get
  let block := f.inode.direct i
  if block = 0 ∧ doalloc then do
    let block ← onVol balloc
    modify fun f =>
      { f with inode := { f.inode with direct := Function.update f.inode.direct i block }, dirty := true }
    handBack block
  else handBack block

/-- indirect block の番号と中身を得る。 -/
def loadIndirect : Comp Errno File (Nat × (Fin 128 → Nat)) := do
  let f ← get
  if f.inode.indirect = 0 then do
    let idblock ← onVol balloc
    modify fun f => { f with inode := { f.inode with indirect := idblock }, dirty := true }
    pure (idblock, fun _ => 0)
  else do
    let b ← onVol (rblock f.inode.indirect)
    pure (f.inode.indirect, b.word)

/-- indirect block に並ぶ番号を得る。 -/
def bmapIndirect (idoff : Fin 128) (doalloc : Bool) : Comp Errno File Nat := do
  let f ← get
  if f.inode.indirect = 0 ∧ doalloc = false then pure 0
  else do
    let (idblock, idbuf) ← loadIndirect
    let block := idbuf idoff
    if block = 0 ∧ doalloc then do
      let block ← onVol balloc
      onVol (wblock (.ofWords (Function.update idbuf idoff block)) idblock)
      handBack block
    else handBack block

/-- `sfs_bmap`。 -/
def bmap (fileblock : Nat) (doalloc : Bool) : Comp Errno File Nat :=
  if h : fileblock < 15 then bmapDirect ⟨fileblock, h⟩ doalloc
  else if 0 < (fileblock - 15) / 128 then throw .efbig
  else bmapIndirect ⟨(fileblock - 15) % 128, Nat.mod_lt _ (by decide)⟩ doalloc

/-! ## 入出力 -/

/-- `uio_offset` の block の番号。 -/
def fileblockOf (uio : Uio) : Nat := uio.offset / 512 % 2 ^ 32

/-- 欠けた block を作るのは書くときだけである。 -/
def doallocOf (uio : Uio) : Bool := uio.rw = .write

/-- 対応する block の中身。 -/
def readBlock (diskblock : Nat) : Comp Errno Io Block := do
  if diskblock = 0 then do
    let s ← get
    assert (s.uio.rw = .read)
    pure .zero
  else onFile (onVol (rblock diskblock))

def partialio (skipstart len : Nat) : Comp Errno Io Unit := do
  let s ← get
  assert (skipstart + len ≤ 512)
  let diskblock ← onFile (bmap (fileblockOf s.uio) (doallocOf s.uio))
  let iobuf ← readBlock diskblock
  let window ← onXfer (uiomove ((iobuf.bytes.drop skipstart).take len))
  if s.uio.rw = .write then
    onFile (onVol (wblock
      (.ofBytes (iobuf.bytes.take skipstart ++ window ++ iobuf.bytes.drop (skipstart + len))) diskblock))
  else pure ()

/-- `lhd_io` の loop の一回。 -/
def ioSector (sector : Nat) : Comp Errno Io Unit := do
  let s ← get
  if s.uio.rw = .write then do
    let lhBuf ← onXfer (uiomove Block.zero.bytes)
    onFile (onVol (wblock (.ofBytes lhBuf) sector))
  else do
    let lhBuf ← onFile (onVol (rblock sector))
    let _ ← onXfer (uiomove lhBuf.bytes)

/-- `lhd_io` の loop。 -/
def sectors : Nat → Nat → Comp Errno Io Unit
  | _, 0 => pure ()
  | sector, n + 1 => do
    ioSector sector
    sectors (sector + 1) n

/-- `sfs_rwblock`。 -/
def rwblock : Comp Errno Io Unit := do
  let s ← get
  let sector := s.uio.offset / 512 % 2 ^ 32
  assert (s.uio.offset % 512 = 0 ∧ s.uio.resid % 512 = 0)
  assert ((sector + s.uio.resid / 512) % 2 ^ 32 ≤ s.vol.nblocks)
  sectors sector (s.uio.resid / 512)

/-- `sfs_blockio` のうち、block があるとき。 -/
def blockioAt (diskblock : Nat) : Comp Errno Io Unit := do
  let s ← get
  let diskoff := diskblock * 512 % 2 ^ 32
  assert (512 ≤ s.uio.resid)
  set { s with uio := { s.uio with offset := diskoff, resid := 512 } }
  let result ← attempt rwblock
  modify fun t => { t with uio := { t.uio with
    offset := t.uio.offset - diskoff + s.uio.offset
    resid := t.uio.resid + s.uio.resid - 512 } }
  conclude result

def blockio : Comp Errno Io Unit := do
  let s ← get
  let diskblock ← onFile (bmap (fileblockOf s.uio) (doallocOf s.uio))
  if diskblock = 0 then do
    assert (s.uio.rw = .read)
    onXfer (uiomovezeros 512)
  else blockioAt diskblock

/-- `sfs_io` の block ごとの loop。 -/
def blocks : Nat → Comp Errno Io Unit
  | 0 => pure ()
  | n + 1 => do
    blockio
    blocks n

/-- `sfs_io` の最初の、block の途中から始まる部分。 -/
def leading : Comp Errno Io Unit := do
  let s ← get
  let blkoff := s.uio.offset % 512
  if blkoff ≠ 0 then partialio blkoff (min (512 - blkoff) s.uio.resid) else pure ()

/-- `sfs_io` の残りの部分。 -/
def aligned : Comp Errno Io Unit := do
  let s ← get
  if s.uio.resid = 0 then pure ()
  else do
    assert (s.uio.offset % 512 = 0)
    blocks (s.uio.resid / 512)
    let s ← get
    assert (s.uio.resid < 512)
    if 0 < s.uio.resid then partialio 0 s.uio.resid else pure ()

/-- `sfs_io` の末尾の、大きさと残りの直し。 -/
def finish (extraresid : Nat) (s : Io) : Io :=
  let s := if s.uio.rw = .write ∧ s.inode.size < s.uio.offset then
      { s with inode := { s.inode with size := s.uio.offset % 2 ^ 32 }, dirty := true }
    else s
  { s with uio := { s.uio with resid := s.uio.resid + extraresid } }

def io : Comp Errno Io Unit := do
  let s ← get
  if s.uio.rw = .read ∧ s.inode.size ≤ s.uio.offset then pure ()
  else do
    let endpos := s.uio.offset + s.uio.resid
    let extraresid :=
      if s.uio.rw = .read ∧ s.inode.size < endpos then (endpos - s.inode.size) % 2 ^ 32 else 0
    assert (s.uio.rw = .read ∧ s.inode.size < endpos → extraresid < s.uio.resid)
    set { s with uio := { s.uio with resid := s.uio.resid - extraresid } }
    let result ← attempt do
      leading
      aligned
    modify (finish extraresid)
    conclude result

end Os161.Sfs
