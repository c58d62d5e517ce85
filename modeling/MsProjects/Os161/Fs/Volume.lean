import MsProjects.Os161.Lib.Bitmap

/-!
# SFS の volume

`kern/include/kern/sfs.h` の disk の上の形と、`kern/fs/sfs/sfs_io.c`、`sfs_vnode.c` の block の出し入れ。
-/

namespace Os161.Sfs

open Infra (Comp)
open Infra.Comp (assert stuck zoom)

def magic : Nat := 0xabadf001

abbrev sbLocation : Nat := 0

abbrev rootLocation : Nat := 1

abbrev mapLocation : Nat := 2

def bitmapsize (nblocks : Nat) : Nat := (nblocks + 4096 - 1) / 4096 * 4096

def bitblocks (nblocks : Nat) : Nat := bitmapsize nblocks / 4096

abbrev typeFile : Nat := 1

abbrev typeDir : Nat := 2

/-! ## block -/

/-- 一つの block。 -/
abbrev Block := Fin 512 → UInt8

theorem mod_blocksize_lt (p : Nat) : p % 512 < 512 := Nat.mod_lt _ (by decide)

namespace Block

def zero : Block := fun _ => 0

/-- block の byte の列。 -/
def bytes (b : Block) : List UInt8 := List.ofFn b

/-- byte の列から block を作る。 -/
def ofBytes (l : List UInt8) : Block := fun i => l.getD i 0

/-- `i` 番目の語。 -/
def word (b : Block) (i : Fin 128) : Nat :=
  (b ⟨4 * i, by omega⟩).toNat * 2 ^ 24 + (b ⟨4 * i + 1, by omega⟩).toNat * 2 ^ 16 +
    (b ⟨4 * i + 2, by omega⟩).toNat * 2 ^ 8 + (b ⟨4 * i + 3, by omega⟩).toNat

/-- 語の列から block を作る。 -/
def ofWords (w : Fin 128 → Nat) : Block :=
  fun i => UInt8.ofNat (w ⟨i / 4, by omega⟩ / 2 ^ (8 * (3 - i.val % 4)))

end Block

structure Inode where
  size : Nat
  type : Nat
  linkcount : Nat
  direct : Fin 15 → Nat
  indirect : Nat

namespace Inode

/-- inode の block。 -/
def encode (i : Inode) : Block :=
  .ofWords fun j =>
    if j.val = 0 then i.size
    else if j.val = 1 then i.type % 2 ^ 16 * 2 ^ 16 + i.linkcount % 2 ^ 16
    else if h : j.val < 17 then i.direct ⟨j - 2, by omega⟩
    else if j.val = 17 then i.indirect
    else 0

end Inode

/-! ## volume -/

/-- `struct sfs_fs` のうち、disk と free map。 -/
structure Vol where
  nblocks : Nat
  freemap : Bitmap
  disk : Nat → Block

def rblock (block : Nat) : Comp Errno Vol Block := do
  let v ← get
  assert (block < v.nblocks)
  pure (v.disk block)

def wblock (data : Block) (block : Nat) : Comp Errno Vol Unit := do
  let v ← get
  assert (block < v.nblocks)
  set { v with disk := Function.update v.disk block data }

/-- free map の上の計算。 -/
def onFreemap {α : Type} (x : Comp Errno Bitmap α) : Comp Errno Vol α :=
  zoom Vol.freemap (fun b v => { v with freemap := b }) x

def clearblock (block : Nat) : Comp Errno Vol Unit := wblock .zero block

def balloc : Comp Errno Vol Nat := do
  let diskblock ← onFreemap Bitmap.alloc
  let v ← get
  assert (diskblock < v.nblocks)
  clearblock diskblock
  pure diskblock

def bused (diskblock : Nat) : Comp Errno Vol Bool := do
  let v ← get
  assert (diskblock < v.nblocks)
  pure (v.freemap.isset diskblock)

/-! ## 新しい volume -/

/-- `mksfs` の印を付ける block。 -/
def reserved (nblocks block : Nat) : Bool :=
  block = sbLocation || block = rootLocation ||
    (mapLocation ≤ block && block < mapLocation + bitblocks nblocks) || nblocks ≤ block

/-- `bitbuf` の `i` 番目の byte。 -/
def bitbuf (nblocks i : Nat) : UInt8 :=
  UInt8.ofNat <| (List.range 8).foldl (fun n j => if reserved nblocks (8 * i + j) then n + 2 ^ j else n) 0

/-- `mksfs` が作る root directory の inode。 -/
def rootInode : Inode := ⟨0, typeDir, 1, fun _ => 0, 0⟩

/-- `mksfs` の書いた disk。 -/
def mksfs (nblocks : Nat) (disk : Nat → Block) : Nat → Block := fun block =>
  if block = sbLocation then
    .ofWords fun i => if i.val = 0 then magic else if i.val = 1 then nblocks else 0
  else if block = rootLocation then rootInode.encode
  else if block < mapLocation + bitblocks nblocks then
    fun i => bitbuf nblocks (512 * (block - mapLocation) + i)
  else disk block

/-- `sfs_domount`。 -/
def domount (disk : Nat → Block) : Except Errno Vol :=
  let super := disk sbLocation
  if super.word 0 ≠ magic then .error .einval
  else
    let nblocks := super.word 1
    .ok
      { nblocks := nblocks
        freemap := { Bitmap.create (bitmapsize nblocks) with
          v := fun i => ((disk (mapLocation + i / 512)) ⟨i % 512, Nat.mod_lt _ (by decide)⟩).toBitVec }
        disk := disk }

end Os161.Sfs
