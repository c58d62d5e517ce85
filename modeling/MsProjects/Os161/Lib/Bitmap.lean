import MsProjects.Infra.Comp
import MsProjects.Os161.Arch

/-!
# bitmap

`kern/lib/bitmap.c`。
-/

namespace Os161

open Infra (Comp)
open Infra.Comp (assert stuck)

structure Bitmap where
  nbits : Nat
  v : Nat → BitVec 8

namespace Bitmap

/-- `DIVROUNDUP(nbits, BITS_PER_WORD)`。`unsigned` の足し算は溢れる。 -/
def words (nbits : Nat) : Nat := (nbits + 7) % 2 ^ 32 / 8

/-- `bitmap_create`。 -/
def create (nbits : Nat) : Bitmap :=
  let ix := words nbits - 1
  let leftover := (List.range 8).foldl
    (fun w j => if nbits - ix * 8 ≤ j then w ||| BitVec.twoPow 8 j else w) 0
  { nbits := nbits
    v := if nbits / 8 < words nbits then Function.update (fun _ => 0) ix leftover else fun _ => 0 }

def isset (b : Bitmap) (index : Nat) : Bool := (b.v (index / 8)).getLsbD (index % 8)

/-- bit を立てる。 -/
def set (b : Bitmap) (index : Nat) : Bitmap :=
  { b with v := Function.update b.v (index / 8) (b.v (index / 8) ||| BitVec.twoPow 8 (index % 8)) }

/-- bit を下ろす。 -/
def clear (b : Bitmap) (index : Nat) : Bitmap :=
  { b with
    v := Function.update b.v (index / 8) (b.v (index / 8) &&& ~~~ BitVec.twoPow 8 (index % 8)) }

/-- `bitmap_alloc` の探す番号。 -/
def find (b : Bitmap) : Nat → Nat → Option (Except Errno Nat)
  | _, 0 => some (.error .enospc)
  | ix, n + 1 =>
    if b.v ix ≠ BitVec.allOnes 8 then
      match (List.finRange 8).find? fun j : Fin 8 => !(b.v ix).getLsbD j with
      | none => none
      | some j => some (.ok (ix * 8 + j))
    else find b (ix + 1) n

def alloc : Comp Errno Bitmap Nat := do
  let b ← get
  match b.find 0 (words b.nbits) with
  | none => stuck
  | some (.error e) => throw e
  | some (.ok index) => do
    modify fun b => b.set index
    assert (index < b.nbits)
    pure index

def mark (index : Nat) : Comp Errno Bitmap Unit := do
  let b ← get
  assert (index < b.nbits)
  assert (b.isset index = false)
  modify fun b => b.set index

def unmark (index : Nat) : Comp Errno Bitmap Unit := do
  let b ← get
  assert (index < b.nbits)
  assert (b.isset index = true)
  modify fun b => b.clear index

end Bitmap

end Os161
