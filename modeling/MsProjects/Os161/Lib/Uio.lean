import MsProjects.Infra.Comp
import MsProjects.Os161.Arch

/-!
# uio

`kern/lib/uio.c`。
-/

namespace Os161

open Infra (Comp)
open Infra.Comp (assert stuck)

inductive UioRw where
  | read
  | write
  deriving DecidableEq

structure Iovec where
  base : Nat
  len : Nat

/-- `struct uio`。 -/
structure Uio where
  iov : List Iovec
  offset : Nat
  resid : Nat
  rw : UioRw

/-- `uio` と、その指す空間の中身。 -/
structure Xfer where
  uio : Uio
  mem : Nat → UInt8

/-- 番地の列に byte を順に書く。 -/
def scatter (mem : Nat → UInt8) : List Nat → List UInt8 → Nat → UInt8
  | a :: addrs, b :: bytes => scatter (Function.update mem a b) addrs bytes
  | _, _ => mem

/-- `uiomove` の loop。 -/
def uiomoveLoop : Nat → List UInt8 → Comp Errno Xfer (List UInt8)
  | 0, _ => stuck
  | fuel + 1, ptr => do
    let x ← get
    if ptr.length = 0 ∨ x.uio.resid = 0 then pure ptr
    else
      match x.uio.iov with
      | [] => stuck
      | v :: rest =>
        let size := min v.len ptr.length
        if size = 0 then do
          -- 次の iovec に移る。もう無ければ panic する
          assert (rest ≠ [])
          set { x with uio := { x.uio with iov := rest } }
          uiomoveLoop fuel ptr
        else do
          let addrs := List.range' v.base size
          set ({
            uio := { x.uio with
              iov := ⟨v.base + size, v.len - size⟩ :: rest
              resid := (x.uio.resid + 2 ^ 32 - size) % 2 ^ 32
              offset := x.uio.offset + size }
            mem := if x.uio.rw = .read then scatter x.mem addrs (ptr.take size) else x.mem } : Xfer)
          let moved := if x.uio.rw = .read then ptr.take size else addrs.map x.mem
          let rest ← uiomoveLoop fuel (ptr.drop size)
          pure (moved ++ rest)

def uiomove (ptr : List UInt8) : Comp Errno Xfer (List UInt8) := do
  let x ← get
  uiomoveLoop (ptr.length + x.uio.iov.length + 1) ptr

/-- `uiomovezeros` の loop。 -/
def zerosLoop : Nat → Nat → Comp Errno Xfer Unit
  | 0, _ => stuck
  | fuel + 1, n =>
    if n = 0 then pure ()
    else do
      let amt := min 16 n
      let _ ← uiomove (List.replicate amt 0)
      zerosLoop fuel (n - amt)

def uiomovezeros (n : Nat) : Comp Errno Xfer Unit := do
  let x ← get
  assert (x.uio.rw = .read)
  zerosLoop (n + 1) n

def uioKinit (kbuf len pos : Nat) (rw : UioRw) : Uio := ⟨[⟨kbuf, len⟩], pos, len, rw⟩

end Os161
