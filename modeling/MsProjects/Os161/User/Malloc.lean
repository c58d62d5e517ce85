import Mathlib.Algebra.Group.Nat.Defs
import Mathlib.Logic.Function.Basic

/-!
# user の `malloc` と `free`

`user/lib/libc/stdlib/malloc.c`。
-/

namespace Os161.Malloc

def mblocksize : Nat := 8

def mmagic : BitVec 2 := 2

/-- 32 bit に丸める。 -/
def wrap (n : Nat) : Nat := n % 2 ^ 32

/-- 32 bit の引き算。 -/
def wsub (a b : Nat) : Nat := (a + 2 ^ 32 - b) % 2 ^ 32

/-- `(void *)-1`。 -/
def minusOne : Nat := 2 ^ 32 - 1

structure MHeader where
  prevblock : BitVec 29
  pad : Bool
  magic1 : BitVec 2
  nextblock : BitVec 29
  inuse : Bool
  magic2 : BitVec 2
  deriving DecidableEq

def mkfield (off : Nat) : BitVec 29 := BitVec.ofNat 29 (off / mblocksize)

namespace MHeader

/-- 二つの語を header として読む。 -/
def ofWords (w0 w1 : BitVec 32) : MHeader where
  prevblock := w0.extractLsb' 3 29
  pad := w0.getLsbD 2
  magic1 := w0.extractLsb' 0 2
  nextblock := w1.extractLsb' 3 29
  inuse := w1.getLsbD 2
  magic2 := w1.extractLsb' 0 2

/-- `__malloc_deadbeef` の書く 8 byte。 -/
def deadbeef : MHeader := ofWords 0xdeadbeef 0xdeadbeef

def nextoff (mh : MHeader) : Nat := mh.nextblock.toNat * mblocksize

def prevoff (mh : MHeader) : Nat := mh.prevblock.toNat * mblocksize

def size (mh : MHeader) : Nat := wsub mh.nextoff mblocksize

def ok (mh : MHeader) : Bool := mh.magic1 = mmagic ∧ mh.magic2 = mmagic

end MHeader

/-- program の終わり方。 -/
inductive Exit where
  | badInitCall
  | initialSbrkFailed
  | heapBeganAtZero
  | alignSbrkFailed
  | heapBaseMoved
  | heapTopMoved (heaptop x : Nat)
  | splitSize (size : Nat)
  | splitScrewedUp
  | mallocDataCorrupt (heapbase heaptop : Nat)
  | badMagic (i : Nat)
  | badPrevblock (i prevblock rightprevblock : Nat)
  | ranOffEnd
  | freeDataCorrupt (heapbase heaptop : Nat)
  | outOfRange (x : Nat)
  | corruptHeader (x : Nat)
  | alreadyFree (x : Nat)
  | inconsistent (mh mhnext : Nat)
  /-- 終わらない。 -/
  | loops
  deriving DecidableEq

/-- `sbrk` の失敗による終わり方。 -/
def Exit.ofSbrk : Exit → Bool
  | initialSbrkFailed | alignSbrkFailed => true
  | _ => false

/-- 一つの `malloc` の中の `sbrk` が成功するかどうか。 -/
structure Sbrks where
  initial : Bool
  align : Bool
  grow : Bool

/-- `__heapbase` と `__heaptop`、kernel の break と記憶。 -/
structure Heap where
  heapbase : Nat
  heaptop : Nat
  brk : Nat
  mem : Nat → MHeader

namespace Heap

variable (h : Heap)

/-- 番地 `mh` の header。 -/
def header (mh : Nat) : MHeader := h.mem (mh / mblocksize)

def modify (mh : Nat) (f : MHeader → MHeader) : Heap :=
  { h with mem := Function.update h.mem (mh / mblocksize) (f (h.header mh)) }

def next (mh : Nat) : Nat := wrap (mh + (h.header mh).nextoff)

def prev (mh : Nat) : Nat := wsub mh (h.header mh).prevoff

def sbrk (success : Bool) (k : Nat) : Nat × Heap :=
  if success ∧ h.brk + k < 2 ^ 32 then (h.brk, { h with brk := h.brk + k }) else (minusOne, h)

def mallocInit (env : Sbrks) : Except Exit Heap :=
  if h.heapbase ≠ 0 ∨ h.heaptop ≠ 0 then .error .badInitCall
  else
    let (x, h) := h.sbrk env.initial 0
    if x = minusOne then .error .initialSbrkFailed
    else if x = 0 then .error .heapBeganAtZero
    else if x % mblocksize ≠ 0 then
      let adjust := mblocksize - x % mblocksize
      let (y, h) := h.sbrk env.align adjust
      if y = minusOne then .error .alignSbrkFailed
      else if y ≠ x then .error .heapBaseMoved
      else .ok { h with heapbase := wrap (x + adjust), heaptop := wrap (x + adjust) }
    else .ok { h with heapbase := x, heaptop := x }

def mallocSbrk (success : Bool) (size : Nat) : Except Exit (Nat × Heap) :=
  let (x, h) := h.sbrk success size
  if x = minusOne then .ok (0, h)
  else if x ≠ h.heaptop then .error (.heapTopMoved h.heaptop x)
  else .ok (x, { h with heaptop := wrap (h.heaptop + size) })

/-- `mhnext` が heap の上端でなければ、その `mh_prevblock` を書く。 -/
def setPrevblock (mhnext : Nat) (prevblock : BitVec 29) : Heap :=
  if mhnext ≠ h.heaptop then h.modify mhnext fun c => { c with prevblock := prevblock } else h

def mallocSplit (mh size : Nat) : Except Exit Heap :=
  if size % mblocksize ≠ 0 then .error (.splitSize size)
  else if wsub (h.header mh).size size < 2 * mblocksize then .ok h
  else
    let mhnext := h.next mh
    let oldsize := (h.header mh).size
    let h := h.modify mh fun c => { c with nextblock := mkfield (wrap (size + mblocksize)) }
    let mhnew := h.next mh
    if mhnew = mhnext then .error .splitScrewedUp
    else
      let h := h.modify mhnew fun _ =>
        { prevblock := mkfield (wrap (size + mblocksize)), pad := false, magic1 := mmagic,
          nextblock := mkfield (wsub oldsize size), inuse := false, magic2 := mmagic }
      .ok (h.setPrevblock mhnext (h.header mhnew).nextblock)

/-- loop の結果。 -/
inductive Scan where
  /-- 使える block の header。 -/
  | found (mh : Nat)
  /-- 最後まで辿った。 -/
  | top (i rightprevblock : Nat)

/-- 使える block を探す loop。 -/
def scan (size : Nat) : Nat → Nat → Nat → Except Exit Scan
  | 0, _, _ => .error .loops
  | fuel + 1, i, rightprevblock =>
    if i < h.heaptop then
      let mh := h.header i
      if mh.ok = false then .error (.badMagic i)
      else if mh.prevblock.toNat ≠ rightprevblock then
        .error (.badPrevblock i mh.prevblock.toNat rightprevblock)
      else if mh.inuse = true ∨ mh.size < size then
        scan size fuel (wrap (i + mh.nextoff)) mh.nextblock.toNat
      else .ok (.found i)
    else .ok (.top i rightprevblock)

/-- heap の cell の数より一つ多く回す。 -/
def fuel : Nat := (h.heaptop - h.heapbase) / mblocksize + 1

/-- 見つかった block を取る。 -/
def take (mh size : Nat) : Except Exit (Nat × Heap) :=
  match h.mallocSplit mh size with
  | .error e => .error e
  | .ok h => .ok (wrap (mh + mblocksize), h.modify mh fun c => { c with inuse := true })

/-- heap を伸ばす。 -/
def expand (success : Bool) (size rightprevblock : Nat) : Except Exit (Nat × Heap) :=
  match h.mallocSbrk success (wrap (size + mblocksize)) with
  | .error e => .error e
  | .ok (mh, h) =>
    if mh = 0 then .ok (0, h)
    else
      .ok (wrap (mh + mblocksize), h.modify mh fun _ =>
        { prevblock := BitVec.ofNat 29 rightprevblock, magic1 := mmagic, magic2 := mmagic, pad := false,
          inuse := true, nextblock := mkfield (wrap (size + mblocksize)) })

/-- size を block の倍数に切り上げる。 -/
def roundup (size : Nat) : Nat := wrap (size + mblocksize - 1) / mblocksize * mblocksize

/-- `__malloc_init` の後の `malloc`。 -/
def allocate (success : Bool) (size : Nat) : Except Exit (Nat × Heap) :=
  if h.heapbase = 0 ∨ h.heaptop = 0 ∨ h.heapbase > h.heaptop then
    .error (.mallocDataCorrupt h.heapbase h.heaptop)
  else
    match h.scan (roundup size) h.fuel h.heapbase 0 with
    | .error e => .error e
    | .ok (.found mh) => h.take mh (roundup size)
    | .ok (.top i rightprevblock) =>
      if i ≠ h.heaptop then .error .ranOffEnd
      else h.expand success (roundup size) rightprevblock

def malloc (env : Sbrks) (size : Nat) : Except Exit (Nat × Heap) :=
  if h.heapbase = 0 then
    match h.mallocInit env with
    | .error e => .error e
    | .ok h => h.allocate env.grow size
  else h.allocate env.grow size

def mallocDeadbeef (ptr size : Nat) : Heap :=
  { h with mem := fun i =>
      if ptr / mblocksize ≤ i ∧ i < ptr / mblocksize + size / mblocksize then MHeader.deadbeef
      else h.mem i }

def mallocTrymerge (mh mhnext : Nat) : Except Exit Heap :=
  if (h.header mh).nextblock ≠ (h.header mhnext).prevblock then .error (.inconsistent mh mhnext)
  else if (h.header mh).inuse = true ∨ (h.header mhnext).inuse = true then .ok h
  else
    let mhnextnext := h.next mhnext
    let size := wrap (mblocksize + (h.header mh).size + mblocksize + (h.header mhnext).size)
    let h := h.modify mh fun c => { c with nextblock := mkfield size }
    let h := h.setPrevblock mhnextnext (h.header mh).nextblock
    .ok (h.mallocDeadbeef mhnext mblocksize)

/-- 印を外した block を、上の block、下の block と順に繋ぐ。 -/
def merge (mh : Nat) : Except Exit Heap :=
  let mhnext := h.next mh
  match if mhnext ≠ h.heaptop then h.mallocTrymerge mh mhnext else .ok h with
  | .error e => .error e
  | .ok h => if mh ≠ h.heapbase then h.mallocTrymerge (h.prev mh) mh else .ok h

def free (x : Nat) : Except Exit Heap :=
  if x = 0 then .ok h
  else if h.heapbase = 0 ∨ h.heaptop = 0 ∨ h.heapbase > h.heaptop then
    .error (.freeDataCorrupt h.heapbase h.heaptop)
  else if x < h.heapbase ∨ h.heaptop ≤ x then .error (.outOfRange x)
  else
    let mh := wsub x mblocksize
    if (h.header mh).ok = false then .error (.corruptHeader x)
    else if (h.header mh).inuse = false then .error (.alreadyFree x)
    else
      let h := h.modify mh fun c => { c with inuse := false }
      (h.mallocDeadbeef (wrap (mh + mblocksize)) (h.header mh).size).merge mh

end Heap

/-! ## program -/

/-- program の状態。 -/
structure Program where
  heap : Heap
  live : List (Nat × Nat)
  exited : Option Exit

/-- 最初の `malloc` の前の状態。 -/
def boot (brk : Nat) (mem : Nat → MHeader) : Program := ⟨⟨0, 0, brk, mem⟩, [], none⟩

/-- program の行うこと。 -/
inductive Op where
  | malloc (size : Nat) (env : Sbrks)
  | free (x : Nat)
  /-- pointer `x` の block の `j` 番目の 8 byte に書く。 -/
  | write (x j : Nat) (value : MHeader)

namespace Program

def step (s : Program) : Op → Option Program
  | .malloc size env =>
    if s.exited = none ∧ size < 2 ^ 31 then
      match s.heap.malloc env size with
      | .error e => some { s with exited := some e }
      | .ok (x, heap) =>
        some { s with heap := heap, live := if x = 0 then s.live else s.live ++ [(x, size)] }
    else none
  | .free x =>
    if s.exited = none ∧ (x = 0 ∨ x ∈ s.live.map Prod.fst) then
      match s.heap.free x with
      | .error e => some { s with exited := some e }
      | .ok heap => some { s with heap := heap, live := s.live.filter fun y => y.1 ≠ x }
    else none
  | .write x j value =>
    if s.exited = none ∧ x ∈ s.live.map Prod.fst ∧
        j < (s.heap.header (wsub x mblocksize)).size / mblocksize then
      some { s with heap := { s.heap with mem := Function.update s.heap.mem (x / mblocksize + j) value } }
    else none

end Program

end Os161.Malloc
