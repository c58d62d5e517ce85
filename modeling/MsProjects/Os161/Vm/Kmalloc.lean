import Mathlib.Algebra.Group.Nat.Defs
import Mathlib.Data.List.FinRange

/-!
# kernel の `kmalloc` と `kfree`

`kern/vm/kmalloc.c`。
-/

namespace Os161.Kmalloc

open Function

def pageSize : Nat := 4096

/-- `pagerefs` の番号。 -/
abbrev Ref := Fin 256

def invalidOffset : Nat := 0xffff

def largestSubpageSize : Nat := 2048

def sizes : Fin 8 → Nat
  | 0 => 16
  | 1 => 32
  | 2 => 64
  | 3 => 128
  | 4 => 256
  | 5 => 512
  | 6 => 1024
  | 7 => 2048

/-- 一つの page の block の数。 -/
def nblocks (k : Fin 8) : Nat := pageSize / sizes k

structure Pageref where
  nextSamesize : Option Ref
  nextAll : Option Ref
  pageaddrAndBlocktype : Nat
  freelistOffset : Nat
  nfree : Nat

namespace Pageref

def pageaddr (pr : Pageref) : Nat := pr.pageaddrAndBlocktype / pageSize * pageSize

def blocktype (pr : Pageref) : Nat := pr.pageaddrAndBlocktype % pageSize

end Pageref

def mkpab (pa blk : Nat) : Nat := pa / pageSize * pageSize + blk % pageSize

/-- `kmalloc.c` の変数と記憶。 -/
structure Heap where
  pagerefs : Ref → Pageref
  pagerefsInuse : Fin 8 → BitVec 32
  sizebases : Fin 8 → Option Ref
  allbase : Option Ref
  mem : Nat → Nat

def blocktype (sz : Nat) : Option (Fin 8) := (List.finRange 8).find? fun i => sz ≤ sizes i

namespace Heap

variable (h : Heap)

def modify (r : Ref) (f : Pageref → Pageref) : Heap :=
  { h with pagerefs := update h.pagerefs r (f (h.pagerefs r)) }

/-! ## pageref -/

/-- `pagerefs` の番号。 -/
def refOf (i : Fin 8) (j : Fin 32) : Ref := ⟨i * 32 + j, by omega⟩

/-- 番号の語。 -/
def wordOf (r : Ref) : Fin 8 := ⟨r / 32, by omega⟩

/-- 番号に当たる bit が立っている。 -/
def inuse (r : Ref) : Bool := (h.pagerefsInuse (wordOf r)).getLsbD (r % 32)

/-- `allocpageref` の見つける番号。 -/
def findPageref : Option Ref :=
  (List.finRange 8).findSome? fun i =>
    if h.pagerefsInuse i = BitVec.allOnes 32 then none
    else ((List.finRange 32).find? fun j : Fin 32 => !(h.pagerefsInuse i).getLsbD j.val).map (refOf i)

def allocpageref : Option (Ref × Heap) :=
  match h.findPageref with
  | none => none
  | some r => some (r, { h with
      pagerefsInuse := update h.pagerefsInuse (wordOf r)
        (h.pagerefsInuse (wordOf r) ||| BitVec.twoPow 32 (r % 32)) })

def freepageref (r : Ref) : Option Heap :=
  if h.inuse r then
    some { h with
      pagerefsInuse := update h.pagerefsInuse (wordOf r)
        (h.pagerefsInuse (wordOf r) &&& ~~~ BitVec.twoPow 32 (r % 32)) }
  else none

/-! ## 列を辿る loop -/

/-- 列を辿って `stop` の成り立つ pageref を探す。 -/
def search (next : Ref → Option Ref) (check stop : Ref → Bool) : Nat → Option Ref → Option (Option Ref)
  | 0, _ => none
  | _ + 1, none => some none
  | fuel + 1, some r =>
    if check r = false then none
    else if stop r then some (some r)
    else search next check stop fuel (next r)

/-- `remove_lists` の `guy` の指す変数。 -/
inductive Guy where
  /-- 列の先頭の変数。 -/
  | base
  /-- pageref の field。 -/
  | field (r : Ref)
  /-- 見つからない。 -/
  | absent
  deriving DecidableEq

/-- `*guy == pr` となる `guy` を探す。 -/
def findGuy (next : Ref → Option Ref) (pr : Ref) : Nat → Guy → Option Ref → Option Guy
  | 0, _, _ => none
  | _ + 1, _, none => some .absent
  | fuel + 1, guy, some r => if r = pr then some guy else findGuy next pr fuel (.field r) (next r)

/-- pageref の数より一つ多く回す。 -/
def fuel : Nat := 257

def nextSamesize (r : Ref) : Option Ref := (h.pagerefs r).nextSamesize

def nextAll (r : Ref) : Option Ref := (h.pagerefs r).nextAll

/-- 同じ大きさの列から外す。 -/
def removeSamesize (pr : Ref) (blktype : Fin 8) : Option Heap :=
  match findGuy h.nextSamesize pr fuel .base (h.sizebases blktype) with
  | none => none
  | some .base => some { h with
      sizebases := update h.sizebases blktype (h.nextSamesize pr) }
  | some (.field r) => some (h.modify r fun p => { p with nextSamesize := h.nextSamesize pr })
  | some .absent => some h

/-- 全体の列から外す。 -/
def removeAll (pr : Ref) : Option Heap :=
  match findGuy h.nextAll pr fuel .base h.allbase with
  | none => none
  | some .base => some { h with allbase := h.nextAll pr }
  | some (.field r) => some (h.modify r fun p => { p with nextAll := h.nextAll pr })
  | some .absent => some h

def removeLists (pr : Ref) (blktype : Fin 8) : Option Heap :=
  (h.removeSamesize pr blktype).bind fun h => h.removeAll pr

/-! ## 取ること -/

/-- `doalloc` から先。 -/
def doalloc (pr : Ref) : Option (Nat × Heap) :=
  let p := h.pagerefs pr
  if p.freelistOffset < pageSize then
    let prpage := p.pageaddr
    let retptr := prpage + p.freelistOffset
    let fl := h.mem retptr
    let nfree := (p.nfree + 65535) % 65536
    if fl ≠ 0 then
      let offset := (fl + 2 ^ 32 - prpage) % 2 ^ 32
      if 0 < nfree ∧ offset < pageSize then
        some (retptr, h.modify pr fun p => { p with nfree := nfree, freelistOffset := offset })
      else none
    else if nfree = 0 then
      some (retptr, h.modify pr fun p => { p with nfree := nfree, freelistOffset := invalidOffset })
    else none
  else none

/-- `subpage_kmalloc` の一つ目の critical section の結果。 -/
inductive Scan where
  | block (ptr : Nat) (h : Heap)
  | needPage

/-- `subpage_kmalloc` の、`alloc_kpages` を呼ぶまで。 -/
def subpageKmalloc (blktype : Fin 8) : Option Scan :=
  match search h.nextSamesize (fun r => (h.pagerefs r).blocktype = blktype)
    (fun r => 0 < (h.pagerefs r).nfree) fuel (h.sizebases blktype) with
  | none => none
  | some none => some .needPage
  | some (some pr) =>
    match h.doalloc pr with
    | none => none
    | some (ptr, h) => some (.block ptr h)

/-- 新しい page の block を繋ぐ loop。 -/
def initFreelist (mem : Nat → Nat) (prpage sz : Nat) : Nat → Nat → Nat
  | 0 => update mem prpage 0
  | i + 1 => update (initFreelist mem prpage sz i) (prpage + (i + 1) * sz) (prpage + i * sz)

/-- 新しい page を pageref に結び付け、二つの列の先頭に足す。 -/
def addPage (pr : Ref) (prpage : Nat) (blktype : Fin 8) : Heap :=
  { h with
    pagerefs := update h.pagerefs pr
      { nextSamesize := h.sizebases blktype
        nextAll := h.allbase
        pageaddrAndBlocktype := mkpab prpage blktype
        freelistOffset := (nblocks blktype - 1) * sizes blktype
        nfree := nblocks blktype }
    sizebases := update h.sizebases blktype (some pr)
    allbase := some pr
    mem := initFreelist h.mem prpage (sizes blktype) (nblocks blktype - 1) }

/-- `subpage_kmalloc` の二つ目の critical section の結果。 -/
inductive Added where
  | block (ptr : Nat) (h : Heap)
  | noPageref

/-- `subpage_kmalloc` の、`alloc_kpages` が page を返した後。 -/
def subpageNewPage (prpage : Nat) (blktype : Fin 8) : Option Added :=
  match h.allocpageref with
  | none => some .noPageref
  | some (pr, h) =>
    match (h.addPage pr prpage blktype).doalloc pr with
    | none => none
    | some (ptr, h) => some (.block ptr h)

/-! ## 返すこと -/

def fillDeadbeef (mem : Nat → Nat) (ptr len : Nat) : Nat → Nat :=
  fun a => if ptr ≤ a ∧ a < ptr + len then 0xdeadbeef else mem a

/-- `subpage_kfree` の結果。 -/
inductive Freed where
  /-- どの page の block でもない。 -/
  | notOurs
  | kept (h : Heap)
  /-- page がすべて空いた。 -/
  | whole (h : Heap) (prpage : Nat)

/-- block を空きの列の先頭に足す。 -/
def pushFree (pr : Ref) (ptr : Nat) (blktype : Fin 8) : Heap :=
  let p := h.pagerefs pr
  let next := if p.freelistOffset = invalidOffset then 0 else p.pageaddr + p.freelistOffset
  { h.modify pr fun p => { p with
      freelistOffset := ptr - p.pageaddr
      nfree := (p.nfree + 1) % 65536 } with
    mem := update (fillDeadbeef h.mem ptr (sizes blktype)) ptr next }

/-- 見つかった page に block を返す。 -/
def release (pr : Ref) (ptr : Nat) (blktype : Fin 8) : Option Freed :=
  let prpage := (h.pagerefs pr).pageaddr
  let offset := ptr - prpage
  if pageSize ≤ offset ∨ offset % sizes blktype ≠ 0 then none
  else
    let h := h.pushFree pr ptr blktype
    if nblocks blktype < (h.pagerefs pr).nfree then none
    else if (h.pagerefs pr).nfree = nblocks blktype then
      ((h.removeLists pr blktype).bind fun h => h.freepageref pr).map fun h => .whole h prpage
    else some (.kept h)

def subpageKfree (ptr : Nat) : Option Freed :=
  match search h.nextAll (fun r => (h.pagerefs r).blocktype < 8)
    (fun r => (h.pagerefs r).pageaddr ≤ ptr ∧ ptr < (h.pagerefs r).pageaddr + pageSize) fuel h.allbase with
  | none => none
  | some none => some .notOurs
  | some (some pr) =>
    if hlt : (h.pagerefs pr).blocktype < 8 then h.release pr ptr ⟨(h.pagerefs pr).blocktype, hlt⟩ else none

end Heap

/-! ## 系 -/

/-- `kmalloc` の取る page の数。 -/
def npages (sz : Nat) : Nat := (sz + pageSize - 1) % 2 ^ 32 / pageSize

/-- `alloc_kpages` か `free_kpages` の中にいる呼び出し。 -/
inductive Call where
  /-- `subpage_kmalloc(sz)` の `alloc_kpages(1)`。 -/
  | subpage (sz : Nat)
  /-- `kmalloc(sz)` の `alloc_kpages(npages)`。 -/
  | big (sz : Nat)
  | free (addr : Nat)
  deriving DecidableEq

/-- 系の状態。 -/
structure System where
  heap : Heap
  live : List (Nat × Nat)
  pages : List (Nat × Nat)
  calls : List Call
  panicked : Bool

/-- 起動時の状態。 -/
def boot (mem : Nat → Nat) : System where
  heap :=
    { pagerefs := fun _ => ⟨none, none, 0, 0, 0⟩
      pagerefsInuse := fun _ => 0
      sizebases := fun _ => none
      allbase := none
      mem := mem }
  live := []
  pages := []
  calls := []
  panicked := false

inductive Op where
  | kmalloc (sz : Nat)
  /-- `i` 番目の呼び出しの `alloc_kpages` が `addr` を返す。 -/
  | allocated (i addr : Nat)
  | kfree (ptr : Nat)
  /-- `i` 番目の呼び出しの `free_kpages` が終わる。 -/
  | freed (i : Nat)
  /-- 番地 `a` の語に書く。 -/
  | write (a value : Nat)

/-- block の大きさ。 -/
def extent (sz : Nat) : Nat :=
  if largestSubpageSize ≤ sz then npages sz * pageSize
  else (blocktype sz).elim 0 sizes

namespace System

variable (s : System)

/-- 使われていない page の並び。終わりの番地も 32 bit に収まる。 -/
def Fresh (addr n : Nat) : Prop :=
  addr % pageSize = 0 ∧ addr + n * pageSize < 2 ^ 32 ∧
    ∀ p ∈ s.pages, p.1 + p.2 * pageSize ≤ addr ∨ addr + n * pageSize ≤ p.1

instance (addr n : Nat) : Decidable (s.Fresh addr n) :=
  inferInstanceAs (Decidable (_ ∧ _ ∧ ∀ p ∈ s.pages, _))

/-- 書いてよい番地。 -/
def Writable (a : Nat) : Prop :=
  (∃ x ∈ s.live, x.1 ≤ a ∧ a < x.1 + extent x.2) ∨ ∀ p ∈ s.pages, a < p.1 ∨ p.1 + p.2 * pageSize ≤ a

instance (a : Nat) : Decidable (s.Writable a) :=
  inferInstanceAs (Decidable ((∃ x ∈ s.live, _) ∨ ∀ p ∈ s.pages, _))

def panic : System := { s with panicked := true }

def kmalloc (sz : Nat) : System :=
  if largestSubpageSize ≤ sz then { s with calls := s.calls ++ [.big sz] }
  else
    match blocktype sz with
    | none => s.panic
    | some k =>
      match s.heap.subpageKmalloc k with
      | none => s.panic
      | some .needPage => { s with calls := s.calls ++ [.subpage sz] }
      | some (.block ptr heap) => { s with heap := heap, live := s.live ++ [(ptr, sz)] }

/-- 新しい page から block を取る。 -/
def newPage (sz addr : Nat) : System :=
  match blocktype sz with
  | none => s.panic
  | some k =>
    match s.heap.subpageNewPage addr k with
    | none => s.panic
    | some .noPageref => { s with pages := s.pages ++ [(addr, 1)], calls := s.calls ++ [.free addr] }
    | some (.block ptr heap) =>
      { s with heap := heap, live := s.live ++ [(ptr, sz)], pages := s.pages ++ [(addr, 1)] }

def kfree (ptr : Nat) : System :=
  if ptr = 0 then s
  else
    let rest := { s with live := s.live.filter fun x => x.1 ≠ ptr }
    match s.heap.subpageKfree ptr with
    | none => rest.panic
    | some .notOurs =>
      if ptr % pageSize ≠ 0 then rest.panic else { rest with calls := rest.calls ++ [.free ptr] }
    | some (.kept heap) => { rest with heap := heap }
    | some (.whole heap prpage) => { rest with heap := heap, calls := rest.calls ++ [.free prpage] }

/-- 系の step。 -/
def step : Op → Option System
  | .kmalloc sz =>
    if s.panicked = false ∧ sz ≤ 2 ^ 32 - 4096 then some (s.kmalloc sz) else none
  | .allocated i addr =>
    if s.panicked = false then
      let rest := { s with calls := s.calls.eraseIdx i }
      match s.calls[i]? with
      | some (.subpage sz) =>
        if addr = 0 then some rest else if s.Fresh addr 1 then some (rest.newPage sz addr) else none
      | some (.big sz) =>
        if addr = 0 then some rest
        else if s.Fresh addr (npages sz) then
          some { rest with live := s.live ++ [(addr, sz)], pages := s.pages ++ [(addr, npages sz)] }
        else none
      | _ => none
    else none
  | .kfree ptr =>
    if s.panicked = false ∧ (ptr = 0 ∨ ptr ∈ s.live.map Prod.fst) then some (s.kfree ptr) else none
  | .freed i =>
    if s.panicked = false then
      match s.calls[i]? with
      | some (.free addr) =>
        some { s with calls := s.calls.eraseIdx i, pages := s.pages.filter fun p => p.1 ≠ addr }
      | _ => none
    else none
  | .write a value =>
    if s.panicked = false ∧ s.Writable a then
      some { s with heap := { s.heap with mem := update s.heap.mem a value } }
    else none

end System

end Os161.Kmalloc
