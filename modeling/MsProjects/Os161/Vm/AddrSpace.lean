import MsProjects.Infra.Slots
import MsProjects.Os161.Vm.Coremap

/-!
# address space

`kern/vm/addrspace.c` のうち page table を触る関数。
-/

namespace Os161

open Infra

abbrev ptableArraySize : Nat := 338

/-- `struct page_entry`。 -/
structure PageEntry where
  pageVaddr : Vaddr
  pagePaddr : Paddr
  isRead : Bool
  isWrite : Bool
  isExe : Bool
  deriving DecidableEq, Repr

/-- frame が 0 の entry は空きである。 -/
def PageEntry.vacant (e : PageEntry) : Bool := e.pagePaddr == 0

/-- `struct page_table`。 -/
structure PageTable where
  addr : Vaddr
  table : List PageEntry
  entryCount : Nat
  len : table.length = ptableArraySize

structure AddrSpace where
  vbreakbase : Vaddr
  vbreaktop : Vaddr
  heapNPages : UInt32
  vstart : Vaddr
  start : PageTable
  next : List PageTable
  «end» : Nat
  codeNPages : UInt32
  dataNPages : UInt32

/-- `start` から辿れる表の列。 -/
def AddrSpace.tables (as : AddrSpace) : List PageTable := as.start :: as.next

/-- page 一枚の中身。 -/
abbrev Page := Fin 4096 → UInt8

/-- `bzero` した page。 -/
def Page.zero : Page := fun _ => 0

/-! ## 物理 memory と kernel の heap -/

/-- 物理 memory。 -/
structure Mem where
  cm : Coremap
  page : Paddr → Page
  junk : Nat → PageTable
  kmallocs : Nat
  /-- 取った page の記録。 -/
  obtained : List Paddr
  /-- `page_free` と `kfree` に渡した page の記録。 -/
  freed : List Paddr

namespace Mem

/-- 一枚に収まる大きさの `kmalloc`。 -/
def kmalloc (m : Mem) : Option (PageTable × Mem) :=
  let r := m.cm.allocKpages 1
  if r.1 = 0 then none
  else some ({ m.junk m.kmallocs with addr := r.1 },
    { m with cm := r.2, kmallocs := m.kmallocs + 1, obtained := m.obtained ++ [kvaddrToPaddr r.1] })

/-- 一枚の block の `kfree`。 -/
def kfree (m : Mem) (addr : Vaddr) : Mem :=
  { m with cm := m.cm.freeKpages addr, freed := m.freed ++ [kvaddrToPaddr addr] }

def pageFree (m : Mem) (paddr : Paddr) : Mem :=
  { m with cm := m.cm.pageFree paddr, freed := m.freed ++ [paddr] }

/-- user の page を一枚取る。 -/
def allocUpage (m : Mem) : Option (Paddr × Mem) :=
  m.cm.allocUpage.map fun r => (r.1, { m with cm := r.2, obtained := m.obtained ++ [r.1] })

/-- page 一枚への `memcpy` または `bzero`。 -/
def writePage (m : Mem) (paddr : Paddr) (p : Page) : Mem :=
  { m with page := Function.update m.page paddr p }

/-- `as_zero_region(paddr, 1)`。 -/
def asZeroRegion (m : Mem) (paddr : Paddr) : Mem := m.writePage paddr Page.zero

end Mem

/-! ## 表の走査 -/

/-- 一つの表の中の探索。 -/
def PageTable.find (t : PageTable) (vaddr : Vaddr) : Option PageEntry :=
  Slots.scan PageEntry.vacant (fun e => e.pageVaddr == vaddr) t.table

/-- `vm_fault` の探索。 -/
def findEntry (vaddr : Vaddr) : List PageTable → Option PageEntry
  | [] => none
  | t :: ts =>
    match t.find vaddr with
    | some e => some e
    | none => findEntry vaddr ts

/-- 一つの表への `addPageEntry`。 -/
def PageTable.add (t : PageTable) (e : PageEntry) : Option PageTable :=
  if t.entryCount ≠ ptableArraySize then
    match h : Slots.fill PageEntry.vacant e t.table with
    | some l =>
      some { t with
        table := l
        entryCount := (t.entryCount + 1) % 2 ^ 9
        len := (Slots.length_fill h).trans t.len }
    | none => none
  else none

/-- 既にある表への `addPageEntry`。 -/
def addToTables (e : PageEntry) : List PageTable → Option (List PageTable)
  | [] => none
  | t :: ts =>
    match t.add e with
    | some t' => some (t' :: ts)
    | none => (addToTables e ts).map (t :: ·)

/-! ## curthread の address space への操作 -/

/-- curthread から見える kernel の状態。 -/
structure Cur where
  mem : Mem
  as : AddrSpace

/-- `addPageEntry` が新しい表に書く内容。 -/
def PageTable.fresh (temp : PageTable) (e : PageEntry) : PageTable where
  addr := temp.addr
  table := e :: temp.table.tail.map fun x => { x with pagePaddr := 0 }
  entryCount := 1
  len := by
    have := temp.len
    simp [this]

def addPageEntry (c : Cur) (e : PageEntry) : Option Cur :=
  match c.as.start.add e with
  | some t => some { c with as := { c.as with start := t } }
  | none =>
    match addToTables e c.as.next with
    | some ts => some { c with as := { c.as with next := ts } }
    | none =>
      match c.mem.kmalloc with
      | none => none
      | some (temp, mem) =>
        some ⟨mem, { c.as with
          next := c.as.next.take c.as.end ++ [temp.fresh e]
          «end» := c.as.end + 1 }⟩

def asCreate (m : Mem) : Option (AddrSpace × Mem) :=
  match m.kmalloc with
  | none => none
  | some (temp, m) =>
    some ({
      vbreakbase := 0
      vbreaktop := 0
      heapNPages := 0
      vstart := 0
      start := {
        addr := temp.addr
        table := temp.table.map fun x => { x with pagePaddr := 0 }
        entryCount := 0
        len := by simp [temp.len] }
      next := []
      «end» := 0
      codeNPages := 0
      dataNPages := 0 }, m)

/-! ## as_destroy -/

/-- `as_destroy` が `page_free` を呼ぶ frame を、呼ぶ順に並べたもの。 -/
def destroyFrames (ts : List PageTable) : List Paddr :=
  ts.flatMap fun t => (Slots.occupied PageEntry.vacant t.table).map PageEntry.pagePaddr

/-- `as_destroy` が `kfree` を呼ぶ表の番地を、呼ぶ順に並べたもの。 -/
def destroyTables (as : AddrSpace) : List Vaddr := as.next.map PageTable.addr

def asDestroy (m : Mem) (as : AddrSpace) : Mem :=
  let m := (destroyFrames as.tables).foldl Mem.pageFree m
  let m := (destroyTables as).foldl Mem.kfree m
  m.kfree as.start.addr

/-! ## as_copy -/

/-- `as_copy` の内側の loop。 -/
def copySlots (m : Mem) : List PageEntry → List PageEntry → Bool × List PageEntry × Mem
  | o :: os, n :: ns =>
    if o.pagePaddr ≠ 0 then
      match m.allocUpage with
      | none => (false, { o with pagePaddr := n.pagePaddr } :: ns, m)
      | some (paddr, m) =>
        let r := copySlots (m.writePage paddr (m.page o.pagePaddr)) os ns
        (r.1, { o with pagePaddr := paddr } :: r.2.1, r.2.2)
    else
      let r := copySlots m os ns
      (r.1, { o with pagePaddr := 0 } :: r.2.1, r.2.2)
  | _, ns => (true, ns, m)

theorem length_copySlots (m : Mem) (os ns : List PageEntry) :
    (copySlots m os ns).2.1.length = ns.length := by
  fun_induction copySlots m os ns with
  | case1 => rfl
  | case2 _ _ _ _ _ _ _ _ _ _ ih => exact congrArg (· + 1) ih
  | case3 _ _ _ _ _ _ _ ih => exact congrArg (· + 1) ih
  | case4 => rfl

/-- 一つの表を写す。 -/
def copyTable (m : Mem) (o n : PageTable) : Bool × PageTable × Mem :=
  let r := copySlots m o.table n.table
  (r.1, { n with
    table := r.2.1
    entryCount := o.entryCount
    len := (length_copySlots m o.table n.table).trans n.len }, r.2.2)

/-- 二つ目以降の表を写す。 -/
def copyChain (m : Mem) (new : AddrSpace) :
    List PageTable → Option (Except Errno AddrSpace × Mem)
  | [] => some (.ok new, m)
  | o :: os =>
    match m.kmalloc with
    | none => none
    | some (temp, m) =>
      let r := copyTable m o temp
      let new := { new with next := new.next ++ [r.2.1] }
      if r.1 then copyChain r.2.2 new os
      else some (.error .enomem, asDestroy r.2.2 new)

def asCopy (m : Mem) (old : AddrSpace) : Option (Except Errno AddrSpace × Mem) :=
  match asCreate m with
  | none => some (.error .enomem, m)
  | some (new, m) =>
    let r := copyTable m old.start new.start
    let new := { new with start := r.2.1 }
    if r.1 then copyChain r.2.2 new old.next
    else some (.error .enomem, asDestroy r.2.2 new)

/-! ## 実行形式を読み込むための領域 -/

def asDefineRegion (as : AddrSpace) (vaddr sz : UInt32) : Except Errno AddrSpace :=
  let sz := sz + (vaddr &&& ~~~pageFrame)
  let vaddr := vaddr &&& pageFrame
  let sz := (sz + pageSize - 1) &&& pageFrame
  let npages := sz / pageSize
  if as.codeNPages = 0 then
    .ok { as with
      vstart := vaddr
      codeNPages := npages
      vbreakbase := npages * pageSize + vaddr
      vbreaktop := npages * pageSize + vaddr }
  else if as.dataNPages = 0 then
    .ok { as with
      dataNPages := npages
      vbreakbase := npages * pageSize + vaddr
      vbreaktop := npages * pageSize + vaddr }
  else .error .eunimp

/-- `as_prepare_load` の loop 一つ分。 -/
def prepareLoop (base : Vaddr) : Nat → UInt32 → Cur → Option (Except Errno Unit × Cur)
  | 0, _, c => some (.ok (), c)
  | n + 1, i, c =>
    match c.mem.allocUpage with
    | none => some (.error .enomem, { c with mem := asDestroy c.mem c.as })
    | some (paddr, mem) =>
      match addPageEntry { c with mem := mem } ⟨base + pageSize * i, paddr, true, true, false⟩ with
      | none => none
      | some c => prepareLoop base n (i + 1) { c with mem := c.mem.asZeroRegion paddr }

def asPrepareLoad (c : Cur) : Option (Except Errno Unit × Cur) :=
  match prepareLoop c.as.vstart c.as.codeNPages.toNat 0 c with
  | some (.ok (), c) =>
    prepareLoop (c.as.vbreakbase - c.as.dataNPages * pageSize) c.as.dataNPages.toNat 0 c
  | r => r

/-- `as_complete_load` が一つの entry に付ける permission。 -/
def completeEntry (codeTop dataTop : Vaddr) (e : PageEntry) : PageEntry :=
  if e.pageVaddr < codeTop then { e with isExe := true, isRead := true, isWrite := false }
  else if e.pageVaddr < dataTop then { e with isExe := false, isRead := true, isWrite := true }
  else e

/-- 一つの表の permission を付け直す。 -/
def PageTable.complete (t : PageTable) (codeTop dataTop : Vaddr) : PageTable :=
  { t with
    table := Slots.mapOccupied PageEntry.vacant (completeEntry codeTop dataTop) t.table
    len := by rw [Slots.length_mapOccupied]; exact t.len }

def asCompleteLoad (as : AddrSpace) : AddrSpace :=
  let codeTop := as.vstart + pageSize * as.codeNPages
  let dataTop := as.vbreakbase
  { as with
    start := as.start.complete codeTop dataTop
    next := as.next.map fun t => t.complete codeTop dataTop }

end Os161
