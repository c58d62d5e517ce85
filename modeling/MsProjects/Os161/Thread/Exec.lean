import MsProjects.Os161.Vm.Fault

/-!
# thread の切り替えと execv

一つの CPU の上で address space と TLB を触る経路を、状態 `Sys` の step として並べる。
-/

namespace Os161

/-- address space を指す変数。 -/
inductive AsPtr where
  | tAddrspace
  | oldaddr
  deriving DecidableEq, Repr

/-- 一つの CPU から見た系の状態。 -/
structure Sys where
  mem : Mem
  tlb : Tlb
  cur : Nat
  space : Nat × AsPtr → Option AddrSpace

inductive SysOp where
  /-- user の命令か、読み込み中の kernel の書き込みが起こす fault。 -/
  | fault (faulttype : FaultType) (faultaddress : Vaddr) (random : Fin numTlb)
  /-- `thread_switch`。 -/
  | switch (next : Nat)
  /-- `sys_execv` の `as_create` から `as_activate` まで。 -/
  | execBegin
  /-- `load_elf` の中の `as_define_region`。 -/
  | loadRegion (vaddr sz : UInt32)
  /-- `load_elf` の中の `as_prepare_load`。 -/
  | loadPrepare
  /-- `load_elf` の中の `as_complete_load`。 -/
  | loadComplete
  /-- `load_elf` が失敗して `sys_execv` が戻る。 -/
  | execFail
  /-- `load_elf` が成功し、古い address space を壊す。 -/
  | execOk
  /-- `thread_exit`。 -/
  | exit (next : Nat)

namespace Sys

def tAddrspace (s : Sys) : Option AddrSpace := s.space (s.cur, .tAddrspace)

/-- 走っている `sys_execv` の `oldaddr`。 -/
def oldaddr (s : Sys) : Option AddrSpace := s.space (s.cur, .oldaddr)

/-- `curthread` の pointer に書き込む。 -/
def set (s : Sys) (p : AsPtr) (as : Option AddrSpace) : Sys :=
  { s with space := Function.update s.space (s.cur, p) as }

/-- `curthread->t_addrspace` の中身と memory が変わった後の状態。 -/
def put (s : Sys) (c : Cur) : Sys := { s with mem := c.mem }.set .tAddrspace (some c.as)

/-- `sys_execv` の失敗の後始末。 -/
def undo (s : Sys) (c : Cur) (old : AddrSpace) : Sys :=
  ({ s with mem := asDestroy c.mem c.as }.set .tAddrspace (some old)).set .oldaddr none

def step (s : Sys) : SysOp → Option Sys
  | .fault faulttype faultaddress random =>
    match s.tAddrspace with
    | none => none
    | some as =>
      match vmFault faulttype faultaddress random ⟨⟨s.mem, as⟩, s.tlb⟩ with
      | none => none
      | some (_, c) => some { s.put c.toCur with tlb := c.tlb }
  | .switch next =>
    let s := { s with cur := next }
    if s.tAddrspace.isSome then some { s with tlb := Tlb.flushed } else some s
  | .execBegin =>
    match s.tAddrspace, s.oldaddr with
    | some old, none =>
      match asCreate s.mem with
      | none => some s
      | some (temp, mem) =>
        some { (s.set .oldaddr (some old)).put ⟨mem, temp⟩ with tlb := Tlb.flushed }
    | _, _ => none
  | .loadRegion vaddr sz =>
    match s.tAddrspace, s.oldaddr with
    | some temp, some _ =>
      match asDefineRegion temp vaddr sz with
      | .ok temp => some (s.put ⟨s.mem, temp⟩)
      | .error _ => some s
    | _, _ => none
  | .loadPrepare =>
    match s.tAddrspace, s.oldaddr with
    | some temp, some old =>
      match asPrepareLoad ⟨s.mem, temp⟩ with
      | none => none
      | some (.ok (), c) => some (s.put c)
      -- `as_prepare_load` が一度壊した address space を、`sys_execv` がもう一度壊す
      | some (.error _, c) => some (s.undo c old)
    | _, _ => none
  | .loadComplete =>
    match s.tAddrspace, s.oldaddr with
    | some temp, some _ => some (s.put ⟨s.mem, asCompleteLoad temp⟩)
    | _, _ => none
  | .execFail =>
    match s.tAddrspace, s.oldaddr with
    | some temp, some old => some (s.undo ⟨s.mem, temp⟩ old)
    | _, _ => none
  | .execOk =>
    match s.tAddrspace, s.oldaddr with
    | some _, some old => some ({ s with mem := asDestroy s.mem old }.set .oldaddr none)
    | _, _ => none
  | .exit next =>
    match s.tAddrspace, s.oldaddr with
    | some as, none =>
      let s := { s.set .tAddrspace none with tlb := Tlb.flushed }
      some { s with mem := asDestroy s.mem as, cur := next }
    | _, _ => none

end Sys

end Os161
