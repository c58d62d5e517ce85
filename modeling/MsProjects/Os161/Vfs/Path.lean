import MsProjects.Os161.Arch

/-!
# `vfs_open`

`kern/vfs/vfspath.c` の `vfs_open` と、そこから呼ばれる `vop_open` の実装。
-/

namespace Os161

/-! ## open の flag -/

abbrev oRdonly : Int32 := 0
abbrev oWronly : Int32 := 1
abbrev oRdwr : Int32 := 2
abbrev oCreat : Int32 := 4
abbrev oExcl : Int32 := 8
abbrev oTrunc : Int32 := 16
abbrev oAppend : Int32 := 32
abbrev oAccmode : Int32 := 3

/-! ## `vop_open` -/

/-- file の `vop_open`。 -/
def openFile (openflags : Int32) : Except Errno Unit :=
  if openflags &&& oAppend ≠ 0 then .error .eunimp else .ok ()

/-- directory の `vop_open`。 -/
def openDir (openflags : Int32) : Except Errno Unit :=
  if openflags &&& oAccmode ≠ oRdonly then .error .eisdir
  else if openflags &&& oAppend ≠ 0 then .error .eisdir
  else .ok ()

def emufsOpen : Int32 → Except Errno Unit := openFile

def emufsOpendir : Int32 → Except Errno Unit := openDir

def sfsOpen : Int32 → Except Errno Unit := openFile

def sfsOpendir : Int32 → Except Errno Unit := openDir

/-- `dOpen` は device ごとの `d_open` の結果である。 -/
def devOpen (dOpen : Except Errno Unit) (flags : Int32) : Except Errno Unit :=
  if flags &&& (oCreat ||| oTrunc ||| oExcl ||| oAppend) ≠ 0 then .error .einval else dOpen

/-- vnode の持つ操作の表。 -/
inductive VnodeOps where
  | emufsFile
  | emufsDir
  | sfsFile
  | sfsDir
  | dev (dOpen : Except Errno Unit)

def VnodeOps.vopOpen : VnodeOps → Int32 → Except Errno Unit
  | .emufsFile => emufsOpen
  | .emufsDir => emufsOpendir
  | .sfsFile => sfsOpen
  | .sfsDir => sfsOpendir
  | .dev dOpen => devOpen dOpen

/-! ## `vfs_open` -/

/-- `vfs_open` が呼ぶ関数の結果。 -/
structure VfsEnv where
  vfsLookparent : Except Errno Unit
  vopCreat : Except Errno VnodeOps
  vfsLookup : Except Errno VnodeOps
  vopTruncate : Except Errno Unit

/-- 書き込めるかどうか。 -/
def canwrite (openflags : Int32) : Option Bool :=
  let how := openflags &&& oAccmode
  if how = oRdonly then some false
  else if how = oWronly ∨ how = oRdwr then some true
  else none

def vfsOpen (openflags : Int32) (env : VfsEnv) : Except Errno Unit :=
  match canwrite openflags with
  | none => .error .einval
  | some canwrite => do
    let vn ←
      if openflags &&& oCreat ≠ 0 then do
        env.vfsLookparent
        env.vopCreat
      else env.vfsLookup
    vn.vopOpen openflags
    if openflags &&& oTrunc ≠ 0 then
      if canwrite then env.vopTruncate else .error .einval

theorem VnodeOps.vopOpen_append (vn : VnodeOps) : ∃ err, vn.vopOpen oAppend = .error err := by
  cases vn with
  | emufsFile => exact ⟨.eunimp, by decide⟩
  | emufsDir => exact ⟨.eisdir, by decide⟩
  | sfsFile => exact ⟨.eunimp, by decide⟩
  | sfsDir => exact ⟨.eisdir, by decide⟩
  | dev dOpen =>
    have hbits : oAppend &&& (oCreat ||| oTrunc ||| oExcl ||| oAppend) ≠ 0 := by decide
    exact ⟨.einval, by simp only [vopOpen, devOpen, if_pos hbits]⟩

theorem vfsOpen_append (env : VfsEnv) : ∃ err, vfsOpen oAppend env = .error err := by
  have hw : canwrite oAppend = some false := by decide
  have hc : ¬ (oAppend &&& oCreat ≠ 0) := by decide
  unfold vfsOpen
  rw [hw]
  simp only [if_neg hc]
  cases env.vfsLookup with
  | error err => exact ⟨err, rfl⟩
  | ok vn =>
    obtain ⟨err, herr⟩ := vn.vopOpen_append
    exact ⟨err, by simp [herr, bind, Except.bind]⟩

end Os161
