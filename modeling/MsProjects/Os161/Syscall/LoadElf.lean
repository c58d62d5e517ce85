import MsProjects.Os161.Vm.User

/-!
# 実行形式の読み込み

`kern/syscall/loadelf.c` の `load_elf` と `load_segment`。
-/

namespace Os161

/-! ## file と header -/

/-- 読み込む file。 -/
structure Vnode where
  vopRead : Nat → Nat → Except Errno (List UInt8)

/-- `len` byte を超えて読めることはない。 -/
def Vnode.read (v : Vnode) (offset len : Nat) : Except Errno (List UInt8) :=
  (v.vopRead offset len).map (List.take len)

/-- kernel の buffer への読み込み。 -/
def Vnode.readAll (v : Vnode) (offset len : Nat) : Except Errno (List UInt8) :=
  match v.read offset len with
  | .error err => .error err
  | .ok bytes => if bytes.length ≠ len then .error .enoexec else .ok bytes

/-- big endian の 16 bit。 -/
def be16 (bytes : List UInt8) (i : Nat) : UInt16 :=
  (bytes.getD i 0).toUInt16 <<< 8 ||| (bytes.getD (i + 1) 0).toUInt16

/-- big endian の 32 bit。 -/
def be32 (bytes : List UInt8) (i : Nat) : UInt32 :=
  (be16 bytes i).toUInt32 <<< 16 ||| (be16 bytes (i + 2)).toUInt32

/-- `Elf_Ehdr` のうち、`load_elf` が見る field。 -/
structure ElfEhdr where
  eIdent : List UInt8
  eType : UInt16
  eMachine : UInt16
  eVersion : UInt32
  eEntry : UInt32
  ePhoff : UInt32
  ePhentsize : UInt16
  ePhnum : UInt16
  deriving DecidableEq

/-- `sizeof(Elf_Ehdr)`。 -/
abbrev ehdrSize : Nat := 52

def ElfEhdr.ofBytes (bytes : List UInt8) : ElfEhdr where
  eIdent := bytes.take 16
  eType := be16 bytes 16
  eMachine := be16 bytes 18
  eVersion := be32 bytes 20
  eEntry := be32 bytes 24
  ePhoff := be32 bytes 28
  ePhentsize := be16 bytes 42
  ePhnum := be16 bytes 44

/-- `Elf_Phdr` のうち、`load_elf` が見る field。 -/
structure ElfPhdr where
  pType : UInt32
  pOffset : UInt32
  pVaddr : UInt32
  pFilesz : UInt32
  pMemsz : UInt32
  deriving DecidableEq

/-- `sizeof(Elf_Phdr)`。 -/
abbrev phdrSize : Nat := 32

def ElfPhdr.ofBytes (bytes : List UInt8) : ElfPhdr where
  pType := be32 bytes 0
  pOffset := be32 bytes 4
  pVaddr := be32 bytes 8
  pFilesz := be32 bytes 16
  pMemsz := be32 bytes 20

/-- 32 bit、big endian、version 1 の MIPS の実行形式である。 -/
def ElfEhdr.executable (eh : ElfEhdr) : Bool :=
  -- EI_MAG0 から EI_MAG3、EI_CLASS、EI_DATA、EI_VERSION
  eh.eIdent.take 7 == [0x7f, 0x45, 0x4c, 0x46, 1, 2, 1] &&
    -- EV_CURRENT、ET_EXEC、EM_MIPS
    eh.eVersion == 1 && eh.eType == 2 && eh.eMachine == 8

abbrev ptNull : UInt32 := 0
abbrev ptLoad : UInt32 := 1
abbrev ptPhdr : UInt32 := 6
abbrev ptMipsReginfo : UInt32 := 0x70000000

/-! ## segment の一覧 -/

/-- `i` 番目の program header を読む。 -/
def loadPhdr (v : Vnode) (eh : ElfEhdr) (i : Nat) : Except Errno (Option ElfPhdr) :=
  let offset := eh.ePhoff + UInt32.ofNat i * eh.ePhentsize.toUInt32
  match v.readAll offset.toNat phdrSize with
  | .error err => .error err
  | .ok bytes =>
    let ph := ElfPhdr.ofBytes bytes
    if ph.pType = ptNull ∨ ph.pType = ptPhdr ∨ ph.pType = ptMipsReginfo then .ok none
    else if ph.pType = ptLoad then .ok (some ph)
    else .error .enoexec

/-- 一つ目の loop。 -/
def defineRegions (v : Vnode) (eh : ElfEhdr) : Nat → Nat → AddrSpace → Except Errno Unit × AddrSpace
  | 0, _, as => (.ok (), as)
  | n + 1, i, as =>
    match loadPhdr v eh i with
    | .error err => (.error err, as)
    | .ok none => defineRegions v eh n (i + 1) as
    | .ok (some ph) =>
      match asDefineRegion as ph.pVaddr ph.pMemsz with
      | .error err => (.error err, as)
      | .ok as => defineRegions v eh n (i + 1) as

def loadSegment (v : Vnode) (random : Nat → Fin numTlb) (ph : ElfPhdr) (s : Cpu) :
    Option (Except Errno Unit × Cpu) :=
  let filesize := min ph.pFilesz.toNat ph.pMemsz.toNat
  match v.read ph.pOffset.toNat filesize with
  | .error err => some (.error err, s)
  | .ok [] => some (if filesize ≠ 0 then .error .enoexec else .ok (), s)
  | .ok bytes =>
    match s.copyout random bytes ph.pVaddr with
    | some (.ok (), s) => some (if bytes.length ≠ filesize then .error .enoexec else .ok (), s)
    | r => r

/-- 二つ目の loop。 -/
def loadSegments (v : Vnode) (eh : ElfEhdr) (random : Nat → Nat → Fin numTlb) :
    Nat → Nat → Cpu → Option (Except Errno Unit × Cpu)
  | 0, _, s => some (.ok (), s)
  | n + 1, i, s =>
    match loadPhdr v eh i with
    | .error err => some (.error err, s)
    | .ok none => loadSegments v eh random n (i + 1) s
    | .ok (some ph) =>
      match loadSegment v (random i) ph s with
      | some (.ok (), s) => loadSegments v eh random n (i + 1) s
      | r => r

def loadElf (v : Vnode) (random : Nat → Nat → Fin numTlb) (s : Cpu) :
    Option (Except Errno Vaddr × Cpu) :=
  match v.readAll 0 ehdrSize with
  | .error err => some (.error err, s)
  | .ok bytes =>
    let eh := ElfEhdr.ofBytes bytes
    if eh.executable = false then some (.error .enoexec, s)
    else
      match defineRegions v eh eh.ePhnum.toNat 0 s.as with
      | (.error err, as) => some (.error err, { s with as := as })
      | (.ok (), as) =>
        match asPrepareLoad ⟨s.mem, as⟩ with
        | none => none
        | some (.error err, c) => some (.error err, ⟨c, s.tlb⟩)
        | some (.ok (), c) =>
          match loadSegments v eh random eh.ePhnum.toNat 0 ⟨c, s.tlb⟩ with
          | none => none
          | some (.error err, s) => some (.error err, s)
          | some (.ok (), s) => some (.ok eh.eEntry, { s with as := asCompleteLoad s.as })

end Os161
