import MsProjects.Infra.Run
import MsProjects.Os161.Syscall.Seek

/-!
# lseek の性質
-/

namespace Os161

open Infra

/-! ## 一回の呼び出し -/

structure SeekCall where
  p : Nat
  vn : SeekVnode
  fd : Int
  pos : Int64
  whence : Int32

namespace SeekCall

def run (c : SeekCall) (s : Files) : Except Errno Int32 × Files :=
  s.sysLseek c.p c.vn c.fd c.pos.toInt c.whence

/-- 検査を通り、handle `h` の offset を書くところまで進む。 -/
structure Reaches (c : SeekCall) (s : Files) (h : Nat) (fileSize : Int) : Prop where
  slot : ∃ i, Files.fdIndex c.fd = some i ∧ s.fdTable c.p i = some h
  seekable : (s.handle h).filename ≠ "con:"
  whence : c.whence = seekSet ∨ c.whence = seekCur ∨ c.whence = seekEnd
  pos : 0 ≤ c.pos.toInt
  stat : c.vn.stat = .ok fileSize

def newOffset (c : SeekCall) (s : Files) (h : Nat) (fileSize : Int) : Int :=
  seekOffset (s.handle h).offset fileSize c.pos.toInt c.whence

/-- offset を書いた後の状態。 -/
def written (c : SeekCall) (s : Files) (h : Nat) (fileSize : Int) : Files :=
  s.modify h fun f => { f with offset := c.newOffset s h fileSize }

variable {c : SeekCall} {s : Files} {h : Nat} {fileSize : Int}

theorem run_of_reaches (hr : c.Reaches s h fileSize) :
    c.run s = ((c.vn.tryseek (c.newOffset s h fileSize)).map fun _ =>
      Int32.ofInt (c.newOffset s h fileSize), c.written s h fileSize) := by
  obtain ⟨⟨i, hi, hslot⟩, hcon, hwhence, hpos, hstat⟩ := hr
  have hw : ¬ (c.whence ≠ seekSet ∧ c.whence ≠ seekCur ∧ c.whence ≠ seekEnd) := by tauto
  simp only [run, Files.sysLseek, hi, hslot, if_neg hcon, if_neg hw, if_neg (Int.not_lt.mpr hpos), hstat,
    written, newOffset]
  cases c.vn.tryseek (seekOffset (s.handle h).offset fileSize c.pos.toInt c.whence) <;> rfl

theorem run_of_not_reaches (hr : ∀ h fileSize, ¬ c.Reaches s h fileSize) :
    ∃ err, c.run s = (.error err, s) := by
  rw [run, Files.sysLseek]
  cases hi : Files.fdIndex c.fd with
  | none => exact ⟨_, rfl⟩
  | some i =>
    cases hslot : s.fdTable c.p i with
    | none => exact ⟨.ebadf, by simp only [hslot]⟩
    | some h =>
      simp only [hslot]
      split
      · exact ⟨_, rfl⟩
      · next hcon =>
        split
        · exact ⟨_, rfl⟩
        · next hw =>
          split
          · exact ⟨_, rfl⟩
          · next hpos =>
            cases hstat : c.vn.stat with
            | error err => exact ⟨err, rfl⟩
            | ok fileSize =>
              exact absurd ⟨⟨i, hi, hslot⟩, hcon, by tauto, Int.not_lt.mp hpos, hstat⟩
                (hr h fileSize)

theorem handle_written_self : ((c.written s h fileSize).handle h).offset = c.newOffset s h fileSize := by
  simp [written, Files.modify]

theorem handle_written_of_ne {k : Nat} (hk : k ≠ h) :
    (c.written s h fileSize).handle k = s.handle k := by
  simp [written, Files.modify, hk]

end SeekCall

theorem SeekVnode.nonneg_of_tryseek {vn : SeekVnode} {pos : Int} (h : vn.tryseek pos = .ok ()) :
    0 ≤ pos := by
  by_contra hneg
  have hlt : pos < 0 := Int.not_le.mp hneg
  cases vn with
  | sfsFile size | emufsFile size => simp [tryseek, hlt] at h
  | sfsDir size | emufsDir size => cases h
  | device blocks blocksize =>
    rw [tryseek, devTryseek] at h
    split at h
    · split at h
      · cases h
      · cases h
    · cases h

/-! ## 返す値 -/

theorem packOffset_split (x : Int64) :
    packOffset (x >>> 32).toInt32.toUInt32 x.toUInt64.toUInt32 = x := by
  apply Int64.toBitVec_inj.mp
  ext i hi
  by_cases hlow : i < 32
  · simp [packOffset, -UInt64.toUInt64_toUInt32, hlow, BitVec.getLsbD_eq_getElem, hi]
  · have hsum : 32 + (i - 32) = i := by omega
    have hlt : i - 32 < 32 := by omega
    have hlt' : i - 32 < 64 := by omega
    simp [packOffset, -UInt64.toUInt64_toUInt32, hlow, hi, hlt, hlt', BitVec.getElem_signExtend,
      BitVec.getElem_sshiftRight, hsum]

theorem toInt_ofInt_eq_iff {x : Int} (hx : 0 ≤ x) :
    (Int32.ofInt x).toInt = x ↔ x < 2 ^ 31 := by
  rw [Int32.toInt_ofInt, show Int32.size = 2 ^ 32 from rfl]
  constructor
  · intro h
    rw [← h]
    exact Int.bmod_lt (by decide)
  · intro h
    exact Int.bmod_eq_of_le (by omega) (by omega)

def seekBase (offset fileSize : Int) (whence : Int32) : Int :=
  if whence = seekSet then 0 else if whence = seekCur then offset else fileSize

theorem seekOffset_eq {offset fileSize pos : Int} {whence : Int32}
    (hlo : -2 ^ 63 ≤ seekBase offset fileSize whence + pos)
    (hhi : seekBase offset fileSize whence + pos < 2 ^ 63) :
    seekOffset offset fileSize pos whence = seekBase offset fileSize whence + pos := by
  rw [seekBase] at *
  rw [seekOffset]
  split
  · omega
  · next hset =>
    rw [if_neg hset] at hlo hhi
    split
    · next hcur =>
      rw [if_pos hcur] at hlo hhi
      exact Int.bmod_eq_of_le (by omega) (by omega)
    · next hcur =>
      rw [if_neg hcur] at hlo hhi
      exact Int.bmod_eq_of_le (by omega) (by omega)

/-- register から作る呼び出し。 -/
def Trapframe.seekCall (tf : Trapframe) (p : Nat) (vn : SeekVnode) (whence : Int32) : SeekCall :=
  ⟨p, vn, tf.a0.toInt32.toInt, packOffset tf.a2 tf.a3, whence⟩

/-- `lseek` が成功し、handle の offset と返す register の組がどちらも `offset` である。 -/
structure LseekExact (r : Trapframe × Files) (h : Nat) (offset : Int) : Prop where
  success : r.1.a3 = 0
  handle : (r.2.handle h).offset = offset
  registers : (packOffset r.1.v0 r.1.v1).toInt = offset

/-- **成功した `lseek` が offset をそのまま返すのは、それが `int` に収まるとき、かつそのときに限る。** -/
theorem lseek_returns_offset_iff {s : Files} {p : Nat} {vn : SeekVnode} {whence : Int32}
    {tf : Trapframe} {h : Nat} {fileSize : Int}
    (hr : (tf.seekCall p vn whence).Reaches s h fileSize)
    (hlo : -2 ^ 63 ≤ seekBase (s.handle h).offset fileSize whence + (packOffset tf.a2 tf.a3).toInt)
    (hhi : seekBase (s.handle h).offset fileSize whence + (packOffset tf.a2 tf.a3).toInt < 2 ^ 63)
    (hseek : vn.tryseek (seekBase (s.handle h).offset fileSize whence +
      (packOffset tf.a2 tf.a3).toInt) = .ok ()) :
    LseekExact (syscallLseek s p vn (.ok whence) tf) h
        (seekBase (s.handle h).offset fileSize whence + (packOffset tf.a2 tf.a3).toInt) ↔
      seekBase (s.handle h).offset fileSize whence + (packOffset tf.a2 tf.a3).toInt < 2 ^ 31 := by
  have hnew : (tf.seekCall p vn whence).newOffset s h fileSize =
      seekBase (s.handle h).offset fileSize whence + (packOffset tf.a2 tf.a3).toInt :=
    seekOffset_eq hlo hhi
  have hrun := SeekCall.run_of_reaches hr
  rw [hnew] at hrun
  generalize seekBase (s.handle h).offset fileSize whence + (packOffset tf.a2 tf.a3).toInt = x at *
  have hcall : s.sysLseek p vn tf.a0.toInt32.toInt (packOffset tf.a2 tf.a3).toInt whence =
      (.ok (Int32.ofInt x), (tf.seekCall p vn whence).written s h fileSize) := by
    refine hrun.trans ?_
    rw [show (tf.seekCall p vn whence).vn = vn from rfl, hseek]
    rfl
  have hregisters : (packOffset (syscallLseek s p vn (.ok whence) tf).1.v0
      (syscallLseek s p vn (.ok whence) tf).1.v1).toInt = (Int32.ofInt x).toInt := by
    simp only [syscallLseek, hcall, Trapframe.succeed, packOffset_split, Int32.toInt_toInt64]
  rw [← toInt_ofInt_eq_iff (SeekVnode.nonneg_of_tryseek hseek), ← hregisters]
  refine ⟨LseekExact.registers, fun hreg => ⟨?_, ?_, hreg⟩⟩
  · simp only [syscallLseek, hcall, Trapframe.succeed]
  · simp only [syscallLseek, hcall, SeekCall.handle_written_self, hnew]

/-! ### 例 -/

/-- 一つの process が、descriptor 3 に名前 `f` の file を開いている。 -/
def seekFiles (offset : Int) : Files where
  handle := fun _ => ⟨"f", 0, offset, 1, some 0⟩
  allocated := fun h => h == 0
  allocs := 1
  opened := 1
  closes := []
  live := {1}
  fdTable := fun p i => if p = 1 ∧ i.val = 3 then some 0 else none

/-- descriptor 3 を `hi`、`lo` の位置へ動かす register。 -/
def seekTrapframe (hi lo : UInt32) : Trapframe := ⟨0, 0, 3, hi, lo, 0⟩

theorem seekTrapframe_reaches (hi lo : UInt32) (hpos : 0 ≤ (packOffset hi lo).toInt) :
    ((seekTrapframe hi lo).seekCall 1 (.sfsFile 10) seekCur).Reaches (seekFiles 0) 0 10 where
  slot := ⟨3, (by decide : Files.fdIndex (3 : UInt32).toInt32.toInt = some 3),
    by simp [seekFiles, Trapframe.seekCall]⟩
  seekable := by decide
  whence := .inr (.inl rfl)
  pos := hpos
  stat := rfl

/-- 位置 5 へ動かすと 5 が返る。 -/
theorem lseek_returns_offset_five :
    LseekExact (syscallLseek (seekFiles 0) 1 (.sfsFile 10) (.ok seekCur) (seekTrapframe 0 5)) 0 5 :=
  (lseek_returns_offset_iff (seekTrapframe_reaches 0 5 (by decide)) (by decide) (by decide) rfl).mpr
    (by decide)

/-- 位置 `2 ^ 31` へ動かすと、offset は `2 ^ 31` になるが、上位の register に `0xffffffff` が返る。 -/
theorem lseek_returns_wrong_high :
    let r := syscallLseek (seekFiles 0) 1 (.sfsFile 10) (.ok seekCur) (seekTrapframe 0 0x80000000)
    r.1.a3 = 0 ∧ (r.2.handle 0).offset = 2 ^ 31 ∧ r.1.v0 = 0xffffffff ∧ r.1.v1 = 0x80000000 ∧
      ¬ LseekExact r 0 (2 ^ 31) := by
  refine ⟨by decide, by decide, by decide, by decide, fun h => ?_⟩
  exact absurd h.registers (by decide)

/-! ## 失敗した呼び出し -/

def SeekStep (s : Files) (c : SeekCall) (s' : Files) : Prop := (c.run s).2 = s'

/-- offset が負の handle は無い。 -/
def OffsetsNonneg (s : Files) : Prop := ∀ h, 0 ≤ (s.handle h).offset

/-- 失敗した呼び出しはどの offset も変えず、呼び出しの後に負の offset は無い。 -/
structure SeekAtomic (s : Files) (c : SeekCall) (s' : Files) : Prop where
  unchanged : ∀ err, (c.run s).1 = .error err → ∀ h, (s'.handle h).offset = (s.handle h).offset
  nonneg : OffsetsNonneg s'

/-- offset を書くなら、`VOP_TRYSEEK` がそれを受け付けるか、元の offset と同じである。 -/
def SeekAccepted (s : Files) (c : SeekCall) : Prop :=
  ∀ h fileSize, c.Reaches s h fileSize →
    c.vn.tryseek (c.newOffset s h fileSize) = .ok () ∨ c.newOffset s h fileSize = (s.handle h).offset

theorem SeekAccepted.atomic {s s' : Files} {c : SeekCall} (hs : OffsetsNonneg s)
    (hstep : SeekStep s c s') (hc : SeekAccepted s c) : SeekAtomic s c s' := by
  obtain rfl := hstep
  by_cases hreach : ∃ h fileSize, c.Reaches s h fileSize
  · obtain ⟨h, fileSize, hr⟩ := hreach
    have hsame : ∀ k, k ≠ h → ((c.written s h fileSize).handle k).offset = (s.handle k).offset :=
      fun k hk => by rw [SeekCall.handle_written_of_ne hk]
    rw [SeekCall.run_of_reaches hr]
    rcases hc h fileSize hr with hok | heq
    · refine ⟨fun err herr => ?_, fun k => ?_⟩
      · rw [SeekCall.run_of_reaches hr, hok] at herr
        cases herr
      · rcases eq_or_ne k h with rfl | hk
        · rw [SeekCall.handle_written_self]
          exact SeekVnode.nonneg_of_tryseek hok
        · rw [hsame k hk]
          exact hs k
    · have hall : ∀ k, ((c.written s h fileSize).handle k).offset = (s.handle k).offset := fun k => by
        rcases eq_or_ne k h with rfl | hk
        · rw [SeekCall.handle_written_self, heq]
        · exact hsame k hk
      exact ⟨fun _ _ k => hall k, fun k => (hall k).symm ▸ hs k⟩
  · obtain ⟨err, hrun⟩ := SeekCall.run_of_not_reaches fun h fileSize hr => hreach ⟨h, fileSize, hr⟩
    rw [hrun]
    exact ⟨fun _ _ _ => rfl, hs⟩

theorem SeekAtomic.accepted {s s' : Files} {c : SeekCall} (hstep : SeekStep s c s')
    (h : SeekAtomic s c s') : SeekAccepted s c := by
  obtain rfl := hstep
  intro k fileSize hr
  have hrun := SeekCall.run_of_reaches hr
  cases htry : c.vn.tryseek (c.newOffset s k fileSize) with
  | ok u => exact .inl rfl
  | error err =>
    have herr : (c.run s).1 = .error err := by
      rw [hrun, htry]
      rfl
    have hkeep := h.unchanged err herr k
    rw [hrun, SeekCall.handle_written_self] at hkeep
    exact .inr hkeep

/--
**`lseek` の列で、失敗した呼び出しが offset を変えず、負の offset が現れないのは、
どの呼び出しの書く offset も受け付けられるか元と同じであるとき、かつそのときに限る。**
-/
theorem lseek_atomic_iff {s u : Files} {tr : List (Transition Files SeekCall)}
    (hrun : Run SeekStep s tr u) (hs : OffsetsNonneg s) :
    (∀ x ∈ tr, SeekAtomic x.pre x.label x.post) ↔ ∀ x ∈ tr, SeekAccepted x.pre x.label :=
  hrun.forall_iff
    (fun hp hstep hc => ⟨(hc.atomic hp hstep).nonneg, hc.atomic hp hstep⟩)
    (fun _ hstep hc hatomic => hc (hatomic.accepted hstep)) hs

/-- descriptor 3 への呼び出し。 -/
def seekThree (vn : SeekVnode) (pos : Int64) (whence : Int32) : SeekCall := ⟨1, vn, 3, pos, whence⟩

theorem offsetsNonneg_seekFiles {offset : Int} (h : 0 ≤ offset) : OffsetsNonneg (seekFiles offset) :=
  fun _ => h

/-- SFS の file の中の位置へ動かす。 -/
theorem lseek_atomic_five :
    SeekAtomic (seekFiles 0) (seekThree (.sfsFile 10) 5 seekSet)
      ((seekThree (.sfsFile 10) 5 seekSet).run (seekFiles 0)).2 := by
  refine (lseek_atomic_iff (.cons rfl (.nil _)) (offsetsNonneg_seekFiles le_rfl)).mpr ?_ _
    List.mem_cons_self
  intro x hx
  obtain rfl := List.mem_singleton.mp hx
  intro h fileSize hr
  exact .inl rfl

/--
offset が `2 ^ 63 - 1` の file を一つ先へ動かすと、加算が一周して `EINVAL` になり、offset は
負の値のまま残る。
-/
theorem lseek_failure_moves_offset :
    let c := seekThree (.sfsFile 10) 1 seekCur
    let s := seekFiles (2 ^ 63 - 1)
    (c.run s).1 = .error .einval ∧ ((c.run s).2.handle 0).offset = -2 ^ 63 ∧
      ¬ SeekAtomic s c (c.run s).2 := by
  refine ⟨rfl, by decide, fun h => ?_⟩
  exact absurd (h.nonneg 0) (by decide)

end Os161
