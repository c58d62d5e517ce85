import MsProjects.Os161.Fs.Volume
import MsProjects.Os161.Properties.Bitmap
import Mathlib.Data.Fintype.Pi

/-! # SFS の block の仕様 -/

namespace Os161.Sfs

open List Function

open Infra (Comp)

/-! ## block の形 -/

namespace Block

theorem word_lt (b : Block) (i : Fin 128) : b.word i < 2 ^ 32 := by
  have h₀ := (b ⟨4 * i, by omega⟩).toNat_lt
  have h₁ := (b ⟨4 * i + 1, by omega⟩).toNat_lt
  have h₂ := (b ⟨4 * i + 2, by omega⟩).toNat_lt
  have h₃ := (b ⟨4 * i + 3, by omega⟩).toNat_lt
  rw [word]
  omega

theorem word_ofWords (w : Fin 128 → Nat) (i : Fin 128) : (ofWords w).word i = w i % 2 ^ 32 := by
  have h₀ : (⟨4 * i.val / 4, by omega⟩ : Fin 128) = i := Fin.ext (by simp only; omega)
  have h₁ : (⟨(4 * i.val + 1) / 4, by omega⟩ : Fin 128) = i := Fin.ext (by simp only; omega)
  have h₂ : (⟨(4 * i.val + 2) / 4, by omega⟩ : Fin 128) = i := Fin.ext (by simp only; omega)
  have h₃ : (⟨(4 * i.val + 3) / 4, by omega⟩ : Fin 128) = i := Fin.ext (by simp only; omega)
  have m₀ : 8 * (3 - 4 * i.val % 4) = 24 := by omega
  have m₁ : 8 * (3 - (4 * i.val + 1) % 4) = 16 := by omega
  have m₂ : 8 * (3 - (4 * i.val + 2) % 4) = 8 := by omega
  have m₃ : 8 * (3 - (4 * i.val + 3) % 4) = 0 := by omega
  simp only [word, ofWords, h₀, h₁, h₂, h₃, m₀, m₁, m₂, m₃, UInt8.toNat_ofNat']
  omega

@[simp] theorem word_zero (i : Fin 128) : zero.word i = 0 := by
  simp only [word, zero, UInt8.toNat_zero, Nat.zero_mul]

@[simp] theorem length_bytes (b : Block) : b.bytes.length = 512 := length_ofFn

theorem bytes_getElem? (b : Block) {i : Nat} (hi : i < 512) : b.bytes[i]? = some (b ⟨i, hi⟩) := by
  rw [bytes, List.getElem?_ofFn, dif_pos hi]

end Block

/-! ## block の出し入れ -/

/-- free map は block と同じだけあり、superblock と volume の外の block には印が付いている。 -/
structure Vol.Ok (v : Vol) : Prop where
  nbits : v.freemap.nbits = bitmapsize v.nblocks
  bound : v.nblocks ≤ 2 ^ 23
  super : v.freemap.isset 0 = true
  beyond : ∀ b, v.nblocks ≤ b → b < v.freemap.nbits → v.freemap.isset b = true

structure Vol.Free (v : Vol) (b : Nat) : Prop where
  pos : b ≠ 0
  lt : b < v.nblocks
  clear : v.freemap.isset b = false

/-- 使われていない block に印を付けて 0 で埋めた volume。 -/
def Vol.taken (v : Vol) (b : Nat) : Vol :=
  { v with freemap := v.freemap.set b, disk := update v.disk b .zero }

section volume

variable {v : Vol} {b : Nat}

theorem Vol.Free.taken_disk (hb : v.Free b) {c : Nat} (hc : v.freemap.isset c = true) :
    (v.taken b).disk c = v.disk c := by
  refine update_of_ne ?_ _ _
  rintro rfl
  rw [hb.clear] at hc
  cases hc

theorem le_bitmapsize (n : Nat) : n ≤ bitmapsize n ∧ bitmapsize n % 4096 = 0 := by
  rw [bitmapsize]
  omega

theorem balloc_post (hv : v.Ok) :
    Comp.Post balloc v
      (fun b v' => v.Free b ∧ v' = v.taken b)
      (fun e v' => e = .enospc ∧ v' = v) := by
  obtain ⟨-, hmod⟩ := le_bitmapsize v.nblocks
  have hsize : v.freemap.nbits + 7 < 2 ^ 32 := by
    have hbound := hv.bound
    rw [hv.nbits, bitmapsize]
    omega
  have hpad : ∀ i, v.freemap.nbits ≤ i → i < Bitmap.words v.freemap.nbits * 8 →
      v.freemap.isset i = true := by
    intro i hle hlt
    rw [hv.nbits, Bitmap.words] at *
    omega
  rw [balloc, Comp.post_bind, onFreemap, Comp.post_zoom]
  refine (Bitmap.alloc_post hsize hpad).mono ?_ ?_
  · rintro b m ⟨hlt, hclear, -, rfl⟩
    have hb : v.Free b := by
      refine ⟨?_, ?_, hclear⟩
      · rintro rfl
        rw [hv.super] at hclear
        cases hclear
      · by_contra hge
        rw [hv.beyond b (by omega) hlt] at hclear
        cases hclear
    simp only [Comp.post_bind, Comp.post_get, Comp.post_assert, clearblock, wblock, Comp.post_set,
      Comp.post_pure]
    exact ⟨hb.lt, hb.lt, hb, rfl⟩
  · rintro e m ⟨rfl, rfl, -⟩
    exact ⟨rfl, rfl⟩

theorem Vol.Ok.set (hv : v.Ok) (disk : Nat → Block) :
    Vol.Ok { v with freemap := v.freemap.set b, disk := disk } where
  nbits := hv.nbits
  bound := hv.bound
  super := by
    rw [Bitmap.isset_set, hv.super]
    rfl
  beyond c hle hlt := by
    rw [Bitmap.isset_set, hv.beyond c hle hlt]
    rfl

theorem Vol.Ok.write (hv : v.Ok) (disk : Nat → Block) : Vol.Ok { v with disk := disk } :=
  ⟨hv.nbits, hv.bound, hv.super, hv.beyond⟩

end volume

/-! ## 新しい volume -/

theorem getLsbD_bitbuf (n i : Nat) {j : Nat} (hj : j < 8) :
    (bitbuf n i).toBitVec.getLsbD j = reserved n (8 * i + j) := by
  have hbits : ∀ b : Fin 8 → Bool, ∀ j : Fin 8,
      (UInt8.ofNat ((finRange 8).foldl (fun m k => if b k then m + 2 ^ k.val else m)
        0)).toBitVec.getLsbD j =
        b j := by decide +kernel
  have hfold : bitbuf n i = UInt8.ofNat ((finRange 8).foldl
      (fun m (k : Fin 8) => if reserved n (8 * i + k) then m + 2 ^ k.val else m) 0) := rfl
  rw [hfold]
  exact hbits (fun k => reserved n (8 * i + k)) ⟨j, hj⟩

/-- **`mksfs` の作った volume は mount でき、印は superblock、root、bitmap と volume の外の block だけに付いている。** -/
theorem domount_mksfs {n : Nat} (hlo : mapLocation + bitblocks n ≤ n) (hhi : n ≤ 131072)
    (disk : Nat → Block) :
    ∃ v, domount (mksfs n disk) = .ok v ∧ v.Ok ∧ v.nblocks = n ∧ v.disk = mksfs n disk ∧
      ∀ b < bitmapsize n, v.freemap.isset b = reserved n b := by
  obtain ⟨hle, hmod⟩ := le_bitmapsize n
  have hmagic : (mksfs n disk sbLocation).word 0 = magic := by
    rw [mksfs, if_pos rfl, Block.word_ofWords]
    rfl
  have hnblocks : (mksfs n disk sbLocation).word 1 = n := by
    rw [mksfs, if_pos rfl, Block.word_ofWords, if_neg (by decide), if_pos (by decide)]
    exact Nat.mod_eq_of_lt (by omega)
  have hmap : ∀ i < bitmapsize n / 8, (mksfs n disk (mapLocation + i / 512))
      ⟨i % 512, Nat.mod_lt _ (by decide)⟩ = bitbuf n i := by
    intro i hi
    have hlt : mapLocation + i / 512 < mapLocation + bitblocks n := by
      rw [bitblocks]
      omega
    have hidx : 512 * (mapLocation + i / 512 - mapLocation) + i % 512 = i := by omega
    have hsuper : mapLocation + i / 512 ≠ sbLocation := by
      rw [mapLocation, sbLocation]
      omega
    have hroot : mapLocation + i / 512 ≠ rootLocation := by
      rw [mapLocation, rootLocation]
      omega
    rw [mksfs, if_neg hsuper, if_neg hroot, if_pos hlt]
    simp only [hidx]
  have hisset : ∀ b < bitmapsize n, BitVec.getLsbD ((mksfs n disk (mapLocation + b / 8 / 512))
      ⟨b / 8 % 512, Nat.mod_lt _ (by decide)⟩).toBitVec (b % 8) = reserved n b := by
    intro b hb
    rw [hmap (b / 8) (by omega), getLsbD_bitbuf n _ (Nat.mod_lt _ (by decide)), Nat.div_add_mod]
  rw [domount, if_neg (not_not.mpr hmagic)]
  simp only [hnblocks]
  refine ⟨_, rfl, ⟨rfl, ?_, ?_, ?_⟩, rfl, rfl, hisset⟩
  · dsimp only
    omega
  · have hpos : 0 < bitmapsize n := by
      rw [mapLocation] at hlo
      omega
    exact (hisset 0 hpos).trans (by simp [reserved])
  · intro b hle hlt
    refine (hisset b hlt).trans ?_
    simp only [reserved, Bool.or_eq_true, decide_eq_true_eq]
    exact .inr hle

end Os161.Sfs
