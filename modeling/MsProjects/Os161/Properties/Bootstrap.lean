import MsProjects.Os161.Properties.Coremap

/-! # coremap_bootstrap の割り付け -/

namespace Os161

variable {first last : Paddr}

theorem toNat_roundUp {n : UInt32} (h : n.toNat + 4095 < 2 ^ 32) :
    (roundUp n pageSize).toNat = (n.toNat + 4095) / 4096 * 4096 := by
  have hmask : roundUp n pageSize = (n + 4095) &&& pageFrame := by
    unfold roundUp
    rw [UInt32.sub_eq_add_neg, UInt32.add_assoc]
    rfl
  rw [hmask, toNat_and_pageFrame, UInt32.toNat_add]
  exact congrArg (· / 4096 * 4096) (Nat.mod_eq_of_lt h)

theorem toNat_alignUp {x : UInt32} (h : x.toNat + 4095 < 2 ^ 32) :
    (if x % pageSize ≠ 0 then (x &&& pageFrame) + pageSize else x).toNat =
      (x.toNat + 4095) / 4096 * 4096 := by
  have hmod : x % pageSize = 0 ↔ x.toNat % 4096 = 0 := by
    rw [← UInt32.toNat_inj, UInt32.toNat_mod]
    rfl
  split
  · next hne =>
    rw [ne_eq, hmod] at hne
    simp only [UInt32.toNat_add, toNat_and_pageFrame, pageSize, UInt32.reduceToNat]
    omega
  · next heq =>
    rw [not_not, hmod] at heq
    omega

/-- coremap の大きさは切り上げられ、`freespace` はその先の最初の page の境目になる。 -/
theorem toNat_bootFreespace (h : first.toNat ≤ last.toNat) (hmem : last.toNat ≤ 508 * 1024 * 1024) :
    (bootFreespace first last).toNat =
      (first.toNat + ((last.toNat - first.toNat) / 4096 * 4 + 4095) / 4096 * 4096 + 4095) / 4096 *
        4096 := by
  have hpages : ((last - first) / pageSize * 4).toNat = (last.toNat - first.toNat) / 4096 * 4 := by
    rw [UInt32.toNat_mul, UInt32.toNat_div, UInt32.toNat_sub_of_le _ _ (UInt32.le_iff_toNat_le.mpr h)]
    simp only [pageSize, UInt32.reduceToNat]
    omega
  have hfirst : (first + roundUp ((last - first) / pageSize * 4) pageSize).toNat =
      first.toNat + ((last.toNat - first.toNat) / 4096 * 4 + 4095) / 4096 * 4096 := by
    rw [UInt32.toNat_add, toNat_roundUp (by omega), hpages]
    omega
  unfold bootFreespace
  rw [toNat_alignUp (by omega), hfirst]

/-- **`coremap_bootstrap` は、coremap の表の後ろの page の境目から、`last` に収まる frame を管理する。** -/
theorem bootstrap_layout (first last : Paddr) (hpages : first.toNat + 2 * 4096 ≤ last.toNat)
    (hmem : last.toNat ≤ 508 * 1024 * 1024) :
    ∃ l : CmLayout, l.freespace = bootFreespace first last ∧
      l.cmEntries = (bootCmEntries first last).toNat ∧
      first < l.freespace ∧ l.freespace ≤ last ∧
      first.toNat + 4 * l.cmEntries ≤ l.freespace.toNat ∧
      (∀ i < l.cmEntries, l.freespace.toNat + 4096 * (i + 1) ≤ last.toNat) ∧
      ∀ (mem : Nat → CmEntry), ∀ i < l.cmEntries,
        (Coremap.initCoremap l mem).getindex ((Coremap.initCoremap l mem).indextopaddr i) = i ∧
        ((Coremap.initCoremap l mem).indextopaddr i).toNat = l.freespace.toNat + 4096 * i := by
  have hfree := toNat_bootFreespace (by omega : first.toNat ≤ last.toNat) hmem
  have hle : (bootFreespace first last).toNat ≤ last.toNat := by omega
  have hentries : (bootCmEntries first last).toNat =
      last.toNat / 4096 - (bootFreespace first last).toNat / 4096 := by
    unfold bootCmEntries
    rw [UInt32.toNat_sub_of_le]
    · simp [UInt32.toNat_div]
    · rw [UInt32.le_iff_toNat_le, UInt32.toNat_div, UInt32.toNat_div]
      exact Nat.div_le_div_right hle
  have hframes : (bootFreespace first last).toNat + 4096 * (bootCmEntries first last).toNat ≤
    last.toNat := by
    omega
  refine ⟨⟨bootFreespace first last, (bootCmEntries first last).toNat, ?_, ?_, ?_⟩, rfl, rfl, ?_,
    ?_, ?_, ?_, ?_⟩
  · unfold PageAligned
    omega
  · omega
  · omega
  · exact UInt32.lt_iff_toNat_lt.mpr (by simp only; omega)
  · exact UInt32.le_iff_toNat_le.mpr hle
  · simp only
    omega
  · intro i hi
    exact (Nat.add_le_add_left (Nat.mul_le_mul_left 4096 hi) _).trans hframes
  · intro mem i hi
    refine ⟨Coremap.getindex_indextopaddr (Nat.le_of_lt hi), ?_⟩
    rw [Coremap.toNat_indextopaddr (Nat.le_of_lt hi), Nat.mul_comm i]
    rfl

/-- 境目の揃わない memory の、表の後ろの七枚を管理する。 -/
theorem bootstrap_layout_seven :
    ∃ l : CmLayout, l.freespace = 12288 ∧ l.cmEntries = 7 ∧ PageAligned l.freespace ∧
      ∀ (mem : Nat → CmEntry), ∀ i < 7, l.freespace.toNat + 4096 * (i + 1) ≤ 40961 ∧
        (Coremap.initCoremap l mem).getindex ((Coremap.initCoremap l mem).indextopaddr i) = i := by
  obtain ⟨l, hfree, hentries, -, -, -, hframes, hindex⟩ :=
    bootstrap_layout 4097 40961 (by decide) (by decide)
  have hseven : l.cmEntries = 7 := hentries.trans (by decide)
  exact ⟨l, hfree.trans (by decide), hseven, l.aligned,
    fun mem i hi => ⟨hframes i (hseven ▸ hi), (hindex mem i (hseven ▸ hi)).1⟩⟩

end Os161
