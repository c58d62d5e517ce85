import MsProjects.Os161.Fs.File
import MsProjects.Os161.Properties.Volume

/-! # file の block と `sfs_bmap` -/

namespace Os161.Sfs

open List Function Infra.Comp

open Infra (Comp)

variable {fb b : Nat} {pl : Place}

/-! ## file の持つ block -/

inductive Place where
  | direct (i : Fin 15)
  | indirect
  /-- indirect block に並ぶもの。 -/
  | listed (j : Fin 128)
  deriving DecidableEq

def Place.block (disk : Nat → Block) (inode : Inode) : Place → Nat
  | .direct i => inode.direct i
  | .indirect => inode.indirect
  | .listed j => if inode.indirect = 0 then 0 else (disk inode.indirect).word j

def placeAt (fb : Nat) : Option Place :=
  if h : fb < 15 then some (.direct ⟨fb, h⟩)
  else if h : fb < 143 then some (.listed ⟨fb - 15, by omega⟩)
  else none

theorem placeAt_inj {fb' : Nat} (h : placeAt fb = some pl) (h' : placeAt fb' = some pl) :
    fb = fb' := by
  rw [placeAt] at h h'
  split at h <;> split at h'
  · cases h
    cases h'
    rfl
  · split at h' <;> cases h <;> cases h'
  · split at h <;> cases h' <;> cases h
  · split at h <;> split at h'
    · cases h
      simp only [Option.some.injEq, Place.listed.injEq, Fin.mk.injEq] at h'
      omega
    · cases h'
    · cases h
    · cases h

namespace File

variable (f : File)

def block (pl : Place) : Nat := pl.block f.vol.disk f.inode

def Uses (b : Nat) : Prop := b ≠ 0 ∧ ∃ pl, f.block pl = b

/-- block の番号に対応する disk の block。 -/
def blockAt (fb : Nat) : Nat := (placeAt fb).elim 0 f.block

def byte (p : Nat) : UInt8 :=
  if f.blockAt (p / 512) = 0 then 0
  else f.vol.disk (f.blockAt (p / 512)) ⟨p % 512, mod_blocksize_lt p⟩

/-- file の block は異なり、印が付いている。 -/
structure Ok : Prop where
  vol : f.vol.Ok
  lt : ∀ b, f.Uses b → b < f.vol.nblocks
  marked : ∀ b, f.Uses b → f.vol.freemap.isset b = true
  inj : ∀ pl pl', f.block pl = f.block pl' → f.block pl ≠ 0 → pl = pl'

variable {f}

theorem uses_block (h : f.block pl ≠ 0) : f.Uses (f.block pl) := ⟨h, pl, rfl⟩

theorem uses_blockAt (h : f.blockAt fb ≠ 0) : f.Uses (f.blockAt fb) := by
  rw [blockAt] at h ⊢
  cases hpl : placeAt fb with
  | none =>
    rw [hpl] at h
    exact absurd rfl h
  | some pl =>
    rw [hpl] at h
    exact uses_block h

theorem block_listed_congr {g : File} {j : Fin 128} (hind : g.inode.indirect = f.inode.indirect)
    (hdisk : f.inode.indirect ≠ 0 → g.vol.disk f.inode.indirect = f.vol.disk f.inode.indirect) :
    g.block (.listed j) = f.block (.listed j) := by
  simp only [block, Place.block, hind]
  by_cases hzero : f.inode.indirect = 0
  · rw [if_pos hzero, if_pos hzero]
  · rw [if_neg hzero, if_neg hzero, hdisk hzero]

theorem Ok.blockAt_inj (hf : f.Ok) {fb' : Nat} (heq : f.blockAt fb = f.blockAt fb')
    (hne : f.blockAt fb ≠ 0) : fb = fb' := by
  rw [blockAt] at hne
  rw [blockAt, blockAt] at heq
  cases hpl : placeAt fb with
  | none =>
    rw [hpl] at hne
    exact absurd rfl hne
  | some pl =>
    cases hpl' : placeAt fb' with
    | none =>
      rw [hpl, hpl'] at heq
      rw [hpl] at hne
      exact absurd heq hne
    | some pl' =>
      rw [hpl, hpl'] at heq
      rw [hpl] at hne
      obtain rfl := hf.inj pl pl' heq hne
      exact placeAt_inj hpl hpl'

theorem Ok.blockAt_ne_indirect (hf : f.Ok) (hne : f.blockAt fb ≠ 0) :
    f.blockAt fb ≠ f.inode.indirect := by
  intro heq
  rw [blockAt] at hne heq
  cases hfb : placeAt fb with
  | none =>
    rw [hfb] at hne
    exact hne rfl
  | some pl =>
    rw [hfb] at hne heq
    obtain rfl := hf.inj pl .indirect heq hne
    rw [placeAt] at hfb
    split at hfb
    · cases hfb
    · split at hfb <;> cases hfb

theorem Ok.not_uses_free (hf : f.Ok) (hb : f.vol.Free b) : ¬ f.Uses b := by
  intro huses
  have hmarked := hf.marked b huses
  rw [hb.clear] at hmarked
  cases hmarked

end File

/-! ## 一つの file への操作 -/

/-- file の block と使われていない block だけを変え、印を file の block に合わせる。 -/
structure Moves (f g : File) : Prop where
  nblocks : g.vol.nblocks = f.vol.nblocks
  ok : g.Ok
  marked : ∀ b, g.vol.freemap.isset b = true ↔ (f.vol.freemap.isset b = true ∧ ¬ f.Uses b) ∨ g.Uses b
  fresh : ∀ b, g.Uses b → f.Uses b ∨ f.vol.freemap.isset b = false
  disk : ∀ b, f.vol.freemap.isset b = true → ¬ f.Uses b → g.vol.disk b = f.vol.disk b
  type : g.inode.type = f.inode.type
  /-- inode を変えたら `sv_dirty` を立てる。 -/
  clean : g.dirty = false → f.dirty = false ∧ g.inode = f.inode

/-- `linkcount` を変えない操作。 -/
structure Evolves (f g : File) : Prop extends Moves f g where
  linkcount : g.inode.linkcount = f.inode.linkcount
  size : f.inode.size < 2 ^ 32 → g.inode.size < 2 ^ 32

namespace Moves

variable {f g : File}

theorem refl (hf : f.Ok) : Moves f f where
  nblocks := rfl
  ok := hf
  marked b := by
    by_cases hb : f.Uses b
    · simp [hb, hf.marked b hb]
    · simp [hb]
  fresh _ hb := .inl hb
  disk _ _ _ := rfl
  type := rfl
  clean hd := ⟨hd, rfl⟩

theorem not_uses (h : Moves f g) (hb : f.vol.freemap.isset b = true) (hn : ¬ f.Uses b) :
    ¬ g.Uses b := by
  intro hg
  rcases h.fresh b hg with hf | hclear
  · exact hn hf
  · rw [hb] at hclear
    cases hclear

theorem rewrite (hf : f.Ok) {inode : Inode} (hdirect : inode.direct = f.inode.direct)
    (hindirect : inode.indirect = f.inode.indirect) (htype : inode.type = f.inode.type) :
    Moves f ⟨f.vol, inode, true⟩ := by
  have hblock : ∀ pl, File.block ⟨f.vol, inode, true⟩ pl = f.block pl := by
    intro pl
    cases pl with
    | direct i => exact congrFun hdirect i
    | indirect => exact hindirect
    | listed j => exact File.block_listed_congr hindirect fun _ => rfl
  have huses : ∀ b, File.Uses ⟨f.vol, inode, true⟩ b ↔ f.Uses b := fun b => by simp only [File.Uses, hblock]
  refine ⟨rfl, ⟨hf.vol, fun b hb => hf.lt b ((huses b).mp hb),
    fun b hb => hf.marked b ((huses b).mp hb), ?_⟩,
    fun b => ?_, fun b hb => .inl ((huses b).mp hb), fun _ _ _ => rfl, htype, Bool.noConfusion⟩
  · intro pl pl' heq hne
    rw [hblock] at heq hne
    rw [hblock] at heq
    exact hf.inj pl pl' heq hne
  · rw [huses]
    exact (refl hf).marked b

end Moves

namespace Evolves

variable {f g h : File}

theorem refl (hf : f.Ok) : Evolves f f := ⟨.refl hf, rfl, id⟩

theorem trans (h₁ : Evolves f g) (h₂ : Evolves g h) : Evolves f h where
  nblocks := h₂.nblocks.trans h₁.nblocks
  ok := h₂.ok
  marked b := by
    rw [h₂.marked, h₁.marked]
    constructor
    · rintro (⟨⟨hf, hn⟩ | hg, hng⟩ | hh)
      · exact .inl ⟨hf, hn⟩
      · exact absurd hg hng
      · exact .inr hh
    · rintro (⟨hf, hn⟩ | hh)
      · exact .inl ⟨.inl ⟨hf, hn⟩, h₁.not_uses hf hn⟩
      · exact .inr hh
  fresh b hb := by
    rcases h₂.fresh b hb with hg | hclear
    · exact h₁.fresh b hg
    · by_cases hf : f.Uses b
      · exact .inl hf
      · refine .inr ?_
        by_contra hset
        have hmarked := (h₁.marked b).mpr (.inl ⟨by simpa using hset, hf⟩)
        rw [hclear] at hmarked
        cases hmarked
  disk b hb hn := by
    rw [h₂.disk b ((h₁.marked b).mpr (.inl ⟨hb, hn⟩)) (h₁.not_uses hb hn), h₁.disk b hb hn]
  type := h₂.type.trans h₁.type
  linkcount := h₂.linkcount.trans h₁.linkcount
  size h := h₂.size (h₁.size h)
  clean hd := by
    obtain ⟨hg, heq⟩ := h₂.clean hd
    obtain ⟨hf, heq'⟩ := h₁.clean hg
    exact ⟨hf, heq.trans heq'⟩

theorem resize (hf : f.Ok) {n : Nat} (hn : n < 2 ^ 32) :
    Evolves f { f with inode := { f.inode with size := n }, dirty := true } :=
  ⟨.rewrite hf rfl rfl rfl, rfl, fun _ => hn⟩

theorem assign (hf : f.Ok) (hb : f.vol.Free b) (hzero : f.block pl = 0) (hpl : g.block pl = b)
    (hother : ∀ pl', pl' ≠ pl → g.block pl' = f.block pl')
    (hvol : g.vol = { f.vol with freemap := f.vol.freemap.set b, disk := g.vol.disk })
    (hdisk : ∀ c, f.vol.freemap.isset c = true → ¬ f.Uses c → g.vol.disk c = f.vol.disk c)
    (htype : g.inode.type = f.inode.type) (hlink : g.inode.linkcount = f.inode.linkcount)
    (hsize : g.inode.size = f.inode.size)
    (hclean : g.dirty = false → f.dirty = false ∧ g.inode = f.inode) : Evolves f g := by
  have hnot := hf.not_uses_free hb
  have huses : ∀ c, g.Uses c ↔ f.Uses c ∨ c = b := by
    intro c
    constructor
    · rintro ⟨hc, pl', rfl⟩
      by_cases heq : pl' = pl
      · exact .inr (heq ▸ hpl)
      · rw [hother pl' heq] at hc ⊢
        exact .inl (File.uses_block hc)
    · rintro (⟨hc, pl', rfl⟩ | rfl)
      · refine ⟨hc, pl', hother pl' ?_⟩
        rintro rfl
        exact hc hzero
      · exact ⟨hb.pos, pl, hpl⟩
  have hmap : g.vol.freemap = f.vol.freemap.set b := by rw [hvol]
  have hn : g.vol.nblocks = f.vol.nblocks := by rw [hvol]
  refine ⟨⟨hn, ⟨?_, ?_, ?_, ?_⟩, ?_, ?_, hdisk, htype, hclean⟩, hlink, fun h => hsize ▸ h⟩
  · rw [hvol]
    exact hf.vol.set _
  · intro c hc
    rw [hn]
    rcases (huses c).mp hc with hc | rfl
    · exact hf.lt c hc
    · exact hb.lt
  · intro c hc
    rw [hmap, Bitmap.isset_set]
    rcases (huses c).mp hc with hc | rfl
    · simp [hf.marked c hc]
    · simp
  · intro pl₁ pl₂ heq hne
    by_cases h₁ : pl₁ = pl
    · by_cases h₂ : pl₂ = pl
      · rw [h₁, h₂]
      · rw [h₁, hpl, hother pl₂ h₂] at heq
        exact absurd ⟨hb.pos, pl₂, heq.symm⟩ hnot
    · by_cases h₂ : pl₂ = pl
      · rw [h₂, hpl, hother pl₁ h₁] at heq
        exact absurd ⟨hb.pos, pl₁, heq⟩ hnot
      · rw [hother pl₁ h₁] at hne heq
        rw [hother pl₂ h₂] at heq
        exact hf.inj pl₁ pl₂ heq hne
  · intro c
    rw [hmap, Bitmap.isset_set, huses, Bool.or_eq_true, decide_eq_true_eq]
    constructor
    · rintro (hc | rfl)
      · by_cases hu : f.Uses c
        · exact .inr (.inl hu)
        · exact .inl ⟨hc, hu⟩
      · exact .inr (.inr rfl)
    · rintro (⟨hc, -⟩ | hc | rfl)
      · exact .inl hc
      · exact .inl (hf.marked c hc)
      · exact .inr rfl
  · intro c hc
    rcases (huses c).mp hc with hc | rfl
    · exact .inl hc
    · exact .inr hb.clear

end Evolves

/-- block の対応を得た後の file。 -/
structure Mapped (f g : File) : Prop where
  evolves : Evolves f g
  byte : ∀ p, g.byte p = f.byte p
  size : g.inode.size = f.inode.size
  /-- あった対応は変わらない。 -/
  keep : ∀ fb, f.blockAt fb ≠ 0 → g.blockAt fb = f.blockAt fb

namespace Mapped

variable {f g h : File}

theorem refl (hf : f.Ok) : Mapped f f := ⟨.refl hf, fun _ => rfl, rfl, fun _ _ => rfl⟩

theorem trans (h₁ : Mapped f g) (h₂ : Mapped g h) : Mapped f h where
  evolves := h₁.evolves.trans h₂.evolves
  byte p := (h₂.byte p).trans (h₁.byte p)
  size := h₂.size.trans h₁.size
  keep fb hne := by
    have hg := h₁.keep fb hne
    rw [h₂.keep fb (hg ▸ hne), hg]

theorem assign (hev : Evolves f g) (hzero : f.block pl = 0) (hpl : g.block pl = b)
    (hother : ∀ pl', pl' ≠ pl → g.block pl' = f.block pl') (hb : g.vol.disk b = .zero)
    (hdisk : ∀ fb, f.blockAt fb ≠ 0 → g.vol.disk (f.blockAt fb) = f.vol.disk (f.blockAt fb))
    (hsize : g.inode.size = f.inode.size) : Mapped f g := by
  have hat : ∀ fb, f.blockAt fb ≠ 0 → g.blockAt fb = f.blockAt fb := by
    intro fb hne
    rw [File.blockAt] at hne
    rw [File.blockAt, File.blockAt]
    cases hfb : placeAt fb with
    | none => rfl
    | some pl' =>
      rw [hfb] at hne
      refine hother pl' ?_
      rintro rfl
      exact hne hzero
  refine ⟨hev, fun p => ?_, hsize, hat⟩
  rw [File.byte, File.byte]
  by_cases hne : f.blockAt (p / 512) = 0
  · rw [if_pos hne]
    by_cases hnew : g.blockAt (p / 512) = 0
    · rw [if_pos hnew]
    · -- 新しく割り当てた block は 0 で埋めてある
      have hgb : g.blockAt (p / 512) = b := by
        rw [File.blockAt] at hne hnew ⊢
        cases hfb : placeAt (p / 512) with
        | none =>
          rw [hfb] at hnew
          exact absurd rfl hnew
        | some pl' =>
          rw [hfb] at hne hnew
          by_cases heq : pl' = pl
          · subst heq
            exact hpl
          · exact absurd ((hother pl' heq).trans hne) hnew
      rw [if_neg hnew, hgb, hb]
      rfl
  · rw [if_neg hne, hat _ hne, if_neg hne, hdisk _ hne]

end Mapped

/-! ## 割り当て -/

namespace File

variable (f : File)

/-- direct block を割り当てる。 -/
def takeDirect (i : Fin 15) (b : Nat) : File :=
  ⟨f.vol.taken b, { f.inode with direct := update f.inode.direct i b }, true⟩

/-- indirect block を割り当てる。 -/
def takeIndirect (b : Nat) : File := ⟨f.vol.taken b, { f.inode with indirect := b }, true⟩

/-- indirect block に並ぶ block を割り当てる。 -/
def takeListed (j : Fin 128) (b : Nat) : File :=
  { f with vol := { f.vol.taken b with
      disk := update (f.vol.taken b).disk f.inode.indirect
        (.ofWords (update (f.vol.disk f.inode.indirect).word j b)) } }

variable {f} {b : Nat}

theorem Ok.mapped_takeDirect (hf : f.Ok) (hb : f.vol.Free b) {i : Fin 15}
    (hzero : f.block (.direct i) = 0) : Mapped f (f.takeDirect i b) ∧
    (f.takeDirect i b).block (.direct i) = b := by
  have hpl : (f.takeDirect i b).block (.direct i) = b := update_self ..
  have hother : ∀ pl', pl' ≠ .direct i → (f.takeDirect i b).block pl' = f.block pl' := by
    intro pl' hne
    cases pl' with
    | direct k =>
      refine update_of_ne ?_ _ _
      rintro rfl
      exact hne rfl
    | indirect => rfl
    | listed j =>
      exact block_listed_congr rfl fun hind => hb.taken_disk (hf.marked _ ⟨hind, .indirect, rfl⟩)
  have hev : Evolves f (f.takeDirect i b) :=
    .assign hf hb hzero hpl hother rfl (fun c hc _ => hb.taken_disk hc) rfl rfl rfl Bool.noConfusion
  exact ⟨.assign hev hzero hpl hother (update_self ..)
    (fun fb hne => hb.taken_disk (hf.marked _ (uses_blockAt hne))) rfl, hpl⟩

theorem Ok.mapped_takeIndirect (hf : f.Ok) (hb : f.vol.Free b) (hzero : f.block .indirect = 0) :
    Mapped f (f.takeIndirect b) ∧ (f.takeIndirect b).vol.disk b = .zero := by
  have hbzero : (f.takeIndirect b).vol.disk b = .zero := update_self ..
  have hother : ∀ pl', pl' ≠ .indirect → (f.takeIndirect b).block pl' = f.block pl' := by
    intro pl' hne
    cases pl' with
    | direct k => rfl
    | indirect => exact absurd rfl hne
    | listed j =>
      have hnew : (f.takeIndirect b).block (.listed j) = 0 := by
        simp only [block, Place.block]
        split
        · rfl
        · exact (congrArg (fun c : Block => c.word j) hbzero).trans (Block.word_zero j)
      exact hnew.trans (if_pos hzero).symm
  have hev : Evolves f (f.takeIndirect b) :=
    .assign hf hb hzero rfl hother rfl (fun c hc _ => hb.taken_disk hc) rfl rfl rfl Bool.noConfusion
  exact ⟨.assign hev hzero rfl hother hbzero
    (fun fb hne => hb.taken_disk (hf.marked _ (uses_blockAt hne))) rfl, hbzero⟩

theorem Ok.mapped_takeListed (hf : f.Ok) (hb : f.vol.Free b) {j : Fin 128} (hind : f.inode.indirect ≠ 0)
    (hzero : (f.vol.disk f.inode.indirect).word j = 0) :
    Mapped f (f.takeListed j b) ∧ (f.takeListed j b).block (.listed j) = b := by
  have huses : f.Uses f.inode.indirect := ⟨hind, .indirect, rfl⟩
  have hne : b ≠ f.inode.indirect := by
    rintro rfl
    exact hf.not_uses_free hb huses
  have hbound : b < 2 ^ 32 := by
    have := hf.vol.bound
    have := hb.lt
    omega
  have hlisted : ∀ k, (f.takeListed j b).block (.listed k) =
      update (f.vol.disk f.inode.indirect).word j b k := by
    intro k
    have hblock : (f.takeListed j b).block (.listed k) =
        ((f.takeListed j b).vol.disk f.inode.indirect).word k := if_neg hind
    have hdisk : (f.takeListed j b).vol.disk f.inode.indirect =
        .ofWords (update (f.vol.disk f.inode.indirect).word j b) := update_self ..
    rw [hblock, hdisk, Block.word_ofWords]
    refine Nat.mod_eq_of_lt ?_
    by_cases hk : k = j
    · rw [hk, update_self]
      exact hbound
    · rw [update_of_ne hk]
      exact Block.word_lt _ _
  have hpl : (f.takeListed j b).block (.listed j) = b := by rw [hlisted, update_self]
  have hold : f.block (.listed j) = 0 := (if_neg hind).trans hzero
  have hother : ∀ pl', pl' ≠ .listed j → (f.takeListed j b).block pl' = f.block pl' := by
    intro pl' hpl'
    cases pl' with
    | direct k | indirect => rfl
    | listed k =>
      have hk : k ≠ j := by
        rintro rfl
        exact hpl' rfl
      rw [hlisted, update_of_ne hk]
      exact (if_neg hind).symm
  have hdisk : ∀ c, f.vol.freemap.isset c = true → c ≠ f.inode.indirect →
      (f.takeListed j b).vol.disk c = f.vol.disk c := by
    intro c hc hne
    exact (update_of_ne hne _ _).trans (hb.taken_disk hc)
  have hev : Evolves f (f.takeListed j b) := by
    refine .assign hf hb hold hpl hother rfl (fun c hc hn => hdisk c hc ?_) rfl rfl rfl fun hd => ⟨hd, rfl⟩
    rintro rfl
    exact hn huses
  refine ⟨.assign hev hold hpl hother ?_ (fun fb hfb => hdisk _ (hf.marked _ (uses_blockAt hfb)) ?_)
    rfl, hpl⟩
  · exact (update_of_ne hne _ _).trans (update_self ..)
  · exact hf.blockAt_ne_indirect hfb

end File

/-! ## `sfs_bmap` -/

section bmap

variable {f : File}

theorem handBack_post (hf : f.Ok) (hb : b ≠ 0 → f.Uses b) :
    Comp.Post (handBack b) f (fun b' g => b' = b ∧ g = f) fun _ _ => False := by
  rw [handBack, post_ite]
  refine ⟨fun hne => ?_, fun _ => (post_pure _).mpr ⟨rfl, rfl⟩⟩
  have huses := hb hne
  simp only [post_bind, onVol, post_zoom, bused, post_get, post_assert, post_pure]
  exact ⟨hf.lt b huses, hf.marked b huses, trivial, trivial⟩

theorem bmapDirect_post (hf : f.Ok) (i : Fin 15) (doalloc : Bool) :
    Comp.Post (bmapDirect i doalloc) f
      (fun b g => Mapped f g ∧ g.block (.direct i) = b ∧ (doalloc = true → b ≠ 0) ∧
        (doalloc = false → g = f))
      (fun e g => e = .enospc ∧ g = f ∧ doalloc = true ∧ f.block (.direct i) = 0) := by
  rw [bmapDirect, post_bind, post_get]
  dsimp only
  rw [post_ite]
  refine ⟨fun ⟨hzero, halloc⟩ => ?_, fun hcond => ?_⟩
  · rw [post_bind, onVol, post_zoom]
    refine (balloc_post hf.vol).mono ?_ ?_
    · rintro b v ⟨hb, rfl⟩
      obtain ⟨hmapped, hpl⟩ := hf.mapped_takeDirect hb hzero
      rw [post_bind, post_modify]
      refine (handBack_post hmapped.evolves.ok fun _ => ⟨hb.pos, .direct i, hpl⟩).mono ?_
        (fun _ _ h => h.elim)
      rintro _ _ ⟨rfl, rfl⟩
      refine ⟨hmapped, hpl, fun _ => hb.pos, fun h => ?_⟩
      rw [h] at halloc
      cases halloc
    · rintro e v ⟨rfl, rfl⟩
      exact ⟨rfl, rfl, halloc, hzero⟩
  · refine (handBack_post hf fun hne => ⟨hne, .direct i, rfl⟩).mono ?_ (fun _ _ h => h.elim)
    rintro _ _ ⟨rfl, rfl⟩
    exact ⟨.refl hf, rfl, fun halloc hzero => hcond ⟨hzero, halloc⟩, fun _ => rfl⟩

theorem loadIndirect_post (hf : f.Ok) :
    Comp.Post loadIndirect f
      (fun r g => Mapped f g ∧ r = (g.inode.indirect, (g.vol.disk g.inode.indirect).word) ∧
        g.inode.indirect ≠ 0 ∧ (f.inode.indirect ≠ 0 → g = f))
      (fun e g => e = .enospc ∧ g = f ∧ f.inode.indirect = 0) := by
  rw [loadIndirect, post_bind, post_get, post_ite]
  refine ⟨fun hzero => ?_, fun hne => ?_⟩
  · rw [post_bind, onVol, post_zoom]
    refine (balloc_post hf.vol).mono ?_ ?_
    · rintro b v ⟨hb, rfl⟩
      obtain ⟨hmapped, hbzero⟩ := hf.mapped_takeIndirect hb hzero
      rw [post_bind, post_modify, post_pure]
      refine ⟨hmapped, ?_, hb.pos, fun hne => absurd hzero hne⟩
      have hwords : ((f.takeIndirect b).vol.disk b).word = fun _ => 0 := by
        funext j
        rw [hbzero, Block.word_zero]
      exact congrArg (Prod.mk b) hwords.symm
    · rintro e v ⟨rfl, rfl⟩
      exact ⟨rfl, rfl, hzero⟩
  · simp only [post_bind, onVol, post_zoom, rblock, post_get, post_assert, post_pure]
    exact ⟨hf.lt _ ⟨hne, .indirect, rfl⟩, .refl hf, trivial, hne, fun _ => trivial⟩

theorem bmapIndirect_post (hf : f.Ok) (j : Fin 128) (doalloc : Bool) :
    Comp.Post (bmapIndirect j doalloc) f
      (fun b g => Mapped f g ∧ g.block (.listed j) = b ∧ (doalloc = true → b ≠ 0) ∧
        (doalloc = false → g = f))
      (fun e g => e = .enospc ∧ Mapped f g ∧ doalloc = true ∧ f.block (.listed j) = 0) := by
  rw [bmapIndirect, post_bind, post_get, post_ite]
  refine ⟨fun ⟨hzero, halloc⟩ => ?_, fun hcond => ?_⟩
  · rw [post_pure]
    refine ⟨.refl hf, if_pos hzero, fun h => ?_, fun _ => rfl⟩
    rw [halloc] at h
    cases h
  have hdo : f.inode.indirect = 0 → doalloc = true := fun hzero => by
    simpa using fun h => hcond ⟨hzero, h⟩
  rw [post_bind]
  refine (loadIndirect_post hf).mono ?_ ?_
  · rintro _ g ⟨hmapped, rfl, hind, hsame⟩
    have hg := hmapped.evolves.ok
    have hlisted : ∀ k, g.block (.listed k) = (g.vol.disk g.inode.indirect).word k := fun k => if_neg hind
    dsimp only
    rw [post_ite]
    refine ⟨fun ⟨hzero, halloc⟩ => ?_, fun hcond' => ?_⟩
    · rw [post_bind, onVol, post_zoom]
      refine (balloc_post hg.vol).mono ?_ ?_
      · rintro b v ⟨hb, rfl⟩
        obtain ⟨hmapped', hpl⟩ := hg.mapped_takeListed hb hind hzero
        simp only [post_bind, onVol, post_zoom, wblock, post_get, post_assert, post_set]
        refine ⟨hg.lt _ ⟨hind, .indirect, rfl⟩, ?_⟩
        refine (handBack_post hmapped'.evolves.ok fun _ => ⟨hb.pos, .listed j, hpl⟩).mono ?_
          (fun _ _ h => h.elim)
        rintro _ _ ⟨rfl, rfl⟩
        refine ⟨hmapped.trans hmapped', hpl, fun _ => hb.pos, fun h => ?_⟩
        rw [h] at halloc
        cases halloc
      · rintro e v ⟨rfl, rfl⟩
        refine ⟨rfl, hmapped, halloc, ?_⟩
        by_contra hne
        have hind' : f.inode.indirect ≠ 0 := fun h => hne (if_pos h)
        rw [← hsame hind', hlisted] at hne
        exact hne hzero
    · have huses : (g.vol.disk g.inode.indirect).word j ≠ 0 →
          g.Uses ((g.vol.disk g.inode.indirect).word j) :=
        fun hne => ⟨hne, .listed j, hlisted j⟩
      refine (handBack_post hg huses).mono ?_ (fun _ _ h => h.elim)
      rintro _ _ ⟨rfl, rfl⟩
      refine ⟨hmapped, hlisted j, fun halloc hzero => hcond' ⟨hzero, halloc⟩,
        fun h => hsame fun hzero => ?_⟩
      rw [hdo hzero] at h
      cases h
  · rintro e g ⟨rfl, rfl, hzero⟩
    exact ⟨rfl, .refl hf, hdo hzero, if_pos hzero⟩

theorem bmap_post (hf : f.Ok) (fb : Nat) (doalloc : Bool) :
    Comp.Post (bmap fb doalloc) f
      (fun b g => Mapped f g ∧ g.blockAt fb = b ∧ fb < 143 ∧ (doalloc = true → b ≠ 0) ∧
        (doalloc = false → g = f))
      (fun e g => Mapped f g ∧ f.blockAt fb = 0 ∧ (doalloc = false → g = f) ∧
        (e = .enospc ∧ doalloc = true ∧ fb < 143 ∨ e = .efbig ∧ 143 ≤ fb)) := by
  rw [bmap]
  split
  · rename_i hlt
    have hat : ∀ g : File, g.blockAt fb = g.block (.direct ⟨fb, hlt⟩) := fun g => by
      rw [File.blockAt, placeAt, dif_pos hlt]
      rfl
    refine (bmapDirect_post hf ⟨fb, hlt⟩ doalloc).mono ?_ ?_
    · rintro b g ⟨hmapped, hpl, hdo, hno⟩
      exact ⟨hmapped, (hat g).trans hpl, by omega, hdo, hno⟩
    · rintro e g ⟨rfl, rfl, hdo, hzero⟩
      exact ⟨.refl hf, (hat g).trans hzero, fun _ => rfl, .inl ⟨rfl, hdo, by omega⟩⟩
  · rename_i hge
    rw [post_ite]
    refine ⟨fun hbig => ?_, fun hsmall => ?_⟩
    · have hout : ¬ fb < 143 := by omega
      rw [post_throw]
      refine ⟨.refl hf, ?_, fun _ => rfl, .inr ⟨rfl, by omega⟩⟩
      rw [File.blockAt, placeAt, dif_neg hge, dif_neg hout]
      rfl
    · have hlt : fb < 143 := by omega
      have hidx : (⟨(fb - 15) % 128, Nat.mod_lt _ (by decide)⟩ : Fin 128) = ⟨fb - 15, by omega⟩ :=
        Fin.ext (Nat.mod_eq_of_lt (by omega))
      have hat : ∀ g : File, g.blockAt fb = g.block (.listed ⟨fb - 15, by omega⟩) := fun g => by
        rw [File.blockAt, placeAt, dif_neg hge, dif_pos hlt]
        rfl
      rw [hidx]
      refine (bmapIndirect_post hf _ doalloc).mono ?_ ?_
      · rintro b g ⟨hmapped, hpl, hdo, hno⟩
        exact ⟨hmapped, (hat g).trans hpl, hlt, hdo, hno⟩
      · rintro e g ⟨rfl, hmapped, hdo, hzero⟩
        refine ⟨hmapped, (hat f).trans hzero, fun h => ?_, .inl ⟨rfl, hdo, hlt⟩⟩
        rw [h] at hdo
        cases hdo

end bmap

end Os161.Sfs
