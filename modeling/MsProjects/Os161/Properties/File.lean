import MsProjects.Infra.RefCount
import MsProjects.Infra.Run
import MsProjects.Os161.Syscall.File

/-! # file handle の参照数 -/

namespace Os161

open Infra List Function Option

namespace Files

variable {s s' : Files} {ptrs ptrs' : Nat → Nat}

variable {h n p k : Nat} {f : FileHandle} {i : Fin openMax} {hs vs : List Nat}

/-! ## 参照数 -/

def refs (s : Files) (h : Nat) : Option Nat :=
  if s.allocated h then some (s.handle h).references else none

/-- 生きている process の slot のうち、`h` を指すものの数。 -/
def pointers (s : Files) (h : Nat) : Nat := ∑ p ∈ s.live, slotCount (s.fdTable p) h

theorem refs_eq_some : s.refs h = some n ↔ s.allocated h = true ∧ (s.handle h).references = n := by
  unfold refs
  split <;> simp_all

theorem refs_eq_none : s.refs h = none ↔ s.allocated h = false := by
  unfold refs
  split <;> simp_all

theorem refs_kmalloc (f : FileHandle) :
    (s.kmalloc f).refs = update s.refs s.allocs (some f.references) := by
  funext k
  by_cases hk : k = s.allocs
  · subst hk
    simp [refs, kmalloc]
  · simp [refs, kmalloc, update_of_ne hk]

theorem refs_kfree (h : Nat) : (s.kfree h).refs = update s.refs h none := by
  funext k
  by_cases hk : k = h
  · subst hk
    simp [refs, kfree]
  · simp [refs, kfree, update_of_ne hk]

theorem refs_modify {f : FileHandle → FileHandle} (hn : s.refs h = some n) :
    (s.modify h f).refs = update s.refs h (some (f (s.handle h)).references) := by
  have hal := (refs_eq_some.mp hn).1
  funext k
  by_cases hk : k = h
  · subst hk
    simp [refs, modify, hal]
  · simp [refs, modify, update_of_ne hk]

theorem refs_incref (hn : s.refs h = some n) :
    (s.incref (some h)).refs = update s.refs h (some (n + 1)) := by
  rw [incref, refs_modify hn, (refs_eq_some.mp hn).2]

theorem refs_release (hn : s.refs h = some n) :
    (s.release h).refs = update s.refs h (if 1 < n then some (n - 1) else none) := by
  have href := (refs_eq_some.mp hn).2
  unfold release
  rw [href]
  split
  · rw [refs_modify hn, href]
  · exact refs_kfree h

/-! ## slot の数 -/

theorem pointers_setSlot (hp : p ∈ s.live) (i : Fin openMax) (x : Option Nat) (k : Nat) :
    (s.setSlot p i x).pointers k + (if s.fdTable p i = some k then 1 else 0) =
      s.pointers k + if x = some k then 1 else 0 := by
  have hrow := sum_update hp s.fdTable (update (s.fdTable p) i x) (slotCount · k)
  have hslot := slotCount_update (s.fdTable p) i x k
  have hdef : (s.setSlot p i x).pointers k = ∑ q ∈ s.live,
      slotCount (update s.fdTable p (update (s.fdTable p) i x) q) k := rfl
  rw [hdef]
  unfold pointers
  omega

theorem pointers_pos (hp : p ∈ s.live) (hi : s.fdTable p i = some h) : 0 < s.pointers h := by
  unfold pointers
  rw [← Finset.add_sum_erase _ _ hp]
  exact Nat.add_pos_left (slotCount_pos hi) _

theorem pointers_insert {c : Nat} (hc : c ∉ s.live) (t : FdTable) (k : Nat) :
    pointers { s with fdTable := update s.fdTable c t, live := insert c s.live } k =
      s.pointers k + (slotList t).count k := by
  have hrest : ∑ p ∈ s.live, slotCount (update s.fdTable c t p) k = s.pointers k := by
    refine Finset.sum_congr rfl fun p hp => ?_
    rw [update_of_ne (ne_of_mem_of_not_mem hp hc)]
  show ∑ p ∈ insert c s.live, slotCount (update s.fdTable c t p) k = _
  rw [Finset.sum_insert hc, hrest, update_self, slotCount_eq_count, Nat.add_comm]

theorem pointers_erase (hp : p ∈ s.live) (k : Nat) :
    s.pointers k =
      pointers { s with live := s.live.erase p } k + (slotList (s.fdTable p)).count k := by
  have hsplit := Finset.add_sum_erase s.live (fun q => slotCount (s.fdTable q) k) hp
  rw [slotCount_eq_count] at hsplit
  show ∑ q ∈ s.live, slotCount (s.fdTable q) k =
    ∑ q ∈ s.live.erase p, slotCount (s.fdTable q) k + (slotList (s.fdTable p)).count k
  omega

/-! ## vnode の帳簿 -/

/-- 返していない handle の vnode。 -/
def vnodeAt (s : Files) (h : Nat) : Option Nat := if s.allocated h then (s.handle h).vnode else none

/-- vnode `v` を持つ handle の数。 -/
def holders (s : Files) (v : Nat) : Nat :=
  ∑ h ∈ Finset.range s.allocs, if s.vnodeAt h = some v then 1 else 0

/-- 開いた vnode は、一つの handle が持つか、一度だけ閉じられている。 -/
structure Ledger (s : Files) : Prop where
  fresh : ∀ h, s.allocs ≤ h → s.allocated h = false
  hasVnode : ∀ h, s.allocated h = true → ∃ v, (s.handle h).vnode = some v
  freed : ∀ h < s.allocs, s.allocated h = false → ∀ v, (s.handle h).vnode = some v → v ∈ s.closes
  once : ∀ v, s.closes.count v + s.holders v = if v < s.opened then 1 else 0

/-- `references` と slot の数の釣り合いと、vnode の帳簿。 -/
structure Tracked (s : Files) (ptrs : Nat → Nat) : Prop extends Ledger s where
  balanced : Balanced s.refs ptrs

/-- 帳簿に現れない所だけが違う。 -/
structure Similar (s s' : Files) : Prop where
  allocated : s'.allocated = s.allocated
  allocs : s'.allocs = s.allocs
  opened : s'.opened = s.opened
  vnode : ∀ h, (s'.handle h).vnode = (s.handle h).vnode
  closes : s'.closes.Perm s.closes

theorem Ledger.lt (hl : Ledger s) (ha : s.allocated h = true) : h < s.allocs := by
  by_contra hge
  rw [hl.fresh h (by omega)] at ha
  cases ha

theorem Ledger.holders_pos (hl : Ledger s) (ha : s.allocated h = true) {v : Nat}
    (hv : (s.handle h).vnode = some v) : 0 < s.holders v := by
  have hat : s.vnodeAt h = some v := by rw [vnodeAt, if_pos ha, hv]
  rw [holders, ← Finset.add_sum_erase _ _ (Finset.mem_range.mpr (hl.lt ha)), if_pos hat]
  omega

theorem Similar.ledger (hs : Similar s s') (hl : Ledger s) : Ledger s' where
  fresh h hh := by
    rw [hs.allocated]
    exact hl.fresh h (hs.allocs ▸ hh)
  hasVnode h hh := by
    rw [hs.vnode]
    exact hl.hasVnode h (hs.allocated ▸ hh)
  freed h hh hfree v hv :=
    hs.closes.mem_iff.mpr (hl.freed h (hs.allocs ▸ hh) (hs.allocated ▸ hfree) v (hs.vnode h ▸ hv))
  once v := by
    have hat : s'.vnodeAt = s.vnodeAt := by
      funext h
      rw [vnodeAt, vnodeAt, hs.allocated, hs.vnode]
    rw [hs.closes.count_eq, holders, hs.allocs, hat, hs.opened]
    exact hl.once v

theorem count_concat (l : List Nat) (v w : Nat) :
    (l ++ [v]).count w = l.count w + if v = w then 1 else 0 := by
  rw [count_append, count_singleton]
  simp

theorem handle_kmalloc_of_ne (f : FileHandle) (hk : k ≠ s.allocs) :
    (s.kmalloc f).handle k = s.handle k :=
  update_of_ne hk _ _

theorem allocated_kmalloc_of_ne (f : FileHandle) (hk : k ≠ s.allocs) :
    (s.kmalloc f).allocated k = s.allocated k :=
  update_of_ne hk _ _

theorem allocated_kfree_of_ne (hk : k ≠ h) : (s.kfree h).allocated k = s.allocated k :=
  update_of_ne hk _ _

theorem allocated_kfree_self : (s.kfree h).allocated h = false := update_self _ _ _

theorem vnodeAt_kfree (s : Files) (h : Nat) : (s.kfree h).vnodeAt = update s.vnodeAt h none := by
  funext k
  by_cases hk : k = h
  · rw [hk, update_self, vnodeAt, allocated_kfree_self]
    rfl
  · rw [update_of_ne hk, vnodeAt, allocated_kfree_of_ne hk]
    rfl

theorem Ledger.close (hl : Ledger s) (ha : s.allocated h = true) :
    Ledger ((s.vfsClose (s.handle h).vnode).kfree h) := by
  obtain ⟨v, hv⟩ := hl.hasVnode h ha
  have hcloses : ((s.vfsClose (s.handle h).vnode).kfree h).closes = s.closes ++ [v] := by
    show s.closes ++ (s.handle h).vnode.toList = _
    rw [hv, toList_some]
  refine ⟨fun k hk => ?_, fun k hk => ?_, fun k hk hfree w hw => ?_, fun w => ?_⟩
  · by_cases hkh : k = h
    · exact hkh ▸ allocated_kfree_self
    · exact (allocated_kfree_of_ne hkh).trans (hl.fresh k hk)
  · by_cases hkh : k = h
    · rw [hkh, allocated_kfree_self] at hk
      cases hk
    · exact hl.hasVnode k ((allocated_kfree_of_ne hkh).symm.trans hk)
  · rw [hcloses]
    by_cases hkh : k = h
    · subst hkh
      cases hv.symm.trans hw
      exact mem_append_right _ mem_cons_self
    · exact mem_append_left _ (hl.freed k hk ((allocated_kfree_of_ne hkh).symm.trans hfree) w hw)
  · have hself : s.vnodeAt h = some v := by rw [vnodeAt, if_pos ha, hv]
    have hsum := sum_update (Finset.mem_range.mpr (hl.lt ha)) s.vnodeAt none
      fun x => if x = some w then 1 else 0
    have hold := hl.once w
    rw [hcloses, count_concat, holders, vnodeAt_kfree]
    simp only [hself, some.injEq, reduceCtorEq, if_false, Nat.add_zero] at hsum
    show s.closes.count w + _ + ∑ k ∈ Finset.range s.allocs,
      (if update s.vnodeAt h none k = some w then 1 else 0) =
      if w < s.opened then 1 else 0
    rw [← hold, holders]
    omega

theorem Ledger.openClose (hl : Ledger s) :
    Ledger { s with opened := s.opened + 1, closes := s.closes ++ [s.opened] } := by
  refine ⟨hl.fresh, hl.hasVnode, fun k hk hfree v hv => ?_, fun v => ?_⟩
  · exact mem_append_left _ (hl.freed k hk hfree v hv)
  · have hold := hl.once v
    show (s.closes ++ [s.opened]).count v + s.holders v = if v < s.opened + 1 then 1 else 0
    rw [count_concat]
    split_ifs at hold ⊢ <;> omega

/-- handle を一つ足し、開いた vnode を持たせるか、すぐに返す。 -/
theorem Ledger.extend (hl : Ledger s) (hallocs : s'.allocs = s.allocs + 1) (hcloses : s'.closes = s.closes)
    (hold : ∀ k, k ≠ s.allocs → s'.allocated k = s.allocated k ∧ s'.handle k = s.handle k)
    (hopened : s'.opened = if s'.allocated s.allocs then s.opened + 1 else s.opened)
    (hnew : (s'.handle s.allocs).vnode = if s'.allocated s.allocs then some s.opened else none) :
    Ledger s' := by
  refine ⟨fun k hk => ?_, fun k hk => ?_, fun k hk hfree v hv => ?_, fun v => ?_⟩
  · rw [(hold k (by omega)).1]
    exact hl.fresh k (by omega)
  · by_cases hka : k = s.allocs
    · subst hka
      exact ⟨s.opened, by rw [hnew, if_pos hk]⟩
    · rw [(hold k hka).1] at hk
      rw [(hold k hka).2]
      exact hl.hasVnode k hk
  · by_cases hka : k = s.allocs
    · subst hka
      simp [hnew, hfree] at hv
    · rw [(hold k hka).1] at hfree
      rw [(hold k hka).2] at hv
      exact hcloses ▸ hl.freed k (by omega) hfree v hv
  · have honce := hl.once v
    have hsum : s'.holders v = s.holders v + if s'.vnodeAt s.allocs = some v then 1 else 0 := by
      rw [holders, hallocs, Finset.sum_range_succ, holders]
      refine congrArg (· + _) (Finset.sum_congr rfl fun k hk => ?_)
      obtain ⟨hal, hhandle⟩ := hold k (Nat.ne_of_lt (Finset.mem_range.mp hk))
      rw [vnodeAt, vnodeAt, hal, hhandle]
    rw [hcloses, hsum, vnodeAt, hnew, hopened]
    cases s'.allocated s.allocs with
    | false => simpa using honce
    | true =>
      simp only [if_true, some.injEq]
      split_ifs at honce ⊢ <;> omega

theorem Ledger.openHandle (hl : Ledger s) (hf : f.vnode = some s.opened) :
    Ledger (kmalloc { s with opened := s.opened + 1 } f) :=
  hl.extend rfl rfl (fun _ hk => ⟨allocated_kmalloc_of_ne f hk, handle_kmalloc_of_ne f hk⟩)
    (by simp [kmalloc]) (by simp [kmalloc, hf])

theorem Ledger.skip (hl : Ledger s) (hf : f.vnode = none) :
    Ledger ((s.kmalloc f).kfree s.allocs) :=
  hl.extend rfl rfl (fun _ hk => ⟨(allocated_kfree_of_ne hk).trans (allocated_kmalloc_of_ne f hk),
    handle_kmalloc_of_ne f hk⟩) (by simp [kmalloc, kfree]) (by simp [kmalloc, kfree, hf])

/-! ## 参照の増減 -/

theorem Tracked.refs_eq (ht : Tracked s ptrs) (hp : 0 < ptrs h) :
    s.allocated h = true ∧ (s.handle h).references = ptrs h :=
  refs_eq_some.mp (ht.balanced.exists_some hp)

theorem vnode_modify {f : FileHandle → FileHandle} (hf : ∀ x, (f x).vnode = x.vnode) (k : Nat) :
    ((s.modify h f).handle k).vnode = (s.handle k).vnode := by
  show (update s.handle h (f (s.handle h)) k).vnode = _
  by_cases hk : k = h
  · rw [hk, update_self, hf]
  · rw [update_of_ne hk]

theorem Ledger.modify (hl : Ledger s) {f : FileHandle → FileHandle}
    (hf : ∀ x, (f x).vnode = x.vnode) : Ledger (s.modify h f) :=
  Similar.ledger (s := s) ⟨rfl, rfl, rfl, vnode_modify hf, .refl _⟩ hl

section

variable (ht : Tracked s ptrs)

include ht

theorem Tracked.incref (hpos : 0 < ptrs h) (hp : ∀ k, ptrs' k = ptrs k + if k = h then 1 else 0) :
    Tracked (s.incref (some h)) ptrs' := by
  have hn := ht.balanced.exists_some hpos
  refine ⟨?_, ?_⟩
  · unfold Files.incref
    exact ht.toLedger.modify fun _ => rfl
  · rw [refs_incref hn]
    exact ht.balanced.retain hn hp

theorem Tracked.release (hp : ∀ k, ptrs k = ptrs' k + if k = h then 1 else 0) :
    Tracked (s.release h) ptrs' := by
  have hpos : 0 < ptrs h := by
    rw [hp h, if_pos rfl]
    omega
  have hn := ht.balanced.exists_some hpos
  refine ⟨?_, ?_⟩
  · unfold Files.release
    split
    · exact ht.toLedger.modify fun _ => rfl
    · exact ht.toLedger.close (refs_eq_some.mp hn).1
  · rw [refs_release hn]
    exact ht.balanced.release hn hp

theorem Tracked.openHandle (hf : f.vnode = some s.opened) (hr : f.references = 1)
    (hp : ∀ k, ptrs' k = ptrs k + if k = s.allocs then 1 else 0) :
    Tracked (kmalloc { s with opened := s.opened + 1 } f) ptrs' := by
  have hn : s.refs s.allocs = none := refs_eq_none.mpr (ht.fresh _ le_rfl)
  refine ⟨ht.toLedger.openHandle hf, ?_⟩
  rw [refs_kmalloc, hr]
  exact ht.balanced.create hn hp

theorem Tracked.skip (hf : f.vnode = none) : Tracked ((s.kmalloc f).kfree s.allocs) ptrs := by
  have hn : s.refs s.allocs = none := refs_eq_none.mpr (ht.fresh _ le_rfl)
  refine ⟨ht.toLedger.skip hf, ?_⟩
  rw [refs_kfree, refs_kmalloc]
  show Balanced (update (update s.refs s.allocs _) s.allocs none) ptrs
  rw [update_idem, ← hn, update_eq_self]
  exact ht.balanced

theorem Tracked.openClose :
    Tracked { s with opened := s.opened + 1, closes := s.closes ++ [s.opened] } ptrs :=
  ⟨ht.toLedger.openClose, ht.balanced⟩

end

/-! ### 列に沿った増減 -/

theorem Tracked.foldl_release (ht : Tracked s fun k => ptrs k + hs.count k) :
    Tracked (hs.foldl Files.release s) ptrs := by
  induction hs generalizing s with
  | nil => exact ⟨ht.toLedger, ht.balanced.congr fun k => by simp⟩
  | cons h hs ih =>
    refine ih (ht.release fun k => ?_)
    rw [count_cons, Nat.add_assoc]
    simp only [beq_iff_eq, eq_comm (a := h)]

theorem Tracked.foldl_incref (ht : Tracked s ptrs) (hpos : ∀ h ∈ hs, 0 < ptrs h) :
    Tracked (hs.foldl (fun s h => s.incref (some h)) s) fun k => ptrs k + hs.count k := by
  induction hs generalizing s ptrs with
  | nil => exact ⟨ht.toLedger, ht.balanced.congr fun k => by simp⟩
  | cons h hs ih =>
    have hstep : Tracked (s.incref (some h)) fun k => ptrs k + if k = h then 1 else 0 :=
      ht.incref (hpos h mem_cons_self) fun _ => rfl
    have hrest := ih hstep fun k hk =>
      Nat.lt_of_lt_of_le (hpos k (mem_cons_of_mem _ hk)) (Nat.le_add_right _ _)
    refine ⟨hrest.toLedger, hrest.balanced.congr fun k => ?_⟩
    rw [count_cons]
    simp only [beq_iff_eq, eq_comm (a := h)]
    omega

/-- handle は増えるだけで、持たせた vnode は替わらない。 -/
structure Advances (s s' : Files) : Prop where
  allocs_le : s.allocs ≤ s'.allocs
  vnode : ∀ h < s.allocs, (s'.handle h).vnode = (s.handle h).vnode

/-- さらに、表と process は変わらない。 -/
structure SameTables (s s' : Files) : Prop extends Advances s s' where
  live : s'.live = s.live
  fdTable : s'.fdTable = s.fdTable

theorem SameTables.refl (s : Files) : SameTables s s := ⟨⟨le_rfl, fun _ _ => rfl⟩, rfl, rfl⟩

theorem SameTables.trans {s₁ s₂ s₃ : Files} (h : SameTables s₁ s₂) (h' : SameTables s₂ s₃) :
    SameTables s₁ s₃ where
  allocs_le := h.allocs_le.trans h'.allocs_le
  vnode k hk := (h'.vnode k (Nat.lt_of_lt_of_le hk h.allocs_le)).trans (h.vnode k hk)
  live := h'.live.trans h.live
  fdTable := h'.fdTable.trans h.fdTable

theorem SameTables.pointers (h : SameTables s s') (k : Nat) : s'.pointers k = s.pointers k := by
  unfold Files.pointers
  rw [h.live, h.fdTable]

theorem sameTables_modify {f : FileHandle → FileHandle} (hf : ∀ x, (f x).vnode = x.vnode) :
    SameTables s (s.modify h f) :=
  ⟨⟨le_rfl, fun k _ => vnode_modify hf k⟩, rfl, rfl⟩

theorem sameTables_incref (s : Files) (h : Nat) : SameTables s (s.incref (some h)) := by
  unfold incref
  exact sameTables_modify fun _ => rfl

theorem sameTables_release (s : Files) (h : Nat) : SameTables s (s.release h) := by
  unfold release
  split
  · exact sameTables_modify fun _ => rfl
  · exact ⟨⟨le_rfl, fun _ _ => rfl⟩, rfl, rfl⟩

theorem sameTables_openHandle (f : FileHandle) :
    SameTables s (kmalloc { s with opened := s.opened + 1 } f) :=
  ⟨⟨Nat.le_succ _, fun _ hk => congrArg FileHandle.vnode
    (handle_kmalloc_of_ne f (Nat.ne_of_lt hk))⟩, rfl, rfl⟩

theorem sameTables_skip (f : FileHandle) : SameTables s ((s.kmalloc f).kfree s.allocs) :=
  ⟨⟨Nat.le_succ _, fun _ hk => congrArg FileHandle.vnode
    (handle_kmalloc_of_ne f (Nat.ne_of_lt hk))⟩, rfl, rfl⟩

theorem sameTables_abandon (h : SameTables s s') (vs hs : List Nat) :
    SameTables s (s'.abandon vs hs) :=
  ⟨⟨h.allocs_le, h.vnode⟩, h.live, h.fdTable⟩

theorem sameTables_foldl {α : Type*} {f : Files → α → Files} (hf : ∀ s a, SameTables s (f s a))
    (l : List α) (s : Files) : SameTables s (l.foldl f s) := by
  induction l generalizing s with
  | nil => exact SameTables.refl s
  | cons a l ih => exact (hf s a).trans (ih (f s a))

/-! ## `init_filetable` -/

structure Pending (s : Files) (vs hs : List Nat) : Prop where
  references : ∀ h ∈ hs, (s.handle h).references = 1
  vnodes : vs.map some = hs.map fun h => (s.handle h).vnode

theorem abandon_eq_foldl_release (hp : Pending s vs hs) : s.abandon vs hs = hs.foldl release s := by
  induction hs generalizing s vs with
  | nil =>
    obtain rfl : vs = [] := by simpa using hp.vnodes
    simp [abandon]
  | cons h hs ih =>
    cases vs with
    | nil => exact absurd hp.vnodes (by simp)
    | cons v vs =>
      have hv := hp.vnodes
      simp only [map_cons, cons.injEq] at hv
      have hrel : s.release h = (s.vfsClose (some v)).kfree h := by
        unfold release
        rw [hp.references h mem_cons_self, if_neg (by omega), ← hv.1]
      have hrest : ((s.vfsClose (some v)).kfree h).abandon vs hs =
          hs.foldl release ((s.vfsClose (some v)).kfree h) :=
        ih ⟨fun k hk => hp.references k (mem_cons_of_mem _ hk), hv.2⟩
      rw [foldl_cons, hrel, ← hrest]
      unfold abandon
      have halloc : (fun k => if k ∈ h :: hs then false else s.allocated k) =
          fun k => if k ∈ hs then false else update s.allocated h false k := by
        funext k
        by_cases hk : k = h <;> simp [hk]
      simp only [vfsClose, kfree, halloc, toList_some, append_assoc, singleton_append]

theorem Tracked.abandon (ht : Tracked s fun k => ptrs k + hs.count k) (hp : Pending s vs hs) :
    Tracked (s.abandon vs hs) ptrs := by
  rw [abandon_eq_foldl_release hp]
  exact ht.foldl_release

theorem Tracked.abandon_bare (ht : Tracked s fun k => ptrs k + hs.count k) (hp : Pending s vs hs) :
    Tracked (Files.abandon { s with opened := s.opened + 1 } (vs ++ [s.opened]) hs) ptrs := by
  have hclosed : Tracked (Files.abandon
      { s with opened := s.opened + 1, closes := s.closes ++ [s.opened] } vs hs) ptrs :=
    ht.openClose.abandon ⟨hp.references, hp.vnodes⟩
  have hsim : Similar
      (Files.abandon { s with opened := s.opened + 1, closes := s.closes ++ [s.opened] } vs hs)
      (Files.abandon { s with opened := s.opened + 1 } (vs ++ [s.opened]) hs) := by
    refine ⟨rfl, rfl, rfl, fun _ => rfl, ?_⟩
    show (s.closes ++ (vs ++ [s.opened])).Perm (s.closes ++ [s.opened] ++ vs)
    rw [append_assoc]
    exact perm_append_comm.append_left _
  exact ⟨hsim.ledger hclosed.toLedger, hclosed.balanced⟩

theorem Pending.openHandle (hp : Pending s vs hs) (hl : Ledger s)
    (hmem : ∀ h ∈ hs, s.allocated h = true) (flags : Int32) :
    Pending (kmalloc { s with opened := s.opened + 1 } ⟨"con:", flags, 0, 1, some s.opened⟩)
      (vs ++ [s.opened]) (hs ++ [s.allocs]) := by
  have hold : ∀ h ∈ hs, (kmalloc { s with opened := s.opened + 1 }
      ⟨"con:", flags, 0, 1, some s.opened⟩).handle h = s.handle h :=
    fun h hh => update_of_ne (Nat.ne_of_lt (hl.lt (hmem h hh))) _ _
  have hnew : (kmalloc { s with opened := s.opened + 1 }
      ⟨"con:", flags, 0, 1, some s.opened⟩).handle s.allocs = ⟨"con:", flags, 0, 1, some s.opened⟩ :=
    update_self _ _ _
  refine ⟨?_, ?_⟩
  · intro h hh
    rcases mem_append.mp hh with hh | hh
    · rw [hold h hh, hp.references h hh]
    · rw [mem_singleton.mp hh, hnew]
  · rw [map_append, map_append, hp.vnodes]
    congr 1
    · exact map_congr_left fun h hh => by rw [hold h hh]
    · simp [hnew]

def kept : Except Errno (List Nat) → List Nat
  | .ok hs => hs
  | .error _ => []

/-- **console を開く部分は、残した handle の分だけ参照を増やす。** -/
theorem openConsoles_tracked (cs : List (Int32 × ConEnv))
    (ht : Tracked s fun k => ptrs k + hs.count k) (hp : Pending s vs hs) :
    SameTables s (openConsoles cs vs hs s).2 ∧
      Tracked (openConsoles cs vs hs s).2
        fun k => ptrs k + (kept (openConsoles cs vs hs s).1).count k := by
  have hfail : ∀ {s' : Files}, Tracked s' ptrs →
      Tracked s' fun k => ptrs k + ([] : List Nat).count k :=
    fun h => ⟨h.toLedger, h.balanced.congr fun k => by simp⟩
  induction cs generalizing s vs hs with
  | nil => exact ⟨SameTables.refl s, ht⟩
  | cons c cs ih =>
    obtain ⟨flags, env⟩ := c
    have hmem : ∀ h ∈ hs, s.allocated h = true := fun h hh =>
      (ht.refs_eq (Nat.add_pos_right _ (count_pos_iff.mpr hh))).1
    have hpend := hp.openHandle ht.toLedger hmem flags
    have hopen : Tracked (kmalloc { s with opened := s.opened + 1 }
        ⟨"con:", flags, 0, 1, some s.opened⟩) fun k => ptrs k + (hs ++ [s.allocs]).count k := by
      refine ht.openHandle rfl rfl fun k => ?_
      rw [count_append, count_singleton, Nat.add_assoc]
      simp only [beq_iff_eq, eq_comm (a := s.allocs)]
    have hfirst := sameTables_openHandle (s := s) ⟨"con:", flags, 0, 1, some s.opened⟩
    simp only [openConsoles]
    split
    · exact ⟨sameTables_abandon (SameTables.refl s) _ _, hfail (ht.abandon hp)⟩
    · split
      · exact ⟨⟨⟨le_rfl, fun _ _ => rfl⟩, rfl, rfl⟩, hfail (ht.abandon_bare hp)⟩
      · split
        · exact ⟨sameTables_abandon hfirst _ _, hfail (hopen.abandon hpend)⟩
        · obtain ⟨hsame, htail⟩ := ih hopen hpend
          exact ⟨hfirst.trans hsame, htail⟩

theorem length_openConsoles (cs : List (Int32 × ConEnv)) (vs hs : List Nat) (s : Files) :
    (kept (openConsoles cs vs hs s).1).length ≤ hs.length + cs.length := by
  induction cs generalizing s vs hs with
  | nil => exact le_rfl
  | cons c cs ih =>
    obtain ⟨flags, env⟩ := c
    simp only [openConsoles]
    split
    · exact Nat.zero_le _
    · split
      · exact Nat.zero_le _
      · split
        · exact Nat.zero_le _
        · refine (ih _ _ _).trans ?_
          simp only [length_append, length_cons, length_nil]
          omega

/-! ## system call ごとの保存 -/

structure Kept (s s' : Files) : Prop extends Advances s s' where
  tracked : Tracked s' s'.pointers

theorem SameTables.kept (h : SameTables s s') (ht : Tracked s' s.pointers) : Kept s s' :=
  ⟨h.toAdvances, ht.toLedger, ht.balanced.congr h.pointers⟩

theorem kept_refl (ht : Tracked s s.pointers) : Kept s s := (SameTables.refl s).kept ht

theorem Tracked.tables (ht : Tracked s ptrs) (live : Finset Nat) (fdTable : Nat → FdTable)
    (hp : ∀ k, ptrs' k = ptrs k) : Tracked { s with live := live, fdTable := fdTable } ptrs' :=
  ⟨⟨ht.fresh, ht.hasVnode, ht.freed, ht.once⟩, ht.balanced.congr hp⟩

theorem setSlot_undo (hi : s.fdTable p i = none) (f : FileHandle) (x : Option Nat) :
    ((((s.kmalloc f).setSlot p i x).kfree s.allocs).setSlot p i none) =
      (s.kmalloc f).kfree s.allocs := by
  have hrow : update (s.fdTable p) i none = s.fdTable p := by
    rw [← hi, update_eq_self]
  simp only [setSlot, kmalloc, kfree, update_self, update_idem, hrow, update_eq_self]

theorem sysOpen_cases (s : Files) (p : Nat) {flag : Int32} {env : OpenEnv}
    (happend : flag = oAppend → ∃ err, env.vfsOpen = .error err) :
    (s.sysOpen p flag env).2 = s ∨
    (∃ f : FileHandle, f.vnode = none ∧ (s.sysOpen p flag env).2 = (s.kmalloc f).kfree s.allocs) ∨
    ∃ (f : FileHandle) (i : Fin openMax), f.vnode = some s.opened ∧ f.references = 1 ∧
      s.fdTable p i = none ∧ (s.sysOpen p flag env).2 =
        (kmalloc { s with opened := s.opened + 1 } f).setSlot p i (some s.allocs) := by
  unfold sysOpen
  split
  · exact .inl rfl
  · exact .inl rfl
  · rename_i dest _
    split
    · exact .inl rfl
    · split
      · exact .inl rfl
      · rename_i index hfind
        have hnone : s.fdTable p index = none := by simpa using find?_some hfind
        split
        · exact .inl rfl
        · refine .inr ?_
          simp only
          have hundo := setSlot_undo hnone ⟨dest, flag, 0, 1, none⟩ (some s.allocs)
          split
          · exact .inl ⟨_, rfl, hundo⟩
          · split
            · exact .inl ⟨_, rfl, hundo⟩
            · rename_i hopen
              -- 残るのは offset を 0 にする枝だけである
              have hflag : flag ≠ oAppend := by
                intro h
                obtain ⟨err, herr⟩ := happend h
                rw [herr] at hopen
                cases hopen
              rw [if_neg hflag]
              refine .inr ⟨⟨dest, flag, 0, 1, some s.opened⟩, index, rfl, rfl, hnone, ?_⟩
              simp only [setSlot, kmalloc, modify, update_self, update_idem]

theorem kept_sysOpen (ht : Tracked s s.pointers) (hp : p ∈ s.live) {flag : Int32} {env : OpenEnv}
    (happend : flag = oAppend → ∃ err, env.vfsOpen = .error err) :
    Kept s (s.sysOpen p flag env).2 := by
  rcases sysOpen_cases s p happend with heq | ⟨f, hf, heq⟩ | ⟨f, i, hf, hr, hi, heq⟩
  · rw [heq]
    exact kept_refl ht
  · rw [heq]
    exact (sameTables_skip f).kept (ht.skip hf)
  · rw [heq]
    have hsame := sameTables_openHandle (s := s) f
    have hcount : ∀ k, (setSlot (kmalloc { s with opened := s.opened + 1 } f) p i
        (some s.allocs)).pointers k = s.pointers k + if k = s.allocs then 1 else 0 := by
      intro k
      have hset := pointers_setSlot (hsame.live.symm ▸ hp) i (some s.allocs) k
      rw [hsame.fdTable, hi, hsame.pointers] at hset
      simpa [eq_comm] using hset
    exact ⟨⟨hsame.allocs_le, hsame.vnode⟩, (ht.openHandle hf hr hcount).tables _ _ fun _ => rfl⟩

theorem kept_sysClose (ht : Tracked s s.pointers) (hp : p ∈ s.live) (fd : Int) :
    Kept s (s.sysClose p fd).2 := by
  unfold sysClose
  split
  · exact kept_refl ht
  · rename_i i _
    split
    · exact kept_refl ht
    · rename_i h hi
      have hsame := sameTables_release s h
      have hcount : ∀ k, s.pointers k =
          ((s.release h).setSlot p i none).pointers k + if k = h then 1 else 0 := by
        intro k
        have hset := pointers_setSlot (hsame.live.symm ▸ hp) i none k
        rw [hsame.fdTable, hi, hsame.pointers] at hset
        simpa [eq_comm] using hset.symm
      exact ⟨⟨hsame.allocs_le, hsame.vnode⟩, (ht.release hcount).tables _ _ fun _ => rfl⟩

theorem fdIndex_injective {a b : Int} (ha : fdIndex a = some i) (hb : fdIndex b = some i) :
    a = b := by
  unfold fdIndex at ha hb
  split at ha <;> split at hb <;> simp_all only [some.injEq, reduceCtorEq]
  have hval := congrArg Fin.val hb
  simp only [← ha] at hval
  omega

theorem fdTable_sysClose {fd : Int} (hi : fdIndex fd = some i) :
    (s.sysClose p fd).2.live = s.live ∧ (s.sysClose p fd).2.fdTable p i = none ∧
      ∀ j, j ≠ i → (s.sysClose p fd).2.fdTable p j = s.fdTable p j := by
  unfold sysClose
  rw [hi]
  simp only
  split
  · rename_i hnone
    exact ⟨rfl, hnone, fun _ _ => rfl⟩
  · rename_i h _
    have hsame := sameTables_release s h
    refine ⟨hsame.live, ?_, ?_⟩
    · simp [setSlot]
    · intro j hj
      simp [setSlot, update_of_ne hj, hsame.fdTable]

theorem kept_dup (ht : Tracked s s.pointers) (hp : p ∈ s.live) {old new : Fin openMax}
    (hne : old ≠ new) (hnew : s.fdTable p new = none) (hold : s.fdTable p old = some h) :
    Kept s ((s.setSlot p new (s.fdTable p old)).incref
      ((s.setSlot p new (s.fdTable p old)).fdTable p old)) := by
  have hslot : (s.setSlot p new (some h)).fdTable p old = some h := by
    simp [setSlot, update_of_ne hne, hold]
  have hcount : ∀ k, (s.setSlot p new (some h)).pointers k =
      s.pointers k + if k = h then 1 else 0 := by
    intro k
    have hset := pointers_setSlot hp new (some h) k
    rw [hnew] at hset
    simpa [eq_comm] using hset
  have hmid : Tracked (s.setSlot p new (some h)) s.pointers := ht.tables _ _ fun _ => rfl
  rw [hold, hslot]
  have hsame := sameTables_incref (s.setSlot p new (some h)) h
  have hkept := hsame.kept (hmid.incref (pointers_pos hp hold) hcount)
  exact ⟨⟨hkept.allocs_le, hkept.vnode⟩, hkept.tracked⟩

theorem kept_sysDup2 (ht : Tracked s s.pointers) (hp : p ∈ s.live) (oldfd newfd : Int) :
    Kept s (s.sysDup2 p oldfd newfd).2 := by
  unfold sysDup2
  split
  · rename_i new old hnew hold
    split
    · exact kept_refl ht
    · rename_i hsome
      obtain ⟨h, hslot⟩ : ∃ h, s.fdTable p old = some h := by
        cases hc : s.fdTable p old with
        | none => simp [hc] at hsome
        | some h => exact ⟨h, rfl⟩
      split
      · rename_i hfd
        have hne : old ≠ new := by
          rintro rfl
          exact hfd (fdIndex_injective hold hnew)
        simp only
        split
        · obtain ⟨hlive, hempty, hother⟩ := fdTable_sysClose (s := s) (p := p) hnew
          have hclose := kept_sysClose ht hp newfd
          have hdup := kept_dup hclose.tracked (hlive.symm ▸ hp) hne hempty
            ((hother old hne).trans hslot)
          exact ⟨⟨hclose.allocs_le.trans hdup.allocs_le, fun k hk =>
            (hdup.vnode k (Nat.lt_of_lt_of_le hk hclose.allocs_le)).trans (hclose.vnode k hk)⟩,
            hdup.tracked⟩
        · rename_i hnone
          exact kept_dup ht hp hne (by simpa using hnone) hslot
      · exact kept_refl ht
  · exact kept_refl ht

/-! ## fork と exit の保存 -/

theorem kept_spawn {c : Nat} (hc : c ∉ s.live) (hsame : SameTables s s') {t : FdTable}
    (ht : Tracked s' fun k => s.pointers k + (slotList t).count k) :
    Kept s { s' with fdTable := update s'.fdTable c t, live := insert c s'.live } := by
  refine ⟨⟨hsame.allocs_le, hsame.vnode⟩, ht.tables _ _ fun k => ?_⟩
  rw [pointers_insert (by rwa [hsame.live]), hsame.pointers]

theorem kept_threadFork {parent child : Nat} (ht : Tracked s s.pointers)
    (hparent : parent = 0 ∨ parent ∈ s.live) (hchild : child ∉ s.live) (env : ForkEnv) :
    Kept s (s.threadFork parent child env).2 := by
  unfold threadFork
  split
  · exact kept_refl ht
  · split
    · rename_i hpid
      have hlive := hparent.resolve_left hpid
      split
      · exact kept_refl ht
      · -- 親の表の空でない slot ごとに参照を増やす
        simp only
        rw [foldl_slotList (s.fdTable parent) incref (fun _ => rfl)]
        refine kept_spawn hchild (sameTables_foldl sameTables_incref _ s) ?_
        refine ht.foldl_incref fun h hh => ?_
        obtain ⟨i, hi⟩ := mem_slotList.mp hh
        exact pointers_pos hlive hi
    · -- kernel からの fork では、表も console の handle も新しい
      have hpend : Pending s [] [] := ⟨by simp, rfl⟩
      obtain ⟨hsame, hopen⟩ := openConsoles_tracked
        [(oRdonly, env.stdin), (oWronly, env.stdout), (oWronly, env.stderr)]
        (⟨ht.toLedger, ht.balanced.congr fun k => by simp⟩ :
          Tracked s fun k => s.pointers k + ([] : List Nat).count k) hpend
      have hlen := length_openConsoles
        [(oRdonly, env.stdin), (oWronly, env.stdout), (oWronly, env.stderr)] [] [] s
      unfold initFiletable
      split
      · rename_i err s₁ heq
        split at heq
        · rename_i hcon
          rw [hcon] at hopen hsame
          cases heq
          exact hsame.kept ⟨hopen.toLedger, hopen.balanced.congr fun k => by simp [kept]⟩
        · cases heq
      · rename_i t s₁ heq
        split at heq
        · cases heq
        · rename_i hs s₂ hcon
          rw [hcon] at hopen hsame hlen
          cases heq
          refine kept_spawn hchild hsame ?_
          rw [slotList_getElem? hs (hlen.trans (by simp [openMax]))]
          exact hopen

theorem kept_threadExit (ht : Tracked s s.pointers) (hp : p ∈ s.live) :
    Kept s (s.threadExit p) := by
  have hsame := sameTables_foldl sameTables_release (slotList (s.fdTable p)) s
  have hrel : Tracked ((slotList (s.fdTable p)).foldl release s)
      (pointers { s with live := s.live.erase p }) :=
    Tracked.foldl_release ⟨ht.toLedger, ht.balanced.congr fun k => (pointers_erase hp k).symm⟩
  unfold threadExit
  simp only
  rw [foldl_slotList (s.fdTable p) decref (fun _ => rfl)]
  refine ⟨⟨hsame.allocs_le, hsame.vnode⟩, hrel.tables _ _ fun k => ?_⟩
  show ∑ q ∈ _, slotCount _ k = ∑ q ∈ _, slotCount _ k
  rw [show (((slotList (s.fdTable p)).foldl (fun s h => s.decref (some h)) s).live) = s.live from
    hsame.live, show (((slotList (s.fdTable p)).foldl (fun s h => s.decref (some h)) s).fdTable) =
    s.fdTable from hsame.fdTable]

/-- **一つの step は帳簿を保つ。** -/
theorem kept_step (ht : Tracked s s.pointers) {op : Op} (hstep : s.step op = some s') : Kept s s' := by
  cases op with
  | «open» p flag vfs env =>
    simp only [step, ite_none_right_eq_some, some.injEq] at hstep
    obtain ⟨hp, rfl⟩ := hstep
    exact kept_sysOpen ht hp fun h => h ▸ vfsOpen_append vfs
  | close p fd =>
    simp only [step, ite_none_right_eq_some, some.injEq] at hstep
    obtain ⟨hp, rfl⟩ := hstep
    exact kept_sysClose ht hp fd
  | dup2 p oldfd newfd =>
    simp only [step, ite_none_right_eq_some, some.injEq] at hstep
    obtain ⟨hp, rfl⟩ := hstep
    exact kept_sysDup2 ht hp oldfd newfd
  | fork parent child env =>
    simp only [step, ite_none_right_eq_some, some.injEq] at hstep
    obtain ⟨⟨hparent, hchild⟩, rfl⟩ := hstep
    exact kept_threadFork ht hparent hchild env
  | exit p =>
    simp only [step, ite_none_right_eq_some, some.injEq] at hstep
    obtain ⟨hp, rfl⟩ := hstep
    exact kept_threadExit ht hp

/-! ## step の列 -/

def FilesStep (s : Files) (op : Op) (s' : Files) : Prop := s.step op = some s'

theorem tracked_boot : Tracked boot boot.pointers where
  fresh _ _ := rfl
  hasVnode _ h := nomatch h
  freed _ h := nomatch h
  once _ := rfl
  balanced _ := rfl

/-- `references` は指す slot の数に等しく、指される handle は返されておらず、vnode は指されている間だけ開いている。 -/
structure Exact (s : Files) : Prop where
  references : ∀ h, s.allocated h = true → (s.handle h).references = s.pointers h
  allocated : ∀ p ∈ s.live, ∀ i h, s.fdTable p i = some h → s.allocated h = true
  hasVnode : ∀ h, 0 < s.pointers h → ∃ v, (s.handle h).vnode = some v
  closes : ∀ h < s.allocs, ∀ v, (s.handle h).vnode = some v →
    s.closes.count v = if 0 < s.pointers h then 0 else 1

/-- 最後の slot を消した step が、handle の vnode を閉じる。 -/
def ClosesLast (s s' : Files) : Prop :=
  ∀ h, 0 < s.pointers h → s'.pointers h = 0 →
    ∃ v, (s.handle h).vnode = some v ∧ s.closes.count v = 0 ∧ s'.closes.count v = 1

theorem Tracked.exact (ht : Tracked s s.pointers) : Exact s where
  references h ha := (ht.balanced.eq_of_some (refs_eq_some.mpr ⟨ha, rfl⟩)).1
  allocated p hp i h hi := (ht.refs_eq (pointers_pos hp hi)).1
  hasVnode h hpos := ht.hasVnode h (ht.refs_eq hpos).1
  closes h hh v hv := by
    have honce := ht.once v
    by_cases hpos : 0 < s.pointers h
    · have hheld := ht.holders_pos (ht.refs_eq hpos).1 hv
      rw [if_pos hpos]
      split at honce <;> omega
    · have hnone := ht.balanced.eq_none_iff.mpr (Nat.eq_zero_of_not_pos hpos)
      have hclosed := count_pos_iff.mpr (ht.freed h hh (refs_eq_none.mp hnone) v hv)
      rw [if_neg hpos]
      split at honce <;> omega

theorem Kept.closesLast (ht : Tracked s s.pointers) (hk : Kept s s') : ClosesLast s s' := by
  intro h hpos hzero
  obtain ⟨v, hv⟩ := ht.exact.hasVnode h hpos
  have hlt := ht.lt (ht.refs_eq hpos).1
  refine ⟨v, hv, ?_, ?_⟩
  · rw [ht.exact.closes h hlt v hv, if_pos hpos]
  · rw [hk.tracked.exact.closes h (Nat.lt_of_lt_of_le hlt hk.allocs_le) v ((hk.vnode h hlt).trans hv),
      if_neg (by omega)]

/-! ## 起動からの列 -/

/--
**起動からのどの列でも、`references` は指している slot の数に等しく、vnode は最後の slot が
消える step で一度だけ閉じられる。**
-/
theorem files_exact {tr : List (Transition Files Op)} {u : Files} (hrun : Run FilesStep boot tr u) :
    ∀ x ∈ tr, Exact x.post ∧ ClosesLast x.pre x.post := by
  have hinv := (hrun.invariant' (I := fun s => Tracked s s.pointers)
    (fun hp hstep => (kept_step hp hstep).tracked) tracked_boot).2
  intro x hx
  obtain ⟨hpre, hpost⟩ := hinv x hx
  exact ⟨hpost.exact, (kept_step hpre (hrun.step_of_mem x hx)).closesLast hpre⟩

/-- console を開けて、fork も成功する環境。 -/
def conOk : ConEnv := ⟨⟨.ok (), .ok (.dev (.ok ())), .ok (.dev (.ok ())), .ok ()⟩, true, true⟩

def forkOk : ForkEnv := ⟨.ok (), .ok (), conOk, conOk, conOk⟩

/-- stdout を 5 に写して両方を閉じると、stdout の vnode は二回目の `close` で閉じられる。 -/
theorem files_exact_dup_close :
    ∃ u tr, Run FilesStep boot tr u ∧
      tr.map (fun x => x.label) = [.fork 0 1 forkOk, .dup2 1 1 5, .close 1 1, .close 1 5] ∧
      tr.map (fun x => x.post.closes) = [[], [], [], [1]] ∧
      ∀ x ∈ tr, Exact x.post ∧ ClosesLast x.pre x.post := by
  have h₁ : FilesStep boot (.fork 0 1 forkOk) (boot.threadFork 0 1 forkOk).2 := by
    unfold FilesStep step
    exact if_pos ⟨.inl rfl, by decide⟩
  generalize hs₁ : (boot.threadFork 0 1 forkOk).2 = s₁ at h₁
  have h₂ : FilesStep s₁ (.dup2 1 1 5) (s₁.sysDup2 1 1 5).2 := by
    unfold FilesStep step
    exact if_pos (by subst hs₁; decide)
  generalize hs₂ : (s₁.sysDup2 1 1 5).2 = s₂ at h₂
  have h₃ : FilesStep s₂ (.close 1 1) (s₂.sysClose 1 1).2 := by
    unfold FilesStep step
    exact if_pos (by subst hs₂ hs₁; decide)
  generalize hs₃ : (s₂.sysClose 1 1).2 = s₃ at h₃
  have h₄ : FilesStep s₃ (.close 1 5) (s₃.sysClose 1 5).2 := by
    unfold FilesStep step
    exact if_pos (by subst hs₃ hs₂ hs₁; decide)
  have hrun : Run FilesStep boot _ _ := .cons h₁ (.cons h₂ (.cons h₃ (.cons h₄ (.nil _))))
  refine ⟨_, _, hrun, rfl, ?_, files_exact hrun⟩
  subst hs₃ hs₂ hs₁
  decide

end Files

end Os161

