import Xv6.Ext2.Alloc
import Xv6.Ext2.Groups

/-!
# Free counts and bitmaps

The descriptor and bitmap blocks of the groups are at distinct places, so a store into one of them
changes the view of one group in one component. An operation that returns pairs every change of a
bitmap with the same change of the counter.
-/

namespace Xv6

open Lib Function

/-- The block that holds a group's descriptor. -/
def Ext2Super.descOf (S : Ext2Super) (group : ℕ) : ℕ := S.descBlock (S.table.index group)

namespace Ext2Disk

variable (S : Ext2Super)

/-- The blocks that carry the accounts of the groups. -/
inductive Meta
  | desc (group : ℕ)
  | blockBitmap (group : ℕ)
  | inodeBitmap (group : ℕ)

/-- The group a metadata block belongs to. -/
def Meta.group : Meta → ℕ
  | .desc g | .blockBitmap g | .inodeBitmap g => g

/-- A field of a group's descriptor. -/
def field (s : Ext2Disk) (group off width : ℕ) : ℕ := s.descField (S.descOf group)
    (S.table.offset group) off width

/-- Where a metadata block is. -/
def addr (s : Ext2Disk) : Meta → ℕ
  | .desc g => S.descOf g
  | .blockBitmap g => s.field S g 0 4
  | .inodeBitmap g => s.field S g 4 4

/-- The accounts of one group: its two bitmaps and its two counters. -/
@[ext] structure GroupView where
  blockBits : ℕ → Bool
  inodeBits : ℕ → Bool
  freeBlocks : ℕ
  freeInodes : ℕ

/-- The accounts of a group on the device. -/
def view (s : Ext2Disk) (group : ℕ) : GroupView where
  blockBits := bitAt (s.blocks (s.addr S (.blockBitmap group)))
  inodeBits := bitAt (s.blocks (s.addr S (.inodeBitmap group)))
  freeBlocks := s.field S group 12 2
  freeInodes := s.field S group 14 2

/-- The counters of a group are the numbers of clear bits of its bitmaps. -/
def GroupView.Balanced (v : GroupView) : Prop :=
  v.freeBlocks = clearBits v.blockBits S.geom.blocksPerGroup ∧
    v.freeInodes = clearBits v.inodeBits S.geom.inodesPerGroup

/-- Groups fit their bitmaps (tested at mount); two metadata blocks are at one place only when they
are the same block, and the inode tables are elsewhere. -/
structure Layout (s : Ext2Disk) : Prop where
  blocks_fit : S.geom.blocksPerGroup ≤ 8 * bsize
  inodes_fit : S.geom.inodesPerGroup ≤ 8 * bsize
  inodes_pos : 0 < S.geom.inodesPerGroup
  blockBitmap_desc : ∀ g h, g < S.geom.groupsCount → h < S.geom.groupsCount →
    s.addr S (.blockBitmap g) ≠ s.addr S (.desc h)
  inodeBitmap_desc : ∀ g h, g < S.geom.groupsCount → h < S.geom.groupsCount →
    s.addr S (.inodeBitmap g) ≠ s.addr S (.desc h)
  blockBitmap_inodeBitmap : ∀ g h, g < S.geom.groupsCount → h < S.geom.groupsCount →
    s.addr S (.blockBitmap g) ≠ s.addr S (.inodeBitmap h)
  blockBitmap_inj : ∀ g h, g < S.geom.groupsCount → h < S.geom.groupsCount →
    s.addr S (.blockBitmap g) = s.addr S (.blockBitmap h) → g = h
  inodeBitmap_inj : ∀ g h, g < S.geom.groupsCount → h < S.geom.groupsCount →
    s.addr S (.inodeBitmap g) = s.addr S (.inodeBitmap h) → g = h
  desc_inj : ∀ g h, g < S.geom.groupsCount → h < S.geom.groupsCount →
    S.descOf g = S.descOf h → S.table.index g = S.table.index h
  table : ∀ g j, g < S.geom.groupsCount → j < S.geom.inodesPerGroup → ∀ m :
    Meta, m.group < S.geom.groupsCount →
    s.field S g 8 4 + j * S.inodeSize / bsize ≠ s.addr S m

/-- What holds before and after every operation. -/
structure Accounted (s : Ext2Disk) : Prop where
  layout : s.Layout S
  balanced : ∀ g, g < S.geom.groupsCount → (s.view S g).Balanced S

variable {S} {s t u : Ext2Disk} {g h : ℕ}

variable {ino n bitmap bit count w block off : ℕ} {read mode : Option ℕ} {bits : ℕ → Bool} {data : Block}

/-! ## Stores -/

/-- The view of the groups, `g` aside, is unchanged, the metadata blocks are where they were, and
the view of `g` is `v`. -/
structure Changes (S : Ext2Super) (s t : Ext2Disk) (g : ℕ) (v : GroupView) : Prop where
  fields : ∀ h off w, h < S.geom.groupsCount → off + w ≤ 12 → t.field S h off w = s.field S h off w
  view_self : t.view S g = v
  view_ne : ∀ h, h < S.geom.groupsCount → h ≠ g → t.view S h = s.view S h

theorem addr_congr (hfields : ∀ h off w, h < S.geom.groupsCount → off + w ≤ 12 →
    t.field S h off w = s.field S h off w)
    (m : Meta) (hm : m.group < S.geom.groupsCount) : t.addr S m = s.addr S m := by
  cases m with
  | desc g => rfl
  | blockBitmap g => exact hfields g 0 4 hm (by omega)
  | inodeBitmap g => exact hfields g 4 4 hm (by omega)

/-- The layout depends on where the metadata blocks are. -/
theorem Layout.congr (h : s.Layout S)
    (hfields : ∀ h off w, h < S.geom.groupsCount → off + w ≤ 12 → t.field S h off w = s.field S h off w) :
    t.Layout S where
  blocks_fit := h.blocks_fit
  inodes_fit := h.inodes_fit
  inodes_pos := h.inodes_pos
  blockBitmap_desc := by
    intro a b ha hb
    rw [addr_congr hfields (.blockBitmap a) ha]
    exact h.blockBitmap_desc a b ha hb
  inodeBitmap_desc := by
    intro a b ha hb
    rw [addr_congr hfields (.inodeBitmap a) ha]
    exact h.inodeBitmap_desc a b ha hb
  blockBitmap_inodeBitmap := by
    intro a b ha hb
    rw [addr_congr hfields (.blockBitmap a) ha, addr_congr hfields (.inodeBitmap b) hb]
    exact h.blockBitmap_inodeBitmap a b ha hb
  blockBitmap_inj := by
    intro a b ha hb
    rw [addr_congr hfields (.blockBitmap a) ha, addr_congr hfields (.blockBitmap b) hb]
    exact h.blockBitmap_inj a b ha hb
  inodeBitmap_inj := by
    intro a b ha hb
    rw [addr_congr hfields (.inodeBitmap a) ha, addr_congr hfields (.inodeBitmap b) hb]
    exact h.inodeBitmap_inj a b ha hb
  desc_inj := h.desc_inj
  table := by
    intro a j ha hj m hm
    rw [addr_congr hfields m hm, hfields a 8 4 ha (by omega)]
    exact h.table a j ha hj m hm

theorem Changes.accounted {v : GroupView} (hc : Changes S s t g v) (h : s.Accounted S) (hv : v.Balanced S) :
    t.Accounted S where
  layout := h.layout.congr hc.fields
  balanced := by
    intro a ha
    obtain rfl | hne := eq_or_ne a g
    · rwa [hc.view_self]
    · rw [hc.view_ne a ha hne]
      exact h.balanced a ha

theorem Changes.trans {v w : GroupView} (hst : Changes S s t g v) (htu : Changes S t u g w) :
    Changes S s u g w where
  fields := fun a off w ha hw => (htu.fields a off w ha hw).trans (hst.fields a off w ha hw)
  view_self := htu.view_self
  view_ne := fun a ha hne => (htu.view_ne a ha hne).trans (hst.view_ne a ha hne)

/-- A change of nothing that is part of the accounts. -/
theorem Changes.keep {v : GroupView} (hst : Changes S s t g v) (htu : Changes S t u g (t.view S g)) :
    Changes S s u g v := by
  rw [hst.view_self] at htu
  exact hst.trans htu

/-- Locks and pointers are not part of the accounts. -/
theorem Changes.of_blocks (hblocks : t.blocks = s.blocks) : Changes S s t g (s.view S g) := by
  have hfield : ∀ h off w, t.field S h off w = s.field S h off w := by
    intro h off w
    simp only [field, descField, hblocks]
  have hview : ∀ h, t.view S h = s.view S h := by
    intro h
    simp only [view, addr, hfield, hblocks]
  exact ⟨fun h off w _ _ => hfield h off w, hview g, fun h _ _ => hview h⟩

/-- A store into a block that is no descriptor block leaves the descriptors alone. -/
theorem field_setBlock_ne {b : ℕ} (hb : b ≠ S.descOf h) :
    (s.setBlock b data).field S h off w = s.field S h off w := by
  simp only [field, descField, setBlock, update_of_ne hb.symm]

/-- A store into a block that is no descriptor block and no bitmap of another group. -/
theorem changes_setBlock {b : ℕ} (hg : g < S.geom.groupsCount)
    (hdesc : ∀ h, h < S.geom.groupsCount → b ≠ S.descOf h)
    (hother : ∀ h, h < S.geom.groupsCount → h ≠ g → b ≠ s.addr S (.blockBitmap h) ∧
    b ≠ s.addr S (.inodeBitmap h))
    (data : Block) : Changes S s (s.setBlock b data) g
      { s.view S g with
        blockBits := bitAt (update s.blocks b data (s.addr S (.blockBitmap g)))
        inodeBits := bitAt (update s.blocks b data (s.addr S (.inodeBitmap g))) } := by
  have hfield : ∀ h off w, h < S.geom.groupsCount → (s.setBlock b data).field S h off w = s.field S h off w :=
    fun h off w hh => field_setBlock_ne (hdesc h hh)
  refine ⟨fun h off w hh _ => hfield h off w hh, ?_, fun h hh hne => ?_⟩
  · simp only [view, addr, hfield g _ _ hg]
    rfl
  · obtain ⟨hb, hi⟩ := hother h hh hne
    simp only [view, addr, hfield h _ _ hh]
    simp only [addr] at hb hi
    simp only [setBlock, update_of_ne hb.symm, update_of_ne hi.symm]

/-- A store into a group's block bitmap. -/
theorem Layout.setBlock_blockBitmap (hl : s.Layout S) (hg : g < S.geom.groupsCount) (data : Block) :
    Changes S s (s.setBlock (s.addr S
      (.blockBitmap g)) data) g { s.view S g with blockBits := bitAt data } := by
  have hc := changes_setBlock hg (fun h hh => hl.blockBitmap_desc g h hg hh)
    (fun h hh hne => ⟨fun heq => hne (hl.blockBitmap_inj h g hh hg heq.symm),
      hl.blockBitmap_inodeBitmap g h hg hh⟩) data
  rwa [update_self, update_of_ne (hl.blockBitmap_inodeBitmap g g hg hg).symm] at hc

/-- A store into a group's inode bitmap. -/
theorem Layout.setBlock_inodeBitmap (hl : s.Layout S) (hg : g < S.geom.groupsCount) (data : Block) :
    Changes S s (s.setBlock (s.addr S
      (.inodeBitmap g)) data) g { s.view S g with inodeBits := bitAt data } := by
  have hc := changes_setBlock hg (fun h hh => hl.inodeBitmap_desc g h hg hh)
    (fun h hh hne => ⟨(hl.blockBitmap_inodeBitmap h g hh hg).symm,
      fun heq => hne (hl.inodeBitmap_inj h g hh hg heq.symm)⟩)
    data
  rwa [update_self, update_of_ne (hl.blockBitmap_inodeBitmap g g hg hg)] at hc

/-- Where the inode table of a group keeps an inode. -/
def inodeBlock (S : Ext2Super) (s : Ext2Disk) (group j : ℕ) : ℕ :=
  s.field S group 8 4 + j * S.inodeSize / bsize

/-- A store into an inode table. -/
theorem Layout.setBlock_inodeBlock {j : ℕ} (hl : s.Layout S) (hg : g < S.geom.groupsCount)
    (hh : h < S.geom.groupsCount)
    (hj : j < S.geom.inodesPerGroup) (data : Block) :
    Changes S s (s.setBlock (s.inodeBlock S h j) data) g (s.view S g) := by
  have hne : ∀ m : Meta, m.group < S.geom.groupsCount → s.inodeBlock S h j ≠ s.addr S m := hl.table h j hh hj
  have hc := changes_setBlock hg (fun a ha => hne (.desc a) ha)
    (fun a ha _ => ⟨hne (.blockBitmap a) ha, hne (.inodeBitmap a) ha⟩) data
  rwa [update_of_ne (hne (.blockBitmap g) hg).symm, update_of_ne (hne (.inodeBitmap g) hg).symm] at hc

/-- A group is determined by its descriptor block and its place there. -/
theorem group_eq {T : DescTable} (hindex : T.index g = T.index h)
    (hoffset : T.offset g = T.offset h) : g = h := by
  unfold DescTable.index at hindex
  unfold DescTable.offset at hoffset
  rw [Nat.and_two_pow_sub_one_eq_mod, Nat.and_two_pow_sub_one_eq_mod] at hoffset
  rw [Nat.shiftRight_eq_div_pow, Nat.shiftRight_eq_div_pow] at hindex
  rw [← Nat.div_add_mod g (2 ^ T.descBits), ← Nat.div_add_mod h (2 ^ T.descBits), hindex, hoffset]

theorem field_setDescField_self {v : ℕ} :
    (s.setDescField (S.descOf g) (S.table.offset g) off w v).field S g off w = v % 256 ^ w := by
  simp only [field, descField, setDescField, setBlock, update_self, getLe_putLe_self]

section

variable (hl : s.Layout S) (hg : g < S.geom.groupsCount)

include hl hg

/-- A store into a counter of a descriptor leaves every other field of every group alone. -/
theorem Layout.field_setDescField (hh : h < S.geom.groupsCount)
    {off' w' v : ℕ} (hw : off + w ≤ 32) (hw' : off' + w' ≤ 32)
    (hdisj : h = g → off' + w' ≤ off ∨ off + w ≤ off') :
    (s.setDescField (S.descOf g) (S.table.offset g) off w v).field S h off' w' = s.field S h off' w' := by
  simp only [field, descField, setDescField, setBlock]
  by_cases hdesc : S.descOf h = S.descOf g
  · rw [hdesc, update_self]
    apply getLe_putLe_of_disjoint
    obtain rfl | hne := eq_or_ne h g
    · omega
    · have hoff : S.table.offset h ≠ S.table.offset g := fun heq =>
        hne (group_eq (hl.desc_inj h g hh hg hdesc) heq)
      omega
  · rw [update_of_ne hdesc]

/-- A store into a counter of a descriptor, at offset 12 or behind. -/
theorem Layout.setDescField (off w v : ℕ) (hoff : 12 ≤ off)
    (hw : off + w ≤ 32) : Changes S s (s.setDescField (S.descOf g) (S.table.offset g) off w v) g
      { s.view S g with
        freeBlocks := (s.setDescField (S.descOf g) (S.table.offset g) off w v).field S g 12 2
        freeInodes := (s.setDescField (S.descOf g) (S.table.offset g) off w v).field S g 14 2 } := by
  have hfields : ∀ h off' w', h < S.geom.groupsCount → off' + w' ≤ 12 →
      (s.setDescField (S.descOf g) (S.table.offset g) off w v).field S h off' w' = s.field S h off' w' :=
    fun h off' w' hh hw' => hl.field_setDescField hg hh hw (by omega) fun _ => by omega
  have hbits : ∀ h m, h < S.geom.groupsCount → m = Meta.blockBitmap h ∨ m = .inodeBitmap h →
      (s.setDescField (S.descOf g) (S.table.offset g) off w v).blocks
        ((s.setDescField (S.descOf g) (S.table.offset g) off w v).addr S m) = s.blocks (s.addr S m) := by
    rintro h m hh (rfl | rfl)
    · rw [addr_congr hfields (.blockBitmap h) hh]
      exact update_of_ne (hl.blockBitmap_desc h g hh hg) ..
    · rw [addr_congr hfields (.inodeBitmap h) hh]
      exact update_of_ne (hl.inodeBitmap_desc h g hh hg) ..
  refine ⟨hfields, ?_, fun h hh hne => ?_⟩
  · simp only [view, hbits g _ hg (.inl rfl), hbits g _ hg (.inr rfl)]
  · simp only [view, hbits h _ hh (.inl rfl), hbits h _ hh (.inr rfl)]
    rw [hl.field_setDescField hg hh hw (by omega) fun heq => absurd heq hne,
      hl.field_setDescField hg hh hw (by omega) fun heq => absurd heq hne]

/-- The free-inode counter of a group takes the value stored into it. -/
theorem Layout.setFreeInodes {v : ℕ} (hv : w % 2 ^ 16 = v) :
    Changes S s (s.setDescField (S.descOf g)
      (S.table.offset g) 14 2 w) g { s.view S g with freeInodes := v } := by
  have hc := hl.setDescField hg 14 2 w (by omega) (by omega)
  rwa [field_setDescField_self, hl.field_setDescField hg hg (by omega) (by omega) fun _ => by omega,
    show w % 256 ^ 2 = v from hv] at hc

/-- The directory counter is not part of the accounts. -/
theorem Layout.setUsedDirs :
    Changes S s (s.setDescField (S.descOf g) (S.table.offset g) 16 2 w) g (s.view S g) := by
  have hc := hl.setDescField hg 16 2 w (by omega) (by omega)
  rwa [hl.field_setDescField hg hg (by omega) (by omega) fun _ => by omega,
    hl.field_setDescField hg hg (by omega) (by omega) fun _ => by omega] at hc

end

/-! ## Locks and pointers -/

/-- The entry of `s_group_desc` is null or its buffer holds the descriptor block. -/
def Fresh (S : Ext2Super) (s : Ext2Disk) (n : ℕ) : Prop :=
  s.groupDesc n = none ∨ s.groupDesc n = some (S.descBlock n)

/-- No block changed, and an entry of `s_group_desc` that was fresh still is. -/
structure Steady (S : Ext2Super) (s t : Ext2Disk) : Prop where
  blocks : t.blocks = s.blocks
  fresh : ∀ n, s.Fresh S n → t.Fresh S n

theorem Steady.trans (hst : Steady S s t) (htu : Steady S t u) : Steady S s u where
  blocks := htu.blocks.trans hst.blocks
  fresh := fun n hn => htu.fresh n (hst.fresh n hn)

theorem Steady.field (hst : Steady S s t) (h off w : ℕ) : t.field S h off w = s.field S h off w := by
  simp only [Ext2Disk.field, descField, hst.blocks]

theorem Accounted.of_blocks (h : s.Accounted S) (hblocks : t.blocks = s.blocks) : t.Accounted S := by
  have hc : ∀ g, Changes S s t g (s.view S g) := fun g => Changes.of_blocks hblocks
  exact ⟨h.layout.congr (hc 0).fields, fun g hg => (hc g).view_self ▸ h.balanced g hg⟩

variable {b : ℕ}

/-- A block was read, and its buffer is locked. -/
structure Reads (S : Ext2Super) (s t : Ext2Disk) (b : ℕ) : Prop extends Steady S s t where
  unlocked : s.locked b = false
  locked : t.locked = update s.locked b true

/-- A buffer that was locked is not the one that is read. -/
theorem ne_of_locked {c : ℕ} (hc : s.locked c = true) (hb : s.locked b = false) : c ≠ b := by
  rintro rfl
  rw [hc] at hb
  cases hb

theorem bread_ok (h : bread b s = .ok () t) : Reads S s t b := by
  simp only [bread, exec_bind, exec_get] at h
  split at h
  · cases h
  · next hb =>
    cases h
    exact ⟨⟨rfl, fun n hn => hn⟩, by simpa using hb, rfl⟩

theorem brelse_eq (h : brelse b s = .ok () t) : t = { s with locked := update s.locked b false } := by
  simp only [brelse, exec_bind, exec_get] at h
  split at h
  · cases h
    rfl
  · cases h

theorem brelse_ok (h : brelse b s = .ok () t) : Steady S s t := by
  rw [brelse_eq h]
  exact ⟨rfl, fun n hn => hn⟩

theorem brelseRead_ok (h : brelseRead read s = .ok () t) : Steady S s t := by
  cases read with
  | none =>
    cases h
    exact ⟨rfl, fun n hn => hn⟩
  | some b => exact brelse_ok h

theorem brelsePointer_ok (h : brelsePointer read s = .ok () t) : Steady S s t := by
  cases read with
  | none => cases h
  | some b => exact brelse_ok h

/-- A descriptor block that is read is the group's, and the pointer to it is fresh. -/
theorem loadGroupDesc_ok (h : loadGroupDesc S g s = .ok b t) :
    g < S.geom.groupsCount ∧ b = S.descOf g ∧ Reads S s t b ∧ t.Fresh S (S.table.index g) := by
  unfold loadGroupDesc at h
  split at h
  · cases h
  · obtain ⟨_, u, hread, h⟩ := bind_eq_ok.mp h
    cases h
    have hreads : Reads S s u _ := bread_ok hread
    refine ⟨by omega, rfl, ⟨⟨hreads.blocks, fun n hn => ?_⟩, hreads.unlocked, hreads.locked⟩,
      Or.inr (by simp)⟩
    obtain rfl | hne := eq_or_ne n (S.table.index g)
    · exact Or.inr (by simp)
    · simpa [Fresh, hne] using hreads.fresh n hn

/-- Behind a fresh pointer is the group's own bitmap. -/
theorem readBitmap_ok {m : ℕ} (h : readBitmap S off g s = .ok m t) :
    g < S.geom.groupsCount ∧ Reads S s t m ∧ (s.Fresh S (S.table.index g) → m = s.field S g off 4) := by
  obtain ⟨b, u, hpeek, h⟩ := bind_eq_ok.mp h
  simp only [peekGroupDesc, exec_bind, exec_get] at hpeek
  split at hpeek
  · cases hpeek
  · cases hptr : s.groupDesc (S.table.index g) with
    | none =>
      simp only [hptr] at hpeek
      cases hpeek
    | some c =>
      simp only [hptr] at hpeek
      cases hpeek
      simp only [exec_bind] at h
      obtain ⟨_, v, hread, h⟩ := bind_eq_ok.mp h
      cases h
      refine ⟨by omega, bread_ok hread, fun hfresh => ?_⟩
      have hb : b = S.descBlock (S.table.index g) := by
        rcases hfresh with hnone | hsome
        · rw [hnone] at hptr
          cases hptr
        · exact Option.some.inj (hptr.symm.trans hsome)
      rw [hb]
      rfl

/-! ## Operations on blocks -/

/-- What an operation on blocks leaves alone: the descriptors, the counters of free blocks aside,
and the blocks that are neither descriptor blocks nor block bitmaps. -/
structure Apart (S : Ext2Super) (s t : Ext2Disk) : Prop where
  fresh : ∀ n, s.Fresh S n → t.Fresh S n
  fields : ∀ h off w, h < S.geom.groupsCount → off + w ≤ 12 ∨ 14 ≤ off → off + w ≤ 32 →
    t.field S h off w = s.field S h off w
  blocks : ∀ c, (∀ h, h < S.geom.groupsCount → c ≠ S.descOf h ∧ c ≠ s.addr S (.blockBitmap h)) →
    t.blocks c = s.blocks c

/-- An operation on blocks that pairs the change of a bitmap with the change of the counter. -/
structure Booked (S : Ext2Super) (s t : Ext2Disk) : Prop extends Apart S s t where
  accounted : t.Accounted S

theorem Apart.trans (hst : Apart S s t) (htu : Apart S t u) : Apart S s u where
  fresh := fun n hn => htu.fresh n (hst.fresh n hn)
  fields := fun h off w hh ho hw => (htu.fields h off w hh ho hw).trans (hst.fields h off w hh ho hw)
  blocks := by
    intro c hc
    rw [htu.blocks c, hst.blocks c hc]
    intro h hh
    rw [addr, hst.fields h 0 4 hh (by omega) (by omega)]
    exact hc h hh

theorem Booked.trans (hst : Booked S s t) (htu : Booked S t u) : Booked S s u :=
  ⟨hst.toApart.trans htu.toApart, htu.accounted⟩

theorem Steady.apart (hst : Steady S s t) : Apart S s t :=
  ⟨hst.fresh, fun h off w _ _ _ => hst.field h off w, fun c _ => by rw [hst.blocks]⟩

theorem Steady.booked (hst : Steady S s t) (hA : s.Accounted S) : Booked S s t :=
  ⟨hst.apart, hA.of_blocks hst.blocks⟩

theorem Layout.apart_setBlock (hl : s.Layout S) (hg : g < S.geom.groupsCount) :
    Apart S s (s.setBlock (s.addr S (.blockBitmap g)) data) :=
  ⟨fun _ hn => hn, fun h _ _ hh _ _ => field_setBlock_ne (hl.blockBitmap_desc g h hg hh),
    fun _ hc => update_of_ne (hc g hg).2 ..⟩

theorem groupAdjustBlocks_ok {count : ℤ} (h : groupAdjustBlocks b n count s = .ok () t) :
    count = 0 ∧ t = s ∨ count ≠ 0 ∧
      t = s.setDescField b n 12 2 (((s.descField b n 12 2 : ℤ) + count) % 2 ^ 32).toNat := by
  unfold groupAdjustBlocks at h
  split at h
  · next hzero =>
    cases h
    exact Or.inl ⟨hzero, rfl⟩
  · next hne =>
    cases h
    exact Or.inr ⟨hne, rfl⟩

/-- The free-block counter of a group changes by `count`, as long as the sum fits 16 bits. -/
theorem Layout.groupAdjustBlocks (hl : s.Layout S) (hg : g < S.geom.groupsCount) {count : ℤ}
    (h : groupAdjustBlocks (S.descOf g) (S.table.offset g) count s = .ok () t) {v : ℕ}
    (hv : (s.field S g 12 2 : ℤ) + count = v) (hlt : v < 2 ^ 16) :
    Changes S s t g { s.view S g with freeBlocks := v } ∧ Apart S s t := by
  rcases groupAdjustBlocks_ok h with ⟨rfl, rfl⟩ | ⟨-, rfl⟩
  · have hsame : { t.view S g with freeBlocks := v } = t.view S g := by
      ext1 <;> first | rfl | (simp only [view]; omega)
    rw [hsame]
    exact ⟨Changes.of_blocks rfl, Steady.apart ⟨rfl, fun n hn => hn⟩⟩
  · have hval : (((s.descField (S.descOf g) (S.table.offset g) 12 2 : ℤ) + count) % 2 ^ 32).toNat = v := by
      have : (s.descField (S.descOf g) (S.table.offset g) 12 2 : ℤ) + count = v := hv
      omega
    rw [hval]
    refine ⟨?_, fun n hn => hn, fun a off w ha hoff hw => hl.field_setDescField hg ha (by omega) hw
      fun _ => by omega,
      fun c hc => update_of_ne (hc g hg).1 ..⟩
    have hc := hl.setDescField hg 12 2 v le_rfl (by omega)
    rwa [field_setDescField_self, Nat.mod_eq_of_lt (by omega),
      hl.field_setDescField hg hg (by omega) (by omega) fun _ => by omega] at hc

/-- A store into a group's block bitmap, and its count. -/
theorem Accounted.adjust (hA : s.Accounted S) (hg : g < S.geom.groupsCount) {count : ℤ}
    (hcount : (clearBits (s.view S g).blockBits S.geom.blocksPerGroup : ℤ) + count =
      clearBits (bitAt data) S.geom.blocksPerGroup)
    (h : Ext2Disk.groupAdjustBlocks (S.descOf g) (S.table.offset g) count
      (s.setBlock (s.addr S (.blockBitmap g)) data) = .ok () t) : Booked S s t := by
  have hc := hA.layout.setBlock_blockBitmap hg data
  have hle := clearBits_le (bitAt data) S.geom.blocksPerGroup
  have hmax : S.geom.blocksPerGroup ≤ 8 * 1024 := hA.layout.blocks_fit
  have hbal : s.field S g 12 2 = _ := (hA.balanced g hg).1
  have hold : (s.setBlock (s.addr S (.blockBitmap g)) data).field S g 12 2 = s.field S g 12 2 :=
    field_setBlock_ne (hA.layout.blockBitmap_desc g g hg hg)
  obtain ⟨hc', hapart⟩ := (hA.layout.congr hc.fields).groupAdjustBlocks hg h
    (by rw [hold, hbal, hcount]) (by omega)
  refine ⟨(hA.layout.apart_setBlock hg).trans hapart, (hc.trans hc').accounted hA ⟨?_, ?_⟩⟩
  · simp [hc.view_self]
  · rw [hc.view_self]
    exact (hA.balanced g hg).2

/-! ## Runs of bits -/

/-- Clear `n` bits from `bit` on. -/
def clearRun (data : Block) : ℕ → ℕ → Block
  | 0, _ => data
  | n + 1, bit => clearRun (clearBit data bit) n (bit + 1)

theorem setBlock_self (s : Ext2Disk) (b : ℕ) : s.setBlock b (s.blocks b) = s := by
  simp [setBlock]

theorem setBlock_setBlock (s : Ext2Disk) (b : ℕ) (d e : Block) : (s.setBlock b d).setBlock b e =
    s.setBlock b e := by
  simp [setBlock]

/-- The clearing loop clears bits that are all set. -/
theorem clearLoop_ok (h : clearLoop bitmap n bit s = .ok () t) :
    t = s.setBlock bitmap (clearRun (s.blocks bitmap) n bit) ∧ ∀ j, j < n →
      bitAt (s.blocks bitmap) (bit + j) = true := by
  induction n generalizing bit s with
  | zero =>
    cases h
    exact ⟨(setBlock_self _ bitmap).symm, fun j hj => absurd hj (by omega)⟩
  | succ n ih =>
    simp only [clearLoop, exec_bind, exec_get] at h
    split at h
    · next hset =>
      obtain ⟨rfl, hrest⟩ := ih h
      rw [setBlock_setBlock]
      simp only [setBlock, update_self] at hrest ⊢
      refine ⟨rfl, fun j hj => ?_⟩
      cases j with
      | zero => exact hset
      | succ j =>
        have hj' := hrest j (by omega)
        rw [bitAt_clearBit, if_neg (by omega)] at hj'
        rwa [show bit + (j + 1) = bit + 1 + j by omega]
    · cases h

/-- Clearing a run of set bits adds its length to the clear bits. -/
theorem clearBits_clearRun {size : ℕ} (hset : ∀ j, j < n → bitAt data (bit + j) = true)
    (hfit : bit + n ≤ size) : clearBits (bitAt (clearRun data n bit)) size =
    clearBits (bitAt data) size + n := by
  induction n generalizing data bit with
  | zero => rfl
  | succ n ih =>
    have hrest : ∀ j, j < n → bitAt (clearBit data bit) (bit + 1 + j) = true := by
      intro j hj
      rw [bitAt_clearBit, if_neg (by omega), show bit + 1 + j = bit + (j + 1) by omega]
      exact hset (j + 1) (by omega)
    have hfirst : bitAt data bit = true := hset 0 (by omega)
    rw [clearRun, ih hrest (by omega), bitAt_clearBit_eq, clearBits_clear (by omega) hfirst]
    omega

theorem markRun_succ_right {i k : ℕ} :
    markRun bits i (k + 1) = update (markRun bits i k) (i + k) true := by
  funext j
  obtain rfl | hne := eq_or_ne j (i + k)
  · rw [update_self, markRun_mem (by omega) (by omega)]
  · rw [update_of_ne hne]
    by_cases hin : i ≤ j ∧ j < i + k
    · rw [markRun_mem hin.1 (by omega), markRun_mem hin.1 hin.2]
    · rw [markRun_not_mem (by omega), markRun_not_mem (by omega)]

theorem bitAt_setRun (data : Block) (first num : ℕ) :
    bitAt (setRun data first num) = markRun (bitAt data) first num := by
  induction num with
  | zero =>
    funext j
    rw [markRun_not_mem (by omega)]
    rfl
  | succ n ih =>
    rw [setRun, List.range_succ, List.foldl_append, List.foldl_cons, List.foldl_nil, bitAt_setBit_eq,
      markRun_succ_right, ← ih]
    rfl

/-- Marking a run of clear bits takes its length from the clear bits. -/
theorem clearBits_markRun {last i k : ℕ} (h : ClearRun bits last i k) :
    clearBits (markRun bits i k) last + k = clearBits bits last := by
  induction k generalizing bits i with
  | zero =>
    have : markRun bits i 0 = bits := funext fun j => markRun_not_mem (by omega)
    rw [this, Nat.add_zero]
  | succ k ih =>
    obtain ⟨hi, hclear⟩ : i < last ∧ bits i = false := h 0 (by omega)
    have hrest : ClearRun (update bits i true) last (i + 1) k := by
      intro j hj
      rw [update_of_ne (by omega), show i + 1 + j = i + (j + 1) by omega]
      exact h (j + 1) (by omega)
    rw [markRun_succ]
    have := ih hrest
    have := clearBits_set hi hclear
    omega

/-! ## Release of blocks -/

theorem freeInGroup_ok (hA : s.Accounted S)
    (h : freeInGroup S bitmap g block count s = .ok () t)
    (hbit : S.geom.bitOf block + count ≤ S.geom.blocksPerGroup)
    (hbitmap : 0 < count → bitmap = s.addr S (.blockBitmap g)) : Booked S s t := by
  obtain ⟨b, u, hload, h⟩ := bind_eq_ok.mp h
  obtain ⟨hg, rfl, hsu, -⟩ := loadGroupDesc_ok hload
  rw [exec_get_bind, exec_ite] at h
  split at h
  · cases h
  · obtain ⟨_, v, hclear, h⟩ := bind_eq_ok.mp h
    obtain ⟨_, w, hadjust, hrelse⟩ := bind_eq_ok.mp h
    obtain ⟨rfl, hset⟩ := clearLoop_ok hclear
    have hbu := hsu.booked hA
    have hwt : Steady S w t := brelse_ok hrelse
    obtain rfl | hpos := Nat.eq_zero_or_pos count
    · -- nothing is cleared and the counter is left alone
      rw [clearRun, setBlock_self] at hadjust
      obtain ⟨-, rfl⟩ | ⟨hne, -⟩ := groupAdjustBlocks_ok hadjust
      · exact hbu.trans (hwt.booked hbu.accounted)
      · exact absurd rfl hne
    · obtain rfl : bitmap = u.addr S (.blockBitmap g) := (hbitmap hpos).trans (hsu.field g 0 4).symm
      have hbw : Booked S u w := by
        refine hbu.accounted.adjust hg ?_ hadjust
        rw [clearBits_clearRun hset hbit]
        rfl
      exact hbu.trans (hbw.trans (hwt.booked hbw.accounted))

/-- The entries of `s_group_desc` for the groups of a range of blocks are fresh. -/
def FreshRange (S : Ext2Super) (s : Ext2Disk) (block count : ℕ) : Prop :=
  ∀ c, block ≤ c → c < block + count → s.Fresh S (S.table.index (S.geom.groupOf c))

theorem freeLoop_ok {fuel : ℕ} (hA : s.Accounted S)
    (hfresh : s.FreshRange S block count) (h : freeLoop S fuel read block count s = .ok () t) :
    Booked S s t := by
  induction fuel generalizing s read block count with
  | zero => cases h
  | succ fuel ih =>
    obtain ⟨_, u, hrelse, h⟩ := bind_eq_ok.mp h
    obtain ⟨bitmap, v, hread, h⟩ := bind_eq_ok.mp h
    obtain ⟨_, w, hfree, h⟩ := bind_eq_ok.mp h
    have hsu : Steady S s u := brelseRead_ok hrelse
    obtain ⟨hg, huv, hbitmap⟩ := readBitmap_ok hread
    have hbv := (hsu.trans huv.toSteady).booked hA
    have hlt := S.geom.bitOf_lt (b := block)
    have hbw := hbv.trans (freeInGroup_ok hbv.accounted hfree (by omega) fun hpos => by
      have hf := hsu.fresh _ (hfresh block le_rfl (by omega))
      rw [hbitmap hf, addr, huv.field])
    split at h
    · exact hbw.trans ((brelse_ok h : Steady S w t).booked hbw.accounted)
    · refine hbw.trans (ih hbw.accounted (fun c hc hc' => ?_) h)
      exact hbw.fresh _ (hfresh c (by omega) (by omega))

theorem freeBlocks_ok (hA : s.Accounted S) (hfresh : s.FreshRange S block count)
    (h : freeBlocks S block count s = .ok () t) : Booked S s t := by
  unfold freeBlocks at h
  split at h
  · cases h
  · exact freeLoop_ok hA hfresh h

/-! ## Allocation of blocks -/

/-- A run of blocks of one group. -/
structure BlockRun where
  group : ℕ
  first : ℕ
  num : ℕ
  deriving DecidableEq

/-- The run has a first block, and it is clear in its group's bitmap. -/
structure BlockRun.Clear (S : Ext2Super) (s : Ext2Disk) (r : BlockRun) : Prop where
  group_lt : r.group < S.geom.groupsCount
  run : ClearRun (s.view S r.group).blockBits S.geom.blocksPerGroup r.first r.num
  pos : 0 < r.num

/-- The run taken from the `n` groups behind `group`: in the first one with a free block. -/
def otherRun (S : Ext2Super) (s : Ext2Disk) (num : ℕ) : ℕ → ℕ → Option BlockRun
  | 0, _ => none
  | n + 1, group =>
    let group := S.geom.nextGroup group
    if (s.view S group).freeBlocks = 0 then otherRun S s num n group
    else match tryToAllocate (s.view S group).blockBits S.geom.blocksPerGroup none num with
      | (some first, num, _) => some ⟨group, first, num⟩
      | (none, num, _) => otherRun S s num n group

/-- The group of the goal. -/
def goalGroup (S : Ext2Super) (goal : ℕ) : ℕ := S.geom.groupOf (S.geom.clampGoal goal)

/-- The run that `ext2_new_blocks` takes: from the goal on in its group, or else from another
group. -/
def pickRun (S : Ext2Super) (s : Ext2Disk) (goal count : ℕ) : Option BlockRun :=
  match tryToAllocate (s.view S (goalGroup S goal)).blockBits S.geom.blocksPerGroup
    (some (S.geom.bitOf (S.geom.clampGoal goal))) count with
  | (some first, num, _) => some ⟨goalGroup S goal, first, num⟩
  | (none, num, _) => otherRun S s num S.geom.groupsCount (goalGroup S goal)

section Runs

variable {num goal : ℕ} {r : BlockRun} {run : Option BlockRun} {res : Option ℕ} {x : Ext2Disk}

theorem groupsCount_pos (S : Ext2Super) : 0 < S.geom.groupsCount := Nat.succ_pos _

theorem nextGroup_lt (group : ℕ) : S.geom.nextGroup group < S.geom.groupsCount := by
  have hpos := groupsCount_pos S
  unfold Ext2Geom.nextGroup
  split <;> omega

theorem goalGroup_lt : goalGroup S goal < S.geom.groupsCount := by
  have hlt := @Ext2Geom.clampGoal_lt S.geom goal
  refine Nat.lt_succ_of_le (Nat.div_le_div_right ?_)
  omega

theorem tryToAllocate_clear {num' first : ℕ} {grpGoal : Option ℕ} (hg : g < S.geom.groupsCount)
    (h : tryToAllocate (s.view S g).blockBits S.geom.blocksPerGroup grpGoal num = (some first, num', bits)) :
    (⟨g, first, num'⟩ : BlockRun).Clear S s := by
  obtain ⟨hclaim, -⟩ := tryToAllocate_some h
  exact ⟨hg, hclaim.clear, hclaim.pos⟩

theorem otherRun_clear (h : otherRun S s num n g = some r) : r.Clear S s := by
  induction n generalizing num g with
  | zero => cases h
  | succ n ih =>
    rw [otherRun] at h
    split at h
    · exact ih h
    · generalize htry : tryToAllocate _ _ _ _ = claim at h
      obtain ⟨_ | first, num, bits⟩ := claim
      · exact ih h
      · cases h
        exact tryToAllocate_clear (nextGroup_lt g) htry

theorem pickRun_clear (h : pickRun S s goal count = some r) : r.Clear S s := by
  unfold pickRun at h
  generalize htry : tryToAllocate _ _ _ _ = claim at h
  obtain ⟨_ | first, num, bits⟩ := claim
  · exact otherRun_clear h
  · cases h
    exact tryToAllocate_clear goalGroup_lt htry

/-- What is behind the label `allocated` when it returns. -/
theorem allocatedRun_ok {first : ℕ} (h : allocatedRun S bitmap b g first num s = .ok res t) :
    ¬ (s.setBlock bitmap (setRun (s.blocks bitmap) first num)).InSystemZone S b (S.table.offset g)
        (first + S.geom.groupFirstBlockNo g) num ∧
      first + S.geom.groupFirstBlockNo g + num - 1 < S.geom.blocksCount ∧
      ∃ u, groupAdjustBlocks b (S.table.offset g) (-num)
        (s.setBlock bitmap (setRun (s.blocks bitmap) first num)) =
        .ok () u ∧ Steady S u t := by
  obtain ⟨_, u, hset, h⟩ := bind_eq_ok.mp h
  cases hset
  rw [exec_get_bind, exec_ite] at h
  split at h
  · cases h
  · next hzone =>
    split at h
    · cases h
    · next hin =>
      obtain ⟨_, v, hadjust, h⟩ := bind_eq_ok.mp h
      obtain ⟨_, w, hrelse, h⟩ := bind_eq_ok.mp h
      obtain ⟨_, x, hrelse', h⟩ := bind_eq_ok.mp h
      cases h
      have hvw : Steady S v w := brelse_ok hrelse
      exact ⟨hzone, Nat.lt_of_not_le hin, v, hadjust, hvw.trans (brelse_ok hrelse')⟩

/-- From a state with the blocks of `s`, the run is handed out, or no block is. -/
def Hands (S : Ext2Super) (s x : Ext2Disk) (res : Option ℕ) (t : Ext2Disk) : Option BlockRun → Prop
  | none => Steady S x t
  | some r => ∃ y, Steady S x y ∧
    allocatedRun S (s.addr S (.blockBitmap r.group)) (S.descOf r.group) r.group r.first r.num y = .ok res t

theorem Hands.steady (hxy : Steady S x u) (h : Hands S s u res t run) : Hands S s x res t run := by
  cases run with
  | none => exact hxy.trans h
  | some r =>
    obtain ⟨y, huy, h⟩ := h
    exact ⟨y, hxy.trans huy, h⟩

theorem Accounted.hands (hA : s.Accounted S) (h : Hands S s s res t run) (hclear : ∀ r ∈ run, r.Clear S s) :
    Booked S s t := by
  cases run with
  | none => exact Steady.booked h hA
  | some r =>
    obtain ⟨y, hsy, h⟩ := h
    have hr := hclear r rfl
    have hby := hsy.booked hA
    have hview : y.view S r.group = s.view S r.group := (Changes.of_blocks hsy.blocks).view_self
    rw [show s.addr S (.blockBitmap r.group) = y.addr S (.blockBitmap r.group) from (hsy.field ..).symm] at h
    obtain ⟨-, -, u, hadjust, hut⟩ := allocatedRun_ok h
    have hbu : Booked S y u := by
      refine hby.accounted.adjust hr.group_lt ?_ hadjust
      have hcount := clearBits_markRun hr.run
      rw [bitAt_setRun, hview, ← hcount, ← hview]
      push_cast
      exact add_neg_cancel_right _ _
    exact hby.trans (hbu.trans (hut.booked hbu.accounted))

/-- Without a bitmap the search of the other groups never returns. -/
theorem searchOtherGroups_null : searchOtherGroups S none num n g b s ≠ .ok res t := by
  induction n generalizing s g b with
  | zero =>
    intro h
    obtain ⟨_, u, hrelse, -⟩ := bind_eq_ok.mp h
    cases hrelse
  | succ n ih =>
    intro h
    obtain ⟨_, u, -, h⟩ := bind_eq_ok.mp h
    obtain ⟨b', v, -, h⟩ := bind_eq_ok.mp h
    rw [exec_get_bind, exec_ite] at h
    split at h
    · exact ih h
    · obtain ⟨_, w, hrelse, -⟩ := bind_eq_ok.mp h
      cases hrelse

/-- With a bitmap in hand it hands out the run of the first group with a free block. -/
theorem searchOtherGroups_ok (hblocks : x.blocks = s.blocks)
    (h : searchOtherGroups S (some bitmap) num n g b x = .ok res t) :
    Hands S s x res t (otherRun S s num n g) := by
  induction n generalizing x num bitmap g b with
  | zero =>
    obtain ⟨_, u, hrelse, h⟩ := bind_eq_ok.mp h
    obtain ⟨_, v, hrelse', h⟩ := bind_eq_ok.mp h
    cases h
    exact Steady.trans (brelse_ok hrelse) (brelse_ok hrelse')
  | succ n ih =>
    obtain ⟨_, u, hrelse, h⟩ := bind_eq_ok.mp h
    obtain ⟨b', v, hload, h⟩ := bind_eq_ok.mp h
    have hxu : Steady S x u := brelse_ok hrelse
    obtain ⟨hg, rfl, huv, hptr⟩ := loadGroupDesc_ok hload
    have hxv := hxu.trans huv.toSteady
    have hv : v.blocks = s.blocks := hxv.blocks.trans hblocks
    have hcount : v.descField (S.descOf (S.geom.nextGroup g)) (S.table.offset (S.geom.nextGroup g)) 12 2 =
        (s.view S (S.geom.nextGroup g)).freeBlocks := by
      simp only [view, field, descField, hv]
    apply Hands.steady hxv
    rw [exec_get_bind, exec_ite, hcount] at h
    rw [otherRun]
    split at h
    · next hzero =>
      rw [if_pos hzero]
      exact ih hv h
    · next hpos =>
      rw [if_neg hpos]
      obtain ⟨_, w, hrelse', h⟩ := bind_eq_ok.mp h
      obtain ⟨bitmap', y, hread, h⟩ := bind_eq_ok.mp h
      have hvw : Steady S v w := brelsePointer_ok hrelse'
      obtain ⟨-, hwy, hbitmap⟩ := readBitmap_ok hread
      have hvy := hvw.trans hwy.toSteady
      have hy : y.blocks = s.blocks := hvy.blocks.trans hv
      obtain rfl : bitmap' = s.addr S (.blockBitmap (S.geom.nextGroup g)) := by
        rw [hbitmap (hvw.fresh _ hptr)]
        simp only [addr, field, descField, hvw.blocks.trans hv]
      have hbits : bitAt (y.blocks (s.addr S (.blockBitmap (S.geom.nextGroup g)))) =
          (s.view S (S.geom.nextGroup g)).blockBits := by
        rw [hy]
        rfl
      apply Hands.steady hvy
      rw [exec_get_bind, hbits] at h
      generalize tryToAllocate _ _ _ _ = claim at h
      obtain ⟨_ | first, num, bits⟩ := claim
      · exact ih hy h
      · exact ⟨y, ⟨rfl, fun _ hn => hn⟩, h⟩

/-- A call that returns found a free block in the goal's group. -/
theorem newBlocks_ok (h : newBlocks S goal count s = .ok res t) :
    (s.view S (goalGroup S goal)).freeBlocks ≠ 0 ∧ Hands S s s res t (pickRun S s goal count) := by
  obtain ⟨b, u, hload, h⟩ := bind_eq_ok.mp h
  obtain ⟨hg, rfl, hsu, hptr⟩ := loadGroupDesc_ok hload
  have hcount : u.descField (S.descOf (goalGroup S goal)) (S.table.offset (goalGroup S goal)) 12 2 =
      (s.view S (goalGroup S goal)).freeBlocks := by
    simp only [view, field, descField, hsu.blocks]
  rw [exec_get_bind, exec_ite] at h
  split at h
  · exact absurd h searchOtherGroups_null
  · next hpos =>
    refine ⟨fun hzero => hpos (hcount.trans hzero), ?_⟩
    obtain ⟨bitmap, v, hread, h⟩ := bind_eq_ok.mp h
    obtain ⟨-, huv, hbitmap⟩ := readBitmap_ok hread
    have hsv := hsu.toSteady.trans huv.toSteady
    obtain rfl : bitmap = s.addr S (.blockBitmap (goalGroup S goal)) := by
      rw [hbitmap hptr, hsu.field]
      rfl
    have hbits : bitAt (v.blocks (s.addr S (.blockBitmap (goalGroup S goal)))) =
      (s.view S (goalGroup S goal)).blockBits := by
      rw [hsv.blocks]
      rfl
    apply Hands.steady hsv
    rw [exec_get_bind, hbits] at h
    unfold pickRun
    generalize htry : tryToAllocate _ _ _ _ = claim at h
    generalize hpick : tryToAllocate _ _ _ _ = claim'
    obtain rfl : claim = claim' := htry.symm.trans hpick
    obtain ⟨_ | first, num, bits⟩ := claim
    · exact searchOtherGroups_ok hsv.blocks h
    · exact ⟨v, ⟨rfl, fun _ hn => hn⟩, h⟩

end Runs

/-! ## Inodes -/

theorem findInode_some {size fuel start : ℕ} (h : findInode bits size fuel start = some ino) :
    ino < size ∧ bits ino = false := by
  induction fuel generalizing start with
  | zero => cases h
  | succ fuel ih =>
    simp only [findInode] at h
    split at h
    · cases h
    · split at h
      · split at h
        · cases h
        · exact ih h
      · next hclear =>
        cases h
        exact ⟨by omega, by simpa using hclear⟩

/-- The group found has its descriptor block read and its inode bitmap read, with a clear bit. -/
theorem searchInodeGroups_ok {g' : ℕ} (h : searchInodeGroups S n read g s = .ok (g', b, bitmap, bit) t) :
    g' < S.geom.groupsCount ∧ b = S.descOf g' ∧ Steady S s t ∧ bitmap = t.addr S (.inodeBitmap g') ∧
      bit < S.geom.inodesPerGroup ∧ bitAt (t.blocks bitmap) bit = false ∧
      ∀ c, s.locked c = true → read ≠ some c → t.locked c = true ∧ c ≠ b ∧ c ≠ bitmap := by
  induction n generalizing s read g with
  | zero => cases h
  | succ n ih =>
    obtain ⟨b', u, hload, h⟩ := bind_eq_ok.mp h
    obtain ⟨_, v, hrelse, h⟩ := bind_eq_ok.mp h
    obtain ⟨bitmap', w, hread, h⟩ := bind_eq_ok.mp h
    obtain ⟨hg, rfl, hsu, hptr⟩ := loadGroupDesc_ok hload
    have huv : Steady S u v := brelseRead_ok hrelse
    obtain ⟨-, hvw, hbitmap⟩ := readBitmap_ok hread
    have hsw := hsu.toSteady.trans (huv.trans hvw.toSteady)
    -- a buffer that was locked is not read again, and only the bitmap read before is released
    have hkept (c : ℕ) (hc : s.locked c = true) (hne : read ≠ some c) :
        w.locked c = true ∧ c ≠ S.descOf g ∧ c ≠ bitmap' := by
      have hdesc := ne_of_locked hc hsu.unlocked
      have hu : u.locked c = true := by rw [hsu.locked, update_of_ne hdesc, hc]
      have hv : v.locked c = true := by
        cases read with
        | none =>
          cases hrelse
          exact hu
        | some r => simp only [brelse_eq hrelse, update_of_ne fun heq : c = r => hne (by rw [heq]), hu]
      have hmap := ne_of_locked hv hvw.unlocked
      exact ⟨by rw [hvw.locked, update_of_ne hmap, hv], hdesc, hmap⟩
    rw [exec_get_bind] at h
    generalize hfind : findInode _ _ _ _ = found at h
    cases found with
    | some ino =>
      cases h
      obtain ⟨hlt, hclear⟩ := findInode_some hfind
      exact ⟨hg, rfl, hsw, by rw [hbitmap (huv.fresh _ hptr), addr, hvw.field], hlt, hclear, hkept⟩
    | none =>
      obtain ⟨hg', hb, hwt, haddr, hbit, hclear, hrest⟩ := ih h
      refine ⟨hg', hb, hsw.trans hwt, haddr, hbit, hclear, fun c hc hne => ?_⟩
      obtain ⟨hw, -, hmap⟩ := hkept c hc hne
      exact hrest c hw fun heq => hmap (Option.some.inj heq).symm

/-- The group of an inode. -/
def inodeGroup (S : Ext2Super) (ino : ℕ) : ℕ := (ino - 1) / S.geom.inodesPerGroup

/-- The place of an inode in its group. -/
def inodeIndex (S : Ext2Super) (ino : ℕ) : ℕ := (ino - 1) % S.geom.inodesPerGroup

/-- The offset of an inode in its block. -/
def inodeOffset (S : Ext2Super) (j : ℕ) : ℕ := j * S.inodeSize % bsize

/-- The inode is in its group's table, and its block was not locked. -/
theorem getInode_ok {offset : ℕ} (h : getInode S ino s = .ok (block, offset) t) :
    inodeGroup S ino < S.geom.groupsCount ∧ block = s.inodeBlock S (inodeGroup S ino) (inodeIndex S ino) ∧
      offset = inodeOffset S (inodeIndex S ino) ∧ Steady S s t ∧
      ∀ c, s.locked c = true → c ≠ block ∧ t.locked c = true := by
  unfold getInode at h
  split at h
  · cases h
  · obtain ⟨b, u, hload, h⟩ := bind_eq_ok.mp h
    obtain ⟨hg, rfl, hsu, -⟩ := loadGroupDesc_ok hload
    rw [exec_get_bind] at h
    obtain ⟨_, v, hrelse, h⟩ := bind_eq_ok.mp h
    obtain ⟨_, w, hread, h⟩ := bind_eq_ok.mp h
    cases h
    have huv : Steady S u v := brelse_ok hrelse
    have hvt : Reads S v t _ := bread_ok hread
    refine ⟨hg, ?_, rfl, hsu.toSteady.trans (huv.trans hvt.toSteady), fun c hc => ?_⟩
    · rw [inodeBlock, ← hsu.field]
      rfl
    · have hne := ne_of_locked hc hsu.unlocked
      have hv : v.locked c = true := by
        rw [brelse_eq hrelse]
        simp only [hsu.locked, update_of_ne hne, hc]
      have hne' := ne_of_locked hv hvt.unlocked
      exact ⟨hne', by rw [hvt.locked, update_of_ne hne', hv]⟩

/-- An inode erased, with a new mode. -/
def initialized (S : Ext2Super) (s : Ext2Disk) (g j mode : ℕ) : Ext2Disk :=
  s.setBlock (s.inodeBlock S g j)
    (putLe (blit (s.blocks (s.inodeBlock S g j)) (inodeOffset S j) S.inodeSize fun _ => 0)
    (inodeOffset S j) 2 mode)

theorem initInode_ok (h : initInode S mode ino s = .ok () t) : inodeGroup S ino < S.geom.groupsCount ∧
    (∃ m, mode = some m ∧ t.blocks = (s.initialized S (inodeGroup S ino) (inodeIndex S ino) m).blocks) ∧
      ∀ c, s.locked c = true → t.locked c = true := by
  obtain ⟨⟨block, offset⟩, u, hget, h⟩ := bind_eq_ok.mp h
  obtain ⟨hg, rfl, rfl, hsu, hlocked⟩ := getInode_ok hget
  cases mode with
  | none => cases h
  | some m =>
    obtain ⟨_, v, hset, hrelse⟩ := bind_eq_ok.mp h
    cases hset
    rw [brelse_eq hrelse]
    refine ⟨hg, ⟨m, rfl, ?_⟩, fun c hc => ?_⟩
    · simp only [initialized, setBlock, hsu.blocks]
    · simp only [setBlock, update_of_ne (hlocked c hc).1, (hlocked c hc).2]

/-- New contents of a group's inode bitmap, and a new count of its free inodes. -/
def recount (S : Ext2Super) (s : Ext2Disk) (g : ℕ) (data : Block) (count : ℕ → ℕ) : Ext2Disk :=
  let u := s.setBlock (s.addr S (.inodeBitmap g)) data
  u.setDescField (S.descOf g) (S.table.offset g) 14 2 (count (u.field S g 14 2))

/-- The device with a new inode. -/
def created (S : Ext2Super) (s : Ext2Disk) (g bit mode : ℕ) : Ext2Disk :=
  (s.recount S g (setBit (s.blocks (s.addr S (.inodeBitmap g))) bit)
    (· + 2 ^ 16 - 1)).initialized S g bit mode

/-- The device without an inode; a directory is taken from the count of directories. -/
def released (S : Ext2Super) (s : Ext2Disk) (g bit : ℕ) (dir : Bool) : Ext2Disk :=
  let v := s.recount S g (clearBit (s.blocks (s.addr S (.inodeBitmap g))) bit) (· + 1)
  if dir then v.setDescField (S.descOf g) (S.table.offset g) 16 2 (v.field S g 16 2 + 2 ^ 16 - 1) else v

/-- What is behind the label `got` when it returns. -/
theorem gotInode_ok (hbitmap : bitmap = s.addr S (.inodeBitmap g)) (hbit : bit < S.geom.inodesPerGroup)
    (h : gotInode S mode g (S.descOf g) bitmap bit s = .ok ino t) :
    S.firstIno ≤ bit + g * S.geom.inodesPerGroup + 1 ∧ bit + g * S.geom.inodesPerGroup + 1 ≤ S.inodesCount ∧
      (∃ m, mode = some m ∧ t.blocks = (s.created S g bit m).blocks) ∧
      ∀ c, c ≠ S.descOf g → c ≠ bitmap → s.locked c = true → t.locked c = true := by
  subst hbitmap
  obtain ⟨_, u, hset, h⟩ := bind_eq_ok.mp h
  cases hset
  obtain ⟨_, v, hrelse, h⟩ := bind_eq_ok.mp h
  obtain rfl := brelse_eq hrelse
  split at h
  · cases h
  · obtain ⟨_, w, hdec, h⟩ := bind_eq_ok.mp h
    cases hdec
    obtain ⟨_, x, hrelse', h⟩ := bind_eq_ok.mp h
    obtain rfl := brelse_eq hrelse'
    obtain ⟨_, y, hinit, h⟩ := bind_eq_ok.mp h
    cases h
    obtain ⟨-, hblocks, hlocked⟩ := initInode_ok hinit
    rw [inodeGroup, inodeIndex, Nat.add_sub_cancel, Nat.add_mul_div_right _ _ (Nat.zero_lt_of_lt hbit),
      Nat.add_mul_mod_self_right, Nat.div_eq_of_lt hbit, Nat.mod_eq_of_lt hbit, Nat.zero_add] at hblocks
    refine ⟨by omega, by omega, hblocks, fun c hb hbitmap hc => hlocked c ?_⟩
    simp only [setDescField, setBlock, update_of_ne hb, update_of_ne hbitmap, hc]

theorem ialloc_ok (h : ialloc S mode s = .ok ino t) : ∃ g bit m, g < S.geom.groupsCount ∧
    bit < S.geom.inodesPerGroup ∧
    (s.view S g).inodeBits bit = false ∧ mode = some m ∧ t.blocks = (s.created S g bit m).blocks := by
  obtain ⟨⟨g, b, bitmap, bit⟩, u, hsearch, h⟩ := bind_eq_ok.mp h
  obtain ⟨hg, rfl, hsu, rfl, hbit, hclear, -⟩ := searchInodeGroups_ok hsearch
  obtain ⟨-, -, ⟨m, hmode, hblocks⟩, -⟩ := gotInode_ok rfl hbit h
  obtain ⟨blocks, locked, ptr⟩ := u
  obtain rfl : blocks = s.blocks := hsu.blocks
  exact ⟨g, bit, m, hg, hbit, hclear, hmode, hblocks⟩

variable {dir : Bool}

theorem freeInode_ok (hfresh : s.Fresh S (S.table.index (inodeGroup S ino)))
    (h : freeInode S ino dir s = .ok () t) : inodeGroup S ino < S.geom.groupsCount ∧
      (s.view S (inodeGroup S ino)).inodeBits (inodeIndex S ino) = true ∧
      t.blocks = (s.released S (inodeGroup S ino) (inodeIndex S ino) dir).blocks := by
  unfold freeInode at h
  split at h
  · cases h
  · obtain ⟨bitmap, u, hread, h⟩ := bind_eq_ok.mp h
    obtain ⟨hg, hsu, hbitmap⟩ := readBitmap_ok hread
    obtain rfl := hbitmap hfresh
    rw [exec_get_bind, exec_ite] at h
    split at h
    · next hset =>
      obtain ⟨_, v, hclear, h⟩ := bind_eq_ok.mp h
      cases hclear
      obtain ⟨_, w, hrelease, hrelse⟩ := bind_eq_ok.mp h
      obtain ⟨b, x, hload, h⟩ := bind_eq_ok.mp hrelease
      obtain ⟨-, rfl, hux, -⟩ := loadGroupDesc_ok hload
      obtain ⟨_, y, hinc, h⟩ := bind_eq_ok.mp h
      cases hinc
      obtain ⟨_, z, hdir, hrelse'⟩ := bind_eq_ok.mp h
      cases hdir
      rw [brelse_eq hrelse, brelse_eq hrelse']
      rw [hsu.blocks] at hset
      refine ⟨hg, hset, ?_⟩
      have hx := hux.blocks
      simp only [setBlock, hsu.blocks] at hx
      cases dir <;> simp only [released, recount, setDescField, setBlock, field, descField, hx,
        addr, inodeGroup, inodeIndex,
        if_true, if_false, Bool.false_eq_true]
    · cases h

section

variable (hl : s.Layout S) (hg : g < S.geom.groupsCount)

include hl hg

theorem Layout.recount (data : Block) (count : ℕ → ℕ) :
    Changes S s (s.recount S g data count) g { s.view S g with
      inodeBits := bitAt data
      freeInodes := count (s.field S g 14 2) % 2 ^ 16 } := by
  have hc := hl.setBlock_inodeBitmap hg data
  have hcount := (hl.congr hc.fields).setFreeInodes hg (w := count (s.field S g 14 2)) rfl
  rw [hc.view_self] at hcount
  rw [Ext2Disk.recount, field_setBlock_ne (hl.inodeBitmap_desc g g hg hg)]
  exact hc.trans hcount

/-- The bit of the new inode is set, and the counter goes down by one. -/
theorem Layout.created {m : ℕ} (hbit : bit < S.geom.inodesPerGroup) :
    Changes S s (s.created S g bit m) g { s.view S g with
      inodeBits := update (s.view S g).inodeBits bit true
      freeInodes := (s.field S g 14 2 + 2 ^ 16 - 1) % 2 ^ 16 } := by
  have hc := hl.recount hg (setBit (s.blocks (s.addr S (.inodeBitmap g))) bit) (· + 2 ^ 16 - 1)
  rw [bitAt_setBit_eq] at hc
  exact hc.keep ((hl.congr hc.fields).setBlock_inodeBlock hg hg hbit _)

/-- The bit of the inode is cleared, and the counter goes up by one. -/
theorem Layout.released :
    Changes S s (s.released S g bit dir) g { s.view S g with
      inodeBits := update (s.view S g).inodeBits bit false
      freeInodes := (s.field S g 14 2 + 1) % 2 ^ 16 } := by
  have hc := hl.recount hg (clearBit (s.blocks (s.addr S (.inodeBitmap g))) bit) (· + 1)
  rw [bitAt_clearBit_eq] at hc
  cases dir with
  | true => exact hc.keep ((hl.congr hc.fields).setUsedDirs hg)
  | false => exact hc

end

theorem ialloc_accounted (hA : s.Accounted S) (h : ialloc S mode s = .ok ino t) : t.Accounted S := by
  obtain ⟨g, bit, m, hg, hbit, hclear, -, hblocks⟩ := ialloc_ok h
  have hcount := clearBits_set hbit hclear
  have hbal : s.field S g 14 2 = _ := (hA.balanced g hg).2
  have hle := clearBits_le (s.view S g).inodeBits S.geom.inodesPerGroup
  have hmax : S.geom.inodesPerGroup ≤ 8 * 1024 := hA.layout.inodes_fit
  refine ((hA.layout.created hg hbit).keep (Changes.of_blocks hblocks)).accounted hA
    ⟨(hA.balanced g hg).1, ?_⟩
  simp only
  omega

theorem freeInode_accounted (hA : s.Accounted S)
    (hfresh : s.Fresh S (S.table.index (inodeGroup S ino))) (h : freeInode S ino dir s = .ok () t) :
    t.Accounted S := by
  obtain ⟨hg, hset, hblocks⟩ := freeInode_ok hfresh h
  have hbit : inodeIndex S ino < S.geom.inodesPerGroup := Nat.mod_lt _ hA.layout.inodes_pos
  have hcount := clearBits_clear hbit hset
  have hbal : s.field S (inodeGroup S ino) 14 2 = _ := (hA.balanced _ hg).2
  have hle := clearBits_le (update (s.view S (inodeGroup S ino)).inodeBits
    (inodeIndex S ino) false) S.geom.inodesPerGroup
  have hmax : S.geom.inodesPerGroup ≤ 8 * 1024 := hA.layout.inodes_fit
  refine ((hA.layout.released hg).keep (Changes.of_blocks hblocks)).accounted hA ⟨(hA.balanced _ hg).1, ?_⟩
  simp only
  omega

/-! ## Runs -/

/-- Releases find the entries of `s_group_desc` they use null or not recycled. -/
def Op.Meets (S : Ext2Super) (s : Ext2Disk) : Op → Prop
  | .freeBlocks block count => s.FreshRange S block count
  | .freeInode ino _ => s.Fresh S (S.table.index ((ino - 1) / S.geom.inodesPerGroup))
  | _ => True

/-- An operation that returns and meets the condition. -/
def MeetsStep (S : Ext2Super) (s : Ext2Disk) (op : Op) (t : Ext2Disk) : Prop := op.Meets S s ∧
    s.Returns S op t

theorem Accounted.op {op : Op} (hA : s.Accounted S) (hmeets : op.Meets S s) (h : s.Returns S op t) :
    t.Accounted S := by
  cases op with
  | newBlocks goal count =>
    obtain ⟨r, u, hnew, h⟩ := bind_eq_ok.mp h
    cases h
    exact (hA.hands (newBlocks_ok hnew).2 fun _ hr => pickRun_clear hr).accounted
  | freeBlocks block count => exact (freeBlocks_ok hA hmeets h).accounted
  | ialloc mode =>
    obtain ⟨r, u, hnew, h⟩ := bind_eq_ok.mp h
    cases h
    exact ialloc_accounted hA hnew
  | freeInode ino dir => exact freeInode_accounted hA hmeets h
  | recycle n b =>
    cases h
    exact hA.of_blocks rfl

/-- In every run of allocations and releases, on a file system whose counters are right, in which
every release finds the entries of `s_group_desc` it uses null or not recycled, after every
operation the counters of every group are the numbers of clear bits of its bitmaps. -/
theorem group_accounts {ops : List Op} (hA : s.Accounted S)
    (hrun : Run (MeetsStep S) s ops t) (hg : g < S.geom.groupsCount) :
    t.field S g 12 2 = clearBits (bitAt (t.blocks (t.field S g 0 4))) S.geom.blocksPerGroup ∧
      t.field S g 14 2 = clearBits (bitAt (t.blocks (t.field S g 4 4))) S.geom.inodesPerGroup :=
  (hrun.invariant (fun _ _ _ h hstep => h.op hstep.1 hstep.2) hA).balanced g hg

/-! ## A file system of two groups -/

/-- Two groups of 16 blocks and 16 inodes, with their descriptors in block 2. -/
def twoGroups : Ext2Super where
  geom := ⟨1, 33, 16, 16, 2, 8, oneGroup.group_pos, by decide⟩
  descBits := 5
  descBlock := fun n => n + 2
  firstIno := 11
  inodesCount := 32
  inodeSize := 128

/-- The descriptors: bitmaps in blocks 3 and 4, and in 17 and 18; inode tables from 5 and from 19
on. -/
def twoDescs : Block :=
  [(0, 4, 3), (4, 4, 4), (8, 4, 5), (12, 2, 9), (14, 2, 5), (32, 4, 17), (36, 4, 18), (40, 4, 19),
    (44, 2, 11),
    (46, 2, 16)].foldl (fun d f => putLe d f.1 f.2.1 f.2.2) fun _ => 0

/-- Blocks 1 to 7 and 17 to 21 are in use, and inodes 1 to 11; block 7 belongs to a file and
contains the number 3 at offset 32. -/
def twoGroupsDisk : Ext2Disk where
  blocks := fun b => match b with
    | 2 => twoDescs
    | 3 => fun i => if i = 0 then 0x7f else 0
    | 4 => fun i => if i = 0 then 0xff else if i = 1 then 7 else 0
    | 7 => fun i => if i = 32 then 3 else 0
    | 17 => fun i => if i = 0 then 0x1f else 0
    | _ => fun _ => 0
  locked := fun _ => false
  groupDesc := fun _ => none

theorem layout_twoGroupsDisk : twoGroupsDisk.Layout twoGroups := by
  -- the counterpart of each condition with bounded quantifiers is evaluated
  have hpairs : ∀ g < 2, ∀ h < 2,
      twoGroupsDisk.addr twoGroups (.blockBitmap g) ≠ twoGroupsDisk.addr twoGroups (.desc h) ∧
      twoGroupsDisk.addr twoGroups (.inodeBitmap g) ≠ twoGroupsDisk.addr twoGroups (.desc h) ∧
      twoGroupsDisk.addr twoGroups (.blockBitmap g) ≠ twoGroupsDisk.addr twoGroups (.inodeBitmap h) ∧
      (twoGroupsDisk.addr twoGroups (.blockBitmap g) = twoGroupsDisk.addr twoGroups
        (.blockBitmap h) → g = h) ∧
      (twoGroupsDisk.addr twoGroups (.inodeBitmap g) = twoGroupsDisk.addr twoGroups
        (.inodeBitmap h) → g = h) ∧
      twoGroups.table.index g = twoGroups.table.index h := by
    decide +kernel
  have htable : ∀ g < 2, ∀ j < 16, ∀ a < 2, ∀ m ∈ [Meta.desc a, .blockBitmap a, .inodeBitmap a],
      twoGroupsDisk.field twoGroups g 8 4 + j * 128 / bsize ≠ twoGroupsDisk.addr twoGroups m := by
    decide +kernel
  exact {
    blocks_fit := by decide
    inodes_fit := by decide
    inodes_pos := by decide
    blockBitmap_desc := fun g h hg hh => (hpairs g hg h hh).1
    inodeBitmap_desc := fun g h hg hh => (hpairs g hg h hh).2.1
    blockBitmap_inodeBitmap := fun g h hg hh => (hpairs g hg h hh).2.2.1
    blockBitmap_inj := fun g h hg hh => (hpairs g hg h hh).2.2.2.1
    inodeBitmap_inj := fun g h hg hh => (hpairs g hg h hh).2.2.2.2.1
    desc_inj := fun g h hg hh _ => (hpairs g hg h hh).2.2.2.2.2
    table := fun g j hg hj m hm => htable g hg j hj m.group hm m (by cases m <;> simp [Meta.group]) }

theorem accounted_twoGroupsDisk : twoGroupsDisk.Accounted twoGroups := by
  have hbalanced : ∀ g < 2,
      (twoGroupsDisk.view twoGroups g).freeBlocks = clearBits (twoGroupsDisk.view twoGroups g).blockBits 16 ∧
      (twoGroupsDisk.view twoGroups g).freeInodes =
        clearBits (twoGroupsDisk.view twoGroups g).inodeBits 16 := by
    decide +kernel
  exact ⟨layout_twoGroupsDisk, hbalanced⟩

/-- The device after the call of an operation. -/
def after (op : Op) (s : Ext2Disk) : Ext2Disk := stateAfter (op.exec twoGroups) s

/-- A block is allocated in the first group, block 21 is released, and an inode is allocated. -/
theorem group_accounts_of_two_groups : ∃ t, Run (MeetsStep twoGroups) twoGroupsDisk [.newBlocks 1 1,
    .freeBlocks 21 1, .ialloc (some 0x8000)] t ∧
    t.field twoGroups 1 12 2 = clearBits (bitAt (t.blocks (t.field twoGroups 1 0 4))) 16 := by
  have hnew : twoGroupsDisk.Returns twoGroups (.newBlocks 1 1) (after (.newBlocks 1 1) twoGroupsDisk) :=
    eq_ok_of_resultOf (by decide +kernel)
  have hfree : (after (.newBlocks 1 1) twoGroupsDisk).Returns twoGroups (.freeBlocks 21 1) _ :=
    eq_ok_of_resultOf (by decide +kernel)
  have halloc : (after (.freeBlocks 21 1) (after (.newBlocks 1 1) twoGroupsDisk)).Returns twoGroups
      (.ialloc (some 0x8000)) _ := eq_ok_of_resultOf (by decide +kernel)
  have hmeets : (Op.freeBlocks 21 1).Meets twoGroups (after (.newBlocks 1 1) twoGroupsDisk) := by
    intro c hc hc'
    obtain rfl : c = 21 := by omega
    exact Or.inr (by decide +kernel)
  have hrun : Run (MeetsStep twoGroups) twoGroupsDisk [.newBlocks 1 1, .freeBlocks 21 1,
    .ialloc (some 0x8000)] _ :=
    .cons ⟨trivial, hnew⟩ (.cons ⟨hmeets, hfree⟩ (.cons ⟨trivial, halloc⟩ (.nil _)))
  exact ⟨_, hrun, (group_accounts accounted_twoGroupsDisk hrun (by decide)).1⟩

/-- After the buffer of the descriptor block was recycled for block 7, the release of block 21
clears a bit in the bitmap of the first group and counts it in the second. -/
theorem recycled_release_breaks_accounts : twoGroupsDisk.Accounted twoGroups ∧
    ∃ t, Run (Returns twoGroups) twoGroupsDisk [.newBlocks 1 1, .recycle 0 7, .freeBlocks 21 1] t ∧
      t.field twoGroups 1 12 2 ≠ clearBits (bitAt (t.blocks (t.field twoGroups 1 0 4))) 16 := by
  have hnew : twoGroupsDisk.Returns twoGroups (.newBlocks 1 1) (after (.newBlocks 1 1) twoGroupsDisk) :=
    eq_ok_of_resultOf (by decide +kernel)
  have hrecycle : (after (.newBlocks 1 1) twoGroupsDisk).Returns twoGroups (.recycle 0 7)
      (after (.recycle 0 7) (after (.newBlocks 1 1) twoGroupsDisk)) := eq_ok_of_resultOf (by decide +kernel)
  have hfree : (after (.recycle 0 7) (after (.newBlocks 1 1) twoGroupsDisk)).Returns twoGroups
    (.freeBlocks 21 1)
      (after (.freeBlocks 21 1) (after (.recycle 0 7) (after (.newBlocks 1 1) twoGroupsDisk))) :=
    eq_ok_of_resultOf (by decide +kernel)
  exact ⟨accounted_twoGroupsDisk, _, .cons hnew (.cons hrecycle (.cons hfree (.nil _))), by decide +kernel⟩

end Ext2Disk

end Xv6
