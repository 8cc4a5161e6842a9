import Xv6.Ext2.Account

/-!
# Finding space

`ext2_ialloc` and `ext2_new_blocks` from a state in which no buffer is locked. The first group that
`ext2_ialloc` finds full keeps its descriptor block locked for good. `ext2_new_blocks` releases a
bitmap it never read when the goal's group has no free block; otherwise it finds a run, in the
goal's group or in the next group that has a free block.
-/

namespace Xv6

open Lib Function

namespace Ext2Disk

variable {S : Ext2Super} {s t u : Ext2Disk} {g b : ℕ}

variable {r : BlockRun} {bitmap n num ino bit : ℕ} {mode res : Option ℕ} {locked : ℕ → Bool}

/-- No buffer is locked. -/
def Idle (s : Ext2Disk) : Prop := ∀ b, s.locked b = false

/-! ## Locks -/

theorem bread_unlocked (h : s.locked b = false) :
    bread b s = .ok () { s with locked := update s.locked b true } := by
  simp [bread, h]

theorem brelse_locked (h : s.locked = update locked b true) (hb : locked b = false) :
    brelse b s = .ok () { s with locked } := by
  have hfree : update s.locked b false = locked := by
    rw [h, update_idem, ← hb, update_eq_self]
  have hset : s.locked b = true := by rw [h, update_self]
  simp only [brelse, exec_bind, exec_get, hset, if_true, exec_set, hfree]

theorem loadGroupDesc_unlocked (hg : g < S.geom.groupsCount) (h : s.locked (S.descOf g) = false) :
    loadGroupDesc S g s = .ok (S.descOf g) { s with
      locked := update s.locked (S.descOf g) true
      groupDesc := update s.groupDesc (S.table.index g) (some (S.descOf g)) } := by
  rw [loadGroupDesc, if_neg (by omega)]
  simp only [exec_bind, bread_unlocked (b := S.descBlock (S.table.index g)) h]
  rfl

theorem readBitmap_unlocked {off : ℕ} (hg : g < S.geom.groupsCount)
    (hptr : s.groupDesc (S.table.index g) = some (S.descOf g)) (h : s.locked (s.field S g off 4) = false) :
    readBitmap S off g s =
      .ok (s.field S g off 4) { s with locked := update s.locked (s.field S g off 4) true } := by
  have hpeek : peekGroupDesc S g s = .ok (S.descOf g) s := by
    simp [peekGroupDesc, hptr, Nat.not_le.mpr hg]
  have hread : bread (s.descField (S.descOf g) (S.table.offset g) off 4) s = _ := bread_unlocked h
  simp only [readBitmap, exec_bind, hpeek, exec_get, hread]
  rfl

/-! ## Inodes -/

theorem getInode_delivers (hidle : s.Idle) (hgroup : (ino - 1) / S.geom.inodesPerGroup < S.geom.groupsCount)
    (hlo : ino = 2 ∨ S.firstIno ≤ ino) (hhi : ino ≤ S.inodesCount) :
    Delivers (getInode S ino) s fun r t => t.locked = update s.locked r.1 true := by
  rw [getInode, if_neg (by omega)]
  refine delivers_of_ok (loadGroupDesc_unlocked hgroup (hidle _)) ?_
  apply ends_get
  refine delivers_of_ok (brelse_locked rfl (hidle _)) ?_
  refine delivers_of_ok (bread_unlocked (hidle _)) ?_
  exact ends_pure rfl

theorem initInode_delivers {mode : ℕ} (hidle : s.Idle)
    (hgroup : (ino - 1) / S.geom.inodesPerGroup < S.geom.groupsCount) (hlo : S.firstIno ≤ ino)
    (hhi : ino ≤ S.inodesCount) : Delivers (initInode S (some mode) ino) s fun _ t => t.Idle := by
  apply (getInode_delivers hidle hgroup (.inr hlo) hhi).bind
  intro r u hu
  apply ends_bind
  apply ends_modify
  exact (ends_ok (brelse_locked (s := u.setBlock r.1 _) hu (hidle _))).mpr hidle

/-- With the group's descriptor block and bitmap locked, an inode number in range is set up, and
both are released. -/
theorem gotInode_delivers (mode : ℕ) (hlocked : s.locked = update (update locked b true) bitmap true)
    (hidle : ∀ c, locked c = false) (hne : bitmap ≠ b) (hg : g < S.geom.groupsCount)
    (hbit : bit < S.geom.inodesPerGroup)
    (hlo : S.firstIno ≤ bit + g * S.geom.inodesPerGroup + 1)
    (hhi : bit + g * S.geom.inodesPerGroup + 1 ≤ S.inodesCount) :
    Delivers (gotInode S (some mode) g b bitmap bit) s fun ino t =>
      ino = bit + g * S.geom.inodesPerGroup + 1 ∧ t.Idle := by
  have hgroup : (bit + g * S.geom.inodesPerGroup + 1 - 1) / S.geom.inodesPerGroup = g := by
    rw [Nat.add_sub_cancel, Nat.add_mul_div_right _ _ (by omega), Nat.div_eq_of_lt hbit, Nat.zero_add]
  have hfree : update locked b true bitmap = false := by rw [update_of_ne hne, hidle]
  apply ends_bind
  apply ends_modify
  refine delivers_of_ok (brelse_locked hlocked hfree) ?_
  refine ends_ite (fun hbad => absurd hbad (by omega)) fun _ => ?_
  apply ends_bind
  apply ends_modify
  refine delivers_of_ok (brelse_locked rfl (hidle b)) ?_
  refine Delivers.bind (initInode_delivers hidle (by rw [hgroup]; exact hg) hlo hhi) fun _ t ht => ?_
  exact ends_pure ⟨rfl, ht⟩

/-- The bit that the search of the first group's bitmap finds. -/
def firstGroupBit (S : Ext2Super) (s : Ext2Disk) : Option ℕ :=
  findInode (s.view S 0).inodeBits S.geom.inodesPerGroup (S.geom.inodesPerGroup + 1) 0

/-- A call that returns with every buffer released took its inode from the first group. -/
theorem ialloc_first_group (h : ialloc S mode s = .ok ino t) (hidle : t.Idle) :
    mode ≠ none ∧ ∃ bit, firstGroupBit S s = some bit ∧ S.firstIno ≤ bit + 1 ∧ bit + 1 ≤ S.inodesCount := by
  obtain ⟨⟨g, b, bitmap, bit⟩, u, hsearch, hgot⟩ := bind_eq_ok.mp h
  obtain ⟨b₀, v, hload, hsearch⟩ := bind_eq_ok.mp hsearch
  obtain ⟨_, w, hrelse, hsearch⟩ := bind_eq_ok.mp hsearch
  cases hrelse
  obtain ⟨bitmap₀, x, hread, hsearch⟩ := bind_eq_ok.mp hsearch
  obtain ⟨-, rfl, hsv, hptr⟩ := loadGroupDesc_ok hload
  obtain ⟨-, hvx, hbitmap⟩ := readBitmap_ok hread
  have hbits : bitAt (x.blocks bitmap₀) = (s.view S 0).inodeBits := by
    rw [hvx.blocks, hsv.blocks, hbitmap hptr, hsv.field]
    rfl
  rw [exec_get_bind, hbits] at hsearch
  generalize hfind : findInode _ _ _ _ = found at hsearch
  cases found with
  | some _ =>
    cases hsearch
    have haddr : bitmap = u.addr S (.inodeBitmap 0) := (hbitmap hptr).trans (hvx.field ..).symm
    obtain ⟨hlo, hhi, ⟨m, rfl, -⟩, -⟩ := gotInode_ok haddr (findInode_some hfind).1 hgot
    rw [Nat.zero_mul] at hlo hhi
    exact ⟨Option.some_ne_none m, bit, hfind, hlo, hhi⟩
  | none =>
    -- nothing releases the first group's descriptor block any more
    have hstuck : v.locked (S.descOf 0) = true := by rw [hsv.locked, update_self]
    have hne := ne_of_locked hstuck hvx.unlocked
    obtain ⟨-, rfl, -, haddr, hbit, -, hkept⟩ := searchInodeGroups_ok hsearch
    obtain ⟨hu, hb, hm⟩ := hkept _ (by rw [hvx.locked, update_of_ne hne, hstuck]) (by simpa using hne.symm)
    have hlast := (gotInode_ok haddr hbit hgot).2.2.2 _ hb hm hu
    rw [hidle] at hlast
    cases hlast

/-- `ext2_ialloc` returns an inode whose bit was clear, with this bit set and no other bit of a
bitmap changed, and leaves no buffer locked. -/
def FindsInode (S : Ext2Super) (mode : Option ℕ) (s : Ext2Disk) : Prop :=
  ∃ g bit t, ialloc S mode s = .ok (bit + g * S.geom.inodesPerGroup + 1) t ∧ g < S.geom.groupsCount ∧
    bit < S.geom.inodesPerGroup ∧ (s.view S g).inodeBits bit = false ∧
    (t.view S g).inodeBits = update (s.view S g).inodeBits bit true ∧
    (t.view S g).blockBits = (s.view S g).blockBits ∧
    (∀ h < S.geom.groupsCount, h ≠ g → t.view S h = s.view S h) ∧ t.Idle

/-- The search ends in the first group, with its descriptor block and its bitmap locked. -/
theorem searchInodeGroups_first (hl : s.Layout S) (hidle : s.Idle) (hbit : firstGroupBit S s = some bit) :
    Delivers (searchInodeGroups S S.geom.groupsCount none 0) s fun r u =>
      r = (0, S.descOf 0, s.addr S (.inodeBitmap 0), bit) ∧
        u.locked = update (update s.locked (S.descOf 0) true) (s.addr S (.inodeBitmap 0)) true := by
  have hpos := groupsCount_pos S
  obtain ⟨n, hn⟩ := Nat.exists_eq_succ_of_ne_zero hpos.ne'
  have hne : s.addr S (.inodeBitmap 0) ≠ S.descOf 0 := hl.inodeBitmap_desc 0 0 hpos hpos
  have hfree : update s.locked (S.descOf 0) true (s.addr S (.inodeBitmap 0)) = false := by
    rw [update_of_ne hne, hidle]
  rw [hn]
  refine delivers_of_ok (loadGroupDesc_unlocked hpos (hidle _)) ?_
  refine delivers_of_ok (exec_pure () _) ?_
  refine delivers_of_ok (readBitmap_unlocked hpos (update_self _ _ _) hfree) ?_
  apply ends_get
  generalize hfind : findInode _ _ _ _ = found
  obtain rfl : found = some bit := hfind.symm.trans hbit
  exact ends_pure ⟨rfl, rfl⟩

/-- The first group without a free inode. -/
def firstGroupFull : Ext2Disk :=
  twoGroupsDisk.setBlock (twoGroupsDisk.addr twoGroups (.inodeBitmap 0)) fun _ => 0xff

namespace BlockRun

/-- The number of the run's first block. -/
def block (S : Ext2Super) (r : BlockRun) : ℕ := r.first + S.geom.groupFirstBlockNo r.group

/-- The run is outside of its group's own blocks, as far as the code tests it, and within the
device. -/
def Placed (S : Ext2Super) (s : Ext2Disk) (r : BlockRun) : Prop :=
  ¬ s.InSystemZone S (S.descOf r.group) (S.table.offset r.group) (r.block S) r.num ∧
    r.block S + r.num - 1 < S.geom.blocksCount

theorem placed_congr (h : t.blocks = s.blocks) : r.Placed S t ↔ r.Placed S s := by
  simp only [Placed, InSystemZone, descField, h]

end BlockRun

/-- The tests of the code see the group's descriptor, whatever is in its bitmap. -/
theorem inSystemZone_setBlock {block : ℕ} {data : Block} (hne : bitmap ≠ S.descOf g) :
    (s.setBlock bitmap data).InSystemZone S (S.descOf g) (S.table.offset g) block num ↔
      s.InSystemZone S (S.descOf g) (S.table.offset g) block num := by
  have hfield : ∀ off w, (s.setBlock bitmap data).descField (S.descOf g) (S.table.offset g) off w =
      s.descField (S.descOf g) (S.table.offset g) off w := fun off w => field_setBlock_ne hne
  simp only [InSystemZone, hfield]

theorem groupAdjustBlocks_delivers {count : ℤ} :
    Delivers (groupAdjustBlocks b n count) s fun _ t => t.locked = s.locked := by
  refine ends_ite (fun _ => ends_pure rfl) fun _ => ?_
  apply ends_modify
  rfl

/-- A run that is placed is handed out, and both buffers are released. -/
theorem allocatedRun_delivers
    (hlocked : s.locked = update (update locked (S.descOf r.group) true) bitmap true)
    (hidle : ∀ c, locked c = false) (hne : bitmap ≠ S.descOf r.group) (hr : r.Placed S s) :
    Delivers (allocatedRun S bitmap (S.descOf r.group) r.group r.first r.num) s fun b t =>
      b = some (r.block S) ∧ t.Idle := by
  have hswap : s.locked = update (update locked bitmap true) (S.descOf r.group) true := by
    rw [hlocked, update_comm hne]
  have hfree : update locked bitmap true (S.descOf r.group) = false := by
    rw [update_of_ne hne.symm, hidle]
  apply ends_bind
  apply ends_modify
  apply ends_get
  refine ends_ite (fun hzone => absurd ((inSystemZone_setBlock hne).mp hzone) hr.1) fun _ => ?_
  refine ends_ite (fun hout => absurd hr.2 (Nat.not_lt.mpr hout)) fun _ => ?_
  refine Delivers.bind groupAdjustBlocks_delivers fun _ u hu => ?_
  refine delivers_of_ok (brelse_locked (hu.trans hswap) hfree) ?_
  refine delivers_of_ok (brelse_locked rfl (hidle bitmap)) ?_
  exact ends_pure ⟨rfl, hidle⟩

/-- A run that is handed out is placed. -/
theorem allocatedRun_placed (hne : bitmap ≠ S.descOf r.group)
    (h : allocatedRun S bitmap (S.descOf r.group) r.group r.first r.num s = .ok res t) : r.Placed S s := by
  obtain ⟨hzone, hin, -⟩ := allocatedRun_ok h
  exact ⟨fun hz => hzone ((inSystemZone_setBlock hne).mpr hz), hin⟩

/-- With a bitmap in hand the search of the other groups hands out the run of the first one with a
free block. -/
theorem searchOtherGroups_delivers {h : ℕ} {ptr : ℕ → Option ℕ} (hl : s.Layout S)
    (hidle : ∀ c, locked c = false) (hg : g < S.geom.groupsCount) (hh : h < S.geom.groupsCount)
    (hrun : otherRun S s num n g = some r) (hplaced : r.Placed S s) :
    Delivers (searchOtherGroups S (some (s.addr S (.blockBitmap h))) num n g (S.descOf g))
      { s with
        locked := update (update locked (S.descOf g) true) (s.addr S (.blockBitmap h)) true
        groupDesc := ptr } fun res t => res = some (r.block S) ∧ t.Idle := by
  induction n generalizing num g h ptr with
  | zero => cases hrun
  | succ n ih =>
    have hg' := nextGroup_lt (S := S) g
    have hne : ∀ a c, a < S.geom.groupsCount → c < S.geom.groupsCount → s.addr S (.blockBitmap a) ≠
      S.descOf c :=
      hl.blockBitmap_desc
    have hfree : update locked (s.addr S (.blockBitmap h)) true (S.descOf g) = false := by
      rw [update_of_ne (hne h g hh hg).symm, hidle]
    have hfree' : update locked (s.addr S (.blockBitmap h)) true (S.descOf (S.geom.nextGroup g)) = false := by
      rw [update_of_ne (hne h _ hh hg').symm, hidle]
    have hbitmap : update locked (S.descOf (S.geom.nextGroup g)) true (s.addr S (.blockBitmap h)) =
      false := by
      rw [update_of_ne (hne h _ hh hg'), hidle]
    have hbitmap' : update locked (S.descOf (S.geom.nextGroup g)) true
        (s.addr S (.blockBitmap (S.geom.nextGroup g))) = false := by
      rw [update_of_ne (hne _ _ hg' hg'), hidle]
    refine delivers_of_ok (brelse_locked (update_comm (hne h g hh hg).symm _ _ _) hfree) ?_
    refine delivers_of_ok (loadGroupDesc_unlocked hg' hfree') ?_
    apply ends_get
    rw [otherRun] at hrun
    refine ends_ite (fun hzero => ?_) fun hpos => ?_
    · rw [if_pos (by exact hzero)] at hrun
      rw [update_comm (hne h _ hh hg')]
      exact ih hg' hh hrun
    · rw [if_neg (by exact hpos)] at hrun
      refine delivers_of_ok (brelse_locked (update_comm (hne h _ hh hg') _ _ _) hbitmap) ?_
      refine delivers_of_ok (readBitmap_unlocked hg' (update_self _ _ _) hbitmap') ?_
      apply ends_get
      generalize htry : tryToAllocate _ _ _ _ = claim
      generalize hpick : tryToAllocate _ _ _ _ = claim' at hrun
      obtain rfl : claim = claim' := htry.symm.trans hpick
      obtain ⟨_ | first, num, bits⟩ := claim
      · exact ih hg' hg' hrun
      · cases hrun
        exact allocatedRun_delivers (r := ⟨S.geom.nextGroup g, first, num⟩) rfl hidle
          (hne _ _ hg' hg') hplaced

/-! ### The run -/

/-- The counters of free blocks are the numbers of clear bits. -/
def BlocksBalanced (S : Ext2Super) (s : Ext2Disk) : Prop :=
  ∀ g < S.geom.groupsCount, (s.view S g).freeBlocks = clearBits (s.view S g).blockBits S.geom.blocksPerGroup

theorem nextGroup_eq (hg : g < S.geom.groupsCount) : S.geom.nextGroup g = (g + 1) % S.geom.groupsCount := by
  unfold Ext2Geom.nextGroup
  split
  · rw [show g + 1 = S.geom.groupsCount by omega, Nat.mod_self]
  · rw [Nat.mod_eq_of_lt (by omega)]

/-- Where nothing is taken, the groups have no free block. -/
theorem otherRun_none (hbal : s.BlocksBalanced S) (hg : g < S.geom.groupsCount)
    (h : otherRun S s num n g = none) {i : ℕ} (hi : i < n) :
    (s.view S ((g + i + 1) % S.geom.groupsCount)).freeBlocks = 0 := by
  induction n generalizing num g i with
  | zero => omega
  | succ n ih =>
    have hlt := nextGroup_lt (S := S) g
    -- the next group is full, and so are the groups behind it
    have hstep (hzero : (s.view S (S.geom.nextGroup g)).freeBlocks = 0) {num : ℕ}
        (hrest : otherRun S s num n (S.geom.nextGroup g) = none) :
        (s.view S ((g + i + 1) % S.geom.groupsCount)).freeBlocks = 0 := by
      cases i with
      | zero =>
        rw [nextGroup_eq hg] at hzero
        exact hzero
      | succ i =>
        have hi' := ih hlt hrest (i := i) (by omega)
        rw [nextGroup_eq hg, show (g + 1) % S.geom.groupsCount + i + 1 =
          (g + 1) % S.geom.groupsCount + (i + 1) by omega,
          Nat.mod_add_mod, show g + 1 + (i + 1) = g + (i + 1) + 1 by omega] at hi'
        exact hi'
    rw [otherRun] at h
    split at h
    · next hzero => exact hstep hzero h
    · next hpos =>
      generalize htry : tryToAllocate _ _ _ _ = claim at h
      obtain ⟨_ | first, num, bits⟩ := claim
      · rw [hbal _ hlt] at hpos
        obtain ⟨j, hj, hclear⟩ := Nat.count_ne_iff_exists.mp hpos
        rw [tryToAllocate_none_none htry j hj] at hclear
        cases hclear
      · cases h

variable {goal count : ℕ}

/-- With a free block in the goal's group there is a run to take: the search comes back to this
group at its end. -/
theorem pickRun_some (count : ℕ) (hbal : s.BlocksBalanced S)
    (hfree : (s.view S (goalGroup S goal)).freeBlocks ≠ 0) :
    ∃ r, pickRun S s goal count = some r := by
  by_contra hnone
  rw [← Option.isSome_iff_exists, Option.not_isSome_iff_eq_none, pickRun] at hnone
  generalize htry : tryToAllocate _ _ _ _ = claim at hnone
  obtain ⟨_ | first, num, bits⟩ := claim
  · have hpos := groupsCount_pos S
    have hlast := otherRun_none hbal goalGroup_lt hnone (i := S.geom.groupsCount - 1) (by omega)
    rw [show goalGroup S goal + (S.geom.groupsCount - 1) + 1 = goalGroup S goal + S.geom.groupsCount by omega,
      Nat.add_mod_right, Nat.mod_eq_of_lt goalGroup_lt] at hlast
    exact hfree hlast
  · cases hnone

/-! ### The call -/

/-- With a free block in the goal's group, a run that is placed is handed out, and every buffer is
released. -/
theorem newBlocks_delivers (hl : s.Layout S) (hidle : s.Idle)
    (hfree : (s.view S (goalGroup S goal)).freeBlocks ≠ 0) (hrun : pickRun S s goal count = some r)
    (hplaced : r.Placed S s) :
    Delivers (newBlocks S goal count) s fun res t => res = some (r.block S) ∧ t.Idle := by
  have hg : goalGroup S goal < S.geom.groupsCount := goalGroup_lt
  have hne : s.addr S (.blockBitmap (goalGroup S goal)) ≠ S.descOf (goalGroup S goal) :=
    hl.blockBitmap_desc _ _ hg hg
  have hbitmap : update s.locked (S.descOf (goalGroup S goal)) true
      (s.addr S (.blockBitmap (goalGroup S goal))) = false := by
    rw [update_of_ne hne, hidle]
  refine delivers_of_ok (loadGroupDesc_unlocked hg (hidle _)) ?_
  apply ends_get
  refine ends_ite (fun hzero => absurd hzero hfree) fun _ => ?_
  refine delivers_of_ok (readBitmap_unlocked hg (update_self _ _ _) hbitmap) ?_
  apply ends_get
  unfold pickRun at hrun
  generalize htry : tryToAllocate _ _ _ _ = claim
  generalize hpick : tryToAllocate _ _ _ _ = claim' at hrun
  obtain rfl : claim = claim' := htry.symm.trans hpick
  obtain ⟨_ | first, num, bits⟩ := claim
  · exact searchOtherGroups_delivers (s := s) hl hidle hg hg hrun hplaced
  · cases hrun
    exact allocatedRun_delivers (r := ⟨goalGroup S goal, first, num⟩) rfl hidle hne hplaced

/-- A call that returns found a free block in the goal's group and took a run that is placed. -/
theorem newBlocks_placed (hl : s.Layout S) (h : newBlocks S goal count s = .ok res t) :
    (s.view S (goalGroup S goal)).freeBlocks ≠ 0 ∧ ∀ r ∈ pickRun S s goal count, r.Placed S s := by
  obtain ⟨hfree, hhands⟩ := newBlocks_ok h
  refine ⟨hfree, fun r hr => ?_⟩
  have hg := (pickRun_clear hr).group_lt
  rw [show pickRun S s goal count = some r from hr] at hhands
  obtain ⟨y, hsy, h⟩ := hhands
  exact (BlockRun.placed_congr hsy.blocks).mp (allocatedRun_placed (hl.blockBitmap_desc _ _ hg hg) h)

/-- A data block of the device whose bit is clear. -/
def FreeBlock (S : Ext2Super) (s : Ext2Disk) (b : ℕ) : Prop :=
  S.geom.firstDataBlock ≤ b ∧ b < S.geom.blocksCount ∧
    (s.view S (S.geom.groupOf b)).blockBits (S.geom.bitOf b) = false

/-- `ext2_new_blocks` returns a free block when a group has one, and no block otherwise, and leaves
no buffer locked. -/
def FindsBlock (S : Ext2Super) (goal count : ℕ) (s : Ext2Disk) : Prop :=
  ((∃ g < S.geom.groupsCount, ∃ i < S.geom.blocksPerGroup, (s.view S g).blockBits i = false) →
    ∃ b t, newBlocks S goal count s = .ok (some b) t ∧ s.FreeBlock S b ∧ t.Idle) ∧
  (¬ (∃ g < S.geom.groupsCount, ∃ i < S.geom.blocksPerGroup, (s.view S g).blockBits i = false) →
    ∃ t, newBlocks S goal count s = .ok none t ∧ t.Idle)

theorem BlockRun.Clear.freeBlock (h : r.Clear S s) (hplaced : r.Placed S s) : s.FreeBlock S (r.block S) := by
  have hpos := h.pos
  have hlt := hplaced.2
  obtain ⟨hfirst, hclear⟩ : r.first < S.geom.blocksPerGroup ∧ _ := h.run 0 hpos
  refine ⟨?_, by omega, ?_⟩
  · unfold BlockRun.block Ext2Geom.groupFirstBlockNo
    omega
  · rw [BlockRun.block, S.geom.groupOf_eq hfirst, S.geom.bitOf_eq hfirst]
    exact hclear

/-- The first group without a free block. -/
def firstGroupUsed : Ext2Disk :=
  (twoGroupsDisk.setBlock (twoGroupsDisk.addr twoGroups (.blockBitmap 0))
    fun _ => 0xff).setDescField (twoGroups.descOf 0)
    (twoGroups.table.offset 0) 12 2 0

end Ext2Disk

end Xv6
