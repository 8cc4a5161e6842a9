import Xv6.Lib.Bytes
import Mathlib.Order.Interval.Set.Disjoint
import Mathlib.Data.Set.Lattice
import Mathlib.Order.CompletePartialOrder

/-!
# Block addresses on the SD card

`sd_read_ext2` and `sd_write_ext2` of `kernel/sd.c` turn a block number into a byte offset of the
card, and `ext2_readsb` of `kernel/ext2.c` decides which superblocks they are used with. The offset
is computed in 32 bits, with blocks of 1024 bytes whatever the superblock says.

For any other block size `ext2_readsb` reads the superblock a second time, 1024 bytes into a buffer
of 1024 bytes: what lies behind the buffer in memory is then taken for the superblock. A transfer
itself is taken to succeed.
-/

namespace Xv6.Sd

open Lib

/-- `SDCARD`. -/
abbrev sdcard : ℕ := 7

/-- `DSIZE` and `EXT2_DEFAULT_BLOCK_SIZE`. -/
abbrev dsize : ℕ := 1024

/-- `struct partition_info` of `ptinfo[1]`: the first sector and the number of sectors. -/
structure PartitionInfo where
  lba : UInt32
  nsecs : UInt32

/-- The card: whether it takes sector numbers (`card_supports_sdhc`), and its bytes. -/
structure Card where
  sdhc : Bool
  bytes : Bytes

/-- The argument of the card command in `emmc_do_data_command` for a transfer at `offset`. -/
def commandArgument (sdhc : Bool) (offset : UInt64) : UInt32 :=
  let blockno := (offset / 512).toUInt32
  if sdhc then blockno else blockno * 512

/-- The first byte that the card transfers. -/
def firstByte (sdhc : Bool) (argument : UInt32) : ℕ := if sdhc then argument.toNat * 512 else argument.toNat

/-- `emmc_read`. -/
def emmcRead (card : Card) (offset : UInt64) (cnt : ℕ) : Option (List UInt8) :=
  if offset % 512 ≠ 0 then none
  else some (slice card.bytes (firstByte card.sdhc (commandArgument card.sdhc offset)) cnt)

/-- `emmc_write`. -/
def emmcWrite (card : Card) (offset : UInt64) (buf : Bytes) (cnt : ℕ) : Option Card :=
  if offset % 512 ≠ 0 then none
  else some { card with bytes := blit card.bytes (firstByte card.sdhc (commandArgument card.sdhc offset)) cnt buf }

/-- `(uint64_t)(ext2_offset + blockno * EXT2_DEFAULT_BLOCK_SIZE)`. -/
def ext2Offset (p : PartitionInfo) (blockno : UInt32) : UInt64 := (p.lba * 512 + blockno * 1024).toUInt64

/-- `sd_read_ext2`. -/
def sdReadExt2 (card : Card) (p : PartitionInfo) (dev : ℕ) (blockno : UInt32) : Option (List UInt8) :=
  if dev ≠ sdcard then none else emmcRead card (ext2Offset p blockno) dsize

/-- `sd_write_ext2`. -/
def sdWriteExt2 (card : Card) (p : PartitionInfo) (dev : ℕ) (blockno : UInt32) (buf : Bytes) : Option Card :=
  if dev ≠ sdcard then none else emmcWrite card (ext2Offset p blockno) buf dsize

/-! ### The superblock -/

/-- The fields of `struct ext2_superblock` that `ext2_readsb` reads. -/
structure Ext2Superblock where
  blocksCount : UInt32
  firstDataBlock : UInt32
  logBlockSize : UInt32
  blocksPerGroup : UInt32
  inodesPerGroup : UInt32
  magic : UInt16
  revLevel : UInt32
  firstIno : UInt32
  inodeSize : UInt16
  deriving DecidableEq

/-- The superblock in memory. -/
def getSuper (b : Bytes) : Ext2Superblock where
  blocksCount := UInt32.ofNat (getLe b 4 4)
  firstDataBlock := UInt32.ofNat (getLe b 20 4)
  logBlockSize := UInt32.ofNat (getLe b 24 4)
  blocksPerGroup := UInt32.ofNat (getLe b 32 4)
  inodesPerGroup := UInt32.ofNat (getLe b 40 4)
  magic := UInt16.ofNat (getLe b 56 2)
  revLevel := UInt32.ofNat (getLe b 76 4)
  firstIno := UInt32.ofNat (getLe b 84 4)
  inodeSize := UInt16.ofNat (getLe b 88 2)

/-- `struct superblock` and `struct ext2_sb_info` after the mount. -/
structure SbInfo where
  blocksize : UInt32
  es : Ext2Superblock
  inodeSize : UInt32
  firstIno : UInt32
  inodesPerBlock : UInt64
  itbPerGroup : UInt64
  descPerBlock : UInt64
  groupsCount : UInt64
  gdbCount : Int32
  deriving DecidableEq

/-- The 64-bit division of the processor: by zero it yields all ones. -/
def divu (a b : UInt64) : UInt64 := if b = 0 then 0xFFFFFFFFFFFFFFFF else a / b

/-- The 32-bit division. -/
def divuw (a b : UInt32) : UInt32 := if b = 0 then 0xFFFFFFFF else a / b

/-- The 32-bit remainder: by zero it yields the dividend. -/
def remuw (a b : UInt32) : UInt32 := if b = 0 then a else a % b

/-- The memory from a buffer's data on behind `bread`, which does not look at the result of
`sd_read_ext2`. -/
def bread (card : Card) (p : PartitionInfo) (blockno : UInt32) (memory : Bytes) : Bytes :=
  match sdReadExt2 card p sdcard blockno with
  | some data => blit memory 0 dsize fun i => data.getD i 0
  | none => memory

/-- `EXT2_SUPER_MAGIC`. -/
abbrev ext2SuperMagic : UInt16 := 0xEF53

/-- `EXT2_MAX_BGC`. -/
abbrev ext2MaxBgc : Int32 := 40

/-- The reads of `ext2_readsb`: the block size and the superblock. The two memories are what lies at
and behind the data of the buffers that its two `bread`s get. -/
def readSuper (card : Card) (p : PartitionInfo) (memory memory' : Bytes) :
    Except String (UInt32 × Ext2Superblock) := do
  let es := getSuper (bread card p 1 memory)
  if es.magic ≠ ext2SuperMagic then throw "Try to mount a non ext2 fs as an ext2 fs"
  let blocksize : UInt32 := 1024 <<< es.logBlockSize
  if 1024 ≠ blocksize then
    let logicSbBlock := divuw 1024 blocksize
    let offset := remuw 1024 blocksize
    let data := bread card p logicSbBlock memory'
    let es := getSuper fun i => data (offset.toNat + i)
    if es.magic ≠ ext2SuperMagic then throw "error: ext2 magic mismatch"
    pure (blocksize, es)
  else pure (blocksize, es)

/-- The checks of `ext2_readsb` and what it keeps. -/
def fillSbInfo (blocksize : UInt32) (es : Ext2Superblock) : Except String SbInfo := do
  let inodeSize := if es.revLevel = 0 then 128 else es.inodeSize.toUInt32
  let firstIno := if es.revLevel = 0 then 11 else es.firstIno
  let inodesPerBlock := (divuw blocksize inodeSize).toUInt64
  let itbPerGroup := divu es.inodesPerGroup.toUInt64 inodesPerBlock
  let descPerBlock := blocksize.toUInt64 / 32
  if es.blocksPerGroup.toUInt64 > (blocksize * 8).toUInt64 then throw "error: #blocks per group too big"
  if es.inodesPerGroup.toUInt64 > (blocksize * 8).toUInt64 then throw "error: #inodes per group too big"
  let groupsCount := divu (es.blocksCount - es.firstDataBlock - 1).toUInt64 es.blocksPerGroup.toUInt64 + 1
  let dbCount := (divu (groupsCount + descPerBlock - 1) descPerBlock).toUInt32.toInt32
  if dbCount > ext2MaxBgc then
    throw "error: not enough memory to storage s_group_desc. Consider change the EXT2_MAX_BGC constant"
  pure ⟨blocksize, es, inodeSize, firstIno, inodesPerBlock, itbPerGroup, descPerBlock, groupsCount, dbCount⟩

/-- `ext2_readsb`. -/
def ext2Readsb (card : Card) (p : PartitionInfo) (memory memory' : Bytes) : Except String SbInfo := do
  let (blocksize, es) ← readSuper card p memory memory'
  fillSbInfo blocksize es

/-! ### Where a block lies -/

/-- The bytes of the card that a transfer of block `blockno` touches. -/
def accessed (card : Card) (p : PartitionInfo) (blockno : UInt32) : Set ℕ :=
  let first := firstByte card.sdhc (commandArgument card.sdhc (ext2Offset p blockno))
  Set.Ico first (first + dsize)

theorem ext2Offset_toNat (p : PartitionInfo) (blockno : UInt32) :
    (ext2Offset p blockno).toNat = (p.lba.toNat * 512 + blockno.toNat * 1024) % 2 ^ 32 := by
  simp [ext2Offset]

/-- Whatever addresses the card takes, the transfer starts at the offset. -/
theorem firstByte_ext2Offset (sdhc : Bool) (p : PartitionInfo) (blockno : UInt32) :
    firstByte sdhc (commandArgument sdhc (ext2Offset p blockno)) =
      (p.lba.toNat * 512 + blockno.toNat * 1024) % 2 ^ 32 := by
  have hsector : (ext2Offset p blockno / 512).toUInt32.toNat =
    (p.lba.toNat * 512 + blockno.toNat * 1024) % 2 ^ 32 / 512 := by
    rw [UInt64.toNat_toUInt32, UInt64.toNat_div, ext2Offset_toNat]
    change _ / 512 % 2 ^ 32 = _
    omega
  unfold firstByte commandArgument
  cases sdhc with
  | true =>
    simp only [if_true]
    omega
  | false =>
    simp only [Bool.false_eq_true, if_false]
    rw [UInt32.toNat_mul, hsector]
    change _ * 512 % 2 ^ 32 = _
    omega

theorem accessed_eq (card : Card) (p : PartitionInfo) (blockno : UInt32) :
    accessed card p blockno = Set.Ico ((p.lba.toNat * 512 + blockno.toNat * 1024) % 2 ^ 32)
      ((p.lba.toNat * 512 + blockno.toNat * 1024) % 2 ^ 32 + 1024) := by
  simp only [accessed, firstByte_ext2Offset]

/-- Every block below the number of blocks is exactly its own range of the card, apart from every
other block and inside the partition. -/
structure Addressed (card : Card) (p : PartitionInfo) (sb : SbInfo) : Prop where
  exact : ∀ blockno < sb.es.blocksCount, accessed card p blockno =
    Set.Ico (p.lba.toNat * 512 + blockno.toNat * sb.blocksize.toNat)
      (p.lba.toNat * 512 + blockno.toNat * sb.blocksize.toNat + sb.blocksize.toNat)
  apart : ∀ blockno < sb.es.blocksCount, ∀ blockno' < sb.es.blocksCount, blockno ≠ blockno' →
    Disjoint (accessed card p blockno) (accessed card p blockno')
  inside : ∀ blockno < sb.es.blocksCount, accessed card p blockno ⊆
    Set.Ico (p.lba.toNat * 512) ((p.lba.toNat + p.nsecs.toNat) * 512)

/-- With blocks of 1024 bytes, all of them below the 32-bit limit and in the partition. -/
theorem addressed_iff {card : Card} {p : PartitionInfo} {sb : SbInfo} (hpos : sb.es.blocksCount ≠ 0) :
    Addressed card p sb ↔
      sb.blocksize = 1024 ∧ p.lba.toNat * 512 + (sb.es.blocksCount.toNat - 1) * 1024 < 2 ^ 32 ∧
        sb.es.blocksCount.toNat * 1024 ≤ p.nsecs.toNat * 512 := by
  have hcount : 0 < sb.es.blocksCount.toNat := by
    rw [Nat.pos_iff_ne_zero]
    exact fun h => hpos (UInt32.toNat_inj.mp h)
  constructor
  · intro h
    -- The last block shows the size and the limits.
    have hlast : (sb.es.blocksCount - 1).toNat = sb.es.blocksCount.toNat - 1 :=
      UInt32.toNat_sub_of_le _ _ (UInt32.le_iff_toNat_le.mpr hcount)
    have hlt : sb.es.blocksCount - 1 < sb.es.blocksCount := by
      rw [UInt32.lt_iff_toNat_lt, hlast]
      omega
    have hexact := h.exact _ hlt
    have hinside := h.inside _ hlt
    rw [accessed_eq, hlast] at hexact hinside
    have hle := (Set.Ico_subset_Ico_iff (by omega)).mp hexact.subset
    have hge := (Set.Ico_subset_Ico_iff (by omega)).mp hexact.superset
    have hsize : sb.blocksize.toNat = 1024 := by omega
    have hfirst := Nat.le_antisymm hge.1 hle.1
    rw [hsize] at hfirst
    have hbound := ((Set.Ico_subset_Ico_iff (by omega)).mp hinside).2
    refine ⟨UInt32.toNat_inj.mp hsize, ?_, ?_⟩
    · rw [← hfirst]
      exact Nat.mod_lt _ (by decide)
    · omega
  · rintro ⟨hsize, hlow, hroom⟩
    have hblock : ∀ blockno < sb.es.blocksCount, accessed card p blockno =
        Set.Ico (p.lba.toNat * 512 + blockno.toNat * 1024)
          (p.lba.toNat * 512 + blockno.toNat * 1024 + 1024) := by
      intro blockno hlt
      have hlt := UInt32.lt_iff_toNat_lt.mp hlt
      have hle : blockno.toNat * 1024 ≤ (sb.es.blocksCount.toNat - 1) * 1024 :=
        Nat.mul_le_mul_right _ (by omega)
      rw [accessed_eq, Nat.mod_eq_of_lt ((Nat.add_le_add_left hle _).trans_lt hlow)]
    refine ⟨fun blockno hlt => ?_, fun blockno hlt blockno' hlt' hne => ?_, fun blockno hlt => ?_⟩
    · rw [hblock blockno hlt, hsize]
      rfl
    · rw [hblock blockno hlt, hblock blockno' hlt', Set.Ico_disjoint_Ico]
      have hne : blockno.toNat ≠ blockno'.toNat := fun heq => hne (UInt32.toNat_inj.mp heq)
      omega
    · have hlt' := UInt32.lt_iff_toNat_lt.mp hlt
      rw [hblock blockno hlt]
      refine Set.Ico_subset_Ico (Nat.le_add_right _ _) ?_
      calc p.lba.toNat * 512 + blockno.toNat * 1024 + 1024 =
        p.lba.toNat * 512 + (blockno.toNat + 1) * 1024 := by ring
        _ ≤ p.lba.toNat * 512 + p.nsecs.toNat * 512 :=
          Nat.add_le_add_left ((Nat.mul_le_mul_right _ hlt').trans hroom) _
        _ = (p.lba.toNat + p.nsecs.toNat) * 512 := by ring

/-- The first superblock gives the block size, and with blocks of 1024 bytes it is the one that
counts. With any other size the memory behind the second buffer is taken for the superblock. -/
theorem readSuper_ok {card : Card} {p : PartitionInfo} {memory memory' : Bytes} {blocksize : UInt32}
    {es : Ext2Superblock}
    (h : readSuper card p memory memory' = .ok (blocksize, es)) :
    blocksize = 1024 <<< (getSuper (bread card p 1 memory)).logBlockSize ∧
      (blocksize = 1024 → es = getSuper (bread card p 1 memory)) := by
  simp only [readSuper, pure] at h
  split at h
  · cases h
  · split at h
    · rename_i hother
      split at h
      · cases h
      · obtain ⟨hsize, -⟩ := Prod.mk.inj (Except.ok.inj h)
        exact ⟨hsize.symm, fun heq => absurd (hsize.trans heq).symm hother⟩
    · obtain ⟨hsize, hes⟩ := Prod.mk.inj (Except.ok.inj h)
      exact ⟨hsize.symm, fun _ => hes.symm⟩

theorem fillSbInfo_ok {blocksize : UInt32} {es : Ext2Superblock} {sb : SbInfo}
    (h : fillSbInfo blocksize es = .ok sb) :
    sb.blocksize = blocksize ∧ sb.es = es := by
  simp only [fillSbInfo, pure] at h
  split at h
  · cases h
  · split at h
    · cases h
    · split at h
      · cases h
      · cases h
        exact ⟨rfl, rfl⟩

/-- For every accepted superblock, the addresses are exact, apart and inside the partition exactly
when there is no block, or the blocks have 1024 bytes, the last one starts below 4 GiB, and the
partition holds them all. -/
theorem sd_ext2_addressed_iff {card : Card} {p : PartitionInfo} {memory memory' : Bytes} {sb : SbInfo}
    (haccepted : ext2Readsb card p memory memory' = .ok sb) :
    Addressed card p sb ↔ sb.es.blocksCount = 0 ∨
      let es := getSuper (bread card p 1 memory)
      (1024 : UInt32) <<< es.logBlockSize = 1024 ∧
        p.lba.toNat * 512 + (es.blocksCount.toNat - 1) * 1024 < 2 ^ 32 ∧
        es.blocksCount.toNat * 1024 ≤ p.nsecs.toNat * 512 := by
  obtain ⟨⟨blocksize, es⟩, hread, hfill⟩ : ∃ r, readSuper card p memory memory' = .ok r ∧
    fillSbInfo r.1 r.2 = .ok sb := by
    cases hread : readSuper card p memory memory' with
    | error e =>
      rw [ext2Readsb, hread] at haccepted
      cases haccepted
    | ok r =>
      rw [ext2Readsb, hread] at haccepted
      exact ⟨r, rfl, haccepted⟩
  obtain ⟨hblocksize, hfirst⟩ := readSuper_ok hread
  obtain ⟨hsize, hes⟩ := fillSbInfo_ok hfill
  by_cases hcount : sb.es.blocksCount = 0
  · simp only [hcount, true_or, iff_true]
    have hnone (b : UInt32) : ¬ b < sb.es.blocksCount := by
      rw [hcount]
      exact UInt32.not_lt_zero
    exact ⟨fun b hb => absurd hb (hnone b), fun b hb => absurd hb (hnone b), fun b hb => absurd hb (hnone b)⟩
  · rw [addressed_iff hcount, or_iff_right hcount, hsize, hes]
    dsimp only
    rw [← hblocksize]
    constructor
    · rintro ⟨hsize', h⟩
      rw [← hfirst hsize']
      exact ⟨hsize', h⟩
    · rintro ⟨hsize', h⟩
      rw [hfirst hsize']
      exact ⟨hsize', h⟩

/-- A card whose partition at `lba` holds the superblock of a file system with one group of 8192
blocks of 1024 bytes. -/
def formatted (lba : UInt32) : Card where
  sdhc := true
  bytes i :=
    let first := lba.toNat * 512 + 1024
    if i < first then 0
    else putLe (putLe (putLe (putLe
      (putLe (fun _ => 0) 4 4 8192) 20 4 1) 32 4 8192) 40 4 1024) 56 2 0xEF53 (i - first)

theorem exists_ok_of_any {r : Except String SbInfo} {accept : SbInfo → Bool}
    (h : r.toOption.any accept = true) :
    ∃ sb, r = .ok sb ∧ accept sb = true := by
  cases r with
  | error e => exact absurd h (by simp [Except.toOption])
  | ok sb => exact ⟨sb, rfl, h⟩

/-- The file system of 8 MiB in a partition of 8 MiB, one MiB into the card. -/
theorem sd_ext2_addressed_low : ∃ sb, ext2Readsb (formatted 2048) ⟨2048, 16384⟩ (fun _ => 0)
    (fun _ => 0) = .ok sb ∧
    sb.es.blocksCount = 8192 ∧ Addressed (formatted 2048) ⟨2048, 16384⟩ sb := by
  have hok : ((ext2Readsb (formatted 2048) ⟨2048, 16384⟩ (fun _ => 0) fun _ => 0).toOption.any
      fun sb => sb.es.blocksCount = 8192) = true := by decide +kernel
  obtain ⟨sb, haccepted, hcount⟩ := exists_ok_of_any hok
  exact ⟨sb, haccepted, of_decide_eq_true hcount,
    (sd_ext2_addressed_iff haccepted).mpr (.inr (by decide +kernel))⟩

/-- The same file system in a partition that starts 4096 bytes below 4 GiB: its block 4 is the first
kilobyte of the card, with the partition table. -/
theorem sd_ext2_wraps : ∃ sb, ext2Readsb (formatted 8388600) ⟨8388600, 16384⟩ (fun _ => 0)
    (fun _ => 0) = .ok sb ∧
    4 < sb.es.blocksCount ∧ accessed (formatted 8388600) ⟨8388600, 16384⟩ 4 = Set.Ico 0 1024 ∧
    ¬ Addressed (formatted 8388600) ⟨8388600, 16384⟩ sb := by
  have hok : ((ext2Readsb (formatted 8388600) ⟨8388600, 16384⟩ (fun _ => 0) fun _ => 0).toOption.any
      fun sb => 4 < sb.es.blocksCount) = true := by decide +kernel
  obtain ⟨sb, haccepted, hcount⟩ := exists_ok_of_any hok
  have hcount : 4 < sb.es.blocksCount := of_decide_eq_true hcount
  have hfour : accessed (formatted 8388600) ⟨8388600, 16384⟩ 4 = Set.Ico 0 1024 := accessed_eq _ _ _
  refine ⟨sb, haccepted, hcount, hfour, fun h => ?_⟩
  have hinside := h.inside 4 hcount
  rw [hfour] at hinside
  exact absurd (hinside (show 0 ∈ Set.Ico 0 1024 by simp)).1 (by decide)

end Xv6.Sd
