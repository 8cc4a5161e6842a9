import Mathlib.Data.List.Perm.Basic
import Xv6.Ext2.Dir
import Xv6.Lib.Tiling

/-!
# The records of a directory block

A directory block is tiled by records, each a multiple of four bytes long and long enough for its
own name. Every store of `ext2_dirlink` and `ext2_unlink` rewrites a run of adjacent records in
place, so one lemma about replacing the middle of a tiling serves for reusing a free record,
splitting a live one, starting a fresh block and merging a removed record into the one before it.
-/

namespace Xv6.Dir

open Lib

/-- A record is a multiple of four bytes long and has room for its name. -/
def Fits (d : Block) (p : ℕ) : Prop := 4 ∣ recLenAt d p ∧ dirRecLen (nameLenAt d p) ≤ recLenAt d p

instance (d : Block) (p : ℕ) : Decidable (Fits d p) := inferInstanceAs (Decidable (_ ∧ _))

/-- The records at the listed offsets fill the range from `o` to `stop`. -/
abbrev Tiled (d : Block) (o : ℕ) (ps : List ℕ) (stop : ℕ) : Prop := Tiles (recLenAt d) (Fits d) o ps stop

/-- The offsets of the records of a block. -/
def records (d : Block) : List ℕ := starts (recLenAt d) bsize (bsize + 1) 0

/-- The name and the inode number of a live record. -/
def liveAt (d : Block) (p : ℕ) : Option (List UInt8 × ℕ) :=
  if inodeAt d p = 0 then none else some (nameAt d p, inodeAt d p)

/-- The live entries of a block, in the order of their records. -/
def blockEntries (d : Block) : List (List UInt8 × ℕ) := (records d).filterMap (liveAt d)

theorem dirRecLen_dvd (n : ℕ) : 4 ∣ dirRecLen n := Dvd.intro_left _ rfl

theorem le_dirRecLen (n : ℕ) : n + 8 ≤ dirRecLen n := by
  unfold dirRecLen
  omega

theorem dirRecLen_le (n : ℕ) : dirRecLen n ≤ n + 11 := by
  unfold dirRecLen
  omega

variable {d : Block} {p : ℕ}

theorem Fits.name_le (h : Fits d p) : nameLenAt d p + 8 ≤ recLenAt d p :=
  (le_dirRecLen _).trans h.2

theorem Fits.pos (d : Block) (p : ℕ) (h : Fits d p) : 0 < recLenAt d p := by
  have := h.name_le
  omega

variable {ps : List ℕ}

theorem Tiled.records_eq (h : Tiled d 0 ps bsize) : records d = ps := by
  have hlength := h.length_le (Fits.pos d)
  exact h.starts_eq (Fits.pos d) (by omega)

theorem Tiled.blockEntries_eq (h : Tiled d 0 ps bsize) :
    blockEntries d = ps.filterMap (liveAt d) := by
  rw [blockEntries, h.records_eq]

theorem liveAt_eq_some_iff {i : ℕ} {name : List UInt8} :
    liveAt d p = some (name, i) ↔ inodeAt d p ≠ 0 ∧ nameAt d p = name ∧ inodeAt d p = i := by
  unfold liveAt
  split <;> simp_all

/-! ### Edits that leave a record alone -/

/-- Two blocks have the same record at an offset. -/
structure SameRecord (d e : Block) (p : ℕ) : Prop where
  inode : inodeAt e p = inodeAt d p
  recLen : recLenAt e p = recLenAt d p
  nameLen : nameLenAt e p = nameLenAt d p
  name : nameAt e p = nameAt d p

variable {e : Block}

/-- The inode and the name of a record, without its length. -/
theorem fields_congr (h : ∀ i, p ≤ i → i < p + 4 ∨ p + 6 ≤ i → i < p + 8 + nameLenAt d p → e i = d i) :
    inodeAt e p = inodeAt d p ∧ nameLenAt e p = nameLenAt d p ∧ nameAt e p = nameAt d p := by
  have hlen : nameLenAt e p = nameLenAt d p := getLe_congr fun i hlo hhi =>
    h i (by omega) (by omega) (by omega)
  refine ⟨getLe_congr fun i hlo hhi => h i hlo (by omega) (by omega), hlen, ?_⟩
  rw [nameAt, nameAt, hlen]
  exact slice_congr fun i hi => h _ (by omega) (by omega) (by omega)

theorem sameRecord_of_bytes (hfits : Fits d p)
    (hbytes : ∀ i, p ≤ i → i < p + recLenAt d p → e i = d i) : SameRecord d e p := by
  have hname := hfits.name_le
  obtain ⟨hinode, hlen, hname⟩ := fields_congr fun i hlo _ hhi => hbytes i hlo (by omega)
  exact ⟨hinode, getLe_congr fun i hlo hhi => hbytes i (by omega) (by omega), hlen, hname⟩

theorem SameRecord.fits (h : SameRecord d e p) (hfits : Fits d p) : Fits e p := by
  unfold Fits at hfits ⊢
  rwa [h.recLen, h.nameLen]

theorem SameRecord.liveAt (h : SameRecord d e p) : liveAt e p = liveAt d p := by
  unfold Dir.liveAt
  rw [h.inode, h.name]

/-- A tiling survives an edit outside its range. -/
theorem Tiled.of_bytes {o stop : ℕ} (h : Tiled d o ps stop) (hbytes : ∀ i, o ≤ i → i < stop → e i = d i) :
    Tiled e o ps stop ∧ ps.filterMap (liveAt e) = ps.filterMap (liveAt d) := by
  have hsame : ∀ p ∈ ps, SameRecord d e p := by
    intro p hp
    obtain ⟨hlo, hhi⟩ := h.bounds hp
    exact sameRecord_of_bytes (h.ok_of_mem hp) fun i hi hi' => hbytes i (by omega) (by omega)
  refine ⟨h.congr fun p hp => ⟨(hsame p hp).recLen, (hsame p hp).fits⟩, ?_⟩
  exact List.filterMap_congr fun p hp => (hsame p hp).liveAt

/-- Replace the middle of a block. -/
theorem Tiled.edit {q : ℕ} {before middle after : List ℕ} (hbefore : Tiled d 0 before p)
    (hmiddle : Tiled e p middle q) (hafter : Tiled d q after bsize)
    (hbytes : ∀ i, i < p ∨ q ≤ i → e i = d i) :
    Tiled e 0 (before ++ (middle ++ after)) bsize ∧
      blockEntries e =
        before.filterMap (liveAt d) ++ (middle.filterMap (liveAt e) ++ after.filterMap (liveAt d)) := by
  obtain ⟨hbefore', hlive⟩ := hbefore.of_bytes fun i _ hi => hbytes i (.inl hi)
  obtain ⟨hafter', hlive'⟩ := hafter.of_bytes fun i hi _ => hbytes i (.inr hi)
  have htiled : Tiled e 0 (before ++ (middle ++ after)) bsize :=
    tiles_append.mpr ⟨p, hbefore', tiles_append.mpr ⟨q, hmiddle, hafter'⟩⟩
  refine ⟨htiled, ?_⟩
  rw [htiled.blockEntries_eq, List.filterMap_append, List.filterMap_append, hlive, hlive']

/-! ### Filling in a record -/

section writeRecord

variable {d : Block} {p inum fileType : ℕ} {name : List UInt8}

theorem writeRecord_of_outside {i : ℕ} (h : i < p ∨ p + 8 + name.length ≤ i) :
    writeRecord d p inum name fileType i = d i := by
  unfold writeRecord putBytes
  rw [putLe_of_outside (by omega), putLe_of_outside (by omega), blit_of_outside (by omega),
    putLe_of_outside (by omega)]

theorem recLenAt_writeRecord : recLenAt (writeRecord d p inum name fileType) p = recLenAt d p := by
  unfold recLenAt writeRecord putBytes
  rw [getLe_putLe_of_disjoint (by omega), getLe_putLe_of_disjoint (by omega),
    getLe_blit_of_disjoint (by omega),
    getLe_putLe_of_disjoint (by omega)]

theorem inodeAt_writeRecord (hinum : inum < 2 ^ 32) :
    inodeAt (writeRecord d p inum name fileType) p = inum := by
  unfold inodeAt writeRecord
  rw [getLe_putLe_of_disjoint (by omega), getLe_putLe_of_lt (by omega)]

section

variable (hname : name.length < 256)

include hname

theorem nameLenAt_writeRecord :
    nameLenAt (writeRecord d p inum name fileType) p = name.length := by
  unfold nameLenAt writeRecord putBytes
  rw [getLe_putLe_of_disjoint (by omega), getLe_putLe_of_disjoint (by omega),
    getLe_blit_of_disjoint (by omega),
    getLe_putLe_of_lt (by omega)]

theorem nameAt_writeRecord :
    nameAt (writeRecord d p inum name fileType) p = name := by
  rw [nameAt, nameLenAt_writeRecord hname]
  apply List.ext_getElem (by simp)
  intro i hi hi'
  simp only [slice, List.getElem_map, List.getElem_range]
  unfold writeRecord putBytes
  rw [putLe_of_outside (by omega), putLe_of_outside (by omega), blit_of_inside (by omega) (by omega)]
  simp [hi']

/-- The record that `ext2_dirlink` fills in is live under its name. -/
theorem liveAt_writeRecord (hzero : inum ≠ 0) (hinum : inum < 2 ^ 32) :
    liveAt (writeRecord d p inum name fileType) p = some (name, inum) := by
  rw [liveAt_eq_some_iff, inodeAt_writeRecord hinum, nameAt_writeRecord hname]
  exact ⟨hzero, rfl, rfl⟩

theorem fits_writeRecord (hdvd : 4 ∣ recLenAt d p)
    (hroom : dirRecLen name.length ≤ recLenAt d p) : Fits (writeRecord d p inum name fileType) p := by
  unfold Fits
  rw [recLenAt_writeRecord, nameLenAt_writeRecord hname]
  exact ⟨hdvd, hroom⟩

end

end writeRecord

/-! ### The edits of `ext2_dirlink` -/

/-- The test of the scan that found room in the record at `p`. -/
def HasRoom (d : Block) (p reclen : ℕ) : Prop :=
  inodeAt d p = 0 ∧ reclen ≤ recLenAt d p ∨ dirRecLen (nameLenAt d p) + reclen ≤ recLenAt d p

section gotIt

variable {d : Block} {p inum fileType : ℕ} {name : List UInt8} {ps : List ℕ}

/-- A free record is reused with the length it has. -/
theorem blockEntries_reuse (h : Tiled d 0 ps bsize) (hp : p ∈ ps) (hfree : inodeAt d p = 0)
    (hroom : dirRecLen name.length ≤ recLenAt d p) (hname : name.length < 256) (hzero : inum ≠ 0)
    (hinum : inum < 2 ^ 32) :
    ∃ qs, Tiled (writeRecord d p inum name fileType) 0 qs bsize ∧
      (blockEntries (writeRecord d p inum name fileType)).Perm ((name, inum) :: blockEntries d) := by
  obtain ⟨before, after, rfl, hbefore, hfits, hafter⟩ := h.split hp
  have hlen := le_dirRecLen name.length
  have hmiddle : Tiled (writeRecord d p inum name fileType) p [p] (p + recLenAt d p) := by
    refine ⟨rfl, fits_writeRecord hname hfits.1 hroom, ?_⟩
    rw [recLenAt_writeRecord]
    rfl
  obtain ⟨htiled, hentries⟩ := Tiled.edit hbefore hmiddle hafter fun i hi => writeRecord_of_outside (by omega)
  have hdead : liveAt d p = none := by rw [liveAt, if_pos hfree]
  refine ⟨_, htiled, ?_⟩
  rw [hentries, h.blockEntries_eq]
  simp only [List.filterMap_append, List.filterMap_cons, hdead,
    liveAt_writeRecord hname hzero hinum]
  exact List.perm_middle

/-- The two lengths that `ext2_dirlink` stores when it cuts a record after `len` bytes. -/
theorem recLenAt_cut (d : Block) (p : ℕ) {len rest : ℕ} (hlen : 8 ≤ len) (hlen' : len < 2 ^ 16)
    (hrest : rest < 2 ^ 16) :
    recLenAt (putLe (putLe d (p + len + 4) 2 rest) (p + 4) 2 len) p = len ∧
      recLenAt (putLe (putLe d (p + len + 4) 2 rest) (p + 4) 2 len) (p + len) = rest := by
  unfold recLenAt
  constructor
  · rw [getLe_putLe_of_lt (by omega)]
  · rw [getLe_putLe_of_disjoint (by omega), getLe_putLe_of_lt (by omega)]

/-- A live record is cut behind its name, and the rest becomes the new record. -/
theorem blockEntries_cut (h : Tiled d 0 ps bsize) (hp : p ∈ ps) (hlive : inodeAt d p ≠ 0)
    (hroom : dirRecLen (nameLenAt d p) + dirRecLen name.length ≤ recLenAt d p) (hname : name.length < 256)
    (hzero : inum ≠ 0) (hinum : inum < 2 ^ 32) :
    ∃ qs, Tiled (gotIt d p inum name fileType) 0 qs bsize ∧
      (blockEntries (gotIt d p inum name fileType)).Perm ((name, inum) :: blockEntries d) := by
  obtain ⟨before, after, rfl, hbefore, hfits, hafter⟩ := h.split hp
  have hown := le_dirRecLen (nameLenAt d p)
  have hnew := le_dirRecLen name.length
  have hwide : recLenAt d p < 2 ^ 16 := getLe_lt d (p + 4) 2
  generalize hlen : dirRecLen (nameLenAt d p) = len at *
  have hgot : gotIt d p inum name fileType =
      writeRecord (putLe (putLe d (p + len + 4) 2 (recLenAt d p - len)) (p + 4) 2 len) (p + len) inum name
        fileType := by
    rw [gotIt, if_neg hlive, hlen]
  have hrest : recLenAt d p - len < 2 ^ 16 := by omega
  obtain ⟨hcut, hcut'⟩ := recLenAt_cut d p (show 8 ≤ len by omega) (by omega) hrest
  rw [hgot]
  generalize hc : putLe (putLe d (p + len + 4) 2 (recLenAt d p - len)) (p + 4) 2 len = c at *
  have houtside : ∀ i, i < p + 4 ∨ p + 6 ≤ i ∧ i < p + len ∨ p + recLenAt d p ≤ i → c i = d i := by
    intro i hi
    rw [← hc, putLe_of_outside (by omega), putLe_of_outside (by omega)]
  -- the old record keeps its inode and its name, in front of everything the new one stores
  obtain ⟨hinode, hnameLen, hnameAt⟩ : inodeAt (writeRecord c (p + len) inum name fileType) p =
    inodeAt d p ∧ _ :=
    fields_congr fun i hlo hi hhi => by rw [writeRecord_of_outside (by omega), houtside i (by omega)]
  have hrecLen : recLenAt (writeRecord c (p + len) inum name fileType) p = len := by
    rw [← hcut]
    exact getLe_congr fun i hlo hhi => writeRecord_of_outside (by omega)
  have hdvd : 4 ∣ recLenAt d p - len := Nat.dvd_sub hfits.1 (hlen ▸ dirRecLen_dvd _)
  have hmiddle : Tiled (writeRecord c (p + len) inum name fileType) p [p, p + len] (p + recLenAt d p) := by
    refine ⟨rfl, ⟨?_, ?_⟩, ?_⟩
    · rw [hrecLen, ← hlen]
      exact dirRecLen_dvd _
    · rw [hrecLen, hnameLen, hlen]
    · rw [hrecLen]
      refine ⟨rfl, fits_writeRecord hname (hcut' ▸ hdvd) (by omega), ?_⟩
      rw [recLenAt_writeRecord, hcut']
      simp only [Tiles]
      omega
  obtain ⟨htiled, hentries⟩ := Tiled.edit hbefore hmiddle hafter fun i hi => by
    rw [writeRecord_of_outside (by omega), houtside i (by omega)]
  have hold : liveAt (writeRecord c (p + len) inum name fileType) p = some (nameAt d p, inodeAt d p) :=
    liveAt_eq_some_iff.mpr ⟨hinode ▸ hlive, hnameAt, hinode⟩
  have hold' : liveAt d p = some (nameAt d p, inodeAt d p) := liveAt_eq_some_iff.mpr ⟨hlive, rfl, rfl⟩
  refine ⟨_, htiled, ?_⟩
  rw [hentries, h.blockEntries_eq]
  simp only [List.filterMap_append, List.filterMap_cons, hold, hold',
    liveAt_writeRecord hname hzero hinum]
  exact List.perm_middle.trans ((List.perm_middle.cons _).trans ((List.Perm.swap _ _ _).trans
    (List.perm_middle.symm.cons _)))

/-- Where the scan found room, the new entry is added and every other entry is kept. -/
theorem blockEntries_gotIt (h : Tiled d 0 ps bsize) (hp : p ∈ ps)
    (hroom : HasRoom d p (dirRecLen name.length))
    (hname : name.length < 256) (hzero : inum ≠ 0) (hinum : inum < 2 ^ 32) :
    ∃ qs, Tiled (gotIt d p inum name fileType) 0 qs bsize ∧
      (blockEntries (gotIt d p inum name fileType)).Perm ((name, inum) :: blockEntries d) := by
  by_cases hfree : inodeAt d p = 0
  · have hlen : dirRecLen name.length ≤ recLenAt d p := by
      obtain ⟨-, hlen⟩ | hlen := hroom <;> omega
    rw [gotIt, if_pos hfree]
    exact blockEntries_reuse h hp hfree hlen hname hzero hinum
  · obtain ⟨hzero', -⟩ | hlen := hroom
    · exact absurd hzero' hfree
    · exact blockEntries_cut h hp hfree hlen hname hzero hinum

/-- A fresh block holds the new entry alone. -/
theorem blockEntries_fresh (hname : name.length < 256) (hzero : inum ≠ 0) (hinum : inum < 2 ^ 32) :
    ∃ qs, Tiled (gotIt (freshRecord d 0) 0 inum name fileType) 0 qs bsize ∧
      blockEntries (gotIt (freshRecord d 0) 0 inum name fileType) = [(name, inum)] := by
  have hrecLen : recLenAt (freshRecord d 0) 0 = bsize := by
    unfold recLenAt freshRecord
    rw [getLe_putLe_of_disjoint (by omega), getLe_putLe_of_lt (by decide)]
  have hfree : inodeAt (freshRecord d 0) 0 = 0 := by
    unfold inodeAt freshRecord
    rw [getLe_putLe_of_lt (by decide)]
  have hle : dirRecLen name.length ≤ 1024 := (dirRecLen_le name.length).trans (by omega)
  rw [gotIt, if_pos hfree]
  have htiled : Tiled (writeRecord (freshRecord d 0) 0 inum name fileType) 0 [0] bsize := by
    refine ⟨rfl, fits_writeRecord hname (by rw [hrecLen]; decide) (by rwa [hrecLen]), ?_⟩
    rw [recLenAt_writeRecord, hrecLen]
    rfl
  refine ⟨[0], htiled, ?_⟩
  rw [htiled.blockEntries_eq]
  simp only [List.filterMap_cons, List.filterMap_nil, liveAt_writeRecord hname hzero hinum]

end gotIt

/-! ### The edits of `ext2_unlink` -/

section unlink

variable {d : Block} {p : ℕ}

/-- The walk of `ext2_unlink` ends at the record it was given and knows the one before it. -/
theorem findPrevious_eq {o fuel : ℕ} {before : List ℕ} (previous : Option ℕ) (h : Tiled d o before p)
    (hfuel : before.length < fuel) : findPrevious d p fuel previous o =
    .ok (before.getLast?.or previous) := by
  induction before generalizing o fuel previous with
  | nil =>
    obtain _ | fuel := fuel
    · simp at hfuel
    simp [findPrevious, show o = p from h]
  | cons q rest ih =>
    obtain _ | fuel := fuel
    · omega
    obtain ⟨rfl, hfits, hrest⟩ := h
    have hpos := hfits.pos
    have hlt : q < p := lt_of_lt_of_le (Nat.lt_add_of_pos_right hpos) hrest.le
    rw [findPrevious, if_pos hlt, if_neg hpos.ne',
      ih _ hrest (by simp only [List.length_cons] at hfuel; omega)]
    cases hlast : rest.getLast? <;> simp [List.getLast?_cons, hlast]

variable {entry : List UInt8 × ℕ}

/-- The first record of a block is freed in place. -/
theorem blockEntries_free {after : List ℕ} (hfits : Fits d 0)
    (hafter : Tiled d (0 + recLenAt d 0) after bsize) (hentry : liveAt d 0 = some entry) :
    ∃ qs, Tiled (putLe d 0 4 0) 0 qs bsize ∧
      (blockEntries d).Perm (entry :: blockEntries (putLe d 0 4 0)) := by
  have hname := hfits.name_le
  have hrecLen : recLenAt (putLe d 0 4 0) 0 = recLenAt d 0 := getLe_putLe_of_disjoint (by omega)
  have hnameLen : nameLenAt (putLe d 0 4 0) 0 = nameLenAt d 0 := getLe_putLe_of_disjoint (by omega)
  have hdead : liveAt (putLe d 0 4 0) 0 = none := if_pos (getLe_putLe_of_lt (by decide))
  have hmiddle : Tiled (putLe d 0 4 0) 0 [0] (0 + recLenAt d 0) := by
    refine ⟨rfl, ?_, by rw [hrecLen]; rfl⟩
    unfold Fits
    rwa [hrecLen, hnameLen]
  have htiled : Tiled d 0 (0 :: after) bsize := ⟨rfl, hfits, hafter⟩
  obtain ⟨htiled', hentries⟩ := Tiled.edit (show Tiled d 0 [] 0 from rfl) hmiddle hafter fun i hi =>
    putLe_of_outside (by omega)
  refine ⟨_, htiled', ?_⟩
  rw [hentries, htiled.blockEntries_eq]
  simp [hdead, hentry]

/-- A removed record is merged into the one before it. -/
theorem blockEntries_merge {q : ℕ} {before after : List ℕ}
    (hbefore : Tiled d 0 before q) (hq : Fits d q) (hjoin : q + recLenAt d q = p) (hp : Fits d p)
    (hafter : Tiled d (p + recLenAt d p) after bsize) (hentry : liveAt d p = some entry) :
    ∃ qs, Tiled (unlinkRecord d p (some q)) 0 qs bsize ∧
      (blockEntries d).Perm (entry :: blockEntries (unlinkRecord d p (some q))) := by
  have hqname := hq.name_le
  have hpname := hp.name_le
  have hend : p + recLenAt d p ≤ 1024 := hafter.le
  have hrecLen : recLenAt (unlinkRecord d p (some q)) q = recLenAt d q + recLenAt d p := by
    unfold unlinkRecord
    rw [recLenAt, getLe_putLe_of_disjoint (by omega), getLe_putLe_of_lt (by omega)]
    omega
  have houtside : ∀ i, i < q + 4 ∨ q + 6 ≤ i ∧ i < p ∨ p + 4 ≤ i → unlinkRecord d p (some q) i = d i := by
    intro i hi
    rw [unlinkRecord, putLe_of_outside (by omega), putLe_of_outside (by omega)]
  obtain ⟨hinode, hnameLen, hnameAt⟩ : inodeAt (unlinkRecord d p (some q)) q = inodeAt d q ∧ _ :=
    fields_congr fun i hlo hi hhi => houtside i (by omega)
  have hmiddle : Tiled (unlinkRecord d p (some q)) q [q] (p + recLenAt d p) := by
    refine ⟨rfl, ⟨?_, ?_⟩, ?_⟩
    · rw [hrecLen]
      exact Nat.dvd_add hq.1 hp.1
    · rw [hrecLen, hnameLen]
      exact hq.2.trans (Nat.le_add_right _ _)
    · simp only [Tiles]
      omega
  have htiled : Tiled d 0 (before ++ q :: p :: after) bsize :=
    tiles_append.mpr ⟨q, hbefore, rfl, hq, hjoin.symm, hjoin ▸ hp, hjoin ▸ hafter⟩
  have hlive : liveAt (unlinkRecord d p (some q)) q = liveAt d q := by
    unfold liveAt
    rw [hinode, hnameAt]
  obtain ⟨htiled', hentries⟩ := Tiled.edit hbefore hmiddle hafter fun i hi => houtside i (by omega)
  refine ⟨_, htiled', ?_⟩
  rw [hentries, htiled.blockEntries_eq]
  cases hkept : liveAt d q with
  | none => simp [hlive, hkept, hentry]
  | some kept =>
    simp only [List.filterMap_append, List.filterMap_cons, hlive, hkept, hentry]
    exact ((List.Perm.swap _ _ _).append_left _).trans List.perm_middle

/-- `ext2_unlink` removes the entry at its offset and keeps every other one. -/
theorem blockEntries_unlink (h : Tiled d 0 ps bsize) (hp : p ∈ ps) (hentry : liveAt d p = some entry) :
    ∃ previous qs, findPrevious d p (bsize + 1) none 0 = .ok previous ∧
      Tiled (unlinkRecord d p previous) 0 qs bsize ∧
      (blockEntries d).Perm (entry :: blockEntries (unlinkRecord d p previous)) := by
  obtain ⟨before, after, rfl, hbefore, hfits, hafter⟩ := h.split hp
  have hlength := hbefore.length_le (Fits.pos d)
  have hend := (h.bounds hp).2
  have hfind := findPrevious_eq none hbefore (show before.length < bsize + 1 by omega)
  obtain rfl | ⟨front, q, rfl⟩ := before.eq_nil_or_concat'
  · obtain rfl : 0 = p := hbefore
    obtain ⟨qs, htiled, hperm⟩ := blockEntries_free hfits hafter hentry
    exact ⟨_, qs, hfind, htiled, hperm⟩
  · obtain ⟨mid, hfront, rfl, hq, hjoin⟩ := tiles_append.mp hbefore
    rw [List.getLast?_append] at hfind
    obtain ⟨qs, htiled, hperm⟩ := blockEntries_merge hfront hq hjoin hfits hafter hentry
    exact ⟨_, qs, hfind, htiled, hperm⟩

end unlink

end Xv6.Dir
