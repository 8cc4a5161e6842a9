import Mathlib.Data.List.Range
import Xv6.Ext2.Records
import Xv6.Lib.Assoc
import Xv6.Lib.Run

/-!
# Directories of ext2 as finite maps

The live records of a directory form a map from names to inode numbers. `ext2_dirlookup` evaluates
it, `ext2_dirlink` and `ext2_unlink` update it at one name, and `ext2_isdirempty` tells whether it
holds more than `.` and `..`, along every sequence of calls. Three conditions go with it: a live
record has a name, since the walk of `ext2_isdirempty` stops in front of a record of eight bytes at
the end of a block; a new entry has a name of at most 255 bytes and an inode; and the directory does
not reach the end of the 32-bit sizes, where `ext2_dirlink` would not notice that it has to grow.
-/

namespace Xv6.Dir

open Lib Function

variable (bmap : ℕ → ℕ)

/-- The live entries of a directory, in the order of its blocks. -/
def entries (D : Dir) : List (List UInt8 × ℕ) :=
  (List.range (D.size / bsize)).flatMap fun n => blockEntries (D.block bmap n)

/-- The blocks of a directory are exactly tiled by records, and its names are distinct. -/
structure Wf (D : Dir) : Prop where
  size_lt : D.size < 2 ^ 32
  aligned : bsize ∣ D.size
  tiled : ∀ n, n < D.size / bsize → Tiled (D.block bmap n) 0 (records (D.block bmap n)) bsize
  distinct : ((D.entries bmap).map Prod.fst).Nodup

/-- Every live record has a name. -/
def Named (D : Dir) : Prop := ∀ e ∈ D.entries bmap, e.1 ≠ []

/-- The map from names to inode numbers. -/
def dirMap (D : Dir) (name : List UInt8) : Option ℕ := (D.entries bmap).lookup name

/-- The inode number that `ext2_dirlookup` yields. -/
def find (D : Dir) (name : List UInt8) : Except Halt (Option ℕ) :=
  Option.map Prod.fst <$> D.dirlookup bmap name

variable {bmap} {D : Dir}

variable {E : Dir} {name : List UInt8} {d : Block} {n inum i type p fileType k fuel off : ℕ} {ps : List ℕ}
  {e : List UInt8 × ℕ}

theorem Wf.size_eq (h : D.Wf bmap) : D.size / bsize * bsize = D.size := Nat.div_mul_cancel h.aligned

theorem mem_entries :
    e ∈ D.entries bmap ↔ ∃ n < D.size / bsize, ∃ p ∈ records (D.block bmap n), liveAt
      (D.block bmap n) p = some e := by
  simp [entries, blockEntries]

theorem blockOf_eq (n : ℕ) (hp : p < bsize) : (n * bsize + p) / bsize = n := by
  unfold bsize at *
  omega

theorem offsetOf_eq (n : ℕ) (hp : p < bsize) : (n * bsize + p) % bsize = p := by
  unfold bsize at *
  omega

/-! ### `ext2_dirlookup` -/

/-- The test that ends the loop of `ext2_dirlookup`. -/
def named (d : Block) (name : List UInt8) (p : ℕ) : Bool := inodeAt d p ≠ 0 ∧ nameAt d p = name

/-- What the loop finds in one block. -/
def locate (bmap : ℕ → ℕ) (D : Dir) (name : List UInt8) (n : ℕ) : Option (ℕ × ℕ) :=
  ((records (D.block bmap n)).find? (named (D.block bmap n) name)).map fun p =>
    (inodeAt (D.block bmap n) p, n * bsize + p)

/-- The loop runs through the records of a block. -/
theorem lookupLoop_block (name : List UInt8) (fuel : ℕ) (hn : (n + 1) * bsize ≤ D.size)
    (h : Tiled (D.block bmap n) p ps bsize) : D.lookupLoop bmap name (fuel + ps.length) (n * bsize + p) =
      match ps.find? (named (D.block bmap n) name) with
      | some q => .ok (some (inodeAt (D.block bmap n) q, n * bsize + q))
      | none => D.lookupLoop bmap name fuel ((n + 1) * bsize) := by
  induction ps generalizing p with
  | nil =>
    obtain rfl : p = bsize := h
    rw [Nat.succ_mul]
    rfl
  | cons q ps ih =>
    obtain ⟨rfl, hfits, hrest⟩ := h
    have hpos := hfits.pos
    have hle := hrest.le
    have hq : q < bsize := lt_of_lt_of_le (Nat.lt_add_of_pos_right hpos) hle
    have hlt : n * bsize + q < D.size := by rw [Nat.succ_mul] at hn; omega
    have hdiv := blockOf_eq n hq
    have hmod := offsetOf_eq n hq
    have hnext := ih hrest
    rw [← Nat.add_assoc] at hnext
    rw [List.length_cons, ← Nat.add_assoc, lookupLoop, hdiv, hmod, if_pos hlt, List.find?_cons]
    by_cases hnamed : inodeAt (D.block bmap n) q ≠ 0 ∧ nameAt (D.block bmap n) q = name
    · have hlength : nameLenAt (D.block bmap n) q = name.length := by rw [← hnamed.2, nameAt, slice_length]
      have htrue : named (D.block bmap n) name q = true := decide_eq_true hnamed
      rw [if_neg (by simp [hnamed.1, hlength]), if_pos hnamed.2, htrue]
    · have hfalse : named (D.block bmap n) name q = false := decide_eq_false hnamed
      rw [hfalse, hnext]
      split
      · rfl
      · rename_i hlive
        rw [if_neg fun hname => hnamed ⟨fun hzero => hlive (.inl hzero), hname⟩]

/-- The loop runs through the blocks. -/
theorem lookupLoop_blocks (hwf : D.Wf bmap) (hk : n + k = D.size / bsize) (hfuel : k * bsize < fuel) :
    D.lookupLoop bmap name fuel (n * bsize) = .ok ((List.range' n k).findSome? (D.locate bmap name)) := by
  have hsize := hwf.size_eq
  induction k generalizing n fuel with
  | zero =>
    obtain _ | fuel := fuel
    · omega
    obtain rfl : n = D.size / bsize := by omega
    rw [lookupLoop, if_neg (by omega)]
    rfl
  | succ k ih =>
    have htiled := hwf.tiled n (by omega)
    have hlength := htiled.length_le (Fits.pos _)
    rw [Nat.succ_mul] at hfuel
    obtain ⟨rest, rfl⟩ := Nat.exists_eq_add_of_le'
      (show (records (D.block bmap n)).length ≤ fuel by omega)
    have hend : (n + 1) * bsize ≤ D.size := by
      rw [← hsize]
      exact Nat.mul_le_mul_right _ (by omega)
    have hblock := lookupLoop_block name rest hend htiled
    rw [Nat.add_zero] at hblock
    rw [hblock, List.range'_succ, List.findSome?_cons, locate]
    cases (records (D.block bmap n)).find? (named (D.block bmap n) name) with
    | some q => rfl
    | none =>
      have hleft : k * bsize < rest :=
        Nat.lt_of_add_lt_add_right (lt_of_lt_of_le hfuel (Nat.add_le_add_left hlength rest))
      have hrest := ih (show n + 1 + k = D.size / bsize by omega) hleft
      simp only [hrest, Option.map_none]

/-- `ext2_dirlookup` returns the first record with the name. -/
theorem Wf.dirlookup_eq (hwf : D.Wf bmap) (name : List UInt8) :
    D.dirlookup bmap name = .ok ((List.range (D.size / bsize)).findSome? (D.locate bmap name)) := by
  have hsize := hwf.size_eq
  have hfuel : D.size / bsize * bsize < D.size + 1 := by omega
  rw [dirlookup, List.range_eq_range', ← lookupLoop_blocks hwf (Nat.zero_add _) hfuel, Nat.zero_mul]

/-- The record that `ext2_dirlookup` found. -/
theorem locate_eq_some (h : D.locate bmap name n = some (i, off)) :
    ∃ p ∈ records (D.block bmap n), liveAt (D.block bmap n) p = some (name, i) ∧ off = n * bsize + p := by
  obtain ⟨p, hp, hpair⟩ := Option.map_eq_some_iff.mp h
  have htrue : named (D.block bmap n) name p = true := List.find?_some hp
  have hnamed : inodeAt (D.block bmap n) p ≠ 0 ∧ nameAt (D.block bmap n) p = name := of_decide_eq_true htrue
  cases hpair
  exact ⟨p, List.mem_of_find?_eq_some hp, liveAt_eq_some_iff.mpr ⟨hnamed.1, hnamed.2, rfl⟩, rfl⟩

/-- A record that `ext2_dirlookup` returns is a live record with the name. -/
theorem Wf.dirlookup_some (hwf : D.Wf bmap) (h : D.dirlookup bmap name = .ok (some (i, off))) :
    ∃ n < D.size / bsize, ∃ p ∈ records (D.block bmap n), liveAt (D.block bmap n) p = some (name, i) ∧
      off = n * bsize + p := by
  rw [hwf.dirlookup_eq, Except.ok.injEq] at h
  obtain ⟨n, hn, hlocate⟩ := List.exists_of_findSome?_eq_some h
  exact ⟨n, List.mem_range.mp hn, locate_eq_some hlocate⟩

/-- A name that `ext2_dirlookup` does not find has no live record. -/
theorem Wf.dirlookup_none (hwf : D.Wf bmap) (h : D.dirlookup bmap name = .ok none) (i : ℕ) :
    (name, i) ∉ D.entries bmap := by
  rw [hwf.dirlookup_eq, Except.ok.injEq, List.findSome?_eq_none_iff] at h
  intro hmem
  obtain ⟨n, hn, p, hp, hlive⟩ := mem_entries.mp hmem
  obtain ⟨hlive, hname, -⟩ := liveAt_eq_some_iff.mp hlive
  have hnone := List.find?_eq_none.mp (Option.map_eq_none_iff.mp (h n (List.mem_range.mpr hn))) p hp
  exact hnone (decide_eq_true ⟨hlive, hname⟩)

/-- `ext2_dirlookup` evaluates the map. -/
theorem Wf.find_eq (hwf : D.Wf bmap) (name : List UInt8) : D.find bmap name = .ok (D.dirMap bmap name) := by
  obtain ⟨r, hr⟩ : ∃ r, D.dirlookup bmap name = .ok r := ⟨_, hwf.dirlookup_eq name⟩
  rw [find, hr]
  cases r with
  | none =>
    have hnone := lookup_eq_none_iff_mem.mpr (hwf.dirlookup_none hr)
    rw [dirMap, hnone]
    rfl
  | some found =>
    obtain ⟨n, hn, p, hp, hlive, -⟩ := hwf.dirlookup_some hr
    have hsome := (lookup_eq_some_iff_mem hwf.distinct).mpr (mem_entries.mpr ⟨n, hn, p, hp, hlive⟩)
    rw [dirMap, hsome]
    rfl

/-! ### Storing a block -/

theorem block_update (hinj : Injective bmap) {size : ℕ} (m : ℕ) :
    block bmap { D with blocks := update D.blocks (bmap n) d, size := size } m =
      if m = n then d else D.block bmap m := by
  obtain rfl | hm := eq_or_ne m n
  · simp [block]
  · simp [block, hm, update_of_ne (hinj.ne hm)]

/-- A directory whose block `n` was replaced. -/
abbrev withBlock (bmap : ℕ → ℕ) (D : Dir) (n : ℕ) (d : Block) : Dir :=
  { D with blocks := update D.blocks (bmap n) d }

theorem block_withBlock_of_ne (hinj : Injective bmap) {m : ℕ} (hm : m ≠ n) :
    (D.withBlock bmap n d).block bmap m = D.block bmap m := by
  rw [withBlock, block_update hinj, if_neg hm]

theorem block_withBlock_self (hinj : Injective bmap) : (D.withBlock bmap n d).block bmap n = d := by
  rw [withBlock, block_update hinj, if_pos rfl]

theorem Tiled.self (h : Tiled d 0 ps bsize) : Tiled d 0 (records d) bsize := by
  rwa [h.records_eq]

section

variable (hwf : D.Wf bmap) (hinj : Injective bmap)

include hwf hinj

/-- A directory stays tiled when the new block is. -/
theorem Wf.tiled_withBlock (hd : Tiled d 0 ps bsize) {m : ℕ} (hm : m < D.size / bsize) :
    Tiled ((D.withBlock bmap n d).block bmap m) 0 (records ((D.withBlock bmap n d).block bmap m)) bsize := by
  rw [withBlock, block_update hinj]
  split
  · exact hd.self
  · exact hwf.tiled m hm

/-- An entry is added to one block. -/
theorem Wf.add (hn : n < D.size / bsize) (hd : Tiled d 0 ps bsize)
    (hperm : (blockEntries d).Perm ((name, i) :: blockEntries (D.block bmap n)))
    (hname : ∀ j, (name, j) ∉ D.entries bmap) :
    (D.withBlock bmap n d).Wf bmap ∧
      ((D.withBlock bmap n d).entries bmap).Perm ((name, i) :: D.entries bmap) := by
  have hentries : ((D.withBlock bmap n d).entries bmap).Perm ((name, i) :: D.entries bmap) := by
    refine flatMap_perm_cons List.nodup_range (List.mem_range.mpr hn) (fun m hm => ?_) ?_
    · rw [block_withBlock_of_ne hinj hm]
    · rwa [block_withBlock_self hinj]
  exact ⟨⟨hwf.size_lt, hwf.aligned, fun m hm => hwf.tiled_withBlock hinj hd hm,
    nodup_of_perm_cons hentries hwf.distinct hname⟩, hentries⟩

/-- An entry is removed from one block. -/
theorem Wf.remove (hn : n < D.size / bsize) (hd : Tiled d 0 ps bsize)
    (hperm : (blockEntries (D.block bmap n)).Perm ((name, i) :: blockEntries d)) :
    (D.withBlock bmap n d).Wf bmap ∧
      (D.entries bmap).Perm ((name, i) :: (D.withBlock bmap n d).entries bmap) := by
  have hentries : (D.entries bmap).Perm ((name, i) :: (D.withBlock bmap n d).entries bmap) := by
    refine flatMap_perm_cons List.nodup_range (List.mem_range.mpr hn) (fun m hm => ?_) ?_
    · rw [block_withBlock_of_ne hinj hm]
    · rwa [block_withBlock_self hinj]
  refine ⟨⟨hwf.size_lt, hwf.aligned, fun m hm => hwf.tiled_withBlock hinj hd hm, ?_⟩, hentries⟩
  have hdistinct := hwf.distinct
  rw [(hentries.map Prod.fst).nodup_iff, List.map_cons, List.nodup_cons] at hdistinct
  exact hdistinct.2

end

/-- A directory that grew by a block. -/
abbrev withNewBlock (bmap : ℕ → ℕ) (D : Dir) (d : Block) : Dir :=
  { D with blocks := update D.blocks (bmap (D.size / bsize)) d, size := D.size + bsize }

theorem Wf.grow (hwf : D.Wf bmap) (hinj : Injective bmap) (hsize : D.size + bsize < 2 ^ 32)
    (hd : Tiled d 0 ps bsize)
    (hentry : blockEntries d = [(name, i)]) (hname : ∀ j, (name, j) ∉ D.entries bmap) :
    (D.withNewBlock bmap d).Wf bmap ∧
      ((D.withNewBlock bmap d).entries bmap).Perm ((name, i) :: D.entries bmap) := by
  have hcount : (D.withNewBlock bmap d).size / bsize = D.size / bsize + 1 := Nat.add_div_right _ (by decide)
  have hentries : ((D.withNewBlock bmap d).entries bmap).Perm ((name, i) :: D.entries bmap) := by
    have hold : (List.range (D.size / bsize)).flatMap
      (fun m => blockEntries ((D.withNewBlock bmap d).block bmap m)) =
        D.entries bmap := by
      refine List.flatMap_congr fun m hm => ?_
      rw [block_update hinj, if_neg (List.mem_range.mp hm).ne]
    rw [entries, hcount, List.range_succ, List.flatMap_append, hold, List.flatMap_singleton,
      block_update hinj,
      if_pos rfl, hentry]
    exact List.perm_append_singleton _ _
  refine ⟨⟨hsize, (Nat.dvd_add_self_right).mpr hwf.aligned, fun m hm => ?_,
    nodup_of_perm_cons hentries hwf.distinct hname⟩, hentries⟩
  rw [block_update hinj]
  split
  · exact hd.self
  · exact hwf.tiled m (by omega)

/-! ### `ext2_dirlink` -/

theorem Wf.numBlocks_eq (hwf : D.Wf bmap) : D.numBlocks = D.size / bsize := by
  have hsize := hwf.size_eq
  have hlt := hwf.size_lt
  simp only [numBlocks, bsize] at *
  omega

theorem Wf.lastByte_eq (hwf : D.Wf bmap) (hn : n < D.size / bsize) : D.lastByte n = bsize := by
  have hlt := hwf.size_lt
  simp only [lastByte, bsize] at *
  omega

theorem Wf.lastByte_end (hwf : D.Wf bmap) : D.lastByte (D.size / bsize) = 0 := by
  have hsize := hwf.size_eq
  simp only [lastByte] at *
  omega

/-- The scan of a tiled block ends at its end or at a record with room. -/
theorem scanBlock_cases {o reclen : ℕ} (hreclen : 0 < reclen) (h : Tiled d o ps bsize)
    (hfuel : ps.length < fuel) :
    scanBlock d bsize reclen fuel o = .full ∨
      ∃ p ∈ ps, HasRoom d p reclen ∧ scanBlock d bsize reclen fuel o = .room p := by
  induction ps generalizing o fuel with
  | nil =>
    obtain _ | fuel := fuel
    · simp at hfuel
    obtain rfl : o = bsize := h
    exact .inl (if_neg (by omega))
  | cons q ps ih =>
    obtain _ | fuel := fuel
    · omega
    obtain ⟨rfl, hfits, hrest⟩ := h
    have hpos := hfits.pos
    by_cases hend : q + reclen ≤ bsize
    swap
    · exact .inl (if_neg hend)
    rw [scanBlock, if_pos hend, if_neg (by omega), if_neg hpos.ne']
    by_cases hfree : inodeAt d q = 0 ∧ reclen ≤ recLenAt d q
    · exact .inr ⟨q, by simp, .inl hfree, by rw [if_pos hfree]⟩
    by_cases hroom : dirRecLen (nameLenAt d q) + reclen ≤ recLenAt d q
    · exact .inr ⟨q, by simp, .inr hroom, by rw [if_neg hfree, if_pos hroom]⟩
    rw [if_neg hfree, if_neg hroom]
    obtain hfull | ⟨p, hp, hroom', hscan⟩ := ih hrest (Nat.lt_of_succ_lt_succ hfuel)
    · exact .inl hfull
    · exact .inr ⟨p, by simp [hp], hroom', hscan⟩

/-- The loop of `ext2_dirlink` ends at the first record with room, or behind the last block. -/
theorem Wf.linkLoop_cases (hwf : D.Wf bmap) (hname : name.length < 256) (hk : n + k = D.size / bsize) :
    (∃ m < D.size / bsize, ∃ p ∈ records (D.block bmap m), HasRoom (D.block bmap m) p
      (dirRecLen name.length) ∧
      linkLoop bmap name inum type (k + 1) n D =
        finishLink bmap m (recLenAt (D.block bmap m) p) (D.block bmap m) p inum name type D) ∨
    linkLoop bmap name inum type (k + 1) n D =
      finishLink bmap (D.size / bsize) bsize
        (freshRecord (D.block bmap (D.size / bsize)) 0) 0 inum name type D := by
  have hlow := le_dirRecLen name.length
  have hhigh : dirRecLen name.length ≤ 1024 := (dirRecLen_le name.length).trans (by omega)
  induction k generalizing n with
  | zero =>
    obtain rfl : n = D.size / bsize := hk
    have hscan : scanBlock (D.block bmap (D.size / bsize)) (D.lastByte (D.size / bsize))
      (dirRecLen name.length)
        (bsize + 1) 0 = .atEnd 0 := by
      rw [hwf.lastByte_end, scanBlock, Nat.zero_add, if_pos hhigh, if_pos rfl]
    refine .inr ?_
    rw [linkLoop, exec_get_bind, hscan]
  | succ k ih =>
    have hn : n < D.size / bsize := by omega
    have htiled := hwf.tiled n hn
    have hlength := htiled.length_le (Fits.pos _)
    rw [linkLoop, exec_get_bind, hwf.lastByte_eq hn]
    obtain hfull | ⟨p, hp, hroom, hscan⟩ := scanBlock_cases (show 0 < dirRecLen name.length by omega) htiled
      (show _ < bsize + 1 from Nat.lt_succ_of_le hlength)
    · rw [hfull]
      exact ih (by omega)
    · rw [hscan]
      exact .inl ⟨n, hn, p, hp, hroom, rfl⟩

/-- A link into a record with room leaves the size alone. -/
theorem finishLink_room {recLen : ℕ}
    (hn : n < D.size / bsize) (htype : fileTypeOf type = some fileType) :
    finishLink bmap n recLen d p inum name type D =
      .ok true (D.withBlock bmap n (gotIt d p inum name fileType)) := by
  have hsize : ¬ D.size < (n + 1) * bsize % 2 ^ 32 := by
    simp only [bsize] at *
    omega
  rw [finishLink, exec_get_bind, htype]
  simp only [if_neg hsize]
  rfl

/-- A link behind the last block makes the directory grow. -/
theorem Wf.finishLink_end (hwf : D.Wf bmap) (hroom : D.size + bsize < 2 ^ 32)
    (htype : fileTypeOf type = some fileType) :
    finishLink bmap (D.size / bsize) bsize d p inum name type D =
      .ok true (D.withNewBlock bmap (gotIt d p inum name fileType)) := by
  have hend : (D.size / bsize + 1) * bsize % 2 ^ 32 = D.size + bsize := by
    rw [Nat.succ_mul, hwf.size_eq, Nat.mod_eq_of_lt hroom]
  have hsize : D.size < D.size + bsize := Nat.lt_add_of_pos_right (by decide)
  rw [finishLink, exec_get_bind, htype]
  simp only [hend, if_pos hsize, Nat.mod_eq_of_lt hroom]
  rfl

/-- The conditions under which `ext2_dirlink` adds an entry. -/
structure Linkable (D : Dir) (name : List UInt8) (inum : ℕ) : Prop where
  name_ne : name ≠ []
  name_lt : name.length < 256
  inum_ne : inum ≠ 0
  inum_lt : inum < 2 ^ 32
  size_lt : D.size + bsize < 2 ^ 32

section

variable (hwf : D.Wf bmap)

include hwf

/-- `ext2_dirlink` of a name that is not in use adds its entry. -/
theorem Wf.linkLoop_eq (hinj : Injective bmap) (hlink : D.Linkable name inum)
    (htype : fileTypeOf type = some fileType)
    (hname : ∀ j, (name, j) ∉ D.entries bmap) :
    ∃ E, linkLoop bmap name inum type (D.numBlocks + 1) 0 D = .ok true E ∧ E.Wf bmap ∧
      (E.entries bmap).Perm ((name, inum) :: D.entries bmap) := by
  rw [hwf.numBlocks_eq]
  obtain ⟨n, hn, p, hp, hroom, hloop⟩ | hloop := hwf.linkLoop_cases hlink.name_lt (Nat.zero_add _)
  · obtain ⟨qs, htiled, hperm⟩ :=
      blockEntries_gotIt (hwf.tiled n hn) hp hroom hlink.name_lt hlink.inum_ne hlink.inum_lt
    rw [hloop, finishLink_room hn htype]
    exact ⟨_, rfl, hwf.add hinj hn htiled hperm hname⟩
  · obtain ⟨qs, htiled, hentry⟩ := blockEntries_fresh hlink.name_lt hlink.inum_ne hlink.inum_lt
    rw [hloop, hwf.finishLink_end hlink.size_lt htype]
    exact ⟨_, rfl, hwf.grow hinj hlink.size_lt htiled hentry hname⟩

/-- `ext2_dirlink` of a name in use changes nothing. -/
theorem Wf.dirlink_of_mem (hmem : (name, i) ∈ D.entries bmap) : dirlink bmap name inum type D =
    .ok false D := by
  obtain ⟨r, hr⟩ : ∃ r, D.dirlookup bmap name = .ok r := ⟨_, hwf.dirlookup_eq name⟩
  rw [dirlink, exec_get_bind, hr]
  cases r with
  | none => exact absurd hmem (hwf.dirlookup_none hr i)
  | some found => rfl

/-- `ext2_dirlink` of a name that is not in use adds its entry. -/
theorem Wf.dirlink_of_not_mem (hinj : Injective bmap) (hlink : D.Linkable name inum)
    (htype : fileTypeOf type = some fileType)
    (hname : ∀ j, (name, j) ∉ D.entries bmap) : ∃ E, dirlink bmap name inum type D = .ok true E ∧ E.Wf bmap ∧
      (E.entries bmap).Perm ((name, inum) :: D.entries bmap) := by
  obtain ⟨r, hr⟩ : ∃ r, D.dirlookup bmap name = .ok r := ⟨_, hwf.dirlookup_eq name⟩
  rw [dirlink, exec_get_bind, hr]
  cases r with
  | none => exact hwf.linkLoop_eq hinj hlink htype hname
  | some found =>
    obtain ⟨n, hn, p, hp, hlive, -⟩ := hwf.dirlookup_some hr
    exact absurd (mem_entries.mpr ⟨n, hn, p, hp, hlive⟩) (hname _)

/-- Without a file type `ext2_dirlink` does not return from a new link. -/
theorem Wf.linkLoop_ne_ok {b : Bool} (hname : name.length < 256) (htype : fileTypeOf type = none) :
    linkLoop bmap name inum type (D.numBlocks + 1) 0 D ≠ .ok b E := by
  have hpanic : ∀ n recLen d p, finishLink bmap n recLen d p inum name type D ≠ .ok b E := by
    intro n recLen d p
    rw [finishLink, htype]
    exact nofun
  rw [hwf.numBlocks_eq]
  obtain ⟨n, -, p, -, -, hloop⟩ | hloop := hwf.linkLoop_cases hname (Nat.zero_add (D.size / bsize))
  · exact hloop ▸ hpanic _ _ _ _
  · exact hloop ▸ hpanic _ _ _ _

/-- A call of `ext2_dirlink` that returned found the name in use, or added its entry. -/
theorem Wf.dirlink_cases (hinj : Injective bmap)
    {b : Bool} (hlink : D.Linkable name inum) (h : dirlink bmap name inum type D = .ok b E) :
    b = false ∧ E = D ∨ b = true ∧ E.Wf bmap ∧ (E.entries bmap).Perm ((name, inum) :: D.entries bmap) := by
  by_cases hmem : ∃ i, (name, i) ∈ D.entries bmap
  · obtain ⟨i, hi⟩ := hmem
    rw [hwf.dirlink_of_mem hi] at h
    cases h
    exact .inl ⟨rfl, rfl⟩
  · have hname := not_exists.mp hmem
    cases htype : fileTypeOf type with
    | some fileType =>
      obtain ⟨F, hF, hwf', hperm⟩ := hwf.dirlink_of_not_mem hinj hlink htype hname
      cases hF.symm.trans h
      exact .inr ⟨rfl, hwf', hperm⟩
    | none =>
      obtain ⟨r, hr⟩ : ∃ r, D.dirlookup bmap name = .ok r := ⟨_, hwf.dirlookup_eq name⟩
      rw [dirlink, exec_get_bind, hr] at h
      cases r with
      | none => exact absurd h (hwf.linkLoop_ne_ok hlink.name_lt htype)
      | some found =>
        cases h
        exact .inl ⟨rfl, rfl⟩

/-! ### `ext2_unlink` -/

/-- `ext2_unlink` at an offset that `ext2_dirlookup` returned removes the entry. -/
theorem Wf.unlink_eq (hinj : Injective bmap) (h : D.dirlookup bmap name = .ok (some (i, off))) :
    ∃ E, unlink bmap off D = .ok () E ∧ E.Wf bmap ∧ (D.entries bmap).Perm ((name, i) :: E.entries bmap) := by
  obtain ⟨n, hn, p, hp, hlive, rfl⟩ := hwf.dirlookup_some h
  have htiled := hwf.tiled n hn
  have hpos := (htiled.ok_of_mem hp).pos
  have hlt : p < bsize := lt_of_lt_of_le (Nat.lt_add_of_pos_right hpos) (htiled.bounds hp).2
  obtain ⟨previous, qs, hprevious, hedit, hperm⟩ := blockEntries_unlink htiled hp hlive
  rw [unlink, exec_get_bind]
  simp only [blockOf_eq n hlt, offsetOf_eq n hlt, hprevious]
  exact ⟨_, rfl, hwf.remove hinj hn hedit hperm⟩

end

/-! ### `ext2_isdirempty` -/

/-- An entry that an empty directory may have: `.` for the directory itself, and `..`. -/
def IsDot (inum : ℕ) (e : List UInt8 × ℕ) : Prop := e = ([46], inum) ∨ e.1 = [46, 46]

instance (inum : ℕ) (e : List UInt8 × ℕ) : Decidable (IsDot inum e) := inferInstanceAs (Decidable (_ ∨ _))

/-- The tests of `ext2_isdirempty` reject a live record exactly when it is neither `.` nor `..`. -/
theorem occupied_iff (hlive : liveAt d p = some e) (hname : e.1 ≠ []) : occupied d p inum ↔
    ¬ IsDot inum e := by
  obtain ⟨hinode, hnameAt, hnum⟩ := liveAt_eq_some_iff.mp hlive
  obtain ⟨name, i⟩ := e
  unfold occupied IsDot
  subst hnameAt hnum
  simp only [hinode, nameAt, slice, ne_eq]
  -- the name is not empty; names of one, of two and of more bytes are treated differently
  obtain hlen | hlen | hlen | hlen : nameLenAt d p = 0 ∨ nameLenAt d p = 1 ∨ nameLenAt d p = 2 ∨
    2 < nameLenAt d p := by
    omega
  · exact absurd (by simp [nameAt, slice, hlen]) hname
  · simp [hlen, imp_iff_not_or]
  · simp [hlen, List.range_succ, imp_iff_not_or]
  · have hlength : ∀ l : List UInt8, l.length ≤ 2 →
      (List.range (nameLenAt d p)).map (fun i => d (p + 8 + i)) ≠ l := by
      rintro l hl rfl
      simp only [List.length_map, List.length_range] at hl
      omega
    simp [hlen, hlength [46] (by simp), hlength [46, 46] (by simp)]

/-- The walk of `ext2_isdirempty` through a tiled block sees the records up to its limit. -/
theorem emptyBlock_eq {limit o : ℕ} (h : Tiled d o ps bsize) (hlimit : limit < bsize)
    (hfuel : ps.length < fuel) :
    emptyBlock d inum limit fuel o = .ok (decide (∀ p ∈ ps, p ≤ limit → ¬ occupied d p inum)) := by
  induction ps generalizing o fuel with
  | nil =>
    obtain _ | fuel := fuel
    · simp at hfuel
    obtain rfl : o = bsize := h
    rw [emptyBlock, if_neg (by omega)]
    simp
  | cons q ps ih =>
    obtain _ | fuel := fuel
    · omega
    obtain ⟨rfl, hfits, hrest⟩ := h
    by_cases hq : q ≤ limit
    · rw [emptyBlock, if_pos hq, if_neg hfits.pos.ne']
      by_cases hocc : occupied d q inum
      · simp [hq, hocc]
      · rw [ih hrest (Nat.lt_of_succ_lt_succ hfuel)]
        simp [hocc]
    · have hbeyond : ∀ p ∈ ps, ¬ p ≤ limit := fun p hp hle =>
        hq (((Nat.le_add_right q _).trans (hrest.bounds hp).1).trans hle)
      rw [emptyBlock, if_neg hq]
      have hnone : ∀ p ∈ q :: ps, p ≤ limit → ¬ occupied d p inum :=
        List.forall_mem_cons.mpr ⟨fun hle => absurd hle hq, fun p hp hle => absurd hle (hbeyond p hp)⟩
      rw [decide_eq_true hnone]

/-- A record behind the limit of `ext2_isdirempty` has no room for a name. -/
theorem le_limit_of_name (hfits : Fits d p) (hend : p + recLenAt d p ≤ bsize)
    (hlive : liveAt d p = some e) (hname : e.1 ≠ []) : p ≤ 1012 := by
  have hlen : nameLenAt d p ≠ 0 := by
    rintro hzero
    rw [← (liveAt_eq_some_iff.mp (show liveAt d p = some (e.1, e.2) from hlive)).2.1, nameAt, hzero] at hname
    exact hname rfl
  have hroom : dirRecLen 1 ≤ recLenAt d p := by
    refine le_trans ?_ hfits.2
    unfold dirRecLen
    omega
  have hend' : p + recLenAt d p ≤ 1024 := hend
  have htwelve : dirRecLen 1 = 12 := by decide
  omega

theorem Wf.emptyLimit_eq (hwf : D.Wf bmap) (hn : n < D.size / bsize) : D.emptyLimit n = 1012 := by
  have htwelve : dirRecLen 1 = 12 := by decide
  have hlast : D.lastByte n = 1024 := hwf.lastByte_eq hn
  unfold emptyLimit
  omega

section

variable (hwf : D.Wf bmap) (hnamed : D.Named bmap)

include hwf hnamed

/-- `ext2_isdirempty` on one block of a directory. -/
theorem Wf.checkBlock_eq (hn : n < D.size / bsize) :
    D.checkBlock bmap n = .ok ((blockEntries (D.block bmap n)).all fun e => IsDot D.inum e) := by
  have htiled := hwf.tiled n hn
  have hlength := htiled.length_le (Fits.pos _)
  rw [checkBlock, hwf.emptyLimit_eq hn, emptyBlock_eq htiled (by decide) (Nat.lt_succ_of_le hlength)]
  rw [Except.ok.injEq, Bool.eq_iff_iff, List.all_eq_true]
  simp only [decide_eq_true_iff]
  have hname : ∀ p ∈ records (D.block bmap n), ∀ e, liveAt (D.block bmap n) p = some e → e.1 ≠ [] :=
    fun p hp e hlive => hnamed e (mem_entries.mpr ⟨n, hn, p, hp, hlive⟩)
  constructor
  · intro hempty e he
    obtain ⟨p, hp, hlive⟩ := List.mem_filterMap.mp he
    have hle := le_limit_of_name (htiled.ok_of_mem hp) (htiled.bounds hp).2 hlive (hname p hp e hlive)
    have hfree := hempty p hp hle
    rwa [occupied_iff hlive (hname p hp e hlive), not_not] at hfree
  · intro hdots p hp _ hocc
    have hlive : liveAt (D.block bmap n) p = some (nameAt (D.block bmap n) p, inodeAt (D.block bmap n) p) :=
      liveAt_eq_some_iff.mpr ⟨hocc.1, rfl, rfl⟩
    exact (occupied_iff hlive (hname p hp _ hlive)).mp hocc (hdots _ (List.mem_filterMap.mpr ⟨p, hp, hlive⟩))

/-- The loop of `ext2_isdirempty` over the blocks. -/
theorem Wf.emptyLoop_eq (hk : n + k = D.size / bsize) :
    D.emptyLoop bmap k n =
      .ok ((List.range' n k).all fun m => (blockEntries (D.block bmap m)).all fun e => IsDot D.inum e) := by
  induction k generalizing n with
  | zero => rfl
  | succ k ih =>
    have hblock := hwf.checkBlock_eq hnamed (show n < D.size / bsize by omega)
    rw [emptyLoop, hblock, List.range'_succ, List.all_cons]
    cases (blockEntries (D.block bmap n)).all fun e => IsDot D.inum e with
    | false => rfl
    | true =>
      exact ih (by omega)

/-- `ext2_isdirempty` tells whether the directory has no entries besides `.` and `..`. -/
theorem Wf.isdirempty_eq :
    D.isdirempty bmap = .ok ((D.entries bmap).all fun e => IsDot D.inum e) := by
  rw [isdirempty, hwf.numBlocks_eq, hwf.emptyLoop_eq hnamed (Nat.zero_add _), ← List.range_eq_range', entries,
    List.all_flatMap]

end

/-! ### Sequences of calls -/

/-- The calls that change a directory; a name is removed at the offset that `ext2_dirlookup`
returns. -/
inductive Op
  | link (name : List UInt8) (inum type : ℕ)
  | unlink (name : List UInt8)

/-- Run a call: whether it changed the directory. -/
def Op.exec (bmap : ℕ → ℕ) : Op → DirM Bool
  | .link name inum type => dirlink bmap name inum type
  | .unlink name => do
    let D ← get
    match D.dirlookup bmap name with
    | .error e => throw e
    | .ok none => return false
    | .ok (some (_, off)) =>
      Dir.unlink bmap off
      return true

/-- A call that returns; a new entry meets the conditions of `ext2_dirlink`. -/
def Step (bmap : ℕ → ℕ) (D : Dir) (op : Op) (E : Dir) : Prop :=
  (∀ name inum type, op = .link name inum type → D.Linkable name inum) ∧ ∃ b, op.exec bmap D = .ok b E

/-- A call that returned left the directory alone, or added or removed one entry. -/
theorem Wf.step_cases (hwf : D.Wf bmap) (hinj : Injective bmap) {op : Op} (h : Step bmap D op E) :
    E = D ∨
    (∃ name inum, D.Linkable name inum ∧ E.Wf bmap ∧ (E.entries bmap).Perm ((name, inum) :: D.entries bmap)) ∨
    ∃ name i, E.Wf bmap ∧ (D.entries bmap).Perm ((name, i) :: E.entries bmap) := by
  obtain ⟨hlink, b, hexec⟩ := h
  cases op with
  | link name inum type =>
    obtain ⟨-, rfl⟩ | ⟨-, hwf', hperm⟩ := hwf.dirlink_cases hinj (hlink _ _ _ rfl) hexec
    · exact .inl rfl
    · exact .inr (.inl ⟨name, inum, hlink _ _ _ rfl, hwf', hperm⟩)
  | unlink name =>
    obtain ⟨r, hr⟩ : ∃ r, D.dirlookup bmap name = .ok r := ⟨_, hwf.dirlookup_eq name⟩
    rw [Op.exec, exec_get_bind, hr] at hexec
    cases r with
    | none =>
      cases hexec
      exact .inl rfl
    | some found =>
      obtain ⟨F, hF, hwf', hperm⟩ := hwf.unlink_eq hinj hr
      obtain ⟨_, u, hu, hexec⟩ := bind_eq_ok.mp hexec
      cases hF.symm.trans hu
      cases hexec
      exact .inr (.inr ⟨name, _, hwf', hperm⟩)

/-- A well-formed directory with named entries stays so. -/
theorem Wf.step (hinj : Injective bmap) {op : Op} (h : D.Wf bmap ∧ D.Named bmap)
    (hstep : Step bmap D op E) : E.Wf bmap ∧ E.Named bmap := by
  obtain ⟨hwf, hnamed⟩ := h
  obtain rfl | ⟨name, inum, hlink, hwf', hperm⟩ | ⟨name, i, hwf', hperm⟩ := hwf.step_cases hinj hstep
  · exact ⟨hwf, hnamed⟩
  · refine ⟨hwf', fun e he => ?_⟩
    obtain rfl | he := List.mem_cons.mp (hperm.mem_iff.mp he)
    · exact hlink.name_ne
    · exact hnamed e he
  · exact ⟨hwf', fun e he => hnamed e (hperm.mem_iff.mpr (List.mem_cons_of_mem _ he))⟩

/-- A lookup follows an update of the map. -/
theorem Wf.find_of_update {o : Option ℕ} (hwf : D.Wf bmap) (hwf' : E.Wf bmap)
    (hmap : (fun q => (E.entries bmap).lookup q) = update (fun q => (D.entries bmap).lookup q) name o) :
    E.find bmap name = .ok o ∧ ∀ other, other ≠ name → E.find bmap other = D.find bmap other := by
  constructor
  · rw [hwf'.find_eq, dirMap, congrFun hmap name, update_self]
  · intro other hother
    rw [hwf'.find_eq, hwf.find_eq, dirMap, congrFun hmap other, update_of_ne hother, dirMap]

/-- A block that holds `.` for inode 2, `..`, and behind them a record of the given name and
length. -/
def sampleBlock (inum recLen : ℕ) (name : List UInt8) : Block :=
  let record (d : Block) (o recLen inum : ℕ) (name : List UInt8) : Block :=
    writeRecord (putLe d (o + 4) 2 recLen) o inum name 2
  record (record (record (fun _ => 0) 0 12 2 [46]) 12 (1012 - recLen) 2 [46, 46])
    (1024 - recLen) recLen inum name

/-- The directory with inode 2 that consists of that block. -/
def sample (inum recLen : ℕ) (name : List UInt8) : Dir := ⟨2, 1024, fun _ => sampleBlock inum recLen name⟩

theorem sample_wf_iff {recLen : ℕ} : (sample inum recLen name).Wf id ↔
      Tiled (sampleBlock inum recLen name) 0 (records (sampleBlock inum recLen name)) bsize ∧
        (((sample inum recLen name).entries id).map Prod.fst).Nodup := by
  constructor
  · exact fun h => ⟨h.tiled 0 (show 0 < 1024 / bsize by decide), h.distinct⟩
  · exact fun h => ⟨show 1024 < 2 ^ 32 by decide, show bsize ∣ 1024 by decide, fun _ _ => h.1, h.2⟩

end Xv6.Dir
