import Mathlib.Data.Nat.Cast.Order.Ring
import Xv6.Ext2.Tree

/-!
# Reading and writing ext2 files

`generic_readi` and `ext2_writei` cut a transfer at the block boundaries and ask `ext2_bmap`
for each block. The block map hangs in a block where none is mapped, for a read as for a
write. The inode is stored only by a write that makes the file longer, and both functions
return the length they were asked for, however far they came. For each of the three the
transfers are described at which nothing is lost by it.
-/

namespace Xv6

open Lib Function

section Model

variable (g : Ext2Geom)

/-- The block size: four bytes a pointer. -/
def Ext2Geom.blockSize : ℕ := 4 * g.ptrs

/-- The bytes of a block. -/
def Ext2.data (s : Ext2) (b : ℕ) : Bytes := fun i => UInt8.ofNat (s.ptr b (i / 4) / 256 ^ (i % 4))

/-- A copy of `n` bytes to offset `off` of a block. -/
def Ext2.copyIn (s : Ext2) (b off n : ℕ) (src : Bytes) : Ext2 :=
  { s with ptr := update s.ptr b fun j => getLe (blit (s.data b) off n src) (4 * j) 4 }

/-- The fields of an inode that `ext2_iupdate` stores. -/
structure InodeFields where
  mode : ℕ
  blocks : ℕ
  linksCount : ℕ
  block : ℕ → ℕ
  size : ℕ

/-- An inode in memory, and its fields as they are stored in the inode table. -/
structure Ext2File where
  ip : Ext2Inode
  device : Bool
  mode : ℕ
  blocks : ℕ
  nlink : ℕ
  size : UInt32
  stored : InodeFields

/-- `ext2_iupdate`. -/
def Ext2File.iupdate (f : Ext2File) : Ext2File :=
  { f with stored := ⟨f.mode, f.blocks, f.nlink, f.ip.iBlock, f.size.toNat⟩ }

/-- The bytes that one turn moves, of those from `off` to `last`. -/
def Ext2Geom.chunk (last off : ℕ) : ℕ := min (last - off) (g.blockSize - off % g.blockSize)

/-- An unsigned number returned as an `int`. -/
def asInt (n : UInt32) : ℤ := if n.toNat < 2 ^ 31 then n.toNat else n.toNat - 2 ^ 32

variable (fuel pid : ℕ)

/-- The loop of `generic_readi`: the bytes copied out. The user's memory takes those below `stop`; a
copy beyond it fails when it gets there. `turns` bounds the turns. -/
def readLoop (stop last : ℕ) : ℕ → ℕ → Ext2Inode → Ext2M (List UInt8 × Ext2Inode)
  | 0, _, ip => return ([], ip)
  | turns + 1, off, ip =>
    if last ≤ off then return ([], ip)
    else do
      let (addr, ip) ← bmap g fuel pid ip (off / g.blockSize)
      if addr = 0 then return ([], ip)
      else
        let s ← get
        let m := g.chunk last off
        if off + m ≤ stop then
          let (bytes, ip) ← readLoop stop last turns (off + m) ip
          return (slice (s.data addr) (off % g.blockSize) m ++ bytes, ip)
        else return (slice (s.data addr) (off % g.blockSize) (stop - off), ip)

/-- The length that `generic_readi` works with: what there is of the file. -/
def Ext2File.readable (f : Ext2File) (off n : UInt32) : UInt32 := if f.size < off + n then f.size - off else n

/-- The calls that `generic_readi` refuses. -/
def Ext2File.RefusesRead (f : Ext2File) (off n : UInt32) : Prop := f.device = true ∨ f.size < off ∨
    off + n < off

instance (f : Ext2File) (off n : UInt32) : Decidable (f.RefusesRead off n) :=
  inferInstanceAs (Decidable (_ ∨ _))

/-- `generic_readi`: what it returns, the bytes copied out and the inode as it is left in memory.
The user's memory takes `room` bytes. -/
def readi (room : ℕ) (off n : UInt32) (f : Ext2File) : Ext2M (ℤ × List UInt8 × Ext2Inode) :=
  if f.RefusesRead off n then return (-1, [], f.ip)
  else do
    let n := f.readable off n
    let (bytes, ip) ← readLoop g fuel pid (off.toNat + room) (off.toNat + n.toNat) n.toNat off.toNat f.ip
    return (asInt n, bytes, ip)

/-- The loop of `ext2_writei`: the offset it reaches. `src` are the user's bytes by the offset they
go to; a failed copy leaves what it has moved in the buffer. -/
def writeLoop (src : Bytes) (stop last : ℕ) : ℕ → ℕ → Ext2Inode → Ext2M (ℕ × Ext2Inode)
  | 0, off, ip => return (off, ip)
  | turns + 1, off, ip =>
    if last ≤ off then return (off, ip)
    else do
      let (addr, ip) ← bmap g fuel pid ip (off / g.blockSize)
      let m := g.chunk last off
      modify fun s => s.copyIn addr (off % g.blockSize) (min m (stop - off)) fun i => src (off + i)
      if off + m ≤ stop then writeLoop src stop last turns (off + m) ip
      else return (off, ip)

/-- The calls that `ext2_writei` refuses. -/
def Ext2File.RefusesWrite (f : Ext2File) (off n : UInt32) : Prop := f.size < off ∨ off + n < off

instance (f : Ext2File) (off n : UInt32) : Decidable (f.RefusesWrite off n) :=
  inferInstanceAs (Decidable (_ ∨ _))

/-- The inode behind the loop of `ext2_writei`, which has reached the offset. -/
def Ext2File.written (f : Ext2File) (n : UInt32) (reached : ℕ) (ip : Ext2Inode) : Ext2File :=
  if 0 < n ∧ f.size.toNat < reached then { f with ip := ip, size := UInt32.ofNat reached }.iupdate
  else { f with ip := ip }

/-- `ext2_writei`: what it returns, the number of bytes written and the inode. -/
def writei (src : Bytes) (room : ℕ) (off n : UInt32) (f : Ext2File) : Ext2M (ℤ × ℕ × Ext2File) :=
  if f.RefusesWrite off n then return (-1, 0, f)
  else do
    let (reached, ip) ← writeLoop g fuel pid src (off.toNat + room)
      (off.toNat + n.toNat) n.toNat off.toNat f.ip
    return (asInt n, reached - off.toNat, f.written n reached ip)

end Model

/-! ### The block map of a transfer -/

/-- The block a logical block is mapped to. -/
def mapped (g : Ext2Geom) (s : Ext2) (ip : Ext2Inode) (bn : ℕ) : Option ℕ := do
  let (offsets, _) ← blockToPath g bn
  let chain ← resultOf (getBranch ip [] none offsets) s
  let ind ← chain.getLast?
  if ind.key = 0 then none else some ind.key

/-- The slot of the inode on the path of a logical block. -/
def slotOf (g : Ext2Geom) (bn : ℕ) : ℕ := ((blockToPath g bn).getD ([], 0)).1.headD 0

/-- Bits only get set. -/
def Grows (s s' : Ext2) : Prop := ∀ group i, s.bitmap group i = true → s'.bitmap group i = true

variable {g : Ext2Geom} {s s' : Ext2} {ip ip' : Ext2Inode} {fuel pid bn b stop last off turns : ℕ}

theorem Taken.grows {u : Ext2} {first num : ℕ} (h : Taken g s u first num) : Grows s u := by
  intro group i hset
  rw [h.bitmap]
  by_cases hgroup : group = g.groupOf first
  · subst hgroup
    simp [markRun, hset]
  · rwa [update_of_ne hgroup]

/-- A call returns the mapped block and changes nothing, or takes blocks, of which the inode's slot
gets the first if it was empty. -/
theorem bmap_cases (h : bmap g fuel pid ip bn s = .ok (b, ip') s') :
    (mapped g s ip bn = some b ∧ ip.iBlock (slotOf g bn) ≠ 0 ∧ ip' = ip ∧ s' = s) ∨
      mapped g s ip bn = none ∧ ∃ first num u, Taken g s u first num ∧ s'.bitmap = u.bitmap ∧
        ip' = ip.fill (slotOf g bn) first ∧ first ≤ b := by
  cases hpath : blockToPath g bn with
  | none => simp [bmap, hpath] at h
  | some r =>
    obtain ⟨path, boundary⟩ := r
    obtain ⟨slot, rest, rfl, hof⟩ := blockToPath_spec hpath
    have hslot : slotOf g bn = slot := by simp [slotOf, hpath]
    have hrun := h
    simp only [bmap, hpath] at hrun
    obtain ⟨chain, v, hchain, -⟩ := bind_eq_ok.mp hrun
    obtain ⟨rfl, -, tail, hcons, htail⟩ := getBranch_ok hchain
    obtain ⟨ind, hlast⟩ : ∃ ind, chain.getLast? = some ind := by
      rw [hcons]
      exact ⟨_, List.getLast?_eq_some_getLast (by simp)⟩
    have hmapped : mapped g v ip bn = if ind.key = 0 then none else some ind.key := by
      simp [mapped, hpath, resultOf, hchain, hlast]
    rw [hmapped, hslot]
    by_cases hkey : ind.key = 0
    · obtain ⟨offsets, first, num, u, -, htaken, -, hlinked, hip, hb⟩ :=
        bmap_alloc hpath hof hchain hlast hkey h
      exact .inr ⟨if_pos hkey, first, num, u, htaken, hlinked.bitmap, hip, by omega⟩
    · have hfilled : ip.iBlock slot ≠ 0 := by
        cases tail with
        | nil =>
          rw [hcons] at hlast
          cases hlast
          exact hkey
        | cons => exact htail (by simp)
      rw [bmap_found hpath hof hchain hlast hkey] at h
      cases h
      exact .inl ⟨if_neg hkey, hfilled, rfl, rfl⟩

theorem bmap_grows (h : bmap g fuel pid ip bn s = .ok (b, ip') s') : Grows s s' := by
  obtain ⟨-, -, -, rfl⟩ | ⟨-, first, num, u, htaken, hbitmap, -⟩ := bmap_cases h
  · exact fun _ _ => id
  · rw [Grows, hbitmap]
    exact htaken.grows

theorem bmap_mapped (h : mapped g s ip bn = some b) : bmap g fuel pid ip bn s = .ok (b, ip) s := by
  simp only [mapped, Option.bind_eq_bind, Option.bind_eq_some_iff, Prod.exists] at h
  obtain ⟨path, boundary, hpath, chain, hchain, ind, hlast, hkey⟩ := h
  obtain ⟨slot, rest, rfl, hof⟩ := blockToPath_spec hpath
  have hrun := eq_ok_of_resultOf hchain
  rw [(getBranch_ok hrun).1] at hrun
  split at hkey
  · cases hkey
  · rename_i hne
    cases hkey
    exact bmap_found hpath hof hrun hlast hne

/-- The logical blocks that a transfer of the bytes from `off` to `last` asks for. -/
def Ext2Geom.Met (g : Ext2Geom) (stop last off bn : ℕ) : Prop :=
  off < last ∧ off / g.blockSize ≤ bn ∧ bn * g.blockSize < last ∧ bn * g.blockSize ≤ stop

theorem Ext2Geom.blockSize_pos (g : Ext2Geom) : 0 < g.blockSize := Nat.mul_pos (by decide) g.ptrs_pos

/-- A turn ends at the end of the transfer or at the next block. -/
theorem Ext2Geom.add_chunk (g : Ext2Geom) (hlt : off < last) :
    off + g.chunk last off = min last ((off / g.blockSize + 1) * g.blockSize) := by
  have hmod := Nat.div_add_mod' off g.blockSize
  have hr := Nat.mod_lt off g.blockSize_pos
  rw [chunk, Nat.add_mul]
  omega

theorem Ext2Geom.chunk_pos (g : Ext2Geom) (hlt : off < last) : 0 < g.chunk last off := by
  have := Nat.mod_lt off g.blockSize_pos
  unfold chunk
  omega

/-- The block of a turn, and those of the turns behind it. -/
theorem Ext2Geom.met_step (hlt : off < last) (hstop : off ≤ stop) :
    g.Met stop last off bn ↔
      bn = off / g.blockSize ∨ off + g.chunk last off ≤ stop ∧
        g.Met stop last (off + g.chunk last off) bn := by
  have hle : off / g.blockSize * g.blockSize ≤ off := Nat.div_mul_le_self off g.blockSize
  have hchunk := g.add_chunk hlt
  constructor
  · rintro ⟨-, hbn, hlast, hmem⟩
    obtain rfl | hbn := Nat.eq_or_lt_of_le hbn
    · exact .inl rfl
    · have hnext : (off / g.blockSize + 1) * g.blockSize ≤ bn * g.blockSize := Nat.mul_le_mul_right _ hbn
      have hend : off + g.chunk last off = (off / g.blockSize + 1) * g.blockSize := by omega
      refine .inr ⟨by omega, by omega, ?_, hlast, hmem⟩
      rw [hend, Nat.mul_div_cancel _ g.blockSize_pos]
      exact hbn
  · rintro (rfl | ⟨-, -, hbn, hlast, hmem⟩)
    · exact ⟨hlt, le_rfl, by omega, by omega⟩
    · exact ⟨hlt, (Nat.div_le_div_right (Nat.le_add_right _ _)).trans hbn, hlast, hmem⟩

/-! ### Reads -/

/-- The byte of the file at an offset: zero where no block is mapped. -/
def fileByte (g : Ext2Geom) (s : Ext2) (ip : Ext2Inode) : Bytes :=
  fun pos => (mapped g s ip (pos / g.blockSize)).elim 0 fun b => s.data b (pos % g.blockSize)

/-- The bytes of one turn are bytes of the file. -/
theorem slice_fileByte {n : ℕ} (hmap : mapped g s ip (off / g.blockSize) = some b)
    (hn : n ≤ g.blockSize - off % g.blockSize) :
    slice (s.data b) (off % g.blockSize) n = slice (fileByte g s ip) off n := by
  refine slice_congr fun i hi => ?_
  have hdiv : (off + i) / g.blockSize = off / g.blockSize :=
    div_eq_of_fits (n := i + 1) (by omega) (by omega) (by omega)
  have hmod := mod_add_of_div_eq hdiv
  rw [fileByte, hdiv, hmap, show (off + i) % g.blockSize = off % g.blockSize + i by omega]
  rfl

/-- Where all blocks are mapped the loop returns the bytes of the file and changes nothing. -/
theorem readLoop_mapped (fuel pid : ℕ) (hturns : last ≤ off + turns) (hstop : off ≤ stop)
    (h : ∀ bn, g.Met stop last off bn → (mapped g s ip bn).isSome) :
    ∃ n, readLoop g fuel pid stop last turns off ip s = .ok (slice (fileByte g s ip) off n, ip) s := by
  induction turns generalizing off with
  | zero => exact ⟨0, rfl⟩
  | succ turns ih =>
    rw [readLoop, exec_ite]
    split
    · exact ⟨0, rfl⟩
    · rename_i hlt
      rw [not_le] at hlt
      obtain ⟨b, hb⟩ := Option.isSome_iff_exists.mp (h _ ((g.met_step hlt hstop).mpr (.inl rfl)))
      have hne : b ≠ 0 := by
        rintro rfl
        simp [mapped, Option.bind_eq_some_iff] at hb
      have hpos := g.chunk_pos hlt
      simp only [exec_bind, bmap_mapped hb, exec_ite, if_neg hne, exec_get, exec_pure]
      split_ifs with hfits
      · obtain ⟨n, hrest⟩ := ih (by omega) hfits fun bn hmet =>
          h bn ((g.met_step hlt hstop).mpr (.inr ⟨hfits, hmet⟩))
        refine ⟨g.chunk last off + n, ?_⟩
        rw [hrest, ← slice_append, slice_fileByte hb (by unfold Ext2Geom.chunk; omega)]
      · refine ⟨stop - off, ?_⟩
        rw [slice_fileByte hb (by unfold Ext2Geom.chunk at *; omega)]

variable {bytes : List UInt8}

/-- What one turn of a loop that returns has done. -/
theorem readLoop_turn (hlt : off < last)
    (h : readLoop g fuel pid stop last (turns + 1) off ip s = .ok (bytes, ip') s') :
    ∃ addr ip₁ s₁, bmap g fuel pid ip (off / g.blockSize) s = .ok (addr, ip₁) s₁ ∧
      ((addr = 0 ∨ stop < off + g.chunk last off) ∧ bytes.length < g.chunk last off ∧ s' = s₁ ∨
        addr ≠ 0 ∧ off + g.chunk last off ≤ stop ∧ ∃ rest, bytes.length = g.chunk last off + rest.length ∧
          readLoop g fuel pid stop last turns (off + g.chunk last off) ip₁ s₁ = .ok (rest, ip') s') := by
  have hpos := g.chunk_pos hlt
  rw [readLoop, exec_ite, if_neg (by omega)] at h
  obtain ⟨⟨addr, ip₁⟩, s₁, hmap, h⟩ := bind_eq_ok.mp h
  refine ⟨addr, ip₁, s₁, hmap, ?_⟩
  dsimp only at h
  split at h
  · rename_i hzero
    cases h
    exact .inl ⟨.inl hzero, hpos, rfl⟩
  · rename_i hne
    rw [exec_get_bind, exec_ite] at h
    split at h
    · rename_i hfits
      obtain ⟨⟨rest, ip₂⟩, s₂, hrest, h⟩ := bind_eq_ok.mp h
      cases h
      exact .inr ⟨hne, hfits, rest, by simp, hrest⟩
    · cases h
      exact .inl ⟨.inr (by omega), by rw [slice_length]; omega, rfl⟩

theorem readLoop_grows (h : readLoop g fuel pid stop last turns off ip s = .ok (bytes, ip') s') :
    Grows s s' := by
  induction turns generalizing off ip s bytes with
  | zero =>
    cases h
    exact fun _ _ => id
  | succ turns ih =>
    by_cases hlt : off < last
    · obtain ⟨addr, ip₁, s₁, hmap, ⟨-, -, rfl⟩ | ⟨-, -, rest, -, hrest⟩⟩ := readLoop_turn hlt h
      · exact bmap_grows hmap
      · exact fun group i hset => ih hrest group i (bmap_grows hmap group i hset)
    · rw [readLoop, exec_ite, if_pos (by omega)] at h
      cases h
      exact fun _ _ => id

/-- A loop that leaves the file system as it was has found every block mapped. -/
theorem readLoop_unchanged (hturns : last ≤ off + turns) (hstop : off ≤ stop)
    (h : readLoop g fuel pid stop last turns off ip s = .ok (bytes, ip') s) (hmet : g.Met stop last off bn) :
    (mapped g s ip bn).isSome := by
  induction turns generalizing off bytes with
  | zero => exact absurd hmet.1 (by omega)
  | succ turns ih =>
    obtain ⟨addr, ip₁, s₁, hmap, hturn⟩ := readLoop_turn hmet.1 h
    have hback : Grows s₁ s := by
      obtain ⟨-, -, rfl⟩ | ⟨-, -, rest, -, hrest⟩ := hturn
      · exact fun _ _ => id
      · exact readLoop_grows hrest
    obtain ⟨hsome, -, rfl, rfl⟩ | ⟨-, first, num, u, htaken, hbitmap, -⟩ := bmap_cases hmap
    · obtain rfl | ⟨hfits, hmet'⟩ := (g.met_step hmet.1 hstop).mp hmet
      · rw [hsome]
        rfl
      · obtain ⟨hstopped, -⟩ | ⟨-, -, rest, -, hrest⟩ := hturn
        · obtain rfl | hstopped := hstopped
          · simp [mapped, Option.bind_eq_some_iff] at hsome
          · omega
        · have := g.chunk_pos hmet.1
          exact ih (by omega) hfits hrest hmet'
    · -- a block taken for this turn would still be set
      have hclear := (htaken.clear 0 htaken.pos).2
      have hset := hback (g.groupOf first) (g.bitOf first) (by
        rw [hbitmap, htaken.bitmap, update_self]
        exact markRun_mem le_rfl (by have := htaken.pos; omega))
      rw [Nat.add_zero, hset] at hclear
      cases hclear

/-- The length of a read is what the loop is asked for and what the call returns. -/
theorem readi_eq_ok {room : ℕ} {off n : UInt32} {f : Ext2File} {ret : ℤ}
    (h : ¬ f.RefusesRead off n) : readi g fuel pid room off n f s = .ok (ret, bytes, ip') s' ↔
    ret = asInt (f.readable off n) ∧
      readLoop g fuel pid (off.toNat + room) (off.toNat + (f.readable off n).toNat)
      (f.readable off n).toNat off.toNat f.ip s = .ok (bytes, ip') s' := by
  rw [readi, if_neg h, bind_eq_ok]
  constructor
  · rintro ⟨⟨moved, ip₁⟩, s₁, hloop, hret⟩
    obtain ⟨hr, rfl⟩ := EStateM.Result.ok.inj hret
    obtain ⟨hr, hpair⟩ := Prod.mk.inj hr
    exact ⟨hr.symm, by rw [hloop, hpair]⟩
  · rintro ⟨rfl, hloop⟩
    exact ⟨_, _, hloop, rfl⟩

/-- What a read is meant to do: it leaves the file system and the inode alone, and the bytes it
copies out are those of the file, zero where no block is mapped. -/
def ReadsOnly (g : Ext2Geom) (fuel pid room : ℕ) (off n : UInt32) (f : Ext2File) (s : Ext2) : Prop :=
  ∃ ret bytes, readi g fuel pid room off n f s = .ok (ret, bytes, f.ip) s ∧
    bytes = slice (fileByte g s f.ip) off.toNat bytes.length

/-- A read leaves the file system alone exactly if it is refused or every block it asks for is
mapped. -/
theorem readi_readsOnly_iff (g : Ext2Geom) (fuel pid room : ℕ) (off n : UInt32) (f : Ext2File) (s : Ext2) :
    ReadsOnly g fuel pid room off n f s ↔ f.RefusesRead off n ∨
      ∀ bn, g.Met (off.toNat + room) (off.toNat + (f.readable off n).toNat) off.toNat bn →
        (mapped g s f.ip bn).isSome := by
  unfold ReadsOnly
  by_cases hrefused : f.RefusesRead off n
  · exact iff_of_true ⟨-1, [], by rw [readi, if_pos hrefused]; rfl, rfl⟩ (.inl hrefused)
  · simp only [readi_eq_ok hrefused, or_iff_right hrefused]
    constructor
    · rintro ⟨ret, bytes, ⟨-, hloop⟩, -⟩ bn hmet
      exact readLoop_unchanged (by omega) (by omega) hloop hmet
    · intro h
      obtain ⟨k, hloop⟩ := readLoop_mapped fuel pid le_rfl (by omega) h
      exact ⟨_, _, ⟨rfl, hloop⟩, by rw [slice_length]⟩

/-- A file of one byte without a block. -/
def sparseFile : Ext2File := ⟨emptyInode, false, 0, 0, 1, 1, ⟨0, 0, 1, emptyInode.iBlock, 1⟩⟩

/-- Reading the hole takes block 4. -/
theorem readi_sparse_allocates : ¬ ReadsOnly oneGroup 1 0 1 0 1 sparseFile fragmented := by
  rintro ⟨ret, bytes, h, -⟩
  have hrun : ∃ r s', readi oneGroup 1 0 1 0 1 sparseFile fragmented = .ok r s' ∧ s'.bitmap 0 4 = true :=
    ⟨_, _, rfl, rfl⟩
  obtain ⟨r, s', hrun, hset⟩ := hrun
  rw [hrun] at h
  cases h
  exact absurd hset (by decide)

/-! ### Writes -/

/-- The offset at which the last complete copy of a transfer ends. -/
def Ext2Geom.reached (g : Ext2Geom) (stop last off : ℕ) : ℕ :=
  if last ≤ stop then last else max off (stop / g.blockSize * g.blockSize)

theorem Ext2Geom.reached_step (hlt : off < last) :
    g.reached stop last off =
      if off + g.chunk last off ≤ stop then g.reached stop last (off + g.chunk last off) else off := by
  have hchunk := g.add_chunk hlt
  have hle : off / g.blockSize * g.blockSize ≤ off := Nat.div_mul_le_self off g.blockSize
  unfold reached
  split_ifs with hlast hfits hfits
  · rfl
  · omega
  · have hnext : off + g.chunk last off = (off / g.blockSize + 1) * g.blockSize := by omega
    have := Nat.mul_le_mul_right g.blockSize ((Nat.le_div_iff_mul_le g.blockSize_pos).mpr (hnext ▸ hfits))
    omega
  · have hdiv : stop / g.blockSize < off / g.blockSize + 1 := by
      rw [Nat.div_lt_iff_lt_mul g.blockSize_pos]
      omega
    have := Nat.mul_le_mul_right g.blockSize (Nat.le_of_lt_succ hdiv)
    omega

/-- Of the inode's slots a write fills those on its way that were empty, and no others. -/
structure Filled (g : Ext2Geom) (met : ℕ → Prop) (ip ip' : Ext2Inode) : Prop where
  kept : ∀ slot, ip.iBlock slot ≠ 0 → ip'.iBlock slot = ip.iBlock slot
  other : ∀ slot, (∀ bn, met bn → slotOf g bn ≠ slot) → ip'.iBlock slot = ip.iBlock slot
  met : ∀ bn, met bn → ip'.iBlock (slotOf g bn) ≠ 0

/-- One call fills the slot on its way. Block 0 is never handed out. -/
theorem bmap_filled (hzero : g.firstDataBlock = 0 → s.inUse g 0 = true)
    (h : bmap g fuel pid ip bn s = .ok (b, ip') s') : Filled g (· = bn) ip ip' := by
  obtain ⟨-, hne, rfl, -⟩ | ⟨-, first, num, u, htaken, -, rfl, -⟩ := bmap_cases h
  · exact ⟨fun _ _ => rfl, fun _ _ => rfl, by rintro _ rfl; exact hne⟩
  · have hfirst : first ≠ 0 := by
      rintro rfl
      have hclear := (htaken.inUse le_rfl (by have := htaken.pos; omega)).1
      rw [hzero (Nat.le_zero.mp htaken.first_le)] at hclear
      cases hclear
    unfold Ext2Inode.fill
    split
    · rename_i hempty
      refine ⟨fun slot hne => ?_, fun slot hother => ?_, ?_⟩
      · exact update_of_ne (by rintro rfl; exact hne hempty) _ _
      · exact update_of_ne (hother bn rfl).symm _ _
      · rintro _ rfl
        dsimp only
        rwa [update_self]
    · rename_i hne
      exact ⟨fun _ _ => rfl, fun _ _ => rfl, by rintro _ rfl; exact hne⟩

theorem Filled.trans {ip₁ : Ext2Inode} {met met' both : ℕ → Prop} (h : Filled g met ip ip₁)
    (h' : Filled g met' ip₁ ip')
    (hboth : ∀ bn, both bn ↔ met bn ∨ met' bn) : Filled g both ip ip' where
  kept slot hne := by rw [h'.kept slot (by rwa [h.kept slot hne]), h.kept slot hne]
  other slot hother := by
    rw [h'.other slot fun bn hbn => hother bn ((hboth bn).mpr (.inr hbn)),
      h.other slot fun bn hbn => hother bn ((hboth bn).mpr (.inl hbn))]
  met bn hbn := by
    obtain hbn | hbn := (hboth bn).mp hbn
    · rw [h'.kept _ (h.met bn hbn)]
      exact h.met bn hbn
    · exact h'.met bn hbn

/-- What a write loop that returns has done: how far it came, and which slots it filled. -/
theorem writeLoop_ok {src : Bytes} {reached : ℕ} (hturns : last ≤ off + turns) (hstop : off ≤ stop)
    (hle : off ≤ last)
    (h : writeLoop g fuel pid src stop last turns off ip s = .ok (reached, ip') s') :
    reached = g.reached stop last off ∧
      ((g.firstDataBlock = 0 → s.inUse g 0 = true) → Filled g (g.Met stop last off) ip ip') := by
  induction turns generalizing off ip s with
  | zero =>
    obtain ⟨hr, rfl⟩ := EStateM.Result.ok.inj h
    obtain ⟨rfl, rfl⟩ := Prod.mk.inj hr
    obtain rfl : off = last := by omega
    exact ⟨(if_pos hstop).symm,
      fun _ => ⟨fun _ _ => rfl, fun _ _ => rfl, fun bn hmet => absurd hmet.1 (by omega)⟩⟩
  | succ turns ih =>
    rw [writeLoop, exec_ite] at h
    split at h
    · obtain ⟨hr, rfl⟩ := EStateM.Result.ok.inj h
      obtain ⟨rfl, rfl⟩ := Prod.mk.inj hr
      obtain rfl : off = last := by omega
      exact ⟨(if_pos hstop).symm,
        fun _ => ⟨fun _ _ => rfl, fun _ _ => rfl, fun bn hmet => absurd hmet.1 (by omega)⟩⟩
    · rename_i hlt
      rw [not_le] at hlt
      have hchunk := g.add_chunk hlt
      have hpos := g.chunk_pos hlt
      obtain ⟨⟨addr, ip₁⟩, s₁, hmap, h⟩ := bind_eq_ok.mp h
      obtain ⟨_, s₂, hcopy, h⟩ := bind_eq_ok.mp h
      cases hcopy
      rw [g.reached_step hlt]
      split at h
      · rename_i hfits
        obtain ⟨hreached, hfilled⟩ := ih (by omega) hfits (by omega) h
        rw [if_pos hfits]
        refine ⟨hreached, fun hzero => (bmap_filled hzero hmap).trans (hfilled fun hfirst => ?_) fun bn => ?_⟩
        · exact bmap_grows hmap _ _ (hzero hfirst)
        · rw [g.met_step hlt hstop, and_iff_right hfits]
      · rename_i hfits
        obtain ⟨hr, -⟩ := EStateM.Result.ok.inj h
        obtain ⟨rfl, rfl⟩ := Prod.mk.inj hr
        rw [if_neg hfits]
        refine ⟨rfl, fun hzero => ?_⟩
        have hmet : g.Met stop last off = (· = off / g.blockSize) := by
          funext bn
          rw [g.met_step hlt hstop, eq_iff_iff]
          exact or_iff_left fun hmore => hfits hmore.1
        rw [hmet]
        exact bmap_filled hzero hmap

/-- A copy into a block of data moves no path of the inode. -/
theorem MapsTo.follow_copyIn (off n : ℕ) (src : Bytes) (hwf : TreeWf g s ip) (h : MapsTo g (s, ip) bn b)
    (p : List ℕ) (hp : g.ValidPath p) : follow (s.copyIn b off n src).ptr ip.iBlock p =
    follow s.ptr ip.iBlock p := by
  obtain ⟨hne, slot, rest, _, _, hof, rfl⟩ := h
  induction p using List.reverseRecOn with
  | nil => rfl
  | append_singleton p i ih =>
    obtain rfl | hnil := eq_or_ne p []
    · rfl
    · have hp' := g.validPath_closed p i hnil hp
      rw [follow_concat hnil, follow_concat hnil, ih hp', child, child]
      split
      · rfl
      · rename_i hnull
        -- the block of data has no pointers: a path through it would be longer than the levels of
        -- its slot
        have hother : follow s.ptr ip.iBlock p ≠ follow s.ptr ip.iBlock (slot :: rest) := by
          intro heq
          obtain rfl := hwf.tree p _ hp' hof.valid hnull heq
          have hlen : (rest ++ [i]).length ≤ levels slot := hp.2.1
          rw [← hof.full, List.length_append] at hlen
          simp at hlen
        exact congrFun (update_of_ne hother _ _) i

/-- One turn of a write at which the block map can link what it takes keeps the tree and loses
nothing. -/
theorem writeTurn_spec (off n : ℕ) (src : Bytes) (hwf : TreeWf g s ip) (hlink : Linkable g s ip pid bn)
    (h : bmap g fuel pid ip bn s = .ok (b, ip') s') :
    TreeWf g (s'.copyIn b off n src) ip' ∧ MapsTo g (s'.copyIn b off n src, ip') bn b ∧
      KeepsTree g (s, ip) (s'.copyIn b off n src, ip') := by
  have hstep : LinkStep g (s, ip) ⟨fuel, pid, bn, b⟩ (s', ip') := ⟨hlink, h⟩
  obtain ⟨hwf', hmaps, hkeeps⟩ := linkStep_spec hwf hstep
  have hfollow := hmaps.follow_copyIn off n src hwf'
  have hcopy : KeepsTree g (s', ip') (s'.copyIn b off n src, ip') :=
    ⟨fun p hp _ => hfollow p hp, fun _ _ huse => .inl huse⟩
  refine ⟨⟨fun p q hp hq hne heq => ?_, fun p hp hne => ?_, hwf'.zero⟩, hmaps.keep hcopy,
    hkeeps.trans hwf.zero hcopy⟩
  · rw [hfollow p hp] at hne heq
    rw [hfollow q hq] at heq
    exact hwf'.tree p q hp hq hne heq
  · rw [hfollow p hp] at hne ⊢
    exact hwf'.owned p hp hne

/-- The block map can link every block that a transfer asks for; if several are missing, all of
these are direct. -/
structure AllLinkable (g : Ext2Geom) (s : Ext2) (ip : Ext2Inode) (pid : ℕ) (met : ℕ → Prop) : Prop where
  linkable : ∀ bn, met bn → Linkable g s ip pid bn
  direct : ∀ bn bn', met bn → met bn' → bn ≠ bn' →
    (∃ b, MapsTo g (s, ip) bn b) ∨ (∃ b, MapsTo g (s, ip) bn' b) ∨ bn < ndirBlocks ∧ bn' < ndirBlocks

/-- Fewer blocks are linked if more are. -/
theorem AllLinkable.mono {met met' : ℕ → Prop} (h : AllLinkable g s ip pid met)
    (hsub : ∀ bn, met' bn → met bn) : AllLinkable g s ip pid met' :=
  ⟨fun bn hbn => h.linkable bn (hsub bn hbn), fun bn bn' hbn hbn' => h.direct bn bn' (hsub bn hbn)
    (hsub bn' hbn')⟩

/-- The slot of a direct block is its own. -/
theorem slotOf_direct (h : bn < ndirBlocks) : slotOf g bn = bn := by
  simp [slotOf, blockToPath, h]

/-- A mapped block can be linked. -/
theorem MapsTo.linkable (h : MapsTo g (s, ip) bn b) : Linkable g s ip pid bn := by
  obtain ⟨hne, slot, rest, boundary, hpath, -, rfl⟩ := h
  exact ⟨slot, rest, boundary, hpath, .inl hne⟩

/-- Behind a turn the blocks of the other turns can still be linked. -/
theorem AllLinkable.turn {n : ℕ} {src : Bytes} {met : ℕ → Prop} (hwf : TreeWf g s ip)
    (hlinks : AllLinkable g s ip pid met)
    (hmet : met bn) (h : bmap g fuel pid ip bn s = .ok (b, ip') s') :
    AllLinkable g (s'.copyIn b off n src) ip' pid met := by
  obtain ⟨-, hmaps, hkeeps⟩ := writeTurn_spec off n src hwf (hlinks.linkable bn hmet) h
  have hkeep : ∀ {bn'}, (∃ b', MapsTo g (s, ip) bn' b') →
    ∃ b', MapsTo g (s'.copyIn b off n src, ip') bn' b' :=
    fun hmapped => hmapped.imp fun _ hm => hm.keep hkeeps
  refine ⟨fun bn' hmet' => ?_, fun bn₁ bn₂ hmet₁ hmet₂ hne => ?_⟩
  · obtain rfl | hne := eq_or_ne bn' bn
    · exact hmaps.linkable
    obtain hmapped | ⟨b', hmapped⟩ | ⟨hdir', hdir⟩ := hlinks.direct bn' bn hmet' hmet hne
    · obtain ⟨b', hmapped⟩ := hkeep hmapped
      exact hmapped.linkable
    · -- the turn has found its block: the inode and the bitmaps are as before
      cases (hmapped.bmap_eq hwf fuel pid).symm.trans h
      obtain ⟨slot, rest, boundary, hpath, hfull | hmissing⟩ := hlinks.linkable bn' hmet'
      · obtain ⟨_, _, heq, hof⟩ := blockToPath_spec hpath
        cases heq
        refine ⟨slot, rest, boundary, hpath, .inl ?_⟩
        rw [hkeeps.mono _ hof.valid hfull]
        exact hfull
      · exact ⟨slot, rest, boundary, hpath, .inr hmissing⟩
    · by_cases hempty : ip.iBlock bn' = 0
      · refine ⟨bn', [], _, if_pos hdir', .inr ⟨?_, .inl rfl⟩⟩
        rw [(bmap_filled hwf.zero h).other bn', hempty]
        rintro _ rfl
        rw [slotOf_direct hdir]
        exact hne.symm
      · refine ⟨bn', [], _, if_pos hdir', .inl ?_⟩
        rw [follow_singleton, (bmap_filled hwf.zero h).kept bn' hempty]
        exact hempty
  · exact (hlinks.direct bn₁ bn₂ hmet₁ hmet₂ hne).imp hkeep (Or.imp_left hkeep)

/-- A write whose blocks can all be linked loses none. -/
theorem writeLoop_keeps {src : Bytes} {reached : ℕ} (hwf : TreeWf g s ip) (hstop : off ≤ stop)
    (hlinks : AllLinkable g s ip pid (g.Met stop last off))
    (h : writeLoop g fuel pid src stop last turns off ip s = .ok (reached, ip') s') :
    KeepsTree g (s, ip) (s', ip') := by
  induction turns generalizing off ip s with
  | zero =>
    cases h
    exact .refl g _
  | succ turns ih =>
    rw [writeLoop, exec_ite] at h
    split at h
    · cases h
      exact .refl g _
    · rename_i hlt
      rw [not_le] at hlt
      have hmet : g.Met stop last off (off / g.blockSize) := (g.met_step hlt hstop).mpr (.inl rfl)
      obtain ⟨⟨addr, ip₁⟩, s₁, hmap, h⟩ := bind_eq_ok.mp h
      obtain ⟨_, s₂, hcopy, h⟩ := bind_eq_ok.mp h
      cases hcopy
      obtain ⟨hwf', -, hkeeps⟩ := writeTurn_spec _ _ _ hwf (hlinks.linkable _ hmet) hmap
      split at h
      · rename_i hfits
        refine hkeeps.trans hwf.zero (ih hwf' hfits ((hlinks.turn hwf hmet hmap).mono fun bn hbn => ?_) h)
        exact (g.met_step hlt hstop).mpr (.inr ⟨hfits, hbn⟩)
      · cases h
        exact hkeeps

/-- The inode in the table has the pointers, the size and the link count of the inode in memory. -/
def Ext2File.Durable (f : Ext2File) : Prop :=
  f.stored.block = f.ip.iBlock ∧ f.stored.size = f.size.toNat ∧ f.stored.linksCount = f.nlink

/-- Every block that came into use from `s` to `s'` is on a path of the inode in the table. -/
def Ext2File.LosesNone (g : Ext2Geom) (s s' : Ext2) (f : Ext2File) : Prop :=
  ∀ b, g.firstDataBlock ≤ b → s.inUse g b = false → s'.inUse g b = true →
    ∃ p, g.ValidPath p ∧ follow s'.ptr f.stored.block p = b

/-- The blocks that a write asks for. -/
def Ext2Geom.MetBy (g : Ext2Geom) (room : ℕ) (off n : UInt32) : ℕ → Prop :=
  g.Met (off.toNat + room) (off.toNat + n.toNat) off.toNat

/-- The inode in memory has the pointers that the loop has left. -/
theorem Ext2File.written_ip (f : Ext2File) (n : UInt32) (reached : ℕ) (ip : Ext2Inode) :
    (f.written n reached ip).ip = ip := by
  unfold written
  split <;> rfl

/-- A write that is not refused runs the loop and returns its length. -/
theorem writei_eq_ok {src : Bytes} {room moved : ℕ} {off n : UInt32} {f f' : Ext2File} {ret : ℤ}
    (h : ¬ f.RefusesWrite off n) :
    writei g fuel pid src room off n f s = .ok (ret, moved, f') s' ↔ ∃ reached ip', ret = asInt n ∧
      moved = reached - off.toNat ∧ f' = f.written n reached ip' ∧
      writeLoop g fuel pid src (off.toNat + room) (off.toNat + n.toNat) n.toNat off.toNat f.ip s =
        .ok (reached, ip') s' := by
  rw [writei, if_neg h, bind_eq_ok]
  constructor
  · rintro ⟨⟨reached, ip'⟩, s₁, hloop, hret⟩
    obtain ⟨hr, rfl⟩ := EStateM.Result.ok.inj hret
    obtain ⟨hfst, hpair⟩ := Prod.mk.inj hr
    obtain ⟨rfl, rfl⟩ := Prod.mk.inj hpair
    exact ⟨reached, ip', hfst.symm, rfl, rfl, hloop⟩
  · rintro ⟨reached, ip', rfl, rfl, rfl, hloop⟩
    exact ⟨_, _, hloop, rfl⟩

/-- The block map yields a block at every turn of a transfer. -/
def Yields (g : Ext2Geom) (fuel pid last : ℕ) : ℕ → ℕ → Ext2Inode → Ext2 → Prop
  | 0, _, _, _ => True
  | turns + 1, off, ip, s => off < last → ∃ b ip' s', bmap g fuel pid ip (off / g.blockSize) s =
      .ok (b, ip') s' ∧
      b ≠ 0 ∧ Yields g fuel pid last turns (off + g.chunk last off) ip' s'

/-- A read moves everything exactly if no copy fails and the block map yields every block. -/
theorem readLoop_length (hturns : last ≤ off + turns) (hstop : off ≤ stop) (hle : off ≤ last)
    (h : readLoop g fuel pid stop last turns off ip s = .ok (bytes, ip') s') :
    bytes.length = last - off ↔ last ≤ stop ∧ Yields g fuel pid last turns off ip s := by
  induction turns generalizing off ip s bytes with
  | zero =>
    cases h
    exact iff_of_true (by simp; omega) ⟨by omega, trivial⟩
  | succ turns ih =>
    by_cases hlt : off < last
    · have hchunk := g.add_chunk hlt
      have hpos := g.chunk_pos hlt
      obtain ⟨addr, ip₁, s₁, hmap, ⟨hstopped, hshort, -⟩ | ⟨hne, hfits, rest, hlen, hrest⟩⟩ :=
        readLoop_turn hlt h
      · refine iff_of_false (by omega) ?_
        rintro ⟨hlast, hyields⟩
        obtain ⟨b, ip₂, s₂, hmap', hb, -⟩ := hyields hlt
        cases hmap.symm.trans hmap'
        obtain rfl | hstopped := hstopped
        · exact hb rfl
        · omega
      · rw [hlen, show g.chunk last off + rest.length = last - off ↔
          rest.length = last - (off + g.chunk last off) by omega,
          ih (by omega) hfits (by omega) hrest]
        refine and_congr_right fun _ => ⟨fun hyields _ => ⟨addr, ip₁, s₁, hmap, hne, hyields⟩,
          fun hyields => ?_⟩
        obtain ⟨b, ip₂, s₂, hmap', -, hyields⟩ := hyields hlt
        cases hmap.symm.trans hmap'
        exact hyields
    · rw [readLoop, exec_ite, if_pos (by omega)] at h
      cases h
      exact iff_of_true (by simp; omega) ⟨by omega, fun hlt' => absurd hlt' hlt⟩

/-- A read returns the number of bytes it has copied out, or -1. -/
def ReadReports (g : Ext2Geom) (fuel pid room : ℕ) (off n : UInt32) (f : Ext2File) (s : Ext2) : Prop :=
  ∃ ret bytes ip' s', readi g fuel pid room off n f s = .ok (ret, bytes, ip') s' ∧
    (ret = bytes.length ∨ ret = -1)

/-- A write returns the number of bytes it has written, or -1. -/
def WriteReports (g : Ext2Geom) (fuel pid : ℕ) (src : Bytes) (room : ℕ) (off n : UInt32)
    (f : Ext2File) (s : Ext2) :
    Prop :=
  ∃ ret moved f' s', writei g fuel pid src room off n f s = .ok (ret, moved, f') s' ∧
    (ret = (moved : ℕ) ∨ ret = -1)

/-- A length that is returned as it is, and the one that passes for a refusal. -/
theorem asInt_reports_iff (n : UInt32) (k : ℕ) :
    asInt n = k ∨ asInt n = -1 ↔ asInt n = -1 ∨ asInt n = n.toNat ∧ k = n.toNat := by
  have := n.toNat_lt
  unfold asInt
  split <;> omega

/-- Both functions report what they moved exactly if they refuse the call, or return and have moved
all that they were asked for: no copy fails and, for a read, the block map yields every block. -/
theorem transfers_report_iff (g : Ext2Geom) (fuel pid : ℕ) (src : Bytes) (room : ℕ) (off n : UInt32)
    (f : Ext2File)
    (s : Ext2) :
    (ReadReports g fuel pid room off n f s ↔ f.RefusesRead off n ∨
      (∃ r s', readi g fuel pid room off n f s = .ok r s') ∧
      (asInt (f.readable off n) = -1 ∨ asInt (f.readable off n) = (f.readable off n).toNat ∧
        (f.readable off n).toNat ≤ room ∧
        Yields g fuel pid (off.toNat + (f.readable off n).toNat) (f.readable off n).toNat off.toNat f.ip s)) ∧
    (WriteReports g fuel pid src room off n f s ↔ f.RefusesWrite off n ∨
      (∃ r s', writei g fuel pid src room off n f s = .ok r s') ∧
      (asInt n = -1 ∨ asInt n = n.toNat ∧ n.toNat ≤ room)) := by
  constructor
  · by_cases hrefused : f.RefusesRead off n
    · exact iff_of_true ⟨-1, [], f.ip, s, by rw [readi, if_pos hrefused]; rfl, .inr rfl⟩ (.inl hrefused)
    · have hall : ∀ {bytes ip' s'}, readLoop g fuel pid (off.toNat + room)
        (off.toNat + (f.readable off n).toNat)
          (f.readable off n).toNat off.toNat f.ip s = .ok (bytes, ip') s' →
          (bytes.length = (f.readable off n).toNat ↔ (f.readable off n).toNat ≤ room ∧
            Yields g fuel pid (off.toNat + (f.readable off n).toNat)
              (f.readable off n).toNat off.toNat f.ip s) := by
        intro bytes ip' s' hloop
        have hlen := readLoop_length le_rfl (by omega) (by omega) hloop
        rwa [Nat.add_sub_cancel_left, Nat.add_le_add_iff_left] at hlen
      simp only [ReadReports, Prod.exists, readi_eq_ok hrefused, or_iff_right hrefused]
      constructor
      · rintro ⟨ret, bytes, ip', s', ⟨rfl, hloop⟩, hret⟩
        rw [asInt_reports_iff, hall hloop] at hret
        exact ⟨⟨_, _, _, _, rfl, hloop⟩, hret⟩
      · rintro ⟨⟨ret, bytes, ip', s', rfl, hloop⟩, hcase⟩
        refine ⟨_, _, _, _, ⟨rfl, hloop⟩, ?_⟩
        rw [asInt_reports_iff, hall hloop]
        exact hcase
  · by_cases hrefused : f.RefusesWrite off n
    · exact iff_of_true ⟨-1, 0, f, s, by rw [writei, if_pos hrefused]; rfl, .inr rfl⟩ (.inl hrefused)
    · have hall : ∀ {reached ip' s'}, writeLoop g fuel pid src (off.toNat + room)
        (off.toNat + n.toNat) n.toNat off.toNat
          f.ip s = .ok (reached, ip') s' → (reached - off.toNat = n.toNat ↔ n.toNat ≤ room) := by
        intro reached ip' s' hloop
        have := Nat.div_mul_le_self (off.toNat + room) g.blockSize
        rw [(writeLoop_ok (by omega) (by omega) (by omega) hloop).1, Ext2Geom.reached]
        split <;> omega
      simp only [WriteReports, Prod.exists, writei_eq_ok hrefused, or_iff_right hrefused]
      constructor
      · rintro ⟨ret, moved, f', s', ⟨reached, ip', rfl, rfl, rfl, hloop⟩, hret⟩
        rw [asInt_reports_iff, hall hloop] at hret
        exact ⟨⟨_, _, _, _, _, ip', rfl, rfl, rfl, hloop⟩, hret⟩
      · rintro ⟨⟨ret, moved, f', s', reached, ip', rfl, rfl, rfl, hloop⟩, hcase⟩
        refine ⟨_, _, _, _, ⟨_, ip', rfl, rfl, rfl, hloop⟩, ?_⟩
        rw [asInt_reports_iff, hall hloop]
        exact hcase

/-- A write whose copy fails at once returns the length it was asked for. -/
theorem writei_failed_copy_reports :
    ¬ WriteReports oneGroup 1 0 (fun _ => 0) 0 0 1 sparseFile fragmented := by
  rintro ⟨ret, moved, f', s', h, hret⟩
  obtain ⟨hr, -⟩ := EStateM.Result.ok.inj h
  obtain ⟨rfl, hpair⟩ := Prod.mk.inj hr
  obtain ⟨rfl, -⟩ := Prod.mk.inj hpair
  revert hret
  decide

end Xv6
