import Mathlib.Data.Set.Function
import Xv6.Lib.Run
import Xv6.Ext2.Alloc
import Xv6.Ext2.Bmap

/-!
# Stability of the block map

The pointers of an inode form a tree: a path is the offsets of `ext2_block_to_path`, and no
two paths lead to one block. A call of `ext2_bmap` that finds its chain complete returns
the block at the end of the path. One that finds the inode's own pointer empty and gets
a full run from the allocator hangs a chain of fresh blocks into the tree. In both cases
every block of the map stays where it is.
-/

namespace Xv6

open Lib Function

variable {g : Ext2Geom} {s s' : Ext2} {ip ip' : Ext2Inode}

variable {bn slot b boundary first : ℕ} {rest : List ℕ} {u : Ext2} {st st' : Ext2 × Ext2Inode}

/-- The levels of indirect blocks below a slot of `i_block`. -/
def levels (slot : ℕ) : ℕ := slot + 1 - ndirBlocks

/-- Beginnings of the paths of logical blocks. -/
def Ext2Geom.ValidPath (g : Ext2Geom) : List ℕ → Prop
  | [] => False
  | slot :: p => slot ≤ tindBlock ∧ p.length ≤ levels slot ∧ ∀ j ∈ p, j < g.ptrs

theorem Ext2Geom.validPath_closed : Closed g.ValidPath := by
  intro p i hp h
  cases p with
  | nil => exact absurd rfl hp
  | cons slot p =>
    rw [List.cons_append] at h
    obtain ⟨hslot, hlen, hptrs⟩ := h
    rw [List.length_append] at hlen
    exact ⟨hslot, by omega, fun j hj => hptrs j (List.mem_append_left _ hj)⟩

/-- The logical block at the end of a full path. -/
def Ext2Geom.blockAt (g : Ext2Geom) : List ℕ → ℕ
  | [i] => i
  | [_, i] => ndirBlocks + i
  | [_, i, j] => ndirBlocks + g.ptrs + (i * g.ptrs + j)
  | [_, i, j, k] => ndirBlocks + g.ptrs + g.ptrs * g.ptrs + ((i * g.ptrs + j) * g.ptrs + k)
  | _ => 0

theorem Ext2Geom.ptrs_pos : 0 < g.ptrs := Nat.two_pow_pos _

theorem Ext2Geom.ptrs_sq : 2 ^ (g.addrBits * 2) = g.ptrs * g.ptrs := by
  rw [ptrs, ← pow_add]
  congr 1
  omega

/-- What `blockToPath` returns: a full path that determines the block, whose slot is the one
`updateBranch` fills. -/
structure PathOf (g : Ext2Geom) (bn slot : ℕ) (rest : List ℕ) : Prop where
  valid : g.ValidPath (slot :: rest)
  full : rest.length = levels slot
  blockAt : g.blockAt (slot :: rest) = bn
  update : ∀ ip key, updateBranch g ip bn key = .ok (ip.fill slot key)

theorem blockToPath_spec {path : List ℕ} (h : blockToPath g bn = some (path, boundary)) :
    ∃ slot rest, path = slot :: rest ∧ PathOf g bn slot rest := by
  have hpos := g.ptrs_pos
  unfold blockToPath at h
  dsimp only at h
  rw [g.ptrs_sq] at h
  split at h
  · rename_i hdirect
    simp only [Option.some.injEq, Prod.mk.injEq] at h
    refine ⟨bn, [], h.1.symm, ⟨(lt_of_lt_of_le hdirect (by decide)).le, by simp, by simp⟩, ?_, rfl, ?_⟩
    · simp only [List.length_nil, levels]
      omega
    · intro ip key
      rw [updateBranch, if_pos hdirect]
  · rename_i hdirect
    split at h
    · rename_i hind
      simp only [Option.some.injEq, Prod.mk.injEq] at h
      refine ⟨indBlock, _, h.1.symm, ⟨by decide, le_refl _, by simpa using hind⟩, rfl, ?_, ?_⟩
      · simp only [Ext2Geom.blockAt]
        omega
      · intro ip key
        rw [updateBranch, if_neg hdirect, if_pos hind]
    · rename_i hind
      split at h
      · rename_i hdind
        simp only [Option.some.injEq, Prod.mk.injEq] at h
        refine ⟨dindBlock, _, h.1.symm, ⟨by decide, le_refl _, ?_⟩, rfl, ?_, ?_⟩
        · simp only [List.mem_cons, List.not_mem_nil, or_false, forall_eq_or_imp, forall_eq]
          exact ⟨Nat.div_lt_of_lt_mul hdind, Nat.mod_lt _ hpos⟩
        · simp only [Ext2Geom.blockAt]
          have := Nat.div_add_mod' (bn - ndirBlocks - g.ptrs) g.ptrs
          omega
        · intro ip key
          rw [updateBranch, if_neg hdirect, if_neg hind, g.ptrs_sq, if_pos hdind]
      · rename_i hdind
        split at h
        · rename_i htind
          simp only [Option.some.injEq, Prod.mk.injEq] at h
          refine ⟨tindBlock, _, h.1.symm, ⟨by decide, le_refl _, ?_⟩, rfl, ?_, ?_⟩
          · simp only [List.mem_cons, List.not_mem_nil, or_false, forall_eq_or_imp, forall_eq]
            exact ⟨htind, Nat.mod_lt _ hpos, Nat.mod_lt _ hpos⟩
          · simp only [Ext2Geom.blockAt]
            rw [← Nat.div_div_eq_div_mul, Nat.div_add_mod', Nat.div_add_mod']
            omega
          · intro ip key
            rw [updateBranch, if_neg hdirect, if_neg hind, g.ptrs_sq, if_neg hdind, if_pos htind]
        · simp at h

/-- Different blocks have different paths. -/
theorem PathOf.injective {bn' slot' : ℕ} {rest' : List ℕ} (h : PathOf g bn slot rest)
    (h' : PathOf g bn' slot' rest') (heq : slot :: rest = slot' :: rest') : bn = bn' := by
  rw [← h.blockAt, ← h'.blockAt, heq]

section Bijection

/-- The number of blocks that paths lead to. -/
def Ext2Geom.capacity (g : Ext2Geom) : ℕ := ndirBlocks + g.ptrs + g.ptrs ^ 2 + g.ptrs ^ 3

/-- Paths of logical blocks: every offset is in range, and the path ends at the data. -/
def Ext2Geom.FullPath (g : Ext2Geom) (path : List ℕ) : Prop :=
  g.ValidPath path ∧ path.length = levels (path.headD 0) + 1

/-- The length of the array that the last offset of a path points into. -/
def Ext2Geom.lastArray (g : Ext2Geom) (path : List ℕ) : ℕ := if path.length = 1 then ndirBlocks else g.ptrs

variable {bn boundary : ℕ} {path : List ℕ}

theorem PathOf.fullPath (h : PathOf g bn slot rest) : g.FullPath (slot :: rest) :=
  ⟨h.valid, by rw [List.length_cons, h.full, List.headD_cons]⟩

theorem exists_blockToPath_iff : (∃ r, blockToPath g bn = some r) ↔ bn < g.capacity := by
  have hcube : g.ptrs ^ 2 = g.ptrs * g.ptrs ∧ g.ptrs ^ 3 = g.ptrs * g.ptrs * g.ptrs := by
    constructor <;> ring
  have hdiv : (bn - ndirBlocks - g.ptrs - g.ptrs * g.ptrs) / (g.ptrs * g.ptrs) < g.ptrs ↔
      bn - ndirBlocks - g.ptrs - g.ptrs * g.ptrs < g.ptrs * g.ptrs * g.ptrs := by
    rw [Nat.div_lt_iff_lt_mul (Nat.mul_pos g.ptrs_pos g.ptrs_pos), Nat.mul_comm g.ptrs (g.ptrs * g.ptrs)]
  rw [Ext2Geom.capacity, hcube.1, hcube.2]
  unfold blockToPath
  dsimp only
  rw [g.ptrs_sq]
  split_ifs with h1 h2 h3 h4
  · simpa using by omega
  · simpa using by omega
  · simpa using by omega
  · simpa using by omega
  · simpa using by omega

/-- The boundary counts the entries that follow in the last array. -/
theorem blockToPath_boundary (hsize : ndirBlocks ≤ g.ptrs) (h : blockToPath g bn = some (path, boundary)) :
    path.getLastD 0 + 1 + boundary = g.lastArray path := by
  have hmod : ∀ n, n % g.ptrs < g.ptrs := fun n => Nat.mod_lt n g.ptrs_pos
  unfold blockToPath at h
  dsimp only at h
  split_ifs at h with h1 h2 <;> obtain ⟨rfl, rfl⟩ := Prod.mk.inj (Option.some.inj h) <;>
    simp only [Ext2Geom.lastArray, List.length_cons, List.length_nil, List.getLastD_cons, List.getLastD_nil]
  · rw [Nat.mod_eq_of_lt (by omega), if_pos trivial]
    omega
  · rw [Nat.mod_eq_of_lt h2, if_neg (by omega)]
    omega
  all_goals
    have := hmod (bn - ndirBlocks - g.ptrs)
    have := hmod (bn - ndirBlocks - g.ptrs - 2 ^ (g.addrBits * 2))
    rw [if_neg (by omega)]
    omega

/-- The number of a full path leads back to it. -/
theorem blockToPath_blockAt (h : g.FullPath path) : ∃ boundary, blockToPath g (g.blockAt path) =
    some (path, boundary) := by
  obtain ⟨hvalid, hlen⟩ := h
  have hpair : ∀ i j, i < g.ptrs → j < g.ptrs → i * g.ptrs + j < g.ptrs * g.ptrs := by
    intro i j hi hj
    have := Nat.mul_le_mul_right g.ptrs (show i + 1 ≤ g.ptrs from hi)
    rw [Nat.add_mul] at this
    omega
  have hdiv : ∀ i j, j < g.ptrs → (i * g.ptrs + j) / g.ptrs = i := by
    intro i j hj
    rw [Nat.mul_comm, Nat.mul_add_div g.ptrs_pos, Nat.div_eq_of_lt hj, Nat.add_zero]
  have hmod : ∀ i j, j < g.ptrs → (i * g.ptrs + j) % g.ptrs = j := by
    intro i j hj
    rw [Nat.mul_comm, Nat.mul_add_mod, Nat.mod_eq_of_lt hj]
  have hslots : ndirBlocks = 12 ∧ indBlock = 12 ∧ dindBlock = 13 ∧ tindBlock = 14 := ⟨rfl, rfl, rfl, rfl⟩
  unfold blockToPath
  dsimp only
  rw [g.ptrs_sq]
  match path, hvalid, hlen with
  | [slot], _, hlen =>
    simp only [List.length_singleton, List.headD_cons, levels] at hlen
    rw [Ext2Geom.blockAt, if_pos (by omega)]
    exact ⟨_, rfl⟩
  | [slot, i], ⟨_, _, hptrs⟩, hlen =>
    simp only [List.length_cons, List.length_nil, List.headD_cons, levels] at hlen
    obtain rfl : slot = indBlock := by omega
    have hi := hptrs i (by simp)
    rw [Ext2Geom.blockAt, if_neg (by omega), Nat.add_sub_cancel_left, if_pos hi]
    exact ⟨_, rfl⟩
  | [slot, i, j], ⟨_, _, hptrs⟩, hlen =>
    simp only [List.length_cons, List.length_nil, List.headD_cons, levels] at hlen
    obtain rfl : slot = dindBlock := by omega
    have hi := hptrs i (by simp)
    have hj := hptrs j (by simp)
    have hlt := hpair i j hi hj
    rw [Ext2Geom.blockAt, if_neg (by omega), if_neg (by omega), Nat.sub_sub,
      Nat.add_sub_cancel_left, if_pos hlt,
      hdiv i j hj, hmod i j hj]
    exact ⟨_, rfl⟩
  | [slot, i, j, k], ⟨hslot, _, hptrs⟩, hlen =>
    simp only [List.length_cons, List.headD_cons, levels] at hlen
    obtain rfl : slot = tindBlock := by omega
    have hi := hptrs i (by simp)
    have hj := hptrs j (by simp)
    have hk := hptrs k (by simp)
    have hsub : ∀ n, ndirBlocks + g.ptrs + g.ptrs * g.ptrs + n - ndirBlocks - g.ptrs - g.ptrs * g.ptrs = n := by
      omega
    rw [Ext2Geom.blockAt, if_neg (by omega), if_neg (by omega), if_neg (by omega), hsub,
      ← Nat.div_div_eq_div_mul,
      hdiv _ k hk, hdiv i j hj, if_pos hi, hmod i j hj, hmod _ k hk]
    exact ⟨_, rfl⟩
  | slot :: i :: j :: k :: l :: rest, ⟨hslot, _, _⟩, hlen =>
    simp only [List.length_cons, List.headD_cons, levels] at hlen
    omega

/-- What is asked of `ext2_block_to_path` and `ext2_update_branch` at a number: in range a full path
from which the number is recovered, with the entries that follow in the last array, and whose first
offset is the slot that is updated; out of range a path of depth zero. -/
def PathSpec (g : Ext2Geom) (i : ℤ) : Prop :=
  if 0 ≤ i ∧ i < g.capacity then
    ∃ slot rest boundary, blockToPathLong g i = .ok (slot :: rest, boundary) ∧ g.FullPath (slot :: rest) ∧
      (g.blockAt (slot :: rest) : ℤ) = i ∧
      (slot :: rest).getLastD 0 + 1 + boundary = g.lastArray (slot :: rest) ∧
      ∀ ip key, updateBranch g ip i.toNat key = .ok (ip.fill slot key)
  else ∃ boundary, blockToPathLong g i = .ok ([], boundary)

/-- Block sizes from 1024 to 4096 bytes: a number in range has its path, one to one with the full
paths; the numbers out of range are those at which the function does not return. -/
theorem blockToPath_bijection (g : Ext2Geom) (hsize : 8 ≤ g.addrBits ∧ g.addrBits ≤ 10) :
    (∀ i, PathSpec g i ↔ 0 ≤ i ∧ i < g.capacity) ∧
      Set.BijOn (fun bn => ((blockToPath g bn).getD ([], 0)).1)
        (Set.Iio g.capacity) {path | g.FullPath path} := by
  have hptrs : ndirBlocks ≤ g.ptrs := le_trans (by decide) (Nat.pow_le_pow_right (by decide : 0 < 2) hsize.1)
  refine ⟨fun i => ⟨?_, ?_⟩, ?_, ?_, ?_⟩
  · intro h
    by_contra hout
    rw [PathSpec, if_neg hout] at h
    obtain ⟨boundary, h⟩ := h
    unfold blockToPathLong at h
    split at h
    · cases h
    · split at h
      · rename_i hpath
        obtain ⟨rfl⟩ := Except.ok.inj h
        obtain ⟨_, _, heq, -⟩ := blockToPath_spec hpath
        cases heq
      · cases h
  · rintro ⟨hpos, hlt⟩
    obtain ⟨bn, rfl⟩ := Int.eq_ofNat_of_zero_le hpos
    obtain ⟨⟨path, boundary⟩, hpath⟩ := exists_blockToPath_iff.mpr (Int.ofNat_lt.mp hlt)
    obtain ⟨slot, rest, rfl, hof⟩ := blockToPath_spec hpath
    rw [PathSpec, if_pos ⟨hpos, hlt⟩]
    refine ⟨slot, rest, boundary, ?_, hof.fullPath, congrArg _ hof.blockAt,
      blockToPath_boundary hptrs hpath, hof.update⟩
    rw [blockToPathLong, if_neg (by omega), Int.toNat_natCast, hpath]
  · intro bn hbn
    obtain ⟨⟨path, boundary⟩, hpath⟩ := exists_blockToPath_iff.mpr hbn
    obtain ⟨slot, rest, rfl, hof⟩ := blockToPath_spec hpath
    simpa [hpath] using hof.fullPath
  · intro bn hbn bn' hbn' heq
    obtain ⟨⟨path, boundary⟩, hpath⟩ := exists_blockToPath_iff.mpr hbn
    obtain ⟨⟨path', boundary'⟩, hpath'⟩ := exists_blockToPath_iff.mpr hbn'
    obtain ⟨slot, rest, rfl, hof⟩ := blockToPath_spec hpath
    obtain ⟨slot', rest', rfl, hof'⟩ := blockToPath_spec hpath'
    exact hof.injective hof' (by simpa [hpath, hpath'] using heq)
  · intro path hfull
    obtain ⟨boundary, hpath⟩ := blockToPath_blockAt hfull
    exact ⟨g.blockAt path, exists_blockToPath_iff.mp ⟨_, hpath⟩, by simp [hpath]⟩

/-- Block 268 is the first behind the doubly indirect pointer. -/
theorem blockToPath_bijection_oneGroup : PathSpec oneGroup 268 :=
  ((blockToPath_bijection oneGroup (by decide)).1 268).mpr (by decide)

/-- A negative number does not give depth zero: the function panics. -/
theorem blockToPath_negative_panics : ¬ PathSpec oneGroup (-1) := by
  rintro ⟨_, h⟩
  cases h

end Bijection

/-- The inode's tree of blocks with the bitmaps: a tree whose blocks are all in use, and block 0 is
not a free block. -/
structure TreeWf (g : Ext2Geom) (s : Ext2) (ip : Ext2Inode) : Prop where
  tree : Tree g.ValidPath s.ptr ip.iBlock
  owned : ∀ p, g.ValidPath p → follow s.ptr ip.iBlock p ≠ 0 →
    g.firstDataBlock ≤ follow s.ptr ip.iBlock p ∧ s.inUse g (follow s.ptr ip.iBlock p) = true
  zero : g.firstDataBlock = 0 → s.inUse g 0 = true

/-- The block whose pointers are read next after a beginning of a path; none is the inode. -/
def holder (s : Ext2) (ip : Ext2Inode) (p : List ℕ) : Option ℕ :=
  if p = [] then none else some (follow s.ptr ip.iBlock p)

theorem readSlot_holder {p : List ℕ} {i : ℕ} (h : p = [] ∨ follow s.ptr ip.iBlock p ≠ 0) :
    s.readSlot ip (holder s ip p) i = follow s.ptr ip.iBlock (p ++ [i]) := by
  obtain rfl | hp := eq_or_ne p []
  · rfl
  · rw [holder, if_neg hp, follow_concat hp, child_of_ne (h.resolve_left hp), Ext2.readSlot]

/-- The entry of a chain that is read after a beginning of a path. -/
def entry (s : Ext2) (ip : Ext2Inode) (p : List ℕ) (i : ℕ) : Indirect :=
  ⟨holder s ip p, i, follow s.ptr ip.iBlock (p ++ [i])⟩

/-- Along a complete path the chain is read to its end. `pre` is the part of the path already read,
`held` its blocks. -/
theorem getBranch_complete (htree : Tree g.ValidPath s.ptr ip.iBlock) (held pre : List ℕ) {i : ℕ}
    (hvalid : g.ValidPath (pre ++ i :: rest)) (hfull : follow s.ptr ip.iBlock (pre ++ i :: rest) ≠ 0)
    (hheld : ∀ x ∈ held, ∃ q, q ≠ [] ∧ q <+: pre ∧ x = follow s.ptr ip.iBlock q) :
    ∃ chain last, getBranch ip held (holder s ip pre) (i :: rest) s = .ok (entry s ip pre i :: chain) s ∧
      (entry s ip pre i :: chain).getLast? = some last ∧
        last.key = follow s.ptr ip.iBlock (pre ++ i :: rest) := by
  have hpre : pre = [] ∨ follow s.ptr ip.iBlock pre ≠ 0 := by
    by_contra hc
    obtain ⟨hne, hzero⟩ := not_or.mp hc
    exact hfull (follow_append_zero hne (not_not.mp hzero))
  induction rest generalizing pre held i with
  | nil => exact ⟨[], _, by simp [getBranch, readSlot_holder hpre, entry], rfl, rfl⟩
  | cons j rest ih =>
    have hsplit : pre ++ i :: j :: rest = (pre ++ [i]) ++ j :: rest := by simp
    rw [hsplit] at hvalid hfull ⊢
    have hkey : follow s.ptr ip.iBlock (pre ++ [i]) ≠ 0 := fun hzero =>
      hfull (follow_append_zero (by simp) hzero)
    have hvalid' : g.ValidPath (pre ++ [i]) := g.validPath_closed.of_append (by simp) hvalid
    have hnew : follow s.ptr ip.iBlock (pre ++ [i]) ∉ held := by
      intro hmem
      obtain ⟨q, hq, ⟨t, rfl⟩, heq⟩ := hheld _ hmem
      rw [List.append_assoc] at hvalid'
      have := htree _ q (by simpa using hvalid') (g.validPath_closed.of_append hq hvalid') hkey heq
      have hlen := congrArg List.length this
      simp only [List.length_append, List.length_singleton] at hlen
      omega
    have hheld' : ∀ x ∈ follow s.ptr ip.iBlock (pre ++ [i]) :: held,
        ∃ q, q ≠ [] ∧ q <+: pre ++ [i] ∧ x = follow s.ptr ip.iBlock q := by
      intro x hx
      obtain rfl | hx := List.mem_cons.mp hx
      · exact ⟨_, by simp, List.prefix_refl _, rfl⟩
      · obtain ⟨q, hq, hpre, rfl⟩ := hheld x hx
        exact ⟨q, hq, hpre.trans (List.prefix_append _ _), rfl⟩
    obtain ⟨chain, last, hrun, hlast, hend⟩ := ih _ _ hvalid hfull hheld' (.inr hkey)
    have hbh : holder s ip (pre ++ [i]) = some (follow s.ptr ip.iBlock (pre ++ [i])) := if_neg (by simp)
    refine ⟨entry s ip (pre ++ [i]) j :: chain, last, ?_, ?_, hend⟩
    · rw [getBranch]
      simp only [exec_bind, exec_get, exec_ite, readSlot_holder hpre]
      rw [if_neg (by simp [hkey]), if_neg hnew, ← hbh, hrun]
      rfl
    · rw [List.getLast?_cons_cons, hlast]

variable {chain : List Indirect} {ind : Indirect}

/-- Behind the label `got_it` the last key is returned and the slot of the path is filled. -/
theorem gotIt_ok {last : Indirect} (hof : PathOf g bn slot rest)
    (hlast : (ind :: chain).getLast? = some last) :
    gotIt g ip bn (ind :: chain) s = .ok (last.key, ip.fill slot ind.key) s := by
  simp only [gotIt, List.head?_cons, hlast, hof.update, exec_pure]

/-- A chain starts at the first offset and goes on behind keys that are not null. -/
theorem getBranch_ok {held : List ℕ} {bh : Option ℕ}
    (h : getBranch ip held bh (slot :: rest) s = .ok chain s') :
    s' = s ∧ chain.length ≤ rest.length + 1 ∧
      ∃ tail, chain = ⟨bh, slot, s.readSlot ip bh slot⟩ :: tail ∧
        (tail ≠ [] → s.readSlot ip bh slot ≠ 0) := by
  induction rest generalizing held bh slot chain with
  | nil =>
    simp only [getBranch, or_true, if_true] at h
    obtain ⟨rfl, rfl⟩ := h
    exact ⟨rfl, le_rfl, [], rfl, by simp⟩
  | cons i rest ih =>
    rw [getBranch] at h
    simp only [exec_bind, exec_get, exec_ite, reduceCtorEq, or_false] at h
    split at h
    · cases h
      exact ⟨rfl, by simp, [], rfl, by simp⟩
    · rename_i hkey
      split at h
      · cases h
      · split at h
        · rename_i tail u hrest
          cases h
          obtain ⟨rfl, hlen, -⟩ := ih hrest
          exact ⟨rfl, by rw [List.length_cons, List.length_cons]; omega, tail, rfl, fun _ => hkey⟩
        · cases h

/-- A call whose chain ends in a key returns the key and changes nothing. -/
theorem bmap_found {fuel pid : ℕ} (hpath : blockToPath g bn = some (slot :: rest, boundary))
    (hof : PathOf g bn slot rest)
    (hchain : getBranch ip [] none (slot :: rest) s = .ok chain s) (hlast : chain.getLast? = some ind)
    (hkey : ind.key ≠ 0) : bmap g fuel pid ip bn s = .ok (ind.key, ip) s := by
  obtain ⟨-, -, tail, rfl, htail⟩ := getBranch_ok hchain
  have hslot : ip.iBlock slot ≠ 0 := by
    cases tail with
    | nil =>
      cases hlast
      exact hkey
    | cons => exact htail (by simp)
  simp only [bmap, hpath, exec_bind, hchain, exec_get, hlast, if_pos hkey]
  rw [gotIt_ok hof hlast, Ext2Inode.fill, if_neg hslot]

/-- A call that finds its chain complete returns the block at the end of the path and changes
nothing. -/
theorem bmap_complete {fuel pid : ℕ} (htree : Tree g.ValidPath s.ptr ip.iBlock)
    (hpath : blockToPath g bn = some (slot :: rest, boundary)) (hof : PathOf g bn slot rest)
    (hfull : follow s.ptr ip.iBlock (slot :: rest) ≠ 0) :
    bmap g fuel pid ip bn s = .ok (follow s.ptr ip.iBlock (slot :: rest), ip) s := by
  obtain ⟨chain, last, hrun, hlast, hend⟩ :=
    getBranch_complete htree [] [] hof.valid hfull (by simp)
  rw [List.nil_append] at hend
  rw [← hend]
  exact bmap_found hpath hof hrun hlast (by rwa [hend])

theorem Ext2Geom.maxblocks_eq_one : g.maxblocks = 1 := by
  rw [maxblocks, ptrs, Nat.shiftRight_eq_div_pow, show 4 * 2 ^ g.addrBits = 2 ^ (g.addrBits + 2) by ring]
  exact Nat.div_self (Nat.two_pow_pos _)

/-- A branch is always asked for a single data block. -/
theorem blksToAllocate_one (next : ℕ → ℕ) (k boundary : ℕ) : blksToAllocate next k 1 boundary = 1 := by
  unfold blksToAllocate
  split
  · split <;> omega
  · simp [countEmpty]

/-- From `s` to `s'` the blocks from `b` on were linked along the offsets: each is zeroed and points
to the next at its offset. -/
structure Linked (s s' : Ext2) (b : ℕ) (offsets : List ℕ) : Prop where
  bitmap : s'.bitmap = s.bitmap
  other : ∀ x, x < b ∨ b + offsets.length ≤ x → s'.ptr x = s.ptr x
  node : ∀ k < offsets.length, ∀ j, s'.ptr (b + k) j = if offsets[k]? = some j then b + (k + 1) else 0

/-- The loop of `allocBranch` links consecutive new blocks; the last one holds the data block. -/
theorem fillBranch_ok {held offsets : List ℕ} {branch : List Indirect}
    (h : fillBranch 1 held (List.range' b (offsets.length + 1)) offsets s = .ok branch s') :
    Linked s s' b offsets ∧
      ∀ ind : Indirect, ind.key = b → ∃ last, (ind :: branch).getLast? = some last ∧
        last.key = b + offsets.length := by
  induction offsets generalizing held b s branch with
  | nil =>
    obtain ⟨rfl, rfl⟩ := h
    refine ⟨⟨rfl, fun _ _ => rfl, fun k hk => absurd hk (by simp)⟩, ?_⟩
    exact fun ind hkey => ⟨ind, rfl, hkey⟩
  | cons slot offsets ih =>
    rw [List.length_cons, List.range'_succ, List.range'_succ, fillBranch] at h
    simp only [ite_self] at h
    split at h
    · simp at h
    · obtain ⟨_, u, hset, h⟩ := bind_eq_ok.mp h
      obtain ⟨branch, v, hrest, hret⟩ := bind_eq_ok.mp h
      simp only [exec_modify, EStateM.Result.ok.injEq, true_and] at hset
      obtain ⟨rfl, rfl⟩ := hret
      obtain ⟨hlinked, hlast⟩ := ih hrest
      subst hset
      refine ⟨⟨hlinked.bitmap, ?_, ?_⟩, ?_⟩
      · intro x hx
        rw [List.length_cons] at hx
        rw [hlinked.other x (by omega)]
        exact update_of_ne (by omega) _ _
      · intro k hk j
        cases k with
        | zero =>
          rw [Nat.add_zero, hlinked.other b (by omega)]
          simp only [update_self, List.getElem?_cons_zero, Option.some.injEq]
          by_cases hj : slot = j
          · subst hj
            simp
          · rw [if_neg (by omega), if_neg hj]
        | succ k =>
          rw [List.length_cons] at hk
          rw [show b + (k + 1) = b + 1 + k by omega, hlinked.node k (by omega) j,
            List.getElem?_cons_succ, show b + 1 + (k + 1) = b + (k + 1 + 1) by omega]
      · intro ind _
        obtain ⟨last, hget, hkey⟩ := hlast ⟨some b, slot, b + 1⟩ rfl
        refine ⟨last, ?_, ?_⟩
        · rw [List.getLast?_cons_cons, hget]
        · rw [hkey, List.length_cons]
          omega

section

variable (hpath : blockToPath g bn = some (slot :: rest, boundary)) (hof : PathOf g bn slot rest)

include hpath hof

/-- A call whose chain ends in a null pointer takes blocks, links them along the rest of the path
and offers the first to the inode's slot. -/
theorem bmap_alloc {fuel pid : ℕ}
    (hchain : getBranch ip [] none (slot :: rest) s = .ok chain s) (hlast : chain.getLast? = some ind)
    (hzero : ind.key = 0) (h : bmap g fuel pid ip bn s = .ok (b, ip') s') :
    ∃ offsets first num u, offsets = (slot :: rest).drop chain.length ∧ Taken g s u first num ∧
      (num = 1 + offsets.length ↔ 1 + offsets.length = 1 ∨
        FullRun g s (findNear g s ip pid ind) (1 + offsets.length)) ∧
      Linked u s' first offsets ∧ ip' = ip.fill slot first ∧ b = first + offsets.length := by
  obtain ⟨-, hlen, tail, hcons, htail⟩ := getBranch_ok hchain
  simp only [bmap, hpath, exec_bind, hchain, hlast, hzero] at h
  obtain ⟨branch, v, hbranch, hgot⟩ := bind_eq_ok.mp h
  obtain ⟨⟨new, num⟩, u, halloc, hfill⟩ := bind_eq_ok.mp hbranch
  obtain ⟨links, v', hlink, hret⟩ := bind_eq_ok.mp hfill
  cases hret
  rw [g.maxblocks_eq_one, blksToAllocate_one, ← List.length_drop] at halloc
  generalize hoff : (slot :: rest).drop chain.length = offsets at halloc hlink
  obtain ⟨-, first, hnew, hr⟩ := allocBlocks_ok halloc
  obtain ⟨rfl, rfl⟩ := Prod.mk.inj hr
  obtain ⟨num, htaken, -, hfull⟩ := newBlocks_ok (by omega) hnew
  obtain ⟨hlinked, hends⟩ := fillBranch_ok hlink
  obtain ⟨last, hends, hkey⟩ := hends { ind with key := first } rfl
  refine ⟨offsets, first, num, u, rfl, htaken, hfull, ?_⟩
  have hhead : (List.range' first (offsets.length + 1)).headD 0 = first := by
    rfl
  rw [hhead] at hgot
  -- the inode's slot is offered the first new block only where it was the end of the chain
  cases tail with
  | nil =>
    rw [hcons, List.dropLast_singleton, List.nil_append, gotIt_ok hof hends] at hgot
    cases hgot
    exact ⟨hlinked, rfl, hkey⟩
  | cons next tail =>
    have hslot : ip.iBlock slot ≠ 0 := htail (by simp)
    rw [hcons, List.dropLast_cons_cons, List.cons_append,
      gotIt_ok hof (by rw [← List.cons_append, List.getLast?_append, hends]; rfl)] at hgot
    cases hgot
    exact ⟨hlinked, by rw [Ext2Inode.fill, Ext2Inode.fill, if_neg hslot, if_neg hslot], hkey⟩

/-- A call that finds the inode's own pointer empty, and whose request for blocks is met in full,
fills the slot and links the new blocks along the path. -/
theorem bmap_missing {fuel pid : ℕ} (hempty : ip.iBlock slot = 0)
    (hrun : rest = [] ∨ FullRun g s (findNear g s ip pid ⟨none, slot, 0⟩) (rest.length + 1))
    (h : bmap g fuel pid ip bn s = .ok (b, ip') s') :
    ∃ first u, Taken g s u first (rest.length + 1) ∧ Linked u s' first rest ∧
      ip' = { ip with iBlock := update ip.iBlock slot first } ∧ b = first + rest.length := by
  have hchain : getBranch ip [] none (slot :: rest) s = .ok [⟨none, slot, 0⟩] s := by
    simp [getBranch, Ext2.readSlot, hempty]
  obtain ⟨offsets, first, num, u, hoff, htaken, hfull, hlinked, hip, hb⟩ :=
    bmap_alloc hpath hof hchain rfl rfl h
  obtain rfl : offsets = rest := hoff
  obtain rfl : num = 1 + offsets.length := by
    apply hfull.mpr
    obtain rfl | hrun := hrun
    · exact .inl rfl
    · rw [Nat.add_comm] at hrun
      exact .inr hrun
  rw [Nat.add_comm] at htaken
  exact ⟨first, u, htaken, hlinked, hip.trans (if_pos hempty), hb⟩

end

/-- Blocks that are handed out in a well-formed state are not null and not yet in the tree. -/
theorem TreeWf.fresh {num c : ℕ} (hwf : TreeWf g s ip) (htaken : Taken g s u first num)
    (hc : first ≤ c) (hlt : c < first + num) : c ≠ 0 ∧ ∀ p, g.ValidPath p → follow s.ptr ip.iBlock p ≠ c := by
  have hclear := (htaken.inUse hc hlt).1
  have hfirst := htaken.first_le
  have hne : c ≠ 0 := by
    rintro rfl
    rw [hwf.zero (by omega)] at hclear
    exact absurd hclear (by decide)
  refine ⟨hne, ?_⟩
  rintro p hp rfl
  rw [(hwf.owned p hp hne).2] at hclear
  exact absurd hclear (by decide)

/-- The chain that a call hangs into an empty slot is a graft of fresh blocks. -/
theorem TreeWf.graft (hwf : TreeWf g s ip)
    (hof : PathOf g bn slot rest) (hempty : ip.iBlock slot = 0) (htaken : Taken g s u first (rest.length + 1))
    (hlinked : Linked u s' first rest) :
    Graft g.ValidPath s.ptr s'.ptr ip.iBlock (update ip.iBlock slot first) slot rest (first + ·) where
  empty := hempty
  slot := update_self _ _ _
  other := fun _ hj => update_of_ne hj _ _
  node := hlinked.node
  kept := by
    intro p hp _
    rw [hlinked.other _ ?_, htaken.ptr]
    by_contra hin
    exact (hwf.fresh htaken (c := follow s.ptr ip.iBlock p) (by omega) (by omega)).2 p hp rfl
  key_ne := fun k hk => (hwf.fresh htaken (by omega : first ≤ first + k) (by omega)).1
  leaf := by
    intro p hp
    rw [hof.full]
    exact hp.2.1

/-- A well-formed inode stays well-formed when a chain of fresh blocks is hung into an empty
slot. -/
theorem TreeWf.linked (hwf : TreeWf g s ip)
    (hof : PathOf g bn slot rest) (hempty : ip.iBlock slot = 0) (htaken : Taken g s u first (rest.length + 1))
    (hlinked : Linked u s' first rest) :
    TreeWf g s' { ip with iBlock := update ip.iBlock slot first } := by
  have hgraft := hwf.graft hof hempty htaken hlinked
  have hkeep : ∀ c, g.firstDataBlock ≤ c → s.inUse g c = true → s'.inUse g c = true := by
    intro c hfirst huse
    unfold Ext2.inUse
    rw [hlinked.bitmap]
    change u.inUse g c = true
    rw [htaken.frame_block hfirst, huse]
    by_contra hin
    have hclear := (htaken.inUse (c := c) (by omega) (by omega)).1
    rw [huse] at hclear
    exact absurd hclear (by decide)
  refine ⟨?_, ?_, ?_⟩
  · apply hgraft.tree g.validPath_closed hwf.tree
    · intro k _ l _ heq
      exact Nat.add_left_cancel heq
    · intro p hp k hk
      exact (hwf.fresh htaken (by omega : first ≤ first + k) (by omega)).2 p hp
  · intro p hp hne
    obtain hold | ⟨t, rfl, ht, hnew⟩ := hgraft.follow_cases g.validPath_closed hp hne
    · rw [← hold] at hne ⊢
      obtain ⟨hfirst, huse⟩ := hwf.owned p hp hne
      exact ⟨hfirst, hkeep _ hfirst huse⟩
    · rw [hnew]
      have hlen := ht.length_le
      refine ⟨htaken.first_le.trans (Nat.le_add_right _ _), ?_⟩
      unfold Ext2.inUse
      rw [hlinked.bitmap]
      exact (htaken.inUse (by omega) (by omega)).2
  · intro hfirst
    exact hkeep 0 (by omega) (hwf.zero hfirst)

/-- A call of the block map and the block it returned. -/
structure MapCall where
  fuel : ℕ
  pid : ℕ
  bn : ℕ
  b : ℕ

/-- The call finds its chain complete; or it finds the inode's own pointer empty and needs one
block, or needs several that the goal's group has in one run. -/
def Linkable (g : Ext2Geom) (s : Ext2) (ip : Ext2Inode) (pid bn : ℕ) : Prop :=
  ∃ slot rest boundary, blockToPath g bn = some (slot :: rest, boundary) ∧
    (follow s.ptr ip.iBlock (slot :: rest) ≠ 0 ∨ ip.iBlock slot = 0 ∧
      (rest = [] ∨ FullRun g s (findNear g s ip pid ⟨none, slot, 0⟩) (rest.length + 1)))

/-- One call of `ext2_bmap` on the inode that returns. -/
def MapStep (g : Ext2Geom) (st : Ext2 × Ext2Inode) (c : MapCall) (st' : Ext2 × Ext2Inode) : Prop :=
  bmap g c.fuel c.pid st.2 c.bn st.1 = .ok (c.b, st'.2) st'.1

/-- One call that meets the condition. -/
def LinkStep (g : Ext2Geom) (st : Ext2 × Ext2Inode) (c : MapCall) (st' : Ext2 × Ext2Inode) : Prop :=
  Linkable g st.1 st.2 c.pid c.bn ∧ MapStep g st c st'

/-- In the state, the logical block is mapped to `b`. -/
def MapsTo (g : Ext2Geom) (st : Ext2 × Ext2Inode) (bn b : ℕ) : Prop :=
  b ≠ 0 ∧ ∃ slot rest boundary, blockToPath g bn = some (slot :: rest, boundary) ∧ PathOf g bn slot rest ∧
    follow st.1.ptr st.2.iBlock (slot :: rest) = b

/-- From `st` to `st'` no path of the inode has lost its block, and every block that came into use
is on a path. -/
structure KeepsTree (g : Ext2Geom) (st st' : Ext2 × Ext2Inode) : Prop where
  mono : ∀ p, g.ValidPath p → follow st.1.ptr st.2.iBlock p ≠ 0 →
    follow st'.1.ptr st'.2.iBlock p = follow st.1.ptr st.2.iBlock p
  reached : ∀ c, g.firstDataBlock ≤ c → st'.1.inUse g c = true → st.1.inUse g c = true ∨
    ∃ p, g.ValidPath p ∧ follow st'.1.ptr st'.2.iBlock p = c

/-- Nothing is lost where nothing changes. -/
theorem KeepsTree.refl (g : Ext2Geom) (st : Ext2 × Ext2Inode) : KeepsTree g st st :=
  ⟨fun _ _ _ => rfl, fun _ _ huse => .inl huse⟩

/-- Two changes that lose nothing lose nothing together. -/
theorem KeepsTree.trans {st₁ : Ext2 × Ext2Inode} (hzero : g.firstDataBlock = 0 → st.1.inUse g 0 = true)
    (h : KeepsTree g st st₁) (h' : KeepsTree g st₁ st') : KeepsTree g st st' where
  mono p hp hne := by
    have hmid := h.mono p hp hne
    rw [h'.mono p hp (by rwa [hmid]), hmid]
  reached c hfirst huse := by
    obtain huse | hreached := h'.reached c hfirst huse
    · obtain huse | ⟨p, hp, rfl⟩ := h.reached c hfirst huse
      · exact .inl huse
      · obtain hnull | hne := eq_or_ne (follow st₁.1.ptr st₁.2.iBlock p) 0
        · rw [hnull] at hfirst ⊢
          exact .inl (hzero (by omega))
        · exact .inr ⟨p, hp, h'.mono p hp hne⟩
    · exact .inr hreached

/-- What the map holds is still held when nothing is lost. -/
theorem MapsTo.keep (h : MapsTo g st bn b) (hkeeps : KeepsTree g st st') : MapsTo g st' bn b := by
  obtain ⟨hne, slot, rest, boundary, hpath, hof, rfl⟩ := h
  exact ⟨hne, slot, rest, boundary, hpath, hof, hkeeps.mono _ hof.valid hne⟩

/-- The blocks of a chain hung into an empty slot are on the paths along it. -/
theorem TreeWf.keeps_linked (hwf : TreeWf g s ip) (hof : PathOf g bn slot rest) (hempty : ip.iBlock slot = 0)
    (htaken : Taken g s u first (rest.length + 1)) (hlinked : Linked u s' first rest) :
    KeepsTree g (s, ip) (s', { ip with iBlock := update ip.iBlock slot first }) := by
  have hgraft := hwf.graft hof hempty htaken hlinked
  refine ⟨fun p hp hne => hgraft.follow_mono g.validPath_closed hp hne, fun c hfirst huse => ?_⟩
  by_cases hin : first ≤ c ∧ c < first + (rest.length + 1)
  · obtain ⟨k, rfl⟩ := Nat.exists_eq_add_of_le hin.1
    have hlen : (rest.take k).length = k := by
      rw [List.length_take]
      omega
    have hsplit : slot :: rest = slot :: rest.take k ++ rest.drop k := by simp
    refine .inr ⟨slot :: rest.take k, ?_, ?_⟩
    · exact g.validPath_closed.of_append (by simp) (hsplit ▸ hof.valid)
    · rw [hgraft.follow_chain (by omega), if_pos (List.take_prefix k rest), hlen]
  · refine .inl ?_
    rwa [Ext2.inUse, hlinked.bitmap, ← Ext2.inUse, htaken.frame_block hfirst (by omega)] at huse

/-- A call that meets the condition keeps the tree, loses nothing, and maps the block it
returned. -/
theorem linkStep_spec {c : MapCall} (hwf : TreeWf g st.1 st.2) (h : LinkStep g st c st') :
    TreeWf g st'.1 st'.2 ∧ MapsTo g st' c.bn c.b ∧ KeepsTree g st st' := by
  obtain ⟨⟨slot, rest, boundary, hpath, hcase⟩, hcall⟩ := h
  obtain ⟨_, _, heq, hof⟩ := blockToPath_spec hpath
  obtain ⟨rfl, rfl⟩ := List.cons.inj heq
  unfold MapStep at hcall
  obtain hfull | ⟨hempty, hrun⟩ := hcase
  · rw [bmap_complete hwf.tree hpath hof hfull] at hcall
    obtain ⟨hr, hst⟩ := EStateM.Result.ok.inj hcall
    obtain ⟨hb, hip⟩ := Prod.mk.inj hr
    obtain rfl : st = st' := Prod.ext hst hip
    exact ⟨hwf, ⟨hb ▸ hfull, slot, rest, boundary, hpath, hof, hb⟩, .refl g st⟩
  · obtain ⟨first, u, htaken, hlinked, hip, hb⟩ := bmap_missing hpath hof hempty hrun hcall
    have hgraft := hwf.graft hof hempty htaken hlinked
    have hfollow := hgraft.follow_chain (p := rest) (le_refl _)
    rw [if_pos (List.prefix_refl _)] at hfollow
    obtain ⟨s', ip'⟩ := st'
    subst hip
    refine ⟨hwf.linked hof hempty htaken hlinked, ⟨?_, slot, rest, boundary, hpath, hof, ?_⟩, ?_⟩
    · rw [hb]
      exact hgraft.key_ne _ (le_refl _)
    · rw [hb]
      exact hfollow
    · exact hwf.keeps_linked hof hempty htaken hlinked

/-- Along a run nothing is lost, and the map holds every block that a call returned. -/
theorem linkRun_spec {calls : List MapCall} (hrun : Run (LinkStep g) st calls st')
    (hwf : TreeWf g st.1 st.2) :
    TreeWf g st'.1 st'.2 ∧ KeepsTree g st st' ∧ ∀ c ∈ calls, MapsTo g st' c.bn c.b := by
  induction hrun with
  | nil => exact ⟨hwf, .refl g _, by simp⟩
  | cons first _ ih =>
    obtain ⟨hwf', hcall, hkeeps⟩ := linkStep_spec hwf first
    obtain ⟨hend, hkeeps', hcalls⟩ := ih hwf'
    refine ⟨hend, hkeeps.trans hwf.zero hkeeps', ?_⟩
    intro c hc
    obtain rfl | hc := List.mem_cons.mp hc
    · exact hcall.keep hkeeps'
    · exact hcalls c hc

/-- In a well-formed state a block belongs to one logical block. -/
theorem MapsTo.unique {bn' : ℕ} (hwf : TreeWf g st.1 st.2) (h : MapsTo g st bn b)
    (h' : MapsTo g st bn' b) : bn = bn' := by
  obtain ⟨hne, slot, rest, _, _, hof, hb⟩ := h
  obtain ⟨-, slot', rest', _, _, hof', hb'⟩ := h'
  have hpaths := hwf.tree _ _ hof.valid hof'.valid (by rwa [hb]) (hb.trans hb'.symm)
  exact hof.injective hof' hpaths

/-- A mapped block is what `ext2_bmap` returns. -/
theorem MapsTo.bmap_eq (hwf : TreeWf g st.1 st.2) (h : MapsTo g st bn b)
    (fuel pid : ℕ) : bmap g fuel pid st.2 bn st.1 = .ok (b, st.2) st.1 := by
  obtain ⟨hne, slot, rest, _, hpath, hof, rfl⟩ := h
  exact bmap_complete hwf.tree hpath hof hne

/-- In every run of calls that meet the condition, two calls return the same block exactly when they
are for the same logical block, and after the run every earlier call would return its block
again. -/
theorem bmap_stable {st st' : Ext2 × Ext2Inode} {calls : List MapCall} (hwf : TreeWf g st.1 st.2)
    (hrun : Run (LinkStep g) st calls st') :
    ∀ c ∈ calls, (∀ fuel pid, bmap g fuel pid st'.2 c.bn st'.1 = .ok (c.b, st'.2) st'.1) ∧
      ∀ c' ∈ calls, c'.b = c.b ↔ c'.bn = c.bn := by
  obtain ⟨hend, -, hcalls⟩ := linkRun_spec hrun hwf
  intro c hc
  have hmap := hcalls c hc
  refine ⟨hmap.bmap_eq hend, ?_⟩
  intro c' hc'
  have hmap' := hcalls c' hc'
  constructor
  · intro hb
    rw [hb] at hmap'
    exact hmap'.unique hend hmap
  · intro hbn
    have hret := hmap'.bmap_eq hend 0 0
    rw [hbn, hmap.bmap_eq hend 0 0] at hret
    exact (Prod.mk.inj (EStateM.Result.ok.inj hret).1).1.symm

/-- An inode without blocks. -/
def emptyInode : Ext2Inode := ⟨1, fun _ => 0⟩

theorem emptyInode_wf : TreeWf oneGroup fragmented emptyInode := by
  have hzero : ∀ p, follow fragmented.ptr emptyInode.iBlock p = 0 := by
    intro p
    cases p with
    | nil => rfl
    | cons slot rest => exact follow_append_zero (p := [slot]) (by simp) rfl
  exact ⟨fun p _ _ _ hne => absurd (hzero p) hne, fun p _ hne => absurd (hzero p) hne, fun _ => by decide⟩

/-- Logical block 12 is the first below an indirect block: the call finds both slots missing, gets
blocks 6 and 7, and the map holds 7 from then on. -/
theorem bmap_stable_first_indirect :
    ∃ st', Run (LinkStep oneGroup) (fragmented, emptyInode) [⟨1, 6, 12, 7⟩] st' ∧
      bmap oneGroup 1 0 st'.2 12 st'.1 = .ok (7, st'.2) st'.1 := by
  have hcall : ∃ st', MapStep oneGroup (fragmented, emptyInode) ⟨1, 6, 12, 7⟩ st' := ⟨(_, _), rfl⟩
  obtain ⟨st', hcall⟩ := hcall
  have hfit : Linkable oneGroup fragmented emptyInode 6 12 := by
    refine ⟨12, [0], _, rfl, .inr ⟨rfl, .inr ⟨6, ?_, ?_⟩⟩⟩
    · exact ⟨by decide, by decide, fun j h h' => absurd (lt_of_le_of_lt h h') (by decide)⟩
    · unfold ClearRun
      decide
  have hrun : Run (LinkStep oneGroup) (fragmented, emptyInode) [⟨1, 6, 12, 7⟩] st' :=
    .cons ⟨hfit, hcall⟩ (.nil _)
  exact ⟨st', hrun, (bmap_stable emptyInode_wf hrun _ (List.mem_singleton_self _)).1 1 0⟩

/-- An inode whose indirect block 4 exists and maps logical block 12 to block 6. -/
def indirectInode : Ext2Inode := ⟨1, fun slot => if slot = 12 then 4 else 0⟩

@[inherit_doc indirectInode]
def indirectFs : Ext2 where
  desc := fun _ => ⟨1, 2, 3, 10⟩
  bitmap := fun _ i => i < 5 || i == 6
  ptr := fun b j => if b = 4 ∧ j = 0 then 6 else 0

theorem indirectFs_paths {p : List ℕ} (hp : oneGroup.ValidPath p)
    (hne : follow indirectFs.ptr indirectInode.iBlock p ≠ 0) : p = [12] ∨ p = [12, 0] := by
  match p with
  | [] => exact absurd rfl hne
  | slot :: rest =>
    obtain rfl | hslot := eq_or_ne slot 12
    · match rest with
      | [] => exact .inl rfl
      | [j] =>
        obtain rfl | hj := eq_or_ne j 0
        · exact .inr rfl
        · exact absurd (by simp [follow, child, indirectFs, hj]) hne
      | _ :: _ :: _ =>
        have := hp.2.1
        simp [levels, ndirBlocks] at this
    · have hzero : follow indirectFs.ptr indirectInode.iBlock [slot] = 0 := if_neg hslot
      exact absurd (follow_append_zero (by simp) hzero) hne

theorem indirectInode_wf : TreeWf oneGroup indirectFs indirectInode := by
  refine ⟨?_, ?_, fun _ => by decide⟩
  · intro p q hp hq hne heq
    have hp' := indirectFs_paths hp hne
    have hq' := indirectFs_paths hq (by rwa [← heq])
    obtain rfl | rfl := hp' <;> obtain rfl | rfl := hq'
    · rfl
    · exact absurd heq (by decide)
    · exact absurd heq (by decide)
    · rfl
  · intro p hp hne
    obtain rfl | rfl := indirectFs_paths hp hne <;> decide

/-- A pointer missing inside the existing indirect block is never stored: two calls in a row for
logical block 13 of a well-formed inode return different blocks. -/
theorem bmap_forgets_block : TreeWf oneGroup indirectFs indirectInode ∧
    ∃ s', (do
      let (b, ip) ← bmap oneGroup 1 0 indirectInode 13
      let (b', _) ← bmap oneGroup 1 0 ip 13
      return (b, b') : Ext2M (ℕ × ℕ)) indirectFs = .ok (7, 8) s' :=
  ⟨indirectInode_wf, _, rfl⟩

end Xv6
