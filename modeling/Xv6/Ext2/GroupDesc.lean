import Xv6.Bio.Recent

/-!
# Group descriptors behind cached pointers

`ext2_get_group_desc` of `kernel/ext2.c` over the shared buffer cache. Called with a buffer
argument it reads the descriptor block and leaves a pointer to the buffer in `s_group_desc`; called
without one, from `read_block_bitmap` and `read_inode_bitmap`, it follows that pointer, whatever the
buffer holds by then. `ext2_new_blocks` and `ext2_ialloc` do so while they hold the buffer they have
just read; `ext2_free_blocks` and `ext2_free_inode` do so first and read the descriptor block later,
so they rely on the LRU order to keep the buffer.
-/

namespace Xv6

open Lib Function

/-- What `ext2_get_group_desc` knows of a file system: `s_groups_count`, `EXT2_DESC_PER_BLOCK_BITS`
and the table `ext2_block_group_desc_block`. -/
structure DescTable where
  groupsCount : ℕ
  descBits : ℕ
  block : ℕ → ℕ

/-- The descriptor block of a group. -/
def DescTable.index (T : DescTable) (group : ℕ) : ℕ := group >>> T.descBits

/-- The place of a group's descriptor in its block. -/
def DescTable.offset (T : DescTable) (group : ℕ) : ℕ := group &&& (2 ^ T.descBits - 1)

/-- The bitmap fields of `struct ext2_group_desc`. -/
structure BitmapBlocks where
  bgBlockBitmap : ℕ
  bgInodeBitmap : ℕ
  deriving DecidableEq

/-- The descriptor at place `n` of a block of 32-byte descriptors. -/
def bitmapBlocksAt (data : Block) (n : ℕ) : BitmapBlocks := ⟨getLe data (32 * n) 4, getLe data (32 * n + 4) 4⟩

/-- A descriptor buffer in the hands of a process: the device, the group it was read for, the
buffer. -/
structure DescHold where
  dev : ℕ
  group : ℕ
  buf : ℕ
  deriving DecidableEq

/-- The cache, `s_group_desc` of each device, and the descriptor buffer each process works on. -/
structure DescSys where
  cache : Cache
  groupDesc : ℕ → ℕ → Option ℕ
  hold : ℕ → Option DescHold

/-- Steps of processes: any use of the cache, the assignment of `ext2_get_group_desc` after its
`bread`, the use of `s_group_desc` without a read by an allocation or by a release, and the `brelse`
of the descriptor buffer. -/
inductive DescAction
  | traffic (a : CacheAction)
  | load (p : ℕ) (h : DescHold)
  | allocAccess (p : ℕ)
  | freeAccess (p dev group : ℕ)
  | unload (p : ℕ)

namespace DescSys

variable (T : DescTable)

/-- `ext2_get_group_desc` with `bh = 0`: the descriptor behind the pointer, `none` for a null
pointer. -/
def getGroupDesc (s : DescSys) (dev group : ℕ) : Option BitmapBlocks :=
  (s.groupDesc dev (T.index group)).map fun i => bitmapBlocksAt (s.cache.buf i).data (T.offset group)

/-- A step of the cache. -/
def cacheStep (s : DescSys) (a : CacheAction) : Option DescSys :=
  if a.onDevice then (s.cache.next a).map fun c => { s with cache := c } else none

/-- The assignment to `s_group_desc`. -/
def setGroupDesc (s : DescSys) (p : ℕ) (h : DescHold) : DescSys :=
  { s with
    groupDesc := update s.groupDesc h.dev
      (update (s.groupDesc h.dev) (T.index h.group) (some h.buf))
    hold := update s.hold p (some h) }

/-- The test `block_group >= s_groups_count` and the buffer that `bread` has returned. -/
def CanLoad (s : DescSys) (p : ℕ) (h : DescHold) : Prop :=
  h.group < T.groupsCount ∧ s.cache.stage p = .idle ∧ (s.cache.buf h.buf).holder = some p ∧
    s.cache.key h.buf = (h.dev, T.block (T.index h.group))

instance (s : DescSys) (p : ℕ) (h : DescHold) : Decidable (s.CanLoad T p h) :=
  inferInstanceAs (Decidable (_ ∧ _))

/-- One step. The traffic of a process does not release the descriptor buffer it works on; that is
the step `unload`. Pins are taken of buffers in use. -/
def next (s : DescSys) : DescAction → Option DescSys
  | .traffic (.bpin i) => if 0 < (s.cache.buf i).refcnt then s.cacheStep (.bpin i) else none
  | .traffic (.releaseLock p i) =>
    if (s.hold p).map DescHold.buf = some i then none else s.cacheStep (.releaseLock p i)
  | .traffic a => s.cacheStep a
  | .load p h => if s.CanLoad T p h then some (s.setGroupDesc T p h) else none
  | .allocAccess p => if (s.hold p).isSome then some s else none
  | .freeAccess p _ group => if group < T.groupsCount ∧ s.hold p = none then some s else none
  | .unload p =>
    match s.hold p with
    | some h => (s.cacheStep (.releaseLock p h.buf)).map fun t => { t with hold := update t.hold p none }
    | none => none

/-- A step that is enabled. -/
def Step (s : DescSys) (a : DescAction) (t : DescSys) : Prop := s.next T a = some t

/-- A step in which no read of the card fails. -/
def ReadingStep (s : DescSys) (a : DescAction) (t : DescSys) : Prop :=
  (∀ p r, a = .traffic (.fill p r) → r.completes = true) ∧ s.Step T a t

/-- After `binit`; no descriptor block has been read. -/
def boot (disk : Disk) : DescSys := ⟨Cache.binit disk, fun _ _ => none, fun _ => none⟩

end DescSys

/-- The contents of a block: those of its buffer if they were edited, or else what was last read or
written. -/
def Cache.stored (s : Cache) (k : Key) : Block :=
  match (List.range nbuf).find? fun i => s.key i = k ∧ (s.buf i).valid = true ∧ s.dirty i = true with
  | some i => (s.buf i).data
  | none => s.last k

/-- The block that an action asks for. -/
def DescAction.requests : DescAction → Option Key
  | .traffic a => a.requests
  | _ => none

namespace DescSys

variable (T : DescTable)

/-- The buffer behind the pointer for a group is assigned to the group's descriptor block and
loaded. -/
def Current (s : DescSys) (dev group : ℕ) : Prop :=
  ∃ i, s.groupDesc dev (T.index group) = some i ∧ s.cache.key i = (dev, T.block (T.index group)) ∧
    (s.cache.buf i).valid = true

/-- The descriptor block that the device stores for a group. -/
def descBlock (s : DescSys) (dev group : ℕ) : Block := s.cache.stored (dev, T.block (T.index group))

/-- An access behind the pointer finds the group's descriptor block, and the descriptor it returns
is the one stored for the group. -/
def Right (s : DescSys) (dev group : ℕ) : Prop :=
  s.Current T dev group ∧ s.getGroupDesc T dev group =
    some (bitmapBlocksAt (s.descBlock T dev group) (T.offset group))

/-- The blocks other than the descriptor block that are in use, or asked for in further steps. -/
def others (s : DescSys) (h : DescHold) (since : List DescAction) : Finset Key :=
  (((List.range nbuf).filter fun i => 0 < (s.cache.buf i).refcnt).map s.cache.key ++
    since.filterMap DescAction.requests).toFinset.erase (s.cache.key h.buf)

/-- Too few other blocks for the descriptor buffer to be recycled, and nobody pins it, which would
keep it from moving to the front of the list when it is released. -/
structure Undisturbed (s : DescSys) (h : DescHold) (since : List DescAction) : Prop where
  few : (s.others h since).card < nbuf
  unpinned : s.cache.pins h.buf = 0
  noPin : .traffic (.bpin h.buf) ∉ since

/-- What holds between any two steps. -/
structure Inv (s : DescSys) : Prop where
  cache : s.cache.Inv
  clean : s.cache.Clean
  assigned : s.cache.Assigned
  pointer : ∀ dev n i, s.groupDesc dev n = some i → i < nbuf ∧ dev ≠ 0
  holds : ∀ p h, s.hold p = some h → (s.cache.buf h.buf).holder = some p ∧ (s.cache.buf h.buf).valid = true ∧
    s.cache.key h.buf = (h.dev, T.block (T.index h.group)) ∧ s.groupDesc h.dev (T.index h.group) = some h.buf

end DescSys

variable {T : DescTable}

/-- The contents of a block with a valid buffer are that buffer's. -/
theorem Cache.Inv.stored_eq {s : Cache} {i : ℕ} {k : Key} (h : s.Inv) (hclean : s.Clean)
    (hi : i < nbuf) (hk : s.key i = k) (hvalid : (s.buf i).valid = true) (hdev : k.1 ≠ 0) :
    s.stored k = (s.buf i).data := by
  unfold Cache.stored
  split
  · next j hfind =>
    have hj := List.mem_range.mp (List.mem_of_find?_eq_some hfind)
    have hfound := List.find?_some hfind
    simp only [decide_eq_true_eq] at hfound
    rw [h.places.unique j i hj hi (hfound.1.trans hk.symm) (hfound.1 ▸ hdev)]
  · next hnone =>
    have hdirty : s.dirty i = false := by
      simpa [hk, hvalid] using List.find?_eq_none.mp hnone i (List.mem_range.mpr hi)
    rw [hclean i hi hvalid hdirty, hk]

namespace DescSys

variable {s t : DescSys} {dev group : ℕ}

/-- What a pointer to a current buffer leads to. -/
theorem Current.right (h : s.Inv T) (hcur : s.Current T dev group) : s.Right T dev group := by
  refine ⟨hcur, ?_⟩
  obtain ⟨i, hptr, hkey, hvalid⟩ := hcur
  obtain ⟨hi, hdev⟩ := h.pointer dev _ i hptr
  have hstored := h.cache.stored_eq h.clean hi hkey hvalid hdev
  rw [getGroupDesc, descBlock, hptr, hstored]
  rfl

theorem inv_boot (disk : Disk) : (boot disk).Inv T where
  cache := Cache.inv_binit disk
  clean := by simp [Cache.Clean, boot, Cache.binit]
  assigned := by simp [Cache.Assigned, boot, Cache.binit]
  pointer := by simp [boot]
  holds := by simp [boot]

end DescSys

namespace DescSys

variable {s t : DescSys} {a : CacheAction} {p : ℕ}

/-- A step of the cache keeps the descriptor buffers that processes work on, those apart that it
releases. -/
theorem Inv.holds_of_step {c : Cache} {h : DescHold} (hinv : s.Inv T)
    (hstep : s.cache.Step a c) (hhold : s.hold p = some h) (ha : a ≠ .releaseLock p h.buf) :
    (c.buf h.buf).holder = some p ∧ (c.buf h.buf).valid = true ∧
      c.key h.buf = (h.dev, T.block (T.index h.group)) := by
  obtain ⟨hheld, hvalid, hkey, -⟩ := hinv.holds p h hhold
  have hpos := hinv.cache.counts.pos_of_holder hheld
  exact ⟨Cache.holder_of_step hinv.cache hstep hheld ha, Cache.valid_of_step hinv.cache hstep hpos hvalid,
    (Cache.key_of_step hinv.cache hstep hpos).trans hkey⟩

/-- What a step of the cache does. -/
theorem cacheStep_eq (h : s.cacheStep a = some t) :
    ∃ c, s.cache.Step a c ∧ t = { s with cache := c } := by
  simp only [cacheStep, Option.ite_none_right_eq_some, Option.map_eq_some_iff] at h
  obtain ⟨hdev, c, hnext, rfl⟩ := h
  exact ⟨c, ⟨hdev, hnext⟩, rfl⟩

theorem Inv.cacheStep (hinv : s.Inv T) (hstep : s.cacheStep a = some t)
    (hreads : ∀ p r, a = .fill p r → r.completes = true) (hpins : s.cache.PinsUsed a)
    (hspares : ∀ p h, s.hold p = some h → a ≠ .releaseLock p h.buf) : t.Inv T := by
  obtain ⟨c, hc, rfl⟩ := cacheStep_eq hstep
  refine ⟨hinv.cache.step hc, hinv.clean.step hinv.cache hc hreads,
    hinv.assigned.step hinv.cache hc hpins, hinv.pointer, fun p h hhold => ?_⟩
  obtain ⟨hheld, hvalid, hkey⟩ := hinv.holds_of_step hc hhold (hspares p h hhold)
  exact ⟨hheld, hvalid, hkey, (hinv.holds p h hhold).2.2.2⟩

/-- The pointers after an assignment. -/
theorem groupDesc_setGroupDesc {h : DescHold} {dev n : ℕ} : (s.setGroupDesc T p h).groupDesc dev n =
    if dev = h.dev ∧ n = T.index h.group then some h.buf else s.groupDesc dev n := by
  unfold setGroupDesc
  obtain rfl | hd := eq_or_ne dev h.dev
  · obtain rfl | hn := eq_or_ne n (T.index h.group)
    · simp
    · simp [hn]
  · simp [hd]

theorem Inv.setGroupDesc {h : DescHold} (hinv : s.Inv T) (hload : s.CanLoad T p h) :
    (s.setGroupDesc T p h).Inv T := by
  obtain ⟨-, hidle, hheld, hkey⟩ := hload
  obtain ⟨hi, hdev⟩ := hinv.cache.places.held p h.buf hheld
  refine ⟨hinv.cache, hinv.clean, hinv.assigned, fun dev n i hptr => ?_, fun q h' hhold => ?_⟩
  · rw [groupDesc_setGroupDesc] at hptr
    split at hptr
    · next hslot =>
      rw [hslot.1]
      rw [hkey] at hdev
      exact ⟨Option.some.inj hptr ▸ hi, hdev⟩
    · exact hinv.pointer dev n i hptr
  · rw [groupDesc_setGroupDesc]
    obtain rfl | hqp := eq_or_ne q p
    · obtain rfl : h = h' := by simpa [DescSys.setGroupDesc] using hhold
      have hvalid := (hinv.cache.places.loaded q h.buf hheld).resolve_right (by simp [hidle])
      exact ⟨hheld, hvalid, hkey, by simp⟩
    · have hhold' : s.hold q = some h' := by simpa [DescSys.setGroupDesc, hqp] using hhold
      obtain ⟨hheld', hvalid', hkey', hptr'⟩ := hinv.holds q h' hhold'
      refine ⟨hheld', hvalid', hkey', ?_⟩
      -- another process with this descriptor block would hold the same buffer
      rw [if_neg, hptr']
      rintro ⟨hd, hn⟩
      have hsame : s.cache.key h'.buf = s.cache.key h.buf := by rw [hkey', hkey, hd, hn]
      obtain ⟨hi', hdev'⟩ := hinv.cache.places.held q h'.buf hheld'
      rw [hinv.cache.places.unique _ _ hi' hi hsame hdev', hheld] at hheld'
      exact hqp (Option.some.inj hheld').symm

theorem Inv.unload {h : DescHold} (hinv : s.Inv T) (hhold : s.hold p = some h)
    (hstep : s.cacheStep (.releaseLock p h.buf) = some t) :
    DescSys.Inv T { t with hold := update t.hold p none } := by
  obtain ⟨c, hc, rfl⟩ := cacheStep_eq hstep
  refine ⟨hinv.cache.step hc, hinv.clean.step hinv.cache hc (by simp),
    hinv.assigned.step hinv.cache hc trivial, hinv.pointer, fun q h' hhold' => ?_⟩
  have hqp : q ≠ p := by
    rintro rfl
    simp at hhold'
  have hhold'' : s.hold q = some h' := by simpa [hqp] using hhold'
  obtain ⟨hheld, hvalid, hkey⟩ := hinv.holds_of_step hc hhold'' (by simp [hqp.symm])
  exact ⟨hheld, hvalid, hkey, (hinv.holds q h' hhold'').2.2.2⟩

/-- What each action does, and when. -/
inductive Moves (T : DescTable) (s : DescSys) : DescAction → DescSys → Prop
  | traffic {b : CacheAction} {u : DescSys} (hstep : s.cacheStep b = some u)
      (hpins : s.cache.PinsUsed b)
      (hspares : ∀ p h, s.hold p = some h → b ≠ .releaseLock p h.buf) : Moves T s (.traffic b) u
  | load {q : ℕ} {h : DescHold} (hload : s.CanLoad T q h) :
      Moves T s (.load q h) (s.setGroupDesc T q h)
  | access {b : DescAction} (hasks : b.requests = none) : Moves T s b s
  | unload {q : ℕ} {h : DescHold} {u : DescSys} (hhold : s.hold q = some h)
      (hstep : s.cacheStep (.releaseLock q h.buf) = some u) :
      Moves T s (.unload q) { u with hold := update u.hold q none }

theorem moves_of_step {a : DescAction} (hstep : s.Step T a t) : s.Moves T a t := by
  unfold Step next at hstep
  split at hstep
  · simp only [Option.ite_none_right_eq_some] at hstep
    exact .traffic hstep.2 hstep.1 (by simp)
  · simp only [Option.ite_none_left_eq_some] at hstep
    refine .traffic hstep.2 trivial fun q h hhold heq => hstep.1 ?_
    cases heq
    rw [hhold]
    rfl
  · next a hpin hnot =>
    refine .traffic hstep ?_ fun p h _ heq => hnot p h.buf heq
    cases a <;> first | trivial | exact absurd rfl (hpin _)
  · obtain ⟨hguard, rfl⟩ := guarded hstep
    exact .load hguard
  · obtain ⟨-, rfl⟩ := guarded hstep
    exact .access rfl
  · obtain ⟨-, rfl⟩ := guarded hstep
    exact .access rfl
  · split at hstep
    · next h hhold =>
      obtain ⟨u, hu, rfl⟩ := Option.map_eq_some_iff.mp hstep
      exact .unload hhold hu
    · cases hstep

theorem Inv.step {a : DescAction} (hinv : s.Inv T) (hstep : s.ReadingStep T a t) : t.Inv T := by
  obtain ⟨hreads, hstep⟩ := hstep
  cases moves_of_step hstep with
  | traffic hcache hpins hspares =>
    exact hinv.cacheStep hcache (fun p r ha => hreads p r (ha ▸ rfl)) hpins hspares
  | load hload => exact hinv.setGroupDesc hload
  | access => exact hinv
  | unload hhold hcache => exact hinv.unload hhold hcache

/-! ### The buffer after its release -/

/-- The pointer for descriptor block `n` leads to a buffer that is recent. -/
structure Keeps (T : DescTable) (s : DescSys) (dev n i : ℕ) (W : Finset Key) : Prop where
  pointer : s.groupDesc dev n = some i
  recent : s.cache.Recent i (dev, T.block n) W

/-- A step of few other blocks keeps the buffer behind the pointer. -/
theorem Keeps.step {a : DescAction} {dev n i : ℕ} {W : Finset Key} (h : s.Keeps T dev n i W)
    (hinv : s.Inv T) (hstep : s.Step T a t) (hW : ∀ l ∈ W, l.1 ≠ 0) (hcard : W.card < nbuf)
    (hpin : a ≠ .traffic (.bpin i))
    (hask : ∀ l, a.requests = some l → l = (dev, T.block n) ∨ l ∈ W) : t.Keeps T dev n i W := by
  have hdev : dev ≠ 0 := (hinv.pointer dev n i h.pointer).2
  cases moves_of_step hstep with
  | traffic hcache hpins =>
    obtain ⟨c, hc, rfl⟩ := cacheStep_eq hcache
    exact ⟨h.pointer, h.recent.step hinv.cache hW hcard hdev hc hpins (fun ha => hpin (ha ▸ rfl)) hask⟩
  | @load p d hload =>
    refine ⟨?_, h.recent⟩
    rw [groupDesc_setGroupDesc]
    split_ifs with hsame
    · obtain ⟨-, -, hheld, hkey⟩ := hload
      rw [← hsame.1, ← hsame.2] at hkey
      obtain ⟨hi, hne⟩ := hinv.cache.places.held p d.buf hheld
      rw [hinv.cache.places.unique _ _ hi h.recent.lt (hkey.trans h.recent.key.symm) hne]
    · exact h.pointer
  | access => exact h
  | unload hhold hcache =>
    obtain ⟨c, hc, rfl⟩ := cacheStep_eq hcache
    exact ⟨h.pointer, h.recent.step hinv.cache hW hcard hdev hc trivial (by simp)
      (by simp [CacheAction.requests])⟩

/-- A descriptor buffer that a process works on is recent for the other blocks that are in use. -/
theorem Inv.keeps {h : DescHold} {since : List DescAction} (hinv : s.Inv T) (hhold : s.hold p = some h)
    (hpins : s.cache.pins h.buf = 0) :
    s.Keeps T h.dev (T.index h.group) h.buf (s.others h since) := by
  obtain ⟨hheld, hvalid, hkey, hptr⟩ := hinv.holds p h hhold
  obtain ⟨hi, hdev⟩ := hinv.cache.places.held p h.buf hheld
  obtain ⟨l, hring, hperm⟩ := hinv.cache.ring
  obtain ⟨l₁, l₂, rfl⟩ := List.append_of_mem (hperm.mem_iff.mpr (List.mem_range.mpr hi))
  have hpos := hinv.cache.counts.pos_of_holder hheld
  refine ⟨hptr, hi, hkey, hvalid, hpins, fun j hj hj' hused => ?_, l₁, l₂, hring, hperm,
    fun hzero => absurd hzero hpos.ne'⟩
  refine Finset.mem_erase.mpr ⟨fun heq => hj ?_, List.mem_toFinset.mpr (List.mem_append_left _ ?_)⟩
  · exact hinv.cache.places.unique j h.buf hj' hi heq (heq ▸ hdev)
  · exact List.mem_map_of_mem (List.mem_filter.mpr ⟨List.mem_range.mpr hj', by simpa using hused⟩)

/-- Blocks are asked for by device numbers that are not zero. -/
theorem requests_device {a : DescAction} {l : Key} (hstep : s.Step T a t) (hl : a.requests = some l) :
    l.1 ≠ 0 := by
  cases moves_of_step hstep with
  | @traffic b _ hcache =>
    obtain ⟨c, hc, -⟩ := cacheStep_eq hcache
    cases b with
    | bget p k =>
      cases hl
      exact of_decide_eq_true hc.1
    | _ => cases hl
  | load | unload => cases hl
  | access hasks =>
    rw [hasks] at hl
    cases hl

/-- The other blocks that are in use or asked for are blocks of devices. -/
theorem Inv.others_device {since : List DescAction} {u : DescSys} (hinv : u.Inv T)
    (hsince : Run (ReadingStep T) u since s) (h : DescHold) : ∀ l ∈ u.others h since, l.1 ≠ 0 := by
  intro l hl
  obtain hused | hasked := List.mem_append.mp (List.mem_toFinset.mp (Finset.mem_of_mem_erase hl))
  · obtain ⟨j, hj, rfl⟩ := List.mem_map.mp hused
    exact hinv.assigned j (by simpa using (List.mem_filter.mp hj).2)
  · obtain ⟨a, ha, hl⟩ := List.mem_filterMap.mp hasked
    obtain ⟨v, w, -, hstep⟩ := hsince.exists_of_mem ha
    exact requests_device hstep hl

/-- In every run whose reads of the card are complete: what an allocation takes through
`s_group_desc` is the stored descriptor of its group; and what a release takes is so if, since a
process had the descriptor buffer in hand, fewer than `nbuf` other blocks were in use or asked for,
and nobody pinned the buffer. -/
theorem group_desc_right {disk : Disk} {as since : List DescAction} {u : DescSys}
    (hrun : Run (ReadingStep T) (boot disk) as u) (hsince : Run (ReadingStep T) u since s) :
    (∀ p h, s.hold p = some h → s.Right T h.dev h.group) ∧
      ∀ p h, u.hold p = some h → u.Undisturbed h since →
        ∀ q group t, s.Step T (.freeAccess q h.dev group) t → T.index group = T.index h.group →
          s.Right T h.dev group := by
  have hu : u.Inv T := hrun.invariant (fun _ _ _ h hstep => h.step hstep) (inv_boot disk)
  have hs : s.Inv T := hsince.invariant (fun _ _ _ h hstep => h.step hstep) hu
  refine ⟨fun p h hhold => ?_, fun p h hhold hquiet q group t _ hindex => ?_⟩
  · obtain ⟨-, hvalid, hkey, hptr⟩ := hs.holds p h hhold
    exact Current.right hs ⟨h.buf, hptr, hkey, hvalid⟩
  · have hkeeps : s.Inv T ∧ s.Keeps T h.dev (T.index h.group) h.buf (u.others h since) := by
      refine hsince.of_mem.invariant
        (fun v a w (hv : v.Inv T ∧ v.Keeps T h.dev (T.index h.group) h.buf (u.others h since)) hstep => ?_)
        ⟨hu, hu.keeps hhold hquiet.unpinned⟩
      obtain ⟨hinv, hkeeps⟩ := hv
      obtain ⟨hmem, hstep⟩ := hstep
      refine ⟨hinv.step hstep, hkeeps.step hinv hstep.2 (hu.others_device hsince h) hquiet.few
        (fun heq => hquiet.noPin (heq ▸ hmem)) fun l hl => or_iff_not_imp_left.mpr fun hne => ?_⟩
      rw [← (hu.holds p h hhold).2.2.1] at hne
      exact Finset.mem_erase.mpr ⟨hne, List.mem_toFinset.mpr
        (List.mem_append_right _ (List.mem_filterMap.mpr ⟨a, hmem, hl⟩))⟩
    exact Current.right hs ⟨h.buf, hindex ▸ hkeeps.2.pointer, hindex ▸ hkeeps.2.recent.key,
      hkeeps.2.recent.valid⟩

/-- A file system of one group with its descriptors in block 2. -/
def oneDescBlock : DescTable := ⟨1, 5, fun n => n + 2⟩

/-- Process 0 reads block `b` of device 7. -/
def readBlock (b : ℕ) : List DescAction :=
  [.traffic (.bget 0 (7, b)), .traffic (.acquire 0), .traffic (.fill 0 .complete)]

/-- Process 0 reads and releases blocks 100, 101, …, which buffers 1, 2, … and at last buffer 0
take. -/
def readOthers : List DescAction :=
  (List.range nbuf).flatMap fun n =>
    readBlock (100 + n) ++ [.traffic (.releaseLock 0 ((n + 1) % nbuf)), .traffic (.dropRef 0)]

/-- Process 0 loads the group's descriptor and releases it, then reads other blocks. -/
def recyclingRun : List DescAction :=
  readBlock 2 ++ [.load 0 ⟨7, 0, 0⟩, .unload 0, .traffic (.dropRef 0)] ++ readOthers

/-- Process 0 releases the group's descriptor and reads another block. -/
def readOne : List DescAction := [.unload 0, .traffic (.dropRef 0)] ++ readBlock 100

/-- After the release of its buffer and a read of one other block the descriptor is still right. -/
theorem group_desc_right_released : ∃ u s, Run (Step oneDescBlock) (boot fun _ _ _ => 0)
    (readBlock 2 ++ [.load 0 ⟨7, 0, 0⟩]) u ∧ Run (Step oneDescBlock) u readOne s ∧
    s.hold 0 = none ∧ s.Right oneDescBlock 7 0 := by
  obtain ⟨u, hrun, hhold, hfew, hpins, hend⟩ : ∃ u, Run (Step oneDescBlock) (boot fun _ _ _ => 0)
      (readBlock 2 ++ [.load 0 ⟨7, 0, 0⟩]) u ∧ u.hold 0 = some ⟨7, 0, 0⟩ ∧
      (u.others ⟨7, 0, 0⟩ readOne).card < nbuf ∧ u.cache.pins 0 = 0 ∧
      (runActions (next oneDescBlock) u readOne).any (fun s => s.hold 0 = none) = true :=
    exists_run id (by decide +kernel)
  obtain ⟨s, hsince, hnone⟩ : ∃ s, Run (Step oneDescBlock) u readOne s ∧ s.hold 0 = none :=
    exists_run id hend
  have hreads : ∀ {v w as}, Run (Step oneDescBlock) v as w →
    as ⊆ readBlock 2 ++ [.load 0 ⟨7, 0, 0⟩] ++ readOne →
      Run (ReadingStep oneDescBlock) v as w := by
    intro v w as hrun hsub
    refine hrun.of_mem.mono fun _ a _ hstep => ⟨fun p r ha => ?_, hstep.2⟩
    have hmem := hsub hstep.1
    rw [ha] at hmem
    simp [readBlock, readOne] at hmem
    simp [hmem, Transfer.completes]
  have hright := (group_desc_right (hreads hrun (List.subset_append_left _ _))
    (hreads hsince (List.subset_append_right _ _))).2 0 _ hhold
    ⟨hfew, hpins, by simp [readOne, readBlock]⟩ 0 0 s (by simp [Step, next, oneDescBlock, hnone]) rfl
  exact ⟨u, s, hrun, hsince, hnone, hright⟩

/-- A release of an inode or a block after the run follows the pointer to a buffer that holds block
129. -/
theorem recycled_group_desc : ∃ s, Run (Step oneDescBlock) (boot fun _ _ _ => 0) recyclingRun s ∧
    s.Step oneDescBlock (.freeAccess 0 7 0) s ∧ s.groupDesc 7 0 = some 0 ∧ s.cache.key 0 = (7, 129) ∧
    ¬ s.Right oneDescBlock 7 0 := by
  obtain ⟨s, hrun, hhold, hptr, hkey⟩ : ∃ s, Run (Step oneDescBlock) (boot fun _ _ _ => 0) recyclingRun s ∧
      s.hold 0 = none ∧ s.groupDesc 7 0 = some 0 ∧ s.cache.key 0 = (7, 129) :=
        exists_run id (by decide +kernel)
  refine ⟨s, hrun, ?_, hptr, hkey, ?_⟩
  · simp [Step, next, oneDescBlock, hhold]
  · rintro ⟨⟨i, hi, hki, -⟩, -⟩
    have : i = 0 := Option.some.inj (hi.symm.trans hptr)
    rw [this, hkey] at hki
    simp [oneDescBlock, DescTable.index] at hki

end DescSys

end Xv6
