import Xv6.Bio.Cell

/-!
# What the buffer-cache calls do

Each call is described once, by the buffer it changes and the cells it leaves alone:
`bread` by `ReadBy`, `bwrite` by its equation, `brelse` by `released`. A call that halts
has written nothing, and `bread` halts only where the cache cannot serve the block.
-/

namespace Xv6

open Lib

namespace Bio

variable {s t u : Bio} {i j : ℕ} {k l : Key} {x y : Buf}

/-- Locking a free buffer, or waiting for oneself. -/
theorem acquireBuf_eq (s : Bio) (i : ℕ) : acquireBuf i s =
    if (s.buf i).locked then .error .deadlock s
    else .ok () (s.setBuf i { s.buf i with locked := true }) := by
  simp [acquireBuf]

/-- The outcomes of the cache search. -/
theorem bget_eq (s : Bio) (k : Key) : bget k.1 k.2 s =
    match s.slot k with
    | some i =>
      if (s.buf i).locked then .error .deadlock (s.setBuf i { s.buf i with refcnt := (s.buf i).refcnt + 1 })
      else .ok i (s.setBuf i { s.buf i with refcnt := (s.buf i).refcnt + 1, locked := true })
    | none =>
      match s.lru.reverse.find? fun i => (s.buf i).refcnt = 0 with
      | some i =>
        if (s.buf i).locked then
          .error .deadlock (s.setBuf i { s.buf i with dev := k.1, blockno := k.2, valid := false, refcnt := 1 })
        else .ok i (s.setBuf i
          { s.buf i with dev := k.1, blockno := k.2, valid := false, refcnt := 1, locked := true })
      | none => .error (.panic "bget: no buffers") s := by
  simp only [bget, exec_bind, exec_get]
  rw [slot]
  cases s.lru.find? fun i => (s.buf i).dev = k.1 ∧ (s.buf i).blockno = k.2 with
  | some i =>
    simp only [exec_bind, acquireBuf_eq]
    by_cases h : (s.buf i).locked <;> simp [h, Bio.setBuf]
  | none =>
    cases s.lru.reverse.find? fun i => (s.buf i).refcnt = 0 with
    | some i =>
      simp only [exec_bind, acquireBuf_eq]
      by_cases h : (s.buf i).locked <;> simp [h, Bio.setBuf]
    | none => rfl

/-- The buffer returned by `bread`, and what the call leaves alone. -/
structure ReadBy (s : Bio) (k : Key) (i : ℕ) (t : Bio) : Prop where
  mem : i ∈ s.lru
  eq : t = s.setBuf i ⟨true, k.1, k.2, true, s.refs k + 1, s.view k⟩
  unlocked : (s.buf i).locked = false
  origin : s.Holds i k ∨ (∀ j, ¬ s.Holds j k) ∧ (s.buf i).refcnt = 0

/-- A halted call has written nothing. -/
def Unwritten (s t : Bio) : Prop := t.writes = s.writes ∧ t.base = s.base

/-- The block exists: the ramdisk has `fsSize` of them. -/
def OnMedium (k : Key) : Prop := medium k.1 = .ramdisk → k.2 < fsSize

/-- The cache can serve a read of the block: the block exists, its buffer is not locked, and
there is such a buffer or a free one. -/
structure Serves (s : Bio) (k : Key) : Prop where
  exists_block : OnMedium k
  unlocked : ∀ i, s.Holds i k → (s.buf i).locked = false
  available : (∃ i, s.Holds i k) ∨ ∃ i ∈ s.lru, (s.buf i).refcnt = 0

/-- The block transfer into a buffer, or the ramdisk's bound check. -/
theorem diskRead_eq (s : Bio) (i : ℕ) : diskRead i s =
    if medium (s.buf i).dev = .ramdisk ∧ fsSize ≤ (s.buf i).blockno then
      .error (.panic "ramdiskrw: blockno too big") s
    else .ok () (s.setBuf i { s.buf i with
      valid := true, data := s.disk (medium (s.buf i).dev) (s.buf i).blockno }) := by
  simp [diskRead]

/-- `bread` fills the buffer it got unless that is already valid. -/
theorem bread_eq (s : Bio) (k : Key) : bread k.1 k.2 s =
    match bget k.1 k.2 s with
    | .error e t => .error e t
    | .ok i t =>
      if (t.buf i).valid then .ok i t
      else match diskRead i t with
        | .error e u => .error e u
        | .ok _ u => .ok i u := by
  simp only [bread, exec_bind]
  cases bget k.1 k.2 s with
  | error e t => rfl
  | ok i t =>
    simp only [exec_bind, exec_get, exec_ite]
    cases diskRead i t <;> rfl

/-- `bread` returns the block's locked buffer, with one more reference and the block's contents;
it halts only where the cache cannot serve the block, and then has written nothing. -/
theorem bread_ends (hwf : s.Wf) (hk : k.1 ≠ 0) :
    Ends (bread k.1 k.2) s (s.ReadBy k) fun t => s.Unwritten t ∧ ¬ s.Serves k := by
  unfold Ends
  rw [bread_eq, bget_eq]
  cases hslot : s.slot k with
  | some i =>
    have hi := holds_of_slot hslot
    have hcell := hwf.cell_of_holds hk hi
    by_cases hlocked : (s.buf i).locked
    · have hno : ¬ s.Serves k := fun h => by simp [h.unlocked i hi] at hlocked
      simp [hlocked, Unwritten, Bio.setBuf, hno]
    · by_cases hvalid : (s.buf i).valid
      · have hresult : s.ReadBy k i
          (s.setBuf i { s.buf i with refcnt := (s.buf i).refcnt + 1, locked := true }) := by
          refine ⟨hi.1, ?_, by simpa using hlocked, Or.inl hi⟩
          rw [refs_of_cell hcell, view_of_cell hcell hvalid, ← hi.2.1, ← hi.2.2, ← hvalid]
        simpa [hlocked, Bio.setBuf, hvalid] using hresult
      · have hview : s.view k = s.disk (medium (s.buf i).dev) (s.buf i).blockno := by
          rw [view, hcell, hi.2.1, hi.2.2]
          simp [hvalid, Disk.at]
        by_cases hbound : medium (s.buf i).dev = .ramdisk ∧ fsSize ≤ (s.buf i).blockno
        · have hno : ¬ s.Serves k := fun h =>
            absurd (h.exists_block (hi.2.1 ▸ hbound.1)) (Nat.not_lt.mpr (hi.2.2 ▸ hbound.2))
          simp [hlocked, Bio.setBuf, hvalid, diskRead_eq, hbound, Unwritten, hno]
        · have hresult : s.ReadBy k i (s.setBuf i ⟨true, (s.buf i).dev, (s.buf i).blockno, true,
              (s.buf i).refcnt + 1, s.disk (medium (s.buf i).dev) (s.buf i).blockno⟩) := by
            refine ⟨hi.1, ?_, by simpa using hlocked, Or.inl hi⟩
            rw [refs_of_cell hcell, hview, ← hi.2.1, ← hi.2.2]
          simpa [hlocked, Bio.setBuf, hvalid, diskRead_eq, hbound, Bio.disk] using hresult
  | none =>
    have hnone := slot_eq_none.mp hslot
    have hcell := cell_eq_none hnone
    cases hfree : s.lru.reverse.find? fun i => (s.buf i).refcnt = 0 with
    | none =>
      have hno : ¬ s.Serves k := fun h => by
        rcases h.available with ⟨i, hi⟩ | ⟨i, hi, hzero⟩
        · exact hnone i hi
        · exact absurd hzero (by simpa using List.find?_eq_none.mp hfree i (List.mem_reverse.mpr hi))
      simp [Unwritten, hno]
    | some i =>
      have hmem : i ∈ s.lru := List.mem_reverse.mp (List.mem_of_find?_eq_some hfree)
      have hzero : (s.buf i).refcnt = 0 := by simpa using List.find?_some hfree
      have hlocked : (s.buf i).locked = false := by
        by_contra hlocked
        exact hwf.referenced i hmem (by simpa using hlocked) hzero
      by_cases hbound : medium k.1 = .ramdisk ∧ fsSize ≤ k.2
      · have hno : ¬ s.Serves k := fun h => absurd (h.exists_block hbound.1) (Nat.not_lt.mpr hbound.2)
        simp [hlocked, Bio.setBuf, diskRead_eq, hbound, Unwritten, hno]
      · have hresult : s.ReadBy k i (s.setBuf i ⟨true, k.1, k.2, true, 1, s.disk (medium k.1) k.2⟩) := by
          refine ⟨hmem, ?_, hlocked, Or.inr ⟨hnone, hzero⟩⟩
          rw [refs, view, hcell]
          rfl
        simpa [hlocked, Bio.setBuf, diskRead_eq, hbound, Bio.disk] using hresult

section Read

variable (h : s.ReadBy k i t)

include h

/-- The buffer after the call. -/
theorem ReadBy.buf_self : t.buf i = ⟨true, k.1, k.2, true, s.refs k + 1, s.view k⟩ := by
  rw [h.eq]
  simp [Bio.setBuf]

/-- Every other buffer is unchanged. -/
theorem ReadBy.buf_of_ne (hj : j ≠ i) : t.buf j = s.buf j := by
  rw [h.eq]
  simp [Bio.setBuf, Function.update_of_ne hj]

/-- The call does not reorder the list. -/
theorem ReadBy.lru_eq : t.lru = s.lru := by rw [h.eq]; rfl

/-- The call writes nothing. -/
theorem ReadBy.unwritten : s.Unwritten t := by rw [h.eq]; exact ⟨rfl, rfl⟩

/-- The call leaves storage alone. -/
theorem ReadBy.disk_eq : t.disk = s.disk := by rw [h.eq]; rfl

/-- The returned buffer is assigned to the block. -/
theorem ReadBy.holds : t.Holds i k := by
  refine ⟨h.lru_eq ▸ h.mem, ?_, ?_⟩ <;> rw [h.buf_self]

/-- Assignments other than the returned buffer's were there before. -/
theorem ReadBy.holds_of_ne (hj : j ≠ i) : t.Holds j l ↔ s.Holds j l := by
  rw [Holds, Holds, h.lru_eq, h.buf_of_ne hj]

/-- Only the returned buffer is assigned to the block. -/
theorem ReadBy.eq_of_holds (hwf : s.Wf) (hk : k.1 ≠ 0) (hj : t.Holds j k) : j = i := by
  by_contra hne
  have hjs := (h.holds_of_ne hne).mp hj
  rcases h.origin with hi | ⟨hnone, _⟩
  · exact hne (hwf.unique j i k hk hjs hi)
  · exact hnone j hjs

/-- The cache stays well formed. -/
theorem ReadBy.wf (hwf : s.Wf) (hk : k.1 ≠ 0) : t.Wf where
  nodup := h.lru_eq ▸ hwf.nodup
  unique := fun a b l hl ha hb => by
    by_cases hak : l = k
    · subst hak
      rw [h.eq_of_holds hwf hk ha, h.eq_of_holds hwf hk hb]
    · have hai : a ≠ i := fun hai => hak ((hai ▸ ha).key_eq h.holds)
      have hbi : b ≠ i := fun hbi => hak ((hbi ▸ hb).key_eq h.holds)
      exact hwf.unique a b l hl ((h.holds_of_ne hai).mp ha) ((h.holds_of_ne hbi).mp hb)
  referenced := fun a ha => by
    by_cases hai : a = i
    · subst hai
      simp [h.buf_self]
    · rw [h.buf_of_ne hai]
      exact hwf.referenced a (h.lru_eq ▸ ha)

/-- Any other cell is unchanged or was unreferenced. -/
theorem ReadBy.kept (hwf : s.Wf) (hk : k.1 ≠ 0) (hl : l.1 ≠ 0) (hne : l ≠ k) : Kept s t l := by
  by_cases hil : s.Holds i l
  · refine Or.inr ⟨s.buf i, hwf.cell_of_holds hl hil, ?_, cell_eq_none fun j hj => ?_⟩
    · rcases h.origin with hik | ⟨_, hzero⟩
      · exact absurd (hil.key_eq hik) hne
      · exact hzero
    · have hji : j ≠ i := fun hji => hne ((hji ▸ hj).key_eq h.holds)
      exact hji (hwf.unique j i l hl ((h.holds_of_ne hji).mp hj) hil)
  · refine Or.inl (hwf.cell_congr (h.wf hwf hk) hl (fun j => ?_) fun j hj => ?_)
    · by_cases hji : j = i
      · subst hji
        exact ⟨fun hj => absurd (hj.key_eq h.holds) hne, fun hj => absurd hj hil⟩
      · exact h.holds_of_ne hji
    · exact h.buf_of_ne fun hji => hil (hji ▸ hj)

/-- A referenced buffer of another block keeps its block and its contents. -/
theorem ReadBy.handle (hj : s.Holds j l) (hne : l ≠ k) (href : (s.buf j).refcnt ≠ 0) :
    t.Holds j l ∧ t.buf j = s.buf j := by
  have hji : j ≠ i := by
    rintro rfl
    rcases h.origin with hjk | ⟨_, hzero⟩
    · exact hne (hj.key_eq hjk)
    · exact href hzero
  exact ⟨(h.holds_of_ne hji).mpr hj, h.buf_of_ne hji⟩

end Read

/-- `bwrite` of a locked buffer appends one write. -/
theorem bwrite_eq (s : Bio) (i : ℕ) : bwrite i s =
    if (s.buf i).locked = false then .error (.panic "bwrite") s
    else if medium (s.buf i).dev = .ramdisk ∧ fsSize ≤ (s.buf i).blockno then
      .error (.panic "ramdiskrw: blockno too big") s
    else .ok () { s with writes := s.writes ++ [⟨(s.buf i).dev, (s.buf i).blockno, (s.buf i).data⟩] } := by
  simp [bwrite]

/-- The cache after `brelse`. -/
def released (s : Bio) (i : ℕ) : Bio :=
  let t := s.setBuf i { s.buf i with locked := false, refcnt := (s.buf i).refcnt - 1 }
  if (s.buf i).refcnt - 1 = 0 then { t with lru := i :: t.lru.erase i } else t

/-- `brelse` of a locked buffer. -/
theorem brelse_eq (s : Bio) (i : ℕ) : brelse i s =
    if (s.buf i).locked = false then .error (.panic "brelse") s else .ok () (s.released i) := by
  simp only [brelse, released, exec_bind, exec_get, Bool.not_eq_true]
  split <;> [rfl; (split <;> rfl)]

/-- Releasing a held buffer returns. -/
theorem brelse_ends {halted : Bio → Prop} (h : (s.buf i).locked = true) :
    Ends (brelse i) s (fun _ t => t = s.released i) halted := by
  simp [Ends, brelse_eq, h]

/-- Releasing a buffer writes nothing. -/
theorem released_unwritten (s : Bio) (i : ℕ) : s.Unwritten (s.released i) := by
  unfold released
  split <;> exact ⟨rfl, rfl⟩

/-- The buffers after a release. -/
theorem released_buf (s : Bio) (i : ℕ) : (s.released i).buf =
    Function.update s.buf i { s.buf i with locked := false, refcnt := (s.buf i).refcnt - 1 } := by
  unfold released
  split <;> rfl

/-- A release only reorders the list. -/
theorem released_lru (hi : i ∈ s.lru) : (s.released i).lru.Perm s.lru := by
  unfold released
  split
  · exact (List.perm_cons_erase hi).symm
  · exact List.Perm.refl _

/-- A release alters the released buffer only. -/
theorem Wf.alters_released (hwf : s.Wf) (hi : s.Holds i k) : Alters s (s.released i) i
    { s.buf i with locked := false, refcnt := (s.buf i).refcnt - 1 } :=
  hwf.alters hi hi.2.1 hi.2.2 (by simp) (released_buf s i) (released_lru hi.1)

end Bio

end Xv6
