import Xv6.Bio.Invariant
import Xv6.Bio.Spec

/-!
# One process alone in the shared cache

The cache of `Xv6.Bio`, where each call runs to its end, describes the shared cache whenever one
process makes the call undisturbed: `bread` and `brelse` there are runs of the atomic steps here.
-/

namespace Xv6

open Lib

/-- A buffer without the name of its holder. -/
def Entry.toBuf (e : Entry) : Buf := ⟨e.valid, e.dev, e.blockno, e.holder.isSome, e.refcnt, e.data⟩

namespace Cache

/-- The shared cache with its list read off the links. -/
structure Models (s : Cache) (b : Bio) : Prop where
  ring : s.links.Ring b.lru
  length : b.lru.length = nbuf
  disk : s.disk = b.disk
  buf : ∀ i, b.buf i = (s.buf i).toBuf

/-- Steps of any callers. -/
def Free (s : Cache) (a : CacheAction) (t : Cache) : Prop := s.next a = some t

/-- The steps of `bread`; the buffer is read only if it is not valid, and here the transfer is
complete. -/
def breadSteps (p : ℕ) (k : Key) (valid : Bool) : List CacheAction :=
  [.bget p k, .acquire p] ++ if valid then [] else [.fill p .complete]

variable {s t : Cache} {b b' c : Bio} {p i j : ℕ} {k : Key} {e : Entry}

section

variable (h : s.Models b)

include h

theorem Models.findBlock_eq : s.findBlock k = b.slot k := by
  rw [findBlock, h.ring.scan_next (h.length ▸ Nat.lt_succ_self _), Bio.slot]
  congr 1
  funext j
  simp [h.buf, Entry.toBuf, key, Prod.ext_iff]

theorem Models.findFree_eq : s.findFree = b.lru.reverse.find? fun j => (b.buf j).refcnt = 0 := by
  rw [findFree, h.ring.scan_prev (h.length ▸ Nat.lt_succ_self _)]
  congr 1
  funext j
  simp [h.buf, Entry.toBuf]

/-- Changing one buffer alike on both sides. -/
theorem Models.setBuf (hbuf : t.buf = Function.update s.buf i e) (hlinks : t.links = s.links)
    (hdisk : t.disk = s.disk) :
    t.Models (b.setBuf i e.toBuf) := by
  refine ⟨hlinks ▸ h.ring, h.length, hdisk.trans h.disk, fun j => ?_⟩
  rw [hbuf]
  obtain rfl | hne := eq_or_ne j i
  · simp [Bio.setBuf]
  · simp [Bio.setBuf, hne, h.buf]

/-- `bread` once it has found its buffer: it takes the lock, and reads the block when the buffer is
not valid. -/
theorem Models.found {dirty : ℕ → Bool} {u : Cache}
    (hu : u = { (s.setBuf i e).setStage p (.acquiring i k) with dirty := dirty })
    (hget : s.Free (.bget p k) u)
    (hfree : e.holder = none) (hdev : e.dev = k.1) (hno : e.blockno = k.2)
    (hc : c = b.setBuf i { e with holder := some p : Entry }.toBuf)
    (hread : (if (c.buf i).valid then .ok i c else match diskRead i c with
      | .error x c => .error x c
      | .ok _ c => .ok i c) = EStateM.Result.ok j b') :
    ∃ t, Run Free s (breadSteps p k e.valid) t ∧ t.Models b' ∧ t.stage p = .idle ∧
      (t.buf j).holder = some p := by
  have hself : c.buf i = ⟨e.valid, k.1, k.2, true, e.refcnt, e.data⟩ := by simp [hc, Bio.setBuf,
    Entry.toBuf, hdev, hno]
  have hlock : u.Free (.acquire p) (u.lock p i k) := by simp [Free, next, hu, setStage, Cache.setBuf, hfree]
  rw [hself] at hread
  cases hvalid : e.valid with
  | true =>
    simp only [hvalid, if_true] at hread
    cases hread
    rw [hc]
    refine ⟨_, .cons hget (.cons hlock (.nil _)), h.setBuf ?_ (by rw [hu]; rfl) (by rw [hu]; rfl), ?_, ?_⟩
    all_goals simp [hu, lock, setStage, Cache.setBuf, hvalid]
  | false =>
    simp only [hvalid, Bool.false_eq_true, if_false, Bio.diskRead_eq, hself] at hread
    by_cases hin : medium k.1 = .ramdisk ∧ fsSize ≤ k.2
    · simp [hin] at hread
    · simp only [hin, if_false] at hread
      cases hread
      have hrange : InRange k.1 k.2 := fun hm => not_le.mp fun hle => hin ⟨hm, hle⟩
      have hfill : (u.lock p i k).Free (.fill p .complete) ((u.lock p i k).transferIn p i k .complete) := by
        have hpossible : Transfer.complete.Possible k.1 := fun h => by simp [Transfer.completes] at h
        simp [Free, next, hu, lock, setStage, Cache.setBuf, hvalid, hno, hrange, hpossible]
      have hdata : (u.lock p i k).incoming i k = b.disk (medium k.1) k.2 := by
        unfold incoming
        cases medium k.1 <;> simp [hu, lock, setStage, Cache.setBuf, hno, h.disk]
      have hbuf : ((u.lock p i k).transferIn p i k .complete).buf = Function.update s.buf i
          ⟨true, k.1, k.2, e.refcnt, b.disk (medium k.1) k.2, some p⟩ := by
        rw [transferIn, hdata]
        simp [hu, lock, setStage, Cache.setBuf, hdev, hno, Transfer.result]
      refine ⟨_, .cons hget (.cons hlock (.cons hfill (.nil _))), ?_, by simp [transferIn, setStage],
        by simp [hbuf]⟩
      simpa [hc, Bio.setBuf, Bio.disk, Entry.toBuf] using h.setBuf hbuf (by rw [hu]; rfl) (by rw [hu]; rfl)

/-- Undisturbed, the steps of `bread` are the sequential `bread`. -/
theorem Models.bread_undisturbed (hidle : s.stage p = .idle) (hread : Xv6.bread k.1 k.2 b = .ok j b') :
    ∃ t, Run Free s (breadSteps p k ((b.slot k).any fun i => (b.buf i).valid)) t ∧ t.Models b' ∧
      t.stage p = .idle ∧ (t.buf j).holder = some p := by
  have hunlocked (i : ℕ) (hfree : ¬ (b.buf i).locked = true) : (s.buf i).holder = none := by
    simpa [h.buf, Entry.toBuf] using hfree
  rw [Bio.bread_eq, Bio.bget_eq] at hread
  cases hslot : b.slot k with
  | some i =>
    have hkey : (s.buf i).dev = k.1 ∧ (s.buf i).blockno = k.2 := by
      simpa [h.buf, Entry.toBuf] using List.find?_some hslot
    have hget : s.Free (.bget p k) (s.takeHit p k i) := by simp [Free, next, hidle, Cache.bget,
      h.findBlock_eq, hslot]
    by_cases hlocked : (b.buf i).locked = true
    · simp [hslot, hlocked] at hread
    · simp only [hslot, hlocked] at hread
      have hvalid : (some i).any (fun i => (b.buf i).valid) = (s.buf i).valid := by
        simp [h.buf, Entry.toBuf]
      rw [hvalid]
      exact h.found (e := { s.buf i with refcnt := (s.buf i).refcnt + 1 }) rfl hget
        (hunlocked i hlocked) hkey.1 hkey.2 (by simp [h.buf, Entry.toBuf]) hread
  | none =>
    cases hfind : b.lru.reverse.find? fun i => (b.buf i).refcnt = 0 with
    | none => simp [hslot, hfind] at hread
    | some i =>
      have hget : s.Free (.bget p k) (s.recycle p k i) := by
        simp [Free, next, hidle, Cache.bget, h.findBlock_eq, hslot, h.findFree_eq, hfind]
      by_cases hlocked : (b.buf i).locked = true
      · simp [hslot, hfind, hlocked] at hread
      · simp only [hslot, hfind, hlocked] at hread
        exact h.found (e := { s.buf i with dev := k.1, blockno := k.2, valid := false, refcnt := 1 })
          rfl hget (hunlocked i hlocked) rfl rfl (by simp [h.buf, Entry.toBuf]) hread

end

/-- The first block read after boot. -/
theorem Models.bread_undisturbed_first : ∃ c, Xv6.bread 1 5 (Xv6.binit fun _ _ _ => 0) = .ok 0 c ∧
    ∃ t, Run Free (binit fun _ _ _ => 0) [.bget 3 (1, 5), .acquire 3, .fill 3 .complete] t ∧
      t.Models c ∧ (t.buf 0).holder = some 3 := by
  have hring := Links.ring_foldl_pushFront Links.ring_empty (by simpa using List.nodup_range (n := nbuf))
  rw [List.append_nil] at hring
  have hmodels : (binit fun _ _ _ => 0).Models (Xv6.binit fun _ _ _ => 0) := ⟨hring, rfl, rfl, fun _ => rfl⟩
  obtain ⟨t, hrun, ht, -, hheld⟩ := hmodels.bread_undisturbed (p := 3) (k := (1, 5)) rfl rfl
  exact ⟨_, rfl, t, hrun, ht, hheld⟩

/-- Undisturbed, the two halves of `brelse` are the sequential `brelse`. -/
theorem Models.brelse (h : s.Models b) (hidle : s.stage p = .idle)
    (hheld : (s.buf i).holder = some p) (hi : i ∈ b.lru) :
    ∃ t, Run Free s [.releaseLock p i, .dropRef p] t ∧ t.stage p = .idle ∧ ∃ b', Xv6.brelse i b =
      .ok () b' ∧ t.Models b' := by
  have hfirst : s.Free (.releaseLock p i) (s.unlock p i) := by simp [Free, next, hidle, hheld]
  have hsecond : (s.unlock p i).Free (.dropRef p) ((s.unlock p i).drop p i) := by simp [Free, next,
    unlock, setStage]
  refine ⟨_, .cons hfirst (.cons hsecond (.nil _)), by simp [drop, setStage], b.released i, ?_, ?_⟩
  · simp [Bio.brelse_eq, h.buf, Entry.toBuf, hheld]
  · have hcount : ((s.unlock p i).buf i).refcnt = (b.buf i).refcnt := by
      simp [unlock, setStage, Cache.setBuf, h.buf, Entry.toBuf]
    refine ⟨?_, (Bio.released_lru hi).length_eq.trans h.length, ?_, fun j => ?_⟩
    · simp only [drop, hcount, Bio.released]
      split_ifs
      · exact h.ring.moveFront hi
      · exact h.ring
    · rw [Bio.disk, (Bio.released_unwritten b i).1, (Bio.released_unwritten b i).2]
      exact h.disk
    · rw [Bio.released_buf]
      obtain rfl | hne := eq_or_ne j i
      · simp [h.buf, Entry.toBuf, drop, unlock, setStage, Cache.setBuf]
      · simp [h.buf, drop, unlock, setStage, Cache.setBuf, hne]

end Cache

end Xv6
