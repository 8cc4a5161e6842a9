import Mathlib.Logic.Relation
import Xv6.Log.Commit

/-!
# Crash atomicity of commit

Power may be lost after any block write of `commit`, and again after any block write of
each later `recover_from_log`. Every disk met on the way is in one of the phases of the
redo log, so a recovery that is not interrupted returns with an empty header and either
all or none of the transaction's blocks in place.
-/

namespace Xv6

open Lib Bio

/-- The disk after losing power between two block writes of a call, or at its end. -/
def CrashDisk {α : Type} (m : BioM α) (s : Bio) (d : Disk) : Prop :=
  ∃ ws, s.writes <+: ws ∧ ws <+: (stateAfter m s).writes ∧ d = s.base.replay ws

/-- The log after a reboot, when `initlog` has set its location. -/
def Log.rebooted (lg : Log) : Log := { lg with outstanding := 0, committing := false, lh := .empty }

/-- A booted cache: nothing is referenced and every buffer agrees with the disk. -/
structure Booted (r : Bio) (d : Disk) : Prop where
  wf : r.Wf
  idle : r.Idle
  synced : ∀ k, r.Synced k
  base : r.base = d
  writes : r.writes = []

/-- Recovery of the log starts on disk `d` and power is lost with disk `d'`. -/
def RecoveryCrash (lg : Log) (d d' : Disk) : Prop :=
  ∃ r, Booted r d ∧ CrashDisk (recoverFromLog lg.rebooted) r d'

/-- A transaction ready to commit on a disk whose log is empty; all blocks exist. -/
structure Committable (lg : Log) (s : Bio) (new : ℕ → Block) : Prop extends Loaded lg s new where
  empty : headCount (s.disk.at (lg.dev, lg.start)) = 0
  word : ∀ b ∈ lg.lh.block, b < 2 ^ 32
  area_exists : ∀ b, lg.start ≤ b → b < lg.start + lg.size → OnMedium (lg.dev, b)
  home_exists : ∀ b ∈ lg.lh.block, OnMedium (lg.dev, b)

/-- A booted cache starts out synced: `binit`. -/
theorem booted_binit (d : Disk) : Booted (binit d) d := by
  have hcell : ∀ k x, (binit d).cell k = some x → x.valid = false := by
    intro k x hx
    obtain ⟨i, _, rfl⟩ := holds_of_cell hx
    rfl
  refine ⟨wf_binit d, ⟨?_, ?_⟩, ?_, rfl, rfl⟩
  · change 2 ≤ (List.range nbuf).reverse.length
    decide
  · intro i _
    rfl
  · intro k x hx hvalid
    rw [hcell k x hx] at hvalid
    cases hvalid

/-- The disk of a booted cache. -/
theorem Booted.disk_eq {r : Bio} {d : Disk} (h : Booted r d) : r.disk = d := by
  rw [disk, h.base, h.writes]
  rfl

section Recovery

variable {lg : Log} {s t : Bio}

/-- What recovery needs of the header it finds: its entries fit and lie outside the log area. -/
structure HeadOk (lg : Log) (bs : List ℕ) : Prop where
  fits : bs.length ≤ logSize
  room : bs.length + 1 ≤ lg.size
  outside : ∀ b ∈ bs, lg.Outside b
  home_exists : ∀ b ∈ bs, OnMedium (lg.dev, b)
  area_exists : ∀ b, lg.start ≤ b → b < lg.start + lg.size → OnMedium (lg.dev, b)

/-- `read_head` loads the header of an idle cache without writing. -/
theorem readHead_ends (hwf : s.Wf) (hdev : lg.dev ≠ 0) (hidle : s.Idle)
    (hhead : OnMedium (lg.dev, lg.start)) (hsynced : s.Synced (lg.dev, lg.start))
    (hfits : (getHead (s.disk.at (lg.dev, lg.start))).length ≤ logSize) :
    Ends (readHead lg) s
      (fun lg' t => lg' = { lg with lh := ⟨getHead (s.disk.at (lg.dev, lg.start)), hfits⟩ } ∧
        Advances lg.dev s t []) fun _ => False := by
  refine ends_bind ((bread_ends (k := (lg.dev, lg.start)) hwf hdev).mono (fun i t hi => ?_) fun t ht =>
    ht.2 (hidle.serves hwf hhead))
  have hbuf := hi.buf_self
  rw [hsynced.view_eq] at hbuf
  have hadvances := hi.advances hwf hdev
  simpa [Ends, hbuf, hfits, brelse_eq] using hadvances

/-- The second half of recovery: install the listed blocks and clear the header. -/
theorem installClear_ends {bs : List ℕ} (hwf : s.Wf) (hidle : s.Idle) (hsynced : ∀ b, s.Synced (lg.dev, b))
    (hdev : lg.dev ≠ 0) (hhead : HeadOk lg bs) :
    Ends (do
      installTransFrom lg true 0 bs
      writeHead { lg with lh := .empty }
      return { lg with lh := .empty }) s
      (fun _ t => ∃ y, Advances lg.dev s t
        (lg.redo.homeWrites (s.disk (medium lg.dev)) 0 bs ++ [(lg.start, putHead y [])])) fun _ => False := by
  have hroom := hhead.room
  refine ends_bind ((installTransFrom_ends hwf hdev (by omega) hhead.outside (fun i _ _ => hsynced _)
    (by simp)).mono (fun _ t ht => ?_) fun t ht => ht.2 ?_)
  · refine ends_bind ((writeHead_ends ht.wf hdev .empty).mono (fun _ u hu => ends_pure ⟨_, ht.trans hu⟩)
      fun u hu => hu.2 ⟨ht.idle hidle, hhead.area_exists _ le_rfl (by omega)⟩)
  · exact ⟨hidle, hhead.home_exists, fun i hi => hhead.area_exists _ (by omega) (by omega)⟩

/-- Recovery of a booted cache returns, after installing what the header lists and clearing it. -/
theorem recoverFromLog_ends {d : Disk} (hs : Booted s d) (hdev : lg.dev ≠ 0)
    (hhead : HeadOk lg (getHead (d.at (lg.dev, lg.start)))) :
    Ends (recoverFromLog lg) s
      (fun _ t => ∃ y, Advances lg.dev s t (lg.redo.homeWrites (d (medium lg.dev)) 0
        (getHead (d.at (lg.dev, lg.start))) ++ [(lg.start, putHead y [])])) fun _ => False := by
  rw [← hs.disk_eq] at hhead ⊢
  have hroom := hhead.room
  have hstart : OnMedium (lg.dev, lg.start) := hhead.area_exists _ le_rfl (by omega)
  refine ends_bind ((readHead_ends hs.wf hdev hs.idle hstart (hs.synced _) hhead.fits).mono ?_ fun _ => id)
  rintro _ t ⟨rfl, ht⟩
  have hmedium : t.disk (medium lg.dev) = s.disk (medium lg.dev) := ht.medium_eq
  have hrest := installClear_ends ht.wf (ht.idle hs.idle) (fun b => ht.synced b (hs.synced _)) hdev hhead
  rw [hmedium] at hrest
  rw [installTrans, installTransFrom_setHead]
  refine hrest.mono (fun _ u ⟨y, hu⟩ => ⟨y, ?_⟩) fun _ => id
  simpa only [List.nil_append] using ht.trans hu

end Recovery

section Crash

variable {lg : Log} {s : Bio} {new : ℕ → Block} {d d' : Disk}

/-- Losing power during a stretch of writes leaves the effect of some of the first ones. -/
theorem CrashDisk.exists_prefix {α : Type} {m : BioM α} {dev : ℕ} {ws : List (ℕ × Block)}
    (h : CrashDisk m s d)
    (hm : Stopped dev s (stateAfter m s) ws) :
    ∃ p, p <+: ws ∧ d (medium dev) = replay (s.disk (medium dev)) p := by
  obtain ⟨vs, ⟨q, rfl⟩, hq, rfl⟩ := h
  obtain ⟨_, p, hp, hwrites⟩ := hm
  rw [hwrites, List.prefix_append_right_inj] at hq
  obtain ⟨p', hp', rfl⟩ := List.prefix_map_iff.mp hq
  refine ⟨p', hp'.trans hp, ?_⟩
  rw [← Disk.replay_toWrites, disk, Disk.replay, List.foldl_append]
  rfl

/-- The phase of the disk with respect to the transaction that was being committed. -/
def Phase (lg : Log) (s : Bio) (new : ℕ → Block) (d : Disk) : Prop :=
  lg.redo.Recoverable (s.disk (medium lg.dev)) new lg.lh.block (d (medium lg.dev))

/-- The blocks of a transaction are not part of the log. -/
theorem Committable.not_inLog (h : Committable lg s new) : ∀ b ∈ lg.lh.block, ¬ lg.redo.InLog b :=
  fun b hb => (h.outside b hb).not_inLog h.area

/-- Every crash of a commit leaves the disk in one of the phases. -/
theorem Committable.phase_of_crash (h : Committable lg s new) (hd : CrashDisk (commit lg) s d) :
    Phase lg s new d := by
  obtain ⟨x, y, hstopped⟩ := (commit_stopped h.toLoaded).stateAfter
  obtain ⟨p, hp, hp'⟩ := hd.exists_prefix hstopped
  have hidle : lg.redo.Idle (s.disk (medium lg.dev)) (s.disk (medium lg.dev)) :=
    ⟨getHead_eq_nil.mpr h.empty, fun _ _ => rfl⟩
  have hhead : lg.redo.listed (putHead x lg.lh.block) = lg.lh.block := getHead_putHead lg.lh.fits h.word
  have hempty : lg.redo.listed (putHead y []) = [] := getHead_putHead_nil y
  rw [Phase, hp']
  exact hidle.through_commit h.room h.not_inLog hhead hempty p hp

section

variable (h : Committable lg s new) (hd : Phase lg s new d)

include h hd

/-- In every phase the header can be recovered from. -/
theorem Committable.headOk :
    HeadOk lg.rebooted (getHead (d.at (lg.dev, lg.start))) := by
  have hroom := h.room
  have harea := h.area
  have hempty : HeadOk lg.rebooted [] :=
    ⟨Nat.zero_le _, harea, by simp, by simp, h.area_exists⟩
  rcases hd with hidle | hcommitted | hidle
  · have hnil : getHead (d.at (lg.dev, lg.start)) = [] := hidle.empty
    rwa [hnil]
  · have hlisted : getHead (d.at (lg.dev, lg.start)) = lg.lh.block := hcommitted.listed
    rw [hlisted]
    exact ⟨lg.lh.fits, by change _ ≤ lg.size; omega, h.outside, h.home_exists, h.area_exists⟩
  · have hnil : getHead (d.at (lg.dev, lg.start)) = [] := hidle.empty
    rwa [hnil]

/-- Recovery from any phase returns, after making the writes of the redo log's recovery. -/
theorem Committable.recover_ends {r : Bio} (hr : Booted r d) :
    Ends (recoverFromLog lg.rebooted) r
      (fun _ t => ∃ y, Advances lg.dev r t (lg.redo.homeWrites (d (medium lg.dev)) 0
        (lg.redo.listed (d (medium lg.dev) lg.redo.header)) ++ [(lg.redo.header, putHead y [])]))
          fun _ => False :=
  @recoverFromLog_ends lg.rebooted r d hr h.dev (h.headOk hd)

/-- Every crash of a recovery leaves the disk in one of the phases. -/
theorem Committable.phase_of_recovery (hcrash : RecoveryCrash lg d d') : Phase lg s new d' := by
  obtain ⟨r, hr, hd'⟩ := hcrash
  obtain ⟨y, hadvances⟩ := ((h.recover_ends hd hr).mono (fun _ _ ht => ht) fun _ => False.elim).stateAfter
  obtain ⟨p, hp, hp'⟩ := hd'.exists_prefix hadvances.all_stopped
  have hempty : lg.redo.listed (putHead y []) = [] := getHead_putHead_nil y
  rw [hr.disk_eq] at hp'
  rw [Phase, hp']
  exact (hd.recovery h.room h.not_inLog hempty).1 p hp

/-- Any number of interrupted recoveries leaves the disk in one of the phases. -/
theorem Committable.phase_of_recoveries (hcrashes : Relation.ReflTransGen (RecoveryCrash lg) d d') :
    Phase lg s new d' := by
  induction hcrashes with
  | refl => exact hd
  | tail _ hcrash ih => exact h.phase_of_recovery ih hcrash

end

/-- The log survives power failures: after a crash at any block write of `commit`, and any
number of recoveries interrupted at any of their block writes, recovery returns with an
empty header and either none or all of the transaction's blocks in place. -/
theorem commit_crash_atomic (h : Committable lg s new) {d d' : Disk} (hcommit : CrashDisk (commit lg) s d)
    (hrecoveries : Relation.ReflTransGen (RecoveryCrash lg) d d') {r : Bio} (hr : Booted r d') :
    ∃ lg' t, recoverFromLog lg.rebooted r = .ok lg' t ∧ headCount (t.disk.at (lg.dev, lg.start)) = 0 ∧
      ((∀ b, lg.Outside b → t.disk.at (lg.dev, b) = s.disk.at (lg.dev, b)) ∨
        ∀ b, lg.Outside b →
          t.disk.at (lg.dev, b) = if b ∈ lg.lh.block then new b else s.disk.at (lg.dev, b)) := by
  have hphase := h.phase_of_recoveries (h.phase_of_crash hcommit) hrecoveries
  obtain ⟨lg', t, hrun, y, hadvances⟩ := (h.recover_ends hphase hr).returns
  have hempty : lg.redo.listed (putHead y []) = [] := getHead_putHead_nil y
  have hmedium := hadvances.medium_eq
  rw [hr.disk_eq] at hmedium
  have hrecovered := (hphase.recovery h.room h.not_inLog hempty).2
  rw [← hmedium] at hrecovered
  refine ⟨lg', t, hrun, ?_⟩
  rcases hrecovered with hidle | hidle
  · exact ⟨getHead_eq_nil.mp hidle.empty, Or.inl fun b hb => hidle.same b (hb.not_inLog h.area)⟩
  · exact ⟨getHead_eq_nil.mp hidle.empty, Or.inr fun b hb => hidle.same b (hb.not_inLog h.area)⟩

/-- A log of the root device about to commit one block. -/
def sampleLog : Log := ⟨2, 30, 0, true, rootDev, ⟨[46], by decide⟩⟩

/-- The cache with that block pinned, over a blank disk. -/
def sampleCache : Bio :=
  (binit fun _ _ _ => 0).setBuf 0 ⟨true, rootDev, 46, false, 1, fun _ => 5⟩

/-- The sample transaction is ready to commit. -/
theorem committable_sample : Committable sampleLog sampleCache fun _ _ => 5 := by
  have hholds : ∀ i k, k.1 ≠ 0 → sampleCache.Holds i k → i = 0 := by
    intro i k hk hi
    by_contra hne
    have hdev := hi.2.1
    simp only [sampleCache, Bio.setBuf, Function.update_of_ne hne] at hdev
    exact hk hdev.symm
  have hwf : sampleCache.Wf := by
    refine ⟨(wf_binit fun _ _ _ => 0).nodup, fun i j k hk hi hj => ?_, fun i _ hlocked => ?_⟩
    · rw [hholds i k hk hi, hholds j k hk hj]
    · by_cases hi : i = 0
      · simp [sampleCache, Bio.setBuf, hi] at hlocked
      · simp [sampleCache, Bio.setBuf, hi, binit] at hlocked
  have hslot : sampleCache.Holds 0 (rootDev, 46) := ⟨by decide, rfl, rfl⟩
  refine ⟨⟨hwf, by decide, by decide, ?_, by decide, by decide, ?_⟩, ?_, by decide, ?_, ?_⟩
  · intro b hb
    have : b = 46 := by simpa [sampleLog] using hb
    subst this
    exact Or.inr (by decide)
  · intro b hb
    have : b = 46 := by simpa [sampleLog] using hb
    subst this
    exact ⟨_, hwf.cell_of_holds (by decide) hslot, rfl, by decide, rfl⟩
  · change headCount (fun _ => 0) = 0
    simp [headCount]
  · intro b _ hb _
    simp only [sampleLog] at hb
    change b < 1500
    omega
  · intro b hb _
    have : b = 46 := by simpa [sampleLog] using hb
    subst this
    decide

/-- Power is lost right after the sample transaction's header write. -/
theorem commit_crash_atomic_sample :
    ∃ lg' t, recoverFromLog sampleLog.rebooted
        (binit (sampleCache.base.replay
          ((stateAfter (commit sampleLog) sampleCache).writes.take 2))) = .ok lg' t ∧
      headCount (t.disk.at (sampleLog.dev, sampleLog.start)) = 0 ∧
      ((∀ b, sampleLog.Outside b →
          t.disk.at (sampleLog.dev, b) = sampleCache.disk.at (sampleLog.dev, b)) ∨
        ∀ b, sampleLog.Outside b → t.disk.at (sampleLog.dev, b) =
          if b ∈ sampleLog.lh.block then fun _ => 5 else sampleCache.disk.at (sampleLog.dev, b)) :=
  commit_crash_atomic committable_sample ⟨_, List.nil_prefix, List.take_prefix 2 _, rfl⟩
    Relation.ReflTransGen.refl (booted_binit _)

end Crash

end Xv6
