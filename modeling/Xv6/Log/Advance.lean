import Xv6.Bio.Transfer
import Xv6.Lib.RedoLog

/-!
# Sequences of block moves

The log's loops write a known list of blocks to one device. `Advances` says what such a
stretch of code leaves behind: the writes it made, that the blocks it wrote agree with the
medium, and that pinned buffers it did not write are still there. It composes along the
program text. A stretch that stops early has made a prefix of its writes (`Stopped`).
-/

namespace Xv6

open Lib

/-- Block writes to one device. -/
def toWrites (dev : ℕ) (ws : List (ℕ × Block)) : List Write := ws.map fun w => ⟨dev, w.1, w.2⟩

/-- Writes to one device change its medium as a store of blocks. -/
theorem Disk.replay_toWrites (disk : Disk) (dev : ℕ) (ws : List (ℕ × Block)) :
    (disk.replay (toWrites dev ws)) (medium dev) = Lib.replay (disk (medium dev)) ws := by
  induction ws generalizing disk with
  | nil => rfl
  | cons w ws ih =>
    rw [replay_cons, toWrites]
    change ((disk.apply ⟨dev, w.1, w.2⟩).replay (toWrites dev ws)) (medium dev) = _
    rw [ih]
    congr 1
    funext b
    simp [Disk.apply, Function.update_apply]

namespace Bio

/-- A valid buffer of the block agrees with the medium. -/
def Synced (s : Bio) (k : Key) : Prop := ∀ x, s.cell k = some x → x.valid → x.data = s.disk.at k

/-- The block has a valid, unlocked, referenced buffer with these contents. -/
def PinnedAt (s : Bio) (k : Key) (data : Block) : Prop :=
  ∃ x, s.cell k = some x ∧ x.valid = true ∧ x.refcnt ≠ 0 ∧ x.data = data

/-- The writes `ws` to `dev` have been made. -/
structure Advances (dev : ℕ) (s t : Bio) (ws : List (ℕ × Block)) : Prop where
  wf : t.Wf
  base : t.base = s.base
  writes : t.writes = s.writes ++ toWrites dev ws
  idle : s.Idle → t.Idle
  synced : ∀ b, s.Synced (dev, b) → t.Synced (dev, b)
  written : ∀ w ∈ ws, t.Synced (dev, w.1)
  pinned : ∀ b data, b ∉ ws.map Prod.fst → s.PinnedAt (dev, b) data → t.PinnedAt (dev, b) data

/-- Only the first few of the writes `ws` have been made. -/
def Stopped (dev : ℕ) (s t : Bio) (ws : List (ℕ × Block)) : Prop :=
  t.base = s.base ∧ ∃ p, p <+: ws ∧ t.writes = s.writes ++ toWrites dev p

variable {dev : ℕ} {s t u : Bio} {k l : Key} {ws vs : List (ℕ × Block)}

/-- Readers of a synced block see the medium. -/
theorem Synced.view_eq (h : s.Synced k) : s.view k = s.disk.at k := by
  rw [view]
  cases hcell : s.cell k with
  | none => rfl
  | some x =>
    by_cases hvalid : x.valid
    · simp [h x hcell hvalid]
    · simp [hvalid]

variable {data : Block}

/-- A pinned block is clean, since it is referenced. -/
theorem PinnedAt.cleanAt (h : s.PinnedAt k data) : s.CleanAt k := by
  obtain ⟨x, hx, _, href, _⟩ := h
  intro y hy _ hzero
  rw [hx] at hy
  cases hy
  exact absurd hzero href

/-- Readers of a pinned block see its contents. -/
theorem PinnedAt.view_eq (h : s.PinnedAt k data) : s.view k = data := by
  obtain ⟨x, hx, hvalid, _, rfl⟩ := h
  exact view_of_cell hx hvalid

/-- A pinned block is referenced. -/
theorem PinnedAt.refs_ne (h : s.PinnedAt k data) : s.refs k ≠ 0 := by
  obtain ⟨x, hx, _, href, _⟩ := h
  rwa [refs_of_cell hx]

/-- The device's medium after a stretch of writes. -/
theorem Advances.medium_eq (h : Advances dev s t ws) :
    t.disk (medium dev) = replay (s.disk (medium dev)) ws := by
  rw [← Disk.replay_toWrites, disk, disk, h.base, h.writes, Disk.replay, List.foldl_append]
  rfl

/-- No writes. -/
theorem Advances.refl (hwf : s.Wf) : Advances dev s s [] :=
  ⟨hwf, rfl, by simp [toWrites], id, fun _ h => h, by simp, fun _ _ _ h => h⟩

/-- Two stretches in a row. -/
theorem Advances.trans (h : Advances dev s t ws) (h' : Advances dev t u vs) :
    Advances dev s u (ws ++ vs) where
  wf := h'.wf
  base := h'.base.trans h.base
  writes := by rw [h'.writes, h.writes, toWrites, toWrites, toWrites, List.map_append, List.append_assoc]
  idle := fun hs => h'.idle (h.idle hs)
  synced := fun b hb => h'.synced b (h.synced b hb)
  written := fun w hw => by
    rcases List.mem_append.mp hw with hw | hw
    · exact h'.synced w.1 (h.written w hw)
    · exact h'.written w hw
  pinned := fun b data hb hpin => by
    rw [List.map_append, List.mem_append, not_or] at hb
    exact h'.pinned b data hb.2 (h.pinned b data hb.1 hpin)

/-- Stopping in the first of two stretches. -/
theorem Stopped.append (h : Stopped dev s t ws) (vs : List (ℕ × Block)) : Stopped dev s t (ws ++ vs) := by
  obtain ⟨hbase, p, hp, hwrites⟩ := h
  exact ⟨hbase, p, hp.trans (List.prefix_append ws vs), hwrites⟩

/-- Stopping in the second of two stretches. -/
theorem Advances.stopped (h : Advances dev s t ws) (h' : Stopped dev t u vs) :
    Stopped dev s u (ws ++ vs) := by
  obtain ⟨hbase, p, hp, hwrites⟩ := h'
  refine ⟨hbase.trans h.base, ws ++ p, (List.prefix_append_right_inj ws).mpr hp, ?_⟩
  rw [hwrites, h.writes, toWrites, toWrites, toWrites, List.map_append, List.append_assoc]

/-- Stopping before the first write. -/
theorem Unwritten.stopped (h : s.Unwritten t) : Stopped dev s t ws :=
  ⟨h.2, [], List.nil_prefix, by rw [h.1]; simp [toWrites]⟩

/-- Stopping after the last write. -/
theorem Advances.all_stopped (h : Advances dev s t ws) : Stopped dev s t ws :=
  ⟨h.base, ws, List.prefix_rfl, h.writes⟩

/-- One write changes one block of the device. -/
theorem at_of_writes {b c : ℕ} (hbase : t.base = s.base) (hwrites : t.writes = s.writes ++ [⟨dev, c, data⟩]) :
    t.disk.at (dev, b) = if b = c then data else s.disk.at (dev, b) := by
  have hdisk : t.disk = s.disk.apply ⟨dev, c, data⟩ := by
    rw [disk, disk, hbase, hwrites, Disk.replay, List.foldl_append]
    rfl
  simp [hdisk, Disk.at, Disk.apply]

/-- Recycling keeps blocks in agreement with the medium. -/
theorem Kept.synced (h : Kept s t k) (hs : s.Synced k) (hdisk : t.disk.at k = s.disk.at k) : t.Synced k := by
  intro x hx hvalid
  rcases h with hcell | ⟨y, _, _, hnone⟩
  · rw [hdisk]
    exact hs x (hcell ▸ hx) hvalid
  · rw [hnone] at hx
    cases hx

/-- Recycling keeps pinned blocks. -/
theorem Kept.pinned (h : Kept s t k) (hs : s.PinnedAt k data) : t.PinnedAt k data := by
  obtain ⟨x, hx, hvalid, href, hdata⟩ := hs
  exact ⟨x, h.cell_eq hx href, hvalid, href, hdata⟩

/-- A stretch that writes one block and only recycles other buffers. -/
theorem Advances.single {c : ℕ} (hwf : t.Wf) (hbase : t.base = s.base)
    (hwrites : t.writes = s.writes ++ [⟨dev, c, data⟩]) (hidle : s.Idle → t.Idle)
    (hcell : ∃ x, t.cell (dev, c) = some x ∧ x.data = data)
    (hother : ∀ b, b ≠ c → s.Synced (dev, b) → t.Synced (dev, b))
    (hpinned : ∀ b d, b ≠ c → s.PinnedAt (dev, b) d → t.PinnedAt (dev, b) d) :
    Advances dev s t [(c, data)] := by
  have hsynced : t.Synced (dev, c) := by
    obtain ⟨x, hx, hdata⟩ := hcell
    intro y hy _
    rw [hx] at hy
    cases hy
    rw [hdata, at_of_writes hbase hwrites, if_pos rfl]
  refine ⟨hwf, hbase, hwrites, hidle, fun b hb => ?_, ?_, fun b d hb => hpinned b d (by simpa using hb)⟩
  · by_cases hbc : b = c
    · rwa [hbc]
    · exact hother b hbc hb
  · intro w hw
    rw [List.mem_singleton.mp hw]
    exact hsynced

/-- A move between two blocks of the device. -/
theorem Transferred.advances {b c drop : ℕ} (h : Transferred s t (dev, c) (dev, b) drop) (hdev : dev ≠ 0)
    (hne : b ≠ c) : Advances dev s t [(c, s.view (dev, b))] := by
  have hkey : ∀ {a a' : ℕ}, a ≠ a' → ((dev, a) : Key) ≠ (dev, a') := fun h h' => h (Prod.ext_iff.mp h').2
  have hat : ∀ a, a ≠ c → t.disk.at (dev, a) = s.disk.at (dev, a) := by
    intro a ha
    rw [at_of_writes h.base h.writes, if_neg ha]
  refine Advances.single h.wf h.base h.writes h.idle ⟨_, h.dst, rfl⟩ (fun a ha hs => ?_) fun a d ha hs => ?_
  · by_cases hab : a = b
    · subst hab
      intro x hx _
      rw [h.src] at hx
      cases hx
      rw [hat a ha]
      exact hs.view_eq
    · exact (h.other _ hdev (hkey ha) (hkey hab)).synced hs (hat a ha)
  · by_cases hab : a = b
    · subst hab
      exact ⟨_, h.src, rfl, hs.refs_ne, hs.view_eq⟩
    · exact (h.other _ hdev (hkey ha) (hkey hab)).pinned hs

/-- Reading a block and releasing it changes nothing of interest. -/
theorem ReadBy.advances {i : ℕ} (h : s.ReadBy k i t) (hwf : s.Wf) (hk : k.1 ≠ 0) :
    Advances k.1 s (t.released i) [] := by
  have hrel := (h.wf hwf hk).alters_released h.holds
  rw [h.buf_self] at hrel
  have hcell := hrel.cell_self hk h.holds
  have hdisk : (t.released i).disk = s.disk := by
    rw [disk, (released_unwritten t i).1, (released_unwritten t i).2]
    exact h.disk_eq
  have hkept : ∀ b, b ≠ k.2 → Kept s (t.released i) (k.1, b) := by
    intro b hb
    have hne : ((k.1, b) : Key) ≠ k := fun h => hb (Prod.ext_iff.mp h).2
    refine (h.kept (l := (k.1, b)) hwf hk hk hne).trans (Kept.of_eq ?_)
    exact hrel.cell_of_ne (l := (k.1, b)) (h.wf hwf hk) hk h.holds hne
  refine ⟨hrel.wf, ?_, ?_, fun hidle => ⟨?_, fun n hn => ?_⟩, fun b hb => ?_, by simp, fun b d _ hd => ?_⟩
  · rw [(released_unwritten t i).2, h.unwritten.2]
  · rw [(released_unwritten t i).1, h.unwritten.1]
    simp [toWrites]
  · rw [hrel.perm.length_eq, h.lru_eq]
    exact hidle.two
  · by_cases hni : n = i
    · rw [hni, hrel.self]
      exact hidle.refs_eq
    · rw [hrel.other n hni, h.buf_of_ne hni]
      exact hidle.free n (h.lru_eq ▸ hrel.perm.mem_iff.mp hn)
  · by_cases hbk : b = k.2
    · subst hbk
      intro x hx _
      rw [hcell] at hx
      cases hx
      rw [hdisk]
      exact hb.view_eq
    · exact (hkept b hbk).synced hb (by rw [hdisk])
  · by_cases hbk : b = k.2
    · subst hbk
      exact ⟨_, hcell, rfl, hd.refs_ne, hd.view_eq⟩
    · exact (hkept b hbk).pinned hd

/-- Replacing the contents of a block in place. -/
theorem rewrite_ends (hwf : s.Wf) (hk : k.1 ≠ 0) (f : Block → Block) :
    Ends (do
      let i ← bread k.1 k.2
      setData i (f ((← get).buf i).data)
      bwrite i
      brelse i) s (fun _ t => Advances k.1 s t [(k.2, f (s.view k))])
      fun t => s.Unwritten t ∧ ¬ (s.Idle ∧ OnMedium k) := by
  refine ends_bind ((bread_ends hwf hk).mono (fun i t hi => ?_) fun t ht =>
    ⟨ht.1, fun hok => ht.2 (hok.1.serves hwf hok.2)⟩)
  let y : Buf := ⟨true, k.1, k.2, true, s.refs k + 1, f (s.view k)⟩
  let u : Bio := ⟨t.base, t.writes ++ [⟨k.1, k.2, f (s.view k)⟩], Function.update t.buf i y, t.lru⟩
  by_cases hrange : medium k.1 = .ramdisk ∧ fsSize ≤ k.2
  · refine (ends_error (e := .panic "ramdiskrw: blockno too big") (t := t.setBuf i y) ?_).mpr
      ⟨hi.unwritten, fun hok => absurd (hok.2 hrange.1) (Nat.not_lt.mpr hrange.2)⟩
    simp [setData, hi.buf_self, bwrite_eq, Bio.setBuf, hrange, y]
  · refine (ends_ok (a := ()) (t := u.released i) ?_).mpr ?_
    · simp [setData, hi.buf_self, bwrite_eq, brelse_eq, Bio.setBuf, hrange, u, y]
    · have hset : Alters t u i y :=
        (hi.wf hwf hk).alters hi.holds rfl rfl (fun _ => Nat.succ_ne_zero _) rfl (List.Perm.refl _)
      have hheld := (hset.holds i k).mpr hi.holds
      have hrel := hset.wf.alters_released hheld
      have hkept : ∀ b, b ≠ k.2 → Kept s (u.released i) (k.1, b) := by
        intro b hb
        have hne : ((k.1, b) : Key) ≠ k := fun h => hb (Prod.ext_iff.mp h).2
        refine (hi.kept (l := (k.1, b)) hwf hk hk hne).trans (Kept.of_eq ?_)
        rw [hrel.cell_of_ne (l := (k.1, b)) hset.wf hk hheld hne,
          hset.cell_of_ne (l := (k.1, b)) (hi.wf hwf hk) hk hi.holds hne]
      have hwrites : (u.released i).writes = s.writes ++ [⟨k.1, k.2, f (s.view k)⟩] := by
        rw [(released_unwritten u i).1, ← hi.unwritten.1]
      have hbase : (u.released i).base = s.base := by rw [(released_unwritten u i).2, ← hi.unwritten.2]
      refine Advances.single hrel.wf hbase hwrites (fun hidle => ?_) ⟨_, hrel.cell_self hk hheld, ?_⟩
        (fun b hb hs => ?_) fun b d hb hs => (hkept b hb).pinned hs
      · have hperm := hrel.perm.trans hset.perm
        refine ⟨by rw [hperm.length_eq, hi.lru_eq]; exact hidle.two, fun n hn => ?_⟩
        by_cases hni : n = i
        · rw [hni, hrel.self, hset.self]
          exact hidle.refs_eq
        · rw [hrel.other n hni, hset.other n hni, hi.buf_of_ne hni]
          exact hidle.free n (hi.lru_eq ▸ hperm.mem_iff.mp hn)
      · rw [hset.self]
      · exact (hkept b hb).synced hs (by rw [at_of_writes hbase hwrites, if_neg hb])

end Bio

end Xv6
