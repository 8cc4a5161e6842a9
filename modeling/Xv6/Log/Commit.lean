import Xv6.Log.Advance
import Xv6.Log.Head

/-!
# The block writes of commit and recovery

`kernel/log.c` as an instance of the redo log: the loops of `write_log` and
`install_trans` make exactly the slot and home writes of the abstract log, and a call that
stops early has made a prefix of them.
-/

namespace Xv6

open Lib Bio

/-- The log area of a device: the header block, then one slot per entry. -/
def Log.redo (lg : Log) : RedoLog ℕ Block where
  header := lg.start
  slot := fun i => lg.start + i + 1
  slots := lg.size - 1
  listed := getHead
  slot_ne_header := fun i _ => by omega
  slot_inj := fun i j _ _ h => by omega

/-- The block lies outside the log area. -/
def Log.Outside (lg : Log) (b : ℕ) : Prop := b < lg.start ∨ lg.start + lg.size ≤ b

variable {lg : Log} {s t : Bio} {bs : List ℕ} {tail : ℕ} {b : ℕ}

/-- Blocks outside the log area are not addresses of the abstract log. -/
theorem Log.Outside.not_inLog (hsize : 0 < lg.size) (h : lg.Outside b) : ¬ lg.redo.InLog b := by
  rintro (hheader | ⟨i, hi, hslot⟩)
  · simp only [Log.redo] at hheader
    rcases h with h | h <;> omega
  · simp only [Log.redo] at hi hslot
    rcases h with h | h <;> omega

/-- Blocks outside the log area are not slots. -/
theorem Log.Outside.ne_slot {i : ℕ} (h : lg.Outside b) (hi : i + 1 < lg.size) : b ≠ lg.start + i + 1 := by
  rcases h with h | h <;> omega

/-- An iteration of `write_log` moves one home block to its slot. -/
theorem writeLogFrom_cons (lg : Log) (tail b : ℕ) (rest : List ℕ) :
    writeLogFrom lg tail (b :: rest) = (do
      let i ← bread lg.dev (lg.start + tail + 1)
      let j ← bread lg.dev b
      transfer i j false) >>= fun _ => writeLogFrom lg (tail + 1) rest := by
  simp [writeLogFrom, transfer]

/-- An iteration of `install_trans` moves one slot to its home block. -/
theorem installTransFrom_cons (lg : Log) (recovering : Bool) (tail b : ℕ) (rest : List ℕ) :
    installTransFrom lg recovering tail (b :: rest) = (do
      let j ← bread lg.dev (lg.start + tail + 1)
      let i ← bread lg.dev b
      transfer i j (!recovering)) >>= fun _ => installTransFrom lg recovering (tail + 1) rest := by
  cases recovering <;> simp [installTransFrom, transfer]

/-- `install_trans` reads the location of the log, not its header. -/
theorem installTransFrom_setHead (lg : Log) (h : LogHeader) (recovering : Bool) (tail : ℕ) (bs : List ℕ) :
    installTransFrom { lg with lh := h } recovering tail bs = installTransFrom lg recovering tail bs := by
  induction bs generalizing tail with
  | nil => rfl
  | cons b rest ih => rw [installTransFrom, installTransFrom, ih]

variable {new : ℕ → Block}

/-- `write_log` makes the slot writes of the pinned home blocks. -/
theorem writeLogFrom_ends (hwf : s.Wf) (hdev : lg.dev ≠ 0)
    (hroom : tail + bs.length + 1 ≤ lg.size) (hout : ∀ b ∈ bs, lg.Outside b)
    (hpin : ∀ b ∈ bs, s.PinnedAt (lg.dev, b) (new b)) :
    Ends (writeLogFrom lg tail bs) s
      (fun _ t => Advances lg.dev s t (lg.redo.slotWrites new tail bs))
      fun t => Stopped lg.dev s t (lg.redo.slotWrites new tail bs) := by
  induction bs generalizing s tail with
  | nil => exact ends_pure (Advances.refl hwf)
  | cons b rest ih =>
    rw [List.length_cons] at hroom
    have hb := hpin b List.mem_cons_self
    have hslot := (hout b List.mem_cons_self).ne_slot (i := tail) (by omega)
    have hkey : ((lg.dev, b) : Key) ≠ (lg.dev, lg.start + tail + 1) := fun h => hslot (Prod.ext_iff.mp h).2
    rw [writeLogFrom_cons]
    refine ends_bind ((move_dst_src_ends (k := (lg.dev, lg.start + tail + 1)) (l := (lg.dev, b)) hwf hdev hdev
      hkey hb.cleanAt).mono (fun _ t ht => ?_) fun t ht => ht.1.stopped)
    have hstep := ht.advances hdev hslot
    rw [hb.view_eq] at hstep
    have hrest : ∀ c ∈ rest, t.PinnedAt (lg.dev, c) (new c) := by
      intro c hc
      refine hstep.pinned c _ ?_ (hpin c (List.mem_cons_of_mem b hc))
      simpa using (hout c (List.mem_cons_of_mem b hc)).ne_slot (i := tail) (by omega)
    exact (ih hstep.wf (by omega) (fun c hc => hout c (List.mem_cons_of_mem b hc)) hrest).mono
      (fun _ u hu => hstep.trans hu) fun u hu => hstep.stopped hu

/-- The home writes depend on the slots of the entries only. -/
theorem homeWrites_congr {L : RedoLog ℕ Block} {d e : ℕ → Block}
    (h : ∀ i, tail ≤ i → i < tail + bs.length → d (L.slot i) = e (L.slot i)) :
    L.homeWrites d tail bs = L.homeWrites e tail bs := by
  induction bs generalizing tail with
  | nil => rfl
  | cons b rest ih =>
    rw [List.length_cons] at h
    rw [RedoLog.homeWrites, RedoLog.homeWrites, h tail le_rfl (by omega),
      ih fun i hlo hhi => h i (by omega) (by omega)]

/-- `install_trans` makes the home writes of the slots on the medium; with an idle cache it
completes. -/
theorem installTransFrom_ends {recovering : Bool} (hwf : s.Wf) (hdev : lg.dev ≠ 0)
    (hroom : tail + bs.length + 1 ≤ lg.size) (hout : ∀ b ∈ bs, lg.Outside b)
    (hslots : ∀ i, tail ≤ i → i < tail + bs.length → s.Synced (lg.dev, lg.start + i + 1))
    (hpin : recovering = false → bs.Nodup ∧ ∀ b ∈ bs, ∃ data, s.PinnedAt (lg.dev, b) data) :
    Ends (installTransFrom lg recovering tail bs) s
      (fun _ t => Advances lg.dev s t (lg.redo.homeWrites (s.disk (medium lg.dev)) tail bs))
      fun t => Stopped lg.dev s t (lg.redo.homeWrites (s.disk (medium lg.dev)) tail bs) ∧
        ¬ (s.Idle ∧ (∀ b ∈ bs, OnMedium (lg.dev, b)) ∧
          ∀ i, i + 1 < lg.size → OnMedium (lg.dev, lg.start + i + 1)) := by
  induction bs generalizing s tail with
  | nil => exact ends_pure (Advances.refl hwf)
  | cons b rest ih =>
    rw [List.length_cons] at hroom hslots
    have hslot := (hout b List.mem_cons_self).ne_slot (i := tail) (by omega)
    have hkey : ((lg.dev, lg.start + tail + 1) : Key) ≠ (lg.dev, b) :=
      fun h => hslot (Prod.ext_iff.mp h).2.symm
    have hdrop : (if (!recovering) = true then 1 else 0) ≤ s.refs (lg.dev, b) := by
      cases recovering with
      | true => simp
      | false =>
        obtain ⟨data, hdata⟩ := (hpin rfl).2 b List.mem_cons_self
        simpa using Nat.one_le_iff_ne_zero.mpr hdata.refs_ne
    rw [installTransFrom_cons]
    refine ends_bind ((move_src_dst_ends (k := (lg.dev, b)) (l := (lg.dev, lg.start + tail + 1)) hwf hdev hdev
      hkey (!recovering) hdrop).mono (fun _ t ht => ?_) fun t ht => ⟨ht.1.stopped, fun hok => ht.2 ?_⟩)
    · have hstep := ht.advances hdev hslot.symm
      rw [(hslots tail le_rfl (by omega)).view_eq] at hstep
      have hcongr : lg.redo.homeWrites (t.disk (medium lg.dev)) (tail + 1) rest =
          lg.redo.homeWrites (s.disk (medium lg.dev)) (tail + 1) rest := by
        refine homeWrites_congr fun i hlo hhi => ?_
        rw [hstep.medium_eq]
        exact Function.update_of_ne ((hout b List.mem_cons_self).ne_slot (i := i) (by omega)).symm _ _
      have hroom' : tail + 1 + rest.length + 1 ≤ lg.size := by omega
      have hnext := ih hstep.wf hroom' (fun c hc => hout c (List.mem_cons_of_mem b hc))
        (fun i hlo hhi => hstep.synced _ (hslots i (by omega) (by omega))) fun hrec => by
          obtain ⟨hnodup, hpins⟩ := hpin hrec
          refine ⟨(List.nodup_cons.mp hnodup).2, fun c hc => ?_⟩
          obtain ⟨data, hdata⟩ := hpins c (List.mem_cons_of_mem b hc)
          have hcb : c ≠ b := fun h => (List.nodup_cons.mp hnodup).1 (h ▸ hc)
          exact ⟨data, hstep.pinned c data (by simpa using hcb) hdata⟩
      rw [hcongr] at hnext
      refine hnext.mono (fun _ u hu => hstep.trans hu) fun u hu => ⟨hstep.stopped hu.1, fun hok => hu.2 ?_⟩
      exact ⟨hstep.idle hok.1, fun c hc => hok.2.1 c (List.mem_cons_of_mem b hc), hok.2.2⟩
    · exact ⟨hok.1, hok.2.1 b List.mem_cons_self, hok.2.2 tail (by omega)⟩

/-- `write_head` writes the header block. -/
theorem writeHead_ends (hwf : s.Wf) (hdev : lg.dev ≠ 0) (h : LogHeader) :
    Ends (writeHead { lg with lh := h }) s
      (fun _ t => Advances lg.dev s t [(lg.start, putHead (s.view (lg.dev, lg.start)) h.block)])
      fun t => s.Unwritten t ∧ ¬ (s.Idle ∧ OnMedium (lg.dev, lg.start)) :=
  rewrite_ends (k := (lg.dev, lg.start)) hwf hdev fun data => putHead data h.block

/-- The block writes of a commit whose two header writes store `head` and `empty`. -/
def commitWrites (lg : Log) (new : ℕ → Block) (head empty : Block) : List (ℕ × Block) :=
  lg.redo.slotWrites new 0 lg.lh.block ++ [(lg.start, head)] ++
    (lg.lh.block.map fun b => (b, new b)) ++ [(lg.start, empty)]

variable {head : Block} {empty : Block}

/-- A commit copies every entry to its slot. -/
theorem slot_mem_commitWrites {i : ℕ}
    (h : lg.lh.block[i]? = some b) : (lg.start + i + 1, new b) ∈ commitWrites lg new head empty := by
  have hslot : (lg.redo.slot (0 + i), new b) ∈ lg.redo.slotWrites new 0 lg.lh.block :=
    RedoLog.slot_mem_slotWrites h
  rw [Nat.zero_add] at hslot
  exact List.mem_append_left _ (List.mem_append_left _ (List.mem_append_left _ hslot))

/-- The blocks named by the in-memory header are distinct, lie outside the log area, fit the log
and are pinned in the cache with their new contents. -/
structure Loaded (lg : Log) (s : Bio) (new : ℕ → Block) : Prop where
  wf : s.Wf
  dev : lg.dev ≠ 0
  nodup : lg.lh.block.Nodup
  outside : ∀ b ∈ lg.lh.block, lg.Outside b
  room : lg.lh.block.length ≤ lg.size - 1
  area : 0 < lg.size
  pinned : ∀ b ∈ lg.lh.block, s.PinnedAt (lg.dev, b) (new b)

section Commit

variable {lg : Log} {s t : Bio} {new : ℕ → Block}

section

variable (h : Loaded lg s new)
  (ht : Advances lg.dev s t (lg.redo.slotWrites new 0 lg.lh.block ++ [(lg.start, head)]))

include h ht

/-- Once `write_log` and `write_head` are through, the slots hold the transaction. -/
theorem Loaded.logged :
    ∀ i b, lg.lh.block[i]? = some b → t.disk (medium lg.dev) (lg.redo.slot (0 + i)) = new b := by
  intro i b hb
  have hroom : 0 + lg.lh.block.length ≤ lg.redo.slots := by
    rw [Nat.zero_add]
    exact h.room
  have hne : lg.redo.slot (0 + i) ≠ lg.start := by
    simp only [Log.redo]
    omega
  rw [ht.medium_eq, replay_append, replay_cons, replay_nil, Function.update_of_ne hne]
  exact RedoLog.replay_slotWrites hroom i b hb

omit h in
/-- Once `write_log` and `write_head` are through, the slots agree with the medium. -/
theorem Loaded.slots_synced :
    ∀ i, 0 ≤ i → i < 0 + lg.lh.block.length → t.Synced (lg.dev, lg.start + i + 1) := by
  intro i _ hi
  have hentry := List.getElem?_eq_getElem (l := lg.lh.block) (i := i) (by omega)
  have hsynced := ht.written _ (List.mem_append_left _ (RedoLog.slot_mem_slotWrites hentry))
  rwa [Nat.zero_add] at hsynced

/-- The home blocks stay pinned until they are installed. -/
theorem Loaded.still_pinned :
    ∀ b ∈ lg.lh.block, ∃ data, t.PinnedAt (lg.dev, b) data := by
  intro b hb
  refine ⟨new b, ht.pinned b _ ?_ (h.pinned b hb)⟩
  rw [List.map_append, List.mem_append]
  rintro (hmem | hmem)
  · obtain ⟨w, hw, hwb⟩ := List.mem_map.mp hmem
    obtain ⟨i, _, hi, hslot⟩ := RedoLog.mem_slotWrites hw
    have := h.room
    exact (h.outside b hb).ne_slot (i := i) (by omega) (hwb.symm.trans hslot)
  · have hstart : b = lg.start := by simpa using hmem
    have := h.area
    rcases h.outside b hb with hlt | hge <;> omega

end

/-- `commit` makes the writes of the redo log, in order; it may stop early. -/
theorem commit_ends (h : Loaded lg s new) :
    Ends (commit lg) s
      (fun _ t => lg.lh.block = [] ∧ t = s ∨
        ∃ x y, Advances lg.dev s t (commitWrites lg new (putHead x lg.lh.block) (putHead y [])))
      fun t => ∃ x y, Stopped lg.dev s t (commitWrites lg new (putHead x lg.lh.block) (putHead y [])) := by
  have hroom := h.room
  unfold commit commitWrites
  split
  · refine ends_bind ((writeLogFrom_ends h.wf h.dev (by omega) h.outside h.pinned).mono (fun _ t ht => ?_)
      fun t ht => ⟨fun _ => 0, fun _ => 0, ((ht.append _).append _).append _⟩)
    refine ends_bind ((writeHead_ends ht.wf h.dev lg.lh).mono (fun _ u hu => ?_) fun u hu =>
      ⟨fun _ => 0, fun _ => 0, ((ht.stopped hu.1.stopped).append _).append _⟩)
    have hlogged := ht.trans hu
    refine ends_bind ((installTransFrom_ends hu.wf h.dev (by omega) h.outside (Loaded.slots_synced hlogged)
      fun _ => ⟨h.nodup, h.still_pinned hlogged⟩).mono (fun _ v hv => ?_) fun v hv => ?_)
    · rw [RedoLog.homeWrites_eq (h.logged hlogged)] at hv
      have hinstalled := hlogged.trans hv
      refine ends_bind ((writeHead_ends hv.wf h.dev .empty).mono (fun _ w hw => ends_pure ?_) fun w hw => ?_)
      · exact Or.inr ⟨_, _, hinstalled.trans hw⟩
      · exact ⟨_, fun _ => 0, hinstalled.stopped hw.1.stopped⟩
    · rw [RedoLog.homeWrites_eq (h.logged hlogged)] at hv
      exact ⟨_, fun _ => 0, (hlogged.stopped hv.1).append _⟩
  · exact ends_pure (Or.inl ⟨List.length_eq_zero_iff.mp (by omega), rfl⟩)

/-- Whether it returns or halts, `commit` has made the first few of its writes. -/
theorem commit_stopped (h : Loaded lg s new) :
    Ends (commit lg) s
      (fun _ t => ∃ x y, Stopped lg.dev s t (commitWrites lg new (putHead x lg.lh.block) (putHead y [])))
      fun t => ∃ x y, Stopped lg.dev s t (commitWrites lg new (putHead x lg.lh.block) (putHead y [])) := by
  refine (commit_ends h).mono (fun _ t ht => ?_) fun t ht => ht
  rcases ht with ⟨_, rfl⟩ | ⟨x, y, ht⟩
  · exact ⟨fun _ => 0, fun _ => 0, Unwritten.stopped ⟨rfl, rfl⟩⟩
  · exact ⟨x, y, ht.all_stopped⟩

end Commit

end Xv6
