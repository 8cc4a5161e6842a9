import Xv6.Log.Commit
import Xv6.Log.Mount
import Xv6.Log.Ops

/-!
# Logged blocks and their devices

`commit` reads and installs every entry of the header on `log.dev`. A block passed to
`log_write` is therefore written back to its own device exactly while the log still
points at that device: operations have to stay on the device mounted last, and a mount
must not find entries in the header, since recovering the new device's log drops them.
-/

namespace Xv6

open Lib Bio

variable {lg : Log} {s t : Bio} {k : Key}

/-- A locked buffer's block cannot be read again. -/
theorem not_readBy_of_locked {i j : ℕ} {u : Bio} (hwf : t.Wf) (hk : k.1 ≠ 0) (hi : t.Holds i k)
    (hlocked : (t.buf i).locked = true) : ¬ t.ReadBy k j u := by
  intro hread
  rcases hread.origin with hj | ⟨hnone, _⟩
  · have hunlocked := hread.unlocked
    rw [hwf.unique j i k hk hj hi, hlocked] at hunlocked
    cases hunlocked
  · exact hnone i hi

/-- `install_trans` keeps the cache well formed, whatever the header lists. -/
theorem installTransFrom_wf {tail : ℕ} {bs : List ℕ} (hwf : s.Wf) (hdev : lg.dev ≠ 0) :
    Ends (installTransFrom lg true tail bs) s (fun _ t => t.Wf) fun _ => True := by
  induction bs generalizing s tail with
  | nil => exact ends_pure hwf
  | cons b rest ih =>
    rw [installTransFrom_cons]
    refine ends_bind ?_
    by_cases hslot : b = lg.start + tail + 1
    · -- The slot is its own home: the second `bread` waits for the first.
      subst hslot
      refine ends_bind ((bread_ends (k := (lg.dev, lg.start + tail + 1)) hwf hdev).mono (fun i t hi => ?_)
        fun _ _ => True.intro)
      refine ends_bind ((bread_ends (k := (lg.dev, lg.start + tail + 1)) (hi.wf hwf hdev) hdev).mono
        (fun j u hj => ?_) fun _ _ => True.intro)
      exact absurd hj (not_readBy_of_locked (hi.wf hwf hdev) hdev hi.holds (by rw [hi.buf_self]))
    · have hkey : ((lg.dev, lg.start + tail + 1) : Key) ≠ (lg.dev, b) :=
        fun h => hslot (Prod.ext_iff.mp h).2.symm
      exact (move_src_dst_ends (k := (lg.dev, b))
        (l := (lg.dev, lg.start + tail + 1)) hwf hdev hdev hkey false
        (Nat.zero_le _)).mono (fun _ t ht => ih ht.wf) fun _ _ => True.intro

/-- `read_head` changes the header only. -/
theorem readHead_wf (hwf : s.Wf) (hdev : lg.dev ≠ 0) :
    Ends (readHead lg) s (fun lg' t => (∃ h, lg' = { lg with lh := h }) ∧ t.Wf) fun _ => True := by
  refine ends_bind ((bread_ends (k := (lg.dev, lg.start)) hwf hdev).mono (fun i t hi => ?_)
    fun _ _ => True.intro)
  have hrel := (hi.advances hwf hdev).wf
  by_cases hfits : (getHead (s.view (lg.dev, lg.start))).length ≤ logSize
  · simpa [Ends, hi.buf_self, hfits, brelse_eq] using hrel
  · simp [Ends, hi.buf_self, hfits]

/-- Recovery keeps the cache well formed and empties the header. -/
theorem recoverFromLog_wf (hwf : s.Wf) (hdev : lg.dev ≠ 0) :
    Ends (recoverFromLog lg) s (fun lg' t => lg' = { lg with lh := .empty } ∧ t.Wf) fun _ => True := by
  refine ends_bind ((readHead_wf hwf hdev).mono ?_ fun _ _ => True.intro)
  rintro _ t ⟨⟨h, rfl⟩, ht⟩
  rw [installTrans, installTransFrom_setHead]
  refine ends_bind ((installTransFrom_wf ht hdev).mono (fun _ u hu => ?_) fun _ _ => True.intro)
  exact ends_bind ((writeHead_ends hu hdev .empty).mono (fun _ v hv => ends_pure ⟨rfl, hv.wf⟩)
    fun _ _ => True.intro)

/-- Reading a block and releasing it keeps all pinned blocks. -/
theorem released_pinned {i : ℕ} {l : Key} {data : Block} (hi : s.ReadBy k i t) (hwf : s.Wf) (hk : k.1 ≠ 0)
    (hl : l.1 ≠ 0) (hpin : s.PinnedAt l data) : (t.released i).PinnedAt l data := by
  by_cases hlk : l = k
  · subst hlk
    exact (hi.advances hwf hk).pinned l.2 data (by simp) hpin
  · have hrel := (hi.wf hwf hk).alters_released hi.holds
    refine ((hi.kept hwf hk hl hlk).trans (Kept.of_eq ?_)).pinned hpin
    exact hrel.cell_of_ne (hi.wf hwf hk) hl hi.holds hlk

/-- `s5_readsb` keeps the cache well formed and all pinned blocks. -/
theorem readSb_wf {used dev : ℕ} (hwf : s.Wf) (hdev : dev ≠ 0) :
    Ends (readSb used dev) s
      (fun _ t => t.Wf ∧ ∀ l data, l.1 ≠ 0 → s.PinnedAt l data → t.PinnedAt l data) fun _ => True := by
  refine ends_bind ((bread_ends (k := (dev, 1)) hwf hdev).mono (fun i t hi => ?_) fun _ _ => True.intro)
  refine ends_ite (fun _ => ends_throw True.intro) fun _ => ends_get (ends_bind ?_)
  refine (brelse_ends (by rw [hi.buf_self])).mono (fun _ u hu => ?_) fun _ h => h
  have hrel : u.Wf ∧ ∀ l data, l.1 ≠ 0 → s.PinnedAt l data → u.PinnedAt l data := by
    subst hu
    exact ⟨(hi.advances hwf hdev).wf, fun l data hl => released_pinned hi hwf hdev hl⟩
  exact ends_ite (fun _ => ends_throw True.intro) fun _ =>
    ends_ite (fun _ => ends_throw True.intro) fun _ => ends_pure hrel

/-- `initlog` keeps the cache well formed and leaves an empty log of the device. -/
theorem initlog_wf {used dev : ℕ} (hwf : s.Wf) (hdev : dev ≠ 0) :
    Ends (initlog lg used dev) s (fun lg' t => (lg'.dev = dev ∧ lg'.lh = .empty) ∧ t.Wf) fun _ => True := by
  refine ends_bind ((readSb_wf hwf hdev).mono (fun sb t ht => ?_) fun _ _ => True.intro)
  refine (recoverFromLog_wf ht.1 hdev).mono ?_ fun _ _ => True.intro
  rintro _ u ⟨rfl, hu⟩
  exact ⟨⟨rfl, rfl⟩, hu⟩

variable {change : Block → Block}

/-- A transaction's change of one block: the block stays pinned with its new contents. -/
theorem writeBlock_ends (hwf : s.Wf) (hk : k.1 ≠ 0) :
    Ends (writeBlock lg k.1 k.2 change) s
      (fun lg' t => ∃ r, recordBlock lg k.2 = .ok r ∧ lg' = r.1 ∧ t.Wf ∧
        (∃ x, t.cell k = some x ∧ x.valid = true ∧ x.refcnt = s.refs k + (if r.2 then 1 else 0) ∧
          x.data = change (s.view k)) ∧
        ∀ l, l.1 ≠ 0 → l ≠ k → Kept s t l) fun _ => True := by
  refine ends_bind ((bread_ends hwf hk).mono (fun i t hi => ?_) fun _ _ => True.intro)
  cases hr : recordBlock lg k.2 with
  | error e => simp [Ends, setData, logWrite, Bio.setBuf, hi.buf_self, hr]
  | ok r =>
    -- Before the release the buffer holds the new contents, with one more reference if pinned.
    let z : Buf := ⟨true, k.1, k.2, true, s.refs k + 1 + (if r.2 then 1 else 0), change (s.view k)⟩
    have hset : Alters t (t.setBuf i z) i z :=
      (hi.wf hwf hk).alters hi.holds rfl rfl (fun _ => by simp [z]) rfl (List.Perm.refl _)
    have hheld := (hset.holds i k).mpr hi.holds
    have hrel := hset.wf.alters_released hheld
    have hrun : (do
        setData i (change ((← get).buf i).data)
        let lg ← logWrite lg i
        brelse i
        return lg : BioM Log) t = .ok r.1 ((t.setBuf i z).released i) := by
      obtain ⟨lg', pinned⟩ := r
      cases pinned <;>
        simp [setData, logWrite, bpin, Bio.setBuf, hi.buf_self, hr, brelse_eq, z]
    refine (ends_ok hrun).mpr ⟨r, rfl, rfl, hrel.wf, ⟨_, hrel.cell_self hk hheld, ?_⟩, fun l hl hne => ?_⟩
    · rw [hset.self]
      refine ⟨rfl, ?_, rfl⟩
      change s.refs k + 1 + _ - 1 = _
      omega
    · refine (hi.kept hwf hk hl hne).trans (Kept.of_eq ?_)
      rw [hrel.cell_of_ne hset.wf hl hheld hne, hset.cell_of_ne (hi.wf hwf hk) hl hi.holds hne]

namespace MountSys

/-- Blocks with equal numbers on different devices are not pending together, and a commit would
copy every pending block to its log slot and back to the block it was read from. -/
def Faithful (s : MountSys × Bio) : Prop :=
  (∀ k ∈ s.1.logged, ∀ l ∈ s.1.logged, k.2 = l.2 → k.1 = l.1) ∧
    ∀ k ∈ s.1.logged, ∀ lg t, commit s.1.log s.2 = .ok lg t →
      (∃ i, s.1.log.lh.block[i]? = some k.2 ∧
        Write.mk s.1.log.dev (s.1.log.start + i + 1) (s.2.view k) ∈ t.writes.drop s.2.writes.length) ∧
      Write.mk k.1 k.2 (s.2.view k) ∈ t.writes.drop s.2.writes.length

/-- Operations stay on the device of the log, and a mount that succeeds finds the header empty. -/
def Steady (s : MountSys) : MountAction → Prop
  | .mount dev ip => mountScan dev ip s.mtable = none ∨ s.log.lh.block = []
  | .write dev _ _ => dev = s.log.dev
  | .beginOp => True
  | .endOp => True

/-- A step under this condition. -/
def SteadyStep (s : MountSys × Bio) (a : MountAction) (t : MountSys × Bio) : Prop :=
  Step s a t ∧ s.1.Steady a

/-- All pending blocks are blocks of the log's device with a pinned buffer. -/
structure Inv (s : MountSys × Bio) : Prop where
  wf : s.2.Wf
  dev : s.1.log.dev ≠ 0
  keys : ∀ k ∈ s.1.logged, k.1 = s.1.log.dev ∧ k.2 ∈ s.1.log.lh.block
  nodup : s.1.log.lh.block.Nodup
  outside : ∀ b ∈ s.1.log.lh.block, s.1.log.Outside b
  room : s.1.log.lh.block ≠ [] → s.1.log.lh.block.length + 1 ≤ s.1.log.size
  pinned : ∀ b ∈ s.1.log.lh.block, ∃ data, s.2.PinnedAt (s.1.log.dev, b) data

variable {s t : MountSys × Bio} {a : MountAction}

/-- A log without entries has nothing pending. -/
theorem Inv.of_empty (hwf : s.2.Wf) (hdev : s.1.log.dev ≠ 0) (hlh : s.1.log.lh = .empty)
    (hlogged : s.1.logged = []) : Inv s := by
  have hnil : s.1.log.lh.block = [] := by rw [hlh, LogHeader.empty]
  refine ⟨hwf, hdev, ?_, ?_, ?_, ?_, ?_⟩ <;> simp [hnil, hlogged]

/-- With entries, the header is ready to be committed. -/
theorem Inv.loaded (h : Inv s) (hne : s.1.log.lh.block ≠ []) :
    Loaded s.1.log s.2 fun b => s.2.view (s.1.log.dev, b) := by
  have hroom := h.room hne
  refine ⟨h.wf, h.dev, h.nodup, h.outside, by omega, by omega, fun b hb => ?_⟩
  obtain ⟨data, hdata⟩ := h.pinned b hb
  rwa [hdata.view_eq]

/-- Pending blocks go where they belong. -/
theorem Inv.faithful (h : Inv s) : Faithful s := by
  refine ⟨fun k hk l hl _ => ?_, fun k hk lg t hcommit => ?_⟩
  · rw [(h.keys k hk).1, (h.keys l hl).1]
  · obtain ⟨hdev, hmem⟩ := h.keys k hk
    have hkey : (s.1.log.dev, k.2) = k := by rw [← hdev]
    have hne : s.1.log.lh.block ≠ [] := List.ne_nil_of_mem hmem
    rcases (commit_ends (h.loaded hne)).of_ok hcommit with ⟨hnil, _⟩ | ⟨x, y, hadvances⟩
    · exact absurd hnil hne
    · rw [hadvances.writes, List.drop_left, ← hkey]
      obtain ⟨i, hi⟩ := List.mem_iff_getElem?.mp hmem
      exact ⟨⟨i, hi, List.mem_map.mpr ⟨_, slot_mem_commitWrites hi, rfl⟩⟩,
        List.mem_map.mpr ⟨_, List.mem_append_left _
          (List.mem_append_right _ (List.mem_map.mpr ⟨_, hmem, rfl⟩)), rfl⟩⟩

variable {m : MountSys} {b : Bio}

/-- A mount that finds the header empty keeps the invariant. -/
theorem Inv.mount {dev : ℕ} {ip : ℕ × ℕ} (h : Inv (m, b)) (hdev : dev ≠ 0)
    (hsteady : mountScan dev ip m.mtable = none ∨ m.log.lh.block = []) :
    Ends (m.mount dev ip) b (fun m' b' => Inv (m', b')) fun _ => True := by
  refine ends_bind ((readSb_wf h.wf hdev).mono (fun sb c hc => ?_) fun _ _ => True.intro)
  cases hscan : mountScan dev ip m.mtable with
  | none =>
    refine ends_pure ⟨hc.1, h.dev, h.keys, h.nodup, h.outside, h.room, fun n hn => ?_⟩
    obtain ⟨data, hdata⟩ := h.pinned n hn
    exact ⟨data, hc.2 _ data h.dev hdata⟩
  | some mtable =>
    have hempty : m.log.lh.block = [] := hsteady.resolve_left (by simp [hscan])
    have hlogged : m.logged = [] := by
      refine List.eq_nil_iff_forall_not_mem.mpr fun k hk => ?_
      have hmem := (h.keys k hk).2
      simp [hempty] at hmem
    refine ends_bind ((initlog_wf hc.1 hdev).mono (fun lg d hd => ?_) fun _ _ => True.intro)
    exact ends_pure (.of_empty hd.2 (hd.1.1 ▸ hdev) hd.1.2 hlogged)

/-- An operation's change of a block of the log's device keeps the invariant. -/
theorem Inv.write {c : Bio} {b : ℕ} (h : Inv (m, c)) (hout : m.log.Outside b) :
    Ends (m.act (.write m.log.dev b change)) c (fun m' c' => Inv (m', c')) fun _ => True := by
  refine ends_bind ((writeBlock_ends (k := (m.log.dev, b)) h.wf h.dev).mono ?_ fun _ _ => True.intro)
  rintro _ d ⟨r, hr, rfl, hwf, ⟨x, hx, hvalid, href, hdata⟩, hkept⟩
  obtain ⟨hroom, hcase⟩ := recordBlock_ok hr
  -- Entries other than `b` keep their pinned buffers.
  have hpins : ∀ n ∈ m.log.lh.block, n ≠ b → ∃ data, d.PinnedAt (m.log.dev, n) data := by
    intro n hn hne
    obtain ⟨data, hpin⟩ := h.pinned n hn
    exact ⟨data, (hkept _ h.dev fun hkey => hne (Prod.ext_iff.mp hkey).2).pinned hpin⟩
  refine ends_pure ?_
  rcases hcase with ⟨hb, rfl⟩ | ⟨hb, lh, hlh, rfl⟩
  · refine ⟨hwf, h.dev, ?_, h.nodup, h.outside, h.room, fun n hn => ?_⟩
    · rintro k hk
      rcases List.mem_cons.mp hk with rfl | hk
      · exact ⟨rfl, hb⟩
      · exact h.keys k hk
    · by_cases hne : n = b
      · subst hne
        obtain ⟨data, hpin⟩ := h.pinned n hb
        exact ⟨x.data, x, hx, hvalid, by rw [href]; simpa using hpin.refs_ne, rfl⟩
      · exact hpins n hn hne
  · refine ⟨hwf, h.dev, ?_, ?_, ?_, fun _ => ?_, ?_⟩
    · rintro k hk
      rw [hlh]
      rcases List.mem_cons.mp hk with rfl | hk
      · exact ⟨rfl, by simp⟩
      · exact ⟨(h.keys k hk).1, List.mem_append_left _ (h.keys k hk).2⟩
    · rw [hlh]
      refine List.nodup_append.mpr ⟨h.nodup, by simp, fun n hn c hc => ?_⟩
      rw [List.mem_singleton.mp hc]
      exact ne_of_mem_of_not_mem hn hb
    · rw [hlh]
      intro n hn
      rcases List.mem_append.mp hn with hn | hn
      · exact h.outside n hn
      · rw [List.mem_singleton.mp hn]
        exact hout
    · rw [hlh, List.length_append]
      exact hroom
    · rw [hlh]
      intro n hn
      by_cases hne : n = b
      · exact ⟨x.data, x, hne ▸ hx, hvalid, by rw [href]; simp, rfl⟩
      · exact hpins n (by simpa [hne] using hn) hne

/-- A commit keeps the cache well formed. -/
theorem Inv.commit_wf (h : Inv (m, b)) (outstanding : ℕ) (committing : Bool) :
    Ends (commit { m.log with outstanding := outstanding, committing := committing }) b (fun _ t => t.Wf)
      fun _ => True := by
  by_cases hne : m.log.lh.block = []
  · have hlen : ¬ 0 < m.log.lh.block.length := by simp [hne]
    rw [commit, if_neg hlen]
    exact ends_pure h.wf
  · have hl := h.loaded hne
    refine (@commit_ends { m.log with outstanding := outstanding, committing := committing } b _
      ⟨hl.wf, hl.dev, hl.nodup, hl.outside, hl.room, hl.area, hl.pinned⟩).mono (fun _ t ht => ?_)
      fun _ _ => True.intro
    rcases ht with ⟨_, rfl⟩ | ⟨x, y, ht⟩
    · exact h.wf
    · exact ht.wf

/-- The end of an operation keeps the invariant, with a commit or without. -/
theorem Inv.endOp (h : Inv (m, b)) :
    Ends (m.act .endOp) b (fun m' b' => Inv (m', b')) fun _ => True := by
  refine ends_bind ?_
  unfold Xv6.endOp endOpStart
  by_cases hcommitting : m.log.committing = true
  · rw [if_pos hcommitting]
    exact ends_throw True.intro
  · rw [if_neg hcommitting]
    by_cases hlast : m.log.outstanding = 1
    · rw [if_pos hlast]
      refine ends_bind (.of_returns fun lg t hrun => ends_pure (ends_pure ?_))
      rw [commit_ok hrun, if_pos hlast]
      exact .of_empty ((h.commit_wf _ _).of_ok hrun) h.dev rfl rfl
    · rw [if_neg hlast]
      refine ends_pure (ends_pure ?_)
      rw [if_neg hlast]
      exact ⟨h.wf, h.dev, h.keys, h.nodup, h.outside, h.room, h.pinned⟩

/-- Every step under the condition keeps the invariant. -/
theorem Inv.step (h : Inv s) (hstep : SteadyStep s a t) : Inv t := by
  obtain ⟨⟨henabled, hrun⟩, hsteady⟩ := hstep
  cases a with
  | mount dev ip => exact (h.mount henabled.1 hsteady).of_ok hrun
  | beginOp =>
    have hends : Ends (s.1.act .beginOp) s.2 (fun m b => Inv (m, b)) fun _ => True :=
      ends_pure ⟨h.wf, h.dev, h.keys, h.nodup, h.outside, h.room, h.pinned⟩
    exact hends.of_ok hrun
  | write dev b change =>
    cases hsteady
    exact (h.write (henabled.2 rfl)).of_ok hrun
  | endOp => exact h.endOp.of_ok hrun

end MountSys

/-- While operations stay on the device mounted last and no mount finds entries in the header,
every pending block is committed from and to its own device. -/
theorem logged_blocks_return {s t : MountSys × Bio} {as : List MountAction} (hboot : MountSys.Boot s)
    (hrun : Run MountSys.SteadyStep s as t) : MountSys.Faithful t := by
  have hstart : MountSys.Inv s := .of_empty hboot.wf (by rw [hboot.dev]; decide) hboot.lh hboot.logged
  have hstep : ∀ s a t, MountSys.Inv s → MountSys.SteadyStep s a t → MountSys.Inv t :=
    fun _ _ _ h hstep => h.step hstep
  exact (hrun.invariant hstep hstart).faithful

/-- A booted system whose SD card carries an s5 file system. -/
def cardSystem : MountSys × Bio :=
  (⟨⟨2, 30, 0, false, rootDev, .empty⟩, [none, none], 2, []⟩,
    binit fun _ b => if b = 1 then putSuper ⟨s5Magic, 1500, 1454, 200, 30, 2, 32, 45⟩ else fun _ => 0)

/-- The card is mounted, then an operation changes block 50 of the root device. -/
def cardActions : List MountAction := [.mount sdcard (rootDev, 3), .beginOp, .write rootDev 50 fun _ _ => 5]

/-- The booted system with the card is one. -/
theorem boot_cardSystem : MountSys.Boot cardSystem :=
  ⟨rfl, rfl, rfl, rfl, rfl, rfl, rfl, Bio.wf_binit _⟩

/-- Without the mount, the operation's block is committed to the root device. -/
theorem logged_blocks_return_root :
    ∃ t, Run MountSys.SteadyStep cardSystem [.beginOp, .write rootDev 50 fun _ _ => 5] t ∧
      (rootDev, 50) ∈ t.1.logged ∧ MountSys.Faithful t := by
  have hrun : (runActions MountSys.next cardSystem [.beginOp, .write rootDev 50 fun _ _ => 5]).any
      (fun t => t.1.logged.contains (rootDev, 50)) = true := by
    decide +kernel
  obtain ⟨t, ht, hlogged⟩ := (Option.any_eq_true _ _).mp hrun
  obtain ⟨u, hbegin, hwrite⟩ := Option.bind_eq_some_iff.mp ht
  obtain ⟨v, hwrite, hend⟩ := Option.bind_eq_some_iff.mp hwrite
  cases hend
  have hsteady : u.1.log.dev = rootDev := by
    cases hbegin
    rfl
  have hrun : Run MountSys.SteadyStep cardSystem [.beginOp, .write rootDev 50 fun _ _ => 5] t :=
    .cons ⟨MountSys.step_of_next hbegin, True.intro⟩
      (.cons ⟨MountSys.step_of_next hwrite, hsteady.symm⟩ (.nil _))
  exact ⟨t, hrun, by simpa using hlogged, logged_blocks_return boot_cardSystem hrun⟩

/-- The commit of this state returns without writing block 50 of the root device. -/
def losesRootBlock (t : MountSys × Bio) : Bool :=
  match commit t.1.log t.2 with
  | .ok _ u => t.1.logged.contains (rootDev, 50) &&
      (u.writes.drop t.2.writes.length).all fun w => (w.dev, w.blockno) ≠ (rootDev, 50)
  | .error _ _ => false

/-- After mounting the card, blocks of the root device are committed to the card. -/
theorem logged_block_lost :
    ∃ t, MountSys.Boot cardSystem ∧ Run MountSys.Step cardSystem cardActions t ∧ ¬ MountSys.Faithful t := by
  obtain ⟨t, hrun, hlost⟩ : ∃ t, Run MountSys.Step cardSystem cardActions t ∧ losesRootBlock t = true :=
    exists_run MountSys.step_of_next (by decide +kernel)
  refine ⟨t, boot_cardSystem, hrun, ?_⟩
  rintro ⟨_, hreturn⟩
  unfold losesRootBlock at hlost
  split at hlost
  · rename_i lg u hcommit
    rw [Bool.and_eq_true, List.contains_iff_mem, List.all_eq_true] at hlost
    have hwrite := hlost.2 _ (hreturn _ hlost.1 lg u hcommit).2
    simp at hwrite
  · cases hlost

end Xv6
