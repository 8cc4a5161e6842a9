import Mathlib.Data.List.Infix
import Xv6.Mmap.Layout

/-!
# The contents of mapped pages

The first access to a page of a mapping should show the bytes of the file from the requested offset
on, counted from the start the mapping had when it was made. `handle_mmap_pagefault` counts from the
start the region has now, which `sys_munmap` moves, and `sys_mmap` drops the requested offset. A
region remembers its original start; here it is shown to be the address that the mapping call
returned, through removals and `fork`.
-/

namespace Xv6.Mmap

open Lib Function

/-! ### What a step does to a process -/

theorem addRefs_procs (files : List ℕ) (s : Sys) : (files.foldl (fun t f => t.addRef f 1) s).procs =
    s.procs := by
  induction files generalizing s with
  | nil => rfl
  | cons f files ih => exact ih _

/-- A process behind a step was there before with its regions and its cursor, or it made a mapping,
or it removed something, or it is a new child. -/
theorem Step.proc_cases {s t : Sys} {c : Call} (h : Step s c t) {slot : ℕ} {q : Proc}
    (hq : t.procs slot = some q) :
    (∃ p, s.procs slot = some p ∧ q.vma = p.vma ∧ q.curMax = p.curMax) ∨
    (∃ p i size prot flags fd offset f, c = .mmap slot size prot flags fd offset ∧ s.procs slot = some p ∧
      s.fileAt slot p fd = some f ∧ c.run s = .ok (p.startAddr size) t ∧
      q = { p.setVma i (p.newVma size prot flags fd offset f) with curMax := p.startAddr size }) ∨
    (∃ p i addr size, c = .munmap slot addr size ∧ s.procs slot = some p ∧ p.munmapVma addr size = some i ∧
      q = (p.unmap (pgRoundDown addr.toNat) (munmapEnd addr size)).setVma i
        ((p.vma i).cut (pgRoundDown addr.toNat) (munmapEnd addr size) size).1) ∨
    ∃ parent p, s.procs parent = some p ∧ q = p.child.1 := by
  have henabled := h.enabled
  obtain ⟨n, hrun⟩ := h
  -- a process that the call does not store is unchanged
  have hkept : ∀ slot' q', t.procs = (s.setProc slot' q').procs → slot ≠ slot' →
      ∃ p, s.procs slot = some p ∧ q.vma = p.vma ∧ q.curMax = p.curMax := by
    intro slot' q' ht hne
    rw [ht, Sys.setProc_of_ne hne] at hq
    exact ⟨q, hq, rfl, rfl⟩
  have hstored : ∀ q', t.procs = (s.setProc slot q').procs → q = q' := by
    intro q' ht
    rw [ht, Sys.setProc_self] at hq
    exact (Option.some.inj hq).symm
  have hsame : t = s → ∃ p, s.procs slot = some p ∧ q.vma = p.vma ∧ q.curMax = p.curMax :=
    fun ht => ⟨q, ht ▸ hq, rfl, rfl⟩
  have hplain : ∀ slot' p q', s.procs slot' = some p → t.procs = (s.setProc slot' q').procs → q'.vma = p.vma →
      q'.curMax = p.curMax → ∃ p, s.procs slot = some p ∧ q.vma = p.vma ∧ q.curMax = p.curMax := by
    intro slot' p q' hp ht hvma hcurMax
    obtain rfl | hne := eq_or_ne slot slot'
    · obtain rfl := hstored _ ht
      exact ⟨p, hp, hvma, hcurMax⟩
    · exact hkept _ _ ht hne
  cases c with
  | mmap slot' size prot flags fd offset =>
    obtain ⟨p, hp⟩ := henabled slot' rfl
    obtain ⟨-, hcall⟩ | ⟨-, -, hcall⟩ | ⟨i, f, -, -, hfile, hcall⟩ :=
      sysMmap_cases hp size prot flags fd offset
    · cases hcall.symm.trans hrun
      exact .inl (hsame rfl)
    · cases hcall.symm.trans hrun
    · cases hcall.symm.trans hrun
      obtain rfl | hne := eq_or_ne slot slot'
      · exact .inr (.inl ⟨p, i, size, prot, flags, fd, offset, f, rfl, hp, hfile, hcall, hstored _ rfl⟩)
      · exact .inl (hkept _ _ rfl hne)
  | munmap slot' addr size =>
    obtain ⟨p, hp⟩ := henabled slot' rfl
    rw [Call.run, sysMunmap_eq hp] at hrun
    cases hi : p.munmapVma addr size with
    | none =>
      rw [hi] at hrun
      cases hrun
      exact .inl (hsame rfl)
    | some i =>
      rw [hi] at hrun
      cases hrun
      obtain rfl | hne := eq_or_ne slot slot'
      · exact .inr (.inr (.inl ⟨p, i, addr, size, rfl, hp, hi, hstored _ rfl⟩))
      · exact .inl (hkept _ _ rfl hne)
  | fork slot' childSlot enough =>
    obtain ⟨p, hp⟩ := henabled slot' rfl
    rw [Call.run, fork_eq hp] at hrun
    split at hrun
    · cases hrun
      by_cases hne : slot = n
      · subst hne
        exact .inr (.inr (.inr ⟨slot', p, hp, hstored _ (addRefs_procs _ _)⟩))
      · exact .inl (hkept _ _ (addRefs_procs _ _) hne)
    · cases hrun
      exact .inl (hsame rfl)
  | exec slot' sz image =>
    obtain ⟨p, hp⟩ := henabled slot' rfl
    cases (exec_eq hp).symm.trans hrun
    exact .inl (hplain _ _ _ hp rfl rfl rfl)
  | sbrk slot' m enough =>
    obtain ⟨p, hp⟩ := henabled slot' rfl
    rw [Call.run, sysSbrk_eq hp] at hrun
    split at hrun
    · cases hrun
      exact .inl (hsame rfl)
    · split at hrun
      · cases hrun
      · cases hrun
        exact .inl (hplain _ _ _ hp rfl rfl rfl)
  | fault slot' va store page table =>
    obtain ⟨p, hp⟩ := henabled slot' rfl
    rw [Call.run, getProc_bind _ hp] at hrun
    cases hi : p.checkMmapVma va with
    | none =>
      rw [hi] at hrun
      cases hrun
      exact .inl (hsame rfl)
    | some i =>
      rw [hi] at hrun
      obtain ⟨b, u, hfault, hrun⟩ := bind_eq_ok.mp hrun
      cases hrun
      obtain ht | ⟨q', rfl, -, hvma, hcurMax⟩ := handleMmapPagefault_cases hp hfault
      · exact .inl (hsame ht)
      · exact .inl (hplain _ _ _ hp rfl hvma hcurMax)
  | descriptor slot' fd f =>
    obtain ⟨p, hp⟩ := henabled slot' rfl
    rw [Call.run, getProc_bind _ hp] at hrun
    cases hrun
    exact .inl (hplain _ _ _ hp rfl rfl rfl)
  | file f value | write ip content =>
    cases hrun
    exact .inl ⟨q, hq, rfl, rfl⟩

/-! ### Where a region comes from -/

/-- Mappings have a positive size, and removals have a range. -/
def Call.Proper : Call → Prop
  | .mmap _ size .. => 0 < size.toInt
  | .munmap _ addr size => 0 ≤ size.toInt ∧ (addr.toNat : ℤ) + size.toInt < 2 ^ 64
  | _ => True

/-- A step by a proper call. -/
def ProperStep (s : Sys) (c : Call) (t : Sys) : Prop := Step s c t ∧ c.Proper

/-- A region was made by a mapping of its file among the listed calls, with its offset as the
requested one and its original start as the address that the call returned. -/
def MappedBy (s₀ : Sys) (cs : List Call) (v : Vma) : Prop :=
  ∃ past slot size prot flags fd u w p, past ++ [.mmap slot size prot flags fd v.offset] <+: cs ∧
    Run ProperStep s₀ past u ∧ u.procs slot = some p ∧ u.fileAt slot p fd = some v.file ∧
    (Call.mmap slot size prot flags fd v.offset).run u = .ok v.origStartAd w

/-- A region lies behind its original start, less than two gigabytes long. -/
structure Vma.Placed (v : Vma) : Prop where
  aligned : pgsize ∣ v.origStartAd
  start_le : v.origStartAd ≤ v.startAd
  end_le : v.startAd < v.endAd → v.endAd ≤ v.origStartAd + 2 ^ 31

/-- The regions and the cursor of a process, behind the listed calls. -/
structure Proc.Traced (s₀ : Sys) (cs : List Call) (p : Proc) : Prop where
  curMax_aligned : pgsize ∣ p.curMax
  curMax_lt : p.curMax < 2 ^ 64
  mapped : ∀ i, (p.vma i).valid → MappedBy s₀ cs (p.vma i)
  placed : ∀ i, (p.vma i).valid → (p.vma i).Placed

variable {cs : List Call} {s₀ : Sys} {v : Vma}

theorem MappedBy.mono {w : Vma} (h : MappedBy s₀ cs v) (c : Call)
    (horig : w.origStartAd = v.origStartAd) (hoffset : w.offset = v.offset) (hfile : w.file = v.file) :
    MappedBy s₀ (cs ++ [c]) w := by
  obtain ⟨past, slot, size, prot, flags, fd, u, u', p, hprefix, hrest⟩ := h
  rw [MappedBy, horig, hoffset, hfile]
  exact ⟨past, slot, size, prot, flags, fd, u, u', p, hprefix.trans (List.prefix_append _ _), hrest⟩

variable {p : Proc} {size : BitVec 32}

theorem startAddr_lt : p.startAddr size < 2 ^ 64 := by
  have hlt : toUint64 (p.curMax - size.toInt) < 2 ^ 64 := by
    unfold toUint64
    omega
  exact lt_of_le_of_lt (Nat.div_mul_le_self _ _) hlt

/-- A new region of positive size is as long as its size, rounded up, or empty. -/
theorem placed_newVma {prot flags fd offset : BitVec 32} {f : ℕ} (haligned : pgsize ∣ p.curMax)
    (hlt : p.curMax < 2 ^ 64) (hsize : 0 < size.toInt) : (p.newVma size prot flags fd offset f).Placed where
  aligned := pgRoundDown_dvd _
  start_le := le_rfl
  end_le := by
    have hbound : size.toInt < 2 ^ 31 := BitVec.toInt_lt
    simp only [Proc.newVma, Proc.startAddr, pgRoundDown, toUint64, pgsize] at *
    intro hlt'
    omega

/-- A removal moves the ends of a region inwards. -/
theorem placed_cut (h : v.Placed) {startBase endBase : ℕ} (size : BitVec 32) (hle : startBase ≤ endBase) :
    (v.cut startBase endBase size).1.Placed := by
  have hstart := h.start_le
  have hend := h.end_le
  unfold Vma.cut
  split
  · exact ⟨h.aligned, by simp only; omega, by simp only; omega⟩
  · split
    · exact ⟨h.aligned, h.start_le, by simp only; omega⟩
    · split
      · exact ⟨h.aligned, h.start_le, h.end_le⟩
      · exact h

theorem cut_origin (v : Vma) (startBase endBase : ℕ) (size : BitVec 32) :
    (v.cut startBase endBase size).1.origStartAd = v.origStartAd ∧
      (v.cut startBase endBase size).1.offset = v.offset ∧ (v.cut startBase endBase size).1.file =
        v.file := by
  unfold Vma.cut
  split
  · exact ⟨rfl, rfl, rfl⟩
  · split
    · exact ⟨rfl, rfl, rfl⟩
    · split <;> exact ⟨rfl, rfl, rfl⟩

theorem le_munmapEnd {addr : BitVec 64} (h : (Call.munmap 0 addr size).Proper) :
    pgRoundDown addr.toNat ≤ munmapEnd addr size := by
  obtain ⟨hsize, hend⟩ := h
  have hdown : pgRoundDown addr.toNat ≤ addr.toNat := Nat.div_mul_le_self _ _
  unfold munmapEnd toUint64
  omega

/-- A process that stores one region. -/
theorem Proc.Traced.store {q : Proc} (h : p.Traced s₀ cs) (c : Call)
    (hcurMax : pgsize ∣ q.curMax) (hlt : q.curMax < 2 ^ 64) {i : Fin mmapPages}
    (hvma : q.vma = update p.vma i v) (hmapped : MappedBy s₀ (cs ++ [c]) v) (hplaced : v.Placed) :
    q.Traced s₀ (cs ++ [c]) := by
  have hregion : ∀ j, (q.vma j).valid → MappedBy s₀ (cs ++ [c]) (q.vma j) ∧ (q.vma j).Placed := by
    intro j hj
    obtain rfl | hne := eq_or_ne j i
    · rw [hvma, update_self]
      exact ⟨hmapped, hplaced⟩
    · rw [hvma, update_of_ne hne] at hj ⊢
      exact ⟨(h.mapped j hj).mono c rfl rfl rfl, h.placed j hj⟩
  exact ⟨hcurMax, hlt, fun j hj => (hregion j hj).1, fun j hj => (hregion j hj).2⟩

/-- One step keeps the trace of every process. -/
theorem traced_step {s t : Sys} {c : Call} (hrun : Run ProperStep s₀ cs s)
    (h : ∀ slot p, s.procs slot = some p → p.Traced s₀ cs) (hstep : ProperStep s c t) :
    ∀ slot q, t.procs slot = some q → q.Traced s₀ (cs ++ [c]) := by
  intro slot q hq
  obtain ⟨p, hp, hvma, hcurMax⟩ | ⟨p, i, size, prot, flags, fd, offset, f, rfl, hp, hfile, hcall, rfl⟩ |
    ⟨p, i, addr, size, rfl, hp, hi, rfl⟩ | ⟨parent, p, hp, rfl⟩ := hstep.1.proc_cases hq
  · have ht := h slot p hp
    refine ⟨hcurMax ▸ ht.curMax_aligned, hcurMax ▸ ht.curMax_lt, fun i hi => ?_, fun i hi => ?_⟩
    · rw [hvma] at hi ⊢
      exact (ht.mapped i hi).mono c rfl rfl rfl
    · rw [hvma] at hi ⊢
      exact ht.placed i hi
  · have ht := h slot p hp
    refine ht.store _ (pgRoundDown_dvd _) startAddr_lt rfl ?_
      (placed_newVma ht.curMax_aligned ht.curMax_lt hstep.2)
    exact ⟨cs, slot, size, prot, flags, fd, s, t, p, List.prefix_rfl, hrun, hp, hfile, hcall⟩
  · have ht := h slot p hp
    have hvalid : (p.vma i).valid := by
      have hcovers := Proc.findVma_some hi
      simp only [Vma.covers, Bool.and_eq_true] at hcovers
      exact hcovers.1.1
    obtain ⟨horig, hoffset, hfile⟩ := cut_origin (p.vma i) (pgRoundDown addr.toNat) (munmapEnd addr size) size
    exact ht.store _ ht.curMax_aligned ht.curMax_lt rfl ((ht.mapped i hvalid).mono _ horig hoffset hfile)
      (placed_cut (ht.placed i hvalid) size (le_munmapEnd hstep.2))
  · have ht := h parent p hp
    obtain ⟨src, hsrc, -⟩ := copiesOf_child p
    have hcurMax := (child_sz p).2
    refine ⟨hcurMax ▸ by decide, hcurMax ▸ by decide, fun i hi => ?_, fun i hi => ?_⟩
    · obtain ⟨-, hvalid, hcopy⟩ := hsrc i hi
      exact hcopy ▸ (ht.mapped (src i) hvalid).mono c rfl rfl rfl
    · obtain ⟨-, hvalid, hcopy⟩ := hsrc i hi
      have hplaced := ht.placed (src i) hvalid
      exact hcopy ▸ ⟨hplaced.aligned, hplaced.start_le, hplaced.end_le⟩

/-- Every process that proper calls lead to is traced. -/
theorem traced_of_run {initcode : Bytes} {t : Sys} (hrun : Run ProperStep (boot initcode) cs t) :
    ∀ slot p, t.procs slot = some p → p.Traced (boot initcode) cs := by
  refine hrun.history ?_ fun past u c v hpast hinv hstep => traced_step hpast hinv hstep
  intro slot p hp
  obtain rfl | hslot := eq_or_ne slot 0
  · cases hp
    exact ⟨show pgsize ∣ firstMax by decide, show firstMax < 2 ^ 64 by decide, nofun, nofun⟩
  · cases (if_neg hslot).symm.trans hp

/-! ### What a first access shows -/

/-- The bytes of a file from an offset on, zero behind its end. -/
def expectedPage (content : List UInt8) (off : ℕ) : Bytes :=
  fun i => if i < pgsize then content.getD (off + i) 0 else 0

/-- The offset in its file of the page of a region: counted from the original start, behind the
requested offset. -/
def Vma.fileOffset (v : Vma) (va : ℕ) : ℕ := (v.offset.toInt + ((pgRoundDown va : ℤ) - v.origStartAd)).toNat

/-- The same state with other contents of a file. -/
def Sys.withContent (s : Sys) (ip : ℕ) (content : List UInt8) : Sys :=
  { s with contents := update s.contents ip content }

/-- An access installs a page with the given bytes. -/
def Sys.Shows (s : Sys) (slot va : ℕ) (store : Bool) (data : Bytes) : Prop :=
  ∃ t q, (Call.fault slot va store true true).run s = .ok 0 t ∧ t.procs slot = some q ∧
    q.page (pgRoundDown va / pgsize) = some data

/-- A first access installs what `mmap_read` reads for the region that `check_mmap_vma` finds. -/
theorem shows_iff {s : Sys} {slot va : ℕ} {j : Fin mmapPages} {store : Bool} {data : Bytes}
    (hp : s.procs slot = some p) (hj : p.checkMmapVma va = some j)
    (hpage : p.page (pgRoundDown va / pgsize) = none)
    (hstore : store = true → protWrite (p.vma j).prot = true) :
    s.Shows slot va store data ↔
      data = mmapRead (s.contents (s.files (p.vma j).file).ip) ((p.vma j).distance (pgRoundDown va)) := by
  have hallowed : ¬ (store = true ∧ ¬ protWrite (p.vma j).prot = true) := fun h => h.2 (hstore h.1)
  have hrun : (Call.fault slot va store true true).run s = .ok 0 (s.setProc slot { p with
      page := update p.page (pgRoundDown va / pgsize)
        (some (mmapRead (s.contents (s.files (p.vma j).file).ip)
          ((p.vma j).distance (pgRoundDown va)))) }) := by
    rw [Call.run, getProc_bind _ hp, hj]
    dsimp only
    rw [exec_bind, handleMmapPagefault, getProc_bind _ hp]
    simp only [if_neg hallowed, hpage]
    rfl
  constructor
  · rintro ⟨t, q, hfault, hq, hdata⟩
    cases hrun.symm.trans hfault
    rw [Sys.setProc_self] at hq
    cases hq
    exact Option.some.inj (hdata.symm.trans (update_self ..))
  · rintro rfl
    exact ⟨_, _, hrun, Sys.setProc_self, update_self ..⟩

/-- A page read at the right offset is right for every content. -/
theorem mmapRead_eq {content : List UInt8} {off : ℕ} (hoff : off + pgsize < 2 ^ 32) :
    mmapRead content off = expectedPage content off := by
  funext i
  unfold mmapRead expectedPage
  by_cases hi : i < pgsize
  swap
  · rw [if_neg (fun h => hi h.2.2), if_neg hi]
  rw [if_pos hi]
  by_cases hlen : off ≤ content.length
  · rw [if_pos ⟨hlen, hoff, hi⟩]
  · rw [if_neg (fun h => hlen h.1), List.getD_eq_default _ _ (by omega)]

/-- A file with a single byte that is not zero. -/
def marked (off : ℕ) : List UInt8 := List.replicate off 0 ++ [1]

theorem marked_length (off : ℕ) : (marked off).length = off + 1 := by simp [marked]

theorem marked_getD_self (off : ℕ) : (marked off).getD off 0 = 1 := by simp [marked]

theorem marked_getD_of_ne {off i : ℕ} (h : i ≠ off) : (marked off).getD i 0 = 0 := by
  obtain hlt | hlt := lt_or_gt_of_ne h
  · rw [marked, List.getD_append _ _ _ _ (by simpa using hlt)]
    simp
  · exact List.getD_eq_default _ _ (by rw [marked_length]; omega)

/-- A page read at another offset is wrong for some content. -/
theorem mmapRead_marked_ne {off read : ℕ} (h : read ≠ off) : mmapRead (marked off) read ≠
    expectedPage (marked off) off := by
  intro heq
  have hfirst := congrFun heq 0
  unfold mmapRead expectedPage at hfirst
  rw [if_pos (show 0 < pgsize by decide), Nat.add_zero, Nat.add_zero, marked_getD_self, marked_getD_of_ne h,
    ite_self] at hfirst
  exact absurd hfirst (by decide)

/-- The offset that is read is the right one exactly when the start of the region that is found,
with the offset of the mapping, is the original start of the mapping. -/
theorem distance_eq_iff {w : Vma} {va : ℕ} (hv : v.Placed) (hw : w.Placed) (hvlo : v.startAd ≤ va)
    (hvhi : va < v.endAd)
    (hwlo : w.startAd ≤ va) (hwhi : va < w.endAd) (hoffset : 0 ≤ v.offset.toInt)
    (haligned : (pgsize : ℤ) ∣ v.offset.toInt) :
    v.fileOffset va + pgsize < 2 ^ 32 ∧
      (w.distance (pgRoundDown va) = v.fileOffset va ↔ (w.startAd : ℤ) + v.offset.toInt = v.origStartAd) := by
  have hbound : v.offset.toInt < 2 ^ 31 := BitVec.toInt_lt
  obtain ⟨k, hk⟩ := hv.aligned
  have hvstart := hv.start_le
  have hvend := hv.end_le (lt_of_le_of_lt hvlo hvhi)
  have hwstart := hw.start_le
  have hwend := hw.end_le (lt_of_le_of_lt hwlo hwhi)
  simp only [Vma.distance, Vma.fileOffset, toUint, pgRoundDown, pgsize] at *
  omega

/-- The first access to a page of a mapping shows the right bytes for every content of the file
exactly when the region that `check_mmap_vma` finds maps the same file and starts where the file
starts in the mapping: nothing has been removed from its front, and the requested offset is zero.
The mapping is the one that the region was made by, in the process itself or in an ancestor. -/
theorem mapped_page_iff {initcode : Bytes} {cs : List Call} {t : Sys}
    (hrun : Run ProperStep (boot initcode) cs t)
    {slot va : ℕ} {p : Proc} {i : Fin mmapPages} (hp : t.procs slot = some p)
    (hvalid : (p.vma i).valid = true)
    (hlo : (p.vma i).startAd ≤ va) (hhi : va < (p.vma i).endAd)
    (hpage : p.page (pgRoundDown va / pgsize) = none)
    (hoffset : 0 ≤ (p.vma i).offset.toInt) (haligned : (pgsize : ℤ) ∣ (p.vma i).offset.toInt) :
    MappedBy (boot initcode) cs (p.vma i) ∧
    ∃ j, p.checkMmapVma va = some j ∧ ∀ store, (store = true → protWrite (p.vma j).prot = true) →
      ((∀ content : List UInt8, content.length < 2 ^ 32 →
        (t.withContent (t.files (p.vma i).file).ip content).Shows slot va store
          (expectedPage content ((p.vma i).fileOffset va))) ↔
        (t.files (p.vma j).file).ip = (t.files (p.vma i).file).ip ∧
          ((p.vma j).startAd : ℤ) + (p.vma i).offset.toInt = (p.vma i).origStartAd) := by
  have htraced := traced_of_run hrun slot p hp
  refine ⟨htraced.mapped i hvalid, ?_⟩
  obtain ⟨j, hj⟩ : ∃ j, p.checkMmapVma va = some j := by
    refine Option.isSome_iff_exists.mp (List.find?_isSome.mpr ⟨i, List.mem_finRange i, ?_⟩)
    simp [hvalid, hlo, hhi]
  have hfound := Proc.findVma_some hj
  simp only [Bool.and_eq_true, decide_eq_true_eq] at hfound
  obtain ⟨⟨hvalidj, hloj⟩, hhij⟩ := hfound
  obtain ⟨hfit, hdistance⟩ :=
    distance_eq_iff (htraced.placed i hvalid) (htraced.placed j hvalidj) hlo hhi hloj hhij
    hoffset haligned
  refine ⟨j, hj, fun store hstore => ?_⟩
  have hshows : ∀ content, (t.withContent (t.files (p.vma i).file).ip content).Shows slot va store
      (expectedPage content ((p.vma i).fileOffset va)) ↔ expectedPage content ((p.vma i).fileOffset va) =
        mmapRead (update t.contents (t.files (p.vma i).file).ip content (t.files (p.vma j).file).ip)
          ((p.vma j).distance (pgRoundDown va)) := fun content => shows_iff hp hj hpage hstore
  simp only [hshows]
  constructor
  · intro h
    have hlength : (marked ((p.vma i).fileOffset va)).length < 2 ^ 32 := by
      rw [marked_length]
      exact lt_of_le_of_lt (Nat.add_le_add_left (by decide) _) hfit
    have hmarked := h _ hlength
    by_cases hip : (t.files (p.vma j).file).ip = (t.files (p.vma i).file).ip
    · rw [hip, update_self] at hmarked
      refine ⟨hip, hdistance.mp ?_⟩
      by_contra hne
      exact mmapRead_marked_ne hne hmarked.symm
    · -- another file is read, so two contents of this one would have to show the same page
      have hempty := h [] (by decide)
      rw [update_of_ne hip] at hmarked hempty
      have hfirst := congrFun (hmarked.trans hempty.symm) 0
      unfold expectedPage at hfirst
      rw [if_pos (show 0 < pgsize by decide), Nat.add_zero, marked_getD_self] at hfirst
      exact absurd hfirst (by simp)
  · intro ⟨hip, hstart⟩ content _
    rw [hip, update_self, hdistance.mpr hstart, mmapRead_eq hfit]

/-- An execution of proper calls. -/
theorem run_proper {s t : Sys} {cs : List Call} (hrun : Run (fun s c t => next s c = some t) s cs t)
    (hproper : ∀ c ∈ cs, c.Proper) : Run ProperStep s cs t := by
  induction hrun with
  | nil => exact .nil _
  | cons first _ ih =>
    rw [List.forall_mem_cons] at hproper
    exact .cons ⟨step_of_next first, hproper.1⟩ (ih hproper.2)

/-- The second page of a mapping of two pages, read through every content of the file. -/
theorem mapped_page_of_second_page :
    ∃ t p, Run ProperStep (boot fun _ => 0) [.descriptor 0 0 (some 0), .mmap 0 8192 2 2 0 0] t ∧
      t.procs 0 = some p ∧ ∀ content : List UInt8, content.length < 2 ^ 32 →
        (t.withContent (t.files (p.vma 0).file).ip content).Shows 0 0x3fffff4000 false
          (expectedPage content 4096) := by
  have heval : (runActions next (boot fun _ => 0) [.descriptor 0 0 (some 0),
    .mmap 0 8192 2 2 0 0]).any (fun t =>
      (t.procs 0).any fun p => decide ((p.vma 0).valid = true ∧ (p.vma 0).startAd = 0x3fffff3000 ∧
        (p.vma 0).endAd = 0x3fffff5000 ∧ (p.vma 0).origStartAd = 0x3fffff3000 ∧ (p.vma 0).offset = 0 ∧
        (p.page (0x3fffff4000 / pgsize)).isNone ∧ p.checkMmapVma 0x3fffff4000 = some 0)) = true := by
    decide +kernel
  obtain ⟨t, ht, hproc⟩ := (Option.any_eq_true _ _).mp heval
  obtain ⟨p, hp, hall⟩ := (Option.any_eq_true _ _).mp hproc
  obtain ⟨hvalid, hstart, hend, horig, hoffset, hpage, hcheck⟩ := of_decide_eq_true hall
  have hrun := run_proper (runActions_eq_some_iff.mp ht) (by simp [Call.Proper])
  have hhead : pgRoundDown 0x3fffff4000 = 0x3fffff4000 := by decide
  obtain ⟨-, j, hj, hiff⟩ := mapped_page_iff hrun hp hvalid (show _ ≤ 0x3fffff4000 by omega) (by omega)
    (by rw [hhead]; simpa using hpage) (by rw [hoffset]; decide) (by rw [hoffset]; decide)
  cases hcheck.symm.trans hj
  have hfile : (p.vma 0).fileOffset 0x3fffff4000 = 4096 := by
    rw [Vma.fileOffset, hoffset, horig, hhead]
    decide
  rw [hfile] at hiff
  exact ⟨t, p, hrun, hp, (hiff false nofun).mpr ⟨rfl, by rw [hstart, hoffset, horig]; decide⟩⟩

/-- After the first page of a mapping of two pages has been removed, the second one shows the first
page of the file. -/
theorem shifted_page_after_munmap :
    ∃ t p, Run ProperStep (boot fun _ => 0) [.descriptor 0 0 (some 0), .mmap 0 8192 2 2 0 0,
        .munmap 0 0x3fffff3000 4096, .write 0 (marked 4096)] t ∧ t.procs 0 = some p ∧ (p.vma 0).valid = true ∧
      (p.vma 0).fileOffset 0x3fffff4000 = 4096 ∧ (t.files (p.vma 0).file).ip = 0 ∧
      ¬ t.Shows 0 0x3fffff4000 false (expectedPage (t.contents 0) 4096) := by
  have heval : (runActions next (boot fun _ => 0) [.descriptor 0 0 (some 0), .mmap 0 8192 2 2 0 0,
      .munmap 0 0x3fffff3000 4096]).any (fun t => (t.procs 0).any fun p =>
        decide ((p.vma 0).valid = true ∧ (p.vma 0).startAd = 0x3fffff4000 ∧ (p.vma 0).origStartAd =
          0x3fffff3000 ∧
          (p.vma 0).offset = 0 ∧ (p.page (0x3fffff4000 / pgsize)).isNone ∧
            p.checkMmapVma 0x3fffff4000 = some 0 ∧
          (t.files (p.vma 0).file).ip = 0)) = true := by
    decide +kernel
  obtain ⟨t, hrun, hproc⟩ := (Option.any_eq_true _ _).mp heval
  obtain ⟨p, hp, hall⟩ := (Option.any_eq_true _ _).mp hproc
  obtain ⟨hvalid, hstart, horig, hoffset, hpage, hcheck, hip⟩ := of_decide_eq_true hall
  have hhead : pgRoundDown 0x3fffff4000 = 0x3fffff4000 := by decide
  have hdistance : (p.vma 0).distance (pgRoundDown 0x3fffff4000) = 0 := by
    rw [Vma.distance, hstart, hhead]
    decide
  have hwrite : ProperStep t (.write 0 (marked 4096)) (t.withContent 0 (marked 4096)) := ⟨⟨0, rfl⟩, trivial⟩
  have hproper := (run_proper (runActions_eq_some_iff.mp hrun) (by simp [Call.Proper])).append
    (.cons hwrite (.nil _))
  refine ⟨_, p, hproper, hp, hvalid, ?_, hip, fun hshows => ?_⟩
  · rw [Vma.fileOffset, hoffset, horig, hhead]
    decide
  · have hnone : p.page (pgRoundDown 0x3fffff4000 / pgsize) = none := by
      rw [hhead]
      simpa using hpage
    have hread := (shows_iff (s := t.withContent 0 (marked 4096)) hp hcheck hnone Bool.noConfusion).mp hshows
    have hfile : (t.withContent 0 (marked 4096)).files = t.files := rfl
    rw [hdistance, hfile, hip] at hread
    exact mmapRead_marked_ne (by decide) hread.symm

end Xv6.Mmap
