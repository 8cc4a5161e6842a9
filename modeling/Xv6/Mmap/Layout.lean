import Xv6.Mmap

/-!
# The layout of mapped regions

The valid regions of a process should be non-empty, page aligned, pairwise disjoint, above its
memory and below the trapframe. `sys_mmap` takes the next region from a cursor that only `sys_mmap`
moves, and checks neither the cursor nor its arguments. `fork` copies the regions but not the
cursor, so a child hands out the regions it inherited once more; `sys_munmap` accepts a size that is
no multiple of the page size, and a negative one. A call keeps the layout exactly when the region it
makes fits.
-/

namespace Xv6.Mmap

open Lib Function

/-- A range fits a process as the place of region `i`. -/
structure Proc.Fits (p : Proc) (i : Fin mmapPages) (lo hi : ℕ) : Prop where
  nonempty : lo < hi
  lo_aligned : pgsize ∣ lo
  hi_aligned : pgsize ∣ hi
  above : pgRoundUp p.sz ≤ lo
  below : hi ≤ trapframe
  disjoint : ∀ j, j ≠ i → (p.vma j).valid → hi ≤ (p.vma j).startAd ∨ (p.vma j).endAd ≤ lo

/-- Every valid region of a process fits it. -/
def Proc.Layout (p : Proc) : Prop := ∀ i, (p.vma i).valid → p.Fits i (p.vma i).startAd (p.vma i).endAd

/-- The layout of every process. -/
def Sys.Layout (s : Sys) : Prop := ∀ slot p, s.procs slot = some p → p.Layout

section proc

variable {p q : Proc} {i : Fin mmapPages} {lo hi : ℕ}

theorem Proc.Fits.congr (h : p.Fits i lo hi) (hsz : q.sz = p.sz) (hvma : ∀ j, j ≠ i → q.vma j = p.vma j) :
    q.Fits i lo hi where
  nonempty := h.nonempty
  lo_aligned := h.lo_aligned
  hi_aligned := h.hi_aligned
  above := hsz ▸ h.above
  below := h.below
  disjoint := fun j hj hvalid => by
    rw [hvma j hj] at hvalid ⊢
    exact h.disjoint j hj hvalid

/-- The layout depends on the size and the regions only. -/
theorem Proc.Layout.congr (h : p.Layout) (hsz : q.sz = p.sz) (hvma : q.vma = p.vma) : q.Layout := by
  intro i hvalid
  rw [hvma] at hvalid ⊢
  exact (h i hvalid).congr hsz fun j _ => congrFun hvma j

/-- Storing a region keeps the layout exactly when the region fits or is unused. -/
theorem Proc.Layout.setVma_iff (h : p.Layout) (v : Vma) :
    (p.setVma i v).Layout ↔ (v.valid → p.Fits i v.startAd v.endAd) := by
  have hself : (p.setVma i v).vma i = v := update_self ..
  have hother : ∀ j, j ≠ i → (p.setVma i v).vma j = p.vma j := fun j hj => update_of_ne hj ..
  constructor
  · intro hlayout hvalid
    have hfits := hlayout i (by rwa [hself])
    rw [hself] at hfits
    exact hfits.congr rfl fun j hj => (hother j hj).symm
  · intro hv j hvalid
    obtain rfl | hj := eq_or_ne j i
    · rw [hself] at hvalid ⊢
      exact (hv hvalid).congr rfl hother
    · rw [hother j hj] at hvalid ⊢
      have hfits := h j hvalid
      refine { hfits with disjoint := fun k hk hvalid' => ?_ }
      obtain rfl | hki := eq_or_ne k i
      · rw [hself] at hvalid' ⊢
        exact ((hv hvalid').disjoint j hj hvalid).symm
      · rw [hother k hki] at hvalid' ⊢
        exact hfits.disjoint k hk hvalid'

/-- Changing the size keeps the layout exactly when every region stays above it. -/
theorem Proc.Layout.resize_iff (h : p.Layout) (hvma : q.vma = p.vma) :
    q.Layout ↔ ∀ i, (p.vma i).valid → pgRoundUp q.sz ≤ (p.vma i).startAd := by
  constructor
  · intro hlayout i hvalid
    have hfits := hlayout i (hvma ▸ hvalid)
    rw [hvma] at hfits
    exact hfits.above
  · intro habove i hvalid
    rw [hvma] at hvalid ⊢
    have hfits := h i hvalid
    exact { hfits with
      above := habove i hvalid
      disjoint := fun j hj hvalid' => by
        rw [hvma] at hvalid' ⊢
        exact hfits.disjoint j hj hvalid' }

theorem Proc.findVma_some {test : Vma → Bool} (h : p.findVma test = some i) : test (p.vma i) = true :=
  List.find?_some (p := fun i => test (p.vma i)) h

end proc

section sys

variable {s : Sys} {slot : ℕ} {q : Proc}

theorem Sys.setProc_self : (s.setProc slot q).procs slot = some q := update_self ..

theorem Sys.setProc_of_ne {slot' : ℕ} (h : slot' ≠ slot) : (s.setProc slot q).procs slot' = s.procs slot' :=
  update_of_ne h ..

theorem Sys.Layout.setProc_iff (h : s.Layout) : (s.setProc slot q).Layout ↔ q.Layout := by
  constructor
  · exact fun hlayout => hlayout slot q Sys.setProc_self
  · intro hq slot' p hp
    obtain rfl | hne := eq_or_ne slot' slot
    · rw [Sys.setProc_self] at hp
      cases hp
      exact hq
    · rw [Sys.setProc_of_ne hne] at hp
      exact h slot' p hp

theorem Sys.layout_addRef {f : ℕ} {n : ℤ} : (s.addRef f n).Layout ↔ s.Layout := Iff.rfl

theorem Sys.layout_addRefs (files : List ℕ) : (files.foldl (fun t f => t.addRef f 1) s).Layout ↔
    s.Layout := by
  induction files generalizing s with
  | nil => rfl
  | cons f files ih => exact ih.trans Sys.layout_addRef

end sys

/-! ### `fork` -/

/-- The regions of a child so far are copies of different regions of the parent, from the first `k`
slots. -/
def CopiesOf (p np : Proc) (k : ℕ) : Prop :=
  ∃ src : Fin mmapPages → Fin mmapPages,
    (∀ j, (np.vma j).valid → (src j).val < k ∧ (p.vma (src j)).valid ∧ np.vma j = (p.vma (src j)).copy) ∧
    ∀ j l, (np.vma j).valid → (np.vma l).valid → src j = src l → j = l

variable {i : Fin mmapPages} {p : Proc} {np : Proc × List ℕ}

/-- One turn of the copying loop. -/
theorem CopiesOf.turn (h : CopiesOf p np.1 i) :
    CopiesOf p (copyOne p np i).1 (i + 1) := by
  obtain ⟨src, hsrc, hinj⟩ := h
  have hkept : CopiesOf p np.1 (i + 1) :=
    ⟨src, fun j hj => ⟨(hsrc j hj).1.trans (Nat.lt_succ_self _), (hsrc j hj).2⟩, hinj⟩
  unfold copyOne
  split
  swap
  · exact hkept
  rename_i hvalid
  split
  swap
  · exact hkept
  rename_i j hfree
  have hself : (np.1.setVma j (p.vma i).copy).vma j = (p.vma i).copy := update_self ..
  have hother : ∀ l, l ≠ j → (np.1.setVma j (p.vma i).copy).vma l = np.1.vma l :=
    fun l hl => update_of_ne hl ..
  -- the new copy comes from slot `i`, every older one from a slot before it
  have hold : ∀ l, l ≠ j → ((np.1.setVma j (p.vma i).copy).vma l).valid → src l ≠ i := by
    intro l hl hlvalid heq
    rw [hother l hl] at hlvalid
    exact absurd (hsrc l hlvalid).1 (by rw [heq]; exact lt_irrefl _)
  refine ⟨update src j i, fun l hl => ?_, fun l m hl hm heq => ?_⟩
  · obtain rfl | hlj := eq_or_ne l j
    · rw [update_self, hself]
      exact ⟨Nat.lt_succ_self _, hvalid, rfl⟩
    · rw [update_of_ne hlj]
      rw [hother l hlj] at hl ⊢
      exact ⟨(hsrc l hl).1.trans (Nat.lt_succ_self _), (hsrc l hl).2⟩
  · obtain rfl | hlj := eq_or_ne l j
    · obtain rfl | hmj := eq_or_ne m l
      · rfl
      · rw [update_self, update_of_ne hmj] at heq
        exact absurd heq.symm (hold m hmj hm)
    · obtain rfl | hmj := eq_or_ne m j
      · rw [update_self, update_of_ne hlj] at heq
        exact absurd heq (hold l hlj hl)
      · rw [update_of_ne hlj, update_of_ne hmj] at heq
        rw [hother l hlj] at hl
        rw [hother m hmj] at hm
        exact hinj l m hl hm heq

/-- The copying loop changes nothing but the regions. -/
theorem foldl_copyOne_eq (slots : List (Fin mmapPages)) (np : Proc × List ℕ) :
    ∃ vma, (slots.foldl (copyOne p) np).1 = { np.1 with vma := vma } := by
  induction slots generalizing np with
  | nil => exact ⟨np.1.vma, rfl⟩
  | cons i slots ih =>
    obtain ⟨vma, hvma⟩ := ih (copyOne p np i)
    refine ⟨vma, hvma.trans ?_⟩
    unfold copyOne
    split
    · split <;> rfl
    · rfl

/-- The whole loop, from slot `k` on. -/
theorem CopiesOf.foldl {slots : List (Fin mmapPages)} {k : ℕ}
    (hslots : slots.map Fin.val = List.range' k (mmapPages - k)) (h : CopiesOf p np.1 k) :
    CopiesOf p (slots.foldl (copyOne p) np).1 mmapPages := by
  induction slots generalizing np k with
  | nil =>
    obtain ⟨src, hsrc, hinj⟩ := h
    exact ⟨src, fun j hj => ⟨(src j).isLt, (hsrc j hj).2⟩, hinj⟩
  | cons i slots ih =>
    obtain ⟨m, hm⟩ : ∃ m, mmapPages - k = m + 1 := by
      have hlength := congrArg List.length hslots
      simp only [List.length_range'] at hlength
      exact ⟨_, hlength.symm⟩
    rw [hm, List.range'_succ, List.map_cons, List.cons.injEq] at hslots
    obtain ⟨rfl, hrest⟩ := hslots
    have hm' : m = mmapPages - (i.val + 1) := by omega
    exact ih (hm' ▸ hrest) h.turn

theorem copiesOf_copied (p : Proc) : CopiesOf p p.copied.1 0 := by
  have hnone : ∀ j, ¬ (p.copied.1.vma j).valid = true := fun _ => Bool.false_ne_true
  exact ⟨id, fun j hj => absurd hj (hnone j), fun j _ hj => absurd hj (hnone j)⟩

theorem val_finRange : (List.finRange mmapPages).map Fin.val = List.range' 0 (mmapPages - 0) := by
  rw [Nat.sub_zero, ← List.range_eq_range', List.map_coe_finRange_eq_range]

/-- The regions of a child are copies of different regions of its parent. -/
theorem copiesOf_child (p : Proc) : CopiesOf p p.child.1 mmapPages := by
  exact CopiesOf.foldl val_finRange (copiesOf_copied p)

/-- A child has the size of its parent, and the first cursor. -/
theorem child_sz (p : Proc) : p.child.1.sz = p.sz ∧ p.child.1.curMax = firstMax := by
  obtain ⟨vma, hvma⟩ := foldl_copyOne_eq (p := p) (List.finRange mmapPages) p.copied
  rw [Proc.child, hvma]
  exact ⟨rfl, rfl⟩

/-- A process whose regions are copies of different regions of another one has its layout. -/
theorem Proc.Layout.of_copies {np : Proc} (h : p.Layout) {k : ℕ} (hcopies : CopiesOf p np k)
    (hsz : np.sz = p.sz) :
    np.Layout := by
  obtain ⟨src, hsrc, hinj⟩ := hcopies
  intro j hj
  obtain ⟨-, hvalid, hcopy⟩ := hsrc j hj
  have hfits := h (src j) hvalid
  rw [hcopy]
  refine { hfits with above := hsz ▸ hfits.above, disjoint := fun l hl hlvalid => ?_ }
  obtain ⟨-, hvalid', hcopy'⟩ := hsrc l hlvalid
  rw [hcopy']
  exact hfits.disjoint (src l) (fun heq => hl (hinj l j hlvalid hj heq)) hvalid'

theorem Proc.Layout.child (h : p.Layout) : p.child.1.Layout :=
  h.of_copies (copiesOf_child p) (child_sz p).1

/-! ### What the calls do -/

section calls

variable {s t : Sys} {slot n : ℕ} {p : Proc}

theorem getProc_bind {α : Type} (f : Proc → MmapM α) (hp : s.procs slot = some p) :
    (getProc slot >>= f) s = f p s := by
  rw [getProc, bind_assoc, exec_get_bind, hp]
  rfl

theorem getProc_bind_none {α : Type} (f : Proc → MmapM α) (hp : s.procs slot = none) :
    (getProc slot >>= f) s = .error .fault s := by
  rw [getProc, bind_assoc, exec_get_bind, hp]
  rfl

/-- `sys_mmap` refuses a shared writable mapping of a file that is open for reading only. -/
def Sys.refuses (s : Sys) (slot : ℕ) (p : Proc) (prot flags fd : BitVec 32) : Bool :=
  shared flags && protWrite prot && (s.fileAt slot p fd).any fun f => !(s.files f).writable

/-- The cases in which `sys_mmap` returns -1. -/
def Sys.Rejects (s : Sys) (slot : ℕ) (p : Proc) (prot flags fd : BitVec 32) : Prop :=
  s.refuses slot p prot flags fd ∨ p.freeVma = none ∧ (s.fileAt slot p fd = none → shared flags = false)

instance (prot flags fd : BitVec 32) : Decidable (s.Rejects slot p prot flags fd) :=
  inferInstanceAs (Decidable (_ ∨ _))

variable {size prot flags fd offset : BitVec 32}

theorem sysMmap_of_rejects (hp : s.procs slot = some p) (h : s.Rejects slot p prot flags fd) :
    sysMmap slot size prot flags fd offset s = .ok failed s := by
  rw [sysMmap, getProc_bind _ hp, exec_get_bind]
  unfold Sys.Rejects Sys.refuses at h
  cases hfile : s.fileAt slot p fd with
  | none =>
    obtain ⟨hfree, hshared⟩ : p.freeVma = none ∧ shared flags = false := by simpa [hfile] using h
    simp [hshared, hfree]
  | some f =>
    simp only [hfile] at h
    by_cases hrefused : (shared flags && !(s.files f).writable && protWrite prot) = true
    · simp [hrefused]
    · have hfree : p.freeVma = none := by
        obtain hrefuses | ⟨hfree, -⟩ := h
        · exact absurd (by revert hrefuses; cases shared flags <;> cases protWrite prot <;> simp) hrefused
        · exact hfree
      simp [hfree]

/-- The state behind a mapping of file `f` in region `i`. -/
def Sys.mapped (s : Sys) (slot : ℕ) (p : Proc) (i : Fin mmapPages)
    (size prot flags fd offset : BitVec 32) (f : ℕ) :
    Sys :=
  (s.setProc slot { p.setVma i (p.newVma size prot flags fd offset f) with curMax := p.startAddr size }).addRef f 1

theorem sysMmap_of_accepts (hp : s.procs slot = some p) {f : ℕ} (hfree : p.freeVma = some i)
    (hfile : s.fileAt slot p fd = some f) (h : ¬ s.Rejects slot p prot flags fd) :
    sysMmap slot size prot flags fd offset s =
      .ok (p.startAddr size) (s.mapped slot p i size prot flags fd offset f) := by
  have hrefused : ¬ (shared flags && !(s.files f).writable && protWrite prot) = true := by
    intro hrefused
    refine h (.inl ?_)
    rw [Sys.refuses, hfile]
    revert hrefused
    cases shared flags <;> cases protWrite prot <;> simp
  rw [sysMmap, getProc_bind _ hp, exec_get_bind]
  simp [hfile, hrefused, hfree, Sys.mapped]

/-- Without a file `sys_mmap` returns -1 or follows a null pointer. -/
theorem sysMmap_of_no_file (hp : s.procs slot = some p) (hfile : s.fileAt slot p fd = none)
    (h : ¬ s.Rejects slot p prot flags fd) : sysMmap slot size prot flags fd offset s = .error .fault s := by
  rw [sysMmap, getProc_bind _ hp]
  by_cases hshared : shared flags = true
  · simp [hfile, hshared]
  · have hfree : p.freeVma ≠ none := fun hnone => h (.inr ⟨hnone, fun _ => by simpa using hshared⟩)
    obtain ⟨i, hi⟩ := Option.ne_none_iff_exists'.mp hfree
    simp [hfile, hi]

/-- Everything `sys_mmap` can do. -/
theorem sysMmap_cases (hp : s.procs slot = some p) (size prot flags fd offset : BitVec 32) :
    (s.Rejects slot p prot flags fd ∧ sysMmap slot size prot flags fd offset s = .ok failed s) ∨
    (¬ s.Rejects slot p prot flags fd ∧ s.fileAt slot p fd = none ∧
      sysMmap slot size prot flags fd offset s = .error .fault s) ∨
    ∃ i f, ¬ s.Rejects slot p prot flags fd ∧ p.freeVma = some i ∧ s.fileAt slot p fd = some f ∧
      sysMmap slot size prot flags fd offset s =
        .ok (p.startAddr size) (s.mapped slot p i size prot flags fd offset f) := by
  by_cases h : s.Rejects slot p prot flags fd
  · exact .inl ⟨h, sysMmap_of_rejects hp h⟩
  · cases hfile : s.fileAt slot p fd with
    | none => exact .inr (.inl ⟨h, rfl, sysMmap_of_no_file hp hfile h⟩)
    | some f =>
      cases hfree : p.freeVma with
      | none => exact absurd (.inr ⟨hfree, by simp [hfile]⟩) h
      | some i => exact .inr (.inr ⟨i, f, h, rfl, rfl, sysMmap_of_accepts hp hfree hfile h⟩)

/-- The end of the range that `sys_munmap` removes. -/
def munmapEnd (addr : BitVec 64) (size : BitVec 32) : ℕ := toUint64 (pgRoundDown addr.toNat + size.toInt)

/-- The region that `sys_munmap` works on. -/
def Proc.munmapVma (p : Proc) (addr : BitVec 64) (size : BitVec 32) : Option (Fin mmapPages) :=
  p.findVma fun v => v.covers (pgRoundDown addr.toNat) (munmapEnd addr size)

/-- The state behind a removal from region `i`. -/
def Sys.unmapped (s : Sys) (slot : ℕ) (p : Proc) (i : Fin mmapPages) (addr : BitVec 64)
    (size : BitVec 32) : Sys :=
  (s.setProc slot ((p.unmap (pgRoundDown addr.toNat) (munmapEnd addr size)).setVma i
    ((p.vma i).cut (pgRoundDown addr.toNat) (munmapEnd addr size) size).1)).addRef (p.vma i).file
      ((p.vma i).cut (pgRoundDown addr.toNat) (munmapEnd addr size) size).2

section

variable (hp : s.procs slot = some p)

include hp

theorem sysMunmap_eq {addr : BitVec 64} :
    sysMunmap slot addr size s = match p.munmapVma addr size with
      | none => .ok failed s
      | some i => .ok (toUint64 size.toInt) (s.unmapped slot p i addr size) := by
  rw [sysMunmap, getProc_bind _ hp]
  unfold Proc.munmapVma munmapEnd
  cases p.findVma fun v => v.covers (pgRoundDown addr.toNat)
    (toUint64 (pgRoundDown addr.toNat + size.toInt)) <;> rfl

theorem fork_eq {childSlot : ℕ} {enough : Bool} :
    fork slot childSlot enough s =
      if enough ∧ s.procs childSlot = none then
        .ok childSlot (p.child.2.foldl (fun t f => t.addRef f 1) (s.setProc childSlot p.child.1))
      else .ok failed s := by
  rw [fork, getProc_bind _ hp, exec_get_bind, exec_ite]
  rfl

theorem exec_eq {sz : ℕ} {image : ℕ → Option Bytes} :
    Mmap.exec slot sz image s = .ok 0 (s.setProc slot { p with sz := sz, page := image }) := by
  rw [Mmap.exec, getProc_bind _ hp]
  rfl

theorem sysSbrk_eq {m : BitVec 32} {enough : Bool} :
    sysSbrk slot m enough s =
      if 0 < m.toInt ∧ ¬ enough then .ok failed s
      else if p.remaps (p.grownSize m) then .error (.panic "mappages: remap") s
      else .ok p.sz (s.setProc slot (p.resize (p.grownSize m))) := by
  rw [sysSbrk, getProc_bind _ hp, exec_ite, exec_ite]
  rfl

/-- A page fault changes a page or kills the process. -/
theorem handleMmapPagefault_cases {va : ℕ} {store page table b : Bool}
    (h : handleMmapPagefault slot va i store page table s = .ok b t) :
    t = s ∨ ∃ q : Proc, t = s.setProc slot q ∧ q.sz = p.sz ∧ q.vma = p.vma ∧ q.curMax = p.curMax := by
  rw [handleMmapPagefault, getProc_bind _ hp, exec_get_bind] at h
  split at h
  · cases h
    exact .inr ⟨_, rfl, rfl, rfl, rfl⟩
  · split at h
    · cases h
      exact .inl rfl
    · split at h
      · cases h
      · split at h
        · cases h
          exact .inr ⟨_, rfl, rfl, rfl, rfl⟩
        · cases h
          exact .inr ⟨_, rfl, rfl, rfl, rfl⟩

end

end calls

/-! ### The condition -/

/-- The process that makes a call. -/
def Call.caller : Call → Option ℕ
  | .mmap slot .. | .munmap slot .. | .fork slot .. | .exec slot .. | .sbrk slot .. | .fault slot ..
  | .descriptor slot .. => some slot
  | .file .. | .write .. => none

/-- The caller is a process. -/
def Call.Enabled (s : Sys) (c : Call) : Prop := ∀ slot, c.caller = some slot → ∃ p, s.procs slot = some p

/-- A descriptor of an open file. -/
def Proc.ValidFd (p : Proc) (fd : BitVec 32) : Prop := fd.toNat < nofile ∧ p.ofile fd.toNat ≠ none

/-- The regions of a process are above a size. -/
def Proc.Above (p : Proc) (sz : ℕ) : Prop := ∀ i, (p.vma i).valid → pgRoundUp sz ≤ (p.vma i).startAd

/-- What `sys_munmap` leaves of a region fits, when it moves the start or the end of the region. The
start may move to an address that is not aligned, and with a negative size both may move
outwards. -/
def Proc.CutFits (p : Proc) (i : Fin mmapPages) (startBase endBase : ℕ) : Prop :=
  ((p.vma i).startAd = startBase → endBase < (p.vma i).endAd → p.Fits i endBase (p.vma i).endAd) ∧
  ((p.vma i).startAd < startBase → endBase = (p.vma i).endAd → p.Fits i (p.vma i).startAd startBase)

/-- The condition on a call, in terms of its arguments and the state before it. A mapping that is
not rejected has a positive size, an open file, and a free range in front of the cursor. What
`sys_munmap` leaves of a region fits. Memory does not grow into a region. -/
def Call.Meets (s : Sys) : Call → Prop
  | .mmap slot size prot flags fd _ => ∀ p, s.procs slot = some p → s.Rejects slot p prot flags fd ∨
      0 < size.toInt ∧ p.ValidFd fd ∧ ∀ i, p.freeVma = some i → p.Fits i (p.startAddr size) p.curMax
  | .munmap slot addr size => ∀ p, s.procs slot = some p → ∀ i, p.munmapVma addr size = some i →
      p.CutFits i (pgRoundDown addr.toNat) (munmapEnd addr size)
  | .exec slot sz _ => ∀ p, s.procs slot = some p → p.Above sz
  | .sbrk slot n enough => ∀ p, s.procs slot = some p → ¬ (0 < n.toInt ∧ ¬ enough) →
      ¬ p.remaps (p.grownSize n) → p.Above (p.grownSize n)
  | _ => True

/-- A call keeps the layout, and rejects a mapping without an open file or of a size that is not
positive. -/
def Call.Sound (s : Sys) (c : Call) : Prop :=
  (∀ n t, c.run s = .ok n t → t.Layout) ∧
  ∀ slot size prot flags fd offset, c = .mmap slot size prot flags fd offset →
    (∀ p, s.procs slot = some p → ¬ p.ValidFd fd) ∨ size.toInt ≤ 0 → c.run s = .ok failed s

/-! ### The condition is exact -/

variable {c : Call}

section exact

variable {s : Sys} {slot : ℕ} {p : Proc}

/-- A call of `sys_mmap`. -/
def Call.isMmap : Call → Bool
  | .mmap .. => true
  | _ => false

/-- Only mappings have arguments to reject. -/
theorem Call.sound_iff_of_not_mmap (h : c.isMmap = false) :
    c.Sound s ↔ ∀ n t, c.run s = .ok n t → t.Layout := by
  refine and_iff_left fun slot size prot flags fd offset hc => ?_
  rw [hc] at h
  cases h

theorem Proc.ValidFd.fileAt {fd : BitVec 32} (h : p.ValidFd fd) : s.fileAt slot p fd ≠ none := by
  rw [Sys.fileAt, if_pos h.1]
  exact h.2

theorem pgRoundDown_dvd (a : ℕ) : pgsize ∣ pgRoundDown a := Dvd.intro_left _ rfl

variable {size : BitVec 32}

theorem startAddr_ne_failed : p.startAddr size ≠ failed := by
  intro h
  have hdvd : pgsize ∣ failed := h ▸ pgRoundDown_dvd _
  exact absurd hdvd (by decide)

theorem layout_mapped_iff (hl : s.Layout) (hp : s.procs slot = some p)
    {prot flags fd offset : BitVec 32} {f : ℕ} :
    (s.mapped slot p i size prot flags fd offset f).Layout ↔ p.Fits i (p.startAddr size) p.curMax := by
  have hset := (hl slot p hp).setVma_iff (i := i) (p.newVma size prot flags fd offset f)
  rw [Sys.mapped, Sys.layout_addRef, hl.setProc_iff]
  constructor
  · exact fun h => hset.mp (h.congr rfl rfl) rfl
  · exact fun h => (hset.mpr fun _ => h).congr rfl rfl

theorem sound_mmap_iff (hl : s.Layout) (hp : s.procs slot = some p) {prot flags fd offset : BitVec 32} :
    (Call.mmap slot size prot flags fd offset).Sound s ↔
      (Call.mmap slot size prot flags fd offset).Meets s := by
  have hmeets : (Call.mmap slot size prot flags fd offset).Meets s ↔ s.Rejects slot p prot flags fd ∨
      0 < size.toInt ∧ p.ValidFd fd ∧ ∀ i, p.freeVma = some i → p.Fits i (p.startAddr size) p.curMax := by
    simp [Call.Meets, hp]
  have hsound : (Call.mmap slot size prot flags fd offset).Sound s ↔
      (∀ n t, sysMmap slot size prot flags fd offset s = .ok n t → t.Layout) ∧
        (¬ p.ValidFd fd ∨ size.toInt ≤ 0 → sysMmap slot size prot flags fd offset s = .ok failed s) := by
    have hfd : (∀ q, s.procs slot = some q → ¬ q.ValidFd fd) ↔ ¬ p.ValidFd fd := by simp [hp]
    rw [← hfd]
    refine and_congr Iff.rfl ⟨fun h => h _ _ _ _ _ _ rfl, fun h => ?_⟩
    intro slot' size' prot' flags' fd' offset' hc
    cases hc
    exact h
  rw [hmeets, hsound]
  obtain ⟨hrejects, hrun⟩ | ⟨hrejects, hfile, hrun⟩ | ⟨i, f, hrejects, hfree, hfile, hrun⟩ :=
    sysMmap_cases hp size prot flags fd offset
  · refine iff_of_true ⟨fun n t h => ?_, fun _ => hrun⟩ (.inl hrejects)
    cases hrun.symm.trans h
    exact hl
  · -- the null pointer is followed, and no descriptor of an open file leads here
    have hfd : ¬ p.ValidFd fd := fun h => h.fileAt hfile
    simp [hrun, hrejects, hfd]
  · simp only [hrun, hrejects, false_or]
    constructor
    · intro ⟨hlayout, hbad⟩
      have hfits := (layout_mapped_iff hl hp).mp (hlayout _ _ rfl)
      refine ⟨?_, ?_, fun j hj => ?_⟩
      · by_contra hsize
        exact startAddr_ne_failed (EStateM.Result.ok.inj (hbad (.inr (not_lt.mp hsize)))).1
      · by_contra hfd
        exact startAddr_ne_failed (EStateM.Result.ok.inj (hbad (.inl hfd))).1
      · rw [hfree] at hj
        cases hj
        exact hfits
    · intro ⟨hsize, hfd, hfits⟩
      refine ⟨fun n t h => ?_, fun hbad => ?_⟩
      · cases h
        exact (layout_mapped_iff hl hp).mpr (hfits i hfree)
      · obtain hbad | hbad := hbad
        · exact absurd hfd hbad
        · exact absurd hsize (not_lt.mpr hbad)

theorem fits_cut_iff (hl : p.Layout) {startBase endBase : ℕ} (size : BitVec 32) (hvalid : (p.vma i).valid) :
    (((p.vma i).cut startBase endBase size).1.valid →
      p.Fits i ((p.vma i).cut startBase endBase size).1.startAd
        ((p.vma i).cut startBase endBase size).1.endAd) ↔
      p.CutFits i startBase endBase := by
  unfold Vma.cut Proc.CutFits
  split
  · rename_i hfront
    simp [hfront, hvalid]
  · rename_i hfront
    split
    · rename_i hback
      simp [hback, hvalid]
    · rename_i hback
      refine iff_of_true ?_ ⟨fun h h' => absurd ⟨h, h'⟩ hfront, fun h h' => absurd ⟨h, h'⟩ hback⟩
      split
      · exact nofun
      · exact fun _ => hl i hvalid

theorem layout_unmapped_iff (hl : s.Layout) (hp : s.procs slot = some p) {addr : BitVec 64}
    (hi : p.munmapVma addr size = some i) :
    (s.unmapped slot p i addr size).Layout ↔ p.CutFits i (pgRoundDown addr.toNat) (munmapEnd addr size) := by
  have hcovers := Proc.findVma_some hi
  simp only [Vma.covers, Bool.and_eq_true] at hcovers
  have hlp := hl slot p hp
  have hunmap : (p.unmap (pgRoundDown addr.toNat) (munmapEnd addr size)).Layout := hlp.congr rfl rfl
  rw [← fits_cut_iff hlp size hcovers.1.1, Sys.unmapped, Sys.layout_addRef, hl.setProc_iff, hunmap.setVma_iff]
  exact forall_congr' fun _ => ⟨fun h => h.congr rfl fun _ _ => rfl, fun h => h.congr rfl fun _ _ => rfl⟩

/-- A call of an existing process is sound exactly when it meets the condition. -/
theorem Call.sound_iff (hl : s.Layout) (henabled : c.Enabled s) : c.Sound s ↔ c.Meets s := by
  cases c with
  | mmap slot size prot flags fd offset =>
    obtain ⟨p, hp⟩ := henabled slot rfl
    exact sound_mmap_iff hl hp
  | munmap slot addr size =>
    obtain ⟨p, hp⟩ := henabled slot rfl
    rw [sound_iff_of_not_mmap rfl, Call.run, sysMunmap_eq hp]
    have hmeets : (Call.munmap slot addr size).Meets s ↔ ∀ i, p.munmapVma addr size = some i →
        p.CutFits i (pgRoundDown addr.toNat) (munmapEnd addr size) := by simp [Call.Meets, hp]
    rw [hmeets]
    cases hi : p.munmapVma addr size with
    | none => simp [hl]
    | some i => simp [layout_unmapped_iff hl hp hi]
  | fork slot childSlot enough =>
    obtain ⟨p, hp⟩ := henabled slot rfl
    rw [sound_iff_of_not_mmap rfl, Call.run, fork_eq hp]
    refine iff_of_true (fun n t h => ?_) trivial
    split at h
    · cases h
      rw [Sys.layout_addRefs, hl.setProc_iff]
      exact (hl slot p hp).child
    · cases h
      exact hl
  | exec slot sz image =>
    obtain ⟨p, hp⟩ := henabled slot rfl
    rw [sound_iff_of_not_mmap rfl, Call.run, exec_eq hp]
    simp [Call.Meets, hp, hl.setProc_iff, (hl slot p hp).resize_iff, Proc.Above]
  | sbrk slot m enough =>
    obtain ⟨p, hp⟩ := henabled slot rfl
    rw [sound_iff_of_not_mmap rfl, Call.run, sysSbrk_eq hp]
    have hmeets : (Call.sbrk slot m enough).Meets s ↔ (¬ (0 < m.toInt ∧ ¬ enough) →
        ¬ p.remaps (p.grownSize m) → p.Above (p.grownSize m)) := by simp only [Call.Meets, hp,
          Option.some.injEq, forall_eq']
    have hresize : (p.resize (p.grownSize m)).Layout ↔ p.Above (p.grownSize m) :=
      (hl slot p hp).resize_iff rfl
    rw [hmeets]
    by_cases hfail : 0 < m.toInt ∧ ¬ enough
    · simp [hfail, hl]
    by_cases hremap : p.remaps (p.grownSize m)
    · rw [if_neg hfail]
      simp [hremap]
    · rw [if_neg hfail, if_neg hremap, ← hresize, ← hl.setProc_iff]
      constructor
      · exact fun h _ _ => h _ _ rfl
      · intro h n t ht
        cases ht
        exact h hfail hremap
  | fault slot va store page table =>
    obtain ⟨p, hp⟩ := henabled slot rfl
    rw [sound_iff_of_not_mmap rfl]
    refine iff_of_true (fun n t h => ?_) trivial
    rw [Call.run, getProc_bind _ hp] at h
    cases hi : p.checkMmapVma va with
    | none =>
      rw [hi] at h
      cases h
      exact hl
    | some i =>
      rw [hi] at h
      obtain ⟨b, u, hfault, h⟩ := bind_eq_ok.mp h
      cases h
      obtain rfl | ⟨q, rfl, hsz, hvma, -⟩ := handleMmapPagefault_cases hp hfault
      · exact hl
      · exact hl.setProc_iff.mpr ((hl slot p hp).congr hsz hvma)
  | descriptor slot fd f =>
    obtain ⟨p, hp⟩ := henabled slot rfl
    rw [sound_iff_of_not_mmap rfl]
    refine iff_of_true (fun n t h => ?_) trivial
    rw [Call.run, getProc_bind _ hp] at h
    cases h
    exact hl.setProc_iff.mpr ((hl slot p hp).congr rfl rfl)
  | file f value | write ip content =>
    rw [sound_iff_of_not_mmap rfl]
    refine iff_of_true (fun n t h => ?_) trivial
    cases h
    exact hl

end exact

/-! ### Runs -/

/-- A call that returns. -/
def Step (s : Sys) (c : Call) (t : Sys) : Prop := ∃ n, c.run s = .ok n t

/-- Only processes make calls. -/
theorem Step.enabled {s t : Sys} (h : Step s c t) : c.Enabled s := by
  intro slot hslot
  obtain ⟨n, h⟩ := h
  cases hp : s.procs slot with
  | some p => exact ⟨p, rfl⟩
  | none =>
    have hfault : c.run s = .error .fault s := by
      cases c <;> cases hslot <;> exact getProc_bind_none _ hp
    cases hfault.symm.trans h

theorem layout_boot (initcode : Bytes) : (boot initcode).Layout := by
  intro slot p hp i hvalid
  obtain rfl | hslot := eq_or_ne slot 0
  · cases hp
    cases hvalid
  · cases (if_neg hslot).symm.trans hp

/-- The state behind a call that returns. -/
def next (s : Sys) (c : Call) : Option Sys :=
  match c.run s with
  | .ok _ t => some t
  | .error _ _ => none

theorem step_of_next {s t : Sys} (h : next s c = some t) : Step s c t := by
  unfold next at h
  split at h
  · rename_i n u hrun
    cases h
    exact ⟨n, hrun⟩
  · cases h

theorem Proc.not_layout_of_overlap {j : Fin mmapPages} (hij : i ≠ j) (hi : (p.vma i).valid)
    (hj : (p.vma j).valid) (hlt : (p.vma i).startAd < (p.vma j).endAd)
    (hlt' : (p.vma j).startAd < (p.vma i).endAd) :
    ¬ p.Layout := by
  intro h
  obtain hle | hle := (h i hi).disjoint j hij.symm hj
  · exact absurd hlt' (not_lt.mpr hle)
  · exact absurd hlt (not_lt.mpr hle)

end Xv6.Mmap
