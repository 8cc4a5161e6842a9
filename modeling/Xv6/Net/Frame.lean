import Xv6.Net.Listeners

/-!
# What a call leaves alone

Every section of a user call works on one block. Beside that block it changes only blocks that wait
in a backlog, which a release may clear; backlogs lose blocks, and only sleeps on the block itself
begin.
-/

namespace Xv6.Tcp

open Function

namespace Net

/-- A section of process `p` works on the block `i`. -/
structure WorksOn (p i : ℕ) (n n' : Net) : Prop where
  other : ∀ j, j ≠ i → n'.slot j = n.slot j ∨
    (∃ q, j ∈ (n.slot q).backlog ∧ (n'.slot q).backlog = []) ∧ n'.slot j = .zero
  backlog : ∀ q, (n'.slot q).backlog.Sublist (n.slot q).backlog
  wait : ∀ q w, n'.wait q = some w → n.wait q = some w ∨ q = p ∧ w.block = i

variable {n n' n'' : Net} {p i : ℕ}

theorem WorksOn.refl (p i : ℕ) (n : Net) : WorksOn p i n n :=
  ⟨fun _ _ => .inl rfl, fun _ => .refl _, fun _ _ => .inl⟩

theorem WorksOn.trans (h : WorksOn p i n n') (h' : WorksOn p i n' n'') : WorksOn p i n n'' where
  other j hj := by
    obtain hsame' | ⟨⟨q, hq, hnil⟩, hzero⟩ := h'.other j hj
    · rw [hsame']
      obtain hsame | ⟨⟨q, hq, hnil⟩, hzero⟩ := h.other j hj
      · exact .inl hsame
      · have hsub := h'.backlog q
        rw [hnil] at hsub
        exact .inr ⟨⟨q, hq, List.sublist_nil.mp hsub⟩, hzero⟩
    · exact .inr ⟨⟨q, (h.backlog q).subset hq, hnil⟩, hzero⟩
  backlog q := (h'.backlog q).trans (h.backlog q)
  wait q w hw := by
    obtain hw | hblock := h'.wait q w hw
    · exact h.wait q w hw
    · exact .inr hblock

/-- A block that waits in no backlog is left alone. -/
theorem WorksOn.untouched (h : WorksOn p i n n') {j : ℕ} (hj : j ≠ i) (halone : ∀ q, j ∉ (n.slot q).backlog) :
    n'.slot j = n.slot j := by
  obtain hsame | ⟨⟨q, hq, -⟩, -⟩ := h.other j hj
  · exact hsame
  · exact absurd hq (halone q)

/-- A block that waits nowhere is not put into a backlog. -/
theorem WorksOn.alone (h : WorksOn p i n n') {j : ℕ} (halone : ∀ q, j ∉ (n.slot q).backlog) (q : ℕ) :
    j ∉ (n'.slot q).backlog := fun hmem => halone q ((h.backlog q).subset hmem)

/-- A change of the block itself that adds nothing to its backlog. -/
theorem worksOn_modify (n : Net) (i : ℕ) (f : Slot → Slot)
    (h : (f (n.slot i)).backlog.Sublist (n.slot i).backlog) :
    WorksOn p i n (n.modify i f) where
  other j hj := .inl (by rw [slot_modify, if_neg hj])
  backlog q := by
    rw [slot_modify]
    split_ifs with hq
    · exact hq ▸ h
    · exact .refl _
  wait _ _ := .inl

/-- A release clears the block, and blocks of backlogs that it empties. -/
theorem worksOn_release (n : Net) (i : ℕ) : WorksOn p i n (n.release i) where
  other j hj := by
    obtain hsame | ⟨hfrom, hzero⟩ := releaseLoop_other (queued n.slot + 1) [i] n.slot j
    · exact .inl hsame
    · obtain hmem | ⟨q, hq, hcleared⟩ := hfrom
      · exact absurd (List.mem_singleton.mp hmem) hj
      · exact .inr ⟨⟨q, hq, congrArg Slot.backlog hcleared⟩, hzero⟩
  backlog q := by
    obtain h | h := releaseLoop_cases (queued n.slot + 1) [i] n.slot q
    · have hsame : ((n.release i).slot q).backlog = (n.slot q).backlog := congrArg Slot.backlog h
      rw [hsame]
    · have hnil : ((n.release i).slot q).backlog = [] := congrArg Slot.backlog h
      rw [hnil]
      exact List.nil_sublist _
  wait _ _ := .inl

theorem Writes.worksOn {S : State → Prop} {E : Endpoint × Endpoint → Prop}
    (h : Writes p i S E n n') : WorksOn p i n n' := by
  induction h with
  | done n => exact .refl p i n
  | release n => exact worksOn_release n i
  | @write n n' f wait _ _ _ hbacklog hwait _ ih =>
    have hmodify := worksOn_modify (p := p) n i f hbacklog
    have hfirst : WorksOn p i n { n.modify i f with wait := wait } := ⟨hmodify.other, hmodify.backlog, hwait⟩
    exact hfirst.trans ih

/-- A call works on its target. -/
theorem worksOn_call (n : Net) (p : ℕ) {c : Call} (htarget : n.target c = some i) :
    WorksOn p i n (c.run n p).2 := by
  by_cases hopen : c = .openSocket
  · subst hopen
    change n.firstFree = some i at htarget
    simp only [Call.run, openSocket, htarget]
    exact (worksOn_modify n i _ (.refl _)).trans (worksOn_modify _ i _ (.refl _))
  · exact (writes_call n p htarget hopen).worksOn

/-! ### Parents -/

/-- The block keeps its parent and its mode, or it is free. -/
def SameOwner (i : ℕ) (n n' : Net) : Prop :=
  n'.state i = .free ∨ (n'.slot i).pcb.parent = (n.slot i).pcb.parent ∧ (n'.slot i).pcb.mode =
    (n.slot i).pcb.mode

theorem SameOwner.refl (i : ℕ) (n : Net) : SameOwner i n n := .inr ⟨rfl, rfl⟩

/-- A release frees a block or keeps its parent. -/
theorem sameOwner_release (n : Net) (i j : ℕ) : SameOwner j n (n.release i) := by
  obtain h | h := releaseLoop_cases (queued n.slot + 1) [i] n.slot j
  · exact .inr ⟨congrArg (·.pcb.parent) h, congrArg (·.pcb.mode) h⟩
  · exact .inl (congrArg (·.pcb.state) h)

/-- A change of the block that keeps parent and mode, and what follows. -/
theorem SameOwner.of_modify {f : Slot → Slot} {wait : ℕ → Option Wait}
    (hparent : (f (n.slot i)).pcb.parent = (n.slot i).pcb.parent)
    (hmode : (f (n.slot i)).pcb.mode = (n.slot i).pcb.mode)
    (h : SameOwner i { n.modify i f with wait := wait } n') : SameOwner i n n' := by
  have hslot : ({ n.modify i f with wait := wait } : Net).slot i = f (n.slot i) := by
    rw [slot_modify, if_pos rfl]
  unfold SameOwner at h ⊢
  rw [hslot, hparent, hmode] at h
  exact h

theorem Writes.sameOwner {S : State → Prop} {E : Endpoint × Endpoint → Prop}
    (h : Writes p i S E n n') : SameOwner i n n' := by
  induction h with
  | done n => exact .refl i n
  | release n => exact sameOwner_release n i i
  | write f wait _ howner _ _ _ _ ih => exact .of_modify howner.1 howner.2 ih

end Net

end Xv6.Tcp
