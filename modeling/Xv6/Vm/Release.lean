import Xv6.Vm.Ledger

/-!
# Making and freeing processes

A page table whose tables hang together is freed as a whole, and a process that goes away gives all
its pages back, but for those of entries at or above its size, which nobody frees. Making a process
that fails for want of memory leaves everything as it was.
-/

namespace Xv6

open Lib Function

/-- What is left of the kernel's pages of a slot when its page table is gone. -/
def Tables.bare (tb : Tables) : Tables := { Tables.empty with trapframe := tb.trapframe }

theorem Tables.ext_bare (tb : Tables) {tb' : Tables} (htrapframe : tb'.trapframe = tb.trapframe)
    (hroot : tb'.root = none)
    (htable : ∀ level a, tb'.table level a = none) : tb' = tb.bare := by
  obtain ⟨trapframe, root, table⟩ := tb'
  obtain rfl : table = fun _ _ => none := funext fun level => funext fun a => htable level a
  obtain rfl : root = none := hroot
  obtain rfl : trapframe = tb.trapframe := htrapframe
  rfl

variable {tb : Tables}

/-- `freewalk` finds every table. -/
theorem Tables.Linked.mem_positions (h : tb.Linked) {level : Level} {a : ℕ} (ha : tb.table level a ≠ none) :
    (level, a) ∈ tb.positions := by
  unfold Tables.positions
  rw [List.mem_flatMap]
  cases level with
  | mid =>
    obtain ⟨hlt, -⟩ := h.mid a ha
    refine ⟨a, List.mem_range.mpr hlt, ?_⟩
    rw [if_pos (Option.isSome_iff_ne_none.mpr ha)]
    simp
  | low =>
    have hmid := h.low a ha
    obtain ⟨hlt, -⟩ := h.mid _ hmid
    refine ⟨a / 512, List.mem_range.mpr hlt, ?_⟩
    rw [if_pos (Option.isSome_iff_ne_none.mpr hmid), List.mem_append, List.mem_map]
    exact Or.inl ⟨a % 512, List.mem_range.mpr (Nat.mod_lt _ (by decide)), by rw [Nat.div_add_mod]⟩

theorem Tables.Linked.table_of_root (h : tb.Linked) (hroot : tb.root = none) (level : Level) (a : ℕ) :
    tb.table level a = none := by
  have hmid : ∀ a, tb.table .mid a = none := by
    intro a
    by_contra ha
    exact (h.mid a ha).2 hroot
  cases level with
  | mid => exact hmid a
  | low =>
    by_contra ha
    exact h.low a ha (hmid _)

theorem Tables.Linked.bare (tb : Tables) : tb.bare.Linked :=
  ⟨fun _ h => absurd rfl h, fun _ h => absurd rfl h⟩

namespace Vm

variable {s t u : Vm} {held : List ℕ} {p q slot v : ℕ} {e e' : Pte} {pr : Proc} {ok : Pte → Prop}

theorem unfound_eq (h : tb.Linked) : unfound tb = tb.bare := by
  refine Tables.ext_bare tb ?_ ?_ fun level a => ?_
  · rfl
  · rfl
  · unfold unfound
    by_cases ha : tb.table level a = none
    · simp [ha]
    · simp [h.mem_positions ha]

/-! ### Page tables -/

theorem Ledger.dropAll {ps : List ℕ} (h : s.Ledger (ps ++ held)) : (s.dropAll ps).Ledger held := by
  induction ps generalizing s with
  | nil => exact h
  | cons p ps ih => exact ih (Ledger.dropPage h)

theorem dropAll_procs (s : Vm) (ps : List ℕ) : (s.dropAll ps).procs = s.procs := by
  induction ps generalizing s with
  | nil => rfl
  | cons p ps ih => rw [dropAll_cons, ih, dropPage_procs]

theorem dropAll_base (s : Vm) (ps : List ℕ) : (s.dropAll ps).base = s.base := by
  induction ps generalizing s with
  | nil => rfl
  | cons p ps ih => rw [dropAll_cons, ih, dropPage_base]

/-- All tables of a page table are taken in hand. -/
theorem Ledger.clearTables (h : s.Ledger held) (hlinked : (s.tables slot).Linked) :
    (s.modifyTables slot Tables.bare).Ledger ((s.tables slot).pages ++ held) := by
  have hsame : s.modifyTables slot Tables.bare = s.modifyTables slot unfound := by
    unfold modifyTables
    rw [unfound_eq hlinked]
  rw [hsame]
  refine h.mono (h.wf.clearFound slot) rfl rfl fun q => ?_
  have htotal := refs_clearKeys h.wf.counted.finite (tableKeys_nodup slot (s.tables slot)) q
  rw [filterMap_tableKeys] at htotal
  rw [ref_unfound, List.count_append]
  omega

/-- The page table of a slot is gone, but for entries that nobody took out. -/
structure Freed (s t : Vm) (held : List ℕ) (slot : ℕ) : Prop where
  ledger : t.Ledger held
  base : t.base = s.base
  others : ∀ i, i ≠ slot → t.procs i = s.procs i
  header : (t.procs slot).map Proc.header = (s.procs slot).map Proc.header
  tables : t.tables = update s.tables slot (s.tables slot).bare

theorem freewalk_lands (h : s.Ledger held) (hlinked : (s.tables slot).Linked) :
    Lands (freewalk slot) s fun _ t => Freed s t held slot ∧ t.procs = s.procs := by
  have hrun : freewalk slot s = .ok () ((s.modifyTables slot Tables.bare).dropAll (s.tables slot).pages) :=
    freewalk_ok h.wf slot
  rw [Lands, ends_ok hrun]
  have hprocs := dropAll_procs (s.modifyTables slot Tables.bare) (s.tables slot).pages
  refine ⟨⟨(h.clearTables hlinked).dropAll, dropAll_base _ _, fun i _ => ?_, ?_, ?_⟩, hprocs⟩
  · rw [hprocs]
    rfl
  · rw [hprocs]
    rfl
  · rw [dropAll_tables]
    rfl

theorem Freed.of_cleared {n : ℕ} (h : Cleared ok s t held slot 0 n) (h' : Freed t u held slot) :
    Freed s u held slot where
  ledger := h'.ledger
  base := h'.base.trans h.frame.base
  others i hi := (h'.others i hi).trans (h.others i hi)
  header := h'.header.trans (h.frame.header slot)
  tables := by rw [h'.tables, h.tables]

theorem pages_zero : pages 0 = 0 := by decide

theorem uvmfree_lands (h : s.Orderly ok held) (slot sz : ℕ) :
    Lands (uvmfree slot sz) s fun _ t => Freed s t held slot ∧
      ∀ x, t.userPte slot x ≠ none → s.userPte slot x ≠ none ∧ pages sz ≤ x := by
  have hwalk : ∀ n t, Cleared ok s t held slot 0 n → Lands (freewalk slot) t fun _ u => Freed s u held slot ∧
      ∀ x, u.userPte slot x ≠ none → s.userPte slot x ≠ none ∧ n ≤ x := by
    intro n t ht
    apply (freewalk_lands ht.orderly.ledger (ht.orderly.tidy slot).linked).mono
    rintro _ u ⟨hfreed, hprocs⟩
    refine ⟨hfreed.of_cleared ht, fun x hx => ?_⟩
    rw [userPte_congr hprocs] at hx
    obtain ⟨hne, hout⟩ := ht.ne_none hx
    exact ⟨hne, by omega⟩
  apply ends_ite
  · intro _
    apply (uvmunmap_lands slot _ 0 s h).bind
    intro _ t ht
    rw [Nat.zero_add] at ht
    exact hwalk _ t ht
  · intro hzero
    obtain rfl : sz = 0 := by omega
    exact hwalk (pages 0) s (.refl h (by decide))

/-- A slot without a root table has no entries. -/
theorem Tidy.userPte_of_root {i : ℕ} (h : s.Tidy ok i) (hroot : (s.tables i).root = none)
    (x : ℕ) : s.userPte i x = none := by
  by_contra hne
  obtain ⟨e, he⟩ := Option.ne_none_iff_exists'.mp hne
  exact (h.leaf x e he).2.2 (h.linked.table_of_root hroot _ _)

theorem procFreepagetable_lands (h : s.Orderly ok held) (hpr : s.procs slot = some pr) :
    Lands (procFreepagetable slot) s fun _ t => Freed s t held slot ∧
      ∀ x, t.userPte slot x ≠ none → s.userPte slot x ≠ none ∧ pages pr.sz ≤ x := by
  apply ends_get
  apply ends_ite
  · intro _
    exact lands_of_ok (getProc_ok hpr) (uvmfree_lands h slot pr.sz)
  · intro hnone
    rw [Option.not_isSome_iff_eq_none] at hnone
    apply ends_pure
    refine ⟨⟨h.ledger, rfl, fun _ _ => rfl, rfl, ?_⟩, fun x hx => ?_⟩
    · rw [← Tables.ext_bare (s.tables slot) rfl hnone ((h.tidy slot).linked.table_of_root hnone),
        update_eq_self]
    · exact absurd ((h.tidy slot).userPte_of_root hnone x) hx

/-! ### Giving up a process -/

/-- A process is forgotten; the pages of the entries it still has stay behind. -/
theorem Ledger.abandon (h : s.Ledger held) (slot : ℕ) :
    ∃ lost, { s with procs := update s.procs slot none }.Ledger (lost ++ held) ∧
      ((∀ x, s.userPte slot x = none) → lost = []) := by
  have hfinite : {k | s.ref k ≠ none ∧ ∃ x, k = .user slot x}.Finite :=
    h.wf.counted.finite.subset fun k hk => hk.1
  have hmem : ∀ k, k ∈ hfinite.toFinset.toList ↔ s.ref k ≠ none ∧ ∃ x, k = .user slot x := by simp
  generalize hfinite.toFinset.toList = ks, hfinite.toFinset.nodup_toList = hnodup at hmem
  have href : ({ s with procs := update s.procs slot none } : Vm).ref = clearKeys s.ref ks := by
    funext k
    unfold clearKeys
    split
    · obtain ⟨-, x, rfl⟩ := (hmem k).mp ‹_›
      simp [ref, userPte]
    · rename_i hout
      rw [hmem] at hout
      cases k with
      | user i x =>
        obtain rfl | hi := eq_or_ne i slot
        · have hnone : s.ref (.user i x) = none := by
            by_contra hne
            exact hout ⟨hne, x, rfl⟩
          rw [hnone]
          simp [ref, userPte]
        · simp [ref, userPte, hi]
      | _ => rfl
  refine ⟨ks.filterMap s.ref, h.mono ?_ rfl rfl fun q => ?_, fun hempty => ?_⟩
  · refine h.wf.removeAll (t := { s with procs := update s.procs slot none }) hnodup href rfl rfl rfl ?_
    intro j hj
    cases j with
    | user i x =>
      obtain rfl | hi := eq_or_ne i slot
      · have hnone : s.userPte i x = none := by
          by_contra hne
          apply hj
          rw [hmem]
          exact ⟨by simp [ref, hne], x, rfl⟩
        have hgone : ({ s with procs := update s.procs i none } : Vm).userPte i x = none := by simp [userPte]
        rw [excl, excl, hnone, hgone]
      · simp [excl, userPte, hi]
    | _ => rfl
  · have htotal := refs_clearKeys h.wf.counted.finite hnodup q
    rw [href, List.count_append]
    omega
  · rw [List.filterMap_eq_nil_iff]
    intro k hk
    obtain ⟨hne, x, rfl⟩ := (hmem k).mp hk
    simp [ref, hempty x] at hne

/-- A process is gone. -/
structure Gone (ok : Pte → Prop) (s t : Vm) (held : List ℕ) (slot : ℕ) : Prop where
  orderly : t.Orderly ok held
  base : t.base = s.base
  procs : t.procs = update s.procs slot none

theorem Freed.abandon (h : Freed s t held slot) (hs : ∀ i, i ≠ slot → s.Tidy ok i) :
    ∃ lost, Gone ok s { t with procs := update t.procs slot none } (lost ++ held) slot ∧
      ((∀ x, t.userPte slot x = none) → lost = []) := by
  obtain ⟨lost, hledger, hlost⟩ := h.ledger.abandon slot
  refine ⟨lost, ⟨⟨hledger, fun i => ?_⟩, h.base, ?_⟩, hlost⟩
  · obtain rfl | hi := eq_or_ne i slot
    · constructor
      · rw [h.tables, update_self]
        exact .bare _
      · intro x e he
        simp [userPte] at he
    · refine (hs i hi).congr ?_ fun x e he => ?_
      · rw [h.tables, update_of_ne hi]
      · simp only [userPte, update_of_ne hi, h.others i hi] at he
        exact he
  · funext i
    obtain rfl | hi := eq_or_ne i slot
    · simp
    · simp [hi, h.others i hi]

/-- `discard` frees the page table of a slot; a page is lost only behind an entry at or above the
size. -/
theorem discard_lands (h : s.Orderly ok held) (hpr : s.procs slot = some pr) :
    Lands (discard slot) s fun _ t => ∃ lost, Gone ok s t (lost ++ held) slot ∧
      t.tables = update s.tables slot (s.tables slot).bare ∧
      ((∀ x, s.userPte slot x ≠ none → x < pages pr.sz) → lost = []) := by
  apply (procFreepagetable_lands h hpr).bind
  rintro _ t ⟨hfreed, hleft⟩
  obtain ⟨lost, hgone, hlost⟩ := hfreed.abandon fun i _ => h.tidy i
  apply ends_modify
  refine ⟨lost, hgone, hfreed.tables, fun hfits => hlost fun x => ?_⟩
  by_contra hne
  obtain ⟨hbefore, hle⟩ := hleft x hne
  exact absurd (hfits x hbefore) (by omega)

theorem freeTrapframe_lands (h : s.Orderly ok held) (slot : ℕ) :
    Lands (freeTrapframe slot) s fun _ t => t.Orderly ok held ∧ t.base = s.base ∧ t.procs = s.procs ∧
      t.tables = update s.tables slot { s.tables slot with trapframe := none } := by
  apply ends_get
  cases hp : (s.tables slot).trapframe with
  | none =>
    apply ends_pure
    refine ⟨h, rfl, rfl, ?_⟩
    rw [← hp, update_eq_self]
  | some p =>
    have hplace : s.ref (.trapframe slot) = some p := hp
    have hwf : (s.modifyTables slot fun tb => { tb with trapframe := none }).Wf (p :: held) :=
      h.ledger.wf.remove hplace (ref_setTrapframe s slot none) rfl rfl rfl fun _ _ => rfl
    have hledger : (s.modifyTables slot fun tb => { tb with trapframe := none }).Ledger (p :: held) := by
      refine h.ledger.mono hwf rfl rfl fun q => ?_
      rw [ref_setTrapframe, refs_remove h.ledger.wf.counted.finite hplace]
    apply lands_of_ok (kfree_ok (h.ledger.wf.inRange hplace))
    apply ends_modify
    rw [dropPage_modifyTables]
    have htables : ∀ i, ((s.modifyTables slot
      fun tb => { tb with trapframe := none }).tables i).table = (s.tables i).table ∧
        ((s.modifyTables slot fun tb => { tb with trapframe := none }).tables i).root =
          (s.tables i).root := by
      intro i
      obtain rfl | hi := eq_or_ne i slot <;> simp [modifyTables, *]
    refine ⟨⟨hledger.dropPage, fun i => ?_⟩, dropPage_base, dropPage_procs, dropPage_tables⟩
    obtain ⟨htable, hroot⟩ := htables i
    refine ⟨⟨fun a ha => ?_, fun a ha => ?_⟩, fun x e he => ?_⟩
    · rw [dropPage_tables, htable] at ha
      rw [dropPage_tables, hroot]
      exact (h.tidy i).linked.mid a ha
    · rw [dropPage_tables, htable] at ha ⊢
      exact (h.tidy i).linked.low a ha
    · rw [userPte_congr dropPage_procs] at he
      rw [dropPage_tables, htable]
      exact (h.tidy i).leaf x e he

theorem freeproc_lands (h : s.Orderly ok held) (hpr : s.procs slot = some pr) :
    Lands (freeproc slot) s fun _ t => ∃ lost, Gone ok s t (lost ++ held) slot ∧
      t.tables = update s.tables slot Tables.empty ∧
      ((∀ x, s.userPte slot x ≠ none → x < pages pr.sz) → lost = []) := by
  apply (freeTrapframe_lands h slot).bind
  rintro _ t ⟨ht, hbase, hprocs, htables⟩
  apply (discard_lands ht (hprocs ▸ hpr)).mono
  rintro _ u ⟨lost, hgone, htables', hlost⟩
  refine ⟨lost, ⟨hgone.orderly, hgone.base.trans hbase, by rw [hgone.procs, hprocs]⟩, ?_,
    fun hfits => hlost ?_⟩
  · rw [htables', htables, update_idem, update_self]
    rfl
  · intro x hx
    rw [userPte_congr hprocs] at hx
    exact hfits x hx

/-! ### Making a process -/

/-- A page in hand is stored beside the tables of a slot. -/
theorem Orderly.setTables (h : t.Orderly ok (p :: held)) {f : Tables → Tables} {k : Place}
    (hwf : (t.modifyTables slot f).Wf held) (href : (t.modifyTables slot f).ref = update t.ref k (some p))
    (hnone : t.ref k = none) (hlinked : (f (t.tables slot)).Linked)
    (htable : (f (t.tables slot)).table = (t.tables slot).table) :
    (t.modifyTables slot f).Orderly ok held := by
  refine ⟨h.ledger.mono hwf rfl rfl fun q => ?_, fun i => ?_⟩
  · rw [href, refs_store h.ledger.wf.counted.finite hnone]
  · obtain rfl | hi := eq_or_ne i slot
    · refine ⟨?_, fun x e he => ?_⟩ <;> simp only [modifyTables, update_self]
      · exact hlinked
      · rw [htable]
        exact (h.tidy i).leaf x e he
    · exact (h.tidy i).congr (by simp [modifyTables, hi]) fun x e he => he

/-- A page in hand becomes the root of a slot without a page table. -/
theorem Still.setRoot (h : Still ok s t (p :: held)) (slot : ℕ) (hunused : t.Unused held p)
    (hroot : (s.tables slot).root = none) :
    (t.modifyTables slot fun tb => { tb with root := some p }).Orderly ok held := by
  have hlinked := (h.orderly.tidy slot).linked
  refine h.orderly.setTables (h.orderly.ledger.wf.setRoot hunused slot) (ref_setRoot t slot _) ?_
    ⟨fun a ha => ⟨(hlinked.mid a ha).1, by simp⟩, hlinked.low⟩ rfl
  simp only [ref, h.tables]
  exact hroot

/-- A page in hand becomes the trapframe of a slot that has none. -/
theorem Still.setTrapframe (h : Still ok s t (p :: held)) (slot : ℕ) (hunused : t.Unused held p)
    (hnone : (s.tables slot).trapframe = none) :
    (t.modifyTables slot fun tb => { tb with trapframe := some p }).Orderly ok held := by
  have hlinked := (h.orderly.tidy slot).linked
  refine h.orderly.setTables (h.orderly.ledger.wf.setTrapframe hunused slot) (ref_setTrapframe t slot _) ?_
    ⟨hlinked.mid, hlinked.low⟩ rfl
  simp only [ref, h.tables]
  exact hnone

/-- What `proc_pagetable` leaves behind: on success a root, on failure no page table. -/
structure Rooted (ok : Pte → Prop) (s t : Vm) (held : List ℕ) (slot : ℕ) (made : Bool) : Prop where
  orderly : t.Orderly ok held
  base : t.base = s.base
  procs : t.procs = s.procs
  trapframe : ∀ i, (t.tables i).trapframe = (s.tables i).trapframe
  others : ∀ i, i ≠ slot → (t.tables i).root = (s.tables i).root
  root : (t.tables slot).root ≠ none ↔ made = true

theorem procPagetable_lands (h : s.Orderly ok held) (hempty : ∀ x, s.userPte slot x = none)
    (hroot : (s.tables slot).root = none) :
    Lands (procPagetable slot) s fun made t => Rooted ok s t held slot made := by
  apply (kalloc_lands h).bind
  intro r t ht
  cases r with
  | none =>
    apply ends_pure
    refine ⟨ht.orderly, ht.base, ht.procs, fun i => by rw [ht.tables], fun i _ => by rw [ht.tables], ?_⟩
    simp [ht.tables, hroot]
  | some p =>
    obtain ⟨hstill, hunused⟩ := ht
    have hpage := hstill.setPage p fun _ => 0
    have hordered := hpage.setRoot slot hunused hroot
    apply lands_modify
    generalize hw : ((t.setPage p fun _ => 0).modifyTables slot
      fun tb => { tb with root := some p }) = w at hordered
    have hprocs : w.procs = s.procs := hw ▸ hpage.procs
    have hbase : w.base = s.base := hw ▸ hpage.base
    have hmade : (w.tables slot).root ≠ none := by
      rw [← hw]
      simp [modifyTables]
    have htrapframe : ∀ i, (w.tables i).trapframe = (s.tables i).trapframe := by
      intro i
      rw [← hw, ← hpage.tables]
      obtain rfl | hi := eq_or_ne i slot <;> simp [modifyTables, *]
    have hothers : ∀ i, i ≠ slot → (w.tables i).root = (s.tables i).root := by
      intro i hi
      rw [← hw, ← hpage.tables]
      simp [modifyTables, hi]
    -- on failure the tables made so far are freed
    have hundo : ∀ u, Grows ok w u held → Lands (do uvmfree slot 0; return false) u fun made t =>
        Rooted ok s t held slot made := by
      intro u hu
      apply (freewalk_lands hu.orderly.ledger (hu.orderly.tidy slot).linked).bind
      rintro _ t ⟨hfreed, hkept⟩
      apply ends_pure
      have hprocs' : t.procs = s.procs := hkept.trans (hu.procs.trans hprocs)
      refine ⟨⟨hfreed.ledger, fun i => ?_⟩, ?_, hprocs', fun i => ?_, fun i hi => ?_, ?_⟩
      · obtain rfl | hi := eq_or_ne i slot
        · constructor
          · rw [hfreed.tables, update_self]
            exact .bare _
          · intro x e he
            rw [userPte_congr hprocs', hempty] at he
            exact absurd he (by simp)
        · apply (hu.orderly.tidy i).congr
          · rw [hfreed.tables, update_of_ne hi]
          · intro x e he
            rwa [userPte, hfreed.others i hi] at he
      · rw [hfreed.base, hu.frame.base, hbase]
      · rw [hfreed.tables]
        obtain rfl | hi := eq_or_ne i slot
        · rw [update_self, Tables.bare, hu.frame.trapframe, htrapframe]
        · rw [update_of_ne hi, hu.frame.trapframe, htrapframe]
      · rw [hfreed.tables, update_of_ne hi, hu.frame.root, hothers i hi]
      · rw [hfreed.tables]
        simp [Tables.bare, Tables.empty]
    apply (walkAlloc_lands hordered hmade).bind
    rintro found u ⟨hu, -⟩
    apply ends_ite
    · intro _
      apply (walkAlloc_lands hu.orderly (hu.frame.root slot ▸ hmade)).bind
      rintro found' u' ⟨hu', -⟩
      have hgrows := hu.trans hu'
      apply ends_ite
      · intro _
        apply ends_pure
        refine ⟨hgrows.orderly, hgrows.frame.base.trans hbase, hgrows.procs.trans hprocs,
          fun i => ?_, fun i hi => ?_, ?_⟩
        · rw [hgrows.frame.trapframe, htrapframe]
        · rw [hgrows.frame.root, hothers i hi]
        · simp [hgrows.frame.root, hmade]
      · exact fun _ => hundo u' hgrows
    · exact fun _ => hundo u hu

end Vm

end Xv6
