import Xv6.Vm.Release
import Xv6.Vm.Refine

/-!
# What every call keeps in order

Between calls a slot in use has a page table and an unused slot has nothing. Each call of a process
keeps it so, and keeps the ledger, whether or not memory runs out on the way. `wait` and `exec` lose
the pages behind entries at or above the size of the process they free; no call makes such entries.
-/

namespace Xv6

open Lib Function

/-- What `uvmcopy` makes of an entry. -/
def Pte.shared (e : Pte) : Pte := if e.w then { e with w := false, cow := true } else e

/-- The entry of a writer that got a page of its own. -/
def Pte.owned (e : Pte) (p : ℕ) : Pte := { e with ppn := p, w := true, cow := false }

/-- A kind of entries that the code keeps when it allocates pages it does not hold yet, breaks
sharing and makes guard pages. -/
structure Stable (ok : Pte → Prop) (held : List ℕ) : Prop where
  fresh : ∀ p w x, p ∉ held → ok ⟨p, true, w, x, true, false⟩
  owned : ∀ e p, p ∉ held → ok e → ok (e.owned p)
  guarded : ∀ e, ok e → ok { e with u := false }

theorem Pte.shared_ppn (e : Pte) : e.shared.ppn = e.ppn := by
  unfold Pte.shared
  split <;> rfl

theorem Pte.shared_w (e : Pte) : e.shared.w = false := by
  unfold Pte.shared
  cases hw : e.w <;> simp [hw]

namespace Vm

variable {s t u : Vm} {held : List ℕ} {p q slot v : ℕ} {e e' : Pte} {pr : Proc} {ok : Pte → Prop}

/-! ### Sharing and its end -/

theorem Ledger.swap (h : s.Ledger (p :: q :: held)) : s.Ledger (q :: p :: held) := by
  refine h.mono h.wf.swap rfl rfl fun x => ?_
  rw [(List.Perm.swap p q held).count_eq x]

/-- An entry moves to a page just taken; the old page is in hand. -/
theorem Still.movePte (h : Still ok s t (p :: held)) (hunused : t.Unused held p)
    (he : s.userPte slot v = some e)
    (hok : ok (e.owned p)) : (t.setPte slot v (some (e.owned p))).Orderly ok (e.ppn :: held) := by
  have het : t.userPte slot v = some e := by rw [userPte_congr h.procs, he]
  obtain ⟨pr, hpr, -⟩ := Option.bind_eq_some_iff.mp het
  obtain ⟨-, hv, htable⟩ := (h.orderly.tidy slot).leaf v e het
  have hcleared := (h.orderly.ledger.clearPte het).swap
  have hprc : (t.setPte slot v none).procs slot = some { pr with pte := update pr.pte v none } := by
    rw [setPte_procs hpr, update_self]
  have hnone : (t.setPte slot v none).userPte slot v = none := by
    rw [userPte_setPte hpr, if_pos ⟨rfl, rfl⟩]
  have hledger := Ledger.fillPte (e := e.owned p) hcleared hprc hnone fun _ =>
    h.orderly.ledger.wf.unused_clearPte hunused het
  rw [setPte_setPte] at hledger
  exact h.orderly.setPte hpr hledger hok hv htable

theorem breakCow_lands (h : Still ok s t (p :: held)) (hunused : t.Unused held p)
    (he : s.userPte slot v = some e)
    (hok : ok (e.owned p)) : Lands (breakCow slot v e p) t fun _ u => Trims ok s u held := by
  have hmoved := (h.setPage p (t.mem e.ppn)).movePte hunused he hok
  apply lands_modify
  apply lands_modify
  apply (kfree_lands hmoved).mono
  rintro _ u ⟨rfl, hdropped⟩
  refine ⟨hdropped, ?_, fun i x hx => Or.inl ?_⟩
  · exact (h.setPage p (t.mem e.ppn)).frame.trans ((frame_setPte _ slot v _).trans (frame_dropPage _ _))
  · obtain ⟨pr, hpr, -⟩ := Option.bind_eq_some_iff.mp he
    have hprt : (t.setPage p (t.mem e.ppn)).procs slot = some pr := h.procs ▸ hpr
    rw [userPte_congr dropPage_procs, userPte_setPte hprt] at hx
    split at hx
    · rename_i hix
      rw [hix.1, hix.2, he]
      simp
    · rwa [userPte_congr (t := t.setPage p (t.mem e.ppn)) (s := s) h.procs] at hx

/-- The entry of the parent loses its permission to write. -/
theorem Orderly.shareParent (h : s.Orderly ok held) (he : s.userPte slot v = some e) (hok : ok e.shared) :
    Trims ok s (s.setPte slot v (some e.shared)) held where
  orderly := h.changePte he e.shared_ppn (fun hw => absurd (e.shared_w.symm.trans hw) (by simp)) hok
  frame := frame_setPte s slot v _
  mapped i x hx := by
    obtain ⟨pr, hpr, -⟩ := Option.bind_eq_some_iff.mp he
    rw [userPte_setPte hpr] at hx
    split at hx
    · rename_i hix
      rw [hix.1, hix.2, he]
      simp
    · exact Or.inl hx

/-- The child gets an entry for a page of the parent, which is counted once more. -/
theorem Orderly.shareChild {old new : ℕ} (h : s.Orderly ok held) (he : s.userPte old v = some e)
    (hw : e.w = false)
    (hpr : s.procs new = some pr) (hfresh : s.userPte new v = none) (hok : ok e) (hv : v < trapframeVpn)
    (htable : (s.tables new).table .low (v / 2 ^ 9) ≠ none) :
    ({ s with count := update s.count e.ppn (s.count e.ppn + 1) }.setPte new v (some e)).Orderly ok held := by
  have hshared : { s with count := update s.count e.ppn (s.count e.ppn + 1) }.Orderly ok (e.ppn :: held) :=
    h.congr (h.ledger.share he hw) rfl fun _ _ _ hf => hf
  exact hshared.fillPte hpr hfresh (fun hwrite => absurd (hw.symm.trans hwrite) (by simp)) hok hv htable

theorem uvmcopyLoop_lands {old new : ℕ} (hne : old ≠ new) (s₀ : Vm) : ∀ n v s, (s.tables new).root ≠ none →
    Gained ok s₀ s held (fun i y => i = new ∧ y < v) →
    (∀ y e, v ≤ y → y < v + n → s.userPte old y = some e → ok e.shared) →
    Lands (uvmcopyLoop old new v n) s fun done t =>
      Gained ok s₀ t held fun i y => done = true ∧ i = new ∧ y < v + n := by
  intro n
  induction n with
  | zero =>
    intro v s _ h _
    exact ends_pure (h.imp fun i y hy => ⟨rfl, hy⟩)
  | succ n ih =>
    intro v s hroot h hshare
    apply getProc_lands
    intro pr hpr
    cases hpte : pr.pte v with
    | none => exact lands_throw
    | some e =>
      have he : s.userPte old v = some e := by simp [Vm.userPte, hpr, hpte]
      have hok := hshare v e le_rfl (by omega) he
      have hparent := h.orderly.shareParent he hok
      apply lands_modify
      have hentry : ∀ i y, i ≠ old ∨ y ≠ v → (s.setPte old v (some e.shared)).userPte i y =
        s.userPte i y := by
        intro i y hiy
        rw [userPte_setPte hpr, if_neg (by omega)]
      have hself : (s.setPte old v (some e.shared)).userPte old v = some e.shared := by
        rw [userPte_setPte hpr, if_pos ⟨rfl, rfl⟩]
      apply (mappages_lands hparent.orderly (hparent.frame.root new ▸ hroot) v e.shared).bind
      intro found t ht
      cases ht with
      | no hgrows =>
        apply (uvmunmap_lands new v 0 t hgrows.orderly).bind
        intro _ t' hcleared
        apply ends_pure
        refine ⟨hcleared.orderly, h.frame.trans
          (hparent.frame.trans (hgrows.frame.trans hcleared.frame)), fun i y hy => ?_⟩
        obtain ⟨hyt, hout⟩ := hcleared.ne_none hy
        rw [hgrows.userPte] at hyt
        obtain hys | hfalse := hparent.mapped i y hyt
        · refine (h.mapped i y hys).imp_right fun hin => absurd ?_ hout
          exact ⟨hin.1, by omega, by omega⟩
        · exact hfalse.elim
      | yes hgrows htable hbelow hprn hfresh =>
        rename_i w prn
        apply lands_modify
        have hprw : w.procs new = some prn := hgrows.procs ▸ hprn
        have hchild := hgrows.orderly.shareChild ((hgrows.userPte old v).trans hself) e.shared_w hprw
          ((hgrows.userPte new v).trans hfresh) hok hbelow htable
        have hframe := (frame_setPte w new v (some e.shared)).header
        refine (ih (v + 1) _ ?_ ?_ ?_).mono ?_
        · change (w.tables new).root ≠ none
          rw [hgrows.frame.root]
          exact hroot
        · refine ⟨hchild, h.frame.trans (hparent.frame.trans (hgrows.frame.trans ?_)), fun i y hy => ?_⟩
          · exact ⟨rfl, hframe, fun _ => rfl, fun _ => rfl⟩
          change (w.setPte new v (some e.shared)).userPte i y ≠ none at hy
          rw [userPte_setPte hprw] at hy
          split at hy
          · exact Or.inr (by omega)
          · rw [hgrows.userPte] at hy
            obtain hys | hfalse := hparent.mapped i y hy
            · exact (h.mapped i y hys).imp_right fun hin => by omega
            · exact hfalse.elim
        · intro y f hlow hhigh hf
          change (w.setPte new v (some e.shared)).userPte old y = some f at hf
          rw [userPte_setPte hprw, if_neg (by omega), hgrows.userPte, hentry old y (by omega)] at hf
          exact hshare y f (by omega) (by omega) hf
        · intro done u hu
          apply hu.imp
          rintro i y ⟨hdone, rfl, hhigh⟩
          exact ⟨hdone, rfl, by omega⟩

/-! ### Between calls -/

/-- Page tables are in order, a slot in use has one and lies in the process table, and an unused
slot has nothing. -/
structure Steady (ok : Pte → Prop) (s : Vm) (held : List ℕ) : Prop where
  orderly : s.Orderly ok held
  within : ∀ i, s.procs i ≠ none → i < nproc
  seated : ∀ i, s.procs i ≠ none → (s.tables i).root ≠ none
  vacant : ∀ i, s.procs i = none → s.tables i = Tables.empty

/-- The entries of a process lie below its size. -/
def FitsAt (s : Vm) (i : ℕ) : Prop := ∀ pr, s.procs i = some pr → ∀ x, pr.pte x ≠ none → x < pages pr.sz

/-- A call led from one state to another, and no process got entries at or above its size that had
none. -/
structure Advances (ok : Pte → Prop) (s t : Vm) (held : List ℕ) : Prop where
  steady : t.Steady ok held
  base : t.base = s.base
  fits : ∀ i, s.FitsAt i → t.FitsAt i

theorem Advances.refl (h : s.Steady ok held) : Advances ok s s held := ⟨h, rfl, fun _ hi => hi⟩

variable {held' : List ℕ}

theorem Advances.trans (h : Advances ok s t held') (h' : Advances ok t u held) : Advances ok s u held :=
  ⟨h'.steady, h'.base.trans h.base, fun i hi => h'.fits i (h.fits i hi)⟩

/-- Unused slots stay empty as long as the code only adds tables below roots. -/
theorem Steady.of_roots (h : s.Steady ok held) (ht : t.Orderly ok held')
    (hprocs : ∀ i, t.procs i = none ↔ s.procs i = none)
    (htrapframe : ∀ i, (t.tables i).trapframe = (s.tables i).trapframe)
    (hroot : ∀ i, (t.tables i).root = none ↔ (s.tables i).root = none) : t.Steady ok held' := by
  refine ⟨ht, fun i hi => h.within i (mt (hprocs i).mpr hi), fun i hi => ?_, fun i hi => ?_⟩
  · rw [Ne, hroot]
    exact h.seated i (mt (hprocs i).mpr hi)
  · have hempty := h.vacant i ((hprocs i).mp hi)
    have hnone : (t.tables i).root = none := (hroot i).mpr (by rw [hempty]; rfl)
    rw [Tables.ext_bare (s.tables i) (htrapframe i) hnone ((ht.tidy i).linked.table_of_root hnone), hempty]
    rfl

theorem Frame.procs_eq_none (h : Frame s t) (i : ℕ) : t.procs i = none ↔ s.procs i = none := by
  rw [← Option.not_isSome_iff_eq_none, ← Option.not_isSome_iff_eq_none, h.isSome]

variable {new : ℕ → ℕ → Prop}

theorem Steady.gained (h : s.Steady ok held) (hg : Gained ok s t held' new) :
    t.Steady ok held' :=
  h.of_roots hg.orderly hg.frame.procs_eq_none hg.frame.trapframe fun i => by rw [hg.frame.root]

variable {i : ℕ}

theorem FitsAt.gained (h : s.FitsAt i) (hg : Gained ok s t held new)
    (hnew : ∀ pr x, s.procs i = some pr → new i x → x < pages pr.sz) : t.FitsAt i := by
  intro pr' hpr' x hx
  rw [← userPte_eq hpr'] at hx
  have hused : s.procs i ≠ none := by
    rw [Ne, ← hg.frame.procs_eq_none i, hpr']
    simp
  obtain ⟨pr, hpr⟩ := Option.ne_none_iff_exists'.mp hused
  rw [hg.frame.sz hpr hpr']
  obtain hbefore | hnew' := hg.mapped i x hx
  · rw [userPte_eq hpr] at hbefore
    exact h pr hpr x hbefore
  · exact hnew pr x hpr hnew'

/-- A process whose fields stay and whose entries stay or vanish. -/
theorem FitsAt.of_header (h : s.FitsAt i)
    (hheader : (t.procs i).map Proc.header = (s.procs i).map Proc.header)
    (hmapped : ∀ x, t.userPte i x ≠ none → s.userPte i x ≠ none) : t.FitsAt i := by
  intro pr' hpr' x hx
  rw [hpr'] at hheader
  obtain ⟨pr, hpr, heq⟩ := Option.map_eq_some_iff.mp hheader.symm
  have hsz : pr.sz = pr'.sz := congrArg Prod.fst heq
  rw [← userPte_eq hpr'] at hx
  have hbefore := hmapped x hx
  rw [userPte_eq hpr] at hbefore
  rw [← hsz]
  exact h pr hpr x hbefore

theorem Steady.trims (h : s.Steady ok held) (ht : Trims ok s t held') : Advances ok s t held' :=
  ⟨h.gained ht, ht.frame.base, fun _ hi => hi.gained ht fun _ _ _ hf => hf.elim⟩

variable {procs : ℕ → Option Proc}

/-- The process table may change as long as the entries stay. -/
theorem Orderly.of_userPte (h : s.Orderly ok held)
    (hpte : ∀ i x, { s with procs := procs }.userPte i x = s.userPte i x) :
    { s with procs := procs }.Orderly ok held := by
  have hledger : { s with procs := procs }.Ledger held := by
    refine h.ledger.mono (h.ledger.wf.of_userPte hpte) rfl rfl fun q => ?_
    have href : ({ s with procs := procs } : Vm).ref = s.ref := by
      funext k
      cases k with
      | user i x => simp only [ref, hpte]
      | _ => rfl
    rw [href]
  exact h.congr hledger rfl fun i x e he => hpte i x ▸ he

/-- What `allocproc` returns, and the state it leaves behind. -/
def Seats (ok : Pte → Prop) (s : Vm) (held : List ℕ) : Option ℕ → Vm → Prop
  | none, t => t.Steady ok held ∧ t.base = s.base ∧ t.procs = s.procs
  | some slot, t => t.Steady ok held ∧ t.base = s.base ∧ s.procs slot = none ∧
    t.procs = update s.procs slot (some .fresh)

/-- `allocproc` has taken a slot, and the other slots have their roots and trapframes as before. -/
structure SeatTaken (ok : Pte → Prop) (s t : Vm) (held : List ℕ) (slot : ℕ) : Prop where
  orderly : t.Orderly ok held
  base : t.base = s.base
  procs : t.procs = update s.procs slot (some .fresh)
  trapframe : ∀ i, i ≠ slot → (t.tables i).trapframe = (s.tables i).trapframe
  root : ∀ i, i ≠ slot → (t.tables i).root = (s.tables i).root

/-- A fresh process has no entries. -/
theorem SeatTaken.userPte (ht : SeatTaken ok s t held slot) (x : ℕ) : t.userPte slot x = none := by
  rw [userPte_eq (by rw [ht.procs, update_self])]
  rfl

/-- A slot that could not be filled is empty again. -/
theorem SeatTaken.undo (ht : SeatTaken ok s t held slot) (h : s.Steady ok held)
    (hvacant : s.procs slot = none) :
    Lands (do freeproc slot; return none) t (Seats ok s held) := by
  have hbare := h.vacant slot hvacant
  apply (freeproc_lands ht.orderly (by rw [ht.procs, update_self])).bind
  rintro _ u ⟨lost, hgone, htables, hlost⟩
  apply ends_pure
  have hempty : lost = [] := hlost fun x hx => absurd (ht.userPte x) hx
  rw [hempty] at hgone
  have hsame : u.procs = s.procs := by
    rw [hgone.procs, ht.procs, update_idem, ← hvacant, update_eq_self]
  refine ⟨h.of_roots hgone.orderly (fun i => by rw [hsame]) (fun i => ?_) (fun i => ?_),
    hgone.base.trans ht.base, hsame⟩
  · rw [htables]
    obtain rfl | hi := eq_or_ne i slot
    · rw [update_self, hbare]
    · rw [update_of_ne hi, ht.trapframe i hi]
  · rw [htables]
    obtain rfl | hi := eq_or_ne i slot
    · rw [update_self, hbare]
    · rw [update_of_ne hi, ht.root i hi]

/-- A slot with a page table is seated. -/
theorem SeatTaken.steady (ht : SeatTaken ok s t held slot) (h : s.Steady ok held) (hslot : slot < nproc)
    (hroot : (t.tables slot).root ≠ none) : t.Steady ok held := by
  refine ⟨ht.orderly, fun i hi => ?_, fun i hi => ?_, fun i hi => ?_⟩
  · obtain rfl | hne := eq_or_ne i slot
    · exact hslot
    · rw [ht.procs, update_of_ne hne] at hi
      exact h.within i hi
  · obtain rfl | hne := eq_or_ne i slot
    · exact hroot
    · rw [ht.procs, update_of_ne hne] at hi
      rw [ht.root i hne]
      exact h.seated i hi
  · have hne : i ≠ slot := by
      rintro rfl
      rw [ht.procs, update_self] at hi
      cases hi
    rw [ht.procs, update_of_ne hne] at hi
    have hempty : s.tables i = Tables.empty := h.vacant i hi
    have hnone : (t.tables i).root = none := by
      rw [ht.root i hne, hempty]
      rfl
    rw [Tables.ext_bare (s.tables i) (ht.trapframe i hne) hnone
      ((ht.orderly.tidy i).linked.table_of_root hnone),
      hempty]
    rfl

/-- `allocproc` finds a slot and fills it, or leaves the process table as it was. -/
theorem allocproc_lands (h : s.Steady ok held) : Lands allocproc s (Seats ok s held) := by
  apply ends_get
  cases hfind : (List.range nproc).find? fun i => (s.procs i).isNone with
  | none => exact ends_pure ⟨h, rfl, rfl⟩
  | some slot =>
    have hvacant : s.procs slot = none := by simpa using List.find?_some hfind
    have hbare := h.vacant slot hvacant
    apply lands_modify
    generalize hs' : ({ s with procs := update s.procs slot (some .fresh) } : Vm) = s'
    have htables : s'.tables = s.tables := by rw [← hs']
    have htaken : SeatTaken ok s s' held slot := by
      subst hs'
      exact ⟨h.orderly.of_userPte (userPte_seat hvacant), rfl, rfl, fun _ _ => rfl, fun _ _ => rfl⟩
    apply (kalloc_lands htaken.orderly).bind
    intro r t ht
    cases r with
    | none =>
      have htakent : SeatTaken ok s t held slot :=
        ⟨ht.orderly, ht.base.trans htaken.base, ht.procs.trans htaken.procs,
        fun i _ => by rw [ht.tables, htables], fun i _ => by rw [ht.tables, htables]⟩
      exact htakent.undo h hvacant
    | some p =>
      obtain ⟨hstill, hunused⟩ := ht
      have htrap := hstill.setTrapframe slot hunused (by rw [htables, hbare]; rfl)
      apply lands_modify
      generalize hw : (t.modifyTables slot fun tb => { tb with trapframe := some p }) = w at htrap
      have hothers : ∀ i, i ≠ slot → w.tables i = s.tables i := by
        intro i hi
        rw [← hw, ← htables, ← hstill.tables]
        exact update_of_ne hi _ _
      have hrootw : (w.tables slot).root = none := by
        rw [← hw]
        simp [modifyTables, hstill.tables, htables, hbare, Tables.empty]
      have htakenw : SeatTaken ok s w held slot := by
        refine ⟨htrap, ?_, ?_, fun i hi => by rw [hothers i hi],
          fun i hi => by rw [hothers i hi]⟩ <;> rw [← hw]
        · exact hstill.base.trans htaken.base
        · exact hstill.procs.trans htaken.procs
      apply (procPagetable_lands htrap htakenw.userPte hrootw).bind
      intro made u hu
      have htakenu : SeatTaken ok s u held slot := ⟨hu.orderly, hu.base.trans htakenw.base,
        hu.procs.trans htakenw.procs, fun i hi => (hu.trapframe i).trans (htakenw.trapframe i hi),
        fun i hi => (hu.others i hi).trans (htakenw.root i hi)⟩
      apply ends_ite
      · intro hmade
        have hslot : slot < nproc := List.mem_range.mp (List.mem_of_find?_eq_some hfind)
        exact ends_pure ⟨htakenu.steady h hslot (hu.root.mpr hmade), htakenu.base, hvacant, htakenu.procs⟩
      · exact fun _ => htakenu.undo h hvacant

theorem FitsAt.congr (h : s.FitsAt i) (hprocs : t.procs i = s.procs i) : t.FitsAt i := by
  unfold FitsAt
  rwa [hprocs]

theorem fitsAt_of_none (h : s.procs i = none) : s.FitsAt i := by
  intro pr hpr
  rw [h] at hpr
  exact absurd hpr (by simp)

section

variable (h : s.Steady ok held)

include h

/-- Processes may change in everything but their entries. -/
theorem Steady.of_pte
    (hprocs : ∀ i, (procs i).map (·.pte) = (s.procs i).map (·.pte)) :
    { s with procs := procs }.Steady ok held := by
  have hpte : ∀ i x, { s with procs := procs }.userPte i x = s.userPte i x := by
    intro i x
    have := hprocs i
    unfold userPte
    cases hp : procs i <;> cases hs : s.procs i <;> simp_all
  refine h.of_roots (h.orderly.of_userPte hpte) (fun i => ?_) (fun _ => rfl) fun _ => Iff.rfl
  rw [← Option.map_eq_none_iff (f := fun pr : Proc => pr.pte), hprocs i, Option.map_eq_none_iff]

/-- Processes may change in everything but their entries and sizes. -/
theorem Steady.retitle
    (hprocs : ∀ i, (procs i).map (fun pr => (pr.sz, pr.pte)) = (s.procs i).map fun pr => (pr.sz, pr.pte)) :
    Advances ok s { s with procs := procs } held := by
  refine ⟨h.of_pte fun i => ?_, rfl, fun i hi pr hpr x hx => ?_⟩
  · have := congrArg (Option.map Prod.snd) (hprocs i)
    rwa [Option.map_map, Option.map_map] at this
  · have hmap := hprocs i
    have hpr : procs i = some pr := hpr
    rw [hpr] at hmap
    obtain ⟨pr', hpr', heq⟩ := Option.map_eq_some_iff.mp hmap.symm
    obtain ⟨hsz, hpte⟩ := Prod.mk.inj heq
    rw [← hsz]
    exact hi pr' hpr' x (hpte ▸ hx)

/-- A process gets a new size, above all its entries. -/
theorem Steady.resize {f : Proc → Proc} {sz : ℕ}
    (hg : Gained ok s t held' new) (hpte : ∀ pr, (f pr).pte = pr.pte) (hsz : ∀ pr, (f pr).sz = sz)
    (hnew : ∀ i x, new i x → i = slot) (hfits : s.FitsAt slot → ∀ x, t.userPte slot x ≠ none → x < pages sz) :
    Advances ok s (t.modifyProc slot f) held' := by
  refine ⟨(h.gained hg).of_pte fun i => ?_, hg.frame.base, fun i hi => ?_⟩
  · obtain rfl | hne := eq_or_ne i slot
    · cases t.procs i <;> simp [hpte]
    · simp [hne]
  · obtain rfl | hne := eq_or_ne i slot
    · intro pr hpr x hx
      have hpr : (t.procs i).map f = some pr := (update_self i _ _).symm.trans hpr
      obtain ⟨pr', hpr', rfl⟩ := Option.map_eq_some_iff.mp hpr
      rw [hsz]
      apply hfits hi
      rwa [hpte, ← userPte_eq hpr'] at hx
    · have ht : t.FitsAt i := hi.gained hg fun pr x _ hx => absurd (hnew i x hx) hne
      exact ht.congr (update_of_ne hne _ _)

/-- A process that is gone leaves the others as they were. -/
theorem Gone.advances (hgone : Gone ok s t held' slot)
    (htables : t.tables = update s.tables slot Tables.empty) : Advances ok s t held' := by
  have hvacant : ∀ i, t.procs i ≠ none → i ≠ slot ∧ t.procs i = s.procs i := by
    intro i hi
    have hne : i ≠ slot := by
      rintro rfl
      rw [hgone.procs, update_self] at hi
      exact hi rfl
    exact ⟨hne, by rw [hgone.procs, update_of_ne hne]⟩
  refine ⟨⟨hgone.orderly, fun i hi => ?_, fun i hi => ?_, fun i hi => ?_⟩, hgone.base, fun i hi => ?_⟩
  · obtain ⟨-, hsame⟩ := hvacant i hi
    exact h.within i (hsame ▸ hi)
  · obtain ⟨hne, hsame⟩ := hvacant i hi
    rw [htables, update_of_ne hne]
    exact h.seated i (hsame ▸ hi)
  · rw [htables]
    obtain rfl | hne := eq_or_ne i slot
    · rw [update_self]
    · rw [hgone.procs, update_of_ne hne] at hi
      rw [update_of_ne hne]
      exact h.vacant i hi
  · by_cases hnone : t.procs i = none
    · exact fitsAt_of_none hnone
    · exact hi.congr (hvacant i hnone).2

/-! ### Calls -/

theorem fork_lands (hpr : s.procs slot = some pr)
    (hshare : ∀ y e, y < pages pr.sz → pr.pte y = some e → ok e.shared) :
    Lands (fork slot) s fun _ t => Advances ok s t held := by
  apply (allocproc_lands h).bind
  intro r t ht
  cases r with
  | none =>
    obtain ⟨hsteady, hbase, hprocs⟩ := ht
    exact ends_pure ⟨hsteady, hbase, fun i hi => hi.congr (by rw [hprocs])⟩
  | some child =>
    obtain ⟨hsteady, hbase, hvacant, hprocs⟩ := ht
    have hne : slot ≠ child := by
      rintro rfl
      rw [hvacant] at hpr
      exact absurd hpr (by simp)
    have hprt : t.procs slot = some pr := by rw [hprocs, update_of_ne hne, hpr]
    have hchild : t.procs child = some .fresh := by rw [hprocs, update_self]
    have hnone : ∀ x, t.userPte child x = none := fun x => by rw [userPte_eq hchild]; rfl
    have halloc : Advances ok s t held := by
      refine ⟨hsteady, hbase, fun i hi => ?_⟩
      obtain rfl | hi' := eq_or_ne i child
      · intro pr' hpr' x hx
        rw [hchild] at hpr'
        rw [← Option.some.inj hpr'] at hx
        exact absurd rfl hx
      · exact hi.congr (by rw [hprocs, update_of_ne hi'])
    have hroot : (t.tables child).root ≠ none := hsteady.seated child (by simp [hchild])
    apply lands_of_ok (getProc_ok hprt)
    apply (uvmcopyLoop_lands hne t (pages pr.sz) 0 t hroot (.refl hsteady.orderly) ?_).bind
    · intro done u hu
      apply ends_ite
      · intro hdone
        apply lands_modify
        apply ends_pure
        apply halloc.trans
        refine hsteady.resize hu (fun _ => rfl) (fun _ => rfl) (fun i x hx => hx.2.1) fun _ x hx => ?_
        obtain hbefore | ⟨-, -, hlt⟩ := hu.mapped child x hx
        · exact absurd (hnone x) hbefore
        · simpa using hlt
      · intro hfailed
        have htrims : Trims ok t u held := hu.imp fun i x hx => hfailed hx.1
        obtain ⟨pr', hpr'⟩ := hu.frame.exists_proc hchild
        apply (freeproc_lands hu.orderly hpr').bind
        rintro _ w ⟨lost, hgone, htables, hlost⟩
        apply ends_pure
        have hempty : lost = [] := by
          apply hlost
          intro x hx
          obtain hbefore | hfalse := htrims.mapped child x hx
          · exact absurd (hnone x) hbefore
          · exact hfalse.elim
        rw [hempty] at hgone
        have hsteady' := hsteady.trims htrims
        exact halloc.trans (hsteady'.trans (Gone.advances hsteady'.steady hgone htables))
    · intro y e _ hy he
      rw [userPte_eq hprt] at he
      exact hshare y e (by simpa using hy) he

theorem exit_lands (slot : ℕ) (status : List UInt8) :
    Lands (exit slot status) s fun _ t => Advances ok s t held := by
  apply ends_ite
  · exact fun _ => lands_throw
  · intro _
    have hparents : Advances ok s { s with procs := fun i => (s.procs i).map (Proc.reparent slot) } held := by
      apply h.retitle
      intro i
      rw [Option.map_map]
      congr 1
      funext pr
      unfold Function.comp Proc.reparent
      split <;> rfl
    apply ends_modify
    apply hparents.trans
    refine hparents.steady.retitle fun i => ?_
    obtain rfl | hne := eq_or_ne i slot
    · rw [update_self, Option.map_map]
      rfl
    · rw [update_of_ne hne]

theorem killedExit_lands (slot : ℕ) :
    Lands (killedExit slot) s fun _ t => Advances ok s t held := by
  apply (exit_lands h slot _).bind
  exact fun _ _ ht => ends_pure ht

end

/-- Writing into a page. -/
theorem Orderly.write (h : s.Orderly ok held) (p off : ℕ) (data : List UInt8) :
    Trims ok s (s.writePage p off data) held :=
  ⟨h.setPage p _, ⟨rfl, fun _ => rfl, fun _ => rfl, fun _ => rfl⟩, fun _ _ hx => Or.inl hx⟩

section

variable (hok : Stable ok held)

include hok

theorem handlePagefault_lands (h : s.Orderly ok held) (slot va : ℕ) (store : Bool) :
    Lands (handlePagefault slot va store) s fun _ t => Trims ok s t held := by
  apply ends_ite
  · exact fun _ => ends_pure (.refl h)
  · intro _
    apply ends_ite
    · exact fun _ => ends_pure (.refl h)
    · intro _
      apply getProc_lands
      intro pr hpr
      cases hpte : pr.pte (va / pgsize) with
      | none => exact ends_pure (.refl h)
      | some e =>
        have he : s.userPte slot (va / pgsize) = some e := by rw [userPte_eq hpr, hpte]
        apply ends_ite
        · exact fun _ => ends_pure (.refl h)
        · intro _
          apply (kalloc_lands h).bind
          intro r t ht
          cases r with
          | none =>
            apply (uvmunmap_lands slot _ 0 t ht.orderly).bind
            exact fun _ u hu => ends_pure (ht.trims.trans hu.trims)
          | some p =>
            apply (breakCow_lands ht.1 ht.2 he
              (hok.owned e p (not_mem_of_unused ht.2) ((h.tidy slot).leaf _ e he).1)).bind
            exact fun _ u hu => ends_pure hu

theorem userStore_lands (slot va : ℕ) (b : UInt8) : ∀ fuel s, s.Steady ok held →
    Lands (userStore slot va b fuel) s fun _ t => Advances ok s t held := by
  intro fuel
  induction fuel with
  | zero => exact fun s _ => lands_throw
  | succ fuel ih =>
    intro s h
    apply getProc_lands
    intro pr hpr
    cases hpte : (pr.pte (va / pgsize)).filter fun e => e.u && e.w with
    | some e =>
      apply lands_modify
      exact ends_pure (h.trims (h.orderly.write _ _ _))
    | none =>
      apply (handlePagefault_lands hok h.orderly slot va true).bind
      intro killed t ht
      have hadv := h.trims ht
      apply ends_ite
      · intro _
        exact (killedExit_lands hadv.steady slot).mono fun _ u hu => hadv.trans hu
      · intro _
        exact (ih t hadv.steady).mono fun _ u hu => hadv.trans hu

theorem userLoad_lands (h : s.Steady ok held) (slot va : ℕ) :
    Lands (userLoad slot va) s fun _ t => Advances ok s t held := by
  apply getProc_lands
  intro pr hpr
  cases hpte : (pr.pte (va / pgsize)).filter fun e => e.u && e.r with
  | some e => exact ends_get (ends_pure (.refl h))
  | none =>
    apply (handlePagefault_lands hok h.orderly slot va false).bind
    intro killed t ht
    have hadv := h.trims ht
    apply ends_ite
    · intro _
      exact (killedExit_lands hadv.steady slot).mono fun _ u hu => hadv.trans hu
    · exact fun _ => ends_pure hadv

theorem copyoutLoop_lands (slot : ℕ) : ∀ fuel dstva src s, s.Orderly ok held →
    Lands (copyoutLoop slot fuel dstva src) s fun _ t => Trims ok s t held := by
  intro fuel
  induction fuel with
  | zero => exact fun _ _ s h => ends_pure (.refl h)
  | succ fuel ih =>
    intro dstva src s h
    cases src with
    | nil => exact ends_pure (.refl h)
    | cons b src =>
      apply ends_ite
      · exact fun _ => ends_pure (.refl h)
      · intro _
        apply getProc_lands
        intro pr hpr
        cases hpte : (pr.pte (dstva / pgsize)).filter (·.u) with
        | none => exact ends_pure (.refl h)
        | some e =>
          have he : s.userPte slot (dstva / pgsize) = some e := by
            rw [userPte_eq hpr]
            exact (Option.filter_eq_some_iff.mp hpte).1
          apply ends_ite
          · intro _
            apply (kalloc_lands h).bind
            intro r t ht
            cases r with
            | none => exact lands_throw
            | some p =>
              apply (breakCow_lands ht.1 ht.2 he
                (hok.owned e p (not_mem_of_unused ht.2) ((h.tidy slot).leaf _ e he).1)).bind
              intro _ u hu
              have hwrite := hu.trans (hu.orderly.write p (dstva % pgsize)
                ((b :: src).take (min (pgsize - dstva % pgsize) (b :: src).length)))
              apply lands_modify
              exact (ih _ _ _ hwrite.orderly).mono fun _ w hw => hwrite.trans hw
          · intro _
            apply ends_ite
            · exact fun _ => ends_pure (.refl h)
            · intro _
              have hwrite := h.write e.ppn (dstva % pgsize)
                ((b :: src).take (min (pgsize - dstva % pgsize) (b :: src).length))
              apply lands_modify
              exact (ih _ _ _ hwrite.orderly).mono fun _ w hw => hwrite.trans hw

omit hok in
theorem copyinLoop_lands (slot : ℕ) : ∀ fuel srcva len s,
    Lands (copyinLoop slot fuel srcva len) s fun _ t => t = s := by
  intro fuel
  induction fuel with
  | zero => exact fun _ _ s => ends_pure rfl
  | succ fuel ih =>
    intro srcva len s
    apply ends_ite
    · exact fun _ => ends_pure rfl
    · intro _
      apply ends_ite
      · exact fun _ => ends_pure rfl
      · intro _
        apply getProc_lands
        intro pr hpr
        cases hpte : (pr.pte (srcva / pgsize)).filter (·.u) with
        | none => exact ends_pure rfl
        | some e =>
          apply ends_get
          apply (ih _ _ s).bind
          exact fun _ _ ht => ends_pure ht

theorem growproc_lands (h : s.Steady ok held) (hpr : s.procs slot = some pr) (n : ℤ) :
    Lands (growproc slot n) s fun _ t => Advances ok s t held := by
  apply lands_of_ok (getProc_ok hpr)
  have hroot : (s.tables slot).root ≠ none := h.seated slot (by simp [hpr])
  have hbelow : s.FitsAt slot → ∀ x, s.userPte slot x ≠ none → x < pages pr.sz := by
    intro hfits x hx
    rw [userPte_eq hpr] at hx
    exact hfits pr hpr x hx
  apply ends_ite
  · intro _
    apply (uvmalloc_lands (hok.fresh · true false) h.orderly hroot pr.sz _).bind
    rintro sz t ⟨hsz, hgained⟩
    apply ends_ite
    · rintro rfl
      apply ends_pure
      apply h.trims
      apply hgained.imp
      rintro i x ⟨-, -, hlt⟩
      exact absurd hlt (by simp [pages_zero])
    · intro hpos
      apply lands_modify
      apply ends_pure
      refine h.resize hgained (fun _ => rfl) (fun _ => rfl) (fun i x hx => hx.1) fun hfits x hx => ?_
      have hle : pages pr.sz ≤ pages sz := pages_mono (by omega)
      obtain hbefore | ⟨-, -, hlt⟩ := hgained.mapped slot x hx
      · exact lt_of_lt_of_le (hbelow hfits x hbefore) hle
      · exact hlt
  · intro _
    apply ends_ite
    · intro _
      apply (uvmdealloc_lands h.orderly slot pr.sz _).bind
      rintro sz t ⟨hsz, hcleared⟩
      apply lands_modify
      apply ends_pure
      refine h.resize hcleared.trims (fun _ => rfl) (fun _ => rfl) (fun _ _ hf => hf.elim)
        fun hfits x hx => ?_
      obtain ⟨hbefore, hout⟩ := hcleared.ne_none hx
      have hlt := hbelow hfits x hbefore
      obtain hle | hle := Nat.le_total pr.sz ((pr.sz + n) % 2 ^ 64).toNat
      · rwa [hsz, min_eq_left hle]
      · rw [hsz, min_eq_right hle]
        omega
    · intro _
      apply ends_bind
      apply ends_pure
      apply lands_modify
      apply ends_pure
      exact h.resize (.refl h.orderly) (fun _ => rfl) (fun _ => rfl) (fun _ _ => False.elim) hbelow

/-- A child that is reaped gives its pages back, but for those behind entries at or above its
size. -/
theorem reap_lands (h : s.Steady ok held) (slot addr c : ℕ) :
    Lands (reap slot addr c) s fun _ t => ∃ lost, Advances ok s t (lost ++ held) ∧
      (s.FitsAt c → lost = []) := by
  apply getProc_lands
  intro pr hpr
  have hsend : Lands (sendStatus slot addr pr.xstate) s fun _ t => Trims ok s t held := by
    apply ends_ite
    · exact fun _ => ends_pure (.refl h.orderly)
    · exact fun _ => copyoutLoop_lands hok slot _ _ _ s h.orderly
  apply hsend.bind
  intro sent t ht
  have hadv := h.trims ht
  apply ends_ite
  · intro _
    obtain ⟨pr', hpr'⟩ := ht.frame.exists_proc hpr
    apply (freeproc_lands ht.orderly hpr').bind
    rintro _ u ⟨lost, hgone, htables, hlost⟩
    apply ends_pure
    refine ⟨lost, hadv.trans (Gone.advances hadv.steady hgone htables), fun hfits => hlost fun x hx => ?_⟩
    rw [userPte_eq hpr'] at hx
    exact hadv.fits c hfits pr' hpr' x hx
  · exact fun _ => ends_pure ⟨[], hadv, fun _ => rfl⟩

theorem wait_lands (h : s.Steady ok held) (slot addr : ℕ) :
    Lands (wait slot addr) s fun _ t => ∃ lost, Advances ok s t (lost ++ held) ∧
      ((∀ c, s.isZombie slot c = true → s.FitsAt c) → lost = []) := by
  apply ends_get
  cases hfind : (List.range nproc).find? (s.isZombie slot) with
  | none => exact ends_pure ⟨[], .refl h, fun _ => rfl⟩
  | some c =>
    apply (reap_lands hok h slot addr c).mono
    rintro _ t ⟨lost, hadv, hlost⟩
    exact ⟨lost, hadv, fun hfits => hlost (hfits c (List.find?_some hfind))⟩

end

end Vm

/-- What a call shares is of a given kind afterwards. -/
def Call.Shares (ok : Pte → Prop) (s : Vm) (slot : ℕ) : Call → Prop
  | .fork => ∀ pr, s.procs slot = some pr → ∀ y e, y < pages pr.sz → pr.pte y = some e → ok e.shared
  | _ => True

/-- The processes that a call may free have no entries at or above their size. -/
def Call.Neat (s : Vm) (slot : ℕ) : Call → Prop
  | .wait _ => ∀ c, s.isZombie slot c = true → s.FitsAt c
  | _ => True

/-- What every call keeps in order. -/
theorem Call.exec_lands {ok : Pte → Prop} {s : Vm} {held : List ℕ} {slot : ℕ} {pr : Proc}
    (hok : Stable ok held)
    (h : s.Steady ok held) (hpr : s.procs slot = some pr) (c : Call) (hshare : c.Shares ok s slot) :
    Lands (c.exec slot) s fun _ t => ∃ lost, Vm.Advances ok s t (lost ++ held) ∧
      (c.Neat s slot → lost = []) := by
  have hkeep : ∀ {α : Type} {m : VmM α}, (Lands m s fun _ t => Vm.Advances ok s t held) →
      Lands m s fun _ t => ∃ lost, Vm.Advances ok s t (lost ++ held) ∧ (c.Neat s slot → lost = []) :=
    fun hm => hm.mono fun _ t ht => ⟨[], ht, fun _ => rfl⟩
  cases c with
  | fork => exact hkeep (Vm.fork_lands h hpr (hshare pr hpr))
  | store va b => exact hkeep (Vm.userStore_lands hok slot va b 3 s h)
  | load va => exact hkeep (Vm.userLoad_lands hok h slot va)
  | copyout dstva src =>
    apply hkeep
    apply (Vm.copyoutLoop_lands hok slot _ _ _ s h.orderly).bind
    exact fun _ t ht => ends_pure (h.trims ht)
  | copyin srcva len =>
    apply hkeep
    apply (Vm.copyinLoop_lands slot _ _ _ s).bind
    rintro data t rfl
    cases data with
    | none | some data => exact ends_pure (.refl h)
  | growproc n =>
    apply hkeep
    apply (Vm.growproc_lands hok h hpr n).bind
    exact fun _ t ht => ends_pure ht
  | exit status =>
    apply hkeep
    apply (Vm.exit_lands h slot status).bind
    exact fun _ t ht => ends_pure ht
  | wait addr => exact Vm.wait_lands hok h slot addr

end Xv6
