import Xv6.Vm.Space

/-!
# Copying on write

`uvmcopy` shares the pages of the parent, and the two places where a shared page is about to
be written give the writer a page of its own. Neither changes what a process sees, and a
write to a page that may be written changes the page of one process.
-/

namespace Xv6

open Lib Function

namespace Vm

variable {s t u : Vm} {held : List ℕ} {p q slot v : ℕ} {e e' : Pte} {pr : Proc} {m : Eager}

/-! ### Sharing -/

/-- An entry is replaced by one for the same page that allows no more and looks the same. -/
theorem Wf.weakenPte (h : s.Wf held) (he : s.userPte slot v = some e) (hppn : e'.ppn = e.ppn)
    (hw : e'.w = false)
    (himage : e'.image s.mem = e.image s.mem) : Reaches s (s.setPte slot v (some e')) held s.view := by
  refine ⟨?_, ?_, fun _ => rfl⟩
  · exact h.congr (t := s.setPte slot v (some e')) (ref_changePte he hppn) rfl rfl rfl
      (excl_changePte he (by simp [hw]))
  · rw [view_setPte, Option.map_some, himage]
    apply Eager.setPage_self
    rw [view_page, he, Option.map_some]

/-- A second process gets an entry for a page that is not written through the first one. -/
theorem Wf.sharePte {i x : ℕ} (h : s.Wf held) (he : s.userPte i x = some e) (hw : e.w = false)
    (hpr : s.procs slot = some pr) (hnone : s.userPte slot v = none) :
    Reaches s ({ s with count := update s.count e.ppn (s.count e.ppn + 1) }.setPte slot v (some e)) held
      (s.view.setPage slot v (some (e.image s.mem))) where
  wf := by
    have hshared := h.share (ref_user he) ((excl_user he).trans hw)
    exact hshared.fillPte (s := { s with count := _ }) hpr hnone fun hwrite =>
      absurd (hw.symm.trans hwrite) (by simp)
  view := view_setPte { s with count := _ } slot v (some e)
  root _ := rfl

/-- The entry that parent and child share. -/
theorem shared_entry (mem : ℕ → Bytes) (e : Pte) {e' : Pte}
    (h : e' = if e.w then { e with w := false, cow := true } else e) :
    e'.ppn = e.ppn ∧ e'.w = false ∧ e'.image mem = e.image mem := by
  subst h
  cases hw : e.w <;> simp [Pte.image, hw]

/-- The child after the pages `v` up to `v + n` of the parent were shared. -/
def withCopies (po pn : ProcImage) (v n : ℕ) : ProcImage :=
  { pn with page := fun x => if v ≤ x ∧ x < v + n then po.page x else pn.page x }

theorem withCopies_zero (po pn : ProcImage) (v : ℕ) : withCopies po pn v 0 = pn := by
  have : ∀ x, ¬ (v ≤ x ∧ x < v) := fun x hx => by omega
  simp [withCopies, this]

theorem withCopies_succ (po pn : ProcImage) (v n : ℕ) :
    withCopies po { pn with page := update pn.page v (po.page v) } (v + 1) n =
      withCopies po pn v (n + 1) := by
  unfold withCopies
  ext1
  · rfl
  · rfl
  · rfl
  · rfl
  · funext x
    obtain rfl | hx := eq_or_ne x v
    · simp
    · have hlow : v + 1 ≤ x ↔ v ≤ x := by omega
      have hhigh : x < v + 1 + n ↔ x < v + (n + 1) := by omega
      simp [hlow, hhigh, hx]

theorem uvmcopyLoop_spec {old new : ℕ} (hne : old ≠ new) (po : ProcImage) : ∀ n v s pn, s.Wf held →
    s.view old = some po → s.view new = some pn →
    (∀ x, v ≤ x → x < v + n → (po.page x).isSome ∧ pn.page x = none) → v + n ≤ trapframeVpn →
    Fed (uvmcopyLoop old new v n) s
      (fun ok t => ok = true ∧ Reaches s t held (update s.view new (some (withCopies po pn v n))))
      fun _ => False := by
  intro n
  induction n with
  | zero =>
    intro v s pn h _ hnew _ _
    apply endsUnless_pure
    rw [withCopies_zero, ← hnew, update_eq_self]
    exact ⟨rfl, .refl h⟩
  | succ n ih =>
    intro v s pn h hold hnew hpages hbound
    obtain ⟨hsome, hfree⟩ := hpages v le_rfl (by omega)
    have hpage : s.view.page old v = po.page v := by simp [Eager.page, hold]
    have hnone : s.view.page new v = none := by simp [Eager.page, hnew, hfree]
    obtain ⟨e, he⟩ := isSome_view_page.mp (hpage ▸ hsome)
    obtain ⟨pr, hpr, hpte⟩ := Option.bind_eq_some_iff.mp he
    have hkeeps (e : Pte) (ok : Bool) : Keeps Starved (if ok then do
          modify fun s => { s with count := update s.count e.ppn (s.count e.ppn + 1) }
          uvmcopyLoop old new (v + 1) n
        else do
          uvmunmap new 0 v
          return false) :=
      keeps_ite (keeps_modify_then (fun _ => keeps_uvmcopyLoop old new n (v + 1)) fun _ => rfl)
        ((keeps_uvmunmap new _ _).bind fun _ => keeps_pure _)
    apply endsUnless_of_ok (getProc_ok hpr)
    simp only [hpte]
    apply endsUnless_modify
    generalize hshared : (if e.w then { e with w := false, cow := true } else e : Pte) = e'
    obtain ⟨hppn, hw, himage⟩ := shared_entry s.mem e hshared.symm
    have hweak := h.weakenPte he hppn hw himage
    have hold' : (s.setPte old v (some e')).userPte old v = some e' := by
      rw [userPte_setPte hpr, if_pos ⟨rfl, rfl⟩]
    obtain ⟨prn, hprn, -⟩ := view_eq_some.mp (show (s.setPte old v (some e')).view new =
      some pn by rw [hweak.view, hnew])
    have hnone' : (s.setPte old v (some e')).userPte new v = none := by
      rw [← hweak.view, view_page] at hnone
      exact Option.map_eq_none_iff.mp hnone
    refine EndsUnless.bind (hkeeps e') ((mappages_spec hweak.wf hprn v e').mono ?_ ?_)
    · rintro _ _ ⟨rfl, -, -, u, hquiet, rfl⟩
      apply endsUnless_modify
      have hprnu : u.procs new = some prn := hquiet.procs ▸ hprn
      have hshare := hquiet.wf.sharePte (hquiet.userPte ▸ hold') hw hprnu (hquiet.userPte ▸ hnone')
      have hmem : u.mem e'.ppn = s.mem e'.ppn := hquiet.mem _ (Or.inr ⟨old, v, e', hold', rfl⟩)
      have hcopy : some (e'.image u.mem) = po.page v := by
        rw [← hpage, view_page, he, Option.map_some, ← himage]
        simp only [Pte.image, hmem]
      have hstep := (hweak.trans hquiet.reaches).trans hshare
      rw [hquiet.view, hweak.view, hcopy, Eager.setPage, Eager.modifyProc, hnew] at hstep
      refine (ih (v + 1) _ _ hstep.wf ?_ (hstep.view ▸ update_self _ _ _) ?_ (by omega)).mono ?_
        fun _ hf => hf
      · rw [hstep.view, update_of_ne hne, hold]
      · intro x hlow hhigh
        obtain ⟨hxsome, hxfree⟩ := hpages x (by omega) (by omega)
        exact ⟨hxsome, (update_of_ne (by omega) _ _).trans hxfree⟩
      · rintro _ t ⟨rfl, ht⟩
        have hall := hstep.trans ht
        rw [hstep.view, update_idem, withCopies_succ] at hall
        exact ⟨rfl, hall⟩
    · rintro _ (hle | hsome)
      · exact absurd hle (by omega)
      · rw [hnone'] at hsome
        exact absurd hsome (by simp)

/-! ### Giving a writer its own page -/

theorem setPte_setPte (s : Vm) (slot v : ℕ) (o o' : Option Pte) :
    (s.setPte slot v o).setPte slot v o' = s.setPte slot v o' := by
  unfold setPte modifyProc
  cases s.procs slot <;> simp

/-- An entry moves to a page just taken; the old page is in hand. -/
theorem Taken.movePte (h : Taken s t held p) (he : s.userPte slot v = some e) (hppn : e'.ppn = p) :
    (t.setPte slot v (some e')).Wf (e.ppn :: held) := by
  subst hppn
  obtain ⟨pr, hpr, -⟩ := Option.bind_eq_some_iff.mp he
  have hprt : t.procs slot = some pr := h.procs ▸ hpr
  have het : t.userPte slot v = some e := by rw [userPte, h.procs, ← userPte, he]
  have hcleared := (h.wf.clearPte het).swap
  rw [← setPte_setPte t slot v none]
  have hprc : (t.setPte slot v none).procs slot = some { pr with pte := update pr.pte v none } := by
    rw [setPte_procs hprt, update_self]
  apply hcleared.fillPte hprc _ fun _ => h.wf.unused_clearPte h.unused het
  rw [userPte_setPte hprt, if_pos ⟨rfl, rfl⟩]

theorem breakCow_spec (h : Taken s t held p) (he : s.userPte slot v = some e) (hcow : e.cow = true) :
    Ends (breakCow slot v e p) t
      (fun _ u => Reaches s u held s.view ∧
        u.userPte slot v = some { e with ppn := p, w := true, cow := false })
      fun _ => False := by
  have hne : e.ppn ≠ p := h.userPte_ne he
  obtain ⟨pr, hpr, -⟩ := Option.bind_eq_some_iff.mp he
  have hcopied := h.setPage (t.mem e.ppn)
  have hmem : (t.setPage p (t.mem e.ppn)).mem p = s.mem e.ppn :=
    (update_self _ _ _).trans (h.mem _ hne)
  have hmoved : ((t.setPage p (t.mem e.ppn)).setPte slot v
    (some { e with ppn := p, w := true, cow := false })).Wf
      (e.ppn :: held) := hcopied.movePte he rfl
  apply ends_bind
  apply ends_modify
  apply ends_bind
  apply ends_modify
  generalize t.setPage p (t.mem e.ppn) = t at hcopied hmem hmoved
  have hrange : InRange (t.setPte slot v (some { e with ppn := p, w := true, cow := false })).base e.ppn :=
    hmoved.counted.ok_ref _ (by simp)
  rw [Ends, kfree_ok hrange]
  refine ⟨⟨hmoved.dropPage, ?_, fun i => ?_⟩, ?_⟩
  · rw [hmoved.view_dropPage, view_setPte, hcopied.view]
    apply Eager.setPage_self
    rw [view_page, he]
    simp [Pte.image, hmem, hcow]
  · rw [dropPage_tables]
    exact congrArg Tables.root (congrFun hcopied.tables i)
  · unfold userPte
    rw [dropPage_procs, ← userPte, userPte_setPte (hcopied.procs ▸ hpr), if_pos ⟨rfl, rfl⟩]

/-! ### Writing -/

/-- A write through an entry that allows it changes one page of one process. -/
theorem Wf.write (h : s.Wf held) (he : s.userPte slot v = some e) (hw : e.w = true) (off : ℕ)
    (data : List UInt8) :
    Reaches s (s.writePage e.ppn off data) held (s.view.writePage slot v off data) := by
  refine ⟨h.congr rfl rfl rfl rfl fun _ hk => hk, ?_, fun _ => rfl⟩
  obtain ⟨pr, hpr, hpte⟩ := Option.bind_eq_some_iff.mp he
  -- no other entry of any process leads to the page
  have hother : ∀ i x f, s.userPte i x = some f → f.ppn = e.ppn → i = slot ∧ x = v := by
    intro i x f hf hppn
    have hkey : s.ref (.user i x) = some e.ppn := by rw [ref_user hf, hppn]
    have := h.eq_of_excl (ref_user he) ((excl_user he).trans hw) hkey
    simpa using this
  have himage : s.view slot = some (pr.image s.mem) := by simp [Vm.view, hpr]
  apply Eager.ext_page
  · intro i
    rw [Eager.writePage, Eager.header_setPage]
    unfold Vm.view writePage setPage
    cases s.procs i <;> rfl
  · intro i x
    rw [Eager.writePage, Eager.page_setPage himage, view_page, view_page, view_page]
    change Option.map _ (s.userPte i x) = _
    by_cases hix : i = slot ∧ x = v
    · rw [hix.1, hix.2, he]
      simp [Pte.image, writePage, setPage]
    · rw [if_neg hix]
      cases hf : s.userPte i x with
      | none => rfl
      | some f =>
        have hne : f.ppn ≠ e.ppn := fun hppn => hix (hother i x f hf hppn)
        simp [Pte.image, writePage, setPage, hne]

end Vm

end Xv6
