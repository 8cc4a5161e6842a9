import Xv6.Lib.Run
import Xv6.Vm.Cow

/-!
# Copying on write is copying at once

Every call that ends without running out of memory does to the view of the state what the
eager machine does, and it halts only where the eager machine has no value. Over
runs of any length, processes get the same results and read the same bytes on both.
-/

namespace Xv6

open Lib Function

namespace Vm

variable {s t u : Vm} {held : List ℕ} {p slot v : ℕ} {e : Pte} {pr : Proc} {m : Eager}

theorem userPte_eq (hpr : s.procs slot = some pr) (v : ℕ) : s.userPte slot v = pr.pte v := by
  simp [userPte, hpr]

/-- Changing fields of a process other than its entries. -/
theorem Wf.modifyProc {f : Proc → Proc} (h : s.Wf held) (hf : ∀ pr, (f pr).pte = pr.pte) :
    (s.modifyProc slot f).Wf held := by
  apply h.of_userPte
  intro i x
  obtain rfl | hi := eq_or_ne i slot
  · cases hpr : s.procs i <;> simp [userPte, hpr, hf]
  · simp [userPte, hi]

theorem view_modifyProc {f : Proc → Proc} {g : ProcImage → ProcImage}
    (hfg : ∀ pr, (f pr).image s.mem = g (pr.image s.mem)) :
    (s.modifyProc slot f).view = s.view.modifyProc slot g := by
  funext i
  obtain rfl | hi := eq_or_ne i slot
  · cases hpr : s.procs i <;> simp [Vm.view, Vm.modifyProc, Eager.modifyProc, hpr, hfg]
  · simp [Vm.view, Vm.modifyProc, Eager.modifyProc, hi]

theorem reparent_pte (slot : ℕ) (pr : Proc) : (pr.reparent slot).pte = pr.pte := by
  unfold Proc.reparent
  split <;> rfl

theorem image_reparent (mem : ℕ → Bytes) (slot : ℕ) (pr : Proc) :
    (pr.reparent slot).image mem = Eager.reparent slot (pr.image mem) := by
  by_cases h : pr.parent = some slot <;> simp [Proc.reparent, Eager.reparent, Proc.image, h]

theorem exit_spec (h : s.Wf held) (slot : ℕ) (status : List UInt8) :
    Ends (exit slot status) s
      (fun _ t => ∃ m, s.view.exit slot status = some m ∧ Reaches s t held m)
      fun _ => s.view.exit slot status = none := by
  apply ends_ite
  · intro hinit
    apply ends_throw
    rw [Eager.exit, if_pos hinit]
  · intro hinit
    apply ends_bind
    apply ends_modify
    apply ends_modify
    rw [Eager.exit, if_neg hinit]
    have hwf : { s with procs := fun i => (s.procs i).map (Proc.reparent slot) }.Wf held := by
      apply h.of_userPte
      intro i x
      cases hpr : s.procs i <;> simp [userPte, hpr, reparent_pte]
    refine ⟨_, rfl, hwf.modifyProc fun _ => rfl, ?_, fun _ => rfl⟩
    rw [view_modifyProc (g := fun im => { im with zombie := true, xstate := status }) fun _ => rfl]
    congr 1
    funext i
    cases hpr : s.procs i <;> simp [Vm.view, hpr, image_reparent]

theorem killedExit_spec (h : s.Wf held) (slot : ℕ) :
    Ends (killedExit slot) s
      (fun r t => ∃ m, s.view.kill slot = some (r, m) ∧ Reaches s t held m)
      fun _ => s.view.kill slot = none := by
  apply ends_bind
  apply (exit_spec h slot _).mono
  · rintro _ t ⟨m, hm, ht⟩
    apply ends_pure
    exact ⟨m, by rw [Eager.kill, hm, Option.map_some], ht⟩
  · intro t hnone
    rw [Eager.kill, hnone, Option.map_none]

/-! ### Loads and stores -/

variable {va : ℕ}

/-- A fault is fatal unless it is a store through an entry that waits for a copy. -/
theorem handlePagefault_kills {store : Bool} (hpr : s.procs slot = some pr)
    (hcow : store = true → ∀ e, s.userPte slot (va / pgsize) = some e → e.cow = false) :
    handlePagefault slot va store s = .ok true s := by
  unfold handlePagefault
  split
  · rfl
  · cases store with
    | false => rfl
    | true =>
      simp only [Bool.not_true, Bool.false_eq_true, if_false, exec_bind, getProc_ok hpr]
      cases hpte : pr.pte (va / pgsize) with
      | none => rfl
      | some e =>
        have := hcow rfl e ((userPte_eq hpr _).trans hpte)
        simp [this]

/-- A store through an entry that waits for a copy gets one. -/
theorem handlePagefault_copies (h : s.Wf held) (he : s.userPte slot (va / pgsize) = some e)
    (hcow : e.cow = true) (hva : va < maxVpn * pgsize) :
    Fed (handlePagefault slot va true) s
      (fun killed t => killed = false ∧ Reaches s t held s.view ∧
        ∃ p, t.userPte slot (va / pgsize) = some { e with ppn := p, w := true, cow := false })
      fun _ => False := by
  obtain ⟨pr, hpr, hpte⟩ := Option.bind_eq_some_iff.mp he
  unfold handlePagefault
  rw [if_neg (Nat.not_le.mpr hva)]
  apply endsUnless_of_ok (getProc_ok hpr)
  simp only [hpte, hcow]
  refine kalloc_then h ((keeps_uvmunmap slot _ _).bind fun _ => keeps_pure _)
    (fun _ => (keeps_breakCow _ _ _ _).bind fun _ => keeps_pure _) fun p t htaken => ?_
  apply Ends.unless
  apply ends_bind
  apply (breakCow_spec htaken he hcow).mono _ fun _ hf => hf
  rintro _ u ⟨hreach, hu⟩
  exact ends_pure ⟨rfl, hreach, p, hu⟩

/-- Below `MAXVA` there is more than the pages of a process. -/
theorem va_lt_of_page (hok : s.view.Ok) (he : s.userPte slot (va / pgsize) = some e) :
    va < maxVpn * pgsize := by
  by_contra hge
  have hvpn : trapframeVpn ≤ va / pgsize := by
    rw [Nat.le_div_iff_mul_le (by decide)]
    exact le_trans (by decide) (Nat.le_of_not_lt hge)
  have hnone : s.view.page slot (va / pgsize) = none := hok.page_none hvpn
  rw [view_page, he] at hnone
  exact absurd hnone (by simp)

theorem page_filter (s : Vm) (slot v : ℕ) (f : PageImage → Bool) :
    (s.view.page slot v).filter f = ((s.userPte slot v).filter fun e => f (e.image s.mem)).map
      (Pte.image s.mem) := by
  rw [view_page]
  cases s.userPte slot v with
  | none => rfl
  | some e => cases hf : f (e.image s.mem) <;> simp [Option.filter_some]

/-- A store when the entry does not wait for a copy. -/
theorem userStore_settled {b : UInt8} (h : s.Wf held) (hpr : s.procs slot = some pr)
    (hcow : ∀ e, s.userPte slot (va / pgsize) = some e → (e.u && e.w) = false → e.cow = false) (fuel : ℕ) :
    Ends (userStore slot va b (fuel + 1)) s
      (fun r t => ∃ m, s.view.store slot va b = some (r, m) ∧ Reaches s t held m)
      fun _ => s.view.store slot va b = none := by
  apply ends_bind
  rw [ends_ok (getProc_ok hpr), ← userPte_eq hpr]
  cases hfilter : (s.userPte slot (va / pgsize)).filter fun e => e.u && e.w with
  | some e =>
    obtain ⟨he, hperm⟩ := Option.filter_eq_some_iff.mp hfilter
    obtain ⟨hu, hw⟩ := Bool.and_eq_true_iff.mp hperm
    apply ends_bind
    apply ends_modify
    apply ends_pure
    refine ⟨_, ?_, h.write he hw _ _⟩
    rw [Eager.store, page_filter, he]
    simp [Option.filter_some, Pte.image, hu, hw]
  | none =>
    have hnone : ∀ e, s.userPte slot (va / pgsize) = some e → (e.u && e.w) = false := by
      intro e he
      simpa [he] using hfilter
    have hkill : s.view.store slot va b = s.view.kill slot := by
      rw [Eager.store, page_filter]
      cases he : s.userPte slot (va / pgsize) with
      | none => rfl
      | some e =>
        have hperm := hnone e he
        have hc := hcow e he hperm
        simp [Option.filter_some, Pte.image, hc, hperm]
    rw [hkill]
    apply ends_bind
    rw [ends_ok (handlePagefault_kills hpr fun _ e he => hcow e he (hnone e he))]
    exact killedExit_spec h slot

/-- A store, tried again after a copy was made. -/
theorem userStore_spec {b : UInt8} (h : s.Wf held) (hok : s.view.Ok) (hpr : s.procs slot = some pr)
    (fuel : ℕ) :
    Fed (userStore slot va b (fuel + 2)) s
      (fun r t => ∃ m, s.view.store slot va b = some (r, m) ∧ Reaches s t held m)
      fun _ => s.view.store slot va b = none := by
  by_cases hwaits : ∃ e, s.userPte slot (va / pgsize) = some e ∧ (e.u && e.w) = false ∧ e.cow = true
  · obtain ⟨e, he, hperm, hcow⟩ := hwaits
    apply endsUnless_of_ok (getProc_ok hpr)
    rw [← userPte_eq hpr, he]
    simp only [Option.filter_some, hperm]
    refine EndsUnless.bind (fun _ => keeps_ite (keeps_killedExit slot) (keeps_userStore slot va b _))
      ((handlePagefault_copies h he hcow (va_lt_of_page hok he)).mono ?_ fun _ hf => hf.elim)
    rintro _ t ⟨rfl, ht, p, het⟩
    obtain ⟨prt, hprt, -⟩ := Option.bind_eq_some_iff.mp het
    have hsettled : ∀ e', t.userPte slot (va / pgsize) = some e' → (e'.u && e'.w) = false →
      e'.cow = false := by
      intro e' he' _
      rw [het] at he'
      rw [← Option.some.inj he']
    have hstore := userStore_settled (b := b) ht.wf hprt hsettled fuel
    rw [ht.view] at hstore
    apply (hstore.mono _ fun _ hnone => hnone).unless
    rintro r u ⟨m, hm, hu⟩
    exact ⟨m, hm, ht.trans hu⟩
  · apply (userStore_settled h hpr _ (fuel + 1)).unless
    intro e he hperm
    by_contra hcow
    exact hwaits ⟨e, he, hperm, by simpa using hcow⟩

theorem userLoad_spec (h : s.Wf held) (hpr : s.procs slot = some pr) :
    Ends (userLoad slot va) s
      (fun r t => ∃ m, s.view.load slot va = some (r, m) ∧ Reaches s t held m)
      fun _ => s.view.load slot va = none := by
  apply ends_bind
  rw [ends_ok (getProc_ok hpr), ← userPte_eq hpr]
  rw [Eager.load, page_filter]
  simp only [Pte.image]
  cases hfilter : (s.userPte slot (va / pgsize)).filter fun e => e.u && e.r with
  | some e =>
    apply ends_get
    exact ends_pure ⟨s.view, rfl, .refl h⟩
  | none =>
    apply ends_bind
    rw [ends_ok (handlePagefault_kills hpr fun hfalse => absurd hfalse (by simp))]
    exact killedExit_spec h slot

/-! ### Copies by the kernel -/

/-- The pages the kernel may write for a process. -/
theorem copyout_filter (he : s.userPte slot v = some e) (hu : e.u = true) :
    (s.view.page slot v).filter (fun pg => pg.u && pg.w) =
      if e.w || e.cow then some (e.image s.mem) else none := by
  rw [page_filter, he]
  cases hw : e.w || e.cow <;> simp [Option.filter_some, Pte.image, hu, hw]

theorem copyoutLoop_spec (slot : ℕ) : ∀ fuel dstva src s, s.Wf held → s.view.Low slot → s.procs slot ≠ none →
    Fed (copyoutLoop slot fuel dstva src) s
      (fun ok t => ∃ m, Eager.copyout slot fuel dstva src s.view = (ok, m) ∧ Reaches s t held m)
      fun _ => False := by
  intro fuel
  induction fuel with
  | zero => exact fun dstva src s h _ _ => endsUnless_pure ⟨s.view, rfl, .refl h⟩
  | succ fuel ih =>
    intro dstva src s h hlow hslot
    cases src with
    | nil => exact endsUnless_pure ⟨s.view, rfl, .refl h⟩
    | cons b src =>
      obtain ⟨pr, hpr⟩ := Option.ne_none_iff_exists'.mp hslot
      -- the rest of the copy, behind a page that is written
      have hrest : ∀ t e', Reaches s t held s.view → t.userPte slot (dstva / pgsize) = some e' → e'.u = true →
          e'.w = true →
          Fed (copyoutLoop slot fuel ((dstva / pgsize + 1) * pgsize)
              ((b :: src).drop (min (pgsize - dstva % pgsize) (b :: src).length)))
            (t.writePage e'.ppn (dstva % pgsize)
              ((b :: src).take (min (pgsize - dstva % pgsize) (b :: src).length)))
            (fun ok u => ∃ m, Eager.copyout slot (fuel + 1) dstva (b :: src) s.view = (ok, m) ∧
              Reaches s u held m)
            fun _ => False := by
        intro t e' ht he' hu hw
        have hfilter := copyout_filter he' hu
        rw [ht.view, hw] at hfilter
        rw [Eager.copyout_page hfilter]
        generalize (b :: src).take _ = data
        have hall := ht.trans (ht.wf.write he' hw (dstva % pgsize) data)
        rw [ht.view] at hall
        have hlive : (t.writePage e'.ppn (dstva % pgsize) data).procs slot ≠ none := by
          obtain ⟨prt, hprt, -⟩ := Option.bind_eq_some_iff.mp he'
          change t.procs slot ≠ none
          simp [hprt]
        refine (ih _ _ _ hall.wf (hall.view ▸ hlow.writePage _ _ _) hlive).mono ?_ fun _ hf => hf
        rintro ok u ⟨m, hm, hu⟩
        rw [hall.view] at hm
        exact ⟨m, hm, hall.trans hu⟩
      have hrefused : (s.view.page slot (dstva / pgsize)).filter (fun pg => pg.u && pg.w) = none →
          ∃ m, Eager.copyout slot (fuel + 1) dstva (b :: src) s.view = (false, m) ∧ Reaches s s held m :=
        fun hnone => ⟨s.view, Eager.copyout_refused hnone, .refl h⟩
      apply endsUnless_ite
      · exact fun hv => endsUnless_pure (hrefused (by rw [hlow _ hv, Option.filter_none]))
      · intro _
        apply endsUnless_of_ok (getProc_ok hpr)
        rw [← userPte_eq hpr]
        cases hfilter : (s.userPte slot (dstva / pgsize)).filter (·.u) with
        | none =>
          apply endsUnless_pure
          apply hrefused
          rw [page_filter]
          cases he : s.userPte slot (dstva / pgsize) with
          | none => rfl
          | some e =>
            have hu : e.u = false := by simpa [he] using hfilter
            simp [Pte.image, hu]
        | some e =>
          obtain ⟨he, hu⟩ := Option.filter_eq_some_iff.mp hfilter
          apply endsUnless_ite
          · intro hcow
            refine kalloc_then h (keeps_throw _) (fun p => ?_) fun p t htaken => ?_
            · apply (keeps_breakCow _ _ _ _).bind
              exact fun _ => keeps_modify_then (fun _ => keeps_copyoutLoop _ _ _ _) fun _ => rfl
            · refine EndsUnless.bind ?_ (((breakCow_spec htaken he hcow).mono ?_ fun _ hf => hf).unless)
              · exact fun _ => keeps_modify_then (fun _ => keeps_copyoutLoop _ _ _ _) fun _ => rfl
              · rintro _ u ⟨hu', he'⟩
                exact endsUnless_modify (hrest u _ hu' he' hu rfl)
          · intro hcow
            apply endsUnless_ite
            · intro hw
              apply endsUnless_pure
              apply hrefused
              rw [copyout_filter he hu]
              simp_all
            · intro hw
              exact endsUnless_modify (hrest s e (.refl h) he hu (by simpa using hw))

theorem copyinLoop_ok (hlow : s.view.Low slot) (hpr : s.procs slot = some pr) (fuel : ℕ) : ∀ srcva len,
    copyinLoop slot fuel srcva len s = .ok (s.view.copyin slot fuel srcva len) s := by
  induction fuel with
  | zero => exact fun _ _ => rfl
  | succ fuel ih =>
    intro srcva len
    unfold copyinLoop Eager.copyin
    split
    · rfl
    · dsimp only
      split_ifs with hv
      · rw [hlow _ hv]
        rfl
      · rw [exec_bind, getProc_ok hpr]
        simp only [← userPte_eq hpr, page_filter, Pte.image]
        cases hfilter : (s.userPte slot (srcva / pgsize)).filter (·.u) with
        | none => rfl
        | some e =>
          simp only [exec_bind, exec_get, ih]
          rfl

/-! ### Size -/

theorem view_slot (hpr : s.procs slot = some pr) : s.view slot = some (pr.image s.mem) := by
  simp [Vm.view, hpr]

/-- The size is set after the pages have changed. -/
theorem Reaches.resize (h : Reaches s t held m) (slot sz : ℕ) :
    Reaches s (t.modifyProc slot fun pr => { pr with sz := sz }) held (m.resize slot sz) where
  wf := h.wf.modifyProc fun _ => rfl
  view := by
    rw [view_modifyProc (g := fun im => { im with sz := sz }) fun _ => rfl, h.view]
    rfl
  root := h.root

theorem resize_self {im : ProcImage} (him : m slot = some im) : m.resize slot im.sz = m := by
  refine Eager.modifyProc_self fun im' him' => ?_
  cases him.symm.trans him'
  rfl

theorem uvmalloc_spec {oldsz newsz : ℕ} (h : s.Wf held) (hslot : s.view slot ≠ none)
    (hfresh : ∀ x, pages oldsz ≤ x → s.view.page slot x = none) (hle : oldsz ≤ newsz) :
    Fed (uvmalloc slot oldsz newsz true false) s
      (fun sz t => sz = newsz ∧ (pages oldsz < pages newsz → pages newsz ≤ trapframeVpn) ∧
        Reaches s t held (s.view.fill slot (pages oldsz) (pages newsz) (some Eager.zeroPage)))
      fun _ => pages oldsz < pages newsz ∧ trapframeVpn < pages newsz := by
  have hsum : pages oldsz + (pages newsz - pages oldsz) = pages newsz := by
    have := pages_mono hle
    omega
  unfold uvmalloc
  rw [if_neg (Nat.not_lt.mpr hle)]
  have hloop := uvmallocLoop_spec slot (pages oldsz) true (pages newsz - pages oldsz) (pages oldsz) s h
    hslot fun x hx _ => hfresh x hx
  rw [hsum] at hloop
  refine EndsUnless.bind (fun _ => keeps_ite (keeps_pure _) (keeps_pure _)) (hloop.mono ?_ ?_)
  · rintro _ t ⟨rfl, hbound, ht⟩
    exact endsUnless_pure ⟨rfl, fun hlt => hbound (by omega), ht⟩
  · rintro t ⟨hpos, hhigh⟩
    exact ⟨by omega, hhigh⟩

theorem growproc_grows (h : s.Wf held) (hok : s.view.Ok) (hpr : s.procs slot = some pr) {n : ℤ} (hn : 0 < n) :
    Fed (growproc slot n) s
      (fun ok t => ∃ m, s.view.growproc slot n = some (if ok then .done else .failed, m) ∧ Reaches s t held m)
      fun _ => s.view.growproc slot n = none := by
  have him := view_slot hpr
  have hkeeps (sz : ℕ) : Keeps Starved (if sz = 0 then return false else do
      modify fun s => s.modifyProc slot fun pr => { pr with sz := sz }
      return true : VmM Bool) :=
    keeps_ite (keeps_pure _) (keeps_modify_then (fun _ => keeps_pure _) fun _ => rfl)
  have hspec : s.view.growproc slot n = s.view.grow slot (pr.image s.mem) (((pr.sz + n) % 2 ^ 64).toNat) := by
    rw [Eager.growproc, him, Option.bind_some, if_pos hn]
    rfl
  rw [hspec]
  apply endsUnless_of_ok (getProc_ok hpr)
  dsimp only
  generalize ((pr.sz + n) % 2 ^ 64).toNat = newsz
  rw [if_pos hn]
  unfold Eager.grow
  by_cases hlt : newsz < pr.sz
  · rw [if_pos (show newsz < (pr.image s.mem).sz from hlt)]
    unfold uvmalloc
    rw [if_pos hlt]
    apply endsUnless_of_ok rfl
    rw [if_neg (by omega)]
    apply endsUnless_modify
    apply endsUnless_pure
    refine ⟨s.view, rfl, ?_⟩
    have hsame := (Reaches.refl h).resize slot pr.sz
    rwa [show s.view.resize slot pr.sz = s.view from resize_self him] at hsame
  · rw [if_neg (show ¬ newsz < (pr.image s.mem).sz from hlt)]
    have hle : pr.sz ≤ newsz := Nat.le_of_not_lt hlt
    have hfresh : ∀ x, pages pr.sz ≤ x → s.view.page slot x = none := by
      intro x hx
      have := (hok slot _ him).mapped x
      simp only [Eager.page, him, Option.bind_some, ← Option.not_isSome_iff_eq_none, this]
      exact Nat.not_lt.mpr hx
    refine EndsUnless.bind hkeeps ((uvmalloc_spec h (by simp [him]) hfresh hle).mono ?_ ?_)
    · rintro _ t ⟨rfl, hbound, ht⟩
      rw [if_neg (show ¬ (pages (pr.image s.mem).sz < pages _ ∧ trapframeVpn < pages _) from
        fun hover => absurd (hbound hover.1) (Nat.not_le.mpr hover.2))]
      apply endsUnless_ite
      · intro hzero
        rw [if_pos hzero]
        apply endsUnless_pure
        rw [Eager.fill_of_le (pages_mono (by omega))] at ht
        exact ⟨s.view, rfl, ht⟩
      · intro hzero
        rw [if_neg hzero]
        apply endsUnless_modify
        exact endsUnless_pure ⟨_, rfl, ht.resize slot _⟩
    · intro t hover
      rw [if_pos (show pages (pr.image s.mem).sz < pages _ ∧ trapframeVpn < pages _ from hover)]

theorem growproc_shrinks (h : s.Wf held) (hok : s.view.Ok) (hpr : s.procs slot = some pr) {n : ℤ}
    (hn : ¬ 0 < n) :
    Ends (growproc slot n) s
      (fun ok t => ∃ m, s.view.growproc slot n = some (if ok then .done else .failed, m) ∧ Reaches s t held m)
      fun _ => s.view.growproc slot n = none := by
  have him := view_slot hpr
  have hspec : s.view.growproc slot n =
      some (.done, if n < 0 then s.view.shrink slot (pr.image s.mem)
        (((pr.sz + n) % 2 ^ 64).toNat) else s.view) := by
    rw [Eager.growproc, him, Option.bind_some, if_neg hn]
    rfl
  have hsame := (Reaches.refl h).resize slot pr.sz
  rw [show s.view.resize slot pr.sz = s.view from resize_self him] at hsame
  rw [hspec]
  apply ends_bind
  rw [ends_ok (getProc_ok hpr)]
  dsimp only
  generalize ((pr.sz + n) % 2 ^ 64).toNat = newsz
  rw [if_neg hn]
  split
  · unfold Eager.shrink
    split
    · rename_i hlt
      have hmapped : ∀ x, pages newsz ≤ x → x < pages pr.sz → (s.view.page slot x).isSome := by
        intro x _ hx
        simpa [Eager.page, him] using ((hok slot _ him).mapped x).mpr hx
      apply ends_bind
      apply (uvmdealloc_spec h hmapped hlt).mono _ fun _ hf => hf.elim
      rintro sz t ⟨hsz, ht⟩
      apply ends_bind
      apply ends_modify
      rw [hsz]
      exact ends_pure ⟨_, rfl, ht.resize slot newsz⟩
    · rename_i hge
      unfold uvmdealloc
      rw [if_pos (show pr.sz ≤ newsz from Nat.le_of_not_lt hge)]
      apply ends_bind
      apply ends_pure
      apply ends_bind
      apply ends_modify
      exact ends_pure ⟨_, rfl, hsame⟩
  · apply ends_bind
    apply ends_pure
    apply ends_bind
    apply ends_modify
    exact ends_pure ⟨_, rfl, hsame⟩

/-! ### Processes -/

/-- The state between two calls: the bookkeeping of pages is right, and every process has the
pages below its size and a page table. -/
structure Good (s : Vm) : Prop where
  wf : s.Wf []
  ok : s.view.Ok
  rooted : ∀ i, s.view i ≠ none → (s.tables i).root.isSome

theorem Good.of_reaches (h : s.Good) (ht : Reaches s t [] m) (hok : m.Ok)
    (hlive : ∀ i, m i = none ↔ s.view i = none) :
    t.Good where
  wf := ht.wf
  ok := ht.view ▸ hok
  rooted i hi := by
    rw [ht.root]
    apply h.rooted
    rw [ht.view] at hi
    exact mt (hlive i).mpr hi

/-- The child of a fork has the pages of its parent. -/
theorem withCopies_all {im : ProcImage} (h : im.Ok) :
    (withCopies im freshImage 0 (pages im.sz)).page = im.page := by
  funext x
  have hx := h.mapped x
  simp only [withCopies, Nat.zero_le, true_and, Nat.zero_add]
  split
  · rfl
  · rename_i hge
    exact (Option.not_isSome_iff_eq_none.mp (mt hx.mp hge)).symm

theorem fork_spec (h : s.Good) (hpr : s.procs slot = some pr) :
    Fed (fork slot) s (fun r t => t.Good ∧ s.view.fork slot = some (r, t.view)) fun _ => False := by
  have him := view_slot hpr
  have himok := h.ok slot _ him
  have hkeeps (child sz : ℕ) (ok : Bool) : Keeps Starved (if ok then do
        modify fun s => s.modifyProc child fun np => { np with sz := sz, parent := some slot }
        return .slot child
      else do
        freeproc child
        return .failed : VmM Result) :=
    keeps_ite (keeps_modify_then (fun _ => keeps_pure _) fun _ => rfl)
      ((keeps_freeproc child).bind fun _ => keeps_pure _)
  refine EndsUnless.bind ?_ ((allocproc_spec h.wf).mono ?_ fun _ hf => hf)
  · intro r
    cases r with
    | none => exact keeps_pure _
    | some child =>
      apply (keeps_getProc slot).bind
      exact fun pr => (keeps_uvmcopyLoop slot child _ _).bind (hkeeps child pr.sz)
  · rintro r t ⟨hfind, ht⟩
    cases r with
    | none =>
      obtain rfl : t = s := ht
      apply endsUnless_pure
      rw [Eager.fork, ← hfind]
      exact ⟨h, rfl⟩
    | some child =>
      obtain ⟨hwf, hview, hroot, hroots⟩ := ht
      have hvacant : s.view child = none := by simpa using List.find?_some hfind.symm
      have hne : slot ≠ child := by
        rintro rfl
        rw [him] at hvacant
        exact absurd hvacant (by simp)
      have himt : t.view slot = some (pr.image s.mem) := by rw [hview, update_of_ne hne, him]
      have hnew : t.view child = some freshImage := by rw [hview, update_self]
      obtain ⟨prt, hprt, himage⟩ := view_eq_some.mp himt
      have hsz : prt.sz = (pr.image s.mem).sz := congrArg ProcImage.sz himage
      apply endsUnless_of_ok (getProc_ok hprt)
      rw [hsz]
      refine EndsUnless.bind (hkeeps child _)
        ((uvmcopyLoop_spec hne _ _ 0 t _ hwf himt hnew ?_ ?_).mono ?_ fun _ hf => hf)
      · exact fun x _ hx => ⟨(himok.mapped x).mpr (by omega), rfl⟩
      · have := himok.fits
        omega
      · rintro _ u ⟨rfl, hu⟩
        apply endsUnless_modify
        apply endsUnless_pure
        have hfinal : (u.modifyProc child
          fun np => { np with sz := (pr.image s.mem).sz, parent := some slot }).view =
            update s.view child (some {
              sz := (pr.image s.mem).sz, parent := some slot, zombie := false, xstate := []
              page := (pr.image s.mem).page }) := by
          rw [view_modifyProc (g := fun im =>
            { im with sz := (pr.image s.mem).sz, parent := some slot }) fun _ => rfl,
            hu.view, hview, Eager.modifyProc, update_idem, update_idem, update_self,
            Option.map_some, withCopies_all himok]
          rfl
        have hfork : s.view.fork slot = some (.slot child, (u.modifyProc child fun np =>
            { np with sz := (pr.image s.mem).sz, parent := some slot }).view) := by
          rw [hfinal, Eager.fork, ← hfind, him]
          rfl
        refine ⟨⟨hu.wf.modifyProc fun _ => rfl, (Eager.fork_spec hfork).1 h.ok, fun i hi => ?_⟩, hfork⟩
        change (u.tables i).root.isSome
        rw [hu.root]
        obtain rfl | hine := eq_or_ne i child
        · exact hroot
        · rw [hroots i hine]
          apply h.rooted
          rwa [hfinal, update_of_ne hine] at hi

theorem isZombie_view (s : Vm) (slot : ℕ) : s.view.isZombie slot = s.isZombie slot := by
  funext c
  unfold Eager.isZombie Vm.isZombie Vm.view
  cases s.procs c <;> rfl

theorem isChild_view (s : Vm) (slot : ℕ) : s.view.isChild slot = s.isChild slot := by
  funext c
  unfold Eager.isChild Vm.isChild Vm.view
  cases s.procs c <;> rfl

theorem sendStatus_spec {addr : ℕ} (h : s.Wf held) (hok : s.view.Ok) (hslot : s.procs slot ≠ none)
    (xstate : List UInt8) :
    Fed (sendStatus slot addr xstate) s
      (fun sent t => ∃ m, (if addr = 0 then (true, s.view) else
        Eager.copyout slot xstate.length addr xstate s.view) = (sent, m) ∧ Reaches s t held m)
      fun _ => False := by
  unfold sendStatus
  split
  · exact endsUnless_pure ⟨s.view, rfl, .refl h⟩
  · exact copyoutLoop_spec slot _ _ _ s h (hok.low slot) hslot

theorem view_reap (slot addr : ℕ) {c : ℕ} {prc : Proc} (hprc : s.procs c = some prc) :
    s.view.reap slot addr c = some (
      let (sent, m) := if addr = 0 then (true, s.view) else
        Eager.copyout slot prc.xstate.length addr prc.xstate s.view
      if sent then (.slot c, update m c none) else (.failed, m)) := by
  rw [Eager.reap, view_slot hprc]
  rfl

theorem reap_spec {addr c : ℕ} (h : s.Good) (hslot : s.procs slot ≠ none) {prc : Proc}
    (hprc : s.procs c = some prc) :
    Fed (reap slot addr c) s (fun r t => t.Good ∧ s.view.reap slot addr c = some (r, t.view))
      fun _ => False := by
  have hkeeps (sent : Bool) : Keeps Starved (if sent then do
        freeproc c
        return .slot c
      else return .failed : VmM Result) :=
    keeps_ite ((keeps_freeproc c).bind fun _ => keeps_pure _) (keeps_pure _)
  have hspec := view_reap slot addr hprc
  apply endsUnless_of_ok (getProc_ok hprc)
  refine EndsUnless.bind hkeeps ((sendStatus_spec h.wf h.ok hslot prc.xstate).mono ?_ fun _ hf => hf)
  rintro sent t ⟨m, hm, ht⟩
  rw [hm] at hspec
  have hmok : m.Ok ∧ ∀ i, m i = none ↔ s.view i = none := by
    by_cases haddr : addr = 0
    · rw [if_pos haddr] at hm
      obtain rfl := (Prod.mk.inj hm).2
      exact ⟨h.ok, fun _ => Iff.rfl⟩
    · rw [if_neg haddr] at hm
      obtain rfl : _ = m := congrArg Prod.snd hm
      exact ⟨(Eager.Local.copyout _ _ _).ok h.ok, (Eager.Local.copyout _ _ _).live⟩
  have htgood : t.Good := h.of_reaches ht hmok.1 hmok.2
  cases sent with
  | false =>
    apply endsUnless_pure
    rw [hspec, ht.view]
    exact ⟨htgood, rfl⟩
  | true =>
    have hlive : t.view c ≠ none := by
      rw [ht.view, Ne, hmok.2, view_slot hprc]
      simp
    obtain ⟨im, him⟩ := Option.ne_none_iff_exists'.mp hlive
    apply Ends.unless
    apply ends_bind
    apply (freeproc_spec htgood.wf him (htgood.rooted c hlive) (htgood.ok c im him).mapped).mono _
      fun _ hf => hf
    rintro _ u ⟨hwf, hview, hroots⟩
    apply ends_pure
    have hreap : s.view.reap slot addr c = some (.slot c, u.view) := by
      rw [hspec, hview, ht.view]
      rfl
    refine ⟨⟨hwf, (Eager.reap_spec hreap).1 h.ok, fun i hi => ?_⟩, hreap⟩
    rw [hview] at hi
    obtain rfl | hne := eq_or_ne i c
    · rw [update_self] at hi
      exact absurd rfl hi
    · rw [hroots i hne]
      apply htgood.rooted
      rwa [update_of_ne hne] at hi

theorem wait_spec {addr : ℕ} (h : s.Good) (hslot : s.procs slot ≠ none) :
    Fed (wait slot addr) s (fun r t => t.Good ∧ s.view.wait slot addr = some (r, t.view)) fun _ => False := by
  unfold wait Eager.wait
  apply endsUnless_get
  rw [isZombie_view, isChild_view]
  cases hfind : (List.range nproc).find? (s.isZombie slot) with
  | none => exact endsUnless_pure ⟨h, rfl⟩
  | some c =>
    have hzombie := List.find?_some hfind
    cases hprc : s.procs c with
    | none => simp [isZombie, hprc] at hzombie
    | some prc => exact reap_spec h hslot hprc

/-- A call does to the view what it does to the eager machine. -/
theorem exec_refines (h : s.Good) (hpr : s.procs slot = some pr) (c : Call) :
    Fed (c.exec slot) s (fun r t => t.Good ∧ c.eager slot s.view = some (r, t.view))
      fun _ => c.eager slot s.view = none := by
  -- calls that keep the set of processes
  have hkept : ∀ r t m, c.eager slot s.view = some (r, m) → Reaches s t [] m →
      (∀ i, m i = none ↔ s.view i = none) → t.Good ∧ c.eager slot s.view = some (r, t.view) := by
    intro r t m hm ht hlive
    exact ⟨h.of_reaches ht ((Call.eager_spec hm).1 h.ok) hlive, by rw [hm, ht.view]⟩
  cases c with
  | fork => exact (fork_spec h hpr).mono (fun _ _ ht => ht) fun _ hf => hf.elim
  | store va b =>
    refine (userStore_spec h.wf h.ok hpr 1).mono ?_ fun _ hnone => hnone
    rintro r t ⟨m, hm, ht⟩
    exact hkept r t m hm ht (Eager.Local.store hm).live
  | load va =>
    refine ((userLoad_spec h.wf hpr).mono ?_ fun _ hnone => hnone).unless
    rintro r t ⟨m, hm, ht⟩
    exact hkept r t m hm ht (Eager.Local.load hm).live
  | copyout dstva src =>
    refine EndsUnless.bind (fun _ => keeps_pure _)
      ((copyoutLoop_spec slot _ dstva src s h.wf (h.ok.low slot) (by simp [hpr])).mono ?_ fun _ hf => hf.elim)
    rintro sent t ⟨m, hm, ht⟩
    apply endsUnless_pure
    apply hkept _ t m _ ht
    · intro i
      obtain rfl : _ = m := congrArg Prod.snd hm
      exact (Eager.Local.copyout _ _ _).live _
    · simp only [Call.eager, hm]
  | copyin srcva len =>
    apply endsUnless_of_ok (copyinLoop_ok (h.ok.low slot) hpr len srcva len)
    simp only [Call.eager]
    cases s.view.copyin slot len srcva len with
    | none | some data => exact endsUnless_pure ⟨h, rfl⟩
  | growproc n =>
    have hspec : Fed (growproc slot n) s
        (fun ok t => ∃ m, s.view.growproc slot n = some (if ok then .done else .failed, m) ∧ Reaches s t [] m)
        fun _ => s.view.growproc slot n = none := by
      by_cases hn : 0 < n
      · exact growproc_grows h.wf h.ok hpr hn
      · exact (growproc_shrinks h.wf h.ok hpr hn).unless
    refine EndsUnless.bind (fun _ => keeps_pure _) (hspec.mono ?_ fun _ hnone => hnone)
    rintro ok t ⟨m, hm, ht⟩
    apply endsUnless_pure
    exact hkept _ t m hm ht (Eager.Local.growproc hm).live
  | exit status =>
    apply Ends.unless
    apply ends_bind
    apply (exit_spec h.wf slot status).mono
    · rintro _ t ⟨m, hm, ht⟩
      apply ends_pure
      apply hkept _ t m _ ht (Eager.Local.exit hm).live
      simp only [Call.eager, hm, Option.map_some]
    · intro _ hnone
      simp only [Call.eager, hnone, Option.map_none]
  | wait addr => exact (wait_spec h (by simp [hpr])).mono (fun _ _ ht => ht) fun _ hf => hf.elim

end Vm

end Xv6
