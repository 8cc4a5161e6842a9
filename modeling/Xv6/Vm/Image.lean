import Xv6.Vm.Steady

/-!
# A new image and the old one

`exec` builds an image beside the one of the process, exchanges the two and frees the other one.
Wherever it fails, the new image is freed as a whole; the old one is freed up to the size of the
process.
-/

namespace Xv6

open Lib Function

/-- The places of two slots exchanged, but for the trapframes. -/
def Place.exchange (a b : ℕ) : Place → Place
  | .trapframe i => .trapframe i
  | .root i => .root (Equiv.swap a b i)
  | .table i level j => .table (Equiv.swap a b i) level j
  | .user i x => .user (Equiv.swap a b i) x

theorem Place.exchange_involutive (a b : ℕ) : Function.Involutive (Place.exchange a b) := by
  intro k
  cases k <;> simp [Place.exchange]

namespace Vm

variable {s t u : Vm} {held : List ℕ} {p q slot new v : ℕ} {e : Pte} {pr : Proc} {ok : Pte → Prop}

/-! ### Building an image -/

/-- Only the image in the slot `new` was worked on, and its entries lie below its size. -/
structure Image (ok : Pte → Prop) (s t : Vm) (held : List ℕ) (new : ℕ) : Prop where
  orderly : t.Orderly ok held
  base : t.base = s.base
  trapframe : ∀ i, (t.tables i).trapframe = (s.tables i).trapframe
  root : ∀ i, (t.tables i).root = (s.tables i).root
  header : ∀ i, i ≠ new → (t.procs i).map Proc.header = (s.procs i).map Proc.header
  present : t.procs new ≠ none
  mapped : ∀ i x, i ≠ new → t.userPte i x ≠ none → s.userPte i x ≠ none
  fits : t.FitsAt new

theorem Image.trims (h : Image ok s t held new) (ht : Trims ok t u held) : Image ok s u held new where
  orderly := ht.orderly
  base := ht.frame.base.trans h.base
  trapframe i := (ht.frame.trapframe i).trans (h.trapframe i)
  root i := (ht.frame.root i).trans (h.root i)
  header i hi := (ht.frame.header i).trans (h.header i hi)
  present := mt (ht.frame.procs_eq_none new).mp h.present
  mapped i x hi hx := by
    obtain hbefore | hfalse := ht.mapped i x hx
    · exact h.mapped i x hi hbefore
    · exact hfalse.elim
  fits := h.fits.gained ht fun _ _ _ hf => hf.elim

/-- The image grows, and its size with it. -/
theorem Image.resize {sz : ℕ} (h : Image ok s t held new) (hpr : t.procs new = some pr)
    (hg : Gained ok t u held fun i y => i = new ∧ pages pr.sz ≤ y ∧ y < pages sz)
    (hle : pages pr.sz ≤ pages sz) :
    Image ok s (u.modifyProc new fun pr => { pr with sz := sz }) held new := by
  have hpte : ∀ i x, (u.modifyProc new fun pr => { pr with sz := sz }).userPte i x = u.userPte i x := by
    intro i x
    obtain rfl | hi := eq_or_ne i new
    · cases hp : u.procs i <;> simp [userPte, modifyProc, hp]
    · simp [userPte, modifyProc, hi]
  obtain ⟨pr', hpr'⟩ := hg.frame.exists_proc hpr
  have hslot : (u.modifyProc new fun pr => { pr with sz := sz }).procs new = some { pr' with sz := sz } := by
    simp [modifyProc, hpr']
  refine ⟨hg.orderly.of_userPte hpte, hg.frame.base.trans h.base, fun i => ?_, fun i => ?_,
    fun i hi => ?_, ?_,
    fun i x hi hx => ?_, ?_⟩
  · exact (hg.frame.trapframe i).trans (h.trapframe i)
  · exact (hg.frame.root i).trans (h.root i)
  · refine Eq.trans ?_ ((hg.frame.header i).trans (h.header i hi))
    simp [modifyProc, hi]
  · rw [hslot]
    simp
  · rw [hpte] at hx
    obtain hbefore | ⟨hnew, -⟩ := hg.mapped i x hx
    · exact h.mapped i x hi hbefore
    · exact absurd hnew hi
  · intro qr hqr x hx
    rw [hslot] at hqr
    cases hqr
    rw [← userPte_eq hpr'] at hx
    obtain hbefore | ⟨-, -, hlt⟩ := hg.mapped new x hx
    · rw [userPte_eq hpr] at hbefore
      exact lt_of_lt_of_le (h.fits pr hpr x hbefore) hle
    · exact hlt

theorem loadsegLoop_lands (va : ℕ) (file : Reader) (offset sz : ℕ) : ∀ n k s, s.Orderly ok held →
    Lands (loadsegLoop slot va file offset sz k n) s fun _ t => Trims ok s t held := by
  intro n
  induction n with
  | zero => exact fun k s h => ends_pure (.refl h)
  | succ n ih =>
    intro k s h
    apply getProc_lands
    intro pr _
    cases pr.walkaddr (va + k * pgsize) with
    | none => exact lands_throw
    | some p =>
      have hwrite := h.write p 0 (file.readi (offset + k * pgsize) (min (sz - k * pgsize) pgsize))
      apply lands_modify
      apply ends_ite
      · exact fun _ => ends_pure hwrite
      · exact fun _ => (ih (k + 1) _ hwrite.orderly).mono fun _ u hu => hwrite.trans hu

theorem setSize_lands {α : Type} {f : Unit → VmM α} {post : α → Vm → Prop} {sz : ℕ}
    (h : Lands (f ()) (s.modifyProc slot fun pr => { pr with sz := sz }) post) :
    Lands (setSize slot sz >>= f) s post :=
  lands_modify h

section

variable (hok : Stable ok held)

include hok

/-- One call of `uvmalloc` for the image. -/
theorem Image.grow {w x : Bool} (h : Image ok s t held new) (hroot : (s.tables new).root ≠ none)
    (hpr : t.procs new = some pr) (limit : ℕ) :
    Lands (uvmalloc new pr.sz limit w x) t fun sz u =>
      (sz = 0 → Image ok s u held new) ∧
      (sz ≠ 0 → Image ok s (u.modifyProc new fun pr => { pr with sz := sz }) held new) := by
  apply (uvmalloc_lands (hok.fresh · w x) h.orderly (h.root new ▸ hroot) pr.sz limit).mono
  rintro sz u ⟨hsz, hgained⟩
  refine ⟨?_, fun hpos => ?_⟩
  · rintro rfl
    apply h.trims
    apply hgained.imp
    rintro i y ⟨-, -, hlt⟩
    rw [pages_zero] at hlt
    exact absurd hlt (by omega)
  · exact h.resize hpr hgained (pages_mono (by omega))

theorem loadProgram_lands (file : Reader) (hroot : (s.tables new).root ≠ none) : ∀ n off t,
    Image ok s t held new → Lands (loadProgram new file off n) t fun _ u => Image ok s u held new := by
  intro n
  induction n with
  | zero => exact fun off t h => ends_pure h
  | succ n ih =>
    intro off t h
    apply ends_ite
    · exact fun _ => ends_pure h
    · intro _
      apply ends_ite
      · exact fun _ => ih _ t h
      · intro _
        apply ends_ite
        · exact fun _ => ends_pure h
        · intro _
          apply getProc_lands
          intro pr hpr
          apply (h.grow hok hroot hpr _).bind
          rintro sz u ⟨hfailed, hgrown⟩
          apply ends_ite
          · exact fun hzero => ends_pure (hfailed hzero)
          · intro hpos
            have himage := hgrown hpos
            apply setSize_lands
            generalize u.modifyProc new (fun pr => { pr with sz := sz }) = w at himage
            apply (loadsegLoop_lands _ file _ _ _ 0 w himage.orderly).bind
            intro loaded w' hw'
            apply ends_ite
            · exact fun _ => ih _ w' (himage.trims hw')
            · exact fun _ => ends_pure (himage.trims hw')

theorem uvmclear_lands (h : s.Orderly ok held) (slot v : ℕ) :
    Lands (uvmclear slot v) s fun _ t => Trims ok s t held := by
  apply getProc_lands
  intro pr hpr
  cases hpte : pr.pte v with
  | none => exact lands_throw
  | some e =>
    have he : s.userPte slot v = some e := by rw [userPte_eq hpr, hpte]
    apply ends_modify
    refine ⟨h.changePte he rfl (fun hw => hw) (hok.guarded e ((h.tidy slot).leaf v e he).1),
      frame_setPte _ _ _ _, ?_⟩
    intro i x hx
    rw [userPte_setPte hpr] at hx
    split at hx
    · rename_i hix
      rw [hix.1, hix.2, he]
      simp
    · exact Or.inl hx

theorem makeStack_lands (hroot : (s.tables new).root ≠ none) (h : Image ok s t held new) :
    Lands (makeStack new) t fun _ u => Image ok s u held new := by
  apply getProc_lands
  intro pr hpr
  have hround : Image ok s (t.modifyProc new fun qr => { qr with sz := pages pr.sz * pgsize }) held new := by
    apply h.resize hpr (.refl h.orderly)
    rw [pages_mul]
  have hslot : (t.modifyProc new fun qr => { qr with sz := pages pr.sz * pgsize }).procs new =
      some { pr with sz := pages pr.sz * pgsize } := by
    simp [modifyProc, hpr]
  apply setSize_lands
  apply (hround.grow hok hroot hslot _).bind
  rintro sz u ⟨hfailed, hgrown⟩
  apply ends_ite
  · exact fun hzero => ends_pure (hfailed hzero)
  · intro hpos
    have himage := hgrown hpos
    apply setSize_lands
    apply (uvmclear_lands hok himage.orderly new _).bind
    exact fun _ w hw => ends_pure (himage.trims hw)

theorem pushArgs_lands (stackbase : ℕ) : ∀ args argc sp s, s.Orderly ok held →
    Lands (pushArgs new stackbase argc sp args) s fun _ t => Trims ok s t held := by
  intro args
  induction args with
  | nil => exact fun _ _ s h => ends_pure (.refl h)
  | cons arg args ih =>
    intro argc sp s h
    apply ends_ite
    · exact fun _ => ends_pure (.refl h)
    · intro _
      apply (copyoutLoop_lands hok new _ _ _ s h).bind
      intro copied t ht
      apply ends_ite
      · intro _
        apply (ih _ _ t ht.orderly).bind
        exact fun _ u hu => ends_pure (ht.trans hu)
      · exact fun _ => ends_pure ht

theorem pushStack_lands (h : s.Orderly ok held) (argv : List (List UInt8)) :
    Lands (pushStack new argv) s fun _ t => Trims ok s t held := by
  apply getProc_lands
  intro pr _
  apply (pushArgs_lands hok _ argv 0 pr.sz s h).bind
  intro r t ht
  cases r with
  | none => exact ends_pure ht
  | some r =>
    apply ends_ite
    · exact fun _ => ends_pure ht
    · intro _
      exact (copyoutLoop_lands hok new _ _ _ t ht.orderly).mono fun _ u hu => ht.trans hu

theorem buildImage_lands (hroot : (s.tables new).root ≠ none) (h : Image ok s t held new)
    (file : Reader) (phoff phnum : ℕ) (argv : List (List UInt8)) :
    Lands (buildImage new file phoff phnum argv) t fun _ u => Image ok s u held new := by
  apply (loadProgram_lands hok file hroot phnum phoff t h).bind
  intro loaded u hu
  apply ends_ite
  · intro _
    apply (makeStack_lands hok hroot hu).bind
    intro made w hw
    apply ends_ite
    · intro _
      exact (pushStack_lands hok hw.orderly argv).mono fun _ w' hw' => hw.trims hw'
    · exact fun _ => ends_pure hw
  · exact fun _ => ends_pure hu

end

/-! ### Exchanging two images -/

theorem exchange_tables (s : Vm) (a b i : ℕ) :
    (s.exchange a b).tables i = { s.tables (Equiv.swap a b i) with trapframe := (s.tables i).trapframe } := by
  obtain rfl | hb := eq_or_ne i b
  · simp [exchange]
  · obtain rfl | ha := eq_or_ne i a
    · simp [exchange, hb]
    · simp [exchange, ha, hb, Equiv.swap_apply_of_ne_of_ne]

variable {a b : ℕ} {qr : Proc}

theorem exchange_procs (ha : s.procs a = some pr) (hb : s.procs b = some qr) :
    (s.exchange a b).procs = update (update s.procs a (some { pr with sz := qr.sz, pte := qr.pte })) b
      (some { qr with sz := pr.sz, pte := pr.pte }) := by
  simp [exchange, ha, hb]

theorem exchange_userPte (ha : s.procs a = some pr) (hb : s.procs b = some qr) (hne : a ≠ b) (i x : ℕ) :
    (s.exchange a b).userPte i x = s.userPte (Equiv.swap a b i) x := by
  unfold userPte
  rw [exchange_procs ha hb]
  obtain rfl | hib := eq_or_ne i b
  · simp [ha]
  · obtain rfl | hia := eq_or_ne i a
    · simp [hib, hb]
    · simp [hia, hib, Equiv.swap_apply_of_ne_of_ne]

/-- Exchanging two images keeps everything in order. -/
theorem Orderly.exchange (h : s.Orderly ok held) (ha : s.procs a = some pr)
    (hb : s.procs b = some qr) (hne : a ≠ b) :
    (s.exchange a b).Orderly ok held := by
  have hpte := exchange_userPte ha hb hne
  have href : (s.exchange a b).ref = fun k => s.ref (k.exchange a b) := by
    funext k
    cases k with
    | user i x => simp only [ref, hpte, Place.exchange]
    | _ => simp only [ref, exchange_tables, Place.exchange]
  have hexcl : ∀ k, (s.exchange a b).excl k = s.excl (k.exchange a b) := by
    intro k
    cases k with
    | user i x => simp only [excl, hpte, Place.exchange]
    | _ => rfl
  have hrefs : ∀ q, refs (s.exchange a b).ref q = refs s.ref q := by
    intro q
    rw [href]
    exact refs_rename (Function.Involutive.toPerm _ (Place.exchange_involutive a b)) q
  have hfinite : FiniteRefs (s.exchange a b).ref := by
    rw [href]
    exact h.ledger.wf.counted.finite.preimage (Place.exchange_involutive a b).injective.injOn
  have hwf : (s.exchange a b).Wf held := by
    refine ⟨h.ledger.wf.counted.congr hfinite fun q => by rw [hrefs], fun k q hk hkexcl => ?_⟩
    rw [hrefs]
    rw [href] at hk
    exact h.ledger.wf.sole _ q hk (hexcl k ▸ hkexcl)
  refine ⟨h.ledger.mono hwf rfl rfl fun q => by rw [hrefs], fun i => ⟨?_, fun x e he => ?_⟩⟩
  · rw [exchange_tables]
    exact ⟨(h.tidy _).linked.mid, (h.tidy _).linked.low⟩
  · rw [hpte] at he
    rw [exchange_tables]
    exact (h.tidy _).leaf x e he

/-! ### The whole call -/

/-- Back to a steady state once the slot beside the process table is empty again. -/
theorem Steady.settle {held' : List ℕ} (h : s.Steady ok held) (hout : s.procs new = none)
    (hu : u.Orderly ok held')
    (hbase : u.base = s.base) (hnone : u.procs new = none)
    (hsame : ∀ i, i ≠ new → (u.procs i = none ↔ s.procs i = none))
    (htrapframe : ∀ i, (u.tables i).trapframe = (s.tables i).trapframe)
    (hroot : ∀ i, (u.tables i).root = none ↔ (s.tables i).root = none)
    (hfits : ∀ i, i ≠ new → s.FitsAt i → u.FitsAt i) : Advances ok s u held' := by
  refine ⟨h.of_roots hu (fun i => ?_) htrapframe hroot, hbase, fun i hi => ?_⟩
  · obtain rfl | hi := eq_or_ne i new
    · simp [hnone, hout]
    · exact hsame i hi
  · obtain rfl | hne := eq_or_ne i new
    · exact fitsAt_of_none hnone
    · exact hfits i hne hi

theorem header_eq_none {i : ℕ} (h : (t.procs i).map Proc.header = (s.procs i).map Proc.header) :
    t.procs i = none ↔ s.procs i = none := by
  rw [← Option.map_eq_none_iff (f := Proc.header), h, Option.map_eq_none_iff]

/-- The image that `exec` starts from: an empty page table beside the process table. -/
structure Beside (ok : Pte → Prop) (s t : Vm) (held : List ℕ) (new : ℕ) : Prop where
  orderly : t.Orderly ok held
  base : t.base = s.base
  procs : t.procs = update s.procs new (some .fresh)
  trapframe : ∀ i, (t.tables i).trapframe = (s.tables i).trapframe
  others : ∀ i, i ≠ new → (t.tables i).root = (s.tables i).root

theorem Beside.fresh (h : Beside ok s t held new) : t.procs new = some .fresh := by
  rw [h.procs, update_self]

theorem Beside.image (h : Beside ok s t held new) : Image ok t t held new where
  orderly := h.orderly
  base := rfl
  trapframe _ := rfl
  root _ := rfl
  header _ _ := rfl
  present := by simp [h.fresh]
  mapped _ _ _ hx := hx
  fits pr hpr x hx := by
    rw [h.fresh] at hpr
    rw [← Option.some.inj hpr] at hx
    exact absurd rfl hx

theorem Beside.procs_of_ne (h : Beside ok s t held new) {i : ℕ} (hi : i ≠ new) : t.procs i = s.procs i := by
  rw [h.procs, update_of_ne hi]

/-- `exec` fails: the new image is freed as a whole. -/
theorem Beside.fails (h : s.Steady ok held) (hout : s.procs new = none) (hb : Beside ok s t held new)
    (hu : Image ok t u held new) : Lands (discard new) u fun _ w => Advances ok s w held := by
  obtain ⟨qr, hqr⟩ := Option.ne_none_iff_exists'.mp hu.present
  apply (discard_lands hu.orderly hqr).mono
  rintro _ w ⟨lost, hgone, htables, hlost⟩
  have hempty : lost = [] := by
    apply hlost
    intro x hx
    rw [userPte_eq hqr] at hx
    exact hu.fits qr hqr x hx
  rw [hempty] at hgone
  have hprocs : ∀ i, i ≠ new → w.procs i = u.procs i := fun i hi => by rw [hgone.procs, update_of_ne hi]
  have hbare := h.vacant new hout
  apply h.settle hout hgone.orderly (hgone.base.trans (hu.base.trans hb.base))
  · rw [hgone.procs, update_self]
  · intro i hi
    rw [hprocs i hi, header_eq_none (hu.header i hi), hb.procs_of_ne hi]
  · intro i
    rw [htables]
    obtain rfl | hi := eq_or_ne i new
    · rw [update_self, Tables.bare, hu.trapframe, hb.trapframe]
    · rw [update_of_ne hi, hu.trapframe, hb.trapframe]
  · intro i
    rw [htables]
    obtain rfl | hi := eq_or_ne i new
    · simp [Tables.bare, hbare]
    · rw [update_of_ne hi, hu.root, hb.others i hi]
  · intro i hi hfits
    have ht : t.FitsAt i := hfits.congr (hb.procs_of_ne hi)
    exact (ht.of_header (hu.header i hi) fun x => hu.mapped i x hi).congr (hprocs i hi)

/-- `exec` succeeds: the images are exchanged and the old one is freed. -/
theorem Beside.commits (h : s.Steady ok held) (hpr : s.procs slot = some pr) (hout : s.procs new = none)
    (hb : Beside ok s t held new) (hroot : (t.tables new).root ≠ none) (hu : Image ok t u held new) :
    Lands (discard new) (u.exchange slot new) fun _ w =>
      ∃ lost, Advances ok s w (lost ++ held) ∧ (s.FitsAt slot → lost = []) := by
  have hne : slot ≠ new := by
    rintro rfl
    rw [hpr] at hout
    exact absurd hout (by simp)
  obtain ⟨qr, hqr⟩ := Option.ne_none_iff_exists'.mp hu.present
  have hprt : t.procs slot = some pr := (hb.procs_of_ne hne).trans hpr
  have hheader := hu.header slot hne
  rw [hprt] at hheader
  obtain ⟨pru, hpru, heq⟩ := Option.map_eq_some_iff.mp hheader
  have hsz : pru.sz = pr.sz := congrArg Prod.fst heq
  have hprocs := exchange_procs hpru hqr
  have hnew : (u.exchange slot new).procs new = some { qr with sz := pru.sz, pte := pru.pte } := by
    rw [hprocs, update_self]
  apply (discard_lands (hu.orderly.exchange hpru hqr hne) hnew).mono
  rintro _ w ⟨lost, hgone, htables, hlost⟩
  have hslotw : w.procs slot = some { pru with sz := qr.sz, pte := qr.pte } := by
    rw [hgone.procs, hprocs, update_idem, update_of_ne hne, update_self]
  have hprocsw : ∀ i, i ≠ new → i ≠ slot → w.procs i = u.procs i := by
    intro i hi hi'
    rw [hgone.procs, hprocs, update_idem, update_of_ne hi, update_of_ne hi']
  have hbare := h.vacant new hout
  have hseated := h.seated slot (by simp [hpr])
  refine ⟨lost, ?_, fun hfits => hlost fun x hx => ?_⟩
  · apply h.settle hout hgone.orderly (hgone.base.trans (hu.base.trans hb.base))
    · rw [hgone.procs, update_self]
    · intro i hi
      obtain rfl | hi' := eq_or_ne i slot
      · simp [hslotw, hpr]
      · rw [hprocsw i hi hi', header_eq_none (hu.header i hi), hb.procs_of_ne hi]
    · intro i
      have hsame : ((u.exchange slot new).tables i).trapframe = (s.tables i).trapframe := by
        rw [exchange_tables, hu.trapframe, hb.trapframe]
      rw [htables]
      obtain rfl | hi := eq_or_ne i new
      · rw [update_self, Tables.bare, hsame]
      · rw [update_of_ne hi, hsame]
    · intro i
      rw [htables]
      obtain rfl | hi := eq_or_ne i new
      · simp [Tables.bare, hbare]
      · rw [update_of_ne hi, exchange_tables]
        obtain rfl | hi' := eq_or_ne i slot
        · simp [hu.root, hroot, hseated]
        · rw [Equiv.swap_apply_of_ne_of_ne hi' hi, hu.root, hb.others i hi]
    · intro i hi hfits
      obtain rfl | hi' := eq_or_ne i slot
      · intro pr' hpr' x hx
        rw [hslotw] at hpr'
        cases hpr'
        exact hu.fits qr hqr x hx
      · have ht : t.FitsAt i := hfits.congr (hb.procs_of_ne hi)
        exact (ht.of_header (hu.header i hi) fun x => hu.mapped i x hi).congr (hprocsw i hi hi')
  · rw [exchange_userPte hpru hqr hne, Equiv.swap_apply_right] at hx
    have hbefore := hu.mapped slot x hne hx
    rw [userPte_eq hprt] at hbefore
    rw [hsz]
    exact hfits pr hpr x hbefore

theorem exec_lands (hok : Stable ok held) (h : s.Steady ok held) (hpr : s.procs slot = some pr)
    (file : Option Reader)
    (argv : List (List UInt8)) :
    Lands (exec slot file argv) s fun _ t => ∃ lost, Advances ok s t (lost ++ held) ∧
      (s.FitsAt slot → lost = []) := by
  cases file with
  | none => exact ends_pure ⟨[], .refl h, fun _ => rfl⟩
  | some file =>
    apply ends_ite
    · exact fun _ => ends_pure ⟨[], .refl h, fun _ => rfl⟩
    · intro _
      have hout : s.procs (nproc + slot) = none := by
        by_contra hused
        have := h.within _ hused
        omega
      have hbare := h.vacant _ hout
      apply lands_modify
      generalize nproc + slot = new at hout hbare ⊢
      generalize hs' : ({ s with procs := update s.procs new (some .fresh) } : Vm) = s'
      have hprocs : s'.procs = update s.procs new (some .fresh) := by rw [← hs']
      have htables : s'.tables = s.tables := by rw [← hs']
      have hbase : s'.base = s.base := by rw [← hs']
      have hnew : s'.procs new = some .fresh := by rw [hprocs, update_self]
      have hempty : ∀ x, s'.userPte new x = none := fun x => by rw [userPte_eq hnew]; rfl
      have hordered : s'.Orderly ok held := hs' ▸ h.orderly.of_userPte (userPte_seat hout)
      apply (procPagetable_lands hordered hempty (by rw [htables, hbare]; rfl)).bind
      intro made t ht
      have hbeside : Beside ok s t held new := by
        refine ⟨ht.orderly, ht.base.trans hbase, ht.procs.trans hprocs, fun i => ?_, fun i hi => ?_⟩
        · rw [ht.trapframe, htables]
        · rw [ht.others i hi, htables]
      apply ends_ite
      · intro hmade
        apply (buildImage_lands hok (ht.root.mpr hmade) hbeside.image file _ _ argv).bind
        intro built u hu
        apply ends_ite
        · intro _
          apply lands_modify
          apply (hbeside.commits h hpr hout (ht.root.mpr hmade) hu).bind
          exact fun _ w hw => ends_pure hw
        · intro _
          apply (hbeside.fails h hout hu).bind
          exact fun _ w hw => ends_pure ⟨[], hw, fun _ => rfl⟩
      · intro hfailed
        apply lands_modify
        apply ends_pure
        have hroot : (t.tables new).root = none := by
          by_contra hsome
          exact hfailed (ht.root.mp hsome)
        refine ⟨[], ?_, fun _ => rfl⟩
        have hunused : ∀ x, t.userPte new x = none := fun x => by rw [userPte_congr ht.procs, hempty]
        have hsettled : { t with procs := update t.procs new none }.Orderly ok held :=
          ht.orderly.of_userPte (userPte_vacate hunused)
        apply h.settle hout hsettled hbeside.base (update_self new _ _)
        · intro i hi
          change update t.procs new none i = none ↔ _
          rw [update_of_ne hi, hbeside.procs_of_ne hi]
        · exact hbeside.trapframe
        · intro i
          obtain rfl | hi := eq_or_ne i new
          · simp [hroot, hbare, Tables.empty]
          · exact (hbeside.others i hi).congr_left
        · intro i hi hfits
          exact hfits.congr ((update_of_ne hi _ _).trans (hbeside.procs_of_ne hi))

end Vm

end Xv6
