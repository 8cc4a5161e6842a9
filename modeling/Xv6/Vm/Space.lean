import Xv6.Vm.Pages

/-!
# Address spaces

Unmapping and growing user memory, and making and freeing whole processes.
-/

namespace Xv6

open Lib Function

namespace Vm

variable {s t u : Vm} {held : List ℕ} {p q slot v : ℕ} {e : Pte} {pr : Proc} {m : Eager}

/-- The code went from one state to another with a given view; the root tables stayed. -/
structure Reaches (s t : Vm) (held : List ℕ) (m : Eager) : Prop where
  wf : t.Wf held
  view : t.view = m
  root : ∀ i, (t.tables i).root = (s.tables i).root

theorem Reaches.refl (h : s.Wf held) : Reaches s s held s.view := ⟨h, rfl, fun _ => rfl⟩

theorem Reaches.trans {m' : Eager} (h : Reaches s t held m) (h' : Reaches t u held m') :
    Reaches s u held m' :=
  ⟨h'.wf, h'.view, fun i => (h'.root i).trans (h.root i)⟩

theorem Quiet.reaches (h : Quiet s t held) : Reaches s t held s.view := ⟨h.wf, h.view, h.root⟩

/-! ### Giving up pages -/

theorem Wf.view_dropPage (h : s.Wf (p :: held)) : (s.dropPage p).view = s.view := by
  apply view_congr dropPage_procs
  intro slot v e he
  apply h.dropPage_mem
  have := refs_pos h.counted.finite (ref_user he)
  unfold Unused
  omega

theorem dropPage_setPte (s : Vm) (p slot v : ℕ) (o : Option Pte) :
    (s.dropPage p).setPte slot v o = (s.setPte slot v o).dropPage p := by
  unfold dropPage setPte modifyProc
  split <;> rfl

theorem dropPage_modifyTables (s : Vm) (p slot : ℕ) (f : Tables → Tables) :
    (s.dropPage p).modifyTables slot f = (s.modifyTables slot f).dropPage p := by
  unfold dropPage modifyTables
  split <;> rfl

variable {k : Place}

theorem Wf.inRange (h : s.Wf held) (hk : s.ref k = some p) : InRange s.base p :=
  h.counted.ok_ref p (h.in_use hk)

theorem isSome_view_page : (s.view.page slot v).isSome ↔ ∃ e, s.userPte slot v = some e := by
  rw [view_page, Option.isSome_map, Option.isSome_iff_exists]

/-- By induction on the pages: none of them is missing, so there is no panic. -/
theorem uvmunmap_spec (slot : ℕ) : ∀ n v s, s.Wf held →
    (∀ x, v ≤ x → x < v + n → (s.view.page slot x).isSome) →
    Ends (uvmunmap slot v n) s (fun _ t => Reaches s t held (s.view.fill slot v (v + n) none))
      fun _ => False := by
  intro n
  induction n with
  | zero =>
    intro v s h _
    apply ends_pure
    rw [Nat.add_zero, Eager.fill_of_le le_rfl]
    exact .refl h
  | succ n ih =>
    intro v s h hmapped
    obtain ⟨e, he⟩ := isSome_view_page.mp (hmapped v le_rfl (by omega))
    obtain ⟨pr, hpr, hpte⟩ := Option.bind_eq_some_iff.mp he
    have hview : ((s.setPte slot v none).dropPage e.ppn).view = s.view.setPage slot v none := by
      rw [(h.clearPte he).view_dropPage, view_setPte]
      rfl
    have himage : s.view slot = some (pr.image s.mem) := by simp [Vm.view, hpr]
    have hrest := ih (v + 1) _ (h.clearPte he).dropPage (by
      intro x hlow hhigh
      have hne : ¬ (slot = slot ∧ x = v) := fun hx => by omega
      rw [hview, Eager.page_setPage himage, if_neg hne]
      exact hmapped x (by omega) (by omega))
    apply ends_bind
    rw [ends_ok (getProc_ok hpr)]
    simp only [hpte]
    apply ends_bind
    rw [ends_ok (kfree_ok (h.inRange (ref_user he)))]
    apply ends_bind
    apply ends_modify
    -- the code frees the page before it clears the entry, with the same outcome
    rw [dropPage_setPte]
    apply hrest.mono _ fun _ hf => hf
    intro _ t ht
    refine ⟨ht.wf, ?_, fun i => ?_⟩
    · rw [ht.view, hview, show v + 1 + n = v + (n + 1) by omega, Eager.setPage_fill (by omega)]
    · rw [ht.root, dropPage_tables]
      rfl

/-- `uvmdealloc` takes the pages between the two sizes away. -/
theorem uvmdealloc_spec {oldsz newsz : ℕ} (h : s.Wf held)
    (hmapped : ∀ x, pages newsz ≤ x → x < pages oldsz → (s.view.page slot x).isSome) (hlt : newsz < oldsz) :
    Ends (uvmdealloc slot oldsz newsz) s
      (fun sz t => sz = newsz ∧ Reaches s t held (s.view.fill slot (pages newsz) (pages oldsz) none))
      fun _ => False := by
  unfold uvmdealloc
  rw [if_neg (by omega)]
  split
  · have hsum : pages newsz + (pages oldsz - pages newsz) = pages oldsz := by omega
    apply ends_bind
    apply (uvmunmap_spec slot (pages oldsz - pages newsz) (pages newsz) s h _).mono _ fun _ hf => hf
    · intro x hlow hhigh
      exact hmapped x hlow (by omega)
    · intro _ t ht
      rw [hsum] at ht
      exact ends_pure ⟨rfl, ht⟩
  · rw [Eager.fill_of_le (by omega)]
    exact ends_pure ⟨rfl, .refl h⟩

/-! ### Growing -/

/-- A page just taken is mapped once the tables for it are there. -/
theorem Taken.mapped (h : Taken s t held e.ppn) (hquiet : Quiet t u (e.ppn :: held))
    (hpr : t.procs slot = some pr)
    (hnone : t.userPte slot v = none) :
    Reaches s (u.setPte slot v (some e)) held (s.view.setPage slot v (some (e.image t.mem))) where
  wf := by
    apply hquiet.wf.fillPte (hquiet.procs ▸ hpr) _ fun _ => hquiet.unused h.unused
    rw [hquiet.userPte, hnone]
  view := by
    have hmem : u.mem e.ppn = t.mem e.ppn := hquiet.mem _ (Or.inl (by simp))
    rw [view_setPte, hquiet.view, h.view]
    simp [Pte.image, hmem]
  root i := (hquiet.root i).trans (by rw [h.tables])

/-- By induction on the pages: each is new and of zeros, unless they reach the trapframe. -/
theorem uvmallocLoop_spec (slot first : ℕ) (w : Bool) : ∀ n v s, s.Wf held → s.view slot ≠ none →
    (∀ x, v ≤ x → x < v + n → s.view.page slot x = none) →
    Fed (uvmallocLoop slot first w false v n) s
      (fun ok t => ok = true ∧ (0 < n → v + n ≤ trapframeVpn) ∧
        Reaches s t held (s.view.fill slot v (v + n) (some ⟨fun _ => 0, true, w, false, true⟩)))
      fun _ => 0 < n ∧ trapframeVpn < v + n := by
  intro n
  induction n with
  | zero =>
    intro v s h _ _
    apply endsUnless_pure
    rw [Nat.add_zero, Eager.fill_of_le le_rfl]
    exact ⟨rfl, fun hn => absurd hn (by omega), .refl h⟩
  | succ n ih =>
    intro v s h hslot hfresh
    have hkeeps : ∀ (p : ℕ) (ok : Bool), Keeps Starved
      (if ok then uvmallocLoop slot first w false (v + 1) n else do
        kfree p
        let _ ← uvmdealloc slot (v * pgsize) (first * pgsize)
        return false) := by
      intro p ok
      apply keeps_ite (keeps_uvmallocLoop slot first w false n (v + 1))
      exact (keeps_kfree p).bind fun _ => (keeps_uvmdealloc _ _ _).bind fun _ => keeps_pure _
    refine kalloc_then h ((keeps_uvmdealloc _ _ _).bind fun _ => keeps_pure _) (fun p => ?_)
      fun p t htaken => ?_
    · refine keeps_modify_then (fun _ => ?_) fun _ => rfl
      exact (keeps_mappages _ _ _).bind (hkeeps p)
    · apply endsUnless_modify
      replace htaken := htaken.setPage fun _ => 0
      have hzero : (t.setPage p fun _ => 0).mem p = fun _ => 0 := update_self _ _ _
      generalize t.setPage p (fun _ => 0) = t at htaken hzero
      have hview := htaken.view
      obtain ⟨pr, hpr⟩ := Option.ne_none_iff_exists'.mp (mt view_eq_none.mpr (hview ▸ hslot))
      have hpage : (t.userPte slot v).map (Pte.image t.mem) = none := by
        rw [← view_page, hview]
        exact hfresh v le_rfl (by omega)
      refine EndsUnless.bind (hkeeps p) ((mappages_spec htaken.wf hpr v _).mono ?_ ?_)
      · rintro _ _ ⟨rfl, hv, hnone, u, hquiet, rfl⟩
        have hmapped := Taken.mapped (e := ⟨p, true, w, false, true, false⟩) htaken hquiet hpr hnone
        simp only [Pte.image, hzero, Bool.or_false] at hmapped
        obtain ⟨im, him⟩ := Option.ne_none_iff_exists'.mp hslot
        apply (ih (v + 1) _ hmapped.wf _ _).mono
        · rintro _ t' ⟨rfl, hbound, hrest⟩
          have hall := hmapped.trans hrest
          rw [hmapped.view, show v + 1 + n = v + (n + 1) by omega, Eager.setPage_fill (by omega)] at hall
          exact ⟨rfl, fun _ => by omega, hall⟩
        · exact fun _ hhalt => ⟨by omega, by omega⟩
        · rw [hmapped.view, Ne, Eager.setPage_eq_none]
          exact hslot
        · intro x hlow hhigh
          have hne : ¬ (slot = slot ∧ x = v) := fun hx => by omega
          rw [hmapped.view, Eager.page_setPage him, if_neg hne]
          exact hfresh x (by omega) (by omega)
      · rintro _ (hle | hsome)
        · exact ⟨by omega, by omega⟩
        · rw [Option.map_eq_none_iff.mp hpage] at hsome
          exact absurd hsome (by simp)

/-! ### Freeing a process -/

/-- The state after a list of pages was given up. -/
def dropAll (s : Vm) (ps : List ℕ) : Vm := ps.foldl dropPage s

@[simp] theorem dropAll_cons (s : Vm) (p : ℕ) (ps : List ℕ) :
    s.dropAll (p :: ps) = (s.dropPage p).dropAll ps := rfl

/-- `kfree` in a row does not panic on pages in range. -/
theorem kfreeAll_ok {ps : List ℕ} (h : ∀ p ∈ ps, InRange s.base p) : kfreeAll ps s = .ok ()
    (s.dropAll ps) := by
  induction ps generalizing s with
  | nil => rfl
  | cons p ps ih =>
    obtain ⟨hp, hps⟩ := List.forall_mem_cons.mp h
    rw [kfreeAll, exec_bind, kfree_ok hp]
    apply ih
    rwa [dropPage_base]

theorem dropAll_modifyTables (s : Vm) (ps : List ℕ) (slot : ℕ) (f : Tables → Tables) :
    (s.dropAll ps).modifyTables slot f = (s.modifyTables slot f).dropAll ps := by
  induction ps generalizing s with
  | nil => rfl
  | cons p ps ih => rw [dropAll_cons, ih, dropPage_modifyTables, dropAll_cons]

theorem dropAll_tables (s : Vm) (ps : List ℕ) : (s.dropAll ps).tables = s.tables := by
  induction ps generalizing s with
  | nil => rfl
  | cons p ps ih => rw [dropAll_cons, ih, dropPage_tables]

/-- Giving up held pages is seen by no process. -/
theorem Wf.dropAll {ps : List ℕ} (h : s.Wf (ps ++ held)) :
    (s.dropAll ps).Wf held ∧ (s.dropAll ps).view = s.view := by
  induction ps generalizing s with
  | nil => exact ⟨h, rfl⟩
  | cons p ps ih =>
    obtain ⟨hwf, hview⟩ := ih h.dropPage
    exact ⟨hwf, hview.trans h.view_dropPage⟩

/-- The places of the tables that `freewalk` frees. -/
def tableKeys (slot : ℕ) (tb : Tables) : List Place :=
  tb.positions.map (fun x => .table slot x.1 x.2) ++ [.root slot]

theorem positions_nodup (tb : Tables) : tb.positions.Nodup := by
  unfold Tables.positions
  rw [List.nodup_flatMap]
  constructor
  · intro i _
    split
    · rw [List.nodup_append]
      refine ⟨List.Nodup.map ?_ List.nodup_range, List.nodup_singleton _, ?_⟩
      · intro j j' heq
        simpa using heq
      · intro x hx y hy heq
        obtain ⟨j, -, rfl⟩ := List.mem_map.mp hx
        simp [List.mem_singleton.mp hy] at heq
    · exact List.nodup_nil
  · apply List.pairwise_lt_range.imp
    intro i i' hlt x hx hx'
    have hbelow : ∀ k, x ∈ (if (tb.table .mid k).isSome then
        (List.range 512).map (fun j => (Level.low, 512 * k + j)) ++ [(Level.mid, k)] else []) →
        (∃ j < 512, x = (.low, 512 * k + j)) ∨ x = (.mid, k) := by
      intro k hk
      split at hk
      · simpa [eq_comm] using hk
      · exact absurd hk (by simp)
    obtain ⟨j, hj, rfl⟩ | rfl := hbelow i hx
    · obtain ⟨j', hj', heq⟩ | heq := hbelow i' hx'
      · simp only [Prod.mk.injEq] at heq
        omega
      · simp at heq
    · obtain ⟨j', hj', heq⟩ | heq := hbelow i' hx'
      · simp at heq
      · simp only [Prod.mk.injEq] at heq
        omega

/-- No table of a process is counted twice. -/
theorem tableKeys_nodup (slot : ℕ) (tb : Tables) : (tableKeys slot tb).Nodup := by
  unfold tableKeys
  rw [List.nodup_append]
  refine ⟨(positions_nodup tb).map ?_, List.nodup_singleton _, ?_⟩
  · intro x y heq
    simp only [Place.table.injEq, true_and] at heq
    exact Prod.ext heq.1 heq.2
  · intro x hx y hy heq
    obtain ⟨z, -, rfl⟩ := List.mem_map.mp hx
    simp [List.mem_singleton.mp hy] at heq

theorem filterMap_tableKeys (s : Vm) (slot : ℕ) : (tableKeys slot (s.tables slot)).filterMap s.ref =
    (s.tables slot).pages := by
  unfold tableKeys Tables.pages
  rw [List.filterMap_append, List.filterMap_map]
  congr 1

/-- The keys of the tables of one slot. -/
def IsTable (slot : ℕ) : Place → Prop
  | .root i => i = slot
  | .table i _ _ => i = slot
  | _ => False

/-- Changing the tables of one slot, but not its trapframe, changes no other pointer. -/
theorem ref_modifyTables {f : Tables → Tables} (hf : ∀ tb, (f tb).trapframe = tb.trapframe)
    (hk : ¬ IsTable slot k) : (s.modifyTables slot f).ref k = s.ref k := by
  cases k with
  | trapframe i =>
    obtain rfl | hi := eq_or_ne i slot
    · simp [ref, modifyTables, hf]
    · simp [ref, modifyTables, hi]
  | root i | table i level j => simp [ref, modifyTables, show i ≠ slot from hk]
  | user i x => rfl

/-- Tables can be forgotten. -/
theorem Wf.forgetTables {f g : Tables → Tables} (h : (s.modifyTables slot f).Wf held)
    (hf : ∀ tb, (f tb).trapframe = tb.trapframe)
    (hg : ∀ tb, g tb = { Tables.empty with trapframe := tb.trapframe }) :
    (s.modifyTables slot g).Wf held := by
  refine h.forget (t := s.modifyTables slot g) ?_ rfl rfl rfl fun _ hk => hk
  intro k hk
  by_cases htable : IsTable slot k
  · cases k with
    | root i | table i level j =>
      obtain rfl : i = slot := htable
      simp [ref, modifyTables, hg, Tables.empty, excl]
    | trapframe i => exact htable.elim
    | user i x => exact htable.elim
  · rw [ref_modifyTables hf htable, ref_modifyTables (fun tb => by rw [hg]) htable] at hk
    exact absurd rfl hk

/-- The tables without those that `freewalk` finds. -/
def unfound (tb : Tables) : Tables :=
  { tb with
    root := none
    table := fun level i => if (level, i) ∈ tb.positions then none else tb.table level i }

/-- What is left of the references when the tables are gone. -/
theorem ref_unfound (s : Vm) (slot : ℕ) :
    (s.modifyTables slot unfound).ref = clearKeys s.ref (tableKeys slot (s.tables slot)) := by
  funext k
  by_cases hk : IsTable slot k
  · cases k with
    | root i | table i level j =>
      obtain rfl : i = slot := hk
      simp [ref, Vm.modifyTables, unfound, clearKeys, tableKeys]
    | trapframe i => exact hk.elim
    | user i x => exact hk.elim
  · refine (ref_modifyTables (fun tb => ?_) hk).trans ?_
    · rfl
    rw [clearKeys, if_neg]
    intro hmem
    apply hk
    unfold tableKeys at hmem
    simp only [List.mem_append, List.mem_map, List.mem_singleton] at hmem
    obtain ⟨x, -, rfl⟩ | rfl := hmem <;> rfl

/-- The tables that `freewalk` finds are given up. -/
theorem Wf.clearFound (h : s.Wf held) (slot : ℕ) :
    (s.modifyTables slot unfound).Wf ((s.tables slot).pages ++ held) := by
  rw [← filterMap_tableKeys]
  exact h.removeAll (t := s.modifyTables slot unfound) (tableKeys_nodup _ _)
    (ref_unfound s slot) rfl rfl rfl fun _ _ => rfl

/-- `freewalk` frees the tables and keeps the trapframe. -/
theorem freewalk_ok (h : s.Wf held) (slot : ℕ) :
    freewalk slot s = .ok () ((s.modifyTables slot
      fun tb => { Tables.empty with trapframe := tb.trapframe }).dropAll
      (s.tables slot).pages) := by
  have hrange : ∀ p ∈ (s.tables slot).pages, InRange s.base p := by
    intro p hp
    rw [← filterMap_tableKeys] at hp
    obtain ⟨k, -, hk⟩ := List.mem_filterMap.mp hp
    exact h.inRange hk
  rw [← dropAll_modifyTables]
  simp only [freewalk, exec_bind, exec_get, kfreeAll_ok hrange, exec_modify]

/-- Freeing the tables is seen by no process. -/
theorem freewalk_spec (h : s.Wf held) (slot : ℕ) :
    Ends (freewalk slot) s
      (fun _ t => t.Wf held ∧ t.view = s.view ∧ t.tables =
        update s.tables slot { Tables.empty with trapframe := (s.tables slot).trapframe })
      fun _ => False := by
  have hcleared : (s.modifyTables slot fun tb => { Tables.empty with trapframe := tb.trapframe }).Wf
      ((s.tables slot).pages ++ held) :=
    (h.clearFound slot).forgetTables (fun _ => rfl) fun _ => rfl
  rw [ends_ok (freewalk_ok h slot)]
  refine ⟨hcleared.dropAll.1, hcleared.dropAll.2, ?_⟩
  rw [dropAll_tables]
  rfl

/-- `uvmfree` takes all pages and then the tables. -/
theorem uvmfree_spec {sz : ℕ} (h : s.Wf held) (hmapped : ∀ x, x < pages sz → (s.view.page slot x).isSome) :
    Ends (uvmfree slot sz) s
      (fun _ t => t.Wf held ∧ t.view = s.view.fill slot 0 (pages sz) none ∧
        ∀ i, i ≠ slot → (t.tables i).root = (s.tables i).root)
      fun _ => False := by
  have hwalk : ∀ t, t.Wf held → Ends (freewalk slot) t
      (fun _ u => u.Wf held ∧ u.view = t.view ∧ ∀ i, i ≠ slot → (u.tables i).root = (t.tables i).root)
      fun _ => False := by
    intro t ht
    refine (freewalk_spec ht slot).mono ?_ fun _ hf => hf
    rintro _ u ⟨hwf, hview, htables⟩
    refine ⟨hwf, hview, fun i hi => ?_⟩
    rw [htables, update_of_ne hi]
  unfold uvmfree
  split
  · apply ends_bind
    apply (uvmunmap_spec slot (pages sz) 0 s h _).mono _ fun _ hf => hf
    · intro x _ hx
      exact hmapped x (by omega)
    · intro _ t ht
      rw [Nat.zero_add] at ht
      refine (hwalk t ht.wf).mono ?_ fun _ hf => hf
      rintro _ u ⟨hwf, hview, hroot⟩
      exact ⟨hwf, hview.trans ht.view, fun i hi => (hroot i hi).trans (ht.root i)⟩
  · obtain rfl : sz = 0 := by omega
    rw [Eager.fill_of_le (by decide)]
    exact hwalk s h

theorem ref_setTrapframe (s : Vm) (slot : ℕ) (o : Option ℕ) :
    (s.modifyTables slot fun tb => { tb with trapframe := o }).ref = update s.ref (.trapframe slot) o := by
  funext k
  cases k with
  | trapframe i | root i | table i level j =>
    obtain rfl | hi := eq_or_ne i slot <;> simp [ref, modifyTables, *]
  | user i x => rfl

theorem ref_setRoot (s : Vm) (slot : ℕ) (o : Option ℕ) :
    (s.modifyTables slot fun tb => { tb with root := o }).ref = update s.ref (.root slot) o := by
  funext k
  cases k with
  | trapframe i | root i | table i level j =>
    obtain rfl | hi := eq_or_ne i slot <;> simp [ref, modifyTables, *]
  | user i x => rfl

/-- Giving up the trapframe is seen by no process. -/
theorem freeTrapframe_spec (h : s.Wf held) (slot : ℕ) :
    Ends (freeTrapframe slot) s (fun _ t => Reaches s t held s.view) fun _ => False := by
  apply ends_get
  cases hp : (s.tables slot).trapframe with
  | none => exact ends_pure (.refl h)
  | some p =>
    have href : s.ref (.trapframe slot) = some p := hp
    have hheld : (s.modifyTables slot fun tb => { tb with trapframe := none }).Wf (p :: held) :=
      h.remove href (ref_setTrapframe s slot none) rfl rfl rfl fun _ _ => rfl
    apply ends_bind
    rw [ends_ok (kfree_ok (h.inRange href))]
    apply ends_modify
    rw [dropPage_modifyTables]
    refine ⟨hheld.dropPage, hheld.view_dropPage, fun i => ?_⟩
    obtain rfl | hi := eq_or_ne i slot <;> simp [modifyTables, *]

/-- The memory of the process goes, the other processes keep theirs. -/
theorem procFreepagetable_spec (h : s.Wf held) {im : ProcImage} (him : s.view slot = some im)
    (hroot : (s.tables slot).root.isSome) (hmapped : ∀ x, x < pages im.sz → (im.page x).isSome) :
    Ends (procFreepagetable slot) s
      (fun _ t => t.Wf held ∧ t.view = s.view.fill slot 0 (pages im.sz) none ∧
        ∀ i, i ≠ slot → (t.tables i).root = (s.tables i).root)
      fun _ => False := by
  obtain ⟨pr, hpr, rfl⟩ := view_eq_some.mp him
  apply ends_get
  rw [if_pos hroot]
  apply ends_bind
  rw [ends_ok (getProc_ok hpr)]
  apply uvmfree_spec h
  intro x hx
  simpa [Eager.page, him] using hmapped x hx

/-- The process table may change as long as the entries stay. -/
theorem Wf.of_userPte {procs : ℕ → Option Proc} (h : s.Wf held)
    (hpte : ∀ i x, { s with procs := procs }.userPte i x = s.userPte i x) :
    { s with procs := procs }.Wf held := by
  refine h.congr (t := { s with procs := procs }) ?_ rfl rfl rfl ?_
  · funext k
    cases k with
    | user i x => simp only [ref, hpte]
    | _ => rfl
  · intro k hk
    cases k with
    | user i x => simpa only [excl, hpte] using hk
    | _ => rfl

/-- A free slot may be given to a new process. -/
theorem userPte_seat (hvacant : s.procs slot = none) (i x : ℕ) :
    { s with procs := update s.procs slot (some .fresh) }.userPte i x = s.userPte i x := by
  obtain rfl | hi := eq_or_ne i slot
  · simp [userPte, hvacant, Proc.fresh]
  · simp [userPte, hi]

/-- A slot without entries may be given up. -/
theorem userPte_vacate (hempty : ∀ x, s.userPte slot x = none) (i x : ℕ) :
    { s with procs := update s.procs slot none }.userPte i x = s.userPte i x := by
  obtain rfl | hi := eq_or_ne i slot
  · rw [hempty]
    simp [userPte]
  · simp [userPte, hi]

theorem view_occupy (s : Vm) (slot : ℕ) (o : Option Proc) :
    ({ s with procs := update s.procs slot o } : Vm).view =
      update s.view slot (o.map (Proc.image s.mem)) := by
  funext i
  obtain rfl | hi := eq_or_ne i slot
  · simp [Vm.view]
  · simp [Vm.view, hi]

/-- The slot is empty, the other processes are as they were. -/
theorem freeproc_spec (h : s.Wf held) {im : ProcImage} (him : s.view slot = some im)
    (hroot : (s.tables slot).root.isSome) (hmapped : ∀ x, (im.page x).isSome ↔ x < pages im.sz) :
    Ends (freeproc slot) s
      (fun _ t => t.Wf held ∧ t.view = update s.view slot none ∧
        ∀ i, i ≠ slot → (t.tables i).root = (s.tables i).root)
      fun _ => False := by
  apply ends_bind
  apply (freeTrapframe_spec h slot).mono _ fun _ hf => hf
  intro _ t ht
  apply ends_bind
  apply (procFreepagetable_spec ht.wf (ht.view ▸ him) (ht.root slot ▸ hroot) fun x hx =>
    (hmapped x).mpr hx).mono _
    fun _ hf => hf
  rintro _ u ⟨hwf, hview, hroots⟩
  rw [ht.view] at hview
  have hempty : ∀ x, u.userPte slot x = none := by
    intro x
    have hpage : u.view.page slot x = none := by
      rw [hview]
      simp only [Eager.page, Eager.fill, Eager.modifyProc, him, update_self, Option.map_some,
        Option.bind_some]
      split
      · rfl
      · have := hmapped x
        rw [← Option.not_isSome_iff_eq_none, this]
        omega
    rw [view_page] at hpage
    exact Option.map_eq_none_iff.mp hpage
  apply ends_modify
  refine ⟨hwf.of_userPte (userPte_vacate hempty), ?_, fun i hi => (hroots i hi).trans (ht.root i)⟩
  rw [view_occupy, hview, Eager.fill, Eager.modifyProc, update_idem]
  rfl

/-! ### Making a process -/

section

variable (h : s.Wf (p :: held)) (hunused : s.Unused held p)

include h hunused

/-- A pointer that nobody shares gives way to a page in hand. -/
theorem Wf.overwrite {cleared filled : ℕ → Tables}
    (hk : s.excl k = true) (hcleared : ({ s with tables := cleared } : Vm).ref = update s.ref k none)
    (hfilled : ({ s with tables := filled } : Vm).ref = update s.ref k (some p)) :
    { s with tables := filled }.Wf held := by
  have hwf : { s with tables := cleared }.Wf (p :: held) := by
    refine h.forget (t := { s with tables := cleared }) ?_ rfl rfl rfl fun _ hj => hj
    intro j hj
    rw [hcleared] at hj ⊢
    obtain rfl | hne := eq_or_ne j k
    · exact ⟨update_self _ _ _, hk⟩
    · exact absurd (update_of_ne hne _ _) hj
  have hunused' : { s with tables := cleared }.Unused held p := by
    have hnone : ∀ j, s.ref j ≠ some p := fun j hj => h.ne_of_unused hunused hj rfl
    unfold Unused at hunused ⊢
    have hzero : refs ({ s with tables := cleared } : Vm).ref p = 0 := by
      rw [refs_eq_zero hwf.counted.finite]
      intro j hj
      rw [hcleared] at hj
      obtain rfl | hne := eq_or_ne j k
      · simp at hj
      · exact hnone j (by rwa [update_of_ne hne] at hj)
    omega
  refine hwf.store (t := { s with tables := filled }) (k := k) ?_ ?_ rfl rfl rfl (fun _ _ => rfl)
    fun _ => hunused'
  · rw [hcleared, update_self]
  · rw [hfilled, hcleared, update_idem]

theorem Wf.setTrapframe (slot : ℕ) :
    (s.modifyTables slot fun tb => { tb with trapframe := some p }).Wf held :=
  h.overwrite hunused rfl (ref_setTrapframe s slot none) (ref_setTrapframe s slot (some p))

theorem Wf.setRoot (slot : ℕ) :
    (s.modifyTables slot fun tb => { tb with root := some p }).Wf held :=
  h.overwrite hunused rfl (ref_setRoot s slot none) (ref_setRoot s slot (some p))

end

/-- The empty page table of a new process. -/
theorem procPagetable_spec (h : s.Wf held) (slot : ℕ) :
    Fed (procPagetable slot) s
      (fun ok t => ok = true ∧ t.Wf held ∧ t.view = s.view ∧ (t.tables slot).root.isSome ∧
        ∀ i, i ≠ slot → (t.tables i).root = (s.tables i).root)
      fun _ => False := by
  have hfailed : Keeps Starved (do uvmfree slot 0; return false) :=
    (keeps_uvmfree slot 0).bind fun _ => keeps_pure _
  have hsecond : ∀ ok : Bool, Keeps Starved
    (if ok then return true else do uvmfree slot 0; return false : VmM Bool) :=
    fun _ => keeps_ite (keeps_pure _) hfailed
  have hfirst : ∀ ok : Bool, Keeps Starved (if ok then do
        if ← walkAlloc slot trapframeVpn then return true
        else
          uvmfree slot 0
          return false
      else do
        uvmfree slot 0
        return false) :=
    fun _ => keeps_ite ((keeps_walkAlloc _ _).bind hsecond) hfailed
  refine kalloc_then h (keeps_pure _)
    (fun _ => keeps_modify_then (fun _ => (keeps_walkAlloc _ _).bind hfirst) fun _ => rfl)
      fun p t htaken => ?_
  apply endsUnless_modify
  replace htaken := htaken.setPage fun _ => 0
  have hwf := htaken.wf.setRoot htaken.unused slot
  refine EndsUnless.bind hfirst ((walkAlloc_spec hwf slot _).mono ?_ ?_)
  · rintro _ u ⟨rfl, -, hu⟩
    refine EndsUnless.bind hsecond ((walkAlloc_spec hu.wf slot _).mono ?_ ?_)
    · rintro _ w ⟨rfl, -, hw⟩
      have hquiet := hu.trans hw
      refine endsUnless_pure ⟨rfl, hquiet.wf, hquiet.view.trans htaken.view, ?_, fun i hi => ?_⟩
      · rw [hquiet.root]
        simp [modifyTables]
      · rw [hquiet.root]
        simp [modifyTables, hi, htaken.tables]
    · exact fun _ hhalt => absurd hhalt (by decide)
  · exact fun _ hhalt => absurd hhalt (by decide)

/-- A process without memory. -/
def freshImage : ProcImage where
  sz := 0
  parent := none
  zombie := false
  xstate := []
  page := fun _ => none

theorem isNone_view (s : Vm) : (fun i => (s.view i).isNone) = fun i => (s.procs i).isNone := by
  funext i
  simp [Vm.view]

/-- `allocproc` takes the first empty slot for a process without memory. -/
theorem allocproc_spec (h : s.Wf held) :
    Fed allocproc s
      (fun r t => r = ((List.range nproc).find? fun i => (s.view i).isNone) ∧
        match r with
        | none => t = s
        | some slot => t.Wf held ∧ t.view = update s.view slot (some freshImage) ∧
          (t.tables slot).root.isSome ∧ ∀ i, i ≠ slot → (t.tables i).root = (s.tables i).root)
      fun _ => False := by
  have hfailed (slot : ℕ) : Keeps Starved (do freeproc slot; return none : VmM (Option ℕ)) :=
    (keeps_freeproc slot).bind fun _ => keeps_pure _
  have hmade (slot : ℕ) (ok : Bool) : Keeps Starved (if ok then return some slot else do
      freeproc slot
      return none : VmM (Option ℕ)) := keeps_ite (keeps_pure _) (hfailed slot)
  apply endsUnless_get
  rw [← isNone_view]
  cases hfind : (List.range nproc).find? fun i => (s.view i).isNone with
  | none => exact endsUnless_pure ⟨rfl, rfl⟩
  | some slot =>
    have hvacant : s.procs slot = none := by
      have := List.find?_some hfind
      simpa [Vm.view] using this
    apply endsUnless_modify
    have hwf := h.of_userPte (userPte_seat hvacant)
    refine kalloc_then hwf (hfailed slot)
      (fun _ => keeps_modify_then (fun _ => (keeps_procPagetable slot).bind (hmade slot))
        fun _ => rfl) fun p t htaken => ?_
    apply endsUnless_modify
    refine EndsUnless.bind (hmade slot)
      ((procPagetable_spec (htaken.wf.setTrapframe htaken.unused slot) slot).mono ?_ fun _ hf => hf)
    rintro _ u ⟨rfl, hu, hview, hroot, hroots⟩
    refine endsUnless_pure ⟨rfl, hu, ?_, hroot, fun i hi => ?_⟩
    · rw [hview]
      refine htaken.view.trans ?_
      rw [view_occupy]
      rfl
    · rw [hroots i hi]
      simp [modifyTables, hi, htaken.tables]

end Vm

end Xv6
