import Xv6.Vm.Cow
import Xv6.Vm.Exec

/-!
# No page is lost

The page counters are right whether or not memory runs out, and every page behind the kernel is free
or accounted for. `Ledger s held` says so for a state in which the code holds the pages `held`;
`Orderly` adds that the tables of every page table hang together and that every entry is behind one
of them. The specifications here say nothing about calls that halt.
-/

namespace Xv6

open Lib Function

/-- The fields of a process besides its entries. -/
def Proc.header (pr : Proc) : ℕ × Option ℕ × Bool × List UInt8 := (pr.sz, pr.parent, pr.zombie, pr.xstate)

/-- The tables of a page table hang together. -/
structure Tables.Linked (tb : Tables) : Prop where
  mid : ∀ a, tb.table .mid a ≠ none → a < 512 ∧ tb.root ≠ none
  low : ∀ a, tb.table .low a ≠ none → tb.table .mid (a / 512) ≠ none

theorem Tables.Linked.empty : Tables.empty.Linked := ⟨fun _ h => absurd rfl h, fun _ h => absurd rfl h⟩

namespace Vm

variable {s t u : Vm} {held : List ℕ} {p q slot v : ℕ} {e e' : Pte} {pr : Proc} {ok : Pte → Prop}

/-- The counters are right and no page is lost. -/
structure Ledger (s : Vm) (held : List ℕ) : Prop where
  wf : s.Wf held
  complete : Complete (InRange s.base) s.ref held s.free

variable {held' : List ℕ}

namespace Ledger

/-- A change that takes no pointer away. -/
theorem mono (h : s.Ledger held) (hwf : t.Wf held') (hbase : t.base = s.base) (hfree : t.free = s.free)
    (hle : ∀ q, refs s.ref q + held.count q ≤ refs t.ref q + held'.count q) : t.Ledger held' := by
  refine ⟨hwf, ?_⟩
  rw [hbase, hfree]
  exact h.complete.mono hle

/-- A change of state that leaves the pointers alone. -/
theorem congr (h : s.Ledger held) (href : t.ref = s.ref) (hbase : t.base = s.base)
    (hcount : t.count = s.count)
    (hfree : t.free = s.free) (hexcl : ∀ k, t.excl k = true → s.excl k = true) : t.Ledger held :=
  h.mono (h.wf.congr href hbase hcount hfree hexcl) hbase hfree fun q => by rw [href]

/-- A held page is given up. -/
theorem dropPage (h : s.Ledger (p :: held)) : (s.dropPage p).Ledger held := by
  refine ⟨h.wf.dropPage, ?_⟩
  unfold Vm.dropPage
  split
  · apply h.complete.drop_used
    have hcount := h.wf.counted.count_eq p
    rw [List.count_cons_self] at hcount
    omega
  · exact h.complete.drop_last

/-- The first free page is taken and held. -/
theorem takePage {free : List ℕ} (h : s.Ledger held) (hfree : s.free = p :: free) :
    (s.takePage p free).Ledger (p :: held) := by
  refine ⟨(h.wf.takePage hfree).1, ?_⟩
  have hcomplete := h.complete
  rw [hfree] at hcomplete
  exact hcomplete.take

/-- A cleared entry leaves its page in hand. -/
theorem clearPte (h : s.Ledger held) (he : s.userPte slot v = some e) :
    (s.setPte slot v none).Ledger (e.ppn :: held) := by
  obtain ⟨pr, hpr, -⟩ := Option.bind_eq_some_iff.mp he
  refine h.mono (h.wf.clearPte he) rfl rfl fun q => ?_
  rw [ref_setPte hpr, Option.map_none, refs_remove h.wf.counted.finite (ref_user he)]

/-- A held page goes into an empty entry; a writable entry needs a page of its own. -/
theorem fillPte (h : s.Ledger (e.ppn :: held)) (hpr : s.procs slot = some pr) (he : s.userPte slot v = none)
    (hunused : e.w = true → s.Unused held e.ppn) : (s.setPte slot v (some e)).Ledger held := by
  refine h.mono (h.wf.fillPte hpr he hunused) rfl rfl fun q => ?_
  have hnone : s.ref (.user slot v) = none := by simp [ref, he]
  rw [ref_setPte hpr, Option.map_some, refs_store h.wf.counted.finite hnone]

/-- An entry is replaced by one for the same page that does not allow more. -/
theorem changePte (h : s.Ledger held) (he : s.userPte slot v = some e) (hppn : e'.ppn = e.ppn)
    (hw : e'.w = true → e.w = true) : (s.setPte slot v (some e')).Ledger held :=
  h.congr (t := s.setPte slot v (some e')) (ref_changePte he hppn) rfl rfl rfl (excl_changePte he hw)

/-- One more pointer to a page that a read-only entry points to. -/
theorem share (h : s.Ledger held) (he : s.userPte slot v = some e) (hw : e.w = false) :
    { s with count := update s.count e.ppn (s.count e.ppn + 1) }.Ledger (e.ppn :: held) := by
  refine h.mono (h.wf.share (ref_user he) ((excl_user he).trans hw)) rfl rfl fun q => ?_
  have href : ({ s with count := update s.count e.ppn (s.count e.ppn + 1) } : Vm).ref = s.ref := rfl
  rw [href, List.count_cons]
  omega

/-- A held page is one of those that `kalloc` hands out. -/
theorem inRange (h : s.Ledger held) (hp : p ∈ held) : InRange s.base p := by
  apply h.wf.counted.ok_ref
  have := List.count_pos_iff.mpr hp
  omega

end Ledger

/-! ### Page tables in order -/

/-- The page table of a slot is in order: its tables hang together, and every entry is of a given
kind, lies below the trapframe and has its table. -/
structure Tidy (ok : Pte → Prop) (s : Vm) (i : ℕ) : Prop where
  linked : (s.tables i).Linked
  leaf : ∀ x e, s.userPte i x = some e → ok e ∧ x < trapframeVpn ∧ (s.tables i).table .low (x / 2 ^ 9) ≠ none

/-- The ledger and all page tables are in order. -/
structure Orderly (ok : Pte → Prop) (s : Vm) (held : List ℕ) : Prop where
  ledger : s.Ledger held
  tidy : ∀ i, s.Tidy ok i

/-- What code for the memory of processes leaves alone. -/
structure Frame (s t : Vm) : Prop where
  base : t.base = s.base
  header : ∀ i, (t.procs i).map Proc.header = (s.procs i).map Proc.header
  trapframe : ∀ i, (t.tables i).trapframe = (s.tables i).trapframe
  root : ∀ i, (t.tables i).root = (s.tables i).root

theorem Frame.refl (s : Vm) : Frame s s := ⟨rfl, fun _ => rfl, fun _ => rfl, fun _ => rfl⟩

theorem Frame.trans (h : Frame s t) (h' : Frame t u) : Frame s u where
  base := h'.base.trans h.base
  header i := (h'.header i).trans (h.header i)
  trapframe i := (h'.trapframe i).trans (h.trapframe i)
  root i := (h'.root i).trans (h.root i)

theorem frame_setPte (s : Vm) (slot v : ℕ) (o : Option Pte) : Frame s (s.setPte slot v o) where
  base := rfl
  header i := by
    obtain rfl | hi := eq_or_ne i slot
    · cases hpr : s.procs i <;> simp [setPte, modifyProc, hpr, Proc.header]
    · simp [setPte, modifyProc, hi]
  trapframe _ := rfl
  root _ := rfl

theorem frame_dropPage (s : Vm) (p : ℕ) : Frame s (s.dropPage p) where
  base := dropPage_base
  header i := by rw [dropPage_procs]
  trapframe i := by rw [dropPage_tables]
  root i := by rw [dropPage_tables]

theorem Frame.isSome (h : Frame s t) (i : ℕ) : (t.procs i).isSome = (s.procs i).isSome := by
  rw [← Option.isSome_map (f := Proc.header), h.header, Option.isSome_map]

variable {i : ℕ}

theorem Frame.exists_proc (h : Frame s t) (hpr : s.procs i = some pr) : ∃ pr', t.procs i = some pr' := by
  rw [← Option.isSome_iff_exists, h.isSome, hpr]
  rfl

theorem Frame.sz {pr' : Proc} (h : Frame s t) (hpr : s.procs i = some pr) (hpr' : t.procs i = some pr') :
    pr'.sz = pr.sz := by
  have := h.header i
  rw [hpr, hpr'] at this
  exact congrArg Prod.fst (Option.some.inj this)

/-- A page table stays in order when its entries stay or vanish and its tables stay. -/
theorem Tidy.congr (h : s.Tidy ok i) (htables : t.tables i = s.tables i)
    (hpte : ∀ x e, t.userPte i x = some e → s.userPte i x = some e) : t.Tidy ok i := by
  constructor
  · rw [htables]
    exact h.linked
  · intro x e he
    rw [htables]
    exact h.leaf x e (hpte x e he)

/-- A change that adds no entry and leaves the tables. -/
theorem Orderly.congr (h : s.Orderly ok held) (hledger : t.Ledger held') (htables : t.tables = s.tables)
    (hpte : ∀ i x e, t.userPte i x = some e → s.userPte i x = some e) : t.Orderly ok held' :=
  ⟨hledger, fun i => (h.tidy i).congr (by rw [htables]) (hpte i)⟩

theorem userPte_congr (hprocs : t.procs = s.procs) (i x : ℕ) : t.userPte i x = s.userPte i x := by
  rw [userPte, userPte, hprocs]

theorem Orderly.dropPage (h : s.Orderly ok (p :: held)) : (s.dropPage p).Orderly ok held := by
  apply h.congr h.ledger.dropPage dropPage_tables
  intro i x e he
  rwa [userPte_congr dropPage_procs] at he

theorem Orderly.clearPte (h : s.Orderly ok held) (he : s.userPte slot v = some e) :
    (s.setPte slot v none).Orderly ok (e.ppn :: held) := by
  obtain ⟨pr, hpr, -⟩ := Option.bind_eq_some_iff.mp he
  apply h.congr (h.ledger.clearPte he) rfl
  intro i x f hf
  rw [userPte_setPte hpr] at hf
  split at hf
  · exact absurd hf (by simp)
  · exact hf

/-- The entries after one of them was stored. -/
theorem Orderly.setPte (h : s.Orderly ok held) (hpr : s.procs slot = some pr)
    (hledger : (s.setPte slot v (some e)).Ledger held') (hok : ok e) (hv : v < trapframeVpn)
    (htable : (s.tables slot).table .low (v / 2 ^ 9) ≠ none) :
    (s.setPte slot v (some e)).Orderly ok held' := by
  refine ⟨hledger, fun i => ⟨(h.tidy i).linked, fun x f hf => ?_⟩⟩
  rw [userPte_setPte hpr] at hf
  split at hf
  · rename_i hix
    obtain ⟨rfl, rfl⟩ := hix
    cases hf
    exact ⟨hok, hv, htable⟩
  · exact (h.tidy i).leaf x f hf

theorem Orderly.fillPte (h : s.Orderly ok (e.ppn :: held)) (hpr : s.procs slot = some pr)
    (he : s.userPte slot v = none) (hunused : e.w = true → s.Unused held e.ppn) (hok : ok e)
    (hv : v < trapframeVpn)
    (htable : (s.tables slot).table .low (v / 2 ^ 9) ≠ none) : (s.setPte slot v (some e)).Orderly ok held :=
  h.setPte hpr (h.ledger.fillPte hpr he hunused) hok hv htable

/-- An entry may lose the right to write. -/
theorem Orderly.changePte (h : s.Orderly ok held) (he : s.userPte slot v = some e) (hppn : e'.ppn = e.ppn)
    (hw : e'.w = true → e.w = true) (hok : ok e') : (s.setPte slot v (some e')).Orderly ok held := by
  obtain ⟨pr, hpr, -⟩ := Option.bind_eq_some_iff.mp he
  obtain ⟨-, hv, htable⟩ := (h.tidy slot).leaf v e he
  exact h.setPte hpr (h.ledger.changePte he hppn hw) hok hv htable

/-- Contents of pages do not matter. -/
theorem Orderly.setPage (h : s.Orderly ok held) (p : ℕ) (b : Bytes) : (s.setPage p b).Orderly ok held :=
  h.congr (h.ledger.congr rfl rfl rfl rfl fun _ hk => hk) rfl fun _ _ _ he => he

/-! ### Allocating and walking -/

/-- Neither processes nor tables changed. -/
structure Still (ok : Pte → Prop) (s t : Vm) (held : List ℕ) : Prop where
  orderly : t.Orderly ok held
  procs : t.procs = s.procs
  tables : t.tables = s.tables
  base : t.base = s.base

theorem Still.frame (h : Still ok s t held) : Frame s t where
  base := h.base
  header i := by rw [h.procs]
  trapframe i := by rw [h.tables]
  root i := by rw [h.tables]

theorem Still.setPage (h : Still ok s t held) (p : ℕ) (b : Bytes) : Still ok s (t.setPage p b) held :=
  ⟨h.orderly.setPage p b, h.procs, h.tables, h.base⟩

/-- What `kalloc` returns, and the state it leaves behind. -/
def Allocates (ok : Pte → Prop) (s : Vm) (held : List ℕ) : Option ℕ → Vm → Prop
  | none, t => Still ok s t held
  | some p, t => Still ok s t (p :: held) ∧ t.Unused held p

theorem not_mem_of_unused (h : s.Unused held p) : p ∉ held := by
  intro hmem
  have := List.count_pos_iff.mpr hmem
  unfold Unused at h
  omega

/-- `kalloc` returns an unused page, or none and changes nothing. -/
theorem kalloc_lands (h : s.Orderly ok held) : Lands kalloc s (Allocates ok s held) := by
  apply ends_get
  cases hfree : s.free with
  | nil =>
    apply ends_bind
    apply ends_set
    apply ends_pure
    have hledger : ({ s with free := [], starved := true } : Vm).Ledger held :=
      h.ledger.congr (t := { s with free := [], starved := true }) rfl rfl rfl hfree.symm fun _ hk => hk
    exact ⟨h.congr hledger rfl fun _ _ _ he => he, rfl, rfl, rfl⟩
  | cons p free =>
    apply ends_bind
    apply ends_set
    apply ends_pure
    have hledger := h.ledger.takePage hfree
    exact ⟨⟨h.congr hledger rfl fun _ _ _ he => he, rfl, rfl, rfl⟩, (h.ledger.wf.takePage hfree).2⟩

/-- `kfree` gives up a held page. -/
theorem kfree_lands (h : s.Orderly ok (p :: held)) :
    Lands (kfree p) s fun _ t => t = s.dropPage p ∧ t.Orderly ok held := by
  rw [Lands, ends_ok (kfree_ok (h.ledger.inRange (by simp)))]
  exact ⟨rfl, h.dropPage⟩

theorem getProc_lands {α : Type} {f : Proc → VmM α} {post : α → Vm → Prop}
    (h : ∀ pr, s.procs slot = some pr → Lands (f pr) s post) : Lands (getProc slot >>= f) s post := by
  cases hpr : s.procs slot with
  | none =>
    have hthrow : getProc slot s = .error .fault s := by simp [getProc, hpr]
    exact ends_bind ((ends_error hthrow).mpr trivial)
  | some pr => exact lands_of_ok (getProc_ok hpr) (h pr hpr)

/-- Tables may have been added; nothing else changed. -/
structure Grows (ok : Pte → Prop) (s t : Vm) (held : List ℕ) : Prop where
  orderly : t.Orderly ok held
  procs : t.procs = s.procs
  frame : Frame s t
  table : ∀ i level a, (s.tables i).table level a ≠ none → (t.tables i).table level a ≠ none
  refs : ∀ q ∈ held, refs t.ref q = refs s.ref q

theorem Still.grows (h : Still ok s t held) : Grows ok s t held where
  orderly := h.orderly
  procs := h.procs
  frame := h.frame
  table i level a ha := by rwa [h.tables]
  refs q _ := by rw [ref_congr h.procs h.tables]

theorem Grows.trans (h : Grows ok s t held) (h' : Grows ok t u held) : Grows ok s u held where
  orderly := h'.orderly
  procs := h'.procs.trans h.procs
  frame := h.frame.trans h'.frame
  table i level a ha := h'.table i level a (h.table i level a ha)
  refs q hq := (h'.refs q hq).trans (h.refs q hq)

/-- A page that was unused still is. -/
theorem Grows.unused (h : Grows ok s t (p :: held)) (hp : s.Unused held p) : t.Unused held p := by
  unfold Unused at hp ⊢
  rwa [h.refs p (by simp)]

theorem Grows.userPte (h : Grows ok s t held) (i x : ℕ) : t.userPte i x = s.userPte i x :=
  userPte_congr h.procs i x

/-- The table above a table is there. -/
def Tables.Above (tb : Tables) : Level → ℕ → Prop
  | .mid, a => a < 512 ∧ tb.root ≠ none
  | .low, a => tb.table .mid (a / 512) ≠ none

/-- The tables after one is entered. -/
theorem setTable_table (tb : Tables) (level l : Level) (i a p : ℕ) :
    (tb.setTable level i p).table l a = if l = level ∧ a = i then some p else tb.table l a := by
  by_cases hl : l = level
  · subst hl
    by_cases ha : a = i <;> simp [Tables.setTable, ha]
  · simp [Tables.setTable, hl]

variable {level : Level}

/-- A table entered below an existing one is linked. -/
theorem linked_setTable {tb : Tables} (h : tb.Linked) (habove : Tables.Above tb level i) (p : ℕ) :
    (tb.setTable level i p).Linked := by
  constructor
  · intro a ha
    rw [setTable_table] at ha
    split at ha
    · rename_i heq
      obtain ⟨rfl, rfl⟩ := heq
      exact habove
    · exact h.mid a ha
  · intro a ha
    rw [setTable_table] at ha ⊢
    split
    · simp
    · split at ha
      · rename_i heq
        obtain ⟨rfl, rfl⟩ := heq
        exact habove
      · exact h.low a ha

/-- A page in hand becomes a table. -/
theorem Still.addTable (h : Still ok s t (p :: held)) (hunused : t.Unused held p)
    (hnone : (s.tables slot).table level i = none) (habove : Tables.Above (s.tables slot) level i) :
    Grows ok s (t.modifyTables slot fun tb => tb.setTable level i p) held := by
  have hplace : t.ref (.table slot level i) = none := by
    simp only [ref, h.tables]
    exact hnone
  have hwf : (t.modifyTables slot fun tb => tb.setTable level i p).Wf held :=
    h.orderly.ledger.wf.store hplace (ref_setTable t slot level i p) rfl rfl rfl (fun j _ => rfl)
      fun _ => hunused
  have hledger : (t.modifyTables slot fun tb => tb.setTable level i p).Ledger held := by
    refine h.orderly.ledger.mono hwf rfl rfl fun q => ?_
    rw [ref_setTable, refs_store h.orderly.ledger.wf.counted.finite hplace]
  have hadded : ∀ j l a, (s.tables j).table l a ≠ none →
      ((t.modifyTables slot fun tb => tb.setTable level i p).tables j).table l a ≠ none := by
    intro j l a ha
    obtain rfl | hj := eq_or_ne j slot
    · simp only [modifyTables, update_self, setTable_table, h.tables]
      split
      · simp
      · exact ha
    · simpa [modifyTables, hj, h.tables] using ha
  refine ⟨⟨hledger, fun j => ⟨?_, ?_⟩⟩, h.procs, ⟨h.base, fun j => ?_, fun j => ?_, fun j => ?_⟩, hadded, ?_⟩
  · obtain rfl | hj := eq_or_ne j slot
    · simp only [modifyTables, update_self, h.tables]
      refine linked_setTable ?_ habove p
      exact h.tables ▸ (h.orderly.tidy j).linked
    · simp only [modifyTables, update_of_ne hj]
      exact (h.orderly.tidy j).linked
  · intro x f hf
    obtain ⟨hokf, hx, htable⟩ := (h.orderly.tidy j).leaf x f hf
    rw [h.tables] at htable
    exact ⟨hokf, hx, hadded j .low _ htable⟩
  · change Option.map _ (t.procs j) = _
    rw [h.procs]
  · obtain rfl | hj := eq_or_ne j slot
    · simp [modifyTables, Tables.setTable, h.tables]
    · simp [modifyTables, hj, h.tables]
  · obtain rfl | hj := eq_or_ne j slot
    · simp [modifyTables, Tables.setTable, h.tables]
    · simp [modifyTables, hj, h.tables]
  · intro q hq
    have hne : q ≠ p := by
      rintro rfl
      unfold Unused at hunused
      have := List.count_pos_iff.mpr hq
      omega
    rw [ref_setTable, refs_update_some h.orderly.ledger.wf.counted.finite hplace, if_neg hne, Nat.add_zero,
      ref_congr h.procs h.tables]

/-- The walk adds the missing table of one level, or fails. -/
theorem walkLevel_lands (h : s.Orderly ok held) (habove : Tables.Above (s.tables slot) level i) :
    Lands (walkLevel slot level i) s fun found t =>
      Grows ok s t held ∧ (found = true → (t.tables slot).table level i ≠ none) := by
  apply ends_get
  apply ends_ite
  · intro hsome
    apply ends_pure
    exact ⟨Still.grows ⟨h, rfl, rfl, rfl⟩, fun _ => Option.isSome_iff_ne_none.mp hsome⟩
  · intro hnone
    rw [Option.not_isSome_iff_eq_none] at hnone
    apply (kalloc_lands h).bind
    intro r t ht
    cases r with
    | none => exact ends_pure ⟨ht.grows, fun hf => absurd hf (by simp)⟩
    | some p =>
      apply lands_modify
      apply ends_pure
      refine ⟨(ht.1.setPage p _).addTable ht.2 hnone habove, fun _ => ?_⟩
      simp [modifyTables, setTable_table]

/-- A walk that does not fail ends at a table of leaves. -/
theorem walkAlloc_lands (h : s.Orderly ok held) (hroot : (s.tables slot).root ≠ none) :
    Lands (walkAlloc slot v) s fun found t =>
      Grows ok s t held ∧ (found = true → (t.tables slot).table .low (v / 2 ^ 9) ≠ none) ∧ v < maxVpn := by
  apply ends_ite
  · exact fun _ => lands_throw
  · intro hle
    have hv : v < maxVpn := Nat.lt_of_not_le hle
    have hindex : v / 2 ^ 18 < 512 := by
      rw [Nat.div_lt_iff_lt_mul (by decide)]
      exact lt_trans hv (by decide)
    have hmid : Tables.Above (s.tables slot) .mid (v / 2 ^ 18) := ⟨hindex, hroot⟩
    apply (walkLevel_lands h hmid).bind
    rintro found t ⟨hgrows, hfound⟩
    apply ends_ite
    · intro htrue
      have hdiv : v / 2 ^ 9 / 512 = v / 2 ^ 18 := Nat.div_div_eq_div_mul v (2 ^ 9) 512
      have habove : Tables.Above (t.tables slot) .low (v / 2 ^ 9) := by
        change (t.tables slot).table .mid (v / 2 ^ 9 / 512) ≠ none
        rw [hdiv]
        exact hfound htrue
      apply (walkLevel_lands hgrows.orderly habove).mono
      rintro found u ⟨hgrows', hfound'⟩
      exact ⟨hgrows.trans hgrows', hfound', hv⟩
    · exact fun _ => ends_pure ⟨hgrows, fun hf => absurd hf (by simp), hv⟩

/-- What `mappages` did: tables may have been added, and on success one entry was stored. -/
inductive Maps (ok : Pte → Prop) (s : Vm) (held : List ℕ) (slot v : ℕ) (e : Pte) : Bool → Vm → Prop
  | no {t : Vm} (grows : Grows ok s t held) : Maps ok s held slot v e false t
  | yes {u : Vm} {pr : Proc} (grows : Grows ok s u held)
      (table : (u.tables slot).table .low (v / 2 ^ 9) ≠ none)
      (below : v < trapframeVpn) (proc : s.procs slot = some pr) (fresh : s.userPte slot v = none) :
      Maps ok s held slot v e true (u.setPte slot v (some e))

/-- `mappages` enters the leaf, fails for want of a table, or panics. -/
theorem mappages_lands (h : s.Orderly ok held) (hroot : (s.tables slot).root ≠ none) (v : ℕ) (e : Pte) :
    Lands (mappages slot v e) s (Maps ok s held slot v e) := by
  apply (walkAlloc_lands h hroot).bind
  rintro found u ⟨hgrows, hfound, hv⟩
  apply ends_ite
  · intro htrue
    apply getProc_lands
    intro pr hpr
    apply ends_ite
    · exact fun _ => lands_throw
    · intro hfresh
      simp only [not_or, Option.not_isSome_iff_eq_none] at hfresh
      obtain ⟨hnone, hne, hne'⟩ := hfresh
      have hbelow : v < trapframeVpn := by
        have : trampolineVpn = trapframeVpn + 1 := by decide
        have : maxVpn = trapframeVpn + 2 := by decide
        omega
      rw [hgrows.procs] at hpr
      exact ends_bind (ends_modify
        (ends_pure (.yes hgrows (hfound htrue) hbelow hpr (by simp [userPte, hpr, hnone]))))
  · exact fun _ => ends_pure (.no hgrows)

/-! ### Unmapping -/

/-- The entries of a slot between two pages are gone, and their pages are given up. -/
structure Cleared (ok : Pte → Prop) (s t : Vm) (held : List ℕ) (slot lo hi : ℕ) : Prop where
  orderly : t.Orderly ok held
  frame : Frame s t
  tables : t.tables = s.tables
  others : ∀ i, i ≠ slot → t.procs i = s.procs i
  userPte : ∀ i x, t.userPte i x = if i = slot ∧ lo ≤ x ∧ x < hi then none else s.userPte i x

theorem Cleared.refl (h : s.Orderly ok held) {lo hi : ℕ} (hle : hi ≤ lo) :
    Cleared ok s s held slot lo hi where
  orderly := h
  frame := .refl s
  tables := rfl
  others _ _ := rfl
  userPte i x := by rw [if_neg (by omega)]

theorem Cleared.ne_none {x lo hi : ℕ} (h : Cleared ok s t held slot lo hi) (hne : t.userPte i x ≠ none) :
    s.userPte i x ≠ none ∧ ¬ (i = slot ∧ lo ≤ x ∧ x < hi) := by
  rw [h.userPte] at hne
  split at hne
  · exact absurd rfl hne
  · exact ⟨hne, ‹_›⟩

/-- One page is unmapped in front of the others. -/
theorem Cleared.cons {lo hi : ℕ} (h : Cleared ok s t held slot lo (lo + 1))
    (h' : Cleared ok t u held slot (lo + 1) hi)
    (hle : lo + 1 ≤ hi) : Cleared ok s u held slot lo hi where
  orderly := h'.orderly
  frame := h.frame.trans h'.frame
  tables := h'.tables.trans h.tables
  others i hi := (h'.others i hi).trans (h.others i hi)
  userPte i x := by
    rw [h'.userPte, h.userPte]
    by_cases hlow : i = slot ∧ lo ≤ x ∧ x < lo + 1
    · have hall : i = slot ∧ lo ≤ x ∧ x < hi := by omega
      rw [if_pos hlow, if_pos hall, ite_self]
    · rw [if_neg hlow]
      by_cases hhigh : i = slot ∧ lo + 1 ≤ x ∧ x < hi
      · rw [if_pos hhigh, if_pos (by omega)]
      · rw [if_neg hhigh, if_neg (by omega)]

/-- One page is unmapped and given up. -/
theorem Orderly.unmapOne (h : s.Orderly ok held) (he : s.userPte slot v = some e) :
    Cleared ok s ((s.setPte slot v none).dropPage e.ppn) held slot v (v + 1) where
  orderly := (h.clearPte he).dropPage
  frame := (frame_setPte s slot v none).trans (frame_dropPage _ _)
  tables := dropPage_tables
  others i hi := by
    rw [dropPage_procs]
    exact update_of_ne hi _ _
  userPte i x := by
    obtain ⟨pr, hpr, -⟩ := Option.bind_eq_some_iff.mp he
    rw [userPte_congr dropPage_procs, userPte_setPte hpr]
    have : (i = slot ∧ x = v) ↔ (i = slot ∧ v ≤ x ∧ x < v + 1) := by omega
    simp only [this]

/-- By induction on the number of pages; an entry that is missing is a panic. -/
theorem uvmunmap_lands (slot : ℕ) : ∀ n v s, s.Orderly ok held →
    Lands (uvmunmap slot v n) s fun _ t => Cleared ok s t held slot v (v + n) := by
  intro n
  induction n with
  | zero =>
    intro v s h
    exact ends_pure (.refl h le_rfl)
  | succ n ih =>
    intro v s h
    apply getProc_lands
    intro pr hpr
    cases hpte : pr.pte v with
    | none => exact lands_throw
    | some e =>
      have he : s.userPte slot v = some e := by simp [Vm.userPte, hpr, hpte]
      have hrange : InRange s.base e.ppn := h.ledger.wf.inRange (ref_user he)
      apply lands_of_ok (kfree_ok hrange)
      apply lands_modify
      -- the code frees the page before it clears the entry, with the same outcome
      rw [dropPage_setPte]
      have hone := h.unmapOne he
      apply (ih (v + 1) _ hone.orderly).mono
      intro _ t ht
      rw [show v + 1 + n = v + (n + 1) by omega] at ht
      exact hone.cons ht (by omega)

/-- `uvmdealloc` unmaps the pages above the new size and returns the smaller one. -/
theorem uvmdealloc_lands (h : s.Orderly ok held) (slot oldsz newsz : ℕ) :
    Lands (uvmdealloc slot oldsz newsz) s fun sz t =>
      sz = min oldsz newsz ∧ Cleared ok s t held slot (pages newsz) (pages oldsz) := by
  apply ends_ite
  · intro hle
    exact ends_pure ⟨by omega, .refl h (pages_mono hle)⟩
  · intro hlt
    have hmin : newsz = min oldsz newsz := by omega
    apply ends_ite
    · intro hpages
      apply (uvmunmap_lands slot _ _ s h).bind
      intro _ t ht
      rw [show pages newsz + (pages oldsz - pages newsz) = pages oldsz by omega] at ht
      exact ends_pure ⟨hmin, ht⟩
    · intro hpages
      exact ends_bind (ends_pure (ends_pure ⟨hmin, .refl h (by omega)⟩))

/-! ### Growing -/

/-- The ledger stays in order; at most the given pages are mapped besides those mapped before. -/
structure Gained (ok : Pte → Prop) (s t : Vm) (held : List ℕ) (new : ℕ → ℕ → Prop) : Prop where
  orderly : t.Orderly ok held
  frame : Frame s t
  mapped : ∀ i x, t.userPte i x ≠ none → s.userPte i x ≠ none ∨ new i x

/-- No page is mapped that was not mapped before. -/
abbrev Trims (ok : Pte → Prop) (s t : Vm) (held : List ℕ) : Prop := Gained ok s t held fun _ _ => False

theorem Gained.refl {new : ℕ → ℕ → Prop} (h : s.Orderly ok held) : Gained ok s s held new :=
  ⟨h, .refl s, fun _ _ hx => Or.inl hx⟩

/-- What two stretches of code map, their sequence maps. -/
theorem Gained.trans {new new' : ℕ → ℕ → Prop} (h : Gained ok s t held' new) (h' : Gained ok t u held new') :
    Gained ok s u held fun i x => new i x ∨ new' i x where
  orderly := h'.orderly
  frame := h.frame.trans h'.frame
  mapped i x hx := by
    obtain ht | hnew := h'.mapped i x hx
    · exact (h.mapped i x ht).imp_right Or.inl
    · exact Or.inr (Or.inr hnew)

theorem Gained.imp {new new' : ℕ → ℕ → Prop} (h : Gained ok s t held new) (himp : ∀ i x, new i x → new' i x) :
    Gained ok s t held new' :=
  ⟨h.orderly, h.frame, fun i x hx => (h.mapped i x hx).imp_right (himp i x)⟩

theorem Trims.trans (h : Trims ok s t held') (h' : Trims ok t u held) : Trims ok s u held :=
  (Gained.trans h h').imp fun _ _ hnew => hnew.elim id id

theorem Cleared.trims {lo hi : ℕ} (h : Cleared ok s t held slot lo hi) : Trims ok s t held :=
  ⟨h.orderly, h.frame, fun _ _ hx => Or.inl (h.ne_none hx).1⟩

theorem Grows.trims (h : Grows ok s t held) : Trims ok s t held :=
  ⟨h.orderly, h.frame, fun i x hx => Or.inl (h.userPte i x ▸ hx)⟩

theorem trims_dropPage (h : (s.dropPage p).Orderly ok held) : Trims ok s (s.dropPage p) held :=
  ⟨h, frame_dropPage s p, fun i x hx => Or.inl (by rwa [userPte_congr dropPage_procs] at hx)⟩

theorem Still.trims (h : Still ok s t held) : Trims ok s t held := h.grows.trims

/-- Storing an entry maps one page. -/
theorem Orderly.gained (h : (s.setPte slot v (some e)).Orderly ok held) (hpr : s.procs slot = some pr) :
    Gained ok s (s.setPte slot v (some e)) held fun i x => i = slot ∧ x = v where
  orderly := h
  frame := frame_setPte s slot v _
  mapped i x hx := by
    rw [userPte_setPte hpr] at hx
    split at hx
    · exact Or.inr ‹_›
    · exact Or.inl hx

theorem pages_mul (n : ℕ) : pages (n * pgsize) = n := by
  unfold pages pgsize
  omega

/-- A page that is in hand and nowhere else is mapped, or not for want of a table. -/
theorem mapFresh_lands (h : s.Orderly ok (e.ppn :: held)) (hunused : s.Unused held e.ppn)
    (hroot : (s.tables slot).root ≠ none)
    (hok : ok e) (v : ℕ) :
    Lands (mappages slot v e) s fun done t =>
      (done = true → Gained ok s t held fun i x => i = slot ∧ x = v) ∧
      (done = false → Trims ok s t (e.ppn :: held)) := by
  apply (mappages_lands h hroot v e).mono
  intro done t ht
  cases ht with
  | no hgrows => exact ⟨fun hf => absurd hf (by simp), fun _ => hgrows.trims⟩
  | yes hgrows htable hbelow hpr hfresh =>
    have hpr := hgrows.procs ▸ hpr
    have hfilled := hgrows.orderly.fillPte hpr ((hgrows.userPte _ _).trans hfresh)
      (fun _ => hgrows.unused hunused) hok
      hbelow htable
    exact ⟨fun _ => (Gained.trans hgrows.trims (hfilled.gained hpr)).imp fun _ _ hnew =>
      hnew.elim False.elim id,
      fun hf => absurd hf (by simp)⟩

/-- By induction on the pages to go; on failure the pages from `first` on are unmapped again. -/
theorem uvmallocLoop_lands {w x : Bool} (hok : ∀ p, p ∉ held → ok ⟨p, true, w, x, true, false⟩)
    (slot first : ℕ) (s₀ : Vm) :
    ∀ n v s, (s.tables slot).root ≠ none → first ≤ v →
    Gained ok s₀ s held (fun i y => i = slot ∧ first ≤ y ∧ y < v) →
    Lands (uvmallocLoop slot first w x v n) s fun done t =>
      Gained ok s₀ t held fun i y => done = true ∧ i = slot ∧ first ≤ y ∧ y < v + n := by
  intro n
  induction n with
  | zero =>
    intro v s _ _ h
    exact ends_pure (h.imp fun i y hy => ⟨rfl, hy⟩)
  | succ n ih =>
    intro v s hroot hfirst h
    -- whatever fails, the pages mapped so far are unmapped again
    have hundo : ∀ t, Trims ok s t held → Lands (do
        let _ ← uvmdealloc slot (v * pgsize) (first * pgsize)
        return false) t fun done t' =>
          Gained ok s₀ t' held fun i y => done = true ∧ i = slot ∧ first ≤ y ∧ y < v + (n + 1) := by
      intro t ht
      apply (uvmdealloc_lands ht.orderly slot _ _).bind
      rintro _ t' ⟨-, hcleared⟩
      rw [pages_mul, pages_mul] at hcleared
      apply ends_pure
      refine ⟨hcleared.orderly, h.frame.trans (ht.frame.trans hcleared.frame), fun i y hy => ?_⟩
      obtain ⟨hyt, hout⟩ := hcleared.ne_none hy
      obtain hys | hfalse := ht.mapped i y hyt
      · exact (h.mapped i y hys).imp_right fun hin => absurd hin hout
      · exact hfalse.elim
    apply (kalloc_lands h.orderly).bind
    intro r t ht
    cases r with
    | none => exact hundo t ht.trims
    | some p =>
      obtain ⟨hstill, hunused⟩ := ht
      apply lands_modify
      have hpage := hstill.setPage p fun _ => 0
      have hroot' : ((t.setPage p fun _ => 0).tables slot).root ≠ none := hpage.frame.root slot ▸ hroot
      apply (mapFresh_lands (e := ⟨p, true, w, x, true, false⟩) hpage.orderly hunused hroot'
        (hok p (not_mem_of_unused hunused)) v).bind
      rintro done t' ⟨hyes, hno⟩
      apply ends_ite
      · intro htrue
        have hmapped := hyes htrue
        have hstep := Gained.trans hpage.trims hmapped
        refine (ih (v + 1) t' (hmapped.frame.root slot ▸ hroot') (by omega) ?_).mono ?_
        · apply (h.trans hstep).imp
          rintro i y (⟨rfl, hlow, hhigh⟩ | hfalse | ⟨rfl, rfl⟩)
          · exact ⟨rfl, hlow, by omega⟩
          · exact hfalse.elim
          · exact ⟨rfl, hfirst, by omega⟩
        · intro done' u hu
          apply hu.imp
          rintro i y ⟨hdone, rfl, hlow, hhigh⟩
          exact ⟨hdone, rfl, hlow, by omega⟩
      · intro hfalse
        have hkept := hno (by simpa using hfalse)
        apply (kfree_lands hkept.orderly).bind
        rintro _ u ⟨rfl, hdropped⟩
        exact hundo _ ((hpage.trims.trans hkept).trans (trims_dropPage hdropped))

/-- `uvmalloc` returns the new size or 0, and maps no page outside the new memory. -/
theorem uvmalloc_lands {w x : Bool} (hok : ∀ p, p ∉ held → ok ⟨p, true, w, x, true, false⟩)
    (h : s.Orderly ok held)
    (hroot : (s.tables slot).root ≠ none) (oldsz newsz : ℕ) :
    Lands (uvmalloc slot oldsz newsz w x) s fun sz t => (sz = 0 ∨ oldsz ≤ sz) ∧
      Gained ok s t held fun i y => i = slot ∧ pages oldsz ≤ y ∧ y < pages sz := by
  apply ends_ite
  · intro _
    exact ends_pure ⟨Or.inr le_rfl, .refl h⟩
  · intro hle
    have hmono := pages_mono (Nat.le_of_not_lt hle)
    apply (uvmallocLoop_lands hok slot (pages oldsz) s _ _ s hroot le_rfl (.refl h)).bind
    intro done t ht
    rw [show pages oldsz + (pages newsz - pages oldsz) = pages newsz by omega] at ht
    apply ends_ite
    · intro _
      exact ends_pure ⟨Or.inr (by omega), ht.imp fun _ _ hy => hy.2⟩
    · intro hfalse
      exact ends_pure ⟨Or.inl rfl, ht.imp fun _ _ hy => absurd hy.1 hfalse⟩

end Vm

end Xv6
