import Xv6.Lib.Run
import Mathlib.Data.Int.Notation
import Mathlib.Data.List.Nodup
import Mathlib.Logic.Function.Basic

/-!
# Concurrent releases of shared pages

`kfree` and `kalloc` of `kernel/kalloc.c`, with the count that `uvmcopy` adds, by any number of
processes. A step is one section under `cowlock` or `kmem.lock`, or the load between them: `kfree`
decrements the count under `cowlock` and loads it again after `release`.

What the pages go through is stated on its own: a page is shared, being released by one call, on the
free list, or taken by one call. The allocator follows it as long as no call brings a count to zero
while another call on the same page stands between its decrement and its load.
-/

namespace Xv6.Kalloc

open Lib Function

/-- Where a process is: outside, in `kfree` before the load or before the push, in `kalloc` with the
page it took, or in `uvmcopy` with a page that it mapped for a child and did not count yet. -/
inductive Pc
  | idle
  | load (p : ℕ)
  | push (p : ℕ)
  | set (p : ℕ)
  | counting (p child : ℕ)
  deriving DecidableEq

/-- The allocator, the processes, and for every page the processes that map it and did not call
`kfree`. -/
structure Mem where
  freelist : List ℕ
  pgcount : ℕ → ℤ
  pc : ℕ → Pc
  sharers : ℕ → List ℕ

/-- The steps: `kfree` up to its load, the load, the push; `kalloc` up to the pop and the store of
the count; `uvmcopy` up to the count and the count. -/
inductive Act
  | kfree (t p : ℕ)
  | load (t p : ℕ)
  | push (t p : ℕ)
  | kalloc (t : ℕ)
  | set (t p : ℕ)
  | uvmcopy (t p child : ℕ)
  | counted (t p child : ℕ)
  deriving DecidableEq

namespace Mem

def setPc (s : Mem) (t : ℕ) (pc : Pc) : Mem := { s with pc := update s.pc t pc }

/-- One step. A process calls `kfree` for a page that it maps. -/
def next (s : Mem) : Act → Option Mem
  | .kfree t p =>
    if s.pc t = .idle ∧ t ∈ s.sharers p then
      some { s with
        pgcount := update s.pgcount p (s.pgcount p - 1)
        sharers := update s.sharers p ((s.sharers p).erase t)
        pc := update s.pc t (.load p) }
    else none
  | .load t p =>
    if s.pc t = .load p then some (s.setPc t (if s.pgcount p > 0 then .idle else .push p)) else none
  | .push t p =>
    if s.pc t = .push p then
      some { s with freelist := p :: s.freelist, pc := update s.pc t .idle }
    else none
  | .kalloc t =>
    if s.pc t = .idle then
      match s.freelist with
      | [] => some s
      | p :: rest => some { s with freelist := rest, pc := update s.pc t (.set p) }
    else none
  | .set t p =>
    if s.pc t = .set p then
      some { s with
        pgcount := update s.pgcount p 1
        sharers := update s.sharers p (t :: s.sharers p)
        pc := update s.pc t .idle }
    else none
  | .uvmcopy t p child =>
    if s.pc t = .idle ∧ t ∈ s.sharers p then some (s.setPc t (.counting p child)) else none
  | .counted t p child =>
    if s.pc t = .counting p child then
      some { s with
        pgcount := update s.pgcount p (s.pgcount p + 1)
        sharers := update s.sharers p (child :: s.sharers p)
        pc := update s.pc t .idle }
    else none

end Mem

def Step (s : Mem) (a : Act) (s' : Mem) : Prop := s.next a = some s'

/-! ### What a page goes through -/

/-- Shared by `n` processes, being released by a process, free, taken by a process, or no page of
the allocator. -/
inductive Place
  | shared (n : ℕ)
  | releasing (t : ℕ)
  | free
  | taken (t : ℕ)
  | outside
  deriving DecidableEq

/-- The steps of the pages. The call that ends the last share releases the page, and nobody else
puts it on the free list. -/
def Place.next (place : ℕ → Place) : Act → (ℕ → Place) → Prop
  | .kfree t p, place' => ∃ n, place p = .shared (n + 1) ∧
      place' = update place p (if n = 0 then .releasing t else .shared n)
  | .load _ _, place' => place' = place
  | .push t p, place' => place p = .releasing t ∧ place' = update place p .free
  | .kalloc t, place' => (∃ p, place p = .free ∧ place' = update place p (.taken t)) ∨
      (∀ p, place p ≠ .free) ∧ place' = place
  | .set t p, place' => place p = .taken t ∧ place' = update place p (.shared 1)
  | .uvmcopy _ _ _, place' => place' = place
  | .counted _ p _, place' => ∃ n, place p = .shared (n + 1) ∧ place' = update place p (.shared (n + 2))

/-- A process works on a page. -/
def Pc.On (p : ℕ) : Pc → Prop
  | .idle => False
  | .load q | .push q | .set q | .counting q _ => q = p

/-- What the place of page `p` says about the processes, the count and the sharers: a page is mapped
exactly when it is shared, by as many processes as its count says, and the call that ended the last
share is on its way to the push. -/
def PageOk (pc : ℕ → Pc) (pgcount : ℤ) (sharers : List ℕ) (p : ℕ) : Place → Prop
  | .shared n => 0 < n ∧ sharers.length = n ∧ pgcount = n ∧
      ∀ u, (pc u).On p → pc u = .load p ∨ ∃ child, pc u = .counting p child ∧ u ∈ sharers
  | .releasing t => sharers = [] ∧ (pc t = .load p ∧ pgcount = 0 ∨ pc t = .push p) ∧ ∀ u, (pc u).On p → u = t
  | .taken t => sharers = [] ∧ pc t = .set p ∧ ∀ u, (pc u).On p → u = t
  | .free | .outside => sharers = [] ∧ ∀ u, ¬ (pc u).On p

/-- The allocator stands where the pages do, and the free list holds every free page once. -/
structure Agrees (s : Mem) (place : ℕ → Place) : Prop where
  nodup : s.freelist.Nodup
  free_iff : ∀ p, p ∈ s.freelist ↔ place p = .free
  page : ∀ p, PageOk s.pc (s.pgcount p) (s.sharers p) p (place p)

variable {s s' : Mem} {place : ℕ → Place} {pc : ℕ → Pc} {pgcount : ℤ} {sharers : List ℕ} {t u p q child : ℕ} {new : Pc}

/-- Among the processes that work on a page, those other than `t` do not notice what `t` does. -/
theorem on_of_update (hu : (update pc t new u).On p) (hidle : ¬ new.On p) :
    u ≠ t ∧ (pc u).On p ∧ update pc t new u = pc u := by
  have hne : u ≠ t := by
    rintro rfl
    rw [update_self] at hu
    exact hidle hu
  rw [update_of_ne hne] at hu ⊢
  exact ⟨hne, hu, rfl⟩

/-- A process that works on other pages is no matter to a page. -/
theorem PageOk.update_pc {place : Place} (h : PageOk pc pgcount sharers q place)
    (hold : ¬ (pc t).On q) (hnew : ¬ new.On q) :
    PageOk (update pc t new) pgcount sharers q place := by
  have hkeep {u : ℕ} (hu : (pc u).On q) : update pc t new u = pc u :=
    update_of_ne (fun hut : u = t => hold (hut ▸ hu)) _ _
  cases place with
  | shared n =>
    obtain ⟨hpos, hlen, hcount, hall⟩ := h
    refine ⟨hpos, hlen, hcount, fun u hu => ?_⟩
    obtain ⟨-, hon, heq⟩ := on_of_update hu hnew
    rw [heq]
    exact hall u hon
  | releasing v =>
    obtain ⟨hnil, hr, hall⟩ := h
    have hron : (pc v).On q := by
      obtain ⟨hpc, -⟩ | hpc := hr
      · rw [hpc]
        rfl
      · rw [hpc]
        rfl
    refine ⟨hnil, ?_, fun u hu => hall u (on_of_update hu hnew).2.1⟩
    rwa [hkeep hron]
  | taken v =>
    obtain ⟨hnil, hr, hall⟩ := h
    refine ⟨hnil, ?_, fun u hu => hall u (on_of_update hu hnew).2.1⟩
    rwa [hkeep (by rw [hr]; rfl)]
  | free | outside => exact ⟨h.1, fun u hu => h.2 u (on_of_update hu hnew).2.1⟩

/-- A step of process `t` on page `p` has to be checked at that page only. -/
theorem Agrees.step_at (h : Agrees s place) (t p : ℕ) {place' : ℕ → Place} {new : Pc}
    (hpc : s'.pc = update s.pc t new)
    (hold : ∀ q, (s.pc t).On q → q = p) (hnew : ∀ q, new.On q → q = p)
    (hother : ∀ q, q ≠ p → s'.pgcount q = s.pgcount q ∧ s'.sharers q = s.sharers q ∧ place' q = place q)
    (hnodup : s'.freelist.Nodup)
    (hfree : ∀ q, q ∈ s'.freelist ↔ place' q = .free)
    (hp : PageOk s'.pc (s'.pgcount p) (s'.sharers p) p (place' p)) : Agrees s' place' := by
  refine ⟨hnodup, hfree, fun q => ?_⟩
  by_cases hq : q = p
  · rw [hq]
    exact hp
  · obtain ⟨hcount, hsharers, hplace⟩ := hother q hq
    rw [hcount, hsharers, hplace, hpc]
    exact (h.page q).update_pc (fun hon => hq (hold q hon)) fun hon => hq (hnew q hon)

/-- The free list stays as it is when a page that is not free moves to a place that is not the free
list. -/
theorem Agrees.free_iff_update (h : Agrees s place) {dest : Place} (hfrom : place p ≠ .free)
    (hto : dest ≠ .free) (q : ℕ) :
    q ∈ s.freelist ↔ update place p dest q = .free := by
  rw [h.free_iff]
  by_cases hq : q = p
  · rw [hq, update_self]
    exact ⟨fun h => absurd h hfrom, fun h => absurd h hto⟩
  · rw [update_of_ne hq]

/-- A page that somebody maps is shared. -/
theorem Agrees.shared_of_mem (h : Agrees s place) (ht : t ∈ s.sharers p) :
    ∃ n, place p = .shared (n + 1) := by
  have hpage := h.page p
  cases hplace : place p with
  | shared n =>
    rw [hplace] at hpage
    exact ⟨n - 1, by rw [Nat.sub_add_cancel hpage.1]⟩
  | releasing _ | taken _ | free | outside =>
    rw [hplace] at hpage
    rw [hpage.1] at ht
    exact absurd ht (by simp)

/-- A process that works on a page shares it with others, releases it or has taken it. -/
theorem Agrees.place_of_on {work : Pc} (h : Agrees s place) (hpc : s.pc t = work) (hon : work.On p) :
    (∃ n, place p = .shared n ∧ (work = .load p ∨ ∃ child, work = .counting p child ∧ t ∈ s.sharers p)) ∨
      (place p = .releasing t ∧ (work = .load p ∨ work = .push p)) ∨
        (place p = .taken t ∧ work = .set p) := by
  subst hpc
  have hpage := h.page p
  cases hplace : place p with
  | shared n =>
    rw [hplace] at hpage
    exact .inl ⟨n, rfl, hpage.2.2.2 t hon⟩
  | releasing v =>
    rw [hplace] at hpage
    rw [hpage.2.2 t hon]
    exact .inr (.inl ⟨rfl, hpage.2.1.imp_left And.left⟩)
  | taken v =>
    rw [hplace] at hpage
    rw [hpage.2.2 t hon]
    exact .inr (.inr ⟨rfl, hpage.2.1⟩)
  | free | outside =>
    rw [hplace] at hpage
    exact absurd hon (hpage.2 t)

/-- No call brings a count to zero while another one stands between its decrement and its load of
that page. -/
def Calm (s : Mem) : Act → Prop
  | .kfree _ p => s.pgcount p = 1 → ∀ u, s.pc u ≠ .load p
  | _ => True

theorem Agrees.kfree (h : Agrees s place) (hcalm : Calm s (.kfree t p)) (hstep : Step s (.kfree t p) s') :
    ∃ place', Place.next place (.kfree t p) place' ∧ Agrees s' place' := by
  simp only [Step, Mem.next] at hstep
  split_ifs at hstep with hguard
  cases hstep
  obtain ⟨hidle, ht⟩ := hguard
  obtain ⟨n, hplace⟩ := h.shared_of_mem ht
  obtain ⟨-, hlen, hcount, hall⟩ := hplace ▸ h.page p
  have hlen' : ((s.sharers p).erase t).length = n := by
    rw [List.length_erase_of_mem ht]
    omega
  have hother (u : ℕ) (hu : (update s.pc t (.load p) u).On p) (hne : u ≠ t) :
      s.pc u = .load p ∨ ∃ child, s.pc u = .counting p child ∧ u ∈ (s.sharers p).erase t := by
    rw [update_of_ne hne] at hu
    exact (hall u hu).imp_right fun ⟨c, hc, hmem⟩ => ⟨c, hc, (List.mem_erase_of_ne hne).mpr hmem⟩
  refine ⟨_, ⟨n, hplace, rfl⟩, h.step_at t p rfl (by simp [hidle, Pc.On])
    (by simp [Pc.On]) (fun q hq => by simp [hq]) h.nodup
      (h.free_iff_update (by simp [hplace]) (by split_ifs <;> simp)) ?_⟩
  simp only [update_self]
  split_ifs with hn
  · -- the last share: nobody else works on the page
    subst hn
    have hnil := List.length_eq_zero_iff.mp hlen'
    refine ⟨hnil, .inl ⟨update_self .., by rw [hcount]; rfl⟩, fun u hu => ?_⟩
    by_contra hne
    obtain hload | ⟨c, -, hmem⟩ := hother u hu hne
    · exact hcalm (by rw [hcount]; rfl) u hload
    · rw [hnil] at hmem
      exact absurd hmem (by simp)
  · refine ⟨by omega, hlen', by rw [hcount]; push_cast; omega, fun u hu => ?_⟩
    by_cases hne : u = t
    · rw [hne, update_self]
      exact .inl rfl
    · rw [update_of_ne hne]
      exact hother u hu hne

section

variable (h : Agrees s place)

include h

theorem Agrees.load (hstep : Step s (.load t p) s') : Agrees s' place := by
  obtain ⟨hpc, rfl⟩ := guarded hstep
  have hpage := h.page p
  refine h.step_at t p rfl (by simp [hpc, Pc.On]) ?_
    (fun _ _ => ⟨rfl, rfl, rfl⟩) h.nodup h.free_iff ?_
  · intro q
    split_ifs <;> simp [Pc.On, eq_comm]
  · obtain ⟨n, hplace⟩ | hplace : (∃ n, place p = .shared n) ∨ place p = .releasing t := by
      simpa using h.place_of_on hpc rfl
    · rw [hplace] at hpage ⊢
      obtain ⟨hpos, hlen, hcount, hall⟩ := hpage
      refine ⟨hpos, hlen, hcount, fun u hu => ?_⟩
      simp only [Mem.setPc, if_pos (show s.pgcount p > 0 by omega)] at hu ⊢
      obtain ⟨-, hon, heq⟩ := on_of_update hu id
      rw [heq]
      exact hall u hon
    · rw [hplace] at hpage ⊢
      obtain ⟨hnil, hv, hall⟩ := hpage
      have hzero : s.pgcount p = 0 := by
        obtain ⟨-, hzero⟩ | hpush := hv
        · exact hzero
        · exact absurd (hpc.symm.trans hpush) (by simp)
      refine ⟨hnil, .inr ?_, fun u hu => ?_⟩
      · simp [Mem.setPc, hzero]
      · by_contra hne
        simp only [Mem.setPc, update_of_ne hne] at hu
        exact hne (hall u hu)

theorem Agrees.push (hstep : Step s (.push t p) s') :
    ∃ place', Place.next place (.push t p) place' ∧ Agrees s' place' := by
  obtain ⟨hpc, rfl⟩ := guarded hstep
  have hplace : place p = .releasing t := by simpa using h.place_of_on hpc rfl
  obtain ⟨hnil, -, hall⟩ := hplace ▸ h.page p
  have hout : p ∉ s.freelist := by
    rw [h.free_iff, hplace]
    simp
  refine ⟨_, ⟨hplace, rfl⟩, h.step_at t p rfl (by simp [hpc, Pc.On])
    (by simp [Pc.On]) (fun q hq => by simp [hq])
    (List.nodup_cons.mpr ⟨hout, h.nodup⟩) (fun q => ?_) ?_⟩
  · by_cases hq : q = p
    · rw [hq]
      simp
    · rw [update_of_ne hq, ← h.free_iff, List.mem_cons, or_iff_right hq]
  · rw [update_self]
    refine ⟨hnil, fun u hu => ?_⟩
    obtain ⟨hne, hon, -⟩ := on_of_update hu id
    exact hne (hall u hon)

theorem Agrees.kalloc (hstep : Step s (.kalloc t) s') :
    ∃ place', Place.next place (.kalloc t) place' ∧ Agrees s' place' := by
  obtain ⟨hidle, hs⟩ := Option.ite_none_right_eq_some.mp hstep
  cases hlist : s.freelist with
  | nil =>
    rw [hlist] at hs
    cases hs
    refine ⟨place, .inr ⟨fun p hp => ?_, rfl⟩, h⟩
    rw [← h.free_iff, hlist] at hp
    exact absurd hp (by simp)
  | cons p rest =>
    rw [hlist] at hs
    cases hs
    have hplace : place p = .free := (h.free_iff p).mp (by simp [hlist])
    have hpage := h.page p
    rw [hplace] at hpage
    have hnodup := h.nodup
    rw [hlist, List.nodup_cons] at hnodup
    refine ⟨_, .inl ⟨p, hplace, rfl⟩, h.step_at t p rfl (by simp [hidle, Pc.On])
      (by simp [Pc.On]) (fun q hq => by simp [hq]) hnodup.2
      (fun q => ?_) ?_⟩
    · by_cases hq : q = p
      · rw [hq]
        exact ⟨fun hmem => absurd hmem hnodup.1, fun htaken => absurd htaken (by simp)⟩
      · rw [update_of_ne hq, ← h.free_iff, hlist, List.mem_cons, or_iff_right hq]
    · rw [update_self]
      refine ⟨hpage.1, update_self .., fun u hu => ?_⟩
      by_contra hne
      simp only [update_of_ne hne] at hu
      exact hpage.2 u hu

theorem Agrees.set (hstep : Step s (.set t p) s') :
    ∃ place', Place.next place (.set t p) place' ∧ Agrees s' place' := by
  obtain ⟨hpc, rfl⟩ := guarded hstep
  have hplace : place p = .taken t := by simpa using h.place_of_on hpc rfl
  obtain ⟨hnil, -, hall⟩ := hplace ▸ h.page p
  refine ⟨_, ⟨hplace, rfl⟩, h.step_at t p rfl (by simp [hpc, Pc.On])
    (by simp [Pc.On]) (fun q hq => by simp [hq]) h.nodup (h.free_iff_update (by simp [hplace]) (by simp)) ?_⟩
  simp only [update_self]
  refine ⟨Nat.one_pos, by rw [hnil]; rfl, rfl, fun u hu => ?_⟩
  obtain ⟨hne, hon, -⟩ := on_of_update hu id
  exact absurd (hall u hon) hne

theorem Agrees.uvmcopy (hstep : Step s (.uvmcopy t p child) s') : Agrees s' place := by
  obtain ⟨⟨hidle, ht⟩, rfl⟩ := guarded hstep
  obtain ⟨n, hplace⟩ := h.shared_of_mem ht
  have hpage := h.page p
  refine h.step_at t p rfl (by simp [hidle, Pc.On]) ?_
    (fun _ _ => ⟨rfl, rfl, rfl⟩) h.nodup h.free_iff ?_
  · simp [Pc.On]
  · rw [hplace] at hpage ⊢
    obtain ⟨hpos, hlen, hcount, hall⟩ := hpage
    refine ⟨hpos, hlen, hcount, fun u hu => ?_⟩
    by_cases hne : u = t
    · rw [hne]
      exact .inr ⟨child, update_self .., ht⟩
    · simp only [Mem.setPc, update_of_ne hne] at hu ⊢
      exact hall u hu

theorem Agrees.counted (hstep : Step s (.counted t p child) s') :
    ∃ place', Place.next place (.counted t p child) place' ∧ Agrees s' place' := by
  obtain ⟨hpc, rfl⟩ := guarded hstep
  have ⟨_, hmem⟩ : (∃ n, place p = .shared n) ∧ t ∈ s.sharers p := by simpa using h.place_of_on hpc rfl
  obtain ⟨n, hplace⟩ := h.shared_of_mem hmem
  obtain ⟨-, hlen, hcount, hall⟩ := hplace ▸ h.page p
  refine ⟨_, ⟨n, hplace, rfl⟩, h.step_at t p rfl (by simp [hpc, Pc.On])
    (by simp [Pc.On]) (fun q hq => by simp [hq]) h.nodup (h.free_iff_update (by simp [hplace]) (by simp)) ?_⟩
  simp only [update_self]
  refine ⟨by omega, by rw [List.length_cons, hlen], by rw [hcount]; push_cast; omega, fun u hu => ?_⟩
  obtain ⟨-, hon, heq⟩ := on_of_update hu id
  rw [heq]
  exact (hall u hon).imp_right fun ⟨c, hc, hmem⟩ => ⟨c, hc, List.mem_cons_of_mem _ hmem⟩

/-- One calm step of the allocator is a step of the pages. -/
theorem Agrees.step {a : Act} (hstep : Step s a s') (hcalm : Calm s a) :
    ∃ place', Place.next place a place' ∧ Agrees s' place' := by
  cases a with
  | kfree t p => exact h.kfree hcalm hstep
  | load t p => exact ⟨place, rfl, h.load hstep⟩
  | push t p => exact h.push hstep
  | kalloc t => exact h.kalloc hstep
  | set t p => exact h.set hstep
  | uvmcopy t p child => exact ⟨place, rfl, h.uvmcopy hstep⟩
  | counted t p child => exact h.counted hstep

end

/-- In every run in which no call brings a count to zero while another one stands between its
decrement and its load of the same page, the pages go through their places: a page is put on the
free list once for each time its last share ends, by the call that ended it, and nobody maps it
then. -/
theorem releases_follow_places {acts : List Act} (h : Agrees s place)
    (hrun : Run (fun s a s' => Step s a s' ∧ Calm s a) s acts s') :
    ∃ place', Run Place.next place acts place' ∧ Agrees s' place' :=
  hrun.simulates (fun _ _ _ _ hrel hstep => hrel.step hstep.1 hstep.2) h

/-- Nobody is in a call, and the count of every page is the number of its sharers. -/
def quiet (sharers : ℕ → List ℕ) (freelist : List ℕ) : Mem :=
  ⟨freelist, fun p => (sharers p).length, fun _ => .idle, sharers⟩

theorem agrees_quiet {sharers : ℕ → List ℕ} {freelist : List ℕ} (hnodup : freelist.Nodup)
    (hfree : ∀ p ∈ freelist, sharers p = []) :
    Agrees (quiet sharers freelist) fun p =>
      if p ∈ freelist then .free else if sharers p = [] then .outside else .shared (sharers p).length := by
  refine ⟨hnodup, fun p => ?_, fun p => ?_⟩
  · simp only [quiet]
    split_ifs <;> simp_all
  · split_ifs with hp hnil
    · exact ⟨hfree p hp, fun u hu => hu⟩
    · exact ⟨hnil, fun u hu => hu⟩
    · exact ⟨List.length_pos_iff.mpr hnil, rfl, rfl, fun u hu => absurd hu id⟩

/-- Page 7, shared by the processes 0 and 1. -/
def sharedByTwo : Mem := quiet (fun p => if p = 7 then [0, 1] else []) []

/-- The two sharers release page 7 one after the other. -/
theorem releases_follow_places_in_turn :
    ∃ s' place', Run (fun s a s' => Step s a s' ∧ Calm s a) sharedByTwo
        [.kfree 0 7, .load 0 7, .kfree 1 7, .load 1 7, .push 1 7] s' ∧ Agrees s' place' ∧
          place' 7 = .free := by
  obtain ⟨s', hrun, hmem⟩ : ∃ s', Run (fun s a s' => Step s a s' ∧ Calm s a) sharedByTwo
      [.kfree 0 7, .load 0 7, .kfree 1 7, .load 1 7, .push 1 7] s' ∧ 7 ∈ s'.freelist := by
    refine ⟨_, .cons ⟨rfl, ?_⟩
      (.cons ⟨rfl, trivial⟩ (.cons ⟨rfl, ?_⟩ (.cons ⟨rfl, trivial⟩ (.cons ⟨rfl, trivial⟩ (.nil _))))),
      ?_⟩
    · exact fun hlast => absurd hlast (by decide)
    · intro _ u
      simp [Mem.setPc, sharedByTwo, quiet]
    · decide
  obtain ⟨place', -, hagrees⟩ := releases_follow_places (agrees_quiet List.nodup_nil (by simp)) hrun
  exact ⟨s', place', hrun, hagrees, (hagrees.free_iff 7).mp hmem⟩

/-- Both sharers decrement before either of them loads: both find zero, and the page is on the free
list twice. And a sharer that loads late finds the zero that was left by the other one when the page
is already in the hands of a new owner, process 2: it puts the page on the free list while that one
maps it. -/
theorem kfree_twice :
    (∃ s', Run Step sharedByTwo [.kfree 0 7, .kfree 1 7, .load 0 7, .load 1 7, .push 0 7, .push 1 7] s' ∧
      s'.freelist = [7, 7]) ∧
    ∃ s', Run Step sharedByTwo [.kfree 0 7, .kfree 1 7, .load 1 7, .push 1 7, .kalloc 2, .load 0 7,
      .set 2 7, .push 0 7] s' ∧
      s'.freelist = [7] ∧ s'.sharers 7 = [2] := by
  refine ⟨⟨_, .cons rfl (.cons rfl (.cons rfl (.cons rfl (.cons rfl (.cons rfl (.nil _)))))), ?_⟩,
    ⟨_, .cons rfl (.cons rfl (.cons rfl
      (.cons rfl (.cons rfl (.cons rfl (.cons rfl (.cons rfl (.nil _)))))))), ?_, ?_⟩⟩
  · decide
  · decide
  · decide

end Xv6.Kalloc
