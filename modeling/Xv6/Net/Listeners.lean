import Mathlib.Algebra.BigOperators.Group.List.Basic
import Xv6.Net.States

/-!
# Listeners and their handshakes

A block in SYN-RECEIVED keeps the index of its listener, and joins that block's backlog when the
handshake is complete. Blocks are reused, so history variables say which socket an index stood for:
how often each block was allocated, and for which allocation of which block the SYN of a connection
arrived. `tcp_pcb_release` looks neither for handshakes that still point to the block nor for a
backlog that holds it; the runs that keep the handshakes with their listeners are those without
such releases.
-/

namespace Xv6.Tcp

open Lib Function

variable {ev : Event} {i : ℕ}

namespace Net

/-! ### What a release clears -/

/-- The blocks that a release of those in `stack` clears: nobody sleeps on them, and they are in the
stack or wait in the backlog of a cleared block. -/
inductive Cleared (slot : ℕ → Slot) (stack : List ℕ) : ℕ → Prop
  | root {i : ℕ} (hmem : i ∈ stack) (hwc : (slot i).wc = 0) : Cleared slot stack i
  | next {q k : ℕ} (hq : Cleared slot stack q) (hmem : k ∈ (slot q).backlog) (hwc : (slot k).wc = 0) :
      Cleared slot stack k

section Release

variable {slot : ℕ → Slot} {stack : List ℕ} {i k : ℕ}

/-- A release of one block clears it and blocks of backlogs. -/
theorem Cleared.cases_waiting (h : Cleared slot [i] k) : k = i ∨ ∃ q, k ∈ (slot q).backlog := by
  cases h with
  | root hmem _ => exact .inl (List.mem_singleton.mp hmem)
  | next _ hmem _ => exact .inr ⟨_, hmem⟩

/-- A block on which somebody sleeps stays, with what waits on it. -/
theorem cleared_skip (hwc : (slot i).wc ≠ 0) : Cleared slot (i :: stack) k ↔ Cleared slot stack k := by
  constructor
  · intro h
    induction h with
    | root hmem hzero =>
      obtain rfl | hmem := List.mem_cons.mp hmem
      · exact absurd hzero hwc
      · exact .root hmem hzero
    | next _ hmem hzero ih => exact .next ih hmem hzero
  · intro h
    induction h with
    | root hmem hzero => exact .root (List.mem_cons_of_mem i hmem) hzero
    | next _ hmem hzero ih => exact .next ih hmem hzero

/-- Clearing one block first. -/
theorem cleared_step (hwc : (slot i).wc = 0) : Cleared slot (i :: stack) k ↔
    k = i ∨ Cleared (update slot i .zero) ((slot i).backlog ++ stack) k := by
  constructor
  · intro h
    induction h with
    | @root j hmem hzero =>
      by_cases hj : j = i
      · exact .inl hj
      · obtain hfirst | hmem := List.mem_cons.mp hmem
        · exact absurd hfirst hj
        · exact .inr (.root (List.mem_append_right _ hmem) (by rwa [update_of_ne hj]))
    | @next q k hq hmem hzero ih =>
      by_cases hk : k = i
      · exact .inl hk
      · by_cases hqi : q = i
        · subst hqi
          exact .inr (.root (List.mem_append_left _ hmem) (by rwa [update_of_ne hk]))
        · refine .inr (.next (ih.resolve_left hqi) ?_ (by rwa [update_of_ne hk]))
          rwa [update_of_ne hqi]
  · have hroot : Cleared slot (i :: stack) i := .root List.mem_cons_self hwc
    rintro (rfl | h)
    · exact hroot
    · induction h with
      | @root j hmem hzero =>
        by_cases hj : j = i
        · exact hj ▸ hroot
        · rw [update_of_ne hj] at hzero
          obtain hmem | hmem := List.mem_append.mp hmem
          · exact .next hroot hmem hzero
          · exact .root (List.mem_cons_of_mem i hmem) hzero
      | @next q k hq hmem hzero ih =>
        by_cases hk : k = i
        · exact hk ▸ hroot
        · rw [update_of_ne hk] at hzero
          by_cases hqi : q = i
          · subst hqi
            simp [Slot.zero] at hmem
          · rw [update_of_ne hqi] at hmem
            exact .next ih hmem hzero

theorem sum_map_update (f : ℕ → ℕ) (i n : ℕ) : ((List.range n).map (update f i 0)).sum +
    (if i < n then f i else 0) = ((List.range n).map f).sum := by
  induction n with
  | zero => simp
  | succ n ih =>
    rw [List.range_succ, List.map_append, List.map_append, List.sum_append, List.sum_append, ← ih]
    obtain hlt | rfl | hgt := lt_trichotomy i n
    · simp [hlt, Nat.lt_succ_of_lt hlt, update_of_ne hlt.ne', Nat.add_right_comm]
    · simp
    · simp [update_of_ne hgt.ne, hgt.not_gt, Nat.not_lt.mpr (Nat.succ_le_of_lt hgt)]

/-- Clearing a block takes its backlog off the count. -/
theorem queued_update (slot : ℕ → Slot) (i : ℕ) (houtside : ∀ q, pcbSize ≤ q → (slot q).backlog = []) :
    queued (update slot i .zero) + (slot i).backlog.length = queued slot := by
  have hlen : (fun j => (update slot i .zero j).backlog.length) =
      update (fun j => (slot j).backlog.length) i 0 := by
    funext j
    by_cases hj : j = i
    · subst hj
      simp [Slot.zero]
    · simp [update_of_ne hj]
  have hsum := sum_map_update (fun j => (slot j).backlog.length) i pcbSize
  have hi : (slot i).backlog.length = if i < pcbSize then (slot i).backlog.length else 0 := by
    split
    · rfl
    · rename_i hi
      rw [houtside i (not_lt.mp hi), List.length_nil]
  rw [queued, queued, hlen, hi]
  exact hsum

theorem not_cleared_nil : ¬ Cleared slot [] k := by
  intro h
  induction h with
  | root hmem => exact List.not_mem_nil hmem
  | next _ _ _ ih => exact ih

/-- With fuel for all that is queued, a release clears exactly these blocks. -/
theorem releaseLoop_spec (fuel : ℕ) (stack : List ℕ) (slot : ℕ → Slot)
    (houtside : ∀ q, pcbSize ≤ q → (slot q).backlog = [])
    (hfuel : queued slot + stack.length ≤ fuel) (k : ℕ) :
    (Cleared slot stack k ∧ releaseLoop fuel stack slot k = .zero) ∨
      (¬ Cleared slot stack k ∧ releaseLoop fuel stack slot k = slot k) := by
  induction fuel generalizing stack slot with
  | zero =>
    obtain rfl : stack = [] := List.eq_nil_of_length_eq_zero (by omega)
    exact .inr ⟨not_cleared_nil, rfl⟩
  | succ fuel ih =>
    cases stack with
    | nil => exact .inr ⟨not_cleared_nil, rfl⟩
    | cons i stack =>
      rw [List.length_cons] at hfuel
      unfold releaseLoop
      split
      · rename_i hwc
        rw [cleared_skip hwc]
        exact ih stack slot houtside (by omega)
      · rename_i hwc
        rw [cleared_step (not_not.mp hwc)]
        have hless := queued_update slot i houtside
        have houtside' : ∀ q, pcbSize ≤ q → (update slot i .zero q).backlog = [] := by
          intro q hq
          by_cases hqi : q = i
          · rw [hqi, update_self]
            rfl
          · rw [update_of_ne hqi]
            exact houtside q hq
        obtain ⟨hcleared, hzero⟩ | ⟨hnot, hsame⟩ :=
          ih ((slot i).backlog ++ stack) (update slot i .zero) houtside'
          (by rw [List.length_append]; omega)
        · exact .inl ⟨.inr hcleared, hzero⟩
        · by_cases hk : k = i
          · refine .inl ⟨.inl hk, ?_⟩
            rw [hsame, hk, update_self]
          · refine .inr ⟨not_or.mpr ⟨hk, hnot⟩, ?_⟩
            rw [hsame, update_of_ne hk]

end Release

/-! ### Which socket an index stands for -/

/-- History variables: how often a block was allocated, and the block and allocation that the SYN of
a connection arrived for. -/
structure History where
  allocs : ℕ → ℕ
  origin : ℕ → Option (ℕ × ℕ)

def History.start : History := ⟨fun _ => 0, fun _ => none⟩

/-- The history after a section. A block that a segment allocates is a connection of the block that
was selected. -/
def History.next (g : History) (n : Net) (ev : Event) (n' : Net) : History where
  allocs j := if n.state j = .free ∧ n'.state j ≠ .free then g.allocs j + 1 else g.allocs j
  origin j :=
    if n'.state j = .free then none
    else if n.state j = .free then
      match ev with
      | .segment seg _ => (n.select seg.localEp (some seg.foreignEp)).map fun i => (i, g.allocs i)
      | _ => none
    else g.origin j

/-- The history after a section that allocates nothing. -/
def History.forget (g : History) (n' : Net) : History :=
  { g with origin := fun j => if n'.state j = .free then none else g.origin j }

/-- Where nothing is allocated only the origins of freed blocks go. -/
theorem History.next_eq_forget (g : History) {n n' : Net} (ev : Event)
    (h : ∀ j, n.state j = .free → n'.state j = .free) :
    g.next n ev n' = g.forget n' := by
  have hallocs : ∀ j, ¬ (n.state j = .free ∧ n'.state j ≠ .free) := fun j hj => hj.2 (h j hj.1)
  simp only [next, forget, hallocs, if_false, History.mk.injEq, true_and]
  funext j
  split
  · rfl
  · rename_i hj
    rw [if_neg fun hfree => hj (h j hfree)]

/-- The events around listeners: the calls that open, bind, listen, accept and close, and
segments. -/
def Event.listening : Event → Bool
  | .call _ c =>
    match c with
    | .openSocket | .bind _ _ | .listen _ | .accept _ | .close _ _ => true
    | _ => false
  | .resume _ _ | .segment _ _ => true
  | _ => false

/-- The table with its history. -/
structure Traced where
  net : Net
  history : History

def Traced.Step (t : Traced) (ev : Event) (t' : Traced) : Prop :=
  ev.listening = true ∧ ∃ o, ev.run t.net = some (o, t'.net) ∧ t'.history = t.history.next t.net ev t'.net

def Traced.boot : Traced := ⟨.boot, .start⟩

/-- The parent of a handshake is the listener that the SYN arrived for, no block waits twice, and
the blocks that wait in a backlog are connections of the listener. -/
structure Reports (n : Net) (g : History) : Prop where
  parent : ∀ c q, n.state c = .synReceived → (n.slot c).pcb.parent = some q →
    n.state q = .listen ∧ g.origin c = some (q, g.allocs q)
  once : ∀ q, (n.slot q).backlog.Nodup
  one : ∀ k q q', k ∈ (n.slot q).backlog → k ∈ (n.slot q').backlog → q = q'
  waiting : ∀ q k, k ∈ (n.slot q).backlog → g.origin k = some (q, g.allocs q)

/-- A release that leaves no handshake behind and no cleared block in a backlog. -/
def SafeRelease (m : Net) (i : ℕ) : Prop :=
  (∀ c q, m.state c = .synReceived → (m.slot c).pcb.parent = some q → q ≠ i ∧ ¬ Cleared m.slot [i] q) ∧
    ∀ k q, Cleared m.slot [i] k → k ∈ (m.slot q).backlog → Cleared m.slot [i] q

/-- The table and the block at which a section calls `tcp_pcb_release`: `tcp_close` of a listener,
`tcp_accept` that wakes on a closed listener, and the acknowledgment of the FIN in LAST-ACK. -/
def releases (n : Net) : Event → Option (Net × ℕ)
  | .call _ (.close id _) =>
    (n.get id).bind fun i => if n.state i = .listen then some (n.setState i .closed, i) else none
  | .resume p _ =>
    match n.wait p with
    | some (.accept i) =>
      if (n.wake p i).1 = false ∧ (n.wake p i).2.state i = .closed then some ((n.wake p i).2, i) else none
    | _ => none
  | .segment seg env =>
    (n.select seg.localEp (some seg.foreignEp)).bind fun i =>
      if n.state i = .lastAck ∧ (n.after seg env i).pcb.state =
        .closed then some (n.reacted seg env i, i) else none
  | _ => none

def ReleasesSafely (n : Net) (ev : Event) : Prop := ∀ m i, n.releases ev = some (m, i) → m.SafeRelease i

/-- What holds of the table and its history in the runs of the events above, but for the state of
the parents. -/
structure Base (n : Net) (g : History) : Prop where
  born : ∀ c q, n.state c = .synReceived → (n.slot c).pcb.parent = some q → g.origin c = some (q, g.allocs q)
  once : ∀ q, (n.slot q).backlog.Nodup
  one : ∀ k q q', k ∈ (n.slot q).backlog → k ∈ (n.slot q').backlog → q = q'
  waiting : ∀ q k, k ∈ (n.slot q).backlog → g.origin k = some (q, g.allocs q)
  done : ∀ q k, k ∈ (n.slot q).backlog → n.state k ≠ .synReceived
  passive : ∀ i, n.state i ≠ .synSent
  socket : ∀ i, n.state i ≠ .free → (n.slot i).pcb.mode = .socket
  empty : ∀ i, n.state i = .free → (n.slot i).backlog = []
  nobody : ∀ i, n.state i = .free → g.origin i = none
  outside : ∀ i, pcbSize ≤ i → n.state i = .free
  accepts : ∀ p w, n.wait p = some w → ∃ i, w = .accept i

/-- The parents of handshakes listen. -/
def Heard (n : Net) : Prop := ∀ c q, n.state c = .synReceived → (n.slot c).pcb.parent = some q →
    n.state q = .listen

variable {n m : Net} {g : History}

theorem Base.reports (h : Base n g) (hheard : Heard n) : Reports n g :=
  ⟨fun c q hstate hparent => ⟨hheard c q hstate hparent, h.born c q hstate hparent⟩, h.once, h.one, h.waiting⟩

/-- No free block waits in a backlog. -/
theorem Base.waiting_ne_free (h : Base n g) {q k : ℕ} (hmem : k ∈ (n.slot q).backlog) :
    n.state k ≠ .free := by
  intro hfree
  have horigin := h.waiting q k hmem
  rw [h.nobody k hfree] at horigin
  simp at horigin

theorem Base.forget_eq (h : Base n g) {n' : Net} (hfree : ∀ j, n'.state j = .free ↔ n.state j = .free) :
    g.forget n' = g := by
  have horigin : (fun j => if n'.state j = .free then none else g.origin j) = g.origin := by
    funext j
    split_ifs with hj
    · rw [h.nobody j ((hfree j).mp hj)]
    · rfl
  rw [History.forget, horigin]

/-! ### Releases -/

section

variable (h : Base m g)

include h

/-- A release clears a block or leaves it as it was. -/
theorem release_cases (i k : ℕ) :
    (Cleared m.slot [i] k ∧ (m.release i).slot k = .zero) ∨
      (¬ Cleared m.slot [i] k ∧ (m.release i).slot k = m.slot k) :=
  releaseLoop_spec (queued m.slot + 1) [i] m.slot (fun q hq => h.empty q (h.outside q hq)) (by simp) k

/-- What is not free after a release is as it was. -/
theorem Base.release_kept {k : ℕ} (hne : (m.release i).state k ≠ .free) :
    ¬ Cleared m.slot [i] k ∧ (m.release i).slot k = m.slot k := by
  obtain ⟨-, hzero⟩ | hkept := release_cases h i k
  · exact absurd (congrArg (·.pcb.state) hzero) hne
  · exact hkept

theorem Base.release_backlog {q k : ℕ} (hmem : k ∈ ((m.release i).slot q).backlog) :
    ¬ Cleared m.slot [i] q ∧ k ∈ (m.slot q).backlog := by
  obtain ⟨-, hzero⟩ | ⟨hnot, hsame⟩ := release_cases h i q
  · rw [hzero] at hmem
    exact absurd hmem List.not_mem_nil
  · exact ⟨hnot, hsame ▸ hmem⟩

theorem release_state_of_cleared {k : ℕ} (hk : Cleared m.slot [i] k) :
    (m.release i).state k = .free := by
  obtain ⟨-, hzero⟩ | ⟨hnot, -⟩ := release_cases h i k
  · exact congrArg (·.pcb.state) hzero
  · exact absurd hk hnot

/-- A release keeps the invariant if no backlog that stays names a cleared block. -/
theorem Base.release (hsafe : ∀ k q, Cleared m.slot [i] k → k ∈ (m.slot q).backlog → Cleared m.slot [i] q) :
    Base (m.release i) (g.forget (m.release i)) where
  born c q hstate hparent := by
    have hne : (m.release i).state c ≠ .free := by simp [hstate]
    obtain ⟨-, hsame⟩ := h.release_kept hne
    rw [state, hsame] at hstate
    rw [hsame] at hparent
    simp only [History.forget, hne]
    exact h.born c q hstate hparent
  once q := by
    obtain ⟨-, hzero⟩ | ⟨-, hsame⟩ := release_cases h i q
    · rw [hzero]
      exact List.nodup_nil
    · rw [hsame]
      exact h.once q
  one k q q' hq hq' := h.one k q q' (h.release_backlog hq).2 (h.release_backlog hq').2
  waiting q k hmem := by
    obtain ⟨hnot, hmem⟩ := h.release_backlog hmem
    have hne : (m.release i).state k ≠ .free := by
      obtain ⟨hcleared, -⟩ | ⟨-, hsame⟩ := release_cases h i k
      · exact absurd (hsafe k q hcleared hmem) hnot
      · rw [state, hsame]
        exact h.waiting_ne_free hmem
    simp only [History.forget, hne]
    exact h.waiting q k hmem
  done q k hmem hstate := by
    have hne : (m.release i).state k ≠ .free := by simp [hstate]
    rw [state, (h.release_kept hne).2] at hstate
    exact h.done q k (h.release_backlog hmem).2 hstate
  passive k hstate := by
    have hne : (m.release i).state k ≠ .free := by simp [hstate]
    rw [state, (h.release_kept hne).2] at hstate
    exact h.passive k hstate
  socket k hne := by
    have hsame := (h.release_kept hne).2
    rw [state, hsame] at hne
    rw [hsame]
    exact h.socket k hne
  empty k hfree := by
    obtain ⟨-, hzero⟩ | ⟨-, hsame⟩ := release_cases h i k
    · rw [hzero]
      rfl
    · rw [state, hsame] at hfree
      rw [hsame]
      exact h.empty k hfree
  nobody k hfree := by simp [History.forget, hfree]
  outside k hk := by
    obtain ⟨-, hzero⟩ | ⟨-, hsame⟩ := release_cases h i k
    · exact congrArg (·.pcb.state) hzero
    · rw [state, hsame]
      exact h.outside k hk
  accepts := h.accepts

/-- A release of a closed block keeps the handshakes with their listeners exactly if it is safe. -/
theorem Base.reports_release_iff (hclosed : m.state i = .closed)
    (hheard : ∀ c q, m.state c = .synReceived → (m.slot c).pcb.parent = some q → q = i ∨
    m.state q = .listen) :
    (m.SafeRelease i → Heard (m.release i)) ∧
      (Reports (m.release i) (g.forget (m.release i)) → m.SafeRelease i) := by
  constructor
  · intro hsafe c q hstate hparent
    have hne : (m.release i).state c ≠ .free := by simp [hstate]
    have hsame := (h.release_kept hne).2
    rw [state, hsame] at hstate
    rw [hsame] at hparent
    obtain ⟨hqi, hnot⟩ := hsafe.1 c q hstate hparent
    obtain ⟨hcleared, -⟩ | ⟨-, hkept⟩ := release_cases h i q
    · exact absurd hcleared hnot
    · rw [state, hkept]
      exact (hheard c q hstate hparent).resolve_left hqi
  · intro hreports
    constructor
    · intro c q hstate hparent
      -- a block in SYN-RECEIVED is neither closed nor in a backlog, so it stays
      have hstays : ¬ Cleared m.slot [i] c := by
        intro hcleared
        obtain rfl | ⟨q', hmem⟩ := hcleared.cases_waiting
        · simp [hclosed] at hstate
        · exact h.done q' c hmem hstate
      obtain ⟨hcleared, -⟩ | ⟨-, hsame⟩ := release_cases h i c
      · exact absurd hcleared hstays
      · have hlisten := (hreports.parent c q (by rw [state, hsame]; exact hstate)
          (by rw [hsame]; exact hparent)).1
        have hkept := h.release_kept (k := q) (i := i) (by simp [hlisten])
        refine ⟨?_, hkept.1⟩
        rintro rfl
        rw [state, hkept.2] at hlisten
        exact absurd (hclosed.symm.trans hlisten) (by decide)
    · intro k q hcleared hmem
      by_contra hnot
      obtain ⟨hq, -⟩ | ⟨-, hsame⟩ := release_cases h i q
      · exact hnot hq
      · have horigin := hreports.waiting q k (by rw [hsame]; exact hmem)
        simp [History.forget, release_state_of_cleared h hcleared] at horigin

end

/-! ### Sections that allocate and release nothing -/

/-- The second table has no new waiting blocks and no new handshakes, and the blocks are the same
sockets. -/
structure Alike (n n' : Net) : Prop where
  backlog : ∀ j, (n'.slot j).backlog.Sublist (n.slot j).backlog
  parent : ∀ j, (n'.slot j).pcb.parent = (n.slot j).pcb.parent
  mode : ∀ j, (n'.slot j).pcb.mode = (n.slot j).pcb.mode
  free : ∀ j, n'.state j = .free ↔ n.state j = .free
  sent : ∀ j, n'.state j = .synSent → n.state j = .synSent
  received : ∀ j, n'.state j = .synReceived → n.state j = .synReceived

variable {n' n'' : Net}

theorem Alike.refl (n : Net) : Alike n n :=
  ⟨fun _ => .refl _, fun _ => rfl, fun _ => rfl, fun _ => .rfl, fun _ => id, fun _ => id⟩

theorem Alike.trans (h : Alike n n') (h' : Alike n' n'') : Alike n n'' where
  backlog j := (h'.backlog j).trans (h.backlog j)
  parent j := (h'.parent j).trans (h.parent j)
  mode j := (h'.mode j).trans (h.mode j)
  free j := (h'.free j).trans (h.free j)
  sent j := h.sent j ∘ h'.sent j
  received j := h.received j ∘ h'.received j

/-- The invariant survives where no handshake and no waiting block is new. -/
theorem Base.alike (h : Base n g) (hlike : Alike n n')
    (haccepts : ∀ p w, n'.wait p = some w → ∃ i, w = .accept i) :
    Base n' g where
  born c q hstate hparent := h.born c q (hlike.received c hstate) (hlike.parent c ▸ hparent)
  once q := (h.once q).sublist (hlike.backlog q)
  one k q q' hq hq' := h.one k q q' ((hlike.backlog q).subset hq) ((hlike.backlog q').subset hq')
  waiting q k hmem := h.waiting q k ((hlike.backlog q).subset hmem)
  done q k hmem hstate := h.done q k ((hlike.backlog q).subset hmem) (hlike.received k hstate)
  passive i hstate := h.passive i (hlike.sent i hstate)
  socket i hne := (hlike.mode i).trans (h.socket i (mt (hlike.free i).mpr hne))
  empty i hfree := List.sublist_nil.mp (h.empty i ((hlike.free i).mp hfree) ▸ hlike.backlog i)
  nobody i hfree := h.nobody i ((hlike.free i).mp hfree)
  outside i hi := (hlike.free i).mpr (h.outside i hi)
  accepts := haccepts

/-- Parents still listen if no listener stops. -/
theorem Heard.alike (h : Heard n) (hlike : Alike n n')
    (hlisten : ∀ j, n.state j = .listen → n'.state j = .listen) :
    Heard n' :=
  fun c q hstate hparent => hlisten q (h c q (hlike.received c hstate) (hlike.parent c ▸ hparent))

/-- A change of one block that starts no handshake. -/
structure Calm (s s' : Slot) : Prop where
  backlog : s'.backlog.Sublist s.backlog
  parent : s'.pcb.parent = s.pcb.parent
  mode : s'.pcb.mode = s.pcb.mode
  free : s'.pcb.state = .free ↔ s.pcb.state = .free
  sent : s'.pcb.state = .synSent → s.pcb.state = .synSent
  received : s'.pcb.state = .synReceived → s.pcb.state = .synReceived

theorem alike_modify (n : Net) (i : ℕ) (f : Slot → Slot) (h : Calm (n.slot i) (f (n.slot i))) :
    Alike n (n.modify i f) := by
  have hslot : ∀ j, Calm (n.slot j) ((n.modify i f).slot j) := by
    intro j
    rw [slot_modify]
    split_ifs with hj
    · exact hj ▸ h
    · exact ⟨.refl _, rfl, rfl, .rfl, id, id⟩
  exact ⟨fun j => (hslot j).backlog, fun j => (hslot j).parent, fun j => (hslot j).mode,
    fun j => (hslot j).free,
    fun j => (hslot j).sent, fun j => (hslot j).received⟩

/-- What a section of the events around listeners does to the invariant. -/
def Keeps (n : Net) (g : History) (ev : Event) (n' : Net) : Prop :=
  (n.ReleasesSafely ev → Base n' (g.next n ev n') ∧ Heard n') ∧
    (Reports n' (g.next n ev n') → n.ReleasesSafely ev)

section

variable (h : Base n g) (hheard : Heard n)

include h hheard

/-- A section that releases nothing and starts no handshake. -/
theorem Base.keeps_alike (hnone : n.releases ev = none)
    (hlike : Alike n n') (hlisten : ∀ j, n.state j = .listen → n'.state j = .listen)
    (haccepts : ∀ p w, n'.wait p = some w → ∃ i, w = .accept i) : Keeps n g ev n' := by
  rw [Keeps, g.next_eq_forget ev fun j => (hlike.free j).mpr, h.forget_eq hlike.free]
  refine ⟨fun _ => ⟨h.alike hlike haccepts, hheard.alike hlike hlisten⟩, fun _ m i hm => ?_⟩
  rw [hnone] at hm
  simp at hm

/-- A section that closes one block and releases it. -/
theorem Base.keeps_release (hreleases : n.releases ev = some (m, i))
    (hlike : Alike n m) (hclosed : m.state i = .closed)
    (hlisten : ∀ j, j ≠ i → n.state j = .listen → m.state j = .listen)
    (haccepts : ∀ p w, m.wait p = some w → ∃ i, w = .accept i) : Keeps n g ev (m.release i) := by
  have hbase := h.alike hlike haccepts
  have hnext : g.next n ev (m.release i) = g.forget (m.release i) := by
    refine g.next_eq_forget ev fun j hfree => ?_
    obtain hsame | hzero := releaseLoop_cases (queued m.slot + 1) [i] m.slot j
    · exact (congrArg (·.pcb.state) hsame).trans ((hlike.free j).mpr hfree)
    · exact congrArg (·.pcb.state) hzero
  have hparents : ∀ c q, m.state c = .synReceived → (m.slot c).pcb.parent = some q → q = i ∨
    m.state q = .listen := by
    intro c q hstate hparent
    by_cases hqi : q = i
    · exact .inl hqi
    · exact .inr (hlisten q hqi (hheard c q (hlike.received c hstate) (hlike.parent c ▸ hparent)))
  obtain ⟨hkeep, hneed⟩ := hbase.reports_release_iff hclosed hparents
  rw [Keeps, hnext]
  constructor
  · intro hsafe
    have hsafe := hsafe m i hreleases
    exact ⟨hbase.release hsafe.2, hkeep hsafe⟩
  · intro hreports m' i' hm'
    rw [hreleases] at hm'
    cases hm'
    exact hneed hreports

/-! ### Sections that allocate a block -/

/-- A free block becomes a socket or a handshake of the listener. -/
theorem Base.allocate {g' : History} (hfree : n.state i = .free)
    (hi : i < pcbSize) (hslot : ∀ j, j ≠ i → n'.slot j = n.slot j) (hwait : n'.wait = n.wait)
    (hallocs : ∀ j, j ≠ i → g'.allocs j = g.allocs j) (horigin : ∀ j, j ≠ i → g'.origin j = g.origin j)
    (hbacklog : (n'.slot i).backlog = []) (hmode : (n'.slot i).pcb.mode = .socket) (hne : n'.state i ≠ .free)
    (hsent : n'.state i ≠ .synSent)
    (hnew : n'.state i = .synReceived → ∀ q, (n'.slot i).pcb.parent = some q →
      n.state q = .listen ∧ g'.origin i = some (q, g.allocs q)) : Base n' g' ∧ Heard n' := by
  have hstate : ∀ j, j ≠ i → n'.state j = n.state j := fun j hj => congrArg (·.pcb.state) (hslot j hj)
  have hlisten : ∀ q, n.state q = .listen → q ≠ i := by
    rintro q hq rfl
    simp [hfree] at hq
  have hmem : ∀ q k, k ∈ (n'.slot q).backlog → q ≠ i ∧ k ≠ i ∧ k ∈ (n.slot q).backlog := by
    intro q k hmem
    have hq : q ≠ i := by
      rintro rfl
      simp [hbacklog] at hmem
    rw [hslot q hq] at hmem
    refine ⟨hq, ?_, hmem⟩
    rintro rfl
    exact h.waiting_ne_free hmem hfree
  refine ⟨⟨?_, ?_, ?_, ?_, ?_, ?_, ?_, ?_, ?_, ?_, ?_⟩, ?_⟩
  · intro c q hc hparent
    by_cases hci : c = i
    · subst hci
      obtain ⟨hq, horig⟩ := hnew hc q hparent
      rw [horig, hallocs q (hlisten q hq)]
    · rw [hstate c hci] at hc
      rw [hslot c hci] at hparent
      rw [horigin c hci, hallocs q (hlisten q (hheard c q hc hparent))]
      exact h.born c q hc hparent
  · intro q
    by_cases hq : q = i
    · rw [hq, hbacklog]
      exact List.nodup_nil
    · rw [hslot q hq]
      exact h.once q
  · intro k q q' hq hq'
    exact h.one k q q' (hmem q k hq).2.2 (hmem q' k hq').2.2
  · intro q k hk
    obtain ⟨hq, hki, hk⟩ := hmem q k hk
    rw [horigin k hki, hallocs q hq]
    exact h.waiting q k hk
  · intro q k hk
    obtain ⟨-, hki, hk⟩ := hmem q k hk
    rw [hstate k hki]
    exact h.done q k hk
  · intro j
    by_cases hj : j = i
    · exact hj ▸ hsent
    · rw [hstate j hj]
      exact h.passive j
  · intro j hjne
    by_cases hj : j = i
    · exact hj ▸ hmode
    · rw [hstate j hj] at hjne
      rw [hslot j hj]
      exact h.socket j hjne
  · intro j hjfree
    by_cases hj : j = i
    · exact hj ▸ hbacklog
    · rw [hstate j hj] at hjfree
      rw [hslot j hj]
      exact h.empty j hjfree
  · intro j hjfree
    by_cases hj : j = i
    · exact absurd (hj ▸ hjfree) hne
    · rw [hstate j hj] at hjfree
      rw [horigin j hj]
      exact h.nobody j hjfree
  · intro j hj
    have hji : j ≠ i := by omega
    rw [hstate j hji]
    exact h.outside j hj
  · rw [hwait]
    exact h.accepts
  · intro c q hc hparent
    have hq : n.state q = .listen := by
      by_cases hci : c = i
      · subst hci
        exact (hnew hc q hparent).1
      · rw [hstate c hci] at hc
        rw [hslot c hci] at hparent
        exact hheard c q hc hparent
    rw [hstate q (hlisten q hq)]
    exact hq

omit hheard in
/-- The history of a block that keeps its state. -/
theorem Base.next_at (ev : Event) {j : ℕ} (hj : n'.state j = n.state j) :
    (g.next n ev n').allocs j = g.allocs j ∧ (g.next n ev n').origin j = g.origin j := by
  by_cases hfree : n.state j = .free
  · simp [History.next, hj, hfree, h.nobody j hfree]
  · simp [History.next, hj, hfree]

omit h hheard in
theorem openSocket_slot (n : Net) (i j : ℕ) :
    ((n.alloc i).modify i fun s => { s with pcb := { s.pcb with mode := .socket } }).slot j =
    if j = i then ⟨{ (n.slot i).pcb with state := .closed, mode := .socket }, (n.slot i).backlog, false, 0⟩
    else n.slot j := by
  rw [slot_modify]
  split
  · simp [alloc, slot_modify]
  · rename_i hj
    simp [alloc, slot_modify, hj]

/-- `tcp_open` allocates a socket without a parent. -/
theorem keeps_openSocket (p : ℕ) :
    Keeps n g (.call p .openSocket) n.openSocket.2 := by
  unfold openSocket
  cases hfree : n.firstFree with
  | none => exact h.keeps_alike hheard rfl (.refl n) (fun _ => id) h.accepts
  | some i =>
    obtain ⟨hstate, hi⟩ := firstFree_spec hfree
    refine ⟨fun _ => ?_, fun _ m j hm => by simp [releases] at hm⟩
    have hslot := openSocket_slot n i
    have hsame : ∀ j, j ≠ i → ((n.alloc i).modify i
      fun s => { s with pcb := { s.pcb with mode := .socket } }).slot j =
        n.slot j := fun j hj => by rw [hslot, if_neg hj]
    have hnext := fun j (hj : j ≠ i) =>
      h.next_at (.call p .openSocket) (j := j) (congrArg (·.pcb.state) (hsame j hj))
    refine h.allocate hheard hstate hi hsame rfl (fun j hj => (hnext j hj).1)
      (fun j hj => (hnext j hj).2) ?_ ?_ ?_ ?_ ?_
    · rw [hslot, if_pos rfl]
      exact h.empty i hstate
    all_goals simp [state, hslot]

/-! ### Calls -/

theorem Base.keeps_same (hnone : n.releases ev = none) : Keeps n g ev n :=
  h.keeps_alike hheard hnone (.refl n) (fun _ => id) h.accepts

theorem Base.keeps_modify (hnone : n.releases ev = none) (i : ℕ) (f : Slot → Slot)
    (hcalm : Calm (n.slot i) (f (n.slot i)))
    (hlisten : n.state i = .listen → (f (n.slot i)).pcb.state = .listen) : Keeps n g ev (n.modify i f) := by
  refine h.keeps_alike hheard hnone (alike_modify n i f hcalm) (fun j hj => ?_) h.accepts
  rw [state_modify]
  split_ifs with hji
  · exact hlisten (hji ▸ hj)
  · exact hj

/-- `tcp_bind` changes the local endpoint only. -/
theorem keeps_bind (p : ℕ) (id : ℤ) (loc : Endpoint) :
    Keeps n g (.call p (.bind id loc)) (n.bind id loc).2 := by
  unfold Net.bind
  split
  · exact h.keeps_same hheard rfl
  · rename_i i _
    split
    · exact h.keeps_same hheard rfl
    · exact h.keeps_modify hheard rfl i (fun s => { s with pcb := { s.pcb with localEp := loc } })
        ⟨.refl _, rfl, rfl, .rfl, fun hs => hs, fun hs => hs⟩ fun hs => hs

/-- `tcp_listen` makes a socket a listener; no handshake had it as its parent. -/
theorem keeps_listen (p : ℕ) (id : ℤ) :
    Keeps n g (.call p (.listen id)) (n.listen id).2 := by
  unfold listen
  split
  · exact h.keeps_same hheard rfl
  · rename_i i hget
    have hne : (n.slot i).pcb.state ≠ .free := getSocket_ne_free hget
    exact h.keeps_modify hheard rfl i (fun s => { s with pcb := { s.pcb with state := .listen } })
      ⟨.refl _, rfl, rfl, by simpa using hne, by simp, by simp⟩ fun _ => rfl

end

/-- A section that changes no state, and sleeps in `tcp_accept` only. -/
structure Idle (n n' : Net) : Prop extends Alike n n' where
  state : ∀ j, n'.state j = n.state j
  wait : ∀ p w, n'.wait p = some w → n.wait p = some w ∨ ∃ i, w = .accept i

theorem Idle.refl (n : Net) : Idle n n := ⟨.refl n, fun _ => rfl, fun _ _ => .inl⟩

theorem Idle.trans (h : Idle n n') (h' : Idle n' n'') : Idle n n'' :=
  ⟨h.toAlike.trans h'.toAlike, fun j => (h'.state j).trans (h.state j),
    fun p w hw => (h'.wait p w hw).elim (h.wait p w) .inr⟩

theorem Base.idle_accepts (h : Base n g) (hidle : Idle n n') (p : ℕ) (w : Wait) (hw : n'.wait p = some w) :
    ∃ i, w = .accept i :=
  (hidle.wait p w hw).elim (h.accepts p w) id

theorem Base.keeps_idle (h : Base n g) (hheard : Heard n) (hnone : n.releases ev = none)
    (hidle : Idle n n') : Keeps n g ev n' :=
  h.keeps_alike hheard hnone hidle.toAlike (fun j hj => (hidle.state j).trans hj) (h.idle_accepts hidle)

theorem idle_modify (n : Net) (i : ℕ) (f : Slot → Slot) (wait : ℕ → Option Wait)
    (hcalm : Calm (n.slot i) (f (n.slot i)))
    (hstate : (f (n.slot i)).pcb.state = n.state i)
    (hwait : ∀ p w, wait p = some w → n.wait p = some w ∨ ∃ i, w = .accept i) :
    Idle n { n.modify i f with wait := wait } := by
  have hlike := alike_modify n i f hcalm
  refine ⟨⟨hlike.backlog, hlike.parent, hlike.mode, hlike.free, hlike.sent, hlike.received⟩,
    fun j => ?_, hwait⟩
  refine (state_modify n i j f).trans ?_
  split_ifs with hj
  · rw [hj, hstate]
  · rfl

theorem idle_wake (n : Net) (p i : ℕ) : Idle n (n.wake p i).2 := by
  refine idle_modify n i (fun s => { s with
    wc := s.wc - 1, interrupted := (n.slot i).interrupted && decide (s.wc - 1 ≠ 0) }) _
    ⟨.refl _, rfl, rfl, .rfl, id, id⟩ rfl fun p' w hw => ?_
  by_cases hp : p' = p
  · rw [hp] at hw
    simp at hw
  · rw [update_of_ne hp] at hw
    exact .inl hw

/-- The loop of `tcp_accept` takes a waiting block or sleeps. -/
theorem idle_acceptLoop (n : Net) (p i : ℕ) : Idle n (n.acceptLoop p i).2 := by
  unfold acceptLoop
  split
  · rename_i k rest hbacklog
    have hcalm : Calm (n.slot i) { n.slot i with backlog := rest } :=
      ⟨hbacklog ▸ List.sublist_cons_self k rest, rfl, rfl, .rfl, id, id⟩
    exact idle_modify n i (fun s => { s with backlog := rest }) n.wait hcalm rfl fun _ _ => .inl
  · unfold trySleep
    split
    · exact .refl n
    · refine idle_modify n i (fun s => { s with wc := s.wc + 1 }) _ ⟨.refl _, rfl, rfl, .rfl, id,
        id⟩ rfl fun p' w hw => ?_
      by_cases hp : p' = p
      · rw [hp, update_self] at hw
        exact .inr ⟨i, (Option.some.inj hw).symm⟩
      · rw [update_of_ne hp] at hw
        exact .inl hw

/-- `tcp_accept` takes a connection off the backlog, or sleeps. -/
theorem keeps_accept (h : Base n g) (hheard : Heard n) (p : ℕ) (id : ℤ) :
    Keeps n g (.call p (.accept id)) (n.accept p id).2 := by
  unfold accept
  split
  · exact h.keeps_same hheard rfl
  · split
    · exact h.keeps_idle hheard rfl (idle_acceptLoop n p _)
    · exact h.keeps_same hheard rfl

/-- A process that wakes in `tcp_accept` goes on in its loop. -/
theorem keeps_resume (h : Base n g) (hheard : Heard n) {p : ℕ} (env : SendEnv) {w : Wait}
    (hw : n.wait p = some w) :
    Keeps n g (.resume p env) (n.resume p env w).2 := by
  obtain ⟨i, rfl⟩ := h.accepts p w hw
  have hidle := idle_wake n p i
  have hreleases : n.releases (.resume p env) = if (n.wake p i).1 = false ∧ (n.wake p i).2.state i =
    .closed then
      some ((n.wake p i).2, i) else none := by simp only [releases, hw]
  simp only [resume, afterSleep]
  cases hwake : (n.wake p i).1 with
  | true =>
    refine h.keeps_idle hheard ?_ hidle
    simp [hreleases, hwake]
  | false =>
    simp only [Bool.false_eq_true, if_false]
    split
    · rename_i hclosed
      refine h.keeps_release hheard ?_ hidle.toAlike hclosed
        (fun j _ hj => (hidle.state j).trans hj) (h.idle_accepts hidle)
      simp [hreleases, hwake, hclosed]
    · rename_i hopen
      refine h.keeps_idle hheard ?_ (hidle.trans (idle_acceptLoop _ p i))
      simp [hreleases, hopen]

/-- `tcp_close` of a listener is where the release has to be safe. -/
theorem keeps_close (h : Base n g) (hheard : Heard n) (p : ℕ) (id : ℤ) (grant : Grant) :
    Keeps n g (.call p (.close id grant)) (n.close id grant).2 := by
  cases hget : n.get id with
  | none =>
    simp only [close, hget]
    exact h.keeps_same hheard (by simp [releases, hget])
  | some i =>
    have hreleases : n.releases (.call p (.close id grant)) =
        if n.state i = .listen then some (n.setState i .closed, i) else none := by simp [releases, hget]
    have hfin (state : State) (hne : n.state i ≠ .free ∧ n.state i ≠ .listen)
        (hto : state ≠ .free ∧ state ≠ .synSent ∧ state ≠ .synReceived) :
          Keeps n g (.call p (.close id grant))
        (n.setPcb i ((⟨(n.slot i).pcb, []⟩ : Conn).sendFin grant state).pcb) := by
      obtain ⟨hparent, hmode⟩ :=
        Prod.mk.inj (Prod.mk.inj (sendFin_identity ⟨(n.slot i).pcb, []⟩ grant state)).1
      exact h.keeps_modify hheard (hreleases.trans (if_neg hne.2)) i
        (fun s => { s with pcb := ((⟨(n.slot i).pcb, []⟩ : Conn).sendFin grant state).pcb })
        ⟨.refl _, hparent, hmode, iff_of_false hto.1 hne.1, fun hs => absurd hs hto.2.1,
          fun hs => absurd hs hto.2.2⟩
        fun hs => absurd hs hne.2
    rw [n.close_eq grant hget]
    split
    · next hlisten =>
      rw [if_pos hlisten] at hreleases
      have hcalm : Calm (n.slot i) { n.slot i with pcb := { (n.slot i).pcb with state := .closed } } :=
        ⟨.refl _, rfl, rfl, iff_of_false (by simp)
          (by simp [show (n.slot i).pcb.state = _ from hlisten]), by simp, by simp⟩
      have hstates : ∀ j, (n.setState i .closed).state j = if j = i then .closed else n.state j :=
        fun j => state_modify n i j _
      exact h.keeps_release hheard hreleases (alike_modify n i _ hcalm) (by simp [hstates])
        (fun j hj hjl => by rw [hstates, if_neg hj, hjl]) h.accepts
    · next hstate => exact hfin .finWait1 (by simp [hstate]) (by decide)
    · next hstate => exact hfin .lastAck (by simp [hstate]) (by decide)
    · next hlisten _ _ => exact h.keeps_same hheard (hreleases.trans (if_neg hlisten))

end Net

/-! ### Segments -/

/-- A segment makes a block neither a listener nor a new handshake. -/
structure Mild (pcb pcb' : Pcb) : Prop where
  parent : pcb'.parent = pcb.parent
  mode : pcb'.mode = pcb.mode
  free : pcb'.state = .free ↔ pcb.state = .free
  listen : pcb'.state = .listen ↔ pcb.state = .listen
  sent : pcb'.state = .synSent → pcb.state = .synSent
  received : pcb'.state = .synReceived → pcb.state = .synReceived

theorem Mild.refl (pcb : Pcb) : Mild pcb pcb := ⟨rfl, rfl, .rfl, .rfl, id, id⟩

/-- So do the states that a segment for a connection leads to. -/
theorem State.mild (s : State) : ∀ m ∈ s.acks, ∀ t ∈ m.fins, (t = .free ↔ s = .free) ∧
    (t = .listen ↔ s = .listen) ∧
    (t = .synSent → s = .synSent) ∧ (t = .synReceived → s = .synReceived) := by
  cases s <;> decide

section Mild

variable (env : Env) (seg : Segment) (c : Conn)

theorem finBit_identity : (finBit seg c).pcb.identity = c.pcb.identity := by
  unfold finBit
  split
  · cases hstate : c.pcb.state <;> simp only [hstate] <;> rfl
  · rfl

/-- While somebody sleeps on the block, a segment changes neither its owner nor its endpoints. -/
theorem otherArrives_identity (hsleeper : env.sleeper = true) :
    (otherArrives env seg c).pcb.identity = c.pcb.identity := by
  have hack := (ackField_stage env seg c fun _ => hsleeper).2.2.2
  obtain ⟨-, hpcb, -⟩ | ⟨-, harrives⟩ := otherArrives_cases env seg c
  · rw [hpcb]
  · rw [harrives]
    split
    · rw [finBit_identity]
      obtain h | ⟨-, h⟩ := segmentText_cases seg (ackField env seg c).1 <;> rw [h] <;> exact hack
    · exact hack

theorem mild_otherArrives (hsleeper : env.sleeper = true) : Mild c.pcb (otherArrives env seg c).pcb := by
  obtain ⟨hparent, hmode⟩ := Prod.mk.inj (Prod.mk.inj (otherArrives_identity env seg c hsleeper)).1
  obtain ⟨m, hm, ht⟩ := otherArrives_states env seg c fun _ => hsleeper
  obtain ⟨hfree, hlisten, hsent, hreceived⟩ := State.mild _ m hm _ ht
  exact ⟨hparent, hmode, hfree, hlisten, hsent, hreceived⟩

/-- In socket mode only a connecting block takes up a handshake itself. -/
theorem mild_segmentArrives (hsleeper : env.sleeper = true) (hpassive : c.pcb.state ≠ .synSent)
    (hsocket : c.pcb.state ≠ .free → c.pcb.mode = .socket) : Mild c.pcb (segmentArrives env seg c).pcb := by
  have hother := mild_otherArrives env seg c hsleeper
  unfold segmentArrives
  cases hstate : c.pcb.state with
  | closed => exact closedArrives_pcb c seg ▸ .refl _
  | listen =>
    have hmode := hsocket (by simp [hstate])
    dsimp only
    unfold listenArrives
    split
    · exact .refl _
    · split
      · exact .refl _
      · split
        · simp only [hmode]
          split <;> exact .refl _
        · exact .refl _
  | synSent => exact absurd hstate hpassive
  | _ => exact hother

end Mild

namespace Net

variable {n n' : Net} {g : History}

theorem pcb_push (n : Net) (q i j : ℕ) :
    ((n.modify q fun s => { s with backlog := s.backlog ++ [i] }).slot j).pcb = (n.slot j).pcb :=
  proj_modify Slot.pcb j

/-- A block whose handshake is complete joins the backlog of its listener. -/
theorem Base.push (h : Base n g) {q : ℕ} (hnot : ∀ q', i ∉ (n.slot q').backlog)
    (horigin : g.origin i = some (q, g.allocs q))
    (hstate : n.state i ≠ .synReceived) (hq : n.state q ≠ .free) :
    Base (n.modify q fun s => { s with backlog := s.backlog ++ [i] }) g := by
  have hslot := pcb_push n q i
  have hstates : ∀ j, (n.modify q fun s => { s with backlog := s.backlog ++ [i] }).state j = n.state j :=
    fun j => congrArg Pcb.state (hslot j)
  have hmem : ∀ q' k, k ∈ ((n.modify q fun s => { s with backlog := s.backlog ++ [i] }).slot q').backlog →
      k ∈ (n.slot q').backlog ∨ (q' = q ∧ k = i) := by
    intro q' k hk
    rw [slot_modify] at hk
    split at hk
    · rename_i hqq
      subst hqq
      simpa using hk
    · exact .inl hk
  refine ⟨fun c q' hc hparent => ?_, fun q' => ?_, fun k a b ha hb => ?_, fun q' k hk => ?_,
    fun q' k hk => ?_,
    fun j => ?_, fun j hj => ?_, fun j hj => ?_, fun j hj => ?_, fun j hj => ?_, h.accepts⟩
  · rw [hstates] at hc
    rw [hslot] at hparent
    exact h.born c q' hc hparent
  · rw [slot_modify]
    split
    · refine List.nodup_append.mpr ⟨h.once q, by simp, fun a ha b hb hab => ?_⟩
      rw [hab, List.mem_singleton.mp hb] at ha
      exact hnot q ha
    · exact h.once q'
  · obtain hold | ⟨rfl, rfl⟩ := hmem a k ha
    · obtain hold' | ⟨-, rfl⟩ := hmem b k hb
      · exact h.one k a b hold hold'
      · exact absurd hold (hnot a)
    · obtain hold' | ⟨rfl, -⟩ := hmem b k hb
      · exact absurd hold' (hnot b)
      · rfl
  · obtain hk | ⟨rfl, rfl⟩ := hmem q' k hk
    · exact h.waiting q' k hk
    · exact horigin
  · rw [hstates]
    obtain hk | ⟨-, rfl⟩ := hmem q' k hk
    · exact h.done q' k hk
    · exact hstate
  · rw [hstates]
    exact h.passive j
  · rw [hstates] at hj
    rw [hslot]
    exact h.socket j hj
  · rw [hstates] at hj
    have hjq : j ≠ q := by
      rintro rfl
      exact hq hj
    rw [slot_modify, if_neg hjq]
    exact h.empty j hj
  · rw [hstates] at hj
    exact h.nobody j hj
  · rw [hstates]
    exact h.outside j hj

theorem Calm.of_mild {s : Slot} {pcb : Pcb} (h : Mild s.pcb pcb) : Calm s { s with pcb := pcb } :=
  ⟨.refl _, h.parent, h.mode, h.free, h.sent, h.received⟩

theorem Base.mild_after (h : Base n g) (seg : Segment) (env : SegmentEnv) (i : ℕ) :
    Mild (n.slot i).pcb (n.after seg env i).pcb :=
  mild_segmentArrives _ seg ⟨(n.slot i).pcb, []⟩ rfl (h.passive i) (h.socket i)

/-- A segment that releases nothing. -/
theorem Base.keeps_reacted (h : Base n g) (hheard : Heard n) {seg : Segment} {env : SegmentEnv}
    (hselect : n.select seg.localEp (some seg.foreignEp) = some i)
    (hnone : n.releases (.segment seg env) = none) :
    Keeps n g (.segment seg env) (n.reacted seg env i) := by
  have hreach := n.after_reaches seg env i
  have hmild := h.mild_after seg env i
  have hset : Keeps n g (.segment seg env) (n.setPcb i (n.after seg env i).pcb) :=
    h.keeps_modify hheard hnone i (fun s => { s with pcb := (n.after seg env i).pcb })
      (.of_mild hmild) hmild.listen.mpr
  unfold reacted
  generalize hfx : (n.after seg env i).outer = fx at hreach
  cases hreach with
  | nothing => exact hset
  | spawns child hlisten hkeep hroom hstate hmode hparent =>
    obtain ⟨k, hk⟩ := Option.isSome_iff_exists.mp hroom
    obtain ⟨hfree, hkin⟩ := firstFree_spec hk
    simp only [List.foldl_cons, List.foldl_nil, effect, hk, hkeep]
    have hself : n.setPcb i (n.slot i).pcb = n := by
      simp [setPcb, modify]
    rw [hself]
    have hslot : ∀ j, j ≠ k → ((n.alloc k).setPcb k child).slot j = n.slot j := by
      intro j hj
      simp [setPcb, alloc, slot_modify, hj]
    have hnew : ((n.alloc k).setPcb k child).slot k = ⟨child, (n.slot k).backlog, false, 0⟩ := by
      simp [setPcb, alloc, slot_modify]
    have hnext := fun j (hj : j ≠ k) =>
      h.next_at (.segment seg env) (j := j) (congrArg (·.pcb.state) (hslot j hj))
    refine ⟨fun _ => ?_, fun _ m j hm => by rw [hnone] at hm; simp at hm⟩
    refine h.allocate hheard hfree hkin hslot rfl (fun j hj => (hnext j hj).1)
      (fun j hj => (hnext j hj).2) ?_ ?_ ?_ ?_ ?_
    · rw [hnew]
      exact h.empty k hfree
    · rw [hnew]
      exact hmode
    · simp [state, hnew, hstate]
    · simp [state, hnew, hstate]
    · intro _ q hq
      rw [hnew, hparent] at hq
      cases hq
      have hne : ((n.alloc k).setPcb k child).state k ≠ .free := by simp [state, hnew, hstate]
      exact ⟨hlisten, by simp [History.next, hne, hfree, hselect]⟩
  | joins q hstate hparent hleft =>
    simp only [List.foldl_cons, List.foldl_nil, effect]
    split
    · have hlike : Alike n (n.setPcb i (n.after seg env i).pcb) := alike_modify n i _ (.of_mild hmild)
      have hlisten : ∀ j, n.state j = .listen → (n.setPcb i (n.after seg env i).pcb).state j = .listen := by
        intro j hj
        rw [state_setPcb]
        split_ifs with hji
        · exact hmild.listen.mpr (hji ▸ hj)
        · exact hj
      have hbase := h.alike hlike h.accepts
      have hpush := hbase.push (i := i) (q := q) (fun q' hmem => ?_) (h.born i q hstate hparent) ?_ ?_
      · have hkept := pcb_push (n.setPcb i (n.after seg env i).pcb) q i
        have hfree : ∀ j, ((n.setPcb i (n.after seg env i).pcb).modify q
            fun s => { s with backlog := s.backlog ++ [i] }).state j = .free ↔ n.state j = .free := by
          intro j
          rw [state, hkept]
          exact hlike.free j
        rw [Keeps, g.next_eq_forget _ fun j => (hfree j).mpr, h.forget_eq hfree]
        refine ⟨fun _ => ⟨hpush, fun c r hc hr => ?_⟩, fun _ m j hm => by rw [hnone] at hm; simp at hm⟩
        rw [state, hkept] at hc ⊢
        rw [hkept] at hr
        exact hheard.alike hlike hlisten c r hc hr
      · exact h.done q' i ((hlike.backlog q').subset hmem) hstate
      · rw [state_setPcb, if_pos rfl]
        exact hleft
      · rw [hlisten q (hheard i q hstate hparent)]
        decide
    · exact hset

/-- Only listeners and handshakes reach other blocks. -/
theorem reacted_eq_setPcb (n : Net) (seg : Segment) (env : SegmentEnv) (hlisten : n.state i ≠ .listen)
    (hreceived : n.state i ≠ .synReceived) : n.reacted seg env i = n.setPcb i (n.after seg env i).pcb := by
  have hreach := n.after_reaches seg env i
  unfold reacted
  generalize (n.after seg env i).outer = fx at hreach
  cases hreach with
  | nothing => rfl
  | spawns _ hstate => exact absurd hstate hlisten
  | joins _ hstate => exact absurd hstate hreceived

/-- A segment allocates a handshake, ends one or works on a connection. -/
theorem keeps_segment (h : Base n g) (hheard : Heard n) (seg : Segment) (env : SegmentEnv) :
    Keeps n g (.segment seg env) (n.arrive seg env) := by
  unfold arrive
  cases hselect : n.select seg.localEp (some seg.foreignEp) with
  | none => exact h.keeps_same hheard (by simp [releases, hselect])
  | some i =>
    have hreleases : n.releases (.segment seg env) =
        if n.state i = .lastAck ∧ (n.after seg env i).pcb.state =
          .closed then some (n.reacted seg env i, i) else none := by
      simp [releases, hselect]
    dsimp only
    rw [arriveAt_eq]
    split
    · rename_i hlast
      rw [if_pos hlast] at hreleases
      have hreacted := reacted_eq_setPcb n seg env (i := i) (by simp [hlast.1]) (by simp [hlast.1])
      rw [hreacted] at hreleases ⊢
      have hmild := h.mild_after seg env i
      refine h.keeps_release hheard hreleases (alike_modify n i _ (.of_mild hmild)) ?_
        (fun j hj hjl => ?_) h.accepts
      · rw [state_setPcb, if_pos rfl]
        exact hlast.2
      · rw [state_setPcb, if_neg hj]
        exact hjl
    · rename_i hlast
      rw [if_neg hlast] at hreleases
      exact h.keeps_reacted hheard hselect hreleases

/-! ### Runs -/

/-- One case for each event around listeners. -/
theorem keeps_step {o : Outcome} (h : Base n g) (hheard : Heard n) (hlistening : ev.listening = true)
    (hrun : ev.run n = some (o, n')) : Keeps n g ev n' := by
  cases ev with
  | call p c =>
    obtain rfl : (c.run n p).2 = n' := congrArg Prod.snd (guarded hrun).2
    cases c with
    | openSocket => exact keeps_openSocket h hheard p
    | bind id loc => exact keeps_bind h hheard p id loc
    | listen id => exact keeps_listen h hheard p id
    | accept id => exact keeps_accept h hheard p id
    | close id grant => exact keeps_close h hheard p id grant
    | _ => simp [Event.listening] at hlistening
  | resume p env =>
    obtain ⟨w, hw, hresume⟩ := Option.map_eq_some_iff.mp hrun
    obtain rfl : (n.resume p env w).2 = n' := congrArg Prod.snd hresume
    exact keeps_resume h hheard env hw
  | segment seg env =>
    cases hrun
    exact keeps_segment h hheard seg env
  | _ => simp [Event.listening] at hlistening

/-- At boot the table is empty. -/
theorem base_boot : Base boot .start := by
  refine ⟨?_, ?_, ?_, ?_, ?_, ?_, ?_, ?_, ?_, ?_, ?_⟩ <;>
    simp [boot, state, Slot.zero, Pcb.zero, History.start]

theorem heard_boot : Heard boot := by
  simp [Heard, boot, Slot.zero, Pcb.zero]

/-- The listener that a section of `tcp_accept` takes a connection from. -/
def accepting (n : Net) : Event → Option ℕ
  | .call _ (.accept id) => n.getSocket id
  | .resume p _ =>
    match n.wait p with
    | some (.accept i) => some i
    | _ => none
  | _ => none

/-- The first connection of the backlog of `i` is handed out, and nothing else changes but the block
`i`. -/
structure Pops (i j : ℕ) (n n' : Net) : Prop where
  backlog : (n.slot i).backlog = j :: (n'.slot i).backlog
  other : ∀ k, k ≠ i → n'.slot k = n.slot k

/-- An identifier that `tcp_accept` returns was the first of the backlog. -/
theorem acceptLoop_pops {p : ℕ} {j : ℤ} (hrun : n.acceptLoop p i = (.ret j, n')) (hj : 0 ≤ j) :
    Pops i j.toNat n n' := by
  unfold acceptLoop at hrun
  split at hrun
  · rename_i k rest hbacklog
    cases hrun
    refine ⟨?_, fun k hk => by rw [slot_modify, if_neg hk]⟩
    rw [slot_modify, if_pos rfl]
    exact hbacklog
  · unfold trySleep at hrun
    split at hrun
    · cases hrun
      omega
    · cases hrun

theorem Pops.of_wake {p j : ℕ} (h : Pops i j (n.wake p i).2 n') : Pops i j n n' := by
  have hslot := slot_modify n i (f := fun s => { s with
    wc := s.wc - 1, interrupted := (n.slot i).interrupted && decide (s.wc - 1 ≠ 0) })
  have hwake : ∀ k, (n.wake p i).2.slot k = _ := hslot
  refine ⟨?_, fun k hk => ?_⟩
  · have hbacklog := h.backlog
    rw [hwake, if_pos rfl] at hbacklog
    exact hbacklog
  · rw [h.other k hk, hwake, if_neg hk]

/-- What `tcp_accept` returns is the first of the backlog. -/
theorem accepting_pops {j : ℤ} (haccepting : n.accepting ev = some i)
    (hrun : ev.run n = some (.ret j, n')) (hj : 0 ≤ j) : Pops i j.toNat n n' := by
  unfold accepting at haccepting
  split at haccepting
  · simp only [Event.run, Option.ite_none_right_eq_some, Option.some.injEq, Call.run, accept,
      haccepting] at hrun
    obtain ⟨-, hrun⟩ := hrun
    split at hrun
    · exact acceptLoop_pops hrun hj
    · cases hrun
      omega
  · split at haccepting
    · rename_i k hwait
      cases haccepting
      simp only [Event.run, hwait, Option.map_some, Option.some.injEq, resume, afterSleep] at hrun
      split at hrun
      · cases hrun
        omega
      · split at hrun
        · cases hrun
          omega
        · exact (acceptLoop_pops hrun hj).of_wake
    · simp at haccepting
  · simp at haccepting

/-- What holds along a run. -/
def Traced.Sound (t : Traced) : Prop := Base t.net t.history ∧ Heard t.net

def Traced.SafeStep (t : Traced) (ev : Event) (t' : Traced) : Prop := t.Step ev t' ∧ t.net.ReleasesSafely ev

/-- In every run from boot whose releases are safe, the handshakes report to their own listeners,
and `tcp_accept` returns only connections whose SYN arrived for the listener; and a further step
keeps that exactly if its release is safe. -/
theorem handshakes_report_iff {t : Traced} {events : List Event} (hrun : Run Traced.SafeStep .boot events t) :
    Reports t.net t.history ∧
      (∀ ev i j n', t.net.accepting ev = some i → ev.run t.net = some (.ret j, n') → 0 ≤ j →
        t.history.origin j.toNat = some (i, t.history.allocs i)) ∧
      ∀ ev t', t.Step ev t' → (Reports t'.net t'.history ↔ t.net.ReleasesSafely ev) := by
  have hsound : t.Sound := by
    refine hrun.invariant (fun s ev u hs hstep => ?_) ⟨base_boot, heard_boot⟩
    obtain ⟨⟨hlistening, o, hev, hhistory⟩, hsafe⟩ := hstep
    rw [Traced.Sound, hhistory]
    exact (keeps_step hs.1 hs.2 hlistening hev).1 hsafe
  obtain ⟨hbase, hheard⟩ := hsound
  have hreports := hbase.reports hheard
  refine ⟨hreports, fun ev i j n' haccepting hev hj => ?_, fun ev t' hstep => ?_⟩
  · refine hreports.waiting i j.toNat ?_
    rw [(accepting_pops haccepting hev hj).backlog]
    exact List.mem_cons_self
  · obtain ⟨hlistening, o, hev, hhistory⟩ := hstep
    obtain ⟨hkeep, hneed⟩ := keeps_step hbase hheard hlistening hev
    rw [hhistory]
    constructor
    · exact hneed
    · intro hsafe
      obtain ⟨hbase', hheard'⟩ := hkeep hsafe
      exact hbase'.reports hheard'

/-- Execute a section with its history. -/
def Traced.next (t : Traced) (ev : Event) : Option Traced :=
  if ev.listening then (ev.run t.net).map fun r => ⟨r.2, t.history.next t.net ev r.2⟩ else none

theorem Traced.step_of_next {t t' : Traced} (h : t.next ev = some t') : t.Step ev t' := by
  simp only [next, Option.ite_none_right_eq_some, Option.map_eq_some_iff] at h
  obtain ⟨hlistening, ⟨o, n'⟩, hrun, rfl⟩ := h
  exact ⟨hlistening, o, hrun, rfl⟩

/-- Execute a section that releases nothing. -/
def Traced.nextKeeping (t : Traced) (ev : Event) : Option Traced :=
  if (t.net.releases ev).isNone then t.next ev else none

theorem Traced.safeStep_of_nextKeeping {t t' : Traced} (h : t.nextKeeping ev = some t') :
    t.SafeStep ev t' := by
  simp only [nextKeeping, Option.ite_none_right_eq_some] at h
  refine ⟨step_of_next h.2, fun m i hm => ?_⟩
  rw [hm] at h
  simp at h

/-- A process listens, and a SYN arrives. -/
def pending : List Event :=
  [.call 0 .openSocket, .call 0 (.bind 0 hostEp), .call 0 (.listen 0), bare 100 0 flgSyn]

/-- The handshake of a SYN reports to the listener. -/
theorem handshakes_report_syn : ∃ t, Run Traced.SafeStep .boot pending t ∧ t.net.state 1 = .synReceived ∧
    (t.net.slot 1).pcb.parent = some 0 ∧ Reports t.net t.history := by
  obtain ⟨t, hrun, hstate, hparent⟩ : ∃ t, Run Traced.SafeStep .boot pending t ∧
    t.net.state 1 = .synReceived ∧
      (t.net.slot 1).pcb.parent = some 0 := exists_run Traced.safeStep_of_nextKeeping (by decide +kernel)
  exact ⟨t, hrun, hstate, hparent, (handshakes_report_iff hrun).1⟩

/-- The listener is closed before the handshake is complete, and its block becomes another
listener. -/
def reopened : List Event :=
  pending ++ [.call 0 (.close 0 ⟨true, true⟩), .call 0 .openSocket, .call 0 (.listen 0), bare 101 1 flgAck]

/-- `tcp_accept` on the new listener returns the connection of the old one. -/
theorem accept_returns_other_listeners_connection : ∃ t n', Run Traced.Step .boot reopened t ∧
    (Event.call 0 (.accept 0)).run t.net = some (.ret 1, n') ∧ t.history.origin 1 = some (0, 1) ∧
      t.history.allocs 0 = 2 ∧ ¬ Reports t.net t.history := by
  obtain ⟨t, hsteps, hret, horigin, hallocs, hbacklog⟩ : ∃ t, Run Traced.Step .boot reopened t ∧
      ((Event.call 0 (.accept 0)).run t.net).map Prod.fst = some (.ret 1) ∧ t.history.origin 1 = some (0, 1) ∧
      t.history.allocs 0 = 2 ∧ (t.net.slot 0).backlog = [1] :=
        exists_run Traced.step_of_next (by decide +kernel)
  obtain ⟨⟨o, n'⟩, hrun, rfl⟩ := Option.map_eq_some_iff.mp hret
  refine ⟨t, n', hsteps, hrun, horigin, hallocs, ?_⟩
  intro hreports
  have hwaits := hreports.waiting 0 1 (by simp [hbacklog])
  rw [horigin, hallocs] at hwaits
  simp at hwaits

end Net

end Xv6.Tcp
