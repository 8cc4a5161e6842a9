import Xv6.Net.Frame

/-!
# Blocks of closed sockets

After `tcp_close` a block belongs to nobody, and only arriving segments and the timer can bring it
back to FREE. `tcp_pcb_release` is reached from a segment in one place, the acknowledgment of the
FIN in LAST-ACK. A block that was closed in another state than CLOSE-WAIT or LISTEN never gets
there: FIN-WAIT-1, FIN-WAIT-2, CLOSING and TIME-WAIT lead nowhere else, and CLOSED ignores
everything.
-/

namespace Xv6.Tcp

open Lib

/-- The states that segments and the timer lead only to one another. -/
def State.lost : State → Bool
  | .closed | .established | .finWait1 | .finWait2 | .closing | .timeWait | .closeWait => true
  | _ => false

section Segment

variable (env : Env) (seg : Segment) {c : Conn}

theorem State.lost_of_arrives (s : State) (h : s.lost = true) : ∀ m ∈ s.acks, ∀ t ∈ m.fins, t.lost =
    true := by
  revert h
  cases s <;> decide

/-- A segment leaves a lost block lost. -/
theorem lost_segmentArrives (h : c.pcb.state.lost = true) (hsleeper : env.sleeper = true) :
    (segmentArrives env seg c).pcb.state.lost = true := by
  obtain ⟨m, hm, ht⟩ := otherArrives_states env seg c fun _ => hsleeper
  have hother := State.lost_of_arrives _ h m hm _ ht
  unfold segmentArrives
  cases hstate : c.pcb.state with
  | closed => rwa [closedArrives_pcb]
  | listen | synSent =>
    rw [hstate] at h
    exact absurd h (by decide)
  | _ => exact hother

/-- In LAST-ACK a segment closes the connection or leaves the block as it is. -/
theorem lastAck_segmentArrives (h : c.pcb.state = .lastAck) (hsleeper : env.sleeper = true) :
    (segmentArrives env seg c).pcb = c.pcb ∨ (segmentArrives env seg c).pcb.state = .closed := by
  simp only [segmentArrives, h, otherArrives, ackField]
  split
  · left
    split <;> rfl
  · split
    · exact .inl rfl
    · split
      · right
        simp [Conn.release, hsleeper]
      · exact .inl rfl

/-- A segment changes neither the owner nor the endpoints of a block, but for a listener that takes
up a connection. -/
theorem segmentArrives_identity (hsleeper : env.sleeper = true) :
    (segmentArrives env seg c).pcb.identity = c.pcb.identity ∨ c.pcb.state = .listen ∧
      (segmentArrives env seg c).pcb.owner = c.pcb.owner ∧
        (segmentArrives env seg c).pcb.ends = (seg.localEp, seg.foreignEp) := by
  have hother := otherArrives_identity env seg c hsleeper
  have hpeer : ∀ acceptable, (peerSyn seg acceptable c.pcb).identity = c.pcb.identity := by
    intro acceptable
    cases acceptable <;> rfl
  unfold segmentArrives
  cases hstate : c.pcb.state with
  | closed => exact .inl (by rw [closedArrives_pcb])
  | listen =>
    dsimp only
    unfold listenArrives
    split
    · exact .inl rfl
    · split
      · exact .inl rfl
      · split
        · split
          · split <;> exact .inl rfl
          · exact .inr ⟨rfl, rfl, rfl⟩
        · exact .inl rfl
  | synSent =>
    left
    simp only [synSentArrives]
    split
    · rfl
    · split
      · split <;> exact hpeer _
      · rfl
  | _ => exact .inl hother

/-- Some sequence number passes the window test. -/
def Pcb.Opens (pcb : Pcb) : Prop := pcb.rcv.wnd = 0 ∨ pcb.rcv.nxt < pcb.rcv.nxt + pcb.rcv.wnd.toUInt32

/-- The acknowledgment of everything that was sent. -/
def Pcb.lastSegment (pcb : Pcb) : Segment where
  seq := pcb.rcv.nxt
  ack := pcb.snd.nxt
  wnd := 0
  flg := flgAck
  data := []
  localEp := pcb.localEp
  foreignEp := pcb.foreignEp
  fits := Nat.zero_le _

theorem Pcb.Opens.acceptable {pcb : Pcb} (h : pcb.Opens) : pcb.acceptable pcb.lastSegment = true := by
  have hsyn : isSet flgAck flgSyn = false := by decide
  have hfin : isSet flgAck flgFin = false := by decide
  have hlen : pcb.lastSegment.len = 0 := by simp [Segment.len, Pcb.lastSegment, hsyn, hfin]
  unfold Pcb.acceptable
  rw [hlen]
  dsimp only [Pcb.lastSegment]
  by_cases hwnd : pcb.rcv.wnd = 0
  · simp [hwnd]
  · simp [h.resolve_left hwnd]

theorem lastAck_lastSegment (h : c.pcb.state = .lastAck) (hopens : c.pcb.Opens)
    (hsleeper : env.sleeper = true) :
    (segmentArrives env c.pcb.lastSegment c).pcb.state = .closed := by
  have hack : isSet c.pcb.lastSegment.flg flgAck = true := by
    simp only [Pcb.lastSegment]
    decide
  have hnxt : c.pcb.lastSegment.ack = c.pcb.snd.nxt := rfl
  simp [segmentArrives, h, otherArrives, ackField, hopens.acceptable, hack, hnxt, Conn.release, hsleeper]

end Segment

namespace Net

/-- Segments and the timer. -/
def Event.external : Event → Bool
  | .segment _ _ | .tick _ => true
  | _ => false

/-- A sequence of segments and ticks leads to a state in which the block is free. -/
def Reclaimable (n : Net) (i : ℕ) : Prop :=
  ∃ events n', (∀ ev ∈ events, ev.external = true) ∧
    Run (fun n ev n' => ∃ o, Event.run n ev = some (o, n')) n events n' ∧ n'.state i = .free

variable {n n' : Net} {i : ℕ}

/-- What a segment or a tick does: nothing, the reaction of one block, perhaps with its release, or
the timer. -/
theorem external_cases {ev : Event} {o : Outcome} (hext : ev.external = true)
    (hrun : ev.run n = some (o, n')) :
    n' = n ∨ (∃ seg env k, n.select seg.localEp (some seg.foreignEp) = some k ∧ n' = n.arriveAt seg env k) ∨
      ∃ due, n' = n.tick due := by
  cases ev with
  | segment seg env =>
    cases hrun
    unfold arrive
    split
    · exact .inl rfl
    · rename_i k hk
      exact .inr (.inl ⟨seg, env, k, hk, rfl⟩)
  | tick due =>
    cases hrun
    exact .inr (.inr ⟨due, rfl⟩)
  | _ => simp [Event.external] at hext

theorem tick_slot (n : Net) (due : ℕ → ℕ → Due) (i : ℕ) : ∃ pcb, (n.tick due).slot i =
    { n.slot i with pcb := pcb } := by
  by_cases hi : i < pcbSize
  · exact ⟨_, if_pos hi⟩
  · exact ⟨_, if_neg hi⟩

/-! ### Lost blocks -/

/-- A block that no segment and no tick will free. -/
structure Lost (n : Net) (i : ℕ) : Prop where
  state : (n.state i).lost = true
  alone : ∀ q, i ∉ (n.slot q).backlog

section

variable (h : Lost n i)

include h

theorem Lost.ne_free : n.state i ≠ .free := by
  intro hfree
  have hlost := h.state
  rw [hfree] at hlost
  exact absurd hlost (by decide)

theorem Lost.ne_synReceived : n.state i ≠ .synReceived := by
  intro hsyn
  have hlost := h.state
  rw [hsyn] at hlost
  exact absurd hlost (by decide)

theorem Lost.reacted (seg : Segment) (env : SegmentEnv) (k : ℕ) : Lost (n.reacted seg env k) i := by
  have hreacts := reacts_segment n seg env k
  constructor
  · by_cases hik : i = k
    · subst hik
      rw [Net.state, hreacts.own]
      exact lost_segmentArrives _ seg h.state rfl
    · rw [Net.state, hreacts.other i hik h.ne_free]
      exact h.state
  · intro q hmem
    obtain hmem | ⟨rfl, hsyn, -⟩ := hreacts.joins hmem
    · exact h.alone q hmem
    · exact h.ne_synReceived hsyn

/-- The release of another block does not reach one that waits in no backlog. -/
theorem Lost.release {k : ℕ} (hik : i ≠ k) : Lost (n.release k) i := by
  have hworks := worksOn_release (p := 0) n k
  refine ⟨?_, hworks.alone h.alone⟩
  rw [Net.state, hworks.untouched hik h.alone]
  exact h.state

theorem Lost.arriveAt (seg : Segment) (env : SegmentEnv) (k : ℕ) : Lost (n.arriveAt seg env k) i := by
  rw [arriveAt_eq]
  split_ifs with hlast
  · refine (h.reacted seg env k).release ?_
    rintro rfl
    have hlost := h.state
    rw [hlast.1] at hlost
    exact absurd hlost (by decide)
  · exact h.reacted seg env k

theorem Lost.tick (due : ℕ → ℕ → Due) : Lost (n.tick due) i := by
  constructor
  · obtain hsame | hclosed := tick_state n due i
    · rw [hsame]
      exact h.state
    · rw [hclosed]
      rfl
  · intro q
    obtain ⟨pcb, hslot⟩ := tick_slot n due q
    rw [hslot]
    exact h.alone q

/-- A lost block stays lost. -/
theorem Lost.not_reclaimable : ¬ n.Reclaimable i := by
  rintro ⟨events, n', hext, hrun, hfree⟩
  have hlost : Lost n' i := by
    induction hrun with
    | nil => exact h
    | cons first _ ih =>
      obtain ⟨o, hrun⟩ := first
      refine ih ?_ (fun ev hev => hext ev (List.mem_cons_of_mem _ hev)) hfree
      obtain rfl | ⟨seg, env, k, -, rfl⟩ | ⟨due, rfl⟩ := external_cases (hext _ List.mem_cons_self) hrun
      · exact h
      · exact h.arriveAt seg env k
      · exact h.tick due
  exact hlost.ne_free hfree

end

/-! ### Blocks in LAST-ACK -/

/-- A block in LAST-ACK that nobody works with any more. -/
structure Leaving (n : Net) (i : ℕ) : Prop where
  state : n.state i = .lastAck
  wc : (n.slot i).wc = 0
  alone : ∀ q, i ∉ (n.slot q).backlog
  unslept : ∀ p w, n.wait p = some w → w.block ≠ i
  opens : (n.slot i).pcb.Opens

/-- Segments of its connection find the block. -/
def Found (n : Net) (i : ℕ) : Prop := n.select (n.slot i).pcb.localEp (some (n.slot i).pcb.foreignEp) = some i

/-- A block with the endpoints `e` is taken for one with the endpoints `f`. -/
def Covers (e f : Endpoint × Endpoint) : Prop := (e.1.addr = 0 ∨ e.1.addr = f.1.addr) ∧
    e.1.port = f.1.port ∧ e.2 = f.2

/-- No block in front of `i` is taken for it, and a cleared one would not be. -/
structure Clear (n : Net) (i : ℕ) : Prop where
  lt : i < pcbSize
  front : ∀ j < i, ¬ Covers (n.slot j).pcb.ends (n.slot i).pcb.ends
  zero : ¬ Covers Pcb.zero.ends (n.slot i).pcb.ends

theorem selectLoop_clear {before after : List ℕ} {listen : Option ℕ}
    (h : ∀ j ∈ before, ¬ Covers (n.slot j).pcb.ends (n.slot i).pcb.ends) :
    n.selectLoop (n.slot i).pcb.localEp (some (n.slot i).pcb.foreignEp)
      (before ++ i :: after) listen = some i := by
  induction before generalizing listen with
  | nil => simp [selectLoop]
  | cons j before ih =>
    obtain ⟨hj, hrest⟩ := List.forall_mem_cons.mp h
    rw [List.cons_append, selectLoop]
    split
    · rename_i hlocal
      have hforeign : (n.slot j).pcb.foreignEp ≠ (n.slot i).pcb.foreignEp :=
        fun heq => hj ⟨hlocal.1, hlocal.2, heq⟩
      rw [if_neg hforeign]
      split <;> exact ih hrest
    · exact ih hrest

theorem Clear.found (h : Clear n i) : n.Found i := by
  obtain ⟨rest, hrest⟩ := Nat.exists_eq_add_of_lt h.lt
  unfold Found select
  rw [hrest, Nat.add_assoc, List.range_add, List.range_succ_eq_map, List.map_cons, Nat.add_zero]
  exact selectLoop_clear fun j hj => h.front j (List.mem_range.mp hj)

theorem release_self (h : (n.slot i).wc = 0) : (n.release i).slot i = .zero := by
  change releaseLoop (queued n.slot + 1) [i] n.slot i = .zero
  simp only [releaseLoop, h, ne_eq, not_true_eq_false, if_false]
  obtain hsame | hzero := releaseLoop_cases (queued n.slot) ((n.slot i).backlog ++ [])
    (Function.update n.slot i .zero) i
  · rw [hsame, Function.update_self]
  · exact hzero

section

variable (h : Leaving n i)

include h

theorem Leaving.ne_free : n.state i ≠ .free := by
  rw [h.state]
  decide

theorem Leaving.worksOn {p k : ℕ} (hworks : WorksOn p k n n') (hik : i ≠ k) : Leaving n' i := by
  have hslot := hworks.untouched hik h.alone
  refine ⟨by rw [Net.state, hslot]; exact h.state, by rw [hslot]; exact h.wc, hworks.alone h.alone,
    fun q w hw => ?_,
    by rw [hslot]; exact h.opens⟩
  obtain hw | ⟨-, hblock⟩ := hworks.wait q w hw
  · exact h.unslept q w hw
  · rw [hblock]
    exact hik.symm

theorem Leaving.reacted (seg : Segment) (env : SegmentEnv) {k : ℕ}
    (hkeep : i = k → (n.after seg env i).pcb = (n.slot i).pcb) : Leaving (n.reacted seg env k) i := by
  have hreacts := reacts_segment n seg env k
  have hpcb : ((n.reacted seg env k).slot i).pcb = (n.slot i).pcb := by
    by_cases hik : i = k
    · subst hik
      rw [hreacts.own]
      exact hkeep rfl
    · exact hreacts.other i hik h.ne_free
  refine ⟨by rw [Net.state, hpcb]; exact h.state, by rw [hreacts.wc i h.ne_free]; exact h.wc,
    fun q hmem => ?_,
    by rw [hreacts.wait]; exact h.unslept, by rw [hpcb]; exact h.opens⟩
  obtain hmem | ⟨rfl, hsyn, -⟩ := hreacts.joins hmem
  · exact h.alone q hmem
  · exact absurd (h.state.symm.trans hsyn) (by decide)

/-- A segment that closes the block frees it. -/
theorem Leaving.freed {seg : Segment} {env : SegmentEnv} (hclosed : (n.after seg env i).pcb.state = .closed) :
    (n.arriveAt seg env i).state i = .free := by
  have hwc : ((n.reacted seg env i).slot i).wc = 0 := by
    rw [(reacts_segment n seg env i).wc i h.ne_free]
    exact h.wc
  rw [arriveAt_eq, if_pos ⟨h.state, hclosed⟩, Net.state, release_self hwc]
  rfl

theorem Leaving.arriveAt (seg : Segment) (env : SegmentEnv) (k : ℕ) :
    (n.arriveAt seg env k).state i = .free ∨ Leaving (n.arriveAt seg env k) i := by
  by_cases hik : i = k
  · subst hik
    obtain hkeep | hclosed := lastAck_segmentArrives ⟨i, env.random, n.firstFree.isSome, true⟩ seg
      (c := ⟨(n.slot i).pcb, []⟩) h.state rfl
    · have hkeep : (n.after seg env i).pcb = (n.slot i).pcb := hkeep
      right
      rw [arriveAt_eq, if_neg]
      · exact h.reacted seg env fun _ => hkeep
      · rintro ⟨hlast, hclosed⟩
        rw [hkeep] at hclosed
        exact absurd (hlast.symm.trans hclosed) (by decide)
    · exact .inl (h.freed hclosed)
  · have hreacted := h.reacted seg env (k := k) fun heq => absurd heq hik
    right
    rw [arriveAt_eq]
    split
    · exact hreacted.worksOn (worksOn_release (p := 0) _ k) hik
    · exact hreacted

theorem Leaving.of_slot (hslot : (n'.slot i).pcb = (n.slot i).pcb) (hwc : (n'.slot i).wc = (n.slot i).wc)
    (hbacklog : ∀ q, (n'.slot q).backlog = (n.slot q).backlog) (hwait : n'.wait = n.wait) : Leaving n' i :=
  ⟨by rw [Net.state, hslot]; exact h.state, hwc ▸ h.wc, fun q => by rw [hbacklog]; exact h.alone q,
    by rw [hwait]; exact h.unslept, by rw [hslot]; exact h.opens⟩

theorem Leaving.tick {due : ℕ → ℕ → Due} (hdue : ∀ k, due i k ≠ .expired) : Leaving (n.tick due) i := by
  have hpcb : ((n.tick due).slot i).pcb = (n.slot i).pcb := by
    simp only [Net.tick]
    split
    · exact timer_pcb hdue _
    · rfl
  have hrest : ∀ q, ((n.tick due).slot q).wc = (n.slot q).wc ∧ ((n.tick due).slot q).backlog =
    (n.slot q).backlog := by
    intro q
    obtain ⟨pcb, hslot⟩ := tick_slot n due q
    rw [hslot]
    exact ⟨rfl, rfl⟩
  exact h.of_slot hpcb (hrest i).1 (fun q => (hrest q).2) rfl

theorem Leaving.interrupt : Leaving n.interrupt i := by
  have hrest : ∀ q, (n.interrupt.slot q).pcb = (n.slot q).pcb ∧ (n.interrupt.slot q).wc = (n.slot q).wc ∧
      (n.interrupt.slot q).backlog = (n.slot q).backlog := by
    intro q
    simp only [Net.interrupt]
    split <;> exact ⟨rfl, rfl, rfl⟩
  exact h.of_slot (hrest i).1 (hrest i).2.1 (fun q => (hrest q).2.2) rfl

/-- The acknowledgment of its FIN frees the block. -/
theorem Leaving.reclaimable (hfound : n.Found i) : n.Reclaimable i := by
  have hclosed : (n.after (n.slot i).pcb.lastSegment ⟨0, true⟩ i).pcb.state = .closed :=
    lastAck_lastSegment _ (c := ⟨(n.slot i).pcb, []⟩) h.state h.opens rfl
  have harrive : n.arrive (n.slot i).pcb.lastSegment ⟨0, true⟩ =
    n.arriveAt (n.slot i).pcb.lastSegment ⟨0, true⟩ i := by
    unfold arrive
    rw [show n.select (n.slot i).pcb.lastSegment.localEp
      (some (n.slot i).pcb.lastSegment.foreignEp) = some i from hfound]
  refine ⟨[.segment (n.slot i).pcb.lastSegment ⟨0, true⟩], _, by simp [Event.external],
    .cons ⟨.ret 0, rfl⟩ (.nil _), ?_⟩
  rw [harrive]
  exact h.freed hclosed

end

/-! ### Endpoints -/

/-- The endpoints that an event gives to the block `j`. -/
def Event.gives (n : Net) (j : ℕ) : Event → Endpoint × Endpoint → Prop
  | .call _ c, e => n.target c = some j ∧ n.gives j c e
  | .segment seg _, e => e = (seg.localEp, seg.foreignEp) ∧
      ∃ k, n.select seg.localEp (some seg.foreignEp) = some k ∧ n.state k = .listen ∧
        (j = k ∨ n.state j = .free)
  | _, _ => False

theorem release_slot (n : Net) (i j : ℕ) : (n.release i).slot j = n.slot j ∨ (n.release i).slot j = .zero :=
  releaseLoop_cases (queued n.slot + 1) [i] n.slot j

theorem Writes.ends {p : ℕ} {S : State → Prop} {E : Endpoint × Endpoint → Prop} (h : Writes p i S E n n') :
    (n'.slot i).pcb.ends = (n.slot i).pcb.ends ∨ n'.slot i = .zero ∨ E (n'.slot i).pcb.ends := by
  induction h with
  | done n => exact .inl rfl
  | release n => exact (release_slot n i i).imp (congrArg fun s : Slot => s.pcb.ends) .inl
  | @write n n' f wait _ _ hends _ _ _ ih =>
    have hslot : ({ n.modify i f with wait := wait } : Net).slot i =
      f (n.slot i) := by rw [slot_modify, if_pos rfl]
    rw [hslot] at ih
    obtain hsame | hover := ih
    · rw [hsame]
      exact hends.imp_right .inr
    · exact .inr hover

theorem timer_identity (due : ℕ → Due) (c : Conn) : (timer due c).pcb.identity = c.pcb.identity := by
  refine timer_invariant (P := fun d => d.pcb.identity = c.pcb.identity) rfl fun d e i hd => ?_
  cases due i <;> exact hd

/-- A segment gives its endpoints to a free block or a listener, if it is for a listener. -/
theorem reacted_ends (n : Net) (seg : Segment) (env : SegmentEnv) (k j : ℕ) :
    ((n.reacted seg env k).slot j).pcb.ends = (n.slot j).pcb.ends ∨
      ((n.reacted seg env k).slot j).pcb.ends = (seg.localEp, seg.foreignEp) ∧ n.state k = .listen ∧
        (j = k ∨ n.state j = .free) := by
  have hreacts := reacts_segment n seg env k
  by_cases hjk : j = k
  · subst hjk
    rw [hreacts.own]
    exact (segmentArrives_identity _ seg (c := ⟨(n.slot j).pcb, []⟩) rfl).imp
      (fun hkept => (Prod.mk.inj hkept).2)
      fun hnew => ⟨hnew.2.2, hnew.1, .inl rfl⟩
  · by_cases hfree : n.state j = .free
    · exact (hreacts.born j hjk hfree).imp (congrArg Pcb.ends) fun hnew =>
        ⟨hnew.2.2.2, hnew.2.2.1, .inr hfree⟩
    · exact .inl (congrArg Pcb.ends (hreacts.other j hjk hfree))

/-- A block keeps its endpoints unless it is cleared or the event gives it others. -/
theorem ends_run {ev : Event} {o : Outcome} (hrun : ev.run n = some (o, n')) (j : ℕ) :
    (n'.slot j).pcb.ends = (n.slot j).pcb.ends ∨ n'.slot j = .zero ∨ ev.gives n j (n'.slot j).pcb.ends := by
  have hother {p k : ℕ} (hworks : WorksOn p k n n') (hj : j ≠ k) :
      (n'.slot j).pcb.ends = (n.slot j).pcb.ends ∨ n'.slot j = .zero :=
    (hworks.other j hj).imp (congrArg fun s : Slot => s.pcb.ends) And.right
  cases ev with
  | call p c =>
    obtain rfl : (c.run n p).2 = n' := congrArg Prod.snd (guarded hrun).2
    cases htarget : n.target c with
    | none =>
      rw [call_without_target n p htarget]
      exact .inl rfl
    | some k =>
      by_cases hj : j = k
      · subst hj
        by_cases hopen : c = .openSocket
        · subst hopen
          change n.firstFree = some j at htarget
          simp only [Call.run, openSocket, htarget]
          exact .inl ((proj_modify (fun s => s.pcb.ends) j).trans (proj_modify (fun s => s.pcb.ends) j))
        · exact (writes_call n p htarget hopen).ends.imp_right (.imp_right fun hgives => ⟨htarget, hgives⟩)
      · exact (hother (worksOn_call n p htarget) hj).imp_right .inl
  | resume p env =>
    obtain ⟨w, hw, hresume⟩ := Option.map_eq_some_iff.mp hrun
    obtain rfl : (n.resume p env w).2 = n' := congrArg Prod.snd hresume
    have hwrites := writes_resume n p env w
    by_cases hj : j = w.block
    · exact hj ▸ hwrites.ends
    · exact (hother hwrites.worksOn hj).imp_right .inl
  | segment seg env =>
    cases hrun
    unfold arrive
    split
    · exact .inl rfl
    · rename_i k hk
      have hends := reacted_ends n seg env k j
      have hgives : ((n.reacted seg env k).slot j).pcb.ends = (n.slot j).pcb.ends ∨
          (Event.segment seg env).gives n j ((n.reacted seg env k).slot j).pcb.ends :=
        hends.imp_right fun hnew => ⟨hnew.1, k, hk, hnew.2⟩
      rw [arriveAt_eq]
      split
      · obtain hsame | hzero := release_slot (n.reacted seg env k) k j
        · rw [hsame]
          exact hgives.imp_right .inr
        · exact .inr (.inl hzero)
      · exact hgives.imp_right .inr
  | tick due =>
    cases hrun
    left
    simp only [tick]
    split
    · exact (Prod.mk.inj (timer_identity (due j) _)).2
    · rfl
  | interrupt =>
    cases hrun
    left
    simp only [interrupt]
    split <;> rfl

/-- A block stays clear of those in front if none of them is given endpoints that cover its own. -/
theorem Clear.run (h : Clear n i) {ev : Event} {o : Outcome} (hrun : ev.run n = some (o, n'))
    (hfree : n'.state i ≠ .free)
    (hown : ∀ e, ¬ ev.gives n i e) (hapart : ∀ j < i, ∀ e, ev.gives n j e → ¬ Covers e (n.slot i).pcb.ends) :
    Clear n' i := by
  have hends : (n'.slot i).pcb.ends = (n.slot i).pcb.ends := by
    obtain hsame | hzero | hgives := ends_run hrun i
    · exact hsame
    · exact absurd (congrArg (fun s : Slot => s.pcb.state) hzero) hfree
    · exact absurd hgives (hown _)
  refine ⟨h.lt, fun j hj => ?_, by rw [hends]; exact h.zero⟩
  rw [hends]
  obtain hsame | hzero | hgives := ends_run hrun j
  · rw [hsame]
    exact h.front j hj
  · rw [hzero]
    exact h.zero
  · exact hapart j hj _ hgives

/-! ### Closing -/

theorem backlog_setPcb (n : Net) (i q : ℕ) (pcb : Pcb) : ((n.setPcb i pcb).slot q).backlog =
    (n.slot q).backlog := by
  simp only [setPcb, slot_modify]
  split_ifs with hq
  · rw [hq]
  · rfl

/-- A block that waits in no backlog is lost if it is closed in a lost state other than
CLOSE-WAIT. -/
theorem lost_close {id : ℤ} (hget : n.get id = some i) (h : Lost n i)
    (hwait : n.state i ≠ .closeWait) (grant : Grant) :
    Lost (n.close id grant).2 i := by
  have hlost := h.state
  rw [n.close_eq grant hget]
  split
  · next hlisten =>
    rw [hlisten] at hlost
    exact absurd hlost (by decide)
  · refine ⟨?_, fun q => by rw [backlog_setPcb]; exact h.alone q⟩
    rw [state_setPcb, if_pos rfl]
    rfl
  · next hstate => exact absurd hstate hwait
  · exact h

/-- The table, and the blocks that `tcp_close` was called for since they were allocated. -/
structure Users where
  net : Net
  closed : ℕ → Bool

/-- The block that `tcp_close` is called for. -/
def Event.closes (n : Net) : Event → Option ℕ
  | .call _ (.close id _) => n.get id
  | _ => none

namespace Users

def boot : Users := ⟨.boot, fun _ => false⟩

def next (s : Users) (ev : Event) : Option Users :=
  (ev.run s.net).map fun r =>
    ⟨r.2, fun j => decide (r.2.state j ≠ .free) && (s.closed j || decide (ev.closes s.net = some j))⟩

def Step (s : Users) (ev : Event) (s' : Users) : Prop := s.next ev = some s'

/-- `tcp_close` comes in LISTEN or in CLOSE-WAIT, nobody else uses the block, the receive window
does not end beyond the last sequence number, and no block in front is taken for this one. -/
def InTime (n : Net) (i : ℕ) : Prop :=
  (n.slot i).wc = 0 ∧ (n.state i = .listen ∨ n.state i = .closeWait ∧ (∀ q, i ∉ (n.slot q).backlog) ∧
    (∀ p w, n.wait p = some w → w.block ≠ i) ∧ (n.slot i).pcb.Opens ∧ n.Clear i)

/-- What keeps closed blocks reclaimable. -/
structure Careful (s : Users) (ev : Event) : Prop where
  /-- A closed block is not named again. -/
  unnamed : ∀ p c i, ev = .call p c → s.net.target c = some i → s.closed i = false
  inTime : ∀ i, ev.closes s.net = some i → InTime s.net i
  /-- No FIN waits for its acknowledgment until `TCP_RETRANSMIT_DEADLINE`. -/
  alive : ∀ due i k, ev = .tick due → s.closed i = true → due i k ≠ .expired
  /-- No block in front of a closed one gets endpoints that cover those of the closed one. -/
  apart : ∀ i, s.closed i = true → ∀ j < i, ∀ e, ev.gives s.net j e → ¬ Covers e (s.net.slot i).pcb.ends

def CarefulStep (s : Users) (ev : Event) (s' : Users) : Prop := s.Step ev s' ∧ s.Careful ev

variable {s s' : Users} {ev : Event}

theorem Step.run (h : s.Step ev s') : ∃ o, ev.run s.net = some (o, s'.net) := by
  obtain ⟨⟨o, n'⟩, hrun, rfl⟩ := Option.map_eq_some_iff.mp h
  exact ⟨o, hrun⟩

theorem Step.closed (h : s.Step ev s') (hclosed : s'.closed i = true) :
    s'.net.state i ≠ .free ∧ (s.closed i = true ∨ ev.closes s.net = some i) := by
  obtain ⟨⟨o, n'⟩, hrun, rfl⟩ := Option.map_eq_some_iff.mp h
  simpa using hclosed

/-- A block that is closed in time is free or in LAST-ACK, and then clear of those in front before
the call. -/
theorem leaving_close {n : Net} {id : ℤ} (hget : n.get id = some i) (h : InTime n i) (grant : Grant) :
    (n.close id grant).2.state i = .free ∨ Leaving (n.close id grant).2 i ∧ n.Clear i := by
  obtain ⟨hwc, hlisten | ⟨hwait, halone, hunslept, hopens, hclear⟩⟩ := h
  · left
    have hwc' : ((n.setState i .closed).slot i).wc = 0 := by
      rw [setState, slot_modify, if_pos rfl]
      exact hwc
    simp only [n.close_eq grant hget, hlisten]
    rw [Net.state, release_self hwc']
    rfl
  · right
    simp only [n.close_eq grant hget, hwait]
    have hslot (pcb : Pcb) : (n.setPcb i pcb).slot i =
      { n.slot i with pcb := pcb } := by rw [setPcb, slot_modify, if_pos rfl]
    refine ⟨⟨by rw [Net.state, hslot]; rfl, by rw [hslot]; exact hwc,
      fun q => by rw [backlog_setPcb]; exact halone q, hunslept, ?_⟩, hclear⟩
    rw [hslot, Pcb.Opens, sendFin_pcb]
    obtain ⟨-, -, hadd⟩ | ⟨-, hadd⟩ := queueAdd_cases (n.slot i).pcb grant _ <;> rw [hadd] <;> exact hopens

/-- A closed block is freed by a careful step or goes on waiting for the acknowledgment of its
FIN. -/
theorem leaving_step (hstep : s.CarefulStep ev s') (hclosed : s.closed i = true) (h : Leaving s.net i) :
    s'.net.state i = .free ∨ Leaving s'.net i := by
  obtain ⟨hnext, hcareful⟩ := hstep
  obtain ⟨o, hrun⟩ := hnext.run
  cases ev with
  | call p c =>
    have hnet : (c.run s.net p).2 = s'.net := congrArg Prod.snd (guarded hrun).2
    rw [← hnet]
    cases htarget : s.net.target c with
    | none =>
      rw [call_without_target s.net p htarget]
      exact .inr h
    | some k =>
      refine .inr (h.worksOn (worksOn_call s.net p htarget) ?_)
      rintro rfl
      exact absurd hclosed (by simp [hcareful.unnamed p c i rfl htarget])
  | resume p env =>
    obtain ⟨w, hw, hresume⟩ := Option.map_eq_some_iff.mp hrun
    have hnet : (s.net.resume p env w).2 = s'.net := congrArg Prod.snd hresume
    rw [← hnet]
    exact .inr (h.worksOn (writes_resume s.net p env w).worksOn (h.unslept p w hw).symm)
  | segment seg env =>
    have hnet : s.net.arrive seg env = s'.net := congrArg Prod.snd (Option.some.inj hrun)
    rw [← hnet]
    unfold arrive
    split
    · exact .inr h
    · exact h.arriveAt seg env _
  | tick due =>
    have hnet : s.net.tick due = s'.net := congrArg Prod.snd (Option.some.inj hrun)
    rw [← hnet]
    exact .inr (h.tick fun k => hcareful.alive due i k rfl hclosed)
  | interrupt =>
    have hnet : s.net.interrupt = s'.net := congrArg Prod.snd (Option.some.inj hrun)
    rw [← hnet]
    exact .inr h.interrupt

/-- Every closed block waits for the acknowledgment of its FIN, and will get it. -/
def Sound (s : Users) : Prop := ∀ i, s.closed i = true → Leaving s.net i ∧ s.net.Clear i

theorem sound_boot : Sound boot := by
  intro i hclosed
  exact absurd hclosed (by simp [boot])

/-- A closed block stays clear of those in front. -/
theorem clear_step (hstep : s.CarefulStep ev s') (hclosed : s.closed i = true) (hleaving : Leaving s.net i)
    (hclear : s.net.Clear i) (hne : s'.net.state i ≠ .free) : s'.net.Clear i := by
  obtain ⟨hnext, hcareful⟩ := hstep
  obtain ⟨o, hrun⟩ := hnext.run
  refine hclear.run hrun hne (fun e hgives => ?_) (hcareful.apart i hclosed)
  cases ev with
  | call p c =>
    have hnamed := hcareful.unnamed p c i rfl hgives.1
    rw [hclosed] at hnamed
    cases hnamed
  | segment seg env =>
    obtain ⟨-, k, -, hlisten, rfl | hfree⟩ := hgives
    · exact absurd (hleaving.state.symm.trans hlisten) (by decide)
    · exact hleaving.ne_free hfree
  | _ => exact hgives

theorem CarefulStep.sound (hstep : s.CarefulStep ev s') (h : Sound s) : Sound s' := by
  intro i hclosed
  obtain ⟨hne, hbefore | hcloses⟩ := hstep.1.closed hclosed
  · obtain ⟨hleaving, hclear⟩ := h i hbefore
    exact ⟨(leaving_step hstep hbefore hleaving).resolve_left hne,
      clear_step hstep hbefore hleaving hclear hne⟩
  · obtain ⟨o, hrun⟩ := hstep.1.run
    have hinTime := hstep.2.inTime i hcloses
    cases ev with
    | call p c =>
      cases c with
      | close id grant =>
        have hnet : (s.net.close id grant).2 = s'.net := congrArg Prod.snd (guarded hrun).2
        have hafter := leaving_close hcloses hinTime grant
        rw [hnet] at hafter
        obtain ⟨hleaving, hclear⟩ := hafter.resolve_left hne
        exact ⟨hleaving, hclear.run hrun hne (fun _ hgives => hgives.2) fun _ _ _ hgives => hgives.2.elim⟩
      | _ => simp [Event.closes] at hcloses
    | _ => simp [Event.closes] at hcloses

/-- Along careful runs every closed block can be freed by segments alone. The state in which
`tcp_close` comes is not a matter of taste: in CLOSED, ESTABLISHED, FIN-WAIT-1, FIN-WAIT-2, CLOSING
and TIME-WAIT it leaves a block that nothing frees. -/
theorem reclaimable_of_careful {events : List Event} (hrun : Run CarefulStep boot events s) :
    (∀ i, s.closed i = true → s.net.Reclaimable i) ∧
      ∀ id grant i, s.net.get id = some i → (s.net.state i).lost = true → s.net.state i ≠ .closeWait →
        (∀ q, i ∉ (s.net.slot q).backlog) → ¬ (s.net.close id grant).2.Reclaimable i := by
  have hsound : Sound s := hrun.invariant (fun _ _ _ h hstep => hstep.sound h) sound_boot
  refine ⟨fun i hclosed => (hsound i hclosed).1.reclaimable (hsound i hclosed).2.found, ?_⟩
  intro id grant i hget hlost hwait halone
  exact (lost_close hget ⟨hlost, halone⟩ hwait grant).not_reclaimable

/-- Nothing is closed but by `tcp_close`. -/
theorem Step.closes_of_open (h : s.Step ev s') (hopen : ∀ i, s.closed i = false)
    (hclosed : s'.closed i = true) :
    ev.closes s.net = some i := by
  obtain ⟨-, hbefore | hnow⟩ := h.closed hclosed
  · exact absurd hbefore (by rw [hopen i]; decide)
  · exact hnow

/-- While nothing is closed there is nothing to take care of but `tcp_close`. -/
theorem careful_of_open (hopen : ∀ i, s.closed i = false)
    (hinTime : ∀ i, ev.closes s.net = some i → InTime s.net i) :
    s.Careful ev where
  unnamed _ _ i _ _ := hopen i
  inTime := hinTime
  alive _ i _ _ hclosed := absurd hclosed (by rw [hopen i]; decide)
  apart i hclosed := absurd hclosed (by rw [hopen i]; decide)

theorem careful_run_of_open {events : List Event} (hopen : ∀ i, s.closed i = false)
    (hcloses : ∀ ev ∈ events, ∀ n, ev.closes n = none) (hrun : Run Step s events s') :
    Run CarefulStep s events s' ∧ ∀ i, s'.closed i = false := by
  induction hrun with
  | nil => exact ⟨.nil _, hopen⟩
  | @cons s t _ ev _ first _ ih =>
    have hnone : ∀ i, ev.closes s.net ≠ some i :=
      fun i hi => absurd hi (by simp [hcloses ev List.mem_cons_self])
    have hopen' : ∀ i, t.closed i = false :=
      fun i => Bool.eq_false_iff.mpr fun hclosed => hnone i (first.closes_of_open hopen hclosed)
    obtain ⟨hrest, hend⟩ := ih hopen' fun ev hev => hcloses ev (List.mem_cons_of_mem _ hev)
    have hcareful := careful_of_open hopen fun i hi => absurd hi (hnone i)
    exact ⟨.cons ⟨first, hcareful⟩ hrest, hend⟩

/-- A process accepts a connection, and the peer ends it. -/
def served : List Event :=
  [.call 0 .openSocket, .call 0 (.bind 0 hostEp), .call 0 (.listen 0), bare 100 0 flgSyn, bare 101 1 flgAck,
    .call 0 (.accept 0), bare 101 1 (flgFin ||| flgAck)]

theorem served_backlog (q : ℕ) :
    (runActions next boot served).map (fun s => (s.net.slot q).backlog) = some [] := by
  by_cases hq : q < pcbSize
  · have hall : ∀ q < pcbSize, (runActions next boot served).map (fun s => (s.net.slot q).backlog) =
      some [] := by
      decide +kernel
    exact hall q hq
  · obtain ⟨k, rfl⟩ := Nat.exists_eq_add_of_le' (not_lt.mp hq)
    rfl

theorem served_wait (p : ℕ) : (runActions next boot served).map (fun s => s.net.wait p) = some none := rfl

/-- A connection that the peer ended first can be closed, and its block comes back. -/
theorem reclaimable_of_careful_served :
    ∃ s, Run CarefulStep boot (served ++ [.call 0 (.close 1 ⟨true, true⟩)]) s ∧
    s.closed 1 = true ∧ s.net.state 1 = .lastAck ∧ s.net.Reclaimable 1 := by
  have hvalues : (runActions next boot served).map (fun s => (s.net.get 1, s.net.state 1, (s.net.slot 1).wc,
      (s.net.slot 1).pcb.rcv.nxt, (s.net.slot 1).pcb.rcv.wnd)) = some (some 1, .closeWait, 0, 102,
        65535) := by decide +kernel
  have hforeign : (runActions next boot served).map
    (fun s => ((s.net.slot 0).pcb.foreignEp, (s.net.slot 1).pcb.foreignEp)) =
      some (⟨0, 0⟩, peerEp) := by decide +kernel
  have hcloses : ((runActions next boot served).bind (next · (.call 0 (.close 1 ⟨true, true⟩)))).map (fun s =>
      (s.closed 1, s.net.state 1)) = some (true, .lastAck) := by decide +kernel
  obtain ⟨s, hs, hvalue⟩ := Option.map_eq_some_iff.mp hvalues
  simp only [Prod.mk.injEq] at hvalue
  obtain ⟨hget, hstate, hwc, hnxt, hwnd⟩ := hvalue
  have hbacklog := served_backlog
  have hwait := served_wait
  simp only [hs, Option.map_some, Option.some.injEq, Prod.mk.injEq] at hbacklog hwait hforeign
  rw [hs] at hcloses
  obtain ⟨t, ht, hclosed⟩ := Option.map_eq_some_iff.mp hcloses
  simp only [Prod.mk.injEq] at hclosed
  obtain ⟨hrun, hopen⟩ := careful_run_of_open (s := boot) (fun _ => rfl)
    (by simp [served, Event.closes, bare])
    (runActions_eq_some_iff.mp hs)
  have hinTime : InTime s.net 1 := by
    refine ⟨hwc, .inr ⟨hstate, fun q => by simp [hbacklog q], fun p w hw => absurd hw (by simp [hwait p]), ?_,
      by decide, fun j hj => ?_, ?_⟩⟩
    · rw [Pcb.Opens, hnxt, hwnd]
      decide
    · obtain rfl : j = 0 := by omega
      exact fun hcovers => absurd (hforeign.1.symm.trans (hcovers.2.2.trans hforeign.2)) (by decide)
    · exact fun hcovers => absurd (hcovers.2.2.trans hforeign.2) (by decide)
  have hcareful : s.Careful (.call 0 (.close 1 ⟨true, true⟩)) := by
    refine careful_of_open hopen fun i hi => ?_
    cases hget.symm.trans hi
    exact hinTime
  have hall := hrun.append (.cons ⟨ht, hcareful⟩ (.nil t))
  exact ⟨t, hall, hclosed.1, hclosed.2, (reclaimable_of_careful hall).1 1 hclosed.1⟩

/-- A socket that is closed before it is used keeps its block for ever. -/
theorem closed_block_lost :
    ∃ s, Run Step boot [.call 0 .openSocket, .call 0 (.close 0 ⟨true, true⟩)] s ∧ s.closed 0 = true ∧
    s.net.state 0 = .closed ∧ ¬ s.net.Reclaimable 0 := by
  have hvalues : (runActions next boot [.call 0 .openSocket, .call 0 (.close 0 ⟨true, true⟩)]).map
      (fun s => (s.closed 0, s.net.state 0)) = some (true, .closed) := by decide +kernel
  have hbacklogs : ∀ q, (runActions next boot [.call 0 .openSocket, .call 0 (.close 0 ⟨true, true⟩)]).map
      (fun s => (s.net.slot q).backlog) = some [] := by
    intro q
    cases q <;> rfl
  obtain ⟨s, hs, hvalue⟩ := Option.map_eq_some_iff.mp hvalues
  simp only [Prod.mk.injEq] at hvalue
  simp only [hs, Option.map_some, Option.some.injEq] at hbacklogs
  have hlost : Lost s.net 0 := ⟨by rw [hvalue.2]; rfl, fun q => by simp [hbacklogs q]⟩
  exact ⟨s, runActions_eq_some_iff.mp hs, hvalue.1, hvalue.2, hlost.not_reclaimable⟩

end Users

end Net

end Xv6.Tcp
