import Xv6.Net.Reclaim

/-!
# Tables with blocks in use

Some blocks of the table are in use by sockets. They are not in LAST-ACK, wait in no backlog and
are not on their way into one, and a block that waits in a backlog does so once. Segments, the
timer and calls on such blocks keep the table so.
-/

namespace Xv6.Tcp

open Lib

section Segment

variable (env : Env) (seg : Segment) {c : Conn}

/-- A handshake is completed by a segment, or goes on. -/
theorem synReceived_segmentArrives (h : c.pcb.state = .synReceived) (hsleeper : env.sleeper = true) :
    (segmentArrives env seg c).pcb.state = .synReceived ∨
      (segmentArrives env seg c).pcb.state.lost = true := by
  have hother : segmentArrives env seg c = otherArrives env seg c := by simp [segmentArrives, h]
  have hlost : ∀ m ∈ State.synReceived.acks, ∀ t ∈ m.fins, t = .synReceived ∨ t.lost = true := by decide
  obtain ⟨m, hm, ht⟩ := otherArrives_states env seg c fun _ => hsleeper
  rw [h] at hm
  rw [hother]
  exact hlost m hm _ ht

theorem synSent_segmentArrives (h : c.pcb.state = .synSent) :
    (segmentArrives env seg c).pcb.state = .synSent ∨ (segmentArrives env seg c).pcb.state = .synReceived ∨
      (segmentArrives env seg c).pcb.state.lost = true := by
  simp only [segmentArrives, h, synSentArrives]
  split
  · exact .inl h
  · split
    · split
      · exact .inr (.inr rfl)
      · exact .inr (.inl rfl)
    · exact .inl h

/-- A listener stays one; without a socket it takes up the connection itself. -/
theorem listen_segmentArrives (h : c.pcb.state = .listen) : (segmentArrives env seg c).pcb.state = .listen ∨
    (segmentArrives env seg c).pcb.state = .synReceived ∧ c.pcb.mode = .rfc793 := by
  simp only [segmentArrives, h, listenArrives]
  split
  · exact .inl h
  · split
    · exact .inl h
    · split
      · split
        · split <;> exact .inl h
        · rename_i hmode
          exact .inr ⟨rfl, hmode⟩
      · exact .inl h

/-- A segment leaves a block with its owner. -/
theorem segmentArrives_owner (hsleeper : env.sleeper = true) :
    (segmentArrives env seg c).pcb.owner = c.pcb.owner := by
  obtain hkept | ⟨-, howner, -⟩ := segmentArrives_identity env seg hsleeper (c := c)
  · exact (Prod.mk.inj hkept).1
  · exact howner

theorem free_segmentArrives (h : c.pcb.state = .free) (hsleeper : env.sleeper = true) :
    (segmentArrives env seg c).pcb.state = .free := by
  have hother : segmentArrives env seg c = otherArrives env seg c := by simp [segmentArrives, h]
  rw [hother]
  exact (mild_otherArrives env seg c hsleeper).free.mpr h

/-- A block that a socket may stand for: not in LAST-ACK, where the stack releases it, and not on
its way into a backlog. -/
structure Pcb.Usable (pcb : Pcb) : Prop where
  free : pcb.state ≠ .free
  lastAck : pcb.state ≠ .lastAck
  handshake : pcb.state = .synSent ∨ pcb.state = .synReceived → pcb.parent = none

variable {pcb : Pcb}

theorem Pcb.usable_of_lost (h : pcb.state.lost = true) : pcb.Usable := by
  constructor
  · intro hstate
    rw [hstate] at h
    exact absurd h (by decide)
  · intro hstate
    rw [hstate] at h
    exact absurd h (by decide)
  · rintro (hstate | hstate) <;> rw [hstate] at h <;> exact absurd h (by decide)

theorem Pcb.usable_of_parent (hparent : pcb.parent = none)
    (h : pcb.state = .synSent ∨ pcb.state = .synReceived ∨ pcb.state.lost = true) : pcb.Usable := by
  obtain h | h | h := h
  · exact ⟨by simp [h], by simp [h], fun _ => hparent⟩
  · exact ⟨by simp [h], by simp [h], fun _ => hparent⟩
  · exact usable_of_lost h

theorem Pcb.usable_of_listen (h : pcb.state = .listen) : pcb.Usable :=
  ⟨by simp [h], by simp [h], by simp [h]⟩

/-- Segments leave a usable block usable. -/
theorem Pcb.Usable.segmentArrives (h : c.pcb.Usable)
    (hmode : ∀ q, c.pcb.parent = some q → c.pcb.mode = .socket)
    (hsleeper : env.sleeper = true) : (segmentArrives env seg c).pcb.Usable := by
  have hparent := (Prod.mk.inj (segmentArrives_owner env seg (c := c) hsleeper)).1
  cases hstate : c.pcb.state with
  | free => exact absurd hstate h.free
  | lastAck => exact absurd hstate h.lastAck
  | listen =>
    obtain hlisten | ⟨hsyn, hrfc⟩ := listen_segmentArrives env seg hstate
    · exact usable_of_listen hlisten
    · refine usable_of_parent (hparent.trans ?_) (.inr (.inl hsyn))
      cases hp : c.pcb.parent with
      | none => rfl
      | some q => exact absurd (hrfc.symm.trans (hmode q hp)) (by decide)
  | synSent =>
    exact usable_of_parent (hparent.trans (h.handshake (.inl hstate))) (synSent_segmentArrives env seg hstate)
  | synReceived =>
    exact usable_of_parent (hparent.trans (h.handshake (.inr hstate)))
      (.inr (synReceived_segmentArrives env seg hstate hsleeper))
  | _ => exact usable_of_lost (lost_segmentArrives env seg (by rw [hstate]; rfl) hsleeper)

end Segment

namespace Net

/-! ### Tables in order -/

/-- The blocks that sockets stand for are usable and wait in no backlog, and a block that waits does
so once. -/
structure Settled (n : Net) (owned : ℕ → Prop) : Prop where
  usable : ∀ i, owned i → (n.slot i).pcb.Usable
  alone : ∀ i, owned i → ∀ q, i ∉ (n.slot q).backlog
  queue : ∀ q k, k ∈ (n.slot q).backlog → (n.state k).lost = true
  nodup : ∀ q, (n.slot q).backlog.Nodup
  unique : ∀ q q' k, k ∈ (n.slot q).backlog → k ∈ (n.slot q').backlog → q = q'
  mode : ∀ k q, n.state k ≠ .free → (n.slot k).pcb.parent = some q → (n.slot k).pcb.mode = .socket

variable {n n' : Net} {owned owned' : ℕ → Prop} {i : ℕ}

theorem settled_boot (owned : ℕ → Prop) (h : ∀ i, ¬ owned i) : Settled boot owned where
  usable i hi := absurd hi (h i)
  alone i hi := absurd hi (h i)
  queue _ _ hk := absurd hk List.not_mem_nil
  nodup _ := List.nodup_nil
  unique _ _ _ hk := absurd hk List.not_mem_nil
  mode _ _ hne := absurd rfl hne

section

variable (h : Settled n owned)

include h

theorem Settled.mono (hsub : ∀ i, owned' i → owned i) : Settled n owned' :=
  { h with usable := fun i hi => h.usable i (hsub i hi), alone := fun i hi => h.alone i (hsub i hi) }

theorem Settled.free_alone (hfree : n.state i = .free) (q : ℕ) : i ∉ (n.slot q).backlog := by
  intro hmem
  have hlost := h.queue q i hmem
  rw [hfree] at hlost
  exact absurd hlost (by decide)

/-- A section that works on a block outside the backlogs keeps the table in order, but for that
block. -/
theorem Settled.worksOn {p : ℕ} (hworks : WorksOn p i n n') (halone : ∀ q, i ∉ (n.slot q).backlog)
    (hmode : ∀ q, n'.state i ≠ .free → (n'.slot i).pcb.parent = some q → (n'.slot i).pcb.mode = .socket)
    (hsub : ∀ j, owned' j → j = i ∨ owned j) (hown : owned' i → (n'.slot i).pcb.Usable) :
    Settled n' owned' where
  usable j hj := by
    by_cases hji : j = i
    · subst hji
      exact hown hj
    · have hbefore := (hsub j hj).resolve_left hji
      rw [hworks.untouched hji (h.alone j hbefore)]
      exact h.usable j hbefore
  alone j hj := by
    obtain rfl | hbefore := hsub j hj
    · exact hworks.alone halone
    · exact hworks.alone (h.alone j hbefore)
  queue q k hk := by
    have hmem := (hworks.backlog q).subset hk
    have hki : k ≠ i := by
      rintro rfl
      exact halone q hmem
    obtain hsame | ⟨⟨q', hq', hnil⟩, -⟩ := hworks.other k hki
    · rw [state, hsame]
      exact h.queue q k hmem
    · rw [h.unique q q' k hmem hq', hnil] at hk
      exact absurd hk List.not_mem_nil
  nodup q := (h.nodup q).sublist (hworks.backlog q)
  unique q q' k hk hk' := h.unique q q' k ((hworks.backlog q).subset hk) ((hworks.backlog q').subset hk')
  mode k q hne hparent := by
    by_cases hki : k = i
    · subst hki
      exact hmode q hne hparent
    · obtain hsame | ⟨-, hzero⟩ := hworks.other k hki
      · rw [state, hsame] at hne
        rw [hsame] at hparent ⊢
        exact h.mode k q hne hparent
      · exact absurd (by rw [state, hzero]; rfl) hne

/-- A block that keeps its owner keeps its mode. -/
theorem Settled.sameOwner_mode (hne : n.state i ≠ .free) (howner : SameOwner i n n') (q : ℕ)
    (hne' : n'.state i ≠ .free) (hparent : (n'.slot i).pcb.parent = some q) : (n'.slot i).pcb.mode =
    .socket := by
  obtain ⟨hp, hm⟩ := howner.resolve_left hne'
  rw [hm]
  exact h.mode i q hne (hp.symm.trans hparent)

/-- A segment keeps the table in order, before a release. -/
theorem Settled.reacted (seg : Segment) (env : SegmentEnv) (k : ℕ) :
    Settled (n.reacted seg env k) owned := by
  have hreacts := reacts_segment n seg env k
  have hne : ∀ j, owned j → n.state j ≠ .free := fun j hj => (h.usable j hj).free
  have howner := Prod.mk.inj (segmentArrives_owner ⟨k, env.random, n.firstFree.isSome, true⟩ seg
    (c := ⟨(n.slot k).pcb, []⟩) rfl)
  have hlost : ∀ j, (n.state j).lost = true → ((n.reacted seg env k).state j).lost = true := by
    intro j hj
    have hfree : n.state j ≠ .free := fun hfree => absurd hj (by rw [hfree]; decide)
    by_cases hjk : j = k
    · subst hjk
      rw [state, hreacts.own]
      exact lost_segmentArrives _ seg hj rfl
    · rw [state, hreacts.other j hjk hfree]
      exact hj
  -- the block that joins a backlog was in SYN-RECEIVED, so it waited in none
  have hjoins : ∀ q, n.state k = .synReceived → k ∉ (n.slot q).backlog := by
    intro q hsyn hmem
    have hk := h.queue q k hmem
    rw [hsyn] at hk
    exact absurd hk (by decide)
  refine ⟨fun j hj => ?_, fun j hj q hmem => ?_, fun q j hmem => ?_, fun q => ?_, fun q q' j hmem hmem' => ?_,
    fun j q hfree hparent => ?_⟩
  · by_cases hjk : j = k
    · subst hjk
      rw [hreacts.own]
      exact (h.usable j hj).segmentArrives _ seg (h.mode j · (hne j hj)) rfl
    · rw [hreacts.other j hjk (hne j hj)]
      exact h.usable j hj
  · obtain hmem | ⟨rfl, hsyn, hparent, -⟩ := hreacts.joins hmem
    · exact h.alone j hj q hmem
    · exact absurd ((h.usable j hj).handshake (.inr hsyn)) (by simp [hparent])
  · obtain hmem | ⟨rfl, hsyn, -, hleft⟩ := hreacts.joins hmem
    · exact hlost j (h.queue q j hmem)
    · rw [state, hreacts.own]
      exact (synReceived_segmentArrives _ seg (c := ⟨(n.slot j).pcb, []⟩) hsyn rfl).resolve_left hleft
  · obtain hsame | ⟨hjoin, hsyn, -⟩ := hreacts.backlog q
    · rw [hsame]
      exact h.nodup q
    · rw [hjoin]
      refine List.nodup_append.mpr ⟨h.nodup q,
        List.nodup_cons.mpr ⟨List.not_mem_nil, List.nodup_nil⟩, fun a ha b hb => ?_⟩
      rintro rfl
      exact hjoins q hsyn (List.mem_singleton.mp hb ▸ ha)
  · obtain hold | ⟨rfl, hsyn, hparent, -⟩ := hreacts.joins hmem
    · obtain hold' | ⟨rfl, hsyn, -, -⟩ := hreacts.joins hmem'
      · exact h.unique q q' j hold hold'
      · exact absurd hold (hjoins q hsyn)
    · obtain hold' | ⟨-, -, hparent', -⟩ := hreacts.joins hmem'
      · exact absurd hold' (hjoins q' hsyn)
      · exact Option.some.inj (hparent.symm.trans hparent')
  · by_cases hjk : j = k
    · subst hjk
      rw [state, hreacts.own] at hfree
      rw [hreacts.own] at hparent ⊢
      have hbefore : n.state j ≠ .free :=
        fun hbefore => hfree (free_segmentArrives _ seg (c := ⟨(n.slot j).pcb, []⟩) hbefore rfl)
      exact howner.2.trans (h.mode j q hbefore (howner.1.symm.trans hparent))
    · by_cases hbefore : n.state j = .free
      · obtain hsame | ⟨-, hmode, -⟩ := hreacts.born j hjk hbefore
        · exact absurd ((congrArg Pcb.state hsame).trans hbefore) hfree
        · exact hmode
      · rw [hreacts.other j hjk hbefore] at hparent ⊢
        exact h.mode j q hbefore hparent

theorem Settled.arriveAt (seg : Segment) (env : SegmentEnv) (k : ℕ) :
    Settled (n.arriveAt seg env k) owned := by
  have hreacted := h.reacted seg env k
  rw [arriveAt_eq]
  split_ifs with hlast
  · have hstate : (n.reacted seg env k).state k = .closed := by
      rw [state, (reacts_segment n seg env k).own]
      exact hlast.2
    have halone : ∀ q, k ∉ ((n.reacted seg env k).slot q).backlog := by
      intro q hmem
      obtain hmem | ⟨-, hsyn, -⟩ := (reacts_segment n seg env k).joins hmem
      · have hlost := h.queue q k hmem
        rw [hlast.1] at hlost
        exact absurd hlost (by decide)
      · exact absurd (hlast.1.symm.trans hsyn) (by decide)
    refine hreacted.worksOn (worksOn_release (p := 0) _ k) halone
      (fun q => hreacted.sameOwner_mode (by simp [hstate]) (sameOwner_release _ k k) q)
        (fun j hj => .inr hj) fun hk => ?_
    exact absurd hlast.1 (h.usable k hk).lastAck
  · exact hreacted

/-- A change of states to CLOSED only. -/
theorem Settled.of_closing (hstate : ∀ j, n'.state j = n.state j ∨ n.state j ≠ .free ∧ n'.state j = .closed)
    (howner : ∀ j, (n'.slot j).pcb.owner = (n.slot j).pcb.owner)
    (hbacklog : ∀ q, (n'.slot q).backlog = (n.slot q).backlog) : Settled n' owned where
  usable j hj := by
    obtain hsame | ⟨-, hclosed⟩ := hstate j
    · have hpcb : (n'.slot j).pcb.state = (n.slot j).pcb.state := hsame
      have husable := h.usable j hj
      exact ⟨by rw [hpcb]; exact husable.free, by rw [hpcb]; exact husable.lastAck,
        by rw [hpcb, (Prod.mk.inj (howner j)).1]; exact husable.handshake⟩
    · have hpcb : (n'.slot j).pcb.state = .closed := hclosed
      exact Pcb.usable_of_lost (by rw [hpcb]; rfl)
  alone j hj q := by
    rw [hbacklog]
    exact h.alone j hj q
  queue q k hk := by
    rw [hbacklog] at hk
    obtain hsame | ⟨-, hclosed⟩ := hstate k
    · rw [hsame]
      exact h.queue q k hk
    · rw [hclosed]
      rfl
  nodup q := by
    rw [hbacklog]
    exact h.nodup q
  unique q q' k hk hk' := by
    rw [hbacklog] at hk hk'
    exact h.unique q q' k hk hk'
  mode k q hne hparent := by
    obtain ⟨hsame, hmode⟩ := Prod.mk.inj (howner k)
    rw [hsame] at hparent
    rw [hmode]
    refine h.mode k q (fun hfree => ?_) hparent
    obtain hsame | ⟨hne', -⟩ := hstate k
    · exact hne (hsame.trans hfree)
    · exact hne' hfree

theorem Settled.tick (due : ℕ → ℕ → Due) : Settled (n.tick due) owned := by
  refine h.of_closing (fun j => ?_) (fun j => ?_) fun q => ?_
  · by_cases hfree : n.state j = .free
    · have hpcb : (n.slot j).pcb.state = .free := hfree
      left
      simp only [Net.tick, state]
      split
      · simp [timer, hpcb]
      · rfl
    · exact (tick_state n due j).imp_right fun hclosed => ⟨hfree, hclosed⟩
  · simp only [Net.tick]
    split
    · exact (Prod.mk.inj (timer_identity (due j) _)).1
    · rfl
  · obtain ⟨pcb, hslot⟩ := tick_slot n due q
    rw [hslot]

theorem Settled.interrupt : Settled n.interrupt owned := by
  have hrest : ∀ q, (n.interrupt.slot q).pcb = (n.slot q).pcb ∧ (n.interrupt.slot q).backlog =
    (n.slot q).backlog := by
    intro q
    simp only [Net.interrupt]
    split <;> exact ⟨rfl, rfl⟩
  exact h.of_closing (fun j => .inl (congrArg Pcb.state (hrest j).1))
    (fun j => congrArg Pcb.owner (hrest j).1) fun q => (hrest q).2

/-- Another block outside the backlogs gets a socket. -/
theorem Settled.extend (husable : (n.slot i).pcb.Usable) (halone : ∀ q, i ∉ (n.slot q).backlog)
    (hsub : ∀ j, owned' j → owned j ∨ j = i) : Settled n owned' where
  usable j hj := by
    obtain hbefore | rfl := hsub j hj
    · exact h.usable j hbefore
    · exact husable
  alone j hj := by
    obtain hbefore | rfl := hsub j hj
    · exact h.alone j hbefore
    · exact halone
  queue := h.queue
  nodup := h.nodup
  unique := h.unique
  mode := h.mode

/-- The connection that `tcp_accept` hands out is usable and waits no longer. -/
theorem Settled.pops {p j : ℕ} (hpops : Pops i j n n') (hworks : WorksOn p i n n')
    (halone : ∀ q, i ∉ (n.slot q).backlog) : (n'.slot j).pcb.Usable ∧ ∀ q, j ∉ (n'.slot q).backlog := by
  have hmem : j ∈ (n.slot i).backlog := by
    rw [hpops.backlog]
    exact List.mem_cons_self
  have hji : j ≠ i := by
    rintro rfl
    exact halone j hmem
  refine ⟨?_, fun q hq => ?_⟩
  · rw [hpops.other j hji]
    exact Pcb.usable_of_lost (h.queue i j hmem)
  · obtain rfl := h.unique i q j hmem ((hworks.backlog q).subset hq)
    have hnodup := h.nodup i
    rw [hpops.backlog] at hnodup
    exact (List.nodup_cons.mp hnodup).1 hq

end

/-! ### Calls that keep their block -/

section Keeping

variable {n : Net} {i : ℕ}

/-- A call that wakes up leaves its block: `tcp_accept` finds it open, `tcp_connect` was not
interrupted and is on its way, and the segments of `tcp_send` leave. -/
def WakesWell (n : Net) (env : SendEnv) : Wait → Prop
  | .accept i => (n.slot i).interrupted = true ∨ n.state i ≠ .closed
  | .connect i seen => (n.slot i).interrupted = false ∧
      (n.state i = seen ∨ n.state i = .established ∨ n.state i = .synReceived)
  | .send _ data _ => ∀ k ≤ data.length, (env.grant k).segment = true
  | .receive _ _ => True

/-- A section leaves the block it works on: the segments of `tcp_connect` and `tcp_send` leave, and
sleeps end well. A block that another process sleeps on is not released in any case. -/
def Spared (n : Net) : Event → Prop
  | .call _ (.connect id _ env) => ∀ i, n.getSocket id = some i → (sourceAddr env (n.slot i).pcb).isSome →
      (env.grant.segment = true ∧ (n.slot i).interrupted = false) ∨ (n.slot i).wc ≠ 0
  | .call _ (.send id data env) => ∀ i, n.get id = some i →
      (∀ k ≤ data.length, (env.grant k).segment = true) ∨ (n.slot i).wc ≠ 0
  | .resume p env => ∀ w, n.wait p = some w → n.WakesWell env w ∨ 1 < (n.slot w.block).wc
  | _ => True

theorem release_of_sleeper (h : (n.slot i).wc ≠ 0) : n.release i = n := by
  rw [release, releaseLoop, if_pos h]
  cases queued n.slot <;> rfl

/-- A block that somebody sleeps on is closed when a call gives it up. -/
theorem giveUp_of_sleeper (h : (n.slot i).wc ≠ 0) : (n.giveUp i).2.state i ≠ .free := by
  have hwc : ((n.setState i .closed).slot i).wc ≠ 0 := by simpa [setState, slot_modify] using h
  have hclosed : (n.setState i .closed).state i = .closed := by simp [setState, state_modify]
  rw [giveUp, release_of_sleeper hwc, hclosed]
  decide

theorem trySleep_kept (p : ℕ) (w : Wait) {failed : Outcome × Net} (hne : n.state i ≠ .free)
    (h : (n.slot i).interrupted = true → failed.2.state i ≠ .free) :
    (n.trySleep p i w failed).2.state i ≠ .free := by
  unfold trySleep
  split
  · rename_i hinterrupted
    exact h hinterrupted
  · simpa [state, slot_modify] using hne

theorem connectLoop_kept (p : ℕ) {seen : State} (hne : n.state i ≠ .free)
    (h : (n.slot i).interrupted = false ∧
        (n.state i = seen ∨ n.state i = .established ∨ n.state i = .synReceived) ∨ (n.slot i).wc ≠ 0) :
    (n.connectLoop p i seen).2.state i ≠ .free := by
  have hsleep (w : Wait) : (n.trySleep p i w (n.giveUp i)).2.state i ≠ .free := by
    refine trySleep_kept p w hne fun hinterrupted => ?_
    obtain ⟨hquiet, -⟩ | hwc := h
    · simp [hquiet] at hinterrupted
    · exact giveUp_of_sleeper hwc
  unfold connectLoop
  split
  · exact hsleep _
  · rename_i hseen
    split
    · exact hne
    · rename_i hestablished
      split
      · exact hsleep _
      · rename_i hreceived
        obtain ⟨-, hstate⟩ | hwc := h
        · simp [hseen, hestablished, hreceived] at hstate
        · exact giveUp_of_sleeper hwc

theorem acceptLoop_kept (p : ℕ) (hne : n.state i ≠ .free) : (n.acceptLoop p i).2.state i ≠ .free := by
  unfold acceptLoop
  split
  · simpa [state, slot_modify] using hne
  · exact trySleep_kept p _ hne fun _ => hne

theorem receiveLoop_kept (p size : ℕ) (hne : n.state i ≠ .free) :
    (n.receiveLoop p i size).2.state i ≠ .free := by
  have hkeeps := (receive_keeps (n.slot i).pcb size).1
  unfold receiveLoop
  split
  · exact hne
  · exact trySleep_kept p _ hne fun _ => hne
  · rename_i pcb hreceive
    rw [hreceive] at hkeeps
    rw [state_setPcb, if_pos rfl, hkeeps]
    exact hne

/-- A turn of `tcp_send` whose segment leaves keeps the state. -/
theorem sendTurn_leaves (env : Env) {grant : Grant} (h : grant.segment = true) (mss : Option ℕ)
    (data : List UInt8) (c : Conn) : (sendTurn env grant mss data c).2.pcb.state = c.pcb.state := by
  have hchunk (chunk : List UInt8) : (sendChunk env grant chunk c).2.pcb.state = c.pcb.state := by
    have hkeep := (outputIn_keeps c grant (flgAck ||| flgPsh) chunk).1
    unfold sendChunk
    split
    · rename_i d hout
      rw [hout] at hkeep
      exact hkeep
    · rename_i d hout
      have hsegment : grant.segment = false := congrArg Prod.snd hout
      simp [h] at hsegment
  unfold sendTurn
  split
  · split
    · rfl
    · exact hchunk _
  · split
    · rfl
    · exact hchunk _
  · rfl

theorem sendLoop_kept (env : SendEnv) (p : ℕ) {fuel : ℕ} {data : List UInt8} {sent : ℕ}
    (hne : n.state i ≠ .free)
    (h : (∀ k < fuel, (env.grant k).segment = true) ∨ (n.slot i).wc ≠ 0) :
    (sendLoop env p i fuel data sent n).2.state i ≠ .free := by
  induction fuel generalizing data sent n with
  | zero => exact hne
  | succ fuel ih =>
    have hkeeps := sendTurn_keeps i (env.grant fuel) env.mss data ⟨(n.slot i).pcb, []⟩
    have hleaves (hgrant : (env.grant fuel).segment = true) :=
      sendTurn_leaves ⟨i, 0, false, true⟩ hgrant env.mss data ⟨(n.slot i).pcb, []⟩
    unfold sendLoop
    split
    · exact hne
    · exact hne
    split
    · exact trySleep_kept p _ hne fun _ => hne
    · rename_i count c hturn
      rw [hturn] at hkeeps
      refine ih ?_ (h.imp (fun hall k hk => hall k (hk.trans fuel.lt_succ_self)) fun hwc => ?_)
      · rw [state_setPcb, if_pos rfl]
        obtain hsame | hclosed := hkeeps.1
        · rw [hsame]
          exact hne
        · rw [hclosed]
          decide
      · simpa [setPcb, slot_modify] using hwc
    · rename_i c hturn
      rw [hturn] at hkeeps hleaves
      have hset : (n.setPcb i c.pcb).state i ≠ .free := by
        rw [state_setPcb, if_pos rfl]
        obtain hsame | hclosed := hkeeps.1
        · rw [hsame]
          exact hne
        · rw [hclosed]
          decide
      dsimp only
      split
      · rename_i hcloses
        obtain hall | hwc := h
        · -- the segment left, so nothing was closed
          exact absurd ((hleaves (hall fuel fuel.lt_succ_self)).symm.trans hcloses.2) hcloses.1
        · rwa [release_of_sleeper (by simpa [setPcb, slot_modify] using hwc)]
      · exact hset

/-- A call on a block leaves it, `tcp_close` apart. -/
theorem Spared.call {p : ℕ} {c : Call} (h : n.Spared (.call p c)) (hne : n.state i ≠ .free)
    (htarget : n.target c = some i) (hopen : c ≠ .openSocket) (hclose : ∀ id grant, c ≠ .close id grant) :
    (c.run n p).2.state i ≠ .free := by
  cases c with
  | openSocket => exact absurd rfl hopen
  | bind id loc =>
    change n.getSocket id = some i at htarget
    simp only [Call.run, Net.bind, htarget]
    split
    · exact hne
    · rwa [state_modify, if_pos rfl]
  | listen id =>
    change n.getSocket id = some i at htarget
    simp [Call.run, listen, htarget, setState, state_modify]
  | connect id foreign env =>
    change n.getSocket id = some i at htarget
    simp only [Call.run, connect, htarget]
    split
    · exact hne
    · rename_i addr haddr
      have hspared := h i htarget (by simp [haddr])
      have hwc (pcb : Pcb) (hwc : (n.slot i).wc ≠ 0) : ((n.setPcb i pcb).slot i).wc ≠ 0 := by
        simpa [setPcb, slot_modify] using hwc
      split
      · rename_i c hsyn
        obtain ⟨hsegment, -⟩ | hbusy := hspared
        · have hfailed : env.grant.segment = false := congrArg Prod.snd hsyn
          simp [hsegment] at hfailed
        · exact giveUp_of_sleeper (hwc _ hbusy)
      · refine connectLoop_kept p (by simp [state_setPcb]) (hspared.imp (fun hsent => ⟨?_, .inl ?_⟩) (hwc _))
        · simpa [setPcb, slot_modify] using hsent.2
        · simp [state_setPcb]
  | accept id =>
    change n.getSocket id = some i at htarget
    simp only [Call.run, accept, htarget]
    split
    · exact acceptLoop_kept p hne
    · exact hne
  | send id data env =>
    change n.get id = some i at htarget
    simp only [Call.run, send, htarget]
    exact sendLoop_kept env p hne
      ((h i htarget).imp (fun hall k hk => hall k (Nat.lt_succ_iff.mp hk)) fun hwc => hwc)
  | receive id size =>
    change n.get id = some i at htarget
    simp only [Call.run, receive, htarget]
    exact receiveLoop_kept p size hne
  | close id grant => exact absurd rfl (hclose id grant)

/-- A call that goes on behind its sleep leaves its block. -/
theorem Spared.resume {p : ℕ} {env : SendEnv} {w : Wait} (h : n.Spared (.resume p env))
    (hw : n.wait p = some w)
    (hne : n.state w.block ≠ .free) : (n.resume p env w).2.state w.block ≠ .free := by
  have hstate (j : ℕ) : (n.wake p j).2.state j = n.state j := by
    simp [wake, state, slot_modify]
  have hquiet (j : ℕ) (hj : (n.slot j).interrupted = false) : ((n.wake p j).2.slot j).interrupted =
    false := by
    simp [wake, slot_modify, hj]
  have hbusy (j : ℕ) (hj : 1 < (n.slot j).wc) : ((n.wake p j).2.slot j).wc ≠ 0 := by
    simp only [wake, slot_modify, if_true]
    omega
  have hwell := h w hw
  cases w with
  | accept i =>
    rw [Wait.block, ← hstate i] at hne
    simp only [Net.resume, afterSleep, Wait.block]
    split
    · exact hne
    · rename_i hinterrupted
      split
      · rename_i hclosed
        obtain hwell | hwc := hwell
        · obtain hwell | hwell := hwell
          · exact absurd hwell hinterrupted
          · exact absurd ((hstate i).symm.trans hclosed) hwell
        · rwa [release_of_sleeper (hbusy i hwc)]
      · exact acceptLoop_kept p hne
  | connect i seen =>
    rw [Wait.block, ← hstate i] at hne
    simp only [Net.resume, afterSleep, Wait.block]
    split
    · rename_i hinterrupted
      obtain ⟨hwell, -⟩ | hwc := hwell
      · exact absurd hinterrupted (by simp [wake, hwell])
      · exact giveUp_of_sleeper (hbusy i hwc)
    · refine connectLoop_kept p hne (hwell.imp (fun hwell => ⟨hquiet i hwell.1, ?_⟩) (hbusy i))
      rw [hstate i]
      exact hwell.2
  | send i data sent =>
    rw [Wait.block, ← hstate i] at hne
    simp only [Net.resume, afterSleep, Wait.block]
    split
    · exact hne
    · exact sendLoop_kept env p hne
        (hwell.imp (fun hall k hk => hall k (Nat.lt_succ_iff.mp hk)) (hbusy i))
  | receive i size =>
    rw [Wait.block, ← hstate i] at hne
    simp only [Net.resume, afterSleep, Wait.block]
    split
    · exact hne
    · exact receiveLoop_kept p size hne

end Keeping

/-! ### Usable blocks under calls -/

/-- The states that calls other than `tcp_close` lead to. -/
theorem usable_of_state (h : (n.slot i).pcb.Usable) (howner : SameOwner i n n') (hfree : n'.state i ≠ .free)
    (hstate : n'.state i = n.state i ∨ n'.state i = .closed ∨ n'.state i = .listen ∨
      n'.state i = .synSent ∧ (n.slot i).pcb.parent = none) : (n'.slot i).pcb.Usable := by
  obtain ⟨hparent, -⟩ := howner.resolve_left hfree
  unfold state at hstate
  obtain hsame | hclosed | hlisten | ⟨hsent, hnone⟩ := hstate
  · exact ⟨hfree, by rw [hsame]; exact h.lastAck, by rw [hsame, hparent]; exact h.handshake⟩
  · exact Pcb.usable_of_lost (by rw [hclosed]; rfl)
  · exact Pcb.usable_of_listen hlisten
  · exact Pcb.usable_of_parent (hparent.trans hnone) (.inl hsent)

theorem Quiet.usable (hquiet : Quiet n n') (h : (n.slot i).pcb.Usable) (howner : SameOwner i n n')
    (hfree : n'.state i ≠ .free) :
    (n'.slot i).pcb.Usable := by
  obtain hsame | hclosed | hfree' := hquiet i
  · exact usable_of_state h howner hfree (.inl hsame)
  · exact usable_of_state h howner hfree (.inr (.inl hclosed))
  · exact absurd hfree' hfree

/-- A call that does not release its block leaves it usable; `tcp_connect` must not get an accepted
block. -/
theorem usable_call {p : ℕ} {c : Call} (h : (n.slot i).pcb.Usable) (htarget : n.target c = some i)
    (hopen : c ≠ .openSocket)
    (hclose : ∀ id grant, c ≠ .close id grant) (hfree : (c.run n p).2.state i ≠ .free)
    (hconnect : ∀ id foreign env, c = .connect id foreign env → (n.slot i).pcb.parent = none) :
    ((c.run n p).2.slot i).pcb.Usable := by
  have howner := (writes_call n p htarget hopen).sameOwner
  cases c with
  | openSocket => exact absurd rfl hopen
  | listen id =>
    refine usable_of_state h howner hfree (.inr (.inr (.inl ?_)))
    change n.getSocket id = some i at htarget
    simp only [Call.run, listen, htarget, setState, state_modify, if_true]
  | connect id foreign env =>
    obtain ⟨k, pcb, hconnects, hsent, hquiet⟩ | ⟨-, hquiet⟩ := connect_cases n p id foreign env
    · have hk : n.getSocket id = some k := (Option.filter_eq_some_iff.mp hconnects).1
      obtain rfl : k = i := Option.some.inj (hk.symm.trans htarget)
      refine usable_of_state h howner hfree ?_
      obtain hsame | hclosed | hfree' := hquiet k
      · rw [state_setPcb, if_pos rfl, hsent] at hsame
        exact .inr (.inr (.inr ⟨hsame, hconnect id foreign env rfl⟩))
      · exact .inr (.inl hclosed)
      · exact absurd hfree' hfree
    · exact hquiet.usable h howner hfree
  | bind id loc | accept id | send id data env | receive id size =>
      exact (quiet_call n p hopen fun _ h => h).usable h howner hfree
  | close id grant => exact absurd rfl (hclose id grant)

theorem get_eq {id : ℤ} (h : n.get id = some i) : id = i := by
  simp only [get, Option.ite_none_right_eq_some, Option.some.injEq] at h
  omega

theorem arrive_wait (n : Net) (seg : Segment) (env : SegmentEnv) : (n.arrive seg env).wait = n.wait := by
  unfold arrive
  split
  · rfl
  · rename_i k hk
    rw [arriveAt_eq]
    split <;> exact (reacts_segment n seg env k).wait

theorem openSocket_wait (n : Net) : n.openSocket.2.wait = n.wait := by
  unfold openSocket
  split <;> rfl

theorem close_wait (n : Net) (id : ℤ) (grant : Grant) : (n.close id grant).2.wait = n.wait := by
  unfold close
  split
  · rfl
  · split
    · rfl
    · split <;> rfl

end Net

end Xv6.Tcp
