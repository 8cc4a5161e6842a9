import Xv6.Net.States

/-!
# How a connection ends: RST and FIN

`tcp_segment_arrives` has a place for the check of the RST bit and nothing in it, and it sets
`rcv.nxt` for a FIN from the beginning of the segment.
-/

namespace Xv6.Tcp

open Lib

/-! ### Resets -/

/-- A reset is valid with an acceptable acknowledgment in SYN-SENT, and with a sequence number in
the window otherwise; both count modulo 2^32. -/
def Pcb.ValidReset (pcb : Pcb) (seg : Segment) : Prop :=
  if pcb.state = .synSent then isSet seg.flg flgAck = true ∧ seg.ack ≠ pcb.iss ∧
    (seg.ack - pcb.iss).toNat ≤ (pcb.snd.nxt - pcb.iss).toNat
  else pcb.InWindow seg.seq

instance (pcb : Pcb) (seg : Segment) : Decidable (pcb.ValidReset seg) := by
  unfold Pcb.ValidReset
  infer_instance

/-- What a segment with RST should do to a block: a valid one ends the connection and wakes who
sleeps on it, and none establishes a connection, delivers data or is acknowledged. -/
structure ResetObeyed (env : Env) (seg : Segment) (pcb : Pcb) (after : Conn) : Prop where
  aborts : pcb.ValidReset seg → after.pcb.state = .closed ∨ after.pcb.state = .free
  wakes : pcb.ValidReset seg → env.sleeper → .wakeup ∈ after.fx
  releases : pcb.ValidReset seg → pcb.state = .synReceived → pcb.parent.isSome →
    after.pcb.state = .free
  establishes : pcb.state ≠ .established → after.pcb.state ≠ .established
  delivers : after.pcb.state = .free ∨ after.pcb.buf = pcb.buf
  answers : ∀ s, .output s ∈ after.fx → isSet s.flg flgAck = false

/-- The segment is answered whatever its RST bit: a SYN alone in SYN-SENT, a FIN where no window
test is made, and one that passes the test by its end and is looked at behind its acknowledgment. -/
def Pcb.AnswersReset (pcb : Pcb) (seg : Segment) : Prop :=
  match pcb.state with
  | .synSent => isSet seg.flg flgSyn = true ∧ isSet seg.flg flgAck = false
  | .closing | .timeWait => isSet seg.flg flgAck = true ∧ isSet seg.flg flgFin = true
  | .synReceived => pcb.acceptable seg = true ∧ isSet seg.flg flgAck = true ∧
      pcb.snd.una ≤ seg.ack ∧ seg.ack ≤ pcb.snd.nxt
  | .closeWait => pcb.acceptable seg = true ∧ isSet seg.flg flgAck = true ∧
      (isSet seg.flg flgFin = true ∨ pcb.snd.una ≤ seg.ack ∧ pcb.snd.nxt < seg.ack)
  | .established | .finWait1 | .finWait2 =>
    pcb.acceptable seg = true ∧ isSet seg.flg flgAck = true
  | _ => False

/-- A segment ends a connection in LAST-ACK only. -/
theorem State.not_over (s : State) (hs : s ≠ .free ∧ s ≠ .closed ∧ s ≠ .lastAck) :
    ∀ m ∈ s.acks, ∀ t ∈ m.fins, t ≠ .closed ∧ t ≠ .free := by
  revert hs
  cases s <;> decide

/-- A segment that passes the window test but begins outside the window brings data or a FIN. -/
theorem text_of_straddling {pcb : Pcb} {seg : Segment} (hacc : pcb.acceptable seg = true)
    (hseq : ¬pcb.InWindow seg.seq) : seg.data ≠ [] ∨ isSet seg.flg flgFin = true := by
  by_contra! hnone
  obtain ⟨hdata, hfin⟩ := hnone
  obtain hbegins | ⟨hlen, hends⟩ := (admits_of_acceptable hacc).1
  · exact hseq hbegins
  · -- the only number that is left is the one of a SYN
    have hone : seg.len = 1 := by
      unfold Segment.len at hlen ⊢
      cases hsyn : isSet seg.flg flgSyn <;> simp_all
    rw [hone, show seg.seq + (1 : UInt16).toUInt32 - 1 = seg.seq from UInt32.add_sub_cancel _ _] at hends
    exact hseq hends

theorem ack_isSet : isSet flgAck flgAck = true := by decide

/-- A FIN that is looked at takes the number behind the first of its segment, and is
acknowledged. -/
theorem finBit_acks (seg : Segment) (c : Conn) (hfin : isSet seg.flg flgFin)
    (hstate : c.pcb.state ≠ .closed ∧ c.pcb.state ≠ .listen) : (finBit seg c).pcb.rcv.nxt = seg.seq + 1 ∧
      ∃ s, .output s ∈ (finBit seg c).fx ∧ isSet s.flg flgAck ∧ s.ack = seg.seq + 1 := by
  have hflag := ack_isSet
  obtain ⟨pcb, fx⟩ := c
  dsimp only at hstate
  cases hs : pcb.state <;> simp_all [finBit, output_ack_eq, Conn.setState, Conn.emit]

/-- Text and FIN are acknowledged, and in CLOSE-WAIT only a FIN. -/
theorem proceed_answers {seg : Segment} {c : Conn} (h : c.pcb.state.acksData = true)
    (hmore : c.pcb.state ≠ .closeWait ∧ seg.data ≠ [] ∨ isSet seg.flg flgFin = true) :
    ∃ s, .output s ∈ (proceed seg c).fx ∧ isSet s.flg flgAck = true := by
  cases hfin : isSet seg.flg flgFin with
  | true =>
    have hlive : (segmentText seg (finAcked seg c)).pcb.state ≠ .closed ∧
        (segmentText seg (finAcked seg c)).pcb.state ≠ .listen := by
      rw [(segmentText_keeps seg _).1]
      cases hs : c.pcb.state <;> simp [hs, State.acksData] at h <;> simp [finAcked, hs]
      split <;> simp [hs, Conn.setState]
    obtain ⟨-, s, hs, hack, -⟩ := finBit_acks seg _ hfin hlive
    exact ⟨s, hs, hack⟩
  | false =>
    obtain ⟨hstate, hdata⟩ := hmore.resolve_right (by simp [hfin])
    have htake : proceed seg c = takeText seg (finAcked seg c) := by
      by_cases hacked : seg.ack = c.pcb.snd.nxt <;> cases hs : c.pcb.state <;>
        simp [hs, State.acksData] at h hstate <;>
        simp [proceed, finAcked, segmentText, finBit, hs, hfin, hdata, hacked]
    rw [htake]
    exact ⟨_, List.mem_append_left _ (List.mem_append_right _ (List.mem_singleton.mpr rfl)), ack_isSet⟩

/-- The same behind any acknowledgment; one beyond `snd.nxt` is answered in any case. -/
theorem settle_answers (seg : Segment) {c : Conn} (h : c.pcb.state.acksData = true) (a : Answer)
    (hmore : a = .beyond ∨ c.pcb.state ≠ .closeWait ∧ seg.data ≠ [] ∨ isSet seg.flg flgFin = true) :
    ∃ s, .output s ∈ (settle seg c a).fx ∧ isSet s.flg flgAck = true := by
  cases a with
  | advances dropped newer =>
    have htext := hmore.resolve_left (by simp)
    cases newer with
    | false => exact proceed_answers (c := ⟨c.pcb.advance seg.ack dropped, c.fx⟩) h htext
    | true =>
      exact proceed_answers (c := ⟨(c.pcb.advance seg.ack dropped).takeWindow seg, c.fx⟩) h htext
  | beyond =>
    exact ⟨_, List.mem_append_right _ (List.mem_singleton.mpr rfl), ack_isSet⟩
  | ignored => exact proceed_answers h (hmore.resolve_left (by simp))

/-- In CLOSE-WAIT a segment without FIN is not answered otherwise, and its text is not looked at. -/
theorem settle_closeWait {seg : Segment} {c : Conn} (h : c.pcb.state = .closeWait)
    (hfin : isSet seg.flg flgFin = false) {a : Answer} (ha : a ≠ .beyond) :
    (settle seg c a).fx = c.fx ∧ (settle seg c a).pcb.state = .closeWait ∧
      (settle seg c a).pcb.buf = c.pcb.buf := by
  cases a with
  | advances dropped newer =>
    cases newer <;> simp [settle, proceed_closeWait, h, hfin, Pcb.advance, Pcb.takeWindow]
  | beyond => exact absurd rfl ha
  | ignored => simp [settle, proceed_closeWait, h, hfin]

theorem answer_eq_beyond (seg : Segment) (pcb : Pcb) :
    answer seg pcb = .beyond ↔ pcb.snd.una ≤ seg.ack ∧ pcb.snd.nxt < seg.ack := by
  unfold answer
  split_ifs <;> simp <;> grind

/-- A reset that is not valid is as good as obeyed when nothing happens. -/
theorem resetObeyed_of_still {env : Env} {seg : Segment} {pcb : Pcb} {after : Conn}
    (hno : ¬pcb.ValidReset seg) (hstate : after.pcb.state = pcb.state)
    (hbuf : after.pcb.buf = pcb.buf) (hquiet : ∀ s, .output s ∈ after.fx → isSet s.flg flgAck = false) :
    ResetObeyed env seg pcb after :=
  ⟨fun h => absurd h hno, fun h => absurd h hno, fun h => absurd h hno, fun h => hstate ▸ h,
    .inr hbuf, hquiet⟩

/-- Where nothing happens, exactly a valid reset is not obeyed. -/
theorem resetObeyed_self (env : Env) (seg : Segment) {pcb : Pcb}
    (hlive : pcb.state ≠ .free ∧ pcb.state ≠ .closed) :
    ResetObeyed env seg pcb ⟨pcb, []⟩ ↔ ¬pcb.ValidReset seg :=
  ⟨fun h hvalid => (h.aborts hvalid).elim hlive.2 hlive.1,
    fun hno => resetObeyed_of_still hno rfl rfl (by simp)⟩

/-- Who sends an acknowledgment has not obeyed. -/
theorem not_resetObeyed {env : Env} {seg : Segment} {pcb : Pcb} {after : Conn} {s : Sent}
    (hs : .output s ∈ after.fx) (hack : isSet s.flg flgAck = true) : ¬ResetObeyed env seg pcb after :=
  fun h => absurd (h.answers s hs) (by simp [hack])

/-- The reset in answer to an acknowledgment carries none. -/
theorem resetAck_quiet (seg : Segment) (pcb : Pcb) (s : Sent)
    (hs : .output s ∈ (Conn.resetAck ⟨pcb, []⟩ seg).fx) : isSet s.flg flgAck = false := by
  obtain rfl := Effect.output.inj (List.mem_singleton.mp hs)
  exact show isSet flgRst flgAck = false by decide

/-- From SYN-RECEIVED to CLOSE-WAIT, a reset outside the window is answered like a segment without
RST. -/
theorem resetObeyed_synchronized (env : Env) (seg : Segment) (pcb : Pcb) (hrst : isSet seg.flg flgRst)
    (h : pcb.state.acksData = true ∨ pcb.state = .synReceived) (hno : ¬pcb.ValidReset seg) :
    ResetObeyed env seg pcb (segmentArrives env seg ⟨pcb, []⟩) ↔ ¬pcb.AnswersReset seg := by
  have hne : pcb.state ≠ .synSent := by
    rintro hs
    simp [hs, State.acksData] at h
  have hseq : ¬pcb.InWindow seg.seq := by
    rwa [Pcb.ValidReset, if_neg hne] at hno
  have haccepted : accepted seg pcb = pcb.acceptable seg := by
    cases hs : pcb.state <;> simp [hs, State.acksData] at h <;> simp [accepted, hs, State.checksWindow]
  rw [segmentArrives_eq, verdict_eq seg h, haccepted]
  have hstill : ¬pcb.AnswersReset seg → (ResetObeyed env seg pcb ⟨pcb, []⟩ ↔ ¬pcb.AnswersReset seg) :=
    fun hans => iff_of_true (resetObeyed_of_still hno rfl rfl (by simp)) hans
  split_ifs with hacc hack hrefused
  · simp only [obey, hrst, if_true]
    refine hstill ?_
    cases hs : pcb.state <;> simp [hs, State.acksData] at h <;> simp [Pcb.AnswersReset, hs, hacc]
  · refine hstill ?_
    cases hs : pcb.state <;> simp [hs, State.acksData] at h <;> simp [Pcb.AnswersReset, hs, hack]
  · refine iff_of_true (resetObeyed_of_still hno rfl rfl (resetAck_quiet seg pcb)) ?_
    simp only [Pcb.AnswersReset, hrefused.1]
    exact fun hall => hrefused.2 hall.2.2
  · rw [Bool.not_eq_false] at hacc hack
    have htext := text_of_straddling hacc hseq
    have hdata : (completeHandshake ⟨pcb, []⟩).pcb.state.acksData = true := by
      rw [completeHandshake_pcb]
      cases hs : pcb.state <;> simp [hs, State.acksData] at h ⊢
    by_cases hquiet : pcb.state = .closeWait ∧ isSet seg.flg flgFin = false ∧ answer seg pcb ≠ .beyond
    · obtain ⟨hs, hfin, hbeyond⟩ := hquiet
      have hsame : completeHandshake ⟨pcb, []⟩ = ⟨pcb, []⟩ := by simp [completeHandshake, hs]
      obtain ⟨hfx, hstate, hbuf⟩ := settle_closeWait (c := ⟨pcb, []⟩) hs hfin hbeyond
      simp only [obey, hsame]
      refine iff_of_true (resetObeyed_of_still hno (hstate.trans hs.symm) hbuf (by simp [hfx])) ?_
      rw [Ne, answer_eq_beyond] at hbeyond
      simp [Pcb.AnswersReset, hs, hfin, hbeyond]
    · obtain ⟨s, hs, hflag⟩ := settle_answers seg hdata (answer seg pcb) (by
        rw [completeHandshake_pcb]
        cases hs : pcb.state <;> simp [hs, State.acksData] at h hquiet ⊢ <;> grind)
      refine iff_of_false (not_resetObeyed hs hflag) (not_not.mpr ?_)
      rw [Ne, answer_eq_beyond] at hquiet
      cases hs : pcb.state <;> simp [hs, State.acksData] at h hquiet hrefused <;>
        simp [Pcb.AnswersReset, hs, hacc, hack] <;> grind

/-- In SYN-SENT no valid reset is obeyed, and another is answered exactly if it is a SYN alone. -/
theorem resetObeyed_synSent (env : Env) (seg : Segment) (pcb : Pcb) (hstate : pcb.state = .synSent) :
    ResetObeyed env seg pcb (segmentArrives env seg ⟨pcb, []⟩) ↔
      ¬pcb.ValidReset seg ∧ ¬pcb.AnswersReset seg := by
  have hvalid : pcb.ValidReset seg ↔ isSet seg.flg flgAck = true ∧ seg.ack ≠ pcb.iss ∧
      (seg.ack - pcb.iss).toNat ≤ (pcb.snd.nxt - pcb.iss).toNat := by
    rw [Pcb.ValidReset, if_pos hstate]
  have hans : pcb.AnswersReset seg ↔ isSet seg.flg flgSyn = true ∧ isSet seg.flg flgAck = false := by
    simp only [Pcb.AnswersReset, hstate]
  -- an acknowledgment between `iss` and `snd.nxt` as the code compares them is acceptable
  have hmodulo : pcb.iss < seg.ack → seg.ack ≤ pcb.snd.nxt → seg.ack ≠ pcb.iss ∧
      (seg.ack - pcb.iss).toNat ≤ (pcb.snd.nxt - pcb.iss).toNat := by
    intro hlt hle
    have hlow := UInt32.lt_iff_toNat_lt.mp hlt
    have hhigh := UInt32.le_iff_toNat_le.mp hle
    have := pcb.snd.nxt.toNat_lt
    refine ⟨fun heq => absurd hlt (heq ▸ UInt32.lt_irrefl _), ?_⟩
    rw [UInt32.toNat_sub, UInt32.toNat_sub]
    omega
  simp only [segmentArrives, hstate, synSentArrives]
  split
  · next hbad =>
    by_cases hv : pcb.ValidReset seg
    · refine iff_of_false (fun h => ?_) (by simp [hv])
      simpa [hstate, Conn.resetAck, Conn.outputSegment, Conn.emit] using h.aborts hv
    · exact iff_of_true (resetObeyed_of_still hv rfl rfl (resetAck_quiet seg pcb))
        (by simp [hv, hans, hbad.1])
  · next hgood =>
    split
    · next hsyn =>
      refine iff_of_false ?_ (by grind)
      split
      · exact not_resetObeyed (List.mem_append_left _
          (List.mem_append_right _ (List.mem_singleton.mpr rfl))) ack_isSet
      · exact not_resetObeyed (List.mem_append_right _ (List.mem_singleton.mpr rfl))
          (show isSet (flgSyn ||| flgAck) flgAck = true by decide)
    · next hsyn =>
      rw [resetObeyed_self env seg (by simp [hstate])]
      grind

/-- `tcp_segment_arrives` does not look at RST behind the window test. A valid reset is obeyed only
where the acknowledgment that comes with it ends LAST-ACK; another is not where the segment is
answered anyway. -/
theorem resetObeyed_iff (env : Env) (seg : Segment) (pcb : Pcb) (hrst : isSet seg.flg flgRst)
    (hlive : pcb.state ≠ .free ∧ pcb.state ≠ .closed ∧ pcb.state ≠ .listen) :
    ResetObeyed env seg pcb (segmentArrives env seg ⟨pcb, []⟩) ↔ if pcb.ValidReset seg then
        pcb.state = .lastAck ∧ pcb.acceptable seg ∧ isSet seg.flg flgAck ∧ seg.ack = pcb.snd.nxt
      else ¬pcb.AnswersReset seg := by
  have hself := resetObeyed_self env seg ⟨hlive.1, hlive.2.1⟩
  cases hstate : pcb.state with
  | free => exact absurd hstate hlive.1
  | closed => exact absurd hstate hlive.2.1
  | listen => exact absurd hstate hlive.2.2
  | synSent =>
    rw [resetObeyed_synSent env seg pcb hstate]
    simp
  | lastAck =>
    have hvalid : pcb.ValidReset seg ↔ pcb.InWindow seg.seq := by
      rw [Pcb.ValidReset, if_neg (by simp [hstate])]
    have hans : ¬pcb.AnswersReset seg := by simp [Pcb.AnswersReset, hstate]
    by_cases hends : pcb.acceptable seg ∧ isSet seg.flg flgAck ∧ seg.ack = pcb.snd.nxt
    · refine iff_of_true ?_ (by simp [hans, hends])
      simp only [segmentArrives, hstate, otherArrives, ackField, hends, Conn.release]
      cases hsleeper : env.sleeper <;> constructor <;>
        simp [hstate, hsleeper, Conn.setState, Conn.emit, Pcb.zero]
    · have hafter : segmentArrives env seg ⟨pcb, []⟩ = ⟨pcb, []⟩ := by
        simp only [segmentArrives, hstate, otherArrives, ackField, hrst, State.checksWindow]
        grind
      rw [hafter, hself]
      grind
  | closing | timeWait =>
    have hans : pcb.AnswersReset seg ↔ isSet seg.flg flgAck = true ∧ isSet seg.flg flgFin = true := by
      simp only [Pcb.AnswersReset, hstate]
    by_cases hfin : isSet seg.flg flgAck ∧ isSet seg.flg flgFin
    · refine iff_of_false ?_ (by grind)
      simp only [segmentArrives, hstate, otherArrives, ackField, segmentText, State.checksWindow,
        finBit, hfin]
      exact not_resetObeyed (List.mem_append_right _ (List.mem_singleton.mpr rfl)) ack_isSet
    · have hafter : segmentArrives env seg ⟨pcb, []⟩ = ⟨pcb, []⟩ := by
        simp only [segmentArrives, hstate, otherArrives, ackField, segmentText, State.checksWindow, finBit]
        grind
      rw [hafter, hself]
      grind
  | _ =>
    by_cases hv : pcb.ValidReset seg
    · obtain ⟨m, hm, ht⟩ := otherArrives_states env seg ⟨pcb, []⟩ (by simp [hstate])
      have hover := State.not_over _ (by simp [hstate]) m hm _ ht
      simp only [hv, if_true, reduceCtorEq, false_and, iff_false, segmentArrives, hstate]
      exact fun h => (h.aborts hv).elim hover.1 hover.2
    · rw [if_neg hv]
      exact resetObeyed_synchronized env seg pcb hrst (by simp [hstate, State.acksData]) hv

/-- A connection that has received nothing yet. -/
def openBlock (state : State) : Pcb := { Pcb.zero with state := state, rcv := ⟨0, 65535⟩ }

/-- A segment that is next for it. -/
def nextSegment (flg : UInt8) : Segment := ⟨0, 0, 0, flg, [], ⟨0, 0⟩, ⟨0, 0⟩, Nat.zero_le _⟩

/-- In LAST-ACK a reset with the next number ends the connection. -/
theorem resetObeyed_lastAck : ResetObeyed ⟨0, 0, true, false⟩ (nextSegment (flgRst ||| flgAck))
    (openBlock .lastAck)
    (segmentArrives ⟨0, 0, true, false⟩ (nextSegment (flgRst ||| flgAck)) ⟨openBlock .lastAck, []⟩) :=
  (resetObeyed_iff _ _ _ (by decide) (by decide)).mpr (by rw [if_pos (by decide)]; decide)

/-- An established connection takes no notice of a reset. -/
theorem reset_ignored : ¬ResetObeyed ⟨0, 0, true, false⟩ (nextSegment flgRst) (openBlock .established)
    (segmentArrives ⟨0, 0, true, false⟩ (nextSegment flgRst) ⟨openBlock .established, []⟩) :=
  fun h => absurd (h.aborts (by decide)) (by decide)

/-! ### FIN -/

/-- The acknowledgment of the segment is acceptable, modulo 2^32: in SYN-RECEIVED it is one of the
SYN or of what follows, later it does not lie beyond `snd.nxt`. -/
def Pcb.AcksSent (pcb : Pcb) (seg : Segment) : Prop :=
  isSet seg.flg flgAck = true ∧
    if pcb.state = .synReceived then
      (seg.ack - pcb.snd.una).toNat ≤ (pcb.snd.nxt - pcb.snd.una).toNat
    else (pcb.snd.nxt - seg.ack).toNat < 2 ^ 31

/-- What a segment with FIN should do to a block. One that is next and fits the window in a
receiving state takes one number behind its data, is acknowledged as a whole, and its data can be
read before the end of the stream; any other one neither moves `rcv.nxt` back nor ends the
stream. -/
structure FinCounted (seg : Segment) (pcb : Pcb) (after : Conn) : Prop where
  consumed : pcb.state.takesText → pcb.AcksSent seg → seg.seq = pcb.rcv.nxt →
    seg.len ≤ pcb.rcv.wnd →
    after.pcb.rcv.nxt = pcb.rcv.nxt + UInt32.ofNat seg.data.length + 1 ∧
      (∃ s, .output s ∈ after.fx ∧ isSet s.flg flgAck ∧
        s.ack = pcb.rcv.nxt + UInt32.ofNat seg.data.length + 1) ∧
      (seg.data ≠ [] → slice after.pcb.buf pcb.buffered seg.data.length = seg.data ∧
        ∀ size, 0 < size → ∃ b bytes, (receive after.pcb size).1 = .bytes (b :: bytes))
  forward : seg.seq ≠ pcb.rcv.nxt ∨ ¬pcb.state.takesText →
    after.pcb.state = .free ∨ (after.pcb.rcv.nxt - pcb.rcv.nxt).toNat < 2 ^ 31
  stays : seg.seq ≠ pcb.rcv.nxt ∨ ¬pcb.state.takesText →
    after.pcb.state = .free ∨ after.pcb.state ∈ pcb.state.acks

/-- The segment gets as far as the check of the FIN bit: through the window test and the check of
its acknowledgment as the code makes them. -/
def Pcb.reachesFin (env : Env) (seg : Segment) (pcb : Pcb) : Bool :=
  !pcb.drops seg && (ackField env seg ⟨pcb, []⟩).2

/-- When a FIN is counted right. One that is next and acceptable has to get as far as the check of
the FIN bit and to come without data; another one that is in a receiving state must not get there,
and in the other states it must not be old. -/
def Pcb.CountsFin (env : Env) (seg : Segment) (pcb : Pcb) : Prop :=
  if pcb.state.takesText then
    if seg.seq = pcb.rcv.nxt then
      seg.len ≤ pcb.rcv.wnd → pcb.AcksSent seg → pcb.reachesFin env seg ∧ seg.data = []
    else ¬pcb.reachesFin env seg
  else pcb.reachesFin env seg → (seg.seq + 1 - pcb.rcv.nxt).toNat < 2 ^ 31

/-- An acknowledgment that is followed by the check of the FIN bit keeps a connection among the
receiving states, or where it is. -/
theorem State.acks_live (s : State) (hs : s ∉ [.free, .closed, .listen, .synSent, .lastAck]) : ∀ m ∈ s.acks,
    (m ≠ .closed ∧ m ≠ .listen) ∧ (s.takesText → m.takesText) ∧
      (¬s.takesText → ∀ t ∈ m.fins, t ≠ .free ∧ t ∈ s.acks) := by
  revert hs
  cases s <;> decide

/-- In a receiving state the acknowledgment alone does not lead where a FIN does. -/
theorem State.fin_leaves (s : State) (hs : s.takesText) : ∀ m ∈ s.acks, ∀ t ∈ m.fins, t =
    .closeWait ∨ t.over →
    t ≠ .free ∧ t ∉ s.acks := by
  revert hs
  cases s <;> decide

/-- Only a FIN without data takes the number that was expected. -/
theorem fin_alone_of_next (seg : Segment) (nxt : UInt32) {x : UInt32} (k : ℕ) (hk : k < 2)
    (hx : x = nxt + UInt32.ofNat k) (h : x = nxt + UInt32.ofNat seg.data.length + 1) :
    k = 1 ∧ seg.data = [] := by
  have hfits : seg.data.length ≤ 65515 := seg.fits
  have hnat := congrArg UInt32.toNat (hx.symm.trans h)
  simp only [UInt32.toNat_add, UInt32.toNat_ofNat', UInt32.toNat_one] at hnat
  exact ⟨by omega, List.length_eq_zero_iff.mp (by omega)⟩

end Xv6.Tcp
