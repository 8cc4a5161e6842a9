import Xv6.Net.Retransmit
import Xv6.Net.Stream

/-!
# The windows of a TCP connection

The receive window is the room in the receive buffer, the send window what the peer granted
last. The window test lets a segment through that only begins inside the receive window, so a
text can be longer than the room that is left. The room in the send window is a difference of
unsigned numbers, which is large once the peer takes back a part of the window that is in use.
And an acknowledgment that opens the send window wakes nobody, unless it comes with text.
-/

namespace Xv6.Tcp

open Lib

variable {env : Env} {seg : Segment} {c : Conn} {pcb : Pcb}

/-! ### The receive buffer -/

/-- The states of a connection that the application has not closed from CLOSE-WAIT. -/
def State.receiving (s : State) : Bool := s.started && s != .lastAck

/-- The bytes of text that a segment brings into the buffer. -/
def Pcb.taken (pcb : Pcb) (seg : Segment) : ℕ :=
  if pcb.Hears seg ∧ pcb.state ≠ .closeWait ∧ answer seg pcb ≠ .beyond then seg.data.length else 0

/-- The room shrinks by `n` bytes, which go behind the buffered ones. -/
structure Fills (n : ℕ) (seg : Segment) (pcb pcb' : Pcb) : Prop where
  state : pcb'.state.receiving = true
  wnd : pcb'.rcv.wnd = pcb.rcv.wnd - UInt16.ofNat n
  buf : pcb'.buf = blit pcb.buf pcb.buffered n fun i => seg.data.getD i 0

theorem blit_zero (b : Bytes) (o : ℕ) (f : ℕ → UInt8) : blit b o 0 f = b := by
  funext i
  exact blit_of_outside (by omega)

theorem Fills.none {pcb' : Pcb} (hstate : pcb'.state.receiving = true) (hwnd : pcb'.rcv.wnd = pcb.rcv.wnd)
    (hbuf : pcb'.buf = pcb.buf) : Fills 0 seg pcb pcb' :=
  ⟨hstate, by rw [hwnd]; simp, by rw [hbuf, blit_zero]⟩

theorem receiving_of_acksData (h : pcb.state.acksData = true) : pcb.state.receiving = true := by
  cases hstate : pcb.state <;> simp [hstate, State.acksData] at h <;> rfl

/-- Behind the acknowledgment the text is taken, but in CLOSE-WAIT. -/
theorem proceed_fills (seg : Segment) {c : Conn} (h : c.pcb.state.acksData = true) :
    Fills (if c.pcb.state ≠ .closeWait then seg.data.length else 0) seg c.pcb (proceed seg c).pcb := by
  by_cases hacked : seg.ack = c.pcb.snd.nxt <;> cases hfin :
    isSet seg.flg flgFin <;> by_cases hdata : seg.data = [] <;>
    cases hstate : c.pcb.state <;> simp [hstate, State.acksData] at h <;> constructor <;>
    simp [proceed, finAcked, segmentText, takeText, finBit, hstate, hfin, hdata, hacked,
      output_ack_eq, State.receiving, State.started, blit_zero, Pcb.buffered]

theorem settle_fills (h : c.pcb.state.acksData = true) (answer : Answer) :
    Fills (if c.pcb.state ≠ .closeWait ∧ answer ≠ .beyond then seg.data.length else 0) seg c.pcb
      (settle seg c answer).pcb := by
  cases answer with
  | advances dropped newer =>
    simp only [ne_eq, reduceCtorEq, not_false_eq_true, and_true]
    cases newer with
    | false =>
      obtain ⟨hstate, hwnd, hbuf⟩ := proceed_fills seg (c := ⟨c.pcb.advance seg.ack dropped, c.fx⟩) h
      exact ⟨hstate, hwnd, hbuf⟩
    | true =>
      obtain ⟨hstate, hwnd, hbuf⟩ :=
        proceed_fills seg (c := ⟨(c.pcb.advance seg.ack dropped).takeWindow seg, c.fx⟩) h
      exact ⟨hstate, hwnd, hbuf⟩
  | beyond =>
    simp only [ne_eq, not_true_eq_false, and_false]
    exact .none (receiving_of_acksData h) rfl rfl
  | ignored =>
    simp only [ne_eq, reduceCtorEq, not_false_eq_true, and_true]
    exact proceed_fills seg h

/-- What a segment does to the receive buffer. -/
theorem segmentArrives_fills (env : Env) (seg : Segment) (h : pcb.state.receiving = true) :
    Fills (pcb.taken seg) seg pcb (segmentArrives env seg ⟨pcb, []⟩).pcb := by
  unfold Pcb.taken
  by_cases hdata : pcb.state.acksData = true
  · obtain ⟨hears, harrives⟩ | ⟨hdeaf, harrives⟩ := segmentArrives_acksData env seg (c := ⟨pcb, []⟩) hdata
    · rw [harrives]
      simpa [hears] using settle_fills (c := ⟨pcb, []⟩) hdata (answer seg pcb)
    · rw [harrives, if_neg fun hall => hdeaf hall.1]
      exact .none h rfl rfl
  · rw [if_neg fun hall => hdata hall.1.1, segmentArrives_eq]
    cases hack : isSet seg.flg flgAck <;> cases hfin : isSet seg.flg flgFin <;> cases hstate : pcb.state <;>
      simp [hstate, State.receiving, State.started, State.acksData] at h hdata <;> apply Fills.none <;>
      simp [obey, verdict, hstate, hack, hfin, finBit, State.receiving, State.started]

/-- A connection with the number of bytes that were put into its buffer and not read yet. -/
structure Receiver where
  pcb : Pcb
  held : ℕ

/-- A segment arrives, or the application calls `tcp_receive`. -/
inductive Input
  | arrive (env : Env) (seg : Segment)
  | receive (size : ℕ)

def Receiver.next (r : Receiver) : Input → Receiver
  | .arrive env seg => ⟨(segmentArrives env seg ⟨r.pcb, []⟩).pcb, r.held + r.pcb.taken seg⟩
  | .receive size => ⟨(receive r.pcb size).2, r.held - (receive r.pcb size).1.data.length⟩

/-- The window and the bytes held make up the buffer. -/
def Receiver.Accounted (r : Receiver) : Prop := r.pcb.rcv.wnd.toNat + r.held = rcvBufSize

/-- No byte behind the buffer changes. -/
def StaysInside (pcb pcb' : Pcb) : Prop := ∀ i, rcvBufSize ≤ i → pcb'.buf i = pcb.buf i

/-- The text that is taken is no longer than the window. -/
def Input.Fits (pcb : Pcb) : Input → Prop
  | .arrive _ seg => pcb.taken seg ≤ pcb.rcv.wnd.toNat
  | .receive _ => True

def FittingStep (r : Receiver) (a : Input) (r' : Receiver) : Prop := a.Fits r.pcb ∧ r' = r.next a

/-- A step that is accounted for is one whose text fits. -/
theorem Fills.accounted_iff {n held : ℕ} {pcb' : Pcb} (h : Fills n seg pcb pcb')
    (hheld : pcb.rcv.wnd.toNat + held = rcvBufSize) :
    (pcb'.rcv.wnd.toNat + (held + n) = rcvBufSize ↔ n ≤ pcb.rcv.wnd.toNat) ∧
      (n ≤ pcb.rcv.wnd.toNat → StaysInside pcb pcb') := by
  have hwnd := pcb.rcv.wnd.toNat_lt
  constructor
  · rw [h.wnd, UInt16.toNat_sub, UInt16.toNat_ofNat']
    omega
  · intro hfits i hi
    have hbuffered := buffered_add_wnd pcb
    rw [h.buf, blit_of_outside (by omega)]

/-- `tcp_receive` returns without data, or takes bytes out of the buffer. -/
theorem receive_cases (pcb : Pcb) (size : ℕ) :
    (∃ x : Received, x.data = [] ∧ receive pcb size = (x, pcb)) ∨ receive pcb size = takeBytes pcb size := by
  unfold receive
  split
  · split
    · exact .inl ⟨_, rfl, rfl⟩
    · exact .inr rfl
  · split
    · exact .inl ⟨_, rfl, rfl⟩
    · exact .inr rfl
  · exact .inl ⟨_, rfl, rfl⟩

/-- `tcp_receive` gives back as much room as it reads. -/
theorem receive_accounted (size : ℕ) {r : Receiver} (hstate : r.pcb.state.receiving = true)
    (h : r.Accounted) :
    (r.next (.receive size)).pcb.state.receiving = true ∧ (r.next (.receive size)).Accounted ∧
      StaysInside r.pcb (r.next (.receive size)).pcb := by
  have hbuffered := buffered_add_wnd r.pcb
  unfold Receiver.Accounted at h ⊢
  obtain ⟨x, hx, hr⟩ | hr := receive_cases r.pcb size
  · simp only [Receiver.next, hr, hx]
    exact ⟨hstate, h, fun _ _ => rfl⟩
  · simp only [Receiver.next, hr, takeBytes, Received.data, slice_length, UInt16.toNat_add,
      UInt16.toNat_ofNat',
      rcvBufSize] at h hbuffered ⊢
    refine ⟨hstate, by omega, fun i hi => ?_⟩
    dsimp only [rcvBufSize] at hi ⊢
    exact blit_of_outside (by omega)

/-- As long as the texts that are taken fit, the window and the bytes held make up the buffer, and
nothing is written behind it; a further segment keeps that exactly if its text fits. -/
theorem receive_buffer_accounted_iff {start t : Receiver} {as : List Input}
    (hstate : start.pcb.state.acksData = true)
    (hstart : start.Accounted) (hrun : Run FittingStep start as t) :
    t.Accounted ∧ StaysInside start.pcb t.pcb ∧
      ∀ a, ((t.next a).Accounted ∧ StaysInside t.pcb (t.next a).pcb) ↔ a.Fits t.pcb := by
  have hstep : ∀ (r : Receiver) (a : Input), r.pcb.state.receiving = true → r.Accounted →
      (a.Fits r.pcb → (r.next a).pcb.state.receiving = true ∧ (r.next a).Accounted ∧
        StaysInside r.pcb (r.next a).pcb) ∧
        ((r.next a).Accounted → a.Fits r.pcb) := by
    intro r a hr hacc
    cases a with
    | arrive env seg =>
      have hfills := segmentArrives_fills env seg hr
      obtain ⟨hiff, hinside⟩ := hfills.accounted_iff hacc
      exact ⟨fun hfits => ⟨hfills.state, hiff.mpr hfits, hinside hfits⟩, hiff.mp⟩
    | receive size => exact ⟨fun _ => receive_accounted size hr hacc, fun _ => trivial⟩
  obtain ⟨ht, hacc, hinside⟩ : t.pcb.state.receiving = true ∧ t.Accounted ∧ StaysInside start.pcb t.pcb := by
    refine hrun.invariant (fun (r : Receiver) a _
      (h : r.pcb.state.receiving = true ∧ r.Accounted ∧ StaysInside start.pcb r.pcb) ht => ?_)
      ⟨receiving_of_acksData hstate, hstart, fun _ _ => rfl⟩
    obtain ⟨hr, hacc, hinside⟩ := h
    obtain ⟨hfits, rfl⟩ := ht
    obtain ⟨hr', hacc', hinside'⟩ := (hstep r a hr hacc).1 hfits
    exact ⟨hr', hacc', fun i hi => (hinside' i hi).trans (hinside i hi)⟩
  exact ⟨hacc, hinside, fun a => ⟨fun h => (hstep t a ht hacc).2 h.1, fun h => ((hstep t a ht hacc).1 h).2⟩⟩

/-- A segment of one byte is taken by an empty buffer. -/
theorem receive_buffer_accounted_one :
    (Receiver.next ⟨justEstablished.conn.pcb, 0⟩
      (.arrive ⟨0, 0, true, false⟩ (textSegment 1 [7] (by decide)))).Accounted :=
  (receive_buffer_accounted_iff (by rfl)
    (show Receiver.Accounted ⟨justEstablished.conn.pcb, 0⟩ by unfold Receiver.Accounted; decide)
    (.cons ⟨by unfold Input.Fits; decide, rfl⟩ (.nil _))).1

/-- Two bytes arrive with room for one: the window wraps around, and the second byte is written
behind the buffer. -/
theorem text_overruns_buffer :
    let full : Receiver := ⟨{ justEstablished.conn.pcb with rcv := ⟨1, 1⟩ }, 65534⟩
    let after := full.next (.arrive ⟨0, 0, true, false⟩ (textSegment 1 [7, 8] (by decide)))
    full.Accounted ∧ full.pcb.buf rcvBufSize = 0 ∧ after.pcb.buf rcvBufSize = 8 ∧
      after.held = 65536 ∧ after.pcb.rcv.wnd = 65535 := by
  unfold Receiver.Accounted
  decide

/-! ### The send window -/

/-- `x` is not behind `y`, counted modulo 2^32. -/
def NotBefore (x y : UInt32) : Prop := (x - y).toNat < 2 ^ 31

instance (x y : UInt32) : Decidable (NotBefore x y) := Nat.decLt _ _

def Effect.isWakeup : Effect → Bool
  | .wakeup => true
  | _ => false

def SendTurn.isSleep : SendTurn → Bool
  | .sleeps => true
  | _ => false

/-- What the peer has said last: the number that it expects next, its window, and the sequence
and acknowledgment numbers of the segment that told the window. -/
structure Peer where
  expects : UInt32
  wnd : UInt16
  wl1 : UInt32
  wl2 : UInt32

/-- A connection, the last word of its peer, and the processes asleep in `tcp_send`. -/
structure Sender where
  pcb : Pcb
  peer : Peer
  asleep : List ℕ

/-- The bytes that the peer has not acknowledged yet. -/
def Sender.inFlight (s : Sender) : ℕ := (s.pcb.snd.nxt - s.peer.expects).toNat

/-- The segment passes the window test and acknowledges nothing that was not sent, by RFC 793 and
so modulo 2^32. -/
def Sender.Listens (s : Sender) (seg : Segment) : Prop :=
  s.pcb.Admits seg ∧ isSet seg.flg flgAck = true ∧ (seg.ack - s.peer.expects).toNat ≤ s.inFlight

/-- The segment acknowledges something new. -/
def Sender.Acknowledges (s : Sender) (seg : Segment) : Prop :=
  s.Listens seg ∧ seg.ack ≠ s.peer.expects

/-- The segment is the latest word of the peer about its window. -/
def Sender.Advertises (s : Sender) (seg : Segment) : Prop :=
  s.Listens seg ∧
    if seg.seq = s.peer.wl1 then NotBefore seg.ack s.peer.wl2 else NotBefore seg.seq s.peer.wl1

instance (s : Sender) (seg : Segment) : Decidable (s.Listens seg) :=
  inferInstanceAs (Decidable (_ ∧ _))

instance (s : Sender) (seg : Segment) : Decidable (s.Acknowledges seg) :=
  inferInstanceAs (Decidable (_ ∧ _))

instance (s : Sender) (seg : Segment) : Decidable (s.Advertises seg) :=
  inferInstanceAs (Decidable (_ ∧ _))

/-- What the peer has said last, after a segment. -/
def Sender.told (s : Sender) (seg : Segment) : Peer :=
  let peer := if s.Acknowledges seg then { s.peer with expects := seg.ack } else s.peer
  if s.Advertises seg then { peer with wnd := seg.wnd, wl1 := seg.seq, wl2 := seg.ack } else peer

/-- Process `pid` takes a turn in the loop of `tcp_send`, or a segment arrives. -/
inductive Turn
  | send (pid : ℕ) (env : Env) (grant : Grant) (mss : Option ℕ) (data : List UInt8)
  | arrive (env : Env) (seg : Segment)

/-- `wakeup` makes every sleeper runnable. -/
def Sender.next (s : Sender) : Turn → Sender
  | .send pid env grant mss data =>
    let r := sendTurn env grant mss data ⟨s.pcb, []⟩
    ⟨r.2.pcb, s.peer,
      if r.1.isSleep then pid :: s.asleep else if r.2.fx.any Effect.isWakeup then [] else s.asleep⟩
  | .arrive env seg =>
    let c := segmentArrives env seg ⟨s.pcb, []⟩
    ⟨c.pcb, s.told seg, if c.fx.any Effect.isWakeup then [] else s.asleep⟩

/-- The code takes up what the segment says: an acknowledgment if that is new, and the window if
that is the latest, or what the block has already. -/
def Sender.Recorded (s : Sender) (seg : Segment) : Prop :=
  (s.Acknowledges seg ↔ TakesAck s.pcb seg) ∧
    ((s.Advertises seg ↔ TakesAck s.pcb seg ∧ s.pcb.snd.older seg = true) ∨
      seg.wnd = s.pcb.snd.wnd)

/-- The block can send, and has the acknowledgment and the window that the peer sent last. -/
structure Sender.Current (s : Sender) : Prop where
  sends : s.pcb.state.sends = true
  una : s.pcb.snd.una = s.peer.expects
  wnd : s.pcb.snd.wnd = s.peer.wnd

/-- Behind the acknowledgment a sender can go on sending, and text or a FIN in ESTABLISHED wakes
it. -/
theorem proceed_sends (seg : Segment) {c : Conn} (h : c.pcb.state.sends = true) :
    (proceed seg c).pcb.state.sends = true ∧
      (c.pcb.state = .established → seg.data ≠ [] ∨ isSet seg.flg flgFin = true →
        (proceed seg c).fx.any Effect.isWakeup = true) := by
  cases hfin : isSet seg.flg flgFin <;> by_cases hdata : seg.data = [] <;>
    cases hstate : c.pcb.state <;> simp [hstate, State.sends] at h <;>
    simp [proceed, finAcked, segmentText, takeText, finBit, hstate, hfin, hdata, Conn.emit,
      State.sends, Effect.isWakeup]

/-- What a segment does to a sender: it takes a new acknowledgment, with the window if that is
newer, or leaves the send variables alone. -/
theorem segmentArrives_sends (env : Env) (seg : Segment) (h : pcb.state.sends = true) :
    (segmentArrives env seg ⟨pcb, []⟩).pcb.state.sends = true ∧
    ((TakesAck pcb seg ∧
        (segmentArrives env seg ⟨pcb, []⟩).pcb.snd = (if pcb.snd.older seg = true then
          { pcb.snd with una := seg.ack, wnd := seg.wnd, wl1 := seg.seq, wl2 := seg.ack }
        else { pcb.snd with una := seg.ack }) ∧
        (pcb.state = .established → seg.data ≠ [] ∨ isSet seg.flg flgFin = true →
          (segmentArrives env seg ⟨pcb, []⟩).fx.any Effect.isWakeup = true)) ∨
      (¬ TakesAck pcb seg ∧ (segmentArrives env seg ⟨pcb, []⟩).pcb.snd = pcb.snd)) := by
  have hdata : pcb.state.acksData = true := by
    cases hstate : pcb.state <;> simp [hstate, State.sends] at h <;> rfl
  obtain ⟨hears, harrives⟩ | ⟨hdeaf, harrives⟩ :=
    segmentArrives_acksData env seg (c := ⟨pcb, []⟩) hdata
  · rw [harrives]
    by_cases hnew : pcb.snd.una < seg.ack ∧ seg.ack ≤ pcb.snd.nxt
    · rw [answer, if_pos hnew, settle_advances_snd]
      cases pcb.snd.older seg with
      | false =>
        obtain ⟨hsends, hwakes⟩ :=
          proceed_sends seg (c := ⟨pcb.advance seg.ack (pcb.cleaned seg.ack), []⟩) h
        exact ⟨hsends, .inl ⟨⟨hdata, hears.2.1, hears.2.2, hnew⟩, rfl, hwakes⟩⟩
      | true =>
        obtain ⟨hsends, hwakes⟩ := proceed_sends seg
          (c := ⟨(pcb.advance seg.ack (pcb.cleaned seg.ack)).takeWindow seg, []⟩) h
        exact ⟨hsends, .inl ⟨⟨hdata, hears.2.1, hears.2.2, hnew⟩, rfl, hwakes⟩⟩
    · obtain ⟨hlt, hle, -⟩ | ⟨-, hsame⟩ := settle_cases seg ⟨pcb, []⟩
      · exact absurd ⟨hlt, hle⟩ hnew
      · refine ⟨?_, .inr ⟨fun htakes => hnew htakes.2.2.2, hsame.snd⟩⟩
        rw [answer, if_neg hnew]
        split_ifs
        · exact (proceed_sends seg (c := ⟨pcb, []⟩) h).1
        · exact h
        · exact (proceed_sends seg (c := ⟨pcb, []⟩) h).1
  · rw [harrives]
    exact ⟨h, .inr ⟨fun htakes => hdeaf ⟨hdata, htakes.2.1, htakes.2.2.1⟩, rfl⟩⟩

variable {s : Sender}

theorem Sender.told_expects (seg : Segment) :
    (s.told seg).expects = if s.Acknowledges seg then seg.ack else s.peer.expects := by
  unfold Sender.told
  split_ifs <;> rfl

theorem Sender.told_wnd (seg : Segment) :
    (s.told seg).wnd = if s.Advertises seg then seg.wnd else s.peer.wnd := by
  unfold Sender.told
  split_ifs <;> rfl

/-- What is recorded becomes the acknowledgment and the window of the block. -/
theorem Sender.Current.arrive (h : s.Current) (hrecorded : s.Recorded seg) :
    (s.next (.arrive env seg)).Current := by
  obtain ⟨hack, hwnd⟩ := hrecorded
  have hsame := h.wnd
  obtain ⟨hsends, ⟨htakes, hsnd, -⟩ | ⟨hold, hsnd⟩⟩ := segmentArrives_sends env seg h.sends
  · refine ⟨hsends, ?_, ?_⟩
    · dsimp only [Sender.next]
      rw [hsnd, Sender.told_expects, if_pos (hack.mpr htakes)]
      split_ifs <;> rfl
    · dsimp only [Sender.next]
      rw [hsnd, Sender.told_wnd]
      split_ifs <;> simp_all
  · refine ⟨hsends, ?_, ?_⟩
    · dsimp only [Sender.next]
      rw [hsnd, Sender.told_expects, if_neg fun hnew => hold (hack.mp hnew), h.una]
    · dsimp only [Sender.next]
      rw [hsnd, Sender.told_wnd]
      split_ifs <;> simp_all

/-- A turn of `tcp_send` whose segment leaves sends at most what the window has room for. -/
theorem send_next (pid : ℕ) (env : Env) {grant : Grant} (hgrant : grant.segment = true)
    (mss : Option ℕ) (data : List UInt8) :
    ∃ n ≤ s.pcb.cap.toNat, (s.next (.send pid env grant mss data)).pcb.state = s.pcb.state ∧
      (s.next (.send pid env grant mss data)).pcb.snd =
        { s.pcb.snd with nxt := s.pcb.snd.nxt + UInt32.ofNat n } := by
  change ∃ n ≤ s.pcb.cap.toNat, (s.pcb.after (.send env grant mss data)).state = _ ∧
    (s.pcb.after (.send env grant mss data)).snd = _
  obtain ⟨-, hsame⟩ | ⟨m, -, -, -, hafter⟩ := send_cases s.pcb env grant mss data
  · exact ⟨0, Nat.zero_le _, by rw [hsame], by rw [hsame]; simp⟩
  · obtain ⟨-, hsent⟩ | ⟨hnone, -⟩ := sendChunk_cases env grant (s.pcb.chunk m data) s.pcb
    · refine ⟨(s.pcb.chunk m data).length, ?_, ?_⟩
      · rw [Pcb.chunk, List.length_take]
        omega
      · rw [hafter, hsent]
        unfold Pcb.queued Pcb.queueAdd
        split_ifs <;> exact ⟨rfl, rfl⟩
    · rw [hgrant] at hnone
      cases hnone

theorem Sender.Current.send (h : s.Current) (pid : ℕ) (env : Env) {grant : Grant}
    (hgrant : grant.segment = true) (mss : Option ℕ) (data : List UInt8) :
    (s.next (.send pid env grant mss data)).Current := by
  obtain ⟨n, -, hstate, hsnd⟩ := send_next (s := s) pid env hgrant mss data
  exact ⟨by rw [hstate, h.sends], by rw [hsnd]; exact h.una, by rw [hsnd]; exact h.wnd⟩

/-! ### Keeping to the window -/

/-- The segments of `tcp_send` leave, what the peer says is recorded, and no advertisement takes
back what is in flight behind its acknowledgment. -/
def Turn.Generous (s : Sender) : Turn → Prop
  | .send _ _ grant _ _ => grant.segment = true
  | .arrive _ seg =>
    s.Recorded seg ∧ (s.Advertises seg → (s.pcb.snd.nxt - seg.ack).toNat ≤ seg.wnd.toNat)

def GenerousStep (s : Sender) (a : Turn) (s' : Sender) : Prop := a.Generous s ∧ s' = s.next a

/-- What a turn of `tcp_send` puts on the wire lies inside the advertised window, and without room
it sleeps. -/
def Sender.Respects (s : Sender) (env : Env) (grant : Grant) (mss : Option ℕ) (data : List UInt8) :
    Prop :=
  (∀ x, .output x ∈ (sendTurn env grant mss data ⟨s.pcb, []⟩).2.fx →
    (x.seq - s.peer.expects).toNat + x.data.length ≤ s.peer.wnd.toNat) ∧
  (s.peer.wnd.toNat ≤ s.inFlight →
    ∀ m ∈ mss, (sendTurn env grant mss data ⟨s.pcb, []⟩).1.isSleep = true)

/-- The window is current, and what is in flight lies inside it. -/
def Sender.Within (s : Sender) : Prop := s.Current ∧ s.inFlight ≤ s.peer.wnd.toNat

/-- Within the window the room that `tcp_send` computes is the room that is left. -/
theorem Sender.Within.cap_eq (h : s.Within) : s.pcb.cap.toNat = s.peer.wnd.toNat - s.inFlight := by
  obtain ⟨hcurrent, hle⟩ := h
  have := s.peer.wnd.toNat_lt
  unfold Sender.inFlight at hle ⊢
  rw [Pcb.cap, hcurrent.wnd, hcurrent.una, UInt32.toNat_sub, UInt16.toNat_toUInt32]
  omega

/-- The segment that a turn sends begins at `snd.nxt`. -/
theorem sendChunk_output {x : Sent} {chunk : List UInt8} {grant : Grant}
    (h : .output x ∈ (sendChunk env grant chunk ⟨pcb, []⟩).2.fx) :
    x.seq = pcb.snd.nxt ∧ x.data = chunk := by
  have hsyn : isSet (flgAck ||| flgPsh) flgSyn = false := by decide
  cases hseg : grant.segment <;> cases hsleeper : env.sleeper <;>
    simp [sendChunk, Conn.outputIn, hseg, Conn.release, hsleeper, Conn.outputSegment, Conn.emit,
      Conn.setState] at h
  all_goals exact ⟨congrArg Sent.seq h, congrArg Sent.data h⟩

/-- A turn of a sender that is within the window keeps to it. -/
theorem Sender.Within.respects (h : s.Within) (env : Env) (grant : Grant) (mss : Option ℕ)
    (data : List UInt8) : s.Respects env grant mss data := by
  have hcap := h.cap_eq
  have hsends := h.1.sends
  constructor
  · intro x hx
    have hsent : ∀ m, .output x ∈ (sendChunk env grant (s.pcb.chunk m data) ⟨s.pcb, []⟩).2.fx →
        (x.seq - s.peer.expects).toNat + x.data.length ≤ s.peer.wnd.toNat := by
      intro m hx
      obtain ⟨hseq, hdata⟩ := sendChunk_output hx
      have hlen : x.data.length ≤ s.pcb.cap.toNat := by
        rw [hdata, Pcb.chunk, List.length_take]
        omega
      have hle := h.2
      rw [hseq]
      unfold Sender.inFlight at hcap hle
      omega
    unfold sendTurn at hx
    cases hstate : s.pcb.state <;> cases mss <;> simp only [hstate] at hx <;> try split at hx
    all_goals first | (cases hx) | exact hsent _ hx
  · rintro hfull m rfl
    have hzero : s.pcb.cap = 0 := UInt32.toNat_inj.mp (by rw [hcap]; simp [hfull])
    cases hstate : s.pcb.state <;> simp [hstate, State.sends] at hsends <;>
      simp [sendTurn, hstate, hzero, SendTurn.isSleep]

/-- A generous step leaves a sender within the window. -/
theorem Sender.Within.next (h : s.Within) {a : Turn} (ha : a.Generous s) : (s.next a).Within := by
  have hle := h.2
  have hcap := h.cap_eq
  unfold Sender.inFlight at hle hcap
  cases a with
  | send pid env grant mss data =>
    refine ⟨h.1.send pid env ha mss data, ?_⟩
    obtain ⟨n, hn, -, hsnd⟩ := send_next (s := s) pid env ha mss data
    rw [UInt32.toNat_sub] at hle hcap
    rw [Sender.inFlight, hsnd, UInt32.toNat_sub, UInt32.toNat_add, UInt32.toNat_ofNat']
    dsimp only [Sender.next]
    omega
  | arrive env seg =>
    have hcurrent : (s.next (.arrive env seg)).Current := h.1.arrive ha.1
    refine ⟨hcurrent, ?_⟩
    rw [Sender.inFlight, ← hcurrent.una]
    unfold Sender.next
    dsimp only
    rw [Sender.told_wnd]
    obtain ⟨-, ⟨htakes, hsnd, -⟩ | ⟨hold, hsnd⟩⟩ := segmentArrives_sends env seg h.1.sends
    · have hahead : (s.pcb.snd.nxt - seg.ack).toNat ≤ (s.pcb.snd.nxt - s.pcb.snd.una).toNat := by
        have hlt := UInt32.lt_iff_toNat_lt.mp htakes.2.2.2.1
        have hbound := UInt32.le_iff_toNat_le.mp htakes.2.2.2.2
        have := s.pcb.snd.nxt.toNat_lt
        rw [UInt32.toNat_sub, UInt32.toNat_sub]
        omega
      have hdiff : ((segmentArrives env seg ⟨s.pcb, []⟩).pcb.snd.nxt -
          (segmentArrives env seg ⟨s.pcb, []⟩).pcb.snd.una) = s.pcb.snd.nxt - seg.ack := by
        rw [hsnd]
        split_ifs <;> rfl
      rw [hdiff]
      split_ifs with hadv
      · exact ha.2 hadv
      · rw [h.1.una] at hahead
        exact hahead.trans hle
    · have hwnd := hcurrent.wnd
      dsimp only [Sender.next] at hwnd
      rw [hsnd, Sender.told_wnd, h.1.wnd] at hwnd
      rw [hsnd, ← hwnd, h.1.una]
      exact hle

/-- In every run in which what the peer says is recorded and takes back nothing that is in flight,
every turn of `tcp_send` keeps to the window. -/
theorem sender_respects_window {start s : Sender} {as : List Turn} (hstart : start.Within)
    (hrun : Run GenerousStep start as s) (env : Env) (grant : Grant) (mss : Option ℕ)
    (data : List UInt8) : s.Respects env grant mss data := by
  have hwithin : s.Within := hrun.invariant (fun _ _ _ h hstep => hstep.2 ▸ h.next hstep.1) hstart
  exact hwithin.respects env grant mss data

/-- A process sends four bytes. -/
def fourBytes : Turn := .send 7 ⟨0, 0, true, true⟩ ⟨true, true⟩ (some 1460) [1, 2, 3, 4]

/-- The opened block, whose peer has granted `wnd`. -/
def opened (wnd : UInt16) : Sender where
  pcb := { openedBlock with snd := { openedBlock.snd with wnd := wnd } }
  peer := ⟨openedBlock.snd.una, wnd, openedBlock.snd.wl1, openedBlock.snd.wl2⟩
  asleep := []

/-- A window update to `wnd` with the acknowledgment of `n` bytes, without text. -/
def windowUpdate (n : UInt32) (wnd : UInt16) : Turn :=
  .arrive ⟨0, 0, true, true⟩ ⟨1, 1 + n, wnd, flgAck, [], ⟨0, 0⟩, ⟨0, 0⟩, Nat.zero_le _⟩

/-- Behind four bytes of 1000, two of which are acknowledged, there is room for another one. -/
theorem sender_respects_four :
    (((opened 1000).next fourBytes).next (windowUpdate 2 500)).Respects
      ⟨0, 0, true, true⟩ ⟨true, true⟩ (some 1460) [5] :=
  sender_respects_window (show (opened 1000).Within from ⟨⟨rfl, rfl, rfl⟩, by decide⟩)
    (.cons (a := fourBytes) ⟨rfl, rfl⟩ (.cons (a := windowUpdate 2 500)
      ⟨⟨⟨by unfold TakesAck; decide, .inl (by unfold TakesAck; decide)⟩, fun _ => by decide⟩, rfl⟩
        (.nil _))) _ _ _ _

/-- Four bytes are in flight when the peer acknowledges two and grants one: the difference wraps
around, and the next byte is sent behind the window. -/
theorem sender_overruns_window :
    let s := ((opened 1000).next fourBytes).next (windowUpdate 2 1)
    s.peer.wnd = 1 ∧ s.inFlight = 2 ∧
      ¬ s.Respects ⟨0, 0, true, true⟩ ⟨true, true⟩ (some 1460) [5] := by
  refine ⟨by decide, by decide, fun h => ?_⟩
  exact absurd (h.2 (by decide) 1460 rfl) (by decide)

/-! ### Waking the sender -/

/-- The segments of `tcp_send` leave, what the peer says is recorded, and while a process sleeps a
new acknowledgment comes with text or a FIN in ESTABLISHED. -/
def Turn.Rousing (s : Sender) : Turn → Prop
  | .send _ _ grant _ _ => grant.segment = true
  | .arrive _ seg => s.Recorded seg ∧ (s.asleep ≠ [] → s.Acknowledges seg →
      s.pcb.state = .established ∧ (seg.data ≠ [] ∨ isSet seg.flg flgFin = true))

def RousingStep (s : Sender) (a : Turn) (s' : Sender) : Prop := a.Rousing s ∧ s' = s.next a

/-- The window is current, and while a process sleeps there is no room in it. -/
def Sender.Justified (s : Sender) : Prop := s.Current ∧ (s.asleep ≠ [] → s.pcb.cap = 0)

/-- A turn of `tcp_send` without room leaves the block alone, one with room does not sleep. -/
theorem send_asleep (pid : ℕ) (env : Env) (grant : Grant) (mss : Option ℕ) (data : List UInt8)
    (h : s.Justified) : (s.pcb.cap = 0 → (s.next (.send pid env grant mss data)).pcb = s.pcb) ∧
      (s.pcb.cap ≠ 0 → (s.next (.send pid env grant mss data)).asleep = []) := by
  have hchunk : ∀ chunk, (sendChunk env grant chunk ⟨s.pcb, []⟩).1.isSleep = false := by
    intro chunk
    unfold sendChunk
    split <;> rfl
  constructor
  · intro hcap
    obtain ⟨-, hsame⟩ | ⟨m, -, -, hne, -⟩ := send_cases s.pcb env grant mss data
    · exact hsame
    · exact absurd hcap hne
  · intro hcap
    have hnone : s.asleep = [] := by
      by_contra hasleep
      exact hcap (h.2 hasleep)
    have hawake : (sendTurn env grant mss data ⟨s.pcb, []⟩).1.isSleep = false := by
      unfold sendTurn
      split
      · rw [if_neg hcap, hchunk]
      · rw [if_neg hcap, hchunk]
      · rfl
    dsimp only [Sender.next]
    rw [hawake, hnone]
    simp

/-- A rousing step wakes everybody when it makes room. -/
theorem Sender.Justified.next (h : s.Justified) {a : Turn} (ha : a.Rousing s) :
    (s.next a).Justified := by
  cases a with
  | send pid env grant mss data =>
    refine ⟨h.1.send pid env ha mss data, fun hasleep => ?_⟩
    obtain ⟨hfull, hroom⟩ := send_asleep pid env grant mss data h
    by_cases hcap : s.pcb.cap = 0
    · rw [hfull hcap, hcap]
    · exact absurd (hroom hcap) hasleep
  | arrive env seg =>
    refine ⟨h.1.arrive ha.1, fun hasleep => ?_⟩
    dsimp only [Sender.next] at hasleep ⊢
    split at hasleep
    · exact absurd rfl hasleep
    · obtain ⟨-, ⟨htakes, -, hwakes⟩ | ⟨-, hsnd⟩⟩ := segmentArrives_sends env seg h.1.sends
      · obtain ⟨hestablished, hmore⟩ := ha.2 hasleep (ha.1.1.mpr htakes)
        exact absurd (hwakes hestablished hmore) ‹_›
      · rw [Pcb.cap, hsnd]
        exact h.2 hasleep

/-- A process behind the first one finds a window of four bytes full. -/
def oneMore : Turn := .send 8 ⟨0, 0, true, true⟩ ⟨true, true⟩ (some 1460) [5]

end Xv6.Tcp
