import Mathlib.Data.List.Basic
import Xv6.Net.Tcp

/-!
# Shifting the sequence numbers of a TCP connection

Sequence numbers matter only through their differences: adding one constant to all numbers of
the receive side and another to all numbers of the send side, modulo `2 ^ 32`, should commute
with `tcp_segment_arrives`. The comparisons of the source are those of unsigned numbers, so it
does exactly when every comparison on the way comes out as before.

The processing is cut in two. `verdict` makes all order comparisons, `obey` does what they
decided and compares no more; `obey` commutes with every shift.
-/

namespace Xv6.Tcp

open Function

/-! ### Shifts -/

section Shift

variable (a b : UInt32)

def QueueEntry.shift (e : QueueEntry) : QueueEntry := { e with seq := e.seq + b }

def Snd.shift (snd : Snd) : Snd := ⟨snd.nxt + b, snd.una + b, snd.wnd, snd.wl1 + a, snd.wl2 + b⟩

def Rcv.shift (rcv : Rcv) : Rcv := { rcv with nxt := rcv.nxt + a }

/-- The receive side moves by `a`, the send side by `b`. -/
def Pcb.shift (pcb : Pcb) : Pcb := { pcb with
  snd := pcb.snd.shift a b, iss := pcb.iss + b, rcv := pcb.rcv.shift a, irs := pcb.irs + a
  queue := pcb.queue.map (·.shift b) }

/-- A block fresh from a listener has no `snd.wl1` and `snd.wl2` yet. -/
def Pcb.shiftFresh (pcb : Pcb) : Pcb :=
  { pcb.shift a b with snd := { pcb.snd.shift a b with wl1 := pcb.snd.wl1, wl2 := pcb.snd.wl2 } }

def Segment.shift (seg : Segment) : Segment := { seg with seq := seg.seq + a, ack := seg.ack + b }

def Env.shift (env : Env) : Env := { env with random := env.random + b }

/-- A reset that answers a segment without acknowledgment has sequence number 0; a segment without
ACK has acknowledgment 0. -/
def Sent.shift (s : Sent) : Sent := { s with
  seq := if s.flg = flgRst ||| flgAck then s.seq else s.seq + b
  ack := if isSet s.flg flgAck then s.ack + a else s.ack }

def Effect.shift : Effect → Effect
  | .output s => .output (s.shift a b)
  | .spawn pcb => .spawn (pcb.shiftFresh a b)
  | .wakeup => .wakeup
  | .backlog parent => .backlog parent

def Conn.shift (c : Conn) : Conn := ⟨c.pcb.shift a b, c.fx.map (·.shift a b)⟩

end Shift

section Inverse

variable (a b : UInt32)

@[simp] theorem add_neg_self (x : UInt32) : x + b + -b = x := by
  rw [UInt32.add_assoc, UInt32.add_right_neg, UInt32.add_zero]

@[simp] theorem QueueEntry.shift_neg (e : QueueEntry) : (e.shift b).shift (-b) =
    e := by simp [QueueEntry.shift]

theorem Pcb.shift_neg (pcb : Pcb) : (pcb.shift a b).shift (-a) (-b) = pcb := by
  simp [Pcb.shift, Snd.shift, Rcv.shift, comp_def]

theorem Pcb.shiftFresh_neg (pcb : Pcb) : (pcb.shiftFresh a b).shiftFresh (-a) (-b) = pcb := by
  simp [Pcb.shiftFresh, Pcb.shift, Snd.shift, Rcv.shift, comp_def]

theorem Sent.shift_neg (s : Sent) : (s.shift a b).shift (-a) (-b) = s := by
  unfold Sent.shift
  split_ifs <;> simp

theorem Effect.shift_neg (e : Effect) : (e.shift a b).shift (-a) (-b) = e := by
  cases e <;> simp [Effect.shift, Sent.shift_neg, Pcb.shiftFresh_neg]

theorem Conn.shift_injective : Injective (Conn.shift a b) :=
  LeftInverse.injective (g := Conn.shift (-a) (-b)) fun c => by
    simp [Conn.shift, Pcb.shift_neg, Effect.shift_neg, comp_def]

end Inverse

/-! ### The comparisons -/

/-- What an acknowledgment does from ESTABLISHED on. -/
inductive Answer
  /-- `snd.una` moves on, that many entries leave the retransmit queue, and the window is taken or
  not. -/
  | advances (dropped : ℕ) (newer : Bool)
  /-- It lies beyond `snd.nxt`. -/
  | beyond
  /-- Processing goes on without it. -/
  | ignored
  deriving DecidableEq

/-- What the order comparisons decide about a segment. -/
inductive Verdict
  /-- Nothing is compared. -/
  | plain
  /-- The acknowledgment is answered by a reset. -/
  | refused
  /-- In SYN-SENT, a segment without SYN. -/
  | noSyn (acceptable : Bool)
  /-- In SYN-SENT, the peer's SYN: the entries dropped if it is acknowledged, and whether the
  handshake ends. -/
  | syn (dropped : Option ℕ) (completes : Bool)
  /-- Outside the window. -/
  | outside
  /-- Inside the window, without ACK. -/
  | noAck
  /-- Inside the window, in LAST-ACK. -/
  | lastAck
  | acked (answer : Answer)
  deriving DecidableEq

/-- The number of entries that a cleanup for `una` drops. -/
def Pcb.cleaned (pcb : Pcb) (una : UInt32) : ℕ := (pcb.queue.takeWhile (·.seq < una)).length

/-- The test of `snd.wl1` and `snd.wl2`. -/
def Snd.older (snd : Snd) (seg : Segment) : Bool :=
  snd.wl1 < seg.seq ∨ (snd.wl1 = seg.seq ∧ snd.wl2 ≤ seg.ack)

def answer (seg : Segment) (pcb : Pcb) : Answer :=
  if pcb.snd.una < seg.ack ∧ seg.ack ≤ pcb.snd.nxt then .advances (pcb.cleaned seg.ack) (pcb.snd.older seg)
  else if seg.ack < pcb.snd.una then .ignored
  else if seg.ack > pcb.snd.nxt then .beyond
  else .ignored

/-- The acknowledgment does not belong to the SYN sent. -/
def Pcb.refuses (pcb : Pcb) (seg : Segment) : Bool :=
  isSet seg.flg flgAck ∧ (seg.ack ≤ pcb.iss ∨ seg.ack > pcb.snd.nxt)

/-- The variable `acceptable` at the end of the call. -/
def accepted (seg : Segment) (pcb : Pcb) : Bool :=
  match pcb.state with
  | .synSent => isSet seg.flg flgAck ∧ pcb.refuses seg = false ∧ pcb.snd.una ≤ seg.ack
  | state => state.checksWindow && pcb.acceptable seg

def synVerdict (seg : Segment) (pcb : Pcb) : Verdict :=
  if pcb.refuses seg then .refused
  else if isSet seg.flg flgSyn then
    if accepted seg pcb then .syn (some (pcb.cleaned seg.ack)) (seg.ack > pcb.iss)
    else .syn none (pcb.snd.una > pcb.iss)
  else .noSyn (accepted seg pcb)

/-- What the order comparisons decide. -/
def verdict (seg : Segment) (pcb : Pcb) : Verdict :=
  match pcb.state with
  | .free | .closed | .listen | .closing | .timeWait => .plain
  | .synSent => synVerdict seg pcb
  | state =>
    if !pcb.acceptable seg then .outside
    else if !isSet seg.flg flgAck then .noAck
    else if state = .lastAck then .lastAck
    else if state = .synReceived ∧ ¬(pcb.snd.una ≤ seg.ack ∧ seg.ack ≤ pcb.snd.nxt) then .refused
    else .acked (answer seg pcb)

/-! ### The processing without comparisons -/

/-- The acknowledgment and the cleanup, with the number of entries to drop. -/
def Pcb.advance (pcb : Pcb) (una : UInt32) (dropped : ℕ) : Pcb :=
  { pcb with snd := { pcb.snd with una := una }, queue := pcb.queue.drop dropped }

/-- The window update. -/
def Pcb.takeWindow (pcb : Pcb) (seg : Segment) : Pcb :=
  { pcb with snd := { pcb.snd with wnd := seg.wnd, wl1 := seg.seq, wl2 := seg.ack } }

/-- The steps behind the acknowledgment of data. -/
def proceed (seg : Segment) (c : Conn) : Conn := finBit seg (segmentText seg (finAcked seg c))

def settle (seg : Segment) (c : Conn) : Answer → Conn
  | .advances dropped newer =>
    let pcb := c.pcb.advance seg.ack dropped
    proceed seg { c with pcb := if newer then pcb.takeWindow seg else pcb }
  | .beyond => c.output flgAck []
  | .ignored => proceed seg c

/-- The handshake of a passive open is complete. -/
def completeHandshake (c : Conn) : Conn :=
  if c.pcb.state = .synReceived then ((c.setState .established).emit .wakeup).joinBacklog else c

/-- The peer's SYN and its acknowledgment. -/
def Pcb.hear (pcb : Pcb) (seg : Segment) (dropped : Option ℕ) : Pcb :=
  let pcb := { pcb with rcv := { pcb.rcv with nxt := seg.seq + 1 }, irs := seg.seq }
  match dropped with
  | some dropped => pcb.advance seg.ack dropped
  | none => pcb

/-- The peer's SYN in SYN-SENT. -/
def synchronize (seg : Segment) (dropped : Option ℕ) (completes : Bool) (c : Conn) : Conn :=
  let c : Conn := { c with pcb := c.pcb.hear seg dropped }
  if completes then
    let c := (c.setState .established).output flgAck []
    { c with pcb := c.pcb.takeWindow seg }.emit .wakeup
  else (c.setState .synReceived).output (flgSyn ||| flgAck) []

def obey (env : Env) (seg : Segment) (c : Conn) : Verdict → Conn
  | .plain =>
    match c.pcb.state with
    | .closed => closedArrives seg c
    | .listen => listenArrives env seg c
    | _ => if isSet seg.flg flgAck then finBit seg c else c
  | .refused => c.resetAck seg
  | .noSyn _ => c
  | .syn dropped completes => synchronize seg dropped completes c
  | .outside => if isSet seg.flg flgRst then c else c.output flgAck []
  | .noAck => c
  | .lastAck => if seg.ack = c.pcb.snd.nxt then (c.setState .closed).release env else c
  | .acked answer => settle seg (completeHandshake c) answer

/-- The states in which acknowledgments of data are processed. -/
def State.acksData : State → Bool
  | .established | .finWait1 | .finWait2 | .closeWait => true
  | _ => false

theorem completeHandshake_pcb (c : Conn) : (completeHandshake c).pcb =
    if c.pcb.state = .synReceived then { c.pcb with state := .established } else c.pcb := by
  unfold completeHandshake
  split
  · unfold Conn.joinBacklog
    split <;> rfl
  · rfl

theorem drop_cleaned (pcb : Pcb) (una : UInt32) :
    pcb.queue.drop (pcb.cleaned una) = pcb.queue.dropWhile (·.seq < una) := by
  conv_lhs => rw [← List.takeWhile_append_dropWhile (p := (·.seq < una)) (l := pcb.queue)]
  exact List.drop_left' rfl

theorem queueCleanup_eq (pcb : Pcb) (una : UInt32) :
    { pcb with snd := { pcb.snd with una := una } }.queueCleanup = pcb.advance una (pcb.cleaned una) := by
  simp only [Pcb.queueCleanup, Pcb.advance, drop_cleaned]

/-- The acknowledgment field from ESTABLISHED on and the steps behind it. -/
theorem establishedAck_eq (seg : Segment) (c : Conn) :
    (match establishedAck seg c with
      | (c, true) => finBit seg (segmentText seg c)
      | (c, false) => c) = settle seg c (answer seg c.pcb) := by
  unfold establishedAck dataAck answer
  by_cases hnew : c.pcb.snd.una < seg.ack ∧ seg.ack ≤ c.pcb.snd.nxt
  · have holder : c.pcb.snd.older seg = true ↔
        c.pcb.snd.wl1 < seg.seq ∨ (c.pcb.snd.wl1 = seg.seq ∧ c.pcb.snd.wl2 ≤ seg.ack) := by simp [Snd.older]
    simp only [hnew, and_self, if_true, queueCleanup_eq, settle, proceed, holder]
    rfl
  · simp only [hnew, if_false]
    by_cases hold : seg.ack < c.pcb.snd.una
    · simp only [hold, if_true, settle, proceed]
    · by_cases hbeyond : seg.ack > c.pcb.snd.nxt
      · simp only [hold, hbeyond, if_true, if_false, settle]
      · simp only [hold, hbeyond, if_false, settle, proceed]

theorem peerSyn_eq (seg : Segment) (pcb : Pcb) (acceptable : Bool) :
    peerSyn seg acceptable pcb = pcb.hear seg (if acceptable then some (pcb.cleaned seg.ack) else none) := by
  cases acceptable with
  | false => rfl
  | true => exact queueCleanup_eq _ _

section

variable (env : Env) (seg : Segment) (c : Conn)

theorem synSentArrives_eq (h : c.pcb.state = .synSent) :
    synSentArrives seg c = obey env seg c (synVerdict seg c.pcb) := by
  unfold synSentArrives synVerdict
  by_cases hrefused : c.pcb.refuses seg = true
  · have htest := hrefused
    simp only [Pcb.refuses, decide_eq_true_eq] at htest
    simp only [hrefused, htest, and_self, if_true, obey]
  · have htest := hrefused
    simp only [Pcb.refuses, decide_eq_true_eq] at htest
    simp only [hrefused, htest, if_false, Bool.false_eq_true]
    have hacc : (isSet seg.flg flgAck = true ∧ c.pcb.snd.una ≤ seg.ack ∧ seg.ack ≤ c.pcb.snd.nxt) ↔
        accepted seg c.pcb = true := by
      simp only [accepted, h, decide_eq_true_eq, eq_false_of_ne_true hrefused, true_and]
      constructor
      · exact fun hall => ⟨hall.1, hall.2.1⟩
      · intro hall
        rw [not_and_or, not_or, UInt32.not_lt] at htest
        exact ⟨hall.1, hall.2, (htest.resolve_left (not_not.mpr hall.1)).2⟩
    simp only [hacc, peerSyn_eq]
    split
    · cases hval : accepted seg c.pcb with
      | false => simp [obey, synchronize, Pcb.hear, Pcb.takeWindow]
      | true => simp [obey, synchronize, Pcb.hear, Pcb.takeWindow, Pcb.advance]
    · rfl

/-- In the states behind the closing handshake nothing is compared. -/
theorem otherArrives_plain (h : c.pcb.state = .free ∨ c.pcb.state = .closing ∨ c.pcb.state = .timeWait) :
    otherArrives env seg c = obey env seg c .plain := by
  unfold otherArrives
  obtain h | h | h := h <;> cases hack : isSet seg.flg flgAck <;>
    simp [h, hack, State.checksWindow, ackField, segmentText, obey]

/-- The acknowledgment field behind the window test, and the steps behind it. -/
theorem ackField_eq (h : c.pcb.state.acksData = true ∨
      c.pcb.state = .synReceived ∧ c.pcb.snd.una ≤ seg.ack ∧ seg.ack ≤ c.pcb.snd.nxt) :
    (match ackField env seg c with
      | (c, true) => finBit seg (segmentText seg c)
      | (c, false) => c) = obey env seg c (.acked (answer seg c.pcb)) := by
  have hack : ackField env seg c = establishedAck seg (completeHandshake c) := by
    obtain h | ⟨h, hack⟩ := h
    · cases hstate : c.pcb.state <;> simp [hstate, State.acksData] at h <;>
        simp [ackField, completeHandshake, hstate]
    · simp [ackField, completeHandshake, h, hack]
  have hanswer : answer seg (completeHandshake c).pcb = answer seg c.pcb := by
    rw [completeHandshake_pcb]
    split <;> rfl
  rw [hack, establishedAck_eq, obey, hanswer]

/-- `tcp_segment_arrives` compares, and then does what the comparisons decided. -/
theorem segmentArrives_eq :
    segmentArrives env seg c = obey env seg c (verdict seg c.pcb) := by
  -- behind the window test the states differ only in the acknowledgment field
  have hwindow : c.pcb.state.checksWindow = true → otherArrives env seg c = obey env seg c (
      if !c.pcb.acceptable seg then .outside
      else if !isSet seg.flg flgAck then .noAck
      else if c.pcb.state = .lastAck then .lastAck
      else if c.pcb.state = .synReceived ∧ ¬(c.pcb.snd.una ≤ seg.ack ∧ seg.ack ≤ c.pcb.snd.nxt) then .refused
      else .acked (answer seg c.pcb)) := by
    intro hchecks
    unfold otherArrives
    cases hacc : c.pcb.acceptable seg with
    | false => cases hrst : isSet seg.flg flgRst <;> simp [hchecks, hrst, obey]
    | true =>
      cases hack : isSet seg.flg flgAck with
      | false => simp [obey]
      | true =>
        cases hstate : c.pcb.state with
        | lastAck => simp [ackField, hstate, obey]
        | synReceived =>
          by_cases hok : c.pcb.snd.una ≤ seg.ack ∧ seg.ack ≤ c.pcb.snd.nxt
          · exact (ackField_eq env seg c (.inr ⟨hstate, hok⟩)).trans (by simp [hok])
          · simp [ackField, hstate, hok, obey]
        | established | finWait1 | finWait2 | closeWait =>
            exact (ackField_eq env seg c (.inl (by rw [hstate]; rfl))).trans (by simp)
        | _ => simp [hstate, State.checksWindow] at hchecks
  unfold segmentArrives verdict
  cases hstate : c.pcb.state with
  | closed | listen => simp only [obey, hstate]
  | synSent => exact synSentArrives_eq env seg c hstate
  | free | closing | timeWait => exact otherArrives_plain env seg c (by simp [hstate])
  | _ =>
    rw [hstate] at hwindow
    exact hwindow rfl

end

/-! ### Processing commutes with shifts -/

section Commute

variable (a b : UInt32) (env : Env) (seg : Segment) (c : Conn)

@[simp] theorem shift_state : (c.shift a b).pcb.state = c.pcb.state := rfl

@[simp] theorem shift_flg : (seg.shift a b).flg = seg.flg := rfl

@[simp] theorem shift_len : (seg.shift a b).len = seg.len := rfl

@[simp] theorem shift_data : (seg.shift a b).data = seg.data := rfl

@[simp] theorem shift_seq : (seg.shift a b).seq = seg.seq + a := rfl

@[simp] theorem shift_ack : (seg.shift a b).ack = seg.ack + b := rfl

@[simp] theorem shift_localEp : (seg.shift a b).localEp = seg.localEp := rfl

@[simp] theorem shift_foreignEp : (seg.shift a b).foreignEp = seg.foreignEp := rfl

theorem add_shift (x y : UInt32) : x + a + y = x + y + a := by ac_rfl

theorem emit_shift (e : Effect) : (c.shift a b).emit (e.shift a b) = (c.emit e).shift a b := by
  simp [Conn.emit, Conn.shift]

theorem emit_wakeup_shift : (c.shift a b).emit .wakeup = (c.emit .wakeup).shift a b :=
  emit_shift a b c .wakeup

theorem setState_shift (state : State) : (c.shift a b).setState state = (c.setState state).shift a b := rfl

/-- The fields of a segment with ACK are those of the block. -/
theorem output_shift {flg : UInt8} (hack : isSet flg flgAck = true) (hrst : flg ≠ flgRst ||| flgAck) :
    (c.shift a b).output flg [] = (c.output flg []).shift a b := by
  cases hsyn : isSet flg flgSyn <;> cases hadd : isSet flg (flgSyn ||| flgFin) <;>
    simp [queueEntrySize, memoryMax, Conn.output, Conn.outputIn, Pcb.queueAdd, Conn.outputSegment, Conn.emit,
      Conn.shift, Pcb.shift, Snd.shift, Rcv.shift, QueueEntry.shift, Effect.shift, Sent.shift, hack,
        hrst, hsyn, hadd]

theorem output_ack_shift : (c.shift a b).output flgAck [] = (c.output flgAck []).shift a b :=
  output_shift a b c (by decide) (by decide)

theorem output_synAck_shift :
    (c.shift a b).output (flgSyn ||| flgAck) [] = (c.output (flgSyn ||| flgAck) []).shift a b :=
  output_shift a b c (by decide) (by decide)

theorem resetAck_shift : (c.shift a b).resetAck (seg.shift a b) = (c.resetAck seg).shift a b := by
  have hrst : flgRst ≠ flgRst ||| flgAck := by decide
  have hack : isSet flgRst flgAck = false := by decide
  simp [Conn.resetAck, Conn.outputSegment, Conn.emit, Conn.shift, Effect.shift, Sent.shift, hrst, hack]

theorem closedArrives_shift : closedArrives (seg.shift a b)
    (c.shift a b) = (closedArrives seg c).shift a b := by
  have hack : isSet (flgRst ||| flgAck) flgAck = true := by decide
  unfold closedArrives
  simp only [shift_flg, resetAck_shift]
  split
  · rfl
  · split
    · simp [Conn.outputSegment, Conn.emit, Conn.shift, Effect.shift, Sent.shift, hack, add_shift]
    · rfl

/-- The block and the segment that a SYN leads to. -/
theorem acceptSyn_eq : acceptSyn env seg c = ⟨{ c.pcb with
    state := .synReceived, localEp := seg.localEp, foreignEp := seg.foreignEp
    snd := { c.pcb.snd with nxt := env.random + 1, una := env.random }, iss := env.random
    rcv := ⟨seg.seq + 1, UInt16.ofNat rcvBufSize⟩, irs := seg.seq
    queue := c.pcb.queue ++ [⟨env.random, flgSyn ||| flgAck, []⟩] },
    c.fx ++ [.output ⟨env.random, seg.seq + 1, flgSyn ||| flgAck, UInt16.ofNat rcvBufSize, [], seg.localEp,
      seg.foreignEp⟩]⟩ := rfl

theorem synAck_shift (s : Sent) (h : s.flg = flgSyn ||| flgAck) :
    s.shift a b = { s with seq := s.seq + b, ack := s.ack + a } := by
  have hrst : flgSyn ||| flgAck ≠ flgRst ||| flgAck := by decide
  have hack : isSet (flgSyn ||| flgAck) flgAck = true := by decide
  simp only [Sent.shift, h, hrst, hack, if_true, if_false]

theorem acceptSyn_shift :
    acceptSyn (env.shift b) (seg.shift a b) (c.shift a b) = (acceptSyn env seg c).shift a b := by
  simp [acceptSyn_eq, Conn.shift, Pcb.shift, Snd.shift, Rcv.shift, QueueEntry.shift, Effect.shift,
    synAck_shift,
    Env.shift, add_shift]

/-- A new block starts with zeros whatever the shift. -/
theorem acceptSyn_shiftFresh (pcb : Pcb) (hqueue : pcb.queue = []) (fx : List Effect) :
    acceptSyn (env.shift b) (seg.shift a b) ⟨pcb, fx.map (·.shift a b)⟩ =
      ⟨(acceptSyn env seg ⟨pcb, fx⟩).pcb.shiftFresh a b,
        (acceptSyn env seg ⟨pcb, fx⟩).fx.map (·.shift a b)⟩ := by
  simp [acceptSyn_eq, Pcb.shiftFresh, Pcb.shift, Snd.shift, Rcv.shift, QueueEntry.shift,
    Effect.shift, synAck_shift,
    Env.shift, add_shift, hqueue]

theorem listenArrives_shift :
    listenArrives (env.shift b) (seg.shift a b) (c.shift a b) = (listenArrives env seg c).shift a b := by
  unfold listenArrives
  simp only [shift_flg, resetAck_shift, acceptSyn_shift]
  split
  · rfl
  · split
    · rfl
    · split
      · cases hmode : c.pcb.mode with
        | rfc793 => simp [Conn.shift, Pcb.shift, hmode]
        | socket =>
          cases hroom : env.room with
          | false => simp [Conn.shift, Pcb.shift, hmode, Env.shift, hroom]
          | true =>
            have hchild := acceptSyn_shiftFresh a b env seg
              { Pcb.zero with state := .closed, mode := .socket, parent := some env.self } rfl c.fx
            have hmode' : (c.shift a b).pcb.mode = .socket := hmode
            have hroom' : (env.shift b).room = true := hroom
            simp only [hmode', hroom', if_true]
            refine (congrArg (fun d : Conn => Conn.mk (c.shift a b).pcb
              (d.fx ++ [.spawn d.pcb])) hchild).trans ?_
            simp [Conn.shift, Effect.shift]
      · rfl

theorem joinBacklog_shift : (c.shift a b).joinBacklog = c.joinBacklog.shift a b := by
  cases hparent : c.pcb.parent with
  | none => simp [Conn.joinBacklog, Conn.shift, Pcb.shift, hparent]
  | some parent =>
    simp [Conn.joinBacklog, Conn.shift, Pcb.shift, hparent, Conn.emit, Effect.shift]

theorem completeHandshake_shift : completeHandshake (c.shift a b) = (completeHandshake c).shift a b := by
  unfold completeHandshake
  simp only [shift_state, setState_shift, emit_wakeup_shift, joinBacklog_shift]
  split <;> rfl

theorem shift_ack_eq_nxt : (seg.shift a b).ack = (c.shift a b).pcb.snd.nxt ↔ seg.ack = c.pcb.snd.nxt :=
  UInt32.add_left_inj b

theorem finAcked_shift : finAcked (seg.shift a b) (c.shift a b) = (finAcked seg c).shift a b := by
  unfold finAcked
  simp only [shift_ack_eq_nxt, shift_state]
  split <;> rfl

theorem takeText_shift : takeText (seg.shift a b) (c.shift a b) = (takeText seg c).shift a b := by
  unfold takeText
  rw [← emit_wakeup_shift, ← output_ack_shift]
  simp [Conn.shift, Pcb.shift, Rcv.shift, add_shift]

theorem segmentText_shift : segmentText (seg.shift a b) (c.shift a b) = (segmentText seg c).shift a b := by
  unfold segmentText
  simp only [shift_state, shift_data, takeText_shift]
  split <;> (try split) <;> rfl

theorem finBit_shift : finBit (seg.shift a b) (c.shift a b) = (finBit seg c).shift a b := by
  have hnxt : ({ (c.shift a b) with pcb := { (c.shift a b).pcb with
      rcv := { (c.shift a b).pcb.rcv with nxt := (seg.shift a b).seq + 1 } } } : Conn) =
      ({ c with pcb := { c.pcb with rcv := { c.pcb.rcv with nxt := seg.seq + 1 } } } : Conn).shift a b := by
    simp [Conn.shift, Pcb.shift, Rcv.shift, add_shift]
  unfold finBit
  simp only [shift_flg, hnxt, output_ack_shift, setState_shift, emit_wakeup_shift, shift_ack_eq_nxt]
  cases isSet seg.flg flgFin with
  | false => rfl
  | true =>
    cases hstate : c.pcb.state <;> simp [hstate, Conn.output, Conn.outputIn, Conn.outputSegment, Conn.emit]

theorem proceed_shift : proceed (seg.shift a b) (c.shift a b) = (proceed seg c).shift a b := by
  simp only [proceed, finAcked_shift, segmentText_shift, finBit_shift]

theorem settle_shift (answer : Answer) :
    settle (seg.shift a b) (c.shift a b) answer = (settle seg c answer).shift a b := by
  cases answer with
  | advances dropped newer =>
    have hadvance : (c.shift a b).pcb.advance (seg.shift a b).ack dropped =
      (c.pcb.advance seg.ack dropped).shift a b :=
      by simp [Conn.shift, Pcb.advance, Pcb.shift, Snd.shift]
    cases newer with
    | true =>
      simp only [settle, hadvance]
      exact proceed_shift a b seg ⟨(c.pcb.advance seg.ack dropped).takeWindow seg, c.fx⟩
    | false =>
      simp only [settle, hadvance]
      exact proceed_shift a b seg ⟨c.pcb.advance seg.ack dropped, c.fx⟩
  | beyond => exact output_ack_shift a b c
  | ignored => exact proceed_shift a b seg c

theorem hear_shift (pcb : Pcb) (dropped : Option ℕ) :
    (pcb.shift a b).hear (seg.shift a b) dropped = (pcb.hear seg dropped).shift a b := by
  cases dropped <;> simp [Pcb.hear, Pcb.advance, Pcb.shift, Snd.shift, Rcv.shift, add_shift]

theorem synchronize_shift (dropped : Option ℕ) (completes : Bool) :
    synchronize (seg.shift a b) dropped completes (c.shift a b) =
      (synchronize seg dropped completes c).shift a b := by
  have hhear : ({ c.shift a b with pcb := (c.shift a b).pcb.hear (seg.shift a b) dropped } : Conn) =
      ({ c with pcb := c.pcb.hear seg dropped } : Conn).shift a b :=
    congrArg (Conn.mk · _) (hear_shift a b seg c.pcb dropped)
  cases completes with
  | false => simp only [synchronize, hhear, setState_shift, output_synAck_shift, Bool.false_eq_true, if_false]
  | true =>
    simp only [synchronize, hhear, setState_shift, output_ack_shift]
    exact emit_wakeup_shift a b
      ⟨((({ c with pcb := c.pcb.hear seg dropped } : Conn).setState .established).output
      flgAck []).pcb.takeWindow seg, _⟩

/-- What the comparisons decided is done up to the shift, unless the block is released. -/
theorem obey_shift {v : Verdict} (h : v ≠ .lastAck) :
    obey (env.shift b) (seg.shift a b) (c.shift a b) v = (obey env seg c v).shift a b := by
  cases v with
  | plain =>
    simp only [obey, shift_state, shift_flg, closedArrives_shift, listenArrives_shift, finBit_shift]
    split
    · rfl
    · rfl
    · split <;> rfl
  | refused => exact resetAck_shift a b seg c
  | noSyn acceptable => rfl
  | syn dropped completes => exact synchronize_shift a b seg c dropped completes
  | outside =>
    simp only [obey, shift_flg, output_ack_shift]
    split <;> rfl
  | noAck => rfl
  | lastAck => exact absurd rfl h
  | acked answer =>
    simp only [obey, completeHandshake_shift, settle_shift]

end Commute

/-! ### What the outcome tells of the comparisons -/

variable {pcb : Pcb} {fx : List Effect}

section Exact

variable {env : Env} {seg : Segment} {c : Conn}

/-- An acknowledgment leaves the block alone. -/
theorem output_ack_eq (c : Conn) :
    c.output flgAck [] = ⟨c.pcb, c.fx ++ [.output ⟨c.pcb.snd.nxt, c.pcb.rcv.nxt, flgAck,
    c.pcb.rcv.wnd, [], c.pcb.localEp, c.pcb.foreignEp⟩]⟩ := rfl

/-- Two blocks with the same send side and retransmit queue. -/
structure SameSend (pcb pcb' : Pcb) : Prop where
  snd : pcb'.snd = pcb.snd
  iss : pcb'.iss = pcb.iss
  queue : pcb'.queue = pcb.queue

theorem SameSend.trans {p q r : Pcb} (h : SameSend p q) (h' : SameSend q r) : SameSend p r :=
  ⟨h'.snd.trans h.snd, h'.iss.trans h.iss, h'.queue.trans h.queue⟩

theorem finBit_sameSend (seg : Segment) (c : Conn) : SameSend c.pcb (finBit seg c).pcb := by
  unfold finBit
  split
  · split
    · exact ⟨rfl, rfl, rfl⟩
    · exact ⟨rfl, rfl, rfl⟩
    · dsimp only
      split <;> exact ⟨rfl, rfl, rfl⟩
  · exact ⟨rfl, rfl, rfl⟩

/-- Behind the acknowledgment the send side and the retransmit queue stay. -/
theorem proceed_sameSend (seg : Segment) (c : Conn) : SameSend c.pcb (proceed seg c).pcb := by
  have hacked : SameSend c.pcb (finAcked seg c).pcb := by
    unfold finAcked
    split <;> exact ⟨rfl, rfl, rfl⟩
  have htext : SameSend (finAcked seg c).pcb (segmentText seg (finAcked seg c)).pcb := by
    unfold segmentText
    split <;> (try split) <;> exact ⟨rfl, rfl, rfl⟩
  exact (hacked.trans htext).trans (finBit_sameSend seg _)

/-- The states of a connection from the handshake to the release. -/
def State.started : State → Bool
  | .established | .finWait1 | .finWait2 | .closing | .timeWait | .closeWait | .lastAck => true
  | _ => false

/-- The state behind the steps that follow an acknowledgment. -/
theorem proceed_started (h : c.pcb.state.acksData = true) : (proceed seg c).pcb.state.started = true := by
  by_cases hacked : seg.ack = c.pcb.snd.nxt <;> cases hfin :
    isSet seg.flg flgFin <;> by_cases hdata : seg.data = [] <;>
    cases hstate : c.pcb.state <;> simp [hstate, State.acksData] at h <;>
    simp [proceed, finAcked, segmentText, takeText, finBit, hstate, hfin, hdata, hacked,
      output_ack_eq, Conn.emit,
      Conn.setState, State.started]

theorem proceed_closeWait (h : c.pcb.state = .closeWait) : proceed seg c =
    if isSet seg.flg flgFin then
      ({ c with pcb := { c.pcb with rcv := { c.pcb.rcv with nxt := seg.seq + 1 } } } : Conn).output flgAck []
    else c := by
  cases hfin : isSet seg.flg flgFin <;> simp [proceed, finAcked, segmentText, finBit, h, hfin, output_ack_eq]

/-- Outside CLOSE-WAIT going on does more, or less, than to acknowledge. -/
theorem proceed_ne_output (h : c.pcb.state.acksData = true) (hne : c.pcb.state ≠ .closeWait) :
    proceed seg c ≠ c.output flgAck [] := by
  intro heq
  have hstate := congrArg (·.pcb.state) heq
  have hlength := congrArg (·.fx.length) heq
  by_cases hacked : seg.ack = c.pcb.snd.nxt <;> cases hfin :
    isSet seg.flg flgFin <;> by_cases hdata : seg.data = [] <;>
    cases hs : c.pcb.state <;> simp [hs, State.acksData] at h hne <;>
    simp [proceed, finAcked, segmentText, takeText, finBit, hs, hfin, hdata, hacked, output_ack_eq, Conn.emit,
      Conn.setState] at hstate hlength

/-- Going on does what an acknowledgment beyond `snd.nxt` does only for a FIN that was taken
before. -/
theorem proceed_eq_output (seg : Segment) {c : Conn} (h : c.pcb.state.acksData = true) :
    proceed seg c = c.output flgAck [] ↔
      c.pcb.state = .closeWait ∧ isSet seg.flg flgFin = true ∧ c.pcb.rcv.nxt = seg.seq + 1 := by
  by_cases hstate : c.pcb.state = .closeWait
  · rw [proceed_closeWait hstate]
    constructor
    · intro heq
      cases hfin : isSet seg.flg flgFin with
      | false =>
        rw [hfin] at heq
        have hlength := congrArg (·.fx.length) heq
        simp [output_ack_eq] at hlength
      | true =>
        rw [hfin] at heq
        exact ⟨hstate, rfl, (congrArg (·.pcb.rcv.nxt) heq).symm⟩
    · rintro ⟨-, hfin, hnxt⟩
      rw [if_pos hfin, ← hnxt]
  · exact iff_of_false (proceed_ne_output h hstate) fun hall => hstate hall.1

/-- What an answer says about the numbers apart from their order. -/
def Answer.Valid (seg : Segment) (pcb : Pcb) : Answer → Prop
  | .advances dropped newer => pcb.snd.una ≠ seg.ack ∧ dropped ≤ pcb.queue.length ∧
      (newer = false → ¬(pcb.snd.wl1 = seg.seq ∧ pcb.snd.wl2 = seg.ack))
  | .beyond => True
  | .ignored => True

theorem cleaned_le (pcb : Pcb) (una : UInt32) : pcb.cleaned una ≤ pcb.queue.length :=
  (List.takeWhile_sublist _).length_le

theorem answer_valid (seg : Segment) (pcb : Pcb) : (answer seg pcb).Valid seg pcb := by
  unfold answer
  split
  · rename_i hnew
    refine ⟨fun heq => absurd hnew.1 (heq ▸ UInt32.lt_irrefl _), cleaned_le pcb _, ?_⟩
    rintro holder ⟨hseq, hack⟩
    simp [Snd.older, hseq, hack] at holder
  · split
    · trivial
    · split <;> trivial

variable {x : Answer}

theorem Answer.Valid.of_shift {a b : UInt32} (h : x.Valid (seg.shift a b) (pcb.shift a b)) :
    x.Valid seg pcb := by
  cases x with
  | advances dropped newer =>
    obtain ⟨hune, hle, hnewer⟩ := h
    simp only [Pcb.shift, Snd.shift, shift_ack, shift_seq, List.length_map, UInt32.add_left_inj] at hle hnewer
    exact ⟨fun heq => hune (congrArg (· + b) heq), hle, hnewer⟩
  | beyond => trivial
  | ignored => trivial

/-- An answer that leaves the send side alone. -/
def Answer.idle : Answer → Bool
  | .advances _ _ => false
  | _ => true

/-- The FIN of the segment was taken before. -/
def FinTaken (seg : Segment) (pcb : Pcb) : Prop :=
  pcb.state = .closeWait ∧ isSet seg.flg flgFin = true ∧ pcb.rcv.nxt = seg.seq + 1

theorem settle_advances_snd (dropped : ℕ) (newer : Bool) : (settle seg c (.advances dropped newer)).pcb.snd =
    if newer then { c.pcb.snd with una := seg.ack, wnd := seg.wnd, wl1 := seg.seq, wl2 := seg.ack }
    else { c.pcb.snd with una := seg.ack } := by
  cases newer <;> exact (proceed_sameSend _ _).snd

theorem settle_advances_queue (dropped : ℕ) (newer : Bool) :
    (settle seg c (.advances dropped newer)).pcb.queue = c.pcb.queue.drop dropped := by
  cases newer <;> exact (proceed_sameSend _ _).queue

theorem settle_idle (h : x.idle = true) : SameSend c.pcb (settle seg c x).pcb := by
  cases x with
  | advances dropped newer => cases h
  | beyond => exact ⟨rfl, rfl, rfl⟩
  | ignored => exact proceed_sameSend seg c

theorem settle_advances_una (dropped : ℕ) (newer : Bool) :
    (settle seg c (.advances dropped newer)).pcb.snd.una = seg.ack := by
  rw [settle_advances_snd]
  cases newer <;> rfl

theorem advances_eq {d d' : ℕ} {n n' : Bool} (h : (Answer.advances d n).Valid seg c.pcb)
    (h' : (Answer.advances d' n').Valid seg c.pcb)
    (heq : settle seg c (.advances d n) = settle seg c (.advances d' n')) :
    Answer.advances d n = .advances d' n' := by
  obtain ⟨-, hle, hold⟩ := h
  obtain ⟨-, hle', hold'⟩ := h'
  have hqueue := congrArg (·.pcb.queue.length) heq
  have hsnd := congrArg (·.pcb.snd) heq
  simp only [settle_advances_queue, List.length_drop, settle_advances_snd] at hqueue hsnd
  have hdropped : d = d' := by omega
  cases n <;> cases n' <;> simp_all

/-- Different answers show in the outcome, but for a FIN that was taken before. -/
theorem settle_eq_iff {y : Answer} (h : c.pcb.state.acksData = true) (hx : x.Valid seg c.pcb)
    (hy : y.Valid seg c.pcb) :
    settle seg c x = settle seg c y ↔ x = y ∨ (x.idle = true ∧ y.idle = true ∧ FinTaken seg c.pcb) := by
  have hfin := proceed_eq_output seg h
  have hune : ∀ {d n z}, (Answer.advances d n).Valid seg c.pcb → Answer.idle z = true →
      settle seg c (.advances d n) ≠ settle seg c z := by
    intro d n z hvalid hidle heq
    have hsame := congrArg (·.pcb.snd.una) heq
    simp only [settle_advances_una, (settle_idle hidle).snd] at hsame
    exact hvalid.1 hsame.symm
  cases x with
  | advances d n =>
    cases y with
    | advances d' n' =>
      simpa [Answer.idle] using ⟨fun heq => by simpa using advances_eq hx hy heq,
        fun heq => by rw [heq.1, heq.2]⟩
    | beyond | ignored => simpa [Answer.idle] using hune hx rfl
  | beyond =>
    cases y with
    | advances d' n' => simpa [Answer.idle] using (hune hy rfl).symm
    | beyond => simp
    | ignored => exact (eq_comm.trans hfin).trans (by simp [Answer.idle, FinTaken])
  | ignored =>
    cases y with
    | advances d' n' => simpa [Answer.idle] using (hune hy rfl).symm
    | beyond => exact hfin.trans (by simp [Answer.idle, FinTaken])
    | ignored => simp

theorem verdict_synSent (h : pcb.state = .synSent) :
    verdict seg pcb = synVerdict seg pcb := by
  simp only [verdict, h]

/-- The verdicts on a segment in SYN-SENT. -/
theorem synVerdict_cases (seg : Segment) (pcb : Pcb) :
    synVerdict seg pcb = .refused ∨
    (isSet seg.flg flgSyn = false ∧ synVerdict seg pcb = .noSyn (accepted seg pcb)) ∨
    ∃ dropped completes, isSet seg.flg flgSyn = true ∧ synVerdict seg pcb = .syn dropped completes ∧
      dropped.isSome = accepted seg pcb ∧ ∀ n ∈ dropped, n ≤ pcb.queue.length := by
  unfold synVerdict
  split
  · exact .inl rfl
  · split
    · rename_i hsyn
      refine .inr (.inr ?_)
      cases hacc : accepted seg pcb with
      | false => exact ⟨none, _, hsyn, rfl, rfl, nofun⟩
      | true => exact ⟨some (pcb.cleaned seg.ack), _, hsyn, rfl, rfl, by simpa using cleaned_le pcb seg.ack⟩
    · rename_i hsyn
      exact .inr (.inl ⟨eq_false_of_ne_true hsyn, rfl⟩)

theorem synchronize_state (dropped : Option ℕ) (completes : Bool) :
    (synchronize seg dropped completes c).pcb.state = if completes then .established else .synReceived := by
  cases completes <;> rfl

theorem hear_queue (pcb : Pcb) (dropped : Option ℕ) :
    (pcb.hear seg dropped).queue = pcb.queue.drop (dropped.getD 0) := by
  cases dropped <;> rfl

theorem synchronize_queue (dropped : Option ℕ) (completes : Bool) :
    (synchronize seg dropped completes c).pcb.queue = c.pcb.queue.drop (dropped.getD 0) ++
      if completes then [] else [⟨c.pcb.iss, flgSyn ||| flgAck, []⟩] := by
  rw [← hear_queue]
  cases completes with
  | true => exact (List.append_nil _).symm
  | false => cases dropped <;> rfl

/-- Different verdicts show in the outcome in SYN-SENT. -/
theorem synVerdict_injective {a b : UInt32} (h : pcb.state = .synSent)
    (hacc : accepted (seg.shift a b) (pcb.shift a b) = accepted seg pcb)
    (heq : obey env seg ⟨pcb, fx⟩ (synVerdict (seg.shift a b) (pcb.shift a b)) =
      obey env seg ⟨pcb, fx⟩ (synVerdict seg pcb)) :
    synVerdict (seg.shift a b) (pcb.shift a b) = synVerdict seg pcb := by
  have hstate := congrArg (·.pcb.state) heq
  have hlength := congrArg (·.fx.length) heq
  have hqueue := congrArg (·.pcb.queue.length) heq
  obtain hv | ⟨hsyn, hv⟩ | ⟨d, k, hsyn, hv, hd, hle⟩ := synVerdict_cases seg pcb <;>
  obtain hv' | ⟨hsyn', hv'⟩ | ⟨d', k', hsyn', hv', hd', hle'⟩ :=
    synVerdict_cases (seg.shift a b) (pcb.shift a b) <;>
  rw [hv, hv'] at hstate hlength hqueue ⊢
  · simp [obey, Conn.resetAck, Conn.outputSegment, Conn.emit] at hlength
  · cases k' <;> simp [obey, synchronize_state, Conn.resetAck, Conn.outputSegment, Conn.emit, h] at hstate
  · simp [obey, Conn.resetAck, Conn.outputSegment, Conn.emit] at hlength
  · rw [hacc]
  · rw [shift_flg, hsyn] at hsyn'
    cases hsyn'
  · cases k <;> simp [obey, synchronize_state, Conn.resetAck, Conn.outputSegment, Conn.emit, h] at hstate
  · rw [shift_flg, hsyn] at hsyn'
    cases hsyn'
  · have hk : k' = k := by
      cases k <;> cases k' <;> simp [obey, synchronize_state] at hstate ⊢
    simp only [obey, synchronize_queue] at hqueue
    cases d <;> cases d' <;> simp_all [Pcb.shift]
    omega

theorem completeHandshake_acksData (h : c.pcb.state.acksData = true ∨ c.pcb.state = .synReceived) :
    (completeHandshake c).pcb.state.acksData = true := by
  rw [completeHandshake_pcb]
  split
  · rfl
  · exact h.resolve_right ‹_›

theorem valid_completeHandshake (h : x.Valid seg c.pcb) : x.Valid seg (completeHandshake c).pcb := by
  rw [completeHandshake_pcb]
  split
  · cases x <;> exact h
  · exact h

theorem finTaken_completeHandshake : FinTaken seg (completeHandshake c).pcb ↔ FinTaken seg c.pcb := by
  rw [completeHandshake_pcb]
  split_ifs with hstate
  · simp [FinTaken, hstate]
  · rfl

theorem settle_started (seg : Segment) (x : Answer) (h : c.pcb.state.acksData = true) :
    (settle seg c x).pcb.state.started = true := by
  cases x with
  | advances dropped newer =>
    refine proceed_started ?_
    cases newer <;> exact h
  | beyond =>
    have hstarted : c.pcb.state.started = true := by
      cases hstate : c.pcb.state <;> simp [hstate, State.acksData] at h <;> rfl
    exact hstarted
  | ignored => exact proceed_started h

/-- The verdicts in the states with a window test, but for LAST-ACK. -/
theorem verdict_eq (seg : Segment) (h : pcb.state.acksData = true ∨ pcb.state = .synReceived) :
    verdict seg pcb =
    if accepted seg pcb = false then .outside else if isSet seg.flg flgAck = false then .noAck
    else if pcb.state = .synReceived ∧ ¬(pcb.snd.una ≤ seg.ack ∧ seg.ack ≤ pcb.snd.nxt) then .refused
    else .acked (answer seg pcb) := by
  cases hstate : pcb.state <;> simp [hstate, State.acksData] at h <;>
    simp [verdict, accepted, State.checksWindow, hstate]

/-- Behind the window test an acknowledgment is refused, which happens in SYN-RECEIVED, or
processed. -/
theorem verdict_of_accepted (h : pcb.state.acksData = true ∨ pcb.state = .synReceived)
    (hacc : accepted seg pcb = true) (hack : isSet seg.flg flgAck = true) :
    (pcb.state = .synReceived ∧ verdict seg pcb = .refused) ∨ verdict seg pcb = .acked (answer seg pcb) := by
  rw [verdict_eq seg h, if_neg (by simp [hacc]), if_neg (by simp [hack])]
  split_ifs with hrefused
  · exact .inl ⟨hrefused.1, rfl⟩
  · exact .inr rfl

theorem verdict_cases (seg : Segment) (h : pcb.state.acksData = true ∨ pcb.state = .synReceived) :
    verdict seg pcb = .outside ∨ verdict seg pcb = .noAck ∨ verdict seg pcb = .refused ∨
      verdict seg pcb = .acked (answer seg pcb) := by
  rw [verdict_eq seg h]
  split_ifs <;> simp

theorem verdict_eq_outside (h : pcb.state.acksData = true ∨ pcb.state = .synReceived) :
    verdict seg pcb = .outside ↔ accepted seg pcb = false := by
  rw [verdict_eq seg h]
  split_ifs with hacc <;> simp [hacc]

end Exact

/-! ### The theorem -/

/-- The second outcome is the first up to the shift; a released block is zero in both. -/
structure Conn.ShiftedTo (a b : UInt32) (c d : Conn) : Prop where
  fx : d.fx = c.fx.map (·.shift a b)
  pcb : d.pcb = c.pcb.shift a b ∨ c.pcb = .zero ∧ d.pcb = .zero

/-- The shift commutes with the processing of a segment. -/
structure Commutes (a b : UInt32) (env : Env) (seg : Segment) (pcb : Pcb) : Prop where
  accepted : accepted (seg.shift a b) (pcb.shift a b) = accepted seg pcb
  outcome : (segmentArrives env seg ⟨pcb, []⟩).ShiftedTo a b
    (segmentArrives (env.shift b) (seg.shift a b) ⟨pcb.shift a b, []⟩)

/-- The comparisons come out as before; acknowledgments ignored and beyond `snd.nxt` may be confused
where the FIN was taken before. -/
def Agree (seg : Segment) (pcb : Pcb) (v v' : Verdict) : Prop :=
  v' = v ∨ FinTaken seg pcb ∧ ∃ x y : Answer, v = .acked x ∧ v' = .acked y ∧ x.idle = true ∧ y.idle = true

variable {seg : Segment} {env : Env}

section

variable (h : pcb.state = .synSent ∨ pcb.state.acksData = true ∨ pcb.state = .synReceived)

include h

theorem obey_state_ne_free :
    (obey env seg ⟨pcb, fx⟩ (verdict seg pcb)).pcb.state ≠ .free := by
  have hfree : pcb.state ≠ .free := by
    intro hstate
    simp [hstate, State.acksData] at h
  obtain hsyn | hopen := h
  · rw [verdict_synSent hsyn]
    obtain hv | ⟨-, hv⟩ | ⟨d, k, -, hv, -⟩ := synVerdict_cases seg pcb <;> rw [hv]
    · exact hfree
    · exact hfree
    · rw [obey, synchronize_state]
      cases k <;> decide
  · obtain hv | hv | hv | hv := verdict_cases seg hopen <;> rw [hv]
    · rw [obey]
      split <;> exact hfree
    · exact hfree
    · exact hfree
    · intro hzero
      have hstarted := settle_started seg (answer seg pcb) (completeHandshake_acksData (c := ⟨pcb, fx⟩) hopen)
      rw [show (settle seg (completeHandshake ⟨pcb, fx⟩) (answer seg pcb)).pcb.state =
        .free from hzero] at hstarted
      cases hstarted

theorem verdict_ne_lastAck :
    verdict seg pcb ≠ .lastAck := by
  obtain hsyn | hopen := h
  · rw [verdict_synSent hsyn]
    obtain hv | ⟨-, hv⟩ | ⟨d, k, -, hv, -⟩ := synVerdict_cases seg pcb <;> simp [hv]
  · obtain hv | hv | hv | hv := verdict_cases seg hopen <;> simp [hv]

/-- Where no block is released, the shift commutes exactly if the verdicts have the same outcome. -/
theorem commutes_iff_obey {a b : UInt32} :
    Commutes a b env seg pcb ↔ accepted (seg.shift a b) (pcb.shift a b) = accepted seg pcb ∧
      obey env seg ⟨pcb, []⟩ (verdict (seg.shift a b) (pcb.shift a b)) = obey env seg ⟨pcb, []⟩
        (verdict seg pcb) := by
  have hshift : segmentArrives (env.shift b) (seg.shift a b) ⟨pcb.shift a b, []⟩ =
      (obey env seg ⟨pcb, []⟩ (verdict (seg.shift a b) (pcb.shift a b))).shift a b := by
    rw [segmentArrives_eq]
    exact obey_shift a b env seg ⟨pcb, []⟩ (verdict_ne_lastAck h)
  constructor
  · rintro ⟨hacc, hfx, hpcb⟩
    refine ⟨hacc, ?_⟩
    rw [hshift, segmentArrives_eq] at hfx hpcb
    obtain hpcb | ⟨hzero, -⟩ := hpcb
    · exact Conn.shift_injective a b (congrArg₂ Conn.mk hpcb hfx)
    · exact absurd (congrArg Pcb.state hzero) (obey_state_ne_free h)
  · rintro ⟨hacc, heq⟩
    refine ⟨hacc, ?_⟩
    rw [hshift, segmentArrives_eq, heq]
    exact ⟨rfl, .inl rfl⟩

end

/-- With a window test, but for LAST-ACK, equal outcomes mean that the comparisons agree. -/
theorem obey_eq_iff_agree {a b : UInt32} (h : pcb.state.acksData = true ∨ pcb.state = .synReceived) :
    (accepted (seg.shift a b) (pcb.shift a b) = accepted seg pcb ∧
      obey env seg ⟨pcb, []⟩ (verdict (seg.shift a b) (pcb.shift a b)) = obey env seg ⟨pcb, []⟩
        (verdict seg pcb)) ↔
    Agree seg pcb (verdict seg pcb) (verdict (seg.shift a b) (pcb.shift a b)) := by
  have hdata : (completeHandshake ⟨pcb, []⟩).pcb.state.acksData = true := completeHandshake_acksData h
  have hsettle : settle seg (completeHandshake ⟨pcb, []⟩) (answer (seg.shift a b) (pcb.shift a b)) =
        settle seg (completeHandshake ⟨pcb, []⟩) (answer seg pcb) ↔ _ :=
    settle_eq_iff hdata (valid_completeHandshake (answer_valid _ _).of_shift)
      (valid_completeHandshake (answer_valid _ _))
  rw [finTaken_completeHandshake] at hsettle
  -- a reset leaves SYN-RECEIVED, an acknowledgment does not
  have hleaves : ∀ x, pcb.state = .synReceived →
      settle seg (completeHandshake ⟨pcb, []⟩) x ≠ (⟨pcb, []⟩ : Conn).resetAck seg := by
    intro x hstate heq
    have hstarted := settle_started seg x hdata
    rw [heq, show ((⟨pcb, []⟩ : Conn).resetAck seg).pcb.state = .synReceived from hstate] at hstarted
    cases hstarted
  have h' : (pcb.shift a b).state.acksData = true ∨ (pcb.shift a b).state = .synReceived := h
  by_cases hsame : accepted (seg.shift a b) (pcb.shift a b) = accepted seg pcb
  · simp only [hsame, true_and]
    cases hacc : accepted seg pcb with
    | false =>
      rw [hacc] at hsame
      simp [verdict_eq _ h, verdict_eq _ h', hacc, hsame, Agree]
    | true =>
      rw [hacc] at hsame
      cases hack : isSet seg.flg flgAck with
      | false => simp [verdict_eq _ h, verdict_eq _ h', hacc, hsame, hack, Agree]
      | true =>
        obtain ⟨hstate, hv⟩ | hv := verdict_of_accepted h hacc hack <;>
          obtain ⟨hstate', hv'⟩ | hv' := verdict_of_accepted h' hsame hack <;> rw [hv, hv']
        · simp [Agree]
        · simpa [Agree, obey] using hleaves _ hstate
        · simpa [Agree, obey] using (hleaves _ hstate').symm
        · refine hsettle.trans ?_
          simp only [Agree, Verdict.acked.injEq]
          constructor
          · rintro (heq | ⟨hx, hy, hfin⟩)
            · exact .inl heq
            · exact .inr ⟨hfin, _, _, rfl, rfl, hy, hx⟩
          · rintro (heq | ⟨hfin, x, y, rfl, rfl, hx, hy⟩)
            · exact .inl heq
            · exact .inr ⟨hy, hx, hfin⟩
  · refine iff_of_false (fun hboth => hsame hboth.1) ?_
    have houtside : ¬(verdict (seg.shift a b) (pcb.shift a b) = .outside ↔ verdict seg pcb = .outside) := by
      rw [verdict_eq_outside h, verdict_eq_outside h']
      revert hsame
      cases accepted seg pcb <;> cases accepted (seg.shift a b) (pcb.shift a b) <;> simp
    rintro (hv | ⟨-, x, y, hv, hv', -⟩)
    · exact houtside (by rw [hv])
    · simp [hv, hv'] at houtside

/-- In SYN-SENT the verdict tells whether the acknowledgment was acceptable. -/
theorem accepted_eq_of_synVerdict {seg' : Segment} {pcb' : Pcb} (h : pcb.state = .synSent)
    (h' : pcb'.state = .synSent) (hv : synVerdict seg' pcb' = synVerdict seg pcb) :
    accepted seg' pcb' = accepted seg pcb := by
  have hrefused : ∀ {seg pcb}, pcb.state = .synSent → synVerdict seg pcb = .refused →
    accepted seg pcb = false := by
    intro seg pcb h hv
    have hrefuses : pcb.refuses seg = true := by
      by_contra hno
      unfold synVerdict at hv
      rw [if_neg hno] at hv
      split at hv
      · split at hv <;> cases hv
      · cases hv
    simp [accepted, h, hrefuses]
  obtain hw | ⟨-, hw⟩ | ⟨d, k, -, hw, hd, -⟩ := synVerdict_cases seg pcb <;>
    obtain hw' | ⟨-, hw'⟩ | ⟨d', k', -, hw', hd', -⟩ := synVerdict_cases seg' pcb' <;>
    rw [hw, hw'] at hv <;> try cases hv
  · rw [hrefused h hw, hrefused h' hw']
  · simpa using hv
  · rw [← hd, ← hd']

/-- In LAST-ACK the verdict says no more than whether the segment is acceptable. -/
theorem verdict_lastAck (seg : Segment) (h : pcb.state = .lastAck) :
    verdict seg pcb = if accepted seg pcb then if isSet seg.flg flgAck then .lastAck else .noAck else .outside := by
  cases hacc : pcb.acceptable seg <;> cases hack : isSet seg.flg flgAck <;>
    simp [verdict, accepted, State.checksWindow, h, hacc, hack]

/-- What is decided is done up to the shift. -/
theorem obey_shiftedTo (a b : UInt32) (env : Env) (seg : Segment) (c : Conn) (v : Verdict) :
    (obey env seg c v).ShiftedTo a b (obey (env.shift b) (seg.shift a b) (c.shift a b) v) := by
  by_cases hv : v = .lastAck
  · subst hv
    simp only [obey, shift_ack_eq_nxt, setState_shift]
    split
    · unfold Conn.release
      cases hsleep : env.sleeper with
      | true =>
        have hsleep' : (env.shift b).sleeper = true := hsleep
        rw [if_pos hsleep', emit_wakeup_shift]
        exact ⟨rfl, .inl rfl⟩
      | false =>
        have hsleep' : ¬(env.shift b).sleeper = true := by simp [Env.shift, hsleep]
        rw [if_neg hsleep']
        exact ⟨rfl, .inr ⟨rfl, rfl⟩⟩
    · exact ⟨rfl, .inl rfl⟩
  · rw [obey_shift a b env seg c hv]
    exact ⟨rfl, .inl rfl⟩

theorem commutes_of_verdict {a b : UInt32}
    (hacc : accepted (seg.shift a b) (pcb.shift a b) = accepted seg pcb)
    (hv : verdict (seg.shift a b) (pcb.shift a b) = verdict seg pcb) : Commutes a b env seg pcb := by
  refine ⟨hacc, ?_⟩
  rw [segmentArrives_eq, segmentArrives_eq, hv]
  exact obey_shiftedTo a b env seg ⟨pcb, []⟩ _

/-- Adding constants to the sequence numbers of both directions commutes with `tcp_segment_arrives`
exactly when every order comparison that it makes comes out as before. -/
theorem shift_commutes_iff (a b : UInt32) (env : Env) (seg : Segment) (pcb : Pcb) :
    Commutes a b env seg pcb ↔ Agree seg pcb (verdict seg pcb) (verdict (seg.shift a b) (pcb.shift a b)) := by
  cases hstate : pcb.state with
  | synSent =>
    have hstate' : (pcb.shift a b).state = .synSent := hstate
    refine (commutes_iff_obey (.inl hstate)).trans ?_
    rw [verdict_synSent hstate, verdict_synSent hstate']
    constructor
    · rintro ⟨hacc, heq⟩
      exact .inl (synVerdict_injective hstate hacc heq)
    · rintro (hv | ⟨-, x, y, hv, -⟩)
      · exact ⟨accepted_eq_of_synVerdict hstate hstate' hv, by rw [hv]⟩
      · obtain hw | ⟨-, hw⟩ | ⟨d, k, -, hw, -⟩ := synVerdict_cases seg pcb <;> simp [hw] at hv
  | lastAck =>
    have hstate' : (pcb.shift a b).state = .lastAck := hstate
    have hv := verdict_lastAck seg hstate
    have hv' := verdict_lastAck (seg.shift a b) hstate'
    constructor
    · intro hcomm
      rw [hv, hv', hcomm.accepted]
      exact .inl rfl
    · rintro (heq | ⟨-, x, y, hw, -⟩)
      · refine commutes_of_verdict ?_ heq
        rw [hv, hv', shift_flg] at heq
        cases hacc : accepted seg pcb <;> cases hacc' : accepted (seg.shift a b) (pcb.shift a b) <;>
          cases hack : isSet seg.flg flgAck <;> simp [hacc, hacc', hack] at heq ⊢
      · rw [hv] at hw
        split at hw
        · split at hw <;> cases hw
        · cases hw
  | synReceived | established | finWait1 | finWait2 | closeWait =>
    have hopen : pcb.state.acksData = true ∨ pcb.state = .synReceived := by simp [hstate, State.acksData]
    exact (commutes_iff_obey (.inr hopen)).trans (obey_eq_iff_agree hopen)
  | free | closed | listen | closing | timeWait =>
    have hstate' : (pcb.shift a b).state = _ := hstate
    have hv : verdict (seg.shift a b) (pcb.shift a b) = verdict seg pcb := by simp only [verdict,
      hstate, hstate']
    have hacc : accepted (seg.shift a b) (pcb.shift a b) = accepted seg pcb := by
      simp only [accepted, hstate, hstate', State.checksWindow, Bool.false_and]
    exact iff_of_true (commutes_of_verdict hacc hv) (.inl hv)

/-! ### A shift across the wrap-around -/

/-- A connection that sent 32 bytes from sequence number 0 on. -/
def sentBlock : Pcb := { Pcb.zero with
  state := .established, mode := .socket
  snd := ⟨32, 0, 1000, 0, 0⟩, rcv := ⟨0, UInt16.ofNat rcvBufSize⟩
  queue := [⟨0, 0x18, List.replicate 32 0⟩] }

/-- The acknowledgment of all of it. -/
def ackOfAll : Segment := ⟨0, 32, 1000, flgAck, [], ⟨0, 0⟩, ⟨0, 0⟩, Nat.zero_le _⟩

/-- Sixteen below the wrap-around the acknowledgment is taken for an old one. -/
theorem shifted_ack_ignored : ¬ Commutes 0 0xfffffff0 ⟨0, 0, false, false⟩ ackOfAll sentBlock := by
  intro h
  obtain hpcb | ⟨hzero, -⟩ := h.outcome.pcb
  · have huna := congrArg (·.snd.una) hpcb
    revert huna
    decide
  · have hstate := congrArg (·.state) hzero
    revert hstate
    decide

end Xv6.Tcp
