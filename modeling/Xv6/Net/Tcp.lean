import Xv6.Lib.Bytes

/-!
# TCP connections

`kernel/net/tcp.c` seen from one protocol control block: `tcp_segment_arrives` in every state,
`tcp_receive` and `tcp_close`. Sequence numbers and windows have the widths of the source, and
its comparisons are the plain ones of unsigned numbers. What a call does outside the block
(segments sent, processes woken, blocks allocated, queued or released) is collected as a list
of effects, in order.
-/

namespace Xv6.Tcp

open Lib

/-- The states of a control block, `TCP_PCB_STATE_*`. -/
inductive State
  | free | closed | listen | synSent | synReceived | established
  | finWait1 | finWait2 | closing | timeWait | closeWait | lastAck
  deriving DecidableEq, Repr

/-- The user command mode, `TCP_PCB_MODE_*`. -/
inductive Mode
  | rfc793 | socket
  deriving DecidableEq, Repr

/-- `TCP_RCV_BUF_SIZE`. -/
abbrev rcvBufSize : ℕ := 65535

abbrev flgFin : UInt8 := 0x01
abbrev flgSyn : UInt8 := 0x02
abbrev flgRst : UInt8 := 0x04
abbrev flgAck : UInt8 := 0x10

/-- `TCP_FLG_ISSET`. -/
def isSet (x y : UInt8) : Bool := x &&& 0x3f &&& y != 0

/-- `struct ip_endpoint`. -/
structure Endpoint where
  addr : UInt32
  port : UInt16
  deriving DecidableEq, Repr

/-- An entry of the retransmit queue; its timers are not modelled. -/
structure QueueEntry where
  seq : UInt32
  flg : UInt8
  data : List UInt8

/-- The send variables of a control block. -/
structure Snd where
  nxt : UInt32
  una : UInt32
  wnd : UInt16
  wl1 : UInt32
  wl2 : UInt32

/-- The receive variables of a control block. -/
structure Rcv where
  nxt : UInt32
  wnd : UInt16

/-- `struct tcp_pcb`. `buf` is the memory from the receive buffer on; `parent` is the index of the
listening block. -/
structure Pcb where
  state : State
  mode : Mode
  localEp : Endpoint
  foreignEp : Endpoint
  snd : Snd
  iss : UInt32
  rcv : Rcv
  irs : UInt32
  buf : Bytes
  queue : List QueueEntry
  parent : Option ℕ

/-- A block as `memset` leaves it. -/
def Pcb.zero : Pcb where
  state := .free
  mode := .rfc793
  localEp := ⟨0, 0⟩
  foreignEp := ⟨0, 0⟩
  snd := ⟨0, 0, 0, 0, 0⟩
  iss := 0
  rcv := ⟨0, 0⟩
  irs := 0
  buf := fun _ => 0
  queue := []
  parent := none

/-- A segment handed to `ip_output`. -/
structure Sent where
  seq : UInt32
  ack : UInt32
  flg : UInt8
  wnd : UInt16
  data : List UInt8
  localEp : Endpoint
  foreignEp : Endpoint

/-- What a call does outside the control block. -/
inductive Effect
  | output (s : Sent)
  /-- `sched_wakeup` on the block's own context. -/
  | wakeup
  /-- The block joins its parent's backlog, and the parent is woken. -/
  | backlog (parent : ℕ)
  /-- A block taken by `tcp_pcb_alloc` and filled in. -/
  | spawn (pcb : Pcb)

/-- A control block and the effects so far. -/
structure Conn where
  pcb : Pcb
  fx : List Effect

/-- The most that an IP packet carries behind its header. -/
abbrev ipPayloadMax : ℕ := 65535 - 20

/-- An arriving segment, its header fields in host order, and the endpoints it is for. -/
structure Segment where
  seq : UInt32
  ack : UInt32
  wnd : UInt16
  flg : UInt8
  data : List UInt8
  localEp : Endpoint
  foreignEp : Endpoint
  fits : data.length ≤ ipPayloadMax

/-- `seg.len` as `tcp_input` computes it: SYN and FIN count. -/
def Segment.len (seg : Segment) : UInt16 :=
  UInt16.ofNat seg.data.length + (if isSet seg.flg flgSyn then 1 else 0) + if isSet seg.flg flgFin then 1 else 0

/-- What a call finds around the block: its index, a random number, a free block in the table, and
whether a process sleeps on the block. -/
structure Env where
  self : ℕ
  random : UInt32
  room : Bool
  sleeper : Bool

def Conn.emit (c : Conn) (e : Effect) : Conn := { c with fx := c.fx ++ [e] }

def Conn.setState (c : Conn) (state : State) : Conn := { c with pcb := { c.pcb with state := state } }

/-- `tcp_output_segment`. -/
def Conn.outputSegment (c : Conn) (seq ack : UInt32) (flg : UInt8) (wnd : UInt16) (data : List UInt8)
    (localEp foreignEp : Endpoint) : Conn :=
  c.emit (.output ⟨seq, ack, flg, wnd, data, localEp, foreignEp⟩)

/-- What the rest of the kernel grants a call: the pages of a queue entry, and that the segment
leaves. -/
structure Grant where
  entry : Bool
  segment : Bool

/-- `sizeof(struct tcp_queue_entry)`. -/
abbrev queueEntrySize : ℕ := 56

/-- The most that `memory_alloc` hands out, one page. -/
abbrev memoryMax : ℕ := 4096

/-- `tcp_retransmit_queue_add`; the caller does not look at its result. -/
def Pcb.queueAdd (pcb : Pcb) (grant : Grant) (e : QueueEntry) : Pcb :=
  { pcb with queue :=
      if grant.entry ∧ queueEntrySize + e.data.length ≤ memoryMax then pcb.queue ++ [e] else pcb.queue }

/-- `tcp_output`: segments that occupy sequence numbers join the retransmit queue. The flag says
whether the segment left. -/
def Conn.outputIn (c : Conn) (grant : Grant) (flg : UInt8) (data : List UInt8) : Conn × Bool :=
  let seq := if isSet flg flgSyn then c.pcb.iss else c.pcb.snd.nxt
  let queue := if isSet flg (flgSyn ||| flgFin) ∨ data ≠ [] then (c.pcb.queueAdd grant ⟨seq, flg, data⟩).queue
    else c.pcb.queue
  let c := { c with pcb := { c.pcb with queue := queue } }
  (if grant.segment then c.outputSegment seq c.pcb.rcv.nxt flg c.pcb.rcv.wnd data c.pcb.localEp c.pcb.foreignEp else c,
    grant.segment)

/-- `tcp_output` where memory suffices. -/
def Conn.output (c : Conn) (flg : UInt8) (data : List UInt8) : Conn := (c.outputIn ⟨true, true⟩ flg data).1

/-- A block with a parent joins its backlog. -/
def Conn.joinBacklog (c : Conn) : Conn :=
  match c.pcb.parent with
  | some parent => c.emit (.backlog parent)
  | none => c

/-- `tcp_retransmit_queue_cleanup`: entries in front with a smaller sequence number than `snd.una`
go. -/
def Pcb.queueCleanup (pcb : Pcb) : Pcb := { pcb with queue := pcb.queue.dropWhile (·.seq < pcb.snd.una) }

/-- `tcp_pcb_release`: a block somebody sleeps on is only woken. -/
def Conn.release (env : Env) (c : Conn) : Conn :=
  if env.sleeper then c.emit .wakeup else { c with pcb := .zero }

/-- The reset sent for a segment that carries an acknowledgment. -/
def Conn.resetAck (c : Conn) (seg : Segment) : Conn :=
  c.outputSegment seg.ack 0 flgRst 0 [] seg.localEp seg.foreignEp

/-- A segment for no block, or for a closed one. -/
def closedArrives (seg : Segment) (c : Conn) : Conn :=
  if isSet seg.flg flgRst then c
  else if !isSet seg.flg flgAck then
    c.outputSegment 0 (seg.seq + seg.len.toUInt32) (flgRst ||| flgAck) 0 [] seg.localEp seg.foreignEp
  else c.resetAck seg

/-- A block takes up a connection from a SYN. -/
def acceptSyn (env : Env) (seg : Segment) (c : Conn) : Conn :=
  let c := { c with pcb := { c.pcb with
    localEp := seg.localEp, foreignEp := seg.foreignEp
    rcv := ⟨seg.seq + 1, UInt16.ofNat rcvBufSize⟩, irs := seg.seq, iss := env.random } }
  let c := c.output (flgSyn ||| flgAck) []
  { c with pcb := { c.pcb with
    snd := { c.pcb.snd with nxt := c.pcb.iss + 1, una := c.pcb.iss }, state := .synReceived } }

/-- The case `TCP_PCB_STATE_LISTEN`: in socket mode a new block takes the connection. -/
def listenArrives (env : Env) (seg : Segment) (c : Conn) : Conn :=
  if isSet seg.flg flgRst then c
  else if isSet seg.flg flgAck then c.resetAck seg
  else if isSet seg.flg flgSyn then
    match c.pcb.mode with
    | .socket =>
      if env.room then
        let new : Pcb := { Pcb.zero with state := .closed, mode := .socket, parent := some env.self }
        let child := acceptSyn env seg ⟨new, c.fx⟩
        ⟨c.pcb, child.fx ++ [.spawn child.pcb]⟩
      else c
    | .rfc793 => acceptSyn env seg c
  else c

/-- The peer's SYN is taken, and its acknowledgment if that is acceptable. -/
def peerSyn (seg : Segment) (acceptable : Bool) (pcb : Pcb) : Pcb :=
  let pcb := { pcb with rcv := { pcb.rcv with nxt := seg.seq + 1 }, irs := seg.seq }
  if acceptable then { pcb with snd := { pcb.snd with una := seg.ack } }.queueCleanup else pcb

/-- The case `TCP_PCB_STATE_SYN_SENT`. -/
def synSentArrives (seg : Segment) (c : Conn) : Conn :=
  let ack := isSet seg.flg flgAck
  if ack ∧ (seg.ack ≤ c.pcb.iss ∨ seg.ack > c.pcb.snd.nxt) then c.resetAck seg
  else
    let acceptable := ack ∧ c.pcb.snd.una ≤ seg.ack ∧ seg.ack ≤ c.pcb.snd.nxt
    if isSet seg.flg flgSyn then
      let c : Conn := { c with pcb := peerSyn seg acceptable c.pcb }
      if c.pcb.snd.una > c.pcb.iss then
        let c := (c.setState .established).output flgAck []
        { c with pcb := { c.pcb with
          snd := { c.pcb.snd with wnd := seg.wnd, wl1 := seg.seq, wl2 := seg.ack } } }.emit .wakeup
      else (c.setState .synReceived).output (flgSyn ||| flgAck) []
    else c

/-- The states whose segments pass the window test. -/
def State.checksWindow : State → Bool
  | .synReceived | .established | .finWait1 | .finWait2 | .closeWait | .lastAck => true
  | _ => false

/-- The window test. -/
def Pcb.acceptable (pcb : Pcb) (seg : Segment) : Bool :=
  let wnd := pcb.rcv.wnd.toUInt32
  let len := seg.len.toUInt32
  if seg.len = 0 then
    if pcb.rcv.wnd = 0 then seg.seq = pcb.rcv.nxt
    else pcb.rcv.nxt ≤ seg.seq ∧ seg.seq < pcb.rcv.nxt + wnd
  else if pcb.rcv.wnd = 0 then false
  else
    (pcb.rcv.nxt ≤ seg.seq ∧ seg.seq < pcb.rcv.nxt + wnd) ∨
      (pcb.rcv.nxt ≤ seg.seq + len - 1 ∧ seg.seq + len - 1 < pcb.rcv.nxt + wnd)

/-- The send variables after an acknowledgment; one beyond `snd.nxt` ends the processing. -/
def dataAck (seg : Segment) (c : Conn) : Conn × Bool :=
  if c.pcb.snd.una < seg.ack ∧ seg.ack ≤ c.pcb.snd.nxt then
    let pcb := { c.pcb with snd := { c.pcb.snd with una := seg.ack } }.queueCleanup
    let newer := pcb.snd.wl1 < seg.seq ∨ (pcb.snd.wl1 = seg.seq ∧ pcb.snd.wl2 ≤ seg.ack)
    let pcb := if newer then { pcb with
      snd := { pcb.snd with wnd := seg.wnd, wl1 := seg.seq, wl2 := seg.ack } } else pcb
    ({ c with pcb := pcb }, true)
  else if seg.ack < c.pcb.snd.una then (c, true)
  else if seg.ack > c.pcb.snd.nxt then (c.output flgAck [], false)
  else (c, true)

/-- In FIN-WAIT-1 the acknowledgment of the FIN leads on. -/
def finAcked (seg : Segment) (c : Conn) : Conn :=
  if c.pcb.state = .finWait1 ∧ seg.ack = c.pcb.snd.nxt then c.setState .finWait2 else c

/-- The acknowledgment field from ESTABLISHED on; the flag says whether processing goes on. -/
def establishedAck (seg : Segment) (c : Conn) : Conn × Bool :=
  match dataAck seg c with
  | (c, true) => (finAcked seg c, true)
  | (c, false) => (c, false)

/-- The fifth check, of the acknowledgment field. -/
def ackField (env : Env) (seg : Segment) (c : Conn) : Conn × Bool :=
  match c.pcb.state with
  | .synReceived =>
    if c.pcb.snd.una ≤ seg.ack ∧ seg.ack ≤ c.pcb.snd.nxt then
      establishedAck seg ((c.setState .established).emit .wakeup).joinBacklog
    else (c.resetAck seg, false)
  | .established | .finWait1 | .finWait2 | .closeWait => establishedAck seg c
  | .lastAck =>
    (if seg.ack = c.pcb.snd.nxt then (c.setState .closed).release env else c, false)
  | _ => (c, true)

/-- The segment's text goes behind the buffered bytes, and is acknowledged. -/
def takeText (seg : Segment) (c : Conn) : Conn :=
  let pcb := { c.pcb with
    buf := blit c.pcb.buf (rcvBufSize - c.pcb.rcv.wnd.toNat) seg.data.length fun i => seg.data.getD i 0
    rcv := ⟨seg.seq + seg.len.toUInt32, c.pcb.rcv.wnd - UInt16.ofNat seg.data.length⟩ }
  ({ c with pcb := pcb }.output flgAck []).emit .wakeup

/-- The seventh step, the segment's text. -/
def segmentText (seg : Segment) (c : Conn) : Conn :=
  match c.pcb.state with
  | .established | .finWait1 | .finWait2 => if seg.data = [] then c else takeText seg c
  | _ => c

/-- The eighth check, of the FIN bit. -/
def finBit (seg : Segment) (c : Conn) : Conn :=
  if isSet seg.flg flgFin then
    match c.pcb.state with
    | .closed | .listen => c
    | _ =>
      let c := { c with pcb := { c.pcb with rcv := { c.pcb.rcv with nxt := seg.seq + 1 } } }.output flgAck []
      match c.pcb.state with
      | .synReceived | .established => (c.setState .closeWait).emit .wakeup
      | .finWait1 => c.setState (if seg.ack = c.pcb.snd.nxt then .timeWait else .closing)
      | .finWait2 => c.setState .timeWait
      | _ => c
  else c

/-- The processing shared by the other states. -/
def otherArrives (env : Env) (seg : Segment) (c : Conn) : Conn :=
  if c.pcb.state.checksWindow && !c.pcb.acceptable seg then
    if !isSet seg.flg flgRst then c.output flgAck [] else c
  else if !isSet seg.flg flgAck then c
  else
    match ackField env seg c with
    | (c, true) => finBit seg (segmentText seg c)
    | (c, false) => c

/-- `tcp_segment_arrives` for the block that `tcp_pcb_select` found. -/
def segmentArrives (env : Env) (seg : Segment) (c : Conn) : Conn :=
  match c.pcb.state with
  | .closed => closedArrives seg c
  | .listen => listenArrives env seg c
  | .synSent => synSentArrives seg c
  | _ => otherArrives env seg c

/-- The outcome of `tcp_receive`: an error, a sleep, or the bytes returned. -/
inductive Received
  | error
  | sleeps
  | bytes (data : List UInt8)

/-- The bytes that wait in the receive buffer. -/
def Pcb.buffered (pcb : Pcb) : ℕ := rcvBufSize - pcb.rcv.wnd.toNat

/-- The end of `tcp_receive`: copy out and move the rest to the front. -/
def takeBytes (pcb : Pcb) (size : ℕ) : Received × Pcb :=
  let remain := pcb.buffered
  let len := min size remain
  (.bytes (slice pcb.buf 0 len), { pcb with
    buf := blit pcb.buf 0 (remain - len) fun i => pcb.buf (i + len)
    rcv := { pcb.rcv with wnd := pcb.rcv.wnd + UInt16.ofNat len } })

/-- `tcp_receive`. -/
def receive (pcb : Pcb) (size : ℕ) : Received × Pcb :=
  match pcb.state with
  | .established => if pcb.buffered = 0 then (.sleeps, pcb) else takeBytes pcb size
  | .closeWait => if pcb.buffered = 0 then (.bytes [], pcb) else takeBytes pcb size
  | _ => (.error, pcb)

/-! ### Sending and closing -/

abbrev flgPsh : UInt8 := 0x08

/-- The outcome of one turn of the loop of `tcp_send`: an error, a sleep, or the bytes sent. -/
inductive SendTurn
  | error
  | sleeps
  | sent (count : ℕ)

/-- The room in the peer's window. -/
def Pcb.cap (pcb : Pcb) : UInt32 := pcb.snd.wnd.toUInt32 - (pcb.snd.nxt - pcb.snd.una)

/-- The end of a turn of `tcp_send`: the data leaves, or the connection is given up. -/
def sendChunk (env : Env) (grant : Grant) (chunk : List UInt8) (c : Conn) : SendTurn × Conn :=
  match c.outputIn grant (flgAck ||| flgPsh) chunk with
  | (c, true) => (.sent chunk.length, { c with pcb := { c.pcb with
      snd := { c.pcb.snd with nxt := c.pcb.snd.nxt + UInt32.ofNat chunk.length } } })
  | (c, false) => (.error, (c.setState .closed).release env)

/-- One turn of the loop of `tcp_send` with the data that is left; without a route to the peer there
is no segment size. -/
def sendTurn (env : Env) (grant : Grant) (mss : Option ℕ) (data : List UInt8) (c : Conn) : SendTurn × Conn :=
  match c.pcb.state, mss with
  | .established, some mss | .closeWait, some mss =>
    if c.pcb.cap = 0 then (.sleeps, c) else sendChunk env grant (data.take (min mss c.pcb.cap.toNat)) c
  | _, _ => (.error, c)

/-- The FIN of `tcp_close`. -/
def Conn.sendFin (c : Conn) (grant : Grant) (state : State) : Conn :=
  let c := (c.outputIn grant (flgAck ||| flgFin) []).1
  ({ c with pcb := { c.pcb with snd := { c.pcb.snd with nxt := c.pcb.snd.nxt + 1 } } }.setState state).emit .wakeup

/-- `tcp_close`; the flag says whether it succeeded. -/
def close (env : Env) (grant : Grant) (c : Conn) : Conn × Bool :=
  match c.pcb.state with
  | .listen => ((c.setState .closed).release env, true)
  | .established => (c.sendFin grant .finWait1, true)
  | .closeWait => (c.sendFin grant .lastAck, true)
  | _ => (c, false)

/-! ### Retransmission -/

/-- What `tcp_retransmit_queue_emit` finds for an entry on the clock. -/
inductive Due
  | early
  | late
  /-- The entry is `TCP_RETRANSMIT_DEADLINE` old. -/
  | expired
  deriving DecidableEq

/-- `tcp_retransmit_queue_emit`. -/
def queueEmit (c : Conn) (e : QueueEntry) : Due → Conn
  | .early => c
  | .late => c.outputSegment e.seq c.pcb.rcv.nxt e.flg c.pcb.rcv.wnd e.data c.pcb.localEp c.pcb.foreignEp
  | .expired => (c.setState .closed).emit .wakeup

/-- `tcp_timer` for one block; `due` reads the clock for the entries by their places in the
queue. -/
def timer (due : ℕ → Due) (c : Conn) : Conn :=
  if c.pcb.state = .free then c else c.pcb.queue.zipIdx.foldl (fun c e => queueEmit c e.1 (due e.2)) c

end Xv6.Tcp
