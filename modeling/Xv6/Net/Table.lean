import Mathlib.Logic.Function.Basic
import Xv6.Net.Tcp

/-!
# The table of control blocks

`kernel/net/tcp.c` over its sixteen blocks: allocation, release and selection of blocks, the
user calls in socket mode, arriving segments, the timer and interrupts. Every function holds
the mutex from its start to its end or to `sched_sleep`, and the steps are these sections. A
sleeping call may go on at any time: `kill` wakes sleepers as `sched_wakeup` does, and the
loops of the callers test their conditions again.
-/

namespace Xv6.Tcp

open Function

/-- `TCP_PCB_SIZE`. -/
abbrev pcbSize : ℕ := 16

/-- A block of the table with its backlog and its scheduling context. -/
structure Slot where
  pcb : Pcb
  backlog : List ℕ
  interrupted : Bool
  /-- The number of calls that sleep on the block. -/
  wc : ℕ

/-- A block as `memset` leaves it. -/
def Slot.zero : Slot := ⟨.zero, [], false, 0⟩

/-- A sleeping call: the block it sleeps on, and what it needs to go on. -/
inductive Wait
  | accept (id : ℕ)
  | connect (id : ℕ) (seen : State)
  | send (id : ℕ) (data : List UInt8) (sent : ℕ)
  | receive (id : ℕ) (size : ℕ)

/-- The table, and the sleeping calls by process. -/
structure Net where
  slot : ℕ → Slot
  wait : ℕ → Option Wait

/-- The outcome of a section: a return value, a sleep, or a loop without end. -/
inductive Outcome
  | ret (value : ℤ)
  | sleeps
  | hangs
  deriving DecidableEq

namespace Net

def state (n : Net) (i : ℕ) : State := (n.slot i).pcb.state

def modify (n : Net) (i : ℕ) (f : Slot → Slot) : Net := { n with slot := update n.slot i (f (n.slot i)) }

def setPcb (n : Net) (i : ℕ) (pcb : Pcb) : Net := n.modify i fun s => { s with pcb := pcb }

def setState (n : Net) (i : ℕ) (state : State) : Net :=
  n.modify i fun s => { s with pcb := { s.pcb with state := state } }

/-! ### Blocks -/

/-- The block that `tcp_pcb_alloc` takes. -/
def firstFree (n : Net) : Option ℕ := (List.range pcbSize).find? fun i => n.state i = .free

/-- `tcp_pcb_alloc`: the rest of the block is as it was left. -/
def alloc (n : Net) (i : ℕ) : Net :=
  n.modify i fun s => { s with pcb := { s.pcb with state := .closed }, interrupted := false, wc := 0 }

/-- The clearing of blocks by `tcp_pcb_release`: a block somebody sleeps on is left, another is
cleared and those of its backlog are next. The order in which they are cleared does not show. -/
def releaseLoop : ℕ → List ℕ → (ℕ → Slot) → (ℕ → Slot)
  | 0, _, slot => slot
  | _ + 1, [], slot => slot
  | fuel + 1, i :: stack, slot =>
    if (slot i).wc ≠ 0 then releaseLoop fuel stack slot
    else releaseLoop fuel ((slot i).backlog ++ stack) (update slot i .zero)

/-- The blocks that wait in some backlog. -/
def queued (slot : ℕ → Slot) : ℕ := ((List.range pcbSize).map fun i => (slot i).backlog.length).sum

/-- `tcp_pcb_release`. -/
def release (n : Net) (i : ℕ) : Net := { n with slot := releaseLoop (queued n.slot + 1) [i] n.slot }

/-- The loop of `tcp_pcb_select`; `listen` is the last listener met. -/
def selectLoop (n : Net) (loc : Endpoint) (foreign : Option Endpoint) : List ℕ → Option ℕ → Option ℕ
  | [], listen => listen
  | i :: is, listen =>
    let pcb := (n.slot i).pcb
    if (pcb.localEp.addr = 0 ∨ pcb.localEp.addr = loc.addr) ∧ pcb.localEp.port = loc.port then
      match foreign with
      | none => some i
      | some foreign =>
        if pcb.foreignEp = foreign then some i
        else if pcb.state = .listen ∧ pcb.foreignEp = ⟨0, 0⟩ then selectLoop n loc (some foreign) is (some i)
        else selectLoop n loc (some foreign) is listen
    else selectLoop n loc foreign is listen

/-- `tcp_pcb_select`. -/
def select (n : Net) (loc : Endpoint) (foreign : Option Endpoint) : Option ℕ :=
  n.selectLoop loc foreign (List.range pcbSize) none

/-- `tcp_pcb_get`. -/
def get (n : Net) (id : ℤ) : Option ℕ :=
  if 0 ≤ id ∧ id < pcbSize ∧ n.state id.toNat ≠ .free then some id.toNat else none

/-- `tcp_pcb_get` with the test of the mode. -/
def getSocket (n : Net) (id : ℤ) : Option ℕ := (n.get id).filter fun i => (n.slot i).pcb.mode = .socket

/-! ### Sleeping -/

/-- `sched_sleep` up to the sleep; an interrupted context fails at once. -/
def trySleep (n : Net) (p i : ℕ) (w : Wait) (failed : Outcome × Net) : Outcome × Net :=
  if (n.slot i).interrupted then failed
  else
    let n := n.modify i fun s => { s with wc := s.wc + 1 }
    (.sleeps, { n with wait := update n.wait p (some w) })

/-- `sched_sleep` from the wakeup on; the flag says whether the sleep was interrupted. -/
def wake (n : Net) (p i : ℕ) : Bool × Net :=
  let interrupted := (n.slot i).interrupted
  let n := n.modify i fun s =>
    { s with wc := s.wc - 1, interrupted := interrupted && decide (s.wc - 1 ≠ 0) }
  (interrupted, { n with wait := update n.wait p none })

/-! ### User calls -/

/-- `tcp_open`. -/
def openSocket (n : Net) : Outcome × Net :=
  match n.firstFree with
  | none => (.ret (-1), n)
  | some i => (.ret i, (n.alloc i).modify i fun s => { s with pcb := { s.pcb with mode := .socket } })

/-- `tcp_bind`. -/
def bind (n : Net) (id : ℤ) (loc : Endpoint) : Outcome × Net :=
  match n.getSocket id with
  | none => (.ret (-1), n)
  | some i =>
    if (n.select loc none).isSome then (.ret (-1), n)
    else (.ret 0, n.modify i fun s => { s with pcb := { s.pcb with localEp := loc } })

/-- `tcp_listen`. -/
def listen (n : Net) (id : ℤ) : Outcome × Net :=
  match n.getSocket id with
  | none => (.ret (-1), n)
  | some i => (.ret 0, n.setState i .listen)

/-- A block is closed and released, and the call fails. -/
def giveUp (n : Net) (i : ℕ) : Outcome × Net := (.ret (-1), (n.setState i .closed).release i)

/-- `tcp_connect` waits until the state is no longer the one seen. -/
def connectLoop (n : Net) (p i : ℕ) (seen : State) : Outcome × Net :=
  if n.state i = seen then n.trySleep p i (.connect i seen) (n.giveUp i)
  else if n.state i = .established then (.ret i, n)
  else if n.state i = .synReceived then n.trySleep p i (.connect i .synReceived) (n.giveUp i)
  else n.giveUp i

/-- `TCP_SOURCE_PORT_MIN` and `TCP_SOURCE_PORT_MAX`. -/
abbrev sourcePortMin : ℕ := 49152

abbrev sourcePortMax : ℕ := 65535

/-- The search for a source port from `port` on; when all are taken the last one stays. -/
def sourcePort (n : Net) (addr : UInt32) (foreign : Endpoint) : ℕ → ℕ → UInt16
  | 0, _ => UInt16.ofNat sourcePortMax
  | fuel + 1, port =>
    if (n.select ⟨addr, UInt16.ofNat port⟩ (some foreign)).isNone then UInt16.ofNat port
    else sourcePort n addr foreign fuel (port + 1)

/-- What `tcp_connect` finds: the address of the interface towards the peer, a random number,
memory. -/
structure ConnectEnv where
  iface : Option UInt32
  random : UInt32
  grant : Grant

/-- The source address of a new connection; `none` if there is no interface. -/
def sourceAddr (env : ConnectEnv) (pcb : Pcb) : Option UInt32 :=
  if pcb.localEp.addr = 0 then env.iface else some pcb.localEp.addr

/-- The source port of a new connection. -/
def connectPort (n : Net) (addr : UInt32) (foreign : Endpoint) (pcb : Pcb) : UInt16 :=
  if pcb.localEp.port = 0 then n.sourcePort addr foreign (sourcePortMax + 1 - sourcePortMin) sourcePortMin
  else pcb.localEp.port

/-- The SYN of `tcp_connect`. -/
def sendSyn (env : ConnectEnv) (loc foreign : Endpoint) (pcb : Pcb) : Conn × Bool :=
  let pcb := { pcb with
    localEp := loc, foreignEp := foreign
    rcv := { pcb.rcv with wnd := UInt16.ofNat rcvBufSize }, iss := env.random }
  (⟨pcb, []⟩ : Conn).outputIn env.grant flgSyn []

/-- `tcp_connect`. -/
def connect (n : Net) (p : ℕ) (id : ℤ) (foreign : Endpoint) (env : ConnectEnv) : Outcome × Net :=
  match n.getSocket id with
  | none => (.ret (-1), n)
  | some i =>
    let pcb := (n.slot i).pcb
    match sourceAddr env pcb with
    | none => (.ret (-1), n)
    | some addr =>
      match sendSyn env ⟨addr, n.connectPort addr foreign pcb⟩ foreign pcb with
      | (c, false) => (n.setPcb i c.pcb).giveUp i
      | (c, true) =>
        let n := n.setPcb i { c.pcb with
          snd := { c.pcb.snd with una := c.pcb.iss, nxt := c.pcb.iss + 1 }, state := .synSent }
        n.connectLoop p i .synSent

/-- The loop of `tcp_accept`. -/
def acceptLoop (n : Net) (p i : ℕ) : Outcome × Net :=
  match (n.slot i).backlog with
  | j :: rest => (.ret j, n.modify i fun s => { s with backlog := rest })
  | [] => n.trySleep p i (.accept i) (.ret (-1), n)

/-- `tcp_accept`. -/
def accept (n : Net) (p : ℕ) (id : ℤ) : Outcome × Net :=
  match n.getSocket id with
  | none => (.ret (-1), n)
  | some i => if n.state i = .listen then n.acceptLoop p i else (.ret (-1), n)

/-- What the turns of `tcp_send` find: the segment size towards the peer, and memory turn by
turn. -/
structure SendEnv where
  mss : Option ℕ
  grant : ℕ → Grant

/-- The loop of `tcp_send` with the data that is left and the bytes sent so far. -/
def sendLoop (env : SendEnv) (p i : ℕ) : ℕ → List UInt8 → ℕ → Net → Outcome × Net
  | 0, _, _, n => (.hangs, n)
  | fuel + 1, data, sent, n =>
    match n.state i, env.mss, data with
    | .established, some _, [] | .closeWait, some _, [] => (.ret sent, n)
    | _, _, _ =>
      match sendTurn ⟨i, 0, false, true⟩ (env.grant fuel) env.mss data ⟨(n.slot i).pcb, []⟩ with
      | (.sleeps, _) => n.trySleep p i (.send i data sent) (.ret (if sent = 0 then -1 else sent), n)
      | (.sent count, c) => sendLoop env p i fuel (data.drop count) (sent + count) (n.setPcb i c.pcb)
      | (.error, c) =>
        let n' := n.setPcb i c.pcb
        -- only a segment that did not leave closes the connection
        (.ret (-1), if n.state i ≠ .closed ∧ c.pcb.state = .closed then n'.release i else n')

/-- `tcp_send`. -/
def send (n : Net) (p : ℕ) (id : ℤ) (data : List UInt8) (env : SendEnv) : Outcome × Net :=
  match n.get id with
  | none => (.ret (-1), n)
  | some i => sendLoop env p i (data.length + 1) data 0 n

/-- The loop of `tcp_receive`. -/
def receiveLoop (n : Net) (p i size : ℕ) : Outcome × Net :=
  match Tcp.receive (n.slot i).pcb size with
  | (.error, _) => (.ret (-1), n)
  | (.sleeps, _) => n.trySleep p i (.receive i size) (.ret (-1), n)
  | (.bytes data, pcb) => (.ret data.length, n.setPcb i pcb)

/-- `tcp_receive`. -/
def receive (n : Net) (p : ℕ) (id : ℤ) (size : ℕ) : Outcome × Net :=
  match n.get id with
  | none => (.ret (-1), n)
  | some i => n.receiveLoop p i size

/-- `tcp_close`. -/
def close (n : Net) (id : ℤ) (grant : Grant) : Outcome × Net :=
  match n.get id with
  | none => (.ret (-1), n)
  | some i =>
    match Tcp.close ⟨i, 0, false, true⟩ grant ⟨(n.slot i).pcb, []⟩ with
    | (_, false) => (.ret (-1), n)
    | (c, true) =>
      let n' := n.setPcb i c.pcb
      (.ret 0, if c.pcb.state = .closed then n'.release i else n')

/-- A call goes on behind `sched_sleep`. -/
def afterSleep (n : Net) (p i : ℕ) (interrupted goesOn : Net → Outcome × Net) : Outcome × Net :=
  if (n.wake p i).1 then interrupted (n.wake p i).2 else goesOn (n.wake p i).2

/-- A sleeping call goes on. -/
def resume (n : Net) (p : ℕ) (env : SendEnv) : Wait → Outcome × Net
  | .accept i => n.afterSleep p i (fun n => (.ret (-1), n)) fun n =>
      if n.state i = .closed then (.ret (-1), n.release i) else n.acceptLoop p i
  | .connect i seen => n.afterSleep p i (fun n => n.giveUp i) fun n => n.connectLoop p i seen
  | .send i data sent => n.afterSleep p i (fun n => (.ret (if sent = 0 then -1 else sent), n))
      (sendLoop env p i (data.length + 1) data sent)
  | .receive i size => n.afterSleep p i (fun n => (.ret (-1), n)) fun n => n.receiveLoop p i size

/-! ### Events -/

/-- What a segment does outside its block: a new block in the free one, an entry in a backlog. -/
def effect (i : ℕ) (free : Option ℕ) (push : Bool) (n : Net) : Effect → Net
  | .spawn pcb =>
    match free with
    | some j => (n.alloc j).setPcb j pcb
    | none => n
  | .backlog parent => if push then n.modify parent fun s => { s with backlog := s.backlog ++ [i] } else n
  | _ => n

/-- What `tcp_segment_arrives` finds: a random number, and memory for an entry of a backlog. -/
structure SegmentEnv where
  random : UInt32
  push : Bool

/-- `tcp_segment_arrives` for the block at `i`. -/
def arriveAt (n : Net) (seg : Segment) (env : SegmentEnv) (i : ℕ) : Net :=
  let c := segmentArrives ⟨i, env.random, n.firstFree.isSome, true⟩ seg ⟨(n.slot i).pcb, []⟩
  let n' := c.fx.foldl (effect i n.firstFree env.push) (n.setPcb i c.pcb)
  -- the acknowledgment of our FIN releases the block
  if n.state i = .lastAck ∧ c.pcb.state = .closed then n'.release i else n'

/-- `tcp_input` behind its tests: a segment for no block is only answered. -/
def arrive (n : Net) (seg : Segment) (env : SegmentEnv) : Net :=
  match n.select seg.localEp (some seg.foreignEp) with
  | none => n
  | some i => n.arriveAt seg env i

/-- `tcp_timer`. -/
def tick (n : Net) (due : ℕ → ℕ → Due) : Net :=
  let slot i := if i < pcbSize then { n.slot i with pcb := (timer (due i) ⟨(n.slot i).pcb, []⟩).pcb } else n.slot i
  { n with slot := slot }

/-- `event_handler`. -/
def interrupt (n : Net) : Net :=
  let slot i := if i < pcbSize ∧ n.state i ≠ .free then { n.slot i with interrupted := true } else n.slot i
  { n with slot := slot }

end Net

/-- The user calls. -/
inductive Call
  | openSocket
  | bind (id : ℤ) (loc : Endpoint)
  | listen (id : ℤ)
  | connect (id : ℤ) (foreign : Endpoint) (env : Net.ConnectEnv)
  | accept (id : ℤ)
  | send (id : ℤ) (data : List UInt8) (env : Net.SendEnv)
  | receive (id : ℤ) (size : ℕ)
  | close (id : ℤ) (grant : Grant)

/-- What can happen: a call of a process, a sleeping call that goes on, a segment, the timer, an
interrupt. -/
inductive Net.Event
  | call (p : ℕ) (c : Call)
  | resume (p : ℕ) (env : Net.SendEnv)
  | segment (seg : Segment) (env : Net.SegmentEnv)
  | tick (due : ℕ → ℕ → Due)
  | interrupt

def Call.run (n : Net) (p : ℕ) : Call → Outcome × Net
  | .openSocket => n.openSocket
  | .bind id loc => n.bind id loc
  | .listen id => n.listen id
  | .connect id foreign env => n.connect p id foreign env
  | .accept id => n.accept p id
  | .send id data env => n.send p id data env
  | .receive id size => n.receive p id size
  | .close id grant => n.close id grant

/-- The section that an event runs; a process that sleeps makes no calls. -/
def Net.Event.run (n : Net) : Net.Event → Option (Outcome × Net)
  | .call p c => if (n.wait p).isNone then some (c.run n p) else none
  | .resume p env => (n.wait p).map (n.resume p env)
  | .segment seg env => some (.ret 0, n.arrive seg env)
  | .tick due => some (.ret 0, n.tick due)
  | .interrupt => some (.ret 0, n.interrupt)

/-- The table at boot. -/
def Net.boot : Net := ⟨fun _ => .zero, fun _ => none⟩

end Xv6.Tcp
