import Mathlib.Algebra.BigOperators.Group.Finset.Basic
import Mathlib.Data.Fintype.Sum
import Mathlib.Tactic.DeriveFintype
import Xv6.Net.Input
import Xv6.Net.Table

/-!
# Network buffers

Where the pages of the network stack come from and go to: `memory_alloc` and `memory_free`, the
queues of `kernel/net/util.c`, and every function of `ether.c`, `net.c`, `arp.c`, `ip.c`, `icmp.c`,
`udp.c` and `tcp.c` that takes or gives back a page. What is in a page is kept where a later
function reads it.

The parts that touch no page are answers from `Outside`: the clock, the results of the driver's
write, and what TCP does with a segment. TCP decides which of its queues to work on; here any
sequence of its work on pages may follow a segment, a call or the timer.
-/

namespace Xv6.Buffers

open Lib Ip Tcp

/-! ### Queues -/

/-- The protocols that `net_init` registers with `net_protocol_register`. -/
inductive Proto
  | ip | arp
  deriving DecidableEq

instance : Fintype Proto := ⟨{.ip, .arp}, fun p => by cases p <;> decide⟩

/-- `NET_PROTOCOL_TYPE_*`. -/
def Proto.type : Proto → UInt16
  | .ip => 0x0800
  | .arp => 0x0806

/-- The list that `net_input_handler` searches and `net_softirq_handler` goes through, the protocol
registered last in front. -/
def registered : List Proto := [.arp, .ip]

/-- The queues: one for each protocol, the receive queue of each UDP block, the retransmit queue and
the backlog of each TCP block. -/
inductive Queue
  | protocol (p : Proto)
  | udp (i : Fin pcbSize)
  | retransmit (i : Fin pcbSize)
  | backlog (i : Fin pcbSize)
  deriving DecidableEq, Fintype

/-- An entry in a page of its own. -/
structure Buffer (α : Type) where
  page : ℕ
  body : α

/-- `struct net_protocol_queue_entry`. -/
structure Received where
  dev : ℕ
  len : ℕ
  data : Bytes

/-- `struct udp_queue_entry`. -/
structure Datagram where
  foreign : Endpoint
  len : ℕ
  data : Bytes

/-- What the work on the retransmit queue reads of `struct tcp_queue_entry`. -/
structure Unacked where
  seq : UInt32
  len : ℕ

/-- What `queue_push` puts into a queue: a page, or a TCP block. -/
@[reducible]
def Queue.Data : Queue → Type
  | .protocol _ => Buffer Received
  | .udp _ => Buffer Datagram
  | .retransmit _ => Buffer Unacked
  | .backlog _ => Fin pcbSize

/-- `struct queue_entry`, with the page it lies in. -/
structure Link (q : Queue) where
  page : ℕ
  data : q.Data

/-! ### The state -/

/-- `ARP_CACHE_STATE_*`. -/
inductive CacheState
  | free | incomplete | resolved | static
  deriving DecidableEq

/-- `struct arp_cache`. -/
structure Cache where
  state : CacheState
  pa : UInt32
  ha : List UInt8
  timestamp : ℕ

/-- `UDP_PCB_STATE_*`. -/
inductive UdpState
  | free | open | closing
  deriving DecidableEq

/-- `struct udp_pcb` without its queue; `wc` and `interrupted` are those of its `sched_ctx`. -/
structure UdpPcb where
  state : UdpState
  loc : Endpoint
  wc : ℕ
  interrupted : Bool

/-- What leaves a function other than by its result: the driver's write is called with a frame, and
`udp_input` reports that a datagram could not be queued. -/
inductive Event
  | write (frame flen : ℕ)
  | udpPushFailure (entry : ℕ)
  deriving DecidableEq

/-- The page an event is about. -/
def Event.page : Event → ℕ
  | .write frame _ => frame
  | .udpPushFailure entry => entry

/-- The free list, the pages that the rest of the kernel has, the queues and the tables; the events
so far, and how often the clock was read and a segment arrived. -/
structure Stack where
  free : List ℕ
  others : List ℕ
  queue : (q : Queue) → List (Link q)
  tables : Tables
  up : ℕ → Bool
  caches : List Cache
  udp : Fin pcbSize → UdpPcb
  events : List Event
  reads : ℕ
  segments : ℕ

/-- The work of TCP on pages. -/
inductive TcpOp
  | outputSegment (len : ℕ) (src dst : UInt32)
  | queueAdd (i : Fin pcbSize) (seq : UInt32) (len : ℕ)
  | queueCleanup (i : Fin pcbSize) (una : UInt32)
  | establish (parent i : Fin pcbSize)
  | take (i : Fin pcbSize)
  | release (i : Fin pcbSize) (busy : Fin pcbSize → Bool)

/-- Answers from outside: the addresses of the devices, the clock, what the driver's write returns,
and what TCP does with a segment; the answers may differ from one time to the next. -/
structure Outside where
  addr : ℕ → List UInt8
  clock : ℕ → ℕ
  written : ℕ → ℤ
  reaction : ℕ → List TcpOp

/-! ### Memory -/

/-- `memory_alloc`. -/
def memoryAlloc (size : ℕ) : StateM Stack (Option ℕ) := do
  if memoryMax < size then pure none
  else do
    let s ← get
    match s.free with
    | [] => pure none
    | page :: free => do
      set { s with free := free }
      pure (some page)

/-- `memory_free`. -/
def memoryFree (page : ℕ) : StateM Stack Unit := modify fun s => { s with free := page :: s.free }

def setQueue (q : Queue) (links : List (Link q)) (s : Stack) : Stack :=
  { s with queue := Function.update s.queue q links }

/-- `queue_push`; the result is whether it succeeded. -/
def queuePush (q : Queue) (data : q.Data) : StateM Stack Bool := do
  match ← memoryAlloc 16 with
  | none => pure false
  | some page => do
    modify fun s => setQueue q (s.queue q ++ [⟨page, data⟩]) s
    pure true

/-- `queue_pop`. -/
def queuePop (q : Queue) : StateM Stack (Option q.Data) := do
  let s ← get
  match s.queue q with
  | [] => pure none
  | link :: links => do
    set (setQueue q links s)
    memoryFree link.page
    pure (some link.data)

/-- A loop that takes the entries out of a queue and frees them, for a number of turns. -/
def discard (q : Queue) (page : q.Data → ℕ) : ℕ → StateM Stack Unit
  | 0 => pure ()
  | turns + 1 => do
    match ← queuePop q with
    | none => pure ()
    | some data => do
      memoryFree (page data)
      discard q page turns

/-! ### Ethernet and devices -/

/-- `ETHER_FRAME_SIZE_MAX`. -/
abbrev etherFrameSizeMax : ℕ := 1514

/-- The call of the driver's write with a frame. -/
def write (o : Outside) (frame flen : ℕ) : StateM Stack ℤ := do
  let s ← get
  set { s with events := s.events ++ [Event.write frame flen] }
  pure (o.written s.events.length)

/-- `ether_transmit_helper`: the frame stays allocated. -/
def etherTransmitHelper (o : Outside) (len : ℕ) : StateM Stack ℤ := do
  match ← memoryAlloc etherFrameSizeMax with
  | none => pure (-1)
  | some frame => do
    let pad := if len < 46 then 46 - len else 0
    let flen := 14 + len + pad
    let n ← write o frame flen
    pure (if n = flen then 0 else -1)

/-- `net_device_output`. -/
def netDeviceOutput (o : Outside) (dev len : ℕ) : StateM Stack ℤ := do
  let s ← get
  if !s.up dev then pure (-1)
  else if s.tables.mtu dev < len then pure (-1)
  else do
    let ret ← etherTransmitHelper o len
    pure (if ret = -1 then -1 else 0)

/-! ### ARP -/

/-- `gettimeofday`, in microseconds. -/
def gettimeofday (o : Outside) : StateM Stack ℕ := do
  let s ← get
  set { s with reads := s.reads + 1 }
  pure (o.clock s.reads)

/-- `arp_request` and `arp_reply` send a message of this size, `struct arp_ether_ip`. -/
abbrev arpSize : ℕ := 28

def arpRequest (o : Outside) (dev : ℕ) : StateM Stack ℤ := netDeviceOutput o dev arpSize

def arpReply (o : Outside) (dev : ℕ) : StateM Stack ℤ := netDeviceOutput o dev arpSize

def Cache.empty : Cache := ⟨.free, 0, List.replicate 6 0, 0⟩

/-- `arp_cache_select`. -/
def arpCacheSelect (caches : List Cache) (pa : UInt32) : Option ℕ :=
  caches.findIdx? fun c => c.state ≠ .free ∧ c.pa = pa

/-- The loop of `arp_cache_alloc` for the oldest entry; of equal ones the first. -/
def oldestLoop : List Cache → ℕ → Option (ℕ × ℕ) → Option ℕ
  | [], _, oldest => oldest.map Prod.fst
  | c :: cs, i, none => oldestLoop cs (i + 1) (some (i, c.timestamp))
  | c :: cs, i, some (j, t) => oldestLoop cs (i + 1)
      (if c.timestamp < t then some (i, c.timestamp) else some (j, t))

/-- `arp_cache_alloc`: a free entry, or else the oldest one. -/
def arpCacheAlloc (caches : List Cache) : Option ℕ :=
  (caches.findIdx? fun c => c.state = .free).orElse fun _ => oldestLoop caches 0 none

/-- `arp_cache_update`; the result is whether there is an entry. -/
def arpCacheUpdate (o : Outside) (pa : UInt32) (ha : List UInt8) : StateM Stack Bool := do
  let s ← get
  match arpCacheSelect s.caches pa with
  | none => pure false
  | some i => do
    let now ← gettimeofday o
    modify fun s => { s with caches := s.caches.set i ⟨.resolved, pa, ha, now⟩ }
    pure true

/-- `arp_cache_insert`, and the entry that `arp_resolve` makes for an address it does not know. -/
def arpCacheInsert (o : Outside) (state : CacheState) (pa : UInt32) (ha : List UInt8) :
    StateM Stack Bool := do
  let s ← get
  match arpCacheAlloc s.caches with
  | none => pure false
  | some i => do
    let now ← gettimeofday o
    modify fun s => { s with caches := s.caches.set i ⟨state, pa, ha, now⟩ }
    pure true

/-- The bytes of a message from a position on. -/
def bytesAt (data : Bytes) (start count : ℕ) : List UInt8 := (List.range count).map fun i => data (start + i)

/-- `arp_input`. -/
def arpInput (o : Outside) (data : Bytes) (len dev : ℕ) : StateM Stack Unit := do
  if len < arpSize then pure ()
  else if ntoh16 (load16 data 0) ≠ 1 ∨ data 4 ≠ 6 then pure ()
  else if ntoh16 (load16 data 2) ≠ 0x0800 ∨ data 5 ≠ 4 then pure ()
  else do
    let sha := bytesAt data 8 6
    let spa := load32 data 14
    let tpa := load32 data 24
    let marge ← arpCacheUpdate o spa sha
    let s ← get
    match s.tables.iface dev with
    | none => pure ()
    | some iface =>
      if iface.unicast ≠ tpa then pure ()
      else do
        let _ ← (if marge then pure true else arpCacheInsert o .resolved spa sha)
        if ntoh16 (load16 data 6) = 1 then do
          let _ ← arpReply o dev
          pure ()
        else pure ()

/-- `ARP_RESOLVE_*`. -/
inductive Resolve
  | error | incomplete | found
  deriving DecidableEq

/-- `arp_resolve` on the interface of an Ethernet device. -/
def arpResolve (o : Outside) (dev : ℕ) (pa : UInt32) : StateM Stack Resolve := do
  let s ← get
  match (arpCacheSelect s.caches pa).bind fun i => s.caches[i]? with
  | none => do
    let made ← arpCacheInsert o .incomplete pa (List.replicate 6 0)
    if made then do
      let _ ← arpRequest o dev
      pure .incomplete
    else pure .error
  | some cache =>
    if cache.state = .incomplete then do
      let _ ← arpRequest o dev
      pure .incomplete
    else pure .found

/-- `ARP_CACHE_TIMEOUT`, as `diff.tv_sec > 30` on microseconds. -/
abbrev arpCacheTimeout : ℕ := 31000000

/-- `arp_timer_handler`. -/
def arpTimerHandler (o : Outside) : StateM Stack Unit := do
  let now ← gettimeofday o
  modify fun s => { s with caches := s.caches.map fun c =>
    if c.state ≠ .free ∧ c.state ≠ .static ∧ arpCacheTimeout ≤ now - c.timestamp then .empty else c }

/-! ### IP, ICMP and UDP -/

/-- `IP_TOTAL_SIZE_MAX`. -/
abbrev ipTotalSizeMax : ℕ := 1500

/-- `IP_PAYLOAD_SIZE_MAX`. -/
abbrev ipPayloadSizeMax : ℕ := 1480

/-- `ip_output_device`; devices need ARP. -/
def ipOutputDevice (o : Outside) (dev : ℕ) (iface : Iface) (len : ℕ) (dst : UInt32) : StateM Stack ℤ := do
  if dst = iface.broadcast ∨ dst = addrBroadcast then netDeviceOutput o dev len
  else do
    match ← arpResolve o dev dst with
    | .error => pure (-1)
    | .incomplete => pure 0
    | .found => netDeviceOutput o dev len

/-- `ip_output_core`; the total length has 16 bits. -/
def ipOutputCore (o : Outside) (dev : ℕ) (iface : Iface) (len : ℕ) (nexthop : UInt32) : StateM Stack ℤ := do
  match ← memoryAlloc ipTotalSizeMax with
  | none => pure (-1)
  | some buf => do
    let ret ← ipOutputDevice o dev iface ((hdrSizeMin + len) % 2 ^ 16) nexthop
    memoryFree buf
    pure ret

/-- `ip_output`. -/
def ipOutput (o : Outside) (len : ℕ) (src dst : UInt32) : StateM Stack ℤ := do
  let s ← get
  match s.tables.ipOutput len src dst with
  | .error _ => pure (-1)
  | .ok out =>
    match s.tables.iface out.dev with
    | none => pure (-1)
    | some iface => do
      let ret ← ipOutputCore o out.dev iface len out.nexthop
      pure (if ret = -1 then -1 else len)

/-- `icmp_output`. -/
def icmpOutput (o : Outside) (len : ℕ) (src dst : UInt32) : StateM Stack ℤ := do
  match ← memoryAlloc ipPayloadSizeMax with
  | none => pure (-1)
  | some buf => do
    let ret ← ipOutput o (8 + len) src dst
    memoryFree buf
    pure ret

/-- `udp_output`. -/
def udpOutput (o : Outside) (len : ℕ) (src dst : UInt32) : StateM Stack ℤ := do
  match ← memoryAlloc ipPayloadSizeMax with
  | none => pure (-1)
  | some buf =>
    if ipPayloadSizeMax - 8 < len then do
      memoryFree buf
      pure (-1)
    else do
      let ret ← ipOutput o (8 + len) src dst
      memoryFree buf
      pure (if ret = -1 then -1 else len)

/-- The open UDP blocks, as `udp_pcb_select` goes through them. -/
def openBlocks (s : Stack) : List (ℕ × Endpoint) :=
  ((List.finRange pcbSize).filter fun i => (s.udp i).state = .open).map fun i => (i.val, (s.udp i).loc)

/-- `udp_input`, from the checks on. When the datagram cannot be queued its entry stays
allocated. -/
def udpInput (frame : Bytes) (p : Packet) : StateM Stack Unit := do
  let s ← get
  match Ip.udpInput (openBlocks s) true frame p with
  | .ok (.enqueue block foreign payload) => do
    match ← memoryAlloc (12 + payload.len.toNat) with
    | none => pure ()
    | some entry => do
      let pushed ← queuePush (.udp (Fin.ofNat pcbSize block))
        ⟨entry, ⟨foreign, payload.len.toNat, payload.bytes frame⟩⟩
      if pushed then pure ()
      else modify fun s => { s with events := s.events ++ [Event.udpPushFailure entry] }
  | _ => pure ()

/-- `icmp_input`. -/
def icmpInput (o : Outside) (frame : Bytes) (p : Packet) : StateM Stack Unit := do
  match Ip.icmpInput frame p with
  | .ok (.reply _ _ payload src dst) => do
    let _ ← icmpOutput o payload.len.toNat src dst
    pure ()
  | _ => pure ()

/-! ### TCP -/

/-- `tcp_output_segment`; the total length has 16 bits. -/
def tcpOutputSegment (o : Outside) (len : ℕ) (src dst : UInt32) : StateM Stack ℤ := do
  match ← memoryAlloc ipPayloadSizeMax with
  | none => pure (-1)
  | some buf => do
    let ret ← ipOutput o ((20 + len) % 2 ^ 16) src dst
    memoryFree buf
    pure (if ret = -1 then -1 else len)

/-- `tcp_retransmit_queue_add`. -/
def tcpRetransmitQueueAdd (i : Fin pcbSize) (seq : UInt32) (len : ℕ) : StateM Stack ℤ := do
  match ← memoryAlloc (queueEntrySize + len) with
  | none => pure (-1)
  | some entry => do
    let pushed ← queuePush (.retransmit i) ⟨entry, ⟨seq, len⟩⟩
    if pushed then pure 0
    else do
      memoryFree entry
      pure (-1)

/-- The loop of `tcp_retransmit_queue_cleanup`, for a number of turns. -/
def cleanupLoop (i : Fin pcbSize) (una : UInt32) : ℕ → StateM Stack Unit
  | 0 => pure ()
  | turns + 1 => do
    let s ← get
    match s.queue (.retransmit i) with
    | [] => pure ()
    | link :: _ =>
      if una ≤ link.data.body.seq then pure ()
      else do
        match ← queuePop (.retransmit i) with
        | none => pure ()
        | some entry => do
          memoryFree entry.page
          cleanupLoop i una turns

/-- `tcp_retransmit_queue_cleanup`; every turn of its loop takes an entry out. -/
def tcpRetransmitQueueCleanup (i : Fin pcbSize) (una : UInt32) : StateM Stack Unit := do
  let s ← get
  cleanupLoop i una (s.queue (.retransmit i)).length

/-- The start of `tcp_pcb_release`: a block somebody sleeps on is left, the retransmit queue of
another is emptied. -/
def releaseStart (busy : Fin pcbSize → Bool) (i : Fin pcbSize) : StateM Stack Bool := do
  if busy i then pure false
  else do
    let s ← get
    discard (.retransmit i) Buffer.page (s.queue (.retransmit i)).length
    pure true

/-- The end of `tcp_pcb_release`: `memset` forgets the queues of the block. -/
def releaseEnd (i : Fin pcbSize) : StateM Stack Unit :=
  modify fun s => setQueue (.backlog i) [] (setQueue (.retransmit i) [] s)

/-- The recursion of `tcp_pcb_release` over backlogs with its stack, for a number of turns. -/
def releaseLoop (busy : Fin pcbSize → Bool) : ℕ → List (Fin pcbSize) → StateM Stack Unit
  | 0, _ => pure ()
  | _ + 1, [] => pure ()
  | turns + 1, i :: stack => do
    match ← queuePop (.backlog i) with
    | none => do
      releaseEnd i
      releaseLoop busy turns stack
    | some est => do
      let started ← releaseStart busy est
      releaseLoop busy turns (if started then est :: i :: stack else i :: stack)

/-- The blocks that wait in some backlog. -/
def waiting (s : Stack) : ℕ := ∑ i, (s.queue (.backlog i)).length

/-- `tcp_pcb_release`; `busy` are the blocks somebody sleeps on. -/
def tcpPcbRelease (busy : Fin pcbSize → Bool) (i : Fin pcbSize) : StateM Stack Unit := do
  let started ← releaseStart busy i
  if started then do
    let s ← get
    releaseLoop busy (2 * waiting s + 1) [i]
  else pure ()

def tcpOp (o : Outside) : TcpOp → StateM Stack Unit
  | .outputSegment len src dst => do
    let _ ← tcpOutputSegment o len src dst
    pure ()
  | .queueAdd i seq len => do
    let _ ← tcpRetransmitQueueAdd i seq len
    pure ()
  | .queueCleanup i una => tcpRetransmitQueueCleanup i una
  | .establish parent i => do
    let _ ← queuePush (.backlog parent) i
    pure ()
  | .take i => do
    let _ ← queuePop (.backlog i)
    pure ()
  | .release i busy => tcpPcbRelease busy i

/-- `tcp_input`, with what `tcp_segment_arrives` does to pages. -/
def tcpInput (o : Outside) (frame : Bytes) (p : Packet) : StateM Stack Unit := do
  match Ip.tcpInput frame p with
  | .ok _ => do
    let s ← get
    set { s with segments := s.segments + 1 }
    (o.reaction s.segments).forM (tcpOp o)
  | .error _ => pure ()

/-! ### Input -/

/-- `ip_input`. -/
def ipInput (o : Outside) (data : Bytes) (len dev : ℕ) : StateM Stack Unit := do
  let s ← get
  match Ip.ipInput (s.tables.iface dev) data (UInt64.ofNat len) with
  | .error _ => pure ()
  | .ok p =>
    match p.protocol with
    | .icmp => icmpInput o data p
    | .udp => udpInput data p
    | .tcp => tcpInput o data p

/-- The handlers that `net_init` registers. -/
def Proto.handler (o : Outside) : Proto → Bytes → ℕ → ℕ → StateM Stack Unit
  | .ip => ipInput o
  | .arp => arpInput o

/-- `net_input_handler`. -/
def netInputHandler (type : UInt16) (data : Bytes) (len dev : ℕ) : StateM Stack ℤ := do
  match registered.find? fun p => p.type = type with
  | none => pure 0
  | some proto => do
    match ← memoryAlloc (16 + len) with
    | none => pure (-1)
    | some entry => do
      let pushed ← queuePush (.protocol proto) ⟨entry, ⟨dev, len, data⟩⟩
      if pushed then pure 0
      else do
        memoryFree entry
        pure (-1)

/-- `ether_input_helper`; `flen` is what the driver's read returns, and `frame` what it puts into
the buffer. -/
def etherInputHelper (o : Outside) (dev : ℕ) (flen : ℤ) (frame : Bytes) : StateM Stack ℤ := do
  match ← memoryAlloc etherFrameSizeMax with
  | none => pure (-1)
  | some buf =>
    if flen < 14 then do
      memoryFree buf
      pure (-1)
    else if o.addr dev ≠ bytesAt frame 0 6 ∧ List.replicate 6 0xff ≠ bytesAt frame 0 6 then do
      memoryFree buf
      pure (-1)
    else do
      let ret ← netInputHandler (ntoh16 (load16 frame 12)) (fun i => frame (14 + i)) (flen - 14).toNat dev
      memoryFree buf
      pure ret

/-- The inner loop of `net_softirq_handler`, for a number of turns. -/
def drain (o : Outside) (proto : Proto) : ℕ → StateM Stack Unit
  | 0 => pure ()
  | turns + 1 => do
    match ← queuePop (.protocol proto) with
    | none => pure ()
    | some entry => do
      proto.handler o entry.body.data entry.body.len entry.body.dev
      memoryFree entry.page
      drain o proto turns

/-- The turn of the outer loop for a protocol. -/
def drainQueue (o : Outside) (proto : Proto) : StateM Stack Unit := do
  let s ← get
  drain o proto (s.queue (.protocol proto)).length

/-- `net_softirq_handler`. -/
def netSoftirqHandler (o : Outside) : StateM Stack Unit := registered.forM (drainQueue o)

/-! ### Calls on UDP blocks -/

/-- `udp_pcb_get`. -/
def udpPcbGet (s : Stack) (id : ℤ) : Option (Fin pcbSize) :=
  if h : 0 ≤ id ∧ id < pcbSize then
    let i : Fin pcbSize := ⟨id.toNat, by omega⟩
    if (s.udp i).state = .open then some i else none
  else none

def setUdp (i : Fin pcbSize) (pcb : UdpPcb) (s : Stack) : Stack :=
  { s with udp := Function.update s.udp i pcb }

/-- `udp_open` with `udp_pcb_alloc`. -/
def udpOpen : StateM Stack ℤ := do
  let s ← get
  match (List.finRange pcbSize).find? fun i => (s.udp i).state = .free with
  | none => pure (-1)
  | some i => do
    set (setUdp i { s.udp i with state := .open, wc := 0, interrupted := false } s)
    pure i.val

/-- `udp_bind`. -/
def udpBind (id : ℤ) (loc : Endpoint) : StateM Stack ℤ := do
  let s ← get
  match udpPcbGet s id with
  | none => pure (-1)
  | some i =>
    if (udpPcbSelect (openBlocks s) loc.addr loc.port).isSome then pure (-1)
    else do
      set (setUdp i { s.udp i with loc := loc } s)
      pure 0

/-- The search of `udp_sendto` for a port that no open block uses. -/
def udpSourcePort (s : Stack) (addr : UInt32) : ℕ → ℕ → UInt16
  | 0, _ => 0
  | count + 1, p =>
    if (udpPcbSelect (openBlocks s) addr (ntoh16 (UInt16.ofNat p))).isNone then ntoh16 (UInt16.ofNat p)
    else udpSourcePort s addr count (p + 1)

/-- The local address of `udp_sendto`, by `ip_route_get_iface`. -/
def udpSourceAddr (s : Stack) (loc : Endpoint) (foreign : UInt32) : Option UInt32 :=
  if loc.addr = addrAny then
    ((s.tables.routeLookup foreign).bind fun r => s.tables.iface r.dev).map fun iface => iface.unicast
  else some loc.addr

/-- The local port of `udp_sendto`. -/
def udpLocalPort (s : Stack) (loc : Endpoint) (addr : UInt32) : UInt16 :=
  if loc.port = 0 then udpSourcePort s addr 16384 49152 else loc.port

/-- `udp_sendto`. -/
def udpSendto (o : Outside) (id : ℤ) (len : ℕ) (foreign : Endpoint) : StateM Stack ℤ := do
  let s ← get
  match udpPcbGet s id with
  | none => pure (-1)
  | some i =>
    match udpSourceAddr s (s.udp i).loc foreign.addr with
    | none => pure (-1)
    | some addr => do
      let port := udpLocalPort s (s.udp i).loc addr
      if port = 0 then pure (-1)
      else do
        set (setUdp i { s.udp i with loc := { (s.udp i).loc with port := port } } s)
        udpOutput o len addr foreign.addr

/-- `udp_pcb_release`. -/
def udpPcbRelease (i : Fin pcbSize) : StateM Stack Unit := do
  let s ← get
  if (s.udp i).wc ≠ 0 then set (setUdp i { s.udp i with state := .closing } s)
  else do
    set (setUdp i { s.udp i with state := .free, loc := ⟨addrAny, 0⟩ } s)
    discard (.udp i) Buffer.page (s.queue (.udp i)).length

/-- `udp_close`. -/
def udpClose (id : ℤ) : StateM Stack ℤ := do
  let s ← get
  match udpPcbGet s id with
  | none => pure (-1)
  | some i => do
    udpPcbRelease i
    pure 0

/-- A turn of the loop of `udp_recvfrom`: the result is how much is copied, or nothing if the
process goes to sleep. -/
def recvTurn (i : Fin pcbSize) (size : ℕ) : StateM Stack (Option ℤ) := do
  match ← queuePop (.udp i) with
  | some entry => do
    memoryFree entry.page
    pure (some (min size entry.body.len : ℕ))
  | none => do
    let s ← get
    if (s.udp i).interrupted then pure (some (-1))
    else do
      set (setUdp i { s.udp i with wc := (s.udp i).wc + 1 } s)
      pure none

/-- `udp_recvfrom` up to its first sleep. -/
def udpRecvfrom (id : ℤ) (size : ℕ) : StateM Stack (Option ℤ) := do
  let s ← get
  match udpPcbGet s id with
  | none => pure (some (-1))
  | some i => recvTurn i size

/-- `udp_recvfrom` from a sleep to the next one. -/
def udpResume (i : Fin pcbSize) (size : ℕ) : StateM Stack (Option ℤ) := do
  let s ← get
  let wc := (s.udp i).wc - 1
  if (s.udp i).interrupted then do
    set (setUdp i { s.udp i with wc := wc, interrupted := decide (wc ≠ 0) } s)
    pure (some (-1))
  else do
    set (setUdp i { s.udp i with wc := wc } s)
    if (s.udp i).state = .closing then do
      udpPcbRelease i
      pure (some (-1))
    else recvTurn i size

/-- The event handler of UDP. -/
def udpEventHandler : StateM Stack Unit :=
  modify fun s => { s with udp := fun i => if (s.udp i).state =
    .open then { s.udp i with interrupted := true } else s.udp i }

/-! ### Operations -/

/-- The operations: frames arrive, the soft interrupt and the timers run, packets of every protocol
are sent, system calls work on UDP and TCP blocks, the configuration changes, and the rest of the
kernel takes and gives back pages. -/
inductive Act
  | receive (dev : ℕ) (flen : ℤ) (frame : Bytes)
  | softirq
  | arpTimer
  | event
  | arpRequest (dev : ℕ)
  | arpReply (dev : ℕ)
  | ipOutput (len : ℕ) (src dst : UInt32)
  | icmpOutput (len : ℕ) (src dst : UInt32)
  | udpOutput (len : ℕ) (src dst : UInt32)
  | udpOpen
  | udpBind (id : ℤ) (loc : Endpoint)
  | udpSendto (id : ℤ) (len : ℕ) (foreign : Endpoint)
  | udpRecvfrom (id : ℤ) (size : ℕ)
  | udpResume (i : Fin pcbSize) (size : ℕ)
  | udpClose (id : ℤ)
  | tcp (ops : List TcpOp)
  | configure (tables : Tables) (up : ℕ → Bool)
  | kalloc
  | kfree (page : ℕ)

/-- The rest of the kernel takes a page. -/
def kalloc : StateM Stack Unit := do
  let page ← memoryAlloc memoryMax
  modify fun s => { s with others := page.toList ++ s.others }

/-- The rest of the kernel gives back a page of its own. -/
def kfree (page : ℕ) : StateM Stack Unit :=
  modify fun s => if page ∈ s.others then { s with others := s.others.erase page, free := page :: s.free } else s

/-- An operation, without its result. -/
def perform (o : Outside) : Act → StateM Stack Unit
  | .receive dev flen frame => do
    let _ ← etherInputHelper o dev flen frame
    pure ()
  | .softirq => netSoftirqHandler o
  | .arpTimer => arpTimerHandler o
  | .event => udpEventHandler
  | .arpRequest dev => do
    let _ ← arpRequest o dev
    pure ()
  | .arpReply dev => do
    let _ ← arpReply o dev
    pure ()
  | .ipOutput len src dst => do
    let _ ← ipOutput o len src dst
    pure ()
  | .icmpOutput len src dst => do
    let _ ← icmpOutput o len src dst
    pure ()
  | .udpOutput len src dst => do
    let _ ← udpOutput o len src dst
    pure ()
  | .udpOpen => do
    let _ ← udpOpen
    pure ()
  | .udpBind id loc => do
    let _ ← udpBind id loc
    pure ()
  | .udpSendto id len foreign => do
    let _ ← udpSendto o id len foreign
    pure ()
  | .udpRecvfrom id size => do
    let _ ← udpRecvfrom id size
    pure ()
  | .udpResume i size => do
    let _ ← udpResume i size
    pure ()
  | .udpClose id => do
    let _ ← udpClose id
    pure ()
  | .tcp ops => ops.forM (tcpOp o)
  | .configure tables up => modify fun s => { s with tables := tables, up := up }
  | .kalloc => kalloc
  | .kfree page => kfree page

/-- A sequence of operations. -/
def performAll (o : Outside) (acts : List Act) (s : Stack) : Stack := ((acts.forM (perform o)).run s).2

end Xv6.Buffers
