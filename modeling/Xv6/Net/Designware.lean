import Xv6.Lib.Backlog
import Xv6.Lib.Bytes
import Xv6.Lib.Ring
import Xv6.Lib.Run
import Mathlib.Tactic.IntervalCases

/-!
# The descriptor rings of the Ethernet driver

`kernel/designware.c` and the DMA engine share two rings of sixteen descriptors; the ownership bit
of a descriptor says which of them may touch it and its buffer. `_dw_eth_send` fills transmit
descriptors and the engine clears their bits in ring order; the engine fills receive descriptors in
ring order, and an interrupt hands at most one of them to `ether_input_helper`.

The engine is the environment: it sets the other bits of a status word as it likes. The data cache,
which the driver flushes by hand, is taken to be coherent.

`_dw_eth_send` leaves through its full-ring path without `release`. Then no call takes `priv->lock`
again.
-/

namespace Xv6.Designware

open Lib Function

/-- `CONFIG_TX_DESCR_NUM`. -/
abbrev txDescrNum : ℕ := 16

/-- `CONFIG_RX_DESCR_NUM`. -/
abbrev rxDescrNum : ℕ := 16

/-- `ETH_ZLEN`. -/
abbrev ethZlen : ℕ := 60

/-- `ETHER_FRAME_SIZE_MAX`. -/
abbrev etherFrameSizeMax : ℕ := 1514

/-- `ETHER_HDR_SIZE`. -/
abbrev etherHdrSize : ℕ := 14

/-- `MAC_MAX_FRAME_SZ`. -/
abbrev macMaxFrameSz : ℕ := 1600

/-- `DESC_TXSTS_OWNBYDMA` and `DESC_RXSTS_OWNBYDMA`. -/
abbrev descOwnByDma : UInt32 := 0x80000000

/-- `DESC_TXCTRL_TXINT | DESC_TXCTRL_TXLAST | DESC_TXCTRL_TXFIRST`. -/
abbrev descTxctrlFlags : UInt32 := 0xE0000000

/-- `DESC_TXCTRL_TXCHAIN`. -/
abbrev descTxctrlTxchain : UInt32 := 0x01000000

/-- `DESC_TXCTRL_SIZE1MASK`. -/
abbrev descTxctrlSize1mask : UInt32 := 0x7FF

/-- `DESC_RXSTS_FRMLENMSK`. -/
abbrev descRxstsFrmlenmsk : UInt32 := 0x3FFF0000

/-- `(MAC_MAX_FRAME_SZ & DESC_RXCTRL_SIZE1MASK) | DESC_RXCTRL_RXCHAIN`. -/
abbrev descRxctrl : UInt32 := 0x01000640

/-- The address that `eth_init` gives the device. -/
def macAddr : List UInt8 := [0x24, 0x0b, 0x2a, 0x21, 0x09, 0x20]

/-- `ETHER_ADDR_BROADCAST`. -/
def etherAddrBroadcast : List UInt8 := List.replicate 6 0xff

/-- `struct dmamacdescr`, without the addresses: descriptor `i` always points at buffer `i` and its
successor. -/
structure Descr where
  txrxStatus : UInt32
  dmamacCntl : UInt32

namespace Descr

def ownByDma (p : Descr) : Bool := p.txrxStatus &&& descOwnByDma != 0

/-- The length field of a received descriptor. -/
def frmlen (p : Descr) : ℕ := ((p.txrxStatus &&& descRxstsFrmlenmsk) >>> 16).toNat

/-- The length field of a descriptor to transmit. -/
def size1 (p : Descr) : ℕ := (p.dmamacCntl &&& descTxctrlSize1mask).toNat

end Descr

/-- The transmit ring, the descriptor that the engine reads next, and the frames accepted and sent
so far. -/
structure Tx where
  currdescnum : ℕ
  descr : ℕ → Descr
  buf : ℕ → Bytes
  dma : ℕ
  accepted : List (List UInt8)
  sent : List (List UInt8)

/-- The receive ring, the descriptor that the engine fills next, the frames received so far, how
many descriptors went back to the engine, and what `net_input_handler` was given. -/
structure Rx where
  currdescnum : ℕ
  descr : ℕ → Descr
  buf : ℕ → Bytes
  dma : ℕ
  received : List (List UInt8)
  returned : ℕ
  input : List (UInt16 × List UInt8)

/-- The device with `priv->lock`. -/
structure Dev where
  lock : Bool
  tx : Tx
  rx : Rx

/-- `tx_descs_init` and `rx_descs_init`. -/
def init (txbuffs rxbuffs : ℕ → Bytes) : Dev where
  lock := false
  tx := ⟨0, fun _ => ⟨0, descTxctrlTxchain⟩, txbuffs, 0, [], []⟩
  rx := ⟨0, fun _ => ⟨descOwnByDma, descRxctrl⟩, rxbuffs, 0, [], 0, []⟩

/-- `if (++desc_num >= num) desc_num = 0`. -/
def bump (num n : ℕ) : ℕ := if num ≤ n + 1 then 0 else n + 1

/-! ### Transmission -/

/-- The buffer behind `memcpy` and `memset`. -/
def fill (packet : List UInt8) (buf : Bytes) : Bytes :=
  let buf := blit buf 0 packet.length fun i => packet.getD i 0
  if packet.length < ethZlen then blit buf packet.length (ethZlen - packet.length) fun _ => 0 else buf

/-- The length behind the padding. -/
def paddedLength (packet : List UInt8) : ℕ := if packet.length < ethZlen then ethZlen else packet.length

/-- The control word with the new length. -/
def sendCntl (cntl : UInt32) (length : ℕ) : UInt32 :=
  (cntl &&& ~~~descTxctrlSize1mask) ||| (UInt32.ofNat length &&& descTxctrlSize1mask) ||| descTxctrlFlags

/-- `_dw_eth_send` behind its check: the current descriptor goes to the engine with the packet. -/
def Tx.enqueue (tx : Tx) (packet : List UInt8) : Tx :=
  let i := tx.currdescnum
  { tx with
    buf := update tx.buf i (fill packet (tx.buf i))
    descr := update tx.descr i ⟨descOwnByDma, sendCntl (tx.descr i).dmamacCntl (paddedLength packet)⟩
    currdescnum := bump txDescrNum i
    accepted := tx.accepted ++ [packet] }

/-- `_dw_eth_send` with what it returns; `none` when `acquire` does not return. -/
def dwEthSend (d : Dev) (packet : List UInt8) : Option (ℤ × Dev) :=
  if d.lock then none
  -- `-EPERM`, with the lock held
  else if (d.tx.descr d.tx.currdescnum).ownByDma then some (-1, { d with lock := true })
  else some (paddedLength packet, { d with tx := d.tx.enqueue packet })

namespace Tx

/-- The bytes that the engine reads through descriptor `i`. -/
def frame (tx : Tx) (i : ℕ) : List UInt8 := slice (tx.buf i) 0 (tx.descr i).size1

/-- The engine sends the frame of its next descriptor and writes the descriptor's status. -/
def complete (tx : Tx) (status : UInt32) : Option Tx :=
  let i := tx.dma
  if (tx.descr i).ownByDma ∧ status &&& descOwnByDma = 0 then
    some { tx with
      descr := update tx.descr i { tx.descr i with txrxStatus := status }
      dma := bump txDescrNum i
      sent := tx.sent ++ [tx.frame i] }
  else none

/-- The frames that the engine owns, from the one it reads next. -/
def queued (tx : Tx) : List (List UInt8) :=
  (((List.range txDescrNum).map fun k => (tx.dma + k) % txDescrNum).takeWhile
    fun i => (tx.descr i).ownByDma).map tx.frame

end Tx

/-! ### Reception -/

namespace Rx

/-- The bytes that the driver reads through descriptor `i`. -/
def frame (rx : Rx) (i : ℕ) : List UInt8 := slice (rx.buf i) 0 (rx.descr i).frmlen

/-- The engine fills its next descriptor. -/
def receive (rx : Rx) (frame : List UInt8) (status : UInt32) : Option Rx :=
  let i := rx.dma
  let descr := { rx.descr i with txrxStatus := status }
  if (rx.descr i).ownByDma ∧ descr.ownByDma = false ∧ descr.frmlen = frame.length ∧
    frame.length ≤ macMaxFrameSz then
    some { rx with
      descr := update rx.descr i descr
      buf := update rx.buf i (blit (rx.buf i) 0 frame.length fun k => frame.getD k 0)
      dma := bump rxDescrNum i
      received := rx.received ++ [frame] }
  else none

/-- `_dw_eth_recv`: the length, or `-EAGAIN`. -/
def dwEthRecv (rx : Rx) : ℤ :=
  let i := rx.currdescnum
  if (rx.descr i).ownByDma then -11 else (rx.descr i).frmlen

/-- `_dw_free_pkt`. -/
def dwFreePkt (rx : Rx) : Rx :=
  let i := rx.currdescnum
  { rx with
    descr := update rx.descr i { rx.descr i with txrxStatus := (rx.descr i).txrxStatus ||| descOwnByDma }
    currdescnum := bump rxDescrNum i
    returned := rx.returned + 1 }

/-- `eth_net_read`: the bytes copied out, or `none` for `-EAGAIN`. -/
def ethNetRead (rx : Rx) (size : ℕ) : Option (List UInt8) × Rx :=
  let length := rx.dwEthRecv
  if 0 < length ∧ length.toNat ≤ size then (some (rx.frame rx.currdescnum), rx.dwFreePkt) else (none, rx)

end Rx

/-- What `ether_input_helper` makes of a frame: the type and the payload for `net_input_handler`, or
nothing for a frame without a full header or for another host. -/
def etherInput (frame : List UInt8) : Option (UInt16 × List UInt8) :=
  if frame.length < etherHdrSize then none
  else if frame.take 6 ≠ macAddr ∧ frame.take 6 ≠ etherAddrBroadcast then none
  else some ((frame.getD 12 0).toUInt16 <<< 8 ||| (frame.getD 13 0).toUInt16, frame.drop etherHdrSize)

namespace Rx

/-- `ether_input_helper` with `eth_net_read`. `memory` is whether `memory_alloc` finds a buffer. -/
def etherInputHelper (rx : Rx) (memory : Bool) : Rx :=
  if memory then
    match rx.ethNetRead etherFrameSizeMax with
    | (none, rx) => rx
    | (some frame, rx) => { rx with input := rx.input ++ (etherInput frame).toList }
  else rx

end Rx

/-- `eth_intr_rx_packets`; `none` when `acquire` does not return. -/
def ethIntrRxPackets (d : Dev) (memory : Bool) : Option Dev :=
  if d.lock then none else some { d with rx := d.rx.etherInputHelper memory }

/-! ### Steps -/

/-- A call of `_dw_eth_send`, a completion by the engine, a frame that the engine received, a
receive interrupt. -/
inductive Act
  | send (packet : List UInt8)
  | complete (status : UInt32)
  | receive (frame : List UInt8) (status : UInt32)
  | interrupt (memory : Bool)
  deriving DecidableEq

namespace Act

def isSend : Act → Bool
  | .send _ => true
  | _ => false

def isComplete : Act → Bool
  | .complete _ => true
  | _ => false

def isReceive : Act → Bool
  | .receive _ _ => true
  | _ => false

/-- An interrupt whose handler gets its buffer. -/
def serves : Act → Bool
  | .interrupt memory => memory
  | _ => false

end Act

/-- One step. Packets are no longer than an Ethernet frame. -/
def next (d : Dev) : Act → Option Dev
  | .send packet => if packet.length ≤ etherFrameSizeMax then (dwEthSend d packet).map Prod.snd else none
  | .complete status => (d.tx.complete status).map fun tx => { d with tx }
  | .receive frame status => (d.rx.receive frame status).map fun rx => { d with rx }
  | .interrupt memory => ethIntrRxPackets d memory

def Step (d : Dev) (a : Act) (d' : Dev) : Prop := next d a = some d'

/-! ### Descriptor words -/

/-- A word with the ownership bit. -/
theorem or_own_and_own (s : UInt32) : (s ||| descOwnByDma) &&& descOwnByDma = descOwnByDma := by
  apply UInt32.toBitVec_inj.mp
  ext i hi
  interval_cases i <;> simp

/-- The ownership bit is no part of the length field. -/
theorem frmlen_or_own (p : Descr) :
    Descr.frmlen { p with txrxStatus := p.txrxStatus ||| descOwnByDma } = p.frmlen := by
  have hand : (p.txrxStatus ||| descOwnByDma) &&& descRxstsFrmlenmsk =
    p.txrxStatus &&& descRxstsFrmlenmsk := by
    apply UInt32.toBitVec_inj.mp
    ext i hi
    interval_cases i <;> simp
  simp only [Descr.frmlen, hand]

/-- The new length is read back from the control word. -/
theorem size1_sendCntl (status cntl : UInt32) {length : ℕ} (h : length < 2048) :
    Descr.size1 ⟨status, sendCntl cntl length⟩ = length := by
  have hand : sendCntl cntl length &&& descTxctrlSize1mask = UInt32.ofNat length &&& descTxctrlSize1mask := by
    apply UInt32.toBitVec_inj.mp
    ext i hi
    interval_cases i <;> simp [sendCntl]
  rw [Descr.size1, hand, UInt32.toNat_and, UInt32.toNat_ofNat_of_lt' (by simp [UInt32.size]; omega)]
  exact (Nat.and_two_pow_sub_one_eq_mod length 11).trans (Nat.mod_eq_of_lt h)

theorem bump_eq {num n : ℕ} (h : n < num) : bump num n = (n + 1) % num := by
  rw [bump]
  split_ifs with hlast
  · rw [show n + 1 = num by omega, Nat.mod_self]
  · exact (Nat.mod_eq_of_lt (by omega)).symm

theorem slice_blit_getD (buf : Bytes) (bytes : List UInt8) :
    slice (blit buf 0 bytes.length fun k => bytes.getD k 0) 0 bytes.length = bytes := by
  apply List.ext_getElem
  · simp
  · intro k hk hk'
    simp [slice, blit, hk']

/-! ### The transmit ring -/

/-- A packet on the wire: its own bytes, with zeros up to `ETH_ZLEN`. -/
def pad (packet : List UInt8) : List UInt8 := packet ++ List.replicate (ethZlen - packet.length) 0

theorem slice_fill (packet : List UInt8) (buf : Bytes) :
    slice (fill packet buf) 0 (paddedLength packet) = pad packet := by
  unfold fill paddedLength pad
  split_ifs with hshort
  · apply List.ext_getElem
    · simp
      omega
    · intro k hk hk'
      by_cases hown : k < packet.length
      · simp [slice, blit, hown]
      · have hzero : k < ethZlen := by simpa using hk
        rw [List.getElem_append_right (not_lt.mp hown), List.getElem_replicate]
        simp only [slice, List.getElem_map, List.getElem_range]
        exact blit_of_inside (by omega) (by omega)
  · rw [Nat.sub_eq_zero_of_le (not_lt.mp hshort), List.replicate_zero, List.append_nil]
    exact slice_blit_getD buf packet

variable {status : UInt32}

namespace Tx

/-- The descriptors that the engine owns hold the accepted packets that were not sent yet, in
order. -/
structure Sound (tx : Tx) : Prop where
  ring : FlagRing txDescrNum (tx.accepted.map pad) tx.sent.length tx.frame
    (fun i => (tx.descr i).ownByDma) tx.dma tx.currdescnum
  sent_eq : tx.sent = (tx.accepted.map pad).take tx.sent.length

variable {tx tx' : Tx}

theorem Sound.sent_queued (h : tx.Sound) : tx.sent ++ tx.queued = tx.accepted.map pad := by
  rw [queued, h.ring.contents]
  conv_lhs => rw [h.sent_eq]
  rw [List.length_take, Nat.min_eq_left h.ring.taken_le, List.take_append_drop]

theorem frame_enqueue (tx : Tx) {packet : List UInt8} (hlen : packet.length ≤ etherFrameSizeMax) :
    (tx.enqueue packet).frame = update tx.frame tx.currdescnum (pad packet) := by
  have hpadded : paddedLength packet < 2048 := by
    unfold paddedLength ethZlen
    unfold etherFrameSizeMax at hlen
    split_ifs <;> omega
  funext i
  by_cases hi : i = tx.currdescnum
  · rw [hi]
    simp only [frame, enqueue, update_self]
    rw [size1_sendCntl _ _ hpadded, slice_fill]
  · simp only [frame, enqueue, update_of_ne hi]

theorem Sound.curr_lt (h : tx.Sound) : tx.currdescnum < txDescrNum :=
  h.ring.head_eq ▸ Nat.mod_lt _ (by decide)

theorem Sound.dma_lt (h : tx.Sound) : tx.dma < txDescrNum := h.ring.tail_eq ▸ Nat.mod_lt _ (by decide)

/-- The current descriptor belongs to the engine when sixteen packets wait. -/
theorem Sound.own_curr_iff (h : tx.Sound) :
    (tx.descr tx.currdescnum).ownByDma = true ↔ tx.accepted.length = tx.sent.length + txDescrNum := by
  rw [h.ring.full_head_iff (by decide), List.length_map]

theorem Sound.enqueue (h : tx.Sound) (hown : (tx.descr tx.currdescnum).ownByDma = false) {packet : List UInt8}
    (hlen : packet.length ≤ etherFrameSizeMax) : (tx.enqueue packet).Sound where
  ring := by
    have hroom : (tx.accepted.map pad).length ≠ tx.sent.length + txDescrNum := by
      rw [List.length_map, Ne, ← h.own_curr_iff, hown]
      exact Bool.false_ne_true
    have hpush := h.ring.push hroom (pad packet)
    rw [← bump_eq h.curr_lt, ← frame_enqueue tx hlen] at hpush
    have hflags : (fun i => ((tx.enqueue packet).descr i).ownByDma) =
        update (fun i => (tx.descr i).ownByDma) tx.currdescnum true := by
      funext i
      by_cases hi : i = tx.currdescnum
      · rw [hi]
        simp only [Tx.enqueue, update_self, Descr.ownByDma]
        decide
      · simp only [Tx.enqueue, update_of_ne hi]
    rw [hflags]
    simpa only [Tx.enqueue, List.map_append, List.map_cons, List.map_nil] using hpush
  sent_eq := by
    have hle := h.ring.taken_le
    simp only [Tx.enqueue, List.map_append]
    rw [List.take_append_of_le_length hle]
    exact h.sent_eq

theorem Sound.complete (h : tx.Sound) (hstep : tx.complete status = some tx') : tx'.Sound := by
  unfold Tx.complete at hstep
  dsimp only at hstep
  split_ifs at hstep with hown
  cases hstep
  have hne : tx.sent.length ≠ (tx.accepted.map pad).length := (h.ring.full_tail_iff (by decide)).mp hown.1
  have hpop := h.ring.pop hne
  have holdest := h.ring.oldest hne
  rw [← bump_eq h.dma_lt] at hpop
  -- The engine writes the status only, so every frame stays.
  have hframe : (fun i => slice (tx.buf i) 0
      (update tx.descr tx.dma { tx.descr tx.dma with txrxStatus := status } i).size1) = tx.frame := by
    funext i
    by_cases hi : i = tx.dma
    · simp only [frame, hi, update_self, Descr.size1]
    · simp only [frame, update_of_ne hi]
  have hflags : (fun i => (update tx.descr tx.dma { tx.descr tx.dma with txrxStatus := status } i).ownByDma) =
      update (fun i => (tx.descr i).ownByDma) tx.dma false := by
    funext i
    by_cases hi : i = tx.dma
    · rw [hi]
      simp [Descr.ownByDma, hown.2]
    · rw [update_of_ne hi, update_of_ne hi]
  refine ⟨?_, ?_⟩
  · rw [← hframe, ← hflags] at hpop
    rw [List.length_append]
    exact hpop
  · rw [List.length_append, List.length_singleton, List.take_add_one, holdest, ← h.sent_eq]
    rfl

/-- The engine reads one frame more. -/
theorem length_sent_complete (hstep : tx.complete status = some tx') :
    tx'.sent.length = tx.sent.length + 1 ∧ tx'.accepted = tx.accepted := by
  unfold Tx.complete at hstep
  dsimp only at hstep
  split_ifs at hstep
  cases hstep
  exact ⟨by simp, rfl⟩

end Tx

/-- Sixteen packets never wait when another one is handed over. -/
def Roomy (acts : List Act) : Prop :=
  ∀ past packet, past ++ [.send packet] <+: acts → past.countP Act.isSend <
    past.countP Act.isComplete + txDescrNum

variable {a : Act} {past : List Act}

theorem roomy_concat :
    Roomy (past ++ [a]) ↔
      Roomy past ∧ (a.isSend → past.countP Act.isSend < past.countP Act.isComplete + txDescrNum) := by
  constructor
  · intro h
    refine ⟨fun p packet hp => h p packet (hp.trans (List.prefix_append _ _)), fun hsend => ?_⟩
    cases a with
    | send packet => exact h past packet List.prefix_rfl
    | complete _ | receive _ _ | interrupt _ => exact absurd hsend (by simp [Act.isSend])
  · intro h p packet hp
    obtain heq | hp := List.prefix_concat_iff.mp hp
    · obtain ⟨rfl, hlast⟩ := List.append_inj' heq rfl
      cases hlast
      exact h.2 rfl
    · exact h.1 p packet hp

/-- What one step does. -/
theorem step_cases {d d' : Dev} (h : Step d a d') :
    (∃ packet, a = .send packet ∧ packet.length ≤ etherFrameSizeMax ∧ d.lock = false ∧
      ((d.tx.descr d.tx.currdescnum).ownByDma = true ∧ d' = { d with lock := true } ∨
        (d.tx.descr d.tx.currdescnum).ownByDma = false ∧ d' = { d with tx := d.tx.enqueue packet })) ∨
    (∃ status tx, a = .complete status ∧ d.tx.complete status = some tx ∧ d' = { d with tx }) ∨
    (∃ frame status rx, a = .receive frame status ∧ d.rx.receive frame status = some rx ∧
      d' = { d with rx }) ∨
    ∃ memory, a = .interrupt memory ∧ d.lock = false ∧
      d' = { d with rx := d.rx.etherInputHelper memory } := by
  cases a with
  | send packet =>
    left
    simp only [Step, next, dwEthSend] at h
    split_ifs at h with hlen hlock hown
    · exact absurd h (by simp)
    · exact ⟨packet, rfl, hlen, by simpa using hlock, .inl ⟨hown, by simpa using h.symm⟩⟩
    · exact ⟨packet, rfl, hlen, by simpa using hlock, .inr ⟨by simpa using hown, by simpa using h.symm⟩⟩
  | complete status =>
    right; left
    obtain ⟨tx, htx, rfl⟩ := Option.map_eq_some_iff.mp h
    exact ⟨status, tx, rfl, htx, rfl⟩
  | receive frame status =>
    right; right; left
    obtain ⟨rx, hrx, rfl⟩ := Option.map_eq_some_iff.mp h
    exact ⟨frame, status, rx, rfl, hrx, rfl⟩
  | interrupt memory =>
    right; right; right
    simp only [Step, next, ethIntrRxPackets] at h
    split_ifs at h with hlock
    exact ⟨memory, rfl, by simpa using hlock, by simpa using h.symm⟩

/-- A descriptor and a buffer that the engine owns are not touched by `_dw_eth_send` or an
interrupt, the packets accepted and not sent wait in call order as they will appear on the wire, and
the lock is free. -/
structure Dev.Disciplined (d : Dev) : Prop where
  lock_free : d.lock = false
  untouched : ∀ a d', Step d a d' → a.isComplete = false → ∀ i, (d.tx.descr i).ownByDma = true →
    d'.tx.descr i = d.tx.descr i ∧ d'.tx.buf i = d.tx.buf i
  in_order : d.tx.sent ++ d.tx.queued = d.tx.accepted.map pad

theorem untouched_of_step {d d' : Dev} (h : Step d a d') (hcpu : a.isComplete = false) {i : ℕ}
    (hown : (d.tx.descr i).ownByDma = true) : d'.tx.descr i = d.tx.descr i ∧ d'.tx.buf i = d.tx.buf i := by
  obtain ⟨packet, rfl, -, -, ⟨-, rfl⟩ | ⟨hcurr, rfl⟩⟩ | ⟨status, tx, rfl, -⟩ |
    ⟨frame, status, rx, rfl, -, rfl⟩ |
    ⟨memory, rfl, -, rfl⟩ := step_cases h
  · exact ⟨rfl, rfl⟩
  · have hne : i ≠ d.tx.currdescnum := by
      rintro rfl
      rw [hown] at hcurr
      exact absurd hcurr (by simp)
    exact ⟨update_of_ne hne _ _, update_of_ne hne _ _⟩
  · exact absurd hcpu (by simp [Act.isComplete])
  · exact ⟨rfl, rfl⟩
  · exact ⟨rfl, rfl⟩

/-- The transmit ring along a run, with the counts of the actions behind it. -/
structure TxHistory (past : List Act) (d : Dev) : Prop where
  sound : d.tx.Sound
  sent : d.tx.sent.length = past.countP Act.isComplete
  accepted : d.lock = false → d.tx.accepted.length = past.countP Act.isSend
  lock_free_iff : d.lock = false ↔ Roomy past

theorem TxHistory.step {d d' : Dev} (h : TxHistory past d) (hstep : Step d a d') :
    TxHistory (past ++ [a]) d' := by
  have hcount (p : Act → Bool) : (past ++ [a]).countP p = past.countP p + if p a then 1 else 0 := by
    rw [List.countP_append, List.countP_singleton]
  obtain ⟨packet, rfl, hlen, hlock, ⟨hown, rfl⟩ | ⟨hown, rfl⟩⟩ | ⟨status, tx, rfl, htx, rfl⟩ |
    ⟨frame, status, rx, rfl, -, rfl⟩ | ⟨memory, rfl, hlock, rfl⟩ := step_cases hstep
  · -- The ring is full: the call keeps the lock, and the packet came too early.
    have hfull := h.sound.own_curr_iff.mp hown
    rw [h.accepted hlock, h.sent] at hfull
    refine ⟨h.sound, ?_, fun hfree => absurd hfree (by simp), ?_⟩
    · rw [hcount]
      exact h.sent
    · rw [roomy_concat]
      constructor
      · exact fun hfree => absurd hfree (by simp)
      · exact fun hroomy => absurd (hroomy.2 rfl) (by omega)
  · have hroom : d.tx.accepted.length < d.tx.sent.length + txDescrNum := by
      have hfits := h.sound.ring.fits
      have hne : d.tx.accepted.length ≠ d.tx.sent.length + txDescrNum := by
        rw [Ne, ← h.sound.own_curr_iff, hown]
        exact Bool.false_ne_true
      rw [List.length_map] at hfits
      omega
    refine ⟨h.sound.enqueue hown hlen, ?_, fun hfree => ?_, ?_⟩
    · rw [hcount]
      exact h.sent
    · rw [hcount, ← h.accepted hfree]
      exact List.length_append
    · rw [roomy_concat, ← h.lock_free_iff, ← h.accepted hlock, ← h.sent]
      exact ⟨fun hfree => ⟨hfree, fun _ => hroom⟩, fun hfree => hfree.1⟩
  · obtain ⟨hsent, haccepted⟩ := Tx.length_sent_complete htx
    refine ⟨h.sound.complete htx, ?_, fun hfree => ?_, ?_⟩
    · rw [hcount, ← h.sent]
      exact hsent
    · rw [hcount, ← h.accepted hfree]
      exact congrArg _ haccepted
    · rw [roomy_concat, ← h.lock_free_iff]
      simp [Act.isSend]
  all_goals
    refine ⟨h.sound, ?_, fun hfree => ?_, ?_⟩
    · rw [hcount]
      exact h.sent
    · rw [hcount]
      exact h.accepted hfree
    · rw [roomy_concat, ← h.lock_free_iff]
      simp [Act.isSend]

theorem txHistory_init (txbuffs rxbuffs : ℕ → Bytes) : TxHistory [] (init txbuffs rxbuffs) where
  sound := by
    have hflags : (fun i => ((init txbuffs rxbuffs).tx.descr i).ownByDma) = fun _ => false := by
      funext i
      exact (by decide : Descr.ownByDma ⟨0, descTxctrlTxchain⟩ = false)
    refine ⟨?_, rfl⟩
    rw [hflags]
    exact FlagRing.empty _
  sent := rfl
  accepted _ := rfl
  lock_free_iff := by simp [init, Roomy]

/-- The transmit ring is disciplined after a run exactly when no packet was handed over while
sixteen waited. -/
theorem dw_eth_send_disciplined_iff {txbuffs rxbuffs : ℕ → Bytes} {acts : List Act} {d : Dev}
    (hrun : Run Step (init txbuffs rxbuffs) acts d) : d.Disciplined ↔ Roomy acts := by
  have h : TxHistory acts d :=
    hrun.history (txHistory_init txbuffs rxbuffs) fun _ _ _ _ _ hinv hstep => hinv.step hstep
  rw [← h.lock_free_iff]
  constructor
  · exact fun hd => hd.lock_free
  · exact fun hlock => ⟨hlock, fun a d' hstep hcpu i => untouched_of_step hstep hcpu, h.sound.sent_queued⟩

/-- A packet, its completion and another packet. -/
theorem dw_eth_send_disciplined_again :
    ∃ d, Run Step (init (fun _ _ => 0) fun _ _ => 0) [.send [1, 2, 3], .complete 0, .send [4]] d ∧
      d.Disciplined := by
  obtain ⟨d, hrun, -⟩ : ∃ d, Run Step (init (fun _ _ => 0) fun _ _ => 0) [.send [1, 2, 3],
    .complete 0, .send [4]] d ∧
      True := exists_run id (by decide +kernel)
  refine ⟨d, hrun, (dw_eth_send_disciplined_iff hrun).mpr ?_⟩
  intro past packet hp
  have hlen := hp.length_le
  have hsends := List.countP_le_length (p := Act.isSend) (l := past)
  simp only [List.length_append, List.length_cons] at hlen
  unfold txDescrNum
  omega

/-- The seventeenth of seventeen packets, none of them sent yet, keeps the lock: no later call and
no receive interrupt gets it. -/
theorem dw_eth_send_keeps_lock :
    ∃ d, Run Step (init (fun _ _ => 0) fun _ _ => 0) (List.replicate 17 (.send [1])) d ∧ d.lock = true ∧
      (∀ packet, dwEthSend d packet = none) ∧ ∀ memory, ethIntrRxPackets d memory = none := by
  obtain ⟨d, hrun, hlock⟩ : ∃ d, Run Step (init (fun _ _ => 0) fun _ _ => 0)
    (List.replicate 17 (.send [1])) d ∧
      d.lock = true := exists_run id (by decide +kernel)
  refine ⟨d, hrun, hlock, fun packet => ?_, fun memory => ?_⟩
  · rw [dwEthSend, if_pos hlock]
  · rw [ethIntrRxPackets, if_pos hlock]

/-! ### The receive ring -/

/-- `eth_net_read` takes the frame. -/
def Fits (frame : List UInt8) : Prop := 0 < frame.length ∧ frame.length ≤ etherFrameSizeMax

namespace Rx

/-- The descriptors that the engine gave up hold the received frames that were not returned yet, in
order; those returned went to `ether_input_helper`, one after the other. -/
structure Sound (rx : Rx) : Prop where
  ring : FlagRing rxDescrNum rx.received rx.returned rx.frame
    (fun i => !(rx.descr i).ownByDma) rx.currdescnum rx.dma
  input_eq : rx.input = (rx.received.take rx.returned).filterMap etherInput
  fits : ∀ frame ∈ rx.received.take rx.returned, Fits frame

variable {rx rx' : Rx}

section

variable (h : rx.Sound)

include h

theorem Sound.curr_lt : rx.currdescnum < rxDescrNum := h.ring.tail_eq ▸ Nat.mod_lt _ (by decide)

theorem Sound.dma_lt : rx.dma < rxDescrNum := h.ring.head_eq ▸ Nat.mod_lt _ (by decide)

/-- The current descriptor belongs to the engine when every frame went back. -/
theorem Sound.own_curr_iff :
    (rx.descr rx.currdescnum).ownByDma = true ↔ rx.returned = rx.received.length := by
  have hfull := h.ring.full_tail_iff (by decide)
  rw [← not_iff_not, ← Ne, ← Ne, ← hfull]
  simp

theorem Sound.receive {frame : List UInt8} (hstep : rx.receive frame status = some rx') :
    rx'.Sound ∧ rx'.received = rx.received ++ [frame] ∧ rx'.returned = rx.returned := by
  unfold Rx.receive at hstep
  dsimp only at hstep
  split_ifs at hstep with hown
  cases hstep
  obtain ⟨hdma, hcpu, hfrmlen, -⟩ := hown
  have hroom : rx.received.length ≠ rx.returned + rxDescrNum := by
    rw [Ne, ← h.ring.full_head_iff (by decide), hdma]
    exact Bool.false_ne_true
  have hpush := h.ring.push hroom frame
  rw [← bump_eq h.dma_lt] at hpush
  have hframe : (fun i => slice
    (update rx.buf rx.dma (blit (rx.buf rx.dma) 0 frame.length fun k => frame.getD k 0) i) 0
      (update rx.descr rx.dma { rx.descr rx.dma with txrxStatus := status } i).frmlen) =
        update rx.frame rx.dma frame := by
    funext i
    by_cases hi : i = rx.dma
    · rw [hi, update_self, update_self, update_self, hfrmlen, slice_blit_getD]
    · rw [update_of_ne hi, update_of_ne hi, update_of_ne hi, Rx.frame]
  have hflags : (fun i => !(update rx.descr rx.dma { rx.descr rx.dma with txrxStatus := status } i).ownByDma) =
      update (fun i => !(rx.descr i).ownByDma) rx.dma true := by
    funext i
    by_cases hi : i = rx.dma
    · rw [hi, update_self, update_self, hcpu]
      rfl
    · rw [update_of_ne hi, update_of_ne hi]
  have htake : (rx.received ++ [frame]).take rx.returned = rx.received.take rx.returned :=
    List.take_append_of_le_length h.ring.taken_le
  rw [← hframe, ← hflags] at hpush
  refine ⟨⟨hpush, ?_, ?_⟩, rfl, rfl⟩
  · rw [htake]
    exact h.input_eq
  · rw [htake]
    exact h.fits

theorem Sound.free {frame : List UInt8} (hfirst : rx.received[rx.returned]? = some frame)
    (hfits : Fits frame) : Sound { rx.dwFreePkt with input := rx.input ++ (etherInput frame).toList } := by
  have hne : rx.returned ≠ rx.received.length := by
    have := (List.getElem?_eq_some_iff.mp hfirst).1
    omega
  have hpop := h.ring.pop hne
  rw [← bump_eq h.curr_lt] at hpop
  have hframe : (fun i => slice (rx.buf i) 0 (update rx.descr rx.currdescnum
      { rx.descr rx.currdescnum with txrxStatus := (rx.descr rx.currdescnum).txrxStatus ||| descOwnByDma } i).frmlen) =
        rx.frame := by
    funext i
    by_cases hi : i = rx.currdescnum
    · rw [hi, update_self, frmlen_or_own, Rx.frame]
    · rw [update_of_ne hi, Rx.frame]
  have hflags : (fun i => !(update rx.descr rx.currdescnum
      { rx.descr rx.currdescnum with txrxStatus :=
        (rx.descr rx.currdescnum).txrxStatus ||| descOwnByDma } i).ownByDma) =
        update (fun i => !(rx.descr i).ownByDma) rx.currdescnum false := by
    funext i
    by_cases hi : i = rx.currdescnum
    · rw [hi, update_self, update_self, Descr.ownByDma, or_own_and_own]
      decide
    · rw [update_of_ne hi, update_of_ne hi]
  rw [← hframe, ← hflags] at hpop
  have htake : rx.received.take (rx.returned + 1) = rx.received.take rx.returned ++ [frame] := by
    rw [List.take_add_one, hfirst]
    rfl
  refine ⟨hpop, ?_, ?_⟩
  · change rx.input ++ _ = (rx.received.take (rx.returned + 1)).filterMap etherInput
    rw [htake, List.filterMap_append, ← h.input_eq]
    cases hin : etherInput frame <;> simp [hin]
  · intro f hf
    change f ∈ rx.received.take (rx.returned + 1) at hf
    rw [htake] at hf
    obtain hf | hf := List.mem_append.mp hf
    · exact h.fits f hf
    · rw [List.mem_singleton.mp hf]
      exact hfits

/-- An interrupt takes the oldest frame, if there is one that fits and memory for it; otherwise
nothing happens. -/
theorem Sound.helper_cases (memory : Bool) :
    (rx.etherInputHelper memory = rx ∧
      (memory = true → ∀ frame, rx.received[rx.returned]? = some frame → ¬ Fits frame)) ∨
    (memory = true ∧ ∃ frame, rx.received[rx.returned]? = some frame ∧ Fits frame ∧
      rx.etherInputHelper memory = { rx.dwFreePkt with input := rx.input ++ (etherInput frame).toList }) := by
  cases memory with
  | false => exact .inl ⟨rfl, fun hmem => absurd hmem (by simp)⟩
  | true =>
    by_cases hempty : rx.returned = rx.received.length
    · -- `-EAGAIN`
      have hown := h.own_curr_iff.mpr hempty
      refine .inl ⟨?_, fun _ frame hframe => ?_⟩
      · simp [etherInputHelper, ethNetRead, dwEthRecv, hown]
      · rw [List.getElem?_eq_none (by omega)] at hframe
        exact absurd hframe (by simp)
    · have holdest := h.ring.oldest hempty
      have hown : (rx.descr rx.currdescnum).ownByDma = false := by
        rw [← Bool.not_eq_true, h.own_curr_iff]
        exact hempty
      have hrecv : rx.dwEthRecv = ((rx.frame rx.currdescnum).length : ℤ) := by
        simp [dwEthRecv, hown, Rx.frame]
      have hcond : (0 < rx.dwEthRecv ∧ rx.dwEthRecv.toNat ≤ etherFrameSizeMax) ↔
        Fits (rx.frame rx.currdescnum) := by
        rw [hrecv, Fits]
        omega
      by_cases hfits : Fits (rx.frame rx.currdescnum)
      · refine .inr ⟨rfl, _, holdest, hfits, ?_⟩
        simp only [etherInputHelper, ethNetRead, if_pos (hcond.mpr hfits)]
        rfl
      · refine .inl ⟨?_, fun _ frame hframe => ?_⟩
        · simp only [etherInputHelper, ethNetRead, if_neg (mt hcond.mp hfits), if_true]
        · rw [holdest] at hframe
          cases hframe
          exact hfits

theorem Sound.helper (memory : Bool) : (rx.etherInputHelper memory).Sound := by
  obtain ⟨heq, -⟩ | ⟨-, frame, hfirst, hfits, heq⟩ := h.helper_cases memory
  · rw [heq]
    exact h
  · rw [heq]
    exact h.free hfirst hfits

end

/-- Every received frame was consumed once, in order, its descriptor went back to the engine, and
`net_input_handler` got what `ether_input_helper` lets through. -/
structure Drained (rx : Rx) : Prop where
  returned_eq : rx.returned = rx.received.length
  own : ∀ i < rxDescrNum, (rx.descr i).ownByDma = true
  input_eq : rx.input = rx.received.filterMap fun frame => if 0 < frame.length ∧
    frame.length ≤ etherFrameSizeMax then
    etherInput frame else none

/-- With nothing left in the ring, the frames received are those consumed, and all of them fit. -/
theorem Sound.drained_iff (h : rx.Sound) : rx.Drained ↔ rx.returned = rx.received.length := by
  constructor
  · exact fun hd => hd.returned_eq
  · intro heq
    have hall := (h.ring.all_empty_iff (by decide)).mpr heq
    refine ⟨heq, fun i hi => by simpa using hall i hi, ?_⟩
    have hfits := h.fits
    rw [heq, List.take_length] at hfits
    rw [h.input_eq, heq, List.take_length]
    refine List.filterMap_congr fun frame hframe => ?_
    exact (if_pos (hfits frame hframe)).symm

end Rx

/-- The frames of a list of actions are neither empty nor longer than the driver takes. -/
def AllFit (acts : List Act) : Prop := ∀ frame status, Act.receive frame status ∈ acts → Fits frame

theorem Rx.Sound.step {d d' : Dev} (h : d.rx.Sound) (hstep : Step d a d') : d'.rx.Sound := by
  obtain ⟨packet, rfl, -, -, ⟨-, rfl⟩ | ⟨-, rfl⟩⟩ | ⟨status, tx, rfl, -, rfl⟩ |
    ⟨frame, status, rx, rfl, hrx, rfl⟩ |
    ⟨memory, rfl, -, rfl⟩ := step_cases hstep
  · exact h
  · exact h
  · exact h
  · exact (h.receive hrx).1
  · exact h.helper memory

/-- What one step does to the frames of the receive ring. -/
theorem rx_step_cases {d d' : Dev} (h : d.rx.Sound) (hstep : Step d a d') :
    (∃ frame status, a = .receive frame status ∧ d'.rx.received = d.rx.received ++ [frame] ∧
      d'.rx.returned = d.rx.returned) ∨
    (a.isReceive = false ∧ d'.rx.received = d.rx.received ∧
      (d'.rx.returned = d.rx.returned ∧
          (a.serves = true → ∀ frame, d.rx.received[d.rx.returned]? = some frame → ¬ Fits frame) ∨
        a.serves = true ∧ d'.rx.returned = d.rx.returned + 1 ∧ d.rx.returned < d.rx.received.length)) := by
  obtain ⟨packet, rfl, -, -, ⟨-, rfl⟩ | ⟨-, rfl⟩⟩ | ⟨status, tx, rfl, -, rfl⟩ |
    ⟨frame, status, rx, rfl, hrx, rfl⟩ |
    ⟨memory, rfl, -, rfl⟩ := step_cases hstep
  · exact .inr ⟨rfl, rfl, .inl ⟨rfl, fun hserves => absurd hserves (by simp [Act.serves])⟩⟩
  · exact .inr ⟨rfl, rfl, .inl ⟨rfl, fun hserves => absurd hserves (by simp [Act.serves])⟩⟩
  · exact .inr ⟨rfl, rfl, .inl ⟨rfl, fun hserves => absurd hserves (by simp [Act.serves])⟩⟩
  · exact .inl ⟨frame, status, rfl, (h.receive hrx).2⟩
  · refine .inr ⟨rfl, ?_⟩
    obtain ⟨heq, hnone⟩ | ⟨hmem, frame, hfirst, -, heq⟩ := h.helper_cases memory
    · rw [heq]
      exact ⟨rfl, .inl ⟨rfl, hnone⟩⟩
    · rw [heq]
      exact ⟨rfl, .inr ⟨hmem, rfl, (List.getElem?_eq_some_iff.mp hfirst).1⟩⟩

variable {acts : List Act}

theorem allFit_cons : AllFit (a :: acts) ↔ AllFit [a] ∧ AllFit acts := by
  simp only [AllFit, List.mem_cons, List.not_mem_nil, or_false, or_imp, forall_and]

/-- The frames in the ring fit when those before the step did and the step brings none that does
not. -/
theorem fits_of_step {d d' : Dev} (h : d.rx.Sound) (hstep : Step d a d') :
    (∀ frame ∈ d'.rx.received, Fits frame) ↔ (∀ frame ∈ d.rx.received, Fits frame) ∧ AllFit [a] := by
  obtain ⟨frame, status, rfl, hreceived, -⟩ | ⟨hother, hreceived, -⟩ := rx_step_cases h hstep
  · rw [hreceived]
    simp [AllFit, or_imp, forall_and]
  · rw [hreceived]
    have hnone : AllFit [a] := by
      intro frame status hmem
      rw [← List.mem_singleton.mp hmem] at hother
      exact absurd hother (by simp [Act.isReceive])
    exact ⟨fun hall => ⟨hall, hnone⟩, fun hall => hall.1⟩

theorem fits_of_run {d d' : Dev} (hrun : Run Step d acts d') (h : d.rx.Sound) :
    (∀ frame ∈ d'.rx.received, Fits frame) ↔ (∀ frame ∈ d.rx.received, Fits frame) ∧ AllFit acts := by
  induction hrun with
  | nil => simp [AllFit]
  | @cons _ _ _ a as first _ ih =>
    have hcons : AllFit (a :: as) ↔ AllFit [a] ∧ AllFit as := allFit_cons
    rw [ih (h.step first), fits_of_step h first, hcons, and_assoc]

/-- While every frame fits, an interrupt that gets its memory takes one frame. -/
theorem backlog_of_step {d d' : Dev} (h : d.rx.Sound) (hfit : ∀ frame ∈ d.rx.received, Fits frame)
    (hstep : Step d a d') :
    d'.rx.received.length - d'.rx.returned =
      if a.isReceive then d.rx.received.length - d.rx.returned + 1
      else if a.serves then d.rx.received.length - d.rx.returned - 1
      else d.rx.received.length - d.rx.returned := by
  have hle := h.ring.taken_le
  obtain ⟨frame, status, rfl, hreceived, hreturned⟩ |
    ⟨hother, hreceived, ⟨hreturned, hnone⟩ | ⟨hserves, hreturned, hlt⟩⟩ :=
    rx_step_cases h hstep
  · rw [hreceived, hreturned, List.length_append, List.length_singleton]
    change _ = d.rx.received.length - d.rx.returned + 1
    omega
  · rw [hreceived, hreturned, hother, if_neg (by simp)]
    split_ifs with hserves
    · -- nothing was taken, so the ring was empty
      have hempty : d.rx.received.length ≤ d.rx.returned := by
        by_contra hlt
        have hget := List.getElem?_eq_getElem (not_le.mp hlt)
        exact hnone hserves _ hget (hfit _ (List.getElem_mem _))
      omega
    · rfl
  · rw [hreceived, hreturned, hother, if_neg (by simp), if_pos hserves]
    omega

theorem backlog_of_run {d d' : Dev} (hrun : Run Step d acts d') (h : d.rx.Sound)
    (hfit : ∀ frame ∈ d'.rx.received, Fits frame) :
    d'.rx.received.length - d'.rx.returned =
      backlog Act.isReceive Act.serves (d.rx.received.length - d.rx.returned) acts := by
  induction hrun with
  | nil => rfl
  | cons first rest ih =>
    have hfit' := ((fits_of_run rest (h.step first)).mp hfit).1
    rw [ih (h.step first) hfit, backlog, backlog_of_step h ((fits_of_step h first).mp hfit').1 first]

theorem Rx.sound_init (txbuffs rxbuffs : ℕ → Bytes) : (init txbuffs rxbuffs).rx.Sound := by
  have hflags : (fun i => !((init txbuffs rxbuffs).rx.descr i).ownByDma) = fun _ => false := by
    funext i
    exact (by decide : (!Descr.ownByDma ⟨descOwnByDma, descRxctrl⟩) = false)
  refine ⟨?_, rfl, fun frame hframe => absurd hframe (by simp [init])⟩
  rw [hflags]
  exact FlagRing.empty _

/-- After a run the receive ring is drained exactly when no frame was empty or too long and every
suffix of the run has at least as many handled interrupts as frames. -/
theorem rx_drained_iff {txbuffs rxbuffs : ℕ → Bytes} {acts : List Act} {d : Dev}
    (hrun : Run Step (init txbuffs rxbuffs) acts d) :
    d.rx.Drained ↔ AllFit acts ∧ Paced Act.isReceive Act.serves acts := by
  have hsound : d.rx.Sound := hrun.invariant (fun s _ _ (h : s.rx.Sound) hstep => h.step hstep)
    (Rx.sound_init _ _)
  have hle := hsound.ring.taken_le
  have hfits := fits_of_run hrun (Rx.sound_init _ _)
  have hbacklog := backlog_of_run hrun (Rx.sound_init _ _)
  rw [hsound.drained_iff]
  constructor
  · intro heq
    have hall : ∀ frame ∈ d.rx.received, Fits frame := by
      have := hsound.fits
      rwa [heq, List.take_length] at this
    refine ⟨(hfits.mp hall).2, (backlog_eq_zero_iff acts).mp ?_⟩
    have hzero := hbacklog hall
    rw [heq, Nat.sub_self] at hzero
    exact hzero.symm
  · intro h
    have hzero := hbacklog (hfits.mpr ⟨fun frame hframe => absurd hframe (by simp [init]), h.1⟩)
    have hpaced : backlog Act.isReceive Act.serves ((init txbuffs rxbuffs).rx.received.length -
        (init txbuffs rxbuffs).rx.returned) acts = 0 := (backlog_eq_zero_iff acts).mpr h.2
    omega

/-- The status word of a received frame of the given length. -/
def receivedStatus (length : ℕ) : UInt32 := UInt32.ofNat length <<< 16

/-- A frame of `length` bytes, to the device. -/
def frameOf (length : ℕ) : List UInt8 := macAddr ++ List.replicate (length - 6) 0

/-- Two frames, each with an interrupt behind it. -/
theorem rx_drained_two :
    ∃ d, Run Step (init (fun _ _ => 0) fun _ _ => 0)
      [.receive (frameOf 60) (receivedStatus 60), .receive (frameOf 60) (receivedStatus 60),
        .interrupt true, .interrupt true] d ∧
      d.rx.Drained := by
  obtain ⟨d, hrun, -⟩ : ∃ d, Run Step (init (fun _ _ => 0) fun _ _ => 0)
      [.receive (frameOf 60) (receivedStatus 60), .receive (frameOf 60) (receivedStatus 60),
        .interrupt true, .interrupt true] d ∧
        True := exists_run id (by decide +kernel)
  refine ⟨d, hrun, (rx_drained_iff hrun).mpr ⟨?_, ?_⟩⟩
  · intro frame status hmem
    simp only [List.mem_cons, Act.receive.injEq, reduceCtorEq, List.not_mem_nil, or_false, or_self] at hmem
    rw [hmem.1]
    exact ⟨by decide, by decide⟩
  · exact (backlog_eq_zero_iff _).mp rfl

/-- One interrupt behind a burst of two frames leaves the second one in the ring. A frame of 1515
bytes stays in the ring through three interrupts, and so does the frame behind it. -/
theorem rx_not_drained :
    (∃ d, Run Step (init (fun _ _ => 0) fun _ _ => 0)
      [.receive (frameOf 60) (receivedStatus 60), .receive (frameOf 60) (receivedStatus 60),
        .interrupt true] d ∧
      d.rx.returned = 1 ∧ d.rx.received.length = 2) ∧
    ∃ d, Run Step (init (fun _ _ => 0) fun _ _ => 0)
      [.receive (frameOf 1515) (receivedStatus 1515), .receive (frameOf 60) (receivedStatus 60),
        .interrupt true,
        .interrupt true, .interrupt true] d ∧ d.rx.returned = 0 ∧ d.rx.received.length = 2 := by
  constructor
  · exact exists_run id (by decide +kernel)
  · exact exists_run id (by decide +kernel)

end Xv6.Designware
