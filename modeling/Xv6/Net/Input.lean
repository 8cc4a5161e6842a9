import Xv6.Net.Route
import Xv6.Net.Tcp

/-!
# Received packets

`ip_input` of `kernel/net/ip.c`, and `icmp_input`, `udp_input` and `tcp_input` behind it, from the
bytes of a frame to the slice of it that they go on to copy or answer. The frame is the memory
from its first byte on together with a length: a length that is too large reads what lies behind
the frame, as in the source. Lengths are computed with the widths of the source, and a slice is a
start in the frame and a 64-bit length.
-/

namespace Xv6.Ip

open Lib

/-- Load a 16-bit field as it lies in memory. -/
def load16 (b : Bytes) (o : ℕ) : UInt16 := UInt16.ofNat (getLe b o 2)

/-- Load a 32-bit field as it lies in memory. -/
def load32 (b : Bytes) (o : ℕ) : UInt32 := UInt32.ofNat (getLe b o 4)

/-- `byteswap16`, which is `ntoh16` and `hton16`. -/
def ntoh16 (v : UInt16) : UInt16 := (v &&& 0x00ff) <<< 8 ||| (v &&& 0xff00) >>> 8

/-! ### Checksums -/

/-- The sum that `cksum16` takes over `count` bytes. -/
def cksumWords (b : Bytes) : ℕ → ℕ → UInt32 → UInt32
  | _, 0, sum => sum
  | o, 1, sum => sum + (b o).toUInt32
  | o, count + 2, sum => cksumWords b (o + 2) count (sum + (load16 b o).toUInt32)

/-- The folding of the carries by `cksum16`, for a number of turns. -/
def foldCarry : ℕ → UInt32 → UInt32
  | 0, sum => sum
  | turns + 1, sum => if sum >>> 16 = 0 then sum else foldCarry turns
      ((sum &&& (0xffff : UInt32)) + (sum >>> 16))

/-- `cksum16`; its loop over the carries ends within two turns. -/
def cksum16 (b : Bytes) (count : UInt16) (init : UInt32) : UInt16 :=
  ~~~(foldCarry 2 (cksumWords b 0 count.toNat init)).toUInt16

theorem shiftRight_sixteen_eq_zero {v : UInt32} : v >>> 16 = 0 ↔ v.toNat < 2 ^ 16 := by
  rw [← UInt32.toNat_inj]
  change v.toNat >>> 16 = 0 ↔ _
  omega

theorem toNat_foldTurn (v : UInt32) : ((v &&& (0xffff : UInt32)) + v >>> 16).toNat =
    v.toNat % 2 ^ 16 + v.toNat / 2 ^ 16 := by
  have hlt := v.toNat_lt
  change ((v.toNat &&& (2 ^ 16 - 1)) + v.toNat >>> 16) % 2 ^ 32 = _
  rw [Nat.and_two_pow_sub_one_eq_mod]
  omega

/-- Two turns fold every carry. -/
theorem foldCarry_two (sum : UInt32) : foldCarry 2 sum >>> 16 = 0 := by
  have hlt := sum.toNat_lt
  unfold foldCarry
  split_ifs with hfirst
  · exact hfirst
  · unfold foldCarry
    split_ifs with hsecond
    · exact hsecond
    · rw [foldCarry, shiftRight_sixteen_eq_zero, toNat_foldTurn, toNat_foldTurn]
      omega

/-- The pseudo header of UDP and TCP. -/
def pseudoHdr (src dst : UInt32) (protocol : UInt8) (len : UInt16) : Bytes :=
  putLe (putLe (putLe (putLe (fun _ => 0) 0 4 src.toNat) 4 4 dst.toNat) 9 1 protocol.toNat) 10 2
    (ntoh16 len).toNat

/-- The checksum of a packet with its pseudo header. -/
def pseudoCksum (b : Bytes) (len : UInt64) (src dst : UInt32) (protocol : UInt8) : UInt16 :=
  let psum := ~~~cksum16 (pseudoHdr src dst protocol len.toUInt16) 12 0
  cksum16 b len.toUInt16 psum.toUInt32

/-! ### The handlers -/

/-- A part of a frame. -/
structure Slice where
  start : ℕ
  len : UInt64
  deriving DecidableEq

/-- The bytes from the start of a slice on. -/
def Slice.bytes (frame : Bytes) (s : Slice) : Bytes := fun i => frame (s.start + i)

/-- The rest of a slice behind its first `n` bytes. -/
def Slice.behind (s : Slice) (n : UInt64) : Slice := ⟨s.start + n.toNat, s.len - n⟩

/-- Why a packet is dropped. -/
inductive Drop
  | tooShort | version | headerLength | totalLength | checksum | fragment | noIface | otherHost | unsupported
  | length | notUnicast | noPort | noMemory | ignored
  deriving DecidableEq

/-- The protocols that `net_init` registers, `IP_PROTOCOL_*`. -/
inductive Protocol
  | icmp | udp | tcp
  deriving DecidableEq

def Protocol.number : Protocol → UInt8
  | .icmp => 1
  | .udp => 17
  | .tcp => 6

/-- The list that `ip_input` searches, the protocol registered last in front. -/
def protocols : List Protocol := [.tcp, .udp, .icmp]

/-- What `ip_input` hands to a protocol's handler. -/
structure Packet where
  protocol : Protocol
  slice : Slice
  src : UInt32
  dst : UInt32
  iface : Iface
  deriving DecidableEq

/-- The length of the header, four times the IHL field. -/
def hdrLen (frame : Bytes) : UInt16 := ((frame 0 &&& 0x0f).toUInt16) <<< 2

/-- The field of the total length. -/
def totalLen (frame : Bytes) : UInt16 := ntoh16 (load16 frame 2)

/-- `ip_input` up to the call of the handler; `iface` is the interface of the device. -/
def ipInput (iface : Option Iface) (frame : Bytes) (len : UInt64) : Except Drop Packet :=
  if len < 20 then .error .tooShort
  else if frame 0 >>> 4 ≠ 4 then .error .version
  else
    let hlen := hdrLen frame
    if len < hlen.toUInt64 then .error .headerLength
    else
      let total := totalLen frame
      if len < total.toUInt64 then .error .totalLength
      else if cksum16 frame hlen 0 ≠ 0 then .error .checksum
      else
        let offset := ntoh16 (load16 frame 6)
        if offset &&& 0x2000 ≠ 0 ∨ offset &&& 0x1fff ≠ 0 then .error .fragment
        else
          match iface with
          | none => .error .noIface
          | some iface =>
            let dst := load32 frame 16
            if dst ≠ iface.unicast ∧ dst ≠ iface.broadcast ∧ dst ≠ addrBroadcast then .error .otherHost
            else
              match protocols.find? fun p => p.number = frame 9 with
              | none => .error .unsupported
              -- the difference of two 16-bit numbers is an int, and becomes a size_t
              | some p => .ok ⟨p, ⟨hlen.toNat, total.toUInt64 - hlen.toUInt64⟩, load32 frame 12, dst, iface⟩

/-- What a handler does with its payload: it answers an echo request, queues a datagram for a block,
or hands a segment on. -/
inductive Action
  | reply (code : UInt8) (values : UInt32) (payload : Slice) (src dst : UInt32)
  | enqueue (block : ℕ) (foreign : Tcp.Endpoint) (payload : Slice)
  | segment (seq ack : UInt32) (len wnd up : UInt16) (flg : UInt8) (payload : Slice)
      (localEp foreignEp : Tcp.Endpoint)
  deriving DecidableEq

/-- The payload of an action. -/
def Action.payload : Action → Slice
  | .reply _ _ payload _ _ => payload
  | .enqueue _ _ payload => payload
  | .segment _ _ _ _ _ _ payload _ _ => payload

/-- `icmp_input`. -/
def icmpInput (frame : Bytes) (p : Packet) : Except Drop Action :=
  let b := p.slice.bytes frame
  if p.slice.len < 8 then .error .tooShort
  else if cksum16 b p.slice.len.toUInt16 0 ≠ 0 then .error .checksum
  else if b 0 = 8 then .ok (.reply (b 1) (load32 b 4) (p.slice.behind 8) p.iface.unicast p.src)
  else .error .ignored

/-- `udp_pcb_select` over the open blocks, given by their index and local endpoint. -/
def udpPcbSelect (open_ : List (ℕ × Tcp.Endpoint)) (addr : UInt32) (port : UInt16) : Option ℕ :=
  (open_.find? fun pcb => (pcb.2.addr = addrAny ∨ pcb.2.addr = addr) ∧ pcb.2.port = port).map Prod.fst

/-- `udp_input`; `room` is whether there is memory for the queue entry and its link. -/
def udpInput (open_ : List (ℕ × Tcp.Endpoint)) (room : Bool) (frame : Bytes) (p : Packet) :
    Except Drop Action :=
  let b := p.slice.bytes frame
  if p.slice.len < 8 then .error .tooShort
  else if p.slice.len ≠ (ntoh16 (load16 b 4)).toUInt64 then .error .length
  else if pseudoCksum b p.slice.len p.src p.dst Protocol.udp.number ≠ 0 then .error .checksum
  else
    match udpPcbSelect open_ p.dst (load16 b 2) with
    | none => .error .noPort
    | some block =>
      -- entry->len has 16 bits
      if room then .ok (.enqueue block ⟨p.src, load16 b 0⟩ ⟨p.slice.start + 8,
        (p.slice.len - 8).toUInt16.toUInt64⟩)
      else .error .noMemory

/-- `seg.len`: SYN and FIN count. -/
def segLen (rest : UInt16) (flg : UInt8) : UInt16 :=
  rest + (if Tcp.isSet flg Tcp.flgSyn then 1 else 0) + if Tcp.isSet flg Tcp.flgFin then 1 else 0

/-- `tcp_input` up to the call of `tcp_segment_arrives`. -/
def tcpInput (frame : Bytes) (p : Packet) : Except Drop Action :=
  let b := p.slice.bytes frame
  if p.slice.len < 20 then .error .tooShort
  else if pseudoCksum b p.slice.len p.src p.dst Protocol.tcp.number ≠ 0 then .error .checksum
  else if p.src = addrBroadcast ∨ p.src = p.iface.broadcast ∨ p.dst = addrBroadcast ∨
    p.dst = p.iface.broadcast then
    .error .notUnicast
  else
    let hlen : UInt16 := ((b 12 >>> 4).toUInt16) <<< 2
    let flg := b 13
    let len := segLen (p.slice.len - hlen.toUInt64).toUInt16 flg
    .ok (.segment (ntoh32 (load32 b 4)) (ntoh32 (load32 b 8)) len (ntoh16 (load16 b 14))
      (ntoh16 (load16 b 18)) flg
      (p.slice.behind hlen.toUInt64) ⟨p.dst, load16 b 2⟩ ⟨p.src, load16 b 0⟩)

/-- The handler of a packet. -/
def handler (open_ : List (ℕ × Tcp.Endpoint)) (room : Bool) (frame : Bytes) (p : Packet) :
    Except Drop Action :=
  match p.protocol with
  | .icmp => icmpInput frame p
  | .udp => udpInput open_ room frame p
  | .tcp => tcpInput frame p

/-! ### Bounds -/

/-- A slice lies in another one. -/
def Slice.Within (s outer : Slice) : Prop :=
  outer.start ≤ s.start ∧ s.start + s.len.toNat ≤ outer.start + outer.len.toNat

/-- The header of TCP as its data offset gives it. -/
def tcpHdrLen (frame : Bytes) (p : Packet) : UInt16 := ((p.slice.bytes frame 12 >>> 4).toUInt16) <<< 2

/-- The handler is called with a part of the frame behind a whole IP header, and every payload it
goes on with is a part of that. -/
structure Packet.InBounds (p : Packet) (frame : Bytes) (len : UInt64) : Prop where
  header : hdrSizeMin ≤ p.slice.start
  inside : p.slice.start + p.slice.len.toNat ≤ len.toNat
  payload : ∀ open_ room action, handler open_ room frame p = .ok action → action.payload.Within p.slice

variable {iface : Option Iface} {frame : Bytes} {len : UInt64} {p : Packet}

/-- What `ip_input` has checked when it calls a handler. -/
theorem ipInput_ok (h : ipInput iface frame len = .ok p) :
    (totalLen frame).toNat ≤ len.toNat ∧
      p.slice = ⟨(hdrLen frame).toNat, (totalLen frame).toUInt64 - (hdrLen frame).toUInt64⟩ := by
  unfold ipInput at h
  dsimp only at h
  split_ifs at h with _ _ _ htotal
  have hle : (totalLen frame).toNat ≤ len.toNat := by
    rw [UInt64.lt_iff_toNat_lt, UInt16.toNat_toUInt64] at htotal
    omega
  cases iface with
  | none => cases h
  | some iface =>
    dsimp only at h
    split_ifs at h
    split at h
    · cases h
    · cases h
      exact ⟨hle, rfl⟩

/-- A rest is inside its slice if and only if the slice has the bytes in front of it. -/
theorem Slice.behind_within_iff {s : Slice} {n : UInt64} : (s.behind n).Within s ↔ n.toNat ≤ s.len.toNat := by
  have hn := n.toNat_lt
  unfold Slice.Within Slice.behind
  rw [UInt64.toNat_sub]
  dsimp only
  omega

variable {action : Action}

theorem icmpInput_within (h : icmpInput frame p = .ok action) : action.payload.Within p.slice := by
  unfold icmpInput at h
  dsimp only at h
  split_ifs at h with hshort
  cases h
  apply Slice.behind_within_iff.mpr
  exact not_lt.mp hshort

theorem udpInput_within {open_ : List (ℕ × Tcp.Endpoint)} {room : Bool}
    (h : udpInput open_ room frame p = .ok action) : action.payload.Within p.slice := by
  unfold udpInput at h
  dsimp only at h
  split_ifs at h with hshort
  · split at h <;> cases h
    rw [UInt64.lt_iff_toNat_lt, not_lt] at hshort
    have height : UInt64.toNat 8 = 8 := rfl
    have hcut : (p.slice.len - 8).toUInt16.toUInt64.toNat ≤ (p.slice.len - 8).toNat := by
      exact Nat.mod_le _ _
    rw [UInt64.toNat_sub] at hcut
    unfold Slice.Within Action.payload
    dsimp only
    omega
  · split at h <;> cases h

theorem tcpInput_within_iff (h : tcpInput frame p = .ok action) :
    action.payload.Within p.slice ↔ (tcpHdrLen frame p).toNat ≤ p.slice.len.toNat := by
  unfold tcpInput at h
  dsimp only at h
  split_ifs at h
  cases h
  unfold Action.payload
  rw [Slice.behind_within_iff]
  rfl

/-- The handler of a packet is called within bounds, and stays within them, if and only if the
header has at least its fixed part and is not longer than the packet, and the header of a TCP
segment that is taken is not longer than what is left for it. -/
theorem parsed_in_bounds_iff (h : ipInput iface frame len = .ok p) :
    p.InBounds frame len ↔ hdrSizeMin ≤ (hdrLen frame).toNat ∧ (hdrLen frame).toNat ≤ (totalLen frame).toNat ∧
      (p.protocol = .tcp → ∀ action, tcpInput frame p = .ok action →
        (hdrLen frame).toNat + (tcpHdrLen frame p).toNat ≤ (totalLen frame).toNat) := by
  obtain ⟨htotal, hslice⟩ := ipInput_ok h
  have hlen := len.toNat_lt
  have hstart : p.slice.start = (hdrLen frame).toNat := by rw [hslice]
  have hlength : p.slice.len.toNat = (2 ^ 64 - (hdrLen frame).toNat + (totalLen frame).toNat) % 2 ^ 64 := by
    rw [hslice, UInt64.toNat_sub, UInt16.toNat_toUInt64, UInt16.toNat_toUInt64]
  constructor
  · intro hbounds
    have hheader := hbounds.header
    have hinside := hbounds.inside
    have hshort : (hdrLen frame).toNat ≤ (totalLen frame).toNat := by omega
    refine ⟨by omega, hshort, fun htcp action haction => ?_⟩
    have hhandler : handler [] false frame p = .ok action := by rw [handler, htcp, haction]
    have hwithin := (tcpInput_within_iff haction).mp (hbounds.payload [] false action hhandler)
    omega
  · rintro ⟨hheader, hshort, htcp⟩
    refine ⟨by omega, by omega, fun open_ room action haction => ?_⟩
    unfold handler at haction
    cases hprotocol : p.protocol with
    | icmp =>
      rw [hprotocol] at haction
      exact icmpInput_within haction
    | udp =>
      rw [hprotocol] at haction
      exact udpInput_within haction
    | tcp =>
      rw [hprotocol] at haction
      have hfits := htcp hprotocol action haction
      exact (tcpInput_within_iff haction).mpr (by omega)

/-- The interface 10.0.0.1/8. -/
def tenNet : Iface := Iface.make 0x0100000a 0x000000ff

/-- A frame with zeros behind it. -/
def frameOf (bytes : List UInt8) : Bytes := fun i => bytes.getD i 0

/-- An echo request without data from 10.0.0.2 to 10.0.0.1. -/
def echoRequest : Bytes :=
  frameOf [69, 0, 0, 28, 0, 0, 0, 0, 64, 1, 102, 223, 10, 0, 0, 2, 10, 0, 0, 1, 8, 0, 247, 255, 0, 0, 0, 0]

/-- The echo request is answered within its bounds. -/
theorem parsed_in_bounds_iff_echo : ∃ p, ipInput (some tenNet) echoRequest 28 = .ok p ∧
    p.InBounds echoRequest 28 := by
  have hparsed : ipInput (some tenNet) echoRequest 28 = .ok ⟨.icmp, ⟨20, 8⟩, 0x0200000a, 0x0100000a,
    tenNet⟩ := by
    decide +kernel
  refine ⟨_, hparsed, (parsed_in_bounds_iff hparsed).mpr ⟨by decide +kernel, by decide +kernel,
    fun htcp => ?_⟩⟩
  cases htcp

/-- An IP header that gives a total length of zero. -/
def totalZero : Bytes := frameOf [69, 0, 0, 0, 0, 0, 0, 0, 64, 1, 102, 251, 10, 0, 0, 2, 10, 0, 0, 1]

/-- The echo request with a header length of twelve bytes. -/
def shortHeader : Bytes :=
  frameOf [67, 0, 0, 28, 0, 0, 0, 0, 64, 1, 124, 226, 10, 0, 0, 2, 10, 0, 0, 1, 8, 0, 247, 255, 0, 0, 0, 0]

/-- A TCP segment of twenty bytes with a data offset of sixty. -/
def longOffset : Bytes :=
  frameOf [69, 0, 0, 40, 0, 0, 0, 0, 64, 6, 102, 206, 10, 0, 0, 2, 10, 0, 0, 1,
    156, 64, 0, 80, 0, 0, 0, 1, 0, 0, 0, 0, 240, 2, 255, 255, 95, 78, 0, 0]

/-- A frame of twenty bytes reaches a handler with a length of nearly 2^64, a header of twelve bytes
is taken, and the payload of a segment starts behind its end and has a length of nearly 2^64. -/
theorem packet_out_of_bounds :
    ipInput (some tenNet) totalZero 20 = .ok ⟨.icmp, ⟨20, 18446744073709551596⟩, 0x0200000a,
      0x0100000a, tenNet⟩ ∧
    ipInput (some tenNet) shortHeader 28 = .ok ⟨.icmp, ⟨12, 16⟩, 0x0200000a, 0x0100000a, tenNet⟩ ∧
    ∃ p action, ipInput (some tenNet) longOffset 40 = .ok p ∧ p.slice = ⟨20, 20⟩ ∧
      tcpInput longOffset p = .ok action ∧
      action.payload = ⟨80, 18446744073709551576⟩ := by
  refine ⟨by decide +kernel, by decide +kernel, ⟨.tcp, ⟨20, 20⟩, 0x0200000a, 0x0100000a, tenNet⟩, ?_⟩
  refine ⟨.segment 1 0 65497 0xffff 0 2 ⟨80, 18446744073709551576⟩ ⟨0x0100000a, 0x5000⟩ ⟨0x0200000a,
    0x409c⟩, ?_⟩
  exact ⟨by decide +kernel, rfl, by decide +kernel, rfl⟩

end Xv6.Ip
