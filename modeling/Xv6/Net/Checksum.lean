import Xv6.Lib.OctetSum
import Xv6.Net.Input

/-!
# Checksums of built packets

The packets of `tcp_output_segment`, `udp_output` and `icmp_output` (`kernel/net/tcp.c`, `udp.c`,
`icmp.c`), each wrapped by `ip_output_core` (`ip.c`), against the tests of the input side. A packet
is written into memory whose contents before are arbitrary. `cksum16` is the complement of a folded
ones'-complement sum: a test passes when the sum folds to ones, and a sender that stores the
complement makes it so.
-/

namespace Xv6.Ip

open Lib

/-! ### The checksum as a sum -/

theorem ntoh16_ntoh16 (v : UInt16) : ntoh16 (ntoh16 v) = v := by
  apply UInt16.toBitVec_inj.mp
  apply BitVec.eq_of_getLsbD_eq
  intro i hi
  unfold ntoh16
  interval_cases i <;> simp

theorem toNat_load16 (b : Bytes) (o : ℕ) : (load16 b o).toNat = (b o).toNat + 256 * (b (o + 1)).toNat := by
  have hlo := (b o).toNat_lt
  have hhi := (b (o + 1)).toNat_lt
  simp only [load16, getLe, UInt16.toNat_ofNat']
  omega

/-- The sum of `cksum16` does not overflow. -/
theorem toNat_cksumWords {b : Bytes} {o n : ℕ} {sum : UInt32}
    (hfit : sum.toNat + octetSum (fun i => b (o + i)) n < 2 ^ 32) :
    (cksumWords b o n sum).toNat = sum.toNat + octetSum (fun i => b (o + i)) n := by
  fun_induction cksumWords b o n sum with
  | case1 => simp [octetSum]
  | case2 o sum =>
    have hone : octetSum (fun i => b (o + i)) 1 = (b o).toNat := by simp [octetSum]
    rw [hone] at hfit ⊢
    rw [UInt32.toNat_add, UInt8.toNat_toUInt32, Nat.mod_eq_of_lt hfit]
  | case3 o count sum ih =>
    have hsplit : octetSum (fun i => b (o + i)) count.succ.succ =
        (b o).toNat + 256 * (b (o + 1)).toNat + octetSum (fun i => b (o + 2 + i)) count := by
      simp only [Nat.add_assoc o]
      exact octetSum_add_two (fun i => b (o + i)) count
    have hword := toNat_load16 b o
    have hsum : (sum + (load16 b o).toUInt32).toNat = sum.toNat + (load16 b o).toNat := by
      rw [UInt32.toNat_add, UInt16.toNat_toUInt32, Nat.mod_eq_of_lt (by omega)]
    omega

/-- Folding keeps the residue. -/
theorem onesFold_foldCarry (turns : ℕ) (sum : UInt32) : onesFold (foldCarry turns sum).toNat =
    onesFold sum.toNat := by
  induction turns generalizing sum with
  | zero => rfl
  | succ turns ih =>
    rw [foldCarry]
    split
    · rfl
    · rw [ih, toNat_foldTurn, onesFold_turn]

theorem toNat_foldCarry_two (sum : UInt32) : (foldCarry 2 sum).toNat = onesFold sum.toNat := by
  rw [← onesFold_foldCarry 2, onesFold_of_lt (shiftRight_sixteen_eq_zero.mp (foldCarry_two sum))]

variable {b : Bytes} {count : UInt16} {init : UInt32}

section

variable (hinit : init.toNat < 2 ^ 16)

include hinit

/-- `cksum16` is the complement of the folded sum. -/
theorem toNat_cksum16 :
    (cksum16 b count init).toNat = 65535 - onesFold (init.toNat + octetSum b count.toNat) := by
  have hcount := count.toNat_lt
  have hle := octetSum_le b count.toNat
  have hwords : (cksumWords b 0 count.toNat init).toNat = init.toNat + octetSum b count.toNat := by
    have hshift : octetSum (fun i => b (0 + i)) count.toNat =
      octetSum b count.toNat := by simp only [Nat.zero_add]
    rw [toNat_cksumWords (by omega), hshift]
  have hfold := onesFold_le (init.toNat + octetSum b count.toNat)
  rw [cksum16, UInt16.toNat_not, UInt32.toNat_toUInt16, toNat_foldCarry_two, hwords]
  change 65536 - 1 - _ % 65536 = _
  omega

theorem cksum16_eq_zero_iff :
    cksum16 b count init = 0 ↔ onesFold (init.toNat + octetSum b count.toNat) = 65535 := by
  have hfold := onesFold_le (init.toNat + octetSum b count.toNat)
  rw [← UInt16.toNat_inj, toNat_cksum16 hinit, UInt16.toNat_zero]
  omega

/-- The checksum depends on the bytes it covers. -/
theorem cksum16_congr {c : Bytes} (h : ∀ i < count.toNat, b i = c i) :
    cksum16 b count init = cksum16 c count init := by
  rw [← UInt16.toNat_inj, toNat_cksum16 hinit, toNat_cksum16 hinit, octetSum_congr h]

/-- With the checksum in a word that was zero the test passes. -/
theorem cksum16_seal {o : ℕ} (heven : o % 2 = 0) (hfit : o + 2 ≤ count.toNat) (hlo : b o = 0)
    (hhi : b (o + 1) = 0) : cksum16 (putLe b o 2 (cksum16 b count init).toNat) count init = 0 := by
  rw [cksum16_eq_zero_iff hinit, octetSum_putLe heven hfit hlo hhi (cksum16 b count init).toNat_lt,
    toNat_cksum16 hinit,
    ← Nat.add_assoc]
  exact onesFold_add_compl _

/-- With one bit flipped the test fails. -/
theorem cksum16_flipBit {j : ℕ} (hj : j < 8 * count.toNat) (h : cksum16 b count init = 0) :
    cksum16 (flipBit b j) count init ≠ 0 := by
  rw [cksum16_eq_zero_iff hinit] at h
  rw [Ne, cksum16_eq_zero_iff hinit]
  exact onesFold_flipBit hj h

end

/-! ### The senders -/

/-- The header that `ip_output_core` writes, with a zero checksum. -/
def ipHeader (buf : Bytes) (protocol : UInt8) (total : UInt16) (src dst : UInt32)
    (id offset : UInt16) : Bytes :=
  let b := putLe buf 0 1 (4 <<< 4 ||| 20 >>> 2)
  let b := putLe b 1 1 0
  let b := putLe b 2 2 (ntoh16 total).toNat
  let b := putLe b 4 2 (ntoh16 id).toNat
  let b := putLe b 6 2 (ntoh16 offset).toNat
  let b := putLe b 8 1 0xff
  let b := putLe b 9 1 protocol.toNat
  let b := putLe b 10 2 0
  let b := putLe b 12 4 src.toNat
  putLe b 16 4 dst.toNat

/-- `ip_output_core`, up to the device. -/
def ipOutputCore (buf : Bytes) (protocol : UInt8) (data : Bytes) (len : ℕ) (src dst : UInt32)
    (id offset : UInt16) : Bytes :=
  let hdr := ipHeader buf protocol (UInt16.ofNat (20 + len)) src dst id offset
  blit (putLe hdr 10 2 (cksum16 hdr 20 0).toNat) 20 len data

/-- The segment of `tcp_output_segment`. -/
def tcpOutputSegment (buf : Bytes) (seq ack : UInt32) (flg : UInt8) (wnd : UInt16) (data : Bytes) (len : ℕ)
    (localEp foreignEp : Tcp.Endpoint) : Bytes :=
  let b := putLe buf 0 2 localEp.port.toNat
  let b := putLe b 2 2 foreignEp.port.toNat
  let b := putLe b 4 4 (ntoh32 seq).toNat
  let b := putLe b 8 4 (ntoh32 ack).toNat
  let b := putLe b 12 1 ((20 >>> 2) <<< 4)
  let b := putLe b 13 1 flg.toNat
  let b := putLe b 14 2 (ntoh16 wnd).toNat
  let b := putLe b 16 2 0
  let b := putLe b 18 2 0
  let b := blit b 20 len data
  let total := UInt16.ofNat (20 + len)
  let psum := ~~~cksum16 (pseudoHdr localEp.addr foreignEp.addr Protocol.tcp.number total) 12 0
  putLe b 16 2 (cksum16 b total psum.toUInt32).toNat

/-- The datagram of `udp_output`. -/
def udpOutput (buf : Bytes) (src dst : Tcp.Endpoint) (data : Bytes) (len : ℕ) : Bytes :=
  let b := putLe buf 0 2 src.port.toNat
  let b := putLe b 2 2 dst.port.toNat
  let total := UInt16.ofNat (8 + len)
  let b := putLe b 4 2 (ntoh16 total).toNat
  let b := putLe b 6 2 0
  let b := blit b 8 len data
  let psum := ~~~cksum16 (pseudoHdr src.addr dst.addr Protocol.udp.number total) 12 0
  putLe b 6 2 (cksum16 b total psum.toUInt32).toNat

/-- The message of `icmp_output`. -/
def icmpOutput (buf : Bytes) (type code : UInt8) (values : UInt32) (data : Bytes) (len : ℕ) : Bytes :=
  let b := putLe buf 0 1 type.toNat
  let b := putLe b 1 1 code.toNat
  let b := putLe b 2 2 0
  let b := putLe b 4 4 values.toNat
  let b := blit b 8 len data
  putLe b 2 2 (cksum16 b (UInt16.ofNat (8 + len)) 0).toNat

/-! ### The tests -/

/-- The test of `ip_input`. -/
def headerCksum (frame : Bytes) : UInt16 := cksum16 frame (hdrLen frame) 0

/-- The slice that `ip_input` hands to a handler. -/
def packetSlice (frame : Bytes) : Slice :=
  ⟨(hdrLen frame).toNat, (totalLen frame).toUInt64 - (hdrLen frame).toUInt64⟩

/-- The value that the test of a handler starts with: the sum of the pseudo header, apart from
ICMP. -/
def payloadInit (p : Protocol) (len : UInt16) (src dst : UInt32) : UInt32 :=
  match p with
  | .icmp => 0
  | .udp | .tcp => (~~~cksum16 (pseudoHdr src dst p.number len) 12 0).toUInt32

/-- The test of a handler, for the packet in a frame. -/
def payloadCksum (p : Protocol) (frame : Bytes) : UInt16 :=
  let len := (packetSlice frame).len.toUInt16
  cksum16 ((packetSlice frame).bytes frame) len (payloadInit p len (load32 frame 12) (load32 frame 16))

theorem payloadInit_lt (p : Protocol) (len : UInt16) (src dst : UInt32) :
    (payloadInit p len src dst).toNat < 2 ^ 16 := by
  cases p with
  | icmp => exact Nat.two_pow_pos 16
  | udp | tcp =>
    exact UInt16.toNat_lt _

variable {iface : Option Iface} {frame : Bytes} {len : UInt64} {p : Packet}

/-- A packet that `ip_input` hands on passed its test. -/
theorem ipInput_ok_cksum (h : ipInput iface frame len = .ok p) :
    headerCksum frame = 0 ∧ p.slice = packetSlice frame ∧ p.src = load32 frame 12 ∧
      p.dst = load32 frame 16 := by
  unfold ipInput at h
  dsimp only at h
  split_ifs at h with _ _ _ _ hcksum
  cases iface with
  | none => cases h
  | some iface =>
    dsimp only at h
    split_ifs at h
    split at h
    · cases h
    · cases h
      exact ⟨not_not.mp hcksum, rfl, rfl, rfl⟩

/-- `ip_input` reports a checksum error only when its test failed. -/
theorem ipInput_error_cksum (h : ipInput iface frame len = .error .checksum) : headerCksum frame ≠ 0 := by
  intro hzero
  unfold ipInput at h
  dsimp only at h
  rw [show cksum16 frame (hdrLen frame) 0 = 0 from hzero, if_neg (not_not.mpr (rfl : (0 : UInt16) = 0))] at h
  split_ifs at h <;> try cases h
  cases iface with
  | none => cases h
  | some iface =>
    dsimp only at h
    split_ifs at h
    · cases h
    · split at h <;> cases h

/-- The packet that `ip_input` found in a frame. -/
def Packet.Of (p : Packet) (frame : Bytes) : Prop :=
  p.slice = packetSlice frame ∧ p.src = load32 frame 12 ∧ p.dst = load32 frame 16

variable {open_ : List (ℕ × Tcp.Endpoint)} {room : Bool} {action : Action}

/-- A packet that a handler acts on passed its test. -/
theorem handler_ok_cksum (hp : p.Of frame) (h : handler open_ room frame p = .ok action) :
    payloadCksum p.protocol frame = 0 := by
  obtain ⟨protocol, slice, src, dst, iface⟩ := p
  obtain ⟨rfl, rfl, rfl⟩ := hp
  cases protocol with
  | icmp =>
    simp only [handler, icmpInput] at h
    split_ifs at h with _ hcksum
    exact not_not.mp hcksum
  | udp =>
    simp only [handler, udpInput] at h
    split_ifs at h with _ _ hcksum <;> exact not_not.mp hcksum
  | tcp =>
    simp only [handler, tcpInput] at h
    split_ifs at h with _ hcksum
    exact not_not.mp hcksum

/-- A handler reports a checksum error only when its test failed. -/
theorem handler_error_cksum (hp : p.Of frame) (h : handler open_ room frame p = .error .checksum) :
    payloadCksum p.protocol frame ≠ 0 := by
  intro hzero
  obtain ⟨protocol, slice, src, dst, iface⟩ := p
  obtain ⟨rfl, rfl, rfl⟩ := hp
  cases protocol with
  | icmp =>
    have hpass : cksum16 ((packetSlice frame).bytes frame) (packetSlice frame).len.toUInt16 0 = 0 := hzero
    simp only [handler, icmpInput, ne_eq] at h
    split_ifs at h <;> cases h
  | udp =>
    have hpass : pseudoCksum ((packetSlice frame).bytes frame) (packetSlice frame).len
      (load32 frame 12) (load32 frame 16)
      Protocol.udp.number = 0 := hzero
    simp only [handler, udpInput, ne_eq] at h
    split_ifs at h <;> try cases h
    all_goals split at h <;> cases h
  | tcp =>
    have hpass : pseudoCksum ((packetSlice frame).bytes frame) (packetSlice frame).len
      (load32 frame 12) (load32 frame 16)
      Protocol.tcp.number = 0 := hzero
    simp only [handler, tcpInput, hpass, ne_eq, not_true_eq_false, if_false] at h
    split_ifs at h <;> cases h

/-! ### Built packets pass -/

section Built

variable {buf data : Bytes} {n : ℕ} {src dst : UInt32} {id offset : UInt16} {protocol : UInt8}

theorem hdrLen_ipOutputCore : hdrLen (ipOutputCore buf protocol data n src dst id offset) = 20 := by
  have hfirst : ipOutputCore buf protocol data n src dst id offset 0 = 0x45 := by
    rfl
  rw [hdrLen, hfirst]
  rfl

theorem totalLen_ipOutputCore : totalLen (ipOutputCore buf protocol data n src dst id offset) =
    UInt16.ofNat (20 + n) := by
  have hfield : getLe (ipOutputCore buf protocol data n src dst id offset) 2 2 =
    (ntoh16 (UInt16.ofNat (20 + n))).toNat := by
    have hlt := (ntoh16 (UInt16.ofNat (20 + n))).toNat_lt
    simp (disch := omega) only [ipOutputCore, ipHeader, getLe_blit_of_disjoint,
      getLe_putLe_of_disjoint, getLe_putLe_of_lt]
  rw [totalLen, load16, hfield, UInt16.ofNat_toNat, ntoh16_ntoh16]

theorem src_ipOutputCore : load32 (ipOutputCore buf protocol data n src dst id offset) 12 = src := by
  have hlt := src.toNat_lt
  simp (disch := omega) only [load32, ipOutputCore, ipHeader, getLe_blit_of_disjoint, getLe_putLe_of_disjoint,
    getLe_putLe_of_lt, UInt32.ofNat_toNat]

theorem dst_ipOutputCore : load32 (ipOutputCore buf protocol data n src dst id offset) 16 = dst := by
  have hlt := dst.toNat_lt
  simp (disch := omega) only [load32, ipOutputCore, ipHeader, getLe_blit_of_disjoint, getLe_putLe_of_disjoint,
    getLe_putLe_of_lt, UInt32.ofNat_toNat]

theorem headerCksum_ipOutputCore : headerCksum (ipOutputCore buf protocol data n src dst id offset) = 0 := by
  rw [headerCksum, hdrLen_ipOutputCore, ipOutputCore,
    cksum16_congr (b := blit _ 20 _ _) (by decide) fun i (hi : i < (20 : UInt16).toNat) =>
      blit_of_outside (.inl hi)]
  exact cksum16_seal (by decide) rfl (by decide) rfl rfl

theorem packetSlice_ipOutputCore (hn : n ≤ 1480) :
    packetSlice (ipOutputCore buf protocol data n src dst id offset) = ⟨20, UInt64.ofNat n⟩ := by
  rw [packetSlice, hdrLen_ipOutputCore, totalLen_ipOutputCore, Slice.mk.injEq]
  refine ⟨rfl, UInt64.toNat_inj.mp ?_⟩
  rw [UInt64.toNat_sub, UInt16.toNat_toUInt64, UInt16.toNat_toUInt64, UInt16.toNat_ofNat',
    UInt64.toNat_ofNat']
  change (2 ^ 64 - 20 + _) % 2 ^ 64 = _
  omega

/-- The test of the handler is a test of what was wrapped. -/
theorem payloadCksum_ipOutputCore (p : Protocol) (hn : n ≤ 1480) :
    payloadCksum p (ipOutputCore buf protocol data n src dst id offset) =
      cksum16 data (UInt16.ofNat n) (payloadInit p (UInt16.ofNat n) src dst) := by
  rw [payloadCksum, packetSlice_ipOutputCore hn, src_ipOutputCore, dst_ipOutputCore, UInt64.toUInt16_ofNat']
  refine cksum16_congr (payloadInit_lt _ _ _ _) fun i hi => ?_
  rw [UInt16.toNat_ofNat'] at hi
  exact (blit_of_inside (by simp) (by simp; omega)).trans (by simp)

end Built

/-! ### Flipped bits -/

variable {j : ℕ}

/-- A flip behind the length of the header keeps this length. -/
theorem hdrLen_flipBit (hj : 4 ≤ j) : hdrLen (flipBit frame j) = hdrLen frame := by
  unfold hdrLen
  congr 2
  by_cases hfirst : 0 = j / 8
  · have hall : ∀ x : Fin 256, ∀ k : Fin 8, 4 ≤ k.val →
        (UInt8.ofNat x ^^^ UInt8.ofNat (2 ^ k.val)) &&& 0x0f = UInt8.ofNat x &&& 0x0f := by decide +kernel
    have hbit := hall ⟨(frame 0).toNat, (frame 0).toNat_lt⟩ ⟨j % 8, by omega⟩ (by dsimp only; omega)
    rw [flipBit, ← hfirst]
    simpa using hbit
  · rw [flipBit_of_ne hfirst]

/-- With bit 2 of the header's length flipped, four bytes are summed up, and their sum stays below
the ones: the total length would have to be 48895. -/
theorem headerCksum_flipBit_two {buf data : Bytes} {n : ℕ} {src dst : UInt32} {id offset : UInt16}
    {protocol : UInt8}
    (hn : n ≤ 1480) : headerCksum (flipBit (ipOutputCore buf protocol data n src dst id offset) 2) ≠ 0 := by
  intro h
  have htotal := @totalLen_ipOutputCore buf data n src dst id offset protocol
  have hfirst : flipBit (ipOutputCore buf protocol data n src dst id offset) 2 0 = 0x41 := by
    have hbyte : ipOutputCore buf protocol data n src dst id offset 0 = 0x45 := rfl
    rw [flipBit, show 2 / 8 = 0 from rfl, Function.update_self, hbyte]
    rfl
  have hsecond : flipBit (ipOutputCore buf protocol data n src dst id offset) 2 1 = 0 :=
    (flipBit_of_ne (by decide)).trans rfl
  generalize ipOutputCore buf protocol data n src dst id offset = frame at h htotal hfirst hsecond
  have hlen : hdrLen (flipBit frame 2) = 4 := by
    rw [hdrLen, hfirst]
    rfl
  have hrest : flipBit frame 2 2 = frame 2 ∧ flipBit frame 2 3 = frame 3 :=
    ⟨flipBit_of_ne (by decide), flipBit_of_ne (by decide)⟩
  have hsum : octetSum (flipBit frame 2) (4 : UInt16).toNat = 0x41 + (load16 frame 2).toNat := by
    change octetSum (flipBit frame 2) (0 + 2 + 2) = _
    rw [octetSum_add_two, octetSum_add_two, hfirst, hsecond, toNat_load16]
    simp [octetSum, hrest]
  rw [headerCksum, hlen, cksum16_eq_zero_iff (by decide), onesFold_eq_max_iff, hsum] at h
  have hlt := (load16 frame 2).toNat_lt
  have hword : load16 frame 2 = 0xffbe := by
    have hzero : (0 : UInt32).toNat = 0 := rfl
    apply UInt16.toNat_inj.mp
    change _ = 0xffbe
    omega
  rw [totalLen, hword, ← UInt16.toNat_inj, UInt16.toNat_ofNat'] at htotal
  have hvalue : (ntoh16 0xffbe).toNat = 48895 := by decide
  omega

/-- A flip behind the header is a flip in the payload. -/
theorem payloadCksum_flipBit {p : Protocol} (hstart : hdrLen frame = 20) (hj : 160 ≤ j)
    (hend : j < 8 * (20 + (packetSlice frame).len.toUInt16.toNat)) (h : payloadCksum p frame = 0) :
    payloadCksum p (flipBit frame j) ≠ 0 := by
  have hheader : ∀ i < 20, flipBit frame j i = frame i := fun i hi => flipBit_of_ne (by omega)
  have hfield : ∀ o w, o + w ≤ 20 → getLe (flipBit frame j) o w = getLe frame o w :=
    fun o w hw => getLe_congr fun i _ hi => hheader i (by omega)
  have hslice : packetSlice (flipBit frame j) = packetSlice frame := by
    rw [packetSlice, packetSlice, hdrLen_flipBit (by omega), totalLen, totalLen, load16, load16,
      hfield _ _ (by omega)]
  have hbytes : (packetSlice frame).bytes (flipBit frame j) =
    flipBit ((packetSlice frame).bytes frame) (j - 160) := by
    have hbase : (packetSlice frame).start = 20 := by
      rw [packetSlice, hstart]
      rfl
    unfold Slice.bytes
    rw [hbase]
    exact flipBit_shift hj
  rw [payloadCksum, hslice, hbytes, load32, load32, hfield _ _ (by omega), hfield _ _ (by omega)]
  exact cksum16_flipBit (payloadInit_lt _ _ _ _) (by omega) h

/-! ### Agreement -/

/-- A packet of `total` bytes passes both tests as it is, and fails the test of the part with one
bit flipped. Bits 0, 1 and 3 are left out: they are part of the header's length, which says what is
covered. -/
structure Checked (protocol : Protocol) (frame : Bytes) (total : ℕ) : Prop where
  header : headerCksum frame = 0
  payload : payloadCksum protocol frame = 0
  header_flip : ∀ j, j = 2 ∨ 4 ≤ j → j < 8 * 20 → headerCksum (flipBit frame j) ≠ 0
  payload_flip : ∀ j, 8 * 20 ≤ j → j < 8 * total → payloadCksum protocol (flipBit frame j) ≠ 0

/-- What the receiver does with such a packet: no checksum error as it is, and no further with one
bit flipped. -/
structure Received (protocol : Protocol) (frame : Bytes) (total : ℕ) : Prop where
  accepted : ∀ iface len, ipInput iface frame len ≠ .error .checksum
  handled : ∀ iface len p, ipInput iface frame len = .ok p → p.protocol = protocol →
    ∀ open_ room, handler open_ room frame p ≠ .error .checksum
  dropped : ∀ j, j = 2 ∨ 4 ≤ j → j < 8 * 20 → ∀ iface len p, ipInput iface (flipBit frame j) len ≠ .ok p
  ignored : ∀ j, 8 * 20 ≤ j → j < 8 * total → ∀ iface len p, ipInput iface (flipBit frame j) len = .ok p →
    p.protocol = protocol → ∀ open_ room action, handler open_ room (flipBit frame j) p ≠ .ok action

theorem Checked.received {protocol : Protocol} {total : ℕ} (h : Checked protocol frame total) :
    Received protocol frame total where
  accepted _ _ herror := ipInput_error_cksum herror h.header
  handled _ _ _ hp hprotocol _ _ herror := handler_error_cksum (ipInput_ok_cksum hp).2 herror
    (hprotocol ▸ h.payload)
  dropped j hlo hhi _ _ _ hp := h.header_flip j hlo hhi (ipInput_ok_cksum hp).1
  ignored j hlo hhi _ _ _ hp hprotocol _ _ _ haction :=
    h.payload_flip j hlo hhi (hprotocol ▸ handler_ok_cksum (ipInput_ok_cksum hp).2 haction)

/-- A packet whose payload passes the test of its protocol is checked. -/
theorem checked_ipOutputCore {buf data : Bytes} {n : ℕ} {src dst : UInt32} {id offset : UInt16} {p : Protocol}
    (hn : n ≤ 1480) (h : cksum16 data (UInt16.ofNat n) (payloadInit p (UInt16.ofNat n) src dst) = 0) :
    Checked p (ipOutputCore buf p.number data n src dst id offset) (20 + n) := by
  have hslice := @packetSlice_ipOutputCore buf data n src dst id offset p.number hn
  have hpayload : payloadCksum p (ipOutputCore buf p.number data n src dst id offset) = 0 :=
    (payloadCksum_ipOutputCore p hn).trans h
  refine ⟨headerCksum_ipOutputCore, hpayload, fun j hj hhi => ?_, fun j hlo hhi => ?_⟩
  · obtain rfl | hlo := hj
    · exact headerCksum_flipBit_two hn
    have hheader := @headerCksum_ipOutputCore buf data n src dst id offset p.number
    rw [headerCksum, hdrLen_ipOutputCore] at hheader
    rw [headerCksum, hdrLen_flipBit hlo, hdrLen_ipOutputCore]
    exact cksum16_flipBit (by decide) hhi hheader
  · refine payloadCksum_flipBit hdrLen_ipOutputCore hlo ?_ hpayload
    rw [hslice, UInt64.toUInt16_ofNat', UInt16.toNat_ofNat', Nat.mod_eq_of_lt (by omega)]
    exact hhi

/-- The payload of a sender that stores the checksum in a zero word. -/
theorem cksum16_stored {data : Bytes} {n o : ℕ} (hinit : init.toNat < 2 ^ 16) (heven : o % 2 = 0)
    (hfit : o + 2 ≤ n) (hn : n ≤ 1480) (hlo : data o = 0) (hhi : data (o + 1) = 0) :
    cksum16 (putLe data o 2 (cksum16 data (UInt16.ofNat n) init).toNat) (UInt16.ofNat n) init = 0 := by
  refine cksum16_seal hinit heven ?_ hlo hhi
  rw [UInt16.toNat_ofNat']
  omega

/-- The frame of a segment. -/
def tcpFrame (buf buf' data : Bytes) (n : ℕ) (seq ack : UInt32) (flg : UInt8) (wnd : UInt16)
    (localEp foreignEp : Tcp.Endpoint)
    (id offset : UInt16) : Bytes :=
  ipOutputCore buf Protocol.tcp.number
    (tcpOutputSegment buf' seq ack flg wnd data n localEp foreignEp) (20 + n) localEp.addr
    foreignEp.addr id offset

/-- The frame of a datagram. -/
def udpFrame (buf buf' data : Bytes) (n : ℕ) (src dst : Tcp.Endpoint) (id offset : UInt16) : Bytes :=
  ipOutputCore buf Protocol.udp.number (udpOutput buf' src dst data n) (8 + n) src.addr dst.addr id offset

/-- The frame of a message. -/
def icmpFrame (buf buf' data : Bytes) (n : ℕ) (type code : UInt8) (values src dst : UInt32)
    (id offset : UInt16) : Bytes :=
  ipOutputCore buf Protocol.icmp.number (icmpOutput buf' type code values data n) (8 + n) src dst id offset

/-- Every segment, datagram and message, wrapped in an IP packet, passes the tests of the receiver,
and fails the test of the part with a single flipped bit, apart from three bits of the header's
length. -/
theorem checksums_agree (buf buf' data : Bytes) (n : ℕ) (id offset : UInt16) :
    (20 + n ≤ 1480 → ∀ seq ack flg wnd localEp foreignEp,
      Checked .tcp (tcpFrame buf buf' data n seq ack flg wnd localEp foreignEp id offset) (40 + n) ∧
        Received .tcp (tcpFrame buf buf' data n seq ack flg wnd localEp foreignEp id offset) (40 + n)) ∧
    (8 + n ≤ 1480 →
      (∀ src dst, Checked .udp (udpFrame buf buf' data n src dst id offset) (28 + n) ∧
        Received .udp (udpFrame buf buf' data n src dst id offset) (28 + n)) ∧
      ∀ type code values src dst,
        Checked .icmp (icmpFrame buf buf' data n type code values src dst id offset) (28 + n) ∧
          Received .icmp (icmpFrame buf buf' data n type code values src dst id offset) (28 + n)) := by
  refine ⟨fun hn seq ack flg wnd localEp foreignEp => ?_,
    fun hn => ⟨fun src dst => ?_, fun type code values src dst => ?_⟩⟩
  · have h : Checked .tcp (tcpFrame buf buf' data n seq ack flg wnd localEp foreignEp id offset)
      (20 + (20 + n)) :=
      checked_ipOutputCore hn (cksum16_stored (payloadInit_lt .tcp _ _ _) rfl (by omega) hn rfl rfl)
    rw [← Nat.add_assoc] at h
    exact ⟨h, h.received⟩
  · have h : Checked .udp (udpFrame buf buf' data n src dst id offset) (20 + (8 + n)) :=
      checked_ipOutputCore hn (cksum16_stored (payloadInit_lt .udp _ _ _) rfl (by omega) hn rfl rfl)
    rw [← Nat.add_assoc] at h
    exact ⟨h, h.received⟩
  · have h : Checked .icmp (icmpFrame buf buf' data n type code values src dst id offset) (20 + (8 + n)) :=
      checked_ipOutputCore hn (cksum16_stored (Nat.two_pow_pos 16) rfl (by omega) hn rfl rfl)
    rw [← Nat.add_assoc] at h
    exact ⟨h, h.received⟩

/-- A datagram of one byte from 10.0.0.2 to 10.0.0.1. -/
theorem checksums_agree_one_byte : Checked .udp
    (udpFrame (fun _ => 0) (fun _ => 0) (fun _ => 7) 1 ⟨0x0200000a, 0x409c⟩ ⟨0x0100000a, 0x5000⟩ 128 0) 29 :=
  (((checksums_agree _ _ _ _ _ _).2 (by decide)).1 _ _).1

/-- The segment from port 1 of 10.0.0.2 whose ports add up to -2: with the header's length flipped
from 20 to 28 bytes the sum covers the ports too, and the test passes. -/
theorem flipped_header_length_passes :
    let frame := tcpFrame (fun _ => 0) (fun _ => 0) (fun _ => 0) 0 0 0 2 0 ⟨0x0200000a, 0x0100⟩
      ⟨0x0100000a, 0xfefd⟩ 128 0
    headerCksum frame = 0 ∧ hdrLen (flipBit frame 1) = 28 ∧ headerCksum (flipBit frame 1) = 0 := by
  decide +kernel

end Xv6.Ip
