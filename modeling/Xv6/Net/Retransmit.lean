import Mathlib.Data.List.TakeWhile
import Xv6.Lib.Run
import Xv6.Lib.Tiling
import Xv6.Net.Shift

/-!
# The retransmit queue

What was sent and is not acknowledged has to be in the retransmit queue until the
acknowledgment comes. The entries are laid end to end from `snd.una` to `snd.nxt`; sending
appends one, an acknowledgment drops those in front that begin below it. An acknowledgment
that ends inside an entry drops the whole entry, and a segment is sent even if there is no
memory for its entry: exactly then numbers are lost.
-/

namespace Xv6.Tcp

open Lib

/-! ### Coverage -/

/-- The sequence numbers that an entry occupies. -/
def QueueEntry.len (e : QueueEntry) : ℕ :=
  e.data.length + (if isSet e.flg flgSyn then 1 else 0) + if isSet e.flg flgFin then 1 else 0

/-- The entry holds the sequence number `x`. -/
def QueueEntry.Covers (e : QueueEntry) (x : UInt32) : Prop := (x - e.seq).toNat < e.len

/-- The sequence numbers sent and not acknowledged. -/
def Pcb.inFlight (pcb : Pcb) : ℕ := (pcb.snd.nxt - pcb.snd.una).toNat

/-- Every number of data or of a FIN from `snd.una` on to `snd.nxt` is in the queue, which is in
order. The number at `iss` is the one of the SYN. -/
structure Kept (pcb : Pcb) : Prop where
  covered : ∀ k < pcb.inFlight,
    (pcb.snd.una = pcb.iss ∧ k = 0) ∨ ∃ e ∈ pcb.queue, e.Covers (pcb.snd.una + UInt32.ofNat k)
  ordered : pcb.queue.Pairwise fun e f => (e.seq - pcb.snd.una).toNat ≤ (f.seq - pcb.snd.una).toNat

/-! ### The layout of the queue -/

/-- The entry begins at the stream offset `i`. -/
def Placed (i : ℕ) (e : QueueEntry) : Prop := e.seq = UInt32.ofNat i ∧ 0 < e.len

/-- The pages that the machine has; every entry of a queue takes two. -/
abbrev totalPages : ℕ := 60 * 1024 * 1024 / 4096

/-- The entries from `snd.una` on: SYNs while `snd.una` is at `iss`, and then data laid end to end
up to `stop`. -/
structure LaidTo (pcb : Pcb) (stop : ℕ) : Prop where
  iss_le : pcb.iss ≤ pcb.snd.una
  small : ∀ e ∈ pcb.queue, e.len ≤ memoryMax
  few : 2 * pcb.queue.length ≤ totalPages
  laid : ∃ syns rest, pcb.queue = syns ++ rest ∧ (∀ e ∈ syns, e.seq = pcb.iss ∧ e.len = 1) ∧
    (pcb.snd.una ≠ pcb.iss → syns = []) ∧
    Laid QueueEntry.len Placed (pcb.snd.una.toNat + if pcb.snd.una = pcb.iss then 1 else 0) rest stop

theorem ofNat_toNat_add (x : UInt32) (k : ℕ) : x + UInt32.ofNat k = UInt32.ofNat (x.toNat + k) := by
  rw [UInt32.ofNat_add, UInt32.ofNat_toNat]

/-- The distance of two offsets of the stream. -/
theorem toNat_ofNat_sub {i x : ℕ} (h : i ≤ x) (hlt : x - i < 2 ^ 32) :
    (UInt32.ofNat x - UInt32.ofNat i).toNat = x - i := by
  rw [UInt32.toNat_sub, UInt32.toNat_ofNat', UInt32.toNat_ofNat']
  omega

variable {e : QueueEntry}

/-- What an entry covers around its place in the stream. -/
theorem covers_iff {i x : ℕ} (h : Placed i e) (hsmall : e.len ≤ memoryMax) (hlo : i ≤ x + 2 ^ 31)
    (hhi : x ≤ i + 2 ^ 31) : e.Covers (UInt32.ofNat x) ↔ i ≤ x ∧ x < i + e.len := by
  rw [QueueEntry.Covers, h.1, UInt32.toNat_sub, UInt32.toNat_ofNat', UInt32.toNat_ofNat']
  simp only [memoryMax] at hsmall
  omega

variable {pcb : Pcb} {stop : ℕ} {n : ℕ}

theorem sum_len_le {q : List QueueEntry} (h : ∀ e ∈ q, e.len ≤ n) :
    (q.map QueueEntry.len).sum ≤ q.length * n := by
  induction q with
  | nil => exact Nat.zero_le _
  | cons e q ih =>
    have he := h e (by simp)
    have hq := ih fun f hf => h f (by simp [hf])
    simp only [List.map_cons, List.sum_cons, List.length_cons, Nat.succ_mul]
    omega

/-- The memory of the machine bounds what is in flight. -/
theorem LaidTo.stop_le (h : LaidTo pcb stop) : stop ≤ pcb.snd.una.toNat + 2 ^ 25 := by
  obtain ⟨syns, rest, hqueue, -, -, hlaid⟩ := h.laid
  have hsum := sum_len_le (q := rest) fun e he => h.small e (by simp [hqueue, he])
  have hfew := h.few
  rw [hqueue, List.length_append] at hfew
  have hstop := hlaid.stop_eq
  simp only [memoryMax, totalPages] at hsum hfew
  split at hstop <;> omega

theorem LaidTo.le_stop (h : LaidTo pcb stop) :
    pcb.snd.una.toNat + (if pcb.snd.una = pcb.iss then 1 else 0) ≤ stop := by
  obtain ⟨syns, rest, -, -, -, hlaid⟩ := h.laid
  exact hlaid.le

/-- A queue that is laid out at least to `snd.nxt` covers what is in flight. -/
theorem LaidTo.kept (h : LaidTo pcb stop) (hflight : pcb.snd.una.toNat + pcb.inFlight ≤ stop) : Kept pcb := by
  have hstop := h.stop_le
  obtain ⟨syns, rest, hqueue, hsyns, hnone, hlaid⟩ := h.laid
  constructor
  · intro k hk
    by_cases hfirst : pcb.snd.una = pcb.iss ∧ k = 0
    · exact .inl hfirst
    · right
      have hlo : pcb.snd.una.toNat + (if pcb.snd.una = pcb.iss then 1 else 0) ≤ pcb.snd.una.toNat + k := by
        split_ifs with huna
        · have : k ≠ 0 := fun hk => hfirst ⟨huna, hk⟩
          omega
        · omega
      obtain ⟨e, he, i, hplaced, -, hle, hlt⟩ := hlaid.cover hlo (by omega)
      have hsmall := h.small e (by simp [hqueue, he])
      refine ⟨e, by simp [hqueue, he], ?_⟩
      rw [ofNat_toNat_add, covers_iff hplaced hsmall (by omega) (by simp only [memoryMax] at hsmall; omega)]
      exact ⟨hle, hlt⟩
  · rw [hqueue]
    have hplace : ∀ i, pcb.snd.una.toNat ≤ i → i ≤ stop →
        (UInt32.ofNat i - pcb.snd.una).toNat = i - pcb.snd.una.toNat := by
      intro i hlo hhi
      conv_lhs => rw [← UInt32.ofNat_toNat (x := pcb.snd.una)]
      exact toNat_ofNat_sub hlo (by omega)
    have hzero : ∀ e ∈ syns, (e.seq - pcb.snd.una).toNat = 0 := by
      intro e he
      have huna : pcb.snd.una = pcb.iss := by
        by_contra hne
        rw [hnone hne] at he
        cases he
      rw [(hsyns e he).1, huna, UInt32.sub_self]
      rfl
    refine List.pairwise_append.mpr ⟨?_, ?_, ?_⟩
    · refine List.pairwise_of_forall_mem_list fun e he f hf => ?_
      rw [hzero e he]
      exact Nat.zero_le _
    · refine hlaid.pairwise.imp ?_
      rintro e f ⟨i, j, hi, hj, hlo, hij, hhi⟩
      rw [hi.1, hj.1, hplace i (by split at hlo <;> omega) (by omega),
        hplace j (by split at hlo <;> omega) (by omega)]
      omega
    · intro e he f _
      rw [hzero e he]
      exact Nat.zero_le _

variable {pcb' : Pcb}

section

variable (h : LaidTo pcb stop) (hiss : pcb'.iss = pcb.iss) (huna : pcb'.snd.una = pcb.snd.una)

include h hiss huna

theorem LaidTo.congr (hqueue : pcb'.queue = pcb.queue) : LaidTo pcb' stop := by
  obtain ⟨hle, hsmall, hfew, hlaid⟩ := h
  exact ⟨by rw [hiss, huna]; exact hle, by rw [hqueue]; exact hsmall, by rw [hqueue]; exact hfew,
    by rw [hiss, huna, hqueue]; exact hlaid⟩

/-- A new entry goes to the end. -/
theorem LaidTo.push (hqueue : pcb'.queue = pcb.queue ++ [e]) (hseq : e.seq = UInt32.ofNat stop)
    (hpos : 0 < e.len) (hsmall : e.len ≤ memoryMax) (hfew : 2 * (pcb.queue.length + 1) ≤ totalPages) :
    LaidTo pcb' (stop + e.len) := by
  obtain ⟨syns, rest, hsplit, hsyns, hnone, hlaid⟩ := h.laid
  refine ⟨by rw [hiss, huna]; exact h.iss_le, ?_, by simpa [hqueue] using hfew, syns, rest ++ [e],
    ?_, ?_, ?_, ?_⟩
  · rw [hqueue]
    exact List.forall_mem_append.mpr ⟨h.small, by simpa using hsmall⟩
  · rw [hqueue, hsplit, List.append_assoc]
  · rw [hiss]
    exact hsyns
  · rw [hiss, huna]
    exact hnone
  · rw [hiss, huna]
    exact laid_append.mpr ⟨stop, hlaid, ⟨hseq, hpos⟩, rfl⟩

end

/-- The offset of `snd.nxt` in the stream. -/
def Pcb.sendEnd (pcb : Pcb) : ℕ := pcb.snd.una.toNat + pcb.inFlight

theorem nxt_eq (pcb : Pcb) : pcb.snd.nxt = UInt32.ofNat pcb.sendEnd := by
  rw [Pcb.sendEnd, ← ofNat_toNat_add, Pcb.inFlight, UInt32.ofNat_toNat]
  grind

/-- More is in flight. -/
theorem sendEnd_add (huna : pcb'.snd.una = pcb.snd.una)
    (hnxt : pcb'.snd.nxt = pcb.snd.nxt + UInt32.ofNat n) (hlt : pcb.inFlight + n < 2 ^ 32) :
    pcb'.sendEnd = pcb.sendEnd + n := by
  have hflight : pcb'.inFlight = pcb.inFlight + n := by
    have hsum : pcb'.snd.nxt - pcb'.snd.una = pcb.snd.nxt - pcb.snd.una + UInt32.ofNat n := by
      grind
    rw [Pcb.inFlight, hsum, UInt32.toNat_add, UInt32.toNat_ofNat']
    unfold Pcb.inFlight at hlt ⊢
    omega
  rw [Pcb.sendEnd, Pcb.sendEnd, huna, hflight, Nat.add_assoc]

/-- Without wrap-around the end of the stream is `snd.nxt` itself. -/
theorem sendEnd_eq (h : pcb.snd.una ≤ pcb.snd.nxt) : pcb.sendEnd = pcb.snd.nxt.toNat := by
  rw [UInt32.le_iff_toNat_le] at h
  rw [Pcb.sendEnd, Pcb.inFlight, UInt32.toNat_sub_of_le _ _ h]
  omega

/-! ### Acknowledgments -/

/-- The acknowledgment ends inside the entry. -/
def QueueEntry.PartlyAcked (e : QueueEntry) (ack : UInt32) : Prop :=
  0 < (ack - e.seq).toNat ∧ (ack - e.seq).toNat < e.len

section

variable (h : LaidTo pcb pcb.sendEnd)

include h

/-- What the cleanup leaves begins at the acknowledgment, or behind it where an entry was
acknowledged in part. -/
theorem LaidTo.cleanup {ack : UInt32} (hlt : pcb.snd.una < ack) (hle : ack ≤ pcb.snd.nxt) :
    ∃ mid, Laid QueueEntry.len Placed mid (pcb.queue.dropWhile (·.seq < ack)) pcb.sendEnd ∧
      (mid = ack.toNat ∨ ack.toNat < mid ∧ ∃ e ∈ pcb.queue, e.PartlyAcked ack) ∧
      ((∃ e ∈ pcb.queue, e.PartlyAcked ack) → ack.toNat < mid) := by
  have hend := sendEnd_eq (UInt32.le_trans (UInt32.le_of_lt hlt) hle)
  rw [hend] at h ⊢
  obtain ⟨syns, rest, hsplit, hsyns, hnone, hlaid⟩ := h.laid
  rw [UInt32.lt_iff_toNat_lt] at hlt
  have hnxt := pcb.snd.nxt.toNat_lt
  have hseq : ∀ {i e}, Placed i e → i + e.len ≤ pcb.snd.nxt.toNat → e.seq.toNat = i := by
    intro i e hplaced hhi
    rw [hplaced.1, UInt32.toNat_ofNat']
    omega
  have hdrop : pcb.queue.dropWhile (·.seq < ack) = rest.dropWhile (·.seq < ack) := by
    rw [hsplit]
    refine List.dropWhile_append_of_pos fun e he => ?_
    have huna : pcb.snd.una = pcb.iss := by
      by_contra hne
      rw [hnone hne] at he
      cases he
    rw [(hsyns e he).1, ← huna]
    simpa [UInt32.lt_iff_toNat_lt] using hlt
  have hpart : ∀ {i e}, Placed i e → i + e.len ≤ pcb.snd.nxt.toNat →
      (e.PartlyAcked ack ↔ i < ack.toNat ∧ ack.toNat < i + e.len) := by
    intro i e hplaced hhi
    have hi := hseq hplaced hhi
    have hlt := ack.toNat_lt
    rw [QueueEntry.PartlyAcked, UInt32.toNat_sub, hi]
    omega
  obtain ⟨mid, hfront, hmid, hcut⟩ := hlaid.dropWhile (fun e => decide (e.seq < ack)) ack.toNat
    (by split <;> omega) hle fun i e he hplaced _ hhi => by
      rw [decide_eq_true_eq, UInt32.lt_iff_toNat_lt, hseq hplaced hhi]
  rw [hdrop]
  refine ⟨mid, hmid, hcut.imp_right ?_, ?_⟩
  · rintro ⟨hmid, e, he, i, hplaced, -, hhi, hinside⟩
    exact ⟨hmid, e, by simp [hsplit, he], (hpart hplaced hhi).mpr hinside⟩
  · rintro ⟨e, he, hacked⟩
    rw [hsplit, ← List.takeWhile_append_dropWhile (p := fun e => decide (e.seq < ack)) (l := rest),
      List.mem_append,
      List.mem_append] at he
    have hmidLe := hmid.le
    obtain he | he | he := he
    · have hlen := hacked.2
      rw [(hsyns e he).2] at hlen
      exact absurd hacked.1 (by omega)
    · obtain ⟨i, hplaced, -, hhi⟩ := hfront.place he
      have := (hpart hplaced (hhi.trans hmidLe)).mp hacked
      omega
    · obtain ⟨i, hplaced, hlo, hhi⟩ := hmid.place he
      have := (hpart hplaced hhi).mp hacked
      omega

/-- An acknowledgment that ends between two entries leaves the queue laid out; one that ends inside
loses numbers. -/
theorem LaidTo.ack {ack : UInt32} (hlt : pcb.snd.una < ack)
    (hle : ack ≤ pcb.snd.nxt) (hiss : pcb'.iss = pcb.iss) (huna : pcb'.snd.una = ack)
    (hnxt : pcb'.snd.nxt = pcb.snd.nxt) (hqueue : pcb'.queue = pcb.queue.dropWhile (·.seq < ack)) :
    ((∃ e ∈ pcb.queue, e.PartlyAcked ack) → ¬ Kept pcb') ∧
      ((¬ ∃ e ∈ pcb.queue, e.PartlyAcked ack) → LaidTo pcb' pcb'.sendEnd) := by
  obtain ⟨mid, hmid, hcut, hbehind⟩ := h.cleanup hlt hle
  have hend : pcb'.sendEnd = pcb.sendEnd := by
    rw [sendEnd_eq (by rw [huna, hnxt]; exact hle),
      sendEnd_eq (UInt32.le_trans (UInt32.le_of_lt hlt) hle), hnxt]
  have hsub := List.dropWhile_sublist (l := pcb.queue) fun e => decide (e.seq < ack)
  have hne : pcb'.snd.una ≠ pcb'.iss := by
    rw [huna, hiss]
    exact fun heq => absurd h.iss_le (UInt32.not_le.mpr (heq ▸ hlt))
  have hsmall : ∀ e ∈ pcb'.queue, e.len ≤ memoryMax := by
    rw [hqueue]
    exact fun e he => h.small e (hsub.subset he)
  have hstop := h.stop_le
  constructor
  · intro hpart hkept
    have hmidLt := hbehind hpart
    have hmidLe := hmid.le
    have hflight : 0 < pcb'.inFlight := by
      have : pcb'.sendEnd = ack.toNat + pcb'.inFlight := by rw [Pcb.sendEnd, huna]
      omega
    obtain ⟨heq, -⟩ | ⟨e, he, hcovers⟩ := hkept.covered 0 hflight
    · exact hne heq
    · rw [hqueue] at he
      obtain ⟨i, hplaced, hlo, hhi⟩ := hmid.place he
      rw [UInt32.lt_iff_toNat_lt] at hlt
      rw [ofNat_toNat_add, huna, covers_iff hplaced (h.small e (hsub.subset he)) (by omega)
        (by omega)] at hcovers
      omega
  · intro hwhole
    have hmidEq := hcut.resolve_right fun h => hwhole h.2
    rw [hmidEq, ← hqueue, ← hend] at hmid
    refine ⟨?_, hsmall, ?_, [], pcb'.queue, rfl, nofun, fun _ => rfl, ?_⟩
    · rw [hiss, huna]
      exact UInt32.le_trans h.iss_le (UInt32.le_of_lt hlt)
    · rw [hqueue]
      exact (Nat.mul_le_mul_left 2 hsub.length_le).trans h.few
    · rw [if_neg hne, huna]
      exact hmid

/-! ### Sending -/

theorem LaidTo.inFlight_le : pcb.inFlight ≤ 2 ^ 25 := by
  have hstop := h.stop_le
  unfold Pcb.sendEnd at hstop
  omega

/-- Numbers sent without an entry are not in the queue. -/
theorem LaidTo.lost (hiss : pcb'.iss = pcb.iss)
    (huna : pcb'.snd.una = pcb.snd.una) (hnxt : pcb'.snd.nxt = pcb.snd.nxt + UInt32.ofNat n)
    (hqueue : pcb'.queue = pcb.queue) (hpos : 0 < n) (hsmall : n < 2 ^ 16) : ¬ Kept pcb' := by
  intro hkept
  have hflight := h.inFlight_le
  have hend := sendEnd_add huna hnxt (by omega)
  have hle := h.le_stop
  obtain ⟨syns, rest, hsplit, hsyns, hnone, hlaid⟩ := h.laid
  have hlt : pcb.inFlight < pcb'.inFlight := by
    simp only [Pcb.sendEnd, huna] at hend
    omega
  unfold Pcb.sendEnd at hle
  obtain ⟨heq, hzero⟩ | ⟨e, he, hcovers⟩ := hkept.covered _ hlt
  · rw [if_pos (by rw [← huna, heq, hiss])] at hle
    omega
  · rw [hqueue, hsplit, List.mem_append] at he
    rw [huna] at hcovers
    obtain he | he := he
    · have heq : pcb.snd.una = pcb.iss := by
        by_contra hne
        rw [hnone hne] at he
        cases he
      rw [if_pos heq] at hle
      rw [QueueEntry.Covers, (hsyns e he).2, (hsyns e he).1, ← heq, UInt32.add_comm, UInt32.add_sub_cancel,
        UInt32.toNat_ofNat'] at hcovers
      omega
    · obtain ⟨i, hplaced, hlo, hhi⟩ := hlaid.place he
      unfold Pcb.sendEnd at hhi
      rw [ofNat_toNat_add, covers_iff hplaced (h.small e (by simp [hsplit, he])) (by omega)
        (by split at hlo <;> omega)] at hcovers
      omega

omit h in
theorem len_psh (seq : UInt32) (chunk : List UInt8) :
    (⟨seq, flgAck ||| flgPsh, chunk⟩ : QueueEntry).len = chunk.length := by
  have hsyn : isSet (flgAck ||| flgPsh) flgSyn = false := by decide
  have hfin : isSet (flgAck ||| flgPsh) flgFin = false := by decide
  simp [QueueEntry.len, hsyn, hfin]

/-- Numbers sent with an entry are. -/
theorem LaidTo.send (hiss : pcb'.iss = pcb.iss)
    (huna : pcb'.snd.una = pcb.snd.una) (hnxt : pcb'.snd.nxt = pcb.snd.nxt + UInt32.ofNat e.len)
    (hqueue : pcb'.queue = pcb.queue ++ [e]) (hseq : e.seq = pcb.snd.nxt) (hpos : 0 < e.len)
    (hsmall : e.len ≤ memoryMax) (hfew : 2 * (pcb.queue.length + 1) ≤ totalPages) :
    LaidTo pcb' pcb'.sendEnd := by
  have hflight := h.inFlight_le
  rw [sendEnd_add huna hnxt (by simp only [memoryMax] at hsmall; omega)]
  exact h.push hiss huna hqueue (hseq.trans (nxt_eq pcb)) hpos hsmall hfew

/-- The entry of data fits behind `snd.nxt`. -/
theorem LaidTo.pushed {chunk : List UInt8} (hiss : pcb'.iss = pcb.iss) (huna : pcb'.snd.una = pcb.snd.una)
    (hqueue : pcb'.queue = pcb.queue ++ [⟨pcb.snd.nxt, flgAck ||| flgPsh, chunk⟩]) (hne : chunk ≠ [])
    (hfits : queueEntrySize + chunk.length ≤ memoryMax) (hfew : 2 * (pcb.queue.length + 1) ≤ totalPages) :
    LaidTo pcb' (pcb.sendEnd + chunk.length) := by
  have hpos := List.length_pos_iff.mpr hne
  have hpush := h.push (e := ⟨pcb.snd.nxt, flgAck ||| flgPsh, chunk⟩) hiss huna hqueue (nxt_eq pcb)
  rw [len_psh] at hpush
  exact hpush hpos (by omega) hfew

end

/-! ### Steps of a connection -/

/-- What can happen to a connection: a turn of `tcp_send`, `tcp_close`, a segment, a tick of the
timer. -/
inductive Act
  | send (env : Env) (grant : Grant) (mss : Option ℕ) (data : List UInt8)
  | close (env : Env) (grant : Grant)
  | segment (env : Env) (seg : Segment)
  | tick (due : ℕ → Due)

/-- The block after a step. -/
def Pcb.after (pcb : Pcb) : Act → Pcb
  | .send env grant mss data => (sendTurn env grant mss data ⟨pcb, []⟩).2.pcb
  | .close env grant => (close env grant ⟨pcb, []⟩).1.pcb
  | .segment env seg => (segmentArrives env seg ⟨pcb, []⟩).pcb
  | .tick due => (timer due ⟨pcb, []⟩).pcb

/-- The allocator has no more pages than the machine. -/
def Grant.Possible (grant : Grant) (pcb : Pcb) : Prop :=
  grant.entry = true → 2 * (pcb.queue.length + 1) ≤ totalPages

/-- The steps considered: `tcp_send` has data left and a segment size below the largest MTU, no
entry is past the deadline. -/
def Act.Enabled (pcb : Pcb) : Act → Prop
  | .send _ grant mss data => grant.Possible pcb ∧ data ≠ [] ∧ ∀ m ∈ mss, m < 2 ^ 16
  | .close _ grant => grant.Possible pcb
  | .segment _ _ => True
  | .tick due => ∀ i, due i ≠ .expired

/-- The data that a turn of `tcp_send` sends. -/
def Pcb.chunk (pcb : Pcb) (mss : ℕ) (data : List UInt8) : List UInt8 := data.take (min mss pcb.cap.toNat)

/-- The states in which data can be sent. -/
def State.sends : State → Bool
  | .established | .closeWait => true
  | _ => false

/-- The acknowledgment of the segment moves `snd.una`. -/
def TakesAck (pcb : Pcb) (seg : Segment) : Prop :=
  pcb.state.acksData = true ∧ pcb.acceptable seg = true ∧ isSet seg.flg flgAck = true ∧
    pcb.snd.una < seg.ack ∧
    seg.ack ≤ pcb.snd.nxt

/-- The condition on a step: what is sent gets its entry, and an acknowledgment ends inside no
entry. -/
def Act.Meets (pcb : Pcb) : Act → Prop
  | .send _ grant mss data => ∀ m ∈ mss, pcb.state.sends = true → pcb.cap ≠ 0 → pcb.chunk m data ≠ [] →
      grant.segment = true → grant.entry = true ∧ queueEntrySize + (pcb.chunk m data).length ≤ memoryMax
  | .close _ grant => pcb.state.sends = true → grant.entry = true
  | .segment _ seg => TakesAck pcb seg → ¬ ∃ e ∈ pcb.queue, e.PartlyAcked seg.ack
  | .tick _ => True

/-- The queue of an open connection is laid out; a closed one does not change any more. -/
def Sound (pcb : Pcb) : Prop :=
  (pcb.state.started = true ∧ LaidTo pcb pcb.sendEnd) ∨ ((pcb.state = .free ∨ pcb.state = .closed) ∧ Kept pcb)

theorem Sound.kept (h : Sound pcb) : Kept pcb := by
  obtain ⟨-, hlaid⟩ | ⟨-, hkept⟩ := h
  · exact hlaid.kept le_rfl
  · exact hkept

theorem kept_zero : Kept Pcb.zero := ⟨fun k hk => absurd hk (by simp [Pcb.inFlight, Pcb.zero]), .nil⟩

/-- The block behind `tcp_output`. -/
theorem outputIn_pcb (c : Conn) (grant : Grant) (flg : UInt8) (data : List UInt8) :
    (c.outputIn grant flg data).1.pcb =
      if isSet flg (flgSyn ||| flgFin) ∨ data ≠ [] then
        c.pcb.queueAdd grant ⟨if isSet flg flgSyn then c.pcb.iss else c.pcb.snd.nxt, flg, data⟩
      else c.pcb := by
  have hpcb : (c.outputIn grant flg data).1.pcb = { c.pcb with
      queue := if isSet flg (flgSyn ||| flgFin) ∨ data ≠ [] then
          (c.pcb.queueAdd grant ⟨if isSet flg flgSyn then c.pcb.iss else c.pcb.snd.nxt, flg, data⟩).queue
        else c.pcb.queue } := by
    cases hseg : grant.segment <;> simp [Conn.outputIn, hseg, Conn.outputSegment, Conn.emit]
  rw [hpcb]
  by_cases hoccupies : isSet flg (flgSyn ||| flgFin) ∨ data ≠ []
  · simp only [if_pos hoccupies]
    rfl
  · simp only [if_neg hoccupies]

theorem queueAdd_cases (pcb : Pcb) (grant : Grant) (e : QueueEntry) :
    (grant.entry = true ∧ queueEntrySize + e.data.length ≤ memoryMax ∧
      pcb.queueAdd grant e = { pcb with queue := pcb.queue ++ [e] }) ∨
    (¬(grant.entry = true ∧ queueEntrySize + e.data.length ≤ memoryMax) ∧ pcb.queueAdd grant e = pcb) := by
  unfold Pcb.queueAdd
  split
  · rename_i h
    exact .inl ⟨h.1, h.2, rfl⟩
  · rename_i h
    exact .inr ⟨h, rfl⟩

/-- The block after the data of a turn is queued. -/
def Pcb.queued (pcb : Pcb) (grant : Grant) (chunk : List UInt8) : Pcb :=
  if chunk ≠ [] then pcb.queueAdd grant ⟨pcb.snd.nxt, flgAck ||| flgPsh, chunk⟩ else pcb

theorem outputIn_psh (pcb : Pcb) (fx : List Effect) (grant : Grant) (chunk : List UInt8) :
    ((⟨pcb, fx⟩ : Conn).outputIn grant (flgAck ||| flgPsh) chunk).1.pcb = pcb.queued grant chunk := by
  rw [outputIn_pcb]
  have hfin : isSet (flgAck ||| flgPsh) (flgSyn ||| flgFin) = false := by decide
  have hsyn : isSet (flgAck ||| flgPsh) flgSyn = false := by decide
  simp only [hfin, hsyn, Bool.false_eq_true, false_or, if_false, Pcb.queued]

/-- The block when the data of a turn has left. -/
def Pcb.moved (pcb : Pcb) (n : ℕ) : Pcb :=
  { pcb with snd := { pcb.snd with nxt := pcb.snd.nxt + UInt32.ofNat n } }

theorem sendChunk_cases (env : Env) (grant : Grant) (chunk : List UInt8) (pcb : Pcb) :
    (grant.segment = true ∧
      (sendChunk env grant chunk ⟨pcb, []⟩).2.pcb = (pcb.queued grant chunk).moved chunk.length) ∨
    (grant.segment = false ∧ ((sendChunk env grant chunk ⟨pcb, []⟩).2.pcb = .zero ∨
      (sendChunk env grant chunk ⟨pcb, []⟩).2.pcb = { pcb.queued grant chunk with state := .closed })) := by
  have hpcb := outputIn_psh pcb [] grant chunk
  have hleft : ((⟨pcb, []⟩ : Conn).outputIn grant (flgAck ||| flgPsh) chunk).2 = grant.segment := rfl
  unfold sendChunk
  cases hout : (⟨pcb, []⟩ : Conn).outputIn grant (flgAck ||| flgPsh) chunk with
  | mk c left =>
    rw [hout] at hpcb hleft
    rw [← hleft, ← hpcb]
    cases left with
    | true => exact .inl ⟨rfl, rfl⟩
    | false =>
      refine .inr ⟨rfl, ?_⟩
      dsimp only
      unfold Conn.release
      split
      · exact .inr rfl
      · exact .inl rfl

/-- What a turn of `tcp_send` does: nothing, or it tries to send. -/
theorem send_cases (pcb : Pcb) (env : Env) (grant : Grant) (mss : Option ℕ) (data : List UInt8) :
    ((∀ m ∈ mss, pcb.state.sends = true → pcb.cap = 0) ∧ pcb.after (.send env grant mss data) = pcb) ∨
    ∃ m, mss = some m ∧ pcb.state.sends = true ∧ pcb.cap ≠ 0 ∧
      pcb.after (.send env grant mss data) = (sendChunk env grant (pcb.chunk m data) ⟨pcb, []⟩).2.pcb := by
  cases mss with
  | none => exact .inl ⟨nofun, by cases hstate : pcb.state <;> simp [Pcb.after, sendTurn]⟩
  | some m =>
    by_cases hcap : pcb.cap = 0
    · cases hstate : pcb.state <;> simp [Pcb.after, sendTurn, hstate, hcap]
    · cases hstate : pcb.state <;> simp [Pcb.after, sendTurn, hstate, hcap, State.sends, Pcb.chunk]

theorem queued_cases (pcb : Pcb) (grant : Grant) {chunk : List UInt8} (h : chunk ≠ []) :
    (grant.entry = true ∧ queueEntrySize + chunk.length ≤ memoryMax ∧ pcb.queued grant chunk =
      { pcb with queue := pcb.queue ++ [⟨pcb.snd.nxt, flgAck ||| flgPsh, chunk⟩] }) ∨
    (¬(grant.entry = true ∧ queueEntrySize + chunk.length ≤ memoryMax) ∧ pcb.queued grant chunk = pcb) := by
  rw [Pcb.queued, if_pos h]
  exact queueAdd_cases pcb grant ⟨pcb.snd.nxt, flgAck ||| flgPsh, chunk⟩

theorem moved_zero (pcb : Pcb) : pcb.moved 0 = pcb := by
  simp [Pcb.moved]

theorem Sound.laid (h : Sound pcb) (hstarted : pcb.state.started = true) : LaidTo pcb pcb.sendEnd := by
  obtain ⟨-, hlaid⟩ | ⟨hover | hover, -⟩ := h
  · exact hlaid
  · simp [hover, State.started] at hstarted
  · simp [hover, State.started] at hstarted

theorem started_of_sends (h : pcb.state.sends = true) : pcb.state.started = true := by
  cases hstate : pcb.state <;> simp [hstate, State.sends] at h <;> rfl

variable {grant : Grant}

/-- A connection that is given up keeps its queue, whether or not the data got its entry. -/
theorem LaidTo.given_up (h : LaidTo pcb pcb.sendEnd) (hpossible : grant.Possible pcb)
    (chunk : List UInt8) : Kept { pcb.queued grant chunk with state := .closed } := by
  have hsame : LaidTo { pcb with state := .closed } pcb.sendEnd := h.congr rfl rfl rfl
  by_cases hempty : chunk = []
  · rw [Pcb.queued, if_neg (not_not.mpr hempty)]
    exact hsame.kept le_rfl
  · obtain ⟨hentry, hfits, hqueued⟩ | ⟨-, hqueued⟩ := queued_cases pcb grant hempty
    · have hpushed : LaidTo { pcb with
          queue := pcb.queue ++ [⟨pcb.snd.nxt, flgAck ||| flgPsh, chunk⟩], state := .closed }
          (pcb.sendEnd + chunk.length) :=
        h.pushed rfl rfl rfl hempty hfits (hpossible hentry)
      rw [hqueued]
      exact hpushed.kept (Nat.le_add_right _ _)
    · rw [hqueued]
      exact hsame.kept le_rfl

/-- A step that meets its condition leads to a sound block, one that does not loses numbers. -/
def Exact (pcb : Pcb) (a : Act) : Prop :=
  (a.Meets pcb ∧ Sound (pcb.after a)) ∨ (¬ a.Meets pcb ∧ ¬ Kept (pcb.after a))

theorem Sound.send (h : Sound pcb) {env : Env} {mss : Option ℕ} {data : List UInt8}
    (henabled : (Act.send env grant mss data).Enabled pcb) : Exact pcb (.send env grant mss data) := by
  obtain ⟨hpossible, -, hmss⟩ := henabled
  unfold Exact
  obtain ⟨hidle, hafter⟩ | ⟨m, rfl, hsends, hcap, hafter⟩ := send_cases pcb env grant mss data
  · rw [hafter]
    exact .inl ⟨fun m hm hs hc => absurd (hidle m hm hs) hc, h⟩
  have hstarted := started_of_sends hsends
  have hlaid := h.laid hstarted
  rw [hafter]
  obtain ⟨hleft, hsent⟩ | ⟨hleft, hgone⟩ := sendChunk_cases env grant (pcb.chunk m data) pcb
  · rw [hsent]
    by_cases hempty : pcb.chunk m data = []
    · rw [hempty, List.length_nil, moved_zero]
      refine .inl ⟨?_, h⟩
      rintro k ⟨⟩ _ _ hne
      exact absurd hempty hne
    · have hpos := List.length_pos_iff.mpr hempty
      obtain ⟨hentry, hfits, hqueued⟩ | ⟨hno, hqueued⟩ := queued_cases pcb grant hempty
      · rw [hqueued]
        refine .inl ⟨?_, .inl ⟨hstarted, ?_⟩⟩
        · rintro k ⟨⟩ _ _ _ _
          exact ⟨hentry, hfits⟩
        · refine hlaid.send (e := ⟨pcb.snd.nxt, flgAck ||| flgPsh, pcb.chunk m data⟩) rfl rfl ?_ rfl rfl ?_ ?_
            (hpossible hentry) <;> rw [len_psh]
          · rfl
          · exact hpos
          · omega
      · have hsmall : (pcb.chunk m data).length < 2 ^ 16 := by
          have := hmss m rfl
          have := List.length_take_le (min m pcb.cap.toNat) data
          unfold Pcb.chunk
          omega
        rw [hqueued]
        exact .inr ⟨fun hmeets => hno (hmeets m rfl hsends hcap hempty hleft),
          hlaid.lost rfl rfl rfl rfl hpos hsmall⟩
  · refine .inl ⟨fun k _ _ _ _ hsegment => by simp [hleft] at hsegment, ?_⟩
    obtain hgone | hgone := hgone <;> rw [hgone]
    · exact .inr ⟨.inl rfl, kept_zero⟩
    · exact .inr ⟨.inr rfl, hlaid.given_up hpossible _⟩

/-- The block behind the FIN of `tcp_close`. -/
theorem sendFin_pcb (pcb : Pcb) (grant : Grant) (state : State) :
    ((⟨pcb, []⟩ : Conn).sendFin grant state).pcb =
      { (pcb.queueAdd grant ⟨pcb.snd.nxt, flgAck ||| flgFin, []⟩).moved 1 with state := state } := by
  have hout := outputIn_pcb ⟨pcb, []⟩ grant (flgAck ||| flgFin) []
  simp only [Conn.sendFin, hout]
  rfl

theorem Sound.sendFin (h : Sound pcb) (hsends : pcb.state.sends = true) (hpossible : grant.Possible pcb)
    {state : State} (hstate : state.started = true) :
    (grant.entry = true ∧ Sound ((⟨pcb, []⟩ : Conn).sendFin grant state).pcb) ∨
      (¬ grant.entry = true ∧ ¬ Kept ((⟨pcb, []⟩ : Conn).sendFin grant state).pcb) := by
  have hlaid := h.laid (started_of_sends hsends)
  have hlen : (⟨pcb.snd.nxt, flgAck ||| flgFin, []⟩ : QueueEntry).len = 1 := by
    have hsyn : isSet (flgAck ||| flgFin) flgSyn = false := by decide
    have hfin : isSet (flgAck ||| flgFin) flgFin = true := by decide
    simp [QueueEntry.len, hsyn, hfin]
  rw [sendFin_pcb]
  obtain ⟨hentry, -, hadd⟩ | ⟨hno, hadd⟩ := queueAdd_cases pcb grant ⟨pcb.snd.nxt, flgAck ||| flgFin, []⟩
  · rw [hadd]
    refine .inl ⟨hentry, .inl ⟨hstate, ?_⟩⟩
    refine hlaid.send (e := ⟨pcb.snd.nxt, flgAck ||| flgFin, []⟩) rfl rfl ?_ rfl rfl ?_ ?_
      (hpossible hentry) <;>
      rw [hlen]
    · rfl
    · exact Nat.one_pos
    · decide
  · rw [hadd]
    refine .inr ⟨fun hentry => hno ⟨hentry, by simp [queueEntrySize, memoryMax]⟩, ?_⟩
    exact hlaid.lost (n := 1) rfl rfl rfl rfl Nat.one_pos (by decide)

theorem Sound.close (h : Sound pcb) {env : Env} (henabled : (Act.close env grant).Enabled pcb) :
    Exact pcb (.close env grant) := by
  have hidle : pcb.state.sends = false → pcb.after (.close env grant) = pcb →
    Exact pcb (.close env grant) := by
    intro hsends hafter
    refine .inl ⟨fun hs => by simp [hsends] at hs, ?_⟩
    rw [hafter]
    exact h
  have hfin : ∀ state : State, state.started = true → pcb.state.sends = true →
      pcb.after (.close env grant) = ((⟨pcb, []⟩ : Conn).sendFin grant state).pcb →
        Exact pcb (.close env grant) := by
    intro state hstarted hsends hafter
    unfold Exact
    rw [hafter]
    obtain ⟨hentry, hsound⟩ | ⟨hno, hlost⟩ := h.sendFin hsends henabled hstarted
    · exact .inl ⟨fun _ => hentry, hsound⟩
    · exact .inr ⟨fun hmeets => hno (hmeets hsends), hlost⟩
  cases hstate : pcb.state with
  | established =>
    exact hfin .finWait1 rfl (by rw [hstate]; rfl) (by simp only [Pcb.after, Tcp.close, hstate])
  | closeWait => exact hfin .lastAck rfl (by rw [hstate]; rfl) (by simp only [Pcb.after, Tcp.close, hstate])
  | listen =>
    obtain ⟨hstarted, -⟩ | ⟨hover | hover, -⟩ := h
    · simp [hstate, State.started] at hstarted
    · simp [hstate] at hover
    · simp [hstate] at hover
  | _ => exact hidle (by rw [hstate]; rfl) (by simp only [Pcb.after, Tcp.close, hstate])

/-- What every entry of the queue preserves holds after the timer. -/
theorem timer_invariant {P : Conn → Prop} {due : ℕ → Due} {c : Conn} (h : P c)
    (hstep : ∀ d e i, P d → P (queueEmit d e (due i))) : P (timer due c) := by
  unfold timer
  split_ifs with hfree
  · exact h
  · clear hfree
    generalize c.pcb.queue.zipIdx = q
    induction q generalizing c with
    | nil => exact h
    | cons e q ih => exact ih (hstep c e.1 e.2 h)

/-- Before the deadline the timer changes no block. -/
theorem timer_pcb {due : ℕ → Due} (h : ∀ i, due i ≠ .expired) (c : Conn) : (timer due c).pcb = c.pcb := by
  refine timer_invariant (P := fun d => d.pcb = c.pcb) rfl fun d e i hd => ?_
  cases hdue : due i with
  | early => exact hd
  | late => exact hd
  | expired => exact absurd hdue (h i)

/-- Processing behind the window test moves the send side exactly if the acknowledgment is new. -/
theorem settle_cases (seg : Segment) (c : Conn) :
    (c.pcb.snd.una < seg.ack ∧ seg.ack ≤ c.pcb.snd.nxt ∧
      (settle seg c (answer seg c.pcb)).pcb.iss = c.pcb.iss ∧
      (settle seg c (answer seg c.pcb)).pcb.snd.una = seg.ack ∧
      (settle seg c (answer seg c.pcb)).pcb.snd.nxt = c.pcb.snd.nxt ∧
      (settle seg c (answer seg c.pcb)).pcb.queue = c.pcb.queue.dropWhile (·.seq < seg.ack)) ∨
    (¬(c.pcb.snd.una < seg.ack ∧ seg.ack ≤ c.pcb.snd.nxt) ∧
      SameSend c.pcb (settle seg c (answer seg c.pcb)).pcb) := by
  by_cases hnew : c.pcb.snd.una < seg.ack ∧ seg.ack ≤ c.pcb.snd.nxt
  · left
    have hanswer : answer seg c.pcb = .advances (c.pcb.cleaned seg.ack) (c.pcb.snd.older seg) := by
      rw [answer, if_pos hnew]
    have hsnd : (settle seg c (answer seg c.pcb)).pcb.snd.nxt = c.pcb.snd.nxt := by
      rw [hanswer, settle_advances_snd]
      split <;> rfl
    refine ⟨hnew.1, hnew.2, ?_, ?_, hsnd, ?_⟩
    · rw [hanswer]
      cases c.pcb.snd.older seg <;> exact (proceed_sameSend _ _).iss
    · rw [hanswer, settle_advances_una]
    · rw [hanswer, settle_advances_queue, drop_cleaned]
  · refine .inr ⟨hnew, settle_idle ?_⟩
    rw [answer, if_neg hnew]
    split
    · rfl
    · split <;> rfl

/-- The segment passes the window test and carries an acknowledgment. -/
def Pcb.Hears (pcb : Pcb) (seg : Segment) : Prop :=
  pcb.state.acksData = true ∧ pcb.acceptable seg = true ∧ isSet seg.flg flgAck = true

instance (pcb : Pcb) (seg : Segment) : Decidable (pcb.Hears seg) := inferInstanceAs (Decidable (_ ∧ _))

/-- A number lies in the receive window, counted modulo 2^32; of an empty window only its edge
counts. -/
def Pcb.InWindow (pcb : Pcb) (x : UInt32) : Prop := (x - pcb.rcv.nxt).toNat < max 1 pcb.rcv.wnd.toNat

instance (pcb : Pcb) (x : UInt32) : Decidable (pcb.InWindow x) := Nat.decLt _ _

/-- What the window test of RFC 793 asks for: the segment begins or ends in the window, and takes no
number of an empty one. -/
def Pcb.Admits (pcb : Pcb) (seg : Segment) : Prop :=
  (pcb.InWindow seg.seq ∨ seg.len ≠ 0 ∧ pcb.InWindow (seg.seq + seg.len.toUInt32 - 1)) ∧
    (pcb.rcv.wnd = 0 → seg.len = 0)

instance (pcb : Pcb) (seg : Segment) : Decidable (pcb.Admits seg) := inferInstanceAs (Decidable (_ ∧ _))

/-- A number between the edges of the window as the code compares them lies in the window. -/
theorem inWindow_of_le_of_lt {x : UInt32} {pcb : Pcb} (hle : pcb.rcv.nxt ≤ x)
    (hlt : x < pcb.rcv.nxt + pcb.rcv.wnd.toUInt32) : pcb.InWindow x := by
  have hnat := UInt32.le_iff_toNat_le.mp hle
  have hend := UInt32.lt_iff_toNat_lt.mp hlt
  have hx := x.toNat_lt
  have hwnd := pcb.rcv.wnd.toNat_lt
  unfold Pcb.InWindow
  rw [UInt32.toNat_add, UInt16.toNat_toUInt32] at hend
  rw [UInt32.toNat_sub]
  omega

/-- The window test of the code lets nothing pass that RFC 793 does not. -/
theorem admits_of_acceptable {pcb : Pcb} {seg : Segment} (h : pcb.acceptable seg = true) :
    pcb.Admits seg := by
  unfold Pcb.acceptable at h
  dsimp only at h
  split_ifs at h with hlen hwnd hwnd
  · exact ⟨.inl (by simp [Pcb.InWindow, of_decide_eq_true h]), fun _ => hlen⟩
  · obtain ⟨hle, hlt⟩ := of_decide_eq_true h
    exact ⟨.inl (inWindow_of_le_of_lt hle hlt), fun _ => hlen⟩
  · refine ⟨?_, fun hzero => absurd hzero hwnd⟩
    obtain ⟨hle, hlt⟩ | ⟨hle, hlt⟩ := of_decide_eq_true h
    · exact .inl (inWindow_of_le_of_lt hle hlt)
    · exact .inr ⟨hlen, inWindow_of_le_of_lt hle hlt⟩

/-- A segment is processed as its acknowledgment says, or it leaves the block alone. -/
theorem segmentArrives_acksData (env : Env) (seg : Segment) {c : Conn} (h : c.pcb.state.acksData = true) :
    (c.pcb.Hears seg ∧ segmentArrives env seg c = settle seg c (answer seg c.pcb)) ∨
    (¬ c.pcb.Hears seg ∧ (segmentArrives env seg c).pcb = c.pcb) := by
  have haccepted : accepted seg c.pcb = c.pcb.acceptable seg := by
    cases hstate : c.pcb.state <;> simp [hstate, State.acksData] at h <;>
      simp [accepted, hstate, State.checksWindow]
  rw [segmentArrives_eq, verdict_eq seg (.inl h), haccepted]
  split_ifs with hacc hack hrefused
  · refine .inr ⟨fun hears => Bool.false_ne_true (hacc.symm.trans hears.2.1), ?_⟩
    rw [obey]
    split <;> rfl
  · exact .inr ⟨fun hears => Bool.false_ne_true (hack.symm.trans hears.2.2), rfl⟩
  · simp [hrefused.1, State.acksData] at h
  · have hstart : completeHandshake c = c := by
      cases hstate : c.pcb.state <;> simp [hstate, State.acksData] at h <;> simp [completeHandshake, hstate]
    rw [obey, hstart]
    exact .inl ⟨⟨h, Bool.of_not_eq_false hacc, Bool.of_not_eq_false hack⟩, rfl⟩

/-- What a segment does to the send side of an open connection. -/
theorem segment_cases (env : Env) (seg : Segment) (h : pcb.state.started = true) :
    (TakesAck pcb seg ∧ (pcb.after (.segment env seg)).state.started = true ∧
      (pcb.after (.segment env seg)).iss = pcb.iss ∧ (pcb.after (.segment env seg)).snd.una = seg.ack ∧
      (pcb.after (.segment env seg)).snd.nxt = pcb.snd.nxt ∧
      (pcb.after (.segment env seg)).queue = pcb.queue.dropWhile (·.seq < seg.ack)) ∨
    (¬ TakesAck pcb seg ∧ (pcb.after (.segment env seg) = .zero ∨
      ((pcb.after (.segment env seg)).state.started = true ∨ (pcb.after (.segment env seg)).state = .closed) ∧
        SameSend pcb (pcb.after (.segment env seg)))) := by
  have hsame : SameSend pcb pcb := ⟨rfl, rfl, rfl⟩
  rw [Pcb.after]
  by_cases hdata : pcb.state.acksData = true
  · obtain ⟨hears, harrives⟩ | ⟨hdeaf, harrives⟩ := segmentArrives_acksData env seg (c := ⟨pcb, []⟩) hdata
    · rw [harrives]
      have hstarted := settle_started seg (answer seg pcb) (c := ⟨pcb, []⟩) hdata
      obtain ⟨hlt, hle, hiss, huna, hnxt, hqueue⟩ | ⟨hold, hsend⟩ := settle_cases seg ⟨pcb, []⟩
      · exact .inl ⟨⟨hdata, hears.2.1, hears.2.2, hlt, hle⟩, hstarted, hiss, huna, hnxt, hqueue⟩
      · exact .inr ⟨fun htakes => hold htakes.2.2.2, .inr ⟨.inl hstarted, hsend⟩⟩
    · rw [harrives]
      exact .inr ⟨fun htakes => hdeaf ⟨hdata, htakes.2.1, htakes.2.2.1⟩, .inr ⟨.inl h, hsame⟩⟩
  rw [segmentArrives_eq]
  refine .inr ⟨fun htakes => hdata htakes.1, ?_⟩
  have hfin : ∀ d : Conn, d.pcb.state = .closing ∨ d.pcb.state = .timeWait →
      (finBit seg d).pcb.state.started = true := by
    rintro d (hd | hd) <;> cases hfin : isSet seg.flg flgFin <;>
      simp [finBit, hd, hfin, output_ack_eq, State.started]
  cases hstate : pcb.state with
  | lastAck =>
    rw [verdict_lastAck seg hstate]
    split
    · split
      · rw [obey]
        split
        · unfold Conn.release
          split
          · exact .inr ⟨.inr rfl, ⟨rfl, rfl, rfl⟩⟩
          · exact .inl rfl
        · exact .inr ⟨.inl h, hsame⟩
      · exact .inr ⟨.inl h, hsame⟩
    · rw [obey]
      split <;> exact .inr ⟨.inl h, hsame⟩
  | closing | timeWait =>
    have hplain : verdict seg pcb = .plain := by simp only [verdict, hstate]
    simp only [hplain, obey, hstate]
    split
    · exact .inr ⟨.inl (hfin _ (by simp [hstate])), finBit_sameSend seg ⟨pcb, []⟩⟩
    · exact .inr ⟨.inl h, hsame⟩
  | _ => simp [hstate, State.started, State.acksData] at h hdata

theorem Kept.congr (h : Kept pcb) (hsame : SameSend pcb pcb') : Kept pcb' := by
  obtain ⟨hcovered, hordered⟩ := h
  constructor
  · simp only [Pcb.inFlight, hsame.snd, hsame.iss, hsame.queue]
    exact hcovered
  · rw [hsame.snd, hsame.queue]
    exact hordered

theorem Sound.segment (h : Sound pcb) (env : Env) (seg : Segment) : Exact pcb (.segment env seg) := by
  obtain ⟨hstarted, hlaid⟩ | ⟨hover, hkept⟩ := h
  · obtain ⟨htakes, hnext, hiss, huna, hnxt, hqueue⟩ | ⟨hno, hafter⟩ := segment_cases env seg hstarted
    · obtain ⟨hpart, hwhole⟩ := hlaid.ack htakes.2.2.2.1 htakes.2.2.2.2 hiss huna hnxt hqueue
      by_cases hinside : ∃ e ∈ pcb.queue, e.PartlyAcked seg.ack
      · exact .inr ⟨fun hmeets => hmeets htakes hinside, hpart hinside⟩
      · exact .inl ⟨fun _ => hinside, .inl ⟨hnext, hwhole hinside⟩⟩
    · refine .inl ⟨fun htakes => absurd htakes hno, ?_⟩
      obtain hzero | ⟨hstate | hstate, hsame⟩ := hafter
      · rw [hzero]
        exact .inr ⟨.inl rfl, kept_zero⟩
      · refine .inl ⟨hstate, ?_⟩
        have hend : (pcb.after (.segment env seg)).sendEnd = pcb.sendEnd := by
          rw [Pcb.sendEnd, Pcb.sendEnd, Pcb.inFlight, Pcb.inFlight, hsame.snd]
        rw [hend]
        exact hlaid.congr hsame.iss (congrArg Snd.una hsame.snd) hsame.queue
      · exact .inr ⟨.inr hstate, (hlaid.kept le_rfl).congr hsame⟩
  · have hno : ¬ TakesAck pcb seg := by
      rintro ⟨hdata, -⟩
      obtain hover | hover := hover <;> simp [hover, State.acksData] at hdata
    refine .inl ⟨fun htakes => absurd htakes hno, .inr ?_⟩
    obtain hover | hover := hover
    · have hplain : verdict seg pcb = .plain := by simp only [verdict, hover]
      rw [Pcb.after, segmentArrives_eq, hplain]
      simp only [obey, hover]
      split
      · refine ⟨.inl ?_, hkept.congr (finBit_sameSend seg ⟨pcb, []⟩)⟩
        cases hfin : isSet seg.flg flgFin <;> simp [finBit, hover, hfin, output_ack_eq]
      · exact ⟨.inl hover, hkept⟩
    · have hsame : pcb.after (.segment env seg) = pcb := by
        simp only [Pcb.after, segmentArrives, hover, closedArrives]
        split
        · rfl
        · split <;> rfl
      rw [hsame]
      exact ⟨.inr hover, hkept⟩

/-- Every step keeps the queue exactly when it meets its condition. -/
theorem Sound.step (h : Sound pcb) {a : Act} (henabled : a.Enabled pcb) : Exact pcb a := by
  cases a with
  | send env grant mss data => exact h.send henabled
  | close env grant => exact h.close henabled
  | segment env seg => exact h.segment env seg
  | tick due =>
    refine .inl ⟨trivial, ?_⟩
    rw [Pcb.after, timer_pcb henabled]
    exact h

/-! ### Connections -/

/-- A connection behind its handshake: the SYN is acknowledged, or its entries wait for that. A
handshake does not end with an `iss` at the very end of the sequence numbers. -/
structure Established (pcb : Pcb) : Prop where
  state : pcb.state.sends = true
  iss_lt : pcb.iss < pcb.snd.nxt
  nxt : pcb.snd.nxt = pcb.iss + 1
  few : 2 * pcb.queue.length ≤ totalPages
  queue : (pcb.snd.una = pcb.iss ∧ ∀ e ∈ pcb.queue, e.seq = pcb.iss ∧ e.len = 1) ∨
    (pcb.snd.una = pcb.snd.nxt ∧ pcb.queue = [])

theorem Established.sound (h : Established pcb) : Sound pcb := by
  refine .inl ⟨started_of_sends h.state, ?_⟩
  have hlt := h.iss_lt
  obtain ⟨huna, hsyns⟩ | ⟨huna, hempty⟩ := h.queue
  · have hend : pcb.sendEnd = pcb.snd.una.toNat + 1 := by
      rw [Pcb.sendEnd, Pcb.inFlight, h.nxt, huna, UInt32.add_comm, UInt32.add_sub_cancel]
      rfl
    refine ⟨by rw [huna]; exact UInt32.le_refl _, fun e he => by rw [(hsyns e he).2]; decide, h.few,
      pcb.queue, [], by simp,
      hsyns, fun hne => absurd huna hne, ?_⟩
    rw [if_pos huna, hend]
    rfl
  · have hne : pcb.snd.una ≠ pcb.iss := by
      rw [huna]
      exact fun heq => absurd hlt (heq ▸ UInt32.lt_irrefl _)
    have hend : pcb.sendEnd = pcb.snd.una.toNat := by
      rw [Pcb.sendEnd, Pcb.inFlight, huna, UInt32.sub_self]
      rfl
    refine ⟨by rw [huna]; exact UInt32.le_of_lt hlt, by simp [hempty], h.few, [], [], by simp [hempty], nofun,
      fun _ => rfl, ?_⟩
    rw [if_neg hne, hend]
    rfl

/-- A step of a connection that meets the condition. -/
def KeepingStep (pcb : Pcb) (a : Act) (pcb' : Pcb) : Prop := a.Enabled pcb ∧ a.Meets pcb ∧ pcb' = pcb.after a

/-- In every run of an established connection whose steps meet the condition, what is in flight is
in the queue and the queue is in order; and a further step keeps that exactly if it meets the
condition. -/
theorem retransmit_queue_keeps_iff {start t : Pcb} {as : List Act} (hstart : Established start)
    (hrun : Run KeepingStep start as t) :
    Kept t ∧ ∀ a : Act, a.Enabled t → (Kept (t.after a) ↔ a.Meets t) := by
  have hsound : Sound t := by
    refine hrun.invariant (fun s a u hs hstep => ?_) hstart.sound
    obtain ⟨henabled, hmeets, rfl⟩ := hstep
    obtain ⟨-, hnext⟩ | ⟨hno, -⟩ := hs.step henabled
    · exact hnext
    · exact absurd hmeets hno
  refine ⟨hsound.kept, fun a henabled => ?_⟩
  obtain ⟨hmeets, hnext⟩ | ⟨hno, hlost⟩ := hsound.step henabled
  · exact iff_of_true hnext.kept hmeets
  · exact iff_of_false hlost hno

/-- A connection right behind its handshake. -/
def openedBlock : Pcb := { Pcb.zero with
  state := .established, mode := .socket, snd := ⟨1, 1, 1000, 0, 0⟩, rcv := ⟨1, UInt16.ofNat rcvBufSize⟩ }

theorem established_openedBlock : Established openedBlock :=
  ⟨rfl, by decide, rfl, Nat.zero_le _, .inr ⟨rfl, rfl⟩⟩

/-- Four bytes go out in one segment. -/
def sendFour : Act := .send ⟨0, 0, true, false⟩ ⟨true, true⟩ (some 1460) [1, 2, 3, 4]

/-- The acknowledgment of the first `n` bytes. -/
def ackOf (n : UInt32) : Act :=
  .segment ⟨0, 0, true, false⟩ ⟨1, 1 + n, 1000, flgAck, [], ⟨0, 0⟩, ⟨0, 0⟩, Nat.zero_le _⟩

theorem sendFour_enabled : sendFour.Enabled openedBlock :=
  ⟨fun _ => by decide, by decide, by simp⟩

/-- Four bytes sent from the opened block are in the queue. -/
theorem retransmit_queue_keeps_four : Run KeepingStep openedBlock [sendFour] (openedBlock.after sendFour) ∧
    Kept (openedBlock.after sendFour) := by
  have hmeets : sendFour.Meets openedBlock := by
    rintro m ⟨⟩ _ _ _ _
    decide
  have hrun : Run KeepingStep openedBlock [sendFour] (openedBlock.after sendFour) :=
    .cons ⟨sendFour_enabled, hmeets, rfl⟩ (.nil _)
  exact ⟨hrun, (retransmit_queue_keeps_iff established_openedBlock hrun).1⟩

/-- An acknowledgment of the first two bytes empties the queue, with two bytes in flight. -/
theorem partial_ack_forgets_data : ∃ t, Established openedBlock ∧
    Run (fun s a u => a.Enabled s ∧ u = s.after a) openedBlock [sendFour, ackOf 2] t ∧ ¬ Kept t := by
  refine ⟨(openedBlock.after sendFour).after (ackOf 2), established_openedBlock,
    .cons ⟨sendFour_enabled, rfl⟩ (.cons ⟨trivial, rfl⟩ (.nil _)), fun h => ?_⟩
  obtain ⟨huna, -⟩ | ⟨e, he, -⟩ := h.covered 0 (by decide)
  · revert huna
    decide
  · cases he

end Xv6.Tcp
