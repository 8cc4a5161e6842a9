import Xv6.Net.Tcp
import Xv6.Vm.Extent

/-!
# Socket system calls and user memory

`kernel/syssocket.c`, with the functions of `kernel/net/socket.c` it calls, between user memory and
the kernel stack. User memory is that of the eager machine, with its page by page copies in both
directions; the page tables refine it. What lies on the kernel stack when a call starts is an
input, and so is what the protocols deliver.

A call moves only what it should if an address variable takes no more than its size, and if the
bytes copied to the user are the received data and the address of the peer, and none at all when
the call fails; then nothing of the kernel stack gets out. We say exactly when that is so.
-/

namespace Xv6.SysSocket

open Lib Tcp
open Eager (readable writable moved May lt_moved_iff moved_le may_of_lt_moved moved_eq_len_iff moved_eq_zero_iff
  any_poke copyout_eq)

/-- `sizeof(struct sockaddr_in)`. -/
abbrev sockaddrSize : ℕ := 8

/-- `sizeof(buf)` of the calls. -/
abbrev bufSize : ℕ := 2048

/-- `SOCK_*`. -/
inductive Kind
  | dgram | stream
  deriving DecidableEq

/-- The variables of a call before they are assigned: its buffer, its address, and `foreign` of the
function it calls. -/
structure Stack where
  buf : Bytes
  addr : Bytes
  foreign : Endpoint

/-- What the protocols deliver, if they do not fail: the bytes that wait on a connection, a datagram
with its sender, or an accepted connection with the new descriptor. -/
structure Delivery where
  stream : Option (List UInt8)
  datagram : Option (Endpoint × List UInt8)
  accepted : Option (Endpoint × ℕ)

/-- Bytes for an address of the user. -/
structure Write where
  va : ℕ
  bytes : List UInt8
  deriving DecidableEq

/-- What a call returns, the memory it leaves, the bytes it has moved to the user and the number of
bytes it has moved into its address variable. -/
structure Outcome where
  ret : ℤ
  mem : Eager
  writes : List Write
  address : ℕ

/-- A call that has not touched memory. -/
def Outcome.nothing (ret : ℤ) (m : Eager) : Outcome := ⟨ret, m, [], 0⟩

/-! ### Copies -/

/-- The bytes of a write that `copyout` has moved when it returns. -/
def Write.done (m : Eager) (slot : ℕ) (w : Write) : List Write :=
  let n := moved m slot writable w.bytes.length w.va w.bytes.length
  if n = 0 then [] else [⟨w.va, w.bytes.take n⟩]

/-- Copies to the user, one after the other; the call fails with the first of them that fails. -/
def copyouts (slot : ℕ) (ret : ℤ) : List Write → Eager → Outcome
  | [], m => .nothing ret m
  | w :: ws, m =>
    let copied := Eager.copyout slot w.bytes.length w.va w.bytes m
    if copied.1 then
      let rest := copyouts slot ret ws copied.2
      { rest with writes := w.done m slot ++ rest.writes }
    else ⟨-1, copied.2, w.done m slot, 0⟩

/-! ### Calls with an address of the user -/

/-- The copy of an address from the user: the number of bytes that reach the variable, and the
variable if the copy succeeds. Negative lengths are refused. -/
def fetchAddr (slot addrP : ℕ) (addrlen : ℤ) (addr : Bytes) (m : Eager) : ℕ × Option Bytes :=
  if addrP = 0 ∨ addrlen < 0 then (0, none)
  else
    let n := addrlen.toNat
    (moved m slot readable n addrP n, (m.copyin slot n addrP n).map fun bytes => blit addr 0 n
      fun i => bytes.getD i 0)

/-- The endpoint in a `struct sockaddr_in`. -/
def endpoint (addr : Bytes) : Endpoint := ⟨UInt32.ofNat (getLe addr 4 4), UInt16.ofNat (getLe addr 2 2)⟩

/-- The copy of a buffer from the user by `sys_sendto`. -/
def fetchBuf (slot bufP : ℕ) (buflen : ℤ) (m : Eager) : Option (List UInt8) :=
  if bufP = 0 ∨ buflen < 0 ∨ bufSize < buflen then none else m.copyin slot buflen.toNat bufP buflen.toNat

/-- A call that goes on with an address, `finish` being the function of `socket.c`. -/
def withAddr (slot addrP : ℕ) (addrlen : ℤ) (addr : Bytes) (finish : Endpoint → ℤ) (m : Eager) : Outcome :=
  match fetchAddr slot addrP addrlen addr m with
  | (n, none) => ⟨-1, m, [], n⟩
  | (n, some addr) => ⟨finish (endpoint addr), m, [], n⟩

/-! ### Calls that receive -/

/-- A copy into the buffer. -/
def fill (buf : Bytes) (data : List UInt8) : Bytes := blit buf 0 data.length fun i => data.getD i 0

/-- `socket_read` with `tcp_receive`. -/
def socketRead (kind : Kind) (d : Delivery) (n : ℕ) (buf : Bytes) : ℤ × Bytes :=
  match kind with
  | .dgram => (-1, buf)
  | .stream =>
    match d.stream with
    | none => (-1, buf)
    | some pending => ((pending.take n).length, fill buf (pending.take n))

/-- The assignments to a `struct sockaddr_in`, with `AF_INET`. -/
def sockaddrIn (addr : Bytes) (e : Endpoint) : Bytes :=
  putLe (putLe (putLe addr 0 2 1) 4 4 e.addr.toNat) 2 2 e.port.toNat

/-- `socket_recvfrom` with `udp_recvfrom`: a failing receive assigns the address from `foreign` as
it lies on the stack. -/
def socketRecvfrom (kind : Kind) (d : Delivery) (n : ℕ) (stack : Stack) : ℤ × Bytes × Bytes :=
  match kind with
  | .stream => (-1, stack.buf, stack.addr)
  | .dgram =>
    match d.datagram with
    | none => (-1, stack.buf, sockaddrIn stack.addr stack.foreign)
    | some (foreign, data) => ((data.take n).length, fill stack.buf (data.take n),
        sockaddrIn stack.addr foreign)

/-- `socket_accept` and `fdalloc`. -/
def socketAccept (kind : Kind) (d : Delivery) (addr : Bytes) : Option (ℕ × Bytes) :=
  match kind with
  | .dgram => none
  | .stream => d.accepted.map fun new => (new.2, sockaddrIn addr new.1)

/-- The length of the address that the user asks for: nothing, or the size of a `struct
sockaddr_in`. -/
def fetchLen (slot addrP addrlenP : ℕ) (m : Eager) : Option ℕ :=
  if addrlenP = 0 then some 0
  else
    match m.copyin slot 4 addrlenP 4 with
    | none => none
    | some bytes =>
      let len := getLe (fun i => bytes.getD i 0) 0 4
      if len ≠ 0 ∧ len ≠ sockaddrSize then none
      else if len ≠ 0 ∧ addrP = 0 then none
      else some len

/-- The copies of an address and its length to the user. -/
def addrWrites (addrP addrlenP len : ℕ) (addr : Bytes) : List Write :=
  if addrP = 0 then [] else [⟨addrP, slice addr 0 len⟩, ⟨addrlenP, slice (putLe (fun _ => 0) 0 4 len) 0 4⟩]

/-- The system calls, on a descriptor. -/
inductive Call
  | bind (addrP : ℕ) (addrlen : ℤ) (finish : Endpoint → ℤ)
  | connect (addrP : ℕ) (addrlen : ℤ) (finish : Endpoint → ℤ)
  | sendto (bufP : ℕ) (buflen : ℤ) (addrP : ℕ) (addrlen : ℤ) (finish : List UInt8 → Endpoint → ℤ)
  | recv (bufP : ℕ) (buflen : ℤ)
  | recvfrom (bufP : ℕ) (buflen : ℤ) (addrP addrlenP : ℕ)
  | accept (addrP addrlenP : ℕ)

/-- A call by the process in a slot on a socket. -/
def Call.onSocket (slot : ℕ) (kind : Kind) (d : Delivery) (stack : Stack) (m : Eager) : Call → Outcome
  | .bind addrP addrlen finish => withAddr slot addrP addrlen stack.addr finish m
  | .connect addrP addrlen finish => withAddr slot addrP addrlen stack.addr finish m
  | .sendto bufP buflen addrP addrlen finish =>
    match fetchBuf slot bufP buflen m with
    | none => .nothing (-1) m
    | some data => withAddr slot addrP addrlen stack.addr (finish data) m
  | .recv bufP buflen =>
    if bufP = 0 ∨ buflen < 0 ∨ bufSize < buflen then .nothing (-1) m
    else
      let received := socketRead kind d buflen.toNat stack.buf
      copyouts slot received.1 [⟨bufP, slice received.2 0 buflen.toNat⟩] m
  | .recvfrom bufP buflen addrP addrlenP =>
    if bufP = 0 ∨ buflen < 0 ∨ bufSize < buflen then .nothing (-1) m
    else
      match fetchLen slot addrP addrlenP m with
      | none => .nothing (-1) m
      | some len =>
        let received := socketRecvfrom kind d buflen.toNat stack
        copyouts slot received.1 (⟨bufP,
          slice received.2.1 0 buflen.toNat⟩ :: addrWrites addrP addrlenP len received.2.2) m
  | .accept addrP addrlenP =>
    match fetchLen slot addrP addrlenP m with
    | none => .nothing (-1) m
    | some len =>
      match socketAccept kind d stack.addr with
      | none => .nothing (-1) m
      | some (newfd, addr) => copyouts slot newfd (addrWrites addrP addrlenP len addr) m

/-- A system call; `sock` is what `argfd` finds, if it is a socket. -/
def Call.run (slot : ℕ) (sock : Option Kind) (d : Delivery) (stack : Stack) (m : Eager) (c : Call) :
    Outcome :=
  match sock with
  | none => .nothing (-1) m
  | some kind => c.onSocket slot kind d stack m

/-! ### How far a copy gets -/

variable {len : ℕ}

section Copies

variable {m : Eager} {slot : ℕ} {may : PageImage → Bool}

/-- Nine bytes lie on the page of the first and that of the last. -/
theorem moved_le_sockaddr_iff {fuel va : ℕ} (hfuel : len ≤ fuel) :
    moved m slot may fuel va len ≤ sockaddrSize ↔
      len ≤ sockaddrSize ∨ ¬ May m slot may va ∨ ¬ May m slot may (va + sockaddrSize) := by
  have hpages : (∀ a, va ≤ a → a ≤ va + sockaddrSize → May m slot may a) ↔
      May m slot may va ∧ May m slot may (va + sockaddrSize) := by
    refine ⟨fun h => ⟨h va le_rfl (by omega), h _ (by omega) le_rfl⟩, fun h a hlo hhi => ?_⟩
    have hpage : a / pgsize = va / pgsize ∨ a / pgsize = (va + sockaddrSize) / pgsize := by
      unfold pgsize sockaddrSize at *
      omega
    rcases hpage with hpage | hpage
    · rw [May, hpage]
      exact h.1
    · rw [May, hpage]
      exact h.2
  rw [← not_lt, lt_moved_iff m slot may fuel va len sockaddrSize hfuel, hpages, not_and_or,
    not_and_or, not_lt]

/-- Memory after a list of writes. -/
def replay (slot : ℕ) (ws : List Write) (m : Eager) : Eager :=
  ws.foldl (fun m w => (Eager.copyout slot w.bytes.length w.va w.bytes m).2) m

end Copies

/-! ### Sequences of copies -/

variable {ts : List (ℕ × ℕ)}

section Sequences

variable {m m' : Eager} {slot : ℕ} {ret : ℤ}

/-- Where a write goes: an address and a length. -/
def Write.target (w : Write) : ℕ × ℕ := (w.va, w.bytes.length)

/-- The first copy that is not empty meets a page that may not be written. -/
def Blocked (m : Eager) (slot : ℕ) : List (ℕ × ℕ) → Prop
  | [] => True
  | (va, len) :: ts => if len = 0 then Blocked m slot ts else ¬ May m slot writable va

/-- All of the bytes may be written. -/
def Open (m : Eager) (slot : ℕ) (ts : List (ℕ × ℕ)) : Prop :=
  ∀ t ∈ ts, ∀ a, t.1 ≤ a → a < t.1 + t.2 → May m slot writable a

theorem open_cons {t : ℕ × ℕ} : Open m slot (t :: ts) ↔
    (∀ a, t.1 ≤ a → a < t.1 + t.2 → May m slot writable a) ∧ Open m slot ts := List.forall_mem_cons

/-- A copy succeeds when all of its bytes may be written. -/
theorem copyout_fst_iff (w : Write) : (Eager.copyout slot w.bytes.length w.va w.bytes m).1 = true ↔
    ∀ a, w.va ≤ a → a < w.va + w.bytes.length → May m slot writable a := by
  rw [copyout_eq _ _ _ _ le_rfl, decide_eq_true_iff, moved_eq_len_iff le_rfl]

theorem open_copyout (w : Write) :
    Open (Eager.copyout slot w.bytes.length w.va w.bytes m).2 slot ts ↔ Open m slot ts := by
  simp only [copyout_eq _ _ _ _ le_rfl, Open, May, @any_poke writable fun _ _ => rfl]

theorem done_of_open (w : Write) (h : ∀ a, w.va ≤ a → a < w.va + w.bytes.length → May m slot writable a) :
    w.done m slot = [w].filter fun w => w.bytes ≠ [] := by
  have hall := (moved_eq_len_iff (le_refl w.bytes.length)).mpr h
  by_cases hnil : w.bytes = []
  · simp [Write.done, hnil, moved]
  · simp [Write.done, hall, hnil]

theorem done_eq_nil_iff (w : Write) : w.done m slot = [] ↔ w.bytes.length = 0 ∨
    ¬ May m slot writable w.va := by
  unfold Write.done
  rw [← moved_eq_zero_iff le_rfl]
  simp

/-- Copies that may all be made. -/
theorem copyouts_of_open (ret : ℤ) (ws : List Write) (h : Open m slot (ws.map Write.target)) :
    (copyouts slot ret ws m).ret = ret ∧ (copyouts slot ret ws m).writes = ws.filter fun w =>
      w.bytes ≠ [] := by
  induction ws generalizing m with
  | nil => exact ⟨rfl, rfl⟩
  | cons w ws ih =>
    obtain ⟨hw, hws⟩ := open_cons.mp h
    have hrest := ih ((open_copyout w).mpr hws)
    rw [copyouts, if_pos ((copyout_fst_iff w).mpr hw)]
    refine ⟨hrest.1, ?_⟩
    change w.done m slot ++ _ = _
    rw [hrest.2, done_of_open w hw, ← List.filter_append]
    rfl

/-- Copies of which one fails. -/
theorem copyouts_of_not_open (ret : ℤ) (ws : List Write) (h : ¬ Open m slot (ws.map Write.target)) :
    (copyouts slot ret ws m).ret = -1 := by
  induction ws generalizing m with
  | nil => exact absurd (fun t ht => absurd ht List.not_mem_nil) h
  | cons w ws ih =>
    rw [copyouts]
    split_ifs with hcopied
    · exact ih fun hws => h (open_cons.mpr ⟨(copyout_fst_iff w).mp hcopied, (open_copyout w).mp hws⟩)
    · rfl

/-- A sequence of copies whose first one is empty, refused at once, or moves something. -/
theorem copyouts_cons (slot : ℕ) (ret : ℤ) (w : Write) (ws : List Write) (m : Eager) :
    w.bytes.length = 0 ∧ copyouts slot ret (w :: ws) m = copyouts slot ret ws m ∨
    w.bytes.length ≠ 0 ∧ ¬ May m slot writable w.va ∧ copyouts slot ret (w :: ws) m = ⟨-1, m, [], 0⟩ ∨
    w.bytes.length ≠ 0 ∧ May m slot writable w.va ∧ (copyouts slot ret (w :: ws) m).writes ≠ [] := by
  by_cases hlen : w.bytes.length = 0
  · refine .inl ⟨hlen, ?_⟩
    have hdone : w.done m slot = [] := (done_eq_nil_iff w).mpr (.inl hlen)
    rw [copyouts, List.length_eq_zero_iff.mp hlen, hdone]
    rfl
  · by_cases hmay : May m slot writable w.va
    · refine .inr (.inr ⟨hlen, hmay, ?_⟩)
      have hdone : w.done m slot ≠ [] := fun h => ((done_eq_nil_iff w).mp h).elim hlen fun h => h hmay
      rw [copyouts]
      split_ifs
      · exact List.append_ne_nil_of_left_ne_nil hdone _
      · exact hdone
    · refine .inr (.inl ⟨hlen, hmay, ?_⟩)
      have hdone : w.done m slot = [] := (done_eq_nil_iff w).mpr (.inr hmay)
      have hmoved := (moved_eq_zero_iff (le_refl w.bytes.length)).mpr (.inr hmay)
      have hcopied : ¬ (Eager.copyout slot w.bytes.length w.va w.bytes m).1 = true := by
        rw [copyout_fst_iff]
        exact fun h => hmay (h w.va le_rfl (by omega))
      rw [copyouts, if_neg hcopied, hdone, copyout_eq _ _ _ _ le_rfl, hmoved, List.take_zero, Eager.poke_nil]

/-- Copies that move nothing. -/
theorem copyouts_writes_eq_nil_iff (m : Eager) (slot : ℕ) (ret : ℤ) (ws : List Write) :
    (copyouts slot ret ws m).writes = [] ↔ Blocked m slot (ws.map Write.target) := by
  induction ws with
  | nil => exact ⟨fun _ => trivial, fun _ => rfl⟩
  | cons w ws ih =>
    change _ ↔ if w.bytes.length = 0 then _ else _
    rcases copyouts_cons slot ret w ws m with ⟨hlen, hrun⟩ | ⟨hlen, hmay, hrun⟩ | ⟨hlen, hmay, hrun⟩
    · rw [hrun, if_pos hlen]
      exact ih
    · rw [hrun, if_neg hlen]
      exact ⟨fun _ => hmay, fun _ => rfl⟩
    · rw [if_neg hlen]
      exact ⟨fun h => absurd h hrun, fun h => absurd hmay h⟩

/-- The memory that a sequence of copies leaves is that of the bytes it has moved. -/
theorem copyouts_mem (ws : List Write) (m : Eager) :
    (copyouts slot ret ws m).mem = replay slot (copyouts slot ret ws m).writes m := by
  induction ws generalizing m with
  | nil => rfl
  | cons w ws ih =>
    have hdone : replay slot (w.done m slot) m = (Eager.copyout slot w.bytes.length w.va w.bytes m).2 := by
      have hle := moved_le m slot writable w.bytes.length w.va w.bytes.length le_rfl
      have hagain : moved m slot writable _ w.va _ = _ :=
        (moved_eq_len_iff le_rfl).mpr fun a hlo hhi => may_of_lt_moved (le_refl w.bytes.length) hlo hhi
      rw [copyout_eq _ _ _ _ le_rfl, Write.done]
      split_ifs with hzero
      · rw [hzero, List.take_zero, Eager.poke_nil]
        rfl
      · rw [replay, List.foldl_cons, List.foldl_nil, copyout_eq _ _ _ _ le_rfl,
          List.length_take_of_le hle, hagain,
          List.take_take, min_self]
    rw [copyouts]
    split_ifs
    · rw [ih, ← hdone, replay, replay, replay, List.foldl_append]
    · exact hdone.symm

/-- Copies that move nothing leave memory as it is. -/
theorem copyouts_mem_of_blocked (ws : List Write) (h : Blocked m slot (ws.map Write.target)) :
    (copyouts slot ret ws m).mem = m := by
  rw [copyouts_mem, (copyouts_writes_eq_nil_iff m slot ret ws).mpr h]
  rfl

end Sequences

/-! ### What a call should move -/

/-- The data that a call receives, if it does not fail. -/
def Call.received (sock : Option Kind) (d : Delivery) : Call → Option (List UInt8)
  | .recv _ buflen => if sock = some .stream then d.stream.map (·.take buflen.toNat) else none
  | .recvfrom _ buflen _ _ => if sock = some .dgram then d.datagram.map (·.2.take buflen.toNat) else none
  | _ => none

/-- The peer of a call that succeeds. -/
def Call.peer (d : Delivery) : Call → Option Endpoint
  | .recvfrom .. => d.datagram.map Prod.fst
  | .accept .. => d.accepted.map Prod.fst
  | _ => none

/-- The address of the peer and its length, for a user who gives both places. -/
def peerWrites (addrP addrlenP len : ℕ) (peer : Option Endpoint) : List Write :=
  match peer with
  | none => []
  | some e => if addrlenP = 0 then [] else addrWrites addrP addrlenP len (sockaddrIn (fun _ => 0) e)

/-- Writes that are not empty. -/
def nonempty (ws : List Write) : List Write := ws.filter fun w => w.bytes ≠ []

/-- What a call that returns `ret` should write: the data and the address of the peer, and nothing
when it fails. -/
def Call.expected (slot : ℕ) (sock : Option Kind) (d : Delivery) (m : Eager) (ret : ℤ) (c : Call) :
    List Write :=
  if ret < 0 then []
  else
    match c with
    | .recv bufP _ => nonempty [⟨bufP, (c.received sock d).getD []⟩]
    | .recvfrom bufP _ addrP addrlenP =>
      nonempty (⟨bufP, (c.received sock d).getD []⟩ ::
        peerWrites addrP addrlenP ((fetchLen slot addrP addrlenP m).getD 0) (c.peer d))
    | .accept addrP addrlenP =>
        nonempty (peerWrites addrP addrlenP ((fetchLen slot addrP addrlenP m).getD 0) (c.peer d))
    | _ => []

/-- The call moves only what it should, whatever lies on the kernel stack; and two runs that differ
in what lies there leave the same memory. -/
structure Clean (slot : ℕ) (sock : Option Kind) (d : Delivery) (m : Eager) (c : Call) : Prop where
  bounded : ∀ stack, (c.run slot sock d stack m).address ≤ sockaddrSize
  exact : ∀ stack, (c.run slot sock d stack m).writes = c.expected slot sock d m
    (c.run slot sock d stack m).ret
  same : ∀ stack stack', (c.run slot sock d stack m).mem = (c.run slot sock d stack' m).mem

/-- An address of the user that does not overrun the variable: its length is not larger, or the copy
fails before. -/
def Fits (slot addrP : ℕ) (addrlen : ℤ) (m : Eager) : Prop :=
  addrP = 0 ∨ addrlen ≤ sockaddrSize ∨ ¬ May m slot readable addrP ∨
    ¬ May m slot readable (addrP + sockaddrSize)

/-- The places of an address and its length. -/
def addrTargets (addrP addrlenP len : ℕ) : List (ℕ × ℕ) :=
  if addrP = 0 then [] else [(addrP, len), (addrlenP, 4)]

/-- The arguments and states for which a call moves only what it should. -/
def Careful (slot : ℕ) (sock : Option Kind) (d : Delivery) (m : Eager) (c : Call) : Prop :=
  match c with
  | .bind addrP addrlen _ => sock = none ∨ Fits slot addrP addrlen m
  | .connect addrP addrlen _ => sock = none ∨ Fits slot addrP addrlen m
  | .sendto bufP buflen addrP addrlen _ => sock = none ∨ fetchBuf slot bufP buflen m = none ∨
      Fits slot addrP addrlen m
  | .recv bufP buflen =>
    sock = none ∨ (bufP = 0 ∨ buflen < 0 ∨ bufSize < buflen) ∨ Blocked m slot [(bufP, buflen.toNat)] ∨
      ∃ data, c.received sock d = some data ∧ data.length = buflen.toNat ∧ Open m slot [(bufP, buflen.toNat)]
  | .recvfrom bufP buflen addrP addrlenP =>
    sock = none ∨ (bufP = 0 ∨ buflen < 0 ∨ bufSize < buflen) ∨
      ∀ len, fetchLen slot addrP addrlenP m = some len →
      Blocked m slot ((bufP, buflen.toNat) :: addrTargets addrP addrlenP len) ∨
      ∃ data, c.received sock d = some data ∧ data.length = buflen.toNat ∧
        Open m slot ((bufP, buflen.toNat) :: addrTargets addrP addrlenP len) ∧ (addrP = 0 ∨ addrlenP ≠ 0)
  | .accept addrP addrlenP =>
    sock ≠ some .stream ∨ d.accepted = none ∨ ∀ len, fetchLen slot addrP addrlenP m = some len →
      Blocked m slot (addrTargets addrP addrlenP len) ∨
      Open m slot (addrTargets addrP addrlenP len) ∧ (addrP = 0 ∨ addrlenP ≠ 0)

section Calls

variable {m : Eager} {slot : ℕ} {sock : Option Kind} {d : Delivery}

theorem copyouts_address (ret : ℤ) (ws : List Write) (m : Eager) : (copyouts slot ret ws m).address = 0 := by
  induction ws generalizing m with
  | nil => rfl
  | cons w ws ih =>
    rw [copyouts]
    split_ifs
    · exact ih _
    · rfl

/-- The copies of a call that succeeds are as expected when none is made, or when all are made and
are the right ones. -/
theorem copyouts_exact_iff (ret : ℕ) (ws E : List Write) (hE : nonempty ws = [] → E = []) :
    (copyouts slot ret ws m).writes = (if (copyouts slot ret ws m).ret < 0 then [] else E) ↔
      Blocked m slot (ws.map Write.target) ∨ Open m slot (ws.map Write.target) ∧ nonempty ws = E := by
  have hnil := copyouts_writes_eq_nil_iff m slot ret ws
  by_cases hopen : Open m slot (ws.map Write.target)
  · obtain ⟨hret, hwrites⟩ := copyouts_of_open ret ws hopen
    rw [← hnil, hret, hwrites, if_neg (not_lt.mpr (Int.natCast_nonneg ret))]
    refine ⟨fun h => .inr ⟨hopen, h⟩, fun h => h.elim (fun h => ?_) fun h => h.2⟩
    rw [h, hE h]
  · rw [copyouts_of_not_open ret ws hopen, if_pos (by decide), hnil]
    exact ⟨.inl, fun h => h.elim id fun h => absurd h.1 hopen⟩

theorem copyouts_failed (ws : List Write) : (copyouts slot (-1) ws m).ret = -1 := by
  by_cases hopen : Open m slot (ws.map Write.target)
  · exact (copyouts_of_open _ ws hopen).1
  · exact copyouts_of_not_open _ ws hopen

section

variable (addrP : ℕ) (addrlen : ℤ) (addr : Bytes) (finish : Endpoint → ℤ)

theorem withAddr_eq : withAddr slot addrP addrlen addr finish m =
    ⟨(withAddr slot addrP addrlen addr finish m).ret, m, [],
    if addrP = 0 ∨ addrlen < 0 then 0 else moved m slot readable addrlen.toNat addrP addrlen.toNat⟩ := by
  unfold withAddr fetchAddr
  split_ifs
  · rfl
  · dsimp only
    cases m.copyin slot addrlen.toNat addrP addrlen.toNat with
    | none => rfl
    | some bytes => rfl

/-- An address variable is not overrun. -/
theorem withAddr_bounded_iff :
    (withAddr slot addrP addrlen addr finish m).address ≤ sockaddrSize ↔ Fits slot addrP addrlen m := by
  rw [withAddr_eq, Fits]
  dsimp only
  split_ifs with hargs
  · refine ⟨fun _ => hargs.imp id fun h => .inl ?_, fun _ => Nat.zero_le _⟩
    exact le_trans (le_of_lt h) (Int.natCast_nonneg _)
  · rw [not_or, not_lt] at hargs
    rw [moved_le_sockaddr_iff le_rfl, Int.toNat_le]
    exact ⟨.inr, fun h => h.resolve_left hargs.1⟩

end

variable {c : Call} {addrP : ℕ}

/-- What goes for the calls with an address of the user. -/
theorem clean_iff_of_withAddr {addrlen : ℤ} {finish : Endpoint → ℤ}
    (hrun : ∀ stack, c.run slot sock d stack m = withAddr slot addrP addrlen stack.addr finish m)
    (hexpected : ∀ ret, c.expected slot sock d m ret = []) : Clean slot sock d m c ↔
    Fits slot addrP addrlen m := by
  constructor
  · intro h
    have hbounded := h.bounded ⟨fun _ => 0, fun _ => 0, ⟨0, 0⟩⟩
    rw [hrun] at hbounded
    exact (withAddr_bounded_iff _ _ _ _).mp hbounded
  · intro h
    refine ⟨fun stack => ?_, fun stack => ?_, fun stack stack' => ?_⟩
    · rw [hrun]
      exact (withAddr_bounded_iff _ _ _ _).mpr h
    · rw [hexpected, hrun, withAddr_eq]
    · rw [hrun, hrun, withAddr_eq _ _ stack.addr, withAddr_eq _ _ stack'.addr]

/-- A call that fails at once is clean. -/
theorem clean_of_nothing (hrun : ∀ stack, c.run slot sock d stack m = .nothing (-1) m) :
    Clean slot sock d m c where
  bounded stack := by
    rw [hrun]
    exact Nat.zero_le _
  exact stack := by
    rw [hrun]
    rfl
  same stack stack' := by rw [hrun, hrun]

/-- What goes for a call that copies to the user: its copies are right exactly when none is made, or
when they are right whatever lies on the stack. -/
theorem clean_iff_of_exact {ws : Stack → List Write} {ret : ℤ} {Q : Prop}
    (hrun : ∀ stack, c.run slot sock d stack m = copyouts slot ret (ws stack) m)
    (hts : ∀ stack, (ws stack).map Write.target = ts)
    (hexact : ∀ stack, (copyouts slot ret (ws stack) m).writes =
      c.expected slot sock d m (copyouts slot ret (ws stack) m).ret ↔ Blocked m slot ts ∨ Q)
    (hsame : Q → ∀ stack stack', ws stack = ws stack') : Clean slot sock d m c ↔ Blocked m slot ts ∨ Q := by
  simp only [← hrun] at hexact
  constructor
  · intro h
    exact (hexact _).mp (h.exact ⟨fun _ => 0, fun _ => 0, ⟨0, 0⟩⟩)
  · intro h
    refine ⟨fun stack => ?_, fun stack => (hexact stack).mpr h, fun stack stack' => ?_⟩
    · rw [hrun, copyouts_address]
      exact Nat.zero_le _
    · rw [hrun, hrun]
      rcases h with h | h
      · rw [copyouts_mem_of_blocked _ ((hts stack).symm ▸ h),
          copyouts_mem_of_blocked _ ((hts stack').symm ▸ h)]
      · rw [hsame h stack stack']

/-- A call that has failed and copies to the user all the same: no copy may be made. -/
theorem clean_iff_of_failed (ws : Stack → List Write) (ts : List (ℕ × ℕ))
    (hrun : ∀ stack, c.run slot sock d stack m = copyouts slot (-1) (ws stack) m)
    (hts : ∀ stack, (ws stack).map Write.target = ts) : Clean slot sock d m c ↔ Blocked m slot ts := by
  rw [clean_iff_of_exact (Q := False) hrun hts (fun stack => ?_) nofun, or_false]
  rw [copyouts_failed, or_false, ← hts stack]
  exact copyouts_writes_eq_nil_iff m slot _ _

/-- A call that succeeds and copies to the user: either nothing is copied, or all is, and the bytes
are those of the data and the peer. -/
theorem clean_iff_of_copyouts (ret : ℕ) (ws : Stack → List Write) (E : List Write)
    (ts : List (ℕ × ℕ)) {P : Prop}
    (hrun : ∀ stack, c.run slot sock d stack m = copyouts slot ret (ws stack) m)
    (hexpected : ∀ r, c.expected slot sock d m r = if r < 0 then [] else E)
    (hts : ∀ stack, (ws stack).map Write.target = ts)
    (hE : ∀ stack, nonempty (ws stack) = [] → E = []) (hP : ∀ stack, nonempty (ws stack) = E ↔ P)
    (hsame : P → ∀ stack stack', ws stack = ws stack') :
    Clean slot sock d m c ↔ Blocked m slot ts ∨ Open m slot ts ∧ P := by
  refine clean_iff_of_exact hrun hts (fun stack => ?_) fun h => hsame h.2
  rw [hexpected, copyouts_exact_iff _ _ _ (hE stack), hts, hP]

theorem nonempty_cons (va : ℕ) (bytes : List UInt8) (ws : List Write) :
    nonempty (⟨va, bytes⟩ :: ws) = (if bytes = [] then [] else [⟨va, bytes⟩]) ++ nonempty ws := by
  by_cases hbytes : bytes = []
  · simp [nonempty, hbytes]
  · simp [nonempty, hbytes]

theorem nonempty_cons_inj {va : ℕ} {a b : List UInt8} {ws : List Write} :
    nonempty (⟨va, a⟩ :: ws) = nonempty (⟨va, b⟩ :: ws) ↔ a = b := by
  rw [nonempty_cons, nonempty_cons]
  by_cases ha : a = []
  · by_cases hb : b = []
    · simp [hb]
    · simp [ha]
  · by_cases hb : b = []
    · simp [hb]
    · simp [ha, hb]

theorem slice_fill (buf : Bytes) (data : List UInt8) : slice (fill buf data) 0 data.length = data := by
  refine List.ext_getElem (slice_length _ _ _) fun i hi hi' => ?_
  simp only [slice, fill, List.getElem_map, List.getElem_range, Nat.zero_add]
  rw [blit_of_inside (Nat.zero_le i) (by omega)]
  simp [hi']

/-- The buffer holds the data alone when they fill it. -/
theorem slice_fill_eq_iff (buf : Bytes) (data : List UInt8) (n : ℕ) : slice (fill buf data) 0 n =
    data ↔ data.length = n := by
  constructor
  · intro h
    rw [← h, slice_length]
  · rintro rfl
    exact slice_fill buf data

/-- The fields cover the address variable. -/
theorem slice_sockaddrIn (addr addr' : Bytes) (e : Endpoint) (n : ℕ) (hn : n ≤ sockaddrSize) :
    slice (sockaddrIn addr e) 0 n = slice (sockaddrIn addr' e) 0 n := by
  have hi8 : n ≤ 8 := hn
  refine slice_congr fun i hi => ?_
  simp only [sockaddrIn, putLe]
  split_ifs
  · rfl
  · rfl
  · rfl
  · omega

/-- `socket_read` by what it delivers. -/
theorem socketRead_eq (kind : Kind) (d : Delivery) (bufP : ℕ) (buflen : ℤ) (buf : Bytes) :
    socketRead kind d buflen.toNat buf = match Call.received (some kind) d (.recv bufP buflen) with
      | none => (-1, buf)
      | some data => (data.length, fill buf data) := by
  cases kind with
  | dgram => rfl
  | stream => cases hstream : d.stream <;> simp [socketRead, Call.received, hstream]

theorem nonempty_eq_nil_iff {ws : List Write} : nonempty ws = [] ↔ ∀ w ∈ ws, w.bytes = [] := by
  simp [nonempty]

theorem clean_recv_iff (kind : Kind) (bufP : ℕ) (buflen : ℤ) :
    Clean slot (some kind) d m (.recv bufP buflen) ↔ Careful slot (some kind) d m (.recv bufP buflen) := by
  by_cases hargs : bufP = 0 ∨ buflen < 0 ∨ bufSize < buflen
  · exact iff_of_true (clean_of_nothing fun stack => if_pos hargs) (.inr (.inl hargs))
  have hcareful : Careful slot (some kind) d m (.recv bufP buflen) ↔ Blocked m slot [(bufP, buflen.toNat)] ∨
      ∃ data, Call.received (some kind) d (.recv bufP buflen) = some data ∧ data.length = buflen.toNat ∧
        Open m slot [(bufP, buflen.toNat)] :=
    ⟨fun h => (h.resolve_left nofun).resolve_left hargs, fun h => .inr (.inr h)⟩
  have hrun (stack : Stack) : Call.run slot (some kind) d stack m (.recv bufP buflen) =
      copyouts slot (socketRead kind d buflen.toNat stack.buf).1
        [⟨bufP, slice (socketRead kind d buflen.toNat stack.buf).2 0 buflen.toNat⟩] m := if_neg hargs
  have htarget (bytes : Bytes) : [(⟨bufP, slice bytes 0 buflen.toNat⟩ : Write)].map Write.target =
    [(bufP, buflen.toNat)] := by
    simp [Write.target]
  simp only [socketRead_eq kind d bufP] at hrun
  rw [hcareful]
  cases hreceived : Call.received (some kind) d (.recv bufP buflen) with
  | none =>
    simp only [hreceived] at hrun
    rw [clean_iff_of_failed _ _ hrun fun stack => htarget _]
    simp
  | some data =>
    have hlength : data.length ≤ buflen.toNat := by
      dsimp only [Call.received] at hreceived
      split_ifs at hreceived
      obtain ⟨pending, -, rfl⟩ := Option.map_eq_some_iff.mp hreceived
      exact List.length_take_le _ _
    have hP (stack : Stack) : nonempty [⟨bufP, slice (fill stack.buf data) 0 buflen.toNat⟩] =
      nonempty [⟨bufP, data⟩] ↔
        data.length = buflen.toNat := nonempty_cons_inj.trans (slice_fill_eq_iff stack.buf data _)
    simp only [hreceived] at hrun
    rw [clean_iff_of_copyouts data.length _ (nonempty [⟨bufP, data⟩]) _ hrun ?_
      (fun stack => htarget _) ?_ hP ?_]
    · simp [and_comm]
    · intro r
      rw [Call.expected, hreceived]
      rfl
    · intro stack h
      have hempty := congrArg List.length (nonempty_eq_nil_iff.mp h _ List.mem_cons_self)
      rw [slice_length, List.length_nil] at hempty
      have hnil : data = [] := List.length_eq_zero_iff.mp (by omega)
      rw [hnil]
      rfl
    · intro hfull stack stack'
      rw [← hfull, slice_fill, slice_fill]

variable {addrlenP : ℕ} {buflen : ℤ} {kind : Kind} {bufP : ℕ}

theorem socketRecvfrom_failed
    (h : Call.received (some kind) d (.recvfrom bufP buflen addrP addrlenP) = none) :
    ∃ addr : Stack → Bytes, ∀ stack, socketRecvfrom kind d buflen.toNat stack =
      (-1, stack.buf, addr stack) := by
  cases kind with
  | stream => exact ⟨_, fun _ => rfl⟩
  | dgram =>
    have hnone : d.datagram = none := by simpa [Call.received] using h
    refine ⟨fun stack => sockaddrIn stack.addr stack.foreign, fun stack => ?_⟩
    simp [socketRecvfrom, hnone]

theorem socketRecvfrom_received {data : List UInt8}
    (h : Call.received (some kind) d (.recvfrom bufP buflen addrP addrlenP) = some data) :
    data.length ≤ buflen.toNat ∧ ∃ foreign, Call.peer d (.recvfrom bufP buflen addrP addrlenP) =
      some foreign ∧ ∀ stack,
      socketRecvfrom kind d buflen.toNat stack = ((data.length : ℤ), fill stack.buf data,
        sockaddrIn stack.addr foreign) := by
  cases kind with
  | stream => exact absurd h (by simp [Call.received])
  | dgram =>
    obtain ⟨datagram, hdatagram, rfl⟩ : ∃ datagram, d.datagram = some datagram ∧
      datagram.2.take buflen.toNat = data := by
      simpa [Call.received] using h
    refine ⟨List.length_take_le _ _, datagram.1, by simp [Call.peer, hdatagram], fun stack => ?_⟩
    simp [socketRecvfrom, hdatagram]

theorem fetchLen_le (h : fetchLen slot addrP addrlenP m = some len) : len ≤ sockaddrSize := by
  unfold fetchLen at h
  split_ifs at h with hzero
  · rw [← Option.some.inj h]
    exact Nat.zero_le _
  · cases hbytes : m.copyin slot 4 addrlenP 4 with
    | none => simp [hbytes] at h
    | some bytes =>
      simp only [hbytes] at h
      split_ifs at h with hsize hplace
      have hlen := Option.some.inj h
      omega

theorem addrWrites_target (addrP addrlenP len : ℕ) (addr : Bytes) :
    (addrWrites addrP addrlenP len addr).map Write.target = addrTargets addrP addrlenP len := by
  unfold addrWrites addrTargets
  split_ifs
  · rfl
  · simp [Write.target]

/-- An address that has been assigned does not depend on what lay on the stack. -/
theorem addrWrites_sockaddrIn (hlen : len ≤ sockaddrSize) (addrP addrlenP : ℕ) (addr addr' : Bytes)
    (e : Endpoint) :
    addrWrites addrP addrlenP len (sockaddrIn addr e) = addrWrites addrP addrlenP len
      (sockaddrIn addr' e) := by
  unfold addrWrites
  rw [slice_sockaddrIn addr addr' e len hlen]

/-- Both places are given, or none is asked for. -/
theorem peerWrites_eq (h : addrP = 0 ∨ addrlenP ≠ 0) (hlen : len ≤ sockaddrSize) (addr : Bytes)
    (e : Endpoint) : peerWrites addrP addrlenP len (some e) = addrWrites addrP addrlenP len
    (sockaddrIn addr e) := by
  rw [addrWrites_sockaddrIn hlen addrP addrlenP addr (fun _ => 0) e, peerWrites]
  split_ifs with hzero
  · rw [addrWrites, if_pos (h.resolve_right fun hne => hne hzero)]
  · rfl

theorem addrWrites_empty {addr : Bytes}
    (h : ∀ w ∈ addrWrites addrP addrlenP len addr, w.bytes = []) : addrP = 0 := by
  by_contra haddr
  have hlength := h ⟨addrlenP, slice (putLe (fun _ => 0) 0 4 len) 0 4⟩ (by simp [addrWrites, haddr])
  exact absurd (congrArg List.length hlength) (by simp)

/-- A place for the address without one for its length: the length goes to address zero. -/
theorem addrWrites_zero (hplaces : ¬ (addrP = 0 ∨ addrlenP ≠ 0))
    (h : fetchLen slot addrP addrlenP m = some len)
    (addr : Bytes) (e : Option Endpoint) :
    (∃ w : Write, nonempty (addrWrites addrP addrlenP len addr) = [w]) ∧
      peerWrites addrP addrlenP len e = [] := by
  rw [not_or, not_not] at hplaces
  obtain ⟨haddr, rfl⟩ := hplaces
  obtain rfl : 0 = len := Option.some.inj h
  refine ⟨⟨⟨0, slice (putLe (fun _ => 0) 0 4 0) 0 4⟩, ?_⟩, ?_⟩
  · rw [addrWrites, if_neg haddr]
    rfl
  · cases e <;> rfl

theorem clean_recvfrom_iff (kind : Kind) (bufP : ℕ) (buflen : ℤ) (addrP addrlenP : ℕ) :
    Clean slot (some kind) d m (.recvfrom bufP buflen addrP addrlenP) ↔
      Careful slot (some kind) d m (.recvfrom bufP buflen addrP addrlenP) := by
  by_cases hargs : bufP = 0 ∨ buflen < 0 ∨ bufSize < buflen
  · exact iff_of_true (clean_of_nothing fun stack => if_pos hargs) (.inr (.inl hargs))
  cases hfetch : fetchLen slot addrP addrlenP m with
  | none =>
    refine iff_of_true (clean_of_nothing fun stack => ?_) (.inr (.inr (by simp [hfetch])))
    simp only [Call.run, Call.onSocket, if_neg hargs, hfetch]
  | some len =>
    have hlen := fetchLen_le hfetch
    set ts := (bufP, buflen.toNat) :: addrTargets addrP addrlenP len with hts
    have hcareful : Careful slot (some kind) d m (.recvfrom bufP buflen addrP addrlenP) ↔ Blocked m slot ts ∨
        ∃ data, Call.received (some kind) d (.recvfrom bufP buflen addrP addrlenP) = some data ∧
          data.length = buflen.toNat ∧
          Open m slot ts ∧ (addrP = 0 ∨ addrlenP ≠ 0) := by
      simp only [Careful, reduceCtorEq, hargs, false_or, hfetch, Option.some.injEq, forall_eq', hts]
    have htarget (bytes addr : Bytes) :
      (⟨bufP, slice bytes 0 buflen.toNat⟩ :: addrWrites addrP addrlenP len addr).map
        Write.target = ts := by
      rw [List.map_cons, addrWrites_target, Write.target, slice_length]
    have hrun (stack : Stack) : Call.run slot (some kind) d stack m (.recvfrom bufP buflen addrP addrlenP) =
        copyouts slot (socketRecvfrom kind d buflen.toNat stack).1
          (⟨bufP, slice (socketRecvfrom kind d buflen.toNat stack).2.1 0 buflen.toNat⟩ ::
            addrWrites addrP addrlenP len (socketRecvfrom kind d buflen.toNat stack).2.2) m := by
      simp only [Call.run, Call.onSocket, if_neg hargs, hfetch]
    rw [hcareful]
    cases hreceived : Call.received (some kind) d (.recvfrom bufP buflen addrP addrlenP) with
    | none =>
      obtain ⟨addr, hrecvfrom⟩ := socketRecvfrom_failed hreceived
      simp only [hrecvfrom] at hrun
      rw [clean_iff_of_failed _ _ hrun fun stack => htarget _ _]
      simp
    | some data =>
      obtain ⟨hlength, foreign, hpeer, hrecvfrom⟩ := socketRecvfrom_received hreceived
      simp only [hrecvfrom] at hrun
      have hP (stack : Stack) : nonempty (⟨bufP, slice (fill stack.buf data) 0 buflen.toNat⟩ ::
            addrWrites addrP addrlenP len (sockaddrIn stack.addr foreign)) =
          nonempty (⟨bufP, data⟩ :: peerWrites addrP addrlenP len (some foreign)) ↔
          data.length = buflen.toNat ∧ (addrP = 0 ∨ addrlenP ≠ 0) := by
        by_cases hplaces : addrP = 0 ∨ addrlenP ≠ 0
        · rw [peerWrites_eq hplaces hlen stack.addr foreign, nonempty_cons_inj, slice_fill_eq_iff,
            and_iff_left hplaces]
        · refine iff_of_false (fun h => ?_) fun h => hplaces h.2
          obtain ⟨⟨w, hw⟩, hnothing⟩ :=
            addrWrites_zero hplaces hfetch (sockaddrIn stack.addr foreign) (some foreign)
          rw [nonempty_cons, hw, hnothing] at h
          have hcount := congrArg List.length h
          by_cases hdata : data = []
          · simp [hdata, nonempty] at hcount
          · have hslice : slice (fill stack.buf data) 0 buflen.toNat ≠ [] := by
              rw [← List.length_pos_iff, slice_length]
              exact (List.length_pos_iff.mpr hdata).trans_le hlength
            simp [hdata, hslice, nonempty] at hcount
      rw [clean_iff_of_copyouts data.length _
        (nonempty (⟨bufP, data⟩ :: peerWrites addrP addrlenP len (some foreign))) _ hrun ?_
        (fun stack => htarget _ _) ?_ hP ?_]
      · simp only [Option.some.injEq, exists_eq_left']
        tauto
      · intro r
        rw [Call.expected, hreceived, hpeer, hfetch]
        rfl
      · intro stack h
        have hempty := nonempty_eq_nil_iff.mp h
        have hbuf := congrArg List.length (hempty _ List.mem_cons_self)
        rw [slice_length, List.length_nil] at hbuf
        have hnil : data = [] := List.length_eq_zero_iff.mp (by omega)
        have haddr := addrWrites_empty fun w hw => hempty w (List.mem_cons_of_mem _ hw)
        simp [hnil, peerWrites, addrWrites, haddr, nonempty]
      · rintro ⟨hfull, -⟩ stack stack'
        rw [← hfull, slice_fill, slice_fill, addrWrites_sockaddrIn hlen _ _ stack.addr stack'.addr]

theorem clean_accept_iff (kind : Kind) (addrP addrlenP : ℕ) :
    Clean slot (some kind) d m (.accept addrP addrlenP) ↔
      Careful slot (some kind) d m (.accept addrP addrlenP) := by
  cases hfetch : fetchLen slot addrP addrlenP m with
  | none =>
    refine iff_of_true (clean_of_nothing fun stack => ?_) (.inr (.inr (by simp [hfetch])))
    simp only [Call.run, Call.onSocket, hfetch]
  | some len =>
    have hlen := fetchLen_le hfetch
    cases kind with
    | dgram =>
      refine iff_of_true (clean_of_nothing fun stack => ?_) (.inl (by decide))
      simp only [Call.run, Call.onSocket, hfetch, socketAccept]
    | stream =>
      cases haccepted : d.accepted with
      | none =>
        refine iff_of_true (clean_of_nothing fun stack => ?_) (.inr (.inl haccepted))
        simp only [Call.run, Call.onSocket, hfetch, socketAccept, haccepted, Option.map_none]
      | some new =>
        obtain ⟨foreign, newfd⟩ := new
        have hcareful : Careful slot (some .stream) d m (.accept addrP addrlenP) ↔
            Blocked m slot (addrTargets addrP addrlenP len) ∨
              Open m slot (addrTargets addrP addrlenP len) ∧ (addrP = 0 ∨ addrlenP ≠ 0) := by
          simp only [Careful, ne_eq, not_true, haccepted, reduceCtorEq, false_or, hfetch,
            Option.some.injEq, forall_eq']
        have hrun (stack : Stack) : Call.run slot (some .stream) d stack m (.accept addrP addrlenP) =
            copyouts slot newfd (addrWrites addrP addrlenP len (sockaddrIn stack.addr foreign)) m := by
          simp only [Call.run, Call.onSocket, hfetch, socketAccept, haccepted, Option.map_some]
        have hP (stack : Stack) : nonempty (addrWrites addrP addrlenP len (sockaddrIn stack.addr foreign)) =
            nonempty (peerWrites addrP addrlenP len (some foreign)) ↔ addrP = 0 ∨ addrlenP ≠ 0 := by
          by_cases hplaces : addrP = 0 ∨ addrlenP ≠ 0
          · rw [peerWrites_eq hplaces hlen stack.addr foreign]
            exact iff_of_true rfl hplaces
          · refine iff_of_false (fun h => ?_) hplaces
            obtain ⟨⟨w, hw⟩, hnothing⟩ :=
              addrWrites_zero hplaces hfetch (sockaddrIn stack.addr foreign) (some foreign)
            rw [hw, hnothing] at h
            exact List.cons_ne_nil _ _ h
        rw [hcareful]
        refine clean_iff_of_copyouts newfd _
          (nonempty (peerWrites addrP addrlenP len (some foreign))) _ hrun ?_
          (fun stack => addrWrites_target _ _ _ _) ?_ hP ?_
        · intro r
          rw [Call.expected, Call.peer, haccepted, hfetch]
          rfl
        · intro stack h
          have haddr := addrWrites_empty (nonempty_eq_nil_iff.mp h)
          simp [peerWrites, addrWrites, haddr, nonempty]
        · intro _ stack stack'
          exact addrWrites_sockaddrIn hlen _ _ _ _ _

theorem clean_sendto_iff (kind : Kind) (bufP : ℕ) (buflen : ℤ) (addrP : ℕ) (addrlen : ℤ)
    (finish : List UInt8 → Endpoint → ℤ) :
    Clean slot (some kind) d m (.sendto bufP buflen addrP addrlen finish) ↔
      Careful slot (some kind) d m (.sendto bufP buflen addrP addrlen finish) := by
  cases hbuf : fetchBuf slot bufP buflen m with
  | none =>
    refine ⟨fun _ => .inr (.inl hbuf), fun _ => clean_of_nothing fun stack => ?_⟩
    simp only [Call.run, Call.onSocket, hbuf]
  | some data =>
    have hcareful : Careful slot (some kind) d m (.sendto bufP buflen addrP addrlen finish) ↔
      Fits slot addrP addrlen m := by
      refine ⟨fun h => (h.resolve_left nofun).resolve_left ?_, fun h => .inr (.inr h)⟩
      rw [hbuf]
      exact Option.some_ne_none _
    have hrun (stack : Stack) :
      Call.run slot (some kind) d stack m (.sendto bufP buflen addrP addrlen finish) =
        withAddr slot addrP addrlen stack.addr (finish data) m := by
      simp only [Call.run, Call.onSocket, hbuf]
    rw [hcareful]
    exact clean_iff_of_withAddr hrun fun ret => ite_self _

/-- A socket call moves only what it should exactly for these arguments and states. -/
theorem clean_iff (slot : ℕ) (sock : Option Kind) (d : Delivery) (m : Eager) (c : Call) :
    Clean slot sock d m c ↔ Careful slot sock d m c := by
  cases sock with
  | none =>
    refine iff_of_true (clean_of_nothing fun stack => rfl) ?_
    cases c with
    | accept => exact .inl nofun
    | _ => exact .inl rfl
  | some kind =>
    cases c with
    | bind addrP addrlen finish | connect addrP addrlen finish =>
      refine Iff.trans (clean_iff_of_withAddr (fun stack => rfl) fun ret => ite_self _) ?_
      exact ⟨.inr, fun h => h.resolve_left nofun⟩
    | sendto bufP buflen addrP addrlen finish => exact clean_sendto_iff kind bufP buflen addrP addrlen finish
    | recv bufP buflen => exact clean_recv_iff kind bufP buflen
    | recvfrom bufP buflen addrP addrlenP => exact clean_recvfrom_iff kind bufP buflen addrP addrlenP
    | accept addrP addrlenP => exact clean_accept_iff kind addrP addrlenP

end Calls

/-- A process with one page, at address 4096. -/
def onePage : Eager := fun slot =>
  if slot = 0 then some ⟨8192, none, false, [],
    fun v => if v = 1 then some Eager.zeroPage else none⟩ else none

/-- Nothing is delivered. -/
def silence : Delivery := ⟨none, none, none⟩

/-- `bind` with a length of nine overruns the address variable; and `recv` on a datagram socket,
which fails, copies a byte of the kernel stack to the user, so that two runs differ. -/
theorem stack_leaks : ¬ Clean 0 (some .stream) silence onePage (.bind 4096 9 fun _ => 0) ∧
    (Call.run 0 (some .dgram) silence ⟨fun _ => 0, fun _ => 0, ⟨0, 0⟩⟩ onePage (.recv 4096 1)).mem ≠
      (Call.run 0 (some .dgram) silence ⟨fun _ => 1, fun _ => 0, ⟨0, 0⟩⟩ onePage (.recv 4096 1)).mem := by
  constructor
  · intro h
    have hbounded := h.bounded ⟨fun _ => 0, fun _ => 0, ⟨0, 0⟩⟩
    exact absurd hbounded (by decide +kernel)
  · intro h
    have hbyte := congrArg (fun m => (m.page 0 1).map fun pg => pg.bytes 0) h
    exact absurd hbyte (by decide +kernel)

end Xv6.SysSocket
