import Xv6.Lib.Linear
import Xv6.Net.Buffers

/-!
# Conservation of network buffers

Every page is on the free list, with the rest of the kernel, in a queue, or is the page of an
event: a frame that the driver's write was called with, or a datagram that could not be queued.
The functions of the stack keep the pages, and the state in which an operation is started says
how many events it makes. So the pages in the first three places stay the same exactly when every
operation of a run finds a state in which it makes none.
-/

namespace Xv6.Buffers

open Lib Ip Tcp Function

/-- The pages of what is in a queue. -/
def Queue.pages : (q : Queue) → q.Data → Multiset ℕ
  | .protocol _, data => {data.page}
  | .udp _, data => {data.page}
  | .retransmit _, data => {data.page}
  | .backlog _, _ => 0

/-- The pages of the links of a queue and of what they link. -/
def linkPages (q : Queue) (links : List (Link q)) : Multiset ℕ :=
  (links.map fun l => {l.page} + q.pages l.data).sum

namespace Stack

/-- The pages that are free, with the rest of the kernel, or reachable from a queue. -/
def held (s : Stack) : Multiset ℕ := ↑s.free + ↑s.others + ∑ q, linkPages q (s.queue q)

/-- The pages of the events. -/
def spent (s : Stack) : Multiset ℕ := ↑(s.events.map Event.page)

/-- All pages. -/
def pages (s : Stack) : Multiset ℕ := s.held + s.spent

/-- The queues of received frames. -/
def inbox (s : Stack) : (p : Proto) → List (Link (.protocol p)) := fun p => s.queue (.protocol p)

/-- All pages, and the number of events. -/
def books (s : Stack) : Multiset ℕ × ℕ := (s.pages, s.events.length)

/-- The books, and the queues of received frames: handlers leave these alone. -/
def ledger (s : Stack) : (Multiset ℕ × ℕ) × Multiset ((p : Proto) → List (Link (.protocol p))) :=
  (s.books, {s.inbox})

end Stack

variable {o : Outside} {s t : Stack}

/-! ### Memory and queues -/

theorem held_setQueue (q : Queue) (links : List (Link q)) (s : Stack) :
    (setQueue q links s).held + linkPages q (s.queue q) = s.held + linkPages q links := by
  have hupdate : (fun r => linkPages r (update s.queue q links r)) =
      update (fun r => linkPages r (s.queue r)) q (linkPages q links) :=
    funext fun r => Function.apply_update (fun r => linkPages r) s.queue q links r
  have hsum := sum_update_add (fun r => linkPages r (s.queue r)) q (linkPages q links)
  rw [← hupdate] at hsum
  simp only [Stack.held, setQueue]
  rw [add_assoc, hsum, ← add_assoc]

theorem pages_setQueue (q : Queue) (links : List (Link q)) (s : Stack) :
    (setQueue q links s).pages + linkPages q (s.queue q) = s.pages + linkPages q links := by
  have hheld := held_setQueue q links s
  calc (setQueue q links s).held + s.spent + linkPages q (s.queue q)
      = (setQueue q links s).held + linkPages q (s.queue q) + s.spent := add_right_comm _ _ _
    _ = s.held + linkPages q links + s.spent := by rw [hheld]
    _ = s.held + s.spent + linkPages q links := add_right_comm _ _ _

theorem pages_of_free {page : ℕ} {free : List ℕ} (hfree : s.free = page :: free) :
    s.pages = {page} + Stack.pages { s with free := free } := by
  simp only [Stack.pages, Stack.held, Stack.spent, hfree, ← Multiset.cons_coe, Multiset.cons_add,
    Multiset.singleton_add]

/-- The cases of `memory_alloc`. -/
theorem memoryAlloc_run (size : ℕ) (s : Stack) : (memoryAlloc size).run s = (none, s) ∨
    ∃ page free, s.free = page :: free ∧ (memoryAlloc size).run s = (some page, { s with free := free }) := by
  unfold memoryAlloc
  by_cases hsize : memoryMax < size
  · exact .inl (by rw [if_pos hsize]; rfl)
  · rw [if_neg hsize]
    cases hfree : s.free with
    | nil => exact .inl (by simp [hfree]; rfl)
    | cons page free => exact .inr ⟨page, free, rfl, by simp [hfree]; rfl⟩

/-- `memory_alloc` of no more than a page. -/
theorem memoryAlloc_eq {size : ℕ} (hsize : size ≤ memoryMax) (s : Stack) : (memoryAlloc size).run s =
    match s.free with
    | [] => (none, s)
    | page :: free => (some page, { s with free := free }) := by
  unfold memoryAlloc
  rw [if_neg (by omega)]
  cases hfree : s.free with
  | nil =>
    simp [hfree]
    rfl
  | cons page free =>
    simp [hfree]
    rfl

/-- The cases of `queue_push`. -/
theorem queuePush_run (q : Queue) (data : q.Data) (s : Stack) :
    s.free = [] ∧ (queuePush q data).run s = (false, s) ∨ ∃ page free, s.free = page :: free ∧
      (queuePush q data).run s =
        (true, setQueue q (s.queue q ++ [⟨page, data⟩]) { s with free := free }) := by
  have hrun := memoryAlloc_eq (by decide : 16 ≤ memoryMax) s
  unfold queuePush
  cases hfree : s.free with
  | nil =>
    rw [hfree] at hrun
    exact .inl ⟨rfl, by rw [StateT.run_bind, hrun]; rfl⟩
  | cons page free =>
    rw [hfree] at hrun
    exact .inr ⟨page, free, rfl, by rw [StateT.run_bind, hrun]; rfl⟩

/-- The cases of `queue_pop`. -/
theorem queuePop_eq (q : Queue) (s : Stack) : (queuePop q).run s = StateT.run (match s.queue q with
    | [] => pure none
    | link :: links => do
      set (setQueue q links s)
      memoryFree link.page
      pure (some link.data)) s := rfl

/-- `queue_pop` takes the first entry off and frees its page. -/
theorem queuePop_run (q : Queue) (s : Stack) : s.queue q = [] ∧ (queuePop q).run s = (none, s) ∨
    ∃ link links, s.queue q = link :: links ∧
      (queuePop q).run s = (some link.data, { setQueue q links s with free := link.page :: s.free }) := by
  cases hqueue : s.queue q with
  | nil => exact .inl ⟨rfl, by rw [queuePop_eq, hqueue]; rfl⟩
  | cons link links => exact .inr ⟨link, links, rfl, by rw [queuePop_eq, hqueue]; rfl⟩

/-- The page that `memory_alloc` returns leaves the free list. -/
theorem memoryAlloc_pages (size : ℕ) : Linear Stack.pages 0 (memoryAlloc size) fun r =>
    (r.toList : Multiset ℕ) := by
  intro s
  rcases memoryAlloc_run size s with hrun | ⟨page, free, hfree, hrun⟩
  · rw [hrun]
    rfl
  · rw [hrun, zero_add]
    exact pages_of_free hfree

theorem memoryFree_pages (page : ℕ) : Linear Stack.pages {page} (memoryFree page) fun _ => 0 := by
  refine .modify fun s => ?_
  rw [zero_add]
  exact (pages_of_free (s := { s with free := page :: s.free }) rfl).symm

/-- A push moves the pages of the entry into the queue, or leaves them with the caller. -/
theorem queuePush_pages (q : Queue) (data : q.Data) :
    Linear Stack.pages (q.pages data) (queuePush q data) fun pushed =>
      if pushed then 0 else q.pages data := by
  intro s
  rcases queuePush_run q data s with ⟨-, hrun⟩ | ⟨page, free, hfree, hrun⟩
  · rw [hrun]
    rfl
  · have hset := pages_setQueue q (s.queue q ++ [⟨page, data⟩]) { s with free := free }
    have hlinks : linkPages q (s.queue q ++ [⟨page, data⟩]) =
      linkPages q (s.queue q) + ({page} + q.pages data) := by
      simp [linkPages]
    rw [hlinks, ← add_assoc, add_right_comm, add_left_inj] at hset
    rw [hrun]
    change q.pages data + s.pages = 0 + _
    rw [zero_add, hset, pages_of_free hfree]
    abel

/-- A pop hands out the pages of the entry. -/
theorem queuePop_pages (q : Queue) : Linear Stack.pages 0 (queuePop q) fun r => r.elim 0 q.pages := by
  intro s
  rcases queuePop_run q s with ⟨-, hrun⟩ | ⟨link, links, hqueue, hrun⟩
  · rw [hrun]
    rfl
  · have hset := pages_setQueue q links s
    have hlinks : linkPages q (s.queue q) = ({link.page} + q.pages link.data) + linkPages q links := by
      rw [hqueue]
      rfl
    rw [hlinks, ← add_assoc, add_left_inj] at hset
    have hfree := pages_of_free (s := { setQueue q links s with free := link.page :: s.free }) rfl
    rw [hrun, zero_add, ← hset]
    rw [hfree]
    change (setQueue q links s).pages + _ = _ + ({link.page} + (setQueue q links s).pages)
    abel

/-- A program that makes no event, with the pages in its hand. -/
theorem books_of_pages {α : Type} {m : StateM Stack α} {pre : Multiset ℕ} {post : α → Multiset ℕ}
    (hpages : Linear Stack.pages pre m post) (hevents : ∀ s, (m.run s).2.events = s.events) :
    Linear Stack.books (pre, 0) m fun a => (post a, 0) :=
  fun s => Prod.ext (hpages s) (congrArg (fun l => 0 + l.length) (hevents s).symm)

/-- `memory_alloc` ends with the page in hand. -/
theorem memoryAlloc_books (size : ℕ) : Linear Stack.books 0 (memoryAlloc size) fun r => (↑r.toList, 0) := by
  refine books_of_pages (memoryAlloc_pages size) fun s => ?_
  rcases memoryAlloc_run size s with hrun | ⟨page, free, -, hrun⟩
  · rw [hrun]
  · rw [hrun]

/-- `memory_free` puts the page in hand back. -/
theorem memoryFree_books (page : ℕ) : Linear Stack.books ({page}, 0) (memoryFree page) fun _ => 0 :=
  books_of_pages (memoryFree_pages page) fun _ => rfl

/-- `queue_push` puts the page in hand into the queue, or fails. -/
theorem queuePush_books (q : Queue) (data : q.Data) : Linear Stack.books (q.pages data, 0) (queuePush q data)
    fun pushed => (if pushed then 0 else q.pages data, 0) := by
  refine books_of_pages (queuePush_pages q data) fun s => ?_
  rcases queuePush_run q data s with ⟨-, hrun⟩ | ⟨page, free, -, hrun⟩
  · rw [hrun]
  · rw [hrun]
    rfl

/-- `queue_pop` ends with the page of what it takes out in hand. -/
theorem queuePop_books (q : Queue) : Linear Stack.books 0 (queuePop q) fun r => (r.elim 0 q.pages, 0) := by
  refine books_of_pages (queuePop_pages q) fun s => ?_
  rcases queuePop_run q s with ⟨-, hrun⟩ | ⟨link, links, -, hrun⟩
  · rw [hrun]
  · rw [hrun]
    rfl

/-! ### Functions that keep the pages -/

/-- Pages in hand. -/
def inHand (pages : Multiset ℕ) :
    (Multiset ℕ × ℕ) × Multiset ((p : Proto) → List (Link (.protocol p))) := ((pages, 0), 0)

/-- A function that starts and ends with no page in hand, makes no event and leaves the queues of
received frames alone. -/
def Neutral {α : Type} (m : StateM Stack α) : Prop := Linear Stack.ledger 0 m fun _ => 0

section Rules

variable {α β : Type} {m : StateM Stack α} {f : α → StateM Stack β} {pre : Multiset ℕ} {post : α → Multiset ℕ}

/-- Books and queues together. -/
theorem ledger_of_books (hbooks : Linear Stack.books (pre, 0) m fun a => (post a, 0))
    (hinbox : ∀ s, (m.run s).2.inbox = s.inbox) : Linear Stack.ledger (inHand pre) m fun a =>
    inHand (post a) :=
  hbooks.prod (.of_keeps hinbox)

theorem Neutral.pure (a : α) : Neutral (Pure.pure a : StateM Stack α) := Linear.pure a fun _ => 0

theorem Neutral.bind (hm : Neutral m) (hf : ∀ a, Neutral (f a)) : Neutral (m >>= f) := Linear.bind hm hf

theorem Neutral.ite {c : Prop} [Decidable c] {m' : StateM Stack α} (hm : Neutral m) (hm' : Neutral m') :
    Neutral (if c then m else m') := Linear.ite hm hm'

/-- The result is not looked at. -/
theorem Neutral.ignore (hm : Neutral m) : Neutral (do let _ ← m; Pure.pure ()) := hm.bind fun _ => .pure ()

theorem Neutral.get_bind {f : Stack → StateM Stack β} (h : ∀ s, Neutral (f s)) : Neutral (get >>= f) :=
  Linear.get.bind h

/-- Neutral code leaves the ledger as it was. -/
theorem Neutral.ledger_run (hm : Neutral m) (s : Stack) : (m.run s).2.ledger = s.ledger := by
  have hs := hm s
  rw [zero_add, zero_add] at hs
  exact hs.symm

/-- A change that no page and no queue of frames takes part in. -/
theorem Neutral.of_ledger (h : ∀ s, (m.run s).2.ledger = s.ledger) : Neutral m :=
  fun s => congrArg (0 + ·) (h s).symm

/-- A function that goes on from the state it has looked at. -/
theorem Neutral.of_get {f : Stack → StateM Stack β} (h : ∀ s, ((f s).run s).2.ledger = s.ledger) :
    Neutral (get >>= f) :=
  .of_ledger h

end Rules

theorem inbox_memoryAlloc (size : ℕ) (s : Stack) : ((memoryAlloc size).run s).2.inbox = s.inbox := by
  rcases memoryAlloc_run size s with hrun | ⟨page, free, -, hrun⟩
  · rw [hrun]
  · rw [hrun]
    rfl

variable {q : Queue}

theorem inbox_setQueue (hq : ∀ p, q ≠ .protocol p) (links : List (Link q)) (s : Stack) :
    (setQueue q links s).inbox = s.inbox := by
  funext p
  exact update_of_ne (hq p).symm links s.queue

theorem Queue.udp_ne (i : Fin pcbSize) (p : Proto) : Queue.udp i ≠ .protocol p := nofun

theorem Queue.retransmit_ne (i : Fin pcbSize) (p : Proto) : Queue.retransmit i ≠ .protocol p := nofun

theorem Queue.backlog_ne (i : Fin pcbSize) (p : Proto) : Queue.backlog i ≠ .protocol p := nofun

theorem memoryFree_linear (page : ℕ) : Linear Stack.ledger (inHand {page}) (memoryFree page) fun _ => 0 :=
  ledger_of_books (memoryFree_books page) fun _ => rfl

theorem queuePush_linear (hq : ∀ p, q ≠ .protocol p) (data : q.Data) :
    Linear Stack.ledger (inHand (q.pages data)) (queuePush q data) fun pushed =>
      inHand (if pushed then 0 else q.pages data) := by
  refine ledger_of_books (queuePush_books q data) fun s => ?_
  rcases queuePush_run q data s with ⟨-, hrun⟩ | ⟨page, free, -, hrun⟩
  · rw [hrun]
  · rw [hrun]
    exact inbox_setQueue hq _ _

theorem queuePop_linear (hq : ∀ p, q ≠ .protocol p) :
    Linear Stack.ledger 0 (queuePop q) fun r => inHand (r.elim 0 q.pages) := by
  refine ledger_of_books (queuePop_books q) fun s => ?_
  rcases queuePop_run q s with ⟨-, hrun⟩ | ⟨link, links, -, hrun⟩
  · rw [hrun]
  · rw [hrun]
    exact inbox_setQueue hq links s

section Rules

variable {α β : Type} {m : StateM Stack α}

/-- A page is taken, or the function gives up. -/
theorem Neutral.alloc_bind {f : Option ℕ → StateM Stack β} (size : ℕ) (hnone : Neutral (f none))
    (hsome : ∀ page, Linear Stack.ledger (inHand {page}) (f (some page)) fun _ => 0) :
    Neutral (memoryAlloc size >>= f) := by
  refine (ledger_of_books (memoryAlloc_books size) (inbox_memoryAlloc size)).bind fun r => ?_
  cases r with
  | none => exact hnone
  | some page => exact hsome page

/-- A page in hand is queued, or else freed. -/
theorem queuePush_or_free (hq : ∀ p, q ≠ .protocol p) (data : q.Data) {page : ℕ}
    (hpage : q.pages data = {page})
    (a b : α) : Linear Stack.ledger (inHand {page}) (do
      let pushed ← queuePush q data
      if pushed then Pure.pure a
      else do
        memoryFree page
        Pure.pure b) fun _ => 0 := by
  have hpush := queuePush_linear hq data
  rw [hpage] at hpush
  refine hpush.bind fun pushed => ?_
  cases pushed with
  | true => exact Linear.pure a fun _ => 0
  | false => exact (memoryFree_linear page).bind fun _ => Linear.pure b fun _ => 0

end Rules

/-- A loop that frees what it takes out of a queue. -/
theorem discard_neutral (hq : ∀ p, q ≠ .protocol p) {page : q.Data → ℕ}
    (hpage : ∀ data, q.pages data = {page data})
    (turns : ℕ) : Neutral (discard q page turns) := by
  induction turns with
  | zero => exact .pure ()
  | succ turns ih =>
    refine (queuePop_linear hq).bind fun r => ?_
    cases r with
    | none => exact Neutral.pure ()
    | some data =>
      have hfree := memoryFree_linear (page data)
      rw [← hpage] at hfree
      exact hfree.bind fun _ => ih

/-! ### Events -/

/-- Events, in the measure of the ledger. -/
def made : ℕ →+ (Multiset ℕ × ℕ) × Multiset ((p : Proto) → List (Link (.protocol p))) :=
  (AddMonoidHom.inl _ _).comp (AddMonoidHom.inr _ _)

/-- From `s` the function makes `n` events, and keeps the rest of the ledger. -/
abbrev Emits {α : Type} (m : StateM Stack α) (s : Stack) (n : ℕ) : Prop := Adds Stack.ledger m s (made n)

section Rules

variable {α β : Type} {m : StateM Stack α} {n : ℕ} {page : ℕ} {free : List ℕ}

/-- A neutral function makes no event. -/
theorem Neutral.emits (hm : Neutral m) (s : Stack) : Emits m s 0 := by
  rw [Emits, map_zero]
  exact Linear.adds hm s

/-- The queues of received frames are forgotten. -/
theorem Emits.books (h : Emits m s n) : Adds Stack.books m s (0, n) := by
  have hfst := h.map (AddMonoidHom.fst (Multiset ℕ × ℕ) (Multiset ((p : Proto) → List (Link (.protocol p)))))
  exact hfst

/-- The first free page is in hand or on the list. -/
theorem ledger_of_free (hfree : s.free = page :: free) :
    s.ledger = inHand {page} + Stack.ledger { s with free := free } :=
  Prod.ext (Prod.ext (pages_of_free hfree) (zero_add _).symm) (zero_add _).symm

/-- The page of an event leaves the hand. -/
theorem ledger_event (s : Stack) (e : Event) :
    Stack.ledger { s with events := s.events ++ [e] } = inHand {e.page} + s.ledger + made 1 := by
  have hpages : {e.page} + s.pages = Stack.pages { s with events := s.events ++ [e] } := by
    change {e.page} + s.pages = s.held + ((s.events ++ [e]).map Event.page : List ℕ)
    rw [List.map_append, ← Multiset.coe_add, ← add_assoc, add_comm]
    rfl
  refine Prod.ext (Prod.ext ?_ ?_) ?_
  · exact hpages.symm.trans (add_zero _).symm
  · change (s.events ++ [e]).length = 0 + s.events.length + 1
    simp
  · exact (zero_add _).symm.trans (add_zero _).symm

/-- A function that takes a page, or gives up because there is none. -/
theorem Emits.alloc_bind {f : Option ℕ → StateM Stack β} {size : ℕ} (hsize : size ≤ memoryMax)
    (hnone : s.free = [] → Emits (f none) s n)
    (hsome : ∀ page free, s.free = page :: free →
      ((f (some page)).run { s with free := free }).2.ledger = s.ledger + made n) :
    Emits (memoryAlloc size >>= f) s n := by
  change ((f ((memoryAlloc size).run s).1).run ((memoryAlloc size).run s).2).2.ledger = s.ledger + made n
  rw [memoryAlloc_eq hsize]
  cases hfree : s.free with
  | nil => exact hnone hfree
  | cons page free => exact hsome page free hfree

/-- A page in hand is freed at the end. -/
theorem Emits.then_free (hfree : s.free = page :: free) (hm : Emits m { s with free := free } n) (g : α → β) :
    ((do let a ← m; memoryFree page; pure (g a) : StateM Stack β).run { s with free := free }).2.ledger =
      s.ledger + made n := by
  have hback := memoryFree_linear page (m.run { s with free := free }).2
  rw [zero_add, hm, ← add_assoc, ← ledger_of_free hfree] at hback
  exact hback.symm

/-- A test whether something is sent by a function whose callers have taken some pages already. -/
structure Needs (sends : Stack → ℕ → Bool) : Prop where
  page : ∀ s taken, s.free = [] → sends s taken = false
  taken : ∀ s page free taken, s.free = page :: free → sends { s with free := free } taken =
    sends s (taken + 1)

/-- A function that works in a buffer of its own. -/
theorem Needs.buffered {sends : Stack → ℕ → Bool} (h : Needs sends) {size : ℕ} (hsize : size ≤ memoryMax)
    (hm : ∀ t, Emits m t (sends t 0).toNat) {f : Option ℕ → StateM Stack β} (e : β) (g : α → β)
    (hnone : f none = pure e) (hsome : ∀ page, f (some page) = do let a ← m; memoryFree page; pure (g a)) :
    Emits (memoryAlloc size >>= f) s (sends s 1).toNat := by
  refine .alloc_bind hsize (fun hfree => ?_) fun page free hfree => ?_
  · rw [h.page s 1 hfree, hnone]
    exact (Neutral.pure e).emits s
  · rw [hsome, ← h.taken s page free 0 hfree]
    exact (hm _).then_free hfree g

end Rules

/-! ### Output -/

namespace Stack

/-- `net_device_output` calls the driver's write, where its callers have taken some pages
already. -/
def transmits (s : Stack) (taken dev len : ℕ) : Bool :=
  s.up dev && decide (len ≤ s.tables.mtu dev) && decide (taken < s.free.length)

/-- The length of the message with which `ip_output_device` calls `net_device_output`: the packet,
or the ARP request for an address that is not known, if there is an entry of the cache for it. -/
def message (s : Stack) (iface : Iface) (len : ℕ) (dst : UInt32) : Option ℕ :=
  if dst = iface.broadcast ∨ dst = addrBroadcast then some len
  else
    match (arpCacheSelect s.caches dst).bind fun i => s.caches[i]? with
    | none => if (arpCacheAlloc s.caches).isSome then some arpSize else none
    | some cache => some (if cache.state = .incomplete then arpSize else len)

/-- `ip_output` leads to a call of the driver's write. -/
def outputs (s : Stack) (taken len : ℕ) (src dst : UInt32) : Bool :=
  match s.tables.ipOutput len src dst with
  | .error _ => false
  | .ok out => (s.tables.iface out.dev).any fun iface =>
      (s.message iface ((hdrSizeMin + len) % 2 ^ 16) out.nexthop).any (s.transmits (taken + 1) out.dev)

/-- `udp_output` leads to a call of the driver's write. -/
def outputsUdp (s : Stack) (len : ℕ) (src dst : UInt32) : Bool :=
  decide (len ≤ ipPayloadSizeMax - 8) && s.outputs 1 (8 + len) src dst

end Stack

/-- The driver's write needs a page for the frame. -/
theorem transmits_needs (dev len : ℕ) : Needs fun s taken => s.transmits taken dev len where
  page s taken hfree := by simp [Stack.transmits, hfree]
  taken s page free taken hfree := by simp [Stack.transmits, hfree]

/-- The message of an IP packet needs a page for the frame. -/
theorem message_needs (dev : ℕ) (iface : Iface) (len : ℕ) (dst : UInt32) :
    Needs fun s taken => (s.message iface len dst).any (s.transmits taken dev) where
  page s taken hfree := by
    cases s.message iface len dst with
    | none => rfl
    | some l => exact (transmits_needs dev l).page s taken hfree
  taken s page free taken hfree := by
    change (s.message iface len dst).any _ = _
    cases s.message iface len dst with
    | none => rfl
    | some l => exact (transmits_needs dev l).taken s page free taken hfree

/-- An IP packet needs a page for itself and one for the frame. -/
theorem outputs_needs (len : ℕ) (src dst : UInt32) : Needs fun s taken => s.outputs taken len src dst where
  page s taken hfree := by
    unfold Stack.outputs
    cases s.tables.ipOutput len src dst with
    | error _ => rfl
    | ok out =>
      dsimp only
      cases s.tables.iface out.dev with
      | none => rfl
      | some iface => exact (message_needs _ iface _ _).page s (taken + 1) hfree
  taken s page free taken hfree := by
    unfold Stack.outputs
    dsimp only
    cases s.tables.ipOutput len src dst with
    | error _ => rfl
    | ok out =>
      dsimp only
      cases s.tables.iface out.dev with
      | none => rfl
      | some iface => exact (message_needs _ iface _ _).taken s page free (taken + 1) hfree

/-- A frame is lost for every page that is found for one. -/
theorem etherTransmitHelper_emits (len : ℕ) (s : Stack) :
    Emits (etherTransmitHelper o len) s (decide (0 < s.free.length)).toNat := by
  refine .alloc_bind (by decide) (fun hfree => ?_) fun frame free hfree => ?_
  · rw [hfree]
    exact (Neutral.pure (-1)).emits s
  · rw [ledger_of_free hfree, hfree]
    exact ledger_event { s with free := free } (.write frame _)

/-- A frame costs a page exactly if the driver's write is called. -/
theorem netDeviceOutput_emits (dev len : ℕ) (s : Stack) :
    Emits (netDeviceOutput o dev len) s (s.transmits 0 dev len).toNat := by
  have hgives : Emits (pure (-1) : StateM Stack ℤ) s 0 := (Neutral.pure (-1)).emits s
  refine .get_bind ?_
  unfold Stack.transmits
  split_ifs with hdown hlong
  · rw [show s.up dev = false by simpa using hdown]
    exact hgives
  · rw [decide_eq_false (by omega : ¬ len ≤ s.tables.mtu dev), Bool.and_false]
    exact hgives
  · rw [show s.up dev = true by simpa using hdown, decide_eq_true (by omega : len ≤ s.tables.mtu dev)]
    exact (etherTransmitHelper_emits len s).before fun _ => Neutral.pure _

theorem gettimeofday_neutral : Neutral (gettimeofday o) := .of_ledger fun _ => rfl

theorem arpCacheUpdate_neutral (pa : UInt32) (ha : List UInt8) : Neutral (arpCacheUpdate o pa ha) := by
  refine .get_bind fun s => ?_
  cases arpCacheSelect s.caches pa with
  | none => exact .pure false
  | some i => exact gettimeofday_neutral.bind fun _ => .of_ledger fun _ => rfl

theorem arpCacheInsert_neutral (state : CacheState) (pa : UInt32) (ha : List UInt8) :
    Neutral (arpCacheInsert o state pa ha) := by
  refine .get_bind fun s => ?_
  cases arpCacheAlloc s.caches with
  | none => exact .pure false
  | some i => exact gettimeofday_neutral.bind fun _ => .of_ledger fun _ => rfl

/-- From `s` to `t` nothing changes that decides about a transmission. -/
structure SameDevices (s t : Stack) : Prop where
  free : t.free = s.free
  up : t.up = s.up
  tables : t.tables = s.tables

theorem SameDevices.transmits (h : SameDevices s t) (taken dev len : ℕ) :
    t.transmits taken dev len = s.transmits taken dev len := by
  rw [Stack.transmits, Stack.transmits, h.free, h.up, h.tables]

theorem SameDevices.trans {u : Stack} (h : SameDevices s t) (h' : SameDevices t u) : SameDevices s u :=
  ⟨h'.free.trans h.free, h'.up.trans h.up, h'.tables.trans h.tables⟩

/-- `arp_cache_update` changes the cache alone. -/
theorem arpCacheUpdate_same (pa : UInt32) (ha : List UInt8) (s : Stack) :
    SameDevices s ((arpCacheUpdate o pa ha).run s).2 := by
  rw [arpCacheUpdate, StateT.run_bind, StateT.run_get, pure_bind]
  dsimp only
  cases arpCacheSelect s.caches pa with
  | none => exact ⟨rfl, rfl, rfl⟩
  | some i => exact ⟨rfl, rfl, rfl⟩

/-- Only a full cache refuses an entry, and the devices stay. -/
theorem arpCacheInsert_same (state : CacheState) (pa : UInt32) (ha : List UInt8) (s : Stack) :
    ((arpCacheInsert o state pa ha).run s).1 = (arpCacheAlloc s.caches).isSome ∧
      SameDevices s ((arpCacheInsert o state pa ha).run s).2 := by
  rw [arpCacheInsert, StateT.run_bind, StateT.run_get, pure_bind]
  dsimp only
  cases arpCacheAlloc s.caches with
  | none => exact ⟨rfl, rfl, rfl, rfl⟩
  | some i => exact ⟨rfl, rfl, rfl, rfl⟩

/-- An ARP request is sent from a state in which the cache alone has changed. -/
theorem SameDevices.request (h : SameDevices s t) {α : Type} (dev : ℕ) (a : α) :
    Emits (do let _ ← arpRequest o dev; pure a) t (s.transmits 0 dev arpSize).toNat := by
  rw [← h.transmits 0 dev arpSize]
  exact (netDeviceOutput_emits dev arpSize t).before fun _ => Neutral.pure a

theorem ipOutputDevice_emits (dev : ℕ) (iface : Iface) (len : ℕ) (dst : UInt32) (s : Stack) :
    Emits (ipOutputDevice o dev iface len dst) s
      ((s.message iface len dst).any (s.transmits 0 dev)).toNat := by
  unfold ipOutputDevice Stack.message
  split
  · exact netDeviceOutput_emits dev len s
  · unfold arpResolve
    rw [bind_assoc]
    refine .get_bind ?_
    cases (arpCacheSelect s.caches dst).bind fun i => s.caches[i]? with
    | none =>
      obtain ⟨hmade, hsame⟩ := arpCacheInsert_same (o := o) .incomplete dst (List.replicate 6 0) s
      rw [bind_assoc]
      refine Adds.after (arpCacheInsert_neutral _ _ _) ?_
      rw [hmade]
      cases (arpCacheAlloc s.caches).isSome with
      | false => exact (Neutral.pure (-1)).emits _
      | true => exact hsame.request dev 0
    | some cache =>
      dsimp only
      split
      · exact SameDevices.request (s := s) ⟨rfl, rfl, rfl⟩ dev 0
      · exact netDeviceOutput_emits dev len s

theorem ipOutputCore_emits (dev : ℕ) (iface : Iface) (len : ℕ) (nexthop : UInt32) (s : Stack) :
    Emits (ipOutputCore o dev iface len nexthop) s
      ((s.message iface ((hdrSizeMin + len) % 2 ^ 16) nexthop).any (s.transmits 1 dev)).toNat :=
  (message_needs dev iface _ nexthop).buffered (by decide)
    (ipOutputDevice_emits dev iface _ nexthop) (-1) id rfl
    fun _ => rfl

/-- `ip_output` costs a page exactly if it leads to a call of the driver's write. -/
theorem ipOutput_emits (len : ℕ) (src dst : UInt32) (s : Stack) :
    Emits (ipOutput o len src dst) s (s.outputs 0 len src dst).toNat := by
  have hgives : Emits (pure (-1) : StateM Stack ℤ) s 0 := (Neutral.pure (-1)).emits s
  unfold Stack.outputs
  refine .get_bind ?_
  cases s.tables.ipOutput len src dst with
  | error _ => exact hgives
  | ok out =>
    dsimp only
    cases s.tables.iface out.dev with
    | none => exact hgives
    | some iface => exact (ipOutputCore_emits _ _ _ _ s).before fun _ => Neutral.pure _

theorem icmpOutput_emits (len : ℕ) (src dst : UInt32) (s : Stack) :
    Emits (icmpOutput o len src dst) s (s.outputs 1 (8 + len) src dst).toNat :=
  (outputs_needs _ src dst).buffered (by decide) (ipOutput_emits _ src dst) (-1) id rfl fun _ => rfl

theorem udpOutput_emits (len : ℕ) (src dst : UInt32) (s : Stack) :
    Emits (udpOutput o len src dst) s (s.outputsUdp len src dst).toNat := by
  unfold Stack.outputsUdp
  by_cases hlen : ipPayloadSizeMax - 8 < len
  · rw [decide_eq_false (by omega : ¬ len ≤ ipPayloadSizeMax - 8)]
    refine .alloc_bind (by decide) (fun _ => (Neutral.pure (-1)).emits s) fun page free hfree => ?_
    dsimp only
    rw [if_pos hlen]
    exact ((Neutral.pure (-1)).emits { s with free := free }).then_free hfree id
  · rw [decide_eq_true (by omega : len ≤ ipPayloadSizeMax - 8)]
    refine (outputs_needs _ src dst).buffered (by decide) (ipOutput_emits _ src dst) (-1)
      (fun ret => if ret = -1 then -1 else (len : ℤ)) rfl fun _ => if_neg hlen

/-! ### Input -/

namespace Stack

/-- `arp_input` sends a reply: a request for the address of the device. -/
def answers (s : Stack) (data : Bytes) (len dev : ℕ) : Bool :=
  decide (arpSize ≤ len ∧ (ntoh16 (load16 data 0) = 1 ∧ data 4 = 6) ∧
    (ntoh16 (load16 data 2) = 0x0800 ∧ data 5 = 4)) &&
    (s.tables.iface dev).any fun iface =>
      decide (iface.unicast = load32 data 24 ∧ ntoh16 (load16 data 6) = 1) && s.transmits 0 dev arpSize

/-- `icmp_input` sends a reply. -/
def echoes (s : Stack) (frame : Bytes) (p : Packet) : Bool :=
  match Ip.icmpInput frame p with
  | .ok (.reply _ _ payload src dst) => s.outputs 1 (8 + payload.len.toNat) src dst
  | _ => false

/-- `udp_input` finds a page for the datagram and none for the link of the queue. -/
def refuses (s : Stack) (frame : Bytes) (p : Packet) : Bool :=
  match Ip.udpInput (openBlocks s) true frame p with
  | .ok (.enqueue _ _ payload) => decide (12 + payload.len.toNat ≤ memoryMax ∧ s.free.length = 1)
  | _ => false

end Stack

/-- An ARP message costs a page exactly if it is answered. -/
theorem arpInput_emits (data : Bytes) (len dev : ℕ) (s : Stack) :
    Emits (arpInput o data len dev) s (s.answers data len dev).toNat := by
  have hgives : Emits (pure ()) s 0 := (Neutral.pure ()).emits s
  unfold arpInput Stack.answers
  split
  · rw [decide_eq_false fun h => absurd h.1 (by omega)]
    exact hgives
  rename_i hshort
  split
  · rename_i hhrd
    rw [decide_eq_false fun h => hhrd.elim (· h.2.1.1) (· h.2.1.2)]
    exact hgives
  rename_i hhrd
  split
  · rename_i hpro
    rw [decide_eq_false fun h => hpro.elim (· h.2.2.1) (· h.2.2.2)]
    exact hgives
  rename_i hpro
  rw [not_or, not_not, not_not] at hhrd hpro
  rw [decide_eq_true ⟨not_lt.mp hshort, hhrd, hpro⟩, Bool.true_and]
  have hsame := arpCacheUpdate_same (o := o) (load32 data 14) (bytesAt data 8 6) s
  refine Adds.after (arpCacheUpdate_neutral _ _) ?_
  generalize ((arpCacheUpdate o (load32 data 14) (bytesAt data 8 6)).run s).2 = t at hsame ⊢
  generalize ((arpCacheUpdate o (load32 data 14) (bytesAt data 8 6)).run s).1 = marge
  rw [← hsame.tables]
  refine .get_bind ?_
  cases t.tables.iface dev with
  | none => exact (Neutral.pure ()).emits t
  | some iface =>
    have hreply {u : Stack} (hsame : SameDevices s u) :
        Emits (if ntoh16 (load16 data 6) = 1 then do
          let _ ← arpReply o dev
          pure ()
        else pure ()) u (decide (ntoh16 (load16 data 6) = 1) && s.transmits 0 dev arpSize).toNat := by
      by_cases hop : ntoh16 (load16 data 6) = 1
      · rw [if_pos hop, decide_eq_true hop]
        exact hsame.request dev ()
      · rw [if_neg hop, decide_eq_false hop]
        exact (Neutral.pure ()).emits u
    dsimp only [Option.any_some]
    by_cases htpa : iface.unicast = load32 data 24
    · simp only [htpa, ne_eq, not_true_eq_false, if_false, true_and]
      cases marge with
      | true => exact hreply hsame
      | false =>
        exact Adds.after (arpCacheInsert_neutral _ _ _) (hreply (hsame.trans (arpCacheInsert_same _ _ _ _).2))
    · simp only [htpa, ne_eq, not_false_eq_true, if_true, false_and]
      exact (Neutral.pure ()).emits t

/-- A datagram costs a page exactly if there is none left for the link of the queue. -/
theorem udpInput_emits (frame : Bytes) (p : Packet) (s : Stack) :
    Emits (udpInput frame p) s (s.refuses frame p).toNat := by
  have hgives : Emits (pure ()) s 0 := (Neutral.pure ()).emits s
  unfold Stack.refuses
  refine .get_bind ?_
  cases Ip.udpInput (openBlocks s) true frame p with
  | error _ => exact hgives
  | ok action =>
    cases action with
    | reply => exact hgives
    | segment => exact hgives
    | enqueue block foreign payload =>
      dsimp only
      by_cases hsize : 12 + payload.len.toNat ≤ memoryMax
      · simp only [hsize, true_and]
        refine Emits.alloc_bind hsize (fun hfree => ?_) fun entry free hfree => ?_
        · rw [hfree]
          exact hgives
        · have hpush := queuePush_linear (Queue.udp_ne (Fin.ofNat pcbSize block))
            ⟨entry, ⟨foreign, payload.len.toNat, payload.bytes frame⟩⟩ { s with free := free }
          dsimp only
          rw [StateT.run_bind, ledger_of_free hfree, hfree]
          rcases queuePush_run (.udp (Fin.ofNat pcbSize block))
            ⟨entry, ⟨foreign, payload.len.toNat, payload.bytes frame⟩⟩ { s with free := free }
            with ⟨hnil, hrun⟩ | ⟨page, rest, hcons, hrun⟩
          · -- the entry leaves with the report
            obtain rfl : free = [] := hnil
            rw [hrun]
            exact ledger_event { s with free := [] } (.udpPushFailure entry)
          · obtain rfl : free = page :: rest := hcons
            rw [hrun] at hpush ⊢
            exact (zero_add _).symm.trans (hpush.symm.trans (add_zero _).symm)
      · simp only [hsize, false_and]
        rw [memoryAlloc, if_pos (by omega)]
        exact hgives

/-- An ICMP message costs a page exactly if it is an echo request that is answered. -/
theorem icmpInput_emits (frame : Bytes) (p : Packet) (s : Stack) :
    Emits (icmpInput o frame p) s (s.echoes frame p).toNat := by
  have hgives : Emits (pure ()) s 0 := (Neutral.pure ()).emits s
  unfold icmpInput Stack.echoes
  cases Ip.icmpInput frame p with
  | error _ => exact hgives
  | ok action =>
    cases action with
    | reply code values payload src dst =>
      exact (icmpOutput_emits _ src dst s).before fun _ => Neutral.pure ()
    | enqueue => exact hgives
    | segment => exact hgives

theorem tcpOutputSegment_emits (len : ℕ) (src dst : UInt32) (s : Stack) :
    Emits (tcpOutputSegment o len src dst) s (s.outputs 1 ((20 + len) % 2 ^ 16) src dst).toNat :=
  (outputs_needs _ src dst).buffered (by decide) (ipOutput_emits _ src dst) (-1)
    (fun ret => if ret = -1 then -1 else (len : ℤ))
    rfl fun _ => rfl

theorem tcpRetransmitQueueAdd_neutral (i : Fin pcbSize) (seq : UInt32) (len : ℕ) :
    Neutral (tcpRetransmitQueueAdd i seq len) :=
  .alloc_bind _ (.pure (-1)) fun entry => queuePush_or_free (Queue.retransmit_ne i)
    ⟨entry, ⟨seq, len⟩⟩ rfl 0 (-1)

/-- An entry that leaves the retransmission queue is freed with its link. -/
theorem cleanupLoop_neutral (i : Fin pcbSize) (una : UInt32) (turns : ℕ) :
    Neutral (cleanupLoop i una turns) := by
  induction turns with
  | zero => exact .pure ()
  | succ turns ih =>
    refine .get_bind fun s => ?_
    cases s.queue (.retransmit i) with
    | nil => exact .pure ()
    | cons link links =>
      refine .ite (.pure ()) ((queuePop_linear (Queue.retransmit_ne i)).bind fun r => ?_)
      cases r with
      | none => exact Neutral.pure ()
      | some entry => exact (memoryFree_linear entry.page).bind fun _ => ih

theorem releaseStart_neutral (busy : Fin pcbSize → Bool) (i : Fin pcbSize) : Neutral (releaseStart busy i) :=
  .ite (.pure false) (.get_bind
    fun _ => (discard_neutral (Queue.retransmit_ne i) (fun _ => rfl) _).bind fun _ => .pure true)

theorem discard_succ (q : Queue) (page : q.Data → ℕ) (turns : ℕ) (s : Stack) :
    (discard q page (turns + 1)).run s = StateT.run (match ((queuePop q).run s).1 with
      | none => pure ()
      | some data => do
        memoryFree (page data)
        discard q page turns) ((queuePop q).run s).2 := rfl

/-- A loop that takes entries out of a queue shortens that queue and leaves the others. -/
theorem discard_queue (q : Queue) (page : q.Data → ℕ) (turns : ℕ) (s : Stack) :
    ((discard q page turns).run s).2.queue = update s.queue q ((s.queue q).drop turns) := by
  induction turns generalizing s with
  | zero => exact (update_eq_self q s.queue).symm
  | succ turns ih =>
    rcases queuePop_run q s with ⟨hqueue, hrun⟩ | ⟨link, links, hqueue, hrun⟩
    · rw [discard_succ, hrun, hqueue, List.drop_nil, ← hqueue, update_eq_self]
      rfl
    · rw [discard_succ, hrun, hqueue]
      refine (ih _).trans ?_
      change update (update s.queue q links) q ((update s.queue q links q).drop turns) = _
      rw [update_idem, update_self]
      rfl

section Release

variable (busy : Fin pcbSize → Bool)

theorem releaseStart_run (i : Fin pcbSize) (s : Stack) : ((releaseStart busy i).run s).1 = !busy i ∧
    ((releaseStart busy i).run s).2.queue = if busy i then s.queue else update s.queue
      (.retransmit i) [] := by
  cases hbusy : busy i with
  | true =>
    have hrun : (releaseStart busy i).run s = (false, s) := by
      rw [releaseStart, if_pos hbusy]
      rfl
    rw [hrun]
    exact ⟨rfl, rfl⟩
  | false =>
    have hrun : (releaseStart busy i).run s =
        (true, ((discard (.retransmit i) Buffer.page (s.queue (.retransmit i)).length).run s).2) := by
      rw [releaseStart, if_neg (by rw [hbusy]; exact Bool.false_ne_true)]
      rfl
    rw [hrun]
    refine ⟨rfl, (discard_queue _ _ _ _).trans ?_⟩
    rw [List.drop_length, if_neg Bool.false_ne_true]

/-- `memset` forgets nothing when both queues of the block are empty. -/
theorem releaseEnd_run {i : Fin pcbSize} (hretransmit : s.queue (.retransmit i) = [])
    (hbacklog : s.queue (.backlog i) = []) :
    ((releaseEnd i).run s).2 = s := by
  change setQueue (.backlog i) [] (setQueue (.retransmit i) [] s) = s
  have hfirst : setQueue (.retransmit i) [] s = s := by
    rw [setQueue, ← hretransmit, update_eq_self]
  rw [hfirst, setQueue, ← hbacklog, update_eq_self]

theorem releaseLoop_succ (i : Fin pcbSize) (stack : List (Fin pcbSize)) (s : Stack) (turns : ℕ) :
    (releaseLoop busy (turns + 1) (i :: stack)).run s =
      StateT.run (match ((queuePop (.backlog i)).run s).1 with
    | none => do
      releaseEnd i
      releaseLoop busy turns stack
    | some est => do
      let started ← releaseStart busy est
      releaseLoop busy turns (if started then est :: i :: stack else i :: stack))
        ((queuePop (.backlog i)).run s).2 := rfl

/-- A turn of the recursion: the block on top is done, or the first block of its backlog is next. -/
theorem releaseLoop_turn (i : Fin pcbSize) (stack : List (Fin pcbSize)) (s : Stack) :
    s.queue (.backlog i) = [] ∧ (∀ turns, (releaseLoop busy (turns + 1) (i :: stack)).run s =
      (releaseLoop busy turns stack).run ((releaseEnd i).run s).2) ∨
    ∃ link links s', s.queue (.backlog i) = link :: links ∧ s'.ledger = s.ledger ∧
      s'.queue = update s.queue (.backlog i) links ∧
      ∀ turns, (releaseLoop busy (turns + 1) (i :: stack)).run s =
        (releaseLoop busy turns (if !busy link.data then link.data :: i :: stack else i :: stack)).run
          ((releaseStart busy link.data).run s').2 := by
  rcases queuePop_run (.backlog i) s with ⟨hqueue, hrun⟩ | ⟨link, links, hqueue, hrun⟩
  · refine .inl ⟨hqueue, fun turns => ?_⟩
    rw [releaseLoop_succ, hrun]
    rfl
  · have hpop := queuePop_linear (Queue.backlog_ne i) s
    rw [hrun, zero_add] at hpop
    refine .inr ⟨link, links, _, hqueue, (hpop.trans (zero_add _)).symm, rfl, fun turns => ?_⟩
    rw [releaseLoop_succ, hrun, ← (releaseStart_run busy link.data _).1]
    rfl

/-- The recursion keeps the pages: the retransmit queues of the blocks on its stack have been
emptied. -/
theorem releaseLoop_ledger (turns : ℕ) (stack : List (Fin pcbSize)) (s : Stack)
    (hstack : ∀ i ∈ stack, s.queue (.retransmit i) = []) :
    ((releaseLoop busy turns stack).run s).2.ledger = s.ledger := by
  induction turns generalizing stack s with
  | zero => rfl
  | succ turns ih =>
    cases stack with
    | nil => rfl
    | cons i stack =>
      rcases releaseLoop_turn busy i stack s with ⟨hbacklog, hturn⟩ |
        ⟨link, links, s', -, hledger, hqueue, hturn⟩
      · rw [hturn, releaseEnd_run (hstack i List.mem_cons_self) hbacklog]
        exact ih stack s fun j hj => hstack j (List.mem_cons_of_mem i hj)
      · have hstart := releaseStart_neutral busy link.data s'
        rw [zero_add, zero_add, hledger] at hstart
        rw [hturn, hstart]
        refine ih _ _ fun j hj => ?_
        have hempty : j ∈ i :: stack → s'.queue (.retransmit j) = [] := by
          intro hmem
          rw [hqueue]
          exact hstack j hmem
        rw [(releaseStart_run busy link.data s').2]
        cases hbusy : busy link.data with
        | true =>
          rw [hbusy] at hj
          exact hempty hj
        | false =>
          rw [hbusy] at hj
          rw [if_neg Bool.false_ne_true]
          by_cases hself : j = link.data
          · rw [hself, update_self]
          · rw [update_of_ne fun h => hself (Queue.retransmit.inj h)]
            exact hempty ((List.mem_cons.mp hj).resolve_left hself)

/-- A release frees all that the queues of the blocks hold. -/
theorem tcpPcbRelease_neutral (i : Fin pcbSize) : Neutral (tcpPcbRelease busy i) := by
  refine .of_ledger fun s => ?_
  have hrun : (tcpPcbRelease busy i).run s = StateT.run (if ((releaseStart busy i).run s).1 then do
      let s ← get
      releaseLoop busy (2 * waiting s + 1) [i]
    else pure ()) ((releaseStart busy i).run s).2 := rfl
  have hstart := releaseStart_neutral busy i s
  rw [zero_add, zero_add] at hstart
  obtain ⟨hresult, hqueue⟩ := releaseStart_run busy i s
  rw [hrun, hstart, hresult]
  cases hbusy : busy i with
  | true => rfl
  | false =>
    refine releaseLoop_ledger busy _ [i] _ fun j hj => ?_
    rw [hqueue, hbusy, if_neg Bool.false_ne_true, List.mem_singleton.mp hj, update_self]

end Release

/-- The frames that a piece of TCP's work loses. -/
def TcpOp.lost (op : TcpOp) (s : Stack) : ℕ :=
  match op with
  | .outputSegment len src dst => (s.outputs 1 ((20 + len) % 2 ^ 16) src dst).toNat
  | _ => 0

/-- What an operation on a connection costs. -/
theorem tcpOp_emits (op : TcpOp) (s : Stack) : Emits (tcpOp o op) s (op.lost s) := by
  cases op with
  | outputSegment len src dst => exact (tcpOutputSegment_emits len src dst s).before fun _ => Neutral.pure ()
  | queueAdd i seq len => exact (tcpRetransmitQueueAdd_neutral i seq len).ignore.emits s
  | queueCleanup i una => exact (Neutral.get_bind fun _ => cleanupLoop_neutral i una _).emits s
  | establish parent i =>
    refine Neutral.emits ((queuePush_linear (Queue.backlog_ne parent) i).bind fun pushed => ?_) s
    cases pushed <;> exact Neutral.pure ()
  | take i =>
    refine Neutral.emits ((queuePop_linear (Queue.backlog_ne i)).bind fun r => ?_) s
    cases r <;> exact Neutral.pure ()
  | release i busy => exact (tcpPcbRelease_neutral busy i).emits s

/-- The pages that `ip_input` loses. -/
def ipLost (o : Outside) (s : Stack) (data : Bytes) (len dev : ℕ) : ℕ :=
  match Ip.ipInput (s.tables.iface dev) data (UInt64.ofNat len) with
  | .error _ => 0
  | .ok p =>
    match p.protocol with
    | .icmp => (s.echoes data p).toNat
    | .udp => (s.refuses data p).toNat
    | .tcp =>
      match Ip.tcpInput data p with
      | .ok _ => tally (tcpOp o) TcpOp.lost (o.reaction s.segments) { s with segments := s.segments + 1 }
      | .error _ => 0

/-- What a received IP datagram costs. -/
theorem ipInput_emits (data : Bytes) (len dev : ℕ) (s : Stack) :
    Emits (ipInput o data len dev) s (ipLost o s data len dev) := by
  have hgives : Emits (pure ()) s 0 := (Neutral.pure ()).emits s
  unfold ipLost
  refine .get_bind ?_
  cases Ip.ipInput (s.tables.iface dev) data (UInt64.ofNat len) with
  | error _ => exact hgives
  | ok p =>
    dsimp only
    cases p.protocol with
    | icmp => exact icmpInput_emits data p s
    | udp => exact udpInput_emits data p s
    | tcp =>
      dsimp only
      unfold tcpInput
      cases Ip.tcpInput data p with
      | error _ => exact hgives
      | ok _ => exact Adds.forM made tcpOp_emits (o.reaction s.segments) { s with segments := s.segments + 1 }

/-- The pages that a handler loses. -/
def Proto.lost (o : Outside) (s : Stack) : Proto → Bytes → ℕ → ℕ → ℕ
  | .ip, data, len, dev => ipLost o s data len dev
  | .arp, data, len, dev => (s.answers data len dev).toNat

/-- What the handler of a protocol costs. -/
theorem handler_emits (proto : Proto) (data : Bytes) (len dev : ℕ) (s : Stack) :
    Emits (proto.handler o data len dev) s (proto.lost o s data len dev) := by
  cases proto with
  | ip => exact ipInput_emits data len dev s
  | arp => exact arpInput_emits data len dev s

theorem netInputHandler_books (type : UInt16) (data : Bytes) (len dev : ℕ) :
    Linear Stack.books 0 (netInputHandler type data len dev) fun _ => 0 := by
  unfold netInputHandler
  cases registered.find? fun p => p.type = type with
  | none => exact .pure 0 fun _ => 0
  | some proto =>
    refine (memoryAlloc_books _).bind fun r => ?_
    cases r with
    | none => exact .pure (-1) fun _ => 0
    | some entry =>
      refine (queuePush_books (.protocol proto) ⟨entry, ⟨dev, len, data⟩⟩).bind fun pushed => ?_
      cases pushed with
      | true => exact .pure 0 fun _ => 0
      | false => exact (memoryFree_books entry).bind fun _ => .pure (-1) fun _ => 0

theorem etherInputHelper_books (dev : ℕ) (flen : ℤ) (frame : Bytes) :
    Linear Stack.books 0 (etherInputHelper o dev flen frame) fun _ => 0 := by
  refine (memoryAlloc_books _).bind fun r => ?_
  cases r with
  | none => exact .pure (-1) fun _ => 0
  | some buf =>
    have hdrop : Linear Stack.books ({buf}, 0) (do memoryFree buf; pure (-1 : ℤ)) fun _ => 0 :=
      (memoryFree_books buf).bind fun _ => .pure (-1) fun _ => 0
    refine .ite hdrop (.ite hdrop ?_)
    exact ((netInputHandler_books _ _ _ dev).keep ({buf}, 0)).bind fun ret =>
      (memoryFree_books buf).bind fun _ => .pure ret fun _ => 0

/-- The pages that are lost for the frames in a queue, each handled in the state that those before
it leave. -/
def drainLost (o : Outside) (proto : Proto) : ℕ → Stack → ℕ
  | 0, _ => 0
  | turns + 1, s =>
    match (queuePop (.protocol proto)).run s with
    | (none, _) => 0
    | (some entry, t) => proto.lost o t entry.body.data entry.body.len entry.body.dev + drainLost o proto turns
        ((do proto.handler o entry.body.data entry.body.len entry.body.dev; memoryFree entry.page : StateM Stack Unit).run t).2

theorem drain_succ (proto : Proto) (turns : ℕ) (s : Stack) :
    (drain o proto (turns + 1)).run s = StateT.run (match ((queuePop (.protocol proto)).run s).1 with
      | none => pure ()
      | some entry => do
        proto.handler o entry.body.data entry.body.len entry.body.dev
        memoryFree entry.page
        drain o proto turns) ((queuePop (.protocol proto)).run s).2 := rfl

/-- The loop over a queue loses what its handlers lose. -/
theorem drain_adds (proto : Proto) (turns : ℕ) (s : Stack) :
    Adds Stack.books (drain o proto turns) s (0, drainLost o proto turns s) := by
  induction turns generalizing s with
  | zero => exact (add_zero _).symm
  | succ turns ih =>
    have hpop := queuePop_books (.protocol proto) s
    rw [Adds, drain_succ, drainLost]
    cases hrun : (queuePop (.protocol proto)).run s with
    | mk r t =>
      rw [hrun, zero_add] at hpop
      rw [hpop]
      cases r with
      | none => exact ((add_zero _).trans (zero_add _)).symm
      | some entry =>
        have hhandled := (handler_emits (o := o) proto entry.body.data entry.body.len entry.body.dev t).books
        have hfreed := memoryFree_books entry.page
          ((proto.handler o entry.body.data entry.body.len entry.body.dev).run t).2
        rw [hhandled, zero_add] at hfreed
        have hsum (x y : Multiset ℕ × ℕ) (a b : ℕ) : x + (y + (0, a)) + (0, b) = x + y + (0, a + b) := by
          simp [add_assoc]
        exact (ih _).trans ((congrArg (· + _) hfreed.symm).trans (hsum _ _ _ _))

/-- The pages that are lost for one protocol. -/
def Proto.drained (o : Outside) (proto : Proto) (s : Stack) : ℕ :=
  drainLost o proto (s.queue (.protocol proto)).length s

/-- The soft interrupt loses what the loops over its queues lose. -/
theorem netSoftirqHandler_adds (s : Stack) :
    Adds Stack.books (netSoftirqHandler o) s (0, tally (drainQueue o) (Proto.drained o) registered s) := by
  have hturn (proto : Proto) (s : Stack) :
      Adds Stack.books (drainQueue o proto) s (AddMonoidHom.inr (Multiset ℕ) ℕ (proto.drained o s)) :=
    .get_bind (drain_adds proto _ s)
  exact Adds.forM _ hturn registered s

/-! ### Calls -/

theorem udpPcbRelease_neutral (i : Fin pcbSize) : Neutral (udpPcbRelease i) := by
  refine .of_get fun s => ?_
  split_ifs
  · rfl
  · exact (discard_neutral (Queue.udp_ne i) (fun _ => rfl) _).ledger_run _

theorem udpOpen_neutral : Neutral udpOpen := by
  refine .of_get fun s => ?_
  cases (List.finRange pcbSize).find? fun i => (s.udp i).state = .free with
  | none => rfl
  | some i => rfl

theorem udpBind_neutral (id : ℤ) (loc : Endpoint) : Neutral (udpBind id loc) := by
  refine .of_get fun s => ?_
  cases udpPcbGet s id with
  | none => rfl
  | some i =>
    split_ifs
    · rfl
    · rfl

/-- `udp_sendto` leads to a call of the driver's write. -/
def Stack.sendsTo (s : Stack) (id : ℤ) (len : ℕ) (foreign : Endpoint) : Bool :=
  (udpPcbGet s id).any fun i => (udpSourceAddr s (s.udp i).loc foreign.addr).any fun addr =>
    decide (udpLocalPort s (s.udp i).loc addr ≠ 0) && s.outputsUdp len addr foreign.addr

/-- `udp_sendto` costs a page exactly if it leads to a call of the driver's write. -/
theorem udpSendto_emits (id : ℤ) (len : ℕ) (foreign : Endpoint) (s : Stack) :
    Emits (udpSendto o id len foreign) s (s.sendsTo id len foreign).toNat := by
  have hgives : Emits (pure (-1) : StateM Stack ℤ) s 0 := (Neutral.pure (-1)).emits s
  unfold Stack.sendsTo
  refine .get_bind ?_
  cases udpPcbGet s id with
  | none => exact hgives
  | some i =>
    dsimp only [Option.any_some]
    cases udpSourceAddr s (s.udp i).loc foreign.addr with
    | none => exact hgives
    | some addr =>
      dsimp only [Option.any_some]
      by_cases hport : udpLocalPort s (s.udp i).loc addr = 0
      · rw [if_pos hport, decide_eq_false (not_not.mpr hport)]
        exact hgives
      · rw [if_neg hport, decide_eq_true hport, Bool.true_and]
        exact udpOutput_emits len addr foreign.addr
          (setUdp i { s.udp i with loc := { (s.udp i).loc with port := udpLocalPort s (s.udp i).loc addr } } s)

theorem udpClose_neutral (id : ℤ) : Neutral (udpClose id) := by
  refine .get_bind fun s => ?_
  cases udpPcbGet s id with
  | none => exact .pure (-1)
  | some i => exact (udpPcbRelease_neutral i).bind fun _ => .pure 0

/-- The page of a received datagram is freed. -/
theorem recvTurn_neutral (i : Fin pcbSize) (size : ℕ) : Neutral (recvTurn i size) := by
  refine (queuePop_linear (Queue.udp_ne i)).bind fun r => ?_
  cases r with
  | some entry => exact (memoryFree_linear entry.page).bind fun _ => Linear.pure _ fun _ => 0
  | none =>
    refine Neutral.of_get fun s => ?_
    split_ifs
    · rfl
    · rfl

theorem udpRecvfrom_neutral (id : ℤ) (size : ℕ) : Neutral (udpRecvfrom id size) := by
  refine .get_bind fun s => ?_
  cases udpPcbGet s id with
  | none => exact .pure _
  | some i => exact recvTurn_neutral i size

theorem udpResume_neutral (i : Fin pcbSize) (size : ℕ) : Neutral (udpResume i size) := by
  refine .of_get fun s => ?_
  split_ifs
  · rfl
  · exact ((udpPcbRelease_neutral i).bind fun _ => .pure (some (-1))).ledger_run _
  · exact (recvTurn_neutral i size).ledger_run _

/-! ### Runs -/

theorem kalloc_books : Linear Stack.books 0 kalloc fun _ => 0 := by
  refine books_of_pages ?_ fun s => ?_
  · refine (memoryAlloc_pages _).bind fun page => .modify fun s => ?_
    simp only [Stack.pages, Stack.held, ← Multiset.coe_add]
    abel
  · rcases memoryAlloc_run memoryMax s with hrun | ⟨page, free, -, hrun⟩
    · rw [kalloc, StateT.run_bind, hrun]
      rfl
    · rw [kalloc, StateT.run_bind, hrun]
      rfl

theorem kfree_books (page : ℕ) : Linear Stack.books 0 (kfree page) fun _ => 0 := by
  refine .modify fun s => ?_
  split_ifs with hpage
  · have hothers : (s.others : Multiset ℕ) = {page} + (s.others.erase page : List ℕ) :=
      Multiset.coe_eq_coe.mpr (List.perm_cons_erase hpage)
    refine congrArg (0 + ·) (Prod.ext ?_ rfl)
    simp only [Stack.books, Stack.pages, Stack.held, hothers, ← Multiset.cons_coe, ← Multiset.singleton_add]
    abel
  · rfl

theorem arpTimerHandler_neutral : Neutral (arpTimerHandler o) := by
  refine gettimeofday_neutral.bind fun now => .of_ledger fun s => ?_
  rfl

/-- The pages that an operation loses in the state it finds: the frames with which the driver's
write is called, and the datagrams that find no page for the link of their queue. -/
def Act.lost (o : Outside) (a : Act) (s : Stack) : ℕ :=
  match a with
  | .softirq => tally (drainQueue o) (Proto.drained o) registered s
  | .arpRequest dev | .arpReply dev => (s.transmits 0 dev arpSize).toNat
  | .ipOutput len src dst => (s.outputs 0 len src dst).toNat
  | .icmpOutput len src dst => (s.outputs 1 (8 + len) src dst).toNat
  | .udpOutput len src dst => (s.outputsUdp len src dst).toNat
  | .udpSendto id len foreign => (s.sendsTo id len foreign).toNat
  | .tcp ops => tally (tcpOp o) TcpOp.lost ops s
  | _ => 0

/-- An operation keeps the pages, and makes an event for each it loses. -/
theorem perform_adds (a : Act) (s : Stack) : Adds Stack.books (perform o a) s (0, a.lost o s) := by
  cases a with
  | receive dev flen frame =>
    exact ((etherInputHelper_books dev flen frame).bind fun _ => .pure () fun _ => 0).adds s
  | softirq => exact netSoftirqHandler_adds s
  | arpTimer => exact Emits.books (arpTimerHandler_neutral.emits s)
  | event =>
    have hkeeps : Linear Stack.books 0 udpEventHandler fun _ => 0 := .modify fun _ => rfl
    exact hkeeps.adds s
  | arpRequest dev | arpReply dev =>
      exact Emits.books ((netDeviceOutput_emits dev arpSize s).before fun _ => Neutral.pure ())
  | ipOutput len src dst => exact Emits.books ((ipOutput_emits len src dst s).before fun _ => Neutral.pure ())
  | icmpOutput len src dst =>
      exact Emits.books ((icmpOutput_emits len src dst s).before fun _ => Neutral.pure ())
  | udpOutput len src dst =>
      exact Emits.books ((udpOutput_emits len src dst s).before fun _ => Neutral.pure ())
  | udpOpen => exact Emits.books (udpOpen_neutral.ignore.emits s)
  | udpBind id loc => exact Emits.books ((udpBind_neutral id loc).ignore.emits s)
  | udpSendto id len foreign =>
      exact Emits.books ((udpSendto_emits id len foreign s).before fun _ => Neutral.pure ())
  | udpRecvfrom id size => exact Emits.books ((udpRecvfrom_neutral id size).ignore.emits s)
  | udpResume i size => exact Emits.books ((udpResume_neutral i size).ignore.emits s)
  | udpClose id => exact Emits.books ((udpClose_neutral id).ignore.emits s)
  | tcp ops => exact Emits.books (Adds.forM made tcpOp_emits ops s)
  | configure tables up =>
    have hkeeps : Linear Stack.books 0 (perform o (.configure tables up)) fun _ => 0 := .modify fun _ => rfl
    exact hkeeps.adds s
  | kalloc => exact kalloc_books.adds s
  | kfree page => exact (kfree_books page).adds s

/-- Operations keep the pages, and make an event for each they lose. -/
theorem performAll_books (o : Outside) (acts : List Act) (s : Stack) :
    (performAll o acts s).books = s.books + (0, tally (perform o) (Act.lost o) acts s) :=
  Adds.forM (AddMonoidHom.inr (Multiset ℕ) ℕ) perform_adds acts s

/-- Every page still has exactly one place: it is free, with the rest of the kernel, or reachable
from a queue. When the queues and the rest of the kernel have the same pages as before, so has the
free list. -/
structure Conserved (s t : Stack) : Prop where
  held : t.held = s.held
  once : t.held.Nodup
  free : ∑ q, linkPages q (t.queue q) = ∑ q, linkPages q (s.queue q) → t.others.Perm s.others →
    t.free.Perm s.free

/-- The pages are the same exactly if no operation loses one. -/
theorem held_performAll (acts : List Act) (hs : s.events = []) :
    (performAll o acts s).held = s.held ↔ tally (perform o) (Act.lost o) acts s = 0 := by
  have hbooks := performAll_books o acts s
  have hpages : (performAll o acts s).pages = s.pages := (congrArg Prod.fst hbooks).trans (add_zero _)
  have hevents : (performAll o acts s).events.length = tally (perform o) (Act.lost o) acts s := by
    refine (congrArg Prod.snd hbooks).trans ?_
    change s.events.length + _ = _
    rw [hs, List.length_nil, zero_add]
  have hspent : s.spent = 0 := by
    rw [Stack.spent, hs]
    rfl
  rw [Stack.pages, Stack.pages, hspent, add_zero] at hpages
  rw [← hpages, left_eq_add, Stack.spent, Multiset.coe_eq_zero, List.map_eq_nil_iff, ← hevents,
    List.length_eq_zero_iff]

theorem Conserved.of_held (hheld : t.held = s.held) (honce : s.held.Nodup) : Conserved s t where
  held := hheld
  once := hheld ▸ honce
  free := by
    intro hqueues hothers
    have hfree := hheld
    rw [Stack.held, Stack.held, hqueues, Multiset.coe_eq_coe.mpr hothers, add_left_inj, add_left_inj] at hfree
    exact Multiset.coe_eq_coe.mp hfree

/-- Over every sequence of operations, the pages are conserved exactly when each operation, in the
state that those before it leave, calls the driver's write with no frame and queues every received
datagram for which it finds a page. -/
theorem conserved_iff (o : Outside) (acts : List Act) (hs : s.events = []) (honce : s.held.Nodup) :
    Conserved s (performAll o acts s) ↔
      ∀ before a after, acts = before ++ a :: after → a.lost o (performAll o before s) = 0 := by
  refine Iff.trans ?_ tally_eq_zero_iff
  exact ⟨fun h => (held_performAll acts hs).mp h.held,
    fun h => .of_held ((held_performAll acts hs).mpr h) honce⟩

/-- A stack with three free pages and one interface, `10.0.0.1`, whose device is up. -/
def idle : Stack :=
  ⟨[1, 2, 3], [], fun _ => [],
    ⟨fun _ => 1500, fun _ => some tenNet, [0], [⟨0x0000000a, 0x000000ff, 0, 0⟩], none⟩, fun _ => true,
    List.replicate 32 .empty, fun _ => ⟨.free, ⟨0, 0⟩, 0, false⟩, [], 0, 0⟩

/-- A driver whose write succeeds for short frames. -/
def quietOutside : Outside := ⟨fun _ => [2, 0, 0, 0, 0, 1], fun _ => 0, fun _ => 60, fun _ => []⟩

/-- A datagram for port 7 of `10.0.0.1`. -/
def datagramFrame : Bytes :=
  frameOf [255, 255, 255, 255, 255, 255, 2, 0, 0, 0, 0, 2, 8, 0, 69, 0, 0, 30, 0, 1, 0, 0, 64, 17,
    102, 204, 10, 0, 0, 2,
    10, 0, 0, 1, 4, 210, 0, 7, 0, 10, 126, 149, 104, 105]

/-- A datagram is received by a process. -/
def echoed : List Act :=
  [.udpOpen, .udpBind 0 ⟨0, 0x0700⟩, .receive 0 44 datagramFrame, .softirq, .udpRecvfrom 0 100]

theorem idle_held : idle.held = {1, 2, 3} := by
  rfl

/-- No page is lost when a process receives a datagram. -/
theorem conserved_iff_echoed : Conserved idle (performAll quietOutside echoed idle) := by
  have hnone : tally (perform quietOutside) (Act.lost quietOutside) echoed idle = 0 := by decide +kernel
  exact (conserved_iff quietOutside echoed rfl (by rw [idle_held]; decide)).mpr (tally_eq_zero_iff.mp hnone)

/-- A datagram sent to the broadcast address costs a page: of three free pages two are left, and
nothing is queued. And so does a received datagram for which there is only one page. -/
theorem sent_frame_lost : ¬ Conserved idle (performAll quietOutside [.udpOutput 2 0 0xffffff0a] idle) ∧
    (performAll quietOutside [.udpOutput 2 0 0xffffff0a] idle).free = [1, 2] ∧
    ¬ Conserved idle (performAll quietOutside
      [.udpOpen, .udpBind 0 ⟨0, 0x0700⟩, .receive 0 44 datagramFrame, .kalloc, .softirq] idle) := by
  have hlost (acts : List Act) (hsome : tally (perform quietOutside) (Act.lost quietOutside) acts idle ≠ 0) :
      ¬ Conserved idle (performAll quietOutside acts idle) :=
        fun h => hsome ((held_performAll acts rfl).mp h.held)
  exact ⟨hlost _ (by decide +kernel), by decide +kernel, hlost _ (by decide +kernel)⟩

end Xv6.Buffers
