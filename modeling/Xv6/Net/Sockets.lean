import Xv6.Net.Settled

/-!
# Sockets and their blocks

`struct socket` of `kernel/net/socket.c` holds the index of a control block and nothing that says
which allocation of the block it stands for. The calls of `kernel/net/tcp.c` release blocks of
sockets that are still open when a connection cannot be set up or a segment does not leave, and
the index then names whatever socket gets the block next.
-/

namespace Xv6.Tcp

open Lib

namespace Net

/-- The calls on an open socket; `accept` names the socket that it makes. -/
inductive Op
  | bind (loc : Endpoint)
  | listen
  | connect (foreign : Endpoint) (env : ConnectEnv)
  | accept (new : ℕ)
  | send (data : List UInt8) (env : SendEnv)
  | receive (size : ℕ)
  | close (grant : Grant)

/-- The call of `kernel/net/tcp.c` with the descriptor of the socket. -/
def Op.call (desc : ℤ) : Op → Call
  | .bind loc => .bind desc loc
  | .listen => .listen desc
  | .connect foreign env => .connect desc foreign env
  | .accept _ => .accept desc
  | .send data env => .send desc data env
  | .receive size => .receive desc size
  | .close grant => .close desc grant

/-- The table with the open sockets: the descriptor of each, and the allocation of the block that
was made for it. -/
structure Sockets where
  net : Net
  /-- How often a block was allocated. -/
  gen : ℕ → ℕ
  sock : ℕ → Option (ℤ × ℕ)
  /-- The socket that the sleeping call of a process was made on. -/
  busy : ℕ → Option ℕ

namespace Sockets

def boot : Sockets := ⟨.boot, fun _ => 0, fun _ => none, fun _ => none⟩

/-- What happens to the sockets: `socket_alloc` by a process, a call on a socket, a sleeping call
that goes on (`new` is the socket that an `accept` makes), a segment, the timer, an interrupt. -/
inductive Act
  | socket (p h : ℕ)
  | call (p h : ℕ) (op : Op)
  | resume (p : ℕ) (env : SendEnv) (new : ℕ)
  | segment (seg : Segment) (env : SegmentEnv)
  | tick (due : ℕ → ℕ → Due)
  | interrupt

/-- The socket that would be made. -/
def Act.new : Act → Option ℕ
  | .socket _ h => some h
  | .call _ _ (.accept new) => some new
  | .resume _ _ new => some new
  | _ => none

def Act.opens : Act → Bool
  | .socket _ _ => true
  | _ => false

def Act.closes : Act → Option ℕ
  | .call _ h (.close _) => some h
  | _ => none

def Act.process : Act → Option ℕ
  | .socket p _ | .call p _ _ | .resume p _ _ => some p
  | _ => none

/-- The open socket that a call is about. -/
def Act.subject (s : Sockets) : Act → Option ℕ
  | .call _ h _ => some h
  | .resume p _ _ => s.busy p
  | _ => none

/-- The section of `kernel/net/tcp.c` that runs. -/
def Act.event (s : Sockets) : Act → Option Event
  | .socket p _ => some (.call p .openSocket)
  | .call p h op => (s.sock h).map fun f => .call p (op.call f.1)
  | .resume p env _ => some (.resume p env)
  | .segment seg env => some (.segment seg env)
  | .tick due => some (.tick due)
  | .interrupt => some .interrupt

/-- The socket that is made with its descriptor: `socket_alloc` takes what `tcp_open` returns as it
is, `socket_accept` does not take a -1. -/
def Act.made (s : Sockets) (a : Act) (ev : Event) : Outcome → Option (ℕ × ℤ)
  | .ret d => if a.opens ∨ (s.net.accepting ev).isSome ∧ 0 ≤ d then a.new.map (·, d) else none
  | _ => none

/-- The allocations after a section. -/
def genAfter (s : Sockets) (n' : Net) (j : ℕ) : ℕ :=
  if s.net.state j = .free ∧ n'.state j ≠ .free then s.gen j + 1 else s.gen j

def kept (s : Sockets) (a : Act) (h : ℕ) : Option (ℤ × ℕ) := if a.closes = some h then none else s.sock h

/-- The open sockets after a section. -/
def sockAfter (s : Sockets) (a : Act) (ev : Event) (o : Outcome) (n' : Net) (h : ℕ) : Option (ℤ × ℕ) :=
  match a.made s ev o with
  | some (k, d) => if h = k then some (d, s.genAfter n' d.toNat) else s.kept a h
  | none => s.kept a h

def busyAfter (s : Sockets) (a : Act) (n' : Net) (p : ℕ) : Option ℕ :=
  if a.process = some p then (n'.wait p).bind fun _ => a.subject s else s.busy p

def after (s : Sockets) (a : Act) (ev : Event) (o : Outcome) (n' : Net) : Sockets :=
  ⟨n', s.genAfter n', s.sockAfter a ev o n', s.busyAfter a n'⟩

def next (s : Sockets) (a : Act) : Option Sockets :=
  if (a.new.bind s.sock).isNone then
    (a.event s).bind fun ev => (ev.run s.net).map fun r => s.after a ev r.1 r.2
  else none

/-- A socket is closed with its last descriptor. A process that sleeps in a call on the socket still
has one. -/
def Step (s : Sockets) (a : Act) (s' : Sockets) : Prop :=
  s.next a = some s' ∧ ∀ h, a.closes = some h → ∀ p, s.net.wait p ≠ none → s.busy p ≠ some h

variable {s s' : Sockets} {a : Act} {ev : Event} {o : Outcome} {n' : Net}

theorem Step.cases (h : s.Step a s') : ∃ ev o n', a.event s = some ev ∧
    ev.run s.net = some (o, n') ∧ s' = s.after a ev o n' ∧
    (∀ h, a.new = some h → s.sock h = none) ∧
      ∀ h, a.closes = some h → ∀ p, s.net.wait p ≠ none → s.busy p ≠ some h := by
  obtain ⟨hnext, hguard⟩ := h
  simp only [next, Option.ite_none_right_eq_some, Option.bind_eq_some_iff, Option.map_eq_some_iff] at hnext
  obtain ⟨hnew, ev, hev, ⟨o, n'⟩, hrun, rfl⟩ := hnext
  refine ⟨ev, o, n', hev, hrun, rfl, fun h hh => ?_, hguard⟩
  simpa [hh] using hnew

variable {d : ℤ}

/-- The socket that is made is a new one. -/
theorem Act.new_of_made {k : ℕ} (h : a.made s ev o = some (k, d)) : a.new = some k := by
  unfold Act.made at h
  split at h
  · split at h
    · obtain ⟨k', hk, heq⟩ := Option.map_eq_some_iff.mp h
      cases heq
      exact hk
    · cases h
  · cases h

theorem sockAfter_cases {h : ℕ} {f : ℤ × ℕ} (hsock : s.sockAfter a ev o n' h = some f) :
    s.sock h = some f ∧ a.closes ≠ some h ∨ a.made s ev o = some (h, f.1) ∧
      f.2 = s.genAfter n' f.1.toNat := by
  have hkept : s.kept a h = some f → s.sock h = some f ∧ a.closes ≠ some h := by
    intro hk
    unfold kept at hk
    split at hk
    · cases hk
    · rename_i hopen
      exact ⟨hk, hopen⟩
  unfold sockAfter at hsock
  split at hsock
  · rename_i k d hmade
    split at hsock
    · rename_i hk
      cases hsock
      exact .inr ⟨hk ▸ hmade, rfl⟩
    · exact .inl (hkept hsock)
  · exact .inl (hkept hsock)

/-- A socket that is not closed stays as it is. -/
theorem sockAfter_of_open {h : ℕ} {f : ℤ × ℕ} (hsock : s.sock h = some f)
    (hnew : ∀ h, a.new = some h → s.sock h = none)
    (hcloses : a.closes ≠ some h) : s.sockAfter a ev o n' h = some f := by
  have hkept : s.kept a h = some f := (if_neg hcloses).trans hsock
  unfold sockAfter
  split
  · rename_i k d hmade
    rw [if_neg, hkept]
    rintro rfl
    exact absurd (hnew h (Act.new_of_made hmade)) (by simp [hsock])
  · exact hkept

/-- Some open socket stands for the block. -/
def Owned (s : Sockets) (i : ℕ) : Prop := ∃ h g, s.sock h = some ((i : ℤ), g)

/-- Every socket stands for the allocation of the block that was made for it, and no two for one. A
sleeping call works on the block of its socket. -/
structure Sound (s : Sockets) : Prop where
  table : Settled s.net s.Owned
  gen : ∀ h (i g : ℕ), s.sock h = some ((i : ℤ), g) → s.gen i = g
  inj : ∀ h h' (i g g' : ℕ), s.sock h = some ((i : ℤ), g) → s.sock h' = some ((i : ℤ), g') → h = h'
  wait : ∀ p w, s.net.wait p = some w → ∃ h g, s.busy p = some h ∧ s.sock h = some ((w.block : ℤ), g)

theorem sound_boot : Sound boot where
  table := settled_boot _ fun i hi => by
    obtain ⟨h, g, hsock⟩ := hi
    exact absurd hsock (by simp [boot])
  gen _ _ _ hsock := absurd hsock (by simp [boot])
  inj _ _ _ _ _ hsock := absurd hsock (by simp [boot])
  wait _ _ hw := absurd hw (by simp [boot, Net.boot])

theorem owned_after {i : ℕ} (h : (s.after a ev o n').Owned i) : s.Owned i ∨
    ∃ k, a.made s ev o = some (k, (i : ℤ)) := by
  obtain ⟨k, g, hsock⟩ := h
  obtain ⟨hbefore, -⟩ | ⟨hmade, -⟩ := sockAfter_cases hsock
  · exact .inl ⟨k, g, hbefore⟩
  · exact .inr ⟨k, hmade⟩

/-- What a section has to keep. -/
theorem Sound.after (h : Sound s) (hnew : ∀ h, a.new = some h → s.sock h = none)
    (hguard : ∀ h, a.closes = some h → ∀ p, s.net.wait p ≠ none → s.busy p ≠ some h)
    (htable : Settled n' (s.after a ev o n').Owned)
    (hmade : ∀ k (i : ℕ), a.made s ev o = some (k, (i : ℤ)) → ¬ s.Owned i)
    (hwait : ∀ q w, n'.wait q = some w → s.net.wait q = some w ∧ a.process ≠ some q ∨
      a.process = some q ∧ ∃ k g, a.subject s = some k ∧ s.sock k = some ((w.block : ℤ), g) ∧
        a.closes ≠ some k) :
    Sound (s.after a ev o n') where
  table := htable
  gen k i g hsock := by
    obtain ⟨hbefore, -⟩ | ⟨-, hgen⟩ := sockAfter_cases hsock
    · have hne := (h.table.usable i ⟨k, g, hbefore⟩).free
      change s.genAfter n' i = g
      rw [genAfter, if_neg fun hfree => hne hfree.1]
      exact h.gen k i g hbefore
    · exact hgen.symm
  inj k k' i g g' hsock hsock' := by
    obtain ⟨hbefore, -⟩ | ⟨hm, -⟩ := sockAfter_cases hsock <;> obtain ⟨hbefore', -⟩ | ⟨hm', -⟩ :=
      sockAfter_cases hsock'
    · exact h.inj k k' i g g' hbefore hbefore'
    · exact absurd ⟨k, g, hbefore⟩ (hmade k' i hm')
    · exact absurd ⟨k', g', hbefore'⟩ (hmade k i hm)
    · have hpair := Option.some.inj (hm.symm.trans hm')
      exact congrArg Prod.fst hpair
  wait q w hw := by
    obtain ⟨hold, hother⟩ | ⟨hself, k, g, hsubject, hsock, hopen⟩ := hwait q w hw
    · obtain ⟨k, g, hbusy, hsock⟩ := h.wait q w hold
      have hopen : a.closes ≠ some k := fun hc => hguard k hc q (by simp [hold]) hbusy
      refine ⟨k, g, ?_, sockAfter_of_open hsock hnew hopen⟩
      change s.busyAfter a n' q = some k
      rw [busyAfter, if_neg hother]
      exact hbusy
    · refine ⟨k, g, ?_, sockAfter_of_open hsock hnew hopen⟩
      change s.busyAfter a n' q = some k
      change n'.wait q = some w at hw
      rw [busyAfter, if_pos hself, hw]
      exact hsubject

theorem Act.made_eq_none (hnew : a.new = none) : a.made s ev o = none := by
  unfold Act.made
  split
  · rw [hnew]
    split <;> rfl
  · rfl

/-- Segments, the timer and interrupts. -/
theorem Sound.external (h : Sound s) (hprocess : a.process = none) (hnew : a.new = none)
    (hcloses : a.closes = none)
    (htable : Settled n' s.Owned) (hwait : n'.wait = s.net.wait) : Sound (s.after a ev o n') := by
  have hmade : a.made s ev o = none := Act.made_eq_none hnew
  refine h.after (by simp [hnew]) (by simp [hcloses]) (htable.mono fun i hi => ?_) (by simp [hmade])
    fun q w hw => ?_
  · obtain hbefore | ⟨k, hk⟩ := owned_after hi
    · exact hbefore
    · exact absurd hk (by simp [hmade])
  · rw [hwait] at hw
    exact .inl ⟨hw, by simp [hprocess]⟩

/-- `socket_alloc`. -/
theorem Sound.socket (h : Sound s) {p k : ℕ} (hnew : s.sock k = none) (hfree : s.net.wait p = none) :
    Sound (s.after (.socket p k) (.call p .openSocket) s.net.openSocket.1 s.net.openSocket.2) := by
  have hguard : ∀ k' (i : ℕ), (Act.socket p k).made s (.call p .openSocket) s.net.openSocket.1 =
    some (k', (i : ℤ)) →
      s.net.firstFree = some i := by
    intro k' i hmade
    unfold openSocket at hmade
    split at hmade
    · simp only [Act.made, Act.opens, true_or, if_true, Act.new, Option.map_some, Option.some.injEq,
        Prod.mk.injEq] at hmade
      omega
    · rename_i j hj
      simp only [Act.made, Act.opens, true_or, if_true, Act.new, Option.map_some, Option.some.injEq,
        Prod.mk.injEq,
        Nat.cast_inj] at hmade
      rw [hj, hmade.2]
  refine h.after (by simpa [Act.new] using hnew) (by simp [Act.closes]) ?_ (fun k' i hmade => ?_)
    fun q w hw => ?_
  · have hsub : ∀ j, (s.after (.socket p k)
      (.call p .openSocket) s.net.openSocket.1 s.net.openSocket.2).Owned j →
        s.Owned j ∨ s.net.firstFree = some j := fun j hj => (owned_after hj).imp_right
          fun ⟨k', hk'⟩ => hguard k' j hk'
    cases hfirst : s.net.firstFree with
    | none =>
      have hsame : s.net.openSocket.2 = s.net := by rw [Net.openSocket, hfirst]
      rw [hsame] at hsub ⊢
      exact h.table.mono fun j hj => (hsub j hj).resolve_right (by simp [hfirst])
    | some i =>
      have hstate := (firstFree_spec hfirst).1
      have hslot : s.net.openSocket.2.slot i = { s.net.slot i with
          pcb := { (s.net.slot i).pcb with state := .closed, mode := .socket }, interrupted :=
            false, wc := 0 } := by
        rw [Net.openSocket, hfirst]
        simp [openSocket_slot]
      refine h.table.worksOn (worksOn_call s.net p (c := .openSocket) hfirst) (h.table.free_alone hstate)
        (fun q _ _ => by rw [hslot]) (fun j hj => ?_) fun _ => ?_
      · rw [hfirst] at hsub
        exact (hsub j hj).symm.imp_left fun hi => (Option.some.inj hi).symm
      · rw [hslot]
        exact Pcb.usable_of_lost rfl
  · have hstate := (firstFree_spec (hguard k' i hmade)).1
    exact fun howned => (h.table.usable i howned).free hstate
  · rw [openSocket_wait] at hw
    refine .inl ⟨hw, fun hq => ?_⟩
    cases hq
    rw [hfree] at hw
    cases hw

/-- A section on the block of a socket that stays open. -/
theorem Sound.works (h : Sound s) {p k i g : ℕ} (hsock : s.sock k = some ((i : ℤ), g))
    (hsubject : a.subject s = some k)
    (hprocess : a.process = some p) (hcloses : a.closes = none) (hopens : a.opens = false)
    (hnew : ∀ h, a.new = some h → s.sock h = none) (hrun : ev.run s.net = some (o, n'))
    (haccept : ∀ q, s.net.accepting ev = some q → q = i) (hwait : ∀ w, s.net.wait p = some w → w.block = i)
    (hworks : WorksOn p i s.net n') (howner : SameOwner i s.net n') (husable : (n'.slot i).pcb.Usable) :
    Sound (s.after a ev o n') := by
  have howned : s.Owned i := ⟨k, g, hsock⟩
  have halone := h.table.alone i howned
  have hne : s.net.state i ≠ .free := (h.table.usable i howned).free
  have htable : Settled n' s.Owned :=
    h.table.worksOn hworks halone (fun q => h.table.sameOwner_mode hne howner q)
    (fun j hj => .inr hj) fun _ => husable
  have hpops : ∀ k' (j : ℕ), a.made s ev o = some (k', (j : ℤ)) → Pops i j s.net n' := by
    intro k' j hmade
    unfold Act.made at hmade
    split at hmade
    · split at hmade
      · rename_i hcond
        obtain ⟨haccepting, hd⟩ := hcond.resolve_left (by simp [hopens])
        obtain ⟨q, hq⟩ := Option.isSome_iff_exists.mp haccepting
        obtain ⟨m, -, heq⟩ := Option.map_eq_some_iff.mp hmade
        simp only [Prod.mk.injEq] at heq
        have hpop := accepting_pops hq hrun hd
        rw [haccept q hq, heq.2] at hpop
        exact hpop
      · cases hmade
    · cases hmade
  refine h.after hnew (by simp [hcloses]) ?_ (fun k' j hmade howned' => ?_) fun q w hw => ?_
  · cases hmade : a.made s ev o with
    | none =>
      refine htable.mono fun j hj => (owned_after hj).resolve_right ?_
      simp [hmade]
    | some m =>
      obtain ⟨k', d⟩ := m
      by_cases hd : ∃ j : ℕ, d = j
      · obtain ⟨j, rfl⟩ := hd
        obtain ⟨hus, hal⟩ := h.table.pops (hpops k' j hmade) hworks halone
        refine htable.extend hus hal fun i' hi' => (owned_after hi').imp_right fun ⟨m, hm⟩ => ?_
        rw [hmade] at hm
        simpa using (congrArg Prod.snd (Option.some.inj hm)).symm
      · refine htable.mono fun j hj => (owned_after hj).resolve_right ?_
        rintro ⟨m, hm⟩
        rw [hmade] at hm
        exact hd ⟨j, congrArg Prod.snd (Option.some.inj hm)⟩
  · have hmem : j ∈ (s.net.slot i).backlog := by
      rw [(hpops k' j hmade).backlog]
      exact List.mem_cons_self
    exact h.table.alone j howned' i hmem
  · have hown : w.block = i → a.process = some p ∧ ∃ k g, a.subject s = some k ∧
      s.sock k = some ((w.block : ℤ), g) ∧
        a.closes ≠ some k := fun hblock =>
          ⟨hprocess, k, g, hsubject, by rw [hblock]; exact hsock, by simp [hcloses]⟩
    obtain hold | ⟨rfl, hblock⟩ := hworks.wait q w hw
    · by_cases hq : q = p
      · subst hq
        exact .inr (hown (hwait w hold))
      · exact .inl ⟨hold, by rw [hprocess]; exact fun heq => hq (Option.some.inj heq).symm⟩
    · exact .inr (hown hblock)

/-- `socket_close`. -/
theorem Sound.close (h : Sound s) {p k : ℕ} {g : ℕ} (grant : Grant) (hsock : s.sock k = some (d, g))
    (hguard : ∀ q, s.net.wait q ≠ none → s.busy q ≠ some k) (hfree : s.net.wait p = none) :
    Sound (s.after (.call p k (.close grant)) (.call p (.close d grant)) (s.net.close d grant).1
      (s.net.close d grant).2) := by
  have hmade : (Act.call p k (.close grant)).made s (.call p (.close d grant))
    (s.net.close d grant).1 = none :=
    Act.made_eq_none rfl
  have hsub : ∀ j, (s.after (.call p k (.close grant)) (.call p (.close d grant)) (s.net.close d grant).1
      (s.net.close d grant).2).Owned j → s.Owned j ∧ d ≠ j := by
    rintro j ⟨k', g', hsock'⟩
    obtain ⟨hbefore, hopen⟩ | ⟨hm, -⟩ := sockAfter_cases hsock'
    · refine ⟨⟨k', g', hbefore⟩, ?_⟩
      rintro rfl
      exact hopen (congrArg some (h.inj k k' j g g' hsock hbefore))
    · exact absurd hm (by simp [hmade])
  refine h.after (by simp [Act.new]) ?_ ?_ (by simp [hmade]) fun q w hw => ?_
  · intro k' hk'
    cases hk'
    exact hguard
  · cases hget : s.net.get d with
    | none =>
      have hsame : (s.net.close d grant).2 = s.net := call_without_target s.net p (c := .close d grant) hget
      rw [hsame] at hsub ⊢
      exact h.table.mono fun j hj => (hsub j hj).1
    | some i =>
      obtain rfl := get_eq hget
      have howned : s.Owned i := ⟨k, g, hsock⟩
      have hne : s.net.state i ≠ .free := (h.table.usable i howned).free
      exact h.table.worksOn (writes_close s.net p grant hget).worksOn (h.table.alone i howned)
        (fun q => h.table.sameOwner_mode hne (writes_close s.net p grant hget).sameOwner q)
          (fun j hj => .inr (hsub j hj).1)
        fun hi => absurd rfl (hsub i hi).2
  · rw [close_wait] at hw
    refine .inl ⟨hw, fun hq => ?_⟩
    cases hq
    rw [hfree] at hw
    cases hw

/-- The block that a section works on. -/
def worked (n : Net) : Event → Option ℕ
  | .call _ c => n.target c
  | .resume p _ => (n.wait p).map Wait.block
  | _ => none

/-- Every call on an open socket works on the block that was allocated for this socket, and no call
changes a block of another open socket. -/
def Isolated (s : Sockets) : Prop :=
  ∀ (a : Act) ev o n', a.process.isSome → a.event s = some ev → ev.run s.net = some (o, n') →
    (∀ h i, a.subject s = some h → worked s.net ev = some i → s.sock h = some ((i : ℤ), s.gen i)) ∧
    ∀ h (i g : ℕ), a.subject s ≠ some h → s.sock h = some ((i : ℤ), g) → n'.slot i = s.net.slot i

/-- What keeps sockets apart. -/
structure Careful (s : Sockets) (a : Act) : Prop where
  /-- The segments of `connect` and `send` leave, and no sleep ends in a release. -/
  spared : ∀ ev, a.event s = some ev → s.net.Spared ev
  /-- Accepted sockets do not connect. -/
  fresh : ∀ p h foreign env (i g : ℕ), a = .call p h (.connect foreign env) → s.sock h = some ((i : ℤ), g) →
    (s.net.slot i).pcb.parent = none

def CarefulStep (s : Sockets) (a : Act) (s' : Sockets) : Prop := s.Step a s' ∧ s.Careful a

theorem target_eq {n : Net} {i : ℕ} {op : Op} (h : n.target (op.call d) = some i) : d = i := by
  have hget : ∀ {id : ℤ}, n.getSocket id = some i → id = i :=
    fun hsocket => get_eq (Option.filter_eq_some_iff.mp hsocket).1
  cases op with
  | bind | listen | connect | accept => exact hget h
  | send | receive | close => exact get_eq h

theorem accepting_call {n : Net} {p q : ℕ} {c : Call} (h : n.accepting (.call p c) = some q) :
    n.target c = some q := by
  cases c with
  | accept id => exact h
  | _ => simp [accepting] at h

theorem accepting_resume {n : Net} {p q : ℕ} {env : SendEnv} {w : Wait} (hw : n.wait p = some w)
    (h : n.accepting (.resume p env) = some q) : q = w.block := by
  simp only [accepting, hw] at h
  split at h
  · rename_i i hi
    cases hi
    exact (Option.some.inj h).symm
  · cases h

/-- A call on a socket other than `close`. -/
theorem Sound.call (h : Sound s) {p k : ℕ} {op : Op}
    (hnew : ∀ h, (Act.call p k op).new = some h → s.sock h = none)
    (hcloses : (Act.call p k op).closes = none) {g : ℕ} (hsock : s.sock k = some (d, g))
    (hfree : s.net.wait p = none)
    (hcareful : s.Careful (.call p k op)) :
    Sound (s.after (.call p k op) (.call p (op.call d)) ((op.call d).run s.net p).1
      ((op.call d).run s.net p).2) := by
  have hev : (Act.call p k op).event s = some (.call p (op.call d)) := by simp [Act.event, hsock]
  have hrun : (Event.call p (op.call d)).run s.net = some (((op.call d).run s.net p).1,
    ((op.call d).run s.net p).2) := by
    simp [Event.run, hfree]
  have hopen : op.call d ≠ .openSocket := by cases op <;> simp [Op.call]
  have hclose : ∀ id grant, op.call d ≠ .close id grant := by
    intro id grant
    cases op with
    | close => simp [Act.closes] at hcloses
    | _ => simp [Op.call]
  cases htarget : s.net.target (op.call d) with
  | none =>
    have hsame := call_without_target s.net p htarget
    have hmade : ∀ o, (Act.call p k op).made s (.call p (op.call d)) o = none := by
      intro o
      have haccepting : s.net.accepting (.call p (op.call d)) = none := by
        cases haccepting : s.net.accepting (.call p (op.call d)) with
        | none => rfl
        | some q => exact absurd (accepting_call haccepting) (by simp [htarget])
      unfold Act.made
      split
      · simp [Act.opens, haccepting]
      · rfl
    rw [hsame]
    refine h.after hnew (by simp [hcloses]) (h.table.mono fun j hj => (owned_after hj).resolve_right
      (by simp [hmade]))
      (by simp [hmade]) fun q w hw => .inl ⟨hw, fun hq => ?_⟩
    cases hq
    rw [hfree] at hw
    cases hw
  | some i =>
    obtain rfl := target_eq htarget
    have husable := h.table.usable i ⟨k, g, hsock⟩
    have hkeeps := (hcareful.spared _ hev).call husable.free htarget hopen hclose
    have hconnect : ∀ id foreign env, op.call (i : ℤ) = .connect id foreign env →
      (s.net.slot i).pcb.parent = none := by
      intro id foreign env hop
      cases op with
      | connect foreign' env' => exact hcareful.fresh p k foreign' env' i g rfl hsock
      | _ => simp [Op.call] at hop
    refine h.works hsock rfl rfl hcloses rfl hnew hrun (fun q hq => ?_) (fun w hw => ?_)
      (worksOn_call s.net p htarget)
      (writes_call s.net p htarget hopen).sameOwner (usable_call husable htarget hopen hclose hkeeps hconnect)
    · exact Option.some.inj ((accepting_call hq).symm.trans htarget)
    · rw [hfree] at hw
      cases hw

/-- A careful step keeps the sockets apart. -/
theorem CarefulStep.sound (hstep : s.CarefulStep a s') (h : Sound s) : Sound s' := by
  obtain ⟨hstep, hcareful⟩ := hstep
  obtain ⟨ev, o, n', hev, hrun, rfl, hnew, hguard⟩ := hstep.cases
  cases a with
  | socket p k =>
    cases hev
    obtain ⟨hfree, hcall⟩ := guarded hrun
    rw [Option.isNone_iff_eq_none] at hfree
    have hsound := h.socket (hnew k rfl) hfree
    change s.net.openSocket = (o, n') at hcall
    rw [hcall] at hsound
    exact hsound
  | call p k op =>
    obtain ⟨⟨d, g⟩, hsock, rfl⟩ := Option.map_eq_some_iff.mp hev
    obtain ⟨hfree, hcall⟩ := guarded hrun
    rw [Option.isNone_iff_eq_none] at hfree
    cases hcloses : (Act.call p k op).closes with
    | none =>
      have hsound := h.call hnew hcloses hsock hfree hcareful
      rw [hcall] at hsound
      exact hsound
    | some k' =>
      cases op with
      | close grant =>
        have hsound := h.close grant hsock (hguard k rfl) hfree
        change s.net.close d grant = (o, n') at hcall
        rw [hcall] at hsound
        exact hsound
      | _ => simp [Act.closes] at hcloses
  | resume p env new =>
    cases hev
    obtain ⟨w, hw, hresume⟩ := Option.map_eq_some_iff.mp hrun
    obtain ⟨k, g, hbusy, hsock⟩ := h.wait p w hw
    have husable := h.table.usable w.block ⟨k, g, hsock⟩
    have hfree := (hcareful.spared _ rfl).resume hw husable.free
    obtain rfl : (s.net.resume p env w).2 = n' := congrArg Prod.snd hresume
    have howner := (writes_resume s.net p env w).sameOwner
    refine h.works hsock hbusy rfl rfl rfl hnew hrun (fun q hq => accepting_resume hw hq) (fun w' hw' => ?_)
      (writes_resume s.net p env w).worksOn howner
      ((writes_resume s.net p env w).quiet.usable husable howner hfree)
    rw [Option.some.inj (hw'.symm.trans hw)]
  | segment seg env =>
    cases hev
    cases hrun
    refine h.external rfl rfl rfl ?_ (arrive_wait s.net seg env)
    unfold arrive
    split
    · exact h.table
    · exact h.table.arriveAt seg env _
  | tick due =>
    cases hev
    cases hrun
    exact h.external rfl rfl rfl (h.table.tick due) rfl
  | interrupt =>
    cases hev
    cases hrun
    exact h.external rfl rfl rfl h.table.interrupt rfl

theorem Sound.isolated (h : Sound s) : Isolated s := by
  intro a ev o n' hprocess hev hrun
  -- the block that is worked on is the one of the socket, or a free one for a new socket
  have hown : ∀ i, worked s.net ev = some i → (∃ p, WorksOn p i s.net n') ∧
      ((∃ k g, a.subject s = some k ∧ s.sock k = some ((i : ℤ), g)) ∨ a.subject s = none ∧
        s.net.state i = .free) := by
    intro i hworked
    cases a with
    | socket p k =>
      cases hev
      obtain rfl : (Call.openSocket.run s.net p).2 = n' := congrArg Prod.snd (guarded hrun).2
      exact ⟨⟨p, worksOn_call s.net p hworked⟩, .inr ⟨rfl, (firstFree_spec hworked).1⟩⟩
    | call p k op =>
      obtain ⟨⟨d, g⟩, hsock, rfl⟩ := Option.map_eq_some_iff.mp hev
      obtain rfl : ((op.call d).run s.net p).2 = n' := congrArg Prod.snd (guarded hrun).2
      obtain rfl := target_eq hworked
      exact ⟨⟨p, worksOn_call s.net p hworked⟩, .inl ⟨k, g, rfl, hsock⟩⟩
    | resume p env new =>
      cases hev
      obtain ⟨w, hw, hresume⟩ := Option.map_eq_some_iff.mp hrun
      obtain rfl : (s.net.resume p env w).2 = n' := congrArg Prod.snd hresume
      obtain ⟨k, g, hbusy, hsock⟩ := h.wait p w hw
      simp only [worked, hw, Option.map_some, Option.some.injEq] at hworked
      subst hworked
      exact ⟨⟨p, (writes_resume s.net p env w).worksOn⟩, .inl ⟨k, g, hbusy, hsock⟩⟩
    | _ => simp [Act.process] at hprocess
  refine ⟨fun k i hsubject hworked => ?_, fun k i g hsubject hsock => ?_⟩
  · obtain ⟨-, ⟨k', g, hsubject', hsock⟩ | ⟨hnone, -⟩⟩ := hown i hworked
    · obtain rfl : k' = k := Option.some.inj (hsubject'.symm.trans hsubject)
      rw [h.gen k' i g hsock]
      exact hsock
    · exact absurd hsubject (by simp [hnone])
  · cases hworked : worked s.net ev with
    | none =>
      have hsame : n' = s.net := by
        cases ev with
        | call p c =>
          obtain rfl : (c.run s.net p).2 = n' := congrArg Prod.snd (guarded hrun).2
          exact call_without_target s.net p hworked
        | resume p env =>
          obtain ⟨w, hw, -⟩ := Option.map_eq_some_iff.mp hrun
          simp [worked, hw] at hworked
        | _ => cases a <;> simp [Act.process, Act.event] at hprocess hev
      rw [hsame]
    | some j =>
      obtain ⟨⟨p, hworks⟩, hsock' | ⟨-, hfree⟩⟩ := hown j hworked
      · refine hworks.untouched ?_ (h.table.alone i ⟨k, g, hsock⟩)
        rintro rfl
        obtain ⟨k', g', hsubject', hsock'⟩ := hsock'
        rw [h.inj k' k i g' g hsock' hsock] at hsubject'
        exact hsubject hsubject'
      · refine hworks.untouched ?_ (h.table.alone i ⟨k, g, hsock⟩)
        rintro rfl
        exact (h.table.usable i ⟨k, g, hsock⟩).free hfree

/-- Along careful runs every call works on the block that was allocated for its socket and leaves
the blocks of the other sockets alone. -/
theorem isolated_of_careful {acts : List Act} (hrun : Run CarefulStep boot acts s) : Isolated s := by
  have hsound : Sound s := hrun.invariant (fun _ _ _ h hstep => hstep.sound h) sound_boot
  exact hsound.isolated

/-- Execute a section that closes nothing. -/
def nextOpen (s : Sockets) (a : Act) : Option Sockets := if a.closes.isNone then s.next a else none

theorem step_of_nextOpen (h : s.nextOpen a = some s') : s.Step a s' := by
  simp only [nextOpen, Option.ite_none_right_eq_some, Option.isNone_iff_eq_none] at h
  exact ⟨h.2, by simp [h.1]⟩

/-- Sections that can release a block: `connect`, `send`, and what follows a sleep. -/
def Act.mayRelease : Act → Bool
  | .call _ _ (.connect _ _) | .call _ _ (.send _ _) | .resume _ _ _ => true
  | _ => false

/-- Execute a section that closes and releases nothing. -/
def nextKept (s : Sockets) (a : Act) : Option Sockets := if a.mayRelease then none else s.nextOpen a

theorem carefulStep_of_nextKept (h : s.nextKept a = some s') : s.CarefulStep a s' := by
  simp only [nextKept, Option.ite_none_left_eq_some, Bool.not_eq_true] at h
  obtain ⟨hkept, hnext⟩ := h
  refine ⟨step_of_nextOpen hnext, fun ev hev => ?_, ?_⟩
  · cases a with
    | call p k op =>
      obtain ⟨⟨d, g⟩, -, rfl⟩ := Option.map_eq_some_iff.mp hev
      cases op with
      | connect | send => cases hkept
      | _ => trivial
    | resume => cases hkept
    | _ =>
      cases hev
      trivial
  · rintro p k foreign env i g rfl
    cases hkept

/-- One socket listens, another is only opened, and a connection is accepted as the third. -/
def serving : List Act :=
  [.socket 0 0, .call 0 0 (.bind hostEp), .call 0 0 .listen, .socket 1 1,
    .segment ⟨100, 0, 1000, flgSyn, [], hostEp, peerEp, Nat.zero_le _⟩ ⟨0, true⟩,
    .segment ⟨101, 1, 1000, flgAck, [], hostEp, peerEp, Nat.zero_le _⟩ ⟨0, true⟩, .call 0 0 (.accept 2)]

/-- A server opens a socket, listens and accepts: the run is careful. -/
theorem isolated_of_careful_serving : ∃ s, Run CarefulStep boot serving s ∧ s.sock 0 = some (0, 1) ∧
    s.sock 1 = some (1, 1) ∧
    s.sock 2 = some (2, 1) ∧ Isolated s := by
  obtain ⟨s, hrun, hfirst, hsecond, hthird⟩ : ∃ s, Run CarefulStep boot serving s ∧ s.sock 0 = some (0, 1) ∧
      s.sock 1 = some (1, 1) ∧ s.sock 2 = some (2, 1) :=
        exists_run carefulStep_of_nextKept (by decide +kernel)
  exact ⟨s, hrun, hfirst, hsecond, hthird, isolated_of_careful hrun⟩

/-- The SYN of the first socket does not leave, a second socket is opened and listens. -/
def refused : List Act :=
  [.socket 0 0, .call 0 0 (.connect peerEp ⟨some 1, 7, ⟨true, false⟩⟩), .socket 1 1, .call 1 1 .listen]

/-- The second socket got the block of the first, and closing the first frees it. -/
theorem close_frees_other_socket : ∃ s n', Run Step boot refused s ∧ s.sock 0 = some (0, 1) ∧
    s.sock 1 = some (0, 2) ∧
    s.gen 0 = 2 ∧ (Event.call 0 (.close 0 ⟨true, true⟩)).run s.net = some (.ret 0, n') ∧
      s.net.state 0 = .listen ∧
      n'.state 0 = .free ∧ ¬ Isolated s := by
  obtain ⟨s, hsteps, hfirst, hsecond, hgen, hlisten, hcloses⟩ : ∃ s, Run Step boot refused s ∧
    s.sock 0 = some (0, 1) ∧
      s.sock 1 = some (0, 2) ∧ s.gen 0 = 2 ∧ s.net.state 0 = .listen ∧
      ((Event.call 0 (.close 0 ⟨true, true⟩)).run s.net).map (fun r => (r.1, r.2.state 0)) =
        some (.ret 0, .free) :=
    exists_run step_of_nextOpen (by decide +kernel)
  obtain ⟨⟨o, n'⟩, hrun, hclosed⟩ := Option.map_eq_some_iff.mp hcloses
  simp only [Prod.mk.injEq] at hclosed
  obtain ⟨rfl, hfree⟩ := hclosed
  refine ⟨s, n', hsteps, hfirst, hsecond, hgen, hrun, hlisten, hfree, fun hisolated => ?_⟩
  have hev : (Act.call 0 0 (.close ⟨true, true⟩)).event s = some (.call 0 (.close 0 ⟨true, true⟩)) := by
    simp [Act.event, hfirst, Op.call]
  have hsame := (hisolated (.call 0 0 (.close ⟨true, true⟩)) _ _ _ rfl hev hrun).2 1 0 2
    (by simp [Act.subject]) hsecond
  rw [Net.state, hsame] at hfree
  exact absurd (hlisten.symm.trans hfree) (by decide)

end Sockets

end Net

end Xv6.Tcp
