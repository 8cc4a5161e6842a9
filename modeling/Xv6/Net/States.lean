import Xv6.Net.Retransmit
import Xv6.Net.Stream
import Xv6.Net.Table

/-!
# The states of a connection

Which changes of the state of a block RFC 793 knows, and which the sections of `tcp.c` make.
A section may pass through states; `Event.path` names those that matter. All changes are edges
of the diagram, or lead to CLOSED or FREE, but for `tcp_listen` and `tcp_connect`, which set
the state whatever it was.
-/

namespace Xv6.Tcp

open Lib Function

/-- The edges of the state diagram of RFC 793. -/
def State.edge : State → State → Bool
  | .closed, .listen | .closed, .synSent | .listen, .synSent | .listen, .synReceived | .listen, .closed
  | .synSent, .synReceived | .synSent, .established | .synSent, .closed
  | .synReceived, .established | .synReceived, .finWait1
  | .established, .finWait1 | .established, .closeWait
  | .finWait1, .finWait2 | .finWait1, .closing | .finWait2, .timeWait | .closing,
      .timeWait | .timeWait, .closed
  | .closeWait, .lastAck | .lastAck, .closed => true
  | _, _ => false

/-- A change that the protocol knows: an edge, a reset or a release, or the LISTEN to SYN-RECEIVED
edge that a listener leaves to a new block. -/
def State.follows (s t : State) : Bool :=
  s = t || s.edge t || t = .closed || t = .free || (s = .free && t = .synReceived)

/-- The block after the acknowledgment field of a segment. -/
def afterAck (env : Env) (seg : Segment) (c : Conn) : Conn :=
  match c.pcb.state with
  | .closed | .listen | .synSent => c
  | state =>
    if (state.checksWindow && !c.pcb.acceptable seg) || !isSet seg.flg flgAck then c else (ackField env seg c).1

/-- The states that the FIN of a segment leads to. -/
def State.fins : State → List State
  | .synReceived => [.synReceived, .closeWait]
  | .established => [.established, .closeWait]
  | .finWait1 => [.finWait1, .closing, .timeWait]
  | .finWait2 => [.finWait2, .timeWait]
  | s => [s]

theorem State.mem_fins (s : State) : s ∈ s.fins := by cases s <;> decide

theorem State.follows_of_acks (s : State) : ∀ t ∈ s.acks, s.follows t = true := by cases s <;> decide

/-- The block that a call sleeps on. -/
def Wait.block : Wait → ℕ
  | .accept i => i
  | .connect i _ => i
  | .send i _ _ => i
  | .receive i _ => i

/-- The states that a call sets. -/
def Call.sets : Call → State → Prop
  | .listen _, s => s = .listen
  | .connect _ _ _, s => s = .synSent ∨ s = .closed
  | .close _ _, _ => True
  | _, s => s = .closed

variable {i : ℕ}

namespace Net

/-- The block that `tcp_connect` sets to SYN-SENT. -/
def connects (n : Net) (id : ℤ) (env : ConnectEnv) : Option ℕ :=
  (n.getSocket id).filter fun i => (sourceAddr env (n.slot i).pcb).isSome && env.grant.segment

/-- The states that the block at `i` passes through. -/
def path (n : Net) (i : ℕ) : Event → List State
  | .segment seg env =>
    if n.select seg.localEp (some seg.foreignEp) = some i then
      [(afterAck ⟨i, env.random, n.firstFree.isSome, true⟩ seg ⟨(n.slot i).pcb, []⟩).pcb.state]
    else []
  | .call _ (.connect id _ env) => if n.connects id env = some i then [.synSent] else []
  | _ => []

/-- Every change of state is known to the protocol. -/
def Follows (n : Net) (ev : Event) (n' : Net) : Prop :=
  ∀ i, (n.state i :: n.path i ev ++ [n'.state i]).IsChain fun s t => s.follows t = true

/-- Data is accepted, so that the window shrinks, only in ESTABLISHED, FIN-WAIT-1 and FIN-WAIT-2; a
SYN opens the window of a listening block and brings no data. -/
def AcceptsData (n : Net) : Event → Prop
  | .segment seg env => ∀ i, n.select seg.localEp (some seg.foreignEp) = some i →
      let c : Conn := ⟨(n.slot i).pcb, []⟩
      let env : Env := ⟨i, env.random, n.firstFree.isSome, true⟩
      if n.state i = .listen then (segmentArrives env seg c).pcb.buf = c.pcb.buf
      else (segmentArrives env seg c).pcb.rcv.wnd ≠ c.pcb.rcv.wnd →
        (afterAck env seg c).pcb.state = .established ∨ (afterAck env seg c).pcb.state = .finWait1 ∨
          (afterAck env seg c).pcb.state = .finWait2
  | _ => True

/-- `tcp_listen` and `tcp_connect` do not move a connection that is established or closing. -/
def Spares (n : Net) (ev : Event) (n' : Net) : Prop :=
  match ev with
  | .call _ (.listen _) | .call _ (.connect _ _ _) =>
    ∀ i, (n.state i).started = true → n'.state i = n.state i
  | _ => True

/-- The release of a block takes no connection along that waits in a backlog. -/
def ReleasesAlone (n : Net) (i : ℕ) : Prop :=
  ∀ j, j ≠ i → (n.state j).started = true → (n.release i).state j = n.state j

/-- `tcp_listen` and `tcp_connect` meet a block that may go to LISTEN or to SYN-SENT. Where
`tcp_connect` gives up, because the SYN does not leave or the sleep is interrupted, the block goes
alone. -/
def Meets (n : Net) : Event → Prop
  | .call _ (.listen id) => ∀ i, n.getSocket id = some i → n.state i = .closed ∨ n.state i = .listen
  | .call _ (.connect id _ env) =>
    ∀ i, n.getSocket id = some i → (sourceAddr env (n.slot i).pcb).isSome = true →
      (n.state i = .closed ∨ n.state i = .listen ∨ n.state i = .synSent ∨
        n.state i = .synReceived ∧ env.grant.segment = false) ∧
      (env.grant.segment = false ∨ (n.slot i).interrupted = true → n.ReleasesAlone i)
  | _ => True

/-! ### Sections that change no state, or close blocks -/

/-- Every block keeps its state, or is closed or free. -/
def Quiet (n n' : Net) : Prop := ∀ i, n'.state i = n.state i ∨ n'.state i = .closed ∨ n'.state i = .free

variable {n n' n'' : Net}

theorem Quiet.refl (n : Net) : Quiet n n := fun _ => .inl rfl

theorem Quiet.trans (h : Quiet n n') (h' : Quiet n' n'') : Quiet n n'' := by
  intro i
  obtain hsame | hover := h' i
  · rw [hsame]
    exact h i
  · exact .inr hover

theorem slot_modify (n : Net) (i j : ℕ) (f : Slot → Slot) :
    (n.modify i f).slot j = if j = i then f (n.slot i) else n.slot j := by
  simp only [modify, update_apply]

/-- What a write of one block leaves alone. -/
theorem proj_modify {β : Type*} {n : Net} {f : Slot → Slot} (g : Slot → β) (j : ℕ)
    (h : ∀ s, g (f s) = g s := by intro _; rfl) : g ((n.modify i f).slot j) = g (n.slot j) := by
  rw [slot_modify]
  split_ifs with hj
  · rw [h, hj]
  · rfl

theorem state_modify (n : Net) (i j : ℕ) (f : Slot → Slot) :
    (n.modify i f).state j = if j = i then (f (n.slot i)).pcb.state else n.state j := by
  rw [state, slot_modify]
  split <;> rfl

theorem quiet_modify (n : Net) (i : ℕ) (f : Slot → Slot)
    (h : (f (n.slot i)).pcb.state = n.state i ∨ (f (n.slot i)).pcb.state = .closed ∨
    (f (n.slot i)).pcb.state = .free) :
    Quiet n (n.modify i f) := by
  intro j
  rw [state_modify]
  split_ifs with hj
  · exact hj ▸ h
  · exact .inl rfl

/-- A release clears blocks of the stack and blocks that wait for cleared ones. -/
theorem releaseLoop_other (fuel : ℕ) (stack : List ℕ) (slot : ℕ → Slot) (j : ℕ) :
    releaseLoop fuel stack slot j = slot j ∨
      (j ∈ stack ∨ ∃ q, j ∈ (slot q).backlog ∧ releaseLoop fuel stack slot q = .zero) ∧
        releaseLoop fuel stack slot j = .zero := by
  induction fuel generalizing stack slot j with
  | zero => exact .inl rfl
  | succ fuel ih =>
    cases stack with
    | nil => exact .inl rfl
    | cons k stack =>
      unfold releaseLoop
      split
      · exact (ih stack slot j).imp_right fun h => ⟨h.1.imp_left (List.mem_cons_of_mem k), h.2⟩
      · have hk : releaseLoop fuel ((slot k).backlog ++ stack) (update slot k .zero) k = .zero := by
          obtain h | ⟨-, h⟩ := ih ((slot k).backlog ++ stack) (update slot k .zero) k
          · rw [h, update_self]
          · exact h
        obtain h | ⟨hfrom, h⟩ := ih ((slot k).backlog ++ stack) (update slot k .zero) j
        · by_cases hjk : j = k
          · subst hjk
            exact .inr ⟨.inl List.mem_cons_self, hk⟩
          · left
            rw [h, update_of_ne hjk]
        · refine .inr ⟨?_, h⟩
          obtain hmem | ⟨q, hq, hzero⟩ := hfrom
          · obtain hmem | hmem := List.mem_append.mp hmem
            · exact .inr ⟨k, hmem, hk⟩
            · exact .inl (List.mem_cons_of_mem k hmem)
          · rw [update_apply] at hq
            split at hq
            · exact absurd hq List.not_mem_nil
            · exact .inr ⟨q, hq, hzero⟩

/-- A release leaves a block alone or clears it. -/
theorem releaseLoop_cases (fuel : ℕ) (stack : List ℕ) (slot : ℕ → Slot) (j : ℕ) :
    releaseLoop fuel stack slot j = slot j ∨ releaseLoop fuel stack slot j = .zero :=
  (releaseLoop_other fuel stack slot j).imp_right (·.2)

/-- A release reads the backlogs and the counts of sleepers only. -/
theorem releaseLoop_congr (fuel : ℕ) (stack : List ℕ) {slot slot' : ℕ → Slot}
    (hother : ∀ k, k ≠ i → slot' k = slot k) (hbacklog : (slot' i).backlog = (slot i).backlog)
    (hwc : (slot' i).wc = (slot i).wc) {j : ℕ} (hj : j ≠ i) :
    releaseLoop fuel stack slot' j = releaseLoop fuel stack slot j := by
  induction fuel generalizing stack slot slot' with
  | zero => exact hother j hj
  | succ fuel ih =>
    cases stack with
    | nil => exact hother j hj
    | cons k stack =>
      have hsame : (slot' k).backlog = (slot k).backlog ∧ (slot' k).wc = (slot k).wc := by
        obtain rfl | hk := eq_or_ne k i
        · exact ⟨hbacklog, hwc⟩
        · rw [hother k hk]
          exact ⟨rfl, rfl⟩
      unfold releaseLoop
      rw [hsame.1, hsame.2]
      split_ifs
      · exact ih stack hother hbacklog hwc
      · refine ih _ (fun l hl => ?_) ?_ ?_
        all_goals simp only [update_apply]
        · rw [hother l hl]
        · split_ifs <;> simp_all
        · split_ifs <;> simp_all

theorem quiet_release (n : Net) (i : ℕ) : Quiet n (n.release i) := by
  intro j
  obtain h | h := releaseLoop_cases (queued n.slot + 1) [i] n.slot j
  · exact .inl (congrArg (·.pcb.state) h)
  · exact .inr (.inr (congrArg (·.pcb.state) h))

/-! ### What the sections of calls write -/

/-- What a section of process `p` does to the table past its checks. It writes the block `i`, with
its owner and its backlog left alone but for blocks that are taken off, with a state out of `S`
where the state changes and endpoints out of `E` where those change; in the end it may release the
block. Only sleeps on that block begin. -/
inductive Writes (p i : ℕ) (S : State → Prop) (E : Endpoint × Endpoint → Prop) : Net → Net → Prop
  | done (n : Net) : Writes p i S E n n
  | release (n : Net) : Writes p i S E n (n.release i)
  | write {n n' : Net} (f : Slot → Slot) (wait : ℕ → Option Wait)
      (hstate : (f (n.slot i)).pcb.state = n.state i ∨ S (f (n.slot i)).pcb.state)
      (howner : (f (n.slot i)).pcb.parent = (n.slot i).pcb.parent ∧ (f (n.slot i)).pcb.mode =
        (n.slot i).pcb.mode)
      (hends : (f (n.slot i)).pcb.ends = (n.slot i).pcb.ends ∨ E (f (n.slot i)).pcb.ends)
      (hbacklog : (f (n.slot i)).backlog.Sublist (n.slot i).backlog)
      (hwait : ∀ q w, wait q = some w → n.wait q = some w ∨ q = p ∧ w.block = i)
      (rest : Writes p i S E { n.modify i f with wait := wait } n') : Writes p i S E n n'

section Writes

variable {p i : ℕ} {S S' : State → Prop} {E : Endpoint × Endpoint → Prop}

theorem Writes.mono (h : Writes p i S E n n') (hsub : ∀ s, S s → S' s) : Writes p i S' E n n' := by
  induction h with
  | done n => exact .done n
  | release n => exact .release n
  | write f wait hstate howner hends hbacklog hwait _ ih =>
    exact .write f wait (hstate.imp_right (hsub _)) howner hends hbacklog hwait ih

/-- A section that sets no state but CLOSED is quiet. -/
theorem Writes.quiet (h : Writes p i (· = .closed) E n n') : Quiet n n' := by
  induction h with
  | done n => exact .refl n
  | release n => exact quiet_release n i
  | @write n n' f wait hstate _ _ _ _ _ ih =>
    have hfirst : Quiet n { n.modify i f with wait := wait } := quiet_modify n i f (hstate.imp_right .inl)
    exact hfirst.trans ih

/-- A write of the control block with new endpoints. -/
theorem Writes.setEnds (pcb : Pcb) (hstate : pcb.state = n.state i ∨ S pcb.state)
    (howner : pcb.owner = (n.slot i).pcb.owner) (hends : pcb.ends = (n.slot i).pcb.ends ∨ E pcb.ends)
    (rest : Writes p i S E (n.setPcb i pcb) n') : Writes p i S E n n' :=
  .write (fun s => { s with pcb := pcb }) n.wait hstate (Prod.mk.inj howner) hends (.refl _)
    (fun _ _ => .inl) rest

/-- A write of the control block. -/
theorem Writes.setPcb (pcb : Pcb) (hstate : pcb.state = n.state i ∨ S pcb.state)
    (hidentity : pcb.identity = (n.slot i).pcb.identity) (rest : Writes p i S E (n.setPcb i pcb) n') :
    Writes p i S E n n' :=
  .setEnds pcb hstate (Prod.mk.inj hidentity).1 (.inl (Prod.mk.inj hidentity).2) rest

theorem writes_giveUp (n : Net) (p i : ℕ) (hclosed : S .closed) : Writes p i S E n (n.giveUp i).2 :=
  .setPcb { (n.slot i).pcb with state := .closed } (.inr hclosed) rfl (.release _)

theorem update_wait {wait : ℕ → Option Wait} {w : Option Wait} {P : Wait → Prop}
    (hw : ∀ v, w = some v → P v) (q : ℕ)
    (v : Wait) (h : update wait p w q = some v) : wait q = some v ∨ q = p ∧ P v := by
  rw [update_apply] at h
  split at h
  · rename_i hq
    exact .inr ⟨hq, hw v h⟩
  · exact .inl h

theorem writes_trySleep (n : Net) (p i : ℕ) {w : Wait} (hw : w.block = i) {failed : Outcome × Net}
    (h : Writes p i S E n failed.2) : Writes p i S E n (n.trySleep p i w failed).2 := by
  unfold trySleep
  split
  · exact h
  · exact .write (fun s => { s with wc := s.wc + 1 }) _ (.inl rfl) ⟨rfl, rfl⟩ (.inl rfl) (.refl _)
      (update_wait fun v hv => Option.some.inj hv ▸ hw) (.done _)

theorem writes_connectLoop (n : Net) (p i : ℕ) (seen : State) (hclosed : S .closed) :
    Writes p i S E n (n.connectLoop p i seen).2 := by
  unfold connectLoop
  split
  · exact writes_trySleep n p i rfl (writes_giveUp n p i hclosed)
  · split
    · exact .done n
    · split
      · exact writes_trySleep n p i rfl (writes_giveUp n p i hclosed)
      · exact writes_giveUp n p i hclosed

theorem writes_acceptLoop (n : Net) (p i : ℕ) : Writes p i S E n (n.acceptLoop p i).2 := by
  unfold acceptLoop
  split
  · rename_i j rest hbacklog
    refine .write (fun s => { s with backlog := rest }) n.wait (.inl rfl) ⟨rfl, rfl⟩ (.inl rfl) ?_
      (fun _ _ => .inl) (.done _)
    rw [hbacklog]
    exact List.sublist_cons_self j rest
  · exact writes_trySleep n p i rfl (.done n)

theorem receive_keeps (pcb : Pcb) (size : ℕ) : (Tcp.receive pcb size).2.state = pcb.state ∧
    (Tcp.receive pcb size).2.identity = pcb.identity := by
  unfold Tcp.receive
  split
  · split <;> exact ⟨rfl, rfl⟩
  · split <;> exact ⟨rfl, rfl⟩
  · exact ⟨rfl, rfl⟩

theorem writes_receiveLoop (n : Net) (p i size : ℕ) : Writes p i S E n (n.receiveLoop p i size).2 := by
  have hkeeps := receive_keeps (n.slot i).pcb size
  unfold receiveLoop
  split
  · exact .done n
  · exact writes_trySleep n p i rfl (.done n)
  · rename_i data pcb hreceive
    rw [hreceive] at hkeeps
    exact .setPcb pcb (.inl hkeeps.1) hkeeps.2 (.done _)

theorem outputIn_keeps (c : Conn) (grant : Grant) (flg : UInt8) (data : List UInt8) :
    (c.outputIn grant flg data).1.pcb.state = c.pcb.state ∧
      (c.outputIn grant flg data).1.pcb.identity = c.pcb.identity := by
  rw [outputIn_pcb]
  split
  · obtain ⟨-, -, h⟩ | ⟨-, h⟩ := queueAdd_cases c.pcb grant _ <;> rw [h] <;> exact ⟨rfl, rfl⟩
  · exact ⟨rfl, rfl⟩

/-- A block keeps its owner, its endpoints and its state, or is closed. -/
def KeptOrClosed (c d : Conn) : Prop :=
  (d.pcb.state = c.pcb.state ∨ d.pcb.state = .closed) ∧ d.pcb.identity = c.pcb.identity

/-- A turn of `tcp_send` keeps the state, or closes the connection. -/
theorem sendTurn_keeps (i : ℕ) (grant : Grant) (mss : Option ℕ) (data : List UInt8) (c : Conn) :
    KeptOrClosed c (sendTurn ⟨i, 0, false, true⟩ grant mss data c).2 := by
  have hchunk (chunk : List UInt8) : KeptOrClosed c (sendChunk ⟨i, 0, false, true⟩ grant chunk c).2 := by
    have hkeep := outputIn_keeps c grant (flgAck ||| flgPsh) chunk
    unfold sendChunk
    split
    · rename_i d hout
      rw [hout] at hkeep
      exact ⟨.inl hkeep.1, hkeep.2⟩
    · rename_i d hout
      rw [hout] at hkeep
      exact ⟨.inr rfl, hkeep.2⟩
  unfold sendTurn
  split
  · split
    · exact ⟨.inl rfl, rfl⟩
    · exact hchunk _
  · split
    · exact ⟨.inl rfl, rfl⟩
    · exact hchunk _
  · exact ⟨.inl rfl, rfl⟩

theorem writes_sendLoop (env : SendEnv) (p i fuel : ℕ) (data : List UInt8) (sent : ℕ) (n : Net) :
    Writes p i (· = .closed) E n (sendLoop env p i fuel data sent n).2 := by
  induction fuel generalizing data sent n with
  | zero => exact .done n
  | succ fuel ih =>
    have hkeeps := sendTurn_keeps i (env.grant fuel) env.mss data ⟨(n.slot i).pcb, []⟩
    unfold sendLoop
    split
    · exact .done n
    · exact .done n
    · split
      · exact writes_trySleep n p i rfl (.done n)
      · rename_i count c hturn
        rw [hturn] at hkeeps
        exact .setPcb c.pcb hkeeps.1 hkeeps.2 (ih _ _ _)
      · rename_i c hturn
        rw [hturn] at hkeeps
        refine .setPcb c.pcb hkeeps.1 hkeeps.2 ?_
        split
        · exact .release _
        · exact .done _

theorem writes_afterSleep (n : Net) (p i : ℕ) {interrupted goesOn : Net → Outcome × Net}
    (hfail : ∀ m, Writes p i S E m (interrupted m).2) (hgo : ∀ m, Writes p i S E m (goesOn m).2) :
    Writes p i S E n (n.afterSleep p i interrupted goesOn).2 := by
  have hwake : ∀ m, Writes p i S E (n.wake p i).2 m → Writes p i S E n m := fun m =>
    .write (fun s => { s with
      wc := s.wc - 1, interrupted := (n.slot i).interrupted && decide (s.wc - 1 ≠ 0) }) _ (.inl rfl)
        ⟨rfl, rfl⟩ (.inl rfl) (.refl _)
      (update_wait nofun)
  unfold afterSleep
  split
  · exact hwake _ (hfail _)
  · exact hwake _ (hgo _)

/-- A sleeping call goes on with the block it sleeps on. -/
theorem writes_resume (n : Net) (p : ℕ) (env : SendEnv) (w : Wait) :
    Writes p w.block (· = .closed) (fun _ => False) n (n.resume p env w).2 := by
  cases w with
  | accept i =>
    refine writes_afterSleep n p i .done fun m => ?_
    split
    · exact .release m
    · exact writes_acceptLoop m p i
  | connect i seen =>
    exact writes_afterSleep n p i (writes_giveUp · p i rfl) (writes_connectLoop · p i seen rfl)
  | send i data sent => exact writes_afterSleep n p i .done (writes_sendLoop env p i _ data sent)
  | receive i size => exact writes_afterSleep n p i .done (writes_receiveLoop · p i size)

/-- The block that a call works on: the one its identifier names, or the one that `tcp_open`
takes. -/
def target (n : Net) : Call → Option ℕ
  | .openSocket => n.firstFree
  | .bind id _ | .listen id | .connect id _ _ | .accept id => n.getSocket id
  | .send id _ _ | .receive id _ | .close id _ => n.get id

/-- A call without a target changes nothing. -/
theorem call_without_target (n : Net) (p : ℕ) {c : Call} (htarget : n.target c = none) :
    (c.run n p).2 = n := by
  cases c with
  | openSocket =>
    change n.firstFree = none at htarget
    simp only [Call.run, openSocket, htarget]
  | bind id loc =>
    change n.getSocket id = none at htarget
    simp only [Call.run, Net.bind, htarget]
  | listen id =>
    change n.getSocket id = none at htarget
    simp only [Call.run, listen, htarget]
  | connect id foreign env =>
    change n.getSocket id = none at htarget
    simp only [Call.run, connect, htarget]
  | accept id =>
    change n.getSocket id = none at htarget
    simp only [Call.run, accept, htarget]
  | send id data env =>
    change n.get id = none at htarget
    simp only [Call.run, send, htarget]
  | receive id size =>
    change n.get id = none at htarget
    simp only [Call.run, receive, htarget]
  | close id grant =>
    change n.get id = none at htarget
    simp only [Call.run, close, htarget]

/-- The endpoints that a call gives to its block: `tcp_bind` the local one, `tcp_connect` both. -/
def gives (n : Net) (i : ℕ) : Call → Endpoint × Endpoint → Prop
  | .bind _ loc, e => e = (loc, (n.slot i).pcb.foreignEp)
  | .connect _ foreign env, e => ∃ addr, sourceAddr env (n.slot i).pcb = some addr ∧
      e = (⟨addr, n.connectPort addr foreign (n.slot i).pcb⟩, foreign)
  | _, _ => False

theorem writes_connect (n : Net) (p : ℕ) {id : ℤ} (foreign : Endpoint) (env : ConnectEnv)
    (hget : n.getSocket id = some i) :
    Writes p i (Call.connect id foreign env).sets (n.gives i (.connect id foreign env)) n
      (n.connect p id foreign env).2 := by
  have hsyn (loc : Endpoint) : (sendSyn env loc foreign (n.slot i).pcb).1.pcb.state = n.state i ∧
      (sendSyn env loc foreign (n.slot i).pcb).1.pcb.identity = ((n.slot i).pcb.owner, (loc, foreign)) :=
    outputIn_keeps _ env.grant flgSyn []
  unfold connect
  rw [hget]
  dsimp only
  split
  · exact .done n
  · rename_i addr haddr
    split
    · rename_i c hsend
      obtain ⟨hstate, hidentity⟩ := hsyn _
      rw [hsend] at hstate hidentity
      obtain ⟨howner, hends⟩ := Prod.mk.inj hidentity
      exact .setEnds c.pcb (.inl hstate) howner (.inr ⟨addr, haddr, hends⟩) (writes_giveUp _ p i (.inr rfl))
    · rename_i c hsend
      obtain ⟨-, hidentity⟩ := hsyn _
      rw [hsend] at hidentity
      obtain ⟨howner, hends⟩ := Prod.mk.inj hidentity
      refine .setEnds _ (.inr (.inl ?_)) ?_ (.inr ⟨addr, haddr, ?_⟩)
        (writes_connectLoop _ p i .synSent (Or.inr rfl))
      · rfl
      · exact howner
      · exact hends

theorem sendFin_identity (c : Conn) (grant : Grant) (state : State) :
    (c.sendFin grant state).pcb.identity = c.pcb.identity :=
  (outputIn_keeps c grant (flgAck ||| flgFin) []).2

/-- What `tcp_close` does in each state. -/
theorem close_eq (n : Net) {id : ℤ} (grant : Grant) (hget : n.get id = some i) : (n.close id grant).2 =
    match n.state i with
    | .listen => (n.setState i .closed).release i
    | .established => n.setPcb i ((⟨(n.slot i).pcb, []⟩ : Conn).sendFin grant .finWait1).pcb
    | .closeWait => n.setPcb i ((⟨(n.slot i).pcb, []⟩ : Conn).sendFin grant .lastAck).pcb
    | _ => n := by
  simp only [close, hget, state]
  cases hstate : (n.slot i).pcb.state with
  | listen =>
    simp only [Tcp.close, hstate]
    rfl
  | _ => simp [Tcp.close, hstate, Conn.sendFin]

theorem writes_close (n : Net) (p : ℕ) {id : ℤ} (grant : Grant) (hget : n.get id = some i) :
    Writes p i (Call.close id grant).sets (n.gives i (.close id grant)) n (n.close id grant).2 := by
  rw [n.close_eq grant hget]
  split
  · exact .setPcb { (n.slot i).pcb with state := .closed } (.inr trivial) rfl (.release _)
  · exact .setPcb _ (.inr trivial) (sendFin_identity _ grant .finWait1) (.done _)
  · exact .setPcb _ (.inr trivial) (sendFin_identity _ grant .lastAck) (.done _)
  · exact .done n

/-- A call writes its target. -/
theorem writes_call (n : Net) (p : ℕ) {c : Call} (htarget : n.target c = some i) (hopen : c ≠ .openSocket) :
    Writes p i c.sets (n.gives i c) n (c.run n p).2 := by
  cases c with
  | openSocket => exact absurd rfl hopen
  | bind id loc =>
    change n.getSocket id = some i at htarget
    simp only [Call.run, Net.bind, htarget]
    split
    · exact .done n
    · exact .setEnds { (n.slot i).pcb with localEp := loc } (.inl rfl) rfl (.inr rfl) (.done _)
  | listen id =>
    change n.getSocket id = some i at htarget
    simp only [Call.run, listen, htarget]
    exact .setPcb { (n.slot i).pcb with state := .listen } (.inr rfl) rfl (.done _)
  | connect id foreign env => exact writes_connect n p foreign env htarget
  | accept id =>
    change n.getSocket id = some i at htarget
    simp only [Call.run, accept, htarget]
    split
    · exact writes_acceptLoop n p i
    · exact .done n
  | send id data env =>
    change n.get id = some i at htarget
    simp only [Call.run, send, htarget]
    exact writes_sendLoop env p i _ data 0 n
  | receive id size =>
    change n.get id = some i at htarget
    simp only [Call.run, receive, htarget]
    exact writes_receiveLoop n p i size
  | close id grant => exact writes_close n p grant htarget

theorem quiet_call (n : Net) (p : ℕ) {c : Call} (hopen : c ≠ .openSocket)
    (hsets : ∀ s, c.sets s → s = .closed) :
    Quiet n (c.run n p).2 := by
  cases htarget : n.target c with
  | none =>
    rw [call_without_target n p htarget]
    exact .refl n
  | some i => exact ((writes_call n p htarget hopen).mono hsets).quiet

end Writes

/-- The timer closes blocks and changes no other state. -/
theorem tick_state (n : Net) (due : ℕ → ℕ → Due) (i : ℕ) :
    (n.tick due).state i = n.state i ∨ (n.tick due).state i = .closed := by
  simp only [tick, state]
  split
  · refine timer_invariant (P := fun d => d.pcb.state = _ ∨ d.pcb.state = _) (.inl rfl) fun d e k hd => ?_
    cases due i k with
    | early => exact hd
    | late => exact hd
    | expired => exact .inr rfl
  · exact .inl rfl

theorem quiet_interrupt (n : Net) : Quiet n n.interrupt := by
  intro i
  left
  change (if i < pcbSize ∧ n.state i ≠
    .free then { n.slot i with interrupted := true } else n.slot i).pcb.state = n.state i
  split <;> rfl

theorem quiet_openSocket (n : Net) : Quiet n n.openSocket.2 := by
  unfold openSocket
  split
  · exact .refl n
  · rename_i i _
    have halloc : Quiet n (n.alloc i) := quiet_modify n i _ (.inr (.inl rfl))
    exact halloc.trans (quiet_modify (n.alloc i) i
      (fun s => { s with pcb := { s.pcb with mode := .socket } }) (.inl rfl))

/-! ### Sections that follow the diagram -/

theorem follows_self (s : State) : s.follows s = true := by
  simp [State.follows]

theorem state_setPcb (n : Net) (i j : ℕ) (pcb : Pcb) :
    (n.setPcb i pcb).state j = if j = i then pcb.state else n.state j :=
  state_modify n i j _

theorem Quiet.follows_of (hquiet : Quiet n n') {s : State} (h : s.follows (n.state i) = true) :
    s.follows (n'.state i) = true := by
  obtain hsame | hover | hover := hquiet i
  · rw [hsame]
    exact h
  · simp [State.follows, hover]
  · simp [State.follows, hover]

theorem follows_iff_of_path_nil {ev : Event} (hpath : ∀ i, n.path i ev = []) :
    n.Follows ev n' ↔ ∀ i, (n.state i).follows (n'.state i) = true := by
  simp [Follows, hpath]

theorem Quiet.follows (h : Quiet n n') {ev : Event} (hpath : ∀ i, n.path i ev = []) : n.Follows ev n' :=
  (follows_iff_of_path_nil hpath).mpr fun i => h.follows_of (follows_self (n.state i))

theorem setPcb_follows {pcb : Pcb} (h : (n.state i).follows pcb.state = true) (j : ℕ) :
    (n.state j).follows ((n.setPcb i pcb).state j) = true := by
  rw [state_setPcb]
  split
  · rename_i hj
    exact hj ▸ h
  · exact follows_self _

/-- `tcp_close` takes the edges of CLOSE. -/
theorem close_follows (n : Net) (id : ℤ) (grant : Grant) (j : ℕ) :
    (n.state j).follows ((n.close id grant).2.state j) = true := by
  cases hget : n.get id with
  | none =>
    simp only [close, hget]
    exact follows_self _
  | some i =>
    rw [n.close_eq grant hget]
    split
    · next hstate =>
      have hclosed : (n.state i).follows ({ (n.slot i).pcb with state := .closed } : Pcb).state = true := by
        rw [hstate]
        rfl
      exact (quiet_release _ i).follows_of (setPcb_follows hclosed j)
    · next hstate => exact setPcb_follows (by rw [hstate]; rfl) j
    · next hstate => exact setPcb_follows (by rw [hstate]; rfl) j
    · exact follows_self _

end Net

/-! ### What a segment does outside its block -/

/-- The effects that reach other blocks. -/
def Effect.outer : Effect → Bool
  | .backlog _ | .spawn _ => true
  | .output _ | .wakeup => false

def Conn.outer (c : Conn) : List Effect := c.fx.filter Effect.outer

section Outer

variable (env : Env) (seg : Segment) (c : Conn)

@[simp] theorem outer_emit (e : Effect) : (c.emit e).outer = c.outer ++ [e].filter Effect.outer := by
  simp [Conn.outer, Conn.emit]

@[simp] theorem outer_pcb (pcb : Pcb) : ({ c with pcb := pcb } : Conn).outer = c.outer := rfl

@[simp] theorem outer_setState (state : State) : (c.setState state).outer = c.outer := rfl

@[simp] theorem outer_outputSegment (seq ack : UInt32) (flg : UInt8) (wnd : UInt16) (data : List UInt8)
    (localEp foreignEp : Endpoint) :
    (c.outputSegment seq ack flg wnd data localEp foreignEp).outer = c.outer := by
  simp [Conn.outputSegment, Effect.outer]

@[simp] theorem outer_output (flg : UInt8) (data : List UInt8) : (c.output flg data).outer = c.outer := by
  simp [Conn.output, Conn.outputIn]

@[simp] theorem outer_resetAck : (c.resetAck seg).outer = c.outer := by
  simp [Conn.resetAck]

@[simp] theorem outer_release : (c.release env).outer = c.outer := by
  unfold Conn.release
  split <;> simp [Effect.outer]

theorem outer_joinBacklog : c.joinBacklog.outer = c.outer ++ (c.pcb.parent.map Effect.backlog).toList := by
  unfold Conn.joinBacklog
  cases c.pcb.parent <;> simp [Effect.outer]

theorem outer_closedArrives : (closedArrives seg c).outer = c.outer := by
  unfold closedArrives
  split
  · rfl
  · split <;> simp

theorem outer_synSentArrives : (synSentArrives seg c).outer = c.outer := by
  unfold synSentArrives
  dsimp only
  split
  · simp
  · split
    · split <;> simp [Effect.outer]
    · rfl

theorem outer_dataAck : (dataAck seg c).1.outer = c.outer := by
  unfold dataAck
  split
  · rfl
  · split
    · rfl
    · split <;> simp

theorem outer_establishedAck : (establishedAck seg c).1.outer = c.outer := by
  have hdata := outer_dataAck seg c
  unfold establishedAck
  split
  · rename_i d hack
    rw [hack] at hdata
    unfold finAcked
    split <;> exact hdata
  · rename_i d hack
    rw [hack] at hdata
    exact hdata

theorem outer_segmentText : (segmentText seg c).outer = c.outer := by
  obtain h | ⟨-, h⟩ := segmentText_cases seg c
  · rw [h]
  · rw [h]
    simp [takeText, Effect.outer]

theorem outer_finBit : (finBit seg c).outer = c.outer := by
  unfold finBit
  split
  · cases hstate : c.pcb.state <;> simp [hstate, Effect.outer]
  · rfl

/-- The block joins the backlog of its parent when the handshake is complete. -/
theorem outer_ackField : (ackField env seg c).1.outer =
    c.outer ++ if c.pcb.state = .synReceived ∧ c.pcb.snd.una ≤ seg.ack ∧ seg.ack ≤ c.pcb.snd.nxt then
      (c.pcb.parent.map Effect.backlog).toList else [] := by
  unfold ackField
  cases hstate : c.pcb.state with
  | synReceived =>
    dsimp only
    split
    · rename_i hack
      rw [outer_establishedAck, outer_joinBacklog]
      simp [Effect.outer, hack, Conn.setState]
    · rename_i hack
      simp [hack]
  | established | finWait1 | finWait2 | closeWait => simp [outer_establishedAck]
  | lastAck =>
    dsimp only
    split <;> simp
  | _ => simp

end Outer

/-! ### The states that a segment leads through -/

variable {c : Conn} {seg : Segment}

theorem segmentText_keeps (seg : Segment) (c : Conn) :
    (segmentText seg c).pcb.state = c.pcb.state ∧ (segmentText seg c).pcb.snd = c.pcb.snd := by
  obtain h | ⟨-, h⟩ := segmentText_cases seg c <;> rw [h] <;> exact ⟨rfl, rfl⟩

/-- Text is taken in three states. -/
theorem segmentText_wnd (seg : Segment) (h : (segmentText seg c).pcb.rcv.wnd ≠ c.pcb.rcv.wnd) :
    c.pcb.state = .established ∨ c.pcb.state = .finWait1 ∨ c.pcb.state = .finWait2 := by
  unfold segmentText at h
  split at h
  · exact .inl ‹_›
  · exact .inr (.inl ‹_›)
  · exact .inr (.inr ‹_›)
  · exact absurd rfl h

theorem finBit_stage (hne : c.pcb.state ≠ .synReceived)
    (hfin : c.pcb.state = .finWait1 → seg.ack ≠ c.pcb.snd.nxt) :
    c.pcb.state.follows (finBit seg c).pcb.state = true ∧ (finBit seg c).pcb.rcv.wnd = c.pcb.rcv.wnd := by
  unfold finBit
  split
  · cases hstate : c.pcb.state with
    | synReceived => exact absurd hstate hne
    | finWait1 =>
      have hnxt := hfin hstate
      simp [hstate, output_ack_eq, hnxt, State.follows, State.edge]
    | _ => simp [hstate, State.follows, State.edge]
  · exact ⟨Net.follows_self _, rfl⟩

section Segment

variable {env : Env} {seg : Segment} {c : Conn}

/-- A segment is refused before its acknowledgment field is read, or goes on. -/
theorem afterAck_cases (env : Env) (seg : Segment) (c : Conn)
    (hstate : c.pcb.state ≠ .closed ∧ c.pcb.state ≠ .listen ∧ c.pcb.state ≠ .synSent) :
    (afterAck env seg c = c ∧ (otherArrives env seg c).pcb.state = c.pcb.state ∧
      (otherArrives env seg c).pcb.rcv = c.pcb.rcv) ∨
    (afterAck env seg c = (ackField env seg c).1 ∧ otherArrives env seg c =
      if (ackField env seg c).2 then finBit seg
        (segmentText seg (ackField env seg c).1) else (ackField env seg c).1) := by
  have hafter : afterAck env seg c = if c.pcb.drops seg then c else (ackField env seg c).1 := by
    unfold afterAck
    split
    · exact absurd ‹_› hstate.1
    · exact absurd ‹_› hstate.2.1
    · exact absurd ‹_› hstate.2.2
    · rfl
  obtain ⟨hdrops, hpcb, -⟩ | ⟨hgoes, harrives⟩ := otherArrives_cases env seg c
  · exact .inl ⟨by simp [hafter, hdrops], by rw [hpcb], by rw [hpcb]⟩
  · exact .inr ⟨by simp [hafter, hgoes], harrives⟩

theorem synSentArrives_stage (seg : Segment) (c : Conn) (h : c.pcb.state = .synSent) :
    State.follows .synSent (synSentArrives seg c).pcb.state = true ∧
      (synSentArrives seg c).pcb.rcv.wnd = c.pcb.rcv.wnd := by
  have hwnd := fun a => (peerSyn_spec seg a c.pcb).2
  unfold synSentArrives
  dsimp only
  split
  · simp [h, Net.follows_self]
  · split
    · split
      · exact ⟨rfl, hwnd _⟩
      · exact ⟨rfl, hwnd _⟩
    · simp [h, Net.follows_self]

theorem listenArrives_stage (env : Env) (seg : Segment) (c : Conn) (h : c.pcb.state = .listen) :
    State.follows .listen (listenArrives env seg c).pcb.state = true ∧
      (listenArrives env seg c).pcb.buf = c.pcb.buf := by
  unfold listenArrives
  split
  · exact ⟨by rw [h]; rfl, rfl⟩
  · split
    · exact ⟨by rw [resetAck_pcb, h]; rfl, rfl⟩
    · split
      · split
        · split <;> exact ⟨by rw [h]; rfl, rfl⟩
        · exact ⟨rfl, rfl⟩
      · exact ⟨by rw [h]; rfl, rfl⟩

/-- What a segment does to the state and the window of its block, stage by stage. -/
structure Stages (before mid after : Pcb) : Prop where
  acked : before.state.follows mid.state = true
  ended : mid.state.follows after.state = true
  taken : before.state ≠ .listen → after.rcv.wnd ≠ before.rcv.wnd →
    mid.state = .established ∨ mid.state = .finWait1 ∨ mid.state = .finWait2

theorem otherArrives_stages (env : Env) (seg : Segment) (c : Conn) (hsleeper : env.sleeper = true)
    (hstate : c.pcb.state ≠ .closed ∧ c.pcb.state ≠ .listen ∧ c.pcb.state ≠ .synSent) :
    Stages c.pcb (afterAck env seg c).pcb (otherArrives env seg c).pcb := by
  obtain ⟨hafter, hkeep, hrcv⟩ | ⟨hafter, harrives⟩ := afterAck_cases env seg c hstate
  · rw [hafter]
    exact ⟨Net.follows_self _, hkeep ▸ Net.follows_self _, fun _ hwnd => absurd (by rw [hrcv]) hwnd⟩
  · obtain ⟨hsame, hedge, hgo, -⟩ := ackField_stage env seg c fun _ => hsleeper
    rw [hafter, harrives]
    split_ifs with htrue
    · obtain ⟨hne, hfin⟩ := hgo htrue
      obtain ⟨htext, hsnd⟩ := segmentText_keeps seg (ackField env seg c).1
      rw [← htext] at hne
      rw [← htext, ← hsnd] at hfin
      obtain ⟨hend, hwnd⟩ := finBit_stage hne hfin
      refine ⟨State.follows_of_acks _ _ hedge, htext ▸ hend, fun _ hnew => segmentText_wnd seg ?_⟩
      rw [hsame.rcv, ← hwnd]
      exact hnew
    · exact ⟨State.follows_of_acks _ _ hedge, Net.follows_self _,
        fun _ hwnd => absurd (by rw [hsame.rcv]) hwnd⟩

/-- A segment leads along edges, through the state after its acknowledgment field. -/
theorem segmentArrives_stages (env : Env) (seg : Segment) (c : Conn) (hsleeper : env.sleeper = true) :
    Stages c.pcb (afterAck env seg c).pcb (segmentArrives env seg c).pcb := by
  have hother := otherArrives_stages env seg c hsleeper
  have hafter (h : c.pcb.state = .closed ∨ c.pcb.state = .listen ∨ c.pcb.state = .synSent) :
    afterAck env seg c = c := by
    obtain h | h | h := h <;> simp only [afterAck, h]
  unfold segmentArrives
  cases hstate : c.pcb.state with
  | closed =>
    rw [hafter (.inl hstate), closedArrives_pcb]
    exact ⟨Net.follows_self _, Net.follows_self _, fun _ hwnd => absurd rfl hwnd⟩
  | listen =>
    rw [hafter (.inr (.inl hstate))]
    refine ⟨Net.follows_self _, ?_, fun hne => absurd hstate hne⟩
    rw [hstate]
    exact (listenArrives_stage env seg c hstate).1
  | synSent =>
    obtain ⟨hend, hwnd⟩ := synSentArrives_stage seg c hstate
    rw [hafter (.inr (.inr hstate))]
    exact ⟨Net.follows_self _, by rw [hstate]; exact hend, fun _ hnew => absurd hwnd hnew⟩
  | _ => exact hother (by simp [hstate])

theorem outer_otherArrives (env : Env) (seg : Segment) (c : Conn) :
    (otherArrives env seg c).outer = c.outer ∧ (otherArrives env seg c).pcb.state = c.pcb.state ∨
      (otherArrives env seg c).outer = (ackField env seg c).1.outer ∧ (otherArrives env seg c) =
        if (ackField env seg c).2 then finBit seg
          (segmentText seg (ackField env seg c).1) else (ackField env seg c).1 := by
  obtain ⟨-, hpcb, hkeep⟩ | ⟨-, harrives⟩ := otherArrives_cases env seg c
  · obtain hkeep | hkeep := hkeep <;> simp [hkeep]
  · refine .inr ⟨?_, harrives⟩
    rw [harrives]
    split
    · rw [outer_finBit, outer_segmentText]
    · rfl

theorem finBit_fins (seg : Segment) (c : Conn) : (finBit seg c).pcb.state ∈ c.pcb.state.fins := by
  unfold finBit
  split
  · cases hstate : c.pcb.state with
    | finWait1 =>
      simp only [hstate, output_state, setState_state]
      split <;> decide
    | _ => simp [hstate, State.fins]
  · exact State.mem_fins _

/-- The states that a segment for a connection leads to. -/
theorem otherArrives_states (env : Env) (seg : Segment) (c : Conn)
    (hsleeper : c.pcb.state = .lastAck → env.sleeper = true) :
    ∃ s ∈ c.pcb.state.acks, (otherArrives env seg c).pcb.state ∈ s.fins := by
  obtain ⟨-, hkeep⟩ | ⟨-, harrives⟩ := outer_otherArrives env seg c
  · exact ⟨_, State.mem_acks _, hkeep ▸ State.mem_fins _⟩
  · refine ⟨_, (ackField_stage env seg c hsleeper).2.1, ?_⟩
    rw [harrives]
    split
    · rw [← (segmentText_keeps seg _).1]
      exact finBit_fins seg _
    · exact State.mem_fins _

/-- What a segment does in the table beside its own block: nothing, a new block for a listener, or
an entry in the backlog of the parent. -/
inductive Reaches (env : Env) (seg : Segment) (before after : Pcb) : List Effect → Prop
  | nothing (h : before.state = .synReceived → before.parent.isSome → after.state = .synReceived) :
      Reaches env seg before after []
  | spawns (child : Pcb) (hlisten : before.state = .listen) (hkeep : after = before) (hroom : env.room = true)
      (hstate : child.state = .synReceived) (hmode : child.mode = .socket)
        (hparent : child.parent = some env.self)
      (hends : child.ends = (seg.localEp, seg.foreignEp)) : Reaches env seg before after [.spawn child]
  | joins (parent : ℕ) (hstate : before.state = .synReceived) (hparent : before.parent = some parent)
      (hleft : after.state ≠ .synReceived) : Reaches env seg before after [.backlog parent]

theorem listenArrives_reaches (env : Env) (seg : Segment) (pcb : Pcb) (h : pcb.state = .listen) :
    Reaches env seg pcb (listenArrives env seg ⟨pcb, []⟩).pcb (listenArrives env seg ⟨pcb, []⟩).outer := by
  have hnothing : ∀ after, Reaches env seg pcb after [] := fun after => .nothing (by simp [h])
  unfold listenArrives
  split
  · exact hnothing _
  · split
    · exact hnothing _
    · split
      · split
        · split_ifs with hroom
          · exact .spawns _ h rfl hroom rfl rfl rfl rfl
          · exact hnothing _
        · exact hnothing _
      · exact hnothing _

/-- The handshake of a block in SYN-RECEIVED is completed, or the segment is answered with a
reset. -/
theorem ackField_handshake (env : Env) (seg : Segment) (h : c.pcb.state = .synReceived) :
    if c.pcb.snd.una ≤ seg.ack ∧ seg.ack ≤ c.pcb.snd.nxt then (ackField env seg c).1.pcb.state = .established
    else ackField env seg c = (c.resetAck seg, false) := by
  simp only [ackField, h]
  split
  · obtain ⟨snd, queue, state, hpcb, hnext⟩ :=
      establishedAck_pcb seg ((c.setState .established).emit .wakeup).joinBacklog
    simp only [joinBacklog_pcb, emit_pcb, setState_state, reduceCtorEq, false_and, or_false] at hnext
    rw [hpcb, hnext]
  · rfl

theorem otherArrives_reaches (env : Env) (seg : Segment) (pcb : Pcb) :
    Reaches env seg pcb (otherArrives env seg ⟨pcb, []⟩).pcb (otherArrives env seg ⟨pcb, []⟩).outer := by
  obtain ⟨houter, hkeep⟩ | ⟨houter, harrives⟩ := outer_otherArrives env seg ⟨pcb, []⟩
  · rw [houter]
    exact .nothing fun hstate _ => hkeep.trans hstate
  · have hfield := outer_ackField env seg ⟨pcb, []⟩
    have hshake := ackField_handshake env seg (c := ⟨pcb, []⟩)
    rw [houter, hfield, harrives]
    by_cases hok : pcb.state = .synReceived ∧ pcb.snd.una ≤ seg.ack ∧ seg.ack ≤ pcb.snd.nxt
    · rw [if_pos hok]
      have hest := hshake hok.1
      rw [if_pos hok.2] at hest
      have hleft : (finBit seg (segmentText seg (ackField env seg ⟨pcb, []⟩).1)).pcb.state ≠
        .synReceived := by
        have htext := (segmentText_keeps seg (ackField env seg ⟨pcb, []⟩).1).1.trans hest
        unfold finBit
        split <;> simp [htext]
      cases hparent : pcb.parent with
      | none => exact .nothing (by simp [hparent])
      | some parent =>
        refine .joins parent hok.1 hparent ?_
        split
        · exact hleft
        · rw [hest]
          decide
    · rw [if_neg hok]
      refine .nothing fun hstate _ => ?_
      have hreset := hshake hstate
      rw [if_neg (fun hack => hok ⟨hstate, hack⟩)] at hreset
      rw [hreset]
      exact hstate

theorem segmentArrives_reaches (env : Env) (seg : Segment) (pcb : Pcb) :
    Reaches env seg pcb (segmentArrives env seg ⟨pcb, []⟩).pcb (segmentArrives env seg ⟨pcb, []⟩).outer := by
  have hother := otherArrives_reaches env seg pcb
  unfold segmentArrives
  cases hstate : pcb.state with
  | closed =>
    rw [outer_closedArrives]
    exact .nothing (by simp [hstate])
  | listen => exact listenArrives_reaches env seg pcb hstate
  | synSent =>
    rw [outer_synSentArrives]
    exact .nothing (by simp [hstate])
  | _ => exact hother

end Segment

namespace Net

variable {n n' : Net}

/-- Only some effects reach the table. -/
theorem foldl_effect (i : ℕ) (free : Option ℕ) (push : Bool) (fx : List Effect) (m : Net) :
    fx.foldl (effect i free push) m = (fx.filter Effect.outer).foldl (effect i free push) m := by
  induction fx generalizing m with
  | nil => rfl
  | cons e fx ih =>
    cases e with
    | output | wakeup => exact ih m
    | backlog parent => exact ih _
    | spawn pcb => exact ih _

/-- The block at `i` after a segment. -/
def after (n : Net) (seg : Segment) (env : SegmentEnv) (i : ℕ) : Conn :=
  segmentArrives ⟨i, env.random, n.firstFree.isSome, true⟩ seg ⟨(n.slot i).pcb, []⟩

/-- The table after a segment for the block at `i`, before a release. -/
def reacted (n : Net) (seg : Segment) (env : SegmentEnv) (i : ℕ) : Net :=
  (n.after seg env i).outer.foldl (effect i n.firstFree env.push) (n.setPcb i (n.after seg env i).pcb)

theorem arriveAt_eq (n : Net) (seg : Segment) (env : SegmentEnv) (i : ℕ) : n.arriveAt seg env i =
    if n.state i = .lastAck ∧ (n.after seg env i).pcb.state = .closed then (n.reacted seg env i).release i
    else n.reacted seg env i := by
  rw [reacted, Conn.outer, ← foldl_effect]
  rfl

theorem firstFree_spec {j : ℕ} (h : n.firstFree = some j) : n.state j = .free ∧ j < pcbSize := by
  have hstate := List.find?_some h
  have hmem := List.mem_of_find?_eq_some h
  exact ⟨by simpa using hstate, List.mem_range.mp hmem⟩

theorem after_reaches (n : Net) (seg : Segment) (env : SegmentEnv) (i : ℕ) :
    Reaches ⟨i, env.random, n.firstFree.isSome, true⟩ seg (n.slot i).pcb (n.after seg env i).pcb
      (n.after seg env i).outer :=
  segmentArrives_reaches _ seg _

/-- A segment with these endpoints for the block `i` leaves `pcb` there. It does not touch the rest
of the table but for a free block, which may become a connection of the listener `i`, and for the
backlog of its parent, which the block itself may join. -/
structure Reacts (ends : Endpoint × Endpoint) (i : ℕ) (pcb : Pcb) (n m : Net) : Prop where
  own : (m.slot i).pcb = pcb
  other : ∀ j, j ≠ i → n.state j ≠ .free → (m.slot j).pcb = (n.slot j).pcb
  born : ∀ j, j ≠ i → n.state j = .free → (m.slot j).pcb = (n.slot j).pcb ∨
    m.state j = .synReceived ∧ (m.slot j).pcb.mode = .socket ∧ n.state i = .listen ∧
      (m.slot j).pcb.ends = ends
  wc : ∀ j, n.state j ≠ .free → (m.slot j).wc = (n.slot j).wc
  backlog : ∀ q, (m.slot q).backlog = (n.slot q).backlog ∨ (m.slot q).backlog = (n.slot q).backlog ++ [i] ∧
    n.state i = .synReceived ∧ (n.slot i).pcb.parent = some q ∧ pcb.state ≠ .synReceived
  wait : m.wait = n.wait

/-- Only the block itself joins a backlog. -/
theorem Reacts.joins {ends : Endpoint × Endpoint} {pcb : Pcb} {m : Net} (h : Reacts ends i pcb n m)
    {q k : ℕ} (hk : k ∈ (m.slot q).backlog) :
    k ∈ (n.slot q).backlog ∨ k = i ∧ n.state i = .synReceived ∧ (n.slot i).pcb.parent = some q ∧
      pcb.state ≠ .synReceived := by
  obtain hsame | ⟨hjoin, hrest⟩ := h.backlog q
  · exact .inl (hsame ▸ hk)
  · rw [hjoin] at hk
    exact (List.mem_append.mp hk).imp_right fun hk => ⟨List.mem_singleton.mp hk, hrest⟩

theorem reacts_setPcb (n : Net) (ends : Endpoint × Endpoint) (i : ℕ) (pcb : Pcb) :
    Reacts ends i pcb n (n.setPcb i pcb) := by
  have hslot : ∀ j, (n.setPcb i pcb).slot j = if j = i then { n.slot i with pcb := pcb } else n.slot j :=
    fun j => slot_modify n i j _
  refine ⟨by rw [hslot, if_pos rfl], fun j hj _ => by rw [hslot, if_neg hj], fun j hj hfree => .inl ?_,
    fun j _ => proj_modify Slot.wc j, fun q => .inl (proj_modify Slot.backlog q), rfl⟩
  rw [hslot, if_neg hj]

/-- A free block becomes a new one. -/
theorem Reacts.spawn {pcb child : Pcb} {m : Net} {k : ℕ} (h : Reacts child.ends i pcb n m)
    (hfree : n.state k = .free)
    (hik : i ≠ k) (hstate : child.state = .synReceived) (hmode : child.mode = .socket)
    (hlisten : n.state i = .listen) :
    Reacts child.ends i pcb n ((m.alloc k).setPcb k child) := by
  have hslot : ∀ j, ((m.alloc k).setPcb k child).slot j = if j = k then ⟨child, (m.slot k).backlog,
    false, 0⟩ else m.slot j := by
    intro j
    simp only [setPcb, alloc, slot_modify]
    split <;> simp
  have hne : ∀ j, n.state j ≠ .free → j ≠ k := by
    rintro j hj rfl
    exact hj hfree
  refine ⟨?_, fun j hj hjf => ?_, fun j hj hjf => ?_, fun j hjf => ?_, fun q => ?_, h.wait⟩
  · rw [hslot, if_neg hik]
    exact h.own
  · rw [hslot, if_neg (hne j hjf)]
    exact h.other j hj hjf
  · rw [state, hslot]
    split
    · exact .inr ⟨hstate, hmode, hlisten, rfl⟩
    · exact h.born j hj hjf
  · rw [hslot, if_neg (hne j hjf)]
    exact h.wc j hjf
  · rw [hslot]
    split_ifs with hq
    · exact hq ▸ h.backlog q
    · exact h.backlog q

/-- The block joins the backlog of its parent. -/
theorem Reacts.join {ends : Endpoint × Endpoint} {pcb : Pcb} {m : Net} {parent : ℕ}
    (h : Reacts ends i pcb n m) (hstate : n.state i = .synReceived)
    (hparent : (n.slot i).pcb.parent = some parent) (hleft : pcb.state ≠ .synReceived)
    (hbacklog : (m.slot parent).backlog = (n.slot parent).backlog) :
    Reacts ends i pcb n (m.modify parent fun s => { s with backlog := s.backlog ++ [i] }) := by
  have hslot := slot_modify m parent (f := fun s => { s with backlog := s.backlog ++ [i] })
  have hpcb : ∀ j, ((m.modify parent fun s => { s with backlog := s.backlog ++ [i] }).slot j).pcb =
    (m.slot j).pcb :=
    fun j => proj_modify Slot.pcb j
  refine ⟨(hpcb i).trans h.own, fun j hj hjf => (hpcb j).trans (h.other j hj hjf), fun j hj hjf => ?_,
    fun j hjf => (proj_modify Slot.wc j).trans (h.wc j hjf), fun q => ?_, h.wait⟩
  · rw [state, hpcb]
    exact h.born j hj hjf
  · rw [hslot]
    split_ifs with hq
    · subst hq
      exact .inr ⟨by rw [← hbacklog], hstate, hparent, hleft⟩
    · exact h.backlog q

theorem reacts_segment (n : Net) (seg : Segment) (env : SegmentEnv) (i : ℕ) :
    Reacts (seg.localEp, seg.foreignEp) i (n.after seg env i).pcb n (n.reacted seg env i) := by
  have hreach := n.after_reaches seg env i
  have hset := reacts_setPcb n (seg.localEp, seg.foreignEp) i (n.after seg env i).pcb
  unfold reacted
  generalize (n.after seg env i).outer = fx at hreach
  cases hreach with
  | nothing => exact hset
  | spawns child hlisten hkeep hroom hstate hmode hparent hends =>
    obtain ⟨k, hk⟩ := Option.isSome_iff_exists.mp hroom
    obtain ⟨hfree, -⟩ := firstFree_spec hk
    have hik : i ≠ k := by
      rintro rfl
      exact absurd (hfree.symm.trans hlisten) (by decide)
    simp only [hk]
    rw [← hends] at hset ⊢
    exact hset.spawn hfree hik hstate hmode hlisten
  | joins parent hstate hparent hleft =>
    simp only [List.foldl_cons, effect]
    split
    · exact hset.join hstate hparent hleft (proj_modify Slot.backlog parent)
    · exact hset

section

variable (n : Net) (seg : Segment) (env : SegmentEnv)

/-- The block takes its new state, and a free one may become a new connection. -/
theorem reacted_state (i j : ℕ) :
    (n.reacted seg env i).state j = (if j = i then (n.after seg env i).pcb.state else n.state j) ∨
      (j ≠ i ∧ n.state j = .free ∧ (n.reacted seg env i).state j = .synReceived) := by
  have h := reacts_segment n seg env i
  obtain rfl | hj := eq_or_ne j i
  · rw [state, h.own, if_pos rfl]
    exact .inl rfl
  · rw [if_neg hj]
    by_cases hfree : n.state j = .free
    · obtain hsame | ⟨hnew, -⟩ := h.born j hj hfree
      · exact .inl (congrArg Pcb.state hsame)
      · exact .inr ⟨hj, hfree, hnew⟩
    · exact .inl (congrArg Pcb.state (h.other j hj hfree))

theorem arriveAt_quiet (i : ℕ) :
    Quiet (n.reacted seg env i) (n.arriveAt seg env i) := by
  rw [arriveAt_eq]
  split
  · exact quiet_release _ i
  · exact .refl _

/-- A segment follows the diagram. -/
theorem segment_follows :
    n.Follows (.segment seg env) (n.arrive seg env) := by
  intro j
  unfold arrive
  cases hselect : n.select seg.localEp (some seg.foreignEp) with
  | none => simp [path, hselect, follows_self]
  | some i =>
    have hstages := segmentArrives_stages ⟨i, env.random, n.firstFree.isSome, true⟩ seg
      ⟨(n.slot i).pcb, []⟩ rfl
    have hstate := reacted_state n seg env i j
    have hquiet := arriveAt_quiet n seg env i
    by_cases hj : j = i
    · subst hj
      have hend : (n.reacted seg env j).state j = (n.after seg env j).pcb.state := by simpa using hstate
      have hlast := hquiet.follows_of (i := j) (hend ▸ hstages.ended)
      simp only [path, hselect, if_true, List.cons_append, List.nil_append, List.isChain_cons_cons]
      exact ⟨hstages.acked, hlast, .singleton _⟩
    · have hpath : n.path j (.segment seg env) = [] := by simp [path, hselect, Ne.symm hj]
      have hfirst : (n.state j).follows ((n.reacted seg env i).state j) = true := by
        obtain hsame | ⟨-, hfree, hnew⟩ := hstate
        · rw [hsame, if_neg hj]
          exact follows_self _
        · rw [hfree, hnew]
          rfl
      rw [hpath]
      simpa using hquiet.follows_of hfirst

end

theorem getSocket_ne_free {id : ℤ} (h : n.getSocket id = some i) : n.state i ≠ .free := by
  obtain ⟨hget, -⟩ := Option.filter_eq_some_iff.mp h
  unfold get at hget
  split at hget
  · rename_i hid
    cases hget
    exact hid.2.2
  · simp at hget

/-- `tcp_listen` keeps to the diagram and spares connections exactly if it meets a block that may
listen. -/
theorem listen_meets_iff (n : Net) (p : ℕ) (id : ℤ) :
    n.Follows (.call p (.listen id)) (n.listen id).2 ∧
      n.Spares (.call p (.listen id)) (n.listen id).2 ↔ n.Meets (.call p (.listen id)) := by
  rw [follows_iff_of_path_nil fun _ => rfl]
  unfold listen Spares
  cases hget : n.getSocket id with
  | none => simp [Meets, hget, follows_self]
  | some i =>
    have hstate : ∀ j, (n.setState i .listen).state j = if j = i then .listen else n.state j :=
      fun j => state_modify n i j _
    have hne := getSocket_ne_free hget
    have hblock : (n.state i).follows .listen = true ↔ n.state i = .closed ∨ n.state i = .listen := by
      cases hs : n.state i <;> simp [State.follows, State.edge] at hne ⊢
    simp only [Meets, hget, Option.some.injEq, forall_eq', hstate]
    rw [← hblock]
    constructor
    · intro h
      simpa using h.1 i
    · refine fun h => ⟨fun j => ?_, fun j hj => ?_⟩
      · split_ifs with hji
        · exact hji ▸ h
        · exact follows_self _
      · split_ifs with hji
        · subst hji
          obtain hs | hs := hblock.mp h <;> simp [hs, State.started] at hj
        · rfl

theorem sendSyn_spec (env : ConnectEnv) (loc foreign : Endpoint) (pcb : Pcb) :
    (sendSyn env loc foreign pcb).2 = env.grant.segment ∧
      (sendSyn env loc foreign pcb).1.pcb.state = pcb.state :=
  ⟨rfl, (outputIn_keeps _ env.grant flgSyn []).1⟩

/-- `tcp_connect` sets SYN-SENT and waits, or changes no state but to close. -/
theorem connect_cases (n : Net) (p : ℕ) (id : ℤ) (foreign : Endpoint) (env : ConnectEnv) :
    (∃ i pcb, n.connects id env = some i ∧ pcb.state = .synSent ∧
      Quiet (n.setPcb i pcb) (n.connect p id foreign env).2) ∨
    (n.connects id env = none ∧ Quiet n (n.connect p id foreign env).2) := by
  unfold connect connects
  cases hget : n.getSocket id with
  | none => exact .inr ⟨rfl, .refl n⟩
  | some i =>
    dsimp only
    cases haddr : sourceAddr env (n.slot i).pcb with
    | none => exact .inr ⟨by simp [haddr], .refl n⟩
    | some addr =>
      dsimp only
      split
      · rename_i c hsyn
        obtain ⟨hsegment, hstate⟩ := sendSyn_spec env _ foreign (n.slot i).pcb
        rw [hsyn] at hsegment hstate
        refine .inr ⟨by simp [← hsegment], ?_⟩
        exact (quiet_modify n i (fun s => { s with pcb := c.pcb }) (.inl hstate)).trans
          (writes_giveUp (S := (· = .closed)) (E := fun _ => False) _ p i rfl).quiet
      · rename_i c hsyn
        obtain ⟨hsegment, -⟩ := sendSyn_spec env _ foreign (n.slot i).pcb
        rw [hsyn] at hsegment
        exact .inl ⟨i, _, by simp [haddr, ← hsegment], rfl,
          (writes_connectLoop (S := (· = .closed)) (E := fun _ => False) _ p i .synSent rfl).quiet⟩

/-- The changes that `tcp_connect` makes are known to the protocol exactly if the block may go to
SYN-SENT. -/
theorem connect_follows_iff (n : Net) (p : ℕ) (id : ℤ) (foreign : Endpoint) (env : ConnectEnv) :
    n.Follows (.call p (.connect id foreign env)) (n.connect p id foreign env).2 ↔
      ∀ i, n.connects id env = some i →
        n.state i = .closed ∨ n.state i = .listen ∨ n.state i = .synSent := by
  obtain ⟨i, pcb, hconnects, hsent, hquiet⟩ | ⟨hconnects, hquiet⟩ := connect_cases n p id foreign env
  · have hne : n.state i ≠ .free := getSocket_ne_free (Option.filter_eq_some_iff.mp hconnects).1
    have hblock : (n.state i).follows .synSent = true ↔
        n.state i = .closed ∨ n.state i = .listen ∨ n.state i = .synSent := by
      cases hs : n.state i <;> simp [State.follows, State.edge] at hne ⊢
    have hlast : ∀ j, ((n.setPcb i pcb).state j).follows ((n.connect p id foreign env).2.state j) = true :=
      fun j => hquiet.follows_of (follows_self _)
    simp only [hconnects, Option.some.injEq, forall_eq']
    rw [← hblock]
    constructor
    · intro h
      have hi := h i
      simp only [path, hconnects, if_true, List.cons_append, List.isChain_cons_cons] at hi
      exact hi.1
    · intro h j
      have hj := hlast j
      rw [state_setPcb, hsent] at hj
      by_cases hji : j = i
      · subst hji
        rw [if_pos rfl] at hj
        simp only [path, hconnects, if_true, List.cons_append, List.nil_append, List.isChain_cons_cons]
        exact ⟨h, hj, .singleton _⟩
      · rw [if_neg hji] at hj
        have hpath : n.path j (.call p (.connect id foreign env)) =
          [] := by simp [path, hconnects, Ne.symm hji]
        rw [hpath]
        simpa using hj
  · refine iff_of_true (hquiet.follows fun j => ?_) ?_
    · simp [path, hconnects]
    · simp [hconnects]

/-- Giving up a block does to the others what its release does. -/
theorem giveUp_other (n : Net) (pcb : Pcb) {j : ℕ} (hj : j ≠ i) :
    ((n.setPcb i pcb).giveUp i).2.state j = (n.release i).state j := by
  have hslot : ∀ k, k ≠ i → ((n.setPcb i pcb).setState i .closed).slot k = n.slot k := fun k hk => by
    simp only [setState, setPcb, slot_modify, if_neg hk]
  have hbacklog : ∀ k, (((n.setPcb i pcb).setState i .closed).slot k).backlog = (n.slot k).backlog :=
    fun k => (proj_modify Slot.backlog k).trans (proj_modify Slot.backlog k)
  have hwc : (((n.setPcb i pcb).setState i .closed).slot i).wc = (n.slot i).wc :=
    (proj_modify Slot.wc i).trans (proj_modify Slot.wc i)
  have hfuel : queued ((n.setPcb i pcb).setState i .closed).slot = queued n.slot := by
    simp only [queued, hbacklog]
  simp only [state, giveUp, release, hfuel]
  rw [releaseLoop_congr _ _ hslot (hbacklog i) hwc hj]

/-- A block that is given up is closed, or free. -/
theorem giveUp_own (n : Net) (i : ℕ) :
    (n.giveUp i).2.state i = .closed ∨ (n.giveUp i).2.state i = .free := by
  have hclosed : (n.setState i .closed).state i = .closed := by
    simp [setState, state_modify]
  obtain hsame | hover := quiet_release (n.setState i .closed) i i
  · exact .inl (hsame.trans hclosed)
  · exact hover

/-- Where `tcp_connect` leaves the blocks once it has its addresses. -/
theorem connect_states (n : Net) (p : ℕ) {id : ℤ} (foreign : Endpoint) (env : ConnectEnv)
    (hget : n.getSocket id = some i) (haddr : (sourceAddr env (n.slot i).pcb).isSome = true) :
    (∀ j, j ≠ i → (n.connect p id foreign env).2.state j =
      if env.grant.segment = false ∨ (n.slot i).interrupted = true then (n.release i).state j
      else n.state j) ∧
    (env.grant.segment = false → (n.connect p id foreign env).2.state i = .closed ∨
      (n.connect p id foreign env).2.state i = .free) := by
  obtain ⟨addr, haddr⟩ := Option.isSome_iff_exists.mp haddr
  unfold connect
  simp only [hget, haddr]
  split
  · next c hsyn =>
    obtain ⟨hsegment, -⟩ := sendSyn_spec env _ foreign (n.slot i).pcb
    rw [hsyn] at hsegment
    refine ⟨fun j hj => ?_, fun _ => giveUp_own _ i⟩
    rw [if_pos (.inl hsegment.symm), giveUp_other n c.pcb hj]
  · next c hsyn =>
    obtain ⟨hsegment, -⟩ := sendSyn_spec env _ foreign (n.slot i).pcb
    rw [hsyn] at hsegment
    simp only [← hsegment, Bool.true_eq_false, false_or, false_imp_iff, and_true]
    intro j hj
    have hstate : ∀ pcb, (n.setPcb i pcb).state i = pcb.state := fun pcb => by
      rw [state_setPcb, if_pos rfl]
    have hflag : ∀ pcb, ((n.setPcb i pcb).slot i).interrupted = (n.slot i).interrupted :=
      fun pcb => proj_modify Slot.interrupted i
    rw [connectLoop, if_pos (hstate _), trySleep, hflag]
    split
    · exact giveUp_other n _ hj
    · simp [state, setPcb, modify, update_of_ne hj]

/-- `tcp_connect` keeps to the diagram and spares connections exactly if it meets a block that may
be connected. -/
theorem connect_meets_iff (n : Net) (p : ℕ) (id : ℤ) (foreign : Endpoint) (env : ConnectEnv) :
    n.Follows (.call p (.connect id foreign env)) (n.connect p id foreign env).2 ∧
      n.Spares (.call p (.connect id foreign env)) (n.connect p id foreign env).2 ↔
      n.Meets (.call p (.connect id foreign env)) := by
  rw [connect_follows_iff]
  unfold connects Meets Spares
  dsimp only
  cases hget : n.getSocket id with
  | none => simp [connect, hget]
  | some i =>
    simp only [Option.some.injEq, forall_eq']
    cases haddr : (sourceAddr env (n.slot i).pcb).isSome with
    | false =>
      have hsame : (n.connect p id foreign env).2 = n := by
        simp [connect, hget, Option.isNone_iff_eq_none.mp (by simpa using haddr)]
      simp [hsame, haddr]
    | true =>
      obtain ⟨hother, hown⟩ := connect_states n p foreign env hget haddr
      have hsplit : (∀ j, (n.state j).started = true → (n.connect p id foreign env).2.state j = n.state j) ↔
          ((n.state i).started = true → (n.connect p id foreign env).2.state i = n.state i) ∧
            (env.grant.segment = false ∨ (n.slot i).interrupted = true → n.ReleasesAlone i) := by
        refine ⟨fun h => ⟨h i, fun hgives j hj hs => ?_⟩, fun h j hs => ?_⟩
        · rw [← h j hs, hother j hj, if_pos hgives]
        · obtain rfl | hj := eq_or_ne j i
          · exact h.1 hs
          · rw [hother j hj]
            split_ifs with hgives
            · exact h.2 hgives j hj hs
            · rfl
      rw [hsplit, ← and_assoc]
      simp only [forall_const]
      refine and_congr_left fun _ => ?_
      have hne := getSocket_ne_free hget
      cases hsegment : env.grant.segment with
      | false =>
        obtain hover | hover := hown hsegment <;> rw [hover] <;> cases hs : n.state i <;>
          simp [hs, haddr, State.started, Option.filter] at hne ⊢
      | true => cases hs : n.state i <;> simp [hs, haddr, State.started, Option.filter] at hne ⊢

/-- `tcp_input` accepts data in three states. -/
theorem acceptsData (n : Net) (ev : Event) : n.AcceptsData ev := by
  cases ev with
  | segment seg env =>
    intro i _
    dsimp only
    split
    · rename_i hlisten
      have hbuf := (listenArrives_stage ⟨i, env.random, n.firstFree.isSome, true⟩ seg
        ⟨(n.slot i).pcb, []⟩ hlisten).2
      unfold segmentArrives
      rw [show (n.slot i).pcb.state = .listen from hlisten]
      exact hbuf
    · rename_i hne
      exact (segmentArrives_stages _ seg _ rfl).taken hne
  | _ => trivial

/-- The address of the machine and of a peer in the runs below. -/
def hostEp : Endpoint := ⟨1, 80⟩

def peerEp : Endpoint := ⟨2, 5000⟩

/-- A segment without text from the peer. -/
def bare (seq ack : UInt32) (flg : UInt8) : Event :=
  .segment ⟨seq, ack, 1000, flg, [], hostEp, peerEp, Nat.zero_le _⟩ ⟨0, true⟩

/-- A socket connects to the peer. -/
def connected : List Event := [.call 0 .openSocket, .call 0 (.bind 0 hostEp),
  .call 0 (.connect 0 peerEp ⟨some 1, 7, ⟨true, true⟩⟩), bare 100 8 (flgSyn ||| flgAck)]

end Net

end Xv6.Tcp
