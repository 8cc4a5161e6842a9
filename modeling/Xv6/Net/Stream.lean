import Xv6.Lib.Run
import Xv6.Net.Tcp

/-!
# The receive stream of a TCP connection

The peer sends a byte stream; segments are slices of it, labelled with sequence numbers.
The window test lets any segment through that begins or ends inside the window, and the
text of such a segment is appended wherever it belongs in the stream. What the application
reads is a prefix of the stream in every run in which the texts let through are the next
ones expected.
-/

namespace Xv6.Tcp

open Lib

section Frame

variable (c : Conn) (flg : UInt8) (data : List UInt8) (e : Effect)

@[simp] theorem emit_pcb : (c.emit e).pcb = c.pcb := rfl

@[simp] theorem joinBacklog_pcb : c.joinBacklog.pcb = c.pcb := by
  unfold Conn.joinBacklog
  split <;> rfl

@[simp] theorem output_state : (c.output flg data).pcb.state = c.pcb.state := rfl

@[simp] theorem output_rcv : (c.output flg data).pcb.rcv = c.pcb.rcv := rfl

@[simp] theorem output_buf : (c.output flg data).pcb.buf = c.pcb.buf := rfl

@[simp] theorem resetAck_pcb (seg : Segment) : (c.resetAck seg).pcb = c.pcb := rfl

@[simp] theorem closedArrives_pcb (seg : Segment) : (closedArrives seg c).pcb = c.pcb := by
  unfold closedArrives
  split_ifs <;> rfl

@[simp] theorem setState_state (state : State) : (c.setState state).pcb.state = state := rfl

@[simp] theorem setState_rcv (state : State) : (c.setState state).pcb.rcv = c.pcb.rcv := rfl

@[simp] theorem setState_buf (state : State) : (c.setState state).pcb.buf = c.pcb.buf := rfl

end Frame

variable {stream : List UInt8} {peer : UInt32} {c : Conn} {seg : Segment} {pcb pcb' : Pcb} {pos : ℕ} {env : Env}

/-- Two blocks with the same receive variables and buffer. -/
structure SameRcv (pcb pcb' : Pcb) : Prop where
  rcv : pcb'.rcv = pcb.rcv
  buf : pcb'.buf = pcb.buf

theorem SameRcv.refl (pcb : Pcb) : SameRcv pcb pcb := ⟨rfl, rfl⟩

/-- Whom a block belongs to, and its mode. -/
def Pcb.owner (pcb : Pcb) : Option ℕ × Mode := (pcb.parent, pcb.mode)

/-- The two endpoints of a block. -/
def Pcb.ends (pcb : Pcb) : Endpoint × Endpoint := (pcb.localEp, pcb.foreignEp)

/-- What the life of a connection leaves alone. -/
def Pcb.identity (pcb : Pcb) : (Option ℕ × Mode) × (Endpoint × Endpoint) := (pcb.owner, pcb.ends)

/-- The states in which the text of a segment is taken. -/
def State.takesText : State → Bool
  | .synReceived | .established | .finWait1 | .finWait2 => true
  | _ => false

/-- The states in which nothing is received or read any more. -/
def State.over : State → Bool
  | .free | .closed | .closing | .timeWait | .lastAck => true
  | _ => false

/-- The acknowledgment of data changes the send variables and the queue. -/
theorem dataAck_pcb (seg : Segment) (c : Conn) :
    ∃ snd queue, (dataAck seg c).1.pcb = { c.pcb with snd := snd, queue := queue } := by
  unfold dataAck
  dsimp only
  split
  · split <;> exact ⟨_, _, rfl⟩
  · split
    · exact ⟨_, _, rfl⟩
    · split <;> exact ⟨_, _, rfl⟩

theorem establishedAck_pcb (seg : Segment) (c : Conn) : ∃ snd queue state,
    (establishedAck seg c).1.pcb = { c.pcb with snd := snd, queue := queue, state := state } ∧
      (state = c.pcb.state ∨ c.pcb.state = .finWait1 ∧ state = .finWait2) := by
  obtain ⟨snd, queue, hpcb⟩ := dataAck_pcb seg c
  unfold establishedAck
  cases hack : dataAck seg c with
  | mk d goOn =>
    obtain ⟨pcb, fx⟩ := d
    rw [hack] at hpcb
    dsimp only at hpcb
    subst hpcb
    cases goOn with
    | true =>
      simp only [finAcked]
      split_ifs with hfin
      · exact ⟨snd, queue, .finWait2, rfl, .inr ⟨hfin.1, rfl⟩⟩
      · exact ⟨snd, queue, _, rfl, .inl rfl⟩
    | false => exact ⟨snd, queue, _, rfl, .inl rfl⟩

/-- The states that the acknowledgment field of a segment leads to. -/
def State.acks : State → List State
  | .synReceived => [.synReceived, .established]
  | .finWait1 => [.finWait1, .finWait2]
  | .lastAck => [.lastAck, .closed]
  | s => [s]

theorem State.mem_acks (s : State) : s ∈ s.acks := by cases s <;> decide

/-- After the acknowledgment of a FIN, FIN-WAIT-1 is left. -/
theorem establishedAck_finWait1 (hgo : (establishedAck seg c).2 = true)
    (h : (establishedAck seg c).1.pcb.state = .finWait1) :
    seg.ack ≠ (establishedAck seg c).1.pcb.snd.nxt := by
  unfold establishedAck at hgo h ⊢
  cases hack : dataAck seg c with
  | mk d goOn =>
    rw [hack] at hgo h
    cases goOn with
    | false => simp at hgo
    | true =>
      simp only [finAcked] at h ⊢
      split at h
      · simp at h
      · rename_i hnot
        rw [if_neg hnot]
        exact fun hnxt => hnot ⟨h, hnxt⟩

/-- The acknowledgment field leads along an edge and leaves alone what was received, the owner and
the endpoints. -/
theorem ackField_stage (env : Env) (seg : Segment) (c : Conn)
    (hsleeper : c.pcb.state = .lastAck → env.sleeper = true) :
    SameRcv c.pcb (ackField env seg c).1.pcb ∧ (ackField env seg c).1.pcb.state ∈ c.pcb.state.acks ∧
      ((ackField env seg c).2 = true → (ackField env seg c).1.pcb.state ≠ .synReceived ∧
        ((ackField env seg c).1.pcb.state = .finWait1 → seg.ack ≠ (ackField env seg c).1.pcb.snd.nxt)) ∧
      (ackField env seg c).1.pcb.identity = c.pcb.identity := by
  have hfin := fun d => @establishedAck_finWait1 d seg
  unfold ackField
  cases hstate : c.pcb.state with
  | synReceived =>
    dsimp only
    split
    · obtain ⟨snd, queue, state, hpcb, hnext⟩ :=
        establishedAck_pcb seg ((c.setState .established).emit .wakeup).joinBacklog
      simp only [joinBacklog_pcb, emit_pcb, setState_state, reduceCtorEq, false_and, or_false] at hpcb hnext
      refine ⟨?_, ?_, fun hgo => ⟨?_, hfin _ hgo⟩, ?_⟩ <;> rw [hpcb]
      · exact ⟨rfl, rfl⟩
      · simp [hnext, State.acks]
      · simp [hnext]
      · rfl
    · simp [hstate, State.acks, SameRcv.refl]
  | established | finWait1 | finWait2 | closeWait =>
    obtain ⟨snd, queue, state, hpcb, hnext⟩ := establishedAck_pcb seg c
    rw [hstate] at hnext
    refine ⟨?_, ?_, fun hgo => ⟨?_, hfin _ hgo⟩, ?_⟩ <;> rw [hpcb]
    · exact ⟨rfl, rfl⟩
    · obtain rfl | ⟨h, rfl⟩ := hnext <;> simp_all [State.acks]
    · obtain rfl | ⟨-, rfl⟩ := hnext <;> simp
    · rfl
  | lastAck =>
    dsimp only
    split
    · simp only [Conn.release, hsleeper hstate, if_true]
      exact ⟨⟨rfl, rfl⟩, by simp [State.acks], nofun, rfl⟩
    · simp [hstate, State.acks, SameRcv.refl]
  | _ => simp [hstate, State.acks, SameRcv.refl]

/-- In a state that takes text the acknowledgment field leads to such a state; processing goes on
only after the handshake is complete. -/
theorem ackField_takesText (env : Env) (seg : Segment) (h : c.pcb.state.takesText = true) :
    SameRcv c.pcb (ackField env seg c).1.pcb ∧ (ackField env seg c).1.pcb.state.takesText = true ∧
      ((ackField env seg c).2 = true → (ackField env seg c).1.pcb.state ≠ .synReceived) := by
  have htakes : ∀ s : State, s.takesText = true → ∀ t ∈ s.acks, t.takesText = true := by
    intro s
    cases s <;> decide
  obtain ⟨hsame, hacks, hgo, -⟩ := ackField_stage env seg c fun hlast => by simp [hlast, State.takesText] at h
  exact ⟨hsame, htakes _ h _ hacks, fun hon => (hgo hon).1⟩

/-- In CLOSE-WAIT the acknowledgment field changes neither the state nor what was received. -/
theorem ackField_closeWait (env : Env) (seg : Segment) (h : c.pcb.state = .closeWait) :
    SameRcv c.pcb (ackField env seg c).1.pcb ∧ (ackField env seg c).1.pcb.state = .closeWait := by
  obtain ⟨hsame, hacks, -⟩ := ackField_stage env seg c (by simp [h])
  rw [h] at hacks
  exact ⟨hsame, List.mem_singleton.mp hacks⟩

/-- What is over stays over. -/
theorem ackField_over (env : Env) (seg : Segment) (h : c.pcb.state.over = true) :
    (ackField env seg c).1.pcb.state.over = true := by
  unfold ackField
  cases hstate : c.pcb.state with
  | lastAck =>
    dsimp only
    split
    · unfold Conn.release
      split <;> rfl
    · rw [hstate]
      rfl
  | free | closed | closing | timeWait => simp [hstate, State.over]
  | _ => simp [hstate, State.over] at h

/-- The segment is dropped before its acknowledgment field is read. -/
def Pcb.drops (pcb : Pcb) (seg : Segment) : Bool :=
  (pcb.state.checksWindow && !pcb.acceptable seg) || !isSet seg.flg flgAck

/-- A segment is dropped, perhaps with an answer, or goes through the acknowledgment field, and then
perhaps on. -/
theorem otherArrives_cases (env : Env) (seg : Segment) (c : Conn) :
    (c.pcb.drops seg = true ∧ (otherArrives env seg c).pcb = c.pcb ∧
      (otherArrives env seg c = c ∨ otherArrives env seg c = c.output flgAck [])) ∨
    (c.pcb.drops seg = false ∧ otherArrives env seg c =
      if (ackField env seg c).2 then finBit seg
        (segmentText seg (ackField env seg c).1) else (ackField env seg c).1) := by
  unfold otherArrives Pcb.drops
  cases c.pcb.state.checksWindow && !c.pcb.acceptable seg with
  | true =>
    rw [if_pos rfl]
    split
    · exact .inl ⟨rfl, rfl, .inr rfl⟩
    · exact .inl ⟨rfl, rfl, .inl rfl⟩
  | false =>
    cases isSet seg.flg flgAck with
    | false => exact .inl ⟨rfl, rfl, .inl rfl⟩
    | true =>
      refine .inr ⟨rfl, ?_⟩
      cases ackField env seg c with
      | mk d goOn => cases goOn <;> rfl

/-- The bytes read so far and the bytes waiting in the buffer are a beginning of the stream. -/
def Waiting (stream got : List UInt8) (pcb : Pcb) : Prop := got ++ slice pcb.buf 0 pcb.buffered <+: stream

/-- `rcv.nxt` is the sequence number of the next byte. -/
def Expects (peer : UInt32) (got : List UInt8) (pcb : Pcb) : Prop :=
  pcb.rcv.nxt = peer + 1 + UInt32.ofNat (got.length + pcb.buffered)

variable {got : List UInt8}

theorem Waiting.congr (h : Waiting stream got pcb) (hsame : SameRcv pcb pcb') : Waiting stream got pcb' := by
  unfold Waiting Pcb.buffered at h ⊢
  rwa [hsame.rcv, hsame.buf]

theorem Expects.congr (h : Expects peer got pcb) (hsame : SameRcv pcb pcb') : Expects peer got pcb' := by
  unfold Expects Pcb.buffered at h ⊢
  rwa [hsame.rcv]

/-- The segment's text is the slice of the stream at `pos`, and it is labelled right; a SYN comes in
front of the stream. -/
structure Labelled (stream : List UInt8) (peer : UInt32) (seg : Segment) (pos : ℕ) : Prop where
  text : seg.data <+: stream.drop pos
  syn : isSet seg.flg flgSyn = true → seg.seq = peer ∧ pos = 0
  plain : isSet seg.flg flgSyn = false → seg.data ≠ [] → seg.seq = peer + 1 + UInt32.ofNat pos

/-- The text is the next one expected and fits into the window. -/
def NextText (got : List UInt8) (pcb : Pcb) (seg : Segment) (pos : ℕ) : Prop :=
  pos = got.length + pcb.buffered ∧ seg.data.length ≤ pcb.rcv.wnd.toNat

theorem NextText.congr (h : NextText got pcb seg pos) (hsame : SameRcv pcb pcb') :
    NextText got pcb' seg pos := by
  unfold NextText Pcb.buffered at h ⊢
  rwa [hsame.rcv]

/-- The sequence numbers of a segment without FIN end behind its text. -/
theorem Labelled.seq_end (h : Labelled stream peer seg pos) (hdata : seg.data ≠ [])
    (hfin : isSet seg.flg flgFin = false) :
    seg.seq + seg.len.toUInt32 = peer + 1 + UInt32.ofNat (pos + seg.data.length) := by
  have hfits : seg.data.length ≤ 65515 := seg.fits
  apply UInt32.toNat.inj
  cases hsyn : isSet seg.flg flgSyn with
  | true =>
    obtain ⟨hseq, rfl⟩ := h.syn hsyn
    simp [Segment.len, hsyn, hfin, hseq]
    omega
  | false =>
    rw [h.plain hsyn hdata]
    simp [Segment.len, hsyn, hfin]
    omega

theorem buffered_add_wnd (pcb : Pcb) : pcb.buffered + pcb.rcv.wnd.toNat = rcvBufSize := by
  have := pcb.rcv.wnd.toNat_lt
  unfold Pcb.buffered rcvBufSize
  omega

/-- The bytes of a list that was copied in. -/
theorem slice_blit_list (b : Bytes) (o : ℕ) (data : List UInt8) :
    slice (blit b o data.length fun i => data.getD i 0) o data.length = data := by
  apply List.ext_getElem (by simp)
  intro i hi hi'
  simp only [slice, List.getElem_map, List.getElem_range]
  rw [blit_of_inside (by omega) (by omega), Nat.add_sub_cancel_left, List.getD_eq_getElem _ _ hi']

theorem takeText_buf (seg : Segment) (c : Conn) : (takeText seg c).pcb.buf =
    blit c.pcb.buf c.pcb.buffered seg.data.length fun i => seg.data.getD i 0 := rfl

/-- Text that comes next extends what waits by exactly that text. -/
theorem takeText_spec (hlabel : Labelled stream peer seg pos) (hwait : Waiting stream got c.pcb)
    (hdata : seg.data ≠ [])
    (hnext : NextText got c.pcb seg pos) : Waiting stream got (takeText seg c).pcb ∧
      (isSet seg.flg flgFin = false → Expects peer got (takeText seg c).pcb) := by
  obtain ⟨hpos, hfit⟩ := hnext
  have hlen : seg.data.length ≤ 65515 := seg.fits
  have hof : (UInt16.ofNat seg.data.length).toNat = seg.data.length := by
    simp only [UInt16.toNat_ofNat']
    omega
  have hwnd : (takeText seg c).pcb.rcv.wnd.toNat = c.pcb.rcv.wnd.toNat - seg.data.length := by
    change (c.pcb.rcv.wnd - UInt16.ofNat seg.data.length).toNat = _
    rw [UInt16.toNat_sub_of_le _ _ (by rw [UInt16.le_iff_toNat_le, hof]; exact hfit), hof]
  have hbuffered : (takeText seg c).pcb.buffered = c.pcb.buffered + seg.data.length := by
    have hd := buffered_add_wnd (takeText seg c).pcb
    have hc := buffered_add_wnd c.pcb
    omega
  constructor
  · have hold : slice (takeText seg c).pcb.buf 0 c.pcb.buffered = slice c.pcb.buf 0 c.pcb.buffered := by
      apply slice_congr
      intro i hi
      rw [takeText_buf, blit_of_outside (by omega)]
    have hnew : slice (takeText seg c).pcb.buf (0 + c.pcb.buffered) seg.data.length = seg.data := by
      rw [Nat.zero_add]
      exact slice_blit_list _ _ _
    rw [Waiting, hbuffered, ← slice_append, hold, hnew, ← List.append_assoc]
    obtain ⟨rest, hrest⟩ := hwait
    obtain ⟨tail, htail⟩ := hlabel.text
    refine ⟨tail, ?_⟩
    rw [List.append_assoc, htail, hpos, ← hrest]
    simp
  · intro hfin
    rw [Expects, hbuffered, ← Nat.add_assoc, ← hpos, ← hlabel.seq_end hdata hfin]
    rfl

/-- Text is taken as a whole or not at all. -/
theorem segmentText_cases (seg : Segment) (c : Conn) :
    segmentText seg c = c ∨ seg.data ≠ [] ∧ segmentText seg c = takeText seg c := by
  have htext : (if seg.data = [] then c else takeText seg c) = c ∨
      seg.data ≠ [] ∧ (if seg.data = [] then c else takeText seg c) = takeText seg c := by
    by_cases hdata : seg.data = [] <;> simp [hdata]
  unfold segmentText
  cases c.pcb.state with
  | established | finWait1 | finWait2 => exact htext
  | _ => exact .inl rfl

theorem segmentText_spec (hlabel : Labelled stream peer seg pos) (hwait : Waiting stream got c.pcb)
    (hnext : seg.data ≠ [] → NextText got c.pcb seg pos) :
    Waiting stream got (segmentText seg c).pcb ∧ (segmentText seg c).pcb.state = c.pcb.state ∧
      (Expects peer got c.pcb → isSet seg.flg flgFin = false → Expects peer got (segmentText seg c).pcb) := by
  obtain hskip | ⟨hdata, htake⟩ := segmentText_cases seg c
  · rw [hskip]
    exact ⟨hwait, rfl, fun h _ => h⟩
  · rw [htake]
    obtain ⟨hwait', hexp⟩ := takeText_spec hlabel hwait hdata (hnext hdata)
    exact ⟨hwait', rfl, fun _ => hexp⟩

/-- A FIN ends the reception, or is not there. -/
theorem finBit_takesText (h : c.pcb.state.takesText = true) :
    (isSet seg.flg flgFin = false ∧ finBit seg c = c) ∨ ((finBit seg c).pcb.state = .closeWait ∧
      (finBit seg c).pcb.buf = c.pcb.buf ∧ (finBit seg c).pcb.rcv.wnd = c.pcb.rcv.wnd) ∨
      (finBit seg c).pcb.state.over = true := by
  cases hfin : isSet seg.flg flgFin with
  | false => exact .inl ⟨rfl, by simp [finBit, hfin]⟩
  | true =>
    right
    cases hstate : c.pcb.state with
    | synReceived | established => simp [finBit, hfin, hstate]
    | finWait1 =>
      right
      simp only [finBit, hfin, if_true, hstate, output_state]
      split <;> rfl
    | finWait2 => simp [finBit, hfin, hstate, State.over]
    | _ => simp [hstate, State.takesText] at h

theorem finBit_closeWait (seg : Segment) (h : c.pcb.state = .closeWait) :
    (finBit seg c).pcb.state = .closeWait ∧ (finBit seg c).pcb.buf = c.pcb.buf ∧
      (finBit seg c).pcb.rcv.wnd = c.pcb.rcv.wnd := by
  unfold finBit
  split
  · simp [h]
  · exact ⟨h, rfl, rfl⟩

theorem finBit_over (h : c.pcb.state.over = true) : (finBit seg c).pcb.state.over = true := by
  unfold finBit
  split
  · cases hstate : c.pcb.state with
    | free | closed | closing | timeWait | lastAck => simp [hstate, State.over]
    | _ => simp [hstate, State.over] at h
  · exact h

/-- What the connection holds, state by state. -/
def Holds (stream : List UInt8) (peer : UInt32) (got : List UInt8) (pcb : Pcb) : Prop :=
  match pcb.state with
  | .listen => got = []
  | .synSent => got = [] ∧ pcb.rcv.wnd.toNat = rcvBufSize
  | .synReceived | .established | .finWait1 | .finWait2 => Waiting stream got pcb ∧ Expects peer got pcb
  | .closeWait => Waiting stream got pcb
  | .free | .closed | .closing | .timeWait | .lastAck => got <+: stream

theorem holds_takesText (h : pcb.state.takesText = true) :
    Holds stream peer got pcb ↔ Waiting stream got pcb ∧ Expects peer got pcb := by
  unfold Holds
  cases hstate : pcb.state <;> simp_all [State.takesText]

theorem holds_over (h : pcb.state.over = true) :
    Holds stream peer got pcb ↔ got <+: stream := by
  unfold Holds
  cases hstate : pcb.state <;> simp_all [State.over]

theorem Waiting.got_le (h : Waiting stream got pcb) : got <+: stream :=
  (List.prefix_append _ _).trans h

theorem Waiting.of_wnd (h : Waiting stream got pcb)
    (hbuf : pcb'.buf = pcb.buf) (hwnd : pcb'.rcv.wnd = pcb.rcv.wnd) : Waiting stream got pcb' := by
  unfold Waiting Pcb.buffered at h ⊢
  rwa [hbuf, hwnd]

/-- A segment in a state that takes text: the texts that pass the window test must come next. -/
theorem otherArrives_takesText (hstate : c.pcb.state.takesText = true) (hlabel : Labelled stream peer seg pos)
    (hold : Holds stream peer got c.pcb)
    (hnext : c.pcb.acceptable seg = true → seg.data ≠ [] → NextText got c.pcb seg pos) :
    Holds stream peer got (otherArrives env seg c).pcb := by
  obtain ⟨hwait, hexp⟩ := (holds_takesText hstate).mp hold
  obtain ⟨-, hkeep, -⟩ | ⟨hgoes, harrives⟩ := otherArrives_cases env seg c
  · rwa [hkeep]
  · have hacc : c.pcb.acceptable seg = true := by
      cases hst : c.pcb.state <;> simp_all [State.takesText, State.checksWindow, Pcb.drops]
    obtain ⟨hsame, htakes, -⟩ := ackField_takesText env seg hstate
    have hwait' := hwait.congr hsame
    have hexp' := hexp.congr hsame
    rw [harrives]
    split
    · obtain ⟨htext, hst, hexp''⟩ := segmentText_spec hlabel hwait' fun hdata =>
        (hnext hacc hdata).congr hsame
      have htakes' := hst ▸ htakes
      obtain ⟨hnofin, hfin⟩ | ⟨hfin, hbuf, hwnd⟩ | hfin := finBit_takesText htakes'
      · rw [hfin]
        exact (holds_takesText htakes').mpr ⟨htext, hexp'' hexp' hnofin⟩
      · simp only [Holds, hfin]
        exact htext.of_wnd hbuf hwnd
      · exact (holds_over hfin).mpr htext.got_le
    · exact (holds_takesText htakes).mpr ⟨hwait', hexp'⟩

/-- In CLOSE-WAIT no more text is taken. -/
theorem otherArrives_closeWait (hstate : c.pcb.state = .closeWait) (hold : Waiting stream got c.pcb) :
    Holds stream peer got (otherArrives env seg c).pcb := by
  have hkeep : ∀ d : Conn, d.pcb.state = .closeWait → Waiting stream got d.pcb →
    Holds stream peer got d.pcb := by
    intro d hst hwait
    simpa only [Holds, hst] using hwait
  obtain ⟨hsame, hst⟩ := ackField_closeWait env seg hstate
  obtain ⟨-, hpcb, -⟩ | ⟨-, harrives⟩ := otherArrives_cases env seg c
  · rw [hpcb]
    exact hkeep c hstate hold
  · rw [harrives]
    split
    · obtain ⟨hfin, hbuf, hwnd⟩ := finBit_closeWait seg hst
      rw [show segmentText seg (ackField env seg c).1 = (ackField env seg c).1 by simp [segmentText, hst]]
      exact hkeep _ hfin ((hold.congr hsame).of_wnd hbuf hwnd)
    · exact hkeep _ hst (hold.congr hsame)

/-- What is over stays over. -/
theorem otherArrives_over (hstate : c.pcb.state.over = true) :
    (otherArrives env seg c).pcb.state.over = true := by
  have hover := ackField_over env seg hstate
  obtain ⟨-, hpcb, -⟩ | ⟨-, harrives⟩ := otherArrives_cases env seg c
  · rwa [hpcb]
  · have htext : segmentText seg (ackField env seg c).1 = (ackField env seg c).1 := by
      cases hst : (ackField env seg c).1.pcb.state <;> simp_all [segmentText, State.over]
    rw [harrives, htext]
    split
    · exact finBit_over hover
    · exact hover

/-- A block that has taken up a connection waits for the first byte of the stream. -/
theorem holds_begun (hstate : pcb.state.takesText = true)
    (hnxt : pcb.rcv.nxt = peer + 1) (hwnd : pcb.rcv.wnd.toNat = rcvBufSize) : Holds stream peer [] pcb := by
  have hempty : pcb.buffered = 0 := by
    have := buffered_add_wnd pcb
    omega
  apply (holds_takesText hstate).mpr
  constructor
  · rw [Waiting, hempty]
    exact List.nil_prefix
  · rw [Expects, hempty, hnxt]
    simp

/-- The peer's SYN begins the stream of the block that takes up the connection. -/
theorem listenArrives_holds (hstate : c.pcb.state = .listen) (hlabel : Labelled stream peer seg pos)
    (hgot : got = []) :
    Holds stream peer got (listenArrives env seg c).pcb := by
  subst hgot
  have hsame : Holds stream peer [] c.pcb := by simp [Holds, hstate]
  unfold listenArrives
  split
  · exact hsame
  · split
    · exact hsame
    · split
      · rename_i hsyn
        split
        · split <;> exact hsame
        · have hnxt : (acceptSyn env seg c).pcb.rcv.nxt = seg.seq + 1 := rfl
          rw [(hlabel.syn hsyn).1] at hnxt
          exact holds_begun rfl hnxt rfl
      · exact hsame

theorem peerSyn_spec (seg : Segment) (acceptable : Bool) (pcb : Pcb) :
    (peerSyn seg acceptable pcb).rcv.nxt = seg.seq + 1 ∧ (peerSyn seg acceptable pcb).rcv.wnd =
      pcb.rcv.wnd := by
  cases acceptable <;> exact ⟨rfl, rfl⟩

/-- A block that sent a SYN begins when the peer's SYN arrives. -/
theorem synSentArrives_holds (hstate : c.pcb.state = .synSent)
    (hlabel : Labelled stream peer seg pos) (hgot : got = [])
    (hwnd : c.pcb.rcv.wnd.toNat = rcvBufSize) : Holds stream peer got (synSentArrives seg c).pcb := by
  subst hgot
  have hsame : Holds stream peer [] c.pcb := by simp [Holds, hstate, hwnd]
  unfold synSentArrives
  dsimp only
  split
  · exact hsame
  · split
    · rename_i hsyn
      have hseq := (hlabel.syn hsyn).1
      split <;> exact holds_begun rfl (by rw [← hseq]; exact (peerSyn_spec _ _ _).1)
        (by rw [← hwnd]; exact congrArg UInt16.toNat (peerSyn_spec _ _ _).2)
    · exact hsame

theorem takeBytes_buf (pcb : Pcb) (size : ℕ) : (takeBytes pcb size).2.buf =
    blit pcb.buf 0 (pcb.buffered - min size pcb.buffered) fun i => pcb.buf (i + min size pcb.buffered) := rfl

/-- A read takes the bytes from the front of what waits. -/
theorem takeBytes_spec (size : ℕ) (hwait : Waiting stream got pcb) :
    ∃ data, (takeBytes pcb size).1 = .bytes data ∧ Waiting stream (got ++ data) (takeBytes pcb size).2 ∧
      ∀ peer, Expects peer got pcb → Expects peer (got ++ data) (takeBytes pcb size).2 := by
  have hlen : min size pcb.buffered ≤ pcb.buffered := min_le_right _ _
  have hwnd : pcb.buffered + pcb.rcv.wnd.toNat = 65535 := buffered_add_wnd pcb
  have hadd : (pcb.rcv.wnd + UInt16.ofNat (min size pcb.buffered)).toNat =
      pcb.rcv.wnd.toNat + min size pcb.buffered := by
    rw [UInt16.toNat_add, UInt16.toNat_ofNat']
    omega
  have hbuffered : (takeBytes pcb size).2.buffered = pcb.buffered - min size pcb.buffered := by
    have hnew : _ + _ = 65535 := buffered_add_wnd (takeBytes pcb size).2
    rw [show (takeBytes pcb size).2.rcv.wnd.toNat = _ from hadd] at hnew
    omega
  refine ⟨_, rfl, ?_, ?_⟩
  · have hrest : slice (takeBytes pcb size).2.buf 0 (pcb.buffered - min size pcb.buffered) =
        slice pcb.buf (0 + min size pcb.buffered) (pcb.buffered - min size pcb.buffered) := by
      apply slice_congr
      intro i hi
      rw [takeBytes_buf, blit_of_inside (by omega) (by omega)]
      congr 1
      omega
    rw [Waiting, hbuffered, hrest, List.append_assoc, slice_append, Nat.add_sub_cancel' hlen]
    exact hwait
  · intro peer hexp
    rw [Expects, hbuffered, List.length_append, slice_length, Nat.add_assoc, Nat.add_sub_cancel' hlen]
    exact hexp

/-- A connection and what the application has read from it. -/
structure Reader where
  conn : Conn
  got : List UInt8

/-- A segment that arrives, with the place of its text in the stream; or a call of the
application. -/
inductive Event
  | arrive (env : Env) (seg : Segment) (pos : ℕ)
  | receive (size : ℕ)
  | close (env : Env) (grant : Grant)

/-- The bytes that a call of `tcp_receive` hands to the application. -/
def Received.data : Received → List UInt8
  | .bytes data => data
  | _ => []

def Reader.next (r : Reader) : Event → Reader
  | .arrive env seg _ => { r with conn := segmentArrives env seg r.conn }
  | .receive size =>
    let (out, pcb) := receive r.conn.pcb size
    { conn := { r.conn with pcb := pcb }, got := r.got ++ out.data }
  | .close env grant => { r with conn := (close env grant r.conn).1 }

/-- The peer sends slices of its stream with the right labels. -/
def Event.FromPeer (stream : List UInt8) (peer : UInt32) : Event → Prop
  | .arrive _ seg pos => Labelled stream peer seg pos
  | _ => True

/-- Every text that passes the window test in a state that takes text is the next one expected and
fits into the window. -/
def Event.InOrder (r : Reader) : Event → Prop
  | .arrive _ seg pos => r.conn.pcb.state.takesText = true → r.conn.pcb.acceptable seg = true →
      seg.data ≠ [] →
      NextText r.got r.conn.pcb seg pos
  | _ => True

/-- One event of a connection with the peer. -/
def Step (stream : List UInt8) (peer : UInt32) (r : Reader) (e : Event) (r' : Reader) : Prop :=
  e.FromPeer stream peer ∧ r' = r.next e

/-- One event that meets the condition. -/
def InOrderStep (stream : List UInt8) (peer : UInt32) (r : Reader) (e : Event) (r' : Reader) : Prop :=
  e.InOrder r ∧ Step stream peer r e r'

/-- A connection before the first byte: listening, with a SYN sent, or just taken up. -/
def Reader.Begins (peer : UInt32) (r : Reader) : Prop :=
  r.got = [] ∧ (r.conn.pcb.state = .listen ∨
    r.conn.pcb.state = .synSent ∧ r.conn.pcb.rcv.wnd.toNat = rcvBufSize ∨
    r.conn.pcb.state.takesText = true ∧ r.conn.pcb.rcv.nxt = peer + 1 ∧ r.conn.pcb.rcv.wnd.toNat = rcvBufSize)

theorem Reader.Begins.holds {r : Reader} (h : r.Begins peer) : Holds stream peer r.got r.conn.pcb := by
  obtain ⟨hgot, hlisten | ⟨hsent, hwnd⟩ | ⟨htakes, hnxt, hwnd⟩⟩ := h
  · simp [Holds, hlisten, hgot]
  · simp [Holds, hsent, hgot, hwnd]
  · rw [hgot]
    exact holds_begun htakes hnxt hwnd

theorem arrive_holds (hlabel : Labelled stream peer seg pos) (hold : Holds stream peer got c.pcb)
    (hnext : c.pcb.state.takesText = true → c.pcb.acceptable seg = true → seg.data ≠ [] →
      NextText got c.pcb seg pos) : Holds stream peer got (segmentArrives env seg c).pcb := by
  have hover : c.pcb.state.over = true → got <+: stream := fun hst => (holds_over hst).mp hold
  unfold segmentArrives
  cases hstate : c.pcb.state with
  | listen => exact listenArrives_holds hstate hlabel (by simpa [Holds, hstate] using hold)
  | synSent =>
    have hsent : got = [] ∧ c.pcb.rcv.wnd.toNat = rcvBufSize := by simpa [Holds, hstate] using hold
    exact synSentArrives_holds hstate hlabel hsent.1 hsent.2
  | synReceived | established | finWait1 | finWait2 =>
    have htakes : c.pcb.state.takesText = true := by rw [hstate]; rfl
    exact otherArrives_takesText htakes hlabel hold (hnext htakes)
  | closeWait => exact otherArrives_closeWait hstate (by simpa [Holds, hstate] using hold)
  | closed =>
    rwa [closedArrives_pcb]
  | free | closing | timeWait | lastAck =>
    have hst : c.pcb.state.over = true := by rw [hstate]; rfl
    exact (holds_over (otherArrives_over hst)).mpr (hover hst)

theorem receive_holds (size : ℕ) (hold : Holds stream peer got pcb) :
    Holds stream peer (got ++ (receive pcb size).1.data) (receive pcb size).2 := by
  unfold receive
  cases hstate : pcb.state with
  | established =>
    have htakes : pcb.state.takesText = true := by rw [hstate]; rfl
    obtain ⟨hwait, hexp⟩ := (holds_takesText htakes).mp hold
    dsimp only
    split
    · simpa [Received.data] using hold
    · obtain ⟨data, hdata, hwait', hexp'⟩ := takeBytes_spec size hwait
      have htakes' : (takeBytes pcb size).2.state.takesText = true := htakes
      rw [hdata]
      exact (holds_takesText htakes').mpr ⟨hwait', hexp' peer hexp⟩
  | closeWait =>
    have hwait : Waiting stream got pcb := by simpa only [Holds, hstate] using hold
    dsimp only
    split
    · simpa [Received.data] using hold
    · obtain ⟨data, hdata, hwait', -⟩ := takeBytes_spec size hwait
      rw [hdata]
      have hstate' : (takeBytes pcb size).2.state = .closeWait := hstate
      simpa only [Holds, hstate', Received.data] using hwait'
  | _ => simpa [Received.data] using hold

/-- A FIN leaves the receive side alone. -/
theorem sendFin_sameRcv (c : Conn) (grant : Grant) (state : State) :
    SameRcv c.pcb (c.sendFin grant state).pcb := by
  obtain ⟨entry, segment⟩ := grant
  cases segment <;> exact ⟨rfl, rfl⟩

theorem close_holds (env : Env) (grant : Grant) (hold : Holds stream peer got c.pcb) :
    Holds stream peer got (close env grant c).1.pcb := by
  unfold close
  cases hstate : c.pcb.state with
  | listen =>
    have hgot : got = [] := by simpa [Holds, hstate] using hold
    have hover : ((c.setState .closed).release env).pcb.state.over = true := by
      unfold Conn.release
      split <;> rfl
    exact (holds_over hover).mpr (by rw [hgot]; exact List.nil_prefix)
  | established =>
    have htakes : c.pcb.state.takesText = true := by rw [hstate]; rfl
    obtain ⟨hwait, hexp⟩ := (holds_takesText htakes).mp hold
    have hsame := sendFin_sameRcv c grant .finWait1
    exact ⟨hwait.congr hsame, hexp.congr hsame⟩
  | closeWait =>
    have hwait : Waiting stream got c.pcb := by simpa only [Holds, hstate] using hold
    exact hwait.got_le
  | _ => exact hold

theorem Holds.got_le (h : Holds stream peer got pcb) : got <+: stream := by
  unfold Holds at h
  cases hstate : pcb.state with
  | listen =>
    rw [hstate] at h
    rw [show got = [] from h]
    exact List.nil_prefix
  | synSent =>
    rw [hstate] at h
    rw [show got = [] from h.1]
    exact List.nil_prefix
  | synReceived | established | finWait1 | finWait2 =>
    rw [hstate] at h
    exact h.1.got_le
  | closeWait =>
    rw [hstate] at h
    exact Waiting.got_le h
  | free | closed | closing | timeWait | lastAck =>
    rw [hstate] at h
    exact h

/-- In every run in which the texts that are let through come in order, what the application has
read is a prefix of the peer's stream. -/
theorem received_is_prefix {stream : List UInt8} {peer : UInt32} {r r' : Reader} {events : List Event}
    (hbegin : r.Begins peer) (hrun : Run (InOrderStep stream peer) r events r') : r'.got <+: stream := by
  have hstep : ∀ s e t, Holds stream peer s.got s.conn.pcb → InOrderStep stream peer s e t →
      Holds stream peer t.got t.conn.pcb := by
    rintro s e _ hold ⟨horder, hpeer, rfl⟩
    cases e with
    | arrive env seg pos => exact arrive_holds hpeer hold horder
    | receive size => exact receive_holds size hold
    | close env grant => exact close_holds env grant hold
  exact (hrun.invariant hstep hbegin.holds).got_le

/-- A connection just established; the peer's initial sequence number is 0. -/
def justEstablished : Reader where
  conn := ⟨{ Pcb.zero with state := .established, rcv := ⟨1, 65535⟩ }, []⟩
  got := []

/-- A segment with text and an acknowledgment. -/
def textSegment (seq : UInt32) (data : List UInt8) (h : data.length ≤ ipPayloadMax) : Segment :=
  ⟨seq, 0, 1024, flgAck, data, ⟨0, 0⟩, ⟨0, 0⟩, h⟩

/-- Two segments in order are read as they were sent. -/
theorem received_is_prefix_two_segments : ∃ r', Run (InOrderStep [7, 8, 9] 0) justEstablished
    [.arrive ⟨0, 0, true, false⟩ (textSegment 1 [7] (by decide)) 0,
      .arrive ⟨0, 0, true, false⟩ (textSegment 2 [8] (by decide)) 1, .receive 5] r' ∧
    r'.got = [7, 8] ∧ r'.got <+: [7, 8, 9] := by
  have hrun : Run (InOrderStep [7, 8, 9] 0) justEstablished
      [.arrive ⟨0, 0, true, false⟩ (textSegment 1 [7] (by decide)) 0,
        .arrive ⟨0, 0, true, false⟩ (textSegment 2 [8] (by decide)) 1, .receive 5] _ :=
    .cons ⟨fun _ _ _ => ⟨by decide, by decide⟩, ⟨by decide, by decide, by decide⟩, rfl⟩
      (.cons ⟨fun _ _ _ => ⟨by decide, by decide⟩, ⟨by decide, by decide, by decide⟩, rfl⟩
        (.cons ⟨trivial, trivial, rfl⟩ (.nil _)))
  exact ⟨_, hrun, by decide, received_is_prefix ⟨rfl, .inr (.inr ⟨rfl, by decide, by decide⟩)⟩ hrun⟩

/-- A segment that arrives before its predecessor passes the window test, and its text is read
first. -/
theorem reads_out_of_order : justEstablished.Begins 0 ∧ ∃ r', Run (Step [7, 8] 0) justEstablished
    [.arrive ⟨0, 0, true, false⟩ (textSegment 2 [8] (by decide)) 1, .receive 5] r' ∧
    r'.got = [8] ∧ ¬ r'.got <+: [7, 8] := by
  refine ⟨⟨rfl, .inr (.inr ⟨rfl, by decide, by decide⟩)⟩, _,
    .cons ⟨⟨by decide, by decide, by decide⟩, rfl⟩ (.cons ⟨trivial, rfl⟩ (.nil _)), by decide, by decide⟩

end Xv6.Tcp
