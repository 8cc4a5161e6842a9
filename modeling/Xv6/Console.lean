import Xv6.Lib.Ring
import Xv6.Lib.Run
import Mathlib.Data.Int.Notation
import Mathlib.Data.List.Induction

/-!
# The console's line discipline

`consoleintr` and `consoleread` of `kernel/console.c`. Both hold `cons.lock` from their start to
their end, apart from the `sleep` of a reader; a step is a whole interrupt, or a read up to its
return or its sleep. Copies to the reader succeed. The echo and the process list are left out.

The desk is what the console is for: committed lines, of which readers took a part, and the line
being edited. The buffer with its three wrapping indices follows it. A line is committed by a
newline, by an end-of-file, or because it filled the buffer.
-/

namespace Xv6.Console

open Lib Function

/-- `INPUT_BUF_SIZE`. -/
abbrev inputBufSize : ℕ := 128

/-- `C('D')`, end-of-file. -/
abbrev ctrlD : UInt8 := 4

/-- `C('H')`. -/
abbrev ctrlH : UInt8 := 8

/-- `C('P')`. -/
abbrev ctrlP : UInt8 := 16

/-- `C('U')`. -/
abbrev ctrlU : UInt8 := 21

/-- The delete key. -/
abbrev delete : UInt8 := 0x7f

/-- The newline. -/
abbrev newline : UInt8 := 10

/-- The carriage return. -/
abbrev carriageReturn : UInt8 := 13

/-- `cons`, without its lock. -/
structure Cons where
  buf : ℕ → UInt8
  r : UInt32
  w : UInt32
  e : UInt32

/-! ### The interrupt handler -/

/-- The loop of `C('U')`, with the number of its turns at most the number of uncommitted
characters. -/
def killLine : ℕ → Cons → Cons
  | 0, cons => cons
  | k + 1, cons =>
    if cons.e ≠ cons.w ∧ cons.buf ((cons.e - 1).toNat % inputBufSize) ≠
      newline then killLine k { cons with e := cons.e - 1 }
    else cons

/-- The default case of `consoleintr` behind its check. -/
def store (cons : Cons) (c : UInt8) : Cons :=
  let cons := { cons with buf := update cons.buf (cons.e.toNat % inputBufSize) c, e := cons.e + 1 }
  if c = newline ∨ c = ctrlD ∨ cons.e - cons.r = 128 then { cons with w := cons.e } else cons

/-- `consoleintr`. -/
def consoleintr (cons : Cons) (c : UInt8) : Cons :=
  if c = ctrlP then cons
  else if c = ctrlU then killLine (cons.e - cons.w).toNat cons
  else if c = ctrlH ∨ c = delete then if cons.e ≠ cons.w then { cons with e := cons.e - 1 } else cons
  else if c ≠ 0 ∧ cons.e - cons.r < 128 then store cons (if c = carriageReturn then newline else c)
  else cons

/-! ### Readers -/

/-- How a section of `consoleread` ends: with a value, or asleep with `n` bytes to go. -/
inductive Result
  | returned (value : ℤ)
  | asleep (n : ℕ)
  deriving DecidableEq

/-- The loop of `consoleread` with `n` bytes to go: the console, the characters copied out, and the
end. -/
def readLoop (target : ℕ) (killed : Bool) : ℕ → Cons → Cons × List UInt8 × Result
  | 0, cons => (cons, [], .returned target)
  | n + 1, cons =>
    if cons.r = cons.w then (cons, [], if killed then .returned (-1) else .asleep (n + 1))
    else
      let c := cons.buf (cons.r.toNat % inputBufSize)
      let cons := { cons with r := cons.r + 1 }
      if c = ctrlD then
        if n + 1 < target then ({ cons with r := cons.r - 1 }, [], .returned (target - (n + 1)))
        else (cons, [], .returned (target - (n + 1)))
      else if c = newline then (cons, [c], .returned (target - n))
      else
        let (cons, out, result) := readLoop target killed n cons
        (cons, c :: out, result)

/-- Where a reader is: outside with the last returned value, or in `sleep` with `n` of `target`
bytes to go. -/
inductive Phase
  | outside (value : ℤ)
  | asleep (n target : ℕ)
  deriving DecidableEq

def Result.phase (target : ℕ) : Result → Phase
  | .returned value => .outside value
  | .asleep n => .asleep n target

/-- The console, the readers, and the characters that they received so far. -/
structure World where
  cons : Cons
  phase : ℕ → Phase
  delivered : List (ℕ × UInt8)

/-- A character from the keyboard; a call of `consoleread`; a reader that wakes up. -/
inductive Act
  | intr (c : UInt8)
  | consoleread (p : ℕ) (n : ℤ) (killed : Bool)
  | resume (p : ℕ) (killed : Bool)
  deriving DecidableEq

/-- The end of a section of reader `p`. -/
def World.finish (s : World) (p target : ℕ) (section_ : Cons × List UInt8 × Result) : World where
  cons := section_.1
  phase := update s.phase p (section_.2.2.phase target)
  delivered := s.delivered ++ section_.2.1.map (p, ·)

/-- One step. A count that is not positive is answered with 0 at once. -/
def next (s : World) : Act → Option World
  | .intr c => some { s with cons := consoleintr s.cons c }
  | .consoleread p n killed =>
    match s.phase p with
    | .outside _ => some (s.finish p n.toNat (readLoop n.toNat killed n.toNat s.cons))
    | .asleep _ _ => none
  | .resume p killed =>
    match s.phase p with
    | .asleep n target => some (s.finish p target (readLoop target killed n s.cons))
    | .outside _ => none

def Step (s : World) (a : Act) (t : World) : Prop := next s a = some t

/-- After `consoleinit`. -/
def init : World := ⟨⟨fun _ => 0, 0, 0, 0⟩, fun _ => .outside 0, []⟩

/-! ### The desk -/

/-- A committed line, and whether it was committed because it filled the buffer. -/
structure Line where
  text : List UInt8
  full : Bool
  deriving DecidableEq

/-- The committed lines, the number of their characters that were taken, and the line being
edited. -/
structure Desk where
  lines : List Line
  taken : ℕ
  edit : List UInt8
  phase : ℕ → Phase
  delivered : List (ℕ × UInt8)

namespace Desk

def committed (d : Desk) : List UInt8 := (d.lines.map Line.text).flatten

/-- The committed characters that no reader took. -/
def unread (d : Desk) : List UInt8 := d.committed.drop d.taken

/-- A character added to the line, which may commit it. -/
def put (d : Desk) (c : UInt8) : Desk :=
  let text := d.edit ++ [c]
  if c = newline ∨ c = ctrlD then { d with lines := d.lines ++ [⟨text, false⟩], edit := [] }
  else if d.unread.length + text.length =
    inputBufSize then { d with lines := d.lines ++ [⟨text, true⟩], edit := [] }
  else { d with edit := text }

/-- A character typed at the desk. Erase and kill-line work on the line being edited; a character
that finds no room is dropped. -/
def type (d : Desk) (c : UInt8) : Desk :=
  if c = ctrlP then d
  else if c = ctrlU then { d with edit := [] }
  else if c = ctrlH ∨ c = delete then { d with edit := d.edit.dropLast }
  else if c ≠ 0 ∧ d.unread.length + d.edit.length < inputBufSize then d.put
    (if c = carriageReturn then newline else c)
  else d

end Desk

/-- Reading from the unread characters: the number taken, the characters handed out, and the end. An
end-of-file behind some characters stays, and one in front is taken. -/
def takeLoop (target : ℕ) (killed : Bool) : ℕ → List UInt8 → ℕ × List UInt8 × Result
  | 0, _ => (0, [], .returned target)
  | n + 1, [] => (0, [], if killed then .returned (-1) else .asleep (n + 1))
  | n + 1, c :: rest =>
    if c = ctrlD then (if n + 1 < target then 0 else 1, [], .returned (target - (n + 1)))
    else if c = newline then (1, [c], .returned (target - n))
    else
      let (taken, out, result) := takeLoop target killed n rest
      (taken + 1, c :: out, result)

namespace Desk

/-- The end of a section of reader `p`. -/
def finish (d : Desk) (p target : ℕ) (section_ : ℕ × List UInt8 × Result) : Desk :=
  { d with
    taken := d.taken + section_.1
    phase := update d.phase p (section_.2.2.phase target)
    delivered := d.delivered ++ section_.2.1.map (p, ·) }

def next (d : Desk) : Act → Option Desk
  | .intr c => some (d.type c)
  | .consoleread p n killed =>
    match d.phase p with
    | .outside _ => some (d.finish p n.toNat (takeLoop n.toNat killed n.toNat d.unread))
    | .asleep _ _ => none
  | .resume p killed =>
    match d.phase p with
    | .asleep n target => some (d.finish p target (takeLoop target killed n d.unread))
    | .outside _ => none

def Step (d : Desk) (a : Act) (d' : Desk) : Prop := d.next a = some d'

/-- Nothing was typed. -/
def empty : Desk := ⟨[], 0, [], fun _ => .outside 0, []⟩

end Desk

/-! ### What the desk keeps -/

/-- The end-of-file marks are taken and not handed out. -/
theorem takeLoop_out (target : ℕ) (killed : Bool) (n : ℕ) (q : List UInt8) :
    (takeLoop target killed n q).1 ≤ q.length ∧
      (takeLoop target killed n q).2.1 = (q.take (takeLoop target killed n q).1).filter (· ≠ ctrlD) := by
  fun_induction takeLoop target killed n q with
  | case1 => simp
  | case2 => simp
  | case3 n rest => split_ifs <;> simp
  | case4 n rest heof => simp [heof]
  | case5 n c rest heof hline taken out result heq ih =>
    rw [heq] at ih
    simpa [heof] using ih

/-- A section that returns some bytes, fewer than asked for, handed out a whole line or left an
end-of-file in front. -/
theorem takeLoop_eof {target n : ℕ} {killed : Bool} {q : List UInt8} {v : ℤ} (hn : n ≤ target)
    (h : (takeLoop target killed n q).2.2 = .returned v) (hpos : 0 < v) (hlt : v < target) :
    (takeLoop target killed n q).2.1.getLast? = some newline ∨
      (q.drop (takeLoop target killed n q).1).head? = some ctrlD := by
  fun_induction takeLoop target killed n q with
  | case1 =>
    cases h
    exact absurd hlt (lt_irrefl _)
  | case2 n =>
    dsimp only at h
    split_ifs at h
    cases h
    exact absurd hpos (by decide)
  | case3 n rest =>
    cases h
    have hkept : n + 1 < target := by omega
    simp [hkept]
  | case4 n rest => exact .inl rfl
  | case5 n c rest heof hline taken out result heq ih =>
    rw [heq] at ih
    obtain hlast | hhead := ih (by omega) h
    · left
      dsimp only at hlast ⊢
      rw [List.getLast?_cons, hlast]
      rfl
    · exact .inr hhead

namespace Desk

/-- The desk in good order: readers got the characters that they took, in order and without the
end-of-file marks; a committed line has its only newline or end-of-file at its end, where it has one
unless it filled the buffer; and the buffer has room for all. -/
structure Sound (d : Desk) : Prop where
  taken_le : d.taken ≤ d.committed.length
  delivered_eq : d.delivered.map Prod.snd = (d.committed.take d.taken).filter (· ≠ ctrlD)
  lines : ∀ line ∈ d.lines, ∃ body c, line.text = body ++ [c] ∧ (∀ x ∈ body, x ≠ newline ∧ x ≠ ctrlD) ∧
    (line.full = false → c = newline ∨ c = ctrlD)
  edit : ∀ x ∈ d.edit, x ≠ newline ∧ x ≠ ctrlD
  fits : d.unread.length + d.edit.length ≤ inputBufSize

variable {d d' : Desk} {a : Act}

theorem sound_empty : empty.Sound where
  taken_le := le_rfl
  delivered_eq := rfl
  lines line hline := absurd hline (by simp [empty])
  edit x hx := absurd hx (by simp [empty])
  fits := by decide

theorem committed_commit (d : Desk) (text : List UInt8) (full : Bool) :
    committed { d with lines := d.lines ++ [⟨text, full⟩], edit := [] } = d.committed ++ text := by
  simp [committed]

section

variable (h : d.Sound)

include h

/-- A line is committed. -/
theorem Sound.commit {c : UInt8} {full : Bool} (hend : full = false → c = newline ∨ c = ctrlD)
    (hroom : d.unread.length + d.edit.length < 128) :
    Sound { d with lines := d.lines ++ [⟨d.edit ++ [c], full⟩], edit := [] } := by
  have hle := h.taken_le
  refine ⟨?_, ?_, ?_, by simp, ?_⟩
  · rw [committed_commit, List.length_append]
    exact hle.trans (Nat.le_add_right _ _)
  · rw [committed_commit, List.take_append_of_le_length hle]
    exact h.delivered_eq
  · intro line hline
    obtain hline | hline := List.mem_append.mp hline
    · exact h.lines line hline
    · rw [List.mem_singleton.mp hline]
      exact ⟨d.edit, c, rfl, h.edit, hend⟩
  · rw [unread, List.length_drop] at hroom
    rw [unread, committed_commit]
    simp only [List.length_drop, List.length_append, List.length_cons, List.length_nil]
    change _ ≤ 128
    omega

/-- The line being edited changes. -/
theorem Sound.setEdit {edit : List UInt8} (hplain : ∀ x ∈ edit, x ≠ newline ∧ x ≠ ctrlD)
    (hfits : d.unread.length + edit.length ≤ inputBufSize) : Sound { d with edit } :=
  ⟨h.taken_le, h.delivered_eq, h.lines, hplain, hfits⟩

theorem Sound.put (c : UInt8) (hroom : d.unread.length + d.edit.length < 128) : (d.put c).Sound := by
  unfold Desk.put
  dsimp only
  split_ifs with hend hfull
  · exact h.commit (fun _ => hend) hroom
  · exact h.commit (fun hfull => absurd hfull (by simp)) hroom
  · refine h.setEdit (fun x hx => ?_) ?_
    · obtain hx | hx := List.mem_append.mp hx
      · exact h.edit x hx
      · rw [List.mem_singleton.mp hx]
        exact not_or.mp hend
    · rw [List.length_append, List.length_singleton]
      exact hroom

theorem Sound.type (c : UInt8) : (d.type c).Sound := by
  have hfits := h.fits
  unfold Desk.type
  split_ifs with hp hu herase hroom hreturn
  · exact h
  · exact h.setEdit (by simp) ((Nat.add_le_add_left (Nat.zero_le _) _).trans hfits)
  · refine h.setEdit (fun x hx => h.edit x (List.dropLast_subset _ hx)) ?_
    rw [List.length_dropLast]
    omega
  · exact h.put _ hroom.2
  · exact h.put _ hroom.2
  · exact h

theorem Sound.finish (p target n : ℕ) (killed : Bool) :
    (d.finish p target (takeLoop target killed n d.unread)).Sound := by
  have hle := h.taken_le
  have hfits := h.fits
  obtain ⟨htake, hout⟩ := takeLoop_out target killed n d.unread
  have hunread : d.unread.length = d.committed.length - d.taken := List.length_drop
  refine ⟨?_, ?_, h.lines, h.edit, ?_⟩
  · change d.taken + _ ≤ d.committed.length
    omega
  · change (d.delivered ++ _).map Prod.snd = (d.committed.take (d.taken + _)).filter (· ≠ ctrlD)
    rw [List.map_append, h.delivered_eq, List.take_add, List.filter_append, hout, List.map_map]
    congr 1
    exact List.map_id _
  · change (d.committed.drop (d.taken + _)).length + d.edit.length ≤ inputBufSize
    rw [List.length_drop]
    omega

theorem Sound.step (hstep : Step d a d') : d'.Sound := by
  cases a with
  | intr c =>
    cases hstep
    exact h.type c
  | consoleread p n killed =>
    simp only [Step, Desk.next] at hstep
    split at hstep
    · cases hstep
      exact h.finish p n.toNat n.toNat killed
    · cases hstep
  | resume p killed =>
    simp only [Step, Desk.next] at hstep
    split at hstep
    · cases hstep
      exact h.finish p _ _ killed
    · cases hstep

end

end Desk

/-! ### The buffer follows the desk -/

/-- The buffer holds what the desk holds, between the indices. -/
structure Agrees (s : World) (d : Desk) : Prop where
  ring : Ring inputBufSize (2 ^ 32) (d.committed ++ d.edit) d.taken s.cons.buf s.cons.r.toNat s.cons.e.toNat
  w_eq : s.cons.w.toNat = d.committed.length % 2 ^ 32
  phase_eq : s.phase = d.phase
  delivered_eq : s.delivered = d.delivered

section Indices

variable {base edit : List UInt8} {taken : ℕ} {cons : Cons}
  (hring : Ring inputBufSize (2 ^ 32) (base ++ edit) taken cons.buf cons.r.toNat cons.e.toNat)
  (hw : cons.w.toNat = base.length % 2 ^ 32) (hle : taken ≤ base.length)

include hring in
theorem e_sub_r : (cons.e - cons.r).toNat = base.length + edit.length - taken := by
  rw [UInt32.toNat_sub, hring.count_eq (by decide), List.length_append]

include hring hw hle

/-- The committed part of the buffer. -/
theorem ring_committed : Ring inputBufSize (2 ^ 32) base taken cons.buf cons.r.toNat cons.w.toNat := by
  rw [hw]
  exact hring.left hle

theorem w_sub_r : (cons.w - cons.r).toNat = base.length - taken := by
  rw [UInt32.toNat_sub, (ring_committed hring hw hle).count_eq (by decide)]

/-- The part of the buffer that is being edited. -/
theorem ring_edit : Ring inputBufSize (2 ^ 32)
    (base ++ edit) base.length cons.buf cons.w.toNat cons.e.toNat := by
  rw [hw]
  exact hring.skip hle (by rw [List.length_append]; omega)

theorem e_sub_w : (cons.e - cons.w).toNat = edit.length := by
  rw [UInt32.toNat_sub, (ring_edit hring hw hle).count_eq (by decide), List.length_append,
    Nat.add_sub_cancel_left]

theorem e_eq_w_iff : cons.e = cons.w ↔ edit = [] := by
  rw [eq_comm, ← UInt32.toNat_inj, (ring_edit hring hw hle).tail_eq_head_iff (by decide), List.length_append,
    Nat.left_eq_add, List.length_eq_zero_iff]

end Indices

variable {s : World} {d : Desk} {base edit : List UInt8} {taken : ℕ} {cons : Cons}

/-- The last character of the line is erased. -/
theorem ring_erase {x : UInt8}
    (hring : Ring inputBufSize (2 ^ 32) (base ++ (edit ++ [x])) taken cons.buf cons.r.toNat cons.e.toNat)
    (hle : taken ≤ base.length) :
    Ring inputBufSize (2 ^ 32) (base ++ edit) taken cons.buf cons.r.toNat (cons.e - 1).toNat ∧
      cons.buf ((cons.e - 1).toNat % inputBufSize) = x := by
  have hhead : (cons.e - 1).toNat = (base ++ edit).length % 2 ^ 32 := by
    have he := hring.head_eq
    rw [List.length_append, List.length_append, List.length_singleton] at he
    rw [UInt32.toNat_sub, he, List.length_append]
    change (2 ^ 32 - 1 + _) % 2 ^ 32 = _
    omega
  have hlast := hring.holds (base ++ edit).length (by rw [List.length_append]; omega) (by simp)
  rw [← List.append_assoc] at hring hlast
  refine ⟨?_, ?_⟩
  · rw [hhead]
    exact hring.left (by rw [List.length_append]; omega)
  · rw [List.getElem?_concat_length] at hlast
    rw [hhead, Nat.mod_mod_of_dvd _ (by decide)]
    exact (Option.some.inj hlast).symm

/-- Kill-line removes the uncommitted characters, none of which is a newline, and nothing else. -/
theorem killLine_eq (hring : Ring inputBufSize (2 ^ 32)
    (base ++ edit) taken cons.buf cons.r.toNat cons.e.toNat)
    (hw : cons.w.toNat = base.length % 2 ^ 32) (hle : taken ≤ base.length)
    (hplain : ∀ x ∈ edit, x ≠ newline) :
    killLine edit.length cons = { cons with e := cons.w } := by
  induction edit using List.reverseRecOn generalizing cons with
  | nil =>
    have he := (e_eq_w_iff hring hw hle).mpr rfl
    exact congrArg (fun e => ({ cons with e } : Cons)) he
  | append_singleton edit x ih =>
    obtain ⟨herased, hx⟩ := ring_erase hring hle
    have hne : cons.e ≠ cons.w := fun heq => absurd ((e_eq_w_iff hring hw hle).mp heq) (by simp)
    rw [List.length_append, List.length_singleton, killLine,
      if_pos ⟨hne, by rw [hx]; exact hplain x (by simp)⟩]
    refine ih ?_ hw fun y hy => hplain y (by simp [hy])
    exact herased

/-- A section of a reader takes from the buffer what it would take from the list. -/
theorem readLoop_eq {target : ℕ} {killed : Bool} (n : ℕ)
    (hring : Ring inputBufSize (2 ^ 32) base taken cons.buf cons.r.toNat cons.w.toNat) :
    readLoop target killed n cons =
      ({ cons with r := UInt32.ofNat (taken + (takeLoop target killed n (base.drop taken)).1) },
        (takeLoop target killed n (base.drop taken)).2) := by
  have hr : cons.r = UInt32.ofNat taken := UInt32.toNat_inj.mp (by rw [hring.tail_eq, UInt32.toNat_ofNat'])
  induction n generalizing taken cons with
  | zero => simp only [readLoop, takeLoop, Nat.add_zero, ← hr]
  | succ n ih =>
    have hempty : cons.r = cons.w ↔ taken = base.length := by
      rw [← UInt32.toNat_inj, hring.tail_eq_head_iff (by decide)]
    by_cases hall : taken = base.length
    · have hnil : base.drop taken = [] := by rw [hall, List.drop_length]
      rw [readLoop, if_pos (hempty.mpr hall), hnil, takeLoop]
      simp only [Nat.add_zero, ← hr]
    · have hlt : taken < base.length := lt_of_le_of_ne hring.taken_le hall
      have hfirst := hring.oldest (by decide) hall
      have hdrop : base.drop taken = cons.buf (cons.r.toNat % inputBufSize) :: base.drop (taken + 1) := by
        rw [List.drop_eq_getElem_cons hlt]
        rw [List.getElem?_eq_getElem hlt] at hfirst
        rw [Option.some.inj hfirst]
      have hnext : cons.r + 1 = UInt32.ofNat (taken + 1) := by
        rw [hr, UInt32.ofNat_add]
        rfl
      have hpop : Ring inputBufSize (2 ^ 32) base (taken + 1) cons.buf (cons.r + 1).toNat cons.w.toNat := by
        rw [UInt32.toNat_add]
        exact hring.pop hall
      rw [readLoop, if_neg (mt hempty.mp hall), hdrop, takeLoop]
      dsimp only
      split_ifs with heof hmore hline
      · rw [Nat.add_zero, ← hr, UInt32.add_sub_cancel]
      · rw [← hnext]
      · rw [← hnext, hline]
      · have hrest := @ih (taken + 1) { cons with r := cons.r + 1 } hpop hnext
        rw [hrest]
        simp only [Nat.add_assoc, Nat.add_comm 1]

/-- The buffer with a new character that finds room. -/
theorem ring_store (hring : Ring inputBufSize (2 ^ 32)
    (base ++ edit) taken cons.buf cons.r.toNat cons.e.toNat)
    (hroom : base.length + edit.length < taken + 128) (c : UInt8) :
    Ring inputBufSize (2 ^ 32) (base ++ (edit ++ [c])) taken
      (update cons.buf (cons.e.toNat % inputBufSize) c) cons.r.toNat (cons.e + 1).toNat := by
  have hpush := hring.push (by decide) (by rw [List.length_append]; change _ ≠ taken + 128; omega) c
  rw [List.append_assoc] at hpush
  rw [UInt32.toNat_add]
  exact hpush

section

variable (h : Agrees s d) (hle : d.taken ≤ d.committed.length)

include h hle

theorem Agrees.store
    (hroom : d.unread.length + d.edit.length < 128) (c : UInt8) :
    Agrees { s with cons := store s.cons c } (d.put c) := by
  have hunread : d.unread.length = d.committed.length - d.taken := List.length_drop
  have hring := ring_store h.ring (by omega) c
  have hfull : s.cons.e + 1 - s.cons.r = 128 ↔ d.unread.length + (d.edit ++ [c]).length = inputBufSize := by
    have hsub : (s.cons.e + 1 - s.cons.r).toNat = _ := @e_sub_r _ _ _ { s.cons with
      buf := update s.cons.buf (s.cons.e.toNat % inputBufSize) c, e := s.cons.e + 1 } hring
    rw [← UInt32.toNat_inj, hsub, hunread]
    change _ = 128 ↔ _ = 128
    omega
  have hcommit (full : Bool) : Agrees { s with cons := { s.cons with
      buf := update s.cons.buf (s.cons.e.toNat % inputBufSize) c, e := s.cons.e + 1, w := s.cons.e + 1 } }
      { d with lines := d.lines ++ [⟨d.edit ++ [c], full⟩], edit := [] } := by
    refine ⟨?_, ?_, h.phase_eq, h.delivered_eq⟩
    · rw [Desk.committed_commit, List.append_nil]
      exact hring
    · rw [Desk.committed_commit]
      exact hring.head_eq
  unfold Console.store Desk.put
  dsimp only
  split_ifs with hany hend hsize hend hsize
  · exact hcommit false
  · exact hcommit true
  · exact absurd (hany.resolve_left (fun hc => hend (.inl hc)) |>.resolve_left fun hc => hend
      (.inr hc)) (mt hfull.mp hsize)
  · exact absurd (hend.imp_right .inl) hany
  · exact absurd (.inr (.inr (hfull.mpr hsize))) hany
  · exact ⟨hring, h.w_eq, h.phase_eq, h.delivered_eq⟩

theorem Agrees.erase :
    Agrees { s with cons := if s.cons.e ≠ s.cons.w then { s.cons with e := s.cons.e - 1 } else s.cons }
      { d with edit := d.edit.dropLast } := by
  have hring := h.ring
  obtain hedit | ⟨edit, x, hedit⟩ := d.edit.eq_nil_or_concat
  · rw [if_neg (not_not.mpr ((e_eq_w_iff hring h.w_eq hle).mpr hedit)), hedit]
    rw [hedit] at hring
    exact ⟨hring, h.w_eq, h.phase_eq, h.delivered_eq⟩
  · have hne : s.cons.e ≠ s.cons.w := mt (e_eq_w_iff hring h.w_eq hle).mp (by simp [hedit])
    rw [if_pos hne, hedit, List.concat_eq_append, List.dropLast_concat]
    rw [hedit, List.concat_eq_append] at hring
    exact ⟨(ring_erase hring hle).1, h.w_eq, h.phase_eq, h.delivered_eq⟩

omit hle in
theorem Agrees.intr (hsound : d.Sound) (c : UInt8) :
    Agrees { s with cons := consoleintr s.cons c } (d.type c) := by
  have hle := hsound.taken_le
  have hunread : d.unread.length = d.committed.length - d.taken := List.length_drop
  have hroom : s.cons.e - s.cons.r < 128 ↔ d.unread.length + d.edit.length < inputBufSize := by
    rw [UInt32.lt_iff_toNat_lt, e_sub_r h.ring]
    change _ < 128 ↔ _ < 128
    omega
  unfold consoleintr Desk.type
  by_cases hp : c = ctrlP
  · rw [if_pos hp, if_pos hp]
    exact h
  rw [if_neg hp, if_neg hp]
  by_cases hu : c = ctrlU
  · rw [if_pos hu, if_pos hu, e_sub_w h.ring h.w_eq hle,
      killLine_eq h.ring h.w_eq hle fun x hx => (hsound.edit x hx).1]
    have hring := ring_committed h.ring h.w_eq hle
    refine ⟨?_, h.w_eq, h.phase_eq, h.delivered_eq⟩
    rw [List.append_nil]
    exact hring
  rw [if_neg hu, if_neg hu]
  by_cases herase : c = ctrlH ∨ c = delete
  · rw [if_pos herase, if_pos herase]
    exact h.erase hle
  rw [if_neg herase, if_neg herase]
  simp only [hroom]
  by_cases hput : c ≠ 0 ∧ d.unread.length + d.edit.length < inputBufSize
  · rw [if_pos hput, if_pos hput]
    exact h.store hle hput.2 _
  · rw [if_neg hput, if_neg hput]
    exact h

theorem Agrees.finish (p target n : ℕ) (killed : Bool) :
    Agrees (s.finish p target (readLoop target killed n s.cons))
      (d.finish p target (takeLoop target killed n d.unread)) := by
  have hring := ring_committed h.ring h.w_eq hle
  obtain ⟨htake, -⟩ := takeLoop_out target killed n d.unread
  have hunread : d.unread.length = d.committed.length - d.taken := List.length_drop
  have hread := @readLoop_eq _ _ _ target killed n hring
  rw [hread]
  refine ⟨?_, h.w_eq, ?_, ?_⟩
  · have hskip := h.ring.skip (k := d.taken + (takeLoop target killed n d.unread).1) (by omega)
      (by rw [List.length_append]; omega)
    simp only [World.finish]
    exact hskip
  · simp only [World.finish, h.phase_eq]
    rfl
  · simp only [World.finish, h.delivered_eq]
    rfl

end

theorem agrees_init : Agrees init Desk.empty where
  ring := Ring.empty _
  w_eq := rfl
  phase_eq := rfl
  delivered_eq := rfl

/-- Each step of the console is the desk's. -/
theorem Agrees.step {t : World} {a : Act} (h : Agrees s d) (hsound : d.Sound) (hstep : Step s a t) :
    ∃ d', Desk.Step d a d' ∧ Agrees t d' := by
  cases a with
  | intr c =>
    cases hstep
    exact ⟨_, rfl, h.intr hsound c⟩
  | consoleread p n killed =>
    simp only [Step, next] at hstep
    split at hstep
    case h_1 v hout =>
      cases hstep
      rw [h.phase_eq] at hout
      refine ⟨_, ?_, h.finish hsound.taken_le p n.toNat n.toNat killed⟩
      simp only [Desk.Step, Desk.next, hout]
    case h_2 => cases hstep
  | resume p killed =>
    simp only [Step, next] at hstep
    split at hstep
    case h_1 n target hasleep =>
      cases hstep
      rw [h.phase_eq] at hasleep
      refine ⟨_, ?_, h.finish hsound.taken_le p target n killed⟩
      simp only [Desk.Step, Desk.next, hasleep]
    case h_2 => cases hstep

/-! ### The discipline -/

/-- Erase and kill-line move only the index of the line being edited, and not below the committed
part. -/
theorem erase_keeps_committed (h : Agrees s d) (hsound : d.Sound) {c : UInt8}
    (hc : c = ctrlU ∨ c = ctrlH ∨ c = delete) :
    (consoleintr s.cons c).buf = s.cons.buf ∧ (consoleintr s.cons c).r = s.cons.r ∧
      (consoleintr s.cons c).w = s.cons.w ∧
      ((consoleintr s.cons c).e - (consoleintr s.cons c).w).toNat ≤ (s.cons.e - s.cons.w).toNat := by
  have hle := hsound.taken_le
  have hkeeps : (consoleintr s.cons c).buf = s.cons.buf ∧ (consoleintr s.cons c).r = s.cons.r ∧
      (consoleintr s.cons c).w = s.cons.w := by
    unfold consoleintr
    obtain rfl | rfl | rfl := hc
    · rw [if_neg (by decide), if_pos rfl, e_sub_w h.ring h.w_eq hle,
        killLine_eq h.ring h.w_eq hle fun x hx => (hsound.edit x hx).1]
      exact ⟨rfl, rfl, rfl⟩
    all_goals
      rw [if_neg (by decide), if_neg (by decide), if_pos (by decide)]
      split_ifs <;> exact ⟨rfl, rfl, rfl⟩
  have hafter := h.intr hsound c
  have hshort : (d.type c).committed = d.committed ∧ (d.type c).taken = d.taken ∧
      (d.type c).edit.length ≤ d.edit.length := by
    unfold Desk.type
    obtain rfl | rfl | rfl := hc
    · rw [if_neg (by decide), if_pos rfl]
      exact ⟨rfl, rfl, Nat.zero_le _⟩
    all_goals
      rw [if_neg (by decide), if_neg (by decide), if_pos (by decide)]
      exact ⟨rfl, rfl, by simp⟩
  refine ⟨hkeeps.1, hkeeps.2.1, hkeeps.2.2, ?_⟩
  rw [e_sub_w hafter.ring hafter.w_eq (by rw [hshort.1, hshort.2.1]; exact hle), e_sub_w h.ring h.w_eq hle]
  exact hshort.2.2

/-- A section that returns some bytes, fewer than asked for, ends with a newline or leaves an
end-of-file for the next read. -/
theorem readLoop_keeps_eof (h : Agrees s d) (hle : d.taken ≤ d.committed.length) {target n : ℕ}
    {killed : Bool} {v : ℤ} (hn : n ≤ target)
    (hret : (readLoop target killed n s.cons).2.2 = .returned v) (hpos : 0 < v)
    (hlt : v < target) : (readLoop target killed n s.cons).2.1.getLast? = some newline ∨
      (readLoop target killed n s.cons).1.r ≠ s.cons.w ∧
        s.cons.buf ((readLoop target killed n s.cons).1.r.toNat % inputBufSize) = ctrlD := by
  have hring := ring_committed h.ring h.w_eq hle
  have hread := @readLoop_eq _ _ _ target killed n hring
  rw [hread] at hret ⊢
  obtain hline | heof := takeLoop_eof hn hret hpos hlt
  · exact .inl hline
  · right
    rw [List.drop_drop, List.head?_drop] at heof
    obtain ⟨htaken, -⟩ := takeLoop_out target killed n (d.committed.drop d.taken)
    obtain ⟨hlt, -⟩ := List.getElem?_eq_some_iff.mp heof
    -- The reader's index after the section is that of the end-of-file.
    have hring' := hring.skip (k :=
      d.taken + (takeLoop target killed n (d.committed.drop d.taken)).1) (by omega) hlt.le
    rw [← UInt32.toNat_ofNat'] at hring'
    refine ⟨fun heq => hlt.ne ((hring'.tail_eq_head_iff (by decide)).mp (congrArg UInt32.toNat heq)), ?_⟩
    exact Option.some.inj ((hring'.oldest (by decide) hlt.ne).symm.trans heof)

/-- What a console and its desk have in common. -/
structure Disciplined (s : World) (d : Desk) : Prop where
  /-- `r ≤ w ≤ e ≤ r + INPUT_BUF_SIZE`, with the distances that the wrapping indices show. -/
  unread : (s.cons.w - s.cons.r).toNat = d.unread.length
  edit : (s.cons.e - s.cons.w).toNat = d.edit.length
  all : (s.cons.e - s.cons.r).toNat = d.unread.length + d.edit.length
  fits : d.unread.length + d.edit.length ≤ inputBufSize
  /-- Erase and kill-line stay behind `w`. -/
  erase : ∀ c, c = ctrlU ∨ c = ctrlH ∨ c = delete →
    (consoleintr s.cons c).buf = s.cons.buf ∧ (consoleintr s.cons c).r = s.cons.r ∧
      (consoleintr s.cons c).w = s.cons.w ∧
      ((consoleintr s.cons c).e - (consoleintr s.cons c).w).toNat ≤ (s.cons.e - s.cons.w).toNat
  /-- Readers got the committed characters in order. -/
  delivered : s.delivered.map Prod.snd = (d.committed.take d.taken).filter (· ≠ ctrlD)
  lines : ∀ line ∈ d.lines, ∃ body c, line.text = body ++ [c] ∧ (∀ x ∈ body, x ≠ newline ∧ x ≠ ctrlD) ∧
    (line.full = false → c = newline ∨ c = ctrlD)
  eof : ∀ target n killed v, n ≤ target → (readLoop target killed n s.cons).2.2 = .returned v →
    0 < v → v < target →
    (readLoop target killed n s.cons).2.1.getLast? = some newline ∨
      (readLoop target killed n s.cons).1.r ≠ s.cons.w ∧
        s.cons.buf ((readLoop target killed n s.cons).1.r.toNat % inputBufSize) = ctrlD

theorem Agrees.disciplined (h : Agrees s d) (hsound : d.Sound) : Disciplined s d := by
  have hle := hsound.taken_le
  have hunread : d.unread.length = d.committed.length - d.taken := List.length_drop
  refine ⟨?_, e_sub_w h.ring h.w_eq hle, ?_, hsound.fits,
    fun c hc => erase_keeps_committed h hsound hc, ?_, hsound.lines,
    fun target n killed v hn hret hpos hlt => readLoop_keeps_eof h hle hn hret hpos hlt⟩
  · rw [w_sub_r h.ring h.w_eq hle, hunread]
  · rw [e_sub_r h.ring, hunread]
    omega
  · rw [h.delivered_eq]
    exact hsound.delivered_eq

/-- Whatever is typed and read, the console does what the desk does with the same actions. -/
theorem console_disciplined {acts : List Act} {s : World} (hrun : Run Step init acts s) :
    ∃ d, Run Desk.Step Desk.empty acts d ∧ Disciplined s d := by
  have hsim (s : World) (a : Act) (t : World) (d : Desk) (h : Agrees s d ∧ d.Sound) (hstep : Step s a t) :
      ∃ d', Desk.Step d a d' ∧ Agrees t d' ∧ d'.Sound := by
    obtain ⟨d', hdesk, hagrees⟩ := h.1.step h.2 hstep
    exact ⟨d', hdesk, hagrees, h.2.step hdesk⟩
  obtain ⟨d, hdesk, hagrees, hsound⟩ := hrun.simulates hsim ⟨agrees_init, Desk.sound_empty⟩
  exact ⟨d, hdesk, hagrees.disciplined hsound⟩

/-- A line with an erased character, and a read that meets an end-of-file behind two others. -/
theorem console_disciplined_typed : ∃ s, Run Step init
    [.intr 97, .intr 98, .intr delete, .intr 99, .intr ctrlD, .consoleread 0 10 false] s ∧
      s.delivered = [(0, 97), (0, 99)] ∧ s.phase 0 = .outside 2 ∧ ∃ d, Disciplined s d := by
  obtain ⟨s, hrun, hdelivered, hphase⟩ : ∃ s, Run Step init
      [.intr 97, .intr 98, .intr delete, .intr 99, .intr ctrlD, .consoleread 0 10 false] s ∧
      s.delivered = [(0, 97), (0, 99)] ∧ s.phase 0 = .outside 2 := exists_run id (by decide +kernel)
  obtain ⟨d, -, hd⟩ := console_disciplined hrun
  exact ⟨s, hrun, hdelivered, hphase, d, hd⟩

/-- A line of 128 characters is committed and read, with no newline or end-of-file typed. -/
theorem full_buffer_commits :
    ∃ s, Run Step init (List.replicate 128 (.intr 97) ++ [.consoleread 0 128 false]) s ∧
    s.delivered = List.replicate 128 (0, 97) ∧ s.phase 0 = .outside 128 :=
  exists_run id (by decide +kernel)

end Xv6.Console
