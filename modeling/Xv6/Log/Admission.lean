import Mathlib.Data.Finset.Card
import Mathlib.Data.Set.Finite.Basic
import Xv6.Log.Ops

/-!
# Admission of operations to the log

`begin_op` reserves `maxOpBlocks` for each operation and lets reservations grow to
`logSize` blocks, while `log_write` refuses a log that already holds `size - 1`, even for
a block that would be absorbed. The demand that counts is the blocks already logged plus
the pending ones: while every admission leaves it below `size - 1` no call runs out of
space, and an admission that does not can be followed by the panic.
-/

namespace Xv6

open Lib

/-- With one more operation the log stays below the limit of `log_write`. -/
def LogSys.Spare (s : LogSys) : Prop :=
  s.log.lh.block.length + s.pending + maxOpBlocks < s.log.size - 1

/-- A step that admits an operation only while the log has room for it. -/
def LogSys.SpareStep (s : LogSys) (a : LogAction) (t : LogSys) : Prop :=
  s.Step a t ∧ ∀ p, a = .beginOp p → s.Spare

/-- Neither the log overflows nor does the next `log_write` of an operation within its
allowance panic for lack of space. -/
def LogSys.Safe (s : LogSys) : Prop :=
  s.log.lh.block.length ≤ s.log.size - 1 ∧
    ∀ a, s.next a ≠ some (.error (.panic "too big a transaction"))

namespace LogSys

variable {s t : LogSys} {a : LogAction} {p b : ℕ}

/-- The demand that may still come stays below the limit of `log_write`. -/
def Budget (s : LogSys) : Prop := s.log.lh.block.length + s.pending < s.log.size - 1

/-- Every step that admits operations only while there is room keeps the budget. -/
theorem Budget.step (hs : s.Tracked) (hbudget : s.Budget) (h : s.SpareStep a t) : t.Budget := by
  unfold Budget pending at hbudget ⊢
  rcases step_cases h.1 with ⟨p, rfl, hp, hadmits, rfl⟩ | ⟨p, b, logged, r, rfl, hlookup, hallow, hr, rfl⟩ |
    ⟨p, r, rfl, hp, hr, rfl⟩ | ⟨rfl, hcommitting, rfl⟩
  · have hspare := h.2 p rfl
    unfold Spare pending at hspare
    simp only [pendingOf_cons]
    omega
  · have hpending := pendingOf_noteBlock hs.keys hlookup hallow
    have hknown : b ∈ logged → b ∈ s.log.lh.block := hs.logged _ (mem_of_lookup hlookup) b
    rcases (recordBlock_ok hr).2 with ⟨hb, rfl⟩ | ⟨hb, lh, hlh, rfl⟩
    · dsimp only
      omega
    · rw [if_neg fun hmem => hb (hknown hmem)] at hpending
      simp only [hlh, List.length_append, List.length_singleton]
      omega
  · obtain ⟨hsize, hlh, _, _⟩ := endOpStart_ok hr
    have hle := pendingOf_le_of_sublist (List.eraseP_sublist (p := fun o : ℕ × List ℕ => o.1 = p)
      (l := s.ops))
    rw [hsize, hlh]
    dsimp only at hle ⊢
    omega
  · simp only [LogHeader.empty, List.length_nil]
    omega

/-- The only call that reports a transaction too big is `log_write` of a full log. -/
theorem next_too_big (h : s.next a = some (.error (.panic "too big a transaction"))) :
    logSize ≤ s.log.lh.block.length ∨ s.log.size ≤ s.log.lh.block.length + 1 := by
  cases a with
  | beginOp p =>
    simp only [next] at h
    split at h <;> simp at h
  | logWrite p b =>
    simp only [next] at h
    split at h
    · cases h
    · split at h
      · refine (recordBlock_too_big (b := b)).mp ?_
        cases hr : recordBlock s.log b with
        | error e => simpa [hr, Except.map] using h
        | ok r => simp [hr, Except.map] at h
      · cases h
  | endOp p =>
    simp only [next] at h
    split at h
    · simp only [endOpStart] at h
      split at h
      · simp [Except.map] at h
      · split at h <;> simp [Except.map] at h
    · cases h
  | committed =>
    simp only [next] at h
    split at h <;> simp at h

/-- Within the budget the log is safe. -/
theorem Budget.safe (hs : s.Tracked) (hbudget : s.Budget) : s.Safe := by
  have hsize := hs.size
  unfold Budget at hbudget
  refine ⟨by omega, fun a ha => ?_⟩
  rcases next_too_big ha with hfull | hfull <;> omega

/-- A run that admits operations only while there is room keeps the bookkeeping and the budget. -/
theorem tracked_budget_of_run {as : List LogAction} (hs : s.Tracked ∧ s.Budget) (h : Run SpareStep s as t) :
    t.Tracked ∧ t.Budget := by
  have hstep : ∀ s a t, s.Tracked ∧ s.Budget → SpareStep s a t → t.Tracked ∧ t.Budget :=
    fun _ _ _ hs hstep => ⟨hs.1.step hstep.1, hs.2.step hs.1 hstep⟩
  exact h.invariant hstep hs

/-- The booted log is within its budget. -/
theorem tracked_budget_boot (dev start : ℕ) : (boot dev start).Tracked ∧ (boot dev start).Budget := by
  refine ⟨⟨rfl, List.nodup_nil, rfl, by simp [boot], by simp [boot]⟩, ?_⟩
  simp only [Budget, boot, pending]
  decide

/-- Some operation has allowance left while any is pending. -/
theorem Tracked.exists_allowance (hs : s.Tracked) (h : s.pending ≠ 0) :
    ∃ p logged, s.ops.lookup p = some logged ∧ logged.length < maxOpBlocks := by
  obtain ⟨o, ho, hlen⟩ := exists_mem_of_pendingOf h
  exact ⟨o.1, o.2, (lookup_eq_some_iff_mem hs.keys).mpr ho, hlen⟩

/-- An operation with allowance left can log a new block while the log has room. -/
theorem Tracked.exists_write (hs : s.Tracked) {logged : List ℕ} (hlookup : s.ops.lookup p = some logged)
    (hlen : logged.length < maxOpBlocks) (hroom : s.log.lh.block.length + 1 < s.log.size) :
    ∃ a t, s.SpareStep a t ∧ t.Tracked ∧ t.ops ≠ [] ∧ t.log.size = s.log.size ∧
      t.log.lh.block.length = s.log.lh.block.length + 1 ∧ t.pending + 1 = s.pending := by
  obtain ⟨b, hb⟩ := Infinite.exists_notMem_finset s.log.lh.block.toFinset
  rw [List.mem_toFinset] at hb
  have hmem := mem_of_lookup hlookup
  have hsize := hs.size
  have houtstanding : ¬ s.log.outstanding < 1 := by
    rw [← hs.count]
    exact Nat.not_lt.mpr (List.length_pos_of_mem hmem)
  have hfull : ¬ (logSize ≤ s.log.lh.block.length ∨ s.log.size ≤ s.log.lh.block.length + 1) := by omega
  obtain ⟨r, hr⟩ : ∃ r, recordBlock s.log b = .ok r := by
    unfold recordBlock
    rw [dif_neg hfull, if_neg houtstanding, if_neg hb]
    exact ⟨_, rfl⟩
  have hstep : s.Step (.logWrite p b) ⟨r.1, noteBlock p b s.ops⟩ := by
    simp only [Step, next, hlookup, hlen, or_true, if_true, hr, Except.map]
  have hpending := pendingOf_noteBlock hs.keys hlookup (b := b) (Or.inr hlen)
  rw [if_neg fun hknown => hb (hs.logged _ hmem b hknown)] at hpending
  rcases (recordBlock_ok hr).2 with ⟨hknown, _⟩ | ⟨_, lh, hlh, rfl⟩
  · exact absurd hknown hb
  · refine ⟨_, _, ⟨hstep, fun q hq => by cases hq⟩, hs.step hstep, ?_, rfl, ?_, hpending⟩
    · intro hnil
      have hzero : (noteBlock p b s.ops).length = 0 := congrArg List.length hnil
      rw [length_noteBlock] at hzero
      exact absurd hzero (Nat.ne_of_gt (List.length_pos_of_mem hmem))
    · simp [hlh]

/-- With no room left, any running operation meets the panic. -/
theorem Tracked.not_safe (hs : s.Tracked) (hops : s.ops ≠ [])
    (hfull : s.log.size - 1 ≤ s.log.lh.block.length) : ¬ s.Safe := by
  obtain ⟨o, ho⟩ := List.exists_mem_of_ne_nil _ hops
  have hlookup := (lookup_eq_some_iff_mem hs.keys).mpr ho
  obtain ⟨b, hb⟩ : ∃ b, b ∈ o.2 ∨ o.2.length < maxOpBlocks := by
    by_cases hlen : o.2.length < maxOpBlocks
    · exact ⟨0, Or.inr hlen⟩
    · obtain ⟨b, hb⟩ := List.exists_mem_of_length_pos
        (Nat.lt_of_lt_of_le (by decide : 0 < maxOpBlocks) (Nat.not_lt.mp hlen))
      exact ⟨b, Or.inl hb⟩
  intro hsafe
  refine hsafe.2 (.logWrite o.1 b) ?_
  have hpanic := (recordBlock_too_big (b := b)).mpr (show logSize ≤ s.log.lh.block.length ∨
    s.log.size ≤ s.log.lh.block.length + 1 by omega)
  simp only [next, hlookup, hb, if_true, hpanic, Except.map]

/-- Once the demand reaches the limit, running operations can drive the log into the panic. -/
theorem Tracked.exists_panic (k : ℕ) (hs : s.Tracked) (hops : s.ops ≠ [])
    (hdemand : s.log.size - 1 ≤ s.log.lh.block.length + s.pending)
    (hk : s.log.size - 1 - s.log.lh.block.length = k) :
    ∃ as t, Run SpareStep s as t ∧ ¬ t.Safe := by
  induction k generalizing s with
  | zero => exact ⟨[], s, .nil s, hs.not_safe hops (by omega)⟩
  | succ k ih =>
    obtain ⟨p, logged, hlookup, hlen⟩ := hs.exists_allowance (by omega)
    obtain ⟨a, t, hstep, ht, htops, htsize, htlen, htpending⟩ := hs.exists_write hlookup hlen (by omega)
    obtain ⟨as, u, hrun, hu⟩ := ih ht htops (by omega) (by omega)
    exact ⟨a :: as, u, .cons hstep hrun, hu⟩

end LogSys

/-- Admission is sound while `begin_op` admits an operation only if the blocks already logged,
those running operations may still log, and those of the new operation stay below
`size - 1`; an operation admitted beyond that can drive `log_write` into its panic. -/
theorem log_admission_safe {dev start : ℕ} {as : List LogAction} {s : LogSys}
    (hrun : Run LogSys.SpareStep (LogSys.boot dev start) as s) :
    s.Safe ∧ ∀ p t, s.Step (.beginOp p) t →
      ((∀ bs u, Run LogSys.SpareStep t bs u → u.Safe) ↔ s.Spare) := by
  have hs := LogSys.tracked_budget_of_run (LogSys.tracked_budget_boot dev start) hrun
  refine ⟨hs.2.safe hs.1, fun p t hstep => ⟨fun hsafe => ?_, fun hspare bs u hu => ?_⟩⟩
  · by_contra hspare
    have ht := hs.1.step hstep
    obtain ⟨q, hq, _, _, rfl⟩ | ⟨_, _, _, _, hq, _⟩ | ⟨_, _, hq, _⟩ | ⟨hq, _⟩ := LogSys.step_cases hstep
    · have hdemand : ¬ s.log.lh.block.length + s.pending + maxOpBlocks < s.log.size - 1 := hspare
      obtain ⟨bs, u, hrun, hu⟩ := ht.exists_panic _ (by simp) (by
        change s.log.size - 1 ≤ s.log.lh.block.length + pendingOf ((q, []) :: s.ops)
        rw [pendingOf_cons, List.length_nil]
        unfold LogSys.pending at hdemand
        omega) rfl
      exact hu (hsafe bs u hrun)
    all_goals cases hq
  · have ht : t.Tracked ∧ t.Budget := ⟨hs.1.step hstep, hs.2.step hs.1 ⟨hstep, fun _ _ => hspare⟩⟩
    have hu := LogSys.tracked_budget_of_run ht hu
    exact hu.2.safe hu.1

/-- An operation that logs one block on a fresh log. -/
theorem log_admission_safe_first_block :
    ∃ s, Run LogSys.SpareStep (LogSys.boot rootDev 2) [.beginOp 0, .logWrite 0 46] s ∧ s.Safe := by
  have hspare : (LogSys.boot rootDev 2).Spare := by
    unfold LogSys.Spare
    decide
  have hrun : Run LogSys.SpareStep (LogSys.boot rootDev 2) [.beginOp 0, .logWrite 0 46]
      ⟨⟨2, logSize, 1, false, rootDev, ⟨[46], by decide⟩⟩, [(0, [46])]⟩ :=
    .cons ⟨rfl, fun _ _ => hspare⟩ (.cons ⟨rfl, fun _ h => by cases h⟩ (.nil _))
  exact ⟨_, hrun, (log_admission_safe hrun).1⟩

/-- Take a step unless the action is not enabled or the kernel halts. -/
def LogSys.advance (s : LogSys) (a : LogAction) : Option LogSys :=
  match s.next a with
  | some (.ok t) => some t
  | _ => none

/-- Executed steps are steps. -/
theorem LogSys.step_of_advance {s t : LogSys} {a : LogAction} (h : s.advance a = some t) : s.Step a t := by
  unfold LogSys.advance at h
  split at h
  · rename_i hnext
    rw [LogSys.Step, hnext, Option.some.inj h]
  · cases h

/-- Three operations are admitted; two log ten blocks each and the third nine. -/
def fullLogActions : List LogAction :=
  [.beginOp 0, .beginOp 1, .beginOp 2] ++ (List.range 10).map (.logWrite 0) ++
    (List.range 10).map (fun b => .logWrite 1 (10 + b)) ++ (List.range 9).map fun b => .logWrite 2 (20 + b)

/-- The tenth block of the third operation runs into the panic. -/
theorem log_admission_panics :
    ∃ s, Run LogSys.Step (LogSys.boot rootDev 2) fullLogActions s ∧
      s.next (.logWrite 2 29) = some (.error (.panic "too big a transaction")) := by
  have hpanic : (runActions LogSys.advance (LogSys.boot rootDev 2) fullLogActions).bind
      (fun s => s.next (.logWrite 2 29)) = some (.error (.panic "too big a transaction")) := rfl
  obtain ⟨s, hs, hnext⟩ := Option.bind_eq_some_iff.mp hpanic
  exact ⟨s, (runActions_eq_some_iff.mp hs).mono fun _ _ _ => LogSys.step_of_advance, hnext⟩

end Xv6
