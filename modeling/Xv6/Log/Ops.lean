import Xv6.Lib.Assoc
import Xv6.Lib.Run
import Xv6.Log

/-!
# Operations sharing the log

Any number of processes run file-system operations against one log. Each of `begin_op`,
`log_write` and the two halves of `end_op` is atomic under `log.lock`; `commit` runs
between the halves while no operation is outstanding. An operation stays within its
allowance of `maxOpBlocks` distinct blocks; what running operations have not used yet is
the log's *pending* demand.
-/

namespace Xv6

open Lib

/-- The log with the running operations: each process with the distinct blocks it has logged. -/
structure LogSys where
  log : Log
  ops : List (ℕ × List ℕ)

/-- An atomic step of some process. -/
inductive LogAction
  | beginOp (p : ℕ)
  | logWrite (p b : ℕ)
  | endOp (p : ℕ)
  | committed
  deriving DecidableEq, Repr

/-- Note that process `p` has logged block `b`. -/
def noteBlock (p b : ℕ) (ops : List (ℕ × List ℕ)) : List (ℕ × List ℕ) :=
  ops.map fun o => if o.1 = p then (p, o.2.insert b) else o

/-- The step taken by an enabled action; `none` when the caller sleeps or does not keep to the
protocol, an error when the kernel panics. -/
def LogSys.next (s : LogSys) : LogAction → Option (Except Halt LogSys)
  | .beginOp p =>
    if p ∈ s.ops.map Prod.fst then none
    else (Xv6.beginOp s.log).map fun lg => .ok ⟨lg, (p, []) :: s.ops⟩
  | .logWrite p b =>
    match s.ops.lookup p with
    | none => none
    | some logged =>
      if b ∈ logged ∨ logged.length < maxOpBlocks then
        some ((recordBlock s.log b).map fun r => ⟨r.1, noteBlock p b s.ops⟩)
      else none
  | .endOp p =>
    if p ∈ s.ops.map Prod.fst then
      some ((endOpStart s.log).map fun r => ⟨r.1, s.ops.eraseP fun o => o.1 = p⟩)
    else none
  | .committed =>
    if s.log.committing then some (.ok ⟨{ s.log with committing := false, lh := .empty }, s.ops⟩)
    else none

/-- A step that does not halt. -/
def LogSys.Step (s : LogSys) (a : LogAction) (t : LogSys) : Prop := s.next a = some (.ok t)

/-- The unused allowance of a list of operations. -/
def pendingOf (ops : List (ℕ × List ℕ)) : ℕ := (ops.map fun o => maxOpBlocks - o.2.length).sum

/-- The blocks that running operations may still log. -/
def LogSys.pending (s : LogSys) : ℕ := pendingOf s.ops

/-- The log as `initlog` leaves it on an image made by `mkfs`, where `nlog` is `LOGSIZE`. -/
def LogSys.boot (dev start : ℕ) : LogSys := ⟨⟨start, logSize, 0, false, dev, .empty⟩, []⟩

/-- The bookkeeping that holds in every run. -/
structure LogSys.Tracked (s : LogSys) : Prop where
  size : s.log.size = logSize
  keys : (s.ops.map Prod.fst).Nodup
  count : s.ops.length = s.log.outstanding
  quiet : s.log.committing = true → s.ops = []
  logged : ∀ o ∈ s.ops, ∀ b ∈ o.2, b ∈ s.log.lh.block

section Note

variable {p b : ℕ} {logged : List ℕ} {ops : List (ℕ × List ℕ)}

/-- Noting a block keeps the processes. -/
@[simp] theorem map_fst_noteBlock : (noteBlock p b ops).map Prod.fst = ops.map Prod.fst := by
  rw [noteBlock, List.map_map]
  refine List.map_congr_left fun o _ => ?_
  by_cases h : o.1 = p <;> simp [h]

/-- Noting a block keeps the number of operations. -/
@[simp] theorem length_noteBlock : (noteBlock p b ops).length = ops.length := List.length_map _

/-- Noting a block of a process without an operation changes nothing. -/
theorem noteBlock_of_not_mem (h : p ∉ ops.map Prod.fst) : noteBlock p b ops = ops := by
  refine (List.map_congr_left fun o ho => ?_).trans (List.map_id ops)
  rw [if_neg fun heq => h (List.mem_map.mpr ⟨o, ho, heq⟩), id]

@[simp] theorem pendingOf_cons (o : ℕ × List ℕ) :
    pendingOf (o :: ops) = maxOpBlocks - o.2.length + pendingOf ops := by
  simp [pendingOf]

/-- A new block uses up one unit of its operation's allowance; a repeated one uses none. -/
theorem pendingOf_noteBlock (hkeys : (ops.map Prod.fst).Nodup) (hp : ops.lookup p = some logged)
    (hallow : b ∈ logged ∨ logged.length < maxOpBlocks) :
    pendingOf (noteBlock p b ops) + (if b ∈ logged then 0 else 1) = pendingOf ops := by
  induction ops with
  | nil => simp at hp
  | cons o rest ih =>
    obtain ⟨q, own⟩ := o
    rw [List.map_cons, List.nodup_cons] at hkeys
    have hsplit : noteBlock p b ((q, own) :: rest) =
        (if q = p then (p, own.insert b) else (q, own)) :: noteBlock p b rest := rfl
    by_cases hq : q = p
    · subst hq
      have howned : own = logged := by simpa using hp
      rw [hsplit, noteBlock_of_not_mem hkeys.1, if_pos rfl, pendingOf_cons, pendingOf_cons, howned]
      by_cases hb : b ∈ logged
      · simp [hb]
      · have hlen := hallow.resolve_left hb
        simp only [List.length_insert_of_not_mem hb, hb, if_false]
        omega
    · have hne : (p == q) = false := by simpa using Ne.symm hq
      rw [List.lookup_cons, hne] at hp
      rw [hsplit, if_neg hq, pendingOf_cons, pendingOf_cons, ← ih hkeys.2 hp, Nat.add_assoc]

/-- The blocks an operation has logged are those noted. -/
theorem mem_noteBlock {o : ℕ × List ℕ} {c : ℕ} (ho : o ∈ noteBlock p b ops) (hc : c ∈ o.2) :
    c = b ∨ ∃ o' ∈ ops, c ∈ o'.2 := by
  obtain ⟨o', ho', rfl⟩ := List.mem_map.mp ho
  by_cases hp : o'.1 = p
  · rw [if_pos hp] at hc
    rcases List.mem_insert_iff.mp hc with hcb | hmem
    · exact Or.inl hcb
    · exact Or.inr ⟨o', ho', hmem⟩
  · rw [if_neg hp] at hc
    exact Or.inr ⟨o', ho', hc⟩

/-- Finishing an operation frees its allowance. -/
theorem pendingOf_le_of_sublist {rest : List (ℕ × List ℕ)} (h : rest.Sublist ops) :
    pendingOf rest ≤ pendingOf ops := by
  induction h with
  | slnil => exact le_rfl
  | cons o _ ih =>
    rw [pendingOf_cons]
    omega
  | cons_cons o _ ih =>
    rw [pendingOf_cons, pendingOf_cons]
    omega

/-- While any allowance is pending, some operation has not used up its own. -/
theorem exists_mem_of_pendingOf (h : pendingOf ops ≠ 0) : ∃ o ∈ ops, o.2.length < maxOpBlocks := by
  induction ops with
  | nil => exact absurd rfl h
  | cons o rest ih =>
    by_cases hlen : o.2.length < maxOpBlocks
    · exact ⟨o, List.mem_cons_self, hlen⟩
    · rw [pendingOf_cons, Nat.sub_eq_zero_of_le (Nat.not_lt.mp hlen), Nat.zero_add] at h
      obtain ⟨o', ho', hlen'⟩ := ih h
      exact ⟨o', List.mem_cons_of_mem o ho', hlen'⟩

/-- An operation found by its process is in the list. -/
theorem mem_of_lookup (h : ops.lookup p = some logged) : (p, logged) ∈ ops := by
  obtain ⟨before, after, rfl, -⟩ := List.lookup_eq_some_iff.mp h
  exact List.mem_append_right _ List.mem_cons_self

end Note

variable {lg : Log} {r : Log × Bool}

/-- An accepted `log_write` found room; it appends a new block and absorbs a known one. -/
theorem recordBlock_ok {b : ℕ} (h : recordBlock lg b = .ok r) :
    lg.lh.block.length + 1 < lg.size ∧ ((b ∈ lg.lh.block ∧ r = (lg, false)) ∨
      (b ∉ lg.lh.block ∧ ∃ lh : LogHeader, lh.block = lg.lh.block ++ [b] ∧
        r = ({ lg with lh := lh }, true))) := by
  unfold recordBlock at h
  split at h
  · cases h
  · refine ⟨by omega, ?_⟩
    split at h
    · cases h
    · split at h
      · cases h
        exact Or.inl ⟨‹_›, rfl⟩
      · cases h
        exact Or.inr ⟨‹_›, _, rfl, rfl⟩

/-- `log_write` runs out of space exactly when the log is full or only the header's block is
left. -/
theorem recordBlock_too_big {b : ℕ} :
    recordBlock lg b = .error (.panic "too big a transaction") ↔
      logSize ≤ lg.lh.block.length ∨ lg.size ≤ lg.lh.block.length + 1 := by
  unfold recordBlock
  split
  · simpa
  · rename_i hroom
    refine ⟨fun h => ?_, fun h => absurd h hroom⟩
    split at h
    · simp at h
    · split at h <;> cases h

/-- The first half of `end_op` of a running operation. -/
theorem endOpStart_ok (h : endOpStart lg = .ok r) :
    r.1.size = lg.size ∧ r.1.lh = lg.lh ∧ r.1.outstanding = lg.outstanding - 1 ∧
      (r.1.committing = true → lg.outstanding = 1) := by
  unfold endOpStart at h
  split at h
  · cases h
  · split at h
    · cases h
      simp_all
    · cases h
      simp_all

/-- A commit that returns leaves an empty header. -/
theorem commit_ok {lg' : Log} {s t : Bio} (h : commit lg s = .ok lg' t) : lg' = { lg with lh := .empty } := by
  have hends : Ends (commit lg) s (fun lg' _ => lg' = { lg with lh := .empty }) fun _ => True := by
    unfold commit
    split
    · refine ends_bind (.of_returns fun _ _ _ => ends_bind (.of_returns fun _ _ _ => ?_))
      exact ends_bind (.of_returns fun _ _ _ => ends_bind (.of_returns fun _ _ _ => ends_pure rfl))
    · have hlh : lg.lh = .empty := by
        cases hlg : lg.lh
        simp_all [LogHeader.empty]
      refine ends_pure ?_
      rw [← hlh]
  exact hends.of_ok h

namespace LogSys

variable {s t : LogSys} {a : LogAction} {p b : ℕ}

/-- What a step can do, with its guards. -/
theorem step_cases (h : s.Step a t) :
    (∃ p, a = .beginOp p ∧ p ∉ s.ops.map Prod.fst ∧ s.log.admits = true ∧
      t = ⟨{ s.log with outstanding := s.log.outstanding + 1 }, (p, []) :: s.ops⟩) ∨
    (∃ p b logged r, a = .logWrite p b ∧ s.ops.lookup p = some logged ∧
      (b ∈ logged ∨ logged.length < maxOpBlocks) ∧ recordBlock s.log b = .ok r ∧
      t = ⟨r.1, noteBlock p b s.ops⟩) ∨
    (∃ p r, a = .endOp p ∧ p ∈ s.ops.map Prod.fst ∧ endOpStart s.log = .ok r ∧
      t = ⟨r.1, s.ops.eraseP fun o => o.1 = p⟩) ∨
    (a = .committed ∧ s.log.committing = true ∧
      t = ⟨{ s.log with committing := false, lh := .empty }, s.ops⟩) := by
  cases a with
  | beginOp p =>
    simp only [Step, next] at h
    split at h
    · cases h
    · simp only [beginOp, Option.map_eq_some_iff] at h
      obtain ⟨lg, hlg, ht⟩ := h
      split at hlg
      · cases hlg
        cases ht
        exact Or.inl ⟨p, rfl, ‹_›, ‹_›, rfl⟩
      · cases hlg
  | logWrite p b =>
    simp only [Step, next] at h
    split at h
    · cases h
    · rename_i logged hlogged
      split at h
      · cases hr : recordBlock s.log b with
        | error e => simp [hr, Except.map] at h
        | ok r =>
          simp only [hr, Except.map, Option.some.injEq, Except.ok.injEq] at h
          exact Or.inr (Or.inl ⟨p, b, logged, r, rfl, hlogged, ‹_›, hr, h.symm⟩)
      · cases h
  | endOp p =>
    simp only [Step, next] at h
    split at h
    · cases hr : endOpStart s.log with
      | error e => simp [hr, Except.map] at h
      | ok r =>
        simp only [hr, Except.map, Option.some.injEq, Except.ok.injEq] at h
        exact Or.inr (Or.inr (Or.inl ⟨p, r, rfl, ‹_›, rfl, h.symm⟩))
    · cases h
  | committed =>
    simp only [Step, next] at h
    split at h
    · cases h
      exact Or.inr (Or.inr (Or.inr ⟨rfl, ‹_›, rfl⟩))
    · cases h

/-- Every step keeps the bookkeeping. -/
theorem Tracked.step (hs : s.Tracked) (h : s.Step a t) : t.Tracked := by
  rcases step_cases h with ⟨p, rfl, hp, hadmits, rfl⟩ | ⟨p, b, logged, r, rfl, hlookup, hallow, hr, rfl⟩ |
    ⟨p, r, rfl, hp, hr, rfl⟩ | ⟨rfl, hcommitting, rfl⟩
  · refine ⟨hs.size, ?_, ?_, fun hcommitting => ?_, ?_⟩
    · exact List.nodup_cons.mpr ⟨hp, hs.keys⟩
    · simpa using hs.count
    · simp only [Log.admits, Bool.and_eq_true, Bool.not_eq_true'] at hadmits
      simp [hadmits.1] at hcommitting
    · simpa using hs.logged
  · obtain ⟨_, hcase⟩ := recordBlock_ok hr
    have hlogged : ∀ o ∈ noteBlock p b s.ops, ∀ c ∈ o.2, c = b ∨ c ∈ s.log.lh.block := by
      intro o ho c hc
      rcases mem_noteBlock ho hc with hcb | ⟨o', ho', hc'⟩
      · exact Or.inl hcb
      · exact Or.inr (hs.logged o' ho' c hc')
    have hquiet : s.log.committing = true → noteBlock p b s.ops = [] := by
      intro hcommitting
      simp [hs.quiet hcommitting] at hlookup
    rcases hcase with ⟨hb, rfl⟩ | ⟨_, lh, hlh, rfl⟩
    · refine ⟨hs.size, by simpa using hs.keys, by simpa using hs.count, hquiet, fun o ho c hc => ?_⟩
      rcases hlogged o ho c hc with rfl | hmem
      · exact hb
      · exact hmem
    · refine ⟨hs.size, by simpa using hs.keys, by simpa using hs.count, hquiet, fun o ho c hc => ?_⟩
      rw [hlh, List.mem_append, List.mem_singleton]
      exact (hlogged o ho c hc).symm
  · obtain ⟨hsize, hlh, hout, hcommitting⟩ := endOpStart_ok hr
    obtain ⟨o, ho, hop⟩ := List.mem_map.mp hp
    have hlength : (s.ops.eraseP fun o => o.1 = p).length = s.ops.length - 1 :=
      List.length_eraseP_of_mem ho (by simpa using hop)
    have hsub : (s.ops.eraseP fun o => o.1 = p).Sublist s.ops := List.eraseP_sublist
    refine ⟨hsize.trans hs.size, (hsub.map Prod.fst).nodup hs.keys, ?_, fun hc => ?_, fun o ho c hc => ?_⟩
    · rw [hout, hlength, hs.count]
    · refine List.eq_nil_of_length_eq_zero ?_
      rw [hlength, hs.count, hcommitting hc]
    · rw [hlh]
      exact hs.logged o (hsub.subset ho) c hc
  · have hops := hs.quiet hcommitting
    refine ⟨hs.size, hs.keys, hs.count, by simp, fun o ho => ?_⟩
    rw [hops] at ho
    cases ho

end LogSys

end Xv6
