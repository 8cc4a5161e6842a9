import Mathlib.Logic.Function.Basic
import Mathlib.Data.List.Basic

/-!
# Crash atomicity of a redo log

A store maps addresses to contents and is changed by single writes; losing power leaves
the effect of a prefix of the writes issued. Part of the store is a log: a header, which
lists the addresses of the committed transaction, and one slot per listed address.
Committing writes the slots, then the header, then the home addresses, and clears the
header; recovery repeats the last two. Every store met on the way is in one of three
phases, and recovery takes each of them to an empty log.
-/

namespace Xv6.Lib

open Function

variable {A D : Type*} [DecidableEq A]

/-- The store after a list of writes. -/
def replay (d : A → D) (ws : List (A × D)) : A → D := ws.foldl (fun d w => update d w.1 w.2) d

/-- The property holds at every point at which power can be lost. -/
def Through (P : (A → D) → Prop) (d : A → D) (ws : List (A × D)) : Prop :=
  ∀ p, p <+: ws → P (replay d p)

@[simp] theorem replay_nil (d : A → D) : replay d [] = d := rfl

@[simp] theorem replay_cons (d : A → D) (w : A × D) (ws : List (A × D)) :
    replay d (w :: ws) = replay (update d w.1 w.2) ws := rfl

theorem replay_append (d : A → D) (ws vs : List (A × D)) :
    replay d (ws ++ vs) = replay (replay d ws) vs := List.foldl_append

variable {d : A → D} {ws : List (A × D)}

/-- Addresses that are not written keep their contents. -/
theorem replay_of_not_mem {a : A} (h : a ∉ ws.map Prod.fst) :
    replay d ws a = d a := by
  induction ws generalizing d with
  | nil => rfl
  | cons w ws ih =>
    simp only [List.map_cons, List.mem_cons, not_or] at h
    rw [replay_cons, ih h.2, update_of_ne h.1]

/-- Writing contents that depend on the address only. -/
theorem replay_map (d f : A → D) (as : List A) (a : A) :
    replay d (as.map fun b => (b, f b)) a = if a ∈ as then f a else d a := by
  induction as generalizing d with
  | nil => simp
  | cons b as ih =>
    rw [List.map_cons, replay_cons, ih]
    by_cases hmem : a ∈ as
    · simp [hmem]
    · by_cases hab : a = b
      · simp [hab]
      · simp [hab]

variable {P : (A → D) → Prop}

/-- One write: the property holds before and after it. -/
theorem through_single {a : A} {x : D} (h : P d) (h' : P (update d a x)) : Through P d [(a, x)] := by
  intro p hp
  rcases List.prefix_cons_iff.mp hp with rfl | ⟨q, rfl, hq⟩
  · exact h
  · rw [List.prefix_nil.mp hq]
    exact h'

/-- Two lists of writes in a row. -/
theorem Through.append {vs : List (A × D)} (h : Through P d ws)
    (h' : Through P (replay d ws) vs) : Through P d (ws ++ vs) := by
  intro p hp
  rcases List.prefix_or_prefix_of_prefix hp (List.prefix_append ws vs) with hws | ⟨q, rfl⟩
  · exact h p hws
  · rw [replay_append]
    exact h' q ((List.prefix_append_right_inj ws).mp hp)

/-- Where a redo log lives and how its header is read. -/
structure RedoLog (A D : Type*) where
  header : A
  slot : ℕ → A
  slots : ℕ
  listed : D → List A
  slot_ne_header : ∀ i, i < slots → slot i ≠ header
  slot_inj : ∀ i j, i < slots → j < slots → slot i = slot j → i = j

/-- The effect of a transaction that stores `new` at the addresses `bs`. -/
def updated (before new : A → D) (bs : List A) (a : A) : D := if a ∈ bs then new a else before a

namespace RedoLog

variable (L : RedoLog A D)

/-- The addresses of the log itself. -/
def InLog (a : A) : Prop := a = L.header ∨ ∃ i, i < L.slots ∧ a = L.slot i

/-- The log is empty and the rest of the store is as given. -/
structure Idle (ref d : A → D) : Prop where
  empty : L.listed (d L.header) = []
  same : ∀ a, ¬ L.InLog a → d a = ref a

/-- The log holds the transaction; its home addresses may or may not have been written. -/
structure Committed (before new : A → D) (bs : List A) (d : A → D) : Prop where
  listed : L.listed (d L.header) = bs
  logged : ∀ i b, bs[i]? = some b → d (L.slot i) = new b
  same : ∀ a, ¬ L.InLog a → a ∉ bs → d a = before a

/-- The three phases of a store with one transaction. -/
def Recoverable (before new : A → D) (bs : List A) (d : A → D) : Prop :=
  L.Idle before d ∨ L.Committed before new bs d ∨ L.Idle (updated before new bs) d

/-- The slot writes of a commit, from entry `tail` on. -/
def slotWrites (new : A → D) (tail : ℕ) : List A → List (A × D)
  | [] => []
  | b :: rest => (L.slot tail, new b) :: slotWrites new (tail + 1) rest

/-- The home writes of installing the entries from `tail` on out of the slots of `d`. -/
def homeWrites (d : A → D) (tail : ℕ) : List A → List (A × D)
  | [] => []
  | b :: rest => (b, d (L.slot tail)) :: homeWrites d (tail + 1) rest

variable {L} {before new d : A → D} {bs : List A} {head empty : D}

omit [DecidableEq A] in
/-- Slot writes go to slots of the log. -/
theorem mem_slotWrites {w : A × D} {tail : ℕ} (h : w ∈ L.slotWrites new tail bs) :
    ∃ i, tail ≤ i ∧ i < tail + bs.length ∧ w.1 = L.slot i := by
  induction bs generalizing tail with
  | nil => simp [slotWrites] at h
  | cons b rest ih =>
    rw [slotWrites, List.mem_cons] at h
    rw [List.length_cons]
    rcases h with rfl | h
    · exact ⟨tail, Nat.le_refl _, by omega, rfl⟩
    · obtain ⟨i, hlo, hhi, hw⟩ := ih h
      exact ⟨i, by omega, by omega, hw⟩

omit [DecidableEq A] in
/-- Every entry is written to its slot. -/
theorem slot_mem_slotWrites {tail i : ℕ} {b : A} (h : bs[i]? = some b) :
    (L.slot (tail + i), new b) ∈ L.slotWrites new tail bs := by
  induction bs generalizing tail i with
  | nil => simp at h
  | cons c rest ih =>
    rw [slotWrites, List.mem_cons]
    cases i with
    | zero =>
      have hcb : c = b := by simpa using h
      exact Or.inl (by rw [hcb, Nat.add_zero])
    | succ i =>
      have hnext := @ih (tail + 1) i (by simpa using h)
      rw [Nat.add_right_comm] at hnext
      exact Or.inr hnext

/-- Once all slots are written, each holds the contents of its entry. -/
theorem replay_slotWrites {tail : ℕ} (hroom : tail + bs.length ≤ L.slots) :
    ∀ i b, bs[i]? = some b → replay d (L.slotWrites new tail bs) (L.slot (tail + i)) = new b := by
  induction bs generalizing tail d with
  | nil => simp
  | cons c rest ih =>
    rw [List.length_cons] at hroom
    intro i b hb
    rw [slotWrites, replay_cons]
    cases i with
    | zero =>
      have hfresh : L.slot (tail + 0) ∉ (L.slotWrites new (tail + 1) rest).map Prod.fst := by
        intro hmem
        obtain ⟨w, hw, hslot⟩ := List.mem_map.mp hmem
        obtain ⟨i, hlo, hhi, hwi⟩ := mem_slotWrites hw
        have := L.slot_inj i (tail + 0) (by omega) (by omega) (hwi.symm.trans hslot)
        omega
      have hcb : c = b := by simpa using hb
      rw [replay_of_not_mem hfresh, hcb]
      exact update_self _ _ _
    | succ i =>
      have hroom' : tail + 1 + rest.length ≤ L.slots := by omega
      have hnext := ih (d := update d (L.slot tail) (new c)) hroom' i b (by simpa using hb)
      rwa [Nat.add_right_comm] at hnext

omit [DecidableEq A] in
/-- Installing out of slots that hold the transaction writes its contents. -/
theorem homeWrites_eq {tail : ℕ} (h : ∀ i b, bs[i]? = some b → d (L.slot (tail + i)) = new b) :
    L.homeWrites d tail bs = bs.map fun b => (b, new b) := by
  induction bs generalizing tail with
  | nil => rfl
  | cons b rest ih =>
    have hfirst : d (L.slot tail) = new b := h 0 b rfl
    have hrest : L.homeWrites d (tail + 1) rest = rest.map fun b => (b, new b) := by
      refine ih fun i c hc => ?_
      rw [Nat.add_assoc, Nat.add_comm 1 i]
      exact h (i + 1) c (by simpa using hc)
    rw [homeWrites, List.map_cons, hfirst, hrest]

/-- Changing log slots keeps the log empty and the rest of the store. -/
theorem Idle.slotWrites {ref : A → D} (h : L.Idle ref d)
    (hws : ∀ w ∈ ws, ∃ i, i < L.slots ∧ w.1 = L.slot i) : L.Idle ref (replay d ws) := by
  have hother : ∀ a, (∀ i, i < L.slots → L.slot i ≠ a) → replay d ws a = d a := by
    intro a ha
    apply replay_of_not_mem
    intro hmem
    obtain ⟨w, hw, heq⟩ := List.mem_map.mp hmem
    obtain ⟨i, hi, hslot⟩ := hws w hw
    exact ha i hi (hslot.symm.trans heq)
  constructor
  · rw [hother _ L.slot_ne_header]
    exact h.empty
  · intro a ha
    rw [hother a fun i hi heq => ha (Or.inr ⟨i, hi, heq.symm⟩)]
    exact h.same a ha

/-- Clearing an already empty header changes nothing of interest. -/
theorem Idle.clear {ref : A → D} (h : L.Idle ref d) (hempty : L.listed empty = []) :
    L.Idle ref (update d L.header empty) where
  empty := by rw [update_self, hempty]
  same := fun a ha => by
    rw [update_of_ne fun hheader => ha (Or.inl hheader)]
    exact h.same a ha

/-- Writing the header commits the transaction held by the slots. -/
theorem Idle.commit (h : L.Idle before d) (hlen : bs.length ≤ L.slots) (hhead : L.listed head = bs)
    (hlogged : ∀ i b, bs[i]? = some b → d (L.slot i) = new b) :
    L.Committed before new bs (update d L.header head) where
  listed := by rw [update_self, hhead]
  logged := fun i b hb => by
    obtain ⟨hi, _⟩ := List.getElem?_eq_some_iff.mp hb
    rw [update_of_ne (L.slot_ne_header i (by omega)), hlogged i b hb]
  same := fun a ha _ => by
    rw [update_of_ne fun hheader => ha (Or.inl hheader), h.same a ha]

/-- Home writes leave the committed transaction in the log. -/
theorem Committed.homeWrites (h : L.Committed before new bs d) (hlen : bs.length ≤ L.slots)
    (hout : ∀ b ∈ bs, ¬ L.InLog b) {cs : List A} (hcs : cs ⊆ bs) :
    L.Committed before new bs (replay d (cs.map fun b => (b, new b))) := by
  have hlog : ∀ a, L.InLog a → replay d (cs.map fun b => (b, new b)) a = d a := by
    intro a ha
    rw [replay_map, if_neg fun hmem => hout a (hcs hmem) ha]
  refine ⟨?_, fun i b hb => ?_, fun a ha hab => ?_⟩
  · rw [hlog _ (Or.inl rfl), h.listed]
  · obtain ⟨hi, _⟩ := List.getElem?_eq_some_iff.mp hb
    rw [hlog _ (Or.inr ⟨i, by omega, rfl⟩), h.logged i b hb]
  · rw [replay_map, if_neg fun hmem => hab (hcs hmem), h.same a ha hab]

/-- Clearing the header after all home writes ends the transaction. -/
theorem Committed.clear (h : L.Committed before new bs d) (hempty : L.listed empty = []) :
    L.Idle (updated before new bs)
      (update (replay d (bs.map fun b => (b, new b))) L.header empty) where
  empty := by rw [update_self, hempty]
  same := fun a ha => by
    rw [update_of_ne fun hheader => ha (Or.inl hheader), replay_map, updated]
    split
    · rfl
    · exact h.same a ha ‹_›

/-- Power may be lost at any point of a commit, and a commit that completes takes effect. -/
theorem Idle.through_commit (h : L.Idle before d) (hlen : bs.length ≤ L.slots)
    (hout : ∀ b ∈ bs, ¬ L.InLog b) (hhead : L.listed head = bs) (hempty : L.listed empty = []) :
    Through (L.Recoverable before new bs) d (L.slotWrites new 0 bs ++ [(L.header, head)] ++
      (bs.map fun b => (b, new b)) ++ [(L.header, empty)]) := by
  have hslots : ∀ p, p <+: L.slotWrites new 0 bs → L.Idle before (replay d p) := by
    intro p hp
    refine h.slotWrites fun w hw => ?_
    obtain ⟨i, _, hi, hslot⟩ := mem_slotWrites (hp.subset hw)
    exact ⟨i, by omega, hslot⟩
  have hlogged : ∀ i b, bs[i]? = some b → replay d (L.slotWrites new 0 bs) (L.slot i) = new b := by
    intro i b hb
    have hroom : 0 + bs.length ≤ L.slots := by omega
    simpa using replay_slotWrites (d := d) hroom i b hb
  have hcommitted := (hslots _ List.prefix_rfl).commit hlen hhead hlogged
  have hinstall : Through (L.Recoverable before new bs)
      (replay (replay d (L.slotWrites new 0 bs)) [(L.header, head)]) (bs.map fun b => (b, new b)) := by
    intro p hp
    obtain ⟨cs, hcs, rfl⟩ := List.prefix_map_iff.mp hp
    exact Or.inr (Or.inl (hcommitted.homeWrites hlen hout hcs.subset))
  refine Through.append (Through.append (Through.append (fun p hp => Or.inl (hslots p hp)) ?_) ?_) ?_
  · exact through_single (Or.inl (hslots _ List.prefix_rfl)) (Or.inr (Or.inl hcommitted))
  · rw [replay_append]
    exact hinstall
  · rw [replay_append, replay_append]
    exact through_single (hinstall _ List.prefix_rfl) (Or.inr (Or.inr (hcommitted.clear hempty)))

/-- Power may be lost at any point of a recovery, and a recovery that completes leaves an empty log
and all or nothing of the transaction. -/
theorem Recoverable.recovery (h : L.Recoverable before new bs d) (hlen : bs.length ≤ L.slots)
    (hout : ∀ b ∈ bs, ¬ L.InLog b) (hempty : L.listed empty = []) :
    Through (L.Recoverable before new bs) d
        (L.homeWrites d 0 (L.listed (d L.header)) ++ [(L.header, empty)]) ∧
      (L.Idle before (replay d (L.homeWrites d 0 (L.listed (d L.header)) ++ [(L.header, empty)])) ∨
        L.Idle (updated before new bs)
          (replay d (L.homeWrites d 0 (L.listed (d L.header)) ++ [(L.header, empty)]))) := by
  rcases h with hidle | hcommitted | hidle
  · have hclear := hidle.clear hempty
    rw [hidle.empty]
    exact ⟨through_single (Or.inl hidle) (Or.inl hclear), Or.inl hclear⟩
  · have hclear := hcommitted.clear hempty
    have hhome : ∀ cs, cs ⊆ bs → L.Recoverable before new bs (replay d (cs.map fun b => (b, new b))) :=
      fun cs hcs => Or.inr (Or.inl (hcommitted.homeWrites hlen hout hcs))
    rw [hcommitted.listed, homeWrites_eq (by simpa using hcommitted.logged), replay_append]
    refine ⟨Through.append (fun p hp => ?_) ?_, Or.inr hclear⟩
    · obtain ⟨cs, hcs, rfl⟩ := List.prefix_map_iff.mp hp
      exact hhome cs hcs.subset
    · exact through_single (hhome bs (List.Subset.refl _)) (Or.inr (Or.inr hclear))
  · have hclear := hidle.clear hempty
    rw [hidle.empty]
    exact ⟨through_single (Or.inr (Or.inr hidle)) (Or.inr (Or.inr hclear)), Or.inr hclear⟩

end RedoLog

end Xv6.Lib
