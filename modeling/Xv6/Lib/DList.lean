import Mathlib.Data.List.Basic
import Mathlib.Data.List.Nodup
import Mathlib.Logic.Function.Basic

/-!
# Circular doubly linked lists with a sentinel

Nodes are linked both ways around a sentinel head, written `none`. `Path` follows the links
between two nodes; a `Ring` is a path from the head back to the head through distinct nodes.
The surgery of unlinking a node and of pushing one behind the head is given in the order in
which such code assigns the four links.
-/

namespace Xv6.Lib

variable {ι : Type*}

/-- The two links of every node; `none` is the head. -/
structure Links (ι : Type*) where
  next : Option ι → Option ι
  prev : Option ι → Option ι

namespace Links

/-- The links lead from `a` through the listed nodes to `b`, and back. -/
def Path (L : Links ι) : Option ι → List ι → Option ι → Prop
  | a, [], b => L.next a = b ∧ L.prev b = a
  | a, x :: xs, b => L.next a = some x ∧ L.prev (some x) = a ∧ L.Path (some x) xs b

/-- The links are a ring through the listed nodes, in forward order from the head. -/
structure Ring (L : Links ι) (l : List ι) : Prop where
  path : L.Path none l none
  nodup : l.Nodup

/-- The head alone. -/
def empty : Links ι := ⟨fun _ => none, fun _ => none⟩

/-- The same links read in the other direction. -/
def flip (L : Links ι) : Links ι := ⟨L.prev, L.next⟩

variable {L L' : Links ι} {a b : Option ι} {x : ι} {xs ys l : List ι}

theorem ring_empty : (empty : Links ι).Ring [] := ⟨⟨rfl, rfl⟩, List.nodup_nil⟩

theorem path_append : L.Path a (xs ++ x :: ys) b ↔ L.Path a xs (some x) ∧ L.Path (some x) ys b := by
  induction xs generalizing a with
  | nil => simp [Path, and_assoc]
  | cons y xs ih => simp [Path, ih, and_assoc]

section

variable (h : L.Path a xs b)

include h

/-- A path only reads the forward links of its start and inner nodes and the backward links of its
inner nodes and end. -/
theorem Path.congr (hstart : L'.next a = L.next a) (hend : L'.prev b = L.prev b)
    (hnext : ∀ y ∈ xs, L'.next (some y) = L.next (some y))
    (hprev : ∀ y ∈ xs, L'.prev (some y) = L.prev (some y)) : L'.Path a xs b := by
  induction xs generalizing a with
  | nil => exact ⟨hstart.trans h.1, hend.trans h.2⟩
  | cons y xs ih =>
    refine ⟨hstart.trans h.1, (hprev y (by simp)).trans h.2.1, ?_⟩
    apply ih h.2.2 (hnext y (by simp))
    · exact fun z hz => hnext z (List.mem_cons_of_mem _ hz)
    · exact fun z hz => hprev z (List.mem_cons_of_mem _ hz)

/-- The node before the end of a path lies on it. -/
theorem Path.prev_mem : L.prev b ∈ a :: xs.map some := by
  induction xs generalizing a with
  | nil => simp [h.2]
  | cons y xs ih =>
    have := ih h.2.2
    exact List.mem_cons_of_mem _ this

/-- The node after the start of a path lies on it. -/
theorem Path.next_mem : L.next a ∈ b :: xs.map some := by
  cases xs with
  | nil => simp [h.1]
  | cons y xs => simp [h.1]

theorem Path.flip : L.flip.Path b xs.reverse a := by
  induction xs generalizing a with
  | nil => exact ⟨h.2, h.1⟩
  | cons y xs ih =>
    rw [List.reverse_cons, path_append]
    exact ⟨ih h.2.2, h.2.1, h.1⟩

/-- Redirect the last link of a path to another node. -/
theorem Path.redirect {c : Option ι} (hnodup : (a :: xs.map some).Nodup)
    (hnext : ∀ u ∈ a :: xs.map some, u ≠ L.prev b → L'.next u = L.next u)
    (hprev : ∀ y ∈ xs, L'.prev (some y) = L.prev (some y))
    (hlast : L'.next (L.prev b) = c) (hback : L'.prev c = L.prev b) : L'.Path a xs c := by
  induction xs generalizing a with
  | nil =>
    rw [h.2] at hlast hback
    exact ⟨hlast, hback⟩
  | cons y xs ih =>
    obtain ⟨ha, htail⟩ := List.nodup_cons.mp hnodup
    have hne : a ≠ L.prev b := by
      intro heq
      apply ha
      rw [heq]
      exact h.2.2.prev_mem
    refine ⟨?_, (hprev y (by simp)).trans h.2.1, ?_⟩
    · rw [hnext a (by simp) hne]
      exact h.1
    · apply ih h.2.2 htail
      · exact fun u hu => hnext u (List.mem_cons_of_mem _ hu)
      · exact fun z hz => hprev z (List.mem_cons_of_mem _ hz)

end

variable [DecidableEq ι]

/-- Assign one forward link. -/
def setNext (L : Links ι) (a b : Option ι) : Links ι := { L with next := Function.update L.next a b }

/-- Assign one backward link. -/
def setPrev (L : Links ι) (a b : Option ι) : Links ι := { L with prev := Function.update L.prev a b }

/-- `x->next->prev = x->prev; x->prev->next = x->next`. -/
def unlink (L : Links ι) (x : ι) : Links ι :=
  let L := L.setPrev (L.next (some x)) (L.prev (some x))
  L.setNext (L.prev (some x)) (L.next (some x))

/-- `x->next = head.next; x->prev = &head; head.next->prev = x; head.next = x`. -/
def pushFront (L : Links ι) (x : ι) : Links ι :=
  let L := L.setNext (some x) (L.next none)
  let L := L.setPrev (some x) none
  let L := L.setPrev (L.next none) (some x)
  L.setNext none (some x)

/-- Pushing a node behind the head puts it in front. -/
theorem Ring.pushFront (h : L.Ring l) (hx : x ∉ l) : (L.pushFront x).Ring (x :: l) := by
  refine ⟨⟨by simp [Links.pushFront, setNext], ?_, ?_⟩, List.nodup_cons.mpr ⟨hx, h.nodup⟩⟩
  · have hne : some x ≠ L.next none := by
      intro heq
      have := h.path.next_mem
      rw [← heq] at this
      simp [hx] at this
    simp [Links.pushFront, setNext, setPrev, hne]
  · cases l with
    | nil =>
      have hnext := h.path.1
      simp [Path, Links.pushFront, setNext, setPrev, hnext]
    | cons y ys =>
      obtain ⟨hnext, -, hrest⟩ := h.path
      have hxy : x ≠ y := fun heq => hx (by simp [heq])
      refine ⟨by simp [Links.pushFront, setNext, setPrev, hnext], by
        simp [Links.pushFront, setNext, setPrev, hnext], ?_⟩
      have hy := (List.nodup_cons.mp h.nodup).1
      apply hrest.congr
      · simp [Links.pushFront, setNext, setPrev, hxy.symm]
      · simp [Links.pushFront, setNext, setPrev, hnext]
      · intro z hz
        have hzx : z ≠ x := by
          rintro rfl
          exact hx (List.mem_cons_of_mem _ hz)
        simp [Links.pushFront, setNext, setPrev, hzx]
      · intro z hz
        have hzx : z ≠ x := by
          rintro rfl
          exact hx (List.mem_cons_of_mem _ hz)
        have hzy : z ≠ y := by
          rintro rfl
          exact hy hz
        simp [Links.pushFront, setNext, setPrev, hnext, hzx, hzy]

/-- Unlinking a node takes it out of the ring. -/
theorem Ring.unlink (h : L.Ring l) (hx : x ∈ l) : (L.unlink x).Ring (l.erase x) := by
  refine ⟨?_, h.nodup.erase x⟩
  obtain ⟨xs, ys, rfl⟩ := List.append_of_mem hx
  have hnodup := h.nodup
  rw [List.nodup_append, List.nodup_cons] at hnodup
  obtain ⟨hxs, ⟨hxys, hys⟩, hdisj⟩ := hnodup
  have hxnot : x ∉ xs := fun hmem => hdisj x hmem x (by simp) rfl
  rw [List.erase_append_right _ hxnot, List.erase_cons_head]
  obtain ⟨hfront, hback⟩ := path_append.mp h.path
  -- the two neighbours of the node lie on either side of it
  have hp := hfront.prev_mem
  have hn := hback.next_mem
  have hnx : L.next (some x) ≠ some x := by
    intro heq
    rw [heq] at hn
    simp [hxys] at hn
  have hnext : ∀ u, u ≠ L.prev (some x) → (L.unlink x).next u = L.next u := by
    intro u hu
    simp [Links.unlink, setNext, setPrev, hnx.symm, hu]
  have hprev : ∀ u, u ≠ L.next (some x) → (L.unlink x).prev u = L.prev u := by
    intro u hu
    simp [Links.unlink, setNext, setPrev, hu]
  have hjoin : (L.unlink x).Path none xs (L.next (some x)) := by
    apply hfront.redirect
    · apply List.nodup_cons.mpr
      exact ⟨by simp, hxs.map fun _ _ => Option.some.inj⟩
    · exact fun u _ hu => hnext u hu
    · intro y hy
      apply hprev
      intro heq
      rw [← heq] at hn
      simp only [List.mem_cons, reduceCtorEq, List.mem_map, Option.some.injEq, exists_eq_right,
        false_or] at hn
      exact hdisj y hy y (List.mem_cons_of_mem _ hn) rfl
    · simp [Links.unlink, setNext, setPrev, hnx.symm]
    · simp [Links.unlink, setNext, setPrev]
  cases ys with
  | nil =>
    rw [List.append_nil]
    rwa [hback.1] at hjoin
  | cons y ys =>
    obtain ⟨hnexty, -, hrest⟩ := hback
    rw [hnexty] at hjoin hprev
    have hnotp : ∀ z ∈ y :: ys, some z ≠ L.prev (some x) := by
      intro z hz heq
      rw [← heq] at hp
      simp only [List.mem_cons, reduceCtorEq, List.mem_map, Option.some.injEq, exists_eq_right,
        false_or] at hp
      exact hdisj z hp z (List.mem_cons_of_mem _ hz) rfl
    apply path_append.mpr
    refine ⟨hjoin, hrest.congr (hnext _ (hnotp y (by simp))) (hprev none (by simp)) ?_ ?_⟩
    · exact fun z hz => hnext _ (hnotp z (List.mem_cons_of_mem _ hz))
    · intro z hz
      apply hprev
      intro heq
      exact (List.nodup_cons.mp hys).1 (Option.some.inj heq ▸ hz)

/-- Moving a node of the ring behind the head. -/
theorem Ring.moveFront (h : L.Ring l) (hx : x ∈ l) : ((L.unlink x).pushFront x).Ring (x :: l.erase x) := by
  apply (h.unlink hx).pushFront
  rw [h.nodup.mem_erase_iff]
  simp

/-- Pushing every node of a list gives the ring of its reverse. -/
theorem ring_foldl_pushFront (h : L.Ring l) (hnodup : (xs.reverse ++ l).Nodup) :
    (xs.foldl Links.pushFront L).Ring (xs.reverse ++ l) := by
  induction xs generalizing L l with
  | nil => exact h
  | cons x xs ih =>
    rw [List.reverse_cons, List.append_assoc] at hnodup ⊢
    apply ih (h.pushFront _) hnodup
    exact (List.nodup_cons.mp (List.nodup_append.mp hnodup).2.1).1

/-! ## Scans -/

/-- Follow `next` until a node passes the test or the head comes round, within `fuel` nodes. -/
def scan (L : Links ι) (p : ι → Bool) : ℕ → Option ι → Option ι
  | 0, _ => none
  | _ + 1, none => none
  | fuel + 1, some x => if p x then some x else L.scan p fuel (L.next (some x))

omit [DecidableEq ι] in
theorem Path.scan_eq {p : ι → Bool} {fuel : ℕ} (h : L.Path a xs none) (hfuel : xs.length < fuel) :
    L.scan p fuel (L.next a) = xs.find? p := by
  induction xs generalizing a fuel with
  | nil =>
    obtain ⟨fuel, rfl⟩ := Nat.exists_eq_add_of_lt hfuel
    rw [h.1]
    rfl
  | cons x xs ih =>
    cases fuel with
    | zero => simp at hfuel
    | succ fuel =>
      rw [h.1]
      simp only [scan, List.find?_cons]
      cases p x with
      | true => rfl
      | false => exact ih h.2.2 (by simpa using hfuel)

omit [DecidableEq ι] in
/-- A forward scan finds the first node of the ring that passes the test. -/
theorem Ring.scan_next {p : ι → Bool} {fuel : ℕ} (h : L.Ring l) (hfuel : l.length < fuel) :
    L.scan p fuel (L.next none) = l.find? p :=
  h.path.scan_eq hfuel

omit [DecidableEq ι] in
/-- A backward scan finds the last node of the ring that passes the test. -/
theorem Ring.scan_prev {p : ι → Bool} {fuel : ℕ} (h : L.Ring l) (hfuel : l.length < fuel) :
    L.flip.scan p fuel (L.prev none) = l.reverse.find? p :=
  h.path.flip.scan_eq (by simpa using hfuel)

end Links

end Xv6.Lib
