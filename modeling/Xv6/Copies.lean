import Xv6.Vm.Extent
import Xv6.Vm.Runs

/-!
# Copies byte by byte

`copyout` and `copyin` go through the pages of a range. A range is copied as a whole when the page
of every address in it may be used; then every byte of it is moved, and no other byte of a process
changes.
-/

namespace Xv6

open Lib Eager

variable {slot : ℕ}

namespace Eager

/-- The byte at an address of a process. -/
def byteAt (m : Eager) (i a : ℕ) : Option UInt8 := (m.page i (a / pgsize)).map (·.bytes (a % pgsize))

theorem byteAt_poke (m : Eager) (slot va : ℕ) (data : List UInt8) (i a : ℕ) :
    (m.poke slot va data).byteAt i a =
    if i = slot ∧ va ≤ a ∧ a < va + data.length then (m.byteAt i a).map fun _ => data.getD (a - va) 0
    else m.byteAt i a := by
  have hoff : a % pgsize < pgsize := Nat.mod_lt a (by decide)
  rw [byteAt, byteAt, page_poke]
  by_cases hi : i = slot
  · cases m.page i (a / pgsize) with
    | none => simp
    | some pg =>
      simp only [hi, pokePage, Nat.div_add_mod', hoff, true_and, if_true, Option.map_some]
      split_ifs <;> rfl
  · rw [if_neg hi, if_neg fun h => hi h.1]

/-- A copy from the user succeeds when it may read all of its bytes. -/
theorem copyin_eq (m : Eager) (slot fuel va len : ℕ) (hfuel : len ≤ fuel) :
    m.copyin slot fuel va len = if moved m slot readable fuel va len = len then
      some (slice (fun a => (m.byteAt slot a).getD 0) va len) else none := by
  induction fuel generalizing va len with
  | zero =>
    obtain rfl := Nat.le_zero.mp hfuel
    rfl
  | succ fuel ih =>
    rw [copyin, moved]
    by_cases hlen : len = 0
    · rw [if_pos hlen, if_pos hlen, hlen]
      rfl
    · rw [if_neg hlen, if_neg hlen]
      dsimp only
      generalize hn : min (pgsize - va % pgsize) len = n
      obtain ⟨hle, hpos, -, -, hnext, hsame⟩ := chunk hn.symm
      cases hpage : m.page slot (va / pgsize) with
      | none => exact (if_neg (by simpa using Ne.symm hlen)).symm
      | some pg =>
        have hhere : slice pg.bytes (va % pgsize) n = slice (fun a => (m.byteAt slot a).getD 0) va n := by
          refine slice_congr fun j hj => ?_
          obtain ⟨hdiv, hmod⟩ := hsame (va + j) (by omega) (by omega)
          rw [byteAt, hdiv, hmod, hpage, Nat.add_sub_cancel_left]
          rfl
        rw [ih _ _ (by omega), Option.filter_some, Option.any_some, readable]
        cases pg.u with
        | false => exact (if_neg (Ne.symm hlen)).symm
        | true =>
          have hrest (k : ℕ) : n + k = len ↔ k = len - n := by omega
          simp only [if_true, hhere, hrest]
          split_ifs
          · rw [Option.map_some]
            by_cases hall : n < len
            · rw [hnext hall, slice_append, Nat.add_sub_cancel' hle]
            · rw [show n = len by omega, Nat.sub_self]
              exact congrArg some (List.append_nil _)
          · rfl

end Eager

namespace Vm

variable {s : Vm} {held : List ℕ}

/-- Every page of a range is below `MAXVA`, valid, and may be used by the process, for writing at
least as a copy. -/
def Usable (s : Vm) (slot : ℕ) (write : Bool) (va len : ℕ) : Prop :=
  ∀ a, va ≤ a → a < va + len → a / pgsize < maxVpn ∧
    ∃ e, s.userPte slot (a / pgsize) = some e ∧ e.u = true ∧ (write = true → e.w = true ∨ e.cow = true)

theorem usable_iff (hlow : s.view.Low slot) (write : Bool) (va len : ℕ) : s.Usable slot write va len ↔
    ∀ a, va ≤ a → a < va + len → May s.view slot (if write then writable else readable) a := by
  refine forall_congr' fun a => forall₂_congr fun _ _ => ?_
  have hhigh := hlow (a / pgsize)
  rw [May]
  rw [view_page] at hhigh ⊢
  cases he : s.userPte slot (a / pgsize) with
  | none => simp
  | some e =>
    have hbelow : a / pgsize < maxVpn := by
      by_contra hle
      simpa [he] using hhigh (not_lt.mp hle)
    cases write <;> simp [hbelow, readable, writable, Pte.image]

/-- `copyin` by bytes. -/
theorem copyin_bytes (hslot : s.procs slot ≠ none) (hlow : s.view.Low slot) (va len : ℕ) :
    copyin slot va len s =
    .ok (if moved s.view slot readable len va len = len then
      some (slice (fun a => (s.view.byteAt slot a).getD 0) va len) else none) s := by
  obtain ⟨pr, hpr⟩ := Option.ne_none_iff_exists'.mp hslot
  rw [copyin, copyinLoop_ok hlow hpr, Eager.copyin_eq _ _ _ _ _ le_rfl]

/-- `copyout` and `copyin` move the bytes of a range when they may use all of its pages, and fail
otherwise. -/
theorem copies_bytewise (h : s.Wf held) (hslot : s.procs slot ≠ none) (hlow : s.view.Low slot) (dstva : ℕ)
    (src : List UInt8) :
    Fed (copyout slot dstva src) s
      (fun ok t => (ok = true ↔ s.Usable slot true dstva src.length) ∧
        (ok = true → (∀ i a, t.view.byteAt i a =
            if i = slot ∧ dstva ≤ a ∧ a < dstva + src.length then some
              (src.getD (a - dstva) 0) else s.view.byteAt i a) ∧
          copyin slot dstva src.length t = .ok (some src) t))
      (fun _ => False) ∧
    ∀ srcva len, ∃ r, copyin slot srcva len s = .ok r s ∧ (r.isSome ↔ s.Usable slot false srcva len) ∧
      ∀ data ∈ r, data = slice (fun a => (s.view.byteAt slot a).getD 0) srcva len := by
  refine ⟨(copyoutLoop_spec slot _ dstva src s h hlow hslot).mono ?_ fun _ hf => hf, fun srcva len => ?_⟩
  · rintro ok t ⟨m, hm, ht⟩
    rw [copyout_eq _ _ _ _ le_rfl] at hm
    obtain ⟨rfl, hpoke⟩ := Prod.mk.inj hm
    rw [usable_iff hlow, decide_eq_true_iff, moved_eq_len_iff le_rfl]
    refine ⟨.rfl, fun hmay => ?_⟩
    rw [(moved_eq_len_iff le_rfl).mpr hmay, List.take_length, ← ht.view] at hpoke
    have hbytes (i a : ℕ) : t.view.byteAt i a =
        if i = slot ∧ dstva ≤ a ∧ a < dstva + src.length then some
          (src.getD (a - dstva) 0) else s.view.byteAt i a := by
      rw [← hpoke, Eager.byteAt_poke]
      split_ifs with hin
      · obtain ⟨rfl, hlo, hhi⟩ := hin
        have hpage := hmay a hlo hhi
        rw [May] at hpage
        rw [Eager.byteAt]
        cases hp : s.view.page i (a / pgsize) with
        | none => simp [hp] at hpage
        | some pg => rfl
      · rfl
    refine ⟨hbytes, ?_⟩
    have hlow' : t.view.Low slot := by
      intro x hx
      rw [← hpoke, Eager.page_poke, hlow x hx, Option.map_none, ite_self]
    have hlive : t.procs slot ≠ none := by
      rw [Ne, ← view_eq_none, ← hpoke]
      simp [Eager.poke, Eager.modifyProc, view_eq_none, hslot]
    have hread : moved t.view slot readable src.length dstva src.length = src.length := by
      refine (moved_eq_len_iff le_rfl).mpr fun a hlo hhi => ?_
      have hpage := hmay a hlo hhi
      rw [May] at hpage ⊢
      rw [← hpoke, any_poke fun _ _ => rfl]
      cases hp : s.view.page slot (a / pgsize) <;> simp_all [readable, writable]
    rw [copyin_bytes hlive hlow', if_pos hread]
    refine congrArg (fun l => EStateM.Result.ok (some l) t) (List.ext_getElem (by simp) fun j hj hj' => ?_)
    simp [slice, hbytes, hj']
  · refine ⟨_, copyin_bytes hslot hlow srcva len, ?_⟩
    rw [usable_iff hlow, if_neg Bool.false_ne_true, ← moved_eq_len_iff le_rfl]
    split_ifs <;> simp [*]

/-- Three bytes of the first process, written and read back. -/
theorem copies_bytewise_started : ∃ t, copyout 0 4 [1, 2, 3] startedMachine = .ok true t ∧
    copyin 0 4 3 t = .ok (some [1, 2, 3]) t := by
  have hrun : copyout 0 4 [1, 2, 3] startedMachine = .ok true _ := eq_ok_of_resultOf (by decide +kernel)
  have hfed : (stateAfter (copyout 0 4 [1, 2, 3]) startedMachine).starved = false := by decide +kernel
  have hcopied := (copies_bytewise startedMachine_good.wf
    (show startedMachine.procs 0 ≠ none by decide +kernel)
    (startedMachine_good.ok.low 0) 4 [1, 2, 3]).1
  exact ⟨_, hrun, ((hcopied.of_ok hrun (by simp [Starved, hfed])).2 rfl).2⟩

end Vm

end Xv6
