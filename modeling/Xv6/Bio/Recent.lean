import Mathlib.Data.Finset.Image
import Xv6.Bio.Invariant

/-!
# How long the cache keeps a released buffer

`brelse` moves a buffer to the front of the LRU list, and `bget` recycles the last buffer of the
list that nobody uses. So before a released buffer is recycled, every other buffer has to be in use
or to come before it, and in both cases its block was in use at the release or asked for since.
-/

namespace Xv6

open Lib Function

/-- The block that an action asks for. -/
def CacheAction.requests : CacheAction → Option Key
  | .bget _ k => some k
  | _ => none

namespace Cache

/-- The buffers in use are assigned to blocks of devices. -/
def Assigned (s : Cache) : Prop := ∀ i, 0 < (s.buf i).refcnt → (s.key i).1 ≠ 0

/-- An action pins only buffers that are in use. -/
def PinsUsed (s : Cache) : CacheAction → Prop
  | .bpin i => 0 < (s.buf i).refcnt
  | _ => True

/-- Buffer `i` has block `k` and is not pinned. The other buffers in use have blocks of `W`, and so
have those before `i` in the list while it is not in use. -/
structure Recent (s : Cache) (i : ℕ) (k : Key) (W : Finset Key) : Prop where
  lt : i < nbuf
  key : s.key i = k
  valid : (s.buf i).valid = true
  unpinned : s.pins i = 0
  used : ∀ j, j ≠ i → j < nbuf → 0 < (s.buf j).refcnt → s.key j ∈ W
  front : ∃ l₁ l₂, s.links.Ring (l₁ ++ i :: l₂) ∧ (l₁ ++ i :: l₂).Perm (List.range nbuf) ∧
    ((s.buf i).refcnt = 0 → ∀ j ∈ l₁, s.key j ∈ W)

variable {s t : Cache} {a : CacheAction} {p i j : ℕ} {k : Key} {W : Finset Key}

/-- Buffers that come into use are assigned to blocks of devices. -/
theorem Assigned.step (h : s.Assigned) (hinv : s.Inv) (hstep : s.Step a t) (hpins : s.PinsUsed a) :
    t.Assigned := by
  intro i hpos
  by_cases hold : 0 < (s.buf i).refcnt
  · rw [key_of_step hinv hstep hold]
    exact h i hold
  · have hcount : ∀ {j : ℕ} {e : Entry}, e.refcnt ≤ (s.buf j).refcnt →
        ¬ 0 < (update s.buf j e i).refcnt := by
      intro j e he
      obtain rfl | hne := eq_or_ne i j
      · rw [update_self]
        omega
      · rwa [update_of_ne hne]
    cases moves_of_next hstep.2 with
    | @bget p k _ hidle hget =>
      have hdev : k.1 ≠ 0 := of_decide_eq_true hstep.1
      rcases bget_cases hinv hget with ⟨j, -, hk, rfl⟩ | ⟨j, -, -, -, -, rfl⟩
      · obtain rfl | hne := eq_or_ne i j
        · have hkey : (s.takeHit p k i).key i = s.key i := by
            simp [Cache.key, takeHit, setBuf, setStage]
          rwa [hkey, hk]
        · exact absurd (touches_takeHit.buf i hne ▸ hpos) hold
      · obtain rfl | hne := eq_or_ne i j
        · simpa [Cache.key, recycle, setBuf, setStage] using hdev
        · exact absurd (touches_recycle.buf i hne ▸ hpos) hold
    | @bpin j =>
      obtain rfl | hne := eq_or_ne i j
      · exact absurd hpins hold
      · exact absurd (touches_pin (p := 0) |>.buf i hne ▸ hpos) hold
    | bwrite => exact absurd hpos hold
    | dropRef => exact absurd hpos (hcount (Nat.sub_le _ _))
    | bunpin => exact absurd hpos (hcount (Nat.sub_le _ _))
    | _ => exact absurd hpos (hcount le_rfl)

/-- With fewer than `nbuf` other blocks around, a recycled buffer is another one. -/
theorem Recent.not_recycled (h : s.Recent i k W) (hinv : s.Inv) (hW : ∀ l ∈ W, l.1 ≠ 0)
    (hcard : W.card < nbuf)
    {l : Key} (hl : l ∈ W) (hnew : ∀ j, j < nbuf → s.key j ≠ l) : s.findFree ≠ some i := by
  intro hfind
  obtain ⟨l₁, l₂, hring, hperm, hfront⟩ := h.front
  rw [findFree, hring.scan_prev (length_of_perm hperm)] at hfind
  have hfree : (s.buf i).refcnt = 0 := by simpa using List.find?_some hfind
  -- behind the recycled buffer all are in use
  have hbehind : ∀ j ∈ l₂, 0 < (s.buf j).refcnt := by
    have hnone : (l₂.reverse.find? fun j => (s.buf j).refcnt = 0) = none := by
      cases hl₂ : l₂.reverse.find? fun j => decide ((s.buf j).refcnt = 0) with
      | none => rfl
      | some j =>
        rw [List.reverse_append, List.reverse_cons, List.append_assoc, List.find?_append, hl₂] at hfind
        obtain rfl : j = i := by simpa using hfind
        have hmem := List.mem_reverse.mp (List.mem_of_find?_eq_some hl₂)
        exact absurd hmem (List.nodup_cons.mp
          (List.nodup_append.mp (hperm.nodup_iff.mpr List.nodup_range)).2.1).1
    intro j hj
    simpa [Nat.pos_iff_ne_zero] using List.find?_eq_none.mp hnone j (List.mem_reverse.mpr hj)
  have hblocks : ∀ j ∈ (Finset.range nbuf).erase i, s.key j ∈ W := by
    intro j hj
    obtain ⟨hne, hlt⟩ := Finset.mem_erase.mp hj
    have hmem : j ∈ l₁ ++ i :: l₂ := hperm.mem_iff.mpr (List.mem_range.mpr (Finset.mem_range.mp hlt))
    rw [List.mem_append, List.mem_cons] at hmem
    obtain hmem | rfl | hmem := hmem
    · exact hfront hfree j hmem
    · exact absurd rfl hne
    · exact h.used j hne (Finset.mem_range.mp hlt) (hbehind j hmem)
  have hsub : insert l (((Finset.range nbuf).erase i).image s.key) ⊆ W := by
    intro x hx
    obtain rfl | hx := Finset.mem_insert.mp hx
    · exact hl
    · obtain ⟨j, hj, rfl⟩ := Finset.mem_image.mp hx
      exact hblocks j hj
  have hinj : Set.InjOn s.key ((Finset.range nbuf).erase i) := by
    intro a ha b hb hab
    have ha' := Finset.mem_range.mp (Finset.mem_erase.mp (Finset.mem_coe.mp ha)).2
    have hb' := Finset.mem_range.mp (Finset.mem_erase.mp (Finset.mem_coe.mp hb)).2
    exact hinv.places.unique a b ha' hb' hab (hW _ (hblocks a ha))
  have hnot : l ∉ ((Finset.range nbuf).erase i).image s.key := by
    intro hx
    obtain ⟨j, hj, hjl⟩ := Finset.mem_image.mp hx
    exact hnew j (Finset.mem_range.mp (Finset.mem_erase.mp hj).2) hjl
  have hle := Finset.card_le_card hsub
  rw [Finset.card_insert_of_notMem hnot, Finset.card_image_of_injOn hinj,
    Finset.card_erase_of_mem (Finset.mem_range.mpr h.lt), Finset.card_range] at hle
  have := h.lt
  omega

/-- A step that neither uses nor moves buffers. -/
theorem Recent.congr (h : s.Recent i k W) (hlinks : t.links = s.links) (hpins : t.pins = s.pins)
    (hbuf : ∀ j, (t.key j, (t.buf j).refcnt) = (s.key j, (s.buf j).refcnt))
    (hvalid : (t.buf i).valid = true) : t.Recent i k W := by
  have hkey : ∀ j, t.key j = s.key j := fun j => (Prod.mk.inj (hbuf j)).1
  have hrefcnt : ∀ j, (t.buf j).refcnt = (s.buf j).refcnt := fun j => (Prod.mk.inj (hbuf j)).2
  refine ⟨h.lt, (hkey i).trans h.key, hvalid, hpins ▸ h.unpinned, ?_, ?_⟩
  · simpa only [hkey, hrefcnt] using h.used
  · simpa only [hlinks, hkey, hrefcnt] using h.front

/-- A step that touches another buffer and leaves the list alone. -/
theorem Recent.touch (h : s.Recent i k W) (ht : Touches p j s t) (hij : i ≠ j)
    (hlinks : t.links = s.links) (hused : j < nbuf → 0 < (t.buf j).refcnt → t.key j ∈ W)
    (hkey : t.key j = s.key j ∨ t.key j ∈ W) : t.Recent i k W := by
  obtain ⟨l₁, l₂, hring, hperm, hfront⟩ := h.front
  refine ⟨h.lt, (ht.key hij).trans h.key, ht.buf i hij ▸ h.valid, (ht.pins i hij).trans h.unpinned,
    fun m hm hlt hpos => ?_, l₁, l₂, hlinks ▸ hring, hperm, fun hzero m hm => ?_⟩
  · obtain rfl | hmj := eq_or_ne m j
    · exact hused hlt hpos
    · rw [ht.key hmj]
      exact h.used m hm hlt (ht.buf m hmj ▸ hpos)
  · have hmem := hfront (ht.buf i hij ▸ hzero) m hm
    obtain rfl | hmj := eq_or_ne m j
    · exact hkey.elim (fun hsame => hsame ▸ hmem) id
    · rwa [ht.key hmj]

/-- Where a buffer moves to the front, it comes before `i`, or is `i`. -/
theorem front_of_moveFront {L : Links ℕ} {l₁ l₂ : List ℕ} (hring : L.Ring (l₁ ++ i :: l₂))
    (hperm : (l₁ ++ i :: l₂).Perm (List.range nbuf)) (hj : j ∈ l₁ ++ i :: l₂) :
    ∃ m₁ m₂, ((L.unlink j).pushFront j).Ring (m₁ ++ i :: m₂) ∧
      (m₁ ++ i :: m₂).Perm (List.range nbuf) ∧ ∀ x ∈ m₁, j ≠ i ∧ (x = j ∨ x ∈ l₁) := by
  have hmoved := hring.moveFront hj
  have hperm' : (j :: (l₁ ++ i :: l₂).erase j).Perm (List.range nbuf) :=
    (List.perm_cons_erase hj).symm.trans hperm
  by_cases hmem : j ∈ l₁
  · rw [List.erase_append_left _ hmem] at hmoved hperm'
    have hne : j ≠ i := by
      rintro rfl
      have hnodup := hperm.nodup_iff.mpr List.nodup_range
      exact (List.nodup_append.mp hnodup).2.2 j hmem j List.mem_cons_self rfl
    refine ⟨j :: l₁.erase j, l₂, hmoved, hperm', fun x hx => ⟨hne, ?_⟩⟩
    exact (List.mem_cons.mp hx).imp_right List.mem_of_mem_erase
  · rw [List.erase_append_right _ hmem] at hmoved hperm'
    obtain rfl | hne := eq_or_ne j i
    · rw [List.erase_cons_head] at hmoved hperm'
      exact ⟨[], l₁ ++ l₂, hmoved, hperm', by simp⟩
    · rw [List.erase_cons_tail (by simpa using hne.symm)] at hmoved hperm'
      exact ⟨j :: l₁, l₂.erase j, hmoved, hperm', fun x hx => ⟨hne, List.mem_cons.mp hx⟩⟩

/-- `bget` takes a reference to the buffer, or uses another one for a block of `W`. -/
theorem Recent.bget {l : Key} (h : s.Recent i k W) (hinv : s.Inv) (hW : ∀ l ∈ W, l.1 ≠ 0)
    (hcard : W.card < nbuf) (hdev : k.1 ≠ 0) (hask : l = k ∨ l ∈ W) (hget : s.bget p l = some t) :
    t.Recent i k W := by
  rcases bget_cases hinv hget with ⟨j, hj, hk, rfl⟩ | ⟨j, hj, -, hnew, hfree, rfl⟩
  · have hkey : ∀ m, (s.takeHit p l j).key m = s.key m := proj_update (fun e => (e.dev, e.blockno)) rfl
    obtain rfl | hij := eq_or_ne i j
    · obtain ⟨l₁, l₂, hring, hperm, -⟩ := h.front
      refine ⟨h.lt, (hkey i).trans h.key, valid_update h.valid (.inl rfl), h.unpinned,
        fun m hm hlt hpos => ?_, l₁, l₂, hring, hperm, fun hzero => ?_⟩
      · rw [hkey]
        exact h.used m hm hlt (touches_takeHit.buf m hm ▸ hpos)
      · simp [takeHit, setBuf, setStage] at hzero
    · refine h.touch touches_takeHit hij rfl (fun _ _ => ?_) (.inl (hkey j))
      rw [hkey, hk]
      refine hask.resolve_left fun hlk => hij ?_
      exact hinv.places.unique i j h.lt hj (h.key.trans (hk.trans hlk).symm) (h.key.symm ▸ hdev)
  · have hlW : l ∈ W := hask.resolve_left fun hlk => hnew i h.lt (h.key.trans hlk.symm)
    have hown : (s.recycle p l j).key j ∈ W := by
      simpa [Cache.key, recycle, setBuf, setStage] using hlW
    exact h.touch touches_recycle (fun hij => h.not_recycled hinv hW hcard hlW hnew (hij ▸ hfree))
      rfl (fun _ _ => hown) (.inr hown)

/-- A buffer that loses its last reference comes before `i`, and its block is one of `W`. -/
theorem Recent.drop (h : s.Recent i k W) (hinv : s.Inv) (hst : s.stage p = .dropping j) :
    (s.drop p j).Recent i k W := by
  obtain ⟨l₁, l₂, hring, hperm, hfront⟩ := h.front
  have hkey : ∀ m, (s.drop p j).key m = s.key m := proj_update (fun e => (e.dev, e.blockno)) rfl
  have hcount : ∀ m, ((s.drop p j).buf m).refcnt ≤ (s.buf m).refcnt := by
    intro m
    obtain rfl | hmj := eq_or_ne m j
    · simp [Cache.drop, setBuf, setStage]
    · rw [touches_drop.buf m hmj]
  have hpos : 0 < (s.buf j).refcnt :=
    hinv.counts.refcnt_pos (show s.ref (.inl p) = some j by simp [ref, hst, Stage.target])
  have hmem : j ∈ l₁ ++ i :: l₂ :=
    hperm.mem_iff.mpr (List.mem_range.mpr (hinv.places.dropping p j hst))
  refine ⟨h.lt, (hkey i).trans h.key, valid_update h.valid (.inl rfl), h.unpinned,
    fun m hm hlt hm' => ?_, ?_⟩
  · rw [hkey]
    exact h.used m hm hlt (hm'.trans_le (hcount m))
  · by_cases hlast : (s.buf j).refcnt - 1 = 0
    · obtain ⟨m₁, m₂, hring', hperm', hbefore⟩ := front_of_moveFront hring hperm hmem
      refine ⟨m₁, m₂, by simpa [Cache.drop, hlast] using hring', hperm', fun hzero m hm => ?_⟩
      rw [hkey]
      obtain ⟨hji, rfl | hm⟩ := hbefore m hm
      · exact h.used m hji (hinv.places.dropping p m hst) hpos
      · exact hfront (touches_drop.buf i hji.symm ▸ hzero) m hm
    · refine ⟨l₁, l₂, by simpa [Cache.drop, hlast] using hring, hperm, fun hzero m hm => ?_⟩
      rw [hkey]
      obtain rfl | hij := eq_or_ne i j
      · exact absurd (by simpa [Cache.drop, setBuf, setStage] using hzero) hlast
      · exact hfront (touches_drop.buf i hij ▸ hzero) m hm

/-- A buffer stays recent while few other blocks are asked for and nobody pins it. -/
theorem Recent.step (h : s.Recent i k W) (hinv : s.Inv) (hW : ∀ l ∈ W, l.1 ≠ 0)
    (hcard : W.card < nbuf) (hdev : k.1 ≠ 0) (hstep : s.Step a t) (hpins : s.PinsUsed a)
    (hpin : a ≠ .bpin i) (hask : ∀ l, a.requests = some l → l = k ∨ l ∈ W) : t.Recent i k W := by
  have hproj : ∀ {j : ℕ} {e : Entry}, ((e.dev, e.blockno), e.refcnt) = (s.key j, (s.buf j).refcnt) →
      ∀ l, (((update s.buf j e l).dev, (update s.buf j e l).blockno), (update s.buf j e l).refcnt) =
        (s.key l, (s.buf l).refcnt) :=
    fun he => proj_update (fun e => ((e.dev, e.blockno), e.refcnt)) he
  cases moves_of_next hstep.2 with
  | @bget p l _ hidle hget => exact h.bget hinv hW hcard hdev (hask l rfl) hget
  | dropRef hst => exact h.drop hinv hst
  | @bpin j =>
    have hij : i ≠ j := fun hij => hpin (hij ▸ rfl)
    have hkey : (s.pin j).key j = s.key j := by simp [Cache.key, pin, setBuf]
    exact h.touch (p := 0) touches_pin hij rfl (fun hlt _ => hkey ▸ h.used j hij.symm hlt hpins) (.inl hkey)
  | @bunpin j hpos =>
    have hij : i ≠ j := by
      rintro rfl
      exact hpos.ne' h.unpinned
    have hkey : (s.unpin j).key j = s.key j := by simp [Cache.key, unpin, setBuf]
    refine h.touch (p := 0) touches_unpin hij rfl
      (fun hlt hcount => hkey ▸ h.used j hij.symm hlt ?_) (.inl hkey)
    exact hcount.trans_le (by simp [unpin, setBuf])
  | bwrite => exact h.congr rfl rfl (fun _ => rfl) h.valid
  | fill => exact h.congr rfl rfl (hproj rfl) (valid_update h.valid (.inr rfl))
  | _ => exact h.congr rfl rfl (hproj rfl) (valid_update h.valid (.inl rfl))

end Cache

end Xv6
