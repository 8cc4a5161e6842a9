import Xv6.Bio.Shared

/-!
# The invariant of the shared buffer cache

The reference count of a buffer is the number of processes asleep on it, holding it or about to
drop it, plus its pins. A free buffer is therefore nobody's, and assigning it to another block
disturbs no one; everything else follows buffer by buffer.
-/

namespace Xv6.Cache

open Lib Function

/-- The counted references apart from pins: a process that waits for or drops a buffer, and the
holder of a buffer's lock. -/
def ref (s : Cache) : ℕ ⊕ ℕ → Option ℕ
  | .inl p => (s.stage p).target
  | .inr i => if (s.buf i).holder.isSome then some i else none

/-- Every reference count is right. -/
structure Counts (s : Cache) : Prop where
  finite : FiniteRefs s.ref
  count : ∀ i, (s.buf i).refcnt = refs s.ref i + s.pins i

/-- Who is where: blocks have one buffer, and processes inside the cache's code and holders of locks
agree with the buffers they are at. -/
structure Places (s : Cache) : Prop where
  unique : ∀ i j, i < nbuf → j < nbuf → s.key i = s.key j → (s.key i).1 ≠ 0 → i = j
  acquiring : ∀ p i k, s.stage p = .acquiring i k → i < nbuf ∧ s.key i = k ∧ k.1 ≠ 0
  filling : ∀ p i k, s.stage p = .filling i k → s.key i = k ∧ (s.buf i).holder = some p
  dropping : ∀ p i, s.stage p = .dropping i → i < nbuf
  held : ∀ p i, (s.buf i).holder = some p → i < nbuf ∧ (s.key i).1 ≠ 0
  loaded : ∀ p i, (s.buf i).holder = some p → (s.buf i).valid = true ∨ s.stage p = .filling i (s.key i)

/-- A valid buffer has the data of the last transfer, unless edited since. -/
def Clean (s : Cache) : Prop :=
  ∀ i, i < nbuf → (s.buf i).valid = true → s.dirty i = false → (s.buf i).data = s.last (s.key i)

/-- An edited buffer that nobody holds is pinned. -/
def Pinned (s : Cache) : Prop :=
  ∀ i, i < nbuf → (s.buf i).valid = true → (s.buf i).holder = none → s.dirty i = true → 0 < s.pins i

/-- What holds between any two steps. -/
structure Inv (s : Cache) : Prop where
  ring : ∃ l, s.links.Ring l ∧ l.Perm (List.range nbuf)
  counts : s.Counts
  places : s.Places

/-- What each action does, and when. -/
inductive Moves (s : Cache) : CacheAction → Cache → Prop
  | bget {p k t} (hidle : s.stage p = .idle) (hget : s.bget p k = some t) : Moves s (.bget p k) t
  | acquire {p i k} (hst : s.stage p = .acquiring i k) (hfree : (s.buf i).holder = none) :
      Moves s (.acquire p) (s.lock p i k)
  | fill {p i k r} (hst : s.stage p = .filling i k) : Moves s (.fill p r) (s.transferIn p i k r)
  | edit {p i data} (hheld : (s.buf i).holder = some p) : Moves s (.edit p i data) (s.store i data)
  | bwrite {p i r} (hheld : (s.buf i).holder = some p) : Moves s (.bwrite p i r) (s.transferOut i r)
  | releaseLock {p i} (hidle : s.stage p = .idle) (hheld : (s.buf i).holder = some p) :
      Moves s (.releaseLock p i) (s.unlock p i)
  | dropRef {p i} (hst : s.stage p = .dropping i) : Moves s (.dropRef p) (s.drop p i)
  | bpin {i} : Moves s (.bpin i) (s.pin i)
  | bunpin {i} (hpos : 0 < s.pins i) : Moves s (.bunpin i) (s.unpin i)

variable {s t : Cache} {p i j : ℕ} {k : Key} {r : Transfer}

/-! ## A step touches one process and one buffer -/

/-- Apart from process `p` and buffer `i`, every place and every buffer is as before. -/
structure Touches (p i : ℕ) (s t : Cache) : Prop where
  stage : ∀ q, q ≠ p → t.stage q = s.stage q
  buf : ∀ j, j ≠ i → t.buf j = s.buf j
  pins : ∀ j, j ≠ i → t.pins j = s.pins j
  dirty : ∀ j, j ≠ i → t.dirty j = s.dirty j

theorem Touches.key (h : Touches p i s t) (hne : j ≠ i) : t.key j = s.key j := by
  simp only [Cache.key, h.buf j hne]

theorem touches_takeHit : Touches p i s (s.takeHit p k i) := by
  constructor <;> intro q hne <;> simp [Cache.takeHit, setBuf, setStage, hne]

theorem touches_recycle : Touches p i s (s.recycle p k i) := by
  constructor <;> intro q hne <;> simp [Cache.recycle, setBuf, setStage, hne]

theorem touches_lock : Touches p i s (s.lock p i k) := by
  constructor <;> intro q hne <;> simp [Cache.lock, setBuf, setStage, hne]

theorem touches_transferIn : Touches p i s (s.transferIn p i k r) := by
  constructor <;> intro q hne <;> simp [Cache.transferIn, setBuf, setStage, hne]

theorem touches_store {data : Block} : Touches p i s (s.store i data) := by
  constructor <;> intro q hne <;> simp [Cache.store, setBuf, hne]

theorem touches_transferOut : Touches p i s (s.transferOut i r) := by
  constructor <;> intro q hne <;> cases r <;> simp [Cache.transferOut, Transfer.completes, hne]

theorem touches_unlock : Touches p i s (s.unlock p i) := by
  constructor <;> intro q hne <;> simp [Cache.unlock, setBuf, setStage, hne]

theorem touches_drop : Touches p i s (s.drop p i) := by
  constructor <;> intro q hne <;> simp [Cache.drop, setBuf, setStage, hne]

theorem touches_pin : Touches p i s (s.pin i) := by
  constructor <;> intro q hne <;> simp [Cache.pin, setBuf, hne]

theorem touches_unpin : Touches p i s (s.unpin i) := by
  constructor <;> intro q hne <;> simp [Cache.unpin, setBuf, hne]

/-! ## Counting -/

/-- The references that process `p` and the lock of buffer `i` have to the buffer. -/
def share (s : Cache) (p i : ℕ) : ℕ :=
  (if s.ref (.inl p) = some i then 1 else 0) + if s.ref (.inr i) = some i then 1 else 0

theorem share_congr (hstage : t.stage = s.stage) (hholder : (t.buf i).holder = (s.buf i).holder) :
    t.share p i = s.share p i := by
  have hplace : t.ref (.inl p) = s.ref (.inl p) := by simp only [ref, hstage]
  have hlock : t.ref (.inr i) = s.ref (.inr i) := by simp only [ref, hholder]
  rw [share, share, hplace, hlock]

theorem Touches.ref_eq (h : Touches p i s t) :
    t.ref = update (update s.ref (.inl p) (t.ref (.inl p))) (.inr i) (t.ref (.inr i)) := by
  funext κ
  rcases κ with q | j
  · obtain rfl | hne := eq_or_ne q p
    · simp
    · simp [ref, hne, h.stage q hne]
  · obtain rfl | hne := eq_or_ne j i
    · simp
    · simp [ref, hne, h.buf j hne]

/-- A step that leaves the process's references to other buffers and counts what it changes at its
own. -/
theorem Counts.touch (h : s.Counts) (ht : Touches p i s t)
    (hother : ∀ j, i ≠ j → (t.ref (.inl p) = some j ↔ s.ref (.inl p) = some j))
    (hcount : (t.buf i).refcnt + s.share p i + s.pins i =
    (s.buf i).refcnt + t.share p i + t.pins i) : t.Counts where
  finite := ht.ref_eq ▸ (h.finite.update _ _).update _ _
  count := by
    intro j
    have hplace := refs_update h.finite (.inl p) (t.ref (.inl p)) j
    have hlock := refs_update (h.finite.update (.inl p) (t.ref (.inl p))) (.inr i) (t.ref (.inr i)) j
    rw [← ht.ref_eq, update_of_ne (by simp)] at hlock
    have hold := h.count j
    obtain rfl | hne := eq_or_ne j i
    · simp only [share] at hcount
      omega
    · have hlocks : ∀ u : Cache, u.ref (.inr i) ≠ some j := by simp [ref, hne.symm]
      simp only [hother j hne.symm, hlocks] at hplace hlock
      rw [ht.buf j hne, ht.pins j hne]
      omega

/-- A referenced buffer has a positive count. -/
theorem Counts.refcnt_pos {κ : ℕ ⊕ ℕ} (h : s.Counts) (hκ : s.ref κ = some i) : 0 < (s.buf i).refcnt := by
  have := refs_pos h.finite hκ
  rw [h.count]
  omega

theorem Counts.pos_of_holder (h : s.Counts) (hh : (s.buf i).holder = some p) : 0 < (s.buf i).refcnt :=
  h.refcnt_pos (show s.ref (.inr i) = some i by simp [ref, hh])

/-- Nobody waits for, holds or drops a buffer whose count is zero, and it is not pinned. -/
theorem Counts.free (h : s.Counts) (hfree : (s.buf i).refcnt = 0) :
    (∀ q, (s.stage q).target ≠ some i) ∧ (s.buf i).holder = none ∧ s.pins i = 0 := by
  refine ⟨fun q hq => ?_, ?_, ?_⟩
  · have := h.refcnt_pos (show s.ref (.inl q) = some i from hq)
    omega
  · by_contra hne
    obtain ⟨q, hq⟩ := Option.ne_none_iff_exists'.mp hne
    have := h.pos_of_holder hq
    omega
  · have := h.count i
    omega

/-! ## Places and contents -/

theorem Places.congr (h : s.Places) (hkey : ∀ j, t.key j = s.key j) (hstage : t.stage = s.stage)
    (hholder : ∀ j, (t.buf j).holder = (s.buf j).holder) (hvalid : ∀ j, (t.buf j).valid = (s.buf j).valid) :
    t.Places where
  unique := by simpa only [hkey] using h.unique
  acquiring := by simpa only [hkey, hstage] using h.acquiring
  filling := by simpa only [hkey, hstage, hholder] using h.filling
  dropping := by simpa only [hstage] using h.dropping
  held := by simpa only [hkey, hholder] using h.held
  loaded := by simpa only [hkey, hstage, hholder, hvalid] using h.loaded

/-- A projection that an update of one buffer leaves alone. -/
theorem proj_update {β : Type*} (f : Entry → β) {buf : ℕ → Entry} {e : Entry} (he : f e = f (buf i)) (j : ℕ) :
    f (update buf i e j) = f (buf j) := by
  obtain rfl | hne := eq_or_ne j i
  · rw [update_self, he]
  · rw [update_of_ne hne]

/-- A valid buffer stays valid if the one that changes does, or becomes it. -/
theorem valid_update {e : Entry} (hvalid : (s.buf i).valid = true)
    (he : e.valid = (s.buf j).valid ∨ e.valid = true) : (update s.buf j e i).valid = true := by
  obtain rfl | hne := eq_or_ne i j
  · rw [update_self]
    exact he.elim (fun heq => heq.trans hvalid) id
  · rwa [update_of_ne hne]

/-- A step is right when it is right for its process and its buffer: the buffer keeps its block or
was nobody's and gets a block that no buffer has, and other processes keep its lock and its data. -/
theorem Places.touch (h : s.Places) (ht : Touches p i s t) (hkey : t.key i = s.key i ∨
      (∀ q, (s.stage q).target ≠ some i) ∧ (s.buf i).holder = none ∧ ∀ j, j < nbuf → s.key j ≠ t.key i)
    (hfrom : ∀ j l, s.stage p = .filling j l → j = i)
    (hlock : ∀ q, q ≠ p → ((t.buf i).holder = some q ↔ (s.buf i).holder = some q))
    (hvalid : ∀ q, q ≠ p → (s.buf i).holder = some q → (s.buf i).valid = true → (t.buf i).valid = true)
    (hacq : ∀ j l, t.stage p = .acquiring j l → j < nbuf ∧ t.key j = l ∧ l.1 ≠ 0)
    (hfill : ∀ j l, t.stage p = .filling j l → t.key j = l ∧ (t.buf j).holder = some p)
    (hdrop : ∀ j, t.stage p = .dropping j → j < nbuf)
    (hown : (t.buf i).holder = some p →
      (i < nbuf ∧ (t.key i).1 ≠ 0) ∧
        ((t.buf i).valid = true ∨ t.stage p = .filling i (t.key i))) : t.Places := by
  -- a buffer that somebody is at keeps its block
  have hat : ∀ q j, (s.stage q).target = some j ∨ (s.buf j).holder = some q → t.key j = s.key j := by
    intro q j hq
    obtain rfl | hne := eq_or_ne j i
    · rcases hkey with hsame | ⟨hnobody, hnone, -⟩
      · exact hsame
      · simp [hnobody q, hnone] at hq
    · exact ht.key hne
  have hholder : ∀ q j, ¬ (q = p ∧ j = i) → (t.buf j).holder = some q → (s.buf j).holder = some q := by
    intro q j hother hq
    obtain rfl | hji := eq_or_ne j i
    · exact (hlock q fun hqp => hother ⟨hqp, rfl⟩).mp hq
    · rwa [ht.buf j hji] at hq
  constructor
  · intro a b ha hb heq hne0
    rcases hkey with hsame | ⟨-, -, hnew⟩
    · have hall : ∀ j, t.key j = s.key j := fun j => (eq_or_ne j i).elim (fun hji => hji ▸ hsame) ht.key
      rw [hall] at heq hne0
      exact h.unique a b ha hb (heq.trans (hall b)) hne0
    · by_contra hab
      by_cases hai : a = i
      · subst hai
        rw [ht.key (Ne.symm hab)] at heq
        exact hnew b hb heq.symm
      · rw [ht.key hai] at heq hne0
        by_cases hbi : b = i
        · subst hbi
          exact hnew a ha heq
        · exact hab (h.unique a b ha hb (heq.trans (ht.key hbi)) hne0)
  · intro q j l hq
    obtain rfl | hqp := eq_or_ne q p
    · exact hacq j l hq
    · rw [ht.stage q hqp] at hq
      rw [hat q j (Or.inl (by rw [hq, Stage.target]))]
      exact h.acquiring q j l hq
  · intro q j l hq
    obtain rfl | hqp := eq_or_ne q p
    · exact hfill j l hq
    · rw [ht.stage q hqp] at hq
      obtain ⟨hl, hq'⟩ := h.filling q j l hq
      refine ⟨(hat q j (Or.inr hq')).trans hl, ?_⟩
      obtain rfl | hji := eq_or_ne j i
      · exact (hlock q hqp).mpr hq'
      · rwa [ht.buf j hji]
  · intro q j hq
    obtain rfl | hqp := eq_or_ne q p
    · exact hdrop j hq
    · exact h.dropping q j (ht.stage q hqp ▸ hq)
  · intro q j hq
    obtain ⟨rfl, rfl⟩ | hother := em (q = p ∧ j = i)
    · exact (hown hq).1
    · have hq' := hholder q j hother hq
      rw [hat q j (Or.inr hq')]
      exact h.held q j hq'
  · intro q j hq
    obtain ⟨rfl, rfl⟩ | hother := em (q = p ∧ j = i)
    · exact (hown hq).2
    · have hq' := hholder q j hother hq
      rw [hat q j (Or.inr hq')]
      rcases h.loaded q j hq' with hv | hread
      · left
        obtain rfl | hji := eq_or_ne j i
        · exact hvalid q (fun hqp => hother ⟨hqp, rfl⟩) hq' hv
        · rwa [ht.buf j hji]
      · have hqp : q ≠ p := by
          rintro rfl
          exact hother ⟨rfl, hfrom _ _ hread⟩
        exact Or.inr (by rw [ht.stage q hqp, hread])

theorem Clean.touch (h : s.Clean) (ht : Touches p i s t)
    (hlast : ∀ j, j < nbuf → j ≠ i → t.last (s.key j) = s.last (s.key j))
    (hclean : i < nbuf → (t.buf i).valid = true → t.dirty i = false →
      (t.buf i).data = t.last (t.key i)) : t.Clean := by
  intro j hj hvalid hdirty
  obtain rfl | hji := eq_or_ne j i
  · exact hclean hj hvalid hdirty
  · rw [ht.buf j hji] at hvalid ⊢
    rw [ht.key hji, hlast j hj hji]
    exact h j hj hvalid (ht.dirty j hji ▸ hdirty)

theorem Pinned.touch (h : s.Pinned) (ht : Touches p i s t)
    (hpinned : i < nbuf → (t.buf i).valid = true → (t.buf i).holder = none → t.dirty i = true →
      0 < t.pins i) : t.Pinned := by
  intro j hj hvalid hnone hdirty
  obtain rfl | hji := eq_or_ne j i
  · exact hpinned hj hvalid hnone hdirty
  · rw [ht.buf j hji] at hvalid hnone
    rw [ht.pins j hji]
    exact h j hj hvalid hnone (ht.dirty j hji ▸ hdirty)

/-- A transfer of a held buffer settles the data of its block and of no other buffer's. -/
theorem last_update_ne {d : Block} (h : s.Places) (hi : i < nbuf) (hj : j < nbuf) (hdev : (s.key i).1 ≠ 0)
    (hne : j ≠ i) : update s.last (s.key i) d (s.key j) = s.last (s.key j) := by
  rw [update_of_ne]
  intro heq
  exact hne (h.unique i j hi hj heq.symm hdev).symm

/-! ## One step -/

section

variable (h : s.Inv)

include h

theorem Inv.takeHit (hidle : s.stage p = .idle) (hi : i < nbuf) (hk : s.key i = k) (hdev : k.1 ≠ 0) :
    (s.takeHit p k i).Inv := by
  subst hk
  refine ⟨h.ring, ?_, ?_⟩
  · apply h.counts.touch touches_takeHit <;>
      simp [share, ref, Cache.takeHit, setBuf, setStage, hidle, Stage.target]
    omega
  · apply h.places.touch touches_takeHit <;> simp [key, Cache.takeHit, setBuf, setStage, hidle]
    · exact ⟨hi, hdev⟩
    · intro hp
      have hloaded := h.places.loaded p i hp
      rw [hidle] at hloaded
      exact ⟨⟨hi, hdev⟩, by simpa using hloaded⟩

theorem Inv.recycle (hidle : s.stage p = .idle) (hi : i < nbuf) (hdev : k.1 ≠ 0)
    (hfree : (s.buf i).refcnt = 0) (hnew : ∀ j, j < nbuf → s.key j ≠ k) : (s.recycle p k i).Inv := by
  obtain ⟨hnobody, hnone, hpins⟩ := h.counts.free hfree
  refine ⟨h.ring, ?_, ?_⟩
  · apply h.counts.touch touches_recycle <;>
      simp [share, ref, Cache.recycle, setBuf, setStage, hidle, Stage.target, hfree]
  · apply h.places.touch touches_recycle
    · right
      simpa [key, Cache.recycle, setBuf, setStage] using ⟨hnobody, hnone, hnew⟩
    all_goals simp [key, Cache.recycle, setBuf, setStage, hidle, hnone]
    exact ⟨hi, hdev⟩

theorem Inv.lock (hst : s.stage p = .acquiring i k) (hfree : (s.buf i).holder = none) :
    (s.lock p i k).Inv := by
  obtain ⟨hi, rfl, hdev⟩ := h.places.acquiring p i k hst
  refine ⟨h.ring, ?_, ?_⟩
  · apply h.counts.touch touches_lock <;> cases hv : (s.buf i).valid <;>
      simp [share, ref, Cache.lock, setBuf, setStage, hst, Stage.target, hfree, hv]
  · have hplace : i < nbuf ∧ (s.buf i).dev ≠ 0 := ⟨hi, hdev⟩
    apply h.places.touch touches_lock <;> cases hv : (s.buf i).valid <;>
      simp [key, Cache.lock, setBuf, setStage, hst, hfree, hv, hplace]
    all_goals exact fun q hne heq => hne heq.symm

theorem Inv.transferIn (hst : s.stage p = .filling i k) : (s.transferIn p i k r).Inv := by
  obtain ⟨rfl, hheld⟩ := h.places.filling p i k hst
  have hplace : i < nbuf ∧ (s.buf i).dev ≠ 0 := h.places.held p i hheld
  refine ⟨h.ring, ?_, ?_⟩
  · apply h.counts.touch touches_transferIn <;>
      simp [share, ref, Cache.transferIn, setBuf, setStage, hst, Stage.target]
  · apply h.places.touch touches_transferIn <;>
      simp [key, Cache.transferIn, setBuf, setStage, hst, hplace]

theorem Inv.store {data : Block} : (s.store i data).Inv := by
  have ht : Touches 0 i s (s.store i data) := touches_store
  refine ⟨h.ring, h.counts.touch ht (fun _ _ => Iff.rfl) ?_, ?_⟩
  · have hshare : (s.store i data).share 0 i = s.share 0 i :=
      share_congr rfl (by simp [Cache.store, setBuf])
    rw [hshare]
    simp [Cache.store, setBuf]
  · exact h.places.congr (proj_update (fun e => (e.dev, e.blockno)) rfl) rfl
      (proj_update Entry.holder rfl) (proj_update Entry.valid rfl)

theorem Inv.transferOut : (s.transferOut i r).Inv :=
  ⟨h.ring, ⟨h.counts.finite, h.counts.count⟩,
    h.places.congr (fun _ => rfl) rfl (fun _ => rfl) fun _ => rfl⟩

theorem Inv.unlock (hidle : s.stage p = .idle) (hheld : (s.buf i).holder = some p) :
    (s.unlock p i).Inv := by
  refine ⟨h.ring, ?_, ?_⟩
  · apply h.counts.touch touches_unlock <;>
      simp [share, ref, Cache.unlock, setBuf, setStage, hidle, hheld, Stage.target]
  · apply h.places.touch touches_unlock <;> simp [key, Cache.unlock, setBuf, setStage, hidle, hheld]
    · exact fun q hne heq => hne heq.symm
    · exact (h.places.held p i hheld).1

/-- Dropping the last reference moves the buffer to the front of the list. -/
theorem Inv.drop (hst : s.stage p = .dropping i) : (s.drop p i).Inv := by
  have hpos := h.counts.refcnt_pos (show s.ref (.inl p) = some i by simp [ref, hst, Stage.target])
  refine ⟨?_, ?_, ?_⟩
  · obtain ⟨l, hring, hperm⟩ := h.ring
    have hmem : i ∈ l := hperm.mem_iff.mpr (List.mem_range.mpr (h.places.dropping p i hst))
    by_cases hlast : (s.buf i).refcnt - 1 = 0
    · refine ⟨i :: l.erase i, ?_, (List.perm_cons_erase hmem).symm.trans hperm⟩
      simp only [Cache.drop, hlast]
      exact hring.moveFront hmem
    · refine ⟨l, ?_, hperm⟩
      simp only [Cache.drop, hlast]
      exact hring
  · apply h.counts.touch touches_drop <;> simp [share, ref, Cache.drop, setBuf, setStage, hst, Stage.target]
    omega
  · apply h.places.touch touches_drop <;> simp [key, Cache.drop, setBuf, setStage, hst]
    intro hp
    have hloaded := h.places.loaded p i hp
    rw [hst] at hloaded
    exact ⟨h.places.held p i hp, by simpa using hloaded⟩

theorem Inv.pin : (s.pin i).Inv := by
  have ht : Touches 0 i s (s.pin i) := touches_pin
  refine ⟨h.ring, h.counts.touch ht (fun _ _ => Iff.rfl) ?_, ?_⟩
  · have hshare : (s.pin i).share 0 i = s.share 0 i := share_congr rfl (by simp [Cache.pin, setBuf])
    rw [hshare]
    simp [Cache.pin, setBuf]
    omega
  · exact h.places.congr (proj_update (fun e => (e.dev, e.blockno)) rfl) rfl
      (proj_update Entry.holder rfl) (proj_update Entry.valid rfl)

theorem Inv.unpin (hpos : 0 < s.pins i) : (s.unpin i).Inv := by
  have ht : Touches 0 i s (s.unpin i) := touches_unpin
  refine ⟨h.ring, h.counts.touch ht (fun _ _ => Iff.rfl) ?_, ?_⟩
  · have := h.counts.count i
    have hshare : (s.unpin i).share 0 i = s.share 0 i := share_congr rfl (by simp [Cache.unpin, setBuf])
    rw [hshare]
    simp [Cache.unpin, setBuf]
    omega
  · exact h.places.congr (proj_update (fun e => (e.dev, e.blockno)) rfl) rfl
      (proj_update Entry.holder rfl) (proj_update Entry.valid rfl)

end

/-! ## Whole runs -/

theorem length_of_perm {l : List ℕ} (hperm : l.Perm (List.range nbuf)) : l.length < nbuf + 1 := by
  rw [hperm.length_eq]
  exact Nat.lt_succ_self _

/-- `bget` counts a reference to the block's buffer, or assigns a free one when no buffer is the
block's. -/
theorem bget_cases (h : s.Inv) (hget : s.bget p k = some t) :
    (∃ i, i < nbuf ∧ s.key i = k ∧ t = s.takeHit p k i) ∨
      ∃ i, i < nbuf ∧ (s.buf i).refcnt = 0 ∧ (∀ j, j < nbuf → s.key j ≠ k) ∧
        s.findFree = some i ∧ t = s.recycle p k i := by
  obtain ⟨l, hring, hperm⟩ := h.ring
  have hmem : ∀ j, j ∈ l ↔ j < nbuf := fun j => hperm.mem_iff.trans List.mem_range
  unfold Cache.bget findBlock at hget
  rw [hring.scan_next (length_of_perm hperm)] at hget
  split at hget
  · next i hfind =>
    cases hget
    exact Or.inl ⟨i, (hmem i).mp (List.mem_of_find?_eq_some hfind),
      of_decide_eq_true (List.find?_some (p := fun i => decide (s.key i = k)) hfind), rfl⟩
  · next hnone =>
    obtain ⟨i, hlast, rfl⟩ := Option.map_eq_some_iff.mp hget
    have hfind := hlast
    rw [findFree, hring.scan_prev (length_of_perm hperm)] at hfind
    refine Or.inr ⟨i, ?_, ?_, ?_, hlast, rfl⟩
    · exact (hmem i).mp (List.mem_reverse.mp (List.mem_of_find?_eq_some hfind))
    · exact of_decide_eq_true (List.find?_some (p := fun i => decide ((s.buf i).refcnt = 0)) hfind)
    · intro j hj
      simpa using List.find?_eq_none.mp hnone j ((hmem j).mpr hj)

variable {a : CacheAction}

theorem moves_of_next (hnext : s.next a = some t) : s.Moves a t := by
  cases a with
  | bget p k =>
    simp only [next, Option.ite_none_right_eq_some] at hnext
    exact .bget hnext.1 hnext.2
  | acquire p =>
    simp only [next] at hnext
    split at hnext
    · next i k hst =>
      obtain ⟨hguard, rfl⟩ := guarded hnext
      exact .acquire hst hguard
    · cases hnext
  | fill p r =>
    simp only [next] at hnext
    split at hnext
    · next i k hst =>
      obtain ⟨-, rfl⟩ := guarded hnext
      exact .fill hst
    · cases hnext
  | dropRef p =>
    simp only [next] at hnext
    split at hnext
    · next i hst =>
      cases hnext
      exact .dropRef hst
    · cases hnext
  | edit p i data =>
    obtain ⟨hguard, rfl⟩ := guarded hnext
    exact .edit hguard.2
  | bwrite p i r =>
    obtain ⟨hguard, rfl⟩ := guarded hnext
    exact .bwrite hguard.2.1
  | releaseLock p i =>
    obtain ⟨hguard, rfl⟩ := guarded hnext
    exact .releaseLock hguard.1 hguard.2
  | bpin i =>
    obtain ⟨-, rfl⟩ := guarded hnext
    exact .bpin
  | bunpin i =>
    obtain ⟨hguard, rfl⟩ := guarded hnext
    exact .bunpin hguard

section

variable (h : s.Inv) (hstep : s.Step a t)

include h hstep

theorem Inv.step : t.Inv := by
  obtain ⟨hdev, hnext⟩ := hstep
  cases moves_of_next hnext with
  | bget hidle hget =>
    have hdev := of_decide_eq_true hdev
    rcases bget_cases h hget with ⟨i, hi, hk, rfl⟩ | ⟨i, hi, hfree, hnew, -, rfl⟩
    · exact h.takeHit hidle hi hk hdev
    · exact h.recycle hidle hi hdev hfree hnew
  | acquire hst hfree => exact h.lock hst hfree
  | fill hst => exact h.transferIn hst
  | edit => exact h.store
  | bwrite => exact h.transferOut
  | releaseLock hidle hheld => exact h.unlock hidle hheld
  | dropRef hst => exact h.drop hst
  | bpin => exact h.pin
  | bunpin hpos => exact h.unpin hpos

/-- Complete reads keep valid buffers clean. -/
theorem Clean.step (hclean : s.Clean) (hreads : ∀ p r, a = .fill p r → r.completes = true) : t.Clean := by
  have hsame : ∀ {u : Cache}, (∀ j, ((u.buf j).valid, (u.buf j).data, u.key j) =
      ((s.buf j).valid, (s.buf j).data, s.key j)) → u.dirty = s.dirty → u.last = s.last → u.Clean := by
    intro u hbuf hdirty hlast j hj hvalid hd
    obtain ⟨hv, hdata, hkey⟩ := by simpa only [Prod.mk.injEq] using hbuf j
    rw [hdata, hkey, hlast]
    exact hclean j hj (hv ▸ hvalid) (hdirty ▸ hd)
  have hproj : ∀ {j : ℕ} {e : Entry}, (e.valid, e.data, e.dev, e.blockno) =
      ((s.buf j).valid, (s.buf j).data, s.key j) → ∀ l, ((update s.buf j e l).valid,
        (update s.buf j e l).data, (update s.buf j e l).dev, (update s.buf j e l).blockno) =
      ((s.buf l).valid, (s.buf l).data, s.key l) :=
    fun he => proj_update (fun e => (e.valid, e.data, e.dev, e.blockno)) he
  cases moves_of_next hstep.2 with
  | bget hidle hget =>
    rcases bget_cases h hget with ⟨i, -, -, rfl⟩ | ⟨i, -, -, -, -, rfl⟩
    · exact hsame (hproj rfl) rfl rfl
    · apply hclean.touch touches_recycle (fun _ _ _ => rfl)
      simp [Cache.recycle, setBuf, setStage]
  | @fill p i k r hst =>
    obtain ⟨rfl, hheld⟩ := h.places.filling p i k hst
    obtain ⟨hi, hdev⟩ := h.places.held p i hheld
    have hr := hreads p r rfl
    apply hclean.touch touches_transferIn
    · intro j hj hji
      simp only [Cache.transferIn, hr, if_true]
      exact last_update_ne h.places hi hj hdev hji
    · simp [key, Cache.transferIn, setBuf, setStage, hr]
  | @edit p i data hheld =>
    apply hclean.touch (p := p) touches_store (fun _ _ _ => rfl)
    simp [Cache.store]
  | @bwrite p i r hheld =>
    cases hr : r.completes with
    | false => exact hsame (fun _ => rfl) (by simp [Cache.transferOut, hr]) (by simp [Cache.transferOut, hr])
    | true =>
      obtain ⟨hi, hdev⟩ := h.places.held p i hheld
      apply hclean.touch (p := p) touches_transferOut
      · intro j hj hji
        simp only [Cache.transferOut, hr, if_true]
        exact last_update_ne h.places hi hj hdev hji
      · simp [key, Cache.transferOut, hr]
  | _ => exact hsame (hproj rfl) rfl rfl

/-- Callers that settle what they edit leave no edited buffer unpinned. -/
theorem Pinned.step (hpinned : s.Pinned) (hsettles : s.Settles a) : t.Pinned := by
  cases moves_of_next hstep.2 with
  | bget hidle hget =>
    rcases bget_cases h hget with ⟨i, -, -, rfl⟩ | ⟨i, -, -, -, -, rfl⟩
    · apply hpinned.touch touches_takeHit
      simpa [Cache.takeHit, setBuf, setStage] using hpinned i
    · apply hpinned.touch touches_recycle
      simp [Cache.recycle, setBuf, setStage]
  | acquire hst hfree =>
    apply hpinned.touch touches_lock
    simp [Cache.lock, setBuf, setStage]
  | fill hst =>
    apply hpinned.touch touches_transferIn
    simp [Cache.transferIn, setBuf, setStage]
  | @edit p i data hheld =>
    apply hpinned.touch (p := p) touches_store
    simp [Cache.store, setBuf, hheld]
  | @bwrite p i r hheld =>
    apply hpinned.touch (p := p) touches_transferOut
    simp [Cache.transferOut, hheld]
  | @releaseLock p i hidle hheld =>
    have hwritten : s.dirty i = true → 0 < s.pins i := hsettles
    apply hpinned.touch touches_unlock
    simpa [Cache.unlock, setBuf, setStage] using fun _ _ => hwritten
  | @dropRef p i hst =>
    apply hpinned.touch touches_drop
    simpa [Cache.drop, setBuf, setStage] using hpinned i
  | @bpin i =>
    apply hpinned.touch (p := 0) touches_pin
    simp [Cache.pin]
  | @bunpin i hpos =>
    apply hpinned.touch (p := 0) touches_unpin
    simpa [Cache.unpin, setBuf] using fun _ _ hnone hdirty => hsettles hdirty hnone

/-- No step reassigns a buffer that is referenced. -/
theorem key_of_step (hpos : 0 < (s.buf i).refcnt) :
    t.key i = s.key i := by
  have hfun : ∀ {j : ℕ} {e : Entry}, (e.dev, e.blockno) = s.key j →
      ((update s.buf j e i).dev, (update s.buf j e i).blockno) = s.key i :=
    fun he => proj_update (fun e => (e.dev, e.blockno)) he i
  cases moves_of_next hstep.2 with
  | bget hidle hget =>
    rcases bget_cases h hget with ⟨j, -, -, rfl⟩ | ⟨j, -, hfree, -, -, rfl⟩
    · exact hfun rfl
    · exact touches_recycle.key fun hij => hpos.ne' (hij ▸ hfree)
  | _ => first | exact hfun rfl | rfl

/-- A loaded buffer stays loaded while it is referenced. -/
theorem valid_of_step (hpos : 0 < (s.buf i).refcnt) (hvalid : (s.buf i).valid = true) :
    (t.buf i).valid = true := by
  cases moves_of_next hstep.2 with
  | bget hidle hget =>
    rcases bget_cases h hget with ⟨j, -, -, rfl⟩ | ⟨j, -, hfree, -, -, rfl⟩
    · exact valid_update hvalid (.inl rfl)
    · rwa [touches_recycle.buf i fun hij => hpos.ne' (hij ▸ hfree)]
  | _ =>
    first | exact valid_update hvalid (.inl rfl) | exact valid_update hvalid (.inr rfl) | exact hvalid

/-- Only its holder releases a buffer. -/
theorem holder_of_step (hheld : (s.buf i).holder = some p) (ha : a ≠ .releaseLock p i) :
    (t.buf i).holder = some p := by
  have hfun : ∀ {j : ℕ} {e : Entry}, e.holder = (s.buf j).holder → (update s.buf j e i).holder = some p :=
    fun he => (proj_update Entry.holder he i).trans hheld
  cases moves_of_next hstep.2 with
  | bget hidle hget =>
    rcases bget_cases h hget with ⟨j, -, -, rfl⟩ | ⟨j, -, -, -, -, rfl⟩ <;> exact hfun rfl
  | @acquire _ j _ _ hfree =>
    have hne : i ≠ j := by
      rintro rfl
      simp [hheld] at hfree
    rwa [touches_lock.buf i hne]
  | @releaseLock _ j _ hq =>
    have hne : i ≠ j := by
      rintro rfl
      rw [hheld] at hq
      cases hq
      exact ha rfl
    rwa [touches_unlock.buf i hne]
  | _ => first | exact hfun rfl | exact hheld

end

theorem inv_binit (disk : Disk) : (binit disk).Inv where
  ring := by
    refine ⟨(List.range nbuf).reverse ++ [], ?_, ?_⟩
    · apply Links.ring_foldl_pushFront Links.ring_empty
      rw [List.append_nil, List.nodup_reverse]
      exact List.nodup_range
    · rw [List.append_nil]
      exact List.reverse_perm _
  counts := by
    have hnone : ∀ κ, (binit disk).ref κ = none := by
      intro κ
      rcases κ with q | j <;> rfl
    have hfinite : FiniteRefs (binit disk).ref := by simp [FiniteRefs, hnone]
    refine ⟨hfinite, fun i => ?_⟩
    rw [(refs_eq_zero hfinite).mpr fun κ => by simp [hnone]]
    rfl
  places := by
    constructor
    · intro i j _ _ _ hdev
      exact absurd rfl hdev
    all_goals simp [binit]

/-- In every run of any processes: a block of a device has at most one buffer, the LRU list is a
permutation of all buffers, and no further step reassigns a referenced buffer. If all transfers are
complete and edited buffers are written or pinned before they are released, a valid buffer that
nobody holds has the data last read from or written to its block, or is pinned. -/
theorem cache_invariant {disk : Disk} {as : List CacheAction} (hrun : Run Step (binit disk) as s) :
    (∀ i j, i < nbuf → j < nbuf → s.key i = s.key j → (s.key i).1 ≠ 0 → i = j) ∧
    (∃ l, s.links.Ring l ∧ l.Perm (List.range nbuf)) ∧
    (∀ a t i, s.Step a t → 0 < (s.buf i).refcnt → t.key i = s.key i) ∧
    (Run SettledStep (binit disk) as s → ∀ i, i < nbuf → (s.buf i).valid = true →
      (s.buf i).holder = none → (s.buf i).data = s.last (s.key i) ∨ 0 < s.pins i) := by
  have hinv : s.Inv := hrun.invariant (fun _ _ _ h hstep => h.step hstep) (inv_binit disk)
  refine ⟨hinv.places.unique, hinv.ring, fun a t i hstep hpos => key_of_step hinv hstep hpos, ?_⟩
  intro hsettled i hi hvalid hnone
  obtain ⟨-, hclean, hpinned⟩ : s.Inv ∧ s.Clean ∧ s.Pinned := by
    refine hsettled.invariant (fun u a v (h : u.Inv ∧ u.Clean ∧ u.Pinned) hstep => ?_)
      ⟨inv_binit disk, by simp [Clean, binit], by simp [Pinned, binit]⟩
    obtain ⟨hu, hclean, hpinned⟩ := h
    obtain ⟨hsettles, hstep⟩ := hstep
    refine ⟨hu.step hstep, hclean.step hu hstep ?_, hpinned.step hu hstep hsettles⟩
    rintro p r rfl
    exact hsettles
  cases hdirty : s.dirty i with
  | false => exact Or.inl (hclean i hi hvalid hdirty)
  | true => exact Or.inr (hpinned i hi hvalid hnone hdirty)

/-- A block that is read, edited, pinned and released is not lost: the run reaches a state in which
its buffer is valid, held by nobody, and current or pinned. -/
theorem cache_invariant_edited :
    ∃ s, Run SettledStep (binit fun _ _ _ => 0) [.bget 0 (1, 5), .acquire 0, .fill 0 .complete,
        .edit 0 0 (fun _ => 7), .bpin 0, .releaseLock 0 0, .dropRef 0] s ∧
      (s.buf 0).valid = true ∧ (s.buf 0).holder = none ∧
      ((s.buf 0).data = s.last (s.key 0) ∨ 0 < s.pins 0) := by
  let s₁ := (binit fun _ _ _ => 0).recycle 0 (1, 5) 0
  let s₃ := (s₁.lock 0 0 (1, 5)).transferIn 0 0 (1, 5) .complete
  let s₅ := (s₃.store 0 fun _ => 7).pin 0
  have hget : (binit fun _ _ _ => 0).next (.bget 0 (1, 5)) = some s₁ := by
    rfl
  have hrun : Run SettledStep (binit fun _ _ _ => 0) [.bget 0 (1, 5), .acquire 0, .fill 0 .complete,
      .edit 0 0 (fun _ => 7), .bpin 0, .releaseLock 0 0, .dropRef 0] ((s₅.unlock 0 0).drop 0 0) :=
    .cons ⟨trivial, rfl, hget⟩ <| .cons ⟨trivial, rfl, rfl⟩ <| .cons ⟨rfl, rfl, rfl⟩ <|
      .cons ⟨trivial, rfl, rfl⟩ <| .cons ⟨trivial, rfl, rfl⟩ <|
      .cons ⟨fun _ => Nat.one_pos, rfl, rfl⟩ <| .cons ⟨trivial, rfl, rfl⟩ <| .nil _
  have hany := hrun.mono fun _ _ _ h => h.2
  exact ⟨_, hrun, rfl, rfl, (cache_invariant hany).2.2.2 hrun 0 (by decide) rfl rfl⟩

/-- A block of the card that cannot be read is released as valid, with the data that the buffer
had. -/
theorem unread_block_valid : ∃ s, Run Step (binit fun _ _ _ => 1)
    [.bget 0 (7, 5), .acquire 0, .fill 0 (.failed fun _ => 0), .releaseLock 0 0, .dropRef 0] s ∧
    (s.buf 0).valid = true ∧ (s.buf 0).holder = none ∧ s.pins 0 = 0 ∧
      (s.buf 0).data ≠ s.last (s.key 0) := by
  let s₁ := (binit fun _ _ _ => 1).recycle 0 (7, 5) 0
  let s₃ := (s₁.lock 0 0 (7, 5)).transferIn 0 0 (7, 5) (.failed fun _ => 0)
  have hget : (binit fun _ _ _ => 1).next (.bget 0 (7, 5)) = some s₁ := by
    rfl
  have hrun : Run Step (binit fun _ _ _ => 1) [.bget 0 (7, 5), .acquire 0, .fill 0 (.failed fun _ => 0),
      .releaseLock 0 0, .dropRef 0] ((s₃.unlock 0 0).drop 0 0) :=
    .cons ⟨rfl, hget⟩ <| .cons ⟨rfl, rfl⟩ <| .cons ⟨rfl, rfl⟩ <| .cons ⟨rfl, rfl⟩ <|
      .cons ⟨rfl, rfl⟩ <| .nil _
  refine ⟨_, hrun, rfl, rfl, rfl, fun hsame => ?_⟩
  exact absurd (congrFun hsame 0) (by decide)

end Xv6.Cache
