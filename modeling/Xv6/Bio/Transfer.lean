import Xv6.Bio.Spec

/-!
# Moving a block through the cache

The log copies blocks between a log slot and a home location: both blocks are read, the
contents of one are copied over the other, the copy is written out, and both buffers are
released. `Transferred` describes the whole move for either reading order.
-/

namespace Xv6

open Lib

namespace Bio

variable {s t u v : Bio} {i j : ℕ} {k l m : Key} {x y : Buf}

/-- The copying half of a move, once both buffers are held. -/
def transfer (dst src : ℕ) (unpin : Bool) : BioM Unit := do
  copyBuf dst src
  bwrite dst
  if unpin then bunpin dst else pure ()
  brelse src
  brelse dst

/-- Nobody references a buffer, and there are two of them. -/
structure Idle (s : Bio) : Prop where
  two : 2 ≤ s.lru.length
  free : ∀ i ∈ s.lru, (s.buf i).refcnt = 0

/-- Block `l` has been moved to block `k`; `drop` references of `k` have been dropped. -/
structure Transferred (s t : Bio) (k l : Key) (drop : ℕ) : Prop where
  wf : t.Wf
  base : t.base = s.base
  writes : t.writes = s.writes ++ [⟨k.1, k.2, s.view l⟩]
  dst : t.cell k = some ⟨true, k.1, k.2, false, s.refs k - drop, s.view l⟩
  src : t.cell l = some ⟨true, l.1, l.2, false, s.refs l, s.view l⟩
  other : ∀ m, m.1 ≠ 0 → m ≠ k → m ≠ l → Kept s t m
  idle : s.Idle → t.Idle

/-- No block of an idle cache is referenced. -/
theorem Idle.refs_eq (h : s.Idle) : s.refs k = 0 := by
  cases hcell : s.cell k with
  | none => simp [refs, hcell]
  | some x =>
    obtain ⟨i, hi, rfl⟩ := holds_of_cell hcell
    rw [refs_of_cell hcell, h.free i hi.1]

/-- A well-formed idle cache serves every block that exists. -/
theorem Idle.serves (h : s.Idle) (hwf : s.Wf) (hk : OnMedium k) : s.Serves k where
  exists_block := hk
  unlocked := fun i hi => by
    by_contra hlocked
    exact hwf.referenced i hi.1 (by simpa using hlocked) (h.free i hi.1)
  available := by
    have hne : s.lru ≠ [] := by
      intro hnil
      have := h.two
      simp [hnil] at this
    obtain ⟨i, hi⟩ := List.exists_mem_of_ne_nil _ hne
    exact Or.inr ⟨i, hi, h.free i hi⟩

/-- With one buffer held, an idle cache still serves every other block. -/
theorem Idle.serves_second (h : s.Idle) (hwf : s.Wf) (hread : s.ReadBy k i t) (hl : OnMedium l)
    (hne : l ≠ k) : t.Serves l where
  exists_block := hl
  unlocked := fun j hj => by
    have hji : j ≠ i := by
      rintro rfl
      exact hne (hj.key_eq hread.holds)
    rw [hread.buf_of_ne hji]
    exact (h.serves hwf hl).unlocked j ((hread.holds_of_ne hji).mp hj)
  available := by
    have hlen : (s.lru.erase i).length ≠ 0 := by
      rw [List.length_erase_of_mem hread.mem]
      have := h.two
      omega
    obtain ⟨j, hj⟩ := List.exists_mem_of_ne_nil _ (List.length_pos_iff.mp (Nat.pos_of_ne_zero hlen))
    have hmem := List.mem_of_mem_erase hj
    have hji : j ≠ i := ((hwf.nodup.mem_erase_iff).mp hj).1
    exact Or.inr ⟨j, hread.lru_eq ▸ hmem, by rw [hread.buf_of_ne hji, h.free j hmem]⟩

/-- Both buffers of a move are held: `i` for the destination `k`, `j` for the source `l`. -/
structure BothHeld (s u : Bio) (i : ℕ) (k : Key) (j : ℕ) (l : Key) : Prop where
  wf : u.Wf
  unwritten : s.Unwritten u
  lru_eq : u.lru = s.lru
  dst : u.Holds i k
  dst_buf : ∃ data, u.buf i = ⟨true, k.1, k.2, true, s.refs k + 1, data⟩
  src : u.Holds j l
  src_buf : u.buf j = ⟨true, l.1, l.2, true, s.refs l + 1, s.view l⟩
  other : ∀ m, m.1 ≠ 0 → m ≠ k → m ≠ l → Kept s u m
  rest : ∀ n, n ≠ i → n ≠ j → u.buf n = s.buf n

/-- Reading the destination and then the source. -/
theorem ReadBy.bothHeld_dst_src (hfirst : s.ReadBy k i t) (hsecond : t.ReadBy l j u) (hwf : s.Wf)
    (hk : k.1 ≠ 0) (hl : l.1 ≠ 0) (hne : l ≠ k) (hclean : s.CleanAt l) : BothHeld s u i k j l := by
  have htwf := hfirst.wf hwf hk
  have hkept := hfirst.kept hwf hk hl hne
  have hheld := hsecond.handle hfirst.holds hne.symm (by simp [hfirst.buf_self])
  have hunwritten := hfirst.unwritten
  refine ⟨hsecond.wf htwf hl,
    ⟨hsecond.unwritten.1.trans hunwritten.1, hsecond.unwritten.2.trans hunwritten.2⟩,
    hsecond.lru_eq.trans hfirst.lru_eq, hheld.1, ⟨s.view k, hheld.2.trans hfirst.buf_self⟩, hsecond.holds,
    ?_, fun m hm hmk hml => ?_, fun n hni hnj => ?_⟩
  · rw [hsecond.buf_self, hkept.refs_eq, hkept.view_eq hclean (by rw [hfirst.disk_eq])]
  · exact (hfirst.kept hwf hk hm hmk).trans (hsecond.kept htwf hl hm hml)
  · rw [hsecond.buf_of_ne hnj, hfirst.buf_of_ne hni]

/-- Reading the source and then the destination. -/
theorem ReadBy.bothHeld_src_dst (hfirst : s.ReadBy l j t) (hsecond : t.ReadBy k i u) (hwf : s.Wf)
    (hk : k.1 ≠ 0) (hl : l.1 ≠ 0) (hne : l ≠ k) : BothHeld s u i k j l := by
  have htwf := hfirst.wf hwf hl
  have hheld := hsecond.handle hfirst.holds hne (by simp [hfirst.buf_self])
  have hunwritten := hfirst.unwritten
  refine ⟨hsecond.wf htwf hk,
    ⟨hsecond.unwritten.1.trans hunwritten.1, hsecond.unwritten.2.trans hunwritten.2⟩,
    hsecond.lru_eq.trans hfirst.lru_eq, hsecond.holds, ⟨t.view k, ?_⟩, hheld.1, hheld.2.trans hfirst.buf_self,
    fun m hm hmk hml => ?_, fun n hni hnj => ?_⟩
  · rw [hsecond.buf_self, (hfirst.kept hwf hl hk hne.symm).refs_eq]
  · exact (hfirst.kept hwf hl hm hml).trans (hsecond.kept htwf hk hm hmk)
  · rw [hsecond.buf_of_ne hni, hfirst.buf_of_ne hnj]

/-- The cache after the copy has been made and written out. -/
def copied (u : Bio) (dst src drop : ℕ) : Bio where
  base := u.base
  writes := u.writes ++ [⟨(u.buf dst).dev, (u.buf dst).blockno, (u.buf src).data⟩]
  buf := Function.update u.buf dst
    { u.buf dst with data := (u.buf src).data, refcnt := (u.buf dst).refcnt - drop }
  lru := u.lru

/-- The outcome of the copying half. -/
theorem transfer_eq (hne : j ≠ i) (hi : (u.buf i).locked = true) (hj : (u.buf j).locked = true)
    (unpin : Bool) : transfer i j unpin u =
      if medium (u.buf i).dev = .ramdisk ∧ fsSize ≤ (u.buf i).blockno then
        .error (.panic "ramdiskrw: blockno too big") (u.setBuf i { u.buf i with data := (u.buf j).data })
      else .ok () (((u.copied i j (if unpin then 1 else 0)).released j).released i) := by
  have hlocked : ∀ drop, ((u.copied i j drop).buf j).locked = true := by
    intro drop
    simp [copied, Function.update_of_ne hne, hj]
  have hlocked' : ∀ drop, (((u.copied i j drop).released j).buf i).locked = true := by
    intro drop
    rw [released_buf, Function.update_of_ne hne.symm]
    simp [copied, hi]
  by_cases hrange : medium (u.buf i).dev = .ramdisk ∧ fsSize ≤ (u.buf i).blockno
  · simp [transfer, copyBuf, bwrite_eq, Bio.setBuf, hi, hrange]
  · rw [if_neg hrange]
    have hwritten : bwrite i (u.setBuf i { u.buf i with data := (u.buf j).data }) =
      .ok () (u.copied i j 0) := by
      simp [bwrite_eq, Bio.setBuf, hi, hrange, copied]
    have hunpin : bunpin i (u.copied i j 0) = .ok () (u.copied i j 1) := by
      simp [bunpin, Bio.setBuf, copied]
    cases unpin <;>
      simp [transfer, copyBuf, hwritten, hunpin, brelse_eq, hlocked, hlocked']

/-- With both buffers held, the copying half completes the move. -/
theorem BothHeld.transfer_ends (h : BothHeld s u i k j l) (hk : k.1 ≠ 0) (hl : l.1 ≠ 0) (hne : l ≠ k)
    (unpin : Bool) (hdrop : (if unpin then 1 else 0) ≤ s.refs k) :
    Ends (transfer i j unpin) u (fun _ t => Transferred s t k l (if unpin then 1 else 0))
      fun t => s.Unwritten t ∧ ¬ OnMedium k := by
  obtain ⟨data, hdst⟩ := h.dst_buf
  have hji : j ≠ i := by
    rintro rfl
    exact hne (h.src.key_eq h.dst)
  unfold Ends
  rw [transfer_eq hji (by rw [hdst]) (by rw [h.src_buf]) unpin]
  generalize (if unpin then 1 else 0) = drop at hdrop ⊢
  by_cases hrange : medium (u.buf i).dev = .ramdisk ∧ fsSize ≤ (u.buf i).blockno
  · rw [if_pos hrange]
    rw [hdst] at hrange
    exact ⟨h.unwritten, fun hon => absurd (hon hrange.1) (Nat.not_lt.mpr hrange.2)⟩
  · rw [if_neg hrange]
    have hcopy : Alters u (u.copied i j drop) i ⟨true, k.1, k.2, true, s.refs k + 1 - drop, s.view l⟩ := by
      refine h.wf.alters h.dst rfl rfl (fun _ => ?_) ?_ (List.Perm.refl _)
      · change s.refs k + 1 - drop ≠ 0
        omega
      · simp [copied, hdst, h.src_buf]
    have hsrc : (u.copied i j drop).Holds j l := (hcopy.holds j l).mpr h.src
    have hrelsrc := hcopy.wf.alters_released hsrc
    have hdst' : ((u.copied i j drop).released j).Holds i k :=
      (hrelsrc.holds i k).mpr ((hcopy.holds i k).mpr h.dst)
    have hreldst := hrelsrc.wf.alters_released hdst'
    rw [hcopy.other j hji, h.src_buf] at hrelsrc
    rw [hrelsrc.other i hji.symm, hcopy.self] at hreldst
    refine ⟨hreldst.wf, ?_, ?_, ?_, ?_, fun m hm hmk hml => ?_, fun hidle => ?_⟩
    · rw [(released_unwritten _ _).2, (released_unwritten _ _).2]
      exact h.unwritten.2
    · rw [(released_unwritten _ _).1, (released_unwritten _ _).1, copied, hdst, h.src_buf, h.unwritten.1]
    · rw [hreldst.cell_self hk hdst']
      simp only [Option.some.injEq, Buf.mk.injEq, true_and, and_true]
      omega
    · rw [hreldst.cell_of_ne hrelsrc.wf hl hdst' hne, hrelsrc.cell_self hl hsrc]
      rfl
    · refine (h.other m hm hmk hml).trans (Kept.of_eq ?_)
      rw [hreldst.cell_of_ne hrelsrc.wf hm hdst' hmk, hrelsrc.cell_of_ne hcopy.wf hm hsrc hml,
        hcopy.cell_of_ne h.wf hm h.dst hmk]
    · have hperm := hreldst.perm.trans (hrelsrc.perm.trans hcopy.perm)
      refine ⟨by rw [hperm.length_eq, h.lru_eq]; exact hidle.two, fun n hn => ?_⟩
      have hmem : n ∈ s.lru := h.lru_eq ▸ hperm.mem_iff.mp hn
      have hk0 := hidle.refs_eq (k := k)
      have hl0 := hidle.refs_eq (k := l)
      by_cases hni : n = i
      · rw [hni, hreldst.self]
        change s.refs k + 1 - drop - 1 = 0
        omega
      · rw [hreldst.other n hni]
        by_cases hnj : n = j
        · rw [hnj, hrelsrc.self]
          change s.refs l + 1 - 1 = 0
          omega
        · rw [hrelsrc.other n hnj, hcopy.other n hni, h.rest n hni hnj, hidle.free n hmem]

/-- A move that reads the destination first. -/
theorem move_dst_src_ends (hwf : s.Wf) (hk : k.1 ≠ 0) (hl : l.1 ≠ 0) (hne : l ≠ k) (hclean : s.CleanAt l) :
    Ends (do
      let i ← bread k.1 k.2
      let j ← bread l.1 l.2
      transfer i j false) s (fun _ t => Transferred s t k l 0)
      fun t => s.Unwritten t ∧ ¬ (s.Idle ∧ OnMedium k ∧ OnMedium l) := by
  refine ends_bind ((bread_ends hwf hk).mono (fun i t hi => ?_) fun t ht => ?_)
  · refine ends_bind ((bread_ends (hi.wf hwf hk) hl).mono (fun j u hj => ?_) fun u hu => ?_)
    · exact ((hi.bothHeld_dst_src hj hwf hk hl hne hclean).transfer_ends hk hl hne false (Nat.zero_le _)).mono
        (fun _ _ hv => hv) fun v hv => ⟨hv.1, fun hok => hv.2 hok.2.1⟩
    · refine ⟨⟨hu.1.1.trans hi.unwritten.1, hu.1.2.trans hi.unwritten.2⟩, fun hok => hu.2 ?_⟩
      exact hok.1.serves_second hwf hi hok.2.2 hne
  · exact ⟨ht.1, fun hok => ht.2 (hok.1.serves hwf hok.2.1)⟩

/-- A move that reads the source first. -/
theorem move_src_dst_ends (hwf : s.Wf) (hk : k.1 ≠ 0) (hl : l.1 ≠ 0) (hne : l ≠ k) (unpin : Bool)
    (hdrop : (if unpin then 1 else 0) ≤ s.refs k) :
    Ends (do
      let j ← bread l.1 l.2
      let i ← bread k.1 k.2
      transfer i j unpin) s (fun _ t => Transferred s t k l (if unpin then 1 else 0))
      fun t => s.Unwritten t ∧ ¬ (s.Idle ∧ OnMedium k ∧ OnMedium l) := by
  refine ends_bind ((bread_ends hwf hl).mono (fun j t hj => ?_) fun t ht => ?_)
  · refine ends_bind ((bread_ends (hj.wf hwf hl) hk).mono (fun i u hi => ?_) fun u hu => ?_)
    · exact ((hj.bothHeld_src_dst hi hwf hk hl hne).transfer_ends hk hl hne unpin hdrop).mono
        (fun _ _ hv => hv) fun v hv => ⟨hv.1, fun hok => hv.2 hok.2.1⟩
    · refine ⟨⟨hu.1.1.trans hj.unwritten.1, hu.1.2.trans hj.unwritten.2⟩, fun hok => hu.2 ?_⟩
      exact hok.1.serves_second hwf hj hok.2.1 hne.symm
  · exact ⟨ht.1, fun hok => ht.2 (hok.1.serves hwf hok.2.2)⟩

end Bio

end Xv6
