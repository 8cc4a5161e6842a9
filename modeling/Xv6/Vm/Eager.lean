import Xv6.Vm

/-!
# Fork by copying at once

What user memory is for: every process has bytes of its own, and `fork` copies all pages of
the parent at once. There are no page tables, counters or shared pages here, so a write
changes one process. `Call.eager` gives the calls of a process this meaning; it has no
value where the kernel halts.
-/

namespace Xv6

open Lib Function

/-- A page of a process: its bytes, and what the process may do with it. -/
@[ext] structure PageImage where
  bytes : Bytes
  r : Bool
  w : Bool
  x : Bool
  u : Bool

/-- A process with its own memory. -/
@[ext] structure ProcImage where
  sz : ℕ
  parent : Option ℕ
  zombie : Bool
  xstate : List UInt8
  page : ℕ → Option PageImage

/-- The processes of the eager machine. -/
abbrev Eager := ℕ → Option ProcImage

variable {m : Eager} {pg : Option PageImage} {slot : ℕ} {b : UInt8} {v : ℕ} {i : ℕ} {m' : Eager}

namespace Eager

/-- Change the process in a slot. -/
def modifyProc (m : Eager) (slot : ℕ) (f : ProcImage → ProcImage) : Eager :=
  update m slot ((m slot).map f)

/-- Only what a change does to the process in the slot matters. -/
theorem modifyProc_congr {f g : ProcImage → ProcImage} (h : ∀ im, m slot = some im → f im = g im) :
    m.modifyProc slot f = m.modifyProc slot g :=
  congrArg (update m slot) (Option.map_congr h)

theorem modifyProc_self {f : ProcImage → ProcImage} (h : ∀ im, m slot = some im → f im = im) :
    m.modifyProc slot f = m := by
  rw [modifyProc_congr (g := id) h, modifyProc, Option.map_id_apply, update_eq_self]

theorem modifyProc_modifyProc (m : Eager) (slot : ℕ) (f g : ProcImage → ProcImage) :
    (m.modifyProc slot f).modifyProc slot g = m.modifyProc slot fun im => g (f im) := by
  simp [modifyProc, Function.comp_def]

/-- The page of a process. -/
def page (m : Eager) (slot v : ℕ) : Option PageImage := (m slot).bind (·.page v)

/-- Give a process a page, or take one away. -/
def setPage (m : Eager) (slot v : ℕ) (pg : Option PageImage) : Eager :=
  m.modifyProc slot fun pr => { pr with page := update pr.page v pg }

/-- Write bytes into a page of one process. -/
def writePage (m : Eager) (slot v off : ℕ) (data : List UInt8) : Eager :=
  m.setPage slot v ((m.page slot v).map fun pg =>
    { pg with bytes := blit pg.bytes off data.length fun i => data.getD i 0 })

/-- A process without its pages. -/
def header (im : ProcImage) : ProcImage := { im with page := fun _ => none }

/-- Two memories are equal if their pages and the rest of their processes are. -/
theorem ext_page (hheader : ∀ i, (m i).map header = (m' i).map header)
    (hpage : ∀ i x, m.page i x = m'.page i x) : m = m' := by
  funext i
  have hi := hheader i
  have hp := hpage i
  cases hm : m i with
  | none =>
    cases hm' : m' i with
    | none => rfl
    | some im' => simp [hm, hm'] at hi
  | some im =>
    cases hm' : m' i with
    | none => simp [hm, hm'] at hi
    | some im' =>
      simp only [hm, hm', page, Option.map_some, Option.some.injEq, header, ProcImage.mk.injEq] at hi hp
      obtain ⟨hsz, hparent, hzombie, hxstate, -⟩ := hi
      exact congrArg some (ProcImage.ext hsz hparent hzombie hxstate (funext hp))

theorem header_setPage :
    (m.setPage slot v pg i).map header = (m i).map header := by
  obtain rfl | hi := eq_or_ne i slot
  · cases hm : m i <;> simp [setPage, modifyProc, header, hm]
  · simp [setPage, modifyProc, hi]

/-- The byte at an address below the size of a process. -/
def read (m : Eager) (slot va : ℕ) : Option UInt8 :=
  ((m slot).filter fun pr => va < pr.sz).bind fun pr => (pr.page (va / pgsize)).map (·.bytes (va % pgsize))

/-- A child is a copy of its parent. -/
def fork (m : Eager) (slot : ℕ) : Option (Result × Eager) :=
  match (List.range nproc).find? fun i => (m i).isNone with
  | none => some (.failed, m)
  | some child => (m slot).map fun pr =>
    (.slot child, update m child
      (some { sz := pr.sz, parent := some slot, zombie := false, xstate := [], page := pr.page }))

/-- The children of a process that exits go to the first process. -/
def reparent (slot : ℕ) (pr : ProcImage) : ProcImage :=
  if pr.parent = some slot then { pr with parent := some initproc } else pr

/-- A process becomes a zombie. -/
def exit (m : Eager) (slot : ℕ) (status : List UInt8) : Option Eager :=
  if slot = initproc then none
  else some <| modifyProc (fun i => (m i).map (reparent slot)) slot fun pr =>
    { pr with zombie := true, xstate := status }

/-- A process is killed. -/
def kill (m : Eager) (slot : ℕ) : Option (Result × Eager) :=
  (m.exit slot [255, 255, 255, 255]).map fun m => (.killed, m)

/-- A store instruction. -/
def store (m : Eager) (slot va : ℕ) (b : UInt8) : Option (Result × Eager) :=
  match (m.page slot (va / pgsize)).filter fun pg => pg.u && pg.w with
  | some _ => some (.done, m.writePage slot (va / pgsize) (va % pgsize) [b])
  | none => m.kill slot

/-- A load instruction. -/
def load (m : Eager) (slot va : ℕ) : Option (Result × Eager) :=
  match (m.page slot (va / pgsize)).filter fun pg => pg.u && pg.r with
  | some pg => some (.byte (pg.bytes (va % pgsize)), m)
  | none => m.kill slot

/-- The part of a range that lies on its first page, and where the rest starts. -/
theorem chunk {va len n : ℕ} (hn : n = min (pgsize - va % pgsize) len) : n ≤ len ∧ (0 < len → 0 < n) ∧
    va % pgsize + n ≤ pgsize ∧ va + n ≤ (va / pgsize + 1) * pgsize ∧
      (n < len → (va / pgsize + 1) * pgsize = va + n) ∧
    ∀ a, va ≤ a → a < va + n → a / pgsize = va / pgsize ∧ a % pgsize = va % pgsize + (a - va) := by
  unfold pgsize at *
  refine ⟨?_, ?_, ?_, ?_, ?_, fun a hlo hhi => ?_⟩ <;> omega

/-- A write by the kernel, page by page, up to the first page that may not be written. -/
def copyout (slot : ℕ) : ℕ → ℕ → List UInt8 → Eager → Bool × Eager
  | 0, _, _, m => (true, m)
  | _ + 1, _, [], m => (true, m)
  | fuel + 1, dstva, b :: src, m =>
    let data := b :: src
    let v := dstva / pgsize
    let n := min (pgsize - dstva % pgsize) data.length
    match (m.page slot v).filter fun pg => pg.u && pg.w with
    | none => (false, m)
    | some _ =>
      copyout slot fuel ((v + 1) * pgsize) (data.drop n) (m.writePage slot v (dstva % pgsize) (data.take n))

/-- `copyout` stops at a page the process may not write. -/
theorem copyout_refused {fuel dstva : ℕ} {src : List UInt8}
    (h : (m.page slot (dstva / pgsize)).filter (fun pg => pg.u && pg.w) = none) :
    copyout slot (fuel + 1) dstva (b :: src) m = (false, m) := by
  simp only [copyout, h]

/-- `copyout` writes up to the end of a page and goes on with the next. -/
theorem copyout_page {fuel dstva : ℕ} {src : List UInt8} {pg : PageImage}
    (h : (m.page slot (dstva / pgsize)).filter (fun pg => pg.u && pg.w) = some pg) :
    copyout slot (fuel + 1) dstva (b :: src) m =
      copyout slot fuel ((dstva / pgsize + 1) * pgsize)
        ((b :: src).drop (min (pgsize - dstva % pgsize) (b :: src).length))
        (m.writePage slot (dstva / pgsize) (dstva % pgsize)
          ((b :: src).take (min (pgsize - dstva % pgsize) (b :: src).length))) := by
  simp only [copyout, h]

/-- A read by the kernel, page by page. -/
def copyin (m : Eager) (slot : ℕ) : ℕ → ℕ → ℕ → Option (List UInt8)
  | 0, _, _ => some []
  | fuel + 1, srcva, len =>
    if len = 0 then some []
    else
      let v := srcva / pgsize
      let n := min (pgsize - srcva % pgsize) len
      match (m.page slot v).filter (·.u) with
      | none => none
      | some pg => (m.copyin slot fuel ((v + 1) * pgsize) (len - n)).map
          (slice pg.bytes (srcva % pgsize) n ++ ·)

/-- New memory. -/
def zeroPage : PageImage := ⟨fun _ => 0, true, true, false, true⟩

/-- Pages `lo` up to `hi` of a process become `pg`. -/
def fill (m : Eager) (slot lo hi : ℕ) (pg : Option PageImage) : Eager :=
  m.modifyProc slot fun pr => { pr with page := fun v => if lo ≤ v ∧ v < hi then pg else pr.page v }

theorem fill_of_le {lo hi : ℕ} (h : hi ≤ lo) (pg : Option PageImage) : m.fill slot lo hi pg = m := by
  refine modifyProc_self fun im _ => ?_
  have hempty (v : ℕ) : ¬ (lo ≤ v ∧ v < hi) := by omega
  simp [hempty]

/-- Filling a range of pages from its first one on. -/
theorem setPage_fill {lo hi : ℕ} (h : lo < hi) (pg : Option PageImage) :
    (m.setPage slot lo pg).fill slot (lo + 1) hi pg = m.fill slot lo hi pg := by
  rw [fill, setPage, modifyProc_modifyProc, fill]
  congr 1
  funext im
  refine congrArg (fun page => { im with page := page }) (funext fun v => ?_)
  obtain rfl | hv := eq_or_ne v lo
  · simp [h]
  · have : lo + 1 ≤ v ↔ lo ≤ v := by omega
    simp [this, hv]

/-- The pages after one is replaced. -/
theorem page_setPage {pr : ProcImage} (h : m slot = some pr) (v : ℕ) (pg : Option PageImage)
    (i x : ℕ) : (m.setPage slot v pg).page i x = if i = slot ∧ x = v then pg else m.page i x := by
  obtain rfl | hi := eq_or_ne i slot
  · obtain rfl | hx := eq_or_ne x v
    · simp [page, setPage, modifyProc, h]
    · simp [page, setPage, modifyProc, h, hx]
  · simp [page, setPage, modifyProc, hi]

/-- The pages after a write into one of them. -/
theorem page_writePage (m : Eager) (slot v off : ℕ) (data : List UInt8) (i x : ℕ) :
    (m.writePage slot v off data).page i x =
      if i = slot ∧ x = v then
        (m.page i x).map fun pg => { pg with bytes := blit pg.bytes off data.length fun j => data.getD j 0 }
      else m.page i x := by
  cases hm : m slot with
  | none =>
    obtain rfl | hi := eq_or_ne i slot
    · simp [page, writePage, setPage, modifyProc, hm]
    · simp [page, writePage, setPage, modifyProc, hi]
  | some pr =>
    rw [writePage, page_setPage hm]
    split_ifs with h
    · rw [h.1, h.2]
    · rfl

/-- What page `x` holds of a write from `va` on. -/
def pokePage (va : ℕ) (data : List UInt8) (x : ℕ) (pg : PageImage) : PageImage :=
  { pg with
    bytes := fun o =>
      if o < pgsize ∧ va ≤ x * pgsize + o ∧ x * pgsize + o < va + data.length then data.getD
        (x * pgsize + o - va) 0
      else pg.bytes o }

/-- Write bytes into the pages of one process on which they lie. -/
def poke (m : Eager) (slot va : ℕ) (data : List UInt8) : Eager :=
  m.modifyProc slot fun pr => { pr with page := fun x => (pr.page x).map (pokePage va data x) }

section Poke

variable {va : ℕ} {data : List UInt8}

/-- The pages after a write that may lie on several. -/
theorem page_poke (m : Eager) (slot va : ℕ) (data : List UInt8) (i x : ℕ) :
    (m.poke slot va data).page i x = if i = slot then (m.page i x).map
      (pokePage va data x) else m.page i x := by
  obtain rfl | hi := eq_or_ne i slot
  · cases hm : m i <;> simp [page, poke, modifyProc, hm]
  · simp [page, poke, modifyProc, hi]

/-- A page on which none of the bytes lies stays. -/
theorem pokePage_eq_id {x : ℕ} (h : ∀ o < pgsize, x * pgsize + o < va ∨ va + data.length ≤ x * pgsize + o) :
    pokePage va data x = id := by
  refine funext fun pg => congrArg (fun bytes => { pg with bytes := bytes })
    (funext fun o => if_neg fun ho => ?_)
  have := h o ho.1
  omega

theorem poke_nil (m : Eager) (slot va : ℕ) : m.poke slot va [] = m := by
  refine modifyProc_self fun im _ => ?_
  have hpage (x : ℕ) : pokePage va [] x = id := pokePage_eq_id fun o _ => lt_or_ge _ _
  simp [hpage]

/-- A write goes on where another one ends. -/
theorem poke_poke (m : Eager) (slot va : ℕ) (a b : List UInt8) :
    (m.poke slot va a).poke slot (va + a.length) b = m.poke slot va (a ++ b) := by
  rw [poke, poke, modifyProc_modifyProc]
  refine modifyProc_congr fun im _ => congrArg (fun page => { im with page := page }) (funext fun x => ?_)
  rw [Option.map_map]
  refine congrArg (fun f => (im.page x).map f) (funext fun pg => ?_)
  refine congrArg (fun bytes => { pg with bytes := bytes }) (funext fun o => ?_)
  simp only [pokePage, List.length_append]
  by_cases hb : o < pgsize ∧ va + a.length ≤ x * pgsize + o ∧ x * pgsize + o < va + a.length + b.length
  · rw [if_pos hb, if_pos (by omega), List.getD_append_right _ _ _ _ (by omega), Nat.sub_sub]
  · by_cases ha : o < pgsize ∧ va ≤ x * pgsize + o ∧ x * pgsize + o < va + a.length
    · rw [if_neg hb, if_pos ha, if_pos (by omega), List.getD_append _ _ _ _ (by omega)]
    · rw [if_neg hb, if_neg ha, if_neg (by omega)]

/-- Bytes that end on the page they start on are written there. -/
theorem writePage_eq_poke (m : Eager) (slot : ℕ) (hfits : va % pgsize + data.length ≤ pgsize) :
    m.writePage slot (va / pgsize) (va % pgsize) data = m.poke slot va data := by
  have hplace : va = va / pgsize * pgsize + va % pgsize := (Nat.div_add_mod' va pgsize).symm
  refine modifyProc_congr fun im him => congrArg (fun page => { im with page := page }) (funext fun x => ?_)
  obtain rfl | hx := eq_or_ne x (va / pgsize)
  · rw [update_self, show m.page slot (va / pgsize) = im.page (va / pgsize) by simp [page, him]]
    refine congrArg (fun f => (im.page (va / pgsize)).map f) (funext fun pg => ?_)
    refine congrArg (fun bytes => { pg with bytes := bytes }) (funext fun o => ?_)
    have hin : (va % pgsize ≤ o ∧ o < va % pgsize + data.length) ↔
        o < pgsize ∧ va ≤ va / pgsize * pgsize + o ∧ va / pgsize * pgsize + o < va + data.length := by omega
    simp only [blit, hin, show va / pgsize * pgsize + o - va = o - va % pgsize by omega]
  · rw [update_of_ne hx, pokePage_eq_id, Option.map_id_apply]
    unfold pgsize at *
    omega

end Poke

theorem setPage_eq_none : m.setPage slot v pg i = none ↔ m i = none := by
  obtain rfl | hi := eq_or_ne i slot
  · simp [setPage, modifyProc]
  · simp [setPage, modifyProc, hi]

theorem setPage_setPage (m : Eager) (slot v : ℕ) (pg pg' : Option PageImage) :
    (m.setPage slot v pg).setPage slot v pg' = m.setPage slot v pg' := by
  simp [setPage, modifyProc_modifyProc]

theorem setPage_self (h : m.page slot v = pg) : m.setPage slot v pg = m := by
  refine modifyProc_self fun im him => ?_
  have hpage : im.page v = pg := by simpa [page, him] using h
  simp [← hpage]

/-- A new size. -/
def resize (m : Eager) (slot sz : ℕ) : Eager := m.modifyProc slot fun pr => { pr with sz := sz }

/-- Add zero pages up to a new size. -/
def grow (m : Eager) (slot : ℕ) (im : ProcImage) (newsz : ℕ) : Option (Result × Eager) :=
  if newsz < im.sz then some (.done, m)
  else if pages im.sz < pages newsz ∧ trapframeVpn < pages newsz then none
  else if newsz = 0 then some (.failed, m)
  else some (.done, (m.fill slot (pages im.sz) (pages newsz) (some zeroPage)).resize slot newsz)

/-- Drop the pages from a new size on. -/
def shrink (m : Eager) (slot : ℕ) (im : ProcImage) (newsz : ℕ) : Eager :=
  if newsz < im.sz then (m.fill slot (pages newsz) (pages im.sz) none).resize slot newsz else m

/-- A new size for a process. -/
def newSize (im : ProcImage) (n : ℤ) : ℕ := ((im.sz + n) % 2 ^ 64).toNat

/-- Add or drop pages. -/
def growproc (m : Eager) (slot : ℕ) (n : ℤ) : Option (Result × Eager) :=
  (m slot).bind fun im =>
    if 0 < n then m.grow slot im (newSize im n)
    else some (.done, if n < 0 then m.shrink slot im (newSize im n) else m)

/-- Reap a child: its status is written into the caller's memory. -/
def reap (m : Eager) (slot addr c : ℕ) : Option (Result × Eager) :=
  (m c).map fun child =>
    let (sent, m) := if addr = 0 then (true, m) else copyout slot child.xstate.length addr child.xstate m
    if sent then (.slot c, update m c none) else (.failed, m)

/-- A slot holds a child of a process. -/
def isChild (m : Eager) (slot c : ℕ) : Bool := (m c).any fun pr => pr.parent = some slot

/-- A slot holds a child of a process that has exited. -/
def isZombie (m : Eager) (slot c : ℕ) : Bool := (m c).any fun pr => pr.parent = some slot && pr.zombie

/-- Wait for a child. -/
def wait (m : Eager) (slot addr : ℕ) : Option (Result × Eager) :=
  match (List.range nproc).find? (m.isZombie slot) with
  | none => some (if (List.range nproc).any (m.isChild slot) then .waits else .failed, m)
  | some c => m.reap slot addr c

end Eager

/-- The meaning of a call when every process has its own memory. -/
def Call.eager (slot : ℕ) (m : Eager) : Call → Option (Result × Eager)
  | .fork => m.fork slot
  | .store va b => m.store slot va b
  | .load va => m.load slot va
  | .copyout dstva src =>
    let (sent, m) := Eager.copyout slot src.length dstva src m
    some (if sent then .done else .failed, m)
  | .copyin srcva len =>
    some (match m.copyin slot len srcva len with | some data => .bytes data | none => .failed, m)
  | .growproc n => m.growproc slot n
  | .exit status => (m.exit slot status).map fun m => (.done, m)
  | .wait addr => m.wait slot addr

theorem pages_mono {a b : ℕ} (h : a ≤ b) : pages a ≤ pages b := by
  exact Nat.div_le_div_right (by omega)

/-- A process has the pages below its size and no others, and they end below the trapframe. -/
structure ProcImage.Ok (im : ProcImage) : Prop where
  mapped : ∀ v, (im.page v).isSome ↔ v < pages im.sz
  fits : pages im.sz ≤ trapframeVpn

/-- The memory of a process. -/
def ProcImage.memory (im : ProcImage) : ℕ × (ℕ → Option PageImage) := (im.sz, im.page)

namespace Eager

variable {m m' : Eager} {slot : ℕ} {r : Result}

/-- All processes have the pages below their size. -/
def Ok (m : Eager) : Prop := ∀ i im, m i = some im → im.Ok

/-- No process has a page from the trapframe on. -/
theorem Ok.page_none (h : m.Ok) (hv : trapframeVpn ≤ v) : m.page slot v = none := by
  unfold page
  cases hm : m slot with
  | none => rfl
  | some im =>
    have him := h slot im hm
    have := him.fits
    simpa [← Option.not_isSome_iff_eq_none, him.mapped v] using by omega

/-- A process has no page from `MAXVA` on. -/
def Low (m : Eager) (slot : ℕ) : Prop := ∀ v, maxVpn ≤ v → m.page slot v = none

theorem Ok.low (h : m.Ok) (slot : ℕ) : m.Low slot := fun _ hv => h.page_none (le_trans (by decide) hv)

theorem Low.writePage (h : m.Low slot) (v off : ℕ) (data : List UInt8) :
    (m.writePage slot v off data).Low slot := by
  intro x hx
  rw [page_writePage, h x hx, Option.map_none, ite_self]

/-- A slot is filled with a process in order, or emptied. -/
theorem Ok.update (h : m.Ok) {o : Option ProcImage} (ho : ∀ im, o = some im → im.Ok) :
    Ok (update m slot o) := by
  intro i im him
  obtain rfl | hi := eq_or_ne i slot
  · rw [update_self] at him
    exact ho im him
  · rw [update_of_ne hi] at him
    exact h i im him

/-- A call of the process in a slot that keeps all processes in order, makes and ends none, and
leaves the memory of the others alone. -/
structure Local (slot : ℕ) (m m' : Eager) : Prop where
  ok : m.Ok → m'.Ok
  live : ∀ i, m' i = none ↔ m i = none
  memory : ∀ i, i ≠ slot → (m' i).map ProcImage.memory = (m i).map ProcImage.memory

theorem Local.refl (slot : ℕ) (m : Eager) : Local slot m m := ⟨id, fun _ => .rfl, fun _ _ => rfl⟩

theorem Local.trans {m'' : Eager} (h : Local slot m m') (h' : Local slot m' m'') : Local slot m m'' where
  ok := h'.ok ∘ h.ok
  live i := (h'.live i).trans (h.live i)
  memory i hi := (h'.memory i hi).trans (h.memory i hi)

variable {f : ProcImage → ProcImage}

theorem modifyProc_of_ne (h : i ≠ slot) : m.modifyProc slot f i = m i :=
  update_of_ne h _ _

/-- A change of the process itself that keeps its size and pages in step is local. -/
theorem Local.modifyProc (hf : ∀ im, m slot = some im → im.Ok → (f im).Ok) :
    Local slot m (m.modifyProc slot f) where
  ok h := by
    apply h.update
    intro im him
    obtain ⟨old, hold, rfl⟩ := Option.map_eq_some_iff.mp him
    exact hf old hold (h slot old hold)
  live i := by
    obtain rfl | hi := eq_or_ne i slot
    · simp [Eager.modifyProc]
    · rw [modifyProc_of_ne hi]
  memory i hi := by rw [modifyProc_of_ne hi]

/-- Writing into a page is local. -/
theorem Local.writePage (v off : ℕ) (data : List UInt8) : Local slot m (m.writePage slot v off data) := by
  apply Local.modifyProc
  intro im him hok
  refine ⟨fun x => ?_, hok.fits⟩
  rw [← hok.mapped x]
  obtain rfl | hx := eq_or_ne x v
  · simp [page, him]
  · simp [hx]

/-- By induction on the pages that `copyout` writes. -/
theorem Local.copyout (fuel dstva : ℕ) (src : List UInt8) :
    Local slot m (Eager.copyout slot fuel dstva src m).2 := by
  induction fuel generalizing m dstva src with
  | zero => exact .refl slot m
  | succ fuel ih =>
    cases src with
    | nil => exact .refl slot m
    | cons b src =>
      unfold Eager.copyout
      dsimp only
      split
      · exact .refl slot m
      · exact (Local.writePage _ _ _).trans (ih _ _)

/-- The end of a process changes no other memory. -/
theorem Local.exit {status : List UInt8} (he : m.exit slot status = some m') : Local slot m m' := by
  unfold Eager.exit at he
  split at he
  · exact absurd he (by simp)
  · cases he
    have hreparent : Local slot m fun i => (m i).map (reparent slot) := by
      refine ⟨fun h i im him => ?_, fun i => Option.map_eq_none_iff, fun i _ => ?_⟩
      · obtain ⟨old, hold, rfl⟩ := Option.map_eq_some_iff.mp him
        have hok := h i old hold
        unfold reparent
        split
        · exact ⟨hok.mapped, hok.fits⟩
        · exact hok
      · cases m i with
        | none => rfl
        | some im =>
          simp only [Option.map_some, reparent]
          split <;> rfl
    exact hreparent.trans (.modifyProc fun _ _ hok => ⟨hok.mapped, hok.fits⟩)

theorem Local.kill (he : m.kill slot = some (r, m')) : Local slot m m' := by
  obtain ⟨_, hexit, heq⟩ := Option.map_eq_some_iff.mp he
  cases heq
  exact .exit hexit

/-- Filling or emptying the pages between two sizes, together with the new size. -/
theorem Local.refill {im : ProcImage} (him : m slot = some im) {lo hi sz : ℕ}
    (hok : im.Ok → (∀ v, (if lo ≤ v ∧ v < hi then pg else im.page v).isSome ↔ v < pages sz) ∧
    pages sz ≤ trapframeVpn) :
    Local slot m ((m.fill slot lo hi pg).resize slot sz) := by
  have hslot : (m.fill slot lo hi pg).resize slot sz = m.modifyProc slot fun pr =>
      { pr with sz := sz, page := fun v => if lo ≤ v ∧ v < hi then pg else pr.page v } := by
    simp [resize, fill, Eager.modifyProc, him]
  rw [hslot]
  apply Local.modifyProc
  intro im' him' hok'
  obtain rfl := Option.some.inj (him.symm.trans him')
  exact ⟨(hok hok').1, (hok hok').2⟩

/-- `growproc` changes the memory of the caller only. -/
theorem Local.growproc {n : ℤ} (he : m.growproc slot n = some (r, m')) : Local slot m m' := by
  obtain ⟨im, him, he⟩ := Option.bind_eq_some_iff.mp he
  split at he
  · unfold Eager.grow at he
    split_ifs at he with hless hroom hzero
    · cases he
      exact .refl slot m
    · cases he
      exact .refl slot m
    · cases he
      refine .refill him fun hok => ⟨fun v => ?_, ?_⟩
      · have hmono := pages_mono (Nat.le_of_not_lt hless)
        split
        · simpa using by omega
        · rw [hok.mapped]
          omega
      · have := hok.fits
        omega
  · cases he
    unfold Eager.shrink
    split_ifs with hneg hlt
    · have hmono := pages_mono hlt.le
      refine .refill him fun hok => ⟨fun v => ?_, hmono.trans hok.fits⟩
      split
      · simpa using by omega
      · rw [hok.mapped]
        omega
    · exact .refl slot m
    · exact .refl slot m

/-- So does a store: it writes one byte, or kills the process. -/
theorem Local.store {va : ℕ} (he : m.store slot va b = some (r, m')) : Local slot m m' := by
  unfold Eager.store at he
  split at he
  · cases he
    exact .writePage _ _ _
  · exact .kill he

theorem Local.load {va : ℕ} (he : m.load slot va = some (r, m')) : Local slot m m' := by
  unfold Eager.load at he
  split at he
  · cases he
    exact .refl slot m
  · exact .kill he

/-- A new process is a copy of its parent, in a slot that was empty. -/
theorem fork_spec (he : m.fork slot = some (r, m')) : (m.Ok → m'.Ok) ∧ ∀ i, m i ≠ none → m' i = m i := by
  unfold Eager.fork at he
  split at he
  · cases he
    exact ⟨id, fun _ _ => rfl⟩
  · rename_i child hfind
    obtain ⟨im, him, heq⟩ := Option.map_eq_some_iff.mp he
    cases heq
    refine ⟨fun h => h.update fun im' him' => ?_, fun i hi => update_of_ne ?_ _ _⟩
    · cases him'
      exact ⟨(h slot im him).mapped, (h slot im him).fits⟩
    · rintro rfl
      exact hi (by simpa using List.find?_some hfind)

/-- A child that is reaped is gone; the rest is a write by the kernel. -/
theorem reap_spec {addr c : ℕ} (he : m.reap slot addr c = some (r, m')) : (m.Ok → m'.Ok) ∧
    ∀ i, i ≠ slot → m' i ≠ none → (m' i).map ProcImage.memory = (m i).map ProcImage.memory := by
  obtain ⟨child, -, he⟩ := Option.map_eq_some_iff.mp he
  have hsent : Local slot m (if addr = 0 then (true, m) else
      Eager.copyout slot child.xstate.length addr child.xstate m).2 := by
    split
    · exact .refl slot m
    · exact .copyout _ _ _
  generalize (if addr = 0 then (true, m) else
      Eager.copyout slot child.xstate.length addr child.xstate m) = res at he hsent
  dsimp only at he
  split at he
  · cases he
    refine ⟨fun h => (hsent.ok h).update fun _ hnone => absurd hnone (by simp), fun i hi hlive => ?_⟩
    obtain rfl | hne := eq_or_ne i c
    · exact absurd (update_self _ _ _) hlive
    · rw [update_of_ne hne]
      exact hsent.memory i hi
  · cases he
    exact ⟨hsent.ok, fun i hi _ => hsent.memory i hi⟩

/-- `wait` empties the slot of a child and may write its status to the caller. -/
theorem wait_spec {addr : ℕ} (he : m.wait slot addr = some (r, m')) : (m.Ok → m'.Ok) ∧
    ∀ i, i ≠ slot → m' i ≠ none → (m' i).map ProcImage.memory = (m i).map ProcImage.memory := by
  unfold Eager.wait at he
  split at he
  · cases he
    exact ⟨id, fun _ _ _ => rfl⟩
  · exact reap_spec he

end Eager

/-- A call keeps the pages of the processes in order and changes the memory of no other process. -/
theorem Call.eager_spec {c : Call} {r : Result} (he : c.eager slot m = some (r, m')) :
    (m.Ok → m'.Ok) ∧ ∀ i, i ≠ slot → m i ≠ none → m' i ≠ none →
      (m' i).map ProcImage.memory = (m i).map ProcImage.memory := by
  have hlocal (h : Eager.Local slot m m') : (m.Ok → m'.Ok) ∧ ∀ i, i ≠ slot → m i ≠ none → m' i ≠ none →
      (m' i).map ProcImage.memory = (m i).map ProcImage.memory := ⟨h.ok, fun i hi _ _ => h.memory i hi⟩
  cases c with
  | fork =>
    obtain ⟨hok, hkept⟩ := Eager.fork_spec he
    exact ⟨hok, fun i _ hlive _ => by rw [hkept i hlive]⟩
  | store va b => exact hlocal (.store he)
  | load va => exact hlocal (.load he)
  | copyout dstva src =>
    cases he
    exact hlocal (.copyout _ _ _)
  | copyin srcva len =>
    cases he
    exact hlocal (.refl slot m)
  | growproc n => exact hlocal (.growproc he)
  | exit status =>
    obtain ⟨_, hexit, heq⟩ := Option.map_eq_some_iff.mp he
    cases heq
    exact hlocal (.exit hexit)
  | wait addr =>
    obtain ⟨hok, hkept⟩ := Eager.wait_spec he
    exact ⟨hok, fun i hi _ hlive' => hkept i hi hlive'⟩

end Xv6
