import Mathlib.Data.List.Basic
import Mathlib.Logic.Function.Basic
import Rpos.Base.BitField
import Rpos.Base.Runs

/-!
# The keyboard pipe

`handle_keyboard_event` of `kbd.c` and the copying part of `pipe_read` of
`filedescriptors.c`, over the ring that `keyboard_init` sets up. `head` and
`tail` are free-running counters that start at the address of the buffer. The
characters between them are a bounded queue, whatever that address is.

The caller's buffer and the ring are separate objects, each addressed by
offset.
-/

namespace Rpos

open Base

/-- `pipe_data_t`, as far as the copying code reads it. -/
structure PipeData where
  head : Word
  tail : Word
  ringSize : BitVec 32
  buf : ℕ → UInt8

/-- `keyboard_init`: `kmalloc` returned the address `buf` of a page that holds
`page`. -/
def keyboardInit (buf : Word) (page : ℕ → UInt8) : PipeData :=
  ⟨buf, buf, 4096, page⟩

/-- `handle_keyboard_event`, up to the echo and the wake-up. -/
def handleKeyboardEvent (p : PipeData) (c : UInt8) : PipeData :=
  if p.head - p.tail ≥ p.ringSize.setWidth 64 then p
  else
    let loc : BitVec 32 := (p.head % p.ringSize.setWidth 64).setWidth 32
    { p with buf := Function.update p.buf loc.toNat c, head := p.head + 1 }

/-- `MIN` on `u32`. -/
def min32 (x y : BitVec 32) : BitVec 32 := if x < y then x else y

/-- `memcpy(dest + i, src + j, bytes)` between two objects. -/
def copyInto (dest : ℕ → UInt8) (i : ℕ) (src : ℕ → UInt8) (j bytes : ℕ) : ℕ → UInt8 :=
  fun k => if i ≤ k ∧ k < i + bytes then src (j + (k - i)) else dest k

/-- `pipe_read`: the number of bytes read and the caller's buffer afterwards.
With nothing to read the caller blocks. -/
def pipeRead (p : PipeData) (buf : ℕ → UInt8) (count : Word) :
    Option ((ℕ × (ℕ → UInt8)) × PipeData) :=
  if p.head = p.tail then none
  else
    let avail : BitVec 32 := (p.head - p.tail).setWidth 32
    let toRead := min32 avail (count.setWidth 32)
    let tailIdx : BitVec 32 := (p.tail &&& (p.ringSize - 1).setWidth 64).setWidth 32
    let firstChunk := min32 toRead (p.ringSize - tailIdx)
    let buf₁ := copyInto buf 0 p.buf (p.tail % p.ringSize.setWidth 64).toNat
      firstChunk.toNat
    let secondChunk := toRead - firstChunk
    let buf₂ :=
      if 0 < secondChunk then
        copyInto buf₁ firstChunk.toNat p.buf 0 secondChunk.toNat
      else buf₁
    some ((toRead.toNat, buf₂), { p with tail := p.tail + toRead.setWidth 64 })

inductive PipeOp
  | key (c : UInt8)
  | read (buf : ℕ → UInt8) (count : Word)

inductive PipeResult
  | handled
  | read (bytes : ℕ) (buf : ℕ → UInt8)

def pipeStep (p : PipeData) : PipeOp → Option (PipeResult × PipeData)
  | .key c => some (.handled, handleKeyboardEvent p c)
  | .read buf count =>
      (pipeRead p buf count).map fun r => (.read r.1.1 r.1.2, r.2)

/-! ## The bounded queue -/

/-- The queue of characters accepted and not yet read, and what each operation
does to it. -/
inductive FifoSpec : List UInt8 → PipeOp → PipeResult → List UInt8 → Prop
  | accepted {q : List UInt8} {c : UInt8} :
      q.length < 4096 → FifoSpec q (.key c) .handled (q ++ [c])
  | full {q : List UInt8} {c : UInt8} :
      ¬ q.length < 4096 → FifoSpec q (.key c) .handled q
  | read {q : List UInt8} {buf buf' : ℕ → UInt8} {count : Word} {r : ℕ} :
      r ≤ min count.toNat q.length →
      (count.toNat < 2 ^ 32 → r = min count.toNat q.length) →
      (List.range r).map buf' = q.take r → (∀ i, r ≤ i → buf' i = buf i) →
      FifoSpec q (.read buf count) (.read r buf') (q.drop r)

/-! ## The ring holds the queue -/

namespace PipeData

def occupancy (p : PipeData) : ℕ := (p.head - p.tail).toNat

def cell (p : PipeData) (i : ℕ) : UInt8 := p.buf ((p.tail.toNat + i) % 4096)

def pending (p : PipeData) : List UInt8 := (List.range p.occupancy).map p.cell

structure Ok (p : PipeData) : Prop where
  size : p.ringSize = 4096
  bound : p.occupancy ≤ 4096

@[simp]
theorem length_pending (p : PipeData) : p.pending.length = p.occupancy := by
  simp [pending]

theorem head_toNat (p : PipeData) :
    p.head.toNat = (p.tail.toNat + p.occupancy) % 2 ^ 64 := by
  unfold occupancy
  rw [BitVec.toNat_sub]
  have := p.head.isLt
  have := p.tail.isLt
  omega

theorem empty_iff (p : PipeData) : p.head = p.tail ↔ p.pending = [] := by
  rw [← List.length_eq_zero_iff, length_pending, ← BitVec.toNat_inj]
  have := p.head.isLt
  have := p.tail.isLt
  have := head_toNat p
  have hlt : p.occupancy < 2 ^ 64 := (p.head - p.tail).isLt
  omega

theorem keyboardInit_ok (buf : Word) (page : ℕ → UInt8) :
    (keyboardInit buf page).Ok ∧ (keyboardInit buf page).pending = [] := by
  have hzero : (keyboardInit buf page).occupancy = 0 := by
    simp [occupancy, keyboardInit]
  refine ⟨⟨rfl, by omega⟩, ?_⟩
  rw [← List.length_eq_zero_iff, length_pending, hzero]

/-! ## An event -/

/-- The full test compares the occupancy with the size of the ring. -/
theorem full_iff {p : PipeData} (h : p.Ok) :
    p.head - p.tail ≥ p.ringSize.setWidth 64 ↔ ¬ p.occupancy < 4096 := by
  rw [h.size, ge_iff_le, BitVec.le_def, not_lt]
  rfl

/-- The slot that the producer computes is the one after the last pending
character. -/
theorem loc_eq {p : PipeData} (h : p.Ok) :
    ((p.head % p.ringSize.setWidth 64).setWidth 32 : BitVec 32).toNat
      = (p.tail.toNat + p.occupancy) % 4096 := by
  have hsize : ((4096 : BitVec 32).setWidth 64 : Word).toNat = 4096 := rfl
  rw [h.size, BitVec.toNat_setWidth, BitVec.toNat_umod, head_toNat, hsize]
  omega

theorem occupancy_head_add_one {p : PipeData} (hroom : p.occupancy < 4096)
    (buf : ℕ → UInt8) :
    occupancy { p with buf := buf, head := p.head + 1 } = p.occupancy + 1 := by
  have hone : (1 : Word).toNat = 1 := rfl
  have hhead := head_toNat p
  have := p.tail.isLt
  show (p.head + 1 - p.tail).toNat = p.occupancy + 1
  rw [BitVec.toNat_sub, BitVec.toNat_add, hone]
  omega

theorem handleKeyboardEvent_spec {p : PipeData} (h : p.Ok) (c : UInt8) :
    (handleKeyboardEvent p c).Ok ∧
      FifoSpec p.pending (.key c) .handled (handleKeyboardEvent p c).pending := by
  unfold handleKeyboardEvent
  by_cases hfull : p.head - p.tail ≥ p.ringSize.setWidth 64
  · rw [if_pos hfull]
    refine ⟨h, .full ?_⟩
    rw [length_pending]
    exact (full_iff h).mp hfull
  · have hroom : p.occupancy < 4096 := by
      by_contra hn
      exact hfull ((full_iff h).mpr hn)
    rw [if_neg hfull]
    simp only [loc_eq h]
    set p' : PipeData := { p with
      buf := Function.update p.buf ((p.tail.toNat + p.occupancy) % 4096) c
      head := p.head + 1 } with hp'
    have hocc : p'.occupancy = p.occupancy + 1 := occupancy_head_add_one hroom _
    refine ⟨⟨h.size, by omega⟩, ?_⟩
    -- the new slot differs from the slots of the pending characters
    have hold : ∀ i, i < p.occupancy → p'.cell i = p.cell i := by
      intro i hi
      refine Function.update_of_ne ?_ _ _
      show (p.tail.toNat + i) % 4096 ≠ _
      omega
    have hnew : p'.cell p.occupancy = c := Function.update_self _ _ _
    have hpending : p'.pending = p.pending ++ [c] := by
      unfold pending
      rw [hocc, List.range_succ, List.map_append, List.map_singleton, hnew]
      rw [List.map_congr_left fun i hi => hold i (List.mem_range.mp hi)]
    rw [hpending]
    exact .accepted (by rwa [length_pending])

/-! ## A read -/

theorem min32_toNat (x y : BitVec 32) : (min32 x y).toNat = min x.toNat y.toNat := by
  unfold min32
  by_cases hxy : x < y
  · rw [if_pos hxy, min_eq_left (le_of_lt hxy)]
  · rw [if_neg hxy, min_eq_right (BitVec.not_lt.mp hxy)]

/-- The consumer's masked index is the producer's index modulo the size. -/
theorem tailIdx_eq {p : PipeData} (h : p.Ok) :
    ((p.tail &&& (p.ringSize - 1).setWidth 64).setWidth 32 : BitVec 32).toNat
      = p.tail.toNat % 4096 := by
  have hmask : ((p.ringSize - 1).setWidth 64 : Word).toNat = 2 ^ 12 - 1 := by
    rw [h.size]
    rfl
  rw [BitVec.toNat_setWidth, BitVec.toNat_and, hmask, Nat.and_two_pow_sub_one_eq_mod]
  omega

theorem copyInto_split (p : PipeData) (buf : ℕ → UInt8) (r first : ℕ)
    (hr : r ≤ 4096) (hfirst : first = min r (4096 - p.tail.toNat % 4096)) :
    copyInto (copyInto buf 0 p.buf (p.tail.toNat % 4096) first) first p.buf 0
        (r - first)
      = fun i => if i < r then p.cell i else buf i := by
  funext i
  unfold copyInto cell
  by_cases hi : i < first
  · have hlow : ¬ (first ≤ i ∧ i < first + (r - first)) := by omega
    rw [if_neg hlow, if_pos (by omega), if_pos (by omega)]
    congr 1
    omega
  · by_cases hir : i < r
    · rw [if_pos (by omega), if_pos hir]
      congr 1
      omega
    · rw [if_neg (by omega), if_neg (by omega), if_neg hir]

theorem ite_copyInto (dest : ℕ → UInt8) (i : ℕ) (src : ℕ → UInt8) (j : ℕ)
    (bytes : BitVec 32) :
    (if 0 < bytes then copyInto dest i src j bytes.toNat else dest)
      = copyInto dest i src j bytes.toNat := by
  by_cases hpos : 0 < bytes
  · rw [if_pos hpos]
  · have hzero : bytes.toNat = 0 := by
      rw [BitVec.lt_def] at hpos
      exact Nat.eq_zero_of_not_pos hpos
    rw [if_neg hpos, hzero]
    funext k
    unfold copyInto
    rw [if_neg (by omega)]

theorem pipeRead_eq {p : PipeData} (h : p.Ok) (hne : p.head ≠ p.tail)
    (buf : ℕ → UInt8) (count : Word) (r : ℕ)
    (hr : r = min p.occupancy (count.toNat % 2 ^ 32)) :
    pipeRead p buf count
      = some ((r, fun i => if i < r then p.cell i else buf i),
          { p with tail := p.tail + BitVec.ofNat 64 r }) := by
  have hsize : (4096 : BitVec 32).toNat = 4096 := rfl
  have hocc : (p.head - p.tail).toNat = p.occupancy := rfl
  have hbound := h.bound
  have htoRead : (min32 ((p.head - p.tail).setWidth 32) (count.setWidth 32)).toNat
      = r := by
    rw [min32_toNat, BitVec.toNat_setWidth, BitVec.toNat_setWidth, hocc, hr]
    omega
  have hspace : (p.ringSize - (p.tail &&& (p.ringSize - 1).setWidth 64).setWidth 32
      : BitVec 32).toNat = 4096 - p.tail.toNat % 4096 := by
    rw [BitVec.toNat_sub, tailIdx_eq h, h.size, hsize]
    omega
  have hstart : (p.tail % p.ringSize.setWidth 64).toNat = p.tail.toNat % 4096 := by
    rw [h.size]
    rfl
  unfold pipeRead
  rw [if_neg hne]
  simp only [hstart]
  generalize htr : min32 ((p.head - p.tail).setWidth 32) (count.setWidth 32) = toRead
    at htoRead ⊢
  generalize p.ringSize - (p.tail &&& (p.ringSize - 1).setWidth 64).setWidth 32 = space
    at hspace ⊢
  have hfirst : (min32 toRead space).toNat = min r (4096 - p.tail.toNat % 4096) := by
    rw [min32_toNat, htoRead, hspace]
  have hsecond : (toRead - min32 toRead space).toNat
      = r - min r (4096 - p.tail.toNat % 4096) := by
    rw [BitVec.toNat_sub_of_le, htoRead, hfirst]
    rw [BitVec.le_def, htoRead, hfirst]
    exact Nat.min_le_left _ _
  have htail : toRead.setWidth 64 = BitVec.ofNat 64 r := by
    apply BitVec.eq_of_toNat_eq
    rw [BitVec.toNat_setWidth, htoRead, BitVec.toNat_ofNat]
  rw [ite_copyInto, hsecond, hfirst, htoRead, htail,
    copyInto_split p buf r _ (by omega) rfl]

theorem pipeRead_spec {p p' : PipeData} (h : p.Ok) {buf buf' : ℕ → UInt8}
    {count : Word} {bytes : ℕ}
    (hread : pipeRead p buf count = some ((bytes, buf'), p')) :
    p'.Ok ∧ FifoSpec p.pending (.read buf count) (.read bytes buf') p'.pending := by
  have hne : p.head ≠ p.tail := by
    intro heq
    simp [pipeRead, heq] at hread
  set r := min p.occupancy (count.toNat % 2 ^ 32) with hr
  rw [pipeRead_eq h hne buf count r hr] at hread
  simp only [Option.some.injEq, Prod.mk.injEq] at hread
  obtain ⟨⟨rfl, rfl⟩, rfl⟩ := hread
  set p' : PipeData := { p with tail := p.tail + BitVec.ofNat 64 r } with hp'
  have hhead := head_toNat p
  have hbound := h.bound
  have hr64 : (BitVec.ofNat 64 r).toNat = r := by
    rw [BitVec.toNat_ofNat]
    omega
  have htail : p'.tail.toNat = (p.tail.toNat + r) % 2 ^ 64 := by
    show (p.tail + BitVec.ofNat 64 r).toNat = _
    rw [BitVec.toNat_add, hr64]
  have hocc : p'.occupancy = p.occupancy - r := by
    have hsub : p.head - (p.tail + BitVec.ofNat 64 r)
        = p.head - p.tail - BitVec.ofNat 64 r := by
      rw [BitVec.sub_sub]
    have hle : BitVec.ofNat 64 r ≤ p.head - p.tail := by
      rw [BitVec.le_def, hr64]
      exact Nat.min_le_left _ _
    show (p.head - (p.tail + BitVec.ofNat 64 r)).toNat = _
    rw [hsub, BitVec.toNat_sub_of_le hle, hr64]
    rfl
  have hcell : ∀ i, p'.cell i = p.cell (r + i) := by
    intro i
    have hidx : ((p.tail.toNat + r) % 2 ^ 64 + i) % 4096
        = (p.tail.toNat + (r + i)) % 4096 := by
      clear * -
      omega
    unfold cell
    rw [htail, hidx]
  have hdrop : p'.pending = p.pending.drop r := by
    unfold pending
    refine List.ext_getElem (by simp [hocc]) fun i hi _ => ?_
    simp [hcell]
  rw [hdrop]
  refine ⟨⟨h.size, by omega⟩, .read ?_ ?_ ?_ ?_⟩
  · rw [length_pending]
    have := Nat.mod_le count.toNat (2 ^ 32)
    omega
  · intro hcount
    rw [length_pending]
    omega
  · unfold pending
    refine List.ext_getElem (by simp [hr]) fun i hi _ => ?_
    rw [List.length_map, List.length_range] at hi
    simp [hi]
  · intro i hi
    exact if_neg (by omega)

end PipeData

def ReadsEmpty (p : PipeData) (op : PipeOp) : Prop :=
  p.pending = [] ∧ ∃ buf count, op = .read buf count

theorem pipeStep_spec {p : PipeData} (h : p.Ok) (op : PipeOp) :
    (∃ w p', pipeStep p op = some (w, p') ∧ p'.Ok ∧ FifoSpec p.pending op w p'.pending) ∨
      (pipeStep p op = none ∧ ReadsEmpty p op) := by
  cases op with
  | key c => exact Or.inl ⟨_, _, rfl, PipeData.handleKeyboardEvent_spec h c⟩
  | read buf count =>
      cases hread : pipeRead p buf count with
      | some r =>
          obtain ⟨⟨bytes, buf'⟩, p'⟩ := r
          refine Or.inl ⟨.read bytes buf', p', ?_, PipeData.pipeRead_spec h hread⟩
          simp [pipeStep, hread]
      | none =>
          refine Or.inr ⟨by simp [pipeStep, hread], ?_, buf, count, rfl⟩
          rw [← p.empty_iff]
          by_contra hne
          simp [PipeData.pipeRead_eq h hne buf count _ rfl] at hread

/-- From `keyboard_init`, wherever the buffer lies and whatever it holds, any
interleaving of events and reads is a run of the bounded queue, until a read
is made that finds the queue empty. -/
theorem keyboardPipe_fifo (buf : Word) (page : ℕ → UInt8) (ops : List PipeOp) :
    (∃ ws p, exec pipeStep (keyboardInit buf page) ops = some (ws, p) ∧
      p.pending.length ≤ 4096 ∧ SpecRun FifoSpec [] ops ws p.pending) ∨
    (exec pipeStep (keyboardInit buf page) ops = none ∧
      ∃ before op after ws p, ops = before ++ op :: after ∧
        exec pipeStep (keyboardInit buf page) before = some (ws, p) ∧
        SpecRun FifoSpec [] before ws p.pending ∧ ReadsEmpty p op) := by
  obtain ⟨hok, hempty⟩ := PipeData.keyboardInit_ok buf page
  rw [← hempty]
  rcases exec_spec_or_stuck (fun _ op h => pipeStep_spec h op) ops _ hok with
    ⟨ws, p, hexec, hp, hrun⟩ | hstuck
  · refine Or.inl ⟨ws, p, hexec, ?_, hrun⟩
    rw [PipeData.length_pending]
    exact hp.bound
  · exact Or.inr hstuck

end Rpos
