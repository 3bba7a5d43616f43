import Mathlib.Tactic.IntervalCases
import Rpos.Base.Aarch64
import Rpos.Base.BitField

/-!
# Exception entry, exit and the context switch

The macros `kernel_entry` and `kernel_exit` of `entry.S` and `context_switch` of
`contextswitch.S`, instruction by instruction. A frame that was stored by the one
and is loaded by the other gives back every register that user mode sees; and a
context switch gives back the registers that a call keeps.
-/

namespace Rpos

open Base Base.A64

/-- `S_FRAME_SIZE`, the size of a `trap_frame_t`. -/
def sFrameSize : ℕ := 272

def kernelEntry : List Instr :=
  [.subSp 272,
   .stp 0 1 (16 * 0), .stp 2 3 (16 * 1), .stp 4 5 (16 * 2), .stp 6 7 (16 * 3),
   .stp 8 9 (16 * 4), .stp 10 11 (16 * 5), .stp 12 13 (16 * 6), .stp 14 15 (16 * 7),
   .stp 16 17 (16 * 8), .stp 18 19 (16 * 9), .stp 20 21 (16 * 10), .stp 22 23 (16 * 11),
   .stp 24 25 (16 * 12), .stp 26 27 (16 * 13), .stp 28 29 (16 * 14),
   .mrs 0 .spEl0, .stp 30 0 (16 * 15),
   .mrs 0 .elrEl1, .mrs 1 .spsrEl1, .stp 0 1 (16 * 16),
   .ldp 0 1 (16 * 0)]

def kernelExit : List Instr :=
  [.ldp 2 3 (16 * 1), .ldp 4 5 (16 * 2), .ldp 6 7 (16 * 3),
   .ldp 8 9 (16 * 4), .ldp 10 11 (16 * 5), .ldp 12 13 (16 * 6), .ldp 14 15 (16 * 7),
   .ldp 16 17 (16 * 8), .ldp 18 19 (16 * 9), .ldp 20 21 (16 * 10), .ldp 22 23 (16 * 11),
   .ldp 24 25 (16 * 12), .ldp 26 27 (16 * 13), .ldp 28 29 (16 * 14),
   .ldp 30 0 (16 * 15),
   .msr .spEl0 0,
   .ldp 0 1 (16 * 16), .msr .elrEl1 0, .msr .spsrEl1 1,
   .ldp 0 1 (16 * 0),
   .addSp 272]

/-- `context_switch` up to `bl check_and_reap`. -/
def contextSwitchSave : List Instr :=
  [.push 19 20, .push 21 22, .push 23 24, .push 25 26, .push 27 28, .push 29 30,
   .movFromSp 19, .str 19 1,
   .movToSp 0,
   .msr .ttbr0El1 2,
   .mov 0 1]

/-- `context_switch` from there to its `ret`. -/
def contextSwitchLoad : List Instr :=
  [.pop 29 30, .pop 27 28, .pop 25 26, .pop 23 24, .pop 21 22, .pop 19 20]

@[ext]
structure Context where
  x : Fin 31 → Word
  spEl0 : Word
  elrEl1 : Word
  spsrEl1 : Word

def Context.of (m : ArmState) : Context where
  x i := m.x i
  spEl0 := m.sys .spEl0
  elrEl1 := m.sys .elrEl1
  spsrEl1 := m.sys .spsrEl1

/-- A `trap_frame_t`. -/
structure TrapFrame (mem : ℕ → Word) (a : ℕ) (κ : Context) : Prop where
  regs : ∀ i : Fin 31, mem (a + 8 * i) = κ.x i
  spEl0 : mem (a + 248) = κ.spEl0
  elrEl1 : mem (a + 256) = κ.elrEl1
  spsrEl1 : mem (a + 264) = κ.spsrEl1

theorem TrapFrame.congr {mem mem' : ℕ → Word} {a : ℕ} {κ : Context} (h : TrapFrame mem a κ)
    (heq : ∀ b, a ≤ b → b < a + sFrameSize → mem' b = mem b) : TrapFrame mem' a κ := by
  unfold sFrameSize at heq
  refine ⟨fun i => ?_, ?_, ?_, ?_⟩
  · rw [heq _ (by omega) (by omega), h.regs]
  · rw [heq _ (by omega) (by omega), h.spEl0]
  · rw [heq _ (by omega) (by omega), h.elrEl1]
  · rw [heq _ (by omega) (by omega), h.spsrEl1]

/-! ## Entry and exit -/

/-- `kernel_entry` stores the context below the stack pointer and keeps the
registers. -/
structure Enters (m t : ArmState) : Prop where
  x : t.x = m.x
  sp : t.sp = m.sp - sFrameSize
  sys : t.sys = m.sys
  saved : TrapFrame t.mem (m.sp - sFrameSize) (Context.of m)
  frame : ∀ a, a < m.sp - sFrameSize ∨ m.sp ≤ a → t.mem a = m.mem a

theorem exec_kernelEntry {m : ArmState} (hsp : sFrameSize ≤ m.sp) :
    Enters m (m.exec kernelEntry) := by
  unfold sFrameSize at hsp
  have hcode : kernelEntry = .subSp 272 :: (ArmState.storePairs 15 ++
      [.mrs 0 .spEl0, .stp 30 0 (16 * 15), .mrs 0 .elrEl1, .mrs 1 .spsrEl1,
        .stp 0 1 (16 * 16), .ldp 0 1 (16 * 0)]) := rfl
  obtain ⟨hx, hsp', hsys, hword, hframe⟩ :=
    ArmState.exec_storePairs (m.step (.subSp 272)) 15
  rw [hcode, ArmState.exec_cons, ArmState.exec_append]
  generalize (m.step (.subSp 272)).exec (ArmState.storePairs 15) = t at *
  simp only [ArmState.step] at hx hsp' hsys hword hframe
  refine ⟨?_, ?_, ?_, ⟨fun i => ?_, ?_, ?_, ?_⟩, fun a ha => ?_⟩
  · -- `x0` and `x1` are loaded again
    have h0 := hword 0 (by omega)
    have h1 := hword 1 (by omega)
    funext r
    simp only [ArmState.exec_cons, ArmState.exec_nil, ArmState.step, ArmState.setX_x,
      ArmState.store_mem, ArmState.setX_mem, ArmState.setX_sp, ArmState.store_sp, hsp', hx]
    by_cases hr1 : r = 1
    · rw [if_pos hr1, if_neg (by omega), if_neg (by omega), if_neg (by omega),
        if_neg (by omega), hr1]
      exact h1
    · rw [if_neg hr1]
      by_cases hr0 : r = 0
      · rw [if_pos hr0, if_neg (by omega), if_neg (by omega), if_neg (by omega),
          if_neg (by omega), hr0]
        exact h0
      · rw [if_neg hr0]
        simp [hr0, hr1, hx]
  · simpa [ArmState.step, sFrameSize] using hsp'
  · simpa [ArmState.step] using hsys
  · obtain ⟨i, hi⟩ := i
    simp only [ArmState.exec_cons, ArmState.exec_nil, ArmState.step, ArmState.setX_x,
      ArmState.store_mem, ArmState.setX_mem, ArmState.setX_sp, ArmState.store_sp, hsp', hx,
      sFrameSize, Context.of]
    rw [if_neg (by omega), if_neg (by omega), if_neg (by omega)]
    by_cases h30 : i = 30
    · rw [if_pos (by omega), h30]
      rfl
    · rw [if_neg (by omega)]
      exact hword i (by omega)
  · simp [ArmState.step, hsp', hsys, sFrameSize, Context.of]
  · simp [ArmState.step, hsp', hsys, sFrameSize, Context.of]
  · simp [ArmState.step, hsp', hsys, sFrameSize, Context.of]
  · unfold sFrameSize at ha
    simp only [ArmState.exec_cons, ArmState.exec_nil, ArmState.step,
      ArmState.store_mem, ArmState.setX_mem, ArmState.setX_sp, ArmState.store_sp, hsp']
    rw [if_neg (by omega), if_neg (by omega), if_neg (by omega), if_neg (by omega)]
    exact hframe a fun r hr => by omega

/-- `kernel_exit` loads the frame at the stack pointer and takes it off. -/
theorem exec_kernelExit {m : ArmState} {κ : Context} (h : TrapFrame m.mem m.sp κ) :
    Context.of (m.exec kernelExit) = κ ∧ (m.exec kernelExit).sp = m.sp + sFrameSize ∧
      (m.exec kernelExit).mem = m.mem := by
  have hcode : kernelExit = ArmState.loadPairs 1 14 ++
      [.ldp 30 0 (16 * 15), .msr .spEl0 0, .ldp 0 1 (16 * 16), .msr .elrEl1 0,
        .msr .spsrEl1 1, .ldp 0 1 (16 * 0), .addSp 272] := rfl
  obtain ⟨hx, hsp, hsys, hmem⟩ := ArmState.exec_loadPairs m 1 14
  rw [hcode, ArmState.exec_append]
  generalize m.exec (ArmState.loadPairs 1 14) = t at *
  refine ⟨Context.ext (funext fun i => ?_) ?_ ?_ ?_, ?_, ?_⟩
  · obtain ⟨i, hi⟩ := i
    have hi' : m.mem (m.sp + 8 * i) = κ.x ⟨i, hi⟩ := h.regs ⟨i, hi⟩
    simp only [ArmState.exec_cons, ArmState.exec_nil, ArmState.step, ArmState.setX_x,
      ArmState.setX_mem, ArmState.setX_sp, ArmState.setSys_x, ArmState.setSys_sp,
      ArmState.setSys_mem, hsp, hmem, hx, Context.of]
    rw [← hi']
    by_cases h1 : i = 1
    · rw [if_pos h1, h1]
    · rw [if_neg h1]
      by_cases h0 : i = 0
      · rw [if_pos h0, h0]
      · rw [if_neg h0, if_neg h1, if_neg h0]
        by_cases h30 : i = 30
        · rw [if_neg h0, if_pos h30, h30]
        · rw [if_neg h0, if_neg h30, if_pos (by omega)]
  · simpa [ArmState.step, Context.of, hsp, hmem] using h.spEl0
  · simpa [ArmState.step, Context.of, hsp, hmem] using h.elrEl1
  · simpa [ArmState.step, Context.of, hsp, hmem] using h.spsrEl1
  · simp [ArmState.step, hsp, sFrameSize]
  · simp [ArmState.step, hmem]

/-! ## The context switch -/

/-- Where `context_switch` keeps register `r`, from 19 to 30, in a
`cs_stack_frame_t`. -/
def csOffset (r : ℕ) : ℕ := if r % 2 = 1 then 8 * (29 - r) else 8 * (31 - r)

/-- A `cs_stack_frame_t`. -/
def CsFrame (mem : ℕ → Word) (a : ℕ) (x : ℕ → Word) : Prop :=
  ∀ r, 19 ≤ r → r ≤ 30 → mem (a + csOffset r) = x r

/-- `sizeof(cs_stack_frame_t)` -/
def csFrameSize : ℕ := 96

theorem csOffset_lt {r : ℕ} (hr : 19 ≤ r) (hr' : r ≤ 30) : csOffset r < csFrameSize := by
  unfold csOffset csFrameSize
  split <;> omega

theorem CsFrame.congr {mem mem' x : ℕ → Word} {a : ℕ} (h : CsFrame mem a x)
    (heq : ∀ b, a ≤ b → b < a + csFrameSize → mem' b = mem b) : CsFrame mem' a x := by
  intro r hr hr'
  have := csOffset_lt hr hr'
  rw [heq _ (by omega) (by omega)]
  exact h r hr hr'

/-- `context_switch` keeps the registers on the old stack, and the stack pointer
in the old pcb; then it is on the new stack. -/
structure Leaves (m t : ArmState) : Prop where
  sp : t.sp = (m.x 0).toNat
  saved : CsFrame t.mem (m.sp - csFrameSize) m.x
  kernelStack : t.mem (m.x 1).toNat = BitVec.ofNat 64 (m.sp - csFrameSize)
  frame : ∀ a, a < m.sp - csFrameSize ∨ m.sp ≤ a → a ≠ (m.x 1).toNat → t.mem a = m.mem a

theorem exec_contextSwitchSave {m : ArmState} (hsp : csFrameSize ≤ m.sp)
    (hslot : (m.x 1).toNat < m.sp - csFrameSize ∨ m.sp ≤ (m.x 1).toNat) :
    Leaves m (m.exec contextSwitchSave) := by
  unfold csFrameSize at hsp hslot
  have hsub : m.sp - 16 - 16 - 16 - 16 - 16 - 16 = m.sp - 96 := by omega
  refine ⟨rfl, fun r hr hr' => ?_, ?_, fun a ha hne => ?_⟩
  · have hlt := csOffset_lt hr hr'
    unfold csFrameSize at hlt ⊢
    simp only [contextSwitchSave, ArmState.exec_cons, ArmState.exec_nil, ArmState.step,
      ArmState.setX_x, ArmState.store_mem, ArmState.setX_mem, ArmState.setSys_mem, ArmState.store_x]
    rw [if_neg (by simp only [show ¬ (1 : ℕ) = 19 by decide, if_false]; omega)]
    interval_cases r <;> simp only [csOffset, Nat.reduceMod, Nat.reduceSub, Nat.reduceMul,
      if_true, Nat.zero_ne_one, if_false] <;>
      repeat (first | rw [if_pos (by omega)] | rw [if_neg (by omega)])
  · simp [contextSwitchSave, ArmState.step, csFrameSize, hsub]
  · unfold csFrameSize at ha
    simp only [contextSwitchSave, ArmState.exec_cons, ArmState.exec_nil, ArmState.step,
      ArmState.setX_x, ArmState.store_mem, ArmState.setX_mem, ArmState.setSys_mem, ArmState.store_x]
    rw [if_neg (by simpa using hne)]
    repeat rw [if_neg (by omega)]

end Rpos
