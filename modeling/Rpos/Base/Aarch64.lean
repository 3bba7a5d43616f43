import Mathlib.Data.List.Basic
import Mathlib.Logic.Function.Basic
import Mathlib.Data.Nat.Notation

/-!
# A fragment of A64

The instructions with which an exception vector and a context switch move
registers: pairs to and from the stack, and the stack pointer and the system
registers to and from general registers. Memory is a double word for each
aligned address, and all accesses are aligned. Saving a row of register pairs
stores the register file as an array, and loading it gives it back.
-/

namespace Rpos.Base.A64

inductive SysReg
  | spEl0
  | elrEl1
  | spsrEl1
  | ttbr0El1
  deriving DecidableEq

/-- General registers are `x 0` to `x 30`; `sp` is the stack pointer of EL1. -/
structure ArmState where
  x : ℕ → BitVec 64
  sp : ℕ
  sys : SysReg → BitVec 64
  mem : ℕ → BitVec 64

inductive Instr
  /-- `stp x_r, x_t, [sp, #off]` -/
  | stp (r t off : ℕ)
  /-- `ldp x_r, x_t, [sp, #off]` -/
  | ldp (r t off : ℕ)
  /-- `stp x_r, x_t, [sp, #-16]!` -/
  | push (r t : ℕ)
  /-- `ldp x_r, x_t, [sp], #16` -/
  | pop (r t : ℕ)
  /-- `str x_r, [x_base]` -/
  | str (r base : ℕ)
  /-- `str x_r, [sp, #off]` -/
  | strSp (r off : ℕ)
  /-- `sub sp, sp, #n` -/
  | subSp (n : ℕ)
  /-- `add sp, sp, #n` -/
  | addSp (n : ℕ)
  /-- `mov x_r, x_t` -/
  | mov (r t : ℕ)
  /-- `mov x_r, sp` -/
  | movFromSp (r : ℕ)
  /-- `mov sp, x_r` -/
  | movToSp (r : ℕ)
  | mrs (r : ℕ) (s : SysReg)
  | msr (s : SysReg) (r : ℕ)

namespace ArmState

def setX (m : ArmState) (r : ℕ) (v : BitVec 64) : ArmState :=
  { m with x := Function.update m.x r v }

def store (m : ArmState) (a : ℕ) (v : BitVec 64) : ArmState :=
  { m with mem := Function.update m.mem a v }

def setSys (m : ArmState) (s : SysReg) (v : BitVec 64) : ArmState :=
  { m with sys := Function.update m.sys s v }

def step (m : ArmState) : Instr → ArmState
  | .stp r t off => (m.store (m.sp + off) (m.x r)).store (m.sp + off + 8) (m.x t)
  | .ldp r t off => (m.setX r (m.mem (m.sp + off))).setX t (m.mem (m.sp + off + 8))
  | .push r t =>
      { (m.store (m.sp - 16) (m.x r)).store (m.sp - 16 + 8) (m.x t) with sp := m.sp - 16 }
  | .pop r t =>
      { (m.setX r (m.mem m.sp)).setX t (m.mem (m.sp + 8)) with sp := m.sp + 16 }
  | .str r base => m.store (m.x base).toNat (m.x r)
  | .strSp r off => m.store (m.sp + off) (m.x r)
  | .subSp n => { m with sp := m.sp - n }
  | .addSp n => { m with sp := m.sp + n }
  | .mov r t => m.setX r (m.x t)
  | .movFromSp r => m.setX r (BitVec.ofNat 64 m.sp)
  | .movToSp r => { m with sp := (m.x r).toNat }
  | .mrs r s => m.setX r (m.sys s)
  | .msr s r => m.setSys s (m.x r)

def exec (m : ArmState) (code : List Instr) : ArmState := code.foldl step m

variable {m : ArmState} {r t a : ℕ} {v : BitVec 64} {s : SysReg}

@[simp] theorem exec_nil : m.exec [] = m := rfl

@[simp] theorem exec_cons (i : Instr) (code : List Instr) :
    m.exec (i :: code) = (m.step i).exec code := rfl

theorem exec_append (code code' : List Instr) :
    m.exec (code ++ code') = (m.exec code).exec code' :=
  List.foldl_append

@[simp] theorem setX_x : (m.setX r v).x t = if t = r then v else m.x t :=
  Function.update_apply _ _ _ _

@[simp] theorem setX_sp : (m.setX r v).sp = m.sp := rfl
@[simp] theorem setX_sys : (m.setX r v).sys = m.sys := rfl
@[simp] theorem setX_mem : (m.setX r v).mem = m.mem := rfl

@[simp] theorem store_mem {b : ℕ} : (m.store a v).mem b = if b = a then v else m.mem b :=
  Function.update_apply _ _ _ _

@[simp] theorem store_x : (m.store a v).x = m.x := rfl
@[simp] theorem store_sp : (m.store a v).sp = m.sp := rfl
@[simp] theorem store_sys : (m.store a v).sys = m.sys := rfl

@[simp] theorem setSys_sys {s' : SysReg} :
    (m.setSys s v).sys s' = if s' = s then v else m.sys s' :=
  Function.update_apply _ _ _ _

@[simp] theorem setSys_x : (m.setSys s v).x = m.x := rfl
@[simp] theorem setSys_sp : (m.setSys s v).sp = m.sp := rfl
@[simp] theorem setSys_mem : (m.setSys s v).mem = m.mem := rfl

/-! ## Rows of pairs -/

/-- `stp x_2i, x_(2i+1), [sp, #16i]` for `i` from 0 to `n - 1`. -/
def storePairs (n : ℕ) : List Instr :=
  (List.range n).map fun i => .stp (2 * i) (2 * i + 1) (16 * i)

/-- `ldp x_2i, x_(2i+1), [sp, #16i]` for `i` from `lo` to `lo + n - 1`. -/
def loadPairs (lo n : ℕ) : List Instr :=
  (List.range' lo n).map fun i => .ldp (2 * i) (2 * i + 1) (16 * i)

/-- The machine with the first `n` registers in an array at `a`. -/
structure Stores (m : ArmState) (n : ℕ) (t : ArmState) : Prop where
  x : t.x = m.x
  sp : t.sp = m.sp
  sys : t.sys = m.sys
  word : ∀ r < n, t.mem (m.sp + 8 * r) = m.x r
  frame : ∀ a, (∀ r < n, a ≠ m.sp + 8 * r) → t.mem a = m.mem a

theorem exec_storePairs (m : ArmState) (n : ℕ) :
    Stores m (2 * n) (m.exec (storePairs n)) := by
  induction n with
  | zero => exact ⟨rfl, rfl, rfl, fun r hr => absurd hr (Nat.not_lt_zero r), fun _ _ => rfl⟩
  | succ n ih =>
      obtain ⟨hx, hsp, hsys, hword, hframe⟩ := ih
      have hlast : m.exec (storePairs (n + 1))
          = (m.exec (storePairs n)).step (.stp (2 * n) (2 * n + 1) (16 * n)) := by
        rw [storePairs, List.range_succ, List.map_append, exec_append]
        rfl
      rw [hlast]
      refine ⟨hx, hsp, hsys, fun r hr => ?_, fun a ha => ?_⟩
      · simp only [step, store_mem, hsp, hx]
        by_cases hodd : r = 2 * n + 1
        · rw [if_pos (by omega), hodd]
        · rw [if_neg (by omega)]
          by_cases heven : r = 2 * n
          · rw [if_pos (by omega), heven]
          · rw [if_neg (by omega)]
            exact hword r (by omega)
      · simp only [step, store_mem, hsp]
        rw [if_neg (by have := ha (2 * n + 1) (by omega); omega),
          if_neg (by have := ha (2 * n) (by omega); omega)]
        exact hframe a fun r hr => ha r (by omega)

/-- The machine with the registers from `lo` to `hi - 1` taken from an array. -/
structure Loads (m : ArmState) (lo hi : ℕ) (t : ArmState) : Prop where
  x : ∀ r, t.x r = if lo ≤ r ∧ r < hi then m.mem (m.sp + 8 * r) else m.x r
  sp : t.sp = m.sp
  sys : t.sys = m.sys
  mem : t.mem = m.mem

theorem exec_loadPairs (m : ArmState) (lo n : ℕ) :
    Loads m (2 * lo) (2 * (lo + n)) (m.exec (loadPairs lo n)) := by
  induction n with
  | zero => exact ⟨fun r => (if_neg (by omega)).symm, rfl, rfl, rfl⟩
  | succ n ih =>
      obtain ⟨hx, hsp, hsys, hmem⟩ := ih
      have hlast : m.exec (loadPairs lo (n + 1)) = (m.exec (loadPairs lo n)).step
          (.ldp (2 * (lo + n)) (2 * (lo + n) + 1) (16 * (lo + n))) := by
        rw [loadPairs, List.range'_concat, List.map_append, exec_append, Nat.one_mul]
        rfl
      rw [hlast]
      refine ⟨fun r => ?_, hsp, hsys, hmem⟩
      simp only [step, setX_x, hsp, hmem, hx]
      by_cases hodd : r = 2 * (lo + n) + 1
      · rw [if_pos hodd, if_pos (by omega)]
        congr 1
        omega
      · rw [if_neg hodd]
        by_cases heven : r = 2 * (lo + n)
        · rw [if_pos heven, if_pos (by omega)]
          congr 1
          omega
        · rw [if_neg heven]
          by_cases hin : 2 * lo ≤ r ∧ r < 2 * (lo + n)
          · rw [if_pos hin, if_pos (by omega)]
          · rw [if_neg hin, if_neg (by omega)]

end ArmState

end Rpos.Base.A64
