import Mathlib.Data.List.Basic
import Rpos.Base.ByteMemory

/-!
# NUL-terminated strings

A string stands in memory as its characters with a zero byte behind them. The
predicate follows the list, so that a loop `while (*p)` is an induction over
the string.
-/

namespace Rpos.Base

inductive CStr (m : ByteMem) : ℕ → List UInt8 → Prop
  | nil {a : ℕ} : m a = 0 → CStr m a []
  | cons {a : ℕ} {c : UInt8} {s : List UInt8} : m a = c → c ≠ 0 → CStr m (a + 1) s →
      CStr m a (c :: s)

namespace CStr

variable {m : ByteMem} {a : ℕ} {c : UInt8} {s t : List UInt8}

theorem terminator (h : CStr m a s) : m (a + s.length) = 0 := by
  induction h with
  | nil hzero => exact hzero
  | @cons a c s hc hne hrest ih =>
      have hshift : a + (c :: s).length = a + 1 + s.length := by
        rw [List.length_cons, Nat.add_right_comm, Nat.add_assoc]
      rw [hshift]
      exact ih

theorem drop (h : CStr m a (s ++ t)) : CStr m (a + s.length) t := by
  induction s generalizing a with
  | nil => exact h
  | cons c s ih =>
      obtain _ | ⟨hc, hne, hrest⟩ := h
      have hshift : a + (c :: s).length = a + 1 + s.length := by
        rw [List.length_cons, Nat.add_right_comm, Nat.add_assoc]
      rw [hshift]
      exact ih hrest

theorem get (h : CStr m a s) {i : ℕ} (hi : i ≤ s.length) : m (a + i) = s.getD i 0 := by
  induction h generalizing i with
  | nil hzero =>
      rw [Nat.le_zero.mp hi]
      exact hzero
  | @cons a c s hc hne hrest ih =>
      cases i with
      | zero => exact hc
      | succ i =>
          rw [List.getD_cons_succ, Nat.add_comm i, ← Nat.add_assoc]
          exact ih (Nat.le_of_succ_le_succ hi)

theorem getD_ne_zero (h : CStr m a s) {i : ℕ} (hi : i < s.length) : s.getD i 0 ≠ 0 := by
  induction h generalizing i with
  | nil => exact absurd hi (Nat.not_lt_zero i)
  | cons hc hne hrest ih =>
      cases i with
      | zero => exact hne
      | succ i => exact ih (Nat.lt_of_succ_lt_succ hi)

theorem ne_zero (h : CStr m a s) : ∀ d ∈ s, d ≠ 0 := by
  induction h with
  | nil => exact fun d hd => absurd hd List.not_mem_nil
  | cons hc hne hrest ih =>
      intro d hd
      rcases List.mem_cons.mp hd with rfl | hd
      · exact hne
      · exact ih d hd

/-- A string stands where its bytes and a zero byte behind them do. -/
theorem of_get (hbytes : ∀ i, i ≤ s.length → m (a + i) = s.getD i 0) (hne : ∀ d ∈ s, d ≠ 0) :
    CStr m a s := by
  induction s generalizing a with
  | nil => exact .nil (hbytes 0 (Nat.le_refl 0))
  | cons c s ih =>
      have hc : m a = c := hbytes 0 (Nat.zero_le _)
      apply CStr.cons hc (hne c List.mem_cons_self)
      apply ih
      · intro i hi
        rw [Nat.add_assoc, Nat.add_comm 1 i, hbytes (i + 1) (Nat.succ_le_succ hi),
          List.getD_cons_succ]
      · intro d hd
        exact hne d (List.mem_cons_of_mem c hd)

/-- A copy of a string, with its terminator, is the string. -/
theorem copy {m' : ByteMem} {b : ℕ} (h : CStr m a s)
    (hcopy : ∀ i, i ≤ s.length → m' (b + i) = m (a + i)) : CStr m' b s := by
  apply of_get
  · intro i hi
    rw [hcopy i hi, h.get hi]
  · exact h.ne_zero

theorem unique (hs : CStr m a s) (ht : CStr m a t) : s = t := by
  induction hs generalizing t with
  | nil hzero =>
      cases ht with
      | nil _ => rfl
      | cons hc hne _ => exact absurd (hc.symm.trans hzero) hne
  | cons hc hne hrest ih =>
      cases ht with
      | nil hzero => exact absurd (hc.symm.trans hzero) hne
      | cons hc' hne' hrest' => rw [← hc, ← hc', ih hrest']

/-- In front of a zero byte stands the string of the bytes before the first one. -/
theorem of_zero {n : ℕ} (hzero : m (a + n) = 0) :
    CStr m a (((List.range n).map fun i => m (a + i)).takeWhile (· ≠ 0)) := by
  induction n generalizing a with
  | zero => exact .nil hzero
  | succ n ih =>
      rw [List.range_succ_eq_map, List.map_cons, List.map_map, Nat.add_zero]
      by_cases hc : m a = 0
      · rw [List.takeWhile_cons_of_neg (by simp [hc])]
        exact .nil hc
      · rw [List.takeWhile_cons_of_pos (by simp [hc])]
        apply CStr.cons rfl hc
        have hshift : ((fun i => m (a + i)) ∘ Nat.succ) = fun i => m (a + 1 + i) := by
          funext i
          rw [Function.comp_apply, Nat.succ_eq_add_one, Nat.add_assoc, Nat.add_comm 1 i]
        rw [hshift]
        apply ih
        rw [Nat.add_assoc, Nat.add_comm 1 n]
        exact hzero

end CStr

end Rpos.Base
