import Mathlib.Data.Nat.Notation
import Mathlib.Tactic.TypeStar

/-!
# Devices with registers

What a driver knows of a device are the registers that it loads and stores. A load may change
the device, and so may the time that passes, so nothing is known of two loads of one register.
A bounded poll ends on every device. A register that hands out the items of a sequence, or
anything while it is not ready, has handed out the right ones if the device has counted every
load.
-/

namespace Rpos.Base

structure Device (R V D : Type*) where
  load : R → D → V × D
  store : R → V → D → D
  wait : ℕ → D → D

namespace Device

variable {R V D : Type*} {h : Device R V D} {r : R} {test : V → Bool} {n : ℕ} {d : D}

/-! ## §1  Polling -/

/-- Up to `n` loads of a register until one passes the test, with a wait after each that does
not. The result tells whether one has passed, and how many have not. -/
def poll (h : Device R V D) (r : R) (test : V → Bool) : ℕ → D → Bool × ℕ × D
  | 0, d => (false, 0, d)
  | n + 1, d =>
      let (v, d) := h.load r d
      if test v then (true, 0, d)
      else
        let (passed, failed, d) := poll h r test n (h.wait 1 d)
        (passed, failed + 1, d)

theorem poll_pass (hv : test (h.load r d).1 = true) :
    h.poll r test (n + 1) d = (true, 0, (h.load r d).2) :=
  if_pos hv

theorem poll_fail (hv : ¬ test (h.load r d).1 = true) :
    h.poll r test (n + 1) d = ((h.poll r test n (h.wait 1 (h.load r d).2)).1,
      (h.poll r test n (h.wait 1 (h.load r d).2)).2.1 + 1,
      (h.poll r test n (h.wait 1 (h.load r d).2)).2.2) :=
  if_neg hv

theorem poll_le (h : Device R V D) (r : R) (test : V → Bool) (n : ℕ) (d : D) :
    (h.poll r test n d).2.1 ≤ n := by
  induction n generalizing d with
  | zero => exact Nat.le_refl 0
  | succ n ih =>
      by_cases hv : test (h.load r d).1 = true
      · rw [poll_pass hv]
        exact Nat.zero_le _
      · rw [poll_fail hv]
        exact Nat.succ_le_succ (ih _)

/-- What the loads of the register and the waits keep, a poll keeps. -/
theorem poll_keeps {α : Type*} {f : D → α} (hload : ∀ d, f (h.load r d).2 = f d)
    (hwait : ∀ d, f (h.wait 1 d) = f d) (n : ℕ) (d : D) : f (h.poll r test n d).2.2 = f d := by
  induction n generalizing d with
  | zero => rfl
  | succ n ih =>
      by_cases hv : test (h.load r d).1 = true
      · rw [poll_pass hv, hload]
      · rw [poll_fail hv]
        exact (ih _).trans ((hwait _).trans (hload d))

/-! ## §2  A register that hands out a sequence -/

/-- The items that are handed out, how many there are and how many have been. -/
structure Stream (V : Type*) where
  item : ℕ → V
  total : ℕ
  taken : ℕ

/-- A load yields the next item, or it is not counted and yields anything. -/
def Feeds (h : Device R V D) (r : R) (stream : D → Stream V) : Prop :=
  ∀ d, stream (h.load r d).2 = stream d ∨
    (h.load r d).1 = (stream d).item (stream d).taken ∧
      stream (h.load r d).2 = { stream d with taken := (stream d).taken + 1 }

/-- `k` loads of the stream `item`, `total`: those that were counted have yielded the items. If
all were, `P` holds of each item that has been loaded. -/
structure Loaded (item : ℕ → V) (total k : ℕ) (P : ℕ → Prop) (s : Stream V) : Prop where
  item_eq : s.item = item
  total_eq : s.total = total
  taken_le : s.taken ≤ k
  right : s.taken = k → ∀ i < k, P i

variable {item : ℕ → V} {total k : ℕ} {P Q : ℕ → Prop} {stream : D → Stream V} {s : Stream V}

theorem Loaded.start (hitem : s.item = item) (htotal : s.total = total) (htaken : s.taken = 0) :
    Loaded item total 0 P s :=
  ⟨hitem, htotal, Nat.le_of_eq htaken, fun _ i hi => absurd hi (Nat.not_lt_zero i)⟩

/-- One load more. `Q` is what holds after the value has been put away. -/
theorem Feeds.loaded (hfeeds : h.Feeds r stream) (hs : Loaded item total k P (stream d))
    (hkeep : ∀ i < k, P i → Q i) (hput : (h.load r d).1 = item k → Q k) :
    Loaded item total (k + 1) Q (stream (h.load r d).2) := by
  rcases hfeeds d with hsame | ⟨hvalue, hnext⟩
  · rw [hsame]
    refine ⟨hs.item_eq, hs.total_eq, Nat.le_succ_of_le hs.taken_le, fun htaken => ?_⟩
    have hle := hs.taken_le
    rw [htaken] at hle
    exact absurd hle (Nat.not_succ_le_self k)
  · rw [hnext]
    refine ⟨hs.item_eq, hs.total_eq, Nat.succ_le_succ hs.taken_le, fun htaken i hi => ?_⟩
    have hall : (stream d).taken = k := Nat.succ.inj htaken
    rw [hs.item_eq, hall] at hvalue
    rcases Nat.lt_succ_iff_lt_or_eq.mp hi with hlt | rfl
    · exact hkeep i hlt (hs.right hall i hlt)
    · exact hput hvalue

/-- A device that has counted all items has handed them out, if there were no more loads. -/
theorem Loaded.complete (hs : Loaded item total k P s) (hk : k ≤ total)
    (hall : s.taken = s.total) : k = total ∧ ∀ i < total, P i := by
  rw [hs.total_eq] at hall
  have heq : k = total := Nat.le_antisymm hk (hall ▸ hs.taken_le)
  subst heq
  exact ⟨rfl, hs.right hall⟩

end Device

end Rpos.Base
