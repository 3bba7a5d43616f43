import Mathlib.Data.Nat.Bitwise

/-!
# Bit fields of a 64-bit word

A C bit field is a window of a word. Reading one gives a number below
`2 ^ width`; assigning one truncates. Assigning a field leaves every disjoint
field of the word alone.
-/

namespace Rpos.Base

abbrev Word := BitVec 64

structure BitField where
  lsb : ℕ
  width : ℕ
  fits : lsb + width ≤ 64

namespace BitField

def get (f : BitField) (w : Word) : ℕ := (w >>> f.lsb).toNat % 2 ^ f.width

def mask (f : BitField) : Word :=
  BitVec.ofNat 64 (2 ^ f.width - 1) <<< f.lsb

def set (f : BitField) (w : Word) (v : ℕ) : Word :=
  (w &&& ~~~ f.mask) ||| (BitVec.ofNat 64 (v % 2 ^ f.width) <<< f.lsb)

def Disjoint (f g : BitField) : Prop :=
  f.lsb + f.width ≤ g.lsb ∨ g.lsb + g.width ≤ f.lsb

instance (f g : BitField) : Decidable (f.Disjoint g) :=
  inferInstanceAs (Decidable (_ ∨ _))

theorem testBit_get (f : BitField) (w : Word) (i : ℕ) :
    (f.get w).testBit i = (decide (i < f.width) && w.getLsbD (f.lsb + i)) := by
  unfold get
  rw [Nat.testBit_mod_two_pow, BitVec.toNat_ushiftRight, Nat.testBit_shiftRight]
  rfl

theorem getLsbD_set (f : BitField) (w : Word) (v i : ℕ) (hi : i < 64) :
    (f.set w v).getLsbD i =
      if f.lsb ≤ i ∧ i < f.lsb + f.width then v.testBit (i - f.lsb)
      else w.getLsbD i := by
  have hfits := f.fits
  have hmask : f.mask.getLsbD i =
      decide (f.lsb ≤ i ∧ i < f.lsb + f.width) := by
    unfold mask
    rw [BitVec.getLsbD_shiftLeft, BitVec.getLsbD_ofNat,
      Nat.testBit_two_pow_sub_one]
    by_cases hl : f.lsb ≤ i
    · simp only [hi, hl, decide_true, Bool.true_and, true_and,
        Nat.not_lt.mpr hl, decide_false, Bool.not_false]
      have hlt : i - f.lsb < 64 := by omega
      simp only [hlt, decide_true, Bool.true_and, decide_eq_decide]
      omega
    · simp [hl, Nat.lt_of_not_le hl]
  unfold set
  rw [BitVec.getLsbD_or, BitVec.getLsbD_and, BitVec.getLsbD_not, hmask,
    BitVec.getLsbD_shiftLeft, BitVec.getLsbD_ofNat, Nat.testBit_mod_two_pow]
  by_cases hin : f.lsb ≤ i ∧ i < f.lsb + f.width
  · rw [if_pos hin]
    have h1 : i - f.lsb < 64 := by omega
    have h2 : i - f.lsb < f.width := by omega
    simp [hin, hi, h1, h2]
  · rw [if_neg hin]
    rcases Nat.lt_or_ge i f.lsb with hl | hl
    · simp [hl, hi, hin]
    · have h2 : ¬ i - f.lsb < f.width := by omega
      simp [hi, hin, h2]

theorem get_lt (f : BitField) (w : Word) : f.get w < 2 ^ f.width :=
  Nat.mod_lt _ (Nat.two_pow_pos _)

@[simp] theorem get_set (f : BitField) (w : Word) (v : ℕ) :
    f.get (f.set w v) = v % 2 ^ f.width := by
  have hfits := f.fits
  apply Nat.eq_of_testBit_eq
  intro i
  rw [testBit_get, Nat.testBit_mod_two_pow]
  by_cases hi : i < f.width
  · rw [getLsbD_set f w v _ (by omega), if_pos (by omega),
      Nat.add_sub_cancel_left]
  · simp [hi]

theorem get_set_of_disjoint {f g : BitField} (h : f.Disjoint g) (w : Word)
    (v : ℕ) : f.get (g.set w v) = f.get w := by
  have hfits := f.fits
  unfold Disjoint at h
  apply Nat.eq_of_testBit_eq
  intro i
  rw [testBit_get, testBit_get]
  by_cases hi : i < f.width
  · rw [getLsbD_set g w v _ (by omega), if_neg (by omega)]
  · simp [hi]

theorem set_set (f : BitField) (w : Word) (u v : ℕ) :
    f.set (f.set w u) v = f.set w v := by
  apply BitVec.eq_of_getLsbD_eq
  intro i hi
  rw [getLsbD_set f _ v i hi, getLsbD_set f w v i hi, getLsbD_set f w u i hi]
  split_ifs <;> rfl

theorem set_get (f : BitField) (w : Word) : f.set w (f.get w) = w := by
  apply BitVec.eq_of_getLsbD_eq
  intro i hi
  rw [getLsbD_set f w _ i hi]
  split_ifs with hin
  · have hlt : i - f.lsb < f.width := by omega
    rw [testBit_get, decide_eq_true hlt, Bool.true_and, Nat.add_sub_cancel' hin.1]
  · rfl

@[simp] theorem get_zero (f : BitField) : f.get 0 = 0 := by
  simp [get]

end BitField

end Rpos.Base
