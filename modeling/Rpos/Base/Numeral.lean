import Mathlib.Data.Nat.Digits.Lemmas

/-!
# Numerals

The numeral of a number is its list of digits with the most significant digit
first and no zero in front of another digit. A division loop finds the digits
from the other end, so what it has stored is read backwards.
-/

namespace Rpos.Base

structure IsNumeral (b n : ℕ) (ds : List ℕ) : Prop where
  ne_nil : ds ≠ []
  lt : ∀ d ∈ ds, d < b
  lead : 1 < ds.length → ds.head? ≠ some 0
  value : Nat.ofDigits b ds.reverse = n

/-- The digits that a division loop `do … while (n)` stores, in the order it stores them. -/
def divDigits (b n : ℕ) : List ℕ := if n = 0 then [0] else Nat.digits b n

variable {b n : ℕ}

theorem divDigits_of_ne_zero (hn : n ≠ 0) : divDigits b n = Nat.digits b n := if_neg hn

/-- The loop stores the last digit and goes on with the quotient, if there is one. -/
theorem divDigits_step (hb : 1 < b) :
    divDigits b n = n % b :: if n / b = 0 then [] else divDigits b (n / b) := by
  by_cases hn : n = 0
  · rw [hn, Nat.zero_mod, Nat.zero_div, if_pos rfl]
    rfl
  · rw [divDigits_of_ne_zero hn, Nat.digits_def' hb (Nat.pos_of_ne_zero hn)]
    split
    · rename_i hq
      rw [hq, Nat.digits_zero]
    · rename_i hq
      rw [divDigits_of_ne_zero hq]

theorem length_divDigits (hb : 1 < b) {k : ℕ} (hk : 0 < k) (hn : n < b ^ k) :
    (divDigits b n).length ≤ k := by
  unfold divDigits
  split
  · exact hk
  · exact (Nat.digits_length_le_iff hb n).mpr hn

/-- Read backwards, what the loop has stored is the numeral. -/
theorem isNumeral_divDigits (hb : 1 < b) (n : ℕ) : IsNumeral b n (divDigits b n).reverse := by
  by_cases hn : n = 0
  · subst hn
    refine ⟨List.cons_ne_nil _ _, ?_, fun hlen => absurd hlen (Nat.lt_irrefl 1), ?_⟩
    · intro d hd
      rw [List.mem_singleton.mp hd]
      exact Nat.zero_lt_of_lt hb
    · exact Nat.ofDigits_singleton
  · have hne : Nat.digits b n ≠ [] := Nat.digits_ne_nil_iff_ne_zero.mpr hn
    rw [divDigits_of_ne_zero hn]
    refine ⟨?_, ?_, ?_, ?_⟩
    · exact fun h => hne (List.reverse_eq_nil_iff.mp h)
    · intro d hd
      exact Nat.digits_lt_base hb (List.mem_reverse.mp hd)
    · -- the first digit is the last one found, which is not zero
      intro _ hhead
      rw [List.head?_reverse, List.getLast?_eq_some_getLast hne] at hhead
      exact Nat.getLast_digit_ne_zero b hn (Option.some.inj hhead)
    · rw [List.reverse_reverse, Nat.ofDigits_digits]

theorem IsNumeral.unique (hb : 1 < b) {ds ds' : List ℕ} (h : IsNumeral b n ds)
    (h' : IsNumeral b n ds') : ds = ds' := by
  have hdigits : ∀ {l : List ℕ}, IsNumeral b n l → l = (divDigits b n).reverse := by
    intro l hl
    have hlt : ∀ d ∈ l.reverse, d < b := fun d hd => hl.lt d (List.mem_reverse.mp hd)
    by_cases hlast : ∀ hne : l.reverse ≠ [], l.reverse.getLast hne ≠ 0
    · have hofDigits := Nat.digits_ofDigits b hb l.reverse hlt hlast
      rw [hl.value] at hofDigits
      have hne : n ≠ 0 := by
        rintro rfl
        rw [Nat.digits_zero] at hofDigits
        exact hl.ne_nil (List.reverse_eq_nil_iff.mp hofDigits.symm)
      rw [divDigits_of_ne_zero hne, hofDigits, List.reverse_reverse]
    · -- a first digit that is zero is the only one
      push Not at hlast
      obtain ⟨hne, hzero⟩ := hlast
      have hhead : l.head? = some 0 := by
        rw [← List.getLast?_reverse, List.getLast?_eq_some_getLast hne, hzero]
      have hlen : ¬ 1 < l.length := fun hlong => hl.lead hlong hhead
      obtain ⟨d, rfl⟩ : ∃ d, l = [d] :=
        List.length_eq_one_iff.mp (by have := List.length_pos_iff.mpr hl.ne_nil; omega)
      obtain rfl : d = 0 := Option.some.inj hhead
      have hvalue : n = 0 := hl.value.symm.trans (Nat.ofDigits_singleton)
      rw [hvalue]
      rfl
  exact (hdigits h).trans (hdigits h').symm

end Rpos.Base
