import Mathlib.Tactic.Common
import Rpos.Base.CString

/-!
# Strings

`strcmp` of `utils.c`. It tells equal strings from different ones and does not
order them.
-/

namespace Rpos

open Base

def strcmp (m m' : ByteMem) : ℕ → ℕ → ℕ → Option ℕ
  | 0, _, _ => none
  | fuel + 1, str1, str2 =>
      if m str1 ≠ 0 ∧ m' str2 ≠ 0 then
        if m str1 ≠ m' str2 then some 1
        else strcmp m m' fuel (str1 + 1) (str2 + 1)
      else some (if m str1 = 0 ∧ m' str2 = 0 then 0 else 1)

/-- On two strings `strcmp` returns 0 exactly when they are equal. -/
theorem strcmp_eq {m m' : ByteMem} {str1 : ℕ} {s : List UInt8} (hs : CStr m str1 s) :
    ∀ {str2 : ℕ} {t : List UInt8} {fuel : ℕ}, CStr m' str2 t → s.length < fuel →
      strcmp m m' fuel str1 str2 = some (if s = t then 0 else 1) := by
  induction hs with
  | @nil str1 hzero =>
      intro str2 t fuel ht hfuel
      obtain ⟨fuel, rfl⟩ := Nat.exists_eq_add_of_lt hfuel
      rw [strcmp, if_neg fun h => h.1 hzero]
      cases ht with
      | nil hzero' => rw [if_pos ⟨hzero, hzero'⟩, if_pos rfl]
      | cons hc hne _ =>
          rw [if_neg fun h => hne (hc.symm.trans h.2), if_neg (List.cons_ne_nil _ _).symm]
  | @cons str1 c s hc hne hrest ih =>
      intro str2 t fuel ht hfuel
      obtain ⟨fuel, rfl⟩ : ∃ f, fuel = f + 1 := Nat.exists_eq_succ_of_ne_zero (by omega)
      rw [strcmp, hc]
      cases ht with
      | nil hzero =>
          rw [if_neg fun h => h.2 hzero, if_neg fun h => hne h.1,
            if_neg (List.cons_ne_nil _ _)]
      | @cons _ d t hd hne' hrest' =>
          rw [hd, if_pos ⟨hne, hne'⟩]
          by_cases hcd : c = d
          · -- the rest of the strings decides
            subst hcd
            rw [if_neg (not_not.mpr rfl), ih hrest' (Nat.lt_of_succ_lt_succ hfuel)]
            simp only [List.cons.injEq, true_and]
          · rw [if_pos hcd, if_neg fun h => hcd (List.head_eq_of_cons_eq h)]

end Rpos
