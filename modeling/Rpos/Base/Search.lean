import Mathlib.Data.List.Basic
import Mathlib.Data.List.Range

/-!
# Searches through numbers

The first value of a partial function on a range of numbers, and the search that finds
it.
-/

namespace Rpos.Base

variable {α : Type*}

/-- The first number from `lo` on and below `hi` at which `g` has a value, and that value. -/
def FirstAt (g : ℕ → Option α) (lo hi : ℕ) (n : α) : Prop :=
  ∃ k, lo ≤ k ∧ k < hi ∧ g k = some n ∧ ∀ j, lo ≤ j → j < k → g j = none

variable {g g' : ℕ → Option α} {lo hi mid : ℕ} {n n' : α}

theorem FirstAt.unique (h : FirstAt g lo hi n) (h' : FirstAt g lo hi n') : n = n' := by
  obtain ⟨k, hlo, hhi, hk, hbefore⟩ := h
  obtain ⟨k', hlo', hhi', hk', hbefore'⟩ := h'
  have hkk : k = k' := by
    rcases Nat.lt_trichotomy k k' with hlt | heq | hgt
    · exact absurd (hk.symm.trans (hbefore' k hlo hlt)) (Option.some_ne_none n)
    · exact heq
    · exact absurd (hk'.symm.trans (hbefore k' hlo' hgt)) (Option.some_ne_none n')
  rw [hkk, hk', Option.some.injEq] at hk
  exact hk.symm

theorem FirstAt.congr (h : FirstAt g lo hi n) (hg : ∀ k, lo ≤ k → k < hi → g' k = g k) :
    FirstAt g' lo hi n := by
  obtain ⟨k, hlo, hhi, hk, hbefore⟩ := h
  refine ⟨k, hlo, hhi, (hg k hlo hhi).trans hk, fun j hj hjk => ?_⟩
  rw [hg j hj (hjk.trans hhi)]
  exact hbefore j hj hjk

theorem exists_firstAt {k : ℕ} (hlo : lo ≤ k) (hhi : k < hi) (hk : g k ≠ none) :
    ∃ n, FirstAt g lo hi n := by
  induction k using Nat.strong_induction_on with
  | _ k ih =>
      by_cases hearlier : ∃ j, lo ≤ j ∧ j < k ∧ g j ≠ none
      · obtain ⟨j, hj, hjk, hne⟩ := hearlier
        exact ih j hjk hj (hjk.trans hhi) hne
      · obtain ⟨n, hn⟩ := Option.ne_none_iff_exists'.mp hk
        refine ⟨n, k, hlo, hhi, hn, fun j hj hjk => ?_⟩
        by_contra hne
        exact hearlier ⟨j, hj, hjk, hne⟩

theorem not_firstAt_iff :
    (∀ n, ¬ FirstAt g lo hi n) ↔ ∀ k, lo ≤ k → k < hi → g k = none := by
  constructor
  · intro hno k hlo hhi
    by_contra hne
    obtain ⟨n, hn⟩ := exists_firstAt hlo hhi hne
    exact hno n hn
  · rintro hall n ⟨k, hlo, hhi, hk, -⟩
    rw [hall k hlo hhi] at hk
    exact Option.some_ne_none n hk.symm

theorem FirstAt.extend (h : FirstAt g lo mid n) (hle : mid ≤ hi) : FirstAt g lo hi n := by
  obtain ⟨k, hlo, hhi, hk⟩ := h
  exact ⟨k, hlo, hhi.trans_le hle, hk⟩

theorem firstAt_skip (hle : lo ≤ mid) (hnone : ∀ k, lo ≤ k → k < mid → g k = none) :
    FirstAt g lo hi n ↔ FirstAt g mid hi n := by
  constructor
  · rintro ⟨k, hlo, hhi, hk, hbefore⟩
    refine ⟨k, ?_, hhi, hk, fun j hj => hbefore j (hle.trans hj)⟩
    by_contra hlt
    rw [hnone k hlo (Nat.not_le.mp hlt)] at hk
    exact Option.some_ne_none n hk.symm
  · rintro ⟨k, hlo, hhi, hk, hbefore⟩
    refine ⟨k, hle.trans hlo, hhi, hk, fun j hj hjk => ?_⟩
    rcases Nat.lt_or_ge j mid with hlt | hge
    · exact hnone j hj hlt
    · exact hbefore j hge hjk

theorem FirstAt.findSome? (h : FirstAt g 0 hi n) :
    (List.range hi).findSome? g = some n := by
  obtain ⟨k, -, hhi, hk, hbefore⟩ := h
  obtain ⟨r, rfl⟩ := Nat.exists_eq_add_of_lt hhi
  have hnone : (List.range k).findSome? g = none := by
    rw [List.findSome?_eq_none_iff]
    exact fun j hj => hbefore j (Nat.zero_le j) (List.mem_range.mp hj)
  have hrange : List.range (k + r + 1) =
      List.range k ++ k :: (List.range r).map (k + 1 + ·) := by
    rw [Nat.add_right_comm, List.range_add, List.range_succ, List.append_assoc]
    rfl
  rw [hrange, List.findSome?_append, hnone, Option.none_or, List.findSome?_cons, hk]

theorem findSome?_range : (List.range hi).findSome? g = some n ↔ FirstAt g 0 hi n := by
  refine ⟨fun h => ?_, FirstAt.findSome?⟩
  by_cases hall : ∀ k, 0 ≤ k → k < hi → g k = none
  · have hnone : (List.range hi).findSome? g = none := by
      rw [List.findSome?_eq_none_iff]
      exact fun j hj => hall j (Nat.zero_le j) (List.mem_range.mp hj)
    rw [hnone] at h
    exact absurd h.symm (Option.some_ne_none n)
  · rw [← not_firstAt_iff, not_forall] at hall
    obtain ⟨m, hm⟩ := hall
    rw [not_not] at hm
    rw [hm.findSome?, Option.some.injEq] at h
    exact h ▸ hm

end Rpos.Base
