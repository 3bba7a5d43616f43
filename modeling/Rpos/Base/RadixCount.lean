import Mathlib.Algebra.BigOperators.Ring.Finset
import Rpos.Base.RadixCopy

/-!
# Counting what a radix tree maps

In a tree that maps in its lowest tables only, a page is mapped by as many words as there
are addresses that it is found at. A tree is filled when each of its tables, taken by
itself, has a used word.
-/

namespace Rpos.Base.Radix

variable {W : Type*} {R : Radix W} {ram : ℕ → ℕ → W} {used : W → Prop} {h p q : ℕ} {w : W}

/-! ## §1  Tables with a used word -/

theorem tables_pos_iff : 0 < R.tables ram h p q ↔
    q = p ∨ ∃ i < R.fan, 0 < R.tablesUnder ram h (ram p i) q := by
  constructor
  · intro hpos
    by_contra hnot
    obtain ⟨hne, hunder⟩ := not_or.mp hnot
    have hsum : ∑ i ∈ Finset.range R.fan, R.tablesUnder ram h (ram p i) q = 0 := by
      refine Finset.sum_eq_zero fun i hi => ?_
      by_contra hi0
      exact hunder ⟨i, Finset.mem_range.mp hi, Nat.pos_of_ne_zero hi0⟩
    rw [tables, if_neg hne, hsum] at hpos
    exact absurd hpos (Nat.lt_irrefl 0)
  · rintro (rfl | ⟨i, hi, hpos⟩)
    · exact tables_self
    · exact Nat.lt_of_lt_of_le hpos (tablesUnder_le hi)

theorem filledUnder_iff (w : W) : R.FilledUnder used ram h w ↔
    ∀ q, 0 < R.tablesUnder ram h w q → ∃ i < R.fan, used (ram q i) := by
  induction h generalizing w with
  | zero => exact ⟨fun _ q hq => absurd hq (Nat.lt_irrefl 0), fun _ => trivial⟩
  | succ h ih =>
      by_cases hw : R.table (h + 1) w = true
      · have htables : ∀ q, R.tablesUnder ram (h + 1) w q = R.tables ram h (R.target w) q :=
          fun q => tablesUnder_table hw
        constructor
        · intro hf q hq
          obtain ⟨hself, hchild⟩ := hf hw
          rw [htables, tables_pos_iff] at hq
          rcases hq with rfl | ⟨i, hi, hpos⟩
          · exact hself
          · exact (ih _).mp (hchild i hi) q hpos
        · intro hall _
          refine ⟨hall _ ?_, fun i hi => (ih _).mpr fun q hq => hall q ?_⟩
          · rw [htables]
            exact tables_self
          · rw [htables]
            exact tables_pos_iff.mpr (Or.inr ⟨i, hi, hq⟩)
      · have hnot : R.table (h + 1) w = false := Bool.eq_false_iff.mpr hw
        refine iff_of_true (fun h => absurd h hw) fun q hq => ?_
        rw [tablesUnder_none hnot] at hq
        exact absurd hq (Nat.lt_irrefl 0)

/-- A tree is filled if each of its tables has a used word. -/
theorem filled_iff : R.Filled used ram h p ↔
    ∀ q, 0 < R.tables ram h p q → ∃ i < R.fan, used (ram q i) := by
  constructor
  · rintro ⟨hself, hchild⟩ q hq
    rcases tables_pos_iff.mp hq with rfl | ⟨i, hi, hpos⟩
    · exact hself
    · exact (filledUnder_iff _).mp (hchild i hi) q hpos
  · intro hall
    refine ⟨hall p tables_self, fun i hi => (filledUnder_iff _).mpr fun q hq => hall q ?_⟩
    exact tables_pos_iff.mpr (Or.inr ⟨i, hi, hq⟩)

/-- A correspondence that keeps the used words keeps a tree filled. -/
theorem Rel.filled {T : ℕ → W → W → Prop} {ram' : ℕ → ℕ → W} {p' : ℕ}
    (hT : ∀ h w w', T h w w' → R.table h w' = R.table h w ∧ (used w → used w'))
    (hr : R.Rel T ram ram' h p p') (hf : R.Filled used ram h p) : R.Filled used ram' h p' := by
  have hunder : ∀ (h : ℕ) (w w' : W), R.RelUnder T ram ram' h w w' →
      R.FilledUnder used ram h w → R.FilledUnder used ram' h w' := by
    intro h
    induction h with
    | zero => exact fun _ _ _ _ => trivial
    | succ h ih =>
        intro w w' hr hf hw'
        have hw : R.table (h + 1) w = true := (hT _ _ _ hr.1).1.symm.trans hw'
        obtain ⟨⟨i, hi, hself⟩, hchild⟩ := hf hw
        refine ⟨⟨i, hi, (hT _ _ _ (hr.2 hw i hi).word).2 hself⟩, fun j hj => ?_⟩
        exact ih _ _ (hr.2 hw j hj) (hchild j hj)
  obtain ⟨⟨i, hi, hself⟩, hchild⟩ := hf
  refine ⟨⟨i, hi, (hT _ _ _ (hr i hi).word).2 hself⟩, fun j hj => ?_⟩
  exact hunder h _ _ (hr j hj) (hchild j hj)

theorem sum_tables {Q : Finset ℕ} (hp : p ∈ Q) (hunder : ∀ i < R.fan,
      R.sizeUnder ram h (ram p i) = ∑ q ∈ Q, R.tablesUnder ram h (ram p i) q) :
    R.size ram h p = ∑ q ∈ Q, R.tables ram h p q := by
  simp only [size, tables]
  rw [Finset.sum_add_distrib, Finset.sum_ite_eq', if_pos hp, Finset.sum_comm]
  exact congrArg (1 + ·) (Finset.sum_congr rfl fun i hi => hunder i (Finset.mem_range.mp hi))

/-- The size of a tree, by the pages that its tables are among. -/
theorem size_eq_sum {Q : Finset ℕ} (hQ : ∀ q, 0 < R.tables ram h p q → q ∈ Q) :
    R.size ram h p = ∑ q ∈ Q, R.tables ram h p q := by
  have hunder : ∀ (h : ℕ) (w : W), (∀ q, 0 < R.tablesUnder ram h w q → q ∈ Q) →
      R.sizeUnder ram h w = ∑ q ∈ Q, R.tablesUnder ram h w q := by
    intro h
    induction h with
    | zero => exact fun w _ => Finset.sum_const_zero.symm
    | succ h ih =>
        intro w hw
        by_cases htable : R.table (h + 1) w = true
        · have hmem : ∀ q, 0 < R.tables ram h (R.target w) q → q ∈ Q := by
            intro q hq
            rw [← tablesUnder_table htable] at hq
            exact hw q hq
          rw [sizeUnder_table htable, sum_tables (hmem _ tables_self) fun i hi => ih _ fun q hq =>
            hmem q (tables_pos_iff.mpr (Or.inr ⟨i, hi, hq⟩))]
          exact Finset.sum_congr rfl fun q _ => (tablesUnder_table htable).symm
        · have hnot : R.table (h + 1) w = false := Bool.eq_false_iff.mpr htable
          rw [sizeUnder_none hnot]
          exact (Finset.sum_eq_zero fun q _ => tablesUnder_none hnot).symm
  exact sum_tables (hQ p tables_self) fun i hi => hunder h _ fun q hq =>
    hQ q (tables_pos_iff.mpr (Or.inr ⟨i, hi, hq⟩))

/-! ## §2  Addresses that find a page -/

def pageOf (R : Radix W) (ram : ℕ → ℕ → W) (h p x : ℕ) : Option ℕ :=
  (R.lookup ram h p x).map fun r => R.target r.2

def MapsLow (R : Radix W) (ram : ℕ → ℕ → W) (h p : ℕ) : Prop :=
  R.Every (fun e w => R.table e w = false → R.leaf e w = true → e = 0) ram h p

/-- The addresses of a tree of height `h`, by their highest digit. -/
theorem sum_digits (f : ℕ → ℕ) (h n : ℕ) : ∑ x ∈ Finset.range (n * R.fan ^ h), f x =
    ∑ i ∈ Finset.range n, ∑ y ∈ Finset.range (R.fan ^ h), f (i * R.fan ^ h + y) := by
  induction n with
  | zero => rw [Nat.zero_mul, Finset.sum_range_zero, Finset.sum_range_zero]
  | succ n ih => rw [Nat.succ_mul, Finset.sum_range_add, ih, Finset.sum_range_succ]

theorem digits_lt {i y : ℕ} (hi : i < R.fan) (hy : y < R.fan ^ h) :
    i * R.fan ^ h + y < R.fan ^ (h + 1) := by
  rw [pow_succ']
  exact Nat.lt_of_lt_of_le (Nat.add_lt_add_left hy _)
    (Nat.succ_mul i _ ▸ Nat.mul_le_mul_right _ hi)

def foundUnder (R : Radix W) (ram : ℕ → ℕ → W) (h : ℕ) (w : W) (q x : ℕ) : ℕ :=
  if (R.follow ram h w x).map (fun r => R.target r.2) = some q then 1 else 0

theorem lookup_digits {i y : ℕ} (hi : i < R.fan) (hy : y < R.fan ^ h) :
    R.lookup ram h p (i * R.fan ^ h + y) = R.follow ram h (ram p i) y := by
  have hpos : 0 < R.fan ^ h := Nat.pow_pos R.fan_pos
  have hdigit : R.digit h (i * R.fan ^ h + y) = i := by
    rw [digit, Nat.add_comm, Nat.add_mul_div_right _ _ hpos, Nat.div_eq_of_lt hy, Nat.zero_add,
      Nat.mod_eq_of_lt hi]
  rw [lookup, hdigit]
  cases h with
  | zero => rfl
  | succ h =>
      have hle : h + 1 ≤ h + 1 := Nat.le_refl _
      have hmod : (i * R.fan ^ (h + 1) + y) % R.fan ^ (h + 1) = y % R.fan ^ (h + 1) := by
        rw [Nat.add_comm, Nat.add_mul_mod_self_right]
      rw [← follow_mod ram hle, hmod, follow_mod ram hle]

theorem leavesUnder_eq_sum (hlow : (R.table h w = false → R.leaf h w = true → h = 0) ∧
      R.EveryUnder (fun e w => R.table e w = false → R.leaf e w = true → e = 0) ram h w) :
    R.leavesUnder ram h w q = ∑ x ∈ Finset.range (R.fan ^ h), R.foundUnder ram h w q x := by
  induction h generalizing w with
  | zero =>
      rw [pow_zero, Finset.sum_range_one, leavesUnder, foundUnder, follow]
      by_cases hleaf : R.leaf 0 w = true
      · simp only [hleaf, if_true, true_and, Option.map_some, Option.some.injEq, eq_comm]
      · rw [if_neg hleaf, if_neg fun hw => hleaf hw.1, if_neg (by simp)]
  | succ h ih =>
      by_cases hw : R.table (h + 1) w = true
      · rw [leavesUnder_table hw, pow_succ', sum_digits]
        refine Finset.sum_congr rfl fun i hi => ?_
        have hi' := Finset.mem_range.mp hi
        rw [ih (hlow.2 hw i hi')]
        refine Finset.sum_congr rfl fun y hy => ?_
        rw [foundUnder, foundUnder, follow_table hw,
          lookup_digits hi' (Finset.mem_range.mp hy)]
      · have hnot : R.table (h + 1) w = false := Bool.eq_false_iff.mpr hw
        have hleaf : R.leaf (h + 1) w = false := by
          by_contra hne
          exact absurd (hlow.1 hnot (Bool.eq_true_of_not_eq_false hne)) (Nat.succ_ne_zero h)
        rw [leavesUnder_none hleaf hnot]
        refine (Finset.sum_eq_zero fun x _ => ?_).symm
        rw [foundUnder, follow_none hleaf hnot]
        exact if_neg (by simp)

/-- A page is mapped by one word for each address that finds it. -/
theorem leaves_eq_card (hlow : R.MapsLow ram h p) :
    R.leaves ram h p q =
      ((Finset.range (R.fan ^ (h + 1))).filter fun x => R.pageOf ram h p x = some q).card := by
  rw [Finset.card_filter, pow_succ', sum_digits]
  refine Finset.sum_congr rfl fun i hi => ?_
  have hi' := Finset.mem_range.mp hi
  rw [leavesUnder_eq_sum (hlow i hi')]
  refine Finset.sum_congr rfl fun y hy => ?_
  rw [pageOf, lookup_digits hi' (Finset.mem_range.mp hy), foundUnder]

/-- What holds of the words that map an address holds of all words that map. -/
theorem Every.of_lookup {P Q : ℕ → W → Prop} (hall : R.Every P ram h p)
    (hfound : ∀ x < R.fan ^ (h + 1), ∀ e u, R.lookup ram h p x = some (e, u) → Q e u) :
    R.Every (fun e w => P e w ∧ (R.table e w = false → R.leaf e w = true → Q e w)) ram h p := by
  have hunder : ∀ (h : ℕ) (w : W), P h w → R.EveryUnder P ram h w →
      (∀ y < R.fan ^ h, ∀ e u, R.follow ram h w y = some (e, u) → Q e u) →
      (P h w ∧ (R.table h w = false → R.leaf h w = true → Q h w)) ∧
        R.EveryUnder (fun e w => P e w ∧ (R.table e w = false → R.leaf e w = true → Q e w))
          ram h w := by
    intro h
    induction h with
    | zero =>
        intro w hP _ hw
        exact ⟨⟨hP, fun hnot hleaf => hw 0 Nat.one_pos 0 w (follow_leaf hleaf hnot)⟩, trivial⟩
    | succ h ih =>
        intro w hP hall hw
        refine ⟨⟨hP, fun hnot hleaf => hw 0 (Nat.pow_pos R.fan_pos) _ w
          (follow_leaf hleaf hnot)⟩, fun htable i hi => ?_⟩
        refine ih _ (hall htable i hi).1 (hall htable i hi).2 fun y hy e u hu => ?_
        refine hw (i * R.fan ^ h + y) (digits_lt hi hy) e u ?_
        rw [follow_table htable, lookup_digits hi hy, hu]
  intro i hi
  refine hunder h _ (hall i hi).1 (hall i hi).2 fun y hy e u hu => ?_
  refine hfound (i * R.fan ^ h + y) (digits_lt hi hy) e u ?_
  rw [lookup_digits hi hy, hu]

end Rpos.Base.Radix
