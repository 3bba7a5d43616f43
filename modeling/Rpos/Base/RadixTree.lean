import Mathlib.Algebra.BigOperators.Group.Finset.Basic
import Mathlib.Algebra.Order.BigOperators.Group.Finset

/-!
# Radix trees in memory

A memory of pages of words holds a tree of tables. The table at height `h + 1`
is indexed by the digit `h + 1` of an address; its words name tables of height
`h` or stand for mappings themselves. The tables of a tree are counted, so that
`Distinct` says that no page is used as a table twice. A store to the slot that
the walk for an address has reached changes the lookups that go through this
slot and no others.
-/

namespace Rpos.Base

/-- How the words of a table of a height are read. Below height 1 no word
names a table, whatever `table` says. -/
structure Radix (W : Type*) where
  fan : ℕ
  fan_pos : 0 < fan
  table : ℕ → W → Bool
  leaf : ℕ → W → Bool
  target : W → ℕ

namespace Radix

variable {W : Type*} (R : Radix W)

/-! ## §1  Lookup -/

def digit (h x : ℕ) : ℕ := x / R.fan ^ h % R.fan

theorem digit_lt (h x : ℕ) : R.digit h x < R.fan := Nat.mod_lt _ R.fan_pos

/-- The mapping of `x` under the word `w` of a table of height `h`: the word
that maps it and the height of its table. -/
def follow (ram : ℕ → ℕ → W) : ℕ → W → ℕ → Option (ℕ × W)
  | 0, w, _ => if R.leaf 0 w then some (0, w) else none
  | h + 1, w, x =>
      if R.table (h + 1) w then follow ram h (ram (R.target w) (R.digit h x)) x
      else if R.leaf (h + 1) w then some (h + 1, w) else none

/-- The mapping of `x` in the tree of height `h` at the page `p`. -/
def lookup (ram : ℕ → ℕ → W) (h p x : ℕ) : Option (ℕ × W) :=
  R.follow ram h (ram p (R.digit h x)) x

def tablesUnder (ram : ℕ → ℕ → W) : ℕ → W → ℕ → ℕ
  | 0, _, _ => 0
  | h + 1, w, q =>
      if R.table (h + 1) w then
        (if q = R.target w then 1 else 0) +
          ∑ i ∈ Finset.range R.fan, tablesUnder ram h (ram (R.target w) i) q
      else 0

def tables (ram : ℕ → ℕ → W) (h p q : ℕ) : ℕ :=
  (if q = p then 1 else 0) +
    ∑ i ∈ Finset.range R.fan, R.tablesUnder ram h (ram p i) q

def Distinct (ram : ℕ → ℕ → W) (h p : ℕ) : Prop :=
  ∀ q, R.tables ram h p q ≤ 1

def EveryUnder (P : ℕ → W → Prop) (ram : ℕ → ℕ → W) : ℕ → W → Prop
  | 0, _ => True
  | h + 1, w => R.table (h + 1) w = true → ∀ i < R.fan,
      P h (ram (R.target w) i) ∧ EveryUnder P ram h (ram (R.target w) i)

def Every (P : ℕ → W → Prop) (ram : ℕ → ℕ → W) (h p : ℕ) : Prop :=
  ∀ i < R.fan, P h (ram p i) ∧ R.EveryUnder P ram h (ram p i)

/-- The walk for `v` from the table `p` of height `h` reaches the table `q` of
height `e`. -/
inductive Reaches (ram : ℕ → ℕ → W) (v : ℕ) : ℕ → ℕ → ℕ → ℕ → Prop
  | here {h p : ℕ} : Reaches ram v h p h p
  | step {h p e q : ℕ} : R.table (h + 1) (ram p (R.digit (h + 1) v)) = true →
      Reaches ram v h (R.target (ram p (R.digit (h + 1) v))) e q →
      Reaches ram v (h + 1) p e q

def SameSlot (e h x v : ℕ) : Prop :=
  ∀ j, e ≤ j → j ≤ h → R.digit j x = R.digit j v

section Unfold

variable {R} {ram : ℕ → ℕ → W} {P : ℕ → W → Prop} {h p q x i : ℕ} {w : W}

theorem follow_table (hw : R.table (h + 1) w = true) :
    R.follow ram (h + 1) w x = R.lookup ram h (R.target w) x :=
  if_pos hw

theorem follow_leaf (hw : R.leaf h w = true) (hnot : R.table h w = false) :
    R.follow ram h w x = some (h, w) := by
  cases h with
  | zero => exact if_pos hw
  | succ h => rw [follow, hnot, hw]; rfl

theorem follow_none (hw : R.leaf h w = false) (hnot : R.table h w = false) :
    R.follow ram h w x = none := by
  cases h with
  | zero => rw [follow, hw]; rfl
  | succ h => rw [follow, hnot, hw]; rfl

theorem follow_height_le {e : ℕ} {u : W} (hmap : R.follow ram h w x = some (e, u)) :
    e ≤ h := by
  induction h generalizing w with
  | zero =>
      rw [follow, Option.ite_none_right_eq_some] at hmap
      exact (Prod.mk.inj (Option.some.inj hmap.2)).1.symm.le
  | succ h ih =>
      rw [follow] at hmap
      split_ifs at hmap
      · exact Nat.le_succ_of_le (ih hmap)
      · exact (Prod.mk.inj (Option.some.inj hmap)).1.symm.le

theorem tablesUnder_table (hw : R.table (h + 1) w = true) :
    R.tablesUnder ram (h + 1) w q = R.tables ram h (R.target w) q :=
  if_pos hw

theorem tablesUnder_none (hnot : R.table h w = false) :
    R.tablesUnder ram h w q = 0 := by
  cases h with
  | zero => rfl
  | succ h => rw [tablesUnder, hnot]; rfl

theorem everyUnder_table (hw : R.table (h + 1) w = true) :
    R.EveryUnder P ram (h + 1) w ↔ R.Every P ram h (R.target w) :=
  ⟨fun hall => hall hw, fun hall _ => hall⟩

theorem everyUnder_none (hnot : R.table h w = false) :
    R.EveryUnder P ram h w := by
  cases h with
  | zero => trivial
  | succ h =>
      intro hw
      rw [hnot] at hw
      exact absurd hw (by decide)

theorem everyUnder_true (h : ℕ) (w : W) :
    R.EveryUnder (fun _ _ => True) ram h w := by
  induction h generalizing w with
  | zero => trivial
  | succ h ih => exact fun _ i _ => ⟨trivial, ih _⟩

theorem every_true (p : ℕ) : R.Every (fun _ _ => True) ram h p :=
  fun _ _ => ⟨trivial, everyUnder_true h _⟩

theorem EveryUnder.mono {Q : ℕ → W → Prop} (hPQ : ∀ j w, P j w → Q j w)
    (hall : R.EveryUnder P ram h w) : R.EveryUnder Q ram h w := by
  induction h generalizing w with
  | zero => trivial
  | succ h ih => exact fun hw i hi => ⟨hPQ _ _ (hall hw i hi).1, ih (hall hw i hi).2⟩

theorem Every.mono {Q : ℕ → W → Prop} (hPQ : ∀ j w, P j w → Q j w)
    (hall : R.Every P ram h p) : R.Every Q ram h p :=
  fun i hi => ⟨hPQ _ _ (hall i hi).1, (hall i hi).2.mono hPQ⟩

theorem Every.lookup {e : ℕ} {u : W} (hall : R.Every P ram h p)
    (hmap : R.lookup ram h p x = some (e, u)) : P e u := by
  induction h generalizing p with
  | zero =>
      rw [Radix.lookup, follow, Option.ite_none_right_eq_some, Option.some.injEq,
        Prod.mk.injEq] at hmap
      obtain ⟨-, rfl, rfl⟩ := hmap
      exact (hall _ (R.digit_lt 0 x)).1
  | succ h ih =>
      obtain ⟨hword, hunder⟩ := hall _ (R.digit_lt (h + 1) x)
      by_cases htable : R.table (h + 1) (ram p (R.digit (h + 1) x)) = true
      · rw [Radix.lookup, follow_table htable] at hmap
        exact ih ((everyUnder_table htable).mp hunder) hmap
      · rw [Radix.lookup, follow, if_neg htable, Option.ite_none_right_eq_some,
          Option.some.injEq, Prod.mk.injEq] at hmap
        obtain ⟨-, rfl, rfl⟩ := hmap
        exact hword

theorem tables_self : 0 < R.tables ram h p p := by
  rw [tables, if_pos rfl]
  exact Nat.lt_of_lt_of_le Nat.one_pos (Nat.le_add_right 1 _)

theorem tablesUnder_le (hi : i < R.fan) :
    R.tablesUnder ram h (ram p i) q ≤ R.tables ram h p q := by
  refine le_trans ?_ (Nat.le_add_left _ _)
  exact Finset.single_le_sum (f := fun i => R.tablesUnder ram h (ram p i) q)
    (fun _ _ => Nat.zero_le _) (Finset.mem_range.mpr hi)

theorem Reaches.tables_pos {v e : ℕ} (hr : R.Reaches ram v h p e q) :
    0 < R.tables ram h p q := by
  induction hr with
  | here => exact tables_self
  | step hw _ ih =>
      refine Nat.lt_of_lt_of_le ih ?_
      rw [← tablesUnder_table hw]
      exact tablesUnder_le (R.digit_lt _ _)

theorem Reaches.height_le {v e : ℕ} (hr : R.Reaches ram v h p e q) : e ≤ h := by
  induction hr with
  | here => exact Nat.le_refl _
  | step _ _ ih => exact Nat.le_succ_of_le ih

theorem Reaches.next {v e : ℕ} (hr : R.Reaches ram v h p (e + 1) q)
    (hw : R.table (e + 1) (ram q (R.digit (e + 1) v)) = true) :
    R.Reaches ram v h p e (R.target (ram q (R.digit (e + 1) v))) := by
  generalize he : e + 1 = e' at hr
  induction hr with
  | here =>
      subst he
      exact .step hw .here
  | step hw' _ ih => exact .step hw' (ih hw he)

theorem Reaches.lookup_eq {v e : ℕ} (hr : R.Reaches ram v h p e q) :
    R.lookup ram h p v = R.lookup ram e q v := by
  induction hr with
  | here => rfl
  | step hw _ ih =>
      rw [← ih]
      exact follow_table hw

theorem Reaches.every {v e : ℕ} (hr : R.Reaches ram v h p e q)
    (hall : R.Every P ram h p) : R.Every P ram e q := by
  induction hr with
  | here => exact hall
  | step hw _ ih => exact ih ((everyUnder_table hw).mp (hall _ (R.digit_lt _ _)).2)

end Unfold

/-! ## §2  Frames -/

section Frame

variable {R} {ram ram' : ℕ → ℕ → W} {P : ℕ → W → Prop} {h p v : ℕ} {w : W}

theorem keep_child (hw : R.table (h + 1) w = true)
    (hkeep : ∀ q, 0 < R.tablesUnder ram (h + 1) w q → ram' q = ram q) :
    ram' (R.target w) = ram (R.target w) ∧ ∀ i < R.fan, ∀ q,
      0 < R.tablesUnder ram h (ram (R.target w) i) q → ram' q = ram q := by
  constructor
  · refine hkeep _ ?_
    rw [tablesUnder_table hw]
    exact tables_self
  · intro i hi q hq
    refine hkeep q (Nat.lt_of_lt_of_le hq ?_)
    rw [tablesUnder_table hw]
    exact tablesUnder_le hi

theorem follow_congr (x : ℕ)
    (hkeep : ∀ q, 0 < R.tablesUnder ram h w q → ram' q = ram q) :
    R.follow ram' h w x = R.follow ram h w x := by
  induction h generalizing w with
  | zero => rfl
  | succ h ih =>
      rw [follow, follow]
      by_cases hw : R.table (h + 1) w = true
      · obtain ⟨hself, hchild⟩ := keep_child hw hkeep
        rw [if_pos hw, if_pos hw, hself]
        exact ih (hchild _ (R.digit_lt h x))
      · rw [if_neg hw, if_neg hw]

theorem tablesUnder_congr (y : ℕ)
    (hkeep : ∀ q, 0 < R.tablesUnder ram h w q → ram' q = ram q) :
    R.tablesUnder ram' h w y = R.tablesUnder ram h w y := by
  induction h generalizing w with
  | zero => rfl
  | succ h ih =>
      rw [tablesUnder, tablesUnder]
      by_cases hw : R.table (h + 1) w = true
      · obtain ⟨hself, hchild⟩ := keep_child hw hkeep
        rw [if_pos hw, if_pos hw, hself]
        congr 1
        refine Finset.sum_congr rfl fun i hi => ?_
        exact ih (hchild i (Finset.mem_range.mp hi))
      · rw [if_neg hw, if_neg hw]

theorem everyUnder_congr
    (hkeep : ∀ q, 0 < R.tablesUnder ram h w q → ram' q = ram q)
    (hall : R.EveryUnder P ram h w) : R.EveryUnder P ram' h w := by
  induction h generalizing w with
  | zero => trivial
  | succ h ih =>
      intro hw i hi
      obtain ⟨hself, hchild⟩ := keep_child hw hkeep
      rw [hself]
      exact ⟨(hall hw i hi).1, ih (hchild i hi) (hall hw i hi).2⟩

theorem keep_words (hkeep : ∀ q, 0 < R.tables ram h p q → ram' q = ram q) :
    ram' p = ram p ∧ ∀ i < R.fan, ∀ q,
      0 < R.tablesUnder ram h (ram p i) q → ram' q = ram q :=
  ⟨hkeep p tables_self,
    fun _ hi q hq => hkeep q (Nat.lt_of_lt_of_le hq (tablesUnder_le hi))⟩

theorem lookup_congr (x : ℕ)
    (hkeep : ∀ q, 0 < R.tables ram h p q → ram' q = ram q) :
    R.lookup ram' h p x = R.lookup ram h p x := by
  obtain ⟨hself, hchild⟩ := keep_words hkeep
  rw [lookup, lookup, hself]
  exact follow_congr x (hchild _ (R.digit_lt h x))

theorem tables_congr (y : ℕ)
    (hkeep : ∀ q, 0 < R.tables ram h p q → ram' q = ram q) :
    R.tables ram' h p y = R.tables ram h p y := by
  obtain ⟨hself, hchild⟩ := keep_words hkeep
  rw [tables, tables, hself]
  congr 1
  exact Finset.sum_congr rfl fun i hi =>
    tablesUnder_congr y (hchild i (Finset.mem_range.mp hi))

theorem every_congr (hkeep : ∀ q, 0 < R.tables ram h p q → ram' q = ram q)
    (hall : R.Every P ram h p) : R.Every P ram' h p := by
  obtain ⟨hself, hchild⟩ := keep_words hkeep
  intro i hi
  rw [hself]
  exact ⟨(hall i hi).1, everyUnder_congr (hchild i hi) (hall i hi).2⟩

theorem Reaches.congr {e q : ℕ} (hr : R.Reaches ram v h p e q)
    (hkeep : ∀ q, 0 < R.tables ram h p q → ram' q = ram q) :
    R.Reaches ram' v h p e q := by
  induction hr with
  | here => exact .here
  | @step h p e _ hw _ ih =>
      obtain ⟨hself, hchild⟩ := keep_words hkeep
      refine .step (by rw [hself]; exact hw) ?_
      rw [hself]
      refine ih fun q hq => hchild _ (R.digit_lt (h + 1) v) q ?_
      rw [tablesUnder_table hw]
      exact hq

end Frame

/-! ## §3  Distinct tables -/

section Apart

variable {R} {ram : ℕ → ℕ → W} {h p q i j : ℕ}

theorem Distinct.root (hd : R.Distinct ram h p) (hi : i < R.fan) :
    R.tablesUnder ram h (ram p i) p = 0 := by
  have hone := hd p
  rw [tables, if_pos rfl] at hone
  have hsum : ∑ i ∈ Finset.range R.fan, R.tablesUnder ram h (ram p i) p = 0 := by
    omega
  exact Finset.sum_eq_zero_iff.mp hsum i (Finset.mem_range.mpr hi)

theorem Distinct.apart (hd : R.Distinct ram h p) (hi : i < R.fan)
    (hj : j < R.fan) (hij : i ≠ j)
    (hq : 0 < R.tablesUnder ram h (ram p i) q) :
    R.tablesUnder ram h (ram p j) q = 0 := by
  have hpair : ∑ k ∈ {i, j}, R.tablesUnder ram h (ram p k) q ≤
      ∑ k ∈ Finset.range R.fan, R.tablesUnder ram h (ram p k) q := by
    refine Finset.sum_le_sum_of_subset fun k hk => ?_
    rcases Finset.mem_insert.mp hk with rfl | hk
    · exact Finset.mem_range.mpr hi
    · rw [Finset.mem_singleton.mp hk]
      exact Finset.mem_range.mpr hj
  rw [Finset.sum_pair hij] at hpair
  have hone := hd q
  rw [tables] at hone
  omega

theorem Distinct.child (hd : R.Distinct ram (h + 1) p) (hi : i < R.fan)
    (hw : R.table (h + 1) (ram p i) = true) :
    R.Distinct ram h (R.target (ram p i)) := by
  intro q
  rw [← tablesUnder_table hw]
  exact le_trans (tablesUnder_le hi) (hd q)

end Apart

/-! ## §4  A store to a slot of the walk -/

def setWord (ram : ℕ → ℕ → W) (t j : ℕ) (w : W) : ℕ → ℕ → W :=
  Function.update ram t (Function.update (ram t) j w)

section Store

theorem setWord_self (ram : ℕ → ℕ → W) (t j : ℕ) (w : W) :
    setWord ram t j w t j = w := by
  rw [setWord, Function.update_self, Function.update_self]

theorem setWord_slot (ram : ℕ → ℕ → W) {t j i : ℕ} (w : W) (hne : i ≠ j) :
    setWord ram t j w t i = ram t i := by
  rw [setWord, Function.update_self, Function.update_of_ne hne]

theorem setWord_page (ram : ℕ → ℕ → W) {t j q : ℕ} (w : W) (hne : q ≠ t) :
    setWord ram t j w q = ram q :=
  Function.update_of_ne hne _ _

variable {R} {ram : ℕ → ℕ → W} {P : ℕ → W → Prop} {h p v e t : ℕ} {w : W}

/-- The store leaves what lies under a word without the table `t`. -/
theorem setWord_keeps {h j : ℕ} {u : W} (hnot : R.tablesUnder ram h u t = 0) :
    ∀ q, 0 < R.tablesUnder ram h u q → setWord ram t j w q = ram q := by
  intro q hq
  refine setWord_page ram w ?_
  rintro rfl
  rw [hnot] at hq
  exact absurd hq (Nat.lt_irrefl 0)

/-- The table that the walk reaches lies under the word of the first step, and
is not the first table. -/
theorem Distinct.step_apart (hd : R.Distinct ram (h + 1) p)
    (hw : R.table (h + 1) (ram p (R.digit (h + 1) v)) = true)
    (hr : R.Reaches ram v h (R.target (ram p (R.digit (h + 1) v))) e t) :
    p ≠ t ∧ ∀ i < R.fan, i ≠ R.digit (h + 1) v →
      R.tablesUnder ram (h + 1) (ram p i) t = 0 := by
  have hunder : 0 < R.tablesUnder ram (h + 1) (ram p (R.digit (h + 1) v)) t := by
    rw [tablesUnder_table hw]
    exact hr.tables_pos
  constructor
  · rintro rfl
    rw [hd.root (R.digit_lt _ _)] at hunder
    exact absurd hunder (Nat.lt_irrefl 0)
  · exact fun i hi hne => hd.apart (R.digit_lt _ _) hi hne.symm hunder

theorem sameSlot_self (x : ℕ) :
    R.SameSlot h h x v ↔ R.digit h x = R.digit h v := by
  constructor
  · exact fun hs => hs h (le_refl h) (le_refl h)
  · intro hx j hj hj'
    rw [Nat.le_antisymm hj' hj]
    exact hx

theorem sameSlot_succ {x : ℕ} (he : e ≤ h) :
    R.SameSlot e (h + 1) x v ↔
      R.digit (h + 1) x = R.digit (h + 1) v ∧ R.SameSlot e h x v := by
  constructor
  · exact fun hs => ⟨hs _ (Nat.le_succ_of_le he) (le_refl _),
      fun j hj hj' => hs j hj (Nat.le_succ_of_le hj')⟩
  · rintro ⟨htop, hs⟩ j hj hj'
    rcases Nat.lt_or_eq_of_le hj' with hlt | rfl
    · exact hs j hj (Nat.le_of_lt_succ hlt)
    · exact htop

/-- The lookups after a store: those through the slot find what the new word
names, the others find what they found. -/
theorem Reaches.lookup_set (hr : R.Reaches ram v h p e t)
    (hd : R.Distinct ram h p) (x : ℕ) :
    (R.SameSlot e h x v →
      R.lookup (setWord ram t (R.digit e v) w) h p x =
        R.follow (setWord ram t (R.digit e v) w) e w x) ∧
    (¬ R.SameSlot e h x v →
      R.lookup (setWord ram t (R.digit e v) w) h p x = R.lookup ram h p x) := by
  induction hr with
  | @here h p =>
      rw [sameSlot_self]
      constructor
      · intro hx
        rw [lookup, hx, setWord_self]
      · intro hx
        rw [lookup, setWord_slot ram w hx]
        exact follow_congr x (setWord_keeps (hd.root (R.digit_lt _ _)))
  | @step h p e t hw hrest ih =>
      obtain ⟨hne, hothers⟩ := hd.step_apart hw hrest
      have hchild := ih (hd.child (R.digit_lt _ _) hw)
      have hpage := setWord_page ram (j := R.digit e v) w hne
      rw [sameSlot_succ hrest.height_le]
      by_cases hx : R.digit (h + 1) x = R.digit (h + 1) v
      · have hbefore : R.lookup ram (h + 1) p x =
            R.lookup ram h (R.target (ram p (R.digit (h + 1) v))) x := by
          rw [lookup, hx, follow_table hw]
        have hafter : R.lookup (setWord ram t (R.digit e v) w) (h + 1) p x =
            R.lookup (setWord ram t (R.digit e v) w) h
              (R.target (ram p (R.digit (h + 1) v))) x := by
          rw [lookup, hpage, hx, follow_table hw]
        rw [hbefore, hafter]
        exact ⟨fun hs => hchild.1 hs.2, fun hs => hchild.2 fun hs' => hs ⟨hx, hs'⟩⟩
      · refine ⟨fun hs => absurd hs.1 hx, fun _ => ?_⟩
        rw [lookup, hpage]
        exact follow_congr x
          (setWord_keeps (hothers _ (R.digit_lt _ _) hx))

/-- The tables after a store to a slot whose word named none. -/
theorem Reaches.tables_set (hr : R.Reaches ram v h p e t)
    (hd : R.Distinct ram h p) (y : ℕ)
    (hold : R.tablesUnder ram e (ram t (R.digit e v)) y = 0) :
    R.tables (setWord ram t (R.digit e v) w) h p y =
      R.tables ram h p y +
        R.tablesUnder (setWord ram t (R.digit e v) w) e w y := by
  induction hr with
  | @here h p =>
      have hmem : R.digit h v ∈ Finset.range R.fan :=
        Finset.mem_range.mpr (R.digit_lt _ _)
      rw [tables, tables, ← Finset.add_sum_erase _ _ hmem,
        ← Finset.add_sum_erase _ (fun i => R.tablesUnder ram h (ram p i) y) hmem,
        setWord_self, hold]
      have hrest : ∀ i ∈ (Finset.range R.fan).erase (R.digit h v),
          R.tablesUnder (setWord ram p (R.digit h v) w) h
            (setWord ram p (R.digit h v) w p i) y =
          R.tablesUnder ram h (ram p i) y := by
        intro i hi
        rw [setWord_slot ram w (Finset.ne_of_mem_erase hi)]
        exact tablesUnder_congr y (setWord_keeps
          (hd.root (Finset.mem_range.mp (Finset.mem_of_mem_erase hi))))
      rw [Finset.sum_congr rfl hrest]
      omega
  | @step h p e t hw hrest ih =>
      obtain ⟨hne, hothers⟩ := hd.step_apart hw hrest
      have hchild := ih (hd.child (R.digit_lt _ _) hw) hold
      have hpage := setWord_page ram (j := R.digit e v) w hne
      have hmem : R.digit (h + 1) v ∈ Finset.range R.fan :=
        Finset.mem_range.mpr (R.digit_lt _ _)
      rw [tables, tables, ← Finset.add_sum_erase _ _ hmem,
        ← Finset.add_sum_erase _
          (fun i => R.tablesUnder ram (h + 1) (ram p i) y) hmem,
        hpage, tablesUnder_table hw, tablesUnder_table hw, hchild]
      have hsame : ∀ i ∈ (Finset.range R.fan).erase (R.digit (h + 1) v),
          R.tablesUnder (setWord ram t (R.digit e v) w) (h + 1) (ram p i) y =
          R.tablesUnder ram (h + 1) (ram p i) y := by
        intro i hi
        exact tablesUnder_congr y (setWord_keeps
          (hothers i (Finset.mem_range.mp (Finset.mem_of_mem_erase hi))
            (Finset.ne_of_mem_erase hi)))
      rw [Finset.sum_congr rfl hsame]
      omega

theorem Reaches.every_set (hr : R.Reaches ram v h p e t)
    (hd : R.Distinct ram h p) (hall : R.Every P ram h p) (hP : P e w)
    (hunder : R.EveryUnder P (setWord ram t (R.digit e v) w) e w) :
    R.Every P (setWord ram t (R.digit e v) w) h p := by
  induction hr with
  | @here h p =>
      intro i hi
      by_cases hij : i = R.digit h v
      · rw [hij, setWord_self]
        exact ⟨hP, hunder⟩
      · rw [setWord_slot ram w hij]
        exact ⟨(hall i hi).1,
          everyUnder_congr (setWord_keeps (hd.root hi)) (hall i hi).2⟩
  | @step h p e t hw hrest ih =>
      obtain ⟨hne, hothers⟩ := hd.step_apart hw hrest
      have hpage := setWord_page ram (j := R.digit e v) w hne
      intro i hi
      rw [hpage]
      refine ⟨(hall i hi).1, ?_⟩
      by_cases hij : i = R.digit (h + 1) v
      · subst hij
        rw [everyUnder_table hw]
        exact ih (hd.child hi hw) ((everyUnder_table hw).mp (hall _ hi).2) hP hunder
      · exact everyUnder_congr (setWord_keeps (hothers i hi hij)) (hall i hi).2

/-- The walk still reaches the table whose slot was stored to. -/
theorem Reaches.set (hr : R.Reaches ram v h p e t) (hd : R.Distinct ram h p) :
    R.Reaches (setWord ram t (R.digit e v) w) v h p e t := by
  induction hr with
  | here => exact .here
  | @step h p e t hw hrest ih =>
      have hne := (hd.step_apart hw hrest).1
      have hpage := setWord_page ram (j := R.digit e v) w hne
      refine .step (by rw [hpage]; exact hw) ?_
      rw [hpage]
      exact ih (hd.child (R.digit_lt _ _) hw)

end Store

/-! ## §5  Growing a table and placing a leaf -/

section Grow

variable {R} {ram : ℕ → ℕ → W} {P : ℕ → W → Prop} {h p v e t a : ℕ} {w : W}

def Void (w : W) : Prop := ∀ h, R.table h w = false ∧ R.leaf h w = false

theorem lookup_void {x : ℕ} (hvoid : ∀ i < R.fan, R.Void (ram p i)) :
    R.lookup ram h p x = none :=
  follow_none (hvoid _ (R.digit_lt _ _) h).2 (hvoid _ (R.digit_lt _ _) h).1

theorem tables_void {y : ℕ} (hvoid : ∀ i < R.fan, R.Void (ram p i)) :
    R.tables ram h p y = if y = p then 1 else 0 := by
  rw [tables, Finset.sum_eq_zero, Nat.add_zero]
  exact fun i hi => tablesUnder_none (hvoid i (Finset.mem_range.mp hi) h).1

theorem every_void (hvoid : ∀ i < R.fan, R.Void (ram p i))
    (hP : ∀ i < R.fan, P h (ram p i)) : R.Every P ram h p :=
  fun i hi => ⟨hP i hi, everyUnder_none (hvoid i hi h).1⟩

/-- The tree after an empty table at a new page `a` is entered in a void slot
of the walk. -/
structure Grown (R : Radix W) (P : ℕ → W → Prop) (v h p e a : ℕ)
    (ram ram' : ℕ → ℕ → W) : Prop where
  lookup : ∀ x, R.lookup ram' h p x = R.lookup ram h p x
  tables : ∀ y, R.tables ram' h p y = R.tables ram h p y + if y = a then 1 else 0
  every : R.Every P ram' h p
  reaches : R.Reaches ram' v h p e a

theorem Reaches.grow (hr : R.Reaches ram v h p (e + 1) t)
    (hd : R.Distinct ram h p) (hall : R.Every P ram h p)
    (hold : R.Void (ram t (R.digit (e + 1) v)))
    (hnew : R.tables ram h p a = 0) (hvoid : ∀ i < R.fan, R.Void (ram a i))
    (hzero : ∀ i < R.fan, P e (ram a i)) (hw : R.table (e + 1) w = true)
    (ha : R.target w = a) (hP : P (e + 1) w) :
    R.Grown P v h p e a ram (setWord ram t (R.digit (e + 1) v) w) := by
  have hne : a ≠ t := by
    rintro rfl
    exact absurd hr.tables_pos (by rw [hnew]; exact Nat.lt_irrefl 0)
  have hpage := setWord_page ram (j := R.digit (e + 1) v) w hne
  -- below the new word there is the empty table
  have hempty : ∀ i < R.fan,
      R.Void (setWord ram t (R.digit (e + 1) v) w a i) := by
    rw [hpage]
    exact hvoid
  refine ⟨?_, ?_, ?_, ?_⟩
  · intro x
    by_cases hx : R.SameSlot (e + 1) h x v
    · rw [(hr.lookup_set hd x).1 hx, follow_table hw, ha, lookup_void hempty]
      have hbefore := (hr.lookup_set (w := ram t (R.digit (e + 1) v)) hd x).1 hx
      rw [follow_none (hold _).2 (hold _).1] at hbefore
      rw [← hbefore, setWord, Function.update_eq_self, Function.update_eq_self]
    · exact (hr.lookup_set hd x).2 hx
  · intro y
    rw [hr.tables_set hd y (tablesUnder_none (hold _).1),
      tablesUnder_table hw, ha, tables_void hempty]
  · refine hr.every_set hd hall hP ?_
    rw [everyUnder_table hw, ha]
    refine every_void hempty ?_
    rw [hpage]
    exact hzero
  · have hset := hr.set hd (w := w)
    have hslot : R.table (e + 1) (setWord ram t (R.digit (e + 1) v) w t
        (R.digit (e + 1) v)) = true := by
      rw [setWord_self]
      exact hw
    have hnext := hset.next hslot
    rw [setWord_self, ha] at hnext
    exact hnext

theorem Grown.distinct {ram' : ℕ → ℕ → W} (hg : R.Grown P v h p e a ram ram')
    (hd : R.Distinct ram h p) (hnew : R.tables ram h p a = 0) :
    R.Distinct ram' h p := by
  intro q
  rw [hg.tables q]
  by_cases hq : q = a
  · rw [if_pos hq, hq, hnew]
  · rw [if_neg hq]
    exact hd q

/-- The tree after a word that maps is stored to a slot of the walk. -/
theorem Reaches.place (hr : R.Reaches ram v h p e t) (hd : R.Distinct ram h p)
    (hold : R.table e (ram t (R.digit e v)) = false)
    (hw : R.leaf e w = true) (hnot : R.table e w = false) :
    (∀ x, R.SameSlot e h x v →
      R.lookup (setWord ram t (R.digit e v) w) h p x = some (e, w)) ∧
    (∀ x, ¬ R.SameSlot e h x v →
      R.lookup (setWord ram t (R.digit e v) w) h p x = R.lookup ram h p x) ∧
    (∀ y, R.tables (setWord ram t (R.digit e v) w) h p y = R.tables ram h p y) ∧
    (R.Every P ram h p → P e w →
      R.Every P (setWord ram t (R.digit e v) w) h p) := by
  refine ⟨?_, ?_, ?_, ?_⟩
  · intro x hx
    rw [(hr.lookup_set hd x).1 hx]
    exact follow_leaf hw hnot
  · exact fun x hx => (hr.lookup_set hd x).2 hx
  · intro y
    rw [hr.tables_set hd y (tablesUnder_none hold), tablesUnder_none hnot,
      Nat.add_zero]
  · exact fun hall hP => hr.every_set hd hall hP (everyUnder_none hnot)

end Grow

/-! ## §6  Slots as numbers -/

section Digits

variable {R}

theorem digit_div (e j x : ℕ) : R.digit j (x / R.fan ^ e) = R.digit (e + j) x := by
  rw [digit, digit, Nat.div_div_eq_div_mul, ← pow_add]

theorem digit_mod {j h : ℕ} (hj : j ≤ h) (x : ℕ) :
    R.digit j (x % R.fan ^ (h + 1)) = R.digit j x := by
  have hpow : R.fan ^ (h + 1) = R.fan ^ j * R.fan ^ (h + 1 - j) := by
    rw [← pow_add, Nat.add_sub_cancel' (Nat.le_succ_of_le hj)]
  have hdvd : R.fan ∣ R.fan ^ (h + 1 - j) :=
    dvd_pow_self _ (Nat.sub_ne_zero_of_lt (Nat.lt_succ_of_le hj))
  rw [digit, digit, hpow, Nat.mod_mul_right_div_self, Nat.mod_mod_of_dvd _ hdvd]

theorem follow_mod (ram : ℕ → ℕ → W) {h n : ℕ} (hn : h ≤ n + 1) (w : W) (x : ℕ) :
    R.follow ram h w (x % R.fan ^ (n + 1)) = R.follow ram h w x := by
  induction h generalizing w with
  | zero => rfl
  | succ h ih =>
      rw [follow, follow, digit_mod (Nat.le_of_succ_le_succ hn),
        ih (Nat.le_of_succ_le hn)]

theorem lookup_mod (ram : ℕ → ℕ → W) (h p x : ℕ) :
    R.lookup ram h p (x % R.fan ^ (h + 1)) = R.lookup ram h p x := by
  rw [lookup, lookup, digit_mod (le_refl h), follow_mod ram (Nat.le_succ h)]

theorem sameSlot_zero_iff {n x v : ℕ} (hx : x < R.fan ^ (n + 1))
    (hv : v < R.fan ^ (n + 1)) : R.SameSlot 0 n x v ↔ x = v := by
  refine ⟨fun hs => ?_, fun hxv _ _ _ => by rw [hxv]⟩
  induction n generalizing x v with
  | zero =>
      have hlast := hs 0 (le_refl 0) (le_refl 0)
      rw [zero_add, pow_one] at hx hv
      rwa [digit, digit, pow_zero, Nat.div_one, Nat.div_one, Nat.mod_eq_of_lt hx,
        Nat.mod_eq_of_lt hv] at hlast
  | succ n ih =>
      have hpow : R.fan ^ (n + 1 + 1) = R.fan * R.fan ^ (n + 1) := by
        rw [pow_succ, Nat.mul_comm]
      rw [hpow] at hx hv
      have hhigh : x / R.fan = v / R.fan := by
        refine ih (Nat.div_lt_of_lt_mul hx) (Nat.div_lt_of_lt_mul hv) ?_
        intro j _ hj
        have hdigit := hs (1 + j) (Nat.zero_le _) (by omega)
        rwa [← digit_div, ← digit_div, pow_one] at hdigit
      have hlow : x % R.fan = v % R.fan := by
        have hlast := hs 0 (le_refl 0) (Nat.zero_le _)
        rwa [digit, digit, pow_zero, Nat.div_one, Nat.div_one] at hlast
      rw [← Nat.div_add_mod x R.fan, ← Nat.div_add_mod v R.fan, hhigh, hlow]

/-- Two addresses share a slot of height `e` when they lie in one aligned range
of `fan ^ e` addresses. -/
theorem sameSlot_iff {e h : ℕ} (he : e ≤ h) (x v : ℕ) :
    R.SameSlot e h x v ↔ x % R.fan ^ (h + 1) / R.fan ^ e =
      v % R.fan ^ (h + 1) / R.fan ^ e := by
  obtain ⟨n, rfl⟩ := Nat.exists_eq_add_of_le he
  have hlt : ∀ y, y % R.fan ^ (e + n + 1) / R.fan ^ e < R.fan ^ (n + 1) := by
    intro y
    refine Nat.div_lt_of_lt_mul ?_
    rw [← pow_add]
    exact Nat.mod_lt _ (Nat.pow_pos R.fan_pos)
  rw [← sameSlot_zero_iff (hlt x) (hlt v)]
  constructor
  · intro hs j _ hj
    have hle : e + j ≤ e + n := Nat.add_le_add_left hj e
    rw [digit_div, digit_div, digit_mod hle, digit_mod hle]
    exact hs (e + j) (Nat.le_add_right e j) hle
  · intro hs j hj hj'
    obtain ⟨i, rfl⟩ := Nat.exists_eq_add_of_le hj
    rw [← digit_mod hj', ← digit_mod hj' v, ← digit_div, ← digit_div]
    exact hs i (Nat.zero_le i) (Nat.le_of_add_le_add_left hj')

end Digits

/-! ## §7  The slots of one height -/

/-- The tree above height `c`: a used word of height `c` is a leaf. -/
def slots (R : Radix W) (c : ℕ) (used : W → Bool) : Radix W :=
  { R with
    table := fun h w => decide (c < h) && R.table h w
    leaf := fun h w => decide (h = c) && used w }

section Slots

variable {R} {ram : ℕ → ℕ → W} {c h p v e t x : ℕ} {used : W → Bool} {w : W}

theorem tablesUnder_slots_le (w : W) (q : ℕ) :
    (R.slots c used).tablesUnder ram h w q ≤ R.tablesUnder ram h w q := by
  induction h generalizing w with
  | zero => exact le_refl 0
  | succ h ih =>
      by_cases hw : (R.slots c used).table (h + 1) w = true
      · have hw' : R.table (h + 1) w = true := (Bool.and_eq_true_iff.mp hw).2
        rw [tablesUnder_table hw, tablesUnder_table hw', tables, tables]
        exact Nat.add_le_add_left (Finset.sum_le_sum fun i _ => ih _) _
      · rw [tablesUnder_none (Bool.not_eq_true _ ▸ hw)]
        exact Nat.zero_le _

theorem tables_slots_le (q : ℕ) :
    (R.slots c used).tables ram h p q ≤ R.tables ram h p q :=
  Nat.add_le_add_left (Finset.sum_le_sum fun _ _ => tablesUnder_slots_le _ q) _

theorem Distinct.slots (hd : R.Distinct ram h p) :
    (R.slots c used).Distinct ram h p :=
  fun q => le_trans (tables_slots_le q) (hd q)

theorem Reaches.slots (hr : R.Reaches ram v h p e t) (hc : c ≤ e) :
    (R.slots c used).Reaches ram v h p e t := by
  induction hr with
  | here => exact .here
  | step hw hrest ih =>
      refine .step (Bool.and_eq_true_iff.mpr ⟨?_, hw⟩) (ih hc)
      exact decide_eq_true (Nat.lt_succ_of_le (le_trans hc hrest.height_le))

/-- A table below height `c` is no table of the tree above it. -/
theorem Reaches.slots_lt (hr : R.Reaches ram v h p e t) (he : e < c) (hc : c ≤ h) :
    (R.slots c used).tables ram h p t < R.tables ram h p t := by
  induction hr with
  | here => exact absurd (Nat.lt_of_lt_of_le he hc) (Nat.lt_irrefl _)
  | @step h p e t hw hrest ih =>
      have hi : R.digit (h + 1) v ∈ Finset.range R.fan :=
        Finset.mem_range.mpr (R.digit_lt _ _)
      refine Nat.add_lt_add_left (Finset.sum_lt_sum
        (fun i _ => tablesUnder_slots_le (ram p i) t) ⟨_, hi, ?_⟩) _
      rw [tablesUnder_table hw]
      rcases Nat.lt_or_eq_of_le hc with hlt | rfl
      · have hslot : (R.slots c used).table (h + 1) (ram p (R.digit (h + 1) v)) = true :=
          Bool.and_eq_true_iff.mpr ⟨decide_eq_true hlt, hw⟩
        rw [tablesUnder_table hslot]
        exact ih he (Nat.le_of_lt_succ hlt)
      · rw [tablesUnder_none]
        · exact hrest.tables_pos
        · show (decide (h + 1 < h + 1) && _) = false
          rw [decide_eq_false (Nat.lt_irrefl _)]
          rfl

theorem follow_slots (hused : used w = true) :
    (R.slots c used).follow ram c w x = some (c, w) := by
  refine follow_leaf ?_ ?_
  · show (decide (c = c) && used w) = true
    rw [decide_eq_true rfl, hused]
    rfl
  · show (decide (c < c) && R.table c w) = false
    rw [decide_eq_false (Nat.lt_irrefl c)]
    rfl

theorem follow_slots_none (hused : used w = false) :
    (R.slots c used).follow ram c w x = none := by
  refine follow_none ?_ ?_
  · show (decide (c = c) && used w) = false
    rw [hused, Bool.and_false]
  · show (decide (c < c) && R.table c w) = false
    rw [decide_eq_false (Nat.lt_irrefl c)]
    rfl

theorem lookup_slots_congr (hc : c ≤ h) (hs : R.SameSlot c h x v) :
    (R.slots c used).lookup ram h p x = (R.slots c used).lookup ram h p v := by
  obtain ⟨n, rfl⟩ := Nat.exists_eq_add_of_le hc
  induction n generalizing p with
  | zero =>
      have hdigit : (R.slots c used).digit c x = (R.slots c used).digit c v :=
        hs c (le_refl c) (le_refl c)
      rw [Nat.add_zero, lookup, lookup, hdigit]
      cases hused : used (ram p ((R.slots c used).digit c v)) with
      | true => rw [follow_slots hused, follow_slots hused]
      | false => rw [follow_slots_none hused, follow_slots_none hused]
  | succ n ih =>
      obtain ⟨htop, hrest⟩ := (sameSlot_succ (Nat.le_add_right c n)).mp hs
      have hdigit : (R.slots c used).digit (c + n + 1) x =
          (R.slots c used).digit (c + n + 1) v := htop
      rw [← Nat.add_assoc, lookup, lookup, hdigit, follow, follow]
      have hchild := fun q => ih (p := q) (Nat.le_add_right c n) hrest
      simp only [lookup] at hchild
      rw [hchild]

/-- Where the slot is unused nothing is mapped, if the words above it map
nothing. -/
theorem lookup_of_slots_none {P : ℕ → W → Prop} (hc : c ≤ h)
    (hall : R.Every P ram h p) (hleaf : ∀ j w, c < j → P j w → R.leaf j w = false)
    (hvoid : ∀ w, used w = false → R.Void w)
    (hnone : (R.slots c used).lookup ram h p x = none) :
    R.lookup ram h p x = none := by
  obtain ⟨n, rfl⟩ := Nat.exists_eq_add_of_le hc
  induction n generalizing p with
  | zero =>
      rw [Nat.add_zero, lookup] at hnone
      cases hused : used (ram p ((R.slots c used).digit c x)) with
      | true =>
          rw [follow_slots hused] at hnone
          exact absurd hnone (Option.some_ne_none _)
      | false => exact follow_none (hvoid _ hused c).2 (hvoid _ hused c).1
  | succ n ih =>
      obtain ⟨hP, hunder⟩ := hall _ (R.digit_lt (c + n + 1) x)
      have hlt : c < c + n + 1 := Nat.lt_succ_of_le (Nat.le_add_right c n)
      by_cases hw : R.table (c + n + 1) (ram p (R.digit (c + n + 1) x)) = true
      · have hslot : (R.slots c used).table (c + n + 1)
            (ram p (R.digit (c + n + 1) x)) = true :=
          Bool.and_eq_true_iff.mpr ⟨decide_eq_true hlt, hw⟩
        have hbefore : (R.slots c used).lookup ram (c + n + 1) p x =
            (R.slots c used).lookup ram (c + n) (R.target (ram p (R.digit (c + n + 1) x))) x :=
          follow_table hslot
        rw [← Nat.add_assoc] at hnone ⊢
        rw [hbefore] at hnone
        rw [lookup, follow_table hw]
        exact ih (Nat.le_add_right c n) ((everyUnder_table hw).mp hunder) hnone
      · exact follow_none (hleaf _ _ hlt hP) (Bool.not_eq_true _ ▸ hw)

end Slots

end Radix

end Rpos.Base
