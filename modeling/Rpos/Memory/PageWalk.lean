import Rpos.Base.RadixTree
import Rpos.Memory.Mmap

/-!
# Page tables as radix trees

The tables that the MMU walks are a radix tree with four levels: L0 has height
3 and L3 has height 0. The mapping functions enter missing tables on their
walk, which changes no translation, and store a descriptor in an invalid slot
of the table that the walk has reached.
-/

namespace Rpos

open Base

/-! ## §1  Translation -/

/-- The descriptors that the walker follows: a valid word of type 1 is a table
descriptor above L3 and a page descriptor in L3, one of type 0 is a block
descriptor in L1 and L2. -/
def pageRadix : Radix Word where
  fan := tableSize
  fan_pos := by decide
  table h w := decide (0 < h ∧ Pte.valid.get w = 1 ∧ Pte.type.get w = 1)
  leaf h w := decide (Pte.valid.get w = 1 ∧
    (if h = 0 then Pte.type.get w = 1 else h ≤ 2 ∧ Pte.type.get w = 0))
  target := Pte.address.get

/-- The output address under a descriptor in a table of height `h`: the upper
bits come from the descriptor, the others from the virtual address. -/
def outputAddress (h : ℕ) (w : Word) (va : ℕ) : ℕ :=
  let span := pageSize * tableSize ^ h
  Pte.address.get w * pageSize / span * span + va % span

/-- A descriptor without its address. -/
def attributes (w : Word) : Word := Pte.address.set w 0

/-- The translation of a virtual address: the output address and the
attributes of the descriptor. -/
def translate (ram : ℕ → ℕ → Word) (root va : ℕ) : Option (ℕ × Word) :=
  (pageRadix.lookup ram 3 root (va / pageSize)).map fun r =>
    (outputAddress r.1 r.2 va, attributes r.2)

theorem idx_eq (va : ℕ) :
    idx0 va = pageRadix.digit 3 (va / pageSize) ∧
      idx1 va = pageRadix.digit 2 (va / pageSize) ∧
      idx2 va = pageRadix.digit 1 (va / pageSize) ∧
      idx3 va = pageRadix.digit 0 (va / pageSize) := by
  simp only [idx0, idx1, idx2, idx3, Radix.digit, pageRadix, tableSize, pageSize,
    Nat.div_div_eq_div_mul]
  exact ⟨rfl, rfl, rfl, rfl⟩

/-- The L2 slots of a tree: a valid word of L2 is a leaf, whatever it names. -/
def l2Slots : Radix Word := pageRadix.slots 1 fun w => decide (Pte.valid.get w = 1)

theorem table_intro (h : ℕ) {w : Word} (hv : Pte.valid.get w = 1)
    (ht : Pte.type.get w = 1) : pageRadix.table (h + 1) w = true :=
  decide_eq_true ⟨Nat.succ_pos h, hv, ht⟩

theorem void_of_invalid {w : Word} (hw : Pte.valid.get w ≠ 1) :
    pageRadix.Void w :=
  fun _ => ⟨decide_eq_false fun h => hw h.2.1, decide_eq_false fun h => hw h.1⟩

theorem l2Slots_void {w : Word} (hw : Pte.valid.get w ≠ 1) : l2Slots.Void w := by
  intro h
  have hnot := (void_of_invalid hw h).1
  constructor
  · show (decide (1 < h) && pageRadix.table h w) = false
    rw [hnot, Bool.and_false]
  · show (decide (h = 1) && decide (Pte.valid.get w = 1)) = false
    rw [decide_eq_false hw, Bool.and_false]

theorem not_table_zero (w : Word) : pageRadix.table 0 w = false := by
  simp [pageRadix]

theorem page_leaf {w : Word} (hv : Pte.valid.get w = 1)
    (ht : Pte.type.get w = 1) : pageRadix.leaf 0 w = true :=
  decide_eq_true ⟨hv, ht⟩

theorem block_leaf {w : Word} (hv : Pte.valid.get w = 1)
    (ht : Pte.type.get w = 0) : pageRadix.leaf 1 w = true :=
  decide_eq_true ⟨hv, Nat.le_succ 1, ht⟩

theorem block_not_table (h : ℕ) {w : Word} (ht : Pte.type.get w = 0) :
    pageRadix.table h w = false := by
  refine decide_eq_false fun htable => ?_
  rw [ht] at htable
  exact absurd htable.2.2 (by decide)

/-! ## §2  Well-formed trees -/

/-- A tree of tables in distinct pages of RAM whose words have the form `P`. -/
structure PageTree (P : ℕ → Word → Prop) (ram : ℕ → ℕ → Word) (root : ℕ) :
    Prop where
  distinct : pageRadix.Distinct ram 3 root
  every : pageRadix.Every P ram 3 root
  inRam : ∀ q, 0 < pageRadix.tables ram 3 root q → q < ramPages

/-- Invalid, or a table descriptor, or in L3 a page descriptor. -/
def TableOrPage (_ : ℕ) (w : Word) : Prop :=
  Pte.valid.get w = 1 → Pte.type.get w = 1

def TableOrBlock (h : ℕ) (w : Word) : Prop :=
  h ≠ 1 → Pte.valid.get w = 1 → Pte.type.get w = 1

/-- A form that the tables entered by the mapping functions have. -/
structure Admits (P : ℕ → Word → Prop) : Prop where
  zero : ∀ h, P h 0
  table : ∀ h w, Pte.type.get w = 1 → P h w

theorem tableOrPage_admits : Admits TableOrPage where
  zero _ hv := absurd hv (by decide)
  table _ _ ht _ := ht

theorem tableOrBlock_admits : Admits TableOrBlock where
  zero _ _ hv := absurd hv (by decide)
  table _ _ ht _ _ := ht

section Tree

variable {P : ℕ → Word → Prop} {ram ram' : ℕ → ℕ → Word} {root : ℕ}

theorem PageTree.congr (ht : PageTree P ram root)
    (hkeep : ∀ q, 0 < pageRadix.tables ram 3 root q → ram' q = ram q) :
    PageTree P ram' root := by
  refine ⟨?_, Radix.every_congr hkeep ht.every, ?_⟩
  · intro q
    rw [Radix.tables_congr q hkeep]
    exact ht.distinct q
  · intro q hq
    rw [Radix.tables_congr q hkeep] at hq
    exact ht.inRam q hq

theorem PageTree.weaken {Q : ℕ → Word → Prop} (ht : PageTree P ram root)
    (hall : pageRadix.Every Q ram 3 root) : PageTree Q ram root :=
  ⟨ht.distinct, hall, ht.inRam⟩

end Tree

/-! ## §3  A walk that grows the tree -/

theorem address_get_set (w : Word) {a : ℕ} (ha : a < 2 ^ 36) :
    Pte.address.get (Pte.address.set w a) = a := by
  rw [BitField.get_set]
  exact Nat.mod_eq_of_lt ha

/-- The page `a` is blank in `ram'` and no table of the tree, which `ram'`
leaves alone. -/
structure NewTable (root a : ℕ) (ram ram' : ℕ → ℕ → Word) : Prop where
  lt : a < ramPages
  outside : pageRadix.tables ram 3 root a = 0
  blank : ∀ i, ram' a i = 0
  keep : ∀ q, 0 < pageRadix.tables ram 3 root q → ram' q = ram q

structure NamesTable (a : ℕ) (w : Word) : Prop where
  valid : Pte.valid.get w = 1
  type : Pte.type.get w = 1
  address : Pte.address.get w = a

/-- The memory `ram'` has the same translations as `ram` and a table of height
`e` on the walk for the page number `v`. -/
structure Walked (P : ℕ → Word → Prop) (root v e t : ℕ) (ram ram' : ℕ → ℕ → Word) :
    Prop where
  tree : PageTree P ram' root
  reaches : pageRadix.Reaches ram' v 3 root e t
  lookup : ∀ x, pageRadix.lookup ram' 3 root x = pageRadix.lookup ram 3 root x
  slots : 1 ≤ e → ∀ x, l2Slots.lookup ram' 3 root x = l2Slots.lookup ram 3 root x

section Walk

variable {P : ℕ → Word → Prop} {root v e t a x : ℕ} {ram ram' ram1 : ℕ → ℕ → Word}
  {w : Word}

theorem Walked.start (ht : PageTree P ram root) : Walked P root v 3 root ram ram :=
  ⟨ht, .here, fun _ => rfl, fun _ _ => rfl⟩

theorem Walked.table_lt (hw : Walked P root v e t ram ram') : t < ramPages :=
  hw.tree.inRam t hw.reaches.tables_pos

/-- The word in the slot that the walk has reached has the form of its height. -/
theorem Walked.form (hw : Walked P root v e t ram ram') :
    P e (ram' t (pageRadix.digit e v)) :=
  (hw.reaches.every hw.tree.every _ (pageRadix.digit_lt e v)).1

theorem Walked.congr (hw : Walked P root v e t ram ram')
    (hkeep : ∀ q, 0 < pageRadix.tables ram' 3 root q → ram1 q = ram' q) :
    Walked P root v e t ram ram1 := by
  have hkeep' : ∀ q, 0 < l2Slots.tables ram' 3 root q → ram1 q = ram' q :=
    fun q hq => hkeep q (Nat.lt_of_lt_of_le hq (Radix.tables_slots_le q))
  refine ⟨hw.tree.congr hkeep, hw.reaches.congr hkeep, fun x => ?_, fun he x => ?_⟩
  · rw [Radix.lookup_congr x hkeep, hw.lookup x]
  · rw [Radix.lookup_congr x hkeep', hw.slots he x]

theorem Walked.follow (hw : Walked P root v (e + 1) t ram ram')
    (hv : Pte.valid.get (ram' t (pageRadix.digit (e + 1) v)) = 1)
    (htype : Pte.type.get (ram' t (pageRadix.digit (e + 1) v)) = 1) :
    Walked P root v e (Pte.address.get (ram' t (pageRadix.digit (e + 1) v))) ram ram' :=
  ⟨hw.tree, hw.reaches.next (table_intro e hv htype), hw.lookup,
    fun _ => hw.slots (Nat.succ_pos e)⟩

/-- A walk that ends at an invalid entry finds nothing mapped. -/
theorem Walked.lookup_invalid (hw : Walked P root v e t ram ram')
    (hv : Pte.valid.get (ram' t (pageRadix.digit e v)) ≠ 1) :
    pageRadix.lookup ram 3 root v = none := by
  obtain ⟨htable, hleaf⟩ := void_of_invalid hv e
  rw [← hw.lookup, hw.reaches.lookup_eq]
  exact Radix.follow_none hleaf htable

theorem Walked.lookup_leaf (hw : Walked P root v e t ram ram')
    (hleaf : pageRadix.leaf e (ram' t (pageRadix.digit e v)) = true)
    (hnot : pageRadix.table e (ram' t (pageRadix.digit e v)) = false) :
    pageRadix.lookup ram 3 root v = some (e, ram' t (pageRadix.digit e v)) := by
  rw [← hw.lookup, hw.reaches.lookup_eq]
  exact Radix.follow_leaf hleaf hnot

/-- What a slot in L3 that the walk reached says about the translation. -/
theorem Walked.lookup_l3 (hw : Walked P root v 0 t ram ram')
    (hform : ∀ w, P 0 w → Pte.valid.get w = 1 → Pte.type.get w = 1) :
    Pte.valid.get (ram' t (pageRadix.digit 0 v)) = 1 ↔
      pageRadix.lookup ram 3 root v ≠ none := by
  constructor
  · intro hv
    rw [hw.lookup_leaf (page_leaf hv (hform _ hw.form hv)) (not_table_zero _)]
    exact Option.some_ne_none _
  · intro hsome
    by_contra hv
    exact hsome (hw.lookup_invalid hv)

theorem Walked.grown (hP : Admits P) (hw : Walked P root v (e + 1) t ram ram')
    (hv : Pte.valid.get (ram' t (pageRadix.digit (e + 1) v)) ≠ 1)
    (hnew : NewTable root a ram' ram1) (hword : NamesTable a w) :
    pageRadix.Grown P v 3 root e a ram1
      (Radix.setWord ram1 t (pageRadix.digit (e + 1) v) w) := by
  have htree := hw.tree.congr hnew.keep
  have hold : pageRadix.Void (ram1 t (pageRadix.digit (e + 1) v)) := by
    rw [hnew.keep t hw.reaches.tables_pos]
    exact void_of_invalid hv
  have hnew' : pageRadix.tables ram1 3 root a = 0 := by
    rw [Radix.tables_congr a hnew.keep, hnew.outside]
  have hblank : ∀ i < pageRadix.fan, pageRadix.Void (ram1 a i) := by
    intro i _
    rw [hnew.blank i]
    exact void_of_invalid (by decide)
  have hform : ∀ i < pageRadix.fan, P e (ram1 a i) := by
    intro i _
    rw [hnew.blank i]
    exact hP.zero e
  exact (hw.reaches.congr hnew.keep).grow htree.distinct htree.every hold hnew' hblank
    hform (table_intro e hword.valid hword.type) hword.address
    (hP.table (e + 1) _ hword.type)

theorem Walked.grown_slots (hw : Walked P root v (e + 1) t ram ram')
    (hv : Pte.valid.get (ram' t (pageRadix.digit (e + 1) v)) ≠ 1) (he : 1 ≤ e)
    (hnew : NewTable root a ram' ram1) (hword : NamesTable a w) (x : ℕ) :
    l2Slots.lookup (Radix.setWord ram1 t (pageRadix.digit (e + 1) v) w) 3 root x =
      l2Slots.lookup ram' 3 root x := by
  have hkeep : ∀ q, 0 < l2Slots.tables ram' 3 root q → ram1 q = ram' q :=
    fun q hq => hnew.keep q (Nat.lt_of_lt_of_le hq (Radix.tables_slots_le q))
  have hreach : l2Slots.Reaches ram1 v 3 root (e + 1) t :=
    (hw.reaches.congr hnew.keep).slots (Nat.le_succ_of_le he)
  have hdistinct : l2Slots.Distinct ram1 3 root :=
    (hw.tree.congr hnew.keep).distinct.slots
  have hold : l2Slots.Void (ram1 t (l2Slots.digit (e + 1) v)) := by
    rw [hnew.keep t hw.reaches.tables_pos]
    exact l2Slots_void hv
  have hnew' : l2Slots.tables ram1 3 root a = 0 := by
    rw [Radix.tables_congr a hkeep]
    exact Nat.eq_zero_of_le_zero (hnew.outside ▸ Radix.tables_slots_le a)
  have hblank : ∀ i < l2Slots.fan, l2Slots.Void (ram1 a i) := by
    intro i _
    rw [hnew.blank i]
    exact l2Slots_void (by decide)
  have htable : l2Slots.table (e + 1) w = true :=
    Bool.and_eq_true_iff.mpr
      ⟨decide_eq_true (Nat.lt_succ_of_le he), table_intro e hword.valid hword.type⟩
  have hg := hreach.grow (P := fun _ _ => True) hdistinct (Radix.every_true _) hold hnew'
    hblank (fun _ _ => trivial) htable hword.address trivial
  rw [← Radix.lookup_congr x hkeep]
  exact hg.lookup x

theorem Walked.enter (hP : Admits P) (hw : Walked P root v (e + 1) t ram ram')
    (hv : Pte.valid.get (ram' t (pageRadix.digit (e + 1) v)) ≠ 1)
    (hnew : NewTable root a ram' ram1) (hword : NamesTable a w) :
    Walked P root v e a ram (Radix.setWord ram1 t (pageRadix.digit (e + 1) v) w) := by
  have hg := hw.grown hP hv hnew hword
  refine ⟨⟨?_, hg.every, ?_⟩, hg.reaches, ?_, ?_⟩
  · refine hg.distinct (hw.tree.congr hnew.keep).distinct ?_
    rw [Radix.tables_congr a hnew.keep, hnew.outside]
  · intro q hq
    rw [hg.tables q, Radix.tables_congr q hnew.keep] at hq
    by_cases hqa : q = a
    · rw [hqa]
      exact hnew.lt
    · rw [if_neg hqa, Nat.add_zero] at hq
      exact hw.tree.inRam q hq
  · intro x
    rw [hg.lookup x, Radix.lookup_congr x hnew.keep, hw.lookup x]
  · intro he x
    rw [hw.grown_slots hv he hnew hword x, hw.slots (Nat.succ_pos e)]

theorem Walked.enter_tables (hP : Admits P) (hw : Walked P root v (e + 1) t ram ram')
    (hv : Pte.valid.get (ram' t (pageRadix.digit (e + 1) v)) ≠ 1)
    (hnew : NewTable root a ram' ram1) (hword : NamesTable a w) (q : ℕ) :
    pageRadix.tables (Radix.setWord ram1 t (pageRadix.digit (e + 1) v) w) 3 root q =
      pageRadix.tables ram' 3 root q + if q = a then 1 else 0 := by
  rw [(hw.grown hP hv hnew hword).tables q, Radix.tables_congr q hnew.keep]

/-- Storing a leaf to a slot that names no table keeps the tree. -/
theorem Walked.place (hw : Walked P root v e t ram ram')
    (hold : pageRadix.table e (ram' t (pageRadix.digit e v)) = false)
    (hleaf : pageRadix.leaf e w = true) (hnot : pageRadix.table e w = false)
    (hPw : P e w) :
    PageTree P (Radix.setWord ram' t (pageRadix.digit e v) w) root ∧
      ∀ q, pageRadix.tables (Radix.setWord ram' t (pageRadix.digit e v) w) 3 root q =
        pageRadix.tables ram' 3 root q := by
  obtain ⟨-, -, htables, hevery⟩ :=
    hw.reaches.place (P := P) hw.tree.distinct hold hleaf hnot
  refine ⟨⟨?_, hevery hw.tree.every hPw, ?_⟩, htables⟩
  · intro q
    rw [htables q]
    exact hw.tree.distinct q
  · intro q hq
    rw [htables q] at hq
    exact hw.tree.inRam q hq

theorem Walked.place_lookup (hw : Walked P root v e t ram ram')
    (hold : pageRadix.table e (ram' t (pageRadix.digit e v)) = false)
    (hleaf : pageRadix.leaf e w = true) (hnot : pageRadix.table e w = false)
    (hx : x < tableSize ^ 4) :
    pageRadix.lookup (Radix.setWord ram' t (pageRadix.digit e v) w) 3 root x =
      if x / tableSize ^ e = v % tableSize ^ 4 / tableSize ^ e then some (e, w)
      else pageRadix.lookup ram 3 root x := by
  obtain ⟨hself, hother, -⟩ :=
    hw.reaches.place (P := P) hw.tree.distinct hold hleaf hnot
  have hslot : pageRadix.SameSlot e 3 x v ↔
      x / tableSize ^ e = v % tableSize ^ 4 / tableSize ^ e := by
    have hiff := Radix.sameSlot_iff (R := pageRadix) hw.reaches.height_le x v
    have hmod : x % pageRadix.fan ^ (3 + 1) = x := Nat.mod_eq_of_lt hx
    rw [hmod] at hiff
    exact hiff
  by_cases hxv : x / tableSize ^ e = v % tableSize ^ 4 / tableSize ^ e
  · rw [if_pos hxv, hself x (hslot.mpr hxv)]
  · rw [if_neg hxv, hother x fun hs => hxv (hslot.mp hs), hw.lookup]

end Walk

/-! ## §4  The L2 slots -/

section Slots

variable {P : ℕ → Word → Prop} {root v t : ℕ} {ram ram' : ℕ → ℕ → Word}

theorem l2Slots_follow {w : Word} {x : ℕ} (hv : Pte.valid.get w = 1) :
    l2Slots.follow ram 1 w x = some (1, w) :=
  Radix.follow_slots (decide_eq_true hv)

theorem Walked.reaches_slots (hw : Walked P root v 1 t ram ram') :
    l2Slots.Reaches ram' v 3 root 1 t :=
  hw.reaches.slots (le_refl 1)

theorem Walked.slot_valid (hw : Walked P root v 1 t ram ram') :
    Pte.valid.get (ram' t (pageRadix.digit 1 v)) = 1 ↔
      l2Slots.lookup ram 3 root v ≠ none := by
  rw [← hw.slots (le_refl 1), hw.reaches_slots.lookup_eq]
  by_cases hv : Pte.valid.get (ram' t (pageRadix.digit 1 v)) = 1
  · have hslot : l2Slots.lookup ram' 1 t v = some (1, _) := l2Slots_follow hv
    simp only [hv, hslot, ne_eq, reduceCtorEq, not_false_eq_true]
  · have hslot : l2Slots.lookup ram' 1 t v = none :=
      Radix.follow_slots_none (decide_eq_false hv)
    simp only [hv, hslot, ne_eq, not_true_eq_false]

theorem Walked.place_slots {w : Word} (hw : Walked P root v 1 t ram ram')
    (hv : Pte.valid.get w = 1) {x : ℕ} (hx : x < tableSize ^ 4) :
    l2Slots.lookup (Radix.setWord ram' t (pageRadix.digit 1 v) w) 3 root x =
      if x / tableSize = v % tableSize ^ 4 / tableSize then some (1, w)
      else l2Slots.lookup ram 3 root x := by
  have hreach := hw.reaches_slots
  have hdistinct : l2Slots.Distinct ram' 3 root := hw.tree.distinct.slots
  obtain ⟨hself, hother⟩ := hreach.lookup_set (w := w) hdistinct x
  have hslot : l2Slots.SameSlot 1 3 x v ↔
      x / tableSize = v % tableSize ^ 4 / tableSize := by
    have hiff := Radix.sameSlot_iff (R := l2Slots) hreach.height_le x v
    have hmod : x % l2Slots.fan ^ (3 + 1) = x := Nat.mod_eq_of_lt hx
    rw [hmod, pow_one] at hiff
    exact hiff
  by_cases hxv : x / tableSize = v % tableSize ^ 4 / tableSize
  · rw [if_pos hxv]
    exact (hself (hslot.mpr hxv)).trans (l2Slots_follow hv)
  · rw [if_neg hxv, ← hw.slots (le_refl 1)]
    exact hother fun hs => hxv (hslot.mp hs)

theorem Walked.enter_slots {a : ℕ} {ram1 : ℕ → ℕ → Word} {w : Word}
    (hw : Walked P root v 1 t ram ram') (hnew : NewTable root a ram' ram1)
    (hword : NamesTable a w) {x : ℕ} (hx : x < tableSize ^ 4) :
    l2Slots.lookup (Radix.setWord ram1 t (pageRadix.digit 1 v) w) 3 root x =
      if x / tableSize = v % tableSize ^ 4 / tableSize then some (1, w)
      else l2Slots.lookup ram 3 root x :=
  (hw.congr hnew.keep).place_slots hword.valid hx

theorem Walked.place_page_slots (hw : Walked P root v 0 t ram ram') (w : Word) (x : ℕ) :
    l2Slots.lookup (Radix.setWord ram' t (pageRadix.digit 0 v) w) 3 root x =
      l2Slots.lookup ram' 3 root x := by
  refine Radix.lookup_congr x fun q hq => Radix.setWord_page ram' w ?_
  rintro rfl
  have hlt : l2Slots.tables ram' 3 root q < pageRadix.tables ram' 3 root q :=
    hw.reaches.slots_lt Nat.one_pos (by decide)
  exact absurd (Nat.lt_of_lt_of_le hlt (hw.tree.distinct q)) (Nat.not_lt.mpr hq)

theorem slots_lookup_congr (ram : ℕ → ℕ → Word) (root : ℕ) {x v : ℕ}
    (hx : x < tableSize ^ 4) (h : x / tableSize = v % tableSize ^ 4 / tableSize) :
    l2Slots.lookup ram 3 root x = l2Slots.lookup ram 3 root v := by
  refine Radix.lookup_slots_congr (by decide) ?_
  have hiff := Radix.sameSlot_iff (R := pageRadix) (e := 1) (h := 3) (by decide) x v
  have hmod : x % pageRadix.fan ^ (3 + 1) = x := Nat.mod_eq_of_lt hx
  rw [hmod, pow_one] at hiff
  exact hiff.mpr h

theorem PageTree.unmapped_of_slot {ram : ℕ → ℕ → Word} {x : ℕ}
    (ht : PageTree TableOrPage ram root) (hnone : l2Slots.lookup ram 3 root x = none) :
    pageRadix.lookup ram 3 root x = none := by
  refine Radix.lookup_of_slots_none (by decide) ht.every ?_ ?_ hnone
  · intro j w hj hform
    refine decide_eq_false fun h => ?_
    rw [if_neg (by omega), hform h.1] at h
    exact absurd h.2.2 (by decide)
  · exact fun w hw => void_of_invalid (of_decide_eq_false hw)

end Slots

end Rpos
