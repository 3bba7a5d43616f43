import Rpos.Base.RadixTree

/-!
# Copies of radix trees

Two trees correspond when their words do, table by table: `Rel` follows both trees at
once, so that the tables of the one may lie elsewhere than those of the other. A
correspondence that keeps the kinds of words and rewrites the words that map carries the
lookups over. Leaves and tables are counted; a count of leaves is kept by a correspondence
that keeps what the leaves name. Last, the two halves of a loop that copies a table word by
word: the words passed have been rewritten, and the copy holds their images.
-/

namespace Rpos.Base.Radix

variable {W : Type*} (R : Radix W)

/-! ## §1  Definitions -/

/-- The words `w` of `ram` and `w'` of `ram'`, and all words below, correspond. -/
def RelUnder (T : ℕ → W → W → Prop) (ram ram' : ℕ → ℕ → W) : ℕ → W → W → Prop
  | 0, w, w' => T 0 w w'
  | h + 1, w, w' => T (h + 1) w w' ∧ (R.table (h + 1) w = true → ∀ i < R.fan,
      RelUnder T ram ram' h (ram (R.target w) i) (ram' (R.target w') i))

/-- The tree of `ram` at `p` corresponds to the tree of `ram'` at `p'`. -/
def Rel (T : ℕ → W → W → Prop) (ram ram' : ℕ → ℕ → W) (h p p' : ℕ) : Prop :=
  ∀ i < R.fan, R.RelUnder T ram ram' h (ram p i) (ram' p' i)

def leavesUnder (ram : ℕ → ℕ → W) : ℕ → W → ℕ → ℕ
  | 0, w, q => if R.leaf 0 w = true ∧ q = R.target w then 1 else 0
  | h + 1, w, q =>
      if R.table (h + 1) w then
        ∑ i ∈ Finset.range R.fan, leavesUnder ram h (ram (R.target w) i) q
      else if R.leaf (h + 1) w = true ∧ q = R.target w then 1 else 0

def leaves (ram : ℕ → ℕ → W) (h p q : ℕ) : ℕ :=
  ∑ i ∈ Finset.range R.fan, R.leavesUnder ram h (ram p i) q

def sizeUnder (ram : ℕ → ℕ → W) : ℕ → W → ℕ
  | 0, _ => 0
  | h + 1, w =>
      if R.table (h + 1) w then
        1 + ∑ i ∈ Finset.range R.fan, sizeUnder ram h (ram (R.target w) i)
      else 0

def size (ram : ℕ → ℕ → W) (h p : ℕ) : ℕ :=
  1 + ∑ i ∈ Finset.range R.fan, R.sizeUnder ram h (ram p i)

def FilledUnder (used : W → Prop) (ram : ℕ → ℕ → W) : ℕ → W → Prop
  | 0, _ => True
  | h + 1, w => R.table (h + 1) w = true → (∃ i < R.fan, used (ram (R.target w) i)) ∧
      ∀ i < R.fan, FilledUnder used ram h (ram (R.target w) i)

def Filled (used : W → Prop) (ram : ℕ → ℕ → W) (h p : ℕ) : Prop :=
  (∃ i < R.fan, used (ram p i)) ∧ ∀ i < R.fan, R.FilledUnder used ram h (ram p i)

section Unfold

variable {R} {ram ram' : ℕ → ℕ → W} {T : ℕ → W → W → Prop} {used : W → Prop} {h q : ℕ}
  {w w' : W}

theorem RelUnder.word (hr : R.RelUnder T ram ram' h w w') : T h w w' := by
  cases h with
  | zero => exact hr
  | succ h => exact hr.1

theorem relUnder_table (hT : T (h + 1) w w')
    (hr : R.Rel T ram ram' h (R.target w) (R.target w')) : R.RelUnder T ram ram' (h + 1) w w' :=
  ⟨hT, fun _ => hr⟩

theorem relUnder_none (hT : T h w w') (hnot : R.table h w = false) :
    R.RelUnder T ram ram' h w w' := by
  cases h with
  | zero => exact hT
  | succ h =>
      refine ⟨hT, fun hw => ?_⟩
      rw [hnot] at hw
      exact absurd hw (by decide)

theorem leavesUnder_table (hw : R.table (h + 1) w = true) :
    R.leavesUnder ram (h + 1) w q = R.leaves ram h (R.target w) q :=
  if_pos hw

theorem leavesUnder_leaf (hw : R.leaf h w = true) (hnot : R.table h w = false) :
    R.leavesUnder ram h w q = if q = R.target w then 1 else 0 := by
  cases h with
  | zero => simp only [leavesUnder, hw, true_and]
  | succ h => simp only [leavesUnder, hnot, hw, true_and, Bool.false_eq_true, if_false]

theorem leavesUnder_none (hw : R.leaf h w = false) (hnot : R.table h w = false) :
    R.leavesUnder ram h w q = 0 := by
  cases h with
  | zero => simp only [leavesUnder, hw, Bool.false_eq_true, false_and, if_false]
  | succ h => simp only [leavesUnder, hnot, hw, Bool.false_eq_true, false_and, if_false]

theorem sizeUnder_table (hw : R.table (h + 1) w = true) :
    R.sizeUnder ram (h + 1) w = R.size ram h (R.target w) :=
  if_pos hw

theorem sizeUnder_none (hnot : R.table h w = false) : R.sizeUnder ram h w = 0 := by
  cases h with
  | zero => rfl
  | succ h => simp only [sizeUnder, hnot, Bool.false_eq_true, if_false]

theorem FilledUnder.table (hf : R.FilledUnder used ram (h + 1) w)
    (hw : R.table (h + 1) w = true) : R.Filled used ram h (R.target w) :=
  hf hw

end Unfold

/-! ## §2  Frames -/

section Frame

variable {R} {ram ram' ram₁ ram₁' : ℕ → ℕ → W} {T : ℕ → W → W → Prop} {used : W → Prop}
  {h p p' : ℕ} {w w' : W}

/-- A correspondence depends on the tables of the two trees only. -/
theorem RelUnder.congr (hT : ∀ h w w', T h w w' → R.table h w' = R.table h w)
    (hr : R.RelUnder T ram ram' h w w')
    (hkeep : ∀ q, 0 < R.tablesUnder ram h w q → ram₁ q = ram q)
    (hkeep' : ∀ q, 0 < R.tablesUnder ram' h w' q → ram₁' q = ram' q) :
    R.RelUnder T ram₁ ram₁' h w w' := by
  induction h generalizing w w' with
  | zero => exact hr
  | succ h ih =>
      refine ⟨hr.1, fun hw i hi => ?_⟩
      have hw' : R.table (h + 1) w' = true := (hT _ _ _ hr.1).trans hw
      obtain ⟨hself, hchild⟩ := keep_child hw hkeep
      obtain ⟨hself', hchild'⟩ := keep_child hw' hkeep'
      rw [hself, hself']
      exact ih (hr.2 hw i hi) (hchild i hi) (hchild' i hi)

theorem leavesUnder_congr (y : ℕ)
    (hkeep : ∀ q, 0 < R.tablesUnder ram h w q → ram₁ q = ram q) :
    R.leavesUnder ram₁ h w y = R.leavesUnder ram h w y := by
  induction h generalizing w with
  | zero => rfl
  | succ h ih =>
      rw [leavesUnder, leavesUnder]
      by_cases hw : R.table (h + 1) w = true
      · obtain ⟨hself, hchild⟩ := keep_child hw hkeep
        rw [if_pos hw, if_pos hw, hself]
        exact Finset.sum_congr rfl fun i hi => ih (hchild i (Finset.mem_range.mp hi))
      · rw [if_neg hw, if_neg hw]

theorem sizeUnder_congr (hkeep : ∀ q, 0 < R.tablesUnder ram h w q → ram₁ q = ram q) :
    R.sizeUnder ram₁ h w = R.sizeUnder ram h w := by
  induction h generalizing w with
  | zero => rfl
  | succ h ih =>
      rw [sizeUnder, sizeUnder]
      by_cases hw : R.table (h + 1) w = true
      · obtain ⟨hself, hchild⟩ := keep_child hw hkeep
        rw [if_pos hw, if_pos hw, hself]
        congr 1
        exact Finset.sum_congr rfl fun i hi => ih (hchild i (Finset.mem_range.mp hi))
      · rw [if_neg hw, if_neg hw]

theorem FilledUnder.congr (hf : R.FilledUnder used ram h w)
    (hkeep : ∀ q, 0 < R.tablesUnder ram h w q → ram₁ q = ram q) :
    R.FilledUnder used ram₁ h w := by
  induction h generalizing w with
  | zero => trivial
  | succ h ih =>
      intro hw
      obtain ⟨hself, hchild⟩ := keep_child hw hkeep
      rw [hself]
      exact ⟨(hf hw).1, fun i hi => ih ((hf hw).2 i hi) (hchild i hi)⟩

/-- The tables after one word of a table has become another, if what lies below the other
words is kept and the old word named no table. -/
theorem tables_replace {c i y : ℕ} (hi : i < R.fan)
    (hold : R.tablesUnder ram h (ram c i) y = 0)
    (hrest : ∀ j < R.fan, j ≠ i →
      R.tablesUnder ram₁ h (ram₁ c j) y = R.tablesUnder ram h (ram c j) y) :
    R.tables ram₁ h c y = R.tables ram h c y + R.tablesUnder ram₁ h (ram₁ c i) y := by
  have hmem : i ∈ Finset.range R.fan := Finset.mem_range.mpr hi
  rw [tables, tables, ← Finset.add_sum_erase _ _ hmem,
    ← Finset.add_sum_erase _ (fun j => R.tablesUnder ram h (ram c j) y) hmem, hold,
    Finset.sum_congr rfl fun j hj => hrest j
      (Finset.mem_range.mp (Finset.mem_of_mem_erase hj)) (Finset.ne_of_mem_erase hj)]
  omega

end Frame

/-! ## §3  What a correspondence carries over -/

section Carry

variable {R} {ram ram' : ℕ → ℕ → W} {T : ℕ → W → W → Prop} {f : W → W} {h p p' : ℕ}

/-- The words that map are rewritten by `f`, the others keep their kind. -/
structure Rewrites (R : Radix W) (f : W → W) (T : ℕ → W → W → Prop) : Prop where
  table : ∀ h w w', T h w w' → R.table h w' = R.table h w
  leaf : ∀ h w w', T h w w' → R.leaf h w' = R.leaf h w
  word : ∀ h w w', T h w w' → R.leaf h w = true → w' = f w

theorem RelUnder.follow (hT : Rewrites R f T) {w w' : W}
    (hr : R.RelUnder T ram ram' h w w') (x : ℕ) :
    R.follow ram' h w' x = (R.follow ram h w x).map fun r => (r.1, f r.2) := by
  induction h generalizing w w' with
  | zero =>
      rw [Radix.follow, Radix.follow, hT.leaf 0 w w' hr]
      by_cases hw : R.leaf 0 w = true
      · rw [if_pos hw, if_pos hw, hT.word 0 w w' hr hw]
        rfl
      · rw [if_neg hw, if_neg hw]
        rfl
  | succ h ih =>
      rw [Radix.follow, Radix.follow, hT.table _ w w' hr.1, hT.leaf _ w w' hr.1]
      by_cases htable : R.table (h + 1) w = true
      · rw [if_pos htable, if_pos htable]
        exact ih (hr.2 htable _ (R.digit_lt h x))
      · rw [if_neg htable, if_neg htable]
        by_cases hw : R.leaf (h + 1) w = true
        · rw [if_pos hw, if_pos hw, hT.word _ w w' hr.1 hw]
          rfl
        · rw [if_neg hw, if_neg hw]
          rfl

theorem Rel.lookup (hT : Rewrites R f T) (hr : R.Rel T ram ram' h p p') (x : ℕ) :
    R.lookup ram' h p' x = (R.lookup ram h p x).map fun r => (r.1, f r.2) :=
  (hr _ (R.digit_lt h x)).follow hT x

theorem RelUnder.leavesUnder (hT : Rewrites R f T) (hf : ∀ w, R.target (f w) = R.target w)
    {w w' : W} (hr : R.RelUnder T ram ram' h w w') (q : ℕ) :
    R.leavesUnder ram' h w' q = R.leavesUnder ram h w q := by
  have hleaf : ∀ h w w', T h w w' →
      ((R.leaf h w' = true ∧ q = R.target w') ↔ (R.leaf h w = true ∧ q = R.target w)) := by
    intro h w w' ht
    rw [hT.leaf h w w' ht]
    apply and_congr_right
    intro hw
    rw [hT.word h w w' ht hw, hf]
  induction h generalizing w w' with
  | zero => simp only [Radix.leavesUnder, hleaf 0 w w' hr]
  | succ h ih =>
      rw [Radix.leavesUnder, Radix.leavesUnder, hT.table _ w w' hr.1]
      by_cases htable : R.table (h + 1) w = true
      · rw [if_pos htable, if_pos htable]
        exact Finset.sum_congr rfl fun i hi => ih (hr.2 htable i (Finset.mem_range.mp hi))
      · simp only [if_neg htable, hleaf _ w w' hr.1]

theorem Rel.leaves (hT : Rewrites R f T) (hf : ∀ w, R.target (f w) = R.target w)
    (hr : R.Rel T ram ram' h p p') (q : ℕ) : R.leaves ram' h p' q = R.leaves ram h p q :=
  Finset.sum_congr rfl fun i hi => (hr i (Finset.mem_range.mp hi)).leavesUnder hT hf q

/-- A correspondence that leaves the words that name tables leaves the tables. -/
theorem RelUnder.tablesUnder (hT : ∀ h w w', T h w w' → R.table h w' = R.table h w)
    (hsame : ∀ h w w', T h w w' → R.table h w = true → w' = w) {w w' : W}
    (hr : R.RelUnder T ram ram' h w w') (q : ℕ) :
    R.tablesUnder ram' h w' q = R.tablesUnder ram h w q := by
  induction h generalizing w w' with
  | zero => rfl
  | succ h ih =>
      rw [Radix.tablesUnder, Radix.tablesUnder, hT _ w w' hr.1]
      by_cases htable : R.table (h + 1) w = true
      · have heq := hsame _ w w' hr.1 htable
        rw [if_pos htable, if_pos htable, heq]
        congr 1
        refine Finset.sum_congr rfl fun i hi => ?_
        have hchild := hr.2 htable i (Finset.mem_range.mp hi)
        rw [heq] at hchild
        exact ih hchild
      · rw [if_neg htable, if_neg htable]

theorem Rel.tables (hT : ∀ h w w', T h w w' → R.table h w' = R.table h w)
    (hsame : ∀ h w w', T h w w' → R.table h w = true → w' = w)
    (hr : R.Rel T ram ram' h p p) (q : ℕ) : R.tables ram' h p q = R.tables ram h p q := by
  rw [Radix.tables, Radix.tables]
  congr 1
  exact Finset.sum_congr rfl fun i hi =>
    (hr i (Finset.mem_range.mp hi)).tablesUnder hT hsame q

end Carry

/-! ## §4  Copying a table word by word -/

section Copy

variable {R} {T : ℕ → W → W → Prop} {S N N' : Set ℕ} {h p c i : ℕ} {ram ram' ram₁ : ℕ → ℕ → W}

/-- The words of the table `p` before `i`, and all below them, have been rewritten; the
other pages of `S` are as they were. -/
structure Rewriting (R : Radix W) (T : ℕ → W → W → Prop) (S : Set ℕ) (h p i : ℕ)
    (ram ram' : ℕ → ℕ → W) : Prop where
  done : ∀ j < i, R.RelUnder T ram ram' h (ram p j) (ram' p j)
  rest : ∀ j < R.fan, i ≤ j → ram' p j = ram p j ∧
    ∀ q, 0 < R.tablesUnder ram h (ram p j) q → ram' q = ram q
  keep : ∀ q ∈ S, R.tables ram h p q = 0 → ram' q = ram q

/-- The table `c` holds copies of the words of `p` before `i` and nothing else; the tables
of the copy are the pages of `N`. -/
structure CopyInto (R : Radix W) (T : ℕ → W → W → Prop) (N : Set ℕ) (h p c i : ℕ)
    (ram ram' : ℕ → ℕ → W) : Prop where
  done : ∀ j < i, R.RelUnder T ram ram' h (ram p j) (ram' c j)
  blank : ∀ j < R.fan, i ≤ j → R.Void (ram' c j)
  distinct : R.Distinct ram' h c
  new : ∀ q, 0 < R.tables ram' h c q ↔ q ∈ N

theorem Rewriting.start (S : Set ℕ) (h p : ℕ) (ram : ℕ → ℕ → W) :
    R.Rewriting T S h p 0 ram ram :=
  ⟨fun j hj => absurd hj (Nat.not_lt_zero j), fun _ _ _ => ⟨rfl, fun _ _ => rfl⟩,
    fun _ _ _ => rfl⟩

/-- What lies under a word that is still to come is as it was. -/
theorem Rewriting.under (hr : R.Rewriting T S h p i ram ram') (hi : i < R.fan) (q : ℕ) :
    R.tablesUnder ram' h (ram' p i) q = R.tablesUnder ram h (ram p i) q := by
  obtain ⟨hword, hkeep⟩ := hr.rest i hi (Nat.le_refl i)
  rw [hword]
  exact tablesUnder_congr q hkeep

theorem Rewriting.step (hT : ∀ h w w', T h w w' → R.table h w' = R.table h w)
    (hsame : ∀ h w w', T h w w' → R.table h w = true → w' = w)
    (hd : R.Distinct ram h p) (hsub : ∀ q, 0 < R.tables ram h p q → q ∈ S)
    (hr : R.Rewriting T S h p i ram ram') (hi : i < R.fan)
    (hword : R.RelUnder T ram' ram₁ h (ram' p i) (ram₁ p i))
    (hother : ∀ j < R.fan, j ≠ i → ram₁ p j = ram' p j)
    (hkeep : ∀ q ∈ S, q ≠ p → R.tablesUnder ram' h (ram' p i) q = 0 → ram₁ q = ram' q) :
    R.Rewriting T S h p (i + 1) ram ram₁ := by
  obtain ⟨hwi, hunder⟩ := hr.rest i hi (Nat.le_refl i)
  -- the tables under the other words have not been touched by this round
  have hapart : ∀ j < R.fan, j ≠ i → ∀ q, 0 < R.tablesUnder ram h (ram p j) q →
      ram₁ q = ram' q := by
    intro j hj hne q hq
    refine hkeep q (hsub q (Nat.lt_of_lt_of_le hq (tablesUnder_le hj))) ?_ ?_
    · rintro rfl
      rw [hd.root hj] at hq
      exact absurd hq (Nat.lt_irrefl 0)
    · rw [hr.under hi]
      exact hd.apart hj hi hne hq
  refine ⟨fun j hj => ?_, fun j hj hle => ?_, fun q hq hnone => ?_⟩
  · rcases Nat.lt_succ_iff_lt_or_eq.mp hj with hlt | rfl
    · have hjfan := Nat.lt_trans hlt hi
      have hbefore := hr.done j hlt
      rw [hother j hjfan (Nat.ne_of_lt hlt)]
      refine hbefore.congr hT (fun _ _ => rfl) fun q hq => ?_
      rw [hbefore.tablesUnder hT hsame] at hq
      exact hapart j hjfan (Nat.ne_of_lt hlt) q hq
    · rw [hwi] at hword
      refine hword.congr hT (fun q hq => ?_) fun _ _ => rfl
      rw [tablesUnder_congr q hunder] at hq
      exact (hunder q hq).symm
  · have hne : j ≠ i := Nat.ne_of_gt hle
    obtain ⟨hwj, hrest⟩ := hr.rest j hj (Nat.le_of_succ_le hle)
    refine ⟨(hother j hj hne).trans hwj, fun q hq => ?_⟩
    rw [hapart j hj hne q hq]
    exact hrest q hq
  · have hnot : R.tablesUnder ram' h (ram' p i) q = 0 := by
      rw [hr.under hi]
      exact Nat.eq_zero_of_le_zero (hnone ▸ tablesUnder_le hi)
    have hqp : q ≠ p := by
      rintro rfl
      exact absurd tables_self (by rw [hnone]; exact Nat.lt_irrefl 0)
    rw [hkeep q hq hqp hnot]
    exact hr.keep q hq hnone

theorem Rewriting.skip (hT : ∀ h w w', T h w w' → R.table h w' = R.table h w)
    (hsame : ∀ h w w', T h w w' → R.table h w = true → w' = w)
    (hvoid : ∀ h w, R.Void w → T h w w) (hd : R.Distinct ram h p)
    (hsub : ∀ q, 0 < R.tables ram h p q → q ∈ S)
    (hr : R.Rewriting T S h p i ram ram') (hi : i < R.fan) (hw : R.Void (ram' p i)) :
    R.Rewriting T S h p (i + 1) ram ram' :=
  hr.step hT hsame hd hsub hi (relUnder_none (hvoid h _ hw) (hw h).1) (fun _ _ _ => rfl)
    fun _ _ _ _ => rfl

theorem CopyInto.start (hvoid : ∀ h w w', R.Void w → R.Void w' → T h w w') (hi : i ≤ R.fan)
    (hsource : ∀ j < i, R.Void (ram p j)) (hblank : ∀ j < R.fan, R.Void (ram' c j)) :
    R.CopyInto T {c} h p c i ram ram' := by
  refine ⟨fun j hj => ?_, fun j hj _ => hblank j hj, fun q => ?_, fun q => ?_⟩
  · have hw := hsource j hj
    exact relUnder_none (hvoid h _ _ hw (hblank j (Nat.lt_of_lt_of_le hj hi))) (hw h).1
  · rw [tables_void hblank]
    split_ifs <;> decide
  · rw [tables_void hblank, Set.mem_singleton_iff]
    split_ifs with hqc
    · exact iff_of_true Nat.one_pos hqc
    · exact iff_of_false (Nat.lt_irrefl 0) hqc

theorem CopyInto.skip (hvoid : ∀ h w w', R.Void w → R.Void w' → T h w w')
    (hc : R.CopyInto T N h p c i ram ram') (hi : i < R.fan) (hw : R.Void (ram p i)) :
    R.CopyInto T N h p c (i + 1) ram ram' := by
  refine ⟨fun j hj => ?_, fun j hj hle => hc.blank j hj (Nat.le_of_succ_le hle),
    hc.distinct, hc.new⟩
  rcases Nat.lt_succ_iff_lt_or_eq.mp hj with hlt | rfl
  · exact hc.done j hlt
  · exact relUnder_none (hvoid h _ _ hw (hc.blank j hi (Nat.le_refl j))) (hw h).1

/-- The copy of the next word has been entered, with new tables below it. -/
theorem CopyInto.step (hT : ∀ h w w', T h w w' → R.table h w' = R.table h w)
    (hc : R.CopyInto T N h p c i ram ram') (hi : i < R.fan)
    (hword : R.RelUnder T ram ram₁ h (ram p i) (ram₁ c i))
    (hother : ∀ j < R.fan, j ≠ i → ram₁ c j = ram' c j)
    (hkeep : ∀ q, q ≠ c → 0 < R.tables ram' h c q → ram₁ q = ram' q)
    (hone : ∀ q, R.tablesUnder ram₁ h (ram₁ c i) q ≤ 1)
    (hnew : ∀ q, 0 < R.tablesUnder ram₁ h (ram₁ c i) q ↔ q ∈ N')
    (hapart : ∀ q ∈ N', R.tables ram' h c q = 0) :
    R.CopyInto T (N ∪ N') h p c (i + 1) ram ram₁ := by
  have hunder : ∀ j < R.fan, ∀ q, 0 < R.tablesUnder ram' h (ram' c j) q →
      ram₁ q = ram' q := by
    intro j hj q hq
    refine hkeep q ?_ (Nat.lt_of_lt_of_le hq (tablesUnder_le hj))
    rintro rfl
    rw [hc.distinct.root hj] at hq
    exact absurd hq (Nat.lt_irrefl 0)
  have htables : ∀ q, R.tables ram₁ h c q =
      R.tables ram' h c q + R.tablesUnder ram₁ h (ram₁ c i) q := by
    intro q
    refine tables_replace hi (tablesUnder_none (hc.blank i hi (Nat.le_refl i) h).1) ?_
    intro j hj hne
    rw [hother j hj hne]
    exact tablesUnder_congr q (hunder j hj)
  refine ⟨fun j hj => ?_, fun j hj hle => ?_, fun q => ?_, fun q => ?_⟩
  · rcases Nat.lt_succ_iff_lt_or_eq.mp hj with hlt | rfl
    · have hjfan := Nat.lt_trans hlt hi
      rw [hother j hjfan (Nat.ne_of_lt hlt)]
      exact (hc.done j hlt).congr hT (fun _ _ => rfl) (hunder j hjfan)
    · exact hword
  · rw [hother j hj (Nat.ne_of_gt hle)]
    exact hc.blank j hj (Nat.le_of_succ_le hle)
  · rw [htables q]
    by_cases hq : 0 < R.tablesUnder ram₁ h (ram₁ c i) q
    · rw [hapart q ((hnew q).mp hq), Nat.zero_add]
      exact hone q
    · rw [Nat.eq_zero_of_not_pos hq, Nat.add_zero]
      exact hc.distinct q
  · rw [htables q, Nat.add_pos_iff_pos_or_pos, hc.new q, hnew q, Set.mem_union]

theorem CopyInto.congr (hT : ∀ h w w', T h w w' → R.table h w' = R.table h w)
    (hc : R.CopyInto T N h p c i ram ram') (hi : i ≤ R.fan)
    (hkeep : ∀ q, 0 < R.tables ram' h c q → ram₁ q = ram' q) :
    R.CopyInto T N h p c i ram ram₁ := by
  obtain ⟨hself, hunder⟩ := keep_words hkeep
  refine ⟨fun j hj => ?_, fun j hj hle => ?_, fun q => ?_, fun q => ?_⟩
  · rw [hself]
    exact (hc.done j hj).congr hT (fun _ _ => rfl) (hunder j (Nat.lt_of_lt_of_le hj hi))
  · rw [hself]
    exact hc.blank j hj hle
  · rw [tables_congr q hkeep]
    exact hc.distinct q
  · rw [tables_congr q hkeep]
    exact hc.new q

end Copy

/-! ## §5  One word -/

/-- The word `i` of `p` has been rewritten and `w` is its copy, with the tables `N` below it;
the other pages of `S` are as they were. -/
structure CopyEntry (R : Radix W) (T T' : ℕ → W → W → Prop) (S N : Set ℕ) (h p i : ℕ)
    (ram ram' : ℕ → ℕ → W) (w : W) : Prop where
  word : R.RelUnder T ram ram' h (ram p i) (ram' p i)
  others : ∀ j < R.fan, j ≠ i → ram' p j = ram p j
  keep : ∀ q ∈ S, q ≠ p → R.tablesUnder ram h (ram p i) q = 0 → ram' q = ram q
  copy : R.RelUnder T' ram ram' h (ram p i) w
  once : ∀ q, R.tablesUnder ram' h w q ≤ 1
  new : ∀ q, 0 < R.tablesUnder ram' h w q ↔ q ∈ N

section Entry

variable {R} {T T' : ℕ → W → W → Prop} {S M N : Set ℕ} {h p c i : ℕ}
  {ram ram₀ ram₁ ram₂ ram₃ : ℕ → ℕ → W}

/-- A round that rewrites the word `i` and enters its copy in `c`. -/
theorem CopyEntry.step (hT : ∀ h w w', T h w w' → R.table h w' = R.table h w)
    (hsame : ∀ h w w', T h w w' → R.table h w = true → w' = w)
    (hT' : ∀ h w w', T' h w w' → R.table h w' = R.table h w)
    (hd : R.Distinct ram h p) (hsub : ∀ q, 0 < R.tables ram h p q → q ∈ S)
    (hr : R.Rewriting T S h p i ram ram₁) (hc : R.CopyInto T' M h p c i ram ram₀)
    (he : R.CopyEntry T T' S N h p i ram₁ ram₂ (ram₃ c i)) (hi : i < R.fan)
    (hS : ∀ q ∈ S, ram₃ q = ram₂ q)
    (hN : ∀ q ∈ N, ram₃ q = ram₂ q ∧ R.tables ram₀ h c q = 0)
    (hother : ∀ j < R.fan, j ≠ i → ram₃ c j = ram₀ c j)
    (hkeep : ∀ q, q ≠ c → 0 < R.tables ram₀ h c q → ram₃ q = ram₀ q) :
    R.Rewriting T S h p (i + 1) ram ram₃ ∧ R.CopyInto T' (M ∪ N) h p c (i + 1) ram ram₃ := by
  obtain ⟨hwi, hunder⟩ := hr.rest i hi (Nat.le_refl i)
  have hp : ram₃ p = ram₂ p := hS p (hsub p tables_self)
  have hnew : ∀ q, 0 < R.tablesUnder ram₂ h (ram₃ c i) q → ram₃ q = ram₂ q :=
    fun q hq => (hN q ((he.new q).mp hq)).1
  constructor
  · refine hr.step hT hsame hd hsub hi ?_ (fun j hj hne => ?_) fun q hq hne hnone => ?_
    · rw [hp]
      refine he.word.congr hT (fun _ _ => rfl) fun q hq => hS q (hsub q ?_)
      rw [he.word.tablesUnder hT hsame, hr.under hi] at hq
      exact Nat.lt_of_lt_of_le hq (tablesUnder_le hi)
    · rw [hp, he.others j hj hne]
    · rw [hS q hq, he.keep q hq hne hnone]
  · refine hc.step hT' hi ?_ hother hkeep (fun q => ?_) (fun q => ?_) fun q hq => (hN q hq).2
    · have hcopy := he.copy
      rw [hwi] at hcopy
      refine hcopy.congr hT' (fun q hq => ?_) hnew
      rw [tablesUnder_congr q hunder] at hq
      exact (hunder q hq).symm
    · rw [tablesUnder_congr q hnew]
      exact he.once q
    · rw [tablesUnder_congr q hnew]
      exact he.new q

theorem Rewriting.congr (hT : ∀ h w w', T h w w' → R.table h w' = R.table h w)
    (hsame : ∀ h w w', T h w w' → R.table h w = true → w' = w)
    (hsub : ∀ q, 0 < R.tables ram h p q → q ∈ S) (hr : R.Rewriting T S h p i ram ram₀)
    (hi : i ≤ R.fan) (hS : ∀ q ∈ S, ram₁ q = ram₀ q) : R.Rewriting T S h p i ram ram₁ := by
  have hp : ram₁ p = ram₀ p := hS p (hsub p tables_self)
  have hunder : ∀ j < R.fan, ∀ q, 0 < R.tablesUnder ram h (ram p j) q → q ∈ S :=
    fun j hj q hq => hsub q (Nat.lt_of_lt_of_le hq (tablesUnder_le hj))
  refine ⟨fun j hj => ?_, fun j hj hle => ?_, fun q hq hnone => ?_⟩
  · rw [hp]
    refine (hr.done j hj).congr hT (fun _ _ => rfl) fun q hq => ?_
    rw [(hr.done j hj).tablesUnder hT hsame] at hq
    exact hS q (hunder j (Nat.lt_of_lt_of_le hj hi) q hq)
  · obtain ⟨hword, hrest⟩ := hr.rest j hj hle
    refine ⟨hp ▸ hword, fun q hq => ?_⟩
    rw [hS q (hunder j hj q hq), hrest q hq]
  · rw [hS q hq, hr.keep q hq hnone]

end Entry

/-! ## §6  The pages of a tree in order -/

/-- The pages that `w` and the words below it name, a table after what is below it. -/
def pagesUnder (R : Radix W) (ram : ℕ → ℕ → W) : ℕ → W → List ℕ
  | 0, w => if R.leaf 0 w then [R.target w] else []
  | h + 1, w =>
      if R.table (h + 1) w then
        ((List.range R.fan).flatMap fun i => pagesUnder R ram h (ram (R.target w) i)) ++
          [R.target w]
      else if R.leaf (h + 1) w then [R.target w] else []

def pages (R : Radix W) (ram : ℕ → ℕ → W) (h p : ℕ) : List ℕ :=
  ((List.range R.fan).flatMap fun i => R.pagesUnder ram h (ram p i)) ++ [p]

section Pages

variable {R} {P P' : ℕ → W → Prop} {T : ℕ → W → W → Prop} {F : Set ℕ}
  {ram ram' : ℕ → ℕ → W} {h p p' q : ℕ} {w w' : W}

theorem pagesUnder_table (hw : R.table (h + 1) w = true) :
    R.pagesUnder ram (h + 1) w = R.pages ram h (R.target w) :=
  if_pos hw

theorem pagesUnder_leaf (hw : R.leaf h w = true) (hnot : R.table h w = false) :
    R.pagesUnder ram h w = [R.target w] := by
  cases h with
  | zero => exact if_pos hw
  | succ h => simp only [pagesUnder, hnot, hw, Bool.false_eq_true, if_false, if_true]

theorem pagesUnder_none (hw : R.leaf h w = false) (hnot : R.table h w = false) :
    R.pagesUnder ram h w = [] := by
  cases h with
  | zero => simp only [pagesUnder, hw, Bool.false_eq_true, if_false]
  | succ h => simp only [pagesUnder, hnot, hw, Bool.false_eq_true, if_false]

theorem count_one (q y : ℕ) : [y].count q = if q = y then 1 else 0 := by
  rw [List.count_singleton]
  by_cases hq : q = y
  · rw [if_pos hq, if_pos (beq_iff_eq.mpr hq.symm)]
  · rw [if_neg hq, if_neg fun h => hq (beq_iff_eq.mp h).symm]

theorem count_words {g : ℕ → List ℕ} {f : ℕ → ℕ} (hg : ∀ i < R.fan, (g i).count q = f i) (y : ℕ) :
    (((List.range R.fan).flatMap g) ++ [y]).count q =
      (∑ i ∈ Finset.range R.fan, f i) + if q = y then 1 else 0 := by
  rw [List.count_append, count_one, List.count_flatMap]
  congr 1
  exact Finset.sum_congr rfl fun i hi => hg i (Finset.mem_range.mp hi)

/-- A page occurs once for each word that maps it or names it as a table. -/
theorem count_pagesUnder (w : W) : (R.pagesUnder ram h w).count q =
    R.leavesUnder ram h w q + R.tablesUnder ram h w q := by
  have hleaf : ∀ (w : W) (b : Bool), (if b = true then [R.target w] else []).count q =
      if b = true ∧ q = R.target w then 1 else 0 := by
    intro w b
    cases b with
    | false => rfl
    | true => simp only [if_true, count_one, true_and]
  induction h generalizing w with
  | zero => exact hleaf w _
  | succ h ih =>
      rw [pagesUnder, leavesUnder, tablesUnder]
      by_cases hw : R.table (h + 1) w = true
      · rw [if_pos hw, if_pos hw, if_pos hw, count_words fun i _ => ih _, Finset.sum_add_distrib,
          Nat.add_assoc, Nat.add_comm (∑ i ∈ _, R.tablesUnder ram h _ q)]
      · rw [if_neg hw, if_neg hw, if_neg hw]
        exact hleaf w _

theorem count_pages : (R.pages ram h p).count q = R.leaves ram h p q + R.tables ram h p q := by
  rw [pages, count_words (fun i _ => count_pagesUnder (ram p i)), Finset.sum_add_distrib, leaves,
    tables, Nat.add_assoc, Nat.add_comm (∑ i ∈ _, R.tablesUnder ram h (ram p i) q)]

theorem mem_of_leavesUnder (hP : ∀ h w, P h w → R.leaf h w = true → R.target w ∈ F)
    (hw : P h w) (hall : R.EveryUnder P ram h w) (hq : 0 < R.leavesUnder ram h w q) : q ∈ F := by
  have hleaf : ∀ (h : ℕ) (w : W), P h w →
      0 < (if R.leaf h w = true ∧ q = R.target w then 1 else 0) → q ∈ F := by
    intro h w hw hq
    by_cases hcase : R.leaf h w = true ∧ q = R.target w
    · rw [hcase.2]
      exact hP h w hw hcase.1
    · rw [if_neg hcase] at hq
      exact absurd hq (Nat.lt_irrefl 0)
  induction h generalizing w with
  | zero => exact hleaf 0 w hw hq
  | succ h ih =>
      rw [leavesUnder] at hq
      by_cases htable : R.table (h + 1) w = true
      · rw [if_pos htable] at hq
        obtain ⟨i, hi, hpos⟩ := Finset.sum_pos_iff.mp hq
        have hchild := hall htable i (Finset.mem_range.mp hi)
        exact ih hchild.1 hchild.2 hpos
      · rw [if_neg htable] at hq
        exact hleaf _ w hw hq

theorem mem_of_leaves (hP : ∀ h w, P h w → R.leaf h w = true → R.target w ∈ F)
    (hall : R.Every P ram h p) (hq : 0 < R.leaves ram h p q) : q ∈ F := by
  obtain ⟨i, hi, hpos⟩ := Finset.sum_pos_iff.mp hq
  have hword := hall i (Finset.mem_range.mp hi)
  exact mem_of_leavesUnder hP hword.1 hword.2 hpos

theorem RelUnder.everyUnder (hT : ∀ h w w', T h w w' → R.table h w' = R.table h w)
    (hP : ∀ h w w', T h w w' → P h w → P' h w') (hr : R.RelUnder T ram ram' h w w')
    (hall : R.EveryUnder P ram h w) : R.EveryUnder P' ram' h w' := by
  induction h generalizing w w' with
  | zero => trivial
  | succ h ih =>
      intro hw' i hi
      have hw : R.table (h + 1) w = true := (hT _ _ _ hr.1).symm.trans hw'
      have hchild := hr.2 hw i hi
      exact ⟨hP _ _ _ hchild.word (hall hw i hi).1, ih hchild (hall hw i hi).2⟩

/-- What holds of every word of the tree holds of their images. -/
theorem Rel.every (hT : ∀ h w w', T h w w' → R.table h w' = R.table h w)
    (hP : ∀ h w w', T h w w' → P h w → P' h w') (hr : R.Rel T ram ram' h p p')
    (hall : R.Every P ram h p) : R.Every P' ram' h p' :=
  fun i hi => ⟨hP _ _ _ (hr i hi).word (hall i hi).1, (hr i hi).everyUnder hT hP (hall i hi).2⟩

end Pages

/-! ## §7  A table with one word -/

section Single

variable {R} {P : ℕ → W → Prop} {used : W → Prop} {ram : ℕ → ℕ → W} {h p i : ℕ}

theorem sum_single {f : ℕ → ℕ} (hi : i < R.fan) (hnone : ∀ j < R.fan, j ≠ i → f j = 0) :
    ∑ j ∈ Finset.range R.fan, f j = f i :=
  Finset.sum_eq_single i (fun j hj hne => hnone j (Finset.mem_range.mp hj) hne)
    fun hnot => absurd (Finset.mem_range.mpr hi) hnot

theorem tables_single (hi : i < R.fan) (hvoid : ∀ j < R.fan, j ≠ i → R.Void (ram p j)) (q : ℕ) :
    R.tables ram h p q = (if q = p then 1 else 0) + R.tablesUnder ram h (ram p i) q := by
  rw [tables, sum_single hi fun j hj hne => tablesUnder_none (hvoid j hj hne h).1]

theorem size_single (hi : i < R.fan) (hvoid : ∀ j < R.fan, j ≠ i → R.Void (ram p j)) :
    R.size ram h p = 1 + R.sizeUnder ram h (ram p i) := by
  rw [size, sum_single hi fun j hj hne => sizeUnder_none (hvoid j hj hne h).1]

theorem leaves_single (hi : i < R.fan) (hvoid : ∀ j < R.fan, j ≠ i → R.Void (ram p j)) (q : ℕ) :
    R.leaves ram h p q = R.leavesUnder ram h (ram p i) q := by
  rw [leaves, sum_single hi fun j hj hne =>
    leavesUnder_none (hvoid j hj hne h).2 (hvoid j hj hne h).1]

theorem every_single (hvoid : ∀ j < R.fan, j ≠ i → R.Void (ram p j) ∧ P h (ram p j))
    (hi : P h (ram p i) ∧ R.EveryUnder P ram h (ram p i)) : R.Every P ram h p := by
  intro j hj
  by_cases hji : j = i
  · exact hji ▸ hi
  · exact ⟨(hvoid j hj hji).2, everyUnder_none ((hvoid j hj hji).1 h).1⟩

theorem filled_single (hi : i < R.fan) (hvoid : ∀ j < R.fan, j ≠ i → R.Void (ram p j))
    (hused : used (ram p i)) (hunder : R.FilledUnder used ram h (ram p i)) :
    R.Filled used ram h p := by
  refine ⟨⟨i, hi, hused⟩, fun j hj => ?_⟩
  by_cases hji : j = i
  · exact hji ▸ hunder
  · cases h with
    | zero => trivial
    | succ h =>
        intro hw
        rw [(hvoid j hj hji (h + 1)).1] at hw
        exact absurd hw (by decide)

end Single

end Rpos.Base.Radix
