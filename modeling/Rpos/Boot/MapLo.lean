import Rpos.Boot.HighHalf
import Rpos.Memory.BlockMap

/-!
# The ranges of `map_lo`

`map_lo` cuts a range into 4 KiB pages up to a 2 MiB boundary, 2 MiB blocks and
4 KiB pages for the rest. A page view says what a tree translates, page by page
and without the bit that tells blocks from pages; each of the three parts draws
its pages into the view. A block finds its L2 slot unused because a used slot
has a page that the view shows.
-/

namespace Rpos

open Base

/-! ## §1  Page views -/

/-- What each page number translates to: the output address and the attributes
but for `type`. -/
abbrev View : Type := ℕ → Option (ℕ × Word)

/-- The view with the `n` pages from the page number `v` on drawn in. -/
def View.draw (E : View) (v n pa : ℕ) (w : Word) : View := fun x =>
  if pageOffset v x < n then some ((pa + pageOffset v x * pageSize) % 2 ^ 48, w)
  else E x

def View.Clear (E : View) (v n : ℕ) : Prop :=
  ∀ x < tableSize ^ 4, pageOffset v x < n → E x = none

/-- Attributes without the bit that tells pages from blocks. -/
def untyped (w : Word) : Word := Pte.type.set w 0

def pageView (ram : ℕ → ℕ → Word) (root : ℕ) : View := fun x =>
  (pageRadix.lookup ram 3 root x).map fun r =>
    (outputAddress r.1 r.2 (x * pageSize), untyped (attributes r.2))

/-- The offsets above `v + k` are those above `v` less `k`, around. -/
theorem pageOffset_add {v k x : ℕ} (hk : k ≤ tableSize ^ 4) (hx : x < tableSize ^ 4) :
    (pageOffset v x < k →
      pageOffset (v + k) x = pageOffset v x + tableSize ^ 4 - k) ∧
    (k ≤ pageOffset v x → pageOffset v x = pageOffset (v + k) x + k) := by
  simp only [pageOffset, tableSize] at *
  omega

section Draw

variable {E : View} {v k n pa : ℕ} {w : Word} {x : ℕ}

theorem View.draw_draw (hkn : k + n ≤ tableSize ^ 4) (hx : x < tableSize ^ 4) :
    (E.draw v k pa w).draw (v + k) n (pa + k * pageSize) w x =
      E.draw v (k + n) pa w x := by
  obtain ⟨hbefore, hafter⟩ :=
    pageOffset_add (v := v) (Nat.le_trans (Nat.le_add_right k n) hkn) hx
  simp only [View.draw]
  by_cases hin : pageOffset v x < k
  · have hout : ¬ pageOffset (v + k) x < n := by
      rw [hbefore hin]
      omega
    rw [if_neg hout, if_pos hin, if_pos (Nat.lt_add_right n hin)]
  · have hoff := hafter (Nat.le_of_not_lt hin)
    rw [hoff, if_neg (Nat.not_lt.mpr (Nat.le_add_left k _)), Nat.add_comm k n,
      Nat.add_mul, Nat.add_comm (_ * pageSize) (k * pageSize), ← Nat.add_assoc]
    simp only [Nat.add_lt_add_iff_right]

theorem View.Clear.mono (hclear : E.Clear v n) (hkn : k ≤ n) : E.Clear v k :=
  fun x hx hin => hclear x hx (Nat.lt_of_lt_of_le hin hkn)

/-- The rest of a clear range is clear when its first part is drawn. -/
theorem View.Clear.rest (hclear : E.Clear v (k + n)) (hkn : k + n ≤ tableSize ^ 4) :
    (E.draw v k pa w).Clear (v + k) n := by
  intro x hx hin
  obtain ⟨hbefore, hafter⟩ :=
    pageOffset_add (v := v) (Nat.le_trans (Nat.le_add_right k n) hkn) hx
  have hge : ¬ pageOffset v x < k := by
    intro hlt
    rw [hbefore hlt] at hin
    omega
  have hoff := hafter (Nat.le_of_not_lt hge)
  rw [View.draw, if_neg hge]
  refine hclear x hx ?_
  omega

theorem View.draw_zero : E.draw v 0 pa w = E :=
  funext fun _ => if_neg (Nat.not_lt_zero _)

end Draw

/-! ## §2  The static pages -/

structure TakesPages (n : ℕ) (b b' : Boot) : Prop where
  mono : b.loAllocatedPages ≤ b'.loAllocatedPages
  le : b'.loAllocatedPages ≤ b.loAllocatedPages + n

section Counts

variable (start : ℕ)

theorem TakesPages.refl (b : Boot) : TakesPages 0 b b := ⟨le_refl _, le_refl _⟩

theorem TakesPages.trans {n k : ℕ} {b b' b'' : Boot} (h : TakesPages n b b')
    (h' : TakesPages k b' b'') : TakesPages (n + k) b b'' := by
  refine ⟨le_trans h.mono h'.mono, le_trans h'.le ?_⟩
  rw [← Nat.add_assoc]
  exact Nat.add_le_add_right h.le k

theorem TakesPages.weaken {n k : ℕ} {b b' : Boot} (h : TakesPages n b b') (hk : n ≤ k) :
    TakesPages k b b' :=
  ⟨h.mono, le_trans h.le (Nat.add_le_add_left hk _)⟩

theorem nextTableLo_takes (t idx : ℕ) (b : Boot) :
    TakesPages 1 b (nextTableLo start t idx b).2 := by
  rw [nextTableLo]
  split_ifs
  · exact (TakesPages.refl b).weaken (Nat.zero_le 1)
  · exact ⟨Nat.le_succ _, le_refl _⟩

theorem mapL3Page_takes (va pa pt : ℕ) (perms : Permissions) (b : Boot) :
    TakesPages 3 b (mapL3Page start va pa pt perms b) := by
  have hwalk := fun l1 l2 => ((nextTableLo_takes start pt (idx0 va) b).trans
    (nextTableLo_takes start l1 (idx1 va) _)).trans (nextTableLo_takes start l2 (idx2 va) _)
  unfold mapL3Page
  dsimp only
  split_ifs
  · exact hwalk _ _
  · exact ⟨(hwalk _ _).mono, (hwalk _ _).le⟩

theorem mapL2Block_takes (va pa pt : ℕ) (perms : Permissions) (b : Boot) :
    TakesPages 2 b (mapL2Block start va pa pt perms b) := by
  have hwalk := fun l1 => (nextTableLo_takes start pt (idx0 va) b).trans
    (nextTableLo_takes start l1 (idx1 va) _)
  unfold mapL2Block
  dsimp only
  split_ifs
  · exact hwalk _
  · exact ⟨(hwalk _).mono, (hwalk _).le⟩

theorem mapL3Range_takes (pt : ℕ) (perms : Permissions) (n va pa : ℕ) (b : Boot) :
    TakesPages (3 * n) b (mapL3Range start pt perms n va pa b) := by
  induction n generalizing va pa b with
  | zero => exact TakesPages.refl b
  | succ n ih =>
      have hstep := (mapL3Page_takes start va pa pt perms b).trans
        (ih (va + pageSize) (pa + pageSize) _)
      exact hstep.weaken (Nat.le_of_eq (by rw [Nat.mul_succ, Nat.add_comm]))

theorem mapL2Range_takes (pt : ℕ) (perms : Permissions) (n va pa : ℕ) (b : Boot) :
    TakesPages (2 * n) b (mapL2Range start pt perms n va pa b) := by
  induction n generalizing va pa b with
  | zero => exact TakesPages.refl b
  | succ n ih =>
      have hstep := (mapL2Block_takes start va pa pt perms b).trans
        (ih (va + blockSize) (pa + blockSize) _)
      exact hstep.weaken (Nat.le_of_eq (by rw [Nat.mul_succ, Nat.add_comm]))

theorem mapLo_takes (va pa n pt : ℕ) (perms : Permissions) (b : Boot) :
    TakesPages (3 * n) b (mapLo start va pa n pt perms b) := by
  refine (((mapL3Range_takes start pt perms _ _ _ b).trans
    (mapL2Range_takes start pt perms _ _ _ _)).trans
      (mapL3Range_takes start pt perms _ _ _ _)).weaken ?_
  have hfront := Nat.min_le_right (frontPages va) n
  have hrest := Nat.div_add_mod (n - min (frontPages va) n) (2 ^ 9)
  omega

end Counts

/-! ## §3  A page and a block -/

/-- The tree at `root` shows the view `E`. Its tables are not among the static
pages left, up to page `S`, and a used L2 slot has a page in the view. -/
structure LoTree (start S root : ℕ) (E : View) (b : Boot) : Prop where
  tree : PageTree TableOrBlock b.ram root
  fresh : ∀ q, 0 < pageRadix.tables b.ram 3 root q →
    q < start + b.loAllocatedPages ∨ start + S ≤ q
  view : ∀ x < tableSize ^ 4, pageView b.ram root x = E x
  used : ∀ x < tableSize ^ 4, l2Slots.lookup b.ram 3 root x ≠ none →
    ∃ y < tableSize ^ 4, y / tableSize = x / tableSize ∧ E y ≠ none

section Walk

variable {start S root v e t : ℕ} {E : View} {b : Boot} {ram : ℕ → ℕ → Word}

theorem allocPageTableLo_new (hroom : start + S ≤ ramPages) (hlo : b.loAllocatedPages < S)
    (hfresh : ∀ q, 0 < pageRadix.tables b.ram 3 root q →
      q < start + b.loAllocatedPages ∨ start + S ≤ q) :
    (allocPageTableLo start b).1 / pageSize = start + b.loAllocatedPages ∧
      NewTable root (start + b.loAllocatedPages) b.ram (allocPageTableLo start b).2.ram := by
  have hpage : (allocPageTableLo start b).1 / pageSize = start + b.loAllocatedPages := by
    show (start * pageSize + pageSize * b.loAllocatedPages) / pageSize = _
    rw [Nat.mul_comm start, ← Nat.mul_add]
    exact Nat.mul_div_cancel_left _ (by decide)
  have hram : (allocPageTableLo start b).2.ram =
      Function.update b.ram (start + b.loAllocatedPages) fun _ => 0 := by
    rw [← hpage]
    rfl
  have hbelow : start + b.loAllocatedPages < start + S := Nat.add_lt_add_left hlo start
  refine ⟨hpage, Nat.lt_of_lt_of_le hbelow hroom, ?_, ?_, ?_⟩
  · by_contra hne
    rcases hfresh _ (Nat.pos_of_ne_zero hne) with hlt | hge
    · exact absurd hlt (Nat.lt_irrefl _)
    · exact absurd hbelow (Nat.not_lt.mpr hge)
  · intro i
    rw [hram, Function.update_self]
  · intro q hq
    rw [hram]
    refine Function.update_of_ne ?_ _ _
    rintro rfl
    rcases hfresh _ hq with hlt | hge
    · exact absurd hlt (Nat.lt_irrefl _)
    · exact absurd hbelow (Nat.not_lt.mpr hge)

theorem kCodeTableMapping_names {a : ℕ} (ha : a < ramPages) :
    NamesTable a (Pte.address.set kCodeTableMapping a) := by
  refine ⟨?_, ?_, address_get_set _ (Nat.lt_of_lt_of_le ha (by decide))⟩
  · rw [BitField.get_set_of_disjoint (by decide)]
    decide
  · rw [BitField.get_set_of_disjoint (by decide)]
    decide

structure LoWalk (start S root v e t : ℕ) (ram : ℕ → ℕ → Word) (b : Boot) : Prop where
  walked : Walked TableOrBlock root v e t ram b.ram
  fresh : ∀ q, 0 < pageRadix.tables b.ram 3 root q →
    q < start + b.loAllocatedPages ∨ start + S ≤ q

theorem LoWalk.invalid_step (hroom : start + S ≤ ramPages)
    (hw : LoWalk start S root v (e + 1) t ram b)
    (hv : Pte.valid.get (b.ram t (pageRadix.digit (e + 1) v)) ≠ 1)
    (hlo : (nextTableLo start t (pageRadix.digit (e + 1) v) b).2.loAllocatedPages ≤ S) :
    ∃ a ram1 w, NewTable root a b.ram ram1 ∧ NamesTable a w ∧
      nextTableLo start t (pageRadix.digit (e + 1) v) b =
        (a, ⟨Radix.setWord ram1 t (pageRadix.digit (e + 1) v) w,
          b.loAllocatedPages + 1⟩) ∧ a = start + b.loAllocatedPages := by
  have hrun : nextTableLo start t (pageRadix.digit (e + 1) v) b =
      (Pte.address.get (Pte.address.set kCodeTableMapping
        ((allocPageTableLo start b).1 / pageSize)),
        (allocPageTableLo start b).2.write t (pageRadix.digit (e + 1) v)
          (Pte.address.set kCodeTableMapping
            ((allocPageTableLo start b).1 / pageSize))) := by
    unfold nextTableLo
    exact if_neg hv
  have hlt : b.loAllocatedPages < S := by
    rw [hrun] at hlo
    exact hlo
  obtain ⟨hpage, hnew⟩ := allocPageTableLo_new hroom hlt hw.fresh
  have hword := kCodeTableMapping_names hnew.lt
  rw [hpage, hword.address] at hrun
  exact ⟨_, _, _, hnew, hword, hrun, rfl⟩

theorem LoWalk.next (hroom : start + S ≤ ramPages)
    (hw : LoWalk start S root v (e + 1) t ram b)
    (htype : Pte.valid.get (b.ram t (pageRadix.digit (e + 1) v)) = 1 →
      Pte.type.get (b.ram t (pageRadix.digit (e + 1) v)) = 1)
    (hlo : (nextTableLo start t (pageRadix.digit (e + 1) v) b).2.loAllocatedPages ≤ S) :
    LoWalk start S root v e (nextTableLo start t (pageRadix.digit (e + 1) v) b).1 ram
      (nextTableLo start t (pageRadix.digit (e + 1) v) b).2 := by
  by_cases hv : Pte.valid.get (b.ram t (pageRadix.digit (e + 1) v)) = 1
  · have hrun : nextTableLo start t (pageRadix.digit (e + 1) v) b =
        (Pte.address.get (b.ram t (pageRadix.digit (e + 1) v)), b) := if_pos hv
    rw [hrun]
    exact ⟨hw.walked.follow hv (htype hv), hw.fresh⟩
  · obtain ⟨a, ram1, w, hnew, hword, hrun, ha⟩ := hw.invalid_step hroom hv hlo
    rw [hrun]
    refine ⟨hw.walked.enter tableOrBlock_admits hv hnew hword, fun q hq => ?_⟩
    rw [hw.walked.enter_tables tableOrBlock_admits hv hnew hword q] at hq
    rw [← Nat.add_assoc]
    by_cases hqa : q = a
    · rw [hqa, ha]
      exact Or.inl (Nat.lt_succ_self _)
    · rw [if_neg hqa, Nat.add_zero] at hq
      exact (hw.fresh q hq).imp_left Nat.lt_succ_of_lt

theorem LoTree.walk (hroom : start + S ≤ ramPages) (hb : LoTree start S root E b) (va : ℕ) :
    let r1 := nextTableLo start root (idx0 va) b
    let r2 := nextTableLo start r1.1 (idx1 va) r1.2
    r2.2.loAllocatedPages ≤ S →
      LoWalk start S root (va / pageSize) 1 r2.1 b.ram r2.2 := by
  intro r1 r2 hlo
  obtain ⟨h0, h1, -⟩ := idx_eq va
  have hw0 : LoWalk start S root (va / pageSize) 3 root b.ram b :=
    ⟨Walked.start hb.tree, hb.fresh⟩
  have hlo1 : r1.2.loAllocatedPages ≤ S :=
    le_trans (nextTableLo_takes start r1.1 (idx1 va) r1.2).mono hlo
  have hw1 : LoWalk start S root (va / pageSize) 2 r1.1 b.ram r1.2 := by
    simp only [r1, h0] at hlo1 ⊢
    exact hw0.next hroom (tableOrBlock_form 1 _ hw0.walked.form) hlo1
  simp only [r2, h1] at hlo ⊢
  exact hw1.next hroom (tableOrBlock_form 0 _ hw1.walked.form) hlo

theorem LoWalk.next_slots (hroom : start + S ≤ ramPages)
    (hw : LoWalk start S root v 1 t ram b)
    (hlo : (nextTableLo start t (pageRadix.digit 1 v) b).2.loAllocatedPages ≤ S) {x : ℕ}
    (hx : x < tableSize ^ 4)
    (hused : l2Slots.lookup (nextTableLo start t (pageRadix.digit 1 v) b).2.ram 3 root x ≠
      none) :
    x / tableSize = v % tableSize ^ 4 / tableSize ∨ l2Slots.lookup ram 3 root x ≠ none := by
  by_cases hv : Pte.valid.get (b.ram t (pageRadix.digit 1 v)) = 1
  · have hrun : nextTableLo start t (pageRadix.digit 1 v) b =
        (Pte.address.get (b.ram t (pageRadix.digit 1 v)), b) := if_pos hv
    rw [hrun, hw.walked.slots (le_refl 1)] at hused
    exact Or.inr hused
  · obtain ⟨a, ram1, w, hnew, hword, hrun, -⟩ := hw.invalid_step hroom hv hlo
    rw [hrun, hw.walked.enter_slots hnew hword hx] at hused
    by_cases hxv : x / tableSize = v % tableSize ^ 4 / tableSize
    · exact Or.inl hxv
    · rw [if_neg hxv] at hused
      exact Or.inr hused

end Walk

section Leaves

def loLeaf (isPage : ℕ) (perms : Permissions) (pa : ℕ) : Word :=
  Pte.address.set (setPermissions (Pte.type.set kCodeMemMapping isPage) perms)
    (pa / pageSize)

def loAttributes (perms : Permissions) : Word :=
  untyped (setPermissions kCodeMemMapping perms)

theorem loLeaf_page (perms : Permissions) (pa : ℕ) :
    loLeaf 1 perms pa =
      Pte.address.set (setPermissions kCodeMemMapping perms) (pa / pageSize) := by
  have hpage : Pte.type.set kCodeMemMapping 1 = kCodeMemMapping := by decide
  rw [loLeaf, hpage]

theorem loLeaf_get {isPage : ℕ} (perms : Permissions) (pa : ℕ) (hpage : isPage < 2) :
    Pte.valid.get (loLeaf isPage perms pa) = 1 ∧
      Pte.type.get (loLeaf isPage perms pa) = isPage := by
  rw [loLeaf, BitField.get_set_of_disjoint (by decide),
    BitField.get_set_of_disjoint (by decide)]
  cases perms <;> revert isPage <;> decide +kernel

theorem loLeaf_attributes {isPage : ℕ} (perms : Permissions) (pa : ℕ)
    (hpage : isPage < 2) :
    untyped (attributes (loLeaf isPage perms pa)) = loAttributes perms := by
  rw [attributes, loLeaf, BitField.set_set]
  cases perms <;> revert isPage <;> decide +kernel

theorem loLeaf_address (isPage : ℕ) (perms : Permissions) (pa : ℕ) :
    Pte.address.get (loLeaf isPage perms pa) = pa / pageSize % 2 ^ 36 :=
  BitField.get_set _ _ _

theorem loLeaf_page_output (perms : Permissions) {pa : ℕ} (hpa : pa % pageSize = 0)
    (x : ℕ) : outputAddress 0 (loLeaf 1 perms pa) (x * pageSize) = pa % 2 ^ 48 := by
  simp only [outputAddress, loLeaf_address, pow_zero, pageSize] at *
  omega

/-- A block descriptor maps the page `x` to its place in the block. -/
theorem loLeaf_block_output (perms : Permissions) {pa : ℕ} (hpa : pa % blockSize = 0)
    (x : ℕ) : outputAddress 1 (loLeaf 0 perms pa) (x * pageSize) =
      (pa + x % tableSize * pageSize) % 2 ^ 48 := by
  simp only [outputAddress, loLeaf_address, pow_one, pageSize, tableSize, blockSize] at *
  omega

end Leaves

section Draws

variable {start S root va pa : ℕ} {E : View} {b : Boot} {perms : Permissions}

theorem View.draw_ne_none {v n p y : ℕ} {w : Word} (hy : E y ≠ none) :
    E.draw v n p w y ≠ none := by
  rw [View.draw]
  split_ifs
  · exact Option.some_ne_none _
  · exact hy

theorem LoTree.unmapped (hb : LoTree start S root E b) {x : ℕ}
    (hx : E (x % tableSize ^ 4) = none) : pageRadix.lookup b.ram 3 root x = none := by
  rw [← hb.view _ (Nat.mod_lt _ (by decide)), pageView, Option.map_eq_none_iff] at hx
  exact (Radix.lookup_mod (R := pageRadix) b.ram 3 root x).symm.trans hx

theorem LoTree.walkPage (hroom : start + S ≤ ramPages) (hb : LoTree start S root E b)
    (hnone : pageRadix.lookup b.ram 3 root (va / pageSize) = none) :
    let r1 := nextTableLo start root (idx0 va) b
    let r2 := nextTableLo start r1.1 (idx1 va) r1.2
    let r3 := nextTableLo start r2.1 (idx2 va) r2.2
    r3.2.loAllocatedPages ≤ S →
      LoWalk start S root (va / pageSize) 0 r3.1 b.ram r3.2 ∧
      ∀ x < tableSize ^ 4, l2Slots.lookup r3.2.ram 3 root x ≠ none →
        x / tableSize = va / pageSize % tableSize ^ 4 / tableSize ∨
          l2Slots.lookup b.ram 3 root x ≠ none := by
  intro r1 r2 r3 hlo
  obtain ⟨-, -, h2, -⟩ := idx_eq va
  have hw := hb.walk hroom va (le_trans (nextTableLo_takes start r2.1 (idx2 va) r2.2).mono hlo)
  -- the L2 slot holds no block, since the page is not mapped
  have htype : Pte.valid.get (r2.2.ram r2.1 (pageRadix.digit 1 (va / pageSize))) = 1 →
      Pte.type.get (r2.2.ram r2.1 (pageRadix.digit 1 (va / pageSize))) = 1 := by
    intro hv
    by_contra hne
    have hblock : Pte.type.get (r2.2.ram r2.1 (pageRadix.digit 1 (va / pageSize))) = 0 := by
      refine Nat.lt_one_iff.mp (Nat.lt_of_le_of_ne (Nat.le_of_lt_succ ?_) hne)
      exact BitField.get_lt Pte.type _
    rw [hw.walked.lookup_leaf (block_leaf hv hblock) (block_not_table 1 hblock)] at hnone
    exact absurd hnone (Option.some_ne_none _)
  simp only [r3, h2] at hlo ⊢
  exact ⟨hw.next hroom htype hlo, fun x hx => hw.next_slots hroom hlo hx⟩

theorem mapL3Page_run (va pa : ℕ) (perms : Permissions) (b : Boot) :
    let r1 := nextTableLo start root (idx0 va) b
    let r2 := nextTableLo start r1.1 (idx1 va) r1.2
    let r3 := nextTableLo start r2.1 (idx2 va) r2.2
    mapL3Page start va pa root perms b =
      if Pte.valid.get (r3.2.ram r3.1 (idx3 va)) = 1 then r3.2
      else r3.2.write r3.1 (idx3 va) (loLeaf 1 perms pa) := by
  intro r1 r2 r3
  rw [loLeaf_page]
  rfl

theorem Boot.write_setWord (b : Boot) (t j : ℕ) (w : Word) :
    (b.write t j w).ram = Radix.setWord b.ram t j w := rfl

theorem View.draw_used {v n p : ℕ} {w : Word} {x : ℕ} {used : Prop} (hn : 0 < n)
    (hused : used → ∃ y < tableSize ^ 4, y / tableSize = x / tableSize ∧ E y ≠ none)
    (hx : x / tableSize = v % tableSize ^ 4 / tableSize ∨ used) :
    ∃ y < tableSize ^ 4, y / tableSize = x / tableSize ∧ E.draw v n p w y ≠ none := by
  rcases hx with hslot | hold
  · refine ⟨v % tableSize ^ 4, Nat.mod_lt _ (by decide), hslot.symm, ?_⟩
    have hzero : pageOffset v (v % tableSize ^ 4) = 0 := by
      simp only [pageOffset, tableSize]
      omega
    rw [View.draw, hzero, if_pos hn]
    exact Option.some_ne_none _
  · obtain ⟨y, hy, hslot, hsome⟩ := hused hold
    exact ⟨y, hy, hslot, View.draw_ne_none hsome⟩

theorem LoTree.mapL3Page (hroom : start + S ≤ ramPages) (hb : LoTree start S root E b)
    (hpa : pa % pageSize = 0) (hclear : E.Clear (va / pageSize) 1)
    (hlo : (mapL3Page start va pa root perms b).loAllocatedPages ≤ S) :
    LoTree start S root (E.draw (va / pageSize) 1 pa (loAttributes perms))
      (mapL3Page start va pa root perms b) := by
  have hself : ∀ x < tableSize ^ 4,
      x = va / pageSize % tableSize ^ 4 ↔ pageOffset (va / pageSize) x < 1 := by
    intro x hx
    simp only [pageOffset, tableSize] at *
    omega
  have hnone : pageRadix.lookup b.ram 3 root (va / pageSize) = none :=
    hb.unmapped (hclear _ (Nat.mod_lt _ (by decide))
      ((hself _ (Nat.mod_lt _ (by decide))).mp rfl))
  obtain ⟨-, -, -, h3⟩ := idx_eq va
  have hwalk := hb.walkPage hroom hnone
  rw [mapL3Page_run] at hlo ⊢
  dsimp only at hlo hwalk ⊢
  generalize nextTableLo start _ (idx2 va) _ = r3 at hwalk hlo ⊢
  obtain ⟨hw, hslots⟩ := hwalk (by split_ifs at hlo <;> exact hlo)
  have hvalid : ¬ Pte.valid.get (r3.2.ram r3.1 (pageRadix.digit 0 (va / pageSize))) = 1 :=
    fun hv => (hw.walked.lookup_l3 fun _ hform => hform (by decide)).mp hv hnone
  obtain ⟨hleaf, htype⟩ := loLeaf_get perms pa (by decide : 1 < 2)
  obtain ⟨htree, htables⟩ := hw.walked.place (not_table_zero _) (page_leaf hleaf htype)
    (not_table_zero _) fun _ _ => htype
  rw [h3, if_neg hvalid]
  refine ⟨htree, fun q hq => ?_, fun x hx => ?_, fun x hx hused => ?_⟩
  · rw [Boot.write_setWord, htables q] at hq
    exact hw.fresh q hq
  · rw [pageView, Boot.write_setWord, hw.walked.place_lookup (not_table_zero _)
      (page_leaf hleaf htype) (not_table_zero _) hx, pow_zero, Nat.div_one, Nat.div_one,
      View.draw]
    by_cases hxv : x = va / pageSize % tableSize ^ 4
    · have hoff := (hself x hx).mp hxv
      rw [if_pos hxv, if_pos hoff, Nat.lt_one_iff.mp hoff, Nat.zero_mul, Nat.add_zero,
        Option.map_some, loLeaf_page_output perms hpa, loLeaf_attributes perms pa (by decide)]
    · rw [if_neg hxv, if_neg fun hoff => hxv ((hself x hx).mpr hoff)]
      exact hb.view x hx
  · rw [Boot.write_setWord, hw.walked.place_page_slots] at hused
    exact View.draw_used Nat.one_pos (hb.used x hx) (hslots x hx hused)

theorem mapL2Block_run (va pa : ℕ) (perms : Permissions) (b : Boot) :
    let r1 := nextTableLo start root (idx0 va) b
    let r2 := nextTableLo start r1.1 (idx1 va) r1.2
    mapL2Block start va pa root perms b =
      if Pte.valid.get (r2.2.ram r2.1 (idx2 va)) = 1 then r2.2
      else r2.2.write r2.1 (idx2 va) (loLeaf 0 perms pa) := rfl

theorem LoTree.mapL2Block (hroom : start + S ≤ ramPages) (hb : LoTree start S root E b)
    (hva : va % blockSize = 0) (hpa : pa % blockSize = 0)
    (hclear : E.Clear (va / pageSize) tableSize)
    (hlo : (mapL2Block start va pa root perms b).loAllocatedPages ≤ S) :
    LoTree start S root (E.draw (va / pageSize) tableSize pa (loAttributes perms))
      (mapL2Block start va pa root perms b) := by
  obtain ⟨-, -, h2, -⟩ := idx_eq va
  have hblock := fun x hx => (pageOffset_block hva (x := x) hx).1
  -- a used slot would have a page in the view
  have hfree : l2Slots.lookup b.ram 3 root (va / pageSize) = none := by
    have hself : va / pageSize % tableSize ^ 4 < tableSize ^ 4 := Nat.mod_lt _ (by decide)
    rw [← slots_lookup_congr b.ram root hself rfl]
    by_contra hused
    obtain ⟨y, hy, hslot, hsome⟩ := hb.used _ hself hused
    exact hsome (hclear y hy ((hblock y hy).mp hslot))
  have hwalk := hb.walk hroom va
  rw [mapL2Block_run] at hlo ⊢
  dsimp only at hlo hwalk ⊢
  generalize nextTableLo start _ (idx1 va) _ = r2 at hwalk hlo ⊢
  have hw := hwalk (by split_ifs at hlo <;> exact hlo)
  have hvalid : ¬ Pte.valid.get (r2.2.ram r2.1 (pageRadix.digit 1 (va / pageSize))) = 1 :=
    fun hv => hw.walked.slot_valid.mp hv hfree
  obtain ⟨hleaf, htype⟩ := loLeaf_get perms pa (by decide : 0 < 2)
  have hold := (void_of_invalid hvalid 1).1
  have hnot := block_not_table 1 htype
  obtain ⟨htree, htables⟩ := hw.walked.place hold (block_leaf hleaf htype) hnot
    fun h => absurd rfl h
  rw [h2, if_neg hvalid]
  refine ⟨htree, fun q hq => ?_, fun x hx => ?_, fun x hx hused => ?_⟩
  · rw [Boot.write_setWord, htables q] at hq
    exact hw.fresh q hq
  · rw [pageView, Boot.write_setWord,
      hw.walked.place_lookup hold (block_leaf hleaf htype) hnot hx, pow_one, View.draw]
    by_cases hxv : x / tableSize = va / pageSize % tableSize ^ 4 / tableSize
    · have hoff := (hblock x hx).mp hxv
      have hplace : x % tableSize = pageOffset (va / pageSize) x := by
        simp only [pageOffset, pageSize, tableSize, blockSize] at *
        omega
      rw [if_pos hxv, if_pos hoff, Option.map_some, loLeaf_block_output perms hpa,
        loLeaf_attributes perms pa (by decide), hplace]
    · rw [if_neg hxv, if_neg fun hoff => hxv ((hblock x hx).mpr hoff)]
      exact hb.view x hx
  · rw [Boot.write_setWord, hw.walked.place_slots hleaf hx] at hused
    refine View.draw_used (by decide) (hb.used x hx) ?_
    by_cases hxv : x / tableSize = va / pageSize % tableSize ^ 4 / tableSize
    · exact Or.inl hxv
    · rw [if_neg hxv] at hused
      exact Or.inr hused

end Draws

/-! ## §4  Ranges -/

section Ranges

variable {start S root : ℕ} {perms : Permissions}

theorem LoTree.congr {E E' : View} {b : Boot} (hb : LoTree start S root E b)
    (hE : ∀ x < tableSize ^ 4, E x = E' x) : LoTree start S root E' b := by
  refine ⟨hb.tree, hb.fresh, fun x hx => (hb.view x hx).trans (hE x hx), ?_⟩
  intro x hx hused
  obtain ⟨y, hy, hslot, hsome⟩ := hb.used x hx hused
  exact ⟨y, hy, hslot, hE y hy ▸ hsome⟩

theorem LoTree.mapL3Range (hroom : start + S ≤ ramPages) (n : ℕ) (hn : n ≤ tableSize ^ 4) :
    ∀ (va pa : ℕ) (E : View) (b : Boot), LoTree start S root E b → pa % pageSize = 0 →
      E.Clear (va / pageSize) n →
      (mapL3Range start root perms n va pa b).loAllocatedPages ≤ S →
      LoTree start S root (E.draw (va / pageSize) n pa (loAttributes perms))
        (mapL3Range start root perms n va pa b) := by
  induction n with
  | zero =>
      intro va pa E b hb _ _ _
      rw [View.draw_zero]
      exact hb
  | succ n ih =>
      intro va pa E b hb hpa hclear hlo
      have hsum : 1 + n ≤ tableSize ^ 4 := Nat.add_comm 1 n ▸ hn
      have hnext : (va + pageSize) / pageSize = va / pageSize + 1 :=
        Nat.add_div_right va (by decide)
      rw [Nat.add_comm n 1] at hclear
      have hone : (Rpos.mapL3Page start va pa root perms b).loAllocatedPages ≤ S :=
        le_trans (mapL3Range_takes start root perms n _ _ _).mono hlo
      have hpage := hb.mapL3Page hroom hpa (hclear.mono (Nat.le_add_right 1 n)) hone
      have hrest := ih (Nat.le_of_succ_le hn) (va + pageSize) (pa + pageSize) _ _ hpage
        ((Nat.add_mod_right pa pageSize).trans hpa) (hnext ▸ hclear.rest hsum) hlo
      rw [hnext] at hrest
      refine hrest.congr fun x hx => ?_
      have hdraw : (E.draw (va / pageSize) 1 pa (loAttributes perms)).draw
          (va / pageSize + 1) n (pa + 1 * pageSize) (loAttributes perms) x =
            E.draw (va / pageSize) (1 + n) pa (loAttributes perms) x :=
        View.draw_draw hsum hx
      rw [Nat.one_mul] at hdraw
      rw [hdraw, Nat.add_comm 1 n]

theorem LoTree.mapL2Range (hroom : start + S ≤ ramPages) (n : ℕ)
    (hn : n * tableSize ≤ tableSize ^ 4) :
    ∀ (va pa : ℕ) (E : View) (b : Boot), LoTree start S root E b →
      (0 < n → va % blockSize = 0 ∧ pa % blockSize = 0) →
      E.Clear (va / pageSize) (n * tableSize) →
      (mapL2Range start root perms n va pa b).loAllocatedPages ≤ S →
      LoTree start S root (E.draw (va / pageSize) (n * tableSize) pa (loAttributes perms))
        (mapL2Range start root perms n va pa b) := by
  induction n with
  | zero =>
      intro va pa E b hb _ _ _
      rw [Nat.zero_mul, View.draw_zero]
      exact hb
  | succ n ih =>
      intro va pa E b hb haligned hclear hlo
      obtain ⟨hva, hpa⟩ := haligned (Nat.succ_pos n)
      have hsucc : (n + 1) * tableSize = tableSize + n * tableSize := by
        rw [Nat.succ_mul, Nat.add_comm]
      have hsum : tableSize + n * tableSize ≤ tableSize ^ 4 := hsucc ▸ hn
      have hnext : (va + blockSize) / pageSize = va / pageSize + tableSize := by
        simp only [blockSize, pageSize, tableSize]
        omega
      have hbytes : tableSize * pageSize = blockSize := by decide
      rw [hsucc] at hclear
      have hone : (Rpos.mapL2Block start va pa root perms b).loAllocatedPages ≤ S :=
        le_trans (mapL2Range_takes start root perms n _ _ _).mono hlo
      have hblock := hb.mapL2Block hroom hva hpa (hclear.mono (Nat.le_add_right tableSize _))
        hone
      have hrest := ih (le_trans (Nat.le_add_left _ _) hsum) (va + blockSize)
        (pa + blockSize) _ _ hblock
        (fun _ => ⟨(Nat.add_mod_right va blockSize).trans hva,
          (Nat.add_mod_right pa blockSize).trans hpa⟩) (hnext ▸ hclear.rest hsum) hlo
      rw [hnext] at hrest
      refine hrest.congr fun x hx => ?_
      have hdraw : (E.draw (va / pageSize) tableSize pa (loAttributes perms)).draw
          (va / pageSize + tableSize) (n * tableSize) (pa + tableSize * pageSize)
            (loAttributes perms) x =
            E.draw (va / pageSize) (tableSize + n * tableSize) pa (loAttributes perms) x :=
        View.draw_draw hsum hx
      rw [hbytes] at hdraw
      rw [hdraw, hsucc]

theorem frontPages_aligned {va pa n : ℕ} (hva : va % pageSize = 0)
    (hsame : va % blockSize = pa % blockSize)
    (hblocks : 0 < (n - min (frontPages va) n) / 2 ^ 9) :
    (va + min (frontPages va) n * pageSize) % blockSize = 0 ∧
      (pa + min (frontPages va) n * pageSize) % blockSize = 0 := by
  have hfront : min (frontPages va) n = frontPages va := by omega
  rw [hfront]
  simp only [frontPages, pageSize, blockSize] at *
  omega

theorem LoTree.mapLo (hroom : start + S ≤ ramPages) {va pa n : ℕ} {E : View} {b : Boot}
    (hb : LoTree start S root E b) (hn : n ≤ tableSize ^ 4) (hva : va % pageSize = 0)
    (hpa : pa % pageSize = 0) (hsame : va % blockSize = pa % blockSize)
    (hclear : E.Clear (va / pageSize) n)
    (hlo : (mapLo start va pa n root perms b).loAllocatedPages ≤ S) :
    LoTree start S root (E.draw (va / pageSize) n pa (loAttributes perms))
      (mapLo start va pa n root perms b) := by
  have hblocks := frontPages_aligned (n := n) hva hsame
  unfold Rpos.mapLo at hlo ⊢
  dsimp only at hlo ⊢
  generalize hk : min (frontPages va) n = k at hlo hblocks ⊢
  have hkn : k ≤ n := hk ▸ Nat.min_le_right _ _
  generalize hq : (n - k) / 2 ^ 9 = q at hlo hblocks ⊢
  generalize hr : (n - k) % 2 ^ 9 = r at hlo ⊢
  have hparts : n = k + q * tableSize + r := by
    have hdiv := Nat.div_add_mod (n - k) (2 ^ 9)
    simp only [tableSize]
    omega
  have hsum : k + q * tableSize + r ≤ tableSize ^ 4 := hparts ▸ hn
  have hsum' : k + q * tableSize ≤ tableSize ^ 4 := le_trans (Nat.le_add_right _ r) hsum
  have hstart : (va + k * pageSize) / pageSize = va / pageSize + k :=
    Nat.add_mul_div_right va k (by decide)
  have hbytes : q * blockSize = q * tableSize * pageSize := by
    have hsize : tableSize * pageSize = blockSize := by decide
    rw [Nat.mul_assoc, hsize]
  have hrest : (va + k * pageSize + q * blockSize) / pageSize =
      va / pageSize + (k + q * tableSize) := by
    rw [hbytes, Nat.add_assoc, ← Nat.add_mul]
    exact Nat.add_mul_div_right va _ (by decide)
  rw [hparts] at hclear
  have hlo2 := le_trans (mapL3Range_takes start root perms r _ _ _).mono hlo
  have hlo1 := le_trans (mapL2Range_takes start root perms q _ _ _).mono hlo2
  have hfront := LoTree.mapL3Range hroom k (le_trans (Nat.le_add_right k _) hsum') va pa E b
    hb hpa ((hclear.mono (Nat.le_add_right _ r)).mono (Nat.le_add_right k _)) hlo1
  have hmiddle := LoTree.mapL2Range hroom q (le_trans (Nat.le_add_left _ k) hsum')
    (va + k * pageSize) (pa + k * pageSize) _ _ hfront hblocks
    (hstart ▸ (hclear.mono (Nat.le_add_right _ r)).rest hsum') hlo2
  rw [hstart] at hmiddle
  have hmiddle' := hmiddle.congr fun x hx => View.draw_draw hsum' hx
  have hlast := LoTree.mapL3Range hroom r (le_trans (Nat.le_add_left r _) hsum)
    (va + k * pageSize + q * blockSize) (pa + k * pageSize + q * blockSize) _ _ hmiddle'
    (by rw [hbytes, Nat.add_mul_mod_self_right, Nat.add_mul_mod_self_right]; exact hpa)
    (hrest ▸ hclear.rest hsum) hlo
  rw [hrest, hbytes, Nat.add_assoc pa, ← Nat.add_mul] at hlast
  rw [hparts]
  rw [hbytes, Nat.add_assoc pa, ← Nat.add_mul]
  exact hlast.congr fun x hx => View.draw_draw hsum hx

end Ranges

/-! ## §5  Sequences of calls -/

/-- The arguments of a call of `map_lo`, but for the table. -/
structure Region where
  va : ℕ
  pa : ℕ
  pages : ℕ
  perms : Permissions

namespace Region

def Covers (c : Region) (a : ℕ) : Prop := c.va ≤ a ∧ a < c.va + c.pages * pageSize

/-- The region lies in the half of the address space at `base`, and `map_lo`
finds its blocks aligned. -/
structure Ok (base : ℕ) (c : Region) : Prop where
  va_aligned : c.va % pageSize = 0
  pa_aligned : c.pa % pageSize = 0
  same : c.va % blockSize = c.pa % blockSize
  pages : c.pages < 2 ^ 31
  lower : base ≤ c.va
  upper : c.va + c.pages * pageSize ≤ base + 2 ^ 48

def Disjoint (c d : Region) : Prop := ∀ a, ¬ (c.Covers a ∧ d.Covers a)

def mapLo (start root : ℕ) (c : Region) : Boot → Boot :=
  Rpos.mapLo start c.va c.pa c.pages root c.perms

/-- `map_l3_range` on the region. -/
def mapL3 (start root : ℕ) (c : Region) : Boot → Boot :=
  mapL3Range start root c.perms c.pages c.va c.pa

def Has (c : Region) (x : ℕ) : Prop := pageOffset (c.va / pageSize) x < c.pages

def draw (c : Region) (E : View) : View :=
  E.draw (c.va / pageSize) c.pages c.pa (loAttributes c.perms)

end Region

/-- The bits `ap` and `pxn` of a region, from the `switch` of the mappers. -/
def Permissions.bits : Permissions → ℕ × ℕ
  | .ro => (2, 1)
  | .rw => (0, 1)
  | .rx => (2, 0)

def mapAll (f : Region → Boot → Boot) (calls : List Region) (b : Boot) : Boot :=
  calls.foldl (fun b c => f c b) b

def drawAll (calls : List Region) (E : View) : View :=
  calls.foldl (fun E c => c.draw E) E

structure DrawsRegions (start S root base : ℕ) (f : Region → Boot → Boot) : Prop where
  mono : ∀ c b, b.loAllocatedPages ≤ (f c b).loAllocatedPages
  draws : ∀ {c E b}, LoTree start S root E b → c.Ok base → E.Clear (c.va / pageSize) c.pages →
    (f c b).loAllocatedPages ≤ S → LoTree start S root (c.draw E) (f c b)

section Calls

variable {start S root base : ℕ} {E : View} {calls : List Region}

theorem Region.Ok.pages_le {c : Region} (hc : c.Ok base) : c.pages ≤ tableSize ^ 4 :=
  le_trans hc.pages.le (by decide)

theorem mapLo_draws (base : ℕ) (hroom : start + S ≤ ramPages) :
    DrawsRegions start S root base (Region.mapLo start root) where
  mono c b := (mapLo_takes start c.va c.pa c.pages root c.perms b).mono
  draws hb hc hclear hlo :=
    hb.mapLo hroom hc.pages_le hc.va_aligned hc.pa_aligned hc.same hclear hlo

theorem mapL3_draws (base : ℕ) (hroom : start + S ≤ ramPages) :
    DrawsRegions start S root base (Region.mapL3 start root) where
  mono c b := (mapL3Range_takes start root c.perms c.pages c.va c.pa b).mono
  draws {c E b} hb hc hclear hlo :=
    LoTree.mapL3Range hroom c.pages hc.pages_le c.va c.pa E b hb hc.pa_aligned hclear hlo

theorem DrawsRegions.mapAll_mono {f : Region → Boot → Boot}
    (hf : DrawsRegions start S root base f) (calls : List Region) (b : Boot) :
    b.loAllocatedPages ≤ (mapAll f calls b).loAllocatedPages := by
  induction calls generalizing b with
  | nil => exact le_refl _
  | cons c rest ih => exact le_trans (hf.mono c b) (ih (f c b))

theorem Region.Ok.has_iff {c : Region} (hbase : base % 2 ^ 48 = 0) (hc : c.Ok base) {a : ℕ}
    (hlow : base ≤ a) (hhigh : a < base + 2 ^ 48) :
    c.Has (a / pageSize % tableSize ^ 4) ↔ c.Covers a := by
  obtain ⟨hva, -, -, -, hlower, hupper⟩ := hc
  simp only [Has, Covers, pageOffset, pageSize, tableSize] at *
  omega

/-- Three static pages for each page of the regions are enough. -/
theorem mapAll_takes {f : Region → Boot → Boot}
    (hf : ∀ c b, TakesPages (3 * c.pages) b (f c b)) (calls : List Region) (b : Boot) :
    TakesPages (3 * (calls.map Region.pages).sum) b (mapAll f calls b) := by
  induction calls generalizing b with
  | nil => exact TakesPages.refl b
  | cons c rest ih =>
      rw [List.map_cons, List.sum_cons, Nat.mul_add]
      exact (hf c b).trans (ih (f c b))

theorem Region.Disjoint.pages {c d : Region} (hbase : base % 2 ^ 48 = 0) (hc : c.Ok base)
    (hd : d.Ok base) (hcd : c.Disjoint d) {x : ℕ} (hx : x < tableSize ^ 4) (hxc : c.Has x) :
    ¬ d.Has x := by
  have haddr : (base + x * pageSize) / pageSize % tableSize ^ 4 = x ∧
      base + x * pageSize < base + 2 ^ 48 := by
    simp only [pageSize, tableSize] at *
    omega
  have hcovers := fun {e : Region} (he : e.Ok base) =>
    he.has_iff hbase (Nat.le_add_right base (x * pageSize)) haddr.2
  simp only [haddr.1] at hcovers
  exact fun hxd => hcd _ ⟨(hcovers hc).mp hxc, (hcovers hd).mp hxd⟩

theorem Region.draw_of_has {c : Region} {x : ℕ} (hx : c.Has x) :
    c.draw E x = some ((c.pa + pageOffset (c.va / pageSize) x * pageSize) % 2 ^ 48,
      loAttributes c.perms) := by
  have hin : pageOffset (c.va / pageSize) x < c.pages := hx
  rw [Region.draw, View.draw, if_pos hin]

theorem Region.draw_of_not_has {c : Region} {x : ℕ} (hx : ¬ c.Has x) :
    c.draw E x = E x := by
  have hout : ¬ pageOffset (c.va / pageSize) x < c.pages := hx
  rw [Region.draw, View.draw, if_neg hout]

theorem drawAll_cons (c : Region) : drawAll (c :: calls) E = drawAll calls (c.draw E) := by
  unfold drawAll
  exact List.foldl_cons

theorem drawAll_of_not_has {x : ℕ} (hout : ∀ c ∈ calls, ¬ c.Has x) :
    drawAll calls E x = E x := by
  induction calls generalizing E with
  | nil => rfl
  | cons c rest ih =>
      rw [drawAll_cons, ih fun d hd => hout d (List.mem_cons_of_mem c hd)]
      exact Region.draw_of_not_has (hout c List.mem_cons_self)

theorem drawAll_of_has {x : ℕ} {c : Region}
    (hdis : calls.Pairwise fun c d => c.Has x → ¬ d.Has x) (hc : c ∈ calls) (hx : c.Has x) :
    drawAll calls E x = some ((c.pa + pageOffset (c.va / pageSize) x * pageSize) % 2 ^ 48,
      loAttributes c.perms) := by
  induction calls generalizing E with
  | nil => exact absurd hc List.not_mem_nil
  | cons d rest ih =>
      obtain ⟨hfirst, hrest⟩ := List.pairwise_cons.mp hdis
      rw [drawAll_cons]
      rcases List.mem_cons.mp hc with rfl | hmem
      · rw [drawAll_of_not_has fun e he => hfirst e he hx]
        exact Region.draw_of_has hx
      · exact ih hrest hmem

/-- Mapping disjoint regions of a clear part of the view draws them all. -/
theorem DrawsRegions.drawAll {f : Region → Boot → Boot} (hbase : base % 2 ^ 48 = 0)
    (hf : DrawsRegions start S root base f) {b : Boot} (hb : LoTree start S root E b)
    (hok : ∀ c ∈ calls, c.Ok base) (hdis : calls.Pairwise Region.Disjoint)
    (hclear : ∀ c ∈ calls, E.Clear (c.va / pageSize) c.pages)
    (hlo : (mapAll f calls b).loAllocatedPages ≤ S) :
    LoTree start S root (drawAll calls E) (mapAll f calls b) := by
  induction calls generalizing E b with
  | nil => exact hb
  | cons c rest ih =>
      obtain ⟨hfirst, hrest⟩ := List.pairwise_cons.mp hdis
      have hc := hok c List.mem_cons_self
      have hokRest : ∀ d ∈ rest, d.Ok base := fun d hd => hok d (List.mem_cons_of_mem c hd)
      have hdraw := hf.draws hb hc (hclear c List.mem_cons_self)
        (le_trans (hf.mapAll_mono rest (f c b)) hlo)
      rw [drawAll_cons]
      refine ih hdraw hokRest hrest (fun d hd x hx hin => ?_) hlo
      have hnot : ¬ c.Has x := fun hxc =>
        (hfirst d hd).pages hbase hc (hokRest d hd) hx hxc hin
      rw [Region.draw_of_not_has hnot]
      exact hclear d (List.mem_cons_of_mem c hd) x hx hin

theorem LoTree.empty {b : Boot} (hroot : root < ramPages)
    (hout : root < start + b.loAllocatedPages ∨ start + S ≤ root)
    (hempty : ∀ i < tableSize, Pte.valid.get (b.ram root i) ≠ 1) :
    LoTree start S root (fun _ => none) b := by
  have hvoid : ∀ i < pageRadix.fan, pageRadix.Void (b.ram root i) :=
    fun i hi => void_of_invalid (hempty i hi)
  have hslots : ∀ i < l2Slots.fan, l2Slots.Void (b.ram root i) :=
    fun i hi => l2Slots_void (hempty i hi)
  have htables : ∀ q, 0 < pageRadix.tables b.ram 3 root q → q = root := by
    intro q hq
    by_contra hne
    rw [Radix.tables_void hvoid, if_neg hne] at hq
    exact absurd hq (Nat.lt_irrefl 0)
  refine ⟨⟨fun q => ?_, ?_, fun q hq => ?_⟩, fun q hq => ?_, fun x _ => ?_, fun x _ hused => ?_⟩
  · rw [Radix.tables_void hvoid]
    split_ifs
    · exact le_refl 1
    · exact Nat.zero_le 1
  · exact Radix.every_void hvoid fun i hi _ hv => absurd hv (hempty i hi)
  · rw [htables q hq]
    exact hroot
  · rw [htables q hq]
    exact hout
  · rw [pageView, Radix.lookup_void hvoid]
    rfl
  · exact absurd (Radix.lookup_void hslots) hused

/-- An output address is that of the page and the offset in it. -/
theorem outputAddress_page {h : ℕ} (hh : h ≤ 3) (w : Word) (a : ℕ) :
    outputAddress h w a =
      outputAddress h w (a / pageSize % tableSize ^ 4 * pageSize) + a % pageSize := by
  have hdvd : tableSize ^ h ∣ tableSize ^ 4 := pow_dvd_pow _ (Nat.le_succ_of_le hh)
  have hoffset : a % (pageSize * tableSize ^ h) =
      a / pageSize % tableSize ^ 4 * pageSize % (pageSize * tableSize ^ h) +
        a % pageSize := by
    generalize tableSize ^ h = s at hdvd ⊢
    generalize tableSize ^ 4 = n at hdvd ⊢
    rw [Nat.mul_comm _ pageSize, Nat.mul_mod_mul_left, Nat.mod_mod_of_dvd _ hdvd, Nat.mod_mul,
      Nat.add_comm]
  rw [outputAddress, outputAddress, hoffset, Nat.add_assoc]

/-- What a virtual address translates to, by the view of its page. -/
theorem translate_view (ram : ℕ → ℕ → Word) (root a : ℕ) :
    (translate ram root a).map (fun r => (r.1, untyped r.2)) =
      (pageView ram root (a / pageSize % tableSize ^ 4)).map
        fun r => (r.1 + a % pageSize, r.2) := by
  have hmod : pageRadix.lookup ram 3 root (a / pageSize % tableSize ^ 4) =
      pageRadix.lookup ram 3 root (a / pageSize) :=
    Radix.lookup_mod ram 3 root _
  rw [translate, pageView, hmod]
  cases hlook : pageRadix.lookup ram 3 root (a / pageSize) with
  | none => rfl
  | some r =>
      rw [Option.map_some, Option.map_some, Option.map_some, Option.map_some,
        outputAddress_page (Radix.follow_height_le hlook)]

/-- Two memories that show the same view translate the same way. -/
theorem LoTree.translate_eq {b : Boot} (hb : LoTree start S root E b) (a : ℕ) :
    (translate b.ram root a).map (fun r => (r.1, untyped r.2)) =
      (E (a / pageSize % tableSize ^ 4)).map fun r => (r.1 + a % pageSize, r.2) := by
  rw [translate_view, hb.view _ (Nat.mod_lt _ (by decide))]

theorem loAttributes_bits {w : Word} {perms : Permissions}
    (hw : untyped w = loAttributes perms) : (Pte.ap.get w, Pte.pxn.get w) = perms.bits := by
  have hap : Pte.ap.get (untyped w) = Pte.ap.get w :=
    BitField.get_set_of_disjoint (by decide) _ _
  have hpxn : Pte.pxn.get (untyped w) = Pte.pxn.get w :=
    BitField.get_set_of_disjoint (by decide) _ _
  rw [← hap, ← hpxn, hw]
  cases perms <;> decide

/-- The place of an address in its region, from the offset of its page. -/
theorem Region.Ok.output {c : Region} (hbase : base % 2 ^ 48 = 0) (hc : c.Ok base) {a : ℕ}
    (ha : c.Covers a) :
    (c.pa + pageOffset (c.va / pageSize) (a / pageSize % tableSize ^ 4) * pageSize) % 2 ^ 48 +
      a % pageSize = (c.pa + (a - c.va)) % 2 ^ 48 := by
  obtain ⟨hva, hpa, -, -, hlower, hupper⟩ := hc
  obtain ⟨hlow, hhigh⟩ := ha
  have hoff : pageOffset (c.va / pageSize) (a / pageSize % tableSize ^ 4) * pageSize +
      a % pageSize = a - c.va := by
    simp only [pageOffset, pageSize, tableSize] at *
    omega
  rw [← hoff]
  simp only [pageSize] at *
  omega

end Calls

/-! ## §6  What the boot mapper maps -/

/-- Disjoint regions of one half of the address space, mapped one after the other:
each page translates to its place in its region with the bits of its permissions,
no other address is mapped, and mapping the regions page by page gives the same
translations. An output address has 48 bits. -/
theorem mapLo_splits {start S root base : ℕ} {b : Boot} {calls : List Region}
    (hbase : base = 0 ∨ base = 2 ^ 64 - 2 ^ 48) (hok : ∀ c ∈ calls, c.Ok base)
    (hdis : calls.Pairwise Region.Disjoint) (hroom : start + S ≤ ramPages)
    (hroot : root < ramPages)
    (hout : root < start + b.loAllocatedPages ∨ start + S ≤ root)
    (hempty : ∀ i < tableSize, Pte.valid.get (b.ram root i) ≠ 1)
    (hlo : (mapAll (Region.mapLo start root) calls b).loAllocatedPages ≤ S)
    (hl3 : (mapAll (Region.mapL3 start root) calls b).loAllocatedPages ≤ S) :
    let ram := (mapAll (Region.mapLo start root) calls b).ram
    let ramL3 := (mapAll (Region.mapL3 start root) calls b).ram
    (∀ c ∈ calls, ∀ a, c.Covers a → ∃ w,
      translate ram root a = some ((c.pa + (a - c.va)) % 2 ^ 48, w) ∧
        (Pte.ap.get w, Pte.pxn.get w) = c.perms.bits) ∧
    ∀ a, base ≤ a → a < base + 2 ^ 48 →
      ((∀ c ∈ calls, ¬ c.Covers a) → translate ram root a = none) ∧
      (translate ram root a).map (fun r => (r.1, untyped r.2)) =
        (translate ramL3 root a).map (fun r => (r.1, untyped r.2)) := by
  intro ram ramL3
  have hhalf : base % 2 ^ 48 = 0 := by
    rcases hbase with rfl | rfl <;> decide
  have hb : LoTree start S root (fun _ => none) b := LoTree.empty hroot hout hempty
  have hclear : ∀ c ∈ calls, View.Clear (fun _ => none) (c.va / pageSize) c.pages :=
    fun _ _ _ _ _ => rfl
  have hview := (mapLo_draws base hroom).drawAll hhalf hb hok hdis hclear hlo
  have hviewL3 := (mapL3_draws base hroom).drawAll hhalf hb hok hdis hclear hl3
  refine ⟨fun c hc a ha => ?_, fun a hlow hhigh => ⟨fun hnot => ?_, ?_⟩⟩
  · have hcok := hok c hc
    have hlow : base ≤ a := le_trans hcok.lower ha.1
    have hhigh : a < base + 2 ^ 48 := Nat.lt_of_lt_of_le ha.2 hcok.upper
    have hx : a / pageSize % tableSize ^ 4 < tableSize ^ 4 := Nat.mod_lt _ (by decide)
    have hpages : calls.Pairwise fun c d => c.Has (a / pageSize % tableSize ^ 4) →
        ¬ d.Has (a / pageSize % tableSize ^ 4) :=
      hdis.imp_of_mem fun hc hd hcd => hcd.pages hhalf (hok _ hc) (hok _ hd) hx
    have htrans := hview.translate_eq a
    rw [drawAll_of_has hpages hc ((hcok.has_iff hhalf hlow hhigh).mpr ha), Option.map_some,
      hcok.output hhalf ha, Option.map_eq_some_iff] at htrans
    obtain ⟨⟨out, w⟩, hmap, heq⟩ := htrans
    obtain ⟨rfl, hattr⟩ := Prod.mk.inj heq
    exact ⟨w, hmap, loAttributes_bits hattr⟩
  · have htrans := hview.translate_eq a
    have hpage : ∀ c ∈ calls, ¬ c.Has (a / pageSize % tableSize ^ 4) :=
      fun c hc hhas => hnot c hc (((hok c hc).has_iff hhalf hlow hhigh).mp hhas)
    rw [drawAll_of_not_has hpage] at htrans
    exact Option.map_eq_none_iff.mp htrans
  · exact (hview.translate_eq a).trans (hviewL3.translate_eq a).symm

/-- Two regions that meet inside a 2 MiB range: the first has a front page, a
block and a rest of one page. -/
def meetingRegions : List Region :=
  [⟨virtBase + 0x1FF000, 0x1FF000, 514, .rx⟩, ⟨virtBase + 0x401000, 0x401000, 3, .ro⟩]

theorem meetingRegions_ok :
    (∀ c ∈ meetingRegions, c.Ok (2 ^ 64 - 2 ^ 48)) ∧
      meetingRegions.Pairwise Region.Disjoint := by
  constructor
  · intro c hc
    simp only [meetingRegions, List.mem_cons, List.not_mem_nil, or_false] at hc
    rcases hc with rfl | rfl <;>
      exact ⟨by decide, by decide, by decide, by decide, by decide, by decide⟩
  · simp only [meetingRegions, List.pairwise_cons, List.mem_cons, List.not_mem_nil, or_false,
      forall_eq, false_imp_iff, implies_true, List.Pairwise.nil, and_true]
    intro a hcovers
    simp only [Region.Covers, virtBase, pageSize] at hcovers
    omega

theorem mapLo_splits_example :
    let b : Boot := ⟨fun _ _ => 0, 0⟩
    let ram := (mapAll (Region.mapLo 1 0) meetingRegions b).ram
    let ramL3 := (mapAll (Region.mapL3 1 0) meetingRegions b).ram
    (∀ c ∈ meetingRegions, ∀ a, c.Covers a → ∃ w,
      translate ram 0 a = some ((c.pa + (a - c.va)) % 2 ^ 48, w) ∧
        (Pte.ap.get w, Pte.pxn.get w) = c.perms.bits) ∧
    ∀ a, 2 ^ 64 - 2 ^ 48 ≤ a → a < 2 ^ 64 - 2 ^ 48 + 2 ^ 48 →
      ((∀ c ∈ meetingRegions, ¬ c.Covers a) → translate ram 0 a = none) ∧
      (translate ram 0 a).map (fun r => (r.1, untyped r.2)) =
        (translate ramL3 0 a).map (fun r => (r.1, untyped r.2)) := by
  have hlo := mapAll_takes
    (fun c b => mapLo_takes 1 c.va c.pa c.pages 0 c.perms b) meetingRegions ⟨fun _ _ => 0, 0⟩
  have hl3 := mapAll_takes
    (fun c b => mapL3Range_takes 1 0 c.perms c.pages c.va c.pa b) meetingRegions
      ⟨fun _ _ => 0, 0⟩
  have hzero : Pte.valid.get (0 : Word) ≠ 1 := by decide
  have hpages : 3 * (meetingRegions.map Region.pages).sum ≤ ramPages - 1 := by decide
  exact mapLo_splits (S := ramPages - 1) (Or.inr rfl) meetingRegions_ok.1 meetingRegions_ok.2
    (by decide) (by decide) (Or.inl (by decide)) (fun _ _ => hzero)
    (le_trans hlo.le (by rw [Nat.zero_add]; exact hpages))
    (le_trans hl3.le (by rw [Nat.zero_add]; exact hpages))

end Rpos
