import Mathlib.Data.Multiset.Range
import Mathlib.Logic.Equiv.Basic
import Mathlib.Order.Lattice
import Mathlib.Tactic.Ring

/-!
# Binary heaps in an array

The first `n` cells of an array, ordered by a key: no cell's key is below its
parent's. A cell that breaks this in one place is moved up by `swim` or down by
`sink`; both only exchange cells, so the contents are the same multiset.
-/

namespace Rpos.Base.Heap

variable {α κ : Type*} [LinearOrder κ]

def swap (h : ℕ → α) (i j : ℕ) : ℕ → α :=
  Function.update (Function.update h i (h j)) j (h i)

/-- Move cell `idx` up. A parent's index is smaller, so `idx` rounds suffice. -/
def swim (key : α → κ) : ℕ → (ℕ → α) → ℕ → ℕ → α
  | 0, h, _ => h
  | fuel + 1, h, idx =>
      if 0 < idx then
        let parent := (idx - 1) / 2
        if key (h parent) ≤ key (h idx) then h
        else swim key fuel (swap h parent idx) parent
      else h

/-- The cell with the smallest key among `idx` and its children. -/
def smallest (key : α → κ) (h : ℕ → α) (n idx : ℕ) : ℕ :=
  let left := 2 * idx + 1
  let right := 2 * idx + 2
  let best := if left < n ∧ key (h left) < key (h idx) then left else idx
  if right < n ∧ key (h right) < key (h best) then right else best

/-- Move cell `idx` down. The index grows and stays below `n`. -/
def sink (key : α → κ) (n : ℕ) : ℕ → (ℕ → α) → ℕ → ℕ → α
  | 0, h, _ => h
  | fuel + 1, h, idx =>
      let best := smallest key h n idx
      if best = idx then h else sink key n fuel (swap h idx best) best

variable {key : α → κ} {h : ℕ → α} {n : ℕ}

/-! ## §1  Contents -/

def cells (h : ℕ → α) (n : ℕ) : Multiset α := (Multiset.range n).map h

theorem cells_succ (h : ℕ → α) (n : ℕ) : cells h (n + 1) = h n ::ₘ cells h n := by
  simp [cells, Multiset.range_succ]

theorem mem_cells {x : α} : x ∈ cells h n ↔ ∃ i < n, h i = x := by
  simp [cells]

theorem card_cells (h : ℕ → α) (n : ℕ) : (cells h n).card = n := by
  simp [cells]

theorem cells_update (h : ℕ → α) (n : ℕ) (x : α) :
    cells (Function.update h n x) n = cells h n := by
  refine Multiset.map_congr rfl fun i hi => Function.update_of_ne ?_ _ _
  have hlt := Multiset.mem_range.mp hi
  omega

theorem swap_apply (h : ℕ → α) (i j k : ℕ) :
    swap h i j k = if k = j then h i else if k = i then h j else h k := by
  simp only [swap, Function.update_apply]

theorem swap_eq_comp (h : ℕ → α) (i j : ℕ) : swap h i j = h ∘ Equiv.swap i j := by
  funext k
  rw [swap_apply, Function.comp_apply]
  by_cases hj : k = j
  · rw [if_pos hj, hj, Equiv.swap_apply_right]
  · rw [if_neg hj]
    by_cases hi : k = i
    · rw [if_pos hi, hi, Equiv.swap_apply_left]
    · rw [if_neg hi, Equiv.swap_apply_of_ne_of_ne hi hj]

theorem cells_swap {i j : ℕ} (hi : i < n) (hj : j < n) :
    cells (swap h i j) n = cells h n := by
  have hrange : (Multiset.range n).map (Equiv.swap i j) = Multiset.range n := by
    refine (Multiset.Nodup.ext ?_ (Multiset.nodup_range n)).mpr fun k => ?_
    · exact (Multiset.nodup_range n).map (Equiv.swap i j).injective
    · rw [Multiset.mem_map, Multiset.mem_range]
      constructor
      · rintro ⟨l, hl, rfl⟩
        rw [Multiset.mem_range] at hl
        rw [Equiv.swap_apply_def]
        split
        · exact hj
        · split
          · exact hi
          · exact hl
      · intro hk
        refine ⟨Equiv.swap i j k, ?_, Equiv.swap_apply_self i j k⟩
        rw [Multiset.mem_range, Equiv.swap_apply_def]
        split
        · exact hj
        · split
          · exact hi
          · exact hk
  unfold cells
  rw [swap_eq_comp, ← Multiset.map_map, hrange]

theorem cells_swim (fuel : ℕ) : ∀ (h : ℕ → α) (idx : ℕ), idx < n →
    cells (swim key fuel h idx) n = cells h n := by
  induction fuel with
  | zero => exact fun _ _ _ => rfl
  | succ fuel ih =>
      intro h idx hidx
      unfold swim
      simp only
      split
      · split
        · rfl
        · rw [ih _ _ (by omega), cells_swap (by omega) hidx]
      · rfl

/-- The chosen cell is `idx` or one of its children in the heap. -/
theorem smallest_cases (key : α → κ) (h : ℕ → α) (n idx : ℕ) :
    smallest key h n idx = idx ∨
      (smallest key h n idx < n ∧ 0 < smallest key h n idx ∧
        (smallest key h n idx - 1) / 2 = idx ∧ smallest key h n idx ≠ idx) := by
  unfold smallest
  simp only
  by_cases hr : 2 * idx + 2 < n ∧ key (h (2 * idx + 2)) <
      key (h (if 2 * idx + 1 < n ∧ key (h (2 * idx + 1)) < key (h idx) then 2 * idx + 1
        else idx))
  · rw [if_pos hr]
    exact Or.inr ⟨hr.1, by omega, by omega, by omega⟩
  · rw [if_neg hr]
    by_cases hl : 2 * idx + 1 < n ∧ key (h (2 * idx + 1)) < key (h idx)
    · rw [if_pos hl]
      exact Or.inr ⟨hl.1, by omega, by omega, by omega⟩
    · rw [if_neg hl]
      exact Or.inl rfl

theorem cells_sink (fuel : ℕ) : ∀ (h : ℕ → α) (idx : ℕ), idx < n →
    cells (sink key n fuel h idx) n = cells h n := by
  induction fuel with
  | zero => exact fun _ _ _ => rfl
  | succ fuel ih =>
      intro h idx hidx
      unfold sink
      simp only
      rcases smallest_cases key h n idx with hsame | ⟨hlt, -, -, hne⟩
      · rw [if_pos hsame]
      · rw [if_neg hne, ih _ _ hlt, cells_swap hidx hlt]

/-! ## §2  Order -/

def Ordered (key : α → κ) (h : ℕ → α) (n : ℕ) : Prop :=
  ∀ i, 0 < i → i < n → key (h ((i - 1) / 2)) ≤ key (h i)

structure OrderedAbove (key : α → κ) (h : ℕ → α) (n x : ℕ) : Prop where
  rest : ∀ i, 0 < i → i < n → i ≠ x → key (h ((i - 1) / 2)) ≤ key (h i)
  across : 0 < x → ∀ i, 0 < i → i < n → (i - 1) / 2 = x →
    key (h ((x - 1) / 2)) ≤ key (h i)

/-- Ordered but for cell `x`, which may be above its children. -/
structure OrderedBelow (key : α → κ) (h : ℕ → α) (n x : ℕ) : Prop where
  rest : ∀ i, 0 < i → i < n → (i - 1) / 2 ≠ x → key (h ((i - 1) / 2)) ≤ key (h i)
  across : 0 < x → ∀ i, 0 < i → i < n → (i - 1) / 2 = x →
    key (h ((x - 1) / 2)) ≤ key (h i)

theorem Ordered.root_le (ho : Ordered key h n) {i : ℕ} (hi : i < n) :
    key (h 0) ≤ key (h i) := by
  induction i using Nat.strongRecOn with
  | ind i ih =>
      by_cases hzero : i = 0
      · rw [hzero]
      · have hparent : key (h 0) ≤ key (h ((i - 1) / 2)) :=
          ih _ (by omega) (by omega)
        exact hparent.trans (ho i (by omega) hi)

theorem OrderedAbove.swap {x : ℕ} (ho : OrderedAbove key h n x) (hx : 0 < x)
    (hlt : key (h x) ≤ key (h ((x - 1) / 2))) :
    OrderedAbove key (Heap.swap h ((x - 1) / 2) x) n ((x - 1) / 2) := by
  have hat : Heap.swap h ((x - 1) / 2) x x = h ((x - 1) / 2) := by
    rw [swap_apply, if_pos rfl]
  have hup : Heap.swap h ((x - 1) / 2) x ((x - 1) / 2) = h x := by
    rw [swap_apply, if_neg (by omega), if_pos rfl]
  have hother : ∀ k, k ≠ x → k ≠ (x - 1) / 2 →
      Heap.swap h ((x - 1) / 2) x k = h k := by
    intro k hkx hkp
    rw [swap_apply, if_neg hkx, if_neg hkp]
  refine ⟨fun i hi hin hne => ?_, fun hpos i hi hin hpar => ?_⟩
  · by_cases hix : i = x
    · rw [hix, hat, hup]
      exact hlt
    · rw [hother i hix hne]
      by_cases hpx : (i - 1) / 2 = x
      · rw [hpx, hat]
        exact ho.across hx i hi hin hpx
      · by_cases hsib : (i - 1) / 2 = (x - 1) / 2
        · rw [hsib, hup]
          have hle := ho.rest i hi hin hix
          rw [hsib] at hle
          exact hlt.trans hle
        · rw [hother _ hpx hsib]
          exact ho.rest i hi hin hix
  · have hgrand : key (h (((x - 1) / 2 - 1) / 2)) ≤ key (h ((x - 1) / 2)) :=
      ho.rest _ hpos (by omega) (by omega)
    rw [hother (((x - 1) / 2 - 1) / 2) (by omega) (by omega)]
    by_cases hix : i = x
    · rw [hix, hat]
      exact hgrand
    · rw [hother i hix (by omega)]
      have hle := ho.rest i hi hin hix
      rw [hpar] at hle
      exact hgrand.trans hle

theorem swim_ordered (fuel : ℕ) : ∀ (h : ℕ → α) (x : ℕ), x ≤ fuel → x < n →
    OrderedAbove key h n x → Ordered key (swim key fuel h x) n := by
  induction fuel with
  | zero =>
      intro h x hx _ ho i hi hin
      exact ho.rest i hi hin (by omega)
  | succ fuel ih =>
      intro h x hx hxn ho
      unfold swim
      simp only
      split
      · rename_i hpos
        split
        · rename_i hle
          intro i hi hin
          by_cases hix : i = x
          · rw [hix]
            exact hle
          · exact ho.rest i hi hin hix
        · rename_i hlt
          exact ih _ _ (by omega) (by omega) (ho.swap hpos (le_of_not_ge hlt))
      · rename_i hpos
        intro i hi hin
        exact ho.rest i hi hin (by omega)

theorem smallest_le (key : α → κ) (h : ℕ → α) (n idx : ℕ) :
    key (h (smallest key h n idx)) ≤ key (h idx) ∧
      ∀ i, 0 < i → i < n → (i - 1) / 2 = idx →
        key (h (smallest key h n idx)) ≤ key (h i) := by
  unfold smallest
  simp only
  set best := if 2 * idx + 1 < n ∧ key (h (2 * idx + 1)) < key (h idx) then 2 * idx + 1
    else idx with hbest
  have hbidx : key (h best) ≤ key (h idx) := by
    rw [hbest]
    split
    · rename_i hl
      exact hl.2.le
    · exact le_rfl
  have hbleft : 2 * idx + 1 < n → key (h best) ≤ key (h (2 * idx + 1)) := by
    intro hl
    rw [hbest]
    split
    · exact le_rfl
    · rename_i hnot
      exact le_of_not_gt fun hlt => hnot ⟨hl, hlt⟩
  have hchild : ∀ i, 0 < i → (i - 1) / 2 = idx → i = 2 * idx + 1 ∨ i = 2 * idx + 2 := by
    intro i hi hpar
    omega
  split
  · rename_i hr
    refine ⟨hr.2.le.trans hbidx, fun i hi hin hpar => ?_⟩
    rcases hchild i hi hpar with hl | hrr
    · rw [hl]
      exact hr.2.le.trans (hbleft (by omega))
    · rw [hrr]
  · rename_i hr
    refine ⟨hbidx, fun i hi hin hpar => ?_⟩
    rcases hchild i hi hpar with hl | hrr
    · rw [hl]
      exact hbleft (by omega)
    · rw [hrr]
      exact le_of_not_gt fun hlt => hr ⟨by omega, hlt⟩

theorem OrderedBelow.swap {x b : ℕ} (ho : OrderedBelow key h n x) (hbn : b < n)
    (hb : 0 < b) (hpar : (b - 1) / 2 = x) (hle : key (h b) ≤ key (h x))
    (hleast : ∀ i, 0 < i → i < n → (i - 1) / 2 = x → key (h b) ≤ key (h i)) :
    OrderedBelow key (Heap.swap h x b) n b := by
  have hbx : b ≠ x := by omega
  have hat : Heap.swap h x b b = h x := by rw [swap_apply, if_pos rfl]
  have hup : Heap.swap h x b x = h b := by
    rw [swap_apply, if_neg hbx.symm, if_pos rfl]
  have hother : ∀ k, k ≠ b → k ≠ x → Heap.swap h x b k = h k := by
    intro k hkb hkx
    rw [swap_apply, if_neg hkb, if_neg hkx]
  refine ⟨fun i hi hin hne => ?_, fun _ i hi hin hi2 => ?_⟩
  · by_cases hib : i = b
    · rw [hib, hpar, hup, hat]
      exact hle
    · by_cases hix : i = x
      · have habove := ho.across (by omega) b hb hbn hpar
        rw [hix, hup, hother ((x - 1) / 2) (by omega) (by omega)]
        exact habove
      · rw [hother i hib hix]
        by_cases hpx : (i - 1) / 2 = x
        · rw [hpx, hup]
          exact hleast i hi hin hpx
        · rw [hother _ hne hpx]
          exact ho.rest i hi hin hpx
  · rw [hpar, hup, hother i (by omega) (by omega)]
    have hrest := ho.rest i hi hin (by omega)
    rw [hi2] at hrest
    exact hrest

theorem sink_ordered (fuel : ℕ) : ∀ (h : ℕ → α) (x : ℕ), n - x ≤ fuel →
    OrderedBelow key h n x → Ordered key (sink key n fuel h x) n := by
  induction fuel with
  | zero =>
      intro h x hx ho i hi hin
      exact ho.rest i hi hin (by omega)
  | succ fuel ih =>
      intro h x hx ho
      obtain ⟨hle, hleast⟩ := smallest_le key h n x
      unfold sink
      simp only
      rcases smallest_cases key h n x with hsame | ⟨hlt, hpos, hpar, hne⟩
      · rw [if_pos hsame]
        intro i hi hin
        by_cases hpx : (i - 1) / 2 = x
        · rw [hpx]
          have hmin := hleast i hi hin hpx
          rw [hsame] at hmin
          exact hmin
        · exact ho.rest i hi hin hpx
      · rw [if_neg hne]
        exact ih _ _ (by omega) (ho.swap hlt hpos hpar hle hleast)

/-! ## §3  Insertion and removal -/

theorem add_ordered (ho : Ordered key h n) (x : α) :
    Ordered key (swim key n (Function.update h n x) n) (n + 1) := by
  refine swim_ordered n _ n le_rfl (Nat.lt_succ_self n) ⟨fun i hi hin hne => ?_, ?_⟩
  · rw [Function.update_of_ne hne, Function.update_of_ne (by omega)]
    exact ho i hi (by omega)
  · intro _ i hi hin hpar
    omega

theorem cells_add (key : α → κ) (h : ℕ → α) (n : ℕ) (x : α) :
    cells (swim key n (Function.update h n x) n) (n + 1) = x ::ₘ cells h n := by
  rw [cells_swim n _ n (Nat.lt_succ_self n), cells_succ, Function.update_self,
    cells_update]

/-- The first cell, exchanged with the last one and given up. -/
theorem pop_ordered (ho : Ordered key h (n + 1)) :
    Ordered key (sink key n n (swap h 0 n) 0) n := by
  refine sink_ordered n _ 0 (by omega) ⟨fun i hi hin hne => ?_, fun hpos => by omega⟩
  rw [swap_apply, if_neg (by omega), if_neg (by omega), swap_apply, if_neg (by omega),
    if_neg (by omega)]
  exact ho i hi (by omega)

theorem cells_pop (key : α → κ) (h : ℕ → α) (n : ℕ) :
    h 0 ::ₘ cells (sink key n n (swap h 0 n) 0) n = cells h (n + 1) := by
  have hlast : swap h 0 n n = h 0 := by rw [swap_apply, if_pos rfl]
  rw [← cells_swap (h := h) (Nat.succ_pos n) (Nat.lt_succ_self n), cells_succ, hlast]
  by_cases hn : n = 0
  · simp [hn, cells]
  · rw [cells_sink n _ 0 (by omega)]

end Rpos.Base.Heap
