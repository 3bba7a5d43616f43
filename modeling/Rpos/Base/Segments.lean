import Mathlib.Data.List.TakeWhile

/-!
# Segments of a list

The maximal parts of a list that are free of a delimiter, as ranges of positions. They are
found from the left, by a run of delimiters and a run of other elements in turn.
-/

namespace Rpos.Base

variable {α : Type*}

/-- The position behind the elements with `P` that follow each other from `p` on. -/
def runEnd (P : α → Bool) (s : List α) (p : ℕ) : ℕ := p + ((s.drop p).takeWhile P).length

section Runs

variable {P : α → Bool} {s : List α} {p k : ℕ}

theorem runEnd_step (hp : p < s.length) (hP : P s[p]) : runEnd P s p = runEnd P s (p + 1) := by
  unfold runEnd
  rw [List.drop_eq_getElem_cons hp, List.takeWhile_cons_of_pos hP, List.length_cons,
    Nat.add_assoc, Nat.add_comm 1]

theorem runEnd_stop (hp : p < s.length) (hP : ¬ P s[p]) : runEnd P s p = p := by
  unfold runEnd
  rw [List.drop_eq_getElem_cons hp, List.takeWhile_cons_of_neg hP]
  rfl

theorem runEnd_of_length_le (hp : s.length ≤ p) : runEnd P s p = p := by
  unfold runEnd
  rw [List.drop_eq_nil_of_le hp]
  rfl

theorem le_runEnd (P : α → Bool) (s : List α) (p : ℕ) : p ≤ runEnd P s p :=
  Nat.le_add_right _ _

theorem runEnd_le (hp : p ≤ s.length) : runEnd P s p ≤ s.length := by
  have hlen := (List.takeWhile_sublist (l := s.drop p) P).length_le
  rw [List.length_drop] at hlen
  unfold runEnd
  omega

theorem runEnd_inside (hlo : p ≤ k) (hhi : k < runEnd P s p) : ∃ x, s[k]? = some x ∧ P x := by
  obtain ⟨i, rfl⟩ := Nat.exists_eq_add_of_le hlo
  have hi : i < ((s.drop p).takeWhile P).length := Nat.lt_of_add_lt_add_left hhi
  refine ⟨((s.drop p).takeWhile P)[i], ?_, List.mem_takeWhile_imp (List.getElem_mem hi)⟩
  calc
    s[p + i]? = (s.drop p)[i]? := List.getElem?_drop.symm
    _ = ((s.drop p).takeWhile P ++ (s.drop p).dropWhile P)[i]? := by
        rw [List.takeWhile_append_dropWhile]
    _ = some ((s.drop p).takeWhile P)[i] := by
        rw [List.getElem?_append_left hi, List.getElem?_eq_getElem hi]

/-- Behind the run the list ends, or an element stands without `P`. -/
theorem runEnd_spec {x : α} (hx : s[runEnd P s p]? = some x) : ¬ P x := by
  induction h : s.length - p generalizing p with
  | zero =>
      rw [runEnd_of_length_le (Nat.sub_eq_zero_iff_le.mp h)] at hx
      rw [List.getElem?_eq_none (Nat.sub_eq_zero_iff_le.mp h)] at hx
      exact absurd hx.symm (Option.some_ne_none x)
  | succ n ih =>
      have hp : p < s.length := by omega
      by_cases hP : P s[p]
      · rw [runEnd_step hp hP] at hx
        exact ih hx (by omega)
      · rw [runEnd_stop hp hP, List.getElem?_eq_getElem hp, Option.some.injEq] at hx
        rw [← hx]
        exact hP

end Runs

variable {d : α} {s : List α} {p i j : ℕ}

/-- From `i` to `j` stand elements other than `d`, at least one, and the ends of the list or
delimiters around them. -/
structure MaximalSegment (d : α) (s : List α) (i j : ℕ) : Prop where
  nonempty : i < j
  inside : j ≤ s.length
  free : ∀ k, i ≤ k → k < j → s[k]? ≠ some d
  left : i = 0 ∨ s[i - 1]? = some d
  right : j = s.length ∨ s[j]? = some d

/-- The start of the list, or a position behind a delimiter or behind the end. -/
def StartsAfresh (d : α) (s : List α) (p : ℕ) : Prop :=
  p = 0 ∨ s.length < p ∨ s[p - 1]? = some d

theorem MaximalSegment.startsAfresh (h : MaximalSegment d s i j) : StartsAfresh d s (j + 1) := by
  rcases h.right with hend | hd
  · exact Or.inr (Or.inl (hend ▸ Nat.lt_succ_self _))
  · exact Or.inr (Or.inr hd)

def part (s : List α) (q : ℕ × ℕ) : List α := (s.drop q.1).take (q.2 - q.1)

theorem getElem?_part {q : ℕ × ℕ} {k : ℕ} (hk : k < q.2 - q.1) :
    (part s q)[k]? = s[q.1 + k]? := by
  rw [part, List.getElem?_take_of_lt hk, List.getElem?_drop]

theorem length_part (h : MaximalSegment d s i j) : (part s (i, j)).length = j - i := by
  rw [part, List.length_take, List.length_drop]
  exact Nat.min_eq_left (Nat.sub_le_sub_right h.inside i)

/-! ## Finding the segments -/

variable [DecidableEq α]

def segmentsFrom (d : α) (s : List α) (p : ℕ) : List (ℕ × ℕ) :=
  if runEnd (· = d) s p < s.length then
    let i := runEnd (· = d) s p
    let j := runEnd (· ≠ d) s i
    (i, j) :: segmentsFrom d s (j + 1)
  else []
termination_by s.length - p
decreasing_by
  rename_i hlt
  have hi := le_runEnd (· = d) s p
  have hj := le_runEnd (· ≠ d) s (runEnd (· = d) s p)
  omega

theorem segmentsFrom_nil (h : ¬ runEnd (· = d) s p < s.length) : segmentsFrom d s p = [] := by
  rw [segmentsFrom, if_neg h]

theorem segmentsFrom_cons (h : runEnd (· = d) s p < s.length) :
    segmentsFrom d s p =
      (runEnd (· = d) s p, runEnd (· ≠ d) s (runEnd (· = d) s p)) ::
        segmentsFrom d s (runEnd (· ≠ d) s (runEnd (· = d) s p) + 1) := by
  rw [segmentsFrom, if_pos h]

theorem segmentsFrom_of_length_le (hp : s.length ≤ p) : segmentsFrom d s p = [] := by
  apply segmentsFrom_nil
  exact Nat.not_lt.mpr (hp.trans (le_runEnd _ s p))

theorem runEnd_delimiters {k : ℕ} (hlo : p ≤ k) (hhi : k < runEnd (· = d) s p) :
    s[k]? = some d := by
  obtain ⟨x, hx, hxd⟩ := runEnd_inside hlo hhi
  rw [hx, of_decide_eq_true hxd]

/-- The element at which a run of other elements ends is a delimiter. -/
theorem runEnd_delimiter (hp : p ≤ s.length) :
    runEnd (· ≠ d) s p = s.length ∨ s[runEnd (· ≠ d) s p]? = some d := by
  rcases Nat.eq_or_lt_of_le (runEnd_le (P := (· ≠ d)) hp) with heq | hlt
  · exact Or.inl heq
  · have hget := List.getElem?_eq_getElem hlt
    have hd := runEnd_spec hget
    rw [decide_eq_true_iff, not_not] at hd
    rw [hd] at hget
    exact Or.inr hget

/-- Behind the delimiters at a fresh start stands a maximal segment. -/
theorem maximalSegment_runEnd (hp : StartsAfresh d s p) (hi : runEnd (· = d) s p < s.length) :
    MaximalSegment d s (runEnd (· = d) s p) (runEnd (· ≠ d) s (runEnd (· = d) s p)) := by
  have hget := List.getElem?_eq_getElem hi
  have hne : s[runEnd (· = d) s p] ≠ d := fun h => runEnd_spec hget (decide_eq_true h)
  constructor
  · rw [runEnd_step hi (decide_eq_true hne)]
    exact le_runEnd _ s _
  · exact runEnd_le hi.le
  · intro k hlo hhi hd
    obtain ⟨x, hx, hxd⟩ := runEnd_inside hlo hhi
    rw [hd, Option.some.injEq] at hx
    exact of_decide_eq_true hxd hx.symm
  · rcases Nat.eq_or_lt_of_le (le_runEnd (· = d) s p) with heq | hlt
    · rw [← heq] at hi ⊢
      rcases hp with hzero | hend | hd
      · exact Or.inl hzero
      · exact absurd hi (Nat.lt_asymm hend)
      · exact Or.inr hd
    · exact Or.inr (runEnd_delimiters (Nat.le_sub_one_of_lt hlt) (Nat.sub_one_lt_of_lt hlt))
  · exact runEnd_delimiter hi.le

/-- A maximal segment from `p` on is the one behind the delimiters there, or starts behind
that. -/
theorem MaximalSegment.first_or (h : MaximalSegment d s i j) (hp : p ≤ i) :
    runEnd (· = d) s p < s.length ∧
      (i = runEnd (· = d) s p ∧ j = runEnd (· ≠ d) s i ∨
        runEnd (· ≠ d) s (runEnd (· = d) s p) + 1 ≤ i) := by
  have hstart : runEnd (· = d) s p ≤ i := by
    by_contra hlt
    apply h.free i (Nat.le_refl i) h.nonempty
    exact runEnd_delimiters hp (Nat.not_le.mp hlt)
  refine ⟨hstart.trans_lt (h.nonempty.trans_le h.inside), ?_⟩
  rcases Nat.eq_or_lt_of_le hstart with heq | hlt
  · refine Or.inl ⟨heq.symm, ?_⟩
    rcases Nat.lt_trichotomy j (runEnd (· ≠ d) s i) with hshort | hsame | hlong
    · -- the segment would end before a delimiter
      obtain ⟨x, hx, hxd⟩ := runEnd_inside h.nonempty.le hshort
      rcases h.right with hend | hd
      · rw [hend, List.getElem?_eq_none (Nat.le_refl _)] at hx
        exact absurd hx.symm (Option.some_ne_none x)
      · rw [hd, Option.some.injEq] at hx
        exact absurd hx.symm (of_decide_eq_true hxd)
    · exact hsame
    · -- it would hold a delimiter
      rcases runEnd_delimiter (d := d) (h.nonempty.le.trans h.inside) with hend | hd
      · exact absurd h.inside (Nat.not_le.mpr (hend ▸ hlong))
      · exact absurd hd (h.free _ (le_runEnd _ s i) hlong)
  · -- what stands before it is a delimiter
    refine Or.inr (Nat.succ_le_of_lt ?_)
    by_contra hle
    rcases h.left with hzero | hd
    · exact absurd (hzero ▸ hlt) (Nat.not_lt_zero _)
    · obtain ⟨x, hx, hxd⟩ := runEnd_inside (P := (· ≠ d)) (Nat.le_sub_one_of_lt hlt)
        ((Nat.sub_one_lt_of_lt hlt).trans_le (Nat.not_lt.mp hle))
      rw [hd, Option.some.injEq] at hx
      exact of_decide_eq_true hxd hx.symm

/-- From a fresh start on, the segments are the maximal ones. -/
theorem mem_segmentsFrom (hp : StartsAfresh d s p) :
    (i, j) ∈ segmentsFrom d s p ↔ MaximalSegment d s i j ∧ p ≤ i := by
  induction p using segmentsFrom.induct d s with
  | case1 p hlt i₀ j₀ ih =>
      rw [segmentsFrom_cons hlt, List.mem_cons, Prod.mk.injEq]
      have hfirst : MaximalSegment d s i₀ j₀ := maximalSegment_runEnd hp hlt
      rw [ih hfirst.startsAfresh]
      constructor
      · rintro (⟨rfl, rfl⟩ | ⟨hmax, hle⟩)
        · exact ⟨hfirst, le_runEnd _ s p⟩
        · refine ⟨hmax, (le_runEnd (· = d) s p).trans ?_⟩
          exact hfirst.nonempty.le.trans ((Nat.le_succ _).trans hle)
      · rintro ⟨hmax, hle⟩
        rcases (hmax.first_or hle).2 with ⟨hi, hj⟩ | hrest
        · exact Or.inl ⟨hi, hi ▸ hj⟩
        · exact Or.inr ⟨hmax, hrest⟩
  | case2 p hnlt =>
      rw [segmentsFrom_nil hnlt]
      refine iff_of_false List.not_mem_nil ?_
      rintro ⟨hmax, hle⟩
      exact hnlt (hmax.first_or hle).1

/-- The segments follow each other, with a delimiter between two. -/
theorem segmentsFrom_sorted (d : α) (s : List α) (hp : StartsAfresh d s p) :
    (segmentsFrom d s p).Pairwise fun q r => q.2 < r.1 := by
  induction p using segmentsFrom.induct d s with
  | case1 p hlt i₀ j₀ ih =>
      rw [segmentsFrom_cons hlt]
      have hfirst : MaximalSegment d s i₀ j₀ := maximalSegment_runEnd hp hlt
      apply List.Pairwise.cons _ (ih hfirst.startsAfresh)
      rintro ⟨i, j⟩ hq
      exact ((mem_segmentsFrom hfirst.startsAfresh).mp hq).2
  | case2 p hnlt =>
      rw [segmentsFrom_nil hnlt]
      exact .nil

end Rpos.Base
