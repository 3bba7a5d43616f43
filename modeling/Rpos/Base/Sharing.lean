import Mathlib.Data.Finset.Card
import Mathlib.Data.Finset.Filter
import Mathlib.Logic.Function.Basic

/-!
# Frames shared for copy-on-write

Spaces map pages to frames. A frame that one space may write is mapped by no other space. A
copy of a space shares the frames of the original, and from then on neither may write them.
So a write through a space changes what that space holds, and what no other space holds. A
frame is mapped at one page only, so that it has as many mappings as there are spaces that
map it.
-/

namespace Rpos.Base

/-- The frame that a space maps a page to, and whether the space may write it. -/
structure Sharing (P X F : Type*) where
  frame : P → X → Option F
  writable : P → X → Prop

namespace Sharing

variable {P X F V : Type*} {s t : Sharing P X F} {mem mem' : F → V} {p q c : P} {x y : X}
  {f g : F} {v : V} {w : Prop}

/-! ## §1  Sound sharing -/

def Mapped (s : Sharing P X F) (f : F) : Prop := ∃ p x, s.frame p x = some f

/-- A frame is mapped at one page, and if it may be written, by one space. -/
structure Sound (s : Sharing P X F) : Prop where
  place : ∀ p q x y f, s.frame p x = some f → s.frame q y = some f → x = y
  alone : ∀ p q x y f, s.writable p x → s.frame p x = some f → s.frame q y = some f → q = p

theorem Sound.mono (hs : s.Sound) (hframe : t.frame = s.frame)
    (hwritable : ∀ p x, t.writable p x → s.writable p x) : t.Sound := by
  constructor
  · rw [hframe]
    exact hs.place
  · rw [hframe]
    exact fun p q x y f hw => hs.alone p q x y f (hwritable p x hw)

def Unshared (s : Sharing P X F) (p : P) : Prop :=
  ∀ q x y f, s.frame p x = some f → s.frame q y = some f → q = p

/-- A space that shares no frame may write to any of its pages. -/
theorem Sound.unshared (hs : s.Sound) (hp : s.Unshared p) (hframe : t.frame = s.frame)
    (hwritable : ∀ q x, t.writable q x → q = p ∨ s.writable q x) : t.Sound := by
  refine ⟨?_, fun q r x y f hw hq hr => ?_⟩
  · rw [hframe]
    exact hs.place
  · rw [hframe] at hq hr
    rcases hwritable q x hw with rfl | hw'
    · exact hp r x y f hq hr
    · exact hs.alone q r x y f hw' hq hr

def image (s : Sharing P X F) (mem : F → V) (p : P) (x : X) : Option V := (s.frame p x).map mem

theorem image_congr (hframe : t.frame = s.frame) (hmem : ∀ f, s.Mapped f → mem' f = mem f) :
    t.image mem' = s.image mem := by
  funext p x
  rw [image, image, hframe]
  cases hf : s.frame p x with
  | none => rfl
  | some f => exact congrArg some (hmem f ⟨p, x, hf⟩)

variable [DecidableEq P]

def copy (s : Sharing P X F) (p c : P) : Sharing P X F where
  frame := Function.update s.frame c (s.frame p)
  writable q y := q ≠ p ∧ q ≠ c ∧ s.writable q y

def drop (s : Sharing P X F) (p : P) : Sharing P X F where
  frame := Function.update s.frame p fun _ => none
  writable q y := q ≠ p ∧ s.writable q y

theorem frame_copy : (s.copy p c).frame q = if q = c then s.frame p else s.frame q :=
  Function.update_apply _ _ _ _

theorem frame_drop : (s.drop p).frame q = if q = p then fun _ => none else s.frame q :=
  Function.update_apply _ _ _ _

theorem Sound.copy (hs : s.Sound) (p c : P) : (s.copy p c).Sound := by
  have hold : ∀ q y f, (s.copy p c).frame q y = some f →
      ∃ r, s.frame r y = some f ∧ (r = q ∨ r = p) := by
    intro q y f hf
    rw [frame_copy] at hf
    by_cases hq : q = c
    · rw [if_pos hq] at hf
      exact ⟨p, hf, Or.inr rfl⟩
    · rw [if_neg hq] at hf
      exact ⟨q, hf, Or.inl rfl⟩
  constructor
  · intro q r x y f hq hr
    obtain ⟨q', hq', -⟩ := hold q x f hq
    obtain ⟨r', hr', -⟩ := hold r y f hr
    exact hs.place q' r' x y f hq' hr'
  · rintro q r x y f ⟨hqp, hqc, hw⟩ hq hr
    have hq' : s.frame q x = some f := by
      rw [frame_copy, if_neg hqc] at hq
      exact hq
    obtain ⟨r', hr', hcases⟩ := hold r y f hr
    have heq := hs.alone q r' x y f hw hq' hr'
    rcases hcases with rfl | rfl
    · exact heq
    · exact absurd heq.symm hqp

theorem Sound.drop (hs : s.Sound) (p : P) : (s.drop p).Sound := by
  have hold : ∀ q y f, (s.drop p).frame q y = some f → s.frame q y = some f := by
    intro q y f hf
    rw [frame_drop] at hf
    by_cases hq : q = p
    · rw [if_pos hq] at hf
      exact absurd hf.symm (Option.some_ne_none f)
    · rwa [if_neg hq] at hf
  refine ⟨fun q r x y f hq hr => ?_, fun q r x y f hw hq hr => ?_⟩
  · exact hs.place q r x y f (hold q x f hq) (hold r y f hr)
  · exact hs.alone q r x y f hw.2 (hold q x f hq) (hold r y f hr)

theorem image_copy : (s.copy p c).image mem =
    Function.update (s.image mem) c (s.image mem p) := by
  funext q x
  rw [image, frame_copy]
  by_cases hq : q = c
  · rw [hq, if_pos rfl, Function.update_self, image]
  · rw [if_neg hq, Function.update_of_ne hq, image]

theorem image_drop : (s.drop p).image mem = Function.update (s.image mem) p fun _ => none := by
  funext q x
  rw [image, frame_drop]
  by_cases hq : q = p
  · rw [hq, if_pos rfl, Function.update_self, Option.map_none]
  · rw [if_neg hq, Function.update_of_ne hq, image]

variable [DecidableEq X]

def map (s : Sharing P X F) (p : P) (x : X) (f : F) (w : Prop) : Sharing P X F where
  frame := Function.update s.frame p (Function.update (s.frame p) x (some f))
  writable q y := if q = p ∧ y = x then w else s.writable q y

theorem frame_map : (s.map p x f w).frame q y =
    if q = p ∧ y = x then some f else s.frame q y := by
  show Function.update s.frame p (Function.update (s.frame p) x (some f)) q y = _
  by_cases hq : q = p
  · subst hq
    rw [Function.update_self, Function.update_apply]
    simp only [true_and]
  · rw [if_neg fun h => hq h.1, Function.update_of_ne hq]

theorem Sound.map (hs : s.Sound) (hf : ¬ s.Mapped f) (p : P) (x : X) (w : Prop) :
    (s.map p x f w).Sound := by
  have hold : ∀ q y g, (s.map p x f w).frame q y = some g →
      (q = p ∧ y = x ∧ g = f) ∨ (g ≠ f ∧ s.frame q y = some g) := by
    intro q y g hg
    rw [frame_map] at hg
    by_cases hq : q = p ∧ y = x
    · rw [if_pos hq, Option.some.injEq] at hg
      exact Or.inl ⟨hq.1, hq.2, hg.symm⟩
    · rw [if_neg hq] at hg
      refine Or.inr ⟨?_, hg⟩
      rintro rfl
      exact hf ⟨q, y, hg⟩
  refine ⟨fun q r y z g hq hr => ?_, fun q r y z g hw hq hr => ?_⟩
  · rcases hold q y g hq with ⟨-, rfl, rfl⟩ | ⟨hne, hq'⟩
    · rcases hold r z g hr with ⟨-, rfl, -⟩ | ⟨hne, -⟩
      · rfl
      · exact absurd rfl hne
    · rcases hold r z g hr with ⟨-, -, rfl⟩ | ⟨-, hr'⟩
      · exact absurd rfl hne
      · exact hs.place q r y z g hq' hr'
  · rcases hold q y g hq with ⟨rfl, rfl, rfl⟩ | ⟨hne, hq'⟩
    · rcases hold r z g hr with ⟨rfl, -, -⟩ | ⟨hne, -⟩
      · rfl
      · exact absurd rfl hne
    · rcases hold r z g hr with ⟨-, -, rfl⟩ | ⟨-, hr'⟩
      · exact absurd rfl hne
      · have hnew : ¬ (q = p ∧ y = x) := by
          intro h
          rw [frame_map, if_pos h, Option.some.injEq] at hq
          exact hne hq.symm
        have hw' : s.writable q y := by
          dsimp only [Sharing.map] at hw
          rwa [if_neg hnew] at hw
        exact hs.alone q r y z g hw' hq' hr'

theorem image_map (hmem : ∀ g, s.Mapped g → mem' g = mem g) (hv : mem' f = v) :
    (s.map p x f w).image mem' =
      Function.update (s.image mem) p (Function.update (s.image mem p) x (some v)) := by
  have hold : ∀ q y, (s.frame q y).map mem' = s.image mem q y := by
    intro q y
    have himage := congrFun (congrFun (image_congr (t := s) rfl hmem) q) y
    exact himage
  funext q y
  rw [image, frame_map]
  by_cases hq : q = p
  · subst hq
    rw [Function.update_self]
    by_cases hy : y = x
    · rw [if_pos ⟨rfl, hy⟩, Option.map_some, hv, hy, Function.update_self]
    · rw [if_neg fun h => hy h.2, hold, Function.update_of_ne hy]
  · rw [if_neg fun h => hq h.1, hold, Function.update_of_ne hq]

/-- A write through a space changes one page of that space. -/
theorem Sound.image_write [DecidableEq F] (hs : s.Sound) (hw : s.writable p x)
    (hf : s.frame p x = some f) : s.image (Function.update mem f v) =
      Function.update (s.image mem) p (Function.update (s.image mem p) x (some v)) := by
  funext q y
  by_cases hq : q = p ∧ y = x
  · obtain ⟨rfl, rfl⟩ := hq
    rw [Function.update_self, Function.update_self, image, hf, Option.map_some,
      Function.update_self]
  · have hrest : Function.update (s.image mem) p
        (Function.update (s.image mem p) x (some v)) q y = s.image mem q y := by
      by_cases hqp : q = p
      · subst hqp
        rw [Function.update_self, Function.update_of_ne fun hy => hq ⟨rfl, hy⟩]
      · rw [Function.update_of_ne hqp]
    rw [hrest, image, image]
    cases hg : s.frame q y with
    | none => rfl
    | some g =>
        have hne : g ≠ f := by
          rintro rfl
          exact hq ⟨hs.alone p q x y g hw hf hg, hs.place q p y x g hg hf⟩
        rw [Option.map_some, Option.map_some, Function.update_of_ne hne]

end Sharing

/-! ## §2  Counting mappings -/

namespace Sharing

variable {P X F : Type*} {s t : Sharing P X F} {ps : Finset P} {xs : Finset X} {p c : P} {x : X}
  {f g : F} {w : Prop}

def Holds (s : Sharing P X F) (f : F) (p : P) : Prop := ∃ x, s.frame p x = some f

open Classical in
noncomputable def holders (s : Sharing P X F) (ps : Finset P) (f : F) : Finset P :=
  ps.filter (s.Holds f)

theorem mem_holders : p ∈ s.holders ps f ↔ p ∈ ps ∧ s.Holds f p := by
  classical
  exact Finset.mem_filter

theorem card_holders_le : (s.holders ps f).card ≤ ps.card := by
  classical
  exact Finset.card_filter_le _ _

theorem holders_congr (h : ∀ p ∈ ps, t.Holds g p ↔ s.Holds f p) :
    t.holders ps g = s.holders ps f := by
  ext p
  rw [mem_holders, mem_holders]
  exact and_congr_right (h p)

theorem holders_frame (hframe : t.frame = s.frame) : t.holders ps f = s.holders ps f := by
  refine holders_congr fun p _ => ?_
  rw [Holds, Holds, hframe]

theorem holders_insert [DecidableEq P] (hp : ¬ s.Holds f p) :
    s.holders (insert p ps) f = s.holders ps f := by
  ext q
  rw [mem_holders, mem_holders, Finset.mem_insert]
  refine and_congr_left fun hq => or_iff_right ?_
  rintro rfl
  exact hp hq

theorem Sound.card_pages [DecidableEq F] (hs : s.Sound) (hf : s.frame p x = some f)
    (hx : x ∈ xs) : (xs.filter fun y => s.frame p y = some f).card = 1 := by
  rw [Finset.card_eq_one]
  refine ⟨x, ?_⟩
  ext y
  rw [Finset.mem_filter, Finset.mem_singleton]
  constructor
  · rintro ⟨-, hy⟩
    exact hs.place p p y x f hy hf
  · rintro rfl
    exact ⟨hx, hf⟩

theorem card_pages_none [DecidableEq F] (hf : ¬ s.Holds f p) :
    (xs.filter fun y => s.frame p y = some f).card = 0 := by
  rw [Finset.card_eq_zero, Finset.filter_eq_empty_iff]
  exact fun y _ hy => hf ⟨y, hy⟩

variable [DecidableEq P]

theorem holders_copy (hp : s.Holds f p) :
    (s.copy p c).holders (insert c ps) f = insert c (s.holders ps f) := by
  ext q
  rw [mem_holders, Finset.mem_insert, Finset.mem_insert, mem_holders]
  by_cases hq : q = c
  · refine iff_of_true ⟨Or.inl hq, ?_⟩ (Or.inl hq)
    rw [Holds, frame_copy, if_pos hq]
    exact hp
  · rw [Holds, frame_copy, if_neg hq, or_iff_right hq, or_iff_right hq]
    rfl

theorem holders_copy_none (hc : c ∉ ps) (hp : ¬ s.Holds f p) :
    (s.copy p c).holders (insert c ps) f = s.holders ps f := by
  ext q
  rw [mem_holders, Finset.mem_insert, mem_holders]
  by_cases hq : q = c
  · rw [Holds, frame_copy, if_pos hq, hq]
    exact iff_of_false (fun h => hp h.2) fun h => hc h.1
  · rw [Holds, frame_copy, if_neg hq, or_iff_right hq]
    rfl

theorem holders_drop : (s.drop p).holders (ps.erase p) f = (s.holders ps f).erase p := by
  ext q
  rw [mem_holders, Finset.mem_erase, Finset.mem_erase, mem_holders, and_assoc]
  refine and_congr_right fun hq => ?_
  rw [Holds, frame_drop, if_neg hq]
  rfl

variable [DecidableEq X]

theorem holders_map_self (hp : p ∈ ps) (hf : ¬ s.Mapped f) :
    (s.map p x f w).holders ps f = {p} := by
  ext q
  rw [mem_holders, Finset.mem_singleton]
  constructor
  · rintro ⟨-, y, hy⟩
    rw [frame_map] at hy
    by_contra hq
    rw [if_neg fun h => hq h.1] at hy
    exact hf ⟨q, y, hy⟩
  · rintro rfl
    exact ⟨hp, x, by rw [frame_map, if_pos ⟨rfl, rfl⟩]⟩

theorem holders_map (hx : s.frame p x = none) (hg : g ≠ f) :
    (s.map p x f w).holders ps g = s.holders ps g := by
  refine holders_congr fun q _ => exists_congr fun y => ?_
  rw [frame_map]
  by_cases hq : q = p ∧ y = x
  · rw [if_pos hq, hq.1, hq.2, hx]
    exact iff_of_false (fun h => hg (Option.some.inj h).symm) (Option.some_ne_none g).symm
  · rw [if_neg hq]

end Sharing

end Rpos.Base
