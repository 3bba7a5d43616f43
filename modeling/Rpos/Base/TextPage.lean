import Mathlib.Logic.Function.Basic
import Mathlib.Order.Basic

/-!
# Text on a page

A page has lines without end, and a position from which the text goes on. A screen of `lines`
lines that scrolls shows a window of the page: its last lines, down to that of the position.
What a screen does when the position moves on is stated once here, for cells of any kind.
-/

namespace Rpos.Base

/-- The cells of a page, by line and column, and the position on it. -/
structure Page (α : Type*) where
  line : ℕ
  column : ℕ
  cells : ℕ → ℕ → α

namespace Page

variable {α β : Type*}

def newline (p : Page α) : Page α := { p with line := p.line + 1, column := 0 }

def set (v : α) (p : Page α) : Page α :=
  { p with cells := fun i j => if i = p.line ∧ j = p.column then v else p.cells i j }

/-- Write and go on by a cell, from the end of a line to the next one. -/
def put (columns : ℕ) (v : α) (p : Page α) : Page α :=
  if p.column + 1 = columns then (p.set v).newline
  else { p.set v with column := p.column + 1 }

def tab (columns n : ℕ) (p : Page α) : Option (Page α) :=
  if p.column + n < columns then some { p with column := p.column + n } else none

def erase (v : α) (p : Page α) : Page α :=
  if p.column = 0 then p else { p with column := p.column - 1 }.set v

def top (lines : ℕ) (p : Page α) : ℕ := p.line + 1 - lines

end Page

/-- The screen shows the last lines of the page, down to that of the position, which is its
`line`. The lines of the page that have not been on the screen are blank. -/
structure Window {α β : Type*} (lines columns : ℕ) (draw : α → β) (blank : α) (p : Page α)
    (line column : ℕ) (screen : ℕ → ℕ → β) : Prop where
  line_eq : p.line = p.top lines + line
  line_lt : line < lines
  column_eq : p.column = column
  column_lt : column < columns
  cells_eq : ∀ i j, i < lines → j < columns → screen i j = draw (p.cells (p.top lines + i) j)
  blank_eq : ∀ i j, lines ≤ i → p.line < i → p.cells i j = blank

namespace Window

variable {α β : Type*} {lines columns line column : ℕ} {draw : α → β} {blank : α} {p : Page α}
  {screen screen' : ℕ → ℕ → β}

theorem newline (h : Window lines columns draw blank p line column screen)
    (hlast : line + 1 < lines) :
    Window lines columns draw blank p.newline (line + 1) 0 screen := by
  have hline := h.line_eq
  have htop : p.newline.top lines = p.top lines := by
    unfold Page.top Page.newline at *
    dsimp only
    omega
  refine ⟨?_, hlast, rfl, Nat.zero_lt_of_lt h.column_lt, ?_, fun i j hi hlt => ?_⟩
  · rw [htop]
    exact congrArg (· + 1) hline
  · rw [htop]
    exact h.cells_eq
  · exact h.blank_eq i j hi (Nat.lt_of_succ_lt hlt)

/-- A new line behind the last one, for a screen that has moved its lines up by one. -/
theorem scroll (h : Window lines columns draw blank p line column screen)
    (hlast : line + 1 = lines)
    (hup : ∀ i j, i + 1 < lines → j < columns → screen' i j = screen (i + 1) j)
    (hblank : ∀ j, j < columns → screen' line j = draw blank) :
    Window lines columns draw blank p.newline line 0 screen' := by
  have hline := h.line_eq
  have htop : p.newline.top lines = p.top lines + 1 := by
    unfold Page.top Page.newline at *
    dsimp only
    omega
  refine ⟨?_, h.line_lt, rfl, Nat.zero_lt_of_lt h.column_lt, fun i j hi hj => ?_,
    fun i j hi hlt => ?_⟩
  · rw [htop, Nat.add_right_comm]
    exact congrArg (· + 1) hline
  · have hcells : p.newline.cells = p.cells := rfl
    rw [htop, hcells]
    by_cases hi' : i + 1 < lines
    · rw [hup i j hi' hj, h.cells_eq _ _ hi' hj, Nat.add_right_comm, Nat.add_assoc]
    · obtain rfl : i = line := by omega
      rw [hblank j hj, h.blank_eq _ _ (by omega) (by omega)]
  · exact h.blank_eq i j hi (Nat.lt_of_succ_lt hlt)

theorem move (h : Window lines columns draw blank p line column screen) {column' : ℕ}
    (hlt : column' < columns) :
    Window lines columns draw blank { p with column := column' } line column' screen :=
  ⟨h.line_eq, h.line_lt, rfl, hlt, h.cells_eq, h.blank_eq⟩

theorem set (h : Window lines columns draw blank p line column screen) {v : α}
    (hdraw : screen' line column = draw v)
    (hother : ∀ i j, i < lines → j < columns → ¬ (i = line ∧ j = column) →
      screen' i j = screen i j) :
    Window lines columns draw blank (p.set v) line column screen' := by
  refine ⟨h.line_eq, h.line_lt, h.column_eq, h.column_lt, fun i j hi hj => ?_, fun i j hi hlt => ?_⟩
  · show screen' i j = draw (if p.top lines + i = p.line ∧ j = p.column then v
      else p.cells (p.top lines + i) j)
    have hhere : p.top lines + i = p.line ∧ j = p.column ↔ i = line ∧ j = column := by
      rw [h.line_eq, h.column_eq, Nat.add_left_cancel_iff]
    by_cases hpos : i = line ∧ j = column
    · rw [if_pos (hhere.mpr hpos), hpos.1, hpos.2, hdraw]
    · rw [if_neg fun hp => hpos (hhere.mp hp), hother i j hi hj hpos, h.cells_eq i j hi hj]
  · show (if i = p.line ∧ j = p.column then v else p.cells i j) = blank
    rw [if_neg fun hp => absurd hp.1 (Nat.ne_of_gt hlt)]
    exact h.blank_eq i j hi hlt

theorem start {cells : ℕ → ℕ → α} (hlines : 0 < lines) (hcolumns : 0 < columns)
    (hcells : ∀ i j, i < lines → j < columns → screen i j = draw (cells i j))
    (hblank : ∀ i j, lines ≤ i → cells i j = blank) :
    Window lines columns draw blank ⟨0, 0, cells⟩ 0 0 screen := by
  have htop : (⟨0, 0, cells⟩ : Page α).top lines = 0 := by
    unfold Page.top
    dsimp only
    omega
  refine ⟨?_, hlines, rfl, hcolumns, fun i j hi hj => ?_, fun i j hi _ => hblank i j hi⟩
  · rw [htop]
  · rw [htop, Nat.zero_add]
    exact hcells i j hi hj

end Window

end Rpos.Base
