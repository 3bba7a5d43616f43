import Rpos.Base.BitField
import Rpos.Base.Runs

/-!
# The text console

`cli.c` draws glyphs of 10 by 20 pixels on a screen of 800 by 480. Its position
is a line and a cursor, the cursor counted in pixels. The end of a line and the
end of the screen are found by equality tests, so a step that passes the tested
value runs on.
-/

namespace Rpos

open Base

structure Cli where
  line : Word
  cursor : Word
  backgroundColor : BitVec 32
  textColor : BitVec 32
  fb : Word → BitVec 32

def defaultBackgroundColor : BitVec 32 := 0xFF000000

def defaultTextColor : BitVec 32 := 0xFFFFFFFF

namespace Cli

def setTextBackgroundColor (s : Cli) (newColor : BitVec 32) : Cli :=
  { s with backgroundColor := 0xFF000000 ||| newColor }

def unsetTextBackgroundColor (s : Cli) : Cli :=
  { s with backgroundColor := defaultBackgroundColor }

def setTextColor (s : Cli) (newColor : BitVec 32) : Cli :=
  { s with textColor := 0xFF000000 ||| newColor }

def unsetTextColor (s : Cli) : Cli :=
  { s with textColor := defaultTextColor }

end Cli

def writePixel (fb : Word → BitVec 32) (idx : Word) (argb : BitVec 32) : Word → BitVec 32 :=
  fun i => if i = idx then argb else fb i

/-- `scroll`: 23 lines of glyphs move up, and `memset` fills the last one with the low byte of
the background colour. -/
def scroll (fb : Word → BitVec 32) : Word → BitVec 32 := fun i =>
  if i < 16000 * 23 then fb (i + 16000)
  else if i < 16000 * 24 then (defaultBackgroundColor &&& 0xFF) * 0x01010101
  else fb i

def newline (s : Cli) : Cli :=
  let s := { s with line := s.line + 1, cursor := 0 }
  if s.line = 24 then { s with fb := scroll s.fb, line := s.line - 1 } else s

/-- The rows and columns of a glyph, in the order of the loops. -/
def glyphCells : List (ℕ × ℕ) :=
  (List.range 20).flatMap fun row => (List.range 10).map fun col => (row, col)

/-- Row `row` of a glyph, two bytes with the leftmost pixel in the highest bit. -/
def glyphRow (glyph : ℕ → UInt8) (row : ℕ) : BitVec 16 :=
  ((glyph (row * 2)).toBitVec.setWidth 16 <<< 8) ||| (glyph (row * 2 + 1)).toBitVec.setWidth 16

/-- The argument of `write_pixel`: an `int`, converted to 64 bits. -/
def glyphPixel (fbIdx : BitVec 32) (row col : ℕ) : Word :=
  (fbIdx + BitVec.ofNat 32 (row * 800) + BitVec.ofNat 32 col).signExtend 64

def glyphColor (glyph : ℕ → UInt8) (s : Cli) (row col : ℕ) : BitVec 32 :=
  if (glyphRow glyph row).getLsbD (15 - col) then s.textColor else s.backgroundColor

/-- The pixels of a glyph from `fb_idx` on. -/
def glyphPixels (fbIdx : BitVec 32) : List Word :=
  glyphCells.map fun p => glyphPixel fbIdx p.1 p.2

def drawGlyph (glyph : ℕ → UInt8) (s : Cli) (fbIdx : BitVec 32) : Word → BitVec 32 :=
  glyphCells.foldl
    (fun fb p => writePixel fb (glyphPixel fbIdx p.1 p.2) (glyphColor glyph s p.1 p.2)) s.fb

/-- `_print_glyph`, with the pixels that it writes. -/
def printGlyphAt (glyph : ℕ → UInt8) (s : Cli) : List Word × Cli :=
  let fbIdx := (s.line * 800 * 20 + s.cursor).setWidth 32
  let s := { s with fb := drawGlyph glyph s fbIdx, cursor := s.cursor + 10 }
  (glyphPixels fbIdx, if s.cursor = 800 then newline s else s)

/-- `UNSCALED_POINTER_ADD(font, 40 * c)`. -/
def glyphOf (font : ℕ → UInt8) (c : UInt8) : ℕ → UInt8 := fun i => font (40 * c.toNat + i)

/-- `print_glyph`, with the pixels that it writes. A `char` is unsigned on this target. -/
def printGlyph (font : ℕ → UInt8) (s : Cli) (c : UInt8) : List Word × Cli :=
  if c = 10 ∨ c = 13 then ([], newline s)
  else if c = 9 then ([], { s with cursor := s.cursor + 40 })
  else if c = 127 then
    if 0 < s.cursor then
      let (pixels, s) := printGlyphAt (glyphOf font 32) { s with cursor := s.cursor - 10 }
      (pixels, { s with cursor := s.cursor - 10 })
    else ([], s)
  else printGlyphAt (glyphOf font c) s

def cliStep (font : ℕ → UInt8) (s : Cli) (c : UInt8) : Option (List Word × Cli) :=
  some (printGlyph font s c)

/-- The position is on the screen, at the left edge of a glyph. -/
structure Cli.Inside (s : Cli) : Prop where
  line : s.line.toNat ≤ 23
  cursor : s.cursor.toNat < 800
  column : 10 ∣ s.cursor.toNat

def InFrame (pixels : List Word) : Prop := ∀ idx ∈ pixels, idx.toNat < 800 * 480

section Steps

variable {glyph : ℕ → UInt8} {s : Cli}

theorem toNat_add_small {w : Word} {n : ℕ} (hw : w.toNat < 2 ^ 32) (hn : n < 2 ^ 32) :
    (w + BitVec.ofNat 64 n).toNat = w.toNat + n := by
  rw [BitVec.toNat_add, BitVec.toNat_ofNat]
  omega

theorem newline_inside (hline : s.line.toNat ≤ 23) : (newline s).Inside := by
  have hsucc : (s.line + 1).toNat = s.line.toNat + 1 := toNat_add_small (by omega) (by decide)
  have hleft : (0 : Word).toNat < 800 ∧ 10 ∣ (0 : Word).toNat := by decide
  unfold newline
  dsimp only
  split
  · -- the last line scrolls, and the position stays on it
    rename_i hlast
    refine ⟨?_, hleft.1, hleft.2⟩
    dsimp only
    rw [hlast]
    decide
  · rename_i hnot
    refine ⟨?_, hleft.1, hleft.2⟩
    have hne : s.line.toNat + 1 ≠ 24 := fun h => hnot (BitVec.eq_of_toNat_eq (hsucc.trans h))
    dsimp only
    omega

theorem fbIdx_toNat (h : s.Inside) :
    ((s.line * 800 * 20 + s.cursor).setWidth 32).toNat
      = s.line.toNat * 16000 + s.cursor.toNat := by
  obtain ⟨hline, hcursor, -⟩ := h
  rw [BitVec.toNat_setWidth, BitVec.toNat_add, BitVec.toNat_mul, BitVec.toNat_mul]
  have h800 : (800 : Word).toNat = 800 := rfl
  have h20 : (20 : Word).toNat = 20 := rfl
  rw [h800, h20]
  omega

theorem glyphPixel_toNat {fbIdx : BitVec 32} {row col : ℕ} (hidx : fbIdx.toNat < 2 ^ 30)
    (hrow : row < 20) (hcol : col < 10) :
    (glyphPixel fbIdx row col).toNat = fbIdx.toNat + row * 800 + col := by
  have hsum : (fbIdx + BitVec.ofNat 32 (row * 800) + BitVec.ofNat 32 col).toNat =
      fbIdx.toNat + row * 800 + col := by
    rw [BitVec.toNat_add, BitVec.toNat_add, BitVec.toNat_ofNat, BitVec.toNat_ofNat]
    omega
  have hmsb : (fbIdx + BitVec.ofNat 32 (row * 800) + BitVec.ofNat 32 col).msb = false := by
    apply BitVec.msb_eq_false_iff_two_mul_lt.mpr
    omega
  rw [glyphPixel, BitVec.signExtend_eq_setWidth_of_msb_false hmsb, BitVec.toNat_setWidth, hsum]
  exact Nat.mod_eq_of_lt (by omega)

theorem glyphPixels_inFrame (h : s.Inside) :
    InFrame (glyphPixels ((s.line * 800 * 20 + s.cursor).setWidth 32)) := by
  have hidx := fbIdx_toNat h
  obtain ⟨hline, hcursor, hcolumn⟩ := h
  intro idx hmem
  simp only [glyphPixels, List.mem_map, glyphCells, List.mem_flatMap, List.mem_range] at hmem
  obtain ⟨⟨row, col⟩, ⟨row', hrow, col', hcol, hcell⟩, rfl⟩ := hmem
  obtain ⟨rfl, rfl⟩ := Prod.mk.inj hcell
  rw [glyphPixel_toNat (by omega) hrow hcol, hidx]
  omega

/-- A glyph moves the position on by its width, and from the end of a line to the next. -/
theorem printGlyphAt_inside (h : s.Inside) :
    InFrame (printGlyphAt glyph s).1 ∧ (printGlyphAt glyph s).2.Inside := by
  refine ⟨glyphPixels_inFrame h, ?_⟩
  obtain ⟨hline, hcursor, hcolumn⟩ := h
  have hnext : (s.cursor + 10).toNat = s.cursor.toNat + 10 :=
    toNat_add_small (by omega) (by decide)
  unfold printGlyphAt
  dsimp only
  split
  · exact newline_inside hline
  · rename_i hnot
    have hne : s.cursor.toNat + 10 ≠ 800 := fun h =>
      hnot (BitVec.eq_of_toNat_eq (hnext.trans h))
    refine ⟨hline, ?_, ?_⟩ <;> dsimp only <;> omega

theorem printGlyphAt_before_end (glyph : ℕ → UInt8) (hend : s.cursor + 10 ≠ 800) :
    (printGlyphAt glyph s).2.line = s.line ∧
      (printGlyphAt glyph s).2.cursor = s.cursor + 10 := by
  unfold printGlyphAt
  dsimp only
  rw [if_neg hend]
  exact ⟨rfl, rfl⟩

/-- A delete goes back over a glyph, draws a space there and goes back over the space. -/
theorem printGlyphAt_delete (h : s.Inside) (hpos : 0 < s.cursor) {back : Cli}
    (hback : back = { s with cursor := s.cursor - 10 }) :
    InFrame (printGlyphAt glyph back).1 ∧
      Cli.Inside { (printGlyphAt glyph back).2 with
        cursor := (printGlyphAt glyph back).2.cursor - 10 } := by
  have hpos' : 0 < s.cursor.toNat := hpos
  have hagain : s.cursor - 10 + 10 = s.cursor := BitVec.sub_add_cancel _ _
  obtain ⟨hline, hcursor, hcolumn⟩ := h
  have hsub : (s.cursor - 10).toNat = s.cursor.toNat - 10 := by
    apply BitVec.toNat_sub_of_le
    show 10 ≤ s.cursor.toNat
    omega
  have hinside : back.Inside := by
    rw [hback]
    refine ⟨hline, ?_, ?_⟩ <;> dsimp only <;> omega
  have hcursor' : back.cursor + 10 = s.cursor := by rw [hback, hagain]
  have hend : back.cursor + 10 ≠ 800 := by
    rw [hcursor']
    intro h800
    rw [h800] at hcursor
    exact absurd hcursor (by decide)
  obtain ⟨hline', hlast⟩ := printGlyphAt_before_end glyph hend
  refine ⟨(printGlyphAt_inside hinside).1, ?_, ?_, ?_⟩ <;> dsimp only
  · rw [hline']
    exact hinside.line
  · rw [hlast, BitVec.add_sub_cancel]
    exact hinside.cursor
  · rw [hlast, BitVec.add_sub_cancel]
    exact hinside.column

/-- A character other than a tab keeps the position on the screen, and a tab does if more than
40 pixels are left on the line. -/
theorem printGlyph_inside_iff (font : ℕ → UInt8) (h : s.Inside) (c : UInt8) :
    (printGlyph font s c).2.Inside ∧ InFrame (printGlyph font s c).1 ↔
      (c = 9 → s.cursor.toNat + 40 < 800) := by
  have hnone : InFrame [] := fun idx hidx => absurd hidx List.not_mem_nil
  unfold printGlyph
  split
  · rename_i hc
    have htab : c ≠ 9 := by
      rintro rfl
      exact absurd hc (by decide)
    exact iff_of_true ⟨newline_inside h.line, hnone⟩ fun hc => absurd hc htab
  split
  · rename_i htab
    have hnext : (s.cursor + 40).toNat = s.cursor.toNat + 40 :=
      toNat_add_small (h.cursor.trans (by decide)) (by decide)
    constructor
    · rintro ⟨hin, -⟩ -
      rw [← hnext]
      exact hin.cursor
    · intro hroom
      refine ⟨⟨h.line, ?_, ?_⟩, hnone⟩
      · exact hnext.trans_lt (hroom htab)
      · show 10 ∣ (s.cursor + 40).toNat
        rw [hnext]
        exact Nat.dvd_add h.column (by decide)
  rename_i htab
  refine iff_of_true ?_ fun hc => absurd hc htab
  split
  · split
    · rename_i hpos
      exact (printGlyphAt_delete h hpos rfl).symm
    · exact ⟨h, hnone⟩
  · exact (printGlyphAt_inside h).symm

end Steps

/-! ## Runs -/

/-- The console before its first character. -/
def cliStart (fb : Word → BitVec 32) : Cli :=
  ⟨0, 0, defaultBackgroundColor, defaultTextColor, fb⟩

theorem cliStart_inside (fb : Word → BitVec 32) : (cliStart fb).Inside := by
  have hzero : (0 : Word).toNat ≤ 23 ∧ (0 : Word).toNat < 800 ∧ 10 ∣ (0 : Word).toNat := by decide
  exact ⟨hzero.1, hzero.2.1, hzero.2.2⟩

/-- A character leaves the position on the screen and draws on the screen only. -/
def StaysOnScreen (_ : Cli) (_ : UInt8) (pixels : List Word) (s' : Cli) : Prop :=
  s'.Inside ∧ InFrame pixels

def TabHasRoom (s : Cli) (c : UInt8) (_ : List Word) (_ : Cli) : Prop :=
  c = 9 → s.cursor.toNat + 40 < 800

/-- The console stays on the screen for a sequence of characters if and only if every tab of it
has room on its line. -/
theorem console_inside_iff (font : ℕ → UInt8) (fb : Word → BitVec 32) (cs : List UInt8) :
    Along (cliStep font) StaysOnScreen (cliStart fb) cs ↔
      Along (cliStep font) TabHasRoom (cliStart fb) cs := by
  apply along_iff_of_keeps _ cs _ (cliStart_inside fb)
  intro s c pixels s' hs hrun
  have hiff := printGlyph_inside_iff font hs c
  rw [Option.some.inj hrun] at hiff
  exact ⟨hiff, fun hroom => (hiff.mpr hroom).1⟩

def tabText : List UInt8 := List.replicate 23 10 ++ List.replicate 20 9

set_option maxRecDepth 4000 in
/-- The last tab ends at 800, where no test finds it, and on the last line the next glyph is
drawn behind the frame buffer. -/
theorem tabs_leave_screen :
    exec (cliStep fun _ => 0) (cliStart fun _ => 0) tabText =
      some (List.replicate 43 [], { cliStart (fun _ => 0) with line := 23, cursor := 800 }) ∧
    384000 ∈ (printGlyph (fun _ => 0)
      { cliStart (fun _ => 0) with line := 23, cursor := 800 } 65).1 ∧
    ¬ Along (cliStep fun _ => 0) StaysOnScreen (cliStart fun _ => 0) tabText := by
  have hrun : exec (cliStep fun _ => 0) (cliStart fun _ => 0) tabText =
      some (List.replicate 43 [], { cliStart (fun _ => 0) with line := 23, cursor := 800 }) := rfl
  have hpixel : (384000 : Word) ∈ glyphPixels 368800 := by decide +kernel
  refine ⟨hrun, hpixel, fun halong => ?_⟩
  have hend := Along.inv (fun _ _ _ _ _ _ hstays => hstays.1) tabText _ _ _
    (cliStart_inside _) halong hrun
  exact absurd hend.cursor (by decide)

end Rpos
