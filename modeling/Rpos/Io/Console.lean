import Rpos.Base.Loops
import Rpos.Base.TextPage
import Rpos.Io.Ansi

/-!
# The text on the console

The frame buffer of `cli.c` shows the last 24 lines of a page on which each character stands in
the colours of the sequences in front of it. The pixels are those of the font, and those that
were on the screen before the first character.
-/

namespace Rpos

open Base

/-! ## §1  Cells -/

abbrev Picture := Fin 20 → Fin 10 → BitVec 32

/-- What stands in a cell: pixels from before the console, or a glyph. -/
inductive TextCell
  | picture (pixels : Picture)
  | glyph (p : Printed)

def TextCell.blank : TextCell := .picture fun _ _ => 0

def TextCell.draw (font : ℕ → UInt8) : TextCell → Picture
  | .picture pixels => pixels
  | .glyph p => fun row col =>
      if (glyphRow (glyphOf font p.char) row).getLsbD (15 - col) then p.colors.text
      else p.colors.background

def cellPixel (line column row col : ℕ) : Word :=
  BitVec.ofNat 64 (line * 16000 + row * 800 + column * 10 + col)

def cellOf (fb : Word → BitVec 32) (line column : ℕ) : Picture :=
  fun row col => fb (cellPixel line column row col)

/-- The page that a character is printed on. A tab prints if it ends on its line. -/
def Base.Page.print (p : Page TextCell) (c : Printed) : Option (Page TextCell) :=
  if c.char = 10 ∨ c.char = 13 then some p.newline
  else if c.char = 9 then p.tab 80 4
  else if c.char = 127 then some (p.erase (.glyph ⟨32, c.colors⟩))
  else some (p.put 80 (.glyph c))

/-- The page of a frame buffer without text. -/
def startPage (fb : Word → BitVec 32) : Page TextCell :=
  ⟨0, 0, fun i j => if i < 24 then .picture (cellOf fb i j) else .blank⟩

structure ShowsPage (font : ℕ → UInt8) (s : Cli) (p : Page TextCell) : Prop where
  window : Window 24 80 (TextCell.draw font) .blank p s.line.toNat (s.cursor.toNat / 10)
    (cellOf s.fb)
  column : 10 ∣ s.cursor.toNat

/-- The pixels behind the frame buffer are as before. -/
def SameBehind (s s' : Cli) : Prop := ∀ idx : Word, 800 * 480 ≤ idx.toNat → s'.fb idx = s.fb idx

/-! ## §2  Pixels -/

section Pixels

variable {font glyph : ℕ → UInt8} {s s' s'' : Cli} {p p' : Page TextCell} {fb : Word → BitVec 32}
  {line column row col : ℕ}

theorem SameBehind.trans (h : SameBehind s s') (h' : SameBehind s' s'') : SameBehind s s'' :=
  fun idx hidx => (h' idx hidx).trans (h idx hidx)

theorem cellPixel_toNat (hline : line < 24) (hcolumn : column < 80) (hrow : row < 20)
    (hcol : col < 10) :
    (cellPixel line column row col).toNat = line * 16000 + row * 800 + column * 10 + col := by
  rw [cellPixel, BitVec.toNat_ofNat]
  omega

theorem cellPixel_inj {line' column' row' col' : ℕ} (hline : line < 24) (hcolumn : column < 80)
    (hrow : row < 20) (hcol : col < 10) (hline' : line' < 24) (hcolumn' : column' < 80)
    (hrow' : row' < 20) (hcol' : col' < 10)
    (heq : cellPixel line column row col = cellPixel line' column' row' col') :
    (line = line' ∧ column = column') ∧ row = row' ∧ col = col' := by
  have hnat := congrArg BitVec.toNat heq
  rw [cellPixel_toNat hline hcolumn hrow hcol, cellPixel_toNat hline' hcolumn' hrow' hcol'] at hnat
  omega

theorem ShowsPage.inside (h : ShowsPage font s p) : s.Inside := by
  have hline := h.window.line_lt
  have hcolumn := h.window.column_lt
  exact ⟨by omega, by omega, h.column⟩

theorem Cli.Inside.column_eq (h : s.Inside) : s.cursor.toNat = s.cursor.toNat / 10 * 10 :=
  (Nat.div_mul_cancel h.column).symm

/-- The pixels that a glyph is drawn on are those of its cell. -/
theorem glyphPixel_eq (h : s.Inside) (hrow : row < 20) (hcol : col < 10) :
    glyphPixel ((s.line * 800 * 20 + s.cursor).setWidth 32) row col =
      cellPixel s.line.toNat (s.cursor.toNat / 10) row col := by
  have hidx := fbIdx_toNat h
  have hcolumn := h.column_eq
  have hline := h.line
  have hcursor := h.cursor
  apply BitVec.eq_of_toNat_eq
  rw [glyphPixel_toNat (by omega) hrow hcol, hidx,
    cellPixel_toNat (by omega) (by omega) hrow hcol]
  omega

theorem mem_glyphCells : (row, col) ∈ glyphCells ↔ row < 20 ∧ col < 10 := by
  simp [glyphCells]

def Cli.drawn (glyph : ℕ → UInt8) (s : Cli) : Word → BitVec 32 :=
  drawGlyph glyph s ((s.line * 800 * 20 + s.cursor).setWidth 32)

theorem printGlyphAt_snd :
    (printGlyphAt glyph s).2 =
      if s.cursor + 10 = 800 then newline { s with fb := s.drawn glyph }
      else { s with fb := s.drawn glyph, cursor := s.cursor + 10 } := rfl

/-- A glyph that is drawn, as stores to the pixels of its cell. -/
theorem drawn_eq (h : s.Inside) :
    s.drawn glyph =
      glyphCells.foldl (fun fb q => Function.update fb
        (cellPixel s.line.toNat (s.cursor.toNat / 10) q.1 q.2) (glyphColor glyph s q.1 q.2))
        s.fb := by
  unfold Cli.drawn drawGlyph
  apply List.foldl_ext
  rintro fb ⟨row, col⟩ hq
  obtain ⟨hrow, hcol⟩ := mem_glyphCells.mp hq
  rw [glyphPixel_eq h hrow hcol]
  funext idx
  rw [writePixel, Function.update_apply]

theorem drawn_here (h : s.Inside) (c : UInt8) :
    cellOf (s.drawn (glyphOf font c)) s.line.toNat (s.cursor.toNat / 10) =
      TextCell.draw font (.glyph ⟨c, s.colors⟩) := by
  have hline := h.line
  have hcursor := h.cursor
  funext row col
  rw [cellOf, drawn_eq h]
  apply foldl_update_of_mem (k := fun q : ℕ × ℕ =>
    cellPixel s.line.toNat (s.cursor.toNat / 10) q.1 q.2) (p := (row.1, col.1))
  · exact mem_glyphCells.mpr ⟨row.2, col.2⟩
  · rintro ⟨row', col'⟩ hq heq
    obtain ⟨hrow', hcol'⟩ := mem_glyphCells.mp hq
    obtain ⟨-, hrow, hcol⟩ := cellPixel_inj (by omega) (by omega) hrow' hcol' (by omega) (by omega)
      row.2 col.2 heq
    exact Prod.ext hrow hcol

theorem drawn_other (h : s.Inside) (hline : line < 24) (hcolumn : column < 80)
    (hne : ¬ (line = s.line.toNat ∧ column = s.cursor.toNat / 10)) :
    cellOf (s.drawn glyph) line column =
      cellOf s.fb line column := by
  have hline' := h.line
  have hcursor := h.cursor
  funext row col
  rw [cellOf, drawn_eq h]
  apply foldl_update_of_notMem
  rintro ⟨row', col'⟩ hq heq
  obtain ⟨hrow', hcol'⟩ := mem_glyphCells.mp hq
  obtain ⟨hcell, -⟩ := cellPixel_inj (by omega) (by omega) hrow' hcol' hline hcolumn row.2 col.2 heq
  exact hne ⟨hcell.1.symm, hcell.2.symm⟩

theorem drawn_behind (glyph : ℕ → UInt8) (h : s.Inside) :
    SameBehind s { s with fb := s.drawn glyph } := by
  have hline := h.line
  have hcursor := h.cursor
  intro idx hidx
  dsimp only
  rw [drawn_eq h]
  apply foldl_update_of_notMem
  rintro ⟨row, col⟩ hq rfl
  obtain ⟨hrow, hcol⟩ := mem_glyphCells.mp hq
  rw [cellPixel_toNat (by omega) (by omega) hrow hcol] at hidx
  omega

theorem scroll_up (hline : line + 1 < 24) (hcolumn : column < 80) :
    cellOf (scroll fb) line column = cellOf fb (line + 1) column := by
  funext row col
  have hlt : cellPixel line column row col < 16000 * 23 := by
    show (cellPixel line column row col).toNat < 16000 * 23
    rw [cellPixel_toNat (by omega) hcolumn row.2 col.2]
    omega
  have hnext : cellPixel line column row col + 16000 = cellPixel (line + 1) column row col := by
    have hnat := cellPixel_toNat (by omega : line < 24) hcolumn row.2 col.2
    apply BitVec.eq_of_toNat_eq
    rw [cellPixel_toNat hline hcolumn row.2 col.2]
    have hsum := toNat_add_small (w := cellPixel line column row col) (n := 16000) (by omega)
      (by decide)
    exact hsum.trans (by omega)
  rw [cellOf, scroll, if_pos hlt, hnext]
  rfl

theorem scroll_last (hcolumn : column < 80) :
    cellOf (scroll fb) 23 column = TextCell.draw font .blank := by
  funext row col
  have hnat := cellPixel_toNat (by decide : 23 < 24) hcolumn row.2 col.2
  have hge : ¬ cellPixel 23 column row col < 16000 * 23 := by
    show ¬ (cellPixel 23 column row col).toNat < 16000 * 23
    omega
  have hlt : cellPixel 23 column row col < 16000 * 24 := by
    show (cellPixel 23 column row col).toNat < 16000 * 24
    omega
  rw [cellOf, scroll, if_neg hge, if_pos hlt]
  rfl

theorem scroll_behind (fb : Word → BitVec 32) {idx : Word} (hidx : 800 * 480 ≤ idx.toNat) :
    scroll fb idx = fb idx := by
  have hge : ∀ w : Word, w.toNat ≤ 800 * 480 → ¬ idx < w := fun w hw hlt =>
    absurd (show idx.toNat < w.toNat from hlt) (by omega)
  rw [scroll, if_neg (hge _ (by decide)), if_neg (hge _ (by decide))]

/-! ## §3  Characters -/

theorem newline_shows (h : ShowsPage font s p) :
    ShowsPage font (newline s) p.newline ∧ SameBehind s (newline s) := by
  have hline := h.window.line_lt
  have hsucc : (s.line + 1).toNat = s.line.toNat + 1 := toNat_add_small (by omega) (by decide)
  unfold newline
  dsimp only
  by_cases hlast : s.line.toNat + 1 = 24
  · have h24 : s.line + 1 = 24 := BitVec.eq_of_toNat_eq (hsucc.trans hlast)
    have hsame : (s.line + 1 - 1).toNat = s.line.toNat := by rw [BitVec.add_sub_cancel]
    rw [if_pos h24]
    refine ⟨⟨?_, Nat.dvd_zero 10⟩, fun idx hidx => scroll_behind s.fb hidx⟩
    dsimp only
    rw [hsame]
    apply h.window.scroll hlast
    · exact fun i j hi hj => scroll_up hi hj
    · intro j hj
      obtain hlast : s.line.toNat = 23 := by omega
      rw [hlast]
      exact scroll_last hj
  · have hne : s.line + 1 ≠ 24 := fun h24 => hlast (hsucc.symm.trans (congrArg BitVec.toNat h24))
    rw [if_neg hne]
    refine ⟨⟨?_, Nat.dvd_zero 10⟩, fun _ _ => rfl⟩
    dsimp only
    rw [hsucc]
    exact h.window.newline (by omega)

theorem ShowsPage.move (h : ShowsPage font s p) {cursor : Word} {column : ℕ}
    (hcursor : cursor.toNat = column * 10) (hlt : column < 80) :
    ShowsPage font { s with cursor := cursor } { p with column := column } := by
  refine ⟨?_, Dvd.intro_left column hcursor.symm⟩
  have hcolumn : cursor.toNat / 10 = column := by rw [hcursor, Nat.mul_div_cancel _ (by decide)]
  dsimp only
  rw [hcolumn]
  exact h.window.move hlt

theorem ShowsPage.draw (h : ShowsPage font s p) (c : UInt8) :
    ShowsPage font
      { s with fb := s.drawn (glyphOf font c) }
      (p.set (.glyph ⟨c, s.colors⟩)) := by
  have hwindow := h.window.set (drawn_here h.inside c) fun i j hi hj hne =>
    drawn_other h.inside hi hj hne
  exact ⟨hwindow, h.column⟩

theorem printGlyphAt_shows (h : ShowsPage font s p) (c : UInt8) :
    ShowsPage font (printGlyphAt (glyphOf font c) s).2 (p.put 80 (.glyph ⟨c, s.colors⟩)) ∧
      SameBehind s (printGlyphAt (glyphOf font c) s).2 := by
  have hin := h.inside
  have hcursor := hin.cursor
  have hcolumn := hin.column_eq
  have hpage := h.window.column_eq
  have hdrawn := h.draw c
  have hbehind := drawn_behind (glyphOf font c) hin
  have hnext : (s.cursor + 10).toNat = s.cursor.toNat + 10 :=
    toNat_add_small (by omega) (by decide)
  rw [printGlyphAt_snd, Page.put]
  by_cases hend : p.column + 1 = 80
  · have h800 : s.cursor + 10 = 800 := by
      apply BitVec.eq_of_toNat_eq
      rw [hnext]
      show s.cursor.toNat + 10 = 800
      omega
    rw [if_pos h800, if_pos hend]
    obtain ⟨hshows, hsame⟩ := newline_shows hdrawn
    exact ⟨hshows, hbehind.trans hsame⟩
  · have h800 : s.cursor + 10 ≠ 800 := by
      intro h800
      have hnat : s.cursor.toNat + 10 = 800 := hnext.symm.trans (congrArg BitVec.toNat h800)
      omega
    rw [if_neg h800, if_neg hend]
    exact ⟨hdrawn.move (by omega) (by omega), hbehind⟩

/-- A delete goes back over the glyph, draws a space there and goes back over the space. -/
theorem delete_shows (h : ShowsPage font s p) (hpos : p.column ≠ 0) {back : Cli}
    (hback : back = { s with cursor := s.cursor - 10 }) :
    ShowsPage font
        { (printGlyphAt (glyphOf font 32) back).2 with
          cursor := (printGlyphAt (glyphOf font 32) back).2.cursor - 10 }
        (p.erase (.glyph ⟨32, s.colors⟩)) ∧
      SameBehind s (printGlyphAt (glyphOf font 32) back).2 := by
  have hcursor := h.inside.cursor
  have hcolumn := h.inside.column_eq
  have hpage := h.window.column_eq
  have hsub : (s.cursor - 10).toNat = s.cursor.toNat - 10 := by
    apply BitVec.toNat_sub_of_le
    show 10 ≤ s.cursor.toNat
    omega
  have hend : s.cursor - 10 + 10 ≠ 800 := by
    rw [BitVec.sub_add_cancel]
    intro h800
    rw [h800] at hcursor
    exact absurd hcursor (by decide)
  have hagain : (s.cursor - 10 + 10 - 10).toNat = (p.column - 1) * 10 := by
    rw [BitVec.add_sub_cancel]
    omega
  have hmoved : ShowsPage font { s with cursor := s.cursor - 10 }
      { p with column := p.column - 1 } := h.move (by omega) (by omega)
  have hdrawn := (hmoved.draw 32).move hagain (by omega : p.column - 1 < 80)
  have hbehind := drawn_behind (glyphOf font 32) hmoved.inside
  subst hback
  rw [printGlyphAt_snd, if_neg hend, Page.erase, if_neg hpos]
  exact ⟨hdrawn, hbehind⟩

/-- A character is printed on the page that the console shows. -/
theorem printGlyph_shows (h : ShowsPage font s p) {c : UInt8}
    (hprint : p.print ⟨c, s.colors⟩ = some p') :
    ShowsPage font (printGlyph font s c).2 p' ∧ SameBehind s (printGlyph font s c).2 := by
  have hcursor := h.inside.cursor
  have hcolumn := h.inside.column_eq
  have hpage := h.window.column_eq
  unfold Page.print at hprint
  unfold printGlyph
  dsimp only at hprint ⊢
  split_ifs at hprint ⊢ with hnewline htab hdelete hpos
  · obtain rfl := Option.some.inj hprint
    exact newline_shows h
  · unfold Page.tab at hprint
    split_ifs at hprint with hroom
    obtain rfl := Option.some.inj hprint
    have hnext : (s.cursor + 40).toNat = s.cursor.toNat + 40 :=
      toNat_add_small (by omega) (by decide)
    exact ⟨h.move (by omega) hroom, fun _ _ => rfl⟩
  · obtain rfl := Option.some.inj hprint
    have hcursor' : 0 < s.cursor.toNat := hpos
    exact delete_shows h (by omega) rfl
  · obtain rfl := Option.some.inj hprint
    have hcursor' : ¬ 0 < s.cursor.toNat := hpos
    rw [Page.erase, if_pos (by omega)]
    exact ⟨h, fun _ _ => rfl⟩
  · obtain rfl := Option.some.inj hprint
    exact printGlyphAt_shows h c

end Pixels

/-! ## §4  Streams -/

section Streams

variable {font : ℕ → UInt8} {s t : AnsiDecoder} {p p' : Page TextCell} {printed : List Printed}

def SamePicture (cli cli' : Cli) : Prop :=
  cli'.line = cli.line ∧ cli'.cursor = cli.cursor ∧ cli'.fb = cli.fb

theorem applyParam_same (cli : Cli) (param : BitVec 32) :
    SamePicture cli (applyParam cli param) := by
  unfold applyParam
  split <;> exact ⟨rfl, rfl, rfl⟩

theorem foldl_applyParam_same (params : List (BitVec 32)) (cli : Cli) :
    SamePicture cli (params.foldl applyParam cli) := by
  induction params generalizing cli with
  | nil => exact ⟨rfl, rfl, rfl⟩
  | cons param params ih =>
    obtain ⟨hline, hcursor, hfb⟩ := applyParam_same cli param
    obtain ⟨hline', hcursor', hfb'⟩ := ih (applyParam cli param)
    exact ⟨hline'.trans hline, hcursor'.trans hcursor, hfb'.trans hfb⟩

theorem ansiEndEscape_same (hstep : ansiEndEscape s = some t) : SamePicture s.cli t.cli := by
  obtain ⟨params, -, rfl⟩ := Option.map_eq_some_iff.mp hstep
  dsimp only
  split_ifs
  · exact foldl_applyParam_same params s.cli
  · exact ⟨rfl, rfl, rfl⟩

theorem storeParam_cli {c : UInt8} (hstep : storeParam s c = some t) : t.cli = s.cli := by
  unfold storeParam at hstep
  split_ifs at hstep
  obtain rfl := Option.some.inj hstep
  rfl

theorem ansiParsing_cli {c : UInt8} (hstep : ansiParsing s c = some t) : t.cli = s.cli := by
  unfold ansiParsing at hstep
  split_ifs at hstep
  · obtain ⟨u, hstore, rfl⟩ := Option.map_eq_some_iff.mp hstep
    have hcli := storeParam_cli hstore
    exact hcli
  · obtain ⟨u, hstore, rfl⟩ := Option.map_eq_some_iff.mp hstep
    have hcli := storeParam_cli hstore
    exact hcli
  · obtain rfl := Option.some.inj hstep
    rfl

theorem ShowsPage.same {cli cli' : Cli} (h : ShowsPage font cli p) (hsame : SamePicture cli cli') :
    ShowsPage font cli' p := by
  obtain ⟨hline, hcursor, hfb⟩ := hsame
  have hwindow := h.window
  have hcolumn := h.column
  rw [← hline, ← hcursor, ← hfb] at hwindow
  rw [← hcursor] at hcolumn
  exact ⟨hwindow, hcolumn⟩

theorem SamePicture.behind {cli cli' : Cli} (hsame : SamePicture cli cli') :
    SameBehind cli cli' := fun _ _ => by rw [hsame.2.2]

theorem ansiNormal_shows (h : ShowsPage font s.cli p) {c : UInt8} {out : List Printed}
    (hstep : ansiNormal true font s c = (out, t)) (hpage : out.foldlM Page.print p = some p') :
    ShowsPage font t.cli p' ∧ SameBehind s.cli t.cli := by
  unfold ansiNormal at hstep
  split_ifs at hstep
  · obtain ⟨rfl, rfl⟩ := Prod.mk.inj hstep
    obtain rfl := Option.some.inj hpage
    exact ⟨h, fun _ _ => rfl⟩
  · obtain ⟨rfl, rfl⟩ := Prod.mk.inj hstep
    rw [foldlM_one] at hpage
    exact printGlyph_shows h hpage

/-- The characters that a call of the decoder passes on are printed. -/
theorem ansiDecoder_shows (h : ShowsPage font s.cli p) {c : UInt8} {out : List Printed}
    (hstep : ansiDecoder true font s c = some (out, t))
    (hpage : out.foldlM Page.print p = some p') :
    ShowsPage font t.cli p' ∧ SameBehind s.cli t.cli := by
  have hnone : ∀ {u : AnsiDecoder}, SamePicture s.cli u.cli → ([], u) = (out, t) →
      ShowsPage font t.cli p' ∧ SameBehind s.cli t.cli := by
    intro u hsame heq
    obtain ⟨rfl, rfl⟩ := Prod.mk.inj heq
    obtain rfl := Option.some.inj hpage
    exact ⟨h.same hsame, hsame.behind⟩
  unfold ansiDecoder at hstep
  split at hstep
  · refine hnone ?_ (Option.some.inj hstep)
    unfold ansiEscape
    split_ifs <;> exact ⟨rfl, rfl, rfl⟩
  · obtain ⟨u, hparsing, heq⟩ := Option.map_eq_some_iff.mp hstep
    refine hnone ?_ heq
    rw [ansiParsing_cli hparsing]
    exact ⟨rfl, rfl, rfl⟩
  · obtain ⟨u, hend, heq⟩ := Option.map_eq_some_iff.mp hstep
    have hsame := ansiEndEscape_same hend
    obtain ⟨hshows, hbehind⟩ := ansiNormal_shows (h.same hsame) heq hpage
    exact ⟨hshows, hsame.behind.trans hbehind⟩
  · exact ansiNormal_shows h (Option.some.inj hstep) hpage

theorem feed_shows (cs : List UInt8) :
    ∀ {s : AnsiDecoder} {p : Page TextCell} {printed : List Printed},
      ShowsPage font s.cli p → feed true font s cs = some (printed, t) →
      printed.foldlM Page.print p = some p' →
      ShowsPage font t.cli p' ∧ SameBehind s.cli t.cli := by
  induction cs with
  | nil =>
    intro s p printed h hfeed hpage
    obtain ⟨rfl, rfl⟩ := Prod.mk.inj (Option.some.inj hfeed)
    obtain rfl := Option.some.inj hpage
    exact ⟨h, fun _ _ => rfl⟩
  | cons c cs ih =>
    intro s p printed h hfeed hpage
    cases hstep : ansiDecoder true font s c with
    | none => simp [feed, exec, hstep] at hfeed
    | some r =>
      obtain ⟨out, u⟩ := r
      rw [feed_cons cs hstep] at hfeed
      obtain ⟨⟨rest, t'⟩, hrest, heq⟩ := Option.map_eq_some_iff.mp hfeed
      obtain ⟨rfl, rfl⟩ := Prod.mk.inj heq
      rw [List.foldlM_append] at hpage
      obtain ⟨q, hout, hpage⟩ := Option.bind_eq_some_iff.mp hpage
      obtain ⟨hshows, hbehind⟩ := ansiDecoder_shows h hstep hout
      obtain ⟨hshows', hbehind'⟩ := ih hshows hrest hpage
      exact ⟨hshows', hbehind.trans hbehind'⟩

/-- Chunks of a stream of pieces are typeset on the page that the console shows. -/
theorem chunks_show {colors : Colors} {items : List AnsiItem} {chunks : List (List UInt8)}
    (hcolors : Shows s colors) (h : ShowsPage font s.cli p)
    (hchunks : chunks.flatten = items.flatMap AnsiItem.chars)
    (hpage : (render codeColors colors items).foldlM Page.print p = some p') :
    ∃ printed t, exec (feed true font) s chunks = some (printed, t) ∧
      ShowsPage font t.cli p' ∧ SameBehind s.cli t.cli := by
  obtain ⟨t, hfeed⟩ := feed_items true font items hcolors
  obtain ⟨hshows, hbehind⟩ := feed_shows _ h hfeed hpage
  rw [← hchunks, feed_flatten] at hfeed
  obtain ⟨⟨printed, t'⟩, hexec, heq⟩ := Option.map_eq_some_iff.mp hfeed
  obtain ⟨-, rfl⟩ := Prod.mk.inj heq
  exact ⟨printed, t', hexec, hshows, hbehind⟩

end Streams

theorem cliStart_shows (font : ℕ → UInt8) (fb : Word → BitVec 32) :
    ShowsPage font (cliStart fb) (startPage fb) := by
  have hstart : Window 24 80 (TextCell.draw font) .blank (startPage fb) 0 0 (cellOf fb) := by
    apply Window.start (by decide) (by decide)
    · intro i j hi _
      rw [if_pos hi]
      rfl
    · intro i j hi
      exact if_neg (Nat.not_lt.mpr hi)
  have hline : (cliStart fb).line.toNat = 0 := rfl
  have hcursor : (cliStart fb).cursor.toNat = 0 := rfl
  refine ⟨?_, ?_⟩
  · rw [hline, hcursor]
    exact hstart
  · rw [hcursor]
    exact Nat.dvd_zero 10

/-- From its start the console shows, for every chunking of a stream of characters and small
colour sequences whose tabs have room on their lines, the end of the page on which each character
stands in the colours of the sequences in front of it, and writes to no pixel behind the frame
buffer. -/
theorem console_shows (font : ℕ → UInt8) (fb : Word → BitVec 32) (items : List AnsiItem)
    (chunks : List (List UInt8)) (page : Page TextCell)
    (hsmall : ∀ item ∈ items, item.Small)
    (hchunks : chunks.flatten = items.flatMap AnsiItem.chars)
    (hpage : (render Colors.setAll ⟨defaultTextColor, defaultBackgroundColor⟩ items).foldlM
      Page.print (startPage fb) = some page) :
    ∃ printed t, exec (feed true font) (ansiStart (cliStart fb)) chunks = some (printed, t) ∧
      ShowsPage font t.cli page ∧ ∀ idx : Word, 800 * 480 ≤ idx.toNat → t.cli.fb idx = fb idx := by
  rw [← render_codeColors hsmall] at hpage
  have hstart : Shows (ansiStart (cliStart fb)) ⟨defaultTextColor, defaultBackgroundColor⟩ :=
    Or.inl ⟨rfl, rfl⟩
  exact chunks_show hstart (cliStart_shows font fb) hchunks hpage

def redText : List AnsiItem :=
  [.plain ⟨97, by decide⟩,
    .sequence ⟨[51, 49], by decide, List.forall_mem_cons.mpr
      ⟨Or.inl (by decide), List.forall_mem_singleton.mpr (Or.inl (by decide))⟩⟩,
    .plain ⟨98, by decide⟩]

theorem console_shows_red : ∃ printed t,
    exec (feed true fun _ => 255) (ansiStart (cliStart fun _ => 0))
      [[97, 27, 91, 51], [49, 109, 98]] = some (printed, t) ∧
    cellOf t.cli.fb 0 0 5 5 = 0xFFFFFFFF ∧ cellOf t.cli.fb 0 1 5 5 = 0xFFFF0000 := by
  have hsmall : ∀ item ∈ redText, item.Small := by
    unfold redText
    rintro item (_ | ⟨_, _ | ⟨_, _ | ⟨_, h⟩⟩⟩)
    · trivial
    · exact ⟨by decide, by decide⟩
    · trivial
    · exact absurd h List.not_mem_nil
  obtain ⟨printed, t, hexec, hshows, -⟩ := console_shows (fun _ => 255) (fun _ => 0) redText
    [[97, 27, 91, 51], [49, 109, 98]] _ hsmall rfl rfl
  refine ⟨printed, t, hexec, ?_, ?_⟩
  · rw [hshows.window.cells_eq 0 0 (by decide) (by decide)]
    rfl
  · rw [hshows.window.cells_eq 0 1 (by decide) (by decide)]
    rfl

end Rpos
