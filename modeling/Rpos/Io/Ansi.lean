import Rpos.Io.Cli

/-!
# Colour sequences

`ansi_decoder` of `kprintf.c` stands between `kprintf` and `uart_putc`. It takes
the sequences `ESC [ … m` out of the stream, one character at a call, and keeps
what it has read of one in globals. The colours of a sequence are set when the
character behind it comes.
-/

namespace Rpos

open Base

/-! ## §1  The decoder -/

inductive AnsiState
  | ansiEscape
  | ansiNormal
  | ansiParsing
  | ansiEndParsing
  deriving DecidableEq

/-- `state` of `kprintf.c`, and the console that it prints to. -/
structure AnsiDecoder where
  state : AnsiState
  params : Vector UInt8 16
  paramLen : BitVec 32
  cmd : UInt8
  cli : Cli

structure Colors where
  text : BitVec 32
  background : BitVec 32
  deriving DecidableEq

def Cli.colors (cli : Cli) : Colors := ⟨cli.textColor, cli.backgroundColor⟩

/-- A character passed to `uart_putc`, and the colours at that time. -/
structure Printed where
  char : UInt8
  colors : Colors
  deriving DecidableEq

/-- `uart_putc`, on the console: the glyph is printed if the panel is in use. -/
def uartPutc (panel : Bool) (font : ℕ → UInt8) (cli : Cli) (c : UInt8) : Cli :=
  if panel then (printGlyph font cli c).2 else cli

/-- `atoi_until_semicolon` on the rest of the array; `none` when it comes to the end of it. -/
def atoiUntilSemicolon : List UInt8 → BitVec 32 → Option (BitVec 32 × List UInt8)
  | [], _ => none
  | c :: p, num =>
      if c = 0 then some (num, c :: p)
      else if c = 59 then some (num, p)
      else atoiUntilSemicolon p (num * 10 + (c.toBitVec.setWidth 32 - 48))

/-- The loop of `ansi_end_escape` over the parameters, with room for `n` more. -/
def parseParams : ℕ → List UInt8 → Option (List (BitVec 32))
  | _, [] => none
  | 0, _ :: _ => some []
  | n + 1, c :: p =>
      if c = 0 then some []
      else
        match atoiUntilSemicolon (c :: p) 0 with
        | none => none
        | some (num, p) => (parseParams n p).map (num :: ·)

/-- The `switch` of `ansi_end_escape`, with the constants of `ANSI_COLORS`. -/
def applyParam (cli : Cli) (param : BitVec 32) : Cli :=
  match param.toNat with
  | 0 => cli.unsetTextBackgroundColor.unsetTextColor
  | 30 => cli.setTextColor 0xFF000000
  | 31 => cli.setTextColor 0xFFFF0000
  | 32 => cli.setTextColor 0xFF00FF00
  | 33 => cli.setTextColor 0xFFFFFF00
  | 34 => cli.setTextColor 0xFF0000FF
  | 35 => cli.setTextColor 0xFFFF00FF
  | 36 => cli.setTextColor 0xFF00FFFF
  | 37 => cli.setTextColor 0xFFFFFFFF
  | 40 => cli.setTextBackgroundColor 0xFF000000
  | 41 => cli.setTextBackgroundColor 0xFFFF0000
  | 42 => cli.setTextBackgroundColor 0xFF00FF00
  | 43 => cli.setTextBackgroundColor 0xFFFFFF00
  | 44 => cli.setTextBackgroundColor 0xFF0000FF
  | 45 => cli.setTextBackgroundColor 0xFFFF00FF
  | 46 => cli.setTextBackgroundColor 0xFF00FFFF
  | 47 => cli.setTextBackgroundColor 0xFFFFFFFF
  | _ => cli

def ansiNormal (panel : Bool) (font : ℕ → UInt8) (s : AnsiDecoder) (c : UInt8) :
    List Printed × AnsiDecoder :=
  if c = 27 then ([], { s with state := .ansiEscape })
  else ([⟨c, s.cli.colors⟩], { s with state := .ansiNormal, cli := uartPutc panel font s.cli c })

def ansiEscape (s : AnsiDecoder) (c : UInt8) : AnsiDecoder :=
  if c = 91 then { s with state := .ansiParsing, paramLen := 0 }
  else { s with state := .ansiNormal }

/-- `state.params[state.param_len] = c`; `none` outside the array. -/
def storeParam (s : AnsiDecoder) (c : UInt8) : Option AnsiDecoder :=
  if h : s.paramLen.toNat < 16 then some { s with params := s.params.set s.paramLen.toNat c h }
  else none

/-- `ansi_parsing`. The length is compared as an unsigned long. -/
def ansiParsing (s : AnsiDecoder) (c : UInt8) : Option AnsiDecoder :=
  if c = 109 then
    (storeParam { s with cmd := 109 } 0).map fun s => { s with state := .ansiEndParsing }
  else if (48 ≤ c ∧ c ≤ 57 ∨ c = 59) ∧ s.paramLen.signExtend 64 < 15 then
    (storeParam s c).map fun s => { s with state := .ansiParsing, paramLen := s.paramLen + 1 }
  else some { s with state := .ansiNormal, paramLen := 0 }

def ansiEndEscape (s : AnsiDecoder) : Option AnsiDecoder :=
  (parseParams 5 s.params.toList).map fun params =>
    { s with
      state := .ansiNormal
      cli := if s.cmd = 109 then params.foldl applyParam s.cli else s.cli }

/-- `ansi_decoder`, with the characters that it passes on. Behind a sequence it goes on as in
the normal state. -/
def ansiDecoder (panel : Bool) (font : ℕ → UInt8) (s : AnsiDecoder) (c : UInt8) :
    Option (List Printed × AnsiDecoder) :=
  match s.state with
  | .ansiEscape => some ([], ansiEscape s c)
  | .ansiParsing => (ansiParsing s c).map fun s => ([], s)
  | .ansiEndParsing => (ansiEndEscape s).map fun s => ansiNormal panel font s c
  | .ansiNormal => some (ansiNormal panel font s c)

/-- The decoder before its first character. -/
def ansiStart (cli : Cli) : AnsiDecoder := ⟨.ansiNormal, Vector.replicate 16 0, 0, 0, cli⟩

def feed (panel : Bool) (font : ℕ → UInt8) (s : AnsiDecoder) (cs : List UInt8) :
    Option (List Printed × AnsiDecoder) :=
  (exec (ansiDecoder panel font) s cs).map fun r => (r.1.flatten, r.2)

/-! ## §2  Streams -/

def IsParamChar (c : UInt8) : Prop := 48 ≤ c ∧ c ≤ 57 ∨ c = 59

/-- The piece of a stream: a plain character, or a sequence with its parameters. -/
inductive AnsiItem
  | plain (c : { c : UInt8 // c ≠ 27 })
  | sequence (w : { w : List UInt8 // w.length ≤ 15 ∧ ∀ c ∈ w, IsParamChar c })

def AnsiItem.chars : AnsiItem → List UInt8
  | .plain c => [c.1]
  | .sequence w => 27 :: 91 :: (w.1 ++ [109])

def plainChars (items : List AnsiItem) : List UInt8 :=
  items.filterMap fun
    | .plain c => some c.1
    | .sequence _ => none

/-- The parameters of a sequence: each one ends at a semicolon or, if it is not empty, at the
end. So an empty parameter in front of a semicolon is one, and `ESC [ m` has none. -/
def sequenceParams : List UInt8 → List (List UInt8)
  | [] => []
  | c :: w =>
      if c = 59 then [] :: sequenceParams w
      else
        match sequenceParams w with
        | [] => [[c]]
        | p :: ps => (c :: p) :: ps

def paramValue (p : List UInt8) : ℕ := p.foldl (fun num c => num * 10 + (c.toNat - 48)) 0

/-- The colours 30 to 37, and 40 to 47. -/
def ansiColors : List (BitVec 32) :=
  [0xFF000000, 0xFFFF0000, 0xFF00FF00, 0xFFFFFF00, 0xFF0000FF, 0xFFFF00FF, 0xFF00FFFF, 0xFFFFFFFF]

def Colors.set (colors : Colors) (p : ℕ) : Colors :=
  if p = 0 then ⟨defaultTextColor, defaultBackgroundColor⟩
  else if 30 ≤ p ∧ p ≤ 37 then { colors with text := ansiColors.getD (p - 30) 0 }
  else if 40 ≤ p ∧ p ≤ 47 then { colors with background := ansiColors.getD (p - 40) 0 }
  else colors

def Colors.setAll (colors : Colors) (w : List UInt8) : Colors :=
  ((sequenceParams w).map paramValue).foldl Colors.set colors

/-- The plain characters with the colours that the sequences in front of them have set. -/
def render (set : Colors → List UInt8 → Colors) : Colors → List AnsiItem → List Printed
  | _, [] => []
  | colors, .plain c :: items => ⟨c.1, colors⟩ :: render set colors items
  | colors, .sequence w :: items => render set (set colors w.1) items

/-- A sequence has at most five parameters of at most nine digits. -/
def AnsiItem.Small : AnsiItem → Prop
  | .plain _ => True
  | .sequence w => (sequenceParams w.1).length ≤ 5 ∧ ∀ p ∈ sequenceParams w.1, p.length ≤ 9

/-! ## §3  Parameters -/

theorem newline_colors (s : Cli) : (newline s).colors = s.colors := by
  unfold newline
  dsimp only
  split <;> rfl

theorem printGlyphAt_colors (glyph : ℕ → UInt8) (s : Cli) :
    (printGlyphAt glyph s).2.colors = s.colors := by
  unfold printGlyphAt
  dsimp only
  split
  · exact newline_colors _
  · rfl

theorem uartPutc_colors (panel : Bool) (font : ℕ → UInt8) (cli : Cli) (c : UInt8) :
    (uartPutc panel font cli c).colors = cli.colors := by
  unfold uartPutc
  split
  · unfold printGlyph
    split
    · exact newline_colors cli
    split
    · rfl
    split
    · split
      · exact printGlyphAt_colors (glyphOf font 32) { cli with cursor := cli.cursor - 10 }
      · rfl
    · exact printGlyphAt_colors (glyphOf font c) cli
  · rfl

theorem applyParam_colors (cli : Cli) (param : BitVec 32) :
    (applyParam cli param).colors = cli.colors.set param.toNat := by
  unfold applyParam
  split
  case h_18 =>
    -- none of the numbers of the `switch`
    rename_i h0 h30 h31 h32 h33 h34 h35 h36 h37 h40 h41 h42 h43 h44 h45 h46 h47
    simp only [imp_false] at *
    have htext : ¬ (30 ≤ param.toNat ∧ param.toNat ≤ 37) := by omega
    have hback : ¬ (40 ≤ param.toNat ∧ param.toNat ≤ 47) := by omega
    rw [Colors.set, if_neg h0, if_neg htext, if_neg hback]
  all_goals
    rename_i h
    rw [h]
    rfl

def paramBits (p : List UInt8) : BitVec 32 :=
  p.foldl (fun num c => num * 10 + (c.toBitVec.setWidth 32 - 48)) 0

theorem sequenceParams_eq_nil {w : List UInt8} : sequenceParams w = [] ↔ w = [] := by
  cases w with
  | nil => exact iff_of_true rfl rfl
  | cons c w =>
    apply iff_of_false _ (List.cons_ne_nil c w)
    rw [sequenceParams]
    split
    · exact List.cons_ne_nil _ _
    · split
      · exact List.cons_ne_nil _ _
      · exact List.cons_ne_nil _ _

theorem IsParamChar.ne_zero {c : UInt8} (h : IsParamChar c) : c ≠ 0 := by
  rintro rfl
  exact absurd h (by unfold IsParamChar; decide)

theorem atoiUntilSemicolon_eq {w rest p : List UInt8} {ps : List (List UInt8)}
    (hw : ∀ c ∈ w, IsParamChar c) (hps : sequenceParams w = p :: ps) :
    ∃ w', (∀ c ∈ w', IsParamChar c) ∧ sequenceParams w' = ps ∧
      ∀ num, atoiUntilSemicolon (w ++ 0 :: rest) num =
        some (p.foldl (fun num c => num * 10 + (c.toBitVec.setWidth 32 - 48)) num,
          w' ++ 0 :: rest) := by
  induction w generalizing p ps with
  | nil => exact absurd hps (List.cons_ne_nil p ps).symm
  | cons c w ih =>
    have hc := (hw c List.mem_cons_self).ne_zero
    have hrest : ∀ d ∈ w, IsParamChar d := fun d hd => hw d (List.mem_cons_of_mem c hd)
    rw [sequenceParams] at hps
    by_cases hsemi : c = 59
    · rw [if_pos hsemi] at hps
      obtain ⟨rfl, rfl⟩ := List.cons.inj hps
      refine ⟨w, hrest, rfl, fun num => ?_⟩
      rw [List.cons_append, atoiUntilSemicolon, if_neg hc, if_pos hsemi]
      rfl
    · rw [if_neg hsemi] at hps
      cases hw' : sequenceParams w with
      | nil =>
        -- the last digit
        rw [hw'] at hps
        obtain ⟨rfl, rfl⟩ := List.cons.inj hps
        have hnil := sequenceParams_eq_nil.mp hw'
        subst hnil
        refine ⟨[], List.forall_mem_nil _, rfl, fun num => ?_⟩
        rw [List.cons_append, atoiUntilSemicolon, if_neg hc, if_neg hsemi, List.nil_append,
          atoiUntilSemicolon, if_pos rfl]
        rfl
      | cons p' ps' =>
        rw [hw'] at hps
        obtain ⟨rfl, rfl⟩ := List.cons.inj hps
        obtain ⟨w', hchars, hparams, hatoi⟩ := ih hrest hw'
        refine ⟨w', hchars, hparams, fun num => ?_⟩
        rw [List.cons_append, atoiUntilSemicolon, if_neg hc, if_neg hsemi, hatoi]
        rfl

/-- The loop of `ansi_end_escape` takes the first parameters. -/
theorem parseParams_eq (n : ℕ) {rest : List UInt8} :
    ∀ {w : List UInt8}, (∀ c ∈ w, IsParamChar c) →
      parseParams n (w ++ 0 :: rest) = some (((sequenceParams w).take n).map paramBits) := by
  induction n with
  | zero =>
    intro w _
    cases w <;> rfl
  | succ n ih =>
    intro w hw
    cases w with
    | nil => rfl
    | cons c w =>
      have hc := (hw c List.mem_cons_self).ne_zero
      obtain ⟨p, ps, hps⟩ := List.exists_cons_of_ne_nil
        fun h => List.cons_ne_nil c w (sequenceParams_eq_nil.mp h)
      obtain ⟨w', hchars, hparams, hatoi⟩ := atoiUntilSemicolon_eq hw hps
      have hstep : parseParams (n + 1) (c :: (w ++ 0 :: rest)) =
          (parseParams n (w' ++ 0 :: rest)).map (paramBits p :: ·) := by
        rw [parseParams, if_neg hc, ← List.cons_append, hatoi]
        rfl
      rw [List.cons_append, hstep, ih hchars, hparams, hps, List.take_succ_cons, List.map_cons]
      rfl

theorem sequenceParams_digits {w : List UInt8} (hw : ∀ c ∈ w, IsParamChar c) :
    ∀ p ∈ sequenceParams w, ∀ c ∈ p, 48 ≤ c ∧ c ≤ 57 := by
  induction w with
  | nil => exact List.forall_mem_nil _
  | cons c w ih =>
    have ih := ih fun d hd => hw d (List.mem_cons_of_mem c hd)
    rw [sequenceParams]
    split
    · exact List.forall_mem_cons.mpr ⟨List.forall_mem_nil _, ih⟩
    · rename_i hsemi
      have hc := (hw c List.mem_cons_self).resolve_right hsemi
      split
      · exact List.forall_mem_singleton.mpr (List.forall_mem_singleton.mpr hc)
      · rename_i p ps hps
        rw [hps, List.forall_mem_cons] at ih
        exact List.forall_mem_cons.mpr ⟨List.forall_mem_cons.mpr ⟨hc, ih.1⟩, ih.2⟩

theorem paramBits_eq {p : List UInt8} (hp : ∀ c ∈ p, 48 ≤ c ∧ c ≤ 57) :
    paramBits p = BitVec.ofNat 32 (paramValue p) := by
  have hfold : ∀ (q : List UInt8) (n : ℕ), (∀ c ∈ q, 48 ≤ c ∧ c ≤ 57) →
      q.foldl (fun num c => num * 10 + (c.toBitVec.setWidth 32 - 48)) (BitVec.ofNat 32 n) =
        BitVec.ofNat 32 (q.foldl (fun num c => num * 10 + (c.toNat - 48)) n) := by
    intro q
    induction q with
    | nil => exact fun _ _ => rfl
    | cons c q ih =>
      intro n hq
      obtain ⟨hc, hq⟩ := List.forall_mem_cons.mp hq
      have hlow : 48 ≤ c.toNat := hc.1
      have hdigit : (c.toBitVec.setWidth 32 - 48 : BitVec 32) = BitVec.ofNat 32 (c.toNat - 48) := by
        apply BitVec.eq_of_toNat_eq
        have hlt := c.toNat_lt
        rw [BitVec.toNat_sub, BitVec.toNat_setWidth, BitVec.toNat_ofNat]
        show (2 ^ 32 - 48 + c.toNat % 2 ^ 32) % 2 ^ 32 = _
        omega
      rw [List.foldl_cons, List.foldl_cons, hdigit, ← ih _ hq, BitVec.ofNat_add, BitVec.ofNat_mul]
      rfl
  exact hfold p 0 hp

theorem paramValue_lt {p : List UInt8} (hp : ∀ c ∈ p, 48 ≤ c ∧ c ≤ 57) :
    paramValue p < 10 ^ p.length := by
  have hfold : ∀ (q : List UInt8) (n : ℕ), (∀ c ∈ q, 48 ≤ c ∧ c ≤ 57) →
      q.foldl (fun num c => num * 10 + (c.toNat - 48)) n < (n + 1) * 10 ^ q.length := by
    intro q
    induction q with
    | nil => exact fun n _ => Nat.lt_of_lt_of_eq (Nat.lt_succ_self n) (Nat.mul_one _).symm
    | cons c q ih =>
      intro n hq
      obtain ⟨hc, hq⟩ := List.forall_mem_cons.mp hq
      have hdigit : c.toNat - 48 < 10 := by
        have hhigh : c.toNat ≤ 57 := hc.2
        omega
      rw [List.foldl_cons, List.length_cons]
      calc q.foldl _ (n * 10 + (c.toNat - 48))
          < (n * 10 + (c.toNat - 48) + 1) * 10 ^ q.length := ih _ hq
        _ ≤ ((n + 1) * 10) * 10 ^ q.length := Nat.mul_le_mul_right _ (by omega)
        _ = (n + 1) * 10 ^ (q.length + 1) := by rw [Nat.pow_succ', Nat.mul_assoc]
  have hlt := hfold p 0 hp
  rwa [Nat.zero_add, Nat.one_mul] at hlt

/-- The colours that the code sets for a sequence: of its first five parameters, in 32 bits. -/
def codeColors (colors : Colors) (w : List UInt8) : Colors :=
  (((sequenceParams w).take 5).map paramBits).foldl (fun colors p => colors.set p.toNat) colors

/-- For a small sequence these are the colours that it sets. -/
theorem codeColors_eq {w : List UInt8} (hw : ∀ c ∈ w, IsParamChar c) (colors : Colors)
    (hsmall : (sequenceParams w).length ≤ 5 ∧ ∀ p ∈ sequenceParams w, p.length ≤ 9) :
    codeColors colors w = colors.setAll w := by
  rw [codeColors, Colors.setAll, List.take_of_length_le hsmall.1, List.foldl_map, List.foldl_map]
  apply List.foldl_ext
  intro colors p hp
  have hdigits := sequenceParams_digits hw p hp
  have hlt : paramValue p < 2 ^ 32 := by
    calc paramValue p < 10 ^ p.length := paramValue_lt hdigits
      _ ≤ 10 ^ 9 := Nat.pow_le_pow_right (by decide) (hsmall.2 p hp)
      _ < 2 ^ 32 := by decide
  rw [paramBits_eq hdigits, BitVec.toNat_ofNat, Nat.mod_eq_of_lt hlt]

theorem foldl_applyParam_colors (params : List (BitVec 32)) (cli : Cli) :
    (params.foldl applyParam cli).colors =
      params.foldl (fun colors p => colors.set p.toNat) cli.colors := by
  induction params generalizing cli with
  | nil => rfl
  | cons p params ih =>
    rw [List.foldl_cons, List.foldl_cons, ih, applyParam_colors]

/-! ## §4  Streams of pieces -/

section Streams

variable {panel : Bool} {font : ℕ → UInt8} {s t : AnsiDecoder} {colors : Colors}

theorem feed_cons {c : UInt8} {out : List Printed} (cs : List UInt8)
    (h : ansiDecoder panel font s c = some (out, t)) :
    feed panel font s (c :: cs) = (feed panel font t cs).map fun r => (out ++ r.1, r.2) := by
  simp only [feed, exec, h, Option.map_map]
  rfl

theorem feed_append_eq (s : AnsiDecoder) (cs ds : List UInt8) :
    feed panel font s (cs ++ ds) =
      (feed panel font s cs).bind fun r =>
        (feed panel font r.2 ds).map fun q => (r.1 ++ q.1, q.2) := by
  unfold feed
  rw [exec_append]
  cases exec (ansiDecoder panel font) s cs with
  | none => rfl
  | some r =>
    rw [Option.map_some, Option.bind_some, Option.bind_some, Option.map_map, Option.map_map]
    simp only [Function.comp_def, List.flatten_append]

theorem feed_append {cs : List UInt8} {out : List Printed} (ds : List UInt8)
    (h : feed panel font s cs = some (out, t)) :
    feed panel font s (cs ++ ds) = (feed panel font t ds).map fun r => (out ++ r.1, r.2) := by
  rw [feed_append_eq, h, Option.bind_some]

theorem feed_flatten (chunks : List (List UInt8)) (s : AnsiDecoder) :
    feed panel font s chunks.flatten =
      (exec (feed panel font) s chunks).map fun r => (r.1.flatten, r.2) := by
  induction chunks generalizing s with
  | nil => rfl
  | cons chunk chunks ih =>
    rw [List.flatten_cons, feed_append_eq, exec]
    cases feed panel font s chunk with
    | none => rfl
    | some r =>
      dsimp only
      rw [Option.bind_some, ih, Option.map_map, Option.map_map]
      rfl

/-- The colours that the next plain character is printed with. -/
def Shows (s : AnsiDecoder) (colors : Colors) : Prop :=
  (s.state = .ansiNormal ∧ s.cli.colors = colors) ∨
    (s.state = .ansiEndParsing ∧ ∃ t, ansiEndEscape s = some t ∧ t.cli.colors = colors)

/-- Between two pieces the decoder goes on as in the normal state. -/
theorem Shows.decoder (panel : Bool) (font : ℕ → UInt8) (h : Shows s colors) (c : UInt8) :
    ∃ t, t.cli.colors = colors ∧ ansiDecoder panel font s c = some (ansiNormal panel font t c) := by
  unfold ansiDecoder
  rcases h with ⟨hstate, hcolors⟩ | ⟨hstate, t, hend, hcolors⟩
  · rw [hstate]
    exact ⟨s, hcolors, rfl⟩
  · rw [hstate]
    refine ⟨t, hcolors, ?_⟩
    dsimp only
    rw [hend, Option.map_some]

theorem feed_plain (panel : Bool) (font : ℕ → UInt8) (h : Shows s colors) {c : UInt8}
    (hc : c ≠ 27) :
    ∃ t, feed panel font s [c] = some ([⟨c, colors⟩], t) ∧ Shows t colors := by
  obtain ⟨t, rfl, hstep⟩ := h.decoder panel font c
  rw [ansiNormal, if_neg hc] at hstep
  rw [feed_cons [] hstep]
  exact ⟨_, rfl, Or.inl ⟨rfl, uartPutc_colors panel font t.cli c⟩⟩

theorem signExtend_lt {len : BitVec 32} (h : len.toNat ≤ 15) :
    len.signExtend 64 < 15 ↔ len.toNat < 15 := by
  have hmsb : len.msb = false := BitVec.msb_eq_false_iff_two_mul_lt.mpr (by omega)
  rw [BitVec.signExtend_eq_setWidth_of_msb_false hmsb, BitVec.lt_def, BitVec.toNat_setWidth]
  show len.toNat % 2 ^ 64 < 15 ↔ _
  omega

/-- What is stored at the length stands behind what has been stored. -/
theorem storeParam_eq (h : s.paramLen.toNat ≤ 15) (c : UInt8) :
    ∃ t, storeParam s c = some t ∧ t.paramLen = s.paramLen ∧ t.cli = s.cli ∧ t.cmd = s.cmd ∧
      ∃ rest, t.params.toList = s.params.toList.take s.paramLen.toNat ++ c :: rest := by
  have hlt : s.paramLen.toNat < 16 := Nat.lt_succ_of_le h
  have hlen : s.paramLen.toNat < s.params.toList.length := by
    rw [Vector.length_toList]
    exact hlt
  rw [storeParam, dif_pos hlt]
  refine ⟨_, rfl, rfl, rfl, rfl, s.params.toList.drop (s.paramLen.toNat + 1), ?_⟩
  rw [Vector.toList_set, List.set_eq_take_append_cons_drop, if_pos hlen]

/-- The decoder is reading a sequence and has stored `w` of it. -/
structure Parses (s : AnsiDecoder) (w : List UInt8) : Prop where
  state : s.state = .ansiParsing
  length : s.paramLen.toNat = w.length
  params : s.params.toList.take s.paramLen.toNat = w

theorem ansiDecoder_parsing (h : s.state = .ansiParsing) (c : UInt8) :
    ansiDecoder panel font s c = (ansiParsing s c).map fun s => ([], s) := by
  unfold ansiDecoder
  rw [h]

theorem Parses.feed_one (panel : Bool) (font : ℕ → UInt8) {w : List UInt8} (h : Parses s w)
    {c : UInt8} (hc : IsParamChar c) (hroom : w.length < 15) :
    ∃ t, feed panel font s [c] = some ([], t) ∧ Parses t (w ++ [c]) ∧ t.cli = s.cli := by
  have hlen := h.length
  have hm : c ≠ 109 := by
    rintro rfl
    exact absurd hc (by unfold IsParamChar; decide)
  obtain ⟨t, hstore, hlen', hcli, -, rest, hrest⟩ := storeParam_eq (s := s) (by omega) c
  have hstep : ansiDecoder panel font s c =
      some ([], { t with state := .ansiParsing, paramLen := t.paramLen + 1 }) := by
    rw [ansiDecoder_parsing h.state, ansiParsing, if_neg hm,
      if_pos ⟨hc, (signExtend_lt (by omega)).mpr (by omega)⟩, hstore]
    rfl
  have hsucc : (t.paramLen + 1).toNat = w.length + 1 := by
    rw [hlen', BitVec.toNat_add]
    show (s.paramLen.toNat + 1) % 2 ^ 32 = _
    omega
  rw [feed_cons [] hstep]
  refine ⟨_, rfl, ⟨rfl, ?_, ?_⟩, hcli⟩
  · rw [List.length_append]
    exact hsucc
  · show t.params.toList.take (t.paramLen + 1).toNat = w ++ [c]
    rw [hsucc, hrest, h.params, List.take_length_add_append]
    rfl

theorem Parses.feed_params (panel : Bool) (font : ℕ → UInt8) {v : List UInt8}
    (hv : ∀ c ∈ v, IsParamChar c) :
    ∀ {s : AnsiDecoder} {w : List UInt8}, Parses s w → w.length + v.length ≤ 15 →
      ∃ t, feed panel font s v = some ([], t) ∧ Parses t (w ++ v) ∧ t.cli = s.cli := by
  induction v with
  | nil =>
    intro s w h _
    rw [List.append_nil]
    exact ⟨s, rfl, h, rfl⟩
  | cons c v ih =>
    intro s w h hroom
    obtain ⟨hc, hv⟩ := List.forall_mem_cons.mp hv
    rw [List.length_cons] at hroom
    obtain ⟨t, hfeed, ht, hcli⟩ := h.feed_one panel font hc (by omega)
    have hroom' : (w ++ [c]).length + v.length ≤ 15 := by
      rw [List.length_append, List.length_singleton]
      omega
    obtain ⟨u, hfeed', hu, hcli'⟩ := ih hv ht hroom'
    rw [← List.singleton_append, feed_append v hfeed, hfeed', ← List.append_assoc]
    exact ⟨u, rfl, hu, hcli'.trans hcli⟩

/-- The end of a sequence terminates the parameters, and what comes next sets the colours. -/
theorem Parses.feed_end (panel : Bool) (font : ℕ → UInt8) {w : List UInt8} (h : Parses s w)
    (hw : ∀ c ∈ w, IsParamChar c) (hroom : w.length ≤ 15) :
    ∃ t, feed panel font s [109] = some ([], t) ∧ Shows t (codeColors s.cli.colors w) := by
  have hlen := h.length
  obtain ⟨t, hstore, -, hcli, hcmd, rest, hrest⟩ :=
    storeParam_eq (s := { s with cmd := 109 }) (by show s.paramLen.toNat ≤ 15; omega) 0
  have hstep : ansiDecoder panel font s 109 = some ([], { t with state := .ansiEndParsing }) := by
    rw [ansiDecoder_parsing h.state, ansiParsing, if_pos rfl, hstore]
    rfl
  rw [feed_cons [] hstep]
  refine ⟨_, rfl, Or.inr ⟨rfl, ?_⟩⟩
  have hparams :
      parseParams 5 t.params.toList = some (((sequenceParams w).take 5).map paramBits) := by
    have htake : ({ s with cmd := 109 } : AnsiDecoder).params.toList.take s.paramLen.toNat = w :=
      h.params
    rw [hrest, htake, parseParams_eq 5 hw]
  unfold ansiEndEscape
  dsimp only
  rw [hparams, hcmd, Option.map_some]
  refine ⟨_, rfl, ?_⟩
  dsimp only
  rw [if_pos rfl, foldl_applyParam_colors, hcli]
  rfl

theorem feed_sequence (panel : Bool) (font : ℕ → UInt8) (h : Shows s colors) {w : List UInt8}
    (hw : ∀ c ∈ w, IsParamChar c) (hroom : w.length ≤ 15) :
    ∃ t, feed panel font s (27 :: 91 :: (w ++ [109])) = some ([], t) ∧
      Shows t (codeColors colors w) := by
  obtain ⟨t, rfl, hstep⟩ := h.decoder panel font 27
  have hstep' : ansiDecoder panel font { t with state := .ansiEscape } 91 =
      some ([], { t with state := .ansiParsing, paramLen := 0 }) := rfl
  have hparses : Parses { t with state := .ansiParsing, paramLen := 0 } [] := ⟨rfl, rfl, rfl⟩
  obtain ⟨u, hfeed, hu, hcli⟩ := hparses.feed_params panel font hw (by simpa using hroom)
  obtain ⟨v, hend, hv⟩ := hu.feed_end panel font hw hroom
  rw [feed_cons _ hstep]
  show ∃ t', (feed panel font { t with state := .ansiEscape } _).map _ = _ ∧ _
  rw [feed_cons _ hstep', feed_append [109] hfeed, hend]
  rw [hcli] at hv
  exact ⟨v, rfl, hv⟩

/-- A stream of pieces prints its plain characters, with the colours that the code sets for the
sequences in front of them. -/
theorem feed_items (panel : Bool) (font : ℕ → UInt8) (items : List AnsiItem) :
    ∀ {s : AnsiDecoder} {colors : Colors}, Shows s colors →
      ∃ t, feed panel font s (items.flatMap AnsiItem.chars) =
        some (render codeColors colors items, t) := by
  induction items with
  | nil => exact fun _ => ⟨_, rfl⟩
  | cons item items ih =>
    intro s colors h
    rw [List.flatMap_cons]
    cases item with
    | plain c =>
      obtain ⟨t, hfeed, ht⟩ := feed_plain panel font h c.2
      obtain ⟨u, hrest⟩ := ih ht
      refine ⟨u, ?_⟩
      rw [AnsiItem.chars, feed_append _ hfeed, hrest]
      rfl
    | sequence w =>
      obtain ⟨t, hfeed, ht⟩ := feed_sequence panel font h w.2.2 w.2.1
      obtain ⟨u, hrest⟩ := ih ht
      refine ⟨u, ?_⟩
      rw [AnsiItem.chars, feed_append _ hfeed, hrest]
      rfl

end Streams

theorem render_map_char (set : Colors → List UInt8 → Colors) (items : List AnsiItem) :
    ∀ colors, (render set colors items).map Printed.char = plainChars items := by
  induction items with
  | nil => exact fun _ => rfl
  | cons item items ih =>
    intro colors
    cases item with
    | plain c => exact congrArg (c.1 :: ·) (ih colors)
    | sequence w => exact ih _

/-- What is printed up to a piece does not depend on what comes behind it. -/
theorem render_prefix (set : Colors → List UInt8 → Colors) (before after : List AnsiItem) :
    ∀ colors, render set colors before <+: render set colors (before ++ after) := by
  induction before with
  | nil => exact fun _ => List.nil_prefix
  | cons item before ih =>
    intro colors
    cases item with
    | plain c => exact List.cons_prefix_cons.mpr ⟨rfl, ih colors⟩
    | sequence w => exact ih _

/-- With small sequences only, the code sets the colours that the sequences set. -/
theorem render_codeColors {items : List AnsiItem} (hsmall : ∀ item ∈ items, item.Small) :
    ∀ colors, render codeColors colors items = render Colors.setAll colors items := by
  induction items with
  | nil => exact fun _ => rfl
  | cons item items ih =>
    intro colors
    obtain ⟨hitem, hrest⟩ := List.forall_mem_cons.mp hsmall
    cases item with
    | plain c => exact congrArg (⟨c.1, colors⟩ :: ·) (ih hrest colors)
    | sequence w =>
      show render codeColors (codeColors colors w.1) items = _
      rw [codeColors_eq w.2.2 colors hitem]
      exact ih hrest _

/-! ## §5  Every stream -/

/-- The length is inside the array, and behind a sequence the parameters are terminated. -/
structure AnsiDecoder.Bounded (s : AnsiDecoder) : Prop where
  length : s.paramLen.toNat ≤ 15
  terminated : s.state = .ansiEndParsing → 0 ∈ s.params.toList

/-- In front of a zero byte the parameters are read inside the array. -/
theorem atoiUntilSemicolon_returns {l : List UInt8} (h : 0 ∈ l) :
    ∀ num, ∃ r, atoiUntilSemicolon l num = some r ∧ 0 ∈ r.2 := by
  induction l with
  | nil => exact absurd h List.not_mem_nil
  | cons c l ih =>
    intro num
    rw [atoiUntilSemicolon]
    by_cases hzero : c = 0
    · rw [if_pos hzero]
      exact ⟨_, rfl, h⟩
    · have hrest : 0 ∈ l := (List.mem_cons.mp h).resolve_left fun h => hzero h.symm
      rw [if_neg hzero]
      split
      · exact ⟨_, rfl, hrest⟩
      · exact ih hrest _

theorem parseParams_returns (n : ℕ) :
    ∀ {l : List UInt8}, 0 ∈ l → ∃ params, parseParams n l = some params := by
  induction n with
  | zero =>
    intro l h
    cases l with
    | nil => exact absurd h List.not_mem_nil
    | cons c l => exact ⟨[], rfl⟩
  | succ n ih =>
    intro l h
    cases l with
    | nil => exact absurd h List.not_mem_nil
    | cons c l =>
      rw [parseParams]
      split
      · exact ⟨[], rfl⟩
      · obtain ⟨⟨num, p⟩, hatoi, hzero⟩ := atoiUntilSemicolon_returns h 0
        obtain ⟨params, hparams⟩ := ih hzero
        rw [hatoi]
        dsimp only
        rw [hparams]
        exact ⟨_, rfl⟩

section Bounded

variable {panel : Bool} {font : ℕ → UInt8} {s : AnsiDecoder}

theorem ansiNormal_bounded (hlen : s.paramLen.toNat ≤ 15) (c : UInt8) :
    (ansiNormal panel font s c).2.Bounded := by
  unfold ansiNormal
  split
  · exact ⟨hlen, nofun⟩
  · exact ⟨hlen, nofun⟩

theorem ansiParsing_bounded (hlen : s.paramLen.toNat ≤ 15) (c : UInt8) :
    ∃ t, ansiParsing s c = some t ∧ t.Bounded := by
  unfold ansiParsing
  split
  · obtain ⟨t, hstore, hlen', -, -, rest, hrest⟩ :=
      storeParam_eq (s := { s with cmd := 109 }) hlen 0
    rw [hstore]
    refine ⟨_, rfl, ?_, fun _ => ?_⟩
    · show t.paramLen.toNat ≤ 15
      rw [hlen']
      exact hlen
    · show 0 ∈ t.params.toList
      rw [hrest]
      exact List.mem_append_right _ List.mem_cons_self
  split
  · rename_i hroom
    obtain ⟨t, hstore, hlen', -⟩ := storeParam_eq hlen c
    have hlt := (signExtend_lt hlen).mp hroom.2
    rw [hstore]
    refine ⟨_, rfl, ?_, nofun⟩
    show (t.paramLen + 1).toNat ≤ 15
    rw [hlen', BitVec.toNat_add]
    show (s.paramLen.toNat + 1) % 2 ^ 32 ≤ 15
    omega
  · exact ⟨_, rfl, Nat.zero_le 15, nofun⟩

/-- Every character leaves the length inside the array and is decoded inside it. -/
theorem ansiDecoder_bounded (h : s.Bounded) (c : UInt8) :
    ∃ out t, ansiDecoder panel font s c = some (out, t) ∧ t.Bounded := by
  unfold ansiDecoder
  split
  · refine ⟨_, _, rfl, ?_⟩
    unfold ansiEscape
    split
    · exact ⟨Nat.zero_le 15, nofun⟩
    · exact ⟨h.length, nofun⟩
  · obtain ⟨t, hstep, ht⟩ := ansiParsing_bounded h.length c
    rw [hstep]
    exact ⟨_, _, rfl, ht⟩
  · rename_i hend
    obtain ⟨params, hparams⟩ := parseParams_returns 5 (h.terminated hend)
    rw [ansiEndEscape, hparams, Option.map_some, Option.map_some]
    refine ⟨_, _, rfl, ?_⟩
    apply ansiNormal_bounded
    exact h.length
  · exact ⟨_, _, rfl, ansiNormal_bounded h.length c⟩

theorem feed_bounded (panel : Bool) (font : ℕ → UInt8) (h : s.Bounded) (cs : List UInt8) :
    ∃ printed t, feed panel font s cs = some (printed, t) ∧ t.Bounded := by
  obtain ⟨outs, t, hexec, ht⟩ := exec_inv
    (fun s c hs (_ : True) => ansiDecoder_bounded hs c) cs s h fun _ _ => trivial
  refine ⟨outs.flatten, t, ?_, ht⟩
  rw [feed, hexec]
  rfl

end Bounded

theorem ansiStart_bounded (cli : Cli) : (ansiStart cli).Bounded :=
  ⟨Nat.zero_le 15, nofun⟩

/-- In every chunking of a stream of pieces the decoder passes on the plain characters, and up to
the first sequence that is not small with the colours of the sequences in front of them. In every
stream the length of the parameters is from 0 to 15, and they are terminated when they are
parsed. -/
theorem ansi_filter (panel : Bool) (font : ℕ → UInt8) :
    (∀ (s : AnsiDecoder) (items : List AnsiItem) (chunks : List (List UInt8)),
      s.state = .ansiNormal → chunks.flatten = items.flatMap AnsiItem.chars →
      ∃ printed t, exec (feed panel font) s chunks = some (printed, t) ∧
        printed.flatten.map Printed.char = plainChars items ∧
        ∀ before after, items = before ++ after → (∀ item ∈ before, item.Small) →
          render Colors.setAll s.cli.colors before <+: printed.flatten) ∧
    (∀ (cli : Cli) (cs : List UInt8),
      ∃ printed t, feed panel font (ansiStart cli) cs = some (printed, t) ∧
        0 ≤ t.paramLen.toInt ∧ t.paramLen.toInt ≤ 15 ∧
        (t.state = .ansiEndParsing → 0 ∈ t.params.toList)) := by
  constructor
  · intro s items chunks hstate hchunks
    obtain ⟨t, hfeed⟩ := feed_items panel font items (Or.inl ⟨hstate, rfl⟩)
    rw [← hchunks, feed_flatten] at hfeed
    obtain ⟨⟨printed, t'⟩, hexec, heq⟩ := Option.map_eq_some_iff.mp hfeed
    obtain ⟨hprinted, rfl⟩ := Prod.mk.inj heq
    refine ⟨printed, t', hexec, ?_, ?_⟩
    · rw [hprinted]
      exact render_map_char codeColors items _
    · rintro before after rfl hsmall
      rw [hprinted, ← render_codeColors hsmall]
      exact render_prefix codeColors before after _
  · intro cli cs
    obtain ⟨printed, t, hfeed, ht⟩ := feed_bounded panel font (ansiStart_bounded cli) cs
    have hint : t.paramLen.toInt = t.paramLen.toNat := by
      apply BitVec.toInt_eq_toNat_of_msb
      apply BitVec.msb_eq_false_iff_two_mul_lt.mpr
      have hlen := ht.length
      omega
    refine ⟨printed, t, hfeed, ?_, ?_, ht.terminated⟩
    · rw [hint]
      exact Int.natCast_nonneg _
    · rw [hint]
      exact Int.ofNat_le.mpr ht.length

/-- A sequence between two letters. -/
example :
    (feed false (fun _ => 0) (ansiStart (cliStart fun _ => 0)) [97, 27, 91, 51, 49, 109, 98]).map
      Prod.fst = some [⟨97, ⟨0xFFFFFFFF, 0xFF000000⟩⟩, ⟨98, ⟨0xFFFF0000, 0xFF000000⟩⟩] := rfl

end Rpos
