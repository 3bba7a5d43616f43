import Rpos.Io.Kprintf

/-!
# The language of formats

A format is a list of pieces, each with the text that it stands for. `kprintf` passes the texts
on one after the other, each conversion with its own argument.
-/

namespace Rpos

open Base

/-! ## §1  Pieces -/

/-- The conversions of `expand` that are one character long and take an argument. -/
inductive Conversion
  | int
  | string
  | char
  | long
  | hex

def Conversion.code : Conversion → UInt8
  | .int => 100
  | .string => 115
  | .char => 99
  | .long => 108
  | .hex => 120

/-- A piece of a format: a character, `%%`, `%` with a conversion, or `%0` with a width and
`d`. -/
inductive FormatItem
  | plain (c : { c : UInt8 // c ≠ 37 })
  | percent
  | conversion (v : Conversion)
  | padded (width : { ds : List UInt8 // ∀ c ∈ ds, 48 ≤ c ∧ c ≤ 57 })

namespace FormatItem

def chars : FormatItem → List UInt8
  | .plain c => [c.1]
  | .percent => [37, 37]
  | .conversion v => [37, v.code]
  | .padded width => 37 :: 48 :: (width.1 ++ [100])

def takes : FormatItem → ℕ
  | .plain _ => 0
  | .percent => 0
  | .conversion _ => 1
  | .padded _ => 1

end FormatItem

def widthValue (ds : List UInt8) : ℕ := ds.foldl (fun n c => n * 10 + (c.toNat - 48)) 0

def Conversion.Printable (m : ByteMem) (arg : Word) : Conversion → Prop
  | .int => arg.setWidth 32 ≠ BitVec.intMin 32
  | .string => ∃ t, StringAt m arg t
  | .char => True
  | .long => arg.setWidth 32 ≠ BitVec.intMin 32
  | .hex => True

def Conversion.Prints (m : ByteMem) (arg : Word) : Conversion → List UInt8 → Prop
  | .int, cs => DecimalForm (arg.setWidth 32).toInt cs
  | .string, cs => StringAt m arg cs
  | .char, cs => cs = [UInt8.ofNat arg.toNat]
  | .long, cs => DecimalForm (arg.setWidth 32).toInt cs
  | .hex, cs => HexForm arg.toNat cs

/-- The piece has a text for the argument. A padded number is at most 24 characters long. -/
def FormatItem.Printable (m : ByteMem) (arg : Word) : FormatItem → Prop
  | .plain _ => True
  | .percent => True
  | .conversion v => v.Printable m arg
  | .padded width => widthValue width.1 ≤ 24

def FormatItem.Prints (m : ByteMem) (arg : Word) : FormatItem → List UInt8 → Prop
  | .plain c, cs => cs = [c.1]
  | .percent, cs => cs = [37]
  | .conversion v, cs => v.Prints m arg cs
  | .padded width, cs => PaddedForm arg.toNat (widthValue width.1) cs

/-- All pieces have a text for their arguments, from argument `k` on. -/
def FormatPrintable (m : ByteMem) (args : ℕ → Word) : ℕ → List FormatItem → Prop
  | _, [] => True
  | k, item :: items =>
      item.Printable m (args k) ∧ FormatPrintable m args (k + item.takes) items

inductive FormatPrints (m : ByteMem) (args : ℕ → Word) : ℕ → List FormatItem → List UInt8 → Prop
  | nil (k : ℕ) : FormatPrints m args k [] []
  | cons {k : ℕ} {item : FormatItem} {items : List FormatItem} {text cs : List UInt8} :
      item.Prints m (args k) text → FormatPrints m args (k + item.takes) items cs →
      FormatPrints m args k (item :: items) (text ++ cs)

/-! ## §2  Conversions -/

section Conversions

variable {m : ByteMem} {args : ℕ → Word} {fuel k : ℕ}

theorem decoded_emitString {a : Word} {t : List UInt8} (h : StringAt m a t) (fuel : ℕ) :
    ∀ {i : ℕ} {es : List KprintfEvent}, i ≤ t.length →
      emitString m fuel (a + BitVec.ofNat 64 i) = some es → decoded es = t.drop i := by
  induction fuel with
  | zero => exact fun _ hrun => absurd hrun.symm (Option.some_ne_none _)
  | succ fuel ih =>
    intro i es hi hrun
    rw [emitString, h.load hi] at hrun
    split_ifs at hrun with hzero
    · obtain rfl := Option.some.inj hrun
      have hend : t.length ≤ i := by
        by_contra hlt
        exact h.string.getD_ne_zero (Nat.lt_of_not_le hlt) hzero
      rw [List.drop_eq_nil_of_le hend]
      rfl
    · have hlt : i < t.length := lt_of_getD_ne hzero
      rw [add_ofNat_succ] at hrun
      obtain ⟨rest, hrest, rfl⟩ := Option.map_eq_some_iff.mp hrun
      rw [List.drop_eq_getElem_cons hlt, ← ih hlt hrest, List.getD_eq_getElem t 0 hlt]
      rfl

theorem convert_prints {v : Conversion} {r : List KprintfEvent × ℕ}
    (hok : v.Printable m (args k)) (hrun : convert m args fuel v.code k = some r) :
    v.Prints m (args k) (decoded r.1) := by
  cases v with
  | int =>
    obtain rfl := Option.some.inj hrun
    exact (parseAndEmitInt_iff _).mpr hok
  | string =>
    obtain ⟨t, ht⟩ := hok
    obtain ⟨es, hes, rfl⟩ := Option.map_eq_some_iff.mp
      (show (emitString m fuel (args k)).map _ = some r from hrun)
    rw [← BitVec.add_zero (args k)] at hes
    have htext := decoded_emitString ht fuel (Nat.zero_le _) hes
    show StringAt m (args k) (decoded es)
    rw [htext]
    exact ht
  | char =>
    obtain rfl := Option.some.inj hrun
    rfl
  | long =>
    obtain rfl := Option.some.inj hrun
    exact (parseAndEmitInt_iff _).mpr hok
  | hex =>
    obtain rfl := Option.some.inj hrun
    exact parseAndEmitHex_form _

theorem convert_percent : convert m args fuel 37 k = some ([.decode 37], k) := rfl

/-- The width of a conversion is not changed by the arithmetic in 32 bits. -/
theorem widthFrom_eq {ds : List UInt8} (hds : ∀ c ∈ ds, 48 ≤ c ∧ c ≤ 57) :
    widthFrom 0 ds = BitVec.ofNat 32 (widthValue ds) := by
  have hfold : ∀ (ds : List UInt8) (n : ℕ), (∀ c ∈ ds, 48 ≤ c ∧ c ≤ 57) →
      ds.foldl (fun width c => width * 10 + (c - 48).toBitVec.setWidth 32) (BitVec.ofNat 32 n) =
        BitVec.ofNat 32 (ds.foldl (fun n c => n * 10 + (c.toNat - 48)) n) := by
    intro ds
    induction ds with
    | nil => exact fun _ _ => rfl
    | cons c ds ih =>
      intro n hds
      obtain ⟨hc, hrest⟩ := List.forall_mem_cons.mp hds
      have hdigit : (c - 48).toBitVec.setWidth 32 = BitVec.ofNat 32 (c.toNat - 48) := by
        apply BitVec.eq_of_toNat_eq
        rw [BitVec.toNat_setWidth, BitVec.toNat_ofNat, UInt8.toNat_toBitVec,
          UInt8.toNat_sub_of_le _ _ hc.1]
        rfl
      rw [List.foldl_cons, List.foldl_cons, hdigit, ← ih _ hrest, BitVec.ofNat_add,
        BitVec.ofNat_mul]
      rfl
  exact hfold ds 0 hds

end Conversions

/-! ## §3  Pieces of a format -/

section Pieces

variable {m : ByteMem} {args : ℕ → Word} {fmt : Word} {s rest : List UInt8} {i k fuel : ℕ}
  {item : FormatItem}

theorem getD_drop {cs : List UInt8} (hs : s.drop i = cs) (j : ℕ) :
    s.getD (i + j) 0 = cs.getD j 0 := by
  rw [← hs, List.getD_eq_getElem?_getD, List.getD_eq_getElem?_getD, List.getElem?_drop]

theorem widthDigits_item {width : List UInt8} (hds : ∀ c ∈ width, 48 ≤ c ∧ c ≤ 57)
    (hs : s.drop i = width ++ 100 :: rest) : widthDigits s i = width := by
  rw [widthDigits, hs, List.takeWhile_append_of_pos (by simpa using hds), List.takeWhile_cons,
    if_neg (by decide), List.append_nil]

theorem decoded_formats {α : Type*} (l : List α) (f : α → Word) :
    decoded (l.map fun t => .format (f t)) = [] := by
  rw [decoded, List.filterMap_map]
  exact List.filterMap_eq_nil_iff.mpr fun _ _ => rfl

theorem decoded_reads {reads : List KprintfEvent}
    (h : conversionReads fuel fmt s i = some reads) : decoded reads = [] := by
  unfold conversionReads at h
  split_ifs at h
  · obtain rfl := Option.some.inj h
    exact decoded_formats (List.range _) _
  · obtain rfl := Option.some.inj h
    rfl

theorem conversionEvents_short (hnot : ¬ PaddedAt s i) {es : List KprintfEvent}
    (hrun : conversionEvents m args fuel fmt s i k = some es) :
    ∃ r, convert m args fuel (s.getD i 0) k = some r ∧ decoded es = decoded r.1 := by
  obtain ⟨reads, hreads, hrun⟩ := Option.bind_eq_some_iff.mp hrun
  rw [if_neg hnot] at hrun
  obtain ⟨r, hr, rfl⟩ := Option.map_eq_some_iff.mp hrun
  exact ⟨r, hr, by rw [decoded_append, decoded_reads hreads, List.nil_append]⟩

theorem paddedAt_item {width : { ds : List UInt8 // ∀ c ∈ ds, 48 ≤ c ∧ c ≤ 57 }}
    (hs : s.drop i = (FormatItem.padded width).chars ++ rest) :
    PaddedAt s (i + 1) ∧ widthDigits s (i + 1 + 1) = width.1 := by
  have hat := getD_drop hs
  have hdrop : s.drop (i + 1 + 1) = width.1 ++ 100 :: rest := by
    have hskip := congrArg (List.drop 2) hs
    rw [List.drop_drop] at hskip
    show s.drop (i + 2) = _
    rw [hskip, FormatItem.chars, List.cons_append, List.cons_append, List.append_assoc]
    rfl
  have hwidth := widthDigits_item width.2 hdrop
  refine ⟨⟨hat 1, ?_⟩, hwidth⟩
  have hd := getD_drop hdrop width.1.length
  rw [List.getD_append_right _ _ _ _ le_rfl, Nat.sub_self] at hd
  rw [hwidth]
  exact hd

theorem not_paddedAt {c : UInt8} (hc : s.getD i 0 = c) (hne : c ≠ 48) : ¬ PaddedAt s i :=
  fun h => hne (hc.symm.trans h.1)

theorem Conversion.code_ne (v : Conversion) : v.code ≠ 48 := by cases v <;> decide

theorem pieceEvents_prints (hs : s.drop i = item.chars ++ rest) (hok : item.Printable m (args k))
    {es : List KprintfEvent} (hrun : pieceEvents m args fuel fmt s i k = some es) :
    item.Prints m (args k) (decoded es) := by
  have hat := getD_drop hs
  have hfirst := hat 0
  rw [Nat.add_zero] at hfirst
  unfold pieceEvents at hrun
  cases item with
  | plain c =>
    have hc : s.getD i 0 = c.1 := hfirst
    rw [hc, if_neg c.2] at hrun
    obtain rfl := Option.some.inj hrun
    rfl
  | percent =>
    have hc : s.getD (i + 1) 0 = 37 := hat 1
    have hnot := not_paddedAt hc (by decide)
    rw [if_pos (show s.getD i 0 = 37 from hfirst)] at hrun
    obtain ⟨r, hr, hdecoded⟩ := conversionEvents_short hnot hrun
    rw [hc, convert_percent] at hr
    obtain rfl := Option.some.inj hr
    exact hdecoded
  | conversion v =>
    have hc : s.getD (i + 1) 0 = v.code := hat 1
    have hnot := not_paddedAt hc v.code_ne
    rw [if_pos (show s.getD i 0 = 37 from hfirst)] at hrun
    obtain ⟨r, hr, hdecoded⟩ := conversionEvents_short hnot hrun
    rw [hc] at hr
    show v.Prints m (args k) (decoded es)
    rw [hdecoded]
    exact convert_prints hok hr
  | padded width =>
    obtain ⟨hpad, hwidth⟩ := paddedAt_item hs
    rw [if_pos (show s.getD i 0 = 37 from hfirst)] at hrun
    obtain ⟨reads, hreads, hrun⟩ := Option.bind_eq_some_iff.mp hrun
    rw [if_pos hpad, hwidth, widthFrom_eq width.2] at hrun
    obtain rfl := Option.some.inj hrun
    have hvalue : (BitVec.ofNat 32 (widthValue width.1)).toInt = widthValue width.1 := by
      have hle : widthValue width.1 ≤ 24 := hok
      have hnat : (BitVec.ofNat 32 (widthValue width.1)).toNat = widthValue width.1 := by
        rw [BitVec.toNat_ofNat]
        omega
      rw [BitVec.toInt_eq_toNat_of_lt (by omega), hnat]
    have hform := parseAndEmitPadded_form (args k) (BitVec.ofNat 32 (widthValue width.1))
    rw [hvalue] at hform
    rw [decoded_append, decoded_reads hreads, List.nil_append]
    exact hform

theorem cursor_add {n : ℕ} (hi : i < 2 ^ 63) (hn : n < 2 ^ 31) :
    (BitVec.ofNat 64 i + (BitVec.ofNat 32 n).signExtend 64).toNat = i + n := by
  have hmsb : (BitVec.ofNat 32 n).msb = false := by
    apply BitVec.msb_eq_false_iff_two_mul_lt.mpr
    rw [BitVec.toNat_ofNat]
    omega
  rw [BitVec.signExtend_eq_setWidth_of_msb_false hmsb, BitVec.toNat_add, BitVec.toNat_setWidth,
    BitVec.toNat_ofNat, BitVec.toNat_ofNat]
  omega

/-- The cursor goes on behind a piece, and the argument list behind its argument. -/
theorem cursorNext_item (hs : s.drop i = item.chars ++ rest) (hi : i < 2 ^ 31)
    (hlen : item.chars.length < 2 ^ 31) :
    cursorNext s i = i + item.chars.length ∧ argsTaken s i = item.takes := by
  have hat := getD_drop hs
  have hfirst := hat 0
  rw [Nat.add_zero] at hfirst
  have hone := cursor_add (n := 1) (show i + 1 < 2 ^ 63 by omega) (by decide)
  unfold cursorNext argsTaken
  cases item with
  | plain c =>
    have hc : s.getD i 0 = c.1 := hfirst
    rw [hc, if_neg c.2, if_neg c.2]
    exact ⟨rfl, rfl⟩
  | percent =>
    have hc : s.getD (i + 1) 0 = 37 := hat 1
    have hnot := not_paddedAt hc (by decide)
    rw [if_pos (show s.getD i 0 = 37 from hfirst), if_pos (show s.getD i 0 = 37 from hfirst),
      conversionLength, conversionArgs, if_neg hnot, hc]
    refine ⟨hone, if_neg ?_⟩
    rintro (hpad | hmem)
    · exact hnot hpad
    · exact absurd hmem (by decide)
  | conversion v =>
    have hc : s.getD (i + 1) 0 = v.code := hat 1
    have hnot := not_paddedAt hc v.code_ne
    rw [if_pos (show s.getD i 0 = 37 from hfirst), if_pos (show s.getD i 0 = 37 from hfirst),
      conversionLength, conversionArgs, if_neg hnot, hc]
    refine ⟨hone, if_pos (Or.inr ?_)⟩
    cases v <;> decide
  | padded width =>
    obtain ⟨hpad, hwidth⟩ := paddedAt_item hs
    have hchars : (FormatItem.padded width).chars.length = width.1.length + 3 := by
      rw [FormatItem.chars, List.length_cons, List.length_cons, List.length_append]
      rfl
    rw [hchars] at hlen ⊢
    rw [if_pos (show s.getD i 0 = 37 from hfirst), if_pos (show s.getD i 0 = 37 from hfirst),
      conversionLength, conversionArgs, if_pos hpad, if_pos (Or.inl hpad), hwidth]
    refine ⟨?_, rfl⟩
    have hsum := cursor_add (n := 1 + width.1.length + 1) (show i + 1 < 2 ^ 63 by omega) (by omega)
    rw [show BitVec.ofNat 32 (1 + width.1.length + 1) = BitVec.ofNat 32 (1 + width.1.length) + 1
      from BitVec.ofNat_add _ 1] at hsum
    exact hsum.trans (by omega)

theorem printable_string (hs : s.drop i = item.chars ++ rest) (hok : item.Printable m (args k))
    (hpercent : s.getD i 0 = 37) (hstring : s.getD (i + 1) 0 = 115) :
    ∃ t, StringAt m (args k) t := by
  have hat := getD_drop hs
  have hfirst := hat 0
  rw [Nat.add_zero, hpercent] at hfirst
  have hsecond := (hat 1).symm.trans hstring
  cases item with
  | plain c => exact absurd hfirst.symm c.2
  | percent => exact absurd (show (37 : UInt8) = 115 from hsecond) (by decide)
  | conversion v =>
    have hcode : v.code = 115 := hsecond
    cases v with
    | string => exact hok
    | int => exact absurd hcode (by decide)
    | char => exact absurd hcode (by decide)
    | long => exact absurd hcode (by decide)
    | hex => exact absurd hcode (by decide)
  | padded width => exact absurd (show (48 : UInt8) = 115 from hsecond) (by decide)

/-! ## §4  Formats -/

theorem kprintfLoop_prints (hfmt : StringAt m fmt s) (hlen : s.length < 2 ^ 31)
    (items : List FormatItem) :
    ∀ {i k : ℕ}, s.drop i = items.flatMap FormatItem.chars → i ≤ s.length →
      FormatPrintable m args k items →
      ∃ bound, ∀ fuel, bound ≤ fuel →
        ∃ es, kprintfLoop m args fuel (fmt + BitVec.ofNat 64 i) k = some es ∧
          FormatPrints m args k items (decoded es) := by
  induction items with
  | nil =>
    intro i k hs hi _
    obtain rfl : i = s.length := Nat.le_antisymm hi (List.drop_eq_nil_iff.mp hs)
    refine ⟨1, fun fuel hfuel => ?_⟩
    obtain ⟨fuel, rfl⟩ := Nat.exists_eq_add_of_le' hfuel
    rw [kprintfLoop_end hfmt]
    exact ⟨_, rfl, .nil k⟩
  | cons item items ih =>
    rintro i k hs hi ⟨hitem, hitems⟩
    rw [List.flatMap_cons] at hs
    have hlength := congrArg List.length hs
    rw [List.length_drop, List.length_append] at hlength
    have hpos : 0 < item.chars.length := by cases item <;> exact Nat.succ_pos _
    obtain ⟨hnext, htaken⟩ := cursorNext_item hs (by omega) (by omega)
    have hrest : s.drop (i + item.chars.length) = items.flatMap FormatItem.chars := by
      rw [← List.drop_drop, hs, List.drop_left]
    obtain ⟨bound, hbound⟩ := pieceEvents_returns fmt fun hpercent hstring =>
      printable_string hs hitem hpercent hstring
    obtain ⟨bound', hbound'⟩ := ih hrest (by omega) hitems
    refine ⟨max bound bound' + 1, fun fuel hfuel => ?_⟩
    obtain ⟨fuel, rfl⟩ : ∃ f, fuel = f + 1 := Nat.exists_eq_succ_of_ne_zero (by omega)
    have hmax := Nat.le_of_succ_le_succ hfuel
    obtain ⟨piece, hpiece⟩ := hbound fuel (le_of_max_le_left hmax)
    obtain ⟨es, hes, hprints⟩ := hbound' fuel (le_of_max_le_right hmax)
    rw [kprintfLoop_eq hfmt (by omega), hpiece, Option.bind_some, hnext, htaken, hes]
    refine ⟨_, rfl, ?_⟩
    have htext := pieceEvents_prints hs hitem hpiece
    have hdecoded : decoded (.format (fmt + BitVec.ofNat 64 i) :: piece ++ es) =
        decoded piece ++ decoded es := decoded_append (.format _ :: piece) es
    rw [hdecoded]
    exact .cons htext hprints

/-- `kprintf` of a format that is put together of pieces with texts returns and passes on the
text of the format. -/
theorem kprintf_prints (items : List FormatItem)
    (hfmt : StringAt m fmt (items.flatMap FormatItem.chars))
    (hlen : (items.flatMap FormatItem.chars).length < 2 ^ 31)
    (hok : FormatPrintable m args 0 items) :
    ∃ fuel es, kprintf m args fuel fmt = some es ∧ FormatPrints m args 0 items (decoded es) := by
  obtain ⟨bound, hbound⟩ := kprintfLoop_prints hfmt hlen items (List.drop_zero) (Nat.zero_le _) hok
  obtain ⟨es, hrun, hprints⟩ := hbound bound le_rfl
  rw [show fmt + BitVec.ofNat 64 0 = fmt from BitVec.add_zero fmt] at hrun
  exact ⟨bound, es, hrun, hprints⟩

/-! ## §5  Texts -/

variable {z : ℤ} {n : ℕ} {cs cs' : List UInt8}

theorem DecimalForm.unique (h : DecimalForm z cs) (h' : DecimalForm z cs') : cs = cs' := by
  obtain ⟨ds, hds, rfl⟩ := h
  obtain ⟨ds', hds', rfl⟩ := h'
  rw [hds.unique (by decide) hds']

theorem HexForm.unique (h : HexForm n cs) (h' : HexForm n cs') : cs = cs' := by
  obtain ⟨ds, hds, rfl⟩ := h
  obtain ⟨ds', hds', rfl⟩ := h'
  rw [hds.unique (by decide) hds']

theorem PaddedForm.unique {width : ℤ} (h : PaddedForm n width cs) (h' : PaddedForm n width cs') :
    cs = cs' := by
  obtain ⟨ds, hds, rfl⟩ := h
  obtain ⟨ds', hds', rfl⟩ := h'
  rw [hds.unique (by decide) hds']

theorem FormatItem.Prints.unique {arg : Word} (h : item.Prints m arg cs)
    (h' : item.Prints m arg cs') : cs = cs' := by
  cases item with
  | plain c => exact Eq.trans (h : cs = [c.1]) (Eq.symm (h' : cs' = [c.1]))
  | percent => exact Eq.trans (h : cs = [37]) (Eq.symm (h' : cs' = [37]))
  | conversion v =>
    cases v with
    | int => exact DecimalForm.unique h h'
    | string => exact CStr.unique (h : StringAt m arg cs).string (h' : StringAt m arg cs').string
    | char => exact Eq.trans (h : cs = [_]) (Eq.symm (h' : cs' = [_]))
    | long => exact DecimalForm.unique h h'
    | hex => exact HexForm.unique h h'
  | padded width => exact PaddedForm.unique h h'

theorem FormatPrints.unique {items : List FormatItem} (h : FormatPrints m args k items cs)
    (h' : FormatPrints m args k items cs') : cs = cs' := by
  induction h generalizing cs' with
  | nil k =>
    cases h'
    rfl
  | cons htext _ ih =>
    cases h' with
    | cons htext' hrest' => rw [htext.unique htext', ih hrest']

end Pieces

def timeFormat : List FormatItem :=
  [.padded ⟨[51], List.forall_mem_singleton.mpr (by decide)⟩, .plain ⟨58, by decide⟩,
    .conversion .int]

/-- With the arguments 7 and -5. -/
theorem kprintf_prints_time : ∃ fuel es,
    kprintf (stringBytes [37, 48, 51, 100, 58, 37, 100]) (fun k => if k = 0 then 7 else -5) fuel 0 =
      some es ∧
    FormatPrints (stringBytes [37, 48, 51, 100, 58, 37, 100]) (fun k => if k = 0 then 7 else -5) 0
      timeFormat (decoded es) := by
  have hfmt : StringAt (stringBytes [37, 48, 51, 100, 58, 37, 100]) 0
      (timeFormat.flatMap FormatItem.chars) :=
    ⟨.cons rfl (by decide) (.cons rfl (by decide) (.cons rfl (by decide) (.cons rfl (by decide)
      (.cons rfl (by decide) (.cons rfl (by decide) (.cons rfl (by decide) (.nil rfl))))))),
      by decide⟩
  have hpadded : widthValue [51] ≤ 24 := by decide
  have hint : (-5 : Word).setWidth 32 ≠ BitVec.intMin 32 := by decide
  exact kprintf_prints timeFormat hfmt (by decide) ⟨hpadded, trivial, hint, trivial⟩

end Rpos
