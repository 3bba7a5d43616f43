import Rpos.Base.BitField
import Rpos.Base.CString
import Rpos.Base.Numeral

/-!
# kprintf

`kprintf.c` behind the decoder of colour sequences: the conversions of `expand`
and the loop over the format. A run is the list of what it does to memory and of
the characters that it passes to `ansi_decoder`. A `char` is unsigned on this
target, and a signed sum wraps.
-/

namespace Rpos

open Base

/-! ## §1  Numbers -/

/-- A step of `kprintf`: it reads a character of the format or of a string argument, stores
into entry `i` of a local array of `size` characters, or passes a character to `ansi_decoder`.
A character that is tested several times in a row is read once. -/
inductive KprintfEvent
  | format (a : Word)
  | string (a : Word)
  | store (size i : ℕ)
  | decode (c : UInt8)
  deriving DecidableEq

/-- The characters that `ansi_decoder` is given. -/
def decoded (es : List KprintfEvent) : List UInt8 :=
  es.filterMap fun
    | .decode c => some c
    | _ => none

def storeAll (size : ℕ) (buf : List UInt8) : List KprintfEvent :=
  (List.range buf.length).map (.store size)

/-- `for(int j = i - 1; j >= 0; j--) ansi_decoder(buf[j])`. -/
def replay (buf : List UInt8) : List KprintfEvent := buf.reverse.map .decode

def nibbleToChar (nibble : UInt8) : UInt8 :=
  if nibble ≤ 9 then 48 + nibble
  else if nibble ≤ 15 then 65 + (nibble - 10)
  else 0

/-- What the loop of `parse_and_emit_int` stores. -/
def intDigits (num : ℤ) : List UInt8 :=
  if num = 0 then [] else UInt8.ofInt (48 + num.tmod 10) :: intDigits (num.tdiv 10)
termination_by num.natAbs
decreasing_by
  rw [Int.natAbs_tdiv]
  exact Nat.div_lt_self (by omega) (by decide)

def parseAndEmitInt (num : BitVec 32) : List KprintfEvent :=
  if num = 0 then [.decode 48]
  else
    let sign := if num.toInt < 0 then [.decode 45] else []
    let num := if num.toInt < 0 then -num else num
    let buf := intDigits num.toInt
    sign ++ storeAll 20 buf ++ replay buf

/-- What the loop of `parse_and_emit_hex` stores. -/
def hexDigits (num : Word) : List UInt8 :=
  nibbleToChar (UInt8.ofNat (num &&& 0xF).toNat) ::
    if num >>> 4 = 0 then [] else hexDigits (num >>> 4)
termination_by num.toNat
decreasing_by
  rename_i hne
  rw [BitVec.toNat_ushiftRight, Nat.shiftRight_eq_div_pow]
  have hpos : num.toNat ≠ 0 := by
    intro hzero
    rw [BitVec.eq_of_toNat_eq (y := 0) hzero] at hne
    exact hne rfl
  exact Nat.div_lt_self (Nat.pos_of_ne_zero hpos) (by decide)

def parseAndEmitHex (num : Word) : List KprintfEvent :=
  let buf := hexDigits num
  storeAll 16 buf ++ replay buf

/-- What the first loop of `parse_and_emit_padded` stores. -/
def paddedDigits (num : Word) : List UInt8 :=
  if num = 0 then [] else UInt8.ofNat (48 + (num % 10).toNat) :: paddedDigits (num / 10)
termination_by num.toNat
decreasing_by
  rename_i hne
  rw [BitVec.toNat_udiv]
  apply Nat.div_lt_self _ (by decide)
  exact Nat.pos_of_ne_zero fun hzero => hne (BitVec.eq_of_toNat_eq hzero)

/-- `while(i < width) buf[i++] = '0'`. -/
def padTo (width : ℤ) (buf : List UInt8) : List UInt8 :=
  if buf.length < width then padTo width (buf ++ [48]) else buf
termination_by (width - buf.length).toNat
decreasing_by
  rw [List.length_append, List.length_singleton]
  omega

def parseAndEmitPadded (num : Word) (width : BitVec 32) : List KprintfEvent :=
  let buf := padTo width.toInt ((if num = 0 then [48] else []) ++ paddedDigits num)
  storeAll 24 buf ++ replay buf

def decChar (d : ℕ) : UInt8 := UInt8.ofNat (48 + d)

def hexChar (d : ℕ) : UInt8 := UInt8.ofNat (if d < 10 then 48 + d else 55 + d)

def DecimalForm (z : ℤ) (cs : List UInt8) : Prop :=
  ∃ ds, IsNumeral 10 z.natAbs ds ∧ cs = (if z < 0 then [45] else []) ++ ds.map decChar

def HexForm (n : ℕ) (cs : List UInt8) : Prop :=
  ∃ ds, IsNumeral 16 n ds ∧ cs = ds.map hexChar

/-- The decimal form of a number behind the zeros that it needs to be `width` long. -/
def PaddedForm (n : ℕ) (width : ℤ) (cs : List UInt8) : Prop :=
  ∃ ds, IsNumeral 10 n ds ∧
    cs = List.replicate (width.toNat - ds.length) 48 ++ ds.map decChar

theorem decoded_append (es es' : List KprintfEvent) :
    decoded (es ++ es') = decoded es ++ decoded es' :=
  List.filterMap_append

theorem decoded_storeAll_replay (size : ℕ) (buf : List UInt8) :
    decoded (storeAll size buf ++ replay buf) = buf.reverse := by
  have hstores : decoded (storeAll size buf) = [] := by
    unfold decoded storeAll
    rw [List.filterMap_map]
    exact List.filterMap_eq_nil_iff.mpr fun _ _ => rfl
  have hreplay : decoded (replay buf) = buf.reverse := by
    unfold decoded replay
    rw [List.filterMap_map]
    exact List.filterMap_some
  rw [decoded_append, hstores, hreplay, List.nil_append]

theorem intDigits_eq (n : ℕ) : intDigits n = (Nat.digits 10 n).map decChar := by
  induction n using Nat.strong_induction_on with
  | _ n ih =>
    by_cases hn : n = 0
    · rw [hn, intDigits, Nat.digits_zero]
      rfl
    · have hpos := Nat.pos_of_ne_zero hn
      have hdigit : UInt8.ofInt (48 + (n : ℤ).tmod 10) = decChar (n % 10) := by
        have hlt := Nat.mod_lt n (show 0 < 10 by decide)
        rw [show (n : ℤ).tmod 10 = ((n % 10 : ℕ) : ℤ) from rfl]
        interval_cases n % 10 <;> rfl
      rw [intDigits, if_neg (Int.natCast_ne_zero.mpr hn), hdigit,
        show (n : ℤ).tdiv 10 = ((n / 10 : ℕ) : ℤ) from rfl,
        ih _ (Nat.div_lt_self hpos (by decide)), Nat.digits_def' (by decide) hpos]
      rfl

theorem nibbleToChar_eq {d : ℕ} (hd : d < 16) : nibbleToChar (UInt8.ofNat d) = hexChar d := by
  interval_cases d <;> rfl

theorem hexDigits_eq (num : Word) : hexDigits num = (divDigits 16 num.toNat).map hexChar := by
  induction num using hexDigits.induct with
  | case1 num ih =>
    have hmask : (num &&& 0xF).toNat = num.toNat % 16 :=
      (BitVec.toNat_and num 0xF).trans (Nat.and_two_pow_sub_one_eq_mod num.toNat 4)
    have hshift : (num >>> 4).toNat = num.toNat / 16 := by
      rw [BitVec.toNat_ushiftRight, Nat.shiftRight_eq_div_pow]
    have hzero : num >>> 4 = 0 ↔ num.toNat / 16 = 0 := by
      rw [← hshift, ← BitVec.toNat_inj]
      rfl
    rw [hexDigits, divDigits_step (by decide), hmask,
      nibbleToChar_eq (Nat.mod_lt _ (by decide)), List.map_cons]
    congr 1
    by_cases hend : num >>> 4 = 0
    · rw [if_pos hend, if_pos (hzero.mp hend), List.map_nil]
    · rw [if_neg hend, if_neg fun h => hend (hzero.mpr h), ih hend, hshift]

theorem paddedDigits_eq (num : Word) :
    paddedDigits num = (Nat.digits 10 num.toNat).map decChar := by
  induction num using paddedDigits.induct with
  | case1 =>
    rw [paddedDigits, if_pos rfl]
    rfl
  | case2 num hne ih =>
    have hpos : 0 < num.toNat :=
      Nat.pos_of_ne_zero fun hzero => hne (BitVec.eq_of_toNat_eq hzero)
    rw [paddedDigits, if_neg hne, ih, Nat.digits_def' (by decide) hpos, BitVec.toNat_udiv,
      BitVec.toNat_umod]
    rfl

theorem padTo_eq (width : ℤ) (buf : List UInt8) :
    padTo width buf = buf ++ List.replicate (width.toNat - buf.length) 48 := by
  induction buf using padTo.induct width with
  | case1 buf hlt ih =>
    have hpos : width.toNat - buf.length = width.toNat - (buf.length + 1) + 1 := by omega
    rw [padTo, if_pos hlt, ih, List.length_append, List.length_singleton, hpos,
      List.replicate_succ, List.append_assoc, List.singleton_append]
  | case2 buf hge =>
    have hzero : width.toNat - buf.length = 0 := by omega
    rw [padTo, if_neg hge, hzero, List.replicate_zero, List.append_nil]

theorem paddedDigits_divDigits (num : Word) :
    (if num = 0 then [48] else []) ++ paddedDigits num = (divDigits 10 num.toNat).map decChar := by
  rw [paddedDigits_eq]
  by_cases hzero : num = 0
  · rw [hzero]
    rfl
  · have hne : num.toNat ≠ 0 := fun h => hzero (BitVec.eq_of_toNat_eq h)
    rw [if_neg hzero, divDigits_of_ne_zero hne, List.nil_append]

/-- The magnitude of a number that is not the least one is what the code divides. -/
theorem toInt_magnitude {num : BitVec 32} (hmin : num ≠ BitVec.intMin 32) :
    (if num.toInt < 0 then -num else num).toInt = num.toInt.natAbs := by
  split
  · rename_i hneg
    rw [BitVec.toInt_neg_of_ne_intMin hmin]
    omega
  · rename_i hnot
    exact (Int.natAbs_of_nonneg (Int.not_lt.mp hnot)).symm

theorem decoded_parseAndEmitInt {num : BitVec 32} (hmin : num ≠ BitVec.intMin 32) :
    decoded (parseAndEmitInt num) = (if num.toInt < 0 then [45] else []) ++
      (divDigits 10 num.toInt.natAbs).reverse.map decChar := by
  by_cases hzero : num = 0
  · rw [hzero]
    rfl
  · have hne : num.toInt.natAbs ≠ 0 := by
      intro h
      exact hzero (BitVec.eq_of_toInt_eq (Int.natAbs_eq_zero.mp h))
    unfold parseAndEmitInt
    dsimp only
    rw [if_neg hzero, toInt_magnitude hmin, intDigits_eq, List.append_assoc, decoded_append,
      decoded_storeAll_replay, divDigits_of_ne_zero hne, List.map_reverse]
    congr 1
    split <;> rfl

/-- The digits of the least `int` are characters in front of `0`. -/
theorem intDigits_intMin :
    intDigits (-2147483648) = [40, 44, 42, 45, 40, 44, 41, 44, 47, 46] := by
  simp [intDigits]
  decide

theorem decoded_intMin :
    decoded (parseAndEmitInt (BitVec.intMin 32)) =
      [45, 46, 47, 44, 41, 44, 40, 45, 42, 44, 40] := by
  have hmin : (BitVec.intMin 32).toInt = -2147483648 := rfl
  have hneg : (-BitVec.intMin 32).toInt = -2147483648 := rfl
  have hne : BitVec.intMin 32 ≠ 0 := by decide
  unfold parseAndEmitInt
  dsimp only
  rw [if_neg hne, hmin, if_pos (by decide), if_pos (by decide), hneg,
    intDigits_intMin]
  rfl

/-- `parse_and_emit_int` prints the decimal form of every number but the least. -/
theorem parseAndEmitInt_iff (num : BitVec 32) :
    DecimalForm num.toInt (decoded (parseAndEmitInt num)) ↔ num ≠ BitVec.intMin 32 := by
  constructor
  · rintro ⟨ds, hds, hcs⟩ rfl
    rw [decoded_intMin] at hcs
    -- the last character is not a digit
    have hmem : (40 : UInt8) ∈ ds.map decChar := by
      have hlast : (40 : UInt8) ∈ [45] ++ ds.map decChar := by
        rw [show [45] = if (BitVec.intMin 32).toInt < 0 then [(45 : UInt8)] else [] from rfl, ← hcs]
        decide
      exact (List.mem_cons.mp hlast).resolve_left (by decide)
    obtain ⟨d, hd, hchar⟩ := List.mem_map.mp hmem
    have hlt := hds.lt d hd
    interval_cases d <;> exact absurd hchar (by decide)
  · intro hmin
    exact ⟨_, isNumeral_divDigits (by decide) _, decoded_parseAndEmitInt hmin⟩

theorem parseAndEmitHex_form (num : Word) :
    HexForm num.toNat (decoded (parseAndEmitHex num)) := by
  refine ⟨_, isNumeral_divDigits (by decide) _, ?_⟩
  unfold parseAndEmitHex
  dsimp only
  rw [decoded_storeAll_replay, hexDigits_eq, List.map_reverse]

theorem parseAndEmitPadded_form (num : Word) (width : BitVec 32) :
    PaddedForm num.toNat width.toInt (decoded (parseAndEmitPadded num width)) := by
  refine ⟨_, isNumeral_divDigits (by decide) _, ?_⟩
  unfold parseAndEmitPadded
  dsimp only
  rw [decoded_storeAll_replay, padTo_eq, paddedDigits_divDigits, List.reverse_append,
    List.reverse_replicate, List.length_map, List.length_reverse, List.map_reverse]

/-- The numbers that `kprintf` prints are in canonical form, if and only if the `int` is not
the least one. -/
theorem printed_numbers_iff (num : BitVec 32) (v : Word) (width : BitVec 32) :
    (DecimalForm num.toInt (decoded (parseAndEmitInt num)) ∧
      HexForm v.toNat (decoded (parseAndEmitHex v)) ∧
      (width.toInt ≤ 24 →
        PaddedForm v.toNat width.toInt (decoded (parseAndEmitPadded v width)))) ↔
    num ≠ BitVec.intMin 32 := by
  rw [parseAndEmitInt_iff]
  exact and_iff_left ⟨parseAndEmitHex_form v, fun _ => parseAndEmitPadded_form v width⟩

/-- -2147483648 is printed as `-./,),(-*,(`. -/
theorem intMin_not_decimal :
    ¬ DecimalForm (BitVec.intMin 32).toInt (decoded (parseAndEmitInt (BitVec.intMin 32))) :=
  fun h => (parseAndEmitInt_iff _).mp h rfl

/-! ## §2  The format -/

/-- The loop over the digits of a width: what it reads, the width and where the digits end. -/
def scanWidth (m : ByteMem) : ℕ → Word → BitVec 32 → Option (List KprintfEvent × BitVec 32 × Word)
  | 0, _, _ => none
  | fuel + 1, p, width =>
      if 48 ≤ m p.toNat ∧ m p.toNat ≤ 57 then
        (scanWidth m fuel (p + 1) (width * 10 + (m p.toNat - 48).toBitVec.setWidth 32)).map
          fun r => (.format p :: r.1, r.2)
      else some ([.format p], width, p)

def emitString (m : ByteMem) : ℕ → Word → Option (List KprintfEvent)
  | 0, _ => none
  | fuel + 1, s =>
      if m s.toNat = 0 then some [.string s]
      else (emitString m fuel (s + 1)).map fun es => .string s :: .decode (m s.toNat) :: es

/-- The `switch` of `expand` on the character `c`. The argument list is given by the words of
the arguments and the number of those taken. -/
def convert (m : ByteMem) (args : ℕ → Word) (fuel : ℕ) (c : UInt8) (k : ℕ) :
    Option (List KprintfEvent × ℕ) :=
  if c = 100 then some (parseAndEmitInt ((args k).setWidth 32), k + 1)
  else if c = 115 then (emitString m fuel (args k)).map fun es => (es, k + 1)
  else if c = 99 then some ([.decode (UInt8.ofNat (args k).toNat)], k + 1)
  else if c = 108 then some (parseAndEmitInt ((args k).setWidth 32), k + 1)
  else if c = 120 then some (parseAndEmitHex (args k), k + 1)
  else if c = 37 then some ([.decode c], k)
  else some ([], k)

/-- `expand`: what it does, the number of characters that it reports as consumed, and the
number of arguments taken. -/
def expand (m : ByteMem) (args : ℕ → Word) (fuel : ℕ) (s : Word) (k : ℕ) :
    Option (List KprintfEvent × BitVec 32 × ℕ) :=
  if m s.toNat = 48 then
    match scanWidth m fuel (s + 1) 0 with
    | none => none
    | some (reads, width, p) =>
        if m p.toNat = 100 then
          some (.format s :: reads ++ parseAndEmitPadded (args k) width,
            (p - s).setWidth 32 + 1, k + 1)
        else
          (convert m args fuel (m s.toNat) k).map fun r => (.format s :: reads ++ r.1, 1, r.2)
  else (convert m args fuel (m s.toNat) k).map fun r => ([.format s] ++ r.1, 1, r.2)

/-- The loop of `kprintf` from `ptr` on, with `k` arguments taken. -/
def kprintfLoop (m : ByteMem) (args : ℕ → Word) : ℕ → Word → ℕ → Option (List KprintfEvent)
  | 0, _, _ => none
  | fuel + 1, ptr, k =>
      if m ptr.toNat = 0 then some [.format ptr]
      else if m ptr.toNat = 37 then
        match expand m args fuel (ptr + 1) k with
        | none => none
        | some (es, consumed, k) =>
            (kprintfLoop m args fuel (ptr + 1 + consumed.signExtend 64) k).map
              fun rest => .format ptr :: es ++ rest
      else
        (kprintfLoop m args fuel (ptr + 1) k).map
          fun rest => .format ptr :: [.decode (m ptr.toNat)] ++ rest

/-- `kprintf`; `none` when the loops have not ended after `fuel` steps. -/
def kprintf (m : ByteMem) (args : ℕ → Word) (fuel : ℕ) (formatStr : Word) :
    Option (List KprintfEvent) :=
  kprintfLoop m args fuel formatStr 0

/-- The string `s` stands at `a`, and the address behind its terminator is in the address
space. -/
structure StringAt (m : ByteMem) (a : Word) (s : List UInt8) : Prop where
  string : CStr m a.toNat s
  fits : a.toNat + s.length + 1 < 2 ^ 64

def widthDigits (s : List UInt8) (i : ℕ) : List UInt8 :=
  (s.drop i).takeWhile fun c => 48 ≤ c ∧ c ≤ 57

def widthFrom (width : BitVec 32) (ds : List UInt8) : BitVec 32 :=
  ds.foldl (fun width c => width * 10 + (c - 48).toBitVec.setWidth 32) width

def PaddedAt (s : List UInt8) (i : ℕ) : Prop :=
  s.getD i 0 = 48 ∧ s.getD (i + 1 + (widthDigits s (i + 1)).length) 0 = 100

instance (s : List UInt8) (i : ℕ) : Decidable (PaddedAt s i) :=
  inferInstanceAs (Decidable (_ ∧ _))

def conversionLength (s : List UInt8) (i : ℕ) : BitVec 32 :=
  if PaddedAt s i then BitVec.ofNat 32 (1 + (widthDigits s (i + 1)).length) + 1 else 1

def conversionArgs (s : List UInt8) (i : ℕ) : ℕ :=
  if PaddedAt s i ∨ s.getD i 0 ∈ [100, 115, 99, 108, 120] then 1 else 0

/-- Where the format goes on after the character or the conversion at offset `i`. -/
def cursorNext (s : List UInt8) (i : ℕ) : ℕ :=
  if s.getD i 0 = 37 then
    (BitVec.ofNat 64 (i + 1) + (conversionLength s (i + 1)).signExtend 64).toNat
  else i + 1

/-- The arguments that the character or the conversion at offset `i` takes. -/
def argsTaken (s : List UInt8) (i : ℕ) : ℕ :=
  if s.getD i 0 = 37 then conversionArgs s (i + 1) else 0

/-- A percent sign at offset `i` has a character behind it, and if that begins a padded
conversion, then the width is at most 24. -/
def FitsAt (s : List UInt8) (i : ℕ) : Prop :=
  s.getD i 0 = 37 → i + 1 < s.length ∧
    (PaddedAt s (i + 1) → (widthFrom 0 (widthDigits s (i + 2))).toInt ≤ 24)

/-- From offset `i` on every percent sign fits, up to the end of the format. -/
inductive FormatFits (s : List UInt8) : ℕ → Prop
  | stop : FormatFits s s.length
  | step {i : ℕ} : i < s.length → FitsAt s i → FormatFits s (cursorNext s i) → FormatFits s i

inductive ComesTo (s : List UInt8) : ℕ → ℕ → Prop
  | start : ComesTo s 0 0
  | step {i k : ℕ} : ComesTo s i k → i < s.length → ComesTo s (cursorNext s i) (k + argsTaken s i)

def StringArgs (m : ByteMem) (args : ℕ → Word) (s : List UInt8) : Prop :=
  ∀ i k, ComesTo s i k → s.getD i 0 = 37 → s.getD (i + 1) 0 = 115 →
    ∃ t, StringAt m (args k) t

/-- What is read of a format of length `n` at `fmt` is the format, and what is stored is inside
a local array. -/
def EventInside (fmt : Word) (n : ℕ) : KprintfEvent → Prop
  | .format a => fmt.toNat ≤ a.toNat ∧ a.toNat ≤ fmt.toNat + n
  | .store size i => i < size
  | _ => True

def StaysInside (fmt : Word) (n : ℕ) (es : List KprintfEvent) : Prop :=
  ∀ e ∈ es, EventInside fmt n e

section Strings

variable {m : ByteMem} {fmt : Word} {s : List UInt8}

theorem StringAt.load (h : StringAt m fmt s) {i : ℕ} (hi : i ≤ s.length) :
    m (fmt + BitVec.ofNat 64 i).toNat = s.getD i 0 := by
  have hfits := h.fits
  rw [BitVec.toNat_add, BitVec.toNat_ofNat, ← h.string.get hi]
  congr 1
  omega

/-- An offset below 2^64 is inside the format if and only if its address is. -/
theorem StringAt.inside_iff (h : StringAt m fmt s) {i : ℕ} (hi : i < 2 ^ 64) :
    EventInside fmt s.length (.format (fmt + BitVec.ofNat 64 i)) ↔ i ≤ s.length := by
  have hfits := h.fits
  show fmt.toNat ≤ (fmt + BitVec.ofNat 64 i).toNat ∧ _ ↔ _
  rw [BitVec.toNat_add, BitVec.toNat_ofNat]
  omega

theorem lt_of_getD_ne {s : List UInt8} {i : ℕ} (hne : s.getD i 0 ≠ 0) : i < s.length := by
  by_contra hge
  exact hne (List.getD_eq_default s 0 (Nat.le_of_not_lt hge))

theorem widthDigits_step (s : List UInt8) (i : ℕ) :
    widthDigits s i = if 48 ≤ s.getD i 0 ∧ s.getD i 0 ≤ 57 then
      s.getD i 0 :: widthDigits s (i + 1) else [] := by
  unfold widthDigits
  rcases Nat.lt_or_ge i s.length with hi | hi
  · rw [List.drop_eq_getElem_cons hi, List.takeWhile_cons, List.getD_eq_getElem s 0 hi]
    simp only [decide_eq_true_eq]
  · rw [List.drop_eq_nil_of_le hi, List.getD_eq_default s 0 hi]
    rfl

theorem widthDigits_le (s : List UInt8) {i : ℕ} (hi : i ≤ s.length) :
    i + (widthDigits s i).length ≤ s.length := by
  have hlen : (widthDigits s i).length ≤ (s.drop i).length :=
    (List.takeWhile_prefix _).length_le
  rw [List.length_drop] at hlen
  omega

/-- What the loop over the digits of a width reads from offset `i` on. -/
def widthReads (fmt : Word) (i n : ℕ) : List KprintfEvent :=
  (List.range (n + 1)).map fun t => .format (fmt + BitVec.ofNat 64 (i + t))

theorem widthReads_succ (fmt : Word) (i n : ℕ) :
    widthReads fmt i (n + 1) = .format (fmt + BitVec.ofNat 64 i) :: widthReads fmt (i + 1) n := by
  unfold widthReads
  rw [List.range_succ_eq_map, List.map_cons, List.map_map, Nat.add_zero]
  congr 1
  apply List.map_congr_left
  intro t _
  rw [Function.comp_apply, Nat.succ_eq_add_one, Nat.add_right_comm, Nat.add_assoc]

theorem add_ofNat_succ (a : Word) (i : ℕ) :
    a + BitVec.ofNat 64 i + 1 = a + BitVec.ofNat 64 (i + 1) := by
  rw [BitVec.add_assoc, BitVec.ofNat_add]
  rfl

theorem scanWidth_eq (h : StringAt m fmt s) (fuel : ℕ) :
    ∀ {i : ℕ} (width : BitVec 32), i ≤ s.length →
      scanWidth m fuel (fmt + BitVec.ofNat 64 i) width =
        if (widthDigits s i).length < fuel then
          some (widthReads fmt i (widthDigits s i).length, widthFrom width (widthDigits s i),
            fmt + BitVec.ofNat 64 (i + (widthDigits s i).length))
        else none := by
  induction fuel with
  | zero =>
    intro i width hi
    rw [if_neg (Nat.not_lt_zero _)]
    rfl
  | succ fuel ih =>
    intro i width hi
    rw [scanWidth, h.load hi]
    by_cases hdigit : 48 ≤ s.getD i 0 ∧ s.getD i 0 ≤ 57
    · -- a digit is not the terminator
      have hlt : i < s.length := lt_of_getD_ne fun hnull => by
        rw [hnull] at hdigit
        exact absurd hdigit (by decide)
      have hstep : widthDigits s i = s.getD i 0 :: widthDigits s (i + 1) := by
        rw [widthDigits_step, if_pos hdigit]
      rw [if_pos hdigit, add_ofNat_succ, ih _ hlt, hstep, List.length_cons]
      by_cases hfuel : (widthDigits s (i + 1)).length < fuel
      · rw [if_pos hfuel, if_pos (Nat.succ_lt_succ hfuel), Option.map_some, widthReads_succ,
          Nat.add_right_comm i 1, Nat.add_assoc i]
        rfl
      · rw [if_neg hfuel, if_neg fun hlt => hfuel (Nat.lt_of_succ_lt_succ hlt)]
        rfl
    · have hstep : widthDigits s i = [] := by rw [widthDigits_step, if_neg hdigit]
      rw [if_neg hdigit, hstep, List.length_nil, if_pos (Nat.succ_pos fuel)]
      rfl

def conversionReads (fuel : ℕ) (fmt : Word) (s : List UInt8) (i : ℕ) : Option (List KprintfEvent) :=
  if s.getD i 0 = 48 then
    if (widthDigits s (i + 1)).length < fuel then
      some (.format (fmt + BitVec.ofNat 64 i) ::
        widthReads fmt (i + 1) (widthDigits s (i + 1)).length)
    else none
  else some [.format (fmt + BitVec.ofNat 64 i)]

def conversionEvents (m : ByteMem) (args : ℕ → Word) (fuel : ℕ) (fmt : Word) (s : List UInt8)
    (i k : ℕ) : Option (List KprintfEvent) :=
  (conversionReads fuel fmt s i).bind fun reads =>
    if PaddedAt s i then
      some (reads ++ parseAndEmitPadded (args k) (widthFrom 0 (widthDigits s (i + 1))))
    else (convert m args fuel (s.getD i 0) k).map fun r => reads ++ r.1

variable {args : ℕ → Word}

theorem convert_args {fuel k : ℕ} {c : UInt8} {r : List KprintfEvent × ℕ}
    (h : convert m args fuel c k = some r) :
    r.2 = k + if c ∈ [(100 : UInt8), 115, 99, 108, 120] then 1 else 0 := by
  unfold convert at h
  by_cases hd : c = 100
  · rw [if_pos hd] at h
    rw [← Option.some.inj h, hd]
    rfl
  rw [if_neg hd] at h
  by_cases hs : c = 115
  · rw [if_pos hs] at h
    obtain ⟨es, -, rfl⟩ := Option.map_eq_some_iff.mp h
    rw [hs]
    rfl
  rw [if_neg hs] at h
  by_cases hc : c = 99
  · rw [if_pos hc] at h
    rw [← Option.some.inj h, hc]
    rfl
  rw [if_neg hc] at h
  by_cases hl : c = 108
  · rw [if_pos hl] at h
    rw [← Option.some.inj h, hl]
    rfl
  rw [if_neg hl] at h
  by_cases hx : c = 120
  · rw [if_pos hx] at h
    rw [← Option.some.inj h, hx]
    rfl
  rw [if_neg hx] at h
  have hnot : c ∉ [(100 : UInt8), 115, 99, 108, 120] := by
    simp only [List.mem_cons, List.not_mem_nil, or_false, not_or]
    exact ⟨hd, hs, hc, hl, hx⟩
  rw [if_neg hnot]
  split at h <;> rw [← Option.some.inj h, Nat.add_zero]

theorem expand_eq (h : StringAt m fmt s) {i : ℕ} (hi : i ≤ s.length) (fuel k : ℕ) :
    expand m args fuel (fmt + BitVec.ofNat 64 i) k =
      (conversionEvents m args fuel fmt s i k).map fun es =>
        (es, conversionLength s i, k + conversionArgs s i) := by
  -- the conversions of the `switch`, behind what has been read of a width
  have hconv : ∀ reads : List KprintfEvent, ¬ PaddedAt s i →
      ((convert m args fuel (s.getD i 0) k).map fun r =>
        ((reads ++ r.1, 1, r.2) : List KprintfEvent × BitVec 32 × ℕ)) =
      ((convert m args fuel (s.getD i 0) k).map fun r => reads ++ r.1).map fun es =>
        (es, conversionLength s i, k + conversionArgs s i) := by
    intro reads hnot
    have hargs : conversionArgs s i =
        if s.getD i 0 ∈ [(100 : UInt8), 115, 99, 108, 120] then 1 else 0 := by
      simp only [conversionArgs, hnot, false_or]
    rw [conversionLength, if_neg hnot, hargs, Option.map_map]
    cases hr : convert m args fuel (s.getD i 0) k with
    | none => rfl
    | some r =>
      rw [Option.map_some, Option.map_some, Function.comp_apply, ← convert_args hr]
  unfold expand conversionEvents conversionReads
  rw [h.load hi]
  by_cases hzero : s.getD i 0 = 48
  · have hlt : i < s.length := lt_of_getD_ne (by rw [hzero]; decide)
    rw [if_pos hzero, if_pos hzero, add_ofNat_succ, scanWidth_eq h fuel 0 hlt]
    by_cases hfuel : (widthDigits s (i + 1)).length < fuel
    · rw [if_pos hfuel, if_pos hfuel, Option.bind_some]
      dsimp only
      rw [h.load (widthDigits_le s hlt)]
      by_cases hd : s.getD (i + 1 + (widthDigits s (i + 1)).length) 0 = 100
      · have hpad : PaddedAt s i := ⟨hzero, hd⟩
        have hsub : (fmt + BitVec.ofNat 64 (i + 1 + (widthDigits s (i + 1)).length) -
            (fmt + BitVec.ofNat 64 i)).setWidth 32 =
            BitVec.ofNat 32 (1 + (widthDigits s (i + 1)).length) := by
          rw [Nat.add_assoc, BitVec.ofNat_add, ← BitVec.add_assoc, BitVec.add_comm,
            BitVec.add_sub_cancel]
          apply BitVec.eq_of_toNat_eq
          rw [BitVec.toNat_setWidth, BitVec.toNat_ofNat, BitVec.toNat_ofNat,
            Nat.mod_mod_of_dvd _ (by decide)]
        rw [if_pos hd, if_pos hpad, hsub, Option.map_some, conversionLength, if_pos hpad,
          conversionArgs, if_pos (Or.inl hpad)]
      · have hnot : ¬ PaddedAt s i := fun hpad => hd hpad.2
        rw [if_neg hd, if_neg hnot]
        exact hconv _ hnot
    · rw [if_neg hfuel, if_neg hfuel]
      rfl
  · have hnot : ¬ PaddedAt s i := fun hpad => hzero hpad.1
    rw [if_neg hzero, if_neg hzero, Option.bind_some, if_neg hnot]
    exact hconv _ hnot

/-- What `kprintf` does with the character or the conversion at offset `i`. -/
def pieceEvents (m : ByteMem) (args : ℕ → Word) (fuel : ℕ) (fmt : Word) (s : List UInt8)
    (i k : ℕ) : Option (List KprintfEvent) :=
  if s.getD i 0 = 37 then conversionEvents m args fuel fmt s (i + 1) k
  else some [.decode (s.getD i 0)]

theorem kprintfLoop_end (h : StringAt m fmt s) (fuel k : ℕ) :
    kprintfLoop m args (fuel + 1) (fmt + BitVec.ofNat 64 s.length) k =
      some [.format (fmt + BitVec.ofNat 64 s.length)] := by
  rw [kprintfLoop, h.load le_rfl, List.getD_eq_default s 0 le_rfl, if_pos rfl]

theorem kprintfLoop_eq (h : StringAt m fmt s) {i : ℕ} (hi : i < s.length) (fuel k : ℕ) :
    kprintfLoop m args (fuel + 1) (fmt + BitVec.ofNat 64 i) k =
      (pieceEvents m args fuel fmt s i k).bind fun es =>
        (kprintfLoop m args fuel (fmt + BitVec.ofNat 64 (cursorNext s i))
          (k + argsTaken s i)).map fun rest =>
            .format (fmt + BitVec.ofNat 64 i) :: es ++ rest := by
  rw [kprintfLoop, h.load (Nat.le_of_lt hi), if_neg (h.string.getD_ne_zero hi), pieceEvents,
    cursorNext, argsTaken]
  by_cases hpercent : s.getD i 0 = 37
  · rw [if_pos hpercent, if_pos hpercent, if_pos hpercent, if_pos hpercent, add_ofNat_succ,
      expand_eq h hi]
    cases conversionEvents m args fuel fmt s (i + 1) k with
    | none => rfl
    | some es =>
      rw [Option.map_some, Option.bind_some, BitVec.ofNat_toNat, BitVec.setWidth_eq,
        ← BitVec.add_assoc]
  · rw [if_neg hpercent, if_neg hpercent, if_neg hpercent, if_neg hpercent, add_ofNat_succ,
      Option.bind_some]
    rfl

end Strings

/-! ## §3  The arrays -/

section Arrays

variable {m : ByteMem} {fmt : Word} {s : List UInt8} {args : ℕ → Word} {n : ℕ}

theorem staysInside_append (es es' : List KprintfEvent) :
    StaysInside fmt n (es ++ es') ↔ StaysInside fmt n es ∧ StaysInside fmt n es' :=
  List.forall_mem_append

theorem staysInside_cons (e : KprintfEvent) (es : List KprintfEvent) :
    StaysInside fmt n (e :: es) ↔ EventInside fmt n e ∧ StaysInside fmt n es :=
  List.forall_mem_cons

/-- The stores are inside the array if and only if what is stored fits into it. -/
theorem storeAll_inside_iff (size : ℕ) (buf : List UInt8) :
    StaysInside fmt n (storeAll size buf ++ replay buf) ↔ buf.length ≤ size := by
  constructor
  · intro h
    apply Nat.le_of_not_lt
    intro hlt
    -- the store behind the last entry
    have hmem : .store size size ∈ storeAll size buf ++ replay buf :=
      List.mem_append_left _ (List.mem_map.mpr ⟨size, List.mem_range.mpr hlt, rfl⟩)
    exact absurd (h _ hmem) (Nat.lt_irrefl size)
  · intro hle e he
    rcases List.mem_append.mp he with he | he
    · obtain ⟨i, hi, rfl⟩ := List.mem_map.mp he
      exact (List.mem_range.mp hi).trans_le hle
    · obtain ⟨c, -, rfl⟩ := List.mem_map.mp he
      trivial

theorem length_intDigits (num : BitVec 32) :
    (intDigits (if num.toInt < 0 then -num else num).toInt).length ≤ 20 := by
  by_cases hmin : num = BitVec.intMin 32
  · have hneg : (if num.toInt < 0 then -num else num).toInt = -2147483648 := by
      rw [hmin]
      rfl
    rw [hneg, intDigits_intMin]
    decide
  · rw [toInt_magnitude hmin, intDigits_eq, List.length_map,
      Nat.digits_length_le_iff (by decide)]
    have hlt := BitVec.toInt_lt (x := num)
    have hle := BitVec.le_toInt num
    omega

theorem parseAndEmitInt_inside (num : BitVec 32) : StaysInside fmt n (parseAndEmitInt num) := by
  unfold parseAndEmitInt
  dsimp only
  split
  · exact List.forall_mem_singleton.mpr trivial
  · rw [List.append_assoc, staysInside_append]
    refine ⟨?_, (storeAll_inside_iff 20 _).mpr (length_intDigits num)⟩
    split
    · exact List.forall_mem_singleton.mpr trivial
    · exact List.forall_mem_nil _

theorem parseAndEmitHex_inside (num : Word) : StaysInside fmt n (parseAndEmitHex num) := by
  unfold parseAndEmitHex
  dsimp only
  rw [storeAll_inside_iff, hexDigits_eq, List.length_map]
  exact length_divDigits (by decide) (by decide) num.isLt

/-- The array of `parse_and_emit_padded` takes every number, and a width of at most 24. -/
theorem parseAndEmitPadded_inside_iff (num : Word) (width : BitVec 32) :
    StaysInside fmt n (parseAndEmitPadded num width) ↔ width.toInt ≤ 24 := by
  have hdigits : (divDigits 10 num.toNat).length ≤ 20 :=
    length_divDigits (by decide) (by decide) (num.isLt.trans (by decide))
  unfold parseAndEmitPadded
  dsimp only
  rw [storeAll_inside_iff, padTo_eq, paddedDigits_divDigits, List.length_append,
    List.length_replicate, List.length_map]
  omega

theorem emitString_inside (fuel : ℕ) :
    ∀ {a : Word} {es : List KprintfEvent}, emitString m fuel a = some es →
      StaysInside fmt n es := by
  induction fuel with
  | zero => exact fun h => absurd h (Option.some_ne_none _).symm
  | succ fuel ih =>
    intro a es h
    rw [emitString] at h
    split at h
    · rw [← Option.some.inj h]
      exact List.forall_mem_singleton.mpr trivial
    · obtain ⟨rest, hrest, rfl⟩ := Option.map_eq_some_iff.mp h
      rw [staysInside_cons, staysInside_cons]
      exact ⟨trivial, trivial, ih hrest⟩

theorem convert_inside {fuel k : ℕ} {c : UInt8} {r : List KprintfEvent × ℕ}
    (h : convert m args fuel c k = some r) : StaysInside fmt n r.1 := by
  unfold convert at h
  split at h
  · rw [← Option.some.inj h]
    exact parseAndEmitInt_inside _
  split at h
  · obtain ⟨es, hes, rfl⟩ := Option.map_eq_some_iff.mp h
    exact emitString_inside fuel hes
  split at h
  · rw [← Option.some.inj h]
    exact List.forall_mem_singleton.mpr trivial
  split at h
  · rw [← Option.some.inj h]
    exact parseAndEmitInt_inside _
  split at h
  · rw [← Option.some.inj h]
    exact parseAndEmitHex_inside _
  split at h
  · rw [← Option.some.inj h]
    exact List.forall_mem_singleton.mpr trivial
  · rw [← Option.some.inj h]
    exact List.forall_mem_nil _

theorem conversionReads_inside (h : StringAt m fmt s) {i : ℕ} (hi : i ≤ s.length) {fuel : ℕ}
    {reads : List KprintfEvent} (hreads : conversionReads fuel fmt s i = some reads) :
    StaysInside fmt s.length reads := by
  have hfits := h.fits
  have hfirst : EventInside fmt s.length (.format (fmt + BitVec.ofNat 64 i)) :=
    (h.inside_iff (by omega)).mpr hi
  unfold conversionReads at hreads
  split at hreads
  · rename_i hzero
    have hlt : i + 1 ≤ s.length := lt_of_getD_ne (by rw [hzero]; decide)
    have hdigits := widthDigits_le s hlt
    split at hreads
    · rw [← Option.some.inj hreads, staysInside_cons]
      refine ⟨hfirst, fun e he => ?_⟩
      obtain ⟨t, ht, rfl⟩ := List.mem_map.mp he
      have hle := List.mem_range.mp ht
      exact (h.inside_iff (by omega)).mpr (by omega)
    · exact absurd hreads (Option.some_ne_none _).symm
  · rw [← Option.some.inj hreads]
    exact List.forall_mem_singleton.mpr hfirst

/-- A conversion stays inside if and only if it is not padded too far. -/
theorem conversionEvents_inside_iff (h : StringAt m fmt s) {i : ℕ} (hi : i ≤ s.length)
    {fuel k : ℕ} {es : List KprintfEvent}
    (hes : conversionEvents m args fuel fmt s i k = some es) :
    StaysInside fmt s.length es ↔
      (PaddedAt s i → (widthFrom 0 (widthDigits s (i + 1))).toInt ≤ 24) := by
  obtain ⟨reads, hreads, hes⟩ := Option.bind_eq_some_iff.mp hes
  have hin := conversionReads_inside h hi hreads
  split at hes
  · rename_i hpad
    rw [← Option.some.inj hes, staysInside_append, parseAndEmitPadded_inside_iff,
      and_iff_right hin]
    exact ⟨fun hle _ => hle, fun hle => hle hpad⟩
  · rename_i hnot
    obtain ⟨r, hr, rfl⟩ := Option.map_eq_some_iff.mp hes
    rw [staysInside_append]
    exact iff_of_true ⟨hin, convert_inside hr⟩ fun hpad => absurd hpad hnot

/-- A character or a conversion stays inside if and only if it is not padded too far. -/
theorem pieceEvents_inside_iff (h : StringAt m fmt s) {i : ℕ} (hi : i < s.length)
    {fuel k : ℕ} {es : List KprintfEvent} (hes : pieceEvents m args fuel fmt s i k = some es) :
    StaysInside fmt s.length es ↔ (s.getD i 0 = 37 → PaddedAt s (i + 1) →
      (widthFrom 0 (widthDigits s (i + 2))).toInt ≤ 24) := by
  unfold pieceEvents at hes
  split at hes
  · rename_i hpercent
    rw [conversionEvents_inside_iff h hi hes]
    exact ⟨fun hle _ => hle, fun hle => hle hpercent⟩
  · rename_i hnot
    rw [← Option.some.inj hes]
    exact iff_of_true (List.forall_mem_singleton.mpr trivial) fun hpercent =>
      absurd hpercent hnot

theorem emitString_returns {a : Word} {t : List UInt8} (h : StringAt m a t) (fuel : ℕ) :
    ∀ {i : ℕ}, i ≤ t.length → t.length < i + fuel →
      ∃ es, emitString m fuel (a + BitVec.ofNat 64 i) = some es := by
  induction fuel with
  | zero => exact fun hi hlt => absurd hlt (Nat.not_lt_of_le hi)
  | succ fuel ih =>
    intro i hi hlt
    rw [emitString, h.load hi]
    split
    · exact ⟨_, rfl⟩
    · rename_i hne
      have hinside : i < t.length := lt_of_getD_ne hne
      obtain ⟨es, hes⟩ := ih hinside (by omega)
      rw [add_ofNat_succ, hes]
      exact ⟨_, rfl⟩

/-- With enough fuel a conversion returns, if a `%s` is given a string. -/
theorem convert_returns {c : UInt8} {k : ℕ} (hargs : c = 115 → ∃ t, StringAt m (args k) t) :
    ∃ bound, ∀ fuel, bound ≤ fuel → ∃ r, convert m args fuel c k = some r := by
  by_cases hs : c = 115
  · obtain ⟨t, ht⟩ := hargs hs
    refine ⟨t.length + 1, fun fuel hfuel => ?_⟩
    obtain ⟨es, hes⟩ := emitString_returns ht fuel (Nat.zero_le _) (by omega)
    rw [show args k + BitVec.ofNat 64 0 = args k from BitVec.add_zero _] at hes
    rw [convert, if_neg (by rw [hs]; decide), if_pos hs, hes]
    exact ⟨_, rfl⟩
  · refine ⟨0, fun fuel _ => ?_⟩
    unfold convert
    rw [if_neg hs]
    split
    · exact ⟨_, rfl⟩
    split
    · exact ⟨_, rfl⟩
    split
    · exact ⟨_, rfl⟩
    split
    · exact ⟨_, rfl⟩
    split
    · exact ⟨_, rfl⟩
    · exact ⟨_, rfl⟩

theorem pieceEvents_returns (fmt : Word) {i k : ℕ}
    (hargs : s.getD i 0 = 37 → s.getD (i + 1) 0 = 115 → ∃ t, StringAt m (args k) t) :
    ∃ bound, ∀ fuel, bound ≤ fuel → ∃ es, pieceEvents m args fuel fmt s i k = some es := by
  unfold pieceEvents
  by_cases hpercent : s.getD i 0 = 37
  · obtain ⟨bound, hbound⟩ := convert_returns (hargs hpercent)
    refine ⟨max bound ((widthDigits s (i + 2)).length + 1), fun fuel hfuel => ?_⟩
    obtain ⟨r, hr⟩ := hbound fuel (le_of_max_le_left hfuel)
    have hwidth : (widthDigits s (i + 1 + 1)).length < fuel := le_of_max_le_right hfuel
    have hreads : ∃ reads, conversionReads fuel fmt s (i + 1) = some reads := by
      unfold conversionReads
      rw [if_pos hwidth]
      split
      · exact ⟨_, rfl⟩
      · exact ⟨_, rfl⟩
    obtain ⟨reads, hreads⟩ := hreads
    rw [if_pos hpercent, conversionEvents, hreads, Option.bind_some, hr]
    split
    · exact ⟨_, rfl⟩
    · exact ⟨_, rfl⟩
  · refine ⟨0, fun fuel _ => ?_⟩
    rw [if_neg hpercent]
    exact ⟨_, rfl⟩

/-! ## §4  The loop -/

theorem cursorNext_lt {i : ℕ} (hi : i + 1 < 2 ^ 64) : cursorNext s i < 2 ^ 64 := by
  unfold cursorNext
  split
  · exact BitVec.isLt _
  · exact hi

/-- The first character that the loop reads is the one at the cursor. -/
theorem kprintfLoop_reads {fuel k : ℕ} {ptr : Word} {es : List KprintfEvent}
    (h : kprintfLoop m args fuel ptr k = some es) : .format ptr ∈ es := by
  cases fuel with
  | zero => exact absurd h (Option.some_ne_none _).symm
  | succ fuel =>
    rw [kprintfLoop] at h
    split at h
    · rw [← Option.some.inj h]
      exact List.mem_singleton_self _
    split at h
    · split at h
      · exact absurd h (Option.some_ne_none _).symm
      · obtain ⟨rest, -, rfl⟩ := Option.map_eq_some_iff.mp h
        exact List.mem_append_left _ List.mem_cons_self
    · obtain ⟨rest, -, rfl⟩ := Option.map_eq_some_iff.mp h
      exact List.mem_append_left _ List.mem_cons_self

/-- A percent sign in front of the terminator moves the cursor behind it. -/
theorem cursorNext_at_end {i : ℕ} (hpercent : s.getD i 0 = 37) (hend : i + 1 = s.length)
    (hfits : s.length + 1 < 2 ^ 64) : cursorNext s i = s.length + 1 := by
  have hnot : ¬ PaddedAt s (i + 1) := by
    rintro ⟨hzero, -⟩
    rw [hend, List.getD_eq_default s 0 le_rfl] at hzero
    exact absurd hzero (by decide)
  rw [cursorNext, if_pos hpercent, conversionLength, if_neg hnot, hend]
  show (BitVec.ofNat 64 s.length + 1).toNat = s.length + 1
  rw [BitVec.toNat_add, BitVec.toNat_ofNat]
  show (s.length % 2 ^ 64 + 1) % 2 ^ 64 = s.length + 1
  omega

/-- A run that stays inside has been over a format that fits. -/
theorem formatFits_of_run (h : StringAt m fmt s) (fuel : ℕ) :
    ∀ {i k : ℕ} {es : List KprintfEvent}, i < 2 ^ 64 →
      kprintfLoop m args fuel (fmt + BitVec.ofNat 64 i) k = some es →
      StaysInside fmt s.length es → FormatFits s i := by
  have hfits := h.fits
  induction fuel with
  | zero => exact fun _ hrun => absurd hrun (Option.some_ne_none _).symm
  | succ fuel ih =>
    intro i k es hi hrun hin
    -- the first character that is read is inside the format
    have hle := (h.inside_iff hi).mp (hin _ (kprintfLoop_reads hrun))
    rcases Nat.lt_or_eq_of_le hle with hlt | rfl
    · rw [kprintfLoop_eq h hlt] at hrun
      obtain ⟨piece, hpiece, hrun⟩ := Option.bind_eq_some_iff.mp hrun
      obtain ⟨rest, hrest, rfl⟩ := Option.map_eq_some_iff.mp hrun
      rw [staysInside_append, staysInside_cons] at hin
      obtain ⟨⟨-, hin⟩, hinRest⟩ := hin
      have hnext : cursorNext s i < 2 ^ 64 := cursorNext_lt (by omega)
      have hcursor := (h.inside_iff hnext).mp (hinRest _ (kprintfLoop_reads hrest))
      refine .step hlt (fun hpercent => ⟨?_, ?_⟩) (ih hnext hrest hinRest)
      · -- else the cursor would be behind the terminator
        apply Nat.lt_of_le_of_ne hlt
        intro hend
        rw [cursorNext_at_end hpercent hend (by omega)] at hcursor
        exact absurd hcursor (Nat.not_succ_le_self _)
      · exact (pieceEvents_inside_iff h hlt hpiece).mp hin hpercent
    · exact .stop

/-- The loop returns from every offset that it comes to in a format that fits. -/
theorem run_of_formatFits (h : StringAt m fmt s) (hargs : StringArgs m args s) {i : ℕ}
    (hfit : FormatFits s i) :
    ∀ {k : ℕ}, ComesTo s i k → ∃ bound, ∀ fuel, bound ≤ fuel →
      ∃ es, kprintfLoop m args fuel (fmt + BitVec.ofNat 64 i) k = some es ∧
        StaysInside fmt s.length es := by
  have hfits := h.fits
  induction hfit with
  | stop =>
    intro k _
    refine ⟨1, fun fuel hfuel => ?_⟩
    obtain ⟨fuel, rfl⟩ := Nat.exists_eq_add_of_le' hfuel
    rw [kprintfLoop_end h]
    exact ⟨_, rfl, List.forall_mem_singleton.mpr ((h.inside_iff (by omega)).mpr le_rfl)⟩
  | @step i hi hat _ ih =>
    intro k hcomes
    obtain ⟨bound, hbound⟩ := pieceEvents_returns fmt (hargs i k hcomes)
    obtain ⟨bound', hbound'⟩ := ih (hcomes.step hi)
    refine ⟨max bound bound' + 1, fun fuel hfuel => ?_⟩
    obtain ⟨fuel, rfl⟩ : ∃ f, fuel = f + 1 := Nat.exists_eq_succ_of_ne_zero (by omega)
    have hmax := Nat.le_of_succ_le_succ hfuel
    obtain ⟨piece, hpiece⟩ := hbound fuel (le_of_max_le_left hmax)
    obtain ⟨rest, hrest, hinRest⟩ := hbound' fuel (le_of_max_le_right hmax)
    rw [kprintfLoop_eq h hi, hpiece, Option.bind_some, hrest]
    refine ⟨_, rfl, ?_⟩
    rw [staysInside_append, staysInside_cons]
    refine ⟨⟨(h.inside_iff (by omega)).mpr (Nat.le_of_lt hi), ?_⟩, hinRest⟩
    exact (pieceEvents_inside_iff h hi hpiece).mpr fun hpercent => (hat hpercent).2

/-- On a format with arguments of the right kinds `kprintf` returns, reads no format behind its
terminator and stores inside its arrays, if and only if the format fits. -/
theorem kprintf_inside_iff (h : StringAt m fmt s) (hargs : StringArgs m args s) :
    (∃ fuel es, kprintf m args fuel fmt = some es ∧ StaysInside fmt s.length es) ↔
      FormatFits s 0 := by
  have hstart : fmt = fmt + BitVec.ofNat 64 0 := (BitVec.add_zero _).symm
  constructor
  · rintro ⟨fuel, es, hrun, hin⟩
    rw [kprintf, hstart] at hrun
    exact formatFits_of_run h fuel (by decide) hrun hin
  · intro hfit
    obtain ⟨bound, hbound⟩ := run_of_formatFits h hargs hfit .start
    obtain ⟨es, hrun, hin⟩ := hbound bound le_rfl
    rw [← hstart] at hrun
    exact ⟨bound, es, hrun, hin⟩

end Arrays

def stringBytes (s : List UInt8) : ByteMem := fun a => s.getD a 0

/-- The string `%s` with itself as the argument. -/
theorem kprintf_inside_example :
    (∃ fuel es, kprintf (stringBytes [37, 115]) (fun _ => 0) fuel 0 = some es ∧
      StaysInside 0 2 es) ↔ FormatFits [37, 115] 0 := by
  have hstring : StringAt (stringBytes [37, 115]) 0 [37, 115] :=
    ⟨.cons rfl (by decide) (.cons rfl (by decide) (.nil rfl)), by decide⟩
  exact kprintf_inside_iff hstring fun _ _ _ _ _ => ⟨_, hstring⟩

/-- The string `%` is read behind its terminator, and `%025d` is stored behind the array. -/
theorem kprintf_leaves_format :
    (StringAt (stringBytes [37]) 0 [37] ∧ StringArgs (stringBytes [37]) (fun _ => 0) [37] ∧
      ¬ ∃ fuel es, kprintf (stringBytes [37]) (fun _ => 0) fuel 0 = some es ∧
        StaysInside 0 1 es) ∧
    (StringAt (stringBytes [37, 48, 50, 53, 100]) 0 [37, 48, 50, 53, 100] ∧
      StringArgs (stringBytes [37, 48, 50, 53, 100]) (fun _ => 0) [37, 48, 50, 53, 100] ∧
      ¬ ∃ fuel es, kprintf (stringBytes [37, 48, 50, 53, 100]) (fun _ => 0) fuel 0 = some es ∧
        StaysInside 0 5 es) := by
  constructor
  · have hstring : StringAt (stringBytes [37]) 0 [37] :=
      ⟨.cons rfl (by decide) (.nil rfl), by decide⟩
    refine ⟨hstring, fun _ _ _ _ _ => ⟨_, hstring⟩, ?_⟩
    rintro ⟨fuel, es, hrun, hin⟩
    have hfit : FormatFits [37] 0 := formatFits_of_run hstring fuel (by decide) hrun hin
    cases hfit with
    | step _ hat _ => exact absurd (hat rfl).1 (by decide)
  · have hstring : StringAt (stringBytes [37, 48, 50, 53, 100]) 0 [37, 48, 50, 53, 100] :=
      ⟨.cons rfl (by decide) (.cons rfl (by decide) (.cons rfl (by decide)
        (.cons rfl (by decide) (.cons rfl (by decide) (.nil rfl))))), by decide⟩
    refine ⟨hstring, fun _ _ _ _ _ => ⟨_, hstring⟩, ?_⟩
    rintro ⟨fuel, es, hrun, hin⟩
    have hfit : FormatFits [37, 48, 50, 53, 100] 0 :=
      formatFits_of_run hstring fuel (by decide) hrun hin
    cases hfit with
    | step _ hat _ => exact absurd ((hat rfl).2 (by decide)) (by decide)

section Short

variable {s : List UInt8} {i k : ℕ}

theorem FormatFits.at_comesTo (hfit : FormatFits s 0) (hcomes : ComesTo s i k) :
    FormatFits s i := by
  induction hcomes with
  | start => exact hfit
  | step _ hi ih =>
    cases ih with
    | stop => exact absurd hi (Nat.lt_irrefl _)
    | step _ _ hnext => exact hnext

/-- In a format of less than 2^31 characters the cursor moves on and stays inside. -/
theorem cursorNext_of_short (hlen : s.length < 2 ^ 31) (hi : i < s.length) (hat : FitsAt s i) :
    i < cursorNext s i ∧ cursorNext s i ≤ s.length := by
  unfold cursorNext
  split
  · rename_i hpercent
    have hlt := (hat hpercent).1
    have hnext : ∀ n : ℕ, n < 2 ^ 31 →
        (BitVec.ofNat 64 (i + 1) + (BitVec.ofNat 32 n).signExtend 64).toNat = i + 1 + n := by
      intro n hn
      have hmsb : (BitVec.ofNat 32 n).msb = false := by
        apply BitVec.msb_eq_false_iff_two_mul_lt.mpr
        rw [BitVec.toNat_ofNat]
        omega
      rw [BitVec.signExtend_eq_setWidth_of_msb_false hmsb, BitVec.toNat_add, BitVec.toNat_setWidth,
        BitVec.toNat_ofNat, BitVec.toNat_ofNat]
      omega
    unfold conversionLength
    split
    · rename_i hpad
      -- the `d` of the conversion is a character of the format
      have hd : i + 1 + 1 + (widthDigits s (i + 1 + 1)).length < s.length :=
        lt_of_getD_ne (by rw [hpad.2]; decide)
      rw [show BitVec.ofNat 32 (1 + (widthDigits s (i + 1 + 1)).length) + 1 =
        BitVec.ofNat 32 (1 + (widthDigits s (i + 1 + 1)).length + 1) from
          (BitVec.ofNat_add _ 1).symm, hnext _ (by omega)]
      omega
    · have hone := hnext 1 (by decide)
      rw [show (1 : BitVec 32) = BitVec.ofNat 32 1 from rfl, hone]
      omega
  · omega

/-- A format of less than 2^31 characters fits if every percent sign of it does. -/
theorem formatFits_iff_of_short (hlen : s.length < 2 ^ 31) :
    FormatFits s 0 ↔ ∀ i k, ComesTo s i k → i < s.length → FitsAt s i := by
  constructor
  · intro hfit i k hcomes hi
    cases hfit.at_comesTo hcomes with
    | stop => exact absurd hi (Nat.lt_irrefl _)
    | step _ hat _ => exact hat
  · intro hall
    have hfrom : ∀ n i k, s.length - i = n → i ≤ s.length → ComesTo s i k → FormatFits s i := by
      intro n
      induction n using Nat.strong_induction_on with
      | _ n ih =>
        intro i k hn hle hcomes
        rcases Nat.lt_or_eq_of_le hle with hi | rfl
        · have hat := hall i k hcomes hi
          obtain ⟨hlt, hle'⟩ := cursorNext_of_short hlen hi hat
          exact .step hi hat (ih _ (by omega) _ _ rfl hle' (hcomes.step hi))
        · exact .stop
    exact hfrom _ 0 0 rfl (Nat.zero_le _) .start

end Short

end Rpos
