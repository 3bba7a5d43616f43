import Rpos.Io.Console
import Rpos.Io.Format
import Rpos.User.Printf

/-!
# The output of a program

`printf` of the user library, from a format to the screen. The library has a decoder of its own,
which takes colour sequences out of the text and collects the rest in the print buffer. What the
buffer is written with reaches the console through `sys_write`.
-/

namespace Rpos.Userlib

open Base

/-! ## §1  The library -/

structure Stdio where
  state : AnsiState
  params : Vector UInt8 16
  paramLen : BitVec 32
  cmd : UInt8
  buf : Printing

def start : Stdio := ⟨.ansiNormal, Vector.replicate 16 0, 0, 0, .start⟩

def ansiNormal (s : Stdio) (c : UInt8) : Stdio :=
  if c = 27 then { s with state := .ansiEscape }
  else { s with state := .ansiNormal, buf := bufPutc s.buf c }

def ansiEscape (s : Stdio) (c : UInt8) : Stdio :=
  if c = 91 then { s with state := .ansiParsing, paramLen := 0 }
  else { s with state := .ansiNormal }

/-- `state.params[state.param_len] = c`; `none` outside the array. -/
def storeParam (s : Stdio) (c : UInt8) : Option Stdio :=
  if h : s.paramLen.toNat < 16 then some { s with params := s.params.set s.paramLen.toNat c h }
  else none

def ansiParsing (s : Stdio) (c : UInt8) : Option Stdio :=
  if c = 109 then
    (storeParam { s with cmd := 109 } 0).map fun s => { s with state := .ansiEndParsing }
  else if (48 ≤ c ∧ c ≤ 57 ∨ c = 59) ∧ s.paramLen.signExtend 64 < 15 then
    (storeParam s c).map fun s => { s with state := .ansiParsing, paramLen := s.paramLen + 1 }
  else some { s with state := .ansiNormal, paramLen := 0 }

/-- `ansi_end_escape`. The parameters are read and not used. -/
def ansiEndEscape (s : Stdio) : Option Stdio :=
  (parseParams 5 s.params.toList).map fun _ => { s with state := .ansiNormal }

def ansiDecoder (s : Stdio) (c : UInt8) : Option Stdio :=
  match s.state with
  | .ansiEscape => some (ansiEscape s c)
  | .ansiParsing => ansiParsing s c
  | .ansiEndParsing => (ansiEndEscape s).map fun s => ansiNormal s c
  | .ansiNormal => some (ansiNormal s c)

/-- The `switch` of `expand`. Doubles are left out: there is no result for `%f`. -/
def convert (m : ByteMem) (args : ℕ → Word) (fuel : ℕ) (c : UInt8) (k : ℕ) :
    Option (List KprintfEvent × ℕ) :=
  if c = 102 then none else Rpos.convert m args fuel c k

def expand (m : ByteMem) (args : ℕ → Word) (fuel : ℕ) (s : Word) (k : ℕ) :
    Option (List KprintfEvent × BitVec 32 × ℕ) :=
  (convert m args fuel (m s.toNat) k).map fun r => (.format s :: r.1, 1, r.2)

/-- The loop of `printf` from `ptr` on, with `k` arguments taken. -/
def printfLoop (m : ByteMem) (args : ℕ → Word) : ℕ → Word → ℕ → Option (List KprintfEvent)
  | 0, _, _ => none
  | fuel + 1, ptr, k =>
      if m ptr.toNat = 0 then some [.format ptr]
      else if m ptr.toNat = 37 then
        match expand m args fuel (ptr + 1) k with
        | none => none
        | some (es, consumed, k) =>
            (printfLoop m args fuel (ptr + 1 + consumed.signExtend 64) k).map
              fun rest => .format ptr :: es ++ rest
      else
        (printfLoop m args fuel (ptr + 1) k).map
          fun rest => .format ptr :: [.decode (m ptr.toNat)] ++ rest

/-- `printf`: the characters that the conversions emit go to the decoder. -/
def printf (m : ByteMem) (args : ℕ → Word) (fuel : ℕ) (s : Stdio) (formatStr : Word) :
    Option Stdio :=
  (printfLoop m args fuel formatStr 0).bind fun es => (decoded es).foldlM ansiDecoder s

/-! ## §2  Calls -/

def Unpadded : FormatItem → Prop
  | .padded _ => False
  | _ => True

/-- A call of `printf`, with the memory of the program at that time. -/
structure PrintfCall where
  mem : ByteMem
  args : ℕ → Word
  format : Word
  items : List FormatItem
  unpadded : ∀ item ∈ items, Unpadded item
  format_at : StringAt mem format (items.flatMap FormatItem.chars)
  length_lt : (items.flatMap FormatItem.chars).length < 2 ^ 31
  printable : FormatPrintable mem args 0 items

def printfAll (fuel : ℕ) (calls : List PrintfCall) : Option Stdio :=
  calls.foldlM (fun s call => printf call.mem call.args fuel s call.format) start

inductive ProgramPrints : List PrintfCall → List UInt8 → Prop
  | nil : ProgramPrints [] []
  | cons {call : PrintfCall} {calls : List PrintfCall} {text cs : List UInt8} :
      FormatPrints call.mem call.args 0 call.items text → ProgramPrints calls cs →
      ProgramPrints (call :: calls) (text ++ cs)

/-! ## §3  The decoder -/

section Decoder

variable {font : ℕ → UInt8} {s : Stdio} {cli : Cli} {d : AnsiDecoder} {c : UInt8}

def Stdio.kernel (s : Stdio) (cli : Cli) : AnsiDecoder :=
  ⟨s.state, s.params, s.paramLen, s.cmd, cli⟩

/-- The library has taken the step of the kernel's decoder, and the characters that this passed
on are in the buffer. -/
structure Follows (s : Stdio) (out : List Printed) (d : AnsiDecoder) (t : Stdio) : Prop where
  kernel : t.kernel d.cli = d
  buf : t.buf = (out.map Printed.char).foldl bufPutc s.buf

theorem ansiNormal_follows {out : List Printed}
    (h : Rpos.ansiNormal false font (s.kernel cli) c = (out, d)) :
    Follows s out d (ansiNormal s c) := by
  unfold Rpos.ansiNormal at h
  unfold ansiNormal
  split_ifs at h ⊢
  · obtain ⟨rfl, rfl⟩ := Prod.mk.inj h
    exact ⟨rfl, rfl⟩
  · obtain ⟨rfl, rfl⟩ := Prod.mk.inj h
    exact ⟨rfl, rfl⟩

theorem ansiEscape_follows :
    Follows s [] (Rpos.ansiEscape (s.kernel cli) c) (ansiEscape s c) := by
  unfold Rpos.ansiEscape ansiEscape
  split_ifs <;> exact ⟨rfl, rfl⟩

theorem storeParam_follows (h : Rpos.storeParam (s.kernel cli) c = some d) :
    ∃ t, storeParam s c = some t ∧ Follows s [] d t := by
  unfold Rpos.storeParam at h
  split_ifs at h with hlt
  obtain rfl := Option.some.inj h
  exact ⟨_, dif_pos hlt, rfl, rfl⟩

theorem ansiParsing_follows (h : Rpos.ansiParsing (s.kernel cli) c = some d) :
    ∃ t, ansiParsing s c = some t ∧ Follows s [] d t := by
  unfold Rpos.ansiParsing at h
  unfold ansiParsing
  by_cases hend : c = 109
  · rw [if_pos hend] at h ⊢
    obtain ⟨e, hstore, rfl⟩ := Option.map_eq_some_iff.mp h
    obtain ⟨t, ht, hkernel, hbuf⟩ := storeParam_follows (s := { s with cmd := 109 }) hstore
    rw [ht]
    refine ⟨_, rfl, ?_, hbuf⟩
    rw [← hkernel]
    rfl
  · rw [if_neg hend] at h ⊢
    by_cases hroom : (48 ≤ c ∧ c ≤ 57 ∨ c = 59) ∧ s.paramLen.signExtend 64 < 15
    · rw [if_pos hroom]
      rw [if_pos (show _ ∧ (s.kernel cli).paramLen.signExtend 64 < 15 from hroom)] at h
      obtain ⟨e, hstore, rfl⟩ := Option.map_eq_some_iff.mp h
      obtain ⟨t, ht, hkernel, hbuf⟩ := storeParam_follows hstore
      rw [ht]
      refine ⟨_, rfl, ?_, hbuf⟩
      rw [← hkernel]
      rfl
    · rw [if_neg hroom]
      rw [if_neg (show ¬ (_ ∧ (s.kernel cli).paramLen.signExtend 64 < 15) from hroom)] at h
      obtain rfl := Option.some.inj h
      exact ⟨_, rfl, rfl, rfl⟩

theorem ansiEndEscape_follows (h : Rpos.ansiEndEscape (s.kernel cli) = some d) :
    ∃ t, ansiEndEscape s = some t ∧ Follows s [] d t := by
  obtain ⟨params, hparams, rfl⟩ := Option.map_eq_some_iff.mp h
  unfold ansiEndEscape
  rw [show parseParams 5 s.params.toList = some params from hparams]
  exact ⟨_, rfl, rfl, rfl⟩

theorem Follows.trans {t u : Stdio} {d' : AnsiDecoder} {out out' : List Printed}
    (h : Follows s out d t) (h' : Follows t out' d' u) : Follows s (out ++ out') d' u := by
  refine ⟨h'.kernel, ?_⟩
  rw [h'.buf, h.buf, List.map_append, List.foldl_append]

theorem ansiDecoder_follows {out : List Printed}
    (h : Rpos.ansiDecoder false font (s.kernel cli) c = some (out, d)) :
    ∃ t, ansiDecoder s c = some t ∧ Follows s out d t := by
  unfold Rpos.ansiDecoder at h
  unfold ansiDecoder
  cases hstate : s.state with
  | ansiEscape =>
    rw [show (s.kernel cli).state = .ansiEscape from hstate] at h
    obtain ⟨rfl, rfl⟩ := Prod.mk.inj (Option.some.inj h)
    exact ⟨_, rfl, ansiEscape_follows⟩
  | ansiNormal =>
    rw [show (s.kernel cli).state = .ansiNormal from hstate] at h
    exact ⟨_, rfl, ansiNormal_follows (Option.some.inj h)⟩
  | ansiParsing =>
    rw [show (s.kernel cli).state = .ansiParsing from hstate] at h
    obtain ⟨e, hparsing, heq⟩ := Option.map_eq_some_iff.mp h
    obtain ⟨rfl, rfl⟩ := Prod.mk.inj heq
    exact ansiParsing_follows hparsing
  | ansiEndParsing =>
    rw [show (s.kernel cli).state = .ansiEndParsing from hstate] at h
    obtain ⟨e, hend, heq⟩ := Option.map_eq_some_iff.mp h
    obtain ⟨t, ht, hfollows⟩ := ansiEndEscape_follows hend
    dsimp only
    rw [ht]
    rw [← hfollows.kernel] at heq
    exact ⟨_, rfl, hfollows.trans (ansiNormal_follows heq)⟩

theorem foldlM_follows (cs : List UInt8) :
    ∀ {s : Stdio} {cli : Cli} {printed : List Printed},
      feed false font (s.kernel cli) cs = some (printed, d) →
      ∃ t, cs.foldlM ansiDecoder s = some t ∧ Follows s printed d t := by
  induction cs with
  | nil =>
    intro s cli printed h
    obtain ⟨rfl, rfl⟩ := Prod.mk.inj (Option.some.inj h)
    exact ⟨s, rfl, rfl, rfl⟩
  | cons c cs ih =>
    intro s cli printed h
    cases hstep : Rpos.ansiDecoder false font (s.kernel cli) c with
    | none => simp [feed, exec, hstep] at h
    | some r =>
      obtain ⟨out, e⟩ := r
      rw [feed_cons cs hstep] at h
      obtain ⟨⟨rest, d'⟩, hrest, heq⟩ := Option.map_eq_some_iff.mp h
      obtain ⟨rfl, rfl⟩ := Prod.mk.inj heq
      obtain ⟨t, ht, hfollows⟩ := ansiDecoder_follows hstep
      rw [← hfollows.kernel] at hrest
      obtain ⟨u, hu, hfollows'⟩ := ih hrest
      rw [List.foldlM_cons, ht]
      exact ⟨u, hu, hfollows.trans hfollows'⟩

/-- From its start the decoder keeps the plain characters of a stream. -/
theorem foldlM_items (items : List AnsiItem) :
    ∃ t, (items.flatMap AnsiItem.chars).foldlM ansiDecoder start = some t ∧
      t.buf = (plainChars items).foldl bufPutc .start := by
  have hcolors : Shows (start.kernel (cliStart fun _ => 0))
      ⟨defaultTextColor, defaultBackgroundColor⟩ := Or.inl ⟨rfl, rfl⟩
  obtain ⟨d, hfeed⟩ := feed_items false (fun _ => 0) items hcolors
  obtain ⟨t, ht, hfollows⟩ := foldlM_follows _ hfeed
  refine ⟨t, ht, ?_⟩
  rw [hfollows.buf, render_map_char]
  rfl

end Decoder

/-! ## §4  Formats -/

section Formats

variable {m : ByteMem} {args : ℕ → Word} {fmt : Word} {s : List UInt8}

theorem expand_eq {fuel k : ℕ} {p : Word} (hpad : m p.toNat ≠ 48) (hdouble : m p.toNat ≠ 102) :
    Rpos.expand m args fuel p k =
      (convert m args fuel (m p.toNat) k).map fun r => (.format p :: r.1, 1, r.2) := by
  rw [convert, if_neg hdouble, Rpos.expand, if_neg hpad]
  rfl

/-- A piece is a character, or a percent sign and the letter of a conversion. -/
theorem chars_unpadded {item : FormatItem} (h : Unpadded item) :
    (∃ c, c ≠ 37 ∧ item.chars = [c]) ∨ ∃ c, c ≠ 48 ∧ c ≠ 102 ∧ item.chars = [37, c] := by
  cases item with
  | plain c => exact Or.inl ⟨c.1, c.2, rfl⟩
  | percent => exact Or.inr ⟨37, by decide, by decide, rfl⟩
  | conversion v => exact Or.inr ⟨v.code, v.code_ne, by cases v <;> decide, rfl⟩
  | padded width => exact absurd h id

theorem printfLoop_eq (hfmt : StringAt m fmt s) (fuel : ℕ) :
    ∀ {items : List FormatItem} {i k : ℕ}, (∀ item ∈ items, Unpadded item) →
      s.drop i = items.flatMap FormatItem.chars → i ≤ s.length →
      printfLoop m args fuel (fmt + BitVec.ofNat 64 i) k =
        kprintfLoop m args fuel (fmt + BitVec.ofNat 64 i) k := by
  induction fuel with
  | zero => exact fun _ _ _ => rfl
  | succ fuel ih =>
    intro items i k hitems hs hi
    rw [printfLoop, kprintfLoop, hfmt.load hi]
    by_cases hzero : s.getD i 0 = 0
    · rw [if_pos hzero, if_pos hzero]
    rw [if_neg hzero, if_neg hzero, add_ofNat_succ]
    cases items with
    | nil => exact absurd (List.getD_eq_default _ _ (List.drop_eq_nil_iff.mp hs)) hzero
    | cons item items =>
      obtain ⟨hitem, hrest⟩ := List.forall_mem_cons.mp hitems
      rw [List.flatMap_cons] at hs
      have hlength := congrArg List.length hs
      rw [List.length_drop, List.length_append] at hlength
      have hnext : s.drop (i + item.chars.length) = items.flatMap FormatItem.chars := by
        rw [← List.drop_drop, hs, List.drop_left]
      have hat := getD_drop hs
      have hfirst := hat 0
      rw [Nat.add_zero] at hfirst
      obtain ⟨c, hc, hchars⟩ | ⟨c, hpad, hdouble, hchars⟩ := chars_unpadded hitem
      · rw [hchars] at hfirst hlength hnext
        rw [if_neg (hfirst.trans_ne hc), if_neg (hfirst.trans_ne hc)]
        rw [List.length_singleton] at hlength
        have hchar : s.drop (i + 1) = items.flatMap FormatItem.chars := hnext
        rw [ih hrest hchar (by omega)]
      · rw [hchars] at hat hfirst hlength hnext
        rw [List.length_cons, List.length_singleton] at hlength
        have hload : m (fmt + BitVec.ofNat 64 (i + 1)).toNat = c :=
          (hfmt.load (by omega)).trans (hat 1)
        have hpercent : s.getD i 0 = 37 := hfirst
        rw [if_pos hpercent, if_pos hpercent, expand,
          expand_eq (hload.trans_ne hpad) (hload.trans_ne hdouble)]
        cases convert m args fuel (m (fmt + BitVec.ofNat 64 (i + 1)).toNat) k with
        | none => rfl
        | some r =>
          show (printfLoop m args fuel (fmt + BitVec.ofNat 64 (i + 1) + 1) r.2).map _ =
            (kprintfLoop m args fuel (fmt + BitVec.ofNat 64 (i + 1) + 1) r.2).map _
          have hletter : s.drop (i + 1 + 1) = items.flatMap FormatItem.chars := hnext
          rw [add_ofNat_succ, ih hrest hletter (by omega)]

end Formats

/-! ## §5  Programs -/

section Programs

theorem plainChars_ne {items : List AnsiItem} {c : UInt8} (hc : c ∈ plainChars items) : c ≠ 27 := by
  obtain ⟨item, -, hitem⟩ := List.mem_filterMap.mp hc
  cases item with
  | plain d =>
    obtain rfl := Option.some.inj hitem
    exact d.2
  | sequence w => exact absurd hitem (Option.some_ne_none c).symm

/-- Characters without an escape are a stream of plain pieces. -/
theorem plain_items {cs : List UInt8} (hcs : ∀ c ∈ cs, c ≠ 27) :
    ∃ items : List AnsiItem, items.flatMap AnsiItem.chars = cs ∧
      ∀ colors, render codeColors colors items = cs.map fun c => ⟨c, colors⟩ := by
  induction cs with
  | nil => exact ⟨[], rfl, fun _ => rfl⟩
  | cons c cs ih =>
    obtain ⟨hc, hrest⟩ := List.forall_mem_cons.mp hcs
    obtain ⟨items, hchars, hrender⟩ := ih hrest
    refine ⟨.plain ⟨c, hc⟩ :: items, ?_, fun colors => ?_⟩
    · rw [List.flatMap_cons, hchars]
      rfl
    · exact congrArg (⟨c, colors⟩ :: ·) (hrender colors)

theorem printf_eq (call : PrintfCall) {text : List UInt8}
    (htext : FormatPrints call.mem call.args 0 call.items text) :
    ∃ bound, ∀ fuel, bound ≤ fuel → ∀ s : Stdio,
      printf call.mem call.args fuel s call.format = text.foldlM ansiDecoder s := by
  obtain ⟨bound, hbound⟩ := kprintfLoop_prints call.format_at call.length_lt call.items
    List.drop_zero (Nat.zero_le _) call.printable
  refine ⟨bound, fun fuel hfuel s => ?_⟩
  obtain ⟨es, hrun, hdecoded⟩ := hbound fuel hfuel
  rw [← printfLoop_eq call.format_at fuel call.unpadded List.drop_zero (Nat.zero_le _),
    show call.format + BitVec.ofNat 64 0 = call.format from BitVec.add_zero _] at hrun
  rw [printf, hrun, Option.bind_some, hdecoded.unique htext]

/-- The characters of the calls go to the decoder one after the other. -/
theorem printfAll_eq {calls : List PrintfCall} {text : List UInt8}
    (htext : ProgramPrints calls text) :
    ∃ bound, ∀ fuel, bound ≤ fuel → ∀ s : Stdio,
      calls.foldlM (fun s call => printf call.mem call.args fuel s call.format) s =
        text.foldlM ansiDecoder s := by
  induction htext with
  | nil => exact ⟨0, fun _ _ _ => rfl⟩
  | @cons call calls text cs hprints _ ih =>
    obtain ⟨bound, hbound⟩ := ih
    obtain ⟨bound', hbound'⟩ := printf_eq call hprints
    refine ⟨max bound bound', fun fuel hfuel s => ?_⟩
    rw [List.foldlM_cons, List.foldlM_append, hbound' fuel (le_of_max_le_right hfuel)]
    cases text.foldlM ansiDecoder s with
    | none => rfl
    | some t => exact hbound fuel (le_of_max_le_left hfuel) t

/-! ### A line at a time -/

structure Stdio.Idle (s : Stdio) : Prop where
  state : s.state = .ansiNormal
  buf : s.buf.Idle

/-- A character of a line that neither ends the string, nor is a tab, nor means anything to the
decoders or to `kprintf`. -/
def Echoed (c : UInt8) : Prop := c ≠ 0 ∧ c ≠ 9 ∧ c ≠ 27 ∧ c ≠ 37

instance (c : UInt8) : Decidable (Echoed c) := inferInstanceAs (Decidable (_ ∧ _ ∧ _ ∧ _))

/-- The text is tested character by character. -/
theorem echoed_of_all {cs : List UInt8} (h : cs.all (fun c => decide (Echoed c)) = true) :
    ∀ c ∈ cs, Echoed c :=
  fun c hc => of_decide_eq_true (List.all_eq_true.mp h c hc)

/-- From `s` to `t` the text has been handed to `SYS_WRITE`, which passes it on as it stands; and
a console that it is fed to shows it on its page and writes to no pixel behind the frame buffer. -/
def Outputs (s t : Stdio) (text : List UInt8) : Prop :=
  ∃ written strs, t.buf.written = s.buf.written ++ written ∧ List.Forall₂ Prints written strs ∧
    strs.flatten = text ∧
    ∀ (font : ℕ → UInt8) (d : AnsiDecoder) (colors : Colors) (p : Page TextCell),
      Shows d colors → ShowsPage font d.cli p → ∃ page printed d',
        (text.map fun c => Printed.mk c colors).foldlM Page.print p = some page ∧
        exec (feed true font) d strs = some (printed, d') ∧ ShowsPage font d'.cli page ∧
        SameBehind d.cli d'.cli

/-- Between sequences the decoder passes on what is no escape. -/
theorem foldlM_plain {s : Stdio} (hstate : s.state = .ansiNormal) {cs : List UInt8}
    (hcs : ∀ c ∈ cs, c ≠ 27) :
    cs.foldlM ansiDecoder s = some { s with buf := cs.foldl bufPutc s.buf } := by
  induction cs generalizing s with
  | nil => rfl
  | cons c cs ih =>
    obtain ⟨hc, hrest⟩ := List.forall_mem_cons.mp hcs
    have hstep : ansiDecoder s c =
        some { s with state := .ansiNormal, buf := bufPutc s.buf c } := by
      rw [ansiDecoder, hstate]
      exact congrArg some (if_neg hc)
    rw [List.foldlM_cons, hstep, ← hstate]
    exact ih hstate hrest

theorem print_page {cs : List Printed} (hcs : ∀ c ∈ cs, c.char ≠ 9) (p : Page TextCell) :
    ∃ page, cs.foldlM Page.print p = some page := by
  induction cs generalizing p with
  | nil => exact ⟨p, rfl⟩
  | cons c cs ih =>
    obtain ⟨hc, hrest⟩ := List.forall_mem_cons.mp hcs
    obtain ⟨q, hq⟩ : ∃ q, p.print c = some q := by
      unfold Page.print
      rw [if_neg hc]
      split_ifs <;> exact ⟨_, rfl⟩
    rw [List.foldlM_cons, hq]
    exact ih hrest q

/-- A line is output by the call that prints it, and the library is as before it. -/
theorem printf_line (call : PrintfCall) {text : List UInt8} {s : Stdio} (hidle : s.Idle)
    (htext : FormatPrints call.mem call.args 0 call.items text) (hechoed : ∀ c ∈ text, Echoed c)
    (hlast : text.getLast? = some 10) :
    ∃ t, t.Idle ∧ Outputs s t text ∧ ∃ bound, ∀ fuel, bound ≤ fuel →
      printf call.mem call.args fuel s call.format = some t := by
  obtain ⟨bound, hbound⟩ := printf_eq call htext
  have hplain : ∀ c ∈ text, c ≠ 27 := fun c hc => (hechoed c hc).2.2.1
  obtain ⟨hbuf, written, strs, hwritten, hprints, hseq⟩ := hidle.buf.line
    (fun c hc => (hechoed c hc).1) (fun hmem => (hechoed 37 hmem).2.2.2 rfl) hlast
  refine ⟨{ s with buf := text.foldl bufPutc s.buf }, ⟨hidle.state, hbuf⟩,
    ⟨written, strs, hwritten, hprints, hseq, ?_⟩, bound, fun fuel hfuel => ?_⟩
  · intro font d colors p hcolors hpage
    obtain ⟨items, hchars, hrender⟩ := plain_items hplain
    have htabs : ∀ c ∈ text.map fun c => Printed.mk c colors, c.char ≠ 9 := by
      intro c hc
      obtain ⟨d, hd, rfl⟩ := List.mem_map.mp hc
      exact (hechoed d hd).2.1
    obtain ⟨page, htypeset⟩ := print_page htabs p
    have htypeset' := htypeset
    rw [← hrender colors] at htypeset'
    obtain ⟨printed, d', hexec, hshows, hbehind⟩ :=
      chunks_show hcolors hpage (hseq.trans hchars.symm) htypeset'
    exact ⟨page, printed, d', htypeset, hexec, hshows, hbehind⟩
  · rw [hbound fuel hfuel, foldlM_plain hidle.state hplain]

/-- The text of a program reaches the console: the calls return, the print buffer has been
written with strings that make up the plain characters of the text up to those that are pending,
each of them is passed on by `sys_write`, and a console that they are fed to shows them typeset
on its page in the colours that are set there. A newline at the end leaves nothing pending. -/
theorem printf_shows (calls : List PrintfCall) (items : List AnsiItem)
    (htext : ProgramPrints calls (items.flatMap AnsiItem.chars))
    (hzero : (0 : UInt8) ∉ plainChars items) (hpercent : (37 : UInt8) ∉ plainChars items) :
    ∃ fuel t strs, printfAll fuel calls = some t ∧ List.Forall₂ Prints t.buf.written strs ∧
      strs.flatten ++ t.buf.pending = plainChars items ∧
      ((plainChars items).getLast? = some 10 → t.buf.pending = []) ∧
      ∀ (font : ℕ → UInt8) (d : AnsiDecoder) (colors : Colors) (p page : Page TextCell),
        Shows d colors → ShowsPage font d.cli p →
        (strs.flatten.map fun c => Printed.mk c colors).foldlM Page.print p = some page →
        ∃ printed d', exec (feed true font) d strs = some (printed, d') ∧
          ShowsPage font d'.cli page := by
  obtain ⟨bound, hbound⟩ := printfAll_eq htext
  obtain ⟨t, ht, hbuf⟩ := foldlM_items items
  have hrun : printfAll bound calls = some t := (hbound bound le_rfl start).trans ht
  have hne : ∀ c ∈ plainChars items, c ≠ 0 := fun c hc hzero' => hzero (hzero' ▸ hc)
  obtain ⟨strs, hwritten, hseq⟩ := bufPutc_prints hne hpercent hbuf.symm
  refine ⟨bound, t, strs, hrun, hwritten, hseq, ?_, ?_⟩
  · intro hlast
    obtain ⟨init, hinit⟩ := List.getLast?_eq_some_iff.mp hlast
    have hpos : t.buf.pos = 0 := by
      rw [hbuf, hinit, List.foldl_append, List.foldl_cons, List.foldl_nil]
      exact Printing.bufPutc_newline _
    rw [Printing.pending, hpos]
    rfl
  · intro font d colors p page hcolors hpage htypeset
    have hplain : ∀ c ∈ strs.flatten, c ≠ 27 := by
      intro c hc
      apply plainChars_ne
      rw [← hseq]
      exact List.mem_append_left _ hc
    obtain ⟨pieces, hchars, hrender⟩ := plain_items hplain
    rw [← hrender colors] at htypeset
    obtain ⟨printed, d', hexec, hshows, -⟩ := chunks_show hcolors hpage hchars.symm htypeset
    exact ⟨printed, d', hexec, hshows⟩

end Programs

/-- A sequence for red, a `%d` for 7 and a newline. -/
def redCall : PrintfCall where
  mem := stringBytes [27, 91, 51, 49, 109, 37, 100, 10]
  args := fun _ => 7
  format := 0
  items := [.plain ⟨27, by decide⟩, .plain ⟨91, by decide⟩, .plain ⟨51, by decide⟩,
    .plain ⟨49, by decide⟩, .plain ⟨109, by decide⟩, .conversion .int, .plain ⟨10, by decide⟩]
  unpadded := by simp [Unpadded]
  format_at := by
    refine ⟨?_, by decide⟩
    exact .cons rfl (by decide) (.cons rfl (by decide) (.cons rfl (by decide)
      (.cons rfl (by decide) (.cons rfl (by decide) (.cons rfl (by decide)
        (.cons rfl (by decide) (.cons rfl (by decide) (.nil rfl))))))))
  length_lt := (by decide : 8 < 2 ^ 31)
  printable := ⟨trivial, trivial, trivial, trivial, trivial,
    (by decide : (7 : Word).setWidth 32 ≠ BitVec.intMin 32), trivial, trivial⟩

/-- The number is printed, and the sequence is not. -/
theorem printf_shows_red : ∃ fuel t strs, printfAll fuel [redCall] = some t ∧
    List.Forall₂ Prints t.buf.written strs ∧ strs.flatten = [55, 10] := by
  have hred : ∀ c ∈ ([51, 49] : List UInt8), IsParamChar c :=
    List.forall_mem_cons.mpr ⟨Or.inl (by decide), List.forall_mem_singleton.mpr
      (Or.inl (by decide))⟩
  have hseven : DecimalForm 7 [55] :=
    ⟨[7], ⟨List.cons_ne_nil _ _, List.forall_mem_singleton.mpr (by decide),
      fun hlong => absurd hlong (by decide), Nat.ofDigits_singleton⟩, rfl⟩
  have htext : ProgramPrints [redCall]
      (([27] ++ ([91] ++ ([51] ++ ([49] ++ ([109] ++ ([55] ++ ([10] ++ []))))))) ++ []) :=
    .cons (.cons rfl (.cons rfl (.cons rfl (.cons rfl (.cons rfl (.cons hseven (.cons rfl
      (.nil _)))))))) .nil
  obtain ⟨fuel, t, strs, hrun, hwritten, hseq, hlast, -⟩ :=
    printf_shows [redCall] [.sequence ⟨[51, 49], by decide, hred⟩, .plain ⟨55, by decide⟩,
      .plain ⟨10, by decide⟩] htext (show (0 : UInt8) ∉ [55, 10] by decide)
      (show (37 : UInt8) ∉ [55, 10] by decide)
  rw [hlast rfl, List.append_nil] at hseq
  exact ⟨fuel, t, strs, hrun, hwritten, hseq⟩

end Rpos.Userlib
