import Mathlib.Data.List.Forall2
import Mathlib.Data.List.GetD
import Mathlib.Logic.Function.Basic
import Rpos.Base.CString
import Rpos.Base.Runs
import Rpos.User.Output

/-!
# The lines of the shell

`commandline` and `process_command` of `jsh`. Keys are read into an array on the stack, with
backspaces. At the end of a line a child puts the line behind `/bin/`, prints what it is about
to open and executes that.
-/

namespace Rpos

open Base ByteMem

/-! ## §1  The shell -/

/-- `/bin/`, at the start of `path`. -/
def binPrefix : List UInt8 := [47, 98, 105, 110, 47]

/-- `Attempting to open binary '`. -/
def attemptText : List UInt8 :=
  [65, 116, 116, 101, 109, 112, 116, 105, 110, 103, 32, 116, 111, 32, 111, 112, 101, 110, 32,
    98, 105, 110, 97, 114, 121, 32, 39]

theorem attemptText_echoed : ∀ c ∈ attemptText, Userlib.Echoed c := Userlib.echoed_of_all rfl

theorem quotation_plain : (39 : UInt8) ≠ 37 := by decide

theorem newline_plain : (10 : UInt8) ≠ 37 := by decide

/-- The format of `process_command`: the text, `%s`, a quotation mark and a newline. -/
def attemptItems : List FormatItem :=
  attemptText.pmap (fun c h => .plain ⟨c, h⟩) (fun c hc => (attemptText_echoed c hc).2.2.2) ++
    [.conversion .string, .plain ⟨39, quotation_plain⟩, .plain ⟨10, newline_plain⟩]

def attempting (path : List UInt8) : List UInt8 := attemptText ++ (path ++ [39, 10])

/-- Where the program has `buf` of `commandline`, `path`, and the format. -/
structure JshLayout where
  buf : ℕ
  path : ℕ
  format : Word

/-- The memory of the shell, `cmdptr` of `commandline`, and the globals of `printf`. -/
structure Shell where
  mem : ByteMem
  cmdptr : ℕ
  stdio : Userlib.Stdio

/-- A child of the shell that is about to call `SYS_EXECVE` on `path`. -/
structure JshChild where
  mem : ByteMem
  stdio : Userlib.Stdio

/-- `while(*copy) *destcopy++ = *copy++`. -/
def copyCommand : ℕ → ByteMem → ℕ → ℕ → Option ByteMem
  | 0, _, _, _ => none
  | fuel + 1, m, copy, destcopy =>
      if m copy = 0 then some m
      else copyCommand fuel (Function.update m destcopy (m copy)) (copy + 1) (destcopy + 1)

/-- `process_command`, in the child up to `SYS_EXECVE`. The shell waits for it and keeps its own
memory. -/
def processCommand (j : JshLayout) (fuel : ℕ) (s : Shell) (cmd : ℕ) : Option JshChild := do
  let m ← copyCommand fuel s.mem cmd (j.path + 5)
  let stdio ← Userlib.printf m (fun _ => BitVec.ofNat 64 j.path) fuel s.stdio j.format
  some ⟨m, stdio⟩

/-- A round of the loop of `commandline`, in which `SYS_READ` stores the key `c`, with the child
if one is started. -/
def commandlineKey (j : JshLayout) (fuel : ℕ) (s : Shell) (c : UInt8) :
    Option (Option JshChild × Shell) :=
  let m := Function.update s.mem s.cmdptr c
  if c = 13 ∨ c = 10 then
    let s := { s with mem := Function.update m s.cmdptr 0 }
    (processCommand j fuel s j.buf).map fun child => (some child, { s with cmdptr := j.buf })
  else if c = 127 then some (none, { s with mem := m, cmdptr := max (s.cmdptr - 1) j.buf })
  else some (none, { s with mem := Function.update m s.cmdptr c, cmdptr := s.cmdptr + 1 })

/-! ## §2  Lines -/

def editKey (line : List UInt8) (c : UInt8) : List UInt8 :=
  if c = 13 ∨ c = 10 then []
  else if c = 127 then line.dropLast
  else line ++ [c]

def editStep (line : List UInt8) (c : UInt8) : Option (Option (List UInt8) × List UInt8) :=
  some (if c = 13 ∨ c = 10 then some line else none, editKey line c)

/-- The child says what it opens and executes the line in `/bin/`. Outside of the two arrays and
of the print buffer its memory is that of the shell at the start. -/
structure Executes (j : JshLayout) (s₀ : Shell) (child : JshChild) (line : List UInt8) :
    Prop where
  command : CStr child.mem j.path (binPrefix ++ line)
  outside : ∀ a, a < j.buf ∨ j.buf + 1024 ≤ a → a < j.path ∨ j.path + 1024 ≤ a →
    child.mem a = s₀.mem a
  output : Userlib.Outputs s₀.stdio child.stdio (attempting (binPrefix ++ line))
  stores : ∀ i ∈ child.stdio.buf.stores, i < 2048

/-- The shell comes to `commandline`: `buf` and `path` are arrays of 1024 bytes apart from each
other and from the format, and the lines that `main` has printed are written. -/
structure JshLayout.Started (j : JshLayout) (s₀ : Shell) : Prop where
  cmdptr : s₀.cmdptr = j.buf
  apart : j.buf + 1024 ≤ j.path ∨ j.path + 1024 ≤ j.buf
  fits : j.path + 1024 < 2 ^ 64
  path : ∀ i, i < 1024 → s₀.mem (j.path + i) = binPrefix.getD i 0
  format : StringAt s₀.mem j.format (attemptItems.flatMap FormatItem.chars)
  constant : ∀ i, i < 32 → (j.format.toNat + i < j.buf ∨ j.buf + 1024 ≤ j.format.toNat + i) ∧
    (j.format.toNat + i < j.path ∨ j.path + 1024 ≤ j.format.toNat + i)
  idle : s₀.stdio.Idle

/-- The line stands in the array, up to `cmdptr`. -/
structure Typing (j : JshLayout) (s₀ s : Shell) (line : List UInt8) : Prop where
  cmdptr : s.cmdptr = j.buf + line.length
  typed : ∀ i, i < line.length → s.mem (j.buf + i) = line.getD i 0
  echoed : ∀ c ∈ line, Userlib.Echoed c
  outside : ∀ a, a < j.buf ∨ j.buf + 1024 ≤ a → s.mem a = s₀.mem a
  stdio : s.stdio = s₀.stdio

section Shell

variable {j : JshLayout} {m : ByteMem} {fuel : ℕ} {s₀ s : Shell} {line : List UInt8} {c : UInt8}

/-- A string is copied to where it does not overlap with itself. -/
theorem copyCommand_eq {cs : List UInt8} {copy destcopy : ℕ} (h : CStr m copy cs)
    (hapart : copy + cs.length < destcopy ∨ destcopy + cs.length ≤ copy)
    (hfuel : cs.length < fuel) :
    copyCommand fuel m copy destcopy =
      some (m.store destcopy cs.length fun i => cs.getD i 0) := by
  induction cs generalizing m copy destcopy fuel with
  | nil =>
    obtain ⟨fuel, rfl⟩ := Nat.exists_eq_succ_of_ne_zero (Nat.ne_of_gt hfuel)
    rw [copyCommand, if_pos (show m copy = 0 from h.terminator), List.length_nil, store_zero]
  | cons c cs ih =>
    obtain ⟨fuel, rfl⟩ := Nat.exists_eq_succ_of_ne_zero (Nat.ne_of_gt (Nat.zero_lt_of_lt hfuel))
    obtain _ | ⟨hc, hne, hrest⟩ := h
    rw [List.length_cons] at hapart hfuel
    have hcopied : CStr (Function.update m destcopy c) (copy + 1) cs := by
      apply hrest.copy
      intro i hi
      exact Function.update_of_ne (by omega) _ _
    rw [copyCommand, hc, if_neg hne, ih hcopied (by omega) (by omega)]
    congr 1
    funext a
    unfold store
    rw [List.length_cons]
    by_cases hfirst : a = destcopy
    · rw [if_neg (by omega), if_pos (by omega), hfirst, Function.update_self, Nat.sub_self]
      rfl
    · rw [Function.update_of_ne hfirst]
      by_cases hin : destcopy + 1 ≤ a ∧ a < destcopy + 1 + cs.length
      · rw [if_pos hin, if_pos (by omega), show a - destcopy = a - (destcopy + 1) + 1 by omega]
        rfl
      · rw [if_neg hin, if_neg (by omega)]

/-! ### The format -/

theorem FormatPrints.plain {args : ℕ → Word} {k : ℕ} {items : List FormatItem}
    {text : List UInt8} (hc : c ≠ 37) (h : FormatPrints m args k items text) :
    FormatPrints m args k (.plain ⟨c, hc⟩ :: items) (c :: text) :=
  @FormatPrints.cons m args k (.plain ⟨c, hc⟩) items [c] text rfl h

theorem FormatPrints.plains {args : ℕ → Word} {k : ℕ} {items : List FormatItem}
    {text cs : List UInt8} (hcs : ∀ c ∈ cs, c ≠ 37) (h : FormatPrints m args k items text) :
    FormatPrints m args k (cs.pmap (fun c h => .plain ⟨c, h⟩) hcs ++ items) (cs ++ text) := by
  induction cs with
  | nil => exact h
  | cons c cs ih =>
    obtain ⟨hc, hrest⟩ := List.forall_mem_cons.mp hcs
    exact .plain hc (ih hrest)

theorem FormatPrintable.plains {args : ℕ → Word} {k : ℕ} {items : List FormatItem}
    {cs : List UInt8} (hcs : ∀ c ∈ cs, c ≠ 37) (h : FormatPrintable m args k items) :
    FormatPrintable m args k (cs.pmap (fun c h => .plain ⟨c, h⟩) hcs ++ items) := by
  induction cs with
  | nil => exact h
  | cons c cs ih => exact ⟨trivial, ih (List.forall_mem_cons.mp hcs).2⟩

def attemptCall (j : JshLayout) (m : ByteMem) {path : List UInt8}
    (hpath : StringAt m (BitVec.ofNat 64 j.path) path)
    (hformat : StringAt m j.format (attemptItems.flatMap FormatItem.chars)) :
    Userlib.PrintfCall where
  mem := m
  args := fun _ => BitVec.ofNat 64 j.path
  format := j.format
  items := attemptItems
  unpadded := by
    unfold attemptItems
    simp [attemptText, Userlib.Unpadded]
  format_at := hformat
  length_lt := by decide
  printable := FormatPrintable.plains _ ⟨⟨path, hpath⟩, trivial, trivial, trivial⟩

theorem attemptCall_prints {path : List UInt8} (hpath : StringAt m (BitVec.ofNat 64 j.path) path) :
    FormatPrints m (fun _ => BitVec.ofNat 64 j.path) 0 attemptItems (attempting path) := by
  have hstring : (FormatItem.conversion .string).Prints m (BitVec.ofNat 64 j.path) path := hpath
  exact .plains _ (.cons hstring (.plain _ (.plain _ (.nil _))))

/-! ### The child -/

theorem Typing.string (h : Typing j s₀ s line) :
    CStr (Function.update s.mem s.cmdptr 0) j.buf line := by
  apply CStr.of_get _ fun c hc => (h.echoed c hc).1
  intro i hi
  rw [h.cmdptr]
  by_cases hend : i = line.length
  · rw [hend, Function.update_self, List.getD_eq_default _ _ le_rfl]
  · rw [Function.update_of_ne (by omega)]
    exact h.typed i (by omega)

theorem binPrefix_echoed : ∀ c ∈ binPrefix, Userlib.Echoed c := Userlib.echoed_of_all rfl

theorem attempting_echoed {path : List UInt8} (hpath : ∀ c ∈ path, Userlib.Echoed c) :
    ∀ c ∈ attempting path, Userlib.Echoed c := by
  have hend : ∀ c ∈ ([39, 10] : List UInt8), Userlib.Echoed c := Userlib.echoed_of_all rfl
  intro c hc
  rcases List.mem_append.mp hc with hc | hc
  · exact attemptText_echoed c hc
  · exact (List.mem_append.mp hc).elim (hpath c) (hend c)

/-- The loop puts the line behind `/bin/` and leaves the rest of the memory as it was. -/
theorem Typing.copied (h : Typing j s₀ s line) (hstart : j.Started s₀)
    (hlen : line.length ≤ 1018) :
    ∃ m, (∀ fuel, 1024 ≤ fuel → copyCommand fuel (Function.update s.mem s.cmdptr 0) j.buf
        (j.path + 5) = some m) ∧
      CStr m j.path (binPrefix ++ line) ∧
      ∀ a, a < j.buf ∨ j.buf + 1024 ≤ a → a < j.path ∨ j.path + 1024 ≤ a →
        m a = s₀.mem a := by
  have hapart := hstart.apart
  have hprefix : binPrefix.length = 5 := rfl
  have hshell : ∀ a, a < j.buf ∨ j.buf + 1024 ≤ a →
      Function.update s.mem s.cmdptr 0 a = s₀.mem a := by
    intro a ha
    rw [Function.update_of_ne (by rw [h.cmdptr]; omega)]
    exact h.outside a ha
  refine ⟨_, fun fuel hfuel => copyCommand_eq h.string (by omega) (by omega), ?_,
    fun a hbuf hpath => ?_⟩
  · refine CStr.of_get (fun i hi => ?_) fun c hc => ?_
    · rw [List.length_append] at hi
      by_cases hfirst : i < 5
      · rw [store_other _ _ (by omega), hshell _ (by omega), hstart.path i (by omega),
          List.getD_append _ _ _ _ (by omega)]
      · rw [List.getD_append_right _ _ _ _ (by omega), hprefix]
        by_cases hend : i < 5 + line.length
        · obtain ⟨k, rfl⟩ := Nat.exists_eq_add_of_le (Nat.le_of_not_lt hfirst)
          rw [← Nat.add_assoc, store_apply _ _ (by omega), Nat.add_sub_cancel_left]
        · rw [store_other _ _ (by omega), hshell _ (by omega), hstart.path i (by omega),
            List.getD_eq_default _ _ (by omega), List.getD_eq_default _ _ (by omega)]
    · exact (List.mem_append.mp hc).elim (fun hc => (binPrefix_echoed c hc).1)
        fun hc => (h.echoed c hc).1
  · rw [store_other _ _ (by omega)]
    exact hshell a hbuf

/-- What the child prints is there. -/
theorem JshLayout.Started.strings (hstart : j.Started s₀)
    (hcommand : CStr m j.path (binPrefix ++ line)) (hlen : line.length ≤ 1018)
    (houtside : ∀ a, a < j.buf ∨ j.buf + 1024 ≤ a → a < j.path ∨ j.path + 1024 ≤ a →
      m a = s₀.mem a) :
    StringAt m (BitVec.ofNat 64 j.path) (binPrefix ++ line) ∧
      StringAt m j.format (attemptItems.flatMap FormatItem.chars) := by
  have hfits := hstart.fits
  have hprefix : binPrefix.length = 5 := rfl
  have haddr : (BitVec.ofNat 64 j.path).toNat = j.path :=
    (BitVec.toNat_ofNat _ _).trans (Nat.mod_eq_of_lt (by omega))
  refine ⟨⟨by rwa [haddr], ?_⟩, hstart.format.string.copy fun i hi => ?_, hstart.format.fits⟩
  · rw [haddr, List.length_append]
    omega
  · have hlength : (attemptItems.flatMap FormatItem.chars).length = 31 := by decide
    obtain ⟨hbuf, hpath⟩ := hstart.constant i (by omega)
    exact houtside _ hbuf hpath

/-- The child of a line executes it. -/
theorem Typing.executes (h : Typing j s₀ s line) (hstart : j.Started s₀)
    (hlen : line.length ≤ 1018) :
    ∃ child, Executes j s₀ child line ∧ ∃ bound, ∀ fuel, bound ≤ fuel →
      processCommand j fuel { s with mem := Function.update s.mem s.cmdptr 0 } j.buf =
        some child := by
  have hechoed : ∀ c ∈ binPrefix ++ line, Userlib.Echoed c := fun c hc =>
    (List.mem_append.mp hc).elim (binPrefix_echoed c) (h.echoed c)
  obtain ⟨m, hcopy, hcommand, houtside⟩ := h.copied hstart hlen
  obtain ⟨hpath, hformat⟩ := hstart.strings hcommand hlen houtside
  have hlast : (attempting (binPrefix ++ line)).getLast? = some 10 := by
    rw [attempting, ← List.append_assoc]
    exact List.getLast?_append_cons ..
  obtain ⟨t, hidle, houtput, bound, hprintf⟩ := Userlib.printf_line (attemptCall j m hpath hformat)
    hstart.idle (attemptCall_prints hpath) (attempting_echoed hechoed) hlast
  refine ⟨⟨m, t⟩, ⟨hcommand, houtside, houtput, hidle.buf.stores⟩, max 1024 bound,
    fun fuel hfuel => ?_⟩
  have hrun : Userlib.printf m (fun _ => BitVec.ofNat 64 j.path) fuel s₀.stdio j.format = some t :=
    hprintf fuel (le_of_max_le_right hfuel)
  rw [processCommand, hcopy fuel (le_of_max_le_left hfuel), Option.bind_eq_bind, Option.bind_some,
    h.stdio, hrun]
  rfl

/-! ### The loop -/

theorem Typing.start (hstart : j.Started s₀) : Typing j s₀ s₀ [] where
  cmdptr := hstart.cmdptr
  typed := fun _ hi => absurd hi (Nat.not_lt_zero _)
  echoed := List.forall_mem_nil _
  outside := fun _ _ => rfl
  stdio := rfl

theorem Typing.store (h : Typing j s₀ s line) (hlen : line.length ≤ 1018) (c : UInt8) :
    Typing j s₀ { s with mem := Function.update s.mem s.cmdptr c } line := by
  have hptr := h.cmdptr
  refine ⟨hptr, fun i hi => ?_, h.echoed, fun a ha => ?_, h.stdio⟩
  · exact (Function.update_of_ne (by omega) _ _).trans (h.typed i hi)
  · exact (Function.update_of_ne (by omega) _ _).trans (h.outside a ha)

theorem Typing.step (h : Typing j s₀ s line) (hstart : j.Started s₀)
    (hlen : line.length ≤ 1018) (hc : Userlib.Echoed c) :
    ∃ t out, Typing j s₀ t (editKey line c) ∧
      Option.Rel (Executes j s₀) out (if c = 13 ∨ c = 10 then some line else none) ∧
      ∃ bound, ∀ fuel, bound ≤ fuel → commandlineKey j fuel s c = some (out, t) := by
  have hptr := h.cmdptr
  have hread := h.store hlen c
  unfold commandlineKey editKey
  dsimp only
  split_ifs with hend hback
  · obtain ⟨child, hexecutes, bound, hrun⟩ := hread.executes hstart hlen
    refine ⟨⟨_, j.buf, s.stdio⟩, some child, ⟨rfl, fun _ hi => absurd hi (Nat.not_lt_zero _),
      List.forall_mem_nil _, (hread.store hlen 0).outside, h.stdio⟩, .some hexecutes, bound,
      fun fuel hfuel => ?_⟩
    exact congrArg (Option.map _) (hrun fuel hfuel)
  · refine ⟨⟨Function.update s.mem s.cmdptr c, max (s.cmdptr - 1) j.buf, s.stdio⟩, none,
      ⟨?_, fun i hi => ?_, fun d hd => ?_, hread.outside, h.stdio⟩, .none, 0, fun _ _ => rfl⟩
    · dsimp only
      rw [List.length_dropLast]
      omega
    · rw [List.length_dropLast] at hi
      rw [List.getD_eq_getElem _ _ (by rw [List.length_dropLast]; exact hi),
        List.getElem_dropLast, ← List.getD_eq_getElem line 0]
      exact hread.typed i (by omega)
    · exact h.echoed d ((List.dropLast_sublist line).subset hd)
  · refine ⟨⟨Function.update (Function.update s.mem s.cmdptr c) s.cmdptr c, s.cmdptr + 1, s.stdio⟩,
      none, ⟨?_, fun i hi => ?_, fun d hd => ?_, ?_, h.stdio⟩, .none, 0, fun _ _ => rfl⟩
    · dsimp only
      rw [List.length_append, List.length_singleton]
      omega
    · rw [List.length_append, List.length_singleton] at hi
      dsimp only
      rw [hptr]
      by_cases hlast : i = line.length
      · rw [hlast, Function.update_self, List.getD_append_right _ _ _ _ le_rfl, Nat.sub_self]
        rfl
      · rw [Function.update_of_ne (by omega), Function.update_of_ne (by omega),
          List.getD_append _ _ _ _ (by omega)]
        exact h.typed i (by omega)
    · rcases List.mem_append.mp hd with hd | hd
      · exact h.echoed d hd
      · rw [List.mem_singleton.mp hd]
        exact hc
    · exact (hread.store hlen c).outside

theorem exec_editStep (line : List UInt8) (c : UInt8) (keys : List UInt8) :
    exec editStep line (c :: keys) = (exec editStep (editKey line c) keys).map fun r =>
      ((if c = 13 ∨ c = 10 then some line else none) :: r.1, r.2) := rfl

theorem Typing.keys (hstart : j.Started s₀) (keys : List UInt8) :
    ∀ {s : Shell} {line : List UInt8}, Typing j s₀ s line → (∀ c ∈ keys, Userlib.Echoed c) →
      (∀ n, ((keys.take n).foldl editKey line).length ≤ 1018) →
      ∃ t outs lines last, Typing j s₀ t last ∧ exec editStep line keys = some (lines, last) ∧
        List.Forall₂ (Option.Rel (Executes j s₀)) outs lines ∧
        ∃ bound, ∀ fuel, bound ≤ fuel → exec (commandlineKey j fuel) s keys = some (outs, t) := by
  induction keys with
  | nil => exact fun h _ _ => ⟨_, [], [], _, h, rfl, .nil, 0, fun _ _ => rfl⟩
  | cons c keys ih =>
    intro s line h hkeys hfit
    obtain ⟨hc, hrest⟩ := List.forall_mem_cons.mp hkeys
    obtain ⟨t, out, ht, hout, bound, hstep⟩ := h.step hstart (hfit 0) hc
    obtain ⟨u, outs, lines, last, hu, hlines, houts, bound', hexec⟩ :=
      ih ht hrest fun n => hfit (n + 1)
    refine ⟨u, out :: outs, _ :: lines, last, hu, ?_, .cons hout houts, max bound bound',
      fun fuel hfuel => ?_⟩
    · rw [exec_editStep, hlines]
      rfl
    · rw [exec, hstep fuel (le_of_max_le_left hfuel)]
      dsimp only
      rw [hexec fuel (le_of_max_le_right hfuel)]
      rfl

end Shell

end Rpos
