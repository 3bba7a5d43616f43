import Mathlib.Data.List.Forall2
import Mathlib.Data.List.TakeWhile
import Mathlib.Logic.Function.Basic
import Rpos.Filedescriptors.Stdout

/-!
# The print buffer of a program

`buf_putc` of the user library's `printf.c`. The characters that a program prints
are collected in a buffer, which goes to `SYS_WRITE` when it is full and at the end
of a line.
-/

namespace Rpos

open Base

structure Printbuf where
  buf : ByteMem
  size : ℕ
  pos : ℕ

/-- The buffer, the offsets that have been stored to, and what `SYS_WRITE` has been
handed. -/
structure Printing extends Printbuf where
  stores : List ℕ
  written : List ByteMem

namespace Printing

def put (b : Printing) (c : UInt8) : Printing :=
  { b with buf := Function.update b.buf b.pos c, stores := b.stores ++ [b.pos] }

/-- `syscall(SYS_WRITE, 1, buf.buf)`. -/
def syscallWrite (b : Printing) : Printing :=
  { b with written := b.written ++ [b.buf] }

def pending (b : Printing) : List UInt8 := (List.range b.pos).map b.buf

def start : Printing := ⟨⟨fun _ => 0, 2048, 0⟩, [], []⟩

end Printing

def bufPutc (b : Printing) (c : UInt8) : Printing :=
  -- at the edge of the buffer
  let b := if b.pos = b.size - 1 then { (b.put 0).syscallWrite with pos := 0 } else b
  let b := { b.put c with pos := b.pos + 1 }
  if c = 10 then
    let b := { b.put 0 with pos := b.pos + 1 }
    { b.syscallWrite with pos := 0 }
  else b

/-- A buffer of 2048 bytes holds the string, with its terminator. -/
structure Flushed (bytes : ByteMem) (s : List UInt8) : Prop where
  string : CStr bytes 0 s
  fits : s.length < 2048

namespace Printing

/-- The strings that were written, and the characters that were not, are the whole sequence. -/
structure Keeps (b : Printing) (cs : List UInt8) : Prop where
  size : b.size = 2048
  pos : b.pos ≤ b.size - 1
  stores : ∀ i ∈ b.stores, i < 2048
  sequence : ∃ strs, List.Forall₂ Flushed b.written strs ∧ strs.flatten ++ b.pending = cs

variable {b : Printing} {cs : List UInt8}

theorem start_keeps : start.Keeps [] where
  size := rfl
  pos := Nat.zero_le _
  stores := by
    intro i hi
    exact absurd hi List.not_mem_nil
  sequence := ⟨[], .nil, rfl⟩

theorem Keeps.put_stores (h : b.Keeps cs) (c : UInt8) : ∀ i ∈ (b.put c).stores, i < 2048 := by
  intro i hi
  rcases List.mem_append.mp hi with hold | hnew
  · exact h.stores i hold
  · rw [List.mem_singleton.mp hnew]
    have hpos := h.pos
    rw [h.size] at hpos
    exact Nat.lt_succ_of_le hpos

theorem put_pending (b : Printing) (c : UInt8) : (b.put c).pending = b.pending := by
  apply List.map_congr_left
  intro i hi
  exact Function.update_of_ne (Nat.ne_of_lt (List.mem_range.mp hi)) _ _

/-- With the terminator behind them, the characters that have not been written are a
string. -/
theorem Keeps.put_flushed (h : b.Keeps cs) (hcs : ∀ c ∈ cs, c ≠ 0) :
    Flushed (b.put 0).buf b.pending := by
  obtain ⟨strs, -, hseq⟩ := h.sequence
  have hzero : (b.put 0).buf (0 + b.pos) = 0 := by
    rw [Nat.zero_add]
    exact Function.update_self _ _ _
  have hbytes : ((List.range b.pos).map fun i => (b.put 0).buf (0 + i)) = b.pending := by
    rw [← put_pending b 0]
    apply List.map_congr_left
    intro i _
    rw [Nat.zero_add]
  refine ⟨?_, ?_⟩
  · have hstring := CStr.of_zero hzero
    rw [hbytes, List.takeWhile_eq_self_iff.mpr] at hstring
    · exact hstring
    · intro c hc
      apply decide_eq_true
      apply hcs
      rw [← hseq]
      exact List.mem_append_right _ hc
  · have hpos := h.pos
    rw [h.size] at hpos
    rw [pending, List.length_map, List.length_range]
    exact Nat.lt_succ_of_le hpos

theorem Keeps.flush (h : b.Keeps cs) (hcs : ∀ c ∈ cs, c ≠ 0) :
    Keeps { (b.put 0).syscallWrite with pos := 0 } cs := by
  obtain ⟨strs, hwritten, hseq⟩ := h.sequence
  refine ⟨h.size, Nat.zero_le _, h.put_stores 0, strs ++ [b.pending], ?_, ?_⟩
  · exact List.rel_append hwritten (.cons (h.put_flushed hcs) .nil)
  · rw [List.flatten_append, List.flatten_singleton, hseq]
    exact List.append_nil cs

/-- Before the edge there is room for a character and for a terminator behind it. -/
theorem Keeps.append (h : b.Keeps cs) (hroom : b.pos ≠ b.size - 1) (c : UInt8) :
    Keeps { b.put c with pos := b.pos + 1 } (cs ++ [c]) := by
  obtain ⟨strs, hwritten, hseq⟩ := h.sequence
  refine ⟨h.size, Nat.lt_of_le_of_ne h.pos hroom, h.put_stores c, strs, hwritten, ?_⟩
  have hlast : pending { b.put c with pos := b.pos + 1 } = b.pending ++ [c] := by
    rw [pending, List.range_succ, List.map_append, List.map_singleton]
    show (b.put c).pending ++ [Function.update b.buf b.pos c b.pos] = _
    rw [put_pending, Function.update_self]
  rw [hlast, ← List.append_assoc, hseq]

theorem Keeps.bufPutc (h : b.Keeps cs) {c : UInt8} (hcs : ∀ d ∈ cs ++ [c], d ≠ 0) :
    (bufPutc b c).Keeps (cs ++ [c]) := by
  have hinit : ∀ d ∈ cs, d ≠ 0 := fun d hd => hcs d (List.mem_append_left _ hd)
  -- in front of the character the buffer has room for it
  have hroom : ∃ b' : Printing, b'.Keeps cs ∧ b'.pos ≠ b'.size - 1 ∧
      (if b.pos = b.size - 1 then { (b.put 0).syscallWrite with pos := 0 } else b) = b' := by
    by_cases hedge : b.pos = b.size - 1
    · refine ⟨_, h.flush hinit, ?_, if_pos hedge⟩
      show 0 ≠ b.size - 1
      rw [h.size]
      decide
    · exact ⟨b, h, hedge, if_neg hedge⟩
  obtain ⟨b', hb', hne, heq⟩ := hroom
  unfold Rpos.bufPutc
  rw [heq]
  dsimp only
  have happend := hb'.append hne c
  by_cases hnl : c = 10
  · rw [if_pos hnl]
    exact happend.flush hcs
  · rw [if_neg hnl]
    exact happend

theorem bufPutc_newline (b : Printing) : (bufPutc b 10).pos = 0 := rfl

theorem Keeps.foldl {cs₀ : List UInt8} (h : b.Keeps cs₀) (cs : List UInt8)
    (hcs : ∀ c ∈ cs₀ ++ cs, c ≠ 0) : (cs.foldl Rpos.bufPutc b).Keeps (cs₀ ++ cs) := by
  induction cs using List.reverseRecOn with
  | nil => rwa [List.append_nil]
  | append_singleton cs c ih =>
      rw [← List.append_assoc] at hcs ⊢
      rw [List.foldl_append, List.foldl_cons, List.foldl_nil]
      apply Keeps.bufPutc _ hcs
      exact ih fun d hd => hcs d (List.mem_append_left _ hd)

/-! ### From a buffer on -/

def behind (old b : Printing) : Printing :=
  { b with stores := old.stores ++ b.stores, written := old.written ++ b.written }

/-- The buffer as it is, with nothing stored or written so far. -/
def fresh (b : Printing) : Printing := { b with stores := [], written := [] }

theorem behind_fresh (b : Printing) : b.behind b.fresh = b := by
  unfold behind fresh
  rw [List.append_nil, List.append_nil]

theorem bufPutc_behind (old b : Printing) (c : UInt8) :
    Rpos.bufPutc (old.behind b) c = old.behind (Rpos.bufPutc b c) := by
  have hput : ∀ (b : Printing) (d : UInt8), (old.behind b).put d = old.behind (b.put d) := by
    intro b d
    simp only [put, behind, List.append_assoc]
  have hwrite : ∀ b : Printing, (old.behind b).syscallWrite = old.behind b.syscallWrite := by
    intro b
    simp only [syscallWrite, behind, List.append_assoc]
  have hpos : ∀ (b : Printing) (n : ℕ),
      { old.behind b with pos := n } = old.behind { b with pos := n } := fun _ _ => rfl
  unfold Rpos.bufPutc
  rw [show (old.behind b).pos = b.pos from rfl, show (old.behind b).size = b.size from rfl]
  dsimp only
  split_ifs
  · simp only [hput, hwrite, hpos]
  · simp only [hput, hwrite, hpos]
    rfl
  · simp only [hput, hwrite, hpos]
  · simp only [hput]
    rfl

theorem foldl_behind (cs : List UInt8) (old b : Printing) :
    cs.foldl Rpos.bufPutc (old.behind b) = old.behind (cs.foldl Rpos.bufPutc b) := by
  induction cs generalizing b with
  | nil => rfl
  | cons c cs ih => rw [List.foldl_cons, List.foldl_cons, bufPutc_behind, ih]

end Printing

/-- Over every sequence of characters: `pos` and the stores stay in the buffer, what is written
is terminated, nothing is lost or reordered, and a newline is not kept back. -/
theorem bufPutc_run {cs : List UInt8} (hcs : ∀ c ∈ cs, c ≠ 0) {b : Printing}
    (hb : cs.foldl bufPutc Printing.start = b) :
    b.size = 2048 ∧ b.pos ≤ b.size - 1 ∧ (∀ i ∈ b.stores, i < 2048) ∧
      (∃ strs, List.Forall₂ Flushed b.written strs ∧ strs.flatten ++ b.pending = cs) ∧
      (cs.getLast? = some 10 → b.pos = 0) := by
  have hkeeps := Printing.start_keeps.foldl cs hcs
  rw [hb, List.nil_append] at hkeeps
  refine ⟨hkeeps.size, hkeeps.pos, hkeeps.stores, hkeeps.sequence, fun hend => ?_⟩
  obtain ⟨init, rfl⟩ := List.getLast?_eq_some_iff.mp hend
  rw [← hb, List.foldl_append, List.foldl_cons, List.foldl_nil]
  exact Printing.bufPutc_newline _

/-- The line `hi`. -/
theorem bufPutc_run_example : ([104, 105, 10].foldl bufPutc Printing.start).pos = 0 :=
  (@bufPutc_run [104, 105, 10] (by simp) _ rfl).2.2.2.2 rfl

/-! ## What the kernel makes of it -/

/-- From wherever the buffer lies in the memory of the program, the system call passes the
string to the console, if descriptor 1 is a stdio file. -/
def Prints (bytes : ByteMem) (s : List UInt8) : Prop :=
  ∀ (m : ByteMem) (args : ℕ → Word) (fileOps : ℕ → FileOps) (proc : Pcb) (buf count : Word),
    buf.toNat + 2048 < 2 ^ 64 → (∀ i, i < 2048 → m (buf.toNat + i) = bytes i) →
    proc (fdsWord + 1) ≠ 0 → fileOps (proc (fdsWord + 1)) = stdoutOps m args (s.length + 1) →
    ∃ es, sysWrite fileOps proc 1 buf count = some (es, 0) ∧ decoded es = s

theorem Flushed.prints {bytes : ByteMem} {s : List UInt8} (h : Flushed bytes s)
    (hplain : (37 : UInt8) ∉ s) : Prints bytes s := by
  intro m args fileOps proc buf count hbuf hbytes hfile hops
  have hstring : StringAt m buf s := by
    constructor
    · apply h.string.copy
      intro i hi
      rw [hbytes i (Nat.lt_of_le_of_lt hi h.fits), Nat.zero_add]
    · exact Nat.lt_of_le_of_lt (Nat.add_le_add_left h.fits _) hbuf
  exact sysWrite_plain hstring hplain hfile hops count

/-- Strings without percent signs are passed on as they stand. -/
theorem Flushed.all_print {written : List ByteMem} {strs : List (List UInt8)}
    (h : List.Forall₂ Flushed written strs) (hplain : (37 : UInt8) ∉ strs.flatten) :
    List.Forall₂ Prints written strs := by
  obtain ⟨hlen, hzip⟩ := List.forall₂_iff_zip.mp h
  refine List.forall₂_iff_zip.mpr ⟨hlen, fun hmem => (hzip hmem).prints fun hin => ?_⟩
  exact hplain (List.mem_flatten_of_mem (List.of_mem_zip hmem).2 hin)

/-- What is printed without percent signs reaches the console in order, up to what is
pending. -/
theorem bufPutc_prints {cs : List UInt8} (hcs : ∀ c ∈ cs, c ≠ 0) (hplain : (37 : UInt8) ∉ cs)
    {b : Printing} (hb : cs.foldl bufPutc Printing.start = b) :
    ∃ strs, List.Forall₂ Prints b.written strs ∧ strs.flatten ++ b.pending = cs := by
  have hkeeps := Printing.start_keeps.foldl cs hcs
  rw [hb, List.nil_append] at hkeeps
  obtain ⟨strs, hwritten, hseq⟩ := hkeeps.sequence
  refine ⟨strs, Flushed.all_print hwritten fun hmem => hplain ?_, hseq⟩
  rw [← hseq]
  exact List.mem_append_left _ hmem

structure Printing.Idle (b : Printing) : Prop where
  size : b.size = 2048
  pos : b.pos = 0
  stores : ∀ i ∈ b.stores, i < 2048

/-- Text that ends a line is written as a whole and leaves nothing pending. -/
theorem Printing.Idle.line {b : Printing} (h : b.Idle) {cs : List UInt8}
    (hcs : ∀ c ∈ cs, c ≠ 0) (hplain : (37 : UInt8) ∉ cs) (hlast : cs.getLast? = some 10) :
    (cs.foldl bufPutc b).Idle ∧ ∃ written strs,
      (cs.foldl bufPutc b).written = b.written ++ written ∧
      List.Forall₂ Prints written strs ∧ strs.flatten = cs := by
  have hfresh : b.fresh.Keeps [] := by
    refine ⟨h.size, h.pos.trans_le (Nat.zero_le _),
      fun i hi => absurd hi List.not_mem_nil, [], .nil, ?_⟩
    show (List.range b.pos).map _ = []
    rw [h.pos]
    rfl
  have hkeeps := hfresh.foldl cs hcs
  rw [List.nil_append] at hkeeps
  have hrun : cs.foldl bufPutc b = b.behind (cs.foldl bufPutc b.fresh) := by
    rw [← foldl_behind, behind_fresh]
  have hpos : (cs.foldl bufPutc b.fresh).pos = 0 := by
    obtain ⟨init, rfl⟩ := List.getLast?_eq_some_iff.mp hlast
    rw [List.foldl_append, List.foldl_cons, List.foldl_nil]
    exact bufPutc_newline _
  obtain ⟨strs, hwritten, hseq⟩ := hkeeps.sequence
  have hnone : (cs.foldl bufPutc b.fresh).pending = [] := by
    rw [pending, hpos]
    rfl
  rw [hnone, List.append_nil] at hseq
  rw [hrun]
  refine ⟨⟨hkeeps.size, hpos, fun i hi => ?_⟩, _, strs, rfl,
    Flushed.all_print hwritten (hseq ▸ hplain), hseq⟩
  exact (List.mem_append.mp hi).elim (h.stores i) (hkeeps.stores i)

end Rpos
