import Rpos.Filedescriptors.FdAlloc
import Rpos.Io.Kprintf

/-!
# Writes to stdout

`sys_write` of `syscalls.c` on a file whose operations are `stdout_ops`. Its
`write` hands the buffer of the caller to `kprintf` as the format, without the
count and without arguments.
-/

namespace Rpos

open Base

/-- The `write` of a `fileops_t`, if there is one: it takes the file, the buffer and the count,
and returns what it does and an `int`. -/
structure FileOps where
  write : Option (ℕ → Word → Word → Option (List KprintfEvent × BitVec 32))

/-- `uart_write`. The arguments that the format asks for are whatever `va_arg` finds. -/
def uartWrite (m : ByteMem) (args : ℕ → Word) (fuel : ℕ) (_file : ℕ) (buf _count : Word) :
    Option (List KprintfEvent × BitVec 32) :=
  (kprintf m args fuel buf).map fun es => (es, 0)

def stdoutOps (m : ByteMem) (args : ℕ → Word) (fuel : ℕ) : FileOps :=
  ⟨some (uartWrite m args fuel)⟩

/-- `sys_write`, given the `file_ops` of every file. The descriptor is an unchecked index. -/
def sysWrite (fileOps : ℕ → FileOps) (proc : Pcb) (fd buf count : Word) :
    Option (List KprintfEvent × Word) :=
  let file := proc (fdsWord + fd.toNat)
  if file ≠ 0 then
    match (fileOps file).write with
    | none => some ([], 0)
    | some write => (write file buf count).map fun r => (r.1, r.2.signExtend 64)
  else some ([], 0)

/-- What a write should do: the decoder is given the bytes of the buffer in order, nothing else
is read, and the count is reported. -/
structure OutputsBuffer (m : ByteMem) (buf count : Word) (r : List KprintfEvent × Word) : Prop where
  bytes : decoded r.1 = (List.range count.toNat).map fun i => m (buf.toNat + i)
  reads : ∀ a, .format a ∈ r.1 ∨ .string a ∈ r.1 →
    buf.toNat ≤ a.toNat ∧ a.toNat < buf.toNat + count.toNat
  reported : r.2 = count

variable {m : ByteMem} {args : ℕ → Word} {fuel : ℕ} {fileOps : ℕ → FileOps} {proc : Pcb}
  {fd : Word}

/-- A write to a stdio file is a `kprintf` of the buffer, and reports 0. -/
theorem sysWrite_stdio (hfile : proc (fdsWord + fd.toNat) ≠ 0)
    (hops : fileOps (proc (fdsWord + fd.toNat)) = stdoutOps m args fuel) (buf count : Word) :
    sysWrite fileOps proc fd buf count = (kprintf m args fuel buf).map fun es => (es, 0) := by
  unfold sysWrite
  dsimp only
  rw [if_pos hfile, hops]
  show ((kprintf m args fuel buf).map _).map _ = _
  rw [Option.map_map]
  rfl

/-- A string without percent signs is printed as it stands, however long the buffer is said to
be. -/
theorem sysWrite_plain {s : List UInt8} {buf : Word} (hstring : StringAt m buf s)
    (hplain : (37 : UInt8) ∉ s) (hfile : proc (fdsWord + fd.toNat) ≠ 0)
    (hops : fileOps (proc (fdsWord + fd.toNat)) = stdoutOps m args (s.length + 1))
    (count : Word) :
    ∃ es, sysWrite fileOps proc fd buf count = some (es, 0) ∧ decoded es = s := by
  -- the loop from offset `i` on, with a step for every character left
  have hloop : ∀ n i k, i + n = s.length →
      ∃ es, kprintfLoop m args (n + 1) (buf + BitVec.ofNat 64 i) k = some es ∧
        decoded es = s.drop i := by
    intro n
    induction n with
    | zero =>
      rintro i k rfl
      rw [kprintfLoop_end hstring, List.drop_length]
      exact ⟨_, rfl, rfl⟩
    | succ n ih =>
      intro i k hi
      have hlt : i < s.length := by omega
      have hchar : s.getD i 0 = s[i] := List.getD_eq_getElem s 0 hlt
      have hne : s.getD i 0 ≠ 37 := by
        intro h
        exact hplain (h ▸ hchar ▸ List.getElem_mem hlt)
      obtain ⟨rest, hrest, hdecoded⟩ := ih (i + 1) (k + argsTaken s i) (by omega)
      rw [kprintfLoop_eq hstring hlt, pieceEvents, if_neg hne, Option.bind_some, cursorNext,
        if_neg hne, hrest]
      refine ⟨_, rfl, ?_⟩
      rw [List.drop_eq_getElem_cons hlt, decoded_append, hdecoded, ← hchar]
      rfl
  obtain ⟨es, hes, hdecoded⟩ := hloop s.length 0 0 (Nat.zero_add _)
  rw [show buf + BitVec.ofNat 64 0 = buf from BitVec.add_zero _] at hes
  rw [sysWrite_stdio hfile hops, kprintf, hes]
  exact ⟨es, rfl, hdecoded⟩

/-- No write to a stdio file outputs the buffer: the count that is reported is right for an
empty buffer only, and of that the first byte is read. -/
theorem sysWrite_never_outputs (hfile : proc (fdsWord + fd.toNat) ≠ 0)
    (hops : fileOps (proc (fdsWord + fd.toNat)) = stdoutOps m args fuel) (buf count : Word) :
    ¬ ∃ r, sysWrite fileOps proc fd buf count = some r ∧ OutputsBuffer m buf count r := by
  rintro ⟨r, hrun, hout⟩
  rw [sysWrite_stdio hfile hops] at hrun
  obtain ⟨es, hes, rfl⟩ := Option.map_eq_some_iff.mp hrun
  have hcount : count.toNat = 0 := by
    rw [← hout.reported]
    rfl
  have hfirst := hout.reads buf (Or.inl (kprintfLoop_reads hes))
  rw [hcount] at hfirst
  exact absurd hfirst.2 (Nat.lt_irrefl _)

/-- The first descriptor of a process that has a stdio file there. -/
theorem sysWrite_never_outputs_example :
    ¬ ∃ r, sysWrite (fun _ => stdoutOps (stringBytes [104, 105]) (fun _ => 0) 3) (fun _ => 1) 0 0 2
      = some r ∧ OutputsBuffer (stringBytes [104, 105]) 0 2 r :=
  @sysWrite_never_outputs (stringBytes [104, 105]) (fun _ => 0) 3 _ (fun _ => 1) 0 Nat.one_ne_zero
    rfl 0 2

/-- Of the buffer `%%` one percent sign is printed, the byte behind it is read, and 0 is
reported. -/
theorem write_percent_signs :
    sysWrite (fun _ => stdoutOps (stringBytes [37, 37]) (fun _ => 0) 3) (fun _ => 1) 1 0 2 =
      some ([.format 0, .format 1, .decode 37, .format 2], 0) ∧
    ¬ OutputsBuffer (stringBytes [37, 37]) 0 2
      ([.format 0, .format 1, .decode 37, .format 2], 0) :=
  ⟨rfl, fun h => absurd h.reported (by decide)⟩

end Rpos
