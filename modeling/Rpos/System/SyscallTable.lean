import Rpos.Base.BitField

/-!
# The system-call boundary

`handle_syscall` of `syscalls.c`, and the calls that take a file descriptor. The
number and the six arguments come from user code. Both index an array:
`syscall_table`, and `fds` of the current process. What an index past the end of
an array reads is whatever lies behind it in memory.
-/

namespace Rpos

open Base

def sysMax : ℕ := 300

def maxOpenFiles : ℕ := 32

/-- `-ENOSYS`. -/
def negEnosys : Word := -0x26

/-! ## §1  The table -/

/-- The functions of `syscall_table`. -/
inductive SyscallFn
  | sysIoctl
  | sysIoSetup
  | sysOpen
  | sysWrite
  | sysRead
  | sysMmap
  | sysBrk
  | sysClone3
  | sysExecve
  | sysMunmap
  | sysExit
  | sysExitGroup
  | sysNanosleep
  | sysGetpid
  | sysGetppid
  | sysClockGettime
  | sysPulseLed
  | sysGetFramebuffer
  | sysGetc
  | sysPipe2
  | sysFork
  | sysTestMutex
  | sysWaitid
  | sysGetcwd
  deriving DecidableEq, Repr

/-- The initializer of `syscall_table`: the other elements are NULL. -/
def syscallInit : List (ℕ × SyscallFn) :=
  [(29, .sysIoctl), (0, .sysIoSetup), (56, .sysOpen), (64, .sysWrite), (63, .sysRead),
    (222, .sysMmap), (214, .sysBrk), (220, .sysClone3), (221, .sysExecve),
    (215, .sysMunmap), (93, .sysExit), (94, .sysExitGroup), (101, .sysNanosleep),
    (172, .sysGetpid), (173, .sysGetppid), (113, .sysClockGettime), (292, .sysPulseLed),
    (293, .sysGetFramebuffer), (294, .sysGetc), (59, .sysPipe2), (295, .sysFork),
    (297, .sysTestMutex), (95, .sysWaitid), (17, .sysGetcwd)]

def syscallTable (i : ℕ) : Option SyscallFn := syscallInit.lookup i

def SyscallFn.takesFd : SyscallFn → Bool
  | .sysWrite | .sysRead | .sysIoctl => true
  | _ => false

/-- The functions of the table are at indices of the table. -/
theorem syscallTable_lt {i : ℕ} {f : SyscallFn} (hf : syscallTable i = some f) : i < sysMax := by
  have hall : ∀ p ∈ syscallInit, p.1 < sysMax := by decide
  obtain ⟨l₁, l₂, hsplit, -⟩ := List.lookup_eq_some_iff.mp hf
  exact hall (i, f) (hsplit ▸ List.mem_append_right l₁ (List.mem_cons_self))

/-! ## §2  The calls -/

structure SyscallArgs where
  x0 : Word
  x1 : Word
  x2 : Word
  x3 : Word
  x4 : Word
  x5 : Word

/-- An access of `syscall_table` or of `current->fds`, by its index. -/
inductive ArrayAccess
  | table (i : ℕ)
  | fds (i : ℕ)
  deriving DecidableEq, Repr

def ArrayAccess.InBounds : ArrayAccess → Prop
  | .table i => i < sysMax
  | .fds i => i < maxOpenFiles

/-- The end of a call. There is no value if no `return` is reached. -/
structure CallEnd (σ : Type) where
  accesses : List ArrayAccess
  value : Option Word
  state : σ

/-- The kernel around the boundary. `fds s i` is the pointer at index `i` from
`current->fds` on, and the operations of a file are what its `file_ops` lead to.
`behind s i` is what a call of the pointer at index `i` past `syscall_table` does. -/
structure SyscallEnv (σ φ : Type) where
  fds : σ → ℕ → Option φ
  write : σ → φ → Option (Word → Word → σ → BitVec 32 × σ)
  read : σ → φ → Option (Word → Word → σ → BitVec 32 × σ)
  ioctl : σ → φ → Option (BitVec 32 → Word → σ → BitVec 32 × σ)
  other : SyscallFn → SyscallArgs → σ → Option Word × σ
  behind : σ → ℕ → Option (SyscallArgs → σ → Option Word × σ)

namespace SyscallEnv

variable {σ φ : Type} (env : SyscallEnv σ φ)

/-- `if(current->fds[fd] && current->fds[fd]->file_ops->op) return
current->fds[fd]->file_ops->op(current->fds[fd], a, b);`, and what follows it. -/
def fileCall (op : σ → φ → Option (Word → Word → σ → BitVec 32 × σ)) (otherwise : Option Word)
    (fd a b : Word) (s : σ) : CallEnd σ :=
  match env.fds s fd.toNat with
  | none => ⟨[.fds fd.toNat], otherwise, s⟩
  | some file =>
      match op s file with
      | none => ⟨List.replicate 2 (.fds fd.toNat), otherwise, s⟩
      | some run =>
          ⟨List.replicate 4 (.fds fd.toNat), some ((run a b s).1.signExtend 64), (run a b s).2⟩

def sysWrite (fd buf count : Word) (s : σ) : CallEnd σ :=
  env.fileCall env.write (some 0) fd buf count s

def sysRead (fd buf count : Word) (s : σ) : CallEnd σ :=
  env.fileCall env.read none fd buf count s

def sysIoctl (fd cmd arg : Word) (s : σ) : CallEnd σ :=
  env.fileCall (fun s file => (env.ioctl s file).map fun run cmd arg => run (cmd.setWidth 32) arg)
    none fd cmd arg s

def call (f : SyscallFn) (args : SyscallArgs) (s : σ) : CallEnd σ :=
  match f with
  | .sysWrite => env.sysWrite args.x0 args.x1 args.x2 s
  | .sysRead => env.sysRead args.x0 args.x1 args.x2 s
  | .sysIoctl => env.sysIoctl args.x0 args.x1 args.x2 s
  | f => ⟨[], (env.other f args s).1, (env.other f args s).2⟩

/-- What a call of the pointer at index `i` from `syscall_table` on does. -/
def tableAt (s : σ) (i : ℕ) : Option (SyscallArgs → σ → CallEnd σ) :=
  if i < sysMax then (syscallTable i).map env.call
  else (env.behind s i).map fun run args s => ⟨[], (run args s).1, (run args s).2⟩

def handleSyscall (args : SyscallArgs) (syscallNumber : Word) (s : σ) : CallEnd σ :=
  if sysMax < syscallNumber.toNat then ⟨[], some negEnosys, s⟩
  else
    match env.tableAt s syscallNumber.toNat with
    | none => ⟨[.table syscallNumber.toNat], some (-1), s⟩
    | some run =>
        let result := run args s
        { result with
          accesses := List.replicate 2 (.table syscallNumber.toNat) ++ result.accesses }

end SyscallEnv

/-! ## §3  What the boundary guards -/

/-- The number names a function, and a file descriptor an element of `fds`. -/
def AcceptedCall (args : SyscallArgs) (n : Word) : Prop :=
  ∃ f, syscallTable n.toNat = some f ∧ (f.takesFd → args.x0.toNat < maxOpenFiles)

/-- The call indexes only what exists, and is refused if it is not to be accepted. -/
structure BoundaryKept {σ φ : Type} (env : SyscallEnv σ φ) (args : SyscallArgs) (n : Word)
    (s : σ) : Prop where
  inBounds : ∀ a ∈ (env.handleSyscall args n s).accesses, a.InBounds
  refused : ¬ AcceptedCall args n →
    (∃ e, (env.handleSyscall args n s).value = some e ∧ e.toInt < 0) ∧
      (env.handleSyscall args n s).state = s

section Boundary

variable {σ φ : Type} (env : SyscallEnv σ φ) (args : SyscallArgs) (n : Word) (s : σ)

/-- A call with a file descriptor reads `fds` there, and nowhere else. -/
theorem fileCall_accesses (op : σ → φ → Option (Word → Word → σ → BitVec 32 × σ))
    (otherwise : Option Word) (fd a b : Word) (x : ArrayAccess) :
    x ∈ (env.fileCall op otherwise fd a b s).accesses ↔ x = .fds fd.toNat := by
  unfold SyscallEnv.fileCall
  cases env.fds s fd.toNat with
  | none => exact List.mem_singleton
  | some file =>
      dsimp only
      cases op s file with
      | none => exact List.mem_replicate.trans (and_iff_right (by decide : 2 ≠ 0))
      | some run => exact List.mem_replicate.trans (and_iff_right (by decide : 4 ≠ 0))

theorem call_accesses (f : SyscallFn) (x : ArrayAccess) :
    x ∈ (env.call f args s).accesses ↔ f.takesFd = true ∧ x = .fds args.x0.toNat := by
  cases f with
  | sysWrite => exact (fileCall_accesses env s _ _ _ _ _ x).trans (and_iff_right rfl).symm
  | sysRead => exact (fileCall_accesses env s _ _ _ _ _ x).trans (and_iff_right rfl).symm
  | sysIoctl => exact (fileCall_accesses env s _ _ _ _ _ x).trans (and_iff_right rfl).symm
  | _ => exact iff_of_false List.not_mem_nil fun h => Bool.false_ne_true h.1

theorem handleSyscall_above (hn : sysMax < n.toNat) :
    env.handleSyscall args n s = ⟨[], some negEnosys, s⟩ := if_pos hn

theorem handleSyscall_unused (hn : n.toNat < sysMax) (hnull : syscallTable n.toNat = none) :
    env.handleSyscall args n s = ⟨[.table n.toNat], some (-1), s⟩ := by
  rw [SyscallEnv.handleSyscall, if_neg (Nat.lt_asymm hn), SyscallEnv.tableAt, if_pos hn, hnull]
  rfl

theorem handleSyscall_listed {f : SyscallFn} (hf : syscallTable n.toNat = some f) :
    env.handleSyscall args n s =
      { env.call f args s with
        accesses := List.replicate 2 (.table n.toNat) ++ (env.call f args s).accesses } := by
  have hn := syscallTable_lt hf
  rw [SyscallEnv.handleSyscall, if_neg (Nat.lt_asymm hn), SyscallEnv.tableAt, if_pos hn, hf]
  rfl

/-- `SYS_MAX` itself passes the check, and the table is read behind its end. -/
theorem handleSyscall_max (hn : n.toNat = sysMax) :
    .table sysMax ∈ (env.handleSyscall args n s).accesses := by
  rw [SyscallEnv.handleSyscall, if_neg (Nat.not_lt_of_le (Nat.le_of_eq hn)), hn]
  cases env.tableAt s sysMax with
  | none => exact List.mem_singleton_self _
  | some run => exact List.mem_append_left _ (List.mem_cons_self)

theorem handleSyscall_listed_inBounds {f : SyscallFn} (hf : syscallTable n.toNat = some f) :
    (∀ a ∈ (env.handleSyscall args n s).accesses, a.InBounds) ↔
      (f.takesFd → args.x0.toNat < maxOpenFiles) := by
  rw [handleSyscall_listed env args n s hf]
  constructor
  · intro hall hfd
    exact hall (.fds args.x0.toNat) (List.mem_append_right _
      ((call_accesses env args s f _).mpr ⟨hfd, rfl⟩))
  · intro hfd a ha
    rcases List.mem_append.mp ha with htable | hcall
    · rw [List.eq_of_mem_replicate htable]
      exact syscallTable_lt hf
    · obtain ⟨htakes, ha⟩ := (call_accesses env args s f a).mp hcall
      rw [ha]
      exact hfd htakes

end Boundary

/-- The boundary is kept exactly when the number is not `SYS_MAX` and, if it is that
of `sys_read`, `sys_write` or `sys_ioctl`, the descriptor is below `MAX_OPEN_FILES`. -/
theorem boundary_kept_iff {σ φ : Type} (env : SyscallEnv σ φ) (args : SyscallArgs) (n : Word)
    (s : σ) : BoundaryKept env args n s ↔ n.toNat ≠ sysMax ∧
      ∀ f, syscallTable n.toNat = some f → f.takesFd → args.x0.toNat < maxOpenFiles := by
  constructor
  · intro hkept
    refine ⟨fun hmax => ?_, fun f hf => ?_⟩
    · exact absurd (hkept.inBounds _ (handleSyscall_max env args n s hmax)) (Nat.lt_irrefl _)
    · exact (handleSyscall_listed_inBounds env args n s hf).mp hkept.inBounds
  · rintro ⟨hmax, hfd⟩
    cases hf : syscallTable n.toNat with
    | some f =>
        exact ⟨(handleSyscall_listed_inBounds env args n s hf).mpr (hfd f hf),
          fun hnot => absurd ⟨f, hf, hfd f hf⟩ hnot⟩
    | none =>
        rcases Nat.lt_or_gt_of_ne hmax with hlt | hgt
        · have hend := handleSyscall_unused env args n s hlt hf
          refine ⟨fun a ha => ?_, fun _ => ⟨⟨-1, ?_, by decide⟩, ?_⟩⟩
          · rw [hend] at ha
            rw [List.mem_singleton.mp ha]
            exact hlt
          · rw [hend]
          · rw [hend]
        · have hend := handleSyscall_above env args n s hgt
          refine ⟨fun a ha => ?_, fun _ => ⟨⟨negEnosys, ?_, by decide⟩, ?_⟩⟩
          · rw [hend] at ha
            exact absurd ha List.not_mem_nil
          · rw [hend]
          · rw [hend]

/-- Number 300 calls what lies behind the table, and descriptor 32 of `sys_write`
what lies behind `fds`. -/
theorem boundary_crossed :
    ∃ (env : SyscallEnv ℕ Unit) (args : SyscallArgs),
      (.table 300 ∈ (env.handleSyscall args 300 0).accesses ∧
        (env.handleSyscall args 300 0).state = 1 ∧ ¬ BoundaryKept env args 300 0) ∧
      (.fds 32 ∈ (env.handleSyscall args 64 0).accesses ∧
        (env.handleSyscall args 64 0).state = 2 ∧ ¬ BoundaryKept env args 64 0) := by
  refine ⟨⟨fun _ _ => some (), fun _ _ => some fun _ _ _ => (0, 2), fun _ _ => none,
    fun _ _ => none, fun _ _ s => (some 0, s), fun _ _ => some fun _ _ => (some 0, 1)⟩,
    ⟨32, 0, 0, 0, 0, 0⟩, ⟨by decide, rfl, fun hkept => ?_⟩, ⟨by decide, rfl, fun hkept => ?_⟩⟩
  · exact absurd (hkept.inBounds (.table 300) (by decide)) (Nat.lt_irrefl 300)
  · exact absurd (hkept.inBounds (.fds 32) (by decide)) (Nat.lt_irrefl 32)

end Rpos
