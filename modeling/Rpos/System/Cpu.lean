import Rpos.Base.Runs
import Rpos.System.Entry

/-!
# The processor and the kernel stacks

One processor runs all processes. Each has a kernel stack from
`initialize_proc_kstack`, with its trap frame at the top while it is in the
kernel, and below that the frame of `context_switch` while another process runs.

The compiled C code between the assembly routines is not followed: it comes back
with the stack pointer on its stack and may have stored anywhere. What is proved of
a run is under the condition that it has kept to its own memory, `OwnStores`.
-/

namespace Rpos

open Base Base.A64

def kstackSize : ℕ := 4096

/-- `KSTACK_SIZE + PAGE_SIZE`, what `initialize_proc_kstack` allocates. -/
def kstackBlock : ℕ := kstackSize + 4096

/-- What `initialize_proc_kstack` returns for a block at `b`. -/
def kstackTop (b : ℕ) : ℕ := b + kstackBlock - 16

def baseTrapframe (b : ℕ) : ℕ := kstackTop b - sFrameSize

/-- The addresses of a block of `initialize_proc_kstack`. -/
def InStack (b a : ℕ) : Prop := b ≤ a ∧ a < b + kstackBlock

instance (b a : ℕ) : Decidable (InStack b a) := inferInstanceAs (Decidable (_ ∧ _))

inductive Mode
  | user
  /-- In the handler of an exception from user mode. -/
  | kernel
  /-- The idle process, which never leaves EL1. -/
  | thread
  /-- `PROCESS_TERMINATED` -/
  | dead
  deriving DecidableEq

/-- The code of a process in this mode leaves its stack alone from here on. -/
def Mode.limit (b : ℕ) : Mode → ℕ
  | .kernel => baseTrapframe b
  | _ => b + kstackBlock

structure KernelImage where
  retFromFork : Word
  /-- The page frames and the free lists of the buddy allocator. -/
  frames : Set ℕ

structure Cpu where
  machine : ArmState
  current : ℕ
  mode : ℕ → Mode
  /-- The block of each process that has a kernel stack. -/
  stack : ℕ → Option ℕ
  /-- Where the pcb of each process has its field `kernel_stack`. -/
  kernelStack : ℕ → ℕ

def withContext (m : ArmState) (κ : Context) : ArmState :=
  { m with
    x := fun r => if h : r < 31 then κ.x ⟨r, h⟩ else m.x r
    sys := fun s => match s with
      | .spEl0 => κ.spEl0
      | .elrEl1 => κ.elrEl1
      | .spsrEl1 => κ.spsrEl1
      | .ttbr0El1 => m.sys .ttbr0El1 }

/-- C code of the current process has kept to its own memory: no other kernel stack, no
trap frame and no field `kernel_stack` has changed. A `pipe_read` into a buffer at such an
address, which `sys_read` does not check, is a store that breaks it. -/
structure OwnStores (c : Cpu) (mem : ℕ → Word) : Prop where
  own : ∀ b, c.stack c.current = some b → ∀ a, (c.mode c.current).limit b ≤ a → InStack b a →
    mem a = c.machine.mem a
  kstacks : ∀ p ≠ c.current, ∀ b, c.stack p = some b → ∀ a, InStack b a →
    mem a = c.machine.mem a
  pcbs : ∀ p b, c.stack p = some b → mem (c.kernelStack p) = c.machine.mem (c.kernelStack p)

/-- A call of `check_and_reap` by the current process, which is on the stack in block `b`
already: it has its own frame there, and for a terminated process `buddy_free` writes the
page frames and the field `kernel_stack` is cleared. -/
structure CheckAndReap (image : KernelImage) (c : Cpu) (b : ℕ) (m t : ArmState) : Prop where
  sp : t.sp = m.sp
  running : c.mode c.current ≠ .dead → ∀ a, (InStack b a → m.sp ≤ a) → t.mem a = m.mem a
  terminated : c.mode c.current = .dead → t.mem (c.kernelStack c.current) = 0 ∧
    ∀ a, (InStack b a → m.sp ≤ a) → a ∉ image.frames → a ≠ c.kernelStack c.current →
      t.mem a = m.mem a

/-- The stacks after `check_and_reap`, which frees the block of a terminated process in
which the stack pointer that it saved lies. -/
def Cpu.reaped (c : Cpu) : ℕ → Option ℕ :=
  let old := (c.machine.exec contextSwitchSave).mem (c.kernelStack c.current)
  if c.mode c.current = .dead then
    fun p => (c.stack p).filter fun b => ¬ InStack b (old.toNat / 4096 * 4096)
  else c.stack

/-- What `clone_active_proc` writes for the new process: the copy of the stack page
from block `b` to block `b'`, the return value of `fork` in its trap frame, the
frame for `context_switch`, and its `kernel_stack`. -/
def cloneStack (retFromFork : Word) (slot b b' : ℕ) (mem : ℕ → Word) : ℕ → Word :=
  let copied := fun a =>
    if b' + kstackSize ≤ a ∧ a < b' + kstackBlock then mem (b + (a - b')) else mem a
  let returned := Function.update copied (baseTrapframe b') 0
  let cleared := fun a =>
    if baseTrapframe b' - csFrameSize ≤ a ∧ a < baseTrapframe b' then 0 else returned a
  let linked := Function.update cleared (baseTrapframe b' - csFrameSize + 8) retFromFork
  Function.update linked slot (BitVec.ofNat 64 (baseTrapframe b' - csFrameSize))

/-- The memory after `readelf` has set the trap frame at `a` for the new program. -/
def execFrame (mem : ℕ → Word) (a : ℕ) (entry : Word) : ℕ → Word :=
  Function.update (Function.update (Function.update mem (a + 248) (0x800000000 - 16))
    (a + 256) entry) (a + 264) 0

/-- On the stack of `q`, after `check_and_reap` left memory `m`. -/
def Cpu.switchTo (c : Cpu) (q : ℕ) (m : ArmState) : Cpu where
  machine := m.exec contextSwitchLoad
  current := q
  mode := c.mode
  stack := c.reaped
  kernelStack := c.kernelStack

/-- The new block at `b` and the new pcb with its `kernel_stack` at `a` are not in use. -/
structure Unused (image : KernelImage) (c : Cpu) (b a : ℕ) : Prop where
  apart : ∀ p b', c.stack p = some b' → b + kstackBlock ≤ b' ∨ b' + kstackBlock ≤ b
  pcbs : ∀ p b', c.stack p = some b' → ¬ InStack b (c.kernelStack p)
  slot : ¬ InStack b a
  slots : ∀ p b', c.stack p = some b' → ¬ InStack b' a ∧ a ≠ c.kernelStack p
  frames : ∀ x ∈ image.frames, ¬ InStack b x ∧ x ≠ a
  lt : b + kstackBlock < 2 ^ 64

inductive CpuEvent
  /-- User code runs, up to the next exception. -/
  | user (κ : Context)
  /-- `kernel_entry` -/
  | trap
  /-- C code of the kernel runs. -/
  | code
  /-- The return value of `handle_syscall` is stored. -/
  | reply (v : Word)
  /-- `readelf` sets up the trap frame. -/
  | exec (entry : Word)
  /-- `kernel_exit` -/
  | ret
  | switch (q : ℕ)
  | fork (r : ℕ)
  /-- `reap` marks the process as terminated. -/
  | exit

inductive Cpu.Step (image : KernelImage) : Cpu → CpuEvent → Cpu → Prop
  | user {c : Cpu} (κ : Context) : c.mode c.current = .user →
      Step image c (.user κ) { c with machine := withContext c.machine κ }
  | trap {c : Cpu} : c.mode c.current = .user →
      Step image c .trap { c with
        machine := c.machine.exec kernelEntry
        mode := Function.update c.mode c.current .kernel }
  | code {c : Cpu} {b : ℕ} {m : ArmState} : c.mode c.current ≠ .user →
      c.stack c.current = some b →
      b + kstackSize ≤ m.sp → m.sp ≤ (c.mode c.current).limit b →
      Step image c .code { c with machine := m }
  | reply {c : Cpu} {b : ℕ} : c.mode c.current = .kernel → c.stack c.current = some b →
      c.machine.sp = baseTrapframe b →
      Step image c (.reply (c.machine.x 0))
        { c with machine := c.machine.step (.strSp 0 0) }
  | exec {c : Cpu} {b : ℕ} (entry : Word) : c.mode c.current = .kernel →
      c.stack c.current = some b →
      Step image c (.exec entry) { c with machine := { c.machine with
        mem := execFrame c.machine.mem (baseTrapframe b) entry } }
  | ret {c : Cpu} {b : ℕ} : c.mode c.current = .kernel → c.stack c.current = some b →
      c.machine.sp = baseTrapframe b →
      Step image c .ret { c with
        machine := c.machine.exec kernelExit
        mode := Function.update c.mode c.current .user }
  | switch {c : Cpu} {b b' q : ℕ} {m : ArmState} : c.mode c.current ≠ .user →
      c.stack c.current = some b → c.stack q = some b' → q ≠ c.current →
      -- the arguments of the call, and room on the stack
      c.machine.x 0 = c.machine.mem (c.kernelStack q) →
      (c.machine.x 1).toNat = c.kernelStack c.current →
      b + kstackSize + csFrameSize ≤ c.machine.sp →
      CheckAndReap image c b' (c.machine.exec contextSwitchSave) m →
      Step image c (.switch q) (c.switchTo q m)
  | fork {c : Cpu} {b b' r a : ℕ} : c.mode c.current = .kernel →
      c.stack c.current = some b → c.stack r = none → Unused image c b' a →
      Step image c (.fork r) { c with
        machine := { c.machine with
          mem := cloneStack image.retFromFork a b b' c.machine.mem }
        mode := Function.update c.mode r .kernel
        stack := Function.update c.stack r (some b')
        kernelStack := Function.update c.kernelStack r a }
  | exit {c : Cpu} : c.mode c.current = .kernel →
      Step image c .exit { c with
        mode := Function.update c.mode c.current .dead }

structure Cpu.OwnStep (image : KernelImage) (c : Cpu) (e : CpuEvent) (d : Cpu) : Prop where
  step : Cpu.Step image c e d
  own : e = .code → OwnStores c d.machine.mem

structure Processors where
  current : ℕ
  context : ℕ → Context

def Context.reply (κ : Context) (v : Word) : Context :=
  { κ with x := Function.update κ.x 0 v }

def Context.exec (κ : Context) (entry : Word) : Context :=
  { κ with spEl0 := 0x800000000 - 16, elrEl1 := entry, spsrEl1 := 0 }

namespace Processors

def boot (p : ℕ) (κ : Context) : Processors := ⟨p, fun _ => κ⟩

def setContext (s : Processors) (p : ℕ) (κ : Context) : Processors :=
  { s with context := Function.update s.context p κ }

/-- A process changes its own registers only; a child gets those of its parent. -/
def step (s : Processors) : CpuEvent → Processors
  | .user κ => s.setContext s.current κ
  | .reply v => s.setContext s.current ((s.context s.current).reply v)
  | .exec entry => s.setContext s.current ((s.context s.current).exec entry)
  | .switch q => { s with current := q }
  | .fork r => s.setContext r ((s.context s.current).reply 0)
  | _ => s

def run (s : Processors) (events : List CpuEvent) : Processors := events.foldl step s

end Processors

/-! ## The kernel stacks -/

/-- The stacks in use lie apart from each other, from the pcbs and from the page frames. -/
structure StackLayout (image : KernelImage) (c : Cpu) : Prop where
  apart : ∀ p q b b', p ≠ q → c.stack p = some b → c.stack q = some b' →
    b + kstackBlock ≤ b' ∨ b' + kstackBlock ≤ b
  pcb : ∀ p q b b', c.stack p = some b → c.stack q = some b' → ¬ InStack b (c.kernelStack q)
  slots : ∀ p q b b', p ≠ q → c.stack p = some b → c.stack q = some b' →
    c.kernelStack p ≠ c.kernelStack q
  frames : ∀ p b, c.stack p = some b → ∀ a ∈ image.frames, ¬ InStack b a ∧ a ≠ c.kernelStack p
  lt : ∀ p b, c.stack p = some b → b + kstackBlock < 2 ^ 64

/-- The process on the processor: its context is in the registers, or in its trap
frame. -/
def Active (c : Cpu) (s : Processors) (b : ℕ) : Prop :=
  match c.mode c.current with
  | .user => c.machine.sp = kstackTop b ∧ Context.of c.machine = s.context c.current
  | .kernel => (b + kstackSize ≤ c.machine.sp ∧ c.machine.sp ≤ baseTrapframe b) ∧
      TrapFrame c.machine.mem (baseTrapframe b) (s.context c.current)
  | m => b + kstackSize ≤ c.machine.sp ∧ c.machine.sp ≤ m.limit b

def Cpu.saved (c : Cpu) (p : ℕ) : ℕ :=
  (c.machine.mem (c.kernelStack p)).toNat

structure Suspended (c : Cpu) (s : Processors) (p b : ℕ) : Prop where
  low : b + kstackSize ≤ c.saved p
  high : c.saved p + csFrameSize ≤ (c.mode p).limit b
  mode : c.mode p = .kernel ∨ c.mode p = .thread
  frame : c.mode p = .kernel → TrapFrame c.machine.mem (baseTrapframe b) (s.context p)

structure Shares (image : KernelImage) (c : Cpu) (s : Processors) : Prop where
  current : s.current = c.current
  layout : StackLayout image c
  active : ∃ b, c.stack c.current = some b ∧ Active c s b
  suspended : ∀ p ≠ c.current, ∀ b, c.stack p = some b → Suspended c s p b

section

variable {image : KernelImage} {retFromFork : Word} {c d : Cpu} {s t : Processors} {p q b b' a : ℕ}

theorem baseTrapframe_le (b : ℕ) : b + kstackSize + csFrameSize + sFrameSize ≤ kstackTop b ∧
    baseTrapframe b + sFrameSize = kstackTop b ∧
    kstackTop b + 16 = b + kstackBlock := by
  unfold baseTrapframe kstackTop kstackBlock kstackSize csFrameSize sFrameSize
  omega

@[simp]
theorem Mode.limit_kernel (b : ℕ) : Mode.kernel.limit b = baseTrapframe b := rfl

theorem kstackSize_eq : kstackSize = 4096 := rfl

theorem Mode.limit_dead (b : ℕ) : Mode.dead.limit b = b + kstackBlock := rfl

theorem Mode.limit_le (m : Mode) (b : ℕ) : m.limit b ≤ b + kstackBlock := by
  have h := baseTrapframe_le b
  cases m <;> unfold Mode.limit <;> dsimp only <;> omega

theorem kstackBlock_eq : kstackBlock = 8192 := rfl

attribute [irreducible] kstackSize kstackBlock kstackTop baseTrapframe Mode.limit Cpu.saved

theorem StackLayout.mono (h : StackLayout image c)
    (hle : ∀ p b, d.stack p = some b → c.stack p = some b)
    (hslot : d.kernelStack = c.kernelStack) : StackLayout image d := by
  refine ⟨fun p q b b' hne hp hq => ?_, fun p q b b' hp hq => ?_, fun p q b b' hne hp hq => ?_,
    fun p b hp => ?_, fun p b hp => h.lt p b (hle p b hp)⟩
  · exact h.apart p q b b' hne (hle p b hp) (hle q b' hq)
  · rw [hslot]
    exact h.pcb p q b b' (hle p b hp) (hle q b' hq)
  · rw [hslot]
    exact h.slots p q b b' hne (hle p b hp) (hle q b' hq)
  · rw [hslot]
    exact h.frames p b (hle p b hp)

theorem StackLayout.notIn (h : StackLayout image c) (hne : p ≠ q)
    (hp : c.stack p = some b) (hq : c.stack q = some b') (ha : InStack b a) : ¬ InStack b' a := by
  have := h.apart p q b b' hne hp hq
  unfold InStack at ha ⊢
  omega

/-- A process waits on as long as its stack and its pcb stay as they are. -/
theorem Suspended.congr (h : Suspended c s p b) (hmode : d.mode p = c.mode p)
    (hcontext : t.context p = s.context p)
    (hpcb : d.machine.mem (d.kernelStack p) = c.machine.mem (c.kernelStack p))
    (hmem : ∀ a, InStack b a → c.saved p ≤ a → d.machine.mem a = c.machine.mem a) :
    Suspended d t p b := by
  have hsaved : d.saved p = c.saved p := by
    unfold Cpu.saved
    rw [hpcb]
  have hlimit := baseTrapframe_le b
  have hhigh := h.high
  refine ⟨?_, ?_, ?_, fun hk => ?_⟩
  · rw [hsaved]
    exact h.low
  · rw [hsaved, hmode]
    exact h.high
  · rw [hmode]
    exact h.mode
  rw [hmode] at hk
  rw [hk, Mode.limit_kernel] at hhigh
  rw [hcontext]
  refine (h.frame hk).congr fun a ha ha' => hmem a ⟨?_, ?_⟩ ?_
  · omega
  · omega
  · omega

theorem Shares.sp (h : Shares image c s) (hb : c.stack c.current = some b) :
    b + kstackSize ≤ c.machine.sp ∧ c.machine.sp ≤ b + kstackBlock := by
  obtain ⟨b', hb', hactive⟩ := h.active
  rw [hb, Option.some.injEq] at hb'
  rw [← hb'] at hactive
  have hbase := baseTrapframe_le b
  unfold Active at hactive
  split at hactive
  · exact ⟨by omega, by omega⟩
  · exact ⟨by omega, by omega⟩
  · have := (c.mode c.current).limit_le b
    exact ⟨by omega, by omega⟩

/-! ## The stack of a new process -/

theorem cloneStack_of_notIn {slot : ℕ} {mem : ℕ → Word} (ha : ¬ InStack b' a) (hslot : a ≠ slot) :
    cloneStack retFromFork slot b b' mem a = mem a := by
  have hbase := baseTrapframe_le b'
  unfold InStack at ha
  unfold cloneStack
  simp only [Function.update_apply]
  rw [if_neg hslot, if_neg (by omega), if_neg (by omega), if_neg (by omega), if_neg (by omega)]

/-- The child's trap frame is the parent's, with 0 for `x0`. -/
theorem cloneStack_trapFrame {slot : ℕ} {mem : ℕ → Word} {κ : Context}
    (h : TrapFrame mem (baseTrapframe b) κ) (hslot : ¬ InStack b' slot) :
    TrapFrame (cloneStack retFromFork slot b b' mem) (baseTrapframe b') (κ.reply 0) := by
  have hbase := baseTrapframe_le b
  have hbase' := baseTrapframe_le b'
  have hframe : sFrameSize = 272 := rfl
  have hsize : csFrameSize = 96 := rfl
  have hcell : ∀ k, k < sFrameSize → k ≠ 0 →
      cloneStack retFromFork slot b b' mem (baseTrapframe b' + k) = mem (baseTrapframe b + k) := by
    intro k hk hk0
    have hne : baseTrapframe b' + k ≠ slot := by
      intro heq
      refine hslot ⟨?_, ?_⟩ <;> omega
    unfold cloneStack
    simp only [Function.update_apply]
    rw [if_neg hne, if_neg (by omega), if_neg (by omega), if_neg (by omega),
      if_pos ⟨by omega, by omega⟩]
    congr 1
    omega
  refine ⟨fun i => ?_, ?_, ?_, ?_⟩
  · by_cases hi : i = 0
    · have hne : baseTrapframe b' ≠ slot := by
        intro heq
        refine hslot ⟨?_, ?_⟩ <;> omega
      rw [hi]
      unfold cloneStack
      simp only [Fin.val_zero, Nat.mul_zero, Nat.add_zero, Function.update_apply, Context.reply,
        if_true]
      rw [if_neg hne, if_neg (by omega), if_neg (by omega)]
    · have hpos : (i : ℕ) ≠ 0 := fun hval => hi (Fin.ext hval)
      rw [hcell _ (by omega) (by omega), h.regs]
      exact (Function.update_of_ne hi _ _).symm
  · rw [hcell _ (by omega) (by omega), h.spEl0]
    rfl
  · rw [hcell _ (by omega) (by omega), h.elrEl1]
    rfl
  · rw [hcell _ (by omega) (by omega), h.spsrEl1]
    rfl

theorem cloneStack_slot {slot : ℕ} {mem : ℕ → Word} :
    cloneStack retFromFork slot b b' mem slot =
      BitVec.ofNat 64 (baseTrapframe b' - csFrameSize) := by
  unfold cloneStack
  exact Function.update_self _ _ _

theorem saved_clone {r : ℕ} (hlt : b' + kstackBlock < 2 ^ 64)
    (hmem : d.machine.mem = cloneStack retFromFork (d.kernelStack r) b b' c.machine.mem) :
    d.saved r = baseTrapframe b' - csFrameSize := by
  have hbase := baseTrapframe_le b'
  unfold Cpu.saved
  rw [hmem, cloneStack_slot, BitVec.toNat_ofNat, Nat.mod_eq_of_lt (by omega)]

theorem Suspended.clone {r : ℕ} (hcur : s.current = c.current)
    (h : TrapFrame c.machine.mem (baseTrapframe b) (s.context c.current))
    (hslot : ¬ InStack b' (d.kernelStack r)) (hlt : b' + kstackBlock < 2 ^ 64)
    (hmode : d.mode r = .kernel) (ht : t.context r = (s.context s.current).reply 0)
    (hmem : d.machine.mem = cloneStack retFromFork (d.kernelStack r) b b' c.machine.mem) :
    Suspended d t r b' := by
  have hbase := baseTrapframe_le b'
  have hsaved := saved_clone hlt hmem
  refine ⟨?_, ?_, Or.inl hmode, fun _ => ?_⟩
  · rw [hsaved]
    omega
  · rw [hsaved, hmode, Mode.limit_kernel]
    omega
  · rw [ht, hmem, hcur]
    exact cloneStack_trapFrame h hslot

theorem TrapFrame.reply {m : ArmState} {κ : Context} (h : TrapFrame m.mem (baseTrapframe b) κ)
    (hsp : m.sp = baseTrapframe b) :
    TrapFrame (m.step (.strSp 0 0)).mem (baseTrapframe b) (κ.reply (m.x 0)) := by
  have hcell : ∀ k, (m.step (.strSp 0 0)).mem (baseTrapframe b + k) =
      if k = 0 then m.x 0 else m.mem (baseTrapframe b + k) := by
    intro k
    refine ArmState.store_mem.trans ?_
    rw [hsp]
    by_cases hk : k = 0
    · rw [if_pos hk, if_pos (by omega)]
    · rw [if_neg hk, if_neg (by omega)]
  refine ⟨fun i => ?_, ?_, ?_, ?_⟩
  · rw [hcell]
    by_cases hi : i = 0
    · rw [hi]
      rfl
    · have hpos : (i : ℕ) ≠ 0 := fun hval => hi (Fin.ext hval)
      rw [if_neg (by omega), h.regs]
      exact (Function.update_of_ne hi _ _).symm
  · rw [hcell, if_neg (by omega), h.spEl0]
    rfl
  · rw [hcell, if_neg (by omega), h.elrEl1]
    rfl
  · rw [hcell, if_neg (by omega), h.spsrEl1]
    rfl

theorem execFrame_of_notIn {mem : ℕ → Word} {entry : Word} (ha : ¬ InStack b a) :
    execFrame mem (baseTrapframe b) entry a = mem a := by
  have hbase := baseTrapframe_le b
  have hframe : sFrameSize = 272 := rfl
  unfold InStack at ha
  unfold execFrame
  rw [Function.update_of_ne (by omega), Function.update_of_ne (by omega),
    Function.update_of_ne (by omega)]

/-- `readelf` changes the frame to the one of the new program. -/
theorem TrapFrame.exec {mem : ℕ → Word} {κ : Context} (h : TrapFrame mem a κ) (entry : Word) :
    TrapFrame (execFrame mem a entry) a (κ.exec entry) := by
  unfold execFrame
  refine ⟨fun i => ?_, ?_, ?_, ?_⟩
  · rw [Function.update_of_ne (by omega), Function.update_of_ne (by omega),
      Function.update_of_ne (by omega)]
    exact h.regs i
  · rw [Function.update_of_ne (by omega), Function.update_of_ne (by omega)]
    exact Function.update_self _ _ _
  · rw [Function.update_of_ne (by omega)]
    exact Function.update_self _ _ _
  · exact Function.update_self _ _ _

end

end Rpos
