import Rpos.Filesystem.Open
import Rpos.System.SyscallTable
import Rpos.Utils.Trie

/-!
# Descriptors

`fd_alloc` of `process.c` and `sys_open` of `syscalls.c`. A pcb is the row of its
64-bit words, since the index that `fd_alloc` returns is used to store into `fds`
whatever it is: in a pcb the word before `fds` is `heap_vma`.
-/

namespace Rpos

open Base

/-! ## §1  `fd_alloc` -/

/-- The words of a `pcb_t`. -/
abbrev Pcb := ℕ → ℕ

/-- The word of `heap_vma`: before it come `kernel_stack` and `ttbr`, two words of
32-bit fields, `proclist`, `runqueue`, `parent`, `children`, `siblings`, `cwd`,
`vmas`, `brk` and `start_brk`. -/
def heapVmaWord : ℕ := 18

def fdsWord : ℕ := 19

def Pcb.setFd (proc : Pcb) (i : ℤ) (file : ℕ) : Pcb :=
  Function.update proc (fdsWord + i).toNat file

/-- The loop of `fd_alloc` from `i` on, with `n` slots left. -/
def fdAllocLoop (file : ℕ) : ℕ → ℕ → Pcb → ℤ × Pcb
  | 0, _, proc => (-1, proc)
  | n + 1, i, proc =>
      if proc (fdsWord + i) = 0 then (i, proc.setFd i file)
      else fdAllocLoop file n (i + 1) proc

def fdAlloc (proc : Pcb) (file : ℕ) : ℤ × Pcb := fdAllocLoop file maxOpenFiles 0 proc

theorem setFd_nat (proc : Pcb) (i file : ℕ) :
    proc.setFd i file = Function.update proc (fdsWord + i) file := rfl

theorem setFd_neg_one (proc : Pcb) (file : ℕ) :
    proc.setFd (-1) file = Function.update proc heapVmaWord file := rfl

/-- The search stops at an empty slot, or it has seen all of them in use. -/
theorem fdAllocLoop_cases (file n : ℕ) :
    ∀ (i : ℕ) (proc : Pcb),
      (∃ j, i ≤ j ∧ j < i + n ∧ proc (fdsWord + j) = 0 ∧
        fdAllocLoop file n i proc = (↑j, proc.setFd j file)) ∨
      (∀ j, i ≤ j → j < i + n → proc (fdsWord + j) ≠ 0) ∧
        fdAllocLoop file n i proc = (-1, proc) := by
  induction n with
  | zero =>
      intro i proc
      exact Or.inr ⟨fun j hle hlt => absurd hlt (Nat.not_lt_of_le hle), rfl⟩
  | succ n ih =>
      intro i proc
      rw [fdAllocLoop]
      by_cases hi : proc (fdsWord + i) = 0
      · rw [if_pos hi]
        exact Or.inl ⟨i, le_rfl, by omega, hi, rfl⟩
      · rw [if_neg hi]
        rcases ih (i + 1) proc with ⟨j, hle, hlt, hj⟩ | ⟨hall, hend⟩
        · exact Or.inl ⟨j, by omega, by omega, hj⟩
        · refine Or.inr ⟨fun j hle hlt => ?_, hend⟩
          by_cases hji : j = i
          · rwa [hji]
          · exact hall j (by omega) (by omega)

def Pcb.FreeSlot (proc : Pcb) : Prop := ∃ i < maxOpenFiles, proc (fdsWord + i) = 0

theorem fdAlloc_free {proc : Pcb} (h : proc.FreeSlot) (file : ℕ) :
    ∃ i < maxOpenFiles, proc (fdsWord + i) = 0 ∧
      fdAlloc proc file = (↑i, proc.setFd i file) := by
  rcases fdAllocLoop_cases file maxOpenFiles 0 proc with ⟨j, -, hlt, hj⟩ | ⟨hall, -⟩
  · exact ⟨j, by omega, hj⟩
  · obtain ⟨i, hi, hfree⟩ := h
    exact absurd hfree (hall i (Nat.zero_le i) (by omega))

theorem fdAlloc_full {proc : Pcb} (h : ¬ proc.FreeSlot) (file : ℕ) :
    fdAlloc proc file = (-1, proc) := by
  rcases fdAllocLoop_cases file maxOpenFiles 0 proc with ⟨j, -, hlt, hfree, -⟩ | ⟨-, hend⟩
  · exact absurd ⟨j, by omega, hfree⟩ h
  · exact hend

/-! ## §2  `sys_open` -/

/-- `device_trie`, and what the `open` operation of a device's file does to the
objects in use, if it has one. It frees only what it has allocated itself. -/
structure Devices where
  trie : Trie ℕ
  opens : ℕ → OpenState → OpenState
  keeps : ∀ f s p, s.heap p ≠ none → (opens f s).heap p ≠ none

def checkVfs (dev : Devices) (path : List UInt8) : Word :=
  trieGet dev.trie (path.map UInt8.toNat)

/-- `-ENOENT`. -/
def negEnoent : Word := -2

/-- The arguments of a call, and what its calls of `kmalloc` return. -/
structure OpenCall where
  path : List UInt8
  str : ℕ
  nodeptr : ℕ
  file : ℕ

structure Process where
  pcb : Pcb
  objects : OpenState

/-- Take a descriptor for the file and store it there, as both paths of `sys_open`
do. -/
def takeFd (pcb : Pcb) (file : ℕ) : Word × Pcb :=
  let r := fdAlloc pcb file
  (BitVec.ofInt 64 r.1, r.2.setFd r.1 file)

/-- `sys_open`. A device's file is copied to a fresh object, through a null pointer
if there is none; a file on disk has no operations. -/
def sysOpen (fs : Rootfs) (dev : Devices) (s : Process) (c : OpenCall) :
    Option (Word × Process) :=
  if checkVfs dev c.path ≠ 0 then
    if ¬ s.objects.Fresh c.file then none
    else
      let r := takeFd s.pcb c.file
      some (r.1, ⟨r.2, dev.opens c.file (s.objects.put c.file .other)⟩)
  else
    match openFile fs s.objects c.path c.str c.nodeptr c.file with
    | none => none
    | some (f, objects) =>
        if f = 0 then some (negEnoent, ⟨s.pcb, objects⟩)
        else
          let r := takeFd s.pcb f
          some (r.1, ⟨r.2, objects⟩)

/-- The path names a device, or a file on disk that can be opened. -/
def OpensFile (fs : Rootfs) (dev : Devices) (s : Process) (c : OpenCall) : Prop :=
  checkVfs dev c.path ≠ 0 ∨ ∃ f objects,
    openFile fs s.objects c.path c.str c.nodeptr c.file = some (f, objects) ∧ f ≠ 0

/-- What a call that opens a file should do to the pcb: it fills a slot that was
empty, and it fails if there is none. -/
structure OpensCleanly (pcb : Pcb) (value : Word) (pcb' : Pcb) : Prop where
  free : pcb.FreeSlot → ∃ i < maxOpenFiles, value = BitVec.ofNat 64 i ∧
    pcb (fdsWord + i) = 0 ∧ pcb' (fdsWord + i) ≠ 0 ∧
    ∀ w ≠ fdsWord + i, pcb' w = pcb w
  full : ¬ pcb.FreeSlot → value.toInt < 0 ∧ pcb' = pcb

/-! ## §3  When no descriptor is free -/

/-- `heap_vma` is NULL or an object in use, so that no `kmalloc` returns it. -/
def Process.HeapVmaLive (s : Process) : Prop :=
  s.pcb heapVmaWord = 0 ∨ s.objects.heap (s.pcb heapVmaWord) ≠ none

section

variable {fs : Rootfs} {dev : Devices} {s t : Process} {c : OpenCall} {v : Word}

theorem OpenState.put_live {o : OpenState} {p q : ℕ} {x : KObject} (h : o.heap q ≠ none) :
    (o.put p x).heap q ≠ none := by
  by_cases hqp : q = p
  · simp [OpenState.put, hqp]
  · simpa [OpenState.put, hqp] using h

theorem OpenState.kfree_live {o : OpenState} {p q : ℕ} (h : o.heap q ≠ none) (hne : q ≠ p) :
    (o.kfree p).heap q ≠ none := by
  simpa [OpenState.kfree, hne] using h

/-- `open` keeps the objects in use, and the file it returns is a new one. -/
theorem openFile_keeps {o o' : OpenState} {path : List UInt8} {str nodeptr file f : ℕ}
    (hopen : openFile fs o path str nodeptr file = some (f, o')) :
    (∀ p, o.heap p ≠ none → o'.heap p ≠ none) ∧
      (f ≠ 0 → o.heap f = none ∧ o'.heap f ≠ none) := by
  unfold openFile at hopen
  by_cases hstr : str = 0
  · simp only [if_pos hstr, Option.some.injEq, Prod.mk.injEq] at hopen
    obtain ⟨rfl, rfl⟩ := hopen
    exact ⟨fun _ h => h, fun h => absurd rfl h⟩
  rw [if_neg hstr] at hopen
  by_cases hfs : o.Fresh str
  swap
  · simp [hfs] at hopen
  rw [if_neg (not_not.mpr hfs)] at hopen
  have hput : ∀ p, o.heap p ≠ none → (o.put str (.string path)).heap p ≠ none :=
    fun p h => OpenState.put_live h
  by_cases hnode : nodeptr = 0
  · simp only [if_pos hnode] at hopen
    split at hopen
    · simp at hopen
    · simp only [Option.some.injEq, Prod.mk.injEq] at hopen
      obtain ⟨rfl, rfl⟩ := hopen
      exact ⟨hput, fun h => absurd rfl h⟩
  simp only [if_neg hnode] at hopen
  by_cases hfn : (o.put str (.string path)).Fresh nodeptr
  swap
  · simp [hfn] at hopen
  rw [if_neg (not_not.mpr hfn)] at hopen
  have hput' : ∀ p, o.heap p ≠ none →
      ((o.put str (.string path)).put nodeptr (.inode fs.rootInode)).heap p ≠ none :=
    fun p h => OpenState.put_live (hput p h)
  by_cases hhead : path.head? = some delimiter
  swap
  · rw [if_pos hhead] at hopen
    simp only [Option.some.injEq, Prod.mk.injEq] at hopen
    obtain ⟨rfl, rfl⟩ := hopen
    exact ⟨hput', fun h => absurd rfl h⟩
  rw [if_neg (not_not.mpr hhead)] at hopen
  cases hres : resolve fs path with
  | none =>
      simp only [hres, Option.some.injEq, Prod.mk.injEq] at hopen
      obtain ⟨rfl, rfl⟩ := hopen
      exact ⟨hput', fun h => absurd rfl h⟩
  | some x =>
      simp only [hres] at hopen
      split at hopen
      · simp at hopen
      · rename_i hff
        rw [not_not] at hff
        simp only [Option.some.injEq, Prod.mk.injEq] at hopen
        obtain ⟨rfl, rfl⟩ := hopen
        -- what was in use is neither the path's copy nor the inode buffer
        have hlive : ∀ p, o.heap p ≠ none →
            ((((o.put str (.string path)).put nodeptr (.inode fs.rootInode)).put nodeptr
              (.inode x)).kfree str).heap p ≠ none :=
          fun p h => OpenState.kfree_live (OpenState.put_live (hput' p h))
            fun heq => h (heq ▸ hfs.2)
        have hnew : ∀ p, o.heap p ≠ none → p ≠ nodeptr :=
          fun p h heq => hput p h (heq ▸ hfn.2)
        have hfresh : file ≠ nodeptr := by
          intro heq
          have hnone := hff.2
          have hns : nodeptr ≠ str := OpenState.fresh_put hfn
          simp [OpenState.kfree, OpenState.put, heq, hns] at hnone
        refine ⟨fun p h => OpenState.kfree_live (OpenState.put_live (hlive p h)) (hnew p h),
          fun _ => ⟨?_, ?_⟩⟩
        · by_contra hne
          exact hlive file hne hff.2
        · simp [OpenState.kfree, OpenState.put, hfresh]

/-- A call that opens a file takes a descriptor for a new object, and keeps the
objects in use. -/
theorem sysOpen_opens (hstep : sysOpen fs dev s c = some (v, t))
    (hopens : OpensFile fs dev s c) :
    ∃ f, f ≠ 0 ∧ s.objects.heap f = none ∧ t.objects.heap f ≠ none ∧
      (∀ p, s.objects.heap p ≠ none → t.objects.heap p ≠ none) ∧
      (v, t.pcb) = takeFd s.pcb f := by
  unfold sysOpen at hstep
  by_cases hvfs : checkVfs dev c.path ≠ 0
  · rw [if_pos hvfs] at hstep
    split at hstep
    · simp at hstep
    · rename_i hfresh
      rw [not_not] at hfresh
      simp only [Option.some.injEq, Prod.mk.injEq] at hstep
      obtain ⟨rfl, rfl⟩ := hstep
      refine ⟨c.file, hfresh.1, hfresh.2, dev.keeps _ _ _ ?_,
        fun p h => dev.keeps _ _ _ (OpenState.put_live h), rfl⟩
      simp [OpenState.put]
  · rw [if_neg hvfs] at hstep
    obtain ⟨f, objects, hopen, hf⟩ := hopens.resolve_left hvfs
    simp only [hopen, if_neg hf, Option.some.injEq, Prod.mk.injEq] at hstep
    obtain ⟨rfl, rfl⟩ := hstep
    obtain ⟨hkeeps, hnew⟩ := openFile_keeps hopen
    exact ⟨f, hf, (hnew hf).1, (hnew hf).2, hkeeps, rfl⟩

theorem sysOpen_refuses (hstep : sysOpen fs dev s c = some (v, t))
    (hopens : ¬ OpensFile fs dev s c) :
    t.pcb = s.pcb ∧ ∀ p, s.objects.heap p ≠ none → t.objects.heap p ≠ none := by
  unfold sysOpen at hstep
  have hvfs : ¬ checkVfs dev c.path ≠ 0 := fun h => hopens (Or.inl h)
  rw [if_neg hvfs] at hstep
  cases hopen : openFile fs s.objects c.path c.str c.nodeptr c.file with
  | none => simp [hopen] at hstep
  | some r =>
      obtain ⟨f, objects⟩ := r
      have hf : f = 0 := by
        by_contra hf
        exact hopens (Or.inr ⟨f, objects, hopen, hf⟩)
      simp only [hopen, if_pos hf, Option.some.injEq, Prod.mk.injEq] at hstep
      obtain ⟨rfl, rfl⟩ := hstep
      exact ⟨rfl, (openFile_keeps hopen).1⟩

theorem takeFd_free {pcb : Pcb} (h : pcb.FreeSlot) (file : ℕ) :
    ∃ i < maxOpenFiles, pcb (fdsWord + i) = 0 ∧
      takeFd pcb file = (BitVec.ofNat 64 i, Function.update pcb (fdsWord + i) file) := by
  obtain ⟨i, hi, hfree, halloc⟩ := fdAlloc_free h file
  refine ⟨i, hi, hfree, ?_⟩
  simp only [takeFd, halloc, setFd_nat, Function.update_idem]
  rfl

theorem takeFd_full {pcb : Pcb} (h : ¬ pcb.FreeSlot) (file : ℕ) :
    takeFd pcb file = (-1, Function.update pcb heapVmaWord file) := by
  simp only [takeFd, fdAlloc_full h, setFd_neg_one]
  rfl

/-- A call that opens a file does so cleanly exactly when a descriptor is free. -/
theorem sysOpen_clean_iff (hlive : s.HeapVmaLive) (hstep : sysOpen fs dev s c = some (v, t))
    (hopens : OpensFile fs dev s c) :
    (OpensCleanly s.pcb v t.pcb ↔ s.pcb.FreeSlot) ∧ t.HeapVmaLive := by
  obtain ⟨f, hf, hnew, hmade, hkeeps, htake⟩ := sysOpen_opens hstep hopens
  by_cases hfree : s.pcb.FreeSlot
  · obtain ⟨i, hi, hslot, hfd⟩ := takeFd_free hfree f
    rw [hfd, Prod.mk.injEq] at htake
    obtain ⟨rfl, hpcb⟩ := htake
    refine ⟨iff_of_true ⟨fun _ => ⟨i, hi, rfl, hslot, ?_, fun w hw => ?_⟩,
      fun hfull => absurd hfree hfull⟩ hfree, ?_⟩
    · rw [hpcb, Function.update_self]
      exact hf
    · rw [hpcb, Function.update_of_ne hw]
    · have hword : t.pcb heapVmaWord = s.pcb heapVmaWord := by
        rw [hpcb, Function.update_of_ne]
        simp only [heapVmaWord, fdsWord]
        omega
      unfold Process.HeapVmaLive
      rw [hword]
      exact hlive.imp_right (hkeeps _)
  · rw [takeFd_full hfree f, Prod.mk.injEq] at htake
    obtain ⟨rfl, hpcb⟩ := htake
    have hword : t.pcb heapVmaWord = f := by rw [hpcb, Function.update_self]
    refine ⟨iff_of_false (fun hclean => ?_) hfree, Or.inr (by rwa [hword])⟩
    -- the word of `heap_vma` has changed: a new object is neither NULL nor in use
    have hsame : s.pcb heapVmaWord = f := by rw [← hword, (hclean.full hfree).2]
    rcases hlive with hnull | hused
    · exact hf (hsame.symm.trans hnull)
    · rw [hsame] at hused
      exact hused hnew

end

/-- In every run of `sys_open`: the calls that open a file do so cleanly exactly
when each of them finds a descriptor free. -/
theorem descriptors_clean_iff (fs : Rootfs) (dev : Devices) {s : Process}
    (hlive : s.HeapVmaLive) (calls : List OpenCall) :
    Along (sysOpen fs dev)
        (fun s c v t => OpensFile fs dev s c → OpensCleanly s.pcb v t.pcb) s calls ↔
      Along (sysOpen fs dev) (fun s c _ _ => OpensFile fs dev s c → s.pcb.FreeSlot)
        s calls := by
  have hstep : ∀ s c v t, s.HeapVmaLive → sysOpen fs dev s c = some (v, t) →
      ((OpensFile fs dev s c → OpensCleanly s.pcb v t.pcb) ↔
        (OpensFile fs dev s c → s.pcb.FreeSlot)) ∧
      ((OpensFile fs dev s c → s.pcb.FreeSlot) → t.HeapVmaLive) := by
    intro s c v t hlive hstep
    by_cases hopens : OpensFile fs dev s c
    · obtain ⟨hiff, hlive'⟩ := sysOpen_clean_iff hlive hstep hopens
      exact ⟨imp_congr_right fun _ => hiff, fun _ => hlive'⟩
    · refine ⟨iff_of_true (fun h => absurd h hopens) fun h => absurd h hopens, fun _ => ?_⟩
      obtain ⟨hpcb, hkeeps⟩ := sysOpen_refuses hstep hopens
      unfold Process.HeapVmaLive
      rw [hpcb]
      exact hlive.imp_right (hkeeps _)
  exact along_iff_of_keeps hstep calls s hlive

/-- No device, and a process with `n` descriptors in use and `heap_vma` at 7. -/
def noDevices : Devices := ⟨trieInit, fun _ s => s, fun _ _ _ h => h⟩

def usedFds (n : ℕ) : Process where
  pcb w := if w = heapVmaWord then 7 else if fdsWord ≤ w ∧ w < fdsWord + n then 9 else 0
  objects := ⟨fun p => if p = 7 ∨ p = 9 then some .other else none, []⟩

theorem usedFds_heapVmaLive (n : ℕ) : (usedFds n).HeapVmaLive :=
  Or.inr fun h => Option.some_ne_none _ h

/-- Two calls, with one descriptor free. -/
theorem descriptors_clean_iff_example :
    Along (sysOpen bareRoot noDevices)
        (fun s c v t => OpensFile bareRoot noDevices s c → OpensCleanly s.pcb v t.pcb)
        (usedFds 31) [⟨[delimiter], 1, 2, 3⟩, ⟨[delimiter], 4, 5, 6⟩] ↔
      Along (sysOpen bareRoot noDevices)
        (fun s c _ _ => OpensFile bareRoot noDevices s c → s.pcb.FreeSlot)
        (usedFds 31) [⟨[delimiter], 1, 2, 3⟩, ⟨[delimiter], 4, 5, 6⟩] :=
  descriptors_clean_iff bareRoot noDevices (usedFds_heapVmaLive 31) _

/-- With all descriptors in use, `open` of `/` returns -1 and leaves its file in
`heap_vma`. -/
theorem file_in_heapVma :
    ∃ t, sysOpen bareRoot noDevices (usedFds 32) ⟨[delimiter], 1, 2, 3⟩ = some (-1, t) ∧
      (usedFds 32).pcb heapVmaWord = 7 ∧ t.pcb heapVmaWord = 3 ∧
      ¬ OpensCleanly (usedFds 32).pcb (-1) t.pcb := by
  refine ⟨_, rfl, rfl, rfl, fun hclean => ?_⟩
  have hfull : ¬ (usedFds 32).pcb.FreeSlot := by
    rintro ⟨i, hi, hslot⟩
    revert i
    decide
  have hsame := congrFun (hclean.full hfull).2 heapVmaWord
  exact absurd hsame (by decide)

end Rpos
