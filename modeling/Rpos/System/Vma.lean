import Mathlib.Data.List.Induction
import Mathlib.Data.List.Nodup
import Mathlib.Logic.Function.Basic
import Rpos.Base.BitField
import Rpos.Base.Runs

/-!
# The VMAs of a process

`sys_mmap` and `sys_brk` of `syscalls.c` with the parts of `procalloc` and
`clone_active_proc` that deal with VMAs. A `vma` is an object of its own, and
a pcb refers to it twice: through its list `vmas` and through `heap_vma`. The
list is kept from `vmas.next` on, so that `list_add` puts a node in front.
-/

namespace Rpos

open Base

structure Vma where
  start : Word
  end_ : Word
  permissions : BitVec 8
  deriving DecidableEq

def Vma.Contains (v : Vma) (a : Word) : Prop := v.start ≤ a ∧ a < v.end_

instance (v : Vma) (a : Word) : Decidable (v.Contains a) :=
  inferInstanceAs (Decidable (_ ∧ _))

/-- The test of `sys_mmap` and `sys_brk`: the address lies strictly inside. -/
def Vma.Inside (v : Vma) (a : Word) : Prop := v.start < a ∧ v.end_ > a

instance (v : Vma) (a : Word) : Decidable (v.Inside a) :=
  inferInstanceAs (Decidable (_ ∧ _))

/-- The `vma` objects. No VMA is ever freed, so `kmalloc` hands them out in
order, as many as there is room for. -/
structure VmaHeap where
  vma : ℕ → Vma
  allocated : ℕ
  limit : ℕ

namespace VmaHeap

/-- `kmalloc(sizeof(vma))`. -/
def kmalloc (h : VmaHeap) : Option (ℕ × VmaHeap) :=
  if h.allocated < h.limit then
    some (h.allocated, { h with allocated := h.allocated + 1 })
  else none

def set (h : VmaHeap) (v : ℕ) (x : Vma) : VmaHeap :=
  { h with vma := Function.update h.vma v x }

end VmaHeap

/-- The fields of `pcb_t` that the calls on VMAs read and write. -/
structure PcbMem where
  vmas : List ℕ
  brk : Word
  startBrk : Word
  heapVma : Option ℕ
  deriving DecidableEq

def vmaRead : BitVec 8 := 1
def vmaWrite : BitVec 8 := 2
def vmaUser : BitVec 8 := 8

def protRead : Word := 1
def protWrite : Word := 2
def protExec : Word := 4
def protNone : Word := 8

def userStackTop : Word := 0x800000000

/-- `ALIGN_DOWN(addr, PAGE_SIZE)`. -/
def alignDownPage (addr : Word) : Word := addr &&& ~~~(4096 - 1)

/-- `ALIGN_UP(addr, PAGE_SIZE)`. -/
def alignUpPage (addr : Word) : Word := (addr + (4096 - 1)) &&& ~~~(4096 - 1)

theorem alignDownPage_toNat (a : Word) :
    (alignDownPage a).toNat = a.toNat / 4096 * 4096 := by
  have hmask : (~~~(4096 - 1) : Word) = BitVec.allOnes 64 <<< 12 := by decide
  have hshift : alignDownPage a = (a >>> 12) <<< 12 := by
    apply BitVec.eq_of_getLsbD_eq
    intro i hi
    rw [alignDownPage, hmask, BitVec.getLsbD_and, BitVec.getLsbD_shiftLeft,
      BitVec.getLsbD_allOnes, BitVec.getLsbD_shiftLeft, BitVec.getLsbD_ushiftRight]
    rcases Nat.lt_or_ge i 12 with hlow | hhigh
    · simp [hlow]
    · have hsub : i - 12 < 64 := by omega
      simp [hi, Nat.not_lt.mpr hhigh, hsub, Nat.add_sub_cancel' hhigh]
  have hlt := a.isLt
  rw [hshift, BitVec.toNat_shiftLeft, BitVec.toNat_ushiftRight, Nat.shiftLeft_eq,
    Nat.shiftRight_eq_div_pow]
  exact Nat.mod_eq_of_lt (by omega)

/-- `procalloc`: the pcb is cleared and gets its stack VMA. -/
def procalloc (h : VmaHeap) : Option (VmaHeap × PcbMem) :=
  match h.kmalloc with
  | none => none
  | some (v, h) =>
      some (h.set v ⟨userStackTop - 4096 * 2, userStackTop, vmaRead ||| vmaWrite⟩,
        ⟨[v], 0, 0, none⟩)

/-- The loop of `sys_mmap`: the last VMA on the list that contains `addr`. -/
def foundVma (h : VmaHeap) (vmas : List ℕ) (addr : Word) : Option ℕ :=
  vmas.foldl (fun found v => if (h.vma v).Inside addr then some v else found) none

/-- `sys_mmap`. A store through a failed allocation does not return. -/
def sysMmap (h : VmaHeap) (current : PcbMem) (addr len prot : Word) :
    Option (Word × VmaHeap × PcbMem) :=
  let startAddr := alignDownPage addr
  let endAddr := alignUpPage (addr + len)
  match foundVma h current.vmas addr with
  | some v => some ((h.vma v).start, h, current)
  | none =>
      match h.kmalloc with
      | none => none
      | some (v, h) =>
          let prot := if prot &&& protNone ≠ 0 then 0 else prot
          let prot :=
            if prot &&& protWrite ≠ 0 ∧ prot &&& protExec ≠ 0 then
              protRead ||| protWrite
            else prot
          some (startAddr, h.set v ⟨startAddr, endAddr, prot.setWidth 8⟩,
            { current with vmas := v :: current.vmas })

def sysBrk (h : VmaHeap) (current : PcbMem) (addr : Word) :
    Option (Word × VmaHeap × PcbMem) :=
  match current.heapVma with
  | none =>
      match h.kmalloc with
      | none => none
      | some (v, h) =>
          some (current.brk,
            h.set v ⟨current.startBrk, current.brk, vmaUser ||| vmaRead ||| vmaWrite⟩,
            { current with vmas := v :: current.vmas, heapVma := some v })
  | some heap =>
      let addr := alignUpPage addr
      let heapVma := h.vma heap
      if addr < heapVma.end_ then some (heapVma.end_, h, current)
      else if ∃ v ∈ current.vmas, v ≠ heap ∧ (h.vma v).Inside addr then
        some (heapVma.end_, h, current)
      else some (addr, h.set heap { heapVma with end_ := addr }, current)

inductive VmaCall
  | mmap (addr len prot : Word)
  | brk (addr : Word)

def vmaStep (s : VmaHeap × PcbMem) : VmaCall → Option (Word × VmaHeap × PcbMem)
  | .mmap addr len prot => sysMmap s.1 s.2 addr len prot
  | .brk addr => sysBrk s.1 s.2 addr

/-! ## What one call does -/

/-- The pcb refers to allocated objects, to each once, and its heap VMA is on
its own list. -/
structure PcbMem.Ok (h : VmaHeap) (p : PcbMem) : Prop where
  nodup : p.vmas.Nodup
  allocated : ∀ v ∈ p.vmas, v < h.allocated
  heap_mem : ∀ v, p.heapVma = some v → v ∈ p.vmas

/-- A call returns the list as it was, adds one new VMA to it, or extends the
heap VMA. -/
inductive VmaOutcome (h : VmaHeap) (p : PcbMem) : VmaHeap → PcbMem → Prop
  | same : VmaOutcome h p h p
  | added (x : Vma) (heapVma : Option ℕ)
      (hheap : heapVma = p.heapVma ∨ heapVma = some h.allocated) :
      VmaOutcome h p ({ h with allocated := h.allocated + 1 }.set h.allocated x)
        { p with vmas := h.allocated :: p.vmas, heapVma := heapVma }
  | extended (heap : ℕ) (hheap : p.heapVma = some heap) (e : Word) :
      VmaOutcome h p (h.set heap { h.vma heap with end_ := e }) p

theorem VmaHeap.kmalloc_eq {h h' : VmaHeap} {v : ℕ} (hk : h.kmalloc = some (v, h')) :
    v = h.allocated ∧ h' = { h with allocated := h.allocated + 1 } := by
  unfold VmaHeap.kmalloc at hk
  split at hk
  · simp only [Option.some.injEq, Prod.mk.injEq] at hk
    exact ⟨hk.1.symm, hk.2.symm⟩
  · simp at hk

theorem foundVma_none {h : VmaHeap} {vmas : List ℕ} {addr : Word} :
    foundVma h vmas addr = none ↔ ∀ v ∈ vmas, ¬ (h.vma v).Inside addr := by
  unfold foundVma
  induction vmas using List.reverseRecOn with
  | nil => simp
  | append_singleton vmas v ih =>
      rw [List.foldl_append]
      simp only [List.foldl_cons, List.foldl_nil]
      by_cases hv : (h.vma v).Inside addr
      · simp [hv]
      · rw [if_neg hv, ih]
        constructor
        · intro hall u hu
          rcases List.mem_append.mp hu with hu | hu
          · exact hall u hu
          · rw [List.mem_singleton.mp hu]
            exact hv
        · exact fun hall u hu => hall u (List.mem_append_left _ hu)

/-- `sys_mmap` finds a VMA around `addr`, or adds the rounded range. -/
theorem sysMmap_cases {h h' : VmaHeap} {p p' : PcbMem} {addr len prot w : Word}
    (hstep : sysMmap h p addr len prot = some (w, h', p')) :
    (∃ v ∈ p.vmas, (h.vma v).Inside addr) ∧ h' = h ∧ p' = p ∨
    (¬ ∃ v ∈ p.vmas, (h.vma v).Inside addr) ∧ ∃ perm,
      h' = { h with allocated := h.allocated + 1 }.set h.allocated
        ⟨alignDownPage addr, alignUpPage (addr + len), perm⟩ ∧
      p' = { p with vmas := h.allocated :: p.vmas } := by
  unfold sysMmap at hstep
  cases hfound : foundVma h p.vmas addr with
  | some v =>
      rw [hfound] at hstep
      simp only [Option.some.injEq, Prod.mk.injEq] at hstep
      refine Or.inl ⟨?_, hstep.2.1.symm, hstep.2.2.symm⟩
      by_contra hnone
      have : foundVma h p.vmas addr = none := foundVma_none.mpr fun v hv hin =>
        hnone ⟨v, hv, hin⟩
      simp [hfound] at this
  | none =>
      rw [hfound] at hstep
      refine Or.inr ⟨fun ⟨v, hv, hin⟩ => foundVma_none.mp hfound v hv hin, ?_⟩
      cases hk : h.kmalloc with
      | none => simp [hk] at hstep
      | some r =>
          obtain ⟨v, h₁⟩ := r
          obtain ⟨rfl, rfl⟩ := VmaHeap.kmalloc_eq hk
          simp only [hk, Option.some.injEq, Prod.mk.injEq] at hstep
          exact ⟨_, hstep.2.1.symm, hstep.2.2.symm⟩

/-- `sys_brk` leaves the heap VMA as it is. -/
def BrkDenied (h : VmaHeap) (p : PcbMem) (heap : ℕ) (addr : Word) : Prop :=
  alignUpPage addr < (h.vma heap).end_ ∨
    ∃ v ∈ p.vmas, v ≠ heap ∧ (h.vma v).Inside (alignUpPage addr)

/-- The first `sys_brk` makes the heap VMA; a later one moves its end unless
that is denied. -/
theorem sysBrk_cases {h h' : VmaHeap} {p p' : PcbMem} {addr w : Word}
    (hstep : sysBrk h p addr = some (w, h', p')) :
    (p.heapVma = none ∧
      h' = { h with allocated := h.allocated + 1 }.set h.allocated
        ⟨p.startBrk, p.brk, vmaUser ||| vmaRead ||| vmaWrite⟩ ∧
      p' = { p with vmas := h.allocated :: p.vmas, heapVma := some h.allocated }) ∨
    ∃ heap, p.heapVma = some heap ∧ p' = p ∧
      (BrkDenied h p heap addr ∧ h' = h ∨
        ¬ BrkDenied h p heap addr ∧
          h' = h.set heap { h.vma heap with end_ := alignUpPage addr }) := by
  unfold sysBrk at hstep
  cases hheap : p.heapVma with
  | none =>
      rw [hheap] at hstep
      cases hk : h.kmalloc with
      | none => simp [hk] at hstep
      | some r =>
          obtain ⟨v, h₁⟩ := r
          obtain ⟨rfl, rfl⟩ := VmaHeap.kmalloc_eq hk
          simp only [hk, Option.some.injEq, Prod.mk.injEq] at hstep
          exact Or.inl ⟨rfl, hstep.2.1.symm, hstep.2.2.symm⟩
  | some heap =>
      rw [hheap] at hstep
      refine Or.inr ⟨heap, rfl, ?_⟩
      simp only at hstep
      split at hstep
      · rename_i hlow
        simp only [Option.some.injEq, Prod.mk.injEq] at hstep
        exact ⟨hstep.2.2.symm, Or.inl ⟨Or.inl hlow, hstep.2.1.symm⟩⟩
      · rename_i hlow
        split at hstep
        · rename_i hin
          simp only [Option.some.injEq, Prod.mk.injEq] at hstep
          exact ⟨hstep.2.2.symm, Or.inl ⟨Or.inr hin, hstep.2.1.symm⟩⟩
        · rename_i hin
          simp only [Option.some.injEq, Prod.mk.injEq] at hstep
          exact ⟨hstep.2.2.symm,
            Or.inr ⟨not_or.mpr ⟨hlow, hin⟩, hstep.2.1.symm⟩⟩

theorem vmaStep_outcome {h h' : VmaHeap} {p p' : PcbMem} {call : VmaCall} {w : Word}
    (hstep : vmaStep (h, p) call = some (w, h', p')) : VmaOutcome h p h' p' := by
  cases call with
  | mmap addr len prot =>
      obtain ⟨-, rfl, rfl⟩ | ⟨-, perm, rfl, rfl⟩ := sysMmap_cases hstep
      · exact .same
      · exact .added _ _ (Or.inl rfl)
  | brk addr =>
      obtain ⟨-, rfl, rfl⟩ | ⟨heap, hheap, rfl, ⟨-, rfl⟩ | ⟨-, rfl⟩⟩ :=
        sysBrk_cases hstep
      · exact .added _ _ (Or.inr rfl)
      · exact .same
      · exact .extended heap hheap _

@[simp]
theorem VmaHeap.set_self (h : VmaHeap) (v : ℕ) (x : Vma) : (h.set v x).vma v = x :=
  Function.update_self _ _ _

theorem VmaHeap.set_other {h : VmaHeap} {u v : ℕ} (huv : u ≠ v) (x : Vma) :
    (h.set v x).vma u = h.vma u :=
  Function.update_of_ne huv _ _

/-- What a call may touch: the VMAs of its own list and new ones. -/
structure VmaOutcome.Frame (h : VmaHeap) (p : PcbMem) (h' : VmaHeap) (p' : PcbMem) :
    Prop where
  ok : p'.Ok h'
  grows : h.allocated ≤ h'.allocated
  list : ∀ v ∈ p'.vmas, v ∈ p.vmas ∨ h.allocated ≤ v
  other : ∀ v, v < h.allocated → v ∉ p.vmas → h'.vma v = h.vma v

theorem VmaOutcome.frame {h h' : VmaHeap} {p p' : PcbMem} (hout : VmaOutcome h p h' p')
    (hp : p.Ok h) : VmaOutcome.Frame h p h' p' := by
  cases hout with
  | same => exact ⟨hp, le_refl _, fun v hv => Or.inl hv, fun _ _ _ => rfl⟩
  | added x heapVma hheap =>
      have hfresh : h.allocated ∉ p.vmas := fun hmem =>
        lt_irrefl _ (hp.allocated _ hmem)
      refine ⟨⟨List.nodup_cons.mpr ⟨hfresh, hp.nodup⟩, ?_, ?_⟩, Nat.le_succ _, ?_, ?_⟩
      · intro v hv
        rcases List.mem_cons.mp hv with rfl | hv
        · exact Nat.lt_succ_self _
        · exact Nat.lt_succ_of_lt (hp.allocated v hv)
      · intro v hv
        rcases hheap with rfl | rfl
        · exact List.mem_cons_of_mem _ (hp.heap_mem v hv)
        · rw [Option.some.injEq] at hv
          exact hv ▸ List.mem_cons_self
      · intro v hv
        rcases List.mem_cons.mp hv with rfl | hv
        · exact Or.inr (le_refl _)
        · exact Or.inl hv
      · exact fun v hv _ => VmaHeap.set_other (ne_of_lt hv) x
  | extended heap hheap e =>
      refine ⟨⟨hp.nodup, hp.allocated, hp.heap_mem⟩, le_refl _, fun v hv => Or.inl hv, ?_⟩
      intro v _ hv
      exact VmaHeap.set_other (fun heq : v = heap => hv (heq ▸ hp.heap_mem heap hheap)) _

theorem procalloc_eq {h₀ h : VmaHeap} {p : PcbMem} (hproc : procalloc h₀ = some (h, p)) :
    h = { h₀ with allocated := h₀.allocated + 1 }.set h₀.allocated
      ⟨userStackTop - 4096 * 2, userStackTop, vmaRead ||| vmaWrite⟩ ∧
    p = ⟨[h₀.allocated], 0, 0, none⟩ := by
  unfold procalloc at hproc
  cases hk : h₀.kmalloc with
  | none => simp [hk] at hproc
  | some r =>
      obtain ⟨v, h₁⟩ := r
      obtain ⟨rfl, rfl⟩ := VmaHeap.kmalloc_eq hk
      simp only [hk, Option.some.injEq, Prod.mk.injEq] at hproc
      exact ⟨hproc.1.symm, hproc.2.symm⟩

theorem procalloc_ok {h₀ h : VmaHeap} {p : PcbMem}
    (hproc : procalloc h₀ = some (h, p)) : p.Ok h := by
  obtain ⟨rfl, rfl⟩ := procalloc_eq hproc
  refine ⟨List.nodup_singleton _, fun v hv => ?_, fun v hv => (by simp at hv)⟩
  rw [List.mem_singleton.mp hv]
  exact Nat.lt_succ_self _

/-! ## Overlap -/

/-- The range from `a` to `b` has no address in common with the VMA. -/
def Apart (a b : Word) (v : Vma) : Prop :=
  ∀ x, a ≤ x → x < b → ¬ v.Contains x

/-- Every range runs upwards, and no two have an address in common. -/
structure Separated (h : VmaHeap) (p : PcbMem) : Prop where
  ordered : ∀ v ∈ p.vmas, (h.vma v).start ≤ (h.vma v).end_
  apart : ∀ u ∈ p.vmas, ∀ v ∈ p.vmas, u ≠ v →
    Apart (h.vma u).start (h.vma u).end_ (h.vma v)

/-- The call creates no overlap. For `sys_mmap`: `addr` lies strictly inside a
VMA, so that nothing is created, or the rounded range does not wrap and is
apart from every VMA. For a `sys_brk` that is not the first: the request is
denied, or the heap grown to the rounded address is apart from every other
VMA. -/
def CallFits (h : VmaHeap) (p : PcbMem) : VmaCall → Prop
  | .mmap addr len _ =>
      (∃ v ∈ p.vmas, (h.vma v).Inside addr) ∨
        alignDownPage addr ≤ alignUpPage (addr + len) ∧
        ∀ v ∈ p.vmas, Apart (alignDownPage addr) (alignUpPage (addr + len)) (h.vma v)
  | .brk addr =>
      ∀ heap, p.heapVma = some heap →
        BrkDenied h p heap addr ∨
          ∀ v ∈ p.vmas, v ≠ heap →
            Apart (h.vma heap).start (alignUpPage addr) (h.vma v)

theorem Apart.symm {u v : Vma} (h : Apart u.start u.end_ v) :
    Apart v.start v.end_ u :=
  fun x hle hlt hu => h x hu.1 hu.2 ⟨hle, hlt⟩

theorem separated_added_iff {h : VmaHeap} {p : PcbMem} (hp : p.Ok h)
    (hs : Separated h p) (x : Vma) (heapVma : Option ℕ) :
    Separated ({ h with allocated := h.allocated + 1 }.set h.allocated x)
        { p with vmas := h.allocated :: p.vmas, heapVma := heapVma } ↔
      x.start ≤ x.end_ ∧ ∀ v ∈ p.vmas, Apart x.start x.end_ (h.vma v) := by
  set h' : VmaHeap := { h with allocated := h.allocated + 1 }.set h.allocated x with hh'
  have hnew : h'.vma h.allocated = x := VmaHeap.set_self _ _ _
  have hne : ∀ v ∈ p.vmas, v ≠ h.allocated := fun v hv => ne_of_lt (hp.allocated v hv)
  have hold : ∀ v ∈ p.vmas, h'.vma v = h.vma v := fun v hv =>
    VmaHeap.set_other (hne v hv) x
  constructor
  · intro hsep
    have hord := hsep.ordered h.allocated List.mem_cons_self
    rw [hnew] at hord
    refine ⟨hord, fun v hv => ?_⟩
    have := hsep.apart h.allocated List.mem_cons_self v (List.mem_cons_of_mem _ hv)
      (Ne.symm (hne v hv))
    rwa [hnew, hold v hv] at this
  · rintro ⟨hord, hapart⟩
    constructor
    · intro v hv
      rcases List.mem_cons.mp hv with rfl | hv
      · rw [hnew]
        exact hord
      · rw [hold v hv]
        exact hs.ordered v hv
    · intro u hu v hv huv
      rcases List.mem_cons.mp hu with rfl | hu
      · rcases List.mem_cons.mp hv with rfl | hv
        · exact absurd rfl huv
        · rw [hnew, hold v hv]
          exact hapart v hv
      · rcases List.mem_cons.mp hv with rfl | hv
        · rw [hnew, hold u hu]
          exact (hapart u hu).symm
        · rw [hold u hu, hold v hv]
          exact hs.apart u hu v hv huv

/-- The heap VMA with a new end that is not below the old one. -/
theorem separated_extended_iff {h : VmaHeap} {p : PcbMem} (hs : Separated h p)
    {heap : ℕ} (hheap : heap ∈ p.vmas) {e : Word} (he : (h.vma heap).end_ ≤ e) :
    Separated (h.set heap { h.vma heap with end_ := e }) p ↔
      ∀ v ∈ p.vmas, v ≠ heap → Apart (h.vma heap).start e (h.vma v) := by
  set h' := h.set heap { h.vma heap with end_ := e } with hh'
  have hnew : h'.vma heap = { h.vma heap with end_ := e } := VmaHeap.set_self _ _ _
  have hold : ∀ v, v ≠ heap → h'.vma v = h.vma v := fun v hv =>
    VmaHeap.set_other hv _
  constructor
  · intro hsep v hv hne
    have := hsep.apart heap hheap v hv (Ne.symm hne)
    rwa [hnew, hold v hne] at this
  · intro hapart
    constructor
    · intro v hv
      by_cases hvh : v = heap
      · rw [hvh, hnew]
        exact BitVec.le_trans (hs.ordered heap hheap) he
      · rw [hold v hvh]
        exact hs.ordered v hv
    · intro u hu v hv huv
      by_cases huh : u = heap
      · have hvh : v ≠ heap := fun hv' => huv (huh.trans hv'.symm)
        rw [huh, hnew, hold v hvh]
        exact hapart v hv hvh
      · by_cases hvh : v = heap
        · have := hapart u hu huh
          rw [hvh, hold u huh]
          refine Apart.symm ?_
          rw [hnew]
          exact this
        · rw [hold u huh, hold v hvh]
          exact hs.apart u hu v hv huv

/-- What holds of a process between calls, as long as every call fitted. -/
structure VmaInv (s : VmaHeap × PcbMem) : Prop where
  ok : s.2.Ok s.1
  brk : s.2.startBrk = s.2.brk
  separated : Separated s.1 s.2

theorem vmaStep_separated_iff {s s' : VmaHeap × PcbMem} {call : VmaCall} {w : Word}
    (hs : VmaInv s) (hstep : vmaStep s call = some (w, s')) :
    (Separated s'.1 s'.2 ↔ CallFits s.1 s.2 call) ∧
      (CallFits s.1 s.2 call → VmaInv s') := by
  obtain ⟨h, p⟩ := s
  obtain ⟨h', p'⟩ := s'
  have hok' : p'.Ok h' := ((vmaStep_outcome hstep).frame hs.ok).ok
  have hmain : (Separated h' p' ↔ CallFits h p call) ∧ p'.startBrk = p'.brk := by
    cases call with
    | mmap addr len prot =>
        obtain ⟨hfound, rfl, rfl⟩ | ⟨hnone, perm, rfl, rfl⟩ := sysMmap_cases hstep
        · exact ⟨iff_of_true hs.separated (Or.inl hfound), hs.brk⟩
        · refine ⟨(separated_added_iff hs.ok hs.separated _ p.heapVma).trans ?_, hs.brk⟩
          exact ⟨fun hfit => Or.inr hfit, fun hfit => hfit.resolve_left hnone⟩
    | brk addr =>
        obtain ⟨hnone, rfl, rfl⟩ | ⟨heap, hheap, rfl, ⟨hdeny, rfl⟩ | ⟨hdeny, rfl⟩⟩ :=
          sysBrk_cases hstep
        · refine ⟨(separated_added_iff hs.ok hs.separated _ _).trans ?_, hs.brk⟩
          have hbrk : p.startBrk = p.brk := hs.brk
          refine iff_of_true ⟨?_, fun v _ x hle hlt => ?_⟩ fun heap hheap => ?_
          · rw [hbrk]
            exact BitVec.le_refl _
          · rw [hbrk] at hle
            exact absurd hlt (BitVec.not_lt.mpr hle)
          · rw [hnone] at hheap
            exact absurd hheap (by simp)
        · refine ⟨iff_of_true hs.separated fun g hg => ?_, hs.brk⟩
          rw [hheap, Option.some.injEq] at hg
          exact Or.inl (hg ▸ hdeny)
        · have hend : (h.vma heap).end_ ≤ alignUpPage addr :=
            BitVec.not_lt.mp fun hlt => hdeny (Or.inl hlt)
          refine ⟨(separated_extended_iff hs.separated (hs.ok.heap_mem heap hheap)
            hend).trans ?_, hs.brk⟩
          constructor
          · intro hfit g hg
            rw [hheap, Option.some.injEq] at hg
            exact Or.inr (hg ▸ hfit)
          · exact fun hfit => (hfit heap hheap).resolve_left hdeny
  exact ⟨hmain.1, fun hfit => ⟨hok', hmain.2, hmain.1.mpr hfit⟩⟩

/-- From `procalloc` on, in every run of calls: the VMAs are separated after
every call exactly when every call fits. -/
theorem vmas_separated_iff (h₀ h : VmaHeap) (p : PcbMem)
    (hproc : procalloc h₀ = some (h, p)) :
    Separated h p ∧ ∀ calls : List VmaCall,
      (Along vmaStep (fun _ _ _ s' => Separated s'.1 s'.2) (h, p) calls ↔
        Along vmaStep (fun s call _ _ => CallFits s.1 s.2 call) (h, p) calls) := by
  have hok := procalloc_ok hproc
  have hsep : Separated h p := by
    obtain ⟨rfl, rfl⟩ := procalloc_eq hproc
    constructor
    · intro v hv
      rw [List.mem_singleton.mp hv, VmaHeap.set_self]
      decide
    · intro u hu v hv huv
      rw [List.mem_singleton.mp hu, List.mem_singleton.mp hv] at huv
      exact absurd rfl huv
  refine ⟨hsep, fun calls => ?_⟩
  have hinv : VmaInv (h, p) := by
    refine ⟨hok, ?_, hsep⟩
    obtain ⟨-, rfl⟩ := procalloc_eq hproc
    rfl
  apply along_iff_of_keeps _ calls (h, p) hinv
  intro s call w s' hs hstep
  exact vmaStep_separated_iff hs hstep

def vmaHeap₀ : VmaHeap := ⟨fun _ => ⟨0, 0, 0⟩, 0, 10⟩

theorem vmas_separated_iff_example :
    ∃ h p, procalloc vmaHeap₀ = some (h, p) ∧
      Along vmaStep (fun _ _ _ s' => Separated s'.1 s'.2) (h, p)
        [.brk 0, .brk 4096] := by
  refine ⟨_, _, rfl, ?_⟩
  refine ((vmas_separated_iff vmaHeap₀ _ _ rfl).2 _).mpr ?_
  refine ⟨_, _, rfl, ?_, _, _, rfl, ?_, trivial⟩
  · intro heap hheap
    exact absurd hheap (by simp)
  · intro heap hheap
    obtain rfl : 1 = heap := Option.some.inj hheap
    refine Or.inr fun v hv hne x _ hx hin => ?_
    obtain rfl : v = 0 := by
      rcases List.mem_cons.mp hv with rfl | hv
      · exact absurd rfl hne
      · exact List.mem_singleton.mp hv
    have hlow : 0x7ffffe000 ≤ x.toNat := hin.1
    have hhigh : x.toNat < 4096 := hx
    omega

/-- `brk(0)` makes an empty heap at 0 and `brk(2^36)` grows it over the stack. -/
theorem heap_swallows_stack :
    ∃ h p ws s, procalloc vmaHeap₀ = some (h, p) ∧
      exec vmaStep (h, p) [.brk 0, .brk 0x1000000000] = some (ws, s) ∧
      ¬ Separated s.1 s.2 := by
  refine ⟨_, _, _, _, rfl, rfl, fun hsep => ?_⟩
  refine hsep.apart 1 (by decide) 0 (by decide) (by decide) 0x7ffffe000 ?_ ?_ ?_
  all_goals decide

end Rpos
