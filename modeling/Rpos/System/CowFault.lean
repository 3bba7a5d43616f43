import Rpos.Memory.PageRefs
import Rpos.System.UserFault

/-!
# Copy-on-write faults

`handle_el0_fault` of `userfault.c` with `check_cow`. `page_frame_array_start` yields the
virtual address of the array of records; `decrement_ref` indexes from it, and the fault
handler from `pa_to_va` of it.
-/

namespace Rpos

open Base

/-! ## §1  Records by address -/

/-- The record that `handle_el0_fault` inspects for the frame `pfn`. -/
def inspectedRecord (array pfn : ℕ) : ℕ := recordAddr (paToVa array) pfn

/-! ## §2  The handler -/

/-- One step of the walk of `check_cow`. -/
def followValid (table idx : ℕ) (m : Machine) : Option (Option ℕ) := do
  let entry ← m.read table idx
  some (if Pte.valid.get entry = 1 then some (Pte.address.get entry) else none)

/-- `check_cow`: the slot of an L3 entry that is marked, if the walk finds one. -/
def checkCow (ttbr : ℕ) (addr : Word) (m : Machine) : Option (Option (ℕ × ℕ)) := do
  match ← followValid ttbr (idx0 addr.toNat) m with
  | none => some none
  | some l1 =>
  match ← followValid l1 (idx1 addr.toNat) m with
  | none => some none
  | some l2 =>
  match ← followValid l2 (idx2 addr.toNat) m with
  | none => some none
  | some l3 => do
      let entry ← m.read l3 (idx3 addr.toNat)
      some (if Pte.cow.get entry = 1 then some (l3, idx3 addr.toNat) else none)

/-- `memcpy` of a page that is read through the user's tables. -/
def copyUserPage (dst ttbr : ℕ) (src : Word) (m : Machine) : Option Machine := do
  let (out, _) ← translate m.ram ttbr src.toNat
  if out / pageSize < ramPages ∧ dst < ramPages then
    some { m with
      ram := Function.update m.ram dst (m.ram (out / pageSize))
      stores := dst :: m.stores }
  else none

section Handler

variable (allocPt : Machine → Option (ℕ × Machine)) (array l0Table : ℕ)

/-- The branch of `handle_el0_fault` for a marked entry. -/
def copyOnWrite (ttbr : ℕ) (slot : ℕ × ℕ) (faultingAddress : Word) (m : Machine) :
    Option Machine := do
  let (newPage, m) ← m.buddyAlloc pageSize
  let baseAddr := alignDownPage faultingAddress
  let m ← map allocPt newPage (vaToPa newPage) 0 (mapKernel ||| mapRead ||| mapWrite) l0Table m
  let m ← copyUserPage (vaToPa newPage / pageSize) ttbr baseAddr m
  let entry ← m.read slot.1 slot.2
  let pfn := Pte.address.get entry
  let pf ← recordAt array (inspectedRecord array pfn)
  let m ←
    if (m.buddy.frameMetadata pf).refcount = 1 then
      m.store slot.1 slot.2 (Pte.ap.set (Pte.cow.set entry 0) el0RwEl1Rw)
    else some m
  let (_, b) ← decrementRef array (paToVa (pfn * pageSize)) m.buddy
  let m := { m with buddy := b }
  let entry ← m.read slot.1 slot.2
  m.store slot.1 slot.2 (Pte.address.set entry (vaToPa newPage / pageSize))

/-- How `handle_el0_fault` ends: the page was copied, a page was mapped, or the
kernel halts. -/
inductive FaultEnd
  | copied
  | mapped
  | halted
deriving DecidableEq, Repr

def handleEl0Fault (h : VmaHeap) (vmas : List ℕ) (ttbr : ℕ) (faultingAddress : Word)
    (m : Machine) : Option (FaultEnd × Machine) := do
  match ← checkCow ttbr faultingAddress m with
  | some slot => do
      let m ← copyOnWrite allocPt array l0Table ttbr slot faultingAddress m
      some (.copied, m)
  | none => do
      let (resolved, m) ← checkVma allocPt h vmas ttbr faultingAddress m
      some (if resolved then .mapped else .halted, m)

end Handler

/-! ## §3  The two addresses of a record -/

section Records

variable {array pfn : ℕ}

/-- The handler inspects another address: it is off by `VIRT_BASE`. -/
theorem inspectedRecord_ne (hpfn : pfn < 2 ^ 36) :
    inspectedRecord array pfn ≠ updatedRecord array (paToVa (pfn * pageSize)) := by
  rw [updatedRecord_eq hpfn, inspectedRecord, recordAddr, recordAddr, paToVa]
  simp only [virtBase, frameRecordSize]
  omega

theorem inspectedRecord_outside (hlow : virtBase ≤ array) (hhigh : array < 2 ^ 64)
    (hpfn : pfn < 2 ^ 36) : recordAt array (inspectedRecord array pfn) = none := by
  refine if_neg fun h => ?_
  have hle := h.1
  simp only [inspectedRecord, recordAddr, paToVa, virtBase, frameRecordSize] at *
  omega

variable {allocPt : Machine → Option (ℕ × Machine)} {l0Table ttbr : ℕ} {slot : ℕ × ℕ}
  {addr : Word}

theorem copyOnWrite_none (hlow : virtBase ≤ array) (hhigh : array < 2 ^ 64) (m : Machine) :
    copyOnWrite allocPt array l0Table ttbr slot addr m = none := by
  have hnone : ∀ entry, recordAt array (inspectedRecord array (Pte.address.get entry)) = none :=
    fun entry => inspectedRecord_outside hlow hhigh (BitField.get_lt Pte.address entry)
  unfold copyOnWrite
  simp only [Option.bind_eq_bind, hnone, Option.bind_none, Option.bind_eq_none_iff,
    implies_true]

end Records

/-! ## §4  What the handler is for -/

/-- A copy-on-write fault at `addr` is handled: the entry for the frame `f` with
`c` references names the copy `g`, and the record of `f` has lost one. -/
structure CowHandled (array ttbr : ℕ) (addr : Word) (f c g : ℕ) (m m' : Machine) :
    Prop where
  record : inspectedRecord array f = updatedRecord array (paToVa (f * pageSize))
  granted : ∃ m1, m.buddyAlloc pageSize = some (pageAddr g, m1)
  entry : ∃ d d', pageRadix.lookup m.ram 3 ttbr (addr.toNat / pageSize) = some (0, d) ∧
    pageRadix.lookup m'.ram 3 ttbr (addr.toNat / pageSize) = some (0, d') ∧
    Pte.address.get d = f ∧ Pte.address.get d' = g ∧
    if c = 1 then Pte.cow.get d' = 0 ∧ Pte.ap.get d' = el0RwEl1Rw
    else Pte.cow.get d' = 1 ∧ Pte.ap.get d' = Pte.ap.get d
  copy : m'.ram g = m.ram f ∧ (m'.buddy.frameMetadata g).refcount = 1
  count : (m'.buddy.frameMetadata f).refcount = c - 1 ∧
    ((m'.buddy.frameMetadata f).state = pageFree ↔ c = 1)
  otherEntries : ∀ x < tableSize ^ 4, x ≠ addr.toNat / pageSize % tableSize ^ 4 →
    pageRadix.lookup m'.ram 3 ttbr x = pageRadix.lookup m.ram 3 ttbr x
  otherFrames : ∀ q < ramPages, q ≠ f → q ≠ g →
    (m.buddy.frameMetadata q).state ≠ pageFree →
    (m'.buddy.frameMetadata q).refcount = (m.buddy.frameMetadata q).refcount ∧
      (m'.buddy.frameMetadata q).state = (m.buddy.frameMetadata q).state

/-- No copy-on-write fault is handled: whatever the address space, the address and
the counts, the record inspected is not the record updated. -/
theorem cow_fault_never_handled (allocPt : Machine → Option (ℕ × Machine))
    (array l0Table : ℕ) (h : VmaHeap) (vmas : List ℕ) (ttbr : ℕ) (addr : Word) (m : Machine)
    (f c : ℕ) :
    ¬ ∃ g m', handleEl0Fault allocPt array l0Table h vmas ttbr addr m = some (.copied, m') ∧
      CowHandled array ttbr addr f c g m m' := by
  rintro ⟨g, m', -, hhandled⟩
  obtain ⟨d, d', -, -, haddr, -⟩ := hhandled.entry
  have hf : f < 2 ^ 36 := haddr ▸ BitField.get_lt Pte.address d
  exact inspectedRecord_ne hf hhandled.record

theorem checkCow_congr {m m' : Machine} (hram : m'.ram = m.ram) (ttbr : ℕ) (addr : Word) :
    checkCow ttbr addr m' = checkCow ttbr addr m := by
  have hread : ∀ p i, m'.read p i = m.read p i := by
    intro p i
    rw [Machine.read, Machine.read, hram]
  simp only [checkCow, followValid, hread]

/-- A tree with one page, at 0x1000, that is marked and names the frame `f`. -/
def markedTree (f p i : ℕ) : Word :=
  if p = 3 ∧ i = 1 then
    Pte.cow.set (leafDescriptor (mapUser ||| mapRead) 1 (f * pageSize)) 1
  else if i = 0 ∧ p < 3 then tableDescriptor (p + 1)
  else 0

/-- A page with one reference, marked at 0x1000: the handler inspects a record
outside of the array. -/
theorem cow_fault_leaves_array :
    ∃ m : Machine, checkCow 0 0x1000 m = some (some (3, 1)) ∧
      Pte.address.get (m.ram 3 1) = 258048 ∧
      (m.buddy.frameMetadata 258048).refcount = 1 ∧
      (∃ m1, m.buddyAlloc pageSize = some (pageAddr 258049, m1)) ∧
      inspectedRecord smallLayout.pageFrameArrayStart 258048 ≠
        updatedRecord smallLayout.pageFrameArrayStart (paToVa (258048 * pageSize)) ∧
      handleEl0Fault takeNextPage smallLayout.pageFrameArrayStart 0 userHeap userPcb.vmas 0
        0x1000 m = none := by
  obtain ⟨b1, b2, -, hb2, href⟩ := buddyAlloc_small blankBuddy
  have hcow : checkCow 0 0x1000 ⟨b1, markedTree 258048, []⟩ = some (some (3, 1)) := by
    have hblank : checkCow 0 0x1000 ⟨blankBuddy, markedTree 258048, []⟩ = some (some (3, 1)) := by
      decide +kernel
    exact (checkCow_congr rfl 0 0x1000).trans hblank
  refine ⟨⟨b1, markedTree 258048, []⟩, hcow, ?_, href, ?_,
    inspectedRecord_ne (by decide), ?_⟩
  · exact (by decide +kernel : Pte.address.get (markedTree 258048 3 1) = 258048)
  · refine ⟨⟨b2, markedTree 258048, []⟩, ?_⟩
    unfold Machine.buddyAlloc
    dsimp only
    rw [hb2]
    rfl
  · unfold handleEl0Fault
    rw [hcow]
    show (copyOnWrite _ _ _ _ _ _ _).bind _ = none
    rw [copyOnWrite_none (by decide) (by decide)]
    rfl

end Rpos
