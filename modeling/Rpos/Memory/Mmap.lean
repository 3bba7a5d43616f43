import Rpos.Base.BitField
import Rpos.Memory.BuddyAllocator

/-!
# Page tables and `map`

Page table entries, the machine (frame array, free lists and the contents of
RAM) and the mapping functions of `memory/mmap.c`, with `buddy_alloc_pt` of
`memory/paging.c`. A table is named by its page. The linear map of the kernel
is identity plus `VIRT_BASE`, so an access through a table pointer is an
access to the page in its `address` field.

`none` means that the source follows a pointer out of the managed RAM. The
pages written are recorded, latest first, to say where stores go.
-/

namespace Rpos

open Base

/-! ## §1  Page table entries -/

abbrev tableSize : ℕ := 512

namespace Pte

/-! The fields of a memory descriptor (`md`); a table descriptor (`td`) has
`valid`, `type` and `address` in the same places. -/

def valid : BitField := ⟨0, 1, by decide⟩
def type : BitField := ⟨1, 1, by decide⟩
def attrIndex : BitField := ⟨2, 3, by decide⟩
def ns : BitField := ⟨5, 1, by decide⟩
def ap : BitField := ⟨6, 2, by decide⟩
def sh : BitField := ⟨8, 2, by decide⟩
def af : BitField := ⟨10, 1, by decide⟩
def ng : BitField := ⟨11, 1, by decide⟩
def address : BitField := ⟨12, 36, by decide⟩
def pxn : BitField := ⟨53, 1, by decide⟩
def uxn : BitField := ⟨54, 1, by decide⟩
def cow : BitField := ⟨55, 1, by decide⟩

end Pte

/-! The values of `AccessPermissions_t`. -/

def el0NaEl1Rw : ℕ := 0
def el0RwEl1Rw : ℕ := 1
def el0NaEl1Ro : ℕ := 2
def el0RoEl1Ro : ℕ := 3

/-! The bits of the `flags` argument. -/

def mapRead : ℕ := 1 <<< 0
def mapWrite : ℕ := 1 <<< 1
def mapExec : ℕ := 1 <<< 2
def mapUser : ℕ := 1 <<< 3
def mapKernel : ℕ := 1 <<< 4
def mapDevice : ℕ := 1 <<< 5
def mapCache : ℕ := 1 <<< 7

def hasFlag (flags flag : ℕ) : Bool := decide (flags &&& flag ≠ 0)

/-- `parse_table_flags`. Whatever the flags, it only clears fields that are
already zero. -/
def parseTableFlags : Word := Pte.type.set (Pte.valid.set 0 1) 1

def parseBlockFlags (flags isPage : ℕ) : Word :=
  let md := Pte.valid.set 0 1
  let md := Pte.af.set md 1
  let md := Pte.ns.set md 0
  let md := Pte.sh.set md 3
  let md := Pte.attrIndex.set md 0
  let md := Pte.type.set md isPage
  let md := Pte.ap.set md el0NaEl1Ro
  let md := Pte.pxn.set md 1
  let md := Pte.uxn.set md 1
  let md :=
    if hasFlag flags mapDevice then Pte.sh.set (Pte.attrIndex.set md 1) 0
    else if hasFlag flags mapCache then Pte.attrIndex.set md 2
    else md
  let md :=
    if hasFlag flags mapExec then
      if hasFlag flags mapKernel then Pte.pxn.set md 0
      else if hasFlag flags mapUser then Pte.uxn.set md 0
      else md
    else md
  if hasFlag flags mapUser then
    let md := Pte.ng.set md 1
    if hasFlag flags mapRead && hasFlag flags mapWrite then
      Pte.ap.set md el0RwEl1Rw
    else if hasFlag flags mapRead then Pte.ap.set md el0RoEl1Ro
    else md
  else if hasFlag flags mapKernel then
    if hasFlag flags mapRead && hasFlag flags mapWrite then
      Pte.ap.set md el0NaEl1Rw
    else if hasFlag flags mapRead then Pte.ap.set md el0NaEl1Ro
    else md
  else md

/-! ## §2  The machine -/

structure Machine where
  buddy : Buddy
  /-- The words of each page of RAM. -/
  ram : ℕ → ℕ → Word
  /-- The pages stored to so far. -/
  stores : List ℕ

namespace Machine

def read (m : Machine) (page idx : ℕ) : Option Word :=
  if page < ramPages then some (m.ram page idx) else none

def write (m : Machine) (page idx : ℕ) (w : Word) : Machine :=
  { m with
    ram := Function.update m.ram page (Function.update (m.ram page) idx w)
    stores := page :: m.stores }

def store (m : Machine) (page idx : ℕ) (w : Word) : Option Machine :=
  if page < ramPages then some (m.write page idx w) else none

/-- `memset(page, 0, PAGE_SIZE)`. -/
def clearPage (m : Machine) (page : ℕ) : Machine :=
  { m with
    ram := Function.update m.ram page fun _ => 0
    stores := page :: m.stores }

/-- `buddy_alloc` touches the frame array and the free lists only. -/
def buddyAlloc (m : Machine) (bytes : ℕ) : Option (ℕ × Machine) :=
  (Rpos.buddyAlloc bytes m.buddy).map fun r => (r.1, { m with buddy := r.2 })

theorem write_ram (m : Machine) (page idx p i : ℕ) (w : Word) :
    (m.write page idx w).ram p i =
      if p = page ∧ i = idx then w else m.ram p i := by
  simp only [write, Function.update_apply]
  grind

@[simp] theorem write_buddy (m : Machine) (page idx : ℕ) (w : Word) :
    (m.write page idx w).buddy = m.buddy := rfl

@[simp] theorem write_stores (m : Machine) (page idx : ℕ) (w : Word) :
    (m.write page idx w).stores = page :: m.stores := rfl

theorem write_ram_ne (m : Machine) {page idx p : ℕ} (w : Word)
    (h : p ≠ page) : (m.write page idx w).ram p = m.ram p := by
  simp [write, h]

theorem clearPage_ram (m : Machine) (page p : ℕ) :
    (m.clearPage page).ram p = if p = page then fun _ => 0 else m.ram p := by
  simp only [clearPage, Function.update_apply]

@[simp] theorem clearPage_buddy (m : Machine) (page : ℕ) :
    (m.clearPage page).buddy = m.buddy := rfl

@[simp] theorem clearPage_stores (m : Machine) (page : ℕ) :
    (m.clearPage page).stores = page :: m.stores := rfl

theorem read_eq {m : Machine} {page : ℕ} (idx : ℕ) (h : page < ramPages) :
    m.read page idx = some (m.ram page idx) :=
  if_pos h

theorem store_eq {m : Machine} {page : ℕ} (idx : ℕ) (w : Word)
    (h : page < ramPages) : m.store page idx w = some (m.write page idx w) :=
  if_pos h

end Machine

/-! ## §3  The mapping functions -/

/-! The table indices of a virtual address. -/

def idx0 (va : ℕ) : ℕ := va / 2 ^ 39 % tableSize
def idx1 (va : ℕ) : ℕ := va / 2 ^ 30 % tableSize
def idx2 (va : ℕ) : ℕ := va / 2 ^ 21 % tableSize
def idx3 (va : ℕ) : ℕ := va / 2 ^ 12 % tableSize

abbrev blockSize : ℕ := 2 ^ 21

section Map

-- the page table allocator that the mapping functions call
variable (allocPt : Machine → Option (ℕ × Machine))

/-- One step of the walk: the next table, allocated if the entry is invalid.
The walk follows a valid entry whatever its `type`. -/
def nextTable (table idx : ℕ) (m : Machine) : Option (ℕ × Machine) := do
  let entry ← m.read table idx
  if Pte.valid.get entry = 1 then
    some (Pte.address.get entry, m)
  else
    let (page, m) ← allocPt m
    let ptte := Pte.address.set parseTableFlags (vaToPa page / pageSize)
    let m ← m.store table idx ptte
    some (Pte.address.get ptte, m)

theorem nextTable_valid {table idx : ℕ} {m : Machine} (ht : table < ramPages)
    (hv : Pte.valid.get (m.ram table idx) = 1) :
    nextTable allocPt table idx m =
      some (Pte.address.get (m.ram table idx), m) := by
  rw [nextTable, Machine.read_eq idx ht]
  exact if_pos hv

/-- One round of the loop of `map_pages`. -/
def mapPage (va pa flags ptBase : ℕ) (m : Machine) : Option Machine := do
  let (l1, m) ← nextTable allocPt ptBase (idx0 va) m
  let (l2, m) ← nextTable allocPt l1 (idx1 va) m
  let (l3, m) ← nextTable allocPt l2 (idx2 va) m
  let entry ← m.read l3 (idx3 va)
  if Pte.valid.get entry = 1 then
    some m
  else
    m.store l3 (idx3 va)
      (Pte.address.set (parseBlockFlags flags 1) (pa / pageSize))

def mapPages (flags ptBase : ℕ) : ℕ → ℕ → ℕ → Machine → Option Machine
  | 0, _, _, m => some m
  | blocks + 1, va, pa, m => do
      let m ← mapPage allocPt va pa flags ptBase m
      mapPages flags ptBase blocks ((va + pageSize) % 2 ^ 64)
        ((pa + pageSize) % 2 ^ 64) m

/-- One round of the loop of `map_blocks`. -/
def mapBlock (va pa flags ptBase : ℕ) (m : Machine) : Option Machine := do
  let (l1, m) ← nextTable allocPt ptBase (idx0 va) m
  let (l2, m) ← nextTable allocPt l1 (idx1 va) m
  let entry ← m.read l2 (idx2 va)
  if Pte.valid.get entry = 1 then
    some m
  else
    m.store l2 (idx2 va)
      (Pte.address.set (parseBlockFlags flags 0) (pa / pageSize))

def mapBlocks (flags ptBase : ℕ) : ℕ → ℕ → ℕ → Machine → Option Machine
  | 0, _, _, m => some m
  | blocks + 1, va, pa, m => do
      let m ← mapBlock allocPt va pa flags ptBase m
      mapBlocks flags ptBase blocks ((va + blockSize) % 2 ^ 64)
        ((pa + blockSize) % 2 ^ 64) m

def map (va pa blockOrder flags ptBase : ℕ) (m : Machine) : Option Machine :=
  if 9 ≤ blockOrder ∧ idx3 va = 0 then
    mapBlocks allocPt flags ptBase (2 ^ (blockOrder - 9)) va pa m
  else
    mapPages allocPt flags ptBase (2 ^ blockOrder) va pa m

end Map

/-! ## §4  Trees of tables -/

def Names (ram : ℕ → ℕ → Word) (table p : ℕ) : Prop :=
  ∃ i < tableSize, Pte.valid.get (ram table i) = 1 ∧
    Pte.type.get (ram table i) = 1 ∧ Pte.address.get (ram table i) = p

/-- The tables of the tree at `root`: the root itself and the pages that
valid descriptors of type 1 name, down to level 3. -/
def TablePage (ram : ℕ → ℕ → Word) (root p : ℕ) : Prop :=
  p = root ∨ Names ram root p ∨
    (∃ l1, Names ram root l1 ∧ Names ram l1 p) ∨
    ∃ l1 l2, Names ram root l1 ∧ Names ram l1 l2 ∧ Names ram l2 p

def BlockTarget (ram : ℕ → ℕ → Word) (root p : ℕ) : Prop :=
  ∃ l1 l2 i, Names ram root l1 ∧ Names ram l1 l2 ∧
    Pte.valid.get (ram l2 i) = 1 ∧ Pte.type.get (ram l2 i) = 0 ∧
    Pte.address.get (ram l2 i) ≤ p ∧ p < Pte.address.get (ram l2 i) + tableSize

/-! ## §5  Page table pages -/

/-- `buddy_alloc_pt`: a zeroed page, mapped in the kernel's address space
first. Each nested call has taken a page, so `fuel` above the number of pages
never runs out. -/
def buddyAllocPtFuel (l0Table : ℕ) : ℕ → Machine → Option (ℕ × Machine)
  | 0, _ => none
  | fuel + 1, m => do
      let (newPage, m) ← m.buddyAlloc pageSize
      if newPage = 0 then
        some (0, m)
      else
        let m ← map (buddyAllocPtFuel l0Table fuel) newPage (vaToPa newPage) 0
          (mapKernel ||| mapRead ||| mapWrite) l0Table m
        some (newPage, m.clearPage (vaToPa newPage / pageSize))

def buddyAllocPt (l0Table : ℕ) (m : Machine) : Option (ℕ × Machine) :=
  buddyAllocPtFuel l0Table (ramPages + 1) m

/-- `map` as the kernel calls it, on the table at `ptBase`; `l0Table` is
`L0_TABLE`. -/
def kernelMap (l0Table va pa blockOrder flags ptBase : ℕ) (m : Machine) :
    Option Machine :=
  map (buddyAllocPt l0Table) va pa blockOrder flags ptBase m

end Rpos
