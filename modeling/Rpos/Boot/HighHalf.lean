import Rpos.Memory.Mmap

/-!
# The boot mapper

`map_high` of `boot/highhalf.c` builds the kernel's page tables with the MMU
off, in pages of the static page region. The linker symbols it reads are a
`Layout`; `Layout.Ok` states what the linker script fixes about them.
-/

namespace Rpos

open Base

/-! ## §1  The layout of the image -/

/-- The linker symbols, as addresses. The boot code runs at low addresses; the
symbols after `.boot.bss` are high ones, `test` excepted. -/
structure Layout where
  kernelHighStart : ℕ
  textStart : ℕ
  textEnd : ℕ
  rodataStart : ℕ
  rodataEnd : ℕ
  bssStart : ℕ
  bssEnd : ℕ
  kstackBottomHi : ℕ
  kstackTopHi : ℕ
  pageFrameArrayStart : ℕ
  pageFrameArrayEnd : ℕ
  staticPageRegionStart : ℕ
  testPhysLoc : ℕ
  testSize : ℕ
  enableMmu : ℕ

abbrev staticPages : ℕ := 100

/-- `ALIGN_DOWN(addr, PAGE_SIZE)`. -/
def alignDown (addr : ℕ) : ℕ := addr / pageSize * pageSize

/-- `ALIGN_UP(addr, PAGE_SIZE)`. -/
def alignUp (addr : ℕ) : ℕ := alignDown (addr + (pageSize - 1))

namespace Layout

def reservedMemory (l : Layout) : ℕ := l.testPhysLoc + l.testSize

/-- The order and alignment that the linker script gives the sections. -/
structure Ok (l : Layout) : Prop where
  kernelHighStart : l.kernelHighStart = virtBase + 0x80000
  text : l.kernelHighStart ≤ l.textStart ∧ l.textStart ≤ l.textEnd ∧
    l.textEnd % pageSize = 0
  rodata : l.textEnd ≤ l.rodataStart ∧ l.rodataStart % pageSize = 0 ∧
    l.rodataStart ≤ l.rodataEnd ∧ l.rodataEnd % pageSize = 0
  bss : l.rodataEnd ≤ l.bssStart ∧ l.bssStart ≤ l.bssEnd
  kstack : l.bssEnd ≤ l.kstackBottomHi ∧ l.kstackBottomHi % pageSize = 0 ∧
    l.kstackTopHi = l.kstackBottomHi + 0x2000
  pageFrameArray : l.pageFrameArrayStart = l.kstackTopHi ∧
    l.pageFrameArrayEnd = l.pageFrameArrayStart + 0x800000
  staticRegion : l.staticPageRegionStart = l.pageFrameArrayEnd
  test : l.testPhysLoc + virtBase =
    l.staticPageRegionStart + staticPages * pageSize
  enableMmu : l.enableMmu + virtBase < l.textStart
  ram : l.reservedMemory ≤ 2 ^ 30

end Layout

/-! ## §2  The boot memory -/

structure Boot where
  ram : ℕ → ℕ → Word
  loAllocatedPages : ℕ

namespace Boot

def write (b : Boot) (page idx : ℕ) (w : Word) : Boot :=
  { b with ram :=
      Function.update b.ram page (Function.update (b.ram page) idx w) }

theorem write_ram (b : Boot) (page idx p i : ℕ) (w : Word) :
    (b.write page idx w).ram p i =
      if p = page ∧ i = idx then w else b.ram p i := by
  simp only [write, Function.update_apply]
  grind

end Boot

/-- `alloc_page_table_lo`: the next page of the static region, zeroed. The
region starts at page `start`. -/
def allocPageTableLo (start : ℕ) (b : Boot) : ℕ × Boot :=
  let pageAddr := start * pageSize + pageSize * b.loAllocatedPages
  (pageAddr,
    { ram := Function.update b.ram (pageAddr / pageSize) fun _ => 0
      loAllocatedPages := b.loAllocatedPages + 1 })

inductive Permissions
  | ro
  | rw
  | rx
deriving DecidableEq, Repr

def setPermissions (ptme : Word) : Permissions → Word
  | .ro => Pte.pxn.set (Pte.ap.set ptme 2) 1
  | .rw => Pte.pxn.set (Pte.ap.set ptme 0) 1
  | .rx => Pte.pxn.set (Pte.ap.set ptme 2) 0

/-! The `pxn` and `uxn` bits of a table descriptor. -/

def Pte.tablePxn : BitField := ⟨52, 1, by decide⟩
def Pte.tableUxn : BitField := ⟨53, 1, Pte.pxn.fits⟩

def kCodeTableMapping : Word :=
  let td := Pte.type.set 0 1
  let td := Pte.tablePxn.set td 1
  let td := Pte.tableUxn.set td 1
  Pte.valid.set td 1

def kCodeMemMapping : Word :=
  let md := Pte.valid.set 0 1
  let md := Pte.af.set md 1
  let md := Pte.ns.set md 0
  let md := Pte.sh.set md 3
  let md := Pte.ap.set md 0
  let md := Pte.pxn.set md 1
  let md := Pte.uxn.set md 1
  let md := Pte.attrIndex.set md 0
  Pte.type.set md 1

/-! ## §3  The mapping helpers -/

section MapLo

variable (start : ℕ)

/-- One step of the walk of `map_l3_range` and `map_l2_range`. -/
def nextTableLo (table idx : ℕ) (b : Boot) : ℕ × Boot :=
  let entry := b.ram table idx
  if Pte.valid.get entry = 1 then
    (Pte.address.get entry, b)
  else
    let (addr, b) := allocPageTableLo start b
    let ptte := Pte.address.set kCodeTableMapping (addr / pageSize)
    (Pte.address.get ptte, b.write table idx ptte)

/-- One round of the loop of `map_l3_range`. -/
def mapL3Page (va pa pt : ℕ) (perms : Permissions) (b : Boot) : Boot :=
  let (l1, b) := nextTableLo start pt (idx0 va) b
  let (l2, b) := nextTableLo start l1 (idx1 va) b
  let (l3, b) := nextTableLo start l2 (idx2 va) b
  if Pte.valid.get (b.ram l3 (idx3 va)) = 1 then b
  else
    b.write l3 (idx3 va)
      (Pte.address.set (setPermissions kCodeMemMapping perms) (pa / pageSize))

def mapL3Range (pt : ℕ) (perms : Permissions) : ℕ → ℕ → ℕ → Boot → Boot
  | 0, _, _, b => b
  | blocks + 1, va, pa, b =>
      mapL3Range pt perms blocks (va + pageSize) (pa + pageSize)
        (mapL3Page start va pa pt perms b)

/-- One round of the loop of `map_l2_range`. -/
def mapL2Block (va pa pt : ℕ) (perms : Permissions) (b : Boot) : Boot :=
  let (l1, b) := nextTableLo start pt (idx0 va) b
  let (l2, b) := nextTableLo start l1 (idx1 va) b
  if Pte.valid.get (b.ram l2 (idx2 va)) = 1 then b
  else
    b.write l2 (idx2 va)
      (Pte.address.set (setPermissions (Pte.type.set kCodeMemMapping 0) perms)
        (pa / pageSize))

def mapL2Range (pt : ℕ) (perms : Permissions) : ℕ → ℕ → ℕ → Boot → Boot
  | 0, _, _, b => b
  | blocks + 1, va, pa, b =>
      mapL2Range pt perms blocks (va + blockSize) (pa + blockSize)
        (mapL2Block start va pa pt perms b)

def frontPages (va : ℕ) : ℕ :=
  ((va + (blockSize - 1)) / blockSize * blockSize - va) / pageSize

/-- `map_lo`: 4 KiB pages up to a 2 MiB boundary, then 2 MiB blocks, then
4 KiB pages for the rest. -/
def mapLo (va pa pages pt : ℕ) (perms : Permissions) (b : Boot) : Boot :=
  let nFront := min (frontPages va) pages
  let b := mapL3Range start pt perms nFront va pa b
  let va := va + nFront * pageSize
  let pa := pa + nFront * pageSize
  let pages := pages - nFront
  let l2Blocks := pages / 2 ^ 9
  let l3Blocks := pages % 2 ^ 9
  let b := mapL2Range start pt perms l2Blocks va pa b
  let va := va + l2Blocks * blockSize
  let pa := pa + l2Blocks * blockSize
  mapL3Range start pt perms l3Blocks va pa b

/-! ## §4  The regions -/

variable (l : Layout)

def mapPreCode (pt : ℕ) (b : Boot) : Boot :=
  let codeBase := alignDown l.kernelHighStart
  mapLo start virtBase 0 ((codeBase - virtBase) / pageSize) pt .rw b

def mapCode (pt : ℕ) (b : Boot) : Boot :=
  let codeBase := alignDown l.textStart
  let codeEnd := alignUp l.textEnd
  mapLo start codeBase (codeBase - virtBase)
    ((codeEnd - codeBase) / pageSize) pt .rx b

def mapRodata (pt : ℕ) (b : Boot) : Boot :=
  let rodataStart := alignDown l.rodataStart
  let rodataEnd := alignUp l.rodataEnd
  mapLo start rodataStart (rodataStart - virtBase)
    ((rodataEnd - rodataStart) / pageSize) pt .ro b

def mapBss (pt : ℕ) (b : Boot) : Boot :=
  let bssStart := alignDown l.bssStart
  let bssEnd := alignUp l.bssEnd
  mapLo start bssStart (bssStart - virtBase)
    ((bssEnd - bssStart) / pageSize) pt .rw b

def mapStaticPageRegion (pt : ℕ) (b : Boot) : Boot :=
  let spr := l.staticPageRegionStart
  mapLo start spr (spr - virtBase) staticPages pt .rw b

def mapKernelStack (pt : ℕ) (b : Boot) : Boot :=
  let kstackBottom := alignDown l.kstackBottomHi
  let kstackTop := alignUp l.kstackTopHi
  mapLo start kstackBottom (kstackBottom - virtBase)
    ((kstackTop - kstackBottom) / pageSize) pt .rw b

def mapMmuStub (pt : ℕ) (b : Boot) : Boot :=
  let mmuStubLoc := alignDown l.enableMmu
  mapLo start mmuStubLoc mmuStubLoc 1 pt .rx b

def mapPageFrameArray (pt : ℕ) (b : Boot) : Boot :=
  let startAddr := alignDown l.pageFrameArrayStart
  let endAddr := alignUp l.pageFrameArrayEnd
  mapLo start startAddr (startAddr - virtBase)
    ((endAddr - startAddr) / 2 ^ 12) pt .rw b

def mapRam (pt : ℕ) (b : Boot) : Boot :=
  let testEnd := alignUp (l.testPhysLoc + l.testSize)
  mapLo start (virtBase + testEnd) testEnd
    ((2 ^ 30 - testEnd) / pageSize) pt .rw b

end MapLo

/-- `__static_page_region_start_phys`, as a page. -/
def Layout.staticStart (l : Layout) : ℕ :=
  (l.staticPageRegionStart - virtBase) / pageSize

/-- `map_high` on a memory with any contents, up to `enable_mmu`: the root
tables `pt_hi` and `pt_lo` and the memory. -/
def mapHigh (l : Layout) (ram : ℕ → ℕ → Word) : ℕ × ℕ × Boot :=
  let s := l.staticStart
  let (addrHi, b) := allocPageTableLo s ⟨ram, 0⟩
  let (addrLo, b) := allocPageTableLo s b
  let ptHi := addrHi / pageSize
  let ptLo := addrLo / pageSize
  let b := mapPreCode s l ptHi b
  let b := mapCode s l ptHi b
  let b := mapRodata s l ptHi b
  let b := mapBss s l ptHi b
  let b := mapStaticPageRegion s l ptHi b
  let b := mapKernelStack s l ptHi b
  let b := mapMmuStub s l ptLo b
  let b := mapPageFrameArray s l ptHi b
  let b := mapRam s l ptHi b
  (ptHi, ptLo, b)

end Rpos
