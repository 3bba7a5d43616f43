import Rpos.Base.Loops
import Rpos.Base.Ring
import Mathlib.Data.Nat.Bitwise

/-!
# The buddy allocator

The page frame array and the free lists of `memory/paging.c`. A page frame is
named by its number (pfn); addresses are 64-bit numbers and wrap. The fields
of the packed flag byte keep their widths.

`none` means that the source would loop for ever or would read through a
pointer that names no page frame.
-/

namespace Rpos

open Base

/-! ## §1  Addresses -/

abbrev maxOrder : ℕ := 18

/-- Pages of the managed 1 GiB, the length of the frame array. -/
abbrev ramPages : ℕ := 2 ^ 18

abbrev pageSize : ℕ := 4096

abbrev virtBase : ℕ := 0xFFFF800000000000

def paToVa (pa : ℕ) : ℕ := (pa + virtBase) % 2 ^ 64

def vaToPa (va : ℕ) : ℕ := (va + (2 ^ 64 - virtBase)) % 2 ^ 64

def pageAddr (pfn : ℕ) : ℕ := paToVa (pfn * pageSize)

theorem vaToPa_paToVa {pa : ℕ} (h : pa < 2 ^ 30) : vaToPa (paToVa pa) = pa := by
  simp only [vaToPa, paToVa, virtBase]
  omega

theorem paToVa_eq {pa : ℕ} (h : pa < 2 ^ 30) : paToVa pa = pa + virtBase := by
  simp only [paToVa, virtBase]
  omega

theorem pageAddr_eq {p : ℕ} (h : p < ramPages) :
    pageAddr p = p * pageSize + virtBase :=
  paToVa_eq (by simp only [ramPages, pageSize] at *; omega)

theorem pageAddr_ne_zero {p : ℕ} (h : p < ramPages) : pageAddr p ≠ 0 := by
  rw [pageAddr_eq h]
  simp [virtBase]

theorem vaToPa_pageAddr {q : ℕ} (h : q < ramPages) :
    vaToPa (pageAddr q) / pageSize = q := by
  have hpa : q * pageSize < 2 ^ 30 := by
    simp only [ramPages, pageSize] at *
    omega
  rw [pageAddr, vaToPa_paToVa hpa]
  exact Nat.mul_div_cancel q (by decide)

theorem pageAddr_inj {p q : ℕ} (hp : p < ramPages) (hq : q < ramPages)
    (h : pageAddr p = pageAddr q) : p = q := by
  rw [pageAddr_eq hp, pageAddr_eq hq] at h
  simp only [pageSize] at h
  omega

/-! ## §2  The page frame array and the free lists -/

/-! The values of `page_state`, a 3-bit field, and of `page_flags`, a 5-bit
field. -/

def pageFree : BitVec 3 := 0
def pageBuddy : BitVec 3 := 1
def pageSlab : BitVec 3 := 2
def pageReserved : BitVec 3 := 3

def pageBuddyTail : BitVec 5 := 1
def pageBuddyHead : BitVec 5 := 2

/-- `page_frame_t` without its list node. `order` is the order of a block in
the frame of its head page and the pfn of the head in the others. -/
structure PageFrame where
  order : ℕ
  refcount : ℕ
  state : BitVec 3
  flags : BitVec 5
deriving DecidableEq, Repr

/-- The nodes of the free lists: the heads `buddy_lists[k]` and the `list`
field of each frame. -/
inductive BuddyNode
  | null
  | head (order : ℕ)
  | frame (pfn : ℕ)
deriving DecidableEq, Repr

structure Buddy where
  frameMetadata : ℕ → PageFrame
  links : Links BuddyNode

namespace Buddy

def modifyFrame (m : Buddy) (pfn : ℕ) (f : PageFrame → PageFrame) : Buddy :=
  { m with frameMetadata :=
      Function.update m.frameMetadata pfn (f (m.frameMetadata pfn)) }

def listAdd (m : Buddy) (node head : BuddyNode) : Buddy :=
  { m with links := m.links.listAdd node head }

def listRemove (m : Buddy) (node : BuddyNode) : Buddy :=
  { m with links := m.links.listRemove node }

@[simp] theorem modifyFrame_links (m : Buddy) (p : ℕ) (f) :
    (m.modifyFrame p f).links = m.links := rfl

@[simp] theorem modifyFrame_self (m : Buddy) (p : ℕ) (f) :
    (m.modifyFrame p f).frameMetadata p = f (m.frameMetadata p) := by
  simp [modifyFrame]

theorem modifyFrame_apply (m : Buddy) (p q : ℕ) (f) :
    (m.modifyFrame p f).frameMetadata q =
      if q = p then f (m.frameMetadata p) else m.frameMetadata q := by
  simp [modifyFrame, Function.update_apply]

@[simp] theorem listAdd_frames (m : Buddy) (n h : BuddyNode) :
    (m.listAdd n h).frameMetadata = m.frameMetadata := rfl

@[simp] theorem listRemove_frames (m : Buddy) (n : BuddyNode) :
    (m.listRemove n).frameMetadata = m.frameMetadata := rfl

@[simp] theorem listAdd_links (m : Buddy) (n h : BuddyNode) :
    (m.listAdd n h).links = m.links.listAdd n h := rfl

@[simp] theorem listRemove_links (m : Buddy) (n : BuddyNode) :
    (m.listRemove n).links = m.links.listRemove n := rfl

/-- A loop over consecutive frames rewrites each of them once. -/
theorem forRange_modifyFrame (m : Buddy) (p lo hi : ℕ)
    (g : ℕ → PageFrame → PageFrame) :
    forRange lo hi (fun j m => m.modifyFrame (p + j) (g j)) m =
      { m with frameMetadata := modifyRange p lo hi g m.frameMetadata } := by
  rw [← forRange_update]
  exact (forRange_hom (fun fr : ℕ → PageFrame => Buddy.mk fr m.links)
    (fun _ _ => rfl) m.frameMetadata).symm

end Buddy

/-- `list_entry`: the frame that holds a list node. -/
def listEntry : BuddyNode → Option ℕ
  | .frame pfn => some pfn
  | _ => none

/-! ## §3  Allocation -/

/-- One round of `_split_down` at `curr_order = k + 1`: the block at `pfn`
becomes two blocks of order `k`. -/
def splitBlockAt (k pfn : ℕ) (m : Buddy) : Buddy :=
  let buddyPfn := pfn + 2 ^ k
  let m := m.listRemove (m.links.next (.head (k + 1)))
  let m := m.listAdd (.frame buddyPfn) (.head k)
  let m := m.listAdd (.frame pfn) (.head k)
  let m := m.modifyFrame pfn fun f => { f with order := k }
  let m := m.modifyFrame buddyPfn fun f => { f with order := k }
  let m := m.modifyFrame buddyPfn fun f => { f with flags := pageBuddyHead }
  let m := m.modifyFrame buddyPfn fun f => { f with state := pageFree }
  forRange 1 (2 ^ k) (fun j m =>
    let m := m.modifyFrame (buddyPfn + j) fun f =>
      { f with order := buddyPfn, flags := pageBuddyTail }
    m.modifyFrame (pfn + j) fun f =>
      { f with order := pfn, flags := pageBuddyTail }) m

/-- `_split_down(req_order, curr_order)` at `curr_order = req_order + n`. The
result is the address of the list node of the block found. -/
def splitDown (reqOrder : ℕ) : ℕ → Buddy → Option (BuddyNode × Buddy)
  | 0, m => some (m.links.next (.head reqOrder), m)
  | n + 1, m => do
      let pfn ← listEntry (m.links.next (.head (reqOrder + n + 1)))
      splitDown reqOrder n (splitBlockAt (reqOrder + n) pfn m)

/-- The body of `_alloc_and_return`: the block at `pfn` leaves its list and
becomes a live block. -/
def takeBlock (reqOrder pfn : ℕ) (m : Buddy) : Buddy :=
  let m := m.listRemove (.frame pfn)
  let m := m.modifyFrame pfn fun f => { f with refcount := 1 }
  let m := m.modifyFrame pfn fun f => { f with state := pageBuddy }
  let m := m.modifyFrame pfn fun f =>
    { f with flags := f.flags ||| pageBuddyHead }
  forRange 1 (2 ^ reqOrder) (fun i m =>
    m.modifyFrame (pfn + i) fun _ =>
      { flags := pageBuddyTail, state := pageBuddy, refcount := 1,
        order := pfn }) m

/-- `_alloc_and_return`. The source ignores its `head` argument. -/
def allocAndReturn (reqOrder : ℕ) (m : Buddy) : Option (ℕ × Buddy) := do
  let pfn ← listEntry (m.links.next (.head reqOrder))
  some (pageAddr pfn, takeBlock reqOrder pfn m)

/-- The loop `while ((1U << requested_order) < n_pages) requested_order++`.
The shift count of a 32-bit shift is taken modulo 32 and the `u8` counter
wraps, so 256 rounds without an answer repeat for ever. -/
def requestedOrder (nPages : ℕ) : ℕ → ℕ → Option ℕ
  | 0, _ => none
  | fuel + 1, order =>
      if 2 ^ (order % 32) < nPages then requestedOrder nPages fuel (order + 1)
      else some order

/-- `u32 n_pages = (bytes + 4095) >> 12`. -/
def pagesFor (bytes : ℕ) : ℕ := (bytes + 4095) % 2 ^ 64 / pageSize % 2 ^ 32

/-- The search loop of `buddy_alloc` over `i = requested_order + n`, with
`fuel` orders left to try. -/
def findAndSplit (reqOrder : ℕ) : ℕ → ℕ → Buddy → Option (ℕ × Buddy)
  | 0, _, m => some (0, m)
  | fuel + 1, n, m =>
      if m.links.listEmpty (.head (reqOrder + n)) then
        findAndSplit reqOrder fuel (n + 1) m
      else do
        let (_, m) ← splitDown reqOrder n m
        allocAndReturn reqOrder m

/-- `buddy_alloc`: the kernel address of a block, or 0. -/
def buddyAlloc (bytes : ℕ) (m : Buddy) : Option (ℕ × Buddy) := do
  let order ← requestedOrder (pagesFor bytes) 256 0
  if maxOrder < order then
    some (0, m)
  else if !m.links.listEmpty (.head order) then
    allocAndReturn order m
  else
    findAndSplit order (maxOrder - order) 1 m

/-! ## §4  Release -/

/-- The merge in `coalesce_up`: the blocks of order `blockOrder` at `prev`
and `next` become one block at `prev`. -/
def mergeBuddies (blockOrder prev next : ℕ) (m : Buddy) : Buddy :=
  let m := m.listRemove (.frame prev)
  let m := m.listRemove (.frame next)
  let m := m.modifyFrame next fun f => { f with flags := pageBuddyTail }
  let m := forRange 0 (2 ^ blockOrder) (fun i m =>
    m.modifyFrame (next + i) fun f => { f with order := prev }) m
  let m := m.modifyFrame prev fun f => { f with order := f.order + 1 }
  m.listAdd (.frame prev) (.head (blockOrder + 1))

/-- `coalesce_up`. Each round raises the order of the block by one, and order
`maxOrder + 1` has no list. -/
def coalesceUp : ℕ → ℕ → Buddy → Option Buddy
  | 0, _, _ => none
  | fuel + 1, pfn, m =>
      let blockOrder := (m.frameMetadata pfn).order
      let buddy := pfn ^^^ 2 ^ blockOrder
      let prev := min buddy pfn
      let next := max buddy pfn
      if (m.frameMetadata prev).order ≠ (m.frameMetadata next).order then
        some m
      else if (m.frameMetadata prev).state = pageFree ∧
          (m.frameMetadata next).state = pageFree then
        coalesceUp fuel prev (mergeBuddies blockOrder prev next m)
      else
        some m

def frameOf (addr : ℕ) : Option ℕ :=
  let pfn := vaToPa addr / pageSize
  if pfn < ramPages then some pfn else none

/-- Steps 1 and 2 of `buddy_free`: mark the block free and list it. -/
def putBlock (blockOrder pfn : ℕ) (m : Buddy) : Buddy :=
  (m.modifyFrame pfn fun f => { f with state := pageFree }).listAdd
    (.frame pfn) (.head blockOrder)

def buddyFree (page : ℕ) (m : Buddy) : Option Buddy := do
  let pfn ← frameOf page
  if (m.frameMetadata pfn).flags &&& pageBuddyHead = 0 then
    some m
  else if (m.frameMetadata pfn).state = pageFree then
    some m
  else
    let blockOrder := (m.frameMetadata pfn).order
    let m := putBlock blockOrder pfn m
    if blockOrder < maxOrder then coalesceUp (maxOrder + 1) pfn m else some m

/-! ## §5  Initialisation -/

/-- One round of `_initialize_buddy_allocator`: a free block of order `i` at
`pfn`. The source stores `PAGE_BUDDY_TAIL` in the `state` field of the
interior pages, where its value is that of `PAGE_BUDDY`. -/
def addInitialBlock (i pfn : ℕ) (m : Buddy) : Buddy :=
  let m := m.modifyFrame pfn fun f => { f with order := i }
  let m := forRange 1 (2 ^ i) (fun j m =>
    m.modifyFrame (pfn + j) fun f =>
      { f with order := pfn, state := pageBuddyTail.setWidth 3 }) m
  let m := m.modifyFrame pfn fun f =>
    { f with state := pageFree, flags := pageBuddyHead }
  m.listAdd (.frame pfn) (.head i)

/-- The loop of `_initialize_buddy_allocator` over `i - 1, …, 0`. -/
def initializeBuddyAllocator (availablePages : ℕ) : ℕ → ℕ → Buddy → Buddy
  | 0, _, m => m
  | i + 1, pfn, m =>
      if availablePages.testBit i then
        initializeBuddyAllocator availablePages i (pfn + 2 ^ i)
          (addInitialBlock i pfn m)
      else
        initializeBuddyAllocator availablePages i pfn m

/-- `reserved_pages`: the pages below `reserved_memory`, rounded up. -/
def reservedPages (reservedMemory : ℕ) : ℕ := (reservedMemory + 0xFFF) / pageSize

/-- `memset(frame_metadata, 0, …)`: it clears the list nodes as well. -/
def clearFrames (m : Buddy) : Buddy where
  frameMetadata p :=
    if p < ramPages then ⟨0, 0, 0, 0⟩ else m.frameMetadata p
  links :=
    { next := fun n => match n with
        | .frame p => if p < ramPages then .null else m.links.next n
        | n => m.links.next n
      prev := fun n => match n with
        | .frame p => if p < ramPages then .null else m.links.prev n
        | n => m.links.prev n }

/-- `initialize_page_frame_array`, on a memory with any contents.
`reservedMemory` is the end of the test region, the last thing the linker
script lays out. -/
def initializePageFrameArray (reservedMemory : ℕ) (m : Buddy) : Buddy :=
  let m := forRange 0 (maxOrder + 1) (fun i (m : Buddy) =>
    { m with links := m.links.initListHead (.head i) }) m
  let m := clearFrames m
  let m := forRange 0 (reservedPages reservedMemory) (fun i (m : Buddy) =>
    m.modifyFrame i fun f => { f with state := pageReserved }) m
  initializeBuddyAllocator (ramPages - reservedPages reservedMemory)
    (maxOrder + 1) (reservedPages reservedMemory) m

end Rpos
