import Rpos.Memory.BlockMap
import Rpos.Memory.HeapWords
import Rpos.Memory.KernelMap
import Rpos.Memory.PageOwner
import Mathlib.Data.Nat.Size

/-!
# `kmalloc`

`memory/kmalloc.c`. The slabs and the `kcaches` array, with their list nodes, lie in
RAM: a slab starts with its header, five words.

`none` means that the source follows a pointer out of RAM, or out of the page frame
array.
-/

namespace Rpos

open Base

/-! ## §1  Slabs -/

def caches : ℕ := 7
def minSlabOrder : ℕ := 5
def maxSlabOrder : ℕ := 11

/-! The lists of `kcaches[i]`. -/

def fullSlabs (kcaches i : ℕ) : ℕ := kcaches + 32 * i
def partialSlabs (kcaches i : ℕ) : ℕ := kcaches + 32 * i + 16

/-- `sizeof(slab)`: a list node, 16 bytes of bitmap and three `u16`. -/
def sizeofSlab : ℕ := 40

namespace Slab

/-! The last word of the header. -/

def inuse : BitField := ⟨0, 16, by decide⟩
def total : BitField := ⟨16, 16, by decide⟩
def slabOrder : BitField := ⟨32, 16, by decide⟩

def bitmapWord (s i : ℕ) : ℕ := (s + 16 + i / 64 * 8) % 2 ^ 64

def countsWord (s : ℕ) : ℕ := s + 32

end Slab

/-- `ALIGN_UP`, for a power of two. -/
def alignUpTo (x align : ℕ) : ℕ := (x + (align - 1)) / align * align

/-- `1 << slab_order`, an `int`, as a `size_t`. -/
def itemSize (order : ℕ) : ℕ :=
  if order % 32 = 31 then 2 ^ 64 - 2 ^ 31 else 2 ^ (order % 32)

inductive HeapEnd
  | returns (ptr : ℕ) (m : Machine)
  | panics (m : Machine)

def slabAlloc (l0Table order : ℕ) (m : Machine) : Option HeapEnd := do
  let (physPage, m) ← m.buddyAlloc (pageSize * (order + 1))
  let buddy ← setPageOwner physPage pageSlab m.buddy
  let m := { m with buddy := buddy }
  if physPage = 0 then
    some (.panics m)
  else
    let m ← kernelMap l0Table physPage (vaToPa physPage) order
      (mapKernel ||| mapRead ||| mapWrite) l0Table m
    some (.returns physPage m)

def kheapInit (kcaches : ℕ) (m : Machine) : Option Machine := do
  let m ← (List.range (4 * caches)).foldlM (fun (m : Machine) j =>
    m.writeWord (kcaches + 8 * j) 0) m
  (List.range caches).foldlM (fun (m : Machine) i => do
    let m ← m.initListHead (fullSlabs kcaches i)
    m.initListHead (partialSlabs kcaches i)) m

/-- The loop of `_addr_from_slab` from `i` on, with `n` bits left. The index of the
byte is a `u8`. -/
def slabBitLoop (s : ℕ) : ℕ → ℕ → Machine → Option (ℕ × Machine)
  | 0, _, m => some (0, m)
  | n + 1, i, m => do
      let word := Slab.bitmapWord s (i % 2048)
      let bits ← m.readWord word
      if bits.getLsbD (i % 64) then slabBitLoop s n (i + 1) m
      else
        let m ← m.writeWord word (bits ||| BitVec.twoPow 64 (i % 64))
        let counts ← m.readWord (Slab.countsWord s)
        let m ← m.writeWord (Slab.countsWord s)
          (Slab.inuse.set counts (Slab.inuse.get counts + 1))
        let counts ← m.readWord (Slab.countsWord s)
        let size := itemSize (Slab.slabOrder.get counts)
        some ((s + alignUpTo sizeofSlab size + i * size) % 2 ^ 64, m)

def addrFromSlab (s : ℕ) (m : Machine) : Option (ℕ × Machine) := do
  let counts ← m.readWord (Slab.countsWord s)
  slabBitLoop s (Slab.total.get counts) 0 m

/-! ## §2  `kmalloc` -/

/-- The least power of two of at least 32 that holds `bytes`; the leading zeros of a
number are the bits above its size. -/
def alignedBytes (bytes : ℕ) : ℕ := 2 ^ Nat.size (max bytes (2 ^ minSlabOrder) - 1)

def initSlab (newSlab log2 order aligned : ℕ) (m : Machine) : Option Machine := do
  let m ← m.writeWord (Slab.bitmapWord newSlab 0) 0
  let counts ← m.readWord (Slab.countsWord newSlab)
  let total := (pageSize * 2 ^ order - alignUpTo sizeofSlab aligned) / aligned
  m.writeWord (Slab.countsWord newSlab)
    (Slab.slabOrder.set (Slab.total.set (Slab.inuse.set counts 0) total) log2)

/-- The end of `kmalloc`: an object of the first partial slab of a cache. -/
def allocObject (kcaches cacheIdx : ℕ) (m : Machine) : Option HeapEnd := do
  let s ← m.readPtr (partialSlabs kcaches cacheIdx)
  let (addr, m) ← addrFromSlab s m
  let counts ← m.readWord (Slab.countsWord s)
  if Slab.inuse.get counts = Slab.total.get counts then
    let m ← m.listRemove s
    let m ← m.listAdd s (fullSlabs kcaches cacheIdx)
    some (.returns addr m)
  else some (.returns addr m)

def slabBlockOrder (log2 : ℕ) : ℕ := if 9 < log2 then log2 - 9 else 0

def kmalloc (kcaches l0Table bytes : ℕ) (m : Machine) : Option HeapEnd :=
  if 2 ^ (maxOrder + 12) < bytes then some (.returns 0 m)
  else
    let aligned := alignedBytes bytes
    let log2 := Nat.log2 aligned
    let cacheIdx := log2 - minSlabOrder
    if maxSlabOrder < log2 then do
      let (pages, m) ← m.buddyAlloc aligned
      let m ← kernelMap l0Table pages (vaToPa pages) (log2 - 12) mapKernel l0Table m
      some (.returns pages m)
    else do
      let first ← m.readPtr (partialSlabs kcaches cacheIdx)
      if first = partialSlabs kcaches cacheIdx then
        match ← slabAlloc l0Table (slabBlockOrder log2) m with
        | .panics m => some (.panics m)
        | .returns newSlab m => do
            let m ← initSlab newSlab log2 (slabBlockOrder log2) aligned m
            let m ← m.listAdd newSlab (partialSlabs kcaches cacheIdx)
            allocObject kcaches cacheIdx m
      else allocObject kcaches cacheIdx m

/-! ## §3  `kheap_init` -/

def cacheHeads (kcaches : ℕ) : Set ℕ :=
  {a | ∃ i < caches, a = fullSlabs kcaches i ∨ a = partialSlabs kcaches i}

structure CachesOk (kcaches : ℕ) : Prop where
  first : InRam kcaches
  last : InRam (kcaches + 216)

section Init

variable {kcaches : ℕ}

theorem CachesOk.inRam (hk : CachesOk kcaches) {j : ℕ} (hj : j < 4 * caches) :
    InRam (kcaches + 8 * j) := by
  obtain ⟨⟨hlow, -, haligned⟩, -, hhigh, -⟩ := hk
  simp only [caches] at hj
  constructor <;> omega

theorem CachesOk.nodeWords (hk : CachesOk kcaches) : NodeWords (cacheHeads kcaches) := by
  have hfirst := hk.first
  have hlast := hk.last
  constructor
  · rintro a ⟨i, hi, ha⟩
    have hlow := hfirst.low
    have haligned := hfirst.aligned
    have hhigh := hlast.high
    simp only [fullSlabs, partialSlabs, caches] at ha hi
    constructor <;> omega
  · rintro a ⟨i, hi, ha⟩
    have hlow := hfirst.low
    have haligned := hfirst.aligned
    have hhigh := hlast.high
    simp only [fullSlabs, partialSlabs, caches] at ha hi
    constructor <;> omega
  · rintro a ⟨i, -, ha⟩ b ⟨j, -, hb⟩
    simp only [fullSlabs, partialSlabs] at ha hb
    omega

theorem cacheWord_mem {j : ℕ} (hj : j < 4 * caches) :
    ∃ a ∈ cacheHeads kcaches, kcaches + 8 * j = a ∨ kcaches + 8 * j = a + 8 := by
  have hi : j / 4 < caches := by
    simp only [caches] at *
    omega
  by_cases hfull : j % 4 < 2
  · refine ⟨_, ⟨j / 4, hi, Or.inl rfl⟩, ?_⟩
    simp only [fullSlabs]
    omega
  · refine ⟨_, ⟨j / 4, hi, Or.inr rfl⟩, ?_⟩
    simp only [partialSlabs]
    omega

/-- A round of the loop of `kheap_init` empties the lists of one cache. -/
theorem initCache_spec (hk : CachesOk kcaches) {m : Machine} {l : Links ℕ}
    (hl : HoldsLinks (cacheHeads kcaches) m l) {i : ℕ} (hi : i < caches)
    (hself : ∀ j < i, Links.SelfLinked l (fullSlabs kcaches j) ∧
      Links.SelfLinked l (partialSlabs kcaches j)) :
    ∃ m' l', ((m.initListHead (fullSlabs kcaches i)).bind fun m =>
        m.initListHead (partialSlabs kcaches i)) = some m' ∧
      HoldsLinks (cacheHeads kcaches) m' l' ∧
      (∀ j < i + 1, Links.SelfLinked l' (fullSlabs kcaches j) ∧
        Links.SelfLinked l' (partialSlabs kcaches j)) ∧
      OnlyNodes (cacheHeads kcaches) m m' := by
  obtain ⟨m₁, hrun₁, hl₁, hkeep₁⟩ := hl.initListHead hk.nodeWords ⟨i, hi, Or.inl rfl⟩
  obtain ⟨m₂, hrun₂, hl₂, hkeep₂⟩ := hl₁.initListHead hk.nodeWords ⟨i, hi, Or.inr rfl⟩
  refine ⟨m₂, _, ?_, hl₂, fun j hj => ?_, hkeep₁.trans hkeep₂⟩
  · rw [hrun₁, Option.bind_some, hrun₂]
  have hapart : ∀ {j j' : ℕ}, fullSlabs kcaches j ≠ partialSlabs kcaches j' := by
    intro j j'
    simp only [fullSlabs, partialSlabs]
    omega
  rcases Nat.lt_succ_iff_lt_or_eq.mp hj with hlt | rfl
  · obtain ⟨hfull, hpartial⟩ := hself j hlt
    have hff : fullSlabs kcaches j ≠ fullSlabs kcaches i := by
      simp only [fullSlabs]
      omega
    have hpp : partialSlabs kcaches j ≠ partialSlabs kcaches i := by
      simp only [partialSlabs]
      omega
    exact ⟨initListHead_other hapart (initListHead_other hff hfull),
      initListHead_other hpp (initListHead_other hapart.symm hpartial)⟩
  · exact ⟨initListHead_other hapart (initListHead_selfLinked _ _),
      initListHead_selfLinked _ _⟩

theorem kheapInit_spec (hk : CachesOk kcaches) (m : Machine) :
    ∃ m' l, kheapInit kcaches m = some m' ∧ HoldsLinks (cacheHeads kcaches) m' l ∧
      (∀ i < caches, Links.SelfLinked l (fullSlabs kcaches i) ∧
        Links.SelfLinked l (partialSlabs kcaches i)) ∧
      OnlyNodes (cacheHeads kcaches) m m' := by
  obtain ⟨m₁, hrun₁, hkeep₁⟩ : ∃ m', (List.range (4 * caches)).foldlM
      (fun (m : Machine) j => m.writeWord (kcaches + 8 * j) 0) m = some m' ∧
        OnlyNodes (cacheHeads kcaches) m m' := by
    apply foldlM_range (P := fun _ m' => OnlyNodes (cacheHeads kcaches) m m')
      (OnlyNodes.refl _ m)
    intro j m' hj hm'
    refine ⟨_, Machine.writeWord_eq (hk.inRam hj), hm'.trans ⟨rfl, fun w hw hwS => ?_⟩⟩
    rw [Machine.setWord_word (hk.inRam hj) hw, if_neg]
    rintro rfl
    obtain ⟨a, ha, heq⟩ := cacheWord_mem hj
    exact heq.elim (hwS a ha).1 (hwS a ha).2
  obtain ⟨m₂, hrun₂, l, hl, hself, hkeep₂⟩ : ∃ m', (List.range caches).foldlM
      (fun (m : Machine) i => (m.initListHead (fullSlabs kcaches i)).bind fun m =>
        m.initListHead (partialSlabs kcaches i)) m₁ = some m' ∧
      ∃ l, HoldsLinks (cacheHeads kcaches) m' l ∧
        (∀ i < caches, Links.SelfLinked l (fullSlabs kcaches i) ∧
          Links.SelfLinked l (partialSlabs kcaches i)) ∧
        OnlyNodes (cacheHeads kcaches) m₁ m' := by
    apply foldlM_range (P := fun i m' => ∃ l, HoldsLinks (cacheHeads kcaches) m' l ∧
      (∀ j < i, Links.SelfLinked l (fullSlabs kcaches j) ∧
        Links.SelfLinked l (partialSlabs kcaches j)) ∧ OnlyNodes (cacheHeads kcaches) m₁ m')
    · exact ⟨⟨m₁.ptr, fun a => m₁.ptr (a + 8)⟩, fun _ _ => ⟨rfl, rfl⟩,
        fun j hj => absurd hj (Nat.not_lt_zero j), OnlyNodes.refl _ m₁⟩
    · rintro i m' hi ⟨l, hl, hself, hkeep⟩
      obtain ⟨m'', l', hrun, hl', hself', hkeep'⟩ := initCache_spec hk hl hi hself
      exact ⟨m'', hrun, l', hl', hself', hkeep.trans hkeep'⟩
  refine ⟨m₂, l, ?_, hl, hself, hkeep₁.trans hkeep₂⟩
  rw [kheapInit, hrun₁, Option.bind_eq_bind, Option.bind_some]
  exact hrun₂

end Init

/-! ## §4  What `map` keeps -/

section Keeps

variable {allocPt : Machine → Option (ℕ × Machine)} {I : Machine → Prop} {m m' : Machine}
  {root va flags : ℕ}

structure Keeps (allocPt : Machine → Option (ℕ × Machine)) (I : Machine → Prop) : Prop where
  alloc : ∀ m page m', I m → allocPt m = some (page, m') → I m'
  write : ∀ m page idx w, I m → I (m.write page idx w)

/-- A step of the walk follows a valid entry, or it requests a page and stores an
entry. -/
theorem nextTable_cases {t idx l : ℕ} (hrun : nextTable allocPt t idx m = some (l, m')) :
    Pte.valid.get (m.ram t idx) = 1 ∧ l = Pte.address.get (m.ram t idx) ∧ m' = m ∨
      Pte.valid.get (m.ram t idx) ≠ 1 ∧ ∃ page m1 w, allocPt m = some (page, m1) ∧
        m' = m1.write t idx w := by
  have ht := nextTable_lt hrun
  by_cases hv : Pte.valid.get (m.ram t idx) = 1
  · rw [nextTable_valid allocPt ht hv, Option.some.injEq, Prod.mk.injEq] at hrun
    exact Or.inl ⟨hv, hrun.1.symm, hrun.2.symm⟩
  · cases halloc : allocPt m with
    | none =>
        rw [nextTable_none ht hv halloc] at hrun
        exact absurd hrun (Option.some_ne_none _).symm
    | some r =>
        rw [nextTable_alloc ht hv halloc, Option.some.injEq, Prod.mk.injEq] at hrun
        exact Or.inr ⟨hv, r.1, r.2, _, rfl, hrun.2.symm⟩

theorem Keeps.nextTable {t idx l : ℕ} (hI : Keeps allocPt I) (hm : I m)
    (hrun : nextTable allocPt t idx m = some (l, m')) : I m' := by
  rcases nextTable_cases hrun with ⟨-, -, rfl⟩ | ⟨-, page, m1, w, halloc, rfl⟩
  · exact hm
  · apply hI.write
    exact hI.alloc m page m1 hm halloc

theorem Keeps.mapPage (hI : Keeps allocPt I) (hm : I m) {pa : ℕ}
    (hrun : mapPage allocPt va pa flags root m = some m') : I m' := by
  obtain ⟨l1, m1, l2, m2, l3, m3, hrun1, hrun2, hrun3, hl3⟩ := mapPage_walk hrun
  rw [mapPage_run hrun1 hrun2 hrun3 hl3, Option.some.injEq] at hrun
  have hm3 := hI.nextTable (hI.nextTable (hI.nextTable hm hrun1) hrun2) hrun3
  rw [← hrun]
  split_ifs
  · exact hm3
  · exact hI.write m3 l3 _ _ hm3

theorem Keeps.mapPages (hI : Keeps allocPt I) (n : ℕ) :
    ∀ (va pa : ℕ) (m : Machine), I m →
      mapPages allocPt flags root n va pa m = some m' → I m' := by
  induction n with
  | zero =>
      rintro va pa m hm ⟨⟩
      exact hm
  | succ n ih =>
      intro va pa m hm hrun
      rw [Rpos.mapPages, Option.bind_eq_bind, Option.bind_eq_some_iff] at hrun
      obtain ⟨m1, hpage, hrest⟩ := hrun
      exact ih _ _ m1 (hI.mapPage hm hpage) hrest

theorem Keeps.mapBlock (hI : Keeps allocPt I) (hm : I m) {pa : ℕ}
    (hrun : mapBlock allocPt va pa flags root m = some m') : I m' := by
  obtain ⟨l1, m1, l2, m2, hrun1, hrun2, hl2⟩ := mapBlock_walk hrun
  rw [mapBlock_run hrun1 hrun2 hl2, Option.some.injEq] at hrun
  have hm2 := hI.nextTable (hI.nextTable hm hrun1) hrun2
  rw [← hrun]
  split_ifs
  · exact hm2
  · exact hI.write m2 l2 _ _ hm2

theorem Keeps.mapBlocks (hI : Keeps allocPt I) (n : ℕ) :
    ∀ (va pa : ℕ) (m : Machine), I m →
      mapBlocks allocPt flags root n va pa m = some m' → I m' := by
  induction n with
  | zero =>
      rintro va pa m hm ⟨⟩
      exact hm
  | succ n ih =>
      intro va pa m hm hrun
      rw [Rpos.mapBlocks, Option.bind_eq_bind, Option.bind_eq_some_iff] at hrun
      obtain ⟨m1, hblock, hrest⟩ := hrun
      exact ih _ _ m1 (hI.mapBlock hm hblock) hrest

theorem Keeps.map (hI : Keeps allocPt I) (hm : I m) {pa order : ℕ}
    (hrun : map allocPt va pa order flags root m = some m') : I m' := by
  rw [Rpos.map] at hrun
  split_ifs at hrun
  · exact hI.mapBlocks _ va pa m hm hrun
  · exact hI.mapPages _ va pa m hm hrun

/-- What `buddy_alloc`, stores and clearing a page keep, `buddy_alloc_pt` keeps. -/
theorem keeps_buddyAllocPtFuel (l0Table : ℕ)
    (hbuddy : ∀ m page m', I m → m.buddyAlloc pageSize = some (page, m') → I m')
    (hwrite : ∀ m page idx w, I m → I (m.write page idx w))
    (hclear : ∀ m page, I m → I (m.clearPage page)) (fuel : ℕ) :
    Keeps (buddyAllocPtFuel l0Table fuel) I := by
  induction fuel with
  | zero => exact ⟨fun _ _ _ _ hrun => absurd hrun (Option.some_ne_none _).symm, hwrite⟩
  | succ fuel ih =>
      refine ⟨fun m page m' hm hrun => ?_, hwrite⟩
      rw [buddyAllocPtFuel_succ, Option.bind_eq_some_iff] at hrun
      obtain ⟨⟨page1, m1⟩, halloc, hrun⟩ := hrun
      have hm1 := hbuddy m page1 m1 hm halloc
      dsimp only at hrun
      by_cases hzero : page1 = 0
      · rw [if_pos hzero, Option.some.injEq, Prod.mk.injEq] at hrun
        exact hrun.2 ▸ hm1
      · rw [if_neg hzero, Option.bind_eq_some_iff] at hrun
        obtain ⟨m2, hmap, hrun⟩ := hrun
        rw [Option.some.injEq, Prod.mk.injEq] at hrun
        rw [← hrun.2]
        apply hclear
        exact ih.map hm1 hmap

theorem keeps_buddyAllocPt (l0Table : ℕ)
    (hbuddy : ∀ m page m', I m → m.buddyAlloc pageSize = some (page, m') → I m')
    (hwrite : ∀ m page idx w, I m → I (m.write page idx w))
    (hclear : ∀ m page, I m → I (m.clearPage page)) : Keeps (buddyAllocPt l0Table) I :=
  keeps_buddyAllocPtFuel l0Table hbuddy hwrite hclear (ramPages + 1)

end Keeps

end Rpos
