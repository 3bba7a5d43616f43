import Rpos.Base.Runs
import Rpos.Memory.BuddyCapacity
import Rpos.Memory.HeapPages
import Rpos.Memory.SlabHeap
import Rpos.System.KmallocFailure
import Mathlib.Data.Set.Card

/-!
# The kernel's heap

What callers do with `kmalloc` and `kfree`, what should hold of the heap between the
calls, and the invariant that says so: each object is in a slot of a listed slab or has a
block of its own.
-/

namespace Rpos

open Base

/-! ## §1  The heap and its callers -/

/-- The machine, and the objects that its callers hold: for each pointer the size that was
requested. -/
structure KernelHeap where
  machine : Machine
  objects : ℕ → Option ℕ

/-- What the kernel does to the heap. Its stores to objects, and whatever free pages hold,
are new contents of RAM. -/
inductive HeapOp
  | kmalloc (bytes : ℕ)
  | kfree (ptr : ℕ)
  | contents (ram : ℕ → ℕ → Word)

def heapStep (kcaches root : ℕ) (h : KernelHeap) : HeapOp → Option (ℕ × KernelHeap)
  | .kmalloc bytes =>
      match kmalloc kcaches root bytes h.machine with
      | some (.returns ptr m) =>
          some (ptr, ⟨m, if ptr = 0 then h.objects
            else Function.update h.objects ptr (some bytes)⟩)
      | _ => none
  | .kfree ptr =>
      match kfree kcaches ptr h.machine with
      | some (.returns m) => some (0, ⟨m, Function.update h.objects ptr none⟩)
      | _ => none
  | .contents ram => some (0, ⟨{ h.machine with ram := ram }, h.objects⟩)

/-- The word is one of the kernel's data or of the header of a slab. -/
def KernelWord (R : ℕ) (b : Buddy) (p k : ℕ) : Prop :=
  p < R ∨ ∃ d ∈ slabBlocks b, p = d.base ∧ k < 5

/-- Only live objects are freed, and nobody stores to the kernel's words. -/
def HeapOp.Ok (R : ℕ) (h : KernelHeap) : HeapOp → Prop
  | .kmalloc _ => True
  | .kfree ptr => (h.objects ptr).isSome
  | .contents ram => ∀ p k, KernelWord R h.machine.buddy p k → ram p k = h.machine.ram p k

def blockOrder (bytes : ℕ) : ℕ :=
  if maxSlabOrder < requestLog bytes then requestLog bytes - 12
  else slabBlockOrder (requestLog bytes)

/-- `kmalloc` needs a block: the request is large, or its cache has no partial slab. -/
def Refills (kcaches bytes : ℕ) (m : Machine) : Prop :=
  requestLog bytes ≤ maxSlabOrder →
    m.readPtr (partialSlabs kcaches (requestLog bytes - minSlabOrder)) =
      some (partialSlabs kcaches (requestLog bytes - minSlabOrder))

/-- A `kmalloc` that needs a block is granted one, at page `q` say, and then `P q`. -/
def Served (kcaches : ℕ) (h : KernelHeap) (bytes : ℕ) (P : ℕ → Prop) : Prop :=
  bytes ≤ 2 ^ 30 → Refills kcaches bytes h.machine →
    ∃ q b, buddyAlloc (buddyRequest bytes) h.machine.buddy = some (pageAddr q, b) ∧
      q < ramPages ∧ P q

/-- `kmalloc` gets the block that it needs, and `map` meets no clear word in the header of
a slab when it maps the block. -/
def Spares (kcaches root : ℕ) (h : KernelHeap) : HeapOp → Prop
  | .kmalloc bytes => Served kcaches h bytes fun q =>
      ∀ d ∈ slabBlocks h.machine.buddy, ∀ k < 5,
        ¬ StrayWord h.machine.ram root q (blockOrder bytes) d.base k
  | _ => True

/-- The page of a new slab of the smallest class holds zeros where the bitmap is not
cleared. -/
def FindsClean (kcaches : ℕ) (h : KernelHeap) : HeapOp → Prop
  | .kmalloc bytes => requestLog bytes = minSlabOrder → Served kcaches h bytes fun q =>
      ∀ i < 62, (h.machine.ram q 3).getLsbD i = false
  | _ => True

/-! ## §2  Objects apart and slabs booked -/

def InBlock (d : Block) (p n : ℕ) : Prop :=
  pageAddr d.base ≤ p ∧ p + n ≤ pageAddr d.base + pageSize * 2 ^ d.order

/-- Each object lies in a block that was granted, and `kfree` finds that block again; it
is apart from the other objects and from the headers of the slabs. -/
structure ObjectsApart (h : KernelHeap) : Prop where
  block : ∀ p n, h.objects p = some n → ∃ d ∈ (pageAllocatorOf h.machine.buddy).live,
    InBlock d p n ∧ headFromPage (alignDown p) h.machine.buddy = some (pageAddr d.base) ∧
      getPageOwner (alignDown p) h.machine.buddy =
        some (if n ≤ 2048 then pageSlab else pageBuddy) ∧ (2048 < n → p = pageAddr d.base)
  aligned : ∀ p n, h.objects p = some n → n ≤ 2048 → alignedBytes n ∣ p
  apart : ∀ p n q k, h.objects p = some n → h.objects q = some k → p ≠ q →
    p + n ≤ q ∨ q + k ≤ p
  headers : ∀ p n, h.objects p = some n → ∀ d ∈ slabBlocks h.machine.buddy,
    p + n ≤ pageAddr d.base ∨ pageAddr d.base + sizeofSlab ≤ p

def KmallocApart (h : KernelHeap) (op : HeapOp) (ptr : ℕ) (h' : KernelHeap) : Prop :=
  ObjectsApart h' ∧ ∀ bytes, op = .kmalloc bytes → ptr ≠ 0 →
    h.objects ptr = none ∧ h'.objects ptr = some bytes

def objectsIn (h : KernelHeap) (d : Block) : Set ℕ :=
  {p | (h.objects p).isSome ∧ pageAddr d.base ≤ p ∧
    p < pageAddr d.base + pageSize * 2 ^ d.order}

/-- The header of the slab of class `c` in the block is right, and the slab is on the list
that it belongs on. -/
structure SlabBooked (L : ℕ → List ℕ) (h : KernelHeap) (c : ℕ) (d : Block) : Prop where
  order : Slab.orderOf h.machine (pageAddr d.base) = slotLog c
  used : 1 ≤ Slab.inuseOf h.machine (pageAddr d.base)
  bound : Slab.inuseOf h.machine (pageAddr d.base) ≤ Slab.totalOf h.machine (pageAddr d.base)
  partialList : pageAddr d.base ∈ L (2 * c + 1) ↔
    Slab.inuseOf h.machine (pageAddr d.base) < Slab.totalOf h.machine (pageAddr d.base)
  fullList : pageAddr d.base ∈ L (2 * c) ↔
    Slab.inuseOf h.machine (pageAddr d.base) = Slab.totalOf h.machine (pageAddr d.base)
  owned : ∀ x ∈ d.pages, getPageOwner (pageAddr x) h.machine.buddy = some pageSlab
  bits : ((Finset.range (Slab.totalOf h.machine (pageAddr d.base))).filter fun i =>
    Slab.bit h.machine (pageAddr d.base) i).card = Slab.inuseOf h.machine (pageAddr d.base)
  objects : (objectsIn h d).ncard = Slab.inuseOf h.machine (pageAddr d.base)

/-- The lists of the caches are in order, each slab is linked once and is booked, and
nothing else is linked. -/
def SlabsBooked (kcaches : ℕ) (h : KernelHeap) : Prop :=
  ∃ L, HoldsLists kcaches L h.machine ∧
    (∀ s, (∃ j < cacheLists, s ∈ L j) ↔
      ∃ d ∈ slabBlocks h.machine.buddy, s = pageAddr d.base) ∧
    ∀ d ∈ slabBlocks h.machine.buddy, ∃ c < caches, SlabBooked L h c d

def KmallocBooked (kcaches : ℕ) (op : HeapOp) (ptr : ℕ) (h' : KernelHeap) : Prop :=
  SlabsBooked kcaches h' ∧ ∀ bytes, op = .kmalloc bytes → bytes ≤ 2048 → ptr ≠ 0

def KfreeIdempotent (kcaches : ℕ) (h : KernelHeap) : Prop :=
  ∀ p, (h.objects p).isSome → ∃ m, kfree kcaches p h.machine = some (.returns m) ∧
    kfree kcaches p m = some (.returns m)

/-! ## §3  The invariant -/

/-- The array of the caches lies in RAM, before the static pages of the tables. -/
structure HeapLayout (kcaches S R : ℕ) : Prop where
  caches : CachesOk kcaches
  before : kcaches + 224 ≤ pageAddr S
  static : S ≤ R
  low : 2048 ≤ R
  high : R ≤ ramPages

/-- The object at `p` is in a slot of its class, or has a block of its own. -/
def Placed (L : ℕ → List ℕ) (b : Buddy) (p n : ℕ) : Prop :=
  (∃ c < caches, requestLog n = slotLog c ∧ ∃ s, OfClass L c s ∧
      ∃ i < slabTotal c, p = slotAddr c s i) ∨
    ∃ d ∈ (pageAllocatorOf b).live, (b.frameMetadata d.base).state = pageBuddy ∧
      requestLog n = d.order + 12 ∧ p = pageAddr d.base

/-- RAM holds the lists `L` of slabs, each in a block of its own, and each object is
placed. -/
structure HeapParts (P : Prop) (kcaches S R root : ℕ) (L : ℕ → List ℕ) (h : KernelHeap) :
    Prop where
  buddy : BuddyOk R h.machine.buddy
  walks : HeapWalks S R h.machine.ram root
  slabs : SlabsOk P kcaches L h.machine h.objects
  sorted : SlabsSorted L h.objects
  block : ∀ c < caches, ∀ s, OfClass L c s → ∃ d ∈ slabBlocks h.machine.buddy,
    d.order = slabOrder c ∧ s = pageAddr d.base
  listed : ∀ d ∈ slabBlocks h.machine.buddy, ∃ c < caches, OfClass L c (pageAddr d.base)
  placed : ∀ p n, h.objects p = some n → Placed L h.machine.buddy p n

/-- No slab is left without objects. -/
def SlabsHeld (L : ℕ → List ℕ) (objects : ℕ → Option ℕ) : Prop :=
  ∀ c < caches, ∀ s, OfClass L c s → (usedSlots objects c s).Nonempty

/-- The state of the heap between calls. Under `P` the bitmaps are exact. -/
def HeapOk (P : Prop) (kcaches S R root : ℕ) (h : KernelHeap) : Prop :=
  ∃ L, HeapParts P kcaches S R root L h ∧ SlabsHeld L h.objects

section Words

variable {kcaches S R p k w : ℕ} {m m' : Machine}

theorem pageAddr_mono {q : ℕ} (h : p ≤ q) (hq : q < ramPages) : pageAddr p ≤ pageAddr q := by
  rw [pageAddr_eq hq, pageAddr_eq (h.trans_lt hq)]
  exact Nat.add_le_add_right (Nat.mul_le_mul_right pageSize h) _

theorem inRam_pageAddr (hp : p < ramPages) : InRam (pageAddr p) := by
  rw [pageAddr_eq hp]
  constructor <;> simp only [virtBase, pageSize, ramPages] at * <;> omega

theorem HeapLayout.place (hl : HeapLayout kcaches S R) (hp : R ≤ p) (hlt : p < ramPages) :
    SlabPlace kcaches (pageAddr p) := by
  refine ⟨inRam_pageAddr hlt, ?_, ?_⟩
  · rw [pageAddr_eq hlt]
    simp only [virtBase, pageSize]
    omega
  · exact hl.before.trans (pageAddr_mono (hl.static.trans hp) hlt)

theorem word_pageAddr (hp : p < ramPages) (hk : k < 512) (m : Machine) :
    m.word (pageAddr p + 8 * k) = m.ram p k := by
  have hpage : vaToPa (pageAddr p + 8 * k) = p * pageSize + 8 * k := by
    rw [pageAddr_eq hp]
    simp only [vaToPa, virtBase, pageSize, ramPages] at *
    omega
  have hp' : (p * pageSize + 8 * k) / pageSize = p := by
    simp only [pageSize]
    omega
  have hk' : (p * pageSize + 8 * k) % pageSize / 8 = k := by
    simp only [pageSize]
    omega
  rw [Machine.word, hpage, hp', hk']

/-- The words of the array of the caches are in pages below `S`. -/
theorem HeapLayout.cache_page (hl : HeapLayout kcaches S R) (hw : InRam w)
    (hlow : kcaches ≤ w) (hhigh : w < kcaches + 224) : vaToPa w / pageSize < S := by
  have hbefore := hl.before
  have hS := hl.static
  have hR := hl.high
  have hlow' := hw.low
  rw [hw.vaToPa_eq]
  simp only [pageAddr, paToVa, virtBase, pageSize, ramPages] at *
  omega

theorem HeapWalks.of_words {root : ℕ} (ht : HeapWalks S R m.ram root)
    (hl : HeapLayout kcaches S R)
    (hword : ∀ w, InRam w → kcaches + 224 ≤ w → w < virtBase + pageSize * R →
      m'.word w = m.word w) : HeapWalks S R m'.ram root := by
  refine ht.congr fun p hp k hk => ?_
  have hk : k < 512 := hk
  have hR := hl.high
  have hlt : p < ramPages := by omega
  have hbefore := hl.before
  have hSp := pageAddr_mono hp.1 hlt
  have hram : InRam (pageAddr p + 8 * k) := by
    have hpage := inRam_pageAddr hlt
    rw [pageAddr_eq hlt] at *
    constructor <;> simp only [virtBase, pageSize, ramPages] at * <;> omega
  rw [← word_pageAddr hlt hk, ← word_pageAddr hlt hk]
  apply hword _ hram (by omega)
  rw [pageAddr_eq hlt]
  simp only [pageSize]
  omega

/-- Stores to the lists and to the header of a slab leave the walks as they are. -/
theorem OnlySlab.walks {root s : ℕ} {L : ℕ → List ℕ} (honly : OnlySlab kcaches L s m m')
    (hl : HeapLayout kcaches S R) (ht : HeapWalks S R m.ram root)
    (hslabs : ∀ j < cacheLists, ∀ x ∈ s :: L j, ∃ q, R ≤ q ∧ q < ramPages ∧ x = pageAddr q) :
    HeapWalks S R m'.ram root := by
  refine ht.of_words hl fun w hw hlow hhigh => ?_
  have hmanaged : ∀ j < cacheLists, ∀ x ∈ s :: L j, ∀ i, w ≠ x + 8 * i := by
    intro j hj x hx i
    obtain ⟨q, hq, hqlt, hxq⟩ := hslabs j hj x hx
    rw [hxq, pageAddr_eq hqlt]
    simp only [pageSize] at *
    omega
  refine honly.word w hw ?_ fun i _ _ => hmanaged 0 (by decide) s List.mem_cons_self i
  rintro a ⟨j, hj, ha⟩
  rcases List.mem_cons.mp ha with rfl | ha
  · simp only [cacheHead, cacheLists, caches] at *
    omega
  · have h0 := hmanaged j hj a (List.mem_cons_of_mem _ ha) 0
    have h1 := hmanaged j hj a (List.mem_cons_of_mem _ ha) 1
    exact ⟨h0, h1⟩

end Words

section Ranges

variable {R p n q k x : ℕ} {b : Buddy} {c d : Block}

theorem InBlock.apart (hp : InBlock c p n) (hq : InBlock d q k) (hb : BuddyOk R b)
    (hc : c ∈ (pageAllocatorOf b).live) (hd : d ∈ (pageAllocatorOf b).live) (hne : c ≠ d) :
    p + n ≤ q ∨ q + k ≤ p := by
  obtain ⟨hp1, hp2⟩ := hp
  obtain ⟨hq1, hq2⟩ := hq
  have hcr := hb.range hc
  have hdr := hb.range hd
  have hcpos := Nat.two_pow_pos c.order
  have hdpos := Nat.two_pow_pos d.order
  rw [pageAddr_eq (by omega)] at hp1 hp2 hq1 hq2
  simp only [pageSize] at *
  have hord := hb.ordered hc hd hne
  omega

theorem InBlock.page (hp : InBlock d p n) (hn : 0 < n) (hb : BuddyOk R b)
    (hd : d ∈ (pageAllocatorOf b).live) :
    ∃ x ∈ d.pages, alignDown p = pageAddr x := by
  obtain ⟨hp1, hp2⟩ := hp
  have hdr := hb.range hd
  have hdpos := Nat.two_pow_pos d.order
  rw [pageAddr_eq (by omega)] at hp1 hp2
  refine ⟨(p - virtBase) / pageSize, ?_, ?_⟩
  · rw [Block.mem_pages]
    simp only [pageSize] at *
    omega
  · rw [pageAddr_eq]
    · simp only [alignDown, pageSize, virtBase] at *
      omega
    · simp only [pageSize, ramPages] at *
      omega

theorem bytes_le (n : ℕ) : n ≤ 2 ^ requestLog n := by
  have hlt := Nat.lt_size_self (max n (2 ^ minSlabOrder) - 1)
  rw [← requestLog_eq] at hlt
  omega

theorem minSlabOrder_le (n : ℕ) : minSlabOrder ≤ requestLog n := by
  have hlt := Nat.lt_size_self (max n (2 ^ minSlabOrder) - 1)
  rw [← requestLog_eq] at hlt
  by_contra hcon
  have hpow := Nat.pow_le_pow_right (by decide : 0 < 2) (Nat.le_of_lt_succ (not_le.mp hcon))
  simp only [minSlabOrder] at *
  omega

end Ranges

/-! ## §4  What the invariant says -/

section Facts

variable {P : Prop} {kcaches S R root c i p n : ℕ} {L : ℕ → List ℕ} {h : KernelHeap}
  {d : Block}

theorem InBlock.mono {k : ℕ} (h : InBlock d p n) (hk : k ≤ n) : InBlock d p k :=
  ⟨h.1, (Nat.add_le_add_left hk p).trans h.2⟩

/-- A slot lies in the block of its slab, behind the header. -/
theorem slot_inBlock (horder : d.order = slabOrder c) (hi : i < slabTotal c) :
    InBlock d (slotAddr c (pageAddr d.base) i) (slotSize c) ∧
      pageAddr d.base + sizeofSlab ≤ slotAddr c (pageAddr d.base) i := by
  have hend := slot_end hi
  have hstart := sizeofSlab_le_start c
  simp only [InBlock, slotAddr, horder]
  omega

theorem slot_aligned (hc : c < caches) {s : ℕ} (hs : s % pageSize = 0) (i : ℕ) :
    slotSize c ∣ slotAddr c s i := by
  have hpage : slotSize c ∣ pageSize := by
    have hpow : slotLog c ≤ 12 := by
      simp only [slotLog, caches, minSlabOrder] at *
      omega
    exact Nat.pow_dvd_pow 2 hpow
  rw [slotAddr]
  have hbase : slotSize c ∣ s := hpage.trans (Nat.dvd_of_mod_eq_zero hs)
  exact Nat.dvd_add (Nat.dvd_add hbase (slotSize_dvd_start c)) (Nat.dvd_mul_left _ _)

/-- Where an object is: in a slot of a slab's block, or at the start of its own block. -/
theorem HeapParts.locate (hp : HeapParts P kcaches S R root L h)
    (hobj : h.objects p = some n) :
    ∃ d ∈ (pageAllocatorOf h.machine.buddy).live, InBlock d p (2 ^ requestLog n) ∧
      ((h.machine.buddy.frameMetadata d.base).state = pageSlab ∧ n ≤ 2048 ∧
          (∃ c < caches, requestLog n = slotLog c ∧ OfClass L c (pageAddr d.base) ∧
            ∃ i < slabTotal c, p = slotAddr c (pageAddr d.base) i) ∨
        (h.machine.buddy.frameMetadata d.base).state = pageBuddy ∧ 2048 < n ∧
          p = pageAddr d.base ∧ requestLog n = d.order + 12) := by
  have hlarge := requestLog_large n
  rcases hp.placed p n hobj with
    ⟨c, hc, hlog, s, hs, i, hi, hpi⟩ | ⟨d, hd, hstate, hlog, hpd⟩
  · obtain ⟨d, hd, horder, hsd⟩ := hp.block c hc s hs
    rw [hsd] at hs hpi
    obtain ⟨hlive, hstate⟩ := mem_slabBlocks.mp hd
    have hsmall : n ≤ 2048 := by
      simp only [maxSlabOrder, slotLog, caches, minSlabOrder] at *
      omega
    refine ⟨d, hlive, ?_, Or.inl ⟨hstate, hsmall, c, hc, hlog, hs, i, hi, hpi⟩⟩
    rw [hlog, hpi]
    exact (slot_inBlock horder hi).1
  · have hbig : 2048 < n := by
      rw [← hlarge, hlog, maxSlabOrder]
      omega
    refine ⟨d, hd, ⟨hpd.ge, ?_⟩, Or.inr ⟨hstate, hbig, hpd, hlog⟩⟩
    rw [hpd, hlog, Nat.pow_add, Nat.mul_comm]

theorem HeapParts.objectsApart (hp : HeapParts P kcaches S R root L h) : ObjectsApart h := by
  have hbuddy := hp.buddy
  constructor
  · intro p n hobj
    obtain ⟨d, hd, hin, hcase⟩ := hp.locate hobj
    obtain ⟨x, hx, hpage⟩ := hin.page (Nat.two_pow_pos _) hbuddy hd
    obtain ⟨howner, hhead⟩ := hbuddy.owner hd hx
    rw [← hpage] at howner hhead
    refine ⟨d, hd, hin.mono (bytes_le n), hhead, ?_, ?_⟩
    · rw [howner]
      rcases hcase with ⟨hstate, hsmall, -⟩ | ⟨hstate, hbig, -⟩
      · rw [hstate, if_pos hsmall]
      · rw [hstate, if_neg (by omega)]
    · intro hbig
      rcases hcase with ⟨-, hsmall, -⟩ | ⟨-, -, heq, -⟩
      · omega
      · exact heq
  · intro p n hobj hsmall
    obtain ⟨d, hd, -, ⟨-, -, c, hc, hlog, hs, i, hi, hpi⟩ | ⟨-, hbig, -⟩⟩ := hp.locate hobj
    · rw [alignedBytes_eq, hlog, hpi]
      exact slot_aligned hc (hs.place hc hp.slabs.places).aligned i
    · omega
  · intro p n q k hobj hobj' hne
    obtain ⟨d, hd, hin, hcase⟩ := hp.locate hobj
    obtain ⟨d', hd', hin', hcase'⟩ := hp.locate hobj'
    by_cases hdd : d = d'
    swap
    · exact (hin.mono (bytes_le n)).apart (hin'.mono (bytes_le k)) hbuddy hd hd' hdd
    subst hdd
    rcases hcase with ⟨hstate, -, c, hc, hlog, hs, i, hi, hpi⟩ | ⟨hstate, -, hpd, -⟩ <;>
      rcases hcase' with ⟨hstate', -, c', hc', hlog', hs', i', hi', hqi⟩ |
        ⟨hstate', -, hqd, -⟩
    · obtain rfl := hp.slabs.lists.class_unique hc hc' hs hs'
      have hn := bytes_le n
      have hk := bytes_le k
      rw [hlog, ← slotSize] at hn
      rw [hlog', ← slotSize] at hk
      rcases Nat.lt_trichotomy i i' with hlt | rfl | hgt
      · have hslots := slots_apart (c := c) hlt (pageAddr d.base)
        omega
      · exact absurd (hpi.trans hqi.symm) hne
      · have hslots := slots_apart (c := c) hgt (pageAddr d.base)
        omega
    · rw [hstate] at hstate'
      exact absurd hstate' (by decide)
    · rw [hstate] at hstate'
      exact absurd hstate' (by decide)
    · exact absurd (hpd.trans hqd.symm) hne
  · intro p n hobj d hd
    obtain ⟨hlive, hslab⟩ := mem_slabBlocks.mp hd
    obtain ⟨d', hd', hin, hcase⟩ := hp.locate hobj
    by_cases hdd : d' = d
    · subst hdd
      rcases hcase with ⟨-, -, c, hc, -, hs, i, hi, hpi⟩ | ⟨hstate, -⟩
      · obtain ⟨e, he, horder, hbase⟩ := hp.block c hc _ hs
        right
        rw [hpi, hbase]
        exact (slot_inBlock horder hi).2
      · rw [hslab] at hstate
        exact absurd hstate (by decide)
    · have hpos := Nat.two_pow_pos d.order
      have hhead : InBlock d (pageAddr d.base) sizeofSlab := by
        simp only [InBlock, sizeofSlab, pageSize]
        omega
      exact (hin.mono (bytes_le n)).apart hhead hbuddy hd' hlive hdd

/-- The live objects in the block of a slab are those in its slots. -/
theorem HeapParts.objectsIn_eq (hp : HeapParts P kcaches S R root L h) (hc : c < caches)
    (hd : d ∈ slabBlocks h.machine.buddy) (hs : OfClass L c (pageAddr d.base)) :
    objectsIn h d = ((usedSlots h.objects c (pageAddr d.base)).image
      (slotAddr c (pageAddr d.base)) : Finset ℕ) := by
  obtain ⟨hlive, hslab⟩ := mem_slabBlocks.mp hd
  ext p
  rw [Finset.mem_coe, Finset.mem_image]
  constructor
  · rintro ⟨hobj, hlow, hhigh⟩
    obtain ⟨n, hn⟩ := Option.isSome_iff_exists.mp hobj
    obtain ⟨d', hd', hin, hcase⟩ := hp.locate hn
    have hpos := Nat.two_pow_pos (requestLog n)
    have hin' : InBlock d p 1 := ⟨hlow, hhigh⟩
    obtain rfl : d' = d := by
      by_contra hne
      have hapart := hin.apart hin' hp.buddy hd' hlive hne
      omega
    rcases hcase with ⟨-, -, c', hc', -, hs', i, hi, hpi⟩ | ⟨hstate, -⟩
    · obtain rfl := hp.slabs.lists.class_unique hc hc' hs hs'
      refine ⟨i, mem_usedSlots.mpr ⟨hi, ?_⟩, hpi.symm⟩
      rw [← hpi]
      exact hobj
    · rw [hslab] at hstate
      exact absurd hstate (by decide)
  · rintro ⟨i, hi, rfl⟩
    obtain ⟨hi, hobj⟩ := mem_usedSlots.mp hi
    obtain ⟨e, he, horder, hbase⟩ := hp.block c hc _ hs
    have hpos := slotSize_pos c
    obtain ⟨hlive', -⟩ := mem_slabBlocks.mp he
    have hlt : d.base < ramPages ∧ e.base < ramPages := by
      have h1 := hp.buddy.range hlive
      have h2 := hp.buddy.range hlive'
      have h3 := Nat.two_pow_pos d.order
      have h4 := Nat.two_pow_pos e.order
      omega
    obtain rfl := hp.buddy.eq_of_base hlive hlive' (pageAddr_inj hlt.1 hlt.2 hbase)
    obtain ⟨hlow, hhigh⟩ := (slot_inBlock horder hi).1
    exact ⟨hobj, hlow, by omega⟩

/-- Where the bitmaps are exact, every slab stands in the lists and counts its objects. -/
theorem HeapParts.slabsBooked (hp : HeapParts True kcaches S R root L h)
    (hheld : SlabsHeld L h.objects) : SlabsBooked kcaches h := by
  refine ⟨L, hp.slabs.lists, fun s => ⟨?_, ?_⟩, fun d hd => ?_⟩
  · rintro ⟨j, hj, hs⟩
    have hc : j / 2 < caches := by
      simp only [cacheLists] at hj
      omega
    obtain ⟨d, hd, -, hsd⟩ := hp.block _ hc s (.of_list hs)
    exact ⟨d, hd, hsd⟩
  · rintro ⟨d, hd, hsd⟩
    obtain ⟨c, hc, hof⟩ := hp.listed d hd
    obtain ⟨j, hj, -, hmem⟩ := hof.list hc
    exact ⟨j, hj, hsd ▸ hmem⟩
  · obtain ⟨c, hc, hof⟩ := hp.listed d hd
    have hslab := hp.slabs.slab c hc _ hof
    have hsorted := hp.sorted c hc _ hof
    have hle : (usedSlots h.objects c (pageAddr d.base)).card ≤ slabTotal c :=
      card_usedSlots_le
    have hpos := Finset.card_pos.mpr (hheld c hc _ hof)
    obtain ⟨hlive, hstate⟩ := mem_slabBlocks.mp hd
    refine ⟨c, hc, ⟨hslab.order, ?_, ?_, ?_, ?_, fun x hx => ?_, ?_, ?_⟩⟩
    · rw [hslab.inuse]
      exact hpos
    · rw [hslab.inuse, hslab.total]
      exact hle
    · rw [hslab.inuse, hslab.total]
      exact hsorted
    · rw [hslab.inuse, hslab.total]
      constructor
      · intro hmem
        by_contra hne
        have hboth := hp.slabs.lists.unique (by simp only [cacheLists]; omega)
          (by simp only [cacheLists]; omega) hmem (hsorted.mpr (by omega))
        omega
      · intro heq
        apply hof.resolve_right
        rw [hsorted]
        omega
    · rw [(hp.buddy.owner hlive hx).1, hstate]
    · rw [hslab.inuse, hslab.total]
      congr 1
      ext i
      rw [Finset.mem_filter, Finset.mem_range]
      constructor
      · rintro ⟨hi, hbit⟩
        exact hslab.exact trivial i hi hbit
      · intro hi
        exact ⟨(mem_usedSlots.mp hi).1, hslab.marked i hi⟩
    · rw [hp.objectsIn_eq hc hd hof, Set.ncard_coe_finset, Finset.card_image_of_injective,
        hslab.inuse]
      intro i j hij
      exact slotAddr_inj hij

end Facts

/-! ## §5  Steps on RAM -/

section Remap

variable {P : Prop} {kcaches S R root p n : ℕ} {L L' : ℕ → List ℕ} {m m' : Machine}
  {b b' : Buddy} {objects objects' : ℕ → Option ℕ}

theorem Placed.mono (h : Placed L b p n)
    (hclass : ∀ c < caches, ∀ s, OfClass L c s → requestLog n = slotLog c →
      (∃ i < slabTotal c, p = slotAddr c s i) → OfClass L' c s)
    (hlive : ∀ d ∈ (pageAllocatorOf b).live, p = pageAddr d.base →
      (b.frameMetadata d.base).state = pageBuddy →
      d ∈ (pageAllocatorOf b').live ∧ (b'.frameMetadata d.base).state = pageBuddy) :
    Placed L' b' p n := by
  rcases h with ⟨c, hc, hlog, s, hs, i, hi, hpi⟩ | ⟨d, hd, hstate, hlog, hpd⟩
  · exact Or.inl ⟨c, hc, hlog, s, hclass c hc s hs hlog ⟨i, hi, hpi⟩, i, hi, hpi⟩
  · obtain ⟨hd', hstate'⟩ := hlive d hd hpd hstate
    exact Or.inr ⟨d, hd', hstate', hlog, hpd⟩

/-- Other contents of the words that are not the kernel's leave the slabs as they are. -/
theorem SlabsOk.remap (hl : HeapLayout kcaches S R) (h : SlabsOk P kcaches L m objects)
    (hb : BuddyOk R b)
    (hblock : ∀ c < caches, ∀ s, OfClass L c s → ∃ d ∈ slabBlocks b, s = pageAddr d.base)
    (hram : ∀ p k, KernelWord R b p k → m'.ram p k = m.ram p k) :
    SlabsOk P kcaches L m' objects := by
  refine h.congr (fun w hw hlow hhigh => ?_) (fun c hc s hs k hk => ?_) fun _ _ _ _ _ _ => rfl
  · have hpage := hl.cache_page hw hlow hhigh
    have hS := hl.static
    exact hram _ _ (Or.inl (by omega))
  · obtain ⟨d, hd, hsd⟩ := hblock c hc s hs
    have hrange := hb.range (mem_slabBlocks.mp hd).1
    have hpos := Nat.two_pow_pos d.order
    rw [hsd, word_pageAddr (by omega) (by omega), word_pageAddr (by omega) (by omega)]
    exact hram _ _ (Or.inr ⟨d, hd, rfl, hk⟩)

theorem HeapWalks.remap (ht : HeapWalks S R m.ram root)
    (hram : ∀ p k, KernelWord R b p k → m'.ram p k = m.ram p k) :
    HeapWalks S R m'.ram root :=
  ht.congr fun p hp k _ => hram p k (Or.inl hp.2)

theorem HeapOk.contents {h : KernelHeap} (hl : HeapLayout kcaches S R)
    (hk : HeapOk P kcaches S R root h) {ram : ℕ → ℕ → Word}
    (hram : ∀ p k, KernelWord R h.machine.buddy p k → ram p k = h.machine.ram p k) :
    HeapOk P kcaches S R root ⟨{ h.machine with ram := ram }, h.objects⟩ := by
  obtain ⟨L, hp, hheld⟩ := hk
  refine ⟨L, ⟨hp.buddy, ?_, ?_, hp.sorted, hp.block, hp.listed, hp.placed⟩, hheld⟩
  · exact HeapWalks.remap (m := h.machine) hp.walks hram
  · refine SlabsOk.remap (m := h.machine) hl hp.slabs hp.buddy (fun c hc s hs => ?_) hram
    obtain ⟨d, hd, -, hsd⟩ := hp.block c hc s hs
    exact ⟨d, hd, hsd⟩

end Remap

section Small

variable {P : Prop} {kcaches S R root c n s : ℕ} {L : ℕ → List ℕ} {m : Machine}
  {objects : ℕ → Option ℕ} {rest : List ℕ}

theorem HeapParts.managed {h : KernelHeap} (hp : HeapParts P kcaches S R root L h) :
    ∀ j < cacheLists, ∀ x ∈ L j, ∃ q, R ≤ q ∧ q < ramPages ∧ x = pageAddr q := by
  intro j hj x hx
  have hc : j / 2 < caches := by
    simp only [cacheLists] at hj
    omega
  obtain ⟨d, hd, -, hxd⟩ := hp.block _ hc x (.of_list hx)
  have hrange := hp.buddy.range (mem_slabBlocks.mp hd).1
  have hpos := Nat.two_pow_pos d.order
  exact ⟨d.base, hrange.1, by omega, hxd⟩

/-- An object of the first partial slab of a class. Only a slab with stale bits in its
bitmap has none. -/
theorem HeapParts.allocObject (hl : HeapLayout kcaches S R)
    (hp : HeapParts P kcaches S R root L ⟨m, objects⟩) (hc : c < caches)
    (hfirst : L (2 * c + 1) = s :: rest)
    (hheld : ∀ c' < caches, ∀ s', OfClass L c' s' → s' ≠ s →
      (usedSlots objects c' s').Nonempty) (hlog : requestLog n = slotLog c) :
    (∃ k m', Rpos.allocObject kcaches c m = some (.returns (slotAddr c s k) m') ∧
      slotAddr c s k ≠ 0 ∧ objects (slotAddr c s k) = none ∧ SlotTaken m m' s k ∧
      HeapOk P kcaches S R root ⟨m', Function.update objects (slotAddr c s k) (some n)⟩) ∨
    (∀ j < slabTotal c, Slab.bit m s j = true) ∧ ¬ P ∧
      Rpos.allocObject kcaches c m = some (.returns 0 m) := by
  have hof : OfClass L c s := Or.inr (hfirst ▸ List.mem_cons_self)
  refine (hp.slabs.allocObject hp.sorted hc hfirst n).imp_left ?_
  rintro ⟨k, hk, hnew, m', L', hrun, hslabs', hsorted', hsame, honly, htaken⟩
  have hplace := hof.place hc hp.slabs.places
  refine ⟨k, m', hrun, ?_, ?_, htaken, L', ⟨?_, ?_, hslabs', hsorted', ?_, ?_, ?_⟩, ?_⟩
  · have hlow := hplace.inRam.low
    simp only [slotAddr, virtBase] at *
    omega
  · by_contra hsome
    exact hnew (mem_usedSlots.mpr ⟨hk, Option.isSome_iff_ne_none.mpr hsome⟩)
  · show BuddyOk R m'.buddy
    rw [honly.buddy]
    exact hp.buddy
  · refine honly.walks hl hp.walks fun j hj x hx => ?_
    rcases List.mem_cons.mp hx with rfl | hx
    · obtain ⟨j', hj', -, hmem⟩ := hof.list hc
      exact hp.managed j' hj' x hmem
    · exact hp.managed j hj x hx
  · intro c' hc' s' hs'
    show ∃ d ∈ slabBlocks m'.buddy, _
    rw [honly.buddy]
    exact hp.block c' hc' s' ((hsame c' hc' s').mp hs')
  · intro d hd
    have hd' : d ∈ slabBlocks m.buddy := honly.buddy ▸ hd
    obtain ⟨c', hc', hs'⟩ := hp.listed d hd'
    exact ⟨c', hc', (hsame c' hc' _).mpr hs'⟩
  · intro p k' hobj
    show Placed L' m'.buddy p k'
    rw [honly.buddy]
    have hobj : Function.update objects (slotAddr c s k) (some n) p = some k' := hobj
    by_cases hpk : p = slotAddr c s k
    · rw [hpk, Function.update_self, Option.some.injEq] at hobj
      rw [← hobj]
      exact Or.inl ⟨c, hc, hlog, s, (hsame c hc s).mpr hof, k, hk, hpk⟩
    · rw [Function.update_of_ne hpk] at hobj
      exact (hp.placed p k' hobj).mono (fun c' hc' s' hs' _ _ => (hsame c' hc' s').mpr hs')
        fun d hd _ hstate => ⟨hd, hstate⟩
  · intro c' hc' s' hs'
    have hs'' := (hsame c' hc' s').mp hs'
    by_cases hss : s' = s
    · subst hss
      obtain rfl := hp.slabs.lists.class_unique hc hc' hof hs''
      show (usedSlots (Function.update objects (slotAddr c s' k) (some n)) c s').Nonempty
      rw [usedSlots_insert hk]
      exact Finset.insert_nonempty _ _
    · show (usedSlots (Function.update objects (slotAddr c s k) (some n)) c' s').Nonempty
      rw [hp.slabs.usedSlots_other hc hof hk hc' hs'' hss]
      exact hheld c' hc' s' hs'' hss

end Small

end Rpos
