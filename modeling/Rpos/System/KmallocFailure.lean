import Rpos.Memory.BuddySizes
import Rpos.Memory.Kmalloc
import Rpos.System.OutOfMemory

/-!
# `kmalloc` without memory

What becomes of the NULL that `buddy_alloc` returns to `kmalloc`. `_slab_alloc` gives
it an owner before it looks at it, in the frame record 2^35. A large request maps it,
at the virtual addresses from 0 on.
-/

namespace Rpos

open Base

/-! ## §1  Failing without harm -/

/-- The frame records keep their owners, the caches their lists, and no entry is
stored in a page table. -/
structure Unharmed (kcaches : ℕ) (m m' : Machine) : Prop where
  owners : ∀ q, (m'.buddy.frameMetadata q).state = (m.buddy.frameMetadata q).state
  lists : ∀ j < 4 * caches, m'.readWord (kcaches + 8 * j) = m.readWord (kcaches + 8 * j)
  entries : m'.stores = m.stores

/-- The call returns NULL or panics, and has done no harm. It has also accessed no
frame record outside the array. -/
def FailsCleanly (kcaches : ℕ) (m : Machine) : Option HeapEnd → Prop
  | some (.returns ptr m') => ptr = 0 ∧ Unharmed kcaches m m'
  | some (.panics m') => Unharmed kcaches m m'
  | none => False

/-- The base-two logarithm of the size that a request is served with. -/
def requestLog (bytes : ℕ) : ℕ := Nat.log2 (alignedBytes bytes)

/-- What `kmalloc` requests of the buddy allocator, for a large request and for a new
slab. -/
def buddyRequest (bytes : ℕ) : ℕ :=
  if maxSlabOrder < requestLog bytes then alignedBytes bytes
  else pageSize * (slabBlockOrder (requestLog bytes) + 1)

/-- `kmalloc` needs a block, since the request is large or the cache has no partial
slab, and no free block is large enough. -/
structure NoBlock (kcaches bytes : ℕ) (m : Machine) : Prop where
  blocks : ∀ b ∈ freeBlocks m.buddy (blocksOf m.buddy),
    2 ^ b.order < pagesFor (buddyRequest bytes)
  refill : requestLog bytes ≤ maxSlabOrder →
    m.readPtr (partialSlabs kcaches (requestLog bytes - minSlabOrder)) =
      some (partialSlabs kcaches (requestLog bytes - minSlabOrder))

/-! ## §2  Calls of `map` that store nothing -/

def ValidEntry (m : Machine) (table idx : ℕ) : Prop :=
  table < ramPages ∧ Pte.valid.get (m.ram table idx) = 1

def nextOf (m : Machine) (table idx : ℕ) : ℕ := Pte.address.get (m.ram table idx)

/-- All entries on the way to the L2 entry of the address are valid, and that too. -/
def BlockPresent (m : Machine) (root va : ℕ) : Prop :=
  ValidEntry m root (idx0 va) ∧ ValidEntry m (nextOf m root (idx0 va)) (idx1 va) ∧
    ValidEntry m (nextOf m (nextOf m root (idx0 va)) (idx1 va)) (idx2 va)

def PagePresent (m : Machine) (root va : ℕ) : Prop :=
  BlockPresent m root va ∧
    ValidEntry m (nextOf m (nextOf m (nextOf m root (idx0 va)) (idx1 va)) (idx2 va)) (idx3 va)

/-- The entries that a call of `map` for `2 ^ order` pages at the address 0 is for. -/
def RangePresent (m : Machine) (root order : ℕ) : Prop :=
  if 9 ≤ order then ∀ j < 2 ^ (order - 9), BlockPresent m root (j * blockSize)
  else ∀ j < 2 ^ order, PagePresent m root (j * pageSize)

section Stores

variable {allocPt : Machine → Option (ℕ × Machine)} {m m' : Machine}
  {t idx l root va pa flags : ℕ}

def StoresGrow (allocPt : Machine → Option (ℕ × Machine)) : Prop :=
  ∀ k, Keeps allocPt fun m => k ≤ m.stores.length

theorem storesGrow_buddyAllocPt (l0Table : ℕ) : StoresGrow (buddyAllocPt l0Table) := by
  intro k
  apply keeps_buddyAllocPt
  · intro m page m' hm halloc
    obtain ⟨r, -, heq⟩ := Option.map_eq_some_iff.mp halloc
    rw [Prod.mk.injEq] at heq
    rw [← heq.2]
    exact hm
  · exact fun _ _ _ _ hm => hm.trans (Nat.le_succ _)
  · exact fun _ _ hm => hm.trans (Nat.le_succ _)

/-- A step of the walk that stores nothing follows a valid entry. -/
theorem nextTable_present (hgrow : StoresGrow allocPt)
    (hrun : nextTable allocPt t idx m = some (l, m'))
    (hstores : m'.stores.length ≤ m.stores.length) :
    ValidEntry m t idx ∧ l = nextOf m t idx ∧ m' = m := by
  rcases nextTable_cases hrun with ⟨hv, hl, hm⟩ | ⟨-, page, m1, w, halloc, rfl⟩
  · exact ⟨⟨nextTable_lt hrun, hv⟩, hl, hm⟩
  · have hle := (hgrow m.stores.length).alloc m page m1 le_rfl halloc
    exact absurd (hle.trans_lt (Nat.lt_succ_self _)) (Nat.not_lt.mpr hstores)

theorem nextTable_of_present (allocPt : Machine → Option (ℕ × Machine))
    (h : ValidEntry m t idx) : nextTable allocPt t idx m = some (nextOf m t idx, m) :=
  nextTable_valid allocPt h.1 h.2

theorem mapPage_of_present (h : PagePresent m root va) (pa flags : ℕ) :
    mapPage allocPt va pa flags root m = some m := by
  obtain ⟨⟨h1, h2, h3⟩, hl3, hv⟩ := h
  rw [mapPage_run (nextTable_of_present allocPt h1) (nextTable_of_present allocPt h2)
    (nextTable_of_present allocPt h3) hl3, if_pos hv]

/-- A round of `map_pages` that stores nothing finds the entry of its page. -/
theorem mapPage_present (hgrow : StoresGrow allocPt)
    (hrun : mapPage allocPt va pa flags root m = some m')
    (hstores : m'.stores.length ≤ m.stores.length) : PagePresent m root va := by
  obtain ⟨l1, m1, l2, m2, l3, m3, hrun1, hrun2, hrun3, hl3⟩ := mapPage_walk hrun
  have hgrow0 := (hgrow m.stores.length).nextTable le_rfl hrun1
  have hgrow1 := (hgrow m1.stores.length).nextTable le_rfl hrun2
  have hgrow2 := (hgrow m2.stores.length).nextTable le_rfl hrun3
  rw [mapPage_run hrun1 hrun2 hrun3 hl3, Option.some.injEq] at hrun
  have hlast : m3.stores.length ≤ m.stores.length ∧
      Pte.valid.get (m3.ram l3 (idx3 va)) = 1 := by
    split_ifs at hrun with hv
    · exact ⟨hrun ▸ hstores, hv⟩
    · rw [← hrun, Machine.write_stores, List.length_cons] at hstores
      omega
  obtain ⟨h1, rfl, rfl⟩ := nextTable_present hgrow hrun1 (by omega)
  obtain ⟨h2, rfl, rfl⟩ := nextTable_present hgrow hrun2 (by omega)
  obtain ⟨h3, rfl, rfl⟩ := nextTable_present hgrow hrun3 (by omega)
  exact ⟨⟨h1, h2, h3⟩, hl3, hlast.2⟩

theorem mapBlock_of_present (h : BlockPresent m root va) (pa flags : ℕ) :
    mapBlock allocPt va pa flags root m = some m := by
  obtain ⟨h1, h2, hl2, hv⟩ := h
  rw [mapBlock_run (nextTable_of_present allocPt h1) (nextTable_of_present allocPt h2) hl2,
    if_pos hv]

theorem mapBlock_present (hgrow : StoresGrow allocPt)
    (hrun : mapBlock allocPt va pa flags root m = some m')
    (hstores : m'.stores.length ≤ m.stores.length) : BlockPresent m root va := by
  obtain ⟨l1, m1, l2, m2, hrun1, hrun2, hl2⟩ := mapBlock_walk hrun
  have hgrow0 := (hgrow m.stores.length).nextTable le_rfl hrun1
  have hgrow1 := (hgrow m1.stores.length).nextTable le_rfl hrun2
  rw [mapBlock_run hrun1 hrun2 hl2, Option.some.injEq] at hrun
  have hlast : m2.stores.length ≤ m.stores.length ∧
      Pte.valid.get (m2.ram l2 (idx2 va)) = 1 := by
    split_ifs at hrun with hv
    · exact ⟨hrun ▸ hstores, hv⟩
    · rw [← hrun, Machine.write_stores, List.length_cons] at hstores
      omega
  obtain ⟨h1, rfl, rfl⟩ := nextTable_present hgrow hrun1 (by omega)
  obtain ⟨h2, rfl, rfl⟩ := nextTable_present hgrow hrun2 (by omega)
  exact ⟨h1, h2, hl2, hlast.2⟩

/-- A loop over consecutive addresses whose rounds store nothing exactly where `P`
holds. -/
structure Rounds (size : ℕ) (step : ℕ → ℕ → Machine → Option Machine)
    (loop : ℕ → ℕ → ℕ → Machine → Option Machine) (P : Machine → ℕ → Prop) : Prop where
  zero : ∀ va pa m, loop 0 va pa m = some m
  succ : ∀ n va pa m, loop (n + 1) va pa m =
    (step va pa m).bind (loop n ((va + size) % 2 ^ 64) ((pa + size) % 2 ^ 64))
  of_present : ∀ va pa m, P m va → step va pa m = some m
  present : ∀ va pa m m', step va pa m = some m' →
    m'.stores.length ≤ m.stores.length → P m va
  grow : ∀ k n va pa m m', k ≤ m.stores.length → loop n va pa m = some m' →
    k ≤ m'.stores.length

theorem rounds_pages (hgrow : StoresGrow allocPt) (root flags : ℕ) :
    Rounds pageSize (fun va pa m => mapPage allocPt va pa flags root m)
      (mapPages allocPt flags root) fun m va => PagePresent m root va where
  zero _ _ _ := rfl
  succ _ _ _ _ := rfl
  of_present _ pa _ h := mapPage_of_present h pa flags
  present _ _ _ _ hrun hle := mapPage_present hgrow hrun hle
  grow k n va pa m _ hk hrun := (hgrow k).mapPages n va pa m hk hrun

theorem rounds_blocks (hgrow : StoresGrow allocPt) (root flags : ℕ) :
    Rounds blockSize (fun va pa m => mapBlock allocPt va pa flags root m)
      (mapBlocks allocPt flags root) fun m va => BlockPresent m root va where
  zero _ _ _ := rfl
  succ _ _ _ _ := rfl
  of_present _ pa _ h := mapBlock_of_present h pa flags
  present _ _ _ _ hrun hle := mapBlock_present hgrow hrun hle
  grow k n va pa m _ hk hrun := (hgrow k).mapBlocks n va pa m hk hrun

variable {size : ℕ} {step : ℕ → ℕ → Machine → Option Machine}
  {loop : ℕ → ℕ → ℕ → Machine → Option Machine} {P : Machine → ℕ → Prop}

/-- Such a loop stores nothing exactly if `P` holds at all its addresses. -/
theorem Rounds.present_iff (h : Rounds size step loop P) (m : Machine) (n : ℕ) :
    ∀ va < 2 ^ 64, ∀ pa, ((∀ j < n, P m ((va + j * size) % 2 ^ 64)) →
        loop n va pa m = some m) ∧
      ∀ m', loop n va pa m = some m' → m'.stores.length ≤ m.stores.length →
        ∀ j < n, P m ((va + j * size) % 2 ^ 64) := by
  induction n with
  | zero =>
      intro va _ pa
      exact ⟨fun _ => h.zero va pa m, fun _ _ _ j hj => absurd hj (Nat.not_lt_zero j)⟩
  | succ n ih =>
      intro va hva pa
      have hfirst : (va + 0 * size) % 2 ^ 64 = va := by
        rw [Nat.zero_mul, Nat.add_zero, Nat.mod_eq_of_lt hva]
      have hnext : ∀ j, ((va + size) % 2 ^ 64 + j * size) % 2 ^ 64 =
          (va + (j + 1) * size) % 2 ^ 64 := by
        intro j
        rw [Nat.mod_add_mod, Nat.succ_mul]
        congr 1
        omega
      obtain ⟨hall, hback⟩ := ih ((va + size) % 2 ^ 64) (Nat.mod_lt _ (Nat.two_pow_pos 64))
        ((pa + size) % 2 ^ 64)
      rw [h.succ]
      constructor
      · intro hP
        rw [h.of_present va pa m (hfirst ▸ hP 0 (Nat.succ_pos n)), Option.bind_some]
        apply hall
        intro j hj
        rw [hnext]
        exact hP (j + 1) (Nat.succ_lt_succ hj)
      · intro m' hrun hstores
        obtain ⟨m1, hrun1, hrest⟩ := Option.bind_eq_some_iff.mp hrun
        have hle := (h.grow _ n _ _ m1 m' le_rfl hrest).trans hstores
        have hP := h.present va pa m m1 hrun1 hle
        rw [h.of_present va pa m hP, Option.some.injEq] at hrun1
        subst hrun1
        rintro (_ | j) hj
        · rw [hfirst]
          exact hP
        · rw [← hnext]
          exact hback m' hrest hstores j (Nat.lt_of_succ_lt_succ hj)

/-- The same from the address 0, for a loop that does not wrap. -/
theorem Rounds.zero_present_iff (h : Rounds size step loop P) (m : Machine) {n : ℕ}
    (hn : n * size ≤ 2 ^ 64) (hsize : 0 < size) (pa : ℕ) :
    ((∀ j < n, P m (j * size)) → loop n 0 pa m = some m) ∧
      ∀ m', loop n 0 pa m = some m' → m'.stores.length ≤ m.stores.length →
        ∀ j < n, P m (j * size) := by
  have haddr : ∀ j < n, (0 + j * size) % 2 ^ 64 = j * size := by
    intro j hj
    rw [Nat.zero_add, Nat.mod_eq_of_lt]
    exact (Nat.mul_lt_mul_of_pos_right hj hsize).trans_le hn
  obtain ⟨hall, hback⟩ := h.present_iff m n 0 (Nat.two_pow_pos 64) pa
  constructor
  · intro hP
    apply hall
    intro j hj
    rw [haddr j hj]
    exact hP j hj
  · intro m' hrun hle j hj
    rw [← haddr j hj]
    exact hback m' hrun hle j hj

/-- A call of `map` at the address 0 stores nothing exactly when all its entries are
there. -/
theorem map_null_present (hgrow : StoresGrow allocPt) {order : ℕ} (horder : order ≤ 18)
    (pa : ℕ) :
    (RangePresent m root order → map allocPt 0 pa order flags root m = some m) ∧
      ∀ m', map allocPt 0 pa order flags root m = some m' →
        m'.stores.length ≤ m.stores.length → RangePresent m root order := by
  have hsize : ∀ i j, i + j ≤ 64 → 2 ^ i * 2 ^ j ≤ 2 ^ 64 := by
    intro i j hij
    rw [← pow_add]
    exact Nat.pow_le_pow_right (by decide) hij
  by_cases hblocks : 9 ≤ order
  · simp only [Rpos.map, RangePresent, if_pos hblocks,
      if_pos (show 9 ≤ order ∧ idx3 0 = 0 from ⟨hblocks, by decide⟩)]
    exact (rounds_blocks hgrow root flags).zero_present_iff m (hsize _ 21 (by omega))
      (by decide) pa
  · simp only [Rpos.map, RangePresent, if_neg hblocks,
      if_neg (show ¬ (9 ≤ order ∧ idx3 0 = 0) from fun h => hblocks h.1)]
    exact (rounds_pages hgrow root flags).zero_present_iff m (hsize _ 12 (by omega))
      (by decide) pa

end Stores

/-! ## §3  Which requests fail cleanly -/

theorem requestLog_eq (bytes : ℕ) :
    requestLog bytes = Nat.size (max bytes (2 ^ minSlabOrder) - 1) :=
  Nat.log2_two_pow

theorem alignedBytes_eq (bytes : ℕ) : alignedBytes bytes = 2 ^ requestLog bytes := by
  rw [requestLog_eq, alignedBytes]

theorem requestLog_large (bytes : ℕ) : maxSlabOrder < requestLog bytes ↔ 2048 < bytes := by
  rw [requestLog_eq, Nat.lt_size, maxSlabOrder, minSlabOrder]
  omega

theorem requestLog_le {bytes : ℕ} (h : bytes ≤ 2 ^ 30) : requestLog bytes ≤ 30 := by
  rw [requestLog_eq, Nat.size_le, minSlabOrder]
  omega

section Failure

variable {R kcaches l0Table bytes : ℕ} {m : Machine}

theorem buddyRequest_pages (h : bytes ≤ 2 ^ 30) : pagesFor (buddyRequest bytes) ≤ 2 ^ 31 := by
  rw [pagesFor_eq, buddyRequest]
  split_ifs
  · have hle := Nat.pow_le_pow_right (by decide : 0 < 2) (requestLog_le h)
    rw [alignedBytes_eq]
    apply (Nat.mod_le _ _).trans
    omega
  · have hlog := requestLog_le h
    simp only [slabBlockOrder, pageSize]
    split_ifs <;> omega

theorem NoBlock.alloc (hno : NoBlock kcaches bytes m) (hR : 2048 ≤ R)
    (hb : BuddyOk R m.buddy) (hbytes : bytes ≤ 2 ^ 30) :
    m.buddyAlloc (buddyRequest bytes) = some (0, m) := by
  obtain ⟨L, hr⟩ := hb
  have hout := buddyAlloc_size hr hR (buddyRequest bytes)
  rw [Machine.buddyAlloc]
  generalize Rpos.buddyAlloc (buddyRequest bytes) m.buddy = r at hout
  cases hout with
  | stuck hbig => exact absurd hbig (Nat.not_lt.mpr (buddyRequest_pages hbytes))
  | refused _ _ => rfl
  | granted f _ _ _ _ _ hf hle _ _ _ => exact absurd (hno.blocks f hf) (Nat.not_lt.mpr hle)

/-- `_slab_alloc` gives the NULL an owner, in a frame record outside the array. -/
theorem slabAlloc_null {order : ℕ} (halloc : m.buddyAlloc (pageSize * (order + 1)) = some (0, m)) :
    slabAlloc l0Table order m = none := by
  have howner : setPageOwner 0 pageSlab m.buddy = none := by
    rw [setPageOwner, show frameOf 0 = none by decide]
    rfl
  simp only [slabAlloc, halloc, Option.bind_eq_bind, Option.bind_some, howner,
    Option.bind_none]

theorem kmalloc_slab_null (hno : NoBlock kcaches bytes m) (hR : 2048 ≤ R)
    (hb : BuddyOk R m.buddy) (hbytes : bytes ≤ 2 ^ 30) (hsmall : ¬ 2048 < bytes) :
    kmalloc kcaches l0Table bytes m = none := by
  have hlog := mt (requestLog_large bytes).mp hsmall
  have halloc := hno.alloc hR hb hbytes
  rw [buddyRequest, if_neg hlog] at halloc
  rw [kmalloc, if_neg (Nat.not_lt.mpr hbytes)]
  show (if maxSlabOrder < requestLog bytes then _ else _) = _
  rw [if_neg hlog]
  have hrefill := hno.refill (Nat.le_of_not_lt hlog)
  unfold requestLog at hrefill
  show (m.readPtr (partialSlabs kcaches (Nat.log2 (alignedBytes bytes) - minSlabOrder))).bind _ = _
  rw [hrefill, Option.bind_some, if_pos rfl]
  show (slabAlloc l0Table (slabBlockOrder (requestLog bytes)) m).bind _ = _
  rw [slabAlloc_null halloc]
  rfl

theorem kmalloc_large_null (hno : NoBlock kcaches bytes m) (hR : 2048 ≤ R)
    (hb : BuddyOk R m.buddy) (hbytes : bytes ≤ 2 ^ 30) (hlarge : 2048 < bytes) :
    kmalloc kcaches l0Table bytes m =
      (map (buddyAllocPt l0Table) 0 (vaToPa 0) (requestLog bytes - 12) mapKernel l0Table m).map
        fun m => .returns 0 m := by
  have hlog := (requestLog_large bytes).mpr hlarge
  have halloc := hno.alloc hR hb hbytes
  rw [buddyRequest, if_pos hlog] at halloc
  rw [kmalloc, if_neg (Nat.not_lt.mpr hbytes)]
  show (if maxSlabOrder < requestLog bytes then _ else _) = _
  rw [if_pos hlog]
  show (m.buddyAlloc (alignedBytes bytes)).bind _ = _
  rw [halloc, Option.map_eq_bind]
  rfl

/-- Where the allocator has no block, `kmalloc` fails cleanly exactly if the request is
for more than 1 GiB, or large and the addresses from 0 on are all mapped. -/
theorem kmalloc_fails_cleanly_iff (hR : 2048 ≤ R) (hb : BuddyOk R m.buddy)
    (hno : bytes ≤ 2 ^ 30 → NoBlock kcaches bytes m) :
    FailsCleanly kcaches m (kmalloc kcaches l0Table bytes m) ↔
      2 ^ 30 < bytes ∨ 2048 < bytes ∧ RangePresent m l0Table (requestLog bytes - 12) := by
  rcases Nat.lt_or_ge (2 ^ 30) bytes with hbig | hbytes
  · have hrun : kmalloc kcaches l0Table bytes m = some (.returns 0 m) := if_pos hbig
    rw [hrun]
    exact iff_of_true ⟨rfl, fun _ => rfl, fun _ _ => rfl, rfl⟩ (Or.inl hbig)
  by_cases hlarge : 2048 < bytes
  · rw [kmalloc_large_null (hno hbytes) hR hb hbytes hlarge, or_iff_right (Nat.not_lt.mpr hbytes),
      and_iff_right hlarge]
    have horder : requestLog bytes - 12 ≤ 18 := by
      have hlog := requestLog_le hbytes
      omega
    have hpresent := @map_null_present _ m l0Table mapKernel
      (storesGrow_buddyAllocPt l0Table) _ horder (vaToPa 0)
    obtain ⟨hall, hback⟩ := hpresent
    constructor
    · cases hrun : map (buddyAllocPt l0Table) 0 (vaToPa 0) (requestLog bytes - 12) mapKernel
          l0Table m with
      | none => exact False.elim
      | some m' => exact fun hclean => hback m' hrun (hclean.2.entries ▸ le_rfl)
    · intro hpresent
      rw [hall hpresent]
      exact ⟨rfl, fun _ => rfl, fun _ _ => rfl, rfl⟩
  · rw [kmalloc_slab_null (hno hbytes) hR hb hbytes hlarge]
    apply iff_of_false id
    rintro (hbig | ⟨hlarge', -⟩)
    · exact absurd hbytes (Nat.not_le.mpr hbig)
    · exact hlarge hlarge'

end Failure

/-! The machine with no free page, after `kheap_init`. -/

theorem cachesOk_virtBase : CachesOk virtBase :=
  ⟨⟨by decide, by decide, by decide⟩, ⟨by decide, by decide, by decide⟩⟩

theorem fullMachine_noBlock (bytes : ℕ) :
    ∃ m, kheapInit virtBase fullMachine = some m ∧ BuddyOk ramPages m.buddy ∧
      NoBlock virtBase bytes m := by
  obtain ⟨m, l, hrun, hl, hself, hkeep⟩ := kheapInit_spec cachesOk_virtBase fullMachine
  have hok : BuddyOk ramPages m.buddy := by
    rw [hkeep.buddy]
    exact fullMachine_ok
  refine ⟨m, hrun, hok, fun b hfree => ?_, fun hle => ?_⟩
  · obtain ⟨L, hr⟩ := hok
    have hrange := hr.tiles.base_lt (mem_freeBlocks.mp hfree).1
    exact absurd hrange.2 (Nat.not_lt.mpr hrange.1)
  · have hi : requestLog bytes - minSlabOrder < caches := by
      simp only [maxSlabOrder, minSlabOrder, caches] at hle ⊢
      omega
    rw [hl.next cachesOk_virtBase.nodeWords ⟨_, hi, Or.inr rfl⟩, (hself _ hi).2.1]

/-- The machine with 2048 reserved pages, before the first request. -/
def freshMachine : Machine where
  buddy := initializePageFrameArray (2048 * 4096) blankBuddy
  ram _ _ := 0
  stores := []

/-- No free block has 1 GiB, and the tree at page 1 is empty. -/
theorem freshMachine_noBlock :
    ∃ m, kheapInit virtBase freshMachine = some m ∧ BuddyOk 2048 m.buddy ∧
      NoBlock virtBase (2 ^ 30) m ∧ ¬ ValidEntry m 1 (idx0 0) := by
  obtain ⟨m, l, hrun, hl, hself, hkeep⟩ := kheapInit_spec cachesOk_virtBase freshMachine
  obtain ⟨B, L, hr⟩ : ∃ B L, BuddyRep 2048 ramPages m.buddy B L := by
    rw [hkeep.buddy]
    exact ⟨_, _, initial_rep⟩
  have hlog : requestLog (2 ^ 30) = 30 := by
    rw [requestLog_eq]
    decide
  refine ⟨m, hrun, hr.ok, ⟨fun b hfree => ?_, fun hle => ?_⟩, ?_⟩
  · have hpages : pagesFor (buddyRequest (2 ^ 30)) = 2 ^ 18 := by
      rw [buddyRequest, alignedBytes_eq, hlog]
      decide
    rw [hr.blocks_eq] at hfree
    rw [hpages]
    apply Nat.pow_lt_pow_right (by decide)
    exact hr.order_lt (by decide) (mem_freeBlocks.mp hfree).1
  · rw [hlog] at hle
    exact absurd hle (by decide)
  · have haddr : InRam (virtBase + 4096) := ⟨by decide, by decide, by decide⟩
    have hword := hkeep.word (virtBase + 4096) haddr fun a ha => by
      obtain ⟨i, hi, ha⟩ := ha
      simp only [fullSlabs, partialSlabs, caches] at ha hi
      omega
    have hzero : m.ram 1 (idx0 0) = 0 := hword
    rintro ⟨-, hvalid⟩
    rw [hzero] at hvalid
    exact absurd hvalid (by decide)

theorem kmalloc_fails_cleanly_iff_example :
    ∃ m, kheapInit virtBase fullMachine = some m ∧
      (FailsCleanly virtBase m (kmalloc virtBase 1 4096 m) ↔
        2 ^ 30 < 4096 ∨ 2048 < 4096 ∧ RangePresent m 1 (requestLog 4096 - 12)) := by
  obtain ⟨m, hrun, hok, hno⟩ := fullMachine_noBlock 4096
  exact ⟨m, hrun, kmalloc_fails_cleanly_iff (by decide) hok fun _ => hno⟩

/-- With no page free, a request for 32 bytes writes the owner of the frame 2^35. And
right after the start one for 1 GiB enters the NULL in the page tables. -/
theorem null_given_an_owner :
    (∃ m, kheapInit virtBase fullMachine = some m ∧ NoBlock virtBase 32 m ∧
      kmalloc virtBase 1 32 m = none ∧
      ¬ FailsCleanly virtBase m (kmalloc virtBase 1 32 m)) ∧
    ∃ m, kheapInit virtBase freshMachine = some m ∧ NoBlock virtBase (2 ^ 30) m ∧
      ¬ FailsCleanly virtBase m (kmalloc virtBase 1 (2 ^ 30) m) := by
  constructor
  · obtain ⟨m, hrun, hok, hno⟩ := fullMachine_noBlock 32
    have hnone : kmalloc virtBase 1 32 m = none :=
      kmalloc_slab_null hno (by decide) hok (by decide) (by decide)
    refine ⟨m, hrun, hno, hnone, ?_⟩
    rw [hnone]
    exact id
  · obtain ⟨m, hrun, hok, hno, hunmapped⟩ := freshMachine_noBlock
    refine ⟨m, hrun, hno, fun hclean => hunmapped ?_⟩
    have hlog : requestLog (2 ^ 30) = 30 := by
      rw [requestLog_eq]
      decide
    rw [kmalloc_large_null hno (by decide) hok (by decide) (by decide), hlog] at hclean
    cases hmap : map (buddyAllocPt 1) 0 (vaToPa 0) (30 - 12) mapKernel 1 m with
    | none =>
        rw [hmap] at hclean
        exact hclean.elim
    | some m' =>
        rw [hmap] at hclean
        have hpresent := (map_null_present (storesGrow_buddyAllocPt 1) (by decide) _).2 m' hmap
          (hclean.2.entries ▸ le_rfl)
        exact (hpresent 0 (by decide)).1

end Rpos
