import Rpos.System.StraySlab

/-!
# Runs of the heap

`kmalloc` and `kfree` from `kheap_init` on: the runs in which the heap stays in order, and
what happens in others.
-/

namespace Rpos

open Base

/-! ## §1  From `kheap_init` on -/

section Runs

variable {P : Prop} {kcaches S R root : ℕ} {l : Layout}

structure InBss (l : Layout) (kcaches : ℕ) : Prop where
  low : l.bssStart ≤ kcaches
  high : kcaches + 224 ≤ l.bssEnd
  aligned : kcaches % 8 = 0

theorem InBss.layout (hk : InBss l kcaches) (hl : l.Ok) :
    HeapLayout kcaches l.staticStart (reservedPages l.reservedMemory) := by
  obtain ⟨hlow, hhigh, haligned⟩ := hk
  obtain ⟨-, -, -, -, -, -, -, hk0, -, -, -, hst, hSR, hR⟩ := hl.pages
  obtain ⟨-, -, hbss, -⟩ := hl.high
  have hend : kcaches + 224 ≤ virtBase + pageSize * l.staticStart := by
    simp only [highPageUp, pageSize, virtBase] at *
    omega
  have hS : l.staticStart < ramPages := by omega
  refine ⟨⟨⟨?_, ?_, haligned⟩, ⟨?_, ?_, ?_⟩⟩, ?_, by omega, hl.reserved.1, hR⟩
  · exact hbss.trans hlow
  · simp only [pageSize, ramPages, virtBase] at *
    omega
  · exact (hbss.trans hlow).trans (Nat.le_add_right _ _)
  · simp only [pageSize, ramPages, virtBase] at *
    omega
  · omega
  · rw [pageAddr_eq hS, Nat.mul_comm, Nat.add_comm _ virtBase]
    exact hend

theorem cacheHead_mem {j : ℕ} (hj : j < cacheLists) :
    cacheHead kcaches j ∈ cacheHeads kcaches := by
  have hc : j / 2 < caches := by
    simp only [cacheLists] at hj
    omega
  refine ⟨j / 2, hc, ?_⟩
  rw [fullSlabs_eq, partialSlabs_eq]
  rcases Nat.mod_two_eq_zero_or_one j with h0 | h1
  · exact Or.inl (by congr 1; omega)
  · exact Or.inr (by congr 1; omega)

theorem initial_slabBlocks {mem : ℕ} (hlo : 2048 ≤ reservedPages mem)
    (hhi : reservedPages mem ≤ ramPages) (b : Buddy) :
    slabBlocks (initializePageFrameArray mem b) = ∅ := by
  refine Finset.eq_empty_of_forall_notMem fun d hd => ?_
  have hmem := (mem_slabBlocks.mp hd).1
  rw [(initializePageFrameArray_roots hlo hhi b).view_eq] at hmem
  obtain ⟨hB, hs⟩ := mem_liveBlocks.mp hmem
  rw [← initializePageFrameArray_free hlo hhi b] at hB
  exact hs (mem_freeBlocks.mp hB).2

/-- `kheap_init` with a page frame array that has just been initialised. -/
theorem heapOk_init (hlayout : HeapLayout kcaches S R) {start : Machine} {mem : ℕ} {b : Buddy}
    (hR : R = reservedPages mem) (hstart : start.buddy = initializePageFrameArray mem b)
    (hwalks : HeapWalks S R start.ram root) :
    ∃ m, kheapInit kcaches start = some m ∧ m.buddy = initializePageFrameArray mem b ∧
      HeapOk P kcaches S R root ⟨m, fun _ => none⟩ := by
  subst hR
  obtain ⟨m, links, hrun, hheld, hself, honly⟩ := kheapInit_spec hlayout.caches start
  have hbuddy : m.buddy = initializePageFrameArray mem b := honly.buddy.trans hstart
  have hslabs : ∀ d, d ∉ slabBlocks m.buddy := by
    intro d hd
    rw [hbuddy, initial_slabBlocks hlayout.low hlayout.high b] at hd
    exact absurd hd (Finset.notMem_empty d)
  have hnone : ∀ c s, ¬ OfClass (fun _ => []) c s := by
    rintro c s (hs | hs) <;> exact absurd hs List.not_mem_nil
  have hlists : HoldsLists kcaches (fun _ => []) m := by
    refine HoldsLists.of_links hheld ⟨fun j hj => ?_, fun i hi j hj hij a ha ha' => ?_⟩ ?_
    · rw [isRing_nil]
      have hc : j / 2 < caches := by
        simp only [cacheLists, Set.mem_Iio] at hj
        omega
      obtain ⟨hfull, hpartial⟩ := hself _ hc
      rw [fullSlabs_eq] at hfull
      rw [partialSlabs_eq] at hpartial
      rcases Nat.mod_two_eq_zero_or_one j with h0 | h1
      · rwa [show 2 * (j / 2) = j by omega] at hfull
      · rwa [show 2 * (j / 2) + 1 = j by omega] at hpartial
    · rw [List.mem_singleton] at ha ha'
      rw [ha] at ha'
      simp only [cacheHead] at ha'
      omega
    · rintro a ⟨j, hj, ha⟩
      rw [List.mem_singleton.mp ha]
      exact cacheHead_mem hj
  refine ⟨m, hrun, hbuddy, fun _ => [], ⟨?_, ?_, ⟨⟨hlayout.caches, ?_⟩, hlists, ?_, ?_⟩, ?_, ?_,
    ?_, ?_⟩, ?_⟩
  · show BuddyOk _ m.buddy
    rw [hbuddy]
    exact initializePageFrameArray_ok hlayout.low hlayout.high b
  · refine hwalks.of_words hlayout fun w hw hlow _ => honly.word w hw fun a ha => ?_
    obtain ⟨i, hi, ha⟩ := ha
    simp only [fullSlabs, partialSlabs, caches] at *
    omega
  · exact fun j _ s hs => absurd hs List.not_mem_nil
  · exact fun c _ s hs => absurd hs (hnone c s)
  · exact fun c _ s hs => absurd hs (hnone c s)
  · exact fun c _ s hs => absurd hs (hnone c s)
  · exact fun c _ s hs => absurd hs (hnone c s)
  · exact fun d hd => absurd hd (hslabs d)
  · exact fun p n hobj => absurd hobj (by simp)
  · exact fun c _ s hs => absurd hs (hnone c s)

theorem heapOk_start (hk : InBss l kcaches) (hl : l.Ok) (ram : ℕ → ℕ → Word) (b : Buddy) :
    ∃ m, kheapInit kcaches (bootMachine l ram b) = some m ∧
      m.buddy = initializePageFrameArray l.reservedMemory b ∧
      HeapOk P kcaches l.staticStart (reservedPages l.reservedMemory) (mapHigh l ram).1
        ⟨m, fun _ => none⟩ := by
  have htree := mapHigh_linearTree hl ram
  have hwalks : HeapWalks l.staticStart (reservedPages l.reservedMemory)
      (bootMachine l ram b).ram (mapHigh l ram).1 := by
    rw [bootMachine_ram]
    exact htree.walks (fun p hp => ⟨mapHigh_static hl ram hp, htree.tables p hp⟩) fun p hp => hp.2
  exact heapOk_init (hk.layout hl) rfl (bootMachine_buddy l ram b) hwalks

theorem HeapOk.step {h : KernelHeap} (hl : HeapLayout kcaches S R)
    (hk : HeapOk P kcaches S R root h) {op : HeapOp} (hop : op.Ok R h)
    (hspares : Spares kcaches root h op) (hclean : P → FindsClean kcaches h op) :
    ∃ ptr h', heapStep kcaches root h op = some (ptr, h') ∧ HeapOk P kcaches S R root h' ∧
      (∀ n, op = .kmalloc n → ptr ≠ 0 → h.objects ptr = none ∧ h'.objects ptr = some n) ∧
      (P → ∀ n, op = .kmalloc n → n ≤ 2048 → ptr ≠ 0) := by
  cases op with
  | kmalloc n =>
      by_cases hhuge : 2 ^ 30 < n
      · have hrun : kmalloc kcaches root n h.machine = some (.returns 0 h.machine) := by
          rw [kmalloc, if_pos (by simp only [maxOrder]; omega)]
        refine ⟨0, ⟨h.machine, h.objects⟩, by simp only [heapStep, hrun, if_true], hk,
          fun _ _ h0 => absurd rfl h0, ?_⟩
        rintro - k ⟨rfl⟩ hsmall
        omega
      · by_cases hsmall : n ≤ 2048
        · obtain ⟨p, m', hrun, hok, hobj, hP⟩ := hk.kmalloc_small hl hsmall hspares hclean
          refine ⟨p, ⟨m', if p = 0 then h.objects else Function.update h.objects p (some n)⟩,
            by simp only [heapStep, hrun], hok, ?_, fun hp _ _ _ => hP hp⟩
          rintro k ⟨rfl⟩ hp0
          refine ⟨hobj hp0, ?_⟩
          show (if p = 0 then _ else Function.update h.objects p (some n)) p = _
          rw [if_neg hp0, Function.update_self]
        · obtain ⟨p, m', hrun, hp0, hobj, hok⟩ :=
            hk.kmalloc_large hl (not_le.mp hsmall) (not_lt.mp hhuge) hspares
          refine ⟨p, ⟨m', Function.update h.objects p (some n)⟩,
            heapStep_kmalloc hrun hp0, hok, ?_, fun _ _ _ _ => hp0⟩
          rintro k ⟨rfl⟩ -
          exact ⟨hobj, Function.update_self _ _ _⟩
  | kfree p =>
      obtain ⟨m', hrun, -, hok⟩ := hk.kfree hl hop
      refine ⟨0, ⟨m', Function.update h.objects p none⟩, by simp only [heapStep, hrun], hok,
        ?_, ?_⟩
      · rintro n ⟨⟩
      · rintro - n ⟨⟩
  | contents ram =>
      refine ⟨0, _, rfl, hk.contents hl hop, ?_, ?_⟩
      · rintro n ⟨⟩
      · rintro - n ⟨⟩

end Runs

/-! ## §2  A small kernel -/

def smallCaches : ℕ := smallLayout.bssStart

def firstLists : ℕ → List ℕ := grantLists 258048 0 12 smallLists

theorem firstLists_two : firstLists 2 = [258048 + 4] := by decide

def fillManaged (R : ℕ) (w : Word) (ram : ℕ → ℕ → Word) : ℕ → ℕ → Word :=
  fun p k => if p < R then ram p k else w

section Small

variable {h : KernelHeap} {b : Buddy}

theorem smallLayout_inBss : InBss smallLayout smallCaches := ⟨le_rfl, by decide, by decide⟩

theorem smallLayout_heap : HeapLayout smallCaches smallLayout.staticStart 4096 := by
  have h := smallLayout_inBss.layout smallLayout_ok
  rwa [smallLayout_reserved] at h

/-- `kheap_init` of the small kernel, over RAM that is clear. -/
theorem small_heap (P : Prop) :
    ∃ m, kheapInit smallCaches (bootMachine smallLayout (fun _ _ => 0) blankBuddy) = some m ∧
      m.buddy = initializePageFrameArray smallLayout.reservedMemory blankBuddy ∧
      HeapOk P smallCaches smallLayout.staticStart 4096 smallRoot ⟨m, fun _ => none⟩ := by
  have h := heapOk_start (P := P) smallLayout_inBss smallLayout_ok (fun _ _ => 0) blankBuddy
  rwa [smallLayout_reserved] at h

theorem small_served (hbuddy : h.machine.buddy =
      initializePageFrameArray smallLayout.reservedMemory b) :
    ∃ b' B, buddyAlloc pageSize h.machine.buddy = some (pageAddr 258048, b') ∧
      BuddyRep 4096 ramPages b' B firstLists ∧ slabBlocks h.machine.buddy = ∅ := by
  have hr := initializePageFrameArray_rep b
    (show 0 < reservedPages smallLayout.reservedMemory by decide) (by decide)
  rw [smallLayout_reserved, ← hbuddy] at hr
  have hempty : ∀ j < 12, smallLists j = [] := by decide
  have hfirst : smallLists 12 = [258048] := by decide
  obtain ⟨b', hrun, hr', -⟩ := buddyAlloc_page hr (by decide) hempty hfirst
  refine ⟨b', _, hrun, hr', ?_⟩
  rw [hbuddy]
  exact initial_slabBlocks (by decide) (by decide) b

theorem small_spares (hbuddy : h.machine.buddy =
      initializePageFrameArray smallLayout.reservedMemory b) :
    Spares smallCaches smallRoot h (.kmalloc 32) := by
  obtain ⟨b', -, hserved, -, hno⟩ := small_served hbuddy
  refine fun _ _ => ⟨258048, b', hserved, by decide, fun d hd => ?_⟩
  rw [hno] at hd
  exact absurd hd (Finset.notMem_empty d)

theorem small_first (hk : HeapOk False smallCaches smallLayout.staticStart 4096 smallRoot h)
    (hbuddy : h.machine.buddy = initializePageFrameArray smallLayout.reservedMemory b)
    (hobjects : h.objects = fun _ => none) :
    ∃ h', heapStep smallCaches smallRoot h (.kmalloc 32) =
        some (slotAddr 0 (pageAddr 258048) 0, h') ∧
      OneSlab smallCaches smallLayout.staticStart 4096 smallRoot 258048 firstLists
        (h.machine.ram 258048 3) 1 h' := by
  obtain ⟨b', B, hrun, hr, hno⟩ := small_served hbuddy
  exact oneSlab_first smallLayout_heap hk hno hobjects (by decide) hrun hr

theorem small_filled {P : Prop} {m : Machine} (w : Word)
    (hbuddy : m.buddy = initializePageFrameArray smallLayout.reservedMemory b)
    (hok : HeapOk P smallCaches smallLayout.staticStart 4096 smallRoot ⟨m, fun _ => none⟩) :
    HeapOp.Ok 4096 ⟨m, fun _ => none⟩ (.contents (fillManaged 4096 w m.ram)) ∧
      HeapOk P smallCaches smallLayout.staticStart 4096 smallRoot
        ⟨{ m with ram := fillManaged 4096 w m.ram }, fun _ => none⟩ := by
  obtain ⟨-, -, -, -, hno⟩ := small_served (h := ⟨m, fun _ => none⟩) hbuddy
  have hwords : ∀ p k, KernelWord 4096 m.buddy p k → fillManaged 4096 w m.ram p k = m.ram p k := by
    rintro p k (hlt | ⟨d, hd, -⟩)
    · exact if_pos hlt
    · rw [hno] at hd
      exact absurd hd (Finset.notMem_empty d)
  exact ⟨hwords, hok.contents smallLayout_heap hwords⟩

end Small

/-! ## §3  Objects and slabs in every run -/

section Booted

variable {kcaches : ℕ} {l : Layout}

/-- The objects of `kmalloc` are apart in every run in which `kmalloc` gets the blocks that
it needs and maps none over the header of a slab. -/
theorem kmalloc_objects_apart (hl : l.Ok) (hk : InBss l kcaches) (ram : ℕ → ℕ → Word)
    (b : Buddy) (ops : List HeapOp) :
    let root := (mapHigh l ram).1
    ∃ m, kheapInit kcaches (bootMachine l ram b) = some m ∧
      (Permitted (heapStep kcaches root) (fun h (op : HeapOp) =>
          op.Ok (reservedPages l.reservedMemory) h ∧ Spares kcaches root h op)
          ⟨m, fun _ => none⟩ ops →
        Along (heapStep kcaches root) KmallocApart ⟨m, fun _ => none⟩ ops) := by
  intro root
  have hlayout := hk.layout hl
  obtain ⟨m, hrun, -, hok⟩ := heapOk_start (P := False) hk hl ram b
  refine ⟨m, hrun, @Permitted.along _ _ _ _ (HeapOk False kcaches l.staticStart _ root) _ _
    (fun h op hh hop => ?_) ops _ hok⟩
  obtain ⟨ptr, h', hstep, hok', hobj, -⟩ := hh.step hlayout hop.1 hop.2 False.elim
  obtain ⟨L, hp, -⟩ := id hok'
  exact ⟨ptr, h', hstep, hok', hp.objectsApart, hobj⟩

theorem kmalloc_objects_apart_example :
    ∃ m, kheapInit smallCaches (bootMachine smallLayout (fun _ _ => 0) blankBuddy) = some m ∧
      Along (heapStep smallCaches smallRoot) KmallocApart ⟨m, fun _ => none⟩
        [.kmalloc 32, .kmalloc 32] := by
  obtain ⟨m, hrun, hall⟩ := kmalloc_objects_apart smallLayout_ok smallLayout_inBss
    (fun _ _ => 0) blankBuddy [.kmalloc 32, .kmalloc 32]
  obtain ⟨m', hrun', hbuddy, hok⟩ := small_heap False
  obtain rfl : m' = m := Option.some.inj (hrun'.symm.trans hrun)
  obtain ⟨h', hstep, hone⟩ := small_first hok hbuddy rfl
  refine ⟨m', hrun, hall ⟨⟨trivial, small_spares hbuddy⟩, fun w h₁ hstep₁ => ⟨⟨trivial, ?_⟩,
    fun _ _ _ => trivial⟩⟩⟩
  obtain rfl : h' = h₁ := (Prod.mk.inj (Option.some.inj (hstep.symm.trans hstep₁))).2
  exact hone.served (by decide) (by decide) _

/-- The block of 16 KiB is mapped over the counts of the slab, and the last object overlaps
with the first. -/
theorem kmalloc_overlaps :
    let ops := [HeapOp.kmalloc 32, .kmalloc 32, .kmalloc 16384, .kmalloc 32]
    ∃ m, kheapInit smallCaches (bootMachine smallLayout (fun _ _ => 0) blankBuddy) = some m ∧
      Permitted (heapStep smallCaches smallRoot) (fun h (op : HeapOp) => op.Ok 4096 h)
        ⟨m, fun _ => none⟩ ops ∧
      ¬ Along (heapStep smallCaches smallRoot) KmallocApart ⟨m, fun _ => none⟩ ops := by
  obtain ⟨m, hrun, hbuddy, hok⟩ := small_heap False
  obtain ⟨h₁, hstep₁, hone₁⟩ := small_first hok hbuddy rfl
  obtain ⟨h₂, hstep₂, hone₂⟩ := hone₁.next smallLayout_heap (by decide) (by decide)
  refine ⟨m, hrun, Permitted.of_forall _ (fun op hop h => ?_) _, fun halong => ?_⟩
  · simp only [List.mem_cons, List.not_mem_nil, or_false] at hop
    rcases hop with rfl | rfl | rfl | rfl <;> trivial
  · have hrest := halong.drop [HeapOp.kmalloc 32, .kmalloc 32] _ (exec_pair hstep₁ hstep₂)
    exact hone₂.overlaps smallLayout_heap (by decide) firstLists_two pageDescriptor_stray hrest

/-- The slabs are booked in every such run in which the pages of new slabs of the smallest
class hold zeros behind the part of the bitmap that is cleared. -/
theorem slabs_booked (hl : l.Ok) (hk : InBss l kcaches) (ram : ℕ → ℕ → Word)
    (b : Buddy) (ops : List HeapOp) :
    let root := (mapHigh l ram).1
    ∃ m, kheapInit kcaches (bootMachine l ram b) = some m ∧
      (Permitted (heapStep kcaches root) (fun h (op : HeapOp) =>
          op.Ok (reservedPages l.reservedMemory) h ∧ Spares kcaches root h op ∧
            FindsClean kcaches h op) ⟨m, fun _ => none⟩ ops →
        Along (heapStep kcaches root) (fun _ op ptr h' => KmallocBooked kcaches op ptr h')
          ⟨m, fun _ => none⟩ ops) := by
  intro root
  have hlayout := hk.layout hl
  obtain ⟨m, hrun, -, hok⟩ := heapOk_start (P := True) hk hl ram b
  refine ⟨m, hrun, @Permitted.along _ _ _ _ (HeapOk True kcaches l.staticStart _ root) _ _
    (fun h op hh hop => ?_) ops _ hok⟩
  obtain ⟨ptr, h', hstep, hok', -, hbooked⟩ :=
    hh.step hlayout hop.1 hop.2.1 fun _ => hop.2.2
  obtain ⟨L, hp, hheld⟩ := id hok'
  exact ⟨ptr, h', hstep, hok', hp.slabsBooked hheld, hbooked trivial⟩

theorem slabs_booked_example :
    ∃ m, kheapInit smallCaches (bootMachine smallLayout (fun _ _ => 0) blankBuddy) = some m ∧
      Along (heapStep smallCaches smallRoot)
        (fun _ op ptr h' => KmallocBooked smallCaches op ptr h') ⟨m, fun _ => none⟩
        [.contents (fillManaged 4096 0 m.ram), .kmalloc 32, .kmalloc 32] := by
  obtain ⟨m, hrun, hbuddy, hok⟩ := small_heap False
  obtain ⟨m', hrun', hall⟩ := slabs_booked smallLayout_ok smallLayout_inBss (fun _ _ => 0)
    blankBuddy [.contents (fillManaged 4096 0 m.ram), .kmalloc 32, .kmalloc 32]
  obtain rfl : m = m' := Option.some.inj (hrun.symm.trans hrun')
  obtain ⟨hcontents, hok'⟩ := small_filled 0 hbuddy hok
  obtain ⟨h', hstep, hone⟩ := small_first hok' hbuddy rfl
  obtain ⟨b, -, hserved, -, -⟩ := small_served (h := ⟨m, fun _ => none⟩) hbuddy
  refine ⟨m, hrun, hall ⟨⟨hcontents, trivial, trivial⟩, ?_⟩⟩
  rintro _ _ ⟨⟩
  refine ⟨⟨trivial, small_spares hbuddy, fun _ _ _ => ?_⟩,
    fun w h₁ hstep₁ => ⟨⟨trivial, ?_⟩, fun _ _ _ => trivial⟩⟩
  · exact ⟨258048, b, hserved, by decide, fun i _ => BitVec.getLsbD_zero⟩
  · obtain rfl : h' = h₁ := (Prod.mk.inj (Option.some.inj (hstep.symm.trans hstep₁))).2
    exact ⟨hone.served (by decide) (by decide) _, fun _ => hone.served (by decide) (by decide) _⟩

/-- A slab in a page full of ones: half of its bitmap is not cleared. -/
theorem stale_bitmap_miscounts :
    ∃ m, kheapInit smallCaches (bootMachine smallLayout (fun _ _ => 0) blankBuddy) = some m ∧
      let ops := [HeapOp.contents (fillManaged 4096 (BitVec.allOnes 64) m.ram), .kmalloc 32]
      Permitted (heapStep smallCaches smallRoot) (fun h (op : HeapOp) => op.Ok 4096 h)
          ⟨m, fun _ => none⟩ ops ∧
        ¬ Along (heapStep smallCaches smallRoot)
          (fun _ op ptr h' => KmallocBooked smallCaches op ptr h') ⟨m, fun _ => none⟩ ops := by
  obtain ⟨m, hrun, hbuddy, hok⟩ := small_heap False
  obtain ⟨hcontents, hok'⟩ := small_filled (BitVec.allOnes 64) hbuddy hok
  obtain ⟨h', hstep, hone⟩ := small_first hok' hbuddy rfl
  refine ⟨m, hrun, ⟨hcontents, fun _ _ _ => ⟨trivial, fun _ _ _ => trivial⟩⟩, ?_⟩
  rintro ⟨_, _, ⟨⟩, -, _, h₁, hstep₁, hbooked, -⟩
  obtain rfl : h' = h₁ := (Prod.mk.inj (Option.some.inj (hstep.symm.trans hstep₁))).2
  exact hone.not_booked hbooked.1

/-- `kfree` is idempotent in every run in which `kmalloc` gets the blocks that it needs and
maps none over the header of a slab. -/
theorem kfree_idempotent (hl : l.Ok) (hk : InBss l kcaches) (ram : ℕ → ℕ → Word)
    (b : Buddy) (ops : List HeapOp) :
    let root := (mapHigh l ram).1
    ∃ m, kheapInit kcaches (bootMachine l ram b) = some m ∧
      KfreeIdempotent kcaches ⟨m, fun _ => none⟩ ∧
      (Permitted (heapStep kcaches root) (fun h (op : HeapOp) =>
          op.Ok (reservedPages l.reservedMemory) h ∧ Spares kcaches root h op)
          ⟨m, fun _ => none⟩ ops →
        Along (heapStep kcaches root) (fun _ _ _ h' => KfreeIdempotent kcaches h')
          ⟨m, fun _ => none⟩ ops) := by
  intro root
  have hlayout := hk.layout hl
  obtain ⟨m, hrun, -, hok⟩ := heapOk_start (P := False) hk hl ram b
  refine ⟨m, hrun, hok.freed_once hlayout, @Permitted.along _ _ _ _
    (HeapOk False kcaches l.staticStart _ root) _ _ (fun h op hh hop => ?_) ops _ hok⟩
  obtain ⟨ptr, h', hstep, hok', -⟩ := hh.step hlayout hop.1 hop.2 False.elim
  exact ⟨ptr, h', hstep, hok', hok'.freed_once hlayout⟩

theorem kfree_idempotent_example :
    ∃ m, kheapInit smallCaches (bootMachine smallLayout (fun _ _ => 0) blankBuddy) = some m ∧
      Along (heapStep smallCaches smallRoot)
        (fun _ _ _ h' => KfreeIdempotent smallCaches h') ⟨m, fun _ => none⟩
        [.kmalloc 32, .kmalloc 32] := by
  obtain ⟨m, hrun, -, hall⟩ := kfree_idempotent smallLayout_ok smallLayout_inBss
    (fun _ _ => 0) blankBuddy [.kmalloc 32, .kmalloc 32]
  obtain ⟨m', hrun', hbuddy, hok⟩ := small_heap False
  obtain rfl : m' = m := Option.some.inj (hrun'.symm.trans hrun)
  obtain ⟨h', hstep, hone⟩ := small_first hok hbuddy rfl
  refine ⟨m', hrun, hall ⟨⟨trivial, small_spares hbuddy⟩, fun w h₁ hstep₁ => ⟨⟨trivial, ?_⟩,
    fun _ _ _ => trivial⟩⟩⟩
  obtain rfl : h' = h₁ := (Prod.mk.inj (Option.some.inj (hstep.symm.trans hstep₁))).2
  exact hone.served (by decide) (by decide) _

/-- Of two frees of the object that took bit 2 of the counts, each lowers the counts. -/
theorem kfree_twice_differs :
    ∃ m, kheapInit smallCaches (bootMachine smallLayout (fun _ _ => 0) blankBuddy) = some m ∧
      let ops := HeapOp.contents (fillManaged 4096 (BitVec.allOnes 64) m.ram) ::
        (List.replicate 64 (.kmalloc 32) ++
          [.kmalloc 16384, .kmalloc 32, .kmalloc 32, .kmalloc 32])
      Permitted (heapStep smallCaches smallRoot) (fun h (op : HeapOp) => op.Ok 4096 h)
          ⟨m, fun _ => none⟩ ops ∧
        ¬ Along (heapStep smallCaches smallRoot)
          (fun _ _ _ h' => KfreeIdempotent smallCaches h') ⟨m, fun _ => none⟩ ops := by
  obtain ⟨m, hrun, hbuddy, hok⟩ := small_heap False
  obtain ⟨hcontents, hok'⟩ := small_filled (BitVec.allOnes 64) hbuddy hok
  obtain ⟨h₁, hstep₁, hone₁⟩ := small_first hok' hbuddy rfl
  obtain ⟨ws, h₂, hrun₂, hone₂⟩ := OneSlab.run smallLayout_heap 63 Nat.one_pos (by decide) hone₁
  refine ⟨m, hrun, ⟨hcontents, fun _ h _ => ?_⟩, ?_⟩
  · refine Permitted.of_forall _ (fun op hop h => ?_) h
    rw [List.mem_append, List.mem_replicate] at hop
    simp only [List.mem_cons, List.not_mem_nil, or_false] at hop
    rcases hop with ⟨-, rfl⟩ | rfl | rfl | rfl | rfl <;> trivial
  · rintro ⟨_, _, ⟨⟩, -, halong⟩
    have hexec : exec (heapStep smallCaches smallRoot)
        ⟨{ m with ram := fillManaged 4096 (BitVec.allOnes 64) m.ram }, fun _ => none⟩
        (List.replicate 64 (.kmalloc 32)) =
          some (slotAddr 0 (pageAddr 258048) 0 :: ws, h₂) := by
      rw [List.replicate_succ, exec, hstep₁]
      dsimp only
      rw [hrun₂]
      rfl
    exact hone₂.freed_twice smallLayout_heap (by decide) firstLists_two pageDescriptor_stray
      (halong.drop _ _ hexec)

end Booted

end Rpos
