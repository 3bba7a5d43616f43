import Rpos.System.HeapSteps

/-!
# A slab under a block descriptor

`map` takes the first page of a block for a table, and a slab may start there: mapping
another page of the block can overwrite the counts of its header. What `kmalloc` and
`kfree` do with such a slab.
-/

namespace Rpos

open Base

/-! ## §1  One slab -/

/-- The first `n` slots of a slab at page `q` hold objects of 32 bytes, and the others none.
There is no other slab. The word `w` is the second of the bitmap, and the lists `F` hold the
free blocks. -/
structure OneSlab (kcaches S R root q : ℕ) (F : ℕ → List ℕ) (w : Word) (n : ℕ)
    (h : KernelHeap) : Prop where
  ok : HeapOk False kcaches S R root h
  free : ∃ B, BuddyRep R ramPages h.machine.buddy B F
  slabs : slabBlocks h.machine.buddy = {⟨q, 0⟩}
  low : ∀ i < 64, Slab.bit h.machine (pageAddr q) i = decide (i < n)
  high : ∀ i < 128, 64 ≤ i → Slab.bit h.machine (pageAddr q) i = w.getLsbD (i % 64)
  used : usedSlots h.objects 0 (pageAddr q) = Finset.range n
  objects : ∀ i < n, h.objects (slotAddr 0 (pageAddr q) i) = some 32

section OneSlab

variable {P : Prop} {kcaches S R root q n : ℕ} {F : ℕ → List ℕ} {w : Word} {h : KernelHeap}
  {L : ℕ → List ℕ} {b : Buddy}

theorem requestLog_32 : requestLog 32 = slotLog 0 := by decide

theorem HeapParts.lists_nil (hp : HeapParts P kcaches S R root L h)
    (hno : slabBlocks h.machine.buddy = ∅) {c : ℕ} (hc : c < caches) : L (2 * c + 1) = [] := by
  refine List.eq_nil_iff_forall_not_mem.mpr fun s hs => ?_
  obtain ⟨d, hd, -⟩ := hp.block c hc s (Or.inr hs)
  rw [hno] at hd
  exact Finset.notMem_empty d hd

theorem oneSlab_first (hl : HeapLayout kcaches S R) (hk : HeapOk False kcaches S R root h)
    (hno : slabBlocks h.machine.buddy = ∅) (hobjects : h.objects = fun _ => none)
    (hq : q < ramPages) (hrun : buddyAlloc pageSize h.machine.buddy = some (pageAddr q, b))
    {B : Finset Block} (hr : BuddyRep R ramPages b B F) :
    ∃ h', heapStep kcaches root h (.kmalloc 32) = some (slotAddr 0 (pageAddr q) 0, h') ∧
      OneSlab kcaches S R root q F (h.machine.ram q 3) 1 h' := by
  obtain ⟨L, hp, hheld⟩ := hk
  have hlist : L (2 * 0 + 1) = [] := hp.lists_nil hno (by decide)
  have hone : pageSize * (slabOrder 0 + 1) = pageSize := by decide
  have hpos : 0 < slabTotal 0 := (slabTotal_bounds (by decide)).1
  have hrun' : buddyAlloc (pageSize * (slabOrder 0 + 1)) h.machine.buddy =
      some (pageAddr q, b) := by rw [hone, hrun]
  obtain ⟨q', hqq, hgrant, -⟩ := hp.buddy.granted (k := 0) (by decide) (by decide) hrun
    (pageAddr_ne_zero hq)
  have hqlt := (hgrant.ok.range hgrant.mem).2
  obtain rfl := pageAddr_inj hq (by dsimp only at hqlt; omega) hqq
  obtain ⟨m, hkmalloc, hp₁, howner, hlow, hhigh⟩ := hp.kmalloc_refill hl (by decide) (by decide)
    requestLog_32 hlist hrun' hgrant hq (by simp [hno]) False.elim
  have hupdate : Function.update L (2 * 0 + 1) (pageAddr q :: L (2 * 0 + 1))
      (2 * 0 + 1) = pageAddr q :: L (2 * 0 + 1) := Function.update_self _ _ _
  rcases HeapParts.allocObject hl hp₁ (by decide) hupdate (hheld.cons _ _) requestLog_32 with
    ⟨k, m', halloc, hk0, -, htaken, hok⟩ | ⟨hset, -, -⟩
  swap
  · have hset0 := hset 0 hpos
    rw [hlow 0 (by decide)] at hset0
    exact absurd hset0 (by decide)
  obtain rfl : k = 0 := by
    by_contra hne
    have hset0 := htaken.first 0 (Nat.pos_of_ne_zero hne)
    rw [hlow 0 (by decide)] at hset0
    exact absurd hset0 (by decide)
  refine ⟨⟨m', Function.update h.objects (slotAddr 0 (pageAddr q) 0) (some 32)⟩, ?_, hok, ?_, ?_,
    fun i hi => ?_, fun i hi h64 => ?_, ?_, fun i hi => ?_⟩
  · exact heapStep_kmalloc (hkmalloc.trans halloc) hk0
  · have hlive := hgrant.mem
    rw [hr.view_eq] at hlive
    have hr' := (hr.setOwner hlive (show pageSlab ≠ pageFree by decide)).1
    rw [hr.setPageOwner_eq hlive (Block.base_mem _), Option.some.injEq] at howner
    rw [howner, ← htaken.buddy] at hr'
    exact ⟨B, hr'⟩
  · obtain ⟨b', howner', hgrant', hstate⟩ := hgrant.setOwner
    rw [howner, Option.some.injEq] at howner'
    show slabBlocks m'.buddy = _
    ext d
    rw [htaken.buddy, howner', hgrant'.mem_slabBlocks, hno, Finset.mem_singleton,
      and_iff_left hstate]
    exact or_iff_right (Finset.notMem_empty d)
  · show Slab.bit m' (pageAddr q) i = _
    have hiff : i = 0 ↔ i < 1 := Nat.lt_one_iff.symm
    rw [htaken.bits i (by omega), hlow i hi, Bool.or_false, decide_eq_decide]
    exact hiff
  · show Slab.bit m' (pageAddr q) i = _
    rw [htaken.bits i hi, hhigh rfl i hi h64, decide_eq_false (by omega), Bool.false_or]
  · show usedSlots (Function.update h.objects _ _) 0 (pageAddr q) = _
    have hnone : usedSlots h.objects 0 (pageAddr q) = ∅ := by
      rw [hobjects, usedSlots, Finset.filter_eq_empty_iff]
      exact fun i _ => Bool.false_ne_true
    rw [usedSlots_insert hpos, hnone, Finset.range_one, insert_empty_eq]
  · have hi0 : i = 0 := Nat.lt_one_iff.mp hi
    rw [hi0]
    simp only [Function.update_self]

theorem slabTotal_zero : slabTotal 0 = 126 := by decide

theorem OneSlab.live (ho : OneSlab kcaches S R root q F w n h) :
    (⟨q, 0⟩ : Block) ∈ (pageAllocatorOf h.machine.buddy).live ∧
      (h.machine.buddy.frameMetadata q).state = pageSlab := by
  apply mem_slabBlocks.mp
  rw [ho.slabs, Finset.mem_singleton]

theorem OneSlab.page (ho : OneSlab kcaches S R root q F w n h) : R ≤ q ∧ q < ramPages := by
  obtain ⟨L, hp, -⟩ := ho.ok
  exact hp.buddy.range ho.live.1

/-- The slab is the first partial one of the smallest class. -/
theorem OneSlab.first (ho : OneSlab kcaches S R root q F w n h) (h0 : 0 < n) (hn : n < 126) :
    ∃ L rest, HeapParts False kcaches S R root L h ∧ SlabsHeld L h.objects ∧
      OfClass L 0 (pageAddr q) ∧ L (2 * 0 + 1) = pageAddr q :: rest := by
  obtain ⟨L, hp, hheld⟩ := ho.ok
  have hslab : ∀ d ∈ slabBlocks h.machine.buddy, d.base = q := by
    intro d hd
    rw [ho.slabs, Finset.mem_singleton] at hd
    rw [hd]
  have hof : OfClass L 0 (pageAddr q) := by
    obtain ⟨d, hd, -, ⟨hstate, -, c, -, hlog, hof, -⟩ | ⟨-, hbig, -⟩⟩ :=
      hp.locate (ho.objects 0 h0)
    · rw [requestLog_32] at hlog
      obtain rfl : 0 = c := by
        simp only [slotLog] at hlog
        omega
      rwa [hslab d (mem_slabBlocks.mpr ⟨hd, hstate⟩)] at hof
    · omega
  have hmem : pageAddr q ∈ L (2 * 0 + 1) := by
    rw [hp.sorted 0 (by decide) _ hof, ho.used, Finset.card_range, slabTotal_zero]
    exact hn
  cases hlist : L (2 * 0 + 1) with
  | nil =>
      rw [hlist] at hmem
      exact absurd hmem List.not_mem_nil
  | cons s rest =>
      obtain ⟨d, hd, -, hsd⟩ := hp.block 0 (by decide) s (Or.inr (hlist ▸ List.mem_cons_self))
      rw [hslab d hd] at hsd
      exact ⟨L, rest, hp, hheld, hof, hsd ▸ hlist⟩

theorem OneSlab.not_refills (ho : OneSlab kcaches S R root q F w n h) (h0 : 0 < n)
    (hn : n < 126) : ¬ Refills kcaches 32 h.machine := by
  obtain ⟨L, rest, hp, -, -, hlist⟩ := ho.first h0 hn
  obtain ⟨hread, hne, -⟩ := hp.kmalloc_partial (n := 32) (by decide) (by decide) requestLog_32
    hlist
  intro hrefills
  have hself := hrefills (by decide)
  rw [requestLog_32] at hself
  exact hne (Option.some.inj (hread.symm.trans hself))

theorem OneSlab.served (ho : OneSlab kcaches S R root q F w n h) (h0 : 0 < n) (hn : n < 126)
    (A : ℕ → Prop) : Served kcaches h 32 A :=
  fun _ hrefills => absurd hrefills (ho.not_refills h0 hn)

theorem OneSlab.next (hl : HeapLayout kcaches S R) (ho : OneSlab kcaches S R root q F w n h)
    (h0 : 0 < n) (hn : n < 64) :
    ∃ h', heapStep kcaches root h (.kmalloc 32) = some (slotAddr 0 (pageAddr q) n, h') ∧
      OneSlab kcaches S R root q F w (n + 1) h' := by
  obtain ⟨L, rest, hp, hheld, hof, hlist⟩ := ho.first h0 (by omega)
  obtain ⟨-, -, hkmalloc⟩ := hp.kmalloc_partial (by decide) (by decide) requestLog_32 hlist
  have hclear : Slab.bit h.machine (pageAddr q) n = false := by
    rw [ho.low n hn, decide_eq_false (Nat.lt_irrefl n)]
  have htotal : n < slabTotal 0 := by
    rw [slabTotal_zero]
    omega
  rcases HeapParts.allocObject hl hp (by decide) hlist
    (fun c hc s hs _ => hheld c hc s hs) requestLog_32 with
    ⟨k, m', halloc, hk0, hnone, htaken, hok⟩ | ⟨hset, -, -⟩
  swap
  · rw [hset n htotal] at hclear
    exact absurd hclear (by decide)
  -- the slots below `n` hold objects, and the bit of `n` is clear
  obtain rfl : k = n := by
    rcases Nat.lt_trichotomy k n with hlt | heq | hgt
    · rw [ho.objects k hlt] at hnone
      exact absurd hnone (by simp)
    · exact heq
    · rw [htaken.first n hgt] at hclear
      exact absurd hclear (by decide)
  refine ⟨⟨m', Function.update h.objects (slotAddr 0 (pageAddr q) k) (some 32)⟩,
    heapStep_kmalloc (hkmalloc.trans halloc) hk0, hok, ?_, ?_, fun i hi => ?_,
    fun i hi h64 => ?_, ?_, fun i hi => ?_⟩
  · show ∃ B, BuddyRep R ramPages m'.buddy B F
    rw [htaken.buddy]
    exact ho.free
  · show slabBlocks m'.buddy = _
    rw [htaken.buddy]
    exact ho.slabs
  · show Slab.bit m' (pageAddr q) i = _
    rw [htaken.bits i (by omega), ho.low i hi, ← Bool.decide_or, decide_eq_decide]
    omega
  · show Slab.bit m' (pageAddr q) i = _
    rw [htaken.bits i hi, ho.high i hi h64, decide_eq_false (by omega), Bool.false_or]
  · show usedSlots (Function.update h.objects _ _) 0 (pageAddr q) = _
    rw [usedSlots_insert htotal, ho.used, Finset.range_add_one]
  · by_cases hik : i = k
    · rw [hik]
      simp only [Function.update_self]
    · have hne : slotAddr 0 (pageAddr q) i ≠ slotAddr 0 (pageAddr q) k :=
        fun heq => hik (slotAddr_inj heq)
      simp only [Function.update_of_ne hne]
      exact ho.objects i (by omega)

theorem OneSlab.run (hl : HeapLayout kcaches S R) (j : ℕ) :
    ∀ {n h}, 0 < n → n + j ≤ 64 → OneSlab kcaches S R root q F w n h →
      ∃ ws h', exec (heapStep kcaches root) h (List.replicate j (.kmalloc 32)) = some (ws, h') ∧
        OneSlab kcaches S R root q F w (n + j) h' := by
  induction j with
  | zero => exact fun _ _ ho => ⟨[], _, rfl, ho⟩
  | succ j ih =>
      intro n h h0 hn ho
      obtain ⟨h₁, hstep, ho₁⟩ := ho.next hl h0 (by omega)
      obtain ⟨ws, h', hrun, ho'⟩ := ih (Nat.succ_pos n) (by omega) ho₁
      refine ⟨slotAddr 0 (pageAddr q) n :: ws, h', ?_, ?_⟩
      · rw [List.replicate_succ, exec, hstep]
        dsimp only
        rw [hrun]
        rfl
      · rwa [Nat.succ_add] at ho'

/-- A slab whose page held ones counts fewer objects than its bitmap marks. -/
theorem OneSlab.not_booked (ho : OneSlab kcaches S R root q F (BitVec.allOnes 64) 1 h) :
    ¬ SlabsBooked kcaches h := by
  obtain ⟨L, rest, hp, -, hof, -⟩ := ho.first (by decide) (by decide)
  have hslab := hp.slabs.slab 0 (by decide) _ hof
  rintro ⟨L', -, -, hbooked⟩
  obtain ⟨c, -, hb⟩ := hbooked ⟨q, 0⟩ (mem_slabBlocks.mpr ho.live)
  have hbits := hb.bits
  dsimp only at hbits
  rw [hslab.total, hslab.inuse, ho.used, Finset.card_range, slabTotal_zero] at hbits
  have hstale : ∀ i < 128, 64 ≤ i → Slab.bit h.machine (pageAddr q) i = true := by
    intro i hi h64
    rw [ho.high i hi h64, BitVec.getLsbD_allOnes, decide_eq_true (Nat.mod_lt i (by decide))]
  have hsub : ({64, 65} : Finset ℕ) ⊆
      (Finset.range 126).filter fun i => Slab.bit h.machine (pageAddr q) i := by
    intro i hi
    rw [Finset.mem_insert, Finset.mem_singleton] at hi
    rw [Finset.mem_filter, Finset.mem_range]
    exact ⟨by omega, hstale i (by omega) (by omega)⟩
  have hcard := Finset.card_le_card hsub
  rw [hbits] at hcard
  exact absurd hcard (by decide)

end OneSlab

/-! ## §2  Its counts overwritten -/

/-- The slab at page `q` is the first on its list, and `kfree` finds it, but its counts have
been overwritten. -/
structure Garbled (kcaches q : ℕ) (counts : Word) (m : Machine) : Prop where
  first : m.readPtr (partialSlabs kcaches 0) = some (pageAddr q)
  counts : m.word (Slab.countsWord (pageAddr q)) = counts
  owner : getPageOwner (pageAddr q) m.buddy = some pageSlab
  head : headFromPage (pageAddr q) m.buddy = some (pageAddr q)

section Stray

variable {kcaches S R root q n : ℕ} {F : ℕ → List ℕ} {w : Word} {h : KernelHeap}

theorem counts_pageAddr (hq : q < ramPages) (m : Machine) :
    m.word (Slab.countsWord (pageAddr q)) = m.ram q 4 :=
  word_pageAddr (k := 4) hq (by decide) m

/-- The pages of a block with its first page are pages of RAM. -/
theorem block_lt {k : ℕ} (hq : q % 512 = 0) (hlt : q < ramPages) (hk : k < 512) :
    q + k < ramPages ∧ blockBase (q + k) = q ∧ (q + k) % 512 = k := by
  simp only [ramPages, blockBase] at *
  omega

/-- The counts of a slab with an even number of objects look like an invalid descriptor. -/
theorem OneSlab.not_finds (ho : OneSlab kcaches S R root q F w n h) (h0 : 0 < n) (hn : n < 126)
    (heven : n % 2 = 0) (hq : q % 512 = 0) :
    ¬ FindsPage h.machine.ram root (pageAddr (q + 4)) := by
  obtain ⟨L, rest, hp, -, hof, -⟩ := ho.first h0 hn
  obtain ⟨hqR, hlt⟩ := ho.page
  obtain ⟨hlt', hbase, hidx⟩ := block_lt (k := 4) hq hlt (by decide)
  have hinuse := (hp.slabs.slab 0 (by decide) _ hof).inuse
  rw [ho.used, Finset.card_range, Slab.inuseOf] at hinuse
  rw [hp.walks.finds_iff (by omega) hlt', hbase, hidx, ← counts_pageAddr (by omega)]
  simp only [BitField.get, Slab.inuse, Pte.valid] at *
  omega

/-- `map` stores the descriptor of a page of 16 KiB over the counts of the slab. -/
theorem OneSlab.stray (hl : HeapLayout kcaches S R) (ho : OneSlab kcaches S R root q F w n h)
    (h0 : 0 < n) (hn : n < 126) (heven : n % 2 = 0) (hq : q % 512 = 0) {ps : List ℕ}
    (hF : F 2 = (q + 4) :: ps) :
    ∃ m, heapStep kcaches root h (.kmalloc 16384) = some (pageAddr (q + 4),
        ⟨m, Function.update h.objects (pageAddr (q + 4)) (some 16384)⟩) ∧
      Garbled kcaches q (pageDescriptor mapKernel (vaToPa (pageAddr (q + 4)))) m ∧
      ∀ i < 128, Slab.bit m (pageAddr q) i = Slab.bit h.machine (pageAddr q) i := by
  have hnot := ho.not_finds h0 hn heven hq
  obtain ⟨L, rest, hp, -, hof, hlist⟩ := ho.first h0 hn
  obtain ⟨B, hr⟩ := ho.free
  obtain ⟨hlive, hstate⟩ := ho.live
  obtain ⟨hqR, hqlt⟩ := ho.page
  have horder : requestedOrder (pagesFor (buddyRequest 16384)) 256 0 = some 2 := by decide
  obtain ⟨b, hrun, hr', -⟩ := buddyAlloc_served (n := 0) hr horder (by decide)
    (fun j hj hlt => absurd hlt (by omega)) hF
  obtain ⟨hq4, hbase, hidx⟩ := block_lt (k := 4) hq hqlt (by decide)
  obtain ⟨q', hqq, hg, -⟩ := hp.buddy.granted horder (by decide) hrun (pageAddr_ne_zero hq4)
  have hend := (hg.ok.range hg.mem).2
  obtain rfl := pageAddr_inj hq4 (by dsimp only at hend; omega) hqq
  obtain ⟨hR4, hend⟩ := hg.ok.range hg.mem
  have hwalks : HeapWalks S R ({ h.machine with buddy := b } : Machine).ram root := hp.walks
  obtain ⟨m, hmap, hbuddy, hword⟩ := hwalks.map_spec hl.high hR4 hend
    (vaToPa (pageAddr (q + 4))) mapKernel
  have hfirst := hwalks.map_first hl.high hR4 hend
    (fun hlow => absurd hlow.1 (by dsimp only; decide)) hnot
    hmap
  rw [hbase, hidx] at hfirst
  -- the other words of the header, and those of the caches, are as they were
  have hkept : ∀ p k, p < R ∨ p = q ∧ k < 4 → m.ram p k = h.machine.ram p k := by
    intro p k hpk
    apply hword
    intro hstray
    rcases hpk with hlow | ⟨rfl, hk⟩
    · have hle := hwalks.stray_managed hR4 hend hstray
      omega
    · obtain ⟨-, x, hl, hh, -, -, hx⟩ := hstray
      dsimp only at hl hh
      omega
  have hs := hl.place hqR hqlt
  have hlive' : (⟨q, 0⟩ : Block) ∈ (pageAllocatorOf b).live :=
    hg.live ▸ Finset.mem_insert_of_mem hlive
  obtain ⟨howner, hhead⟩ := hg.ok.owner (x := q) hlive' (Block.base_mem ⟨q, 0⟩)
  dsimp only at hbuddy howner hhead
  refine ⟨m, heapStep_kmalloc ?_ (pageAddr_ne_zero hq4),
    ⟨?_, (counts_pageAddr hqlt m).trans hfirst, ?_, ?_⟩,
    fun i hi => ?_⟩
  · have halloc : h.machine.buddyAlloc (buddyRequest 16384) =
        some (pageAddr (q + 4), { h.machine with buddy := b }) := by
      rw [Machine.buddyAlloc, hrun]
      rfl
    have horder' : blockOrder 16384 = 2 := by decide
    rw [kmalloc_large_eq (by decide) (by decide), halloc, Option.bind_some, horder']
    show (kernelMap root (pageAddr (q + 4)) (vaToPa (pageAddr (q + 4))) 2 mapKernel root
      { h.machine with buddy := b }).bind _ = _
    rw [hmap, Option.bind_some]
  · have hhead := hp.slabs.places.nodeWords.next _ (head_mem_heapNodes L (j := 1) (by decide))
    have hread := hp.readPtr_partial (c := 0) (by decide)
    have hheadlow : kcaches ≤ cacheHead kcaches 1 ∧ cacheHead kcaches 1 < kcaches + 224 := by
      simp only [cacheHead]
      omega
    have hpage := hl.cache_page hhead hheadlow.1 hheadlow.2
    have hstatic := hl.static
    rw [hlist, List.headD_cons, partialSlabs_eq, Machine.readPtr_eq hhead, Machine.ptr] at hread
    rw [partialSlabs_eq, Machine.readPtr_eq hhead, Machine.ptr, ← hread]
    rw [Machine.word, Machine.word, hkept _ _ (Or.inl (by omega))]
  · rw [hbuddy, howner, hg.state _ hlive, hstate]
  · rw [hbuddy, hhead]
  · rw [Slab.bit, Slab.bit, hs.bitmapWord (by omega), word_pageAddr hqlt (by omega),
      word_pageAddr hqlt (by omega), hkept q _ (Or.inr ⟨rfl, by omega⟩)]

end Stray

section Garbled

variable {kcaches q j k : ℕ} {counts : Word} {m : Machine}

/-- `kmalloc` of 32 bytes takes the first clear bit, and computes the address by the counts. -/
theorem Garbled.kmalloc (hg : Garbled kcaches q counts m) (root : ℕ)
    (hs : SlabPlace kcaches (pageAddr q))
    (hk : k < 2048) (htotal : k < Slab.total.get counts)
    (hset : ∀ i < k, Slab.bit m (pageAddr q) i = true)
    (hclear : Slab.bit m (pageAddr q) k = false)
    (horder : Slab.orderOf (m.takeSlot (pageAddr q) k) (pageAddr q) = 0)
    (hroom : Slab.inuseOf (m.takeSlot (pageAddr q) k) (pageAddr q) ≠
      Slab.totalOf (m.takeSlot (pageAddr q) k) (pageAddr q)) :
    Rpos.kmalloc kcaches root 32 m =
      some (.returns (pageAddr q + 40 + k) (m.takeSlot (pageAddr q) k)) := by
  have hne : pageAddr q ≠ partialSlabs kcaches 0 := by
    have hlt := hs.slab_ne (j := 1) (by decide)
    rw [partialSlabs_eq]
    exact ((Nat.le_add_right _ 8).trans_lt hlt).ne'
  have htotal' : Slab.totalOf m (pageAddr q) = Slab.total.get counts := by
    rw [Slab.totalOf, hg.counts]
  have haddr : (pageAddr q + 40 + k * 1) % 2 ^ 64 = pageAddr q + 40 + k := by
    have hhigh := hs.inRam.high
    rw [virtBase] at hhigh
    omega
  have hsize : itemSize 0 = 1 := by decide
  have hmeta : alignUpTo sizeofSlab 1 = 40 := by decide
  rw [kmalloc_small_eq (by decide) (by decide) requestLog_32, hg.first, Option.bind_some,
    if_neg hne, Rpos.allocObject, hg.first, Option.bind_eq_bind, Option.bind_some,
    addrFromSlab_eq hs, htotal', slabBitLoop_found hs _ 0 hk (Nat.zero_le k) (by omega)
      (fun i _ => hset i) hclear, horder, hsize, hmeta, haddr, Option.bind_eq_bind,
    Option.bind_some]
  dsimp only
  rw [Machine.readWord_eq hs.counts_inRam, Option.bind_eq_bind, Option.bind_some]
  exact if_neg hroom

theorem SlabPlace.bit_counts {s : ℕ} (hs : SlabPlace kcaches s) (hj : j < 64) (m : Machine) :
    Slab.bit m s (128 + j) = (m.word (Slab.countsWord s)).getLsbD j := by
  have hmod : (128 + j) % 64 = j := by omega
  rw [Slab.bit, hs.bitmapWord_past hj, hmod]

/-- The counts after `_addr_from_slab` has taken bit `j` of them for a slot. -/
def countsTaken (counts : Word) (j : ℕ) : Word :=
  let counts := counts ||| BitVec.twoPow 64 j
  Slab.inuse.set counts (Slab.inuse.get counts + 1)

/-- The counts after `_slab_free` has cleared it. -/
def countsFreed (counts : Word) (j : ℕ) : Word :=
  Slab.lessInuse (counts &&& ~~~(BitVec.twoPow 64 j))

theorem Garbled.store (hg : Garbled kcaches q counts m) (hs : SlabPlace kcaches (pageAddr q))
    (hk : CachesOk kcaches) (w : Word) :
    Garbled kcaches q w (m.setWord (Slab.countsWord (pageAddr q)) w) ∧
      ∀ i < 128, Slab.bit (m.setWord (Slab.countsWord (pageAddr q)) w) (pageAddr q) i =
        Slab.bit m (pageAddr q) i := by
  have hcounts := hs.counts_inRam
  have hhead : InRam (partialSlabs kcaches 0) := hk.inRam (j := 2) (by decide)
  have hne : partialSlabs kcaches 0 ≠ Slab.countsWord (pageAddr q) := by
    have hlt := hs.behind
    simp only [partialSlabs, Slab.countsWord]
    omega
  refine ⟨⟨?_, ?_, hg.owner, hg.head⟩, fun i hi => ?_⟩
  · have hfirst := hg.first
    rw [Machine.readPtr_eq hhead, Machine.ptr] at *
    rw [Machine.setWord_word hcounts hhead, if_neg hne, hfirst]
  · rw [Machine.setWord_word hcounts hcounts, if_pos rfl]
  · have hbits : Slab.bitmapWord (pageAddr q) i ≠ Slab.countsWord (pageAddr q) :=
      hs.bitmapWord_ne hi
    rw [Slab.bit, Machine.setWord_word hcounts (hs.bitmap_inRam (by omega)), if_neg hbits,
      Slab.bit]

/-- When the bitmap is full, `kmalloc` takes a bit of the counts. -/
theorem Garbled.next (hg : Garbled kcaches q counts m) (root : ℕ)
    (hs : SlabPlace kcaches (pageAddr q)) (hk : CachesOk kcaches)
    (hfull : ∀ i < 128, Slab.bit m (pageAddr q) i = true) (hj : j < 64)
    (hset : ∀ i < j, counts.getLsbD i = true) (hclear : counts.getLsbD j = false)
    (htotal : 128 + j < Slab.total.get counts)
    (horder : Slab.slabOrder.get (countsTaken counts j) = 0)
    (hroom : Slab.inuse.get (countsTaken counts j) ≠ Slab.total.get (countsTaken counts j)) :
    ∃ m', Rpos.kmalloc kcaches root 32 m = some (.returns (pageAddr q + 40 + (128 + j)) m') ∧
      Garbled kcaches q (countsTaken counts j) m' ∧
      ∀ i < 128, Slab.bit m' (pageAddr q) i = true := by
  have hword : Slab.bitmapWord (pageAddr q) (128 + j) = Slab.countsWord (pageAddr q) :=
    hs.bitmapWord_past (by omega)
  have hmod : (128 + j) % 64 = j := by omega
  obtain ⟨hg₁, hbits₁⟩ := hg.store hs hk (counts ||| BitVec.twoPow 64 j)
  obtain ⟨hg₂, hbits₂⟩ := hg₁.store hs hk (countsTaken counts j)
  have htake : m.takeSlot (pageAddr q) (128 + j) =
      (m.setWord (Slab.countsWord (pageAddr q)) (counts ||| BitVec.twoPow 64 j)).setWord
        (Slab.countsWord (pageAddr q)) (countsTaken counts j) := by
    rw [Machine.takeSlot, Machine.markSlot, hword, hmod, hg.counts, Machine.setInuse,
      Slab.inuseOf, hg₁.counts, countsTaken]
  rw [← htake] at hg₂ hbits₂
  have hbit : ∀ i < 64, Slab.bit m (pageAddr q) (128 + i) = counts.getLsbD i := by
    intro i hi
    rw [hs.bit_counts hi, hg.counts]
  refine ⟨_, hg.kmalloc root hs (by omega) htotal (fun i hi => ?_) ?_ ?_ ?_, hg₂, fun i hi => ?_⟩
  · by_cases hlow : i < 128
    · exact hfull i hlow
    · obtain ⟨i, rfl⟩ := Nat.exists_eq_add_of_le (not_lt.mp hlow)
      rw [hbit i (by omega)]
      exact hset i (by omega)
  · rw [hbit j hj, hclear]
  · rw [Slab.orderOf, hg₂.counts, horder]
  · rw [Slab.inuseOf, Slab.totalOf, hg₂.counts]
    exact hroom
  · rw [hbits₂ i hi, hbits₁ i hi, hfull i hi]

theorem Garbled.kfree (hg : Garbled kcaches q counts m) (hs : SlabPlace kcaches (pageAddr q))
    (hk : CachesOk kcaches) (hj : j < 64) (horder : Slab.slabOrder.get counts = 0)
    (hset : counts.getLsbD j = true)
    (hroom : Slab.inuse.get (counts &&& ~~~(BitVec.twoPow 64 j)) ≠
      Slab.total.get (counts &&& ~~~(BitVec.twoPow 64 j)))
    (hleft : Slab.inuse.get (countsFreed counts j) ≠ 0) :
    ∃ m', Rpos.kfree kcaches (pageAddr q + 40 + (128 + j)) m = some (.returns m') ∧
      Garbled kcaches q (countsFreed counts j) m' := by
  have hcounts := hs.counts_inRam
  have hword : Slab.bitmapWord (pageAddr q) (128 + j) = Slab.countsWord (pageAddr q) :=
    hs.bitmapWord_past (by omega)
  have hmod : (128 + j) % 64 = j := by omega
  obtain ⟨hg₁, -⟩ := hg.store hs hk (counts &&& ~~~(BitVec.twoPow 64 j))
  obtain ⟨hg₂, -⟩ := hg₁.store hs hk (countsFreed counts j)
  have halign : alignDown (pageAddr q + 40 + (128 + j)) = pageAddr q := by
    have haligned := hs.aligned
    simp only [alignDown, pageSize] at *
    omega
  have hoffset : Slab.offset (pageAddr q) (itemSize 0) (pageAddr q + 40 + (128 + j)) =
      128 + j := by
    have hsize : itemSize 0 = 1 := by decide
    have hmeta : alignUpTo sizeofSlab 1 = 40 := by decide
    have hhigh := hs.inRam.high
    rw [Slab.offset, hsize, hmeta]
    simp only [virtBase] at hhigh
    omega
  have hfree : slabFree kcaches (pageAddr q + 40 + (128 + j)) m = some
      ((m.setWord (Slab.countsWord (pageAddr q)) (counts &&& ~~~(BitVec.twoPow 64 j))).setWord
        (Slab.countsWord (pageAddr q)) (countsFreed counts j)) := by
    have hless : ((m.setWord (Slab.countsWord (pageAddr q))
        (counts &&& ~~~(BitVec.twoPow 64 j))).lessInuse (pageAddr q)) = (m.setWord
          (Slab.countsWord (pageAddr q)) (counts &&& ~~~(BitVec.twoPow 64 j))).setWord
            (Slab.countsWord (pageAddr q)) (countsFreed counts j) := by
      rw [Machine.lessInuse, hg₁.counts, countsFreed]
    rw [slabFree, halign, hg.head, Option.bind_eq_bind, Option.bind_some,
      Machine.readWord_eq hcounts, hg.counts, Option.bind_eq_bind, Option.bind_some, horder,
      hoffset]
    dsimp only
    rw [hword, hmod, Machine.readWord_eq hcounts, hg.counts, Option.bind_eq_bind,
      Option.bind_some, if_pos hset, Machine.writeWord_eq hcounts, Option.bind_some,
      Machine.readWord_eq hcounts, hg₁.counts, Option.bind_some, if_neg hroom, slabDrop_eq hs,
      hless, Slab.inuseOf, hg₂.counts, if_neg hleft]
  refine ⟨_, ?_, hg₂⟩
  have hp0 : pageAddr q + 40 + (128 + j) ≠ 0 := by omega
  rw [Rpos.kfree, if_neg hp0, halign, hg.owner, Option.bind_eq_bind, Option.bind_some,
    if_neg (by decide), if_pos rfl, hfree]
  rfl

end Garbled

/-! ## §3  What comes of it -/

/-- The descriptor of page 258052, as `kmalloc` maps it. -/
def strayCounts : Word := 0x6000003F004783

theorem pageDescriptor_stray :
    pageDescriptor mapKernel (vaToPa (pageAddr (258048 + 4))) = strayCounts := by decide

theorem slotAddr_zero (s : ℕ) : slotAddr 0 s 0 = s + 64 := by
  have hstart : slotStart 0 = 64 := by decide
  rw [slotAddr, hstart, Nat.zero_mul, Nat.add_zero]

section Outcomes

variable {kcaches S R root q : ℕ} {F : ℕ → List ℕ} {w : Word} {h : KernelHeap}

/-- The counts that the stray descriptor leaves put the next object over the first one. -/
theorem OneSlab.overlaps (hl : HeapLayout kcaches S R) (ho : OneSlab kcaches S R root q F w 2 h)
    (hq : q % 512 = 0) {ps : List ℕ} (hF : F 2 = (q + 4) :: ps)
    (hD : pageDescriptor mapKernel (vaToPa (pageAddr (q + 4))) = strayCounts) :
    ¬ Along (heapStep kcaches root) KmallocApart h [.kmalloc 16384, .kmalloc 32] := by
  obtain ⟨hR, hlt⟩ := ho.page
  obtain ⟨hlt4, -⟩ := block_lt (k := 4) hq hlt (by decide)
  have hs := hl.place hR hlt
  obtain ⟨m, hstep, hg, hbits⟩ := ho.stray hl (by decide) (by decide) rfl hq hF
  rw [hD] at hg
  have hbit : ∀ i < 64, Slab.bit m (pageAddr q) i = decide (i < 2) :=
    fun i hi => (hbits i (by omega)).trans (ho.low i hi)
  have hinuse : Slab.inuseOf m (pageAddr q) = 18307 := by
    rw [Slab.inuseOf, hg.counts]
    decide
  obtain ⟨hinuse', htotal', horder', -⟩ := hs.takeSlot_get (k := 2) (by decide) m
    (by rw [hinuse]; decide)
  have htotal : Slab.totalOf m (pageAddr q) = 16128 := by
    rw [Slab.totalOf, hg.counts]
    decide
  have horder : Slab.orderOf m (pageAddr q) = 0 := by
    rw [Slab.orderOf, hg.counts]
    decide
  have hkmalloc := hg.kmalloc root (k := 2) hs (by decide) (by decide)
    (fun i hi => by rw [hbit i (by omega), decide_eq_true hi])
    (by rw [hbit 2 (by decide)]; decide) (horder'.trans horder)
    (by rw [hinuse', htotal', hinuse, htotal]; decide)
  have hslot : slotAddr 0 (pageAddr q) 0 = pageAddr q + 64 := slotAddr_zero _
  have hbig : pageAddr q + 64 ≠ pageAddr (q + 4) := by
    rw [pageAddr_eq hlt, pageAddr_eq hlt4]
    simp only [pageSize]
    omega
  have hfirst := ho.objects 0 (by decide)
  rw [hslot] at hfirst
  generalize hptr : pageAddr q + 40 + 2 = ptr at hkmalloc
  generalize hold : pageAddr q + 64 = old at hbig hfirst
  have hptr0 : ptr ≠ 0 := by omega
  rintro ⟨_, h₁, hrun, -, _, h₂, hrun', ⟨hobjects, -⟩, -⟩
  rw [hstep, Option.some.injEq, Prod.mk.injEq] at hrun
  obtain ⟨-, rfl⟩ := hrun
  rw [heapStep_kmalloc hkmalloc hptr0, Option.some.injEq, Prod.mk.injEq] at hrun'
  obtain ⟨-, rfl⟩ := hrun'
  -- both are live: the object at `ptr` starts in the slot before and ends in this one
  have hne : old ≠ ptr := by omega
  have hapart := hobjects.apart ptr 32 old 32 (Function.update_self _ _ _)
    (by simp only [Function.update_of_ne hne, Function.update_of_ne hbig, hfirst]) hne.symm
  omega

/-- With a full bitmap the next objects take bits of the counts, and `inuse--` can set a bit
again that `kfree` has cleared. -/
theorem OneSlab.freed_twice (hl : HeapLayout kcaches S R)
    (ho : OneSlab kcaches S R root q F (BitVec.allOnes 64) 64 h) (hq : q % 512 = 0)
    {ps : List ℕ} (hF : F 2 = (q + 4) :: ps)
    (hD : pageDescriptor mapKernel (vaToPa (pageAddr (q + 4))) = strayCounts) :
    ¬ Along (heapStep kcaches root) (fun _ _ _ h' => KfreeIdempotent kcaches h') h
      [.kmalloc 16384, .kmalloc 32, .kmalloc 32, .kmalloc 32] := by
  obtain ⟨hR, hlt⟩ := ho.page
  have hs := hl.place hR hlt
  have hk := hl.caches
  obtain ⟨m, hstep, hg, hbits⟩ := ho.stray hl (by decide) (by decide) rfl hq hF
  rw [hD] at hg
  have hfull : ∀ i < 128, Slab.bit m (pageAddr q) i = true := by
    intro i hi
    rw [hbits i hi]
    by_cases h64 : i < 64
    · rw [ho.low i h64, decide_eq_true h64]
    · rw [ho.high i hi (by omega), BitVec.getLsbD_allOnes,
        decide_eq_true (Nat.mod_lt i (by decide))]
  obtain ⟨m₁, hrun₁, hg₁, hfull₁⟩ := hg.next root (j := 2) hs hk hfull (by decide)
    (by decide) (by decide) (by decide) (by decide) (by decide)
  obtain ⟨m₂, hrun₂, hg₂, hfull₂⟩ := hg₁.next root (j := 0) hs hk hfull₁ (by decide)
    (by decide) (by decide) (by decide) (by decide) (by decide)
  obtain ⟨m₃, hrun₃, hg₃, -⟩ := hg₂.next root (j := 0) hs hk hfull₂ (by decide)
    (by decide) (by decide) (by decide) (by decide) (by decide)
  obtain ⟨m₄, hfree₄, hg₄⟩ := hg₃.kfree (j := 2) hs hk (by decide) (by decide) (by decide)
    (by decide) (by decide)
  obtain ⟨m₅, hfree₅, hg₅⟩ := hg₄.kfree (j := 2) hs hk (by decide) (by decide) (by decide)
    (by decide) (by decide)
  have hne : pageAddr q + 40 + (128 + 2) ≠ pageAddr q + 40 + (128 + 0) := by omega
  have hp0 : pageAddr q + 40 + (128 + 2) ≠ 0 := by omega
  have hp0' : pageAddr q + 40 + (128 + 0) ≠ 0 := by omega
  generalize pageAddr q + 40 + (128 + 2) = p at hrun₁ hfree₄ hfree₅ hne hp0
  generalize pageAddr q + 40 + (128 + 0) = p' at hrun₂ hrun₃ hne hp0'
  rintro ⟨_, h₀, hstep₀, -, _, h₁, hstep₁, -, _, h₂, hstep₂, -, _, h₃, hstep₃, hidem, -⟩
  rw [hstep, Option.some.injEq, Prod.mk.injEq] at hstep₀
  obtain ⟨-, rfl⟩ := hstep₀
  rw [heapStep_kmalloc hrun₁ hp0, Option.some.injEq, Prod.mk.injEq] at hstep₁
  obtain ⟨-, rfl⟩ := hstep₁
  rw [heapStep_kmalloc hrun₂ hp0', Option.some.injEq, Prod.mk.injEq] at hstep₂
  obtain ⟨-, rfl⟩ := hstep₂
  rw [heapStep_kmalloc hrun₃ hp0', Option.some.injEq, Prod.mk.injEq] at hstep₃
  obtain ⟨-, rfl⟩ := hstep₃
  obtain ⟨m', hfree, hagain⟩ := hidem p
    (by simp only [Function.update_of_ne hne, Function.update_self, Option.isSome_some])
  dsimp only at hfree hagain
  rw [hfree₄, Option.some.injEq, FreeEnd.returns.injEq] at hfree
  rw [← hfree, hfree₅, Option.some.injEq, FreeEnd.returns.injEq] at hagain
  -- the two frees leave different counts
  have hcounts := hg₄.counts
  rw [← hagain, hg₅.counts] at hcounts
  revert hcounts
  decide

end Outcomes

end Rpos
