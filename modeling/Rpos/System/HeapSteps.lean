import Rpos.System.KernelHeap

/-!
# Steps of the heap

What `kmalloc` and `kfree` do to a heap that is in order. It stays in order as long as no
call of `map` meets a clear word in the header of a slab.
-/

namespace Rpos

open Base

/-! ## §1  `kmalloc` -/

section Kmalloc

variable {P : Prop} {kcaches S R root c n : ℕ} {h : KernelHeap} {m : Machine}

theorem heapStep_kmalloc {ptr : ℕ} {m m' : Machine} {objects : ℕ → Option ℕ}
    (hrun : kmalloc kcaches root n m = some (.returns ptr m')) (h0 : ptr ≠ 0) :
    heapStep kcaches root ⟨m, objects⟩ (.kmalloc n) =
      some (ptr, ⟨m', Function.update objects ptr (some n)⟩) := by
  simp only [heapStep, hrun, if_neg h0]

/-- What `kmalloc` requests of the buddy allocator is served with blocks of this order. -/
theorem blockOrder_request (hn : n ≤ 2 ^ 30) :
    requestedOrder (pagesFor (buddyRequest n)) 256 0 = some (blockOrder n) ∧
      blockOrder n ≤ maxOrder := by
  have hlog := requestLog_le hn
  by_cases hlarge : maxSlabOrder < requestLog n
  · have hpow : alignedBytes n = 2 ^ (requestLog n - 12) * pageSize := by
      have h12 : pageSize = 2 ^ 12 := rfl
      rw [alignedBytes_eq, h12, ← Nat.pow_add]
      congr 1
      simp only [maxSlabOrder] at hlarge
      omega
    rw [blockOrder, buddyRequest, if_pos hlarge, if_pos hlarge, hpow]
    have hle : requestLog n - 12 ≤ maxOrder := by
      simp only [maxOrder]
      omega
    exact ⟨requestedOrder_pages hle, hle⟩
  · rw [blockOrder, buddyRequest, if_neg hlarge, if_neg hlarge]
    have hle : slabBlockOrder (requestLog n) ≤ 2 := by
      simp only [slabBlockOrder, maxSlabOrder] at *
      split_ifs <;> omega
    generalize slabBlockOrder (requestLog n) = k at hle
    revert k
    decide

theorem BlockGranted.mem {b b' : Buddy} {d : Block} (hg : BlockGranted R b b' d) :
    d ∈ (pageAllocatorOf b').live :=
  hg.live ▸ Finset.mem_insert_self _ _

theorem HeapParts.fresh {L : ℕ → List ℕ} {b' : Buddy} {d : Block} {p : ℕ}
    (hp : HeapParts P kcaches S R root L h)
    (hg : BlockGranted R h.machine.buddy b' d) (hin : InBlock d p 1) : h.objects p = none := by
  by_contra hsome
  obtain ⟨k, hk⟩ := Option.ne_none_iff_exists'.mp hsome
  obtain ⟨e, he, hine, -⟩ := hp.locate hk
  have hne : e ≠ d := fun heq => hg.fresh (heq ▸ he)
  have hpos := Nat.two_pow_pos (requestLog k)
  have he' : e ∈ (pageAllocatorOf b').live := hg.live ▸ Finset.mem_insert_of_mem he
  have hapart := hine.apart hin hg.ok he' hg.mem hne
  omega

theorem HeapWalks.map_granted {ram : ℕ → ℕ → Word} (hl : HeapLayout kcaches S R)
    (ht : HeapWalks S R m.ram root) {b b' : Buddy} {q order : ℕ}
    (hg : BlockGranted R b b' ⟨q, order⟩) (hram : m.ram = ram)
    (hspares : ∀ d ∈ slabBlocks b, ∀ k < 5, ¬ StrayWord ram root q order d.base k)
    (pa flags : ℕ) :
    ∃ m', kernelMap root (pageAddr q) pa order flags root m = some m' ∧
      m'.buddy = m.buddy ∧ (∀ p k, KernelWord R b p k → m'.ram p k = m.ram p k) ∧
      ∀ p k, ¬ StrayWord m.ram root q order p k → m'.ram p k = m.ram p k := by
  obtain ⟨hq, hend⟩ := hg.ok.range hg.mem
  obtain ⟨m', hrun, hbuddy, hword⟩ := ht.map_spec hl.high hq hend pa flags
  refine ⟨m', hrun, hbuddy, fun p k hkernel => ?_, hword⟩
  apply hword
  intro hstray
  rcases hkernel with hlt | ⟨d, hd, rfl, hk⟩
  · have hle := ht.stray_managed hq hend hstray
    omega
  · exact hspares d hd k hk (hram ▸ hstray)

theorem kmalloc_large_eq (hbig : 2048 < n) (hn : n ≤ 2 ^ 30) :
    kmalloc kcaches root n m = (m.buddyAlloc (buddyRequest n)).bind fun r =>
      (kernelMap root r.1 (vaToPa r.1) (blockOrder n) mapKernel root r.2).bind fun m =>
        some (.returns r.1 m) := by
  have hlarge := (requestLog_large n).mpr hbig
  rw [kmalloc, if_neg (by simp only [maxOrder]; omega), buddyRequest, if_pos hlarge, blockOrder,
    if_pos hlarge]
  exact if_pos hlarge

theorem HeapOk.kmalloc_large (hl : HeapLayout kcaches S R) (hk : HeapOk P kcaches S R root h)
    (hbig : 2048 < n) (hn : n ≤ 2 ^ 30)
    (hserved : Spares kcaches root h (.kmalloc n)) :
    ∃ p m', kmalloc kcaches root n h.machine = some (.returns p m') ∧ p ≠ 0 ∧
      h.objects p = none ∧
      HeapOk P kcaches S R root ⟨m', Function.update h.objects p (some n)⟩ := by
  obtain ⟨L, hp, hheld⟩ := hk
  have hlarge := (requestLog_large n).mpr hbig
  obtain ⟨horder, hle⟩ := blockOrder_request hn
  obtain ⟨q, b, hrun, hq, hspares⟩ := hserved hn fun hsmall => by omega
  obtain ⟨q', hqq, hg, hstate⟩ := hp.buddy.granted horder hle hrun (pageAddr_ne_zero hq)
  have hend' := (hg.ok.range hg.mem).2
  have hpos := Nat.two_pow_pos (blockOrder n)
  obtain rfl := pageAddr_inj hq (by dsimp only at hend'; omega) hqq
  obtain ⟨m', hmap, hbuddy, hkernel, -⟩ := HeapWalks.map_granted
    (m := { h.machine with buddy := b }) hl hp.walks hg rfl hspares
    (vaToPa (pageAddr q)) mapKernel
  have hblk : blockOrder n = requestLog n - 12 := if_pos hlarge
  have hbuddy' : m'.buddy = b := hbuddy
  have hslabs : ∀ d, d ∈ slabBlocks m'.buddy ↔ d ∈ slabBlocks h.machine.buddy := by
    intro d
    rw [hbuddy', hg.mem_slabBlocks, hstate, or_iff_left]
    exact fun hcon => absurd hcon.2 (by decide)
  have hin : InBlock ⟨q, blockOrder n⟩ (pageAddr q) 1 := by
    refine ⟨le_rfl, ?_⟩
    simp only [pageSize]
    omega
  have hother : ∀ c < caches, ∀ s, OfClass L c s → ∀ i < slabTotal c,
      Function.update h.objects (pageAddr q) (some n) (slotAddr c s i) =
        h.objects (slotAddr c s i) := by
    intro c hc s hs i hi
    apply Function.update_of_ne
    intro heq
    obtain ⟨d, hd, hdorder, hsd⟩ := hp.block c hc s hs
    have hlive := (mem_slabBlocks.mp hd).1
    have hne : d ≠ ⟨q, blockOrder n⟩ := fun h => hg.fresh (h ▸ hlive)
    have hslot := (slot_inBlock hdorder hi).1
    rw [← hsd, heq] at hslot
    have hlive' : d ∈ (pageAllocatorOf b).live := hg.live ▸ Finset.mem_insert_of_mem hlive
    have hapart := hslot.apart hin hg.ok hlive' hg.mem hne
    have hsize := slotSize_pos c
    omega
  refine ⟨pageAddr q, m', ?_, pageAddr_ne_zero hq, hp.fresh hg hin, L,
    ⟨?_, ?_, ?_, hp.sorted.congr hother, ?_, ?_, ?_⟩, ?_⟩
  · have halloc : h.machine.buddyAlloc (buddyRequest n) =
        some (pageAddr q, { h.machine with buddy := b }) := by
      rw [Machine.buddyAlloc, hrun]
      rfl
    rw [kmalloc_large_eq hbig hn, halloc, Option.bind_some, hmap, Option.bind_some]
  · show BuddyOk R m'.buddy
    rw [hbuddy']
    exact hg.ok
  · exact HeapWalks.remap (m := { h.machine with buddy := b }) hp.walks hkernel
  · have hslabs' : SlabsOk P kcaches L m' h.objects := by
      refine SlabsOk.remap (m := { h.machine with buddy := b }) hl
        (hp.slabs.congr (fun _ _ _ _ => rfl) (fun _ _ _ _ _ _ => rfl) fun _ _ _ _ _ _ => rfl)
        hp.buddy (fun c hc s hs => ?_) hkernel
      obtain ⟨d, hd, -, hsd⟩ := hp.block c hc s hs
      exact ⟨d, hd, hsd⟩
    exact hslabs'.congr (fun _ _ _ _ => rfl) (fun _ _ _ _ _ _ => rfl) hother
  · intro c hc s hs
    obtain ⟨d, hd, hrest⟩ := hp.block c hc s hs
    exact ⟨d, (hslabs d).mpr hd, hrest⟩
  · intro d hd
    exact hp.listed d ((hslabs d).mp hd)
  · intro p k hobj
    show Placed L m'.buddy p k
    have hobj : Function.update h.objects (pageAddr q) (some n) p = some k := hobj
    rw [hbuddy']
    by_cases hpq : p = pageAddr q
    · rw [hpq, Function.update_self, Option.some.injEq] at hobj
      rw [← hobj]
      refine Or.inr ⟨⟨q, blockOrder n⟩, hg.mem, hstate, ?_, hpq⟩
      show requestLog n = blockOrder n + 12
      rw [hblk]
      simp only [maxSlabOrder] at hlarge
      omega
    · rw [Function.update_of_ne hpq] at hobj
      refine (hp.placed p k hobj).mono (fun _ _ _ hs _ _ => hs) fun d hd _ hs => ?_
      exact ⟨hg.live ▸ Finset.mem_insert_of_mem hd, (hg.state d hd).trans hs⟩
  · intro c hc s hs
    show (usedSlots (Function.update h.objects (pageAddr q) (some n)) c s).Nonempty
    rw [usedSlots_congr (hother c hc s hs)]
    exact hheld c hc s hs

/-- `_slab_alloc` and the header of the new slab: it is on the partial list of its class. -/
theorem HeapParts.refill {L : ℕ → List ℕ} {b : Buddy} {q : ℕ} (hl : HeapLayout kcaches S R)
    (hp : HeapParts P kcaches S R root L h) (hc : c < caches)
    (hrun : buddyAlloc (pageSize * (slabOrder c + 1)) h.machine.buddy = some (pageAddr q, b))
    (hg : BlockGranted R h.machine.buddy b ⟨q, slabOrder c⟩) (hq : q < ramPages)
    (hspares : ∀ d ∈ slabBlocks h.machine.buddy, ∀ k < 5,
      ¬ StrayWord h.machine.ram root q (slabOrder c) d.base k)
    (hclean : P → c = 0 → ∀ i < 62, (h.machine.ram q 3).getLsbD i = false) :
    ∃ m₁ m₂, slabAlloc root (slabOrder c) h.machine = some (.returns (pageAddr q) m₁) ∧
      ((initSlab (pageAddr q) (slotLog c) (slabOrder c) (slotSize c) m₁).bind fun m =>
        m.listAdd (pageAddr q) (partialSlabs kcaches c)) = some m₂ ∧
      HeapParts P kcaches S R root
        (Function.update L (2 * c + 1) (pageAddr q :: L (2 * c + 1))) ⟨m₂, h.objects⟩ ∧
      setPageOwner (pageAddr q) pageSlab b = some m₂.buddy ∧
      (∀ i < 64, Slab.bit m₂ (pageAddr q) i = false) ∧
      (c = 0 → ∀ i < 128, 64 ≤ i →
        Slab.bit m₂ (pageAddr q) i = (h.machine.ram q 3).getLsbD (i % 64)) := by
  obtain ⟨b', howner, hg', hstate⟩ := hg.setOwner
  obtain ⟨m₁, hmap, hbuddy, hkernel, hword⟩ := HeapWalks.map_granted
    (m := { h.machine with buddy := b' }) hl hp.walks hg' rfl hspares
    (vaToPa (pageAddr q)) (mapKernel ||| mapRead ||| mapWrite)
  have hbuddy' : m₁.buddy = b' := hbuddy
  obtain ⟨hqR, hqend⟩ := hg'.ok.range hg'.mem
  have hplace := hl.place hqR hq
  have hslabs₁ : SlabsOk P kcaches L m₁ h.objects := by
    refine SlabsOk.remap (m := { h.machine with buddy := b' }) hl
      (hp.slabs.congr (fun _ _ _ _ => rfl) (fun _ _ _ _ _ _ => rfl) fun _ _ _ _ _ _ => rfl)
      hp.buddy (fun c' hc' s hs => ?_) hkernel
    obtain ⟨d, hd, -, hsd⟩ := hp.block c' hc' s hs
    exact ⟨d, hd, hsd⟩
  -- the block is new, so no slab and no object lies in it
  have hold : ∀ d ∈ slabBlocks h.machine.buddy,
      d ∈ (pageAllocatorOf b').live ∧ d ≠ ⟨q, slabOrder c⟩ := by
    intro d hd
    have hlive := (mem_slabBlocks.mp hd).1
    exact ⟨hg'.live ▸ Finset.mem_insert_of_mem hlive, fun heq => hg'.fresh (heq ▸ hlive)⟩
  have hnew : ∀ c' < caches, ¬ OfClass L c' (pageAddr q) := by
    intro c' hc' hs
    obtain ⟨d, hd, -, hbase⟩ := hp.block c' hc' _ hs
    obtain ⟨hlive, hne⟩ := hold d hd
    have hrange := hg'.ok.range hlive
    have hpos := Nat.two_pow_pos d.order
    exact hne (hg'.ok.eq_of_base hlive hg'.mem (pageAddr_inj hq (by omega) hbase).symm)
  have hfree : ∀ i < slabTotal c, h.objects (slotAddr c (pageAddr q) i) = none := by
    intro i hi
    have hslot := slot_inBlock (d := ⟨q, slabOrder c⟩) rfl hi
    exact hp.fresh hg' (hslot.1.mono (slotSize_pos c))
  have hapart : ∀ i < slabTotal c, ∀ c' < caches, ∀ s', OfClass L c' s' →
      ∀ i' < slabTotal c', slotAddr c (pageAddr q) i ≠ slotAddr c' s' i' := by
    intro i hi c' hc' s' hs' i' hi' heq
    obtain ⟨d, hd, horder, hsd⟩ := hp.block c' hc' s' hs'
    obtain ⟨hlive, hne⟩ := hold d hd
    have hslot := (slot_inBlock (d := ⟨q, slabOrder c⟩) rfl hi).1
    have hslot' := (slot_inBlock horder hi').1
    rw [← hsd] at hslot'
    have hsize := slotSize_pos c
    have hsize' := slotSize_pos c'
    have hdisj := hslot.apart hslot' hg'.ok hg'.mem hlive hne.symm
    dsimp only at hdisj
    omega
  -- of a slab of one page, `map` keeps the second word of the bitmap
  have hsecond : c = 0 → ∀ i < 128, 64 ≤ i →
      Slab.bit m₁ (pageAddr q) i = (h.machine.ram q 3).getLsbD (i % 64) := by
    intro hc0 i hi h64
    have hdiv : i / 64 = 1 := by omega
    have hkept : m₁.ram q 3 = h.machine.ram q 3 := by
      apply hword
      rintro ⟨-, x, hlow, hhigh, -, hbase, hidx⟩
      have hone : slabOrder c = 0 := by
        rw [hc0]
        rfl
      rw [hone] at hhigh
      simp only [blockBase] at hbase
      omega
    rw [Slab.bit, hplace.bitmapWord (by omega), hdiv, word_pageAddr hq (by decide), hkept]
  have hclean' : P → ∀ i < slabTotal c, 64 ≤ i → Slab.bit m₁ (pageAddr q) i = false := by
    intro hP i hi h64
    have htotal := (slabTotal_bounds hc).2
    have hc0 : c = 0 := by
      by_contra hne
      have hword := slabTotal_le_word hc hne
      omega
    rw [hsecond hc0 i (by omega) h64]
    exact hclean hP hc0 _ (by omega)
  obtain ⟨m₂, hrun₂, hslabs₂, hsorted₂, honly, hclass, hfirst, hkept⟩ :=
    hslabs₁.newSlab hp.sorted hc hplace hnew hfree hapart hclean'
  have hbuddy₂ : m₂.buddy = b' := honly.buddy.trans hbuddy'
  have hslabBlocks : ∀ d, d ∈ slabBlocks m₂.buddy ↔
      d ∈ slabBlocks h.machine.buddy ∨ d = ⟨q, slabOrder c⟩ := by
    intro d
    rw [hbuddy₂, hg'.mem_slabBlocks, and_iff_left hstate]
  refine ⟨m₁, m₂, ?_, hrun₂, ⟨?_, ?_, hslabs₂, hsorted₂, ?_, ?_, ?_⟩,
    hbuddy₂ ▸ howner, hfirst, fun hc0 i hi h64 => (hkept i hi h64).trans (hsecond hc0 i hi h64)⟩
  · have halloc : h.machine.buddyAlloc (pageSize * (slabOrder c + 1)) =
        some (pageAddr q, { h.machine with buddy := b }) := by
      rw [Machine.buddyAlloc, hrun]
      rfl
    rw [slabAlloc, halloc, Option.bind_eq_bind, Option.bind_some]
    dsimp only
    rw [howner, Option.bind_eq_bind, Option.bind_some, if_neg (pageAddr_ne_zero hq), hmap]
    rfl
  · show BuddyOk R m₂.buddy
    rw [hbuddy₂]
    exact hg'.ok
  · have hwalks : HeapWalks S R m₁.ram root :=
      HeapWalks.remap (m := { h.machine with buddy := b' }) hp.walks hkernel
    refine honly.walks hl hwalks fun j hj x hx => ?_
    rcases List.mem_cons.mp hx with hxq | hx
    · exact ⟨q, hqR, hq, hxq⟩
    · rcases mem_update hx with ⟨hmem, hjc⟩ | ⟨hmem, -⟩
      · rcases List.mem_cons.mp hmem with hxq | hmem
        · exact ⟨q, hqR, hq, hxq⟩
        · exact hp.managed _ (hjc ▸ hj) x hmem
      · exact hp.managed j hj x hmem
  · intro c' hc' s hs
    rcases (hclass c' hc' s).mp hs with hs | ⟨rfl, hsq⟩
    · obtain ⟨d, hd, hrest⟩ := hp.block c' hc' s hs
      exact ⟨d, (hslabBlocks d).mpr (Or.inl hd), hrest⟩
    · exact ⟨⟨q, slabOrder c'⟩, (hslabBlocks _).mpr (Or.inr rfl), rfl, hsq⟩
  · intro d hd
    rcases (hslabBlocks d).mp hd with hd | rfl
    · obtain ⟨c', hc', hs⟩ := hp.listed d hd
      exact ⟨c', hc', (hclass c' hc' _).mpr (Or.inl hs)⟩
    · exact ⟨c, hc, (hclass c hc _).mpr (Or.inr ⟨rfl, rfl⟩)⟩
  · intro p k hobj
    show Placed _ m₂.buddy p k
    rw [hbuddy₂]
    refine (hp.placed p k hobj).mono (fun c' hc' s hs _ _ => (hclass c' hc' s).mpr (Or.inl hs))
      fun d hd _ hs => ?_
    exact ⟨hg'.live ▸ Finset.mem_insert_of_mem hd, (hg'.state d hd).trans hs⟩

theorem kmalloc_small_eq (hn : n ≤ 2 ^ 30) (hc : c < caches) (hlog : requestLog n = slotLog c) :
    kmalloc kcaches root n m = (m.readPtr (partialSlabs kcaches c)).bind fun first =>
      if first = partialSlabs kcaches c then
        (slabAlloc root (slabOrder c) m).bind fun
          | .panics m => some (.panics m)
          | .returns s m =>
              (initSlab s (slotLog c) (slabOrder c) (slotSize c) m).bind fun m =>
                (m.listAdd s (partialSlabs kcaches c)).bind (allocObject kcaches c)
      else allocObject kcaches c m := by
  have hlog' : Nat.log2 (alignedBytes n) = slotLog c := hlog
  have haligned : alignedBytes n = slotSize c := by
    rw [alignedBytes_eq, hlog, slotSize]
  have hidx : slotLog c - minSlabOrder = c := Nat.add_sub_cancel _ _
  have hsmall : ¬ maxSlabOrder < slotLog c := by
    simp only [maxSlabOrder, slotLog, caches, minSlabOrder] at *
    omega
  rw [kmalloc, if_neg (by simp only [maxOrder]; omega)]
  dsimp only
  rw [hlog', if_neg hsmall, hidx, haligned]
  rfl

/-- `kmalloc` reads the first partial slab of the class, or the list head. -/
theorem HeapParts.readPtr_partial {L : ℕ → List ℕ} (hp : HeapParts P kcaches S R root L h)
    (hc : c < caches) :
    h.machine.readPtr (partialSlabs kcaches c) =
      some ((L (2 * c + 1)).headD (partialSlabs kcaches c)) := by
  rw [partialSlabs_eq]
  apply hp.slabs.lists.readPtr_head hp.slabs.places
  simp only [cacheLists]
  omega

theorem HeapParts.kmalloc_partial {L : ℕ → List ℕ} {s : ℕ} {rest : List ℕ}
    (hp : HeapParts P kcaches S R root L h) (hn : n ≤ 2 ^ 30) (hc : c < caches)
    (hlog : requestLog n = slotLog c) (hlist : L (2 * c + 1) = s :: rest) :
    h.machine.readPtr (partialSlabs kcaches c) = some s ∧ s ≠ partialSlabs kcaches c ∧
      kmalloc kcaches root n h.machine = Rpos.allocObject kcaches c h.machine := by
  have hj : 2 * c + 1 < cacheLists := by
    simp only [cacheLists]
    omega
  have hmem : s ∈ L (2 * c + 1) := hlist ▸ List.mem_cons_self
  have hread := hp.readPtr_partial hc
  rw [hlist, List.headD_cons] at hread
  have hne : s ≠ partialSlabs kcaches c := by
    have hlt := (hp.slabs.places.slab _ hj s hmem).slab_ne hj
    rw [partialSlabs_eq]
    omega
  refine ⟨hread, hne, ?_⟩
  rw [kmalloc_small_eq hn hc hlog, hread, Option.bind_some, if_neg hne]

theorem HeapParts.kmalloc_refill {L : ℕ → List ℕ} {b : Buddy} {q : ℕ}
    (hl : HeapLayout kcaches S R) (hp : HeapParts P kcaches S R root L h) (hn : n ≤ 2 ^ 30)
    (hc : c < caches) (hlog : requestLog n = slotLog c) (hlist : L (2 * c + 1) = [])
    (hrun : buddyAlloc (pageSize * (slabOrder c + 1)) h.machine.buddy = some (pageAddr q, b))
    (hg : BlockGranted R h.machine.buddy b ⟨q, slabOrder c⟩) (hq : q < ramPages)
    (hspares : ∀ d ∈ slabBlocks h.machine.buddy, ∀ k < 5,
      ¬ StrayWord h.machine.ram root q (slabOrder c) d.base k)
    (hclean : P → c = 0 → ∀ i < 62, (h.machine.ram q 3).getLsbD i = false) :
    ∃ m, kmalloc kcaches root n h.machine = Rpos.allocObject kcaches c m ∧
      HeapParts P kcaches S R root
        (Function.update L (2 * c + 1) (pageAddr q :: L (2 * c + 1))) ⟨m, h.objects⟩ ∧
      setPageOwner (pageAddr q) pageSlab b = some m.buddy ∧
      (∀ i < 64, Slab.bit m (pageAddr q) i = false) ∧
      (c = 0 → ∀ i < 128, 64 ≤ i →
        Slab.bit m (pageAddr q) i = (h.machine.ram q 3).getLsbD (i % 64)) := by
  obtain ⟨m₁, m₂, hslab, hinit, hrest⟩ := hp.refill hl hc hrun hg hq hspares hclean
  refine ⟨m₂, ?_, hrest⟩
  have hobject : ((initSlab (pageAddr q) (slotLog c) (slabOrder c) (slotSize c) m₁).bind
      fun m => (m.listAdd (pageAddr q) (partialSlabs kcaches c)).bind
        (Rpos.allocObject kcaches c)) = Rpos.allocObject kcaches c m₂ := by
    rw [← Option.bind_assoc, hinit, Option.bind_some]
  rw [kmalloc_small_eq hn hc hlog, hp.readPtr_partial hc, hlist, List.headD_nil,
    Option.bind_some, if_pos rfl, hslab, Option.bind_some]
  exact hobject

theorem SlabsHeld.cons {L : ℕ → List ℕ} {objects : ℕ → Option ℕ} (hheld : SlabsHeld L objects)
    (j s : ℕ) :
    ∀ c < caches, ∀ s', OfClass (Function.update L j (s :: L j)) c s' → s' ≠ s →
      (usedSlots objects c s').Nonempty := by
  intro c hc s' hs' hne
  obtain ⟨i, -, rfl, hmem⟩ := hs'.list hc
  refine hheld _ hc s' (.of_list ?_)
  by_cases hij : i = j
  · subst hij
    rw [Function.update_self] at hmem
    exact (List.mem_cons.mp hmem).resolve_left hne
  · rwa [Function.update_of_ne hij] at hmem

theorem HeapOk.kmalloc_small (hl : HeapLayout kcaches S R) (hk : HeapOk P kcaches S R root h)
    (hsmall : n ≤ 2048) (hserved : Spares kcaches root h (.kmalloc n))
    (hclean : P → FindsClean kcaches h (.kmalloc n)) :
    ∃ p m', kmalloc kcaches root n h.machine = some (.returns p m') ∧
      HeapOk P kcaches S R root
        ⟨m', if p = 0 then h.objects else Function.update h.objects p (some n)⟩ ∧
      (p ≠ 0 → h.objects p = none) ∧ (P → p ≠ 0) := by
  have hk' := hk
  obtain ⟨L, hp, hheld⟩ := hk
  have hn : n ≤ 2 ^ 30 := by omega
  have hnotlarge : ¬ maxSlabOrder < requestLog n := by
    rw [requestLog_large]
    omega
  obtain ⟨c, hlog⟩ : ∃ c, requestLog n = slotLog c :=
    ⟨requestLog n - minSlabOrder, (Nat.sub_add_cancel (minSlabOrder_le n)).symm⟩
  have hc : c < caches := by
    simp only [maxSlabOrder, slotLog, caches, minSlabOrder] at *
    omega
  have hidx : requestLog n - minSlabOrder = c := by
    rw [hlog]
    exact Nat.add_sub_cancel _ _
  cases hlist : L (2 * c + 1) with
  | cons s rest =>
      obtain ⟨-, -, hkmalloc⟩ := hp.kmalloc_partial hn hc hlog hlist
      rw [hkmalloc]
      rcases HeapParts.allocObject hl hp hc hlist (fun c' hc' s' hs' _ => hheld c' hc' s' hs')
        hlog with ⟨k, m', hrun, hp0, hobj, -, hok⟩ | ⟨-, hP, hrun⟩
      · exact ⟨_, m', hrun, by rwa [if_neg hp0], fun _ => hobj, fun _ => hp0⟩
      · exact ⟨0, h.machine, hrun, by rwa [if_pos rfl], fun h0 => absurd rfl h0,
          fun hP' => absurd hP' hP⟩
  | nil =>
      have hrefills : Refills kcaches n h.machine := by
        intro _
        rw [hidx, hp.readPtr_partial hc, hlist, List.headD_nil]
      obtain ⟨horder, hle⟩ := blockOrder_request hn
      have hblk : blockOrder n = slabOrder c := by
        rw [blockOrder, if_neg hnotlarge, hlog, slabOrder]
      have hreq : buddyRequest n = pageSize * (slabOrder c + 1) := by
        rw [buddyRequest, if_neg hnotlarge, hlog, slabOrder]
      obtain ⟨q, b, hrun, hq, hspares⟩ := hserved hn hrefills
      obtain ⟨q', hqq, hg, -⟩ := hp.buddy.granted horder hle hrun (pageAddr_ne_zero hq)
      have hend := (hg.ok.range hg.mem).2
      have hpos := Nat.two_pow_pos (blockOrder n)
      obtain rfl := pageAddr_inj hq (by dsimp only at hend; omega) hqq
      rw [hreq] at hrun
      rw [hblk] at hg hspares
      have hclean' : P → c = 0 → ∀ i < 62, (h.machine.ram q 3).getLsbD i = false := by
        intro hP hc0
        have hmin : requestLog n = minSlabOrder := by
          rw [hlog, hc0]
          rfl
        obtain ⟨q', b', hrun', hq', hbits⟩ := hclean hP hmin hn hrefills
        rw [hreq, hrun, Option.some.injEq, Prod.mk.injEq] at hrun'
        obtain rfl := pageAddr_inj hq hq' hrun'.1
        exact hbits
      obtain ⟨m₂, hkmalloc, hp₂, -, hbit, -⟩ :=
        hp.kmalloc_refill hl hn hc hlog hlist hrun hg hq hspares hclean'
      have hfirst : Function.update L (2 * c + 1) (pageAddr q :: L (2 * c + 1)) (2 * c + 1) =
          pageAddr q :: L (2 * c + 1) := Function.update_self _ _ _
      rw [hkmalloc]
      rcases HeapParts.allocObject hl hp₂ hc hfirst (hheld.cons (2 * c + 1) (pageAddr q)) hlog with
        ⟨k, m', hrun', hp0, hobj, -, hok⟩ | ⟨hset, -, -⟩
      · exact ⟨_, m', hrun', by rwa [if_neg hp0], fun _ => hobj, fun _ => hp0⟩
      · have hset0 := hset 0 (slabTotal_bounds hc).1
        rw [hbit 0 (by decide)] at hset0
        exact absurd hset0 (by decide)

end Kmalloc

/-! ## §2  `kfree` -/

section Kfree

variable {P : Prop} {kcaches S R root p n : ℕ} {h : KernelHeap} {L : ℕ → List ℕ} {d : Block}

theorem alignDown_pageAddr {q : ℕ} (hq : q < ramPages) :
    alignDown (pageAddr q) = pageAddr q := by
  rw [pageAddr_eq hq, alignDown]
  simp only [pageSize, virtBase]
  omega

theorem InBlock.ne_zero (hin : InBlock d p n) {b : Buddy} (hb : BuddyOk R b)
    (hd : d ∈ (pageAllocatorOf b).live) : p ≠ 0 := by
  have hrange := hb.range hd
  have hpos := Nat.two_pow_pos d.order
  have hlow := hin.1
  rw [pageAddr_eq (by omega)] at hlow
  simp only [virtBase] at hlow
  omega

/-- `kfree` does nothing where the page of the pointer is free. -/
theorem kfree_of_free {m : Machine} (hp0 : p ≠ 0)
    (howner : getPageOwner (alignDown p) m.buddy = some pageFree) :
    kfree kcaches p m = some (.returns m) := by
  rw [kfree, if_neg hp0, howner, Option.bind_eq_bind, Option.bind_some,
    if_neg (by decide), if_neg (by decide), if_pos rfl]

theorem HeapParts.kfree_large (hl : HeapLayout kcaches S R)
    (hp : HeapParts P kcaches S R root L h) (hheld : SlabsHeld L h.objects)
    (hd : d ∈ (pageAllocatorOf h.machine.buddy).live)
    (hstate : (h.machine.buddy.frameMetadata d.base).state = pageBuddy)
    (hpd : p = pageAddr d.base) :
    ∃ m', kfree kcaches p h.machine = some (.returns m') ∧
      kfree kcaches p m' = some (.returns m') ∧
      HeapOk P kcaches S R root ⟨m', Function.update h.objects p none⟩ := by
  obtain ⟨b, hfree, hr⟩ := hp.buddy.free hl.low hd
  have hrange := hp.buddy.range hd
  have hpos := Nat.two_pow_pos d.order
  have hlt : d.base < ramPages := by omega
  have halign : alignDown p = pageAddr d.base := by
    rw [hpd, alignDown_pageAddr hlt]
  have hp0 : p ≠ 0 := hpd ▸ pageAddr_ne_zero hlt
  have hin : InBlock d p 1 := by
    rw [hpd]
    refine ⟨le_rfl, ?_⟩
    simp only [pageSize]
    omega
  have hother : ∀ c < caches, ∀ s, OfClass L c s → ∀ i < slabTotal c,
      Function.update h.objects p none (slotAddr c s i) = h.objects (slotAddr c s i) := by
    intro c hc s hs i hi
    apply Function.update_of_ne
    intro heq
    obtain ⟨e, he, horder, hse⟩ := hp.block c hc s hs
    obtain ⟨hlive, hslab⟩ := mem_slabBlocks.mp he
    have hslot := (slot_inBlock horder hi).1
    rw [← hse, heq] at hslot
    have hne : e ≠ d := by
      rintro rfl
      rw [hslab] at hstate
      exact absurd hstate (by decide)
    have hapart := hslot.apart hin hp.buddy hlive hd hne
    have hsize := slotSize_pos c
    omega
  have hagain : kfree kcaches p { h.machine with buddy := b } =
      some (.returns { h.machine with buddy := b }) := by
    apply kfree_of_free hp0
    rw [halign]
    exact hr.owner _ d.base_mem
  refine ⟨{ h.machine with buddy := b }, ?_, hagain, L,
    ⟨hr.ok, hp.walks, ?_, hp.sorted.congr hother, ?_, ?_, ?_⟩, ?_⟩
  · rw [kfree, if_neg hp0, halign, (hp.buddy.owner hd d.base_mem).1, Option.bind_eq_bind,
      Option.bind_some, hstate, if_pos rfl, hfree]
    rfl
  · exact hp.slabs.congr (fun _ _ _ _ => rfl) (fun _ _ _ _ _ _ => rfl) hother
  · intro c hc s hs
    obtain ⟨e, he, hrest⟩ := hp.block c hc s hs
    refine ⟨e, hr.mem_slabBlocks.mpr ⟨he, ?_⟩, hrest⟩
    rintro rfl
    rw [(mem_slabBlocks.mp he).2] at hstate
    exact absurd hstate (by decide)
  · intro e he
    exact hp.listed e (hr.mem_slabBlocks.mp he).1
  · intro q k hobj
    have hobj : Function.update h.objects p none q = some k := hobj
    have hqp : q ≠ p := by
      rintro rfl
      rw [Function.update_self] at hobj
      exact absurd hobj (by simp)
    rw [Function.update_of_ne hqp] at hobj
    refine (hp.placed q k hobj).mono (fun _ _ _ hs _ _ => hs) fun e he hqe hs => ?_
    have hne : e ≠ d := fun heq => hqp (by rw [hqe, hpd, heq])
    exact ⟨hr.live ▸ Finset.mem_erase.mpr ⟨hne, he⟩, (hr.state e he hne).trans hs⟩
  · intro c hc s hs
    show (usedSlots (Function.update h.objects p none) c s).Nonempty
    rw [usedSlots_congr (hother c hc s hs)]
    exact hheld c hc s hs

/-- A small object gives up its slot, and the last one of a slab the slab's block. -/
theorem HeapParts.kfree_small {c i : ℕ} (hl : HeapLayout kcaches S R)
    (hp : HeapParts P kcaches S R root L h) (hheld : SlabsHeld L h.objects)
    (hobj : (h.objects p).isSome) (hd : d ∈ (pageAllocatorOf h.machine.buddy).live)
    (hstate : (h.machine.buddy.frameMetadata d.base).state = pageSlab) (hc : c < caches)
    (hof : OfClass L c (pageAddr d.base)) (hi : i < slabTotal c)
    (hpi : p = slotAddr c (pageAddr d.base) i) (hin : InBlock d p n) (hn : 0 < n) :
    ∃ m', kfree kcaches p h.machine = some (.returns m') ∧
      kfree kcaches p m' = some (.returns m') ∧
      HeapOk P kcaches S R root ⟨m', Function.update h.objects p none⟩ := by
  obtain ⟨x, hx, halign⟩ := hin.page hn hp.buddy hd
  obtain ⟨howner, hhead⟩ := hp.buddy.owner hd hx
  rw [← halign] at howner hhead
  have hused : i ∈ usedSlots h.objects c (pageAddr d.base) :=
    mem_usedSlots.mpr ⟨hi, hpi ▸ hobj⟩
  have hp0 := hin.ne_zero hp.buddy hd
  have hstart : ∀ m : Machine, m.buddy = h.machine.buddy → kfree kcaches p m =
      (slabFree kcaches p m).bind fun m => some (.returns m) := by
    intro m hm
    rw [kfree, if_neg hp0, hm, howner, Option.bind_eq_bind, Option.bind_some, hstate,
      if_neg (by decide), if_pos rfl]
    rfl
  have hmanaged : ∀ j < cacheLists, ∀ x ∈ pageAddr d.base :: L j,
      ∃ q, R ≤ q ∧ q < ramPages ∧ x = pageAddr q := by
    intro j hj x hx
    rcases List.mem_cons.mp hx with hxd | hx
    · have hrange := hp.buddy.range hd
      have hpos := Nat.two_pow_pos d.order
      exact ⟨d.base, hrange.1, by omega, hxd⟩
    · exact hp.managed j hj x hx
  have hother : ∀ {c' s'}, c' < caches → OfClass L c' s' → s' ≠ pageAddr d.base →
      usedSlots (Function.update h.objects p none) c' s' = usedSlots h.objects c' s' := by
    intro c' s' hc' hs' hne
    rw [hpi]
    exact hp.slabs.usedSlots_other hc hof hi hc' hs' hne
  have hothers : ∀ {q k}, Function.update h.objects p none q = some k →
      q ≠ p ∧ h.objects q = some k := by
    intro q k hobj
    have hqp : q ≠ p := by
      rintro rfl
      rw [Function.update_self] at hobj
      exact absurd hobj (by simp)
    rw [Function.update_of_ne hqp] at hobj
    exact ⟨hqp, hobj⟩
  obtain ⟨m', L', hslabs', hsorted', honly, hcase⟩ :=
    hp.slabs.slabFree hp.sorted hc hof hused (hpi ▸ hhead)
  rw [← hpi] at hslabs' hsorted' hcase
  have hwalks := honly.walks hl hp.walks hmanaged
  rw [hstart h.machine rfl]
  rcases hcase with ⟨hcard, hsame, hclear, hrun⟩ | ⟨hcard, hclass, hrun⟩
  · have hof' := (hsame c hc _).mpr hof
    have hagain : slabFree kcaches p m' = some m' := by
      have hhead' := hhead
      rw [← honly.buddy, hpi] at hhead'
      have horder := (hslabs'.slab c hc _ hof').order
      rw [hpi, slabFree_eq (hof.place hc hp.slabs.places) hc hi hhead' horder, hclear,
        if_neg (by decide)]
    refine ⟨m', by rw [hrun, Option.bind_some],
      by rw [hstart m' honly.buddy, hagain, Option.bind_some], L',
      ⟨?_, hwalks, hslabs', hsorted', ?_, ?_, ?_⟩, ?_⟩
    · show BuddyOk R m'.buddy
      rw [honly.buddy]
      exact hp.buddy
    · intro c' hc' s' hs'
      show ∃ e ∈ slabBlocks m'.buddy, _
      rw [honly.buddy]
      exact hp.block c' hc' s' ((hsame c' hc' s').mp hs')
    · intro e he
      have he' : e ∈ slabBlocks h.machine.buddy := honly.buddy ▸ he
      obtain ⟨c', hc', hs'⟩ := hp.listed e he'
      exact ⟨c', hc', (hsame c' hc' _).mpr hs'⟩
    · intro q k hobj
      show Placed L' m'.buddy q k
      rw [honly.buddy]
      exact (hp.placed q k (hothers hobj).2).mono
        (fun c' hc' s' hs' _ _ => (hsame c' hc' s').mpr hs') fun e he _ hs => ⟨he, hs⟩
    · intro c' hc' s' hs'
      have hs'' := (hsame c' hc' s').mp hs'
      show (usedSlots (Function.update h.objects p none) c' s').Nonempty
      by_cases hss : s' = pageAddr d.base
      · rw [hss] at hs'' ⊢
        obtain rfl := hp.slabs.lists.class_unique hc hc' hof hs''
        rw [hpi, usedSlots_erase, ← Finset.card_pos, Finset.card_erase_of_mem hused]
        omega
      · rw [hother hc' hs'' hss]
        exact hheld c' hc' s' hs''
  · -- the slab is empty, and its block goes back
    obtain ⟨b, hfree, hr⟩ := hp.buddy.free hl.low hd
    rw [hfree, Option.map_some] at hrun
    have hagain : kfree kcaches p { m' with buddy := b } =
        some (.returns { m' with buddy := b }) := by
      apply kfree_of_free hp0
      rw [halign]
      exact hr.owner x hx
    refine ⟨{ m' with buddy := b }, by rw [hrun, Option.bind_some], hagain, L',
      ⟨hr.ok, hwalks, ?_, hsorted', ?_, ?_, ?_⟩, ?_⟩
    · exact hslabs'.congr (fun _ _ _ _ => rfl) (fun _ _ _ _ _ _ => rfl) fun _ _ _ _ _ _ => rfl
    · intro c' hc' s' hs'
      obtain ⟨hs'', hne⟩ := (hclass c' hc' s').mp hs'
      obtain ⟨e, he, horder, hse⟩ := hp.block c' hc' s' hs''
      refine ⟨e, hr.mem_slabBlocks.mpr ⟨he, ?_⟩, horder, hse⟩
      rintro rfl
      exact hne hse
    · intro e he
      obtain ⟨he, hne⟩ := hr.mem_slabBlocks.mp he
      obtain ⟨c', hc', hs'⟩ := hp.listed e he
      refine ⟨c', hc', (hclass c' hc' _).mpr ⟨hs', fun heq => hne ?_⟩⟩
      have hlive := (mem_slabBlocks.mp he).1
      have h1 := hp.buddy.range hlive
      have h2 := hp.buddy.range hd
      have h3 := Nat.two_pow_pos e.order
      have h4 := Nat.two_pow_pos d.order
      exact hp.buddy.eq_of_base hlive hd (pageAddr_inj (by omega) (by omega) heq)
    · intro q k hobj
      obtain ⟨hqp, hobj⟩ := hothers hobj
      refine (hp.placed q k hobj).mono (fun c' hc' s' hs' _ hslot => ?_) fun e he _ hs => ?_
      · refine (hclass c' hc' s').mpr ⟨hs', fun hss => ?_⟩
        -- the freed object was the only one of its slab
        obtain ⟨i', hi', hqi⟩ := hslot
        rw [hss] at hs' hqi
        obtain rfl := hp.slabs.lists.class_unique hc hc' hof hs'
        have hused' : i' ∈ usedSlots h.objects c (pageAddr d.base) :=
          mem_usedSlots.mpr ⟨hi', by rw [← hqi, hobj]; rfl⟩
        have hii := Finset.card_le_one.mp hcard.le i' hused' i hused
        exact hqp (by rw [hqi, hpi, hii])
      · have hne : e ≠ d := by
          rintro rfl
          rw [hstate] at hs
          exact absurd hs (by decide)
        exact ⟨hr.live ▸ Finset.mem_erase.mpr ⟨hne, he⟩, (hr.state e he hne).trans hs⟩
    · intro c' hc' s' hs'
      obtain ⟨hs'', hne⟩ := (hclass c' hc' s').mp hs'
      show (usedSlots (Function.update h.objects p none) c' s').Nonempty
      rw [hother hc' hs'' hne]
      exact hheld c' hc' s' hs''

theorem HeapOk.kfree (hl : HeapLayout kcaches S R) (hk : HeapOk P kcaches S R root h)
    (hobj : (h.objects p).isSome) :
    ∃ m', Rpos.kfree kcaches p h.machine = some (.returns m') ∧
      Rpos.kfree kcaches p m' = some (.returns m') ∧
      HeapOk P kcaches S R root ⟨m', Function.update h.objects p none⟩ := by
  obtain ⟨L, hp, hheld⟩ := hk
  obtain ⟨n, hn⟩ := Option.isSome_iff_exists.mp hobj
  obtain ⟨d, hd, hin, ⟨hstate, -, c, hc, -, hof, i, hi, hpi⟩ | ⟨hstate, -, hpd, -⟩⟩ :=
    hp.locate hn
  · exact hp.kfree_small hl hheld hobj hd hstate hc hof hi hpi hin (Nat.two_pow_pos _)
  · exact hp.kfree_large hl hheld hd hstate hpd

/-- A second `kfree` of an object finds its bit clear or its page free. -/
theorem HeapOk.freed_once (hl : HeapLayout kcaches S R) (hk : HeapOk P kcaches S R root h) :
    KfreeIdempotent kcaches h := by
  intro p hobj
  obtain ⟨m', hrun, hagain, -⟩ := hk.kfree hl hobj
  exact ⟨m', hrun, hagain⟩

end Kfree

end Rpos
