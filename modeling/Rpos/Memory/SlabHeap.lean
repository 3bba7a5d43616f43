import Rpos.Memory.Kfree

/-!
# Slabs and their objects

What RAM holds of the kernel's heap, given the objects that are live: each slab is on the
list of its class that it belongs on, and its header counts and marks its objects. The
steps of `kmalloc` and `kfree` on a slab keep this.
-/

namespace Rpos

open Base

/-! ## §1  Headers -/

def usedSlots (objects : ℕ → Option ℕ) (c s : ℕ) : Finset ℕ :=
  (Finset.range (slabTotal c)).filter fun i => (objects (slotAddr c s i)).isSome

/-- The header of the slab of class `c` at `s` counts its objects and marks their slots.
Under `P` it marks no others. -/
structure SlabAt (P : Prop) (m : Machine) (objects : ℕ → Option ℕ) (c s : ℕ) : Prop where
  order : Slab.orderOf m s = slotLog c
  total : Slab.totalOf m s = slabTotal c
  inuse : Slab.inuseOf m s = (usedSlots objects c s).card
  marked : ∀ i ∈ usedSlots objects c s, Slab.bit m s i = true
  exact : P → ∀ i < slabTotal c, Slab.bit m s i = true → i ∈ usedSlots objects c s

/-- The first clear bit of the bitmap, that of slot `k`, has been set. -/
structure SlotTaken (m m' : Machine) (s k : ℕ) : Prop where
  buddy : m'.buddy = m.buddy
  first : ∀ j < k, Slab.bit m s j = true
  bits : ∀ i < 128, Slab.bit m' s i = (decide (i = k) || Slab.bit m s i)

section Headers

variable {P : Prop} {kcaches c s i k n : ℕ} {m m' : Machine} {objects objects' : ℕ → Option ℕ}

theorem mem_usedSlots :
    i ∈ usedSlots objects c s ↔ i < slabTotal c ∧ (objects (slotAddr c s i)).isSome := by
  rw [usedSlots, Finset.mem_filter, Finset.mem_range]

theorem card_usedSlots_le : (usedSlots objects c s).card ≤ slabTotal c := by
  apply (Finset.card_filter_le _ _).trans
  rw [Finset.card_range]

theorem usedSlots_congr
    (h : ∀ i < slabTotal c, objects' (slotAddr c s i) = objects (slotAddr c s i)) :
    usedSlots objects' c s = usedSlots objects c s := by
  ext i
  rw [mem_usedSlots, mem_usedSlots]
  refine and_congr_right fun hi => ?_
  rw [h i hi]

theorem usedSlots_insert (hk : k < slabTotal c) (n : ℕ) :
    usedSlots (Function.update objects (slotAddr c s k) (some n)) c s =
      insert k (usedSlots objects c s) := by
  ext i
  rw [Finset.mem_insert, mem_usedSlots, mem_usedSlots]
  by_cases hik : i = k
  · subst hik
    simp [hk]
  · rw [Function.update_of_ne fun h => hik (slotAddr_inj h)]
    simp [hik]

theorem usedSlots_erase (k : ℕ) :
    usedSlots (Function.update objects (slotAddr c s k) none) c s =
      (usedSlots objects c s).erase k := by
  ext i
  rw [Finset.mem_erase, mem_usedSlots, mem_usedSlots]
  by_cases hik : i = k
  · subst hik
    simp
  · rw [Function.update_of_ne fun h => hik (slotAddr_inj h)]
    simp [hik]

/-- What a header says depends on its three last words only. -/
theorem SlabAt.congr (h : SlabAt P m objects c s) (hs : SlabPlace kcaches s) (hc : c < caches)
    (hwords : ∀ k, 2 ≤ k → k < 5 → m'.word (s + 8 * k) = m.word (s + 8 * k))
    (hused : usedSlots objects' c s = usedSlots objects c s) : SlabAt P m' objects' c s := by
  have hcounts : m'.word (Slab.countsWord s) = m.word (Slab.countsWord s) :=
    hwords 4 (by decide) (by decide)
  have htotal := (slabTotal_bounds hc).2
  have hbit : ∀ i < slabTotal c, Slab.bit m' s i = Slab.bit m s i := by
    intro i hi
    rw [Slab.bit, Slab.bit, hs.bitmapWord (by omega), hwords _ (by omega) (by omega)]
  refine ⟨?_, ?_, ?_, fun i hi => ?_, fun hP i hi hset => ?_⟩
  · rw [Slab.orderOf, hcounts]
    exact h.order
  · rw [Slab.totalOf, hcounts]
    exact h.total
  · rw [Slab.inuseOf, hcounts, hused]
    exact h.inuse
  · rw [hused] at hi
    rw [hbit i (mem_usedSlots.mp hi).1]
    exact h.marked i hi
  · rw [hused]
    exact h.exact hP i hi (hbit i hi ▸ hset)

theorem SlabPlace.takeSlot_get (hs : SlabPlace kcaches s) (hk : k < 128) (m : Machine)
    (hlt : Slab.inuseOf m s + 1 < 2 ^ 16) :
    Slab.inuseOf (m.takeSlot s k) s = Slab.inuseOf m s + 1 ∧
      Slab.totalOf (m.takeSlot s k) s = Slab.totalOf m s ∧
      Slab.orderOf (m.takeSlot s k) s = Slab.orderOf m s ∧
      ∀ i < 128, Slab.bit (m.takeSlot s k) s i = (decide (i = k) || Slab.bit m s i) := by
  have hne : ∀ i < 128, Slab.bitmapWord s i ≠ Slab.countsWord s := fun _ => hs.bitmapWord_ne
  have hcounts : (m.markSlot s k).word (Slab.countsWord s) = m.word (Slab.countsWord s) :=
    hs.markSlot_word (by omega) hs.counts_inRam (hne k hk).symm m
  have hinuse : Slab.inuseOf (m.markSlot s k) s = Slab.inuseOf m s := by
    rw [Slab.inuseOf, hcounts, Slab.inuseOf]
  obtain ⟨h1, h2, h3⟩ := hs.setInuse_get (m.markSlot s k) (Slab.inuseOf (m.markSlot s k) s + 1)
  rw [hinuse] at h1 h2 h3
  rw [Machine.takeSlot, hinuse]
  refine ⟨?_, ?_, ?_, fun i hi => ?_⟩
  · rw [h1, Nat.mod_eq_of_lt hlt]
  · rw [h2, Slab.totalOf, hcounts, Slab.totalOf]
  · rw [h3, Slab.orderOf, hcounts, Slab.orderOf]
  · rw [Slab.bit, hs.setInuse_word (hs.bitmap_inRam (by omega)) (hne i hi), ← Slab.bit,
      hs.markSlot_bit (by omega) (by omega)]

/-- `_addr_from_slab` on a slab with a slot to spare: the object gets a slot, and the header
says so. It finds none only where the bitmap marks slots without objects. -/
theorem SlabAt.addrFromSlab (h : SlabAt P m objects c s) (hs : SlabPlace kcaches s)
    (hc : c < caches) (hroom : (usedSlots objects c s).card < slabTotal c) (n : ℕ) :
    (∃ k < slabTotal c, k ∉ usedSlots objects c s ∧
      addrFromSlab s m = some (slotAddr c s k, m.takeSlot s k) ∧
      SlabAt P (m.takeSlot s k) (Function.update objects (slotAddr c s k) (some n)) c s ∧
      Slab.inuseOf (m.takeSlot s k) s = (usedSlots objects c s).card + 1 ∧
      SlotTaken m (m.takeSlot s k) s k) ∨
    (∀ j < slabTotal c, Slab.bit m s j = true) ∧ ¬ P ∧ addrFromSlab s m = some (0, m) := by
  have htotal := (slabTotal_bounds hc).2
  by_cases hclear : ∃ k, k < slabTotal c ∧ Slab.bit m s k = false
  swap
  · -- the bitmap is full, though not all slots are used
    right
    have hset : ∀ j < slabTotal c, Slab.bit m s j = true := by
      intro j hj
      by_contra hbit
      exact hclear ⟨j, hj, eq_false_of_ne_true hbit⟩
    refine ⟨hset, ?_, ?_⟩
    · intro hP
      have hall : Finset.range (slabTotal c) ⊆ usedSlots objects c s := by
        intro j hj
        have hj := Finset.mem_range.mp hj
        exact h.exact hP j hj (hset j hj)
      have hcard := Finset.card_le_card hall
      rw [Finset.card_range] at hcard
      omega
    · rw [addrFromSlab_eq hs, h.total]
      exact slabBitLoop_full hs _ 0 (by omega) fun j _ hj => hset j (by omega)
  left
  obtain ⟨hk, hbit⟩ := Nat.find_spec hclear
  have hfirst : ∀ j < Nat.find hclear, Slab.bit m s j = true := by
    intro j hj
    have hmin := Nat.find_min hclear hj
    by_contra hne
    exact hmin ⟨by omega, eq_false_of_ne_true hne⟩
  generalize Nat.find hclear = k at hk hbit hfirst
  have hnew : k ∉ usedSlots objects c s := by
    intro hmem
    rw [h.marked k hmem] at hbit
    exact absurd hbit (by decide)
  have hinuse := h.inuse
  obtain ⟨h1, h2, h3, h4⟩ := hs.takeSlot_get (k := k) (by omega) m (by omega)
  have hinsert : usedSlots (Function.update objects (slotAddr c s k) (some n)) c s =
      insert k (usedSlots objects c s) := usedSlots_insert hk n
  refine ⟨k, hk, hnew, ?_, ⟨h3.trans h.order, h2.trans h.total, ?_, fun i hi => ?_,
    fun hP i hi hset => ?_⟩, by rw [h1, hinuse], rfl, hfirst, h4⟩
  · rw [addrFromSlab_eq hs, h.total, slabBitLoop_found hs _ 0 (by omega) (Nat.zero_le k)
      (by omega) (fun j _ => hfirst j) hbit, h3, h.order, itemSize_slotLog hc, ← slotStart,
      ← slotAddr, Nat.mod_eq_of_lt]
    have hend := slot_end hk
    have hsize := Nat.pow_le_pow_right (by decide : 0 < 2) (slabOrder_le hc)
    have hhigh := hs.inRam.high
    simp only [slotAddr, virtBase, pageSize] at *
    omega
  · rw [h1, hinsert, Finset.card_insert_of_notMem hnew, hinuse]
  · rw [hinsert, Finset.mem_insert] at hi
    rcases hi with rfl | hi
    · rw [h4 i (by omega), decide_eq_true rfl, Bool.true_or]
    · have hlt := (mem_usedSlots.mp hi).1
      rw [h4 i (by omega), h.marked i hi, Bool.or_true]
  · rw [hinsert, Finset.mem_insert]
    rw [h4 i (by omega), Bool.or_eq_true, decide_eq_true_eq] at hset
    exact hset.imp_right fun hset => h.exact hP i hi hset

theorem SlabAt.clear (h : SlabAt P m objects c s) (hc : c < caches)
    (hk : k ∈ usedSlots objects c s)
    (horder : Slab.orderOf m' s = Slab.orderOf m s)
    (htotal : Slab.totalOf m' s = Slab.totalOf m s)
    (hinuse : Slab.inuseOf m' s = Slab.inuseOf m s - 1)
    (hbit : ∀ i < 128, Slab.bit m' s i = (decide (i ≠ k) && Slab.bit m s i)) :
    SlabAt P m' (Function.update objects (slotAddr c s k) none) c s := by
  have hbound := (slabTotal_bounds hc).2
  have herase : usedSlots (Function.update objects (slotAddr c s k) none) c s =
      (usedSlots objects c s).erase k := usedSlots_erase k
  refine ⟨horder.trans h.order, htotal.trans h.total, ?_, fun i hi => ?_,
    fun hP i hi hset => ?_⟩
  · rw [hinuse, h.inuse, herase, Finset.card_erase_of_mem hk]
  · rw [herase, Finset.mem_erase] at hi
    have hlt := (mem_usedSlots.mp hi.2).1
    rw [hbit i (by omega), decide_eq_true hi.1, h.marked i hi.2, Bool.true_and]
  · rw [hbit i (by omega), Bool.and_eq_true, decide_eq_true_eq] at hset
    rw [herase, Finset.mem_erase]
    exact ⟨hset.1, h.exact hP i hi hset.2⟩

end Headers

/-! ## §2  Slabs on the lists -/

def OfClass (L : ℕ → List ℕ) (c s : ℕ) : Prop := s ∈ L (2 * c) ∨ s ∈ L (2 * c + 1)

def SameSlabs (L L' : ℕ → List ℕ) : Prop := ∀ c < caches, ∀ s, OfClass L' c s ↔ OfClass L c s

def SlabsSorted (L : ℕ → List ℕ) (objects : ℕ → Option ℕ) : Prop :=
  ∀ c < caches, ∀ s, OfClass L c s →
    (s ∈ L (2 * c + 1) ↔ (usedSlots objects c s).card < slabTotal c)

def SlotsApart (L : ℕ → List ℕ) : Prop :=
  ∀ c < caches, ∀ s, OfClass L c s → ∀ i < slabTotal c,
    ∀ c' < caches, ∀ s', OfClass L c' s' → ∀ i' < slabTotal c',
      slotAddr c s i = slotAddr c' s' i' → s = s'

/-- RAM holds the lists `L` of slabs, with headers for the objects. -/
structure SlabsOk (P : Prop) (kcaches : ℕ) (L : ℕ → List ℕ) (m : Machine)
    (objects : ℕ → Option ℕ) : Prop where
  places : ListPlaces kcaches L
  lists : HoldsLists kcaches L m
  slab : ∀ c < caches, ∀ s, OfClass L c s → SlabAt P m objects c s
  apart : SlotsApart L

structure OnlySlab (kcaches : ℕ) (L : ℕ → List ℕ) (s : ℕ) (m m' : Machine) : Prop where
  buddy : m'.buddy = m.buddy
  word : ∀ w, InRam w → (∀ a ∈ heapNodes kcaches L, w ≠ a ∧ w ≠ a + 8) →
    (∀ k, 2 ≤ k → k < 5 → w ≠ s + 8 * k) → m'.word w = m.word w

section Lists

variable {P : Prop} {kcaches c c' s s' i j k n a w : ℕ} {m m' m'' : Machine}
  {objects objects' : ℕ → Option ℕ} {L L' : ℕ → List ℕ}

theorem OfClass.list (h : OfClass L c s) (hc : c < caches) :
    ∃ j < cacheLists, j / 2 = c ∧ s ∈ L j := by
  rcases h with h | h
  · exact ⟨2 * c, by simp only [cacheLists]; omega, by omega, h⟩
  · exact ⟨2 * c + 1, by simp only [cacheLists]; omega, by omega, h⟩

theorem OfClass.of_list (hj : s ∈ L j) : OfClass L (j / 2) s := by
  rcases Nat.mod_two_eq_zero_or_one j with h | h
  · left
    rwa [show 2 * (j / 2) = j by omega]
  · right
    rwa [show 2 * (j / 2) + 1 = j by omega]

theorem OfClass.place (h : OfClass L c s) (hc : c < caches) (hL : ListPlaces kcaches L) :
    SlabPlace kcaches s := by
  obtain ⟨j, hj, -, hs⟩ := h.list hc
  exact hL.slab j hj s hs

theorem HoldsLists.class_unique (h : HoldsLists kcaches L m) (hc : c < caches)
    (hc' : c' < caches) (hs : OfClass L c s) (hs' : OfClass L c' s) : c = c' := by
  obtain ⟨j, hj, rfl, hmem⟩ := hs.list hc
  obtain ⟨j', hj', rfl, hmem'⟩ := hs'.list hc'
  rw [h.unique hj hj' hmem hmem']

theorem SlabPlace.word_ne (hs : SlabPlace kcaches s) (hs' : SlabPlace kcaches s')
    (hne : s' ≠ s) {k' : ℕ} (hk : k < 512) (hk' : k' < 512) : s' + 8 * k' ≠ s + 8 * k := by
  have h := hs.aligned
  have h' := hs'.aligned
  simp only [pageSize] at h h'
  omega

/-- The words of a slab behind its `list` node are no words of nodes. -/
theorem ListPlaces.word_ne_node (hL : ListPlaces kcaches L) (hs : SlabPlace kcaches s)
    (hk : 2 ≤ k) (hk' : k < 512) (ha : a ∈ heapNodes kcaches L) :
    s + 8 * k ≠ a ∧ s + 8 * k ≠ a + 8 := by
  obtain ⟨j, hj, ha⟩ := ha
  rcases List.mem_cons.mp ha with rfl | ha
  · have hlt := hs.slab_ne hj
    omega
  · have h := hs.aligned
    have h' := (hL.slab j hj a ha).aligned
    simp only [pageSize] at h h'
    omega

theorem OnlySlab.of_nodes (h : OnlyNodes (heapNodes kcaches L) m m') :
    OnlySlab kcaches L s m m' :=
  ⟨h.buddy, fun w hw hnode _ => h.word w hw hnode⟩

theorem OnlySlab.trans (h : OnlySlab kcaches L s m m') (h' : OnlySlab kcaches L s m' m'') :
    OnlySlab kcaches L s m m'' :=
  ⟨h'.buddy.trans h.buddy, fun w hw hnode hhead =>
    (h'.word w hw hnode hhead).trans (h.word w hw hnode hhead)⟩

theorem OnlySlab.takeSlot (hs : SlabPlace kcaches s) (hk : k < 128) (m : Machine) :
    OnlySlab kcaches L s m (m.takeSlot s k) := by
  refine ⟨rfl, fun w hw _ hhead => ?_⟩
  have hcounts : w ≠ Slab.countsWord s := hhead 4 (by decide) (by decide)
  have hbits : w ≠ Slab.bitmapWord s k := by
    rw [hs.bitmapWord (by omega)]
    exact hhead _ (by omega) (by omega)
  rw [Machine.takeSlot, hs.setInuse_word hw hcounts, hs.markSlot_word (by omega) hw hbits]

theorem OnlySlab.unmarkSlot (hs : SlabPlace kcaches s) (hk : k < 128) (m : Machine) :
    OnlySlab kcaches L s m (m.unmarkSlot s k) := by
  refine ⟨rfl, fun w hw _ hhead => ?_⟩
  apply hs.unmarkSlot_word (by omega) hw
  rw [hs.bitmapWord (by omega)]
  exact hhead _ (by omega) (by omega)

theorem OnlySlab.lessInuse (hs : SlabPlace kcaches s) (m : Machine) :
    OnlySlab kcaches L s m (m.lessInuse s) := by
  refine ⟨rfl, fun w hw _ hhead => ?_⟩
  rw [Machine.lessInuse_eq]
  exact hs.setInuse_word hw (hhead 4 (by decide) (by decide)) _ _

/-- Where the header of a slab has changed, the lists have not. -/
theorem HoldsLists.keep (h : HoldsLists kcaches L m) (hL : ListPlaces kcaches L)
    (hs : SlabPlace kcaches s)
    (hword : ∀ w, InRam w → (∀ k, 2 ≤ k → k < 5 → w ≠ s + 8 * k) → m'.word w = m.word w) :
    HoldsLists kcaches L m' := by
  refine h.congr fun a ha => ⟨?_, ?_⟩
  · refine hword a (hL.nodeWords.next a ha) fun k hk hk' heq => ?_
    exact (hL.word_ne_node hs hk (by omega) ha).1 heq.symm
  · refine hword _ (hL.nodeWords.prev a ha) fun k hk hk' heq => ?_
    exact (hL.word_ne_node hs hk (by omega) ha).2 heq.symm

/-- One slab has an object more or less, and may have gone to another list of its class. -/
theorem SlabsOk.change (h : SlabsOk P kcaches L m objects) (hc : c < caches)
    (hs : OfClass L c s) (hi : i < slabTotal c) {x : Option ℕ}
    (hplaces : ListPlaces kcaches L') (hlists : HoldsLists kcaches L' m')
    (hsame : SameSlabs L L') (honly : OnlySlab kcaches L s m m')
    (hslab : SlabAt P m' (Function.update objects (slotAddr c s i) x) c s) :
    SlabsOk P kcaches L' m' (Function.update objects (slotAddr c s i) x) := by
  have hplace := hs.place hc h.places
  refine ⟨hplaces, hlists, fun c' hc' s' hs' => ?_, ?_⟩
  · have hold := (hsame c' hc' s').mp hs'
    by_cases hss : s' = s
    · subst hss
      rwa [← h.lists.class_unique hc hc' hs hold]
    have hplace' := hold.place hc' h.places
    apply (h.slab c' hc' s' hold).congr hplace' hc'
    · intro k hk hk'
      apply honly.word _ (hplace'.word (by omega))
      · exact fun a ha => h.places.word_ne_node hplace' hk (by omega) ha
      · exact fun k' hk₁ hk₂ => hplace.word_ne hplace' hss (by omega) (by omega)
    · apply usedSlots_congr
      intro i' hi'
      apply Function.update_of_ne
      intro heq
      exact hss (h.apart c' hc' s' hold i' hi' c hc s hs i hi heq)
  · intro c₁ hc₁ s₁ hs₁ i₁ hi₁ c₂ hc₂ s₂ hs₂
    exact h.apart c₁ hc₁ s₁ ((hsame c₁ hc₁ s₁).mp hs₁) i₁ hi₁ c₂ hc₂ s₂
      ((hsame c₂ hc₂ s₂).mp hs₂)

/-- The slabs depend on the array of the caches, their headers and the objects in their
slots. -/
theorem SlabsOk.congr (h : SlabsOk P kcaches L m objects)
    (hcaches : ∀ w, InRam w → kcaches ≤ w → w < kcaches + 224 → m'.word w = m.word w)
    (hheads : ∀ c < caches, ∀ s, OfClass L c s → ∀ k < 5,
      m'.word (s + 8 * k) = m.word (s + 8 * k))
    (hobjects : ∀ c < caches, ∀ s, OfClass L c s → ∀ i < slabTotal c,
      objects' (slotAddr c s i) = objects (slotAddr c s i)) :
    SlabsOk P kcaches L m' objects' := by
  refine ⟨h.places, h.lists.congr fun a ha => ?_, fun c hc s hs => ?_, h.apart⟩
  · obtain ⟨j, hj, ha'⟩ := ha
    rcases List.mem_cons.mp ha' with rfl | hmem
    · have hnode : cacheHead kcaches j ∈ heapNodes kcaches L := head_mem_heapNodes L hj
      have hnext := h.places.nodeWords.next _ hnode
      have hprev := h.places.nodeWords.prev _ hnode
      simp only [cacheHead, cacheLists, caches] at *
      exact ⟨hcaches _ hnext (by omega) (by omega), hcaches _ hprev (by omega) (by omega)⟩
    · have hc : j / 2 < caches := by
        simp only [cacheLists] at hj
        omega
      have hof : OfClass L (j / 2) a := .of_list hmem
      exact ⟨hheads _ hc a hof 0 (by decide), hheads _ hc a hof 1 (by decide)⟩
  · exact (h.slab c hc s hs).congr (hs.place hc h.places) hc
      (fun k _ hk => hheads c hc s hs k hk) (usedSlots_congr (hobjects c hc s hs))

theorem SlabsSorted.congr (h : SlabsSorted L objects)
    (hobjects : ∀ c < caches, ∀ s, OfClass L c s → ∀ i < slabTotal c,
      objects' (slotAddr c s i) = objects (slotAddr c s i)) :
    SlabsSorted L objects' := by
  intro c hc s hs
  rw [usedSlots_congr (hobjects c hc s hs)]
  exact h c hc s hs

theorem SlabsOk.usedSlots_other (h : SlabsOk P kcaches L m objects) (hc : c < caches)
    (hs : OfClass L c s) (hi : i < slabTotal c) {x : Option ℕ} (hc' : c' < caches)
    (hs' : OfClass L c' s') (hne : s' ≠ s) :
    usedSlots (Function.update objects (slotAddr c s i) x) c' s' = usedSlots objects c' s' := by
  apply usedSlots_congr
  intro i' hi'
  apply Function.update_of_ne
  intro heq
  exact hne (h.apart c' hc' s' hs' i' hi' c hc s hs i hi heq)

/-- After a move the slab is on the list that it went to, and the others are where they
were. -/
theorem mem_moved_iff (hlists : HoldsLists kcaches L m) (hj : j < cacheLists)
    (hs : s ∈ L j) {j' i x : ℕ} (hne : j ≠ j') (hi : i < cacheLists) :
    x ∈ moved L j j' s i ↔ if x = s then i = j' else x ∈ L i := by
  have hnodup := (hlists.ring j hj).members_nodup
  by_cases hx : x = s
  · subst hx
    rw [if_pos rfl]
    constructor
    · intro hmem
      by_contra hij
      rw [moved, Function.update_of_ne hij] at hmem
      rcases mem_update hmem with ⟨hmem, rfl⟩ | ⟨hmem, hij'⟩
      · exact (hnodup.mem_erase_iff.mp hmem).1 rfl
      · exact hij' (hlists.unique hi hj hmem hs)
    · rintro rfl
      rw [moved, Function.update_self]
      exact List.mem_cons_self
  · rw [if_neg hx, moved]
    by_cases hij' : i = j'
    · subst hij'
      rw [Function.update_self, List.mem_cons, or_iff_right hx]
    · rw [Function.update_of_ne hij']
      by_cases hij : i = j
      · subst hij
        rw [Function.update_self, List.mem_erase_of_ne hx]
      · rw [Function.update_of_ne hij]

theorem sameSlabs_moved (hlists : HoldsLists kcaches L m) (hj : j < cacheLists) (hs : s ∈ L j)
    {j' : ℕ} (hne : j ≠ j') (hclass : j' / 2 = j / 2) :
    SameSlabs L (moved L j j' s) := by
  intro c hc x
  have hlist := fun i hi => mem_moved_iff (x := x) (i := i) hlists hj hs hne hi
  simp only [cacheLists] at *
  rw [OfClass, OfClass, hlist _ (by omega), hlist _ (by omega)]
  by_cases hx : x = s
  · subst hx
    simp only [if_true]
    have hone : ∀ i < cacheLists, x ∈ L i → j = i :=
      fun i hi hmem => hlists.unique hj hi hs hmem
    constructor
    · intro h
      rcases Nat.mod_two_eq_zero_or_one j with h0 | h1
      · left
        rwa [show 2 * c = j by omega]
      · right
        rwa [show 2 * c + 1 = j by omega]
    · rintro (h | h)
      · have heq := hone _ (by simp only [cacheLists]; omega) h
        omega
      · have heq := hone _ (by simp only [cacheLists]; omega) h
        omega
  · simp only [if_neg hx]

end Lists

/-! ## §3  An object more -/

section Alloc

variable {P : Prop} {kcaches c s : ℕ} {m m' : Machine} {objects : ℕ → Option ℕ}
  {L : ℕ → List ℕ} {rest : List ℕ}

theorem OnlyNodes.word_slab (h : OnlyNodes (heapNodes kcaches L) m m')
    (hL : ListPlaces kcaches L) (hs : SlabPlace kcaches s) {k : ℕ} (hk : 2 ≤ k)
    (hk' : k < 512) : m'.word (s + 8 * k) = m.word (s + 8 * k) :=
  h.word _ (hs.word hk') fun _ ha => hL.word_ne_node hs hk hk' ha

/-- The end of `kmalloc`, for a class with a partial slab: the object gets an unused slot of
the first one. It is NULL only where the bitmap marks slots without objects. -/
theorem SlabsOk.allocObject (h : SlabsOk P kcaches L m objects) (hsorted : SlabsSorted L objects)
    (hc : c < caches) (hfirst : L (2 * c + 1) = s :: rest) (n : ℕ) :
    (∃ k < slabTotal c, k ∉ usedSlots objects c s ∧ ∃ m' L',
      Rpos.allocObject kcaches c m = some (.returns (slotAddr c s k) m') ∧
      SlabsOk P kcaches L' m' (Function.update objects (slotAddr c s k) (some n)) ∧
      SlabsSorted L' (Function.update objects (slotAddr c s k) (some n)) ∧
      SameSlabs L L' ∧ OnlySlab kcaches L s m m' ∧ SlotTaken m m' s k) ∨
    (∀ j < slabTotal c, Slab.bit m s j = true) ∧ ¬ P ∧
      Rpos.allocObject kcaches c m = some (.returns 0 m) := by
  have hj : 2 * c + 1 < cacheLists := by
    simp only [cacheLists]
    omega
  have hmem : s ∈ L (2 * c + 1) := hfirst ▸ List.mem_cons_self
  have hof : OfClass L c s := Or.inr hmem
  have hs := hof.place hc h.places
  have hroom := (hsorted c hc s hof).mp hmem
  have hread : m.readPtr (partialSlabs kcaches c) = some s := by
    rw [partialSlabs_eq, h.lists.readPtr_head h.places hj, hfirst, List.headD_cons]
  have hcounts := hs.counts_inRam
  have hslab := h.slab c hc s hof
  rcases hslab.addrFromSlab hs hc hroom n with
    ⟨k, hk, hnew, hrun, hslab', hinuse, htaken⟩ | ⟨hset, hP, hrun⟩
  swap
  · refine Or.inr ⟨hset, hP, ?_⟩
    rw [Rpos.allocObject, hread, Option.bind_eq_bind, Option.bind_some, hrun,
      Option.bind_eq_bind, Option.bind_some]
    dsimp only
    rw [Machine.readWord_eq hcounts, Option.bind_eq_bind, Option.bind_some, if_neg]
    intro heq
    have hfull : Slab.inuseOf m s = Slab.totalOf m s := heq
    rw [hslab.inuse, hslab.total] at hfull
    omega
  left
  refine ⟨k, hk, hnew, ?_⟩
  have htotal := (slabTotal_bounds hc).2
  have honly : OnlySlab kcaches L s m (m.takeSlot s k) := OnlySlab.takeSlot hs (by omega) m
  have hlists : HoldsLists kcaches L (m.takeSlot s k) := by
    apply h.lists.keep h.places hs
    intro w hw hhead
    have hbits : w ≠ Slab.bitmapWord s k := by
      rw [hs.bitmapWord (by omega)]
      exact hhead _ (by omega) (by omega)
    rw [Machine.takeSlot, hs.setInuse_word hw (hhead 4 (by decide) (by decide)),
      hs.markSlot_word (by omega) hw hbits]
  have hothers : ∀ c' < caches, ∀ s', OfClass L c' s' → s' ≠ s →
      usedSlots (Function.update objects (slotAddr c s k) (some n)) c' s' =
        usedSlots objects c' s' :=
    fun c' hc' s' hs' hne => h.usedSlots_other hc hof hk hc' hs' hne
  have hcard : (usedSlots (Function.update objects (slotAddr c s k) (some n)) c s).card =
      (usedSlots objects c s).card + 1 := by
    rw [usedSlots_insert hk, Finset.card_insert_of_notMem hnew]
  have hstart : Rpos.allocObject kcaches c m =
      if (usedSlots objects c s).card + 1 = slabTotal c then
        ((m.takeSlot s k).listRemove s).bind fun m' =>
          (m'.listAdd s (cacheHead kcaches (2 * c))).bind fun m' =>
            some (.returns (slotAddr c s k) m')
      else some (.returns (slotAddr c s k) (m.takeSlot s k)) := by
    rw [Rpos.allocObject, hread, Option.bind_eq_bind, Option.bind_some, hrun,
      Option.bind_eq_bind, Option.bind_some]
    dsimp only
    rw [Machine.readWord_eq hcounts, Option.bind_eq_bind, Option.bind_some, ← hinuse,
      ← hslab'.total, ← fullSlabs_eq]
    rfl
  by_cases hfull : (usedSlots objects c s).card + 1 = slabTotal c
  · -- the slab is full: it goes to the other list of its class
    have hj' : 2 * c < cacheLists := by
      simp only [cacheLists]
      omega
    have hne : 2 * c + 1 ≠ 2 * c := by omega
    obtain ⟨m₁, m', hrun₁, hrun', hlists', hplaces', -, honly'⟩ :=
      hlists.move h.places hj hj' hne hmem
    have hsame := sameSlabs_moved hlists hj hmem hne (by omega)
    have honly'' : OnlySlab kcaches L s m m' := honly.trans (.of_nodes honly')
    have hslab'' : SlabAt P m' (Function.update objects (slotAddr c s k) (some n)) c s :=
      hslab'.congr hs hc (fun i hi hi' => honly'.word_slab h.places hs hi (by omega)) rfl
    refine ⟨m', _, ?_, h.change hc hof hk hplaces' hlists' hsame honly'' hslab'', ?_, hsame,
      honly'', ⟨honly''.buddy, htaken.first, fun i hi => ?_⟩⟩
    · rw [hstart, if_pos hfull, hrun₁, Option.bind_some, hrun', Option.bind_some]
    · intro c' hc' s' hs'
      have hs'' := (hsame c' hc' s').mp hs'
      rw [mem_moved_iff hlists hj hmem hne (by simp only [cacheLists]; omega)]
      by_cases hss : s' = s
      · subst hss
        obtain rfl := hlists.class_unique hc hc' hof hs''
        rw [if_pos rfl, hcard]
        omega
      · rw [if_neg hss, hothers c' hc' s' hs'' hss]
        exact hsorted c' hc' s' hs''
    · rw [← htaken.bits i hi, Slab.bit, Slab.bit, hs.bitmapWord (by omega),
        honly'.word_slab h.places hs (by omega) (by omega)]
  · refine ⟨m.takeSlot s k, L, ?_, h.change hc hof hk h.places hlists (fun _ _ _ => Iff.rfl)
      honly hslab', fun c' hc' s' hs' => ?_, fun _ _ _ => Iff.rfl, honly, htaken⟩
    · rw [hstart, if_neg hfull]
    · by_cases hss : s' = s
      · subst hss
        obtain rfl := hlists.class_unique hc hc' hof hs'
        rw [hcard]
        exact iff_of_true hmem (by omega)
      · rw [hothers c' hc' s' hs' hss]
        exact hsorted c' hc' s' hs'

end Alloc

/-! ## §4  An object less -/

section Free

variable {P : Prop} {kcaches c s i : ℕ} {m m' : Machine} {objects : ℕ → Option ℕ}
  {L L' : ℕ → List ℕ}

/-- The lists with the slab at `s` on the partial list of its class. -/
structure Relisted (kcaches : ℕ) (L L' : ℕ → List ℕ) (c s : ℕ) : Prop where
  here : ∀ j < cacheLists, s ∈ L' j ↔ j = 2 * c + 1
  others : ∀ j < cacheLists, ∀ x, x ≠ s → (x ∈ L' j ↔ x ∈ L j)
  same : SameSlabs L L'
  places : ListPlaces kcaches L'

/-- `_slab_free` clears the bit of the slot and sees that its slab is on the partial list.
What is left to do is `slabDrop`. -/
theorem SlabsOk.slabFree_reaches (h : SlabsOk P kcaches L m objects)
    (hsorted : SlabsSorted L objects) (hc : c < caches) (hof : OfClass L c s)
    (hi : i ∈ usedSlots objects c s)
    (hhead : headFromPage (alignDown (slotAddr c s i)) m.buddy = some s) :
    ∃ m' L', slabFree kcaches (slotAddr c s i) m = slabDrop s m' ∧
      Relisted kcaches L L' c s ∧ HoldsLists kcaches L' m' ∧ OnlySlab kcaches L s m m' ∧
      (∀ k, 2 ≤ k → k < 5 → m'.word (s + 8 * k) = (m.unmarkSlot s i).word (s + 8 * k)) := by
  have hs := hof.place hc h.places
  have hslab := h.slab c hc s hof
  have hlt := (mem_usedSlots.mp hi).1
  have htotal := (slabTotal_bounds hc).2
  have hcounts := hs.counts_inRam
  have honly : OnlySlab kcaches L s m (m.unmarkSlot s i) := .unmarkSlot hs (by omega) m
  have hkept : (m.unmarkSlot s i).word (Slab.countsWord s) = m.word (Slab.countsWord s) := by
    exact hs.unmarkSlot_word (by omega) hcounts (hs.bitmapWord_ne (by omega)).symm m
  have hinuse : Slab.inuseOf (m.unmarkSlot s i) s = (usedSlots objects c s).card := by
    rw [Slab.inuseOf, hkept]
    exact hslab.inuse
  have htot : Slab.totalOf (m.unmarkSlot s i) s = slabTotal c := by
    rw [Slab.totalOf, hkept]
    exact hslab.total
  have hlists : HoldsLists kcaches L (m.unmarkSlot s i) := by
    apply h.lists.keep h.places hs
    intro w hw hhead
    apply hs.unmarkSlot_word (by omega) hw
    rw [hs.bitmapWord (by omega)]
    exact hhead _ (by omega) (by omega)
  rw [slabFree_eq hs hc hlt hhead hslab.order, if_pos (hslab.marked i hi), hinuse, htot]
  have hiff := hsorted c hc s hof
  by_cases hfull : (usedSlots objects c s).card = slabTotal c
  · -- a full slab goes to the partial list first
    have hnot : s ∉ L (2 * c + 1) := fun hmem => by
      have hless := hiff.mp hmem
      omega
    have hmem : s ∈ L (2 * c) := hof.resolve_right hnot
    have hj : 2 * c < cacheLists := by
      simp only [cacheLists]
      omega
    have hj' : 2 * c + 1 < cacheLists := by
      simp only [cacheLists]
      omega
    have hne : 2 * c ≠ 2 * c + 1 := by omega
    obtain ⟨m₁, m', hrun₁, hrun', hlists', hplaces', honly₁, honly'⟩ :=
      hlists.move h.places hj hj' hne hmem
    have hread : m₁.word (Slab.countsWord s) = m.word (Slab.countsWord s) :=
      (honly₁.word_slab h.places hs (k := 4) (by decide) (by decide)).trans hkept
    have hto : partialSlabs kcaches (Slab.slabOrder.get (m₁.word (Slab.countsWord s))) -
        32 * minSlabOrder = cacheHead kcaches (2 * c + 1) := by
      have horder : Slab.slabOrder.get (m₁.word (Slab.countsWord s)) = slotLog c := by
        rw [hread]
        exact hslab.order
      rw [horder]
      simp only [partialSlabs, cacheHead, slotLog, minSlabOrder]
      omega
    refine ⟨m', _, ?_, ⟨fun j hj'' => ?_, fun j hj'' x hx => ?_,
      sameSlabs_moved hlists hj hmem hne (by omega), hplaces'⟩, hlists',
      honly.trans (.of_nodes honly'), fun k hk hk' =>
        honly'.word_slab h.places hs hk (by omega)⟩
    · rw [if_pos hfull, hrun₁, Option.bind_some, Machine.readWord_eq hcounts,
        Option.bind_some, hto, hrun', Option.bind_some]
    · rw [mem_moved_iff hlists hj hmem hne hj'', if_pos rfl]
    · rw [mem_moved_iff hlists hj hmem hne hj'', if_neg hx]
  · have hle : (usedSlots objects c s).card ≤ slabTotal c := card_usedSlots_le
    have hmem := hiff.mpr (by omega)
    refine ⟨m.unmarkSlot s i, L, if_neg hfull, ⟨fun j hj => ⟨fun hsj => ?_, ?_⟩,
      fun _ _ _ _ => Iff.rfl, fun _ _ _ => Iff.rfl, h.places⟩, hlists, honly,
      fun _ _ _ => rfl⟩
    · apply h.lists.unique hj _ hsj hmem
      simp only [cacheLists]
      omega
    · rintro rfl
      exact hmem

/-- `_slab_free` on a live object. A slab that is left without objects is taken off its list
and goes back to the buddy allocator; the others stay in order. -/
theorem SlabsOk.slabFree (h : SlabsOk P kcaches L m objects) (hsorted : SlabsSorted L objects)
    (hc : c < caches) (hof : OfClass L c s) (hi : i ∈ usedSlots objects c s)
    (hhead : headFromPage (alignDown (slotAddr c s i)) m.buddy = some s) :
    let objects' := Function.update objects (slotAddr c s i) none
    ∃ m' L', SlabsOk P kcaches L' m' objects' ∧ SlabsSorted L' objects' ∧
      OnlySlab kcaches L s m m' ∧
      (2 ≤ (usedSlots objects c s).card ∧ SameSlabs L L' ∧ Slab.bit m' s i = false ∧
          Rpos.slabFree kcaches (slotAddr c s i) m = some m' ∨
        (usedSlots objects c s).card = 1 ∧
          (∀ c' < caches, ∀ x, OfClass L' c' x ↔ OfClass L c' x ∧ x ≠ s) ∧
          Rpos.slabFree kcaches (slotAddr c s i) m =
            (buddyFree s m.buddy).map fun buddy => { m' with buddy := buddy }) := by
  intro objects'
  have hs := hof.place hc h.places
  have hslab := h.slab c hc s hof
  have hlt := (mem_usedSlots.mp hi).1
  have htotal := (slabTotal_bounds hc).2
  have hcard : 0 < (usedSlots objects c s).card := Finset.card_pos.mpr ⟨i, hi⟩
  have hle : (usedSlots objects c s).card ≤ slabTotal c := card_usedSlots_le
  obtain ⟨m₁, L₁, hrun, hre, hlists, honly, hwords⟩ :=
    h.slabFree_reaches hsorted hc hof hi hhead
  have hj : 2 * c + 1 < cacheLists := by
    simp only [cacheLists]
    omega
  -- the header after the decrement
  have hbitword : ∀ j < 128, Slab.bitmapWord s j ≠ Slab.countsWord s := fun _ => hs.bitmapWord_ne
  have hkept : m₁.word (Slab.countsWord s) = m.word (Slab.countsWord s) := by
    have h4 : m₁.word (Slab.countsWord s) = (m.unmarkSlot s i).word (Slab.countsWord s) :=
      hwords 4 (by decide) (by decide)
    rw [h4]
    exact hs.unmarkSlot_word (by omega) hs.counts_inRam (hbitword i (by omega)).symm m
  have hinuse : Slab.inuseOf m₁ s = Slab.inuseOf m s := by
    rw [Slab.inuseOf, hkept, Slab.inuseOf]
  obtain ⟨hless, htot, hord⟩ := hs.lessInuse_get (m := m₁) (by rw [hinuse, hslab.inuse]; omega)
  rw [hinuse] at hless
  have hbits : ∀ j < 128, Slab.bit (m₁.lessInuse s) s j = (decide (j ≠ i) && Slab.bit m s j) := by
    intro j hj
    rw [Slab.bit, Machine.lessInuse_eq,
      hs.setInuse_word (hs.bitmap_inRam (by omega)) (hbitword j hj),
      ← hs.unmarkSlot_bit (by omega) (by omega), Slab.bit, hs.bitmapWord (by omega),
      hwords _ (by omega) (by omega)]
  have hslab₂ : SlabAt P (m₁.lessInuse s) objects' c s := by
    refine hslab.clear hc hi ?_ ?_ hless hbits
    · rw [hord, Slab.orderOf, hkept, Slab.orderOf]
    · rw [htot, Slab.totalOf, hkept, Slab.totalOf]
  have honly₂ : OnlySlab kcaches L s m (m₁.lessInuse s) := honly.trans (.lessInuse hs m₁)
  have hlists₂ : HoldsLists kcaches L₁ (m₁.lessInuse s) := by
    apply hlists.keep hre.places hs
    intro w hw hhead
    rw [Machine.lessInuse_eq]
    exact hs.setInuse_word hw (hhead 4 (by decide) (by decide)) _ _
  have hok : SlabsOk P kcaches L₁ (m₁.lessInuse s) objects' :=
    h.change hc hof hlt hre.places hlists₂ hre.same honly₂ hslab₂
  have hcard' : (usedSlots objects' c s).card = (usedSlots objects c s).card - 1 := by
    rw [usedSlots_erase, Finset.card_erase_of_mem hi]
  have hsorted₂ : SlabsSorted L₁ objects' := by
    intro c' hc' s' hs'
    have hs'' := (hre.same c' hc' s').mp hs'
    have hj' : 2 * c' + 1 < cacheLists := by
      simp only [cacheLists]
      omega
    by_cases hss : s' = s
    · subst hss
      obtain rfl := h.lists.class_unique hc hc' hof hs''
      rw [hre.here _ hj', hcard']
      exact iff_of_true rfl (by omega)
    · rw [hre.others _ hj' s' hss, h.usedSlots_other hc hof hlt hc' hs'' hss]
      exact hsorted c' hc' s' hs''
  rw [hrun, slabDrop_eq hs, hless, hslab.inuse]
  by_cases hone : (usedSlots objects c s).card = 1
  · -- the slab is empty
    have hmem : s ∈ L₁ (2 * c + 1) := (hre.here _ hj).mpr rfl
    obtain ⟨m', hrun', hlists', honly'⟩ := hlists₂.listRemove hre.places hj hmem
    have hnodup := (hlists₂.ring _ hj).members_nodup
    have hin : ∀ j < cacheLists, ∀ x,
        x ∈ Function.update L₁ (2 * c + 1) ((L₁ (2 * c + 1)).erase s) j ↔ x ∈ L₁ j ∧ x ≠ s := by
      intro j hj x
      by_cases hjc : j = 2 * c + 1
      · subst hjc
        rw [Function.update_self, hnodup.mem_erase_iff, and_comm]
      · rw [Function.update_of_ne hjc]
        refine ⟨fun hx => ⟨hx, ?_⟩, And.left⟩
        rintro rfl
        exact hjc ((hre.here j hj).mp hx)
    have hclass : ∀ c' < caches, ∀ x,
        OfClass (Function.update L₁ (2 * c + 1) ((L₁ (2 * c + 1)).erase s)) c' x ↔
          OfClass L₁ c' x ∧ x ≠ s := by
      intro c' hc' x
      rw [OfClass, OfClass, hin _ (by simp only [cacheLists]; omega),
        hin _ (by simp only [cacheLists]; omega), or_and_right]
    have hnodes : heapNodes kcaches L₁ ⊆ heapNodes kcaches L := by
      rintro a ⟨j, hj, ha⟩
      rcases List.mem_cons.mp ha with rfl | ha
      · exact head_mem_heapNodes L hj
      · by_cases has : a = s
        · subst has
          obtain ⟨j', hj', -, hmem'⟩ := hof.list hc
          exact slab_mem_heapNodes hj' hmem'
        · exact slab_mem_heapNodes hj ((hre.others j hj a has).mp ha)
    refine ⟨m', _, ⟨hre.places.erase _ _, hlists', fun c' hc' s' hs' => ?_, ?_⟩,
      fun c' hc' s' hs' => ?_, honly₂.trans (.of_nodes ⟨honly'.buddy, fun w hw hwn =>
        honly'.word w hw fun a ha => hwn a (hnodes ha)⟩), Or.inr ⟨hone, fun c' hc' x => ?_, ?_⟩⟩
    · obtain ⟨hs₁, -⟩ := (hclass c' hc' s').mp hs'
      have hplace := hs₁.place hc' hre.places
      exact (hok.slab c' hc' s' hs₁).congr hplace hc'
        (fun k hk hk' => honly'.word_slab hre.places hplace hk (by omega)) rfl
    · intro c₁ hc₁ s₁ hs₁ i₁ hi₁ c₂ hc₂ s₂ hs₂
      exact hok.apart c₁ hc₁ s₁ ((hclass c₁ hc₁ s₁).mp hs₁).1 i₁ hi₁ c₂ hc₂ s₂
        ((hclass c₂ hc₂ s₂).mp hs₂).1
    · obtain ⟨hs₁, hne⟩ := (hclass c' hc' s').mp hs'
      rw [hin _ (by simp only [cacheLists]; omega), and_iff_left hne]
      exact hsorted₂ c' hc' s' hs₁
    · rw [hclass c' hc' x, hre.same c' hc' x]
    · rw [if_pos (by omega), hrun', Option.bind_some, honly'.buddy, honly₂.buddy]
  · have hcleared : Slab.bit (m₁.lessInuse s) s i = false := by
      rw [hbits i (by omega), decide_eq_false (not_not.mpr rfl), Bool.false_and]
    exact ⟨m₁.lessInuse s, L₁, hok, hsorted₂, honly₂,
      Or.inl ⟨by omega, hre.same, hcleared, if_neg (by omega)⟩⟩

end Free

/-! ## §5  A slab more -/

section NewSlab

variable {P : Prop} {kcaches c s : ℕ} {m : Machine} {objects : ℕ → Option ℕ}
  {L : ℕ → List ℕ}

theorem initSlab_spec (hs : SlabPlace kcaches s) (hc : c < caches) (m : Machine) :
    ∃ m', initSlab s (slotLog c) (slabOrder c) (slotSize c) m = some m' ∧ m'.buddy = m.buddy ∧
      Slab.orderOf m' s = slotLog c ∧ Slab.totalOf m' s = slabTotal c ∧
      Slab.inuseOf m' s = 0 ∧ (∀ i < 64, Slab.bit m' s i = false) ∧
      ∀ w, InRam w → w ≠ s + 8 * 2 → w ≠ s + 8 * 4 → m'.word w = m.word w := by
  have hw := hs.bitmap_inRam (i := 0) (by decide)
  have hcounts := hs.counts_inRam
  have htotal := (slabTotal_bounds hc).2
  have hbits : Slab.bitmapWord s 0 = s + 8 * 2 := hs.bitmapWord (by decide)
  have hne : Slab.countsWord s ≠ Slab.bitmapWord s 0 := by
    rw [hbits, Slab.countsWord]
    omega
  obtain ⟨counts, hcounts'⟩ : ∃ w, w = Slab.slabOrder.set (Slab.total.set
      (Slab.inuse.set ((m.setWord (Slab.bitmapWord s 0) 0).word (Slab.countsWord s)) 0)
      (slabTotal c)) (slotLog c) := ⟨_, rfl⟩
  have hrun : initSlab s (slotLog c) (slabOrder c) (slotSize c) m =
      some ((m.setWord (Slab.bitmapWord s 0) 0).setWord (Slab.countsWord s) counts) := by
    rw [initSlab, Machine.writeWord_eq hw, Option.bind_eq_bind, Option.bind_some,
      Machine.readWord_eq hcounts, Option.bind_eq_bind, Option.bind_some,
      Machine.writeWord_eq hcounts, hcounts']
    rfl
  have hword : ((m.setWord (Slab.bitmapWord s 0) 0).setWord (Slab.countsWord s) counts).word
      (Slab.countsWord s) = counts := by
    rw [Machine.setWord_word hcounts hcounts, if_pos rfl]
  refine ⟨_, hrun, rfl, ?_, ?_, ?_, fun i hi => ?_, fun w hw' hw2 hw4 => ?_⟩
  · rw [Slab.orderOf, hword, hcounts', BitField.get_set, Nat.mod_eq_of_lt]
    simp only [slotLog, caches, minSlabOrder, Slab.slabOrder] at *
    omega
  · rw [Slab.totalOf, hword, hcounts', BitField.get_set_of_disjoint (by decide),
      BitField.get_set, Nat.mod_eq_of_lt]
    simp only [Slab.total]
    omega
  · rw [Slab.inuseOf, hword, hcounts', BitField.get_set_of_disjoint (by decide),
      BitField.get_set_of_disjoint (by decide), BitField.get_set, Nat.zero_mod]
  · have hzero : Slab.bitmapWord s i = Slab.bitmapWord s 0 := by
      rw [hs.bitmapWord (by omega), hs.bitmapWord (by decide)]
      omega
    rw [Slab.bit, hzero, Machine.setWord_word hcounts hw, if_neg hne.symm,
      Machine.setWord_word hw hw, if_pos rfl]
    exact BitVec.getLsbD_zero
  · have hw4' : w ≠ Slab.countsWord s := hw4
    rw [Machine.setWord_word hcounts hw', if_neg hw4', Machine.setWord_word hw hw',
      if_neg (hbits ▸ hw2)]

/-- A new slab on the partial list of its class. Under `P` the rest of its bitmap has to be
clear already: only the first word of it is cleared. -/
theorem SlabsOk.newSlab (h : SlabsOk P kcaches L m objects) (hsorted : SlabsSorted L objects)
    (hc : c < caches) (hs : SlabPlace kcaches s) (hnew : ∀ c' < caches, ¬ OfClass L c' s)
    (hfree : ∀ i < slabTotal c, objects (slotAddr c s i) = none)
    (hapart : ∀ i < slabTotal c, ∀ c' < caches, ∀ s', OfClass L c' s' → ∀ i' < slabTotal c',
      slotAddr c s i ≠ slotAddr c' s' i')
    (hclean : P → ∀ i < slabTotal c, 64 ≤ i → Slab.bit m s i = false) :
    let L' := Function.update L (2 * c + 1) (s :: L (2 * c + 1))
    ∃ m', ((initSlab s (slotLog c) (slabOrder c) (slotSize c) m).bind fun m =>
        m.listAdd s (partialSlabs kcaches c)) = some m' ∧
      SlabsOk P kcaches L' m' objects ∧ SlabsSorted L' objects ∧ OnlySlab kcaches L' s m m' ∧
      (∀ c' < caches, ∀ x, OfClass L' c' x ↔ OfClass L c' x ∨ c' = c ∧ x = s) ∧
      (∀ i < 64, Slab.bit m' s i = false) ∧
      ∀ i < 128, 64 ≤ i → Slab.bit m' s i = Slab.bit m s i := by
  intro L'
  have hj : 2 * c + 1 < cacheLists := by
    simp only [cacheLists]
    omega
  have htotal := slabTotal_bounds hc
  obtain ⟨m₁, hrun₁, hbuddy, horder, htot, hinuse, hbits, hword⟩ := initSlab_spec hs hc m
  have hlists₁ : HoldsLists kcaches L m₁ := by
    apply h.lists.keep h.places hs
    intro w hw hhead
    exact hword w hw (hhead 2 (by decide) (by decide)) (hhead 4 (by decide) (by decide))
  have hunlisted : ∀ j < cacheLists, s ∉ L j := by
    intro j hj hmem
    exact hnew (j / 2) (by simp only [cacheLists] at hj; omega) (.of_list hmem)
  obtain ⟨m', hrun', hlists', honly'⟩ := hlists₁.listAdd h.places hj hs hunlisted
  have hplaces' := h.places.cons hs (2 * c + 1)
  have hin : ∀ j, ∀ x, x ∈ L' j ↔ x ∈ L j ∨ j = 2 * c + 1 ∧ x = s := by
    intro j x
    by_cases hjc : j = 2 * c + 1
    · subst hjc
      simp only [L', Function.update_self, List.mem_cons, true_and]
      exact or_comm
    · simp only [L', Function.update_of_ne hjc, hjc, false_and, or_false]
  have hclass : ∀ c' < caches, ∀ x, OfClass L' c' x ↔ OfClass L c' x ∨ c' = c ∧ x = s := by
    intro c' _ x
    have hodd : (2 * c' = 2 * c + 1) = False := by
      rw [eq_iff_iff, iff_false]
      omega
    have heven : (2 * c' + 1 = 2 * c + 1) = (c' = c) := by
      rw [eq_iff_iff]
      omega
    rw [OfClass, OfClass, hin, hin, hodd, heven, false_and, or_false, or_assoc]
  have honly : OnlySlab kcaches L' s m m' := by
    refine ⟨honly'.buddy.trans hbuddy, fun w hw hnode hhead => ?_⟩
    rw [honly'.word w hw hnode]
    exact hword w hw (hhead 2 (by decide) (by decide)) (hhead 4 (by decide) (by decide))
  have hempty : usedSlots objects c s = ∅ := by
    ext i
    rw [mem_usedSlots]
    refine iff_of_false (fun hi => ?_) (Finset.notMem_empty i)
    rw [hfree i hi.1] at hi
    exact absurd hi.2 (by simp)
  have hslab₁ : SlabAt P m₁ objects c s := by
    refine ⟨horder, htot, ?_, fun i hi => ?_, fun hP i hi hset => ?_⟩
    · rw [hinuse, hempty, Finset.card_empty]
    · rw [hempty] at hi
      exact absurd hi (Finset.notMem_empty i)
    · exfalso
      by_cases hlow : i < 64
      · rw [hbits i hlow] at hset
        exact absurd hset (by decide)
      · have hold := hclean hP i hi (by omega)
        rw [Slab.bit, hs.bitmapWord (by omega)] at hset hold
        rw [hword _ (hs.word (by omega)) (by omega) (by omega), hold] at hset
        exact absurd hset (by decide)
  refine ⟨m', ?_, ⟨hplaces', hlists', fun c' hc' s' hs' => ?_, ?_⟩, fun c' hc' s' hs' => ?_,
    honly, hclass, fun i hi => ?_, fun i hi h64 => ?_⟩
  · rw [hrun₁, Option.bind_some, partialSlabs_eq, hrun']
  · rcases (hclass c' hc' s').mp hs' with hold | ⟨rfl, rfl⟩
    · have hplace := hold.place hc' h.places
      have hne : s' ≠ s := by
        rintro rfl
        exact hnew c' hc' hold
      apply (h.slab c' hc' s' hold).congr hplace hc' _ rfl
      intro k hk hk'
      apply honly.word _ (hplace.word (by omega))
      · exact fun a ha => hplaces'.word_ne_node hplace hk (by omega) ha
      · exact fun k' hk₁ hk₂ => hs.word_ne hplace hne (by omega) (by omega)
    · exact hslab₁.congr hs hc' (fun k hk hk' =>
        honly'.word_slab hplaces' hs hk (by omega)) rfl
  · intro c₁ hc₁ s₁ hs₁ i₁ hi₁ c₂ hc₂ s₂ hs₂ i₂ hi₂ heq
    rcases (hclass c₁ hc₁ s₁).mp hs₁ with hold₁ | ⟨rfl, rfl⟩ <;>
      rcases (hclass c₂ hc₂ s₂).mp hs₂ with hold₂ | ⟨rfl, rfl⟩
    · exact h.apart c₁ hc₁ s₁ hold₁ i₁ hi₁ c₂ hc₂ s₂ hold₂ i₂ hi₂ heq
    · exact absurd heq.symm (hapart i₂ hi₂ c₁ hc₁ s₁ hold₁ i₁ hi₁)
    · exact absurd heq (hapart i₁ hi₁ c₂ hc₂ s₂ hold₂ i₂ hi₂)
    · rfl
  · rw [hin]
    rcases (hclass c' hc' s').mp hs' with hold | ⟨rfl, rfl⟩
    · have hne : s' ≠ s := by
        rintro rfl
        exact hnew c' hc' hold
      rw [or_iff_left fun h => hne h.2]
      exact hsorted c' hc' s' hold
    · rw [hempty, Finset.card_empty]
      exact iff_of_true (Or.inr ⟨rfl, rfl⟩) htotal.1
  · rw [← hbits i hi, Slab.bit, Slab.bit, hs.bitmapWord (by omega),
      honly'.word_slab hplaces' hs (by omega) (by omega)]
  · rw [Slab.bit, Slab.bit, hs.bitmapWord (by omega),
      honly'.word_slab hplaces' hs (by omega) (by omega),
      hword _ (hs.word (by omega)) (by omega) (by omega)]

end NewSlab

end Rpos
