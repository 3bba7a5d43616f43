import Rpos.Memory.SlabSlots

/-!
# The lists of the caches

The fourteen lists of `kcaches` as they lie in RAM: list `2 * c` holds the full slabs of
class `c`, list `2 * c + 1` the partial ones.
-/

namespace Rpos

open Base

/-! ## §1  Heads and nodes -/

abbrev cacheLists : ℕ := 2 * caches

def cacheHead (kcaches j : ℕ) : ℕ := kcaches + 16 * j

theorem fullSlabs_eq (kcaches c : ℕ) : fullSlabs kcaches c = cacheHead kcaches (2 * c) := by
  simp only [fullSlabs, cacheHead]
  omega

theorem partialSlabs_eq (kcaches c : ℕ) :
    partialSlabs kcaches c = cacheHead kcaches (2 * c + 1) := by
  simp only [partialSlabs, cacheHead]
  omega

/-- The list nodes of the heap, with the slabs of list `j` in `L j`. -/
def heapNodes (kcaches : ℕ) (L : ℕ → List ℕ) : Set ℕ :=
  {a | ∃ j < cacheLists, a ∈ cacheHead kcaches j :: L j}

/-- The array of the caches lies in RAM, and the slabs behind it. -/
structure ListPlaces (kcaches : ℕ) (L : ℕ → List ℕ) : Prop where
  caches : CachesOk kcaches
  slab : ∀ j < cacheLists, ∀ s ∈ L j, SlabPlace kcaches s

def linksOf (m : Machine) : Links ℕ := ⟨m.ptr, fun a => m.ptr (a + 8)⟩

def HoldsLists (kcaches : ℕ) (L : ℕ → List ℕ) (m : Machine) : Prop :=
  RingFamily (linksOf m) (Set.Iio cacheLists) (cacheHead kcaches) L

section Nodes

variable {kcaches j j' s a : ℕ} {L : ℕ → List ℕ} {m m' : Machine}

theorem SlabPlace.slab_ne (hs : SlabPlace kcaches s) (hj : j < cacheLists) :
    cacheHead kcaches j + 8 < s := by
  have hbehind := hs.behind
  simp only [cacheHead, cacheLists, caches] at *
  omega

theorem ListPlaces.nodeWords (hL : ListPlaces kcaches L) :
    NodeWords (heapNodes kcaches L) := by
  have hnode : ∀ a ∈ heapNodes kcaches L,
      (∃ j < cacheLists, a = cacheHead kcaches j) ∨ SlabPlace kcaches a := by
    rintro a ⟨j, hj, ha⟩
    rcases List.mem_cons.mp ha with rfl | ha
    · exact Or.inl ⟨j, hj, rfl⟩
    · exact Or.inr (hL.slab j hj a ha)
  have hhead : ∀ j < cacheLists, InRam (cacheHead kcaches j) ∧
      InRam (cacheHead kcaches j + 8) := by
    intro j hj
    have h1 := hL.caches.inRam (j := 2 * j) (by simp only [cacheLists] at *; omega)
    have h2 := hL.caches.inRam (j := 2 * j + 1) (by simp only [cacheLists] at *; omega)
    rw [show kcaches + 8 * (2 * j) = cacheHead kcaches j by simp only [cacheHead]; omega] at h1
    rw [show kcaches + 8 * (2 * j + 1) = cacheHead kcaches j + 8 by
      simp only [cacheHead]; omega] at h2
    exact ⟨h1, h2⟩
  refine ⟨fun a ha => ?_, fun a ha => ?_, fun a ha b hb => ?_⟩
  · rcases hnode a ha with ⟨j, hj, rfl⟩ | hs
    · exact (hhead j hj).1
    · exact hs.inRam
  · rcases hnode a ha with ⟨j, hj, rfl⟩ | hs
    · exact (hhead j hj).2
    · exact hs.word (k := 1) (by decide)
  · rcases hnode a ha with ⟨j, hj, rfl⟩ | hs <;> rcases hnode b hb with ⟨j', hj', rfl⟩ | hs'
    · simp only [cacheHead]
      omega
    · exact (hs'.slab_ne hj).ne
    · have hlt := hs.slab_ne hj'
      omega
    · have ha8 := hs.aligned
      have hb8 := hs'.aligned
      simp only [pageSize] at ha8 hb8
      omega

theorem head_mem_heapNodes (L : ℕ → List ℕ) (hj : j < cacheLists) :
    cacheHead kcaches j ∈ heapNodes kcaches L :=
  ⟨j, hj, List.mem_cons_self⟩

theorem slab_mem_heapNodes (hj : j < cacheLists) (hs : s ∈ L j) : s ∈ heapNodes kcaches L :=
  ⟨j, hj, List.mem_cons_of_mem _ hs⟩

/-- The lists are those of any link fields that the nodes hold. -/
theorem HoldsLists.of_links {S : Set ℕ} {l : Links ℕ} (hl : HoldsLinks S m l)
    (hf : RingFamily l (Set.Iio cacheLists) (cacheHead kcaches) L)
    (hsub : heapNodes kcaches L ⊆ S) : HoldsLists kcaches L m := by
  refine ⟨fun j hj => (hf.ring j hj).congr (fun a ha => ?_) fun a ha => ?_, hf.apart⟩
  · exact (hl a (hsub ⟨j, hj, ha⟩)).1
  · exact (hl a (hsub ⟨j, hj, ha⟩)).2

theorem HoldsLists.congr (h : HoldsLists kcaches L m)
    (hsame : ∀ a ∈ heapNodes kcaches L,
      m'.word a = m.word a ∧ m'.word (a + 8) = m.word (a + 8)) :
    HoldsLists kcaches L m' := by
  refine HoldsLists.of_links (S := heapNodes kcaches L) (fun a ha => ?_) h subset_rfl
  obtain ⟨h1, h2⟩ := hsame a ha
  exact ⟨congrArg BitVec.toNat h1, congrArg BitVec.toNat h2⟩

theorem HoldsLists.readPtr_head (h : HoldsLists kcaches L m) (hL : ListPlaces kcaches L)
    (hj : j < cacheLists) :
    m.readPtr (cacheHead kcaches j) = some ((L j).headD (cacheHead kcaches j)) := by
  have hram := hL.nodeWords.next _ (head_mem_heapNodes L hj)
  have hnext := (h.ring j hj).next_head
  rw [Machine.readPtr_eq hram]
  show some ((linksOf m).next (cacheHead kcaches j)) = _
  rw [hnext]
  cases L j with
  | nil => rfl
  | cons s ss => rfl

theorem HoldsLists.unique (h : HoldsLists kcaches L m) (hj : j < cacheLists)
    (hj' : j' < cacheLists) (hs : s ∈ L j) (hs' : s ∈ L j') : j = j' := by
  by_contra hne
  exact h.apart j hj j' hj' hne s (List.mem_cons_of_mem _ hs) (List.mem_cons_of_mem _ hs')

end Nodes

/-! ## §2  Edits -/

section Edits

variable {kcaches j j' s : ℕ} {L : ℕ → List ℕ} {m : Machine}

theorem mem_update {xs : List ℕ} {i x : ℕ} (hx : x ∈ Function.update L j xs i) :
    x ∈ xs ∧ i = j ∨ x ∈ L i ∧ i ≠ j := by
  by_cases hi : i = j
  · subst hi
    rw [Function.update_self] at hx
    exact Or.inl ⟨hx, rfl⟩
  · rw [Function.update_of_ne hi] at hx
    exact Or.inr ⟨hx, hi⟩

theorem heapNodes_erase_subset (j s : ℕ) :
    heapNodes kcaches (Function.update L j ((L j).erase s)) ⊆ heapNodes kcaches L := by
  rintro a ⟨i, hi, ha⟩
  rcases List.mem_cons.mp ha with rfl | ha
  · exact head_mem_heapNodes L hi
  · rcases mem_update ha with ⟨ha, rfl⟩ | ⟨ha, -⟩
    · exact slab_mem_heapNodes hi (List.mem_of_mem_erase ha)
    · exact slab_mem_heapNodes hi ha

theorem ListPlaces.erase (hL : ListPlaces kcaches L) (j s : ℕ) :
    ListPlaces kcaches (Function.update L j ((L j).erase s)) := by
  refine ⟨hL.caches, fun i hi x hx => ?_⟩
  rcases mem_update hx with ⟨hx, rfl⟩ | ⟨hx, -⟩
  · exact hL.slab i hi x (List.mem_of_mem_erase hx)
  · exact hL.slab i hi x hx

theorem ListPlaces.cons (hL : ListPlaces kcaches L) (hs : SlabPlace kcaches s) (j : ℕ) :
    ListPlaces kcaches (Function.update L j (s :: L j)) := by
  refine ⟨hL.caches, fun i hi x hx => ?_⟩
  rcases mem_update hx with ⟨hx, rfl⟩ | ⟨hx, -⟩
  · rcases List.mem_cons.mp hx with rfl | hx
    · exact hs
    · exact hL.slab i hi x hx
  · exact hL.slab i hi x hx

theorem HoldsLists.listRemove (h : HoldsLists kcaches L m) (hL : ListPlaces kcaches L)
    (hj : j < cacheLists) (hs : s ∈ L j) :
    ∃ m', m.listRemove s = some m' ∧
      HoldsLists kcaches (Function.update L j ((L j).erase s)) m' ∧
      OnlyNodes (heapNodes kcaches L) m m' := by
  have hring := h.ring j hj
  obtain ⟨hnext, hprev, -⟩ := hring.neighbours_mem hs
  have hheld : HoldsLinks (heapNodes kcaches L) m (linksOf m) := fun _ _ => ⟨rfl, rfl⟩
  obtain ⟨m', hrun, hl', honly⟩ := hheld.listRemove hL.nodeWords (slab_mem_heapNodes hj hs)
    ⟨j, hj, hnext⟩ ⟨j, hj, hprev⟩
  exact ⟨m', hrun, HoldsLists.of_links hl' (RingFamily.listRemove h hj hs)
    (heapNodes_erase_subset j s), honly⟩

/-- `list_add` puts a slab that is on no list at the front of one. -/
theorem HoldsLists.listAdd (h : HoldsLists kcaches L m) (hL : ListPlaces kcaches L)
    (hj : j < cacheLists) (hs : SlabPlace kcaches s) (hnew : ∀ i < cacheLists, s ∉ L i) :
    ∃ m', m.listAdd s (cacheHead kcaches j) = some m' ∧
      HoldsLists kcaches (Function.update L j (s :: L j)) m' ∧
      OnlyNodes (heapNodes kcaches (Function.update L j (s :: L j))) m m' := by
  have hring := h.ring j hj
  have hfront : s ∈ heapNodes kcaches (Function.update L j (s :: L j)) :=
    ⟨j, hj, by rw [Function.update_self]; exact List.mem_cons_of_mem _ List.mem_cons_self⟩
  have hold : ∀ a ∈ cacheHead kcaches j :: L j,
      a ∈ heapNodes kcaches (Function.update L j (s :: L j)) := by
    intro a ha
    refine ⟨j, hj, ?_⟩
    rw [Function.update_self]
    rcases List.mem_cons.mp ha with rfl | ha
    · exact List.mem_cons_self
    · exact List.mem_cons_of_mem _ (List.mem_cons_of_mem _ ha)
  have hheld : HoldsLinks (heapNodes kcaches (Function.update L j (s :: L j))) m (linksOf m) :=
    fun _ _ => ⟨rfl, rfl⟩
  obtain ⟨m', hrun, hl', honly⟩ := hheld.listAdd (hL.cons hs j).nodeWords hfront
    (hold _ List.mem_cons_self) (hold _ hring.next_head_mem)
  refine ⟨m', hrun, HoldsLists.of_links hl' (RingFamily.listAdd h hj fun i hi => ?_)
    subset_rfl, honly⟩
  rw [List.mem_cons, not_or]
  refine ⟨fun heq => ?_, hnew i hi⟩
  have hlt := hs.slab_ne hi
  omega

/-- The lists after a slab went from list `j` to the front of list `j'`. -/
def moved (L : ℕ → List ℕ) (j j' s : ℕ) : ℕ → List ℕ :=
  Function.update (Function.update L j ((L j).erase s)) j' (s :: L j')

theorem mem_moved (hs : s ∈ L j) (hne : j ≠ j') {i x : ℕ} (hi : x ∈ moved L j j' s i) :
    x = s ∧ i = j' ∨ x ∈ L i := by
  rcases mem_update hi with ⟨hx, rfl⟩ | ⟨hx, -⟩
  · rcases List.mem_cons.mp hx with rfl | hx
    · exact Or.inl ⟨rfl, rfl⟩
    · exact Or.inr hx
  · rcases mem_update hx with ⟨hx, rfl⟩ | ⟨hx, -⟩
    · exact Or.inr (List.mem_of_mem_erase hx)
    · exact Or.inr hx

/-- `list_remove` and `list_add` move a slab to another list. -/
theorem HoldsLists.move (h : HoldsLists kcaches L m) (hL : ListPlaces kcaches L)
    (hj : j < cacheLists) (hj' : j' < cacheLists) (hne : j ≠ j') (hs : s ∈ L j) :
    ∃ m₁ m', m.listRemove s = some m₁ ∧ m₁.listAdd s (cacheHead kcaches j') = some m' ∧
      HoldsLists kcaches (moved L j j' s) m' ∧ ListPlaces kcaches (moved L j j' s) ∧
      OnlyNodes (heapNodes kcaches L) m m₁ ∧ OnlyNodes (heapNodes kcaches L) m m' := by
  obtain ⟨m₁, hrun₁, h₁, honly₁⟩ := h.listRemove hL hj hs
  have hplace := hL.slab j hj s hs
  have hnew : ∀ i < cacheLists, s ∉ Function.update L j ((L j).erase s) i := by
    intro i hi hmem
    rcases mem_update hmem with ⟨hmem, rfl⟩ | ⟨hmem, hij⟩
    · exact (List.Nodup.mem_erase_iff (h.ring i hi).members_nodup).mp hmem |>.1 rfl
    · exact hij (h.unique hi hj hmem hs)
  have hL₁ := hL.erase j s
  have hj'L : Function.update L j ((L j).erase s) j' = L j' := Function.update_of_ne hne.symm _ _
  obtain ⟨m', hrun', h', honly'⟩ := h₁.listAdd hL₁ hj' hplace hnew
  have hLm := hL₁.cons hplace j'
  rw [hj'L] at h' honly' hLm
  refine ⟨m₁, m', hrun₁, hrun', h', hLm, honly₁, honly₁.trans ⟨honly'.buddy, fun w hw hwS =>
    honly'.word w hw fun a ha => hwS a ?_⟩⟩
  obtain ⟨i, hi, ha⟩ := ha
  rcases List.mem_cons.mp ha with rfl | ha
  · exact head_mem_heapNodes L hi
  · rcases mem_moved hs hne ha with ⟨rfl, -⟩ | ha
    · exact slab_mem_heapNodes hj hs
    · exact slab_mem_heapNodes hi ha

end Edits

end Rpos
