import Rpos.Base.Tiling
import Rpos.Memory.BuddyAllocator

/-!
# The representation invariant of the buddy allocator

`BuddyRep lo hi m B L`: the blocks `B` tile the pages `[lo, hi)`, the frame of
each page says which block it is in and where, and list `k` is a ring of
exactly the free blocks of order `k`, in the order `L k`. A split, a merge,
taking a block off its list and putting one back each keep it. The operations
of the allocator are sequences of these four edits.
-/

namespace Rpos

open Base

/-! ## §1  The invariant -/

/-- The frames of the pages of `b` describe it: the head has its order, the
other pages point at the head. Interior pages of a block that has been free
since the start carry no flag. -/
structure Described (fr : ℕ → PageFrame) (b : Block) : Prop where
  order : (fr b.base).order = b.order
  flags : (fr b.base).flags = pageBuddyHead
  tail_order : ∀ q ∈ b.pages, q ≠ b.base → (fr q).order = b.base
  tail_flags : ∀ q ∈ b.pages, q ≠ b.base → (fr q).flags = pageBuddyTail ∨
    (fr q).flags = 0 ∧ (fr b.base).state = pageFree

structure BuddyRep (lo hi : ℕ) (m : Buddy) (B : Finset Block)
    (L : ℕ → List ℕ) : Prop where
  tiles : Tiles lo hi B
  described : ∀ b ∈ B, Described m.frameMetadata b
  reserved : ∀ q < lo, (m.frameMetadata q).order = 0 ∧
    (m.frameMetadata q).flags = 0 ∧ (m.frameMetadata q).state = pageReserved
  rings : RingFamily m.links (Set.Iic maxOrder) BuddyNode.head
    (List.map BuddyNode.frame ∘ L)
  free : ∀ k ≤ maxOrder, ∀ p, p ∈ L k ↔
    (⟨p, k⟩ : Block) ∈ B ∧ (m.frameMetadata p).state = pageFree

def liveBlocks (m : Buddy) (B : Finset Block) : Finset Block :=
  B.filter fun b => (m.frameMetadata b.base).state ≠ pageFree

def freeBlocks (m : Buddy) (B : Finset Block) : Finset Block :=
  B.filter fun b => (m.frameMetadata b.base).state = pageFree

theorem mem_liveBlocks {m : Buddy} {B : Finset Block} {b : Block} :
    b ∈ liveBlocks m B ↔
      b ∈ B ∧ (m.frameMetadata b.base).state ≠ pageFree :=
  Finset.mem_filter

theorem mem_freeBlocks {m : Buddy} {B : Finset Block} {b : Block} :
    b ∈ freeBlocks m B ↔
      b ∈ B ∧ (m.frameMetadata b.base).state = pageFree :=
  Finset.mem_filter

theorem Described.congr {fr fr' : ℕ → PageFrame} {b : Block}
    (h : Described fr b) (hfr : ∀ q ∈ b.pages, fr' q = fr q) :
    Described fr' b := by
  have hbase := hfr b.base b.base_mem
  refine ⟨?_, ?_, ?_, ?_⟩
  · rw [hbase, h.order]
  · rw [hbase, h.flags]
  · intro q hq hne
    rw [hfr q hq, h.tail_order q hq hne]
  · intro q hq hne
    rw [hfr q hq, hbase]
    exact h.tail_flags q hq hne

namespace BuddyRep

variable {lo hi : ℕ} {m : Buddy} {B : Finset Block} {L : ℕ → List ℕ}
  {p k : ℕ} {ps : List ℕ}

/-- A page of a block of `B` outside the blocks `A` is no page of `A`. -/
theorem notMem_pagesOf (hr : BuddyRep lo hi m B L) {A : Finset Block}
    (hA : A ⊆ B) {b : Block} (hb : b ∈ B) (hbA : b ∉ A) {q : ℕ}
    (hq : q ∈ b.pages) : q ∉ pagesOf A := by
  rw [mem_pagesOf]
  rintro ⟨a, ha, hqa⟩
  exact hbA (hr.tiles.apart b hb a (hA ha) q hq hqa ▸ ha)

theorem mem_free_head (hr : BuddyRep lo hi m B L) (hk : k ≤ maxOrder)
    (hL : L k = p :: ps) :
    (⟨p, k⟩ : Block) ∈ B ∧ (m.frameMetadata p).state = pageFree :=
  (hr.free k hk p).mp (by simp [hL])

theorem ring (hr : BuddyRep lo hi m B L) (hk : k ≤ maxOrder) :
    IsRing m.links (.head k) ((L k).map .frame) :=
  hr.rings.ring k hk

theorem next_head (hr : BuddyRep lo hi m B L) (hk : k ≤ maxOrder)
    (hL : L k = p :: ps) : m.links.next (.head k) = .frame p := by
  have hring := hr.ring hk
  rw [hL, List.map_cons] at hring
  exact hring.next_head_cons

theorem listEmpty_iff (hr : BuddyRep lo hi m B L) (hk : k ≤ maxOrder) :
    m.links.listEmpty (.head k) = true ↔ L k = [] := by
  rw [(hr.ring hk).listEmpty_iff, List.map_eq_nil_iff]

theorem list_nodup (hr : BuddyRep lo hi m B L) (hk : k ≤ maxOrder) :
    (L k).Nodup :=
  (hr.ring hk).members_nodup.of_map _

end BuddyRep

/-! ## §2  Exchanging blocks -/

section Exchange

variable {lo hi : ℕ} {m m' : Buddy} {B A A' : Finset Block}
  {L L' : ℕ → List ℕ}

/-- Every edit of the allocator exchanges some blocks `A` for blocks `A'` on
the same pages and writes to no frame outside them. -/
theorem BuddyRep.exchange (hr : BuddyRep lo hi m B L) (hA : A ⊆ B)
    (hpages : ∀ q, (∃ a ∈ A', q ∈ a.pages) ↔ ∃ a ∈ A, q ∈ a.pages)
    (hapart : Apart A')
    (hfr : ∀ q ∉ pagesOf A, m'.frameMetadata q = m.frameMetadata q)
    (hdesc : ∀ b ∈ A', Described m'.frameMetadata b)
    (hrings : RingFamily m'.links (Set.Iic maxOrder) BuddyNode.head
      (List.map BuddyNode.frame ∘ L'))
    (hfree : ∀ k ≤ maxOrder, ∀ p, p ∈ L' k ↔
      (⟨p, k⟩ : Block) ∈ A' ∧ (m'.frameMetadata p).state = pageFree ∨
        p ∈ L k ∧ (⟨p, k⟩ : Block) ∉ A) :
    BuddyRep lo hi m' (A' ∪ (B \ A)) L' := by
  refine ⟨hr.tiles.exchange hA hpages hapart, ?_, ?_, hrings, ?_⟩
  · intro b hb
    rcases Finset.mem_union.mp hb with hb | hb
    · exact hdesc b hb
    · obtain ⟨hbB, hbA⟩ := Finset.mem_sdiff.mp hb
      refine (hr.described b hbB).congr ?_
      intro q hq
      exact hfr q (hr.notMem_pagesOf hA hbB hbA hq)
  · intro q hq
    have hq' : q ∉ pagesOf A := by
      rw [mem_pagesOf]
      rintro ⟨a, ha, hqa⟩
      have hrange := hr.tiles.mem_range (hA ha) hqa
      omega
    rw [hfr q hq']
    exact hr.reserved q hq
  · intro k hk p
    rw [hfree k hk p, Finset.mem_union, Finset.mem_sdiff, hr.free k hk p]
    constructor
    · rintro (⟨hA', hs⟩ | ⟨⟨hB, hs⟩, hnA⟩)
      · exact ⟨Or.inl hA', hs⟩
      · refine ⟨Or.inr ⟨hB, hnA⟩, ?_⟩
        rw [hfr p (hr.notMem_pagesOf hA hB hnA (Block.base_mem ⟨p, k⟩))]
        exact hs
    · rintro ⟨hA' | ⟨hB, hnA⟩, hs⟩
      · exact Or.inl ⟨hA', hs⟩
      · rw [hfr p (hr.notMem_pagesOf hA hB hnA (Block.base_mem ⟨p, k⟩))] at hs
        exact Or.inr ⟨⟨hB, hs⟩, hnA⟩

/-- The live blocks and the reserved pages are as before, records included. -/
structure KeepsLive (lo : ℕ) (m m' : Buddy) (B B' : Finset Block) : Prop where
  live : liveBlocks m' B' = liveBlocks m B
  records : ∀ b ∈ liveBlocks m B, ∀ q ∈ b.pages,
    m'.frameMetadata q = m.frameMetadata q
  reserved : ∀ q < lo, m'.frameMetadata q = m.frameMetadata q

theorem KeepsLive.refl (lo : ℕ) (m : Buddy) (B : Finset Block) :
    KeepsLive lo m m B B :=
  ⟨rfl, fun _ _ _ _ => rfl, fun _ _ => rfl⟩

theorem KeepsLive.trans {m'' : Buddy} {B' B'' : Finset Block}
    (h : KeepsLive lo m m' B B') (h' : KeepsLive lo m' m'' B' B'') :
    KeepsLive lo m m'' B B'' := by
  refine ⟨h'.live.trans h.live, ?_, ?_⟩
  · intro b hb q hq
    rw [h'.records b (h.live ▸ hb) q hq, h.records b hb q hq]
  · intro q hq
    rw [h'.reserved q hq, h.reserved q hq]

/-- Exchanging free blocks for free blocks keeps the live ones. -/
theorem BuddyRep.exchange_live (hr : BuddyRep lo hi m B L)
    (hA : A ⊆ freeBlocks m B)
    (hfr : ∀ q ∉ pagesOf A, m'.frameMetadata q = m.frameMetadata q)
    (hfree : ∀ b ∈ A', (m'.frameMetadata b.base).state = pageFree) :
    KeepsLive lo m m' B (A' ∪ (B \ A)) := by
  have hAB : A ⊆ B := fun b hb => (mem_freeBlocks.mp (hA hb)).1
  have hsame : ∀ b ∈ B, b ∉ A → ∀ q ∈ b.pages,
      m'.frameMetadata q = m.frameMetadata q :=
    fun b hb hbA q hq => hfr q (hr.notMem_pagesOf hAB hb hbA hq)
  refine ⟨?_, ?_, ?_⟩
  · ext b
    rw [mem_liveBlocks, mem_liveBlocks, Finset.mem_union, Finset.mem_sdiff]
    constructor
    · rintro ⟨hb | ⟨hb, hbA⟩, hs⟩
      · exact absurd (hfree b hb) hs
      · rw [hsame b hb hbA _ b.base_mem] at hs
        exact ⟨hb, hs⟩
    · rintro ⟨hb, hs⟩
      have hbA : b ∉ A := fun h => hs (mem_freeBlocks.mp (hA h)).2
      refine ⟨Or.inr ⟨hb, hbA⟩, ?_⟩
      rwa [hsame b hb hbA _ b.base_mem]
  · intro b hb q hq
    obtain ⟨hbB, hs⟩ := mem_liveBlocks.mp hb
    exact hsame b hbB (fun h => hs (mem_freeBlocks.mp (hA h)).2) q hq
  · intro q hq
    refine hfr q ?_
    rw [mem_pagesOf]
    rintro ⟨a, ha, hqa⟩
    have hrange := hr.tiles.mem_range (hAB ha) hqa
    omega

end Exchange

/-! The two list edits, on the lists of page frame numbers. -/

theorem rings_listRemove {l : Links BuddyNode} {L : ℕ → List ℕ} {p k : ℕ}
    (hf : RingFamily l (Set.Iic maxOrder) BuddyNode.head
      (List.map BuddyNode.frame ∘ L)) (hk : k ≤ maxOrder) (hp : p ∈ L k) :
    RingFamily (l.listRemove (.frame p)) (Set.Iic maxOrder) BuddyNode.head
      (List.map BuddyNode.frame ∘
        Function.update L k ((L k).erase p)) := by
  have hinj : Function.Injective BuddyNode.frame := fun a b h => by
    simpa using h
  rw [Function.comp_update, List.map_erase hinj]
  exact hf.listRemove hk (List.mem_map_of_mem hp)

theorem rings_listAdd {l : Links BuddyNode} {L : ℕ → List ℕ} {p k : ℕ}
    (hf : RingFamily l (Set.Iic maxOrder) BuddyNode.head
      (List.map BuddyNode.frame ∘ L)) (hk : k ≤ maxOrder)
    (hp : ∀ j ≤ maxOrder, p ∉ L j) :
    RingFamily (l.listAdd (.frame p) (.head k)) (Set.Iic maxOrder)
      BuddyNode.head
      (List.map BuddyNode.frame ∘ Function.update L k (p :: L k)) := by
  rw [Function.comp_update, List.map_cons]
  refine hf.listAdd hk ?_
  intro j hj
  simpa using hp j hj

/-! ## §3  Splitting -/

/-- The free lists after a block of order `k + 1` at `p` is split. -/
def splitLists (p k : ℕ) (L : ℕ → List ℕ) : ℕ → List ℕ :=
  Function.update (Function.update L (k + 1) (L (k + 1)).tail) k
    (p :: (p + 2 ^ k) :: L k)

theorem splitBlockAt_links (k p : ℕ) (m : Buddy) :
    (splitBlockAt k p m).links =
      ((m.links.listRemove (m.links.next (.head (k + 1)))).listAdd
        (.frame (p + 2 ^ k)) (.head k)).listAdd (.frame p) (.head k) := by
  rw [splitBlockAt]
  refine forRange_inv (P := fun _ (m' : Buddy) => m'.links = _)
    Nat.one_le_two_pow rfl ?_
  intro j m' _ _ hm'
  exact hm'

/-- The frames when the tail loop of a split has reached `j`. -/
def splitFrames (p k j : ℕ) (fr : ℕ → PageFrame) (q : ℕ) : PageFrame :=
  if q = p then { fr q with order := k }
  else if q = p + 2 ^ k then
    { fr q with order := k, flags := pageBuddyHead, state := pageFree }
  else if p < q ∧ q < p + j then
    { fr q with order := p, flags := pageBuddyTail }
  else if p + 2 ^ k < q ∧ q < p + 2 ^ k + j then
    { fr q with order := p + 2 ^ k, flags := pageBuddyTail }
  else fr q

theorem splitBlockAt_frames (k p : ℕ) (m : Buddy) :
    (splitBlockAt k p m).frameMetadata =
      splitFrames p k (2 ^ k) m.frameMetadata := by
  have hpos := Nat.two_pow_pos k
  rw [splitBlockAt]
  refine forRange_inv (P := fun j (m' : Buddy) => m'.frameMetadata =
    splitFrames p k j m.frameMetadata) Nat.one_le_two_pow ?_ ?_
  · funext q
    simp only [Buddy.modifyFrame_apply, Buddy.listAdd_frames,
      Buddy.listRemove_frames, splitFrames]
    grind
  · intro j m' hj hlt hm'
    funext q
    simp only [Buddy.modifyFrame_apply, hm', splitFrames]
    grind


theorem splitFrames_of_notMem {p k q : ℕ} (fr : ℕ → PageFrame)
    (hq : q ∉ (⟨p, k + 1⟩ : Block).pages) :
    splitFrames p k (2 ^ k) fr q = fr q := by
  have hpos := Nat.two_pow_pos k
  simp only [Block.mem_pages, pow_succ, not_and_or, not_le, not_lt] at hq
  simp only [splitFrames]
  grind

/-- The two halves describe themselves after a split of a free block. -/
theorem splitFrames_described {p k : ℕ} {fr : ℕ → PageFrame}
    (hd : Described fr ⟨p, k + 1⟩) {b : Block}
    (hb : b ∈ ({⟨p, k⟩, ⟨p + 2 ^ k, k⟩} : Finset Block)) :
    Described (splitFrames p k (2 ^ k) fr) b := by
  have hpos := Nat.two_pow_pos k
  have hflags := hd.flags
  simp only [Finset.mem_insert, Finset.mem_singleton] at hb
  rcases hb with rfl | rfl
  · constructor <;> simp only [Block.mem_pages, splitFrames] <;> grind
  · constructor <;> simp only [Block.mem_pages, splitFrames] <;> grind

theorem splitFrames_free {p k : ℕ} {fr : ℕ → PageFrame}
    (hfree : (fr p).state = pageFree) {b : Block}
    (hb : b ∈ ({⟨p, k⟩, ⟨p + 2 ^ k, k⟩} : Finset Block)) :
    (splitFrames p k (2 ^ k) fr b.base).state = pageFree := by
  simp only [Finset.mem_insert, Finset.mem_singleton] at hb
  rcases hb with rfl | rfl <;> simp only [splitFrames] <;> grind

section Split

variable {lo hi : ℕ} {m : Buddy} {B : Finset Block} {L : ℕ → List ℕ}
  {p k : ℕ} {ps : List ℕ}

theorem splitBlockAt_frame (m : Buddy) (p k : ℕ) :
    ∀ q ∉ pagesOf {(⟨p, k + 1⟩ : Block)},
      (splitBlockAt k p m).frameMetadata q = m.frameMetadata q := by
  intro q hq
  rw [splitBlockAt_frames]
  refine splitFrames_of_notMem _ ?_
  simpa [mem_pagesOf] using hq

theorem splitBlockAt_rings (hr : BuddyRep lo hi m B L) (hk : k < maxOrder)
    (hL : L (k + 1) = p :: ps) :
    RingFamily (splitBlockAt k p m).links (Set.Iic maxOrder) BuddyNode.head
      (List.map BuddyNode.frame ∘ splitLists p k L) := by
  have hk' : k + 1 ≤ maxOrder := hk
  obtain ⟨hB, -⟩ := hr.mem_free_head hk' hL
  have hmem : p ∈ L (k + 1) := by simp [hL]
  have hremoved := rings_listRemove hr.rings hk' hmem
  rw [hL, List.erase_cons_head] at hremoved
  have hnodup := hr.list_nodup hk'
  rw [hL, List.nodup_cons] at hnodup
  -- the upper half was interior, so it is on no list
  have hupper : ∀ j ≤ maxOrder,
      p + 2 ^ k ∉ Function.update L (k + 1) ps j := by
    intro j hj hmem'
    have hpos := Nat.two_pow_pos k
    have hin : p + 2 ^ k ∈ (⟨p, k + 1⟩ : Block).pages := by
      simp only [Block.mem_pages, pow_succ]
      omega
    have hj' : p + 2 ^ k ∈ L j := by
      by_cases hjk : j = k + 1
      · subst hjk
        rw [Function.update_self] at hmem'
        simp [hL, hmem']
      · rwa [Function.update_of_ne hjk] at hmem'
    have hblock := ((hr.free j hj _).mp hj').1
    have heq := hr.tiles.apart _ hblock _ hB _ (Block.base_mem _) hin
    rw [Block.mk.injEq] at heq
    omega
  have hadded := rings_listAdd hremoved (Nat.le_of_lt hk) hupper
  have hlower : ∀ j ≤ maxOrder,
      p ∉ Function.update (Function.update L (k + 1) ps) k
        ((p + 2 ^ k) :: Function.update L (k + 1) ps k) j := by
    intro j hj hmem'
    have hpos := Nat.two_pow_pos k
    have hne : k ≠ k + 1 := by omega
    by_cases hjk : j = k
    · subst hjk
      rw [Function.update_self, Function.update_of_ne hne,
        List.mem_cons] at hmem'
      rcases hmem' with he | hmem'
      · omega
      · have := hr.tiles.order_eq ((hr.free j hj p).mp hmem').1 hB
        omega
    · rw [Function.update_of_ne hjk] at hmem'
      by_cases hjk' : j = k + 1
      · subst hjk'
        rw [Function.update_self] at hmem'
        exact hnodup.1 hmem'
      · rw [Function.update_of_ne hjk'] at hmem'
        exact hjk' (hr.tiles.order_eq ((hr.free j hj p).mp hmem').1 hB)
  have hboth := rings_listAdd hadded (Nat.le_of_lt hk) hlower
  rw [Function.update_self, Function.update_idem,
    Function.update_of_ne (by omega : k ≠ k + 1)] at hboth
  rw [splitBlockAt_links, hr.next_head hk' hL, splitLists, hL]
  exact hboth

/-- A split of a free block keeps the invariant and the live blocks. -/
theorem splitBlockAt_rep (hr : BuddyRep lo hi m B L) (hk : k < maxOrder)
    (hL : L (k + 1) = p :: ps) :
    BuddyRep lo hi (splitBlockAt k p m) (splitBlock p k B)
        (splitLists p k L) ∧
      KeepsLive lo m (splitBlockAt k p m) B (splitBlock p k B) := by
  obtain ⟨hB, hs⟩ := hr.mem_free_head (Nat.succ_le_of_lt hk) hL
  have hfrees : ∀ b ∈ ({⟨p, k⟩, ⟨p + 2 ^ k, k⟩} : Finset Block),
      ((splitBlockAt k p m).frameMetadata b.base).state = pageFree := by
    intro b hb
    rw [splitBlockAt_frames]
    exact splitFrames_free hs hb
  refine ⟨hr.exchange (Finset.singleton_subset_iff.mpr hB) (halves_pages p k)
      (halves_apart p k) (splitBlockAt_frame m p k) ?_
      (splitBlockAt_rings hr hk hL) ?_,
    hr.exchange_live ?_ (splitBlockAt_frame m p k) hfrees⟩
  · intro b hb
    rw [splitBlockAt_frames]
    exact splitFrames_described (hr.described _ hB) hb
  · intro j hj x
    have hnodup := hr.list_nodup (Nat.succ_le_of_lt hk)
    rw [Nat.succ_eq_add_one, hL, List.nodup_cons] at hnodup
    have hx := fun h => hfrees ⟨x, k⟩ h
    simp only [Finset.mem_insert, Finset.mem_singleton, Block.mk.injEq] at hx ⊢
    simp only [splitLists, Function.update_apply, hL]
    grind
  · exact Finset.singleton_subset_iff.mpr (mem_freeBlocks.mpr ⟨hB, hs⟩)

end Split

/-! ## §4  Taking a block and putting it back -/

section TakePut

variable {lo hi : ℕ} {m : Buddy} {B : Finset Block} {L : ℕ → List ℕ}
  {p k : ℕ} {ps : List ℕ}

theorem exchange_self (hb : (⟨p, k⟩ : Block) ∈ B) :
    {(⟨p, k⟩ : Block)} ∪ (B \ {⟨p, k⟩}) = B := by
  ext b
  simp only [Finset.mem_union, Finset.mem_singleton, Finset.mem_sdiff]
  grind

theorem singleton_apart (b : Block) : Apart {b} := by
  intro c hc d hd q _ _
  rw [Finset.mem_singleton.mp hc, Finset.mem_singleton.mp hd]

def takeFrames (p k : ℕ) (fr : ℕ → PageFrame) (q : ℕ) : PageFrame :=
  if q = p then
    { fr q with refcount := 1, state := pageBuddy,
                flags := (fr q).flags ||| pageBuddyHead }
  else if p < q ∧ q < p + 2 ^ k then
    { flags := pageBuddyTail, state := pageBuddy, refcount := 1, order := p }
  else fr q

theorem takeBlock_eq (k p : ℕ) (m : Buddy) :
    takeBlock k p m =
      { frameMetadata := takeFrames p k m.frameMetadata
        links := m.links.listRemove (.frame p) } := by
  simp only [takeBlock, Buddy.forRange_modifyFrame, Buddy.modifyFrame_links,
    Buddy.listRemove_links]
  congr 1
  funext q
  simp only [modifyRange, Buddy.modifyFrame_apply, Buddy.listRemove_frames,
    takeFrames]
  grind

theorem takeFrames_of_notMem {q : ℕ} (fr : ℕ → PageFrame)
    (hq : q ∉ (⟨p, k⟩ : Block).pages) : takeFrames p k fr q = fr q := by
  have hpos := Nat.two_pow_pos k
  simp only [Block.mem_pages] at hq
  simp only [takeFrames]
  grind

theorem takeFrames_described {fr : ℕ → PageFrame}
    (hd : Described fr ⟨p, k⟩) : Described (takeFrames p k fr) ⟨p, k⟩ := by
  have hflags : (fr p).flags = pageBuddyHead := hd.flags
  have horder : (fr p).order = k := hd.order
  constructor <;> simp only [Block.mem_pages, takeFrames]
  · simp [horder]
  · simp [hflags]
  · grind
  · grind

theorem takeBlock_rep (hr : BuddyRep lo hi m B L) (hk : k ≤ maxOrder)
    (hL : L k = p :: ps) :
    BuddyRep lo hi (takeBlock k p m) B (Function.update L k ps) := by
  obtain ⟨hB, hs⟩ := hr.mem_free_head hk hL
  have hsub := Finset.singleton_subset_iff.mpr hB
  have hmem : p ∈ L k := by simp [hL]
  have hrings := rings_listRemove hr.rings hk hmem
  rw [hL, List.erase_cons_head] at hrings
  have hnodup := hr.list_nodup hk
  rw [hL, List.nodup_cons] at hnodup
  rw [takeBlock_eq]
  rw [← exchange_self hB] at hr ⊢
  rw [exchange_self hB] at hr
  refine hr.exchange hsub (fun _ => Iff.rfl) (singleton_apart _) ?_ ?_ hrings ?_
  · intro q hq
    refine takeFrames_of_notMem _ ?_
    simpa [mem_pagesOf] using hq
  · intro b hb
    rw [Finset.mem_singleton.mp hb]
    exact takeFrames_described (hr.described _ hB)
  · intro j hj x
    have hfree : pageBuddy ≠ pageFree := by decide
    simp only [Function.update_apply, Finset.mem_singleton, Block.mk.injEq,
      takeFrames]
    grind

/-- The other live blocks and the reserved pages do not notice. -/
theorem takeBlock_others (hr : BuddyRep lo hi m B L)
    (hB : (⟨p, k⟩ : Block) ∈ B) :
    (∀ b ∈ B, b ≠ ⟨p, k⟩ → ∀ q ∈ b.pages,
        (takeBlock k p m).frameMetadata q = m.frameMetadata q) ∧
      ∀ q < lo, (takeBlock k p m).frameMetadata q = m.frameMetadata q := by
  rw [takeBlock_eq]
  refine ⟨?_, ?_⟩
  · intro b hb hne q hq
    refine takeFrames_of_notMem _ ?_
    exact fun hq' => hne (hr.tiles.apart b hb _ hB q hq hq')
  · intro q hq
    refine takeFrames_of_notMem _ ?_
    intro hq'
    have hrange := hr.tiles.mem_range hB hq'
    omega

theorem takeBlock_head (k p : ℕ) (m : Buddy) :
    ((takeBlock k p m).frameMetadata p).state = pageBuddy ∧
      ((takeBlock k p m).frameMetadata p).refcount = 1 := by
  simp [takeBlock_eq, takeFrames]

theorem takeBlock_live (hr : BuddyRep lo hi m B L)
    (hB : (⟨p, k⟩ : Block) ∈ B) :
    liveBlocks (takeBlock k p m) B = insert ⟨p, k⟩ (liveBlocks m B) := by
  have hfree : pageBuddy ≠ pageFree := by decide
  ext b
  rw [Finset.mem_insert, mem_liveBlocks, mem_liveBlocks]
  by_cases hb : b = ⟨p, k⟩
  · subst hb
    simp [takeBlock_head, hB, hfree]
  · constructor
    · rintro ⟨hbB, hs⟩
      rw [(takeBlock_others hr hB).1 b hbB hb _ b.base_mem] at hs
      exact Or.inr ⟨hbB, hs⟩
    · rintro (he | ⟨hbB, hs⟩)
      · exact absurd he hb
      · rw [(takeBlock_others hr hB).1 b hbB hb _ b.base_mem]
        exact ⟨hbB, hs⟩

theorem putBlock_frames (k p : ℕ) (m : Buddy) (q : ℕ) :
    (putBlock k p m).frameMetadata q =
      if q = p then { m.frameMetadata q with state := pageFree }
      else m.frameMetadata q := by
  simp only [putBlock, Buddy.listAdd_frames, Buddy.modifyFrame_apply]
  grind

/-- Marking a live block free and listing it keeps the invariant. -/
theorem putBlock_rep (hr : BuddyRep lo hi m B L) (hk : k ≤ maxOrder)
    (hB : (⟨p, k⟩ : Block) ∈ B)
    (hs : (m.frameMetadata p).state ≠ pageFree) :
    BuddyRep lo hi (putBlock k p m) B (Function.update L k (p :: L k)) := by
  have hunlisted : ∀ j ≤ maxOrder, p ∉ L j :=
    fun j hj hmem => hs ((hr.free j hj p).mp hmem).2
  have hsub := Finset.singleton_subset_iff.mpr hB
  have hd := hr.described _ hB
  rw [← exchange_self hB]
  refine hr.exchange hsub (fun _ => Iff.rfl) (singleton_apart _) ?_ ?_
    (rings_listAdd hr.rings hk hunlisted) ?_
  · intro q hq
    rw [putBlock_frames, if_neg]
    rintro rfl
    refine hq (mem_pagesOf.mpr ⟨_, Finset.mem_singleton_self _, ?_⟩)
    exact Block.base_mem ⟨q, k⟩
  · intro b hb
    rw [Finset.mem_singleton.mp hb]
    have horder := hd.order
    have hflags := hd.flags
    have htail := hd.tail_order
    have htails := hd.tail_flags
    constructor <;> simp only [putBlock_frames] <;> grind
  · intro j hj x
    simp only [Function.update_apply, Finset.mem_singleton, Block.mk.injEq,
      putBlock_frames]
    grind

theorem putBlock_live (hr : BuddyRep lo hi m B L)
    (hB : (⟨p, k⟩ : Block) ∈ B) :
    liveBlocks (putBlock k p m) B = (liveBlocks m B).erase ⟨p, k⟩ := by
  ext b
  rw [Finset.mem_erase, mem_liveBlocks, mem_liveBlocks, putBlock_frames]
  by_cases hb : b = ⟨p, k⟩
  · subst hb
    simp
  · have hbase : b ∈ B → b.base ≠ p :=
      fun hbB he => hb (hr.tiles.eq_of_base hbB hB he)
    grind

end TakePut

/-! ## §5  Coalescing -/

theorem xor_one_cases (n : ℕ) : n ^^^ 1 = n + 1 ∨ (n ^^^ 1) + 1 = n := by
  rcases Nat.even_or_odd n with h | h
  · exact Or.inl (Nat.xor_one_of_even h)
  · rw [Nat.xor_one_of_odd h]
    obtain ⟨c, rfl⟩ := h
    omega

/-- The buddy of a page at distance `2 ^ k` lies above or below it. -/
theorem xor_two_pow_cases (p k : ℕ) :
    p ^^^ 2 ^ k = p + 2 ^ k ∨ (p ^^^ 2 ^ k) + 2 ^ k = p := by
  have hdiv : (p ^^^ 2 ^ k) / 2 ^ k = p / 2 ^ k ^^^ 1 := by
    rw [Nat.xor_div_two_pow, Nat.div_self (Nat.two_pow_pos k)]
  have hmod : (p ^^^ 2 ^ k) % 2 ^ k = p % 2 ^ k := by
    rw [Nat.xor_mod_two_pow, Nat.mod_self, Nat.xor_zero]
  have hx := Nat.div_add_mod (p ^^^ 2 ^ k) (2 ^ k)
  have hp := Nat.div_add_mod p (2 ^ k)
  rw [hdiv, hmod] at hx
  rcases xor_one_cases (p / 2 ^ k) with h | h
  · left
    rw [h, Nat.mul_add] at hx
    omega
  · right
    rw [← h, Nat.mul_add] at hp
    omega

theorem testBit_of_xor_eq {p k : ℕ} (h : p ^^^ 2 ^ k = p + 2 ^ k) :
    p.testBit k = false := by
  have hpos := Nat.two_pow_pos k
  have hdiv : (p ^^^ 2 ^ k) / 2 ^ k = p / 2 ^ k ^^^ 1 := by
    rw [Nat.xor_div_two_pow, Nat.div_self hpos]
  rw [h, Nat.add_div_right p hpos] at hdiv
  rw [Nat.testBit_eq_decide_div_mod_eq, decide_eq_false_iff_not]
  intro hodd
  rw [Nat.xor_one_of_odd (Nat.odd_iff.mpr hodd)] at hdiv
  exact absurd hdiv (by generalize p / 2 ^ k = n; omega)

theorem xor_of_testBit {p k : ℕ} (h : p.testBit k = false) :
    p ^^^ 2 ^ k = p + 2 ^ k := by
  rcases xor_two_pow_cases p k with hup | hdown
  · exact hup
  · -- `p` would lie above its buddy, whose bit `k` is set
    have hback : (p ^^^ 2 ^ k) ^^^ 2 ^ k = (p ^^^ 2 ^ k) + 2 ^ k := by
      rw [hdown, Nat.xor_assoc, Nat.xor_self, Nat.xor_zero]
    have hbit := testBit_of_xor_eq hback
    rw [Nat.testBit_xor, h, Nat.testBit_two_pow_self] at hbit
    exact absurd hbit (by decide)

section Merge

variable {lo hi : ℕ} {m : Buddy} {B : Finset Block} {L : ℕ → List ℕ}
  {p k : ℕ}

/-- The frames after the blocks of order `k` at `p` and `p + 2 ^ k` merge. -/
def mergeFrames (p k : ℕ) (fr : ℕ → PageFrame) (q : ℕ) : PageFrame :=
  if q = p then { fr q with order := (fr q).order + 1 }
  else if q = p + 2 ^ k then
    { fr q with order := p, flags := pageBuddyTail }
  else if p + 2 ^ k < q ∧ q < p + 2 ^ k + 2 ^ k then
    { fr q with order := p }
  else fr q

def mergeLists (p k : ℕ) (L : ℕ → List ℕ) : ℕ → List ℕ :=
  Function.update
    (Function.update L k (((L k).erase p).erase (p + 2 ^ k))) (k + 1)
    (p :: L (k + 1))

theorem mergeBuddies_eq (k p : ℕ) (m : Buddy) :
    mergeBuddies k p (p + 2 ^ k) m =
      { frameMetadata := mergeFrames p k m.frameMetadata
        links := ((m.links.listRemove (.frame p)).listRemove
          (.frame (p + 2 ^ k))).listAdd (.frame p) (.head (k + 1)) } := by
  have hpos := Nat.two_pow_pos k
  simp only [mergeBuddies, Buddy.forRange_modifyFrame]
  simp only [Buddy.listAdd, Buddy.modifyFrame_links, Buddy.listRemove_links]
  congr 1
  funext q
  simp only [modifyRange, Buddy.modifyFrame_apply, Buddy.listRemove_frames,
    mergeFrames]
  grind

theorem mergeFrames_of_notMem {q : ℕ} (fr : ℕ → PageFrame)
    (hq : q ∉ (⟨p, k + 1⟩ : Block).pages) : mergeFrames p k fr q = fr q := by
  have hpos := Nat.two_pow_pos k
  simp only [Block.mem_pages, pow_succ] at hq
  simp only [mergeFrames]
  grind

theorem mergeFrames_described {fr : ℕ → PageFrame}
    (hl : Described fr ⟨p, k⟩) (hu : Described fr ⟨p + 2 ^ k, k⟩)
    (hs : (fr p).state = pageFree) :
    Described (mergeFrames p k fr) ⟨p, k + 1⟩ := by
  have hpos := Nat.two_pow_pos k
  have horder := hl.order
  have hflags := hl.flags
  have hlt := hl.tail_order
  have hlf := hl.tail_flags
  have huf := hu.tail_flags
  simp only [Block.mem_pages] at hlt hlf huf horder hflags
  constructor <;> simp only [Block.mem_pages, mergeFrames, pow_succ]
  · grind
  · grind
  · grind
  · grind

theorem mergeBuddies_rings (hr : BuddyRep lo hi m B L) (hk : k < maxOrder)
    (hl : p ∈ L k) (hu : p + 2 ^ k ∈ L k) :
    RingFamily (mergeBuddies k p (p + 2 ^ k) m).links (Set.Iic maxOrder)
      BuddyNode.head (List.map BuddyNode.frame ∘ mergeLists p k L) := by
  have hpos := Nat.two_pow_pos k
  have hk' : k ≤ maxOrder := Nat.le_of_lt hk
  have hfirst := rings_listRemove hr.rings hk' hl
  have hu' : p + 2 ^ k ∈
      Function.update L k ((L k).erase p) k := by
    rw [Function.update_self]
    exact (List.mem_erase_of_ne (by omega)).mpr hu
  have hsecond := rings_listRemove hfirst hk' hu'
  rw [Function.update_self, Function.update_idem] at hsecond
  have hfresh : ∀ j ≤ maxOrder, p ∉
      Function.update L k (((L k).erase p).erase (p + 2 ^ k)) j := by
    intro j hj hmem
    by_cases hjk : j = k
    · subst hjk
      rw [Function.update_self] at hmem
      exact (hr.list_nodup hj).not_mem_erase (List.mem_of_mem_erase hmem)
    · rw [Function.update_of_ne hjk] at hmem
      exact hjk (hr.tiles.order_eq ((hr.free j hj p).mp hmem).1
        ((hr.free k hk' p).mp hl).1)
  have hadded := rings_listAdd hsecond (Nat.succ_le_of_lt hk) hfresh
  rw [Nat.succ_eq_add_one,
    Function.update_of_ne (by omega : k + 1 ≠ k)] at hadded
  rw [mergeBuddies_eq]
  exact hadded

/-- Merging two free neighbours keeps the invariant and the live blocks. -/
theorem mergeBuddies_rep (hr : BuddyRep lo hi m B L) (hk : k < maxOrder)
    (hl : p ∈ L k) (hu : p + 2 ^ k ∈ L k) :
    BuddyRep lo hi (mergeBuddies k p (p + 2 ^ k) m) (mergeBlocks p k B)
        (mergeLists p k L) ∧
      KeepsLive lo m (mergeBuddies k p (p + 2 ^ k) m) B
        (mergeBlocks p k B) := by
  have hpos := Nat.two_pow_pos k
  obtain ⟨hlB, hls⟩ := (hr.free k (Nat.le_of_lt hk) p).mp hl
  obtain ⟨huB, hus⟩ := (hr.free k (Nat.le_of_lt hk) _).mp hu
  have hsub : ({⟨p, k⟩, ⟨p + 2 ^ k, k⟩} : Finset Block) ⊆
      freeBlocks m B := by
    intro b hb
    simp only [Finset.mem_insert, Finset.mem_singleton] at hb
    rcases hb with rfl | rfl
    · exact mem_freeBlocks.mpr ⟨hlB, hls⟩
    · exact mem_freeBlocks.mpr ⟨huB, hus⟩
  have hsubB : ({⟨p, k⟩, ⟨p + 2 ^ k, k⟩} : Finset Block) ⊆ B :=
    fun b hb => (mem_freeBlocks.mp (hsub hb)).1
  have hframe : ∀ q ∉ pagesOf ({⟨p, k⟩, ⟨p + 2 ^ k, k⟩} : Finset Block),
      (mergeBuddies k p (p + 2 ^ k) m).frameMetadata q =
        m.frameMetadata q := by
    intro q hq
    rw [mergeBuddies_eq]
    refine mergeFrames_of_notMem _ ?_
    intro hq'
    refine hq (mem_pagesOf.mpr ((halves_pages p k q).mpr ?_))
    exact ⟨_, Finset.mem_singleton_self _, hq'⟩
  have hfree : ((mergeBuddies k p (p + 2 ^ k) m).frameMetadata p).state =
      pageFree := by
    rw [mergeBuddies_eq]
    simp [mergeFrames, hls]
  refine ⟨hr.exchange hsubB (fun q => (halves_pages p k q).symm)
    (singleton_apart _) hframe ?_ (mergeBuddies_rings hr hk hl hu) ?_,
    hr.exchange_live hsub hframe ?_⟩
  · intro b hb
    rw [Finset.mem_singleton.mp hb, mergeBuddies_eq]
    exact mergeFrames_described (hr.described _ hlB) (hr.described _ huB) hls
  · intro j hj x
    have hnodup := hr.list_nodup (Nat.le_of_lt hk)
    have herase : ∀ x, x ∈ ((L k).erase p).erase (p + 2 ^ k) ↔
        x ≠ p + 2 ^ k ∧ x ≠ p ∧ x ∈ L k := by
      intro x
      rw [(hnodup.erase p).mem_erase_iff, hnodup.mem_erase_iff]
    have hk' : k + 1 ≠ k := by omega
    simp only [mergeLists, Function.update_apply, Finset.mem_singleton,
      Finset.mem_insert, Block.mk.injEq]
    grind
  · intro b hb
    rw [Finset.mem_singleton.mp hb]
    exact hfree

end Merge

section Coalesce

variable {lo : ℕ} {m : Buddy} {B : Finset Block} {L : ℕ → List ℕ} {p k : ℕ}

theorem BuddyRep.order_lt (hr : BuddyRep lo ramPages m B L) (hlo : 2048 ≤ lo)
    {b : Block} (hb : b ∈ B) : b.order < maxOrder := by
  have hsize := hr.tiles.size_le hb
  have hrange := hr.tiles.base_lt hb
  have hlt : 2 ^ b.order < 2 ^ maxOrder := by
    simp only [ramPages, maxOrder] at *
    omega
  exact (Nat.pow_lt_pow_iff_right (by decide)).mp hlt

/-- A free page whose frame holds a real order is the head of a free block:
reserved pages are not free, and interior pages hold the pfn of their head,
which lies above every order. -/
theorem BuddyRep.free_head_of_order (hr : BuddyRep lo ramPages m B L)
    (hlo : 2048 ≤ lo) (hp : p < ramPages) (hk : k ≤ maxOrder)
    (horder : (m.frameMetadata p).order = k)
    (hs : (m.frameMetadata p).state = pageFree) : (⟨p, k⟩ : Block) ∈ B := by
  rcases Nat.lt_or_ge p lo with hlt | hge
  · have hres := (hr.reserved p hlt).2.2
    rw [hs] at hres
    exact absurd hres (by decide)
  obtain ⟨b, hb, hpb⟩ := hr.tiles.cover p hge hp
  by_cases hbase : p = b.base
  · subst hbase
    have hbo := (hr.described b hb).order
    rw [horder] at hbo
    subst hbo
    exact hb
  · have htail := (hr.described b hb).tail_order p hpb hbase
    have hb' := (hr.tiles.base_lt hb).1
    simp only [maxOrder] at hk
    omega

theorem BuddyRep.mem_list (hr : BuddyRep lo ramPages m B L)
    (hlo : 2048 ≤ lo) (hB : (⟨p, k⟩ : Block) ∈ B)
    (hs : (m.frameMetadata p).state = pageFree) : p ∈ L k :=
  (hr.free k (Nat.le_of_lt (hr.order_lt hlo hB)) p).mpr ⟨hB, hs⟩

def Coalesced (L : ℕ → List ℕ) : Prop :=
  ∀ k ≤ maxOrder, ∀ q ∈ L k, q ^^^ 2 ^ k ∉ L k

/-- Only the block of order `k` at `p` may have its buddy on its list. -/
def CoalescedBut (p k : ℕ) (L : ℕ → List ℕ) : Prop :=
  ∀ j ≤ maxOrder, ∀ q ∈ L j, q ^^^ 2 ^ j ∈ L j →
    j = k ∧ (q = p ∨ q ^^^ 2 ^ j = p)

theorem CoalescedBut.coalesced (h : CoalescedBut p k L)
    (hp : p ^^^ 2 ^ k ∉ L k) : Coalesced L := by
  intro j hj q hq hq'
  obtain ⟨rfl, rfl | heq⟩ := h j hj q hq hq'
  · exact hp hq'
  · -- the buddy of the buddy of `q` is `q`
    rw [← heq, Nat.xor_assoc, Nat.xor_self, Nat.xor_zero] at hp
    exact hp hq

theorem Coalesced.cons (h : Coalesced L) (p k : ℕ) :
    CoalescedBut p k (Function.update L k (p :: L k)) := by
  intro j hj q hq hq'
  by_cases hjk : j = k
  · subst hjk
    rw [Function.update_self, List.mem_cons] at hq hq'
    refine ⟨rfl, ?_⟩
    rcases hq with hq | hq
    · exact Or.inl hq
    · rcases hq' with hq' | hq'
      · exact Or.inr hq'
      · exact absurd hq' (h j hj q hq)
  · rw [Function.update_of_ne hjk] at hq hq'
    exact absurd hq' (h j hj q hq)

/-- A merge leaves the merged block as the only one that may have a buddy. -/
theorem CoalescedBut.merge {q : ℕ} (h : CoalescedBut p k L)
    (hnodup : (L k).Nodup) (hp : p = q ∨ p = q + 2 ^ k) :
    CoalescedBut q (k + 1) (mergeLists q k L) := by
  intro j hj x hx hx'
  unfold mergeLists at hx hx'
  by_cases hj1 : j = k + 1
  · subst hj1
    rw [Function.update_self, List.mem_cons] at hx hx'
    refine ⟨rfl, ?_⟩
    rcases hx with rfl | hx
    · exact Or.inl rfl
    rcases hx' with hx' | hx'
    · exact Or.inr hx'
    · exact absurd (h _ hj x hx hx').1 (Nat.succ_ne_self k)
  rw [Function.update_of_ne hj1] at hx hx'
  by_cases hjk : j = k
  · subst hjk
    have hnodup' := hnodup.erase q
    rw [Function.update_self, hnodup'.mem_erase_iff, hnodup.mem_erase_iff]
      at hx hx'
    obtain ⟨hxu, hxl, hx⟩ := hx
    obtain ⟨hyu, hyl, hy⟩ := hx'
    obtain ⟨-, hpair⟩ := h j hj x hx hy
    grind
  · rw [Function.update_of_ne hjk] at hx hx'
    exact absurd (h j hj x hx hx').1 hjk

/-- A round of `coalesce_up` at the free block of order `k` at `p`: its buddy is not
free and it stops, or it merges the two at `q`, the lower one, and goes on there. -/
theorem coalesceUp_cases (hr : BuddyRep lo ramPages m B L) (hlo : 2048 ≤ lo)
    (hB : (⟨p, k⟩ : Block) ∈ B) (hs : (m.frameMetadata p).state = pageFree) (fuel : ℕ) :
    (coalesceUp (fuel + 1) p m = some m ∧ p ^^^ 2 ^ k ∉ L k) ∨
      ∃ q, coalesceUp (fuel + 1) p m =
          coalesceUp fuel q (mergeBuddies k q (q + 2 ^ k) m) ∧
        q ∈ L k ∧ q + 2 ^ k ∈ L k ∧ (p = q ∨ p = q + 2 ^ k) ∧ q.testBit k = false := by
  have hk : k < maxOrder := hr.order_lt hlo hB
  have horder : (m.frameMetadata p).order = k := (hr.described _ hB).order
  have hp : p < ramPages := (hr.tiles.base_lt hB).2
  have hbuddy : p ^^^ 2 ^ k < ramPages :=
    Nat.xor_lt_two_pow hp (Nat.pow_lt_pow_right (by decide) hk)
  -- the buddy is on the list exactly when its record says so
  have hstop : ¬ ((m.frameMetadata (p ^^^ 2 ^ k)).order = k ∧
      (m.frameMetadata (p ^^^ 2 ^ k)).state = pageFree) → p ^^^ 2 ^ k ∉ L k := by
    intro hnot hmem
    obtain ⟨hB', hs'⟩ := (hr.free k hk.le _).mp hmem
    exact hnot ⟨(hr.described _ hB').order, hs'⟩
  have hlisted : ∀ q, (⟨q, k⟩ : Block) ∈ B → (m.frameMetadata q).state = pageFree →
      q ∈ L k := fun q hqB hqs => hr.mem_list hlo hqB hqs
  rw [coalesceUp]
  simp only [horder]
  rcases xor_two_pow_cases p k with hup | hdown
  · have hle : p ≤ p + 2 ^ k := Nat.le_add_right _ _
    have hbit := testBit_of_xor_eq hup
    rw [hup] at hbuddy hstop ⊢
    simp only [Nat.min_eq_right hle, Nat.max_eq_left hle, horder]
    split_ifs with hne hfree
    · exact Or.inl ⟨rfl, hstop fun h => hne h.1.symm⟩
    · have hB' := hr.free_head_of_order hlo hbuddy (Nat.le_of_lt hk)
        (not_not.mp hne).symm hfree.2
      exact Or.inr ⟨p, rfl, hlisted p hB hfree.1, hlisted _ hB' hfree.2, Or.inl rfl, hbit⟩
    · exact Or.inl ⟨rfl, hstop fun h => hfree ⟨hs, h.2⟩⟩
  · have hbit : (p ^^^ 2 ^ k).testBit k = false := by
      refine testBit_of_xor_eq ?_
      rw [hdown, Nat.xor_assoc, Nat.xor_self, Nat.xor_zero]
    generalize p ^^^ 2 ^ k = b at *
    have hle : b ≤ p := Nat.le.intro hdown
    simp only [Nat.min_eq_left hle, Nat.max_eq_right hle, horder]
    split_ifs with hne hfree
    · exact Or.inl ⟨rfl, hstop fun h => hne h.1⟩
    · have hB' := hr.free_head_of_order hlo hbuddy (Nat.le_of_lt hk)
        (not_not.mp hne) hfree.1
      subst hdown
      exact Or.inr ⟨b, rfl, hlisted b hB' hfree.1, hlisted _ hB hfree.2, Or.inr rfl, hbit⟩
    · exact Or.inl ⟨rfl, hstop fun h => hfree ⟨h.2, hs⟩⟩

/-- The merged block is free and a block of the new tiling. -/
theorem mergeBuddies_free (hr : BuddyRep lo ramPages m B L) (hlo : 2048 ≤ lo)
    (hB : (⟨p, k⟩ : Block) ∈ B) {q : ℕ} (hq : q ∈ L k) :
    (⟨q, k + 1⟩ : Block) ∈ mergeBlocks q k B ∧
      ((mergeBuddies k q (q + 2 ^ k) m).frameMetadata q).state = pageFree := by
  have hk : k < maxOrder := hr.order_lt hlo hB
  obtain ⟨-, hqs⟩ := (hr.free k hk.le q).mp hq
  refine ⟨mem_mergeBlocks.mpr (Or.inl rfl), ?_⟩
  simp [mergeBuddies_eq, mergeFrames, hqs]

/-- Coalescing returns; it merges buddies, keeps the invariant and the live
blocks, and leaves no pair of buddies if the block at `p` was the only one that
could have had its buddy free. -/
theorem coalesceUp_rep (hlo : 2048 ≤ lo) :
    ∀ (fuel p k : ℕ) (m : Buddy) (B : Finset Block) (L : ℕ → List ℕ),
      BuddyRep lo ramPages m B L → (⟨p, k⟩ : Block) ∈ B →
      (m.frameMetadata p).state = pageFree → maxOrder < fuel + k →
      ∃ m' B' L', coalesceUp fuel p m = some m' ∧
        BuddyRep lo ramPages m' B' L' ∧ KeepsLive lo m m' B B' ∧
        (CoalescedBut p k L → Coalesced L') ∧ Merged B B' := by
  intro fuel
  induction fuel with
  | zero =>
      intro p k m B L hr hB _ hfuel
      have hlt : k < maxOrder := hr.order_lt hlo hB
      omega
  | succ fuel ih =>
      intro p k m B L hr hB hs hfuel
      have hk : k < maxOrder := hr.order_lt hlo hB
      rcases coalesceUp_cases hr hlo hB hs fuel with
        ⟨hrun, hbuddy⟩ | ⟨q, hrun, hl, hu, hpq, hbit⟩
      · exact ⟨m, B, L, hrun, hr, KeepsLive.refl lo m B, fun hbut => hbut.coalesced hbuddy,
          Merged.refl B⟩
      · obtain ⟨hr', hlive⟩ := mergeBuddies_rep hr hk hl hu
        obtain ⟨hmem, hfree⟩ := mergeBuddies_free hr hlo hB hl
        obtain ⟨m', B', L', hrun', hr'', hlive', hdone, hmerged⟩ :=
          ih q (k + 1) _ _ _ hr' hmem hfree (by omega)
        exact ⟨m', B', L', hrun.trans hrun', hr'', hlive.trans hlive', fun hbut =>
          hdone (hbut.merge (hr.list_nodup hk.le) hpq),
          .step ((hr.free k hk.le q).mp hl).1 ((hr.free k hk.le _).mp hu).1 hbit hmerged⟩

end Coalesce

end Rpos
