import Mathlib.Algebra.BigOperators.Group.Finset.Basic
import Mathlib.Algebra.Order.BigOperators.Group.Finset
import Mathlib.Order.Interval.Finset.Nat
import Mathlib.Tactic.Ring

/-!
# Tilings of an interval by power-of-two blocks

A block is `2 ^ order` consecutive pages from `base`, at any base: nothing
here asks for alignment. `Tiles lo hi B` says that the blocks of `B` cover
`[lo, hi)` with no gap and no overlap. Exchanging some blocks for others with
the same pages keeps a tiling (`Tiles.exchange`); splitting a block and
merging two neighbours are its two instances.
-/

namespace Rpos.Base

structure Block where
  base : ℕ
  order : ℕ
deriving DecidableEq, Repr

namespace Block

def stop (b : Block) : ℕ := b.base + 2 ^ b.order

def pages (b : Block) : Finset ℕ := Finset.Ico b.base b.stop

theorem mem_pages {b : Block} {q : ℕ} :
    q ∈ b.pages ↔ b.base ≤ q ∧ q < b.base + 2 ^ b.order :=
  Finset.mem_Ico

theorem base_mem (b : Block) : b.base ∈ b.pages :=
  mem_pages.mpr ⟨le_refl _, Nat.lt_add_of_pos_right (Nat.two_pow_pos _)⟩

theorem last_mem (b : Block) : b.base + (2 ^ b.order - 1) ∈ b.pages := by
  have hpos := Nat.two_pow_pos b.order
  exact mem_pages.mpr ⟨by omega, by omega⟩

theorem card_pages (b : Block) : b.pages.card = 2 ^ b.order := by
  simp [pages, stop]

theorem mem_pages_halves {p k q : ℕ} :
    q ∈ (⟨p, k + 1⟩ : Block).pages ↔
      q ∈ (⟨p, k⟩ : Block).pages ∨ q ∈ (⟨p + 2 ^ k, k⟩ : Block).pages := by
  simp only [mem_pages, pow_succ]
  omega

theorem halves_disjoint {p k q : ℕ} (hl : q ∈ (⟨p, k⟩ : Block).pages)
    (hr : q ∈ (⟨p + 2 ^ k, k⟩ : Block).pages) : False := by
  simp only [mem_pages] at hl hr
  omega

end Block

open Block

def pagesOf (B : Finset Block) : Finset ℕ := B.biUnion Block.pages

theorem mem_pagesOf {B : Finset Block} {q : ℕ} :
    q ∈ pagesOf B ↔ ∃ b ∈ B, q ∈ b.pages :=
  Finset.mem_biUnion

def Apart (B : Finset Block) : Prop :=
  ∀ b ∈ B, ∀ c ∈ B, ∀ q, q ∈ b.pages → q ∈ c.pages → b = c

/-- The blocks of `B` cover `[lo, hi)` exactly once. -/
structure Tiles (lo hi : ℕ) (B : Finset Block) : Prop where
  within : ∀ b ∈ B, lo ≤ b.base ∧ b.stop ≤ hi
  cover : ∀ q, lo ≤ q → q < hi → ∃ b ∈ B, q ∈ b.pages
  apart : Apart B

namespace Tiles

variable {lo hi : ℕ} {A A' B : Finset Block}

theorem mem_range (ht : Tiles lo hi B) {b : Block} (hb : b ∈ B) {q : ℕ}
    (hq : q ∈ b.pages) : lo ≤ q ∧ q < hi := by
  have hw := ht.within b hb
  rw [mem_pages] at hq
  simp only [stop] at hw
  omega

theorem base_lt (ht : Tiles lo hi B) {b : Block} (hb : b ∈ B) :
    lo ≤ b.base ∧ b.base < hi :=
  ht.mem_range hb b.base_mem

theorem eq_of_base (ht : Tiles lo hi B) {b c : Block} (hb : b ∈ B)
    (hc : c ∈ B) (he : b.base = c.base) : b = c :=
  ht.apart b hb c hc b.base b.base_mem (he ▸ c.base_mem)

theorem order_eq (ht : Tiles lo hi B) {p j k : ℕ} (hj : (⟨p, j⟩ : Block) ∈ B)
    (hk : (⟨p, k⟩ : Block) ∈ B) : j = k := by
  have he := ht.eq_of_base hj hk rfl
  exact congrArg Block.order he

theorem size_le (ht : Tiles lo hi B) {b : Block} (hb : b ∈ B) :
    2 ^ b.order ≤ hi - lo := by
  have hw := ht.within b hb
  simp only [stop] at hw
  omega

theorem pages_eq (ht : Tiles lo hi B) : pagesOf B = Finset.Ico lo hi := by
  ext q
  rw [mem_pagesOf, Finset.mem_Ico]
  constructor
  · rintro ⟨b, hb, hq⟩
    exact ht.mem_range hb hq
  · rintro ⟨hl, hh⟩
    exact ht.cover q hl hh

theorem nil (lo : ℕ) : Tiles lo lo ∅ := by
  refine ⟨by simp, ?_, by simp [Apart]⟩
  intro q hl hh
  omega

theorem snoc {mid k : ℕ} (ht : Tiles lo mid B) (hle : lo ≤ mid) :
    Tiles lo (mid + 2 ^ k) (insert ⟨mid, k⟩ B) := by
  refine ⟨?_, ?_, ?_⟩
  · intro b hb
    rcases Finset.mem_insert.mp hb with rfl | hb
    · simp [stop, hle]
    · exact ⟨(ht.within b hb).1,
        (ht.within b hb).2.trans (Nat.le_add_right mid _)⟩
  · intro q hl hh
    by_cases hq : q < mid
    · obtain ⟨b, hb, hqb⟩ := ht.cover q hl hq
      exact ⟨b, Finset.mem_insert_of_mem hb, hqb⟩
    · exact ⟨_, Finset.mem_insert_self _ _,
        mem_pages.mpr ⟨Nat.le_of_not_lt hq, hh⟩⟩
  · intro b hb c hc q hqb hqc
    rcases Finset.mem_insert.mp hb with rfl | hb <;>
      rcases Finset.mem_insert.mp hc with rfl | hc
    · rfl
    · have hr := ht.mem_range hc hqc
      have hp := mem_pages.mp hqb
      simp only at hp
      omega
    · have hr := ht.mem_range hb hqb
      have hp := mem_pages.mp hqc
      simp only at hp
      omega
    · exact ht.apart b hb c hc q hqb hqc

/-- Exchange the blocks `A` for blocks `A'` with the same pages. -/
theorem exchange (ht : Tiles lo hi B) (hsub : A ⊆ B)
    (hpages : ∀ q, (∃ a ∈ A', q ∈ a.pages) ↔ ∃ a ∈ A, q ∈ a.pages)
    (hapart : Apart A') : Tiles lo hi (A' ∪ (B \ A)) := by
  -- a page of `A'` is not a page of the blocks that stay
  have hstay : ∀ a ∈ A', ∀ b ∈ B \ A, ∀ q, q ∈ a.pages → q ∉ b.pages := by
    intro a ha b hb q hqa hqb
    obtain ⟨hbB, hbA⟩ := Finset.mem_sdiff.mp hb
    obtain ⟨c, hc, hqc⟩ := (hpages q).mp ⟨a, ha, hqa⟩
    exact hbA (ht.apart b hbB c (hsub hc) q hqb hqc ▸ hc)
  refine ⟨?_, ?_, ?_⟩
  · intro b hb
    rcases Finset.mem_union.mp hb with hb | hb
    · obtain ⟨c, hc, hqc⟩ := (hpages _).mp ⟨b, hb, b.base_mem⟩
      obtain ⟨d, hd, hqd⟩ := (hpages _).mp ⟨b, hb, b.last_mem⟩
      have hfirst := ht.mem_range (hsub hc) hqc
      have hlast := ht.mem_range (hsub hd) hqd
      have hpos := Nat.two_pow_pos b.order
      simp only [stop]
      omega
    · exact ht.within b (Finset.mem_sdiff.mp hb).1
  · intro q hl hh
    obtain ⟨b, hb, hq⟩ := ht.cover q hl hh
    by_cases hA : b ∈ A
    · obtain ⟨a, ha, hqa⟩ := (hpages q).mpr ⟨b, hA, hq⟩
      exact ⟨a, Finset.mem_union_left _ ha, hqa⟩
    · exact ⟨b, Finset.mem_union_right _ (Finset.mem_sdiff.mpr ⟨hb, hA⟩), hq⟩
  · intro b hb c hc q hqb hqc
    rcases Finset.mem_union.mp hb with hb | hb <;>
      rcases Finset.mem_union.mp hc with hc | hc
    · exact hapart b hb c hc q hqb hqc
    · exact absurd hqc (hstay b hb c hc q hqb)
    · exact absurd hqb (hstay c hc b hb q hqc)
    · exact ht.apart b (Finset.mem_sdiff.mp hb).1 c (Finset.mem_sdiff.mp hc).1
        q hqb hqc

theorem sum_sizes (ht : Tiles lo hi B) : ∑ b ∈ B, 2 ^ b.order = hi - lo := by
  have hcard : (pagesOf B).card = ∑ b ∈ B, b.pages.card := by
    refine Finset.card_biUnion ?_
    intro b hb c hc hne
    rw [Function.onFun, Finset.disjoint_left]
    intro q hqb hqc
    exact hne (ht.apart b hb c hc q hqb hqc)
  rw [ht.pages_eq, Nat.card_Ico] at hcard
  simp only [card_pages] at hcard
  exact hcard.symm

/-- A block starts where the interval starts and where a block stops. -/
theorem starts (ht : Tiles lo hi B) {q : ℕ} (hlo : lo ≤ q) (hhi : q < hi)
    (hq : q = lo ∨ ∃ b ∈ B, b.stop = q) : ∃ c ∈ B, c.base = q := by
  obtain ⟨c, hc, hqc⟩ := ht.cover q hlo hhi
  have hmem := mem_pages.mp hqc
  refine ⟨c, hc, le_antisymm hmem.1 (Nat.not_lt.mp fun hlt => ?_)⟩
  rcases hq with rfl | ⟨b, hb, hstop⟩
  · exact absurd (ht.within c hc).1 (Nat.not_le.mpr hlt)
  · -- the last page of `b` would be in `c` too
    have hpos := Nat.two_pow_pos b.order
    have hlast := b.last_mem
    simp only [stop] at hstop
    have hlastc : b.base + (2 ^ b.order - 1) ∈ c.pages := mem_pages.mpr (by omega)
    have heq := ht.apart b hb c hc _ hlast hlastc
    rw [← heq, mem_pages] at hqc
    omega

/-- What holds at the end, and at the base of a block when it holds where the block stops,
holds at the start. -/
theorem stride_induction (ht : Tiles lo hi B) (hle : lo ≤ hi) {P : ℕ → Prop} (hend : P hi)
    (hstep : ∀ b ∈ B, P b.stop → P b.base) : P lo := by
  have hall : ∀ n q, hi - q ≤ n → lo ≤ q → q ≤ hi → (q = lo ∨ ∃ b ∈ B, b.stop = q) → P q := by
    intro n
    induction n with
    | zero =>
        intro q hn _ hq _
        obtain rfl : q = hi := by omega
        exact hend
    | succ n ih =>
        intro q hn hlo hq hboundary
        rcases hq.eq_or_lt with rfl | hlt
        · exact hend
        obtain ⟨c, hc, rfl⟩ := ht.starts hlo hlt hboundary
        have hpos := Nat.two_pow_pos c.order
        have hstop := (ht.within c hc).2
        refine hstep c hc (ih c.stop ?_ ?_ hstop (Or.inr ⟨c, hc, rfl⟩))
        · simp only [stop] at hstop ⊢
          omega
        · exact hlo.trans (Nat.le_add_right _ _)
  exact hall (hi - lo) lo le_rfl le_rfl hle (Or.inl rfl)

/-- Behind the base of a block come the block itself and what is behind its stop. -/
theorem base_le_iff (ht : Tiles lo hi B) {b c : Block} (hb : b ∈ B) (hc : c ∈ B) :
    b.base ≤ c.base ↔ c = b ∨ b.stop ≤ c.base := by
  have hpos := Nat.two_pow_pos b.order
  constructor
  · intro hle
    rcases Nat.lt_or_ge c.base b.stop with hlt | hge
    · exact Or.inl (ht.apart c hc b hb c.base c.base_mem (mem_pages.mpr ⟨hle, hlt⟩))
    · exact Or.inr hge
  · rintro (rfl | hge)
    · exact le_rfl
    · exact (Nat.le_add_right _ _).trans hge

theorem union {mid : ℕ} (hA : Tiles lo mid A) (hB : Tiles mid hi B) (hlm : lo ≤ mid)
    (hmh : mid ≤ hi) : Tiles lo hi (A ∪ B) := by
  refine ⟨?_, ?_, ?_⟩
  · intro b hb
    rcases Finset.mem_union.mp hb with hb | hb
    · exact ⟨(hA.within b hb).1, (hA.within b hb).2.trans hmh⟩
    · exact ⟨hlm.trans (hB.within b hb).1, (hB.within b hb).2⟩
  · intro q hlo hhi
    rcases Nat.lt_or_ge q mid with hq | hq
    · obtain ⟨b, hb, hqb⟩ := hA.cover q hlo hq
      exact ⟨b, Finset.mem_union_left _ hb, hqb⟩
    · obtain ⟨b, hb, hqb⟩ := hB.cover q hq hhi
      exact ⟨b, Finset.mem_union_right _ hb, hqb⟩
  · intro b hb c hc q hqb hqc
    rcases Finset.mem_union.mp hb with hb | hb <;>
      rcases Finset.mem_union.mp hc with hc | hc
    · exact hA.apart b hb c hc q hqb hqc
    · exact absurd (hB.mem_range hc hqc).1 (Nat.not_le.mpr (hA.mem_range hb hqb).2)
    · exact absurd (hB.mem_range hb hqb).1 (Nat.not_le.mpr (hA.mem_range hc hqc).2)
    · exact hB.apart b hb c hc q hqb hqc

theorem singles (lo hi : ℕ) : Tiles lo hi ((Finset.Ico lo hi).image fun q => ⟨q, 0⟩) := by
  have hpage : ∀ p q : ℕ, q ∈ (⟨p, 0⟩ : Block).pages ↔ q = p := by
    intro p q
    rw [mem_pages]
    simp only [pow_zero]
    omega
  refine ⟨?_, ?_, ?_⟩
  · intro b hb
    obtain ⟨p, hp, rfl⟩ := Finset.mem_image.mp hb
    exact Finset.mem_Ico.mp hp
  · intro q hlo hhi
    exact ⟨_, Finset.mem_image_of_mem _ (Finset.mem_Ico.mpr ⟨hlo, hhi⟩), (hpage q q).mpr rfl⟩
  · intro b hb c hc q hqb hqc
    obtain ⟨p, hp, rfl⟩ := Finset.mem_image.mp hb
    obtain ⟨p', hp', rfl⟩ := Finset.mem_image.mp hc
    rw [← (hpage p q).mp hqb, ← (hpage p' q).mp hqc]

end Tiles

/-! ## Splitting and merging -/

def splitBlock (p k : ℕ) (B : Finset Block) : Finset Block :=
  {⟨p, k⟩, ⟨p + 2 ^ k, k⟩} ∪ (B \ {⟨p, k + 1⟩})

/-- The neighbours `⟨p, k⟩` and `⟨p + 2 ^ k, k⟩` replaced by their union. -/
def mergeBlocks (p k : ℕ) (B : Finset Block) : Finset Block :=
  {⟨p, k + 1⟩} ∪ (B \ {⟨p, k⟩, ⟨p + 2 ^ k, k⟩})

theorem mem_mergeBlocks {p k : ℕ} {B : Finset Block} {b : Block} :
    b ∈ mergeBlocks p k B ↔
      b = ⟨p, k + 1⟩ ∨ b ∈ B ∧ b ≠ ⟨p, k⟩ ∧ b ≠ ⟨p + 2 ^ k, k⟩ := by
  simp [mergeBlocks]

theorem halves_pages (p k q : ℕ) :
    (∃ a ∈ ({⟨p, k⟩, ⟨p + 2 ^ k, k⟩} : Finset Block), q ∈ a.pages) ↔
      ∃ a ∈ ({⟨p, k + 1⟩} : Finset Block), q ∈ a.pages := by
  simp [mem_pages_halves]

theorem halves_apart (p k : ℕ) :
    Apart ({⟨p, k⟩, ⟨p + 2 ^ k, k⟩} : Finset Block) := by
  intro b hb c hc q hqb hqc
  simp only [Finset.mem_insert, Finset.mem_singleton] at hb hc
  rcases hb with rfl | rfl <;> rcases hc with rfl | rfl
  · rfl
  · exact (halves_disjoint hqb hqc).elim
  · exact (halves_disjoint hqc hqb).elim
  · rfl

theorem Tiles.split {lo hi p k : ℕ} {B : Finset Block} (ht : Tiles lo hi B)
    (hb : (⟨p, k + 1⟩ : Block) ∈ B) : Tiles lo hi (splitBlock p k B) :=
  ht.exchange (Finset.singleton_subset_iff.mpr hb) (halves_pages p k)
    (halves_apart p k)

theorem Tiles.merge {lo hi p k : ℕ} {B : Finset Block} (ht : Tiles lo hi B)
    (hl : (⟨p, k⟩ : Block) ∈ B) (hr : (⟨p + 2 ^ k, k⟩ : Block) ∈ B) :
    Tiles lo hi (mergeBlocks p k B) := by
  refine ht.exchange ?_ (fun q => (halves_pages p k q).symm) ?_
  · intro b hb
    simp only [Finset.mem_insert, Finset.mem_singleton] at hb
    rcases hb with rfl | rfl
    · exact hl
    · exact hr
  · intro b hb c hc q _ _
    rw [Finset.mem_singleton.mp hb, Finset.mem_singleton.mp hc]

/-- Blocks merged pair by pair, each with the block that differs from it in
the bit of their order. -/
inductive Merged : Finset Block → Finset Block → Prop
  | refl (B : Finset Block) : Merged B B
  | step {B B' : Finset Block} {p k : ℕ} : (⟨p, k⟩ : Block) ∈ B →
      (⟨p + 2 ^ k, k⟩ : Block) ∈ B → p.testBit k = false →
      Merged (mergeBlocks p k B) B' → Merged B B'

end Rpos.Base
