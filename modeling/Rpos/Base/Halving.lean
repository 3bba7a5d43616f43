import Rpos.Base.Tiling

/-!
# Blocks obtained by halving

A block halves evenly when its base has the bit of the halves' order clear:
then the two halves differ in that bit, and a merge of blocks that differ in
the bit of their order puts them together again. If all blocks of a tiling
come from some root blocks by even halving, and no merge is left to be done,
the tiling is that of the roots.
-/

namespace Rpos.Base

open Block

inductive Halving (root : Block) : Block → Prop
  | root : Halving root root
  | lower {p k : ℕ} : Halving root ⟨p, k + 1⟩ → p.testBit k = false →
      Halving root ⟨p, k⟩
  | upper {p k : ℕ} : Halving root ⟨p, k + 1⟩ → p.testBit k = false →
      Halving root ⟨p + 2 ^ k, k⟩

namespace Halving

variable {root b c : Block}

theorem order_le (h : Halving root b) : b.order ≤ root.order := by
  induction h with
  | root => exact le_refl _
  | lower _ _ ih => exact (Nat.le_succ _).trans ih
  | upper _ _ ih => exact (Nat.le_succ _).trans ih

theorem pages_subset (h : Halving root b) : b.pages ⊆ root.pages := by
  induction h with
  | root => exact fun _ hq => hq
  | lower _ _ ih => exact fun _ hq => ih (mem_pages_halves.mpr (Or.inl hq))
  | upper _ _ ih => exact fun _ hq => ih (mem_pages_halves.mpr (Or.inr hq))

/-- The blocks of one order that come from `root` are counted from its base. -/
theorem aligned (h : Halving root b) :
    ∃ a, b.base = root.base + a * 2 ^ b.order := by
  induction h with
  | root => exact ⟨0, by simp⟩
  | @lower p k _ _ ih =>
      obtain ⟨a, ha⟩ := ih
      refine ⟨2 * a, ?_⟩
      simp only at ha ⊢
      rw [ha, pow_succ]
      ring
  | @upper p k _ _ ih =>
      obtain ⟨a, ha⟩ := ih
      refine ⟨2 * a + 1, ?_⟩
      simp only at ha ⊢
      rw [ha, pow_succ]
      ring

theorem mem_pages_iff {a q : ℕ} (ha : b.base = root.base + a * 2 ^ b.order) :
    q ∈ b.pages ↔ root.base ≤ q ∧ (q - root.base) / 2 ^ b.order = a := by
  have hpos := Nat.two_pow_pos b.order
  rw [mem_pages, ha, Nat.div_eq_iff hpos]
  generalize 2 ^ b.order = n at *
  have hn : (a + 1) * n = a * n + n := by ring
  constructor
  · rintro ⟨hl, hh⟩
    omega
  · rintro ⟨hl, hl', hh⟩
    omega

/-- Of two overlapping blocks the smaller one lies in the larger one. -/
theorem nested (hb : Halving root b) (hc : Halving root c)
    (hle : c.order ≤ b.order) {q : ℕ} (hqb : q ∈ b.pages) (hqc : q ∈ c.pages) :
    c.pages ⊆ b.pages := by
  obtain ⟨a, ha⟩ := hb.aligned
  obtain ⟨a', ha'⟩ := hc.aligned
  have hpow : 2 ^ b.order = 2 ^ c.order * 2 ^ (b.order - c.order) := by
    rw [← pow_add, Nat.add_sub_cancel' hle]
  intro x hx
  rw [mem_pages_iff ha, hpow, ← Nat.div_div_eq_div_mul] at hqb ⊢
  rw [mem_pages_iff ha'] at hqc hx
  rw [hx.2]
  rw [hqc.2] at hqb
  exact ⟨hx.1, hqb.2⟩

end Halving

def Grown (I B : Finset Block) : Prop :=
  ∀ b ∈ B, ∃ r ∈ I, Halving r b

namespace Grown

variable {I B B' : Finset Block} {lo hi p k : ℕ}

theorem refl (I : Finset Block) : Grown I I :=
  fun b hb => ⟨b, hb, .root⟩

theorem split (h : Grown I B) (hb : (⟨p, k + 1⟩ : Block) ∈ B)
    (hbit : p.testBit k = false) : Grown I (splitBlock p k B) := by
  intro b hb'
  obtain ⟨r, hr, hroot⟩ := h _ hb
  rcases Finset.mem_union.mp hb' with hnew | hold
  · refine ⟨r, hr, ?_⟩
    rcases Finset.mem_insert.mp hnew with rfl | hnew
    · exact hroot.lower hbit
    · rw [Finset.mem_singleton.mp hnew]
      exact hroot.upper hbit
  · exact h b (Finset.mem_sdiff.mp hold).1

/-- A merge of two blocks that differ in the bit of their order undoes a
halving, when no two roots have one order. -/
theorem merge (h : Grown I B)
    (horders : ∀ r ∈ I, ∀ s ∈ I, r.order = s.order → r = s)
    (hl : (⟨p, k⟩ : Block) ∈ B) (hu : (⟨p + 2 ^ k, k⟩ : Block) ∈ B)
    (hbit : p.testBit k = false) : Grown I (mergeBlocks p k B) := by
  have hpos := Nat.two_pow_pos k
  have hbit' : (p + 2 ^ k).testBit k = true := by
    rw [Nat.add_comm, Nat.testBit_two_pow_add_eq, hbit, Bool.not_false]
  have hparent : ∃ r ∈ I, Halving r ⟨p, k + 1⟩ := by
    obtain ⟨r, hr, hroot⟩ := h _ hl
    obtain ⟨s, hs, hroot'⟩ := h _ hu
    generalize hx : (⟨p, k⟩ : Block) = x at hroot
    generalize hy : (⟨p + 2 ^ k, k⟩ : Block) = y at hroot'
    cases hroot with
    | lower hp _ =>
        rw [Block.mk.injEq] at hx
        obtain ⟨rfl, rfl⟩ := hx
        exact ⟨r, hr, hp⟩
    | upper hp hclear =>
        -- an upper half has the bit set
        rw [Block.mk.injEq] at hx
        obtain ⟨hx, rfl⟩ := hx
        rw [hx, Nat.add_comm, Nat.testBit_two_pow_add_eq, hclear] at hbit
        exact absurd hbit (by decide)
    | root =>
        cases hroot' with
        | lower _ hclear =>
            rw [Block.mk.injEq] at hy
            obtain ⟨rfl, rfl⟩ := hy
            rw [hbit'] at hclear
            exact absurd hclear (by decide)
        | upper hp _ =>
            rw [Block.mk.injEq] at hy
            obtain ⟨hy, rfl⟩ := hy
            rw [Nat.add_right_cancel hy]
            exact ⟨s, hs, hp⟩
        | root =>
            have heq := horders _ hr _ hs (by rw [← hx, ← hy])
            rw [← hx, ← hy, Block.mk.injEq] at heq
            omega
  intro b hb
  rcases mem_mergeBlocks.mp hb with rfl | ⟨hb, -⟩
  · exact hparent
  · exact h b hb

theorem merged (h : Grown I B)
    (horders : ∀ r ∈ I, ∀ s ∈ I, r.order = s.order → r = s)
    (hm : Merged B B') : Grown I B' := by
  induction hm with
  | refl B => exact h
  | step hl hu hbit _ ih => exact ih (h.merge horders hl hu hbit)

/-- If no merge is left to be done, every block of a tiling is a root. The
induction is on the order: the half next to a block that is no root is covered
by blocks of its order or less, and those of less are roots. -/
theorem mem_roots (h : Grown I B) (hI : Tiles lo hi I) (hB : Tiles lo hi B)
    (hdone : ∀ p k, p.testBit k = false → (⟨p, k⟩ : Block) ∈ B →
      (⟨p + 2 ^ k, k⟩ : Block) ∉ B) :
    ∀ k p, (⟨p, k⟩ : Block) ∈ B → (⟨p, k⟩ : Block) ∈ I := by
  intro k
  induction k using Nat.strong_induction_on with
  | _ k ih =>
  intro p hp
  obtain ⟨r, hr, hroot⟩ := h _ hp
  -- the other half of the block that `b` is a half of, and `b`, are both in `B`
  have hsibling : ∀ b s parent : Block, b ∈ B → b.order = k → s.order = k →
      parent.order = k + 1 → Halving r s → Halving r parent →
      b.pages ⊆ parent.pages → s.pages ⊆ parent.pages → s ∈ B := by
    intro b s parent hb hbk hsk hparentk hs hparent hbsub hssub
    have hbase := hs.pages_subset s.base_mem
    have hrange := hI.mem_range hr hbase
    obtain ⟨c, hc, hsc⟩ := hB.cover s.base hrange.1 hrange.2
    obtain ⟨r', hr', hroot'⟩ := h _ hc
    obtain rfl : r' = r :=
      hI.apart r' hr' r hr s.base (hroot'.pages_subset hsc) hbase
    rcases Nat.lt_trichotomy c.order k with hlt | heq | hgt
    · have hcI : c ∈ I := ih c.order hlt c.base hc
      have hcr := hI.apart c hcI r' hr s.base hsc hbase
      have hle := hparent.order_le
      rw [← hcr] at hle
      omega
    · have hsub := hs.nested hroot' (by omega) s.base_mem hsc
      have hsub' := hroot'.nested hs (by omega) hsc s.base_mem
      have hl := mem_pages.mp (hsub c.base_mem)
      have hu := mem_pages.mp (hsub' s.base_mem)
      have hcs : c = s := by
        obtain ⟨cb, ck⟩ := c
        obtain ⟨sb, sk⟩ := s
        simp only at heq hsk hl hu
        rw [Block.mk.injEq]
        omega
      exact hcs ▸ hc
    · have hsub := hroot'.nested hparent (by omega) hsc (hssub s.base_mem)
      have hbc := hB.apart b hb c hc b.base b.base_mem (hsub (hbsub b.base_mem))
      rw [← hbc, hbk] at hgt
      exact absurd hgt (Nat.lt_irrefl k)
  have hlower : ∀ q, (⟨q, k⟩ : Block).pages ⊆ (⟨q, k + 1⟩ : Block).pages :=
    fun q x hx => mem_pages_halves.mpr (Or.inl hx)
  have hupper : ∀ q, (⟨q + 2 ^ k, k⟩ : Block).pages ⊆
      (⟨q, k + 1⟩ : Block).pages :=
    fun q x hx => mem_pages_halves.mpr (Or.inr hx)
  generalize hb : (⟨p, k⟩ : Block) = b at hroot
  cases hroot with
  | root => exact hr
  | @lower q j hparent hclear =>
      rw [Block.mk.injEq] at hb
      obtain ⟨rfl, rfl⟩ := hb
      refine absurd (hsibling ⟨p, k⟩ ⟨p + 2 ^ k, k⟩ ⟨p, k + 1⟩ hp rfl rfl rfl
        (hparent.upper hclear) hparent (hlower p) (hupper p)) ?_
      exact hdone p k hclear hp
  | @upper q j hparent hclear =>
      rw [Block.mk.injEq] at hb
      obtain ⟨rfl, rfl⟩ := hb
      have hs := hsibling ⟨q + 2 ^ k, k⟩ ⟨q, k⟩ ⟨q, k + 1⟩ hp rfl rfl rfl
        (hparent.lower hclear) hparent (hupper q) (hlower q)
      exact absurd hp (hdone q k hclear hs)

theorem eq_roots (h : Grown I B) (hI : Tiles lo hi I) (hB : Tiles lo hi B)
    (hdone : ∀ p k, p.testBit k = false → (⟨p, k⟩ : Block) ∈ B →
      (⟨p + 2 ^ k, k⟩ : Block) ∉ B) : B = I := by
  have hsub := h.mem_roots hI hB hdone
  ext b
  refine ⟨fun hb => hsub b.order b.base hb, fun hb => ?_⟩
  have hrange := hI.base_lt hb
  obtain ⟨c, hc, hbc⟩ := hB.cover b.base hrange.1 hrange.2
  have heq := hI.apart b hb c (hsub c.order c.base hc) b.base b.base_mem hbc
  exact heq ▸ hc

end Grown

end Rpos.Base
