import Rpos.Filesystem.Elf
import Rpos.Memory.PagePool
import Rpos.Memory.UpdateMapping

/-!
# The pages of a segment

The page table side of one round of `readelf`: the pages of a segment are mapped one by one
for reading and writing, the bytes are read into `rootfs.block_buf` and copied through the
new tree, and `update_mapping` gives the range its own permissions. The number of pages
mapped is a power of two; the range for `update_mapping` is rounded to pages.

The kernel's heap, with `block_buf`, is a byte memory apart from the pages that the
machine's tables name, so that the theorems ask for a read that stays in its block. The
kernel has no handler for a fault of its own, so a copy that meets an unmapped page does not
return: `none`. A copy to an address of the kernel's half is `none` too.
-/

namespace Rpos

open Base

/-! ## §1  The round -/

def pfX : ℕ := 0x1
def pfW : ℕ := 0x2
def pfR : ℕ := 0x4

/-- `elf64_program_header`, with the permissions. -/
structure SegmentHeader extends ProgramHeader where
  pFlags : ℕ

namespace SegmentHeader

/-- The flags for `update_mapping`. -/
def flags (ph : SegmentHeader) : ℕ :=
  let flags := mapUser
  let flags := if ph.pFlags &&& pfR ≠ 0 then flags ||| mapRead else flags
  let flags := if ph.pFlags &&& pfW ≠ 0 then flags ||| mapWrite else flags
  if ph.pFlags &&& pfX ≠ 0 then flags ||| mapExec else flags

/-- `ALIGN_DOWN(p_vaddr, PAGE_SIZE)`. -/
def startAddr (ph : SegmentHeader) : ℕ := ph.pVaddr / pageSize * pageSize

/-- `ALIGN_UP(p_vaddr + p_memsz, PAGE_SIZE)`. -/
def endAddr (ph : SegmentHeader) : ℕ :=
  (ph.pVaddr + ph.pMemsz + (pageSize - 1)) % 2 ^ 64 / pageSize * pageSize

end SegmentHeader

structure FramesOnly (F : Set ℕ) (m m' : Machine) : Prop where
  buddy : m'.buddy = m.buddy
  ram : ∀ q, q ∉ F → m'.ram q = m.ram q

section Copy

variable {lo root : ℕ} {F : Set ℕ} {m m' m'' : Machine}

theorem FramesOnly.trans (h : FramesOnly F m m') (h' : FramesOnly F m' m'') :
    FramesOnly F m m'' :=
  ⟨h'.buddy.trans h.buddy, fun q hq => (h'.ram q hq).trans (h.ram q hq)⟩

theorem FramesOnly.tables (h : FramesOnly F m m') (hm : PagesOwned lo root F m) :
    ∀ q, 0 < pageRadix.tables m.ram 3 root q → m'.ram q = m.ram q :=
  fun q hq => h.ram q (hm.tables q hq).2

theorem FramesOnly.owned (h : FramesOnly F m m') (hm : PagesOwned lo root F m) :
    PagesOwned lo root F m' := by
  have hkeep := h.tables hm
  refine ⟨h.buddy ▸ hm.buddy, hm.tree.congr hkeep, fun q hq => ?_, fun q hq => ?_⟩
  · rw [Radix.tables_congr q hkeep] at hq
    rw [h.buddy]
    exact hm.tables q hq
  · rw [h.buddy]
    exact hm.frames q hq

theorem FramesOnly.lookup (h : FramesOnly F m m') (hm : PagesOwned lo root F m) (x : ℕ) :
    pageRadix.lookup m'.ram 3 root x = pageRadix.lookup m.ram 3 root x :=
  Radix.lookup_congr x (h.tables hm)

end Copy

/-! ## §3  The loop over the pages -/

/-- `buddy_alloc` returns a page in each round of the loop, and `Q` holds wherever the loop
requests a table. -/
def RoundsRequests (l0Table root : ℕ) (Q : Machine → Prop) (ph : SegmentHeader) :
    ℕ → ℕ → Machine → Prop
  | 0, _, _ => True
  | n + 1, i, m => ∀ block m₁, m.buddyAlloc pageSize = some (block, m₁) → block ≠ 0 ∧
      PageRequests (buddyAllocPt l0Table) Q ((ph.pVaddr + i * pageSize) % 2 ^ 64) root m₁ ∧
      ∀ m₂, kernelMap l0Table ((ph.pVaddr + i * pageSize) % 2 ^ 64) (vaToPa block) 0
        (mapUser ||| mapRead ||| mapWrite) root m₁ = some m₂ →
          RoundsRequests l0Table root Q ph n (i + 1) m₂

theorem RoundsRequests.imp₂ {l0Table root : ℕ} {Q Q' Q'' : Machine → Prop}
    {ph : SegmentHeader} (hQ : ∀ m, Q m → Q' m → Q'' m) (n : ℕ) :
    ∀ (i : ℕ) (m : Machine), RoundsRequests l0Table root Q ph n i m →
      RoundsRequests l0Table root Q' ph n i m → RoundsRequests l0Table root Q'' ph n i m := by
  induction n with
  | zero => exact fun _ _ _ _ => trivial
  | succ n ih =>
      intro i m h h' block m₁ halloc
      obtain ⟨hne, hreq, hrest⟩ := h block m₁ halloc
      obtain ⟨-, hreq', hrest'⟩ := h' block m₁ halloc
      exact ⟨hne, hreq.imp₂ hQ hreq', fun m₂ hmap => ih _ _ (hrest m₂ hmap) (hrest' m₂ hmap)⟩

theorem RoundsRequests.imp {l0Table root n i : ℕ} {Q Q' : Machine → Prop}
    {ph : SegmentHeader} {m : Machine} (hQ : ∀ m, Q m → Q' m)
    (h : RoundsRequests l0Table root Q ph n i m) : RoundsRequests l0Table root Q' ph n i m :=
  RoundsRequests.imp₂ (fun m hm _ => hQ m hm) n i m h h

section Rounds

variable {lo l0Table root : ℕ} {ph : SegmentHeader} {F : Set ℕ} {m : Machine}

end Rounds

/-! ## §4  The range of `update_mapping` -/

namespace SegmentHeader

def span (ph : SegmentHeader) : ℕ :=
  (ph.pVaddr + ph.pMemsz + (pageSize - 1)) / pageSize - ph.pVaddr / pageSize

variable {ph : SegmentHeader}

theorem pages_le (ph : SegmentHeader) : ph.pages ≤ max 1 (ph.pMemsz / pageSize) := by
  rw [ProgramHeader.pages]
  by_cases hzero : ph.pMemsz / 4096 = 0
  · rw [hzero]
    exact Nat.le_max_left _ _
  · exact le_trans (Nat.log2_self_le hzero) (Nat.le_max_right _ _)

end SegmentHeader

section Update

variable {root : ℕ} {ph : SegmentHeader} {m : Machine}

end Update

/-! ## §5  What a round leaves -/

section Segment

variable {lo l0Table root : ℕ} {ph : SegmentHeader} {F : Set ℕ} {m m' : Machine} {ps : List ℕ}

end Segment

end Rpos
