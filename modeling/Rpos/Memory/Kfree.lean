import Rpos.Memory.SlabLists

/-!
# `kfree`

`_slab_free` and `kfree` of `memory/kmalloc.c`. The slab of a pointer is the head of the
block that its page lies in. `none` means, as for `kmalloc`, that the source follows a
pointer out of RAM or out of the page frame array.
-/

namespace Rpos

open Base

/-! ## §1  The functions -/

namespace Slab

def lessInuse (counts : Word) : Word := inuse.set counts (inuse.get counts + (2 ^ 16 - 1))

/-- The `offset` of `_slab_free`, in `size_t` arithmetic. -/
def offset (slabHead size ptr : ℕ) : ℕ :=
  let metadataSize := alignUpTo sizeofSlab size / size
  ((ptr + (2 ^ 64 - slabHead)) % 2 ^ 64 / size + (2 ^ 64 - metadataSize)) % 2 ^ 64

end Slab

/-- The end of `_slab_free`: one object less, and an empty slab goes back to the buddy
allocator. -/
def slabDrop (slabHead : ℕ) (m : Machine) : Option Machine := do
  let counts ← m.readWord (Slab.countsWord slabHead)
  let m ← m.writeWord (Slab.countsWord slabHead) (Slab.lessInuse counts)
  let counts ← m.readWord (Slab.countsWord slabHead)
  if Slab.inuse.get counts = 0 then
    let m ← m.listRemove slabHead
    let buddy ← buddyFree slabHead m.buddy
    some { m with buddy := buddy }
  else some m

/-- `_slab_free`. `kcaches[slab_order - MIN_SLAB_ORDER]` is reached by pointer arithmetic. -/
def slabFree (kcaches ptr : ℕ) (m : Machine) : Option Machine := do
  let slabHead ← headFromPage (alignDown ptr) m.buddy
  let counts ← m.readWord (Slab.countsWord slabHead)
  let offset := Slab.offset slabHead (itemSize (Slab.slabOrder.get counts)) ptr
  let word := Slab.bitmapWord slabHead offset
  let bits ← m.readWord word
  if bits.getLsbD (offset % 64) then
    let m ← m.writeWord word (bits &&& ~~~(BitVec.twoPow 64 (offset % 64)))
    let counts ← m.readWord (Slab.countsWord slabHead)
    if Slab.inuse.get counts = Slab.total.get counts then
      let m ← m.listRemove slabHead
      let counts ← m.readWord (Slab.countsWord slabHead)
      let m ← m.listAdd slabHead
        (partialSlabs kcaches (Slab.slabOrder.get counts) - 32 * minSlabOrder)
      slabDrop slabHead m
    else slabDrop slabHead m
  else some m

inductive FreeEnd
  | returns (m : Machine)
  | panics

def kfree (kcaches ptr : ℕ) (m : Machine) : Option FreeEnd :=
  if ptr = 0 then some (.returns m)
  else do
    let owner ← getPageOwner (alignDown ptr) m.buddy
    if owner = pageBuddy then
      let buddy ← buddyFree (alignDown ptr) m.buddy
      some (.returns { m with buddy := buddy })
    else if owner = pageSlab then
      let m ← slabFree kcaches ptr m
      some (.returns m)
    else if owner = pageFree then some (.returns m)
    else some .panics

/-! ## §2  A slot of a slab -/

def Machine.lessInuse (m : Machine) (s : ℕ) : Machine :=
  m.setWord (Slab.countsWord s) (Slab.lessInuse (m.word (Slab.countsWord s)))

theorem Machine.lessInuse_eq (m : Machine) (s : ℕ) :
    m.lessInuse s = m.setInuse s (Slab.inuseOf m s + (2 ^ 16 - 1)) := by
  rw [Machine.lessInuse, Slab.lessInuse, Machine.setInuse, Slab.inuseOf]

section Slots

variable {kcaches c s i : ℕ} {m : Machine}

theorem SlabPlace.lessInuse_get (hs : SlabPlace kcaches s) (hpos : 0 < Slab.inuseOf m s) :
    Slab.inuseOf (m.lessInuse s) s = Slab.inuseOf m s - 1 ∧
      Slab.totalOf (m.lessInuse s) s = Slab.totalOf m s ∧
      Slab.orderOf (m.lessInuse s) s = Slab.orderOf m s := by
  obtain ⟨hinuse, htotal, horder⟩ := hs.setInuse_get m (Slab.inuseOf m s + (2 ^ 16 - 1))
  have hlt : Slab.inuseOf m s < 2 ^ 16 := BitField.get_lt Slab.inuse _
  rw [Machine.lessInuse_eq]
  refine ⟨hinuse.trans ?_, htotal, horder⟩
  omega

theorem slabDrop_eq (hs : SlabPlace kcaches s) :
    slabDrop s m =
      if Slab.inuseOf (m.lessInuse s) s = 0 then
        ((m.lessInuse s).listRemove s).bind fun m' =>
          (buddyFree s m'.buddy).map fun buddy => { m' with buddy := buddy }
      else some (m.lessInuse s) := by
  have hc := hs.counts_inRam
  rw [slabDrop, Machine.readWord_eq hc, Option.bind_eq_bind, Option.bind_some,
    Machine.writeWord_eq hc, Option.bind_eq_bind, Option.bind_some]
  show ((m.lessInuse s).readWord (Slab.countsWord s) >>= _) = _
  rw [Machine.readWord_eq hc, Option.bind_eq_bind, Option.bind_some]
  show (if Slab.inuseOf (m.lessInuse s) s = 0 then _ else _) = _
  congr 2
  funext m'
  cases buddyFree s m'.buddy <;> rfl

/-- The index that `_slab_free` computes for a slot is that of the slot. -/
theorem SlabPlace.offset_eq (hs : SlabPlace kcaches s) (hc : c < caches)
    (hi : i < slabTotal c) :
    Slab.offset s (slotSize c) (slotAddr c s i) = i := by
  have hhigh := hs.inRam.high
  have hend := slot_end hi
  have hsize := Nat.pow_le_pow_right (by decide : 0 < 2) (slabOrder_le hc)
  have hle : slotStart c / slotSize c ≤ (slotStart c + i * slotSize c) / slotSize c :=
    Nat.div_le_div_right (Nat.le_add_right _ _)
  have hsub : (slotAddr c s i + (2 ^ 64 - s)) % 2 ^ 64 = slotStart c + i * slotSize c := by
    simp only [slotAddr, virtBase, pageSize] at *
    omega
  have hlt : (slotStart c + i * slotSize c) / slotSize c < 2 ^ 64 := by
    apply (Nat.div_le_self _ _).trans_lt
    simp only [pageSize] at hend
    omega
  have hback : ∀ q t : ℕ, t ≤ q → q < 2 ^ 64 → (q + (2 ^ 64 - t)) % 2 ^ 64 = q - t := by
    intro q t hq hlt
    omega
  rw [Slab.offset, hsub, ← slotStart, hback _ _ hle hlt]
  exact slot_index c i

/-- `_slab_free` on a slot of a slab that the page of the slot leads to. -/
theorem slabFree_eq (hs : SlabPlace kcaches s) (hc : c < caches) (hi : i < slabTotal c)
    (hhead : headFromPage (alignDown (slotAddr c s i)) m.buddy = some s)
    (horder : Slab.orderOf m s = slotLog c) :
    slabFree kcaches (slotAddr c s i) m =
      if Slab.bit m s i = true then
        if Slab.inuseOf (m.unmarkSlot s i) s = Slab.totalOf (m.unmarkSlot s i) s then
          ((m.unmarkSlot s i).listRemove s).bind fun m₁ =>
            (m₁.readWord (Slab.countsWord s)).bind fun counts =>
              (m₁.listAdd s
                (partialSlabs kcaches (Slab.slabOrder.get counts) - 32 * minSlabOrder)).bind
                (slabDrop s)
        else slabDrop s (m.unmarkSlot s i)
      else some m := by
  have htotal := slabTotal_bounds hc
  have hw := hs.bitmap_inRam (i := i) (by omega)
  have hcounts := hs.counts_inRam
  have hsize : itemSize (Slab.slabOrder.get (m.word (Slab.countsWord s))) = slotSize c := by
    rw [← itemSize_slotLog hc, ← horder, Slab.orderOf]
  rw [slabFree, hhead, Option.bind_eq_bind, Option.bind_some, Machine.readWord_eq hcounts,
    Option.bind_eq_bind, Option.bind_some, hsize, hs.offset_eq hc hi]
  dsimp only
  rw [Machine.readWord_eq hw, Option.bind_eq_bind, Option.bind_some]
  show (if Slab.bit m s i = true then _ else _) = _
  by_cases hbit : Slab.bit m s i = true
  · rw [if_pos hbit, if_pos hbit, Machine.writeWord_eq hw, Option.bind_some]
    show ((m.unmarkSlot s i).readWord (Slab.countsWord s)).bind _ = _
    rw [Machine.readWord_eq hcounts, Option.bind_some]
    rfl
  · rw [if_neg hbit, if_neg hbit]

end Slots

end Rpos
