import Rpos.Memory.Kmalloc

/-!
# The slots of a slab

A slab of class `c` is a block of pages: its header, then slots of `2 ^ (c + 5)` bytes.
The bitmap of the header has a bit for each slot. Slots are apart from each other and
from the header, and the loop of `_addr_from_slab` takes the first whose bit is clear.
-/

namespace Rpos

open Base

/-! ## §1  Where the slots lie -/

def slotLog (c : ℕ) : ℕ := c + minSlabOrder

def slotSize (c : ℕ) : ℕ := 2 ^ slotLog c

def slotStart (c : ℕ) : ℕ := alignUpTo sizeofSlab (slotSize c)

def slabOrder (c : ℕ) : ℕ := slabBlockOrder (slotLog c)

def slabTotal (c : ℕ) : ℕ := (pageSize * 2 ^ slabOrder c - slotStart c) / slotSize c

def slotAddr (c s i : ℕ) : ℕ := s + slotStart c + i * slotSize c

section Layout

variable {c i j : ℕ}

theorem slotSize_pos (c : ℕ) : 0 < slotSize c := Nat.two_pow_pos _

theorem slotSize_dvd_start (c : ℕ) : slotSize c ∣ slotStart c := Nat.dvd_mul_left _ _

theorem sizeofSlab_le_start (c : ℕ) : sizeofSlab ≤ slotStart c := by
  have hpos := slotSize_pos c
  have hdiv := Nat.div_add_mod (sizeofSlab + (slotSize c - 1)) (slotSize c)
  have hmod := Nat.mod_lt (sizeofSlab + (slotSize c - 1)) hpos
  rw [slotStart, alignUpTo, Nat.mul_comm]
  omega

theorem slabTotal_bounds (hc : c < caches) : 0 < slabTotal c ∧ slabTotal c ≤ 126 := by
  revert c
  decide

/-- Only the smallest class has more slots than one word of the bitmap. -/
theorem slabTotal_le_word (hc : c < caches) (h0 : c ≠ 0) : slabTotal c ≤ 64 := by
  revert c
  decide

theorem slabOrder_le (hc : c < caches) : slabOrder c ≤ 2 := by
  revert c
  decide

theorem slot_end (hi : i < slabTotal c) :
    slotStart c + i * slotSize c + slotSize c ≤ pageSize * 2 ^ slabOrder c := by
  have hmul : (i + 1) * slotSize c ≤ slabTotal c * slotSize c := Nat.mul_le_mul_right _ hi
  have hdiv := Nat.div_mul_le_self (pageSize * 2 ^ slabOrder c - slotStart c) (slotSize c)
  rw [← slabTotal] at hdiv
  have hpos := slotSize_pos c
  rw [Nat.add_mul, Nat.one_mul] at hmul
  omega

theorem slots_apart (h : i < j) (s : ℕ) : slotAddr c s i + slotSize c ≤ slotAddr c s j := by
  have hmul : (i + 1) * slotSize c ≤ j * slotSize c := Nat.mul_le_mul_right _ h
  rw [Nat.add_mul, Nat.one_mul] at hmul
  simp only [slotAddr]
  omega

theorem slotAddr_inj {s : ℕ} (h : slotAddr c s i = slotAddr c s j) : i = j := by
  have hpos := slotSize_pos c
  rcases Nat.lt_trichotomy i j with hlt | heq | hgt
  · have hle := slots_apart (c := c) hlt s
    omega
  · exact heq
  · have hle := slots_apart (c := c) hgt s
    omega

theorem slot_index (c i : ℕ) :
    (slotStart c + i * slotSize c) / slotSize c - slotStart c / slotSize c = i := by
  rw [Nat.add_mul_div_right _ _ (slotSize_pos c), Nat.add_sub_cancel_left]

theorem itemSize_slotLog (hc : c < caches) : itemSize (slotLog c) = slotSize c := by
  have hlog : slotLog c % 32 = slotLog c ∧ slotLog c ≠ 31 := by
    simp only [slotLog, caches, minSlabOrder] at *
    omega
  rw [itemSize, hlog.1, if_neg hlog.2, slotSize]

end Layout

/-! ## §2  The words of the header -/

/-- A place for a slab: a page of RAM behind the array of the caches. -/
structure SlabPlace (kcaches s : ℕ) : Prop where
  inRam : InRam s
  aligned : s % pageSize = 0
  behind : kcaches + 224 ≤ s

namespace Slab

def bit (m : Machine) (s i : ℕ) : Bool := (m.word (bitmapWord s i)).getLsbD (i % 64)

def inuseOf (m : Machine) (s : ℕ) : ℕ := inuse.get (m.word (countsWord s))
def totalOf (m : Machine) (s : ℕ) : ℕ := total.get (m.word (countsWord s))
def orderOf (m : Machine) (s : ℕ) : ℕ := Slab.slabOrder.get (m.word (countsWord s))

end Slab

namespace Machine

def markSlot (m : Machine) (s i : ℕ) : Machine :=
  m.setWord (Slab.bitmapWord s i) (m.word (Slab.bitmapWord s i) ||| BitVec.twoPow 64 (i % 64))

def unmarkSlot (m : Machine) (s i : ℕ) : Machine :=
  m.setWord (Slab.bitmapWord s i)
    (m.word (Slab.bitmapWord s i) &&& ~~~(BitVec.twoPow 64 (i % 64)))

def setInuse (m : Machine) (s n : ℕ) : Machine :=
  m.setWord (Slab.countsWord s) (Slab.inuse.set (m.word (Slab.countsWord s)) n)

end Machine

section Words

variable {kcaches s i j k n : ℕ} {m : Machine}

theorem SlabPlace.word (hs : SlabPlace kcaches s) (hk : k < 512) : InRam (s + 8 * k) := by
  obtain ⟨⟨hlow, hhigh, -⟩, haligned, -⟩ := hs
  simp only [pageSize, virtBase] at *
  refine ⟨?_, ?_, ?_⟩
  · rw [virtBase]
    omega
  · rw [virtBase]
    omega
  · omega

theorem SlabPlace.bitmapWord (hs : SlabPlace kcaches s) (hi : i < 2048) :
    Slab.bitmapWord s i = s + 8 * (2 + i / 64) := by
  have hlt := (hs.word (k := 2 + i / 64) (by omega)).lt
  rw [Slab.bitmapWord, Nat.mod_eq_of_lt (by omega)]
  omega

/-- The bitmap has two words; the next one is that of the counts. -/
theorem SlabPlace.bitmapWord_ne (hs : SlabPlace kcaches s) (hi : i < 128) :
    Slab.bitmapWord s i ≠ Slab.countsWord s := by
  rw [hs.bitmapWord (by omega), Slab.countsWord]
  omega

theorem SlabPlace.bitmapWord_past (hs : SlabPlace kcaches s) (hi : i < 64) :
    Slab.bitmapWord s (128 + i) = Slab.countsWord s := by
  rw [hs.bitmapWord (by omega), Slab.countsWord]
  omega

theorem SlabPlace.bitmap_inRam (hs : SlabPlace kcaches s) (hi : i < 2048) :
    InRam (Slab.bitmapWord s i) := by
  rw [hs.bitmapWord hi]
  exact hs.word (by omega)

theorem SlabPlace.counts_inRam (hs : SlabPlace kcaches s) : InRam (Slab.countsWord s) :=
  hs.word (k := 4) (by omega)

theorem SlabPlace.setInuse_get (hs : SlabPlace kcaches s) (m : Machine) (n : ℕ) :
    Slab.inuseOf (m.setInuse s n) s = n % 2 ^ 16 ∧
      Slab.totalOf (m.setInuse s n) s = Slab.totalOf m s ∧
      Slab.orderOf (m.setInuse s n) s = Slab.orderOf m s := by
  have hword : (m.setInuse s n).word (Slab.countsWord s) =
      Slab.inuse.set (m.word (Slab.countsWord s)) n := by
    rw [Machine.setInuse, Machine.setWord_word hs.counts_inRam hs.counts_inRam, if_pos rfl]
  refine ⟨?_, ?_, ?_⟩
  · rw [Slab.inuseOf, hword, BitField.get_set]
    rfl
  · rw [Slab.totalOf, hword, BitField.get_set_of_disjoint (by decide)]
    rfl
  · rw [Slab.orderOf, hword, BitField.get_set_of_disjoint (by decide)]
    rfl

theorem SlabPlace.setInuse_word (hs : SlabPlace kcaches s) {w : ℕ} (hw : InRam w)
    (hne : w ≠ Slab.countsWord s) (m : Machine) (n : ℕ) :
    (m.setInuse s n).word w = m.word w := by
  rw [Machine.setInuse, Machine.setWord_word hs.counts_inRam hw, if_neg hne]

theorem SlabPlace.markSlot_word (hs : SlabPlace kcaches s) (hi : i < 2048) {w : ℕ}
    (hw : InRam w) (hne : w ≠ Slab.bitmapWord s i) (m : Machine) :
    (m.markSlot s i).word w = m.word w := by
  rw [Machine.markSlot, Machine.setWord_word (hs.bitmap_inRam hi) hw, if_neg hne]

theorem SlabPlace.unmarkSlot_word (hs : SlabPlace kcaches s) (hi : i < 2048) {w : ℕ}
    (hw : InRam w) (hne : w ≠ Slab.bitmapWord s i) (m : Machine) :
    (m.unmarkSlot s i).word w = m.word w := by
  rw [Machine.unmarkSlot, Machine.setWord_word (hs.bitmap_inRam hi) hw, if_neg hne]

theorem SlabPlace.bit_eq (hs : SlabPlace kcaches s) (hi : i < 2048) (hj : j < 2048)
    (hword : Slab.bitmapWord s j = Slab.bitmapWord s i) : j % 64 = i % 64 ↔ j = i := by
  rw [hs.bitmapWord hi, hs.bitmapWord hj] at hword
  omega

theorem SlabPlace.markSlot_bit (hs : SlabPlace kcaches s) (hi : i < 2048) (hj : j < 2048)
    (m : Machine) : Slab.bit (m.markSlot s i) s j = (decide (j = i) || Slab.bit m s j) := by
  by_cases hword : Slab.bitmapWord s j = Slab.bitmapWord s i
  · have hlt : j % 64 < 64 := Nat.mod_lt _ (by decide)
    have heq := hs.bit_eq hi hj hword
    rw [Slab.bit, Machine.markSlot, Machine.setWord_word (hs.bitmap_inRam hi)
      (hs.bitmap_inRam hj), if_pos hword, BitVec.getLsbD_or, BitVec.getLsbD_twoPow, Slab.bit,
      hword, Bool.or_comm]
    congr 1
    simp only [eq_comm (a := i % 64), heq, Nat.mod_lt _ (by decide : 0 < 64), decide_true,
      Bool.true_and]
  · have hne : j ≠ i := fun h => hword (by rw [h])
    rw [Slab.bit, hs.markSlot_word hi (hs.bitmap_inRam hj) hword, decide_eq_false hne,
      Bool.false_or, Slab.bit]

theorem SlabPlace.unmarkSlot_bit (hs : SlabPlace kcaches s) (hi : i < 2048) (hj : j < 2048)
    (m : Machine) :
    Slab.bit (m.unmarkSlot s i) s j = (decide (j ≠ i) && Slab.bit m s j) := by
  by_cases hword : Slab.bitmapWord s j = Slab.bitmapWord s i
  · have hlt : j % 64 < 64 := Nat.mod_lt _ (by decide)
    have heq := hs.bit_eq hi hj hword
    rw [Slab.bit, Machine.unmarkSlot, Machine.setWord_word (hs.bitmap_inRam hi)
      (hs.bitmap_inRam hj), if_pos hword, BitVec.getLsbD_and, BitVec.getLsbD_not,
      BitVec.getLsbD_twoPow, Slab.bit, hword, Bool.and_comm]
    congr 1
    simp only [eq_comm (a := i % 64), heq, hlt, Nat.mod_lt _ (by decide : 0 < 64),
      decide_true, Bool.true_and, decide_not]
  · have hne : j ≠ i := fun h => hword (by rw [h])
    rw [Slab.bit, hs.unmarkSlot_word hi (hs.bitmap_inRam hj) hword, decide_eq_true hne,
      Bool.true_and, Slab.bit]

end Words

/-! ## §3  `_addr_from_slab` -/

def Machine.takeSlot (m : Machine) (s i : ℕ) : Machine :=
  (m.markSlot s i).setInuse s (Slab.inuseOf (m.markSlot s i) s + 1)

section Take

variable {kcaches s i k n : ℕ} {m : Machine}

theorem slabBitLoop_step (hs : SlabPlace kcaches s) (hi : i < 2048) :
    slabBitLoop s (n + 1) i m =
      if Slab.bit m s i = true then slabBitLoop s n (i + 1) m
      else
        some ((s + alignUpTo sizeofSlab (itemSize (Slab.orderOf (m.takeSlot s i) s)) +
          i * itemSize (Slab.orderOf (m.takeSlot s i) s)) % 2 ^ 64, m.takeSlot s i) := by
  have hw := hs.bitmap_inRam hi
  have hc := hs.counts_inRam
  rw [slabBitLoop, Nat.mod_eq_of_lt hi, Machine.readWord_eq hw]
  simp only [Option.bind_eq_bind, Option.bind_some, Machine.writeWord_eq hw,
    Machine.readWord_eq hc, Machine.writeWord_eq hc]
  rfl

theorem slabBitLoop_found (hs : SlabPlace kcaches s) (n : ℕ) :
    ∀ i, k < 2048 → i ≤ k → k < i + n →
      (∀ j, i ≤ j → j < k → Slab.bit m s j = true) → Slab.bit m s k = false →
      slabBitLoop s n i m =
        some ((s + alignUpTo sizeofSlab (itemSize (Slab.orderOf (m.takeSlot s k) s)) +
          k * itemSize (Slab.orderOf (m.takeSlot s k) s)) % 2 ^ 64, m.takeSlot s k) := by
  induction n with
  | zero =>
      intro i _ hle hlt
      omega
  | succ n ih =>
      intro i hbound hle hlt hset hclear
      rw [slabBitLoop_step hs (by omega)]
      rcases Nat.eq_or_lt_of_le hle with rfl | hik
      · rw [if_neg (by rw [hclear]; exact Bool.false_ne_true)]
      · rw [if_pos (hset i le_rfl hik)]
        exact ih (i + 1) (by omega) hik (by omega)
          (fun j hj => hset j (Nat.le_of_succ_le hj)) hclear

theorem slabBitLoop_full (hs : SlabPlace kcaches s) (n : ℕ) :
    ∀ i, i + n ≤ 2048 → (∀ j, i ≤ j → j < i + n → Slab.bit m s j = true) →
      slabBitLoop s n i m = some (0, m) := by
  induction n with
  | zero => exact fun _ _ _ => rfl
  | succ n ih =>
      intro i hbound hset
      rw [slabBitLoop_step hs (by omega), if_pos (hset i le_rfl (by omega))]
      exact ih (i + 1) (by omega) fun j hj hlt => hset j (by omega) (by omega)

theorem addrFromSlab_eq (hs : SlabPlace kcaches s) :
    addrFromSlab s m = slabBitLoop s (Slab.totalOf m s) 0 m := by
  rw [addrFromSlab, Machine.readWord_eq hs.counts_inRam]
  rfl

end Take

end Rpos
