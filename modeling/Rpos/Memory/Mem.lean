import Rpos.Base.ByteMemory

/-!
# `memcpy` and `memset`

The copy and fill routines of `mem.c` and `mem.S`: 64-byte and 16-byte vector
loops followed by a loop over the remaining bytes. The vector loops test their
counter after the store. `memcpy` does not call them for no vector at all, but
`memset` does, so a `memset` of fewer than 16 bytes stores 16.
-/

namespace Rpos

open Base ByteMem

/-- Four vectors, each loaded and stored before the next. -/
def neon64Round (m : ByteMem) (dest src : ℕ) : ByteMem :=
  let m := m.move dest src 16
  let m := m.move (dest + 16) (src + 16) 16
  let m := m.move (dest + 32) (src + 32) 16
  m.move (dest + 48) (src + 48) 16

/-- `_neon_64_memcpy`: the counter is tested after the stores. -/
def neon64Memcpy (m : ByteMem) (dest src : ℕ) : ℕ → ByteMem
  | 0 => neon64Round m dest src
  | 1 => neon64Round m dest src
  | n + 2 => neon64Memcpy (neon64Round m dest src) (dest + 64) (src + 64) (n + 1)

def neon16Memcpy (m : ByteMem) (dest src : ℕ) : ℕ → ByteMem
  | 0 => m.move dest src 16
  | 1 => m.move dest src 16
  | n + 2 => neon16Memcpy (m.move dest src 16) (dest + 16) (src + 16) (n + 1)

def memcpy (m : ByteMem) (dest src bytes : ℕ) : ByteMem :=
  let bytes := bytes % 2 ^ 32
  let copyIters := bytes / 64
  let m := if copyIters ≠ 0 then neon64Memcpy m dest src copyIters else m
  let dest := dest + copyIters * 64
  let src := src + copyIters * 64
  let remainingBytes := bytes % 64
  let copyIters := remainingBytes / 16
  let m := if copyIters ≠ 0 then neon16Memcpy m dest src copyIters else m
  let dest := dest + copyIters * 16
  let src := src + copyIters * 16
  moveChunks 1 m dest src (remainingBytes % 16)

/-- `_neon_8_memset`: the counter is tested after the store. -/
def neon8Memset (m : ByteMem) (ptr : ℕ) (value : UInt8) : ℕ → ByteMem
  | 0 => m.fill ptr 16 value
  | 1 => m.fill ptr 16 value
  | n + 2 => neon8Memset (m.fill ptr 16 value) (ptr + 16) value (n + 1)

/-- `(unsigned char) value`. -/
def lowByte (value : BitVec 32) : UInt8 := UInt8.ofBitVec (value.setWidth 8)

def memset (m : ByteMem) (ptr : ℕ) (value : BitVec 32) (len : ℕ) : ByteMem :=
  let tail := len % 16
  let vectors := len / 16
  let m := neon8Memset m ptr (lowByte value) vectors
  fillBytes m (ptr + vectors * 16) (lowByte value) tail

variable {m : ByteMem} {dest src : ℕ}

/-! ## §1  `memcpy` -/

theorem neon64Round_eq (h : Forward dest src 64) :
    neon64Round m dest src = m.move dest src 64 := by
  unfold neon64Round
  dsimp only
  rw [move_move 16 16 (h.mono (by omega)), move_move 32 16 (h.mono (by omega)),
    move_move 48 16 (h.mono (by omega))]

/-- A copy of `n` chunks, `n` not zero, by a loop that tests its counter last. -/
theorem chunks_eq {c : ℕ} (chunk : ByteMem → ℕ → ℕ → ByteMem)
    {loop : ByteMem → ℕ → ℕ → ℕ → ByteMem}
    (hchunk : ∀ m d s, Forward d s c → chunk m d s = m.move d s c)
    (hone : ∀ m d s, loop m d s 1 = chunk m d s)
    (hmore : ∀ m d s n, loop m d s (n + 2) = loop (chunk m d s) (d + c) (s + c) (n + 1))
    (n : ℕ) (h : Forward dest src (c * (n + 1))) :
    loop m dest src (n + 1) = m.move dest src (c * (n + 1)) := by
  induction n generalizing m dest src with
  | zero =>
      rw [Nat.zero_add, Nat.mul_one] at h ⊢
      rw [hone, hchunk m dest src h]
  | succ n ih =>
      have hsum : c * (n + 1 + 1) = c + c * (n + 1) := by ring
      rw [hsum] at h ⊢
      rw [hmore, hchunk m dest src (h.mono (Nat.le_add_right _ _)), ih h.shift, move_move _ _ h]

theorem neon64Memcpy_eq (n : ℕ) (h : Forward dest src (64 * (n + 1))) :
    neon64Memcpy m dest src (n + 1) = m.move dest src (64 * (n + 1)) :=
  chunks_eq neon64Round (fun _ _ _ h => neon64Round_eq h) (fun _ _ _ => rfl)
    (fun _ _ _ _ => rfl) n h

theorem neon16Memcpy_eq (n : ℕ) (h : Forward dest src (16 * (n + 1))) :
    neon16Memcpy m dest src (n + 1) = m.move dest src (16 * (n + 1)) :=
  chunks_eq (fun m d s => m.move d s 16) (fun _ _ _ _ => rfl) (fun _ _ _ => rfl)
    (fun _ _ _ _ => rfl) n h

theorem guarded_eq {c : ℕ} {loop : ByteMem → ℕ → ℕ → ℕ → ByteMem}
    (hloop : ∀ n, Forward dest src (c * (n + 1)) →
      loop m dest src (n + 1) = m.move dest src (c * (n + 1)))
    (k : ℕ) (h : Forward dest src (k * c)) :
    (if k ≠ 0 then loop m dest src k else m) = m.move dest src (k * c) := by
  cases k with
  | zero => rw [if_neg (not_not.mpr rfl), Nat.zero_mul, move_zero]
  | succ n =>
      rw [Nat.mul_comm] at h ⊢
      rw [if_pos (Nat.succ_ne_zero n), hloop n h]

/-- A copy that does not run into its own source is one move. -/
theorem memcpy_eq {bytes : ℕ} (hbytes : bytes < 2 ^ 32) (h : Forward dest src bytes) :
    memcpy m dest src bytes = m.move dest src bytes := by
  unfold memcpy
  simp only [Nat.mod_eq_of_lt hbytes]
  set q := bytes / 64 with hq
  set k := bytes % 64 / 16 with hk
  set t := bytes % 64 % 16 with ht
  have htotal : bytes = q * 64 + (k * 16 + t) := by omega
  rw [htotal] at h
  rw [guarded_eq neon64Memcpy_eq q (h.mono (by omega)),
    guarded_eq neon16Memcpy_eq k (h.shift.mono (by omega)),
    move_move _ _ (h.mono (by omega)), moveChunks_eq 1 t, Nat.one_mul, Nat.add_assoc dest,
    Nat.add_assoc src, move_move _ _ (h.mono (by omega))]
  · congr 1
    omega
  · rw [Nat.one_mul]
    exact (h.shift).shift

theorem neon64Round_changesOnly :
    ChangesOnly (Set.Ico dest (dest + 64)) m (neon64Round m dest src) := by
  have hvector : ∀ (m : ByteMem) (k : ℕ), k + 16 ≤ 64 → ChangesOnly
      (Set.Ico dest (dest + 64)) m (m.move (dest + k) (src + k) 16) := by
    intro m k hk
    exact (store_changesOnly 16 _).mono (Set.Ico_subset_Ico (by omega) (by omega))
  unfold neon64Round
  dsimp only
  exact (((hvector _ 0 (by omega)).trans (hvector _ 16 (by omega))).trans
    (hvector _ 32 (by omega))).trans (hvector _ 48 (by omega))

/-- `memcpy` stores to its destination only, also where that overlaps the source. -/
theorem memcpy_changesOnly (m : ByteMem) (dest src bytes : ℕ) :
    ChangesOnly (Set.Ico dest (dest + bytes)) m (memcpy m dest src bytes) := by
  have h64 : ∀ n, ChangesOnly (Set.Ico dest (dest + 64 * (n + 1))) m
      (neon64Memcpy m dest src (n + 1)) :=
    chunks_changesOnly neon64Memcpy (fun _ _ _ => neon64Round_changesOnly)
      (fun m d s n => ⟨_, neon64Round_changesOnly, rfl⟩)
  have h16 : ∀ (m : ByteMem) (d s n : ℕ), ChangesOnly (Set.Ico d (d + 16 * (n + 1))) m
      (neon16Memcpy m d s (n + 1)) := fun m d s =>
    chunks_changesOnly neon16Memcpy
      (fun m d s => store_changesOnly 16 fun i => m (s + i))
      (fun m d s n => ⟨m.move d s 16, store_changesOnly 16 _, rfl⟩)
  unfold memcpy
  dsimp only
  set q := bytes % 2 ^ 32 / 64 with hq
  set k := bytes % 2 ^ 32 % 64 / 16 with hk
  have hfit : q * 64 + (k * 16 + bytes % 2 ^ 32 % 64 % 16) ≤ bytes := by omega
  have hfirst : ChangesOnly (Set.Ico dest (dest + bytes)) m
      (if q ≠ 0 then neon64Memcpy m dest src q else m) := by
    split
    · obtain ⟨n, hn⟩ := Nat.exists_eq_succ_of_ne_zero ‹q ≠ 0›
      rw [hn]
      exact (h64 n).mono (Set.Ico_subset_Ico_right (by omega))
    · exact ChangesOnly.refl _ _
  refine hfirst.trans ?_
  set m₁ := if q ≠ 0 then neon64Memcpy m dest src q else m
  have hsecond : ChangesOnly (Set.Ico dest (dest + bytes)) m₁
      (if k ≠ 0 then neon16Memcpy m₁ (dest + q * 64) (src + q * 64) k else m₁) := by
    split
    · obtain ⟨n, hn⟩ := Nat.exists_eq_succ_of_ne_zero ‹k ≠ 0›
      rw [hn]
      exact (h16 _ _ _ n).mono (Set.Ico_subset_Ico (by omega) (by omega))
    · exact ChangesOnly.refl _ _
  refine hsecond.trans ?_
  rcases Nat.eq_zero_or_pos (bytes % 2 ^ 32 % 64 % 16) with hzero | hpos
  · rw [hzero]
    exact ChangesOnly.refl _ _
  · obtain ⟨n, hn⟩ := Nat.exists_eq_succ_of_ne_zero (Nat.ne_of_gt hpos)
    rw [hn]
    refine (chunks_changesOnly (k := 1) (moveChunks 1)
      (fun m d s => store_changesOnly 1 fun i => m (s + i))
      (fun m d s n => ⟨m.move d s 1, store_changesOnly 1 _, rfl⟩) n).mono ?_
    exact Set.Ico_subset_Ico (by omega) (by omega)

/-- `memcpy` copies, byte by byte, the source as it was before, and changes nothing else,
for ranges that are apart and for a destination that does not lie above the source. -/
theorem memcpy_copies (m : ByteMem) {dest src : ℕ} (bytes : BitVec 32)
    (h : (dest + bytes.toNat ≤ src ∨ src + bytes.toNat ≤ dest) ∨ dest ≤ src) :
    (∀ i < bytes.toNat, memcpy m dest src bytes.toNat (dest + i) = m (src + i)) ∧
      ∀ a, a < dest ∨ dest + bytes.toNat ≤ a → memcpy m dest src bytes.toNat a = m a := by
  have hfwd : Forward dest src bytes.toNat := by
    rcases h with (hbelow | habove) | hle
    · exact Or.inl ((Nat.le_add_right _ _).trans hbelow)
    · exact Or.inr habove
    · exact Or.inl hle
  rw [memcpy_eq bytes.isLt hfwd]
  constructor
  · intro i hi
    exact store_apply _ _ hi
  · intro a ha
    exact store_other _ _ ha

/-- The line below moves up, as in `scroll`. -/
theorem memcpy_copies_example :
    (∀ i < 100, memcpy (fun a => UInt8.ofNat a) 0 64 100 (0 + i) = UInt8.ofNat (64 + i)) ∧
      ∀ a, a < 0 ∨ 0 + 100 ≤ a → memcpy (fun a => UInt8.ofNat a) 0 64 100 a = UInt8.ofNat a :=
  memcpy_copies (fun a => UInt8.ofNat a) (100 : BitVec 32) (Or.inr (by decide))

/-! ## §2  `memset` -/

theorem neon8Memset_eq (v : UInt8) (n : ℕ) :
    neon8Memset m dest v n = m.fill dest (max 1 n * 16) v := by
  induction n generalizing m dest with
  | zero => rfl
  | succ n ih =>
      cases n with
      | zero => rfl
      | succ n =>
          rw [neon8Memset, ih, fill_fill]
          congr 1
          omega

theorem memset_eq (value : BitVec 32) (len : ℕ) :
    memset m dest value len = m.fill dest (max 16 len) (lowByte value) := by
  unfold memset
  simp only [neon8Memset_eq, fillBytes_eq]
  by_cases hlen : len < 16
  · have hq : len / 16 = 0 := Nat.div_eq_of_lt hlen
    rw [hq]
    funext a
    unfold fill store
    by_cases ha : dest ≤ a ∧ a < dest + max 16 len
    · rw [if_pos ha]
      split
      · rfl
      · rw [if_pos (by omega)]
    · rw [if_neg ha, if_neg (by omega), if_neg (by omega)]
  · rw [max_eq_right (by omega : 1 ≤ len / 16), fill_fill]
    congr 1
    omega

theorem memset_changesOnly (m : ByteMem) (ptr : ℕ) (value : BitVec 32) (len : ℕ) :
    ChangesOnly (Set.Ico ptr (ptr + max 16 len)) m (memset m ptr value len) := by
  rw [memset_eq]
  exact store_changesOnly _ _

/-- `memset` fills its range and leaves the rest of the memory as it is. -/
structure FillsExactly (m : ByteMem) (ptr : ℕ) (value : BitVec 32) (len : ℕ) : Prop where
  inside : ∀ i < len, memset m ptr value len (ptr + i) = lowByte value
  outside : ∀ a, a < ptr ∨ ptr + len ≤ a → memset m ptr value len a = m a

/-- It does so exactly when the range has a vector, or the rest of the vector behind its
start holds the value already. -/
theorem memset_exact_iff (m : ByteMem) (ptr : ℕ) (value : BitVec 32) (len : ℕ) :
    FillsExactly m ptr value len ↔
      16 ≤ len ∨ ∀ i, len ≤ i → i < 16 → m (ptr + i) = lowByte value := by
  have hin : ∀ i < max 16 len, memset m ptr value len (ptr + i) = lowByte value := by
    intro i hi
    rw [memset_eq]
    exact store_apply _ _ hi
  have hout : ∀ a, a < ptr ∨ ptr + max 16 len ≤ a → memset m ptr value len a = m a := by
    intro a ha
    rw [memset_eq]
    exact store_other _ _ ha
  constructor
  · intro h
    rcases Nat.lt_or_ge len 16 with hshort | hlong
    · refine Or.inr fun i hlen hi => ?_
      rw [← h.outside (ptr + i) (Or.inr (Nat.add_le_add_left hlen ptr))]
      exact hin i (by omega)
    · exact Or.inl hlong
  · intro h
    refine ⟨fun i hi => hin i (by omega), fun a ha => ?_⟩
    by_cases hfar : a < ptr ∨ ptr + max 16 len ≤ a
    · exact hout a hfar
    · -- a byte behind the range, in the first vector
      obtain ⟨i, rfl⟩ : ∃ i, a = ptr + i := ⟨a - ptr, by omega⟩
      have hheld := h.resolve_left (by omega) i (by omega) (by omega)
      rw [hin i (by omega), hheld]

/-- A fill of four bytes writes the four behind them as well. -/
theorem memset_overruns : ¬ FillsExactly (fun _ => 0) 4096 0xFF 4 := by
  intro h
  have hkept := h.outside 4100 (Or.inr le_rfl)
  rw [memset_eq] at hkept
  exact absurd hkept (by decide)

end Rpos
