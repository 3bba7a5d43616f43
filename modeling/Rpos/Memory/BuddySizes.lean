import Rpos.Memory.PageOwner

/-!
# Requests of every size

`buddy_alloc` takes a 64-bit number of bytes, counts its pages in a `u32` and
searches its order with a shift of a 32-bit one. Up to 8 TiB, which is `2 ^ 31`
pages, both are exact. Above, the page count wraps, and the search for the order of
more than `2 ^ 31` pages has no end.
-/

namespace Rpos

open Base

/-! ## §1  The order of any request -/

theorem requestedOrder_stuck {n : ℕ} (hn : 2 ^ 31 < n) :
    ∀ fuel j, requestedOrder n fuel j = none := by
  intro fuel
  induction fuel with
  | zero => exact fun _ => rfl
  | succ fuel ih =>
      intro j
      have hshift : 2 ^ (j % 32) ≤ 2 ^ 31 :=
        Nat.pow_le_pow_right (by decide) (by omega)
      rw [requestedOrder, if_pos (lt_of_le_of_lt hshift hn)]
      exact ih (j + 1)

/-- The `u32` holds the page count modulo `2 ^ 32`, also when the addition wraps. -/
theorem pagesFor_eq (bytes : ℕ) : pagesFor bytes = (bytes + 4095) / 4096 % 2 ^ 32 := by
  simp only [pagesFor, pageSize]
  omega

section

variable {lo : ℕ} {m : Buddy} {B : Finset Block} {L : ℕ → List ℕ} {bytes : ℕ}

/-- A list from order `k` up has a block exactly when some free block is as large. -/
theorem BuddyRep.free_of_order (hr : BuddyRep lo ramPages m B L) (hlo : 2048 ≤ lo)
    {k : ℕ} : (∀ j, k ≤ j → j ≤ maxOrder → L j = []) ↔
      ∀ b ∈ freeBlocks m B, b.order < k := by
  constructor
  · rintro hempty ⟨p, j⟩ hb
    obtain ⟨hB, hs⟩ := mem_freeBlocks.mp hb
    have hmem := hr.mem_list hlo hB hs
    by_contra hge
    rw [hempty j (Nat.le_of_not_lt hge) (hr.order_lt hlo hB).le] at hmem
    exact absurd hmem List.not_mem_nil
  · intro hsmall j hkj hj
    cases hL : L j with
    | nil => rfl
    | cons p ps =>
        have hfree := hsmall ⟨p, j⟩ (mem_freeBlocks.mpr (hr.mem_free_head hj hL))
        exact absurd hfree (Nat.not_lt.mpr hkj)

/-- What `buddy_alloc` does with a request of any size: it never returns, it refuses,
or it grants a block of the pages it counted. -/
inductive SizeOutcome (lo : ℕ) (m : Buddy) (B : Finset Block) (n : ℕ) :
    Option (ℕ × Buddy) → Prop
  | stuck : 2 ^ 31 < n → SizeOutcome lo m B n none
  | refused : n ≤ 2 ^ 31 → (∀ b ∈ freeBlocks m B, 2 ^ b.order < n) →
      SizeOutcome lo m B n (some (0, m))
  | granted (f : Block) (p k : ℕ) (m' : Buddy) (B' : Finset Block) (L' : ℕ → List ℕ) :
      f ∈ freeBlocks m B → n ≤ 2 ^ f.order → n ≤ 2 ^ k →
      BuddyRep lo ramPages m' B' L' → Granted lo m m' B B' p k →
      SizeOutcome lo m B n (some (pageAddr p, m'))

theorem buddyAlloc_size (hr : BuddyRep lo ramPages m B L) (hlo : 2048 ≤ lo) (bytes : ℕ) :
    SizeOutcome lo m B (pagesFor bytes) (buddyAlloc bytes m) := by
  rcases Nat.lt_or_ge (2 ^ 31) (pagesFor bytes) with hbig | hsmall
  · have hrun : buddyAlloc bytes m = none := by
      rw [buddyAlloc, requestedOrder_stuck hbig]
      rfl
    rw [hrun]
    exact .stuck hbig
  · obtain ⟨k, horder, hle, hleast⟩ := requestedOrder_spec _ hsmall 256 0 (by omega)
      (fun i hi => absurd hi (Nat.not_lt_zero i))
    rcases Nat.lt_or_ge maxOrder k with hk | hk
    · have hrun : buddyAlloc bytes m = some (0, m) := by
        rw [buddyAlloc, horder, Option.bind_eq_bind, Option.bind_some, if_pos hk]
      rw [hrun]
      refine .refused hsmall fun b hb => ?_
      apply hleast
      exact (hr.order_lt hlo (mem_freeBlocks.mp hb).1).trans hk
    · have hout := buddyAlloc_outcome hr horder hk
      generalize buddyAlloc bytes m = r at hout
      cases hout with
      | refused hempty =>
          refine .refused hsmall fun b hb => ?_
          apply hleast
          exact (hr.free_of_order hlo).mp hempty b hb
      | granted n p ps m' hkn _ hL hr' hg =>
          have hpow : 2 ^ k ≤ 2 ^ (k + n) := Nat.pow_le_pow_right (by decide) (by omega)
          exact .granted ⟨p, k + n⟩ p k m' _ _
            (mem_freeBlocks.mpr (hr.mem_free_head hkn hL)) (hle.trans hpow) hle hr' hg

/-! ## §2  The sizes that are served right -/

/-- `buddy_alloc` returns: NULL and no effect, or a new block of at least `bytes`
bytes; and NULL if the request is for more than 1 GiB. -/
structure ServesRight (m : Buddy) (bytes w : ℕ) (m' : Buddy) : Prop where
  result : w = 0 ∧ m' = m ∨ ∃ b, b ∈ liveBlocks m' (blocksOf m') ∧
    b ∉ liveBlocks m (blocksOf m) ∧ w = pageAddr b.base ∧ bytes ≤ 2 ^ b.order * pageSize
  null : 2 ^ 30 < bytes → w = 0

theorem servesRight_iff (hr : BuddyRep lo ramPages m (blocksOf m) L) (hlo : 2048 ≤ lo) :
    (∃ w m', buddyAlloc bytes m = some (w, m') ∧ ServesRight m bytes w m') ↔
      bytes ≤ 2 ^ 30 ∨ (bytes + 4095) / 4096 % 2 ^ 32 ≤ 2 ^ 31 ∧
        ∀ b ∈ freeBlocks m (blocksOf m), 2 ^ b.order < (bytes + 4095) / 4096 % 2 ^ 32 := by
  rw [← pagesFor_eq bytes]
  have hsize : bytes ≤ 2 ^ 30 → bytes ≤ pagesFor bytes * pageSize ∧
      pagesFor bytes ≤ 2 ^ 31 := by
    intro hle
    rw [pagesFor_eq]
    simp only [pageSize]
    omega
  have hout := buddyAlloc_size hr hlo bytes
  generalize buddyAlloc bytes m = r at hout
  cases hout with
  | stuck hbig =>
      refine iff_of_false ?_ ?_
      · rintro ⟨w, m', hrun, -⟩
        exact Option.some_ne_none _ hrun.symm
      · rintro (hle | ⟨hle, -⟩)
        · exact absurd (hsize hle).2 (Nat.not_le.mpr hbig)
        · exact absurd hle (Nat.not_le.mpr hbig)
  | refused hle hsmall =>
      refine iff_of_true ?_ (Or.inr ⟨hle, hsmall⟩)
      exact ⟨0, m, rfl, Or.inl ⟨rfl, rfl⟩, fun _ => rfl⟩
  | granted f p k m' B' L' hf hnf hnk hr' hg =>
      have hp := pageAddr_ne_zero (hr'.tiles.base_lt hg.mem).2
      constructor
      · rintro ⟨w, m'', hrun, hserves⟩
        rw [Option.some.injEq, Prod.mk.injEq] at hrun
        refine Or.inl (Nat.le_of_not_lt fun hbig => hp ?_)
        rw [hrun.1]
        exact hserves.null hbig
      · rintro (hle | ⟨-, hsmall⟩)
        · refine ⟨_, _, rfl, Or.inr ⟨⟨p, k⟩, ?_, hg.fresh, rfl, ?_⟩, fun hbig => ?_⟩
          · rw [hr'.blocks_eq, hg.live]
            exact Finset.mem_insert_self _ _
          · exact (hsize hle).1.trans (Nat.mul_le_mul_right _ hnk)
          · exact absurd hle (Nat.not_le.mpr hbig)
        · exact absurd (hsmall f hf) (Nat.not_lt.mpr hnf)

end

/-- In every state reached, a request of any size is served right exactly when it is
for at most 1 GiB, or its page count modulo `2 ^ 32` is neither above `2 ^ 31` nor
small enough for a free block. -/
theorem every_size_served_iff {mem : ℕ} (hlo : 2048 ≤ reservedPages mem)
    (hhi : reservedPages mem < ramPages) {m : Buddy} {T : Set ℕ} (hreach : BuddyReached mem m T)
    (bytes : ℕ) :
    (∃ w m', buddyAlloc bytes m = some (w, m') ∧ ServesRight m bytes w m') ↔
      bytes ≤ 2 ^ 30 ∨ (bytes + 4095) / 4096 % 2 ^ 32 ≤ 2 ^ 31 ∧
        ∀ b ∈ freeBlocks m (blocksOf m), 2 ^ b.order < (bytes + 4095) / 4096 % 2 ^ 32 := by
  obtain ⟨⟨L, hr⟩, -⟩ := hreach.flagged hlo hhi
  exact servesRight_iff hr hlo

theorem every_size_served_iff_example :
    let m := initializePageFrameArray (2048 * 4096) blankBuddy
    (∃ w m', buddyAlloc (2 ^ 30 + 1) m = some (w, m') ∧
        ServesRight m (2 ^ 30 + 1) w m') ↔
      2 ^ 30 + 1 ≤ 2 ^ 30 ∨ (2 ^ 30 + 1 + 4095) / 4096 % 2 ^ 32 ≤ 2 ^ 31 ∧
        ∀ b ∈ freeBlocks m (blocksOf m),
          2 ^ b.order < (2 ^ 30 + 1 + 4095) / 4096 % 2 ^ 32 :=
  every_size_served_iff (by decide) (by decide) (.init blankBuddy) (2 ^ 30 + 1)

/-- A request for 16 TiB, `2 ^ 32` pages, gets a block; one for a byte more than
8 TiB does not return. -/
theorem sixteen_tebibytes_granted :
    let m := initializePageFrameArray (2048 * 4096) blankBuddy
    BuddyReached (2048 * 4096) m (firstPages m) ∧ buddyAlloc (2 ^ 43 + 1) m = none ∧
      ∃ w m', buddyAlloc (2 ^ 44) m = some (w, m') ∧ w ≠ 0 ∧
        ¬ ServesRight m (2 ^ 44) w m' := by
  intro m
  have hstuck := requestedOrder_stuck (show 2 ^ 31 < pagesFor (2 ^ 43 + 1) by decide) 256 0
  have hfree := mem_freeBlocks.mpr ((initial_rep.free 17 (by decide) 2048).mp (by decide))
  refine ⟨.init blankBuddy, ?_, ?_⟩
  · rw [buddyAlloc, hstuck]
    rfl
  · have hout := buddyAlloc_size initial_rep (by decide) (2 ^ 44)
    generalize buddyAlloc (2 ^ 44) _ = r at hout
    cases hout with
    | stuck hbig => exact absurd hbig (by decide)
    | refused _ hsmall => exact absurd (hsmall _ hfree) (by decide)
    | granted f p k m' B' L' hf hnf hnk hr' hg =>
        have hp := pageAddr_ne_zero (hr'.tiles.base_lt hg.mem).2
        exact ⟨_, _, rfl, hp, fun hserves => hp (hserves.null (by decide))⟩

end Rpos
