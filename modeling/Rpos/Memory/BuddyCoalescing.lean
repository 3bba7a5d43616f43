import Rpos.Memory.BuddyContract

/-!
# Coalescing is complete

In every state reached from `initialize_page_frame_array` no two free blocks
are each other's XOR buddies. A release restores this by merging until the
buddy is not free. A request keeps it because it splits a block only when all
smaller lists are empty: each split leaves one block on a list of its own, and
whether its XOR buddy is its other half or a neighbour does not matter.
-/

namespace Rpos

open Base

section Lists

variable {L : ℕ → List ℕ} {p k n : ℕ} {ps : List ℕ}

theorem xor_two_pow_ne (q k : ℕ) : q ^^^ 2 ^ k ≠ q := by
  intro h
  have hpos := Nat.two_pow_pos k
  have hzero : 2 ^ k = 0 := by
    rw [← Nat.zero_xor (2 ^ k), ← Nat.xor_self q, Nat.xor_assoc, h,
      Nat.xor_self]
  omega

theorem Coalesced.tail (h : Coalesced L) (k : ℕ) :
    Coalesced (Function.update L k (L k).tail) := by
  intro j hj q hq hq'
  by_cases hjk : j = k
  · subst hjk
    rw [Function.update_self] at hq hq'
    exact h j hj q (List.mem_of_mem_tail hq) (List.mem_of_mem_tail hq')
  · rw [Function.update_of_ne hjk] at hq hq'
    exact h j hj q hq hq'

theorem Coalesced.single (h : Coalesced L) (k q : ℕ) :
    Coalesced (Function.update L k [q]) := by
  intro j hj x hx hx'
  by_cases hjk : j = k
  · subst hjk
    rw [Function.update_self, List.mem_singleton] at hx hx'
    rw [hx] at hx'
    exact xor_two_pow_ne q j hx'
  · rw [Function.update_of_ne hjk] at hx hx'
    exact h j hj x hx hx'

/-- A block is granted from order `k + n` when the lists below are empty. The
induction carries the lists without the block that is about to be split. -/
theorem grantLists_coalesced (hL : L (k + n) = p :: ps)
    (hempty : ∀ j, k ≤ j → j < k + n → L j = [])
    (h : Coalesced (Function.update L (k + n) (L (k + n)).tail)) :
    Coalesced (grantLists p k n L) := by
  induction n generalizing L ps with
  | zero => exact h
  | succ n ih =>
      have hhead := splitLists_head p (k + n) L
      rw [hempty (k + n) (Nat.le_add_right k n) (Nat.lt_succ_self _)] at hhead
      refine ih (L := splitLists p (k + n) L) hhead ?_ ?_
      · intro j hj hlt
        unfold splitLists
        rw [Function.update_of_ne (by omega), Function.update_of_ne (by omega)]
        exact hempty j hj (by omega)
      · rw [hhead, splitLists, Function.update_idem]
        exact h.single (k + n) (p + 2 ^ (k + n))

theorem initialLists_coalesced (available : ℕ) :
    ∀ (i p : ℕ) (L : ℕ → List ℕ), Coalesced L → (∀ j < i, L j = []) →
      Coalesced (initialLists available i p L) := by
  intro i
  induction i with
  | zero => exact fun p L h _ => h
  | succ i ih =>
      intro p L h hempty
      have hempty' : ∀ j < i, L j = [] := fun j hj => hempty j (by omega)
      rw [initialLists]
      split_ifs with hbit
      · rw [hempty i (Nat.lt_succ_self i)]
        refine ih _ _ (h.single i p) ?_
        intro j hj
        rw [Function.update_of_ne (Nat.ne_of_lt hj)]
        exact hempty' j hj
      · exact ih _ _ h hempty'

end Lists

/-- The state of a run: the invariant, and no pair of free buddies. -/
def BuddyCoalesced (lo : ℕ) (m : Buddy) : Prop :=
  ∃ B L, BuddyRep lo ramPages m B L ∧ Coalesced L

theorem buddyStep_coalesced {lo : ℕ} (hlo : 2048 ≤ lo) (m : Buddy)
    (op : BuddyOp) (hm : BuddyCoalesced lo m) (hop : op.Ok) :
    ∃ w m', buddyStep m op = some (w, m') ∧ BuddyCoalesced lo m' := by
  obtain ⟨B, L, hr, hc⟩ := hm
  cases op with
  | alloc bytes =>
      obtain ⟨k, -, -, hout⟩ := buddyAlloc_spec hr hop
      rw [buddyStep]
      generalize buddyAlloc bytes m = r at hout
      cases hout with
      | refused _ => exact ⟨some 0, m, rfl, B, L, hr, hc⟩
      | granted n p ps m' hkn hempty hL hr' _ =>
          exact ⟨some (pageAddr p), m', rfl, _, _, hr',
            grantLists_coalesced hL hempty (hc.tail (k + n))⟩
  | free addr =>
      have hok : ∃ pa < 2 ^ 30, addr = paToVa pa := hop
      obtain ⟨pa, hpa, haddr⟩ := hok
      have hframe := frameOf_paToVa hpa
      rw [← haddr] at hframe
      have hout := buddyFree_spec hr hlo hframe
      rw [buddyStep]
      generalize buddyFree addr m = r at hout
      cases hout with
      | ignored _ => exact ⟨none, m, rfl, B, L, hr, hc⟩
      | released b m' B' L' _ _ hr' _ hdone =>
          exact ⟨none, m', rfl, B', L', hr', hdone hc⟩

/-- In every reached state no two free blocks of one order have first pages
that differ exactly in the bit of that order. -/
theorem coalescing_complete {mem : ℕ} (hlo : 2048 ≤ reservedPages mem)
    (hhi : reservedPages mem < ramPages) (m : Buddy) (ops : List BuddyOp)
    (hops : ∀ op ∈ ops, op.Ok) :
    ∃ outs m', exec buddyStep (initializePageFrameArray mem m) ops =
        some (outs, m') ∧
      ∀ b ∈ (pageAllocatorOf m').free, ∀ c ∈ (pageAllocatorOf m').free,
        b ≠ c → b.order = c.order → c.base ≠ b.base ^^^ 2 ^ b.order := by
  have hstart : BuddyCoalesced (reservedPages mem)
      (initializePageFrameArray mem m) :=
    ⟨_, _, initializePageFrameArray_rep m (by omega) hhi.le,
      initialLists_coalesced _ _ _ _ (fun k _ q hq =>
        absurd hq List.not_mem_nil) fun _ _ => rfl⟩
  obtain ⟨outs, m', hrun, B, L, hr, hc⟩ :=
    exec_inv (buddyStep_coalesced hlo) ops _ hstart hops
  refine ⟨outs, m', hrun, ?_⟩
  rw [hr.view_eq]
  rintro ⟨p, k⟩ hb ⟨q, j⟩ hq - hkj hbuddy
  obtain ⟨hbB, hbs⟩ := mem_freeBlocks.mp hb
  obtain ⟨hqB, hqs⟩ := mem_freeBlocks.mp hq
  simp only at hkj hbuddy
  subst hkj hbuddy
  exact hc k (hr.order_lt hlo hbB).le p (hr.mem_list hlo hbB hbs)
    (hr.mem_list hlo hqB hqs)

theorem coalescing_complete_example :
    ∃ outs m', exec buddyStep
        (initializePageFrameArray (2049 * 4096) blankBuddy)
        [.alloc 1, .alloc 8192, .free (paToVa (2051 * 4096))] =
        some (outs, m') ∧
      ∀ b ∈ (pageAllocatorOf m').free, ∀ c ∈ (pageAllocatorOf m').free,
        b ≠ c → b.order = c.order → c.base ≠ b.base ^^^ 2 ^ b.order := by
  refine coalescing_complete (by decide) (by decide) blankBuddy _ ?_
  simp only [List.mem_cons, List.not_mem_nil, or_false, forall_eq_or_imp,
    forall_eq, BuddyOp.Ok]
  exact ⟨by decide, by decide, 2051 * 4096, by decide, rfl⟩

end Rpos
