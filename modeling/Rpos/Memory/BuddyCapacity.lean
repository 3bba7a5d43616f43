import Rpos.Base.Halving
import Rpos.Memory.BuddyCoalescing

/-!
# Capacity after everything is freed

`_split_down` cuts a block of order `k + 1` at `pfn` into `pfn` and
`pfn + 2 ^ k`; `coalesce_up` joins `pfn` and `pfn ^ 2 ^ k`. The two agree when
bit `k` of `pfn` is clear. The initial blocks lie at any base, so a split need
not be even; a run whose splits are all even is back at the initial blocks
once nothing is live.
-/

namespace Rpos

open Base

/-! ## §1  Even splits -/

/-- The request splits no block, or it splits the first block of the first
list that serves it at clear bits only. -/
def SplitsEvenly (m : Buddy) : BuddyOp → Prop
  | .alloc bytes => ∀ k n p,
      requestedOrder (pagesFor bytes) 256 0 = some k → k + n ≤ maxOrder →
      (∀ j, k ≤ j → j < k + n → m.links.listEmpty (.head j) = true) →
      m.links.next (.head (k + n)) = .frame p →
      ∀ i, k ≤ i → i < k + n → p.testBit i = false
  | .free _ => True

section Forest

variable {I B : Finset Block} {p k : ℕ}

theorem grown_splitDownBlocks {n : ℕ} (h : Grown I B)
    (hp : (⟨p, k + n⟩ : Block) ∈ B)
    (hbits : ∀ i, k ≤ i → i < k + n → p.testBit i = false) :
    Grown I (splitDownBlocks p k n B) := by
  induction n generalizing B with
  | zero => exact h
  | succ n ih =>
      have hbit := hbits (k + n) (Nat.le_add_right k n) (Nat.lt_succ_self _)
      refine ih (h.split hp hbit) ?_ fun i hi hlt => hbits i hi (by omega)
      exact Finset.mem_union_left _ (Finset.mem_insert_self _ _)

/-! ## §2  The initial blocks -/

theorem initialBlocks_orders (available : ℕ) :
    ∀ (i p : ℕ) (B : Finset Block), (∀ b ∈ B, i ≤ b.order) →
      (∀ b ∈ B, ∀ c ∈ B, b.order = c.order → b = c) →
      ∀ b ∈ initialBlocks available i p B,
        ∀ c ∈ initialBlocks available i p B, b.order = c.order → b = c := by
  intro i
  induction i with
  | zero => exact fun _ _ _ h => h
  | succ i ih =>
      intro p B hle horders
      have hle' : ∀ b ∈ B, i ≤ b.order := fun b hb => by
        have := hle b hb
        omega
      rw [initialBlocks]
      split_ifs with hbit
      · refine ih _ _ ?_ ?_
        · intro b hb
          rcases Finset.mem_insert.mp hb with rfl | hb
          · exact le_refl i
          · exact hle' b hb
        · intro b hb c hc heq
          rcases Finset.mem_insert.mp hb with rfl | hb <;>
            rcases Finset.mem_insert.mp hc with rfl | hc
          · rfl
          · have := hle c hc
            simp only at heq
            omega
          · have := hle b hb
            simp only at heq
            omega
          · exact horders b hb c hc heq
      · exact ih p B hle' horders

theorem initialLists_mem (available : ℕ) :
    ∀ (i p : ℕ) (B : Finset Block) (L : ℕ → List ℕ),
      (∀ b ∈ B, b.base ∈ L b.order) →
      ∀ b ∈ initialBlocks available i p B,
        b.base ∈ initialLists available i p L b.order := by
  intro i
  induction i with
  | zero => exact fun _ _ _ h => h
  | succ i ih =>
      intro p B L h
      rw [initialBlocks, initialLists]
      split_ifs with hbit
      · refine ih _ _ _ ?_
        intro b hb
        rw [Function.update_apply]
        rcases Finset.mem_insert.mp hb with rfl | hb
        · rw [if_pos rfl]
          exact List.mem_cons_self
        · split_ifs with heq
          · rw [← heq]
            exact List.mem_cons_of_mem _ (h b hb)
          · exact h b hb
      · exact ih p B L h

end Forest

/-! ## §3  Runs -/

/-- The blocks that the initialisation lays out over `R` reserved pages. -/
def rootBlocks (R : ℕ) : Finset Block :=
  initialBlocks (ramPages - R) (maxOrder + 1) R ∅

/-- No merge is left to be done, and the blocks come from the initial ones by
even splits. -/
def BuddyForest (R : ℕ) (m : Buddy) : Prop :=
  ∃ B L, BuddyRep R ramPages m B L ∧ Coalesced L ∧ Grown (rootBlocks R) B

section Runs

variable {R : ℕ} {m m' : Buddy}

theorem rootBlocks_orders (R : ℕ) : ∀ r ∈ rootBlocks R, ∀ s ∈ rootBlocks R,
    r.order = s.order → r = s :=
  initialBlocks_orders _ _ _ _ (by simp) (by simp)

def rootLists (R : ℕ) : ℕ → List ℕ :=
  initialLists (ramPages - R) (maxOrder + 1) R fun _ => []

theorem initializePageFrameArray_roots {mem : ℕ}
    (hlo : 2048 ≤ reservedPages mem) (hhi : reservedPages mem ≤ ramPages)
    (m : Buddy) :
    BuddyRep (reservedPages mem) ramPages (initializePageFrameArray mem m)
      (rootBlocks (reservedPages mem)) (rootLists (reservedPages mem)) :=
  initializePageFrameArray_rep m (by omega) hhi

/-- The search stops at the first list, from order `k` up, with a block. -/
theorem BuddyRep.listEmpty_of_nil {lo hi : ℕ} {B : Finset Block}
    {L : ℕ → List ℕ} (hr : BuddyRep lo hi m B L) {k n : ℕ}
    (hkn : k + n ≤ maxOrder) (hempty : ∀ j, k ≤ j → j < k + n → L j = []) :
    ∀ j, k ≤ j → j < k + n → m.links.listEmpty (.head j) = true := by
  intro j hj hlt
  rw [hr.listEmpty_iff (by omega)]
  exact hempty j hj hlt

theorem buddyStep_forest (hR : 2048 ≤ R) {op : BuddyOp} {w : Option ℕ}
    (hm : BuddyForest R m) (hstep : buddyStep m op = some (w, m'))
    (heven : SplitsEvenly m op) : BuddyForest R m' := by
  obtain ⟨B, L, hr, hc, hgrown⟩ := hm
  cases op with
  | alloc bytes =>
      simp only [buddyStep, Option.map_eq_some_iff, Prod.mk.injEq] at hstep
      obtain ⟨⟨page, m1⟩, hrun, -, rfl⟩ := hstep
      cases horder : requestedOrder (pagesFor bytes) 256 0 with
      | none => simp [buddyAlloc, horder] at hrun
      | some k =>
          rcases Nat.lt_or_ge maxOrder k with hlt | hk
          · have hrefused : buddyAlloc bytes m = some (0, m) := by
              rw [buddyAlloc, horder]
              exact if_pos hlt
            rw [hrefused, Option.some.injEq, Prod.mk.injEq] at hrun
            obtain ⟨-, rfl⟩ := hrun
            exact ⟨B, L, hr, hc, hgrown⟩
          · have hout := buddyAlloc_outcome hr horder hk
            generalize buddyAlloc bytes m = r at hout hrun
            cases hout with
            | refused _ =>
                rw [Option.some.injEq, Prod.mk.injEq] at hrun
                obtain ⟨-, rfl⟩ := hrun
                exact ⟨B, L, hr, hc, hgrown⟩
            | granted n p ps m' hkn hempty hL hr' _ =>
                rw [Option.some.injEq, Prod.mk.injEq] at hrun
                obtain ⟨-, rfl⟩ := hrun
                refine ⟨_, _, hr', grantLists_coalesced hL hempty (hc.tail _), ?_⟩
                refine grown_splitDownBlocks hgrown (hr.mem_free_head hkn hL).1 ?_
                exact heven k n p horder hkn (hr.listEmpty_of_nil hkn hempty)
                  (hr.next_head hkn hL)
  | free addr =>
      simp only [buddyStep, Option.map_eq_some_iff, Prod.mk.injEq] at hstep
      obtain ⟨m1, hrun, -, rfl⟩ := hstep
      cases hframe : frameOf addr with
      | none => simp [buddyFree, hframe] at hrun
      | some p =>
          rcases buddyFree_cases hr hR hframe with ⟨-, hsame⟩ | ⟨k, hk, hb, hfree⟩
          · rw [hsame, Option.some.injEq] at hrun
            exact hrun ▸ ⟨B, L, hr, hc, hgrown⟩
          · obtain ⟨m2, B', L', hrun', hr', -, hdone, hmerged⟩ :=
              putBlock_coalesceUp hr hR hk hb
            rw [hfree, hrun', Option.some.injEq] at hrun
            exact hrun ▸ ⟨B', L', hr', hdone hc,
              hgrown.merged (rootBlocks_orders R) hmerged⟩

theorem initializePageFrameArray_forest {mem : ℕ}
    (hlo : 2048 ≤ reservedPages mem) (hhi : reservedPages mem ≤ ramPages)
    (m : Buddy) : BuddyForest (reservedPages mem) (initializePageFrameArray mem m) := by
  refine ⟨_, _, initializePageFrameArray_roots hlo hhi m, ?_, Grown.refl _⟩
  refine initialLists_coalesced _ _ _ _ ?_ fun _ _ => rfl
  exact fun k _ q hq => absurd hq List.not_mem_nil

end Runs

/-! ## §4  What the allocator can grant -/

/-- `buddy_alloc` of `2 ^ k` pages succeeds. -/
def CanGrant (m : Buddy) (k : ℕ) : Prop :=
  ∃ page m', buddyAlloc (2 ^ k * pageSize) m = some (page, m') ∧ page ≠ 0

section Grant

variable {R : ℕ} {m : Buddy} {B : Finset Block} {L : ℕ → List ℕ} {k : ℕ}

theorem requestedOrder_pages (hk : k ≤ maxOrder) :
    requestedOrder (pagesFor (2 ^ k * pageSize)) 256 0 = some k := by
  have hle : 2 ^ k ≤ 2 ^ maxOrder := Nat.pow_le_pow_right (by decide) hk
  have hbytes : 2 ^ k * pageSize ≤ 2 ^ 30 := by
    simp only [pageSize, maxOrder] at *
    omega
  obtain ⟨j, -, hrun, hleast⟩ := requestedOrder_least hbytes
  have hself : IsLeastOrder (2 ^ k * pageSize) k := by
    refine ⟨le_refl _, ?_⟩
    intro i hi
    have hlt : 2 ^ i < 2 ^ k := Nat.pow_lt_pow_right (by decide) hi
    simp only [pageSize]
    omega
  rw [hrun, hleast.unique hself]

theorem BuddyRep.canGrant_iff (hr : BuddyRep R ramPages m B L) (hR : 2048 ≤ R)
    (hk : k ≤ maxOrder) :
    CanGrant m k ↔ ∃ b ∈ freeBlocks m B, k ≤ b.order := by
  have hout := buddyAlloc_outcome hr (requestedOrder_pages hk) hk
  unfold CanGrant
  generalize buddyAlloc (2 ^ k * pageSize) m = r at hout
  cases hout with
  | refused hempty =>
      constructor
      · rintro ⟨page, m', hrun, hpage⟩
        rw [Option.some.injEq, Prod.mk.injEq] at hrun
        exact absurd hrun.1.symm hpage
      · rintro ⟨⟨p, j⟩, hb, hle⟩
        obtain ⟨hB, hs⟩ := mem_freeBlocks.mp hb
        have hmem := hr.mem_list hR hB hs
        rw [hempty j hle (hr.order_lt hR hB).le] at hmem
        exact absurd hmem List.not_mem_nil
  | granted n p ps m' hkn _ hL hr' hg =>
      constructor
      · intro _
        exact ⟨⟨p, k + n⟩, mem_freeBlocks.mpr (hr.mem_free_head hkn hL),
          Nat.le_add_right k n⟩
      · intro _
        exact ⟨_, _, rfl, pageAddr_ne_zero (hr'.tiles.base_lt hg.mem).2⟩

end Grant

section Capacity

variable {R : ℕ} {m m' : Buddy}

theorem initializePageFrameArray_free {mem : ℕ}
    (hlo : 2048 ≤ reservedPages mem) (hhi : reservedPages mem ≤ ramPages)
    (m : Buddy) :
    freeBlocks (initializePageFrameArray mem m) (rootBlocks (reservedPages mem)) =
      rootBlocks (reservedPages mem) := by
  have hr := initializePageFrameArray_roots hlo hhi m
  refine Finset.filter_true_of_mem fun b hb => ?_
  have hmem : b.base ∈ rootLists (reservedPages mem) b.order :=
    initialLists_mem _ _ _ ∅ _ (by simp) b hb
  exact ((hr.free b.order (hr.order_lt hlo hb).le b.base).mp hmem).2

theorem BuddyForest.free_eq {m : Buddy} (hR : 2048 ≤ R)
    (hI : Tiles R ramPages (rootBlocks R)) (hm : BuddyForest R m)
    (hfree : (pageAllocatorOf m).live = ∅) :
    ∃ L, BuddyRep R ramPages m (rootBlocks R) L ∧
      freeBlocks m (rootBlocks R) = rootBlocks R := by
  obtain ⟨B, L, hr, hc, hgrown⟩ := hm
  rw [hr.view_eq] at hfree
  have hall : ∀ b ∈ B, (m.frameMetadata b.base).state = pageFree := by
    intro b hb
    by_contra hs
    exact absurd (hfree ▸ mem_liveBlocks.mpr ⟨hb, hs⟩) (Finset.notMem_empty b)
  have heq : B = rootBlocks R := by
    refine hgrown.eq_roots hI hr.tiles ?_
    intro p k hbit hp hq
    have hxor : p ^^^ 2 ^ k = p + 2 ^ k := xor_of_testBit hbit
    refine hc k (hr.order_lt hR hp).le p (hr.mem_list hR hp (hall _ hp)) ?_
    rw [hxor]
    exact hr.mem_list hR hq (hall _ hq)
  subst heq
  exact ⟨L, hr, Finset.filter_true_of_mem hall⟩

theorem request_release {B : Finset Block} {L : ℕ → List ℕ} {k n p : ℕ}
    {ps : List ℕ} (hR : 2048 ≤ R) (hr : BuddyRep R ramPages m B L)
    (hfree : freeBlocks m B = B) (hkn : k + n ≤ maxOrder)
    (hempty : ∀ j, k ≤ j → j < k + n → L j = []) (hL : L (k + n) = p :: ps) :
    ∃ m1 m2, buddyStep m (.alloc (2 ^ k * pageSize)) = some (some (pageAddr p), m1) ∧
      buddyStep m1 (.free (pageAddr p)) = some (none, m2) ∧
      (∃ B' L', BuddyRep R ramPages m2 B' L' ∧ Merged (splitDownBlocks p k n B) B') ∧
      (pageAllocatorOf m2).live = ∅ := by
  obtain ⟨m1, hrun, hr1, hg⟩ := buddyAlloc_served hr
    (requestedOrder_pages (by omega)) hkn hempty hL
  have hnone : liveBlocks m B = ∅ := by
    refine Finset.eq_empty_of_forall_notMem fun b hb => ?_
    obtain ⟨hB, hs⟩ := mem_liveBlocks.mp hb
    rw [← hfree] at hB
    exact hs (mem_freeBlocks.mp hB).2
  have hmem : (⟨p, k⟩ : Block) ∈ liveBlocks m1 (splitDownBlocks p k n B) := by
    rw [hg.live]
    exact Finset.mem_insert_self _ _
  have hframe := frameOf_pageAddr (hr1.tiles.base_lt hg.mem).2
  rcases buddyFree_cases hr1 hR hframe with ⟨hno, -⟩ | ⟨j, hj, hb, hfreed⟩
  · exact absurd rfl (hno _ hmem)
  · obtain rfl : j = k := hr1.tiles.order_eq (mem_liveBlocks.mp hb).1 hg.mem
    obtain ⟨m2, B2, L2, hrun2, hr2, hd, -, hmerged⟩ :=
      putBlock_coalesceUp hr1 hR hj hb
    refine ⟨m1, m2, ?_, ?_, ⟨B2, L2, hr2, hmerged⟩, ?_⟩
    · rw [buddyStep, hrun]
      rfl
    · rw [buddyStep, hfreed, hrun2]
      rfl
    · rw [hr2.view_eq]
      show liveBlocks m2 B2 = ∅
      rw [hd.live, hg.live, hnone]
      exact Finset.erase_insert (Finset.notMem_empty _)

/-- In every run whose splits are all even and at whose end no block is live,
the final state grants exactly the orders that the initial state grants. -/
theorem capacity_restored {mem : ℕ} (hlo : 2048 ≤ reservedPages mem)
    (hhi : reservedPages mem < ramPages) (m : Buddy) (ops : List BuddyOp)
    (outs : List (Option ℕ)) (m' : Buddy)
    (hrun : exec buddyStep (initializePageFrameArray mem m) ops = some (outs, m'))
    (heven : Along buddyStep (fun m op _ _ => SplitsEvenly m op)
      (initializePageFrameArray mem m) ops)
    (hfree : (pageAllocatorOf m').live = ∅) :
    ∀ k ≤ maxOrder,
      (CanGrant m' k ↔ CanGrant (initializePageFrameArray mem m) k) := by
  have hr0 := initializePageFrameArray_roots hlo hhi.le m
  have hend : BuddyForest (reservedPages mem) m' := heven.inv
    (fun s op w s' hs hstep hop => buddyStep_forest hlo hs hstep hop) ops _ outs m'
    (initializePageFrameArray_forest hlo hhi.le m) hrun
  obtain ⟨L, hr, hall⟩ := hend.free_eq hlo hr0.tiles hfree
  intro k hk
  rw [hr.canGrant_iff hlo hk, hall, hr0.canGrant_iff hlo hk,
    initializePageFrameArray_free hlo hhi.le]

end Capacity

/-- What the request of one page finds over 2048 reserved pages. -/
theorem rootLists_even :
    (∀ j < 11, rootLists 2048 j = []) ∧ rootLists 2048 11 = [260096] := by decide

theorem reservedPages_mul (R : ℕ) : reservedPages (R * pageSize) = R := by
  rw [reservedPages, pageSize]
  omega

/-- The state that the initialisation leaves over `R` reserved pages. -/
theorem initializePageFrameArray_at {R : ℕ} (hlo : 2048 ≤ R) (hhi : R ≤ ramPages)
    (m : Buddy) :
    BuddyRep R ramPages (initializePageFrameArray (R * pageSize) m)
        (rootBlocks R) (rootLists R) ∧
      freeBlocks (initializePageFrameArray (R * pageSize) m) (rootBlocks R) =
        rootBlocks R := by
  have hR := reservedPages_mul R
  have hlo' : 2048 ≤ reservedPages (R * pageSize) := hR.symm ▸ hlo
  have hhi' : reservedPages (R * pageSize) ≤ ramPages := hR.symm ▸ hhi
  have hroots := initializePageFrameArray_roots hlo' hhi' m
  have hfree := initializePageFrameArray_free hlo' hhi' m
  rw [hR] at hroots hfree
  exact ⟨hroots, hfree⟩

theorem splitsEvenly_first :
    SplitsEvenly (initializePageFrameArray (2048 * pageSize) blankBuddy)
      (.alloc pageSize) := by
  obtain ⟨hr, -⟩ := initializePageFrameArray_at (R := 2048) (by decide) (by decide)
    blankBuddy
  generalize initializePageFrameArray (2048 * pageSize) blankBuddy = m0 at hr ⊢
  obtain ⟨hnil, hlist⟩ := rootLists_even
  intro k n p horder hkn hempty hnext i hi hlt
  have hk : k = 0 := by
    have hpage : requestedOrder (pagesFor pageSize) 256 0 = some 0 := by decide
    rw [hpage, Option.some.injEq] at horder
    exact horder.symm
  subst hk
  rw [Nat.zero_add] at hkn hempty hnext hlt
  have hn : n ≤ 11 := by
    by_contra hgt
    have hnone := (hr.listEmpty_iff (k := 11) (by decide)).mp
      (hempty 11 (by decide) (by omega))
    rw [hlist] at hnone
    exact absurd hnone (by decide)
  rcases Nat.lt_or_eq_of_le hn with hlt' | rfl
  · have hself := hr.ring hkn
    rw [hnil n hlt', List.map_nil] at hself
    have hhead : m0.links.next (.head n) = .head n := (isRing_nil.mp hself).1
    rw [hhead] at hnext
    exact absurd hnext (by simp)
  · have hp := hr.next_head hkn hlist
    rw [hp, BuddyNode.frame.injEq] at hnext
    subst hnext
    have hbits : ∀ i < 11, Nat.testBit 260096 i = false := by decide
    exact hbits i hlt

theorem capacity_restored_example :
    ∃ m', exec buddyStep (initializePageFrameArray (2048 * pageSize) blankBuddy)
        [.alloc pageSize, .free (pageAddr 260096)] =
          some ([some (pageAddr 260096), none], m') ∧
      ∀ k ≤ maxOrder, (CanGrant m' k ↔
        CanGrant (initializePageFrameArray (2048 * pageSize) blankBuddy) k) := by
  obtain ⟨hr, hfree⟩ := initializePageFrameArray_at (R := 2048) (by decide)
    (by decide) blankBuddy
  obtain ⟨hnil, hlist⟩ := rootLists_even
  obtain ⟨m1, m2, hstep1, hstep2, -, hlive⟩ := request_release (k := 0)
    (n := 11) (le_refl _) hr hfree (by decide)
    (fun j _ hlt => hnil j (by omega)) hlist
  rw [pow_zero, Nat.one_mul] at hstep1
  have hexec := exec_pair hstep1 hstep2
  exact ⟨m2, hexec, capacity_restored (by decide) (by decide) blankBuddy _ _ m2
    hexec (along_pair hstep1 splitsEvenly_first hstep2 trivial) hlive⟩

/-! ## §5  A split that is not undone -/

def Unmergeable (B : Finset Block) : Prop :=
  ∀ b ∈ B, (⟨b.base + 2 ^ b.order, b.order⟩ : Block) ∈ B →
    b.base.testBit b.order = true

instance (B : Finset Block) : Decidable (Unmergeable B) :=
  inferInstanceAs (Decidable (∀ b ∈ B, _ → _))

theorem Unmergeable.eq {B B' : Finset Block} (h : Unmergeable B)
    (hmerged : Merged B B') : B' = B := by
  cases hmerged with
  | refl => rfl
  | step hl hu hbit _ =>
      have hset := h _ hl hu
      rw [hbit] at hset
      exact absurd hset (by decide)

/-- Over 65537 reserved pages the blocks have the orders 17 and 15, …, 0. -/
theorem rootLists_uneven :
    rootLists 65537 16 = [] ∧ rootLists 65537 17 = [65537] ∧
      (⟨65537, 17⟩ : Block) ∈ rootBlocks 65537 := by decide

/-- The halves of the block at 65537 are not each other's buddies. -/
theorem splitDownBlocks_uneven :
    Unmergeable (splitDownBlocks 65537 16 1 (rootBlocks 65537)) ∧
      ∀ b ∈ splitDownBlocks 65537 16 1 (rootBlocks 65537), b.order < 17 := by
  decide +kernel

/-- Of a block of order 17 at page 65537 one half is requested and given
back. Nothing is live then, and the order is gone. -/
theorem capacity_lost :
    ∃ m', exec buddyStep (initializePageFrameArray (65537 * pageSize) blankBuddy)
        [.alloc (2 ^ 16 * pageSize), .free (pageAddr 65537)] =
          some ([some (pageAddr 65537), none], m') ∧
      (pageAllocatorOf m').live = ∅ ∧
      CanGrant (initializePageFrameArray (65537 * pageSize) blankBuddy) 17 ∧
      ¬ CanGrant m' 17 := by
  obtain ⟨hr, hfree⟩ := initializePageFrameArray_at (R := 65537) (by decide)
    (by decide) blankBuddy
  obtain ⟨hnil, hlist, hroot⟩ := rootLists_uneven
  obtain ⟨hmax, horders⟩ := splitDownBlocks_uneven
  obtain ⟨m1, m2, hstep1, hstep2, ⟨B', L', hr', hmerged⟩, hlive⟩ :=
    request_release (k := 16) (n := 1) (by decide) hr hfree (by decide)
      (fun j hj hlt => by rw [show j = 16 by omega, hnil]) hlist
  refine ⟨m2, exec_pair hstep1 hstep2, hlive, ?_, ?_⟩
  · rw [hr.canGrant_iff (by decide) (by decide), hfree]
    exact ⟨_, hroot, le_refl 17⟩
  · rw [hr'.canGrant_iff (by decide) (by decide)]
    rintro ⟨b, hb, hle⟩
    have hB := (mem_freeBlocks.mp hb).1
    rw [hmax.eq hmerged] at hB
    exact absurd (horders b hB) (Nat.not_lt.mpr hle)

end Rpos
