import Rpos.Memory.BuddyContract

/-!
# The owner of a page

`set_page_owner`, `get_page_owner` and `head_from_page` of `paging.c`. The owner is
kept in the frame of the head of a block; a tail page finds it through its `order`.
A page counts as a tail only if it is flagged so, and
`_initialize_buddy_allocator` flags no interior page: it stores the flag in the
state instead.
-/

namespace Rpos

open Base

/-! ## §1  The functions -/

def setPageOwner (pageAddr : ℕ) (newOwner : BitVec 3) (m : Buddy) : Option Buddy := do
  let pfn ← frameOf pageAddr
  let pfn :=
    if (m.frameMetadata pfn).flags &&& pageBuddyTail ≠ 0 then (m.frameMetadata pfn).order
    else pfn
  some (m.modifyFrame pfn fun f => { f with state := newOwner })

def getPageOwner (pageAddr : ℕ) (m : Buddy) : Option (BitVec 3) := do
  let pfn ← frameOf pageAddr
  let pfn :=
    if (m.frameMetadata pfn).flags &&& pageBuddyTail ≠ 0 then (m.frameMetadata pfn).order
    else pfn
  some (m.frameMetadata pfn).state

def headFromPage (page : ℕ) (m : Buddy) : Option ℕ := do
  let pfn ← frameOf page
  let pfn :=
    if (m.frameMetadata pfn).flags = pageBuddyTail then (m.frameMetadata pfn).order else pfn
  if (m.frameMetadata pfn).flags &&& pageBuddyHead ≠ 0 then some (pageAddr pfn) else some 0

def Flagged (m : Buddy) (q : ℕ) : Prop := (m.frameMetadata q).flags ≠ 0

section Lookup

variable {lo : ℕ} {m : Buddy} {B : Finset Block} {L : ℕ → List ℕ} {b : Block} {x : ℕ}

/-- The frame that an owner is read from: the head of the block, if the page is
flagged. -/
theorem BuddyRep.owner_frame (hr : BuddyRep lo ramPages m B L) (hb : b ∈ B)
    (hx : x ∈ b.pages) (hflag : Flagged m x) :
    (if (m.frameMetadata x).flags &&& pageBuddyTail ≠ 0 then (m.frameMetadata x).order
      else x) = b.base := by
  have hd := hr.described b hb
  by_cases hbase : x = b.base
  · rw [hbase, hd.flags, if_neg (by decide)]
  · rcases hd.tail_flags x hx hbase with htail | ⟨hzero, -⟩
    · rw [htail, if_pos (by decide), hd.tail_order x hx hbase]
    · exact absurd hzero hflag

theorem owner_frame_unflagged (hflag : ¬ Flagged m x) :
    (if (m.frameMetadata x).flags &&& pageBuddyTail ≠ 0 then (m.frameMetadata x).order
      else x) = x := by
  rw [not_not.mp hflag, if_neg (by decide)]

theorem BuddyRep.getPageOwner_eq (hr : BuddyRep lo ramPages m B L) (hb : b ∈ B)
    (hx : x ∈ b.pages) (hflag : Flagged m x) :
    getPageOwner (pageAddr x) m = some (m.frameMetadata b.base).state := by
  rw [getPageOwner, frameOf_pageAddr (hr.tiles.mem_range hb hx).2, Option.bind_eq_bind,
    Option.bind_some, hr.owner_frame hb hx hflag]

theorem BuddyRep.headFromPage_eq (hr : BuddyRep lo ramPages m B L) (hb : b ∈ B)
    (hx : x ∈ b.pages) (hflag : Flagged m x) :
    headFromPage (pageAddr x) m = some (pageAddr b.base) := by
  have hd := hr.described b hb
  have hframe : (if (m.frameMetadata x).flags = pageBuddyTail then
      (m.frameMetadata x).order else x) = b.base := by
    by_cases hbase : x = b.base
    · rw [hbase, hd.flags, if_neg (by decide)]
    · rcases hd.tail_flags x hx hbase with htail | ⟨hzero, -⟩
      · rw [if_pos htail, hd.tail_order x hx hbase]
      · exact absurd hzero hflag
  rw [headFromPage, frameOf_pageAddr (hr.tiles.mem_range hb hx).2, Option.bind_eq_bind,
    Option.bind_some]
  simp only [hframe, hd.flags]
  exact if_pos (by decide)

theorem headFromPage_unflagged (hx : x < ramPages) (hflag : ¬ Flagged m x) :
    headFromPage (pageAddr x) m = some 0 := by
  have hzero := not_not.mp hflag
  have hno : ¬ (0 : BitVec 5) = pageBuddyTail := by decide
  rw [headFromPage, frameOf_pageAddr hx, Option.bind_eq_bind, Option.bind_some]
  simp only [hzero, if_neg hno]
  exact if_neg (by decide)

theorem BuddyRep.live_flagged (hr : BuddyRep lo ramPages m B L) (hb : b ∈ liveBlocks m B)
    (hx : x ∈ b.pages) : Flagged m x := by
  obtain ⟨hbB, hs⟩ := mem_liveBlocks.mp hb
  have hd := hr.described b hbB
  by_cases hbase : x = b.base
  · rw [Flagged, hbase, hd.flags]
    decide
  · rcases hd.tail_flags x hx hbase with htail | ⟨-, hfree⟩
    · rw [Flagged, htail]
      decide
    · exact absurd hfree hs

theorem BuddyRep.setPageOwner_eq (hr : BuddyRep lo ramPages m B L)
    (hb : b ∈ liveBlocks m B) (hx : x ∈ b.pages) (s : BitVec 3) :
    setPageOwner (pageAddr x) s m =
      some (m.modifyFrame b.base fun f => { f with state := s }) := by
  have hbB := (mem_liveBlocks.mp hb).1
  rw [setPageOwner, frameOf_pageAddr (hr.tiles.mem_range hbB hx).2, Option.bind_eq_bind,
    Option.bind_some, hr.owner_frame hbB hx (hr.live_flagged hb hx)]

/-- Giving an allocated block a new owner keeps the invariant and the allocated
blocks. -/
theorem BuddyRep.setOwner (hr : BuddyRep lo ramPages m B L) (hb : b ∈ liveBlocks m B)
    {s : BitVec 3} (hs : s ≠ pageFree) :
    BuddyRep lo ramPages (m.modifyFrame b.base fun f => { f with state := s }) B L ∧
      liveBlocks (m.modifyFrame b.base fun f => { f with state := s }) B =
        liveBlocks m B := by
  obtain ⟨hbB, hlive⟩ := mem_liveBlocks.mp hb
  have hfr : ∀ q ∉ pagesOf {b},
      (m.modifyFrame b.base fun f => { f with state := s }).frameMetadata q =
        m.frameMetadata q := by
    intro q hq
    rw [Buddy.modifyFrame_apply, if_neg]
    rintro rfl
    exact hq (mem_pagesOf.mpr ⟨b, Finset.mem_singleton_self b, b.base_mem⟩)
  constructor
  · obtain ⟨p, k⟩ := b
    rw [← exchange_self hbB]
    refine hr.exchange (Finset.singleton_subset_iff.mpr hbB) (fun _ => Iff.rfl)
      (singleton_apart _) hfr ?_ hr.rings ?_
    · intro c hc
      rw [Finset.mem_singleton.mp hc]
      have hd := hr.described _ hbB
      have horder := hd.order
      have hflags := hd.flags
      have htail := hd.tail_order
      have htails := hd.tail_flags
      constructor <;> simp only [Buddy.modifyFrame_apply] <;> grind
    · intro j hj q
      have hfree := hr.free j hj q
      have horder : (⟨p, j⟩ : Block) ∈ B → j = k := fun h => hr.tiles.order_eq h hbB
      simp only [Buddy.modifyFrame_apply, Finset.mem_singleton, Block.mk.injEq]
      grind
  · ext c
    rw [mem_liveBlocks, mem_liveBlocks, Buddy.modifyFrame_apply]
    by_cases hc : c.base = b.base
    · rw [if_pos hc]
      refine and_congr_right fun hcB => iff_of_true hs ?_
      rw [hr.tiles.eq_of_base hcB hbB hc]
      exact hlive
    · rw [if_neg hc]

end Lookup

/-! ## §2  Which pages are flagged -/

section Flags

variable {lo hi : ℕ} {m m' : Buddy} {B : Finset Block} {L : ℕ → List ℕ} {p k n : ℕ}
  {ps : List ℕ}

theorem BuddyRep.head_flagged (hr : BuddyRep lo hi m B L) (hk : k ≤ maxOrder)
    (hp : p ∈ L k) : Flagged m p := by
  have hflags := (hr.described _ ((hr.free k hk p).mp hp).1).flags
  rw [Flagged, hflags]
  decide

theorem splitBlockAt_flagged (hp : Flagged m p) (q : ℕ) :
    Flagged (splitBlockAt k p m) q ↔ Flagged m q ∨ q ∈ (⟨p, k + 1⟩ : Block).pages := by
  have hpos := Nat.two_pow_pos k
  have hhead : pageBuddyHead ≠ 0 := by decide
  have htail : pageBuddyTail ≠ 0 := by decide
  simp only [Flagged, splitBlockAt_frames, splitFrames, Block.mem_pages, pow_succ] at *
  grind

theorem takeBlock_flagged (hp : (m.frameMetadata p).flags = pageBuddyHead) (q : ℕ) :
    Flagged (takeBlock k p m) q ↔ Flagged m q ∨ q ∈ (⟨p, k⟩ : Block).pages := by
  have hpos := Nat.two_pow_pos k
  have hhead : pageBuddyHead ≠ 0 := by decide
  have htail : pageBuddyTail ≠ 0 := by decide
  have hor : pageBuddyHead ||| pageBuddyHead = pageBuddyHead := by decide
  simp only [Flagged, takeBlock_eq, takeFrames, Block.mem_pages] at *
  grind

theorem splitDown_flagged {node : BuddyNode} (hr : BuddyRep lo hi m B L)
    (hkn : k + n ≤ maxOrder) (hL : L (k + n) = p :: ps)
    (hrun : splitDown k n m = some (node, m')) (q : ℕ) :
    Flagged m' q ↔ Flagged m q ∨ n ≠ 0 ∧ q ∈ (⟨p, k + n⟩ : Block).pages := by
  induction n generalizing m B L ps with
  | zero =>
      simp only [splitDown, Option.some.injEq, Prod.mk.injEq] at hrun
      rw [← hrun.2]
      simp
  | succ n ih =>
      have hlt : k + n < maxOrder := hkn
      have hmem : p ∈ L (k + (n + 1)) := by simp [hL]
      rw [splitDown, Nat.add_assoc, hr.next_head hkn hL] at hrun
      have hrest := ih (splitBlockAt_rep hr hlt hL).1 hlt.le (splitLists_head p (k + n) L) hrun
      rw [hrest, splitBlockAt_flagged (hr.head_flagged hkn hmem), ← Nat.add_assoc]
      have hsub : q ∈ (⟨p, k + n⟩ : Block).pages → q ∈ (⟨p, k + n + 1⟩ : Block).pages :=
        fun h => Block.mem_pages_halves.mpr (Or.inl h)
      tauto

/-- What `buddy_alloc` flags: the pages of the free block that it takes its block
from. -/
inductive FlagOutcome (m : Buddy) (B : Finset Block) : ℕ → Buddy → Prop
  | refused : FlagOutcome m B 0 m
  | served (b : Block) (m' : Buddy) : b ∈ B →
      (∀ q, Flagged m' q ↔ Flagged m q ∨ q ∈ b.pages) →
      FlagOutcome m B (pageAddr b.base) m'

theorem findAndSplit_flagged (hr : BuddyRep lo hi m B L) :
    ∀ (fuel n w : ℕ), k + n + fuel = maxOrder + 1 →
      findAndSplit k fuel n m = some (w, m') → FlagOutcome m B w m' := by
  intro fuel
  induction fuel with
  | zero =>
      intro n w _ hrun
      simp only [findAndSplit, Option.some.injEq, Prod.mk.injEq] at hrun
      obtain ⟨rfl, rfl⟩ := hrun
      exact .refused
  | succ fuel ih =>
      intro n w hn hrun
      have hkn : k + n ≤ maxOrder := by omega
      rw [findAndSplit] at hrun
      cases hL : L (k + n) with
      | nil =>
          rw [if_pos ((hr.listEmpty_iff hkn).mpr hL)] at hrun
          exact ih (n + 1) w (by omega) hrun
      | cons p ps =>
          have hne : ¬ m.links.listEmpty (.head (k + n)) = true := by
            rw [hr.listEmpty_iff hkn, hL]
            exact List.cons_ne_nil p ps
          obtain ⟨m₁, hsplit, hr₁, -⟩ := splitDown_rep hr hkn hL
          obtain ⟨ps', hL'⟩ := splitDownLists_head (k := k) hL
          have hk : k ≤ maxOrder := by omega
          obtain ⟨hret, -, -⟩ := allocAndReturn_rep hr₁ hk hL'
          rw [if_neg hne, hsplit] at hrun
          have hrun' : allocAndReturn k m₁ = some (w, m') := hrun
          rw [hret, Option.some.injEq, Prod.mk.injEq] at hrun'
          obtain ⟨rfl, rfl⟩ := hrun'
          have hhead := hr₁.described _ (hr₁.mem_free_head hk hL').1
          refine .served ⟨p, k + n⟩ _ (hr.mem_free_head hkn hL).1 fun q => ?_
          rw [takeBlock_flagged hhead.flags, splitDown_flagged hr hkn hL hsplit]
          cases n with
          | zero => simp
          | succ n =>
              have hsub : q ∈ (⟨p, k⟩ : Block).pages →
                  q ∈ (⟨p, k + (n + 1)⟩ : Block).pages := by
                have hpow := Nat.pow_le_pow_right (by decide : 0 < 2)
                  (Nat.le_add_right k (n + 1))
                simp only [Block.mem_pages]
                omega
              have hne : n + 1 ≠ 0 := Nat.succ_ne_zero n
              tauto

theorem buddyAlloc_flagged (hr : BuddyRep lo hi m B L) {bytes w : ℕ}
    (hrun : buddyAlloc bytes m = some (w, m')) : FlagOutcome m B w m' := by
  unfold buddyAlloc at hrun
  cases horder : requestedOrder (pagesFor bytes) 256 0 with
  | none => simp [horder] at hrun
  | some k =>
      rw [horder, Option.bind_eq_bind, Option.bind_some] at hrun
      by_cases hk : maxOrder < k
      · rw [if_pos hk, Option.some.injEq, Prod.mk.injEq] at hrun
        obtain ⟨rfl, rfl⟩ := hrun
        exact .refused
      · refine findAndSplit_flagged (k := k) hr (maxOrder - k + 1) 0 w (by omega) ?_
        rw [if_neg hk] at hrun
        rw [findAndSplit, ← hrun]
        cases m.links.listEmpty (.head (k + 0)) with
        | true => rfl
        | false => rfl

/-- A merge flags nothing new: the upper head becomes a tail. -/
theorem mergeBuddies_flagged (hp : Flagged m (p + 2 ^ k)) (q : ℕ) :
    Flagged (mergeBuddies k p (p + 2 ^ k) m) q ↔ Flagged m q := by
  have htail : pageBuddyTail ≠ 0 := by decide
  simp only [Flagged, mergeBuddies_eq, mergeFrames] at *
  grind

theorem coalesceUp_flagged (hlo : 2048 ≤ lo) (q : ℕ) :
    ∀ (fuel p k : ℕ) (m : Buddy) (B : Finset Block) (L : ℕ → List ℕ),
      BuddyRep lo ramPages m B L → (⟨p, k⟩ : Block) ∈ B →
      (m.frameMetadata p).state = pageFree → coalesceUp fuel p m = some m' →
      (Flagged m' q ↔ Flagged m q) := by
  intro fuel
  induction fuel with
  | zero =>
      intro p k m B L _ _ _ hrun
      simp [coalesceUp] at hrun
  | succ fuel ih =>
      intro p k m B L hr hB hs hrun
      have hk : k < maxOrder := hr.order_lt hlo hB
      rcases coalesceUp_cases hr hlo hB hs fuel with
        ⟨hstop, -⟩ | ⟨r, hgo, hl, hu, -, -⟩
      · rw [hrun, Option.some.injEq] at hstop
        rw [hstop]
      · obtain ⟨hmem, hfree⟩ := mergeBuddies_free hr hlo hB hl
        rw [ih r (k + 1) _ _ _ (mergeBuddies_rep hr hk hl hu).1 hmem hfree
          (hgo.symm.trans hrun), mergeBuddies_flagged (hr.head_flagged hk.le hu)]

theorem buddyFree_flagged (hr : BuddyRep lo ramPages m B L) (hlo : 2048 ≤ lo) {addr : ℕ}
    (hrun : buddyFree addr m = some m') (q : ℕ) : Flagged m' q ↔ Flagged m q := by
  cases hp : frameOf addr with
  | none => simp [buddyFree, hp] at hrun
  | some p =>
      rcases buddyFree_cases hr hlo hp with ⟨-, hsame⟩ | ⟨k, hk, hb, hput⟩
      · rw [hrun, Option.some.injEq] at hsame
        rw [hsame]
      · obtain ⟨hB, hs⟩ := mem_liveBlocks.mp hb
        have hfree : ((putBlock k p m).frameMetadata p).state = pageFree := by
          rw [putBlock_frames, if_pos rfl]
        rw [coalesceUp_flagged hlo q _ p k _ _ _ (putBlock_rep hr hk.le hB hs) hB hfree
          (hput.symm.trans hrun), Flagged, Flagged, putBlock_frames]
        split_ifs <;> rfl

/-- `initialize_page_frame_array` flags the heads of its blocks. -/
theorem initializeBuddyAllocator_flagged (available : ℕ) :
    ∀ (i p : ℕ) (m : Buddy) (B : Finset Block),
      (∀ q, p ≤ q → q < p + available % 2 ^ i → ¬ Flagged m q) →
      (∀ q < p + available % 2 ^ i, Flagged m q ↔ ∃ b ∈ B, b.base = q) →
      ∀ q < p + available % 2 ^ i, Flagged (initializeBuddyAllocator available i p m) q ↔
        ∃ b ∈ initialBlocks available i p B, b.base = q := by
  intro i
  induction i with
  | zero => exact fun p m B _ hB => hB
  | succ i ih =>
      intro p m B hclear hB
      rw [mod_two_pow_succ_testBit] at hclear hB ⊢
      rw [initializeBuddyAllocator, initialBlocks]
      cases hbit : available.testBit i with
      | false =>
          simp only [hbit, Bool.false_eq_true, if_false, Nat.zero_add] at hclear hB ⊢
          exact ih p m B hclear hB
      | true =>
          have hpos := Nat.two_pow_pos i
          have hhead : pageBuddyHead ≠ 0 := by decide
          have hflag : ∀ q, Flagged (addInitialBlock i p m) q ↔ q = p ∨ Flagged m q := by
            intro q
            simp only [Flagged, addInitialBlock_eq, initialFrames]
            grind
          simp only [hbit, if_true, ← Nat.add_assoc] at hclear hB ⊢
          refine ih (p + 2 ^ i) _ _ (fun q hq hlt => ?_) fun q hlt => ?_
          · rw [hflag, not_or]
            exact ⟨by omega, hclear q (by omega) hlt⟩
          · rw [hflag, hB q hlt]
            simp only [Finset.mem_insert, exists_eq_or_imp]
            exact or_congr_left eq_comm

end Flags

/-! ## §3  The states reached -/

/-- The pages of the block that the page at `w` was taken from. -/
def servedFrom (m : Buddy) (w : ℕ) : Set ℕ :=
  {q | ∃ b ∈ blocksOf m, q ∈ b.pages ∧ ∃ p ∈ b.pages, w = pageAddr p}

def firstPages (m : Buddy) : Set ℕ :=
  {q | ∃ b ∈ blocksOf m, b.base = q}

/-- The runs from `initialize_page_frame_array`, each with its touched pages: those
that started a block at first, and those of every free block that a request was
served from. -/
inductive BuddyReached (mem : ℕ) : Buddy → Set ℕ → Prop
  | init (m : Buddy) : BuddyReached mem (initializePageFrameArray mem m)
      (firstPages (initializePageFrameArray mem m))
  | alloc {m m' : Buddy} {T : Set ℕ} {bytes w : ℕ} : BuddyReached mem m T →
      buddyAlloc bytes m = some (w, m') → BuddyReached mem m' (T ∪ servedFrom m w)
  | free {m m' : Buddy} {T : Set ℕ} {addr : ℕ} : BuddyReached mem m T →
      buddyFree addr m = some m' → BuddyReached mem m' T
  | setOwner {m m' : Buddy} {T : Set ℕ} {b : Block} {y : ℕ} {s : BitVec 3} :
      BuddyReached mem m T → b ∈ liveBlocks m (blocksOf m) → y ∈ b.pages →
      s = pageBuddy ∨ s = pageSlab → setPageOwner (pageAddr y) s m = some m' →
      BuddyReached mem m' T

section BuddyReached

variable {lo mem : ℕ} {m m' : Buddy} {B : Finset Block} {L : ℕ → List ℕ} {T : Set ℕ}

/-- A request of any size that returns is refused, or served as one of its order. -/
theorem BuddyRep.alloc_cases (hr : BuddyRep lo ramPages m B L) {bytes w : ℕ}
    (hrun : buddyAlloc bytes m = some (w, m')) :
    w = 0 ∧ m' = m ∨ ∃ k ≤ maxOrder, requestedOrder (pagesFor bytes) 256 0 = some k ∧
      AllocOutcome lo ramPages m B L k (buddyAlloc bytes m) := by
  cases horder : requestedOrder (pagesFor bytes) 256 0 with
  | none => simp [buddyAlloc, horder] at hrun
  | some k =>
      rcases Nat.lt_or_ge maxOrder k with hk | hk
      · rw [buddyAlloc, horder, Option.bind_eq_bind, Option.bind_some, if_pos hk,
          Option.some.injEq, Prod.mk.injEq] at hrun
        exact Or.inl ⟨hrun.1.symm, hrun.2.symm⟩
      · exact Or.inr ⟨k, hk, rfl, buddyAlloc_outcome hr horder hk⟩

theorem BuddyOk.alloc_any (hm : BuddyOk lo m) {bytes w : ℕ}
    (hrun : buddyAlloc bytes m = some (w, m')) : BuddyOk lo m' := by
  obtain ⟨L, hr⟩ := hm
  rcases hr.alloc_cases hrun with ⟨-, rfl⟩ | ⟨k, -, -, hout⟩
  · exact ⟨L, hr⟩
  · generalize buddyAlloc bytes m = r at hout hrun
    cases hout with
    | refused _ =>
        rw [Option.some.injEq, Prod.mk.injEq] at hrun
        exact hrun.2 ▸ ⟨L, hr⟩
    | granted n p ps m₁ _ _ _ hr' _ =>
        rw [Option.some.injEq, Prod.mk.injEq] at hrun
        exact hrun.2 ▸ hr'.ok

theorem BuddyOk.free_any (hm : BuddyOk lo m) (hlo : 2048 ≤ lo) {addr : ℕ}
    (hrun : buddyFree addr m = some m') : BuddyOk lo m' := by
  obtain ⟨L, hr⟩ := hm
  cases hp : frameOf addr with
  | none => simp [buddyFree, hp] at hrun
  | some p =>
      have hout := buddyFree_spec hr hlo hp
      rw [hrun] at hout
      cases hout with
      | ignored _ => exact ⟨L, hr⟩
      | released _ _ _ _ _ _ hr' _ _ => exact hr'.ok

theorem mem_servedFrom (hr : BuddyRep lo ramPages m (blocksOf m) L) {b : Block}
    (hb : b ∈ blocksOf m) (q : ℕ) : q ∈ servedFrom m (pageAddr b.base) ↔ q ∈ b.pages := by
  constructor
  · rintro ⟨c, hc, hq, p, hp, haddr⟩
    have hbase := pageAddr_inj (hr.tiles.base_lt hb).2 (hr.tiles.mem_range hc hp).2 haddr
    rw [hr.tiles.apart b hb c hc p (hbase ▸ b.base_mem) hp]
    exact hq
  · intro hq
    exact ⟨b, hb, hq, b.base, b.base_mem, rfl⟩

theorem notMem_servedFrom_null (hr : BuddyRep lo ramPages m (blocksOf m) L) (q : ℕ) :
    q ∉ servedFrom m 0 := by
  rintro ⟨c, hc, -, p, hp, haddr⟩
  exact pageAddr_ne_zero (hr.tiles.mem_range hc hp).2 haddr.symm

theorem initializePageFrameArray_flagged {mem : ℕ} (hpos : 0 < reservedPages mem)
    (hle : reservedPages mem ≤ ramPages) (m : Buddy) (q : ℕ) (hq : q < ramPages) :
    Flagged (initializePageFrameArray mem m) q ↔
      q ∈ firstPages (initializePageFrameArray mem m) := by
  have hsum : reservedPages mem + (ramPages - reservedPages mem) % 2 ^ (maxOrder + 1) =
      ramPages := by
    simp only [maxOrder, ramPages] at hle ⊢
    omega
  have hblocks := (initializePageFrameArray_rep m hpos hle).blocks_eq
  obtain ⟨hr, hclear⟩ := initialFrameArray_rep (reservedPages mem) m hle
  have hnone := fun q => show q < ramPages → _ from fun hq => not_not.mpr <| by
    rcases Nat.lt_or_ge q (reservedPages mem) with hlow | hhigh
    · exact (hr.reserved q hlow).2.1
    · exact congrArg PageFrame.flags (hclear q hhigh hq)
  have hflag := initializeBuddyAllocator_flagged (ramPages - reservedPages mem)
    (maxOrder + 1) (reservedPages mem) _ ∅ (fun q _ hlt => hnone q (hsum ▸ hlt))
    (fun q hlt => iff_of_false (hnone q (hsum ▸ hlt)) (by simp)) q (hsum.symm ▸ hq)
  rw [firstPages, hblocks]
  exact hflag

/-- In every state reached the flagged pages are the touched ones. -/
theorem BuddyReached.flagged (hlo : 2048 ≤ reservedPages mem)
    (hhi : reservedPages mem < ramPages) (hreach : BuddyReached mem m T) :
    BuddyOk (reservedPages mem) m ∧ ∀ q < ramPages, Flagged m q ↔ q ∈ T := by
  induction hreach with
  | init m =>
      exact ⟨initializePageFrameArray_ok hlo hhi.le m,
        initializePageFrameArray_flagged (by omega) hhi.le m⟩
  | @alloc m m' T bytes w _ hrun ih =>
      obtain ⟨hok, hflag⟩ := ih
      refine ⟨hok.alloc_any hrun, fun q hq => ?_⟩
      obtain ⟨L, hr⟩ := hok
      have hout := buddyAlloc_flagged hr hrun
      rw [Set.mem_union, ← hflag q hq]
      cases hout with
      | refused => exact (or_iff_left (notMem_servedFrom_null hr q)).symm
      | served b _ hb hb' => rw [hb' q, mem_servedFrom hr hb]
  | @free m m' T addr _ hrun ih =>
      obtain ⟨hok, hflag⟩ := ih
      refine ⟨hok.free_any hlo hrun, fun q hq => ?_⟩
      obtain ⟨L, hr⟩ := hok
      rw [buddyFree_flagged hr hlo hrun, hflag q hq]
  | @setOwner m m' T b y s _ hb hy hs hrun ih =>
      obtain ⟨⟨L, hr⟩, hflag⟩ := ih
      have hlive : s ≠ pageFree := by
        rcases hs with rfl | rfl <;> decide
      rw [hr.setPageOwner_eq hb hy, Option.some.injEq] at hrun
      subst hrun
      refine ⟨(hr.setOwner hb hlive).1.ok, fun q hq => ?_⟩
      rw [← hflag q hq, Flagged, Flagged, Buddy.modifyFrame_apply]
      split_ifs with hbase
      · rw [hbase]
      · exact Iff.rfl

/-! ## §4  Which pages resolve to their block -/

/-- The page `x` of the block `b` finds its head and its owner, and an owner given to
it is that of the block alone. -/
structure FindsBlock (m : Buddy) (x : ℕ) (b : Block) : Prop where
  head : headFromPage (pageAddr x) m = some (pageAddr b.base)
  owner : getPageOwner (pageAddr x) m = getPageOwner (pageAddr b.base) m
  owner_free : getPageOwner (pageAddr x) m = some pageFree ↔ b ∈ freeBlocks m (blocksOf m)
  set_owner : b ∈ liveBlocks m (blocksOf m) → ∀ s, s = pageBuddy ∨ s = pageSlab →
    ∃ m', setPageOwner (pageAddr x) s m = some m' ∧
      (∀ y ∈ b.pages, getPageOwner (pageAddr y) m' = some s) ∧
      ∀ c ∈ blocksOf m, c ≠ b → ∀ y ∈ c.pages,
        getPageOwner (pageAddr y) m' = getPageOwner (pageAddr y) m

/-- The owner of a page depends on the frames of its block only. -/
theorem getPageOwner_congr (hr : BuddyRep lo ramPages m B L) {c : Block} (hc : c ∈ B)
    (hsame : ∀ q ∈ c.pages, m'.frameMetadata q = m.frameMetadata q) {y : ℕ}
    (hy : y ∈ c.pages) : getPageOwner (pageAddr y) m' = getPageOwner (pageAddr y) m := by
  rw [getPageOwner, getPageOwner, frameOf_pageAddr (hr.tiles.mem_range hc hy).2,
    Option.bind_eq_bind, Option.bind_some, Option.bind_some, hsame y hy]
  by_cases hflag : Flagged m y
  · rw [hr.owner_frame hc hy hflag]
    exact congrArg (fun f => some f.state) (hsame _ c.base_mem)
  · rw [owner_frame_unflagged hflag]
    exact congrArg (fun f => some f.state) (hsame y hy)

theorem BuddyRep.findsBlock (hr : BuddyRep lo ramPages m (blocksOf m) L) {b : Block}
    (hb : b ∈ blocksOf m) {x : ℕ} (hx : x ∈ b.pages) (hflag : Flagged m x) :
    FindsBlock m x b := by
  have hbase : Flagged m b.base := by
    rw [Flagged, (hr.described b hb).flags]
    decide
  have howner := hr.getPageOwner_eq hb hx hflag
  refine ⟨hr.headFromPage_eq hb hx hflag, ?_, ?_, fun hlive s hs => ?_⟩
  · rw [howner, hr.getPageOwner_eq hb b.base_mem hbase]
  · rw [howner, Option.some.injEq, mem_freeBlocks]
    exact (and_iff_right hb).symm
  · have hne : s ≠ pageFree := by
      rcases hs with rfl | rfl <;> decide
    obtain ⟨hr', hlive'⟩ := hr.setOwner hlive hne
    refine ⟨_, hr.setPageOwner_eq hlive hx s, fun y hy => ?_, fun c hc hcb y hy => ?_⟩
    · rw [hr'.getPageOwner_eq hb hy (hr'.live_flagged (hlive'.symm ▸ hlive) hy),
        Buddy.modifyFrame_self]
    · refine getPageOwner_congr hr hc (fun q hq => ?_) hy
      rw [Buddy.modifyFrame_apply, if_neg]
      rintro rfl
      exact hcb (hr.tiles.apart c hc b hb _ hq b.base_mem)

/-- In every state reached, the page of a block resolves to the block exactly when it
is a touched one. -/
theorem page_resolves_iff (hlo : 2048 ≤ reservedPages mem)
    (hhi : reservedPages mem < ramPages) (hreach : BuddyReached mem m T) {b : Block}
    (hb : b ∈ blocksOf m) {x : ℕ} (hx : x ∈ b.pages) : FindsBlock m x b ↔ x ∈ T := by
  obtain ⟨⟨L, hr⟩, hflag⟩ := hreach.flagged hlo hhi
  have hlt := (hr.tiles.mem_range hb hx).2
  rw [← hflag x hlt]
  constructor
  · intro hres
    by_contra hno
    have hhead := (headFromPage_unflagged hlt hno).symm.trans hres.head
    exact pageAddr_ne_zero (hr.tiles.base_lt hb).2 (Option.some.inj hhead).symm
  · exact hr.findsBlock hb hx

end BuddyReached

/-- A machine with 2048 reserved pages, before the first request. -/
theorem initial_rep :
    BuddyRep 2048 ramPages (initializePageFrameArray (2048 * 4096) blankBuddy)
      (initialBlocks (ramPages - 2048) (maxOrder + 1) 2048 ∅)
      (initialLists (ramPages - 2048) (maxOrder + 1) 2048 fun _ => []) := by
  have hreserved : reservedPages (2048 * 4096) = 2048 := by decide
  have hr := @initializePageFrameArray_rep (2048 * 4096) blankBuddy (by decide) (by decide)
  simp only [hreserved] at hr
  exact hr

theorem blocksOf_initial : blocksOf (initializePageFrameArray (2048 * 4096) blankBuddy) =
    {⟨2048, 17⟩, ⟨133120, 16⟩, ⟨198656, 15⟩, ⟨231424, 14⟩, ⟨247808, 13⟩, ⟨256000, 12⟩,
      ⟨260096, 11⟩} := by
  rw [initial_rep.blocks_eq]
  decide

theorem page_resolves_iff_example :
    FindsBlock (initializePageFrameArray (2048 * 4096) blankBuddy) 2049 ⟨2048, 17⟩ ↔
      2049 ∈ firstPages (initializePageFrameArray (2048 * 4096) blankBuddy) :=
  page_resolves_iff (by decide) (by decide) (.init blankBuddy)
    (blocksOf_initial ▸ by decide) (Block.mem_pages.mpr (by decide))

/-- Before the first request the second page of the first block has no head. -/
theorem interior_page_unresolved :
    let m := initializePageFrameArray (2048 * 4096) blankBuddy
    BuddyReached (2048 * 4096) m (firstPages m) ∧ ⟨2048, 17⟩ ∈ blocksOf m ∧
      2049 ∈ (⟨2048, 17⟩ : Block).pages ∧ headFromPage (pageAddr 2049) m = some 0 ∧
      ¬ FindsBlock m 2049 ⟨2048, 17⟩ := by
  intro m
  have hflag : ¬ Flagged m 2049 := by
    rw [initializePageFrameArray_flagged (by decide) (by decide) blankBuddy 2049 (by decide),
      firstPages, blocksOf_initial]
    decide
  have hnull := headFromPage_unflagged (by decide) hflag
  refine ⟨.init blankBuddy, blocksOf_initial ▸ by decide, Block.mem_pages.mpr (by decide),
    hnull, fun hres => ?_⟩
  exact pageAddr_ne_zero (by decide) (Option.some.inj (hnull.symm.trans hres.head)).symm

end Rpos
