import Rpos.Memory.BuddyOperations

/-!
# The contract of the buddy allocator

Two statements about every run of `buddy_alloc` and `buddy_free` from
`initialize_page_frame_array`. The frame array and the free lists stay a
tiling of the managed pages with its free blocks listed; and seen from outside
the allocator is a pool of pages from which blocks are granted and to which they
return.
-/

namespace Rpos

open Base

/-! ## §1  Runs -/

inductive BuddyOp
  | alloc (bytes : ℕ)
  | free (addr : ℕ)
deriving DecidableEq, Repr

/-- Requests are of at most 1 GiB; any address of the managed memory may be
freed. -/
def BuddyOp.Ok : BuddyOp → Prop
  | .alloc bytes => bytes ≤ 2 ^ 30
  | .free addr => ∃ pa < 2 ^ 30, addr = paToVa pa

def buddyStep (m : Buddy) : BuddyOp → Option (Option ℕ × Buddy)
  | .alloc bytes => (buddyAlloc bytes m).map fun r => (some r.1, r.2)
  | .free addr => (buddyFree addr m).map fun m' => (none, m')

/-! ## §2  The blocks of a state -/

def blocksOf (m : Buddy) : Finset Block :=
  ((Finset.range ramPages).filter fun p =>
      (m.frameMetadata p).flags &&& pageBuddyHead ≠ 0).image
    fun p => ⟨p, (m.frameMetadata p).order⟩

theorem BuddyRep.blocks_eq {lo : ℕ} {m : Buddy} {B : Finset Block}
    {L : ℕ → List ℕ} (hr : BuddyRep lo ramPages m B L) : blocksOf m = B := by
  ext b
  simp only [blocksOf, Finset.mem_image, Finset.mem_filter, Finset.mem_range]
  constructor
  · rintro ⟨p, ⟨hp, hflag⟩, rfl⟩
    obtain ⟨c, hc, rfl⟩ := (hr.head_flag_iff hp).mp hflag
    rw [(hr.described c hc).order]
    exact hc
  · intro hb
    have hp := (hr.tiles.base_lt hb).2
    refine ⟨b.base, ⟨hp, (hr.head_flag_iff hp).mpr ⟨b, hb, rfl⟩⟩, ?_⟩
    rw [(hr.described b hb).order]

def BuddyOk (lo : ℕ) (m : Buddy) : Prop :=
  ∃ L, BuddyRep lo ramPages m (blocksOf m) L

theorem BuddyRep.ok {lo : ℕ} {m : Buddy} {B : Finset Block} {L : ℕ → List ℕ}
    (hr : BuddyRep lo ramPages m B L) : BuddyOk lo m :=
  ⟨L, hr.blocks_eq.symm ▸ hr⟩

/-! ## §3  The page allocator -/

/-- What a client sees: the blocks it holds and the blocks left over. -/
structure PageAllocator where
  live : Finset Block
  free : Finset Block

def PageAllocator.pool (a : PageAllocator) : Finset ℕ := pagesOf a.free

/-- The page allocator of a machine whose first `lo` pages are reserved. A
grant takes `2 ^ k` pages of the pool, `k` the least sufficient order; a
release puts the pages of a live block back. -/
inductive PageSpec (lo : ℕ) :
    PageAllocator → BuddyOp → Option ℕ → PageAllocator → Prop
  | grant {a a' : PageAllocator} {bytes p k : ℕ} : IsLeastOrder bytes k →
      lo ≤ p → p + 2 ^ k ≤ ramPages →
      (∃ f ∈ a.free, k ≤ f.order) →
      (⟨p, k⟩ : Block).pages ⊆ a.pool →
      (∀ c ∈ a.live, Disjoint (⟨p, k⟩ : Block).pages c.pages) →
      a'.live = insert ⟨p, k⟩ a.live →
      a'.pool = a.pool \ (⟨p, k⟩ : Block).pages →
      PageSpec lo a (.alloc bytes) (some (pageAddr p)) a'
  | refuse {a : PageAllocator} {bytes k : ℕ} : IsLeastOrder bytes k →
      (∀ f ∈ a.free, f.order < k) → PageSpec lo a (.alloc bytes) (some 0) a
  | release {a a' : PageAllocator} {addr : ℕ} {b : Block} : b ∈ a.live →
      frameOf addr = some b.base → a'.live = a.live.erase b →
      a'.pool = a.pool ∪ b.pages → PageSpec lo a (.free addr) none a'
  | ignore {a : PageAllocator} {addr : ℕ} :
      (∀ b ∈ a.live, frameOf addr ≠ some b.base) →
      PageSpec lo a (.free addr) none a

/-- A request is granted a fresh block, or refused without effect. -/
theorem PageSpec.alloc_result {lo : ℕ} {a a' : PageAllocator} {op : BuddyOp}
    {w : Option ℕ} (h : PageSpec lo a op w a') (bytes : ℕ)
    (hop : op = .alloc bytes) :
    (∃ p k, w = some (pageAddr p) ∧ lo ≤ p ∧ p + 2 ^ k ≤ ramPages ∧
      IsLeastOrder bytes k ∧
      (∀ c ∈ a.live, Disjoint (⟨p, k⟩ : Block).pages c.pages) ∧
      a'.live = insert ⟨p, k⟩ a.live) ∨
    w = some 0 ∧ a' = a := by
  cases h with
  | grant hleast hlo hhi _ _ hdisj hlive _ =>
      cases hop
      exact Or.inl ⟨_, _, rfl, hlo, hhi, hleast, hdisj, hlive⟩
  | refuse _ _ => exact Or.inr ⟨rfl, rfl⟩
  | release _ _ _ _ => cases hop
  | ignore _ => cases hop

def pageAllocatorOf (m : Buddy) : PageAllocator where
  live := liveBlocks m (blocksOf m)
  free := freeBlocks m (blocksOf m)

namespace BuddyRep

variable {lo : ℕ} {m m' : Buddy} {B B' : Finset Block} {L L' : ℕ → List ℕ}

theorem view_eq (hr : BuddyRep lo ramPages m B L) :
    pageAllocatorOf m = ⟨liveBlocks m B, freeBlocks m B⟩ := by
  rw [pageAllocatorOf, hr.blocks_eq]

/-- The free pages are the managed pages outside the live blocks. -/
theorem pool_eq (hr : BuddyRep lo ramPages m B L) :
    pagesOf (freeBlocks m B) =
      Finset.Ico lo ramPages \ pagesOf (liveBlocks m B) := by
  ext q
  rw [Finset.mem_sdiff, Finset.mem_Ico, mem_pagesOf, mem_pagesOf]
  constructor
  · rintro ⟨b, hb, hq⟩
    obtain ⟨hbB, hs⟩ := mem_freeBlocks.mp hb
    refine ⟨hr.tiles.mem_range hbB hq, ?_⟩
    rintro ⟨c, hc, hqc⟩
    obtain ⟨hcB, hs'⟩ := mem_liveBlocks.mp hc
    exact hs' (hr.tiles.apart b hbB c hcB q hq hqc ▸ hs)
  · rintro ⟨⟨hl, hh⟩, hlive⟩
    obtain ⟨b, hb, hq⟩ := hr.tiles.cover q hl hh
    refine ⟨b, mem_freeBlocks.mpr ⟨hb, ?_⟩, hq⟩
    by_contra hs
    exact hlive ⟨b, mem_liveBlocks.mpr ⟨hb, hs⟩, hq⟩

theorem live_apart (hr : BuddyRep lo ramPages m B L) :
    Apart (liveBlocks m B) :=
  fun b hb c hc => hr.tiles.apart b (mem_liveBlocks.mp hb).1 c
    (mem_liveBlocks.mp hc).1

theorem conserved (hr : BuddyRep lo ramPages m B L) :
    (pagesOf (freeBlocks m B)).card +
      ∑ b ∈ liveBlocks m B, 2 ^ b.order = ramPages - lo := by
  have hfree : (pagesOf (freeBlocks m B)).card =
      ∑ b ∈ freeBlocks m B, 2 ^ b.order := by
    have hcard : (pagesOf (freeBlocks m B)).card =
        ∑ b ∈ freeBlocks m B, b.pages.card := by
      refine Finset.card_biUnion ?_
      intro b hb c hc hne
      rw [Function.onFun, Finset.disjoint_left]
      intro q hqb hqc
      exact hne (hr.tiles.apart b (mem_freeBlocks.mp hb).1 c
        (mem_freeBlocks.mp hc).1 q hqb hqc)
    simpa only [Block.card_pages] using hcard
  rw [hfree, freeBlocks, liveBlocks,
    Finset.sum_filter_add_sum_filter_not B]
  exact hr.tiles.sum_sizes

theorem grant_spec (hr : BuddyRep lo ramPages m B L)
    (hr' : BuddyRep lo ramPages m' B' L') {bytes p k j : ℕ}
    (hleast : IsLeastOrder bytes k) (hj : k ≤ j) (hj' : j ≤ maxOrder)
    (hL : p ∈ L j) (hg : Granted lo m m' B B' p k) :
    PageSpec lo (pageAllocatorOf m) (.alloc bytes) (some (pageAddr p))
      (pageAllocatorOf m') := by
  rw [hr.view_eq, hr'.view_eq]
  obtain ⟨hjB, hjs⟩ := (hr.free j hj' p).mp hL
  have hwithin := hr'.tiles.within _ hg.mem
  have hdisj : ∀ c ∈ liveBlocks m B,
      Disjoint (⟨p, k⟩ : Block).pages c.pages := by
    intro c hc
    have hc' : c ∈ liveBlocks m' B' := by
      rw [hg.live]
      exact Finset.mem_insert_of_mem hc
    rw [Finset.disjoint_left]
    intro q hq hqc
    have he := hr'.tiles.apart _ hg.mem c (mem_liveBlocks.mp hc').1 q hq hqc
    exact hg.fresh (he ▸ hc)
  have hpool : (⟨p, k⟩ : Block).pages ⊆ pagesOf (freeBlocks m B) := by
    intro q hq
    rw [hr.pool_eq, Finset.mem_sdiff, Finset.mem_Ico, mem_pagesOf]
    refine ⟨hr'.tiles.mem_range hg.mem hq, ?_⟩
    rintro ⟨c, hc, hqc⟩
    exact Finset.disjoint_left.mp (hdisj c hc) hq hqc
  refine .grant hleast hwithin.1 hwithin.2
    ⟨⟨p, j⟩, mem_freeBlocks.mpr ⟨hjB, hjs⟩, hj⟩ hpool hdisj hg.live ?_
  show pagesOf (freeBlocks m' B') = pagesOf (freeBlocks m B) \ _
  rw [hr'.pool_eq, hr.pool_eq, hg.live]
  ext q
  simp only [Finset.mem_sdiff, mem_pagesOf, Finset.mem_insert]
  grind

theorem release_spec (hr : BuddyRep lo ramPages m B L)
    (hr' : BuddyRep lo ramPages m' B' L') {addr : ℕ} {b : Block}
    (hb : b ∈ liveBlocks m B) (haddr : frameOf addr = some b.base)
    (hd : Released lo m m' B B' b) :
    PageSpec lo (pageAllocatorOf m) (.free addr) none (pageAllocatorOf m') := by
  rw [hr.view_eq, hr'.view_eq]
  refine .release hb haddr hd.live ?_
  show pagesOf (freeBlocks m' B') = pagesOf (freeBlocks m B) ∪ _
  rw [hr'.pool_eq, hr.pool_eq, hd.live]
  ext q
  have hrange := hr.tiles.mem_range (mem_liveBlocks.mp hb).1 (q := q)
  have hapart := fun c hc => hr.live_apart c hc b hb q
  simp only [Finset.mem_sdiff, Finset.mem_union, mem_pagesOf,
    Finset.mem_erase, Finset.mem_Ico]
  grind

end BuddyRep

/-! ## §4  Simulation -/

/-- A refused request and the release of anything but a live block leave the
machine exactly as it was. -/
def NoEffect (m : Buddy) (op : BuddyOp) (w : Option ℕ) (m' : Buddy) : Prop :=
  match op with
  | .alloc _ => w = some 0 → m' = m
  | .free addr => (∀ b ∈ (pageAllocatorOf m).live,
      frameOf addr ≠ some b.base) → m' = m

theorem buddyStep_spec {lo : ℕ} (hlo : 2048 ≤ lo) (m : Buddy) (op : BuddyOp)
    (hm : BuddyOk lo m) (hop : op.Ok) :
    ∃ w m', buddyStep m op = some (w, m') ∧ BuddyOk lo m' ∧
      PageSpec lo (pageAllocatorOf m) op w (pageAllocatorOf m') ∧
      NoEffect m op w m' := by
  obtain ⟨L, hr⟩ := hm
  cases op with
  | alloc bytes =>
      obtain ⟨k, hk, hleast, hout⟩ := buddyAlloc_spec hr hop
      rw [buddyStep]
      generalize buddyAlloc bytes m = r at hout
      cases hout with
      | refused hempty =>
          refine ⟨some 0, m, rfl, ⟨L, hr⟩, .refuse hleast ?_, fun _ => rfl⟩
          rintro ⟨p, j⟩ hf
          obtain ⟨hB, hs⟩ := mem_freeBlocks.mp hf
          have hj : j < maxOrder := hr.order_lt hlo hB
          have hmem := hr.mem_list hlo hB hs
          by_contra hge
          rw [hempty j (Nat.le_of_not_lt hge) hj.le] at hmem
          exact absurd hmem List.not_mem_nil
      | granted n p ps m' hkn hempty hL hr' hg =>
          have hmem : p ∈ L (k + n) := by simp [hL]
          refine ⟨some (pageAddr p), m', rfl, hr'.ok,
            hr.grant_spec hr' hleast (Nat.le_add_right k n) hkn hmem hg, ?_⟩
          intro hnull
          have hp := (hr'.tiles.base_lt hg.mem).2
          exact absurd (Option.some.inj hnull) (pageAddr_ne_zero hp)
  | free addr =>
      have hok : ∃ pa < 2 ^ 30, addr = paToVa pa := hop
      obtain ⟨pa, hpa, haddr⟩ := hok
      have hframe := frameOf_paToVa hpa
      rw [← haddr] at hframe
      have hout := buddyFree_spec hr hlo hframe
      rw [buddyStep]
      generalize buddyFree addr m = r at hout
      cases hout with
      | ignored hnone =>
          refine ⟨none, m, rfl, ⟨L, hr⟩, .ignore ?_, fun _ => rfl⟩
          intro b hb he
          rw [hframe, Option.some.injEq] at he
          exact hnone b hb he.symm
      | released b m' B' L' hb hbase hr' hd _ =>
          have hb' : frameOf addr = some b.base := by rw [hframe, hbase]
          refine ⟨none, m', rfl, hr'.ok, hr.release_spec hr' hb hb' hd, ?_⟩
          intro hnone
          exact absurd hb' (hnone b hb)

theorem buddyStep_simulates {lo : ℕ} (hlo : 2048 ≤ lo) :
    Simulates buddyStep (BuddyOk lo) BuddyOp.Ok (PageSpec lo)
      pageAllocatorOf := by
  refine ⟨?_⟩
  intro m op hm hop
  obtain ⟨w, m', hstep, hm', hspec, -⟩ := buddyStep_spec hlo m op hm hop
  exact ⟨w, m', hstep, hm', hspec⟩

theorem initializePageFrameArray_ok {mem : ℕ}
    (hlo : 2048 ≤ reservedPages mem) (hhi : reservedPages mem ≤ ramPages)
    (m : Buddy) : BuddyOk (reservedPages mem) (initializePageFrameArray mem m) :=
  (initializePageFrameArray_rep m (by omega) hhi).ok

/-! ## §5  The contract -/

/-- The representation invariant, over the records and the lists alone. -/
structure WellFormed (lo : ℕ) (m : Buddy) (B : Finset Block) : Prop where
  tiled : Tiles lo ramPages B
  orders : ∀ b ∈ B, b.order ≤ 17
  heads : ∀ b ∈ B, (m.frameMetadata b.base).flags &&& pageBuddyHead ≠ 0 ∧
    (m.frameMetadata b.base).order = b.order
  only_heads : ∀ p < ramPages,
    (m.frameMetadata p).flags &&& pageBuddyHead ≠ 0 → ∃ b ∈ B, b.base = p
  interior : ∀ b ∈ B, ∀ q ∈ b.pages, q ≠ b.base →
    (m.frameMetadata q).order = b.base
  tails : ∀ b ∈ B, (m.frameMetadata b.base).state ≠ pageFree →
    ∀ q ∈ b.pages, q ≠ b.base → (m.frameMetadata q).flags = pageBuddyTail
  lists : ∀ k ≤ maxOrder, ∃ ps : List ℕ,
    IsRing m.links (.head k) (ps.map .frame) ∧
      ∀ p, p ∈ ps ↔
        (⟨p, k⟩ : Block) ∈ B ∧ (m.frameMetadata p).state = pageFree

theorem BuddyOk.wellFormed {lo : ℕ} (hlo : 2048 ≤ lo) {m : Buddy}
    (hm : BuddyOk lo m) : WellFormed lo m (blocksOf m) := by
  obtain ⟨L, hr⟩ := hm
  refine ⟨hr.tiles, ?_, ?_, ?_, ?_, ?_, ?_⟩
  · intro b hb
    exact Nat.le_of_lt_succ (hr.order_lt hlo hb)
  · intro b hb
    exact ⟨(hr.head_flag_iff (hr.tiles.base_lt hb).2).mpr ⟨b, hb, rfl⟩,
      (hr.described b hb).order⟩
  · intro p hp
    exact (hr.head_flag_iff hp).mp
  · intro b hb
    exact (hr.described b hb).tail_order
  · intro b hb hs q hq hne
    rcases (hr.described b hb).tail_flags q hq hne with hf | ⟨-, hfree⟩
    · exact hf
    · exact absurd hfree hs
  · intro k hk
    exact ⟨L k, hr.ring hk, hr.free k hk⟩

/-- Every run of requests and releases from the initial state returns, and
leaves the managed pages tiled by blocks whose records and lists are right. -/
theorem representation_invariant {mem : ℕ} (hlo : 2048 ≤ reservedPages mem)
    (hhi : reservedPages mem < ramPages) (m : Buddy) (ops : List BuddyOp)
    (hops : ∀ op ∈ ops, op.Ok) :
    ∃ outs m', exec buddyStep (initializePageFrameArray mem m) ops =
        some (outs, m') ∧
      WellFormed (reservedPages mem) m' (blocksOf m') := by
  obtain ⟨outs, m', hrun, hm', -⟩ := (buddyStep_simulates hlo).exec ops _
    (initializePageFrameArray_ok hlo hhi.le m) hops
  exact ⟨outs, m', hrun, hm'.wellFormed hlo⟩

/-- A memory before the kernel has touched it. -/
def blankBuddy : Buddy where
  frameMetadata _ := ⟨0, 0, 0, 0⟩
  links := ⟨id, id⟩

theorem representation_invariant_example :
    ∃ outs m', exec buddyStep (initializePageFrameArray (2048 * 4096) blankBuddy)
        [.alloc 5000, .free (paToVa (2050 * 4096)), .alloc (2 ^ 30)] =
        some (outs, m') ∧
      WellFormed (reservedPages (2048 * 4096)) m' (blocksOf m') := by
  refine representation_invariant (by decide) (by decide) blankBuddy _ ?_
  simp only [List.mem_cons, List.not_mem_nil, or_false, forall_eq_or_imp,
    forall_eq, BuddyOp.Ok]
  exact ⟨by decide, ⟨2050 * 4096, by decide, rfl⟩, by decide⟩

/-- Every run returns and is a run of the page allocator; after it the free
and the live pages add up to the managed ones, and whatever call comes next
is one of the page allocator's, with no effect where the page allocator has
none. -/
theorem refines_pageAllocator {mem : ℕ} (hlo : 2048 ≤ reservedPages mem)
    (hhi : reservedPages mem < ramPages) (m : Buddy) (ops : List BuddyOp)
    (hops : ∀ op ∈ ops, op.Ok) :
    let R := reservedPages mem
    ∃ outs m', exec buddyStep (initializePageFrameArray mem m) ops =
        some (outs, m') ∧
      SpecRun (PageSpec R) (pageAllocatorOf (initializePageFrameArray mem m))
        ops outs (pageAllocatorOf m') ∧
      (pageAllocatorOf m').pool.card +
        ∑ b ∈ (pageAllocatorOf m').live, 2 ^ b.order = 2 ^ 18 - R ∧
      ∀ op : BuddyOp, op.Ok → ∃ w m'', buddyStep m' op = some (w, m'') ∧
        PageSpec R (pageAllocatorOf m') op w (pageAllocatorOf m'') ∧
        NoEffect m' op w m'' := by
  intro R
  obtain ⟨outs, m', hrun, hm', hspec⟩ := (buddyStep_simulates hlo).exec ops _
    (initializePageFrameArray_ok hlo hhi.le m) hops
  refine ⟨outs, m', hrun, hspec, ?_, ?_⟩
  · obtain ⟨L, hr⟩ := hm'
    exact hr.conserved
  · intro op hop
    obtain ⟨w, m'', hstep, -, hspec', hno⟩ := buddyStep_spec hlo m' op hm' hop
    exact ⟨w, m'', hstep, hspec', hno⟩

theorem refines_pageAllocator_example :
    let R := reservedPages (3000 * 4096)
    ∃ outs m', exec buddyStep
        (initializePageFrameArray (3000 * 4096) blankBuddy)
        [.alloc 1, .free (paToVa 0)] = some (outs, m') ∧
      SpecRun (PageSpec R)
        (pageAllocatorOf (initializePageFrameArray (3000 * 4096) blankBuddy))
        [.alloc 1, .free (paToVa 0)] outs (pageAllocatorOf m') ∧
      (pageAllocatorOf m').pool.card +
        ∑ b ∈ (pageAllocatorOf m').live, 2 ^ b.order = 2 ^ 18 - R ∧
      ∀ op : BuddyOp, op.Ok → ∃ w m'', buddyStep m' op = some (w, m'') ∧
        PageSpec R (pageAllocatorOf m') op w (pageAllocatorOf m'') ∧
        NoEffect m' op w m'' := by
  refine refines_pageAllocator (by decide) (by decide) blankBuddy _ ?_
  simp only [List.mem_cons, List.not_mem_nil, or_false, forall_eq_or_imp,
    forall_eq, BuddyOp.Ok]
  exact ⟨by decide, 0, by decide, rfl⟩

end Rpos
