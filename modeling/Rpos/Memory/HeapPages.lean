import Rpos.Memory.Kfree

/-!
# The pages of the kernel's heap

The blocks that the heap has of the buddy allocator: who owns them, and what `map` stores
to when it maps one. The kernel's tables are static pages, so the walks of `map` do not
depend on what the heap writes.
-/

namespace Rpos

open Base

/-! ## §1  Blocks and their owners -/

/-- The blocks granted by the buddy allocator that belong to slabs. -/
def slabBlocks (b : Buddy) : Finset Block :=
  (pageAllocatorOf b).live.filter fun c => (b.frameMetadata c.base).state = pageSlab

/-- The buddy allocator has granted `c`; the other blocks and their owners are as before. -/
structure BlockGranted (R : ℕ) (b b' : Buddy) (c : Block) : Prop where
  ok : BuddyOk R b'
  fresh : c ∉ (pageAllocatorOf b).live
  live : (pageAllocatorOf b').live = insert c (pageAllocatorOf b).live
  state : ∀ d ∈ (pageAllocatorOf b).live,
    (b'.frameMetadata d.base).state = (b.frameMetadata d.base).state

structure BlockReleased (R : ℕ) (b b' : Buddy) (c : Block) : Prop where
  ok : BuddyOk R b'
  live : (pageAllocatorOf b').live = (pageAllocatorOf b).live.erase c
  state : ∀ d ∈ (pageAllocatorOf b).live, d ≠ c →
    (b'.frameMetadata d.base).state = (b.frameMetadata d.base).state
  owner : ∀ x ∈ c.pages, getPageOwner (pageAddr x) b' = some pageFree

section Blocks

variable {R k x : ℕ} {b b' : Buddy} {c d : Block}

theorem mem_slabBlocks : c ∈ slabBlocks b ↔
    c ∈ (pageAllocatorOf b).live ∧ (b.frameMetadata c.base).state = pageSlab :=
  Finset.mem_filter

theorem BuddyOk.range (hb : BuddyOk R b) (hc : c ∈ (pageAllocatorOf b).live) :
    R ≤ c.base ∧ c.base + 2 ^ c.order ≤ ramPages := by
  obtain ⟨L, hr⟩ := hb
  exact hr.tiles.within c (mem_liveBlocks.mp hc).1

theorem BuddyOk.apart (hb : BuddyOk R b) (hc : c ∈ (pageAllocatorOf b).live)
    (hd : d ∈ (pageAllocatorOf b).live) (hx : x ∈ c.pages) (hx' : x ∈ d.pages) : c = d := by
  obtain ⟨L, hr⟩ := hb
  exact hr.tiles.apart c (mem_liveBlocks.mp hc).1 d (mem_liveBlocks.mp hd).1 x hx hx'

theorem BuddyOk.eq_of_base (hb : BuddyOk R b) (hc : c ∈ (pageAllocatorOf b).live)
    (hd : d ∈ (pageAllocatorOf b).live) (h : c.base = d.base) : c = d :=
  hb.apart hc hd c.base_mem (h ▸ d.base_mem)

theorem BuddyOk.ordered (hb : BuddyOk R b) (hc : c ∈ (pageAllocatorOf b).live)
    (hd : d ∈ (pageAllocatorOf b).live) (hne : c ≠ d) :
    c.base + 2 ^ c.order ≤ d.base ∨ d.base + 2 ^ d.order ≤ c.base := by
  by_contra hcon
  rw [not_or, not_le, not_le] at hcon
  have hmax : max c.base d.base ∈ c.pages ∧ max c.base d.base ∈ d.pages := by
    have hc' := Nat.two_pow_pos c.order
    have hd' := Nat.two_pow_pos d.order
    rw [Block.mem_pages, Block.mem_pages]
    omega
  exact hne (hb.apart hc hd hmax.1 hmax.2)

theorem BuddyOk.granted (hb : BuddyOk R b) {bytes w : ℕ}
    (horder : requestedOrder (pagesFor bytes) 256 0 = some k) (hk : k ≤ maxOrder)
    (hrun : buddyAlloc bytes b = some (w, b')) (hw : w ≠ 0) :
    ∃ p, w = pageAddr p ∧ BlockGranted R b b' ⟨p, k⟩ ∧
      (b'.frameMetadata p).state = pageBuddy := by
  obtain ⟨L, hr⟩ := hb
  have hout := buddyAlloc_outcome hr horder hk
  generalize buddyAlloc bytes b = r at hout hrun
  cases hout with
  | refused hempty =>
      rw [Option.some.injEq, Prod.mk.injEq] at hrun
      exact absurd hrun.1.symm hw
  | granted n p ps b'' hkn hbelow hL hr' hg =>
      rw [Option.some.injEq, Prod.mk.injEq] at hrun
      obtain ⟨hpw, hbb⟩ := hrun
      subst hbb
      refine ⟨p, hpw.symm, ⟨hr'.ok, hg.fresh, ?_, fun d hd => ?_⟩, hg.state⟩
      · rw [hr'.view_eq]
        exact hg.live
      · rw [hg.records d hd _ d.base_mem]

theorem BuddyOk.setOwner (hb : BuddyOk R b) (hc : c ∈ (pageAllocatorOf b).live)
    {s : BitVec 3} (hs : s ≠ pageFree) :
    ∃ b', setPageOwner (pageAddr c.base) s b = some b' ∧ BuddyOk R b' ∧
      (pageAllocatorOf b').live = (pageAllocatorOf b).live ∧
      (b'.frameMetadata c.base).state = s ∧
      ∀ d ∈ (pageAllocatorOf b).live, d ≠ c →
        (b'.frameMetadata d.base).state = (b.frameMetadata d.base).state := by
  have hok := hb
  obtain ⟨L, hr⟩ := hb
  obtain ⟨hr', hlive⟩ := hr.setOwner hc hs
  refine ⟨_, hr.setPageOwner_eq hc c.base_mem s, hr'.ok, ?_, ?_, fun d hd hne => ?_⟩
  · rw [hr'.view_eq]
    exact hlive
  · rw [Buddy.modifyFrame_apply, if_pos rfl]
  · rw [Buddy.modifyFrame_apply, if_neg]
    intro heq
    exact hne (hok.eq_of_base hd hc heq)

theorem BuddyOk.owner (hb : BuddyOk R b) (hc : c ∈ (pageAllocatorOf b).live)
    (hx : x ∈ c.pages) :
    getPageOwner (pageAddr x) b = some (b.frameMetadata c.base).state ∧
      headFromPage (pageAddr x) b = some (pageAddr c.base) := by
  obtain ⟨L, hr⟩ := hb
  have hflag := hr.live_flagged hc hx
  have hcB := (mem_liveBlocks.mp hc).1
  exact ⟨hr.getPageOwner_eq hcB hx hflag, hr.headFromPage_eq hcB hx hflag⟩

theorem BuddyOk.free (hb : BuddyOk R b) (hR : 2048 ≤ R) (hc : c ∈ (pageAllocatorOf b).live) :
    ∃ b', buddyFree (pageAddr c.base) b = some b' ∧ BlockReleased R b b' c := by
  have hok := hb
  obtain ⟨L, hr⟩ := hb
  have hcB := (mem_liveBlocks.mp hc).1
  have hout := buddyFree_spec hr hR (frameOf_pageAddr (hr.tiles.base_lt hcB).2)
  generalize hrun : buddyFree (pageAddr c.base) b = r at hout
  cases hout with
  | ignored hnone => exact absurd rfl (hnone c hc)
  | released d b' B' L' hd hbase hr' hrel _ =>
      obtain rfl : d = c := hok.eq_of_base hd hc hbase
      refine ⟨b', rfl, hr'.ok, ?_, fun e he hne => ?_, fun x hx => ?_⟩
      · rw [hr'.view_eq]
        exact hrel.live
      · rw [hrel.records e he hne _ e.base_mem]
      · -- the page keeps its flag, and lies in a free block now
        have hxr := hr.tiles.mem_range hcB hx
        obtain ⟨e, he, hxe⟩ := hr'.tiles.cover x hxr.1 hxr.2
        have hflag := (buddyFree_flagged hr hR hrun x).mpr (hr.live_flagged hd hx)
        rw [hr'.getPageOwner_eq he hxe hflag]
        by_contra hlive
        have hmem : e ∈ liveBlocks b' B' :=
          mem_liveBlocks.mpr ⟨he, fun hfree => hlive (congrArg some hfree)⟩
        rw [hrel.live, Finset.mem_erase] at hmem
        exact hmem.1 (hr.tiles.apart e (mem_liveBlocks.mp hmem.2).1 _ hcB x hxe hx)

theorem BlockGranted.setOwner (hg : BlockGranted R b b' c) :
    ∃ b'', setPageOwner (pageAddr c.base) pageSlab b' = some b'' ∧ BlockGranted R b b'' c ∧
      (b''.frameMetadata c.base).state = pageSlab := by
  have hc : c ∈ (pageAllocatorOf b').live := hg.live ▸ Finset.mem_insert_self _ _
  obtain ⟨b'', hrun, hok, hlive, hstate, hothers⟩ := hg.ok.setOwner hc
    (show pageSlab ≠ pageFree by decide)
  refine ⟨b'', hrun, ⟨hok, hg.fresh, hlive.trans hg.live, fun d hd => ?_⟩, hstate⟩
  have hd' : d ∈ (pageAllocatorOf b').live := hg.live ▸ Finset.mem_insert_of_mem hd
  rw [hothers d hd' fun heq => hg.fresh (heq ▸ hd), hg.state d hd]

theorem BlockGranted.mem_slabBlocks (hg : BlockGranted R b b' c) :
    d ∈ slabBlocks b' ↔
      d ∈ slabBlocks b ∨ d = c ∧ (b'.frameMetadata c.base).state = pageSlab := by
  rw [Rpos.mem_slabBlocks, Rpos.mem_slabBlocks, hg.live, Finset.mem_insert]
  constructor
  · rintro ⟨rfl | hd, hs⟩
    · exact Or.inr ⟨rfl, hs⟩
    · exact Or.inl ⟨hd, hg.state d hd ▸ hs⟩
  · rintro (⟨hd, hs⟩ | ⟨rfl, hs⟩)
    · exact ⟨Or.inr hd, (hg.state d hd).trans hs⟩
    · exact ⟨Or.inl rfl, hs⟩

theorem BlockReleased.mem_slabBlocks (hr : BlockReleased R b b' c) :
    d ∈ slabBlocks b' ↔ d ∈ slabBlocks b ∧ d ≠ c := by
  rw [Rpos.mem_slabBlocks, Rpos.mem_slabBlocks, hr.live, Finset.mem_erase]
  constructor
  · rintro ⟨⟨hne, hd⟩, hs⟩
    exact ⟨⟨hd, hr.state d hd hne ▸ hs⟩, hne⟩
  · rintro ⟨⟨hd, hs⟩, hne⟩
    exact ⟨⟨hne, hd⟩, (hr.state d hd hne).trans hs⟩

end Blocks

/-! ## §2  Mapping a block -/

/-- The walks of the kernel for managed pages, with tables between the pages `S` and `R`. -/
abbrev HeapWalks (S R : ℕ) (ram : ℕ → ℕ → Word) (root : ℕ) : Prop :=
  LinearWalks R (fun p => S ≤ p ∧ p < R) ram root

/-- The words that `map` stores to when it maps `2 ^ order` pages from page `q` on: word
`k` of page `p`. -/
def StrayWord (ram : ℕ → ℕ → Word) (root q order p k : ℕ) : Prop :=
  ¬ (9 ≤ order ∧ q % 512 = 0) ∧ ∃ x, q ≤ x ∧ x < q + 2 ^ order ∧
    ¬ FindsPage ram root (pageAddr x) ∧ p = blockBase x ∧ k = x % 512

section Map

variable {S R root q order p k : ℕ} {m : Machine}

theorem HeapWalks.stray_managed {ram : ℕ → ℕ → Word} (ht : HeapWalks S R ram root)
    (hq : R ≤ q) (hram : q + 2 ^ order ≤ ramPages)
    (h : StrayWord ram root q order p k) : R ≤ p := by
  obtain ⟨-, x, hl, hh, hx, rfl, -⟩ := h
  exact ht.blockBase_of_not_finds (by omega) (by omega) hx

/-- `map` on a block of managed pages returns and changes no other words. -/
theorem HeapWalks.map_spec (ht : HeapWalks S R m.ram root) (hR : R ≤ ramPages)
    (hq : R ≤ q) (hram : q + 2 ^ order ≤ ramPages) (pa flags : ℕ) :
    ∃ m', kernelMap root (pageAddr q) pa order flags root m = some m' ∧
      m'.buddy = m.buddy ∧
      ∀ p k, ¬ StrayWord m.ram root q order p k → m'.ram p k = m.ram p k := by
  have hpos := Nat.two_pow_pos order
  obtain ⟨-, -, -, h3⟩ := indices_pageAddr (q := q) (by omega)
  by_cases hblocks : 9 ≤ order ∧ q % 512 = 0
  · have hpages : 512 * 2 ^ (order - 9) = 2 ^ order := by
      have h9 : (512 : ℕ) = 2 ^ 9 := rfl
      rw [h9, ← Nat.pow_add, Nat.add_sub_cancel' hblocks.1]
    have hrun := LinearWalks.mapBlocks_spec (buddyAllocPt root) flags ht hR
      (2 ^ (order - 9)) q pa hq (by omega)
    refine ⟨m, ?_, rfl, fun _ _ _ => rfl⟩
    simp only [kernelMap, map, h3]
    rw [if_pos hblocks, hrun]
  · obtain ⟨m', hrun, hstrays⟩ := LinearWalks.mapPages_spec (buddyAllocPt root) flags
      (2 ^ order) q pa m ht hR hq hram
    refine ⟨m', ?_, hstrays.buddy, fun p k hno => ?_⟩
    · simp only [kernelMap, map, h3]
      rw [if_neg hblocks, hrun]
    · apply LinearWalks.mapPages_words (buddyAllocPt root) flags (2 ^ order) q pa m m' ht hR hq
        hram hrun
      intro x hl hh hx hp hk
      exact hno ⟨hblocks, x, hl, hh, hx, hp, hk⟩

/-- Where the walk for the first page meets a clear word, `map` stores the descriptor of the
page there. -/
theorem HeapWalks.map_first {m' : Machine} {pa flags : ℕ} (ht : HeapWalks S R m.ram root)
    (hR : R ≤ ramPages) (hq : R ≤ q) (hram : q + 2 ^ order ≤ ramPages)
    (hpages : ¬ (9 ≤ order ∧ q % 512 = 0)) (hnot : ¬ FindsPage m.ram root (pageAddr q))
    (hrun : kernelMap root (pageAddr q) pa order flags root m = some m') :
    m'.ram (blockBase q) (q % 512) = pageDescriptor flags pa := by
  obtain ⟨n, hn⟩ := Nat.exists_eq_succ_of_ne_zero (Nat.two_pow_pos order).ne'
  have hlt : q < ramPages := by omega
  obtain ⟨-, -, -, h3⟩ := indices_pageAddr hlt
  have hbase := ht.blockBase_of_not_finds hq hlt hnot
  simp only [kernelMap, map, h3] at hrun
  rw [if_neg hpages, hn, mapPages, ht.mapPage_eq _ hR hq hlt, if_neg hnot, Option.bind_eq_bind,
    Option.bind_some, pageAddr_succ] at hrun
  have hkept := LinearWalks.mapPages_words (buddyAllocPt root) flags n (q + 1) _ _ m'
    (ht.write hbase _ _) hR (by omega) (by omega) hrun (blockBase q) (q % 512)
  rw [hkept, Machine.write_ram, if_pos ⟨rfl, rfl⟩]
  intro x hl hh _ hx hk
  simp only [blockBase] at hx
  omega

end Map

end Rpos
