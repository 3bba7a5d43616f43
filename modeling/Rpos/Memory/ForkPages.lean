import Mathlib.Algebra.BigOperators.Group.Finset.Piecewise
import Rpos.Memory.ClonePages
import Rpos.Memory.MapRequests
import Rpos.Memory.PageRefs

/-!
# The pages of a fork

What `clone_virtual_memory` does to an address space. The table pages come from
`buddy_alloc_pt`, which maps a page on the kernel's tables before it hands it out and may
store to a table of the parent there. A fork copies the address space if no request does so;
if each takes one page only, the live blocks after the fork are those before it and one for
each table of the child.
-/

namespace Rpos

open Base

/-! ## §1  Counts and grants -/

section Grants

variable {lo a : ℕ} {b b' : Buddy}

theorem addRefs_fields (k : ℕ) (f : PageFrame) : (f.addRefs k).order = f.order ∧
    (f.addRefs k).flags = f.flags ∧ (f.addRefs k).state = f.state := by
  unfold PageFrame.addRefs
  split_ifs <;> exact ⟨rfl, rfl, rfl⟩

theorem countRef_onlyCounts {f : ℕ} {m m' : Machine} (hrun : countRef f m = some m') :
    OnlyCounts m.buddy m'.buddy ∧ m'.ram = m.ram := by
  unfold countRef at hrun
  rw [Option.ite_none_right_eq_some, Option.some.injEq] at hrun
  obtain ⟨-, rfl⟩ := hrun
  have hfields : ∀ q, (m.buddy.modifyFrame f (PageFrame.addRefs 1)).frameMetadata q =
      (m.buddy.frameMetadata q).addRefs (if q = f then 1 else 0) := by
    intro q
    rw [Buddy.modifyFrame_apply]
    by_cases hq : q = f
    · rw [if_pos hq, if_pos hq, hq]
    · rw [if_neg hq, if_neg hq, addRefs_zero]
  refine ⟨⟨rfl, fun q => ?_, fun q => ?_, fun q => ?_⟩, rfl⟩
  · rw [hfields q, (addRefs_fields _ _).1]
  · rw [hfields q, (addRefs_fields _ _).2.1]
  · rw [hfields q, (addRefs_fields _ _).2.2]

/-- A granted page is a live block of its own with one reference; the records of the pages
held stay. -/
theorem BuddyOk.alloc_held (hb : BuddyOk lo b) (hlo : 2048 ≤ lo) (ha : a < ramPages)
    (hrun : buddyAlloc pageSize b = some (pageAddr a, b')) :
    BuddyOk lo b' ∧ a ∈ freePages b ∧ freePages b' = (freePages b).erase a ∧
      (pageAllocatorOf b').live = insert ⟨a, 0⟩ (pageAllocatorOf b).live ∧
      (b'.frameMetadata a).refcount = 1 ∧ (b'.frameMetadata a).state = pageBuddy ∧
      ∀ q ∈ heldPages b, b'.frameMetadata q = b.frameMetadata q := by
  obtain ⟨page, b₁, hrun₁, hb₁, hcases⟩ := hb.alloc_page hlo
  rw [hrun, Option.some.injEq, Prod.mk.injEq] at hrun₁
  obtain ⟨rfl, rfl⟩ := hrun₁
  rcases hcases with ⟨hnull, -⟩ | ⟨p, hp, hpage, -, hplt, hfree⟩
  · exact absurd hnull (pageAddr_ne_zero ha)
  obtain rfl := pageAddr_inj ha hplt hpage
  have hheld := fun q => hb.held_iff (q := q)
  obtain ⟨L, hr⟩ := hb
  obtain ⟨k, -, hleast, hout⟩ := buddyAlloc_spec hr (by decide : pageSize ≤ 2 ^ 30)
  obtain rfl := hleast.unique isLeastOrder_page
  rw [hrun] at hout
  generalize hr' : some (pageAddr a, b') = r at hout
  cases hout with
  | refused _ =>
      rw [Option.some.injEq, Prod.mk.injEq] at hr'
      exact absurd hr'.1 (pageAddr_ne_zero ha)
  | granted n p ps m' _ _ _ hrep hg =>
      rw [Option.some.injEq, Prod.mk.injEq] at hr'
      obtain ⟨hpage', rfl⟩ := hr'
      obtain rfl := pageAddr_inj ha (hrep.tiles.base_lt hg.mem).2 hpage'
      refine ⟨hb₁, hp, hfree, ?_, hg.refcount, hg.state, fun q hq => ?_⟩
      · show liveBlocks b' (blocksOf b') = _
        rw [hrep.blocks_eq]
        exact hg.live
      · rcases (hheld q hq.1).mp hq with hlow | ⟨c, hc, hqc⟩
        · exact hg.reserved q hlow
        · exact hg.records c hc q hqc

/-- Granted or refused, a request for a page keeps the records of the pages held. -/
theorem BuddyOk.alloc_records {page : ℕ} (hb : BuddyOk lo b) (hlo : 2048 ≤ lo)
    (hrun : buddyAlloc pageSize b = some (page, b')) :
    BuddyOk lo b' ∧ freePages b' ⊆ freePages b ∧
      ∀ q ∈ heldPages b, b'.frameMetadata q = b.frameMetadata q := by
  obtain ⟨page', b₁, hrun₁, hb₁, hcases⟩ := hb.alloc_page hlo
  rw [hrun, Option.some.injEq, Prod.mk.injEq] at hrun₁
  obtain ⟨rfl, rfl⟩ := hrun₁
  rcases hcases with ⟨-, rfl, -⟩ | ⟨p, -, hpage, -, hlt, hfree⟩
  · exact ⟨hb, Finset.Subset.refl _, fun _ _ => rfl⟩
  · rw [hpage] at hrun
    exact ⟨hb₁, hfree ▸ Finset.erase_subset _ _, (hb.alloc_held hlo hlt hrun).2.2.2.2.2.2⟩

theorem buddyAllocPt_blank {l0Table page : ℕ} {m m' : Machine}
    (hrun : buddyAllocPt l0Table m = some (page, m')) (hne : page ≠ 0) (i : ℕ) :
    m'.ram (vaToPa page / pageSize) i = 0 := by
  rw [buddyAllocPt, buddyAllocPtFuel_succ, Option.bind_eq_some_iff] at hrun
  obtain ⟨⟨page1, m1⟩, -, hrun⟩ := hrun
  dsimp only at hrun
  by_cases hzero : page1 = 0
  · rw [if_pos hzero, Option.some.injEq, Prod.mk.injEq] at hrun
    exact absurd hrun.1.symm hne
  rw [if_neg hzero, Option.bind_eq_some_iff] at hrun
  obtain ⟨m2, -, hrun⟩ := hrun
  rw [Option.some.injEq, Prod.mk.injEq] at hrun
  rw [← hrun.1, ← hrun.2, Machine.clearPage_ram, if_pos rfl]

theorem buddyAllocPt_records {l0Table page : ℕ} {m m' : Machine} (hb : BuddyOk lo m.buddy)
    (hlo : 2048 ≤ lo) (hrun : buddyAllocPt l0Table m = some (page, m')) :
    ∀ q ∈ heldPages m.buddy, m'.buddy.frameMetadata q = m.buddy.frameMetadata q := by
  have hkeeps : Keeps (buddyAllocPt l0Table) fun n =>
      BuddyOk lo n.buddy ∧ freePages n.buddy ⊆ freePages m.buddy ∧
        ∀ q ∈ heldPages m.buddy, n.buddy.frameMetadata q = m.buddy.frameMetadata q := by
    apply keeps_buddyAllocPt
    · rintro n page n' ⟨hn, hsub, hrecords⟩ halloc
      rw [Machine.buddyAlloc, Option.map_eq_some_iff] at halloc
      obtain ⟨⟨page', b⟩, halloc, heq⟩ := halloc
      rw [Prod.mk.injEq] at heq
      obtain ⟨-, rfl⟩ := heq
      obtain ⟨hn', hsub', hrecords'⟩ := hn.alloc_records hlo halloc
      refine ⟨hn', hsub'.trans hsub, fun q hq => ?_⟩
      rw [hrecords' q ⟨hq.1, fun h => hq.2 (hsub h)⟩, hrecords q hq]
    · exact fun _ _ _ _ hn => hn
    · exact fun _ _ hn => hn
  exact (hkeeps.alloc m page m' ⟨hb, Finset.Subset.refl _, fun _ _ => rfl⟩ hrun).2.2

end Grants

/-! ## §2  The requests -/

section Requests

variable (allocPt : Machine → Option (ℕ × Machine))

def PageGranted (n : Machine) : Prop := ∃ page n', allocPt n = some (page, n') ∧ page ≠ 0

/-- The request is granted, and takes no page but the one it hands out. -/
def TakesOne (n : Machine) : Prop :=
  ∃ page n', allocPt n = some (page, n') ∧ page ≠ 0 ∧
    buddyAlloc pageSize n.buddy = some (page, n'.buddy)

/-- The request stores to no page of `T`, nor to one that was free in `b` and has been taken
since. -/
def SparesPages (T : Set ℕ) (b : Buddy) (n : Machine) : Prop :=
  ∀ page n', allocPt n = some (page, n') →
    ∀ t, t ∈ T ∨ t ∈ freePages b ∧ t ∉ freePages n.buddy → n'.ram t = n.ram t

end Requests

/-- Within a fork that began with the allocator `b`: the pages of `S` are those of `T` and
pages taken since. -/
structure InFork (lo : ℕ) (T : Set ℕ) (b : Buddy) (S : Set ℕ) (n : Machine) : Prop where
  ok : BuddyOk lo n.buddy
  shrinks : ∀ q, q ∉ freePages b → q ∉ freePages n.buddy
  stored : ∀ t ∈ S, t ∈ T ∨ t ∈ freePages b ∧ t ∉ freePages n.buddy

section InFork

variable {lo l0Table : ℕ} {T S : Set ℕ} {b : Buddy} {n : Machine}

theorem InFork.start (hb : BuddyOk lo n.buddy) : InFork lo T n.buddy T n :=
  ⟨hb, fun _ hq => hq, fun _ ht => Or.inl ht⟩

theorem InFork.free (h : InFork lo T b S n) : freePages n.buddy ⊆ freePages b :=
  fun q => not_imp_not.mp (h.shrinks q)

/-- What `buddy_alloc_pt` grants is fresh, if the request spares the pages. -/
theorem InFork.grant (h : InFork lo T b S n) (hlo : 2048 ≤ lo) (hT : ∀ t ∈ T, t ∉ freePages b)
    (hgrant : PageGranted (buddyAllocPt l0Table) n)
    (hspare : SparesPages (buddyAllocPt l0Table) T b n) :
    ∃ a n', buddyAllocPt l0Table n = some (pageAddr a, n') ∧
      FreshPage (heldPages b) S a n n' ∧ InFork lo T b (insert a S) n' := by
  obtain ⟨page, n', hrun, hne⟩ := hgrant
  obtain ⟨hb', a, ha, hpage, hlt, hsub⟩ := buddyAllocPt_pool h.ok hlo hrun hne
  rw [hpage] at hrun hne
  have hshrink := hsub.trans (Finset.erase_subset _ _)
  have hblank := buddyAllocPt_blank hrun hne
  rw [vaToPa_pageAddr hlt] at hblank
  have hnew : a ∉ S := by
    intro hS
    rcases h.stored a hS with hold | htaken
    · exact hT a hold (h.free ha)
    · exact htaken.2 ha
  refine ⟨a, n', hrun, ⟨hlt, ⟨hnew, fun hheld => hheld.2 (h.free ha)⟩, hblank, fun q hq =>
    hspare _ n' hrun q (h.stored q hq), fun q hq => ?_⟩, hb',
    fun q hq hfree => h.shrinks q hq (hshrink hfree),
    fun t ht => ?_⟩
  · exact buddyAllocPt_records h.ok hlo hrun q ⟨hq.1, fun hfree => hq.2 (h.free hfree)⟩
  · rcases ht with rfl | ht
    · exact Or.inr ⟨h.free ha, fun hfree => Finset.notMem_erase t _ (hsub hfree)⟩
    · exact (h.stored t ht).imp_right fun h => ⟨h.1, fun hfree => h.2 (hshrink hfree)⟩

theorem InFork.count {f : ℕ} {n' : Machine} (h : InFork lo T b S n)
    (hrun : countRef f n = some n') : InFork lo T b S n' := by
  obtain ⟨honly, -⟩ := countRef_onlyCounts hrun
  have hfree := honly.freePages
  refine ⟨honly.ok h.ok, ?_, fun t ht => ?_⟩
  · rw [hfree]
    exact h.shrinks
  · rw [hfree]
    exact h.stored t ht

theorem fork_supply (hlo : 2048 ≤ lo) (hT : ∀ t ∈ T, t ∉ freePages b) :
    TableSupply (buddyAllocPt l0Table)
      (fun n => PageGranted (buddyAllocPt l0Table) n ∧ SparesPages (buddyAllocPt l0Table) T b n)
      (heldPages b) fun _ => InFork lo T b where
  grant _ _ _ hm hQ := hm.grant hlo hT hQ.1 hQ.2
  write _ _ _ _ _ _ hm _ _ := ⟨hm.ok, hm.shrinks, hm.stored⟩
  count _ _ _ _ _ hm _ hrun := hm.count hrun

end InFork

/-! ## §3  The ledger of a clone -/

/-- Table pages are granted by `buddy_alloc`, cleared, and nothing else is stored to: where
`I n S m` holds, this is so for `n` requests in a row, if they are made where `Q` holds,
whatever valid words are stored to the pages of `S` and to those granted, and however often
the frames of `F` are counted. -/
structure CleanSupply (allocPt : Machine → Option (ℕ × Machine)) (Q : Machine → Prop)
    (F : Set ℕ) (I : ℕ → Set ℕ → Machine → Prop) : Prop where
  grant : ∀ n S m, I (n + 1) S m → Q m →
    ∃ a m', allocPt m = some (pageAddr a, m') ∧ a < ramPages ∧
      buddyAlloc pageSize m.buddy = some (pageAddr a, m'.buddy) ∧ (∀ i, m'.ram a i = 0) ∧
      (∀ q ∈ S, m'.ram q = m.ram q) ∧ I n (insert a S) m'
  write : ∀ n S m t j w, I n S m → t ∈ S → Pte.valid.get w = 1 → I n S (m.write t j w)
  count : ∀ n S m m' f, I n S m → f ∈ F → countRef f m = some m' → I n S m'

/-- The live blocks are those of `b₀` and the pages that were added to `S₀`, which have one
reference each; the counts of the other pages that were free are as in `b₀`. No page of `S`
and no page held in `b₀` is free. -/
structure ForkLedger (lo : ℕ) (b₀ : Buddy) (S₀ S : Set ℕ) (b : Buddy) : Prop where
  ok : BuddyOk lo b
  grown : S₀ ⊆ S
  live : ∀ c, c ∈ (pageAllocatorOf b).live ↔
    c ∈ (pageAllocatorOf b₀).live ∨ c.order = 0 ∧ c.base ∈ newPages S₀ S
  counted : ∀ t ∈ newPages S₀ S,
    (b.frameMetadata t).refcount = 1 ∧ (b.frameMetadata t).state = pageBuddy
  uncounted : ∀ q < ramPages, q ∉ heldPages b₀ → q ∉ newPages S₀ S →
    (b.frameMetadata q).refcount = (b₀.frameMetadata q).refcount
  apart : ∀ q ∈ newPages S₀ S, q ∉ heldPages b₀
  stored : ∀ q ∈ S, q ∉ freePages b
  held : heldPages b₀ ⊆ heldPages b

section Ledger

variable {lo n : ℕ} {allocPt : Machine → Option (ℕ × Machine)} {Q : Machine → Prop}
  {b b₀ b' : Buddy} {S S₀ : Set ℕ} {I : ℕ → Set ℕ → Machine → Prop}

theorem ForkLedger.start (hb : BuddyOk lo b) (hS : ∀ q ∈ S, q ∉ freePages b) :
    ForkLedger lo b S S b := by
  have hnone : ∀ q, q ∉ newPages S S := fun q hq => hq.2.1 hq.1
  exact ⟨hb, subset_rfl, fun c => ⟨Or.inl, fun h => h.resolve_right fun h => hnone _ h.2⟩,
    fun t ht => absurd ht (hnone t), fun _ _ _ _ => rfl, fun t ht => absurd ht (hnone t), hS,
    subset_rfl⟩

theorem ForkLedger.grant {a : ℕ} (h : ForkLedger lo b₀ S₀ S b) (hlo : 2048 ≤ lo)
    (ha : a < ramPages) (hrun : buddyAlloc pageSize b = some (pageAddr a, b')) :
    a ∉ S ∧ a ∉ heldPages b₀ ∧ (∀ q ∈ heldPages b₀, b'.frameMetadata q = b.frameMetadata q) ∧
      ForkLedger lo b₀ S₀ (insert a S) b' := by
  obtain ⟨hb', hfree, herase, hlive, href, hstate, hrecords⟩ := h.ok.alloc_held hlo ha hrun
  have haS : a ∉ S := fun hmem => h.stored a hmem hfree
  have hheld : a ∉ heldPages b₀ := fun hmem => (h.held hmem).2 hfree
  have hnew : ∀ q, q ∈ newPages S₀ (insert a S) ↔ q = a ∨ q ∈ newPages S₀ S := by
    intro q
    constructor
    · rintro ⟨rfl | hq, hrest⟩
      · exact Or.inl rfl
      · exact Or.inr ⟨hq, hrest⟩
    · rintro (rfl | hq)
      · exact ⟨Set.mem_insert q S, fun hmem => haS (h.grown hmem), ha⟩
      · exact ⟨Set.mem_insert_of_mem a hq.1, hq.2⟩
  have hnotfree : ∀ q, q ∉ freePages b → q ∉ freePages b' := by
    intro q hq hmem
    rw [herase] at hmem
    exact hq (Finset.mem_of_mem_erase hmem)
  refine ⟨haS, hheld, fun q hq => hrecords q (h.held hq), hb',
    h.grown.trans (Set.subset_insert a S), fun c => ?_, fun t ht => ?_, fun q hlt hq hnot => ?_,
    fun t ht => ?_, fun q hq => ?_, fun q hq => ⟨hq.1, hnotfree q (h.held hq).2⟩⟩
  · rw [hlive, Finset.mem_insert, h.live c, hnew, or_left_comm, and_or_left]
    have hblock : c = ⟨a, 0⟩ ↔ c.order = 0 ∧ c.base = a := by
      constructor
      · rintro rfl
        exact ⟨rfl, rfl⟩
      · intro hc
        cases c
        simp only at hc
        rw [hc.1, hc.2]
    rw [hblock]
  · rcases (hnew t).mp ht with rfl | hold
    · exact ⟨href, hstate⟩
    · have hlive' : (⟨t, 0⟩ : Block) ∈ (pageAllocatorOf b).live :=
        (h.live _).mpr (Or.inr ⟨rfl, hold⟩)
      have ht' : t ∈ heldPages b :=
        (h.ok.held_iff hold.2.2).mpr (Or.inr ⟨_, hlive', Block.base_mem ⟨t, 0⟩⟩)
      rw [hrecords t ht']
      exact h.counted t hold
  · obtain ⟨hne, hold⟩ := not_or.mp fun hcases => hnot ((hnew q).mpr hcases)
    have haddr : pageAddr q ≠ pageAddr a := fun heq => hne (pageAddr_inj hlt ha heq)
    rw [buddyAlloc_refcount hrun haddr, h.uncounted q hlt hq hold]
  · rcases (hnew t).mp ht with rfl | hold
    · exact hheld
    · exact h.apart t hold
  · rcases hq with rfl | hq
    · rw [herase]
      exact Finset.notMem_erase q _
    · exact hnotfree q (h.stored q hq)

theorem ForkLedger.count {f : ℕ} {m m' : Machine} (h : ForkLedger lo b₀ S₀ S m.buddy)
    (hf : f ∈ heldPages b₀) (hrun : countRef f m = some m') :
    ForkLedger lo b₀ S₀ S m'.buddy := by
  obtain ⟨honly, -⟩ := countRef_onlyCounts hrun
  obtain ⟨m'', hrun', -, hframes⟩ := countRef_spec m hf.1
  rw [hrun, Option.some.injEq] at hrun'
  subst hrun'
  refine ⟨honly.ok h.ok, h.grown, fun c => ?_, fun t ht => ?_, fun q hlt hq hnot => ?_, h.apart,
    fun q hq => ?_, fun q hq => ?_⟩
  · rw [honly.allocator]
    exact h.live c
  · have hne : ¬ t = f := fun heq => h.apart t ht (heq ▸ hf)
    rw [hframes t, if_neg hne, addRefs_zero]
    exact h.counted t ht
  · have hne : ¬ q = f := fun heq => hq (heq ▸ hf)
    rw [hframes q, if_neg hne, addRefs_zero]
    exact h.uncounted q hlt hq hnot
  · rw [honly.freePages]
    exact h.stored q hq
  · refine ⟨hq.1, ?_⟩
    rw [honly.freePages]
    exact (h.held hq).2

/-- A clean supply grants fresh pages, and the ledger is kept. -/
theorem CleanSupply.supply (hs : CleanSupply allocPt Q (heldPages b₀) I) (hlo : 2048 ≤ lo) :
    TableSupply allocPt Q (heldPages b₀)
      fun n S m => I n S m ∧ ForkLedger lo b₀ S₀ S m.buddy where
  grant n S m := by
    rintro ⟨hm, hledger⟩ hQ
    obtain ⟨a, m', hrun, ha, halloc, hblank, hkeep, hm'⟩ := hs.grant n S m hm hQ
    obtain ⟨haS, hheld, hrecords, hledger'⟩ := hledger.grant hlo ha halloc
    exact ⟨a, m', hrun, ⟨ha, ⟨haS, hheld⟩, hblank, hkeep, hrecords⟩, hm', hledger'⟩
  write n S m t j w := by
    rintro ⟨hm, hledger⟩ ht hv
    exact ⟨hs.write n S m t j w hm ht hv, hledger⟩
  count n S m m' f := by
    rintro ⟨hm, hledger⟩ hf hrun
    exact ⟨hs.count n S m m' f hm hf hrun, hledger.count hf hrun⟩

/-- In a fork whose requests take one page each, `buddy_alloc_pt` is a clean supply. -/
theorem fork_cleanSupply {l0Table : ℕ} {T : Set ℕ} (hlo : 2048 ≤ lo)
    (hT : ∀ t ∈ T, t ∉ freePages b) :
    CleanSupply (buddyAllocPt l0Table)
      (fun n => TakesOne (buddyAllocPt l0Table) n ∧ SparesPages (buddyAllocPt l0Table) T b n)
      (heldPages b) fun _ => InFork lo T b where
  grant n S m := by
    rintro hm ⟨⟨page, m₁, hrun, hne, halloc⟩, hspare⟩
    obtain ⟨a, m', hrun', hfresh, hm'⟩ := hm.grant hlo hT ⟨page, m₁, hrun, hne⟩ hspare
    have heq := hrun.symm.trans hrun'
    rw [Option.some.injEq, Prod.mk.injEq] at heq
    rw [heq.1, heq.2] at halloc
    exact ⟨a, m', hrun', hfresh.lt, halloc, hfresh.blank, hfresh.keep, hm'⟩
  write _ _ _ _ _ _ hm _ _ := ⟨hm.ok, hm.shrinks, hm.stored⟩
  count _ _ _ _ _ hm _ hrun := hm.count hrun

end Ledger

/-! ## §4  A kernel tree that maps everything -/

/-- The kernel's table leads back to itself, and there are `n` free pages. -/
structure SelfMapped (lo l0Table n : ℕ) (S : Set ℕ) (m : Machine) : Prop where
  ok : BuddyOk lo m.buddy
  self : ∀ i, m.ram l0Table i = tableDescriptor l0Table
  kernel : l0Table < ramPages ∧ l0Table ∉ freePages m.buddy ∧ l0Table ∉ S
  stored : ∀ q ∈ S, q ∉ freePages m.buddy
  enough : n ≤ (freePages m.buddy).card

section SelfMapped

variable {lo l0Table n : ℕ} {F S T : Set ℕ} {b : Buddy} {m : Machine}

/-- There a request takes one page, and stores to no other. -/
theorem SelfMapped.grant (hm : SelfMapped lo l0Table (n + 1) S m) (hlo : 2048 ≤ lo) :
    ∃ p b, buddyAlloc pageSize m.buddy = some (pageAddr p, b) ∧
      buddyAllocPt l0Table m = some (pageAddr p, Machine.clearPage { m with buddy := b } p) ∧
      p ∈ freePages m.buddy ∧ p < ramPages ∧ freePages b = (freePages m.buddy).erase p ∧
      ∀ q, q ∉ freePages m.buddy →
        (Machine.clearPage { m with buddy := b } p).ram q = m.ram q := by
  have hpos := Finset.card_pos.mp (Nat.lt_of_lt_of_le (Nat.succ_pos n) hm.enough)
  obtain ⟨p, b, halloc, hrun, hp, hlt, herase⟩ :=
    buddyAllocPt_self hm.ok hlo hm.kernel.1 hm.self hpos
  refine ⟨p, b, halloc, hrun, hp, hlt, herase, fun q hq => ?_⟩
  rw [Machine.clearPage_ram, if_neg]
  rintro rfl
  exact hq hp

theorem selfMapped_supply (hlo : 2048 ≤ lo) (Q : Machine → Prop) (F : Set ℕ) :
    CleanSupply (buddyAllocPt l0Table) Q F (SelfMapped lo l0Table) where
  grant n S m hm _ := by
    obtain ⟨p, b, halloc, hrun, hp, hlt, herase, hkeep⟩ := hm.grant hlo
    have hnotfree : ∀ q, q ∉ freePages m.buddy → q ∉ freePages b := by
      intro q hq hmem
      rw [herase] at hmem
      exact hq (Finset.mem_of_mem_erase hmem)
    refine ⟨p, _, hrun, hlt, halloc, fun i => ?_, fun q hq => hkeep q (hm.stored q hq),
      hm.ok.alloc_any halloc, fun i => ?_, ⟨hm.kernel.1, hnotfree _ hm.kernel.2.1, ?_⟩,
      fun q hq => ?_, ?_⟩
    · rw [Machine.clearPage_ram, if_pos rfl]
    · rw [hkeep _ hm.kernel.2.1]
      exact hm.self i
    · rintro (heq | hmem)
      · exact hm.kernel.2.1 (heq ▸ hp)
      · exact hm.kernel.2.2 hmem
    · rcases hq with rfl | hq
      · rw [Machine.clearPage_buddy, herase]
        exact Finset.notMem_erase q _
      · exact hnotfree q (hm.stored q hq)
    · show n ≤ (freePages b).card
      rw [herase, Finset.card_erase_of_mem hp]
      exact Nat.le_sub_one_of_lt hm.enough
  write n S m t j w hm ht _ := by
    refine ⟨hm.ok, fun i => ?_, hm.kernel, hm.stored, hm.enough⟩
    have hne : l0Table ≠ t := fun heq => hm.kernel.2.2 (heq ▸ ht)
    rw [Machine.write_ram_ne _ w hne]
    exact hm.self i
  count n S m m' f hm _ hrun := by
    obtain ⟨honly, hram⟩ := countRef_onlyCounts hrun
    have hfree := honly.freePages
    refine ⟨honly.ok hm.ok, fun i => ?_, ?_, fun q hq => ?_, ?_⟩
    · rw [hram]
      exact hm.self i
    · rw [hfree]
      exact hm.kernel
    · rw [hfree]
      exact hm.stored q hq
    · rw [hfree]
      exact hm.enough

/-- There every request of a fork takes one page and spares the pages in use. -/
theorem selfMapped_assures (hlo : 2048 ≤ lo) :
    Assures (fun n S m => SelfMapped lo l0Table n S m ∧ ForkLedger lo b T S m.buddy) fun m =>
      TakesOne (buddyAllocPt l0Table) m ∧ SparesPages (buddyAllocPt l0Table) T b m := by
  rintro n S m ⟨hm, hledger⟩
  obtain ⟨p, b', halloc, hrun, -, hlt, -, hkeep⟩ := hm.grant hlo
  refine ⟨⟨_, _, hrun, pageAddr_ne_zero hlt, halloc⟩, fun page m' hrun' t ht => ?_⟩
  rw [hrun, Option.some.injEq, Prod.mk.injEq] at hrun'
  rw [← hrun'.2]
  refine hkeep t ?_
  rcases ht with hT | htaken
  · exact hm.stored t (hledger.grown hT)
  · exact htaken.2

end SelfMapped

/-! ## §5  A chain of tables -/

/-- The tables `t 0` to `t 3`: the first entry of each names the next, its other entries are
clear, and the last one has valid entries, which map pages of `F`. -/
structure TableChain (F : Set ℕ) (t : ℕ → ℕ) (ram : ℕ → ℕ → Word) : Prop where
  lt : ∀ j ≤ 3, t j < ramPages
  apart : ∀ j ≤ 3, ∀ k ≤ 3, t j = t k → j = k
  first : ∀ j < 3, ram (t j) 0 = tableDescriptor (t (j + 1))
  clear : ∀ j < 3, ∀ i, i ≠ 0 → ram (t j) i = 0
  last : ∀ i, TableOrFrame F 0 (ram (t 3) i)
  filled : ∃ i < tableSize, Pte.valid.get (ram (t 3) i) = 1

structure ChainTree (F : Set ℕ) (t : ℕ → ℕ) (ram : ℕ → ℕ → Word) (h : ℕ) : Prop where
  tables : ∀ q, pageRadix.tables ram h (t (3 - h)) q =
    ∑ j ∈ Finset.Ico (3 - h) 4, if q = t j then 1 else 0
  size : pageRadix.size ram h (t (3 - h)) = h + 1
  leaves : ∀ q, pageRadix.leaves ram h (t (3 - h)) q = pageRadix.leaves ram 0 (t 3) q
  lookup : ∀ x < tableSize, pageRadix.lookup ram h (t (3 - h)) x =
    pageRadix.lookup ram 0 (t 3) x
  every : pageRadix.Every (TableOrFrame F) ram h (t (3 - h))
  filled : pageRadix.Filled (fun w => Pte.valid.get w = 1) ram h (t (3 - h))

section Chain

variable {F : Set ℕ} {t : ℕ → ℕ} {ram : ℕ → ℕ → Word} {h : ℕ}

theorem tableOrFrame_zero (F : Set ℕ) (h : ℕ) : TableOrFrame F h 0 :=
  fun hv => absurd hv (by decide)

theorem void_zero : pageRadix.Void (0 : Word) := void_of_invalid (by decide)

theorem TableChain.start (hc : TableChain F t ram) : ChainTree F t ram 0 := by
  refine ⟨fun q => ?_, ?_, fun _ => rfl, fun _ _ => rfl, fun i _ => ⟨hc.last i, trivial⟩,
    hc.filled, fun _ _ => trivial⟩
  · rw [Nat.sub_zero, Nat.Ico_succ_singleton, Finset.sum_singleton, Radix.tables,
      Finset.sum_eq_zero fun i _ => Radix.tablesUnder_none (not_table_zero _), Nat.add_zero]
  · rw [Nat.sub_zero, Radix.size,
      Finset.sum_eq_zero fun i _ => Radix.sizeUnder_none (not_table_zero _), Nat.add_comm]

theorem ChainTree.step (ht : ChainTree F t ram h) (hc : TableChain F t ram) (hh : h < 3) :
    ChainTree F t ram (h + 1) := by
  have hp : 3 - (h + 1) < 3 := by omega
  have hnext : 3 - (h + 1) + 1 = 3 - h := by omega
  have hname := tableDescriptor_names (hc.lt (3 - h) (Nat.sub_le 3 h))
  have hword : ram (t (3 - (h + 1))) 0 = tableDescriptor (t (3 - h)) := by
    rw [hc.first _ hp, hnext]
  rw [← hword] at hname
  have hw := table_intro h hname.valid hname.type
  have htarget : pageRadix.target (ram (t (3 - (h + 1))) 0) = t (3 - h) := hname.address
  have hvoid : ∀ j < pageRadix.fan, j ≠ 0 → pageRadix.Void (ram (t (3 - (h + 1))) j) := by
    intro j _ hne
    rw [hc.clear _ hp j hne]
    exact void_zero
  have hfirst : 0 < pageRadix.fan := by decide
  refine ⟨fun q => ?_, ?_, fun q => ?_, fun x hx => ?_, ?_, ?_⟩
  · rw [Radix.tables_single hfirst hvoid, Radix.tablesUnder_table hw, htarget, ht.tables,
      Finset.sum_eq_sum_Ico_succ_bot (by omega : 3 - (h + 1) < 4), hnext]
  · rw [Radix.size_single hfirst hvoid, Radix.sizeUnder_table hw, htarget, ht.size]
    omega
  · rw [Radix.leaves_single hfirst hvoid, Radix.leavesUnder_table hw, htarget, ht.leaves]
  · have hdigit : pageRadix.digit (h + 1) x = 0 := by
      rw [Radix.digit, Nat.div_eq_of_lt (Nat.lt_of_lt_of_le hx ?_), Nat.zero_mod]
      exact Nat.le_self_pow (Nat.succ_ne_zero h) _
    rw [Radix.lookup, hdigit, Radix.follow_table hw, htarget, ht.lookup x hx]
  · refine Radix.every_single (i := 0) (fun j hj hne => ?_) ⟨fun _ => ⟨hname.type, ?_⟩, ?_⟩
    · rw [hc.clear _ hp j hne]
      exact ⟨void_zero, tableOrFrame_zero F _⟩
    · exact fun h => absurd h (Nat.succ_ne_zero _)
    · rw [Radix.everyUnder_table hw, htarget]
      exact ht.every
  · refine Radix.filled_single hfirst hvoid hname.valid fun _ => ?_
    rw [htarget]
    exact ht.filled

theorem TableChain.tree (hc : TableChain F t ram) : ChainTree F t ram 3 :=
  ((hc.start.step hc (by decide)).step hc (by decide)).step hc (by decide)

theorem TableChain.tables_pos (hc : TableChain F t ram) {q : ℕ}
    (hq : 0 < pageRadix.tables ram 3 (t 0) q) : ∃ j ≤ 3, q = t j := by
  rw [show pageRadix.tables ram 3 (t 0) q = _ from hc.tree.tables q,
    Finset.sum_pos_iff] at hq
  obtain ⟨j, hj, hpos⟩ := hq
  refine ⟨j, Nat.le_of_lt_succ (Finset.mem_Ico.mp hj).2, ?_⟩
  by_contra hne
  rw [if_neg hne] at hpos
  exact Nat.lt_irrefl 0 hpos

theorem TableChain.pageTree (hc : TableChain F t ram) :
    PageTree (TableOrFrame F) ram (t 0) := by
  refine ⟨fun q => ?_, hc.tree.every, fun q hq => ?_⟩
  · rw [show pageRadix.tables ram 3 (t 0) q = _ from hc.tree.tables q,
      ← Finset.card_filter, Finset.card_le_one]
    intro j hj k hk
    rw [Finset.mem_filter, Finset.mem_Ico] at hj hk
    exact hc.apart j (by omega) k (by omega) (hj.2.symm.trans hk.2)
  · obtain ⟨j, hj, rfl⟩ := hc.tables_pos hq
    exact hc.lt j hj

end Chain

/-! ## §6  A process with one page -/

/-- One page at 0x1000, in the frame `f`, under the tables 0 to 3. The kernel's table is at
page 5. -/
def forkRam (f p i : ℕ) : Word :=
  if p = 5 then tableDescriptor 5
  else if p = 3 ∧ i = 1 then leafDescriptor (mapUser ||| mapRead ||| mapWrite) 1 (f * pageSize)
  else if p < 3 ∧ i = 0 then tableDescriptor (p + 1)
  else 0

section Example

variable {F : Set ℕ} {f : ℕ}

theorem forkRam_leaf (f : ℕ) : forkRam f 3 1 =
    leafDescriptor (mapUser ||| mapRead ||| mapWrite) 1 (f * pageSize) := by
  rw [forkRam, if_neg (by decide), if_pos (by decide)]

theorem forkRam_blank {i : ℕ} (hi : i ≠ 1) : forkRam f 3 i = 0 := by
  rw [forkRam, if_neg (by decide), if_neg fun h => hi h.2, if_neg fun h => absurd h.1 (by decide)]

theorem forkRam_entry (hlt : f < ramPages) : Pte.valid.get (forkRam f 3 1) = 1 ∧
    Pte.type.get (forkRam f 3 1) = 1 ∧ Pte.address.get (forkRam f 3 1) = f := by
  obtain ⟨hv, htype⟩ := leafDescriptor_get (mapUser ||| mapRead ||| mapWrite) (f * pageSize)
    (by decide : 1 < 2)
  have haddr := leafDescriptor_address (mapUser ||| mapRead ||| mapWrite) 1 (f * pageSize)
  rw [Nat.mul_div_cancel f (by decide), Nat.mod_eq_of_lt (Nat.lt_of_lt_of_le hlt (by decide))]
    at haddr
  rw [forkRam_leaf f]
  exact ⟨hv, htype, haddr⟩

theorem forkRam_chain (hf : f ∈ F) (hlt : f < ramPages) : TableChain F id (forkRam f) := by
  obtain ⟨hv, htype, haddr⟩ := forkRam_entry hlt
  refine ⟨fun j hj => Nat.lt_of_le_of_lt hj (by decide), fun _ _ _ _ h => h, fun j hj => ?_,
    fun j hj i hi => ?_, fun i => ?_, 1, by decide, hv⟩
  · rw [id_eq, forkRam, if_neg (by omega), if_neg (by omega), if_pos ⟨hj, rfl⟩]
    rfl
  · rw [id_eq, forkRam, if_neg (by omega), if_neg (by omega), if_neg fun h => hi h.2]
  · by_cases hi : i = 1
    · subst hi
      exact fun _ => ⟨htype, fun _ => haddr.symm ▸ ⟨hf, hlt⟩⟩
    · rw [id_eq, forkRam_blank hi]
      exact tableOrFrame_zero F 0

theorem forkRam_leaves (hlt : f < ramPages) (q : ℕ) :
    pageRadix.leaves (forkRam f) 3 0 q = if q = f then 1 else 0 := by
  obtain ⟨hv, htype, haddr⟩ := forkRam_entry hlt
  have hvoid : ∀ j < pageRadix.fan, j ≠ 1 → pageRadix.Void (forkRam f 3 j) := by
    intro j _ hne
    rw [forkRam_blank hne]
    exact void_zero
  refine ((forkRam_chain (Set.mem_univ f) hlt).tree.leaves q).trans ?_
  rw [id_eq, Radix.leaves_single (by decide) hvoid,
    Radix.leavesUnder_leaf (page_leaf hv htype) (not_table_zero _)]
  show (if q = Pte.address.get (forkRam f 3 1) then 1 else 0) = _
  rw [haddr]

/-- The process on a machine with 2048 reserved pages, which hold its tables. -/
def forkProcess (f : ℕ) (b : Buddy) : Machine where
  buddy := b
  ram := forkRam f
  stores := []

theorem forkProcess_selfMapped {n : ℕ} {b : Buddy} (hlt : f < ramPages) (hb : BuddyOk 2048 b)
    (hn : n ≤ (freePages b).card) :
    SelfMapped 2048 5 n {q | 0 < pageRadix.tables (forkRam f) 3 0 q} (forkProcess f b) := by
  have hreserved : ∀ q < 2048, q ∉ freePages b := by
    intro q hq
    exact ((hb.held_iff (Nat.lt_trans hq (by decide))).mpr (Or.inl hq)).2
  have htree : ∀ q, 0 < pageRadix.tables (forkRam f) 3 0 q → q ≤ 3 := by
    intro q hq
    obtain ⟨j, hj, rfl⟩ := (forkRam_chain (Set.mem_univ f) hlt).tables_pos hq
    exact hj
  have hself : ∀ i, forkRam f 5 i = tableDescriptor 5 := by
    intro i
    rw [forkRam, if_pos rfl]
  refine ⟨hb, hself, ⟨by decide, hreserved 5 (by decide), fun h => ?_⟩,
    fun q hq => hreserved q (Nat.lt_of_le_of_lt (htree q hq) (by decide)), hn⟩
  exact absurd (htree 5 h) (by decide)

/-- After the boot, with 2048 reserved pages; the frame is page 10. -/
def forkMachine : Machine :=
  forkProcess 10 (initializePageFrameArray (2048 * 4096) blankBuddy)

/-- Where four pages are free, a fork of the process requests one page at a time, and none
of its requests stores to a page in use. -/
theorem forkProcess_requests {b : Buddy} (hlt : f < ramPages) (hb : BuddyOk 2048 b)
    (hf : f ∈ heldPages b) (hn : 4 ≤ (freePages b).card) :
    CloneRequests (buddyAllocPt 5) (fun n => TakesOne (buddyAllocPt 5) n ∧
      SparesPages (buddyAllocPt 5) {q | 0 < pageRadix.tables (forkRam f) 3 0 q} b n) 0
      (forkProcess f b) := by
  have hlo : 2048 ≤ 2048 := Nat.le_refl 2048
  have hc := forkRam_chain hf hlt
  have hself := forkProcess_selfMapped hlt hb hn
  have hclone : Cloneable (heldPages b) {q | 0 < pageRadix.tables (forkRam f) 3 0 q} 3 0
      (forkRam f) := ⟨hc.pageTree.distinct, hc.tree.every, hc.tree.filled,
    fun q hq => ⟨hq, hc.pageTree.inRam q hq⟩⟩
  have hm : SelfMapped 2048 5 (0 + pageRadix.size (forkRam f) 3 0)
      {q | 0 < pageRadix.tables (forkRam f) 3 0 q} (forkProcess f b) := by
    rw [Nat.zero_add, show pageRadix.size (forkRam f) 3 0 = _ from hc.tree.size]
    exact hself
  obtain ⟨hreq, -⟩ := cloneVirtualMemory_spec (n := 0) (m := forkProcess f b)
    ((selfMapped_supply hlo _ (heldPages b)).supply hlo) hclone
    ⟨hm, .start hb hself.stored⟩ (Or.inl (selfMapped_assures hlo))
  exact hreq

end Example

/-! ## §7  The copy of an address space -/

/-- `clone_virtual_memory` copies the address space at `root`, if its requests are granted
and none of them stores to a table of the parent or to a page that it has taken. -/
theorem clone_copies_address_space {lo l0Table root : ℕ} {m : Machine} (hlo : 2048 ≤ lo)
    (hb : BuddyOk lo m.buddy) (ht : PageTree (TableOrFrame (heldPages m.buddy)) m.ram root)
    (hfill : pageRadix.Filled (fun w => Pte.valid.get w = 1) m.ram 3 root)
    (hheld : ∀ q, 0 < pageRadix.tables m.ram 3 root q → q ∉ freePages m.buddy)
    (hgrant : CloneRequests (buddyAllocPt l0Table) (PageGranted (buddyAllocPt l0Table)) root m)
    (hspare : CloneRequests (buddyAllocPt l0Table) (SparesPages (buddyAllocPt l0Table)
      {q | 0 < pageRadix.tables m.ram 3 root q} m.buddy) root m) :
    ∃ child m', cloneVirtualMemory (buddyAllocPt l0Table) root m = some (pageAddr child, m') ∧
      (∀ q, 0 < pageRadix.tables m'.ram 3 child q → pageRadix.tables m'.ram 3 root q = 0) ∧
      (∀ x, pageRadix.lookup m'.ram 3 root x =
        (pageRadix.lookup m.ram 3 root x).map fun r => (r.1, mark r.2)) ∧
      (∀ x, pageRadix.lookup m'.ram 3 child x = pageRadix.lookup m'.ram 3 root x) ∧
      pageRadix.Rel Marked m.ram m'.ram 3 root root ∧
      ∀ q ∈ heldPages m.buddy, m'.buddy.frameMetadata q =
        (m.buddy.frameMetadata q).addRefs (pageRadix.leaves m.ram 3 root q) := by
  have hclone : Cloneable (heldPages m.buddy) {q | 0 < pageRadix.tables m.ram 3 root q} 3 root
      m.ram := ⟨ht.distinct, ht.every, hfill, fun q hq => ⟨hq, ht.inRam q hq⟩⟩
  obtain ⟨-, child, m', S', hrun, hcl, -⟩ := cloneVirtualMemory_spec (n := 0)
    (fork_supply hlo hheld) hclone (InFork.start hb)
    (Or.inr (hgrant.imp₂ (fun _ => And.intro) hspare))
  have hparent := hcl.parent.lookup marked_rewrites
  refine ⟨child, m', hrun, fun q hq => ?_, hparent, fun x => ?_, hcl.parent, hcl.frames⟩
  · rw [hcl.parent.tables marked_table marked_same]
    exact Nat.eq_zero_of_not_pos ((hcl.new q).mp hq).2.1
  · rw [hcl.child.lookup copyWord_rewrites, hparent]

theorem TakesOne.granted {allocPt : Machine → Option (ℕ × Machine)} {n : Machine}
    (h : TakesOne allocPt n) : PageGranted allocPt n := by
  obtain ⟨page, n', hrun, hne, -⟩ := h
  exact ⟨page, n', hrun, hne⟩

/-- The clone of the process with one page. -/
theorem clone_copies_address_space_example :
    ∃ child m', cloneVirtualMemory (buddyAllocPt 5) 0 forkMachine = some (pageAddr child, m') ∧
      (∀ q, 0 < pageRadix.tables m'.ram 3 child q → pageRadix.tables m'.ram 3 0 q = 0) ∧
      (∀ x, pageRadix.lookup m'.ram 3 0 x =
        (pageRadix.lookup forkMachine.ram 3 0 x).map fun r => (r.1, mark r.2)) ∧
      (∀ x, pageRadix.lookup m'.ram 3 child x = pageRadix.lookup m'.ram 3 0 x) ∧
      pageRadix.Rel Marked forkMachine.ram m'.ram 3 0 0 ∧
      ∀ q ∈ heldPages forkMachine.buddy, m'.buddy.frameMetadata q =
        (forkMachine.buddy.frameMetadata q).addRefs
          (pageRadix.leaves forkMachine.ram 3 0 q) := by
  have hlt : 10 < ramPages := by decide
  have hheld : 10 ∈ heldPages forkMachine.buddy :=
    ⟨hlt, fun h => absurd (initial_pool.2 10 h) (by decide)⟩
  have henough : 4 ≤ (freePages forkMachine.buddy).card := le_trans (by decide) initial_pool.1
  have hself := forkProcess_selfMapped hlt initial_rep.ok henough
  have hc := forkRam_chain hheld hlt
  have hreq := forkProcess_requests hlt initial_rep.ok hheld henough
  exact clone_copies_address_space (Nat.le_refl 2048) hself.ok hc.pageTree hc.tree.filled
    hself.stored (hreq.imp fun _ h => h.1.granted) (hreq.imp fun _ => And.right)

/-! A process whose last table is the first page of a 2 MiB block. -/

def blockTables : ℕ → ℕ
  | 0 => 258049
  | 1 => 258050
  | 2 => 258051
  | _ => 258048

/-- Over the boot's tables: the process has three pages, at 0x5000, 0x6000 and 0x7000. -/
def blockProcessRam (p i : ℕ) : Word :=
  if p < 4096 then (bootMachine smallLayout (fun _ _ => 0) blankBuddy).ram p i
  else if p = 258048 then
    if 5 ≤ i ∧ i ≤ 7 then leafDescriptor (mapUser ||| mapRead ||| mapWrite) 1 (i * pageSize)
    else 0
  else if p = 258049 ∧ i = 0 then tableDescriptor 258050
  else if p = 258050 ∧ i = 0 then tableDescriptor 258051
  else if p = 258051 ∧ i = 0 then tableDescriptor 258048
  else 0

/-- The process, with the pages up to 258051 granted. -/
def blockProcess (b : Buddy) : Machine := ⟨b, blockProcessRam, []⟩

section Block

variable {F S : Set ℕ} {n : ℕ} {b b' : Buddy} {m : Machine} {ram : ℕ → ℕ → Word}

theorem blockProcessRam_leaf (i : ℕ) : blockProcessRam 258048 i =
    if 5 ≤ i ∧ i ≤ 7 then leafDescriptor (mapUser ||| mapRead ||| mapWrite) 1 (i * pageSize)
    else 0 := by
  rw [blockProcessRam, if_neg (by decide), if_pos rfl]

theorem blockProcess_chain (hram : ∀ j < 3, ram (blockTables j) = blockProcessRam (blockTables j))
    (hlast : ∀ i, i ≠ 4 → ram 258048 i = blockProcessRam 258048 i)
    (hentry : TableOrFrame F 0 (ram 258048 4)) (hF : ∀ q < 4096, q ∈ F) :
    TableChain F blockTables ram := by
  have hleaf : ∀ i, 5 ≤ i → i ≤ 7 → ram 258048 i =
      leafDescriptor (mapUser ||| mapRead ||| mapWrite) 1 (i * pageSize) := by
    intro i h5 h7
    rw [hlast i (by omega), blockProcessRam_leaf, if_pos ⟨h5, h7⟩]
  have hlow : ∀ j < 3, ¬ blockTables j < 4096 ∧ blockTables j ≠ 258048 := by decide
  refine ⟨by decide, by decide, fun j hj => ?_, fun j hj i hi => ?_, fun i => ?_, 5, by decide, ?_⟩
  · rw [hram j hj, blockProcessRam, if_neg (hlow j hj).1, if_neg (hlow j hj).2]
    obtain rfl | rfl | rfl : j = 0 ∨ j = 1 ∨ j = 2 := by omega
    · exact if_pos ⟨rfl, rfl⟩
    · exact (if_neg (by decide)).trans (if_pos ⟨rfl, rfl⟩)
    · exact (if_neg (by decide)).trans ((if_neg (by decide)).trans (if_pos ⟨rfl, rfl⟩))
  · rw [hram j hj, blockProcessRam, if_neg (hlow j hj).1, if_neg (hlow j hj).2,
      if_neg fun h => hi h.2, if_neg fun h => hi h.2, if_neg fun h => hi h.2]
  · show TableOrFrame F 0 (ram 258048 i)
    by_cases h4 : i = 4
    · exact h4 ▸ hentry
    by_cases hi : 5 ≤ i ∧ i ≤ 7
    · obtain ⟨-, htype⟩ := leafDescriptor_get (mapUser ||| mapRead ||| mapWrite) (i * pageSize)
        (by decide : 1 < 2)
      have haddr := leafDescriptor_address (mapUser ||| mapRead ||| mapWrite) 1 (i * pageSize)
      rw [Nat.mul_div_cancel i (by decide), Nat.mod_eq_of_lt (by omega)] at haddr
      rw [hleaf i hi.1 hi.2]
      exact fun _ => ⟨htype, fun _ => haddr.symm ▸ ⟨hF i (by omega),
        Nat.lt_of_le_of_lt hi.2 (by decide)⟩⟩
    · rw [hlast i h4, blockProcessRam_leaf, if_neg hi]
      exact tableOrFrame_zero F 0
  · show Pte.valid.get (ram 258048 5) = 1
    rw [hleaf 5 (by decide) (by decide)]
    exact (leafDescriptor_get _ _ (by decide : 1 < 2)).1

theorem blockProcess_kernel (hram : ∀ p < 4096, ram p = blockProcessRam p) :
    LinearTree 4096 ram smallRoot := by
  have htree := (bootMachine_ok smallLayout_ok (fun _ _ => 0) blankBuddy).tree
  rw [smallLayout_reserved] at htree
  refine htree.congr fun p hp => ?_
  rw [hram p hp]
  funext k
  exact if_pos hp

theorem BlockGrants.tables {g j : ℕ} (hb : BlockGrants g b) (hg : 4 ≤ g) (hj : j ≤ 3) :
    4096 ≤ blockTables j ∧ blockTables j ∉ freePages b := by
  obtain rfl | rfl | rfl | rfl : j = 0 ∨ j = 1 ∨ j = 2 ∨ j = 3 := by omega
  · exact ⟨by decide, hb.taken 1 (by omega)⟩
  · exact ⟨by decide, hb.taken 2 (by omega)⟩
  · exact ⟨by decide, hb.taken 3 (by omega)⟩
  · exact ⟨by decide, hb.taken 0 (by omega)⟩

/-- Table pages for the process: the walks for the next three find their pages mapped. -/
structure BlockSupply (n : ℕ) (S : Set ℕ) (m : Machine) : Prop where
  kernel : KernelOk 4096 smallRoot m
  grants : BlockGrants (8 - n) m.buddy
  le : n ≤ 3
  found : ∀ i, 5 ≤ i → i ≤ 7 → Pte.valid.get (m.ram 258048 i) = 1
  stored : ∀ q ∈ S, 4096 ≤ q ∧ q ∉ freePages m.buddy

def blockFrames : Set ℕ := {q | q < 4096 ∨ q = 258052}

theorem BlockSupply.held (h : BlockSupply (n + 1) S m) {q : ℕ} (hq : q ∈ blockFrames) :
    q ∈ heldPages m.buddy := by
  rcases hq with hlow | rfl
  · exact (h.kernel.buddy.held_iff (Nat.lt_of_lt_of_le hlow (by decide))).mpr (Or.inl hlow)
  · have hn := h.le
    exact ⟨by decide, h.grants.taken 4 (by omega)⟩

theorem BlockSupply.grant (h : BlockSupply (n + 1) S m) :
    ∃ a m', buddyAllocPt smallRoot m = some (pageAddr a, m') ∧
      FreshPage blockFrames S a m m' ∧ BlockSupply n (insert a S) m' := by
  have hn := h.le
  have hindex : 8 - (n + 1) + 1 = 8 - n := by omega
  obtain ⟨b', halloc, hgrants⟩ := h.grants.next (by omega)
  rw [hindex] at hgrants
  set a := 258048 + (8 - (n + 1)) with ha
  have hlt : a < ramPages := Nat.lt_of_lt_of_le (by omega : a < 258056) (by decide)
  have hbase : blockBase a = 258048 := by
    unfold blockBase
    omega
  have hfind : FindsPage m.ram smallRoot (pageAddr a) := by
    rw [h.kernel.tree.ownWalks.finds_iff (by omega) hlt, hbase]
    exact h.found _ (by omega) (by omega)
  have hrun := h.kernel.buddyAllocPt_eq (by decide) halloc (by omega) hlt
  rw [if_pos hfind] at hrun
  obtain ⟨-, hfree, herase, -⟩ := h.kernel.buddy.alloc_held (by decide) hlt halloc
  have hshrink : freePages b' ⊆ freePages m.buddy := herase ▸ Finset.erase_subset _ _
  have hother : ∀ q, q ≠ a → (Machine.clearPage { m with buddy := b' } a).ram q = m.ram q :=
    fun q hne => by rw [Machine.clearPage_ram, if_neg hne]
  have hnew : a ∉ S := fun hmem => (h.stored a hmem).2 hfree
  refine ⟨a, _, hrun, ⟨hlt, ⟨hnew, fun hmem => (h.held hmem).2 hfree⟩, fun i => ?_,
    fun q hq => hother q fun heq => hnew (heq ▸ hq), fun q hq => ?_⟩,
    ⟨hgrants.ok, h.kernel.tree.congr fun p hp => hother p (by omega)⟩, hgrants, by omega,
    fun i h5 h7 => ?_, fun q hq => ?_⟩
  · rw [Machine.clearPage_ram, if_pos rfl]
  · exact (h.kernel.buddy.alloc_records (by decide) halloc).2.2 q (h.held hq)
  · rw [hother _ (by omega)]
    exact h.found i h5 h7
  · rcases hq with rfl | hq
    · exact ⟨by omega, fun hmem => Finset.notMem_erase _ _ (herase ▸ hmem)⟩
    · exact ⟨(h.stored q hq).1, fun hmem => (h.stored q hq).2 (hshrink hmem)⟩

theorem blockSupply (Q : Machine → Prop) :
    TableSupply (buddyAllocPt smallRoot) Q blockFrames BlockSupply where
  grant _ _ _ hm _ := hm.grant
  write n S m t j w hm ht hv := by
    refine ⟨⟨hm.kernel.buddy, hm.kernel.tree.congr fun p hp => ?_⟩, hm.grants, hm.le,
      fun i h5 h7 => ?_, hm.stored⟩
    · exact Machine.write_ram_ne _ _ fun heq =>
        absurd (hm.stored t ht).1 (Nat.not_le.mpr (heq ▸ hp))
    · rw [Machine.write_ram]
      split_ifs
      · exact hv
      · exact hm.found i h5 h7
  count n S m m' f hm _ hrun := by
    obtain ⟨honly, hram⟩ := countRef_onlyCounts hrun
    have hfree := honly.freePages
    refine ⟨⟨honly.ok hm.kernel.buddy, hm.kernel.tree.congr fun p _ => congrFun hram p⟩,
      ⟨hm.grants.rep.imp fun _ hr => hr.counts honly, fun j hj => ?_⟩, hm.le, fun i h5 h7 => ?_,
      fun q hq => ⟨(hm.stored q hq).1, ?_⟩⟩
    · rw [hfree]
      exact hm.grants.taken j hj
    · rw [hram]
      exact hm.found i h5 h7
    · rw [hfree]
      exact (hm.stored q hq).2

/-- The request for the child's first table stores a descriptor to the parent's last one. -/
theorem blockProcess_request (hb : BlockGrants 4 b) :
    ∃ b', BlockGrants 5 b' ∧ buddyAllocPt smallRoot (blockProcess b) = some (pageAddr 258052,
      Machine.clearPage (Machine.write ⟨b', blockProcessRam, []⟩ 258048 4
        (linearDescriptor 258052)) 258052) := by
  obtain ⟨b', halloc, hb'⟩ := hb.next (by decide)
  have hm : KernelOk 4096 smallRoot (blockProcess b) :=
    ⟨hb.ok, blockProcess_kernel fun _ _ => rfl⟩
  have hfind : ¬ FindsPage (blockProcess b).ram smallRoot (pageAddr 258052) := by
    rw [hm.tree.ownWalks.finds_iff (by decide) (by decide)]
    show ¬ Pte.valid.get (blockProcessRam 258048 4) = 1
    rw [blockProcessRam_leaf, if_neg (by decide)]
    decide
  refine ⟨b', hb', ?_⟩
  rw [hm.buddyAllocPt_eq (by decide) halloc (by decide) (by decide), if_neg hfind]
  rfl

/-- The parent's tables after this request have one more entry. -/
structure StrayedTree (m : Machine) : Prop where
  chain : TableChain blockFrames blockTables m.ram
  supply : BlockSupply 3
    (insert 258052 {q | 0 < pageRadix.tables m.ram 3 258049 q}) m
  blank : ∀ i, m.ram 258052 i = 0
  stray : m.ram 258048 4 = linearDescriptor 258052

theorem strayedTree (hb : BlockGrants 5 b) : StrayedTree (Machine.clearPage
    (Machine.write ⟨b, blockProcessRam, []⟩ 258048 4 (linearDescriptor 258052)) 258052) := by
  set m := Machine.clearPage
    (Machine.write ⟨b, blockProcessRam, []⟩ 258048 4 (linearDescriptor 258052)) 258052 with hm
  have hother : ∀ p, p ≠ 258052 → p ≠ 258048 → m.ram p = blockProcessRam p := by
    intro p hp hp'
    rw [hm, Machine.clearPage_ram, if_neg hp, Machine.write_ram_ne _ _ hp']
  have hlast : ∀ i, i ≠ 4 → m.ram 258048 i = blockProcessRam 258048 i := by
    intro i hi
    rw [hm, Machine.clearPage_ram, if_neg (by decide), Machine.write_ram, if_neg fun h => hi h.2]
  have hstray : m.ram 258048 4 = linearDescriptor 258052 := by
    rw [hm, Machine.clearPage_ram, if_neg (by decide), Machine.write_ram, if_pos ⟨rfl, rfl⟩]
  have hname := linearDescriptor_names (by decide : 258052 < ramPages)
  have hentry : TableOrFrame blockFrames 0 (m.ram 258048 4) := by
    rw [hstray]
    exact fun _ => ⟨hname.type, fun _ => hname.address.symm ▸ ⟨Or.inr rfl, by decide⟩⟩
  have hchain : TableChain blockFrames blockTables m.ram :=
    blockProcess_chain (fun j hj => hother _ (by revert j; decide) (by revert j; decide)) hlast
      hentry fun q hq => Or.inl hq
  refine ⟨hchain, ⟨⟨hb.ok, blockProcess_kernel fun p hp => hother p (by omega) (by omega)⟩, hb,
    by decide, fun i h5 h7 => ?_, fun q hq => ?_⟩, fun i => ?_, hstray⟩
  · rw [hlast i (by omega), blockProcessRam_leaf, if_pos ⟨h5, h7⟩]
    exact (leafDescriptor_get _ _ (by decide : 1 < 2)).1
  · rcases hq with rfl | hq
    · exact ⟨by decide, hb.taken 4 (by decide)⟩
    · obtain ⟨j, hj, rfl⟩ := hchain.tables_pos hq
      exact hb.tables (by decide) hj
  · rw [hm, Machine.clearPage_ram, if_pos rfl]

theorem StrayedTree.loop (h : StrayedTree m) :
    BeforeRounds (cloneRootEntry (buddyAllocPt smallRoot) 258049 (pageAddr 258052))
        (RootRequests (buddyAllocPt smallRoot) (PageGranted (buddyAllocPt smallRoot)) 258049
          (pageAddr 258052)) tableSize m ∧
      ∃ m', (List.range tableSize).foldlM
          (cloneRootEntry (buddyAllocPt smallRoot) 258049 (pageAddr 258052)) m = some m' ∧
        pageRadix.lookup m'.ram 3 258049 4 = some (0, mark (linearDescriptor 258052)) := by
  have htree : PageTree (TableOrFrame blockFrames) m.ram 258049 := h.chain.pageTree
  have hsize : pageRadix.size m.ram 3 258049 = 4 := h.chain.tree.size
  have hclone : Cloneable blockFrames {q | 0 < pageRadix.tables m.ram 3 258049 q} 3 258049
      m.ram := ⟨htree.distinct, htree.every, h.chain.tree.filled,
    fun q hq => ⟨hq, htree.inRam q hq⟩⟩
  have hremaining : 0 + remaining m.ram 3 258049 0 = 3 := by
    rw [size_eq_remaining] at hsize
    omega
  have hnew : 258052 ∉ {q | 0 < pageRadix.tables m.ram 3 258049 q} := by
    intro hmem
    obtain ⟨j, hj, heq⟩ := h.chain.tables_pos hmem
    revert j
    decide
  have hassures : Assures BlockSupply (PageGranted (buddyAllocPt smallRoot)) := by
    intro n S m hm
    obtain ⟨a, m', hrun, hfresh, -⟩ := hm.grant
    exact ⟨_, m', hrun, pageAddr_ne_zero hfresh.lt⟩
  obtain ⟨hrounds, m', S', hrun, hcl, -⟩ := cloneRootLoop_spec (blockSupply _) hclone
    (.start (n := 0) (by decide) hnew h.blank (fun _ _ => rfl) (fun _ _ => rfl) hclone
      (hremaining.symm ▸ h.supply)) (Or.inl hassures)
  refine ⟨hrounds, m', hrun, ?_⟩
  have hname := linearDescriptor_names (by decide : 258052 < ramPages)
  have hlook : pageRadix.lookup m.ram 3 258049 4 = some (0, linearDescriptor 258052) := by
    refine (h.chain.tree.lookup 4 (by decide)).trans ?_
    show pageRadix.follow m.ram 0 (m.ram 258048 4) 4 = _
    rw [h.stray, Radix.follow_leaf (page_leaf hname.valid hname.type) (not_table_zero _)]
  rw [hcl.parent.lookup marked_rewrites, hlook]
  rfl

end Block

/-- Under the boot's map, where the child's first table lies in the block whose first page is
a table of the parent: all requests are granted, and the fork maps a page for the parent. -/
theorem clone_strays : ∃ b1 b2 b3 b,
    buddyAlloc pageSize (bootMachine smallLayout (fun _ _ => 0) blankBuddy).buddy =
        some (pageAddr 258048, b1) ∧
      buddyAlloc pageSize b1 = some (pageAddr 258049, b2) ∧
      buddyAlloc pageSize b2 = some (pageAddr 258050, b3) ∧
      buddyAlloc pageSize b3 = some (pageAddr 258051, b) ∧
      KernelOk 4096 smallRoot (blockProcess b) ∧
      PageTree (TableOrFrame (heldPages b)) blockProcessRam 258049 ∧
      pageRadix.Filled (fun w => Pte.valid.get w = 1) blockProcessRam 3 258049 ∧
      (∀ q, 0 < pageRadix.tables blockProcessRam 3 258049 q → q ∉ freePages b) ∧
      CloneRequests (buddyAllocPt smallRoot) (PageGranted (buddyAllocPt smallRoot)) 258049
        (blockProcess b) ∧
      ∃ child m', cloneVirtualMemory (buddyAllocPt smallRoot) 258049 (blockProcess b) =
          some (pageAddr child, m') ∧
        pageRadix.lookup blockProcessRam 3 258049 4 = none ∧
        pageRadix.lookup m'.ram 3 258049 4 ≠ none := by
  obtain ⟨b1, b2, b3, b, hb1, hb2, hb3, -, hb, h4⟩ := buddyAlloc_four blankBuddy
  obtain ⟨b', h5, halloc⟩ := blockProcess_request h4
  obtain ⟨hrounds, m', hrun, hlook⟩ := (strayedTree h5).loop
  have hlow : ∀ q < 4096, q ∈ heldPages b := fun q hq =>
    (h4.ok.held_iff (Nat.lt_of_lt_of_le hq (by decide))).mpr (Or.inl hq)
  have hclear : blockProcessRam 258048 4 = 0 := by
    rw [blockProcessRam_leaf, if_neg (by decide)]
  have hchain : TableChain (heldPages b) blockTables blockProcessRam :=
    blockProcess_chain (fun _ _ => rfl) (fun _ _ => rfl)
      (hclear.symm ▸ tableOrFrame_zero _ 0) hlow
  refine ⟨b1, b2, b3, b, bootMachine_buddy smallLayout _ _ ▸ hb1, hb2, hb3, hb,
    ⟨h4.ok, blockProcess_kernel fun _ _ => rfl⟩, hchain.pageTree, hchain.tree.filled,
    fun q hq => ?_, ⟨⟨_, _, halloc, pageAddr_ne_zero (by decide)⟩, fun t n heq => ?_⟩, 258052,
    m', ?_, ?_, ?_⟩
  · obtain ⟨j, hj, rfl⟩ := hchain.tables_pos hq
    exact (h4.tables (by decide) hj).2
  · rw [halloc, Option.some.injEq, Prod.mk.injEq] at heq
    rw [← heq.1, ← heq.2]
    exact hrounds
  · rw [cloneVirtualMemory, halloc, Option.bind_eq_bind, Option.bind_some]
    dsimp only
    rw [hrun]
    rfl
  · refine (hchain.tree.lookup 4 (by decide)).trans ?_
    show pageRadix.follow blockProcessRam 0 (blockProcessRam 258048 4) 4 = _
    rw [hclear]
    exact Radix.follow_none (void_zero 0).2 (void_zero 0).1
  · rw [hlook]
    exact Option.some_ne_none _

end Rpos
