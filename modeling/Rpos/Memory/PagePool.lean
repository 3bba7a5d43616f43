import Rpos.Memory.Kmalloc

/-!
# The pool behind the table pages

A page that `buddy_alloc` or `buddy_alloc_pt` hands out leaves the pool of free pages, and
nothing that `map` does puts a page back. So a page that was handed out is neither handed
out again nor a table that is entered later.
-/

namespace Rpos

open Base

/-! ## §1  The pool -/

@[irreducible] def freePages (m : Buddy) : Finset ℕ := (pageAllocatorOf m).pool

theorem freePages_eq (m : Buddy) : freePages m = (pageAllocatorOf m).pool := by
  unfold freePages
  rfl

section Pool

variable {lo l0Table : ℕ} {b b' : Buddy} {m m' : Machine}

theorem isLeastOrder_page : IsLeastOrder pageSize 0 :=
  ⟨by decide, fun j hj => absurd hj (Nat.not_lt_zero j)⟩

theorem pages_zero (p : ℕ) : (⟨p, 0⟩ : Block).pages = {p} := by
  ext q
  rw [Block.mem_pages, Finset.mem_singleton]
  simp only [pow_zero]
  omega

/-- A request for one page: refused when the pool is empty, else a page of the pool. -/
theorem BuddyOk.alloc_page (hb : BuddyOk lo b) (hlo : 2048 ≤ lo) :
    ∃ page b', buddyAlloc pageSize b = some (page, b') ∧ BuddyOk lo b' ∧
      (page = 0 ∧ b' = b ∧ freePages b = ∅ ∨
        ∃ p ∈ freePages b, page = pageAddr p ∧ lo ≤ p ∧ p < ramPages ∧
          freePages b' = (freePages b).erase p) := by
  obtain ⟨w, b', hstep, hb', hspec, hno⟩ :=
    buddyStep_spec hlo b (.alloc pageSize) hb (show pageSize ≤ 2 ^ 30 by decide)
  rw [buddyStep, Option.map_eq_some_iff] at hstep
  obtain ⟨⟨page, b''⟩, hrun, heq⟩ := hstep
  rw [Prod.mk.injEq] at heq
  obtain ⟨rfl, rfl⟩ := heq
  refine ⟨page, b'', hrun, hb', ?_⟩
  generalize hw : some page = w at hspec
  generalize ha : pageAllocatorOf b'' = a at hspec
  cases hspec with
  | @grant _ _ p k hleast hp hhi _ hsub _ _ hpool =>
      obtain rfl := hleast.unique isLeastOrder_page
      rw [pages_zero] at hsub hpool
      rw [pow_zero] at hhi
      rw [← freePages_eq] at hsub
      rw [← ha, ← freePages_eq, ← freePages_eq, Finset.sdiff_singleton_eq_erase] at hpool
      exact Or.inr ⟨p, hsub (Finset.mem_singleton_self p), Option.some.inj hw, hp, hhi, hpool⟩
  | refuse hleast hnone =>
      obtain rfl := hleast.unique isLeastOrder_page
      refine Or.inl ⟨Option.some.inj hw, hno hw, ?_⟩
      rw [freePages_eq, PageAllocator.pool]
      generalize (pageAllocatorOf b).free = A at hnone ⊢
      apply Finset.eq_empty_of_forall_notMem
      intro q hq
      obtain ⟨f, hf, -⟩ := mem_pagesOf.mp hq
      exact absurd (hnone f hf) (Nat.not_lt_zero _)

theorem Machine.buddyAlloc_page (hm : BuddyOk lo m.buddy) (hlo : 2048 ≤ lo) {page : ℕ}
    (hrun : m.buddyAlloc pageSize = some (page, m')) :
    BuddyOk lo m'.buddy ∧ m'.ram = m.ram ∧
      (page = 0 ∧ freePages m'.buddy = freePages m.buddy ∨
        ∃ p ∈ freePages m.buddy, page = pageAddr p ∧ lo ≤ p ∧ p < ramPages ∧
          freePages m'.buddy = (freePages m.buddy).erase p) := by
  obtain ⟨page', b', hrun', hb', hcases⟩ := hm.alloc_page hlo
  rw [Machine.buddyAlloc, hrun', Option.map_some, Option.some.injEq, Prod.mk.injEq] at hrun
  obtain ⟨rfl, rfl⟩ := hrun
  refine ⟨hb', rfl, ?_⟩
  rcases hcases with ⟨hnull, rfl, -⟩ | hgrant
  · exact Or.inl ⟨hnull, rfl⟩
  · exact Or.inr hgrant

/-- `buddy_alloc_pt` takes pages from the pool and puts none back. -/
theorem keeps_pool (hlo : 2048 ≤ lo) (l0Table : ℕ) (P : Finset ℕ) (fuel : ℕ) :
    Keeps (buddyAllocPtFuel l0Table fuel)
      fun m => BuddyOk lo m.buddy ∧ freePages m.buddy ⊆ P := by
  apply keeps_buddyAllocPtFuel
  · rintro m page m' ⟨hm, hP⟩ hrun
    obtain ⟨hm', -, ⟨-, heq⟩ | ⟨p, -, -, -, -, heq⟩⟩ := Machine.buddyAlloc_page hm hlo hrun
    · exact ⟨hm', heq ▸ hP⟩
    · exact ⟨hm', heq ▸ (Finset.erase_subset _ _).trans hP⟩
  · exact fun _ _ _ _ hm => hm
  · exact fun _ _ hm => hm

theorem buddyAllocPt_pool (hm : BuddyOk lo m.buddy) (hlo : 2048 ≤ lo) {page : ℕ}
    (hrun : buddyAllocPt l0Table m = some (page, m')) (hne : page ≠ 0) :
    BuddyOk lo m'.buddy ∧ ∃ p ∈ freePages m.buddy, page = pageAddr p ∧ p < ramPages ∧
      freePages m'.buddy ⊆ (freePages m.buddy).erase p := by
  rw [buddyAllocPt, buddyAllocPtFuel_succ, Option.bind_eq_some_iff] at hrun
  obtain ⟨⟨page1, m1⟩, halloc, hrun⟩ := hrun
  obtain ⟨hm1, -, hcases⟩ := Machine.buddyAlloc_page hm hlo halloc
  dsimp only at hrun
  by_cases hzero : page1 = 0
  · rw [if_pos hzero, Option.some.injEq, Prod.mk.injEq] at hrun
    exact absurd hrun.1.symm hne
  rw [if_neg hzero, Option.bind_eq_some_iff] at hrun
  obtain ⟨m2, hmap, hrun⟩ := hrun
  rw [Option.some.injEq, Prod.mk.injEq] at hrun
  obtain ⟨rfl, rfl⟩ := hrun
  obtain ⟨p, hp, hpage, -, hlt, heq⟩ := hcases.resolve_left fun h => hzero h.1
  obtain ⟨hm2, hsub⟩ := (keeps_pool hlo l0Table _ _).map ⟨hm1, heq.subset⟩ hmap
  exact ⟨hm2, p, hp, hpage, hlt, hsub⟩

/-- Of a machine with 2048 reserved pages half are free before the first request. -/
theorem initial_pool :
    2 ^ 17 ≤ (freePages (initializePageFrameArray (2048 * 4096) blankBuddy)).card ∧
      ∀ q ∈ freePages (initializePageFrameArray (2048 * 4096) blankBuddy), 2048 ≤ q := by
  obtain ⟨B, L, hr, hfree⟩ : ∃ B L,
      BuddyRep 2048 ramPages (initializePageFrameArray (2048 * 4096) blankBuddy) B L ∧
        ⟨2048, 17⟩ ∈ freeBlocks (initializePageFrameArray (2048 * 4096) blankBuddy) B :=
    ⟨_, _, initial_rep, mem_freeBlocks.mpr ((initial_rep.free 17 (by decide) 2048).mp (by decide))⟩
  rw [freePages_eq, PageAllocator.pool, hr.view_eq]
  constructor
  · have hcard := Block.card_pages ⟨2048, 17⟩
    rw [← hcard]
    apply Finset.card_le_card
    intro q hq
    exact mem_pagesOf.mpr ⟨_, hfree, hq⟩
  · intro q hq
    dsimp only at hq
    rw [hr.pool_eq, Finset.mem_sdiff, Finset.mem_Ico] at hq
    exact hq.1.1

end Pool

/-! ## §2  Trees of pages that were handed out -/

/-- The tables of the tree at `root` and the frames of `F` are apart, and none of them is
free. -/
structure PagesOwned (lo root : ℕ) (F : Set ℕ) (m : Machine) : Prop where
  buddy : BuddyOk lo m.buddy
  tree : PageTree TableOrPage m.ram root
  tables : ∀ q, 0 < pageRadix.tables m.ram 3 root q → q ∉ freePages m.buddy ∧ q ∉ F
  frames : ∀ q ∈ F, q ∉ freePages m.buddy

section PagesOwned

variable {lo root l0Table v e t : ℕ} {F : Set ℕ} {ram : ℕ → ℕ → Word} {m m' : Machine}

theorem PagesOwned.alloc (hm : PagesOwned lo root F m) (hlo : 2048 ≤ lo) {page : ℕ}
    (hrun : m.buddyAlloc pageSize = some (page, m')) (hne : page ≠ 0) :
    ∃ p ∈ freePages m.buddy, page = pageAddr p ∧ p < ramPages ∧ m'.ram = m.ram ∧
      freePages m'.buddy = (freePages m.buddy).erase p ∧
      PagesOwned lo root (insert p F) m' := by
  obtain ⟨hb, hram, hcases⟩ := Machine.buddyAlloc_page hm.buddy hlo hrun
  obtain ⟨p, hp, hpage, -, hlt, heq⟩ := hcases.resolve_left fun h => hne h.1
  refine ⟨p, hp, hpage, hlt, hram, heq, hb, hram ▸ hm.tree, fun q hq => ?_, fun q hq => ?_⟩
  · rw [hram] at hq
    obtain ⟨hfree, hF⟩ := hm.tables q hq
    refine ⟨fun h => hfree (Finset.mem_of_mem_erase (heq ▸ h)), ?_⟩
    rintro (rfl | h)
    · exact hfree hp
    · exact hF h
  · rw [heq, Finset.mem_erase, not_and]
    rintro hqp
    exact hm.frames q (hq.resolve_left hqp)

theorem nextTable_owned (hlo : 2048 ≤ lo)
    (hw : Walked TableOrPage root v (e + 1) t ram m.ram) (hm : PagesOwned lo root F m)
    (hreq : StepRequests (TableGranted (buddyAllocPt l0Table) root) t
      (pageRadix.digit (e + 1) v) m) {t' : ℕ}
    (hrun : nextTable (buddyAllocPt l0Table) t (pageRadix.digit (e + 1) v) m =
      some (t', m')) :
    Walked TableOrPage root v e t' ram m'.ram ∧ PagesOwned lo root F m' ∧
      freePages m'.buddy ⊆ freePages m.buddy := by
  by_cases hv : Pte.valid.get (m.ram t (pageRadix.digit (e + 1) v)) = 1
  · rw [nextTable_valid _ hw.table_lt hv, Option.some.injEq, Prod.mk.injEq] at hrun
    obtain ⟨rfl, rfl⟩ := hrun
    exact ⟨hw.follow hv (hw.form hv), hm, subset_rfl⟩
  obtain ⟨a, m1, halloc, hnew⟩ := hreq.resolve_left hv
  have hword := tableDescriptor_names hnew.lt
  rw [nextTable_granted hw.table_lt hnew.lt hv halloc, Option.some.injEq,
    Prod.mk.injEq] at hrun
  obtain ⟨rfl, rfl⟩ := hrun
  obtain ⟨hb, p, hp, hpage, hlt, hsub⟩ :=
    buddyAllocPt_pool hm.buddy hlo halloc (pageAddr_ne_zero hnew.lt)
  obtain rfl := pageAddr_inj hnew.lt hlt hpage
  have hshrink := hsub.trans (Finset.erase_subset _ _)
  have hw' := hw.enter tableOrPage_admits hv hnew hword
  refine ⟨hw', ⟨hb, hw'.tree, fun q hq => ?_, fun q hq h => ?_⟩, hshrink⟩
  · -- the tables are those before and the page entered
    rw [write_ram_eq, hw.enter_tables tableOrPage_admits hv hnew hword q] at hq
    by_cases hqa : q = a
    · subst hqa
      exact ⟨fun h => (Finset.mem_erase.mp (hsub h)).1 rfl, fun h => hm.frames q h hp⟩
    · rw [if_neg hqa, Nat.add_zero] at hq
      obtain ⟨hfree, hF⟩ := hm.tables q hq
      exact ⟨fun h => hfree (hshrink h), hF⟩
  · exact hm.frames q hq (hshrink h)

theorem PagesOwned.place {w : Word} (hm : PagesOwned lo root F m)
    (hw : Walked TableOrPage root v 0 t ram m.ram) (hvalid : Pte.valid.get w = 1)
    (htype : Pte.type.get w = 1) : PagesOwned lo root F (m.write t (pageRadix.digit 0 v) w) := by
  obtain ⟨htree, htables⟩ := hw.place (not_table_zero _) (page_leaf hvalid htype)
    (not_table_zero _) fun _ => htype
  refine ⟨hm.buddy, htree, fun q hq => ?_, hm.frames⟩
  rw [write_ram_eq, htables q] at hq
  exact hm.tables q hq

theorem mapPage_owned {va pa flags : ℕ} (hlo : 2048 ≤ lo) (hm : PagesOwned lo root F m)
    (hreq : PageRequests (buddyAllocPt l0Table) (TableGranted (buddyAllocPt l0Table) root)
      va root m)
    (hrun : mapPage (buddyAllocPt l0Table) va pa flags root m = some m') :
    PagesOwned lo root F m' ∧ freePages m'.buddy ⊆ freePages m.buddy := by
  obtain ⟨h0, h1, h2, h3⟩ := idx_eq va
  obtain ⟨l1, m1, l2, m2, l3, m3, hrun1, hrun2, hrun3, -⟩ :=
    walk_l3 tableOrPage_admits hm.tree (fun _ _ hform => hform) hreq
  obtain ⟨hreq0, hreq1⟩ := hreq
  obtain ⟨hreq1, hreq2⟩ := hreq1 l1 m1 hrun1
  have hreq2 := hreq2 l2 m2 hrun2
  have hrun1' := hrun1
  have hrun2' := hrun2
  have hrun3' := hrun3
  rw [h0] at hreq0 hrun1'
  rw [h1] at hreq1 hrun2'
  rw [h2] at hreq2 hrun3'
  obtain ⟨hw1, hm1, hsub1⟩ := nextTable_owned hlo (Walked.start hm.tree) hm hreq0 hrun1'
  obtain ⟨hw2, hm2, hsub2⟩ := nextTable_owned hlo hw1 hm1 hreq1 hrun2'
  obtain ⟨hw3, hm3, hsub3⟩ := nextTable_owned hlo hw2 hm2 hreq2 hrun3'
  have hsub := hsub3.trans (hsub2.trans hsub1)
  rw [mapPage_run hrun1 hrun2 hrun3 hw3.table_lt, Option.some.injEq] at hrun
  rw [← hrun]
  split_ifs
  · exact ⟨hm3, hsub⟩
  · obtain ⟨hleaf, htype⟩ := leafDescriptor_get flags pa (by decide : 1 < 2)
    rw [h3]
    exact ⟨hm3.place hw3 hleaf htype, hsub⟩

end PagesOwned

/-! ## §3  A kernel tree that maps everything -/

/-- Every entry of the kernel's L0 table leads back to the table itself, so that
`buddy_alloc_pt` finds every page mapped; the table is apart from the tree at `root`. There
are `k` free pages. -/
structure Supplied (lo l0Table root : ℕ) (F : Set ℕ) (k : ℕ) (m : Machine) : Prop where
  owned : PagesOwned lo root F m
  kernel : l0Table ∈ F ∧ l0Table < ramPages
  self : ∀ i, m.ram l0Table i = tableDescriptor l0Table
  enough : k ≤ (freePages m.buddy).card

section Supplied

variable {lo root l0Table v e t k : ℕ} {F : Set ℕ} {ram : ℕ → ℕ → Word} {m m' : Machine}

theorem mapPage_self (allocPt : Machine → Option (ℕ × Machine)) (hlt : l0Table < ramPages)
    (hself : ∀ i, m.ram l0Table i = tableDescriptor l0Table) (va pa flags : ℕ) :
    mapPage allocPt va pa flags l0Table m = some m := by
  have hname := tableDescriptor_names hlt
  have hstep : ∀ i, nextTable allocPt l0Table i m = some (l0Table, m) := by
    intro i
    rw [nextTable_valid allocPt hlt (hself i ▸ hname.valid), hself i, hname.address]
  rw [mapPage_run (hstep _) (hstep _) (hstep _) hlt, if_pos]
  rw [hself]
  exact hname.valid

/-- A page from `buddy_alloc_pt` where the kernel's table leads back to itself. -/
theorem buddyAllocPt_self (hb : BuddyOk lo m.buddy) (hlo : 2048 ≤ lo)
    (hlt : l0Table < ramPages) (hself : ∀ i, m.ram l0Table i = tableDescriptor l0Table)
    (hfree : (freePages m.buddy).Nonempty) :
    ∃ p b, buddyAlloc pageSize m.buddy = some (pageAddr p, b) ∧ buddyAllocPt l0Table m =
        some (pageAddr p, Machine.clearPage { m with buddy := b } p) ∧
      p ∈ freePages m.buddy ∧ p < ramPages ∧ freePages b = (freePages m.buddy).erase p := by
  obtain ⟨page, b, hrun, -, hcases⟩ := hb.alloc_page hlo
  rcases hcases with ⟨-, -, hempty⟩ | ⟨p, hp, hpage, -, hplt, heq⟩
  · exact absurd hempty hfree.ne_empty
  rw [hpage] at hrun
  refine ⟨p, b, hrun, ?_, hp, hplt, heq⟩
  have halloc : m.buddyAlloc pageSize = some (pageAddr p, { m with buddy := b }) := by
    rw [Machine.buddyAlloc, hrun, Option.map_some]
  have hself' : ∀ i, Machine.ram { m with buddy := b } l0Table i = tableDescriptor l0Table :=
    hself
  rw [buddyAllocPt, buddyAllocPtFuel_succ, halloc, Option.bind_some]
  dsimp only
  rw [if_neg (pageAddr_ne_zero hplt), map_page, mapPage_self _ hlt hself', Option.bind_some,
    vaToPa_pageAddr hplt]

theorem Supplied.mono {j : ℕ} (hm : Supplied lo l0Table root F k m) (hj : j ≤ k) :
    Supplied lo l0Table root F j m :=
  ⟨hm.owned, hm.kernel, hm.self, hj.trans hm.enough⟩

theorem Supplied.alloc (hm : Supplied lo l0Table root F (k + 1) m) (hlo : 2048 ≤ lo) :
    ∃ p b, m.buddyAlloc pageSize = some (pageAddr p, { m with buddy := b }) ∧
      p ∈ freePages m.buddy ∧ p < ramPages ∧ freePages b = (freePages m.buddy).erase p ∧
      Supplied lo l0Table root (insert p F) k { m with buddy := b } := by
  obtain ⟨page, b, hrun, -, hcases⟩ := hm.owned.buddy.alloc_page hlo
  have hpos : 0 < (freePages m.buddy).card := by
    have henough := hm.enough
    omega
  rcases hcases with ⟨-, -, hempty⟩ | ⟨p, hp, hpage, -, hlt, heq⟩
  · rw [hempty] at hpos
    exact absurd hpos (Nat.lt_irrefl 0)
  rw [hpage] at hrun
  have halloc : m.buddyAlloc pageSize = some (pageAddr p, { m with buddy := b }) := by
    rw [Machine.buddyAlloc, hrun, Option.map_some]
  obtain ⟨p', -, hpage, hlt', -, -, howned⟩ :=
    hm.owned.alloc hlo halloc (pageAddr_ne_zero hlt)
  obtain rfl := pageAddr_inj hlt hlt' hpage
  refine ⟨p, b, halloc, hp, hlt, heq, howned, ⟨Or.inr hm.kernel.1, hm.kernel.2⟩, hm.self, ?_⟩
  rw [heq, Finset.card_erase_of_mem hp]
  exact Nat.le_sub_one_of_lt hm.enough

theorem Supplied.allocPt (hm : Supplied lo l0Table root F (k + 1) m) (hlo : 2048 ≤ lo) :
    ∃ p b, buddyAllocPt l0Table m =
        some (pageAddr p, Machine.clearPage { m with buddy := b } p) ∧
      p ∈ freePages m.buddy ∧ p < ramPages ∧ freePages b = (freePages m.buddy).erase p := by
  obtain ⟨p, b, -, hrun⟩ := buddyAllocPt_self hm.owned.buddy hlo hm.kernel.2 hm.self
    (Finset.card_pos.mp (Nat.lt_of_lt_of_le (Nat.succ_pos k) hm.enough))
  exact ⟨p, b, hrun⟩

theorem Supplied.granted (hm : Supplied lo l0Table root F (k + 1) m) (hlo : 2048 ≤ lo) :
    TableGranted (buddyAllocPt l0Table) root m := by
  obtain ⟨p, b, hrun, hp, hlt, -⟩ := hm.allocPt hlo
  have hnot : ¬ 0 < pageRadix.tables m.ram 3 root p := fun h => (hm.owned.tables p h).1 hp
  refine ⟨p, _, hrun, hlt, Nat.eq_zero_of_not_pos hnot, fun i => ?_, fun q hq => ?_⟩
  · rw [Machine.clearPage_ram, if_pos rfl]
  · rw [Machine.clearPage_ram, if_neg]
    rintro rfl
    exact hnot hq

theorem nextTable_supplied (hlo : 2048 ≤ lo)
    (hw : Walked TableOrPage root v (e + 1) t ram m.ram)
    (hm : Supplied lo l0Table root F (k + 1) m) {t' : ℕ}
    (hrun : nextTable (buddyAllocPt l0Table) t (pageRadix.digit (e + 1) v) m =
      some (t', m')) :
    Walked TableOrPage root v e t' ram m'.ram ∧ Supplied lo l0Table root F k m' := by
  obtain ⟨hw', howned, -⟩ := nextTable_owned hlo hw hm.owned (Or.inr (hm.granted hlo)) hrun
  refine ⟨hw', ?_⟩
  rcases nextTable_cases hrun with ⟨-, -, rfl⟩ | ⟨-, page, m1, w, halloc, rfl⟩
  · exact hm.mono (Nat.le_succ k)
  obtain ⟨p, b, hrun', hp, -, heq⟩ := hm.allocPt hlo
  rw [hrun', Option.some.injEq, Prod.mk.injEq] at halloc
  obtain ⟨-, rfl⟩ := halloc
  have hpne : l0Table ≠ p := fun h => hm.owned.frames _ hm.kernel.1 (h ▸ hp)
  have htne : l0Table ≠ t := fun h => (hm.owned.tables _ (h ▸ hw.reaches.tables_pos)).2 hm.kernel.1
  refine ⟨howned, hm.kernel, fun i => ?_, ?_⟩
  · rw [Machine.write_ram_ne _ w htne, Machine.clearPage_ram, if_neg hpne]
    exact hm.self i
  · show k ≤ (freePages b).card
    rw [heq, Finset.card_erase_of_mem hp]
    exact Nat.le_sub_one_of_lt hm.enough

theorem Supplied.page {va : ℕ} (hlo : 2048 ≤ lo)
    (hm : Supplied lo l0Table root F (k + 3) m) :
    PageRequests (buddyAllocPt l0Table) (TableGranted (buddyAllocPt l0Table) root)
      va root m := by
  obtain ⟨h0, h1, h2, -⟩ := idx_eq va
  refine ⟨Or.inr (hm.granted hlo), ?_⟩
  intro l1 m1 hrun1
  rw [h0] at hrun1
  obtain ⟨hw1, hm1⟩ := nextTable_supplied hlo (Walked.start hm.owned.tree) hm hrun1
  refine ⟨Or.inr (hm1.granted hlo), ?_⟩
  intro l2 m2 hrun2
  rw [h1] at hrun2
  obtain ⟨-, hm2⟩ := nextTable_supplied hlo hw1 hm1 hrun2
  exact Or.inr (hm2.granted hlo)

theorem mapPage_supplied {va pa flags : ℕ} (hlo : 2048 ≤ lo)
    (hm : Supplied lo l0Table root F (k + 3) m)
    (hrun : mapPage (buddyAllocPt l0Table) va pa flags root m = some m') :
    Supplied lo l0Table root F k m' := by
  have howned := (mapPage_owned hlo hm.owned (hm.page hlo) hrun).1
  obtain ⟨h0, h1, h2, h3⟩ := idx_eq va
  obtain ⟨l1, m1, l2, m2, l3, m3, hrun1, hrun2, hrun3, -⟩ :=
    walk_l3 tableOrPage_admits hm.owned.tree (fun _ _ hform => hform) (hm.page hlo)
  have hrun1' := hrun1
  have hrun2' := hrun2
  have hrun3' := hrun3
  rw [h0] at hrun1'
  rw [h1] at hrun2'
  rw [h2] at hrun3'
  obtain ⟨hw1, hm1⟩ := nextTable_supplied hlo (Walked.start hm.owned.tree) hm hrun1'
  obtain ⟨hw2, hm2⟩ := nextTable_supplied hlo hw1 hm1 hrun2'
  obtain ⟨hw3, hm3⟩ := nextTable_supplied hlo hw2 hm2 hrun3'
  rw [mapPage_run hrun1 hrun2 hrun3 hw3.table_lt, Option.some.injEq] at hrun
  subst hrun
  split_ifs at howned ⊢
  · exact hm3
  · have hne : l0Table ≠ l3 := fun h =>
      (hm3.owned.tables _ (h ▸ hw3.reaches.tables_pos)).2 hm.kernel.1
    refine ⟨howned, hm.kernel, fun i => ?_, hm3.enough⟩
    rw [Machine.write_ram_ne _ _ hne]
    exact hm3.self i

end Supplied

/-! ## §4  A machine to start from -/

structure EmptyTree (lo root : ℕ) (m : Machine) : Prop where
  buddy : BuddyOk lo m.buddy
  inRam : root < ramPages
  taken : root ∉ freePages m.buddy
  blank : ∀ i, m.ram root i = 0

section Empty

variable {lo root : ℕ} {F : Set ℕ} {m : Machine}

theorem EmptyTree.owned (hm : EmptyTree lo root m)
    (hF : ∀ q ∈ F, q ≠ root ∧ q ∉ freePages m.buddy) : PagesOwned lo root F m := by
  obtain ⟨htree, htables, -⟩ := PageTree.blank tableOrPage_admits hm.inRam hm.blank
  refine ⟨hm.buddy, htree, fun q hq => ?_, fun q hq => (hF q hq).2⟩
  rw [htables q] at hq
  by_cases hqr : q = root
  · rw [hqr]
    exact ⟨hm.taken, fun h => (hF root h).1 rfl⟩
  · rw [if_neg hqr] at hq
    exact absurd hq (Nat.lt_irrefl 0)

theorem EmptyTree.unmapped (hm : EmptyTree lo root m) (x : ℕ) :
    pageRadix.lookup m.ram 3 root x = none :=
  (PageTree.blank tableOrPage_admits hm.inRam hm.blank).2.2 x

end Empty

/-- The first 2048 pages are reserved: page 5 is a kernel table whose entries all lead back
to it, page 6 is blank. -/
def loaderMachine : Machine where
  buddy := initializePageFrameArray (2048 * 4096) blankBuddy
  ram p _ := if p = 5 then tableDescriptor 5 else 0
  stores := []

theorem loaderMachine_free :
    2 ^ 17 ≤ (freePages loaderMachine.buddy).card ∧
      ∀ q ∈ freePages loaderMachine.buddy, 2048 ≤ q :=
  initial_pool

theorem loaderMachine_empty : EmptyTree 2048 6 loaderMachine where
  buddy := initial_rep.ok
  inRam := by decide
  taken h := absurd (loaderMachine_free.2 6 h) (by decide)
  blank _ := by simp [loaderMachine]

theorem loaderMachine_supplied : Supplied 2048 5 6 {5} (2 ^ 17) loaderMachine where
  owned := loaderMachine_empty.owned fun q hq => by
    rw [Set.mem_singleton_iff.mp hq]
    exact ⟨by decide, fun h => absurd (loaderMachine_free.2 5 h) (by decide)⟩
  kernel := ⟨Set.mem_singleton 5, by decide⟩
  self _ := by simp [loaderMachine]
  enough := loaderMachine_free.1

end Rpos
