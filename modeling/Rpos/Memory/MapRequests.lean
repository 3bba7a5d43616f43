import Rpos.Memory.PagePool

/-!
# The table pages of `map`

What a call of `map` or `map_pages` does to the tree it works on, with the pages that
`buddy_alloc_pt` hands out. `buddy_alloc_pt` maps the page it takes on the kernel's tables
first. Under a block descriptor of the linear map this takes the first page of the block
for a table and stores a descriptor there, whatever that page is used for: if it is a table
of the tree, an entry of the tree has changed.
-/

namespace Rpos

open Base

/-! ## §1  What a request stores -/

section Request

variable {R l0Table root q : ℕ} {m : Machine} {b : Buddy}

/-- The descriptor that `buddy_alloc_pt` enters on the kernel's tables. -/
def linearDescriptor (q : ℕ) : Word :=
  pageDescriptor (mapKernel ||| mapRead ||| mapWrite) (vaToPa (pageAddr q))

theorem linearDescriptor_valid (q : ℕ) : Pte.valid.get (linearDescriptor q) = 1 :=
  (leafDescriptor_get _ _ (by decide : 1 < 2)).1

theorem linearDescriptor_names (hlt : q < ramPages) : NamesTable q (linearDescriptor q) := by
  obtain ⟨hvalid, htype⟩ := leafDescriptor_get (mapKernel ||| mapRead ||| mapWrite)
    (vaToPa (pageAddr q)) (by decide : 1 < 2)
  refine ⟨hvalid, htype, ?_⟩
  rw [linearDescriptor, pageDescriptor, vaToPa_pageAddr hlt]
  exact address_get_set _ (Nat.lt_of_lt_of_le hlt (by decide))

/-- A request under the linear map: the page is cleared, after a store to the first page
of its block if the walk for it does not find it. -/
theorem KernelOk.buddyAllocPt_eq (hm : KernelOk R l0Table m) (hR : R ≤ ramPages)
    (halloc : buddyAlloc pageSize m.buddy = some (pageAddr q, b)) (hq : R ≤ q)
    (hlt : q < ramPages) :
    buddyAllocPt l0Table m = some (pageAddr q, Machine.clearPage
      (if FindsPage m.ram l0Table (pageAddr q) then { m with buddy := b }
        else Machine.write { m with buddy := b } (blockBase q) (q % 512)
          (linearDescriptor q)) q) := by
  have hmachine : m.buddyAlloc pageSize = some (pageAddr q, { m with buddy := b }) := by
    rw [Machine.buddyAlloc, halloc, Option.map_some]
  have hwalks : LinearWalks R (TablePage m.ram l0Table)
      (Machine.ram { m with buddy := b }) l0Table := hm.tree.ownWalks
  rw [buddyAllocPt, buddyAllocPtFuel_succ, hmachine, Option.bind_some]
  dsimp only
  rw [if_neg (pageAddr_ne_zero hlt), map_page, hwalks.mapPage_eq _ hR hq hlt,
    Option.bind_some, vaToPa_pageAddr hlt]
  rfl

/-- A request for a page outside the tree leaves the tree's tables alone exactly when the
walk for the page finds it, or the first page of its block is no table of the tree. -/
theorem sparesTree_iff (hm : KernelOk R l0Table m) (hR : R ≤ ramPages)
    (halloc : buddyAlloc pageSize m.buddy = some (pageAddr q, b)) (hq : R ≤ q)
    (hlt : q < ramPages) (hout : pageRadix.tables m.ram 3 root q = 0) :
    SparesTree (buddyAllocPt l0Table) root m ↔
      FindsPage m.ram l0Table (pageAddr q) ∨
        pageRadix.tables m.ram 3 root (blockBase q) = 0 := by
  have hrun := hm.buddyAllocPt_eq hR halloc hq hlt
  have hne : ∀ t, 0 < pageRadix.tables m.ram 3 root t → t ≠ q := by
    rintro t ht rfl
    exact Nat.ne_of_gt ht hout
  by_cases hf : FindsPage m.ram l0Table (pageAddr q)
  · rw [if_pos hf] at hrun
    refine iff_of_true (fun page m' hrun' t ht => ?_) (Or.inl hf)
    rw [hrun, Option.some.injEq, Prod.mk.injEq] at hrun'
    rw [← hrun'.2, Machine.clearPage_ram, if_neg (hne t ht)]
  · rw [if_neg hf] at hrun
    rw [or_iff_right hf]
    constructor
    · intro hspare
      by_contra hpos
      have hpos' := Nat.pos_of_ne_zero hpos
      -- the word had bit 0 clear
      have hkept := congrFun (hspare _ _ hrun _ hpos') (q % 512)
      rw [Machine.clearPage_ram, if_neg (hne _ hpos'), Machine.write_ram,
        if_pos ⟨rfl, rfl⟩] at hkept
      have hbase := hm.tree.ownWalks.blockBase_of_not_finds hq hlt hf
      refine hf ((hm.tree.ownWalks.finds_iff hbase hlt).mpr ?_)
      rw [← hkept]
      exact linearDescriptor_valid q
    · intro hzero page m' hrun' t ht
      rw [hrun, Option.some.injEq, Prod.mk.injEq] at hrun'
      have htb : t ≠ blockBase q := by
        rintro rfl
        exact Nat.ne_of_gt ht hzero
      rw [← hrun'.2, Machine.clearPage_ram, if_neg (hne t ht), Machine.write_ram_ne _ _ htb]

end Request

/-! ## §2  Enough pages -/

section Enough

variable {lo l0Table root va k : ℕ} {F : Set ℕ} {m : Machine}

theorem Supplied.pages (flags : ℕ) (hlo : 2048 ≤ lo) (n : ℕ) :
    ∀ (va pa : ℕ) (m : Machine), Supplied lo l0Table root F (3 * n) m →
      PagesRequests (buddyAllocPt l0Table) (TableGranted (buddyAllocPt l0Table) root) flags
        root n va pa m := by
  induction n with
  | zero => exact fun _ _ _ _ => trivial
  | succ n ih =>
      intro va pa m hm
      exact ⟨hm.page hlo, fun m' hrun => ih _ _ m' (mapPage_supplied hlo hm hrun)⟩

theorem Supplied.block (hlo : 2048 ≤ lo) (hm : Supplied lo l0Table root F (k + 2) m) :
    BlockRequests (buddyAllocPt l0Table) (TableGranted (buddyAllocPt l0Table) root) va
      root m := by
  obtain ⟨h0, -⟩ := idx_eq va
  refine ⟨Or.inr (hm.granted hlo), fun l1 m1 hrun1 => ?_⟩
  rw [h0] at hrun1
  exact Or.inr ((nextTable_supplied hlo (Walked.start hm.owned.tree) hm hrun1).2.granted hlo)

end Enough

/-! ## §3  `map_pages` -/

/-- `map_pages` maps the unmapped pages of its range and leaves all other translations as
they are, if its requests are granted and none of them stores to a table of the tree. -/
theorem mapPages_extends {l0Table root va n pa flags : ℕ} {m : Machine}
    (ht : PageTree TableOrPage m.ram root) (hva : va % pageSize = 0) (hpa : pa % pageSize = 0)
    (hvend : va + n * pageSize ≤ 2 ^ 48) (hpend : pa + n * pageSize ≤ 2 ^ 48)
    (hfresh : PagesRequests (buddyAllocPt l0Table) (FreshGranted (buddyAllocPt l0Table) root)
      flags root n va pa m)
    (hspare : PagesRequests (buddyAllocPt l0Table) (SparesTree (buddyAllocPt l0Table) root)
      flags root n va pa m) :
    ∃ m', mapPages (buddyAllocPt l0Table) flags root n va pa m = some m' ∧
      PageTree TableOrPage m'.ram root ∧
      ∀ x < 2 ^ 48, translate m'.ram root x =
        if (va ≤ x ∧ x < va + n * pageSize) ∧ translate m.ram root x = none then
          some (pa + (x - va), parseBlockFlags flags 1)
        else translate m.ram root x :=
  mapPages_translate ht hva hpa hvend hpend
    (PagesRequests.imp₂ (fun _ => FreshGranted.table) n va pa m hfresh hspare)

/-- Two pages across a 2 MiB boundary. -/
theorem mapPages_extends_example :
    ∃ m', mapPages (buddyAllocPt 5) mapKernel 6 2 0x1FF000 0x5000 loaderMachine = some m' ∧
      PageTree TableOrPage m'.ram 6 ∧
      ∀ x < 2 ^ 48, translate m'.ram 6 x =
        if (0x1FF000 ≤ x ∧ x < 0x1FF000 + 2 * pageSize) ∧
            translate loaderMachine.ram 6 x = none then
          some (0x5000 + (x - 0x1FF000), parseBlockFlags mapKernel 1)
        else translate loaderMachine.ram 6 x :=
  have hreq := Supplied.pages mapKernel (by decide) 2 0x1FF000 0x5000 loaderMachine
    (loaderMachine_supplied.mono (by decide))
  mapPages_extends loaderMachine_supplied.owned.tree (by decide) (by decide) (by decide)
    (by decide) (hreq.imp fun _ => TableGranted.fresh) (hreq.imp fun _ => TableGranted.spares)

/-! A tree whose table of level 2 is the first page of a 2 MiB block. -/

/-- The orders of the blocks that the first pages are split from. -/
def blockOrders : List ℕ := [12, 0, 1, 0, 2, 0, 1, 0]

/-- The free lists when the first `g` pages of the first block have been granted. -/
def blockLists : ℕ → ℕ → List ℕ
  | 0 => smallLists
  | g + 1 => grantLists (258048 + g) 0 (blockOrders.getD g 0) (blockLists g)

/-- The first `g` pages of the first block have been granted. -/
structure BlockGrants (g : ℕ) (b : Buddy) : Prop where
  rep : ∃ B, BuddyRep 4096 ramPages b B (blockLists g)
  taken : ∀ j < g, 258048 + j ∉ freePages b

section BlockGrants

variable {g : ℕ} {b : Buddy}

theorem BlockGrants.ok (h : BlockGrants g b) : BuddyOk 4096 b := h.rep.elim fun _ hr => hr.ok

theorem BlockGrants.start (b : Buddy) :
    BlockGrants 0 (initializePageFrameArray smallLayout.reservedMemory b) := by
  have hr := initializePageFrameArray_rep b
    (show 0 < reservedPages smallLayout.reservedMemory by decide) (by decide)
  rw [smallLayout_reserved] at hr
  exact ⟨⟨_, hr⟩, fun j hj => absurd hj (Nat.not_lt_zero j)⟩

theorem blockLists_next : ∀ g < 8, blockOrders.getD g 0 ≤ maxOrder ∧
    (∀ j < blockOrders.getD g 0, blockLists g j = []) ∧
      blockLists g (blockOrders.getD g 0) = [258048 + g] := by
  decide

theorem BlockGrants.next (h : BlockGrants g b) (hg : g < 8) :
    ∃ b', buddyAlloc pageSize b = some (pageAddr (258048 + g), b') ∧ BlockGrants (g + 1) b' := by
  obtain ⟨B, hr⟩ := h.rep
  obtain ⟨horder, hempty, hfirst⟩ := blockLists_next g hg
  obtain ⟨b', hrun, hr', -⟩ := buddyAlloc_page hr horder hempty hfirst
  have hlt : 258048 + g < ramPages :=
    Nat.lt_of_lt_of_le (Nat.add_lt_add_left hg 258048) (by decide)
  obtain ⟨page, b₁, hrun₁, -, hcases⟩ := h.ok.alloc_page (by decide)
  rw [hrun, Option.some.injEq, Prod.mk.injEq] at hrun₁
  obtain ⟨hpage, rfl⟩ := hrun₁
  refine ⟨b', hrun, ⟨_, hr'⟩, fun j hj hfree => ?_⟩
  rcases hcases with ⟨hzero, -⟩ | ⟨p, -, hp, -, hplt, herase⟩
  · exact absurd (hpage.trans hzero) (pageAddr_ne_zero hlt)
  have hsame : 258048 + g = p := pageAddr_inj hlt hplt (hpage.trans hp)
  rw [herase, ← hsame, Finset.mem_erase] at hfree
  exact h.taken j (by omega) hfree.2

end BlockGrants

theorem buddyAlloc_four (b : Buddy) :
    ∃ b1 b2 b3 b4, buddyAlloc pageSize
        (initializePageFrameArray smallLayout.reservedMemory b) =
          some (pageAddr 258048, b1) ∧
      buddyAlloc pageSize b1 = some (pageAddr 258049, b2) ∧
      buddyAlloc pageSize b2 = some (pageAddr 258050, b3) ∧ BlockGrants 3 b3 ∧
      buddyAlloc pageSize b3 = some (pageAddr 258051, b4) ∧ BlockGrants 4 b4 := by
  obtain ⟨b1, hb1, h1⟩ := (BlockGrants.start b).next (by decide)
  obtain ⟨b2, hb2, h2⟩ := h1.next (by decide)
  obtain ⟨b3, hb3, h3⟩ := h2.next (by decide)
  obtain ⟨b4, hb4, h4⟩ := h3.next (by decide)
  exact ⟨b1, b2, b3, b4, hb1, hb2, hb3, h3, hb4, h4⟩

/-- The boot's tables; the other pages hold nothing, but for two tables that lead to the
page 258048. -/
def blockTreeRam : ℕ → ℕ → Word :=
  let blank := fun p k =>
    if p < 4096 then (bootMachine smallLayout (fun _ _ => 0) blankBuddy).ram p k else 0
  Radix.setWord (Radix.setWord blank 258049 0 (tableDescriptor 258050)) 258050 0
    (tableDescriptor 258048)

/-- The tree at page 258049, with the pages up to 258050 granted. -/
def blockTreeMachine (b : Buddy) : Machine := ⟨b, blockTreeRam, []⟩

theorem blockTree_walked : ∃ ram, Walked TableOrPage 258049 0 1 258048 ram blockTreeRam ∧
    (∀ x, pageRadix.lookup ram 3 258049 x = none) ∧
    ∀ q, pageRadix.tables blockTreeRam 3 258049 q =
      (if q = 258049 then 1 else 0) + (if q = 258050 then 1 else 0) +
        if q = 258048 then 1 else 0 := by
  set blank : ℕ → ℕ → Word := fun p k =>
    if p < 4096 then (bootMachine smallLayout (fun _ _ => 0) blankBuddy).ram p k else 0
    with hblank
  have hzero : ∀ p, 4096 ≤ p → ∀ i, blank p i = 0 := fun p hp i => if_neg (by omega)
  obtain ⟨htree, htables, hlook⟩ := PageTree.blank tableOrPage_admits
    (by decide : 258049 < ramPages) (hzero 258049 (by decide))
  have hw := Walked.start (v := 0) htree
  have hnew : NewTable 258049 258050 blank blank :=
    ⟨by decide, by rw [htables, if_neg (by decide)], hzero _ (by decide), fun _ _ => rfl⟩
  have hname := tableDescriptor_names (by decide : 258050 < ramPages)
  have hv : Pte.valid.get (blank 258049 (pageRadix.digit (2 + 1) 0)) ≠ 1 := by
    rw [hzero _ (by decide)]
    decide
  have hw' := hw.enter tableOrPage_admits hv hnew hname
  have htables' := hw.enter_tables tableOrPage_admits hv hnew hname
  set ram1 := Radix.setWord blank 258049 (pageRadix.digit (2 + 1) 0) (tableDescriptor 258050)
    with hram1
  have hzero1 : ∀ p, 4096 ≤ p → p ≠ 258049 → ∀ i, ram1 p i = 0 := by
    intro p hp hne i
    rw [hram1, Radix.setWord_page _ _ hne]
    exact hzero p hp i
  have hnew' : NewTable 258049 258048 ram1 ram1 := by
    refine ⟨by decide, ?_, hzero1 _ (by decide) (by decide), fun _ _ => rfl⟩
    rw [htables', htables, if_neg (by decide), if_neg (by decide)]
  have hname' := tableDescriptor_names (by decide : 258048 < ramPages)
  have hv' : Pte.valid.get (ram1 258050 (pageRadix.digit (1 + 1) 0)) ≠ 1 := by
    rw [hzero1 _ (by decide) (by decide)]
    decide
  refine ⟨blank, hw'.enter tableOrPage_admits hv' hnew' hname', hlook, fun q => ?_⟩
  rw [← htables q, ← htables' q]
  exact hw'.enter_tables tableOrPage_admits hv' hnew' hname' q

theorem blockTree_kernel {b : Buddy} (hb : BuddyOk 4096 b) :
    KernelOk 4096 smallRoot (blockTreeMachine b) := by
  have htree := (bootMachine_ok smallLayout_ok (fun _ _ => 0) blankBuddy).tree
  rw [smallLayout_reserved] at htree
  refine ⟨hb, htree.congr fun p hp => ?_⟩
  show blockTreeRam p = _
  rw [blockTreeRam, Radix.setWord_page _ _ (by omega : p ≠ 258050),
    Radix.setWord_page _ _ (by omega : p ≠ 258049)]
  funext k
  exact if_pos hp

/-- A tree whose table of level 2 is page 258048, the first page of a block, and whose next
page is 258051, of the same block. -/
structure BlockTree (b b' : Buddy) : Prop where
  buddy : BuddyOk 4096 b
  next : buddyAlloc pageSize b = some (pageAddr 258051, b')

section BlockTree

variable {b b' : Buddy}

theorem blockTree_blank (k : ℕ) : blockTreeRam 258048 k = 0 := by
  rw [blockTreeRam, Radix.setWord_page _ _ (by decide), Radix.setWord_page _ _ (by decide)]
  exact if_neg (by decide)

/-- The request for the table of level 3 stores a descriptor to the table of level 2. -/
theorem BlockTree.request (h : BlockTree b b') :
    buddyAllocPt smallRoot (blockTreeMachine b) = some (pageAddr 258051,
      Machine.clearPage (Machine.write ⟨b', blockTreeRam, []⟩ 258048 3
        (linearDescriptor 258051)) 258051) := by
  have hm := blockTree_kernel h.buddy
  have hf : ¬ FindsPage (blockTreeMachine b).ram smallRoot (pageAddr 258051) := by
    rw [hm.tree.ownWalks.finds_iff (by decide) (by decide)]
    show ¬ Pte.valid.get (blockTreeRam 258048 3) = 1
    rw [blockTree_blank]
    decide
  rw [hm.buddyAllocPt_eq (by decide) h.next (by decide) (by decide), if_neg hf]
  rfl

theorem blockTree_entries :
    blockTreeRam 258049 0 = tableDescriptor 258050 ∧
      blockTreeRam 258050 0 = tableDescriptor 258048 := by
  constructor
  · rw [blockTreeRam, Radix.setWord_page _ _ (by decide), Radix.setWord_self]
  · rw [blockTreeRam, Radix.setWord_self]

theorem BlockTree.walk (h : BlockTree b b') :
    nextTable (buddyAllocPt smallRoot) 258049 (idx0 0) (blockTreeMachine b) =
        some (258050, blockTreeMachine b) ∧
      nextTable (buddyAllocPt smallRoot) 258050 (idx1 0) (blockTreeMachine b) =
        some (258048, blockTreeMachine b) ∧
      nextTable (buddyAllocPt smallRoot) 258048 (idx2 0) (blockTreeMachine b) =
        some (258051, Machine.write (Machine.clearPage (Machine.write ⟨b', blockTreeRam, []⟩
          258048 3 (linearDescriptor 258051)) 258051) 258048 0 (tableDescriptor 258051)) := by
  obtain ⟨he0, he1⟩ := blockTree_entries
  have hn0 := tableDescriptor_names (by decide : 258050 < ramPages)
  have hn1 := tableDescriptor_names (by decide : 258048 < ramPages)
  have hv0 : Pte.valid.get ((blockTreeMachine b).ram 258049 0) = 1 := by
    show Pte.valid.get (blockTreeRam 258049 0) = 1
    rw [he0, hn0.valid]
  have hv1 : Pte.valid.get ((blockTreeMachine b).ram 258050 0) = 1 := by
    show Pte.valid.get (blockTreeRam 258050 0) = 1
    rw [he1, hn1.valid]
  have hv2 : Pte.valid.get ((blockTreeMachine b).ram 258048 0) ≠ 1 := by
    show Pte.valid.get (blockTreeRam 258048 0) ≠ 1
    rw [blockTree_blank]
    decide
  refine ⟨?_, ?_, ?_⟩
  · refine (nextTable_valid (buddyAllocPt smallRoot) (by decide) hv0).trans ?_
    rw [show (blockTreeMachine b).ram 258049 0 = _ from he0, hn0.address]
  · refine (nextTable_valid (buddyAllocPt smallRoot) (by decide) hv1).trans ?_
    rw [show (blockTreeMachine b).ram 258050 0 = _ from he1, hn1.address]
  · exact nextTable_granted (by decide) (by decide) hv2 h.request

/-- The address 0x600000, which the call does not name, is mapped by it. -/
theorem BlockTree.strays (h : BlockTree b b') :
    ∃ m', mapPages (buddyAllocPt smallRoot) mapKernel 258049 1 0 0x5000 (blockTreeMachine b) =
        some m' ∧ translate (blockTreeMachine b).ram 258049 0x600000 = none ∧
      translate m'.ram 258049 0x600000 ≠ none := by
  obtain ⟨hrun1, hrun2, hrun3⟩ := h.walk
  obtain ⟨ram, hw, hnone, -⟩ := blockTree_walked
  obtain ⟨he0, he1⟩ := blockTree_entries
  set m3 := Machine.write (Machine.clearPage (Machine.write ⟨b', blockTreeRam, []⟩
    258048 3 (linearDescriptor 258051)) 258051) 258048 0 (tableDescriptor 258051) with hm3
  have hinvalid : ¬ Pte.valid.get (m3.ram 258051 (idx3 0)) = 1 := by
    rw [hm3, Machine.write_ram_ne _ _ (by decide), Machine.clearPage_ram, if_pos rfl]
    decide
  have hpage := mapPage_run hrun1 hrun2 hrun3 (by decide) 0x5000 mapKernel
  rw [if_neg hinvalid] at hpage
  set m' := m3.write 258051 (idx3 0) (leafDescriptor mapKernel 1 0x5000) with hm'
  refine ⟨m', ?_, ?_, ?_⟩
  · rw [mapPages, hpage]
    rfl
  · rw [translate, Option.map_eq_none_iff]
    exact (hw.lookup _).trans (hnone _)
  · -- the walk goes through the entry that the request has stored
    have hn0 := tableDescriptor_names (by decide : 258050 < ramPages)
    have hn1 := tableDescriptor_names (by decide : 258048 < ramPages)
    have hn2 := linearDescriptor_names (by decide : 258051 < ramPages)
    obtain ⟨hvalid, htype⟩ := leafDescriptor_get mapKernel 0x5000 (by decide : 1 < 2)
    have hram : ∀ p, p ≠ 258051 → p ≠ 258048 → m'.ram p = blockTreeRam p := by
      intro p hp hp'
      rw [hm', Machine.write_ram_ne _ _ hp, hm3, Machine.write_ram_ne _ _ hp',
        Machine.clearPage_ram, if_neg hp, Machine.write_ram_ne _ _ hp']
    have h0 : m'.ram 258049 0 = tableDescriptor 258050 := by
      rw [hram _ (by decide) (by decide), he0]
    have h1 : m'.ram 258050 0 = tableDescriptor 258048 := by
      rw [hram _ (by decide) (by decide), he1]
    have h2 : m'.ram 258048 3 = linearDescriptor 258051 := by
      rw [hm', Machine.write_ram_ne _ _ (by decide), hm3, Machine.write_ram,
        if_neg (by decide), Machine.clearPage_ram, if_neg (by decide), Machine.write_ram,
        if_pos ⟨rfl, rfl⟩]
    have h3 : m'.ram 258051 0 = leafDescriptor mapKernel 1 0x5000 := by
      rw [hm', Machine.write_ram, if_pos ⟨rfl, rfl⟩]
    have hlook : pageRadix.lookup m'.ram 3 258049 (0x600000 / pageSize) =
        some (0, leafDescriptor mapKernel 1 0x5000) := by
      show pageRadix.follow m'.ram 3 (m'.ram 258049 0) (0x600000 / pageSize) = _
      rw [h0, Radix.follow_table (table_intro 2 hn0.valid hn0.type)]
      show pageRadix.lookup m'.ram 2 (Pte.address.get (tableDescriptor 258050)) _ = _
      rw [hn0.address]
      show pageRadix.follow m'.ram 2 (m'.ram 258050 0) _ = _
      rw [h1, Radix.follow_table (table_intro 1 hn1.valid hn1.type)]
      show pageRadix.lookup m'.ram 1 (Pte.address.get (tableDescriptor 258048)) _ = _
      rw [hn1.address]
      show pageRadix.follow m'.ram 1 (m'.ram 258048 3) _ = _
      rw [h2, Radix.follow_table (table_intro 0 hn2.valid hn2.type)]
      show pageRadix.lookup m'.ram 0 (Pte.address.get (linearDescriptor 258051)) _ = _
      rw [hn2.address]
      show pageRadix.follow m'.ram 0 (m'.ram 258051 0) _ = _
      rw [h3, Radix.follow_leaf (page_leaf hvalid htype) (not_table_zero _)]
    rw [translate, hlook]
    exact Option.some_ne_none _

theorem BlockTree.fresh (h : BlockTree b b') :
    PagesRequests (buddyAllocPt smallRoot) (FreshGranted (buddyAllocPt smallRoot) 258049)
      mapKernel 258049 1 0 0x5000 (blockTreeMachine b) := by
  obtain ⟨hrun1, hrun2, -⟩ := h.walk
  obtain ⟨-, -, -, htables⟩ := blockTree_walked
  obtain ⟨he0, he1⟩ := blockTree_entries
  refine ⟨⟨Or.inl ?_, fun l1 m1 hrun => ?_⟩, fun _ _ => trivial⟩
  · show Pte.valid.get (blockTreeRam 258049 0) = 1
    rw [he0, (tableDescriptor_names (by decide)).valid]
  rw [hrun1, Option.some.injEq, Prod.mk.injEq] at hrun
  obtain ⟨rfl, rfl⟩ := hrun
  refine ⟨Or.inl ?_, fun l2 m2 hrun => Or.inr ?_⟩
  · show Pte.valid.get (blockTreeRam 258050 0) = 1
    rw [he1, (tableDescriptor_names (by decide)).valid]
  rw [hrun2, Option.some.injEq, Prod.mk.injEq] at hrun
  obtain ⟨rfl, rfl⟩ := hrun
  refine ⟨258051, _, h.request, by decide, ?_, fun i => ?_⟩
  · show pageRadix.tables blockTreeRam 3 258049 258051 = 0
    rw [htables]
    decide
  · rw [Machine.clearPage_ram, if_pos rfl]

end BlockTree

/-- Under the boot's map, where the next page of the allocator lies in the block whose first
page is the tree's table of level 2: the request is granted a fresh page, and maps an
address that the call does not name. -/
theorem mapPages_strays :
    ∃ b1 b2 b b', buddyAlloc pageSize (bootMachine smallLayout (fun _ _ => 0) blankBuddy).buddy =
          some (pageAddr 258048, b1) ∧
      buddyAlloc pageSize b1 = some (pageAddr 258049, b2) ∧
      buddyAlloc pageSize b2 = some (pageAddr 258050, b) ∧ BlockTree b b' ∧
      KernelOk 4096 smallRoot (blockTreeMachine b) ∧
      PageTree TableOrPage (blockTreeMachine b).ram 258049 ∧
      PagesRequests (buddyAllocPt smallRoot) (FreshGranted (buddyAllocPt smallRoot) 258049)
        mapKernel 258049 1 0 0x5000 (blockTreeMachine b) ∧
      ∃ m', mapPages (buddyAllocPt smallRoot) mapKernel 258049 1 0 0x5000
          (blockTreeMachine b) = some m' ∧
        translate (blockTreeMachine b).ram 258049 0x600000 = none ∧
        translate m'.ram 258049 0x600000 ≠ none := by
  obtain ⟨b1, b2, b, b', hb1, hb2, hb, h3, hnext, -⟩ := buddyAlloc_four blankBuddy
  have h : BlockTree b b' := ⟨h3.ok, hnext⟩
  obtain ⟨ram, hw, -⟩ := blockTree_walked
  exact ⟨b1, b2, b, b', bootMachine_buddy smallLayout _ _ ▸ hb1, hb2, hb, h,
    blockTree_kernel h3.ok, hw.tree, h.fresh, h.strays⟩

/-! ## §4  `map` -/

/-- The block path of `map` gives every virtual address the access that `map_pages` gives
it exactly when the paths agree on every page of the range, if the requests of both are
granted and none of them stores to a table of the tree. -/
theorem map_agrees_iff {l0Table root va pa blockOrder : ℕ} {m : Machine}
    (ht : PageTree TableOrPage m.ram root) (hva : va % blockSize = 0)
    (hpa : pa % pageSize = 0) (h9 : 9 ≤ blockOrder) (h18 : blockOrder ≤ 18) (flags : ℕ)
    (hblocks : BlocksRequests (buddyAllocPt l0Table) (FreshGranted (buddyAllocPt l0Table) root)
      flags root (2 ^ (blockOrder - 9)) va pa m)
    (hpages : PagesRequests (buddyAllocPt l0Table) (FreshGranted (buddyAllocPt l0Table) root)
      flags root (2 ^ blockOrder) va pa m)
    (hspareBlocks : BlocksRequests (buddyAllocPt l0Table)
      (SparesTree (buddyAllocPt l0Table) root) flags root (2 ^ (blockOrder - 9)) va pa m)
    (hsparePages : PagesRequests (buddyAllocPt l0Table)
      (SparesTree (buddyAllocPt l0Table) root) flags root (2 ^ blockOrder) va pa m) :
    ∃ m1 m2, kernelMap l0Table va pa blockOrder flags root m = some m1 ∧
      mapPages (buddyAllocPt l0Table) flags root (2 ^ blockOrder) va pa m = some m2 ∧
      ((∀ x < 2 ^ 48, access m1.ram root x = access m2.ram root x) ↔
        ∀ p < tableSize ^ 4, pageOffset (va / pageSize) p < 2 ^ blockOrder →
          PathsAgree m.ram root pa p) := by
  obtain ⟨m1, m2, hrun1, hrun2, hiff⟩ := map_access_iff ht hva hpa h9 h18 flags
    (BlocksRequests.imp₂ (fun _ => FreshGranted.table) _ va pa m hblocks hspareBlocks)
    (PagesRequests.imp₂ (fun _ => FreshGranted.table) _ va pa m hpages hsparePages)
  refine ⟨m1, m2, hrun1, hrun2, fun hall p hp => ?_, fun hall x hx => ?_⟩
  · have hx : p * pageSize < 2 ^ 48 := by
      simp only [tableSize, pageSize] at *
      omega
    have hpage := (hiff _ hx).mp (hall _ hx)
    rwa [Nat.mul_div_cancel p (by decide)] at hpage
  · have hp : x / pageSize < tableSize ^ 4 := by
      simp only [tableSize, pageSize]
      omega
    exact (hiff x hx).mpr (hall _ hp)

/-- The requests of both paths over the empty tree, for one block. -/
theorem loaderMachine_requests (va pa flags : ℕ) :
    BlocksRequests (buddyAllocPt 5) (TableGranted (buddyAllocPt 5) 6) flags 6 (2 ^ (9 - 9))
        va pa loaderMachine ∧
      PagesRequests (buddyAllocPt 5) (TableGranted (buddyAllocPt 5) 6) flags 6 (2 ^ 9)
        va pa loaderMachine :=
  ⟨⟨(loaderMachine_supplied.mono (by decide : 0 + 2 ≤ _)).block (by decide), fun _ _ => trivial⟩,
    Supplied.pages _ (by decide) _ va pa loaderMachine
      (loaderMachine_supplied.mono (by decide))⟩

/-- One block at an aligned physical address. -/
theorem map_agrees_iff_example :
    ∃ m1 m2, kernelMap 5 0 0x200000 9 mapKernel 6 loaderMachine = some m1 ∧
      mapPages (buddyAllocPt 5) mapKernel 6 (2 ^ 9) 0 0x200000 loaderMachine = some m2 ∧
      ((∀ x < 2 ^ 48, access m1.ram 6 x = access m2.ram 6 x) ↔
        ∀ p < tableSize ^ 4, pageOffset (0 / pageSize) p < 2 ^ 9 →
          PathsAgree loaderMachine.ram 6 0x200000 p) :=
  have h := loaderMachine_requests 0 0x200000 mapKernel
  map_agrees_iff loaderMachine_supplied.owned.tree (by decide) (by decide) (by decide)
    (by decide) mapKernel (h.1.imp fun _ => TableGranted.fresh)
    (h.2.imp fun _ => TableGranted.fresh) (h.1.imp fun _ => TableGranted.spares)
    (h.2.imp fun _ => TableGranted.spares)

/-- One block at the page after the first of a 2 MiB range: the block path
gives the virtual address 0 another output address. -/
theorem map_disagrees :
    PageTree TableOrPage loaderMachine.ram 6 ∧
      BlocksRequests (buddyAllocPt 5) (TableGranted (buddyAllocPt 5) 6) mapKernel 6
        (2 ^ (9 - 9)) 0 0x1000 loaderMachine ∧
      PagesRequests (buddyAllocPt 5) (TableGranted (buddyAllocPt 5) 6) mapKernel 6 (2 ^ 9)
        0 0x1000 loaderMachine ∧
      ∃ m1 m2, kernelMap 5 0 0x1000 9 mapKernel 6 loaderMachine = some m1 ∧
        mapPages (buddyAllocPt 5) mapKernel 6 (2 ^ 9) 0 0x1000 loaderMachine = some m2 ∧
        access m1.ram 6 0 ≠ access m2.ram 6 0 := by
  obtain ⟨hblocks, hpages⟩ := loaderMachine_requests 0 0x1000 mapKernel
  have ht := loaderMachine_supplied.owned.tree
  obtain ⟨m1, m2, hrun1, hrun2, hiff⟩ := map_access_iff ht (by decide : 0 % blockSize = 0)
    (by decide : 0x1000 % pageSize = 0) (by decide) (by decide) mapKernel hblocks hpages
  refine ⟨ht, hblocks, hpages, m1, m2, hrun1, hrun2, fun hsame => ?_⟩
  rcases (hiff 0 (by decide)).mp hsame (by decide) with ⟨-, haligned⟩ | hmapped
  · exact absurd haligned (by decide)
  · exact hmapped (loaderMachine_empty.unmapped 0)

end Rpos
