import Rpos.Base.RadixCount
import Rpos.Memory.ReapPages

/-!
# A kernel that maps RAM by pages

`buddy_alloc_pt` maps the page that it hands out in the kernel's address space. Where the
linear map has a page descriptor for each managed page, it finds the page mapped and stores
to no other. So a user tree grows by pages of the pool, and nothing else that is in use
changes.
-/

namespace Rpos

open Base

/-! ## §1  The kernel's walks -/

/-- The walks for managed pages go through tables of `T`, which are reserved, to a page
descriptor. -/
structure PagedWalks (lo : ℕ) (T : Set ℕ) (ram : ℕ → ℕ → Word) (l0Table : ℕ) : Prop where
  reserved : ∀ p ∈ T, p < lo
  top : l0Table ∈ T
  inRam : lo ≤ ramPages
  covered : ∀ q, lo ≤ q → q < ramPages → ∃ l1 ∈ T, ∃ l2 ∈ T, ∃ l3 ∈ T,
    Pte.valid.get (ram l0Table 256) = 1 ∧ Pte.address.get (ram l0Table 256) = l1 ∧
    Pte.valid.get (ram l1 0) = 1 ∧ Pte.address.get (ram l1 0) = l2 ∧
    Pte.valid.get (ram l2 (q / 512)) = 1 ∧ Pte.address.get (ram l2 (q / 512)) = l3 ∧
    Pte.valid.get (ram l3 (q % 512)) = 1

section Walks

variable {lo l0Table q : ℕ} {T : Set ℕ} {ram ram' : ℕ → ℕ → Word} {m : Machine}

theorem PagedWalks.congr (ht : PagedWalks lo T ram l0Table) (h : ∀ p ∈ T, ram' p = ram p) :
    PagedWalks lo T ram' l0Table := by
  refine ⟨ht.reserved, ht.top, ht.inRam, fun q hq hlt => ?_⟩
  obtain ⟨l1, h1, l2, h2, l3, h3, hwalk⟩ := ht.covered q hq hlt
  refine ⟨l1, h1, l2, h2, l3, h3, ?_⟩
  rw [h l0Table ht.top, h l1 h1, h l2 h2, h l3 h3]
  exact hwalk

theorem PagedWalks.mapPage_eq (ht : PagedWalks lo T m.ram l0Table)
    (allocPt : Machine → Option (ℕ × Machine)) (hq : lo ≤ q) (hlt : q < ramPages)
    (pa flags : ℕ) : mapPage allocPt (pageAddr q) pa flags l0Table m = some m := by
  obtain ⟨h0, h1, h2, h3⟩ := indices_pageAddr hlt
  have hram : ∀ p ∈ T, p < ramPages := fun p hp => (ht.reserved p hp).trans_le ht.inRam
  obtain ⟨l1, hl1, l2, hl2, l3, hl3, hv0, ha0, hv1, ha1, hv2, ha2, hv3⟩ := ht.covered q hq hlt
  have hrun1 := nextTable_valid (m := m) allocPt (hram _ ht.top) hv0
  have hrun2 := nextTable_valid (m := m) allocPt (hram _ hl1) hv1
  have hrun3 := nextTable_valid (m := m) allocPt (hram _ hl2) hv2
  rw [ha0, ← h0] at hrun1
  rw [ha1, ← h1] at hrun2
  rw [ha2, ← h2] at hrun3
  rw [mapPage_run hrun1 hrun2 hrun3 (hram _ hl3), h3, if_pos hv3]

end Walks

/-! ## §2  What the kernel serves -/

structure PagedKernel (lo l0Table : ℕ) (T U : Set ℕ) (m : Machine) : Prop where
  buddy : BuddyOk lo m.buddy
  walks : PagedWalks lo T m.ram l0Table
  used : ∀ q ∈ U, lo ≤ q ∧ q ∈ heldPages m.buddy

section Kernel

variable {lo l0Table n a t : ℕ} {T U U' S : Set ℕ} {b : Buddy} {m m' : Machine}

theorem BuddyOk.free_lt (hb : BuddyOk lo b) {q : ℕ} (hq : q ∈ freePages b) :
    lo ≤ q ∧ q < ramPages := by
  obtain ⟨L, hr⟩ := hb
  rw [freePages_eq, PageAllocator.pool, hr.view_eq, hr.pool_eq, Finset.mem_sdiff,
    Finset.mem_Ico] at hq
  exact hq.1

namespace PagedKernel

theorem table (hm : PagedKernel lo l0Table T U m) (hq : a ∈ T) : a ∉ U :=
  fun h => absurd (hm.used a h).1 (Nat.not_le.mpr (hm.walks.reserved a hq))

theorem write (hm : PagedKernel lo l0Table T U m) (ht : t ∈ U) (j : ℕ) (w : Word) :
    PagedKernel lo l0Table T U (m.write t j w) := by
  refine ⟨hm.buddy, hm.walks.congr fun p hp => m.write_ram_ne w ?_, hm.used⟩
  rintro rfl
  exact hm.table hp ht

theorem regroup (hm : PagedKernel lo l0Table T U m) (hb : BuddyOk lo b)
    (hused : ∀ q ∈ U', lo ≤ q ∧ q ∈ heldPages b) :
    PagedKernel lo l0Table T U' (m.withBuddy b) :=
  ⟨hb, hm.walks, hused⟩

theorem grant (hm : PagedKernel lo l0Table T U m) (hlo : 2048 ≤ lo)
    (hfree : (freePages m.buddy).Nonempty) :
    ∃ a m', buddyAllocPt l0Table m = some (pageAddr a, m') ∧ a < ramPages ∧
      a ∈ freePages m.buddy ∧ buddyAlloc pageSize m.buddy = some (pageAddr a, m'.buddy) ∧
      (∀ i, m'.ram a i = 0) ∧ (∀ q ∈ U, m'.ram q = m.ram q) ∧
      PagedKernel lo l0Table T (insert a U) m' := by
  obtain ⟨page, b, hrun, hb, hcases⟩ := hm.buddy.alloc_page hlo
  rcases hcases with ⟨-, -, hempty⟩ | ⟨a, ha, hpage, hle, hlt, heq⟩
  · exact absurd hempty hfree.ne_empty
  rw [hpage] at hrun
  have halloc : m.buddyAlloc pageSize = some (pageAddr a, { m with buddy := b }) := by
    rw [Machine.buddyAlloc, hrun, Option.map_some]
  have hwalks : PagedWalks lo T (Machine.ram { m with buddy := b }) l0Table := hm.walks
  have hother : ∀ q, q ∉ freePages m.buddy →
      (Machine.clearPage { m with buddy := b } a).ram q = m.ram q := by
    intro q hq
    rw [Machine.clearPage_ram, if_neg]
    rintro rfl
    exact hq ha
  have hkept : ∀ q ∈ heldPages m.buddy, q ∈ heldPages b := by
    intro q hq
    refine ⟨hq.1, fun h => hq.2 ?_⟩
    rw [heq] at h
    exact Finset.mem_of_mem_erase h
  refine ⟨a, Machine.clearPage { m with buddy := b } a, ?_, hlt, ha, hrun, fun i => ?_,
    fun q hq => hother q (hm.used q hq).2.2, hb, hwalks.congr fun p hp => ?_, fun q hq => ?_⟩
  · rw [buddyAllocPt, buddyAllocPtFuel_succ, halloc, Option.bind_some]
    dsimp only
    rw [if_neg (pageAddr_ne_zero hlt), map_page, hwalks.mapPage_eq _ hle hlt, Option.bind_some,
      vaToPa_pageAddr hlt]
  · rw [Machine.clearPage_ram, if_pos rfl]
  · refine hother p fun hfree => ?_
    exact absurd (hm.buddy.free_lt hfree).1 (Nat.not_le.mpr (hm.walks.reserved p hp))
  · rcases hq with rfl | hq
    · refine ⟨hle, hlt, fun h => ?_⟩
      rw [Machine.clearPage_buddy, heq] at h
      exact Finset.notMem_erase q _ h
    · exact ⟨(hm.used q hq).1, hkept q (hm.used q hq).2⟩

theorem supply (hlo : 2048 ≤ lo) (F : Set ℕ) :
    CleanSupply (buddyAllocPt l0Table) (fun _ => True) F fun n S m =>
      PagedKernel lo l0Table T S m ∧ n ≤ (freePages m.buddy).card where
  grant n S m := by
    rintro ⟨hm, henough⟩ -
    obtain ⟨a, m', hrun, hlt, hfree, halloc, hblank, hkeep, hm'⟩ :=
      hm.grant hlo (Finset.card_pos.mp (Nat.lt_of_lt_of_le (Nat.succ_pos n) henough))
    obtain ⟨-, -, herase, -⟩ := hm.buddy.alloc_held hlo hlt halloc
    refine ⟨a, m', hrun, hlt, halloc, hblank, hkeep, hm', ?_⟩
    rw [herase, Finset.card_erase_of_mem hfree]
    exact Nat.le_sub_one_of_lt henough
  write n S m t j w := by
    rintro ⟨hm, henough⟩ ht -
    exact ⟨hm.write ht j w, henough⟩
  count n S m m' f := by
    rintro ⟨hm, henough⟩ _ hrun
    obtain ⟨honly, hram⟩ := countRef_onlyCounts hrun
    have hfree := honly.freePages
    refine ⟨⟨honly.ok hm.buddy, hm.walks.congr fun p _ => congrFun hram p, fun q hq => ?_⟩, ?_⟩
    · unfold heldPages
      rw [hfree]
      exact hm.used q hq
    · rw [hfree]
      exact henough

end PagedKernel

end Kernel

/-! ## §3  A tree that grows -/

def HasEntry (ram : ℕ → ℕ → Word) (q : ℕ) : Prop := ∃ i < tableSize, Pte.valid.get (ram q i) = 1

/-- The walk of `map_pages` for the page number `v`, begun in `m₀` with the pages `U₀` in use,
has come to the table `t`. The tree has taken the pages added to `U₀`, and only its own tables
have been stored to. -/
structure Climbs (lo l0Table : ℕ) (T U₀ : Set ℕ) (root v e t : ℕ) (m₀ : Machine) (U : Set ℕ)
    (m : Machine) : Prop where
  walked : Walked TableOrPage root v e t m₀.ram m.ram
  serves : PagedKernel lo l0Table T U m
  ledger : ForkLedger lo m₀.buddy U₀ U m.buddy
  records : ∀ q ∈ heldPages m₀.buddy, m.buddy.frameMetadata q = m₀.buddy.frameMetadata q
  tables : ∀ q, 0 < pageRadix.tables m.ram 3 root q ↔
    0 < pageRadix.tables m₀.ram 3 root q ∨ q ∈ newPages U₀ U
  keep : ∀ q ∈ U₀, pageRadix.tables m₀.ram 3 root q = 0 → m.ram q = m₀.ram q
  filled : ∀ q, 0 < pageRadix.tables m.ram 3 root q → q ≠ t → HasEntry m.ram q

section Climb

variable {lo l0Table root v e t t' : ℕ} {T U₀ U : Set ℕ} {m₀ m m' : Machine}

theorem HasEntry.congr {ram ram' : ℕ → ℕ → Word} {q : ℕ} (h : HasEntry ram q)
    (hq : ram' q = ram q) : HasEntry ram' q := by
  rw [HasEntry, hq]
  exact h

theorem Climbs.start (hm : PagedKernel lo l0Table T U₀ m₀)
    (ht : PageTree TableOrPage m₀.ram root)
    (hfill : ∀ q, 0 < pageRadix.tables m₀.ram 3 root q → q ≠ root → HasEntry m₀.ram q) :
    Climbs lo l0Table T U₀ root v 3 root m₀ U₀ m₀ := by
  refine ⟨.start ht, hm, .start hm.buddy fun q hq => (hm.used q hq).2.2, fun _ _ => rfl,
    fun q => ?_, fun _ _ _ => rfl, hfill⟩
  rw [newPages_self]
  exact (or_iff_left (Set.notMem_empty q)).symm

/-- The tables are in use, if those of the tree at the start were. -/
theorem Climbs.owned (hc : Climbs lo l0Table T U₀ root v e t m₀ U m)
    (hsub : ∀ q, 0 < pageRadix.tables m₀.ram 3 root q → q ∈ U₀) :
    ∀ q, 0 < pageRadix.tables m.ram 3 root q → q ∈ U := by
  intro q hq
  rcases (hc.tables q).mp hq with hold | hnew
  · exact hc.ledger.grown (hsub q hold)
  · exact hnew.1

theorem Climbs.enter {a : ℕ} (hlo : 2048 ≤ lo)
    (hc : Climbs lo l0Table T U₀ root v (e + 1) t m₀ U m)
    (hsub : ∀ q, 0 < pageRadix.tables m₀.ram 3 root q → q ∈ U₀)
    (hv : Pte.valid.get (m.ram t (pageRadix.digit (e + 1) v)) ≠ 1) (ha : a < ramPages)
    (hbuddy : buddyAlloc pageSize m.buddy = some (pageAddr a, m'.buddy))
    (hblank : ∀ i, m'.ram a i = 0) (hkeep : ∀ q ∈ U, m'.ram q = m.ram q)
    (hserves : PagedKernel lo l0Table T (insert a U) m') :
    Climbs lo l0Table T U₀ root v e a m₀ (insert a U)
      (m'.write t (pageRadix.digit (e + 1) v) (tableDescriptor a)) := by
  have howned := hc.owned hsub
  have htU : t ∈ U := howned t hc.walked.reaches.tables_pos
  obtain ⟨haU, haheld, hrecords, hledger⟩ := hc.ledger.grant hlo ha hbuddy
  have hnew : NewTable root a m.ram m'.ram := by
    refine ⟨ha, ?_, hblank, fun q hq => hkeep q (howned q hq)⟩
    by_contra hne
    exact haU (howned a (Nat.pos_of_ne_zero hne))
  have hword := tableDescriptor_names ha
  have htables : ∀ q, 0 < pageRadix.tables
      (m'.write t (pageRadix.digit (e + 1) v) (tableDescriptor a)).ram 3 root q ↔
      0 < pageRadix.tables m.ram 3 root q ∨ q = a := by
    intro q
    rw [write_ram_eq, hc.walked.enter_tables tableOrPage_admits hv hnew hword q,
      Nat.add_pos_iff_pos_or_pos]
    refine or_congr_right ?_
    split_ifs with hqa
    · exact iff_of_true Nat.one_pos hqa
    · exact iff_of_false (Nat.lt_irrefl 0) hqa
  refine ⟨hc.walked.enter tableOrPage_admits hv hnew hword,
    hserves.write (Set.mem_insert_of_mem a htU) _ _, hledger, fun q hq => ?_, fun q => ?_,
    fun q hq hnone => ?_, fun q hq hqa => ?_⟩
  · rw [Machine.write_buddy, hrecords q hq, hc.records q hq]
  · have hin : q ∈ newPages U₀ (insert a U) ↔ q ∈ newPages U₀ U ∨ q = a := by
      constructor
      · rintro ⟨rfl | hq, hrest⟩
        · exact Or.inr rfl
        · exact Or.inl ⟨hq, hrest⟩
      · rintro (hq | rfl)
        · exact ⟨Set.mem_insert_of_mem a hq.1, hq.2⟩
        · exact ⟨Set.mem_insert q U, fun h => haU (hc.ledger.grown h), ha⟩
    rw [htables, hc.tables, hin, or_assoc]
  · have hqt : q ≠ t := by
      rintro rfl
      rcases (hc.tables q).mp hc.walked.reaches.tables_pos with hpos | hpos
      · exact absurd hnone (Nat.ne_of_gt hpos)
      · exact hpos.2.1 hq
    rw [Machine.write_ram_ne _ _ hqt, hkeep q (hc.ledger.grown hq), hc.keep q hq hnone]
  · by_cases hqt : q = t
    · rw [hqt]
      refine ⟨_, pageRadix.digit_lt (e + 1) v, ?_⟩
      rw [Machine.write_self]
      exact hword.valid
    · have hold := ((htables q).mp hq).resolve_right hqa
      refine (hc.filled q hold hqt).congr ?_
      rw [Machine.write_ram_ne _ _ hqt, hkeep q (howned q hold)]

/-- A step of the walk returns if it finds a table or a page is free. -/
theorem Climbs.next (hlo : 2048 ≤ lo) (hc : Climbs lo l0Table T U₀ root v (e + 1) t m₀ U m)
    (hsub : ∀ q, 0 < pageRadix.tables m₀.ram 3 root q → q ∈ U₀)
    (hfree : Pte.valid.get (m.ram t (pageRadix.digit (e + 1) v)) = 1 ∨
      (freePages m.buddy).Nonempty) :
    ∃ t' m' U', nextTable (buddyAllocPt l0Table) t (pageRadix.digit (e + 1) v) m =
        some (t', m') ∧ Climbs lo l0Table T U₀ root v e t' m₀ U' m' ∧
      (freePages m.buddy).card ≤ (freePages m'.buddy).card + 1 := by
  have ht := hc.walked.table_lt
  by_cases hv : Pte.valid.get (m.ram t (pageRadix.digit (e + 1) v)) = 1
  · refine ⟨_, m, U, nextTable_valid _ ht hv, ⟨hc.walked.follow hv (hc.walked.form hv),
      hc.serves, hc.ledger, hc.records, hc.tables, hc.keep, fun q hq _ => ?_⟩,
      Nat.le_succ _⟩
    by_cases hqt : q = t
    · rw [hqt]
      exact ⟨_, pageRadix.digit_lt (e + 1) v, hv⟩
    · exact hc.filled q hq hqt
  · obtain ⟨a, m', hgrant, ha, -, hbuddy, hblank, hkeep, hserves⟩ :=
      hc.serves.grant hlo (hfree.resolve_left hv)
    obtain ⟨-, hmem, herase, -⟩ := hc.serves.buddy.alloc_held hlo ha hbuddy
    refine ⟨a, _, insert a U, nextTable_granted ht ha hv hgrant,
      hc.enter hlo hsub hv ha hbuddy hblank hkeep hserves, ?_⟩
    rw [Machine.write_buddy, herase, Finset.card_erase_of_mem hmem]
    omega

theorem Climbs.step (hlo : 2048 ≤ lo) (hc : Climbs lo l0Table T U₀ root v (e + 1) t m₀ U m)
    (hsub : ∀ q, 0 < pageRadix.tables m₀.ram 3 root q → q ∈ U₀)
    (hrun : nextTable (buddyAllocPt l0Table) t (pageRadix.digit (e + 1) v) m = some (t', m'))
    (hlt : t' < ramPages) : ∃ U', Climbs lo l0Table T U₀ root v e t' m₀ U' m' := by
  have ht := hc.walked.table_lt
  by_cases hfree : Pte.valid.get (m.ram t (pageRadix.digit (e + 1) v)) = 1 ∨
      (freePages m.buddy).Nonempty
  · obtain ⟨t₁, m₁, U', hrun', hc', -⟩ := hc.next hlo hsub hfree
    rw [hrun, Option.some.injEq, Prod.mk.injEq] at hrun'
    obtain ⟨rfl, rfl⟩ := hrun'
    exact ⟨U', hc'⟩
  -- the request yields NULL, which leads out of RAM
  obtain ⟨hv, hempty⟩ := not_or.mp hfree
  cases halloc : buddyAllocPt l0Table m with
  | none =>
      rw [nextTable_none ht hv halloc] at hrun
      exact absurd hrun (Option.some_ne_none _).symm
  | some r =>
      obtain ⟨page, m₁⟩ := r
      by_cases hnull : page = 0
      · rw [hnull] at halloc
        rw [nextTable_null ht hv halloc, Option.some.injEq, Prod.mk.injEq] at hrun
        rw [← hrun.1] at hlt
        exact absurd hlt (by decide)
      · obtain ⟨-, p, hp, -⟩ := buddyAllocPt_pool hc.serves.buddy hlo halloc hnull
        exact absurd ⟨p, hp⟩ hempty

/-- What `map_pages` makes of a tree when it maps the page `x` for which it was called. -/
structure TreeGrows (lo l0Table : ℕ) (T U₀ : Set ℕ) (root x : ℕ) (w : Word) (m₀ : Machine)
    (U : Set ℕ) (m : Machine) : Prop where
  tree : PageTree TableOrPage m.ram root
  serves : PagedKernel lo l0Table T U m
  ledger : ForkLedger lo m₀.buddy U₀ U m.buddy
  records : ∀ q ∈ heldPages m₀.buddy, m.buddy.frameMetadata q = m₀.buddy.frameMetadata q
  tables : ∀ q, 0 < pageRadix.tables m.ram 3 root q ↔
    0 < pageRadix.tables m₀.ram 3 root q ∨ q ∈ newPages U₀ U
  keep : ∀ q ∈ U₀, pageRadix.tables m₀.ram 3 root q = 0 → m.ram q = m₀.ram q
  filled : ∀ q, 0 < pageRadix.tables m.ram 3 root q → HasEntry m.ram q
  lookup : ∀ y < tableSize ^ 4, pageRadix.lookup m.ram 3 root y =
    if y = x ∧ pageRadix.lookup m₀.ram 3 root y = none then some (0, w)
    else pageRadix.lookup m₀.ram 3 root y

theorem Climbs.place (hc : Climbs lo l0Table T U₀ root v 0 t m₀ U m)
    (hsub : ∀ q, 0 < pageRadix.tables m₀.ram 3 root q → q ∈ U₀) (pa flags : ℕ) :
    TreeGrows lo l0Table T U₀ root (v % tableSize ^ 4) (leafDescriptor flags 1 pa) m₀ U
      (if Pte.valid.get (m.ram t (pageRadix.digit 0 v)) = 1 then m
        else m.write t (pageRadix.digit 0 v) (leafDescriptor flags 1 pa)) := by
  have hw := hc.walked
  have htU : t ∈ U := hc.owned hsub t hw.reaches.tables_pos
  have hmapped := hw.lookup_l3 fun _ hform => hform
  rw [← Radix.lookup_mod (R := pageRadix) m₀.ram 3] at hmapped
  by_cases hvalid : Pte.valid.get (m.ram t (pageRadix.digit 0 v)) = 1
  · rw [if_pos hvalid]
    refine ⟨hw.tree, hc.serves, hc.ledger, hc.records, hc.tables, hc.keep, fun q hq => ?_,
      fun y _ => ?_⟩
    · by_cases hqt : q = t
      · rw [hqt]
        exact ⟨_, pageRadix.digit_lt 0 v, hvalid⟩
      · exact hc.filled q hq hqt
    · rw [if_neg, hw.lookup]
      rintro ⟨rfl, hnone⟩
      exact hmapped.mp hvalid hnone
  · have hnone : pageRadix.lookup m₀.ram 3 root (v % tableSize ^ 4) = none := by
      by_contra hsome
      exact hvalid (hmapped.mpr hsome)
    obtain ⟨hleaf, htype⟩ := leafDescriptor_get flags pa (by decide : 1 < 2)
    obtain ⟨htree, htables⟩ := hw.place (not_table_zero _) (page_leaf hleaf htype)
      (not_table_zero _) fun _ => htype
    rw [if_neg hvalid]
    refine ⟨htree, hc.serves.write htU _ _, hc.ledger, hc.records, fun q => ?_,
      fun q hq hout => ?_, fun q hq => ?_, fun y hy => ?_⟩
    · rw [write_ram_eq, htables]
      exact hc.tables q
    · have hqt : q ≠ t := by
        rintro rfl
        rcases (hc.tables q).mp hw.reaches.tables_pos with hpos | hpos
        · exact absurd hout (Nat.ne_of_gt hpos)
        · exact hpos.2.1 hq
      rw [Machine.write_ram_ne _ _ hqt, hc.keep q hq hout]
    · by_cases hqt : q = t
      · rw [hqt]
        refine ⟨_, pageRadix.digit_lt 0 v, ?_⟩
        rw [Machine.write_self]
        exact hleaf
      · rw [write_ram_eq, htables] at hq
        exact (hc.filled q hq hqt).congr (Machine.write_ram_ne _ _ hqt)
    · rw [write_ram_eq, hw.place_lookup (not_table_zero _) (page_leaf hleaf htype)
        (not_table_zero _) hy, pow_zero, Nat.div_one, Nat.div_one]
      by_cases hyv : y = v % tableSize ^ 4
      · rw [if_pos hyv, if_pos ⟨hyv, hyv ▸ hnone⟩]
      · rw [if_neg hyv, if_neg fun h => hyv h.1]

theorem PagedKernel.mapPage_grows {va pa flags : ℕ} (hm : PagedKernel lo l0Table T U₀ m₀)
    (hlo : 2048 ≤ lo) (ht : PageTree TableOrPage m₀.ram root)
    (hsub : ∀ q, 0 < pageRadix.tables m₀.ram 3 root q → q ∈ U₀)
    (hfill : ∀ q, 0 < pageRadix.tables m₀.ram 3 root q → q ≠ root → HasEntry m₀.ram q)
    (hrun : mapPage (buddyAllocPt l0Table) va pa flags root m₀ = some m) :
    ∃ U, TreeGrows lo l0Table T U₀ root (va / pageSize % tableSize ^ 4)
      (leafDescriptor flags 1 pa) m₀ U m := by
  obtain ⟨h0, h1, h2, h3⟩ := idx_eq va
  obtain ⟨l1, m1, l2, m2, l3, m3, hrun1, hrun2, hrun3, hl3⟩ := mapPage_walk hrun
  rw [mapPage_run hrun1 hrun2 hrun3 hl3, Option.some.injEq] at hrun
  have hl1 := nextTable_lt hrun2
  have hl2 := nextTable_lt hrun3
  rw [h0] at hrun1
  rw [h1] at hrun2
  rw [h2] at hrun3
  obtain ⟨U₁, hc₁⟩ := (Climbs.start hm ht hfill).step hlo hsub hrun1 hl1
  obtain ⟨U₂, hc₂⟩ := hc₁.step hlo hsub hrun2 hl2
  obtain ⟨U₃, hc₃⟩ := hc₂.step hlo hsub hrun3 hl3
  rw [← hrun, h3]
  exact ⟨U₃, hc₃.place hsub pa flags⟩

theorem PagedKernel.mapPage_returns (hm : PagedKernel lo l0Table T U₀ m₀) (hlo : 2048 ≤ lo)
    (ht : PageTree TableOrPage m₀.ram root)
    (hsub : ∀ q, 0 < pageRadix.tables m₀.ram 3 root q → q ∈ U₀)
    (hfill : ∀ q, 0 < pageRadix.tables m₀.ram 3 root q → q ≠ root → HasEntry m₀.ram q)
    (hfree : 3 ≤ (freePages m₀.buddy).card) (va pa flags : ℕ) :
    ∃ m, mapPage (buddyAllocPt l0Table) va pa flags root m₀ = some m ∧
      (freePages m₀.buddy).card ≤ (freePages m.buddy).card + 3 := by
  obtain ⟨h0, h1, h2, -⟩ := idx_eq va
  have hsome : ∀ {n : ℕ}, 1 ≤ n → ∀ {b : Buddy}, n ≤ (freePages b).card →
      (freePages b).Nonempty := fun hn _ h => Finset.card_pos.mp (Nat.lt_of_lt_of_le hn h)
  obtain ⟨l1, m1, U₁, hrun1, hc₁, hcard₁⟩ := (Climbs.start hm ht hfill).next hlo hsub
    (Or.inr (hsome (by decide) hfree))
  have hfree₁ : 2 ≤ (freePages m1.buddy).card := by omega
  obtain ⟨l2, m2, U₂, hrun2, hc₂, hcard₂⟩ := hc₁.next hlo hsub
    (Or.inr (hsome (by decide) hfree₁))
  have hfree₂ : 1 ≤ (freePages m2.buddy).card := by omega
  obtain ⟨l3, m3, U₃, hrun3, hc₃, hcard₃⟩ := hc₂.next hlo hsub
    (Or.inr (hsome (by decide) hfree₂))
  rw [← h0] at hrun1
  rw [← h1] at hrun2
  rw [← h2] at hrun3
  refine ⟨_, mapPage_run hrun1 hrun2 hrun3 hc₃.walked.table_lt pa flags, ?_⟩
  have hcard : (freePages m₀.buddy).card ≤ (freePages m3.buddy).card + 3 := by omega
  split_ifs
  · exact hcard
  · exact hcard

end Climb

end Rpos
