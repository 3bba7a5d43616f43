import Rpos.Memory.ForkPages

/-!
# `reap_virtual_memory`

`reap_virtual_memory` of `memory/paging.c` drops one reference for each word of a tree: it
is the sequence of releases of the pages that the tree names, tables after what is below
them. A clone counts each page once more for each word that maps it and grants its tables
with one reference each, so that the reap of the copy takes back what the clone gave.
-/

namespace Rpos

open Base

/-! ## §1  The functions -/

def Machine.decrementRef (array addr : ℕ) (m : Machine) : Option Machine := do
  let (_, b) ← Rpos.decrementRef array addr m.buddy
  some { m with buddy := b }

/-- One round of the loop of `reap_virtual_memory`, with `below` levels below the table. -/
def reapEntry (array below : ℕ) (descend : ℕ → Machine → Option Machine) (parentTable : ℕ)
    (m : Machine) (i : ℕ) : Option Machine := do
  let entry ← m.read parentTable i
  if Pte.valid.get entry ≠ 1 then some m
  else if 0 < below ∧ Pte.type.get entry = 1 then descend (Pte.address.get entry) m
  else m.decrementRef array (pageAddr (Pte.address.get entry))

/-- `reap_virtual_memory`, by the number of levels below: 3 less `level`. -/
def reapVirtualMemory (array : ℕ) : ℕ → ℕ → Machine → Option Machine
  | 0, parentTable, m => do
      let m ← (List.range tableSize).foldlM
        (reapEntry array 0 (fun _ _ => none) parentTable) m
      m.decrementRef array (pageAddr parentTable)
  | below + 1, parentTable, m => do
      let m ← (List.range tableSize).foldlM
        (reapEntry array (below + 1) (reapVirtualMemory array below) parentTable) m
      m.decrementRef array (pageAddr parentTable)

/-! ## §2  A sequence of releases -/

def Machine.withBuddy (m : Machine) (b : Buddy) : Machine := { m with buddy := b }

/-- `reap` drops the references of every tree of height `h` that `ram` holds. -/
def Reaps (array h : ℕ) (m : Machine) (reap : ℕ → Machine → Option Machine) : Prop :=
  ∀ p, pageRadix.Every TableOrPage m.ram h p →
    (∀ q, 0 < pageRadix.tables m.ram h p q → q < ramPages) → ∀ b,
    reap p (m.withBuddy b) =
      ((pageRadix.pages m.ram h p).foldlM (dropRef array) b).map m.withBuddy

section Reap

variable {array h p i : ℕ} {m : Machine} {reap : ℕ → Machine → Option Machine}

theorem decrementRef_withBuddy (array q : ℕ) (m : Machine) (b : Buddy) :
    (m.withBuddy b).decrementRef array (pageAddr q) = (dropRef array b q).map m.withBuddy := by
  rw [dropRef, Option.map_map]
  exact Option.map_eq_bind.symm

theorem reapEntry_eq (hp : p < ramPages) (hword : TableOrPage h (m.ram p i))
    (hreap : ∀ e, h = e + 1 → pageRadix.table h (m.ram p i) = true → ∀ b,
      reap (pageRadix.target (m.ram p i)) (m.withBuddy b) =
        ((pageRadix.pages m.ram e (pageRadix.target (m.ram p i))).foldlM (dropRef array) b).map
          m.withBuddy) (b : Buddy) :
    reapEntry array h reap p (m.withBuddy b) i =
      ((pageRadix.pagesUnder m.ram h (m.ram p i)).foldlM (dropRef array) b).map m.withBuddy := by
  have hread : (m.withBuddy b).read p i = some (m.ram p i) := Machine.read_eq i hp
  rw [reapEntry, hread, Option.bind_eq_bind, Option.bind_some]
  by_cases hv : Pte.valid.get (m.ram p i) = 1
  · have htype : Pte.type.get (m.ram p i) = 1 := hword hv
    rw [if_neg fun hne => hne hv]
    cases h with
    | zero =>
        rw [if_neg fun h => absurd h.1 (Nat.lt_irrefl 0), decrementRef_withBuddy,
          Radix.pagesUnder_leaf (page_leaf hv htype) (not_table_zero _), foldlM_one]
        rfl
    | succ e =>
        have htable := table_intro e hv htype
        rw [if_pos ⟨Nat.succ_pos e, htype⟩, Radix.pagesUnder_table htable]
        exact hreap e rfl htable b
  · obtain ⟨hnot, hleaf⟩ := void_of_invalid hv h
    rw [if_pos hv, Radix.pagesUnder_none hleaf hnot]
    rfl

theorem reapLoop_eq (hreap : ∀ e, h = e + 1 → Reaps array e m reap)
    (hall : pageRadix.Every TableOrPage m.ram h p)
    (hram : ∀ q, 0 < pageRadix.tables m.ram h p q → q < ramPages) (b : Buddy) :
    ((List.range tableSize).foldlM (reapEntry array h reap p) (m.withBuddy b)).bind
        (fun m' => m'.decrementRef array (pageAddr p)) =
      ((pageRadix.pages m.ram h p).foldlM (dropRef array) b).map m.withBuddy := by
  have hround : ∀ i ∈ List.range tableSize, ∀ b,
      reapEntry array h reap p (m.withBuddy b) i =
        ((pageRadix.pagesUnder m.ram h (m.ram p i)).foldlM (dropRef array) b).map
          m.withBuddy := by
    intro i hi
    have hi' : i < pageRadix.fan := List.mem_range.mp hi
    refine reapEntry_eq (hram p Radix.tables_self) (hall i hi').1 fun e he hw => ?_
    subst he
    refine hreap e rfl _ ((Radix.everyUnder_table hw).mp (hall i hi').2) fun q hq => hram q ?_
    rw [← Radix.tablesUnder_table hw] at hq
    exact Nat.lt_of_lt_of_le hq (Radix.tablesUnder_le hi')
  rw [foldlM_flatMap m.withBuddy hround, Radix.pages, List.foldlM_append, Option.bind_map,
    Option.bind_eq_bind, Option.map_bind]
  congr 1
  funext b'
  rw [Function.comp_apply, decrementRef_withBuddy, Function.comp_apply, foldlM_one]

/-- `reap_virtual_memory` releases the pages that the tree names, one after another. -/
theorem reapVirtualMemory_eq (array h : ℕ) (m : Machine) :
    Reaps array h m (reapVirtualMemory array h) := by
  induction h with
  | zero =>
      intro p hall hram b
      have hbelow : ∀ e, 0 = e + 1 → Reaps array e m fun _ _ => none :=
        fun e he => absurd he.symm (Nat.succ_ne_zero e)
      have hloop := reapLoop_eq hbelow hall hram b
      rw [reapVirtualMemory, Option.bind_eq_bind]
      exact hloop
  | succ h ih =>
      intro p hall hram b
      have hbelow : ∀ e, h + 1 = e + 1 → Reaps array e m (reapVirtualMemory array h) := by
        intro e he
        rwa [← Nat.succ_injective he]
      have hloop := reapLoop_eq hbelow hall hram b
      rw [reapVirtualMemory, Option.bind_eq_bind]
      exact hloop

end Reap

/-! ## §3  The child of a fork -/

/-- A frame that `k` words map: a page of its own that is not reserved, with a count that
has room for as many references again. -/
structure MappedFrame (b : Buddy) (k q : ℕ) : Prop where
  live : (⟨q, 0⟩ : Block) ∈ (pageAllocatorOf b).live
  state : (b.frameMetadata q).state ≠ pageReserved
  counted : 0 < (b.frameMetadata q).refcount
  bounded : (b.frameMetadata q).refcount + k < 2 ^ 32

def mappedFrames (root : ℕ) (m : Machine) : Set ℕ :=
  {q | MappedFrame m.buddy (pageRadix.leaves m.ram 3 root q) q}

/-- The tree of `m` at `root` has been cloned to `child`, in the pages added to `S`. -/
structure Forked (lo root child : ℕ) (S S' : Set ℕ) (m m₁ : Machine) : Prop where
  ok : BuddyOk lo m.buddy
  mapped : ∀ q, 0 < pageRadix.leaves m.ram 3 root q → q ∈ mappedFrames root m
  cloned : Cloned (heldPages m.buddy) S S' 3 root child m m₁
  ledger : ForkLedger lo m.buddy S S' m₁.buddy

section Forked

variable {lo root child q : ℕ} {S S' : Set ℕ} {m m₁ : Machine}

theorem MappedFrame.held {b : Buddy} {k : ℕ} (hq : MappedFrame b k q) (hb : BuddyOk lo b) :
    q ∈ heldPages b :=
  (hb.live_page hq.live).1

theorem addRefs_refcount {f : PageFrame} {k : ℕ} (hlt : f.refcount + k < 2 ^ 32) :
    (f.addRefs k).refcount = f.refcount + k := by
  unfold PageFrame.addRefs
  split_ifs with hk
  · rw [hk, Nat.add_zero]
  · exact Nat.mod_eq_of_lt hlt

theorem Forked.leaves (hf : Forked lo root child S S' m m₁) (q : ℕ) :
    pageRadix.leaves m₁.ram 3 child q = pageRadix.leaves m.ram 3 root q :=
  hf.cloned.child.leaves copyWord_rewrites mark_target q

theorem Forked.count_table (hf : Forked lo root child S S' m m₁) (hq : q ∈ newPages S S') :
    (pageRadix.pages m₁.ram 3 child).count q = 1 := by
  have hone := hf.cloned.distinct q
  have hpos := (hf.cloned.new q).mpr hq
  have hnone : pageRadix.leaves m.ram 3 root q = 0 := by
    by_contra hne
    exact hf.ledger.apart q hq ((hf.mapped q (Nat.pos_of_ne_zero hne)).held hf.ok)
  rw [Radix.count_pages, hf.leaves, hnone]
  omega

/-- Any other page is released once for each word that maps it. -/
theorem Forked.count_frame (hf : Forked lo root child S S' m m₁) (hq : q ∉ newPages S S') :
    (pageRadix.pages m₁.ram 3 child).count q = pageRadix.leaves m.ram 3 root q := by
  have hnone : pageRadix.tables m₁.ram 3 child q = 0 := by
    by_contra hne
    exact hq ((hf.cloned.new q).mp (Nat.pos_of_ne_zero hne))
  rw [Radix.count_pages, hf.leaves, hnone, Nat.add_zero]

/-- What the clone has added to the count of a page that was held. -/
theorem Forked.refcount (hf : Forked lo root child S S' m m₁) (hq : q ∈ heldPages m.buddy) :
    (m₁.buddy.frameMetadata q).refcount =
      (m.buddy.frameMetadata q).refcount + pageRadix.leaves m.ram 3 root q := by
  rw [hf.cloned.frames q hq]
  rcases Nat.eq_zero_or_pos (pageRadix.leaves m.ram 3 root q) with hnone | hpos
  · rw [hnone, addRefs_zero, Nat.add_zero]
  · exact addRefs_refcount (hf.mapped q hpos).bounded

theorem Forked.droppable (hf : Forked lo root child S S' m m₁) :
    Droppable (pageRadix.pages m₁.ram 3 child) m₁.buddy := by
  intro q hq
  by_cases hnew : q ∈ newPages S S'
  · obtain ⟨hone, hstate⟩ := hf.ledger.counted q hnew
    have hlive := (hf.ledger.live ⟨q, 0⟩).mpr (Or.inr ⟨rfl, hnew⟩)
    rw [hf.count_table hnew, hone, hstate]
    exact ⟨hnew.2.2, hlive, by decide, Nat.le_refl 1, by decide⟩
  · have hpos := List.count_pos_iff.mpr hq
    rw [hf.count_frame hnew] at hpos
    have hmapped := hf.mapped q hpos
    have hheld := hmapped.held hf.ok
    have hlive := (hf.ledger.live ⟨q, 0⟩).mpr (Or.inl hmapped.live)
    rw [hf.count_frame hnew, hf.refcount hheld, hf.cloned.frames q hheld,
      (addRefs_fields _ _).2.2]
    exact ⟨hheld.1, hlive, hmapped.state, Nat.le_add_left _ _, hmapped.bounded⟩

variable {b : Buddy}

theorem Forked.live (hf : Forked lo root child S S' m m₁)
    (hd : Dropped lo (pageRadix.pages m₁.ram 3 child) m₁.buddy b) :
    (pageAllocatorOf b).live = (pageAllocatorOf m.buddy).live := by
  ext c
  rw [hd.live c, hf.ledger.live c]
  constructor
  · rintro ⟨hold | ⟨horder, hnew⟩, hkept⟩
    · exact hold
    · have hone := hf.count_table hnew
      have hmem := List.count_pos_iff.mp (Nat.lt_of_lt_of_eq Nat.zero_lt_one hone.symm)
      exact absurd ⟨horder, hmem, ((hf.ledger.counted _ hnew).1).trans hone.symm⟩ hkept
  · intro hc
    refine ⟨Or.inl hc, ?_⟩
    rintro ⟨horder, hmem, hlast⟩
    have hlive : (⟨c.base, 0⟩ : Block) ∈ (pageAllocatorOf m.buddy).live := by
      rw [← horder]
      exact hc
    have hheld := (hf.ok.live_page hlive).1
    have hnew : c.base ∉ newPages S S' := fun h => hf.ledger.apart _ h hheld
    have hpos := List.count_pos_iff.mpr hmem
    rw [hf.count_frame hnew] at hlast hpos
    have hcounted := (hf.mapped _ hpos).counted
    rw [hf.refcount hheld] at hlast
    omega

theorem BuddyOk.held_congr {b' : Buddy} (hb : BuddyOk lo b) (hb' : BuddyOk lo b')
    (hlive : (pageAllocatorOf b').live = (pageAllocatorOf b).live) :
    heldPages b' = heldPages b := by
  ext q
  have hcases : ∀ hlt : q < ramPages, q ∈ heldPages b' ↔ q ∈ heldPages b := by
    intro hlt
    rw [hb.held_iff hlt, hb'.held_iff hlt, hlive]
  exact ⟨fun h => (hcases h.1).mp h, fun h => (hcases h.1).mpr h⟩

/-- The records of the pages that were held are as they were. -/
theorem Forked.record (hf : Forked lo root child S S' m m₁)
    (hd : Dropped lo (pageRadix.pages m₁.ram 3 child) m₁.buddy b) (hq : q ∈ heldPages m.buddy) :
    b.frameMetadata q = m.buddy.frameMetadata q := by
  have hheld : q ∈ heldPages b := by
    rw [hf.ok.held_congr hd.ok (hf.live hd)]
    exact hq
  have hnew : q ∉ newPages S S' := fun h => hf.ledger.apart q h hq
  obtain ⟨horder, hflags, hstate⟩ :=
    addRefs_fields (pageRadix.leaves m.ram 3 root q) (m.buddy.frameMetadata q)
  have hcount : (b.frameMetadata q).refcount = (m.buddy.frameMetadata q).refcount := by
    rw [hd.count, hf.count_frame hnew, hf.refcount hq, Nat.add_sub_cancel]
  rw [hd.record q hheld, hcount, hf.cloned.frames q hq]
  dsimp only
  rw [horder, hflags, hstate]

/-- The counts of the other pages are as they were, the tables of the child apart. -/
theorem Forked.stale (hf : Forked lo root child S S' m m₁)
    (hd : Dropped lo (pageRadix.pages m₁.ram 3 child) m₁.buddy b) (hlt : q < ramPages)
    (hnew : q ∉ newPages S S') :
    (b.frameMetadata q).refcount = (m.buddy.frameMetadata q).refcount := by
  by_cases hq : q ∈ heldPages m.buddy
  · rw [hf.record hd hq]
  · have hnone : pageRadix.leaves m.ram 3 root q = 0 := by
      by_contra hne
      exact hq ((hf.mapped q (Nat.pos_of_ne_zero hne)).held hf.ok)
    rw [hd.count, hf.count_frame hnew, hnone, Nat.sub_zero, hf.ledger.uncounted q hlt hq hnew]

theorem Forked.dropped_table (hf : Forked lo root child S S' m m₁)
    (hd : Dropped lo (pageRadix.pages m₁.ram 3 child) m₁.buddy b) (hq : q ∈ newPages S S') :
    (b.frameMetadata q).refcount = 0 := by
  rw [hd.count, (hf.ledger.counted q hq).1, hf.count_table hq]

theorem fork_exit {l0Table array : ℕ} (harray : ArrayFits array) (hlo : 2048 ≤ lo)
    (hb : BuddyOk lo m.buddy)
    (ht : PageTree (TableOrFrame (mappedFrames root m)) m.ram root)
    (hfill : pageRadix.Filled (fun w => Pte.valid.get w = 1) m.ram 3 root)
    (hheld : ∀ q, 0 < pageRadix.tables m.ram 3 root q → q ∉ freePages m.buddy)
    (hone : CloneRequests (buddyAllocPt l0Table) (TakesOne (buddyAllocPt l0Table)) root m)
    (hspare : CloneRequests (buddyAllocPt l0Table) (SparesPages (buddyAllocPt l0Table)
      {q | 0 < pageRadix.tables m.ram 3 root q} m.buddy) root m) :
    ∃ child m₁ b S', cloneVirtualMemory (buddyAllocPt l0Table) root m =
        some (pageAddr child, m₁) ∧
      reapVirtualMemory array 3 child m₁ = some (m₁.withBuddy b) ∧
      Forked lo root child {q | 0 < pageRadix.tables m.ram 3 root q} S' m m₁ ∧
      Dropped lo (pageRadix.pages m₁.ram 3 child) m₁.buddy b := by
  have hframes : ∀ h w, TableOrFrame (mappedFrames root m) h w →
      TableOrFrame (heldPages m.buddy) h w :=
    fun _ _ hw hv => ⟨(hw hv).1, fun h => ⟨((hw hv).2 h).1.held hb, ((hw hv).2 h).2⟩⟩
  have hclone : Cloneable (heldPages m.buddy) {q | 0 < pageRadix.tables m.ram 3 root q} 3 root
      m.ram := ⟨ht.distinct, ht.every.mono hframes, hfill, fun q hq => ⟨hq, ht.inRam q hq⟩⟩
  obtain ⟨-, child, m₁, S', hrun, hcl, -, hledger⟩ := cloneVirtualMemory_spec (n := 0)
    ((fork_cleanSupply hlo hheld).supply hlo) hclone ⟨InFork.start hb, .start hb hheld⟩
    (Or.inr (hone.imp₂ (fun _ => And.intro) hspare))
  have hleaf : ∀ h w, TableOrFrame (mappedFrames root m) h w → pageRadix.leaf h w = true →
      pageRadix.target w ∈ mappedFrames root m := by
    intro h w hw hleaf
    obtain ⟨hv, hkind⟩ := of_decide_eq_true hleaf
    obtain ⟨htype, hframe⟩ := hw hv
    by_cases hzero : h = 0
    · exact (hframe hzero).1
    · -- only an L3 entry may map
      rw [if_neg hzero, htype] at hkind
      exact absurd hkind.2 Nat.one_ne_zero
  have hforked : Forked lo root child {q | 0 < pageRadix.tables m.ram 3 root q} S' m m₁ :=
    ⟨hb, fun q => Radix.mem_of_leaves hleaf ht.every, hcl, hledger⟩
  obtain ⟨b, hdrop, hd⟩ := dropRefs_spec harray hlo _ hledger.ok hforked.droppable
  have hevery : pageRadix.Every TableOrPage m₁.ram 3 child :=
    hcl.child.every copyWord_rewrites.table
      (fun _ _ _ hc hw hv => (hc.tableOrFrame (hframes _ _ hw) hv).1) ht.every
  have hreap := reapVirtualMemory_eq array 3 m₁ child hevery
    (fun q hq => ((hcl.new q).mp hq).2.2) m₁.buddy
  rw [hdrop] at hreap
  exact ⟨child, m₁, b, S', hrun, hreap, hforked, hd⟩

end Forked

/-! ## §4  A page that was freed before -/

/-- After the boot with 2048 reserved pages: two pages are requested, and the second is
freed. -/
def staleBuddy : Option Buddy := do
  let (_, b) ← buddyAlloc pageSize (initializePageFrameArray (2048 * 4096) blankBuddy)
  let (_, b) ← buddyAlloc pageSize b
  buddyFree (pageAddr 260097) b

/-- A process maps the first page, and the second is the next to be granted; its record
still counts a reference. -/
structure StaleBuddy (b : Buddy) : Prop where
  ok : BuddyOk 2048 b
  mapped : MappedFrame b 1 260096
  stale : (b.frameMetadata 260097).refcount = 1
  next : ∃ b', buddyAlloc pageSize b = some (pageAddr 260097, b')
  enough : 2 ^ 16 ≤ (freePages b).card

section Stale

variable {lo : ℕ} {b b' : Buddy}

theorem BuddyOk.free_mono (hb : BuddyOk lo b) (hb' : BuddyOk lo b')
    (hlive : (pageAllocatorOf b').live ⊆ (pageAllocatorOf b).live) :
    freePages b ⊆ freePages b' := by
  intro q hq
  have hlt : q < ramPages := by
    obtain ⟨L, hr⟩ := hb
    rw [freePages_eq, PageAllocator.pool, hr.view_eq, hr.pool_eq, Finset.mem_sdiff,
      Finset.mem_Ico] at hq
    exact hq.1.2
  by_contra hnot
  rcases (hb'.held_iff hlt).mp ⟨hlt, hnot⟩ with hlow | ⟨c, hc, hqc⟩
  · exact ((hb.held_iff hlt).mpr (Or.inl hlow)).2 hq
  · exact ((hb.held_iff hlt).mpr (Or.inr ⟨c, hlive hc, hqc⟩)).2 hq

/-- A freed page whose buddy is not free is the next to be granted. -/
theorem freed_page_next {B : Finset Block} {L : ℕ → List ℕ} {p : ℕ}
    (hr : BuddyRep lo ramPages b B L) (hlo : 2048 ≤ lo) (hp : (⟨p, 0⟩ : Block) ∈ liveBlocks b B)
    (hnone : L 0 = []) (hrun : buddyFree (pageAddr p) b = some b') :
    ∃ b'', buddyAlloc pageSize b' = some (pageAddr p, b'') := by
  obtain ⟨hB, hlive⟩ := mem_liveBlocks.mp hp
  have hframe := frameOf_pageAddr (hr.tiles.base_lt hB).2
  rcases buddyFree_cases hr hlo hframe with ⟨hignored, -⟩ | ⟨k, hk, hmem, hfree⟩
  · exact absurd rfl (hignored _ hp)
  obtain rfl : k = 0 := by
    have hsame := hr.live_apart _ hmem _ hp p (Block.base_mem ⟨p, k⟩) (Block.base_mem ⟨p, 0⟩)
    rw [Block.mk.injEq] at hsame
    exact hsame.2
  have hput := putBlock_rep hr hk.le hB hlive
  have hlist : Function.update L 0 (p :: L 0) 0 = [p] := by
    rw [Function.update_self, hnone]
  have hstate : ((putBlock 0 p b).frameMetadata p).state = pageFree := by
    rw [putBlock_frames, if_pos rfl]
  rw [hfree] at hrun
  rcases coalesceUp_cases hput hlo hB hstate maxOrder with ⟨hstop, -⟩ | ⟨q, -, hq, hq', -⟩
  · rw [hstop, Option.some.injEq] at hrun
    subst hrun
    obtain ⟨b'', hnext, -⟩ := buddyAlloc_page hput (Nat.zero_le _)
      (fun j hj => absurd hj (Nat.not_lt_zero j)) hlist
    exact ⟨b'', hnext⟩
  · -- the list has one page, and a merge takes two
    rw [hlist, List.mem_singleton] at hq hq'
    omega

theorem staleBuddy_spec : ∃ b, staleBuddy = some b ∧ StaleBuddy b := by
  have hempty : ∀ j < 11, initialLists (ramPages - 2048) (maxOrder + 1) 2048 (fun _ => []) j = [] :=
    by decide
  have hfirst : initialLists (ramPages - 2048) (maxOrder + 1) 2048 (fun _ => []) 11 = [260096] := by
    decide
  have hsecond : grantLists 260096 0 11
      (initialLists (ramPages - 2048) (maxOrder + 1) 2048 fun _ => []) 0 = [260097] := by decide
  have hthird : grantLists 260097 0 0 (grantLists 260096 0 11
      (initialLists (ramPages - 2048) (maxOrder + 1) 2048 fun _ => [])) 0 = [] := by decide
  have hlo : 2048 ≤ 2048 := Nat.le_refl 2048
  obtain ⟨b₁, hrun₁, hr₁, -⟩ := buddyAlloc_page initial_rep (by decide) hempty hfirst
  obtain ⟨b₂, hrun₂, hr₂, hg₂⟩ := buddyAlloc_page hr₁ (Nat.zero_le _)
    (fun j hj => absurd hj (Nat.not_lt_zero j)) hsecond
  obtain ⟨hb₁, hfree₁, herase₁, hlive₁, href₁, hstate₁, -⟩ :=
    initial_rep.ok.alloc_held hlo (by decide) hrun₁
  obtain ⟨hb₂, hfree₂, herase₂, hlive₂, href₂, -, hrecord₂⟩ := hb₁.alloc_held hlo (by decide) hrun₂
  have hmem₁ : (⟨260096, 0⟩ : Block) ∈ (pageAllocatorOf b₁).live := by
    rw [hlive₁]
    exact Finset.mem_insert_self _ _
  have hmem₂ : (⟨260097, 0⟩ : Block) ∈ (pageAllocatorOf b₂).live := by
    rw [hlive₂]
    exact Finset.mem_insert_self _ _
  obtain ⟨b, hrun, hb, hlive, hrecord⟩ := hb₂.free_page hlo hmem₂
  have hmem : (⟨260096, 0⟩ : Block) ∈ (pageAllocatorOf b).live := by
    rw [hlive, hlive₂, Finset.mem_erase]
    exact ⟨by decide, Finset.mem_insert_of_mem hmem₁⟩
  have hkept : b.frameMetadata 260096 = b₁.frameMetadata 260096 := by
    rw [hrecord _ (hb.live_page hmem).1, hrecord₂ _ (hb₁.live_page hmem₁).1]
  refine ⟨b, ?_, hb, ⟨hmem, ?_, ?_, ?_⟩, ?_, ?_, ?_⟩
  · rw [staleBuddy, hrun₁, Option.bind_eq_bind, Option.bind_some]
    dsimp only
    rw [hrun₂, Option.bind_some]
    exact hrun
  · rw [hkept, hstate₁]
    decide
  · rw [hkept, href₁]
    decide
  · rw [hkept, href₁]
    decide
  · rw [buddyFree_refcount hrun, href₂]
  · refine freed_page_next hr₂ hlo ?_ hthird hrun
    rw [hg₂.live]
    exact Finset.mem_insert_self _ _
  · have hcard := initial_pool.1
    have hmono := Finset.card_le_card (hb₂.free_mono hb (by rw [hlive]; exact Finset.erase_subset _ _))
    rw [herase₂, Finset.card_erase_of_mem hfree₂, herase₁, Finset.card_erase_of_mem hfree₁] at hmono
    omega

theorem StaleBuddy.forkable (hb : StaleBuddy b) :
    let m := forkProcess 260096 b
    PageTree (TableOrFrame (mappedFrames 0 m)) m.ram 0 ∧
      pageRadix.Filled (fun w => Pte.valid.get w = 1) m.ram 3 0 ∧
      SelfMapped 2048 5 4 {q | 0 < pageRadix.tables m.ram 3 0 q} m ∧
      CloneRequests (buddyAllocPt 5) (fun n => TakesOne (buddyAllocPt 5) n ∧
        SparesPages (buddyAllocPt 5) {q | 0 < pageRadix.tables m.ram 3 0 q} b n) 0 m := by
  intro m
  have hlt : 260096 < ramPages := by decide
  have hmapped : 260096 ∈ mappedFrames 0 m := by
    have hleaves : pageRadix.leaves m.ram 3 0 260096 = 1 :=
      (forkRam_leaves hlt 260096).trans (if_pos rfl)
    rw [mappedFrames, Set.mem_ofPred_eq, hleaves]
    exact hb.mapped
  have henough : 4 ≤ (freePages b).card := le_trans (by decide) hb.enough
  have hc := forkRam_chain hmapped hlt
  exact ⟨hc.pageTree, hc.tree.filled, forkProcess_selfMapped hlt hb.ok henough,
    forkProcess_requests hlt hb.ok (hb.mapped.held hb.ok) henough⟩

/-- The first table of the child is the page that was freed. -/
theorem StaleBuddy.first_table (hb : StaleBuddy b) {n child : ℕ} {S : Set ℕ} {m₁ : Machine}
    (hm : SelfMapped 2048 5 n S (forkProcess 260096 b)) (hlt : child < ramPages)
    (hrun : cloneVirtualMemory (buddyAllocPt 5) 0 (forkProcess 260096 b) =
      some (pageAddr child, m₁)) : child = 260097 := by
  have hpos : (freePages b).Nonempty :=
    Finset.card_pos.mp (Nat.lt_of_lt_of_le (by decide) hb.enough)
  obtain ⟨p, b', halloc, hallocPt, -, hp, -⟩ :=
    buddyAllocPt_self hb.ok (Nat.le_refl 2048) hm.kernel.1 hm.self hpos
  obtain ⟨b'', hnext⟩ := hb.next
  have hfirst : pageAddr p = pageAddr 260097 := by
    have hsame := halloc.symm.trans hnext
    rw [Option.some.injEq, Prod.mk.injEq] at hsame
    exact hsame.1
  rw [cloneVirtualMemory, hallocPt, Option.bind_eq_bind, Option.bind_some] at hrun
  obtain ⟨m₀, -, hrun⟩ := Option.bind_eq_some_iff.mp hrun
  rw [Option.some.injEq, Prod.mk.injEq] at hrun
  rw [← pageAddr_inj hp hlt hrun.1]
  exact pageAddr_inj hp (by decide) hfirst

end Stale

/-! ## §5  A fork and the exit of the child -/

/-- The exit of a child right after the fork takes back what the fork has taken. -/
theorem fork_exit_restores {array lo l0Table root : ℕ} {m : Machine} (harray : ArrayFits array)
    (hlo : 2048 ≤ lo) (hb : BuddyOk lo m.buddy)
    (ht : PageTree (TableOrFrame (mappedFrames root m)) m.ram root)
    (hfill : pageRadix.Filled (fun w => Pte.valid.get w = 1) m.ram 3 root)
    (hheld : ∀ q, 0 < pageRadix.tables m.ram 3 root q → q ∉ freePages m.buddy)
    (hone : CloneRequests (buddyAllocPt l0Table) (TakesOne (buddyAllocPt l0Table)) root m)
    (hspare : CloneRequests (buddyAllocPt l0Table) (SparesPages (buddyAllocPt l0Table)
      {q | 0 < pageRadix.tables m.ram 3 root q} m.buddy) root m) :
    ∃ child m₁ m₂, cloneVirtualMemory (buddyAllocPt l0Table) root m =
        some (pageAddr child, m₁) ∧
      reapVirtualMemory array 3 child m₁ = some m₂ ∧
      (pageAllocatorOf m₂.buddy).live = (pageAllocatorOf m.buddy).live ∧
      (∀ q ∈ heldPages m.buddy, m₂.buddy.frameMetadata q = m.buddy.frameMetadata q) ∧
      (∀ q < ramPages, pageRadix.tables m₁.ram 3 child q = 0 →
        (m₂.buddy.frameMetadata q).refcount = (m.buddy.frameMetadata q).refcount) ∧
      (∀ q, 0 < pageRadix.tables m₁.ram 3 child q →
        q ∉ heldPages m.buddy ∧ (m₂.buddy.frameMetadata q).refcount = 0) ∧
      (∀ q, 0 < pageRadix.leaves m.ram 3 root q → q ∉ freePages m₂.buddy) ∧
      ∀ x, pageRadix.lookup m₂.ram 3 root x =
        (pageRadix.lookup m.ram 3 root x).map fun r => (r.1, mark r.2) := by
  obtain ⟨child, m₁, b, S', hrun, hreap, hf, hd⟩ :=
    fork_exit harray hlo hb ht hfill hheld hone hspare
  refine ⟨child, m₁, m₁.withBuddy b, hrun, hreap, hf.live hd, fun q hq => hf.record hd hq,
    fun q hlt hnone => ?_, fun q hq => ?_, fun q hq => ?_, hf.cloned.parent.lookup marked_rewrites⟩
  · refine hf.stale hd hlt fun hnew => ?_
    exact absurd hnone (Nat.ne_of_gt ((hf.cloned.new q).mpr hnew))
  · have hnew := (hf.cloned.new q).mp hq
    exact ⟨hf.ledger.apart q hnew, hf.dropped_table hd hnew⟩
  · have hheld' : q ∈ heldPages b := by
      rw [hf.ok.held_congr hd.ok (hf.live hd)]
      exact (hf.mapped q hq).held hf.ok
    exact hheld'.2

theorem arrayFits_stale : ArrayFits (pageAddr 512) := by
  unfold ArrayFits
  decide

/-- The fork of a process with one page. -/
theorem fork_exit_restores_example : ∃ b, staleBuddy = some b ∧
    ∃ child m₁ m₂, cloneVirtualMemory (buddyAllocPt 5) 0 (forkProcess 260096 b) =
        some (pageAddr child, m₁) ∧
      reapVirtualMemory (pageAddr 512) 3 child m₁ = some m₂ ∧
      (pageAllocatorOf m₂.buddy).live = (pageAllocatorOf b).live ∧
      (∀ q ∈ heldPages b, m₂.buddy.frameMetadata q = b.frameMetadata q) ∧
      (∀ q < ramPages, pageRadix.tables m₁.ram 3 child q = 0 →
        (m₂.buddy.frameMetadata q).refcount = (b.frameMetadata q).refcount) ∧
      (∀ q, 0 < pageRadix.tables m₁.ram 3 child q →
        q ∉ heldPages b ∧ (m₂.buddy.frameMetadata q).refcount = 0) ∧
      (∀ q, 0 < pageRadix.leaves (forkRam 260096) 3 0 q → q ∉ freePages m₂.buddy) ∧
      ∀ x, pageRadix.lookup m₂.ram 3 0 x =
        (pageRadix.lookup (forkRam 260096) 3 0 x).map fun r => (r.1, mark r.2) := by
  obtain ⟨b, hrun, hb⟩ := staleBuddy_spec
  obtain ⟨ht, hfill, hself, hreq⟩ := hb.forkable
  exact ⟨b, hrun, fork_exit_restores arrayFits_stale (Nat.le_refl 2048) hb.ok ht hfill
    hself.stored (hreq.imp fun _ => And.left) (hreq.imp fun _ => And.right)⟩

/-- The first table of the child is the page that was freed, whose record counted a
reference before the clone and counts none after the reap. -/
theorem fork_exit_clears_stale_count : ∃ b, staleBuddy = some b ∧
    PageTree (TableOrFrame (mappedFrames 0 (forkProcess 260096 b))) (forkRam 260096) 0 ∧
    pageRadix.Filled (fun w => Pte.valid.get w = 1) (forkRam 260096) 3 0 ∧
    ∃ m₁ m₂, cloneVirtualMemory (buddyAllocPt 5) 0 (forkProcess 260096 b) =
        some (pageAddr 260097, m₁) ∧
      reapVirtualMemory (pageAddr 512) 3 260097 m₁ = some m₂ ∧
      (b.frameMetadata 260097).refcount = 1 ∧ (m₂.buddy.frameMetadata 260097).refcount = 0 := by
  obtain ⟨b, hrun, hb⟩ := staleBuddy_spec
  obtain ⟨ht, hfill, hself, hreq⟩ := hb.forkable
  obtain ⟨child, m₁, b', S', hclone, hreap, hf, hd⟩ :=
    fork_exit arrayFits_stale (Nat.le_refl 2048) hb.ok ht hfill hself.stored
      (hreq.imp fun _ => And.left) (hreq.imp fun _ => And.right)
  have hnew := (hf.cloned.new child).mp Radix.tables_self
  obtain rfl : child = 260097 := hb.first_table hself hnew.2.2 hclone
  exact ⟨b, hrun, ht, hfill, m₁, m₁.withBuddy b', hclone, hreap, hb.stale,
    hf.dropped_table hd hnew⟩

end Rpos
