import Rpos.Memory.PagePool

/-!
# References to pages

`decrement_ref` of `memory/paging.c`. The records of the page frames are an array of
`page_frame_t` in the kernel's address space, at the virtual address that
`page_frame_array_start` yields. The allocator sets a count when it grants a page and
otherwise leaves the counts alone, so a sequence of releases takes from each count what it
names, and returns a page with its last reference.
-/

namespace Rpos

open Base

/-! ## §1  Records by address -/

/-- `sizeof(page_frame_t)`. -/
def frameRecordSize : ℕ := 32

/-- `base + pfn` on a `page_frame_t*`. -/
def recordAddr (base pfn : ℕ) : ℕ := (base + pfn * frameRecordSize) % 2 ^ 64

/-- The frame whose record is at an address, for the array at `array`. -/
def recordAt (array a : ℕ) : Option ℕ :=
  if array ≤ a ∧ a < array + ramPages * frameRecordSize ∧
      (a - array) % frameRecordSize = 0 then
    some ((a - array) / frameRecordSize)
  else none

/-- The record that `decrement_ref` updates for the page at `addr`. -/
def updatedRecord (array addr : ℕ) : ℕ := recordAddr array (vaToPa addr / pageSize)

def decrementRef (array addr : ℕ) (b : Buddy) : Option (ℕ × Buddy) := do
  let pf ← recordAt array (updatedRecord array addr)
  if (b.frameMetadata pf).state = pageReserved then
    some (2 ^ 64 - 2, b)
  else if (b.frameMetadata pf).flags &&& pageBuddyHead = 0 then
    some (2 ^ 64 - 1, b)
  else
    let b := b.modifyFrame pf fun f => { f with refcount := (f.refcount + (2 ^ 32 - 1)) % 2 ^ 32 }
    let b ← if (b.frameMetadata pf).refcount = 0 then buddyFree addr b else some b
    some ((b.frameMetadata pf).refcount, b)

theorem updatedRecord_eq {array pfn : ℕ} (hpfn : pfn < 2 ^ 36) :
    updatedRecord array (paToVa (pfn * pageSize)) = recordAddr array pfn := by
  have hframe : vaToPa (paToVa (pfn * pageSize)) / pageSize = pfn := by
    simp only [vaToPa, paToVa, virtBase, pageSize]
    omega
  rw [updatedRecord, hframe]

def ArrayFits (array : ℕ) : Prop := array + ramPages * frameRecordSize ≤ 2 ^ 64

theorem recordAt_recordAddr {array q : ℕ} (harray : ArrayFits array) (hq : q < ramPages) :
    recordAt array (recordAddr array q) = some q := by
  have haddr : recordAddr array q = array + q * frameRecordSize := by
    apply Nat.mod_eq_of_lt
    simp only [ArrayFits, frameRecordSize] at *
    omega
  rw [recordAt, haddr, Nat.add_sub_cancel_left, Nat.mul_mod_left,
    Nat.mul_div_cancel q (by decide), if_pos]
  refine ⟨Nat.le_add_right _ _, ?_, rfl⟩
  exact Nat.add_lt_add_left (Nat.mul_lt_mul_of_pos_right hq (by decide)) array

/-! ## §2  Counts -/

/-- The two states differ in the reference counts at most. -/
structure OnlyCounts (b b' : Buddy) : Prop where
  links : b'.links = b.links
  order : ∀ q, (b'.frameMetadata q).order = (b.frameMetadata q).order
  flags : ∀ q, (b'.frameMetadata q).flags = (b.frameMetadata q).flags
  state : ∀ q, (b'.frameMetadata q).state = (b.frameMetadata q).state

section Counts

variable {lo : ℕ} {b b' : Buddy} {B : Finset Block} {L : ℕ → List ℕ}

theorem BuddyRep.counts (hr : BuddyRep lo ramPages b B L) (h : OnlyCounts b b') :
    BuddyRep lo ramPages b' B L := by
  refine ⟨hr.tiles, fun c hc => ?_, fun q hq => ?_, ?_, fun k hk p => ?_⟩
  · have hd := hr.described c hc
    refine ⟨?_, ?_, fun q hq hne => ?_, fun q hq hne => ?_⟩
    · rw [h.order, hd.order]
    · rw [h.flags, hd.flags]
    · rw [h.order, hd.tail_order q hq hne]
    · rw [h.flags, h.state]
      exact hd.tail_flags q hq hne
  · rw [h.order, h.flags, h.state]
    exact hr.reserved q hq
  · rw [h.links]
    exact hr.rings
  · rw [h.state]
    exact hr.free k hk p

theorem OnlyCounts.allocator (h : OnlyCounts b b') :
    pageAllocatorOf b' = pageAllocatorOf b := by
  have hblocks : blocksOf b' = blocksOf b := by
    simp only [blocksOf, h.flags, h.order]
  simp only [pageAllocatorOf, liveBlocks, freeBlocks, hblocks, h.state]

theorem OnlyCounts.ok (h : OnlyCounts b b') (hb : BuddyOk lo b) : BuddyOk lo b' :=
  hb.elim fun _ hr => (hr.counts h).ok

theorem OnlyCounts.freePages (h : OnlyCounts b b') : freePages b' = freePages b := by
  rw [freePages_eq, freePages_eq, h.allocator]

end Counts

/-! ## §3  The allocator and the counts -/

section Kept

variable {bytes addr w k p q : ℕ} {b b' : Buddy}

theorem mergeBuddies_refcount (k p p' : ℕ) (b : Buddy) (q : ℕ) :
    ((mergeBuddies k p p' b).frameMetadata q).refcount = (b.frameMetadata q).refcount := by
  simp only [mergeBuddies, Buddy.forRange_modifyFrame, Buddy.listAdd_frames,
    Buddy.modifyFrame_apply, modifyRange, Buddy.listRemove_frames]
  split_ifs <;> simp_all only

theorem coalesceUp_refcount (fuel : ℕ) (hrun : coalesceUp fuel p b = some b') :
    (b'.frameMetadata q).refcount = (b.frameMetadata q).refcount := by
  induction fuel generalizing p b with
  | zero => exact absurd hrun (Option.some_ne_none b').symm
  | succ fuel ih =>
      rw [coalesceUp] at hrun
      split_ifs at hrun
      · exact Option.some.inj hrun ▸ rfl
      · rw [ih hrun, mergeBuddies_refcount]
      · exact Option.some.inj hrun ▸ rfl

theorem putBlock_refcount (k p : ℕ) (b : Buddy) (q : ℕ) :
    ((putBlock k p b).frameMetadata q).refcount = (b.frameMetadata q).refcount := by
  rw [putBlock_frames]
  split_ifs <;> rfl

theorem buddyFree_refcount (hrun : buddyFree addr b = some b') (q : ℕ) :
    (b'.frameMetadata q).refcount = (b.frameMetadata q).refcount := by
  rw [buddyFree, Option.bind_eq_bind, Option.bind_eq_some_iff] at hrun
  obtain ⟨p, -, hrun⟩ := hrun
  dsimp only at hrun
  split_ifs at hrun
  · exact Option.some.inj hrun ▸ rfl
  · exact Option.some.inj hrun ▸ rfl
  · rw [coalesceUp_refcount _ hrun, putBlock_refcount]
  · exact Option.some.inj hrun ▸ putBlock_refcount _ _ _ q

theorem splitDown_refcount {k : ℕ} {node : BuddyNode} (n : ℕ)
    (hrun : splitDown k n b = some (node, b')) (q : ℕ) :
    (b'.frameMetadata q).refcount = (b.frameMetadata q).refcount := by
  induction n generalizing b with
  | zero =>
      rw [splitDown, Option.some.injEq, Prod.mk.injEq] at hrun
      rw [hrun.2]
  | succ n ih =>
      rw [splitDown, Option.bind_eq_bind, Option.bind_eq_some_iff] at hrun
      obtain ⟨p, -, hrun⟩ := hrun
      rw [ih hrun, splitBlockAt_frames, splitFrames]
      split_ifs <;> rfl

theorem allocAndReturn_refcount (hrun : allocAndReturn 0 b = some (w, b'))
    (hq : pageAddr q ≠ w) : (b'.frameMetadata q).refcount = (b.frameMetadata q).refcount := by
  rw [allocAndReturn, Option.bind_eq_bind, Option.bind_eq_some_iff] at hrun
  obtain ⟨p, -, hrun⟩ := hrun
  rw [Option.some.injEq, Prod.mk.injEq] at hrun
  obtain ⟨rfl, rfl⟩ := hrun
  have hout : q ∉ (⟨p, 0⟩ : Block).pages := by
    rw [pages_zero, Finset.mem_singleton]
    exact fun h => hq (congrArg pageAddr h)
  rw [takeBlock_eq]
  dsimp only
  rw [takeFrames_of_notMem _ hout]

theorem findAndSplit_refcount (fuel n : ℕ) (hrun : findAndSplit 0 fuel n b = some (w, b'))
    (hq : pageAddr q ≠ w) : (b'.frameMetadata q).refcount = (b.frameMetadata q).refcount := by
  induction fuel generalizing n with
  | zero =>
      rw [findAndSplit, Option.some.injEq, Prod.mk.injEq] at hrun
      rw [hrun.2]
  | succ fuel ih =>
      rw [findAndSplit] at hrun
      split_ifs at hrun
      · exact ih (n + 1) hrun
      · rw [Option.bind_eq_bind, Option.bind_eq_some_iff] at hrun
        obtain ⟨⟨node, b₁⟩, hsplit, hrun⟩ := hrun
        rw [allocAndReturn_refcount hrun hq, splitDown_refcount n hsplit]

/-- A request for a page sets the count of the page that it grants. -/
theorem buddyAlloc_refcount (hrun : buddyAlloc pageSize b = some (w, b'))
    (hq : pageAddr q ≠ w) : (b'.frameMetadata q).refcount = (b.frameMetadata q).refcount := by
  have horder : requestedOrder (pagesFor pageSize) 256 0 = some 0 := by decide
  rw [buddyAlloc, horder, Option.bind_eq_bind, Option.bind_some] at hrun
  split_ifs at hrun
  · rw [Option.some.injEq, Prod.mk.injEq] at hrun
    rw [hrun.2]
  · exact allocAndReturn_refcount hrun hq
  · exact findAndSplit_refcount _ _ hrun hq

end Kept

/-! ## §4  Pages that are held -/

def heldPages (b : Buddy) : Set ℕ := {q | q < ramPages ∧ q ∉ freePages b}

section Held

variable {lo q : ℕ} {b : Buddy}

/-- A page that is held is reserved or belongs to a live block. -/
theorem BuddyOk.held_iff (hb : BuddyOk lo b) (hq : q < ramPages) :
    q ∈ heldPages b ↔ q < lo ∨ ∃ c ∈ (pageAllocatorOf b).live, q ∈ c.pages := by
  obtain ⟨L, hr⟩ := hb
  have hpool : (pageAllocatorOf b).pool =
      Finset.Ico lo ramPages \ pagesOf (pageAllocatorOf b).live := hr.pool_eq
  have hmem : q ∈ freePages b ↔
      (lo ≤ q ∧ q < ramPages) ∧ ¬ ∃ c ∈ (pageAllocatorOf b).live, q ∈ c.pages := by
    rw [freePages_eq, hpool, Finset.mem_sdiff, Finset.mem_Ico, mem_pagesOf]
  constructor
  · rintro ⟨-, hnot⟩
    by_contra hneither
    obtain ⟨hlow, hlive⟩ := not_or.mp hneither
    exact hnot (hmem.mpr ⟨⟨Nat.le_of_not_lt hlow, hq⟩, hlive⟩)
  · intro hcases
    refine ⟨hq, fun hfree => ?_⟩
    obtain ⟨⟨hle, -⟩, hlive⟩ := hmem.mp hfree
    exact hcases.elim (Nat.not_lt.mpr hle) hlive

end Held

/-! ## §5  A reference is dropped -/

/-- `b'` is `b` after the references to the pages of `l` have been dropped: the pages whose
last reference was among them are no live blocks any more. -/
structure Dropped (lo : ℕ) (l : List ℕ) (b b' : Buddy) : Prop where
  ok : BuddyOk lo b'
  count : ∀ q, (b'.frameMetadata q).refcount = (b.frameMetadata q).refcount - l.count q
  live : ∀ c, c ∈ (pageAllocatorOf b').live ↔ c ∈ (pageAllocatorOf b).live ∧
    ¬ (c.order = 0 ∧ c.base ∈ l ∧ (b.frameMetadata c.base).refcount = l.count c.base)
  record : ∀ q ∈ heldPages b', b'.frameMetadata q =
    { b.frameMetadata q with refcount := (b'.frameMetadata q).refcount }

/-- The pages of `l` are pages of their own with enough references. -/
def Droppable (l : List ℕ) (b : Buddy) : Prop :=
  ∀ q ∈ l, q < ramPages ∧ (⟨q, 0⟩ : Block) ∈ (pageAllocatorOf b).live ∧
    (b.frameMetadata q).state ≠ pageReserved ∧ l.count q ≤ (b.frameMetadata q).refcount ∧
    (b.frameMetadata q).refcount < 2 ^ 32

/-- `decrement_ref` on a page, for its effect. -/
def dropRef (array : ℕ) (b : Buddy) (q : ℕ) : Option Buddy :=
  (decrementRef array (pageAddr q) b).map Prod.snd

section Drop

variable {array lo q : ℕ} {b : Buddy}

theorem Dropped.nil (hb : BuddyOk lo b) : Dropped lo [] b b := by
  refine ⟨hb, fun q => rfl, fun c => ?_, fun q _ => rfl⟩
  exact ⟨fun h => ⟨h, fun h' => absurd h'.2.1 List.not_mem_nil⟩, And.left⟩

def lessOne (b : Buddy) (q : ℕ) : Buddy :=
  b.modifyFrame q fun f => { f with refcount := (f.refcount + (2 ^ 32 - 1)) % 2 ^ 32 }

theorem lessOne_counts (b : Buddy) (q : ℕ) : OnlyCounts b (lessOne b q) := by
  refine ⟨rfl, fun y => ?_, fun y => ?_, fun y => ?_⟩ <;>
    simp only [lessOne, Buddy.modifyFrame_apply] <;> split_ifs with h <;> simp only [h]

theorem lessOne_refcount (hpos : 0 < (b.frameMetadata q).refcount)
    (hlt : (b.frameMetadata q).refcount < 2 ^ 32) (y : ℕ) :
    ((lessOne b q).frameMetadata y).refcount =
      (b.frameMetadata y).refcount - [q].count y := by
  rw [lessOne, Buddy.modifyFrame_apply, List.count_singleton]
  by_cases hy : y = q
  · subst hy
    rw [if_pos rfl, if_pos (beq_self_eq_true y)]
    show (_ + _) % _ = _
    omega
  · rw [if_neg hy, if_neg fun h => hy (beq_iff_eq.mp h).symm, Nat.sub_zero]

theorem dropRef_eq (harray : ArrayFits array) (hq : q < ramPages)
    (hstate : (b.frameMetadata q).state ≠ pageReserved)
    (hhead : (b.frameMetadata q).flags &&& pageBuddyHead ≠ 0) :
    dropRef array b q = if ((lessOne b q).frameMetadata q).refcount = 0 then
      buddyFree (pageAddr q) (lessOne b q) else some (lessOne b q) := by
  have hrecord : recordAt array (updatedRecord array (pageAddr q)) = some q := by
    rw [pageAddr, updatedRecord_eq (Nat.lt_trans hq (by decide)), recordAt_recordAddr harray hq]
  rw [dropRef, decrementRef, hrecord, Option.bind_eq_bind, Option.bind_some, if_neg hstate,
    if_neg hhead]
  show Option.map Prod.snd (if ((lessOne b q).frameMetadata q).refcount = 0 then
    (buddyFree (pageAddr q) (lessOne b q)).bind _ else (some (lessOne b q)).bind _) = _
  split_ifs
  · rw [Option.map_bind]
    exact Option.bind_fun_some _
  · rfl

theorem BuddyOk.live_page (hb : BuddyOk lo b) (hq : (⟨q, 0⟩ : Block) ∈ (pageAllocatorOf b).live) :
    q ∈ heldPages b ∧ (b.frameMetadata q).flags &&& pageBuddyHead ≠ 0 ∧
      ∀ c ∈ (pageAllocatorOf b).live, q ∈ c.pages → c = ⟨q, 0⟩ := by
  have hheld := fun hlt => (hb.held_iff (q := q) hlt).mpr (Or.inr ⟨_, hq, Block.base_mem ⟨q, 0⟩⟩)
  obtain ⟨L, hr⟩ := hb
  have hmem := (mem_liveBlocks.mp hq).1
  have hlt := (hr.tiles.base_lt hmem).2
  refine ⟨hheld hlt, (hr.head_flag_iff hlt).mpr ⟨_, hmem, rfl⟩, fun c hc hqc => ?_⟩
  exact hr.live_apart c hc _ hq q hqc (Block.base_mem ⟨q, 0⟩)

theorem BuddyOk.free_page (hb : BuddyOk lo b) (hlo : 2048 ≤ lo)
    (hq : (⟨q, 0⟩ : Block) ∈ (pageAllocatorOf b).live) :
    ∃ b', buddyFree (pageAddr q) b = some b' ∧ BuddyOk lo b' ∧
      (pageAllocatorOf b').live = (pageAllocatorOf b).live.erase ⟨q, 0⟩ ∧
      ∀ y ∈ heldPages b', b'.frameMetadata y = b.frameMetadata y := by
  obtain ⟨hheld, -, hapart⟩ := hb.live_page hq
  have hframe := frameOf_pageAddr hheld.1
  obtain ⟨L, hr⟩ := hb
  have hout := buddyFree_spec hr hlo hframe
  generalize hrun : buddyFree (pageAddr q) b = r at hout
  cases hout with
  | ignored hnone => exact absurd rfl (hnone _ hq)
  | released c b' B' L' hc hbase hr' hd _ =>
      obtain rfl : c = ⟨q, 0⟩ := by
        refine hapart c hc ?_
        rw [← hbase]
        exact c.base_mem
      have hlive : (pageAllocatorOf b').live = (pageAllocatorOf b).live.erase ⟨q, 0⟩ := by
        rw [hr'.view_eq]
        exact hd.live
      refine ⟨b', rfl, hr'.ok, hlive, fun y hy => ?_⟩
      rcases (hr'.ok.held_iff hy.1).mp hy with hlow | ⟨d, hd', hyd⟩
      · exact hd.reserved y hlow
      · rw [hlive, Finset.mem_erase] at hd'
        exact hd.records d hd'.2 hd'.1 y hyd

theorem dropRef_spec (harray : ArrayFits array) (hlo : 2048 ≤ lo) (hb : BuddyOk lo b)
    (hq : Droppable [q] b) : ∃ b', dropRef array b q = some b' ∧ Dropped lo [q] b b' := by
  obtain ⟨hlt, hlive, hstate, hcount, hbound⟩ := hq q (List.mem_singleton_self q)
  rw [List.count_singleton_self] at hcount
  obtain ⟨-, hhead, -⟩ := hb.live_page hlive
  have honly := lessOne_counts b q
  have hless := lessOne_refcount hcount hbound
  have hself : ((lessOne b q).frameMetadata q).refcount = (b.frameMetadata q).refcount - 1 := by
    rw [hless q, List.count_singleton_self]
  have hrecord : ∀ y, (lessOne b q).frameMetadata y =
      { b.frameMetadata y with refcount := ((lessOne b q).frameMetadata y).refcount } := by
    intro y
    rw [PageFrame.mk.injEq]
    exact ⟨honly.order y, rfl, honly.state y, honly.flags y⟩
  rw [dropRef_eq harray hlt hstate hhead]
  by_cases hone : (b.frameMetadata q).refcount = 1
  · rw [if_pos (by rw [hself, hone])]
    have hlive' : (⟨q, 0⟩ : Block) ∈ (pageAllocatorOf (lessOne b q)).live := by
      rw [honly.allocator]
      exact hlive
    obtain ⟨b', hrun, hb', herase, hkeep⟩ := (honly.ok hb).free_page hlo hlive'
    refine ⟨b', hrun, hb', fun y => ?_, fun c => ?_, fun y hy => ?_⟩
    · rw [buddyFree_refcount hrun, hless]
    · rw [herase, honly.allocator, Finset.mem_erase, and_comm]
      apply and_congr_right'
      rw [not_iff_not, List.mem_singleton]
      constructor
      · rintro rfl
        exact ⟨rfl, rfl, hone.trans (List.count_singleton_self).symm⟩
      · rintro ⟨horder, hbase, -⟩
        cases c
        exact Block.mk.injEq _ _ _ _ ▸ ⟨hbase, horder⟩
    · rw [hkeep y hy, hrecord y]
  · rw [if_neg (by rw [hself]; omega)]
    refine ⟨_, rfl, honly.ok hb, hless, fun c => ?_, fun y _ => hrecord y⟩
    rw [honly.allocator, iff_self_and]
    rintro - ⟨-, hbase, hcount'⟩
    obtain rfl := List.mem_singleton.mp hbase
    rw [List.count_singleton_self] at hcount'
    exact hone hcount'

end Drop

section Drops

variable {array lo q : ℕ} {l : List ℕ} {b b₁ b' : Buddy}

theorem Dropped.held (hb : BuddyOk lo b) (hd : Dropped lo l b b') :
    heldPages b' ⊆ heldPages b := by
  intro y hy
  rcases (hd.ok.held_iff hy.1).mp hy with hlow | ⟨c, hc, hyc⟩
  · exact (hb.held_iff hy.1).mpr (Or.inl hlow)
  · exact (hb.held_iff hy.1).mpr (Or.inr ⟨c, ((hd.live c).mp hc).1, hyc⟩)

theorem Droppable.tail (hl : Droppable (q :: l) b) (hd : Dropped lo [q] b b₁) :
    Droppable l b₁ := by
  intro y hy
  obtain ⟨hlt, hlive, hstate, hcount, hbound⟩ := hl y (List.mem_cons_of_mem q hy)
  have hpos : 0 < l.count y := List.count_pos_iff.mpr hy
  have hsplit : ([q] ++ l).count y = [q].count y + l.count y := List.count_append
  rw [List.singleton_append] at hsplit
  have hlive₁ : (⟨y, 0⟩ : Block) ∈ (pageAllocatorOf b₁).live := by
    refine (hd.live _).mpr ⟨hlive, fun h => ?_⟩
    have hlast : (b.frameMetadata y).refcount = [q].count y := h.2.2
    omega
  have hrecord := hd.record y (hd.ok.live_page hlive₁).1
  have hdropped := hd.count y
  refine ⟨hlt, hlive₁, ?_, ?_, ?_⟩
  · rw [hrecord]
    exact hstate
  · omega
  · omega

theorem Dropped.cons (hl : Droppable (q :: l) b)
    (hd : Dropped lo [q] b b₁) (hd' : Dropped lo l b₁ b') : Dropped lo (q :: l) b b' := by
  have hsplit : ∀ y, ([q] ++ l).count y = [q].count y + l.count y :=
    fun y => List.count_append
  rw [List.singleton_append] at hsplit
  refine ⟨hd'.ok, fun y => ?_, fun c => ?_, fun y hy => ?_⟩
  · rw [hd'.count, hd.count, hsplit, Nat.sub_sub]
  · rw [hd'.live, hd.live, and_assoc]
    apply and_congr_right
    intro _
    -- the last reference is the first of the list or one of the rest
    have henough : 0 < (q :: l).count c.base →
        (q :: l).count c.base ≤ (b.frameMetadata c.base).refcount :=
      fun hpos => (hl c.base (List.count_pos_iff.mp hpos)).2.2.2.1
    rw [← not_or, not_iff_not, hd.count]
    simp only [← List.count_pos_iff, hsplit] at henough ⊢
    omega
  · rw [hd'.record y hy, hd.record y (hd'.held hd.ok hy)]

theorem dropRefs_spec (harray : ArrayFits array) (hlo : 2048 ≤ lo) (l : List ℕ)
    (hb : BuddyOk lo b) (hl : Droppable l b) :
    ∃ b', l.foldlM (dropRef array) b = some b' ∧ Dropped lo l b b' := by
  induction l generalizing b with
  | nil => exact ⟨b, rfl, .nil hb⟩
  | cons q l ih =>
      have hq : Droppable [q] b := by
        intro y hy
        obtain rfl := List.mem_singleton.mp hy
        obtain ⟨hlt, hlive, hstate, hcount, hbound⟩ := hl y List.mem_cons_self
        rw [List.count_cons_self] at hcount
        rw [List.count_singleton_self]
        exact ⟨hlt, hlive, hstate, Nat.le_trans (Nat.le_add_left 1 _) hcount, hbound⟩
      obtain ⟨b₁, hrun, hd⟩ := dropRef_spec harray hlo hb hq
      obtain ⟨b', hrun', hd'⟩ := ih hd.ok (hl.tail hd)
      refine ⟨b', ?_, hd.cons hl hd'⟩
      rw [List.foldlM_cons, hrun, Option.bind_eq_bind, Option.bind_some, hrun']

end Drops

end Rpos
