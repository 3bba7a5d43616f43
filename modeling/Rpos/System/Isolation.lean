import Rpos.Base.RadixCount
import Rpos.Memory.BuddyCapacity
import Rpos.Memory.ReapPages
import Rpos.System.AddressSpaces

/-!
# Fork, exit and the memories of the processes

A fork marks the entries of the parent and counts each frame once more; an exit drops one
reference for each word of the tree. Both keep the invariant, so every run of the calls is a
run of processes with memories of their own.
-/

namespace Rpos

open Base

/-! ## §1  What a process maps -/

section Leaves

variable {lo l0Table r f x : ℕ} {T : Set ℕ} {s : Spaces}

theorem tableOrPage_low {h : ℕ} {w : Word} (hw : TableOrPage h w)
    (hnot : pageRadix.table h w = false) (hleaf : pageRadix.leaf h w = true) : h = 0 := by
  by_contra hne
  obtain ⟨e, rfl⟩ := Nat.exists_eq_succ_of_ne_zero hne
  have hv := (of_decide_eq_true hleaf).1
  rw [table_intro e hv (hw hv)] at hnot
  exact absurd hnot (by decide)

namespace Spaces.Ok

theorem mapsLow (hs : s.Ok lo l0Table T) (hr : r ∈ s.roots) :
    pageRadix.MapsLow s.machine.ram 3 r :=
  (hs.tree r hr).every.mono fun _ _ hw hnot hleaf => tableOrPage_low hw hnot hleaf

theorem leaves_eq (hs : s.Ok lo l0Table T) (hr : r ∈ s.roots) (f : ℕ) :
    pageRadix.leaves s.machine.ram 3 r f =
      ((Finset.range (tableSize ^ 4)).filter fun x => s.sharing.frame r x = some f).card := by
  rw [Radix.leaves_eq_card (hs.mapsLow hr)]
  refine congrArg Finset.card (Finset.filter_congr fun x hx => ?_)
  rw [frame_eq hr (Finset.mem_range.mp hx)]

theorem leaves_one (hs : s.Ok lo l0Table T) (hf : s.sharing.Holds f r) :
    pageRadix.leaves s.machine.ram 3 r f = 1 := by
  obtain ⟨x, hx⟩ := hf
  obtain ⟨hr, hlt, -⟩ := frame_some hx
  rw [hs.leaves_eq hr]
  exact hs.sound.card_pages hx (Finset.mem_range.mpr hlt)

theorem leaves_none (hs : s.Ok lo l0Table T) (hr : r ∈ s.roots) (hf : ¬ s.sharing.Holds f r) :
    pageRadix.leaves s.machine.ram 3 r f = 0 := by
  rw [hs.leaves_eq hr]
  exact Sharing.card_pages_none hf

theorem leaves_pos_iff (hs : s.Ok lo l0Table T) (hr : r ∈ s.roots) :
    0 < pageRadix.leaves s.machine.ram 3 r f ↔ s.sharing.Holds f r := by
  by_cases hf : s.sharing.Holds f r
  · rw [hs.leaves_one hf]
    exact iff_of_true Nat.one_pos hf
  · rw [hs.leaves_none hr hf]
    exact iff_of_false (Nat.lt_irrefl 0) hf

theorem leaves_table (hs : s.Ok lo l0Table T) (hr : r ∈ s.roots) (hf : f ∈ s.tables) :
    pageRadix.leaves s.machine.ram 3 r f = 0 :=
  hs.leaves_none hr fun ⟨x, hx⟩ => hs.frames f ⟨r, x, hx⟩ hf

theorem card_roots (hs : s.Ok lo l0Table T) : s.roots.card ≤ ramPages := by
  have hsub : s.roots ⊆ Finset.range ramPages :=
    fun r hr => Finset.mem_range.mpr (hs.used_lt (root_mem hr))
  exact (Finset.card_le_card hsub).trans (Finset.card_range ramPages).le

end Spaces.Ok

end Leaves

/-! ## §2  Fork -/

section Fork

variable {lo l0Table root child x f : ℕ} {T : Set ℕ} {s : Spaces} {m : Machine}

theorem mark_not_writable (w : Word) : ¬ Writable (mark w) := by
  have hap : Pte.ap.get (mark w) = el0RoEl1Ro := by
    rw [mark, BitField.get_set]
    decide
  rw [Writable, hap]
  decide

/-- The tree of a process that has a page mapped can be cloned. -/
theorem Spaces.Ok.cloneable (hs : s.Ok lo l0Table T) (hx : s.sharing.frame root x = some f) :
    Cloneable (heldPages s.machine.buddy) s.used 3 root s.machine.ram := by
  obtain ⟨hroot, -, w, hw, -⟩ := frame_some hx
  have ht := hs.tree root hroot
  have hentry : HasEntry s.machine.ram root := by
    by_contra hnone
    have hvoid : ∀ i < pageRadix.fan, pageRadix.Void (s.machine.ram root i) :=
      fun i hi => void_of_invalid fun hv => hnone ⟨i, hi, hv⟩
    obtain ⟨-, -, e, he⟩ := pte_some hw
    rw [Radix.lookup_void hvoid] at he
    exact absurd he.symm (Option.some_ne_none _)
  refine ⟨ht.distinct, ?_, Radix.filled_iff.mpr fun q hq => ?_, fun q hq =>
    ⟨table_mem hroot hq, ht.inRam q hq⟩⟩
  · have hfound : ∀ y < pageRadix.fan ^ (3 + 1), ∀ e u,
        pageRadix.lookup s.machine.ram 3 root y = some (e, u) →
        Pte.address.get u ∈ heldPages s.machine.buddy ∧ Pte.address.get u < ramPages := by
      intro y hy e u hu
      have hframe : s.sharing.frame root y = some (Pte.address.get u) := by
        rw [frame_eq hroot hy, Radix.pageOf, hu]
        rfl
      have hused := hs.kernel.used _ (Or.inr ⟨root, y, hframe⟩)
      exact ⟨hused.2, hused.2.1⟩
    refine (ht.every.of_lookup hfound).mono fun h u hu hv => ⟨hu.1 hv, ?_⟩
    rintro rfl
    exact hu.2 (not_table_zero u) (page_leaf hv (hu.1 hv))
  · by_cases hne : q = root
    · exact hne ▸ hentry
    · exact hs.filled root hroot q hq hne

theorem Marked.filled {h : ℕ} {w w' : Word} (hm : Marked h w w') :
    pageRadix.table h w' = pageRadix.table h w ∧
      (Pte.valid.get w = 1 → Pte.valid.get w' = 1) := by
  refine ⟨hm.kind.1, fun hv => ?_⟩
  rw [Marked] at hm
  split_ifs at hm
  · rw [hm, mark_get (by decide) (by decide), hv]
  · rw [hm, hv]

theorem CopyWord.filled {h : ℕ} {w w' : Word} (hc : CopyWord h w w') :
    pageRadix.table h w' = pageRadix.table h w ∧
      (Pte.valid.get w = 1 → Pte.valid.get w' = 1) :=
  ⟨hc.table, fun hv => hc.valid.trans hv⟩

theorem Marked.tableOrPage {h : ℕ} {w w' : Word} (hm : Marked h w w') (hw : TableOrPage h w) :
    TableOrPage h w' := by
  rw [Marked] at hm
  split_ifs at hm
  · rw [hm, TableOrPage, mark_get (by decide) (by decide), mark_get (by decide) (by decide)]
    exact hw
  · rw [hm]
    exact hw

theorem Counted.addRefs {b b' : Buddy} {n k q : ℕ} (h : Counted b n q)
    (hlive : (⟨q, 0⟩ : Block) ∈ (pageAllocatorOf b').live)
    (hrecord : b'.frameMetadata q = (b.frameMetadata q).addRefs k) (hlt : n + k < 2 ^ 32) :
    Counted b' (n + k) q := by
  refine ⟨hlive, ?_, ?_⟩
  · rw [hrecord, (addRefs_fields _ _).2.2]
    exact h.state
  · rw [hrecord, addRefs_refcount (by rw [h.refcount]; exact hlt), h.refcount]

theorem Spaces.supply (s : Spaces) (hlo : 2048 ≤ lo) :
    TableSupply (buddyAllocPt l0Table) (fun _ => True) (heldPages s.machine.buddy) fun n S m =>
      (PagedKernel lo l0Table T S m ∧ n ≤ (freePages m.buddy).card) ∧
        ForkLedger lo s.machine.buddy s.used S m.buddy :=
  (PagedKernel.supply hlo _).supply hlo

theorem Spaces.Ok.supplied {n : ℕ} (hs : s.Ok lo l0Table T)
    (hsize : n + pageRadix.size s.machine.ram 3 root ≤ (freePages s.machine.buddy).card) :
    (PagedKernel lo l0Table T s.used s.machine ∧
      n + pageRadix.size s.machine.ram 3 root ≤ (freePages s.machine.buddy).card) ∧
        ForkLedger lo s.machine.buddy s.used s.used s.machine.buddy :=
  ⟨⟨hs.kernel, hsize⟩, .start hs.kernel.buddy fun q hq => (hs.kernel.used q hq).2.2⟩

theorem Spaces.Ok.cloned (hs : s.Ok lo l0Table T) (hlo : 2048 ≤ lo) (hlt : child < ramPages)
    (hx : s.sharing.frame root x = some f)
    (hsize : pageRadix.size s.machine.ram 3 root ≤ (freePages s.machine.buddy).card)
    (hrun : cloneVirtualMemory (buddyAllocPt l0Table) root s.machine =
      some (pageAddr child, m)) :
    ∃ U, Cloned (heldPages s.machine.buddy) s.used U 3 root child s.machine m ∧
      PagedKernel lo l0Table T U m ∧ ForkLedger lo s.machine.buddy s.used U m.buddy := by
  rw [← Nat.zero_add (pageRadix.size s.machine.ram 3 root)] at hsize
  obtain ⟨-, c, m', U, hrun', hcl, ⟨hkernel, -⟩, hledger⟩ := cloneVirtualMemory_spec
    (s.supply hlo) (hs.cloneable hx) (hs.supplied hsize) (Or.inl fun _ _ _ _ => trivial)
  rw [hrun, Option.some.injEq, Prod.mk.injEq] at hrun'
  obtain ⟨haddr, rfl⟩ := hrun'
  obtain rfl := pageAddr_inj hlt ((hcl.new c).mp Radix.tables_self).2.2 haddr
  exact ⟨U, hcl, hkernel, hledger⟩

theorem Spaces.Ok.pte_fork {U F : Set ℕ} (hs : s.Ok lo l0Table T) (hroot : root ∈ s.roots)
    (hchild : child ∉ s.roots) (hcl : Cloned F s.used U 3 root child s.machine m) (r y : ℕ) :
    Spaces.pte ⟨m, insert child s.roots⟩ r y =
      if r = root ∨ r = child then (s.pte root y).map mark else s.pte r y := by
  by_cases hy : y < tableSize ^ 4
  · have hparent := hcl.parent.lookup marked_rewrites y
    have hcopy := hcl.child.lookup copyWord_rewrites y
    have hmem : child ∈ insert child s.roots := Finset.mem_insert_self _ _
    by_cases hr : r = root ∨ r = child
    · rw [if_pos hr, pte_eq hroot hy]
      have hr' : r ∈ (Spaces.mk m (insert child s.roots)).roots := by
        rcases hr with rfl | rfl
        · exact Finset.mem_insert_of_mem hroot
        · exact hmem
      have hlook : pageRadix.lookup m.ram 3 r y =
          (pageRadix.lookup s.machine.ram 3 root y).map fun e => (e.1, mark e.2) := by
        rcases hr with rfl | rfl
        · exact hparent
        · exact hcopy
      rw [pte_eq hr' hy, hlook, Option.map_map, Option.map_map]
      rfl
    · obtain ⟨hne, hne'⟩ := not_or.mp hr
      rw [if_neg hr]
      refine Spaces.pte_congr (Finset.mem_insert.trans (or_iff_right hne')) fun hmem q hq => ?_
      exact hcl.keep q (table_mem hmem hq) (hs.table_apart hmem hroot hne hq)
  · have hnone : ∀ (s : Spaces) (r : ℕ), s.pte r y = none :=
      fun s r => if_neg fun h => hy h.2
    rw [hnone, hnone, hnone, Option.map_none, ite_self]

theorem Spaces.Ok.fork (hs : s.Ok lo l0Table T) (hlo : 2048 ≤ lo) (hlt : child < ramPages)
    (hx : s.sharing.frame root x = some f)
    (hsize : pageRadix.size s.machine.ram 3 root ≤ (freePages s.machine.buddy).card)
    (hrun : cloneVirtualMemory (buddyAllocPt l0Table) root s.machine =
      some (pageAddr child, m)) :
    Spaces.Ok lo l0Table T ⟨m, insert child s.roots⟩ ∧
      Spaces.memories ⟨m, insert child s.roots⟩ = s.memories.step (.fork root child) := by
  have hroot := (frame_some hx).1
  obtain ⟨U, hcl, hkernel, hledger⟩ := hs.cloned hlo hlt hx hsize hrun
  have hfresh := (hcl.new child).mp Radix.tables_self
  have hchild : child ∉ s.roots := fun h => hfresh.2.1 (root_mem h)
  have hpte := hs.pte_fork hroot hchild hcl
  have hframe : (Spaces.sharing ⟨m, insert child s.roots⟩).frame =
      (s.sharing.copy root child).frame := by
    funext r y
    rw [Sharing.frame_copy]
    show (Spaces.pte ⟨m, insert child s.roots⟩ r y).map Pte.address.get = _
    have hmarked : ((s.pte root y).map mark).map Pte.address.get = s.sharing.frame root y := by
      rw [Option.map_map]
      exact congrFun (congrArg Option.map (funext mark_target)) _
    rw [hpte]
    by_cases hr : r = child
    · rw [if_pos (Or.inr hr), if_pos hr, hmarked]
    · rw [if_neg hr]
      by_cases hr' : r = root
      · rw [if_pos (Or.inl hr'), hmarked, hr']
      · rw [if_neg (not_or.mpr ⟨hr', hr⟩)]
        rfl
  have hmapped : ∀ g, (Spaces.sharing ⟨m, insert child s.roots⟩).Mapped g →
      s.sharing.Mapped g := by
    rintro g ⟨r, y, hy⟩
    rw [hframe, Sharing.frame_copy] at hy
    split_ifs at hy
    · exact ⟨root, y, hy⟩
    · exact ⟨r, y, hy⟩
  have hcloneable := hs.cloneable hx
  have hfill := Radix.filled_iff.mp (hcl.parent.filled (fun _ _ _ => Marked.filled)
    hcloneable.filled)
  have hfill' := Radix.filled_iff.mp (hcl.child.filled (fun _ _ _ => CopyWord.filled)
    hcloneable.filled)
  have htables := hcl.parent.tables marked_table marked_same
  have hparent : PageTree TableOrPage m.ram root := by
    refine ⟨fun q => ?_, hcl.parent.every marked_table (fun _ _ _ => Marked.tableOrPage)
      (hs.tree root hroot).every, fun q hq => ?_⟩
    · rw [htables]
      exact (hs.tree root hroot).distinct q
    · rw [htables] at hq
      exact (hs.tree root hroot).inRam q hq
  have hcopy : PageTree TableOrPage m.ram child :=
    ⟨hcl.distinct, hcl.child.every copyWord_rewrites.table
      (fun _ _ _ hc hw hv => (hc.tableOrFrame hw hv).1) hcloneable.every,
      fun q hq => ((hcl.new q).mp hq).2.2⟩
  have hcount : ∀ n k q, q ∈ s.used → Counted s.machine.buddy n q →
      pageRadix.leaves s.machine.ram 3 root q = k → n + k < 2 ^ 32 →
      Counted m.buddy (n + k) q := by
    intro n k q hq hn hk hbound
    refine hn.addRefs ((hledger.live _).mpr (Or.inl hn.live)) ?_ hbound
    rw [← hk]
    exact hcl.frames q (hs.kernel.used q hq).2
  refine ⟨Extended.ok hs (U := U) (N := newPages s.used U) ⟨rfl, hkernel, hcl.grown,
    fun q hq => ⟨hq.1, hq.2.1, hledger.counted_new hq⟩, hcopy, fun q => ?_,
    fun q hq _ => hfill' q hq, fun r hr _ => ?_, (hs.sound.copy root child).mono hframe ?_,
    fun g hg => Or.inl (hmapped g hg), fun q hq => ?_, fun g hg => ?_⟩, ?_⟩
  · rw [hcl.new q, or_iff_right fun h => hchild h.1]
  · by_cases hne : r = root
    · subst hne
      refine ⟨hparent, fun q => by rw [htables], fun q hq _ => hfill q hq⟩
    · exact hs.left_alone _ hr fun q hq =>
        hcl.keep q (table_mem hr hq) (hs.table_apart hr hroot hne hq)
  · rintro r y ⟨w, hw, hwrite⟩
    rw [hpte] at hw
    by_cases hr : r = root ∨ r = child
    · -- the entries of both are marked
      rw [if_pos hr, Option.map_eq_some_iff] at hw
      obtain ⟨d, -, rfl⟩ := hw
      exact absurd hwrite (mark_not_writable d)
    · rw [if_neg hr] at hw
      obtain ⟨hne, hne'⟩ := not_or.mp hr
      exact ⟨hne, hne', w, hw, hwrite⟩
  · exact hcount 1 0 q (Or.inl hq) (hs.tableCount q hq) (hs.leaves_table hroot hq) (by decide)
  · have hg' := hmapped g hg
    have hbound : (s.sharing.holders s.roots g).card ≤ ramPages :=
      Sharing.card_holders_le.trans hs.card_roots
    rw [Sharing.holders_frame hframe]
    by_cases hholds : s.sharing.Holds g root
    · have hnot : child ∉ s.sharing.holders s.roots g :=
        fun h => hchild (Sharing.mem_holders.mp h).1
      show Counted m.buddy ((s.sharing.copy root child).holders (insert child s.roots) g).card g
      rw [Sharing.holders_copy hholds, Finset.card_insert_of_notMem hnot]
      refine hcount _ 1 g (Or.inr hg') (hs.frameCount g hg') (hs.leaves_one hholds) ?_
      exact Nat.lt_of_le_of_lt (Nat.succ_le_succ hbound) (by decide)
    · show Counted m.buddy ((s.sharing.copy root child).holders (insert child s.roots) g).card g
      rw [Sharing.holders_copy_none hchild hholds]
      refine hcount _ 0 g (Or.inr hg') (hs.frameCount g hg') (hs.leaves_none hroot hholds) ?_
      exact Nat.lt_of_le_of_lt hbound (by decide)
  · have hkeep : ∀ g, s.sharing.Mapped g → m.ram g = s.machine.ram g :=
      fun g hg => hcl.keep g (Or.inr hg) (hs.frame_apart hg hroot)
    refine (Sharing.image_congr hframe fun g hg => hkeep g ?_).trans Sharing.image_copy
    obtain ⟨r, y, hy⟩ := hg
    exact hmapped g ⟨r, y, by rw [hframe]; exact hy⟩

end Fork

/-! ## §3  Exit -/

section Exit

variable {array lo l0Table root q f n : ℕ} {T : Set ℕ} {s : Spaces} {m : Machine} {b b' : Buddy}
  {l : List ℕ}

theorem Counted.dropped (h : Counted b n q) (hd : Dropped lo l b b') (hlt : l.count q < n) :
    Counted b' (n - l.count q) q := by
  have hlive : (⟨q, 0⟩ : Block) ∈ (pageAllocatorOf b').live := by
    refine (hd.live _).mpr ⟨h.live, ?_⟩
    rintro ⟨-, -, hlast⟩
    rw [h.refcount] at hlast
    exact absurd hlast (Nat.ne_of_gt hlt)
  refine ⟨hlive, ?_, ?_⟩
  · rw [hd.record q (hd.ok.live_page hlive).1]
    exact h.state
  · rw [hd.count, h.refcount]

/-- A page is free again if it was live by itself and is live no more. -/
theorem Dropped.free_iff (hd : Dropped lo l b b') (hb : BuddyOk lo b) :
    q ∈ freePages b' ↔ q ∈ freePages b ∨ (⟨q, 0⟩ : Block) ∈ (pageAllocatorOf b).live ∧
      q ∈ l ∧ (b.frameMetadata q).refcount = l.count q := by
  have hmono := hb.free_mono hd.ok fun c hc => ((hd.live c).mp hc).1
  constructor
  · intro hq
    by_contra hnot
    obtain ⟨hheld, hkept⟩ := not_or.mp hnot
    have hlt := (hd.ok.free_lt hq).2
    rcases (hb.held_iff hlt).mp ⟨hlt, hheld⟩ with hlow | ⟨c, hc, hqc⟩
    · exact absurd (hd.ok.free_lt hq).1 (Nat.not_le.mpr hlow)
    · by_cases hlive : c ∈ (pageAllocatorOf b').live
      · exact ((hd.ok.held_iff hlt).mpr (Or.inr ⟨c, hlive, hqc⟩)).2 hq
      · obtain ⟨p, k⟩ := c
        rw [hd.live, not_and, not_not] at hlive
        obtain ⟨hk, hmem, hlast⟩ := hlive hc
        dsimp only at hk hmem hlast
        subst hk
        rw [pages_zero, Finset.mem_singleton] at hqc
        subst hqc
        exact hkept ⟨hc, hmem, hlast⟩
  · rintro (hq | ⟨hlive, hmem, hlast⟩)
    · exact hmono hq
    · obtain ⟨hheld, -, hapart⟩ := hb.live_page hlive
      by_contra hnot
      rcases (hd.ok.held_iff hheld.1).mp ⟨hheld.1, hnot⟩ with hlow | ⟨c, hc, hqc⟩
      · obtain ⟨L, hr⟩ := hb
        have hbase := hr.tiles.base_lt (mem_liveBlocks.mp hlive).1
        exact absurd hbase.1 (Nat.not_le.mpr hlow)
      · obtain ⟨hc', hkept⟩ := (hd.live c).mp hc
        obtain rfl := hapart c hc' hqc
        exact hkept ⟨rfl, hmem, hlast⟩

namespace Spaces.Ok

theorem count_table (hs : s.Ok lo l0Table T) (hroot : root ∈ s.roots) (hq : q ∈ s.tables) :
    (pageRadix.pages s.machine.ram 3 root).count q = pageRadix.tables s.machine.ram 3 root q := by
  rw [Radix.count_pages, hs.leaves_table hroot hq, Nat.zero_add]

theorem count_frame (hs : s.Ok lo l0Table T) (hroot : root ∈ s.roots)
    (hf : s.sharing.Mapped f) : (pageRadix.pages s.machine.ram 3 root).count f =
      pageRadix.leaves s.machine.ram 3 root f := by
  rw [Radix.count_pages, hs.frame_apart hf hroot, Nat.add_zero]

theorem mem_pages (hs : s.Ok lo l0Table T) (hroot : root ∈ s.roots) :
    q ∈ pageRadix.pages s.machine.ram 3 root ↔
      0 < pageRadix.tables s.machine.ram 3 root q ∨ s.sharing.Holds q root := by
  rw [← List.count_pos_iff, Radix.count_pages, Nat.add_pos_iff_pos_or_pos, or_comm,
    hs.leaves_pos_iff hroot]

theorem droppable (hs : s.Ok lo l0Table T) (hroot : root ∈ s.roots) :
    Droppable (pageRadix.pages s.machine.ram 3 root) s.machine.buddy := by
  intro q hq
  rcases (hs.mem_pages hroot).mp hq with htable | hholds
  · have hmem : q ∈ s.tables := ⟨root, hroot, htable⟩
    have hcount := hs.tableCount q hmem
    rw [hs.count_table hroot hmem, hcount.refcount]
    exact ⟨hs.used_lt (Or.inl hmem), hcount.live, hcount.state,
      (hs.tree root hroot).distinct q, by decide⟩
  · have hmap : s.sharing.Mapped q := ⟨root, hholds⟩
    have hcount := hs.frameCount q hmap
    have hmem : root ∈ s.sharing.holders s.roots q := Sharing.mem_holders.mpr ⟨hroot, hholds⟩
    rw [hs.count_frame hroot hmap, hs.leaves_one hholds, hcount.refcount]
    refine ⟨hs.used_lt (Or.inr hmap), hcount.live, hcount.state,
      Finset.card_pos.mpr ⟨root, hmem⟩, ?_⟩
    exact Nat.lt_of_le_of_lt (Sharing.card_holders_le.trans hs.card_roots) (by decide)

theorem reaped (hs : s.Ok lo l0Table T) (harray : ArrayFits array) (hlo : 2048 ≤ lo)
    (hroot : root ∈ s.roots) :
    ∃ b, reapVirtualMemory array 3 root s.machine = some (s.machine.withBuddy b) ∧
      Dropped lo (pageRadix.pages s.machine.ram 3 root) s.machine.buddy b := by
  have ht := hs.tree root hroot
  obtain ⟨b, hdrop, hd⟩ := dropRefs_spec harray hlo _ hs.kernel.buddy (hs.droppable hroot)
  have hreap := reapVirtualMemory_eq array 3 s.machine root ht.every ht.inRam s.machine.buddy
  have hself : s.machine.withBuddy s.machine.buddy = s.machine := rfl
  rw [hdrop, hself, Option.map_some] at hreap
  exact ⟨b, hreap, hd⟩

theorem exit (hs : s.Ok lo l0Table T) (harray : ArrayFits array) (hlo : 2048 ≤ lo)
    (hroot : root ∈ s.roots) (hrun : reapVirtualMemory array 3 root s.machine = some m) :
    Spaces.Ok lo l0Table T ⟨m, s.roots.erase root⟩ ∧
      Spaces.memories ⟨m, s.roots.erase root⟩ = s.memories.step (.exit root) := by
  obtain ⟨b, hreap, hd⟩ := hs.reaped harray hlo hroot
  rw [hrun, Option.some.injEq] at hreap
  subst hreap
  have hpte : ∀ r y, Spaces.pte ⟨s.machine.withBuddy b, s.roots.erase root⟩ r y =
      if r = root then none else s.pte r y := by
    intro r y
    by_cases hr : r = root
    · rw [if_pos hr, pte_none]
      rw [hr]
      exact Finset.notMem_erase root s.roots
    · rw [if_neg hr]
      exact Spaces.pte_congr (Finset.mem_erase.trans (and_iff_right hr)) fun _ _ _ => rfl
  have hframe : (Spaces.sharing ⟨s.machine.withBuddy b, s.roots.erase root⟩).frame =
      (s.sharing.drop root).frame := by
    funext r y
    rw [Sharing.frame_drop]
    show (Spaces.pte ⟨s.machine.withBuddy b, s.roots.erase root⟩ r y).map _ = _
    rw [hpte]
    by_cases hr : r = root
    · rw [if_pos hr, if_pos hr, Option.map_none]
    · rw [if_neg hr, if_neg hr]
      rfl
  have htables : ∀ q ∈ Spaces.tables ⟨s.machine.withBuddy b, s.roots.erase root⟩,
      q ∈ s.tables ∧ pageRadix.tables s.machine.ram 3 root q = 0 := by
    rintro q ⟨r, hr, hq⟩
    obtain ⟨hne, hmem⟩ := Finset.mem_erase.mp hr
    exact ⟨⟨r, hmem, hq⟩, hs.table_apart hmem hroot hne hq⟩
  have hmapped : ∀ f, (Spaces.sharing ⟨s.machine.withBuddy b, s.roots.erase root⟩).Mapped f →
      s.sharing.Mapped f ∧ ∃ r ∈ s.roots, r ≠ root ∧ s.sharing.Holds f r := by
    rintro f ⟨r, y, hy⟩
    rw [hframe, Sharing.frame_drop] at hy
    by_cases hr : r = root
    · rw [if_pos hr] at hy
      exact absurd hy.symm (Option.some_ne_none f)
    · rw [if_neg hr] at hy
      exact ⟨⟨r, y, hy⟩, r, (frame_some hy).1, hr, y, hy⟩
  have htableCount : ∀ q ∈ Spaces.tables ⟨s.machine.withBuddy b, s.roots.erase root⟩,
      Counted b 1 q := by
    intro q hq
    obtain ⟨hmem, hnone⟩ := htables q hq
    have hcount := hs.count_table hroot hmem
    have hkept := (hs.tableCount q hmem).dropped hd (by rw [hcount, hnone]; decide)
    rwa [hcount, hnone] at hkept
  have hframeCount : ∀ f,
      (Spaces.sharing ⟨s.machine.withBuddy b, s.roots.erase root⟩).Mapped f → Counted b
        ((Spaces.sharing ⟨s.machine.withBuddy b, s.roots.erase root⟩).holders
          (s.roots.erase root) f).card f := by
    intro f hf
    obtain ⟨hold, r, hr, hne, hholds⟩ := hmapped f hf
    have hcount := hs.count_frame hroot hold
    have hmem : r ∈ (s.sharing.holders s.roots f).erase root :=
      Finset.mem_erase.mpr ⟨hne, Sharing.mem_holders.mpr ⟨hr, hholds⟩⟩
    have hpos := Finset.card_pos.mpr ⟨r, hmem⟩
    rw [Sharing.holders_frame hframe, Sharing.holders_drop]
    by_cases hroot' : s.sharing.Holds f root
    · have hin : root ∈ s.sharing.holders s.roots f := Sharing.mem_holders.mpr ⟨hroot, hroot'⟩
      rw [Finset.card_erase_of_mem hin] at hpos ⊢
      rw [hs.leaves_one hroot'] at hcount
      rw [← hcount]
      exact (hs.frameCount f hold).dropped hd (by omega)
    · have hout : root ∉ s.sharing.holders s.roots f :=
        fun h => hroot' (Sharing.mem_holders.mp h).2
      rw [Finset.erase_eq_of_notMem hout] at hpos ⊢
      rw [hs.leaves_none hroot hroot'] at hcount
      have hkept := (hs.frameCount f hold).dropped hd (by rw [hcount]; exact hpos)
      rwa [hcount, Nat.sub_zero] at hkept
  refine ⟨⟨hs.kernel.regroup hd.ok fun q hq => ?_,
    fun r hr => hs.tree r (Finset.mem_of_mem_erase hr),
    fun r hr r' hr' => hs.apart r (Finset.mem_of_mem_erase hr) r' (Finset.mem_of_mem_erase hr'),
    fun f hf hq => hs.frames f (hmapped f hf).1 (htables f hq).1,
    fun r hr => hs.filled r (Finset.mem_of_mem_erase hr), (hs.sound.drop root).mono hframe ?_,
    htableCount, hframeCount⟩, ?_⟩
  · rcases hq with hq | hq
    · exact ⟨(hs.kernel.used q (Or.inl (htables q hq).1)).1,
        (hd.ok.live_page (htableCount q hq).live).1⟩
    · exact ⟨(hs.kernel.used q (Or.inr (hmapped q hq).1)).1,
        (hd.ok.live_page (hframeCount q hq).live).1⟩
  · rintro r y ⟨w, hw, hwrite⟩
    rw [hpte] at hw
    by_cases hr : r = root
    · rw [if_pos hr] at hw
      exact absurd hw.symm (Option.some_ne_none w)
    · rw [if_neg hr] at hw
      exact ⟨hr, w, hw, hwrite⟩
  · exact (Sharing.image_congr hframe fun _ _ => rfl).trans Sharing.image_drop

end Spaces.Ok

end Exit

/-! ## §4  Calls that return -/

section Returns

variable {lo l0Table root f x va flags : ℕ} {T : Set ℕ} {s : Spaces}

namespace Spaces.Ok

theorem create_returns (hs : s.Ok lo l0Table T) (hlo : 2048 ≤ lo)
    (hfree : (freePages s.machine.buddy).Nonempty) :
    ∃ a m, a < ramPages ∧ buddyAllocPt l0Table s.machine = some (pageAddr a, m) ∧
      a ∉ s.roots ∧ (∀ i, m.ram a i = 0) ∧
      (freePages s.machine.buddy).card ≤ (freePages m.buddy).card + 1 := by
  obtain ⟨a, m, hrun, ha, -, hbuddy, hblank, -⟩ := hs.kernel.grant hlo hfree
  obtain ⟨-, hmem, herase, -⟩ := hs.kernel.buddy.alloc_held hlo ha hbuddy
  refine ⟨a, m, ha, hrun, fun h => hs.not_used hmem (root_mem h), hblank, ?_⟩
  rw [herase, Finset.card_erase_of_mem hmem]
  omega

theorem install_returns (hs : s.Ok lo l0Table T) (hlo : 2048 ≤ lo) (hroot : root ∈ s.roots)
    (hfree : 4 ≤ (freePages s.machine.buddy).card) (va flags : ℕ) :
    ∃ f m₁ m, f < ramPages ∧ s.machine.buddyAlloc pageSize = some (pageAddr f, m₁) ∧
      mapPage (buddyAllocPt l0Table) va (vaToPa (pageAddr f)) flags root m₁ = some m ∧
      (freePages s.machine.buddy).card ≤ (freePages m.buddy).card + 4 := by
  obtain ⟨page, b, hrun, -, hcases⟩ := hs.kernel.buddy.alloc_page hlo
  rcases hcases with ⟨-, -, hempty⟩ | ⟨f, hf, hpage, -, hlt, herase⟩
  · rw [hempty, Finset.card_empty] at hfree
    exact absurd hfree (by decide)
  rw [hpage] at hrun
  have halloc : s.machine.buddyAlloc pageSize =
      some (pageAddr f, { s.machine with buddy := b }) := by
    rw [Machine.buddyAlloc, hrun, Option.map_some]
  obtain ⟨-, -, hkernel, -⟩ := hs.alloc hlo hlt halloc
  have hcard : (freePages b).card + 1 = (freePages s.machine.buddy).card := by
    rw [herase]
    exact Finset.card_erase_add_one hf
  obtain ⟨m, hmap, hcard'⟩ := hkernel.mapPage_returns hlo (hs.tree root hroot)
    (fun q hq => Set.mem_insert_of_mem f (table_mem hroot hq)) (hs.filled root hroot)
    (show 3 ≤ (freePages b).card by omega) va (vaToPa (pageAddr f)) flags
  have hleft : (freePages b).card ≤ (freePages m.buddy).card + 3 := hcard'
  exact ⟨f, _, m, hlt, halloc, hmap, by omega⟩

/-- A fork leaves the pages that it does not need for tables. -/
theorem clone_returns {n : ℕ} (hs : s.Ok lo l0Table T) (hlo : 2048 ≤ lo)
    (hx : s.sharing.frame root x = some f)
    (hsize : n + pageRadix.size s.machine.ram 3 root ≤ (freePages s.machine.buddy).card) :
    ∃ c m, c < ramPages ∧ n ≤ (freePages m.buddy).card ∧
      cloneVirtualMemory (buddyAllocPt l0Table) root s.machine = some (pageAddr c, m) := by
  obtain ⟨-, c, m, U, hrun, hcl, ⟨-, hleft⟩, -⟩ := cloneVirtualMemory_spec (s.supply hlo)
    (hs.cloneable hx) (hs.supplied hsize) (Or.inl fun _ _ _ _ => trivial)
  exact ⟨c, m, ((hcl.new c).mp Radix.tables_self).2.2, hleft, hrun⟩

theorem size_le (hs : s.Ok lo l0Table T) (hroot : root ∈ s.roots) :
    pageRadix.size s.machine.ram 3 root + (freePages s.machine.buddy).card ≤ ramPages := by
  have hsub : freePages s.machine.buddy ⊆ Finset.range ramPages :=
    fun q hq => Finset.mem_range.mpr (hs.kernel.buddy.free_lt hq).2
  have hheld : ∀ q, 0 < pageRadix.tables s.machine.ram 3 root q →
      q ∈ Finset.range ramPages \ freePages s.machine.buddy := by
    intro q hq
    have hused := hs.kernel.used q (table_mem hroot hq)
    exact Finset.mem_sdiff.mpr ⟨Finset.mem_range.mpr hused.2.1, hused.2.2⟩
  have hle : pageRadix.size s.machine.ram 3 root ≤
      (Finset.range ramPages \ freePages s.machine.buddy).card := by
    rw [Radix.size_eq_sum hheld, Finset.card_eq_sum_ones]
    exact Finset.sum_le_sum fun q _ => (hs.tree root hroot).distinct q
  rw [Finset.card_sdiff_of_subset hsub, Finset.card_range] at hle
  have hcard := Finset.card_le_card hsub
  rw [Finset.card_range] at hcard
  omega

end Spaces.Ok

end Returns

/-! ## §5  Runs -/

section Run

variable {array lo l0Table root q : ℕ} {T : Set ℕ} {s s' t : Spaces} {m : Machine}
  {events : List SpaceEvent} {e : SpaceEvent}

theorem Spaces.Ok.start (hm : PagedKernel lo l0Table T ∅ m) :
    Spaces.Ok lo l0Table T ⟨m, ∅⟩ ∧ Spaces.memories ⟨m, ∅⟩ = fun _ _ => none := by
  have hnone : ∀ r x, (Spaces.sharing ⟨m, ∅⟩).frame r x = none :=
    fun r x => frame_none (Finset.notMem_empty r)
  have hmapped : ∀ f, ¬ (Spaces.sharing ⟨m, ∅⟩).Mapped f := by
    rintro f ⟨r, x, hx⟩
    rw [hnone] at hx
    exact absurd hx.symm (Option.some_ne_none f)
  have htables : ∀ q, q ∉ Spaces.tables ⟨m, ∅⟩ := fun q ⟨r, hr, _⟩ => Finset.notMem_empty r hr
  have hroots : ∀ r, r ∉ (Spaces.mk m ∅).roots := fun r => Finset.notMem_empty r
  refine ⟨⟨⟨hm.buddy, hm.walks, fun q hq => ?_⟩, fun r hr => absurd hr (hroots r),
    fun r hr => absurd hr (hroots r), fun f hf => absurd hf (hmapped f),
    fun r hr => absurd hr (hroots r), ⟨fun p r x y f hf => ?_, fun p r x y f _ hf => ?_⟩,
    fun q hq => absurd hq (htables q), fun f hf => absurd hf (hmapped f)⟩, ?_⟩
  · exact absurd hq (not_or.mpr ⟨htables q, hmapped q⟩)
  · exact absurd ⟨p, x, hf⟩ (hmapped f)
  · exact absurd ⟨p, x, hf⟩ (hmapped f)
  · funext r x
    rw [Spaces.memories, Sharing.image, hnone, Option.map_none]

/-- A call keeps the invariant and is a step of the memories. -/
theorem Spaces.Ok.step (hs : s.Ok lo l0Table T) (harray : ArrayFits array) (hlo : 2048 ≤ lo)
    (hstep : Spaces.Step array l0Table s e s') :
    s'.Ok lo l0Table T ∧ s'.memories = s.memories.step e := by
  cases hstep with
  | create hlt hrun => exact hs.create hlo hlt hrun
  | load hroot hlt halloc hrun =>
      rw [kernelMap, map_page] at hrun
      exact hs.install hlo hroot hlt halloc hrun
  | fault hroot hlt halloc hrun =>
      obtain ⟨v, page, m₁, -, halloc', hpage⟩ := handleEl0Fault_mapped hrun
      rw [halloc, Option.some.injEq, Prod.mk.injEq] at halloc'
      obtain ⟨rfl, rfl⟩ := halloc'
      have hinstall := hs.install hlo hroot hlt halloc hpage
      rwa [pageNumber, alignDownPage_page] at hinstall
  | protect hroot halone hrun => exact hs.protect hroot halone hrun
  | write hf hwrite => exact hs.write hf hwrite _ _
  | fork _ hlt hx hsize hrun => exact hs.fork hlo hlt hx hsize hrun
  | exit hroot hrun => exact hs.exit harray hlo hroot hrun

theorem Spaces.Ok.run (harray : ArrayFits array) (hlo : 2048 ≤ lo)
    (hm : PagedKernel lo l0Table T ∅ m)
    (hrun : Trace (Spaces.Step array l0Table) ⟨m, ∅⟩ events s) : s.Ok lo l0Table T :=
  hrun.inv (fun s => s.Ok lo l0Table T) (fun _ => True) (Spaces.Ok.start hm).1
    (fun _ _ => trivial) fun _ _ _ hs _ hstep => (hs.step harray hlo hstep).1

end Run

/-! ## §6  A linear map by pages -/

/-- The kernel's tables 3200 to 3202, and 512 L3 tables from 3300 on. -/
def pagedRam (p i : ℕ) : Word :=
  if p = 3200 ∧ i = 256 then tableDescriptor 3201
  else if p = 3201 ∧ i = 0 then tableDescriptor 3202
  else if p = 3202 ∧ i < 512 then tableDescriptor (3300 + i)
  else if 3300 ≤ p ∧ p < 3812 then
    leafDescriptor (mapKernel ||| mapRead ||| mapWrite) 1 (((p - 3300) * 512 + i) * pageSize)
  else 0

def pagedMachine : Machine where
  buddy := initializePageFrameArray (4096 * pageSize) blankBuddy
  ram := pagedRam
  stores := []

section Paged

theorem arrayFits_paged : ArrayFits (pageAddr 1026) := by
  unfold ArrayFits
  decide

theorem pagedMachine_walks :
    PagedWalks 4096 {p | 3200 ≤ p ∧ p < 3812} pagedRam 3200 := by
  refine ⟨fun p hp => lt_trans hp.2 (by decide), ⟨le_refl _, by decide⟩, by decide,
    fun q _ hlt => ?_⟩
  have hq : q / 512 < 512 := by
    rw [ramPages] at hlt
    omega
  have hl2 : pagedRam 3202 (q / 512) = tableDescriptor (3300 + q / 512) := by
    rw [pagedRam, if_neg fun h => absurd h.1 (by decide), if_neg fun h => absurd h.1 (by decide),
      if_pos ⟨rfl, hq⟩]
  have hl3 : pagedRam (3300 + q / 512) (q % 512) =
      leafDescriptor (mapKernel ||| mapRead ||| mapWrite) 1
        (((3300 + q / 512 - 3300) * 512 + q % 512) * pageSize) := by
    rw [pagedRam, if_neg (by omega), if_neg (by omega), if_neg (by omega), if_pos (by omega)]
  have h1 := tableDescriptor_names (by decide : 3201 < ramPages)
  have h2 := tableDescriptor_names (by decide : 3202 < ramPages)
  have h3 := tableDescriptor_names (a := 3300 + q / 512) (by rw [ramPages]; omega)
  refine ⟨3201, ⟨by decide, by decide⟩, 3202, ⟨by decide, by decide⟩, 3300 + q / 512,
    ⟨by omega, by omega⟩, h1.valid, h1.address, h2.valid, h2.address, ?_, ?_, ?_⟩
  · rw [hl2]
    exact h3.valid
  · rw [hl2]
    exact h3.address
  · rw [hl3]
    exact (leafDescriptor_get _ _ (by decide)).1

theorem pagedMachine_kernel :
    PagedKernel 4096 3200 {p | 3200 ≤ p ∧ p < 3812} ∅ pagedMachine :=
  ⟨(initializePageFrameArray_at (by decide) (by decide) blankBuddy).1.ok, pagedMachine_walks,
    fun q hq => absurd hq (Set.notMem_empty q)⟩

theorem pagedMachine_free : (freePages pagedMachine.buddy).card = ramPages - 4096 := by
  obtain ⟨hr, hall⟩ := initializePageFrameArray_at (R := 4096) (by decide) (by decide) blankBuddy
  have hlive : liveBlocks (initializePageFrameArray (4096 * pageSize) blankBuddy)
      (rootBlocks 4096) = ∅ := by
    refine Finset.eq_empty_of_forall_notMem fun b hb => ?_
    obtain ⟨hmem, hstate⟩ := mem_liveBlocks.mp hb
    rw [← hall] at hmem
    exact hstate (mem_freeBlocks.mp hmem).2
  have hnil : pagesOf ∅ = ∅ := Finset.biUnion_empty
  show (freePages (initializePageFrameArray (4096 * pageSize) blankBuddy)).card = _
  rw [freePages_eq, PageAllocator.pool, hr.view_eq, hr.pool_eq, hlive, hnil, Finset.sdiff_empty,
    Nat.card_Ico]

/-- A process has loaded a page, which it may write to. -/
theorem pagedMachine_loaded : ∃ root f m₁ m₂,
    Spaces.Step (pageAddr 1026) 3200 ⟨pagedMachine, ∅⟩ (.create root) ⟨m₁, {root}⟩ ∧
    Spaces.Step (pageAddr 1026) 3200 ⟨m₁, {root}⟩ (.install root 1 (m₁.ram f)) ⟨m₂, {root}⟩ ∧
    Spaces.Ok 4096 3200 {p | 3200 ≤ p ∧ p < 3812} ⟨m₂, {root}⟩ ∧
    (Spaces.sharing ⟨m₂, {root}⟩).frame root 1 = some f ∧
    (Spaces.sharing ⟨m₂, {root}⟩).writable root 1 ∧
    ramPages ≤ (freePages m₂.buddy).card + 4101 := by
  have harray := arrayFits_paged
  have hlo : 2048 ≤ 4096 := by decide
  have hfree := pagedMachine_free
  -- the L0 table
  obtain ⟨hs₀, hempty⟩ := Spaces.Ok.start pagedMachine_kernel
  obtain ⟨root, m₁, hlt, hrun₁, -, -, hcard₁⟩ := hs₀.create_returns hlo
    (Finset.card_pos.mp (by rw [hfree]; decide))
  have hstep₁ : Spaces.Step (pageAddr 1026) 3200 ⟨pagedMachine, ∅⟩ (.create root)
      ⟨m₁, {root}⟩ := .create hlt hrun₁
  obtain ⟨hs₁, hmem₁⟩ := hs₀.step harray hlo hstep₁
  have hroot : root ∈ ({root} : Finset ℕ) := Finset.mem_singleton_self root
  -- the page
  obtain ⟨f, m₂, m₃, hflt, halloc, hrun₂, hcard₂⟩ := hs₁.install_returns hlo hroot
    (show 4 ≤ (freePages m₁.buddy).card by rw [hfree, ramPages] at hcard₁; omega) pageSize
    (mapUser ||| mapRead ||| mapWrite)
  have hstep₂ : Spaces.Step (pageAddr 1026) 3200 ⟨m₁, {root}⟩
      (.install root (pageNumber pageSize) (m₁.ram f)) ⟨m₃, {root}⟩ :=
    .load hroot hflt halloc ((map_page ..).trans hrun₂)
  obtain ⟨hs₂, -⟩ := hs₁.step harray hlo hstep₂
  have hnone : Spaces.pte ⟨m₁, {root}⟩ root (pageNumber pageSize) = none := by
    have hunmapped : Spaces.memories ⟨m₁, {root}⟩ root (pageNumber pageSize) = none := by
      rw [hmem₁, hempty, Memories.step, Function.update_self]
    rwa [Spaces.memories, Sharing.image, Option.map_eq_none_iff, Spaces.sharing,
      Option.map_eq_none_iff] at hunmapped
  have hpte := hs₁.pte_new hlo hroot hflt halloc hrun₂ hnone
  refine ⟨root, f, m₁, m₃, hstep₁, hstep₂, hs₂, ?_, ⟨_, hpte, Or.inr ?_⟩, ?_⟩
  · rw [← leafDescriptor_page hflt (mapUser ||| mapRead ||| mapWrite)]
    exact congrArg (Option.map Pte.address.get) hpte
  · rw [leafDescriptor, BitField.get_set_of_disjoint (by decide)]
    decide
  · rw [hfree] at hcard₁
    have hleft : (freePages m₁.buddy).card ≤ (freePages m₃.buddy).card + 4 := hcard₂
    omega

theorem Spaces.memories_ne_none {s : Spaces} {r x : ℕ} :
    s.memories r x ≠ none ↔ ∃ f, s.sharing.frame r x = some f := by
  rw [Spaces.memories, Sharing.image, ne_eq, Option.map_eq_none_iff]
  exact Option.ne_none_iff_exists'

/-- A process loads a page, writes to it and forks; most pages are still free. -/
theorem pagedMachine_run : ∃ root child data s, Trace (Spaces.Step (pageAddr 1026) 3200)
    ⟨pagedMachine, ∅⟩ [.create root, .install root 1 data, .write root 1 0 7, .fork root child]
    s ∧ root ∈ s.roots ∧ (∃ f, s.sharing.frame root 1 = some f) ∧
      240000 ≤ (freePages s.machine.buddy).card := by
  have harray := arrayFits_paged
  have hlo : 2048 ≤ 4096 := by decide
  obtain ⟨root, f, m₁, m₂, hstep₁, hstep₂, hs₂, hframe, hwritable, hcard⟩ := pagedMachine_loaded
  have hroot : root ∈ ({root} : Finset ℕ) := Finset.mem_singleton_self root
  -- a word of the page
  have hstep₃ : Spaces.Step (pageAddr 1026) 3200 ⟨m₂, {root}⟩ (.write root 1 0 7)
      ⟨m₂.write f 0 7, {root}⟩ := .write hframe hwritable
  obtain ⟨hs₃, hmem₃⟩ := hs₂.step harray hlo hstep₃
  have hheld : Spaces.memories ⟨m₂.write f 0 7, {root}⟩ root 1 ≠ none := by
    rw [hmem₃, Memories.step, Function.update_self, Function.update_self, Spaces.memories,
      Sharing.image, hframe]
    exact Option.some_ne_none _
  obtain ⟨g, hg⟩ := Spaces.memories_ne_none.mp hheld
  -- the child
  have henough : 240000 + pageRadix.size (m₂.write f 0 7).ram 3 root ≤
      (freePages (m₂.write f 0 7).buddy).card := by
    have hsize : pageRadix.size (m₂.write f 0 7).ram 3 root +
        (freePages (m₂.write f 0 7).buddy).card ≤ ramPages := hs₃.size_le hroot
    have hsame : (freePages (m₂.write f 0 7).buddy).card = (freePages m₂.buddy).card := rfl
    rw [hsame] at hsize ⊢
    rw [ramPages] at hcard hsize
    omega
  obtain ⟨child, m₃, hlt, hleft, hrun⟩ := hs₃.clone_returns hlo hg henough
  have hstep₄ : Spaces.Step (pageAddr 1026) 3200 ⟨m₂.write f 0 7, {root}⟩
      (.fork root child) ⟨m₃, {child, root}⟩ :=
    .fork hroot hlt hg (le_trans (Nat.le_add_left _ _) henough) hrun
  obtain ⟨-, hmem₄⟩ := hs₃.step harray hlo hstep₄
  have hkept : Spaces.memories ⟨m₃, {child, root}⟩ root 1 ≠ none := by
    rw [hmem₄, Memories.step, Function.update_apply, ite_self]
    exact hheld
  exact ⟨root, child, m₁.ram f, _, .cons hstep₁ (.cons hstep₂ (.cons hstep₃ (.cons hstep₄
    (.nil _)))), Finset.mem_insert_of_mem hroot, Spaces.memories_ne_none.mp hkept, hleft⟩

end Paged

/-! ## §7  Processes with memories of their own -/

section Memories

variable {array lo l0Table root : ℕ} {T : Set ℕ} {s : Spaces} {m : Machine}
  {events : List SpaceEvent}

/-- Every run of the calls is a run of processes that have a memory each: a fork copies the
memory of the parent, and what a process writes is found by no other. -/
theorem processes_own_memories (harray : ArrayFits array) (hlo : 2048 ≤ lo)
    (hm : PagedKernel lo l0Table T ∅ m)
    (hrun : Trace (Spaces.Step array l0Table) ⟨m, ∅⟩ events s) :
    s.memories = events.foldl Memories.step fun _ _ => none := by
  obtain ⟨hstart, hempty⟩ := Spaces.Ok.start hm
  have hfollows := hrun.follows (R := fun s σ => s.Ok lo l0Table T ∧ s.memories = σ)
    (f := Memories.step) ⟨hstart, hempty⟩ fun s e t σ hs hstep => ?_
  · exact hfollows.2
  · obtain ⟨hs, rfl⟩ := hs
    exact hs.step harray hlo hstep

theorem processes_own_memories_fork : ∃ root child data s, Trace (Spaces.Step (pageAddr 1026)
    3200) ⟨pagedMachine, ∅⟩ [.create root, .install root 1 data, .write root 1 0 7,
      .fork root child] s ∧ s.memories child 1 = some (Function.update data 0 7) := by
  obtain ⟨root, child, data, s, hrun, -⟩ := pagedMachine_run
  refine ⟨root, child, data, s, hrun, ?_⟩
  rw [processes_own_memories arrayFits_paged (by decide) pagedMachine_kernel hrun]
  simp [Memories.step]

/-- In every state reached, a page is counted once for each entry that maps it; it is free
only if it is in no tree; a table belongs to one tree, and a frame that may be written is
mapped by one process. -/
theorem references_are_entries (harray : ArrayFits array) (hlo : 2048 ≤ lo)
    (hm : PagedKernel lo l0Table T ∅ m)
    (hrun : Trace (Spaces.Step array l0Table) ⟨m, ∅⟩ events s) :
    (∀ r ∈ s.roots, ∀ q, 0 < pageRadix.tables s.machine.ram 3 r q →
      q ∉ freePages s.machine.buddy ∧ (s.machine.buddy.frameMetadata q).refcount = 1 ∧
      ∀ r' ∈ s.roots, pageRadix.leaves s.machine.ram 3 r' q = 0 ∧
        pageRadix.tables s.machine.ram 3 r' q = if r' = r then 1 else 0) ∧
    (∀ r ∈ s.roots, ∀ x e w, pageRadix.lookup s.machine.ram 3 r x = some (e, w) →
      Pte.address.get w ∉ freePages s.machine.buddy ∧
      (s.machine.buddy.frameMetadata (Pte.address.get w)).refcount =
        ∑ r' ∈ s.roots, pageRadix.leaves s.machine.ram 3 r' (Pte.address.get w) ∧
      (Writable w → ∀ r' ∈ s.roots,
        0 < pageRadix.leaves s.machine.ram 3 r' (Pte.address.get w) → r' = r)) := by
  have hs := Spaces.Ok.run harray hlo hm hrun
  refine ⟨fun r hr q hq => ?_, fun r hr x e w hw => ?_⟩
  · have hmem : q ∈ s.tables := ⟨r, hr, hq⟩
    refine ⟨(hs.kernel.used q (Or.inl hmem)).2.2, (hs.tableCount q hmem).refcount,
      fun r' hr' => ⟨hs.leaves_table hr' hmem, ?_⟩⟩
    split_ifs with hne
    · subst hne
      exact Nat.le_antisymm ((hs.tree r' hr').distinct q) hq
    · exact hs.table_apart hr hr' (Ne.symm hne) hq
  · have hx : x % tableSize ^ 4 < tableSize ^ 4 := Nat.mod_lt _ (by decide)
    have hlook : pageRadix.lookup s.machine.ram 3 r (x % tableSize ^ 4) = some (e, w) :=
      (Radix.lookup_mod (R := pageRadix) s.machine.ram 3 r x).trans hw
    have hpte : s.pte r (x % tableSize ^ 4) = some w := by
      rw [Spaces.pte_eq hr hx, hlook]
      rfl
    have hf : s.sharing.frame r (x % tableSize ^ 4) = some (Pte.address.get w) :=
      congrArg (Option.map Pte.address.get) hpte
    have hmap : s.sharing.Mapped (Pte.address.get w) := ⟨r, _, hf⟩
    have hholds : ∀ r' ∈ s.roots, pageRadix.leaves s.machine.ram 3 r' (Pte.address.get w) =
        if r' ∈ s.sharing.holders s.roots (Pte.address.get w) then 1 else 0 := by
      intro r' hr'
      split_ifs with hmem
      · exact hs.leaves_one (Sharing.mem_holders.mp hmem).2
      · exact hs.leaves_none hr' fun h => hmem (Sharing.mem_holders.mpr ⟨hr', h⟩)
    refine ⟨(hs.kernel.used _ (Or.inr hmap)).2.2, ?_, fun hwrite r' hr' hpos => ?_⟩
    · rw [(hs.frameCount _ hmap).refcount, Finset.sum_congr rfl hholds, Finset.sum_boole,
        Finset.filter_mem_eq_inter, Finset.inter_eq_right.mpr fun r' h =>
          (Sharing.mem_holders.mp h).1]
      rfl
    · obtain ⟨y, hy⟩ := (hs.leaves_pos_iff hr').mp hpos
      exact hs.sound.alone r r' _ y _ ⟨w, hpte, hwrite⟩ hf hy

theorem references_are_entries_root : ∃ (s : Spaces) (root : ℕ), root ∈ s.roots ∧
    root ∉ freePages s.machine.buddy ∧ (s.machine.buddy.frameMetadata root).refcount = 1 := by
  obtain ⟨root, _, _, s, hrun, hroot, -⟩ := pagedMachine_run
  obtain ⟨htables, -⟩ := references_are_entries arrayFits_paged (by decide) pagedMachine_kernel
    hrun
  obtain ⟨hfree, hcount, -⟩ := htables root hroot root Radix.tables_self
  exact ⟨s, root, hroot, hfree, hcount⟩

/-- The exit of a process returns. It frees the pages that no other process uses: the tables,
and the frames that it alone maps. -/
theorem exit_frees (harray : ArrayFits array) (hlo : 2048 ≤ lo)
    (hm : PagedKernel lo l0Table T ∅ m)
    (hrun : Trace (Spaces.Step array l0Table) ⟨m, ∅⟩ events s) (hroot : root ∈ s.roots) :
    ∃ m', reapVirtualMemory array 3 root s.machine = some m' ∧ ∀ q,
      q ∈ freePages m'.buddy ↔ q ∈ freePages s.machine.buddy ∨
        0 < pageRadix.tables s.machine.ram 3 root q ∨
        0 < pageRadix.leaves s.machine.ram 3 root q ∧
          ∀ r ∈ s.roots, 0 < pageRadix.leaves s.machine.ram 3 r q → r = root := by
  have hs := Spaces.Ok.run harray hlo hm hrun
  obtain ⟨b, hreap, hd⟩ := hs.reaped harray hlo hroot
  refine ⟨_, hreap, fun q => ?_⟩
  show q ∈ freePages b ↔ _
  rw [hd.free_iff hs.kernel.buddy, hs.mem_pages hroot]
  refine or_congr_right ⟨?_, ?_⟩
  · rintro ⟨-, htable | hholds, hlast⟩
    · exact Or.inl htable
    · have hmap : s.sharing.Mapped q := ⟨root, hholds⟩
      rw [hs.count_frame hroot hmap, hs.leaves_one hholds, (hs.frameCount q hmap).refcount]
        at hlast
      refine Or.inr ⟨(hs.leaves_pos_iff hroot).mpr hholds, fun r hr hpos => ?_⟩
      exact Finset.card_le_one.mp hlast.le r
        (Sharing.mem_holders.mpr ⟨hr, (hs.leaves_pos_iff hr).mp hpos⟩) root
        (Sharing.mem_holders.mpr ⟨hroot, hholds⟩)
  · rintro (htable | ⟨hpos, halone⟩)
    · have hmem : q ∈ s.tables := ⟨root, hroot, htable⟩
      have hcount := hs.tableCount q hmem
      refine ⟨hcount.live, Or.inl htable, ?_⟩
      rw [hs.count_table hroot hmem, hcount.refcount]
      exact Nat.le_antisymm htable ((hs.tree root hroot).distinct q)
    · have hholds := (hs.leaves_pos_iff hroot).mp hpos
      have hmap : s.sharing.Mapped q := ⟨root, hholds⟩
      have hcount := hs.frameCount q hmap
      have hself : s.sharing.holders s.roots q = {root} := by
        refine Finset.eq_singleton_iff_unique_mem.mpr
          ⟨Sharing.mem_holders.mpr ⟨hroot, hholds⟩, fun r hr => ?_⟩
        obtain ⟨hr, hr'⟩ := Sharing.mem_holders.mp hr
        exact halone r hr ((hs.leaves_pos_iff hr).mpr hr')
      refine ⟨hcount.live, Or.inr hholds, ?_⟩
      rw [hs.count_frame hroot hmap, hs.leaves_one hholds, hcount.refcount, hself,
        Finset.card_singleton]

theorem exit_frees_root : ∃ (s : Spaces) (root : ℕ) (m' : Machine), root ∈ s.roots ∧
    reapVirtualMemory (pageAddr 1026) 3 root s.machine = some m' ∧
    root ∈ freePages m'.buddy := by
  obtain ⟨root, _, _, s, hrun, hroot, -⟩ := pagedMachine_run
  obtain ⟨m', hreap, hfree⟩ := exit_frees arrayFits_paged (by decide) pagedMachine_kernel hrun
    hroot
  exact ⟨s, root, m', hroot, hreap, (hfree root).mpr (Or.inr (Or.inl Radix.tables_self))⟩

end Memories

end Rpos
