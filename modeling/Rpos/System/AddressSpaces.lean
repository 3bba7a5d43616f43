import Rpos.Base.Sharing
import Rpos.Base.Runs
import Rpos.Memory.PagedKernel
import Rpos.Memory.UpdateMapping
import Rpos.System.LazyMapping

/-!
# The address spaces of the processes

The trees of all processes in one memory, with the calls that change them. A process gets an
L0 table from `buddy_alloc_pt`; `readelf` and `check_vma` request a page and map it, and
`readelf` sets the attributes of the segments; `fork` clones the tree of a process and `reap`
or `readelf` gives one up. The frames are shared for copy-on-write. A write to a shared frame
faults, and its handler does not return, so a run goes on without it.
-/

namespace Rpos

open Base

/-! ## §1  The calls -/

/-- The machine and the L0 tables of the processes, by their pages. -/
structure Spaces where
  machine : Machine
  roots : Finset ℕ

def Writable (w : Word) : Prop := Pte.ap.get w = el0NaEl1Rw ∨ Pte.ap.get w = el0RwEl1Rw

namespace Spaces

def pte (s : Spaces) (r x : ℕ) : Option Word :=
  if r ∈ s.roots ∧ x < tableSize ^ 4 then
    (pageRadix.lookup s.machine.ram 3 r x).map Prod.snd
  else none

def sharing (s : Spaces) : Sharing ℕ ℕ ℕ where
  frame r x := (s.pte r x).map Pte.address.get
  writable r x := ∃ w, s.pte r x = some w ∧ Writable w

end Spaces

/-- The address space that a call is about, and what it does there. -/
inductive SpaceEvent
  | create (root : ℕ)
  | install (root x : ℕ) (data : ℕ → Word)
  | protect (root : ℕ)
  | write (root x i : ℕ) (w : Word)
  | fork (root child : ℕ)
  | exit (root : ℕ)

def pageNumber (va : ℕ) : ℕ := va / pageSize % tableSize ^ 4

/-- A call that is granted the pages it asks for, and returns. A run does not go on from a
mapping that is refused its page, which names the frame of `va_to_pa(NULL)`. The page that
`buddy_alloc` hands out is not cleared: the label of `load` and of `fault` has the words that
it holds. -/
inductive Spaces.Step (array l0Table : ℕ) : Spaces → SpaceEvent → Spaces → Prop
  | create {s : Spaces} {root : ℕ} {m : Machine} : root < ramPages →
      buddyAllocPt l0Table s.machine = some (pageAddr root, m) →
      Step array l0Table s (.create root) ⟨m, insert root s.roots⟩
  /-- A page of a segment, in `readelf`. -/
  | load {s : Spaces} {root f va : ℕ} {m₁ m : Machine} : root ∈ s.roots → f < ramPages →
      s.machine.buddyAlloc pageSize = some (pageAddr f, m₁) →
      kernelMap l0Table va (vaToPa (pageAddr f)) 0 (mapUser ||| mapRead ||| mapWrite) root m₁ =
        some m →
      Step array l0Table s (.install root (pageNumber va) (s.machine.ram f)) ⟨m, s.roots⟩
  | fault {s : Spaces} {root f : ℕ} {h : VmaHeap} {vmas : List ℕ} {addr : Word}
      {m₁ m : Machine} : root ∈ s.roots → f < ramPages →
      s.machine.buddyAlloc pageSize = some (pageAddr f, m₁) →
      handleEl0Fault (buddyAllocPt l0Table) array l0Table h vmas root addr s.machine =
        some (.mapped, m) →
      Step array l0Table s (.install root (pageNumber addr.toNat) (s.machine.ram f))
        ⟨m, s.roots⟩
  /-- The attributes of a range, in `readelf`: the tree is new, no process has been forked
  from it. -/
  | protect {s : Spaces} {root virtStart virtEnd flags : ℕ} {r : Option Bool} {m : Machine} :
      root ∈ s.roots → s.sharing.Unshared root →
      updateMapping virtStart virtEnd flags root s.machine = some (r, m) →
      Step array l0Table s (.protect root) ⟨m, s.roots⟩
  /-- A store of the process, or of the kernel to its memory. -/
  | write {s : Spaces} {root x f i : ℕ} {w : Word} : s.sharing.frame root x = some f →
      s.sharing.writable root x →
      Step array l0Table s (.write root x i w) ⟨s.machine.write f i w, s.roots⟩
  /-- A process with a page mapped is cloned, with pages enough for the tables. -/
  | fork {s : Spaces} {root child x f : ℕ} {m : Machine} : root ∈ s.roots → child < ramPages →
      s.sharing.frame root x = some f →
      pageRadix.size s.machine.ram 3 root ≤ (freePages s.machine.buddy).card →
      cloneVirtualMemory (buddyAllocPt l0Table) root s.machine = some (pageAddr child, m) →
      Step array l0Table s (.fork root child) ⟨m, insert child s.roots⟩
  | exit {s : Spaces} {root : ℕ} {m : Machine} : root ∈ s.roots →
      reapVirtualMemory array 3 root s.machine = some m →
      Step array l0Table s (.exit root) ⟨m, s.roots.erase root⟩

/-! ## §2  Memories of their own -/

abbrev Memories := ℕ → ℕ → Option (ℕ → Word)

/-- A memory of its own for each process: a fork copies it, and no call touches that of
another process. -/
def Memories.step (σ : Memories) : SpaceEvent → Memories
  | .create root => Function.update σ root fun _ => none
  | .install root x data =>
      match σ root x with
      | none => Function.update σ root (Function.update (σ root) x (some data))
      | some _ => σ
  | .protect _ => σ
  | .write root x i w => Function.update σ root
      (Function.update (σ root) x ((σ root x).map fun page => Function.update page i w))
  | .fork root child => Function.update σ child (σ root)
  | .exit root => Function.update σ root fun _ => none

def Spaces.memories (s : Spaces) : Memories := s.sharing.image s.machine.ram

/-! ## §3  The invariant -/

structure Counted (b : Buddy) (n q : ℕ) : Prop where
  live : (⟨q, 0⟩ : Block) ∈ (pageAllocatorOf b).live
  state : (b.frameMetadata q).state ≠ pageReserved
  refcount : (b.frameMetadata q).refcount = n

namespace Spaces

def tables (s : Spaces) : Set ℕ :=
  {q | ∃ r ∈ s.roots, 0 < pageRadix.tables s.machine.ram 3 r q}

def used (s : Spaces) : Set ℕ := {q | q ∈ s.tables ∨ s.sharing.Mapped q}

/-- No two processes have a table in common, the frames are no tables, and each page is
counted as often as it is used. -/
structure Ok (lo l0Table : ℕ) (T : Set ℕ) (s : Spaces) : Prop where
  kernel : PagedKernel lo l0Table T s.used s.machine
  tree : ∀ r ∈ s.roots, PageTree TableOrPage s.machine.ram r
  apart : ∀ r ∈ s.roots, ∀ r' ∈ s.roots, ∀ q, 0 < pageRadix.tables s.machine.ram 3 r q →
    0 < pageRadix.tables s.machine.ram 3 r' q → r = r'
  frames : ∀ f, s.sharing.Mapped f → f ∉ s.tables
  filled : ∀ r ∈ s.roots, ∀ q, 0 < pageRadix.tables s.machine.ram 3 r q → q ≠ r →
    HasEntry s.machine.ram q
  sound : s.sharing.Sound
  tableCount : ∀ q ∈ s.tables, Counted s.machine.buddy 1 q
  frameCount : ∀ f, s.sharing.Mapped f →
    Counted s.machine.buddy (s.sharing.holders s.roots f).card f

end Spaces

section Lookups

variable {lo l0Table r r' q x f : ℕ} {T : Set ℕ} {s s' : Spaces} {w : Word}
  {ram ram' : ℕ → ℕ → Word}

namespace Spaces

theorem pte_eq (hr : r ∈ s.roots) (hx : x < tableSize ^ 4) :
    s.pte r x = (pageRadix.lookup s.machine.ram 3 r x).map Prod.snd :=
  if_pos ⟨hr, hx⟩

theorem pte_some (h : s.pte r x = some w) : r ∈ s.roots ∧ x < tableSize ^ 4 ∧
    ∃ e, pageRadix.lookup s.machine.ram 3 r x = some (e, w) := by
  unfold pte at h
  split_ifs at h with hmem
  obtain ⟨⟨e, u⟩, hu, rfl⟩ := Option.map_eq_some_iff.mp h
  exact ⟨hmem.1, hmem.2, e, hu⟩

theorem pte_none (hr : r ∉ s.roots) : s.pte r x = none := if_neg fun h => hr h.1

theorem frame_none (hr : r ∉ s.roots) : s.sharing.frame r x = none :=
  congrArg (Option.map Pte.address.get) (pte_none hr)

theorem frame_some (h : s.sharing.frame r x = some f) : r ∈ s.roots ∧ x < tableSize ^ 4 ∧
    ∃ w, s.pte r x = some w ∧ Pte.address.get w = f := by
  obtain ⟨w, hw, hf⟩ := Option.map_eq_some_iff.mp h
  obtain ⟨hr, hx, -⟩ := pte_some hw
  exact ⟨hr, hx, w, hw, hf⟩

theorem pte_congr (hr : r ∈ s'.roots ↔ r ∈ s.roots)
    (h : r ∈ s.roots → ∀ q, 0 < pageRadix.tables s.machine.ram 3 r q →
      s'.machine.ram q = s.machine.ram q) : s'.pte r x = s.pte r x := by
  by_cases hmem : r ∈ s.roots
  · by_cases hx : x < tableSize ^ 4
    · rw [pte_eq hmem hx, pte_eq (hr.mpr hmem) hx, Radix.lookup_congr x (h hmem)]
    · rw [pte, pte, if_neg fun h => hx h.2, if_neg fun h => hx h.2]
  · rw [pte_none hmem, pte_none fun h => hmem (hr.mp h)]

theorem frame_congr (h : s'.pte r x = s.pte r x) :
    s'.sharing.frame r x = s.sharing.frame r x :=
  congrArg (Option.map Pte.address.get) h

theorem table_mem (hr : r ∈ s.roots) (hq : 0 < pageRadix.tables s.machine.ram 3 r q) :
    q ∈ s.used :=
  Or.inl ⟨r, hr, hq⟩

theorem root_mem (hr : r ∈ s.roots) : r ∈ s.used := table_mem hr Radix.tables_self

theorem frame_eq (hr : r ∈ s.roots) (hx : x < tableSize ^ 4) :
    s.sharing.frame r x = pageRadix.pageOf s.machine.ram 3 r x := by
  show (s.pte r x).map Pte.address.get = _
  rw [pte_eq hr hx, Option.map_map]
  rfl

namespace Ok

theorem table_apart (hs : s.Ok lo l0Table T) (hr : r ∈ s.roots) (hr' : r' ∈ s.roots)
    (hne : r ≠ r') (hq : 0 < pageRadix.tables s.machine.ram 3 r q) :
    pageRadix.tables s.machine.ram 3 r' q = 0 := by
  by_contra hpos
  exact hne (hs.apart r hr r' hr' q hq (Nat.pos_of_ne_zero hpos))

theorem frame_apart (hs : s.Ok lo l0Table T) (hf : s.sharing.Mapped f) (hr : r ∈ s.roots) :
    pageRadix.tables s.machine.ram 3 r f = 0 := by
  by_contra hpos
  exact hs.frames f hf ⟨r, hr, Nat.pos_of_ne_zero hpos⟩

theorem used_lt (hs : s.Ok lo l0Table T) (hq : q ∈ s.used) : q < ramPages :=
  (hs.kernel.used q hq).2.1

theorem not_used (hs : s.Ok lo l0Table T) (hq : q ∈ freePages s.machine.buddy) : q ∉ s.used :=
  fun h => (hs.kernel.used q h).2.2 hq

end Ok

end Spaces

/-! ## §4  Counts -/

variable {b b₀ : Buddy} {n : ℕ} {U U₀ : Set ℕ}

theorem Counted.grown (h : Counted b₀ n q) (hb : BuddyOk lo b₀) (hl : ForkLedger lo b₀ U₀ U b)
    (hrecords : ∀ q ∈ heldPages b₀, b.frameMetadata q = b₀.frameMetadata q) : Counted b n q := by
  have hrecord := hrecords q (hb.live_page h.live).1
  refine ⟨(hl.live _).mpr (Or.inl h.live), ?_, ?_⟩
  · rw [hrecord]
    exact h.state
  · rw [hrecord]
    exact h.refcount

theorem ForkLedger.counted_new (hl : ForkLedger lo b₀ U₀ U b) (hq : q ∈ newPages U₀ U) :
    Counted b 1 q := by
  obtain ⟨hcount, hstate⟩ := hl.counted q hq
  refine ⟨(hl.live _).mpr (Or.inr ⟨rfl, hq⟩), ?_, hcount⟩
  rw [hstate]
  decide

end Lookups

/-! ## §5  An address space that grows -/

/-- The tree at `root` is new, or has grown, by the tables of `N`; the trees of the other
processes have the tables that they had. -/
structure Extended (lo l0Table : ℕ) (T U N : Set ℕ) (root : ℕ) (s s' : Spaces) : Prop where
  roots : s'.roots = insert root s.roots
  kernel : PagedKernel lo l0Table T U s'.machine
  grown : s.used ⊆ U
  fresh : ∀ q ∈ N, q ∈ U ∧ q ∉ s.used ∧ Counted s'.machine.buddy 1 q
  tree : PageTree TableOrPage s'.machine.ram root
  tables : ∀ q, 0 < pageRadix.tables s'.machine.ram 3 root q ↔
    root ∈ s.roots ∧ 0 < pageRadix.tables s.machine.ram 3 root q ∨ q ∈ N
  filled : ∀ q, 0 < pageRadix.tables s'.machine.ram 3 root q → q ≠ root →
    HasEntry s'.machine.ram q
  others : ∀ r ∈ s.roots, r ≠ root → PageTree TableOrPage s'.machine.ram r ∧
    (∀ q, 0 < pageRadix.tables s'.machine.ram 3 r q ↔
      0 < pageRadix.tables s.machine.ram 3 r q) ∧
    ∀ q, 0 < pageRadix.tables s'.machine.ram 3 r q → q ≠ r → HasEntry s'.machine.ram q
  sound : s'.sharing.Sound
  frames : ∀ f, s'.sharing.Mapped f → s.sharing.Mapped f ∨ f ∈ U ∧ f ∉ s.used ∧ f ∉ N
  tableCount : ∀ q ∈ s.tables, Counted s'.machine.buddy 1 q
  frameCount : ∀ f, s'.sharing.Mapped f →
    Counted s'.machine.buddy (s'.sharing.holders s'.roots f).card f

section Extend

variable {lo l0Table root : ℕ} {T U N : Set ℕ} {s s' : Spaces}

theorem Extended.mem_tables (h : Extended lo l0Table T U N root s s') {q : ℕ} :
    q ∈ s'.tables ↔ q ∈ s.tables ∨ q ∈ N := by
  constructor
  · rintro ⟨r, hr, hq⟩
    by_cases hroot : r = root
    · subst hroot
      exact ((h.tables q).mp hq).imp_left fun hold => ⟨r, hold.1, hold.2⟩
    · rw [h.roots] at hr
      have hr' := Finset.mem_of_mem_insert_of_ne hr hroot
      exact Or.inl ⟨r, hr', ((h.others r hr' hroot).2.1 q).mp hq⟩
  · have hroot : root ∈ s'.roots := by
      rw [h.roots]
      exact Finset.mem_insert_self root _
    rintro (⟨r, hr, hq⟩ | hq)
    · by_cases hne : r = root
      · subst hne
        exact ⟨r, hroot, (h.tables q).mpr (Or.inl ⟨hr, hq⟩)⟩
      · refine ⟨r, ?_, ((h.others r hr hne).2.1 q).mpr hq⟩
        rw [h.roots]
        exact Finset.mem_insert_of_mem hr
    · exact ⟨root, hroot, (h.tables q).mpr (Or.inr hq)⟩

theorem Extended.ok (hs : s.Ok lo l0Table T) (h : Extended lo l0Table T U N root s s') :
    s'.Ok lo l0Table T := by
  have hr : ∀ r ∈ s'.roots, r ≠ root → r ∈ s.roots := by
    intro r hr hne
    rw [h.roots] at hr
    exact Finset.mem_of_mem_insert_of_ne hr hne
  -- another tree has neither the tables of `N` nor those that the tree at `root` had
  have hapart : ∀ r ∈ s'.roots, r ≠ root → ∀ q, 0 < pageRadix.tables s'.machine.ram 3 r q →
      ¬ 0 < pageRadix.tables s'.machine.ram 3 root q := by
    intro r hr' hne q hq hroot
    have hmem := hr r hr' hne
    have hold := ((h.others r hmem hne).2.1 q).mp hq
    rcases (h.tables q).mp hroot with ⟨hroot', hq'⟩ | hN
    · exact hne (hs.apart r hmem root hroot' q hold hq')
    · exact (h.fresh q hN).2.1 (Spaces.table_mem hmem hold)
  refine ⟨⟨h.kernel.buddy, h.kernel.walks, fun q hq => h.kernel.used q ?_⟩, fun r hr' => ?_,
    fun r hr' r' hr'' q hq hq' => ?_, fun f hf hq => ?_, fun r hr' q hq hne => ?_, h.sound,
    fun q hq => ?_, h.frameCount⟩
  · rcases hq with hq | hq
    · rcases h.mem_tables.mp hq with hold | hN
      · exact h.grown (Or.inl hold)
      · exact (h.fresh q hN).1
    · rcases h.frames q hq with hold | hnew
      · exact h.grown (Or.inr hold)
      · exact hnew.1
  · by_cases hroot : r = root
    · exact hroot ▸ h.tree
    · exact (h.others r (hr r hr' hroot) hroot).1
  · by_cases hroot : r = root
    · subst hroot
      by_contra hne
      exact hapart r' hr'' (Ne.symm hne) q hq' hq
    · by_cases hroot' : r' = root
      · subst hroot'
        exact absurd hq' (hapart r hr' hroot q hq)
      · have hmem := hr r hr' hroot
        have hmem' := hr r' hr'' hroot'
        exact hs.apart r hmem r' hmem' q (((h.others r hmem hroot).2.1 q).mp hq)
          (((h.others r' hmem' hroot').2.1 q).mp hq')
  · rcases h.frames f hf with hold | ⟨-, hused, hN⟩
    · rcases h.mem_tables.mp hq with hq | hq
      · exact hs.frames f hold hq
      · exact (h.fresh f hq).2.1 (Or.inr hold)
    · rcases h.mem_tables.mp hq with hq | hq
      · exact hused (Or.inl hq)
      · exact hN hq
  · by_cases hroot : r = root
    · subst hroot
      exact h.filled q hq hne
    · exact (h.others r (hr r hr' hroot) hroot).2.2 q hq hne
  · rcases h.mem_tables.mp hq with hq | hq
    · exact h.tableCount q hq
    · exact (h.fresh q hq).2.2

theorem Spaces.Ok.left_alone (hs : s.Ok lo l0Table T) (s' : Spaces) {r : ℕ} (hr : r ∈ s.roots)
    (hkeep : ∀ q, 0 < pageRadix.tables s.machine.ram 3 r q →
      s'.machine.ram q = s.machine.ram q) : PageTree TableOrPage s'.machine.ram r ∧
    (∀ q, 0 < pageRadix.tables s'.machine.ram 3 r q ↔
      0 < pageRadix.tables s.machine.ram 3 r q) ∧
    ∀ q, 0 < pageRadix.tables s'.machine.ram 3 r q → q ≠ r → HasEntry s'.machine.ram q := by
  have hsame : ∀ q, pageRadix.tables s'.machine.ram 3 r q =
      pageRadix.tables s.machine.ram 3 r q := fun q => Radix.tables_congr q hkeep
  refine ⟨(hs.tree r hr).congr hkeep, fun q => by rw [hsame], fun q hq hne => ?_⟩
  rw [hsame] at hq
  exact (hs.filled r hr q hq hne).congr (hkeep q hq)

end Extend

/-! ## §6  A new process -/

section Create

variable {lo l0Table root : ℕ} {T : Set ℕ} {s : Spaces} {m : Machine}

theorem Spaces.Ok.create (hs : s.Ok lo l0Table T) (hlo : 2048 ≤ lo) (hlt : root < ramPages)
    (hrun : buddyAllocPt l0Table s.machine = some (pageAddr root, m)) :
    Spaces.Ok lo l0Table T ⟨m, insert root s.roots⟩ ∧
      Spaces.memories ⟨m, insert root s.roots⟩ = s.memories.step (.create root) := by
  obtain ⟨-, p, hp, -⟩ := buddyAllocPt_pool hs.kernel.buddy hlo hrun (pageAddr_ne_zero hlt)
  obtain ⟨a, m', hgrant, ha, hfree, hbuddy, hblank, hkeep, hkernel⟩ :=
    hs.kernel.grant hlo ⟨p, hp⟩
  rw [hgrant, Option.some.injEq, Prod.mk.injEq] at hrun
  obtain ⟨haddr, rfl⟩ := hrun
  obtain rfl := pageAddr_inj ha hlt haddr
  obtain ⟨hnew, -, hrecords, hledger⟩ := (ForkLedger.start hs.kernel.buddy fun q hq =>
    (hs.kernel.used q hq).2.2).grant hlo ha hbuddy
  have hroots : a ∉ s.roots := fun h => hnew (Spaces.root_mem h)
  have hempty : PageTree TableOrPage m'.ram a ∧
      (∀ q, pageRadix.tables m'.ram 3 a q = if q = a then 1 else 0) ∧
      ∀ x, pageRadix.lookup m'.ram 3 a x = none := PageTree.blank tableOrPage_admits ha hblank
  obtain ⟨htree, htables, hlookup⟩ := hempty
  have hold : ∀ r ∈ s.roots, ∀ q, 0 < pageRadix.tables s.machine.ram 3 r q →
      m'.ram q = s.machine.ram q := fun r hr q hq => hkeep q (Spaces.table_mem hr hq)
  have hself : ∀ q, 0 < pageRadix.tables m'.ram 3 a q ↔ q = a := by
    intro q
    rw [htables]
    split_ifs with hqa
    · exact iff_of_true Nat.one_pos hqa
    · exact iff_of_false (Nat.lt_irrefl 0) hqa
  have hpte : ∀ r x, Spaces.pte ⟨m', insert a s.roots⟩ r x = s.pte r x := by
    intro r x
    by_cases hra : r = a
    · rw [hra, Spaces.pte_none hroots, Spaces.pte]
      split_ifs
      · rw [hlookup x]
        rfl
      · rfl
    · exact Spaces.pte_congr (Finset.mem_insert.trans (or_iff_right hra)) (hold r)
  have hframe : (Spaces.sharing ⟨m', insert a s.roots⟩).frame = s.sharing.frame := by
    funext r x
    exact Spaces.frame_congr (hpte r x)
  have hmapped : ∀ f, (Spaces.sharing ⟨m', insert a s.roots⟩).Mapped f → s.sharing.Mapped f := by
    rintro f ⟨r, x, hf⟩
    rw [hframe] at hf
    exact ⟨r, x, hf⟩
  refine ⟨Extended.ok hs (U := insert a s.used) (N := {a}) ⟨rfl, hkernel, Set.subset_insert _ _,
    fun q hq => ?_, htree, fun q => ?_, fun q hq hne => absurd ((hself q).mp hq) hne,
    fun r hr _ => hs.left_alone _ hr (hold r hr), hs.sound.mono hframe fun r x => ?_,
    fun f hf => Or.inl (hmapped f hf),
    fun q hq => (hs.tableCount q hq).grown hs.kernel.buddy hledger hrecords, fun f hf => ?_⟩, ?_⟩
  · obtain rfl := Set.mem_singleton_iff.mp hq
    refine ⟨Set.mem_insert q _, hnew, hledger.counted_new ?_⟩
    rw [newPages_insert hnew ha]
    exact hq
  · rw [hself, or_iff_right fun h => hroots h.1, Set.mem_singleton_iff]
  · rintro ⟨w, hw, hwrite⟩
    rw [hpte] at hw
    exact ⟨w, hw, hwrite⟩
  · have hnone : ¬ s.sharing.Holds f a := by
      rintro ⟨x, hx⟩
      exact hroots (Spaces.frame_some hx).1
    rw [Sharing.holders_frame hframe, Sharing.holders_insert hnone]
    exact (hs.frameCount f (hmapped f hf)).grown hs.kernel.buddy hledger hrecords
  · have hnone : s.memories a = fun _ => none := by
      funext x
      rw [Spaces.memories, Sharing.image, Spaces.frame_none hroots, Option.map_none]
    rw [Memories.step, ← hnone, Function.update_eq_self]
    exact Sharing.image_congr hframe fun f hf => hkeep f (Or.inr hf)

end Create

/-! ## §7  A page that is mapped -/

section Install

variable {lo l0Table root f va flags : ℕ} {T : Set ℕ} {s : Spaces} {m m₁ : Machine}

theorem Spaces.Ok.alloc (hs : s.Ok lo l0Table T) (hlo : 2048 ≤ lo) (hlt : f < ramPages)
    (halloc : s.machine.buddyAlloc pageSize = some (pageAddr f, m₁)) :
    f ∉ s.used ∧ m₁.ram = s.machine.ram ∧ PagedKernel lo l0Table T (insert f s.used) m₁ ∧
      (∀ n q, Counted s.machine.buddy n q → Counted m₁.buddy n q) ∧ Counted m₁.buddy 1 f := by
  obtain ⟨⟨page, b⟩, hrun, heq⟩ := Option.map_eq_some_iff.mp halloc
  obtain ⟨hpage, rfl⟩ := Prod.mk.inj heq
  have hrun : buddyAlloc pageSize s.machine.buddy = some (pageAddr f, b) := hpage ▸ hrun
  obtain ⟨hb, hfree, -⟩ := hs.kernel.buddy.alloc_held hlo hlt hrun
  obtain ⟨hnew, -, hrecords, hledger⟩ := (ForkLedger.start hs.kernel.buddy fun q hq =>
    (hs.kernel.used q hq).2.2).grant hlo hlt hrun
  refine ⟨hnew, rfl, hs.kernel.regroup hb fun q hq => ?_,
    fun n q hq => hq.grown hs.kernel.buddy hledger hrecords, hledger.counted_new ?_⟩
  · rcases hq with rfl | hq
    · exact ⟨(hs.kernel.buddy.free_lt hfree).1, hlt, hledger.stored q (Set.mem_insert q _)⟩
    · exact ⟨(hs.kernel.used q hq).1, hledger.held (hs.kernel.used q hq).2⟩
  · rw [newPages_insert hnew hlt]
    exact Set.mem_singleton f

/-- The page that a leaf descriptor for a page of RAM names. -/
theorem leafDescriptor_page (hlt : f < ramPages) (flags : ℕ) :
    Pte.address.get (leafDescriptor flags 1 (vaToPa (pageAddr f))) = f := by
  rw [leafDescriptor_address, vaToPa_pageAddr hlt]
  exact Nat.mod_eq_of_lt (Nat.lt_of_lt_of_le hlt (by decide))

theorem Spaces.pte_install {U : Set ℕ} {w : Word} {x : ℕ} (hroot : root ∈ s.roots)
    (hram : m₁.ram = s.machine.ram)
    (hg : TreeGrows lo l0Table T (insert f s.used) root x w m₁ U m)
    (hothers : ∀ r ∈ s.roots, r ≠ root → ∀ q, 0 < pageRadix.tables s.machine.ram 3 r q →
      m.ram q = s.machine.ram q) (hx : x < tableSize ^ 4) (r y : ℕ) :
    Spaces.pte ⟨m, s.roots⟩ r y =
      if (r = root ∧ y = x) ∧ s.pte root x = none then some w else s.pte r y := by
  by_cases hr : r = root
  · subst hr
    by_cases hy : y < tableSize ^ 4
    · rw [Spaces.pte_eq (s := ⟨m, s.roots⟩) hroot hy, Spaces.pte_eq hroot hy,
        Spaces.pte_eq hroot hx, hg.lookup y hy, hram]
      by_cases hyx : y = x
      · subst hyx
        simp only [true_and, Option.map_eq_none_iff]
        split_ifs <;> rfl
      · rw [if_neg fun h => hyx h.1, if_neg fun h => hyx h.1.2]
    · have hne : ¬ (y = x) := fun h => hy (h ▸ hx)
      rw [if_neg fun h => hne h.1.2, Spaces.pte, Spaces.pte, if_neg fun h => hy h.2,
        if_neg fun h => hy h.2]
  · rw [if_neg fun h => hr h.1.1]
    exact Spaces.pte_congr Iff.rfl fun hmem => hothers r hmem hr

theorem Spaces.Ok.install_grows (hs : s.Ok lo l0Table T) (hlo : 2048 ≤ lo)
    (hroot : root ∈ s.roots) (hlt : f < ramPages)
    (halloc : s.machine.buddyAlloc pageSize = some (pageAddr f, m₁))
    (hrun : mapPage (buddyAllocPt l0Table) va (vaToPa (pageAddr f)) flags root m₁ = some m) :
    ∃ U, TreeGrows lo l0Table T (insert f s.used) root (pageNumber va)
        (leafDescriptor flags 1 (vaToPa (pageAddr f))) m₁ U m ∧
      (∀ q ∈ insert f s.used, pageRadix.tables s.machine.ram 3 root q = 0 →
        m.ram q = s.machine.ram q) ∧
      ∀ r ∈ s.roots, r ≠ root → ∀ q, 0 < pageRadix.tables s.machine.ram 3 r q →
        m.ram q = s.machine.ram q := by
  obtain ⟨-, hram, hkernel, -⟩ := hs.alloc hlo hlt halloc
  have hsub : ∀ q, 0 < pageRadix.tables m₁.ram 3 root q → q ∈ insert f s.used := by
    intro q hq
    rw [hram] at hq
    exact Set.mem_insert_of_mem f (Spaces.table_mem hroot hq)
  obtain ⟨U, hg⟩ := hkernel.mapPage_grows hlo (hram ▸ hs.tree root hroot) hsub
    (hram ▸ hs.filled root hroot) hrun
  have hkeep : ∀ q ∈ insert f s.used, pageRadix.tables s.machine.ram 3 root q = 0 →
      m.ram q = s.machine.ram q := by
    intro q hq hnone
    rw [← hram] at hnone ⊢
    exact hg.keep q hq hnone
  exact ⟨U, hg, hkeep, fun r hr hne q hq => hkeep q
    (Set.mem_insert_of_mem f (Spaces.table_mem hr hq)) (hs.table_apart hr hroot hne hq)⟩

theorem Spaces.Ok.pte_new (hs : s.Ok lo l0Table T) (hlo : 2048 ≤ lo) (hroot : root ∈ s.roots)
    (hlt : f < ramPages) (halloc : s.machine.buddyAlloc pageSize = some (pageAddr f, m₁))
    (hrun : mapPage (buddyAllocPt l0Table) va (vaToPa (pageAddr f)) flags root m₁ = some m)
    (hnone : s.pte root (pageNumber va) = none) :
    Spaces.pte ⟨m, s.roots⟩ root (pageNumber va) =
      some (leafDescriptor flags 1 (vaToPa (pageAddr f))) := by
  obtain ⟨U, hg, -, hothers⟩ := hs.install_grows hlo hroot hlt halloc hrun
  obtain ⟨-, hram, -⟩ := hs.alloc hlo hlt halloc
  rw [Spaces.pte_install hroot hram hg hothers (Nat.mod_lt _ (by decide)),
    if_pos ⟨⟨rfl, rfl⟩, hnone⟩]

/-- A page from `buddy_alloc` that is mapped, as in `readelf` and `check_vma`. -/
theorem Spaces.Ok.install (hs : s.Ok lo l0Table T) (hlo : 2048 ≤ lo) (hroot : root ∈ s.roots)
    (hlt : f < ramPages) (halloc : s.machine.buddyAlloc pageSize = some (pageAddr f, m₁))
    (hrun : mapPage (buddyAllocPt l0Table) va (vaToPa (pageAddr f)) flags root m₁ = some m) :
    Spaces.Ok lo l0Table T ⟨m, s.roots⟩ ∧ Spaces.memories ⟨m, s.roots⟩ =
      s.memories.step (.install root (pageNumber va) (s.machine.ram f)) := by
  obtain ⟨hnew, hram, hkernel, hcarry, hcount⟩ := hs.alloc hlo hlt halloc
  obtain ⟨U, hg, hkeep, hothers⟩ := hs.install_grows hlo hroot hlt halloc hrun
  have hframes : ∀ g, s.sharing.Mapped g → m.ram g = s.machine.ram g := fun g hg' =>
    hkeep g (Set.mem_insert_of_mem f (Or.inr hg')) (hs.frame_apart hg' hroot)
  have hx : pageNumber va < tableSize ^ 4 := Nat.mod_lt _ (by decide)
  have hpte := Spaces.pte_install hroot hram hg hothers hx
  have hcarry' : ∀ n q, Counted s.machine.buddy n q → Counted m.buddy n q :=
    fun n q hq => (hcarry n q hq).grown hkernel.buddy hg.ledger hg.records
  -- what does not depend on whether the page was mapped before
  have hext : ∀ (hsound : (Spaces.sharing ⟨m, s.roots⟩).Sound)
      (hmapped : ∀ g, (Spaces.sharing ⟨m, s.roots⟩).Mapped g → s.sharing.Mapped g ∨ g = f)
      (hcounts : ∀ g, (Spaces.sharing ⟨m, s.roots⟩).Mapped g → Counted m.buddy
        ((Spaces.sharing ⟨m, s.roots⟩).holders s.roots g).card g),
      Spaces.Ok lo l0Table T ⟨m, s.roots⟩ := by
    intro hsound hmapped hcounts
    have hgrown := hg.ledger.grown
    refine Extended.ok hs (U := U) (N := newPages (insert f s.used) U)
      ⟨(Finset.insert_eq_self.mpr hroot).symm, hg.serves, (Set.subset_insert f _).trans hgrown,
        fun q hq => ⟨hq.1, fun h => hq.2.1 (Set.mem_insert_of_mem f h),
          hg.ledger.counted_new hq⟩, hg.tree, fun q => ?_, fun q hq _ => hg.filled q hq,
        fun r hr hne => hs.left_alone _ hr (hothers r hr hne), hsound, fun g hg' => ?_,
        fun q hq => hcarry' 1 q (hs.tableCount q hq), hcounts⟩
    · rw [hg.tables q, hram, and_iff_right hroot]
    · refine (hmapped g hg').imp_right ?_
      rintro rfl
      exact ⟨hgrown (Set.mem_insert g _), hnew, fun h => h.2.1 (Set.mem_insert g _)⟩
  by_cases hnone : s.pte root (pageNumber va) = none
  · have hfresh : ¬ s.sharing.Mapped f := fun h => hnew (Or.inr h)
    have hunmapped : s.sharing.frame root (pageNumber va) = none :=
      congrArg (Option.map Pte.address.get) hnone
    have hframe : (Spaces.sharing ⟨m, s.roots⟩).frame =
        (s.sharing.map root (pageNumber va) f True).frame := by
      funext r y
      rw [Sharing.frame_map]
      show (Spaces.pte ⟨m, s.roots⟩ r y).map Pte.address.get = _
      rw [hpte]
      by_cases hry : r = root ∧ y = pageNumber va
      · rw [if_pos ⟨hry, hnone⟩, if_pos hry, Option.map_some, leafDescriptor_page hlt]
      · rw [if_neg fun h => hry h.1, if_neg hry]
        rfl
    have hsplit : ∀ g, (Spaces.sharing ⟨m, s.roots⟩).Mapped g → s.sharing.Mapped g ∨ g = f := by
      rintro g ⟨r, y, hy⟩
      rw [hframe, Sharing.frame_map] at hy
      split_ifs at hy
      · exact Or.inr (Option.some.inj hy).symm
      · exact Or.inl ⟨r, y, hy⟩
    refine ⟨hext ((hs.sound.map hfresh _ _ _).mono hframe fun r y => ?_) hsplit
      fun g hg' => ?_, ?_⟩
    · rintro ⟨w, hw, hwrite⟩
      rw [hpte] at hw
      by_cases hry : r = root ∧ y = pageNumber va
      · exact (if_pos hry).mpr trivial
      · rw [if_neg fun h => hry h.1] at hw
        exact (if_neg hry).mpr ⟨w, hw, hwrite⟩
    · rw [Sharing.holders_frame hframe]
      by_cases hgf : g = f
      · rw [hgf, Sharing.holders_map_self hroot hfresh, Finset.card_singleton]
        exact hcount.grown hkernel.buddy hg.ledger hg.records
      · rw [Sharing.holders_map hunmapped hgf]
        exact hcarry' _ g (hs.frameCount g ((hsplit g hg').resolve_right hgf))
    · have hdata : m.ram f = s.machine.ram f := by
        refine hkeep f (Set.mem_insert f _) ?_
        by_contra hpos
        exact hnew (Spaces.table_mem hroot (Nat.pos_of_ne_zero hpos))
      have hempty : s.memories root (pageNumber va) = none := by
        rw [Spaces.memories, Sharing.image, hunmapped, Option.map_none]
      rw [Memories.step, hempty]
      refine (Sharing.image_congr hframe fun _ _ => rfl).trans ?_
      exact Sharing.image_map hframes hdata
  · have hsame : ∀ r y, Spaces.pte ⟨m, s.roots⟩ r y = s.pte r y := by
      intro r y
      rw [hpte, if_neg fun h => hnone h.2]
    have hframe : (Spaces.sharing ⟨m, s.roots⟩).frame = s.sharing.frame := by
      funext r y
      exact Spaces.frame_congr (hsame r y)
    have hmapped : ∀ g, (Spaces.sharing ⟨m, s.roots⟩).Mapped g → s.sharing.Mapped g := by
      rintro g ⟨r, y, hy⟩
      rw [hframe] at hy
      exact ⟨r, y, hy⟩
    refine ⟨hext (hs.sound.mono hframe fun r y => ?_) (fun g hg' => Or.inl (hmapped g hg'))
      fun g hg' => ?_, ?_⟩
    · rintro ⟨w, hw, hwrite⟩
      rw [hsame] at hw
      exact ⟨w, hw, hwrite⟩
    · rw [Sharing.holders_frame hframe]
      exact hcarry' _ g (hs.frameCount g (hmapped g hg'))
    · obtain ⟨w, hw⟩ := Option.ne_none_iff_exists'.mp hnone
      have hheld : s.memories root (pageNumber va) =
          some (s.machine.ram (Pte.address.get w)) := by
        show ((s.pte root (pageNumber va)).map Pte.address.get).map s.machine.ram = _
        rw [hw]
        rfl
      rw [Memories.step, hheld]
      exact Sharing.image_congr hframe hframes

end Install

/-! ## §8  Attributes that change -/

section Protect

variable {lo l0Table root va flags n : ℕ} {T : Set ℕ} {s : Spaces} {m : Machine} {ok : Bool}
  {r : Option Bool}

/-- The entries after a round of `update_mapping`: one of them has other attributes. -/
theorem Spaces.Ok.pte_protect {t v : ℕ} {w : Word} (hs : s.Ok lo l0Table T)
    (hroot : root ∈ s.roots) (hw : Walked TableOrPage root v 0 t s.machine.ram s.machine.ram)
    (hlook : pageRadix.lookup s.machine.ram 3 root v = some (0, w))
    (hword : s.machine.ram t (pageRadix.digit 0 v) = w) (flags r y : ℕ) :
    Spaces.pte ⟨s.machine.write t (pageRadix.digit 0 v) (withFlags flags w), s.roots⟩ r y =
        s.pte r y ∨
      r = root ∧ s.pte r y = some w ∧
        Spaces.pte ⟨s.machine.write t (pageRadix.digit 0 v) (withFlags flags w), s.roots⟩ r y =
          some (withFlags flags w) := by
  by_cases hr : r = root
  · subst hr
    by_cases hy : y < tableSize ^ 4
    · obtain ⟨-, hlookup⟩ := hw.rewrite flags
      rw [hword] at hlookup
      rw [Spaces.pte_eq (s := ⟨s.machine.write _ _ _, s.roots⟩) hroot hy, hlookup y hy,
        Spaces.pte_eq hroot hy]
      by_cases hyv : y = v % tableSize ^ 4
      · have hold : pageRadix.lookup s.machine.ram 3 r y = some (0, w) := by
          rw [hyv]
          exact (Radix.lookup_mod (R := pageRadix) s.machine.ram 3 r v).trans hlook
        rw [if_pos hyv, hold]
        exact Or.inr ⟨rfl, rfl, rfl⟩
      · rw [if_neg hyv]
        exact Or.inl rfl
    · have hnone : ∀ s : Spaces, s.pte r y = none := fun s => if_neg fun h => hy h.2
      rw [hnone, hnone]
      exact Or.inl rfl
  · refine Or.inl (Spaces.pte_congr Iff.rfl fun hmem q hq => Machine.write_ram_ne _ _ ?_)
    rintro rfl
    have hpos := hw.reaches.tables_pos
    rw [hs.table_apart hmem hroot hr hq] at hpos
    exact absurd hpos (Nat.lt_irrefl 0)

theorem withFlags_target (flags : ℕ) (w : Word) :
    Pte.address.get (withFlags flags w) = Pte.address.get w := by
  rw [withFlags, BitField.get_set]
  exact Nat.mod_eq_of_lt (BitField.get_lt _ w)

theorem Spaces.Ok.updatePage (hs : s.Ok lo l0Table T) (hroot : root ∈ s.roots)
    (halone : s.sharing.Unshared root)
    (hrun : Rpos.updatePage va flags root s.machine = some (ok, m)) :
    Spaces.Ok lo l0Table T ⟨m, s.roots⟩ ∧
      (Spaces.sharing ⟨m, s.roots⟩).frame = s.sharing.frame ∧
      Spaces.memories ⟨m, s.roots⟩ = s.memories := by
  rcases updatePage_spec (hs.tree root hroot) va flags with
    ⟨-, heq⟩ | ⟨t, w, hlook, hword, hw, -, heq⟩
  · rw [heq, Option.some.injEq, Prod.mk.injEq] at hrun
    obtain ⟨-, rfl⟩ := hrun
    exact ⟨hs, rfl, rfl⟩
  obtain ⟨-, -, -, h3⟩ := idx_eq va
  rw [heq, Option.some.injEq, Prod.mk.injEq] at hrun
  obtain ⟨-, rfl⟩ := hrun
  rw [h3] at hword ⊢
  have hpte := hs.pte_protect hroot hw hlook hword flags
  obtain ⟨hleaf, htype⟩ := withFlags_get flags w
  obtain ⟨htree, htables⟩ := hw.place (not_table_zero _) (page_leaf hleaf htype)
    (not_table_zero _) fun _ => htype
  have htable : t ∈ s.tables := ⟨root, hroot, hw.reaches.tables_pos⟩
  have hkeep : ∀ q, q ≠ t → (s.machine.write t (pageRadix.digit 0 (va / pageSize))
      (withFlags flags w)).ram q = s.machine.ram q := fun q hq => Machine.write_ram_ne _ _ hq
  have hframe : (Spaces.sharing ⟨s.machine.write t (pageRadix.digit 0 (va / pageSize))
      (withFlags flags w), s.roots⟩).frame = s.sharing.frame := by
    funext r y
    show (Spaces.pte _ r y).map Pte.address.get = (s.pte r y).map Pte.address.get
    rcases hpte r y with hsame | ⟨-, hold, hnew⟩
    · rw [hsame]
    · rw [hold, hnew, Option.map_some, Option.map_some, withFlags_target]
  have hmapped : ∀ g, (Spaces.sharing ⟨s.machine.write t (pageRadix.digit 0 (va / pageSize))
      (withFlags flags w), s.roots⟩).Mapped g → s.sharing.Mapped g := by
    rintro g ⟨r, y, hy⟩
    rw [hframe] at hy
    exact ⟨r, y, hy⟩
  refine ⟨Extended.ok hs (U := s.used) (N := ∅) ⟨(Finset.insert_eq_self.mpr hroot).symm,
    hs.kernel.write (Or.inl htable) _ _, subset_rfl, fun q hq => absurd hq (Set.notMem_empty q),
    htree, fun q => ?_, fun q hq hne => ?_, fun r hr hne => hs.left_alone _ hr fun q hq => ?_,
    hs.sound.unshared halone hframe ?_, fun g hg => Or.inl (hmapped g hg), hs.tableCount,
    fun g hg => ?_⟩, hframe, ?_⟩
  · rw [write_ram_eq, htables q, and_iff_right hroot]
    exact (or_iff_left (Set.notMem_empty q)).symm
  · by_cases hqt : q = t
    · rw [hqt]
      refine ⟨_, pageRadix.digit_lt 0 (va / pageSize), ?_⟩
      rw [Machine.write_self]
      exact hleaf
    · rw [write_ram_eq, htables] at hq
      exact (hs.filled root hroot q hq hne).congr (hkeep q hqt)
  · refine hkeep q ?_
    rintro rfl
    exact hne (hs.apart r hr root hroot q hq hw.reaches.tables_pos)
  · rintro r y ⟨d, hd, hwrite⟩
    rcases hpte r y with hsame | ⟨hr, -⟩
    · exact Or.inr ⟨d, hsame ▸ hd, hwrite⟩
    · exact Or.inl hr
  · rw [Sharing.holders_frame hframe]
    exact hs.frameCount g (hmapped g hg)
  · refine Sharing.image_congr hframe fun g hg => hkeep g ?_
    rintro rfl
    exact hs.frames g hg htable

theorem Spaces.Ok.updatePages (hs : s.Ok lo l0Table T) (hroot : root ∈ s.roots)
    (halone : s.sharing.Unshared root)
    (hrun : Rpos.updatePages flags root n va s.machine = some (r, m)) :
    Spaces.Ok lo l0Table T ⟨m, s.roots⟩ ∧ Spaces.memories ⟨m, s.roots⟩ = s.memories := by
  induction n generalizing va s with
  | zero =>
      rw [Rpos.updatePages, Option.some.injEq, Prod.mk.injEq] at hrun
      obtain ⟨-, rfl⟩ := hrun
      exact ⟨hs, rfl⟩
  | succ n ih =>
      rw [Rpos.updatePages, Option.bind_eq_bind, Option.bind_eq_some_iff] at hrun
      obtain ⟨⟨ok, m₁⟩, hround, hrest⟩ := hrun
      obtain ⟨hs₁, hframe, hmem⟩ := hs.updatePage hroot halone hround
      dsimp only at hrest
      cases ok with
      | false =>
          rw [if_neg Bool.false_ne_true, Option.some.injEq, Prod.mk.injEq] at hrest
          obtain ⟨-, rfl⟩ := hrest
          exact ⟨hs₁, hmem⟩
      | true =>
          have halone₁ : (Spaces.sharing ⟨m₁, s.roots⟩).Unshared root := by
            rw [Sharing.Unshared, hframe]
            exact halone
          obtain ⟨hs₂, hmem₂⟩ := ih hs₁ hroot halone₁ hrest
          exact ⟨hs₂, hmem₂.trans hmem⟩

theorem Spaces.Ok.protect {virtStart virtEnd : ℕ} (hs : s.Ok lo l0Table T)
    (hroot : root ∈ s.roots) (halone : s.sharing.Unshared root)
    (hrun : updateMapping virtStart virtEnd flags root s.machine = some (r, m)) :
    Spaces.Ok lo l0Table T ⟨m, s.roots⟩ ∧
      Spaces.memories ⟨m, s.roots⟩ = s.memories.step (.protect root) := by
  rw [updateMapping] at hrun
  split_ifs at hrun
  · rw [Option.some.injEq, Prod.mk.injEq] at hrun
    obtain ⟨-, rfl⟩ := hrun
    exact ⟨hs, rfl⟩
  · exact hs.updatePages hroot halone hrun

end Protect

/-! ## §9  A write -/

section Write

variable {lo l0Table root x f : ℕ} {T : Set ℕ} {s : Spaces}

theorem Spaces.Ok.write (hs : s.Ok lo l0Table T) (hf : s.sharing.frame root x = some f)
    (hwrite : s.sharing.writable root x) (i : ℕ) (w : Word) :
    Spaces.Ok lo l0Table T ⟨s.machine.write f i w, s.roots⟩ ∧
      Spaces.memories ⟨s.machine.write f i w, s.roots⟩ =
        s.memories.step (.write root x i w) := by
  have hmap : s.sharing.Mapped f := ⟨root, x, hf⟩
  have hroot := (Spaces.frame_some hf).1
  have hkeep : ∀ r ∈ s.roots, ∀ q, 0 < pageRadix.tables s.machine.ram 3 r q →
      (s.machine.write f i w).ram q = s.machine.ram q := by
    intro r hr q hq
    refine Machine.write_ram_ne _ _ ?_
    rintro rfl
    exact hs.frames q hmap ⟨r, hr, hq⟩
  have hpte : ∀ r y, Spaces.pte ⟨s.machine.write f i w, s.roots⟩ r y = s.pte r y :=
    fun r y => Spaces.pte_congr Iff.rfl (hkeep r)
  have hframe : (Spaces.sharing ⟨s.machine.write f i w, s.roots⟩).frame = s.sharing.frame := by
    funext r y
    exact Spaces.frame_congr (hpte r y)
  have hmapped : ∀ g, (Spaces.sharing ⟨s.machine.write f i w, s.roots⟩).Mapped g →
      s.sharing.Mapped g := by
    rintro g ⟨r, y, hy⟩
    rw [hframe] at hy
    exact ⟨r, y, hy⟩
  obtain ⟨htree, htables, hfilled⟩ := hs.left_alone ⟨s.machine.write f i w, s.roots⟩ hroot
    (hkeep root hroot)
  constructor
  · refine Extended.ok hs (U := s.used) (N := ∅) ⟨(Finset.insert_eq_self.mpr hroot).symm,
      hs.kernel.write (Or.inr hmap) i w, subset_rfl, fun q hq => absurd hq (Set.notMem_empty q),
      htree, fun q => ?_, hfilled, fun r hr _ => hs.left_alone _ hr (hkeep r hr),
      hs.sound.mono hframe fun r y => ?_, fun g hg => Or.inl (hmapped g hg), hs.tableCount,
      fun g hg => ?_⟩
    · rw [htables q, and_iff_right hroot]
      exact (or_iff_left (Set.notMem_empty q)).symm
    · rintro ⟨d, hd, hw⟩
      rw [hpte] at hd
      exact ⟨d, hd, hw⟩
    · rw [Sharing.holders_frame hframe]
      exact hs.frameCount g (hmapped g hg)
  · have hheld : s.memories root x = some (s.machine.ram f) := congrArg (Option.map _) hf
    rw [Memories.step, hheld]
    refine (Sharing.image_congr hframe fun _ _ => rfl).trans ?_
    exact hs.sound.image_write hwrite hf

end Write

end Rpos
