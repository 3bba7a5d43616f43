import Mathlib.Algebra.Order.BigOperators.Group.LocallyFinite
import Rpos.Base.Loops
import Rpos.Base.RadixCopy
import Rpos.Memory.PagePool

/-!
# `clone_virtual_memory`

`clone_page_table` and `clone_virtual_memory` of `memory/paging.c`. A table is cloned by a
loop over its entries, which requests the child's table at the first valid entry: below an
entry that names a table it clones that table, and an entry that maps a page it marks for
copy-on-write, copies, and counts once more in the record of the page.
-/

namespace Rpos

open Base

/-! ## §1  The functions -/

def PageFrame.addRefs (k : ℕ) (f : PageFrame) : PageFrame :=
  if k = 0 then f else { f with refcount := (f.refcount + k) % 2 ^ 32 }

def countRef (pfn : ℕ) (m : Machine) : Option Machine :=
  if pfn < ramPages then some { m with buddy := m.buddy.modifyFrame pfn (PageFrame.addRefs 1) }
  else none

section Clone

variable (allocPt : Machine → Option (ℕ × Machine))

/-- `if(!child_table) child_table = buddy_alloc_pt();` -/
def ensureTable (childTable : ℕ) (m : Machine) : Option (ℕ × Machine) :=
  if childTable = 0 then allocPt m else some (childTable, m)

/-- The entry `i` names a table, which has been cloned to `newTable`. -/
def cloneTableEntry (parentTable i newTable childTable : ℕ) (m : Machine) :
    Option (ℕ × Machine) := do
  let (childTable, m) ← ensureTable allocPt childTable m
  let entry ← m.read parentTable i
  let m ← m.store (vaToPa childTable / pageSize) i entry
  let copy ← m.read (vaToPa childTable / pageSize) i
  let m ← m.store (vaToPa childTable / pageSize) i
    (Pte.address.set copy (vaToPa newTable / pageSize))
  some (childTable, m)

def cloneLeafEntry (parentTable i childTable : ℕ) (m : Machine) : Option (ℕ × Machine) := do
  let entry ← m.read parentTable i
  let m ← m.store parentTable i (Pte.cow.set entry 1)
  let entry ← m.read parentTable i
  let m ← m.store parentTable i (Pte.ap.set entry el0RoEl1Ro)
  let (childTable, m) ← ensureTable allocPt childTable m
  let entry ← m.read parentTable i
  let m ← m.store (vaToPa childTable / pageSize) i entry
  let m ← countRef (Pte.address.get entry) m
  some (childTable, m)

/-- One round of the loop of `clone_page_table`, with `below` levels below the table. -/
def cloneEntry (below : ℕ) (descend : ℕ → Machine → Option (ℕ × Machine)) (parentTable : ℕ)
    (s : ℕ × Machine) (i : ℕ) : Option (ℕ × Machine) := do
  let (childTable, m) := s
  let entry ← m.read parentTable i
  if Pte.valid.get entry ≠ 1 then some (childTable, m)
  else if 0 < below ∧ Pte.type.get entry = 1 then do
    let (newTable, m) ← descend (Pte.address.get entry) m
    cloneTableEntry allocPt parentTable i newTable childTable m
  else cloneLeafEntry allocPt parentTable i childTable m

/-- `clone_page_table`, by the number of levels below: 3 less `level`. -/
def clonePageTable : ℕ → ℕ → Machine → Option (ℕ × Machine)
  | 0, parentTable, m => (List.range tableSize).foldlM
      (cloneEntry allocPt 0 (fun _ _ => none) parentTable) (0, m)
  | below + 1, parentTable, m => (List.range tableSize).foldlM
      (cloneEntry allocPt (below + 1) (clonePageTable below) parentTable) (0, m)

/-- One round of the loop of `clone_virtual_memory`. -/
def cloneRootEntry (parentTable newL0Table : ℕ) (m : Machine) (i : ℕ) : Option Machine := do
  let entry ← m.read parentTable i
  if Pte.valid.get entry ≠ 1 then some m
  else do
    let m ← m.store (vaToPa newL0Table / pageSize) i entry
    let (newTable, m) ← clonePageTable allocPt 2 (Pte.address.get entry) m
    if newTable = 0 then some m
    else do
      let copy ← m.read (vaToPa newL0Table / pageSize) i
      m.store (vaToPa newL0Table / pageSize) i
        (Pte.address.set copy (vaToPa newTable / pageSize))

def cloneVirtualMemory (parentTable : ℕ) (m : Machine) : Option (ℕ × Machine) := do
  let (newL0Table, m) ← allocPt m
  let m ← (List.range tableSize).foldlM (cloneRootEntry allocPt parentTable newL0Table) m
  some (newL0Table, m)

end Clone

/-! ## §2  The words -/

def mark (w : Word) : Word := Pte.ap.set (Pte.cow.set w 1) el0RoEl1Ro

def Marked (h : ℕ) (w w' : Word) : Prop :=
  w' = if pageRadix.leaf h w = true then mark w else w

/-- What the child has in its place: a table descriptor of its own, or the marked entry. -/
structure CopyWord (h : ℕ) (w w' : Word) : Prop where
  valid : Pte.valid.get w' = Pte.valid.get w
  table : pageRadix.table h w' = pageRadix.table h w
  leaf : pageRadix.leaf h w' = pageRadix.leaf h w
  word : pageRadix.leaf h w = true → w' = mark w

/-- Invalid, or a table descriptor, or in L3 a page descriptor for a frame of `F`. -/
def TableOrFrame (F : Set ℕ) (h : ℕ) (w : Word) : Prop :=
  Pte.valid.get w = 1 → Pte.type.get w = 1 ∧
    (h = 0 → Pte.address.get w ∈ F ∧ Pte.address.get w < ramPages)

section Words

variable {h : ℕ} {w w' : Word}

theorem mark_get {f : BitField} (hap : f.Disjoint Pte.ap) (hcow : f.Disjoint Pte.cow)
    (w : Word) : f.get (mark w) = f.get w := by
  rw [mark, BitField.get_set_of_disjoint hap, BitField.get_set_of_disjoint hcow]

theorem mark_target (w : Word) : pageRadix.target (mark w) = pageRadix.target w :=
  mark_get (by decide) (by decide) w

theorem kind_congr (hv : Pte.valid.get w' = Pte.valid.get w)
    (ht : Pte.type.get w' = Pte.type.get w) (h : ℕ) :
    pageRadix.table h w' = pageRadix.table h w ∧ pageRadix.leaf h w' = pageRadix.leaf h w := by
  simp only [pageRadix, hv, ht, and_self]

theorem mark_kind (h : ℕ) (w : Word) : pageRadix.table h (mark w) = pageRadix.table h w ∧
    pageRadix.leaf h (mark w) = pageRadix.leaf h w :=
  kind_congr (mark_get (by decide) (by decide) w) (mark_get (by decide) (by decide) w) h

theorem leaf_of_table (hw : pageRadix.table h w = true) : pageRadix.leaf h w = false := by
  refine decide_eq_false fun hleaf => ?_
  obtain ⟨hpos, -, htype⟩ := of_decide_eq_true hw
  rw [if_neg (Nat.ne_of_gt hpos), htype] at hleaf
  exact absurd hleaf.2.2 (by decide)

theorem Marked.kind (hm : Marked h w w') : pageRadix.table h w' = pageRadix.table h w ∧
    pageRadix.leaf h w' = pageRadix.leaf h w := by
  rw [Marked] at hm
  split_ifs at hm
  · exact hm ▸ mark_kind h w
  · exact hm ▸ ⟨rfl, rfl⟩

theorem marked_table : ∀ h w w', Marked h w w' → pageRadix.table h w' = pageRadix.table h w :=
  fun _ _ _ hm => hm.kind.1

theorem marked_same (h : ℕ) (w w' : Word) (hm : Marked h w w')
    (hw : pageRadix.table h w = true) : w' = w := by
  rw [Marked, leaf_of_table hw] at hm
  exact hm

theorem marked_rewrites : Radix.Rewrites pageRadix mark Marked where
  table := marked_table
  leaf _ _ _ hm := hm.kind.2
  word _ _ _ hm hw := hm.trans (if_pos hw)

theorem marked_void (h : ℕ) (w : Word) (hw : pageRadix.Void w) : Marked h w w := by
  rw [Marked, (hw h).2]
  rfl

theorem copyWord_rewrites : Radix.Rewrites pageRadix mark CopyWord where
  table _ _ _ hc := hc.table
  leaf _ _ _ hc := hc.leaf
  word _ _ _ hc := hc.word

theorem valid_of_void (hw : pageRadix.Void w) : Pte.valid.get w = 0 := by
  have hvalid : Pte.valid.get w < 2 := BitField.get_lt Pte.valid w
  have htype : Pte.type.get w < 2 := BitField.get_lt Pte.type w
  obtain ⟨htable, hleaf⟩ := hw 1
  have hnot₁ := of_decide_eq_false htable
  have hnot₀ := of_decide_eq_false hleaf
  rw [if_neg Nat.one_ne_zero] at hnot₀
  omega

/-- The copy of a word that may stand in the parent may stand in the child. -/
theorem CopyWord.tableOrFrame {F : Set ℕ} (hc : CopyWord h w w') (hw : TableOrFrame F h w) :
    TableOrFrame F h w' := by
  intro hv
  have hv' : Pte.valid.get w = 1 := hc.valid ▸ hv
  obtain ⟨htype, hframe⟩ := hw hv'
  cases h with
  | zero =>
      rw [hc.word (page_leaf hv' htype)]
      have htype' : Pte.type.get (mark w) = 1 := by
        rw [mark_get (by decide) (by decide), htype]
      have haddress : Pte.address.get (mark w) = Pte.address.get w := mark_target w
      rw [haddress]
      exact ⟨htype', hframe⟩
  | succ h =>
      have htable := hc.table.trans (table_intro h hv' htype)
      exact ⟨(of_decide_eq_true htable).2.2, fun h => absurd h (Nat.succ_ne_zero _)⟩

theorem copyWord_void (h : ℕ) (w w' : Word) (hw : pageRadix.Void w) (hw' : pageRadix.Void w') :
    CopyWord h w w' := by
  refine ⟨?_, ?_, ?_, fun hleaf => ?_⟩
  · rw [valid_of_void hw, valid_of_void hw']
  · rw [(hw h).1, (hw' h).1]
  · rw [(hw h).2, (hw' h).2]
  · rw [(hw h).2] at hleaf
    exact absurd hleaf (by decide)

end Words

/-! ## §3  The requests -/

def markEntry (p i : ℕ) (m : Machine) : Machine :=
  (m.write p i (Pte.cow.set (m.ram p i) 1)).write p i (mark (m.ram p i))

section Requests

variable (allocPt : Machine → Option (ℕ × Machine)) (Q : Machine → Prop)

/-- `Q` holds wherever a round of the loop of `clone_page_table` requests a page, and
`requests` of the table that the entry names. -/
def EntryRequests (below : ℕ) (descend : ℕ → Machine → Option (ℕ × Machine))
    (requests : ℕ → Machine → Prop) (parentTable : ℕ) (s : ℕ × Machine) (i : ℕ) : Prop :=
  Pte.valid.get (s.2.ram parentTable i) = 1 →
    if 0 < below ∧ Pte.type.get (s.2.ram parentTable i) = 1 then
      requests (Pte.address.get (s.2.ram parentTable i)) s.2 ∧
        ∀ newTable m', descend (Pte.address.get (s.2.ram parentTable i)) s.2 =
          some (newTable, m') → s.1 = 0 → Q m'
    else s.1 = 0 → Q (markEntry parentTable i s.2)

/-- `Q` holds wherever `clone_page_table` requests a page. -/
def PageTableRequests : ℕ → ℕ → Machine → Prop
  | 0, parentTable, m => BeforeRounds (cloneEntry allocPt 0 (fun _ _ => none) parentTable)
      (EntryRequests Q 0 (fun _ _ => none) (fun _ _ => True) parentTable) tableSize (0, m)
  | below + 1, parentTable, m =>
      BeforeRounds (cloneEntry allocPt (below + 1) (clonePageTable allocPt below) parentTable)
        (EntryRequests Q (below + 1) (clonePageTable allocPt below) (PageTableRequests below)
          parentTable) tableSize (0, m)

/-- `Q` holds wherever a round of the loop of `clone_virtual_memory` requests a page. -/
def RootRequests (parentTable newL0Table : ℕ) (m : Machine) (i : ℕ) : Prop :=
  Pte.valid.get (m.ram parentTable i) = 1 →
    PageTableRequests allocPt Q 2 (Pte.address.get (m.ram parentTable i))
      (m.write (vaToPa newL0Table / pageSize) i (m.ram parentTable i))

/-- `Q` holds wherever `clone_virtual_memory` requests a page. -/
def CloneRequests (parentTable : ℕ) (m : Machine) : Prop :=
  Q m ∧ ∀ newL0Table m', allocPt m = some (newL0Table, m') →
    BeforeRounds (cloneRootEntry allocPt parentTable newL0Table)
      (RootRequests allocPt Q parentTable newL0Table) tableSize m'

end Requests

section RequestRules

variable {allocPt : Machine → Option (ℕ × Machine)} {Q Q' Q'' : Machine → Prop}
  {parentTable i h : ℕ} {m : Machine} {s : ℕ × Machine}
  {clone : ℕ → Machine → Option (ℕ × Machine)} {R R' R'' : ℕ → Machine → Prop}

theorem EntryRequests.imp₂ (hQ : ∀ n, Q n → Q' n → Q'' n) (hR : ∀ t n, R t n → R' t n → R'' t n)
    (hr : EntryRequests Q h clone R parentTable s i)
    (hr' : EntryRequests Q' h clone R' parentTable s i) :
    EntryRequests Q'' h clone R'' parentTable s i := by
  intro hv
  have hr := hr hv
  have hr' := hr' hv
  split_ifs at hr hr' ⊢
  · exact ⟨hR _ _ hr.1 hr'.1, fun t m' hrun hnull =>
      hQ m' (hr.2 t m' hrun hnull) (hr'.2 t m' hrun hnull)⟩
  · exact fun hnull => hQ _ (hr hnull) (hr' hnull)

theorem PageTableRequests.imp₂ (hQ : ∀ n, Q n → Q' n → Q'' n) (h : ℕ) :
    ∀ (t : ℕ) (m : Machine), PageTableRequests allocPt Q h t m →
      PageTableRequests allocPt Q' h t m → PageTableRequests allocPt Q'' h t m := by
  induction h with
  | zero =>
      intro t m hr hr'
      exact BeforeRounds.imp₂ hr hr' fun s i => EntryRequests.imp₂ hQ fun _ _ _ _ => trivial
  | succ h ih =>
      intro t m hr hr'
      exact BeforeRounds.imp₂ hr hr' fun s i => EntryRequests.imp₂ hQ ih

/-- Two properties of the requests of a clone give a third. -/
theorem CloneRequests.imp₂ (hQ : ∀ n, Q n → Q' n → Q'' n)
    (hr : CloneRequests allocPt Q parentTable m) (hr' : CloneRequests allocPt Q' parentTable m) :
    CloneRequests allocPt Q'' parentTable m := by
  refine ⟨hQ m hr.1 hr'.1, fun t m' halloc => ?_⟩
  exact (hr.2 t m' halloc).imp₂ (hr'.2 t m' halloc) fun n i hround hround' hv =>
    PageTableRequests.imp₂ hQ 2 _ _ (hround hv) (hround' hv)

theorem CloneRequests.imp (hQ : ∀ n, Q n → Q' n) (hr : CloneRequests allocPt Q parentTable m) :
    CloneRequests allocPt Q' parentTable m :=
  hr.imp₂ (fun n hn _ => hQ n hn) hr

end RequestRules

/-! ## §4  What the clone works on -/

/-- A tree that can be cloned: its tables are distinct pages of `S`, each has a valid
entry, and it maps frames of `F`. -/
structure Cloneable (F S : Set ℕ) (h p : ℕ) (ram : ℕ → ℕ → Word) : Prop where
  distinct : pageRadix.Distinct ram h p
  every : pageRadix.Every (TableOrFrame F) ram h p
  filled : pageRadix.Filled (fun w => Pte.valid.get w = 1) ram h p
  owned : ∀ q, 0 < pageRadix.tables ram h p q → q ∈ S ∧ q < ramPages

def newPages (S S' : Set ℕ) : Set ℕ := {q | q ∈ S' ∧ q ∉ S ∧ q < ramPages}

/-- The page `a` is blank and new; the pages of `S` and the records of `F` are kept. -/
structure FreshPage (F S : Set ℕ) (a : ℕ) (m m' : Machine) : Prop where
  lt : a < ramPages
  new : a ∉ S ∧ a ∉ F
  blank : ∀ i, m'.ram a i = 0
  keep : ∀ q ∈ S, m'.ram q = m.ram q
  frames : ∀ q ∈ F, m'.buddy.frameMetadata q = m.buddy.frameMetadata q

/-- Table pages are supplied: where `I n S m` holds, `n` requests in a row are granted fresh
pages, if they are made where `Q` holds, whatever valid words are stored to the pages of `S`
and to those granted, and however often the frames of `F` are counted. -/
structure TableSupply (allocPt : Machine → Option (ℕ × Machine)) (Q : Machine → Prop)
    (F : Set ℕ) (I : ℕ → Set ℕ → Machine → Prop) : Prop where
  grant : ∀ n S m, I (n + 1) S m → Q m → ∃ a m', allocPt m = some (pageAddr a, m') ∧
    FreshPage F S a m m' ∧ I n (insert a S) m'
  write : ∀ n S m t j w, I n S m → t ∈ S → Pte.valid.get w = 1 → I n S (m.write t j w)
  count : ∀ n S m m' f, I n S m → f ∈ F → countRef f m = some m' → I n S m'

def Assures (I : ℕ → Set ℕ → Machine → Prop) (Q : Machine → Prop) : Prop :=
  ∀ n S m, I (n + 1) S m → Q m

section Tree

variable {F S S' : Set ℕ} {h p i : ℕ} {ram ram' : ℕ → ℕ → Word}

theorem Cloneable.congr (ht : Cloneable F S h p ram)
    (hkeep : ∀ q, 0 < pageRadix.tables ram h p q → ram' q = ram q) (hS : S ⊆ S') :
    Cloneable F S' h p ram' := by
  obtain ⟨hself, hunder⟩ := Radix.keep_words hkeep
  refine ⟨fun q => ?_, Radix.every_congr hkeep ht.every, ⟨?_, fun i hi => ?_⟩, fun q hq => ?_⟩
  · rw [Radix.tables_congr q hkeep]
    exact ht.distinct q
  · rw [hself]
    exact ht.filled.1
  · rw [hself]
    exact (ht.filled.2 i hi).congr (hunder i hi)
  · rw [Radix.tables_congr q hkeep] at hq
    exact ⟨hS (ht.owned q hq).1, (ht.owned q hq).2⟩

theorem Cloneable.child (ht : Cloneable F S (h + 1) p ram) (hi : i < tableSize)
    (hw : pageRadix.table (h + 1) (ram p i) = true) :
    Cloneable F S h (pageRadix.target (ram p i)) ram := by
  refine ⟨ht.distinct.child hi hw, (Radix.everyUnder_table hw).mp (ht.every i hi).2,
    (ht.filled.2 i hi).table hw, fun q hq => ht.owned q ?_⟩
  rw [← Radix.tablesUnder_table hw] at hq
  exact Nat.lt_of_lt_of_le hq (Radix.tablesUnder_le hi)

theorem Cloneable.sub (ht : Cloneable F S h p ram) :
    ∀ q, 0 < pageRadix.tables ram h p q → q ∈ S :=
  fun q hq => (ht.owned q hq).1

theorem Cloneable.root (ht : Cloneable F S h p ram) : p ∈ S ∧ p < ramPages :=
  ht.owned p Radix.tables_self

theorem newPages_self (S : Set ℕ) : newPages S S = ∅ :=
  Set.eq_empty_of_forall_notMem fun _ hq => hq.2.1 hq.1

theorem newPages_insert {a : ℕ} (ha : a ∉ S) (hlt : a < ramPages) :
    newPages S (insert a S) = {a} := by
  ext q
  constructor
  · exact fun hq => hq.1.resolve_right hq.2.1
  · rintro rfl
    exact ⟨Set.mem_insert q S, ha, hlt⟩

/-- The pages added in three steps, those of the second step last. -/
theorem newPages_union {S₁ S₂ : Set ℕ} (hS : S ⊆ S') (hS₁ : S' ⊆ S₁) (hS₂ : S₁ ⊆ S₂) :
    newPages S S' ∪ newPages S₁ S₂ ∪ newPages S' S₁ = newPages S S₂ := by
  ext q
  have h := @hS q
  have h₁ := @hS₁ q
  have h₂ := @hS₂ q
  simp only [newPages, Set.mem_union, Set.mem_ofPred_eq]
  tauto

end Tree

/-! ## §5  The child's table -/

/-- The child's table after `i` entries, as the pointer and the number of pages it still
takes: none has been needed, or `c` holds the copies. -/
inductive ChildTable (S S' : Set ℕ) (h p i : ℕ) (ram ram' : ℕ → ℕ → Word) : ℕ → ℕ → Prop
  | null : S' = S → (∀ j < i, Pte.valid.get (ram p j) ≠ 1) → ChildTable S S' h p i ram ram' 0 1
  | table (c : ℕ) : pageRadix.CopyInto CopyWord (newPages S S') h p c i ram ram' →
      ChildTable S S' h p i ram ram' (pageAddr c) 0

section Child

variable {allocPt : Machine → Option (ℕ × Machine)} {Q : Machine → Prop} {F S S₀ S₁ : Set ℕ}
  {I : ℕ → Set ℕ → Machine → Prop} {h p i n k childTable : ℕ} {ram : ℕ → ℕ → Word}
  {m₀ m₁ : Machine}

theorem ChildTable.skip {ram₀ : ℕ → ℕ → Word}
    (hc : ChildTable S S₀ h p i ram ram₀ childTable k) (hi : i < tableSize)
    (hw : Pte.valid.get (ram p i) ≠ 1) : ChildTable S S₀ h p (i + 1) ram ram₀ childTable k := by
  cases hc with
  | null hS hnone =>
      refine .null hS fun j hj => ?_
      rcases Nat.lt_succ_iff_lt_or_eq.mp hj with hlt | rfl
      · exact hnone j hlt
      · exact hw
  | table c hcopy => exact .table c (hcopy.skip copyWord_void hi (void_of_invalid hw))

theorem ensureTable_spec (hs : TableSupply allocPt Q F I) (hi : i ≤ tableSize)
    (hc : ChildTable S S₀ h p i ram m₀.ram childTable k)
    (hkeep : ∀ q ∈ S₀, q ∉ S → m₁.ram q = m₀.ram q) (hm₁ : I (n + k) S₁ m₁)
    (hreq : Assures I Q ∨ (childTable = 0 → Q m₁)) :
    (childTable = 0 → Q m₁) ∧ ∃ c m₂ S₂,
      ensureTable allocPt childTable m₁ = some (pageAddr c, m₂) ∧ S₁ ⊆ S₂ ∧
      (∀ q ∈ S₁, m₂.ram q = m₁.ram q) ∧
      (∀ q ∈ F, m₂.buddy.frameMetadata q = m₁.buddy.frameMetadata q) ∧ I n S₂ m₂ ∧
      pageRadix.CopyInto CopyWord (newPages S S₀ ∪ newPages S₁ S₂) h p c i ram m₂.ram := by
  cases hc with
  | null hS hnone =>
      subst hS
      have hQ : Q m₁ := hreq.elim (fun h => h n S₁ m₁ hm₁) fun h => h rfl
      obtain ⟨a, m₂, hrun, hfresh, hm₂⟩ := hs.grant n S₁ m₁ hm₁ hQ
      refine ⟨fun _ => hQ, a, m₂, insert a S₁, ?_, Set.subset_insert a S₁, hfresh.keep,
        hfresh.frames, hm₂, ?_⟩
      · rw [ensureTable, if_pos rfl, hrun]
      · rw [newPages_self, newPages_insert hfresh.new.1 hfresh.lt, Set.empty_union]
        refine .start copyWord_void hi (fun j hj => void_of_invalid (hnone j hj)) fun j _ => ?_
        rw [hfresh.blank j]
        exact void_of_invalid (by decide)
  | table c hcopy =>
      have hnew : ∀ q, 0 < pageRadix.tables m₀.ram h c q → q ∈ newPages S S₀ :=
        fun q => (hcopy.new q).mp
      have hcopy₁ := hcopy.congr copyWord_rewrites.table hi fun q hq =>
        hkeep q (hnew q hq).1 (hnew q hq).2.1
      have hne := pageAddr_ne_zero (hnew c Radix.tables_self).2.2
      refine ⟨fun h => absurd h hne, c, m₁, S₁, ?_, subset_rfl, fun _ _ => rfl, fun _ _ => rfl,
        hm₁, ?_⟩
      · rw [ensureTable, if_neg hne]
      · rw [newPages_self, Set.union_empty]
        exact hcopy₁

theorem copy_mem {S₂ : Set ℕ} {c : ℕ} {ram' : ℕ → ℕ → Word} (hS : S₀ ⊆ S₂)
    (hcopy : pageRadix.CopyInto CopyWord (newPages S S₀ ∪ newPages S₁ S₂) h p c i ram ram') :
    c ∈ S₂ ∧ c < ramPages := by
  rcases (hcopy.new c).mp Radix.tables_self with h₀ | h₂
  · exact ⟨hS h₀.1, h₀.2.2⟩
  · exact ⟨h₂.1, h₂.2.2⟩

end Child

/-! ## §6  One entry -/

/-- The table `p` of height `h` has been cloned to `c`: its leaves are marked, `c` holds the
copies in new pages, and the records count the leaves. -/
structure Cloned (F S S' : Set ℕ) (h p c : ℕ) (m m' : Machine) : Prop where
  grown : S ⊆ S'
  parent : pageRadix.Rel Marked m.ram m'.ram h p p
  keep : ∀ q ∈ S, pageRadix.tables m.ram h p q = 0 → m'.ram q = m.ram q
  child : pageRadix.Rel CopyWord m.ram m'.ram h p c
  distinct : pageRadix.Distinct m'.ram h c
  new : ∀ q, 0 < pageRadix.tables m'.ram h c q ↔ q ∈ newPages S S'
  frames : ∀ q ∈ F, m'.buddy.frameMetadata q =
    (m.buddy.frameMetadata q).addRefs (pageRadix.leaves m.ram h p q)

/-- The parent's side of the loop before the entry `i`. -/
structure CloneState (F S S' : Set ℕ) (h p i : ℕ) (m m' : Machine) : Prop where
  grown : S ⊆ S'
  parent : pageRadix.Rewriting Marked S h p i m.ram m'.ram
  frames : ∀ q ∈ F, m'.buddy.frameMetadata q = (m.buddy.frameMetadata q).addRefs
    (∑ j ∈ Finset.range i, pageRadix.leavesUnder m.ram h (m.ram p j) q)

section Entry

variable {F S S₀ S₁ S₂ : Set ℕ}
  {h p c d i : ℕ} {w : Word} {ram : ℕ → ℕ → Word} {m m₀ m₁ m₃ : Machine}

theorem addRefs_zero (f : PageFrame) : f.addRefs 0 = f := if_pos rfl

theorem addRefs_add (a b : ℕ) (f : PageFrame) :
    (f.addRefs a).addRefs b = f.addRefs (a + b) := by
  by_cases ha : a = 0
  · rw [ha, addRefs_zero, Nat.zero_add]
  by_cases hb : b = 0
  · rw [hb, addRefs_zero, Nat.add_zero]
  rw [PageFrame.addRefs, if_neg hb, PageFrame.addRefs, if_neg ha, PageFrame.addRefs,
    if_neg (by omega)]
  simp only [Nat.mod_add_mod, Nat.add_assoc]

theorem countRef_spec {f : ℕ} (m : Machine) (hf : f < ramPages) :
    ∃ m', countRef f m = some m' ∧ m'.ram = m.ram ∧ ∀ q,
      m'.buddy.frameMetadata q = (m.buddy.frameMetadata q).addRefs (if q = f then 1 else 0) := by
  refine ⟨_, if_pos hf, rfl, fun q => ?_⟩
  show (m.buddy.modifyFrame f _).frameMetadata q = _
  rw [Buddy.modifyFrame_apply]
  by_cases hq : q = f
  · rw [if_pos hq, if_pos hq, hq]
  · rw [if_neg hq, if_neg hq, addRefs_zero]

theorem Machine.write_self (m : Machine) (p i : ℕ) (w : Word) : (m.write p i w).ram p i = w := by
  rw [Machine.write_ram, if_pos ⟨rfl, rfl⟩]

theorem Machine.write_write (m : Machine) (p i : ℕ) (w w' : Word) :
    ((m.write p i w).write p i w').ram = Radix.setWord m.ram p i w' := by
  funext q j
  rw [write_ram, write_ram, Radix.setWord, Function.update_apply]
  by_cases hq : q = p
  · subst hq
    rw [if_pos rfl, Function.update_apply]
    by_cases hj : j = i
    · rw [if_pos ⟨rfl, hj⟩, if_pos hj]
    · rw [if_neg fun h => hj h.2, if_neg fun h => hj h.2, if_neg hj]
  · rw [if_neg fun h => hq h.1, if_neg fun h => hq h.1, if_neg hq]

/-- An entry that names a table, once that table has been cloned. -/
theorem copyEntry_table (hword : m₀.ram p i = w) (hw : pageRadix.table (h + 1) w = true)
    (hc : Cloned F S₀ S₁ h (pageRadix.target w) d m₀ m₁) (hS : S ⊆ S₀) (hp : p ∈ S₀)
    (hnot : pageRadix.tables m₀.ram h (pageRadix.target w) p = 0) (hd : d < ramPages) :
    pageRadix.CopyEntry Marked CopyWord S (newPages S₀ S₁) (h + 1) p i m₀.ram m₁.ram
      (Pte.address.set w d) := by
  subst hword
  have hself : m₁.ram p = m₀.ram p := hc.keep p hp hnot
  have hkind : pageRadix.table (h + 1) (Pte.address.set (m₀.ram p i) d) =
        pageRadix.table (h + 1) (m₀.ram p i) ∧
      pageRadix.leaf (h + 1) (Pte.address.set (m₀.ram p i) d) =
        pageRadix.leaf (h + 1) (m₀.ram p i) :=
    kind_congr (BitField.get_set_of_disjoint (by decide) _ _)
      (BitField.get_set_of_disjoint (by decide) _ _) _
  have htarget : pageRadix.target (Pte.address.set (m₀.ram p i) d) = d :=
    address_get_set _ (Nat.lt_of_lt_of_le hd (by decide))
  have hw' := hkind.1.trans hw
  refine ⟨?_, fun j _ _ => by rw [hself], fun q hq _ hnone => ?_, ?_, fun q => ?_, fun q => ?_⟩
  · rw [hself]
    refine Radix.relUnder_table ?_ hc.parent
    rw [Marked, leaf_of_table hw]
    rfl
  · rw [Radix.tablesUnder_table hw] at hnone
    exact hc.keep q (hS hq) hnone
  · have hvalid : Pte.valid.get (Pte.address.set (m₀.ram p i) d) = Pte.valid.get (m₀.ram p i) :=
      BitField.get_set_of_disjoint (by decide) _ _
    refine Radix.relUnder_table ⟨hvalid, hkind.1, hkind.2, fun hleaf => ?_⟩ ?_
    · rw [leaf_of_table hw] at hleaf
      exact absurd hleaf (by decide)
    · rw [htarget]
      exact hc.child
  · rw [Radix.tablesUnder_table hw', htarget]
    exact hc.distinct q
  · rw [Radix.tablesUnder_table hw', htarget]
    exact hc.new q

theorem copyEntry_leaf (hword : m₀.ram p i = w) (hw : pageRadix.leaf h w = true)
    (hnot : pageRadix.table h w = false) (hram : m₁.ram = Radix.setWord m₀.ram p i (mark w)) :
    pageRadix.CopyEntry Marked CopyWord S (newPages S₀ S₀) h p i m₀.ram m₁.ram (mark w) := by
  subst hword
  have hkind := mark_kind h (m₀.ram p i)
  have hnot' := hkind.1.trans hnot
  refine ⟨?_, fun j _ hne => ?_, fun q _ hne _ => ?_, ?_, fun q => ?_, fun q => ?_⟩
  · rw [hram, Radix.setWord_self]
    refine Radix.relUnder_none ?_ hnot
    rw [Marked, if_pos hw]
  · rw [hram, Radix.setWord_slot _ _ hne]
  · rw [hram, Radix.setWord_page _ _ hne]
  · have hvalid : Pte.valid.get (mark (m₀.ram p i)) = Pte.valid.get (m₀.ram p i) :=
      mark_get (by decide) (by decide) _
    exact Radix.relUnder_none ⟨hvalid, hkind.1, hkind.2, fun _ => rfl⟩ hnot
  · rw [Radix.tablesUnder_none hnot']
    decide
  · rw [Radix.tablesUnder_none hnot', newPages_self]
    exact iff_of_false (Nat.lt_irrefl 0) (Set.notMem_empty q)

theorem CloneState.skip (ht : Cloneable F S h p m.ram) (hi : i < tableSize)
    (hst : CloneState F S S₀ h p i m m₀) (hv : Pte.valid.get (m.ram p i) ≠ 1) :
    CloneState F S S₀ h p (i + 1) m m₀ := by
  have hvoid := void_of_invalid hv
  refine ⟨hst.grown, ?_, fun q hq => ?_⟩
  · refine hst.parent.skip marked_table marked_same marked_void ht.distinct ht.sub hi ?_
    rw [(hst.parent.rest i hi (Nat.le_refl i)).1]
    exact hvoid
  · rw [hst.frames q hq, Finset.sum_range_succ, Radix.leavesUnder_none (hvoid h).2 (hvoid h).1,
      Nat.add_zero]

/-- The entry `i` has been cloned, and its copy stored in the child's table `c`; `ram` holds
the copy so far. -/
theorem CloneState.enter (ht : Cloneable F S h p m.ram) (hi : i < tableSize)
    (hst : CloneState F S S₀ h p i m m₀) (hS₁ : S₀ ⊆ S₁) (hS₂ : S₁ ⊆ S₂)
    (he : pageRadix.CopyEntry Marked CopyWord S (newPages S₀ S₁) h p i m₀.ram m₁.ram
      (m₃.ram c i))
    (hcopy : pageRadix.CopyInto CopyWord (newPages S S₀ ∪ newPages S₁ S₂) h p c i m.ram ram)
    (hkeep : ∀ q ∈ S₁, q ≠ c → m₃.ram q = m₁.ram q)
    (hslots : ∀ j < tableSize, j ≠ i → m₃.ram c j = ram c j)
    (hcopied : ∀ q, q ≠ c → 0 < pageRadix.tables ram h c q → m₃.ram q = ram q)
    (hframes : ∀ q ∈ F, m₃.buddy.frameMetadata q = (m₀.buddy.frameMetadata q).addRefs
      (pageRadix.leavesUnder m.ram h (m.ram p i) q)) :
    CloneState F S S₂ h p (i + 1) m m₃ ∧
      pageRadix.CopyInto CopyWord (newPages S S₂) h p c (i + 1) m.ram m₃.ram := by
  have hSS : S ⊆ S₁ := hst.grown.trans hS₁
  -- the tables of the copy so far are no pages of `S`, and not below the new entry
  have hnew : ∀ q, 0 < pageRadix.tables ram h c q → q ∉ S ∧ q ∉ newPages S₀ S₁ := by
    intro q hq
    rcases (hcopy.new q).mp hq with h₀ | h₂
    · exact ⟨h₀.2.1, fun h => h.2.1 h₀.1⟩
    · exact ⟨fun h => h₂.2.1 (hSS h), fun h => h₂.2.1 h.1⟩
  have hkept : ∀ q ∈ S, m₃.ram q = m₁.ram q :=
    fun q hq => hkeep q (hSS hq) fun h => (hnew c Radix.tables_self).1 (h ▸ hq)
  have hbelow : ∀ q ∈ newPages S₀ S₁, m₃.ram q = m₁.ram q ∧ pageRadix.tables ram h c q = 0 := by
    intro q hq
    refine ⟨hkeep q hq.1 ?_, ?_⟩
    · rintro rfl
      exact (hnew q Radix.tables_self).2 hq
    · by_contra hne
      exact (hnew q (Nat.pos_of_ne_zero hne)).2 hq
  obtain ⟨hparent, hchild⟩ := he.step marked_table marked_same copyWord_rewrites.table
    ht.distinct ht.sub hst.parent hcopy hi hkept hbelow hslots hcopied
  rw [newPages_union hst.grown hS₁ hS₂] at hchild
  refine ⟨⟨hSS.trans hS₂, hparent, fun q hq => ?_⟩, hchild⟩
  rw [hframes q hq, hst.frames q hq, addRefs_add, Finset.sum_range_succ]

/-- A round keeps the state where the copy is stored over the memory of the copy so far. -/
theorem CloneState.store (ht : Cloneable F S h p m.ram) (hi : i < tableSize)
    (hst : CloneState F S S₀ h p i m m₀) (hS₁ : S₀ ⊆ S₁) (hS₂ : S₁ ⊆ S₂)
    (he : pageRadix.CopyEntry Marked CopyWord S (newPages S₀ S₁) h p i m₀.ram m₁.ram w)
    (hcopy : pageRadix.CopyInto CopyWord (newPages S S₀ ∪ newPages S₁ S₂) h p c i m.ram ram)
    (hkeep : ∀ q ∈ S₁, ram q = m₁.ram q) (hram : m₃.ram = Radix.setWord ram c i w)
    (hframes : ∀ q ∈ F, m₃.buddy.frameMetadata q = (m₀.buddy.frameMetadata q).addRefs
      (pageRadix.leavesUnder m.ram h (m.ram p i) q)) :
    CloneState F S S₂ h p (i + 1) m m₃ ∧
      pageRadix.CopyInto CopyWord (newPages S S₂) h p c (i + 1) m.ram m₃.ram := by
  have hself : m₃.ram c i = w := by rw [hram, Radix.setWord_self]
  rw [← hself] at he
  refine hst.enter ht hi hS₁ hS₂ he hcopy (fun q hq hne => ?_) (fun j _ hne => ?_)
    (fun q hne _ => ?_) hframes
  · rw [hram, Radix.setWord_page _ _ hne, hkeep q hq]
  · rw [hram, Radix.setWord_slot _ _ hne]
  · rw [hram, Radix.setWord_page _ _ hne]

end Entry

/-! ## §7  The loop -/

/-- The pages that the copies of the tables below the entries from `i` on take. -/
def remaining (ram : ℕ → ℕ → Word) (h p i : ℕ) : ℕ :=
  ∑ j ∈ Finset.Ico i tableSize, pageRadix.sizeUnder ram h (ram p j)

/-- The invariant of the loop: what has been done, and that pages remain for the rest. -/
def Cloning (F : Set ℕ) (I : ℕ → Set ℕ → Machine → Prop) (S : Set ℕ) (n h p : ℕ) (m : Machine)
    (i : ℕ) (s : ℕ × Machine) : Prop :=
  ∃ S' k, CloneState F S S' h p i m s.2 ∧ ChildTable S S' h p i m.ram s.2.ram s.1 k ∧
    I (n + remaining m.ram h p i + k) S' s.2

/-- `clone` clones every table of height `h`, at the cost of one page for each table; and `Q`
holds where it requests one, if that is known or assured. -/
def ClonesTables (F : Set ℕ) (I : ℕ → Set ℕ → Machine → Prop) (Q : Machine → Prop) (h : ℕ)
    (clone : ℕ → Machine → Option (ℕ × Machine)) (requests : ℕ → Machine → Prop) : Prop :=
  ∀ n S p m, Cloneable F S h p m.ram → I (n + pageRadix.size m.ram h p) S m →
    Assures I Q ∨ requests p m → requests p m ∧
      ∃ c m' S', clone p m = some (pageAddr c, m') ∧ Cloned F S S' h p c m m' ∧ I n S' m'

section Loop

variable {allocPt : Machine → Option (ℕ × Machine)} {Q : Machine → Prop} {F S S₀ : Set ℕ}
  {I : ℕ → Set ℕ → Machine → Prop} {h e p c d i n k childTable : ℕ} {s : ℕ × Machine}
  {m m₁ m₂ : Machine} {clone : ℕ → Machine → Option (ℕ × Machine)}
  {requests : ℕ → Machine → Prop}

theorem remaining_succ (ram : ℕ → ℕ → Word) (h p : ℕ) (hi : i < tableSize) :
    remaining ram h p i = pageRadix.sizeUnder ram h (ram p i) + remaining ram h p (i + 1) :=
  Finset.sum_eq_sum_Ico_succ_bot hi _

theorem size_eq_remaining (ram : ℕ → ℕ → Word) (h p : ℕ) :
    pageRadix.size ram h p = remaining ram h p 0 + 1 := by
  rw [Radix.size, remaining, Finset.range_eq_Ico, Nat.add_comm]
  rfl

theorem remaining_table {ram ram' : ℕ → ℕ → Word} (hi : i < tableSize)
    (hw : pageRadix.table (e + 1) (ram p i) = true)
    (hkeep : ∀ q, 0 < pageRadix.tables ram e (pageRadix.target (ram p i)) q → ram' q = ram q) :
    remaining ram (e + 1) p i = pageRadix.size ram' e (pageRadix.target (ram p i)) +
      remaining ram (e + 1) p (i + 1) := by
  have hunder : ∀ q, 0 < pageRadix.tablesUnder ram (e + 1) (ram p i) q → ram' q = ram q := by
    intro q hq
    rw [Radix.tablesUnder_table hw] at hq
    exact hkeep q hq
  rw [remaining_succ _ _ _ hi, ← Radix.sizeUnder_congr hunder, Radix.sizeUnder_table hw]

theorem cloneTableEntry_run (hens : ensureTable allocPt childTable m₁ = some (pageAddr c, m₂))
    (hp : p < ramPages) (hc : c < ramPages) (hd : d < ramPages) :
    cloneTableEntry allocPt p i (pageAddr d) childTable m₁ = some (pageAddr c,
      (m₂.write c i (m₂.ram p i)).write c i (Pte.address.set (m₂.ram p i) d)) := by
  unfold cloneTableEntry
  rw [hens, vaToPa_pageAddr hd]
  dsimp only [Option.bind_eq_bind, Option.bind_some]
  rw [vaToPa_pageAddr hc, Machine.read_eq i hp, Option.bind_some, Machine.store_eq _ _ hc,
    Option.bind_some, Machine.read_eq i hc, Option.bind_some, Machine.store_eq _ _ hc,
    Machine.write_self]
  rfl

theorem cloneLeafEntry_run (hp : p < ramPages)
    (hens : ensureTable allocPt childTable (markEntry p i m) = some (pageAddr c, m₂))
    (hc : c < ramPages) :
    cloneLeafEntry allocPt p i childTable m =
      (countRef (Pte.address.get (m₂.ram p i)) (m₂.write c i (m₂.ram p i))).map
        fun m₃ => (pageAddr c, m₃) := by
  unfold cloneLeafEntry
  simp only [Option.bind_eq_bind]
  rw [Machine.read_eq i hp, Option.bind_some, Machine.store_eq _ _ hp, Option.bind_some,
    Machine.read_eq i hp, Option.bind_some, Machine.store_eq _ _ hp, Option.bind_some,
    Machine.write_self]
  show (ensureTable allocPt childTable (markEntry p i m)).bind _ = _
  rw [hens, Option.bind_some]
  dsimp only
  rw [Machine.read_eq i hp, Option.bind_some, vaToPa_pageAddr hc, Machine.store_eq _ _ hc,
    Option.bind_some, Option.map_eq_bind]
  rfl

theorem cloneTableEntry_spec (hs : TableSupply allocPt Q F I)
    (ht : Cloneable F S (e + 1) p m.ram) (hi : i < tableSize)
    (hclone : ClonesTables F I Q e clone requests) (hst : CloneState F S S₀ (e + 1) p i m s.2)
    (hchild : ChildTable S S₀ (e + 1) p i m.ram s.2.ram s.1 k)
    (hm : I (n + remaining m.ram (e + 1) p i + k) S₀ s.2)
    (hw : pageRadix.table (e + 1) (m.ram p i) = true)
    (hreq : Assures I Q ∨ requests (pageRadix.target (m.ram p i)) s.2 ∧
      ∀ t m', clone (pageRadix.target (m.ram p i)) s.2 = some (t, m') → s.1 = 0 → Q m') :
    requests (pageRadix.target (m.ram p i)) s.2 ∧
      ∃ d m₁, clone (pageRadix.target (m.ram p i)) s.2 = some (d, m₁) ∧ (s.1 = 0 → Q m₁) ∧
        ∃ r, cloneTableEntry allocPt p i d s.1 m₁ = some r ∧
          Cloning F I S n (e + 1) p m (i + 1) r := by
  obtain ⟨hword, hkeep⟩ := hst.parent.rest i hi (Nat.le_refl i)
  have hp := ht.root
  have hbelow := ht.child hi hw
  have hunder : ∀ q, 0 < pageRadix.tables m.ram e (pageRadix.target (m.ram p i)) q →
      s.2.ram q = m.ram q := by
    intro q hq
    rw [← Radix.tablesUnder_table hw] at hq
    exact hkeep q hq
  have hsize : n + remaining m.ram (e + 1) p i + k = n + remaining m.ram (e + 1) p (i + 1) + k +
      pageRadix.size s.2.ram e (pageRadix.target (m.ram p i)) := by
    have htable := remaining_table hi hw hunder
    omega
  rw [hsize] at hm
  obtain ⟨hbelowReq, d, m₁, S₁, hrun, hcl, hm₁⟩ :=
    hclone _ S₀ _ s.2 (hbelow.congr hunder hst.grown) hm (hreq.imp_right And.left)
  have hd : d < ramPages := ((hcl.new d).mp Radix.tables_self).2.2
  have hnot : pageRadix.tables s.2.ram e (pageRadix.target (m.ram p i)) p = 0 := by
    rw [Radix.tables_congr p hunder, ← Radix.tablesUnder_table hw]
    exact ht.distinct.root hi
  have hkeep₁ : ∀ q ∈ S₀, q ∉ S → m₁.ram q = s.2.ram q := by
    intro q hq hqS
    refine hcl.keep q hq ?_
    rw [Radix.tables_congr q hunder]
    by_contra hne
    exact hqS (hbelow.sub q (Nat.pos_of_ne_zero hne))
  obtain ⟨hens₁, c, m₂, S₂, hens, hS₂, hkeep₂, hframes₂, hm₂, hcopy⟩ :=
    ensureTable_spec hs hi.le hchild hkeep₁ hm₁ (hreq.imp_right fun h => h.2 _ m₁ hrun)
  have hc := copy_mem (hcl.grown.trans hS₂) hcopy
  have hself : m₂.ram p i = m.ram p i := by
    rw [hkeep₂ p (hcl.grown (hst.grown hp.1)), hcl.keep p (hst.grown hp.1) hnot, hword]
  have he := copyEntry_table hword hw hcl hst.grown (hst.grown hp.1) hnot hd
  have hv : Pte.valid.get (m₂.ram p i) = 1 := hself ▸ (of_decide_eq_true hw).2.1
  have hv' : Pte.valid.get (Pte.address.set (m₂.ram p i) d) = 1 := by
    rw [BitField.get_set_of_disjoint (by decide), hv]
  rw [← hself] at he
  have hframes : ∀ q ∈ F, m₂.buddy.frameMetadata q = (s.2.buddy.frameMetadata q).addRefs
      (pageRadix.leavesUnder m.ram (e + 1) (m.ram p i) q) := by
    intro q hq
    rw [hframes₂ q hq, hcl.frames q hq, ← Radix.leavesUnder_congr q hkeep,
      Radix.leavesUnder_table hw]
  obtain ⟨hst', hcopy'⟩ := hst.store ht hi hcl.grown hS₂ he hcopy hkeep₂
    (Machine.write_write m₂ c i (m₂.ram p i) _) hframes
  refine ⟨hbelowReq, pageAddr d, m₁, hrun, hens₁, _, cloneTableEntry_run hens hp.2 hc.2 hd, S₂,
    0, hst', .table c hcopy', ?_⟩
  exact hs.write _ _ _ _ _ _ (hs.write _ _ _ _ _ _ hm₂ hc.1 hv) hc.1 hv'

theorem cloneLeafEntry_spec (hs : TableSupply allocPt Q F I) (ht : Cloneable F S h p m.ram)
    (hi : i < tableSize) (hst : CloneState F S S₀ h p i m s.2)
    (hchild : ChildTable S S₀ h p i m.ram s.2.ram s.1 k)
    (hm : I (n + remaining m.ram h p i + k) S₀ s.2)
    (hw : pageRadix.leaf h (m.ram p i) = true) (hnot : pageRadix.table h (m.ram p i) = false)
    (hframe : Pte.address.get (m.ram p i) ∈ F ∧ Pte.address.get (m.ram p i) < ramPages)
    (hreq : Assures I Q ∨ (s.1 = 0 → Q (markEntry p i s.2))) :
    (s.1 = 0 → Q (markEntry p i s.2)) ∧
      ∃ r, cloneLeafEntry allocPt p i s.1 s.2 = some r ∧ Cloning F I S n h p m (i + 1) r := by
  obtain ⟨hword, -⟩ := hst.parent.rest i hi (Nat.le_refl i)
  have hp := ht.root
  have hpS := hst.grown hp.1
  rw [remaining_succ _ _ _ hi, Radix.sizeUnder_none hnot, Nat.zero_add] at hm
  have hram : (markEntry p i s.2).ram = Radix.setWord s.2.ram p i (mark (m.ram p i)) := by
    rw [← hword]
    exact Machine.write_write _ _ _ _ _
  have hv : Pte.valid.get (s.2.ram p i) = 1 := hword ▸ (of_decide_eq_true hw).1
  have hcow : Pte.valid.get (Pte.cow.set (s.2.ram p i) 1) = 1 := by
    rw [BitField.get_set_of_disjoint (by decide), hv]
  have hmark : Pte.valid.get (mark (s.2.ram p i)) = 1 := by
    rw [mark_get (by decide) (by decide), hv]
  have hm₁ := hs.write _ _ _ p i (mark (s.2.ram p i))
    (hs.write _ _ _ p i (Pte.cow.set (s.2.ram p i) 1) hm hpS hcow) hpS hmark
  have hkeep₁ : ∀ q ∈ S₀, q ∉ S → (markEntry p i s.2).ram q = s.2.ram q := by
    intro q _ hqS
    have hne : q ≠ p := fun h => hqS (h ▸ hp.1)
    rw [hram, Radix.setWord_page _ _ hne]
  obtain ⟨hens₁, c, m₂, S₂, hens, hS₂, hkeep₂, hframes₂, hm₂, hcopy⟩ :=
    ensureTable_spec hs hi.le hchild hkeep₁ hm₁ hreq
  have hc := copy_mem hS₂ hcopy
  have hself : m₂.ram p i = mark (m.ram p i) := by
    rw [hkeep₂ p hpS, hram, Radix.setWord_self]
  have haddr : Pte.address.get (mark (m.ram p i)) = Pte.address.get (m.ram p i) :=
    mark_target (m.ram p i)
  have hrun := cloneLeafEntry_run hp.2 hens hc.2 (i := i)
  rw [hself, haddr] at hrun
  obtain ⟨m₃, hcount, hram₃, hframes₃⟩ :=
    countRef_spec (m₂.write c i (mark (m.ram p i))) hframe.2
  rw [hcount] at hrun
  have hframes : ∀ q ∈ F, m₃.buddy.frameMetadata q = (s.2.buddy.frameMetadata q).addRefs
      (pageRadix.leavesUnder m.ram h (m.ram p i) q) := by
    intro q hq
    have hq' : m₂.buddy.frameMetadata q = s.2.buddy.frameMetadata q := hframes₂ q hq
    rw [hframes₃, Radix.leavesUnder_leaf hw hnot, Machine.write_buddy, hq']
    rfl
  obtain ⟨hst', hcopy'⟩ := hst.store ht hi subset_rfl hS₂ (copyEntry_leaf hword hw hnot hram)
    hcopy hkeep₂ hram₃ hframes
  rw [hword] at hmark
  exact ⟨hens₁, _, hrun, S₂, 0, hst', .table c hcopy',
    hs.count _ _ _ _ _ (hs.write _ _ _ _ _ _ hm₂ hc.1 hmark) hframe.1 hcount⟩

theorem cloneEntry_spec (hs : TableSupply allocPt Q F I) (ht : Cloneable F S h p m.ram)
    (hclone : ∀ e, h = e + 1 → ClonesTables F I Q e clone requests) (hi : i < tableSize)
    (hst : Cloning F I S n h p m i s)
    (hreq : Assures I Q ∨ EntryRequests Q h clone requests p s i) :
    EntryRequests Q h clone requests p s i ∧
      ∃ r, cloneEntry allocPt h clone p s i = some r ∧ Cloning F I S n h p m (i + 1) r := by
  obtain ⟨S₀, k, hst, hchild, hm⟩ := hst
  obtain ⟨hword, -⟩ := hst.parent.rest i hi (Nat.le_refl i)
  unfold EntryRequests at hreq ⊢
  rw [hword] at hreq ⊢
  unfold cloneEntry
  show _ ∧ ∃ r, (s.2.read p i).bind _ = some r ∧ _
  rw [Machine.read_eq i ht.root.2, Option.bind_some, hword]
  by_cases hv : Pte.valid.get (m.ram p i) = 1
  · obtain ⟨htype, hframe⟩ := (ht.every i hi).1 hv
    have hgo : ¬ Pte.valid.get (m.ram p i) ≠ 1 := fun hne => hne hv
    rw [if_neg hgo]
    cases h with
    | zero =>
        have hnot : ¬ (0 < 0 ∧ Pte.type.get (m.ram p i) = 1) :=
          fun h => absurd h.1 (Nat.lt_irrefl 0)
        rw [if_neg hnot] at hreq
        rw [if_neg hnot, if_neg hnot]
        obtain ⟨hround, hrun⟩ := cloneLeafEntry_spec hs ht hi hst hchild hm (page_leaf hv htype)
          (not_table_zero _) (hframe rfl) (hreq.imp_right fun h => h hv)
        exact ⟨fun _ => hround, hrun⟩
    | succ e =>
        have hyes : 0 < e + 1 ∧ Pte.type.get (m.ram p i) = 1 := ⟨Nat.succ_pos e, htype⟩
        rw [if_pos hyes] at hreq
        obtain ⟨hbelow, d, m₁, hrun, hround, r, hentry, hr⟩ := cloneTableEntry_spec hs ht hi
          (hclone e rfl) hst hchild hm (table_intro e hv htype) (hreq.imp_right fun h => h hv)
        have hrun' : clone (Pte.address.get (m.ram p i)) s.2 = some (d, m₁) := hrun
        rw [if_pos hyes, if_pos hyes, hrun', Option.bind_eq_bind, Option.bind_some]
        refine ⟨fun _ => ⟨hbelow, fun t m' heq => ?_⟩, r, hentry, hr⟩
        rw [Option.some.injEq, Prod.mk.injEq] at heq
        exact heq.2 ▸ hround
  · rw [if_pos hv]
    refine ⟨fun h => absurd h hv, s, rfl, S₀, k, hst.skip ht hi hv, hchild.skip hi hv, ?_⟩
    rw [remaining_succ _ _ _ hi, Radix.sizeUnder_none (void_of_invalid hv h).1,
      Nat.zero_add] at hm
    exact hm

theorem cloneLoop_spec (hs : TableSupply allocPt Q F I) (ht : Cloneable F S h p m.ram)
    (hclone : ∀ e, h = e + 1 → ClonesTables F I Q e clone requests)
    (hm : I (n + pageRadix.size m.ram h p) S m)
    (hreq : Assures I Q ∨ BeforeRounds (cloneEntry allocPt h clone p)
      (EntryRequests Q h clone requests p) tableSize (0, m)) :
    BeforeRounds (cloneEntry allocPt h clone p) (EntryRequests Q h clone requests p) tableSize
        (0, m) ∧
      ∃ c m' S', (List.range tableSize).foldlM (cloneEntry allocPt h clone p) (0, m) =
        some (pageAddr c, m') ∧ Cloned F S S' h p c m m' ∧ I n S' m' := by
  have hstart : Cloning F I S n h p m 0 (0, m) := by
    refine ⟨S, 1, ⟨subset_rfl, .start S h p m.ram, fun q _ => ?_⟩, .null rfl fun j hj => ?_, ?_⟩
    · rw [Finset.sum_range_zero, addRefs_zero]
    · exact absurd hj (Nat.not_lt_zero j)
    · rw [size_eq_remaining, ← Nat.add_assoc] at hm
      exact hm
  obtain ⟨hrounds, ⟨childTable, m'⟩, hrun, S', k, ⟨hgrown, hparent, hframes⟩, hchild, hm'⟩ :=
    foldlM_range_before hreq hstart fun i s hi hst => cloneEntry_spec hs ht hclone hi hst
  rw [remaining, Finset.Ico_self, Finset.sum_empty, Nat.add_zero] at hm'
  dsimp only at hchild
  cases hchild with
  | null _ hnone =>
      -- a table has a valid entry
      obtain ⟨j, hj, hv⟩ := ht.filled.1
      exact absurd hv (hnone j hj)
  | table c hcopy =>
      exact ⟨hrounds, c, m', S', hrun, ⟨hgrown, hparent.done, hparent.keep, hcopy.done, hcopy.distinct,
        hcopy.new, hframes⟩, hm'⟩

theorem clonePageTable_spec (hs : TableSupply allocPt Q F I) (h : ℕ) :
    ClonesTables F I Q h (clonePageTable allocPt h) (PageTableRequests allocPt Q h) := by
  induction h with
  | zero =>
      intro n S p m ht hm hreq
      exact cloneLoop_spec hs ht (fun e he => absurd he.symm (Nat.succ_ne_zero e)) hm hreq
  | succ h ih =>
      intro n S p m ht hm hreq
      refine cloneLoop_spec hs ht (fun e he => ?_) hm hreq
      rwa [← Nat.succ_injective he]

end Loop

/-! ## §8  The root -/

/-- The invariant of the loop of `clone_virtual_memory`. -/
def RootCloning (F : Set ℕ) (I : ℕ → Set ℕ → Machine → Prop) (S : Set ℕ) (n p c : ℕ)
    (m : Machine) (i : ℕ) (m' : Machine) : Prop :=
  ∃ S', CloneState F S S' 3 p i m m' ∧
    pageRadix.CopyInto CopyWord (newPages S S') 3 p c i m.ram m'.ram ∧
    I (n + remaining m.ram 3 p i) S' m'

section Root

variable {allocPt : Machine → Option (ℕ × Machine)} {Q : Machine → Prop} {F S S₀ : Set ℕ}
  {I : ℕ → Set ℕ → Machine → Prop} {p c i n : ℕ} {m m₀ : Machine}

/-- A round for a valid entry. While the table below it is cloned, the child's entry still
names the parent's table. -/
theorem cloneRootEntry_table (hs : TableSupply allocPt Q F I) (ht : Cloneable F S 3 p m.ram)
    (hi : i < tableSize) (hst : CloneState F S S₀ 3 p i m m₀)
    (hcopy : pageRadix.CopyInto CopyWord (newPages S S₀) 3 p c i m.ram m₀.ram)
    (hm : I (n + remaining m.ram 3 p i) S₀ m₀) (hv : Pte.valid.get (m.ram p i) = 1)
    (hreq : Assures I Q ∨ PageTableRequests allocPt Q 2 (Pte.address.get (m.ram p i))
      (m₀.write c i (m.ram p i))) :
    PageTableRequests allocPt Q 2 (Pte.address.get (m.ram p i)) (m₀.write c i (m.ram p i)) ∧
      ∃ r, cloneRootEntry allocPt p (pageAddr c) m₀ i = some r ∧
        RootCloning F I S n p c m (i + 1) r := by
  obtain ⟨hword, hkeep⟩ := hst.parent.rest i hi (Nat.le_refl i)
  have hp := ht.root
  have hc := (hcopy.new c).mp Radix.tables_self
  have hw : pageRadix.table 3 (m.ram p i) = true := table_intro 2 hv ((ht.every i hi).1 hv).1
  have hbelow := ht.child hi hw
  -- the store to the child's table is outside of `S`
  have hout : ∀ q ∈ S, (m₀.write c i (m.ram p i)).ram q = m₀.ram q :=
    fun q hq => Machine.write_ram_ne _ _ fun h => hc.2.1 (h ▸ hq)
  have hunder : ∀ q, 0 < pageRadix.tables m.ram 2 (pageRadix.target (m.ram p i)) q →
      (m₀.write c i (m.ram p i)).ram q = m.ram q := by
    intro q hq
    rw [hout q (hbelow.sub q hq)]
    rw [← Radix.tablesUnder_table hw] at hq
    exact hkeep q hq
  have hst₁ : CloneState F S S₀ 3 p i m (m₀.write c i (m.ram p i)) :=
    ⟨hst.grown, hst.parent.congr marked_table marked_same ht.sub hi.le hout, hst.frames⟩
  have hsize : n + remaining m.ram 3 p i = n + remaining m.ram 3 p (i + 1) +
      pageRadix.size (m₀.write c i (m.ram p i)).ram 2 (pageRadix.target (m.ram p i)) := by
    rw [Nat.add_assoc, Nat.add_comm (remaining _ _ _ _)]
    exact congrArg (n + ·) (remaining_table hi hw hunder)
  have hm₁ := hs.write _ _ _ c i (m.ram p i) hm hc.1 hv
  rw [hsize] at hm₁
  obtain ⟨hround, d, m₁, S₁, hrun, hcl, hm₂⟩ := clonePageTable_spec hs 2 _ S₀ _ _
    (hbelow.congr hunder hst.grown) hm₁ hreq
  have hd : d < ramPages := ((hcl.new d).mp Radix.tables_self).2.2
  have hkept : ∀ q ∈ S₀, q ∉ S → m₁.ram q = (m₀.write c i (m.ram p i)).ram q := by
    intro q hq hqS
    refine hcl.keep q hq ?_
    rw [Radix.tables_congr q hunder]
    by_contra hne
    exact hqS (hbelow.sub q (Nat.pos_of_ne_zero hne))
  have hslot : m₁.ram c i = m.ram p i := by
    rw [hkept c hc.1 hc.2.1, Machine.write_self]
  have hself : (m₀.write c i (m.ram p i)).ram p i = m.ram p i := by
    rw [hout p hp.1, hword]
  have hnot : pageRadix.tables (m₀.write c i (m.ram p i)).ram 2
      (pageRadix.target (m.ram p i)) p = 0 := by
    rw [Radix.tables_congr p hunder, ← Radix.tablesUnder_table hw]
    exact ht.distinct.root hi
  refine ⟨hround, m₁.write c i (Pte.address.set (m.ram p i) d), ?_, S₁, ?_⟩
  · unfold cloneRootEntry
    have hrun' : clonePageTable allocPt 2 (Pte.address.get (m.ram p i))
        (m₀.write c i (m.ram p i)) = some (pageAddr d, m₁) := hrun
    simp only [Option.bind_eq_bind]
    rw [Machine.read_eq i hp.2, Option.bind_some, hword, if_neg fun h => h hv,
      vaToPa_pageAddr hc.2.2, Machine.store_eq _ _ hc.2.2, Option.bind_some, hrun',
      Option.bind_some]
    dsimp only
    rw [if_neg (pageAddr_ne_zero hd), Machine.read_eq i hc.2.2, Option.bind_some, hslot,
      vaToPa_pageAddr hd, Machine.store_eq _ _ hc.2.2]
  · have he := copyEntry_table hself hw hcl hst.grown (hst.grown hp.1) hnot hd
    have hentered : (m₁.write c i (Pte.address.set (m.ram p i) d)).ram c i =
      Pte.address.set (m.ram p i) d := Machine.write_self _ _ _ _
    rw [← hentered] at he
    have hslots : ∀ j < tableSize, j ≠ i →
        (m₁.write c i (Pte.address.set (m.ram p i) d)).ram c j = m₀.ram c j := by
      intro j _ hne
      rw [Machine.write_ram, if_neg fun h => hne h.2, hkept c hc.1 hc.2.1, Machine.write_ram,
        if_neg fun h => hne h.2]
    have hcopied : ∀ q, q ≠ c → 0 < pageRadix.tables m₀.ram 3 c q →
        (m₁.write c i (Pte.address.set (m.ram p i) d)).ram q = m₀.ram q := by
      intro q hne hq
      have hnew := (hcopy.new q).mp hq
      rw [Machine.write_ram_ne _ _ hne, hkept q hnew.1 hnew.2.1, Machine.write_ram_ne _ _ hne]
    have hframes : ∀ q ∈ F, m₁.buddy.frameMetadata q = (m₀.buddy.frameMetadata q).addRefs
        (pageRadix.leavesUnder m.ram 3 (m.ram p i) q) := by
      intro q hq
      have hbelow' : ∀ y, 0 < pageRadix.tablesUnder m.ram 3 (m.ram p i) y →
          (m₀.write c i (m.ram p i)).ram y = m.ram y := by
        intro y hy
        rw [Radix.tablesUnder_table hw] at hy
        exact hunder y hy
      rw [hcl.frames q hq, ← Radix.leavesUnder_congr q hbelow', Radix.leavesUnder_table hw,
        Machine.write_buddy]
    rw [← Set.union_empty (newPages S S₀), ← newPages_self S₁] at hcopy
    obtain ⟨hst', hcopy'⟩ := hst₁.enter ht hi hcl.grown subset_rfl he hcopy
      (fun q _ hne => Machine.write_ram_ne _ _ hne) hslots hcopied hframes
    have hv' : Pte.valid.get (Pte.address.set (m.ram p i) d) = 1 := by
      rw [BitField.get_set_of_disjoint (by decide), hv]
    exact ⟨hst', hcopy', hs.write _ _ _ _ _ _ hm₂ (hcl.grown hc.1) hv'⟩

theorem cloneRootEntry_spec (hs : TableSupply allocPt Q F I) (ht : Cloneable F S 3 p m.ram)
    (hi : i < tableSize) (hst : RootCloning F I S n p c m i m₀)
    (hreq : Assures I Q ∨ RootRequests allocPt Q p (pageAddr c) m₀ i) :
    RootRequests allocPt Q p (pageAddr c) m₀ i ∧
      ∃ r, cloneRootEntry allocPt p (pageAddr c) m₀ i = some r ∧
        RootCloning F I S n p c m (i + 1) r := by
  obtain ⟨S₀, hst, hcopy, hm⟩ := hst
  have hc := ((hcopy.new c).mp Radix.tables_self).2.2
  obtain ⟨hword, -⟩ := hst.parent.rest i hi (Nat.le_refl i)
  unfold RootRequests at hreq ⊢
  rw [hword, vaToPa_pageAddr hc] at hreq ⊢
  by_cases hv : Pte.valid.get (m.ram p i) = 1
  · obtain ⟨hround, hrun⟩ := cloneRootEntry_table hs ht hi hst hcopy hm hv
      (hreq.imp_right fun h => h hv)
    exact ⟨fun _ => hround, hrun⟩
  · have hvoid := void_of_invalid hv
    refine ⟨fun h => absurd h hv, m₀, ?_, S₀, hst.skip ht hi hv,
      hcopy.skip copyWord_void hi hvoid, ?_⟩
    · unfold cloneRootEntry
      rw [Machine.read_eq i ht.root.2, Option.bind_eq_bind, Option.bind_some, hword, if_pos hv]
    · rw [remaining_succ _ _ _ hi, Radix.sizeUnder_none (hvoid 3).1, Nat.zero_add] at hm
      exact hm

theorem cloneRootLoop_spec (hs : TableSupply allocPt Q F I) (ht : Cloneable F S 3 p m.ram)
    (hstart : RootCloning F I S n p c m 0 m₀)
    (hreq : Assures I Q ∨ BeforeRounds (cloneRootEntry allocPt p (pageAddr c))
      (RootRequests allocPt Q p (pageAddr c)) tableSize m₀) :
    BeforeRounds (cloneRootEntry allocPt p (pageAddr c))
        (RootRequests allocPt Q p (pageAddr c)) tableSize m₀ ∧
      ∃ m' S', (List.range tableSize).foldlM (cloneRootEntry allocPt p (pageAddr c)) m₀ =
        some m' ∧ Cloned F S S' 3 p c m m' ∧ I n S' m' := by
  obtain ⟨hrounds, m', hrun, S', ⟨hgrown, hparent, hframes⟩, hcopy, hm'⟩ :=
    foldlM_range_before hreq hstart fun i s hi hst => cloneRootEntry_spec hs ht hi hst
  rw [remaining, Finset.Ico_self, Finset.sum_empty, Nat.add_zero] at hm'
  exact ⟨hrounds, m', S', hrun, ⟨hgrown, hparent.done, hparent.keep, hcopy.done,
    hcopy.distinct, hcopy.new, hframes⟩, hm'⟩

theorem RootCloning.start (hc : c < ramPages) (hnew : c ∉ S) (hblank : ∀ i, m₀.ram c i = 0)
    (hkeep : ∀ q ∈ S, m₀.ram q = m.ram q)
    (hframes : ∀ q ∈ F, m₀.buddy.frameMetadata q = m.buddy.frameMetadata q)
    (ht : Cloneable F S 3 p m.ram) (hm₀ : I (n + remaining m.ram 3 p 0) (insert c S) m₀) :
    RootCloning F I S n p c m 0 m₀ := by
  have hvoid : ∀ j < pageRadix.fan, pageRadix.Void (m₀.ram c j) := by
    intro j _
    rw [hblank j]
    exact void_of_invalid (by decide)
  refine ⟨insert c S, ⟨Set.subset_insert c S, ?_, fun q hq => ?_⟩, ?_, hm₀⟩
  · exact (Radix.Rewriting.start S 3 p m.ram).congr marked_table marked_same ht.sub
      (Nat.zero_le _) hkeep
  · rw [hframes q hq, Finset.sum_range_zero, addRefs_zero]
  · rw [newPages_insert hnew hc]
    exact .start copyWord_void (Nat.zero_le _) (fun j hj => absurd hj (Nat.not_lt_zero j)) hvoid

theorem cloneVirtualMemory_spec (hs : TableSupply allocPt Q F I) (ht : Cloneable F S 3 p m.ram)
    (hm : I (n + pageRadix.size m.ram 3 p) S m)
    (hreq : Assures I Q ∨ CloneRequests allocPt Q p m) :
    CloneRequests allocPt Q p m ∧
      ∃ c m' S', cloneVirtualMemory allocPt p m = some (pageAddr c, m') ∧
        Cloned F S S' 3 p c m m' ∧ I n S' m' := by
  rw [size_eq_remaining, ← Nat.add_assoc] at hm
  have hQ : Q m := hreq.elim (fun h => h _ S m hm) And.left
  obtain ⟨c, m₀, halloc, hfresh, hm₀⟩ := hs.grant _ S m hm hQ
  have hstart := RootCloning.start hfresh.lt hfresh.new.1 hfresh.blank hfresh.keep hfresh.frames
    ht hm₀
  obtain ⟨hrounds, m', S', hrun, hcl, hm'⟩ := cloneRootLoop_spec hs ht hstart
    (hreq.imp_right fun h => h.2 _ m₀ halloc)
  refine ⟨⟨hQ, fun t n heq => ?_⟩, c, m', S', ?_, hcl, hm'⟩
  · rw [halloc, Option.some.injEq, Prod.mk.injEq] at heq
    rw [← heq.1, ← heq.2]
    exact hrounds
  · rw [cloneVirtualMemory, halloc, Option.bind_eq_bind, Option.bind_some]
    dsimp only
    rw [hrun]
    rfl

end Root

end Rpos
