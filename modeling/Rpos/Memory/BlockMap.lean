import Rpos.Memory.PageTables

/-!
# The block path of `map`

`map` chooses `map_blocks` by the virtual address and the order alone.
`map_blocks` stores a block descriptor in an invalid L2 slot and leaves a slot
that holds a table. A block descriptor drops the low 21 bits of the output
address, and a table may have unmapped pages.
-/

namespace Rpos

open Base

/-! ## §1  `map_blocks` -/

section Requests

variable (allocPt : Machine → Option (ℕ × Machine))

/-- `Q` holds wherever this round of `map_blocks` requests a page. -/
def BlockRequests (Q : Machine → Prop) (va ptBase : ℕ) (m : Machine) : Prop :=
  StepRequests Q ptBase (idx0 va) m ∧
  ∀ l1 m1, nextTable allocPt ptBase (idx0 va) m = some (l1, m1) →
    StepRequests Q l1 (idx1 va) m1

/-- `Q` holds wherever `map_blocks` requests a page. -/
def BlocksRequests (Q : Machine → Prop) (flags ptBase : ℕ) :
    ℕ → ℕ → ℕ → Machine → Prop
  | 0, _, _, _ => True
  | blocks + 1, va, pa, m =>
      BlockRequests allocPt Q va ptBase m ∧
      ∀ m', mapBlock allocPt va pa flags ptBase m = some m' →
        BlocksRequests Q flags ptBase blocks ((va + blockSize) % 2 ^ 64)
          ((pa + blockSize) % 2 ^ 64) m'

end Requests

section BlockRules

variable {allocPt : Machine → Option (ℕ × Machine)} {Q Q' Q'' : Machine → Prop}
  {va root : ℕ} {m : Machine}

theorem BlockRequests.imp₂ (hQ : ∀ n, Q n → Q' n → Q'' n)
    (h : BlockRequests allocPt Q va root m) (h' : BlockRequests allocPt Q' va root m) :
    BlockRequests allocPt Q'' va root m :=
  ⟨h.1.imp₂ hQ h'.1, fun l1 m1 hrun1 => (h.2 l1 m1 hrun1).imp₂ hQ (h'.2 l1 m1 hrun1)⟩

theorem BlocksRequests.imp₂ {flags : ℕ} (hQ : ∀ n, Q n → Q' n → Q'' n) (blocks : ℕ) :
    ∀ (va pa : ℕ) (m : Machine), BlocksRequests allocPt Q flags root blocks va pa m →
      BlocksRequests allocPt Q' flags root blocks va pa m →
        BlocksRequests allocPt Q'' flags root blocks va pa m := by
  induction blocks with
  | zero => exact fun _ _ _ _ _ => trivial
  | succ blocks ih =>
      intro va pa m h h'
      exact ⟨h.1.imp₂ hQ h'.1, fun m' hrun => ih _ _ m' (h.2 m' hrun) (h'.2 m' hrun)⟩

theorem BlocksRequests.imp {flags blocks pa : ℕ} (hQ : ∀ n, Q n → Q' n)
    (h : BlocksRequests allocPt Q flags root blocks va pa m) :
    BlocksRequests allocPt Q' flags root blocks va pa m :=
  BlocksRequests.imp₂ (fun n hn _ => hQ n hn) blocks va pa m h h

end BlockRules

section Blocks

variable {allocPt : Machine → Option (ℕ × Machine)} {root va : ℕ} {m : Machine}

theorem tableOrBlock_form (h : ℕ) (w : Word) (hform : TableOrBlock (h + 2) w) :
    Pte.valid.get w = 1 → Pte.type.get w = 1 :=
  hform (by omega)

theorem walk_l2 (ht : PageTree TableOrBlock m.ram root)
    (hreq : BlockRequests allocPt (TableGranted allocPt root) va root m) :
    ∃ l1 m1 l2 m2, nextTable allocPt root (idx0 va) m = some (l1, m1) ∧
      nextTable allocPt l1 (idx1 va) m1 = some (l2, m2) ∧
      Walked TableOrBlock root (va / pageSize) 1 l2 m.ram m2.ram := by
  obtain ⟨h0, h1, -⟩ := idx_eq va
  obtain ⟨hreq0, hreq1⟩ := hreq
  rw [h0] at hreq0
  obtain ⟨l1, m1, hrun1, hw1⟩ := nextTable_walked tableOrBlock_admits
    (Walked.start ht) (tableOrBlock_form 1) hreq0
  rw [← h0] at hrun1
  have hreq1 := hreq1 l1 m1 hrun1
  rw [h1] at hreq1
  obtain ⟨l2, m2, hrun2, hw2⟩ :=
    nextTable_walked tableOrBlock_admits hw1 (tableOrBlock_form 0) hreq1
  rw [← h1] at hrun2
  exact ⟨l1, m1, l2, m2, hrun1, hrun2, hw2⟩

theorem mapBlock_run {l1 l2 : ℕ} {m1 m2 : Machine}
    (hrun1 : nextTable allocPt root (idx0 va) m = some (l1, m1))
    (hrun2 : nextTable allocPt l1 (idx1 va) m1 = some (l2, m2))
    (hl2 : l2 < ramPages) (pa flags : ℕ) :
    mapBlock allocPt va pa flags root m =
      some (if Pte.valid.get (m2.ram l2 (idx2 va)) = 1 then m2
        else m2.write l2 (idx2 va) (leafDescriptor flags 0 pa)) := by
  rw [mapBlock, hrun1]
  show (nextTable allocPt l1 (idx1 va) m1).bind _ = _
  rw [hrun2]
  show (m2.read l2 (idx2 va)).bind _ = _
  rw [Machine.read_eq _ hl2]
  show (if Pte.valid.get (m2.ram l2 (idx2 va)) = 1 then some m2
    else m2.store l2 (idx2 va) (leafDescriptor flags 0 pa)) = _
  rw [Machine.store_eq _ _ hl2]
  split_ifs <;> rfl

theorem mapBlock_walk {m' : Machine} {pa flags : ℕ}
    (hrun : mapBlock allocPt va pa flags root m = some m') :
    ∃ l1 m1 l2 m2, nextTable allocPt root (idx0 va) m = some (l1, m1) ∧
      nextTable allocPt l1 (idx1 va) m1 = some (l2, m2) ∧ l2 < ramPages := by
  unfold mapBlock at hrun
  simp only [Option.bind_eq_bind, Option.bind_eq_some_iff] at hrun
  obtain ⟨⟨l1, m1⟩, hrun1, ⟨l2, m2⟩, hrun2, entry, hread, -⟩ := hrun
  refine ⟨l1, m1, l2, m2, hrun1, hrun2, ?_⟩
  by_contra hge
  unfold Machine.read at hread
  rw [if_neg hge] at hread
  exact absurd hread (Option.some_ne_none _).symm

/-- The lookups after the pages of `S` whose L2 slot is invalid have got the
words `f`, as pages and as slots. -/
structure BlocksPlaced (S : ℕ → Prop) (f : ℕ → Word) (root : ℕ) (m m' : Machine) :
    Prop where
  tree : PageTree TableOrBlock m'.ram root
  placed : ∀ x < tableSize ^ 4, S x → l2Slots.lookup m.ram 3 root x = none →
    pageRadix.lookup m'.ram 3 root x = some (1, f x) ∧
      l2Slots.lookup m'.ram 3 root x ≠ none
  kept : ∀ x < tableSize ^ 4, ¬ (S x ∧ l2Slots.lookup m.ram 3 root x = none) →
    pageRadix.lookup m'.ram 3 root x = pageRadix.lookup m.ram 3 root x ∧
      l2Slots.lookup m'.ram 3 root x = l2Slots.lookup m.ram 3 root x

/-- One round of `map_blocks` maps the 2 MiB range of `va` if its L2 slot is
invalid. -/
theorem mapBlock_spec (ht : PageTree TableOrBlock m.ram root) (pa flags : ℕ)
    (hreq : BlockRequests allocPt (TableGranted allocPt root) va root m) :
    ∃ m', mapBlock allocPt va pa flags root m = some m' ∧
      BlocksPlaced (fun x => x / tableSize = va / pageSize % tableSize ^ 4 / tableSize)
        (fun _ => leafDescriptor flags 0 pa) root m m' := by
  obtain ⟨l1, m1, l2, m2, hrun1, hrun2, hw⟩ := walk_l2 ht hreq
  obtain ⟨-, -, h2, -⟩ := idx_eq va
  have hslot := hw.slot_valid
  refine ⟨_, mapBlock_run hrun1 hrun2 hw.table_lt pa flags, ?_⟩
  rw [h2]
  by_cases hvalid : Pte.valid.get (m2.ram l2 (pageRadix.digit 1 (va / pageSize))) = 1
  · rw [if_pos hvalid]
    refine ⟨hw.tree, fun x hx hxv hnone => ?_,
      fun x _ _ => ⟨hw.lookup x, hw.slots (le_refl 1) x⟩⟩
    rw [slots_lookup_congr m.ram root hx hxv] at hnone
    exact absurd hnone (hslot.mp hvalid)
  · obtain ⟨hleaf, htype⟩ := leafDescriptor_get flags pa (by decide : 0 < 2)
    have hold := (void_of_invalid hvalid 1).1
    have hnot := block_not_table 1 htype
    rw [if_neg hvalid]
    refine ⟨(hw.place hold (block_leaf hleaf htype) hnot
      fun h => absurd rfl h).1, fun x hx hxv hnone => ?_, fun x hx hnot' => ?_⟩
    · rw [write_ram_eq, hw.place_lookup hold (block_leaf hleaf htype) hnot hx,
        hw.place_slots hleaf hx, pow_one, if_pos hxv, if_pos hxv]
      exact ⟨rfl, Option.some_ne_none _⟩
    · have hxv : ¬ x / tableSize = va / pageSize % tableSize ^ 4 / tableSize := by
        intro hxv
        refine hnot' ⟨hxv, ?_⟩
        rw [slots_lookup_congr m.ram root hx hxv]
        by_contra hsome
        exact hvalid (hslot.mpr hsome)
      rw [write_ram_eq, hw.place_lookup hold (block_leaf hleaf htype) hnot hx,
        hw.place_slots hleaf hx, pow_one, if_neg hxv, if_neg hxv]
      exact ⟨rfl, rfl⟩

theorem BlocksPlaced.trans {S S' S'' : ℕ → Prop} {f f' f'' : ℕ → Word} {m' m'' : Machine}
    (h : BlocksPlaced S f root m m') (h' : BlocksPlaced S' f' root m' m'')
    (hS : ∀ x < tableSize ^ 4, S'' x ↔ S x ∨ S' x)
    (hf : ∀ x < tableSize ^ 4, S x → f'' x = f x)
    (hf' : ∀ x < tableSize ^ 4, ¬ S x → f'' x = f' x) :
    BlocksPlaced S'' f'' root m m'' := by
  refine ⟨h'.tree, fun x hx hin hnone => ?_, fun x hx hout => ?_⟩
  · by_cases hxS : S x
    · obtain ⟨hword, hused⟩ := h.placed x hx hxS hnone
      obtain ⟨hlook, hslot⟩ := h'.kept x hx fun hx' => hused hx'.2
      rw [hlook, hslot, hword, hf x hx hxS]
      exact ⟨rfl, hused⟩
    · obtain ⟨-, hslot⟩ := h.kept x hx fun hx' => hxS hx'.1
      have hxS' := ((hS x hx).mp hin).resolve_left hxS
      rw [hf' x hx hxS]
      exact h'.placed x hx hxS' (hslot.trans hnone)
  · obtain ⟨hlook, hslot⟩ := h.kept x hx fun hx' =>
      hout ⟨(hS x hx).mpr (Or.inl hx'.1), hx'.2⟩
    obtain ⟨hlook', hslot'⟩ := h'.kept x hx fun hx' =>
      hout ⟨(hS x hx).mpr (Or.inr hx'.1), hslot ▸ hx'.2⟩
    exact ⟨hlook'.trans hlook, hslot'.trans hslot⟩

/-- The pages of the first block have offsets below 512; those of the others
shrink by 512 when `va` moves on by a block. -/
theorem pageOffset_block {va x : ℕ} (hva : va % blockSize = 0)
    (hx : x < tableSize ^ 4) :
    (x / tableSize = va / pageSize % tableSize ^ 4 / tableSize ↔
      pageOffset (va / pageSize) x < tableSize) ∧
    (pageOffset (va / pageSize) x < tableSize →
      tableSize ^ 4 - tableSize ≤
        pageOffset ((va + blockSize) % 2 ^ 64 / pageSize) x) ∧
    (tableSize ≤ pageOffset (va / pageSize) x → pageOffset (va / pageSize) x =
      pageOffset ((va + blockSize) % 2 ^ 64 / pageSize) x + tableSize) := by
  simp only [pageOffset, pageSize, tableSize, blockSize] at *
  omega

/-- The `n` blocks from `va` on whose L2 slot is invalid are mapped in order. -/
theorem mapBlocks_placed (flags : ℕ) (n : ℕ) (hn : n ≤ tableSize ^ 3) :
    ∀ (va pa : ℕ) (m : Machine), va % blockSize = 0 →
      PageTree TableOrBlock m.ram root →
      BlocksRequests allocPt (TableGranted allocPt root) flags root n va pa m →
      ∃ m', mapBlocks allocPt flags root n va pa m = some m' ∧
        BlocksPlaced (fun x => pageOffset (va / pageSize) x < n * tableSize)
          (fun x => leafDescriptor flags 0
            (pa + pageOffset (va / pageSize) x / tableSize * blockSize)) root m m' := by
  induction n with
  | zero =>
      intro va pa m _ ht _
      refine ⟨m, rfl, ht, fun x _ hin _ => ?_, fun _ _ _ => ⟨rfl, rfl⟩⟩
      rw [Nat.zero_mul] at hin
      exact absurd hin (Nat.not_lt_zero _)
  | succ n ih =>
      intro va pa m hva ht hreq
      obtain ⟨hblock, hrest⟩ := hreq
      obtain ⟨m1, hrun1, hplaced1⟩ := mapBlock_spec ht pa flags hblock
      have hnext : (va + blockSize) % 2 ^ 64 % blockSize = 0 := by
        simp only [blockSize] at *
        omega
      obtain ⟨m', hrun, hplaced⟩ := ih (Nat.le_of_succ_le hn) ((va + blockSize) % 2 ^ 64)
        ((pa + blockSize) % 2 ^ 64) m1 hnext hplaced1.tree (hrest m1 hrun1)
      refine ⟨m', ?_, hplaced1.trans hplaced ?_ ?_ ?_⟩
      · rw [mapBlocks, hrun1]
        exact hrun
      · intro x hx
        obtain ⟨hfirst, hlast, hlater⟩ := pageOffset_block hva hx
        rw [hfirst]
        simp only [tableSize] at *
        omega
      · intro x hx hxv
        obtain ⟨hfirst, -⟩ := pageOffset_block hva hx
        rw [Nat.div_eq_of_lt (hfirst.mp hxv), Nat.zero_mul]
        rfl
      · intro x hx hxv
        obtain ⟨hfirst, -, hlater⟩ := pageOffset_block hva hx
        have hoff := hlater (Nat.le_of_not_lt fun hlt => hxv (hfirst.mpr hlt))
        rw [hoff, Nat.add_div_right _ (by decide)]
        refine leafDescriptor_congr flags 0 ?_
        simp only [pageSize, blockSize]
        omega

end Blocks

/-! ## §2  The two paths -/

def accessPermissions (w : Word) : ℕ × ℕ × ℕ :=
  (Pte.ap.get w, Pte.pxn.get w, Pte.uxn.get w)

/-- The output address and the access permissions of a virtual address. -/
def access (ram : ℕ → ℕ → Word) (root va : ℕ) : Option (ℕ × ℕ × ℕ × ℕ) :=
  (translate ram root va).map fun r => (r.1, accessPermissions r.2)

/-- The two paths agree on the page `x` of the range: its L2 slot is invalid
and the block is as aligned as its descriptor needs, or the page is mapped. -/
def PathsAgree (ram : ℕ → ℕ → Word) (root pa x : ℕ) : Prop :=
  (l2Slots.lookup ram 3 root x = none ∧ pa % blockSize = 0) ∨
    pageRadix.lookup ram 3 root x ≠ none

section Paths

theorem parseBlockFlags_permissions (flags : ℕ) :
    accessPermissions (parseBlockFlags flags 0) =
      accessPermissions (parseBlockFlags flags 1) := by
  unfold parseBlockFlags
  generalize hasFlag flags mapDevice = device, hasFlag flags mapCache = cache,
    hasFlag flags mapExec = exec, hasFlag flags mapKernel = kernel,
    hasFlag flags mapUser = user, hasFlag flags mapRead = read,
    hasFlag flags mapWrite = write
  revert device cache exec kernel user read write
  decide +kernel

/-- The output addresses of a block and of a page descriptor for the page with
offset `k`, which is the page `k % 512` of its block. -/
theorem block_output_iff {pa k va : ℕ} (flags : ℕ) (hpa : pa % pageSize = 0)
    (hk : va / pageSize % tableSize = k % tableSize) :
    outputAddress 1 (leafDescriptor flags 0 (pa + k / tableSize * blockSize)) va =
      outputAddress 0 (leafDescriptor flags 1 (pa + k * pageSize)) va ↔
    pa % blockSize = 0 := by
  simp only [outputAddress, leafDescriptor_address, pow_zero, pow_one]
  simp only [pageSize, tableSize, blockSize] at *
  omega

variable {allocPt : Machine → Option (ℕ × Machine)} {root va pa blockOrder : ℕ}
  {m : Machine}

theorem tableOrPage_block {ram : ℕ → ℕ → Word} (ht : PageTree TableOrPage ram root) :
    PageTree TableOrBlock ram root :=
  ht.weaken (ht.every.mono fun _ _ hform _ => hform)

/-- Where the two paths give one virtual address the same access. -/
theorem map_access_iff (ht : PageTree TableOrPage m.ram root)
    (hva : va % blockSize = 0) (hpa : pa % pageSize = 0)
    (h9 : 9 ≤ blockOrder) (h18 : blockOrder ≤ 18) (flags : ℕ)
    (hblocks : BlocksRequests allocPt (TableGranted allocPt root) flags root
      (2 ^ (blockOrder - 9)) va pa m)
    (hpages : PagesRequests allocPt (TableGranted allocPt root) flags root
      (2 ^ blockOrder) va pa m) :
    ∃ m1 m2, map allocPt va pa blockOrder flags root m = some m1 ∧
      mapPages allocPt flags root (2 ^ blockOrder) va pa m = some m2 ∧
      ∀ x < 2 ^ 48, access m1.ram root x = access m2.ram root x ↔
        (pageOffset (va / pageSize) (x / pageSize) < 2 ^ blockOrder →
          PathsAgree m.ram root pa (x / pageSize)) := by
  have hsize : 2 ^ (blockOrder - 9) * tableSize = 2 ^ blockOrder := by
    rw [show tableSize = 2 ^ 9 from rfl, ← pow_add, Nat.sub_add_cancel h9]
  have horder : 2 ^ blockOrder ≤ 2 ^ 18 := Nat.pow_le_pow_right (by decide) h18
  obtain ⟨m1, hrun1, hplaced⟩ := mapBlocks_placed flags (2 ^ (blockOrder - 9))
    (Nat.le_trans (Nat.pow_le_pow_right (by decide) (Nat.sub_le_sub_right h18 9)) (by decide))
    va pa m hva (tableOrPage_block ht) hblocks
  obtain ⟨m2, hrun2, -, hlook⟩ := mapPages_lookup flags (2 ^ blockOrder)
    (Nat.le_trans horder (by decide)) va pa m ht hpages
  have hidx : idx3 va = 0 := by
    simp only [idx3, tableSize, blockSize] at *
    omega
  refine ⟨m1, m2, ?_, hrun2, fun x hx => ?_⟩
  · rw [map, if_pos ⟨h9, hidx⟩]
    exact hrun1
  have hx' : x / pageSize < tableSize ^ 4 := by
    simp only [tableSize, pageSize]
    omega
  have hk : x / pageSize % tableSize =
      pageOffset (va / pageSize) (x / pageSize) % tableSize := by
    simp only [pageOffset, pageSize, tableSize, blockSize] at *
    omega
  have hlook2 := hlook _ hx'
  have hplaced1 := hplaced.placed _ hx'
  have hkept1 := hplaced.kept _ hx'
  simp only [hsize] at hplaced1 hkept1
  unfold access translate PathsAgree
  by_cases hin : pageOffset (va / pageSize) (x / pageSize) < 2 ^ blockOrder
  swap
  · -- outside of the range both leave the page
    rw [(hkept1 fun h => hin h.1).1, hlook2, if_neg fun h => hin h.1]
    simp only [hin, false_imp_iff]
  simp only [hin, true_imp_iff]
  by_cases hslot : l2Slots.lookup m.ram 3 root (x / pageSize) = none
  · -- a block against a page
    have hnone := ht.unmapped_of_slot hslot
    rw [(hplaced1 hin hslot).1, hlook2, if_pos ⟨hin, hnone⟩]
    simp only [Option.map_some, Option.some.injEq, Prod.mk.injEq, hslot, hnone, true_and,
      ne_eq, not_true_eq_false, or_false, leafDescriptor_attributes flags _ Nat.one_lt_two,
      leafDescriptor_attributes flags _ Nat.zero_lt_two, parseBlockFlags_permissions,
      and_true]
    exact block_output_iff flags hpa hk
  · -- the table of the slot against the page
    rw [(hkept1 fun h => hslot h.2).1, hlook2]
    simp only [hin, hslot, true_and, false_and, false_or]
    by_cases hnone : pageRadix.lookup m.ram 3 root (x / pageSize) = none
    · rw [if_pos hnone, hnone]
      simp
    · rw [if_neg hnone]
      simp only [hnone, ne_eq, not_false_eq_true]

end Paths

end Rpos
