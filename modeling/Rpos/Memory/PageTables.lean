import Rpos.Memory.PageWalk

/-!
# `map_pages`

`map_pages` walks the tree for each page of a range. It enters missing tables,
which changes no translation, and stores a descriptor in an invalid slot of the
L3 table, which changes the translation of one page.
-/

namespace Rpos

open Base

/-! ## §1  One step of the walk -/

section Requests

variable (allocPt : Machine → Option (ℕ × Machine))

/-- The request of a table page succeeds: it yields a zeroed page outside the
tree at `root` and leaves the tree alone. -/
def TableGranted (root : ℕ) (m : Machine) : Prop :=
  ∃ a m', allocPt m = some (pageAddr a, m') ∧ NewTable root a m.ram m'.ram

/-- The request of a table page yields a zeroed page outside the tree at `root`. -/
def FreshGranted (root : ℕ) (m : Machine) : Prop :=
  ∃ a m', allocPt m = some (pageAddr a, m') ∧ a < ramPages ∧
    pageRadix.tables m.ram 3 root a = 0 ∧ ∀ i, m'.ram a i = 0

/-- The request of a table page stores to no table of the tree at `root`. -/
def SparesTree (root : ℕ) (m : Machine) : Prop :=
  ∀ page m', allocPt m = some (page, m') →
    ∀ q, 0 < pageRadix.tables m.ram 3 root q → m'.ram q = m.ram q

def StepRequests (Q : Machine → Prop) (table idx : ℕ) (m : Machine) : Prop :=
  Pte.valid.get (m.ram table idx) = 1 ∨ Q m

/-- `Q` holds wherever this round of `map_pages` requests a page. -/
def PageRequests (Q : Machine → Prop) (va ptBase : ℕ) (m : Machine) : Prop :=
  StepRequests Q ptBase (idx0 va) m ∧
  ∀ l1 m1, nextTable allocPt ptBase (idx0 va) m = some (l1, m1) →
    StepRequests Q l1 (idx1 va) m1 ∧
    ∀ l2 m2, nextTable allocPt l1 (idx1 va) m1 = some (l2, m2) →
      StepRequests Q l2 (idx2 va) m2

/-- `Q` holds wherever `map_pages` requests a page. -/
def PagesRequests (Q : Machine → Prop) (flags ptBase : ℕ) :
    ℕ → ℕ → ℕ → Machine → Prop
  | 0, _, _, _ => True
  | blocks + 1, va, pa, m =>
      PageRequests allocPt Q va ptBase m ∧
      ∀ m', mapPage allocPt va pa flags ptBase m = some m' →
        PagesRequests Q flags ptBase blocks ((va + pageSize) % 2 ^ 64)
          ((pa + pageSize) % 2 ^ 64) m'

end Requests

section RequestRules

variable {allocPt : Machine → Option (ℕ × Machine)} {Q Q' Q'' : Machine → Prop}
  {va root : ℕ} {m : Machine}

theorem FreshGranted.table (hfresh : FreshGranted allocPt root m)
    (hspare : SparesTree allocPt root m) : TableGranted allocPt root m := by
  obtain ⟨a, m', halloc, hlt, hout, hblank⟩ := hfresh
  exact ⟨a, m', halloc, hlt, hout, hblank, hspare _ _ halloc⟩

theorem TableGranted.fresh (h : TableGranted allocPt root m) : FreshGranted allocPt root m := by
  obtain ⟨a, m', halloc, hnew⟩ := h
  exact ⟨a, m', halloc, hnew.lt, hnew.outside, hnew.blank⟩

theorem TableGranted.spares (h : TableGranted allocPt root m) : SparesTree allocPt root m := by
  obtain ⟨a, m', halloc, hnew⟩ := h
  intro page n hrun
  rw [halloc, Option.some.injEq, Prod.mk.injEq] at hrun
  rw [← hrun.2]
  exact hnew.keep

theorem StepRequests.imp₂ {table idx : ℕ} (hQ : ∀ n, Q n → Q' n → Q'' n)
    (h : StepRequests Q table idx m) (h' : StepRequests Q' table idx m) :
    StepRequests Q'' table idx m := by
  rcases h with hv | h
  · exact Or.inl hv
  · exact h'.imp_right (hQ m h)

/-- Two properties of the requests of a round give a third. -/
theorem PageRequests.imp₂ (hQ : ∀ n, Q n → Q' n → Q'' n)
    (h : PageRequests allocPt Q va root m) (h' : PageRequests allocPt Q' va root m) :
    PageRequests allocPt Q'' va root m := by
  refine ⟨h.1.imp₂ hQ h'.1, fun l1 m1 hrun1 => ?_⟩
  obtain ⟨hstep1, hrest⟩ := h.2 l1 m1 hrun1
  obtain ⟨hstep1', hrest'⟩ := h'.2 l1 m1 hrun1
  exact ⟨hstep1.imp₂ hQ hstep1', fun l2 m2 hrun2 =>
    (hrest l2 m2 hrun2).imp₂ hQ (hrest' l2 m2 hrun2)⟩

theorem PageRequests.imp (hQ : ∀ n, Q n → Q' n) (h : PageRequests allocPt Q va root m) :
    PageRequests allocPt Q' va root m :=
  h.imp₂ (fun n hn _ => hQ n hn) h

theorem PagesRequests.imp₂ {flags : ℕ} (hQ : ∀ n, Q n → Q' n → Q'' n) (blocks : ℕ) :
    ∀ (va pa : ℕ) (m : Machine), PagesRequests allocPt Q flags root blocks va pa m →
      PagesRequests allocPt Q' flags root blocks va pa m →
        PagesRequests allocPt Q'' flags root blocks va pa m := by
  induction blocks with
  | zero => exact fun _ _ _ _ _ => trivial
  | succ blocks ih =>
      intro va pa m h h'
      exact ⟨h.1.imp₂ hQ h'.1, fun m' hrun => ih _ _ m' (h.2 m' hrun) (h'.2 m' hrun)⟩

theorem PagesRequests.imp {flags blocks pa : ℕ} (hQ : ∀ n, Q n → Q' n)
    (h : PagesRequests allocPt Q flags root blocks va pa m) :
    PagesRequests allocPt Q' flags root blocks va pa m :=
  PagesRequests.imp₂ (fun n hn _ => hQ n hn) blocks va pa m h h

end RequestRules

section Step

variable {allocPt : Machine → Option (ℕ × Machine)} {P : ℕ → Word → Prop}
  {root v e t a : ℕ} {ram : ℕ → ℕ → Word} {m : Machine}

theorem write_ram_eq (m : Machine) (t j : ℕ) (w : Word) :
    (m.write t j w).ram = Radix.setWord m.ram t j w := rfl

def tableDescriptor (a : ℕ) : Word := Pte.address.set parseTableFlags a

theorem tableDescriptor_names {a : ℕ} (ha : a < ramPages) :
    NamesTable a (tableDescriptor a) := by
  refine ⟨?_, ?_, address_get_set _ (Nat.lt_of_lt_of_le ha (by decide))⟩
  · rw [tableDescriptor, BitField.get_set_of_disjoint (by decide)]
    decide
  · rw [tableDescriptor, BitField.get_set_of_disjoint (by decide)]
    decide

theorem nextTable_alloc {idx page : ℕ} {m1 : Machine} (ht : t < ramPages)
    (hv : Pte.valid.get (m.ram t idx) ≠ 1) (halloc : allocPt m = some (page, m1)) :
    nextTable allocPt t idx m =
      some (Pte.address.get (tableDescriptor (vaToPa page / pageSize)),
        m1.write t idx (tableDescriptor (vaToPa page / pageSize))) := by
  unfold nextTable
  rw [Machine.read_eq idx ht, Option.bind_eq_bind, Option.bind_some, if_neg hv, halloc,
    Option.bind_eq_bind, Option.bind_some]
  show (m1.store t idx (tableDescriptor (vaToPa page / pageSize))).bind _ = _
  rw [Machine.store_eq _ _ ht]
  rfl

theorem nextTable_granted {idx : ℕ} {m1 : Machine} (ht : t < ramPages)
    (ha : a < ramPages) (hv : Pte.valid.get (m.ram t idx) ≠ 1)
    (halloc : allocPt m = some (pageAddr a, m1)) :
    nextTable allocPt t idx m = some (a, m1.write t idx (tableDescriptor a)) := by
  rw [nextTable_alloc ht hv halloc, vaToPa_pageAddr ha, (tableDescriptor_names ha).address]

theorem nextTable_lt {idx : ℕ} {r : ℕ × Machine}
    (hrun : nextTable allocPt t idx m = some r) : t < ramPages := by
  by_contra hge
  unfold nextTable Machine.read at hrun
  rw [if_neg hge] at hrun
  exact absurd hrun (Option.some_ne_none _).symm

theorem vaToPa_null : vaToPa 0 / pageSize = 2 ^ 35 := by
  simp only [vaToPa, virtBase, pageSize]
  omega

/-- The descriptor for a NULL is valid and names the page 2^35. -/
theorem nextTable_null {idx : ℕ} {m1 : Machine} (ht : t < ramPages)
    (hv : Pte.valid.get (m.ram t idx) ≠ 1) (halloc : allocPt m = some (0, m1)) :
    nextTable allocPt t idx m =
      some (2 ^ 35, m1.write t idx (tableDescriptor (2 ^ 35))) := by
  rw [nextTable_alloc ht hv halloc, vaToPa_null, tableDescriptor,
    address_get_set _ (by decide)]

theorem nextTable_none {idx : ℕ} (ht : t < ramPages)
    (hv : Pte.valid.get (m.ram t idx) ≠ 1) (halloc : allocPt m = none) :
    nextTable allocPt t idx m = none := by
  unfold nextTable
  rw [Machine.read_eq idx ht, Option.bind_eq_bind, Option.bind_some, if_neg hv, halloc]
  rfl

theorem map_page (va pa flags ptBase : ℕ) :
    map allocPt va pa 0 flags ptBase m = mapPage allocPt va pa flags ptBase m := by
  rw [map, if_neg fun h => absurd h.1 (by decide), pow_zero]
  show mapPages allocPt flags ptBase (0 + 1) va pa m = _
  rw [mapPages]
  cases mapPage allocPt va pa flags ptBase m with
  | none => rfl
  | some m' => rfl

/-- A step of the walk reaches the next table and changes no translation. -/
theorem nextTable_walked (hP : Admits P) (hw : Walked P root v (e + 1) t ram m.ram)
    (hform : ∀ w, P (e + 1) w → Pte.valid.get w = 1 → Pte.type.get w = 1)
    (hreq : StepRequests (TableGranted allocPt root) t (pageRadix.digit (e + 1) v) m) :
    ∃ t' m', nextTable allocPt t (pageRadix.digit (e + 1) v) m = some (t', m') ∧
      Walked P root v e t' ram m'.ram := by
  by_cases hv : Pte.valid.get (m.ram t (pageRadix.digit (e + 1) v)) = 1
  · exact ⟨_, m, nextTable_valid allocPt hw.table_lt hv,
      hw.follow hv (hform _ hw.form hv)⟩
  · obtain ⟨a, m1, halloc, hnew⟩ := hreq.resolve_left hv
    exact ⟨a, _, nextTable_granted hw.table_lt hnew.lt hv halloc,
      hw.enter hP hv hnew (tableDescriptor_names hnew.lt)⟩

end Step

/-! ## §2  `map_pages` -/

section Pages

variable {allocPt : Machine → Option (ℕ × Machine)} {P : ℕ → Word → Prop}
  {root va : ℕ} {m : Machine}

theorem parseBlockFlags_get {isPage : ℕ} (flags : ℕ) (hpage : isPage < 2) :
    Pte.valid.get (parseBlockFlags flags isPage) = 1 ∧
      Pte.type.get (parseBlockFlags flags isPage) = isPage ∧
      attributes (parseBlockFlags flags isPage) = parseBlockFlags flags isPage := by
  unfold parseBlockFlags
  generalize hasFlag flags mapDevice = device, hasFlag flags mapCache = cache,
    hasFlag flags mapExec = exec, hasFlag flags mapKernel = kernel,
    hasFlag flags mapUser = user, hasFlag flags mapRead = read,
    hasFlag flags mapWrite = write
  revert isPage device cache exec kernel user read write
  decide +kernel

/-- The descriptor for `pa` that the mapping functions store. -/
def leafDescriptor (flags isPage pa : ℕ) : Word :=
  Pte.address.set (parseBlockFlags flags isPage) (pa / pageSize)

theorem leafDescriptor_get {isPage : ℕ} (flags pa : ℕ) (hpage : isPage < 2) :
    Pte.valid.get (leafDescriptor flags isPage pa) = 1 ∧
      Pte.type.get (leafDescriptor flags isPage pa) = isPage := by
  obtain ⟨hvalid, htype, -⟩ := parseBlockFlags_get flags hpage
  rw [leafDescriptor, BitField.get_set_of_disjoint (by decide),
    BitField.get_set_of_disjoint (by decide)]
  exact ⟨hvalid, htype⟩

theorem leafDescriptor_attributes {isPage : ℕ} (flags pa : ℕ) (hpage : isPage < 2) :
    attributes (leafDescriptor flags isPage pa) = parseBlockFlags flags isPage := by
  obtain ⟨-, -, hattr⟩ := parseBlockFlags_get flags hpage
  rw [attributes, leafDescriptor, BitField.set_set]
  exact hattr

theorem leafDescriptor_address (flags isPage pa : ℕ) :
    Pte.address.get (leafDescriptor flags isPage pa) = pa / pageSize % 2 ^ 36 :=
  BitField.get_set _ _ _

/-- A page descriptor for the page `f` maps `va` to its offset in that page. -/
theorem leafDescriptor_output (flags va : ℕ) {f : ℕ} (hf : f < tableSize ^ 4) :
    outputAddress 0 (leafDescriptor flags 1 (f * pageSize)) va =
      f * pageSize + va % pageSize := by
  have hdiv : f * pageSize / pageSize = f := Nat.mul_div_cancel f (by decide)
  have haddr : Pte.address.get (leafDescriptor flags 1 (f * pageSize)) = f := by
    rw [leafDescriptor, hdiv]
    exact address_get_set _ hf
  simp only [outputAddress, haddr, pow_zero, Nat.mul_one, hdiv]

theorem walk_l3 (hP : Admits P) (ht : PageTree P m.ram root)
    (hform : ∀ h w, P (h + 1) w → Pte.valid.get w = 1 → Pte.type.get w = 1)
    (hreq : PageRequests allocPt (TableGranted allocPt root) va root m) :
    ∃ l1 m1 l2 m2 l3 m3, nextTable allocPt root (idx0 va) m = some (l1, m1) ∧
      nextTable allocPt l1 (idx1 va) m1 = some (l2, m2) ∧
      nextTable allocPt l2 (idx2 va) m2 = some (l3, m3) ∧
      Walked P root (va / pageSize) 0 l3 m.ram m3.ram := by
  obtain ⟨h0, h1, h2, -⟩ := idx_eq va
  obtain ⟨hreq0, hreq1⟩ := hreq
  rw [h0] at hreq0
  obtain ⟨l1, m1, hrun1, hw1⟩ :=
    nextTable_walked hP (Walked.start ht) (hform 2) hreq0
  rw [← h0] at hrun1
  obtain ⟨hreq1, hreq2⟩ := hreq1 l1 m1 hrun1
  rw [h1] at hreq1
  obtain ⟨l2, m2, hrun2, hw2⟩ := nextTable_walked hP hw1 (hform 1) hreq1
  rw [← h1] at hrun2
  have hreq2 := hreq2 l2 m2 hrun2
  rw [h2] at hreq2
  obtain ⟨l3, m3, hrun3, hw3⟩ := nextTable_walked hP hw2 (hform 0) hreq2
  rw [← h2] at hrun3
  exact ⟨l1, m1, l2, m2, l3, m3, hrun1, hrun2, hrun3, hw3⟩

theorem mapPage_run {l1 l2 l3 : ℕ} {m1 m2 m3 : Machine}
    (hrun1 : nextTable allocPt root (idx0 va) m = some (l1, m1))
    (hrun2 : nextTable allocPt l1 (idx1 va) m1 = some (l2, m2))
    (hrun3 : nextTable allocPt l2 (idx2 va) m2 = some (l3, m3))
    (hl3 : l3 < ramPages) (pa flags : ℕ) :
    mapPage allocPt va pa flags root m =
      some (if Pte.valid.get (m3.ram l3 (idx3 va)) = 1 then m3
        else m3.write l3 (idx3 va) (leafDescriptor flags 1 pa)) := by
  rw [mapPage, hrun1]
  show (nextTable allocPt l1 (idx1 va) m1).bind _ = _
  rw [hrun2]
  show (nextTable allocPt l2 (idx2 va) m2).bind _ = _
  rw [hrun3]
  show (m3.read l3 (idx3 va)).bind _ = _
  rw [Machine.read_eq _ hl3]
  show (if Pte.valid.get (m3.ram l3 (idx3 va)) = 1 then some m3
    else m3.store l3 (idx3 va) (leafDescriptor flags 1 pa)) = _
  rw [Machine.store_eq _ _ hl3]
  split_ifs <;> rfl

theorem mapPage_walk {m' : Machine} {pa flags : ℕ}
    (hrun : mapPage allocPt va pa flags root m = some m') :
    ∃ l1 m1 l2 m2 l3 m3, nextTable allocPt root (idx0 va) m = some (l1, m1) ∧
      nextTable allocPt l1 (idx1 va) m1 = some (l2, m2) ∧
      nextTable allocPt l2 (idx2 va) m2 = some (l3, m3) ∧ l3 < ramPages := by
  unfold mapPage at hrun
  simp only [Option.bind_eq_bind, Option.bind_eq_some_iff] at hrun
  obtain ⟨⟨l1, m1⟩, hrun1, ⟨l2, m2⟩, hrun2, ⟨l3, m3⟩, hrun3, entry, hread, -⟩ := hrun
  refine ⟨l1, m1, l2, m2, l3, m3, hrun1, hrun2, hrun3, ?_⟩
  by_contra hge
  unfold Machine.read at hread
  rw [if_neg hge] at hread
  exact absurd hread (Option.some_ne_none _).symm

/-- One round of `map_pages` maps the page at `va` if it is unmapped. -/
theorem mapPage_spec (ht : PageTree TableOrPage m.ram root) (pa flags : ℕ)
    (hreq : PageRequests allocPt (TableGranted allocPt root) va root m) :
    ∃ m', mapPage allocPt va pa flags root m = some m' ∧
      PageTree TableOrPage m'.ram root ∧
      ∀ x < tableSize ^ 4, pageRadix.lookup m'.ram 3 root x =
        if x = va / pageSize % tableSize ^ 4 ∧
            pageRadix.lookup m.ram 3 root x = none then
          some (0, leafDescriptor flags 1 pa)
        else pageRadix.lookup m.ram 3 root x := by
  obtain ⟨l1, m1, l2, m2, l3, m3, hrun1, hrun2, hrun3, hw⟩ :=
    walk_l3 tableOrPage_admits ht (fun _ _ hform => hform) hreq
  obtain ⟨-, -, -, h3⟩ := idx_eq va
  have hmapped := hw.lookup_l3 fun _ hform => hform
  rw [← Radix.lookup_mod (R := pageRadix) m.ram 3] at hmapped
  refine ⟨_, mapPage_run hrun1 hrun2 hrun3 hw.table_lt pa flags, ?_⟩
  rw [h3]
  by_cases hvalid : Pte.valid.get (m3.ram l3 (pageRadix.digit 0 (va / pageSize))) = 1
  · rw [if_pos hvalid]
    refine ⟨hw.tree, fun x hx => ?_⟩
    rw [if_neg, hw.lookup]
    rintro ⟨rfl, hnone⟩
    exact hmapped.mp hvalid hnone
  · have hnone : pageRadix.lookup m.ram 3 root (va / pageSize % tableSize ^ 4) = none := by
      by_contra hsome
      exact hvalid (hmapped.mpr hsome)
    obtain ⟨hleaf, htype⟩ := leafDescriptor_get flags pa (by decide : 1 < 2)
    rw [if_neg hvalid]
    refine ⟨(hw.place (not_table_zero _) (page_leaf hleaf htype) (not_table_zero _)
      fun _ => htype).1, fun x hx => ?_⟩
    rw [write_ram_eq, hw.place_lookup (not_table_zero _) (page_leaf hleaf htype)
      (not_table_zero _) hx, pow_zero, Nat.div_one, Nat.div_one]
    by_cases hxv : x = va / pageSize % tableSize ^ 4
    · rw [if_pos hxv, if_pos ⟨hxv, hxv ▸ hnone⟩]
    · rw [if_neg hxv, if_neg fun h => hxv h.1]

/-- How far the page number `x` is above `v`, around the 48-bit space. -/
def pageOffset (v x : ℕ) : ℕ := (x + tableSize ^ 4 - v % tableSize ^ 4) % tableSize ^ 4

/-- The page at `va` has offset 0; the offset of the others shrinks by one when
`va` moves on by a page. -/
theorem pageOffset_next (va : ℕ) {x : ℕ} (hx : x < tableSize ^ 4) :
    (x = va / pageSize % tableSize ^ 4 → pageOffset (va / pageSize) x = 0 ∧
      pageOffset ((va + pageSize) % 2 ^ 64 / pageSize) x = tableSize ^ 4 - 1) ∧
    (x ≠ va / pageSize % tableSize ^ 4 → pageOffset (va / pageSize) x =
      pageOffset ((va + pageSize) % 2 ^ 64 / pageSize) x + 1) := by
  simp only [pageOffset, pageSize, tableSize] at *
  omega

theorem leafDescriptor_congr (flags isPage : ℕ) {pa pa' : ℕ}
    (h : pa / pageSize % 2 ^ 36 = pa' / pageSize % 2 ^ 36) :
    leafDescriptor flags isPage pa = leafDescriptor flags isPage pa' := by
  unfold leafDescriptor BitField.set
  exact congrArg (fun a => _ ||| (BitVec.ofNat 64 a <<< Pte.address.lsb)) h

/-- The `n` pages from `va` on that are unmapped are mapped in order. -/
theorem mapPages_lookup (flags : ℕ) (n : ℕ) (hn : n ≤ tableSize ^ 4) :
    ∀ (va pa : ℕ) (m : Machine), PageTree TableOrPage m.ram root →
      PagesRequests allocPt (TableGranted allocPt root) flags root n va pa m →
      ∃ m', mapPages allocPt flags root n va pa m = some m' ∧
        PageTree TableOrPage m'.ram root ∧
        ∀ x < tableSize ^ 4, pageRadix.lookup m'.ram 3 root x =
          if pageOffset (va / pageSize) x < n ∧
              pageRadix.lookup m.ram 3 root x = none then
            some (0, leafDescriptor flags 1
              (pa + pageOffset (va / pageSize) x * pageSize))
          else pageRadix.lookup m.ram 3 root x := by
  induction n with
  | zero =>
      intro va pa m ht _
      refine ⟨m, rfl, ht, fun x _ => ?_⟩
      rw [if_neg fun h => absurd h.1 (Nat.not_lt_zero _)]
  | succ n ih =>
      intro va pa m ht hreq
      obtain ⟨hpage, hrest⟩ := hreq
      obtain ⟨m1, hrun1, ht1, hlook1⟩ := mapPage_spec ht pa flags hpage
      obtain ⟨m', hrun, ht', hlook⟩ := ih (Nat.le_of_succ_le hn)
        ((va + pageSize) % 2 ^ 64) ((pa + pageSize) % 2 ^ 64) m1 ht1 (hrest m1 hrun1)
      refine ⟨m', ?_, ht', fun x hx => ?_⟩
      · rw [mapPages, hrun1]
        exact hrun
      obtain ⟨hfirst, hlater⟩ := pageOffset_next va hx
      rw [hlook x hx, hlook1 x hx]
      by_cases hxv : x = va / pageSize % tableSize ^ 4
      · -- the page of this round; the later ones leave it
        obtain ⟨hzero, hlast⟩ := hfirst hxv
        have hdone : ¬ tableSize ^ 4 - 1 < n := by omega
        rw [hzero, hlast, if_neg fun h => hdone h.1, Nat.zero_mul]
        by_cases hnone : pageRadix.lookup m.ram 3 root x = none
        · rw [if_pos ⟨hxv, hnone⟩, if_pos ⟨Nat.succ_pos n, hnone⟩]
          rfl
        · rw [if_neg fun h => hnone h.2, if_neg fun h => hnone h.2]
      · have hiff := hlater hxv
        generalize pageOffset ((va + pageSize) % 2 ^ 64 / pageSize) x = k at hiff ⊢
        simp only [hxv, false_and, if_false, hiff, Nat.succ_lt_succ_iff]
        have hleaf : leafDescriptor flags 1 ((pa + pageSize) % 2 ^ 64 + k * pageSize) =
            leafDescriptor flags 1 (pa + (k + 1) * pageSize) := by
          refine leafDescriptor_congr flags 1 ?_
          simp only [pageSize]
          omega
        rw [hleaf]

end Pages

/-! ## §3  A table allocator -/

def nextPage (m : Machine) : ℕ := m.stores.foldr (fun q n => max (q + 1) n) 1

def takeNextPage (m : Machine) : Option (ℕ × Machine) :=
  some (pageAddr (nextPage m), m.clearPage (nextPage m))

@[simp] theorem nextPage_clearPage (m : Machine) :
    nextPage (m.clearPage (nextPage m)) = nextPage m + 1 :=
  Nat.max_eq_left (Nat.le_succ _)

theorem nextPage_write {m : Machine} {t : ℕ} (ht : t < nextPage m) (j : ℕ) (w : Word) :
    nextPage (m.write t j w) = nextPage m :=
  Nat.max_eq_right ht

/-- `k` more pages can be handed out, all of them above the tree. -/
structure HasPages (P : ℕ → Word → Prop) (root k : ℕ) (m : Machine) : Prop where
  tree : PageTree P m.ram root
  above : ∀ q, 0 < pageRadix.tables m.ram 3 root q → q < nextPage m
  room : nextPage m + k ≤ ramPages

section NextPage

variable {P : ℕ → Word → Prop} {root v e t k : ℕ} {ram : ℕ → ℕ → Word}
  {m m' : Machine}

theorem HasPages.mono {j : ℕ} (hm : HasPages P root k m) (hj : j ≤ k) :
    HasPages P root j m :=
  ⟨hm.tree, hm.above, le_trans (Nat.add_le_add_left hj _) hm.room⟩

theorem HasPages.new (hm : HasPages P root (k + 1) m) :
    NewTable root (nextPage m) m.ram (m.clearPage (nextPage m)).ram where
  lt := Nat.lt_of_lt_of_le (Nat.lt_add_of_pos_right (Nat.succ_pos k)) hm.room
  outside := by
    by_contra hne
    exact absurd (hm.above _ (Nat.pos_of_ne_zero hne)) (Nat.lt_irrefl _)
  blank i := by rw [Machine.clearPage_ram, if_pos rfl]
  keep q hq := by rw [Machine.clearPage_ram, if_neg (Nat.ne_of_lt (hm.above q hq))]

theorem HasPages.step (hm : HasPages P root (k + 1) m) (table idx : ℕ) :
    StepRequests (TableGranted takeNextPage root) table idx m :=
  Or.inr ⟨_, _, rfl, hm.new⟩

theorem nextTable_hasPages (hP : Admits P) (hw : Walked P root v (e + 1) t ram m.ram)
    (hm : HasPages P root (k + 1) m)
    (hform : ∀ w, P (e + 1) w → Pte.valid.get w = 1 → Pte.type.get w = 1) {t' : ℕ}
    (hrun : nextTable takeNextPage t (pageRadix.digit (e + 1) v) m = some (t', m')) :
    Walked P root v e t' ram m'.ram ∧ HasPages P root k m' := by
  by_cases hv : Pte.valid.get (m.ram t (pageRadix.digit (e + 1) v)) = 1
  · rw [nextTable_valid takeNextPage hw.table_lt hv, Option.some.injEq,
      Prod.mk.injEq] at hrun
    obtain ⟨rfl, rfl⟩ := hrun
    exact ⟨hw.follow hv (hform _ hw.form hv), hm.mono (Nat.le_succ k)⟩
  · have hnew := hm.new
    have hword := tableDescriptor_names hnew.lt
    rw [nextTable_granted hw.table_lt hnew.lt hv rfl, Option.some.injEq,
      Prod.mk.injEq] at hrun
    obtain ⟨rfl, rfl⟩ := hrun
    have hw' := hw.enter hP hv hnew hword
    have hbelow : t < nextPage (m.clearPage (nextPage m)) := by
      rw [nextPage_clearPage]
      exact Nat.lt_succ_of_lt (hm.above t hw.reaches.tables_pos)
    refine ⟨hw', hw'.tree, ?_, ?_⟩
    · intro q hq
      rw [write_ram_eq, hw.enter_tables hP hv hnew hword q] at hq
      rw [nextPage_write hbelow, nextPage_clearPage]
      refine Nat.lt_succ_of_le ?_
      by_cases hqa : q = nextPage m
      · exact hqa.le
      · rw [if_neg hqa, Nat.add_zero] at hq
        exact (hm.above q hq).le
    · rw [nextPage_write hbelow, nextPage_clearPage, Nat.add_assoc, Nat.add_comm 1 k]
      exact hm.room

theorem HasPages.place {w : Word} (hm : HasPages P root k m)
    (hw : Walked P root v e t ram m.ram)
    (hold : pageRadix.table e (m.ram t (pageRadix.digit e v)) = false)
    (hleaf : pageRadix.leaf e w = true) (hnot : pageRadix.table e w = false)
    (hPw : P e w) : HasPages P root k (m.write t (pageRadix.digit e v) w) := by
  obtain ⟨htree, htables⟩ := hw.place hold hleaf hnot hPw
  have hnext := nextPage_write (hm.above t hw.reaches.tables_pos) (pageRadix.digit e v) w
  refine ⟨htree, fun q hq => ?_, ?_⟩
  · rw [write_ram_eq, htables q] at hq
    rw [hnext]
    exact hm.above q hq
  · rw [hnext]
    exact hm.room

theorem HasPages.page {va : ℕ} (hm : HasPages TableOrPage root (k + 3) m) :
    PageRequests takeNextPage (TableGranted takeNextPage root) va root m := by
  obtain ⟨h0, h1, h2, -⟩ := idx_eq va
  refine ⟨hm.step _ _, ?_⟩
  intro l1 m1 hrun1
  rw [h0] at hrun1
  obtain ⟨hw1, hm1⟩ := nextTable_hasPages tableOrPage_admits (Walked.start hm.tree) hm
    (fun _ hform => hform) hrun1
  refine ⟨hm1.step _ _, ?_⟩
  intro l2 m2 hrun2
  rw [h1] at hrun2
  obtain ⟨hw2, hm2⟩ := nextTable_hasPages tableOrPage_admits hw1 hm1
    (fun _ hform => hform) hrun2
  exact hm2.step _ _

theorem mapPage_hasPages {va pa flags : ℕ} (hm : HasPages TableOrPage root (k + 3) m)
    (hrun : mapPage takeNextPage va pa flags root m = some m') :
    HasPages TableOrPage root k m' := by
  obtain ⟨h0, h1, h2, h3⟩ := idx_eq va
  obtain ⟨l1, m1, l2, m2, l3, m3, hrun1, hrun2, hrun3, -⟩ :=
    walk_l3 tableOrPage_admits hm.tree (fun _ _ hform => hform) hm.page
  have hrun1' := hrun1
  have hrun2' := hrun2
  have hrun3' := hrun3
  rw [h0] at hrun1'
  rw [h1] at hrun2'
  rw [h2] at hrun3'
  obtain ⟨hw1, hm1⟩ := nextTable_hasPages tableOrPage_admits (Walked.start hm.tree) hm
    (fun _ hform => hform) hrun1'
  obtain ⟨hw2, hm2⟩ := nextTable_hasPages tableOrPage_admits hw1 hm1
    (fun _ hform => hform) hrun2'
  obtain ⟨hw3, hm3⟩ := nextTable_hasPages tableOrPage_admits hw2 hm2
    (fun _ hform => hform) hrun3'
  rw [mapPage_run hrun1 hrun2 hrun3 hw3.table_lt, Option.some.injEq] at hrun
  rw [← hrun]
  split_ifs with hvalid
  · exact hm3
  · obtain ⟨hleaf, htype⟩ := leafDescriptor_get flags pa (by decide : 1 < 2)
    rw [h3]
    exact hm3.place hw3 (not_table_zero _) (page_leaf hleaf htype) (not_table_zero _)
      fun _ => htype

theorem HasPages.pages {flags : ℕ} (n : ℕ) :
    ∀ (va pa : ℕ) (m : Machine), HasPages TableOrPage root (3 * n) m →
      PagesRequests takeNextPage (TableGranted takeNextPage root) flags root n
        va pa m := by
  induction n with
  | zero => exact fun _ _ _ _ => trivial
  | succ n ih =>
      intro va pa m hm
      exact ⟨hm.page, fun m' hrun => ih _ _ m' (mapPage_hasPages hm hrun)⟩

/-- A machine whose memory is blank, up to the pages handed out. -/
def blankMachine : Machine where
  buddy :=
    { frameMetadata := fun _ => ⟨1, 0, 0, 0⟩
      links := ⟨id, id⟩ }
  ram _ _ := 0
  stores := []

theorem zero_void {ram : ℕ → ℕ → Word} {p : ℕ} (hzero : ∀ i, ram p i = 0) (i : ℕ) :
    pageRadix.Void (ram p i) := by
  rw [hzero i]
  exact void_of_invalid (by decide)

theorem PageTree.blank (hP : Admits P) {ram : ℕ → ℕ → Word} (hroot : root < ramPages)
    (hzero : ∀ i, ram root i = 0) :
    PageTree P ram root ∧
      (∀ q, pageRadix.tables ram 3 root q = if q = root then 1 else 0) ∧
      ∀ x, pageRadix.lookup ram 3 root x = none := by
  have hvoid := zero_void hzero
  have htables : ∀ q, pageRadix.tables ram 3 root q = if q = root then 1 else 0 :=
    fun q => Radix.tables_void fun i _ => hvoid i
  refine ⟨⟨?_, Radix.every_void (fun i _ => hvoid i) ?_, ?_⟩, htables,
    fun x => Radix.lookup_void fun i _ => hvoid i⟩
  · intro q
    rw [htables q]
    split_ifs <;> decide
  · intro i _
    rw [hzero i]
    exact hP.zero 3
  · intro q hq
    rw [htables q] at hq
    by_cases hqr : q = root
    · exact hqr ▸ hroot
    · rw [if_neg hqr] at hq
      exact absurd hq (Nat.lt_irrefl 0)

theorem HasPages.blank (hP : Admits P) (hzero : ∀ i, m.ram 0 i = 0) (hstores : m.stores = []) :
    HasPages P 0 (ramPages - 1) m := by
  obtain ⟨htree, htables, -⟩ := PageTree.blank hP (by decide : 0 < ramPages) hzero
  have hnext : nextPage m = 1 := by rw [nextPage, hstores]; rfl
  refine ⟨htree, fun q hq => ?_, ?_⟩
  · rw [htables q] at hq
    by_cases hq0 : q = 0
    · rw [hq0, hnext]
      exact Nat.one_pos
    · rw [if_neg hq0] at hq
      exact absurd hq (Nat.lt_irrefl 0)
  · rw [hnext]
    exact Nat.le_refl _

theorem blankMachine_hasPages (hP : Admits P) : HasPages P 0 (ramPages - 1) blankMachine :=
  HasPages.blank hP (fun _ => rfl) rfl

theorem blank_void (i : ℕ) : pageRadix.Void (blankMachine.ram 0 i) :=
  zero_void (fun _ => rfl) i

end NextPage

/-! ## §4  What `map_pages` changes -/

/-- `map_pages` maps the unmapped pages of its range and leaves all other
translations as they are, if its tables are granted. -/
theorem mapPages_translate {allocPt : Machine → Option (ℕ × Machine)}
    {root va n pa flags : ℕ} {m : Machine} (ht : PageTree TableOrPage m.ram root)
    (hva : va % pageSize = 0) (hpa : pa % pageSize = 0)
    (hvend : va + n * pageSize ≤ 2 ^ 48) (hpend : pa + n * pageSize ≤ 2 ^ 48)
    (hreq : PagesRequests allocPt (TableGranted allocPt root) flags root n va pa m) :
    ∃ m', mapPages allocPt flags root n va pa m = some m' ∧
      PageTree TableOrPage m'.ram root ∧
      ∀ x < 2 ^ 48, translate m'.ram root x =
        if (va ≤ x ∧ x < va + n * pageSize) ∧ translate m.ram root x = none then
          some (pa + (x - va), parseBlockFlags flags 1)
        else translate m.ram root x := by
  have hn : n ≤ tableSize ^ 4 := by
    simp only [tableSize, pageSize] at *
    omega
  obtain ⟨m', hrun, ht', hlook⟩ := mapPages_lookup flags n hn va pa m ht hreq
  refine ⟨m', hrun, ht', fun x hx => ?_⟩
  have hx' : x / pageSize < tableSize ^ 4 := by
    simp only [tableSize, pageSize]
    omega
  -- a page of the range, as an offset and as a pair of bounds
  have hin : pageOffset (va / pageSize) (x / pageSize) < n ↔
      (va ≤ x ∧ x < va + n * pageSize) := by
    simp only [pageOffset, tableSize, pageSize] at *
    omega
  have hnone : translate m.ram root x = none ↔
      pageRadix.lookup m.ram 3 root (x / pageSize) = none := Option.map_eq_none_iff
  rw [translate, hlook _ hx']
  by_cases hmap : pageOffset (va / pageSize) (x / pageSize) < n ∧
      pageRadix.lookup m.ram 3 root (x / pageSize) = none
  · have hrange := hin.mp hmap.1
    obtain ⟨f, hf, hout⟩ : ∃ f, pa + pageOffset (va / pageSize) (x / pageSize) *
        pageSize = f * pageSize ∧ f < tableSize ^ 4 ∧
          f * pageSize + x % pageSize = pa + (x - va) := by
      refine ⟨pa / pageSize + pageOffset (va / pageSize) (x / pageSize), ?_⟩
      simp only [pageOffset, tableSize, pageSize] at *
      omega
    rw [if_pos hmap, if_pos ⟨hrange, hnone.mpr hmap.2⟩, Option.map_some, hf,
      leafDescriptor_output flags x hout.1, leafDescriptor_attributes flags _ (by decide),
      hout.2]
  · rw [if_neg hmap, if_neg fun h => hmap ⟨hin.mpr h.1, hnone.mp h.2⟩]
    rfl

end Rpos
