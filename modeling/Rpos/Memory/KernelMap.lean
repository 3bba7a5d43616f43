import Rpos.Base.Runs
import Rpos.Boot.BootTree
import Rpos.Memory.BuddyContract

/-!
# Mapping on the kernel's tables

The linear map of the boot covers every managed page, so each walk of `map`
on `L0_TABLE` for a managed page meets valid entries only. Under a table
descriptor it ends at a valid entry of level 3 and stores nothing. Under a
block descriptor `map_pages` takes the first page of the block for a table of
level 3, and stores there unless the word it meets has bit 0 set.
-/

namespace Rpos

open Base

/-! ## §1  Walks -/

def l2Entry (ram : ℕ → ℕ → Word) (root va : ℕ) : Word :=
  let l1 := Pte.address.get (ram root (idx0 va))
  let l2 := Pte.address.get (ram l1 (idx1 va))
  ram l2 (idx2 va)

/-- `map_pages` finds the page at `va` mapped, or ends at a table. -/
def FindsPage (ram : ℕ → ℕ → Word) (root va : ℕ) : Prop :=
  Pte.type.get (l2Entry ram root va) = 1 ∨
    Pte.valid.get (ram (Pte.address.get (l2Entry ram root va)) (idx3 va)) = 1

instance (ram : ℕ → ℕ → Word) (root va : ℕ) :
    Decidable (FindsPage ram root va) :=
  inferInstanceAs (Decidable (_ ∨ _))

theorem pageAddr_vaBase {q : ℕ} (h : q < ramPages) :
    pageAddr q = vaBase true + q * pageSize := by
  have hbase : vaBase true = virtBase := if_pos rfl
  rw [pageAddr_eq h, hbase, Nat.add_comm]

theorem indices_pageAddr {q : ℕ} (h : q < ramPages) :
    idx0 (pageAddr q) = 256 ∧ idx1 (pageAddr q) = 0 ∧
      idx2 (pageAddr q) = q / 512 ∧ idx3 (pageAddr q) = q % 512 := by
  rw [pageAddr_vaBase h]
  exact indices h

theorem pageAddr_succ (q : ℕ) :
    (pageAddr q + pageSize) % 2 ^ 64 = pageAddr (q + 1) := by
  simp only [pageAddr, paToVa, pageSize, virtBase]
  omega

theorem pageAddr_add_block (q : ℕ) :
    (pageAddr q + blockSize) % 2 ^ 64 = pageAddr (q + 512) := by
  simp only [pageAddr, paToVa, pageSize, virtBase, blockSize]
  omega

/-! ## §2  The linear map under a walk -/

theorem Names.congr {ram ram' : ℕ → ℕ → Word} {table p : ℕ}
    (h : ram' table = ram table) (hn : Names ram table p) :
    Names ram' table p := by
  unfold Names
  rw [h]
  exact hn

namespace LinearTree

variable {R root q : ℕ} {ram ram' : ℕ → ℕ → Word}

theorem tablePage_congr (h : ∀ p, TablePage ram root p → ram' p = ram p) {p : ℕ} :
    TablePage ram' root p ↔ TablePage ram root p := by
  have hroot := h root (Or.inl rfl)
  have hl1 : ∀ l1, Names ram root l1 → ram' l1 = ram l1 :=
    fun l1 hn => h l1 (Or.inr (Or.inl hn))
  have hl2 : ∀ l1 l2, Names ram root l1 → Names ram l1 l2 →
      ram' l2 = ram l2 :=
    fun l1 l2 hn1 hn2 => h l2 (Or.inr (Or.inr (Or.inl ⟨l1, hn1, hn2⟩)))
  constructor
  · rintro (rfl | hn | ⟨l1, hn1, hn⟩ | ⟨l1, l2, hn1, hn2, hn⟩)
    · exact Or.inl rfl
    · exact Or.inr (Or.inl (hn.congr hroot.symm))
    · have hn1' := hn1.congr hroot.symm
      exact Or.inr (Or.inr (Or.inl ⟨l1, hn1', hn.congr (hl1 l1 hn1').symm⟩))
    · have hn1' := hn1.congr hroot.symm
      have hn2' := hn2.congr (hl1 l1 hn1').symm
      exact Or.inr (Or.inr (Or.inr ⟨l1, l2, hn1', hn2',
        hn.congr (hl2 l1 l2 hn1' hn2').symm⟩))
  · rintro (rfl | hn | ⟨l1, hn1, hn⟩ | ⟨l1, l2, hn1, hn2, hn⟩)
    · exact Or.inl rfl
    · exact Or.inr (Or.inl (hn.congr hroot))
    · exact Or.inr (Or.inr (Or.inl ⟨l1, hn1.congr hroot,
        hn.congr (hl1 l1 hn1)⟩))
    · exact Or.inr (Or.inr (Or.inr ⟨l1, l2, hn1.congr hroot,
        hn2.congr (hl1 l1 hn1), hn.congr (hl2 l1 l2 hn1 hn2)⟩))

theorem blockTarget_congr (h : ∀ p, TablePage ram root p → ram' p = ram p) {p : ℕ}
    (hp : BlockTarget ram' root p) : BlockTarget ram root p := by
  have hroot := h root (Or.inl rfl)
  obtain ⟨l1, l2, i, hn1, hn2, hrest⟩ := hp
  have hn1' := hn1.congr hroot.symm
  have hl1 := h l1 (Or.inr (Or.inl hn1'))
  have hn2' := hn2.congr hl1.symm
  have hl2 := h l2 (Or.inr (Or.inr (Or.inl ⟨l1, hn1', hn2'⟩)))
  rw [hl2] at hrest
  exact ⟨l1, l2, i, hn1', hn2', hrest⟩

theorem congr (ht : LinearTree R ram root) (h : ∀ p < R, ram' p = ram p) :
    LinearTree R ram' root := by
  have htable : ∀ p, TablePage ram root p → ram' p = ram p :=
    fun p hp => h p (ht.tables p hp)
  refine ⟨?_, ?_, ?_⟩
  · intro p hp
    exact ht.tables p ((tablePage_congr htable).mp hp)
  · intro p hp hb
    exact ht.apart p ((tablePage_congr htable).mp hp) (blockTarget_congr htable hb)
  · intro q hq hlt
    obtain ⟨l1, l2, hv0, ht0, ha0, hv1, ht1, ha1, hv2, hend⟩ :=
      ht.covered q hq hlt
    have hn1 : Names ram root l1 := ⟨256, by decide, hv0, ht0, ha0⟩
    have hn2 : Names ram l1 l2 := ⟨0, by decide, hv1, ht1, ha1⟩
    have hroot := htable root (Or.inl rfl)
    have hl1 := htable l1 (Or.inr (Or.inl hn1))
    have hl2 := htable l2 (Or.inr (Or.inr (Or.inl ⟨l1, hn1, hn2⟩)))
    refine ⟨l1, l2, ?_⟩
    rw [hroot, hl1, hl2]
    refine ⟨hv0, ht0, ha0, hv1, ht1, ha1, hv2, ?_⟩
    rcases hend with ⟨htype, hR, hv3⟩ | hblock
    · refine Or.inl ⟨htype, hR, ?_⟩
      rw [htable _ (Or.inr (Or.inr (Or.inr ⟨l1, l2, hn1, hn2, q / 512,
        by simp only [ramPages, tableSize] at *; omega, hv2, htype, rfl⟩)))]
      exact hv3
    · exact Or.inr hblock

end LinearTree

/-- The walks for managed pages meet valid entries, of tables among the reserved pages `T`,
and end at a mapped page or at a block descriptor over managed pages. -/
structure LinearWalks (R : ℕ) (T : ℕ → Prop) (ram : ℕ → ℕ → Word) (root : ℕ) : Prop where
  reserved : ∀ p, T p → p < R
  top : T root
  covered : ∀ q, R ≤ q → q < ramPages → ∃ l1 l2, T l1 ∧ T l2 ∧
    Pte.valid.get (ram root 256) = 1 ∧ Pte.address.get (ram root 256) = l1 ∧
    Pte.valid.get (ram l1 0) = 1 ∧ Pte.address.get (ram l1 0) = l2 ∧
    Pte.valid.get (ram l2 (q / 512)) = 1 ∧
    (Pte.type.get (ram l2 (q / 512)) = 1 ∧ blockBase q < R ∧
        T (Pte.address.get (ram l2 (q / 512))) ∧
        Pte.valid.get (ram (Pte.address.get (ram l2 (q / 512))) (q % 512)) = 1 ∨
      Pte.type.get (ram l2 (q / 512)) = 0 ∧
        Pte.address.get (ram l2 (q / 512)) = blockBase q ∧ R ≤ blockBase q)

theorem LinearTree.walks {R root : ℕ} {T : ℕ → Prop} {ram : ℕ → ℕ → Word}
    (ht : LinearTree R ram root) (hT : ∀ p, TablePage ram root p → T p)
    (hR : ∀ p, T p → p < R) : LinearWalks R T ram root := by
  refine ⟨hR, hT _ (Or.inl rfl), fun q hq hlt => ?_⟩
  obtain ⟨l1, l2, hv0, ht0, ha0, hv1, ht1, ha1, hv2, hend⟩ := ht.covered q hq hlt
  have hn1 : Names ram root l1 := ⟨256, by decide, hv0, ht0, ha0⟩
  have hn2 : Names ram l1 l2 := ⟨0, by decide, hv1, ht1, ha1⟩
  have hi : q / 512 < tableSize := by
    simp only [ramPages, tableSize] at *
    omega
  refine ⟨l1, l2, hT _ (Or.inr (Or.inl hn1)), hT _ (Or.inr (Or.inr (Or.inl ⟨l1, hn1, hn2⟩))),
    hv0, ha0, hv1, ha1, hv2, ?_⟩
  rcases hend with ⟨htype, hbase, hv3⟩ | hblock
  · refine Or.inl ⟨htype, hbase, hT _ ?_, hv3⟩
    exact Or.inr (Or.inr (Or.inr ⟨l1, l2, hn1, hn2, q / 512, hi, hv2, htype, rfl⟩))
  · exact Or.inr hblock

theorem LinearTree.ownWalks {R root : ℕ} {ram : ℕ → ℕ → Word} (ht : LinearTree R ram root) :
    LinearWalks R (TablePage ram root) ram root :=
  ht.walks (fun _ hp => hp) ht.tables

namespace LinearWalks

variable {R root q : ℕ} {T : ℕ → Prop} {ram ram' : ℕ → ℕ → Word}

theorem congr (ht : LinearWalks R T ram root)
    (h : ∀ p, T p → ∀ i < tableSize, ram' p i = ram p i) : LinearWalks R T ram' root := by
  refine ⟨ht.reserved, ht.top, fun q hq hlt => ?_⟩
  obtain ⟨l1, l2, hT1, hT2, hv0, ha0, hv1, ha1, hv2, hend⟩ := ht.covered q hq hlt
  have hi : q / 512 < tableSize := by
    simp only [ramPages, tableSize] at *
    omega
  have hj : q % 512 < tableSize := Nat.mod_lt _ (by decide)
  refine ⟨l1, l2, hT1, hT2, ?_⟩
  rw [h root ht.top 256 (by decide), h l1 hT1 0 (by decide), h l2 hT2 _ hi]
  refine ⟨hv0, ha0, hv1, ha1, hv2, ?_⟩
  rcases hend with ⟨htype, hbase, hT3, hv3⟩ | hblock
  · exact Or.inl ⟨htype, hbase, hT3, by rwa [h _ hT3 _ hj]⟩
  · exact Or.inr hblock

/-- The walk for a managed page: two table descriptors, then a valid entry. -/
theorem walk (ht : LinearWalks R T ram root) (hq : R ≤ q) (hlt : q < ramPages) :
    ∃ l1 l2, T l1 ∧ T l2 ∧ Pte.valid.get (ram root 256) = 1 ∧
      Pte.address.get (ram root 256) = l1 ∧ Pte.valid.get (ram l1 0) = 1 ∧
      Pte.address.get (ram l1 0) = l2 ∧ Pte.valid.get (ram l2 (q / 512)) = 1 ∧
      l2Entry ram root (pageAddr q) = ram l2 (q / 512) := by
  obtain ⟨h0, h1, h2, -⟩ := indices_pageAddr hlt
  obtain ⟨l1, l2, hT1, hT2, hv0, rfl, hv1, rfl, hv2, -⟩ := ht.covered q hq hlt
  refine ⟨_, _, hT1, hT2, hv0, rfl, hv1, rfl, hv2, ?_⟩
  simp only [l2Entry, h0, h1, h2]

/-- Where the walk ends: at a mapped page of a level 3 table, or at a block
descriptor over managed pages. -/
theorem walk_end (ht : LinearWalks R T ram root) (hq : R ≤ q) (hlt : q < ramPages) :
    let e := l2Entry ram root (pageAddr q)
    Pte.type.get e = 1 ∧ blockBase q < R ∧ T (Pte.address.get e) ∧
        Pte.valid.get (ram (Pte.address.get e) (q % 512)) = 1 ∨
      Pte.type.get e = 0 ∧ Pte.address.get e = blockBase q ∧ R ≤ blockBase q := by
  obtain ⟨h0, h1, h2, -⟩ := indices_pageAddr hlt
  obtain ⟨l1, l2, -, -, -, rfl, -, rfl, -, hend⟩ := ht.covered q hq hlt
  have he : l2Entry ram root (pageAddr q) = ram
      (Pte.address.get (ram (Pte.address.get (ram root 256)) 0)) (q / 512) := by
    simp only [l2Entry, h0, h1, h2]
  simp only [he]
  exact hend

/-- A page that is not found lies under a block descriptor. -/
theorem blockBase_of_not_finds (ht : LinearWalks R T ram root) (hq : R ≤ q)
    (hlt : q < ramPages) (h : ¬ FindsPage ram root (pageAddr q)) : R ≤ blockBase q := by
  rcases ht.walk_end hq hlt with ⟨htype, -⟩ | ⟨-, -, hR⟩
  · exact absurd (Or.inl htype) h
  · exact hR

/-- Under a block descriptor a page is found if its word in the first page of the block has
bit 0 set. -/
theorem finds_iff (ht : LinearWalks R T ram root) (hR : R ≤ blockBase q) (hlt : q < ramPages) :
    FindsPage ram root (pageAddr q) ↔ Pte.valid.get (ram (blockBase q) (q % 512)) = 1 := by
  have hq : blockBase q ≤ q := Nat.mul_div_le q 512
  obtain ⟨-, -, -, h3⟩ := indices_pageAddr hlt
  rcases ht.walk_end (hR.trans hq) hlt with ⟨-, hlow, -⟩ | ⟨htype, haddr, -⟩
  · omega
  · rw [FindsPage, htype, haddr, h3]
    simp

end LinearWalks

/-! ## §3  The mapping functions on the linear map -/

section Maps

variable {R root q : ℕ} {T : ℕ → Prop} {m : Machine}
  (allocPt : Machine → Option (ℕ × Machine))

/-- The descriptor that `map_pages` stores. -/
def pageDescriptor (flags pa : ℕ) : Word :=
  Pte.address.set (parseBlockFlags flags 1) (pa / pageSize)

/-- The walk for a managed page comes to the table of its level 2 entry without an
allocation. -/
theorem LinearWalks.nextTables (ht : LinearWalks R T m.ram root)
    (hR : R ≤ ramPages) (hq : R ≤ q) (hlt : q < ramPages) :
    ∃ l1 l2, l2 < ramPages ∧ nextTable allocPt root 256 m = some (l1, m) ∧
      nextTable allocPt l1 0 m = some (l2, m) ∧ Pte.valid.get (m.ram l2 (q / 512)) = 1 ∧
      l2Entry m.ram root (pageAddr q) = m.ram l2 (q / 512) := by
  obtain ⟨l1, l2, hT1, hT2, hv0, ha0, hv1, ha1, hv2, he⟩ := ht.walk hq hlt
  have hroot := ht.reserved _ ht.top
  have hl1 := ht.reserved _ hT1
  have hl2 := ht.reserved _ hT2
  have hw0 := nextTable_valid (m := m) allocPt (by omega) hv0
  have hw1 := nextTable_valid (m := m) allocPt (by omega) hv1
  rw [ha0] at hw0
  rw [ha1] at hw1
  exact ⟨l1, l2, hl2.trans_le hR, hw0, hw1, hv2, he⟩

/-- `map_pages` on a managed page stores nothing, or stores a descriptor in
the first page of the block. -/
theorem LinearWalks.mapPage_eq (ht : LinearWalks R T m.ram root)
    (hR : R ≤ ramPages) (hq : R ≤ q) (hlt : q < ramPages) (pa flags : ℕ) :
    mapPage allocPt (pageAddr q) pa flags root m =
      some (if FindsPage m.ram root (pageAddr q) then m
        else m.write (blockBase q) (q % 512) (pageDescriptor flags pa)) := by
  obtain ⟨h0, h1, h2, h3⟩ := indices_pageAddr hlt
  obtain ⟨l1, l2, hl2, hw0, hw1, hv2, he⟩ := ht.nextTables allocPt hR hq hlt
  have hw2 := nextTable_valid (m := m) allocPt hl2 hv2
  rw [← he] at hw2
  have hrun : mapPage allocPt (pageAddr q) pa flags root m =
      (m.read (Pte.address.get (l2Entry m.ram root (pageAddr q)))
        (q % 512)).bind fun entry =>
          if Pte.valid.get entry = 1 then some m
          else m.store (Pte.address.get (l2Entry m.ram root (pageAddr q)))
            (q % 512) (pageDescriptor flags pa) := by
    unfold mapPage
    rw [h0, h1, h2, h3, hw0]
    show (nextTable allocPt l1 0 m).bind _ = _
    rw [hw1]
    show (nextTable allocPt l2 (q / 512) m).bind _ = _
    rw [hw2]
    rfl
  rw [hrun]
  rcases ht.walk_end hq hlt with
    ⟨htype, -, hT3, hv3⟩ | ⟨-, haddr, hRbase⟩
  · have hl3 := ht.reserved _ hT3
    have hfinds : FindsPage m.ram root (pageAddr q) := Or.inl htype
    rw [Machine.read_eq _ (by omega), if_pos hfinds]
    exact if_pos hv3
  · have hbase : blockBase q < ramPages := by
      unfold blockBase
      omega
    have hfinds := ht.finds_iff hRbase hlt
    rw [haddr, Machine.read_eq _ hbase]
    show (if Pte.valid.get (m.ram (blockBase q) (q % 512)) = 1 then _ else _) = _
    by_cases hv : Pte.valid.get (m.ram (blockBase q) (q % 512)) = 1
    · rw [if_pos hv, if_pos (hfinds.mpr hv)]
    · rw [if_neg hv, if_neg fun h => hv (hfinds.mp h),
        Machine.store_eq _ _ hbase]

/-- Storing to a managed page leaves the walks as they are. -/
theorem LinearWalks.write (ht : LinearWalks R T m.ram root) {p : ℕ} (hp : R ≤ p) (i : ℕ)
    (w : Word) : LinearWalks R T (m.write p i w).ram root := by
  refine ht.congr fun x hx j _ => ?_
  have hlt := ht.reserved x hx
  rw [m.write_ram_ne w (by omega)]

/-- Storing a descriptor for `q` leaves what the walks for other pages find. -/
theorem LinearWalks.finds_write (ht : LinearWalks R T m.ram root) {x : ℕ}
    (hq : R ≤ q) (hlt : q < ramPages) (hx : R ≤ x) (hxlt : x < ramPages)
    (hne : x ≠ q) (hnot : ¬ FindsPage m.ram root (pageAddr q)) (w : Word) :
    FindsPage (m.write (blockBase q) (q % 512) w).ram root (pageAddr x) ↔
      FindsPage m.ram root (pageAddr x) := by
  obtain ⟨h0, h1, h2, h3⟩ := indices_pageAddr hxlt
  obtain ⟨l1, l2, hT1, hT2, hv0, ha0, hv1, ha1, hv2, he⟩ := ht.walk hx hxlt
  have hbase := ht.blockBase_of_not_finds hq hlt hnot
  have hkeep : ∀ p, T p → (m.write (blockBase q) (q % 512) w).ram p = m.ram p := by
    intro p hp
    have hlt := ht.reserved p hp
    exact m.write_ram_ne w (by omega)
  have he' : l2Entry (m.write (blockBase q) (q % 512) w).ram root
      (pageAddr x) = l2Entry m.ram root (pageAddr x) := by
    simp only [l2Entry, h0, h1, h2, hkeep root ht.top, ha0, hkeep l1 hT1, ha1,
      hkeep l2 hT2]
  unfold FindsPage
  rw [he', h3]
  rcases ht.walk_end hx hxlt with ⟨htype, -⟩ | ⟨htype, haddr, -⟩
  · simp only [htype, true_or]
  · rw [haddr, Machine.write_ram, if_neg]
    rintro ⟨hb, hm⟩
    simp only [blockBase] at hb
    omega

/-- What a call of `map` on managed pages changes: it stores to the first
pages of the blocks in `P` and changes no other page. -/
structure Strays (R : ℕ) (P : ℕ → Prop) (m m' : Machine) : Prop where
  buddy : m'.buddy = m.buddy
  stores : ∃ new, m'.stores = new ++ m.stores ∧ ∀ p, p ∈ new ↔ P p
  frame : ∀ p, ¬ P p → m'.ram p = m.ram p

/-- The pages that `map_pages` on `[q, q + n)` takes for tables. -/
def StrayPages (ram : ℕ → ℕ → Word) (root q n p : ℕ) : Prop :=
  ∃ x, q ≤ x ∧ x < q + n ∧ ¬ FindsPage ram root (pageAddr x) ∧
    p = blockBase x

theorem LinearWalks.mapPages_spec (flags : ℕ) (n : ℕ) :
    ∀ (q pa : ℕ) (m : Machine), LinearWalks R T m.ram root → R ≤ ramPages →
      R ≤ q → q + n ≤ ramPages →
      ∃ m', mapPages allocPt flags root n (pageAddr q) pa m = some m' ∧
        Strays R (StrayPages m.ram root q n) m m' := by
  induction n with
  | zero =>
      intro q pa m _ _ _ _
      refine ⟨m, rfl, rfl, ⟨[], rfl, ?_⟩, fun _ _ => rfl⟩
      rintro p
      simp only [List.not_mem_nil, false_iff]
      rintro ⟨x, hl, hh, -⟩
      omega
  | succ n ih =>
      intro q pa m ht hR hq hram
      have hpage := ht.mapPage_eq allocPt hR hq (by omega) pa flags
      rw [mapPages, hpage]
      show ∃ m', mapPages allocPt flags root n ((pageAddr q + pageSize) % 2 ^ 64)
        ((pa + pageSize) % 2 ^ 64) _ = some m' ∧ _
      rw [pageAddr_succ]
      by_cases hf : FindsPage m.ram root (pageAddr q)
      · rw [if_pos hf]
        obtain ⟨m', hrun, hb, ⟨new, hnew, hmem⟩, hframe⟩ :=
          ih (q + 1) ((pa + pageSize) % 2 ^ 64) m ht hR (by omega) (by omega)
        have hsame : ∀ p, StrayPages m.ram root q (n + 1) p ↔
            StrayPages m.ram root (q + 1) n p := by
          intro p
          constructor
          · rintro ⟨x, hl, hh, hx, rfl⟩
            have hne : x ≠ q := by
              rintro rfl
              exact hx hf
            exact ⟨x, by omega, by omega, hx, rfl⟩
          · rintro ⟨x, hl, hh, hx, rfl⟩
            exact ⟨x, by omega, by omega, hx, rfl⟩
        exact ⟨m', hrun, hb, ⟨new, hnew, fun p => (hmem p).trans (hsame p).symm⟩,
          fun p hp => hframe p fun h => hp ((hsame p).mpr h)⟩
      · rw [if_neg hf]
        have hbase := ht.blockBase_of_not_finds hq (by omega) hf
        obtain ⟨m', hrun, hb, ⟨new, hnew, hmem⟩, hframe⟩ :=
          ih (q + 1) ((pa + pageSize) % 2 ^ 64) _ (ht.write hbase _ _) hR (by omega)
            (by omega)
        -- the rest of the loop finds what it would have found before
        have hsame : ∀ p, StrayPages m.ram root q (n + 1) p ↔
            p = blockBase q ∨ StrayPages (m.write (blockBase q) (q % 512)
              (pageDescriptor flags pa)).ram root (q + 1) n p := by
          intro p
          constructor
          · rintro ⟨x, hl, hh, hx, rfl⟩
            by_cases hxq : x = q
            · exact Or.inl (hxq ▸ rfl)
            · refine Or.inr ⟨x, by omega, by omega, ?_, rfl⟩
              rwa [ht.finds_write hq (by omega) (by omega) (by omega) hxq hf]
          · rintro (rfl | ⟨x, hl, hh, hx, rfl⟩)
            · exact ⟨q, Nat.le_refl q, by omega, hf, rfl⟩
            · refine ⟨x, by omega, by omega, ?_, rfl⟩
              rwa [ht.finds_write hq (by omega) (by omega) (by omega) (by omega)
                hf] at hx
        refine ⟨m', hrun, hb, ⟨new ++ [blockBase q], ?_, ?_⟩, ?_⟩
        · rw [hnew, Machine.write_stores, List.append_assoc]
          rfl
        · intro p
          rw [List.mem_append, List.mem_singleton, hmem p, hsame p]
          exact or_comm
        · intro p hp
          rw [hsame p, not_or] at hp
          rw [hframe p hp.2, Machine.write_ram_ne _ _ hp.1]

/-- The words that it stores to: in the first page of the block, the one that stands for
the page. -/
theorem LinearWalks.mapPages_words (flags : ℕ) (n : ℕ) :
    ∀ (q pa : ℕ) (m m' : Machine), LinearWalks R T m.ram root → R ≤ ramPages →
      R ≤ q → q + n ≤ ramPages →
      mapPages allocPt flags root n (pageAddr q) pa m = some m' →
      ∀ p k, (∀ x, q ≤ x → x < q + n → ¬ FindsPage m.ram root (pageAddr x) →
        p = blockBase x → k ≠ x % 512) → m'.ram p k = m.ram p k := by
  induction n with
  | zero =>
      rintro q pa m m' _ _ _ _ ⟨⟩ p k _
      rfl
  | succ n ih =>
      intro q pa m m' ht hR hq hram hrun p k hword
      rw [mapPages, ht.mapPage_eq allocPt hR hq (by omega) pa flags, Option.bind_eq_bind,
        Option.bind_some, pageAddr_succ] at hrun
      by_cases hf : FindsPage m.ram root (pageAddr q)
      · rw [if_pos hf] at hrun
        exact ih (q + 1) _ m m' ht hR (by omega) (by omega) hrun p k
          fun x hl hh => hword x (by omega) (by omega)
      · rw [if_neg hf] at hrun
        have hbase := ht.blockBase_of_not_finds hq (by omega) hf
        have hrest := ih (q + 1) _ _ m' (ht.write hbase _ _) hR (by omega) (by omega) hrun p k
          fun x hl hh hx => hword x (by omega) (by omega) fun hfx => hx
            ((ht.finds_write hq (by omega) (by omega) (by omega) (by omega) hf _).mpr hfx)
        rw [hrest, Machine.write_ram, if_neg]
        rintro ⟨hp, hk⟩
        exact hword q le_rfl (by omega) hf hp hk

theorem LinearWalks.mapBlocks_spec (flags : ℕ) (ht : LinearWalks R T m.ram root)
    (hR : R ≤ ramPages) (n : ℕ) :
    ∀ (q pa : ℕ), R ≤ q → q + 512 * n ≤ ramPages →
      mapBlocks allocPt flags root n (pageAddr q) pa m = some m := by
  induction n with
  | zero => exact fun _ _ _ _ => rfl
  | succ n ih =>
      intro q pa hq hram
      have hlt : q < ramPages := by omega
      obtain ⟨h0, h1, h2, -⟩ := indices_pageAddr hlt
      obtain ⟨l1, l2, hl2, hw0, hw1, hv2, -⟩ := ht.nextTables allocPt hR hq hlt
      have hblock : mapBlock allocPt (pageAddr q) pa flags root m = some m := by
        unfold mapBlock
        rw [h0, h1, h2, hw0]
        show (nextTable allocPt l1 0 m).bind _ = _
        rw [hw1]
        show (m.read l2 (q / 512)).bind _ = _
        rw [Machine.read_eq _ hl2]
        exact if_pos hv2
      rw [mapBlocks, hblock]
      show mapBlocks allocPt flags root n ((pageAddr q + blockSize) % 2 ^ 64) _
        m = _
      rw [pageAddr_add_block]
      exact ih (q + 512) _ (by omega) (by omega)

end Maps

/-! ## §4  Runs -/

/-- Calls on `L0_TABLE`; the pages mapped are given by their numbers. -/
inductive KernelOp
  | buddyAlloc (bytes : ℕ)
  | buddyFree (addr : ℕ)
  | map (page pa blockOrder flags : ℕ)
  | mapPages (page pa blocks flags : ℕ)
  | mapBlocks (page pa blocks flags : ℕ)
  | buddyAllocPt
deriving DecidableEq, Repr

def KernelOp.Ok (R : ℕ) : KernelOp → Prop
  | .buddyAlloc bytes => bytes ≤ 2 ^ 30
  | .buddyFree addr => ∃ pa < 2 ^ 30, addr = paToVa pa
  | .map page _ blockOrder _ => R ≤ page ∧ page + 2 ^ blockOrder ≤ ramPages
  | .mapPages page _ blocks _ => R ≤ page ∧ page + blocks ≤ ramPages
  | .mapBlocks page _ blocks _ => R ≤ page ∧ page + 512 * blocks ≤ ramPages
  | .buddyAllocPt => True

/-- One call, with the address it returns. The record of stores starts anew
with each call. -/
def kernelStep (l0Table : ℕ) (m : Machine) :
    KernelOp → Option (Option ℕ × Machine)
  | .buddyAlloc bytes =>
      (({ m with stores := [] } : Machine).buddyAlloc bytes).map
        fun r => (some r.1, r.2)
  | .buddyFree addr =>
      (buddyFree addr m.buddy).map
        fun b => (none, { m with buddy := b, stores := [] })
  | .map page pa blockOrder flags =>
      (kernelMap l0Table (pageAddr page) pa blockOrder flags l0Table
        { m with stores := [] }).map fun m => (none, m)
  | .mapPages page pa blocks flags =>
      (mapPages (buddyAllocPt l0Table) flags l0Table blocks (pageAddr page) pa
        { m with stores := [] }).map fun m => (none, m)
  | .mapBlocks page pa blocks flags =>
      (mapBlocks (buddyAllocPt l0Table) flags l0Table blocks (pageAddr page) pa
        { m with stores := [] }).map fun m => (none, m)
  | .buddyAllocPt =>
      (buddyAllocPt l0Table { m with stores := [] }).map
        fun r => (some r.1, r.2)

/-- The page that `buddy_alloc_pt` has just allocated. -/
def Fresh (op : KernelOp) (w : Option ℕ) (p : ℕ) : Prop :=
  op = .buddyAllocPt ∧ w = some (pageAddr p)

/-- A call stores to tables of the kernel's tree and to the page just
allocated, never to the target of a block descriptor otherwise, and changes
no other page. -/
structure Contained (l0Table : ℕ) (m : Machine) (op : KernelOp)
    (w : Option ℕ) (m' : Machine) : Prop where
  stores : ∀ p ∈ m'.stores, TablePage m'.ram l0Table p ∨ Fresh op w p
  blocks : ∀ p ∈ m'.stores, BlockTarget m'.ram l0Table p → Fresh op w p
  frame : ∀ p, m'.ram p ≠ m.ram p → TablePage m'.ram l0Table p ∨ Fresh op w p

/-- No page that the call maps with `map_pages` lies under a block descriptor
whose page has bit 0 clear in the word the walk meets, the page just allocated
excepted. -/
def Meets (l0Table : ℕ) (m : Machine) : KernelOp → Prop
  | .map page _ blockOrder _ => (9 ≤ blockOrder ∧ page % 512 = 0) ∨
      ∀ x, page ≤ x → x < page + 2 ^ blockOrder →
        FindsPage m.ram l0Table (pageAddr x)
  | .mapPages page _ blocks _ => ∀ x, page ≤ x → x < page + blocks →
      FindsPage m.ram l0Table (pageAddr x)
  | .buddyAllocPt => ∀ p b, p < ramPages →
      buddyAlloc pageSize m.buddy = some (pageAddr p, b) →
      FindsPage m.ram l0Table (pageAddr p) ∨ p % 512 = 0
  | _ => True

structure KernelOk (R l0Table : ℕ) (m : Machine) : Prop where
  buddy : BuddyOk R m.buddy
  tree : LinearTree R m.ram l0Table

section Steps

variable {R l0Table : ℕ} {m m' : Machine} {op : KernelOp} {w : Option ℕ}

/-- Stores to managed pages are contained if they go to the page just
allocated. -/
theorem contained_iff {P : ℕ → Prop} (ht : LinearTree R m'.ram l0Table)
    (hP : ∀ p, P p → R ≤ p) (hstores : ∀ p, p ∈ m'.stores ↔ P p)
    (hframe : ∀ p, ¬ P p → m'.ram p = m.ram p) :
    Contained l0Table m op w m' ↔ ∀ p, P p → Fresh op w p := by
  constructor
  · intro hc p hp
    rcases hc.stores p ((hstores p).mpr hp) with htable | hfresh
    · have hlt := ht.tables p htable
      have hle := hP p hp
      omega
    · exact hfresh
  · intro hall
    have hstores' : ∀ p ∈ m'.stores, Fresh op w p :=
      fun p hp => hall p ((hstores p).mp hp)
    refine ⟨fun p hp => Or.inr (hstores' p hp), fun p hp _ => hstores' p hp, ?_⟩
    intro p hne
    by_cases hp : P p
    · exact Or.inr (hall p hp)
    · exact absurd (hframe p hp) hne

theorem stray_managed {ram : ℕ → ℕ → Word} (ht : LinearTree R ram l0Table)
    {q n p : ℕ} (hq : R ≤ q) (hram : q + n ≤ ramPages)
    (hp : StrayPages ram l0Table q n p) : R ≤ p ∧ p < ramPages := by
  obtain ⟨x, hl, hh, hx, rfl⟩ := hp
  refine ⟨ht.ownWalks.blockBase_of_not_finds (by omega) (by omega) hx, ?_⟩
  unfold blockBase
  omega

theorem mapPages_contained (hm : KernelOk R l0Table m) (hR : R ≤ ramPages)
    {q n : ℕ} (hq : R ≤ q) (hram : q + n ≤ ramPages) (pa flags : ℕ)
    (hop : op ≠ .buddyAllocPt) :
    ∃ m', mapPages (buddyAllocPt l0Table) flags l0Table n (pageAddr q) pa
        { m with stores := [] } = some m' ∧ KernelOk R l0Table m' ∧
      (Contained l0Table m op none m' ↔ ∀ x, q ≤ x → x < q + n →
        FindsPage m.ram l0Table (pageAddr x)) := by
  obtain ⟨m', hrun, hb, ⟨new, hnew, hmem⟩, hframe⟩ :=
    LinearWalks.mapPages_spec (buddyAllocPt l0Table) flags n q pa
      { m with stores := [] } hm.tree.ownWalks hR hq hram
  have hstores : m'.stores = new := by
    rw [hnew, List.append_nil]
  have htree : LinearTree R m'.ram l0Table := by
    refine hm.tree.congr fun p hp => hframe p ?_
    intro hstray
    have hle := (stray_managed hm.tree hq hram hstray).1
    omega
  have hiff : Contained l0Table m op none m' ↔ _ := contained_iff htree
    (fun p hp => (stray_managed hm.tree hq hram hp).1)
    (fun p => by rw [hstores]; exact hmem p) hframe
  refine ⟨m', hrun, ⟨hb ▸ hm.buddy, htree⟩, hiff.trans ?_⟩
  constructor
  · intro hall x hl hh
    by_contra hx
    exact hop (hall _ ⟨x, hl, hh, hx, rfl⟩).1
  · rintro hall p ⟨x, hl, hh, hx, -⟩
    exact absurd (hall x hl hh) hx

theorem contained_of_same (hs : m'.stores = []) (hr : m'.ram = m.ram) :
    Contained l0Table m op w m' := by
  refine ⟨?_, ?_, ?_⟩
  · intro p hp
    rw [hs] at hp
    exact absurd hp List.not_mem_nil
  · intro p hp
    rw [hs] at hp
    exact absurd hp List.not_mem_nil
  · intro p hp
    exact absurd (congrFun hr p) hp

theorem BuddyOk.alloc {b : Buddy} (hb : BuddyOk R b) (hR : 2048 ≤ R)
    {bytes : ℕ} (hbytes : bytes ≤ 2 ^ 30) :
    ∃ page b', buddyAlloc bytes b = some (page, b') ∧ BuddyOk R b' ∧
      (page = 0 ∨ ∃ p, page = pageAddr p ∧ R ≤ p ∧ p < ramPages) := by
  obtain ⟨w, b', hstep, hb', hspec, -⟩ :=
    buddyStep_spec hR b (.alloc bytes) hb hbytes
  rw [buddyStep, Option.map_eq_some_iff] at hstep
  obtain ⟨⟨page, b''⟩, hrun, heq⟩ := hstep
  rw [Prod.mk.injEq] at heq
  obtain ⟨hw, rfl⟩ := heq
  refine ⟨page, b'', hrun, hb', ?_⟩
  rcases hspec.alloc_result bytes rfl with ⟨p, k, rfl, hlo, hhi, -⟩ | ⟨rfl, -⟩
  · have hpos := Nat.two_pow_pos k
    exact Or.inr ⟨p, Option.some.inj hw, hlo, by omega⟩
  · exact Or.inl (Option.some.inj hw)

theorem buddyAllocPtFuel_succ (fuel : ℕ) :
    buddyAllocPtFuel l0Table (fuel + 1) m =
      (m.buddyAlloc pageSize).bind fun r =>
        if r.1 = 0 then some (0, r.2)
        else
          (map (buddyAllocPtFuel l0Table fuel) r.1 (vaToPa r.1) 0
            (mapKernel ||| mapRead ||| mapWrite) l0Table r.2).bind fun m =>
              some (r.1, m.clearPage (vaToPa r.1 / pageSize)) := rfl

/-- `buddy_alloc_pt` refuses, or clears a managed page, after a store to the
first page of its block if the walk for it strays. -/
theorem buddyAllocPtFuel_spec (hm : KernelOk R l0Table m) (hR : 2048 ≤ R)
    (hR' : R ≤ ramPages) (fuel : ℕ) :
    ∃ page b, buddyAlloc pageSize m.buddy = some (page, b) ∧ BuddyOk R b ∧
      (page = 0 ∧ buddyAllocPtFuel l0Table (fuel + 1) m =
          some (0, { m with buddy := b }) ∨
        ∃ p m', page = pageAddr p ∧ R ≤ p ∧ p < ramPages ∧
          Strays R (StrayPages m.ram l0Table p 1) { m with buddy := b } m' ∧
          buddyAllocPtFuel l0Table (fuel + 1) m =
            some (pageAddr p, m'.clearPage p)) := by
  obtain ⟨page, b, hrun, hb, hpage⟩ := hm.buddy.alloc hR
    (show pageSize ≤ 2 ^ 30 by decide)
  have halloc : m.buddyAlloc pageSize = some (page, { m with buddy := b }) := by
    rw [Machine.buddyAlloc, hrun]
    rfl
  refine ⟨page, b, hrun, hb, ?_⟩
  rw [buddyAllocPtFuel_succ, halloc]
  rcases hpage with hnull | ⟨p, hpage, hp, hlt⟩
  · refine Or.inl ⟨hnull, ?_⟩
    simp only [Option.bind_some, hnull, if_true]
  · refine Or.inr ?_
    have hne : page ≠ 0 := by
      rw [hpage]
      exact pageAddr_ne_zero hlt
    have hpfn : vaToPa page / pageSize = p := by
      rw [hpage]
      exact vaToPa_pageAddr hlt
    obtain ⟨m', hmap, hstray⟩ := LinearWalks.mapPages_spec
      (buddyAllocPtFuel l0Table fuel) (mapKernel ||| mapRead ||| mapWrite)
      1 p (vaToPa page) { m with buddy := b } hm.tree.ownWalks hR' hp
      (Nat.succ_le_of_lt hlt)
    rw [← hpage] at hmap
    have hmap' : map (buddyAllocPtFuel l0Table fuel) page (vaToPa page) 0
        (mapKernel ||| mapRead ||| mapWrite) l0Table { m with buddy := b } =
          some m' := by
      rw [map, if_neg (by omega), pow_zero]
      exact hmap
    refine ⟨p, m', hpage, hp, hlt, hstray, ?_⟩
    rw [Option.bind_some, if_neg hne, hmap', Option.bind_some, hpfn, hpage]

/-- Every call returns and keeps the tree and the allocator; it is contained
exactly when it meets no clear word under a block descriptor. -/
theorem kernelStep_spec (hR : 2048 ≤ R) (hR' : R ≤ ramPages)
    (hm : KernelOk R l0Table m) (hop : op.Ok R) :
    ∃ w m', kernelStep l0Table m op = some (w, m') ∧ KernelOk R l0Table m' ∧
      (Contained l0Table m op w m' ↔ Meets l0Table m op) := by
  cases op with
  | buddyAlloc bytes =>
      obtain ⟨page, b, hrun, hb, -⟩ := hm.buddy.alloc hR hop
      refine ⟨some page, { m with buddy := b, stores := [] }, ?_,
        ⟨hb, hm.tree⟩, iff_of_true (contained_of_same rfl rfl) trivial⟩
      simp only [kernelStep, Machine.buddyAlloc, hrun]
      rfl
  | buddyFree addr =>
      obtain ⟨w, b, hrun, hb, -⟩ := buddyStep_spec hR m.buddy (.free addr)
        hm.buddy hop
      rw [buddyStep, Option.map_eq_some_iff] at hrun
      obtain ⟨b', hrun, heq⟩ := hrun
      rw [Prod.mk.injEq] at heq
      obtain ⟨-, rfl⟩ := heq
      refine ⟨none, { m with buddy := b', stores := [] }, ?_, ⟨hb, hm.tree⟩,
        iff_of_true (contained_of_same rfl rfl) trivial⟩
      simp only [kernelStep, hrun]
      rfl
  | map page pa blockOrder flags =>
      obtain ⟨hp, hram⟩ := hop
      have hpos := Nat.two_pow_pos blockOrder
      obtain ⟨-, -, -, h3⟩ := indices_pageAddr (q := page) (by omega)
      by_cases hblocks : 9 ≤ blockOrder ∧ page % 512 = 0
      · have hpages : 512 * 2 ^ (blockOrder - 9) = 2 ^ blockOrder := by
          have h9 : (512 : ℕ) = 2 ^ 9 := rfl
          rw [h9, ← Nat.pow_add, Nat.add_sub_cancel' hblocks.1]
        have hrun := LinearWalks.mapBlocks_spec (m := { m with stores := [] })
          (buddyAllocPt l0Table) flags hm.tree.ownWalks hR' (2 ^ (blockOrder - 9)) page
          pa hp (by omega)
        refine ⟨none, { m with stores := [] }, ?_, ⟨hm.buddy, hm.tree⟩,
          iff_of_true (contained_of_same rfl rfl) (Or.inl hblocks)⟩
        simp only [kernelStep, kernelMap, map, h3]
        rw [if_pos hblocks, hrun]
        rfl
      · obtain ⟨m', hrun, hm', hiff⟩ := mapPages_contained hm hR' hp hram pa
          flags (show KernelOp.map page pa blockOrder flags ≠ .buddyAllocPt by simp)
        refine ⟨none, m', ?_, hm', hiff.trans ?_⟩
        · simp only [kernelStep, kernelMap, map, h3]
          rw [if_neg hblocks, hrun]
          rfl
        · exact (or_iff_right hblocks).symm
  | mapPages page pa blocks flags =>
      obtain ⟨m', hrun, hm', hiff⟩ := mapPages_contained hm hR' hop.1 hop.2 pa
        flags (show KernelOp.mapPages page pa blocks flags ≠ .buddyAllocPt by simp)
      refine ⟨none, m', ?_, hm', hiff⟩
      simp only [kernelStep, hrun]
      rfl
  | mapBlocks page pa blocks flags =>
      have hrun := LinearWalks.mapBlocks_spec (m := { m with stores := [] })
        (buddyAllocPt l0Table) flags hm.tree.ownWalks hR' blocks page pa hop.1 hop.2
      refine ⟨none, { m with stores := [] }, ?_, ⟨hm.buddy, hm.tree⟩,
        iff_of_true (contained_of_same rfl rfl) trivial⟩
      simp only [kernelStep, hrun]
      rfl
  | buddyAllocPt =>
      obtain ⟨page, b, halloc, hb, hspec⟩ :=
        buddyAllocPtFuel_spec (m := { m with stores := [] })
          ⟨hm.buddy, hm.tree⟩ hR hR' ramPages
      rcases hspec with ⟨hpage, hrun⟩ | ⟨p, m', hpage, hp, hlt, hstray, hrun⟩
      · refine ⟨some 0, { m with buddy := b, stores := [] }, ?_, ⟨hb, hm.tree⟩,
          iff_of_true (contained_of_same rfl rfl) ?_⟩
        · rw [kernelStep, buddyAllocPt, hrun]
          rfl
        · intro p b' hlt halloc'
          rw [halloc, hpage, Option.some.injEq, Prod.mk.injEq] at halloc'
          exact absurd halloc'.1.symm (pageAddr_ne_zero hlt)
      · obtain ⟨hb', ⟨new, hnew, hmem⟩, hframe⟩ := hstray
        have hone : p + 1 ≤ ramPages := hlt
        have hmanaged : ∀ x, x = p ∨ StrayPages m.ram l0Table p 1 x → R ≤ x := by
          rintro x (rfl | hx)
          · exact hp
          · exact (stray_managed hm.tree hp hone hx).1
        have hframe' : ∀ x, ¬ (x = p ∨ StrayPages m.ram l0Table p 1 x) →
            (m'.clearPage p).ram x = m.ram x := by
          intro x hx
          rw [not_or] at hx
          rw [Machine.clearPage_ram, if_neg hx.1, hframe x hx.2]
        have htree : LinearTree R (m'.clearPage p).ram l0Table := by
          refine hm.tree.congr fun x hx => hframe' x ?_
          intro h
          have hle := hmanaged x h
          omega
        have hstores : ∀ x, x ∈ (m'.clearPage p).stores ↔
            x = p ∨ StrayPages m.ram l0Table p 1 x := by
          intro x
          rw [Machine.clearPage_stores, hnew, List.append_nil, List.mem_cons,
            hmem x]
        refine ⟨some (pageAddr p), m'.clearPage p, ?_,
          ⟨by rw [Machine.clearPage_buddy, hb']; exact hb, htree⟩,
          (contained_iff htree hmanaged hstores hframe').trans ?_⟩
        · rw [kernelStep, buddyAllocPt, hrun]
          rfl
        constructor
        · intro hall q b' hq halloc'
          rw [halloc, hpage, Option.some.injEq, Prod.mk.injEq] at halloc'
          obtain rfl := pageAddr_inj hlt hq halloc'.1
          by_cases hx : FindsPage m.ram l0Table (pageAddr p)
          · exact Or.inl hx
          · have hstray : StrayPages m.ram l0Table p 1 (blockBase p) :=
              ⟨p, Nat.le_refl p, Nat.lt_succ_self p, hx, rfl⟩
            have hlt' := (stray_managed hm.tree hp hone hstray).2
            have hfresh := (hall _ (Or.inr hstray)).2
            have heq := pageAddr_inj hlt hlt' (Option.some.inj hfresh)
            unfold blockBase at heq
            exact Or.inr (by omega)
        · rintro hmeets x (rfl | ⟨y, hl, hh, hy, rfl⟩)
          · exact ⟨rfl, rfl⟩
          · obtain rfl : y = p := by omega
            rw [hpage] at halloc
            rcases hmeets y b hlt halloc with hf | haligned
            · exact absurd hf hy
            · have hbase : blockBase y = y := by
                unfold blockBase
                omega
              rw [hbase]
              exact ⟨rfl, rfl⟩

end Steps

/-! ## §5  From the boot on -/

section Boot

variable {l : Layout}

/-- The frame array just initialised, over the tables and the other contents
of `ram`. -/
def startMachine (reservedMemory : ℕ) (ram : ℕ → ℕ → Word) (b : Buddy) :
    Machine where
  buddy := initializePageFrameArray reservedMemory b
  ram := ram
  stores := []

theorem startMachine_ok {mem root : ℕ} {ram : ℕ → ℕ → Word}
    (hlo : 2048 ≤ reservedPages mem) (hhi : reservedPages mem ≤ ramPages)
    (ht : LinearTree (reservedPages mem) ram root) (b : Buddy) :
    KernelOk (reservedPages mem) root (startMachine mem ram b) :=
  ⟨initializePageFrameArray_ok hlo hhi b, ht⟩

/-- The machine that the boot leaves, with the trees of `map_high`. -/
def bootMachine (l : Layout) (ram : ℕ → ℕ → Word) (b : Buddy) : Machine :=
  startMachine l.reservedMemory (mapHigh l ram).2.2.ram b

theorem bootMachine_buddy (l : Layout) (ram : ℕ → ℕ → Word) (b : Buddy) :
    (bootMachine l ram b).buddy =
      initializePageFrameArray l.reservedMemory b := by
  rw [bootMachine, startMachine]

theorem startMachine_ram (reservedMemory : ℕ) (ram : ℕ → ℕ → Word) (b : Buddy) :
    (startMachine reservedMemory ram b).ram = ram := by
  rw [startMachine]

theorem bootMachine_ram (l : Layout) (ram : ℕ → ℕ → Word) (b : Buddy) :
    (bootMachine l ram b).ram = (mapHigh l ram).2.2.ram := by
  rw [bootMachine, startMachine_ram]

theorem Layout.Ok.reserved (hl : l.Ok) :
    2048 ≤ reservedPages l.reservedMemory ∧
      reservedPages l.reservedMemory ≤ ramPages := by
  obtain ⟨-, -, -, -, -, -, -, -, -, -, -, hst, hSR, hR⟩ := hl.pages
  exact ⟨by omega, hR⟩

theorem bootMachine_ok (hl : l.Ok) (ram : ℕ → ℕ → Word) (b : Buddy) :
    KernelOk (reservedPages l.reservedMemory) (mapHigh l ram).1
      (bootMachine l ram b) := by
  obtain ⟨hlo, hhi⟩ := hl.reserved
  exact startMachine_ok hlo hhi (mapHigh_linearTree hl ram) b

/-- A kernel whose image ends at 16 MiB. -/
def smallLayout : Layout where
  kernelHighStart := 0xFFFF800000080000
  textStart := 0xFFFF800000100000
  textEnd := 0xFFFF800000200000
  rodataStart := 0xFFFF800000200000
  rodataEnd := 0xFFFF800000300000
  bssStart := 0xFFFF800000300000
  bssEnd := 0xFFFF800000400000
  kstackBottomHi := 0xFFFF800000400000
  kstackTopHi := 0xFFFF800000402000
  pageFrameArrayStart := 0xFFFF800000402000
  pageFrameArrayEnd := 0xFFFF800000C02000
  staticPageRegionStart := 0xFFFF800000C02000
  testPhysLoc := 0xC66000
  testSize := 0x39A000
  enableMmu := 0x80000

theorem smallLayout_ok : smallLayout.Ok := by
  constructor <;>
    simp [smallLayout, Layout.reservedMemory, pageSize, virtBase, staticPages]

/-- From the boot on, every call on the kernel's tables returns, and a run
stores to tables and to pages just allocated, and nowhere else, exactly when
no `map_pages` of it meets a clear word under a block descriptor. -/
theorem kernelCalls_contained_iff (hl : l.Ok) (ram : ℕ → ℕ → Word) (b : Buddy)
    (ops : List KernelOp)
    (hops : ∀ op ∈ ops, op.Ok (reservedPages l.reservedMemory)) :
    let root := (mapHigh l ram).1
    let m := bootMachine l ram b
    (∃ outs m', exec (kernelStep root) m ops = some (outs, m')) ∧
      (Along (kernelStep root) (Contained root) m ops ↔
        Along (kernelStep root) (fun m op _ _ => Meets root m op) m ops) := by
  intro root m
  obtain ⟨hlo, hhi⟩ := hl.reserved
  have hm := bootMachine_ok hl ram b
  have hstep := fun m (op : KernelOp) (hm : KernelOk _ root m) hop =>
    kernelStep_spec hlo hhi hm (show op.Ok _ from hop)
  obtain ⟨outs, m', hexec, -⟩ := exec_inv (fun m op hm hop => by
    obtain ⟨w, m', hrun, hm', -⟩ := hstep m op hm hop
    exact ⟨w, m', hrun, hm'⟩) ops m hm hops
  exact ⟨⟨outs, m', hexec⟩, along_iff hstep ops m hm hops⟩

theorem kernelCalls_contained_iff_example :
    let ram := fun _ _ => 0
    let root := (mapHigh smallLayout ram).1
    let m := bootMachine smallLayout ram blankBuddy
    let ops := [KernelOp.buddyAllocPt, .map 258048 (258048 * 4096) 9 0, .buddyAllocPt]
    (∃ outs m', exec (kernelStep root) m ops = some (outs, m')) ∧
      (Along (kernelStep root) (Contained root) m ops ↔
        Along (kernelStep root) (fun m op _ _ => Meets root m op) m ops) := by
  refine kernelCalls_contained_iff smallLayout_ok (fun _ _ => 0) blankBuddy _ ?_
  simp only [List.mem_cons, List.not_mem_nil, or_false, forall_eq_or_imp, forall_eq, KernelOp.Ok]
  decide

end Boot

/-! ## §6  A stray store -/

theorem smallLayout_reserved :
    reservedPages smallLayout.reservedMemory = 4096 := by decide

/-- `L0_TABLE` of the small kernel. -/
def smallRoot : ℕ := (mapHigh smallLayout fun _ _ => 0).1

/-- The free lists that the initialisation leaves over 4096 reserved pages. -/
def smallLists : ℕ → List ℕ :=
  initialLists (ramPages - 4096) (maxOrder + 1) 4096 fun _ => []

theorem buddyAlloc_small (b : Buddy) :
    ∃ b1 b2, buddyAlloc pageSize
        (initializePageFrameArray smallLayout.reservedMemory b) =
          some (pageAddr 258048, b1) ∧
      buddyAlloc pageSize b1 = some (pageAddr 258049, b2) ∧
      (b1.frameMetadata 258048).refcount = 1 := by
  have hr := initializePageFrameArray_rep b
    (show 0 < reservedPages smallLayout.reservedMemory by decide) (by decide)
  rw [smallLayout_reserved] at hr
  have hempty : ∀ j < 12, smallLists j = [] := by decide
  have hfirst : smallLists 12 = [258048] := by decide
  have hsecond : grantLists 258048 0 12 smallLists 0 = [258049] := by decide
  obtain ⟨b1, hb1, hr1, hg⟩ := buddyAlloc_page hr (by decide) hempty hfirst
  obtain ⟨b2, hb2, -, -⟩ := buddyAlloc_page hr1 (Nat.zero_le _)
    (fun j hj => absurd hj (Nat.not_lt_zero j)) hsecond
  exact ⟨b1, b2, hb1, hb2, hg.refcount⟩

/-- The walk for a page under a cleared block base does not find it. -/
theorem LinearTree.not_finds {R root q : ℕ} {ram : ℕ → ℕ → Word}
    (ht : LinearTree R ram root) (hq : R ≤ blockBase q) (hlt : q < ramPages)
    (hclear : ram (blockBase q) = fun _ => 0) :
    ¬ FindsPage ram root (pageAddr q) := by
  rw [ht.ownWalks.finds_iff hq hlt, hclear, BitField.get_zero]
  decide

/-- If the allocator grants the first page of a block and then another page
of that block, two calls of `buddy_alloc_pt` stray. -/
theorem second_alloc_strays {R root p q : ℕ} {m : Machine} {b1 b2 : Buddy}
    (hm : KernelOk R root m) (hlo : 2048 ≤ R) (hhi : R ≤ ramPages)
    (h1 : buddyAlloc pageSize m.buddy = some (pageAddr p, b1))
    (h2 : buddyAlloc pageSize b1 = some (pageAddr q, b2)) (hp : R ≤ p)
    (hq : q < ramPages) (hbase : blockBase q = p) (hne : q ≠ p) :
    ¬ Along (kernelStep root) (Contained root) m
      [.buddyAllocPt, .buddyAllocPt] := by
  have hple : blockBase q ≤ q := by
    unfold blockBase
    omega
  have hplt : p < ramPages := by omega
  rintro ⟨w, m1, hstep1, -, w', m2, hstep2, hc, -⟩
  obtain ⟨w1, m1', hrun1, hm1, -⟩ :=
    kernelStep_spec hlo hhi hm (show KernelOp.buddyAllocPt.Ok _ from trivial)
  obtain ⟨w2, m2', hrun2, -, hiff⟩ :=
    kernelStep_spec (m := m1) hlo hhi (by
      rw [hstep1, Option.some.injEq, Prod.mk.injEq] at hrun1
      exact hrun1.2 ▸ hm1) (show KernelOp.buddyAllocPt.Ok _ from trivial)
  rw [hstep1, Option.some.injEq, Prod.mk.injEq] at hrun1
  rw [hstep2, Option.some.injEq, Prod.mk.injEq] at hrun2
  obtain ⟨rfl, rfl⟩ := hrun1
  obtain ⟨rfl, rfl⟩ := hrun2
  obtain ⟨page, b, halloc, -, hspec⟩ :=
    buddyAllocPtFuel_spec (m := { m with stores := [] }) ⟨hm.buddy, hm.tree⟩
      hlo hhi ramPages
  rw [h1, Option.some.injEq, Prod.mk.injEq] at halloc
  obtain ⟨hpage, rfl⟩ := halloc
  rcases hspec with ⟨hnull, -⟩ | ⟨p', m', hpage', -, hlt', hstray, hrun⟩
  · rw [hnull] at hpage
    exact absurd hpage (pageAddr_ne_zero hplt)
  rw [hpage'] at hpage
  obtain rfl := pageAddr_inj hplt hlt' hpage
  rw [kernelStep, buddyAllocPt, hrun, Option.map_some, Option.some.injEq,
    Prod.mk.injEq] at hstep1
  obtain ⟨-, rfl⟩ := hstep1
  have hmeets := hiff.mp hc q b2 hq (by
    rw [Machine.clearPage_buddy, hstray.buddy]
    exact h2)
  rcases hmeets with hf | haligned
  · refine hm1.tree.not_finds (by omega) hq ?_ hf
    rw [hbase, Machine.clearPage_ram, if_pos rfl]
  · unfold blockBase at hbase
    omega

/-- The second call of `buddy_alloc_pt` stores to the page that the first one
returned. -/
theorem second_table_strays :
    let root := (mapHigh smallLayout fun _ _ => 0).1
    let m := bootMachine smallLayout (fun _ _ => 0) blankBuddy
    let ops := [KernelOp.buddyAllocPt, KernelOp.buddyAllocPt]
    (∀ op ∈ ops, op.Ok (reservedPages smallLayout.reservedMemory)) ∧
      ¬ Along (kernelStep root) (Contained root) m ops := by
  intro root m ops
  have hm := bootMachine_ok smallLayout_ok (fun _ _ => 0) blankBuddy
  have hlo : 2048 ≤ reservedPages smallLayout.reservedMemory := by decide
  have hhi : reservedPages smallLayout.reservedMemory ≤ ramPages := by decide
  have hops : ∀ op ∈ ops, op.Ok (reservedPages smallLayout.reservedMemory) := by
    intro op hop
    simp only [ops, List.mem_cons, List.not_mem_nil, or_false, or_self] at hop
    rw [hop]
    trivial
  obtain ⟨b1, b2, h1, h2, -⟩ := buddyAlloc_small blankBuddy
  rw [← bootMachine_buddy smallLayout fun _ _ => 0] at h1
  exact ⟨hops, second_alloc_strays (p := 258048) (q := 258049) hm hlo hhi h1 h2
    (by decide) (by decide) (by decide) (by decide)⟩

end Rpos
