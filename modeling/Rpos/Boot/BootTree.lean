import Mathlib.Data.Set.Insert
import Rpos.Boot.HighHalf

/-!
# The trees that the boot mapper builds

Each static page handed out has a role: the root, the level 1, the level 2 or
one of the level 3 tables of the high or of the low tree. `BootShape` says
that every valid entry of a page fits its role: it names the next table, or,
at level 2, it is a block descriptor over 512 pages that are all mapped. The
mapper only turns invalid entries into valid ones (`Grows`), so what a walk
has reached stays reached.
-/

namespace Rpos

open Base

/-! ## §1  Roles -/

/-- The role of a table page; `hi` tells the high tree from the low one. -/
inductive Slot
  | l0 (hi : Bool)
  | l1 (hi : Bool)
  | l2 (hi : Bool)
  | l3 (hi : Bool) (chunk : ℕ)
deriving DecidableEq, Repr

/-- The entry of the root that covers the first GiB of a tree's addresses. -/
def rootIdx (hi : Bool) : ℕ := if hi then 256 else 0

def vaBase (hi : Bool) : ℕ := if hi then virtBase else 0

/-- What a valid entry `w` at index `i` of a table in a slot has to be. `D` is
the set of pages mapped. Block descriptors leave out the pages from `S`, the
start of the static pages, to `R`, the number of reserved pages, and a level 3
table has a reserved page in its range. -/
def EntryOk (S R : ℕ) (role : ℕ → Option Slot) (D : Bool → Set ℕ) :
    Slot → ℕ → Word → Prop
  | .l0 h, i, w => i = rootIdx h ∧ Pte.type.get w = 1 ∧
      role (Pte.address.get w) = some (.l1 h)
  | .l1 h, i, w => i = 0 ∧ Pte.type.get w = 1 ∧
      role (Pte.address.get w) = some (.l2 h)
  | .l2 h, i, w =>
      (Pte.type.get w = 1 ∧ role (Pte.address.get w) = some (.l3 h i) ∧
        (∃ q ∈ D h, q / 512 = i) ∧ 512 * i < R) ∨
      (Pte.type.get w = 0 ∧ Pte.address.get w = 512 * i ∧
        (∀ q, q / 512 = i → q ∈ D h) ∧
        (512 * (i + 1) ≤ S ∨ R ≤ 512 * i))
  | .l3 _ _, _, _ => True

def Extends (role role' : ℕ → Option Slot) : Prop :=
  ∀ p s, role p = some s → role' p = some s

theorem Extends.refl (role : ℕ → Option Slot) : Extends role role :=
  fun _ _ h => h

theorem Extends.trans {r r' r'' : ℕ → Option Slot} (h : Extends r r')
    (h' : Extends r' r'') : Extends r r'' :=
  fun p s hp => h' p s (h p s hp)

theorem EntryOk.mono {S R : ℕ} {role role' : ℕ → Option Slot}
    {D D' : Bool → Set ℕ} {s : Slot} {i : ℕ} {w : Word}
    (h : EntryOk S R role D s i w) (hrole : Extends role role')
    (hD : ∀ b, D b ⊆ D' b) : EntryOk S R role' D' s i w := by
  cases s with
  | l0 b => exact ⟨h.1, h.2.1, hrole _ _ h.2.2⟩
  | l1 b => exact ⟨h.1, h.2.1, hrole _ _ h.2.2⟩
  | l2 b =>
      rcases h with ⟨ht, hr, ⟨q, hq, hqi⟩, hR⟩ | ⟨ht, ha, hall, hR⟩
      · exact Or.inl ⟨ht, hrole _ _ hr, ⟨q, hD b hq, hqi⟩, hR⟩
      · exact Or.inr ⟨ht, ha, fun q hq => hD b (hall q hq), hR⟩
  | l3 b c => trivial

/-- The pages with a role are the static pages handed out, and their valid
entries fit. -/
structure BootShape (S R : ℕ) (b : Boot) (role : ℕ → Option Slot)
    (D : Bool → Set ℕ) : Prop where
  owned : ∀ p s, role p = some s → S ≤ p ∧ p < S + b.loAllocatedPages
  shape : ∀ p s, role p = some s → ∀ i, Pte.valid.get (b.ram p i) = 1 →
    EntryOk S R role D s i (b.ram p i)

def Grows (role : ℕ → Option Slot) (b b' : Boot) : Prop :=
  ∀ p s, role p = some s → ∀ i, Pte.valid.get (b.ram p i) = 1 →
    b'.ram p i = b.ram p i

theorem Grows.refl (role : ℕ → Option Slot) (b : Boot) : Grows role b b :=
  fun _ _ _ _ _ => rfl

theorem Grows.trans {role role' : ℕ → Option Slot} {b b' b'' : Boot}
    (he : Extends role role') (h : Grows role b b') (h' : Grows role' b' b'') :
    Grows role b b'' := by
  intro p s hp i hv
  have hb := h p s hp i hv
  rw [h' p s (he p s hp) i (by rwa [hb]), hb]

theorem BootShape.mono {S R : ℕ} {b : Boot} {role : ℕ → Option Slot}
    {D D' : Bool → Set ℕ} (hb : BootShape S R b role D)
    (hD : ∀ h, D h ⊆ D' h) : BootShape S R b role D' :=
  ⟨hb.owned, fun p s hp i hv =>
    (hb.shape p s hp i hv).mono (Extends.refl role) hD⟩

/-! ## §2  One step of the walk -/

theorem kCodeTableMapping_valid (a : ℕ) :
    Pte.valid.get (Pte.address.set kCodeTableMapping a) = 1 := by
  rw [BitField.get_set_of_disjoint (by decide)]
  decide

theorem kCodeTableMapping_type (a : ℕ) :
    Pte.type.get (Pte.address.set kCodeTableMapping a) = 1 := by
  rw [BitField.get_set_of_disjoint (by decide)]
  decide

section Walk

variable {S R : ℕ} {b : Boot} {role : ℕ → Option Slot} {D : Bool → Set ℕ}

theorem allocPageTableLo_spec (hb : BootShape S R b role D) (c : Slot) :
    let r := allocPageTableLo S b
    let page := S + b.loAllocatedPages
    r.1 / pageSize = page ∧ role page = none ∧
      r.2.loAllocatedPages = b.loAllocatedPages + 1 ∧
      (∀ p, p ≠ page → r.2.ram p = b.ram p) ∧
      BootShape S R r.2 (Function.update role page (some c)) D := by
  intro r page
  have hpage : r.1 / pageSize = page := by
    show (S * pageSize + pageSize * b.loAllocatedPages) / pageSize = _
    rw [Nat.mul_comm S, ← Nat.mul_add]
    exact Nat.mul_div_cancel_left _ (by decide)
  have hfresh : role page = none := by
    cases h : role page with
    | none => rfl
    | some s => exact absurd (hb.owned page s h).2 (Nat.lt_irrefl _)
  have hother : ∀ p, p ≠ page → r.2.ram p = b.ram p := by
    intro p hp
    show Function.update b.ram (r.1 / pageSize) _ p = _
    rw [hpage, Function.update_of_ne hp]
  refine ⟨hpage, hfresh, rfl, hother, ?_, ?_⟩
  · intro p s hp
    have halloc : r.2.loAllocatedPages = b.loAllocatedPages + 1 := rfl
    by_cases he : p = page
    · omega
    · rw [Function.update_of_ne he] at hp
      have hown := hb.owned p s hp
      omega
  · intro p s hp i hv
    by_cases he : p = page
    · have hzero : r.2.ram p i = 0 := by
        show Function.update b.ram (r.1 / pageSize) (fun _ => 0) p i = 0
        rw [hpage, he, Function.update_self]
      rw [hzero, BitField.get_zero] at hv
      exact absurd hv (by decide)
    · rw [Function.update_of_ne he] at hp
      rw [hother p he] at hv ⊢
      refine (hb.shape p s hp i hv).mono ?_ fun _ => Set.Subset.refl _
      intro x t hx
      have hne : x ≠ page := by
        rintro rfl
        rw [hfresh] at hx
        cases hx
      rw [Function.update_of_ne hne]
      exact hx

/-- The walk reaches the table of role `c`, handed out if need be. -/
theorem nextTableLo_spec {p i : ℕ} {s c : Slot} (hb : BootShape S R b role D)
    (hp : role p = some s) (hcap : S + b.loAllocatedPages < ramPages)
    (hold : Pte.valid.get (b.ram p i) = 1 →
      Pte.type.get (b.ram p i) = 1 ∧
        role (Pte.address.get (b.ram p i)) = some c)
    (hnew : ∀ role' w, Pte.type.get w = 1 →
      role' (Pte.address.get w) = some c → EntryOk S R role' D s i w) :
    let r := nextTableLo S p i b
    ∃ role', Extends role role' ∧ BootShape S R r.2 role' D ∧
      role' r.1 = some c ∧ Grows role b r.2 ∧
      Pte.valid.get (r.2.ram p i) = 1 ∧ Pte.type.get (r.2.ram p i) = 1 ∧
      Pte.address.get (r.2.ram p i) = r.1 ∧
      r.2.loAllocatedPages ≤ b.loAllocatedPages + 1 ∧
      (Pte.valid.get (b.ram p i) = 1 → r.2 = b) := by
  intro r
  by_cases hv : Pte.valid.get (b.ram p i) = 1
  · have hr : r = (Pte.address.get (b.ram p i), b) := if_pos hv
    obtain ⟨ht, hc⟩ := hold hv
    rw [hr]
    exact ⟨role, Extends.refl role, hb, hc, Grows.refl role b, hv, ht, rfl,
      Nat.le_succ _, fun _ => rfl⟩
  obtain ⟨hpage, hfresh, hcount, hother, hb'⟩ := allocPageTableLo_spec hb c
  generalize hq : S + b.loAllocatedPages = q at *
  have hne : p ≠ q := by
    rintro rfl
    rw [hfresh] at hp
    cases hp
  let w := Pte.address.set kCodeTableMapping q
  have hw : Pte.address.get w = q := by
    rw [BitField.get_set, Nat.mod_eq_of_lt]
    exact Nat.lt_of_lt_of_le hcap (by decide)
  have hr : r = (Pte.address.get w, (allocPageTableLo S b).2.write p i w) := by
    show nextTableLo S p i b = _
    unfold nextTableLo
    rw [if_neg hv]
    simp only [hpage, w]
  rw [hr, hw]
  have hself : ((allocPageTableLo S b).2.write p i w).ram p i = w := by
    simp [Boot.write_ram]
  have hextends : Extends role (Function.update role q (some c)) := by
    intro x t hx
    have hxq : x ≠ q := by
      rintro rfl
      rw [hfresh] at hx
      cases hx
    rw [Function.update_of_ne hxq]
    exact hx
  have hcq : Function.update role q (some c) q = some c :=
    Function.update_self q (some c) role
  refine ⟨Function.update role q (some c), hextends, ⟨hb'.owned, ?_⟩, hcq, ?_,
    ?_, ?_, ?_, hcount.le, fun h => absurd h hv⟩
  · intro x t hx j hj
    rw [Boot.write_ram] at hj ⊢
    by_cases hxi : x = p ∧ j = i
    · obtain ⟨rfl, rfl⟩ := hxi
      rw [Function.update_of_ne hne, hp, Option.some.injEq] at hx
      subst hx
      rw [if_pos ⟨rfl, rfl⟩]
      exact hnew _ w (kCodeTableMapping_type q) (hw.symm ▸ hcq)
    · rw [if_neg hxi] at hj ⊢
      exact hb'.shape x t hx j hj
  · intro x t hx j hj
    have hxq : x ≠ q := by
      rintro rfl
      rw [hfresh] at hx
      cases hx
    rw [Boot.write_ram, hother x hxq, if_neg]
    rintro ⟨rfl, rfl⟩
    exact hv hj
  · rw [hself]
    exact kCodeTableMapping_valid q
  · rw [hself]
    exact kCodeTableMapping_type q
  · rw [hself]
    exact hw

def ReachesL2 (b : Boot) (root : ℕ) (h : Bool) (l2 : ℕ) : Prop :=
  ∃ l1, Pte.valid.get (b.ram root (rootIdx h)) = 1 ∧
    Pte.address.get (b.ram root (rootIdx h)) = l1 ∧
    Pte.valid.get (b.ram l1 0) = 1 ∧ Pte.address.get (b.ram l1 0) = l2

def ReachesL3 (b : Boot) (root : ℕ) (h : Bool) (i : ℕ) : Prop :=
  ∃ l2, ReachesL2 b root h l2 ∧ Pte.valid.get (b.ram l2 i) = 1 ∧
    Pte.type.get (b.ram l2 i) = 1

/-- The page `q` is mapped, by a page or by a block descriptor. -/
def Covered (b : Boot) (root : ℕ) (h : Bool) (q : ℕ) : Prop :=
  ∃ l2, ReachesL2 b root h l2 ∧ Pte.valid.get (b.ram l2 (q / 512)) = 1 ∧
    (Pte.type.get (b.ram l2 (q / 512)) = 0 ∨
      Pte.type.get (b.ram l2 (q / 512)) = 1 ∧ Pte.valid.get
        (b.ram (Pte.address.get (b.ram l2 (q / 512))) (q % 512)) = 1)

variable {root : ℕ} {h : Bool}

theorem ReachesL2.unique {l2 l2' : ℕ} (hl : ReachesL2 b root h l2)
    (hl' : ReachesL2 b root h l2') : l2 = l2' := by
  obtain ⟨l1, -, rfl, -, rfl⟩ := hl
  obtain ⟨l1', -, rfl, -, rfl⟩ := hl'
  rfl

theorem ReachesL2.slot (hb : BootShape S R b role D)
    (hroot : role root = some (.l0 h)) {l2 : ℕ} (hl : ReachesL2 b root h l2) :
    ∃ l1, role l1 = some (.l1 h) ∧ role l2 = some (.l2 h) ∧
      Pte.address.get (b.ram root (rootIdx h)) = l1 := by
  obtain ⟨l1, hv, rfl, hv', rfl⟩ := hl
  have hl1 := (hb.shape root _ hroot _ hv).2.2
  exact ⟨_, hl1, (hb.shape _ _ hl1 _ hv').2.2, rfl⟩

theorem ReachesL2.grows {b' : Boot} (hb : BootShape S R b role D)
    (hroot : role root = some (.l0 h)) (hg : Grows role b b') {l2 : ℕ}
    (hl : ReachesL2 b root h l2) : ReachesL2 b' root h l2 := by
  obtain ⟨l1, hv, rfl, hv', hl2⟩ := hl
  have hl1 := (hb.shape root _ hroot _ hv).2.2
  have he := hg root _ hroot _ hv
  have he' := hg _ _ hl1 _ hv'
  refine ⟨Pte.address.get (b.ram root (rootIdx h)), ?_, ?_, ?_, ?_⟩
  · rw [he, hv]
  · rw [he]
  · rw [he', hv']
  · rw [he', hl2]

theorem Covered.grows {b' : Boot} {q : ℕ} (hb : BootShape S R b role D)
    (hroot : role root = some (.l0 h)) (hg : Grows role b b')
    (hc : Covered b root h q) : Covered b' root h q := by
  obtain ⟨l2, hl, hv, hleaf⟩ := hc
  obtain ⟨l1, -, hrole, -⟩ := hl.slot hb hroot
  have he := hg _ _ hrole _ hv
  refine ⟨l2, hl.grows hb hroot hg, by rw [he, hv], ?_⟩
  rw [he]
  rcases hleaf with ht | ⟨ht, hv'⟩
  · exact Or.inl ht
  · refine Or.inr ⟨ht, ?_⟩
    rcases hb.shape _ _ hrole _ hv with ⟨-, hl3, -⟩ | ⟨ht', -⟩
    · rw [hg _ _ hl3 _ hv', hv']
    · rw [ht] at ht'
      exact absurd ht' (by decide)

/-- The first two steps of the walk reach the level 2 table. -/
theorem walkL2_spec (hb : BootShape S R b role D)
    (hroot : role root = some (.l0 h))
    (hcap : S + b.loAllocatedPages + 1 < ramPages) :
    let r1 := nextTableLo S root (rootIdx h) b
    let r2 := nextTableLo S r1.1 0 r1.2
    ∃ role', Extends role role' ∧ BootShape S R r2.2 role' D ∧
      role' r2.1 = some (.l2 h) ∧ Grows role b r2.2 ∧
      ReachesL2 r2.2 root h r2.1 ∧
      r2.2.loAllocatedPages ≤ b.loAllocatedPages + 2 ∧
      ∀ l2, ReachesL2 b root h l2 → r2.2 = b := by
  intro r1 r2
  obtain ⟨role1, he1, hb1, hc1, hg1, hv1, ht1, ha1, hn1, hid1⟩ :=
    nextTableLo_spec (c := .l1 h) hb hroot (by omega)
      (fun hv => (hb.shape root _ hroot _ hv).2)
      (fun role' w ht hr => ⟨rfl, ht, hr⟩)
  obtain ⟨role2, he2, hb2, hc2, hg2, hv2, ht2, ha2, hn2, hid2⟩ :=
    nextTableLo_spec (i := 0) (c := .l2 h) hb1 hc1 (by omega)
      (fun hv => (hb1.shape _ _ hc1 _ hv).2)
      (fun role' w ht hr => ⟨rfl, ht, hr⟩)
  have hroot1 := he1 _ _ hroot
  have hkeep := hg2 root _ hroot1 _ hv1
  refine ⟨role2, he1.trans he2, hb2, hc2, hg1.trans he1 hg2, ?_,
    hn2.trans (Nat.add_le_add_right hn1 1), ?_⟩
  · refine ⟨r1.1, ?_, ?_, hv2, ha2⟩
    · show Pte.valid.get (r2.2.ram root _) = 1
      rw [hkeep]
      exact hv1
    · show Pte.address.get (r2.2.ram root _) = _
      rw [hkeep]
      exact ha1
  · rintro l2 ⟨l1, hv, rfl, hv', -⟩
    have hb1' : r1.2 = b := hid1 hv
    have ha1' : Pte.address.get (b.ram root (rootIdx h)) = r1.1 := by
      rw [← ha1, hb1']
    rw [ha1', ← hb1'] at hv'
    exact (hid2 hv').trans hb1'

/-! ## §3  Mapping a page and mapping a block -/

def addRange (D : Bool → Set ℕ) (h : Bool) (q n : ℕ) : Bool → Set ℕ :=
  Function.update D h {x | x ∈ D h ∨ q ≤ x ∧ x < q + n}

theorem mem_addRange {q n x : ℕ} :
    x ∈ addRange D h q n h ↔ x ∈ D h ∨ q ≤ x ∧ x < q + n := by
  unfold addRange
  rw [Function.update_self]
  exact Iff.rfl

theorem addRange_other {q n : ℕ} {t : Bool} (ht : t ≠ h) :
    addRange D h q n t = D t :=
  Function.update_of_ne ht _ _

theorem subset_addRange (D : Bool → Set ℕ) (h : Bool) (q n : ℕ) (t : Bool) :
    D t ⊆ addRange D h q n t := by
  by_cases ht : t = h
  · subst ht
    exact fun x hx => mem_addRange.mpr (Or.inl hx)
  · rw [addRange_other ht]

theorem addRange_zero (D : Bool → Set ℕ) (h : Bool) (q : ℕ) :
    addRange D h q 0 = D := by
  funext t
  by_cases ht : t = h
  · subst ht
    ext x
    rw [mem_addRange]
    constructor
    · rintro (hx | hx)
      · exact hx
      · omega
    · exact Or.inl
  · exact addRange_other ht

theorem addRange_addRange (D : Bool → Set ℕ) (h : Bool) (q n k : ℕ) :
    addRange (addRange D h q n) h (q + n) k = addRange D h q (n + k) := by
  funext t
  by_cases ht : t = h
  · subst ht
    ext x
    rw [mem_addRange, mem_addRange, mem_addRange, or_assoc]
    refine or_congr_right ?_
    omega
  · rw [addRange_other ht, addRange_other ht, addRange_other ht]

theorem indices {q : ℕ} (hq : q < ramPages) :
    idx0 (vaBase h + q * pageSize) = rootIdx h ∧
      idx1 (vaBase h + q * pageSize) = 0 ∧
      idx2 (vaBase h + q * pageSize) = q / 512 ∧
      idx3 (vaBase h + q * pageSize) = q % 512 := by
  simp only [idx0, idx1, idx2, idx3, tableSize, pageSize, ramPages] at *
  cases h
  · simp only [vaBase, rootIdx, Bool.false_eq_true, if_false]
    omega
  · simp only [vaBase, rootIdx, if_true, virtBase]
    omega

theorem mapL3Page_spec {q : ℕ} (perms : Permissions)
    (hb : BootShape S R b role D) (hroot : role root = some (.l0 h))
    (hq : q < ramPages) (hD : q ∉ D h) (hR : 512 * (q / 512) < R)
    (hcap : S + b.loAllocatedPages + 2 < ramPages) (pa : ℕ) :
    let b' := mapL3Page S (vaBase h + q * pageSize) pa root perms b
    ∃ role', Extends role role' ∧ BootShape S R b' role' (addRange D h q 1) ∧
      Grows role b b' ∧ Covered b' root h q ∧ ReachesL3 b' root h (q / 512) ∧
      b'.loAllocatedPages ≤ b.loAllocatedPages + 3 ∧
      (ReachesL3 b root h (q / 512) →
        b'.loAllocatedPages = b.loAllocatedPages) := by
  intro b'
  obtain ⟨h0, h1, h2, h3⟩ := indices (h := h) hq
  obtain ⟨role2, he2, hb2, hc2, hg2, hl2, hn2, hid2⟩ :=
    walkL2_spec hb hroot (by omega)
  generalize hr2 : nextTableLo S (nextTableLo S root (rootIdx h) b).1 0
    (nextTableLo S root (rootIdx h) b).2 = r2 at *
  have hmem : q ∈ addRange D h q 1 h :=
    mem_addRange.mpr (Or.inr ⟨le_refl q, Nat.lt_succ_self q⟩)
  obtain ⟨role3, he3, hb3, hc3, hg3, hv3, ht3, ha3, hn3, hid3⟩ :=
    nextTableLo_spec (i := q / 512) (c := .l3 h (q / 512))
      (hb2.mono (subset_addRange D h q 1)) hc2 (by omega)
      (fun hv => by
        rcases hb2.shape _ _ hc2 _ hv with ⟨ht, hr, -⟩ | ⟨-, -, hall, -⟩
        · exact ⟨ht, hr⟩
        · exact absurd (hall q rfl) hD)
      (fun role' w ht hr => Or.inl ⟨ht, hr, ⟨q, hmem, rfl⟩, hR⟩)
  generalize hr3 : nextTableLo S r2.1 (q / 512) r2.2 = r3 at *
  have hb' : b' = if Pte.valid.get (r3.2.ram r3.1 (q % 512)) = 1 then r3.2
      else r3.2.write r3.1 (q % 512) (Pte.address.set
        (setPermissions kCodeMemMapping perms) (pa / pageSize)) := by
    show mapL3Page S _ pa root perms b = _
    unfold mapL3Page
    rw [h0, h1, h2, h3]
    simp only [hr2, hr3]
  have hcount : b'.loAllocatedPages = r3.2.loAllocatedPages := by
    rw [hb']
    split_ifs <;> rfl
  have hvalid : Pte.valid.get (Pte.address.set
      (setPermissions kCodeMemMapping perms) (pa / pageSize)) = 1 := by
    rw [BitField.get_set_of_disjoint (by decide)]
    cases perms <;> decide
  have hgrow : Grows role3 r3.2 b' := by
    intro p s hp i hv
    rw [hb']
    split_ifs with hx
    · rfl
    · rw [Boot.write_ram, if_neg]
      rintro ⟨rfl, rfl⟩
      exact hx hv
  have hshape : BootShape S R b' role3 (addRange D h q 1) := by
    refine ⟨?_, ?_⟩
    · rw [hcount]
      exact hb3.owned
    · intro p s hp i hv
      by_cases hx : p = r3.1
      · subst hx
        rw [hc3, Option.some.injEq] at hp
        subst hp
        trivial
      · have hram : b'.ram p i = r3.2.ram p i := by
          rw [hb']
          split_ifs
          · rfl
          · rw [Boot.write_ram, if_neg]
            exact fun hpi => hx hpi.1
        rw [hram] at hv ⊢
        exact hb3.shape p s hp i hv
  have hroot3 := he3 _ _ (he2 _ _ hroot)
  have hc2' := he3 _ _ hc2
  have hl2' : ReachesL2 b' root h r2.1 :=
    (hl2.grows hb2 (he2 _ _ hroot) hg3).grows hb3 hroot3 hgrow
  have hkeep := hgrow _ _ hc2' _ hv3
  have hleaf : Pte.valid.get (b'.ram r3.1 (q % 512)) = 1 := by
    rw [hb']
    split_ifs with hx
    · exact hx
    · rw [Boot.write_ram, if_pos ⟨rfl, rfl⟩]
      exact hvalid
  refine ⟨role3, he2.trans he3, hshape,
    (hg2.trans he2 hg3).trans (he2.trans he3) hgrow, ?_, ?_, by omega, ?_⟩
  · refine ⟨r2.1, hl2', by rw [hkeep]; exact hv3, Or.inr ⟨?_, ?_⟩⟩
    · rw [hkeep]
      exact ht3
    · rw [hkeep, ha3]
      exact hleaf
  · refine ⟨r2.1, hl2', ?_, ?_⟩ <;> rw [hkeep]
    · exact hv3
    · exact ht3
  · rintro ⟨l2, hl, hv, -⟩
    have hsame := hid2 l2 hl
    rw [hsame] at hl2 hid3
    rw [hl.unique hl2] at hv
    rw [hcount, hid3 hv]

/-- `map_l2_range` maps the 512 pages of a chunk that no page of has been
mapped. -/
theorem mapL2Block_spec {c : ℕ} (perms : Permissions)
    (hb : BootShape S R b role D) (hroot : role root = some (.l0 h))
    (hc : c < 512) (hD : ∀ q ∈ D h, q / 512 ≠ c)
    (hR : 512 * (c + 1) ≤ S ∨ R ≤ 512 * c)
    (hcap : S + b.loAllocatedPages + 1 < ramPages) :
    let b' := mapL2Block S (vaBase h + c * blockSize) (c * blockSize) root
      perms b
    ∃ role', Extends role role' ∧
      BootShape S R b' role' (addRange D h (512 * c) 512) ∧
      Grows role b b' ∧ (∀ q, q / 512 = c → Covered b' root h q) ∧
      (∃ l2, ReachesL2 b' root h l2) ∧
      b'.loAllocatedPages ≤ b.loAllocatedPages + 2 ∧
      ∀ l2, ReachesL2 b root h l2 →
        b'.loAllocatedPages = b.loAllocatedPages := by
  intro b'
  have hq : 512 * c < ramPages := by
    simp only [ramPages]
    omega
  obtain ⟨h0, h1, h2, -⟩ := indices (h := h) hq
  have hva : 512 * c * pageSize = c * blockSize := by
    simp only [pageSize, blockSize]
    omega
  rw [hva] at h0 h1 h2
  rw [Nat.mul_div_cancel_left c (by decide)] at h2
  obtain ⟨role2, he2, hb2, hc2, hg2, hl2, hn2, hid2⟩ :=
    walkL2_spec hb hroot (by omega)
  generalize hr2 : nextTableLo S (nextTableLo S root (rootIdx h) b).1 0
    (nextTableLo S root (rootIdx h) b).2 = r2 at *
  -- no page of the chunk is mapped, so its entry is not in use
  have hinvalid : ¬ Pte.valid.get (r2.2.ram r2.1 c) = 1 := by
    intro hv
    rcases hb2.shape _ _ hc2 _ hv with
      ⟨-, -, ⟨q, hqD, hqc⟩, -⟩ | ⟨-, -, hall, -⟩
    · exact hD q hqD hqc
    · exact hD (512 * c) (hall _ (Nat.mul_div_cancel_left c (by decide)))
        (Nat.mul_div_cancel_left c (by decide))
  generalize hw : Pte.address.set
    (setPermissions (Pte.type.set kCodeMemMapping 0) perms)
    (c * blockSize / pageSize) = w
  have hb' : b' = r2.2.write r2.1 c w := by
    show mapL2Block S _ _ root perms b = _
    unfold mapL2Block
    rw [h0, h1, h2]
    simp only [hr2, hw]
    rw [if_neg hinvalid]
  have hwv : Pte.valid.get w = 1 := by
    rw [← hw, BitField.get_set_of_disjoint (by decide)]
    cases perms <;> decide
  have hwt : Pte.type.get w = 0 := by
    rw [← hw, BitField.get_set_of_disjoint (by decide)]
    cases perms <;> decide
  have hwa : Pte.address.get w = 512 * c := by
    rw [← hw, BitField.get_set, ← hva, Nat.mul_div_cancel _ (by decide)]
    exact Nat.mod_eq_of_lt (Nat.lt_of_lt_of_le hq (by decide))
  have hgrow : Grows role2 r2.2 b' := by
    intro p s hp i hv
    rw [hb', Boot.write_ram, if_neg]
    rintro ⟨rfl, rfl⟩
    exact hinvalid hv
  have hself : b'.ram r2.1 c = w := by
    rw [hb', Boot.write_ram, if_pos ⟨rfl, rfl⟩]
  have hall : ∀ q, q / 512 = c → q ∈ addRange D h (512 * c) 512 h :=
    fun q hq => mem_addRange.mpr (Or.inr (by omega))
  have hl2' := hl2.grows hb2 (he2 _ _ hroot) hgrow
  have hcount : b'.loAllocatedPages = r2.2.loAllocatedPages := by
    rw [hb']
    rfl
  refine ⟨role2, he2, ⟨?_, ?_⟩, hg2.trans he2 hgrow, ?_, ⟨_, hl2'⟩, by omega,
    ?_⟩
  · rw [hcount]
    exact hb2.owned
  · intro p s hp i hv
    by_cases hx : p = r2.1 ∧ i = c
    · obtain ⟨rfl, rfl⟩ := hx
      rw [hc2, Option.some.injEq] at hp
      subst hp
      rw [hself]
      exact Or.inr ⟨hwt, hwa, hall, hR⟩
    · have hram : b'.ram p i = r2.2.ram p i := by
        rw [hb', Boot.write_ram, if_neg hx]
      rw [hram] at hv ⊢
      exact (hb2.shape p s hp i hv).mono (Extends.refl _)
        (subset_addRange D h _ _)
  · rintro q rfl
    refine ⟨r2.1, hl2', ?_, Or.inl ?_⟩ <;> rw [hself]
    · exact hwv
    · exact hwt
  · intro l2 hl
    rw [hcount, hid2 l2 hl]

end Walk

/-! ## §4  Ranges -/

section Ranges

variable {S R : ℕ} {b b' : Boot} {role role' : ℕ → Option Slot}
  {D : Bool → Set ℕ} {root : ℕ} {h : Bool}

structure Mapped (S R root : ℕ) (h : Bool) (D : Bool → Set ℕ) (q n : ℕ)
    (role role' : ℕ → Option Slot) (b b' : Boot) : Prop where
  ext : Extends role role'
  shape : BootShape S R b' role' (addRange D h q n)
  grows : Grows role b b'
  covered : ∀ x, q ≤ x → x < q + n → Covered b' root h x

theorem Mapped.nil (hb : BootShape S R b role D) (q : ℕ) :
    Mapped S R root h D q 0 role role b b := by
  refine ⟨Extends.refl role, ?_, Grows.refl role b, ?_⟩
  · rw [addRange_zero]
    exact hb
  · intro x hl hlt
    omega

theorem Mapped.trans {q n k : ℕ} {b'' : Boot} {role'' : ℕ → Option Slot}
    (hroot : role root = some (.l0 h))
    (h1 : Mapped S R root h D q n role role' b b')
    (h2 : Mapped S R root h (addRange D h q n) (q + n) k role' role'' b' b'') :
    Mapped S R root h D q (n + k) role role'' b b'' := by
  refine ⟨h1.ext.trans h2.ext, ?_, h1.grows.trans h1.ext h2.grows, ?_⟩
  · rw [← addRange_addRange]
    exact h2.shape
  · intro x hl hlt
    by_cases hx : x < q + n
    · exact (h1.covered x hl hx).grows h1.shape (h1.ext _ _ hroot) h2.grows
    · exact h2.covered x (by omega) (by omega)

theorem va_succ (q : ℕ) :
    vaBase h + q * pageSize + pageSize = vaBase h + (q + 1) * pageSize := by
  rw [Nat.add_mul, Nat.one_mul, Nat.add_assoc]

theorem pa_succ (q : ℕ) : q * pageSize + pageSize = (q + 1) * pageSize := by
  rw [Nat.add_mul, Nat.one_mul]

theorem mapL3Page_mapped {q : ℕ} (perms : Permissions)
    (hb : BootShape S R b role D) (hroot : role root = some (.l0 h))
    (hq : q < ramPages) (hD : q ∉ D h) (hR : 512 * (q / 512) < R)
    (hcap : S + b.loAllocatedPages + 2 < ramPages) :
    let b' := mapL3Page S (vaBase h + q * pageSize) (q * pageSize) root perms b
    ∃ role', Mapped S R root h D q 1 role role' b b' ∧
      ReachesL3 b' root h (q / 512) ∧
      b'.loAllocatedPages ≤ b.loAllocatedPages + 3 ∧
      (ReachesL3 b root h (q / 512) →
        b'.loAllocatedPages = b.loAllocatedPages) := by
  intro b'
  obtain ⟨role', he, hb', hg, hcov, hl3, hn, hsame⟩ :=
    mapL3Page_spec perms hb hroot hq hD hR hcap (q * pageSize)
  refine ⟨role', ⟨he, hb', hg, ?_⟩, hl3, hn, hsame⟩
  intro x hl hlt
  obtain rfl : x = q := by omega
  exact hcov

theorem mapL3Range_succ (start pt : ℕ) (perms : Permissions) (n q : ℕ)
    (b : Boot) :
    mapL3Range start pt perms (n + 1) (vaBase h + q * pageSize)
        (q * pageSize) b =
      mapL3Range start pt perms n (vaBase h + (q + 1) * pageSize)
        ((q + 1) * pageSize)
        (mapL3Page start (vaBase h + q * pageSize) (q * pageSize) pt perms
          b) := by
  rw [mapL3Range, va_succ, pa_succ]

/-- Consecutive pages of a chunk whose level 3 table is there. -/
theorem mapL3Range_reached (c : ℕ) (perms : Permissions) (hR : 512 * c < R)
    (n : ℕ) :
    ∀ (q : ℕ) (b : Boot) (role : ℕ → Option Slot) (D : Bool → Set ℕ),
      BootShape S R b role D → role root = some (.l0 h) →
      512 * c ≤ q → q + n ≤ 512 * (c + 1) → q + n ≤ ramPages →
      (∀ x ∈ D h, x < q ∨ q + n ≤ x) →
      S + b.loAllocatedPages + 2 < ramPages → ReachesL3 b root h c →
      let b' := mapL3Range S root perms n (vaBase h + q * pageSize)
        (q * pageSize) b
      ∃ role', Mapped S R root h D q n role role' b b' ∧
        b'.loAllocatedPages = b.loAllocatedPages := by
  induction n with
  | zero =>
      intro q b role D hb _ _ _ _ _ _ _
      exact ⟨role, Mapped.nil hb q, rfl⟩
  | succ n ih =>
      intro q b role D hb hroot hc hc' hram hD hcap hl3
      have hchunk : q / 512 = c := by omega
      have hq : q ∉ D h := fun hx => by
        have hx' := hD q hx
        omega
      obtain ⟨role1, hm1, hl31, -, hsame⟩ :=
        mapL3Page_mapped perms hb hroot (by omega) hq (hchunk ▸ hR) hcap
      rw [hchunk] at hl31 hsame
      have hcount := hsame hl3
      obtain ⟨role2, hm2, hn2⟩ :=
        ih (q + 1) _ role1 _ hm1.shape (hm1.ext _ _ hroot) (by omega)
          (by omega) (by omega) (by
            intro x hx
            rcases mem_addRange.mp hx with hx | hx
            · have hx' := hD x hx
              omega
            · omega) (by omega) hl31
      simp only [mapL3Range_succ]
      refine ⟨role2, ?_, hn2.trans hcount⟩
      rw [Nat.add_comm n 1]
      exact hm1.trans hroot hm2

/-- Consecutive pages of one chunk: only the first can hand out tables. -/
theorem mapL3Range_spec (c : ℕ) (perms : Permissions) (n q : ℕ)
    (hb : BootShape S R b role D) (hroot : role root = some (.l0 h))
    (hc : 512 * c ≤ q) (hc' : q + n ≤ 512 * (c + 1)) (hram : q + n ≤ ramPages)
    (hD : ∀ x ∈ D h, x < q ∨ q + n ≤ x) (hR : n = 0 ∨ 512 * c < R)
    (hcap : S + b.loAllocatedPages + 5 < ramPages) :
    let b' := mapL3Range S root perms n (vaBase h + q * pageSize)
      (q * pageSize) b
    ∃ role', Mapped S R root h D q n role role' b b' ∧
      b'.loAllocatedPages ≤ b.loAllocatedPages + 3 := by
  cases n with
  | zero => exact ⟨role, Mapped.nil hb q, Nat.le_add_right _ 3⟩
  | succ n =>
      have hchunk : q / 512 = c := by omega
      have hq : q ∉ D h := fun hx => by
        have hx' := hD q hx
        omega
      obtain ⟨role1, hm1, hl31, hn1, -⟩ :=
        mapL3Page_mapped perms hb hroot (by omega) hq (by omega) (by omega)
      rw [hchunk] at hl31
      obtain ⟨role2, hm2, hn2⟩ :=
        mapL3Range_reached c perms (by omega) n (q + 1) _ role1 _ hm1.shape
          (hm1.ext _ _ hroot) (by omega) (by omega) (by omega) (by
            intro x hx
            rcases mem_addRange.mp hx with hx | hx
            · have hx' := hD x hx
              omega
            · omega) (by omega) hl31
      simp only [mapL3Range_succ]
      refine ⟨role2, ?_, by omega⟩
      rw [Nat.add_comm n 1]
      exact hm1.trans hroot hm2

theorem mapL2Block_mapped {c : ℕ} (perms : Permissions)
    (hb : BootShape S R b role D) (hroot : role root = some (.l0 h))
    (hc : c < 512) (hD : ∀ x ∈ D h, x < 512 * c ∨ 512 * c + 512 ≤ x)
    (hR : 512 * (c + 1) ≤ S ∨ R ≤ 512 * c)
    (hcap : S + b.loAllocatedPages + 1 < ramPages) :
    let b' := mapL2Block S (vaBase h + c * blockSize) (c * blockSize) root
      perms b
    ∃ role', Mapped S R root h D (512 * c) 512 role role' b b' ∧
      (∃ l2, ReachesL2 b' root h l2) ∧
      b'.loAllocatedPages ≤ b.loAllocatedPages + 2 ∧
      ∀ l2, ReachesL2 b root h l2 →
        b'.loAllocatedPages = b.loAllocatedPages := by
  intro b'
  obtain ⟨role', he, hb', hg, hcov, hl2, hn, hsame⟩ :=
    mapL2Block_spec perms hb hroot hc (fun q hq hqc => by
      have hq' := hD q hq
      omega) hR hcap
  refine ⟨role', ⟨he, hb', hg, ?_⟩, hl2, hn, hsame⟩
  intro x hl hlt
  exact hcov x (by omega)

theorem mapL2Range_succ (start pt : ℕ) (perms : Permissions) (k c : ℕ)
    (b : Boot) :
    mapL2Range start pt perms (k + 1) (vaBase h + c * blockSize)
        (c * blockSize) b =
      mapL2Range start pt perms k (vaBase h + (c + 1) * blockSize)
        ((c + 1) * blockSize)
        (mapL2Block start (vaBase h + c * blockSize) (c * blockSize) pt perms
          b) := by
  rw [mapL2Range, Nat.add_mul c, Nat.one_mul, Nat.add_assoc]

theorem mapL2Range_reached (perms : Permissions) (k : ℕ) :
    ∀ (c : ℕ) (b : Boot) (role : ℕ → Option Slot) (D : Bool → Set ℕ),
      BootShape S R b role D → role root = some (.l0 h) → c + k ≤ 512 →
      (∀ x ∈ D h, x < 512 * c ∨ 512 * (c + k) ≤ x) →
      (k = 0 ∨ 512 * (c + k) ≤ S ∨ R ≤ 512 * c) →
      S + b.loAllocatedPages + 1 < ramPages → (∃ l2, ReachesL2 b root h l2) →
      let b' := mapL2Range S root perms k (vaBase h + c * blockSize)
        (c * blockSize) b
      ∃ role', Mapped S R root h D (512 * c) (512 * k) role role' b b' ∧
        b'.loAllocatedPages = b.loAllocatedPages := by
  induction k with
  | zero =>
      intro c b role D hb _ _ _ _ _ _
      exact ⟨role, Mapped.nil hb _, rfl⟩
  | succ k ih =>
      intro c b role D hb hroot hc hD hR hcap hl2
      obtain ⟨role1, hm1, hl21, -, hsame⟩ :=
        mapL2Block_mapped (c := c) perms hb hroot (by omega) (by
          intro x hx
          have hx' := hD x hx
          omega) (by omega) hcap
      obtain ⟨l2, hl2⟩ := hl2
      have hcount := hsame l2 hl2
      obtain ⟨role2, hm2, hn2⟩ :=
        ih (c + 1) _ role1 _ hm1.shape (hm1.ext _ _ hroot) (by omega) (by
          intro x hx
          rcases mem_addRange.mp hx with hx | hx
          · have hx' := hD x hx
            omega
          · omega) (by omega) (by omega) hl21
      simp only [mapL2Range_succ]
      refine ⟨role2, ?_, hn2.trans hcount⟩
      rw [Nat.mul_add, Nat.add_comm (512 * k)]
      exact hm1.trans hroot hm2

/-- Whole chunks: only the first block can hand out tables. -/
theorem mapL2Range_spec (perms : Permissions) (k c : ℕ)
    (hb : BootShape S R b role D) (hroot : role root = some (.l0 h))
    (hc : c + k ≤ 512) (hD : ∀ x ∈ D h, x < 512 * c ∨ 512 * (c + k) ≤ x)
    (hR : k = 0 ∨ 512 * (c + k) ≤ S ∨ R ≤ 512 * c)
    (hcap : S + b.loAllocatedPages + 3 < ramPages) :
    let b' := mapL2Range S root perms k (vaBase h + c * blockSize)
      (c * blockSize) b
    ∃ role', Mapped S R root h D (512 * c) (512 * k) role role' b b' ∧
      b'.loAllocatedPages ≤ b.loAllocatedPages + 2 := by
  cases k with
  | zero => exact ⟨role, Mapped.nil hb _, Nat.le_add_right _ 2⟩
  | succ k =>
      obtain ⟨role1, hm1, hl21, hn1, -⟩ :=
        mapL2Block_mapped (c := c) perms hb hroot (by omega) (by
          intro x hx
          have hx' := hD x hx
          omega) (by omega) (by omega)
      obtain ⟨role2, hm2, hn2⟩ :=
        mapL2Range_reached perms k (c + 1) _ role1 _ hm1.shape
          (hm1.ext _ _ hroot) (by omega) (by
            intro x hx
            rcases mem_addRange.mp hx with hx | hx
            · have hx' := hD x hx
              omega
            · omega) (by omega) (by omega) hl21
      simp only [mapL2Range_succ]
      refine ⟨role2, ?_, by omega⟩
      rw [Nat.mul_add, Nat.add_comm (512 * k)]
      exact hm1.trans hroot hm2

theorem blocks_eq_pages (x k : ℕ) :
    x * pageSize + k * blockSize = (x + 512 * k) * pageSize := by
  simp only [blockSize, pageSize]
  omega

theorem frontPages_eq (q : ℕ) :
    frontPages (vaBase h + q * pageSize) = (512 - q % 512) % 512 := by
  simp only [frontPages, blockSize, pageSize]
  cases h
  · simp only [vaBase, Bool.false_eq_true, if_false]
    omega
  · simp only [vaBase, if_true, virtBase]
    omega

theorem mapLo_spec (perms : Permissions) (n q : ℕ)
    (hb : BootShape S R b role D) (hroot : role root = some (.l0 h))
    (hram : q + n ≤ ramPages) (hD : ∀ x ∈ D h, x < q ∨ q + n ≤ x)
    (hSR : S ≤ R)
    (hR : q + n ≤ S ∨ q + n ≤ R ∧ n < 512 ∨ q = R ∧ q + n = ramPages)
    (hcap : S + b.loAllocatedPages + 10 < ramPages) :
    let b' := mapLo S (vaBase h + q * pageSize) (q * pageSize) n root perms b
    ∃ role', Mapped S R root h D q n role role' b b' ∧
      b'.loAllocatedPages ≤ b.loAllocatedPages + 8 := by
  intro b'
  have hpages : ramPages = 512 * 512 := rfl
  obtain ⟨f, hf⟩ : ∃ f, f = min ((512 - q % 512) % 512) n := ⟨_, rfl⟩
  obtain ⟨c, hc⟩ : ∃ c, c = (q + f) / 512 := ⟨_, rfl⟩
  obtain ⟨k, hk⟩ : ∃ k, k = (n - f) / 512 := ⟨_, rfl⟩
  -- either the front part is everything, or it ends on a boundary
  have hfront : n - f = 0 ∨ q + f = 512 * c := by omega
  have hsplit : b' =
      mapL3Range S root perms ((n - f) % 512)
        (vaBase h + (q + f) * pageSize + k * blockSize)
        ((q + f) * pageSize + k * blockSize)
        (mapL2Range S root perms k (vaBase h + (q + f) * pageSize)
          ((q + f) * pageSize)
          (mapL3Range S root perms f (vaBase h + q * pageSize)
            (q * pageSize) b)) := by
    simp only [b']
    unfold mapLo
    have hchunk : (2 : ℕ) ^ 9 = 512 := rfl
    simp only [frontPages_eq, ← hf, hchunk, hk, Nat.add_mul q f,
      Nat.add_assoc]
  obtain ⟨role1, hm1, hn1⟩ :=
    mapL3Range_spec (q / 512) perms f q hb hroot (by omega) (by omega)
      (by omega) (by
        intro x hx
        have hx' := hD x hx
        omega) (by omega) (by omega)
  rcases hfront with hzero | haligned
  · have hk0 : k = 0 := by omega
    rw [hzero, hk0] at hsplit
    obtain rfl : f = n := by omega
    rw [hsplit]
    exact ⟨role1, hm1, by simp only [mapL3Range, mapL2Range]; omega⟩
  obtain ⟨role2, hm2, hn2⟩ :=
    mapL2Range_spec perms k c hm1.shape (hm1.ext _ _ hroot) (by omega) (by
      intro x hx
      rcases mem_addRange.mp hx with hx | hx
      · have hx' := hD x hx
        omega
      · omega) (by omega) (by omega)
  have hva : c * blockSize = (q + f) * pageSize := by
    have h0 := blocks_eq_pages 0 c
    rwa [Nat.zero_mul, Nat.zero_add, Nat.zero_add, ← haligned] at h0
  rw [hva] at hm2 hn2
  have hq2 : q + f + 512 * k = 512 * (c + k) := by omega
  have hva2 := blocks_eq_pages (q + f) k
  obtain ⟨role3, hm3, hn3⟩ :=
    mapL3Range_spec (c + k) perms ((n - f) % 512) (q + f + 512 * k) hm2.shape
      (hm2.ext _ _ (hm1.ext _ _ hroot)) (by omega) (by omega) (by omega) (by
        intro x hx
        rcases mem_addRange.mp hx with hx | hx
        · rcases mem_addRange.mp hx with hx | hx
          · have hx' := hD x hx
            omega
          · omega
        · omega) (by omega) (by omega)
  rw [hsplit, Nat.add_assoc (vaBase h), hva2]
  rw [← haligned] at hm2 hm3
  have hm23 := hm2.trans (hm1.ext _ _ hroot) hm3
  have hm := hm1.trans hroot hm23
  have htotal : f + (512 * k + (n - f) % 512) = n := by omega
  rw [htotal] at hm
  exact ⟨role3, hm, by omega⟩

end Ranges

/-! ## §5  The trees of `map_high` -/

def blockBase (q : ℕ) : ℕ := 512 * (q / 512)

/-- The linear map that the boot leaves: its tables are reserved pages, and
each managed page is mapped, by a page descriptor of a level 3 table or by a
block descriptor over managed pages only. -/
structure LinearTree (R : ℕ) (ram : ℕ → ℕ → Word) (root : ℕ) : Prop where
  tables : ∀ p, TablePage ram root p → p < R
  apart : ∀ p, TablePage ram root p → ¬ BlockTarget ram root p
  covered : ∀ q, R ≤ q → q < ramPages → ∃ l1 l2,
    Pte.valid.get (ram root 256) = 1 ∧ Pte.type.get (ram root 256) = 1 ∧
    Pte.address.get (ram root 256) = l1 ∧
    Pte.valid.get (ram l1 0) = 1 ∧ Pte.type.get (ram l1 0) = 1 ∧
    Pte.address.get (ram l1 0) = l2 ∧
    Pte.valid.get (ram l2 (q / 512)) = 1 ∧
    (Pte.type.get (ram l2 (q / 512)) = 1 ∧ blockBase q < R ∧ Pte.valid.get
        (ram (Pte.address.get (ram l2 (q / 512))) (q % 512)) = 1 ∨
      Pte.type.get (ram l2 (q / 512)) = 0 ∧
        Pte.address.get (ram l2 (q / 512)) = blockBase q ∧ R ≤ blockBase q)

section BootTrees

variable {S R : ℕ} {b : Boot} {role : ℕ → Option Slot} {D : Bool → Set ℕ}

/-- The state between two calls of `map_high`: both roots are set up and at
most `k` pages have been handed out. -/
structure BootState (S R : ℕ) (b : Boot) (role : ℕ → Option Slot)
    (D : Bool → Set ℕ) (k : ℕ) : Prop where
  shape : BootShape S R b role D
  hi : role S = some (.l0 true)
  lo : role (S + 1) = some (.l0 false)
  count : b.loAllocatedPages ≤ k

def bootRoot (S : ℕ) (h : Bool) : ℕ := if h then S else S + 1

theorem BootState.mapLo {k n q : ℕ} {h : Bool} (hb : BootState S R b role D k)
    (perms : Permissions) (hk : S + k + 10 < ramPages) (hram : q + n ≤ ramPages)
    (hD : ∀ x ∈ D h, x < q ∨ q + n ≤ x) (hSR : S ≤ R)
    (hR : q + n ≤ S ∨ q + n ≤ R ∧ n < 512 ∨ q = R ∧ q + n = ramPages) :
    let b' := mapLo S (vaBase h + q * pageSize) (q * pageSize) n (bootRoot S h)
      perms b
    ∃ role', BootState S R b' role' (addRange D h q n) (k + 8) ∧
      ∀ x, q ≤ x → x < q + n → Covered b' (bootRoot S h) h x := by
  intro b'
  have hroot : role (bootRoot S h) = some (.l0 h) := by
    cases h
    · exact hb.lo
    · exact hb.hi
  have hcount := hb.count
  obtain ⟨role', hm, hn⟩ :=
    mapLo_spec perms n q hb.shape hroot hram hD hSR hR (by omega)
  exact ⟨role', ⟨hm.shape, hm.ext _ _ hb.hi, hm.ext _ _ hb.lo,
    hn.trans (Nat.add_le_add_right hcount 8)⟩, hm.covered⟩

theorem bootState_start (S R : ℕ) (ram : ℕ → ℕ → Word) :
    let r1 := allocPageTableLo S ⟨ram, 0⟩
    let r2 := allocPageTableLo S r1.2
    r1.1 / pageSize = S ∧ r2.1 / pageSize = S + 1 ∧
      ∃ role, BootState S R r2.2 role (fun _ => ∅) 2 := by
  intro r1 r2
  have hempty : BootShape S R ⟨ram, 0⟩ (fun _ => none) fun _ => ∅ :=
    ⟨fun p s hp => by simp at hp, fun p s hp => by simp at hp⟩
  obtain ⟨hp1, -, hn1, -, hb1⟩ := allocPageTableLo_spec hempty (.l0 true)
  obtain ⟨hp2, -, hn2, -, hb2⟩ := allocPageTableLo_spec hb1 (.l0 false)
  rw [hn1] at hp2 hb2 hn2
  refine ⟨hp1, hp2, _, hb2, ?_, ?_, hn2.le⟩
  · rw [Function.update_of_ne (by simp)]
    exact Function.update_self _ _ _
  · exact Function.update_self _ _ _

theorem Names.of_l0 (hb : BootShape S R b role D) {table p : ℕ} {h : Bool}
    (hs : role table = some (.l0 h)) (hn : Names b.ram table p) :
    role p = some (.l1 h) := by
  obtain ⟨i, -, hv, -, rfl⟩ := hn
  exact (hb.shape table _ hs i hv).2.2

theorem Names.of_l1 (hb : BootShape S R b role D) {table p : ℕ} {h : Bool}
    (hs : role table = some (.l1 h)) (hn : Names b.ram table p) :
    role p = some (.l2 h) := by
  obtain ⟨i, -, hv, -, rfl⟩ := hn
  exact (hb.shape table _ hs i hv).2.2

theorem Names.of_l2 (hb : BootShape S R b role D) {table p : ℕ} {h : Bool}
    (hs : role table = some (.l2 h)) (hn : Names b.ram table p) :
    ∃ i, role p = some (.l3 h i) := by
  obtain ⟨i, -, hv, ht, rfl⟩ := hn
  rcases hb.shape table _ hs i hv with ⟨-, hr, -⟩ | ⟨ht', -⟩
  · exact ⟨i, hr⟩
  · rw [ht] at ht'
    exact absurd ht' (by decide)

theorem BootShape.tablePage (hb : BootShape S R b role D) {root p : ℕ}
    {h : Bool} (hroot : role root = some (.l0 h))
    (hp : TablePage b.ram root p) : ∃ s, role p = some s := by
  rcases hp with rfl | hn | ⟨l1, hn1, hn⟩ | ⟨l1, l2, hn1, hn2, hn⟩
  · exact ⟨_, hroot⟩
  · exact ⟨_, hn.of_l0 hb hroot⟩
  · exact ⟨_, hn.of_l1 hb (hn1.of_l0 hb hroot)⟩
  · obtain ⟨i, hi⟩ := hn.of_l2 hb (hn2.of_l1 hb (hn1.of_l0 hb hroot))
    exact ⟨_, hi⟩

/-- A boot tree that covers the managed pages is a linear tree. -/
theorem BootShape.linearTree (hb : BootShape S R b role D)
    (hroot : role S = some (.l0 true))
    (hcount : S + b.loAllocatedPages ≤ R)
    (hcov : ∀ q, R ≤ q → q < ramPages → Covered b S true q) :
    LinearTree R b.ram S := by
  refine ⟨?_, ?_, ?_⟩
  · intro p hp
    obtain ⟨s, hs⟩ := hb.tablePage hroot hp
    have hown := hb.owned p s hs
    omega
  · rintro p hp ⟨l1, l2, i, hn1, hn2, hv, ht, hl, hh⟩
    obtain ⟨s, hs⟩ := hb.tablePage hroot hp
    have hown := hb.owned p s hs
    have hl2 := hn2.of_l1 hb (hn1.of_l0 hb hroot)
    rcases hb.shape l2 _ hl2 i hv with ⟨ht', -⟩ | ⟨-, ha, -, hR⟩
    · rw [ht] at ht'
      exact absurd ht' (by decide)
    · simp only [tableSize] at hh
      omega
  · intro q hq hlt
    obtain ⟨l2, ⟨l1, hv0, ha0, hv1, ha1⟩, hv2, hleaf⟩ := hcov q hq hlt
    have hok0 := hb.shape S _ hroot _ hv0
    have hl1 := hok0.2.2
    rw [ha0] at hl1
    have hok1 := hb.shape l1 _ hl1 _ hv1
    have hl2 := hok1.2.2
    rw [ha1] at hl2
    refine ⟨l1, l2, hv0, hok0.2.1, ha0, hv1, hok1.2.1, ha1, hv2, ?_⟩
    rcases hb.shape l2 _ hl2 _ hv2 with ⟨ht, -, -, hR⟩ | ⟨ht, ha, -, hR⟩
    · refine Or.inl ⟨ht, hR, ?_⟩
      rcases hleaf with ht' | ⟨-, hv⟩
      · rw [ht] at ht'
        exact absurd ht' (by decide)
      · exact hv
    · have hchunk := Nat.div_add_mod q 512
      refine Or.inr ⟨ht, ha, ?_⟩
      unfold blockBase
      omega

end BootTrees

/-! ## §6  `map_high` -/

section MapHigh

def highPage (addr : ℕ) : ℕ := (addr - virtBase) / pageSize

def highPageUp (addr : ℕ) : ℕ := (addr - virtBase + (pageSize - 1)) / pageSize

theorem alignDown_high {a : ℕ} (h : virtBase ≤ a) :
    alignDown a = vaBase true + highPage a * pageSize := by
  simp only [alignDown, vaBase, highPage, if_true, virtBase, pageSize] at *
  omega

theorem alignUp_high {a : ℕ} (h : virtBase ≤ a) :
    alignUp a = vaBase true + highPageUp a * pageSize := by
  simp only [alignUp, alignDown, vaBase, highPageUp, if_true, virtBase,
    pageSize] at *
  omega

theorem high_sub (q : ℕ) :
    vaBase true + q * pageSize - virtBase = q * pageSize :=
  Nat.add_sub_cancel_left (n := virtBase) (m := q * pageSize)

theorem high_pages (q r : ℕ) :
    (vaBase true + r * pageSize - (vaBase true + q * pageSize)) / pageSize =
      r - q := by
  rw [Nat.add_sub_add_left, ← Nat.mul_sub_right_distrib]
  exact Nat.mul_div_cancel _ (by decide)

variable {S R : ℕ} {b : Boot} {role : ℕ → Option Slot} {D : Bool → Set ℕ}
  {l : Layout} {k : ℕ}

/-- The regions of the high tree come in upward order, the static pages
apart: those mapped lie below `t` or in `[S, u)`. The low tree maps `E`. -/
def MappedUpTo (S R : ℕ) (b : Boot) (E : Set ℕ) (t u k : ℕ) : Prop :=
  ∃ role D, BootState S R b role D k ∧ D false = E ∧
    ∀ x ∈ D true, x < t ∨ S ≤ x ∧ x < u

section Regions

variable {E : Set ℕ} {t u : ℕ} (hSR : S + 100 ≤ R) (hR : R ≤ ramPages)
  (hk : k ≤ 66) (hb : MappedUpTo S R b E t u k)

include hSR hR hk hb

theorem MappedUpTo.range {q n : ℕ} (perms : Permissions) (ht : t ≤ q)
    (hS : q + n ≤ S) :
    MappedUpTo S R
      (mapLo S (vaBase true + q * pageSize) (q * pageSize) n (bootRoot S true)
        perms b) E (q + n) u (k + 8) := by
  obtain ⟨role, D, hb, hE, hD⟩ := hb
  obtain ⟨role', hb', -⟩ := hb.mapLo (h := true) (q := q) (n := n) perms
    (by omega) (by omega) (by
      intro x hx
      have hx' := hD x hx
      omega) (by omega) (by omega)
  refine ⟨role', _, hb', (addRange_other (by decide)).trans hE, ?_⟩
  intro x hx
  rcases mem_addRange.mp hx with hx | hx
  · have hx' := hD x hx
    omega
  · exact Or.inl hx.2

/-- A region between two high addresses, rounded to pages, is a range of
pages. -/
theorem MappedUpTo.region {lo hi : ℕ} (perms : Permissions)
    (hlo : virtBase ≤ lo) (hhi : lo ≤ hi) (ht : t ≤ highPage lo)
    (hS : highPageUp hi ≤ S) :
    MappedUpTo S R
      (mapLo S (alignDown lo) (alignDown lo - virtBase)
        ((alignUp hi - alignDown lo) / pageSize) S perms b) E
      (highPageUp hi) u (k + 8) := by
  have hle : highPage lo ≤ highPageUp hi := by
    simp only [highPage, highPageUp, pageSize]
    omega
  have hroot : bootRoot S true = S := if_pos rfl
  have hcount : highPage lo + (highPageUp hi - highPage lo) = highPageUp hi := by
    omega
  have hrange := hb.range (n := highPageUp hi - highPage lo) hSR hR hk perms ht
    (by omega)
  rw [hcount, hroot] at hrange
  rw [alignDown_high hlo, alignUp_high (hlo.trans hhi), high_sub, high_pages]
  exact hrange

end Regions

theorem Layout.Ok.pages (h : l.Ok) :
    let R := reservedPages l.reservedMemory
    128 ≤ highPage l.textStart ∧ l.enableMmu / pageSize ≤ highPage l.textStart ∧
      highPage l.textStart ≤ highPageUp l.textEnd ∧
      highPageUp l.textEnd ≤ highPage l.rodataStart ∧
      highPage l.rodataStart ≤ highPageUp l.rodataEnd ∧
      highPageUp l.rodataEnd ≤ highPage l.bssStart ∧
      highPage l.bssStart ≤ highPageUp l.bssEnd ∧
      highPageUp l.bssEnd ≤ highPage l.kstackBottomHi ∧
      highPageUp l.kstackTopHi = highPage l.kstackBottomHi + 2 ∧
      highPage l.pageFrameArrayStart = highPage l.kstackBottomHi + 2 ∧
      highPageUp l.pageFrameArrayEnd = highPage l.kstackBottomHi + 2050 ∧
      l.staticStart = highPage l.kstackBottomHi + 2050 ∧
      l.staticStart + 100 ≤ R ∧ R ≤ ramPages := by
  intro R
  have h0 := h.kernelHighStart
  have h1 := h.text
  have h2 := h.rodata
  have h3 := h.bss
  have h4 := h.kstack
  have h5 := h.pageFrameArray
  have h6 := h.staticRegion
  have h7 := h.test
  have h8 := h.ram
  have h9 := h.enableMmu
  simp only [R, reservedPages, highPage, highPageUp, Layout.staticStart,
    Layout.reservedMemory, pageSize, virtBase, staticPages, ramPages] at *
  omega

theorem Layout.Ok.high (h : l.Ok) :
    virtBase ≤ l.textStart ∧ virtBase ≤ l.rodataStart ∧
      virtBase ≤ l.bssStart ∧ virtBase ≤ l.kstackBottomHi ∧
      virtBase ≤ l.pageFrameArrayStart ∧ l.kstackBottomHi ≤ l.kstackTopHi ∧
      l.pageFrameArrayStart ≤ l.pageFrameArrayEnd ∧
      alignDown l.kernelHighStart = virtBase + 128 * pageSize ∧
      l.staticPageRegionStart = vaBase true + l.staticStart * pageSize := by
  have h0 := h.kernelHighStart
  have h1 := h.text
  have h2 := h.rodata
  have h3 := h.bss
  have h4 := h.kstack
  have h5 := h.pageFrameArray
  have h6 := h.staticRegion
  simp only [Layout.staticStart, alignDown, vaBase, if_true, pageSize,
    virtBase] at *
  omega

theorem mapPreCode_eq
    (h : alignDown l.kernelHighStart = virtBase + 128 * pageSize) (b : Boot) :
    mapPreCode S l S b =
      mapLo S (vaBase true + 0 * pageSize) (0 * pageSize) 128
        (bootRoot S true) .rw b := by
  have hsize : (virtBase + 128 * pageSize - virtBase) / pageSize = 128 := by
    rw [Nat.add_sub_cancel_left]
    exact Nat.mul_div_cancel 128 (by decide)
  have hbase : vaBase true = virtBase := if_pos rfl
  have hroot : bootRoot S true = S := if_pos rfl
  unfold mapPreCode
  rw [hroot, hbase, Nat.zero_mul, Nat.add_zero, h]
  dsimp only
  rw [hsize]

theorem mapStaticPageRegion_eq
    (h : l.staticPageRegionStart = vaBase true + S * pageSize) (b : Boot) :
    mapStaticPageRegion S l S b =
      mapLo S (vaBase true + S * pageSize) (S * pageSize) staticPages
        (bootRoot S true) .rw b := by
  have hroot : bootRoot S true = S := if_pos rfl
  unfold mapStaticPageRegion
  rw [hroot, h]
  dsimp only
  rw [high_sub]

theorem mapMmuStub_eq (b : Boot) :
    mapMmuStub S l (S + 1) b =
      mapLo S (vaBase false + l.enableMmu / pageSize * pageSize)
        (l.enableMmu / pageSize * pageSize) 1 (bootRoot S false) .rx b := by
  have hbase : vaBase false = 0 := if_neg Bool.false_ne_true
  have hroot : bootRoot S false = S + 1 := if_neg Bool.false_ne_true
  rw [hroot, hbase, Nat.zero_add]
  rfl

theorem mapRam_eq (b : Boot) :
    let q := reservedPages l.reservedMemory
    mapRam S l S b =
      mapLo S (vaBase true + q * pageSize) (q * pageSize) (ramPages - q)
        (bootRoot S true) .rw b := by
  intro q
  have hbase : vaBase true = virtBase := if_pos rfl
  have hroot : bootRoot S true = S := if_pos rfl
  have hend : alignUp (l.testPhysLoc + l.testSize) = q * pageSize := rfl
  have hsize : (2 ^ 30 - q * pageSize) / pageSize = ramPages - q := by
    have hram : 2 ^ 30 = ramPages * pageSize := rfl
    rw [hram, ← Nat.mul_sub_right_distrib]
    exact Nat.mul_div_cancel _ (by decide)
  unfold mapRam
  rw [hroot, hbase, hend]
  dsimp only
  rw [hsize]

/-- The static pages are mapped before the stack and the frame array, which
lie below them. -/
theorem MappedUpTo.static {E : Set ℕ} {t : ℕ} (hSR : S + 100 ≤ R)
    (hR : R ≤ ramPages) (hk : k ≤ 66) (hb : MappedUpTo S R b E t S k)
    (hspr : l.staticPageRegionStart = vaBase true + S * pageSize)
    (ht : t ≤ S) :
    MappedUpTo S R (mapStaticPageRegion S l S b) E t (S + 100) (k + 8) := by
  obtain ⟨role, D, hb, hE, hD⟩ := hb
  have hpages : staticPages = 100 := rfl
  obtain ⟨role', hb', -⟩ := hb.mapLo (h := true) (q := S) (n := staticPages)
    .rw (by omega) (by omega) (by
      intro x hx
      have hx' := hD x hx
      omega) (by omega) (by omega)
  rw [mapStaticPageRegion_eq hspr]
  refine ⟨role', _, hb', (addRange_other (by decide)).trans hE, ?_⟩
  intro x hx
  rcases mem_addRange.mp hx with hx | hx
  · have hx' := hD x hx
    omega
  · exact Or.inr hx

/-- The code of `enable_mmu` is the one page of the low tree. -/
theorem MappedUpTo.stub {t u : ℕ} (hSR : S + 100 ≤ R) (hR : R ≤ ramPages)
    (hk : k ≤ 66) (hb : MappedUpTo S R b ∅ t u k)
    (hl : l.enableMmu / pageSize < S) :
    ∃ E, MappedUpTo S R (mapMmuStub S l (S + 1) b) E t u (k + 8) := by
  obtain ⟨role, D, hb, hE, hD⟩ := hb
  obtain ⟨role', hb', -⟩ := hb.mapLo (h := false)
    (q := l.enableMmu / pageSize) (n := 1) .rx (by omega) (by omega) (by
      intro x hx
      rw [hE] at hx
      exact absurd hx (Set.notMem_empty x)) (by omega) (by omega)
  rw [mapMmuStub_eq]
  refine ⟨_, role', _, hb', rfl, ?_⟩
  rwa [addRange_other (by decide)]

/-- `map_high` leaves its trees in static pages, and that at `pt_hi` covers the managed
pages. -/
theorem mapHigh_state (hl : l.Ok) (ram : ℕ → ℕ → Word) :
    let R := reservedPages l.reservedMemory
    let b := (mapHigh l ram).2.2
    (mapHigh l ram).1 = l.staticStart ∧ l.staticStart + 100 ≤ R ∧
      (∃ role D, BootState l.staticStart R b role D 100) ∧
      ∀ q, R ≤ q → q < ramPages → Covered b l.staticStart true q := by
  obtain ⟨ht0, hmmu, ht1, hr0, hr1, hs0, hs1, hk0, hk1, hf0, hf1, hst, hSR,
    hR⟩ := hl.pages
  obtain ⟨hv1, hv2, hv3, hv4, hv5, hv6, hv7, hpre, hspr⟩ := hl.high
  have hram := fun b => mapRam_eq (S := l.staticStart) (l := l) b
  simp only at hram
  generalize reservedPages l.reservedMemory = R at *
  generalize hS : l.staticStart = S at *
  obtain ⟨hhi, hlo, role0, hb0⟩ := bootState_start S R ram
  have hm0 : MappedUpTo S R _ ∅ 0 S 2 :=
    ⟨role0, _, hb0, rfl, fun x hx => absurd hx (Set.notMem_empty x)⟩
  have hm1 := hm0.range (q := 0) (n := 128) hSR hR (by omega) .rw le_rfl
    (by omega)
  rw [← mapPreCode_eq hpre] at hm1
  have hm2 := hm1.region hSR hR (by omega) .rx hv1 hl.text.2.1 (by omega)
    (by omega)
  have hm3 := hm2.region hSR hR (by omega) .ro hv2 hl.rodata.2.2.1 hr0
    (by omega)
  have hm4 := hm3.region hSR hR (by omega) .rw hv3 hl.bss.2 hs0 (by omega)
  have hm5 := hm4.static hSR hR (by omega) hspr (by omega)
  have hm6 := hm5.region hSR hR (by omega) .rw hv4 hv6 hk0 (by omega)
  obtain ⟨E, hm7⟩ := hm6.stub (l := l) hSR hR (by omega) (by omega)
  have hm8 := hm7.region hSR hR (by omega) .rw hv5 hv7 (by omega) (by omega)
  obtain ⟨role8, D8, hb8, -, hD8⟩ := hm8
  obtain ⟨role9, hb9, hcov⟩ := hb8.mapLo (h := true) (q := R)
    (n := ramPages - R) .rw (by omega) (by omega) (by
      intro x hx
      have hx' := hD8 x hx
      omega) (by omega) (by omega)
  rw [← hram] at hb9 hcov
  have hroot : bootRoot S true = S := if_pos rfl
  rw [hroot] at hcov
  unfold mapHigh
  rw [hS]
  dsimp only
  rw [hhi, hlo]
  exact ⟨rfl, hSR, ⟨role9, _, { hb9 with count := hb9.count.trans (by decide) }⟩,
    fun q hq hlt => hcov q hq (by omega)⟩

theorem mapHigh_linearTree (hl : l.Ok) (ram : ℕ → ℕ → Word) :
    LinearTree (reservedPages l.reservedMemory) (mapHigh l ram).2.2.ram
      (mapHigh l ram).1 := by
  obtain ⟨hroot, hSR, ⟨role, D, hb⟩, hcov⟩ := mapHigh_state hl ram
  have hcount := hb.count
  rw [hroot]
  exact hb.shape.linearTree hb.hi (by omega) hcov

theorem mapHigh_static (hl : l.Ok) (ram : ℕ → ℕ → Word) {p : ℕ}
    (hp : TablePage (mapHigh l ram).2.2.ram (mapHigh l ram).1 p) : l.staticStart ≤ p := by
  obtain ⟨hroot, -, ⟨role, D, hb⟩, -⟩ := mapHigh_state hl ram
  rw [hroot] at hp
  obtain ⟨s, hs⟩ := hb.shape.tablePage hb.hi hp
  exact (hb.shape.owned p s hs).1

end MapHigh

end Rpos
