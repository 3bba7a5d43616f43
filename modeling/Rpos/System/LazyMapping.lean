import Rpos.Memory.MapRequests
import Rpos.System.CowFault

/-!
# Lazy mapping

A fault inside a VMA is answered by `check_vma` with a page of its own. The
handler looks at the range of the VMA alone: the page is lost when the address
is already mapped, and the access faults again when the permissions of the VMA
do not grant it.
-/

namespace Rpos

open Base

/-! ## §1  Answers -/

/-- The entry of a user address. `TTBR0` translates the addresses below 2^48. -/
def userPte (ram : ℕ → ℕ → Word) (ttbr : ℕ) (addr : Word) : Option Word :=
  if addr.toNat < 2 ^ 48 then
    (pageRadix.lookup ram 3 ttbr (addr.toNat / pageSize)).map Prod.snd
  else none

def Faults (ram : ℕ → ℕ → Word) (ttbr : ℕ) (addr : Word) (k : Access) : Prop :=
  ∀ d, userPte ram ttbr addr = some d → ¬ permits d k

/-- The page that was allocated for the fault is the target of the entry of the
address, and the entry permits the access. -/
def Answered (ttbr : ℕ) (addr : Word) (k : Access) (m m' : Machine) : Prop :=
  ∃ f m1 d, m.buddyAlloc pageSize = some (pageAddr f, m1) ∧ f < ramPages ∧
    userPte m'.ram ttbr addr = some d ∧ Pte.address.get d = f ∧ permits d k

section Answers

variable {allocPt : Machine → Option (ℕ × Machine)} {array l0Table ttbr R : ℕ}
  {h : VmaHeap} {vmas : List ℕ} {addr : Word} {m m' : Machine}

theorem alignDownPage_page (a : Word) :
    (alignDownPage a).toNat / pageSize = a.toNat / pageSize := by
  rw [alignDownPage_toNat]
  exact Nat.mul_div_cancel _ (by decide)

theorem BuddyOk.page_or_null (hb : BuddyOk R m.buddy) (hR : 2048 ≤ R) {page : ℕ}
    {m1 : Machine} (halloc : m.buddyAlloc pageSize = some (page, m1)) :
    m1.ram = m.ram ∧ (page = 0 ∨ ∃ f, page = pageAddr f ∧ f < ramPages) := by
  obtain ⟨page', b, hrun, -, hpage⟩ :=
    hb.alloc hR (by decide : pageSize ≤ 2 ^ 30)
  rw [Machine.buddyAlloc, hrun, Option.map_some, Option.some.injEq, Prod.mk.injEq] at halloc
  obtain ⟨rfl, rfl⟩ := halloc
  refine ⟨rfl, hpage.imp_right fun hframe => ?_⟩
  obtain ⟨f, hf, -, hlt⟩ := hframe
  exact ⟨f, hf, hlt⟩

theorem handleEl0Fault_mapped
    (hrun : handleEl0Fault allocPt array l0Table h vmas ttbr addr m = some (.mapped, m')) :
    ∃ v page m1, faultVma h vmas addr = some v ∧
      m.buddyAlloc pageSize = some (page, m1) ∧
      mapPage allocPt (alignDownPage addr).toNat (vaToPa page)
        (mapUser ||| (h.vma v).permissions.toNat) ttbr m1 = some m' := by
  unfold handleEl0Fault at hrun
  rw [Option.bind_eq_bind, Option.bind_eq_some_iff] at hrun
  obtain ⟨marked, -, hrun⟩ := hrun
  cases marked with
  | some slot =>
      -- the other branch ends with `copied`
      dsimp only at hrun
      rw [Option.bind_eq_bind, Option.bind_eq_some_iff] at hrun
      obtain ⟨n, -, heq⟩ := hrun
      exact absurd (Prod.mk.inj (Option.some.inj heq)).1 (by decide)
  | none =>
      dsimp only at hrun
      rw [Option.bind_eq_bind, Option.bind_eq_some_iff] at hrun
      obtain ⟨⟨resolved, n⟩, hvma, heq⟩ := hrun
      obtain ⟨hend, rfl⟩ := Prod.mk.inj (Option.some.inj heq)
      cases hv : faultVma h vmas addr with
      | none =>
          rw [checkVma, hv] at hvma
          obtain ⟨rfl, -⟩ := Prod.mk.inj (Option.some.inj hvma)
          exact absurd hend (by simp)
      | some v =>
          cases halloc : m.buddyAlloc pageSize with
          | none =>
              rw [checkVma, hv] at hvma
              dsimp only at hvma
              rw [halloc] at hvma
              exact absurd hvma (Option.some_ne_none _).symm
          | some r =>
              obtain ⟨page, m1⟩ := r
              rw [checkVma_eq hv halloc, Option.map_eq_some_iff] at hvma
              obtain ⟨n', hpage, heq⟩ := hvma
              obtain ⟨-, rfl⟩ := Prod.mk.inj heq
              exact ⟨v, page, m1, rfl, rfl, hpage⟩

/-- The handler returns for a fault in a VMA whose entry is not marked, if its tables are
granted. -/
theorem handleEl0Fault_returns (array l0Table : ℕ) {v page : ℕ} {m1 : Machine}
    (hcow : checkCow ttbr addr m = some none) (hv : faultVma h vmas addr = some v)
    (halloc : m.buddyAlloc pageSize = some (page, m1)) (ht : PageTree TableOrPage m1.ram ttbr)
    (hreq : PageRequests allocPt (TableGranted allocPt ttbr) (alignDownPage addr).toNat ttbr
      m1) :
    ∃ m', handleEl0Fault allocPt array l0Table h vmas ttbr addr m = some (.mapped, m') := by
  obtain ⟨m', hpage, -⟩ := mapPage_spec ht (vaToPa page)
    (mapUser ||| (h.vma v).permissions.toNat) hreq
  refine ⟨m', ?_⟩
  rw [handleEl0Fault, hcow, Option.bind_eq_bind, Option.bind_some]
  dsimp only
  rw [checkVma_eq hv halloc, hpage]
  rfl

theorem mapPage_userPte {permissions : BitVec 8} {pa : ℕ} {m1 : Machine}
    (ht : PageTree TableOrPage m1.ram ttbr)
    (hreq : PageRequests allocPt (TableGranted allocPt ttbr) (alignDownPage addr).toNat ttbr m1)
    (hpage : mapPage allocPt (alignDownPage addr).toNat pa (mapUser ||| permissions.toNat) ttbr
      m1 = some m') (hlow : addr.toNat < 2 ^ 48) :
    userPte m'.ram ttbr addr =
      if userPte m1.ram ttbr addr = none then
        some (leafDescriptor (mapUser ||| permissions.toNat) 1 pa)
      else userPte m1.ram ttbr addr := by
  obtain ⟨n, hrun, -, hlook⟩ := mapPage_spec ht pa (mapUser ||| permissions.toNat) hreq
  rw [hpage, Option.some.injEq] at hrun
  subst hrun
  have hx : addr.toNat / pageSize < tableSize ^ 4 := by
    simp only [pageSize, tableSize]
    omega
  have hlook := hlook _ hx
  rw [alignDownPage_page, Nat.mod_eq_of_lt hx] at hlook
  rw [userPte, userPte, if_pos hlow, if_pos hlow, hlook]
  by_cases hnone : pageRadix.lookup m1.ram 3 ttbr (addr.toNat / pageSize) = none
  · rw [if_pos ⟨rfl, hnone⟩, if_pos (Option.map_eq_none_iff.mpr hnone)]
    rfl
  · rw [if_neg fun h => hnone h.2, if_neg fun h => hnone (Option.map_eq_none_iff.mp h)]

end Answers

def PageFree (m : Machine) : Prop :=
  ∃ page m1, m.buddyAlloc pageSize = some (page, m1) ∧ page ≠ 0

/-- `Q` holds wherever `check_vma` requests a table for the fault. -/
def FaultRequests (allocPt : Machine → Option (ℕ × Machine)) (Q : Machine → Prop) (ttbr : ℕ)
    (addr : Word) (m : Machine) : Prop :=
  ∀ page m1, m.buddyAlloc pageSize = some (page, m1) →
    PageRequests allocPt Q (alignDownPage addr).toNat ttbr m1

/-- A fault in a VMA, at an address whose entry is not marked: if the tables it needs are
granted and their requests leave the tree alone, the handler returns through `check_vma`,
and the fault is answered exactly when a page is free, the address is an unmapped address
of the user's half, and the permissions of the VMA grant the access. -/
theorem fault_answered_iff {array l0Table ttbr R v : ℕ} {h : VmaHeap} {vmas : List ℕ}
    {addr : Word} {k : Access} {m : Machine} (hR : 2048 ≤ R) (hb : BuddyOk R m.buddy)
    (ht : PageTree TableOrPage m.ram ttbr)
    (hfresh : FaultRequests (buddyAllocPt l0Table) (FreshGranted (buddyAllocPt l0Table) ttbr)
      ttbr addr m)
    (hspare : FaultRequests (buddyAllocPt l0Table) (SparesTree (buddyAllocPt l0Table) ttbr)
      ttbr addr m)
    (hfault : Faults m.ram ttbr addr k) (hcow : checkCow ttbr addr m = some none)
    (hv : faultVma h vmas addr = some v) :
    ∃ m', handleEl0Fault (buddyAllocPt l0Table) array l0Table h vmas ttbr addr m =
        some (.mapped, m') ∧
      (Answered ttbr addr k m m' ↔
        PageFree m ∧ addr.toNat < 2 ^ 48 ∧ userPte m.ram ttbr addr = none ∧
          Grants (h.vma v).permissions k) := by
  obtain ⟨page, m1, halloc⟩ : ∃ page m1, m.buddyAlloc pageSize = some (page, m1) := by
    obtain ⟨page, b, hrun, -⟩ := hb.alloc hR (by decide : pageSize ≤ 2 ^ 30)
    exact ⟨page, { m with buddy := b }, by rw [Machine.buddyAlloc, hrun, Option.map_some]⟩
  obtain ⟨hram, hcase⟩ := hb.page_or_null hR halloc
  have hreq := (hfresh page m1 halloc).imp₂ (fun _ => FreshGranted.table)
    (hspare page m1 halloc)
  obtain ⟨m', hrun⟩ := handleEl0Fault_returns array l0Table hcow hv halloc (hram ▸ ht) hreq
  refine ⟨m', hrun, ?_⟩
  obtain ⟨v', page', m1', hv', halloc', hpage⟩ := handleEl0Fault_mapped hrun
  rw [hv, Option.some.injEq] at hv'
  subst hv'
  rw [halloc, Option.some.injEq, Prod.mk.injEq] at halloc'
  obtain ⟨rfl, rfl⟩ := halloc'
  have hpte := mapPage_userPte (hram ▸ ht) hreq hpage
  rw [hram] at hpte
  have hleaf := (leafDescriptor_permits (mapUser ||| (h.vma v).permissions.toNat)
    (vaToPa page) k).trans (userAttributes_permits (h.vma v).permissions k)
  constructor
  · rintro ⟨f, n, d, halloc', hf, hd, -, hpermits⟩
    rw [halloc, Option.some.injEq, Prod.mk.injEq] at halloc'
    have hlow : addr.toNat < 2 ^ 48 := by
      by_contra hge
      rw [userPte, if_neg hge] at hd
      exact absurd hd (Option.some_ne_none _).symm
    rw [hpte hlow] at hd
    have hnone : userPte m.ram ttbr addr = none := by
      by_contra hsome
      rw [if_neg hsome] at hd
      exact hfault d hd hpermits
    rw [if_pos hnone, Option.some.injEq] at hd
    refine ⟨⟨page, _, halloc, ?_⟩, hlow, hnone, hleaf.mp (hd ▸ hpermits)⟩
    rw [halloc'.1]
    exact pageAddr_ne_zero hf
  · rintro ⟨⟨page', n, halloc', hne⟩, hlow, hnone, hgrants⟩
    rw [halloc, Option.some.injEq, Prod.mk.injEq] at halloc'
    rw [← halloc'.1] at hne
    obtain ⟨f, hf, hlt⟩ := hcase.resolve_left hne
    have hd := hpte hlow
    rw [if_pos hnone] at hd
    refine ⟨f, m1, _, ?_, hlt, hd, ?_, hleaf.mpr hgrants⟩
    · rw [halloc, hf]
    · rw [leafDescriptor_address, hf, vaToPa_pageAddr hlt]
      exact Nat.mod_eq_of_lt (Nat.lt_of_lt_of_le hlt (by decide))

/-! ## §2  The first fault of a process -/

/-! A process with the empty tree at page 6. -/

theorem loaderMachine_faultRequests (addr : Word) :
    FaultRequests (buddyAllocPt 5) (TableGranted (buddyAllocPt 5) 6) 6 addr loaderMachine := by
  intro page m1 halloc
  obtain ⟨p, b, halloc', -, -, -, hm⟩ :=
    (loaderMachine_supplied.mono (by decide : 3 + 1 ≤ _)).alloc (by decide)
  rw [halloc', Option.some.injEq, Prod.mk.injEq] at halloc
  rw [← halloc.2]
  exact Supplied.page (k := 0) (by decide) hm

theorem loaderMachine_userPte (addr : Word) : userPte loaderMachine.ram 6 addr = none := by
  unfold userPte
  split_ifs with hlow
  · rw [loaderMachine_empty.unmapped]
    rfl
  · rfl

theorem loaderMachine_checkCow (addr : Word) : checkCow 6 addr loaderMachine = some none := by
  have hfollow : followValid 6 (idx0 addr.toNat) loaderMachine = some none := by
    unfold followValid
    rw [Machine.read_eq _ (by decide), Option.bind_eq_bind, Option.bind_some,
      loaderMachine_empty.blank]
    exact congrArg some (if_neg (show ¬ Pte.valid.get 0 = 1 by decide))
  unfold checkCow
  rw [hfollow]
  rfl

theorem loaderMachine_faults (k : Access) : Faults loaderMachine.ram 6 0x1000 k := by
  intro d hd
  rw [loaderMachine_userPte] at hd
  exact absurd hd (Option.some_ne_none _).symm

theorem fault_answered_iff_example :
    ∃ h₁ p₁, sysMmap userHeap userPcb 0x1000 0x1000 protRead = some (0x1000, h₁, p₁) ∧
      ∃ m', handleEl0Fault (buddyAllocPt 5) smallLayout.pageFrameArrayStart 5 h₁ p₁.vmas 6
          0x1000 loaderMachine = some (.mapped, m') ∧
        (Answered 6 0x1000 .read loaderMachine m' ↔
          PageFree loaderMachine ∧ (0x1000 : Word).toNat < 2 ^ 48 ∧
            userPte loaderMachine.ram 6 0x1000 = none ∧
            Grants (h₁.vma userHeap.allocated).permissions .read) := by
  obtain ⟨h₁, p₁, hmmap, -, hv⟩ := userProcess_mmap protRead
  have hreq := loaderMachine_faultRequests 0x1000
  exact ⟨h₁, p₁, hmmap, fault_answered_iff (by decide) loaderMachine_empty.buddy
    loaderMachine_supplied.owned.tree
    (fun page m1 halloc => (hreq page m1 halloc).imp fun _ => TableGranted.fresh)
    (fun page m1 halloc => (hreq page m1 halloc).imp fun _ => TableGranted.spares)
    (loaderMachine_faults .read) (loaderMachine_checkCow _) hv⟩

/-- A page is mapped for a read of a `PROT_NONE` region, and the read faults again. -/
theorem fault_not_granted :
    ∃ h₁ p₁ m', sysMmap userHeap userPcb 0x1000 0x1000 protNone = some (0x1000, h₁, p₁) ∧
      handleEl0Fault (buddyAllocPt 5) smallLayout.pageFrameArrayStart 5 h₁ p₁.vmas 6 0x1000
        loaderMachine = some (.mapped, m') ∧
      Faults m'.ram 6 0x1000 .read ∧ ¬ Answered 6 0x1000 .read loaderMachine m' := by
  obtain ⟨h₁, p₁, hmmap, hnew, hv⟩ := userProcess_mmap protNone
  obtain ⟨p, b, halloc, -⟩ :=
    (loaderMachine_supplied.mono (by decide : 3 + 1 ≤ _)).alloc (by decide)
  have hreq := loaderMachine_faultRequests 0x1000 _ _ halloc
  have ht : PageTree TableOrPage (Machine.ram { loaderMachine with buddy := b }) 6 :=
    loaderMachine_supplied.owned.tree
  obtain ⟨m', hrun⟩ := handleEl0Fault_returns smallLayout.pageFrameArrayStart 5
    (loaderMachine_checkCow _) hv halloc ht hreq
  have hperm := (sysMmap_new hmmap hnew).2
  obtain ⟨v, page, m1, hv', halloc', hpage⟩ := handleEl0Fault_mapped hrun
  rw [hv, Option.some.injEq] at hv'
  rw [← hv', hperm] at hpage
  rw [halloc, Option.some.injEq, Prod.mk.injEq] at halloc'
  obtain ⟨-, rfl⟩ := halloc'
  have hpte := mapPage_userPte ht hreq hpage (by decide)
  rw [show userPte (Machine.ram { loaderMachine with buddy := b }) 6 0x1000 = none from
    loaderMachine_userPte _, if_pos rfl] at hpte
  have hfaults : Faults m'.ram 6 0x1000 .read := by
    intro d hd
    rw [hpte, Option.some.injEq] at hd
    rw [← hd, leafDescriptor_permits]
    exact mt (userAttributes_permits _ .read).mp (by decide)
  exact ⟨h₁, p₁, m', hmmap, hrun, hfaults, fun ⟨_, _, d, _, _, hd, _, hpermits⟩ =>
    hfaults d hd hpermits⟩

end Rpos
