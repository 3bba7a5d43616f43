import Rpos.Memory.KernelMap
import Rpos.Memory.PageTables
import Rpos.System.Vma

/-!
# Faults of user processes

`check_vma` of `userfault.c` maps a page for a fault inside a VMA, with the
permissions that the VMA has. The permissions are a byte whose bits are read
as flags of `map`, so that a bit above `VMA_EXEC` acts as `MAP_KERNEL`,
`MAP_DEVICE` or `MAP_CACHE`.
-/

namespace Rpos

open Base

/-! ## §1  `check_vma` -/

def faultVma (h : VmaHeap) (vmas : List ℕ) (addr : Word) : Option ℕ :=
  vmas.find? fun v => decide ((h.vma v).Contains addr)

def checkVma (allocPt : Machine → Option (ℕ × Machine)) (h : VmaHeap) (vmas : List ℕ)
    (ttbr : ℕ) (faultingAddress : Word) (m : Machine) : Option (Bool × Machine) :=
  match faultVma h vmas faultingAddress with
  | none => some (false, m)
  | some v => do
      let (page, m) ← m.buddyAlloc pageSize
      let phys := vaToPa page
      let m ← map allocPt (alignDownPage faultingAddress).toNat phys 0
        (mapUser ||| (h.vma v).permissions.toNat) ttbr m
      some (true, m)

inductive Access
  | read
  | write
  | execute
deriving DecidableEq, Repr

def permits (w : Word) : Access → Prop
  | .read => Pte.ap.get w = el0RwEl1Rw ∨ Pte.ap.get w = el0RoEl1Ro
  | .write => Pte.ap.get w = el0RwEl1Rw
  | .execute => Pte.uxn.get w = 0

instance (w : Word) : (k : Access) → Decidable (permits w k)
  | .read => inferInstanceAs (Decidable (_ ∨ _))
  | .write => inferInstanceAs (Decidable (_ = _))
  | .execute => inferInstanceAs (Decidable (_ = _))

/-! ## §2  The descriptor that a fault installs -/

/-- The attributes for a page of a VMA with these permissions. -/
def userAttributes (permissions : BitVec 8) : Word :=
  parseBlockFlags (mapUser ||| permissions.toNat) 1

/-- The permissions of a VMA that grant an access to its pages. -/
def Grants (permissions : BitVec 8) : Access → Prop
  | .read => permissions.getLsbD 0
  | .write => permissions.getLsbD 0 ∧ permissions.getLsbD 1
  | .execute => permissions.getLsbD 2 ∧ ¬ permissions.getLsbD 4

instance (permissions : BitVec 8) : (k : Access) → Decidable (Grants permissions k)
  | .read => inferInstanceAs (Decidable (_ = _))
  | .write => inferInstanceAs (Decidable (_ ∧ _))
  | .execute => inferInstanceAs (Decidable (_ ∧ _))

theorem userAttributes_permits (permissions : BitVec 8) (k : Access) :
    permits (userAttributes permissions) k ↔ Grants permissions k := by
  revert permissions
  cases k <;> decide +kernel

/-- No access of the kernel to instructions, no page that EL0 may both write and
execute, and normal memory: index 1 of `MAIR_EL1` is device memory. -/
structure Harmless (w : Word) : Prop where
  pxn : Pte.pxn.get w = 1
  writeOrExecute : ¬ (permits w .write ∧ permits w .execute)
  normal : Pte.attrIndex.get w ≠ 1

theorem harmless_iff (w : Word) : Harmless w ↔ Pte.pxn.get w = 1 ∧
    ¬ (permits w .write ∧ permits w .execute) ∧ Pte.attrIndex.get w ≠ 1 :=
  ⟨fun ⟨h1, h2, h3⟩ => ⟨h1, h2, h3⟩, fun ⟨h1, h2, h3⟩ => ⟨h1, h2, h3⟩⟩

theorem userAttributes_harmless (permissions : BitVec 8) :
    Harmless (userAttributes permissions) ↔
      ¬ (permissions.getLsbD 2 ∧ permissions.getLsbD 4) ∧
      ¬ (permissions.getLsbD 0 ∧ permissions.getLsbD 1 ∧ permissions.getLsbD 2 ∧
        ¬ permissions.getLsbD 4) ∧
      ¬ permissions.getLsbD 5 := by
  rw [harmless_iff]
  revert permissions
  decide +kernel

/-! ## §3  What a fault stores -/

section Store

variable {allocPt : Machine → Option (ℕ × Machine)} {h : VmaHeap} {vmas : List ℕ}
  {ttbr : ℕ} {addr : Word} {m m' : Machine}

/-- The walk of `map_pages` for `va` ends at the L3 table `l3`. -/
def WalksTo (allocPt : Machine → Option (ℕ × Machine)) (va ptBase l3 : ℕ)
    (m m3 : Machine) : Prop :=
  ∃ l1 m1 l2 m2, nextTable allocPt ptBase (idx0 va) m = some (l1, m1) ∧
    nextTable allocPt l1 (idx1 va) m1 = some (l2, m2) ∧
    nextTable allocPt l2 (idx2 va) m2 = some (l3, m3)

/-- The fault is answered by a store of `d` to an invalid L3 slot. -/
def InstallsLeaf (allocPt : Machine → Option (ℕ × Machine)) (h : VmaHeap) (vmas : List ℕ)
    (ttbr : ℕ) (addr d : Word) (m m' : Machine) : Prop :=
  checkVma allocPt h vmas ttbr addr m = some (true, m') ∧
    ∃ page m1 l3 m3, m.buddyAlloc pageSize = some (page, m1) ∧
      WalksTo allocPt (alignDownPage addr).toNat ttbr l3 m1 m3 ∧
      Pte.valid.get (m3.ram l3 (idx3 (alignDownPage addr).toNat)) ≠ 1 ∧
      m' = m3.write l3 (idx3 (alignDownPage addr).toNat) d

theorem checkVma_eq {v page : ℕ} {m1 : Machine} (hv : faultVma h vmas addr = some v)
    (halloc : m.buddyAlloc pageSize = some (page, m1)) :
    checkVma allocPt h vmas ttbr addr m =
      (mapPage allocPt (alignDownPage addr).toNat (vaToPa page)
        (mapUser ||| (h.vma v).permissions.toNat) ttbr m1).map fun m' => (true, m') := by
  rw [checkVma, hv]
  dsimp only
  rw [halloc, Option.bind_eq_bind, Option.bind_some]
  dsimp only
  rw [map_page]
  cases mapPage allocPt (alignDownPage addr).toNat (vaToPa page)
    (mapUser ||| (h.vma v).permissions.toNat) ttbr m1 with
  | none => rfl
  | some m' => rfl

theorem InstallsLeaf.leaf {v : ℕ} {d : Word} (hinst : InstallsLeaf allocPt h vmas ttbr addr d m m')
    (hv : faultVma h vmas addr = some v) :
    ∃ pa, d = leafDescriptor (mapUser ||| (h.vma v).permissions.toNat) 1 pa := by
  obtain ⟨hrun, page, m1, l3, m3, halloc, ⟨l1, n1, l2, n2, hrun1, hrun2, hrun3⟩, hinvalid,
    hstore⟩ := hinst
  rw [checkVma_eq hv halloc, Option.map_eq_some_iff] at hrun
  obtain ⟨m'', hpage, hsame⟩ := hrun
  obtain ⟨k1, i1, k2, i2, k3, i3, hk1, hk2, hk3, hlt⟩ := mapPage_walk hpage
  rw [hrun1, Option.some.injEq, Prod.mk.injEq] at hk1
  obtain ⟨rfl, rfl⟩ := hk1
  rw [hrun2, Option.some.injEq, Prod.mk.injEq] at hk2
  obtain ⟨rfl, rfl⟩ := hk2
  rw [hrun3, Option.some.injEq, Prod.mk.injEq] at hk3
  obtain ⟨rfl, rfl⟩ := hk3
  rw [mapPage_run hrun1 hrun2 hrun3 hlt, if_neg hinvalid, Option.some.injEq] at hpage
  refine ⟨vaToPa page, ?_⟩
  have hm : m3.write l3 (idx3 (alignDownPage addr).toNat) d =
      m3.write l3 (idx3 (alignDownPage addr).toNat)
        (leafDescriptor (mapUser ||| (h.vma v).permissions.toNat) 1 (vaToPa page)) := by
    rw [← hstore, hpage]
    exact (Prod.mk.inj hsame).2.symm
  have hword := congrArg (fun n => n.ram l3 (idx3 (alignDownPage addr).toNat)) hm
  simp only [write_ram_eq, Radix.setWord_self] at hword
  exact hword

/-- A fault on an unmapped page installs a leaf, if its table pages are granted. -/
theorem installsLeaf_of_unmapped {v page : ℕ} {m1 : Machine}
    (hv : faultVma h vmas addr = some v) (halloc : m.buddyAlloc pageSize = some (page, m1))
    (ht : PageTree TableOrPage m1.ram ttbr)
    (hreq : PageRequests allocPt (TableGranted allocPt ttbr) (alignDownPage addr).toNat ttbr m1)
    (hnone : pageRadix.lookup m1.ram 3 ttbr ((alignDownPage addr).toNat / pageSize) = none) :
    ∃ m', InstallsLeaf allocPt h vmas ttbr addr
      (leafDescriptor (mapUser ||| (h.vma v).permissions.toNat) 1 (vaToPa page)) m m' := by
  obtain ⟨l1, n1, l2, n2, l3, n3, hrun1, hrun2, hrun3, hw⟩ :=
    walk_l3 tableOrPage_admits ht (fun _ _ hform => hform) hreq
  obtain ⟨-, -, -, h3⟩ := idx_eq (alignDownPage addr).toNat
  have hinvalid : ¬ Pte.valid.get (n3.ram l3 (idx3 (alignDownPage addr).toNat)) = 1 := by
    rw [h3]
    exact fun hvalid => (hw.lookup_l3 fun _ hform => hform).mp hvalid hnone
  refine ⟨_, ?_, page, m1, l3, n3, halloc, ⟨l1, n1, l2, n2, hrun1, hrun2, hrun3⟩, hinvalid, rfl⟩
  rw [checkVma_eq hv halloc, mapPage_run hrun1 hrun2 hrun3 hw.table_lt, if_neg hinvalid]
  rfl

end Store

/-! ## §4  The protections of `sys_mmap` -/

/-- The permissions that `sys_mmap` gives a new VMA. -/
def mmapPermissions (prot : Word) : BitVec 8 :=
  let prot := if prot &&& protNone ≠ 0 then 0 else prot
  let prot :=
    if prot &&& protWrite ≠ 0 ∧ prot &&& protExec ≠ 0 then protRead ||| protWrite
    else prot
  prot.setWidth 8

/-- The bits of a request that `sys_mmap` passes on without harm: `PROT_NONE` and
`PROT_WRITE | PROT_EXEC` replace the request; otherwise bit 4 makes executable
memory the kernel's and bit 5 makes it device memory. -/
def ProtHarmless (prot : Word) : Prop :=
  prot.getLsbD 3 ∨ (prot.getLsbD 1 ∧ prot.getLsbD 2) ∨
    (¬ (prot.getLsbD 2 ∧ prot.getLsbD 4) ∧ ¬ prot.getLsbD 5)

instance (prot : Word) : Decidable (ProtHarmless prot) :=
  inferInstanceAs (Decidable (_ ∨ _))

theorem and_flag_ne_zero (w : Word) {flag : Word} {i : ℕ} (hi : i < 64)
    (hflag : flag = BitVec.twoPow 64 i) : w &&& flag ≠ 0 ↔ w.getLsbD i = true := by
  have hbit : flag ≠ 0 := by
    intro hzero
    have hself : (BitVec.twoPow 64 i).getLsbD i = true := by
      simp only [BitVec.getLsbD_twoPow, hi, decide_true, Bool.and_self]
    rw [← hflag, hzero] at hself
    simp at hself
  rw [hflag, BitVec.and_twoPow, ← hflag]
  cases hw : w.getLsbD i with
  | true => simp only [if_true, hbit, ne_eq, not_false_eq_true]
  | false => simp

theorem mmapPermissions_eq (prot : Word) :
    mmapPermissions prot =
      if prot.getLsbD 3 then 0 else if prot.getLsbD 1 ∧ prot.getLsbD 2 then 3
      else prot.setWidth 8 := by
  have hnone := and_flag_ne_zero prot (by decide : 3 < 64)
    (by decide : protNone = BitVec.twoPow 64 3)
  have hwrite := and_flag_ne_zero prot (by decide : 1 < 64)
    (by decide : protWrite = BitVec.twoPow 64 1)
  have hexec := and_flag_ne_zero prot (by decide : 2 < 64)
    (by decide : protExec = BitVec.twoPow 64 2)
  unfold mmapPermissions
  by_cases h3 : prot.getLsbD 3 = true
  · rw [if_pos (hnone.mpr h3), if_pos h3]
    rfl
  rw [if_neg fun h => h3 (hnone.mp h), if_neg h3]
  dsimp only
  simp only [hwrite, hexec]
  split_ifs <;> rfl

/-- The sanitised request has no writable executable page; what is left of it
decides. -/
theorem mmapPermissions_harmless (prot : Word) :
    Harmless (userAttributes (mmapPermissions prot)) ↔ ProtHarmless prot := by
  rw [userAttributes_harmless, mmapPermissions_eq, ProtHarmless]
  by_cases h3 : prot.getLsbD 3 = true
  · rw [if_pos h3]
    exact iff_of_true (by decide) (Or.inl h3)
  rw [if_neg h3]
  by_cases hwx : prot.getLsbD 1 = true ∧ prot.getLsbD 2 = true
  · rw [if_pos hwx]
    exact iff_of_true (by decide) (Or.inr (Or.inl hwx))
  rw [if_neg hwx]
  simp only [BitVec.getLsbD_setWidth, h3, hwx, false_or, Nat.reduceLT, decide_true,
    Bool.true_and]
  tauto

theorem sysMmap_new {h h' : VmaHeap} {p p' : PcbMem} {addr len prot w : Word}
    (hstep : sysMmap h p addr len prot = some (w, h', p'))
    (hnew : foundVma h p.vmas addr = none) :
    h.allocated < h'.allocated ∧
      (h'.vma h.allocated).permissions = mmapPermissions prot := by
  unfold sysMmap at hstep
  rw [hnew] at hstep
  cases hk : h.kmalloc with
  | none => simp [hk] at hstep
  | some r =>
      obtain ⟨v, h₁⟩ := r
      obtain ⟨rfl, rfl⟩ := VmaHeap.kmalloc_eq hk
      simp only [hk, Option.some.injEq, Prod.mk.injEq] at hstep
      rw [← hstep.2.1, VmaHeap.set_self]
      exact ⟨Nat.lt_succ_self _, rfl⟩

theorem vmaStep_permissions {s s' : VmaHeap × PcbMem} {call : VmaCall} {w : Word} {v : ℕ}
    {permissions : BitVec 8}
    (hs : v < s.1.allocated ∧ (s.1.vma v).permissions = permissions)
    (hstep : vmaStep s call = some (w, s')) :
    v < s'.1.allocated ∧ (s'.1.vma v).permissions = permissions := by
  obtain ⟨h, p⟩ := s
  obtain ⟨h', p'⟩ := s'
  obtain ⟨hv, hperm⟩ := hs
  cases vmaStep_outcome hstep with
  | same => exact ⟨hv, hperm⟩
  | added x heapVma _ =>
      refine ⟨Nat.lt_succ_of_lt hv, ?_⟩
      show (VmaHeap.vma _ v).permissions = permissions
      rw [VmaHeap.set_other (Nat.ne_of_lt hv)]
      exact hperm
  | extended heap _ e =>
      refine ⟨hv, ?_⟩
      by_cases hheap : v = heap
      · subst hheap
        show (VmaHeap.vma _ v).permissions = permissions
        rw [VmaHeap.set_self]
        exact hperm
      · show (VmaHeap.vma _ v).permissions = permissions
        rw [VmaHeap.set_other hheap]
        exact hperm

theorem leafDescriptor_permits (flags pa : ℕ) (k : Access) :
    permits (leafDescriptor flags 1 pa) k ↔ permits (parseBlockFlags flags 1) k := by
  have hap : Pte.ap.get (leafDescriptor flags 1 pa) = Pte.ap.get (parseBlockFlags flags 1) :=
    BitField.get_set_of_disjoint (by decide) _ _
  have huxn : Pte.uxn.get (leafDescriptor flags 1 pa) = Pte.uxn.get (parseBlockFlags flags 1) :=
    BitField.get_set_of_disjoint (by decide) _ _
  cases k <;> simp only [permits, hap, huxn]

theorem leafDescriptor_harmless (flags pa : ℕ) :
    Harmless (leafDescriptor flags 1 pa) ↔ Harmless (parseBlockFlags flags 1) := by
  have hpxn : Pte.pxn.get (leafDescriptor flags 1 pa) = Pte.pxn.get (parseBlockFlags flags 1) :=
    BitField.get_set_of_disjoint (by decide) _ _
  have hattr : Pte.attrIndex.get (leafDescriptor flags 1 pa) =
      Pte.attrIndex.get (parseBlockFlags flags 1) :=
    BitField.get_set_of_disjoint (by decide) _ _
  rw [harmless_iff, harmless_iff, hpxn, hattr, leafDescriptor_permits, leafDescriptor_permits]

/-! A process with its stack VMA, over free memory and an empty tree at page 0. -/

def userHeap : VmaHeap :=
  { vmaHeap₀ with allocated := 1 }.set 0
    ⟨userStackTop - 4096 * 2, userStackTop, vmaRead ||| vmaWrite⟩

def userPcb : PcbMem := ⟨[0], 0, 0, none⟩

def userMachine : Machine :=
  startMachine smallLayout.reservedMemory (fun _ _ => 0) blankBuddy

theorem userMachine_alloc :
    ∃ b, userMachine.buddyAlloc pageSize =
      some (pageAddr 258048, { userMachine with buddy := b }) := by
  obtain ⟨b1, -, hb1, -⟩ := buddyAlloc_small blankBuddy
  refine ⟨b1, ?_⟩
  unfold Machine.buddyAlloc userMachine startMachine
  dsimp only
  rw [hb1]
  rfl

theorem userMachine_hasPages (b : Buddy) :
    HasPages TableOrPage 0 (ramPages - 1) { userMachine with buddy := b } :=
  HasPages.blank tableOrPage_admits (fun _ => rfl) rfl

theorem userMachine_installs {h : VmaHeap} {vmas : List ℕ} {v : ℕ}
    (hv : faultVma h vmas 0x1000 = some v) :
    ∃ m', InstallsLeaf takeNextPage h vmas 0 0x1000
      (leafDescriptor (mapUser ||| (h.vma v).permissions.toNat) 1 (vaToPa (pageAddr 258048)))
      userMachine m' := by
  obtain ⟨b, halloc⟩ := userMachine_alloc
  have hm := userMachine_hasPages b
  refine installsLeaf_of_unmapped hv halloc hm.tree (hm.mono (by decide : 0 + 3 ≤ _)).page ?_
  exact Radix.lookup_void fun i _ => zero_void (fun _ => rfl) i

theorem userProcess_mmap (prot : Word) :
    ∃ h₁ p₁, sysMmap userHeap userPcb 0x1000 0x1000 prot = some (0x1000, h₁, p₁) ∧
      foundVma userHeap userPcb.vmas 0x1000 = none ∧
      faultVma h₁ p₁.vmas 0x1000 = some userHeap.allocated := by
  refine ⟨_, _, rfl, rfl, ?_⟩
  refine List.find?_cons_of_pos (decide_eq_true ?_)
  rw [VmaHeap.set_self]
  have hlow : alignDownPage 0x1000 ≤ 0x1000 := by decide
  have hhigh : 0x1000 < alignUpPage (0x1000 + 0x1000) := by decide
  exact ⟨hlow, hhigh⟩

/-- The leaf installed by any later fault in a VMA that `sys_mmap` made is harmless
exactly when the request was. -/
theorem mmap_leaf_harmless_iff {h h₁ h₂ : VmaHeap} {p p₁ p₂ : PcbMem}
    {addr len prot w : Word} {calls : List VmaCall} {ws : List Word}
    (hmmap : sysMmap h p addr len prot = some (w, h₁, p₁))
    (hnew : foundVma h p.vmas addr = none)
    (hcalls : exec vmaStep (h₁, p₁) calls = some (ws, h₂, p₂))
    {allocPt : Machine → Option (ℕ × Machine)} {ttbr : ℕ} {a d : Word} {m m' : Machine}
    (hfault : faultVma h₂ p₂.vmas a = some h.allocated)
    (hinst : InstallsLeaf allocPt h₂ p₂.vmas ttbr a d m m') :
    Harmless d ↔ ProtHarmless prot := by
  have hperm := (reached_inv (fun _ _ _ _ hs hstep => vmaStep_permissions hs hstep) calls _ ws _
    (sysMmap_new hmmap hnew) hcalls).2
  obtain ⟨pa, rfl⟩ := hinst.leaf hfault
  rw [leafDescriptor_harmless, hperm]
  exact mmapPermissions_harmless prot

theorem mmap_leaf_harmless_iff_example :
    ∃ h₁ p₁ m' d, sysMmap userHeap userPcb 0x1000 0x1000 protRead = some (0x1000, h₁, p₁) ∧
      InstallsLeaf takeNextPage h₁ p₁.vmas 0 0x1000 d userMachine m' ∧
      (Harmless d ↔ ProtHarmless protRead) := by
  obtain ⟨h₁, p₁, hmmap, hnew, hfault⟩ := userProcess_mmap protRead
  obtain ⟨m', hinst⟩ := userMachine_installs hfault
  have hcalls : exec vmaStep (h₁, p₁) [] = some ([], h₁, p₁) := rfl
  exact ⟨h₁, p₁, m', _, hmmap, hinst,
    mmap_leaf_harmless_iff hmmap hnew hcalls hfault hinst⟩

/-- `PROT_READ | PROT_EXEC` with bit 4 makes a page that the kernel may execute. -/
theorem mmap_kernel_executable :
    ∃ h₁ p₁ m' d, sysMmap userHeap userPcb 0x1000 0x1000 (protRead ||| protExec ||| 16) =
        some (0x1000, h₁, p₁) ∧
      foundVma userHeap userPcb.vmas 0x1000 = none ∧
      faultVma h₁ p₁.vmas 0x1000 = some userHeap.allocated ∧
      InstallsLeaf takeNextPage h₁ p₁.vmas 0 0x1000 d userMachine m' ∧
      Pte.pxn.get d = 0 ∧ ¬ Harmless d := by
  obtain ⟨h₁, p₁, hmmap, hnew, hfault⟩ := userProcess_mmap (protRead ||| protExec ||| 16)
  obtain ⟨m', hinst⟩ := userMachine_installs hfault
  have hperm := (sysMmap_new hmmap hnew).2
  have hpxn : Pte.pxn.get (leafDescriptor
      (mapUser ||| (h₁.vma userHeap.allocated).permissions.toNat) 1
      (vaToPa (pageAddr 258048))) = 0 := by
    rw [hperm, leafDescriptor, BitField.get_set_of_disjoint (by decide)]
    decide +kernel
  refine ⟨h₁, p₁, m', _, hmmap, hnew, hfault, hinst, hpxn, fun hharmless => ?_⟩
  rw [hharmless.pxn] at hpxn
  exact absurd hpxn (by decide)

end Rpos
