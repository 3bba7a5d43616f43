import Rpos.Memory.BlockMap
import Rpos.System.LazyMapping

/-!
# Out of memory

`buddy_alloc` returns NULL when no block is free, and `buddy_alloc_pt` passes it
on. The mapping functions store it all the same: `va_to_pa` makes it the address
of the page 2^35, and the walk goes on in the table there. They return TRUE in
every case. `check_vma` maps the NULL that it gets for the data page.
-/

namespace Rpos

open Base

/-! ## §1  Requests that find no page -/

/-- A `buddy_alloc` within this `buddy_alloc_pt` returns NULL: its own, or one in
mapping the new page. -/
def AllocNull (l0Table : ℕ) : ℕ → Machine → Prop
  | 0, _ => False
  | fuel + 1, m => ∃ page m1, m.buddyAlloc pageSize = some (page, m1) ∧
      (page = 0 ∨ ¬ PageRequests (buddyAllocPtFuel l0Table fuel)
        (fun n => ¬ AllocNull l0Table fuel n) page l0Table m1)

def TableNull (l0Table : ℕ) (m : Machine) : Prop := AllocNull l0Table (ramPages + 1) m

/-- The calls that allocate: `map_pages`, `map_blocks` and `check_vma`. -/
inductive MapCall
  | pages (va pa n flags root : ℕ)
  | blocks (va pa n flags root : ℕ)
  | fault (h : VmaHeap) (vmas : List ℕ) (root : ℕ) (addr : Word)

namespace MapCall

variable (l0Table : ℕ)

def TableFails : MapCall → Machine → Prop
  | .pages va pa n flags root, m =>
      ¬ PagesRequests (buddyAllocPt l0Table) (fun n => ¬ TableNull l0Table n) flags root n va pa m
  | .blocks va pa n flags root, m =>
      ¬ BlocksRequests (buddyAllocPt l0Table) (fun n => ¬ TableNull l0Table n) flags root n va pa m
  | .fault h vmas root addr, m => ∃ v page m1, faultVma h vmas addr = some v ∧
      m.buddyAlloc pageSize = some (page, m1) ∧
      ¬ PageRequests (buddyAllocPt l0Table) (fun n => ¬ TableNull l0Table n)
        (alignDownPage addr).toNat root m1

/-- The request of `check_vma` for the data page yields NULL. -/
def DataFails : MapCall → Machine → Prop
  | .fault h vmas _ addr, m =>
      ∃ v m1, faultVma h vmas addr = some v ∧ m.buddyAlloc pageSize = some (0, m1)
  | _, _ => False

/-- What the mapping function called returns, which is TRUE, and the machine after
the call. In `check_vma` it is `map`. -/
def returns : MapCall → Machine → Option (Bool × Machine)
  | .pages va pa n flags root, m =>
      (mapPages (buddyAllocPt l0Table) flags root n va pa m).map fun m' => (true, m')
  | .blocks va pa n flags root, m =>
      (mapBlocks (buddyAllocPt l0Table) flags root n va pa m).map fun m' => (true, m')
  | .fault h vmas root addr, m =>
      (checkVma (buddyAllocPt l0Table) h vmas root addr m).map fun r => (true, r.2)

def AlreadyMapped : MapCall → Machine → Prop
  | .fault _ _ root addr, m => pageRadix.lookup m.ram 3 root (addr.toNat / pageSize) ≠ none
  | _, _ => False

def Among (roots : Set ℕ) : MapCall → Machine → Prop
  | .fault _ _ root _, m => root ∈ roots ∧ PageTree TableOrPage m.ram root
  | _, _ => True

end MapCall

/-- Every valid descriptor in the page tables of the tree names a frame of RAM. -/
def FramesInRam (ram : ℕ → ℕ → Word) (root : ℕ) : Prop :=
  pageRadix.Every (fun _ w => Pte.valid.get w = 1 → Pte.address.get w < ramPages) ram 3 root

/-- Running out of memory does no harm to the trees: the call that fails says so,
all descriptors name frames of RAM, and what was mapped is mapped as before. -/
structure OutOfMemorySafe (l0Table : ℕ) (roots : Set ℕ) (call : MapCall) (m : Machine) :
    Prop where
  answer : call.TableFails l0Table m → ∃ m', call.returns l0Table m = some (false, m')
  after : ∃ b m', call.returns l0Table m = some (b, m') ∧
    ∀ root ∈ roots, FramesInRam m'.ram root ∧
      ∀ x r, pageRadix.lookup m.ram 3 root x = some r →
        pageRadix.lookup m'.ram 3 root x = some r

/-! ## §2  A NULL for a table -/

section TableFails

variable {allocPt : Machine → Option (ℕ × Machine)} {N : Machine → Prop}
  {t idx root va : ℕ} {m : Machine}

def NullYields (allocPt : Machine → Option (ℕ × Machine)) (N : Machine → Prop) : Prop :=
  ∀ m, N m → allocPt m = none ∨ ∃ m1, allocPt m = some (0, m1)

theorem nextTable_outside (hN : NullYields allocPt N)
    (hfail : ¬ StepRequests (fun n => ¬ N n) t idx m) {r : ℕ × Machine}
    (hrun : nextTable allocPt t idx m = some r) : ¬ r.1 < ramPages := by
  have ht := nextTable_lt hrun
  have hv : Pte.valid.get (m.ram t idx) ≠ 1 := fun hv => hfail (Or.inl hv)
  have hnull : N m := by
    by_contra hnot
    exact hfail (Or.inr hnot)
  rcases hN m hnull with hnone | ⟨m1, halloc⟩
  · rw [nextTable_none ht hv hnone] at hrun
    exact absurd hrun (Option.some_ne_none _).symm
  · rw [nextTable_null ht hv halloc, Option.some.injEq] at hrun
    rw [← hrun]
    exact (by decide : ¬ 2 ^ 35 < ramPages)

theorem mapPage_null (hN : NullYields allocPt N)
    (hfail : ¬ PageRequests allocPt (fun n => ¬ N n) va root m) (pa flags : ℕ) :
    mapPage allocPt va pa flags root m = none := by
  by_contra hsome
  obtain ⟨m', hrun⟩ := Option.ne_none_iff_exists'.mp hsome
  obtain ⟨l1, m1, l2, m2, l3, m3, hrun1, hrun2, hrun3, hl3⟩ := mapPage_walk hrun
  refine hfail ⟨?_, fun k1 n1 hk1 => ⟨?_, fun k2 n2 hk2 => ?_⟩⟩
  · by_contra hstep
    exact nextTable_outside hN hstep hrun1 (nextTable_lt hrun2)
  · rw [hrun1, Option.some.injEq, Prod.mk.injEq] at hk1
    rw [← hk1.1, ← hk1.2]
    by_contra hstep
    exact nextTable_outside hN hstep hrun2 (nextTable_lt hrun3)
  · rw [hrun1, Option.some.injEq, Prod.mk.injEq] at hk1
    rw [← hk1.1, ← hk1.2, hrun2, Option.some.injEq, Prod.mk.injEq] at hk2
    rw [← hk2.1, ← hk2.2]
    by_contra hstep
    exact nextTable_outside hN hstep hrun3 hl3

theorem mapPages_null (hN : NullYields allocPt N) (flags n : ℕ) :
    ∀ (va pa : ℕ) (m : Machine),
      ¬ PagesRequests allocPt (fun n => ¬ N n) flags root n va pa m →
      mapPages allocPt flags root n va pa m = none := by
  induction n with
  | zero => exact fun va pa m hfail => absurd trivial hfail
  | succ n ih =>
      intro va pa m hfail
      rw [mapPages, Option.bind_eq_bind]
      by_cases hpage : PageRequests allocPt (fun n => ¬ N n) va root m
      · cases hrun : mapPage allocPt va pa flags root m with
        | none => rfl
        | some m1 =>
            refine ih _ _ m1 fun hrest => hfail ⟨hpage, fun m' hm' => ?_⟩
            rw [hrun, Option.some.injEq] at hm'
            exact hm' ▸ hrest
      · rw [mapPage_null hN hpage]
        rfl

theorem mapBlock_null (hN : NullYields allocPt N)
    (hfail : ¬ BlockRequests allocPt (fun n => ¬ N n) va root m) (pa flags : ℕ) :
    mapBlock allocPt va pa flags root m = none := by
  by_contra hsome
  obtain ⟨m', hrun⟩ := Option.ne_none_iff_exists'.mp hsome
  obtain ⟨l1, m1, l2, m2, hrun1, hrun2, hl2⟩ := mapBlock_walk hrun
  refine hfail ⟨?_, fun k1 n1 hk1 => ?_⟩
  · by_contra hstep
    exact nextTable_outside hN hstep hrun1 (nextTable_lt hrun2)
  · rw [hrun1, Option.some.injEq, Prod.mk.injEq] at hk1
    rw [← hk1.1, ← hk1.2]
    by_contra hstep
    exact nextTable_outside hN hstep hrun2 hl2

theorem mapBlocks_null (hN : NullYields allocPt N) (flags n : ℕ) :
    ∀ (va pa : ℕ) (m : Machine),
      ¬ BlocksRequests allocPt (fun n => ¬ N n) flags root n va pa m →
      mapBlocks allocPt flags root n va pa m = none := by
  induction n with
  | zero => exact fun va pa m hfail => absurd trivial hfail
  | succ n ih =>
      intro va pa m hfail
      rw [mapBlocks, Option.bind_eq_bind]
      by_cases hblock : BlockRequests allocPt (fun n => ¬ N n) va root m
      · cases hrun : mapBlock allocPt va pa flags root m with
        | none => rfl
        | some m1 =>
            refine ih _ _ m1 fun hrest => hfail ⟨hblock, fun m' hm' => ?_⟩
            rw [hrun, Option.some.injEq] at hm'
            exact hm' ▸ hrest
      · rw [mapBlock_null hN hblock]
        rfl

/-- `buddy_alloc_pt` passes on a NULL, or leaves RAM in mapping its page. -/
theorem allocNull_yields (l0Table fuel : ℕ) :
    NullYields (buddyAllocPtFuel l0Table fuel) (AllocNull l0Table fuel) := by
  induction fuel with
  | zero => exact fun m hnull => absurd hnull id
  | succ fuel ih =>
      rintro m ⟨page, m1, halloc, hcase⟩
      rw [buddyAllocPtFuel_succ, halloc, Option.bind_some]
      rcases hcase with hzero | hfail
      · exact Or.inr ⟨m1, if_pos hzero⟩
      · dsimp only
        by_cases hzero : page = 0
        · exact Or.inr ⟨m1, if_pos hzero⟩
        · left
          rw [if_neg hzero, map_page, mapPage_null ih hfail]
          rfl

/-- A call in which a request for a table page fails does not come to an end in RAM:
its walk goes on in the table at the page 2^35. -/
theorem MapCall.returns_none {l0Table : ℕ} {call : MapCall}
    (hfail : call.TableFails l0Table m) : call.returns l0Table m = none := by
  have hN : NullYields (buddyAllocPt l0Table) (TableNull l0Table) :=
    allocNull_yields l0Table (ramPages + 1)
  cases call with
  | pages va pa n flags root =>
      rw [MapCall.returns, mapPages_null hN flags n va pa m hfail]
      rfl
  | blocks va pa n flags root =>
      rw [MapCall.returns, mapBlocks_null hN flags n va pa m hfail]
      rfl
  | fault h vmas root addr =>
      obtain ⟨v, page, m1, hv, halloc, hrequests⟩ := hfail
      rw [MapCall.returns, checkVma_eq hv halloc, mapPage_null hN hrequests]
      rfl

end TableFails

/-! ## §3  A NULL for the data page -/

section DataFails

variable {allocPt : Machine → Option (ℕ × Machine)} {Q : Machine → Prop}
  {root va R : ℕ} {m : Machine}

theorem buddyAlloc_null {bytes : ℕ} {m1 : Machine} (hb : BuddyOk R m.buddy)
    (hR : 2048 ≤ R) (hbytes : bytes ≤ 2 ^ 30)
    (halloc : m.buddyAlloc bytes = some (0, m1)) : m1 = m := by
  obtain ⟨w, b, hstep, -, -, hsame⟩ := buddyStep_spec hR m.buddy (.alloc bytes) hb hbytes
  rw [buddyStep, Option.map_eq_some_iff] at hstep
  obtain ⟨⟨page, b'⟩, hrun, heq⟩ := hstep
  rw [Machine.buddyAlloc, hrun, Option.map_some, Option.some.injEq, Prod.mk.injEq] at halloc
  obtain ⟨hzero, rfl⟩ := halloc
  rw [Prod.mk.injEq] at heq
  have hb' : b' = m.buddy := heq.2.trans (hsame (heq.1 ▸ congrArg some hzero))
  rw [hb']

/-- Where no page is free, a round that requests none meets no request at all. -/
theorem pageRequests_of_exhausted (hnull : ¬ Q m)
    (hreq : PageRequests allocPt Q va root m) (Q' : Machine → Prop) :
    PageRequests allocPt Q' va root m := by
  obtain ⟨hreq0, hreq1⟩ := hreq
  have hstay : ∀ {t idx : ℕ} {l : ℕ} {n : Machine}, StepRequests Q t idx m →
      nextTable allocPt t idx m = some (l, n) → n = m := by
    intro t idx l n hstep hrun
    rw [nextTable_valid allocPt (nextTable_lt hrun) (hstep.resolve_right hnull),
      Option.some.injEq, Prod.mk.injEq] at hrun
    exact hrun.2.symm
  refine ⟨Or.inl (hreq0.resolve_right hnull), fun l1 m1 hrun1 => ?_⟩
  obtain ⟨hstep1, hreq2⟩ := hreq1 l1 m1 hrun1
  have h1 := hstay hreq0 hrun1
  rw [h1] at hstep1 hreq2 ⊢
  refine ⟨Or.inl (hstep1.resolve_right hnull), fun l2 m2 hrun2 => ?_⟩
  have hstep2 := hreq2 l2 m2 hrun2
  have h2 := hstay hstep1 hrun2
  rw [h2] at hstep2 ⊢
  exact Or.inl (hstep2.resolve_right hnull)

/-- A round for a page that is mapped requests no table and stores nothing. -/
theorem mapPage_mapped (ht : PageTree TableOrPage m.ram root)
    (hmap : pageRadix.lookup m.ram 3 root (va / pageSize) ≠ none) (Q : Machine → Prop)
    (pa flags : ℕ) :
    PageRequests allocPt Q va root m ∧ mapPage allocPt va pa flags root m = some m := by
  obtain ⟨h0, h1, h2, h3⟩ := idx_eq va
  have hw3 := Walked.start (v := va / pageSize) ht
  have hv3 := not_not.mp (mt hw3.lookup_invalid hmap)
  have hw2 := hw3.follow hv3 (hw3.form hv3)
  have hv2 := not_not.mp (mt hw2.lookup_invalid hmap)
  have hw1 := hw2.follow hv2 (hw2.form hv2)
  have hv1 := not_not.mp (mt hw1.lookup_invalid hmap)
  have hw0 := hw1.follow hv1 (hw1.form hv1)
  have hv0 := not_not.mp (mt hw0.lookup_invalid hmap)
  have hrun1 := (congrArg (fun i => nextTable allocPt _ i m) h0).trans
    (nextTable_valid allocPt hw3.table_lt hv3)
  have hrun2 := (congrArg (fun i => nextTable allocPt _ i m) h1).trans
    (nextTable_valid allocPt hw2.table_lt hv2)
  have hrun3 := (congrArg (fun i => nextTable allocPt _ i m) h2).trans
    (nextTable_valid allocPt hw1.table_lt hv1)
  refine ⟨⟨Or.inl (h0 ▸ hv3), fun l1 m1 hk1 => ?_⟩, ?_⟩
  · rw [hrun1, Option.some.injEq, Prod.mk.injEq] at hk1
    rw [← hk1.1, ← hk1.2]
    refine ⟨Or.inl (h1 ▸ hv2), fun l2 m2 hk2 => ?_⟩
    rw [hrun2, Option.some.injEq, Prod.mk.injEq] at hk2
    rw [← hk2.1, ← hk2.2]
    exact Or.inl (h2 ▸ hv1)
  · rw [mapPage_run hrun1 hrun2 hrun3 hw0.table_lt, h3, if_pos hv0]

end DataFails

/-! ## §4  When running out of memory does no harm -/

/-- A call that meets a NULL is safe only if it is `check_vma` on a page that is
mapped already: the NULL is then the data page, and it is not stored. -/
theorem out_of_memory_safe_iff {R l0Table : ℕ} {roots : Set ℕ} {call : MapCall} {m : Machine}
    (hR : 2048 ≤ R) (hb : BuddyOk R m.buddy)
    (hroots : ∀ root ∈ roots, FramesInRam m.ram root) (hamong : call.Among roots m)
    (hnull : call.TableFails l0Table m ∨ call.DataFails m) :
    OutOfMemorySafe l0Table roots call m ↔ call.AlreadyMapped m := by
  constructor
  · intro hsafe
    obtain ⟨b, m', hret, hafter⟩ := hsafe.after
    have htable : ¬ call.TableFails l0Table m := by
      intro hfail
      rw [MapCall.returns_none hfail] at hret
      exact absurd hret (Option.some_ne_none _).symm
    cases call with
    | pages va pa n flags root => exact (hnull.resolve_left htable).elim
    | blocks va pa n flags root => exact (hnull.resolve_left htable).elim
    | fault h vmas root addr =>
        obtain ⟨v, m1, hv, halloc⟩ := hnull.resolve_left htable
        rw [buddyAlloc_null hb hR (by decide) halloc] at halloc
        obtain ⟨hroot, ht⟩ := hamong
        intro hnone
        have hexhausted : TableNull l0Table m := ⟨0, m, halloc, Or.inl rfl⟩
        have hreq : PageRequests (buddyAllocPt l0Table) (fun n => ¬ TableNull l0Table n)
            (alignDownPage addr).toNat root m := by
          by_contra hfail
          exact htable ⟨v, 0, m, hv, halloc, hfail⟩
        -- no table is requested, so the NULL is stored as a page
        obtain ⟨n, hrun, -, hlook⟩ := mapPage_spec ht (vaToPa 0)
          (mapUser ||| (h.vma v).permissions.toNat)
          (pageRequests_of_exhausted (not_not.mpr hexhausted) hreq _)
        rw [MapCall.returns, checkVma_eq hv halloc, hrun, Option.map_some, Option.map_some,
          Option.some.injEq, Prod.mk.injEq] at hret
        have hx : addr.toNat / pageSize % tableSize ^ 4 < tableSize ^ 4 :=
          Nat.mod_lt _ (by decide)
        rw [← Radix.lookup_mod (R := pageRadix) m.ram 3] at hnone
        have hentry := hlook _ hx
        rw [alignDownPage_page, if_pos ⟨rfl, hnone⟩] at hentry
        rw [← hret.2] at hafter
        have hframe := (hafter root hroot).1.lookup hentry
          (leafDescriptor_get _ _ (by decide : 1 < 2)).1
        rw [leafDescriptor_address, vaToPa_null] at hframe
        exact absurd hframe (by decide)
  · intro hmapped
    cases call with
    | pages va pa n flags root => exact hmapped.elim
    | blocks va pa n flags root => exact hmapped.elim
    | fault h vmas root addr =>
        obtain ⟨hroot, ht⟩ := hamong
        have hmap : pageRadix.lookup m.ram 3 root ((alignDownPage addr).toNat / pageSize) ≠
            none := by
          rw [alignDownPage_page]
          exact hmapped
        have htable : ¬ (MapCall.fault h vmas root addr).TableFails l0Table m := by
          rintro ⟨v, page, m1, hv, halloc, hfail⟩
          have hram := (hb.page_or_null hR halloc).1
          rw [← hram] at ht hmap
          exact hfail (mapPage_mapped ht hmap _ 0 0).1
        obtain ⟨v, m1, hv, halloc⟩ := hnull.resolve_left htable
        rw [buddyAlloc_null hb hR (by decide) halloc] at halloc
        refine ⟨fun hfail => absurd hfail htable, true, m, ?_,
          fun r hr => ⟨hroots r hr, fun _ _ hlookup => hlookup⟩⟩
        rw [MapCall.returns, checkVma_eq hv halloc,
          (mapPage_mapped ht hmap (fun _ => False) _ _).2]
        rfl

/-! A machine with no free page. -/

def fullMachine : Machine := startMachine (2 ^ 30) (fun _ _ => 0) blankBuddy

theorem fullMachine_buddy :
    fullMachine.buddy = initializePageFrameArray (2 ^ 30) blankBuddy := by
  unfold fullMachine startMachine
  dsimp only

theorem fullMachine_ok : BuddyOk ramPages fullMachine.buddy := by
  have hpages : reservedPages (2 ^ 30) = ramPages := by decide
  have hok := initializePageFrameArray_ok (by rw [hpages]; decide) hpages.le blankBuddy
  rwa [hpages, ← fullMachine_buddy] at hok

theorem fullMachine_null : fullMachine.buddyAlloc pageSize = some (0, fullMachine) := by
  obtain ⟨page, b, hrun, -, hpage⟩ :=
    fullMachine_ok.alloc (by decide) (by decide : pageSize ≤ 2 ^ 30)
  have hzero : page = 0 := by
    rcases hpage with hzero | ⟨p, -, hlo, hhi⟩
    · exact hzero
    · exact absurd hhi (Nat.not_lt.mpr hlo)
  have halloc : fullMachine.buddyAlloc pageSize =
      some (0, { fullMachine with buddy := b }) := by
    rw [Machine.buddyAlloc, hrun, hzero]
    rfl
  rw [halloc, buddyAlloc_null fullMachine_ok (by decide) (by decide) halloc]

theorem fullMachine_framesInRam : FramesInRam fullMachine.ram 0 :=
  Radix.every_void (fun i _ => zero_void (fun _ => rfl) i)
    fun _ _ hvalid => absurd hvalid (by decide : ¬ Pte.valid.get 0 = 1)

theorem fullMachine_tree : PageTree TableOrPage fullMachine.ram 0 :=
  (HasPages.blank (m := fullMachine) tableOrPage_admits (fun _ => rfl) rfl).tree

theorem out_of_memory_safe_iff_example :
    ∃ h₁ p₁, sysMmap userHeap userPcb 0x1000 0x1000 protRead = some (0x1000, h₁, p₁) ∧
      (OutOfMemorySafe 0 {0} (.fault h₁ p₁.vmas 0 0x1000) fullMachine ↔
        (MapCall.fault h₁ p₁.vmas 0 0x1000).AlreadyMapped fullMachine) := by
  obtain ⟨h₁, p₁, hmmap, -, hv⟩ := userProcess_mmap protRead
  refine ⟨h₁, p₁, hmmap, out_of_memory_safe_iff (by decide) fullMachine_ok ?_
    ⟨rfl, fullMachine_tree⟩ (Or.inr ⟨_, _, hv, fullMachine_null⟩)⟩
  intro root hroot
  rw [Set.mem_singleton_iff.mp hroot]
  exact fullMachine_framesInRam

/-- `map_pages` for one page enters a table at the page 2^35 and does not return
FALSE. -/
theorem null_table_entered :
    ∃ m1, (MapCall.pages 0 0 1 mapKernel 0).TableFails 0 fullMachine ∧
      nextTable (buddyAllocPt 0) 0 (idx0 0) fullMachine = some (2 ^ 35, m1) ∧
      Pte.valid.get (m1.ram 0 (idx0 0)) = 1 ∧
      Pte.address.get (m1.ram 0 (idx0 0)) = 2 ^ 35 ∧
      ¬ OutOfMemorySafe 0 {0} (.pages 0 0 1 mapKernel 0) fullMachine := by
  have hinvalid : Pte.valid.get (fullMachine.ram 0 (idx0 0)) ≠ 1 :=
    (by decide : Pte.valid.get 0 ≠ 1)
  have htable : TableNull 0 fullMachine := ⟨0, _, fullMachine_null, Or.inl rfl⟩
  have halloc : buddyAllocPt 0 fullMachine = some (0, fullMachine) := by
    rw [buddyAllocPt, buddyAllocPtFuel_succ, fullMachine_null]
    rfl
  have hfails : (MapCall.pages 0 0 1 mapKernel 0).TableFails 0 fullMachine :=
    fun hreq => hreq.1.1.elim hinvalid fun hnot => hnot htable
  refine ⟨_, hfails, nextTable_null (by decide) hinvalid halloc, ?_, ?_, fun hsafe => ?_⟩
  · rw [write_ram_eq, Radix.setWord_self, tableDescriptor,
      BitField.get_set_of_disjoint (by decide)]
    decide
  · rw [write_ram_eq, Radix.setWord_self, tableDescriptor, address_get_set _ (by decide)]
  · obtain ⟨m', hret⟩ := hsafe.answer hfails
    rw [MapCall.returns_none hfails] at hret
    exact absurd hret (Option.some_ne_none _).symm

end Rpos
