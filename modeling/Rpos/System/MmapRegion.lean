import Rpos.System.Vma

/-!
# The region of `sys_mmap`

What the address that `sys_mmap` returns stands for. The call makes a VMA of the rounded
range when no VMA contains `addr`. It returns the start of the one that does otherwise,
and does not extend it: `found_vma` may lie below `addr`, end before the request does, or
have other permissions.
-/

namespace Rpos

open Base

def sanitisedProt (prot : Word) : BitVec 8 :=
  if prot &&& protNone ≠ 0 then 0
  else if prot &&& protWrite ≠ 0 ∧ prot &&& protExec ≠ 0 then vmaRead ||| vmaWrite
  else prot.setWidth 8

/-- The end of the request, rounded up to a page, is a 64-bit number. -/
def EndFits (addr len : Word) : Prop :=
  (addr.toNat + len.toNat + 4095) / 4096 * 4096 < 2 ^ 64

instance (addr len : Word) : Decidable (EndFits addr len) :=
  inferInstanceAs (Decidable (_ < _))

/-- Some VMA of the process contains the address, with these permissions. -/
def HasVma (h : VmaHeap) (p : PcbMem) (perm : BitVec 8) (x : Word) : Prop :=
  ∃ v ∈ p.vmas, (h.vma v).Contains x ∧ (h.vma v).permissions = perm

/-- The VMAs with these permissions contain every byte of the region. -/
def RegionCovered (h : VmaHeap) (p : PcbMem) (start len : Word) (perm : BitVec 8) : Prop :=
  ∀ i < len.toNat, ∃ x : Word, x.toNat = start.toNat + i ∧ HasVma h p perm x

/-- What a caller of `sys_mmap` relies on: the region that is returned has VMAs, and a
request past the end of the address space gets no region and changes nothing. -/
def MmapCovers (h : VmaHeap) (p : PcbMem) (addr len prot : Word) : Prop :=
  (EndFits addr len → ∀ w h' p', sysMmap h p addr len prot = some (w, h', p') →
    RegionCovered h' p' w len (sanitisedProt prot)) ∧
  (¬ EndFits addr len → ∃ w, sysMmap h p addr len prot = some (w, h, p) ∧
    ∀ v ∈ p.vmas, (h.vma v).start ≠ w)

/-! ## Rounding -/

theorem alignUpPage_toNat {addr len : Word} (hfits : EndFits addr len) :
    (alignUpPage (addr + len)).toNat = (addr.toNat + len.toNat + 4095) / 4096 * 4096 := by
  have hdown : alignUpPage (addr + len) = alignDownPage (addr + len + (4096 - 1)) := rfl
  have hone : (4096 - 1 : Word).toNat = 4095 := by decide
  unfold EndFits at hfits
  rw [hdown, alignDownPage_toNat, BitVec.toNat_add, BitVec.toNat_add, hone]
  omega

theorem exists_word {k : ℕ} (hk : k < 2 ^ 64) : ∃ x : Word, x.toNat = k :=
  ⟨BitVec.ofNat 64 k, (BitVec.toNat_ofNat k 64).trans (Nat.mod_eq_of_lt hk)⟩

/-! ## What is returned -/

section Region

variable {h h' : VmaHeap} {p p' : PcbMem} {addr len prot w : Word}

theorem foundVma_some {vmas : List ℕ} {v : ℕ} (hfound : foundVma h vmas addr = some v) :
    v ∈ vmas ∧ (h.vma v).Inside addr := by
  unfold foundVma at hfound
  induction vmas using List.reverseRecOn with
  | nil => simp at hfound
  | append_singleton vmas u ih =>
      rw [List.foldl_append, List.foldl_cons, List.foldl_nil] at hfound
      split at hfound
      · rename_i hin
        obtain rfl := Option.some.inj hfound
        exact ⟨List.mem_append_right _ (List.mem_singleton_self _), hin⟩
      · obtain ⟨hmem, hin⟩ := ih hfound
        exact ⟨List.mem_append_left _ hmem, hin⟩

theorem sanitisedProt_eq (prot : Word) :
    (if (if prot &&& protNone ≠ 0 then 0 else prot) &&& protWrite ≠ 0 ∧
        (if prot &&& protNone ≠ 0 then 0 else prot) &&& protExec ≠ 0 then
      protRead ||| protWrite
    else if prot &&& protNone ≠ 0 then 0 else prot).setWidth 8 = sanitisedProt prot := by
  unfold sanitisedProt
  by_cases hnone : prot &&& protNone ≠ 0
  · rw [if_pos hnone, if_pos hnone, if_neg (by decide)]
    rfl
  · rw [if_neg hnone, if_neg hnone]
    split <;> rfl

/-- `sys_mmap` returns the start of a VMA around `addr`, or that of a new one. -/
theorem sysMmap_region (hstep : sysMmap h p addr len prot = some (w, h', p')) :
    (∃ v ∈ p.vmas, (h.vma v).Inside addr ∧ w = (h.vma v).start ∧ h' = h ∧ p' = p) ∨
    (∀ v ∈ p.vmas, ¬ (h.vma v).Inside addr) ∧ w = alignDownPage addr ∧
      p'.vmas = h.allocated :: p.vmas ∧ h'.vma h.allocated =
        ⟨alignDownPage addr, alignUpPage (addr + len), sanitisedProt prot⟩ := by
  unfold sysMmap at hstep
  cases hfound : foundVma h p.vmas addr with
  | some v =>
      obtain ⟨hmem, hin⟩ := foundVma_some hfound
      rw [hfound] at hstep
      obtain ⟨⟩ := hstep
      exact Or.inl ⟨v, hmem, hin, rfl, rfl, rfl⟩
  | none =>
      rw [hfound] at hstep
      refine Or.inr ⟨foundVma_none.mp hfound, ?_⟩
      cases hk : h.kmalloc with
      | none => simp [hk] at hstep
      | some r =>
          obtain ⟨v, h₁⟩ := r
          obtain ⟨rfl, rfl⟩ := VmaHeap.kmalloc_eq hk
          rw [hk] at hstep
          obtain ⟨⟩ := hstep
          refine ⟨rfl, rfl, ?_⟩
          rw [VmaHeap.set_self, ← sanitisedProt_eq]

/-- A new VMA covers its request, if the end of the request fits. -/
theorem regionCovered_new (hfits : EndFits addr len) {v : ℕ} (hmem : v ∈ p.vmas)
    {perm : BitVec 8}
    (hv : h.vma v = ⟨alignDownPage addr, alignUpPage (addr + len), perm⟩) :
    RegionCovered h p (alignDownPage addr) len perm := by
  intro i hi
  have hend := alignUpPage_toNat hfits
  have hstart := alignDownPage_toNat addr
  unfold EndFits at hfits
  have hlt : (alignDownPage addr).toNat + i < (alignUpPage (addr + len)).toNat := by omega
  obtain ⟨x, hx⟩ := exists_word (hlt.trans (BitVec.isLt _))
  refine ⟨x, hx, v, hmem, ?_, by rw [hv]⟩
  rw [hv]
  refine ⟨?_, ?_⟩
  · rw [BitVec.le_def, hx]
    exact Nat.le_add_right _ _
  · rw [BitVec.lt_def, hx]
    exact hlt

/-- The VMA found covers the region if it has the permissions, and what the region has
beyond its end lies in other VMAs with these permissions. -/
theorem regionCovered_found_iff
    (hapart : ∀ u ∈ p.vmas, ∀ v ∈ p.vmas, u ≠ v →
      Apart (h.vma u).start (h.vma u).end_ (h.vma v))
    {v : ℕ} (hv : v ∈ p.vmas) (hin : (h.vma v).Inside addr) (hlen : 0 < len)
    (hfits : EndFits addr len) {perm : BitVec 8} :
    RegionCovered h p (h.vma v).start len perm ↔
      (h.vma v).permissions = perm ∧
        ∀ x, (h.vma v).end_ ≤ x → x.toNat < (h.vma v).start.toNat + len.toNat →
          HasVma h p perm x := by
  have hstart : (h.vma v).start.toNat < addr.toNat := BitVec.lt_def.mp hin.1
  have hend : addr.toNat < (h.vma v).end_.toNat := BitVec.lt_def.mp hin.2
  constructor
  · intro hcov
    constructor
    · -- the first byte of the region is in no other VMA
      obtain ⟨x, hx, u, hu, hcontains, hperm⟩ := hcov 0 (BitVec.lt_def.mp hlen)
      obtain rfl : x = (h.vma v).start := BitVec.eq_of_toNat_eq hx
      by_contra hne
      have huv : u ≠ v := by
        rintro rfl
        exact hne hperm
      refine hapart u hu v hv huv (h.vma v).start hcontains.1 hcontains.2
        ⟨BitVec.le_refl _, ?_⟩
      exact BitVec.lt_def.mpr (hstart.trans hend)
    · intro x hle hlt
      have hle' := BitVec.le_def.mp hle
      obtain ⟨y, hy, hvma⟩ := hcov (x.toNat - (h.vma v).start.toNat) (by omega)
      rw [Nat.add_sub_cancel' ((hstart.trans hend).le.trans hle')] at hy
      rwa [BitVec.eq_of_toNat_eq hy] at hvma
  · rintro ⟨hperm, hbeyond⟩ i hi
    unfold EndFits at hfits
    have hword : (h.vma v).start.toNat + i < 2 ^ 64 := by omega
    obtain ⟨x, hx⟩ := exists_word hword
    refine ⟨x, hx, ?_⟩
    rcases Nat.lt_or_ge ((h.vma v).start.toNat + i) (h.vma v).end_.toNat with hlt | hge
    · refine ⟨v, hv, ⟨?_, ?_⟩, hperm⟩
      · rw [BitVec.le_def, hx]
        exact Nat.le_add_right _ _
      · rw [BitVec.lt_def, hx]
        exact hlt
    · apply hbeyond
      · rw [BitVec.le_def, hx]
        exact hge
      · rw [hx]
        exact Nat.add_lt_add_left hi _

/-- For separated VMAs: what `sys_mmap` returns is covered, and a request past the end of
the address space fails, if and only if the request does not go past the end, and a VMA
around `addr` has the permissions of the request, as have those that follow it up to its
start plus `len`. -/
theorem mmap_covers_iff (hlen : 0 < len)
    (hapart : ∀ u ∈ p.vmas, ∀ v ∈ p.vmas, u ≠ v →
      Apart (h.vma u).start (h.vma u).end_ (h.vma v)) :
    MmapCovers h p addr len prot ↔
      EndFits addr len ∧ ∀ v ∈ p.vmas, (h.vma v).Inside addr →
        (h.vma v).permissions = sanitisedProt prot ∧
          ∀ x, (h.vma v).end_ ≤ x → x.toNat < (h.vma v).start.toNat + len.toNat →
            HasVma h p (sanitisedProt prot) x := by
  by_cases hfits : EndFits addr len
  · rw [MmapCovers, and_iff_left fun hover => absurd hfits hover]
    simp only [hfits, true_imp_iff, true_and]
    constructor
    · intro hcov v hv hin
      rw [← regionCovered_found_iff hapart hv hin hlen hfits]
      cases hfound : foundVma h p.vmas addr with
      | none => exact absurd hin (foundVma_none.mp hfound v hv)
      | some u =>
          obtain ⟨hu, hinu⟩ := foundVma_some hfound
          have hstep : sysMmap h p addr len prot = some ((h.vma u).start, h, p) := by
            unfold sysMmap
            rw [hfound]
          -- only one VMA is around `addr`
          have huv : u = v := by
            by_contra hne
            exact hapart u hu v hv hne addr (BitVec.le_of_lt hinu.1) hinu.2
              ⟨BitVec.le_of_lt hin.1, hin.2⟩
          exact huv ▸ hcov _ _ _ hstep
    · intro hcond w h' p' hstep
      rcases sysMmap_region hstep with ⟨v, hv, hin, rfl, rfl, rfl⟩ | ⟨-, rfl, hvmas, hnew⟩
      · rw [regionCovered_found_iff hapart hv hin hlen hfits]
        exact hcond v hv hin
      · apply regionCovered_new hfits _ hnew
        rw [hvmas]
        exact List.mem_cons_self
  · -- the call never fails: it returns the start of a VMA
    refine iff_of_false ?_ fun hcond => hfits hcond.1
    rintro ⟨-, hfails⟩
    obtain ⟨w, hstep, hnone⟩ := hfails hfits
    rcases sysMmap_region hstep with ⟨v, hv, -, rfl, -, -⟩ | ⟨-, rfl, hvmas, -⟩
    · exact hnone v hv rfl
    · exact (List.cons_ne_self _ _) hvmas.symm

end Region

def twoPages : VmaHeap := ⟨fun _ => ⟨0x1000, 0x3000, vmaRead ||| vmaWrite⟩, 1, 10⟩

/-- A request behind the VMA gets one of its own. -/
theorem mmap_covers_iff_example :
    MmapCovers twoPages ⟨[0], 0, 0, none⟩ 0x3000 0x5000 (protRead ||| protWrite) := by
  apply (mmap_covers_iff (by decide) ?_).mpr
  · refine ⟨by decide, fun v hv hin => ?_⟩
    rw [List.mem_singleton.mp hv] at hin
    exact absurd hin (by decide)
  · intro u hu v hv hne
    rw [List.mem_singleton.mp hu, List.mem_singleton.mp hv] at hne
    exact absurd rfl hne

/-- A request from the middle of the VMA gets its start and no more pages; one of two
pages at the end of the address space gets a VMA that ends before it starts. -/
theorem mmap_region_not_covered :
    ¬ MmapCovers twoPages ⟨[0], 0, 0, none⟩ 0x2000 0x5000 (protRead ||| protWrite) ∧
      ¬ MmapCovers twoPages ⟨[0], 0, 0, none⟩ 0xfffffffffffff000 0x2000 protRead := by
  constructor
  · rintro ⟨hcov, -⟩
    obtain ⟨x, hx, v, hv, hcontains, -⟩ := hcov (by decide) _ _ _ rfl 0x2000 (by decide)
    rw [List.mem_singleton.mp hv] at hcontains
    have hx' : x.toNat = 0x3000 := hx
    have hlt : x.toNat < 0x3000 := BitVec.lt_def.mp hcontains.2
    exact absurd hlt (Nat.not_lt.mpr hx'.ge)
  · rintro ⟨-, hfails⟩
    obtain ⟨w, hstep, -⟩ := hfails (by decide)
    have hvmas : (sysMmap twoPages ⟨[0], 0, 0, none⟩ 0xfffffffffffff000 0x2000
        protRead).map (fun r => r.2.2) = some ⟨[0], 0, 0, none⟩ := by
      rw [hstep]
      rfl
    exact absurd hvmas (by decide)

end Rpos
