import Rpos.System.Vma

/-!
# Forked address-space metadata

The VMA part of `clone_active_proc` of `process.c`: the pcb is copied as a
whole, then its VMA list is rebuilt from copies of the parent's VMAs. The
field `heap_vma` keeps the parent's value.
-/

namespace Rpos

open Base

/-- The loop of `clone_active_proc`: `rest` is what remains of the parent's
list from `vmas.prev` on, `vmas` the child's list so far. -/
def cloneVmas (h : VmaHeap) (vmas : List ℕ) : List ℕ → Option (VmaHeap × List ℕ)
  | [] => some (h, vmas)
  | v :: rest =>
      match h.kmalloc with
      | none => none
      | some (newVma, h) => cloneVmas (h.set newVma (h.vma v)) (newVma :: vmas) rest

def cloneActiveProc (h : VmaHeap) (current : PcbMem) : Option (VmaHeap × PcbMem) :=
  match cloneVmas h [] current.vmas.reverse with
  | none => none
  | some (h, vmas) => some (h, { current with vmas := vmas })

structure Family where
  heap : VmaHeap
  parent : PcbMem
  child : PcbMem

inductive Member
  | parent
  | child

def Member.other : Member → Member
  | .parent => .child
  | .child => .parent

namespace Family

def pcb (s : Family) : Member → PcbMem
  | .parent => s.parent
  | .child => s.child

def setPcb (s : Family) (h : VmaHeap) (p : PcbMem) : Member → Family
  | .parent => ⟨h, p, s.child⟩
  | .child => ⟨h, s.parent, p⟩

def vmas (s : Family) (m : Member) : List Vma := (s.pcb m).vmas.map s.heap.vma

end Family

/-- A call of `sys_mmap` or `sys_brk` by either process. -/
def familyStep (s : Family) (i : Member × VmaCall) : Option (Word × Family) :=
  match vmaStep (s.heap, s.pcb i.1) i.2 with
  | none => none
  | some (w, h, p) => some (w, s.setPcb h p i.1)

/-! ## The copy -/

/-- The child's list repeats the parent's VMAs on objects that were not
allocated before, and the parent's objects are as they were. -/
structure Copied (h : VmaHeap) (p : PcbMem) (h' : VmaHeap) (child : PcbMem) : Prop where
  same : child.vmas.map h'.vma = p.vmas.map h.vma
  fresh : ∀ v ∈ child.vmas, h.allocated ≤ v ∧ v < h'.allocated
  nodup : child.vmas.Nodup
  grows : h.allocated ≤ h'.allocated
  kept : ∀ v, v < h.allocated → h'.vma v = h.vma v

theorem cloneVmas_spec {h h' : VmaHeap} {vmas vmas' rest : List ℕ}
    (hrest : ∀ v ∈ rest, v < h.allocated) (hvmas : ∀ v ∈ vmas, v < h.allocated)
    (hnodup : vmas.Nodup) (hclone : cloneVmas h vmas rest = some (h', vmas')) :
    vmas'.map h'.vma = (rest.map h.vma).reverse ++ vmas.map h.vma ∧
    (∀ v ∈ vmas', v ∈ vmas ∨ h.allocated ≤ v) ∧
    (∀ v ∈ vmas', v < h'.allocated) ∧ vmas'.Nodup ∧ h.allocated ≤ h'.allocated ∧
    ∀ v, v < h.allocated → h'.vma v = h.vma v := by
  induction rest generalizing h vmas with
  | nil =>
      simp only [cloneVmas, Option.some.injEq, Prod.mk.injEq] at hclone
      obtain ⟨rfl, rfl⟩ := hclone
      exact ⟨by simp, fun v hv => Or.inl hv, hvmas, hnodup, le_refl _, fun _ _ => rfl⟩
  | cons v rest ih =>
      unfold cloneVmas at hclone
      cases hk : h.kmalloc with
      | none => simp [hk] at hclone
      | some r =>
          obtain ⟨n, h₁⟩ := r
          rw [hk] at hclone
          obtain ⟨rfl, rfl⟩ := VmaHeap.kmalloc_eq hk
          simp only at hclone
          have halloc : ({ h with allocated := h.allocated + 1 }.set h.allocated
              (h.vma v)).allocated = h.allocated + 1 := rfl
          have hkept : ∀ u, u < h.allocated →
              ({ h with allocated := h.allocated + 1 }.set h.allocated (h.vma v)).vma u
                = h.vma u := fun u hu => VmaHeap.set_other (ne_of_lt hu) _
          have hnew : ({ h with allocated := h.allocated + 1 }.set h.allocated
              (h.vma v)).vma h.allocated = h.vma v := VmaHeap.set_self _ _ _
          generalize { h with allocated := h.allocated + 1 }.set h.allocated
            (h.vma v) = h₂ at hclone halloc hkept hnew
          have hfresh : h.allocated ∉ vmas := fun hmem => lt_irrefl _ (hvmas _ hmem)
          obtain ⟨hmap, hlist, hlt, hnd, hgrow, hold⟩ := ih
            (fun u hu => by
              rw [halloc]
              exact Nat.lt_succ_of_lt (hrest u (List.mem_cons_of_mem _ hu)))
            (fun u hu => by
              rw [halloc]
              rcases List.mem_cons.mp hu with rfl | hu
              · exact Nat.lt_succ_self _
              · exact Nat.lt_succ_of_lt (hvmas u hu))
            (List.nodup_cons.mpr ⟨hfresh, hnodup⟩) hclone
          refine ⟨?_, fun u hu => ?_, hlt, hnd, by omega, fun u hu => ?_⟩
          · have hrest₂ : rest.map h₂.vma = rest.map h.vma :=
              List.map_congr_left fun u hu =>
                hkept u (hrest u (List.mem_cons_of_mem _ hu))
            have hvmas₂ : vmas.map h₂.vma = vmas.map h.vma :=
              List.map_congr_left fun u hu => hkept u (hvmas u hu)
            rw [hmap, hrest₂, List.map_cons, hnew, hvmas₂]
            simp
          · rcases hlist u hu with hu | hu
            · rcases List.mem_cons.mp hu with rfl | hu
              · exact Or.inr (le_refl _)
              · exact Or.inl hu
            · exact Or.inr (by omega)
          · rw [hold u (by omega), hkept u hu]

theorem cloneActiveProc_copied {h h' : VmaHeap} {p child : PcbMem}
    (halloc : ∀ v ∈ p.vmas, v < h.allocated)
    (hclone : cloneActiveProc h p = some (h', child)) :
    Copied h p h' child ∧ child.heapVma = p.heapVma := by
  unfold cloneActiveProc at hclone
  cases hloop : cloneVmas h [] p.vmas.reverse with
  | none => simp [hloop] at hclone
  | some r =>
      obtain ⟨h₁, vmas⟩ := r
      rw [hloop] at hclone
      simp only [Option.some.injEq, Prod.mk.injEq] at hclone
      obtain ⟨rfl, rfl⟩ := hclone
      obtain ⟨hmap, hlist, hlt, hnd, hgrow, hold⟩ := cloneVmas_spec
        (fun v hv => halloc v (List.mem_reverse.mp hv)) (by simp) List.nodup_nil hloop
      refine ⟨⟨?_, fun v hv => ⟨?_, hlt v hv⟩, hnd, hgrow, hold⟩, rfl⟩
      · simpa using hmap
      · simpa using hlist v hv

/-! ## Later calls -/

/-- The two processes share no VMA, and each pcb is well-formed by itself. -/
structure Family.Apart (s : Family) : Prop where
  ok : ∀ m, (s.pcb m).Ok s.heap
  disjoint : ∀ v ∈ s.parent.vmas, v ∉ s.child.vmas

theorem Family.Apart.notMem {s : Family} (hs : s.Apart) {m : Member} {v : ℕ}
    (hv : v ∈ (s.pcb m.other).vmas) : v ∉ (s.pcb m).vmas := by
  cases m with
  | parent => exact fun hp => hs.disjoint v hp hv
  | child => exact hs.disjoint v hv

/-- A call by one process keeps the two apart and changes no VMA of the other. -/
theorem familyStep_apart {s s' : Family} {m : Member} {call : VmaCall} {w : Word}
    (hs : s.Apart) (hstep : familyStep s (m, call) = some (w, s')) :
    s'.Apart ∧ s'.vmas m.other = s.vmas m.other := by
  unfold familyStep at hstep
  cases hcall : vmaStep (s.heap, s.pcb m) call with
  | none => simp [hcall] at hstep
  | some r =>
      obtain ⟨w', h, p⟩ := r
      simp only [hcall, Option.some.injEq, Prod.mk.injEq] at hstep
      obtain ⟨-, rfl⟩ := hstep
      have hframe := (vmaStep_outcome hcall).frame (hs.ok m)
      have hother : ∀ v ∈ (s.pcb m.other).vmas, h.vma v = s.heap.vma v := fun v hv =>
        hframe.other v ((hs.ok m.other).allocated v hv) (hs.notMem hv)
      have hok : (s.pcb m.other).Ok h :=
        ⟨(hs.ok m.other).nodup,
          fun v hv => lt_of_lt_of_le ((hs.ok m.other).allocated v hv) hframe.grows,
          (hs.ok m.other).heap_mem⟩
      have hdisj : ∀ v ∈ p.vmas, v ∉ (s.pcb m.other).vmas := by
        intro v hv hv'
        rcases hframe.list v hv with hold | hnew
        · exact hs.notMem hv' hold
        · exact absurd ((hs.ok m.other).allocated v hv') (not_lt.mpr hnew)
      cases m with
      | parent =>
          refine ⟨⟨fun n => ?_, hdisj⟩, List.map_congr_left hother⟩
          cases n with
          | parent => exact hframe.ok
          | child => exact hok
      | child =>
          refine ⟨⟨fun n => ?_, fun v hv hv' => hdisj v hv' hv⟩,
            List.map_congr_left hother⟩
          cases n with
          | parent => exact hok
          | child => exact hframe.ok

/-- In every run of calls by the two processes, a call by one never changes a
VMA of the other. -/
def Isolated (s₀ : Family) : Prop :=
  ∀ calls ws s m call w s', exec familyStep s₀ calls = some (ws, s) →
    familyStep s (m, call) = some (w, s') → s'.vmas m.other = s.vmas m.other

theorem Family.Apart.isolated {s₀ : Family} (hs₀ : s₀.Apart) : Isolated s₀ := by
  intro calls ws s m call w s' hexec hstep
  have hs : s.Apart := by
    refine reached_inv ?_ calls s₀ ws s hs₀ hexec
    rintro t ⟨n, c⟩ w t' ht hrun
    exact (familyStep_apart ht hrun).1
  exact (familyStep_apart hs hstep).2

/-- The pcb's pointers are to allocated objects, and its list has no repeats. -/
structure PcbMem.Valid (h : VmaHeap) (p : PcbMem) : Prop where
  nodup : p.vmas.Nodup
  allocated : ∀ v ∈ p.vmas, v < h.allocated
  heap_allocated : ∀ v, p.heapVma = some v → v < h.allocated

theorem PcbMem.Ok.valid {h : VmaHeap} {p : PcbMem} (hp : p.Ok h) : p.Valid h :=
  ⟨hp.nodup, hp.allocated, fun v hv => hp.allocated v (hp.heap_mem v hv)⟩

/-- After a fork of any process, the child has copies of its own, its heap VMA is its own and
the two processes never touch each other's VMAs, exactly when the parent has no heap VMA yet. -/
theorem fork_metadata_own_iff (h h' : VmaHeap) (p child : PcbMem) (hp : p.Valid h)
    (hclone : cloneActiveProc h p = some (h', child)) :
    (Copied h p h' child ∧ (∀ v, child.heapVma = some v → v ∈ child.vmas) ∧
      Isolated ⟨h', p, child⟩) ↔ p.heapVma = none := by
  obtain ⟨hcopy, hheap⟩ := cloneActiveProc_copied hp.allocated hclone
  constructor
  · rintro ⟨-, hown, -⟩
    cases hv : p.heapVma with
    | none => rfl
    | some v =>
        have hnew := (hcopy.fresh v (hown v (hheap.trans hv))).1
        exact absurd (hp.heap_allocated v hv) (not_lt.mpr hnew)
  · intro hnone
    have hchild : ∀ v, child.heapVma = some v → v ∈ child.vmas := by
      intro v hv
      rw [hheap, hnone] at hv
      simp at hv
    refine ⟨hcopy, hchild, Family.Apart.isolated ⟨fun m => ?_, fun v hv hv' => ?_⟩⟩
    · cases m with
      | parent =>
          exact ⟨hp.nodup, fun v hv => lt_of_lt_of_le (hp.allocated v hv) hcopy.grows,
            fun v hv => absurd (hnone.symm.trans hv) (by simp)⟩
      | child => exact ⟨hcopy.nodup, fun v hv => (hcopy.fresh v hv).2, hchild⟩
    · exact absurd (hp.allocated v hv) (not_lt.mpr (hcopy.fresh v hv').1)

theorem fork_metadata_own_iff_example :
    ∃ h p h' child, procalloc vmaHeap₀ = some (h, p) ∧
      cloneActiveProc h p = some (h', child) ∧ Isolated ⟨h', p, child⟩ := by
  refine ⟨_, _, _, _, rfl, rfl, ?_⟩
  have hp := procalloc_ok (show procalloc vmaHeap₀ = some (_, _) from rfl)
  exact ((fork_metadata_own_iff _ _ _ _ hp.valid rfl).mpr rfl).2.2

/-- A process with a heap forks, and the child's `brk(4096)` moves the end of
the parent's heap VMA. -/
theorem child_brk_moves_parent_heap :
    ∃ h p ws h₁ p₁ h₂ child w s, procalloc vmaHeap₀ = some (h, p) ∧
      exec vmaStep (h, p) [.brk 0] = some (ws, h₁, p₁) ∧
      cloneActiveProc h₁ p₁ = some (h₂, child) ∧
      familyStep ⟨h₂, p₁, child⟩ (.child, .brk 4096) = some (w, s) ∧
      s.vmas .parent ≠ Family.vmas ⟨h₂, p₁, child⟩ .parent := by
  refine ⟨_, _, _, _, _, _, _, _, _, rfl, rfl, rfl, rfl, ?_⟩
  decide

end Rpos
