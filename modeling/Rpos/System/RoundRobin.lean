import Mathlib.Data.List.Rotate
import Rpos.System.RunQueue

/-!
# Timer ticks and the runqueue

What calls of `scheduler` in a row do. `list_add` puts the preempted process at
the front of the runqueue, and `scheduler` takes the next one from the front as
well, although its comment names the tail. Two processes take turns; a third one
never runs.
-/

namespace Rpos

open Base Base.Links

/-- The current process is running, and the runqueue holds the processes `q`,
which are ready. -/
structure Turning (s : Kernel) (q : List ℕ) : Prop where
  ring : IsRing s.links (.head .runqueue) (q.map (Node.entry .runqueue))
  running : s.state s.current = .running
  nonidle : s.current ≠ 0
  ready : ∀ p ∈ q, p ≠ 0 ∧ s.state p = .ready

/-- The processes that `n` calls of `scheduler` in a row make current. -/
def turns : ℕ → Kernel → List ℕ
  | 0, _ => []
  | n + 1, s => s.scheduler.current :: turns n s.scheduler

/-- One call for each process: every process runs once, and the end is as the
start. -/
structure RoundRobin (s : Kernel) (q : List ℕ) : Prop where
  once : (turns (q.length + 1) s).Perm (s.current :: q)
  same : (Kernel.scheduler^[q.length + 1] s).current = s.current
  order : ∃ q', IsRing (Kernel.scheduler^[q.length + 1] s).links (.head .runqueue)
    (q'.map (Node.entry .runqueue)) ∧ q' ~r q

section

variable {s : Kernel} {p : ℕ} {q : List ℕ}

theorem Turning.current_notMem (h : Turning s q) : s.current ∉ q := by
  intro hmem
  have hready := (h.ready _ hmem).2
  rw [h.running] at hready
  exact ProcState.noConfusion hready

theorem Turning.notMem (h : Turning s (p :: q)) : p ∉ q := by
  have hnodup := (h.ring.members_nodup).of_map _
  exact (List.nodup_cons.mp hnodup).1

/-- A call of `scheduler` exchanges the current process and the first one of the
runqueue. -/
theorem Turning.scheduler (h : Turning s (p :: q)) :
    Turning s.scheduler (s.current :: q) ∧ s.scheduler.current = p := by
  obtain ⟨hp, hpready⟩ := h.ready p List.mem_cons_self
  have hne : p ≠ s.current := fun heq => h.current_notMem (heq ▸ List.mem_cons_self)
  have hempty : s.links.listEmpty (.head .runqueue) = false := by
    rw [Bool.eq_false_iff, Ne, h.ring.listEmpty_iff]
    exact List.cons_ne_nil _ _
  have hnext : s.links.next (.head .runqueue) = .entry .runqueue p := h.ring.next_head
  have hsched : s.scheduler =
      (((s.dequeue p).setState s.current .ready).enqueue s.current).preContextSwitch p := by
    unfold Kernel.scheduler
    simp only [hempty, hnext, Node.proc, hne, hp, h.nonidle, ne_eq, not_false_eq_true,
      Bool.false_eq_true, if_true, if_false]
    rw [if_pos (show (s.dequeue p).state s.current = .running from h.running)]
  have hremoved : IsRing (s.dequeue p).links (.head .runqueue)
      (q.map (Node.entry .runqueue)) := by
    have hring := h.ring.listRemove (x := .entry .runqueue p) List.mem_cons_self
    rwa [List.map_cons, List.erase_cons_head] at hring
  have hnew : Node.entry .runqueue s.current ∉
      Node.head .runqueue :: q.map (Node.entry .runqueue) := by
    intro hmem
    rw [List.mem_cons, List.mem_map] at hmem
    rcases hmem with heq | ⟨r, hr, heq⟩
    · exact Node.noConfusion heq
    · rw [Node.entry.injEq] at heq
      exact h.current_notMem (heq.2 ▸ List.mem_cons_of_mem p hr)
  have hstate : ∀ r, s.scheduler.state r =
      if r = p then .running else if r = s.current then .ready else s.state r := by
    intro r
    rw [hsched]
    simp only [Kernel.preContextSwitch, Kernel.setState, Kernel.enqueue, Kernel.dequeue,
      Function.update_apply]
  have hcurrent : s.scheduler.current = p := by rw [hsched]; rfl
  refine ⟨⟨?_, ?_, ?_, ?_⟩, hcurrent⟩
  · rw [hsched]
    exact hremoved.listAdd hnew
  · rw [hcurrent, hstate, if_pos rfl]
  · rw [hcurrent]
    exact hp
  · intro r hr
    rcases List.mem_cons.mp hr with rfl | hr
    · rw [hstate, if_neg hne.symm, if_pos rfl]
      exact ⟨h.nonidle, rfl⟩
    · obtain ⟨hzero, hready⟩ := h.ready r (List.mem_cons_of_mem p hr)
      have hrp : r ≠ p := fun heq => h.notMem (heq ▸ hr)
      have hrc : r ≠ s.current := fun heq =>
        h.current_notMem (heq ▸ List.mem_cons_of_mem p hr)
      rw [hstate, if_neg hrp, if_neg hrc]
      exact ⟨hzero, hready⟩

/-- Only the current process and the first one of the runqueue ever run. -/
theorem Turning.turns_subset (n : ℕ) :
    ∀ (s : Kernel) (p : ℕ), Turning s (p :: q) →
      ∀ r ∈ turns n s, r = s.current ∨ r = p := by
  induction n with
  | zero => exact fun _ _ _ r hr => absurd hr List.not_mem_nil
  | succ n ih =>
      intro s p h r hr
      obtain ⟨hnext, hcurrent⟩ := h.scheduler
      rcases List.mem_cons.mp hr with rfl | hr
      · exact Or.inr hcurrent
      · rcases ih _ _ hnext r hr with heq | heq
        · exact Or.inr (heq.trans hcurrent)
        · exact Or.inl heq

theorem Turning.two (h : Turning s [p]) : RoundRobin s [p] := by
  obtain ⟨hfirst, hcurrent⟩ := h.scheduler
  obtain ⟨hsecond, hback⟩ := hfirst.scheduler
  rw [hcurrent] at hsecond
  refine ⟨?_, hback, [p], hsecond.ring, List.IsRotated.refl _⟩
  show [s.scheduler.current, s.scheduler.scheduler.current].Perm [s.current, p]
  rw [hcurrent, hback]
  exact List.Perm.swap _ _ _

/-- The scheduler is round robin exactly when one process waits. -/
theorem roundRobin_iff (h : Turning s q) (hq : q ≠ []) :
    RoundRobin s q ↔ q.length = 1 := by
  constructor
  · intro hround
    obtain ⟨p, q, rfl⟩ := List.exists_cons_of_ne_nil hq
    cases q with
    | nil => rfl
    | cons b q =>
        -- the second process of the runqueue would have to run
        have hb : b ∈ turns _ s :=
          hround.once.mem_iff.mpr (List.mem_cons_of_mem _ (List.mem_cons_of_mem _
            List.mem_cons_self))
        have hmem : b ∈ p :: b :: q := List.mem_cons_of_mem _ List.mem_cons_self
        rcases h.turns_subset _ _ _ b hb with heq | heq
        · exact absurd (heq ▸ hmem) h.current_notMem
        · exact absurd (heq ▸ List.mem_cons_self) h.notMem
  · intro hone
    obtain ⟨p, rfl⟩ := List.length_eq_one_iff.mp hone
    exact h.two

end

/-! ## The shell and its children -/

def forked : ℕ → Kernel
  | 0 => Kernel.boot 4096 fun _ => 0
  | n + 1 => (forked n).cloneActiveProc.addToSchedule ((forked n).pidcounter + 1)

theorem turning_one : Turning (forked 1) [3] := by
  refine ⟨⟨by decide, ?_⟩, rfl, by decide, ?_⟩
  · exact List.IsChain.cons_cons ⟨rfl, rfl⟩ (List.IsChain.cons_cons ⟨rfl, rfl⟩ (.singleton _))
  · intro p hp
    rw [List.mem_singleton.mp hp]
    exact ⟨by decide, rfl⟩

theorem turning_two : Turning (forked 2) [4, 3] := by
  refine ⟨⟨by decide, ?_⟩, rfl, by decide, ?_⟩
  · exact List.IsChain.cons_cons ⟨rfl, rfl⟩ (List.IsChain.cons_cons ⟨rfl, rfl⟩
      (List.IsChain.cons_cons ⟨rfl, rfl⟩ (.singleton _)))
  · intro p hp
    rcases List.mem_pair.mp hp with rfl | rfl
    · exact ⟨by decide, rfl⟩
    · exact ⟨by decide, rfl⟩

/-- The shell and one child. -/
theorem roundRobin_iff_example :
    RoundRobin (forked 1) [3] ↔ [3].length = 1 :=
  roundRobin_iff turning_one (List.cons_ne_nil _ _)

/-- The shell and two children: three calls run the second child, the shell and
the second child again. -/
theorem first_child_starves :
    Turning (forked 2) [4, 3] ∧ turns 3 (forked 2) = [4, 2, 4] ∧
      ¬ RoundRobin (forked 2) [4, 3] := by
  refine ⟨turning_two, rfl, fun hround => ?_⟩
  have hmem : 3 ∈ [4, 2, 4] := hround.once.mem_iff.mpr (by decide)
  exact absurd hmem (by decide)

end Rpos
