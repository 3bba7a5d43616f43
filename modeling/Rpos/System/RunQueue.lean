import Rpos.Base.Runs
import Rpos.System.Scheduler

/-!
# The runqueue

State and list membership are changed in separate places. Whenever the scheduler
is called or a call returns, the lists are well formed, and the runqueue holds
the processes that are ready.
-/

namespace Rpos

open Base Base.Links

/-! ## §1  The lists -/

/-- The lists have the members `ps`, and a process that is on none of the lists
of a kind has an unlinked entry of that kind. -/
structure Queues (l : Links Node) (ps : Queue → List ℕ) : Prop where
  family : RingFamily l Set.univ Node.head fun q => (ps q).map (Node.entry q.kind)
  unlinked : ∀ k p, (∀ q : Queue, q.kind = k → p ∉ ps q) →
    SelfLinked l (.entry k p)

namespace Queues

variable {l : Links Node} {ps : Queue → List ℕ} {q : Queue} {p : ℕ}

theorem entry_injective (k : EntryKind) : Function.Injective (Node.entry k) := by
  intro p p' h
  rw [Node.entry.injEq] at h
  exact h.2

theorem ring (h : Queues l ps) (q : Queue) :
    IsRing l (.head q) ((ps q).map (Node.entry q.kind)) :=
  h.family.ring q (Set.mem_univ q)

theorem nodup (h : Queues l ps) (q : Queue) : (ps q).Nodup :=
  (h.ring q).members_nodup.of_map _

theorem unique (h : Queues l ps) {ps' : Queue → List ℕ} (h' : Queues l ps') (q : Queue) :
    ps q = ps' q :=
  List.map_injective_iff.mpr (entry_injective q.kind) ((h.ring q).unique (h'.ring q))

theorem listEmpty_iff (h : Queues l ps) (q : Queue) :
    l.listEmpty (.head q) = true ↔ ps q = [] := by
  rw [(h.ring q).listEmpty_iff, List.map_eq_nil_iff]

theorem next_head (h : Queues l ps) {rest : List ℕ} (hq : ps q = p :: rest) :
    l.next (.head q) = .entry q.kind p := by
  rw [(h.ring q).next_head, hq]
  rfl

/-- Every entry of a process sits on a list of its own kind. -/
theorem notMem_node (h : ∀ q' : Queue, q'.kind = q.kind → p ∉ ps q') (q' : Queue) :
    Node.entry q.kind p ∉ Node.head q' :: (ps q').map (Node.entry q'.kind) := by
  intro hmem
  rw [List.mem_cons, List.mem_map] at hmem
  rcases hmem with heq | ⟨p', hp', heq⟩
  · exact Node.noConfusion heq
  · rw [Node.entry.injEq] at heq
    obtain ⟨hkind, rfl⟩ := heq
    exact h q' hkind hp'

theorem update_map (ps : Queue → List ℕ) (q : Queue) (xs : List ℕ) :
    (fun q' => (Function.update ps q xs q').map (Node.entry q'.kind)) =
      Function.update (fun q' => (ps q').map (Node.entry q'.kind)) q
        (xs.map (Node.entry q.kind)) := by
  funext q'
  by_cases hq : q' = q
  · subst hq
    rw [Function.update_self, Function.update_self]
  · rw [Function.update_of_ne hq, Function.update_of_ne hq]

theorem listEmpty_entry (h : Queues l ps) {k : EntryKind}
    (hp : ∀ q' : Queue, q'.kind = k → p ∉ ps q') :
    l.listEmpty (.entry k p) = true := by
  rw [Links.listEmpty, decide_eq_true_eq]
  exact (h.unlinked k p hp).1

theorem add (h : Queues l ps) (hp : ∀ q' : Queue, q'.kind = q.kind → p ∉ ps q') :
    Queues (l.listAdd (.entry q.kind p) (.head q))
      (Function.update ps q (p :: ps q)) := by
  refine ⟨?_, fun k p' hp' => ?_⟩
  · rw [update_map, List.map_cons]
    exact h.family.listAdd (Set.mem_univ q) fun q' _ => notMem_node hp q'
  · have hnot : ∀ q' : Queue, q'.kind = k → p' ∉ ps q' := by
      intro q' hk hmem
      refine hp' q' hk ?_
      by_cases hq : q' = q
      · subst hq
        rw [Function.update_self]
        exact List.mem_cons_of_mem p hmem
      · rw [Function.update_of_ne hq]
        exact hmem
    have hne : Node.entry k p' ≠ Node.entry q.kind p := by
      intro heq
      rw [Node.entry.injEq] at heq
      refine hp' q heq.1.symm ?_
      rw [Function.update_self, heq.2]
      exact List.mem_cons_self
    refine (h.ring q).listAdd_other (fun heq => Node.noConfusion heq) hne ?_
      (h.unlinked k p' hnot)
    intro hmem
    rw [List.mem_cons, List.mem_map] at hmem
    rcases hmem with heq | ⟨p'', hmem, heq⟩
    · exact Node.noConfusion heq
    · rw [Node.entry.injEq] at heq
      exact hnot q heq.1 (heq.2 ▸ hmem)

theorem remove (h : Queues l ps) (hp : p ∈ ps q) :
    Queues (l.listRemove (.entry q.kind p))
      (Function.update ps q ((ps q).erase p)) := by
  have hnode : Node.entry q.kind p ∈ (ps q).map (Node.entry q.kind) :=
    List.mem_map_of_mem hp
  refine ⟨?_, fun k p' hp' => ?_⟩
  · rw [update_map, List.map_erase (entry_injective q.kind)]
    exact h.family.listRemove (Set.mem_univ q) hnode
  · by_cases heq : k = q.kind ∧ p' = p
    · rw [heq.1, heq.2]
      exact listRemove_self l _
    · have hnot : ∀ q' : Queue, q'.kind = k → p' ∉ ps q' := by
        intro q' hk hmem
        refine hp' q' hk ?_
        by_cases hq : q' = q
        · subst hq
          rw [Function.update_self]
          exact (List.mem_erase_of_ne fun hpp => heq ⟨hk.symm, hpp⟩).mpr hmem
        · rw [Function.update_of_ne hq]
          exact hmem
      refine (h.ring q).listRemove_other hnode ?_ (h.unlinked k p' hnot)
      intro hmem
      rw [List.mem_cons, List.mem_map] at hmem
      rcases hmem with hhead | ⟨p'', hmem, hent⟩
      · exact Node.noConfusion hhead
      · rw [Node.entry.injEq] at hent
        exact hnot q hent.1 (hent.2 ▸ hmem)

theorem remove_unlinked (h : Queues l ps) {k : EntryKind}
    (hp : ∀ q' : Queue, q'.kind = k → p ∉ ps q') : l.listRemove (.entry k p) = l :=
  listRemove_selfLinked (h.unlinked k p hp)

theorem init_unlinked (h : Queues l ps) {k : EntryKind}
    (hp : ∀ q' : Queue, q'.kind = k → p ∉ ps q') : l.initListHead (.entry k p) = l :=
  initListHead_of_selfLinked (h.unlinked k p hp)

end Queues

/-! ## §2  Who runs -/

/-- The runqueue holds the processes that are ready, but for the idle process;
nobody but the current process is running. -/
structure RunQueue (s : Kernel) (ps : Queue → List ℕ) : Prop where
  queues : Queues s.links ps
  ready : ∀ p, p ∈ ps .runqueue ↔ p ≠ 0 ∧ s.state p = .ready
  relinked : s.relinked = false
  running : ∀ p, s.state p = .running → p = s.current
  current : s.state s.current ≠ .ready
  idle : s.state 0 = .ready ∨ s.state 0 = .running

/-- `t` differs from `s` at most in which process runs. -/
structure Switched (s t : Kernel) : Prop where
  same : t = { s with
    links := t.links, state := t.state, current := t.current, relinked := t.relinked }
  blocked : ∀ p, t.state p = .blocked ↔ s.state p = .blocked
  terminated : ∀ p, t.state p = .terminated ↔ s.state p = .terminated
  ready : ∀ p, s.state p = .ready → t.state p = .ready ∨ p = t.current

theorem Switched.refl (s : Kernel) : Switched s s :=
  ⟨rfl, fun _ => Iff.rfl, fun _ => Iff.rfl, fun _ h => Or.inl h⟩

namespace RunQueue

variable {s : Kernel} {ps : Queue → List ℕ} {p : ℕ}

theorem kind_eq {q : Queue} (h : q.kind = .runqueue) : q = .runqueue := by
  cases q with
  | runqueue => rfl
  | waitList m => exact EntryKind.noConfusion h
  | rdWait => exact EntryKind.noConfusion h

theorem notMem (h : RunQueue s ps) (hp : s.state p ≠ .ready) (q : Queue)
    (hq : q.kind = .runqueue) : p ∉ ps q := by
  rw [kind_eq hq, h.ready]
  exact fun hr => hp hr.2

/-- Only the idle process can be off the runqueue and neither blocked nor over. -/
theorem current_ne_zero (h : RunQueue s ps) (hp : s.state s.current ≠ .running) :
    s.current ≠ 0 := by
  intro hzero
  rcases h.idle with hr | hr
  · exact h.current (hzero ▸ hr)
  · exact hp (hzero ▸ hr)

theorem ne_zero_of_blocked (h : RunQueue s ps) (hp : s.state p = .blocked) : p ≠ 0 := by
  rintro rfl
  rcases h.idle with hr | hr <;> rw [hp] at hr <;> exact ProcState.noConfusion hr

/-- `list_add` of a process that is not ready: it was not linked before. -/
theorem enqueue (h : RunQueue s ps) (hp : s.state p ≠ .ready) (x : ProcState) :
    Queues ((s.setState p x).enqueue p).links
        (Function.update ps .runqueue (p :: ps .runqueue)) ∧
      ((s.setState p x).enqueue p).relinked = false := by
  have hnot := h.notMem hp
  refine ⟨h.queues.add hnot, ?_⟩
  have hempty := h.queues.listEmpty_entry hnot
  simp [Kernel.enqueue, Kernel.setState, h.relinked, hempty]

theorem wake (h : RunQueue s ps) (hzero : p ≠ 0) (hc : p ≠ s.current)
    {t : Kernel} {ps' : Queue → List ℕ} (hq : Queues t.links ps')
    (hps : ps' .runqueue = p :: ps .runqueue)
    (hstate : t.state = Function.update s.state p .ready)
    (hcur : t.current = s.current) (hrel : t.relinked = false) : RunQueue t ps' := by
  refine ⟨hq, fun r => ?_, hrel, fun r hr => ?_, ?_, ?_⟩
  · rw [hps, List.mem_cons, h.ready, hstate]
    by_cases hrp : r = p
    · simp [hrp, hzero]
    · simp [hrp]
  · rw [hcur]
    by_cases hrp : r = p
    · rw [hstate, hrp, Function.update_self] at hr
      exact ProcState.noConfusion hr
    · rw [hstate, Function.update_of_ne hrp] at hr
      exact h.running r hr
  · rw [hcur, hstate, Function.update_of_ne hc.symm]
    exact h.current
  · rw [hstate, Function.update_of_ne hzero.symm]
    exact h.idle

theorem leave (h : RunQueue s ps) (hne : s.current ≠ 0) {t : Kernel}
    {ps' : Queue → List ℕ} {x : ProcState} (hx : x = .blocked ∨ x = .terminated)
    (hq : Queues t.links ps') (hps : ps' .runqueue = ps .runqueue)
    (hstate : t.state = Function.update s.state s.current x)
    (hcur : t.current = s.current) (hrel : t.relinked = false) : RunQueue t ps' := by
  have hxready : x ≠ .ready := by rcases hx with rfl | rfl <;> exact ProcState.noConfusion
  have hxrun : x ≠ .running := by rcases hx with rfl | rfl <;> exact ProcState.noConfusion
  refine ⟨hq, fun r => ?_, hrel, fun r hr => ?_, ?_, ?_⟩
  · rw [hps, h.ready, hstate]
    by_cases hrc : r = s.current
    · rw [hrc, Function.update_self]
      exact and_congr_right fun _ => iff_of_false h.current hxready
    · rw [Function.update_of_ne hrc]
  · rw [hcur]
    by_contra hrc
    rw [hstate, Function.update_of_ne hrc] at hr
    exact hrc (h.running r hr)
  · rw [hcur, hstate, Function.update_self]
    exact hxready
  · rw [hstate, Function.update_of_ne hne.symm]
    exact h.idle

/-- The runqueue reads the lists, the states and who is current. -/
theorem congr (h : RunQueue s ps) {t : Kernel} (hlinks : t.links = s.links)
    (hstate : t.state = s.state) (hcur : t.current = s.current)
    (hrel : t.relinked = s.relinked) : RunQueue t ps := by
  refine ⟨hlinks ▸ h.queues, ?_, hrel.trans h.relinked, ?_, ?_, ?_⟩
  · rw [hstate]
    exact h.ready
  · rw [hstate, hcur]
    exact h.running
  · rw [hstate, hcur]
    exact h.current
  · rw [hstate]
    exact h.idle

/-- The empty runqueue: the current process goes on, or the idle process runs. -/
theorem scheduler_empty (h : RunQueue s ps) (he : ps .runqueue = []) :
    RunQueue s.scheduler ps ∧ Switched s s.scheduler ∧
      s.scheduler.state s.scheduler.current = .running := by
  have hempty := (h.queues.listEmpty_iff .runqueue).mpr he
  unfold Kernel.scheduler
  simp only [hempty, if_true]
  by_cases hrun : s.state s.current = .running
  · rw [if_pos hrun]
    exact ⟨h, Switched.refl s, hrun⟩
  · rw [if_neg hrun]
    have hzero := h.current_ne_zero hrun
    have hidle : s.state 0 = .ready := by
      rcases h.idle with hr | hr
      · exact hr
      · exact absurd (h.running 0 hr).symm hzero
    have hother : ∀ p, p ≠ 0 → (s.preContextSwitch idleProc).state p = s.state p :=
      fun p hp => Function.update_of_ne hp _ _
    have hself : (s.preContextSwitch idleProc).state 0 = .running := by
      simp [Kernel.preContextSwitch, Kernel.setState, idleProc]
    refine ⟨⟨h.queues, fun p => ?_, h.relinked, fun p hr => ?_, ?_, Or.inr hself⟩,
      ⟨rfl, fun p => ?_, fun p => ?_, fun p hr => ?_⟩, hself⟩
    · rw [h.ready]
      refine and_congr_right fun hp => ?_
      rw [hother p hp]
    · by_contra hp
      rw [hother p hp] at hr
      exact hrun (h.running p hr ▸ hr)
    · show (s.preContextSwitch idleProc).state 0 ≠ .ready
      rw [hself]
      exact ProcState.noConfusion
    · by_cases hp : p = 0
      · simp [hp, hself, hidle]
      · rw [hother p hp]
    · by_cases hp : p = 0
      · simp [hp, hself, hidle]
      · rw [hother p hp]
    · by_cases hp : p = 0
      · exact Or.inr hp
      · rw [hother p hp]
        exact Or.inl hr

/-- A process `p` from the runqueue is switched in: what the lists and the
states are then. -/
theorem switch_to (h : RunQueue s ps) {t : Kernel} {ps' : Queue → List ℕ}
    (hp : p ≠ 0 ∧ s.state p = .ready) (hcur : t.current = p)
    (hsame : t = { s with
      links := t.links, state := t.state, current := t.current, relinked := t.relinked })
    (hq : Queues t.links ps') (hrel : t.relinked = false)
    (hstate : ∀ r, t.state r = if r = p then .running
      else if r = s.current ∧ s.state s.current = .running then .ready
      else s.state r)
    (hmem : ∀ r, r ∈ ps' .runqueue ↔ r ≠ p ∧
      (r ∈ ps .runqueue ∨ r = s.current ∧ r ≠ 0 ∧ s.state s.current = .running)) :
    RunQueue t ps' ∧ Switched s t ∧ t.state t.current = .running := by
  have hself : t.state p = .running := by rw [hstate, if_pos rfl]
  -- a process other than `p` keeps its state, or it is the one preempted
  have hother : ∀ r, r ≠ p → (r ≠ s.current ∨ s.state s.current ≠ .running) →
      t.state r = s.state r := by
    intro r hrp hr
    rw [hstate, if_neg hrp, if_neg]
    rintro ⟨rfl, hrun⟩
    rcases hr with hr | hr
    · exact hr rfl
    · exact hr hrun
  have hpre : s.current ≠ p → s.state s.current = .running →
      t.state s.current = .ready := by
    intro hrp hrun
    rw [hstate, if_neg hrp, if_pos ⟨rfl, hrun⟩]
  refine ⟨⟨hq, fun r => ?_, hrel, fun r hr => ?_, ?_, ?_⟩, ⟨hsame, fun r => ?_,
    fun r => ?_, fun r hr => ?_⟩, hcur ▸ hself⟩
  · rw [hmem, h.ready]
    by_cases hrp : r = p
    · simp [hrp, hself]
    · by_cases hrc : r = s.current ∧ s.state s.current = .running
      · obtain ⟨rfl, hrun⟩ := hrc
        simp [hrp, hpre hrp hrun, hrun]
      · have hr' : r ≠ s.current ∨ s.state s.current ≠ .running := by
          rw [← not_and_or]
          exact hrc
        rw [hother r hrp hr']
        constructor
        · rintro ⟨-, hr | ⟨hr, -, hrun⟩⟩
          · exact hr
          · exact absurd ⟨hr, hrun⟩ hrc
        · exact fun hr => ⟨hrp, Or.inl hr⟩
  · rw [hcur]
    by_contra hrp
    by_cases hrc : r = s.current ∧ s.state s.current = .running
    · obtain ⟨rfl, hrun⟩ := hrc
      rw [hpre hrp hrun] at hr
      exact ProcState.noConfusion hr
    · have hr' : r ≠ s.current ∨ s.state s.current ≠ .running := by
        rw [← not_and_or]
        exact hrc
      rw [hother r hrp hr'] at hr
      exact hrc ⟨h.running r hr, h.running r hr ▸ hr⟩
  · rw [hcur, hself]
    exact ProcState.noConfusion
  · rw [hstate, if_neg hp.1.symm]
    split
    · exact Or.inl rfl
    · exact h.idle
  · rw [hstate]
    split
    · rename_i hrp
      simp [hrp, hp.2]
    · split
      · rename_i hrc
        simp [hrc.1, hrc.2]
      · exact Iff.rfl
  · rw [hstate]
    split
    · rename_i hrp
      simp [hrp, hp.2]
    · split
      · rename_i hrc
        simp [hrc.1, hrc.2]
      · exact Iff.rfl
  · rw [hstate, hcur]
    split
    · rename_i hrp
      exact Or.inr hrp
    · split
      · exact Or.inl rfl
      · exact Or.inl hr

theorem scheduler_first (h : RunQueue s ps) {rest : List ℕ}
    (hps : ps .runqueue = p :: rest) :
    ∃ ps', (∀ q, q ≠ .runqueue → ps' q = ps q) ∧
      RunQueue s.scheduler ps' ∧ Switched s s.scheduler ∧
      s.scheduler.state s.scheduler.current = .running := by
  have hp : p ≠ 0 ∧ s.state p = .ready := (h.ready p).mp (by rw [hps]; exact List.mem_cons_self)
  have hpc : p ≠ s.current := by
    rintro rfl
    exact h.current hp.2
  have hnotempty : s.links.listEmpty (.head .runqueue) = false := by
    rw [Bool.eq_false_iff, ne_eq, h.queues.listEmpty_iff, hps]
    exact List.cons_ne_nil p rest
  have hnext : (s.links.next (.head .runqueue)).proc = p := by
    rw [h.queues.next_head hps]
    rfl
  have hnodup := h.queues.nodup .runqueue
  have hmemp : p ∈ ps .runqueue := by
    rw [hps]
    exact List.mem_cons_self
  have hq := h.queues.remove hmemp
  have hcnot : s.current ∉ ps .runqueue := by
    rw [h.ready]
    exact fun hr => h.current hr.2
  unfold Kernel.scheduler
  simp only [hnotempty, Bool.false_eq_true, if_false, hnext, hpc, ne_eq, hp.1,
    not_false_eq_true, if_true]
  by_cases hrun : s.state s.current = .running
  · have hrun' : (s.dequeue p).state s.current = .running := hrun
    rw [if_pos hrun']
    by_cases hzero : s.current = 0
    · rw [if_neg (not_not.mpr hzero)]
      refine ⟨_, fun q hq => Function.update_of_ne hq _ _,
        h.switch_to hp rfl rfl hq h.relinked (fun r => ?_) fun r => ?_⟩
      · simp only [Kernel.preContextSwitch, Kernel.setState, Kernel.dequeue,
          Function.update_apply, hrun, and_true]
      · rw [Function.update_self, hnodup.mem_erase_iff]
        refine and_congr_right fun _ => ?_
        constructor
        · exact Or.inl
        · rintro (hr | ⟨rfl, hne, -⟩)
          · exact hr
          · exact absurd hzero hne
    · rw [if_pos hzero]
      have hnot : ∀ q : Queue, q.kind = .runqueue →
          s.current ∉ Function.update ps .runqueue ((ps .runqueue).erase p) q := by
        intro q hk
        rw [kind_eq hk, Function.update_self]
        exact fun hr => hcnot (List.mem_of_mem_erase hr)
      have hadd := hq.add (q := .runqueue) hnot
      refine ⟨_, fun q hq => ?_, h.switch_to hp rfl rfl hadd ?_ (fun r => ?_) fun r => ?_⟩
      · rw [Function.update_of_ne hq, Function.update_of_ne hq]
      · have hempty : ((s.dequeue p).setState s.current .ready).links.listEmpty
            (.entry .runqueue s.current) = true := hq.listEmpty_entry hnot
        show (s.relinked || !Links.listEmpty _ _) = false
        rw [h.relinked, hempty]
        rfl
      · simp only [Kernel.preContextSwitch, Kernel.setState, Kernel.dequeue,
          Kernel.enqueue, Function.update_apply, hrun, and_true]
      · rw [Function.update_self, Function.update_self, List.mem_cons,
          hnodup.mem_erase_iff]
        constructor
        · rintro (rfl | ⟨hne, hr⟩)
          · exact ⟨hpc.symm, Or.inr ⟨rfl, hzero, hrun⟩⟩
          · exact ⟨hne, Or.inl hr⟩
        · rintro ⟨hne, hr | ⟨rfl, -, -⟩⟩
          · exact Or.inr ⟨hne, hr⟩
          · exact Or.inl rfl
  · have hrun' : ¬ (s.dequeue p).state s.current = .running := hrun
    rw [if_neg hrun']
    refine ⟨_, fun q hq => Function.update_of_ne hq _ _,
      h.switch_to hp rfl rfl hq h.relinked (fun r => ?_) fun r => ?_⟩
    · simp only [Kernel.preContextSwitch, Kernel.setState, Kernel.dequeue,
        Function.update_apply, hrun, and_false, if_false]
    · rw [Function.update_self, hnodup.mem_erase_iff]
      refine and_congr_right fun _ => ?_
      constructor
      · exact Or.inl
      · rintro (hr | ⟨-, -, hrun''⟩)
        · exact hr
        · exact absurd hrun'' hrun

/-- The scheduler picks the process that runs next and keeps the lists. -/
theorem scheduler (h : RunQueue s ps) :
    ∃ ps', (∀ q, q ≠ .runqueue → ps' q = ps q) ∧
      RunQueue s.scheduler ps' ∧ Switched s s.scheduler ∧
      s.scheduler.state s.scheduler.current = .running := by
  cases hps : ps .runqueue with
  | nil => exact ⟨ps, fun _ _ => rfl, h.scheduler_empty hps⟩
  | cons p rest => exact h.scheduler_first hps

end RunQueue

end Rpos
