import Rpos.System.Handoff

/-!
# Runs of the kernel

From the calls to the steps, and from the steps to every state of a run that
starts with the shell.
-/

namespace Rpos

open Base Kernel.Outcome

namespace Consistent

variable {s t u : Kernel} {ps ps' : Queue → List ℕ} {p : ℕ} {k : Kont}

/-! ## §1  Steps -/

theorem interrupt (h : Consistent s ps) (hrun : s.state s.current = .running)
    {e : KernelEvent} {o : Kernel.Outcome} (ho : s.interrupt e = some o) : o.Good s ps := by
  cases e with
  | tick =>
      rw [Kernel.interrupt, Option.some.injEq] at ho
      rw [← ho]
      exact good_schedules ⟨ps, h, Progress.refl s ps⟩
  | virtualTimer =>
      rw [Kernel.interrupt] at ho
      split at ho
      · rename_i harmed
        rw [Option.some.injEq] at ho
        rw [← ho]
        obtain ⟨hcons, hrun'⟩ := h.handleVirtualTimer hrun harmed
        exact good_returns hcons hrun'
      · simp at ho
  | key c =>
      rw [Kernel.interrupt] at ho
      obtain ⟨t, ht, hcons⟩ := h.keyboardEvent hrun c
      rw [ht, Option.map_some, Option.some.injEq] at ho
      rw [← ho]
      exact good_schedules hcons
  | _ => simp [Kernel.interrupt] at ho

theorem syscall (h : Consistent s ps) (hrun : s.state s.current = .running)
    (hne : s.current ≠ 0) {e : KernelEvent} {o : Kernel.Outcome}
    (ho : s.syscall e = some o) : o.Good s ps := by
  cases e with
  | fork => exact h.sysFork hrun ho
  | exit =>
      rw [Kernel.syscall, Option.some.injEq] at ho
      exact ho ▸ h.reap hrun hne
  | waitid pid =>
      rw [Kernel.syscall, Option.some.injEq] at ho
      exact ho ▸ h.sysWaitid hrun hne pid
  | nanosleep ns now =>
      rw [Kernel.syscall, Option.some.injEq] at ho
      exact ho ▸ h.sysNanosleep hrun hne ns now
  | acquire mutex =>
      obtain ⟨o', ho', hgood⟩ := h.mutexAcquire hrun hne mutex
      rw [Kernel.syscall, ho', Option.some.injEq] at ho
      exact ho ▸ hgood
  | release mutex =>
      rw [Kernel.syscall] at ho
      split at ho
      · obtain ⟨o', ho', hgood⟩ := h.mutexRelease hrun mutex
        rw [ho', Option.some.injEq] at ho
        exact ho ▸ hgood
      · simp at ho
  | read buf count =>
      rw [Kernel.syscall, Option.some.injEq] at ho
      exact ho ▸ h.sysRead hrun hne buf count
  | tick => exact h.interrupt (e := .tick) hrun ho
  | virtualTimer => exact h.interrupt (e := .virtualTimer) hrun ho
  | key c => exact h.interrupt (e := .key c) hrun ho
  | resume => exact h.interrupt (e := .resume) hrun ho

theorem resume (h : Consistent s ps) (hrun : s.state s.current = .running)
    (hne : s.current ≠ 0) {o : Kernel.Outcome} (ho : s.resume k = some o) : o.Good s ps := by
  cases k with
  | acquire mutex =>
      obtain ⟨o', ho', hgood⟩ := h.mutexAcquireLoop hrun hne mutex
      rw [Kernel.resume, ho', Option.some.injEq] at ho
      exact ho ▸ hgood
  | read buf count =>
      rw [Kernel.resume, Option.some.injEq] at ho
      exact ho ▸ h.pipeReadLoop hrun hne buf count
  | waitid child =>
      rw [Kernel.resume, Option.some.injEq] at ho
      exact ho ▸ h.waitidLoop hrun hne child
  | nanosleep =>
      rw [Kernel.resume, Option.some.injEq] at ho
      obtain ⟨hkont, hprog⟩ := h.setKont (k := .user) hrun hne Kont.noConfusion
      exact ho ▸ good_returns ⟨ps, hkont, hprog⟩ hrun
  | _ => simp [Kernel.resume] at ho

/-- Kernel code keeps the invariant up to its end or to the scheduler. -/
theorem run (h : Consistent s ps) (hrun : s.state s.current = .running)
    {e : KernelEvent} {o : Kernel.Outcome} (ho : s.run e = some o) : o.Good s ps := by
  unfold Kernel.run at ho
  split at ho
  · rename_i hk
    exact h.syscall hrun (h.current_ne_zero (by rw [hk]; exact Kont.noConfusion)) ho
  · exact h.interrupt hrun ho
  · rename_i k huser hidle
    split at ho
    · exact h.resume hrun (h.current_ne_zero hidle) ho
    · simp at ho

end Consistent

def Settled (s : Kernel) : Prop :=
  (∃ ps, Consistent s ps) ∧ s.state s.current = .running

theorem Kernel.Outcome.stop_of_handOff {o : Kernel.Outcome} {h : Kernel}
    (hh : o.handOff = some h) : o.stop = h := by
  cases o with
  | returns v t => simp [Kernel.Outcome.handOff] at hh
  | schedules t => exact Option.some.inj hh
  | deschedules t => exact Option.some.inj hh

/-- A step ends in the state that its call returned, or in the one to which the
scheduler has switched. -/
theorem step_cases {s t : Kernel} {e : KernelEvent} {v : Option ℕ}
    (hstep : s.step e = some (v, t)) :
    ∃ o, s.run e = some o ∧
      (o = .returns v t ∨ o.handOff = some o.stop ∧ t = o.stop.scheduler) := by
  rw [Kernel.step, Option.map_eq_some_iff] at hstep
  obtain ⟨o, ho, hsettle⟩ := hstep
  refine ⟨o, ho, ?_⟩
  cases o with
  | returns v' t' =>
      rw [Kernel.Outcome.settle, Prod.mk.injEq] at hsettle
      rw [hsettle.1, hsettle.2]
      exact Or.inl rfl
  | schedules h =>
      rw [Kernel.Outcome.settle, Prod.mk.injEq] at hsettle
      exact Or.inr ⟨rfl, hsettle.2.symm⟩
  | deschedules h =>
      rw [Kernel.Outcome.settle, Prod.mk.injEq] at hsettle
      exact Or.inr ⟨rfl, hsettle.2.symm⟩

/-- What a step does to the invariant: the call takes it to `u`, and the scheduler
may switch from there. -/
theorem Consistent.step {s t : Kernel} {ps : Queue → List ℕ} (h : Consistent s ps)
    (hrun : s.state s.current = .running) {e : KernelEvent} {v : Option ℕ}
    (hstep : s.step e = some (v, t)) :
    ∃ o ps' ps'', s.run e = some o ∧ Consistent o.stop ps' ∧ Progress s ps o.stop ps' ∧
      Consistent t ps'' ∧ Switched o.stop t ∧ ps'' .rdWait = ps' .rdWait ∧
      t.state t.current = .running ∧
      (o = .returns v t ∨ o.handOff = some o.stop) := by
  obtain ⟨o, ho, hcases⟩ := step_cases hstep
  obtain ⟨⟨ps', hcons, hprog⟩, hret⟩ := h.run hrun ho
  rcases hcases with heq | ⟨hh, ht⟩
  · have hstop : o.stop = t := by rw [heq]; rfl
    refine ⟨o, ps', ps', ho, hcons, hprog, hstop ▸ hcons, ?_, rfl, hret v t heq, Or.inl heq⟩
    rw [hstop]
    exact Switched.refl t
  · obtain ⟨⟨ps'', hcons', hps⟩, hsw, hrun'⟩ := hcons.scheduler
    rw [ht]
    exact ⟨o, ps', ps'', ho, hcons, hprog, hcons', hsw, hps, hrun', Or.inr hh⟩

theorem Settled.step {s t : Kernel} (hs : Settled s) {e : KernelEvent} {v : Option ℕ}
    (hstep : s.step e = some (v, t)) : Settled t := by
  obtain ⟨⟨ps, hc⟩, hrun⟩ := hs
  obtain ⟨_, _, ps', -, -, -, ht, -, -, hrun', -⟩ := hc.step hrun hstep
  exact ⟨⟨ps', ht⟩, hrun'⟩

/-- The kernel when the shell starts: the shell runs, the idle process is ready,
and nobody waits. -/
theorem boot_settled (buf : Word) (page : ℕ → UInt8) : Settled (Kernel.boot buf page) := by
  have hempty : Queues ⟨id, id⟩ fun _ => [] := by
    refine ⟨⟨fun q _ => isRing_nil.mpr ⟨rfl, rfl⟩, fun q _ q' _ hne a ha hmem => ?_⟩,
      fun k p _ => ⟨rfl, rfl⟩⟩
    simp only [List.map_nil, List.mem_singleton] at ha hmem
    rw [ha, Node.head.injEq] at hmem
    exact hne hmem
  have hadd := hempty.add (q := .runqueue) (p := 2) fun _ _ => List.not_mem_nil
  have hremove := hadd.remove (q := .runqueue) (p := 2) (by
    rw [Function.update_self]
    exact List.mem_cons_self)
  have hps : Function.update (Function.update (fun _ : Queue => ([] : List ℕ)) .runqueue [2])
      .runqueue ((Function.update (fun _ : Queue => ([] : List ℕ)) .runqueue [2]
        .runqueue).erase 2) = fun _ => [] := by
    rw [Function.update_idem, Function.update_self]
    exact Function.update_eq_self_iff.mpr rfl
  rw [hps] at hremove
  have hself : (Kernel.boot buf page).state 2 = .running := rfl
  have hzero : (Kernel.boot buf page).state 0 = .ready := rfl
  have hother : ∀ p, p ≠ 2 → p ≠ 0 → (Kernel.boot buf page).state p = .terminated := by
    intro p hp hp0
    show Function.update (Function.update (Function.update (fun _ => ProcState.terminated)
      idleProc ProcState.ready) 2 ProcState.ready) 2 ProcState.running p = _
    rw [Function.update_of_ne hp, Function.update_of_ne hp]
    exact Function.update_of_ne (show p ≠ idleProc from hp0) _ _
  have hnb : ∀ p k, ¬ (Kernel.boot buf page).BlockedIn p k := by
    rintro p k ⟨hp, -⟩
    by_cases h2 : p = 2
    · rw [h2, hself] at hp
      exact ProcState.noConfusion hp
    · by_cases h0 : p = 0
      · rw [h0, hzero] at hp
        exact ProcState.noConfusion hp
      · rw [hother p h2 h0] at hp
        exact ProcState.noConfusion hp
  refine ⟨⟨fun _ => [], ⟨hremove, fun p => ?_, rfl, fun p hp => ?_, ?_, Or.inl hzero⟩,
    ⟨fun m p => ?_, fun p hp => ?_, fun p hp => ?_, ?_⟩, ⟨?_, rfl, fun t => ?_⟩,
    ⟨fun q hq _ hw => ?_, fun p => ?_, fun p c hc => ?_, fun p hp => ?_, fun q hq => ?_, ?_⟩,
    fun _ => rfl, fun p => ?_⟩, hself⟩
  · refine iff_of_false List.not_mem_nil ?_
    rintro ⟨h0, hp⟩
    by_cases h2 : p = 2
    · rw [h2, hself] at hp
      exact ProcState.noConfusion hp
    · rw [hother p h2 h0] at hp
      exact ProcState.noConfusion hp
  · by_contra h2
    have h2' : p ≠ 2 := h2
    by_cases h0 : p = 0
    · rw [h0, hzero] at hp
      exact ProcState.noConfusion hp
    · rw [hother p h2' h0] at hp
      exact ProcState.noConfusion hp
  · rw [show (Kernel.boot buf page).current = 2 from rfl, hself]
    exact ProcState.noConfusion
  · exact iff_of_false List.not_mem_nil (hnb p _)
  · exact absurd hp List.not_mem_nil
  · exact absurd hp (Multiset.notMem_zero p)
  · exact Multiset.nodup_zero
  · intro i _ hi
    exact absurd hi (Nat.not_lt_zero i)
  · show (none : Option Word) = some t ↔ (0 : ℕ) ≠ 0 ∧ _
    simp
  · have hw' : (0 : ℕ) = q := hw
    exact absurd hw'.symm hq
  · exact Nat.zero_le _
  · exact absurd hc List.not_mem_nil
  · have hp' : 2 < p := hp
    exact hother p (by omega) (by omega)
  · show Function.update (fun _ => idleProc) 2 idleProc q ≤ 2
    by_cases h2 : q = 2
    · rw [h2, Function.update_self]
      decide
    · rw [Function.update_of_ne h2]
      decide
  · show 2 + 1 < 2 ^ 32
    decide
  · show Function.update (fun _ => Kont.user) idleProc .idle p = .idle ↔ p = 0
    by_cases h0 : p = idleProc
    · rw [h0, Function.update_self]
      exact iff_of_true rfl rfl
    · rw [Function.update_of_ne h0]
      exact iff_of_false Kont.noConfusion h0

theorem reached_settled (buf : Word) (page : ℕ → UInt8) {events : List KernelEvent}
    {vs : List (Option ℕ)} {t : Kernel}
    (hrun : exec Kernel.step (Kernel.boot buf page) events = some (vs, t)) : Settled t :=
  reached_inv (fun _ _ _ _ hs hstep => hs.step hstep) events _ vs t (boot_settled buf page) hrun

/-! ## §2  Where the current process goes on -/

namespace Kernel

/-- The next event is a round of the loop of `mutex_acquire`. -/
def TriesAcquire (s : Kernel) (e : KernelEvent) (m : ℕ) : Prop :=
  (s.kont s.current = .user ∧ e = .acquire m) ∨
    (s.kont s.current = .acquire m ∧ e = .resume)

/-- The next event is a round of the loop of `pipe_read`. -/
def TriesRead (s : Kernel) (e : KernelEvent) (buf : ℕ → UInt8) (count : Word) : Prop :=
  (s.kont s.current = .user ∧ e = .read buf count) ∨
    (s.kont s.current = .read buf count ∧ e = .resume)

/-- Where the process that was current when `e` happened goes on afterwards. -/
inductive StopsAt (s : Kernel) (e : KernelEvent) : Kont → Prop
  | user : StopsAt s e .user
  | idle : StopsAt s e .idle
  | exited : StopsAt s e .exited
  | waitid (child : ℕ) : StopsAt s e (.waitid child)
  | acquire {m : ℕ} : s.TriesAcquire e m → StopsAt s e (.acquire m)
  | read {buf : ℕ → UInt8} {count : Word} : s.TriesRead e buf count →
      s.pipe.head = s.pipe.tail → StopsAt s e (.read buf count)
  | nanosleep {ns now : Word} : s.kont s.current = .user → e = .nanosleep ns now →
      StopsAt s e .nanosleep

theorem StopsAt.congr {s t : Kernel} {e : KernelEvent} {k : Kont} (h : StopsAt t e k)
    (hkont : t.kont s.current = s.kont s.current) (hcur : t.current = s.current)
    (hpipe : t.pipe = s.pipe) : StopsAt s e k := by
  have hk : t.kont t.current = s.kont s.current := by rw [hcur, hkont]
  cases h with
  | user => exact .user
  | idle => exact .idle
  | exited => exact .exited
  | waitid child => exact .waitid child
  | acquire ht => exact .acquire (by rwa [TriesAcquire, ← hk])
  | read ht hempty => exact .read (by rwa [TriesRead, ← hk]) (by rwa [← hpipe])
  | nanosleep hu he => exact .nanosleep (hk.symm.trans hu) he

theorem leaveProcessor_kont (s : Kernel) : s.leaveProcessor.kont = s.kont := by
  unfold leaveProcessor
  split <;> rfl

theorem StopsAt.setKont {s t : Kernel} {e : KernelEvent} {k : Kont} (h : StopsAt s e k) :
    StopsAt s e ((t.setKont s.current k).kont s.current) := by
  have hk : (t.setKont s.current k).kont s.current = k := Function.update_self _ _ _
  rw [hk]
  exact h

theorem StopsAt.deschedules {s t : Kernel} {e : KernelEvent} {k : Kont} (h : StopsAt s e k)
    (hk : t.kont s.current = k) : StopsAt s e (t.leaveProcessor.kont s.current) := by
  rw [leaveProcessor_kont, hk]
  exact h

theorem wakeListeners_kont (fuel : ℕ) : ∀ s t : Kernel, s.wakeListeners fuel = some t →
    t.kont = s.kont := by
  induction fuel with
  | zero => exact fun _ _ h => by simp [wakeListeners] at h
  | succ fuel ih =>
      intro s t h
      unfold wakeListeners at h
      split at h
      · rw [Option.some.injEq] at h
        rw [h]
      · have hrest := ih _ t h
        exact hrest

theorem interrupt_kont {s : Kernel} {e : KernelEvent} {o : Outcome}
    (ho : s.interrupt e = some o) : o.stop.kont = s.kont := by
  cases e with
  | tick =>
      rw [interrupt, Option.some.injEq] at ho
      exact ho ▸ rfl
  | virtualTimer =>
      rw [interrupt] at ho
      split at ho
      · rw [Option.some.injEq] at ho
        exact ho ▸ rfl
      · simp at ho
  | key c =>
      rw [interrupt, Option.map_eq_some_iff] at ho
      obtain ⟨t, ht, rfl⟩ := ho
      unfold keyboardEvent at ht
      split at ht
      · rw [Option.some.injEq] at ht
        exact ht ▸ rfl
      · have hkont := wakeListeners_kont _ _ _ ht
        exact hkont
  | _ => simp [interrupt] at ho

theorem pipeReadLoop_kont {s : Kernel} {e : KernelEvent} {buf : ℕ → UInt8} {count : Word}
    (ht : s.TriesRead e buf count) :
    StopsAt s e ((s.pipeReadLoop buf count).stop.kont s.current) := by
  unfold pipeReadLoop
  cases hread : pipeRead s.pipe buf count with
  | none =>
      have hempty : s.pipe.head = s.pipe.tail := by
        by_contra hne
        rw [pipeRead, if_neg hne] at hread
        simp at hread
      refine StopsAt.deschedules (.read ht hempty) ?_
      split <;> exact Function.update_self _ _ _
  | some r => exact StopsAt.setKont .user

theorem waitidLoop_kont (s : Kernel) (e : KernelEvent) (child : ℕ) :
    StopsAt s e ((s.waitidLoop child).stop.kont s.current) := by
  unfold waitidLoop
  split
  · exact StopsAt.setKont .user
  · exact StopsAt.deschedules (.waitid child) (Function.update_self _ _ _)

theorem mutexAcquireLoop_kont {s : Kernel} {e : KernelEvent} {m : ℕ} {o : Outcome}
    (ht : s.TriesAcquire e m) (ho : s.mutexAcquireLoop m = some o) :
    StopsAt s e (o.stop.kont s.current) := by
  unfold mutexAcquireLoop at ho
  simp only at ho
  split at ho
  · rw [Option.some.injEq] at ho
    rw [← ho]
    exact StopsAt.setKont .user
  · rw [Option.map_eq_some_iff] at ho
    obtain ⟨s', hs', rfl⟩ := ho
    exact StopsAt.deschedules (.acquire ht) (Function.update_self _ _ _)

theorem mutexRelease_kont {s : Kernel} {m : ℕ} {o : Outcome}
    (ho : s.mutexRelease m = some o) : o.stop.kont = s.kont := by
  unfold mutexRelease spinlockAcquire at ho
  simp only at ho
  split at ho
  · rw [Option.map_some, Option.some.injEq] at ho
    rw [← ho]
    show (spinlockRelease _ m).kont = s.kont
    split <;> rfl
  · simp at ho

/-- The kernel code of the current process remembers why it gave up the
processor. -/
theorem run_kont {s : Kernel} {e : KernelEvent} {o : Outcome} (ho : s.run e = some o) :
    StopsAt s e (o.stop.kont s.current) := by
  unfold run at ho
  split at ho
  · rename_i hk
    have huser : o.stop.kont = s.kont → StopsAt s e (o.stop.kont s.current) := by
      intro heq
      rw [heq, hk]
      exact .user
    cases e with
    | fork =>
        rw [syscall, sysFork] at ho
        split at ho
        · rw [Option.some.injEq] at ho
          rw [← ho]
          show StopsAt s .fork (Function.update s.kont (s.pidcounter + 1) .user s.current)
          by_cases hc : s.current = s.pidcounter + 1
          · rw [hc, Function.update_self]
            exact .user
          · rw [Function.update_of_ne hc, hk]
            exact .user
        · simp at ho
    | exit =>
        rw [syscall, Option.some.injEq] at ho
        rw [← ho]
        exact StopsAt.setKont .exited
    | waitid pid =>
        rw [syscall, Option.some.injEq] at ho
        rw [← ho, sysWaitid]
        split
        · exact hk ▸ .user
        split
        · exact hk ▸ .user
        · rename_i child _
          exact (waitidLoop_kont { s with
            waitingOn := Function.update s.waitingOn s.current pid } (.waitid pid) child).congr
            rfl rfl rfl
    | nanosleep ns now =>
        rw [syscall, Option.some.injEq] at ho
        rw [← ho]
        exact StopsAt.deschedules (.nanosleep hk rfl) (Function.update_self _ _ _)
    | acquire m =>
        exact (mutexAcquireLoop_kont (s := s.defineWait .waiter) (Or.inl ⟨hk, rfl⟩) ho).congr
          rfl rfl rfl
    | release m =>
        rw [syscall] at ho
        split at ho
        · exact huser (mutexRelease_kont ho)
        · simp at ho
    | read buf count =>
        rw [syscall, Option.some.injEq] at ho
        rw [← ho]
        exact (pipeReadLoop_kont (s := s.defineWait .reader) (Or.inl ⟨hk, rfl⟩)).congr
          rfl rfl rfl
    | tick => exact huser (interrupt_kont (e := .tick) ho)
    | virtualTimer => exact huser (interrupt_kont (e := .virtualTimer) ho)
    | key c => exact huser (interrupt_kont (e := .key c) ho)
    | resume => exact huser (interrupt_kont (e := .resume) ho)
  · rename_i hk
    rw [interrupt_kont ho, hk]
    exact .idle
  · rename_i k huser hidle
    split at ho
    · cases hk : s.kont s.current with
      | acquire m =>
          rw [hk] at ho
          exact mutexAcquireLoop_kont (Or.inr ⟨hk, rfl⟩) ho
      | read buf count =>
          rw [hk, resume, Option.some.injEq] at ho
          rw [← ho]
          exact pipeReadLoop_kont (Or.inr ⟨hk, rfl⟩)
      | waitid child =>
          rw [hk, resume, Option.some.injEq] at ho
          rw [← ho]
          exact waitidLoop_kont s _ child
      | nanosleep =>
          rw [hk, resume, Option.some.injEq] at ho
          rw [← ho]
          exact StopsAt.setKont .user
      | user => exact absurd hk huser
      | idle => exact absurd hk hidle
      | exited => simp [hk, resume] at ho
    · simp at ho

end Kernel

/-! ## §3  The runqueue in every run -/

/-- The runqueue is a circular list of the processes that are ready, without the
idle process; nobody but the current process is running; and `list_add` was given
no linked process so far. -/
structure RunQueueOk (s : Kernel) : Prop where
  ring : ∃ ps : List ℕ, IsRing s.links (.head .runqueue) (ps.map (Node.entry .runqueue)) ∧
    ∀ p, p ∈ ps ↔ p ≠ idleProc ∧ s.state p = .ready
  running : ∀ p, s.state p = .running → p = s.current
  relinked : s.relinked = false

theorem RunQueue.ok {s : Kernel} {ps : Queue → List ℕ} (h : RunQueue s ps) :
    RunQueueOk s :=
  ⟨⟨ps .runqueue, h.queues.ring .runqueue, h.ready⟩, h.running, h.relinked⟩

theorem Settled.stays_terminated {s t : Kernel} (hs : Settled s) {e : KernelEvent}
    {v : Option ℕ} (hstep : s.step e = some (v, t)) {p : ℕ} (hp : p ≤ s.pidcounter)
    (hover : s.state p = .terminated) : p ≤ t.pidcounter ∧ t.state p = .terminated := by
  obtain ⟨⟨ps, hc⟩, hrun⟩ := hs
  obtain ⟨o, ps', _, -, -, hprog, -, hsw, -⟩ := hc.step hrun hstep
  have hpid : t.pidcounter = o.stop.pidcounter := by rw [hsw.same]
  refine ⟨?_, (hsw.terminated p).mpr (hprog.terminated p hp hover)⟩
  rw [hpid]
  exact hp.trans hprog.pidcounter

/-- In every run from the start of the shell: between two events and in every call
of the scheduler the runqueue holds the ready processes; somebody runs after it;
and who has ended does not run again. -/
theorem runqueue_holds_ready (buf : Word) (page : ℕ → UInt8) (events : List KernelEvent)
    (vs : List (Option ℕ)) (t : Kernel)
    (hrun : exec Kernel.step (Kernel.boot buf page) events = some (vs, t)) :
    RunQueueOk t ∧ t.state t.current = .running ∧
      (∀ e o h, t.run e = some o → o.handOff = some h → RunQueueOk h) ∧
      ∀ later vs' u, exec Kernel.step t later = some (vs', u) → ∀ p, p ≤ t.pidcounter →
        t.state p = .terminated → u.state p = .terminated := by
  have hsettled := reached_settled buf page hrun
  obtain ⟨⟨ps, hc⟩, hrunning⟩ := hsettled
  refine ⟨hc.runQueue.ok, hrunning, fun e o h ho hh => ?_, fun later vs' u hlater p hp hover => ?_⟩
  · obtain ⟨⟨ps', hcons, -⟩, -⟩ := hc.run hrunning ho
    rw [Kernel.Outcome.stop_of_handOff hh] at hcons
    exact hcons.runQueue.ok
  · have hinv : ∀ s e v s', Settled s ∧ p ≤ s.pidcounter ∧ s.state p = .terminated →
        s.step e = some (v, s') → Settled s' ∧ p ≤ s'.pidcounter ∧ s'.state p = .terminated :=
      fun s e v s' hs hstep => ⟨hs.1.step hstep, hs.1.stays_terminated hstep hs.2.1 hs.2.2⟩
    exact (reached_inv hinv later t vs' u ⟨⟨⟨ps, hc⟩, hrunning⟩, hp, hover⟩ hlater).2.2

theorem runqueue_holds_ready_example :
    ∃ vs t, exec Kernel.step (Kernel.boot 4096 fun _ => 0) [.fork, .waitid 3, .exit] =
        some (vs, t) ∧ RunQueueOk t ∧ t.state 3 = .terminated := by
  refine ⟨_, _, rfl, ?_, ?_⟩
  · exact (runqueue_holds_ready 4096 (fun _ => 0) [.fork, .waitid 3, .exit] _ _ rfl).1
  · decide

end Rpos
