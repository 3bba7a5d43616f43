import Rpos.System.KernelRun

/-!
# The sleepers of the virtual timer

`sleep_timer_queue` has room for `MAX_PROCESSES` requests, and `fork` makes more
processes than that. `pq_add` drops the request of a process that goes to sleep
while the queue is full; the process blocks all the same.
-/

namespace Rpos

open Base

namespace Kernel

instance (k : Kont) : Decidable (k = .nanosleep) :=
  match k with
  | .nanosleep => isTrue rfl
  | .user | .idle | .acquire _ | .read _ _ | .waitid _ | .exited =>
      isFalse Kont.noConfusion

/-- `p` is blocked in `sys_nanosleep`. -/
abbrev Asleep (s : Kernel) (p : ℕ) : Prop :=
  s.BlockedIn p .nanosleep

instance (s : Kernel) (p : ℕ) : Decidable (s.Asleep p) :=
  inferInstanceAs (Decidable (_ ∧ _))

/-- Who calls `sys_nanosleep` finds fewer than `MAX_PROCESSES` requests in the
queue. -/
def RoomToSleep (s : Kernel) (e : KernelEvent) : Prop :=
  ∀ ns now, s.kont s.current = .user → e = .nanosleep ns now →
    s.sleepQueue.items < maxProcesses

end Kernel

/-- The sleep queue has one request for each sleeper and no others, and the timer is
armed for the least of them. -/
structure SleepersQueued (s : Kernel) : Prop where
  queued : ∀ p, s.Asleep p → s.sleepQueue.elements.count p = 1
  asleep : ∀ p ∈ s.sleepQueue.elements, s.Asleep p
  armed : s.timer.isSome = true ↔ s.sleepQueue.nodes ≠ 0
  least : ∀ time, s.timer = some time →
    (∃ x ∈ s.sleepQueue.nodes, x.priority = time) ∧
      ∀ x ∈ s.sleepQueue.nodes, time ≤ x.priority

variable {s t : Kernel} {ps ps' : Queue → List ℕ}

theorem TimerOk.isSome_iff (h : TimerOk s) :
    s.timer.isSome = true ↔ s.sleepQueue.nodes ≠ 0 := by
  rw [Ne, Pq.nodes_eq_zero, Option.isSome_iff_exists]
  constructor
  · rintro ⟨time, htime⟩
    exact ((h.armed time).mp htime).1
  · exact fun hne => ⟨_, (h.armed _).mpr ⟨hne, rfl⟩⟩

theorem TimerOk.least (h : TimerOk s) {time : Word} (htime : s.timer = some time) :
    (∃ x ∈ s.sleepQueue.nodes, x.priority = time) ∧
      ∀ x ∈ s.sleepQueue.nodes, time ≤ x.priority := by
  obtain ⟨hne, heq⟩ := (h.armed time).mp htime
  obtain ⟨hmem, hle⟩ := Pq.peek_least h.heap hne
  rw [heq]
  exact ⟨⟨_, hmem, rfl⟩, fun x hx => BitVec.le_def.mpr (hle x hx)⟩

theorem Consistent.sleepersQueued_iff (h : Consistent s ps) :
    SleepersQueued s ↔ ∀ p, s.Asleep p → p ∈ s.sleepQueue.elements := by
  constructor
  · intro hs p hp
    rw [← Multiset.one_le_count_iff_mem, hs.queued p hp]
  · intro hall
    exact ⟨fun p hp => Multiset.count_eq_one_of_mem h.waits.nodup (hall p hp),
      h.waits.sleeping, h.timer.isSome_iff, fun _ => h.timer.least⟩

/-- After any call, every sleeper but the current process is in the queue. -/
theorem queued_after (hs : Consistent s ps)
    (hall : ∀ p, s.Asleep p → p ∈ s.sleepQueue.elements)
    (hprog : Progress s ps t ps') {p : ℕ} (hpc : p ≠ s.current) (hp : t.Asleep p) :
    p ∈ t.sleepQueue.elements := by
  obtain ⟨hblocked, hk⟩ := hp
  have hbefore := hprog.blocked p hpc hblocked
  have hle := hs.family.le_pidcounter (p := p) (by
    rw [hbefore]
    exact ProcState.noConfusion)
  have hmem := hall p ⟨hbefore, (hprog.kont p hpc hle).symm.trans hk⟩
  exact hprog.sleeping p hpc hmem hblocked

/-- `sys_nanosleep` blocks its caller, with a request in the queue if and only if
there was room. -/
theorem sleeps (hs : Consistent s ps) (hrun : s.state s.current = .running)
    {ns now : Word} {o : Kernel.Outcome} (ho : s.run (.nanosleep ns now) = some o)
    (huser : s.kont s.current = .user) :
    o.stop.Asleep s.current ∧
      (s.current ∈ o.stop.sleepQueue.elements ↔ s.sleepQueue.items < maxProcesses) := by
  have hne : s.current ≠ 0 := hs.current_ne_zero (by
    rw [huser]
    exact Kont.noConfusion)
  simp only [Kernel.run, huser, Kernel.syscall, Option.some.injEq] at ho
  obtain ⟨u, hu, -, -, hasleep, hiff⟩ := hs.sysNanosleep_blocks hrun hne ns now
  have hstop : o.stop = u.leaveProcessor := by
    rw [← ho, hu]
    rfl
  rw [hstop, ← hs.timer.size]
  exact ⟨hasleep, hiff⟩

/-- One step keeps the sleepers queued exactly when nobody goes to sleep on a full
queue. -/
theorem step_sleepersQueued (hs : Settled s) (hqueued : SleepersQueued s)
    {e : KernelEvent} {v : Option ℕ} (hstep : s.step e = some (v, t)) :
    SleepersQueued t ↔ s.RoomToSleep e := by
  obtain ⟨⟨ps, hc⟩, hrun⟩ := hs
  have hall := hc.sleepersQueued_iff.mp hqueued
  obtain ⟨o, ps', ps'', ho, -, hprog, ht, hsw, -⟩ := hc.step hrun hstep
  have hqueue : t.sleepQueue = o.stop.sleepQueue := by rw [hsw.same]
  rw [ht.sleepersQueued_iff, hqueue]
  constructor
  · rintro h ns now huser rfl
    obtain ⟨hasleep, hiff⟩ := sleeps hc hrun ho huser
    exact hiff.mp (h _ ((hsw.blockedIn _ _).mpr hasleep))
  · intro hroom p hp
    rw [Kernel.Asleep, hsw.blockedIn] at hp
    by_cases hpc : p = s.current
    · -- only `sys_nanosleep` leaves its caller there
      have hstops := Kernel.run_kont ho
      rw [← hpc, hp.2] at hstops
      cases hstops with
      | nanosleep huser he =>
          subst he
          rw [hpc]
          exact (sleeps hc hrun ho huser).2.mpr (hroom _ _ huser rfl)
    · exact queued_after hc hall hprog hpc hp

theorem boot_sleepersQueued (buf : Word) (page : ℕ → UInt8) :
    SleepersQueued (Kernel.boot buf page) := by
  obtain ⟨⟨ps, hc⟩, -⟩ := boot_settled buf page
  rw [hc.sleepersQueued_iff]
  rintro p ⟨hp, -⟩
  have hcases : p = 0 ∨ p = 1 ∨ p = 2 := by
    have hle : p ≤ 2 := hc.family.le_pidcounter (p := p) (by
      rw [hp]
      exact ProcState.noConfusion)
    omega
  rcases hcases with rfl | rfl | rfl <;> exact ProcState.noConfusion hp

/-- In every run from the start of the shell: after every event all sleepers are in
the queue, and the timer is armed for the first of them, exactly when nobody goes
to sleep while the queue is full. -/
theorem sleepers_queued_iff (buf : Word) (page : ℕ → UInt8) (events : List KernelEvent) :
    Along Kernel.step (fun _ _ _ t => SleepersQueued t) (Kernel.boot buf page) events ↔
      Along Kernel.step (fun s e _ _ => s.RoomToSleep e) (Kernel.boot buf page) events := by
  have hstep : ∀ s e v t, Settled s ∧ SleepersQueued s → s.step e = some (v, t) →
      (SleepersQueued t ↔ s.RoomToSleep e) ∧
        (s.RoomToSleep e → Settled t ∧ SleepersQueued t) := by
    intro s e v t hs hstep
    have hiff := step_sleepersQueued hs.1 hs.2 hstep
    exact ⟨hiff, fun hroom => ⟨hs.1.step hstep, hiff.mpr hroom⟩⟩
  exact along_iff_of_keeps hstep events _ ⟨boot_settled buf page, boot_sleepersQueued buf page⟩

set_option maxRecDepth 10000 in
/-- The shell forks 64 times and all 65 processes go to sleep. The request of the
last one is lost. -/
theorem last_sleeper_lost :
    ∃ vs t, exec Kernel.step (Kernel.boot 4096 fun _ => 0)
        (List.replicate 64 .fork ++ List.replicate 65 (.nanosleep 0 0)) = some (vs, t) ∧
      t.Asleep 3 ∧ 3 ∉ t.sleepQueue.elements ∧ ¬ SleepersQueued t := by
  have hrun : ∃ r, exec Kernel.step (Kernel.boot 4096 fun _ => 0)
        (List.replicate 64 .fork ++ List.replicate 65 (.nanosleep 0 0)) = some r ∧
      (r.2.Asleep 3 ∧ 3 ∉ r.2.sleepQueue.elements) := by
    have hsome : (exec Kernel.step (Kernel.boot 4096 fun _ => 0)
        (List.replicate 64 .fork ++ List.replicate 65 (.nanosleep 0 0))).map
          (fun r => decide (r.2.Asleep 3 ∧ 3 ∉ r.2.sleepQueue.elements)) = some true := by
      decide +kernel
    obtain ⟨r, hr, hlost⟩ := Option.map_eq_some_iff.mp hsome
    exact ⟨r, hr, of_decide_eq_true hlost⟩
  obtain ⟨⟨vs, t⟩, hexec, hasleep, hnot⟩ := hrun
  refine ⟨vs, t, hexec, hasleep, hnot, fun hqueued => hnot ?_⟩
  rw [← Multiset.one_le_count_iff_mem, hqueued.queued 3 hasleep]

end Rpos
