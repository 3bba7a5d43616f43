import Rpos.System.KernelRun

/-!
# The kernel mutex

A failed `mutex_acquire` overwrites `owner`, and a release hands the mutex to
nobody: the process it wakes tries again, and may lose to another one. Still, at
most one process holds a mutex, and while it is free and somebody waits for it,
somebody is on the way.
-/

namespace Rpos

open Base Base.Links

namespace Kernel

/-- Somebody is blocked in `mutex_acquire`. -/
def Awaited (s : Kernel) (m : ℕ) : Prop := ∃ p, s.BlockedIn p (.acquire m)

/-- A process that was taken off the wait list is ready, and tries again when it
runs. -/
def Retrying (s : Kernel) (m : ℕ) : Prop :=
  ∃ p, s.state p = .ready ∧ s.kont p = .acquire m

end Kernel

/-- `owner` says whether the mutex is held, by one process at most. -/
structure Exclusive (s : Kernel) : Prop where
  owner : ∀ m, s.owner m = none ↔ s.holders m = []
  single : ∀ m, (s.holders m).length ≤ 1

/-- The mutexes between two events. The process that has just been switched in
may be the one that tries again. -/
structure MutexOk (s : Kernel) : Prop where
  exclusive : Exclusive s
  retrying : ∀ m, s.owner m = none → s.Awaited m →
    s.Retrying m ∨ s.kont s.current = .acquire m

/-! ## §1  What a call does to the mutexes -/

structure LeavesMutexes (s t : Kernel) : Prop where
  owner : t.owner = s.owner
  holders : t.holders = s.holders

theorem LeavesMutexes.refl (s : Kernel) : LeavesMutexes s s := ⟨rfl, rfl⟩

theorem LeavesMutexes.after {s t u : Kernel} (h : LeavesMutexes t u)
    (howner : t.owner = s.owner) (hholders : t.holders = s.holders) : LeavesMutexes s u :=
  ⟨h.owner.trans howner, h.holders.trans hholders⟩

theorem leaveProcessor_leaves (s : Kernel) : LeavesMutexes s s.leaveProcessor := by
  unfold Kernel.leaveProcessor
  split <;> exact ⟨rfl, rfl⟩

theorem wakeListeners_leaves (fuel : ℕ) : ∀ s t : Kernel, s.wakeListeners fuel = some t →
    LeavesMutexes s t := by
  induction fuel with
  | zero => exact fun _ _ h => by simp [Kernel.wakeListeners] at h
  | succ fuel ih =>
      intro s t h
      unfold Kernel.wakeListeners at h
      split at h
      · rw [Option.some.injEq] at h
        exact h ▸ LeavesMutexes.refl s
      · exact (ih _ t h).after rfl rfl

theorem interrupt_leaves {s : Kernel} {e : KernelEvent} {o : Kernel.Outcome}
    (ho : s.interrupt e = some o) : LeavesMutexes s o.stop := by
  cases e with
  | tick =>
      rw [Kernel.interrupt, Option.some.injEq] at ho
      exact ho ▸ LeavesMutexes.refl s
  | virtualTimer =>
      rw [Kernel.interrupt] at ho
      split at ho
      · rw [Option.some.injEq] at ho
        exact ho ▸ ⟨rfl, rfl⟩
      · simp at ho
  | key c =>
      rw [Kernel.interrupt, Option.map_eq_some_iff] at ho
      obtain ⟨t, ht, rfl⟩ := ho
      unfold Kernel.keyboardEvent at ht
      split at ht
      · rw [Option.some.injEq] at ht
        exact ht ▸ LeavesMutexes.refl s
      · exact (wakeListeners_leaves _ _ _ ht).after rfl rfl
  | _ => simp [Kernel.interrupt] at ho

theorem pipeReadLoop_leaves (s : Kernel) (buf : ℕ → UInt8) (count : Word) :
    LeavesMutexes s (s.pipeReadLoop buf count).stop := by
  unfold Kernel.pipeReadLoop
  cases pipeRead s.pipe buf count with
  | none =>
      refine (leaveProcessor_leaves _).after ?_ ?_ <;> split <;> rfl
  | some r => exact ⟨rfl, rfl⟩

theorem waitidLoop_leaves (s : Kernel) (child : ℕ) :
    LeavesMutexes s (s.waitidLoop child).stop := by
  unfold Kernel.waitidLoop
  split
  · exact ⟨rfl, rfl⟩
  · exact (leaveProcessor_leaves _).after rfl rfl

theorem syscall_leaves {s : Kernel} {e : KernelEvent} {o : Kernel.Outcome}
    (ho : s.syscall e = some o) (hacquire : ∀ m, e ≠ .acquire m)
    (hrelease : ∀ m, e ≠ .release m) : LeavesMutexes s o.stop := by
  cases e with
  | fork =>
      rw [Kernel.syscall, Kernel.sysFork] at ho
      split at ho
      · rw [Option.some.injEq] at ho
        exact ho ▸ ⟨rfl, rfl⟩
      · simp at ho
  | exit =>
      rw [Kernel.syscall, Option.some.injEq, Kernel.reap] at ho
      rw [← ho]
      refine ⟨?_, ?_⟩ <;> simp only [Kernel.Outcome.stop, Kernel.setKont] <;> split <;> rfl
  | waitid pid =>
      rw [Kernel.syscall, Option.some.injEq, Kernel.sysWaitid] at ho
      rw [← ho]
      split
      · exact LeavesMutexes.refl s
      split
      · exact LeavesMutexes.refl s
      · exact (waitidLoop_leaves { s with
          waitingOn := Function.update s.waitingOn s.current pid } _).after rfl rfl
  | nanosleep ns now =>
      rw [Kernel.syscall, Option.some.injEq] at ho
      rw [← ho]
      exact (leaveProcessor_leaves _).after rfl rfl
  | acquire m => exact absurd rfl (hacquire m)
  | release m => exact absurd rfl (hrelease m)
  | read buf count =>
      rw [Kernel.syscall, Option.some.injEq] at ho
      exact ho ▸ (pipeReadLoop_leaves (s.defineWait .reader) buf count).after rfl rfl
  | tick => exact interrupt_leaves (e := .tick) ho
  | virtualTimer => exact interrupt_leaves (e := .virtualTimer) ho
  | key c => exact interrupt_leaves (e := .key c) ho
  | resume => exact interrupt_leaves (e := .resume) ho

/-- Every call that is no round of `mutex_acquire` and no release. -/
theorem run_leaves {s : Kernel} {e : KernelEvent} {o : Kernel.Outcome}
    (ho : s.run e = some o) (hacquire : ∀ m, ¬ s.TriesAcquire e m)
    (hrelease : ∀ m, s.kont s.current = .user → e ≠ .release m) :
    LeavesMutexes s o.stop := by
  unfold Kernel.run at ho
  split at ho
  · rename_i hk
    exact syscall_leaves ho (fun m he => hacquire m (Or.inl ⟨hk, he⟩))
      fun m => hrelease m hk
  · exact interrupt_leaves ho
  · rename_i k huser hidle
    split at ho
    · cases hk : s.kont s.current with
      | acquire m => exact absurd (Or.inr ⟨hk, rfl⟩) (hacquire m)
      | read buf count =>
          rw [hk, Kernel.resume, Option.some.injEq] at ho
          exact ho ▸ pipeReadLoop_leaves s buf count
      | waitid child =>
          rw [hk, Kernel.resume, Option.some.injEq] at ho
          exact ho ▸ waitidLoop_leaves s child
      | nanosleep =>
          rw [hk, Kernel.resume, Option.some.injEq] at ho
          exact ho ▸ ⟨rfl, rfl⟩
      | user => exact absurd hk huser
      | idle => exact absurd hk hidle
      | exited => simp [hk, Kernel.resume] at ho
    · simp at ho

/-! ## §2  One call -/

variable {s t : Kernel} {ps ps' : Queue → List ℕ} {m : ℕ}

/-- Who waits for a mutex after a call waited before it, or has just blocked. -/
theorem awaited_before (hprog : Progress s ps t ps')
    (hs : Consistent s ps) (hw : t.Awaited m) (hcur : t.kont s.current ≠ .acquire m) :
    s.Awaited m := by
  obtain ⟨p, hp, hk⟩ := hw
  have hpc : p ≠ s.current := by
    rintro rfl
    exact hcur hk
  have hblocked := hprog.blocked p hpc hp
  have hle := hs.family.le_pidcounter (p := p) (by
    rw [hblocked]
    exact ProcState.noConfusion)
  exact ⟨p, hblocked, (hprog.kont p hpc hle).symm.trans hk⟩

/-- Who is about to try again stays so during the call of another process. -/
theorem retrying_after (hs : Consistent s ps) (hprog : Progress s ps t ps')
    (hr : s.Retrying m) : t.Retrying m := by
  obtain ⟨p, hp, hk⟩ := hr
  have hpc : p ≠ s.current := by
    rintro rfl
    exact hs.runQueue.current hp
  have hle := hs.family.le_pidcounter (p := p) (by
    rw [hp]
    exact ProcState.noConfusion)
  exact ⟨p, hprog.ready p hpc hp, (hprog.kont p hpc hle).trans hk⟩

theorem retrying_of_other (hs : Consistent s ps) (hok : MutexOk s)
    (hprog : Progress s ps t ps')
    (howner : t.owner m = none → s.owner m = none)
    (hbefore : s.kont s.current ≠ .acquire m) (hafter : t.kont s.current ≠ .acquire m)
    (hnone : t.owner m = none) (hw : t.Awaited m) : t.Retrying m := by
  have hw' := awaited_before hprog hs hw hafter
  rcases hok.retrying m (howner hnone) hw' with hr | hcur
  · exact retrying_after hs hprog hr
  · exact absurd hcur hbefore

theorem acquire_held (hold : s.owner m ≠ none) (hlock : s.waitLock m = 0)
    {o : Kernel.Outcome} (ho : s.mutexAcquireLoop m = some o) :
    o.stop.owner = Function.update s.owner m (some s.current) ∧
      o.stop.holders = s.holders ∧
      o.stop.kont = Function.update s.kont s.current (.acquire m) := by
  unfold Kernel.mutexAcquireLoop at ho
  simp only [hold, if_false, Kernel.spinlockAcquire, hlock, if_true, Option.map_some,
    Option.some.injEq] at ho
  rw [← ho]
  split
  all_goals
    exact ⟨(leaveProcessor_leaves _).owner, (leaveProcessor_leaves _).holders,
      Kernel.leaveProcessor_kont _⟩

/-- A round of `mutex_acquire` takes the mutex if it is free; otherwise it only
overwrites the owner. -/
theorem acquire_spec (hs : Consistent s ps) (hrun : s.state s.current = .running)
    (hx : Exclusive s) {e : KernelEvent} {o : Kernel.Outcome} (ht : s.TriesAcquire e m)
    (ho : s.run e = some o) :
    Exclusive o.stop ∧ o.stop.owner m ≠ none ∧
      (∀ m', m' ≠ m → o.stop.owner m' = s.owner m') ∧
      ∀ m', m' ≠ m → o.stop.kont s.current ≠ .acquire m' := by
  have hloop : s.mutexAcquireLoop m = some o := by
    rw [← ho]
    rcases ht with ⟨hk, rfl⟩ | ⟨hk, rfl⟩
    · have hwait : s.defineWait .waiter = s := hs.defineWait hrun EntryKind.noConfusion
      simp only [Kernel.run, hk, Kernel.syscall, Kernel.mutexAcquire, hwait]
    · simp only [Kernel.run, hk, Kernel.resume]
  have hother : ∀ m', m' ≠ m →
      Function.update s.owner m (some s.current) m' = s.owner m' :=
    fun m' hm' => Function.update_of_ne hm' _ _
  by_cases hfree : s.owner m = none
  · unfold Kernel.mutexAcquireLoop at hloop
    simp only [hfree, if_true, Option.some.injEq] at hloop
    have hnil := (hx.owner m).mp hfree
    rw [← hloop]
    refine ⟨⟨fun m' => ?_, fun m' => ?_⟩, ?_, hother, fun m' _ hm' => ?_⟩
    · show Function.update s.owner m (some s.current) m' = none ↔
        Function.update s.holders m (s.current :: s.holders m) m' = []
      by_cases hm' : m' = m
      · rw [hm', Function.update_self, Function.update_self]
        simp
      · rw [hother m' hm', Function.update_of_ne hm']
        exact hx.owner m'
    · show (Function.update s.holders m (s.current :: s.holders m) m').length ≤ 1
      by_cases hm' : m' = m
      · rw [hm', Function.update_self, hnil]
        exact le_rfl
      · rw [Function.update_of_ne hm']
        exact hx.single m'
    · show Function.update s.owner m (some s.current) m ≠ none
      rw [Function.update_self]
      exact Option.some_ne_none _
    · exact Kont.noConfusion ((Function.update_self _ _ _).symm.trans hm')
  · obtain ⟨howner, hholders, hkont⟩ := acquire_held hfree (hs.lock m) hloop
    have hholds : s.holders m ≠ [] := fun hnil => hfree ((hx.owner m).mpr hnil)
    refine ⟨⟨fun m' => ?_, fun m' => ?_⟩, ?_, fun m' hm' => ?_, fun m' hne hm' => ?_⟩
    · rw [howner, hholders]
      by_cases hm' : m' = m
      · rw [hm', Function.update_self]
        exact iff_of_false (Option.some_ne_none _) hholds
      · rw [hother m' hm']
        exact hx.owner m'
    · rw [hholders]
      exact hx.single m'
    · rw [howner, Function.update_self]
      exact Option.some_ne_none _
    · rw [howner, hother m' hm']
    · rw [hkont, Function.update_self, Kont.acquire.injEq] at hm'
      exact hne hm'.symm

/-- The first waiter, if there is one, is made ready by `mutex_release`. -/
theorem release_spec (hs : Consistent s ps) (hheld : s.current ∈ s.holders m)
    (hx : Exclusive s) :
    ∃ u, s.mutexRelease m = some (.schedules u) ∧
      u.owner = Function.update s.owner m none ∧
      u.holders = Function.update s.holders m [] ∧ u.kont = s.kont ∧
      (s.Awaited m → u.Retrying m) := by
  -- the caller is the only holder
  have hholders : (s.holders m).erase s.current = [] := by
    have hlen := List.length_erase_of_mem hheld
    have hsingle := hx.single m
    rw [← List.length_eq_zero_iff]
    omega
  unfold Kernel.mutexRelease
  simp only [Kernel.spinlockAcquire, hs.lock, if_true, Option.map_some, hholders]
  cases hps : ps (.waitList m) with
  | nil =>
      have hempty := (hs.runQueue.queues.listEmpty_iff (.waitList m)).mpr hps
      rw [if_pos hempty]
      refine ⟨_, rfl, rfl, rfl, rfl, ?_⟩
      rintro ⟨p, hp⟩
      have hmem := (hs.waits.waiting m p).mpr hp
      rw [hps] at hmem
      exact absurd hmem List.not_mem_nil
  | cons p rest =>
      have hnotempty : ¬ s.links.listEmpty (.head (.waitList m)) = true := by
        rw [hs.runQueue.queues.listEmpty_iff, hps]
        exact List.cons_ne_nil p rest
      have hnext := hs.runQueue.queues.next_head hps
      have hp := (hs.waits.waiting m p).mp (by
        rw [hps]
        exact List.mem_cons_self)
      rw [if_neg hnotempty]
      refine ⟨_, rfl, rfl, rfl, rfl, fun _ => ⟨p, ?_, hp.2⟩⟩
      show Function.update s.state (s.links.next (.head (.waitList m))).proc .ready p = .ready
      rw [hnext]
      exact Function.update_self _ _ _

/-- A call keeps the mutexes in order; where it ends, whoever is on the way to a
free mutex is ready. -/
theorem run_mutexOk (hs : Consistent s ps) (hrun : s.state s.current = .running)
    (hok : MutexOk s) {e : KernelEvent} {o : Kernel.Outcome} (ho : s.run e = some o) :
    Exclusive o.stop ∧
      ∀ m, o.stop.owner m = none → o.stop.Awaited m → o.stop.Retrying m := by
  obtain ⟨⟨ps', hc, hprog⟩, -⟩ := hs.run hrun ho
  by_cases hacquire : ∃ m, s.TriesAcquire e m
  · obtain ⟨m, ht⟩ := hacquire
    obtain ⟨hx, htaken, howner, hkont⟩ := acquire_spec hs hrun hok.exclusive ht ho
    refine ⟨hx, fun m' hnone hw => ?_⟩
    have hne : m' ≠ m := by
      rintro rfl
      exact htaken hnone
    refine retrying_of_other hs hok hprog (fun hn => (howner m' hne).symm.trans hn)
      (fun hk => ?_) (hkont m' hne) hnone hw
    rcases ht with ⟨hk', -⟩ | ⟨hk', -⟩
    · exact Kont.noConfusion (hk'.symm.trans hk)
    · have heq := hk'.symm.trans hk
      rw [Kont.acquire.injEq] at heq
      exact hne heq.symm
  have hacquire' : ∀ m, ¬ s.TriesAcquire e m := fun m ht => hacquire ⟨m, ht⟩
  by_cases hrelease : ∃ m, s.kont s.current = .user ∧ e = .release m
  · obtain ⟨m, hk, rfl⟩ := hrelease
    simp only [Kernel.run, hk, Kernel.syscall] at ho
    split at ho
    swap
    · simp at ho
    rename_i hheld
    obtain ⟨u, hu, howner, hholders, hkont, hwake⟩ := release_spec hs hheld hok.exclusive
    rw [hu, Option.some.injEq] at ho
    have hstop : o.stop = u := by
      rw [← ho]
      rfl
    rw [hstop] at hprog ⊢
    have hku : ∀ m', u.kont s.current ≠ .acquire m' := by
      intro m'
      rw [hkont, hk]
      exact Kont.noConfusion
    refine ⟨⟨fun m' => ?_, fun m' => ?_⟩, fun m' hnone hw => ?_⟩
    · rw [howner, hholders]
      by_cases hm' : m' = m
      · rw [hm', Function.update_self, Function.update_self]
        exact iff_of_true rfl rfl
      · rw [Function.update_of_ne hm', Function.update_of_ne hm']
        exact hok.exclusive.owner m'
    · rw [hholders]
      by_cases hm' : m' = m
      · rw [hm', Function.update_self]
        exact Nat.zero_le 1
      · rw [Function.update_of_ne hm']
        exact hok.exclusive.single m'
    · by_cases hm' : m' = m
      · rw [hm'] at hw ⊢
        exact hwake (awaited_before hprog hs hw (hku m))
      · refine retrying_of_other hs hok hprog (fun hn => ?_) (fun hk' => ?_) (hku m') hnone hw
        · rw [howner, Function.update_of_ne hm'] at hn
          exact hn
        · exact Kont.noConfusion (hk.symm.trans hk')
  · have hleaves := run_leaves ho hacquire' fun m hk he => hrelease ⟨m, hk, he⟩
    refine ⟨⟨?_, ?_⟩, fun m hnone hw => ?_⟩
    · rw [hleaves.owner, hleaves.holders]
      exact hok.exclusive.owner
    · rw [hleaves.holders]
      exact hok.exclusive.single
    · refine retrying_of_other hs hok hprog (fun hn => hleaves.owner ▸ hn) (fun hk => ?_)
        (fun hk => ?_) hnone hw
      · -- only `resume` is possible there, and that is a round of `mutex_acquire`
        unfold Kernel.run at ho
        rw [hk] at ho
        simp only at ho
        split at ho
        · exact hacquire' m (Or.inr ⟨hk, rfl⟩)
        · simp at ho
      · have hstops := Kernel.run_kont ho
        rw [hk] at hstops
        cases hstops with
        | acquire ht => exact hacquire' m ht

/-! ## §3  Every run -/

theorem MutexOk.step (hs : Consistent s ps) (hrun : s.state s.current = .running)
    (hok : MutexOk s) {e : KernelEvent} {v : Option ℕ} (hstep : s.step e = some (v, t)) :
    MutexOk t := by
  obtain ⟨o, _, _, ho, -, -, -, hsw, -⟩ := hs.step hrun hstep
  obtain ⟨hx, hretry⟩ := run_mutexOk hs hrun hok ho
  have howner : t.owner = o.stop.owner := by rw [hsw.same]
  have hholders : t.holders = o.stop.holders := by rw [hsw.same]
  have hkont : t.kont = o.stop.kont := by rw [hsw.same]
  refine ⟨⟨?_, ?_⟩, fun m hnone hw => ?_⟩
  · rw [howner, hholders]
    exact hx.owner
  · rw [hholders]
    exact hx.single
  · obtain ⟨p, hp, hk⟩ := hw
    obtain ⟨r, hr, hkr⟩ := hretry m (howner ▸ hnone)
      ⟨p, (hsw.blocked p).mp hp, (congrFun hkont p).symm.trans hk⟩
    rcases hsw.ready r hr with hready | hcur
    · exact Or.inl ⟨r, hready, (congrFun hkont r).trans hkr⟩
    · rw [← hcur]
      exact Or.inr ((congrFun hkont r).trans hkr)

theorem boot_mutexOk (buf : Word) (page : ℕ → UInt8) : MutexOk (Kernel.boot buf page) := by
  refine ⟨⟨fun m => iff_of_true rfl rfl, fun m => Nat.zero_le 1⟩, fun m _ hw => ?_⟩
  obtain ⟨⟨ps, hc⟩, -⟩ := boot_settled buf page
  obtain ⟨p, hp⟩ := hw
  have hmem := (hc.waits.waiting m p).mpr hp
  have hempty : (Kernel.boot buf page).links.listEmpty (.head (.waitList m)) = true := by
    rw [Links.listEmpty, decide_eq_true_eq]
    rfl
  rw [(hc.runQueue.queues.listEmpty_iff _).mp hempty] at hmem
  exact absurd hmem List.not_mem_nil

/-- What holds of one mutex: one process is between `mutex_acquire` and
`mutex_release` at most; the wait list has those blocked in `mutex_acquire`, each
once; and the entry of any other process is unlinked. -/
structure MutexSafe (s : Kernel) (m : ℕ) : Prop where
  exclusive : (s.holders m).length ≤ 1
  waiting : ∃ ws : List ℕ, IsRing s.links (.head (.waitList m)) (ws.map (Node.entry .waiter)) ∧
    ∀ p, p ∈ ws ↔ s.BlockedIn p (.acquire m)
  unlinked : ∀ p, (∀ m, ¬ s.BlockedIn p (.acquire m)) →
    SelfLinked s.links (.entry .waiter p)

theorem Consistent.mutexSafe (h : Consistent s ps) (hx : Exclusive s) (m : ℕ) :
    MutexSafe s m := by
  refine ⟨hx.single m, ⟨ps (.waitList m), h.runQueue.queues.ring (.waitList m),
    h.waits.waiting m⟩, fun p hp => h.runQueue.queues.unlinked _ _ fun q hq hmem => ?_⟩
  cases q with
  | runqueue => exact EntryKind.noConfusion hq
  | waitList m' => exact hp m' ((h.waits.waiting m' p).mp hmem)
  | rdWait => exact EntryKind.noConfusion hq

/-- In every run from the start of the shell, between two events and whenever the
scheduler is called: the mutex is safe, and while it is free and somebody waits for
it, a process that `mutex_release` took off the wait list is ready and has still to
retry (or has just been switched in to do so). -/
theorem mutex_exclusion (buf : Word) (page : ℕ → UInt8) (events : List KernelEvent)
    (vs : List (Option ℕ)) (t : Kernel)
    (hrun : exec Kernel.step (Kernel.boot buf page) events = some (vs, t)) (m : ℕ) :
    MutexSafe t m ∧
      (t.owner m = none → t.Awaited m → t.Retrying m ∨ t.kont t.current = .acquire m) ∧
      ∀ e o h, t.run e = some o → o.handOff = some h →
        MutexSafe h m ∧ (h.owner m = none → h.Awaited m → h.Retrying m) := by
  have hinv : ∀ s e v s', Settled s ∧ MutexOk s → s.step e = some (v, s') →
      Settled s' ∧ MutexOk s' := by
    intro s e v s' hs hstep
    obtain ⟨hsettled, hok⟩ := hs
    refine ⟨hsettled.step hstep, ?_⟩
    obtain ⟨⟨ps, hc⟩, hrunning⟩ := hsettled
    exact hok.step hc hrunning hstep
  obtain ⟨⟨⟨ps, hc⟩, hrunning⟩, hok⟩ := reached_inv hinv events _ vs t
    ⟨boot_settled buf page, boot_mutexOk buf page⟩ hrun
  refine ⟨hc.mutexSafe hok.exclusive m, hok.retrying m, fun e o h ho hh => ?_⟩
  obtain ⟨⟨ps', hcons, -⟩, -⟩ := hc.run hrunning ho
  obtain ⟨hx, hretry⟩ := run_mutexOk hc hrunning hok ho
  rw [Kernel.Outcome.stop_of_handOff hh] at hcons hx hretry
  exact ⟨hcons.mutexSafe hx m, hretry m⟩

theorem mutex_exclusion_example :
    ∃ vs t, exec Kernel.step (Kernel.boot 4096 fun _ => 0)
        [.fork, .acquire 0, .tick, .acquire 0, .release 0, .resume] = some (vs, t) ∧
      MutexSafe t 0 ∧ t.holders 0 = [3] := by
  refine ⟨_, _, rfl, ?_, ?_⟩
  · exact (mutex_exclusion 4096 (fun _ => 0)
      [.fork, .acquire 0, .tick, .acquire 0, .release 0, .resume] _ _ rfl 0).1
  · decide

end Rpos
