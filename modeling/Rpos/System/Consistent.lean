import Rpos.System.RunQueue

/-!
# The scheduler's invariant

Next to the runqueue: what every blocked process waits for, and who will wake it.
-/

namespace Rpos

open Base

def Kernel.BlockedIn (s : Kernel) (p : ℕ) (k : Kont) : Prop :=
  s.state p = .blocked ∧ s.kont p = k

theorem Switched.blockedIn {s t : Kernel} (hsw : Switched s t) (p : ℕ) (k : Kont) :
    t.BlockedIn p k ↔ s.BlockedIn p k := by
  have hkont : t.kont = s.kont := by rw [hsw.same]
  unfold Kernel.BlockedIn
  rw [hsw.blocked, hkont]

/-! ## §1  What the blocked processes wait for -/

/-- A mutex's wait list has the processes blocked in `mutex_acquire`; the entries
on `rd_wait` and in the sleep queue belong to processes blocked there. -/
structure Waits (s : Kernel) (ps : Queue → List ℕ) : Prop where
  waiting : ∀ m p, p ∈ ps (.waitList m) ↔ s.BlockedIn p (.acquire m)
  reading : ∀ p ∈ ps .rdWait, ∃ buf count, s.BlockedIn p (.read buf count)
  sleeping : ∀ p ∈ s.sleepQueue.elements, s.BlockedIn p .nanosleep
  nodup : s.sleepQueue.elements.Nodup

namespace Waits

variable {s t : Kernel} {ps ps' : Queue → List ℕ} {p : ℕ} {k : Kont}

theorem congr (h : Waits s ps) (hb : ∀ r k, t.BlockedIn r k ↔ s.BlockedIn r k)
    (hps : ∀ q, q ≠ .runqueue → ps' q = ps q)
    (hq : t.sleepQueue = s.sleepQueue) : Waits t ps' := by
  refine ⟨fun m r => ?_, fun r hr => ?_, fun r hr => ?_, ?_⟩
  · rw [hps _ (by simp), h.waiting, hb]
  · rw [hps _ (by simp)] at hr
    obtain ⟨buf, count, hr⟩ := h.reading r hr
    exact ⟨buf, count, (hb _ _).mpr hr⟩
  · rw [hq] at hr
    exact (hb _ _).mpr (h.sleeping r hr)
  · rw [hq]
    exact h.nodup

/-- A process is on the lists of what it is blocked in only. -/
theorem notMem_waitList (h : Waits s ps) (hp : s.BlockedIn p k) {m : ℕ}
    (hk : k ≠ .acquire m) : p ∉ ps (.waitList m) := by
  intro hmem
  exact hk (hp.2.symm.trans ((h.waiting m p).mp hmem).2)

theorem notMem_rdWait (h : Waits s ps) (hp : s.BlockedIn p k)
    (hk : ∀ buf count, k ≠ .read buf count) : p ∉ ps .rdWait := by
  intro hmem
  obtain ⟨buf, count, hr⟩ := h.reading p hmem
  exact hk buf count (hp.2.symm.trans hr.2)

theorem notMem_elements (h : Waits s ps) (hp : s.BlockedIn p k)
    (hk : k ≠ .nanosleep) : p ∉ s.sleepQueue.elements :=
  fun hmem => hk (hp.2.symm.trans (h.sleeping p hmem).2)

theorem notMem_of_unlisted (h : Waits s ps) (hp : s.BlockedIn p k)
    (hacquire : ∀ m, k ≠ .acquire m) (hread : ∀ buf count, k ≠ .read buf count)
    {q : Queue} (hq : q ≠ .runqueue) : p ∉ ps q := by
  cases q with
  | runqueue => exact absurd rfl hq
  | waitList m => exact h.notMem_waitList hp (hacquire m)
  | rdWait => exact h.notMem_rdWait hp hread

theorem notMem_of_not_blocked (h : Waits s ps) (hp : s.state p ≠ .blocked) {q : Queue}
    (hq : q ≠ .runqueue) : p ∉ ps q := by
  intro hmem
  cases q with
  | runqueue => exact hq rfl
  | waitList m => exact hp ((h.waiting m p).mp hmem).1
  | rdWait =>
      obtain ⟨_, _, hr⟩ := h.reading p hmem
      exact hp hr.1

theorem wake (h : Waits s ps) (hb : ∀ r k, t.BlockedIn r k ↔ s.BlockedIn r k ∧ r ≠ p)
    (hps : ∀ q, q ≠ .runqueue → ∀ r, r ∈ ps' q ↔ r ∈ ps q ∧ r ≠ p)
    (hel : ∀ r ∈ t.sleepQueue.elements, r ∈ s.sleepQueue.elements ∧ r ≠ p)
    (hnodup : t.sleepQueue.elements.Nodup) : Waits t ps' := by
  refine ⟨fun m r => ?_, fun r hr => ?_, fun r hr => ?_, hnodup⟩
  · rw [hps _ (by simp), h.waiting, hb]
  · rw [hps _ (by simp)] at hr
    obtain ⟨buf, count, hk⟩ := h.reading r hr.1
    exact ⟨buf, count, (hb _ _).mpr ⟨hk, hr.2⟩⟩
  · obtain ⟨hmem, hne⟩ := hel r hr
    exact (hb _ _).mpr ⟨h.sleeping r hmem, hne⟩

/-- Process `p` blocks in `k`, and is put on the list for it. -/
theorem block (h : Waits s ps)
    (hb : ∀ r k', t.BlockedIn r k' ↔ s.BlockedIn r k' ∨ r = p ∧ k' = k)
    (hwait : ∀ m r, r ∈ ps' (.waitList m) ↔
      r ∈ ps (.waitList m) ∨ r = p ∧ .acquire m = k)
    (hread : ∀ r ∈ ps' .rdWait, r ∈ ps .rdWait ∨
      r = p ∧ ∃ buf count, k = .read buf count)
    (hel : ∀ r ∈ t.sleepQueue.elements, r ∈ s.sleepQueue.elements ∨
      r = p ∧ k = .nanosleep)
    (hnodup : t.sleepQueue.elements.Nodup) : Waits t ps' := by
  refine ⟨fun m r => ?_, fun r hr => ?_, fun r hr => ?_, hnodup⟩
  · rw [hwait, h.waiting, hb]
  · rcases hread r hr with hr | ⟨rfl, buf, count, rfl⟩
    · obtain ⟨buf, count, hk⟩ := h.reading r hr
      exact ⟨buf, count, (hb _ _).mpr (Or.inl hk)⟩
    · exact ⟨buf, count, (hb _ _).mpr (Or.inr ⟨rfl, rfl⟩)⟩
  · rcases hel r hr with hr | ⟨rfl, rfl⟩
    · exact (hb _ _).mpr (Or.inl (h.sleeping r hr))
    · exact (hb _ _).mpr (Or.inr ⟨rfl, rfl⟩)

end Waits

/-- The virtual timer is armed for the least request, if there is one. -/
structure TimerOk (s : Kernel) : Prop where
  heap : s.sleepQueue.Ok
  size : s.sleepQueue.size = maxProcesses
  armed : ∀ t, s.timer = some t ↔
    s.sleepQueue.items ≠ 0 ∧ t = (pqPeek s.sleepQueue).priority

/-! ## §2  Parents and children -/

/-- Who is awaited by its parent is awaited in `sys_waitid`, until it is over. -/
structure Kinship (s : Kernel) : Prop where
  awaited : ∀ q, q ≠ 0 → s.state q ≠ .terminated → s.waitingOn (s.parent q) = q →
    s.BlockedIn (s.parent q) (.waitid q)
  waitingOn_le : ∀ p, s.waitingOn p ≤ s.pidcounter
  children : ∀ p, ∀ c ∈ s.children p, s.parent c = p ∧ c ≠ 0 ∧ c ≤ s.pidcounter
  fresh : ∀ p, s.pidcounter < p → s.state p = .terminated
  parent_le : ∀ q, s.state q ≠ .terminated → s.parent q ≤ s.pidcounter
  pids : s.pidcounter + 1 < 2 ^ 32

structure SameKinship (s t : Kernel) : Prop where
  parent : t.parent = s.parent
  children : t.children = s.children
  waitingOn : t.waitingOn = s.waitingOn
  pidcounter : t.pidcounter = s.pidcounter

namespace Kinship

variable {s t : Kernel} {p : ℕ}

/-- The processes that are over stay so, and nobody is woken whose child is not. -/
theorem mono (h : Kinship s) (hs : SameKinship s t)
    (hterm : ∀ p, s.state p = .terminated → t.state p = .terminated)
    (hb : ∀ q, t.state q ≠ .terminated → s.BlockedIn (s.parent q) (.waitid q) →
      t.BlockedIn (s.parent q) (.waitid q)) : Kinship t := by
  obtain ⟨hparent, hchildren, hwaiting, hpid⟩ := hs
  refine ⟨fun q hq hlive hw => ?_, ?_, ?_, fun p hp => ?_, fun q hq => ?_, ?_⟩
  · rw [hparent] at hw ⊢
    rw [hwaiting] at hw
    exact hb q hlive (h.awaited q hq (fun hover => hlive (hterm q hover)) hw)
  · rw [hwaiting, hpid]
    exact h.waitingOn_le
  · rw [hchildren, hparent, hpid]
    exact h.children
  · exact hterm p (h.fresh p (hpid ▸ hp))
  · rw [hparent, hpid]
    exact h.parent_le q fun hover => hq (hterm q hover)
  · rw [hpid]
    exact h.pids

theorem le_pidcounter (h : Kinship s) (hp : s.state p ≠ .terminated) :
    p ≤ s.pidcounter := by
  by_contra hlt
  exact hp (h.fresh p (by omega))

end Kinship

/-! ## §3  The invariant -/

structure Consistent (s : Kernel) (ps : Queue → List ℕ) : Prop where
  runQueue : RunQueue s ps
  waits : Waits s ps
  timer : TimerOk s
  family : Kinship s
  lock : ∀ m, s.waitLock m = 0
  idle : ∀ p, s.kont p = .idle ↔ p = 0

/-- What kernel code leaves alone between two calls of the scheduler: it wakes
processes, and blocks or ends only the current one. Who is listed and stays blocked
stays listed. -/
structure Progress (s : Kernel) (ps : Queue → List ℕ) (t : Kernel)
    (ps' : Queue → List ℕ) : Prop where
  current : t.current = s.current
  pidcounter : s.pidcounter ≤ t.pidcounter
  kont : ∀ p, p ≠ s.current → p ≤ s.pidcounter → t.kont p = s.kont p
  ready : ∀ p, p ≠ s.current → s.state p = .ready → t.state p = .ready
  blocked : ∀ p, p ≠ s.current → t.state p = .blocked → s.state p = .blocked
  terminated : ∀ p, p ≤ s.pidcounter → s.state p = .terminated →
    t.state p = .terminated
  reading : ∀ p, p ≠ s.current → p ∈ ps .rdWait → t.state p = .blocked → p ∈ ps' .rdWait
  sleeping : ∀ p, p ≠ s.current → p ∈ s.sleepQueue.elements → t.state p = .blocked →
    p ∈ t.sleepQueue.elements

theorem Progress.refl (s : Kernel) (ps : Queue → List ℕ) : Progress s ps s ps :=
  ⟨rfl, le_rfl, fun _ _ _ => rfl, fun _ _ h => h, fun _ _ h => h, fun _ _ h => h,
    fun _ _ h _ => h, fun _ _ h _ => h⟩

theorem Progress.trans {s t u : Kernel} {ps ps' ps'' : Queue → List ℕ}
    (h : Progress s ps t ps') (h' : Progress t ps' u ps'') : Progress s ps u ps'' := by
  refine ⟨h'.current.trans h.current, h.pidcounter.trans h'.pidcounter,
    fun p hp hle => ?_, fun p hp hr => ?_, fun p hp hr => ?_, fun p hle hr => ?_,
    fun p hp hl hr => ?_, fun p hp hl hr => ?_⟩
  · rw [h'.kont p (h.current ▸ hp) (hle.trans h.pidcounter), h.kont p hp hle]
  · exact h'.ready p (h.current ▸ hp) (h.ready p hp hr)
  · exact h.blocked p hp (h'.blocked p (h.current ▸ hp) hr)
  · exact h'.terminated p (hle.trans h.pidcounter) (h.terminated p hle hr)
  · have hp' : p ≠ t.current := h.current ▸ hp
    exact h'.reading p hp' (h.reading p hp hl (h'.blocked p hp' hr)) hr
  · have hp' : p ≠ t.current := h.current ▸ hp
    exact h'.sleeping p hp' (h.sleeping p hp hl (h'.blocked p hp' hr)) hr

namespace Consistent

variable {s t : Kernel} {ps ps' : Queue → List ℕ} {p : ℕ} {k : Kont}

theorem current_ne_zero (h : Consistent s ps) (hk : s.kont s.current ≠ .idle) :
    s.current ≠ 0 :=
  fun hzero => hk ((h.idle s.current).mpr hzero)

/-- The links of a process that are not on the runqueue are unlinked unless it is
blocked. -/
theorem notMem_kind (h : Consistent s ps) (hp : s.state p ≠ .blocked) {kind : EntryKind}
    (hkind : kind ≠ .runqueue) (q : Queue) (hq : q.kind = kind) : p ∉ ps q := by
  refine h.waits.notMem_of_not_blocked hp ?_
  rintro rfl
  exact hkind hq.symm

/-- The scheduler switches to a process that is ready, or to the idle one. -/
theorem scheduler (h : Consistent s ps) :
    (∃ ps', Consistent s.scheduler ps' ∧ ps' .rdWait = ps .rdWait) ∧
      Switched s s.scheduler ∧ s.scheduler.state s.scheduler.current = .running := by
  obtain ⟨ps', hps, hrq, hsw, hrun⟩ := h.runQueue.scheduler
  have hkont : s.scheduler.kont = s.kont := by rw [hsw.same]
  have hsleep : s.scheduler.sleepQueue = s.sleepQueue := by rw [hsw.same]
  have htimer : s.scheduler.timer = s.timer := by rw [hsw.same]
  have hlock : s.scheduler.waitLock = s.waitLock := by rw [hsw.same]
  have hfam : SameKinship s s.scheduler :=
    ⟨by rw [hsw.same], by rw [hsw.same], by rw [hsw.same], by rw [hsw.same]⟩
  refine ⟨⟨ps', ⟨hrq, h.waits.congr hsw.blockedIn hps hsleep, ⟨?_, ?_, ?_⟩,
    h.family.mono hfam (fun r hr => (hsw.terminated r).mpr hr)
      (fun q _ hq => (hsw.blockedIn _ _).mpr hq), ?_, ?_⟩, hps _ Queue.noConfusion⟩, hsw, hrun⟩
  · rw [hsleep]
    exact h.timer.heap
  · rw [hsleep]
    exact h.timer.size
  · rw [htimer, hsleep]
    exact h.timer.armed
  · rw [hlock]
    exact h.lock
  · rw [hkont]
    exact h.idle

theorem setKont (h : Consistent s ps) (hrun : s.state s.current = .running)
    (hne : s.current ≠ 0) (hk : k ≠ .idle) :
    Consistent (s.setKont s.current k) ps ∧ Progress s ps (s.setKont s.current k) ps := by
  have hb : ∀ r k', (s.setKont s.current k).BlockedIn r k' ↔ s.BlockedIn r k' := by
    intro r k'
    unfold Kernel.BlockedIn
    refine and_congr_right fun hr => ?_
    have hrc : r ≠ s.current := by
      rintro rfl
      exact ProcState.noConfusion (hrun.symm.trans hr)
    show Function.update s.kont s.current k r = k' ↔ _
    rw [Function.update_of_ne hrc]
  refine ⟨⟨h.runQueue.congr rfl rfl rfl rfl, h.waits.congr hb (fun _ _ => rfl) rfl,
    ⟨h.timer.heap, h.timer.size, h.timer.armed⟩,
    h.family.mono ⟨rfl, rfl, rfl, rfl⟩ (fun _ hr => hr) (fun q _ hq => (hb _ _).mpr hq),
    h.lock, fun r => ?_⟩,
    ⟨rfl, le_rfl, fun r hr _ => Function.update_of_ne hr _ _, fun _ _ hr => hr,
      fun _ _ hr => hr, fun _ _ hr => hr, fun _ _ hr _ => hr, fun _ _ hr _ => hr⟩⟩
  show Function.update s.kont s.current k r = .idle ↔ r = 0
  by_cases hrc : r = s.current
  · rw [hrc, Function.update_self]
    exact iff_of_false hk hne
  · rw [Function.update_of_ne hrc]
    exact h.idle r

/-- A blocked process that waits for no living child is made ready and is taken
off all other lists. -/
theorem wake (h : Consistent s ps) (hp : s.state p = .blocked) (hc : p ≠ s.current)
    (hchild : ∀ q, s.state q ≠ .terminated → s.kont p ≠ .waitid q)
    (hq : Queues t.links ps') (hrunq : ps' .runqueue = p :: ps .runqueue)
    (hps : ∀ q, q ≠ .runqueue → ∀ r, r ∈ ps' q ↔ r ∈ ps q ∧ r ≠ p)
    (hstate : t.state = Function.update s.state p .ready) (hkont : t.kont = s.kont)
    (hcur : t.current = s.current) (hrel : t.relinked = false) (hfam : SameKinship s t)
    (hlock : t.waitLock = s.waitLock) (htimer : TimerOk t)
    (hel : ∀ r, r ∈ t.sleepQueue.elements ↔ r ∈ s.sleepQueue.elements ∧ r ≠ p)
    (hnodup : t.sleepQueue.elements.Nodup) : Consistent t ps' ∧ Progress s ps t ps' := by
  have hself : t.state p = .ready := by rw [hstate, Function.update_self]
  have hother : ∀ r, r ≠ p → t.state r = s.state r := by
    intro r hr
    rw [hstate, Function.update_of_ne hr]
  have hb : ∀ r k, t.BlockedIn r k ↔ s.BlockedIn r k ∧ r ≠ p := by
    intro r k
    unfold Kernel.BlockedIn
    rw [hkont]
    by_cases hr : r = p
    · simp [hr, hself]
    · simp [hother r hr, hr]
  have hterm : ∀ r, s.state r = .terminated → t.state r = .terminated := by
    intro r hr
    have hrp : r ≠ p := by
      rintro rfl
      exact ProcState.noConfusion (hp.symm.trans hr)
    rw [hother r hrp]
    exact hr
  have hne : ∀ r, t.state r = .blocked → r ≠ p := by
    rintro r hr rfl
    exact ProcState.noConfusion (hself.symm.trans hr)
  refine ⟨⟨h.runQueue.wake (h.runQueue.ne_zero_of_blocked hp) hc hq hrunq hstate hcur hrel,
    h.waits.wake hb hps (fun r => (hel r).mp) hnodup, htimer,
    h.family.mono hfam hterm fun q hq hw => ?_,
    hlock ▸ h.lock, hkont ▸ h.idle⟩,
    ⟨hcur, le_of_eq hfam.pidcounter.symm, fun r _ _ => by rw [hkont], fun r _ hr => ?_,
      fun r _ hr => ?_, fun r _ hr => hterm r hr, fun r _ hl hr => ?_,
      fun r _ hl hr => ?_⟩⟩
  · refine (hb _ _).mpr ⟨hw, ?_⟩
    rintro rfl
    exact hchild q (fun hover => hq (hterm q hover)) hw.2
  · by_cases hrp : r = p
    · rw [hrp]
      exact hself
    · rw [hother r hrp]
      exact hr
  · by_cases hrp : r = p
    · rw [hrp, hself] at hr
      exact ProcState.noConfusion hr
    · rw [hother r hrp] at hr
      exact hr
  · exact (hps _ Queue.noConfusion r).mpr ⟨hl, hne r hr⟩
  · exact (hel r).mpr ⟨hl, hne r hr⟩

theorem block (h : Consistent s ps) (hrun : s.state s.current = .running)
    (hne : s.current ≠ 0) (hk : k ≠ .idle)
    (hq : Queues t.links ps') (hrunq : ps' .runqueue = ps .runqueue)
    (hstate : t.state = Function.update s.state s.current .blocked)
    (hkont : t.kont = Function.update s.kont s.current k)
    (hcur : t.current = s.current) (hrel : t.relinked = false)
    (hpid : t.pidcounter = s.pidcounter) (hlock : ∀ m, t.waitLock m = 0)
    (hfam : (∀ q r, s.BlockedIn q r → t.BlockedIn q r) → Kinship t) (htimer : TimerOk t)
    (hwaits : (∀ r k', t.BlockedIn r k' ↔
      s.BlockedIn r k' ∨ r = s.current ∧ k' = k) → Waits t ps')
    (hread : ps .rdWait ⊆ ps' .rdWait)
    (hsleep : s.sleepQueue.elements ⊆ t.sleepQueue.elements) :
    Consistent t ps' ∧ Progress s ps t ps' := by
  have hself : t.state s.current = .blocked := by rw [hstate, Function.update_self]
  have hother : ∀ r, r ≠ s.current → t.state r = s.state r := by
    intro r hr
    rw [hstate, Function.update_of_ne hr]
  have hkother : ∀ r, r ≠ s.current → t.kont r = s.kont r := by
    intro r hr
    rw [hkont, Function.update_of_ne hr]
  have hb : ∀ r k', t.BlockedIn r k' ↔ s.BlockedIn r k' ∨ r = s.current ∧ k' = k := by
    intro r k'
    unfold Kernel.BlockedIn
    by_cases hr : r = s.current
    · rw [hr, hself, hkont, Function.update_self, hrun]
      simp [eq_comm]
    · rw [hother r hr, hkother r hr]
      simp [hr]
  refine ⟨⟨h.runQueue.leave hne (Or.inl rfl) hq hrunq hstate hcur hrel, hwaits hb, htimer,
    hfam fun q r hqr => (hb q r).mpr (Or.inl hqr), hlock, fun r => ?_⟩,
    ⟨hcur, le_of_eq hpid.symm, fun r hr _ => hkother r hr,
      fun r hr hready => (hother r hr).trans hready,
      fun r hr hblocked => (hother r hr).symm.trans hblocked, fun r _ hr => ?_,
      fun r _ hl _ => hread hl, fun r _ hl _ => hsleep hl⟩⟩
  · by_cases hr : r = s.current
    · rw [hr, hkont, Function.update_self]
      exact iff_of_false hk hne
    · rw [hkother r hr]
      exact h.idle r
  · have hrc : r ≠ s.current := by
      rintro rfl
      exact ProcState.noConfusion (hrun.symm.trans hr)
    rw [hother r hrc]
    exact hr

end Consistent

end Rpos
