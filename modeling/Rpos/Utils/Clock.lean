import Rpos.Utils.Timer

/-!
# The system timer and the deadlines of sleepers

`timer_get_ticks` puts a 64-bit counter together from two registers while the
counter runs. `timer_nanosleep` converts nanoseconds to ticks in 64-bit arithmetic,
and multiplies before it divides.
-/

namespace Rpos

open Base

/-! ## §1  `timer_get_ticks` -/

/-- The register `counter_hi` while the counter stands at `c`. -/
def counterHi (c : Word) : BitVec 32 := c.extractLsb' 32 32

def counterLo (c : Word) : BitVec 32 := c.extractLsb' 0 32

/-- `((u64) hi << 32) | lo`. -/
def joinTicks (hi lo : BitVec 32) : Word := hi.setWidth 64 <<< 32 ||| lo.setWidth 64

/-- `timer_get_ticks`, where `counter i` is the counter at the `i`-th access to one of
its registers. -/
def timerGetTicks (counter : ℕ → Word) : Word :=
  let hi := counterHi (counter 0)
  let lo := counterLo (counter 1)
  if hi ≠ counterHi (counter 2) then
    let hi := counterHi (counter 3)
    let lo := counterLo (counter 4)
    joinTicks hi lo
  else joinTicks hi lo

/-- The last access that `timer_get_ticks` makes. -/
def lastAccess (counter : ℕ → Word) : ℕ :=
  if counterHi (counter 0) ≠ counterHi (counter 2) then 4 else 2

theorem counterHi_toNat (c : Word) : (counterHi c).toNat = c.toNat / 2 ^ 32 := by
  have hlt := c.isLt
  rw [counterHi, BitVec.extractLsb'_toNat, Nat.shiftRight_eq_div_pow]
  apply Nat.mod_eq_of_lt
  omega

theorem counterHi_eq_iff {c d : Word} :
    counterHi c = counterHi d ↔ c.toNat / 2 ^ 32 = d.toNat / 2 ^ 32 := by
  rw [← BitVec.toNat_inj, counterHi_toNat, counterHi_toNat]

theorem joinTicks_counter (c : Word) : joinTicks (counterHi c) (counterLo c) = c := by
  apply BitVec.eq_of_getLsbD_eq
  intro i hi
  unfold joinTicks counterHi counterLo
  rcases Nat.lt_or_ge i 32 with hlo | hhi
  · simp [hi, hlo]
  · have hsub : i - 32 < 32 := by omega
    simp [hi, Nat.not_lt.mpr hhi, hsub, Nat.add_sub_cancel' hhi]

section Ticks

variable {counter : ℕ → Word}

/-- Halves that agree on the high word belong to the later value. -/
theorem joinTicks_of_hi {c d : Word} (h : counterHi c = counterHi d) :
    joinTicks (counterHi c) (counterLo d) = d := by
  rw [h, joinTicks_counter]

/-- While the counter advances by less than `2 ^ 32` in all, the value returned is the
counter's at one of the accesses. -/
theorem timerGetTicks_not_torn
    (hmono : ∀ i < lastAccess counter, (counter i).toNat ≤ (counter (i + 1)).toNat)
    (htotal : (counter (lastAccess counter)).toNat < (counter 0).toNat + 2 ^ 32) :
    ∃ i ≤ lastAccess counter, timerGetTicks counter = counter i := by
  unfold timerGetTicks
  dsimp only
  by_cases hsame : counterHi (counter 0) = counterHi (counter 2)
  · -- the high word did not change, so it was that of the low word read in between
    have hlast : lastAccess counter = 2 := if_neg (not_not_intro hsame)
    rw [hlast] at hmono ⊢
    have h01 : (counter 0).toNat ≤ (counter 1).toNat := hmono 0 (by decide)
    have h12 : (counter 1).toNat ≤ (counter 2).toNat := hmono 1 (by decide)
    refine ⟨1, by decide, ?_⟩
    rw [if_neg (not_not_intro hsame)]
    apply joinTicks_of_hi
    rw [counterHi_eq_iff] at hsame ⊢
    apply le_antisymm (Nat.div_le_div_right h01)
    rw [hsame]
    exact Nat.div_le_div_right h12
  · -- the low word has wrapped once, and there is no time for it to wrap again
    have hlast : lastAccess counter = 4 := if_pos hsame
    rw [hlast] at hmono htotal ⊢
    have h01 : (counter 0).toNat ≤ (counter 1).toNat := hmono 0 (by decide)
    have h12 : (counter 1).toNat ≤ (counter 2).toNat := hmono 1 (by decide)
    have h23 : (counter 2).toNat ≤ (counter 3).toNat := hmono 2 (by decide)
    have h34 : (counter 3).toNat ≤ (counter 4).toNat := hmono 3 (by decide)
    refine ⟨4, le_rfl, ?_⟩
    rw [if_pos hsame]
    apply joinTicks_of_hi
    rw [counterHi_eq_iff] at hsame ⊢
    omega

end Ticks

/-- The low word wraps between the first two reads. -/
theorem timerGetTicks_not_torn_wrap :
    ∃ i ≤ lastAccess (fun i => 0xFFFFFFFF + BitVec.ofNat 64 i),
      timerGetTicks (fun i => 0xFFFFFFFF + BitVec.ofNat 64 i) =
        0xFFFFFFFF + BitVec.ofNat 64 i :=
  timerGetTicks_not_torn (by decide) (by decide)

/-! ## §2  The request of `timer_nanosleep` -/

/-- What `timer_nanosleep` puts into the queue. -/
def timerRequest (ns now : Word) : Word := ns * clockHz / 1000000000 + now

def exactDeadline (ns now : Word) : ℕ :=
  now.toNat + ns.toNat * clockHz.toNat / 1000000000

def Converts (ns : Word) : Prop := ns.toNat * clockHz.toNat < 2 ^ 64

namespace Kernel

theorem timerNanosleep_sleepQueue (s : Kernel) (ns now : Word) :
    (s.timerNanosleep ns now).sleepQueue =
      pqAdd s.sleepQueue (timerRequest ns now) s.current :=
  rfl

/-- `timer_nanosleep` adds the current process with its exact deadline, and nothing
else. -/
def EnqueuesExactly (s : Kernel) (ns now : Word) : Prop :=
  ∃ deadline : Word, deadline.toNat = exactDeadline ns now ∧
    (s.timerNanosleep ns now).sleepQueue.nodes =
      ⟨deadline, s.current⟩ ::ₘ s.sleepQueue.nodes

end Kernel

section Requests

variable {ns ns' now : Word} {s s' : Kernel}

theorem timerRequest_toNat (ns now : Word) :
    (timerRequest ns now).toNat =
      (ns.toNat * clockHz.toNat % 2 ^ 64 / 1000000000 + now.toNat) % 2 ^ 64 := by
  unfold timerRequest
  rw [BitVec.toNat_add, BitVec.toNat_udiv, BitVec.toNat_mul]
  rfl

/-- The request is exact if and only if the product fits: the quotient of a product
reduced modulo `2 ^ 64` is too small. -/
theorem timerRequest_exact_iff (hrange : exactDeadline ns now < 2 ^ 64) :
    (timerRequest ns now).toNat = exactDeadline ns now ↔ Converts ns := by
  rw [timerRequest_toNat]
  unfold exactDeadline Converts at *
  generalize ns.toNat * clockHz.toNat = product at *
  constructor
  · intro heq
    by_contra hover
    omega
  · intro hfits
    rw [Nat.mod_eq_of_lt hfits, Nat.add_comm, Nat.mod_eq_of_lt hrange]

theorem timerNanosleep_nodes (s : Kernel) (ns now : Word)
    (hroom : s.sleepQueue.items < s.sleepQueue.size) :
    (s.timerNanosleep ns now).sleepQueue.nodes =
      ⟨timerRequest ns now, s.current⟩ ::ₘ s.sleepQueue.nodes := by
  rw [Kernel.timerNanosleep_sleepQueue, pqAdd, if_neg (Nat.not_le.mpr hroom)]
  exact Heap.cells_add _ _ _ _

/-- A request is enqueued with its exact deadline if and only if the product of its
conversion fits into 64 bits and the queue is not full. -/
theorem enqueuesExactly_iff (s : Kernel) (hrange : exactDeadline ns now < 2 ^ 64) :
    s.EnqueuesExactly ns now ↔
      Converts ns ∧ s.sleepQueue.items < s.sleepQueue.size := by
  constructor
  · rintro ⟨deadline, hexact, hnodes⟩
    rcases Nat.lt_or_ge s.sleepQueue.items s.sleepQueue.size with hroom | hfull
    · rw [timerNanosleep_nodes s ns now hroom, Multiset.cons_inj_left] at hnodes
      refine ⟨(timerRequest_exact_iff hrange).mp ?_, hroom⟩
      rw [← hexact]
      exact congrArg (fun x => x.priority.toNat) hnodes
    · -- a full queue stays as it is
      rw [Kernel.timerNanosleep_sleepQueue, Pq.pqAdd_full hfull] at hnodes
      have hcard := congrArg Multiset.card hnodes
      rw [Multiset.card_cons] at hcard
      exact absurd hcard.symm (Nat.succ_ne_self _)
  · rintro ⟨hconverts, hroom⟩
    exact ⟨timerRequest ns now, (timerRequest_exact_iff hrange).mpr hconverts,
      timerNanosleep_nodes s ns now hroom⟩

theorem le_exactDeadline (ns now : Word) : now.toNat ≤ exactDeadline ns now :=
  Nat.le_add_right _ _

theorem exactDeadline_mono (hle : ns ≤ ns') (now : Word) :
    exactDeadline ns now ≤ exactDeadline ns' now := by
  unfold exactDeadline
  gcongr
  exact BitVec.le_def.mp hle

end Requests

/-! ## §3  The sleep queue over a step -/

namespace Kernel

/-- What becomes of the sleep queue before the scheduler is called. -/
inductive QueueStep (s : Kernel) : KernelEvent → Pq → Prop
  | same {e : KernelEvent} : QueueStep s e s.sleepQueue
  | sleeps {ns now : Word} :
      QueueStep s (.nanosleep ns now) (s.timerNanosleep ns now).sleepQueue
  | wakes : s.timer.isSome = true → QueueStep s .virtualTimer s.handleVirtualTimer.sleepQueue

variable {s t : Kernel} {e : KernelEvent} {o : Outcome}

theorem QueueStep.of_eq (h : t.sleepQueue = s.sleepQueue) : QueueStep s e t.sleepQueue := by
  rw [h]
  exact .same

theorem leaveProcessor_sleepQueue (s : Kernel) :
    s.leaveProcessor.sleepQueue = s.sleepQueue := by
  unfold leaveProcessor
  split <;> rfl

theorem wakeListeners_sleepQueue (fuel : ℕ) : ∀ s t : Kernel,
    s.wakeListeners fuel = some t → t.sleepQueue = s.sleepQueue := by
  induction fuel with
  | zero => exact fun _ _ h => by simp [wakeListeners] at h
  | succ fuel ih =>
      intro s t h
      unfold wakeListeners at h
      split at h
      · rw [Option.some.injEq] at h
        rw [h]
      · have hrest := ih _ t h
        exact hrest

theorem interrupt_sleepQueue (ho : s.interrupt e = some o) :
    QueueStep s e o.stop.sleepQueue := by
  cases e with
  | tick =>
      rw [interrupt, Option.some.injEq] at ho
      exact ho ▸ .same
  | virtualTimer =>
      rw [interrupt] at ho
      split at ho
      · rename_i harmed
        rw [Option.some.injEq] at ho
        exact ho ▸ .wakes harmed
      · simp at ho
  | key c =>
      rw [interrupt, Option.map_eq_some_iff] at ho
      obtain ⟨t, ht, rfl⟩ := ho
      unfold keyboardEvent at ht
      split at ht
      · rw [Option.some.injEq] at ht
        exact ht ▸ .same
      · have hqueue := wakeListeners_sleepQueue _ _ _ ht
        exact QueueStep.of_eq hqueue
  | _ => simp [interrupt] at ho

theorem mutexAcquireLoop_sleepQueue {m : ℕ} (ho : s.mutexAcquireLoop m = some o) :
    o.stop.sleepQueue = s.sleepQueue := by
  unfold mutexAcquireLoop spinlockAcquire at ho
  dsimp only at ho
  split at ho
  · rw [Option.some.injEq] at ho
    exact ho ▸ rfl
  split at ho
  · rw [Option.map_some, Option.some.injEq] at ho
    rw [← ho]
    refine (leaveProcessor_sleepQueue _).trans ?_
    split <;> rfl
  · simp at ho

theorem mutexRelease_sleepQueue {m : ℕ} (ho : s.mutexRelease m = some o) :
    o.stop.sleepQueue = s.sleepQueue := by
  unfold mutexRelease spinlockAcquire at ho
  dsimp only at ho
  split at ho
  · rw [Option.map_some, Option.some.injEq] at ho
    rw [← ho]
    show (spinlockRelease _ m).sleepQueue = s.sleepQueue
    split <;> rfl
  · simp at ho

theorem pipeReadLoop_sleepQueue (s : Kernel) (buf : ℕ → UInt8) (count : Word) :
    (s.pipeReadLoop buf count).stop.sleepQueue = s.sleepQueue := by
  unfold pipeReadLoop
  split
  · refine (leaveProcessor_sleepQueue _).trans ?_
    split <;> rfl
  · rfl

theorem waitidLoop_sleepQueue (s : Kernel) (child : ℕ) :
    (s.waitidLoop child).stop.sleepQueue = s.sleepQueue := by
  unfold waitidLoop
  split
  · rfl
  · exact leaveProcessor_sleepQueue _

theorem reap_sleepQueue (s : Kernel) : s.reap.stop.sleepQueue = s.sleepQueue := by
  show (setKont _ s.current .exited).sleepQueue = s.sleepQueue
  split <;> rfl

theorem syscall_sleepQueue (ho : s.syscall e = some o) :
    QueueStep s e o.stop.sleepQueue := by
  cases e with
  | fork =>
      rw [syscall, sysFork] at ho
      split at ho
      · rw [Option.some.injEq] at ho
        exact ho ▸ .same
      · simp at ho
  | exit =>
      rw [syscall, Option.some.injEq] at ho
      exact ho ▸ QueueStep.of_eq (reap_sleepQueue s)
  | waitid pid =>
      rw [syscall, Option.some.injEq] at ho
      rw [← ho, sysWaitid]
      split
      · exact .same
      split
      · exact .same
      · exact QueueStep.of_eq (waitidLoop_sleepQueue _ _)
  | nanosleep ns now =>
      rw [syscall, Option.some.injEq] at ho
      rw [← ho]
      have hleave := leaveProcessor_sleepQueue
        ((s.timerNanosleep ns now).setKont s.current .nanosleep)
      show QueueStep s _ (leaveProcessor _).sleepQueue
      rw [hleave]
      exact .sleeps
  | acquire m =>
      have hqueue := mutexAcquireLoop_sleepQueue (s := s.defineWait .waiter) ho
      exact QueueStep.of_eq hqueue
  | release m =>
      rw [syscall] at ho
      split at ho
      · exact QueueStep.of_eq (mutexRelease_sleepQueue ho)
      · simp at ho
  | read buf count =>
      rw [syscall, Option.some.injEq] at ho
      exact ho ▸ QueueStep.of_eq (pipeReadLoop_sleepQueue _ _ _)
  | tick => exact interrupt_sleepQueue (e := .tick) ho
  | virtualTimer => exact interrupt_sleepQueue (e := .virtualTimer) ho
  | key c => exact interrupt_sleepQueue (e := .key c) ho
  | resume => exact interrupt_sleepQueue (e := .resume) ho

theorem resume_sleepQueue {k : Kont} (ho : s.resume k = some o) :
    o.stop.sleepQueue = s.sleepQueue := by
  cases k with
  | acquire m => exact mutexAcquireLoop_sleepQueue ho
  | read buf count =>
      rw [resume, Option.some.injEq] at ho
      exact ho ▸ pipeReadLoop_sleepQueue s buf count
  | waitid child =>
      rw [resume, Option.some.injEq] at ho
      exact ho ▸ waitidLoop_sleepQueue s child
  | nanosleep =>
      rw [resume, Option.some.injEq] at ho
      exact ho ▸ rfl
  | _ => simp [resume] at ho

/-- Only `timer_nanosleep` and `handle_virtual_timer` touch the sleep queue. -/
theorem run_sleepQueue (ho : s.run e = some o) : QueueStep s e o.stop.sleepQueue := by
  unfold run at ho
  split at ho
  · exact syscall_sleepQueue ho
  · exact interrupt_sleepQueue ho
  · split at ho
    · exact QueueStep.of_eq (resume_sleepQueue ho)
    · simp at ho

/-- The interrupt of the armed timer runs its handler, whoever is interrupted. -/
theorem step_virtualTimer {v : Option ℕ} (hstep : s.step .virtualTimer = some (v, t)) :
    s.timer.isSome = true ∧ t = s.handleVirtualTimer := by
  rw [step, Option.map_eq_some_iff] at hstep
  obtain ⟨o, ho, hsettle⟩ := hstep
  have hint : s.interrupt .virtualTimer = some o := by
    unfold run at ho
    split at ho
    · exact ho
    · exact ho
    · simp at ho
  rw [interrupt] at hint
  split at hint
  · rename_i harmed
    rw [Option.some.injEq] at hint
    rw [← hint] at hsettle
    exact ⟨harmed, (congrArg Prod.snd hsettle).symm⟩
  · simp at hint

end Kernel

/-! ## §4  Runs with exact deadlines -/

/-- A kernel, and for every process the exact deadline of its last request. -/
abbrev TimedKernel := Kernel × (ℕ → ℕ)

namespace TimedKernel

def note (x : TimedKernel) : KernelEvent → ℕ → ℕ
  | .nanosleep ns now => Function.update x.2 x.1.current (exactDeadline ns now)
  | _ => x.2

def step (x : TimedKernel) (e : KernelEvent) : Option (Option ℕ × TimedKernel) :=
  (x.1.step e).map fun r => (r.1, (r.2, x.note e))

/-- One process is woken, and nobody asleep has an earlier deadline. -/
def WakesEarliest (x : TimedKernel) (t : Kernel) : Prop :=
  ∃ p, x.1.Asleep p ∧ t.state p = .ready ∧ (∀ q, q ≠ p → t.state q = x.1.state q) ∧
    ∀ q, x.1.Asleep q → x.2 p ≤ x.2 q

/-- Sleepers are enqueued with their exact deadlines and woken in the order of these. -/
def Exact (x : TimedKernel) (e : KernelEvent) (_ : Option ℕ) (y : TimedKernel) : Prop :=
  match e with
  | .nanosleep ns now => x.1.EnqueuesExactly ns now
  | .virtualTimer => x.WakesEarliest y.1
  | _ => True

/-- Who goes to sleep asks for a time that can be converted, while there is room. -/
def RequestFits (x : TimedKernel) (e : KernelEvent) (_ : Option ℕ) (_ : TimedKernel) :
    Prop :=
  match e with
  | .nanosleep ns _ => Converts ns ∧ x.1.sleepQueue.items < maxProcesses
  | _ => True

end TimedKernel

def KernelEvent.InRange (e : KernelEvent) : Prop :=
  ∀ ns now, e = .nanosleep ns now → exactDeadline ns now < 2 ^ 64

structure TimedOk (x : TimedKernel) : Prop where
  settled : Settled x.1
  queued : SleepersQueued x.1
  exact : ∀ y ∈ x.1.sleepQueue.nodes, y.priority.toNat = x.2 y.element

namespace TimedOk

variable {x : TimedKernel} {t : Kernel} {e : KernelEvent} {v : Option ℕ}

theorem element_ne_current (h : TimedOk x) {y : PqNode}
    (hy : y ∈ x.1.sleepQueue.nodes) : y.element ≠ x.1.current := by
  intro heq
  have hasleep := h.queued.asleep y.element (Multiset.mem_map_of_mem _ hy)
  rw [heq] at hasleep
  exact ProcState.noConfusion (h.settled.2.symm.trans hasleep.1)

/-- The requests in the queue are not those that a step notes. -/
theorem exact_note (h : TimedOk x) (e : KernelEvent) {y : PqNode}
    (hy : y ∈ x.1.sleepQueue.nodes) : y.priority.toNat = x.note e y.element := by
  rw [h.exact y hy]
  cases e with
  | nanosleep ns now => exact (Function.update_of_ne (h.element_ne_current hy) _ _).symm
  | _ => rfl

/-- After any step, the requests in the queue are those noted, if the request of this
step fits. -/
theorem step_exact (h : TimedOk x) (hrange : e.InRange)
    (hfits : x.RequestFits e v (t, x.note e)) {queue : Pq} (hq : x.1.QueueStep e queue) :
    ∀ y ∈ queue.nodes, y.priority.toNat = x.note e y.element := by
  obtain ⟨⟨ps, hc⟩, -⟩ := h.settled
  intro y hy
  cases hq with
  | same => exact h.exact_note e hy
  | @sleeps ns now =>
      obtain ⟨hconverts, hroom⟩ := hfits
      rw [timerNanosleep_nodes x.1 ns now (hc.timer.size ▸ hroom), Multiset.mem_cons] at hy
      rcases hy with rfl | hy
      · rw [(timerRequest_exact_iff (hrange ns now rfl)).mpr hconverts]
        exact (Function.update_self x.1.current (exactDeadline ns now) x.2).symm
      · exact h.exact_note _ hy
  | wakes harmed =>
      apply h.exact_note
      have hne := (Pq.nodes_eq_zero _).not.mp (hc.timer.isSome_iff.mp harmed)
      obtain ⟨-, -, hnodes⟩ := Pq.pqPop_spec hc.timer.heap hne
      rw [← hnodes]
      exact Multiset.mem_cons_of_mem hy

/-- The armed timer wakes a sleeper with the earliest deadline. -/
theorem wakesEarliest (h : TimedOk x) (hstep : x.1.step .virtualTimer = some (v, t)) :
    x.WakesEarliest t := by
  obtain ⟨⟨ps, hc⟩, hrun⟩ := h.settled
  obtain ⟨harmed, ht⟩ := Kernel.step_virtualTimer hstep
  have hne := (Pq.nodes_eq_zero _).not.mp (hc.timer.isSome_iff.mp harmed)
  obtain ⟨hfirst, -, -⟩ := Pq.pqPop_spec hc.timer.heap hne
  obtain ⟨hmem, hleast⟩ := Pq.peek_least hc.timer.heap hne
  rw [← hfirst] at hmem hleast
  subst ht
  refine ⟨(pqPop x.1.sleepQueue).1.element,
    h.queued.asleep _ (Multiset.mem_map_of_mem _ hmem), Function.update_self _ _ _,
    fun q hq => Function.update_of_ne hq _ _, fun q hq => ?_⟩
  -- the other sleeper is in the queue too
  have hcount := h.queued.queued q hq
  obtain ⟨y, hy, rfl⟩ := Multiset.mem_map.mp
    (Multiset.one_le_count_iff_mem.mp hcount.ge)
  rw [← h.exact _ hmem, ← h.exact y hy]
  exact hleast y hy

/-- A step keeps the deadlines and their order exactly when its request fits. -/
theorem step_iff (h : TimedOk x) (hrange : e.InRange) {y : TimedKernel}
    (hstep : x.step e = some (v, y)) :
    (x.Exact e v y ↔ x.RequestFits e v y) ∧ (x.RequestFits e v y → TimedOk y) := by
  obtain ⟨⟨ps, hc⟩, hrun⟩ := h.settled
  rw [TimedKernel.step, Option.map_eq_some_iff] at hstep
  obtain ⟨⟨_, t⟩, hkernel, ⟨⟩⟩ := hstep
  constructor
  · cases e with
    | nanosleep ns now =>
        show x.1.EnqueuesExactly ns now ↔ _
        rw [enqueuesExactly_iff x.1 (hrange ns now rfl), hc.timer.size]
        rfl
    | virtualTimer => exact iff_of_true (h.wakesEarliest hkernel) trivial
    | _ => exact Iff.rfl
  · intro hfits
    have hroom : x.1.RoomToSleep e := by
      rintro ns now - rfl
      exact hfits.2
    refine ⟨h.settled.step hkernel,
      (step_sleepersQueued h.settled h.queued hkernel).mpr hroom, ?_⟩
    obtain ⟨o, -, -, ho, -, -, -, hsw, -⟩ := hc.step hrun hkernel
    have hqueue : t.sleepQueue = o.stop.sleepQueue := by rw [hsw.same]
    show ∀ y ∈ t.sleepQueue.nodes, _
    rw [hqueue]
    exact h.step_exact hrange hfits (Kernel.run_sleepQueue ho)

theorem boot (buf : Word) (page : ℕ → UInt8) (due : ℕ → ℕ) :
    TimedOk (Kernel.boot buf page, due) :=
  ⟨boot_settled buf page, boot_sleepersQueued buf page,
    fun y hy => absurd hy (Multiset.notMem_zero y)⟩

end TimedOk

/-- For requests whose exact deadlines can be represented: along a run from the start of
the shell all are enqueued exactly, and all are woken in order, if and only if every one
fits. In any state one is enqueued exactly if and only if its product fits and there is
room for it; then no deadline is before now, and of two made at the same time the longer
one has not the earlier deadline. -/
theorem sleep_deadlines_iff (buf : Word) (page : ℕ → UInt8) (due : ℕ → ℕ)
    (events : List KernelEvent) (hrange : ∀ e ∈ events, e.InRange) :
    (Along TimedKernel.step TimedKernel.Exact (Kernel.boot buf page, due) events ↔
      Along TimedKernel.step TimedKernel.RequestFits (Kernel.boot buf page, due) events) ∧
    (∀ (s : Kernel) (ns now : Word), exactDeadline ns now < 2 ^ 64 →
      (s.EnqueuesExactly ns now ↔
        Converts ns ∧ s.sleepQueue.items < s.sleepQueue.size)) ∧
    ∀ ns ns' now : Word, exactDeadline ns now < 2 ^ 64 → exactDeadline ns' now < 2 ^ 64 →
      Converts ns → Converts ns' → now ≤ timerRequest ns now ∧
        (ns ≤ ns' → timerRequest ns now ≤ timerRequest ns' now) := by
  refine ⟨?_, fun s ns now => enqueuesExactly_iff s, fun ns ns' now hns hns' hfits hfits' => ?_⟩
  · have hkeeps : ∀ (x : TimedKernel) (e : KernelEvent) (v : Option ℕ) (y : TimedKernel),
        TimedOk x → e.InRange → x.step e = some (v, y) →
        (x.Exact e v y ↔ x.RequestFits e v y) ∧ (x.RequestFits e v y → TimedOk y) :=
      fun x e v y hx he hstep => hx.step_iff he hstep
    exact along_iff_of_keeps_ok hkeeps events _ (.boot buf page due) hrange
  · rw [BitVec.le_def, BitVec.le_def (x := timerRequest ns now),
      (timerRequest_exact_iff hns).mpr hfits, (timerRequest_exact_iff hns').mpr hfits']
    exact ⟨le_exactDeadline ns now, fun hle => exactDeadline_mono hle now⟩

/-- The shell sleeps for a second and is woken. -/
theorem sleep_deadlines_iff_example :
    Along TimedKernel.step TimedKernel.Exact (Kernel.boot 4096 fun _ => 0, fun _ => 0)
      [.nanosleep 1000000000 0, .virtualTimer] := by
  refine (sleep_deadlines_iff 4096 (fun _ => 0) (fun _ => 0) _ ?_).1.mpr ?_
  · rintro e he ns now rfl
    rw [List.mem_cons, List.mem_singleton] at he
    rcases he with heq | heq
    · rw [KernelEvent.nanosleep.injEq] at heq
      rw [heq.1, heq.2]
      decide
    · exact KernelEvent.noConfusion heq
  · have hconverts : Converts 1000000000 := by
      unfold Converts
      decide
    exact ⟨_, _, rfl, ⟨hconverts, by decide⟩, _, _, rfl, trivial, trivial⟩

/-- The shell forks and asks for five hours of sleep. The product overflows to almost
nothing, and it is woken before its child, which asked for a second. -/
theorem long_sleep_wakes_first :
    ∃ vs x v y, exec TimedKernel.step (Kernel.boot 4096 fun _ => 0, fun _ => 0)
        [.fork, .nanosleep 18446744073710 0, .nanosleep 1000000000 0] = some (vs, x) ∧
      exactDeadline 18446744073710 0 < 2 ^ 64 ∧ exactDeadline 1000000000 0 < 2 ^ 64 ∧
      ¬ (Kernel.boot 4096 fun _ => 0).EnqueuesExactly 18446744073710 0 ∧
      x.step .virtualTimer = some (v, y) ∧ ¬ x.WakesEarliest y.1 := by
  have hrange : exactDeadline 18446744073710 0 < 2 ^ 64 := by decide
  have hrun : ((exec TimedKernel.step (Kernel.boot 4096 fun _ => 0, fun _ => 0)
        [.fork, .nanosleep 18446744073710 0, .nanosleep 1000000000 0]).bind fun r =>
      (r.2.step .virtualTimer).map fun r' => (r, r')).any (fun r =>
        decide (r.1.2.1.state 2 = .blocked ∧ r.1.2.1.Asleep 3 ∧ r.2.2.1.state 2 = .ready ∧
          r.1.2.2 3 < r.1.2.2 2)) = true := by
    decide +kernel
  rw [Option.any_eq_true] at hrun
  obtain ⟨⟨⟨vs, x⟩, v, y⟩, hsome, hfacts⟩ := hrun
  rw [Option.bind_eq_some_iff] at hsome
  obtain ⟨r, hexec, hmap⟩ := hsome
  rw [Option.map_eq_some_iff] at hmap
  obtain ⟨r', hstep, ⟨⟩⟩ := hmap
  obtain ⟨hblocked, hasleep, hready, hlt⟩ := of_decide_eq_true hfacts
  refine ⟨vs, x, v, y, hexec, hrange, by decide, fun hexact => ?_, hstep, ?_⟩
  · have hconverts := ((enqueuesExactly_iff _ hrange).mp hexact).1
    revert hconverts
    unfold Converts
    decide
  · rintro ⟨p, -, -, hother, hleast⟩
    -- the shell has been woken
    have hp : 2 = p := by
      by_contra hne
      have hsame := hother 2 hne
      rw [hready, hblocked] at hsame
      exact ProcState.noConfusion hsame
    subst hp
    exact absurd (hleast 3 hasleep) (Nat.not_le.mpr hlt)

end Rpos
