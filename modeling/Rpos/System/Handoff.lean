import Rpos.System.Consistent

/-!
# Every call keeps the scheduler's invariant

One lemma for each call of the kernel.
-/

namespace Rpos

open Base Kernel.Outcome

/-- The state in which a call ends, or in which it calls the scheduler. -/
def Kernel.Outcome.stop : Kernel.Outcome → Kernel
  | .returns _ t => t
  | .schedules t => t
  | .deschedules t => t.leaveProcessor

/-- A call that starts in `s` keeps the invariant up to there, and returns to the
process that made it. -/
def Kernel.Outcome.Good (s : Kernel) (ps : Queue → List ℕ) (o : Kernel.Outcome) : Prop :=
  (∃ ps', Consistent o.stop ps' ∧ Progress s ps o.stop ps') ∧
    ∀ v t, o = .returns v t → t.state t.current = .running

theorem Kernel.Outcome.good_returns {s t : Kernel} {ps : Queue → List ℕ} {v : Option ℕ}
    (h : ∃ ps', Consistent t ps' ∧ Progress s ps t ps')
    (hrun : t.state t.current = .running) : (Kernel.Outcome.returns v t).Good s ps := by
  refine ⟨h, fun v' t' heq => ?_⟩
  rw [Kernel.Outcome.returns.injEq] at heq
  exact heq.2 ▸ hrun

theorem Kernel.Outcome.good_schedules {s t : Kernel} {ps : Queue → List ℕ}
    (h : ∃ ps', Consistent t ps' ∧ Progress s ps t ps') :
    (Kernel.Outcome.schedules t).Good s ps :=
  ⟨h, fun _ _ heq => Kernel.Outcome.noConfusion heq⟩

theorem Kernel.Outcome.good_deschedules {s t : Kernel} {ps : Queue → List ℕ}
    (h : ∃ ps', Consistent t.leaveProcessor ps' ∧ Progress s ps t.leaveProcessor ps') :
    (Kernel.Outcome.deschedules t).Good s ps :=
  ⟨h, fun _ _ heq => Kernel.Outcome.noConfusion heq⟩

namespace Consistent

variable {s t u : Kernel} {ps ps' : Queue → List ℕ} {p : ℕ} {k : Kont}

/-- The invariant does not read the owners of the mutexes or the pipe's data. -/
theorem withData (h : Consistent s ps) (owner : ℕ → Option ℕ) (holders : ℕ → List ℕ)
    (pipe : PipeData) :
    Consistent { s with owner := owner, holders := holders, pipe := pipe } ps :=
  ⟨h.runQueue.congr rfl rfl rfl rfl,
    h.waits.congr (fun _ _ => Iff.rfl) (fun _ _ => rfl) rfl,
    ⟨h.timer.heap, h.timer.size, h.timer.armed⟩,
    h.family.mono ⟨rfl, rfl, rfl, rfl⟩ (fun _ hr => hr) (fun _ _ hq => hq),
    h.lock, h.idle⟩

theorem progress_withData (s : Kernel) (ps : Queue → List ℕ) (owner : ℕ → Option ℕ)
    (holders : ℕ → List ℕ) (pipe : PipeData) :
    Progress s ps { s with owner := owner, holders := holders, pipe := pipe } ps :=
  ⟨rfl, le_rfl, fun _ _ _ => rfl, fun _ _ hr => hr, fun _ _ hr => hr, fun _ _ hr => hr,
    fun _ _ hr _ => hr, fun _ _ hr _ => hr⟩

theorem defineWait (h : Consistent s ps) (hrun : s.state s.current = .running)
    {kind : EntryKind} (hkind : kind ≠ .runqueue) : s.defineWait kind = s := by
  have hnot := h.notMem_kind (p := s.current) (by rw [hrun]; exact ProcState.noConfusion) hkind
  unfold Kernel.defineWait
  rw [h.runQueue.queues.init_unlinked hnot]

/-- `deschedule` of the running process: its pcb is not on the runqueue, so that
nothing is unlinked. -/
theorem leaveProcessor_eq (h : Consistent s ps) (hrun : s.state s.current = .running)
    (hq : Queues u.links ps') (hrunq : ps' .runqueue = ps .runqueue)
    (hstate : u.state = s.state) (hcur : u.current = s.current) :
    u.leaveProcessor =
      { u with state := Function.update s.state s.current .blocked } := by
  have hnot : ∀ q : Queue, q.kind = .runqueue → s.current ∉ ps' q := by
    intro q hkind
    rw [RunQueue.kind_eq hkind, hrunq, h.runQueue.ready]
    exact fun hr => h.runQueue.current hr.2
  unfold Kernel.leaveProcessor
  rw [hstate, hcur, if_pos hrun]
  simp only [Kernel.dequeue, Kernel.setState, hq.remove_unlinked hnot, hstate, hcur]

theorem family_block (h : Consistent s ps) (hrun : s.state s.current = .running)
    (hs : SameKinship s t) (hstate : t.state = Function.update s.state s.current .blocked)
    (hb : ∀ q r, s.BlockedIn q r → t.BlockedIn q r) : Kinship t := by
  refine h.family.mono hs (fun r hr => ?_) fun q _ hq => hb _ _ hq
  have hrc : r ≠ s.current := by
    rintro rfl
    exact ProcState.noConfusion (hrun.symm.trans hr)
  rw [hstate, Function.update_of_ne hrc]
  exact hr

/-! ## §1  Waking -/

def wakeLists (ps : Queue → List ℕ) (q : Queue) (p : ℕ) : Queue → List ℕ :=
  Function.update (Function.update ps .runqueue (p :: ps .runqueue)) q ((ps q).erase p)

theorem wakeLists_self (ps : Queue → List ℕ) (q : Queue) (p : ℕ) :
    wakeLists ps q p q = (ps q).erase p :=
  Function.update_self _ _ _

theorem wakeLists_other {q q' : Queue} (hq' : q' ≠ .runqueue) (hne : q' ≠ q) :
    wakeLists ps q p q' = ps q' := by
  rw [wakeLists, Function.update_of_ne hne, Function.update_of_ne hq']

/-- The first entry of a wait list: its process is made ready, then the entry is
taken off the list. -/
theorem wakeEntry (h : Consistent s ps) (hrun : s.state s.current = .running)
    {q : Queue} (hqr : q ≠ .runqueue) (hp : p ∈ ps q)
    (hlinks : t.links = (s.defaultWakeFn (.entry q.kind p)).links.listRemove (.entry q.kind p))
    (hstate : t.state = Function.update s.state p .ready) (hkont : t.kont = s.kont)
    (hcur : t.current = s.current)
    (hrel : t.relinked = (s.defaultWakeFn (.entry q.kind p)).relinked)
    (hfam : SameKinship s t) (hlock : t.waitLock = s.waitLock)
    (htimer : t.timer = s.timer) (hsleep : t.sleepQueue = s.sleepQueue) :
    Consistent t (wakeLists ps q p) ∧ Progress s ps t (wakeLists ps q p) := by
  obtain ⟨k, hblocked, hk, hkchild, hknano⟩ : ∃ k, s.BlockedIn p k ∧
      (∀ q', q' ≠ .runqueue → q' ≠ q → p ∉ ps q') ∧ (∀ c, k ≠ .waitid c) ∧
      k ≠ .nanosleep := by
    cases q with
    | runqueue => exact absurd rfl hqr
    | waitList m =>
        have hb := (h.waits.waiting m p).mp hp
        refine ⟨_, hb, fun q' hq' hne => ?_, fun c => Kont.noConfusion, Kont.noConfusion⟩
        cases q' with
        | runqueue => exact absurd rfl hq'
        | waitList m' =>
            refine h.waits.notMem_waitList hb fun heq => hne ?_
            rw [Kont.acquire.injEq] at heq
            rw [heq]
        | rdWait => exact h.waits.notMem_rdWait hb fun _ _ => Kont.noConfusion
    | rdWait =>
        obtain ⟨buf, count, hb⟩ := h.waits.reading p hp
        refine ⟨_, hb, fun q' hq' hne => ?_, fun c => Kont.noConfusion, Kont.noConfusion⟩
        cases q' with
        | runqueue => exact absurd rfl hq'
        | waitList m' => exact h.waits.notMem_waitList hb Kont.noConfusion
        | rdWait => exact absurd rfl hne
  have hc : p ≠ s.current := by
    rintro rfl
    exact ProcState.noConfusion (hrun.symm.trans hblocked.1)
  have hready : s.state p ≠ .ready := by
    rw [hblocked.1]
    exact ProcState.noConfusion
  obtain ⟨hadd, hrelinked⟩ := h.runQueue.enqueue hready .ready
  have hmem : p ∈ Function.update ps .runqueue (p :: ps .runqueue) q := by
    rw [Function.update_of_ne hqr]
    exact hp
  have hremove := hadd.remove hmem
  rw [Function.update_of_ne hqr] at hremove
  refine h.wake hblocked.1 hc (fun c _ hkc => hkchild c (hblocked.2.symm.trans hkc))
    (hlinks ▸ hremove) ?_ (fun q' hq' r => ?_) hstate hkont hcur (hrel.trans hrelinked) hfam
    hlock ?_ (fun r => ?_) ?_
  · rw [wakeLists, Function.update_of_ne hqr.symm, Function.update_self]
  · by_cases hne : q' = q
    · rw [hne, wakeLists_self, (h.runQueue.queues.nodup q).mem_erase_iff, and_comm]
    · rw [wakeLists_other hq' hne]
      refine ⟨fun hr => ⟨hr, ?_⟩, And.left⟩
      rintro rfl
      exact hk q' hq' hne hr
  · exact ⟨hsleep ▸ h.timer.heap, hsleep ▸ h.timer.size, by
      rw [htimer, hsleep]
      exact h.timer.armed⟩
  · rw [hsleep]
    refine ⟨fun hr => ⟨hr, ?_⟩, And.left⟩
    rintro rfl
    exact h.waits.notMem_elements hblocked hknano hr
  · rw [hsleep]
    exact h.waits.nodup

/-- The armed virtual timer wakes the process with the earliest request. -/
theorem handleVirtualTimer (h : Consistent s ps) (hrun : s.state s.current = .running)
    (harmed : s.timer.isSome = true) :
    (∃ ps', Consistent s.handleVirtualTimer ps' ∧ Progress s ps s.handleVirtualTimer ps') ∧
      s.handleVirtualTimer.state s.handleVirtualTimer.current = .running := by
  obtain ⟨time, htime⟩ := Option.isSome_iff_exists.mp harmed
  obtain ⟨hne, -⟩ := (h.timer.armed time).mp htime
  obtain ⟨hfirst, hok, hnodes⟩ := Pq.pqPop_spec h.timer.heap hne
  set p := (pqPop s.sleepQueue).1.element with hp
  have helements : p ::ₘ (pqPop s.sleepQueue).2.elements = s.sleepQueue.elements := by
    have hmap := congrArg (Multiset.map PqNode.element) hnodes
    rw [Multiset.map_cons, ← hfirst] at hmap
    exact hmap
  have hnodup := h.waits.nodup
  rw [← helements, Multiset.nodup_cons] at hnodup
  have hblocked := h.waits.sleeping p (by rw [← helements]; exact Multiset.mem_cons_self p _)
  have hc : p ≠ s.current := by
    intro heq
    rw [heq] at hblocked
    exact ProcState.noConfusion (hrun.symm.trans hblocked.1)
  have hready : s.state p ≠ .ready := by
    rw [hblocked.1]
    exact ProcState.noConfusion
  obtain ⟨hadd, hrelinked⟩ := h.runQueue.enqueue hready .ready
  have hnot : ∀ q, q ≠ .runqueue → p ∉ ps q := fun q hq =>
    h.waits.notMem_of_unlisted hblocked (fun _ => Kont.noConfusion)
      (fun _ _ => Kont.noConfusion) hq
  have hwake := h.wake (t := s.handleVirtualTimer) hblocked.1 hc
    (fun c _ hkc => Kont.noConfusion (hblocked.2.symm.trans hkc)) hadd
    (Function.update_self _ _ _) (fun q hq r => ?_) rfl rfl rfl hrelinked
    ⟨rfl, rfl, rfl, rfl⟩ rfl ⟨hok, ?_, fun time' => ?_⟩ (fun r => ?_) hnodup.2
  · exact ⟨⟨_, hwake⟩, (Function.update_of_ne hc.symm _ _).trans hrun⟩
  · rw [Function.update_of_ne hq]
    refine ⟨fun hr => ⟨hr, ?_⟩, And.left⟩
    intro heq
    exact hnot q hq (heq ▸ hr)
  · exact (Pq.pqPop_size _).trans h.timer.size
  · show (if (pqPop s.sleepQueue).2.items ≠ 0 then
      some (pqPeek (pqPop s.sleepQueue).2).priority else none) = some time' ↔
        (pqPop s.sleepQueue).2.items ≠ 0 ∧ time' = (pqPeek (pqPop s.sleepQueue).2).priority
    by_cases hitems : (pqPop s.sleepQueue).2.items = 0
    · simp [hitems]
    · simp [hitems, eq_comm]
  · rw [← helements, Multiset.mem_cons]
    constructor
    · exact fun hr => ⟨Or.inr hr, fun heq => hnodup.1 (heq ▸ hr)⟩
    · exact fun hr => hr.1.resolve_left hr.2

/-! ## §2  The mutex -/

/-- The spinlock is free again when it has been taken and given back. -/
theorem relock (h : Consistent s ps) (mutex : ℕ) :
    Function.update (Function.update s.waitLock mutex 1) mutex 0 = s.waitLock := by
  rw [Function.update_idem, ← h.lock mutex, Function.update_eq_self]

theorem mutexAcquireLoop (h : Consistent s ps) (hrun : s.state s.current = .running)
    (hne : s.current ≠ 0) (mutex : ℕ) :
    ∃ o, s.mutexAcquireLoop mutex = some o ∧ o.Good s ps := by
  by_cases hold : s.owner mutex = none
  · refine ⟨_, by rw [Kernel.mutexAcquireLoop]; simp only [hold, if_true]; rfl, ?_⟩
    have hdata := h.withData (Function.update s.owner mutex (some s.current))
      (Function.update s.holders mutex (s.current :: s.holders mutex)) s.pipe
    obtain ⟨hkont, hprog⟩ := hdata.setKont (k := .user) hrun hne Kont.noConfusion
    exact good_returns ⟨ps, hkont, (progress_withData s ps _ _ _).trans hprog⟩ hrun
  · have hnb : s.state s.current ≠ .blocked := by
      rw [hrun]
      exact ProcState.noConfusion
    have hnot := h.notMem_kind hnb (show EntryKind.waiter ≠ .runqueue from EntryKind.noConfusion)
    have hempty := h.runQueue.queues.listEmpty_entry hnot
    have hadd := h.runQueue.queues.add (q := .waitList mutex) hnot
    have hlock := h.relock mutex
    refine ⟨.deschedules { s with
      owner := Function.update s.owner mutex (some s.current)
      links := s.links.listAdd (.entry .waiter s.current) (.head (.waitList mutex))
      state := Function.update s.state s.current .blocked
      kont := Function.update s.kont s.current (.acquire mutex) }, ?_, ?_⟩
    · rw [Kernel.mutexAcquireLoop]
      simp only [hold, if_false, Kernel.spinlockAcquire, h.lock, if_true, Option.map_some,
        hempty, Kernel.spinlockRelease, Kernel.setState, Kernel.setKont, hlock]
    · have hblock := h.block (k := .acquire mutex) (t := { s with
          owner := Function.update s.owner mutex (some s.current)
          links := s.links.listAdd (.entry .waiter s.current) (.head (.waitList mutex))
          state := Function.update s.state s.current .blocked
          kont := Function.update s.kont s.current (.acquire mutex) })
        hrun hne Kont.noConfusion hadd (Function.update_of_ne Queue.noConfusion _ _) rfl rfl rfl
        h.runQueue.relinked rfl h.lock
        (h.family_block hrun ⟨rfl, rfl, rfl, rfl⟩ rfl)
        ⟨h.timer.heap, h.timer.size, h.timer.armed⟩
        (fun hb => h.waits.block hb (fun m r => ?_) (fun r hr => ?_) (fun r hr => Or.inl hr)
          h.waits.nodup) ?_ (fun r hr => hr)
      · refine good_deschedules ?_
        rw [Kernel.leaveProcessor, if_neg]
        · exact ⟨_, hblock⟩
        · show Function.update s.state s.current .blocked s.current ≠ .running
          rw [Function.update_self]
          exact ProcState.noConfusion
      · by_cases hm : m = mutex
        · rw [hm, Function.update_self, List.mem_cons, or_comm]
          simp
        · have hq : Queue.waitList m ≠ .waitList mutex := by simpa using hm
          rw [Function.update_of_ne hq]
          simp [hm]
      · rw [Function.update_of_ne Queue.noConfusion] at hr
        exact Or.inl hr
      · rw [Function.update_of_ne Queue.noConfusion]
        exact List.Subset.refl _

theorem mutexAcquire (h : Consistent s ps) (hrun : s.state s.current = .running)
    (hne : s.current ≠ 0) (mutex : ℕ) :
    ∃ o, s.mutexAcquire mutex = some o ∧ o.Good s ps := by
  rw [Kernel.mutexAcquire, h.defineWait hrun EntryKind.noConfusion]
  exact h.mutexAcquireLoop hrun hne mutex

theorem mutexRelease (h : Consistent s ps) (hrun : s.state s.current = .running)
    (mutex : ℕ) : ∃ o, s.mutexRelease mutex = some o ∧ o.Good s ps := by
  have hlock := h.relock mutex
  cases hps : ps (.waitList mutex) with
  | nil =>
      have hempty := (h.runQueue.queues.listEmpty_iff (.waitList mutex)).mpr hps
      refine ⟨.schedules { s with
        owner := Function.update s.owner mutex none
        holders := Function.update s.holders mutex
          ((s.holders mutex).erase s.current) }, ?_, ?_⟩
      · rw [Kernel.mutexRelease]
        simp only [Kernel.spinlockAcquire, h.lock, if_true, Option.map_some, hempty,
          Kernel.spinlockRelease, hlock]
      · exact good_schedules ⟨ps, h.withData _ _ s.pipe, progress_withData s ps _ _ _⟩
  | cons p rest =>
      have hnotempty : s.links.listEmpty (.head (.waitList mutex)) = false := by
        rw [Bool.eq_false_iff, ne_eq, h.runQueue.queues.listEmpty_iff, hps]
        exact List.cons_ne_nil p rest
      have hnext := h.runQueue.queues.next_head hps
      have hp : p ∈ ps (.waitList mutex) := by
        rw [hps]
        exact List.mem_cons_self
      refine ⟨.schedules { s.defaultWakeFn (.entry .waiter p) with
        links := (s.defaultWakeFn (.entry .waiter p)).links.listRemove (.entry .waiter p)
        owner := Function.update s.owner mutex none
        holders := Function.update s.holders mutex
          ((s.holders mutex).erase s.current) }, ?_, ?_⟩
      · rw [Kernel.mutexRelease]
        simp only [Kernel.spinlockAcquire, h.lock, if_true, Option.map_some, hnotempty,
          Bool.false_eq_true, if_false, hnext, Queue.kind, Kernel.spinlockRelease,
          Kernel.defaultWakeFn, Kernel.reschedule, Kernel.enqueue, Kernel.setState, hlock]
      · have hwake := h.wakeEntry (q := .waitList mutex) (t := {
            s.defaultWakeFn (.entry .waiter p) with
            links := (s.defaultWakeFn (.entry .waiter p)).links.listRemove (.entry .waiter p)
            owner := Function.update s.owner mutex none
            holders := Function.update s.holders mutex
              ((s.holders mutex).erase s.current) })
          hrun Queue.noConfusion hp rfl rfl rfl rfl rfl ⟨rfl, rfl, rfl, rfl⟩ rfl rfl rfl
        exact good_schedules ⟨_, hwake⟩

/-! ## §3  The keyboard pipe -/

/-- With nothing to read the caller blocks. Its entry is put on `rd_wait` only if
that list is empty. -/
theorem pipeReadLoop_empty (h : Consistent s ps) (hrun : s.state s.current = .running)
    (hne : s.current ≠ 0) {buf : ℕ → UInt8} {count : Word}
    (hread : pipeRead s.pipe buf count = none) :
    ∃ u ps', s.pipeReadLoop buf count = .deschedules u ∧ Consistent u.leaveProcessor ps' ∧
      Progress s ps u.leaveProcessor ps' ∧
      u.leaveProcessor.BlockedIn s.current (.read buf count) ∧
      (s.current ∈ ps' .rdWait ↔ s.links.listEmpty (.head .rdWait) = true) := by
  have hnb : s.state s.current ≠ .blocked := by
    rw [hrun]
    exact ProcState.noConfusion
  have hnot := h.notMem_kind hnb (show EntryKind.reader ≠ .runqueue from EntryKind.noConfusion)
  obtain ⟨links, ps', hlinks, hq, hrunq, hwait, hrd, hkeep, hiff⟩ : ∃ links ps',
      (if s.links.listEmpty (.head .rdWait) then
        { s with
          links := s.links.listAdd (.entry .reader s.current) (.head .rdWait) }
        else s) = { s with links := links } ∧
      Queues links ps' ∧ ps' .runqueue = ps .runqueue ∧
      (∀ m, ps' (.waitList m) = ps (.waitList m)) ∧
      (∀ r ∈ ps' .rdWait, r ∈ ps .rdWait ∨ r = s.current) ∧
      ps .rdWait ⊆ ps' .rdWait ∧
      (s.current ∈ ps' .rdWait ↔ s.links.listEmpty (.head .rdWait) = true) := by
    by_cases hempty : s.links.listEmpty (.head .rdWait) = true
    · refine ⟨_, _, if_pos hempty, h.runQueue.queues.add (q := .rdWait) hnot,
        Function.update_of_ne Queue.noConfusion _ _,
        fun m => Function.update_of_ne Queue.noConfusion _ _, fun r hr => ?_, ?_, ?_⟩
      · rw [Function.update_self, List.mem_cons] at hr
        exact hr.symm
      · rw [Function.update_self]
        exact List.subset_cons_self _ _
      · rw [Function.update_self]
        exact iff_of_true List.mem_cons_self hempty
    · exact ⟨_, _, if_neg hempty, h.runQueue.queues, rfl, fun _ => rfl,
        fun r hr => Or.inl hr, List.Subset.refl _, iff_of_false (hnot .rdWait rfl) hempty⟩
  have hleave := h.leaveProcessor_eq (u := { s with
    links := links
    kont := Function.update s.kont s.current (.read buf count) }) hrun hq hrunq rfl rfl
  have hblock := h.block (k := .read buf count) (t := { s with
      links := links
      kont := Function.update s.kont s.current (.read buf count)
      state := Function.update s.state s.current .blocked })
    hrun hne Kont.noConfusion hq hrunq rfl rfl rfl h.runQueue.relinked rfl h.lock
    (h.family_block hrun ⟨rfl, rfl, rfl, rfl⟩ rfl)
    ⟨h.timer.heap, h.timer.size, h.timer.armed⟩
    (fun hb => h.waits.block hb (fun m r => ?_) (fun r hr => ?_) (fun r hr => Or.inl hr)
      h.waits.nodup) hkeep (fun r hr => hr)
  · refine ⟨{ s with
      links := links
      kont := Function.update s.kont s.current (.read buf count) }, ps', ?_, ?_⟩
    · rw [Kernel.pipeReadLoop, hread]
      simp only [hlinks, Kernel.setKont]
    · rw [hleave]
      exact ⟨hblock.1, hblock.2, ⟨Function.update_self _ _ _, Function.update_self _ _ _⟩, hiff⟩
  · rw [hwait]
    simp
  · exact (hrd r hr).imp_right fun hrc => ⟨hrc, buf, count, rfl⟩

theorem pipeReadLoop (h : Consistent s ps) (hrun : s.state s.current = .running)
    (hne : s.current ≠ 0) (buf : ℕ → UInt8) (count : Word) :
    (s.pipeReadLoop buf count).Good s ps := by
  cases hread : pipeRead s.pipe buf count with
  | some r =>
      obtain ⟨r, pipe⟩ := r
      have hdata := h.withData s.owner s.holders pipe
      obtain ⟨hkont, hprog⟩ := hdata.setKont (k := .user) hrun hne Kont.noConfusion
      rw [Kernel.pipeReadLoop, hread]
      exact good_returns ⟨ps, hkont, (progress_withData s ps _ _ _).trans hprog⟩ hrun
  | none =>
      obtain ⟨u, ps', hu, hcons, hprog, -⟩ := h.pipeReadLoop_empty hrun hne hread
      rw [hu]
      exact good_deschedules ⟨ps', hcons, hprog⟩

theorem sysRead (h : Consistent s ps) (hrun : s.state s.current = .running)
    (hne : s.current ≠ 0) (buf : ℕ → UInt8) (count : Word) :
    (s.sysRead buf count).Good s ps := by
  rw [Kernel.sysRead, h.defineWait hrun EntryKind.noConfusion]
  exact h.pipeReadLoop hrun hne buf count

/-- `wake_listeners` empties `rd_wait`, in as many rounds as there are entries. -/
theorem wakeListeners (fuel : ℕ) : ∀ (s : Kernel) (ps : Queue → List ℕ), Consistent s ps →
    s.state s.current = .running → (ps .rdWait).length < fuel →
    ∃ t ps', s.wakeListeners fuel = some t ∧ Consistent t ps' ∧ Progress s ps t ps' ∧
      ps' .rdWait = [] ∧ t.state t.current = .running := by
  induction fuel with
  | zero => exact fun _ _ _ _ hlen => absurd hlen (Nat.not_lt_zero _)
  | succ fuel ih =>
      intro s ps h hrun hlen
      unfold Kernel.wakeListeners
      cases hps : ps .rdWait with
      | nil =>
          have hempty := (h.runQueue.queues.listEmpty_iff .rdWait).mpr hps
          rw [if_pos hempty]
          exact ⟨s, ps, rfl, h, Progress.refl s ps, hps, hrun⟩
      | cons p rest =>
          have hnotempty : ¬ s.links.listEmpty (.head .rdWait) = true := by
            rw [h.runQueue.queues.listEmpty_iff, hps]
            exact List.cons_ne_nil p rest
          have hnext := h.runQueue.queues.next_head hps
          have hp : p ∈ ps .rdWait := by
            rw [hps]
            exact List.mem_cons_self
          rw [if_neg hnotempty]
          simp only [hnext]
          obtain ⟨hwake, hprog⟩ := h.wakeEntry (q := .rdWait) (t := {
              s.defaultWakeFn (.entry .reader p) with
              links := (s.defaultWakeFn (.entry .reader p)).links.listRemove
                (.entry .reader p) })
            hrun Queue.noConfusion hp rfl rfl rfl rfl rfl ⟨rfl, rfl, rfl, rfl⟩ rfl rfl rfl
          have hpc : s.current ≠ p := by
            rintro rfl
            obtain ⟨_, _, hb⟩ := h.waits.reading _ hp
            exact ProcState.noConfusion (hrun.symm.trans hb.1)
          obtain ⟨t, ps', ht, hcons, hprog', hnil, hrun'⟩ := ih _ _ hwake
            ((Function.update_of_ne hpc _ _).trans hrun) (by
              rw [wakeLists_self, hps, List.erase_cons_head]
              rw [hps, List.length_cons] at hlen
              omega)
          exact ⟨t, ps', ht, hcons, hprog.trans hprog', hnil, hrun'⟩

theorem length_rdWait_le (h : Consistent s ps) :
    (ps .rdWait).length ≤ s.pidcounter + 1 := by
  have hsub : ps .rdWait ⊆ List.range (s.pidcounter + 1) := by
    intro p hp
    obtain ⟨_, _, hb⟩ := h.waits.reading p hp
    have hle := h.family.le_pidcounter (p := p) (by
      rw [hb.1]
      exact ProcState.noConfusion)
    rw [List.mem_range]
    omega
  have hle := ((h.runQueue.queues.nodup .rdWait).subperm hsub).length_le
  rwa [List.length_range] at hle

theorem keyboardEvent (h : Consistent s ps) (hrun : s.state s.current = .running)
    (c : UInt8) : ∃ t, s.keyboardEvent c = some t ∧
      ∃ ps', Consistent t ps' ∧ Progress s ps t ps' := by
  unfold Kernel.keyboardEvent
  split
  · exact ⟨s, rfl, ps, h, Progress.refl s ps⟩
  · have hlen := h.length_rdWait_le
    have hdata := h.withData s.owner s.holders (Rpos.handleKeyboardEvent s.pipe c)
    obtain ⟨t, ps', ht, hcons, hprog, -⟩ := wakeListeners (s.pidcounter + 2) _ ps hdata
      hrun (by omega)
    exact ⟨t, ht, ps', hcons, (progress_withData s ps _ _ _).trans hprog⟩

/-! ## §4  Sleeping, waiting, forking, ending -/

/-- The caller blocks. Its request is in the queue only if there was room for it. -/
theorem sysNanosleep_blocks (h : Consistent s ps) (hrun : s.state s.current = .running)
    (hne : s.current ≠ 0) (ns now : Word) :
    ∃ u, s.sysNanosleep ns now = .deschedules u ∧ Consistent u.leaveProcessor ps ∧
      Progress s ps u.leaveProcessor ps ∧
      u.leaveProcessor.BlockedIn s.current .nanosleep ∧
      (s.current ∈ u.leaveProcessor.sleepQueue.elements ↔
        s.sleepQueue.items < s.sleepQueue.size) := by
  set request := ns * clockHz / 1000000000 + now with hrequest
  set queue := pqAdd s.sleepQueue request s.current with hqueue
  have hleave := h.leaveProcessor_eq (u := (s.timerNanosleep ns now).setKont s.current
    .nanosleep) hrun h.runQueue.queues rfl rfl rfl
  have hnot : s.current ∉ s.sleepQueue.elements := by
    intro hmem
    exact ProcState.noConfusion (hrun.symm.trans (h.waits.sleeping _ hmem).1)
  -- a full queue forgets the request
  have helements : s.sleepQueue.items < s.sleepQueue.size ∧
        queue.elements = s.current ::ₘ s.sleepQueue.elements ∨
      s.sleepQueue.size ≤ s.sleepQueue.items ∧
        queue.elements = s.sleepQueue.elements := by
    rcases Nat.lt_or_ge s.sleepQueue.items s.sleepQueue.size with hroom | hfull
    · left
      have hnodes := (Pq.pqAdd_spec h.timer.heap hroom request s.current).2
      refine ⟨hroom, ?_⟩
      unfold Pq.elements
      rw [hqueue, hnodes, Multiset.map_cons]
    · right
      refine ⟨hfull, ?_⟩
      rw [hqueue, Pq.pqAdd_full hfull]
  have hsize : s.sleepQueue.size ≠ 0 := by
    rw [h.timer.size]
    decide
  have hblock := h.block (k := .nanosleep) (t := { s with
      sleepQueue := queue
      timer := some (pqPeek queue).priority
      kont := Function.update s.kont s.current .nanosleep
      state := Function.update s.state s.current .blocked })
    hrun hne Kont.noConfusion h.runQueue.queues rfl rfl rfl rfl h.runQueue.relinked rfl h.lock
    (h.family_block hrun ⟨rfl, rfl, rfl, rfl⟩ rfl)
    ⟨Pq.pqAdd_ok h.timer.heap _ _, (Pq.pqAdd_size _ _ _).trans h.timer.size, fun time => ?_⟩
    (fun hb => h.waits.block hb (fun m r => ?_) (fun r hr => Or.inl hr) (fun r hr => ?_) ?_)
    (List.Subset.refl _) ?_
  · refine ⟨_, rfl, ?_⟩
    rw [hleave]
    refine ⟨hblock.1, hblock.2, ⟨Function.update_self _ _ _, Function.update_self _ _ _⟩, ?_⟩
    show s.current ∈ queue.elements ↔ _
    rcases helements with ⟨hroom, heq⟩ | ⟨hfull, heq⟩
    · rw [heq]
      exact iff_of_true (Multiset.mem_cons_self _ _) hroom
    · rw [heq]
      exact iff_of_false hnot (by omega)
  · show some (pqPeek queue).priority = some time ↔
      queue.items ≠ 0 ∧ time = (pqPeek queue).priority
    simp [hqueue, Pq.pqAdd_items_ne hsize, eq_comm]
  · simp
  · rcases helements with ⟨-, heq⟩ | ⟨-, heq⟩
    · have hr' : r ∈ queue.elements := hr
      rw [heq, Multiset.mem_cons] at hr'
      exact hr'.symm.imp_right fun hrc => ⟨hrc, rfl⟩
    · exact Or.inl (heq ▸ hr)
  · show queue.elements.Nodup
    rcases helements with ⟨-, heq⟩ | ⟨-, heq⟩
    · rw [heq, Multiset.nodup_cons]
      exact ⟨hnot, h.waits.nodup⟩
    · rw [heq]
      exact h.waits.nodup
  · show s.sleepQueue.elements ⊆ queue.elements
    rcases helements with ⟨-, heq⟩ | ⟨-, heq⟩
    · rw [heq]
      exact Multiset.subset_cons _ _
    · exact Multiset.subset_of_le (le_of_eq heq.symm)

theorem sysNanosleep (h : Consistent s ps) (hrun : s.state s.current = .running)
    (hne : s.current ≠ 0) (ns now : Word) : (s.sysNanosleep ns now).Good s ps := by
  obtain ⟨u, hu, hcons, hprog, -⟩ := h.sysNanosleep_blocks hrun hne ns now
  rw [hu]
  exact good_deschedules ⟨ps, hcons, hprog⟩

/-- The loop of `sys_waitid`, in a state `t` in which the family is in order once
the awaited child is over, or else the current process is blocked. -/
theorem waitidLoop_good (h : Consistent s ps) (hrun : s.state s.current = .running)
    (hne : s.current ≠ 0) {child : ℕ} {w : ℕ → ℕ}
    (hover : s.state child = .terminated → Kinship { s with waitingOn := w })
    (hlive : ∀ u : Kernel, u.parent = s.parent → u.children = s.children →
      u.pidcounter = s.pidcounter → u.waitingOn = w →
      u.state = Function.update s.state s.current .blocked →
      (∀ q r, s.BlockedIn q r ∨ q = s.current ∧ r = .waitid child → u.BlockedIn q r) →
      Kinship u) :
    ({ s with waitingOn := w }.waitidLoop child).Good s ps := by
  unfold Kernel.waitidLoop
  by_cases hterm : s.state child = .terminated
  · rw [if_pos hterm]
    have hs : Consistent { s with waitingOn := w } ps :=
      ⟨h.runQueue.congr rfl rfl rfl rfl,
        h.waits.congr (fun _ _ => Iff.rfl) (fun _ _ => rfl) rfl,
        ⟨h.timer.heap, h.timer.size, h.timer.armed⟩, hover hterm, h.lock, h.idle⟩
    obtain ⟨hkont, hprog⟩ := hs.setKont (k := .user) hrun hne Kont.noConfusion
    refine good_returns ⟨ps, hkont, Progress.trans ?_ hprog⟩ hrun
    exact ⟨rfl, le_rfl, fun _ _ _ => rfl, fun _ _ hr => hr, fun _ _ hr => hr,
      fun _ _ hr => hr, fun _ _ hr _ => hr, fun _ _ hr _ => hr⟩
  · rw [if_neg hterm]
    have hleave := h.leaveProcessor_eq (u := { s with waitingOn := w }.setKont
      s.current (.waitid child)) hrun h.runQueue.queues rfl rfl rfl
    refine good_deschedules ?_
    rw [hleave]
    have hblock := h.block (k := .waitid child) (t := { s with
        waitingOn := w
        kont := Function.update s.kont s.current (.waitid child)
        state := Function.update s.state s.current .blocked })
      hrun hne Kont.noConfusion h.runQueue.queues rfl rfl rfl rfl h.runQueue.relinked rfl h.lock
      (fun hb => hlive _ rfl rfl rfl rfl rfl fun q r hqr => ?_)
      ⟨h.timer.heap, h.timer.size, h.timer.armed⟩
      (fun hb => h.waits.block hb (fun m r => ?_) (fun r hr => Or.inl hr)
        (fun r hr => Or.inl hr) h.waits.nodup) (List.Subset.refl _) (fun r hr => hr)
    · exact ⟨_, hblock⟩
    · rcases hqr with hqr | ⟨rfl, rfl⟩
      · exact hb q r hqr
      · exact ⟨Function.update_self _ _ _, Function.update_self _ _ _⟩
    · simp

theorem waitidLoop (h : Consistent s ps) (hrun : s.state s.current = .running)
    (hne : s.current ≠ 0) (child : ℕ) : (s.waitidLoop child).Good s ps := by
  refine h.waitidLoop_good (w := s.waitingOn) hrun hne (fun _ => h.family) ?_
  intro u hparent hchildren hpid hwaiting hstate hb
  exact h.family_block hrun ⟨hparent, hchildren, hwaiting, hpid⟩ hstate
    fun q r hqr => hb q r (Or.inl hqr)

theorem sysWaitid (h : Consistent s ps) (hrun : s.state s.current = .running)
    (hne : s.current ≠ 0) (pid : ℕ) : (s.sysWaitid pid).Good s ps := by
  unfold Kernel.sysWaitid
  split
  · exact good_returns ⟨ps, h, Progress.refl s ps⟩ hrun
  split
  · exact good_returns ⟨ps, h, Progress.refl s ps⟩ hrun
  rename_i child hfind
  have hmem := List.mem_of_find?_eq_some hfind
  obtain rfl : child = pid := by simpa using List.find?_some hfind
  obtain ⟨-, -, hle⟩ := h.family.children _ _ hmem
  -- in both cases `waiting_on` of the current process is the only one to change
  have hwaiting : ∀ p, Function.update s.waitingOn s.current child p ≤ s.pidcounter := by
    intro p
    by_cases hp : p = s.current
    · rw [hp, Function.update_self]
      exact hle
    · rw [Function.update_of_ne hp]
      exact h.family.waitingOn_le p
  refine h.waitidLoop_good hrun hne (fun hover => ?_) fun u hparent hchildren hpid hw hstate hb => ?_
  · refine ⟨fun q hq hlive hw => ?_, hwaiting, h.family.children, h.family.fresh,
      h.family.parent_le, h.family.pids⟩
    have hw' : Function.update s.waitingOn s.current child (s.parent q) = q := hw
    by_cases hqp : s.parent q = s.current
    · rw [hqp, Function.update_self] at hw'
      exact absurd (hw' ▸ hover) hlive
    · rw [Function.update_of_ne hqp] at hw'
      exact h.family.awaited q hq hlive hw'
  · have hterm : ∀ r, s.state r = .terminated → u.state r = .terminated := by
      intro r hr
      have hrc : r ≠ s.current := by
        rintro rfl
        exact ProcState.noConfusion (hrun.symm.trans hr)
      rw [hstate, Function.update_of_ne hrc]
      exact hr
    refine ⟨fun q hq hlive hwq => ?_, ?_, ?_, fun p hp => ?_, fun q hq => ?_, ?_⟩
    · rw [hparent] at hwq ⊢
      rw [hw] at hwq
      by_cases hqp : s.parent q = s.current
      · rw [hqp, Function.update_self] at hwq
        rw [hqp, ← hwq]
        exact hb _ _ (Or.inr ⟨rfl, rfl⟩)
      · rw [Function.update_of_ne hqp] at hwq
        exact hb _ _ (Or.inl (h.family.awaited q hq (fun hr => hlive (hterm q hr)) hwq))
    · rw [hw, hpid]
      exact hwaiting
    · rw [hchildren, hparent, hpid]
      exact h.family.children
    · exact hterm p (h.family.fresh p (hpid ▸ hp))
    · rw [hparent, hpid]
      exact h.family.parent_le q fun hr => hq (hterm q hr)
    · rw [hpid]
      exact h.family.pids

structure Forked (s t : Kernel) (n : ℕ) : Prop where
  pid : n = s.pidcounter + 1
  state : t.state = Function.update s.state n .ready
  kont : t.kont = Function.update s.kont n .user
  parent : t.parent = Function.update s.parent n s.current
  waitingOn : t.waitingOn = Function.update s.waitingOn n (s.waitingOn s.current)
  children : ∀ p, ∀ c ∈ t.children p, c = n ∧ p = s.current ∨ c ∈ s.children p
  pidcounter : t.pidcounter = n

namespace Forked

variable {n : ℕ}

theorem state_other (hf : Forked s t n) {r : ℕ} (hr : r ≠ n) : t.state r = s.state r := by
  rw [hf.state, Function.update_of_ne hr]

theorem state_self (hf : Forked s t n) : t.state n = .ready := by
  rw [hf.state, Function.update_self]

theorem kont_other (hf : Forked s t n) {r : ℕ} (hr : r ≠ n) : t.kont r = s.kont r := by
  rw [hf.kont, Function.update_of_ne hr]

theorem blockedIn (hf : Forked s t n) (hfresh : s.state n = .terminated) (r : ℕ) (k : Kont) :
    t.BlockedIn r k ↔ s.BlockedIn r k := by
  unfold Kernel.BlockedIn
  by_cases hr : r = n
  · rw [hr, hf.state_self, hfresh]
    simp
  · rw [hf.state_other hr, hf.kont_other hr]

/-- Nobody waits for the child yet, and it waits for nobody. -/
theorem kinship (hf : Forked s t n) (h : Kinship s) (hle : s.current ≤ s.pidcounter)
    (hpids : s.pidcounter + 2 < 2 ^ 32) : Kinship t := by
  have hn := hf.pid
  have hpid := hf.pidcounter
  have hb := hf.blockedIn (h.fresh n (by omega))
  have hparent : ∀ r, r ≠ n → t.parent r = s.parent r := by
    intro r hr
    rw [hf.parent, Function.update_of_ne hr]
  have hparentn : t.parent n = s.current := by
    rw [hf.parent, Function.update_self]
  have hwaiting : ∀ r, r ≠ n → t.waitingOn r = s.waitingOn r := by
    intro r hr
    rw [hf.waitingOn, Function.update_of_ne hr]
  have hlive : ∀ r, r ≠ n → t.state r ≠ .terminated → s.state r ≠ .terminated := by
    intro r hr hlive
    rwa [hf.state_other hr] at hlive
  refine ⟨fun q hq hlivet hw => ?_, fun p => ?_, fun p c hc => ?_, fun p hp => ?_,
    fun q hq => ?_, by omega⟩
  · by_cases hqn : q = n
    · rw [hqn, hparentn, hwaiting _ (by omega)] at hw
      have := h.waitingOn_le s.current
      omega
    · have hlive' := hlive q hqn hlivet
      have hple := h.parent_le q hlive'
      rw [hparent q hqn, hwaiting _ (by omega)] at hw
      rw [hparent q hqn, hb]
      exact h.awaited q hq hlive' hw
  · rw [hpid]
    by_cases hp : p = n
    · rw [hp, hf.waitingOn, Function.update_self]
      have := h.waitingOn_le s.current
      omega
    · rw [hwaiting p hp]
      have := h.waitingOn_le p
      omega
  · rcases hf.children p c hc with ⟨rfl, rfl⟩ | hc
    · exact ⟨hparentn, by omega, hpid.ge⟩
    · obtain ⟨hp, hzero, hcle⟩ := h.children p c hc
      exact ⟨(hparent c (by omega)).trans hp, hzero, by omega⟩
  · rw [hf.state_other (by omega)]
    exact h.fresh p (by omega)
  · by_cases hqn : q = n
    · rw [hqn, hparentn]
      omega
    · rw [hparent q hqn]
      have := h.parent_le q (hlive q hqn hq)
      omega

theorem progress (hf : Forked s t n) (hcur : t.current = s.current)
    (hqueue : t.sleepQueue = s.sleepQueue) (hps : ps' .rdWait = ps .rdWait) :
    Progress s ps t ps' := by
  have hn := hf.pid
  have hpid := hf.pidcounter
  refine ⟨hcur, by omega, fun p _ hp => hf.kont_other (by omega), fun p _ hp => ?_,
    fun p _ hp => ?_, fun p hp hover => ?_, fun p _ hp _ => ?_, fun p _ hp _ => ?_⟩
  · by_cases hpn : p = n
    · rw [hpn]
      exact hf.state_self
    · rw [hf.state_other hpn]
      exact hp
  · by_cases hpn : p = n
    · rw [hpn, hf.state_self] at hp
      exact ProcState.noConfusion hp
    · rw [hf.state_other hpn] at hp
      exact hp
  · rw [hf.state_other (by omega)]
    exact hover
  · rw [hps]
    exact hp
  · rw [hqueue]
    exact hp

end Forked

/-- `fork` makes a process of the first free pid, and touches neither the locks nor
the sleepers. -/
theorem sysFork_eq (h : Consistent s ps) {o : Kernel.Outcome} (ho : s.sysFork = some o) :
    s.pidcounter + 2 < 2 ^ 32 ∧ ∃ t n, o = .returns (some n) t ∧ Forked s t n ∧
      t = { t with
        links := ((s.setState n .ready).enqueue n).links
        relinked := ((s.setState n .ready).enqueue n).relinked
        current := s.current
        waitLock := s.waitLock
        sleepQueue := s.sleepQueue
        timer := s.timer } := by
  unfold Kernel.sysFork at ho
  split at ho
  swap
  · simp at ho
  rename_i hpids
  rw [Option.some.injEq] at ho
  set n := s.pidcounter + 1 with hn
  have hfresh : s.state n = .terminated := h.family.fresh n (by omega)
  have hready : s.state n ≠ .ready := by
    rw [hfresh]
    exact ProcState.noConfusion
  have hinit : s.links.initListHead (.entry .runqueue n) = s.links :=
    h.runQueue.queues.init_unlinked (h.runQueue.notMem hready)
  have hstate : ∀ x, Function.update (Function.update s.state n x) n .ready
      = Function.update s.state n .ready := fun x => Function.update_idem _ _ _
  refine ⟨hpids, { s with
      links := ((s.setState n .ready).enqueue n).links
      relinked := ((s.setState n .ready).enqueue n).relinked
      state := Function.update s.state n .ready
      parent := Function.update s.parent n s.current
      children := Function.update (Function.update s.children n []) s.current
        (n :: Function.update s.children n [] s.current)
      waitingOn := Function.update s.waitingOn n (s.waitingOn s.current)
      kont := Function.update s.kont n .user
      pidcounter := n }, n, ?_, ⟨hn, rfl, rfl, rfl, rfl, fun p c hc => ?_, rfl⟩, rfl⟩
  · rw [← ho]
    simp only [Kernel.cloneActiveProc, Kernel.addToSchedule, Kernel.setState, Kernel.enqueue,
      ← hn, hinit, hstate]
  · have hc' : c ∈ Function.update (Function.update s.children n []) s.current
      (n :: Function.update s.children n [] s.current) p := hc
    have hold : ∀ q, ∀ c ∈ Function.update s.children n [] q, c ∈ s.children q := by
      intro q c hc
      by_cases hqn : q = n
      · rw [hqn, Function.update_self] at hc
        simp at hc
      · rwa [Function.update_of_ne hqn] at hc
    by_cases hp : p = s.current
    · rw [hp, Function.update_self, List.mem_cons] at hc'
      rw [hp]
      exact hc'.imp (fun heq => ⟨heq, rfl⟩) (hold _ c)
    · rw [Function.update_of_ne hp] at hc'
      exact Or.inr (hold p c hc')

theorem sysFork (h : Consistent s ps) (hrun : s.state s.current = .running)
    {o : Kernel.Outcome} (ho : s.sysFork = some o) : o.Good s ps := by
  obtain ⟨hpids, t, n, ho', hf, ht⟩ := h.sysFork_eq ho
  have hn := hf.pid
  have hle : s.current ≤ s.pidcounter := h.family.le_pidcounter (by
    rw [hrun]
    exact ProcState.noConfusion)
  have hcn : s.current ≠ n := by omega
  have hfresh : s.state n = .terminated := h.family.fresh n (by omega)
  obtain ⟨hadd, hrelinked⟩ := h.runQueue.enqueue (p := n) (by
    rw [hfresh]
    exact ProcState.noConfusion) .ready
  have hcur : t.current = s.current := by rw [ht]
  have hqueue : t.sleepQueue = s.sleepQueue := by rw [ht]
  have htimer : t.timer = s.timer := by rw [ht]
  have hlock : t.waitLock = s.waitLock := by rw [ht]
  rw [ho']
  refine good_returns ⟨Function.update ps .runqueue (n :: ps .runqueue), ⟨?_, ?_, ?_,
    hf.kinship h.family hle hpids, hlock ▸ h.lock, fun p => ?_⟩,
    hf.progress hcur hqueue (Function.update_of_ne Queue.noConfusion _ _)⟩ ?_
  · refine h.runQueue.wake (by omega) hcn.symm ?_ (Function.update_self _ _ _) hf.state hcur ?_
    · rw [ht]
      exact hadd
    · rw [ht]
      exact hrelinked
  · exact h.waits.congr (hf.blockedIn hfresh) (fun q hq => Function.update_of_ne hq _ _) hqueue
  · refine ⟨hqueue ▸ h.timer.heap, hqueue ▸ h.timer.size, ?_⟩
    rw [hqueue, htimer]
    exact h.timer.armed
  · by_cases hp : p = n
    · rw [hp, hf.kont, Function.update_self]
      exact iff_of_false Kont.noConfusion (by omega)
    · rw [hf.kont_other hp]
      exact h.idle p
  · rw [hcur, hf.state_other hcn]
    exact hrun

theorem exit (h : Consistent s ps) (hrun : s.state s.current = .running)
    (hne : s.current ≠ 0) :
    Consistent ((s.setState s.current .terminated).setKont s.current .exited) ps ∧
      Progress s ps ((s.setState s.current .terminated).setKont s.current .exited) ps := by
  set t := (s.setState s.current .terminated).setKont s.current .exited with ht
  have hself : t.state s.current = .terminated := Function.update_self _ _ _
  have hother : ∀ r, r ≠ s.current → t.state r = s.state r :=
    fun r hr => Function.update_of_ne hr _ _
  have hkont : ∀ r, r ≠ s.current → t.kont r = s.kont r :=
    fun r hr => Function.update_of_ne hr _ _
  have hb : ∀ r k, t.BlockedIn r k ↔ s.BlockedIn r k := by
    intro r k
    unfold Kernel.BlockedIn
    by_cases hr : r = s.current
    · rw [hr, hself, hrun]
      simp
    · rw [hother r hr, hkont r hr]
  have hterm : ∀ r, s.state r = .terminated → t.state r = .terminated := by
    intro r hr
    by_cases hrc : r = s.current
    · rw [hrc]
      exact hself
    · rw [hother r hrc]
      exact hr
  refine ⟨⟨h.runQueue.leave hne (Or.inr rfl) h.runQueue.queues rfl rfl rfl h.runQueue.relinked,
    h.waits.congr hb (fun _ _ => rfl) rfl, ⟨h.timer.heap, h.timer.size, h.timer.armed⟩,
    h.family.mono ⟨rfl, rfl, rfl, rfl⟩ hterm (fun q _ hq => (hb _ _).mpr hq), h.lock,
    fun r => ?_⟩,
    ⟨rfl, le_rfl, fun r hr _ => hkont r hr, fun r hr hready => (hother r hr).trans hready,
      fun r hr hblocked => (hother r hr).symm.trans hblocked, fun r _ hr => hterm r hr,
      fun _ _ hr _ => hr, fun _ _ hr _ => hr⟩⟩
  by_cases hr : r = s.current
  · have hkr : t.kont r = .exited := by
      rw [hr]
      exact Function.update_self _ _ _
    rw [hkr, hr]
    exact iff_of_false Kont.noConfusion hne
  · rw [hkont r hr]
    exact h.idle r

/-- The parent that is made ready by `reap` is blocked in `sys_waitid`. -/
theorem reap (h : Consistent s ps) (hrun : s.state s.current = .running)
    (hne : s.current ≠ 0) : s.reap.Good s ps := by
  obtain ⟨hexit, hprog⟩ := h.exit hrun hne
  have hlive : s.state s.current ≠ .terminated := by
    rw [hrun]
    exact ProcState.noConfusion
  have hle : s.waitingOn (s.parent s.current) ≤ s.pidcounter := h.family.waitingOn_le _
  have hpids := h.family.pids
  by_cases hwait : s.waitingOn (s.parent s.current) = s.current
  · have hblocked := h.family.awaited s.current hne hlive hwait
    set p := s.parent s.current with hp
    have hpc : p ≠ s.current := by
      intro heq
      rw [heq] at hblocked
      exact ProcState.noConfusion (hrun.symm.trans hblocked.1)
    have hb : ((s.setState s.current .terminated).setKont s.current .exited).BlockedIn p
        (.waitid s.current) :=
      ⟨(Function.update_of_ne hpc _ _).trans hblocked.1,
        (Function.update_of_ne hpc _ _).trans hblocked.2⟩
    have hready : ((s.setState s.current .terminated).setKont s.current .exited).state p
        ≠ .ready := by
      rw [hb.1]
      exact ProcState.noConfusion
    obtain ⟨hadd, hrelinked⟩ := hexit.runQueue.enqueue hready .ready
    have hreap : s.reap = .schedules
        ((((s.setState s.current .terminated).setKont s.current .exited).setState p
          .ready).enqueue p) := by
      unfold Kernel.reap
      have hif : (s.setState s.current .terminated).waitingOn p = s.current ∨
          (s.setState s.current .terminated).waitingOn p = waitingAll := Or.inl hwait
      simp only
      rw [if_pos]
      · rfl
      · exact hif
    rw [hreap]
    have hwake := hexit.wake hb.1 hpc (fun q hq hk => ?_) hadd (Function.update_self _ _ _)
      (fun q hq r => ?_) rfl rfl rfl hrelinked ⟨rfl, rfl, rfl, rfl⟩ rfl
      ⟨h.timer.heap, h.timer.size, h.timer.armed⟩ (fun r => ⟨fun hr => ⟨hr, ?_⟩, And.left⟩)
      h.waits.nodup
    · exact good_schedules ⟨_, hwake.1, hprog.trans hwake.2⟩
    · have hqc : Kont.waitid s.current = .waitid q := hb.2.symm.trans hk
      rw [Kont.waitid.injEq] at hqc
      rw [← hqc] at hq
      exact hq (Function.update_self _ _ _)
    · rw [Function.update_of_ne hq]
      refine ⟨fun hr => ⟨hr, ?_⟩, And.left⟩
      rintro rfl
      exact hexit.waits.notMem_of_unlisted hb (fun _ => Kont.noConfusion)
        (fun _ _ => Kont.noConfusion) hq hr
    · rintro rfl
      exact hexit.waits.notMem_elements hb Kont.noConfusion hr
  · have hall : s.waitingOn (s.parent s.current) ≠ waitingAll := by
      unfold waitingAll
      omega
    have hreap : s.reap = .schedules
        ((s.setState s.current .terminated).setKont s.current .exited) := by
      unfold Kernel.reap
      have hif : ¬ ((s.setState s.current .terminated).waitingOn (s.parent s.current)
          = s.current ∨ (s.setState s.current .terminated).waitingOn (s.parent s.current)
          = waitingAll) := not_or.mpr ⟨hwait, hall⟩
      simp only
      rw [if_neg]
      exact hif
    rw [hreap]
    exact good_schedules ⟨ps, hexit, hprog⟩

end Consistent

end Rpos
