import Rpos.System.KernelRun

/-!
# Waiting for a child

A process that is blocked in `sys_waitid` waits for a child of its own, and is woken by the end
of that child and by nothing else.
-/

namespace Rpos

open Base Kernel.Outcome

/-! ## §1  What a call does to the families -/

/-- Whatever has a value that the update does not give has had it before. -/
theorem ne_and_eq_of_update {α β : Type} [DecidableEq α] {f : α → β} {a b : α} {v w : β}
    (h : Function.update f a v b = w) (hv : v ≠ w) : b ≠ a ∧ f b = w := by
  by_cases hb : b = a
  · rw [hb, Function.update_self] at h
    exact absurd h hv
  · rw [Function.update_of_ne hb] at h
    exact ⟨hb, h⟩

namespace Kernel

/-- Nobody has ended, and parents and children are as before. -/
structure SparesFamilies (s t : Kernel) : Prop where
  family : SameKinship s t
  terminated : ∀ q, t.state q = .terminated → s.state q = .terminated

/-- Nor has the current process gone into `sys_waitid`, or anybody left it. -/
structure Quiet (s t : Kernel) : Prop extends SparesFamilies s t where
  kont : ∀ p c, t.kont p = .waitid c → s.kont p = .waitid c ∧ p ≠ s.current

variable {s t u : Kernel} {e : KernelEvent} {o : Outcome}

theorem SparesFamilies.refl (s : Kernel) : SparesFamilies s s :=
  ⟨⟨rfl, rfl, rfl, rfl⟩, fun _ h => h⟩

theorem SparesFamilies.trans (h : SparesFamilies s t) (h' : SparesFamilies t u) :
    SparesFamilies s u := by
  obtain ⟨⟨hparent, hchildren, hwaiting, hpid⟩, hterm⟩ := h
  obtain ⟨⟨hparent', hchildren', hwaiting', hpid'⟩, hterm'⟩ := h'
  exact ⟨⟨hparent'.trans hparent, hchildren'.trans hchildren, hwaiting'.trans hwaiting,
    hpid'.trans hpid⟩, fun q hq => hterm q (hterm' q hq)⟩

theorem setState_spares (s : Kernel) (p : ℕ) {x : ProcState} (hx : x ≠ .terminated) :
    SparesFamilies s (s.setState p x) := by
  refine ⟨⟨rfl, rfl, rfl, rfl⟩, fun q hq => ?_⟩
  have hstate : Function.update s.state p x q = .terminated := hq
  exact (ne_and_eq_of_update hstate hx).2

theorem reschedule_spares (s : Kernel) (p : ℕ) : SparesFamilies s (s.reschedule p) :=
  (s.setState_spares p ProcState.noConfusion).trans ⟨⟨rfl, rfl, rfl, rfl⟩, fun _ h => h⟩

theorem leaveProcessor_spares (s : Kernel) : SparesFamilies s s.leaveProcessor := by
  unfold leaveProcessor
  split
  · exact (s.setState_spares s.current ProcState.noConfusion).trans
      ⟨⟨rfl, rfl, rfl, rfl⟩, fun _ h => h⟩
  · exact .refl s

theorem wakeListeners_spares (fuel : ℕ) : ∀ s t : Kernel, s.wakeListeners fuel = some t →
    SparesFamilies s t := by
  induction fuel with
  | zero => exact fun _ _ h => absurd h.symm (Option.some_ne_none _)
  | succ fuel ih =>
    intro s t h
    unfold wakeListeners at h
    split at h
    · exact Option.some.inj h ▸ .refl s
    · have hwake := s.reschedule_spares (s.links.next (.head .rdWait)).proc
      refine SparesFamilies.trans ?_ (ih _ t h)
      exact ⟨⟨rfl, rfl, rfl, rfl⟩, hwake.terminated⟩

theorem interrupt_spares (ho : s.interrupt e = some o) : SparesFamilies s o.stop := by
  cases e with
  | tick => exact Option.some.inj ho ▸ .refl s
  | virtualTimer =>
    rw [interrupt] at ho
    split at ho
    · obtain rfl := Option.some.inj ho
      exact ⟨⟨rfl, rfl, rfl, rfl⟩, (s.reschedule_spares (pqPop s.sleepQueue).1.element).terminated⟩
    · exact absurd ho.symm (Option.some_ne_none _)
  | key c =>
    obtain ⟨t, ht, rfl⟩ := Option.map_eq_some_iff.mp ho
    unfold keyboardEvent at ht
    split at ht
    · exact Option.some.inj ht ▸ .refl s
    · refine SparesFamilies.trans ?_ (wakeListeners_spares _ _ _ ht)
      exact ⟨⟨rfl, rfl, rfl, rfl⟩, fun _ h => h⟩
  | _ => exact absurd ho.symm (Option.some_ne_none _)

theorem mutexAcquireLoop_spares {m : ℕ} (ho : s.mutexAcquireLoop m = some o) :
    SparesFamilies s o.stop := by
  unfold mutexAcquireLoop spinlockAcquire at ho
  dsimp only at ho
  split at ho
  · obtain rfl := Option.some.inj ho
    exact ⟨⟨rfl, rfl, rfl, rfl⟩, fun _ h => h⟩
  split at ho
  · obtain rfl := Option.some.inj ho
    refine SparesFamilies.trans ?_ (leaveProcessor_spares _)
    have hblock := s.setState_spares s.current (x := .blocked) ProcState.noConfusion
    split <;> exact ⟨⟨rfl, rfl, rfl, rfl⟩, hblock.terminated⟩
  · exact absurd ho.symm (Option.some_ne_none _)

theorem mutexRelease_spares {m : ℕ} (ho : s.mutexRelease m = some o) : SparesFamilies s o.stop := by
  unfold mutexRelease spinlockAcquire at ho
  dsimp only at ho
  split at ho
  · obtain rfl := Option.some.inj ho
    show SparesFamilies s (spinlockRelease _ m)
    split
    · exact ⟨⟨rfl, rfl, rfl, rfl⟩, fun _ h => h⟩
    · have hwake := s.reschedule_spares (s.links.next (.head (.waitList m))).proc
      exact ⟨⟨rfl, rfl, rfl, rfl⟩, hwake.terminated⟩
  · exact absurd ho.symm (Option.some_ne_none _)

theorem pipeReadLoop_spares (s : Kernel) (buf : ℕ → UInt8) (count : Word) :
    SparesFamilies s (s.pipeReadLoop buf count).stop := by
  unfold pipeReadLoop
  split
  · refine SparesFamilies.trans ?_ (leaveProcessor_spares _)
    split <;> exact ⟨⟨rfl, rfl, rfl, rfl⟩, fun _ h => h⟩
  · exact ⟨⟨rfl, rfl, rfl, rfl⟩, fun _ h => h⟩

theorem SparesFamilies.quiet (h : SparesFamilies s t) {k : Kont}
    (hkont : t.kont = Function.update s.kont s.current k) (hk : ∀ c, k ≠ .waitid c) :
    Quiet s t := by
  refine ⟨h, fun p c hp => ?_⟩
  rw [hkont] at hp
  exact (ne_and_eq_of_update hp (hk c)).symm

theorem SparesFamilies.quiet_same (h : SparesFamilies s t) (hkont : t.kont = s.kont)
    (hk : ∀ c, s.kont s.current ≠ .waitid c) : Quiet s t :=
  h.quiet (hkont.trans (Function.update_eq_self s.current s.kont).symm) hk

theorem Quiet.after (h : Quiet t u) (hspares : SparesFamilies s t) (hkont : t.kont = s.kont)
    (hcurrent : t.current = s.current) : Quiet s u := by
  refine ⟨hspares.trans h.toSparesFamilies, fun p c hp => ?_⟩
  rw [← hkont, ← hcurrent]
  exact h.kont p c hp

theorem mutexAcquireLoop_quiet {m : ℕ} (ho : s.mutexAcquireLoop m = some o) :
    Quiet s o.stop := by
  have hspares := mutexAcquireLoop_spares ho
  unfold mutexAcquireLoop at ho
  dsimp only at ho
  split at ho
  · obtain rfl := Option.some.inj ho
    exact hspares.quiet (k := .user) rfl fun _ => Kont.noConfusion
  · obtain ⟨s', hs', rfl⟩ := Option.map_eq_some_iff.mp ho
    refine hspares.quiet (k := .acquire m) ?_ fun _ => Kont.noConfusion
    unfold spinlockAcquire at hs'
    split at hs'
    · obtain rfl := Option.some.inj hs'
      refine (leaveProcessor_kont _).trans ?_
      split <;> rfl
    · exact absurd hs'.symm (Option.some_ne_none _)

theorem pipeReadLoop_quiet (s : Kernel) (buf : ℕ → UInt8) (count : Word) :
    Quiet s (s.pipeReadLoop buf count).stop := by
  have hspares := s.pipeReadLoop_spares buf count
  unfold pipeReadLoop at hspares ⊢
  split at hspares
  · refine hspares.quiet (k := .read buf count) ?_ fun _ => Kont.noConfusion
    refine (leaveProcessor_kont _).trans ?_
    split <;> rfl
  · exact hspares.quiet (k := .user) rfl fun _ => Kont.noConfusion

inductive FamilyStep (s : Kernel) : KernelEvent → Outcome → Prop
  | quiet {e : KernelEvent} {o : Outcome} : Quiet s o.stop → FamilyStep s e o
  | fork {n : ℕ} {t : Kernel} : Consistent.Forked s t n → n ∈ t.children s.current →
      (∀ p c, p ≠ n → c ∈ s.children p → c ∈ t.children p) →
      FamilyStep s .fork (.returns (some n) t)
  | exit : FamilyStep s .exit s.reap
  /-- A round of the loop of `sys_waitid`. -/
  | waitid {e : KernelEvent} {child : ℕ} : child ∈ s.children s.current →
      FamilyStep s e
        ({ s with waitingOn := Function.update s.waitingOn s.current child }.waitidLoop child)

/-- `fork` adds the child to the children of the current process. -/
theorem sysFork_family {ps : Queue → List ℕ} (h : Consistent s ps)
    (ho : s.sysFork = some o) (hlive : s.state s.current ≠ .terminated) :
    FamilyStep s .fork o := by
  obtain ⟨-, t, n, rfl, hf, -⟩ := h.sysFork_eq ho
  have hle := h.family.le_pidcounter hlive
  have hne : s.current ≠ n := by
    have hpid := hf.pid
    omega
  have hchildren : t.children = Function.update (Function.update s.children n []) s.current
      (n :: s.children s.current) := by
    unfold sysFork at ho
    split at ho
    · have ht := (Outcome.returns.inj (Option.some.inj ho)).2
      have hpid := hf.pid
      rw [← ht, hpid]
      show Function.update (Function.update s.children (s.pidcounter + 1) []) s.current
        ((s.pidcounter + 1) :: Function.update s.children (s.pidcounter + 1) [] s.current) = _
      rw [Function.update_of_ne (hpid ▸ hne)]
    · exact absurd ho.symm (Option.some_ne_none _)
  refine .fork hf ?_ fun p c hp hc => ?_
  · rw [hchildren, Function.update_self]
    exact List.mem_cons_self
  · rw [hchildren]
    by_cases hpc : p = s.current
    · rw [hpc, Function.update_self]
      exact List.mem_cons_of_mem n (hpc ▸ hc)
    · rwa [Function.update_of_ne hpc, Function.update_of_ne hp]

theorem sysWaitid_family (pid : ℕ) (huser : s.kont s.current = .user) :
    FamilyStep s (.waitid pid) (s.sysWaitid pid) := by
  have hquiet : Quiet s s := (SparesFamilies.refl s).quiet_same rfl fun c hc => by
    rw [huser] at hc
    exact Kont.noConfusion hc
  unfold sysWaitid
  split
  · exact .quiet hquiet
  split
  · exact .quiet hquiet
  · rename_i child hfind
    have hmem := List.mem_of_find?_eq_some hfind
    obtain rfl : child = pid := by simpa using List.find?_some hfind
    exact .waitid hmem

/-- The loop of `sys_waitid` goes on with the child that it has been waiting for. -/
theorem waitidLoop_family {child : ℕ} (hmem : child ∈ s.children s.current)
    (hwaiting : s.waitingOn s.current = child) : FamilyStep s e (s.waitidLoop child) := by
  have hsame : Function.update s.waitingOn s.current child = s.waitingOn :=
    Function.update_eq_self_iff.mpr hwaiting.symm
  have hstep : FamilyStep s e
      ({ s with waitingOn := Function.update s.waitingOn s.current child }.waitidLoop child) :=
    .waitid hmem
  rwa [hsame] at hstep

theorem syscall_family {ps : Queue → List ℕ} (h : Consistent s ps)
    (hrun : s.state s.current = .running) (huser : s.kont s.current = .user)
    (ho : s.syscall e = some o) : FamilyStep s e o := by
  have hnot : ∀ c, s.kont s.current ≠ .waitid c := fun c hc => by
    rw [huser] at hc
    exact Kont.noConfusion hc
  have hinterrupt : s.interrupt e = some o → FamilyStep s e o := fun ho =>
    .quiet ((interrupt_spares ho).quiet_same (interrupt_kont ho) hnot)
  cases e with
  | fork =>
    apply sysFork_family h ho
    rw [hrun]
    exact ProcState.noConfusion
  | exit => exact Option.some.inj ho ▸ .exit
  | waitid pid => exact Option.some.inj ho ▸ sysWaitid_family pid huser
  | nanosleep ns now =>
    obtain rfl := Option.some.inj ho
    have hspares : SparesFamilies s (sysNanosleep s ns now).stop := by
      refine SparesFamilies.trans ?_ (leaveProcessor_spares _)
      exact ⟨⟨rfl, rfl, rfl, rfl⟩, fun _ h => h⟩
    exact .quiet (hspares.quiet (leaveProcessor_kont _) fun _ => Kont.noConfusion)
  | acquire m =>
    exact .quiet ((mutexAcquireLoop_quiet ho).after ⟨⟨rfl, rfl, rfl, rfl⟩, fun _ h => h⟩ rfl rfl)
  | release m =>
    rw [syscall] at ho
    split at ho
    · exact .quiet ((mutexRelease_spares ho).quiet_same (mutexRelease_kont ho) hnot)
    · exact absurd ho.symm (Option.some_ne_none _)
  | read buf count =>
    obtain rfl := Option.some.inj ho
    have hread := pipeReadLoop_quiet (s.defineWait .reader) buf count
    exact .quiet (hread.after ⟨⟨rfl, rfl, rfl, rfl⟩, fun _ h => h⟩ rfl rfl)
  | tick => exact hinterrupt ho
  | virtualTimer => exact hinterrupt ho
  | key c => exact hinterrupt ho
  | resume => exact hinterrupt ho

end Kernel

/-! ## §2  The invariant -/

/-- Whoever is in `sys_waitid` is waiting for a child of its own, and while it is blocked that
child is not over. Every process but the first two is among the children of its parent. -/
structure Awaiting (s : Kernel) : Prop where
  waitid : ∀ p c, s.kont p = .waitid c → c ∈ s.children p ∧ s.waitingOn p = c
  alive : ∀ p c, s.kont p = .waitid c → s.state p ≠ .terminated
  blocked : ∀ p c, s.BlockedIn p (.waitid c) → s.state c ≠ .terminated
  born : ∀ c, 2 < c → c ≤ s.pidcounter → c ∈ s.children (s.parent c)
  parent_le : ∀ c, s.parent c ≤ s.pidcounter

section Calls

open Kernel

variable {s t : Kernel} {ps ps' : Queue → List ℕ} {e : KernelEvent} {o : Outcome}

theorem boot_awaiting (buf : Word) (page : ℕ → UInt8) : Awaiting (Kernel.boot buf page) := by
  have hkont : ∀ p c, (Kernel.boot buf page).kont p ≠ .waitid c := by
    intro p c
    show Function.update (fun _ => Kont.user) idleProc .idle p ≠ _
    by_cases hp : p = idleProc
    · rw [hp, Function.update_self]
      exact Kont.noConfusion
    · rw [Function.update_of_ne hp]
      exact Kont.noConfusion
  refine ⟨fun p c hp => absurd hp (hkont p c), fun p c hp => absurd hp (hkont p c),
    fun p c hp => absurd hp.2 (hkont p c), fun c hc hle => ?_, fun c => ?_⟩
  · have hpid : c ≤ 2 := hle
    omega
  · show Function.update (fun _ => idleProc) 2 idleProc c ≤ 2
    by_cases hc : c = 2
    · rw [hc, Function.update_self]
      decide
    · rw [Function.update_of_ne hc]
      decide

/-- A process in `sys_waitid` is blocked until its child is over. -/
theorem Awaiting.blockedIn (h : Awaiting s) (hc : Consistent s ps) {p c : ℕ}
    (hp : s.kont p = .waitid c) (hlive : s.state c ≠ .terminated) : s.BlockedIn p (.waitid c) := by
  obtain ⟨hmem, hwaiting⟩ := h.waitid p c hp
  obtain ⟨rfl, hne, -⟩ := hc.family.children p c hmem
  exact hc.family.awaited c hne hlive hwaiting

theorem Awaiting.quiet (h : Awaiting s) (hprog : Progress s ps t ps') (hq : Quiet s t) :
    Awaiting t := by
  obtain ⟨⟨hparent, hchildren, hwaiting, hpid⟩, hterm⟩ := hq.toSparesFamilies
  refine ⟨fun p c hp => ?_, fun p c hp => ?_, fun p c hp => ?_, ?_, ?_⟩
  · rw [hchildren, hwaiting]
    exact h.waitid p c (hq.kont p c hp).1
  · exact fun hover => h.alive p c (hq.kont p c hp).1 (hterm p hover)
  · obtain ⟨hkont, hne⟩ := hq.kont p c hp.2
    exact fun hover => h.blocked p c ⟨hprog.blocked p hne hp.1, hkont⟩ (hterm c hover)
  · rw [hpid, hchildren, hparent]
    exact h.born
  · rw [hpid, hparent]
    exact h.parent_le

theorem Awaiting.fork (h : Awaiting s) (hc : Consistent s ps)
    (hlive : s.state s.current ≠ .terminated) {n : ℕ} (hf : Consistent.Forked s t n)
    (hchild : n ∈ t.children s.current)
    (hgrows : ∀ p c, p ≠ n → c ∈ s.children p → c ∈ t.children p) : Awaiting t := by
  have hn := hf.pid
  have hle := hc.family.le_pidcounter hlive
  have hkont : ∀ p c, t.kont p = .waitid c → p ≠ n ∧ s.kont p = .waitid c := by
    intro p c hp
    rw [hf.kont] at hp
    exact ne_and_eq_of_update hp Kont.noConfusion
  have hterm : ∀ q, t.state q = .terminated → s.state q = .terminated := by
    intro q hq
    rw [hf.state] at hq
    exact (ne_and_eq_of_update hq ProcState.noConfusion).2
  refine ⟨fun p c hp => ?_, fun p c hp => ?_, fun p c hp => ?_, fun c htwo hc' => ?_, fun c => ?_⟩
  · obtain ⟨hpn, hp⟩ := hkont p c hp
    obtain ⟨hmem, hwaiting⟩ := h.waitid p c hp
    rw [hf.waitingOn, Function.update_of_ne hpn]
    exact ⟨hgrows p c hpn hmem, hwaiting⟩
  · exact fun hover => h.alive p c (hkont p c hp).2 (hterm p hover)
  · have hb := (hf.blockedIn (hc.family.fresh n (by omega)) p (.waitid c)).mp hp
    exact fun hover => h.blocked p c hb (hterm c hover)
  · rw [hf.pidcounter] at hc'
    rw [hf.parent]
    by_cases hcn : c = n
    · rw [hcn, Function.update_self]
      exact hchild
    · rw [Function.update_of_ne hcn]
      have hparent := h.parent_le c
      exact hgrows _ c (by omega) (h.born c htwo (by omega))
  · rw [hf.pidcounter, hf.parent]
    by_cases hcn : c = n
    · rw [hcn, Function.update_self]
      omega
    · rw [Function.update_of_ne hcn]
      have hparent := h.parent_le c
      omega

/-- What `reap` changes: the current process is over, and a parent that waits for it is ready. -/
theorem reap_stop (s : Kernel) :
    SameKinship s s.reap.stop ∧ s.reap.stop.kont = Function.update s.kont s.current .exited ∧
      (∀ q, s.reap.stop.state q = .terminated → q = s.current ∨ s.state q = .terminated) ∧
      (s.waitingOn (s.parent s.current) = s.current →
        s.reap.stop.state (s.parent s.current) = .ready) := by
  have hover : ∀ q, (s.setState s.current .terminated).state q = .terminated →
      q = s.current ∨ s.state q = .terminated := by
    intro q hq
    by_cases hqc : q = s.current
    · exact Or.inl hqc
    · exact Or.inr ((Function.update_of_ne hqc _ _).symm.trans hq)
  unfold Kernel.reap
  dsimp only [Outcome.stop]
  split
  · have hwake := (s.setState s.current .terminated).reschedule_spares (s.parent s.current)
    exact ⟨⟨rfl, rfl, rfl, rfl⟩, rfl, fun q hq => hover q (hwake.terminated q hq),
      fun _ => Function.update_self _ _ _⟩
  · rename_i hnot
    exact ⟨⟨rfl, rfl, rfl, rfl⟩, rfl, hover, fun hwait => absurd (Or.inl hwait) hnot⟩

theorem Awaiting.exit (h : Awaiting s) (hc : Consistent s ps)
    (hprog : Progress s ps s.reap.stop ps') : Awaiting s.reap.stop := by
  obtain ⟨⟨hparent, hchildren, hwaiting, hpid⟩, hkont, hover, hwakes⟩ := reap_stop s
  have hother : ∀ p c, s.reap.stop.kont p = .waitid c → p ≠ s.current ∧ s.kont p = .waitid c := by
    intro p c hp
    rw [hkont] at hp
    exact ne_and_eq_of_update hp Kont.noConfusion
  refine ⟨fun p c hp => ?_, fun p c hp hterm => ?_, fun p c hp hterm => ?_, ?_, ?_⟩
  · rw [hchildren, hwaiting]
    exact h.waitid p c (hother p c hp).2
  · obtain ⟨hne, hp⟩ := hother p c hp
    exact h.alive p c hp ((hover p hterm).resolve_left hne)
  · obtain ⟨hne, hp'⟩ := hother p c hp.2
    rcases hover c hterm with rfl | hterm
    · -- the awaited child is the one that ends
      obtain ⟨hmem, hwait⟩ := h.waitid p s.current hp'
      obtain ⟨hp'', -, -⟩ := hc.family.children p s.current hmem
      rw [← hp''] at hwait hp
      exact ProcState.noConfusion ((hwakes hwait).symm.trans hp.1)
    · exact h.blocked p c ⟨hprog.blocked p hne hp.1, hp'⟩ hterm
  · rw [hpid, hchildren, hparent]
    exact h.born
  · rw [hpid, hparent]
    exact h.parent_le

theorem leaveProcessor_running (h : s.state s.current = .running) :
    s.leaveProcessor = (s.setState s.current .blocked).dequeue s.current := if_pos h

/-- A round of the loop blocks the process, if the child is not over. -/
theorem Awaiting.waitidLoop (h : Awaiting s) (hrun : s.state s.current = .running) {child : ℕ}
    (hmem : child ∈ s.children s.current) :
    Awaiting ({ s with waitingOn := Function.update s.waitingOn s.current child }.waitidLoop
      child).stop := by
  have hwaiting : ∀ p, p ≠ s.current → Function.update s.waitingOn s.current child p =
      s.waitingOn p := fun p hp => Function.update_of_ne hp _ _
  unfold Kernel.waitidLoop
  split
  · have hother : ∀ p c, Function.update s.kont s.current .user p = .waitid c →
        p ≠ s.current ∧ s.kont p = .waitid c :=
      fun p c hp => ne_and_eq_of_update hp Kont.noConfusion
    refine ⟨fun p c hp => ?_, fun p c hp => ?_, fun p c hp => ?_, h.born, h.parent_le⟩
    · obtain ⟨hne, hp⟩ := hother p c hp
      obtain ⟨hmem', hwait⟩ := h.waitid p c hp
      exact ⟨hmem', (hwaiting p hne).trans hwait⟩
    · exact h.alive p c (hother p c hp).2
    · exact h.blocked p c ⟨hp.1, (hother p c hp.2).2⟩
  · rename_i hlive
    have hlive' : s.state child ≠ .terminated := hlive
    have hstate : ∀ q, Function.update s.state s.current .blocked q = .terminated →
        q ≠ s.current ∧ s.state q = .terminated :=
      fun q hq => ne_and_eq_of_update hq ProcState.noConfusion
    have hkont : ∀ p c, Function.update s.kont s.current (.waitid child) p = .waitid c →
        (p = s.current ∧ c = child) ∨ (p ≠ s.current ∧ s.kont p = .waitid c) := by
      intro p c hp
      by_cases hpc : p = s.current
      · rw [hpc, Function.update_self] at hp
        exact Or.inl ⟨hpc, (Kont.waitid.inj hp).symm⟩
      · rw [Function.update_of_ne hpc] at hp
        exact Or.inr ⟨hpc, hp⟩
    have hleave := leaveProcessor_running (s := { s with
      waitingOn := Function.update s.waitingOn s.current child }.setKont s.current (.waitid child))
      hrun
    dsimp only [Outcome.stop]
    rw [hleave]
    refine ⟨fun p c hp => ?_, fun p c hp hover => ?_, fun p c hp hover => ?_, h.born, h.parent_le⟩
    · rcases hkont p c hp with ⟨rfl, rfl⟩ | ⟨hne, hp⟩
      · exact ⟨hmem, Function.update_self _ _ _⟩
      · obtain ⟨hmem', hwait⟩ := h.waitid p c hp
        exact ⟨hmem', (hwaiting p hne).trans hwait⟩
    · obtain ⟨hne, hover⟩ := hstate p hover
      rcases hkont p c hp with ⟨rfl, rfl⟩ | ⟨-, hp⟩
      · exact hne rfl
      · exact h.alive p c hp hover
    · obtain ⟨-, hterm⟩ := hstate c hover
      rcases hkont p c hp.2 with ⟨rfl, rfl⟩ | ⟨hne, hp'⟩
      · exact hlive' hterm
      · exact h.blocked p c ⟨(Function.update_of_ne hne _ _).symm.trans hp.1, hp'⟩ hterm

theorem run_family (h : Awaiting s) (hc : Consistent s ps) (hrun : s.state s.current = .running)
    (ho : s.run e = some o) : FamilyStep s e o := by
  unfold Kernel.run at ho
  split at ho
  · rename_i huser
    exact syscall_family hc hrun huser ho
  · rename_i hidle
    apply FamilyStep.quiet
    apply (interrupt_spares ho).quiet_same (interrupt_kont ho)
    intro c hk
    rw [hidle] at hk
    exact Kont.noConfusion hk
  · split at ho
    · cases hk : s.kont s.current with
      | acquire m =>
        rw [hk] at ho
        exact .quiet (mutexAcquireLoop_quiet ho)
      | read buf count =>
        rw [hk] at ho
        exact Option.some.inj ho ▸ .quiet (pipeReadLoop_quiet s buf count)
      | waitid child =>
        obtain ⟨hmem, hwaiting⟩ := h.waitid s.current child hk
        rw [hk] at ho
        exact Option.some.inj ho ▸ waitidLoop_family hmem hwaiting
      | nanosleep =>
        rw [hk] at ho
        obtain rfl := Option.some.inj ho
        have hspares : SparesFamilies s (s.setKont s.current .user) :=
          ⟨⟨rfl, rfl, rfl, rfl⟩, fun _ h => h⟩
        exact .quiet (hspares.quiet rfl fun _ => Kont.noConfusion)
      | user => rw [hk] at ho; exact absurd ho.symm (Option.some_ne_none _)
      | idle => rw [hk] at ho; exact absurd ho.symm (Option.some_ne_none _)
      | exited => rw [hk] at ho; exact absurd ho.symm (Option.some_ne_none _)
    · exact absurd ho.symm (Option.some_ne_none _)

theorem Awaiting.run (h : Awaiting s) (hc : Consistent s ps) (hrun : s.state s.current = .running)
    (ho : s.run e = some o) (hprog : Progress s ps o.stop ps') : Awaiting o.stop := by
  have hlive : s.state s.current ≠ .terminated := by
    rw [hrun]
    exact ProcState.noConfusion
  cases run_family h hc hrun ho with
  | quiet hq => exact h.quiet hprog hq
  | fork hf hchild hgrows => exact h.fork hc hlive hf hchild hgrows
  | exit => exact h.exit hc hprog
  | waitid hmem => exact h.waitidLoop hrun hmem

theorem Awaiting.switched (h : Awaiting s) (hsw : Switched s t) : Awaiting t := by
  have hkont : t.kont = s.kont := by rw [hsw.same]
  have hchildren : t.children = s.children := by rw [hsw.same]
  have hwaiting : t.waitingOn = s.waitingOn := by rw [hsw.same]
  have hparent : t.parent = s.parent := by rw [hsw.same]
  have hpid : t.pidcounter = s.pidcounter := by rw [hsw.same]
  refine ⟨fun p c hp => ?_, fun p c hp => ?_, fun p c hp => ?_, ?_, ?_⟩
  · rw [hchildren, hwaiting]
    exact h.waitid p c (hkont ▸ hp)
  · rw [ne_eq, hsw.terminated]
    exact h.alive p c (hkont ▸ hp)
  · rw [ne_eq, hsw.terminated]
    exact h.blocked p c ((hsw.blockedIn p _).mp hp)
  · rw [hpid, hchildren, hparent]
    exact h.born
  · rw [hpid, hparent]
    exact h.parent_le

end Calls

/-! ## §3  Runs -/

section WaitidRuns

open Kernel

variable {s t : Kernel} {e : KernelEvent} {v : Option ℕ}

theorem Awaiting.step (h : Awaiting s) (hs : Settled s) (hstep : s.step e = some (v, t)) :
    Awaiting t := by
  obtain ⟨⟨ps, hc⟩, hrun⟩ := hs
  obtain ⟨o, ps', -, ho, -, hprog, -, hsw, -⟩ := hc.step hrun hstep
  exact (h.run hc hrun ho hprog).switched hsw

theorem reached_awaiting (buf : Word) (page : ℕ → UInt8) {events : List KernelEvent}
    {vs : List (Option ℕ)} {t : Kernel}
    (hrun : exec Kernel.step (Kernel.boot buf page) events = some (vs, t)) :
    Settled t ∧ Awaiting t := by
  have hinv : ∀ s e v s', Settled s ∧ Awaiting s → s.step e = some (v, s') →
      Settled s' ∧ Awaiting s' := fun s e v s' hs hstep =>
    ⟨hs.1.step hstep, hs.2.step hs.1 hstep⟩
  exact reached_inv hinv events _ vs t ⟨boot_settled buf page, boot_awaiting buf page⟩ hrun

theorem sysWaitid_child {c : ℕ} (hmem : c ∈ s.children s.current) :
    s.sysWaitid c =
      { s with waitingOn := Function.update s.waitingOn s.current c }.waitidLoop c := by
  rw [Kernel.sysWaitid, if_neg (List.ne_nil_of_mem hmem)]
  cases hfind : (s.children s.current).find? (· = c) with
  | none => exact absurd (decide_eq_true rfl) (List.find?_eq_none.mp hfind c hmem)
  | some child =>
    obtain rfl : child = c := by simpa using List.find?_some hfind
    rfl

/-- The exit of the awaited child is what ends `sys_waitid`. In every run from the start of the
shell: a process in `sys_waitid` waits for a child of its own; as long as the child is not over it
is blocked, and from then on it is ready or running; when it goes on, the call returns at once.
Every process that was forked is a child of the one that forked it, and a `sys_waitid` for it
that returns does so when it is over. -/
theorem waitid_ends (buf : Word) (page : ℕ → UInt8) (events : List KernelEvent)
    (vs : List (Option ℕ)) (t : Kernel)
    (hrun : exec Kernel.step (Kernel.boot buf page) events = some (vs, t)) :
    (∀ p c, t.kont p = .waitid c → c ∈ t.children p ∧
      (t.state c ≠ .terminated ∧ t.state p = .blocked ∨
        t.state c = .terminated ∧ (t.state p = .ready ∨ p = t.current))) ∧
    (∀ c, t.kont t.current = .waitid c →
      t.step .resume = some (none, t.setKont t.current .user)) ∧
    (∀ c, 2 < c → c ≤ t.pidcounter → c ∈ t.children (t.parent c)) ∧
    ∀ c v u, t.kont t.current = .user → c ∈ t.children t.current →
      t.step (.waitid c) = some (v, u) → u.kont t.current = .user →
      t.state c = .terminated := by
  obtain ⟨⟨⟨ps, hc⟩, hrunning⟩, h⟩ := reached_awaiting buf page hrun
  refine ⟨fun p c hp => ?_, fun c hk => ?_, h.born, fun c v u huser hmem hstep hreturns => ?_⟩
  · refine ⟨(h.waitid p c hp).1, ?_⟩
    by_cases hover : t.state c = .terminated
    · refine Or.inr ⟨hover, ?_⟩
      cases hstate : t.state p with
      | blocked => exact absurd hover (h.blocked p c ⟨hstate, hp⟩)
      | ready => exact Or.inl rfl
      | running => exact Or.inr (hc.runQueue.running p hstate)
      | terminated => exact absurd hstate (h.alive p c hp)
    · exact Or.inl ⟨hover, (h.blockedIn hc hp hover).1⟩
  · have hover : t.state c = .terminated := by
      by_contra hlive
      have hblocked := (h.blockedIn hc hk hlive).1
      exact ProcState.noConfusion (hrunning.symm.trans hblocked)
    have hrun' : t.run .resume = some (.returns none (t.setKont t.current .user)) := by
      unfold Kernel.run
      rw [hk]
      exact congrArg some (if_pos hover)
    rw [Kernel.step, hrun']
    rfl
  · by_contra hlive
    obtain ⟨o, -, -, ho, -, -, -, hsw, -⟩ := hc.step hrunning hstep
    have hkont : u.kont = o.stop.kont := by rw [hsw.same]
    unfold Kernel.run at ho
    rw [huser] at ho
    obtain rfl := (Option.some.inj ho).symm.trans (sysWaitid_child hmem)
    rw [hkont, Kernel.waitidLoop, if_neg hlive] at hreturns
    have hwaits : Function.update t.kont t.current (.waitid c) t.current = .user :=
      (congrFun (leaveProcessor_kont _) t.current).symm.trans hreturns
    rw [Function.update_self] at hwaits
    exact Kont.noConfusion hwaits

/-- The shell waits for its child, which ends. -/
theorem waitid_ends_example : ∃ vs t,
    exec Kernel.step (Kernel.boot 4096 fun _ => 0) [.fork, .waitid 3, .exit] = some (vs, t) ∧
      3 ∈ t.children 2 ∧ (t.state 2 = .ready ∨ 2 = t.current) := by
  refine ⟨_, _, rfl, ?_⟩
  obtain ⟨hmem, hlive | hover⟩ :=
    (waitid_ends 4096 (fun _ => 0) [.fork, .waitid 3, .exit] _ _ rfl).1 2 3 rfl
  · exact absurd rfl hlive.1
  · exact ⟨hmem, hover.2⟩

end WaitidRuns

end Rpos
