import Rpos.System.KernelRun

/-!
# The readers of the keyboard pipe

`pipe_read` puts its entry on `rd_wait` only if that list is empty, where it
should ask whether the entry itself is unlinked. A second reader that finds the
pipe empty blocks without an entry, and no key press wakes it.
-/

namespace Rpos

open Base Base.Links

namespace Kernel

/-- `p` is blocked in `pipe_read`. -/
def BlockedReading (s : Kernel) (p : ℕ) : Prop :=
  ∃ buf count, s.BlockedIn p (.read buf count)

/-- A reader that finds the pipe empty finds no other reader waiting. -/
def ReadsAlone (s : Kernel) (e : KernelEvent) : Prop :=
  ∀ buf count, s.TriesRead e buf count → s.pipe.head = s.pipe.tail →
    s.links.listEmpty (.head .rdWait) = true

end Kernel

/-- `rd_wait` has the entries of the processes blocked in `pipe_read`, each once. -/
def ReadersListed (s : Kernel) : Prop :=
  ∃ rs : List ℕ, IsRing s.links (.head .rdWait) (rs.map (Node.entry .reader)) ∧
    ∀ p, p ∈ rs ↔ s.BlockedReading p

variable {s t : Kernel} {ps ps' : Queue → List ℕ} {buf : ℕ → UInt8} {count : Word}

theorem Consistent.readersListed_iff (h : Consistent s ps) :
    ReadersListed s ↔ ∀ p, s.BlockedReading p → p ∈ ps .rdWait := by
  constructor
  · rintro ⟨rs, hring, hmem⟩ p hp
    have heq := hring.unique (h.runQueue.queues.ring .rdWait)
    rw [← List.map_injective_iff.mpr (Queues.entry_injective .reader) heq]
    exact (hmem p).mpr hp
  · intro hall
    exact ⟨ps .rdWait, h.runQueue.queues.ring .rdWait,
      fun p => ⟨h.waits.reading p, hall p⟩⟩

theorem Switched.blockedReading (hsw : Switched s t) (p : ℕ) :
    t.BlockedReading p ↔ s.BlockedReading p :=
  exists_congr fun buf => exists_congr fun count => hsw.blockedIn p (.read buf count)

/-- After any call, every blocked reader but the current process is listed. -/
theorem listed_after (hs : Consistent s ps) (hall : ∀ p, s.BlockedReading p → p ∈ ps .rdWait)
    (hprog : Progress s ps t ps') {p : ℕ} (hpc : p ≠ s.current) (hp : t.BlockedReading p) :
    p ∈ ps' .rdWait := by
  obtain ⟨buf, count, hblocked, hk⟩ := hp
  have hbefore := hprog.blocked p hpc hblocked
  have hle := hs.family.le_pidcounter (p := p) (by
    rw [hbefore]
    exact ProcState.noConfusion)
  have hmem := hall p ⟨buf, count, hbefore, (hprog.kont p hpc hle).symm.trans hk⟩
  exact hprog.reading p hpc hmem hblocked

/-- A round of the loop of `pipe_read` that finds the pipe empty blocks the caller;
its entry is linked if and only if nobody else waits. -/
theorem reads_empty (hs : Consistent s ps) (hrun : s.state s.current = .running)
    {e : KernelEvent} {o : Kernel.Outcome} (ho : s.run e = some o)
    (ht : s.TriesRead e buf count) (hempty : s.pipe.head = s.pipe.tail)
    (hc : Consistent o.stop ps') :
    o.stop.BlockedReading s.current ∧
      (s.current ∈ ps' .rdWait ↔ s.links.listEmpty (.head .rdWait) = true) := by
  have hloop : s.pipeReadLoop buf count = o := by
    rcases ht with ⟨hk, rfl⟩ | ⟨hk, rfl⟩
    · have hwait : s.defineWait .reader = s := hs.defineWait hrun EntryKind.noConfusion
      simp only [Kernel.run, hk, Kernel.syscall, Kernel.sysRead, hwait, Option.some.injEq] at ho
      exact ho
    · simp only [Kernel.run, hk, Kernel.resume, Option.some.injEq] at ho
      exact ho
  have hne : s.current ≠ 0 := by
    refine hs.current_ne_zero ?_
    rcases ht with ⟨hk, -⟩ | ⟨hk, -⟩ <;> rw [hk] <;> exact Kont.noConfusion
  have hread : pipeRead s.pipe buf count = none := by
    rw [pipeRead, if_pos hempty]
  obtain ⟨u, qs, hu, hcons, -, hblocked, hiff⟩ := hs.pipeReadLoop_empty hrun hne hread
  have hstop : o.stop = u.leaveProcessor := by
    rw [← hloop, hu]
    rfl
  rw [hstop] at hc ⊢
  rw [hc.runQueue.queues.unique hcons.runQueue.queues .rdWait]
  exact ⟨⟨buf, count, hblocked⟩, hiff⟩

/-- One step keeps the readers listed exactly when no reader blocks behind another
one. -/
theorem step_readersListed (hs : Settled s) (hlisted : ReadersListed s) {e : KernelEvent}
    {v : Option ℕ} (hstep : s.step e = some (v, t)) :
    ReadersListed t ↔ s.ReadsAlone e := by
  obtain ⟨⟨ps, hc⟩, hrun⟩ := hs
  have hall := hc.readersListed_iff.mp hlisted
  obtain ⟨o, ps', ps'', ho, hstop, hprog, ht, hsw, hrd, -⟩ := hc.step hrun hstep
  rw [ht.readersListed_iff, hrd]
  -- only the current process can have come to be blocked without an entry
  have hcurrent : (∀ p, t.BlockedReading p → p ∈ ps' .rdWait) ↔
      (o.stop.BlockedReading s.current → s.current ∈ ps' .rdWait) := by
    constructor
    · exact fun h hb => h _ ((hsw.blockedReading _).mpr hb)
    · intro h p hp
      by_cases hpc : p = s.current
      · rw [hpc] at hp ⊢
        exact h ((hsw.blockedReading _).mp hp)
      · exact listed_after hc hall hprog hpc ((hsw.blockedReading p).mp hp)
  rw [hcurrent]
  constructor
  · intro h buf count htries hempty
    obtain ⟨hb, hiff⟩ := reads_empty hc hrun ho htries hempty hstop
    exact hiff.mp (h hb)
  · rintro halone ⟨buf, count, hb⟩
    have hstops := Kernel.run_kont ho
    rw [hb.2] at hstops
    cases hstops with
    | read htries hempty =>
        obtain ⟨-, hiff⟩ := reads_empty hc hrun ho htries hempty hstop
        exact hiff.mpr (halone _ _ htries hempty)

theorem boot_readersListed (buf : Word) (page : ℕ → UInt8) :
    ReadersListed (Kernel.boot buf page) := by
  obtain ⟨⟨ps, hc⟩, -⟩ := boot_settled buf page
  rw [hc.readersListed_iff]
  rintro p ⟨buf', count, hp, -⟩
  have hterm := hc.family.le_pidcounter (p := p) (by
    rw [hp]
    exact ProcState.noConfusion)
  have hcases : p = 0 ∨ p = 1 ∨ p = 2 := by
    have hle : p ≤ 2 := hterm
    omega
  rcases hcases with rfl | rfl | rfl <;> exact ProcState.noConfusion hp

/-- In every run from the start of the shell: all blocked readers are on `rd_wait`
after every event exactly when no reader finds the pipe empty and another reader
waiting. -/
theorem readers_listed_iff (buf : Word) (page : ℕ → UInt8) (events : List KernelEvent) :
    Along Kernel.step (fun _ _ _ t => ReadersListed t) (Kernel.boot buf page) events ↔
      Along Kernel.step (fun s e _ _ => s.ReadsAlone e) (Kernel.boot buf page) events := by
  have hstep : ∀ s e v t, Settled s ∧ ReadersListed s → s.step e = some (v, t) →
      (ReadersListed t ↔ s.ReadsAlone e) ∧ (s.ReadsAlone e → Settled t ∧ ReadersListed t) := by
    intro s e v t hs hstep
    have hiff := step_readersListed hs.1 hs.2 hstep
    exact ⟨hiff, fun halone => ⟨hs.1.step hstep, hiff.mpr halone⟩⟩
  exact along_iff_of_keeps hstep events _ ⟨boot_settled buf page, boot_readersListed buf page⟩

/-- Two processes read from the empty pipe. The second one is still blocked when a
key has been pressed, and nothing is left on `rd_wait` to wake it. -/
theorem second_reader_stranded :
    ∃ vs t, exec Kernel.step (Kernel.boot 4096 fun _ => 0)
        [.fork, .read (fun _ => 0) 1, .read (fun _ => 0) 1, .key 97] = some (vs, t) ∧
      t.BlockedReading 3 ∧ t.links.listEmpty (.head .rdWait) = true ∧ ¬ ReadersListed t := by
  refine ⟨_, _, rfl, ⟨_, _, rfl, rfl⟩, rfl, ?_⟩
  rintro ⟨rs, hring, hmem⟩
  have hnil := hring.listEmpty_iff.mp rfl
  have hmem3 := (hmem 3).mpr ⟨_, _, rfl, rfl⟩
  rw [List.map_eq_nil_iff.mp hnil] at hmem3
  exact absurd hmem3 List.not_mem_nil

end Rpos
