import Rpos.Base.Exclusive
import Rpos.System.Scheduler

/-!
# The spinlock, instruction by instruction

`spinlock_acquire` exchanges the lock with 1 until it finds 0, and the exchange
is the loop of `ldaxr` and `stlxr` in `atomic.S`. Any number of cores execute
these instructions in any order, and a core may lose its monitor at any time.
-/

namespace Rpos

open Base

inductive SpinPc
  /-- The call of `spinlock_acquire`. -/
  | out
  /-- `1: ldaxr x2, [x0]` -/
  | ldaxr
  /-- `stlxr w3, x1, [x0]` -/
  | stlxr
  /-- `cbnz w3, 1b` -/
  | cbnz
  /-- `mov x0, x2`, `ret`, and the test of the `while` loop. -/
  | test
  /-- `spinlock_acquire` has returned; the next is the `stlr` of `spinlock_release`. -/
  | inside
  deriving DecidableEq

structure SpinCore where
  pc : SpinPc
  x2 : Word
  w3 : BitVec 32

/-- The eight bytes at a `raw_spinlock_t`, which `ldaxr` and `stlxr` access, and
the cores. -/
structure SpinLock (Core : Type*) where
  lock : Monitored Core Word
  core : Core → SpinCore

namespace SpinLock

variable {Core : Type*}

/-- `SPIN_LOCK_UNLOCKED`. -/
def init (Core : Type*) : SpinLock Core where
  lock := ⟨0#64, fun _ => false⟩
  core := fun _ => ⟨.out, 0#64, 0#32⟩

/-- The lock is held from the store of the exchange that found 0 to the release. -/
def Holds (s : SpinLock Core) (c : Core) : Prop :=
  match (s.core c).pc with
  | .cbnz => (s.core c).w3 = 0#32 ∧ (s.core c).x2 = 0#64
  | .test => (s.core c).x2 = 0#64
  | .inside => True
  | _ => False

theorem holds_congr {s t : SpinLock Core} {d : Core} (h : t.core d = s.core d) :
    t.Holds d ↔ s.Holds d := by
  unfold Holds
  rw [h]

structure Consistent (s : SpinLock Core) : Prop where
  fresh : s.lock.Fresh fun c => (s.core c).x2
  held : ∀ c, s.Holds c → s.lock.value = 1#64
  unique : ∀ c d, s.Holds c → s.Holds d → c = d
  free : (∀ c, ¬ s.Holds c) → s.lock.value = 0#64

theorem init_consistent : (init Core).Consistent :=
  ⟨fun _ hc => absurd hc Bool.false_ne_true, fun _ hc => hc.elim,
    fun _ _ hc => hc.elim, fun _ => rfl⟩

variable [DecidableEq Core]

def setCore (s : SpinLock Core) (c : Core) (x : SpinCore) : SpinLock Core :=
  { s with core := Function.update s.core c x }

/-- Core `c` executes its instruction; at `stlxr` it may have lost its monitor. -/
def step (s : SpinLock Core) (c : Core) (lost : Bool) : SpinLock Core :=
  let x := s.core c
  match x.pc with
  | .out => s.setCore c { x with pc := .ldaxr }
  | .ldaxr =>
      { s with lock := s.lock.loadExclusive c }.setCore c
        { x with pc := .stlxr, x2 := s.lock.value }
  | .stlxr =>
      let lock := if lost then s.lock.clear c else s.lock
      { s with lock := lock.storeExclusive c 1#64 }.setCore c
        { x with pc := .cbnz, w3 := if lock.mark c then 0#32 else 1#32 }
  | .cbnz => s.setCore c { x with pc := if x.w3 ≠ 0#32 then .ldaxr else .test }
  | .test => s.setCore c { x with pc := if x.x2 ≠ 0#64 then .ldaxr else .inside }
  | .inside => { s with lock := s.lock.store 0#64 }.setCore c { x with pc := .out }

def run (s : SpinLock Core) (steps : List (Core × Bool)) : SpinLock Core :=
  steps.foldl (fun s e => s.step e.1 e.2) s

variable {s : SpinLock Core} {c d : Core} {x : SpinCore} {l : Monitored Core Word}

@[simp]
theorem lock_setCore : (s.setCore c x).lock = s.lock := rfl

theorem core_setCore : (s.setCore c x).core d = if d = c then x else s.core d :=
  Function.update_apply _ _ _ _

theorem holds_setCore_of_ne (hd : d ≠ c) :
    ({ s with lock := l }.setCore c x).Holds d ↔ s.Holds d :=
  holds_congr (by rw [core_setCore, if_neg hd])

/-! ## What one instruction keeps -/

/-- An instruction that leaves the word alone, and who holds it. -/
theorem Consistent.same (h : s.Consistent)
    (hvalue : l.value = s.lock.value)
    (hfresh : l.Fresh fun d => if d = c then x.x2 else (s.core d).x2)
    (hholds : ({ s with lock := l }.setCore c x).Holds c ↔ s.Holds c) :
    ({ s with lock := l }.setCore c x).Consistent := by
  have hall : ∀ d, ({ s with lock := l }.setCore c x).Holds d ↔ s.Holds d := by
    intro d
    by_cases hd : d = c
    · rw [hd]
      exact hholds
    · exact holds_setCore_of_ne hd
  refine ⟨hfresh.congr fun d _ => ?_, fun d hd => ?_, fun d e hd he => ?_, fun hno => ?_⟩
  · rw [core_setCore]
    split <;> rfl
  · exact hvalue.trans (h.held d ((hall d).mp hd))
  · exact h.unique d e ((hall d).mp hd) ((hall e).mp he)
  · exact hvalue.trans (h.free fun d hd => hno d ((hall d).mpr hd))

theorem Consistent.setCore (h : s.Consistent) (hx2 : x.x2 = (s.core c).x2)
    (hholds : (s.setCore c x).Holds c ↔ s.Holds c) : (s.setCore c x).Consistent := by
  refine h.same (l := s.lock) rfl (h.fresh.congr fun d _ => ?_) hholds
  split
  · rename_i hd
    rw [hd, hx2]
  · rfl

/-- The store-exclusive of a core that still has its mark: the exchange has found
the value of the word. -/
theorem Consistent.exchange (h : s.Consistent) (hpc : (s.core c).pc = .stlxr)
    (hmark : s.lock.mark c = true) :
    ({ s with lock := s.lock.store 1#64 }.setCore c
      { s.core c with pc := .cbnz, w3 := 0#32 }).Consistent := by
  have hx2 : (s.core c).x2 = s.lock.value := h.fresh c hmark
  have hnot : ¬ s.Holds c := by
    unfold Holds
    rw [hpc]
    exact id
  have hc : ({ s with lock := s.lock.store 1#64 }.setCore c
      { s.core c with pc := .cbnz, w3 := 0#32 }).Holds c ↔ s.lock.value = 0#64 := by
    unfold Holds
    rw [core_setCore, if_pos rfl, hx2]
    exact and_iff_right rfl
  have hother : ∀ d, s.Holds d → d ≠ c := fun d hd heq => hnot (heq ▸ hd)
  refine ⟨Monitored.fresh_store s.lock _ _, fun _ _ => rfl, fun d e hd he => ?_, fun hno => ?_⟩
  · -- a holder from before leaves the word at 1, and then `c` does not hold it
    by_cases hzero : s.lock.value = 0#64
    · have hnone : ∀ a, ¬ s.Holds a := by
        intro a ha
        rw [h.held a ha] at hzero
        exact absurd hzero (by decide)
      have hself : ∀ a, ({ s with lock := s.lock.store 1#64 }.setCore c
          { s.core c with pc := .cbnz, w3 := 0#32 }).Holds a → a = c := by
        intro a ha
        by_contra hne
        exact hnone a ((holds_setCore_of_ne hne).mp ha)
      rw [hself d hd, hself e he]
    · have hold : ∀ a, ({ s with lock := s.lock.store 1#64 }.setCore c
          { s.core c with pc := .cbnz, w3 := 0#32 }).Holds a → s.Holds a := by
        intro a ha
        by_cases hac : a = c
        · rw [hac] at ha
          exact absurd (hc.mp ha) hzero
        · exact (holds_setCore_of_ne hac).mp ha
      exact h.unique d e (hold d hd) (hold e he)
  · have hzero : s.lock.value ≠ 0#64 := fun hz => hno c (hc.mpr hz)
    refine absurd (h.free fun d hd => ?_) hzero
    exact hno d ((holds_setCore_of_ne (hother d hd)).mpr hd)

theorem Consistent.release (h : s.Consistent) (hpc : (s.core c).pc = .inside) :
    ({ s with lock := s.lock.store 0#64 }.setCore c { s.core c with pc := .out }).Consistent := by
  have hc : s.Holds c := by
    unfold Holds
    rw [hpc]
    trivial
  have hnone : ∀ d, ¬ ({ s with lock := s.lock.store 0#64 }.setCore c
      { s.core c with pc := .out }).Holds d := by
    intro d hd
    by_cases hdc : d = c
    · unfold Holds at hd
      rw [core_setCore, if_pos hdc] at hd
      exact hd
    · exact hdc (h.unique d c ((holds_setCore_of_ne hdc).mp hd) hc)
  exact ⟨Monitored.fresh_store s.lock _ _, fun d hd => absurd hd (hnone d),
    fun d _ hd => absurd hd (hnone d), fun _ => rfl⟩

theorem Consistent.step (h : s.Consistent) (c : Core) (lost : Bool) :
    (s.step c lost).Consistent := by
  cases hpc : (s.core c).pc with
  | out =>
      simp only [SpinLock.step, hpc]
      refine h.setCore rfl ?_
      simp [Holds, core_setCore, hpc]
  | ldaxr =>
      simp only [SpinLock.step, hpc]
      refine h.same rfl ?_ ?_
      · refine (h.fresh.loadExclusive c).congr fun d _ => ?_
        rw [Function.update_apply]
      · simp [Holds, core_setCore, hpc]
  | stlxr =>
      by_cases hmark : (if lost then s.lock.clear c else s.lock).mark c = true
      · have hlost : lost = false := by
          cases lost with
          | false => rfl
          | true => simp at hmark
        rw [hlost] at hmark ⊢
        have hmark' : s.lock.mark c = true := hmark
        simp only [SpinLock.step, hpc, Bool.false_eq_true, if_false, hmark', if_true,
          Monitored.storeExclusive_of_mark hmark']
        exact h.exchange hpc hmark'
      · rw [Bool.not_eq_true] at hmark
        simp only [SpinLock.step, hpc, hmark, Bool.false_eq_true, if_false,
          Monitored.storeExclusive_of_not_mark hmark]
        refine h.same ?_ ?_ ?_
        · split <;> rfl
        · have hfresh : ((if lost then s.lock.clear c else s.lock).clear c).Fresh
              fun d => (s.core d).x2 := by
            split
            · exact (h.fresh.clear c).clear c
            · exact h.fresh.clear c
          refine hfresh.congr fun d _ => ?_
          split
          · rename_i hd
            rw [hd]
          · rfl
        · simp [Holds, core_setCore, hpc]
  | cbnz =>
      simp only [SpinLock.step, hpc]
      refine h.setCore rfl ?_
      by_cases hw3 : (s.core c).w3 = 0#32 <;> simp [Holds, core_setCore, hpc, hw3]
  | test =>
      simp only [SpinLock.step, hpc]
      refine h.setCore rfl ?_
      by_cases hx2 : (s.core c).x2 = 0#64 <;> simp [Holds, core_setCore, hpc, hx2]
  | inside =>
      simp only [SpinLock.step, hpc]
      exact h.release hpc

theorem Consistent.run (h : s.Consistent) (steps : List (Core × Bool)) :
    (s.run steps).Consistent := by
  induction steps generalizing s with
  | nil => exact h
  | cons e steps ih => exact ih (h.step e.1 e.2)

/-! ## One core alone -/

/-- Core `c` alone, which loses no monitor, gets the lock within `n` instructions. -/
def Enters (s : SpinLock Core) (c : Core) (n : ℕ) : Prop :=
  ∃ k ≤ n, ((s.run (List.replicate k (c, false))).core c).pc = .inside

theorem Enters.step {n : ℕ} (h : (s.step c false).Enters c n) : s.Enters c (n + 1) := by
  obtain ⟨k, hk, hinside⟩ := h
  exact ⟨k + 1, Nat.succ_le_succ hk, hinside⟩

theorem Enters.mono {m n : ℕ} (h : s.Enters c m) (hmn : m ≤ n) : s.Enters c n := by
  obtain ⟨k, hk, hinside⟩ := h
  exact ⟨k, hk.trans hmn, hinside⟩

theorem enters_test (hpc : (s.core c).pc = .test) (hx2 : (s.core c).x2 = 0#64) :
    s.Enters c 1 := by
  refine ⟨1, le_rfl, ?_⟩
  show ((s.step c false).core c).pc = .inside
  simp [SpinLock.step, hpc, hx2, core_setCore]

theorem enters_cbnz (hpc : (s.core c).pc = .cbnz) (hw3 : (s.core c).w3 = 0#32)
    (hx2 : (s.core c).x2 = 0#64) : s.Enters c 2 := by
  refine (enters_test ?_ ?_).step
  · simp [SpinLock.step, hpc, hw3, core_setCore]
  · simp [SpinLock.step, hpc, hw3, hx2, core_setCore]

theorem enters_stlxr (hpc : (s.core c).pc = .stlxr) (hmark : s.lock.mark c = true)
    (hx2 : (s.core c).x2 = 0#64) : s.Enters c 3 := by
  refine (enters_cbnz ?_ ?_ ?_).step
  · simp [SpinLock.step, hpc, core_setCore]
  · simp [SpinLock.step, hpc, hmark, core_setCore]
  · simp [SpinLock.step, hpc, hx2, core_setCore]

theorem enters_ldaxr (hpc : (s.core c).pc = .ldaxr) (hvalue : s.lock.value = 0#64) :
    s.Enters c 4 := by
  refine (enters_stlxr ?_ ?_ ?_).step
  · simp [SpinLock.step, hpc, core_setCore]
  · simp [SpinLock.step, hpc, setCore]
  · simp [SpinLock.step, hpc, hvalue, core_setCore]

theorem enters_retry (hvalue : s.lock.value = 0#64)
    (hretry : (s.core c).pc = .cbnz ∧ (s.core c).w3 ≠ 0#32 ∨
      (s.core c).pc = .test ∧ (s.core c).x2 ≠ 0#64) : s.Enters c 5 := by
  rcases hretry with ⟨hpc, hw3⟩ | ⟨hpc, hx2⟩
  · refine (enters_ldaxr ?_ ?_).step
    · simp [SpinLock.step, hpc, hw3, core_setCore]
    · simpa [SpinLock.step, hpc, setCore] using hvalue
  · refine (enters_ldaxr ?_ ?_).step
    · simp [SpinLock.step, hpc, hx2, core_setCore]
    · simpa [SpinLock.step, hpc, setCore] using hvalue

theorem Consistent.enters (h : s.Consistent) (hvalue : s.lock.value = 0#64)
    (hout : (s.core c).pc ≠ .out) : s.Enters c 6 := by
  have hnot : ¬ s.Holds c := by
    intro hc
    rw [h.held c hc] at hvalue
    exact absurd hvalue (by decide)
  unfold Holds at hnot
  cases hpc : (s.core c).pc with
  | out => exact absurd hpc hout
  | ldaxr => exact (enters_ldaxr hpc hvalue).mono (by decide)
  | stlxr =>
      cases hmark : s.lock.mark c with
      | true => exact (enters_stlxr hpc hmark ((h.fresh c hmark).trans hvalue)).mono (by decide)
      | false =>
          refine (enters_retry ?_ (Or.inl ⟨?_, ?_⟩)).step
          · simpa [SpinLock.step, hpc, setCore,
              Monitored.storeExclusive_of_not_mark hmark] using hvalue
          · simp [SpinLock.step, hpc, core_setCore]
          · simp [SpinLock.step, hpc, hmark, core_setCore]
  | cbnz =>
      rw [hpc] at hnot
      by_cases hw3 : (s.core c).w3 = 0#32
      · have hx2 : (s.core c).x2 ≠ 0#64 := fun hx2 => hnot ⟨hw3, hx2⟩
        refine (enters_retry ?_ (Or.inr ⟨?_, ?_⟩)).step
        · simpa [SpinLock.step, hpc, setCore] using hvalue
        · simp [SpinLock.step, hpc, hw3, core_setCore]
        · simpa [SpinLock.step, hpc, core_setCore] using hx2
      · exact (enters_retry hvalue (Or.inl ⟨hpc, hw3⟩)).mono (by decide)
  | test =>
      rw [hpc] at hnot
      exact (enters_retry hvalue (Or.inr ⟨hpc, hnot⟩)).mono (by decide)
  | inside =>
      rw [hpc] at hnot
      exact absurd trivial hnot

structure Spins (s : SpinLock Core) (c : Core) : Prop where
  fresh : s.lock.Fresh fun c => (s.core c).x2
  taken : s.lock.value ≠ 0#64
  waits : (s.core c).pc ≠ .out ∧ ¬ s.Holds c

theorem Spins.step (h : s.Spins c) : (s.step c false).Spins c := by
  obtain ⟨hfresh, htaken, hout, hnot⟩ := h
  unfold Holds at hnot
  have hkeep : ∀ x : SpinCore, x.x2 = (s.core c).x2 →
      s.lock.Fresh fun d => ((s.setCore c x).core d).x2 := by
    intro x hx
    refine hfresh.congr fun d _ => ?_
    rw [core_setCore]
    split
    · rename_i hd
      rw [hx, hd]
    · rfl
  cases hpc : (s.core c).pc with
  | out => exact absurd hpc hout
  | ldaxr =>
      simp only [SpinLock.step, hpc]
      refine ⟨?_, htaken, ?_⟩
      · refine (hfresh.loadExclusive c).congr fun d _ => ?_
        rw [core_setCore, Function.update_apply]
        split <;> rfl
      · simp [Holds, core_setCore]
  | stlxr =>
      cases hmark : s.lock.mark c with
      | true =>
          have hx2 : (s.core c).x2 ≠ 0#64 := by
            rw [show (s.core c).x2 = s.lock.value from hfresh c hmark]
            exact htaken
          simp only [SpinLock.step, hpc, Bool.false_eq_true, if_false, hmark, if_true,
            Monitored.storeExclusive_of_mark hmark]
          refine ⟨Monitored.fresh_store s.lock _ _, by simp [setCore], ?_⟩
          simp [Holds, core_setCore, hx2]
      | false =>
          simp only [SpinLock.step, hpc, Bool.false_eq_true, if_false, hmark,
            Monitored.storeExclusive_of_not_mark hmark]
          exact ⟨(hfresh.clear c).congr fun d _ => (by
            rw [core_setCore]
            split
            · rename_i hd
              rw [hd]
            · rfl), htaken, by simp [Holds, core_setCore]⟩
  | cbnz =>
      simp only [SpinLock.step, hpc]
      rw [hpc] at hnot
      refine ⟨hkeep _ rfl, htaken, ?_⟩
      by_cases hw3 : (s.core c).w3 = 0#32
      · have hx2 : (s.core c).x2 ≠ 0#64 := fun hx2 => hnot ⟨hw3, hx2⟩
        simp [Holds, core_setCore, hw3, hx2]
      · simp [Holds, core_setCore, hw3]
  | test =>
      simp only [SpinLock.step, hpc]
      rw [hpc] at hnot
      have hx2 : (s.core c).x2 ≠ 0#64 := hnot
      exact ⟨hkeep _ rfl, htaken, by simp [Holds, core_setCore, hx2]⟩
  | inside =>
      rw [hpc] at hnot
      exact absurd trivial hnot

theorem Spins.not_enters (h : s.Spins c) (n : ℕ) : ¬ s.Enters c n := by
  rintro ⟨k, -, hinside⟩
  induction k generalizing s with
  | zero =>
      have hpc : (s.core c).pc = .inside := hinside
      refine h.waits.2 ?_
      unfold Holds
      rw [hpc]
      trivial
  | succ k ih => exact ih h.step hinside

/-! ## The lock -/

structure Safe (s : SpinLock Core) : Prop where
  exclusion : ∀ c d, (s.core c).pc = .inside → (s.core d).pc = .inside → c = d
  free_iff : s.lock.value = 0#64 ↔ ∀ c, ¬ s.Holds c
  progress : s.lock.value = 0#64 → ∀ c, (s.core c).pc ≠ .out → s.Enters c 6

theorem Consistent.safe (h : s.Consistent) : s.Safe := by
  have hinside : ∀ c, (s.core c).pc = .inside → s.Holds c := by
    intro c hpc
    unfold Holds
    rw [hpc]
    trivial
  refine ⟨fun c d hc hd => h.unique c d (hinside c hc) (hinside d hd), ⟨fun hvalue c hc => ?_,
    h.free⟩, fun hvalue c hout => h.enters hvalue hout⟩
  rw [h.held c hc] at hvalue
  exact absurd hvalue (by decide)

/-- However the instructions of the cores interleave, and whatever monitors are
lost, at most one core is between its acquire and its release; the lock is free
exactly when nobody holds it; and a free lock is had by whoever waits for it
within six steps of its own, the test with the `mov` and the `ret` before it being one. -/
theorem spinlock_safe (steps : List (Core × Bool)) : ((init Core).run steps).Safe :=
  (init_consistent.run steps).safe

/-! ## With interrupts masked -/

/-- A single core in `spinlock_acquire`. -/
def alone (lock : Word) : SpinLock Unit where
  lock := ⟨lock, fun _ => false⟩
  core := fun _ => ⟨.ldaxr, 0#64, 0#32⟩

/-- The acquire of `Kernel` returns where the instructions do. -/
theorem spinlockAcquire_isSome_iff (k : Kernel) (mutex : ℕ) (hword : k.waitLock mutex < 2 ^ 64) :
    (k.spinlockAcquire mutex).isSome ↔
      ∃ n, (alone (BitVec.ofNat 64 (k.waitLock mutex))).Enters () n := by
  have hsome : (k.spinlockAcquire mutex).isSome ↔ k.waitLock mutex = 0 := by
    unfold Kernel.spinlockAcquire
    split <;> simp [*]
  rw [hsome]
  constructor
  · intro hzero
    rw [hzero]
    exact ⟨4, enters_ldaxr rfl rfl⟩
  · rintro ⟨n, hn⟩
    by_contra hne
    have hvalue : BitVec.ofNat 64 (k.waitLock mutex) ≠ 0#64 := by
      intro heq
      have := congrArg BitVec.toNat heq
      rw [BitVec.toNat_ofNat, Nat.mod_eq_of_lt hword] at this
      exact hne this
    exact Spins.not_enters ⟨fun _ hc => absurd hc Bool.false_ne_true, hvalue,
      SpinPc.noConfusion, id⟩ n hn

end SpinLock

end Rpos
