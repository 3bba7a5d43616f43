import Mathlib.Data.List.Basic

/-!
# Runs of operations

A program component is a partial step function: `step s i = some (w, s')` when
operation `i` returns `w` from state `s`, and `none` when it does not return.
`exec` runs a list of operations. An invariant that every admissible operation
keeps, and under which it returns, holds after every run; and a component whose
steps are steps of a specification has only runs of that specification.
-/

namespace Rpos.Base

variable {σ ι ω α : Type*}

def exec (step : σ → ι → Option (ω × σ)) : σ → List ι → Option (List ω × σ)
  | s, [] => some ([], s)
  | s, i :: is =>
      match step s i with
      | none => none
      | some (w, s') => (exec step s' is).map fun r => (w :: r.1, r.2)

/-- A run of a specification, given as a relation between the state before,
the operation, its result and the state after. -/
inductive SpecRun (spec : α → ι → ω → α → Prop) :
    α → List ι → List ω → α → Prop
  | nil (a : α) : SpecRun spec a [] [] a
  | cons {a b c : α} {i : ι} {w : ω} {is : List ι} {ws : List ω} :
      spec a i w b → SpecRun spec b is ws c →
      SpecRun spec a (i :: is) (w :: ws) c

/-- A step function simulates a specification through `abs`, on the states
that satisfy `Inv` and the operations that satisfy `Ok`. -/
structure Simulates (step : σ → ι → Option (ω × σ)) (Inv : σ → Prop)
    (Ok : ι → Prop) (spec : α → ι → ω → α → Prop) (abs : σ → α) : Prop where
  step_spec : ∀ s i, Inv s → Ok i →
    ∃ w s', step s i = some (w, s') ∧ Inv s' ∧ spec (abs s) i w (abs s')

variable {step : σ → ι → Option (ω × σ)} {Inv : σ → Prop} {Ok : ι → Prop}
  {spec : α → ι → ω → α → Prop} {abs : σ → α}

/-- Every run of admissible operations returns, keeps the invariant and is a
run of the specification. -/
theorem Simulates.exec (hsim : Simulates step Inv Ok spec abs) :
    ∀ (is : List ι) (s : σ), Inv s → (∀ i ∈ is, Ok i) →
      ∃ ws s', Base.exec step s is = some (ws, s') ∧ Inv s' ∧
        SpecRun spec (abs s) is ws (abs s') := by
  intro is
  induction is with
  | nil =>
      intro s hs _
      exact ⟨[], s, rfl, hs, .nil _⟩
  | cons i is ih =>
      intro s hs hok
      obtain ⟨w, s', hstep, hs', hspec⟩ :=
        hsim.step_spec s i hs (hok i List.mem_cons_self)
      obtain ⟨ws, t, hexec, ht, hrun⟩ :=
        ih s' hs' fun j hj => hok j (List.mem_cons_of_mem i hj)
      refine ⟨w :: ws, t, ?_, ht, .cons hspec hrun⟩
      simp [Base.exec, hstep, hexec]

/-- An invariant under which every admissible operation returns holds after
every run. -/
theorem exec_inv (hstep : ∀ s i, Inv s → Ok i →
      ∃ w s', step s i = some (w, s') ∧ Inv s') (is : List ι) (s : σ)
    (hs : Inv s) (hok : ∀ i ∈ is, Ok i) :
    ∃ ws s', Base.exec step s is = some (ws, s') ∧ Inv s' := by
  have hsim : Simulates step Inv Ok (fun _ _ _ _ => True) fun _ => () := by
    refine ⟨fun s i hs hi => ?_⟩
    obtain ⟨w, s', hrun, hs'⟩ := hstep s i hs hi
    exact ⟨w, s', hrun, hs', trivial⟩
  obtain ⟨ws, s', hrun, hs', -⟩ := hsim.exec is s hs hok
  exact ⟨ws, s', hrun, hs'⟩

/-- Where a step may fail to return, a run is a run of the specification, or
it comes to a state in which the next operation is stuck. -/
theorem exec_spec_or_stuck {Stuck : σ → ι → Prop}
    (hstep : ∀ s i, Inv s →
      (∃ w s', step s i = some (w, s') ∧ Inv s' ∧ spec (abs s) i w (abs s')) ∨
      (step s i = none ∧ Stuck s i)) :
    ∀ (is : List ι) (s : σ), Inv s →
      (∃ ws s', exec step s is = some (ws, s') ∧ Inv s' ∧
        SpecRun spec (abs s) is ws (abs s')) ∨
      (exec step s is = none ∧ ∃ before i after ws t,
        is = before ++ i :: after ∧ exec step s before = some (ws, t) ∧
        SpecRun spec (abs s) before ws (abs t) ∧ Stuck t i) := by
  intro is
  induction is with
  | nil =>
      intro s hs
      exact Or.inl ⟨[], s, rfl, hs, .nil _⟩
  | cons i is ih =>
      intro s hs
      rcases hstep s i hs with ⟨w, s', hrun, hs', hspec⟩ | ⟨hnone, hstuck⟩
      · rcases ih s' hs' with ⟨ws, t, hexec, ht, hsr⟩ |
          ⟨hexec, before, j, after, ws, t, hsplit, hbefore, hsr, hst⟩
        · refine Or.inl ⟨w :: ws, t, ?_, ht, .cons hspec hsr⟩
          simp [exec, hrun, hexec]
        · refine Or.inr ⟨by simp [exec, hrun, hexec], i :: before, j, after,
            w :: ws, t, by simp [hsplit], ?_, .cons hspec hsr, hst⟩
          simp [exec, hrun, hbefore]
      · exact Or.inr ⟨by simp [exec, hnone], [], i, is, [], s, rfl, rfl, .nil _, hstuck⟩

/-! ## Properties of the steps of a run -/

def Along (step : σ → ι → Option (ω × σ)) (P : σ → ι → ω → σ → Prop) :
    σ → List ι → Prop
  | _, [] => True
  | s, i :: is => ∃ w s', step s i = some (w, s') ∧ P s i w s' ∧
      Along step P s' is

variable {P Q : σ → ι → ω → σ → Prop}

/-- Two properties that agree on the steps from the invariant agree along
every run. -/
theorem along_iff (hstep : ∀ s i, Inv s → Ok i →
      ∃ w s', step s i = some (w, s') ∧ Inv s' ∧ (P s i w s' ↔ Q s i w s')) :
    ∀ (is : List ι) (s : σ), Inv s → (∀ i ∈ is, Ok i) →
      (Along step P s is ↔ Along step Q s is) := by
  intro is
  induction is with
  | nil => exact fun _ _ _ => Iff.rfl
  | cons i is ih =>
      intro s hs hok
      obtain ⟨w, s', hrun, hs', hpq⟩ := hstep s i hs (hok i List.mem_cons_self)
      have hrest := ih s' hs' fun j hj => hok j (List.mem_cons_of_mem i hj)
      simp only [Along, hrun, Option.some.injEq, Prod.mk.injEq]
      constructor
      · rintro ⟨_, _, ⟨rfl, rfl⟩, hp, hr⟩
        exact ⟨_, _, ⟨rfl, rfl⟩, hpq.mp hp, hrest.mp hr⟩
      · rintro ⟨_, _, ⟨rfl, rfl⟩, hq, hr⟩
        exact ⟨_, _, ⟨rfl, rfl⟩, hpq.mpr hq, hrest.mpr hr⟩

/-- Where a step may fail to return, and only the steps with `Q` keep the
invariant, the two properties still agree along every run of admissible
operations. -/
theorem along_iff_of_keeps_ok (hstep : ∀ s i w s', Inv s → Ok i → step s i = some (w, s') →
      (P s i w s' ↔ Q s i w s') ∧ (Q s i w s' → Inv s')) :
    ∀ (is : List ι) (s : σ), Inv s → (∀ i ∈ is, Ok i) →
      (Along step P s is ↔ Along step Q s is) := by
  intro is
  induction is with
  | nil => exact fun _ _ _ => Iff.rfl
  | cons i is ih =>
      intro s hs hok
      have hi := hok i List.mem_cons_self
      have hok' : ∀ j ∈ is, Ok j := fun j hj => hok j (List.mem_cons_of_mem i hj)
      constructor
      · rintro ⟨w, s', hrun, hp, hr⟩
        obtain ⟨hpq, hkeep⟩ := hstep s i w s' hs hi hrun
        exact ⟨w, s', hrun, hpq.mp hp, (ih s' (hkeep (hpq.mp hp)) hok').mp hr⟩
      · rintro ⟨w, s', hrun, hq, hr⟩
        obtain ⟨hpq, hkeep⟩ := hstep s i w s' hs hi hrun
        exact ⟨w, s', hrun, hpq.mpr hq, (ih s' (hkeep hq) hok').mpr hr⟩

theorem along_iff_of_keeps (hstep : ∀ s i w s', Inv s → step s i = some (w, s') →
      (P s i w s' ↔ Q s i w s') ∧ (Q s i w s' → Inv s')) (is : List ι) (s : σ)
    (hs : Inv s) : Along step P s is ↔ Along step Q s is :=
  along_iff_of_keeps_ok (fun s i w s' hs (_ : True) hrun => hstep s i w s' hs hrun) is s hs
    fun _ _ => trivial

theorem exec_append (is js : List ι) (s : σ) :
    exec step s (is ++ js) =
      (exec step s is).bind fun r => (exec step r.2 js).map fun q => (r.1 ++ q.1, q.2) := by
  induction is generalizing s with
  | nil => exact Option.map_id'.symm
  | cons i is ih =>
      rw [List.cons_append, exec, exec]
      cases step s i with
      | none => rfl
      | some r =>
          dsimp only
          rw [ih]
          cases exec step r.2 is with
          | none => rfl
          | some q =>
              rw [Option.bind_some, Option.map_map, Option.map_some, Option.bind_some]
              rfl

theorem exec_pair {s s' s'' : σ} {i j : ι} {w w' : ω}
    (hi : step s i = some (w, s')) (hj : step s' j = some (w', s'')) :
    exec step s [i, j] = some ([w, w'], s'') := by
  simp [exec, hi, hj]

theorem along_pair {s s' s'' : σ} {i j : ι} {w w' : ω}
    (hi : step s i = some (w, s')) (hP : P s i w s')
    (hj : step s' j = some (w', s'')) (hP' : P s' j w' s'') :
    Along step P s [i, j] :=
  ⟨w, s', hi, hP, w', s'', hj, hP', trivial⟩

/-- What every step with `P` keeps holds at the end of a run of such steps. -/
theorem Along.inv (hstep : ∀ s i w s', Inv s → step s i = some (w, s') →
      P s i w s' → Inv s') :
    ∀ (is : List ι) (s : σ) (ws : List ω) (t : σ), Inv s → Along step P s is →
      exec step s is = some (ws, t) → Inv t := by
  intro is
  induction is with
  | nil =>
      rintro s ws t hs - ⟨⟩
      exact hs
  | cons i is ih =>
      rintro s ws t hs ⟨w, s', hrun, hp, hrest⟩ hexec
      simp only [exec, hrun, Option.map_eq_some_iff, Prod.mk.injEq] at hexec
      obtain ⟨⟨ws', t'⟩, hexec, -, rfl⟩ := hexec
      exact ih s' ws' t' (hstep s i w s' hs hrun hp) hrest hexec

theorem Along.drop {t : σ} {ws : List ω} {js : List ι} :
    ∀ (is : List ι) (s : σ), Along step P s (is ++ js) →
      exec step s is = some (ws, t) → Along step P t js := by
  intro is
  induction is generalizing ws with
  | nil =>
      rintro s h ⟨⟩
      exact h
  | cons i is ih =>
      rintro s ⟨w, s', hrun, -, hrest⟩ hexec
      simp only [exec, hrun, Option.map_eq_some_iff, Prod.mk.injEq] at hexec
      obtain ⟨⟨ws', t'⟩, hexec, -, rfl⟩ := hexec
      exact ih s' hrest hexec

/-- What every step that returns keeps holds of every state reached. -/
theorem reached_inv (hstep : ∀ s i w s', Inv s → step s i = some (w, s') → Inv s') :
    ∀ (is : List ι) (s : σ) (ws : List ω) (t : σ), Inv s →
      exec step s is = some (ws, t) → Inv t := by
  intro is
  induction is with
  | nil =>
      rintro s ws t hs ⟨⟩
      exact hs
  | cons i is ih =>
      intro s ws t hs hexec
      cases hrun : step s i with
      | none => simp [exec, hrun] at hexec
      | some r =>
          obtain ⟨w, s'⟩ := r
          simp only [exec, hrun, Option.map_eq_some_iff, Prod.mk.injEq] at hexec
          obtain ⟨⟨ws', t'⟩, hrest, -, rfl⟩ := hexec
          exact ih s' ws' t' (hstep s i w s' hs hrun) hrest

/-! ## Runs whose operations depend on the state -/

/-- Each operation is permitted in the state that the run meets it in. -/
def Permitted (step : σ → ι → Option (ω × σ)) (Ok : σ → ι → Prop) : σ → List ι → Prop
  | _, [] => True
  | s, i :: is => Ok s i ∧ ∀ w s', step s i = some (w, s') → Permitted step Ok s' is

theorem Permitted.of_forall {Ok : σ → ι → Prop} (is : List ι) (h : ∀ i ∈ is, ∀ s, Ok s i) :
    ∀ s : σ, Permitted step Ok s is := by
  induction is with
  | nil => exact fun _ => trivial
  | cons i is ih =>
      intro s
      refine ⟨h i List.mem_cons_self s, fun _ s' _ => ih (fun j hj => ?_) s'⟩
      exact h j (List.mem_cons_of_mem i hj)

/-- If every permitted operation returns with `P` and keeps the invariant, then so does
every run of permitted operations. -/
theorem Permitted.along {Ok : σ → ι → Prop} (hstep : ∀ s i, Inv s → Ok s i →
      ∃ w s', step s i = some (w, s') ∧ Inv s' ∧ P s i w s') :
    ∀ (is : List ι) (s : σ), Inv s → Permitted step Ok s is → Along step P s is := by
  intro is
  induction is with
  | nil => exact fun _ _ _ => trivial
  | cons i is ih =>
      rintro s hs ⟨hi, hrest⟩
      obtain ⟨w, s', hrun, hs', hp⟩ := hstep s i hs hi
      exact ⟨w, s', hrun, hp, ih s' hs' (hrest w s' hrun)⟩

/-! ## Runs of a relation -/

/-- A run through the operations in order, where a step may go several ways. -/
inductive Trace (rel : σ → ι → σ → Prop) : σ → List ι → σ → Prop
  | nil (s : σ) : Trace rel s [] s
  | cons {s t u : σ} {i : ι} {is : List ι} :
      rel s i t → Trace rel t is u → Trace rel s (i :: is) u

variable {rel : σ → ι → σ → Prop}

theorem Trace.append {s t u : σ} {is js : List ι} (h : Trace rel s is t)
    (h' : Trace rel t js u) : Trace rel s (is ++ js) u := by
  induction h with
  | nil => exact h'
  | cons hfirst _ ih => exact .cons hfirst (ih h')

/-- If every step follows a step of `f` on the specification's state, so does
every run. -/
theorem Trace.follows {R : σ → α → Prop} {f : α → ι → α} {s t : σ} {is : List ι} {a : α}
    (h : Trace rel s is t) (hR : R s a)
    (hstep : ∀ s i t a, R s a → rel s i t → R t (f a i)) : R t (is.foldl f a) := by
  induction h generalizing a with
  | nil => exact hR
  | cons hfirst _ ih => exact ih (hstep _ _ _ _ hR hfirst)

/-- A run keeps an invariant whose steps need a property of the operations. -/
theorem Trace.inv (Inv : σ → Prop) (Ok : ι → Prop) {s t : σ} {is : List ι}
    (h : Trace rel s is t) (hs : Inv s) (hok : ∀ i ∈ is, Ok i)
    (hstep : ∀ s i t, Inv s → Ok i → rel s i t → Inv t) : Inv t := by
  induction h with
  | nil => exact hs
  | cons hfirst _ ih =>
      exact ih (hstep _ _ _ hs (hok _ List.mem_cons_self) hfirst)
        fun j hj => hok j (List.mem_cons_of_mem _ hj)

end Rpos.Base
