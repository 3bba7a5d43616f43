import Mathlib.Logic.Function.Basic

/-!
# Exclusive monitors

A shared word with the monitors of the processors that use it. A
load-exclusive marks the word for its processor, every store takes all marks
away, and a store-exclusive stores only under a mark of its own. So a
store-exclusive that succeeds finds the value that the load has returned: the
pair is one atomic exchange.
-/

namespace Rpos.Base

structure Monitored (Core α : Type*) where
  value : α
  mark : Core → Bool

namespace Monitored

variable {Core α : Type*} {m : Monitored Core α} {loaded : Core → α} {c d : Core} {v : α}

def store (_ : Monitored Core α) (v : α) : Monitored Core α := ⟨v, fun _ => false⟩

def Fresh (m : Monitored Core α) (loaded : Core → α) : Prop :=
  ∀ c, m.mark c = true → loaded c = m.value

@[simp]
theorem value_store : (m.store v).value = v := rfl

@[simp]
theorem mark_store : (m.store v).mark d = false := rfl

theorem fresh_store (m : Monitored Core α) (v : α) (loaded : Core → α) :
    (m.store v).Fresh loaded :=
  fun _ hd => absurd hd Bool.false_ne_true

theorem Fresh.congr {loaded' : Core → α} (h : m.Fresh loaded)
    (heq : ∀ c, m.mark c = true → loaded' c = loaded c) : m.Fresh loaded' :=
  fun c hc => (heq c hc).trans (h c hc)

variable [DecidableEq Core]

def loadExclusive (m : Monitored Core α) (c : Core) : Monitored Core α :=
  { m with mark := Function.update m.mark c true }

def clear (m : Monitored Core α) (c : Core) : Monitored Core α :=
  { m with mark := Function.update m.mark c false }

/-- The store-exclusive of a processor that has a mark succeeds; if not, only its
own mark is lost. -/
def storeExclusive (m : Monitored Core α) (c : Core) (v : α) : Monitored Core α :=
  if m.mark c then m.store v else m.clear c

@[simp]
theorem value_loadExclusive : (m.loadExclusive c).value = m.value := rfl

@[simp]
theorem mark_loadExclusive :
    (m.loadExclusive c).mark d = if d = c then true else m.mark d :=
  Function.update_apply _ _ _ _

@[simp]
theorem value_clear : (m.clear c).value = m.value := rfl

@[simp]
theorem mark_clear : (m.clear c).mark d = if d = c then false else m.mark d :=
  Function.update_apply _ _ _ _

theorem storeExclusive_of_mark (hc : m.mark c = true) : m.storeExclusive c v = m.store v :=
  if_pos hc

theorem storeExclusive_of_not_mark (hc : m.mark c = false) :
    m.storeExclusive c v = m.clear c :=
  if_neg (by rw [hc]; exact Bool.false_ne_true)

theorem Fresh.loadExclusive (h : m.Fresh loaded) (c : Core) :
    (m.loadExclusive c).Fresh (Function.update loaded c m.value) := by
  intro d hd
  by_cases hdc : d = c
  · rw [hdc, Function.update_self, value_loadExclusive]
  · rw [mark_loadExclusive, if_neg hdc] at hd
    rw [Function.update_of_ne hdc]
    exact h d hd

theorem Fresh.clear (h : m.Fresh loaded) (c : Core) : (m.clear c).Fresh loaded := by
  intro d hd
  by_cases hdc : d = c
  · rw [mark_clear, if_pos hdc] at hd
    exact absurd hd Bool.false_ne_true
  · rw [mark_clear, if_neg hdc] at hd
    exact h d hd

end Monitored

end Rpos.Base
