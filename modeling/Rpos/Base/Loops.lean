import Mathlib.Data.List.Basic
import Mathlib.Logic.Function.Basic

/-!
# Counting loops

`forRange lo hi body` is the loop `for (j = lo; j < hi; j++)` over an explicit
state. Its one proof rule is an invariant indexed by the counter; the closed
form of a loop that rewrites one cell of an array for each `j` is derived
from it.
-/

namespace Rpos.Base

variable {σ α : Type*}

/-- `for (j = lo; j < hi; j++) body(j)`. -/
def forRange (lo hi : ℕ) (body : ℕ → σ → σ) (s : σ) : σ :=
  (List.range' lo (hi - lo)).foldl (fun s j => body j s) s

theorem forRange_of_le {lo hi : ℕ} (h : hi ≤ lo) (body : ℕ → σ → σ) (s : σ) :
    forRange lo hi body s = s := by
  simp [forRange, Nat.sub_eq_zero_of_le h]

theorem forRange_succ {lo hi : ℕ} (h : lo ≤ hi) (body : ℕ → σ → σ) (s : σ) :
    forRange lo (hi + 1) body s = body hi (forRange lo hi body s) := by
  have hlen : hi + 1 - lo = (hi - lo) + 1 := by omega
  have hlast : lo + (hi - lo) = hi := by omega
  rw [forRange, hlen, List.range'_concat]
  simp [forRange, hlast]

/-- The loop rule: `P j` holds whenever the counter reaches `j`. -/
theorem forRange_inv {lo hi : ℕ} {body : ℕ → σ → σ} {s : σ} (P : ℕ → σ → Prop)
    (hle : lo ≤ hi) (hstart : P lo s)
    (hstep : ∀ j s, lo ≤ j → j < hi → P j s → P (j + 1) (body j s)) :
    P hi (forRange lo hi body s) := by
  induction hi with
  | zero =>
      obtain rfl : lo = 0 := by omega
      rwa [forRange_of_le (Nat.le_refl 0)]
  | succ hi ih =>
      rcases Nat.lt_or_ge lo (hi + 1) with hlt | hge
      · have hlo : lo ≤ hi := by omega
        rw [forRange_succ hlo]
        refine hstep hi _ hlo (Nat.lt_succ_self hi) (ih hlo ?_)
        intro j s hj hlt
        exact hstep j s hj (Nat.lt_succ_of_lt hlt)
      · obtain rfl : lo = hi + 1 := by omega
        rwa [forRange_of_le (Nat.le_refl _)]

theorem foldlM_one (step : σ → α → Option σ) (s : σ) (a : α) : [a].foldlM step s = step s a := by
  rw [List.foldlM_cons]
  exact Option.bind_fun_some _

theorem foldlM_range_succ {body : σ → ℕ → Option σ} {s t : σ} {n : ℕ}
    (hrun : (List.range n).foldlM body s = some t) :
    (List.range (n + 1)).foldlM body s = body t n := by
  rw [List.range_succ, List.foldlM_append, hrun, Option.bind_eq_bind, Option.bind_some,
    foldlM_one]

theorem foldlM_range {P : ℕ → σ → Prop} {body : σ → ℕ → Option σ} {s : σ} {n : ℕ}
    (hstart : P 0 s)
    (hstep : ∀ j s, j < n → P j s → ∃ s', body s j = some s' ∧ P (j + 1) s') :
    ∃ s', (List.range n).foldlM body s = some s' ∧ P n s' := by
  induction n with
  | zero => exact ⟨s, rfl, hstart⟩
  | succ n ih =>
      obtain ⟨t, hrun, ht⟩ := ih fun j s hj => hstep j s (Nat.lt_succ_of_lt hj)
      rw [foldlM_range_succ hrun]
      exact hstep n t (Nat.lt_succ_self n) ht

/-- `R` holds of the state and the counter before each of `n` rounds. -/
def BeforeRounds (body : σ → ℕ → Option σ) (R : σ → ℕ → Prop) (n : ℕ) (s : σ) : Prop :=
  ∀ j < n, ∀ s', (List.range j).foldlM body s = some s' → R s' j

theorem BeforeRounds.imp₂ {body : σ → ℕ → Option σ} {R R' R'' : σ → ℕ → Prop} {n : ℕ} {s : σ}
    (h : BeforeRounds body R n s) (h' : BeforeRounds body R' n s)
    (himp : ∀ s' j, R s' j → R' s' j → R'' s' j) : BeforeRounds body R'' n s :=
  fun j hj s' hrun => himp s' j (h j hj s' hrun) (h' j hj s' hrun)

/-- The rule where a round needs what holds before it: this is known of all rounds, or it
follows, as `A` says, from the invariant. -/
theorem foldlM_range_before {A : Prop} {P : ℕ → σ → Prop} {R : σ → ℕ → Prop}
    {body : σ → ℕ → Option σ} {s : σ} {n : ℕ} (hbefore : A ∨ BeforeRounds body R n s)
    (hstart : P 0 s)
    (hstep : ∀ j s, j < n → P j s → A ∨ R s j →
      R s j ∧ ∃ s', body s j = some s' ∧ P (j + 1) s') :
    BeforeRounds body R n s ∧ ∃ s', (List.range n).foldlM body s = some s' ∧ P n s' := by
  have hround : ∀ j < n, ∀ t, (List.range j).foldlM body s = some t → P j t →
      R t j ∧ ∃ s', body t j = some s' ∧ P (j + 1) s' := by
    intro j hj t hrun ht
    exact hstep j t hj ht (hbefore.imp_right fun h => h j hj t hrun)
  -- every round is reached, with its invariant
  have hreach : ∀ j ≤ n, ∃ t, (List.range j).foldlM body s = some t ∧ P j t := by
    intro j
    induction j with
    | zero => exact fun _ => ⟨s, rfl, hstart⟩
    | succ j ih =>
        intro hj
        obtain ⟨t, hrun, ht⟩ := ih (Nat.le_of_lt hj)
        rw [foldlM_range_succ hrun]
        exact (hround j hj t hrun ht).2
  refine ⟨fun j hj t hrun => ?_, hreach n (Nat.le_refl n)⟩
  obtain ⟨t', hrun', ht'⟩ := hreach j (Nat.le_of_lt hj)
  rw [hrun, Option.some.injEq] at hrun'
  exact (hround j hj t hrun (hrun' ▸ ht')).1

/-- A loop whose rounds are loops of steps, on a part of the state, is one loop. -/
theorem foldlM_flatMap {τ β : Type*} (φ : τ → σ) {body : σ → α → Option σ}
    {step : τ → β → Option τ} {g : α → List β} {l : List α}
    (h : ∀ a ∈ l, ∀ t, body (φ t) a = ((g a).foldlM step t).map φ) (t : τ) :
    l.foldlM body (φ t) = ((l.flatMap g).foldlM step t).map φ := by
  induction l generalizing t with
  | nil => rfl
  | cons a l ih =>
      have hrest := fun t => ih (fun a ha => h a (List.mem_cons_of_mem _ ha)) t
      rw [List.foldlM_cons, h a List.mem_cons_self, List.flatMap_cons, List.foldlM_append,
        Option.bind_eq_bind, Option.bind_eq_bind, Option.map_bind, Option.bind_map]
      congr 1
      exact funext hrest

/-- The cells `p + lo, …, p + hi - 1` of an array, each rewritten by its own
function of the counter. -/
def modifyRange (p lo hi : ℕ) (g : ℕ → α → α) (f : ℕ → α) : ℕ → α :=
  fun q => if p + lo ≤ q ∧ q < p + hi then g (q - p) (f q) else f q

theorem modifyRange_of_mem {p lo hi q : ℕ} {g : ℕ → α → α} {f : ℕ → α}
    (hl : p + lo ≤ q) (hh : q < p + hi) :
    modifyRange p lo hi g f q = g (q - p) (f q) :=
  if_pos ⟨hl, hh⟩

theorem modifyRange_of_notMem {p lo hi q : ℕ} {g : ℕ → α → α} {f : ℕ → α}
    (h : q < p + lo ∨ p + hi ≤ q) : modifyRange p lo hi g f q = f q := by
  refine if_neg ?_
  omega

theorem forRange_update (p lo hi : ℕ) (g : ℕ → α → α) (f : ℕ → α) :
    forRange lo hi
      (fun j f => Function.update f (p + j) (g j (f (p + j)))) f =
        modifyRange p lo hi g f := by
  rcases Nat.lt_or_ge hi lo with hlt | hle
  · rw [forRange_of_le (Nat.le_of_lt hlt)]
    funext q
    rw [modifyRange_of_notMem (by omega)]
  refine forRange_inv (P := fun j a => a = modifyRange p lo j g f) hle ?_ ?_
  · funext q
    rw [modifyRange_of_notMem (by omega)]
  · rintro j _ hlo _ rfl
    funext q
    rw [Function.update_apply]
    by_cases hq : q = p + j
    · subst hq
      rw [if_pos rfl, modifyRange_of_notMem (by omega),
        modifyRange_of_mem (by omega) (by omega), Nat.add_sub_cancel_left]
    · rw [if_neg hq]
      simp only [modifyRange]
      congr 1
      simp only [eq_iff_iff]
      omega

section Stores

variable {κ ν γ : Type*} [DecidableEq κ] {k : γ → κ} {v : γ → ν} {a : κ} {l : List γ}

/-- A loop that stores to the cell `k p` in its round for `p`, read at another cell. -/
theorem foldl_update_of_notMem (f : κ → ν) (ha : ∀ p ∈ l, k p ≠ a) :
    l.foldl (fun f p => Function.update f (k p) (v p)) f a = f a := by
  induction l generalizing f with
  | nil => rfl
  | cons p l ih =>
      obtain ⟨hp, hrest⟩ := List.forall_mem_cons.mp ha
      rw [List.foldl_cons, ih _ hrest]
      exact Function.update_of_ne hp.symm _ _

theorem foldl_update_of_mem (f : κ → ν) {p : γ} (hp : p ∈ l)
    (hinj : ∀ q ∈ l, k q = k p → q = p) :
    l.foldl (fun f p => Function.update f (k p) (v p)) f (k p) = v p := by
  induction l generalizing f with
  | nil => exact absurd hp List.not_mem_nil
  | cons q l ih =>
      rw [List.foldl_cons]
      by_cases hrest : p ∈ l
      · exact ih _ hrest fun r hr => hinj r (List.mem_cons_of_mem q hr)
      · obtain rfl := (List.mem_cons.mp hp).resolve_right hrest
        rw [foldl_update_of_notMem]
        · exact Function.update_self _ _ _
        · intro r hr hk
          exact hrest (hinj r (List.mem_cons_of_mem p hr) hk ▸ hr)

end Stores

/-- A loop over the image of a state is the image of the loop. -/
theorem forRange_hom {τ : Type*} (φ : σ → τ) {lo hi : ℕ} {body : ℕ → σ → σ}
    {body' : ℕ → τ → τ} (h : ∀ j s, φ (body j s) = body' j (φ s)) (s : σ) :
    φ (forRange lo hi body s) = forRange lo hi body' (φ s) :=
  (List.foldl_hom φ fun s j => (h j s).symm).symm

end Rpos.Base
