import Mathlib.Data.Nat.Notation
import Mathlib.Order.Interval.Set.Basic
import Mathlib.Tactic.Ring

/-!
# Byte memory

A flat memory of bytes with block moves and fills. `move` reads the whole
source before it stores. A forward copy in chunks is one `move` when the
destination does not lie inside the rest of the source.
-/

namespace Rpos.Base

abbrev ByteMem := ℕ → UInt8

namespace ByteMem

variable {m : ByteMem} {dest src : ℕ}

def store (m : ByteMem) (dest n : ℕ) (bytes : ℕ → UInt8) : ByteMem :=
  fun a => if dest ≤ a ∧ a < dest + n then bytes (a - dest) else m a

/-- Copy `n` bytes, the source read before any store. -/
def move (m : ByteMem) (dest src n : ℕ) : ByteMem :=
  m.store dest n fun i => m (src + i)

def fill (m : ByteMem) (dest n : ℕ) (v : UInt8) : ByteMem :=
  m.store dest n fun _ => v

theorem store_apply (n : ℕ) (bytes : ℕ → UInt8) {i : ℕ} (hi : i < n) :
    m.store dest n bytes (dest + i) = bytes i := by
  unfold store
  rw [if_pos (by omega)]
  congr 1
  omega

theorem store_other (n : ℕ) (bytes : ℕ → UInt8) {a : ℕ}
    (ha : a < dest ∨ dest + n ≤ a) : m.store dest n bytes a = m a := by
  unfold store
  rw [if_neg (by omega)]

@[simp]
theorem store_zero (bytes : ℕ → UInt8) : m.store dest 0 bytes = m := by
  funext a
  exact store_other 0 bytes (by omega)

@[simp]
theorem move_zero : m.move dest src 0 = m :=
  store_zero _

theorem store_store (k n : ℕ) (bytes bytes' : ℕ → UInt8) :
    (m.store dest k bytes).store (dest + k) n bytes'
      = m.store dest (k + n) fun i => if i < k then bytes i else bytes' (i - k) := by
  funext a
  unfold store
  by_cases hlow : dest ≤ a ∧ a < dest + k
  · rw [if_neg (by omega), if_pos hlow, if_pos (by omega)]
    exact (if_pos (by omega)).symm
  · by_cases hhigh : dest + k ≤ a ∧ a < dest + k + n
    · rw [if_pos hhigh, if_pos (by omega)]
      show _ = if a - dest < k then _ else _
      rw [if_neg (by omega)]
      congr 1
      omega
    · rw [if_neg hhigh, if_neg hlow, if_neg (by omega)]

theorem store_congr (n : ℕ) {bytes bytes' : ℕ → UInt8}
    (h : ∀ i, i < n → bytes i = bytes' i) :
    m.store dest n bytes = m.store dest n bytes' := by
  funext a
  unfold store
  by_cases ha : dest ≤ a ∧ a < dest + n
  · rw [if_pos ha, if_pos ha, h _ (by omega)]
  · rw [if_neg ha, if_neg ha]

/-- A forward copy does not read what it has already overwritten. -/
def Forward (dest src n : ℕ) : Prop := dest ≤ src ∨ src + n ≤ dest

theorem Forward.mono {n n' : ℕ} (h : Forward dest src n) (hn : n' ≤ n) :
    Forward dest src n' := by
  unfold Forward at h ⊢
  omega

theorem Forward.shift {k n : ℕ} (h : Forward dest src (k + n)) :
    Forward (dest + k) (src + k) n := by
  unfold Forward at h ⊢
  omega

theorem move_move (k n : ℕ) (h : Forward dest src (k + n)) :
    (m.move dest src k).move (dest + k) (src + k) n = m.move dest src (k + n) := by
  unfold move
  rw [store_store]
  refine store_congr _ fun i hi => ?_
  by_cases hik : i < k
  · rw [if_pos hik]
  · rw [if_neg hik]
    unfold Forward at h
    rw [show src + k + (i - k) = src + i by omega, store_other]
    omega

theorem fill_fill (k n : ℕ) (v : UInt8) :
    (m.fill dest k v).fill (dest + k) n v = m.fill dest (k + n) v := by
  unfold fill
  rw [store_store]
  exact store_congr _ fun i _ => by split <;> rfl

def moveChunks (c : ℕ) (m : ByteMem) (dest src : ℕ) : ℕ → ByteMem
  | 0 => m
  | n + 1 => moveChunks c (m.move dest src c) (dest + c) (src + c) n

theorem moveChunks_eq (c n : ℕ) (h : Forward dest src (c * n)) :
    moveChunks c m dest src n = m.move dest src (c * n) := by
  induction n generalizing m dest src with
  | zero => simp [moveChunks]
  | succ n ih =>
      have hsum : c * (n + 1) = c + c * n := by ring
      rw [hsum] at h ⊢
      rw [moveChunks, ih h.shift, move_move c (c * n) h]

def ChangesOnly (S : Set ℕ) (m m' : ByteMem) : Prop := ∀ a, a ∉ S → m' a = m a

theorem ChangesOnly.refl (S : Set ℕ) (m : ByteMem) : ChangesOnly S m m := fun _ _ => rfl

theorem ChangesOnly.trans {S : Set ℕ} {m m' m'' : ByteMem} (h : ChangesOnly S m m')
    (h' : ChangesOnly S m' m'') : ChangesOnly S m m'' :=
  fun a ha => (h' a ha).trans (h a ha)

theorem ChangesOnly.mono {S T : Set ℕ} {m m' : ByteMem} (h : ChangesOnly S m m')
    (hST : S ⊆ T) : ChangesOnly T m m' :=
  fun a ha => h a fun haS => ha (hST haS)

theorem store_changesOnly (n : ℕ) (bytes : ℕ → UInt8) :
    ChangesOnly (Set.Ico dest (dest + n)) m (m.store dest n bytes) := by
  intro a ha
  rw [Set.mem_Ico] at ha
  exact store_other n bytes (by omega)

/-- A loop of `n` chunks of `c` bytes, each of which stores to its own range. -/
theorem chunks_changesOnly {c k : ℕ} (loop : ByteMem → ℕ → ℕ → ℕ → ByteMem)
    (hone : ∀ m d s, ChangesOnly (Set.Ico d (d + c)) m (loop m d s k))
    (hmore : ∀ m d s n, ∃ m', ChangesOnly (Set.Ico d (d + c)) m m' ∧
      loop m d s (n + 1 + k) = loop m' (d + c) (s + c) (n + k)) (n : ℕ) :
    ChangesOnly (Set.Ico dest (dest + c * (n + 1))) m (loop m dest src (n + k)) := by
  induction n generalizing m dest src with
  | zero =>
      rw [Nat.zero_add, Nat.zero_add, Nat.mul_one]
      exact hone m dest src
  | succ n ih =>
      obtain ⟨m', hfirst, heq⟩ := hmore m dest src n
      have hsum : c * (n + 1 + 1) = c + c * (n + 1) := by ring
      rw [heq, hsum, ← Nat.add_assoc]
      refine (hfirst.mono (Set.Ico_subset_Ico_right (Nat.le_add_right _ _))).trans ?_
      exact ih.mono (Set.Ico_subset_Ico_left (Nat.le_add_right _ _))

def fillBytes (m : ByteMem) (dest : ℕ) (v : UInt8) : ℕ → ByteMem
  | 0 => m
  | n + 1 => fillBytes (m.fill dest 1 v) (dest + 1) v n

theorem fillBytes_eq (v : UInt8) (n : ℕ) : fillBytes m dest v n = m.fill dest n v := by
  induction n generalizing m dest with
  | zero => simp [fillBytes, fill]
  | succ n ih => rw [fillBytes, ih, fill_fill, Nat.add_comm]

def leNat (bytes : ℕ → UInt8) (a : ℕ) : ℕ → ℕ
  | 0 => 0
  | n + 1 => (bytes a).toNat + 256 * leNat bytes (a + 1) n

theorem leNat_congr {bytes bytes' : ℕ → UInt8} {a b : ℕ} (n : ℕ)
    (h : ∀ i, i < n → bytes (a + i) = bytes' (b + i)) :
    leNat bytes a n = leNat bytes' b n := by
  induction n generalizing a b with
  | zero => rfl
  | succ n ih =>
      have hrest : leNat bytes (a + 1) n = leNat bytes' (b + 1) n := by
        refine ih fun i hi => ?_
        have := h (i + 1) (by omega)
        rwa [show a + 1 + i = a + (i + 1) by omega, show b + 1 + i = b + (i + 1) by omega]
      have hfirst := h 0 (by omega)
      simp only [Nat.add_zero] at hfirst
      rw [leNat, leNat, hfirst, hrest]

theorem leNat_byte (bytes : ℕ → UInt8) {n i : ℕ} (hi : i < n) (a : ℕ) :
    leNat bytes a n / 256 ^ i % 256 = (bytes (a + i)).toNat := by
  induction n generalizing a i with
  | zero => exact absurd hi (Nat.not_lt_zero i)
  | succ n ih =>
      have hbyte := (bytes a).toNat_lt
      rw [leNat]
      cases i with
      | zero =>
          simp only [pow_zero, Nat.div_one, Nat.add_zero]
          omega
      | succ i =>
          have hrest : ((bytes a).toNat + 256 * leNat bytes (a + 1) n) / 256 =
              leNat bytes (a + 1) n := by omega
          rw [Nat.pow_succ', ← Nat.div_div_eq_div_mul, hrest, ih (Nat.lt_of_succ_lt_succ hi),
            Nat.add_right_comm, Nat.add_assoc]

end ByteMem

end Rpos.Base
