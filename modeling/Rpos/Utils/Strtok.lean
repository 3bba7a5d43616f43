import Mathlib.Logic.Function.Basic
import Rpos.Base.CString
import Rpos.Base.Runs
import Rpos.Base.Segments

/-!
# Strtok

`strtok` of `utils.c`. A call returns the next token of a string and puts a zero byte behind
it; where the call after it goes on is left in `*saveptr`.
-/

namespace Rpos

open Base

/-- The memory, `*saveptr`, and the addresses that have been loaded from or stored to. -/
structure Tokenizer where
  mem : ByteMem
  saveptr : ℕ
  touched : List ℕ

namespace Tokenizer

def load (t : Tokenizer) (a : ℕ) : Tokenizer := { t with touched := t.touched ++ [a] }

def store (t : Tokenizer) (a : ℕ) (c : UInt8) : Tokenizer :=
  { t with mem := Function.update t.mem a c, touched := t.touched ++ [a] }

end Tokenizer

/-- `while(*s == delim) s++`. -/
def skipDelims (delim : UInt8) : ℕ → ℕ → Tokenizer → Option (ℕ × Tokenizer)
  | 0, _, _ => none
  | fuel + 1, s, t =>
      if t.mem s = delim then skipDelims delim fuel (s + 1) (t.load s)
      else some (s, t.load s)

/-- `while((c = *s))` and the returns behind it. -/
def matchToken (delim : UInt8) (token : ℕ) : ℕ → ℕ → Tokenizer → Option (ℕ × Tokenizer)
  | 0, _, _ => none
  | fuel + 1, s, t =>
      let c := t.mem s
      let t := t.load s
      if c ≠ 0 then
        if c = delim then some (token, { t.store s 0 with saveptr := s + 1 })
        else matchToken delim token fuel (s + 1) t
      else
        -- the natural end of a string that is not empty
        some (token, { t with saveptr := s })

def strtok (fuel : ℕ) (delim : UInt8) (t : Tokenizer) (str : ℕ) : Option (ℕ × Tokenizer) :=
  let s := if str ≠ 0 then str else t.saveptr
  if s = 0 then some (0, t)
  else
    match skipDelims delim fuel s t with
    | none => none
    | some (s, t) =>
        let c := t.mem s
        let t := t.load s
        if c = 0 then some (0, { t with saveptr := s })
        else matchToken delim s fuel s t

namespace Tokenizer

def loads (t : Tokenizer) (a n : ℕ) : Tokenizer :=
  { t with touched := t.touched ++ List.range' a n }

theorem load_loads (t : Tokenizer) (a n : ℕ) : (t.load a).loads (a + 1) n = t.loads a (n + 1) := by
  rw [loads, loads, load, List.range'_succ, List.append_assoc]
  rfl

end Tokenizer

def StandsFrom (m : ByteMem) (a : ℕ) (s : List UInt8) (p : ℕ) : Prop :=
  ∀ k, p ≤ k → k ≤ s.length → m (a + k) = s.getD k 0

section Loops

variable {delim : UInt8} {a p token fuel : ℕ} {s : List UInt8} {t : Tokenizer}

theorem StandsFrom.get {m : ByteMem} (h : StandsFrom m a s p) (hp : p < s.length) :
    m (a + p) = s[p] := by
  rw [h p (Nat.le_refl p) hp.le, List.getD_eq_getElem?_getD, List.getElem?_eq_getElem hp]
  rfl

theorem StandsFrom.end {m : ByteMem} (h : StandsFrom m a s p) (hp : p ≤ s.length) :
    m (a + s.length) = 0 := by
  rw [h s.length hp (Nat.le_refl _), List.getD_eq_getElem?_getD,
    List.getElem?_eq_none (Nat.le_refl _)]
  rfl

theorem StandsFrom.mono {m : ByteMem} {q : ℕ} (h : StandsFrom m a s p) (hpq : p ≤ q) :
    StandsFrom m a s q := fun k hk => h k (hpq.trans hk)

/-- The first loop ends behind the delimiters: the terminator is none. -/
theorem skipDelims_eq (hd : delim ≠ 0) (hp : p ≤ s.length) (hs : StandsFrom t.mem a s p)
    (hfuel : s.length < p + fuel) :
    skipDelims delim fuel (a + p) t = some (a + runEnd (· = delim) s p,
      t.loads (a + p) (runEnd (· = delim) s p + 1 - p)) := by
  induction fuel generalizing p t with
  | zero => exact absurd hp (Nat.not_le.mpr hfuel)
  | succ fuel ih =>
      rw [skipDelims]
      rcases Nat.eq_or_lt_of_le hp with heq | hlt
      · rw [runEnd_of_length_le heq.ge, heq, hs.end hp, if_neg hd.symm, Nat.add_sub_cancel_left]
        rfl
      · rw [hs.get hlt]
        by_cases hc : s[p] = delim
        · have hle := le_runEnd (· = delim) s (p + 1)
          have hlen : runEnd (· = delim) s (p + 1) + 1 - p =
              runEnd (· = delim) s (p + 1) + 1 - (p + 1) + 1 := by omega
          rw [if_pos hc, runEnd_step hlt (decide_eq_true hc), hlen, ← Tokenizer.load_loads]
          exact ih (Nat.succ_le_of_lt hlt) (hs.mono (Nat.le_succ p)) (by omega)
        · rw [if_neg hc, runEnd_stop hlt (by simpa using hc), Nat.add_sub_cancel_left]
          rfl

/-- The second loop ends at a delimiter, which it overwrites, or at the terminator. -/
theorem matchToken_eq (hne : ∀ c ∈ s, c ≠ 0) (hp : p ≤ s.length) (hs : StandsFrom t.mem a s p)
    (hfuel : s.length < p + fuel) :
    matchToken delim token fuel (a + p) t =
      let j := runEnd (· ≠ delim) s p
      let t' := t.loads (a + p) (j + 1 - p)
      if j < s.length then some (token, { t'.store (a + j) 0 with saveptr := a + j + 1 })
      else some (token, { t' with saveptr := a + j }) := by
  induction fuel generalizing p t with
  | zero => exact absurd hp (Nat.not_le.mpr hfuel)
  | succ fuel ih =>
      rw [matchToken]
      dsimp only
      rcases Nat.eq_or_lt_of_le hp with heq | hlt
      · rw [runEnd_of_length_le heq.ge, heq, hs.end hp, if_neg (not_not_intro rfl),
          if_neg (Nat.lt_irrefl _), Nat.add_sub_cancel_left]
        rfl
      · rw [hs.get hlt, if_pos (hne _ (List.getElem_mem hlt))]
        by_cases hc : s[p] = delim
        · rw [if_pos hc, runEnd_stop hlt (by simpa using hc), if_pos hlt,
            Nat.add_sub_cancel_left]
          rfl
        · have hle := le_runEnd (· ≠ delim) s (p + 1)
          have hlen : runEnd (· ≠ delim) s (p + 1) + 1 - p =
              runEnd (· ≠ delim) s (p + 1) + 1 - (p + 1) + 1 := by omega
          rw [if_neg hc, runEnd_step hlt (decide_eq_true hc), hlen, ← Tokenizer.load_loads]
          exact ih (Nat.succ_le_of_lt hlt) (hs.mono (Nat.le_succ p)) (by omega)

end Loops

/-! ## Calls -/

/-- The memory with a zero byte at each of the offsets from `a`. -/
def terminated (m : ByteMem) (a : ℕ) (ends : List ℕ) : ByteMem := fun x =>
  if ∃ j ∈ ends, x = a + j then 0 else m x

theorem terminated_nil (m : ByteMem) (a : ℕ) : terminated m a [] = m := by
  funext x
  exact if_neg fun ⟨j, hj, _⟩ => List.not_mem_nil hj

theorem terminated_singleton (m : ByteMem) (a j : ℕ) :
    terminated m a [j] = Function.update m (a + j) 0 := by
  funext x
  by_cases hx : x = a + j
  · rw [hx, Function.update_self]
    exact if_pos ⟨j, List.mem_singleton_self j, rfl⟩
  · rw [Function.update_of_ne hx]
    refine if_neg fun ⟨k, hk, hxk⟩ => hx ?_
    rw [hxk, List.mem_singleton.mp hk]

theorem terminated_terminated (m : ByteMem) (a : ℕ) (js ks : List ℕ) :
    terminated (terminated m a js) a ks = terminated m a (js ++ ks) := by
  funext x
  unfold terminated
  by_cases hks : ∃ j ∈ ks, x = a + j
  · obtain ⟨j, hj, hx⟩ := hks
    rw [if_pos ⟨j, hj, hx⟩, if_pos ⟨j, List.mem_append_right js hj, hx⟩]
  · rw [if_neg hks]
    by_cases hjs : ∃ j ∈ js, x = a + j
    · obtain ⟨j, hj, hx⟩ := hjs
      rw [if_pos ⟨j, hj, hx⟩, if_pos ⟨j, List.mem_append_left ks hj, hx⟩]
    · rw [if_neg hjs, if_neg]
      rintro ⟨j, hj, hx⟩
      rcases List.mem_append.mp hj with hj | hj
      · exact hjs ⟨j, hj, hx⟩
      · exact hks ⟨j, hj, hx⟩

def Tokenizer.start (t : Tokenizer) (str : ℕ) : ℕ := if str ≠ 0 then str else t.saveptr

/-- Only the string and its terminator have been loaded from or stored to. -/
def Tokenizer.Inside (t : Tokenizer) (a : ℕ) (s : List UInt8) : Prop :=
  ∀ x ∈ t.touched, a ≤ x ∧ x ≤ a + s.length

/-- The segments of `s` from the pointer `ptr` on are `segs`, and there the string is as it
was. -/
def Ahead (a : ℕ) (s : List UInt8) (delim : UInt8) (m : ByteMem) (ptr : ℕ)
    (segs : List (ℕ × ℕ)) : Prop :=
  ∃ p, p ≤ s.length ∧ ptr = a + p ∧ StandsFrom m a s p ∧ segmentsFrom delim s p = segs

def answer (a : ℕ) : List (ℕ × ℕ) → ℕ
  | [] => 0
  | q :: _ => a + q.1

section Calls

variable {delim : UInt8} {a fuel : ℕ} {s : List UInt8} {t : Tokenizer} {segs : List (ℕ × ℕ)}

theorem strtok_eq {str p : ℕ} (hd : delim ≠ 0) (ha : a ≠ 0) (hne : ∀ c ∈ s, c ≠ 0)
    (hfuel : s.length < fuel) (hp : p ≤ s.length) (hptr : t.start str = a + p)
    (hs : StandsFrom t.mem a s p) :
    strtok fuel delim t str =
      let i := runEnd (· = delim) s p
      let t := (t.loads (a + p) (i + 1 - p)).load (a + i)
      if i < s.length then
        let j := runEnd (· ≠ delim) s i
        let t := t.loads (a + i) (j + 1 - i)
        if j < s.length then some (a + i, { t.store (a + j) 0 with saveptr := a + j + 1 })
        else some (a + i, { t with saveptr := a + j })
      else some (0, { t with saveptr := a + i }) := by
  have hstart : (if str ≠ 0 then str else t.saveptr) = a + p := hptr
  have hpos : a + p ≠ 0 := fun h => ha (Nat.eq_zero_of_add_eq_zero_right h)
  have hend := runEnd_le (P := (· = delim)) hp
  have hs' := hs.mono (le_runEnd (· = delim) s p)
  unfold strtok
  rw [hstart]
  dsimp only
  rw [if_neg hpos, skipDelims_eq hd hp hs (hfuel.trans_le (Nat.le_add_left fuel p))]
  dsimp only
  show (if t.mem (a + runEnd (· = delim) s p) = 0 then _ else _) = _
  rcases Nat.eq_or_lt_of_le hend with heq | hlt
  · rw [heq, hs.end hp, if_pos rfl, if_neg (Nat.lt_irrefl _)]
  · rw [hs'.get hlt, if_neg (hne _ (List.getElem_mem hlt)), if_pos hlt]
    exact matchToken_eq hne hend hs' (hfuel.trans_le (Nat.le_add_left fuel _))

theorem Tokenizer.Inside.loads {p q : ℕ} (h : t.Inside a s) (hp : p ≤ q) (hq : q ≤ s.length) :
    (t.loads (a + p) (q + 1 - p)).Inside a s := by
  intro x hx
  rcases List.mem_append.mp hx with hold | hnew
  · exact h x hold
  · rw [List.mem_range'_1] at hnew
    omega

theorem Tokenizer.Inside.load {q : ℕ} (h : t.Inside a s) (hq : q ≤ s.length) :
    (t.load (a + q)).Inside a s := by
  intro x hx
  rcases List.mem_append.mp hx with hold | hnew
  · exact h x hold
  · rw [List.mem_singleton.mp hnew]
    exact ⟨Nat.le_add_right a q, Nat.add_le_add_left hq a⟩

theorem Ahead.strtok {str : ℕ} (hd : delim ≠ 0) (ha : a ≠ 0) (hne : ∀ c ∈ s, c ≠ 0)
    (hfuel : s.length < fuel) (h : Ahead a s delim t.mem (t.start str) segs)
    (hin : t.Inside a s) :
    ∃ t', strtok fuel delim t str = some (answer a segs, t') ∧
      t'.mem = terminated t.mem a ((segs.take 1).map Prod.snd) ∧
      Ahead a s delim t'.mem t'.saveptr segs.tail ∧ t'.Inside a s := by
  obtain ⟨p, hp, hptr, hs, rfl⟩ := h
  have hle := le_runEnd (· = delim) s p
  have hend := runEnd_le (P := (· = delim)) hp
  have hin' := (hin.loads hle hend).load hend
  have hcall := strtok_eq hd ha hne hfuel hp hptr hs
  dsimp only at hcall
  rcases Nat.eq_or_lt_of_le hend with heq | hlt
  · -- only delimiters are left
    rw [if_neg (heq ▸ Nat.lt_irrefl _)] at hcall
    rw [segmentsFrom_nil (heq ▸ Nat.lt_irrefl _), hcall]
    refine ⟨_, rfl, (terminated_nil _ _).symm, ⟨_, hend, rfl, hs.mono hle, ?_⟩, hin'⟩
    exact segmentsFrom_of_length_le heq.ge
  · have hle' := le_runEnd (· ≠ delim) s (runEnd (· = delim) s p)
    have hend' := runEnd_le (P := (· ≠ delim)) hend
    rw [if_pos hlt] at hcall
    rw [segmentsFrom_cons hlt, hcall]
    generalize runEnd (· ≠ delim) s (runEnd (· = delim) s p) = j at hle' hend' ⊢
    have hin'' := hin'.loads hle' hend'
    by_cases hj : j < s.length
    · rw [if_pos hj]
      refine ⟨_, rfl, (terminated_singleton _ _ _).symm, ⟨j + 1, hj, rfl, ?_, rfl⟩,
        hin''.load hend'⟩
      intro k hk hks
      show Function.update t.mem (a + j) 0 (a + k) = _
      rw [Function.update_of_ne (by omega)]
      exact hs k (hle.trans (hle'.trans (Nat.le_of_succ_le hk))) hks
    · have heq : j = s.length := Nat.le_antisymm hend' (Nat.not_lt.mp hj)
      have hzero : t.mem (a + j) = 0 := heq ▸ hs.end hp
      rw [if_neg hj]
      refine ⟨_, rfl, ?_, ⟨j, hend', rfl, hs.mono (hle.trans hle'), ?_⟩, hin''⟩
      · show t.mem = terminated t.mem a [j]
        rw [terminated_singleton, ← hzero, Function.update_eq_self]
      · rw [segmentsFrom_of_length_le heq.ge]
        exact (segmentsFrom_of_length_le (heq.ge.trans (Nat.le_succ j))).symm

def answers (a : ℕ) : ℕ → List (ℕ × ℕ) → List ℕ
  | 0, _ => []
  | n + 1, segs => answer a segs :: answers a n segs.tail

theorem answers_eq (a n : ℕ) (segs : List (ℕ × ℕ)) :
    answers a n segs =
      (segs.take n).map (fun q => a + q.1) ++ List.replicate (n - segs.length) 0 := by
  induction n generalizing segs with
  | zero => simp [answers]
  | succ n ih =>
      rw [answers, ih]
      cases segs with
      | nil => simp [answer, List.replicate_succ]
      | cons q segs => simp [answer]

theorem Ahead.exec_strtok (hd : delim ≠ 0) (ha : a ≠ 0) (hne : ∀ c ∈ s, c ≠ 0)
    (hfuel : s.length < fuel) (n : ℕ) {str : ℕ} (h : Ahead a s delim t.mem (t.start str) segs)
    (hin : t.Inside a s) :
    ∃ t', exec (Rpos.strtok fuel delim) t (str :: List.replicate n 0) =
        some (answers a (n + 1) segs, t') ∧
      t'.mem = terminated t.mem a ((segs.take (n + 1)).map Prod.snd) ∧ t'.Inside a s := by
  induction n generalizing t str segs with
  | zero =>
      obtain ⟨t', hcall, hmem, -, hin'⟩ := h.strtok hd ha hne hfuel hin
      refine ⟨t', ?_, hmem, hin'⟩
      rw [List.replicate_zero, exec, hcall]
      rfl
  | succ n ih =>
      obtain ⟨t₁, hcall, hmem₁, hahead, hin₁⟩ := h.strtok hd ha hne hfuel hin
      have hnull : Ahead a s delim t₁.mem (t₁.start 0) segs.tail := hahead
      obtain ⟨t', hexec, hmem, hin'⟩ := ih hnull hin₁
      refine ⟨t', ?_, ?_, hin'⟩
      · rw [List.replicate_succ, exec, hcall]
        dsimp only
        rw [hexec]
        rfl
      · rw [hmem, hmem₁, terminated_terminated, ← List.map_append]
        congr 2
        cases segs <;> rfl

theorem exec_strtok {m : ByteMem} (hstring : CStr m a s) (hd : delim ≠ 0) (ha : a ≠ 0)
    (save n : ℕ) (hfuel : s.length < fuel) :
    ∃ t', exec (strtok fuel delim) ⟨m, save, []⟩ (a :: List.replicate n 0) =
        some (answers a (n + 1) (segmentsFrom delim s 0), t') ∧
      t'.mem = terminated m a (((segmentsFrom delim s 0).take (n + 1)).map Prod.snd) ∧
      t'.Inside a s := by
  apply Ahead.exec_strtok (t := ⟨m, save, []⟩) hd ha hstring.ne_zero hfuel n
  · refine ⟨0, Nat.zero_le _, if_pos ha, fun k _ hk => hstring.get hk, rfl⟩
  · intro x hx
    exact absurd hx List.not_mem_nil

end Calls

/-! ## The tokens of a string -/

section Tokens

variable {delim : UInt8} {m : ByteMem} {a : ℕ} {s : List UInt8} {segs : List (ℕ × ℕ)}

theorem terminated_changes (hstring : CStr m a s)
    (hsegs : ∀ q ∈ segs, MaximalSegment delim s q.1 q.2) {x : ℕ}
    (hx : terminated m a (segs.map Prod.snd) x ≠ m x) : ∃ k, x = a + k ∧ s[k]? = some delim := by
  unfold terminated at hx
  by_cases hends : ∃ j ∈ segs.map Prod.snd, x = a + j
  · rw [if_pos hends] at hx
    obtain ⟨j, hj, rfl⟩ := hends
    obtain ⟨q, hq, rfl⟩ := List.mem_map.mp hj
    rcases (hsegs q hq).right with hend | hdelim
    · rw [hend, hstring.terminator] at hx
      exact absurd rfl hx
    · exact ⟨q.2, rfl, hdelim⟩
  · exact absurd (if_neg hends) hx

theorem terminated_part (hstring : CStr m a s)
    (hsegs : ∀ q ∈ segs, MaximalSegment delim s q.1 q.2) {q : ℕ × ℕ} (hq : q ∈ segs) :
    CStr (terminated m a (segs.map Prod.snd)) (a + q.1) (part s q) := by
  have hmax := hsegs q hq
  have hlen := length_part hmax
  apply CStr.of_get
  · intro k hk
    rw [hlen] at hk
    rcases Nat.eq_or_lt_of_le hk with heq | hlt
    · -- the byte behind the segment
      rw [List.getD_eq_getElem?_getD, List.getElem?_eq_none (hlen.trans heq.symm).le]
      refine if_pos ⟨q.2, List.mem_map_of_mem hq, ?_⟩
      have hne := hmax.nonempty
      omega
    · -- a byte of the segment is not behind another one
      have hinside : q.1 + k < s.length := by
        have hle := hmax.inside
        omega
      have hsame : terminated m a (segs.map Prod.snd) (a + q.1 + k) = m (a + q.1 + k) := by
        by_contra hne
        obtain ⟨l, hl, hdelim⟩ := terminated_changes hstring hsegs hne
        apply hmax.free l _ _ hdelim
        · omega
        · omega
      rw [hsame, Nat.add_assoc, hstring.get hinside.le, List.getD_eq_getElem?_getD,
        List.getD_eq_getElem?_getD, getElem?_part hlt]
  · intro c hc
    exact hstring.ne_zero c (List.mem_of_mem_drop (List.mem_of_mem_take hc))

end Tokens

/-- A first call with the string and then calls with NULL return its maximal segments without
the delimiter, in order, and NULL from then on. Each segment stands there as a string, only
delimiters have been overwritten, and nothing outside of the string has been touched. -/
theorem strtok_splits {m : ByteMem} {a : ℕ} {s : List UInt8} (hstring : CStr m a s) (ha : a ≠ 0)
    {delim : UInt8} (hd : delim ≠ 0) :
    ∃ segs : List (ℕ × ℕ), segs.Pairwise (fun q r => q.2 < r.1) ∧
      (∀ i j, (i, j) ∈ segs ↔ MaximalSegment delim s i j) ∧
      ∀ save n fuel, s.length < fuel →
        ∃ t, exec (strtok fuel delim) ⟨m, save, []⟩ (a :: List.replicate n 0) =
            some ((segs.take (n + 1)).map (fun q => a + q.1) ++
              List.replicate (n + 1 - segs.length) 0, t) ∧
          (∀ q ∈ segs.take (n + 1), CStr t.mem (a + q.1) (part s q)) ∧
          (∀ x, t.mem x ≠ m x → ∃ k, x = a + k ∧ s[k]? = some delim) ∧
          (∀ x ∈ t.touched, a ≤ x ∧ x ≤ a + s.length) := by
  have hstart : StartsAfresh delim s 0 := Or.inl rfl
  have hmem : ∀ i j, (i, j) ∈ segmentsFrom delim s 0 ↔ MaximalSegment delim s i j := by
    intro i j
    rw [mem_segmentsFrom hstart]
    exact and_iff_left (Nat.zero_le i)
  refine ⟨segmentsFrom delim s 0, segmentsFrom_sorted delim s hstart, hmem, ?_⟩
  intro save n fuel hfuel
  obtain ⟨t, hexec, hmem', hin⟩ := exec_strtok hstring hd ha save n hfuel
  have hsegs : ∀ q ∈ (segmentsFrom delim s 0).take (n + 1),
      MaximalSegment delim s q.1 q.2 := fun q hq => (hmem _ _).mp (List.mem_of_mem_take hq)
  refine ⟨t, ?_, ?_, ?_, hin⟩
  · rw [hexec, answers_eq]
  · intro q hq
    rw [hmem']
    exact terminated_part hstring hsegs hq
  · intro x hx
    rw [hmem'] at hx
    exact terminated_changes hstring hsegs hx

/-- The path `/a//b`, at address 8. -/
def pathBytes : ByteMem := fun x => [47, 97, 47, 47, 98].getD (x - 8) 0

/-- The segments of `/a//b` are `a` and `b`. -/
theorem strtok_splits_example :
    ∃ segs : List (ℕ × ℕ), (1, 2) ∈ segs ∧ (4, 5) ∈ segs ∧
      ∀ save, ∃ t, exec (strtok 6 47) ⟨pathBytes, save, []⟩ [8, 0, 0] =
        some ((segs.take 3).map (fun q => 8 + q.1) ++ List.replicate (3 - segs.length) 0, t) := by
  have hstring : CStr pathBytes 8 [47, 97, 47, 47, 98] :=
    .cons rfl (by decide) (.cons rfl (by decide) (.cons rfl (by decide) (.cons rfl (by decide)
      (.cons rfl (by decide) (.nil rfl)))))
  obtain ⟨segs, -, hmem, hrun⟩ := strtok_splits hstring (by decide) (show (47 : UInt8) ≠ 0 by decide)
  refine ⟨segs, (hmem 1 2).mpr ?_, (hmem 4 5).mpr ?_, fun save => ?_⟩
  · refine ⟨by decide, by decide, fun k hlo hhi => ?_, Or.inr rfl, Or.inr rfl⟩
    obtain rfl : k = 1 := Nat.le_antisymm (Nat.le_of_lt_succ hhi) hlo
    decide
  · refine ⟨by decide, by decide, fun k hlo hhi => ?_, Or.inr rfl, Or.inl rfl⟩
    obtain rfl : k = 4 := Nat.le_antisymm (Nat.le_of_lt_succ hhi) hlo
    decide
  · obtain ⟨t, hexec, -⟩ := hrun save 2 6 (by decide)
    exact ⟨t, hexec⟩

example : (exec (strtok 6 47) ⟨pathBytes, 0, []⟩ [8, 0, 0, 0]).map Prod.fst =
    some [9, 12, 0, 0] := rfl

end Rpos
