import Mathlib.Order.Bounds.Basic
import Mathlib.Data.Char
import Mathlib.Data.List.Induction
import Rpos.Base.BitField

/-!
# The device trie

`trie_add` and `trie_get` of `trie.c`. A level is a list of siblings in
increasing order of their character, linked by `next`; `down` leads to the
level of the characters that may follow. The order of `char` (signed or not)
is the compiler's choice, so the model takes any linear order.

The levels hold the map from keys to values faithfully (`paths_addAll`);
`trie_get` then reads the value of the first sibling of the last level.
-/

namespace Rpos

open Base

inductive TrieNode (α : Type*)
  | null
  | node (c : α) (value : Word) (next down : TrieNode α)

/-- `trie`. Every increment of `keys` allocates a 32-byte node, so the 32-bit
counter cannot wrap while allocations succeed. -/
structure Trie (α : Type*) where
  head : TrieNode α
  keys : ℕ

/-- A non-empty NUL-terminated key: its characters before the NUL. -/
structure TrieKey (α : Type*) where
  first : α
  rest : List α

namespace TrieKey

variable {α : Type*}

def chars (k : TrieKey α) : List α := k.first :: k.rest

end TrieKey

variable {α : Type*}

def trieInit : Trie α := ⟨.null, 0⟩

/-- `trie_add_down`: new nodes for the rest of a key. Only the last one
carries the value. -/
def trieAddDown (value : Word) : α → List α → TrieNode α
  | c, [] => .node c value .null .null
  | c, d :: cs => .node c 0 .null (trieAddDown value d cs)

/-- `new_node->next = cur`. -/
def TrieNode.setNext : TrieNode α → TrieNode α → TrieNode α
  | .null, _ => .null
  | .node c v _ down, cur => .node c v cur down

def TrieNode.value : TrieNode α → Word
  | .null => 0
  | .node _ v _ _ => v

section Order

variable [LinearOrder α]

def trieGetDown : TrieNode α → α → TrieNode α
  | .null, _ => .null
  | .node d _ next down, c =>
      if d < c then trieGetDown next c
      else if d = c then down
      else .null

/-- The level walk of `trie_add`: `node` is the current level, `c :: cs` what
remains of the key. -/
def trieAddAt (value : Word) : TrieNode α → α → List α → TrieNode α
  | .null, c, cs => trieAddDown value c cs
  | .node d v next down, c, cs =>
      if d < c then .node d v (trieAddAt value next c cs) down
      else if d = c then
        match cs with
        | [] => .node d value next down
        | c' :: cs' => .node d v next (trieAddAt value down c' cs')
      else (trieAddDown value c cs).setNext (.node d v next down)

/-- The same walk finds a node for every character of the key, so that no
chain is inserted. -/
def trieHas : TrieNode α → α → List α → Bool
  | .null, _, _ => false
  | .node d _ next down, c, cs =>
      if d < c then trieHas next c cs
      else if d = c then
        match cs with
        | [] => true
        | c' :: cs' => trieHas down c' cs'
      else false

def trieAdd (t : Trie α) (key : TrieKey α) (value : Word) : Trie α :=
  if t.keys = 0 then
    ⟨trieAddDown value key.first key.rest, t.keys + 1⟩
  else
    ⟨trieAddAt value t.head key.first key.rest,
      if trieHas t.head key.first key.rest then t.keys else t.keys + 1⟩

/-- The loop of `trie_get`. -/
def trieGetLoop : TrieNode α → TrieNode α → List α → Word
  | _, _, [] => 0
  | .null, _, _ :: _ => 0
  | .node d v next down, prevnode, c :: cs =>
      match trieGetDown (.node d v next down) c, cs with
      | .null, [] => prevnode.value
      | node, cs => trieGetLoop node node cs

def trieGet (t : Trie α) (key : List α) : Word :=
  if t.keys = 0 then 0 else trieGetLoop t.head t.head key

/-- A sequence of calls of `trie_add` on a new trie. -/
def addAll (adds : List (TrieKey α × Word)) : Trie α :=
  adds.foldl (fun t a => trieAdd t a.1 a.2) trieInit

/-! ## The paths of a level -/

/-- The value at the node that a path of characters leads to. -/
def nodeAt : TrieNode α → List α → Option Word
  | .null, _ => none
  | .node _ _ _ _, [] => none
  | .node d v next down, c :: cs =>
      if d = c then
        match cs with
        | [] => some v
        | c' :: cs' => nodeAt down (c' :: cs')
      else nodeAt next (c :: cs)

def Above (b : α) : TrieNode α → Prop
  | .null => True
  | .node d _ next _ => b < d ∧ Above b next

/-- Siblings are in strictly increasing order, on every level. -/
def Sorted : TrieNode α → Prop
  | .null => True
  | .node d _ next down => Above d next ∧ Sorted next ∧ Sorted down

theorem Above.mono {b c : α} {n : TrieNode α} (h : Above c n) (hbc : b ≤ c) :
    Above b n := by
  induction n with
  | null => trivial
  | node d v next down ihn _ => exact ⟨lt_of_le_of_lt hbc h.1, ihn h.2⟩

@[simp]
theorem nodeAt_nil (n : TrieNode α) : nodeAt n [] = none := by
  cases n <;> rfl

theorem nodeAt_of_ne {d c : α} (h : d ≠ c) (v : Word) (next down : TrieNode α)
    (cs : List α) :
    nodeAt (.node d v next down) (c :: cs) = nodeAt next (c :: cs) := by
  simp [nodeAt, h]

@[simp]
theorem nodeAt_self (d : α) (v : Word) (next down : TrieNode α) :
    nodeAt (.node d v next down) [d] = some v := by
  simp [nodeAt]

@[simp]
theorem nodeAt_down (d e : α) (v : Word) (next down : TrieNode α) (es : List α) :
    nodeAt (.node d v next down) (d :: e :: es) = nodeAt down (e :: es) := by
  simp [nodeAt]

/-- A level above `b` has no node for `b` or a smaller character. -/
theorem Above.nodeAt_eq_none {b : α} {n : TrieNode α} (h : Above b n) {c : α}
    (hc : c ≤ b) (cs : List α) : nodeAt n (c :: cs) = none := by
  induction n with
  | null => rfl
  | node d v next down ihn _ =>
      rw [nodeAt_of_ne (ne_of_gt (lt_of_le_of_lt hc h.1))]
      exact ihn h.2

/-- A search that stops at a larger sibling has seen all that matters. -/
theorem Sorted.nodeAt_of_lt {d : α} {v : Word} {next down : TrieNode α}
    (h : Sorted (.node d v next down)) {c : α} (hc : c < d) (cs : List α) :
    nodeAt (.node d v next down) (c :: cs) = none := by
  rw [nodeAt_of_ne (ne_of_gt hc)]
  exact h.1.nodeAt_eq_none hc.le cs

theorem trieGetDown_spec {n : TrieNode α} (h : Sorted n) (c : α) :
    Sorted (trieGetDown n c) ∧
      ∀ e es, nodeAt (trieGetDown n c) (e :: es) = nodeAt n (c :: e :: es) := by
  induction n with
  | null => exact ⟨trivial, fun _ _ => rfl⟩
  | node d v next down ihn _ =>
      unfold trieGetDown
      by_cases hlt : d < c
      · rw [if_pos hlt]
        refine ⟨(ihn h.2.1).1, fun e es => ?_⟩
        rw [(ihn h.2.1).2, nodeAt_of_ne (ne_of_lt hlt)]
      · rw [if_neg hlt]
        by_cases heq : d = c
        · rw [if_pos heq]
          refine ⟨h.2.2, fun e es => ?_⟩
          rw [heq, nodeAt_down]
        · rw [if_neg heq]
          have hcd : c < d := lt_of_le_of_ne (not_lt.mp hlt) (Ne.symm heq)
          refine ⟨trivial, fun e es => ?_⟩
          rw [h.nodeAt_of_lt hcd]
          rfl

/-! ## `trie_add` -/

/-- The paths after an insertion: the key leads to the new value, a prefix of
it to a node, and nothing else changes. -/
def addPath (paths : List α → Option Word) (key : List α) (value : Word)
    (p : List α) : Option Word :=
  if p = key then some value
  else if p ≠ [] ∧ p <+: key then some ((paths p).getD 0)
  else paths p

theorem addPath_cons_of_ne (paths : List α → Option Word) {c e : α}
    (h : e ≠ c) (cs es : List α) (value : Word) :
    addPath paths (c :: cs) value (e :: es) = paths (e :: es) := by
  simp [addPath, h, List.cons_prefix_cons]

theorem nodeAt_trieAddDown (value : Word) (cs : List α) (c : α) (p : List α) :
    nodeAt (trieAddDown value c cs) p
      = addPath (fun _ => none) (c :: cs) value p := by
  induction cs generalizing c p with
  | nil =>
      cases p with
      | nil => simp [addPath]
      | cons e es =>
          by_cases he : c = e
          · subst he
            cases es <;> simp [trieAddDown, nodeAt, addPath, List.cons_prefix_cons]
          · rw [addPath_cons_of_ne _ (Ne.symm he), trieAddDown, nodeAt_of_ne he]
            rfl
  | cons d cs ih =>
      cases p with
      | nil => simp [addPath]
      | cons e es =>
          by_cases he : c = e
          · subst he
            cases es with
            | nil => simp [trieAddDown, addPath, List.cons_prefix_cons]
            | cons e' es =>
                rw [trieAddDown, nodeAt_down, ih d (e' :: es)]
                simp [addPath, List.cons_prefix_cons]
          · rw [addPath_cons_of_ne _ (Ne.symm he), trieAddDown, nodeAt_of_ne he]
            rfl

theorem sorted_trieAddDown (value : Word) (c : α) (cs : List α) :
    Sorted (trieAddDown value c cs) := by
  induction cs generalizing c with
  | nil => exact ⟨trivial, trivial, trivial⟩
  | cons d cs ih => exact ⟨trivial, trivial, ih d⟩

theorem trieAddDown_eq (value : Word) (c : α) (cs : List α) :
    ∃ v down, trieAddDown value c cs = .node c v .null down ∧ Sorted down := by
  cases cs with
  | nil => exact ⟨value, .null, rfl, trivial⟩
  | cons d cs => exact ⟨0, _, rfl, sorted_trieAddDown value d cs⟩

theorem Above.trieAddAt {b : α} {n : TrieNode α} (h : Above b n) {c : α}
    (hc : b < c) (value : Word) (cs : List α) :
    Above b (trieAddAt value n c cs) := by
  obtain ⟨v', down', hchain, -⟩ := trieAddDown_eq value c cs
  induction n with
  | null =>
      rw [Rpos.trieAddAt, hchain]
      exact ⟨hc, trivial⟩
  | node d v next down ihn _ =>
      unfold Rpos.trieAddAt
      split
      · exact ⟨h.1, ihn h.2⟩
      · split
        · cases cs <;> exact h
        · rw [hchain]
          exact ⟨hc, h⟩

theorem sorted_trieAddAt {n : TrieNode α} (h : Sorted n) (value : Word)
    (c : α) (cs : List α) : Sorted (trieAddAt value n c cs) := by
  induction n generalizing c cs with
  | null => exact sorted_trieAddDown value c cs
  | node d v next down ihn ihd =>
      unfold trieAddAt
      by_cases hlt : d < c
      · rw [if_pos hlt]
        exact ⟨h.1.trieAddAt hlt value cs, ihn h.2.1 c cs, h.2.2⟩
      · rw [if_neg hlt]
        by_cases heq : d = c
        · rw [if_pos heq]
          cases cs with
          | nil => exact h
          | cons e es => exact ⟨h.1, h.2.1, ihd h.2.2 e es⟩
        · rw [if_neg heq]
          have hcd : c < d := lt_of_le_of_ne (not_lt.mp hlt) (Ne.symm heq)
          obtain ⟨v', down', hchain, hdown⟩ := trieAddDown_eq value c cs
          rw [hchain]
          exact ⟨⟨hcd, h.1.mono hcd.le⟩, h, hdown⟩

/-- Where the new chain stands before a larger sibling, a path leads into the
chain if it starts with the chain's character, and past it otherwise. -/
theorem nodeAt_setNext (value : Word) (c : α) (cs : List α) {n : TrieNode α}
    (hn : ∀ es, nodeAt n (c :: es) = none) (p : List α) :
    nodeAt ((trieAddDown value c cs).setNext n) p
      = addPath (nodeAt n) (c :: cs) value p := by
  cases p with
  | nil => simp [addPath]
  | cons e es =>
      obtain ⟨v', down', hchain, -⟩ := trieAddDown_eq value c cs
      by_cases he : e = c
      · subst he
        have h := nodeAt_trieAddDown value cs e (e :: es)
        rw [hchain] at h ⊢
        have hskip : nodeAt (.node e v' n down') (e :: es)
            = nodeAt (.node e v' .null down') (e :: es) := by
          simp [nodeAt]
        rw [TrieNode.setNext, hskip, h]
        simp [addPath, hn]
      · rw [addPath_cons_of_ne _ he, hchain, TrieNode.setNext,
          nodeAt_of_ne (Ne.symm he)]

theorem nodeAt_trieAddAt {n : TrieNode α} (h : Sorted n) (value : Word)
    (c : α) (cs p : List α) :
    nodeAt (trieAddAt value n c cs) p
      = addPath (nodeAt n) (c :: cs) value p := by
  induction n generalizing c cs p with
  | null => exact nodeAt_trieAddDown value cs c p
  | node d v next down ihn ihd =>
      unfold trieAddAt
      by_cases hlt : d < c
      · rw [if_pos hlt]
        cases p with
        | nil => simp [addPath]
        | cons e es =>
            by_cases he : d = e
            · subst he
              rw [addPath_cons_of_ne _ (ne_of_lt hlt)]
              simp [nodeAt]
            · rw [nodeAt_of_ne he, ihn h.2.1]
              simp [addPath, nodeAt, he]
      · rw [if_neg hlt]
        by_cases heq : d = c
        · subst heq
          rw [if_pos rfl]
          cases p with
          | nil => cases cs <;> simp [addPath]
          | cons e es =>
              by_cases he : d = e
              · subst he
                cases cs with
                | nil =>
                    cases es <;> simp [nodeAt, addPath, List.cons_prefix_cons]
                | cons c' cs' =>
                    cases es with
                    | nil => simp [nodeAt, addPath, List.cons_prefix_cons]
                    | cons e' es' =>
                        rw [nodeAt_down, ihd h.2.2]
                        simp [addPath, List.cons_prefix_cons]
              · rw [addPath_cons_of_ne _ (Ne.symm he)]
                cases cs <;> simp [nodeAt, he]
        · rw [if_neg heq]
          have hcd : c < d := lt_of_le_of_ne (not_lt.mp hlt) (Ne.symm heq)
          exact nodeAt_setNext value c cs (h.nodeAt_of_lt hcd) p

/-! ## The map that a sequence of calls describes -/

/-- The value of the last call for the key `q`, and 0 when there is none. -/
def lastValue (adds : List (TrieKey α × Word)) (q : List α) : Word :=
  ((adds.reverse.find? fun a => a.1.chars = q).map Prod.snd).getD 0

def Begins (adds : List (TrieKey α × Word)) (p : List α) : Prop :=
  ∃ a ∈ adds, p <+: a.1.chars

theorem lastValue_concat (adds : List (TrieKey α × Word)) (k : TrieKey α)
    (v : Word) (q : List α) :
    lastValue (adds ++ [(k, v)]) q
      = if k.chars = q then v else lastValue adds q := by
  unfold lastValue
  rw [List.reverse_concat, List.find?_cons]
  by_cases hq : k.chars = q <;> simp [hq]

omit [LinearOrder α] in
theorem begins_concat (adds : List (TrieKey α × Word)) (k : TrieKey α)
    (v : Word) (p : List α) :
    Begins (adds ++ [(k, v)]) p ↔ Begins adds p ∨ p <+: k.chars := by
  simp [Begins, or_and_right, exists_or]

theorem lastValue_eq_zero_of_ne {adds : List (TrieKey α × Word)} {q : List α}
    (h : ∀ a ∈ adds, a.1.chars ≠ q) : lastValue adds q = 0 := by
  have hnone : (adds.reverse.find? fun a => a.1.chars = q) = none := by
    apply List.find?_eq_none.mpr
    intro a ha
    rw [decide_eq_true_eq]
    exact h a (List.mem_reverse.mp ha)
  rw [lastValue, hnone]
  rfl

theorem lastValue_eq_zero {adds : List (TrieKey α × Word)} {q : List α}
    (h : ¬ Begins adds q) : lastValue adds q = 0 :=
  lastValue_eq_zero_of_ne fun a ha he => h ⟨a, ha, he ▸ List.prefix_refl _⟩

structure Holds (t : Trie α) (adds : List (TrieKey α × Word)) : Prop where
  sorted : Sorted t.head
  empty : t.keys = 0 ↔ adds = []
  paths_begins : ∀ p, p ≠ [] → Begins adds p →
    nodeAt t.head p = some (lastValue adds p)
  paths_none : ∀ p, ¬ Begins adds p → nodeAt t.head p = none

theorem holds_init : Holds (trieInit : Trie α) [] where
  sorted := trivial
  empty := by simp [trieInit]
  paths_begins := by simp [Begins]
  paths_none := fun _ _ => rfl

theorem nodeAt_trieAdd {t : Trie α} {adds : List (TrieKey α × Word)}
    (h : Holds t adds) (k : TrieKey α) (v : Word) (p : List α) :
    nodeAt (trieAdd t k v).head p = addPath (nodeAt t.head) k.chars v p := by
  unfold trieAdd
  by_cases hk : t.keys = 0
  · have hadds : adds = [] := h.empty.mp hk
    have hnone : nodeAt t.head = fun _ => none := by
      funext q
      refine h.paths_none q ?_
      simp [hadds, Begins]
    rw [if_pos hk, hnone]
    exact nodeAt_trieAddDown v k.rest k.first p
  · rw [if_neg hk]
    exact nodeAt_trieAddAt h.sorted v k.first k.rest p

theorem Holds.trieAdd {t : Trie α} {adds : List (TrieKey α × Word)}
    (h : Holds t adds) (k : TrieKey α) (v : Word) :
    Holds (trieAdd t k v) (adds ++ [(k, v)]) where
  sorted := by
    unfold Rpos.trieAdd
    split
    · exact sorted_trieAddDown v k.first k.rest
    · exact sorted_trieAddAt h.sorted v k.first k.rest
  empty := by
    unfold Rpos.trieAdd
    split
    · simp
    · simp only [List.append_eq_nil_iff, List.cons_ne_self, and_false, iff_false]
      split <;> omega
  paths_begins := by
    intro p hp hb
    rw [nodeAt_trieAdd h, addPath, lastValue_concat]
    by_cases hpk : p = k.chars
    · rw [if_pos hpk, if_pos hpk.symm]
    · rw [if_neg hpk, if_neg (Ne.symm hpk)]
      by_cases hpre : p <+: k.chars
      · rw [if_pos ⟨hp, hpre⟩]
        by_cases hold : Begins adds p
        · rw [h.paths_begins p hp hold]
          rfl
        · rw [h.paths_none p hold, lastValue_eq_zero hold]
          rfl
      · rw [if_neg fun hc => hpre hc.2]
        exact h.paths_begins p hp (((begins_concat adds k v p).mp hb).resolve_right hpre)
  paths_none := by
    intro p hb
    rw [begins_concat, not_or] at hb
    have hne : p ≠ k.chars := fun he => hb.2 (he ▸ List.prefix_refl _)
    rw [nodeAt_trieAdd h, addPath, if_neg hne, if_neg fun hc => hb.2 hc.2]
    exact h.paths_none p hb.1

/-- After any sequence of calls the levels hold the map it describes. -/
theorem paths_addAll (adds : List (TrieKey α × Word)) : Holds (addAll adds) adds := by
  unfold addAll
  induction adds using List.reverseRecOn with
  | nil => exact holds_init
  | append_singleton adds a ih =>
      rw [List.foldl_append]
      exact ih.trieAdd a.1 a.2

/-! ## The exact walk -/

def siblings : TrieNode α → List (α × Word × TrieNode α)
  | .null => []
  | .node c v next down => (c, v, down) :: siblings next

/-- The value at the end of the exact walk: on each level to the only sibling with the next
character, then down. -/
def exactWalk : TrieNode α → List α → Option Word
  | _, [] => none
  | n, c :: cs =>
      match (siblings n).filter (·.1 = c) with
      | [(_, v, down)] =>
          match cs with
          | [] => some v
          | c' :: cs' => exactWalk down (c' :: cs')
      | _ => none

theorem Above.filter_siblings {b : α} {n : TrieNode α} (h : Above b n) :
    (siblings n).filter (·.1 = b) = [] := by
  induction n with
  | null => rfl
  | node d v next down ihn _ =>
      rw [siblings, List.filter_cons_of_neg (by simpa using ne_of_gt h.1)]
      exact ihn h.2

/-- On sorted levels the walk may stop at the first sibling that matches. -/
theorem exactWalk_eq {n : TrieNode α} (h : Sorted n) (p : List α) :
    exactWalk n p = nodeAt n p := by
  induction n generalizing p with
  | null => cases p <;> rfl
  | node d v next down ihn ihd =>
      cases p with
      | nil => rfl
      | cons c cs =>
          by_cases heq : d = c
          · subst heq
            have honly : (siblings (.node d v next down)).filter (·.1 = d) = [(d, v, down)] := by
              rw [siblings, List.filter_cons_of_pos (by simp), h.1.filter_siblings]
            cases cs with
            | nil => rw [exactWalk, honly, nodeAt_self]
            | cons e es =>
                rw [exactWalk, honly, nodeAt_down]
                exact ihd h.2.2 (e :: es)
          · have hskip : (siblings (.node d v next down)).filter (·.1 = c) =
                (siblings next).filter (·.1 = c) := by
              rw [siblings, List.filter_cons_of_neg (by simpa using heq)]
            rw [nodeAt_of_ne heq, ← ihn h.2.1, exactWalk, exactWalk, hskip]

/-- After any sequence of calls of `trie_add` the siblings are in strictly increasing order on
every level, and the exact walk finds the last value of each key, and for any other string
no node or one without a value. -/
theorem trieAdd_keeps_map (adds : List (TrieKey α × Word)) :
    Sorted (addAll adds).head ∧
      (∀ a ∈ adds, exactWalk (addAll adds).head a.1.chars =
        some (lastValue adds a.1.chars)) ∧
      ∀ p, (∀ a ∈ adds, a.1.chars ≠ p) →
        exactWalk (addAll adds).head p = none ∨ exactWalk (addAll adds).head p = some 0 := by
  have h := paths_addAll adds
  refine ⟨h.sorted, fun a ha => ?_, fun p hp => ?_⟩
  · rw [exactWalk_eq h.sorted]
    exact h.paths_begins _ (List.cons_ne_nil _ _) ⟨a, ha, List.prefix_refl _⟩
  · rw [exactWalk_eq h.sorted]
    by_cases hnil : p = []
    · rw [hnil, nodeAt_nil]
      exact Or.inl rfl
    by_cases hb : Begins adds p
    · -- an inner node of some key, which no call gave a value
      right
      rw [h.paths_begins p hnil hb, lastValue_eq_zero_of_ne hp]
    · exact Or.inl (h.paths_none p hb)

/-! ## `trie_get` -/

def levelAt (n : TrieNode α) (p : List α) : TrieNode α :=
  p.foldl trieGetDown n

theorem levelAt_null (p : List α) : levelAt (.null : TrieNode α) p = .null := by
  induction p with
  | nil => rfl
  | cons c cs ih => exact ih

theorem levelAt_spec {n : TrieNode α} (h : Sorted n) (p : List α) :
    Sorted (levelAt n p) ∧
      ∀ e es, nodeAt (levelAt n p) (e :: es) = nodeAt n (p ++ e :: es) := by
  induction p generalizing n with
  | nil => exact ⟨h, fun _ _ => rfl⟩
  | cons c cs ih =>
      obtain ⟨hs, hdown⟩ := trieGetDown_spec h c
      obtain ⟨hs', hlevel⟩ := ih hs
      refine ⟨hs', fun e es => ?_⟩
      rw [List.cons_append, levelAt, List.foldl_cons]
      rw [show nodeAt (cs.foldl trieGetDown (trieGetDown n c)) (e :: es)
          = nodeAt (trieGetDown n c) (cs ++ e :: es) from hlevel e es]
      cases cs with
      | nil => exact hdown e es
      | cons d ds => exact hdown d (ds ++ e :: es)

/-- The loop reads the first sibling of the last level when nothing lies
below the last character, and returns 0 otherwise. -/
theorem trieGetLoop_concat (p : List α) (c : α) (n : TrieNode α) :
    (trieGetDown (levelAt n p) c = .null →
      trieGetLoop n n (p ++ [c]) = (levelAt n p).value) ∧
    (trieGetDown (levelAt n p) c ≠ .null → trieGetLoop n n (p ++ [c]) = 0) := by
  induction p generalizing n with
  | nil =>
      cases n with
      | null => simp [trieGetLoop, levelAt, TrieNode.value]
      | node d v next down =>
          rw [List.nil_append, levelAt, List.foldl_nil]
          unfold trieGetLoop
          cases trieGetDown (.node d v next down) c with
          | null => simp
          | node d' v' next' down' => simp [trieGetLoop]
  | cons e es ih =>
      cases n with
      | null => simp [levelAt_null, trieGetLoop, TrieNode.value]
      | node d v next down =>
          have hloop : trieGetLoop (.node d v next down) (.node d v next down)
              (e :: es ++ [c])
                = trieGetLoop (trieGetDown (.node d v next down) e)
                    (trieGetDown (.node d v next down) e) (es ++ [c]) := by
            rw [List.cons_append, trieGetLoop]
            simp
          rw [hloop]
          exact ih _

theorem eq_null_iff (n : TrieNode α) : n = .null ↔ ∀ e, nodeAt n [e] = none := by
  cases n with
  | null => simp [nodeAt]
  | node d v next down =>
      refine ⟨fun hn => (by simp at hn), fun hn => ?_⟩
      have hd := hn d
      rw [nodeAt_self] at hd
      simp at hd

/-- The first sibling of a level that is not empty is the least of its
characters. -/
theorem Sorted.first {n : TrieNode α} (h : Sorted n) (hn : n ≠ .null) :
    ∃ d, IsLeast {e | nodeAt n [e] ≠ none} d ∧ nodeAt n [d] = some n.value := by
  cases n with
  | null => exact absurd rfl hn
  | node d v next down =>
      refine ⟨d, ⟨by simp, fun e he => ?_⟩, nodeAt_self d v next down⟩
      by_contra hlt
      exact he (h.nodeAt_of_lt (not_le.mp hlt) [])

theorem Holds.nodeAt_iff {t : Trie α} {adds : List (TrieKey α × Word)}
    (h : Holds t adds) {p : List α} (hp : p ≠ []) :
    nodeAt t.head p = none ↔ ¬ Begins adds p := by
  refine ⟨fun hnone hb => ?_, h.paths_none p⟩
  rw [h.paths_begins p hp hb] at hnone
  simp at hnone

theorem Holds.trieGet_eq {t : Trie α} {adds : List (TrieKey α × Word)}
    (h : Holds t adds) (q : List α) : trieGet t q = trieGetLoop t.head t.head q := by
  unfold trieGet
  by_cases hk : t.keys = 0
  · have hadds : adds = [] := h.empty.mp hk
    have hhead : t.head = .null := by
      refine (eq_null_iff t.head).mpr fun e => h.paths_none [e] ?_
      simp [hadds, Begins]
    rw [if_pos hk, hhead]
    cases q <;> rfl
  · rw [if_neg hk]

/-- What `trie_get` returns: 0 for a proper prefix of a key, else the value of
the least character that follows `p`. -/
theorem trieGet_addAll (adds : List (TrieKey α × Word)) (p : List α) (c : α) :
    (∃ d, Begins adds (p ++ [c, d])) ∧ trieGet (addAll adds) (p ++ [c]) = 0 ∨
    (¬ ∃ d, Begins adds (p ++ [c, d])) ∧
      ((∀ e, ¬ Begins adds (p ++ [e])) ∧ trieGet (addAll adds) (p ++ [c]) = 0 ∨
        ∃ d, IsLeast {e | Begins adds (p ++ [e])} d ∧
          trieGet (addAll adds) (p ++ [c]) = lastValue adds (p ++ [d])) := by
  have h := paths_addAll adds
  obtain ⟨hsorted, hlevel⟩ := levelAt_spec h.sorted p
  obtain ⟨hleaf, hinner⟩ := trieGetLoop_concat p c (addAll adds).head
  have hmem : ∀ e, nodeAt (levelAt (addAll adds).head p) [e] = none
      ↔ ¬ Begins adds (p ++ [e]) := by
    intro e
    rw [hlevel]
    exact h.nodeAt_iff (by simp)
  have hdown : trieGetDown (levelAt (addAll adds).head p) c = .null
      ↔ ¬ ∃ d, Begins adds (p ++ [c, d]) := by
    rw [eq_null_iff, not_exists]
    refine forall_congr' fun d => ?_
    rw [(trieGetDown_spec hsorted c).2, hlevel]
    exact h.nodeAt_iff (by simp)
  rw [h.trieGet_eq]
  by_cases hbelow : ∃ d, Begins adds (p ++ [c, d])
  · exact Or.inl ⟨hbelow, hinner fun hn => hdown.mp hn hbelow⟩
  · refine Or.inr ⟨hbelow, ?_⟩
    rw [hleaf (hdown.mpr hbelow)]
    by_cases hnull : levelAt (addAll adds).head p = .null
    · refine Or.inl ⟨fun e => (hmem e).mp ((eq_null_iff _).mp hnull e), ?_⟩
      rw [hnull]
      rfl
    · obtain ⟨d, hleast, hvalue⟩ := hsorted.first hnull
      have hset : {e | nodeAt (levelAt (addAll adds).head p) [e] ≠ none}
          = {e | Begins adds (p ++ [e])} := by
        ext e
        exact (not_congr (hmem e)).trans not_not
      rw [hset] at hleast
      refine Or.inr ⟨d, hleast, ?_⟩
      rw [hlevel, h.paths_begins _ (by simp) hleast.1] at hvalue
      exact (Option.some.inj hvalue).symm

/-- The lookup of a non-empty string agrees with the map exactly when a string
that is a proper prefix of a key has no value of its own, and any other string
has the value that belongs to the least character that may stand last. -/
theorem trieGet_eq_lastValue_iff (adds : List (TrieKey α × Word)) (p : List α)
    (c : α) :
    trieGet (addAll adds) (p ++ [c]) = lastValue adds (p ++ [c]) ↔
      ((∃ d, Begins adds (p ++ [c, d])) → lastValue adds (p ++ [c]) = 0) ∧
      ((¬ ∃ d, Begins adds (p ++ [c, d])) →
        ∀ d, IsLeast {e | Begins adds (p ++ [e])} d →
          lastValue adds (p ++ [d]) = lastValue adds (p ++ [c])) := by
  obtain ⟨hbelow, hget⟩ | ⟨hbelow, ⟨hempty, hget⟩ | ⟨d, hleast, hget⟩⟩ :=
    trieGet_addAll adds p c
  · rw [hget]
    refine ⟨fun h => ⟨fun _ => h.symm, fun hn => absurd hbelow hn⟩, fun h => ?_⟩
    exact (h.1 hbelow).symm
  · rw [hget, lastValue_eq_zero (hempty c)]
    refine iff_of_true rfl ⟨fun h => absurd h hbelow, fun _ d hd => ?_⟩
    exact absurd hd.1 (hempty d)
  · rw [hget]
    refine ⟨fun h => ⟨fun hb => absurd hb hbelow, fun _ e he => ?_⟩, fun h => ?_⟩
    · rw [he.unique hleast]
      exact h
    · exact h.2 hbelow d hleast

/-- One key `ab` with the value 7: the lookup of `ax` finds that value too. -/
theorem trieGet_near_miss :
    trieGet (addAll [(⟨'a', ['b']⟩, 7)]) ['a', 'x'] = 7 ∧
      trieGet (addAll [(⟨'a', ['b']⟩, 7)]) ['a', 'x']
        ≠ lastValue [(⟨'a', ['b']⟩, 7)] ['a', 'x'] := by
  decide

end Order

end Rpos
