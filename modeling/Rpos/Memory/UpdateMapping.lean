import Rpos.Memory.PageTables

/-!
# `update_mapping`

`update_mapping` walks a range page by page and rewrites the attributes of the
L3 entries as it goes. It returns `FALSE` at the first unmapped page, after the
pages before it have been rewritten, and it has no `return TRUE`.
-/

namespace Rpos

open Base

/-! ## §1  The function -/

/-- An entry with the attributes of `flags` and its own address. -/
def withFlags (flags : ℕ) (entry : Word) : Word :=
  Pte.address.set (parseBlockFlags flags 1) (Pte.address.get entry)

/-- One round of the loop: `false` stands for `return FALSE`. -/
def updatePage (va flags ptBase : ℕ) (m : Machine) : Option (Bool × Machine) := do
  let e0 ← m.read ptBase (idx0 va)
  if Pte.valid.get e0 ≠ 1 then some (false, m)
  else
    let l1 := Pte.address.get e0
    let e1 ← m.read l1 (idx1 va)
    if Pte.valid.get e1 ≠ 1 then some (false, m)
    else
      let l2 := Pte.address.get e1
      let e2 ← m.read l2 (idx2 va)
      if Pte.valid.get e2 ≠ 1 then some (false, m)
      else
        let l3 := Pte.address.get e2
        let entry ← m.read l3 (idx3 va)
        if Pte.valid.get entry ≠ 1 then some (false, m)
        else
          let m ← m.store l3 (idx3 va) (withFlags flags entry)
          some (true, m)

/-- The loop. After the last round the function ends without a `return`, so
that no value is returned. -/
def updatePages (flags ptBase : ℕ) : ℕ → ℕ → Machine → Option (Option Bool × Machine)
  | 0, _, m => some (none, m)
  | pages + 1, va, m => do
      let (ok, m) ← updatePage va flags ptBase m
      if ok then updatePages flags ptBase pages ((va + pageSize) % 2 ^ 64) m
      else some (some false, m)

/-- `update_mapping`: the value returned, if any, and the machine. -/
def updateMapping (virtStart virtEnd flags ptBase : ℕ) (m : Machine) :
    Option (Option Bool × Machine) :=
  if virtStart &&& 0xFFF ≠ 0 ∨ virtEnd &&& 0xFFF ≠ 0 then
    some (some false, m)
  else
    let pages := (virtEnd + 2 ^ 64 - virtStart) % 2 ^ 64 / pageSize
    updatePages flags ptBase pages virtStart m

theorem and_pageMask (a : ℕ) : a &&& 0xFFF = a % pageSize :=
  Nat.and_two_pow_sub_one_eq_mod a 12

/-! ## §2  One round -/

section Round

variable {root va flags : ℕ} {m : Machine}

/-- Rewriting an entry that has the attributes already changes nothing. -/
theorem withFlags_eq_iff (flags : ℕ) (w : Word) :
    withFlags flags w = w ↔ attributes w = parseBlockFlags flags 1 := by
  obtain ⟨-, -, hattr⟩ := parseBlockFlags_get flags (by decide : 1 < 2)
  constructor
  · intro h
    rw [← h, attributes, withFlags, BitField.set_set]
    exact hattr
  · intro h
    rw [withFlags, ← h, attributes, BitField.set_set, BitField.set_get]

theorem withFlags_get (flags : ℕ) (w : Word) :
    Pte.valid.get (withFlags flags w) = 1 ∧ Pte.type.get (withFlags flags w) = 1 := by
  obtain ⟨hvalid, htype, -⟩ := parseBlockFlags_get flags (by decide : 1 < 2)
  rw [withFlags, BitField.get_set_of_disjoint (by decide),
    BitField.get_set_of_disjoint (by decide)]
  exact ⟨hvalid, htype⟩

theorem withFlags_idem (flags : ℕ) (w : Word) :
    withFlags flags (withFlags flags w) = withFlags flags w := by
  rw [withFlags_eq_iff, attributes, withFlags, BitField.set_set]
  exact (parseBlockFlags_get flags (by decide)).2.2

theorem updatePage_spec (ht : PageTree TableOrPage m.ram root) (va flags : ℕ) :
    (pageRadix.lookup m.ram 3 root (va / pageSize) = none ∧
      updatePage va flags root m = some (false, m)) ∨
    ∃ t w, pageRadix.lookup m.ram 3 root (va / pageSize) = some (0, w) ∧
      m.ram t (idx3 va) = w ∧
      Walked TableOrPage root (va / pageSize) 0 t m.ram m.ram ∧ Pte.valid.get w = 1 ∧
      updatePage va flags root m =
        some (true, m.write t (idx3 va) (withFlags flags w)) := by
  obtain ⟨h0, h1, h2, h3⟩ := idx_eq va
  have hform : ∀ (h : ℕ) (w : Word), TableOrPage h w → Pte.valid.get w = 1 →
      Pte.type.get w = 1 := fun _ _ hform => hform
  unfold updatePage
  rw [h0, h1, h2, h3]
  generalize va / pageSize = v
  -- each entry on the walk is invalid or leads on
  have hw0 : Walked TableOrPage root v 3 root m.ram m.ram := Walked.start ht
  rw [Machine.read_eq _ hw0.table_lt, Option.bind_eq_bind, Option.bind_some]
  by_cases hv0 : Pte.valid.get (m.ram root (pageRadix.digit 3 v)) = 1
  swap
  · exact Or.inl ⟨hw0.lookup_invalid hv0, if_pos hv0⟩
  have hw1 : Walked TableOrPage root v 2 _ m.ram m.ram := hw0.follow hv0 (hform _ _ hw0.form hv0)
  rw [if_neg (not_not.mpr hv0)]
  generalize Pte.address.get (m.ram root (pageRadix.digit 3 v)) = l1 at hw1 ⊢
  dsimp only
  rw [Machine.read_eq _ hw1.table_lt, Option.bind_some]
  by_cases hv1 : Pte.valid.get (m.ram l1 (pageRadix.digit 2 v)) = 1
  swap
  · exact Or.inl ⟨hw1.lookup_invalid hv1, if_pos hv1⟩
  have hw2 : Walked TableOrPage root v 1 _ m.ram m.ram := hw1.follow hv1 (hform _ _ hw1.form hv1)
  rw [if_neg (not_not.mpr hv1)]
  generalize Pte.address.get (m.ram l1 (pageRadix.digit 2 v)) = l2 at hw2 ⊢
  rw [Machine.read_eq _ hw2.table_lt, Option.bind_some]
  by_cases hv2 : Pte.valid.get (m.ram l2 (pageRadix.digit 1 v)) = 1
  swap
  · exact Or.inl ⟨hw2.lookup_invalid hv2, if_pos hv2⟩
  have hw3 : Walked TableOrPage root v 0 _ m.ram m.ram := hw2.follow hv2 (hform _ _ hw2.form hv2)
  rw [if_neg (not_not.mpr hv2)]
  generalize Pte.address.get (m.ram l2 (pageRadix.digit 1 v)) = l3 at hw3 ⊢
  rw [Machine.read_eq _ hw3.table_lt, Option.bind_some]
  by_cases hv3 : Pte.valid.get (m.ram l3 (pageRadix.digit 0 v)) = 1
  swap
  · exact Or.inl ⟨hw3.lookup_invalid hv3, if_pos hv3⟩
  have hentry := (hw3.reaches.every ht.every _ (pageRadix.digit_lt 0 v)).1
  refine Or.inr ⟨l3, _, ?_, rfl, hw3, hv3, ?_⟩
  · rw [hw3.reaches.lookup_eq, Radix.lookup]
    exact Radix.follow_leaf (page_leaf hv3 (hentry hv3)) (not_table_zero _)
  · rw [if_neg (not_not.mpr hv3), Machine.store_eq _ _ hw3.table_lt,
      Option.bind_eq_bind, Option.bind_some]

theorem Walked.rewrite {t : ℕ} {v : ℕ} (hw : Walked TableOrPage root v 0 t m.ram m.ram)
    (flags : ℕ) :
    PageTree TableOrPage
        (m.write t (pageRadix.digit 0 v)
          (withFlags flags (m.ram t (pageRadix.digit 0 v)))).ram root ∧
      ∀ x < tableSize ^ 4, pageRadix.lookup
          (m.write t (pageRadix.digit 0 v)
            (withFlags flags (m.ram t (pageRadix.digit 0 v)))).ram 3 root x =
        if x = v % tableSize ^ 4 then
          some (0, withFlags flags (m.ram t (pageRadix.digit 0 v)))
        else pageRadix.lookup m.ram 3 root x := by
  obtain ⟨hvalid, htype⟩ := withFlags_get flags (m.ram t (pageRadix.digit 0 v))
  refine ⟨(hw.place (not_table_zero _) (page_leaf hvalid htype) (not_table_zero _)
    fun _ => htype).1, fun x hx => ?_⟩
  have hlook := hw.place_lookup (not_table_zero _) (page_leaf hvalid htype)
    (not_table_zero _) hx
  rw [pow_zero, Nat.div_one, Nat.div_one] at hlook
  exact hlook

end Round

/-! ## §3  The range -/

/-- The page with index `i` of the range from `va`, in 48 bits. -/
def pageAt (va i : ℕ) : ℕ := (va / pageSize + i) % tableSize ^ 4

theorem pageAt_lt (va i : ℕ) : pageAt va i < tableSize ^ 4 :=
  Nat.mod_lt _ (by decide)

theorem pageAt_next (va i : ℕ) :
    pageAt ((va + pageSize) % 2 ^ 64) i = pageAt va (i + 1) := by
  simp only [pageAt, pageSize, tableSize]
  omega

/-- `m'` is what is left after the entries of the pages of `S` are rewritten. -/
structure Rewritten (flags root : ℕ) (S : ℕ → Prop) (m m' : Machine) : Prop where
  tree : PageTree TableOrPage m'.ram root
  inside : ∀ x < tableSize ^ 4, S x → pageRadix.lookup m'.ram 3 root x =
    (pageRadix.lookup m.ram 3 root x).map fun r => (r.1, withFlags flags r.2)
  outside : ∀ x < tableSize ^ 4, ¬ S x →
    pageRadix.lookup m'.ram 3 root x = pageRadix.lookup m.ram 3 root x
  same : (∀ x < tableSize ^ 4, S x → ∀ r, pageRadix.lookup m.ram 3 root x = some r →
    withFlags flags r.2 = r.2) → m'.ram = m.ram

section Range

variable {flags root va : ℕ} {S S' S'' : ℕ → Prop} {m m' m'' : Machine}

theorem Rewritten.refl (ht : PageTree TableOrPage m.ram root) (hS : ∀ x, ¬ S x) :
    Rewritten flags root S m m :=
  ⟨ht, fun x _ hx => absurd hx (hS x), fun _ _ _ => rfl, fun _ => rfl⟩

theorem Rewritten.mapped_iff (h : Rewritten flags root S m m') {x : ℕ}
    (hx : x < tableSize ^ 4) :
    pageRadix.lookup m'.ram 3 root x = none ↔ pageRadix.lookup m.ram 3 root x = none := by
  by_cases hS : S x
  · rw [h.inside x hx hS, Option.map_eq_none_iff]
  · rw [h.outside x hx hS]

theorem Rewritten.trans (h : Rewritten flags root S m m')
    (h' : Rewritten flags root S' m' m'') (hS : ∀ x, S'' x ↔ S x ∨ S' x) :
    Rewritten flags root S'' m m'' := by
  refine ⟨h'.tree, fun x hx hin => ?_, fun x hx hout => ?_, fun hall => ?_⟩
  · by_cases hx' : S' x
    · rw [h'.inside x hx hx']
      by_cases hx'' : S x
      · rw [h.inside x hx hx'', Option.map_map]
        congr 1
        funext r
        exact congrArg (Prod.mk r.1) (withFlags_idem flags r.2)
      · rw [h.outside x hx hx'']
    · rw [h'.outside x hx hx', h.inside x hx (((hS x).mp hin).resolve_right hx')]
  · rw [hS, not_or] at hout
    rw [h'.outside x hx hout.2, h.outside x hx hout.1]
  · have hfirst : m'.ram = m.ram :=
      h.same fun x hx hin => hall x hx ((hS x).mpr (Or.inl hin))
    rw [← hfirst]
    refine h'.same fun x hx hin => ?_
    rw [hfirst]
    exact hall x hx ((hS x).mpr (Or.inr hin))

theorem updatePage_rewritten (ht : PageTree TableOrPage m.ram root) (va flags : ℕ)
    (hmapped : pageRadix.lookup m.ram 3 root (pageAt va 0) ≠ none) :
    ∃ m', updatePage va flags root m = some (true, m') ∧
      Rewritten flags root (fun x => x = pageAt va 0) m m' := by
  have hsame : pageRadix.lookup m.ram 3 root (pageAt va 0) =
      pageRadix.lookup m.ram 3 root (va / pageSize) :=
    Radix.lookup_mod (R := pageRadix) m.ram 3 root (va / pageSize)
  rcases updatePage_spec ht va flags with ⟨hnone, -⟩ | ⟨t, w, hsome, hword, hw, -, hrun⟩
  · exact absurd (hsame.trans hnone) hmapped
  obtain ⟨-, -, -, h3⟩ := idx_eq va
  rw [h3] at hword hrun
  obtain ⟨htree, hlook⟩ := hw.rewrite flags
  rw [hword] at htree hlook
  refine ⟨_, hrun, htree, ?_, ?_, ?_⟩
  · rintro x hx rfl
    have hzero : pageAt va 0 = va / pageSize % tableSize ^ 4 := rfl
    rw [hlook _ hx, if_pos hzero, hsame, hsome]
    rfl
  · intro x hx hne
    rw [hlook x hx]
    exact if_neg hne
  · intro hall
    have hid : withFlags flags w = w :=
      hall _ (pageAt_lt va 0) rfl (0, w) (hsame.trans hsome)
    rw [hid, ← hword, write_ram_eq, Radix.setWord, Function.update_eq_self,
      Function.update_eq_self]

theorem updatePage_unmapped (ht : PageTree TableOrPage m.ram root) (flags : ℕ)
    (hnone : pageRadix.lookup m.ram 3 root (pageAt va 0) = none) :
    updatePage va flags root m = some (false, m) := by
  have hsame : pageRadix.lookup m.ram 3 root (pageAt va 0) =
      pageRadix.lookup m.ram 3 root (va / pageSize) :=
    Radix.lookup_mod (R := pageRadix) m.ram 3 root (va / pageSize)
  rcases updatePage_spec ht va flags with ⟨-, hrun⟩ | ⟨t, w, hsome, -⟩
  · exact hrun
  · rw [hsame, hsome] at hnone
    exact absurd hnone (Option.some_ne_none _)

/-- The loop runs to the end of the range or up to the first unmapped page. -/
theorem updatePages_spec (flags : ℕ) (n : ℕ) :
    ∀ (va : ℕ) (m : Machine), PageTree TableOrPage m.ram root →
      ((∀ i < n, pageRadix.lookup m.ram 3 root (pageAt va i) ≠ none) ∧
        ∃ m', updatePages flags root n va m = some (none, m') ∧
          Rewritten flags root (fun x => ∃ i < n, x = pageAt va i) m m') ∨
      ∃ k < n, pageRadix.lookup m.ram 3 root (pageAt va k) = none ∧
        (∀ i < k, pageRadix.lookup m.ram 3 root (pageAt va i) ≠ none) ∧
        ∃ m', updatePages flags root n va m = some (some false, m') ∧
          Rewritten flags root (fun x => ∃ i < k, x = pageAt va i) m m' := by
  induction n with
  | zero =>
      intro va m ht
      refine Or.inl ⟨fun i hi => absurd hi (Nat.not_lt_zero i), m, rfl, ?_⟩
      refine Rewritten.refl ht ?_
      rintro x ⟨i, hi, -⟩
      exact absurd hi (Nat.not_lt_zero i)
  | succ n ih =>
      intro va m ht
      by_cases hfirst : pageRadix.lookup m.ram 3 root (pageAt va 0) = none
      · refine Or.inr ⟨0, Nat.succ_pos n, hfirst, fun i hi => absurd hi (Nat.not_lt_zero i),
          m, ?_, ?_⟩
        · rw [updatePages, updatePage_unmapped ht flags hfirst]
          rfl
        · refine Rewritten.refl ht ?_
          rintro x ⟨i, hi, -⟩
          exact absurd hi (Nat.not_lt_zero i)
      · obtain ⟨m1, hrun1, h1⟩ := updatePage_rewritten ht va flags hfirst
        have hstep : updatePages flags root (n + 1) va m =
            updatePages flags root n ((va + pageSize) % 2 ^ 64) m1 := by
          rw [updatePages, hrun1]
          rfl
        have hsplit : ∀ k x, (∃ i < k + 1, x = pageAt va i) ↔
            x = pageAt va 0 ∨ ∃ i < k, x = pageAt ((va + pageSize) % 2 ^ 64) i := by
          intro k x
          rw [Nat.exists_lt_succ_left]
          simp only [pageAt_next]
        have hlater : ∀ i, pageRadix.lookup m1.ram 3 root
            (pageAt ((va + pageSize) % 2 ^ 64) i) = none ↔
              pageRadix.lookup m.ram 3 root (pageAt va (i + 1)) = none := by
          intro i
          rw [pageAt_next]
          exact h1.mapped_iff (pageAt_lt va (i + 1))
        have hall : ∀ k, (∀ i < k, pageRadix.lookup m1.ram 3 root
            (pageAt ((va + pageSize) % 2 ^ 64) i) ≠ none) →
              ∀ i < k + 1, pageRadix.lookup m.ram 3 root (pageAt va i) ≠ none := by
          intro k hk i hi
          cases i with
          | zero => exact hfirst
          | succ i => exact fun h => hk i (Nat.lt_of_succ_lt_succ hi) ((hlater i).mpr h)
        rcases ih ((va + pageSize) % 2 ^ 64) m1 h1.tree with
          ⟨hmapped, m', hrun, h'⟩ | ⟨k, hk, hnone, hmapped, m', hrun, h'⟩
        · exact Or.inl ⟨hall n hmapped, m', hstep.trans hrun, h1.trans h' (hsplit n)⟩
        · exact Or.inr ⟨k + 1, Nat.succ_lt_succ hk, (hlater k).mp hnone, hall k hmapped,
            m', hstep.trans hrun, h1.trans h' (hsplit k)⟩

end Range

/-! ## §4  All or nothing -/

def rangePages (virtStart virtEnd : ℕ) : ℕ := (virtEnd - virtStart) / pageSize

/-- Word `j` of page `t` is the L3 entry of a page of the range. -/
def RangeEntry (ram : ℕ → ℕ → Word) (root virtStart virtEnd t j : ℕ) : Prop :=
  ∃ i < rangePages virtStart virtEnd,
    pageRadix.Reaches ram (pageAt virtStart i) 3 root 0 t ∧
      j = pageRadix.digit 0 (pageAt virtStart i)

/-- Both arguments are page-aligned and every page of the range is mapped. -/
def RangeMapped (ram : ℕ → ℕ → Word) (root virtStart virtEnd : ℕ) : Prop :=
  (virtStart % pageSize = 0 ∧ virtEnd % pageSize = 0) ∧
    ∀ i < rangePages virtStart virtEnd,
      translate ram root (virtStart + i * pageSize) ≠ none

/-- What the caller is promised: the whole range is rewritten and the result is
true, or nothing has changed and the result is false. -/
def AllOrNothing (flags root virtStart virtEnd : ℕ) (m : Machine) (r : Option Bool)
    (m' : Machine) : Prop :=
  (RangeMapped m.ram root virtStart virtEnd → r = some true ∧
    (∀ t j, RangeEntry m.ram root virtStart virtEnd t j →
      m'.ram t j = withFlags flags (m.ram t j)) ∧
    ∀ t j, ¬ RangeEntry m.ram root virtStart virtEnd t j → m'.ram t j = m.ram t j) ∧
  (¬ RangeMapped m.ram root virtStart virtEnd → r = some false ∧ m'.ram = m.ram)

/-- The first unmapped page of the range comes after pages that have the
attributes already. -/
def NothingToUndo (flags root virtStart virtEnd : ℕ) (m : Machine) : Prop :=
  ∃ k < rangePages virtStart virtEnd,
    translate m.ram root (virtStart + k * pageSize) = none ∧
    ∀ i < k, (translate m.ram root (virtStart + i * pageSize)).map Prod.snd =
      some (parseBlockFlags flags 1)

section AllOrNothing

variable {flags root virtStart virtEnd : ℕ} {m : Machine}

theorem translate_pageAt (ram : ℕ → ℕ → Word) (root va i : ℕ) :
    (translate ram root (va + i * pageSize)).map Prod.snd =
      (pageRadix.lookup ram 3 root (pageAt va i)).map fun r => attributes r.2 := by
  have hmod := Radix.lookup_mod (R := pageRadix) ram 3 root (va / pageSize + i)
  have hpage : (va + i * pageSize) / pageSize = va / pageSize + i :=
    Nat.add_mul_div_right va i (by decide)
  rw [translate, hpage, Option.map_map]
  exact congrArg (Option.map fun r => attributes r.2) hmod.symm

theorem translate_none_iff (ram : ℕ → ℕ → Word) (root va i : ℕ) :
    translate ram root (va + i * pageSize) = none ↔
      pageRadix.lookup ram 3 root (pageAt va i) = none := by
  rw [← Option.map_eq_none_iff (f := Prod.snd), translate_pageAt, Option.map_eq_none_iff]

/-- On aligned arguments `update_mapping` is the loop over the range. -/
theorem updateMapping_aligned (hstart : virtStart % pageSize = 0)
    (hend : virtEnd % pageSize = 0) (hle : virtStart ≤ virtEnd) (hlt : virtEnd < 2 ^ 64) :
    updateMapping virtStart virtEnd flags root m =
      updatePages flags root (rangePages virtStart virtEnd) virtStart m := by
  have hpages : (virtEnd + 2 ^ 64 - virtStart) % 2 ^ 64 = virtEnd - virtStart := by omega
  rw [updateMapping, and_pageMask, and_pageMask, hstart, hend, hpages]
  rfl

/-- The results of `update_mapping`: none if the whole range is mapped, false
otherwise, with memory as before exactly if there is nothing to undo. -/
theorem updateMapping_spec (ht : PageTree TableOrPage m.ram root)
    (hstart : virtStart % pageSize = 0) (hend : virtEnd % pageSize = 0)
    (hle : virtStart ≤ virtEnd) (hlt : virtEnd < 2 ^ 64) (flags : ℕ) :
    (RangeMapped m.ram root virtStart virtEnd ∧
      ∃ m', updateMapping virtStart virtEnd flags root m = some (none, m')) ∨
    ¬ RangeMapped m.ram root virtStart virtEnd ∧
      ∃ m', updateMapping virtStart virtEnd flags root m = some (some false, m') ∧
        (m'.ram = m.ram ↔ NothingToUndo flags root virtStart virtEnd m) := by
  rw [updateMapping_aligned hstart hend hle hlt]
  rcases updatePages_spec flags (rangePages virtStart virtEnd) virtStart m ht with
    ⟨hmapped, m', hrun, -⟩ | ⟨k, hk, hnone, hmapped, m', hrun, hw⟩
  · refine Or.inl ⟨⟨⟨hstart, hend⟩, fun i hi => ?_⟩, m', hrun⟩
    rw [ne_eq, translate_none_iff]
    exact hmapped i hi
  refine Or.inr ⟨fun h => h.2 k hk ((translate_none_iff _ _ _ _).mpr hnone), m', hrun, ?_⟩
  constructor
  · intro hram
    refine ⟨k, hk, (translate_none_iff _ _ _ _).mpr hnone, fun i hi => ?_⟩
    -- the entry of an earlier page is its own rewriting
    have hin := hw.inside _ (pageAt_lt virtStart i) ⟨i, hi, rfl⟩
    rw [hram] at hin
    rw [translate_pageAt]
    cases hlook : pageRadix.lookup m.ram 3 root (pageAt virtStart i) with
    | none => exact absurd hlook (hmapped i hi)
    | some r =>
        rw [hlook, Option.map_some, Option.some.injEq, Prod.ext_iff] at hin
        rw [Option.map_some, (withFlags_eq_iff flags r.2).mp hin.2.symm]
  · rintro ⟨k', -, hnone', hattr⟩
    rw [translate_none_iff] at hnone'
    refine hw.same fun x hx hin r hr => ?_
    obtain ⟨i, hi, rfl⟩ := hin
    have hik : i < k' := by
      by_contra hge
      rcases Nat.lt_or_eq_of_le (Nat.le_of_not_lt hge) with hlt' | rfl
      · exact hmapped k' (Nat.lt_trans hlt' hi) hnone'
      · rw [hr] at hnone'
        exact absurd hnone' (Option.some_ne_none r)
    have hword := hattr i hik
    rw [translate_pageAt, hr, Option.map_some, Option.some.injEq] at hword
    exact (withFlags_eq_iff flags r.2).mpr hword

end AllOrNothing

/-- `update_mapping` keeps its promise exactly when an argument is not
page-aligned or there is nothing to undo before its first unmapped page. -/
theorem updateMapping_allOrNothing_iff {flags root virtStart virtEnd : ℕ} {m : Machine}
    (ht : PageTree TableOrPage m.ram root)
    (hle : virtStart % pageSize = 0 → virtEnd % pageSize = 0 → virtStart ≤ virtEnd)
    (hlt : virtEnd < 2 ^ 64) :
    ∃ r m', updateMapping virtStart virtEnd flags root m = some (r, m') ∧
      (AllOrNothing flags root virtStart virtEnd m r m' ↔
        (virtStart % pageSize ≠ 0 ∨ virtEnd % pageSize ≠ 0) ∨
          NothingToUndo flags root virtStart virtEnd m) := by
  by_cases hal : virtStart % pageSize ≠ 0 ∨ virtEnd % pageSize ≠ 0
  · refine ⟨some false, m, ?_, ?_⟩
    · rw [updateMapping, and_pageMask, and_pageMask, if_pos hal]
    · refine ⟨fun _ => Or.inl hal, fun _ => ⟨fun h => ?_, fun _ => ⟨rfl, rfl⟩⟩⟩
      exact absurd h.1 (by tauto)
  have hstart : virtStart % pageSize = 0 := by tauto
  have hend : virtEnd % pageSize = 0 := by tauto
  rcases updateMapping_spec ht hstart hend (hle hstart hend) hlt flags with
    ⟨hmapped, m', hrun⟩ | ⟨hnot, m', hrun, hiff⟩
  · refine ⟨none, m', hrun, fun h => ?_, fun h => ?_⟩
    · exact absurd (h.1 hmapped).1 (by decide)
    · obtain ⟨k, hk, hnone, -⟩ := h.resolve_left hal
      exact absurd hnone (hmapped.2 k hk)
  · refine ⟨some false, m', hrun, fun h => Or.inr (hiff.mp (h.2 hnot).2), fun h => ?_⟩
    exact ⟨fun h' => absurd h' hnot, fun _ => ⟨rfl, hiff.mpr (h.resolve_left hal)⟩⟩

/-- A tree in which the first page is mapped for the kernel, without access. -/
theorem firstPage_mapped :
    ∃ m, mapPages takeNextPage mapKernel 0 1 0 0x5000 blankMachine = some m ∧
      PageTree TableOrPage m.ram 0 ∧
      pageRadix.lookup m.ram 3 0 0 = some (0, leafDescriptor mapKernel 1 0x5000) ∧
      pageRadix.lookup m.ram 3 0 1 = none := by
  have hb := blankMachine_hasPages tableOrPage_admits
  obtain ⟨m, hrun, ht, hlook⟩ := mapPages_lookup mapKernel 1 (by decide) 0 0x5000
    blankMachine hb.tree (HasPages.pages 1 0 0x5000 _ (hb.mono (by decide)))
  have hblank : ∀ x, pageRadix.lookup blankMachine.ram 3 0 x = none :=
    fun x => Radix.lookup_void fun i _ => blank_void i
  refine ⟨m, hrun, ht, ?_, ?_⟩
  · rw [hlook 0 (by decide), if_pos ⟨by decide, hblank 0⟩]
    rfl
  · rw [hlook 1 (by decide), if_neg fun h => absurd h.1 (by decide)]
    exact hblank 1

theorem updateMapping_allOrNothing_iff_example :
    ∃ m, mapPages takeNextPage mapKernel 0 1 0 0x5000 blankMachine = some m ∧
      ∃ r m', updateMapping 0 0x2000 (mapKernel ||| mapRead) 0 m = some (r, m') ∧
        (AllOrNothing (mapKernel ||| mapRead) 0 0 0x2000 m r m' ↔
          (0 % pageSize ≠ 0 ∨ 0x2000 % pageSize ≠ 0) ∨
            NothingToUndo (mapKernel ||| mapRead) 0 0 0x2000 m) := by
  obtain ⟨m, hrun, ht, -⟩ := firstPage_mapped
  exact ⟨m, hrun, updateMapping_allOrNothing_iff ht (fun _ _ => by decide) (by decide)⟩

/-- Of two pages the first one is mapped for the kernel, without access. A
call that should make both writable changes the first one and returns false;
a call for the first one alone returns no value. -/
theorem updateMapping_half_changed :
    ∃ m, mapPages takeNextPage mapKernel 0 1 0 0x5000 blankMachine = some m ∧
      PageTree TableOrPage m.ram 0 ∧
      (∃ m', updateMapping 0 0x2000 (mapKernel ||| mapRead ||| mapWrite) 0 m =
          some (some false, m') ∧
        ¬ AllOrNothing (mapKernel ||| mapRead ||| mapWrite) 0 0 0x2000 m (some false) m') ∧
      ∃ m', updateMapping 0 0x1000 (mapKernel ||| mapRead ||| mapWrite) 0 m =
          some (none, m') ∧
        ¬ AllOrNothing (mapKernel ||| mapRead ||| mapWrite) 0 0 0x1000 m none m' := by
  obtain ⟨m, hrun, ht, hfirst, hsecond⟩ := firstPage_mapped
  have hunmapped : translate m.ram 0 (0 + 1 * pageSize) = none :=
    (translate_none_iff m.ram 0 0 1).mpr hsecond
  refine ⟨m, hrun, ht, ?_, ?_⟩
  · have hnot : ¬ RangeMapped m.ram 0 0 0x2000 :=
      fun h => h.2 1 (by decide) hunmapped
    rcases updateMapping_spec ht (by decide : 0 % pageSize = 0)
        (by decide : 0x2000 % pageSize = 0) (by decide) (by decide)
        (mapKernel ||| mapRead ||| mapWrite) with
      ⟨hmapped, -⟩ | ⟨-, m', hrun', hiff⟩
    · exact absurd hmapped hnot
    refine ⟨m', hrun', fun hall => ?_⟩
    obtain ⟨k, hk, hnone, hattr⟩ := hiff.mp (hall.2 hnot).2
    cases k with
    | zero =>
        rw [translate_none_iff] at hnone
        exact absurd (hfirst.symm.trans hnone) (Option.some_ne_none _)
    | succ k =>
        have hword := hattr 0 (Nat.succ_pos k)
        have hlook0 : pageRadix.lookup m.ram 3 0 (pageAt 0 0) = _ := hfirst
        rw [translate_pageAt, hlook0, Option.map_some,
          leafDescriptor_attributes _ _ (by decide)] at hword
        exact absurd hword (by decide)
  · rcases updateMapping_spec ht (by decide : 0 % pageSize = 0)
        (by decide : 0x1000 % pageSize = 0) (by decide) (by decide)
        (mapKernel ||| mapRead ||| mapWrite) with
      ⟨hmapped, m', hrun'⟩ | ⟨hnot, -⟩
    · exact ⟨m', hrun', fun hall => absurd (hall.1 hmapped).1 (by decide)⟩
    · refine absurd ⟨⟨by decide, by decide⟩, fun i hi => ?_⟩ hnot
      rw [show i = 0 from Nat.lt_one_iff.mp hi, ne_eq, translate_none_iff]
      exact fun hnone => absurd (hfirst.symm.trans hnone) (Option.some_ne_none _)

end Rpos
