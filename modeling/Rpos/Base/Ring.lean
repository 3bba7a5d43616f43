import Mathlib.Data.List.Chain
import Mathlib.Data.List.Nodup
import Mathlib.Data.Set.Basic
import Mathlib.Logic.Function.Basic
import Mathlib.Tactic.Tauto

/-!
# Intrusive circular lists

A circular doubly linked list threaded through its nodes' `next` and `prev`
fields. The list head is a node of the same type as the members, so one
`Links` value holds every list of a program at once. `IsRing l h xs` says that
`h` heads a well-formed ring whose members, in `next` order, are `xs`.
Every edit is local: `listAdd` and `listRemove` touch the fields of three
nodes, so a ring that contains none of them is kept.
-/

namespace Rpos.Base

variable {N : Type*}

structure Links (N : Type*) where
  next : N → N
  prev : N → N

namespace Links

variable [DecidableEq N]

def setNext (l : Links N) (n v : N) : Links N :=
  { l with next := Function.update l.next n v }

def setPrev (l : Links N) (n v : N) : Links N :=
  { l with prev := Function.update l.prev n v }

def initListHead (l : Links N) (head : N) : Links N :=
  (l.setNext head head).setPrev head head

/-- `list_add`: insert `newnode` right after `head`. -/
def listAdd (l : Links N) (newnode head : N) : Links N :=
  let l := l.setNext newnode (l.next head)
  let l := l.setPrev newnode head
  let l := l.setPrev (l.next head) newnode
  l.setNext head newnode

/-- `list_remove`: unlink `node` and leave it pointing at itself. -/
def listRemove (l : Links N) (node : N) : Links N :=
  let l := l.setNext (l.prev node) (l.next node)
  let l := l.setPrev (l.next node) (l.prev node)
  let l := l.setNext node node
  l.setPrev node node

def listEmpty (l : Links N) (head : N) : Bool :=
  decide (l.next head = head)

@[simp] theorem setNext_prev (l : Links N) (n v : N) :
    (l.setNext n v).prev = l.prev := rfl

@[simp] theorem setPrev_next (l : Links N) (n v : N) :
    (l.setPrev n v).next = l.next := rfl

theorem setNext_next (l : Links N) (n v x : N) :
    (l.setNext n v).next x = if x = n then v else l.next x := by
  simp [setNext, Function.update_apply]

theorem setPrev_prev (l : Links N) (n v x : N) :
    (l.setPrev n v).prev x = if x = n then v else l.prev x := by
  simp [setPrev, Function.update_apply]

def SelfLinked (l : Links N) (x : N) : Prop :=
  l.next x = x ∧ l.prev x = x

omit [DecidableEq N] in
@[ext] theorem ext {l l' : Links N} (hn : ∀ x, l.next x = l'.next x)
    (hp : ∀ x, l.prev x = l'.prev x) : l = l' := by
  cases l
  cases l'
  congr
  · exact funext hn
  · exact funext hp

end Links

open Links

variable {l l' : Links N}

/-! ## §1  Segments -/

def Linked (l : Links N) (a b : N) : Prop :=
  l.next a = b ∧ l.prev b = a

def Segment (l : Links N) (ws : List N) : Prop :=
  ws.IsChain (Linked l)

theorem segment_join {as bs : List N} {c : N} :
    Segment l (as ++ c :: bs) ↔ Segment l (as ++ [c]) ∧ Segment l (c :: bs) :=
  List.isChain_split

theorem segment_pair {a b : N} : Segment l [a, b] ↔ Linked l a b :=
  List.isChain_pair

/-- A segment reads `next` of all its nodes but the last and `prev` of all
but the first. -/
theorem Segment.congr {ws : List N} (h : Segment l ws)
    (hnext : ∀ a ∈ ws.dropLast, l'.next a = l.next a)
    (hprev : ∀ b ∈ ws.tail, l'.prev b = l.prev b) : Segment l' ws := by
  induction ws with
  | nil => exact List.isChain_nil
  | cons a ws ih =>
      cases ws with
      | nil => exact List.isChain_singleton a
      | cons b ws =>
          obtain ⟨⟨hn, hp⟩, hrest⟩ := List.isChain_cons_cons.mp h
          refine List.isChain_cons_cons.mpr ⟨⟨?_, ?_⟩, ?_⟩
          · rw [hnext a (by simp [List.dropLast]), hn]
          · rw [hprev b (by simp), hp]
          · refine ih hrest ?_ ?_
            · intro x hx
              exact hnext x (by simp only [List.dropLast, List.mem_cons]
                                exact Or.inr hx)
            · intro x hx
              exact hprev x (by simp only [List.tail_cons] at hx ⊢
                                exact List.mem_cons_of_mem b hx)

/-- A segment determines its nodes from its first node and its length. -/
theorem Segment.unique {h : N} {xs ys : List N}
    (hx : Segment l (xs ++ [h])) (hy : Segment l (ys ++ [h]))
    (hxs : h ∉ xs) (hys : h ∉ ys)
    (hhead : (xs ++ [h]).head? = (ys ++ [h]).head?) : xs = ys := by
  induction xs generalizing ys with
  | nil =>
      cases ys with
      | nil => rfl
      | cons y ys =>
          simp only [List.nil_append, List.head?_cons, List.cons_append,
            Option.some.injEq] at hhead
          exact absurd (by simp [hhead]) hys
  | cons x xs ih =>
      cases ys with
      | nil =>
          simp only [List.nil_append, List.head?_cons, List.cons_append,
            Option.some.injEq] at hhead
          exact absurd (by simp [hhead]) hxs
      | cons y ys =>
          simp only [List.cons_append, List.head?_cons, Option.some.injEq]
            at hhead
          subst hhead
          simp only [Segment, List.cons_append, List.isChain_cons] at hx hy
          simp only [List.mem_cons, not_or] at hxs hys
          have hheads : (xs ++ [h]).head? = (ys ++ [h]).head? := by
            cases hxh : (xs ++ [h]).head? with
            | none => simp at hxh
            | some a =>
                cases hyh : (ys ++ [h]).head? with
                | none => simp at hyh
                | some b =>
                    have ha := (hx.1 a (by simp [hxh])).1
                    have hb := (hy.1 b (by simp [hyh])).1
                    rw [← ha, ← hb]
          rw [ih hx.2 hy.2 hxs.2 hys.2 hheads]

/-! ## §2  Rings -/

structure IsRing (l : Links N) (h : N) (xs : List N) : Prop where
  nodup : (h :: xs).Nodup
  segment : Segment l (h :: (xs ++ [h]))

namespace IsRing

variable {h x : N} {xs ys : List N}

theorem head_notMem (hr : IsRing l h xs) : h ∉ xs :=
  (List.nodup_cons.mp hr.nodup).1

theorem members_nodup (hr : IsRing l h xs) : xs.Nodup :=
  (List.nodup_cons.mp hr.nodup).2

theorem next_head (hr : IsRing l h xs) : l.next h = (xs ++ [h]).headD h := by
  have hs := hr.segment
  cases xs with
  | nil => exact (segment_pair.mp hs).1
  | cons x xs =>
      exact ((List.isChain_cons_cons.mp hs).1).1

@[simp] theorem next_head_cons (hr : IsRing l h (x :: xs)) : l.next h = x :=
  hr.next_head

theorem unique (hx : IsRing l h xs) (hy : IsRing l h ys) : xs = ys := by
  have hsx := hx.segment
  have hsy := hy.segment
  rw [Segment, List.isChain_cons] at hsx hsy
  refine Segment.unique hsx.2 hsy.2 hx.head_notMem hy.head_notMem ?_
  have hnx := hx.next_head
  have hny := hy.next_head
  rw [hnx] at hny
  cases xs <;> cases ys <;> simp_all

theorem congr (hr : IsRing l h xs)
    (hnext : ∀ a ∈ h :: xs, l'.next a = l.next a)
    (hprev : ∀ a ∈ h :: xs, l'.prev a = l.prev a) : IsRing l' h xs := by
  refine ⟨hr.nodup, hr.segment.congr ?_ ?_⟩
  · intro a ha
    rw [← List.cons_append, List.dropLast_concat] at ha
    exact hnext a ha
  · intro a ha
    simp only [List.tail_cons, List.mem_append, List.mem_singleton] at ha
    refine hprev a ?_
    rcases ha with ha | rfl
    · exact List.mem_cons_of_mem h ha
    · exact List.mem_cons_self

variable [DecidableEq N]

theorem listEmpty_iff (hr : IsRing l h xs) :
    l.listEmpty h = true ↔ xs = [] := by
  rw [Links.listEmpty, decide_eq_true_eq, hr.next_head]
  cases xs with
  | nil => simp
  | cons x xs =>
      have hne : x ≠ h := fun he => hr.head_notMem (by simp [he])
      simpa using hne

end IsRing

/-! ## §3  The edits -/

section Edits

variable [DecidableEq N] {h x y : N} {xs ys : List N}

omit [DecidableEq N] in
theorem isRing_nil : IsRing l h [] ↔ SelfLinked l h := by
  constructor
  · intro hr
    exact segment_pair.mp hr.segment
  · intro hs
    exact ⟨by simp, segment_pair.mpr hs⟩

theorem initListHead_selfLinked (l : Links N) (h : N) :
    SelfLinked (l.initListHead h) h := by
  constructor <;> simp [Links.initListHead, setNext_next, setPrev_prev]

theorem initListHead_of_selfLinked (hs : SelfLinked l h) : l.initListHead h = l := by
  obtain ⟨hn, hp⟩ := hs
  refine Links.ext ?_ ?_ <;> intro a <;> by_cases ha : a = h <;>
    simp [Links.initListHead, setNext_next, setPrev_prev, ha, hn, hp]

theorem initListHead_other {a : N} (ha : a ≠ h) (hs : SelfLinked l a) :
    SelfLinked (l.initListHead h) a := by
  obtain ⟨hn, hp⟩ := hs
  constructor <;>
    simp [Links.initListHead, setNext_next, setPrev_prev, ha, hn, hp]

/-- `listAdd` touches the new node, the head and the head's old successor. -/
theorem listAdd_next_other (l : Links N) {n h a : N} (hn : a ≠ n)
    (hh : a ≠ h) : (l.listAdd n h).next a = l.next a := by
  simp [Links.listAdd, setNext_next, hn, hh]

theorem listAdd_prev_other (l : Links N) {n h a : N} (hn : a ≠ n)
    (hne : n ≠ h) (hs : a ≠ l.next h) : (l.listAdd n h).prev a = l.prev a := by
  simp [Links.listAdd, setNext_next, setPrev_prev, hn, hs, hne.symm]

omit [DecidableEq N] in
theorem IsRing.next_head_mem (hr : IsRing l h xs) : l.next h ∈ h :: xs := by
  rw [hr.next_head]
  cases xs <;> simp

theorem IsRing.listAdd (hr : IsRing l h xs) (hx : x ∉ h :: xs) :
    IsRing (l.listAdd x h) h (x :: xs) := by
  obtain ⟨hxh, hxs⟩ : x ≠ h ∧ x ∉ xs := by simpa using hx
  refine ⟨?_, ?_⟩
  · rw [List.nodup_cons, List.nodup_cons]
    refine ⟨?_, hxs, hr.members_nodup⟩
    simpa [hxh.symm] using hr.head_notMem
  have hseg := hr.segment
  obtain ⟨c, cs, hcs⟩ : ∃ c cs, xs ++ [h] = c :: cs :=
    List.exists_cons_of_ne_nil (by simp)
  have hnext : l.next h = c := by rw [hr.next_head, hcs, List.headD_cons]
  have hnodup : (c :: cs).Nodup := by
    rw [← hcs, List.nodup_append_comm]
    exact hr.nodup
  have hxc : x ∉ c :: cs := by rw [← hcs]; simp [hxs, hxh]
  rw [hcs] at hseg
  rw [List.cons_append, hcs]
  obtain ⟨-, htail⟩ := List.isChain_cons_cons.mp hseg
  refine List.isChain_cons_cons.mpr ⟨⟨?_, ?_⟩,
    List.isChain_cons_cons.mpr ⟨⟨?_, ?_⟩, ?_⟩⟩
  · simp [Links.listAdd, setNext_next]
  · have hne : x ≠ c := fun he => hxc (by simp [he])
    simp [Links.listAdd, setNext_next, setPrev_prev, hxh.symm, hnext, hne]
  · simp [Links.listAdd, setNext_next, hxh, hnext]
  · simp [Links.listAdd, setNext_next, setPrev_prev, hxh.symm, hnext]
  -- the old members keep their links: `h` is last and `c` is first
  refine Segment.congr htail ?_ ?_
  · intro a ha
    rw [← hcs, List.dropLast_concat] at ha
    refine listAdd_next_other l ?_ ?_
    · exact fun he => hxs (he ▸ ha)
    · exact fun he => hr.head_notMem (he ▸ ha)
  · intro a ha
    rw [List.tail_cons] at ha
    refine listAdd_prev_other l ?_ hxh ?_
    · exact fun he => hxc (he ▸ List.mem_cons_of_mem c ha)
    · rw [hnext]
      exact fun he => (List.nodup_cons.mp hnodup).1 (he ▸ ha)

/-- A ring that shares no node with the edited one is kept. -/
theorem IsRing.listAdd_frame (hr : IsRing l h xs) {k : N} {ks : List N}
    (hk : IsRing l k ks) (hxh : x ≠ h) (hdisj : ∀ a ∈ k :: ks, a ∉ h :: xs)
    (hx : x ∉ k :: ks) : IsRing (l.listAdd x h) k ks := by
  refine hk.congr ?_ ?_
  · intro a ha
    refine listAdd_next_other l ?_ ?_
    · exact fun he => hx (he ▸ ha)
    · exact fun he => hdisj a ha (by simp [he])
  · intro a ha
    refine listAdd_prev_other l ?_ hxh ?_
    · exact fun he => hx (he ▸ ha)
    · exact fun he => hdisj a ha (he ▸ hr.next_head_mem)

theorem listRemove_self (l : Links N) (x : N) :
    SelfLinked (l.listRemove x) x := by
  constructor <;> simp [Links.listRemove, setNext_next, setPrev_prev]

/-- Removing a node that already points at itself changes nothing. -/
theorem listRemove_selfLinked (hs : SelfLinked l x) : l.listRemove x = l := by
  obtain ⟨hn, hp⟩ := hs
  refine Links.ext ?_ ?_ <;> intro a <;> by_cases ha : a = x <;>
    simp [Links.listRemove, setNext_next, setPrev_prev, hn, hp, ha]

theorem listRemove_next_other (l : Links N) {n a : N} (hn : a ≠ n)
    (hp : a ≠ l.prev n) : (l.listRemove n).next a = l.next a := by
  simp [Links.listRemove, setNext_next, hn, hp]

theorem listRemove_prev_other (l : Links N) {n a : N} (hn : a ≠ n)
    (hne : n ≠ l.prev n) (hs : a ≠ l.next n) :
    (l.listRemove n).prev a = l.prev a := by
  simp [Links.listRemove, setNext_next, setPrev_prev, hn, hs, hne]

omit [DecidableEq N] in
/-- The neighbours of a member, with the two segments around it. -/
theorem IsRing.around (hr : IsRing l h (xs ++ x :: ys)) :
    ∃ as a c cs, h :: xs = as ++ [a] ∧ ys ++ [h] = c :: cs ∧
      l.prev x = a ∧ l.next x = c ∧
      Segment l (h :: xs) ∧ Segment l (ys ++ [h]) := by
  obtain ⟨as, a, has⟩ : ∃ as a, h :: xs = as ++ [a] :=
    ⟨_, _, (List.dropLast_append_getLast (List.cons_ne_nil h xs)).symm⟩
  obtain ⟨c, cs, hcs⟩ : ∃ c cs, ys ++ [h] = c :: cs :=
    List.exists_cons_of_ne_nil (by simp)
  have hseg := hr.segment
  rw [show h :: (xs ++ x :: ys ++ [h]) = as ++ a :: x :: c :: cs by
    rw [List.append_assoc, List.cons_append, hcs, ← List.cons_append, has,
      List.append_assoc]; rfl] at hseg
  rw [segment_join] at hseg
  obtain ⟨hleft, hmid⟩ := hseg
  obtain ⟨hax, hmid⟩ := List.isChain_cons_cons.mp hmid
  obtain ⟨hxc, hright⟩ := List.isChain_cons_cons.mp hmid
  exact ⟨as, a, c, cs, has, hcs, hax.2, hxc.1, has ▸ hleft, hcs ▸ hright⟩

theorem IsRing.listRemove_split (hr : IsRing l h (xs ++ x :: ys)) :
    IsRing (l.listRemove x) h (xs ++ ys) := by
  obtain ⟨as, a, c, cs, has, hcs, hprev, hnext, hleft, hright⟩ := hr.around
  have hnodup : (as ++ a :: x :: ys).Nodup := by
    have hnd := hr.nodup
    rwa [← List.cons_append, has, List.append_assoc] at hnd
  have hxl : x ∉ h :: xs := by
    rw [has]
    intro hx
    have hd := (List.nodup_append.mp hnodup).2.2
    rcases List.mem_append.mp hx with hx | hx
    · exact hd x hx x (by simp) rfl
    · have ha := (List.nodup_append.mp hnodup).2.1
      simp only [List.mem_singleton] at hx
      simp [hx] at ha
  have hxy : x ∉ ys := by
    have ha := (List.nodup_append.mp hnodup).2.1
    exact (List.nodup_cons.mp (List.nodup_cons.mp ha).2).1
  have hxa : x ≠ a := fun he => hxl (by rw [has]; simp [he])
  have hxc : x ∉ c :: cs := by
    rw [← hcs]
    simp only [List.mem_append, List.mem_singleton, not_or]
    exact ⟨hxy, fun he => hxl (by simp [he])⟩
  have hne : x ≠ l.prev x := by rw [hprev]; exact hxa
  refine ⟨?_, ?_⟩
  · have hsub : (h :: (xs ++ ys)).Sublist (h :: (xs ++ x :: ys)) :=
      (List.Sublist.append_left (List.sublist_cons_self x ys) xs).cons_cons h
    exact hr.nodup.sublist hsub
  rw [show h :: (xs ++ ys ++ [h]) = as ++ a :: c :: cs by
    rw [List.append_assoc, hcs, ← List.cons_append, has, List.append_assoc]
    rfl]
  rw [segment_join, ← has]
  refine ⟨?_, List.isChain_cons_cons.mpr ⟨⟨?_, ?_⟩, ?_⟩⟩
  · -- left of the gap only the last node's `next` changes
    refine hleft.congr ?_ ?_
    · intro b hb
      rw [has, List.dropLast_concat] at hb
      refine listRemove_next_other l ?_ ?_
      · exact fun he => hxl (by rw [has]; simp [← he, hb])
      · rw [hprev]
        intro he
        exact (List.nodup_append.mp hnodup).2.2 b hb a (by simp) he
    · intro b hb
      rw [List.tail_cons] at hb
      refine listRemove_prev_other l ?_ hne ?_
      · exact fun he => hxl (he ▸ List.mem_cons_of_mem h hb)
      · rw [hnext]
        intro he
        have hc : c ∈ ys ++ [h] := by rw [hcs]; simp
        have hd := (List.nodup_append.mp hr.members_nodup).2.2
        rcases List.mem_append.mp hc with hc | hc
        · exact hd b hb c (by simp [hc]) he
        · rw [List.mem_singleton] at hc
          exact hr.head_notMem (List.mem_append_left _ (hc ▸ he ▸ hb))
  · simp [Links.listRemove, setNext_next, hprev, hnext, hxa.symm]
  · have hcx : c ≠ x := fun he => hxc (by simp [he])
    simp [Links.listRemove, setNext_next, setPrev_prev, hprev, hnext, hcx, hxa]
  · -- right of the gap only the first node's `prev` changes
    rw [← hcs]
    have hnd : (c :: cs).Nodup := by
      rw [← hcs, List.nodup_append_comm]
      refine hr.nodup.sublist ?_
      exact ((List.sublist_cons_self x ys).trans
        (List.sublist_append_right xs (x :: ys))).cons_cons h
    refine hright.congr ?_ ?_
    · intro b hb
      rw [List.dropLast_concat] at hb
      refine listRemove_next_other l ?_ ?_
      · exact fun he => hxy (he ▸ hb)
      · rw [hprev]
        intro he
        have hd := (List.nodup_append.mp hnodup).2.1
        exact (List.nodup_cons.mp hd).1 (by simp [← he, hb])
    · intro b hb
      rw [hcs, List.tail_cons] at hb
      refine listRemove_prev_other l ?_ hne ?_
      · exact fun he => hxc (he ▸ List.mem_cons_of_mem c hb)
      · rw [hnext]
        exact fun he => (List.nodup_cons.mp hnd).1 (he ▸ hb)

theorem IsRing.listRemove (hr : IsRing l h xs) (hx : x ∈ xs) :
    IsRing (l.listRemove x) h (xs.erase x) := by
  obtain ⟨as, bs, hnot, hsplit, herase⟩ := List.exists_erase_eq hx
  subst hsplit
  rw [herase]
  exact hr.listRemove_split

omit [DecidableEq N] in
theorem IsRing.neighbours_mem (hr : IsRing l h xs) (hx : x ∈ xs) :
    l.next x ∈ h :: xs ∧ l.prev x ∈ h :: xs ∧ x ≠ l.prev x := by
  obtain ⟨as, bs, rfl⟩ := List.append_of_mem hx
  have hnd := hr.nodup
  obtain ⟨us, a, c, cs, has, hcs, hprev, hnext, -, -⟩ := hr.around
  have ha : a ∈ h :: as := by rw [has]; simp
  have hc : c ∈ bs ++ [h] := by rw [hcs]; simp
  rw [hnext, hprev]
  refine ⟨?_, ?_, ?_⟩
  · simp only [List.mem_append, List.mem_singleton] at hc
    rcases hc with hc | rfl
    · simp [hc]
    · simp
  · rcases List.mem_cons.mp ha with rfl | ha
    · simp
    · simp [ha]
  · rintro rfl
    rw [← List.cons_append, List.nodup_append] at hnd
    exact hnd.2.2 x ha x (by simp) rfl

theorem IsRing.listRemove_frame (hr : IsRing l h xs) (hx : x ∈ xs) {k : N}
    {ks : List N} (hk : IsRing l k ks) (hdisj : ∀ a ∈ k :: ks, a ∉ h :: xs) :
    IsRing (l.listRemove x) k ks := by
  obtain ⟨hnext, hprev, hne⟩ := hr.neighbours_mem hx
  refine hk.congr ?_ ?_
  · intro a ha
    refine listRemove_next_other l ?_ ?_
    · exact fun he => hdisj a ha (he ▸ List.mem_cons_of_mem h hx)
    · exact fun he => hdisj a ha (he ▸ hprev)
  · intro a ha
    refine listRemove_prev_other l ?_ hne ?_
    · exact fun he => hdisj a ha (he ▸ List.mem_cons_of_mem h hx)
    · exact fun he => hdisj a ha (he ▸ hnext)

theorem IsRing.listRemove_other (hr : IsRing l h xs) (hx : x ∈ xs)
    (hy : y ∉ h :: xs) (hs : SelfLinked l y) :
    SelfLinked (l.listRemove x) y := by
  obtain ⟨hnext, hprev, hne⟩ := hr.neighbours_mem hx
  have hyx : y ≠ x := fun he => hy (he ▸ List.mem_cons_of_mem h hx)
  refine ⟨?_, ?_⟩
  · rw [listRemove_next_other l hyx (fun he => hy (he ▸ hprev)), hs.1]
  · rw [listRemove_prev_other l hyx hne (fun he => hy (he ▸ hnext)), hs.2]

theorem IsRing.listAdd_other (hr : IsRing l h xs) (hxh : x ≠ h) (hyx : y ≠ x)
    (hy : y ∉ h :: xs) (hs : SelfLinked l y) :
    SelfLinked (l.listAdd x h) y := by
  refine ⟨?_, ?_⟩
  · rw [listAdd_next_other l hyx (fun he => hy (by simp [he])), hs.1]
  · rw [listAdd_prev_other l hyx hxh (fun he => hy (he ▸ hr.next_head_mem)),
      hs.2]

end Edits

/-! ## §4  Families of lists -/

/-- The lists of a program: list `i` has head `head i` and members `mem i`,
and no node lies on two of them. -/
structure RingFamily {ι : Type*} (l : Links N) (I : Set ι) (head : ι → N)
    (mem : ι → List N) : Prop where
  ring : ∀ i ∈ I, IsRing l (head i) (mem i)
  apart : ∀ i ∈ I, ∀ j ∈ I, i ≠ j → ∀ a ∈ head i :: mem i,
    a ∉ head j :: mem j

namespace RingFamily

variable {ι : Type*} {I : Set ι} {head : ι → N} {mem : ι → List N} {x : N}
  {i : ι}

variable [DecidableEq N] [DecidableEq ι]

/-- Taking a member off its list leaves the other lists alone. -/
theorem listRemove (hf : RingFamily l I head mem) (hi : i ∈ I)
    (hx : x ∈ mem i) :
    RingFamily (l.listRemove x) I head
      (Function.update mem i ((mem i).erase x)) := by
  have hsub : ∀ j, Function.update mem i ((mem i).erase x) j ⊆ mem j := by
    intro j
    by_cases hj : j = i
    · subst hj
      rw [Function.update_self]
      exact List.erase_subset
    · rw [Function.update_of_ne hj]
      exact List.Subset.refl _
  refine ⟨?_, ?_⟩
  · intro j hj
    by_cases hji : j = i
    · subst hji
      rw [Function.update_self]
      exact (hf.ring j hj).listRemove hx
    · rw [Function.update_of_ne hji]
      exact (hf.ring i hi).listRemove_frame hx (hf.ring j hj)
        (hf.apart j hj i hi hji)
  · intro j hj k hk hne a ha hak
    exact hf.apart j hj k hk hne a (List.cons_subset_cons _ (hsub j) ha)
      (List.cons_subset_cons _ (hsub k) hak)

/-- A node outside every list can be put at the front of one. -/
theorem listAdd (hf : RingFamily l I head mem) (hi : i ∈ I)
    (hx : ∀ j ∈ I, x ∉ head j :: mem j) :
    RingFamily (l.listAdd x (head i)) I head
      (Function.update mem i (x :: mem i)) := by
  have hmem : ∀ j, ∀ a ∈ head j :: Function.update mem i (x :: mem i) j,
      a = x ∧ j = i ∨ a ∈ head j :: mem j := by
    intro j a ha
    by_cases hj : j = i
    · subst hj
      rw [Function.update_self] at ha
      simp only [List.mem_cons] at ha ⊢
      tauto
    · rw [Function.update_of_ne hj] at ha
      exact Or.inr ha
  have hxh : x ≠ head i := fun he => hx i hi (by simp [he])
  refine ⟨?_, ?_⟩
  · intro j hj
    by_cases hji : j = i
    · subst hji
      rw [Function.update_self]
      exact (hf.ring j hj).listAdd (hx j hj)
    · rw [Function.update_of_ne hji]
      exact (hf.ring i hi).listAdd_frame (hf.ring j hj) hxh
        (hf.apart j hj i hi hji) (hx j hj)
  · intro j hj k hk hne a ha hak
    rcases hmem j a ha with ⟨hax, hj'⟩ | ha' <;>
      rcases hmem k a hak with ⟨hax', hk'⟩ | hak'
    · exact hne (hj'.trans hk'.symm)
    · exact hx k hk (hax ▸ hak')
    · exact hx j hj (hax' ▸ ha')
    · exact hf.apart j hj k hk hne a ha' hak'

end RingFamily

end Rpos.Base
