import Rpos.Base.BitField
import Rpos.Base.Heap
import Rpos.Base.Runs

/-!
# Priority queues

`pq.c`: a binary heap of fixed capacity. `pq_add` on a full queue does nothing,
and `pq_peek` reads the first cell whether it is occupied or not. A node takes 16
bytes: in a queue that fits into memory the indices, which are `int`s, do not
overflow.

Every run from an empty queue is a run of a bounded multiset from which a least
node is taken at a time.
-/

namespace Rpos

open Base

/-- `pqnode_t`. -/
structure PqNode where
  priority : Word
  element : ℕ

namespace PqNode

def key (x : PqNode) : ℕ := x.priority.toNat

end PqNode

/-- `pq_t`: `size` is the capacity and `items` the number of nodes. -/
structure Pq where
  heap : ℕ → PqNode
  size : ℕ
  items : ℕ

def pqAdd (pq : Pq) (priority : Word) (element : ℕ) : Pq :=
  if pq.items ≥ pq.size then pq
  else
    let heap := Function.update pq.heap pq.items ⟨priority, element⟩
    { pq with
      heap := Heap.swim PqNode.key pq.items heap pq.items
      items := pq.items + 1 }

def pqPop (pq : Pq) : PqNode × Pq :=
  if pq.items = 0 then (⟨0, 0⟩, pq)
  else
    let node := pq.heap 0
    let heap := Heap.swap pq.heap 0 (pq.items - 1)
    let items := pq.items - 1
    (node, { pq with heap := Heap.sink PqNode.key items items heap 0, items := items })

def pqPeek (pq : Pq) : PqNode := pq.heap 0

namespace Pq

def nodes (pq : Pq) : Multiset PqNode := Heap.cells pq.heap pq.items

def elements (pq : Pq) : Multiset ℕ := pq.nodes.map PqNode.element

def Ok (pq : Pq) : Prop := Heap.Ordered PqNode.key pq.heap pq.items

theorem card_nodes (pq : Pq) : pq.nodes.card = pq.items := Heap.card_cells _ _

theorem nodes_eq_zero (pq : Pq) : pq.nodes = 0 ↔ pq.items = 0 := by
  rw [← card_nodes, Multiset.card_eq_zero]

/-- What `pq_peek` reads from a queue that is not empty is its least node. -/
theorem peek_least {pq : Pq} (h : pq.Ok) (hne : pq.items ≠ 0) :
    pqPeek pq ∈ pq.nodes ∧ ∀ x ∈ pq.nodes, (pqPeek pq).key ≤ x.key := by
  refine ⟨Heap.mem_cells.mpr ⟨0, by omega, rfl⟩, fun x hx => ?_⟩
  obtain ⟨i, hi, rfl⟩ := Heap.mem_cells.mp hx
  exact h.root_le hi

theorem pqAdd_full {pq : Pq} (hfull : pq.size ≤ pq.items) (priority : Word)
    (element : ℕ) : pqAdd pq priority element = pq := by
  unfold pqAdd
  rw [if_pos hfull]

theorem pqAdd_spec {pq : Pq} (h : pq.Ok) (hroom : pq.items < pq.size)
    (priority : Word) (element : ℕ) :
    (pqAdd pq priority element).Ok ∧
      (pqAdd pq priority element).nodes = ⟨priority, element⟩ ::ₘ pq.nodes := by
  unfold pqAdd
  rw [if_neg (by omega)]
  exact ⟨Heap.add_ordered h _, Heap.cells_add _ _ _ _⟩

theorem pqAdd_ok {pq : Pq} (h : pq.Ok) (priority : Word) (element : ℕ) :
    (pqAdd pq priority element).Ok := by
  rcases Nat.lt_or_ge pq.items pq.size with hroom | hfull
  · exact (pqAdd_spec h hroom priority element).1
  · rw [pqAdd_full hfull]
    exact h

theorem pqAdd_items_ne {pq : Pq} (hsize : pq.size ≠ 0) (priority : Word) (element : ℕ) :
    (pqAdd pq priority element).items ≠ 0 := by
  unfold pqAdd
  split
  · omega
  · exact Nat.succ_ne_zero _

@[simp]
theorem pqAdd_size (pq : Pq) (priority : Word) (element : ℕ) :
    (pqAdd pq priority element).size = pq.size := by
  unfold pqAdd
  split <;> rfl

theorem pqPop_spec {pq : Pq} (h : pq.Ok) (hne : pq.items ≠ 0) :
    (pqPop pq).1 = pqPeek pq ∧ (pqPop pq).2.Ok ∧
      pqPeek pq ::ₘ (pqPop pq).2.nodes = pq.nodes := by
  obtain ⟨heap, size, items⟩ := pq
  obtain ⟨n, rfl⟩ : ∃ n, items = n + 1 := ⟨items - 1, by simp only at hne; omega⟩
  unfold pqPop
  simp only [Nat.add_one_ne_zero, if_false, Nat.add_sub_cancel]
  exact ⟨rfl, Heap.pop_ordered h, Heap.cells_pop _ _ _⟩

@[simp]
theorem pqPop_size (pq : Pq) : (pqPop pq).2.size = pq.size := by
  unfold pqPop
  split <;> rfl

end Pq

/-! ## Runs -/

inductive PqOp
  | add (priority : Word) (element : ℕ)
  | pop

def pqStep (pq : Pq) : PqOp → Option (Option PqNode × Pq)
  | .add priority element => some (none, pqAdd pq priority element)
  | .pop => some (some (pqPop pq).1, (pqPop pq).2)

inductive PqSpec (size : ℕ) : Multiset PqNode → PqOp → Option PqNode → Multiset PqNode → Prop
  | add {M : Multiset PqNode} {priority : Word} {element : ℕ} : M.card < size →
      PqSpec size M (.add priority element) none (⟨priority, element⟩ ::ₘ M)
  | full {M : Multiset PqNode} {priority : Word} {element : ℕ} : size ≤ M.card →
      PqSpec size M (.add priority element) none M
  | pop {M : Multiset PqNode} {x : PqNode} : (∀ y ∈ x ::ₘ M, x.key ≤ y.key) →
      PqSpec size (x ::ₘ M) .pop (some x) M
  | empty : PqSpec size 0 .pop (some ⟨0, 0⟩) 0

structure PqInv (size : ℕ) (pq : Pq) : Prop where
  heap : pq.Ok
  room : pq.items ≤ pq.size
  size_eq : pq.size = size

section Runs

variable {size : ℕ} {pq : Pq}

theorem pqInv_empty (heap : ℕ → PqNode) (size : ℕ) : PqInv size ⟨heap, size, 0⟩ :=
  ⟨fun _ _ hi => absurd hi (Nat.not_lt_zero _), Nat.zero_le size, rfl⟩

theorem PqInv.add (h : PqInv size pq) (priority : Word) (element : ℕ) :
    PqInv size (pqAdd pq priority element) ∧
      PqSpec size pq.nodes (.add priority element) none (pqAdd pq priority element).nodes := by
  rcases Nat.lt_or_ge pq.items pq.size with hroom | hfull
  · obtain ⟨hok, hnodes⟩ := Pq.pqAdd_spec h.heap hroom priority element
    have hitems : (pqAdd pq priority element).items = pq.items + 1 := by
      rw [← Pq.card_nodes, hnodes, Multiset.card_cons, Pq.card_nodes]
    refine ⟨⟨hok, ?_, ?_⟩, ?_⟩
    · rw [hitems, Pq.pqAdd_size]
      exact hroom
    · rw [Pq.pqAdd_size, h.size_eq]
    · rw [hnodes]
      apply PqSpec.add
      rw [Pq.card_nodes, ← h.size_eq]
      exact hroom
  · rw [Pq.pqAdd_full hfull]
    refine ⟨h, PqSpec.full ?_⟩
    rw [Pq.card_nodes, ← h.size_eq]
    exact hfull

theorem PqInv.pop (h : PqInv size pq) :
    PqInv size (pqPop pq).2 ∧
      PqSpec size pq.nodes .pop (some (pqPop pq).1) (pqPop pq).2.nodes := by
  by_cases hempty : pq.items = 0
  · have hpop : pqPop pq = (⟨0, 0⟩, pq) := if_pos hempty
    rw [hpop]
    refine ⟨h, ?_⟩
    rw [(Pq.nodes_eq_zero pq).mpr hempty]
    exact .empty
  · obtain ⟨hpeek, hok, hnodes⟩ := Pq.pqPop_spec h.heap hempty
    obtain ⟨-, hleast⟩ := Pq.peek_least h.heap hempty
    have hitems : (pqPop pq).2.items + 1 = pq.items := by
      rw [← Pq.card_nodes, ← Pq.card_nodes, ← hnodes, Multiset.card_cons]
    have hroom := h.room
    refine ⟨⟨hok, ?_, ?_⟩, ?_⟩
    · rw [Pq.pqPop_size]
      omega
    · rw [Pq.pqPop_size, h.size_eq]
    · rw [hpeek, ← hnodes]
      apply PqSpec.pop
      rw [hnodes]
      exact hleast

theorem pq_simulates (size : ℕ) :
    Simulates pqStep (PqInv size) (fun _ => True) (PqSpec size) Pq.nodes := by
  refine ⟨fun pq op h _ => ?_⟩
  cases op with
  | add priority element =>
      obtain ⟨hinv, hspec⟩ := h.add priority element
      exact ⟨_, _, rfl, hinv, hspec⟩
  | pop =>
      obtain ⟨hinv, hspec⟩ := h.pop
      exact ⟨_, _, rfl, hinv, hspec⟩

/-- Popping a priority queue until it is empty sorts its nodes. -/
theorem PqSpec.drain {n : ℕ} {M M' : Multiset PqNode} {ws : List (Option PqNode)}
    (hrun : SpecRun (PqSpec size) M (List.replicate n .pop) ws M') (hn : M.card = n) :
    M' = 0 ∧ ∃ xs : List PqNode, ws = xs.map some ∧ (xs : Multiset PqNode) = M ∧
      xs.Pairwise fun x y => x.key ≤ y.key := by
  induction n generalizing M ws with
  | zero =>
      cases hrun
      have hM := Multiset.card_eq_zero.mp hn
      exact ⟨hM, [], rfl, hM.symm, List.Pairwise.nil⟩
  | succ n ih =>
      cases hrun with
      | cons hpop hrest =>
          cases hpop with
          | pop hleast =>
              rw [Multiset.card_cons, Nat.add_right_cancel_iff] at hn
              obtain ⟨hM', xs, rfl, rfl, hsorted⟩ := ih hrest hn
              refine ⟨hM', _ :: xs, rfl, rfl, List.Pairwise.cons (fun y hy => ?_) hsorted⟩
              apply hleast
              exact Multiset.mem_cons_of_mem (Multiset.mem_coe.mpr hy)
          | empty => exact absurd hn (Nat.succ_ne_zero n).symm

/-- From an empty queue of any size, after any calls: the cells are in heap order and no
more than there is room for, the calls were those of a priority queue, a full queue is
not changed by `pq_add`, and popping until the queue is empty returns its nodes with
priorities that do not decrease. -/
theorem pq_runs (heap : ℕ → PqNode) (size : ℕ) (ops : List PqOp) :
    ∃ ws pq, exec pqStep ⟨heap, size, 0⟩ ops = some (ws, pq) ∧ pq.Ok ∧ pq.items ≤ size ∧
      SpecRun (PqSpec size) 0 ops ws pq.nodes ∧
      (pq.items = size → ∀ priority element, pqAdd pq priority element = pq) ∧
      ∃ (xs : List PqNode) (pq' : Pq),
        exec pqStep pq (List.replicate pq.items .pop) = some (xs.map some, pq') ∧
        pq'.items = 0 ∧ (xs : Multiset PqNode) = pq.nodes ∧
        xs.Pairwise fun x y => x.key ≤ y.key := by
  obtain ⟨ws, pq, hexec, hinv, hrun⟩ :=
    (pq_simulates size).exec ops _ (pqInv_empty heap size) fun _ _ => trivial
  obtain ⟨ws', pq', hexec', hinv', hrun'⟩ :=
    (pq_simulates size).exec (List.replicate pq.items .pop) pq hinv fun _ _ => trivial
  obtain ⟨hempty, xs, rfl, hxs, hsorted⟩ := PqSpec.drain hrun' (Pq.card_nodes pq)
  refine ⟨ws, pq, hexec, hinv.heap, hinv.size_eq ▸ hinv.room, hrun, fun hfull p e => ?_,
    xs, pq', hexec', (Pq.nodes_eq_zero pq').mp hempty, hxs, hsorted⟩
  exact Pq.pqAdd_full (hinv.size_eq.trans hfull.symm).le p e

end Runs

end Rpos
