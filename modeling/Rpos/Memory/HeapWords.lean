import Rpos.Base.Ring
import Rpos.Memory.Mmap

/-!
# Words and list nodes in RAM

The kernel's lists as they lie in RAM: a `list_head_t` is two words, and a pointer is
an address read from a word. On a set of nodes that do not overlap, `list_add` and
`list_remove` are those of the link fields.
-/

namespace Rpos

open Base

/-! ## §1  Words -/

namespace Machine

def readWord (m : Machine) (addr : ℕ) : Option Word :=
  if vaToPa addr % 8 = 0 then
    m.read (vaToPa addr / pageSize) (vaToPa addr % pageSize / 8)
  else none

def writeWord (m : Machine) (addr : ℕ) (w : Word) : Option Machine :=
  if vaToPa addr % 8 = 0 then
    m.store (vaToPa addr / pageSize) (vaToPa addr % pageSize / 8) w
  else none

def readPtr (m : Machine) (addr : ℕ) : Option ℕ := (m.readWord addr).map BitVec.toNat

def writePtr (m : Machine) (addr ptr : ℕ) : Option Machine :=
  m.writeWord addr (BitVec.ofNat 64 ptr)

/-! A `list_head_t` is two pointers, `next` and `prev`. -/

def initListHead (head : ℕ) (m : Machine) : Option Machine := do
  let m ← m.writePtr head head
  m.writePtr (head + 8) head

def listAdd (newnode head : ℕ) (m : Machine) : Option Machine := do
  let next ← m.readPtr head
  let m ← m.writePtr newnode next
  let m ← m.writePtr (newnode + 8) head
  let next ← m.readPtr head
  let m ← m.writePtr (next + 8) newnode
  m.writePtr head newnode

def listRemove (node : ℕ) (m : Machine) : Option Machine := do
  let prev ← m.readPtr (node + 8)
  let next ← m.readPtr node
  let m ← m.writePtr prev next
  let next ← m.readPtr node
  let prev ← m.readPtr (node + 8)
  let m ← m.writePtr (next + 8) prev
  let m ← m.writePtr node node
  m.writePtr (node + 8) node

end Machine

structure InRam (addr : ℕ) : Prop where
  low : virtBase ≤ addr
  high : addr < virtBase + 2 ^ 30
  aligned : addr % 8 = 0

namespace Machine

def word (m : Machine) (addr : ℕ) : Word :=
  m.ram (vaToPa addr / pageSize) (vaToPa addr % pageSize / 8)

def setWord (m : Machine) (addr : ℕ) (w : Word) : Machine :=
  m.write (vaToPa addr / pageSize) (vaToPa addr % pageSize / 8) w

def ptr (m : Machine) (addr : ℕ) : ℕ := (m.word addr).toNat

def setPtr (m : Machine) (addr ptr : ℕ) : Machine :=
  m.setWord addr (BitVec.ofNat 64 ptr)

@[simp] theorem setWord_buddy (m : Machine) (addr : ℕ) (w : Word) :
    (m.setWord addr w).buddy = m.buddy := rfl

@[simp] theorem setPtr_buddy (m : Machine) (addr ptr : ℕ) :
    (m.setPtr addr ptr).buddy = m.buddy := rfl

end Machine

section Words

variable {m : Machine} {a b p : ℕ} {w : Word}

theorem InRam.vaToPa_eq (h : InRam a) : vaToPa a = a - virtBase := by
  obtain ⟨hlow, hhigh, -⟩ := h
  simp only [vaToPa, virtBase] at *
  omega

theorem InRam.page_lt (h : InRam a) : vaToPa a / pageSize < ramPages := by
  obtain ⟨hlow, hhigh, -⟩ := id h
  rw [h.vaToPa_eq]
  simp only [pageSize, ramPages, virtBase] at *
  omega

theorem InRam.vaToPa_aligned (h : InRam a) : vaToPa a % 8 = 0 := by
  obtain ⟨hlow, -, haligned⟩ := id h
  rw [h.vaToPa_eq]
  simp only [virtBase] at *
  omega

theorem InRam.eq_of_word (ha : InRam a) (hb : InRam b)
    (hpage : vaToPa a / pageSize = vaToPa b / pageSize)
    (hidx : vaToPa a % pageSize / 8 = vaToPa b % pageSize / 8) : a = b := by
  have ha8 := ha.vaToPa_aligned
  have hb8 := hb.vaToPa_aligned
  rw [ha.vaToPa_eq] at hpage hidx ha8
  rw [hb.vaToPa_eq] at hpage hidx hb8
  have hla := ha.low
  have hlb := hb.low
  simp only [pageSize] at hpage hidx
  omega

theorem Machine.readWord_eq (h : InRam a) : m.readWord a = some (m.word a) := by
  rw [Machine.readWord, if_pos h.vaToPa_aligned, Machine.read_eq _ h.page_lt, Machine.word]

theorem Machine.writeWord_eq (h : InRam a) : m.writeWord a w = some (m.setWord a w) := by
  rw [Machine.writeWord, if_pos h.vaToPa_aligned, Machine.store_eq _ _ h.page_lt,
    Machine.setWord]

theorem Machine.readPtr_eq (h : InRam a) : m.readPtr a = some (m.ptr a) := by
  rw [Machine.readPtr, Machine.readWord_eq h]
  rfl

theorem Machine.writePtr_eq (h : InRam a) : m.writePtr a p = some (m.setPtr a p) := by
  rw [Machine.writePtr, Machine.writeWord_eq h, Machine.setPtr]

theorem Machine.setWord_word (ha : InRam a) (hb : InRam b) :
    (m.setWord a w).word b = if b = a then w else m.word b := by
  rw [Machine.word, Machine.setWord, Machine.write_ram]
  by_cases hba : b = a
  · rw [hba, if_pos ⟨rfl, rfl⟩, if_pos rfl]
  · rw [if_neg hba, if_neg]
    · rfl
    · rintro ⟨hpage, hidx⟩
      exact hba (hb.eq_of_word ha hpage hidx)

theorem Machine.setPtr_ptr (ha : InRam a) (hb : InRam b) (hp : p < 2 ^ 64) :
    (m.setPtr a p).ptr b = if b = a then p else m.ptr b := by
  rw [Machine.ptr, Machine.setPtr, Machine.setWord_word ha hb]
  split_ifs with hba
  · rw [BitVec.toNat_ofNat, Nat.mod_eq_of_lt hp]
  · rfl

theorem InRam.lt (h : InRam a) : a < 2 ^ 64 := by
  have hhigh := h.high
  simp only [virtBase] at hhigh
  omega

end Words

/-! ## §2  Lists -/

/-- The two words of each node lie in RAM, and no two nodes overlap. -/
structure NodeWords (S : Set ℕ) : Prop where
  next : ∀ a ∈ S, InRam a
  prev : ∀ a ∈ S, InRam (a + 8)
  apart : ∀ a ∈ S, ∀ b ∈ S, a + 8 ≠ b

def HoldsLinks (S : Set ℕ) (m : Machine) (l : Links ℕ) : Prop :=
  ∀ a ∈ S, m.ptr a = l.next a ∧ m.ptr (a + 8) = l.prev a

/-- The other words, and the buddy allocator, are as before. -/
structure OnlyNodes (S : Set ℕ) (m m' : Machine) : Prop where
  buddy : m'.buddy = m.buddy
  word : ∀ w, InRam w → (∀ a ∈ S, w ≠ a ∧ w ≠ a + 8) → m'.word w = m.word w

section Lists

variable {S : Set ℕ} {m m' m'' : Machine} {l : Links ℕ} {a v node head : ℕ}

theorem OnlyNodes.refl (S : Set ℕ) (m : Machine) : OnlyNodes S m m :=
  ⟨rfl, fun _ _ _ => rfl⟩

theorem OnlyNodes.trans (h : OnlyNodes S m m') (h' : OnlyNodes S m' m'') :
    OnlyNodes S m m'' :=
  ⟨h'.buddy.trans h.buddy, fun w hw hS => (h'.word w hw hS).trans (h.word w hw hS)⟩

theorem HoldsLinks.setNext (hS : NodeWords S) (hl : HoldsLinks S m l) (ha : a ∈ S)
    (hv : v < 2 ^ 64) :
    m.writePtr a v = some (m.setPtr a v) ∧ HoldsLinks S (m.setPtr a v) (l.setNext a v) ∧
      OnlyNodes S m (m.setPtr a v) := by
  refine ⟨Machine.writePtr_eq (hS.next a ha), fun b hb => ⟨?_, ?_⟩, rfl, fun w hw hwS => ?_⟩
  · rw [Machine.setPtr_ptr (hS.next a ha) (hS.next b hb) hv, Links.setNext_next, (hl b hb).1]
  · rw [Machine.setPtr_ptr (hS.next a ha) (hS.prev b hb) hv, if_neg (hS.apart b hb a ha)]
    exact (hl b hb).2
  · rw [Machine.setPtr, Machine.setWord_word (hS.next a ha) hw, if_neg (hwS a ha).1]

theorem HoldsLinks.setPrev (hS : NodeWords S) (hl : HoldsLinks S m l) (ha : a ∈ S)
    (hv : v < 2 ^ 64) :
    m.writePtr (a + 8) v = some (m.setPtr (a + 8) v) ∧
      HoldsLinks S (m.setPtr (a + 8) v) (l.setPrev a v) ∧
      OnlyNodes S m (m.setPtr (a + 8) v) := by
  refine ⟨Machine.writePtr_eq (hS.prev a ha), fun b hb => ⟨?_, ?_⟩, rfl, fun w hw hwS => ?_⟩
  · rw [Machine.setPtr_ptr (hS.prev a ha) (hS.next b hb) hv,
      if_neg (hS.apart a ha b hb).symm]
    exact (hl b hb).1
  · rw [Machine.setPtr_ptr (hS.prev a ha) (hS.prev b hb) hv, Links.setPrev_prev, (hl b hb).2]
    simp only [Nat.add_right_cancel_iff]
  · rw [Machine.setPtr, Machine.setWord_word (hS.prev a ha) hw, if_neg (hwS a ha).2]

theorem HoldsLinks.next (hS : NodeWords S) (hl : HoldsLinks S m l) (ha : a ∈ S) :
    m.readPtr a = some (l.next a) := by
  rw [Machine.readPtr_eq (hS.next a ha), (hl a ha).1]

theorem HoldsLinks.prev (hS : NodeWords S) (hl : HoldsLinks S m l) (ha : a ∈ S) :
    m.readPtr (a + 8) = some (l.prev a) := by
  rw [Machine.readPtr_eq (hS.prev a ha), (hl a ha).2]

theorem HoldsLinks.initListHead (hS : NodeWords S) (hl : HoldsLinks S m l) (ha : a ∈ S) :
    ∃ m', m.initListHead a = some m' ∧ HoldsLinks S m' (l.initListHead a) ∧
      OnlyNodes S m m' := by
  have hlt := (hS.next a ha).lt
  obtain ⟨hrun1, hl1, hkeep1⟩ := hl.setNext hS ha hlt
  obtain ⟨hrun2, hl2, hkeep2⟩ := hl1.setPrev hS ha hlt
  refine ⟨_, ?_, hl2, hkeep1.trans hkeep2⟩
  rw [Machine.initListHead, hrun1, Option.bind_eq_bind, Option.bind_some, hrun2]

theorem HoldsLinks.listAdd (hS : NodeWords S) (hl : HoldsLinks S m l) (hnode : node ∈ S)
    (hhead : head ∈ S) (hnext : l.next head ∈ S) :
    ∃ m', m.listAdd node head = some m' ∧ HoldsLinks S m' (l.listAdd node head) ∧
      OnlyNodes S m m' := by
  have hnext' : ((l.setNext node (l.next head)).setPrev node head).next head = l.next head := by
    rw [Links.setPrev_next, Links.setNext_next]
    exact ite_id _
  obtain ⟨hrun1, hl1, hkeep1⟩ := hl.setNext hS hnode (hS.next _ hnext).lt
  obtain ⟨hrun2, hl2, hkeep2⟩ := hl1.setPrev hS hnode (hS.next _ hhead).lt
  have hread := hl2.next hS hhead
  rw [hnext'] at hread
  obtain ⟨hrun3, hl3, hkeep3⟩ := hl2.setPrev hS hnext (hS.next _ hnode).lt
  obtain ⟨hrun4, hl4, hkeep4⟩ := hl3.setNext hS hhead (hS.next _ hnode).lt
  refine ⟨_, ?_, ?_, ((hkeep1.trans hkeep2).trans hkeep3).trans hkeep4⟩
  · rw [Machine.listAdd, hl.next hS hhead, Option.bind_eq_bind, Option.bind_some, hrun1,
      Option.bind_eq_bind, Option.bind_some, hrun2, Option.bind_some, hread, Option.bind_some,
      hrun3, Option.bind_some, hrun4]
  · rw [Links.listAdd]
    simp only [hnext']
    exact hl4

theorem HoldsLinks.listRemove (hS : NodeWords S) (hl : HoldsLinks S m l) (hnode : node ∈ S)
    (hnext : l.next node ∈ S) (hprev : l.prev node ∈ S) :
    ∃ m', m.listRemove node = some m' ∧ HoldsLinks S m' (l.listRemove node) ∧
      OnlyNodes S m m' := by
  have hnext' : (l.setNext (l.prev node) (l.next node)).next node = l.next node := by
    rw [Links.setNext_next]
    exact ite_id _
  obtain ⟨hrun1, hl1, hkeep1⟩ := hl.setNext hS hprev (hS.next _ hnext).lt
  have hread1 := hl1.next hS hnode
  have hread2 := hl1.prev hS hnode
  rw [hnext'] at hread1
  rw [Links.setNext_prev] at hread2
  obtain ⟨hrun2, hl2, hkeep2⟩ := hl1.setPrev hS hnext (hS.next _ hprev).lt
  obtain ⟨hrun3, hl3, hkeep3⟩ := hl2.setNext hS hnode (hS.next _ hnode).lt
  obtain ⟨hrun4, hl4, hkeep4⟩ := hl3.setPrev hS hnode (hS.next _ hnode).lt
  refine ⟨_, ?_, ?_, ((hkeep1.trans hkeep2).trans hkeep3).trans hkeep4⟩
  · rw [Machine.listRemove, hl.prev hS hnode, Option.bind_eq_bind, Option.bind_some,
      hl.next hS hnode, Option.bind_eq_bind, Option.bind_some, hrun1, Option.bind_some, hread1,
      Option.bind_some, hread2, Option.bind_some, hrun2, Option.bind_some, hrun3,
      Option.bind_some, hrun4]
  · rw [Links.listRemove]
    simp only [hnext', Links.setNext_prev]
    exact hl4

end Lists

end Rpos
