import Mathlib.Order.CompletePartialOrder
import Rpos.Memory.Mmap
import Rpos.Memory.PageOwner

/-!
# The memory profiler

`profile_pid` and `get_percent_free` of `memprofiler.c`. The second walks the
page frame array block by block, and ends only when it meets the end of the
array exactly. The first looks a process up on `proclist` and compares the
address of a pcb with that of a list node, which lies 32 bytes into one.
-/

namespace Rpos

open Base

/-! ## §1  `get_percent_free` -/

/-- The loop of `get_percent_free`: free blocks, all blocks and the records visited. The shift
`1 << curr->order` takes the order modulo 32. -/
def percentWalk (m : Buddy) : ℕ → ℕ → ℕ → ℕ → Option (ℕ × ℕ × List ℕ)
  | 0, _, _, _ => none
  | fuel + 1, curr, blocksFree, totalBlocks =>
      if curr = ramPages then some (blocksFree, totalBlocks, [])
      else if curr < ramPages then
        let f := m.frameMetadata curr
        let size := 2 ^ (f.order % 32)
        let blocksFree := blocksFree + if f.state = pageFree then size else 0
        (percentWalk m fuel (curr + size) blocksFree (totalBlocks + size)).map fun r =>
          (r.1, r.2.1, curr :: r.2.2)
      else none

/-- What `get_percent_free` computes, with the records it visits. -/
structure PercentFree where
  blocksFree : ℕ
  totalBlocks : ℕ
  pct : ℕ
  visited : List ℕ

def getPercentFree (m : Buddy) (fuel : ℕ) : Option PercentFree :=
  (percentWalk m fuel 0 0 0).map fun r => ⟨r.1, r.2.1, r.1 * 100000000 / r.2.1, r.2.2⟩

section PercentFree

variable {m : Buddy} {C : Finset Block} {lo : ℕ} {L : ℕ → List ℕ}

theorem getPercentFree_eq {fuel : ℕ} {r : ℕ × ℕ × List ℕ}
    (hwalk : percentWalk m fuel 0 0 0 = some r) :
    getPercentFree m fuel = some ⟨r.1, r.2.1, r.1 * 100000000 / r.2.1, r.2.2⟩ := by
  rw [getPercentFree, hwalk, Option.map_some]

def freeFrom (m : Buddy) (C : Finset Block) (q : ℕ) : ℕ :=
  ∑ b ∈ (freeBlocks m C).filter (q ≤ ·.base), 2 ^ b.order

/-- The walk from `q` to the end passes the blocks behind `q`. -/
def WalksFrom (m : Buddy) (C : Finset Block) (q : ℕ) : Prop :=
  ∀ fuel blocksFree totalBlocks, ramPages - q < fuel →
    ∃ visited, percentWalk m fuel q blocksFree totalBlocks =
        some (blocksFree + freeFrom m C q, totalBlocks + (ramPages - q), visited) ∧
      visited.Pairwise (· < ·) ∧ ∀ x, x ∈ visited ↔ q ≤ x ∧ ∃ b ∈ C, b.base = x

theorem freeFrom_base (ht : Tiles 0 ramPages C) {b : Block} (hb : b ∈ C) :
    freeFrom m C b.base =
      (if (m.frameMetadata b.base).state = pageFree then 2 ^ b.order else 0) +
        freeFrom m C b.stop := by
  have hpos := Nat.two_pow_pos b.order
  have hnot : b ∉ (freeBlocks m C).filter (b.stop ≤ ·.base) := by
    intro hmem
    have := (Finset.mem_filter.mp hmem).2
    simp only [Block.stop] at this
    omega
  have hother : ∀ c ∈ freeBlocks m C, (b.base ≤ c.base ↔ c = b ∨ b.stop ≤ c.base) :=
    fun c hc => ht.base_le_iff hb (mem_freeBlocks.mp hc).1
  unfold freeFrom
  rw [Finset.filter_congr hother, Finset.filter_or]
  by_cases hfree : (m.frameMetadata b.base).state = pageFree
  · have hself : (freeBlocks m C).filter (· = b) = {b} := by
      rw [Finset.filter_eq', if_pos (mem_freeBlocks.mpr ⟨hb, hfree⟩)]
    rw [if_pos hfree, hself, Finset.singleton_union, Finset.sum_insert hnot]
  · have hself : (freeBlocks m C).filter (· = b) = ∅ := by
      rw [Finset.filter_eq', if_neg fun hmem => hfree (mem_freeBlocks.mp hmem).2]
    rw [if_neg hfree, hself, Finset.empty_union, Nat.zero_add]

/-- Where the record at the base of each block has the order of the block, the walk goes
from block to block. -/
theorem walksFrom_start (ht : Tiles 0 ramPages C)
    (horder : ∀ b ∈ C, (m.frameMetadata b.base).order = b.order ∧ b.order < 32) :
    WalksFrom m C 0 := by
  apply ht.stride_induction (Nat.zero_le _)
  · -- nothing is left at the end
    intro fuel blocksFree totalBlocks hfuel
    obtain ⟨fuel, rfl⟩ := Nat.exists_eq_succ_of_ne_zero (Nat.ne_of_gt (Nat.zero_lt_of_lt hfuel))
    have hbases : ∀ b ∈ C, b.base < ramPages := fun b hb => (ht.base_lt hb).2
    have hnone : freeFrom m C ramPages = 0 := by
      unfold freeFrom
      rw [Finset.filter_false_of_mem, Finset.sum_empty]
      intro b hb
      exact Nat.not_le.mpr (hbases b (mem_freeBlocks.mp hb).1)
    refine ⟨[], ?_, .nil, fun x => ?_⟩
    · rw [percentWalk, if_pos rfl, hnone, Nat.sub_self]
      rfl
    · refine iff_of_false List.not_mem_nil ?_
      rintro ⟨hx, b, hb, rfl⟩
      exact absurd (hbases b hb) (Nat.not_lt.mpr hx)
  · intro b hb ih fuel blocksFree totalBlocks hfuel
    obtain ⟨fuel, rfl⟩ := Nat.exists_eq_succ_of_ne_zero (Nat.ne_of_gt (Nat.zero_lt_of_lt hfuel))
    obtain ⟨hrecord, hlt⟩ := horder b hb
    have hpos := Nat.two_pow_pos b.order
    have hbase := (ht.base_lt hb).2
    have hstop := (ht.within b hb).2
    have hstopeq : b.stop = b.base + 2 ^ b.order := rfl
    obtain ⟨visited, hwalk, hsorted, hmem⟩ := ih fuel
      (blocksFree + if (m.frameMetadata b.base).state = pageFree then 2 ^ b.order else 0)
      (totalBlocks + 2 ^ b.order) (by omega)
    refine ⟨b.base :: visited, ?_, ?_, fun x => ?_⟩
    · have htotal : totalBlocks + 2 ^ b.order + (ramPages - b.stop) =
          totalBlocks + (ramPages - b.base) := by omega
      rw [percentWalk, if_neg hbase.ne, if_pos hbase]
      dsimp only
      rw [hrecord, Nat.mod_eq_of_lt hlt, ← hstopeq, hwalk, htotal, freeFrom_base ht hb,
        Nat.add_assoc]
      rfl
    · refine List.pairwise_cons.mpr ⟨fun x hx => ?_, hsorted⟩
      exact (Nat.lt_add_of_pos_right hpos).trans_le ((hmem x).mp hx).1
    · rw [List.mem_cons, hmem]
      constructor
      · rintro (rfl | ⟨hx, hhead⟩)
        · exact ⟨le_rfl, b, hb, rfl⟩
        · exact ⟨(Nat.le_add_right _ _).trans hx, hhead⟩
      · rintro ⟨hx, c, hc, rfl⟩
        rcases (ht.base_le_iff hb hc).mp hx with rfl | hge
        · exact Or.inl rfl
        · exact Or.inr ⟨hge, c, hc, rfl⟩

/-- The records of the array: a reserved page each, and the blocks. -/
def recordBlocks (R : ℕ) (B : Finset Block) : Finset Block :=
  ((Finset.Ico 0 R).image fun q => ⟨q, 0⟩) ∪ B

theorem mem_recordBlocks_base {R q : ℕ} {B : Finset Block} :
    (∃ b ∈ recordBlocks R B, b.base = q) ↔ q < R ∨ ∃ b ∈ B, b.base = q := by
  simp [recordBlocks, or_and_right, exists_or]

theorem BuddyRep.freeBlocks_records {B : Finset Block} (hr : BuddyRep lo ramPages m B L) :
    freeBlocks m (recordBlocks lo B) = freeBlocks m B := by
  have hnot : pageReserved ≠ pageFree := by decide
  unfold freeBlocks recordBlocks
  rw [Finset.filter_union, Finset.filter_false_of_mem, Finset.empty_union]
  intro b hb
  obtain ⟨q, hq, rfl⟩ := Finset.mem_image.mp hb
  rw [(hr.reserved q (Finset.mem_Ico.mp hq).2).2.2]
  exact hnot

theorem BuddyRep.records_tile {B : Finset Block} (hr : BuddyRep lo ramPages m B L)
    (hlo : 2048 ≤ lo) (hhi : lo < ramPages) :
    Tiles 0 ramPages (recordBlocks lo B) ∧ ∀ b ∈ recordBlocks lo B,
      (m.frameMetadata b.base).order = b.order ∧ b.order < 32 := by
  refine ⟨(Tiles.singles 0 lo).union hr.tiles (Nat.zero_le _) hhi.le, fun b hb => ?_⟩
  rcases Finset.mem_union.mp hb with hb | hb
  · obtain ⟨q, hq, rfl⟩ := Finset.mem_image.mp hb
    exact ⟨(hr.reserved q (Finset.mem_Ico.mp hq).2).1, Nat.zero_lt_succ _⟩
  · exact ⟨(hr.described b hb).order, (hr.order_lt hlo hb).trans (by decide)⟩

theorem BuddyRep.free_card {B : Finset Block} (hr : BuddyRep lo ramPages m B L) :
    (pagesOf (freeBlocks m B)).card = ∑ b ∈ freeBlocks m B, 2 ^ b.order := by
  have hcard : (pagesOf (freeBlocks m B)).card = ∑ b ∈ freeBlocks m B, b.pages.card := by
    refine Finset.card_biUnion fun b hb c hc hne => ?_
    rw [Function.onFun, Finset.disjoint_left]
    intro q hqb hqc
    exact hne (hr.tiles.apart b (mem_freeBlocks.mp hb).1 c (mem_freeBlocks.mp hc).1 q hqb hqc)
  rw [hcard]
  exact Finset.sum_congr rfl fun b _ => b.card_pages

end PercentFree

/-- In every state reached the walk ends at the end of the array, visits the reserved pages
and the heads of the blocks, each once, and counts the pages of the free blocks and all
pages. -/
theorem percent_free_exact {mem : ℕ} {m : Buddy} {T : Set ℕ} (hlo : 2048 ≤ reservedPages mem)
    (hhi : reservedPages mem < ramPages) (hreach : BuddyReached mem m T) :
    ∃ r, getPercentFree m (ramPages + 1) = some r ∧
      r.blocksFree = (pagesOf (freeBlocks m (blocksOf m))).card ∧ r.totalBlocks = 2 ^ 18 ∧
      r.visited.Pairwise (· < ·) ∧
      ∀ q, q ∈ r.visited ↔ q < reservedPages mem ∨ ∃ b ∈ blocksOf m, b.base = q := by
  obtain ⟨⟨L, hr⟩, -⟩ := hreach.flagged hlo hhi
  obtain ⟨htiles, horder⟩ := hr.records_tile hlo hhi
  obtain ⟨visited, hwalk, hsorted, hmem⟩ :=
    walksFrom_start htiles horder (ramPages + 1) 0 0 (Nat.lt_succ_of_le (Nat.sub_le _ _))
  have hfree : freeFrom m (recordBlocks (reservedPages mem) (blocksOf m)) 0 =
      (pagesOf (freeBlocks m (blocksOf m))).card := by
    rw [freeFrom, hr.freeBlocks_records, hr.free_card,
      Finset.filter_true_of_mem fun b _ => Nat.zero_le b.base]
  rw [Nat.zero_add, Nat.zero_add, Nat.sub_zero, hfree] at hwalk
  refine ⟨_, getPercentFree_eq hwalk, ?_, ?_, hsorted, fun q => ?_⟩
  · dsimp only
  · dsimp only
  · rw [hmem, mem_recordBlocks_base]
    exact and_iff_right (Nat.zero_le q)

/-- Two pages are granted behind the start, and the first is freed again. -/
theorem initial_run :
    ∃ m₁ m₂ m₃, buddyAlloc pageSize (initializePageFrameArray (2048 * 4096) blankBuddy) =
        some (pageAddr 260096, m₁) ∧
      buddyAlloc pageSize m₁ = some (pageAddr 260097, m₂) ∧
      buddyFree (pageAddr 260096) m₂ = some m₃ := by
  have hfirst : initialLists (ramPages - 2048) (maxOrder + 1) 2048 (fun _ => []) 11 =
      [260096] := by
    decide
  have hempty : ∀ j < 11,
      initialLists (ramPages - 2048) (maxOrder + 1) 2048 (fun _ => []) j = [] := by
    decide
  obtain ⟨m₁, h₁, hr₁, -⟩ := buddyAlloc_page initial_rep (by decide) hempty hfirst
  have hsecond : grantLists 260096 0 11
      (initialLists (ramPages - 2048) (maxOrder + 1) 2048 fun _ => []) 0 = [260097] := by
    decide
  obtain ⟨m₂, h₂, hr₂, -⟩ := buddyAlloc_page hr₁ (Nat.zero_le _)
    (fun j hj => absurd hj (Nat.not_lt_zero j)) hsecond
  obtain ⟨m₃, h₃⟩ : ∃ m₃, buddyFree (pageAddr 260096) m₂ = some m₃ := by
    have hframe := frameOf_pageAddr (show 260096 < ramPages by decide)
    obtain ⟨-, hkept⟩ | ⟨k, hk, hlive, hrun⟩ := buddyFree_cases hr₂ le_rfl hframe
    · exact ⟨m₂, hkept⟩
    · obtain ⟨m₃, -, -, hput, -⟩ := putBlock_coalesceUp hr₂ le_rfl hk hlive
      exact ⟨m₃, hrun.trans hput⟩
  exact ⟨m₁, m₂, m₃, h₁, h₂, h₃⟩

theorem percent_free_exact_example :
    ∃ m₁ m₂ m₃, buddyAlloc pageSize (initializePageFrameArray (2048 * 4096) blankBuddy) =
        some (pageAddr 260096, m₁) ∧
      buddyAlloc pageSize m₁ = some (pageAddr 260097, m₂) ∧
      buddyFree (pageAddr 260096) m₂ = some m₃ ∧
      ∃ r, getPercentFree m₃ (ramPages + 1) = some r ∧
        r.blocksFree = (pagesOf (freeBlocks m₃ (blocksOf m₃))).card ∧ r.totalBlocks = 2 ^ 18 ∧
        r.visited.Pairwise (· < ·) ∧
        ∀ q, q ∈ r.visited ↔ q < reservedPages (2048 * 4096) ∨ ∃ b ∈ blocksOf m₃, b.base = q := by
  obtain ⟨m₁, m₂, m₃, h₁, h₂, h₃⟩ := initial_run
  have hreach : BuddyReached (2048 * 4096) m₃ _ :=
    .free (.alloc (.alloc (.init blankBuddy) h₁) h₂) h₃
  exact ⟨m₁, m₂, m₃, h₁, h₂, h₃, percent_free_exact (by decide) (by decide) hreach⟩

/-! ## §2  `profile_pid` -/

/-- The messages of `profile_pid` and of the walk of the tables: the leaf entries, by level
and address. -/
inductive ProfileMsg
  | notFound (pid : Word)
  | profiling (ttbr : Word)
  | leaf (level addr : ℕ)
  deriving DecidableEq

/-- The kernel's memory as `profile_pid` reads it: the list nodes by address, the `pid` and
`ttbr` of the pcb at an address, and the words of the tables. -/
structure ProcMem where
  links : Links Word
  pid : Word → BitVec 32
  ttbr : Word → Word
  word : Word → Word

/-- `sizeof(pcb_t)`. -/
def pcbSize : ℕ := 408

/-- `list_entry(node, pcb_t, proclist)`: the field is 32 bytes into a pcb. -/
def pcbOf (node : Word) : Word := node - 32

def proclistOf (proc : Word) : Word := proc + 32

/-- `walk_virtual_memory`, by the number of levels below: 3 less `level`. -/
def walkVirtualMemory (word : Word → Word) : ℕ → Word → List ProfileMsg
  | 0, parentTable =>
      (List.range 512).flatMap fun i =>
        let entry := word (parentTable + BitVec.ofNat 64 (8 * i))
        if Pte.valid.get entry = 0 then [] else [.leaf 3 (Pte.address.get entry * 4096)]
  | below + 1, parentTable =>
      (List.range 512).flatMap fun i =>
        let entry := word (parentTable + BitVec.ofNat 64 (8 * i))
        if Pte.valid.get entry = 0 then []
        else if Pte.type.get entry = 1 then
          walkVirtualMemory word below
            (BitVec.ofNat 64 (paToVa (Pte.address.get entry * 4096)))
        else [.leaf (2 - below) (Pte.address.get entry * 4096)]

/-- The loop of `profile_pid`: the pcb found, if any, and the addresses treated as pcbs. -/
def profileLoop (mem : ProcMem) (proclist pid : Word) : ℕ → Word → Option (Option Word × List Word)
  | 0, _ => none
  | fuel + 1, proc =>
      if (mem.pid proc).setWidth 64 = pid then some (some proc, [proc])
      else
        let proc' := pcbOf (mem.links.next (proclistOf proc))
        if proc' ≠ mem.links.prev proclist then
          (profileLoop mem proclist pid fuel proc').map fun r => (r.1, proc :: r.2)
        else some (none, [proc])

/-- What a call of `profile_pid` does: the pcb that it reports, the addresses it treats as
pcbs, and its messages. -/
structure Profile where
  found : Option Word
  visited : List Word
  messages : List ProfileMsg

/-- The messages of `profile_pid`. An empty list is reported, and the loop is entered all the
same. -/
def profileMessages (mem : ProcMem) (proclist pid : Word) (found : Option Word) :
    List ProfileMsg :=
  (if mem.links.listEmpty proclist then [.notFound pid] else []) ++
    match found with
    | none => [.notFound pid]
    | some proc => .profiling (mem.ttbr proc) :: walkVirtualMemory mem.word 3 (mem.ttbr proc)

def profilePid (mem : ProcMem) (proclist pid : Word) (fuel : ℕ) : Option Profile :=
  (profileLoop mem proclist pid fuel (pcbOf (mem.links.next proclist))).map fun r =>
    ⟨r.1, r.2, profileMessages mem proclist pid r.1⟩

def bytesFrom (a : Word) (n : ℕ) : Set Word := {x | ∃ i < n, x = a + BitVec.ofNat 64 i}

/-- A well-formed `proclist`: a ring whose members are the list nodes of pcbs. The pcbs and
the head are objects of their own. -/
structure ProcList (mem : ProcMem) (proclist : Word) where
  nodes : List Word
  ring : IsRing mem.links proclist nodes
  apart : ∀ a ∈ nodes, ∀ b ∈ nodes, a ≠ b →
    Disjoint (bytesFrom (pcbOf a) pcbSize) (bytesFrom (pcbOf b) pcbSize)
  head_apart : ∀ a ∈ nodes, Disjoint (bytesFrom (pcbOf a) pcbSize) (bytesFrom proclist 16)

def HasPid (mem : ProcMem) (pid node : Word) : Prop :=
  (mem.pid (pcbOf node)).setWidth 64 = pid

/-- A call that reports a pcb of the list with the pid, if and only if there is one, and does
not take the head of the list for a pcb. -/
structure ProfileExact (mem : ProcMem) (proclist pid : Word) (nodes : List Word)
    (r : Profile) : Prop where
  reports_iff : r.found.isSome ↔ ∃ n ∈ nodes, HasPid mem pid n
  reported : ∀ proc, r.found = some proc → ∃ n ∈ nodes, HasPid mem pid n ∧ proc = pcbOf n
  no_head : pcbOf proclist ∉ r.visited

section ProfilePid

variable {mem : ProcMem} {proclist pid : Word} {suf : List Word}

@[simp]
theorem proclistOf_pcbOf (node : Word) : proclistOf (pcbOf node) = node :=
  BitVec.sub_add_cancel node 32

theorem pcbOf_inj {a b : Word} (h : pcbOf a = pcbOf b) : a = b := by
  rw [← proclistOf_pcbOf a, h, proclistOf_pcbOf]

theorem bytesFrom_disjoint {a b x : Word} {n k : ℕ} (h : Disjoint (bytesFrom a n) (bytesFrom b k))
    {i j : ℕ} (hi : i < n) (hj : j < k) (ha : x = a + BitVec.ofNat 64 i) :
    x ≠ b + BitVec.ofNat 64 j := fun hb =>
  Set.disjoint_left.mp h ⟨i, hi, ha⟩ ⟨j, hj, hb⟩

/-- The address of the pcb of a node of the list is not that of a node: both would lie in the
pcb of the second. -/
theorem ProcList.pcbOf_ne (hl : ProcList mem proclist) {a b : Word}
    (ha : a ∈ proclist :: hl.nodes) (hb : b ∈ proclist :: hl.nodes) : pcbOf a ≠ b := by
  intro hab
  have hshift : b = a - 32 := hab.symm
  have hne : a ≠ b := by bv_omega
  have hinb : a = pcbOf b + BitVec.ofNat 64 64 := by
    rw [pcbOf]
    bv_omega
  rcases List.mem_cons.mp ha with rfl | ha <;> rcases List.mem_cons.mp hb with rfl | hb
  · exact hne rfl
  · -- the head would lie in the pcb of `b`
    refine bytesFrom_disjoint (hl.head_apart b hb) (j := 0) (by decide) (by decide) hinb ?_
    bv_omega
  · -- the pcb of `a` would start with the head
    refine bytesFrom_disjoint (hl.head_apart a ha) (i := 0) (j := 0) (x := b) (by decide)
      (by decide) ?_ ?_
    · rw [pcbOf]
      bv_omega
    · bv_omega
  · refine bytesFrom_disjoint (hl.apart b hb a ha hne.symm) (j := 32) (by decide) (by decide)
      hinb ?_
    rw [pcbOf]
    bv_omega

theorem prev_head_mem {l : Links Word} {h : Word} {xs : List Word} (hr : IsRing l h xs) :
    l.prev h ∈ h :: xs := by
  rcases List.eq_nil_or_concat xs with rfl | ⟨ys, y, rfl⟩
  · rw [(isRing_nil.mp hr).2]
    exact List.mem_cons_self
  · have hseg := hr.segment
    rw [List.concat_eq_append, List.append_assoc, ← List.cons_append] at hseg
    have hlast := (segment_join.mp hseg).2
    rw [(segment_pair.mp hlast).2, List.concat_eq_append]
    simp

theorem next_of_segment {l : Links Word} {h x : Word}
    (hseg : Segment l (x :: suf ++ [h])) : l.next x = suf.headD h := by
  cases suf with
  | nil => exact (segment_pair.mp hseg).1
  | cons y suf => exact (List.isChain_cons_cons.mp hseg).1.1

/-- A node without the pid is passed: the end test compares with no pcb of the list. -/
theorem profileLoop_pass (hl : ProcList mem proclist) {x : Word} (hx : ¬ HasPid mem pid x)
    (hnext : mem.links.next x ∈ proclist :: hl.nodes) (fuel : ℕ) :
    profileLoop mem proclist pid (fuel + 1) (pcbOf x) =
      (profileLoop mem proclist pid fuel (pcbOf (mem.links.next x))).map fun r =>
        (r.1, pcbOf x :: r.2) := by
  have hend : pcbOf (mem.links.next x) ≠ mem.links.prev proclist :=
    hl.pcbOf_ne hnext (prev_head_mem hl.ring)
  have hother : ¬ (mem.pid (pcbOf x)).setWidth 64 = pid := hx
  rw [profileLoop, if_neg hother]
  dsimp only
  rw [proclistOf_pcbOf, if_pos hend]

theorem headD_mem {nodes : List Word} (hsub : ∀ x ∈ suf, x ∈ nodes) :
    suf.headD proclist ∈ proclist :: nodes := by
  cases suf with
  | nil => exact List.mem_cons_self
  | cons x suf => exact List.mem_cons_of_mem _ (hsub x List.mem_cons_self)

/-- A walk that does not find the pid, if it ends at all, has taken the head for a pcb. -/
theorem profileLoop_absent (hl : ProcList mem proclist) :
    ∀ {fuel : ℕ} {r : Option Word × List Word}, Segment mem.links (suf ++ [proclist]) →
      (∀ x ∈ suf, x ∈ hl.nodes) → (∀ x ∈ suf, ¬ HasPid mem pid x) →
      profileLoop mem proclist pid fuel (pcbOf (suf.headD proclist)) = some r →
      pcbOf proclist ∈ r.2 := by
  induction suf with
  | nil =>
      intro fuel r _ _ _ hrun
      rw [List.headD_nil] at hrun
      cases fuel with
      | zero => exact absurd hrun (Option.some_ne_none r).symm
      | succ fuel =>
          rw [profileLoop] at hrun
          dsimp only at hrun
          split at hrun
          · rw [← Option.some.inj hrun]
            exact List.mem_cons_self
          split at hrun
          · obtain ⟨r', -, rfl⟩ := Option.map_eq_some_iff.mp hrun
            exact List.mem_cons_self
          · rw [← Option.some.inj hrun]
            exact List.mem_cons_self
  | cons x suf ih =>
      intro fuel r hseg hsub hpid hrun
      have hnext := next_of_segment hseg
      have hsub' : ∀ y ∈ suf, y ∈ hl.nodes := fun y hy => hsub y (List.mem_cons_of_mem _ hy)
      rw [List.headD_cons] at hrun
      cases fuel with
      | zero => exact absurd hrun (Option.some_ne_none r).symm
      | succ fuel =>
          rw [profileLoop_pass hl (hpid x List.mem_cons_self) (hnext ▸ headD_mem hsub'),
            hnext] at hrun
          obtain ⟨r', hrun', rfl⟩ := Option.map_eq_some_iff.mp hrun
          exact List.mem_cons_of_mem _ (ih (List.isChain_of_isChain_cons hseg) hsub'
            (fun y hy => hpid y (List.mem_cons_of_mem _ hy)) hrun')

/-- A walk that comes to the pid reports the pcb there, and has seen pcbs of the list only. -/
theorem profileLoop_present (hl : ProcList mem proclist) :
    Segment mem.links (suf ++ [proclist]) → (∀ x ∈ suf, x ∈ hl.nodes) →
      (∃ x ∈ suf, HasPid mem pid x) →
      ∃ fuel n visited, profileLoop mem proclist pid fuel (pcbOf (suf.headD proclist)) =
          some (some (pcbOf n), visited) ∧ n ∈ suf ∧ HasPid mem pid n ∧
        ∀ p ∈ visited, ∃ x ∈ suf, p = pcbOf x := by
  induction suf with
  | nil =>
      rintro - - ⟨x, hx, -⟩
      exact absurd hx List.not_mem_nil
  | cons x suf ih =>
      intro hseg hsub hpid
      have hnext := next_of_segment hseg
      have hsub' : ∀ y ∈ suf, y ∈ hl.nodes := fun y hy => hsub y (List.mem_cons_of_mem _ hy)
      rw [List.headD_cons]
      by_cases hx : HasPid mem pid x
      · refine ⟨1, x, [pcbOf x], ?_, List.mem_cons_self, hx, fun p hp => ?_⟩
        · have hfound : (mem.pid (pcbOf x)).setWidth 64 = pid := hx
          rw [profileLoop, if_pos hfound]
        · exact ⟨x, List.mem_cons_self, List.mem_singleton.mp hp⟩
      · have hrest : ∃ y ∈ suf, HasPid mem pid y := by
          obtain ⟨y, hy, hyp⟩ := hpid
          rcases List.mem_cons.mp hy with rfl | hy
          · exact absurd hyp hx
          · exact ⟨y, hy, hyp⟩
        obtain ⟨fuel, n, visited, hrun, hn, hnp, hvisited⟩ :=
          ih (List.isChain_of_isChain_cons hseg) hsub' hrest
        refine ⟨fuel + 1, n, pcbOf x :: visited, ?_, List.mem_cons_of_mem _ hn, hnp,
          fun p hp => ?_⟩
        · rw [profileLoop_pass hl hx (hnext ▸ headD_mem hsub'), hnext, hrun]
          rfl
        · rcases List.mem_cons.mp hp with rfl | hp
          · exact ⟨x, List.mem_cons_self, rfl⟩
          · obtain ⟨y, hy, hpy⟩ := hvisited p hp
            exact ⟨y, List.mem_cons_of_mem _ hy, hpy⟩

/-- `profile_pid` ends and is exact if and only if some pcb of the list has the pid. -/
theorem profilePid_exact_iff (hl : ProcList mem proclist) :
    (∃ fuel r, profilePid mem proclist pid fuel = some r ∧
      ProfileExact mem proclist pid hl.nodes r) ↔
    ∃ n ∈ hl.nodes, HasPid mem pid n := by
  have hseg : Segment mem.links (proclist :: hl.nodes ++ [proclist]) := hl.ring.segment
  have hfirst := next_of_segment hseg
  have hrest : Segment mem.links (hl.nodes ++ [proclist]) := List.isChain_of_isChain_cons hseg
  constructor
  · rintro ⟨fuel, r, hrun, hexact⟩
    by_contra hnone
    simp only [not_exists, not_and] at hnone
    rw [profilePid, hfirst] at hrun
    obtain ⟨r', hloop, rfl⟩ := Option.map_eq_some_iff.mp hrun
    exact hexact.no_head (profileLoop_absent hl hrest (fun _ hx => hx) hnone hloop)
  · intro hpid
    obtain ⟨fuel, n, visited, hrun, hn, hnp, hvisited⟩ :=
      profileLoop_present hl hrest (fun _ hx => hx) hpid
    have hprofile : profilePid mem proclist pid fuel = some ⟨some (pcbOf n), visited,
        profileMessages mem proclist pid (some (pcbOf n))⟩ := by
      rw [profilePid, hfirst, hrun, Option.map_some]
    refine ⟨fuel, _, hprofile, iff_of_true rfl hpid, fun proc hproc => ?_, fun hhead => ?_⟩
    · exact ⟨n, hn, hnp, (Option.some.inj hproc).symm⟩
    · obtain ⟨x, hx, heq⟩ := hvisited _ hhead
      exact hl.ring.head_notMem (pcbOf_inj heq ▸ hx)

end ProfilePid

/-- A `proclist` at 0x1000 with one process, with the pid 1 and its pcb at 0x2000. -/
def oneProcMem : ProcMem where
  links := ⟨fun a => if a = 0x1000 then 0x2020 else 0x1000,
    fun a => if a = 0x1000 then 0x2020 else 0x1000⟩
  pid a := if a = 0x2000 then 1 else 0
  ttbr _ := 0
  word _ := 0

def oneProc : ProcList oneProcMem 0x1000 where
  nodes := [0x2020]
  ring := by
    refine ⟨by decide, ?_⟩
    have hthere : Linked oneProcMem.links 0x1000 0x2020 := ⟨rfl, rfl⟩
    have hback : Linked oneProcMem.links 0x2020 0x1000 := ⟨rfl, rfl⟩
    exact List.isChain_cons_cons.mpr ⟨hthere, segment_pair.mpr hback⟩
  apart := by
    intro a ha b hb hne
    rw [List.mem_singleton] at ha hb
    exact absurd (ha.trans hb.symm) hne
  head_apart := by
    intro a ha
    rw [List.mem_singleton] at ha
    subst ha
    rw [Set.disjoint_left]
    rintro x ⟨i, hi, rfl⟩ ⟨j, hj, heq⟩
    have hi' : i < 408 := hi
    rw [pcbOf] at heq
    bv_omega

/-- The pid 2 is looked up there: no walk ends without taking the head for a pcb. -/
theorem profilePid_absent :
    ¬ ∃ fuel r, profilePid oneProcMem 0x1000 2 fuel = some r ∧
      ProfileExact oneProcMem 0x1000 2 [0x2020] r := by
  rintro ⟨fuel, r, hrun, hexact⟩
  have hnone : ∀ x ∈ oneProc.nodes, ¬ HasPid oneProcMem 2 x := by
    intro x hx
    rw [List.mem_singleton.mp hx, HasPid]
    decide
  obtain ⟨r', hloop, rfl⟩ := Option.map_eq_some_iff.mp hrun
  have hhead := profileLoop_absent oneProc (List.isChain_of_isChain_cons oneProc.ring.segment)
    (fun _ hx => hx) hnone hloop
  exact hexact.no_head hhead

end Rpos
