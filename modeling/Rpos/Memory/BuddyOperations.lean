import Rpos.Base.Runs
import Rpos.Memory.BuddyInvariant

/-!
# What the operations of the buddy allocator do

One specification for each of `buddy_alloc`, `buddy_free` and
`initialize_page_frame_array`, over the edits of the invariant. The operations
return in every state that satisfies the invariant, and keep it.
-/

namespace Rpos

open Base

/-! ## §1  The order of a request -/

def IsLeastOrder (bytes k : ℕ) : Prop :=
  bytes ≤ 2 ^ k * pageSize ∧ ∀ j < k, 2 ^ j * pageSize < bytes

theorem requestedOrder_spec (n : ℕ) (hn : n ≤ 2 ^ 31) :
    ∀ fuel j, 31 < fuel + j → (∀ i < j, 2 ^ i < n) →
      ∃ k, requestedOrder n fuel j = some k ∧ n ≤ 2 ^ k ∧
        ∀ i < k, 2 ^ i < n := by
  intro fuel
  -- below order 31 the shift count is the order itself
  have hbound : ∀ j, (∀ i < j, 2 ^ i < n) → j ≤ 31 := by
    intro j hj
    by_contra hlt
    exact absurd (hj 31 (by omega)) (by omega)
  induction fuel with
  | zero =>
      intro j hf hj
      have hle := hbound j hj
      omega
  | succ fuel ih =>
      intro j hf hj
      have hle := hbound j hj
      rw [requestedOrder, Nat.mod_eq_of_lt (by omega : j < 32)]
      by_cases hlt : 2 ^ j < n
      · rw [if_pos hlt]
        refine ih (j + 1) (by omega) ?_
        intro i hi
        rcases Nat.lt_succ_iff_lt_or_eq.mp hi with hi | rfl
        · exact hj i hi
        · exact hlt
      · rw [if_neg hlt]
        exact ⟨j, rfl, Nat.le_of_not_lt hlt, hj⟩

/-- A request of at most 1 GiB has an order, and it is found. -/
theorem requestedOrder_least {bytes : ℕ} (h : bytes ≤ 2 ^ 30) :
    ∃ k ≤ maxOrder, requestedOrder (pagesFor bytes) 256 0 = some k ∧
      IsLeastOrder bytes k := by
  have hpages : pagesFor bytes = (bytes + 4095) / 4096 := by
    simp only [pagesFor, pageSize]
    omega
  obtain ⟨k, hk, hle, hlt⟩ :=
    requestedOrder_spec (pagesFor bytes) (by omega) 256 0 (by omega)
      (fun i hi => absurd hi (Nat.not_lt_zero i))
  rw [hpages] at hle hlt
  refine ⟨k, ?_, hk, ?_, ?_⟩
  · by_contra hgt
    have h18 := hlt 18 (Nat.lt_of_not_le hgt)
    omega
  · simp only [pageSize]
    omega
  · intro j hj
    have hj' := hlt j hj
    simp only [pageSize]
    omega

theorem IsLeastOrder.unique {bytes j k : ℕ} (hj : IsLeastOrder bytes j)
    (hk : IsLeastOrder bytes k) : j = k := by
  rcases Nat.lt_trichotomy j k with h | h | h
  · exact absurd (hk.2 j h) (Nat.not_lt.mpr hj.1)
  · exact h
  · exact absurd (hj.2 k h) (Nat.not_lt.mpr hk.1)

/-! ## §2  Allocation -/

section Alloc

variable {lo hi : ℕ} {m : Buddy} {B : Finset Block} {L : ℕ → List ℕ}
  {p k n : ℕ} {ps : List ℕ}

/-- The blocks after the block of order `k + n` at `p` is split down to `k`. -/
def splitDownBlocks (p k : ℕ) : ℕ → Finset Block → Finset Block
  | 0, B => B
  | n + 1, B => splitDownBlocks p k n (splitBlock p (k + n) B)

def splitDownLists (p k : ℕ) : ℕ → (ℕ → List ℕ) → ℕ → List ℕ
  | 0, L => L
  | n + 1, L => splitDownLists p k n (splitLists p (k + n) L)

/-- The free lists after a block found at order `k + n` is granted. -/
def grantLists (p k n : ℕ) (L : ℕ → List ℕ) : ℕ → List ℕ :=
  Function.update (splitDownLists p k n L) k (splitDownLists p k n L k).tail

theorem splitLists_head (p k : ℕ) (L : ℕ → List ℕ) :
    splitLists p k L k = p :: (p + 2 ^ k) :: L k := by
  simp [splitLists]

theorem splitDownLists_head (hL : L (k + n) = p :: ps) :
    ∃ ps', splitDownLists p k n L k = p :: ps' := by
  induction n generalizing L ps with
  | zero => exact ⟨ps, hL⟩
  | succ n ih => exact ih (splitLists_head p (k + n) L)

theorem splitDown_rep (hr : BuddyRep lo hi m B L) (hkn : k + n ≤ maxOrder)
    (hL : L (k + n) = p :: ps) :
    ∃ m', splitDown k n m = some (.frame p, m') ∧
      BuddyRep lo hi m' (splitDownBlocks p k n B) (splitDownLists p k n L) ∧
      KeepsLive lo m m' B (splitDownBlocks p k n B) := by
  induction n generalizing m B L ps with
  | zero =>
      refine ⟨m, ?_, hr, KeepsLive.refl lo m B⟩
      rw [splitDown, ← hr.next_head hkn hL]
      rfl
  | succ n ih =>
      have hlt : k + n < maxOrder := hkn
      obtain ⟨hr', hlive⟩ := splitBlockAt_rep hr hlt hL
      obtain ⟨m', hrun, hr'', hlive'⟩ :=
        ih hr' (Nat.le_of_lt hlt) (splitLists_head p (k + n) L)
      refine ⟨m', ?_, hr'', hlive.trans hlive'⟩
      rw [splitDown, Nat.add_assoc, hr.next_head hkn hL]
      exact hrun

/-- The block of order `k` at `p` has been granted: it is live with one
reference, and nothing else that was live has changed. -/
structure Granted (lo : ℕ) (m m' : Buddy) (B B' : Finset Block)
    (p k : ℕ) : Prop where
  mem : (⟨p, k⟩ : Block) ∈ B'
  fresh : (⟨p, k⟩ : Block) ∉ liveBlocks m B
  live : liveBlocks m' B' = insert ⟨p, k⟩ (liveBlocks m B)
  state : (m'.frameMetadata p).state = pageBuddy
  refcount : (m'.frameMetadata p).refcount = 1
  records : ∀ b ∈ liveBlocks m B, ∀ q ∈ b.pages,
    m'.frameMetadata q = m.frameMetadata q
  reserved : ∀ q < lo, m'.frameMetadata q = m.frameMetadata q

theorem allocAndReturn_rep (hr : BuddyRep lo hi m B L) (hk : k ≤ maxOrder)
    (hL : L k = p :: ps) :
    allocAndReturn k m = some (pageAddr p, takeBlock k p m) ∧
      BuddyRep lo hi (takeBlock k p m) B (Function.update L k ps) ∧
      Granted lo m (takeBlock k p m) B B p k := by
  obtain ⟨hB, hs⟩ := hr.mem_free_head hk hL
  obtain ⟨hothers, hreserved⟩ := takeBlock_others hr hB
  obtain ⟨hstate, href⟩ := takeBlock_head k p m
  have hfresh : (⟨p, k⟩ : Block) ∉ liveBlocks m B :=
    fun h => (mem_liveBlocks.mp h).2 hs
  refine ⟨?_, takeBlock_rep hr hk hL, hB, hfresh, takeBlock_live hr hB,
    hstate, href, ?_, hreserved⟩
  · rw [allocAndReturn, hr.next_head hk hL]
    rfl
  · intro b hb q hq
    refine hothers b (mem_liveBlocks.mp hb).1 ?_ q hq
    rintro rfl
    exact hfresh hb

theorem Granted.of_keepsLive {m' m'' : Buddy} {B' B'' : Finset Block}
    (h : KeepsLive lo m m' B B') (hg : Granted lo m' m'' B' B'' p k) :
    Granted lo m m'' B B'' p k := by
  refine ⟨hg.mem, h.live ▸ hg.fresh, h.live ▸ hg.live, hg.state, hg.refcount,
    ?_, ?_⟩
  · intro b hb q hq
    rw [hg.records b (h.live.symm ▸ hb) q hq, h.records b hb q hq]
  · intro q hq
    rw [hg.reserved q hq, h.reserved q hq]

/-- What `buddy_alloc` does with a request of order `k`. -/
inductive AllocOutcome (lo hi : ℕ) (m : Buddy) (B : Finset Block)
    (L : ℕ → List ℕ) (k : ℕ) : Option (ℕ × Buddy) → Prop
  /-- No list of order at least `k` has a block. -/
  | refused : (∀ j, k ≤ j → j ≤ maxOrder → L j = []) →
      AllocOutcome lo hi m B L k (some (0, m))
  /-- The first block of the first such list is split down and granted. -/
  | granted (n p : ℕ) (ps : List ℕ) (m' : Buddy) : k + n ≤ maxOrder →
      (∀ j, k ≤ j → j < k + n → L j = []) → L (k + n) = p :: ps →
      BuddyRep lo hi m' (splitDownBlocks p k n B) (grantLists p k n L) →
      Granted lo m m' B (splitDownBlocks p k n B) p k →
      AllocOutcome lo hi m B L k (some (pageAddr p, m'))

theorem findAndSplit_spec (hr : BuddyRep lo hi m B L) :
    ∀ fuel n, k + n + fuel = maxOrder + 1 →
      (∀ j, k ≤ j → j < k + n → L j = []) →
      AllocOutcome lo hi m B L k (findAndSplit k fuel n m) := by
  intro fuel
  induction fuel with
  | zero =>
      intro n hn hempty
      refine .refused ?_
      intro j hj hle
      exact hempty j hj (by omega)
  | succ fuel ih =>
      intro n hn hempty
      have hkn : k + n ≤ maxOrder := by omega
      rw [findAndSplit]
      cases hL : L (k + n) with
      | nil =>
          rw [if_pos ((hr.listEmpty_iff hkn).mpr hL)]
          refine ih (n + 1) (by omega) ?_
          intro j hj hlt
          by_cases he : j = k + n
          · rw [he, hL]
          · exact hempty j hj (by omega)
      | cons p ps =>
          have hne : ¬ m.links.listEmpty (.head (k + n)) = true := by
            rw [hr.listEmpty_iff hkn, hL]
            exact List.cons_ne_nil p ps
          obtain ⟨m', hrun, hr', hlive⟩ := splitDown_rep hr hkn hL
          obtain ⟨ps', hL'⟩ := splitDownLists_head (k := k) hL
          obtain ⟨hret, hr'', hgranted⟩ :=
            allocAndReturn_rep hr' (by omega) hL'
          rw [if_neg hne, hrun]
          show AllocOutcome lo hi m B L k (allocAndReturn k m')
          rw [hret]
          refine .granted n p ps _ hkn hempty hL ?_ (.of_keepsLive hlive hgranted)
          rw [grantLists, hL', List.tail_cons]
          exact hr''

/-- `buddy_alloc` serves a request of order `k` from the first list, from `k`
up, that has a block, and refuses if there is none. -/
theorem buddyAlloc_outcome (hr : BuddyRep lo hi m B L) {bytes : ℕ}
    (horder : requestedOrder (pagesFor bytes) 256 0 = some k)
    (hk : k ≤ maxOrder) : AllocOutcome lo hi m B L k (buddyAlloc bytes m) := by
  have hfind := findAndSplit_spec (k := k) hr (maxOrder - k + 1) 0 (by omega)
    (fun j hj hlt => by omega)
  -- the test of list `k` before the loop is the loop's round for `n = 0`
  have hrun : buddyAlloc bytes m = findAndSplit k (maxOrder - k + 1) 0 m := by
    rw [buddyAlloc, horder]
    show (if maxOrder < k then _ else _) = _
    rw [if_neg (Nat.not_lt.mpr hk), findAndSplit]
    cases m.links.listEmpty (.head (k + 0)) with
    | true => rfl
    | false => rfl
  rw [hrun]
  exact hfind

theorem buddyAlloc_spec (hr : BuddyRep lo hi m B L) {bytes : ℕ}
    (hbytes : bytes ≤ 2 ^ 30) :
    ∃ k ≤ maxOrder, IsLeastOrder bytes k ∧
      AllocOutcome lo hi m B L k (buddyAlloc bytes m) := by
  obtain ⟨k, hk, horder, hleast⟩ := requestedOrder_least hbytes
  exact ⟨k, hk, hleast, buddyAlloc_outcome hr horder hk⟩

/-- A request is served from the first list, from its order up, that has a
block. -/
theorem buddyAlloc_served (hr : BuddyRep lo hi m B L) {bytes : ℕ}
    (horder : requestedOrder (pagesFor bytes) 256 0 = some k)
    (hn : k + n ≤ maxOrder) (hempty : ∀ j, k ≤ j → j < k + n → L j = [])
    (hL : L (k + n) = p :: ps) :
    ∃ m', buddyAlloc bytes m = some (pageAddr p, m') ∧
      BuddyRep lo hi m' (splitDownBlocks p k n B) (grantLists p k n L) ∧
      Granted lo m m' B (splitDownBlocks p k n B) p k := by
  have hout := buddyAlloc_outcome hr horder (by omega)
  generalize buddyAlloc bytes m = r at hout
  cases hout with
  | refused hnone =>
      rw [hnone (k + n) (Nat.le_add_right k n) hn] at hL
      exact absurd hL (List.cons_ne_nil p ps).symm
  | granted n' p' ps' m' hkn hempty' hL' hr' hg =>
      have hsame : n' = n := by
        rcases Nat.lt_trichotomy n' n with hlt | heq | hgt
        · rw [hempty (k + n') (Nat.le_add_right k n') (by omega)] at hL'
          exact absurd hL' (List.cons_ne_nil p' ps').symm
        · exact heq
        · rw [hempty' (k + n) (Nat.le_add_right k n) (by omega)] at hL
          exact absurd hL (List.cons_ne_nil p ps).symm
      subst hsame
      rw [hL, List.cons.injEq] at hL'
      obtain ⟨rfl, -⟩ := hL'
      exact ⟨m', rfl, hr', hg⟩

theorem buddyAlloc_page (hr : BuddyRep lo hi m B L) (hn : n ≤ maxOrder)
    (hempty : ∀ j < n, L j = []) (hL : L n = p :: ps) :
    ∃ m', buddyAlloc pageSize m = some (pageAddr p, m') ∧
      BuddyRep lo hi m' (splitDownBlocks p 0 n B) (grantLists p 0 n L) ∧
      Granted lo m m' B (splitDownBlocks p 0 n B) p 0 := by
  have horder : requestedOrder (pagesFor pageSize) 256 0 = some 0 := by decide
  rw [← Nat.zero_add n] at hn hL
  refine buddyAlloc_served hr horder hn ?_ hL
  intro j _ hlt
  exact hempty j (by omega)

end Alloc

/-! ## §3  Release -/

section Free

variable {lo : ℕ} {m : Buddy} {B : Finset Block} {L : ℕ → List ℕ}
  {addr p k : ℕ}

theorem frameOf_eq (h : frameOf addr = some p) :
    p = vaToPa addr / pageSize ∧ p < ramPages := by
  simp only [frameOf] at h
  split_ifs at h with hlt
  rw [Option.some.injEq] at h
  exact ⟨h.symm, h ▸ hlt⟩

/-- Every address of the managed memory names the frame of its page. -/
theorem frameOf_paToVa {pa : ℕ} (h : pa < 2 ^ 30) :
    frameOf (paToVa pa) = some (pa / pageSize) := by
  rw [frameOf, vaToPa_paToVa h, if_pos]
  simp only [pageSize, ramPages]
  omega

theorem frameOf_pageAddr (h : p < ramPages) :
    frameOf (pageAddr p) = some p := by
  rw [pageAddr, frameOf_paToVa (by simp only [ramPages, pageSize] at *; omega)]
  simp [pageSize]

theorem BuddyRep.head_flag_iff (hr : BuddyRep lo ramPages m B L)
    (hp : p < ramPages) :
    (m.frameMetadata p).flags &&& pageBuddyHead ≠ 0 ↔
      ∃ b ∈ B, b.base = p := by
  constructor
  · intro hflag
    rcases Nat.lt_or_ge p lo with hlt | hge
    · rw [(hr.reserved p hlt).2.1] at hflag
      exact absurd (by decide) hflag
    obtain ⟨b, hb, hpb⟩ := hr.tiles.cover p hge hp
    refine ⟨b, hb, ?_⟩
    by_contra hne
    rcases (hr.described b hb).tail_flags p hpb (Ne.symm hne) with hf | ⟨hf, -⟩
    · rw [hf] at hflag
      exact hflag (by decide)
    · rw [hf] at hflag
      exact hflag (by decide)
  · rintro ⟨b, hb, rfl⟩
    rw [(hr.described b hb).flags]
    decide

structure Released (lo : ℕ) (m m' : Buddy) (B B' : Finset Block)
    (b : Block) : Prop where
  live : liveBlocks m' B' = (liveBlocks m B).erase b
  records : ∀ c ∈ liveBlocks m B, c ≠ b → ∀ q ∈ c.pages,
    m'.frameMetadata q = m.frameMetadata q
  reserved : ∀ q < lo, m'.frameMetadata q = m.frameMetadata q

/-- What `buddy_free` does with the page `p`. -/
inductive FreeOutcome (lo : ℕ) (m : Buddy) (B : Finset Block)
    (L : ℕ → List ℕ) (p : ℕ) : Option Buddy → Prop
  /-- No live block starts at `p`. -/
  | ignored : (∀ b ∈ liveBlocks m B, b.base ≠ p) →
      FreeOutcome lo m B L p (some m)
  | released (b : Block) (m' : Buddy) (B' : Finset Block) (L' : ℕ → List ℕ) :
      b ∈ liveBlocks m B → b.base = p → BuddyRep lo ramPages m' B' L' →
      Released lo m m' B B' b → (Coalesced L → Coalesced L') →
      FreeOutcome lo m B L p (some m')

theorem putBlock_released (hr : BuddyRep lo ramPages m B L)
    (hB : (⟨p, k⟩ : Block) ∈ B) :
    Released lo m (putBlock k p m) B B ⟨p, k⟩ := by
  have hother : ∀ q, q ≠ p →
      (putBlock k p m).frameMetadata q = m.frameMetadata q := by
    intro q hq
    rw [putBlock_frames, if_neg hq]
  refine ⟨putBlock_live hr hB, ?_, ?_⟩
  · intro c hc hne q hq
    refine hother q ?_
    rintro rfl
    exact hne (hr.tiles.apart c (mem_liveBlocks.mp hc).1 _ hB q hq
      (Block.base_mem ⟨q, k⟩))
  · intro q hq
    refine hother q ?_
    have hrange := hr.tiles.base_lt hB
    simp only at hrange
    omega

theorem Released.of_keepsLive {m' m'' : Buddy} {B' B'' : Finset Block}
    {b : Block} (hd : Released lo m m' B B' b)
    (h : KeepsLive lo m' m'' B' B'') : Released lo m m'' B B'' b := by
  refine ⟨h.live.trans hd.live, ?_, ?_⟩
  · intro c hc hne q hq
    have hc' : c ∈ liveBlocks m' B' := by
      rw [hd.live, Finset.mem_erase]
      exact ⟨hne, hc⟩
    rw [h.records c hc' q hq, hd.records c hc hne q hq]
  · intro q hq
    rw [h.reserved q hq, hd.reserved q hq]

/-- `buddy_free` does nothing, or it lists the live block at the page and
coalesces. -/
theorem buddyFree_cases (hr : BuddyRep lo ramPages m B L) (hlo : 2048 ≤ lo)
    (hp : frameOf addr = some p) :
    ((∀ b ∈ liveBlocks m B, b.base ≠ p) ∧ buddyFree addr m = some m) ∨
      ∃ k < maxOrder, (⟨p, k⟩ : Block) ∈ liveBlocks m B ∧
        buddyFree addr m = coalesceUp (maxOrder + 1) p (putBlock k p m) := by
  obtain ⟨-, hlt⟩ := frameOf_eq hp
  have hflag := hr.head_flag_iff hlt
  rw [buddyFree, hp]
  show (_ ∧ (if (m.frameMetadata p).flags &&& pageBuddyHead = 0
    then _ else _) = some m) ∨ ∃ k < maxOrder, _ ∧
      (if (m.frameMetadata p).flags &&& pageBuddyHead = 0 then _ else _) = _
  by_cases hhead : (m.frameMetadata p).flags &&& pageBuddyHead = 0
  · refine Or.inl ⟨?_, if_pos hhead⟩
    intro b hb he
    exact hflag.mpr ⟨b, (mem_liveBlocks.mp hb).1, he⟩ hhead
  rw [if_neg hhead]
  by_cases hs : (m.frameMetadata p).state = pageFree
  · refine Or.inl ⟨?_, if_pos hs⟩
    rintro b hb rfl
    exact (mem_liveBlocks.mp hb).2 hs
  rw [if_neg hs]
  obtain ⟨⟨q, k⟩, hB, hbase⟩ := hflag.mp hhead
  simp only at hbase
  subst hbase
  have hk : k < maxOrder := hr.order_lt hlo hB
  have horder : (m.frameMetadata q).order = k := (hr.described _ hB).order
  refine Or.inr ⟨k, hk, mem_liveBlocks.mpr ⟨hB, hs⟩, ?_⟩
  simp only [horder]
  exact if_pos hk

/-- The release of a live block: it goes on its list and is merged with its
buddy as long as that is free. -/
theorem putBlock_coalesceUp (hr : BuddyRep lo ramPages m B L) (hlo : 2048 ≤ lo)
    (hk : k < maxOrder) (hb : (⟨p, k⟩ : Block) ∈ liveBlocks m B) :
    ∃ m' B' L', coalesceUp (maxOrder + 1) p (putBlock k p m) = some m' ∧
      BuddyRep lo ramPages m' B' L' ∧ Released lo m m' B B' ⟨p, k⟩ ∧
      (Coalesced L → Coalesced L') ∧ Merged B B' := by
  obtain ⟨hB, hs⟩ := mem_liveBlocks.mp hb
  have hr' := putBlock_rep hr (Nat.le_of_lt hk) hB hs
  have hfree : ((putBlock k p m).frameMetadata p).state = pageFree := by
    rw [putBlock_frames, if_pos rfl]
  obtain ⟨m', B', L', hrun, hr'', hlive, hdone, hmerged⟩ :=
    coalesceUp_rep hlo (maxOrder + 1) p k _ _ _ hr' hB hfree (by omega)
  exact ⟨m', B', L', hrun, hr'', (putBlock_released hr hB).of_keepsLive hlive,
    fun hc => hdone (hc.cons p k), hmerged⟩

/-- `buddy_free` releases the live block that starts at the page of its
argument, and ignores every other page. -/
theorem buddyFree_spec (hr : BuddyRep lo ramPages m B L) (hlo : 2048 ≤ lo)
    (hp : frameOf addr = some p) :
    FreeOutcome lo m B L p (buddyFree addr m) := by
  rcases buddyFree_cases hr hlo hp with ⟨hnone, hrun⟩ | ⟨k, hk, hb, hrun⟩
  · rw [hrun]
    exact .ignored hnone
  · obtain ⟨m', B', L', hrun', hr', hd, hdone, -⟩ :=
      putBlock_coalesceUp hr hlo hk hb
    rw [hrun, hrun']
    exact .released ⟨p, k⟩ m' B' L' hb rfl hr' hd hdone

end Free

/-! ## §4  Initialisation -/

section Init

variable {lo hi : ℕ} {m : Buddy} {B : Finset Block} {L : ℕ → List ℕ}

def ClearFrom (hi : ℕ) (m : Buddy) : Prop :=
  ∀ q, hi ≤ q → q < ramPages → m.frameMetadata q = ⟨0, 0, 0, 0⟩

/-- The frames after a free block of order `i` is laid out at `p`. -/
def initialFrames (p i : ℕ) (fr : ℕ → PageFrame) (q : ℕ) : PageFrame :=
  if q = p then
    { fr q with order := i, state := pageFree, flags := pageBuddyHead }
  else if p < q ∧ q < p + 2 ^ i then
    { fr q with order := p, state := pageBuddyTail.setWidth 3 }
  else fr q

theorem addInitialBlock_eq (i p : ℕ) (m : Buddy) :
    addInitialBlock i p m =
      { frameMetadata := initialFrames p i m.frameMetadata
        links := m.links.listAdd (.frame p) (.head i) } := by
  simp only [addInitialBlock, Buddy.forRange_modifyFrame]
  simp only [Buddy.listAdd, Buddy.modifyFrame_links]
  congr 1
  funext q
  simp only [Buddy.modifyFrame_apply, modifyRange, initialFrames]
  grind

theorem addInitialBlock_rep {i : ℕ} (hr : BuddyRep lo hi m B L)
    (hle : lo ≤ hi) (hi' : hi + 2 ^ i ≤ ramPages) (hk : i ≤ maxOrder)
    (hclear : ClearFrom hi m) :
    BuddyRep lo (hi + 2 ^ i) (addInitialBlock i hi m) (insert ⟨hi, i⟩ B)
        (Function.update L i (hi :: L i)) ∧
      ClearFrom (hi + 2 ^ i) (addInitialBlock i hi m) := by
  have hpos := Nat.two_pow_pos i
  have hnew : ∀ k, (⟨hi, k⟩ : Block) ∉ B := by
    intro k hk
    exact absurd (hr.tiles.base_lt hk).2 (Nat.lt_irrefl hi)
  have hunlisted : ∀ j ≤ maxOrder, hi ∉ L j :=
    fun j hj hmem => hnew j ((hr.free j hj hi).mp hmem).1
  have hbelow : ∀ q < hi, initialFrames hi i m.frameMetadata q =
      m.frameMetadata q := by
    intro q hq
    simp only [initialFrames]
    grind
  rw [addInitialBlock_eq]
  refine ⟨⟨hr.tiles.snoc hle, ?_, ?_, rings_listAdd hr.rings hk hunlisted, ?_⟩,
    ?_⟩
  · intro b hb
    rcases Finset.mem_insert.mp hb with rfl | hb
    · have hflags : ∀ q, hi ≤ q → q < hi + 2 ^ i →
          (m.frameMetadata q).flags = 0 := by
        intro q hq hlt
        rw [hclear q hq (by omega)]
      constructor <;> simp only [Block.mem_pages, initialFrames] <;> grind
    · refine (hr.described b hb).congr ?_
      intro q hq
      exact hbelow q (hr.tiles.mem_range hb hq).2
  · intro q hq
    simp only [hbelow q (Nat.lt_of_lt_of_le hq hle)]
    exact hr.reserved q hq
  · intro k hk x
    have hlt : ∀ k, (⟨x, k⟩ : Block) ∈ B → x < hi :=
      fun k hB => (hr.tiles.base_lt hB).2
    have hfree := hr.free k hk x
    simp only [Function.update_apply, Finset.mem_insert, Block.mk.injEq]
    by_cases hx : x < hi
    · simp only [hbelow x hx]
      grind
    · simp only [initialFrames]
      grind
  · intro q hq hlt
    have hzero := hclear q (by omega) hlt
    simp only [initialFrames]
    grind

/-- The blocks laid out for the bits of `available` below `i`, from `p` on. -/
def initialBlocks (available : ℕ) : ℕ → ℕ → Finset Block → Finset Block
  | 0, _, B => B
  | i + 1, p, B =>
      if available.testBit i then
        initialBlocks available i (p + 2 ^ i) (insert ⟨p, i⟩ B)
      else initialBlocks available i p B

def initialLists (available : ℕ) :
    ℕ → ℕ → (ℕ → List ℕ) → ℕ → List ℕ
  | 0, _, L => L
  | i + 1, p, L =>
      if available.testBit i then
        initialLists available i (p + 2 ^ i)
          (Function.update L i (p :: L i))
      else initialLists available i p L

theorem mod_two_pow_succ_testBit (a i : ℕ) :
    a % 2 ^ (i + 1) = (if a.testBit i then 2 ^ i else 0) + a % 2 ^ i := by
  rw [Nat.mod_pow_succ, Nat.testBit_eq_decide_div_mod_eq, Nat.add_comm]
  rcases Nat.mod_two_eq_zero_or_one (a / 2 ^ i) with h | h <;> simp [h]

theorem initializeBuddyAllocator_rep (available : ℕ) :
    ∀ (i hi : ℕ) (m : Buddy) (B : Finset Block) (L : ℕ → List ℕ),
      BuddyRep lo hi m B L → lo ≤ hi → i ≤ maxOrder + 1 →
      hi + available % 2 ^ i = ramPages → ClearFrom hi m →
      BuddyRep lo ramPages (initializeBuddyAllocator available i hi m)
        (initialBlocks available i hi B)
        (initialLists available i hi L) := by
  intro i
  induction i with
  | zero =>
      intro hi m B L hr _ _ hsum _
      rw [pow_zero, Nat.mod_one, Nat.add_zero] at hsum
      subst hsum
      exact hr
  | succ i ih =>
      intro hi m B L hr hle hi' hsum hclear
      rw [mod_two_pow_succ_testBit] at hsum
      rw [initializeBuddyAllocator, initialBlocks, initialLists]
      cases hbit : available.testBit i with
      | true =>
          simp only [hbit, if_true] at hsum ⊢
          obtain ⟨hr', hclear'⟩ :=
            addInitialBlock_rep (i := i) hr hle (by omega) (by omega) hclear
          exact ih _ _ _ _ hr' (by omega) (by omega) (by omega) hclear'
      | false =>
          simp only [hbit, Bool.false_eq_true, if_false, Nat.zero_add]
            at hsum ⊢
          exact ih _ _ _ _ hr hle (by omega) hsum hclear

/-- Before the first block is laid out: empty lists, the low pages reserved. -/
theorem initialFrameArray_rep (reserved : ℕ) (m : Buddy)
    (hle : reserved ≤ ramPages) :
    let lists := forRange 0 (maxOrder + 1) (fun i (m : Buddy) =>
      { m with links := m.links.initListHead (.head i) }) m
    let start := forRange 0 reserved (fun i (m : Buddy) =>
      m.modifyFrame i fun f => { f with state := pageReserved })
      (clearFrames lists)
    BuddyRep reserved reserved start ∅ (fun _ => []) ∧
      ClearFrom reserved start := by
  intro lists start
  have hheads : ∀ i < maxOrder + 1,
      Links.SelfLinked lists.links (.head i) := by
    refine forRange_inv (P := fun j (m : Buddy) => ∀ i < j,
      Links.SelfLinked m.links (.head i)) (Nat.zero_le _) ?_ ?_
    · intro i hi
      omega
    · intro j m' _ _ hm' i hi
      by_cases he : i = j
      · subst he
        exact initListHead_selfLinked _ _
      · refine initListHead_other ?_ (hm' i (by omega))
        simpa using he
  have hstart : start =
      Buddy.mk (modifyRange 0 0 reserved
          (fun _ f => { f with state := pageReserved })
          (clearFrames lists).frameMetadata) (clearFrames lists).links := by
    have h := Buddy.forRange_modifyFrame (clearFrames lists) 0 0 reserved
      (fun _ f => { f with state := pageReserved })
    simp only [Nat.zero_add] at h
    exact h
  rw [hstart]
  refine ⟨⟨Tiles.nil reserved, by simp, ?_, ⟨?_, ?_⟩, by simp⟩, ?_⟩
  · intro q hq
    have hq' : q < ramPages := by omega
    simp only [modifyRange_of_mem (by omega : 0 + 0 ≤ q)
      (by omega : q < 0 + reserved)]
    simp [clearFrames, hq']
  · intro i hi
    refine isRing_nil.mpr ?_
    have hi' := hheads i (Nat.lt_succ_of_le hi)
    exact hi'
  · intro i _ j _ hne a ha
    simp only [Function.comp_apply, List.map_nil, List.mem_singleton] at ha ⊢
    subst ha
    simpa using hne
  · intro q hq hlt
    simp only [modifyRange_of_notMem (by omega : q < 0 + 0 ∨ 0 + reserved ≤ q)]
    simp only [clearFrames, if_pos hlt]

/-- `initialize_page_frame_array` lays out the binary digits of the number of
pages left over, largest first. -/
theorem initializePageFrameArray_rep {mem : ℕ} (m : Buddy)
    (hpos : 0 < reservedPages mem) (hle : reservedPages mem ≤ ramPages) :
    let R := reservedPages mem
    BuddyRep R ramPages (initializePageFrameArray mem m)
      (initialBlocks (ramPages - R) (maxOrder + 1) R ∅)
      (initialLists (ramPages - R) (maxOrder + 1) R fun _ => []) := by
  intro R
  obtain ⟨hr, hclear⟩ := initialFrameArray_rep R m hle
  refine initializeBuddyAllocator_rep _ (maxOrder + 1) R _ ∅ _ hr (le_refl R)
    (le_refl _) ?_ hclear
  simp only [maxOrder, ramPages] at *
  omega

end Init

end Rpos
