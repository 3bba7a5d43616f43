import Rpos.Base.Runs
import Rpos.Filesystem.Disk
import Rpos.Memory.Mem

/-!
# Reading a file

`read` of `filesystem.c` with `read_file_block`, `read_direct` and
`read_single_indirect`. Memory is flat; the file, its inode and the table that
`read_single_indirect` allocates are objects of their own.
-/

namespace Rpos

open Base ByteMem

/-- `file_t`, as far as `read` uses it. -/
structure FileT where
  inode : Inode
  pos : ℕ

/-- What `read` works with: the disk, the address `rootfs.block_buf`, and the
outcome of the `kmalloc` of a table: `none` when it fails, else the words that
lie behind the end of the table. -/
structure Volume where
  disk : Disk
  blockBuf : ℕ
  table : Option (ℕ → BlockNo)

def readFileBlock (v : Volume) (m : ByteMem) (file : FileT) (buf count : ℕ)
    (blockno : BlockNo) : ℕ × ByteMem × FileT :=
  let blockOffset := file.pos % 4096
  let bytesToRead := min count (4096 - blockOffset)
  let file' := { file with pos := file.pos + bytesToRead }
  if blockno = 0 then (bytesToRead, memset m buf 0 bytesToRead, file')
  else
    let m := readBlock v.disk m v.blockBuf blockno
    (bytesToRead, memcpy m buf (v.blockBuf + blockOffset) bytesToRead, file')

/-- The loop of `read_direct`: `n` is `15 - i`. -/
def readDirectLoop (v : Volume) (buf count : ℕ) :
    ℕ → ℕ → ℕ → ByteMem → FileT → ℕ × ByteMem × FileT
  | 0, _, bytesRead, m, file => (bytesRead, m, file)
  | n + 1, i, bytesRead, m, file =>
      let bufAdvanced := buf + bytesRead
      let (r, m, file) :=
        readFileBlock v m file bufAdvanced (count - bytesRead) (file.inode.iBlock i)
      let bytesRead := bytesRead + r
      if bytesRead ≥ count then (bytesRead, m, file)
      else readDirectLoop v buf count n (i + 1) bytesRead m file

def readDirect (v : Volume) (m : ByteMem) (file : FileT) (buf count : ℕ) :
    ℕ × ByteMem × FileT :=
  let blockNo := file.pos / 4096 % 2 ^ 32
  readDirectLoop v buf count (15 - blockNo) blockNo 0 m file

/-- The loop of `read_single_indirect`. Every round reads a byte, so `count`
rounds are enough. -/
def readIndirectLoop (v : Volume) (blocks : ℕ → BlockNo) (buf count : ℕ) :
    ℕ → ℕ → ℕ → BlockNo → ByteMem → FileT → Option (ℕ × ByteMem × FileT)
  | 0, _, _, _, _, _ => none
  | fuel + 1, bytesRead, offset, newBlockno, m, file =>
      if bytesRead < count then
        let bufAdvanced := buf + bytesRead
        let (r, m, file) :=
          readFileBlock v m file bufAdvanced (count - bytesRead) newBlockno
        let bytesRead := bytesRead + r
        let offset := offset + 1
        let newBlockno := blocks offset
        if newBlockno ≥ 128 then some (bytesRead, m, file)
        else readIndirectLoop v blocks buf count fuel bytesRead offset newBlockno m file
      else some (bytesRead, m, file)

/-- The words that `blocks[j]` reads: the table, and what lies behind it. -/
def tableWords (d : Disk) (n : BlockNo) (past : ℕ → BlockNo) (j : ℕ) : BlockNo :=
  if j < 1024 then tableWord d n j else past j

def readSingleIndirect (v : Volume) (m : ByteMem) (file : FileT)
    (buf count offset : ℕ) : Option (ℕ × ByteMem × FileT) :=
  match v.table with
  | none => none
  | some past =>
      let singleIndirectBlockno := file.inode.iBlock 12
      let blocks := tableWords v.disk singleIndirectBlockno past
      readIndirectLoop v blocks buf count (count + 1) 0 offset (blocks offset) m file

/-- `read_double_indirect`: it loads the table and gives up. -/
def readDoubleIndirect (v : Volume) (m : ByteMem) (file : FileT) :
    ℕ × ByteMem × FileT :=
  (0, readBlock v.disk m v.blockBuf (file.inode.iBlock 13), file)

def read (v : Volume) (m : ByteMem) (file : FileT) (buf count : ℕ) :
    Option (ℕ × ByteMem × FileT) :=
  if buf = 0 then some (2 ^ 64 - 1, m, file)
  else
    let entriesPerBlock := 1024
    let entriesPerDoubleIndirect := entriesPerBlock * entriesPerBlock
    let entriesPerTripleIndirect := entriesPerDoubleIndirect * entriesPerBlock
    let blockno := file.pos / 4096 % 2 ^ 32
    if blockno < 12 then some (readDirect v m file buf count)
    else if blockno < 12 + entriesPerBlock then
      readSingleIndirect v m file buf count (blockno - 12)
    else if blockno < 12 + entriesPerBlock + entriesPerDoubleIndirect then
      some (readDoubleIndirect v m file)
    else if blockno <
        12 + entriesPerBlock + entriesPerDoubleIndirect + entriesPerTripleIndirect then
      some (0, m, file)
    else some (2 ^ 64 - 1, m, file)

/-! ## One block -/

def ApartFrom (a n b k : ℕ) : Prop := a + n ≤ b ∨ b + k ≤ a

/-- The destination receives the block's bytes from the file position on,
whether the block is a hole or not. -/
theorem readFileBlock_data {v : Volume} {m : ByteMem} {file : FileT} {buf count : ℕ}
    {blockno : BlockNo}
    (hfwd : blockno ≠ 0 → Forward buf (v.blockBuf + file.pos % 4096)
      (min count (4096 - file.pos % 4096))) :
    ∃ m', readFileBlock v m file buf count blockno
        = (min count (4096 - file.pos % 4096), m',
            { file with pos := file.pos + min count (4096 - file.pos % 4096) }) ∧
      ∀ j, j < min count (4096 - file.pos % 4096) →
        m' (buf + j) = blockData v.disk blockno (file.pos % 4096 + j) := by
  unfold readFileBlock blockData
  by_cases hz : blockno = 0
  · refine ⟨_, if_pos hz, fun j hj => ?_⟩
    rw [if_pos hz, memset_eq, fill, store_apply _ _ (by omega)]
    rfl
  · refine ⟨_, if_neg hz, fun j hj => ?_⟩
    rw [if_neg hz, memcpy_eq (by omega) (hfwd hz), readBlock_eq, move, store_apply _ _ hj,
      Nat.add_assoc, store_apply _ _ (by omega)]

/-- Nothing changes outside the destination, up to the 16 bytes of a vector,
and the scratch block, which a hole does not use. -/
theorem readFileBlock_frame {v : Volume} {m m' : ByteMem} {file file' : FileT}
    {buf count r : ℕ} {blockno : BlockNo}
    (hfwd : blockno ≠ 0 → Forward buf (v.blockBuf + file.pos % 4096)
      (min count (4096 - file.pos % 4096)))
    (hrun : readFileBlock v m file buf count blockno = (r, m', file')) {a : ℕ}
    (ha : a < buf ∨ buf + max 16 count ≤ a)
    (hscratch : blockno ≠ 0 → a < v.blockBuf ∨ v.blockBuf + 4096 ≤ a) : m' a = m a := by
  unfold readFileBlock at hrun
  by_cases hz : blockno = 0
  · rw [if_pos hz, Prod.mk.injEq, Prod.mk.injEq] at hrun
    rw [← hrun.2.1, memset_eq, fill, store_other _ _ (by omega)]
  · rw [if_neg hz, Prod.mk.injEq, Prod.mk.injEq] at hrun
    rw [← hrun.2.1, memcpy_eq (by omega) (hfwd hz), readBlock_eq, move,
      store_other _ _ (by omega), store_other _ _ (hscratch hz)]

/-! ## The loops -/

/-- What the loops have done after `b` bytes, when they take `num k` for the
number of file block `k`. -/
structure Delivered (v : Volume) (num : ℕ → BlockNo) (file₀ : FileT) (buf b : ℕ)
    (m : ByteMem) (file : FileT) : Prop where
  bytes : ∀ j, j < b → m (buf + j)
    = blockData v.disk (num ((file₀.pos + j) / 4096)) ((file₀.pos + j) % 4096)
  file_eq : file = { file₀ with pos := file₀.pos + b }

theorem Delivered.nothing (v : Volume) (num : ℕ → BlockNo) (file : FileT) (buf : ℕ)
    (m : ByteMem) : Delivered v num file buf 0 m file :=
  ⟨fun j hj => absurd hj (Nat.not_lt_zero j), rfl⟩

/-- Loading block `blockno` after `b` bytes does not hurt the destination: the
block is a hole, or the destination is apart from the scratch block, or it is
the scratch block and still empty. -/
def Undisturbed (v : Volume) (buf count b : ℕ) (blockno : BlockNo) : Prop :=
  blockno ≠ 0 → ApartFrom buf count v.blockBuf 4096 ∨ buf = v.blockBuf ∧ b = 0

theorem ApartFrom.undisturbed {v : Volume} {buf count : ℕ}
    (h : ApartFrom buf count v.blockBuf 4096) (b : ℕ) (blockno : BlockNo) :
    Undisturbed v buf count b blockno :=
  fun _ => Or.inl h

theorem Delivered.step {v : Volume} {num : ℕ → BlockNo} {file₀ file : FileT}
    {buf count b : ℕ} {m : ByteMem} (h : Delivered v num file₀ buf b m file)
    (hb : b < count)
    (hsafe : Undisturbed v buf count b (num ((file₀.pos + b) / 4096))) :
    ∃ m' file', readFileBlock v m file (buf + b) (count - b)
        (num ((file₀.pos + b) / 4096))
          = (min (count - b) (4096 - (file₀.pos + b) % 4096), m', file') ∧
      Delivered v num file₀ buf
        (b + min (count - b) (4096 - (file₀.pos + b) % 4096)) m' file' ∧
      ∀ a, a < buf ∨ buf + (b + max 16 (count - b)) ≤ a →
        a < v.blockBuf ∨ v.blockBuf + 4096 ≤ a → m' a = m a := by
  have hpos : file.pos = file₀.pos + b := by rw [h.file_eq]
  have hfwd : num ((file₀.pos + b) / 4096) ≠ 0 →
      Forward (buf + b) (v.blockBuf + file.pos % 4096)
        (min (count - b) (4096 - file.pos % 4096)) := by
    intro hz
    unfold Forward
    rcases hsafe hz with hapart | ⟨heq, hb0⟩
    · unfold ApartFrom at hapart
      omega
    · omega
  obtain ⟨m', hrun, hdata⟩ := readFileBlock_data (m := m) hfwd
  have hframe := fun a => readFileBlock_frame hfwd hrun (a := a)
  rw [hpos] at hrun hdata
  refine ⟨m', _, hrun, ⟨fun j hj => ?_, ?_⟩, fun a ha hs => ?_⟩
  · by_cases hjb : j < b
    · rw [hframe (buf + j) (by omega) ?_]
      · exact h.bytes j hjb
      · intro hz
        rcases hsafe hz with hapart | ⟨heq, hb0⟩
        · unfold ApartFrom at hapart
          omega
        · omega
    · have hj' := hdata (j - b) (by omega)
      rw [show buf + b + (j - b) = buf + j by omega] at hj'
      rw [hj', show (file₀.pos + j) / 4096 = (file₀.pos + b) / 4096 by omega,
        show (file₀.pos + b) % 4096 + (j - b) = (file₀.pos + j) % 4096 by omega]
  · rw [h.file_eq]
    simp only [FileT.mk.injEq, true_and]
    omega
  · exact hframe a (by omega) fun _ => hs

/-- The direct loop, from the start of the read or a block boundary on. It
touches at most `e` bytes from the destination on. -/
theorem readDirectLoop_spec {v : Volume} {file₀ : FileT} {buf count e : ℕ}
    (he : ∀ b, b < count → b = 0 ∨ (file₀.pos + b) % 4096 = 0 →
      b + max 16 (count - b) ≤ e)
    (hsafe : ∀ b, b < count → b = 0 ∨ (file₀.pos + b) % 4096 = 0 →
      Undisturbed v buf count b (file₀.inode.iBlock ((file₀.pos + b) / 4096))) (n : ℕ) :
    ∀ (b : ℕ) (m : ByteMem) (file : FileT), b < count →
      b = 0 ∨ (file₀.pos + b) % 4096 = 0 →
      n = 15 - (file₀.pos + b) / 4096 → (file₀.pos + b) / 4096 < 15 →
      Delivered v file₀.inode.iBlock file₀ buf b m file →
      ∃ r m' file', readDirectLoop v buf count n ((file₀.pos + b) / 4096) b m file
          = (r, m', file') ∧ r = min count (15 * 4096 - file₀.pos) ∧
        Delivered v file₀.inode.iBlock file₀ buf r m' file' ∧
        ∀ a, a < buf ∨ buf + e ≤ a →
          a < v.blockBuf ∨ v.blockBuf + 4096 ≤ a → m' a = m a := by
  induction n with
  | zero =>
      intro b m file _ _ hn hlt
      omega
  | succ n ih =>
      intro b m file hb hstart hn hlt h
      obtain ⟨m', file', hrun, hdel, hframe₀⟩ := h.step hb (hsafe b hb hstart)
      have hframe : ∀ a, a < buf ∨ buf + e ≤ a →
          a < v.blockBuf ∨ v.blockBuf + 4096 ≤ a → m' a = m a := by
        intro a ha hs
        have := he b hb hstart
        exact hframe₀ a (by omega) hs
      have hinode : file.inode = file₀.inode := by rw [h.file_eq]
      rw [readDirectLoop, hinode, hrun]
      set r := min (count - b) (4096 - (file₀.pos + b) % 4096) with hr
      by_cases hdone : b + r ≥ count
      · refine ⟨b + r, m', file', if_pos hdone, ?_, hdel, hframe⟩
        omega
      · have hnext : (file₀.pos + (b + r)) / 4096 = (file₀.pos + b) / 4096 + 1 := by omega
        cases n with
        | zero =>
            refine ⟨b + r, m', file', ?_, by omega, hdel, hframe⟩
            simp only [if_neg hdone]
            rfl
        | succ n =>
            obtain ⟨r', m'', file'', hrun', hr', hdel', hframe'⟩ :=
              ih (b + r) m' file' (by omega) (by omega) (by omega) (by omega) hdel
            refine ⟨r', m'', file'', ?_, hr', hdel', fun a ha hs => ?_⟩
            · simp only [if_neg hdone]
              rw [← hnext]
              exact hrun'
            · rw [hframe' a ha hs, hframe a ha hs]

/-- From round to round: as long as no block number from 128 on is met, the
file's blocks are read in order. -/
theorem readIndirectLoop_spec {v : Volume} (num : ℕ → BlockNo) {file₀ : FileT}
    {buf count : ℕ} (hapart : ApartFrom buf count v.blockBuf 4096) (fuel : ℕ) :
    ∀ (b k : ℕ) (m : ByteMem) (file : FileT), count - b < fuel → b ≤ count →
      k = (file₀.pos + b) / 4096 → 12 ≤ k →
      Delivered v num file₀ buf b m file →
      (∀ j, file₀.pos / 4096 < j → j ≤ k → num j < 128) →
      ∃ r m' file', readIndirectLoop v (fun j => num (j + 12)) buf count fuel b (k - 12)
          (num k) m file = some (r, m', file') ∧
        b ≤ r ∧ r ≤ count ∧ (b < count → b < r) ∧
        Delivered v num file₀ buf r m' file' ∧
        ∀ p, file₀.pos ≤ p → p < file₀.pos + count →
          (p < file₀.pos + r ↔
            ∀ j, file₀.pos / 4096 < j → j ≤ p / 4096 → num j < 128) := by
  induction fuel with
  | zero =>
      intro b k m file hfuel
      omega
  | succ fuel ih =>
      intro b k m file hfuel hb hk hk12 h hreach
      rw [readIndirectLoop]
      by_cases hlt : b < count
      · rw [if_pos hlt]
        obtain ⟨m', file', hrun, hdel, -⟩ := h.step hlt (hapart.undisturbed _ _)
        rw [← hk] at hrun
        simp only [hrun]
        set r := min (count - b) (4096 - (file₀.pos + b) % 4096) with hr
        have hoff : k - 12 + 1 = k + 1 - 12 := by omega
        have hnum : num (k - 12 + 1 + 12) = num (k + 1) := by
          congr 1
          omega
        simp only [hnum]
        by_cases hstop : num (k + 1) ≥ 128
        · refine ⟨b + r, m', file', if_pos hstop, by omega, by omega, by omega, hdel, ?_⟩
          intro p hp hpc
          constructor
          · exact fun hlow j hj hjp => hreach j hj (by omega)
          · intro hall
            by_contra hhigh
            have := hall (k + 1) (by omega) (by omega)
            exact absurd this (BitVec.not_lt.mpr hstop)
        · rw [if_neg hstop, hoff]
          have hreach' : ∀ j, file₀.pos / 4096 < j → j ≤ k + 1 → num j < 128 := by
            intro j hj hjk
            by_cases hjk' : j ≤ k
            · exact hreach j hj hjk'
            · rw [show j = k + 1 by omega]
              exact BitVec.not_le.mp hstop
          by_cases hdone : b + r < count
          · obtain ⟨r', m'', file'', hrun', hle, hle', hprog, hdel', hiff⟩ :=
              ih (b + r) (k + 1) m' file' (by omega) (by omega) (by omega) (by omega)
                hdel hreach'
            exact ⟨r', m'', file'', hrun', by omega, hle', by omega, hdel', hiff⟩
          · -- the loop test fails in the next round
            cases fuel with
            | zero => omega
            | succ fuel =>
                refine ⟨b + r, m', file', ?_, by omega, by omega, by omega, hdel, ?_⟩
                · rw [readIndirectLoop, if_neg hdone]
                · intro p hp hpc
                  exact iff_of_true (by omega) fun j hj hjp => hreach j hj (by omega)
      · rw [if_neg hlt]
        refine ⟨b, m, file, rfl, le_refl b, hb, fun hc => absurd hc hlt, h, ?_⟩
        intro p hp hpc
        exact iff_of_true (by omega) fun j hj hjp => hreach j hj (by omega)

/-! ## The block numbers that `read` uses -/

/-- The number that `read` takes for block `k` of the file, when the position
lies in block `start`. -/
def usedBlock (d : Disk) (inode : Inode) (past : ℕ → BlockNo) (start k : ℕ) : BlockNo :=
  if start < 12 then inode.iBlock k
  else tableWords d (inode.iBlock 12) past (k - 12)

/-- `read` comes to block `k` if the count goes that far: the direct loop runs
over the whole array, the indirect loop stops at a number from 128 on. -/
def Reached (d : Disk) (inode : Inode) (past : ℕ → BlockNo) (start k : ℕ) : Prop :=
  if start < 12 then k < 15
  else ∀ j, start < j → j ≤ k → usedBlock d inode past start j < 128

/-- `read` does not take the number of block `k` from the block map: it takes
an index block for a data block, or a hole for a table, or reads past the
table. -/
def Misnumbered (inode : Inode) (start k : ℕ) : Prop :=
  if start < 12 then 12 ≤ k else inode.iBlock 12 = 0 ∨ 12 + 1024 ≤ k

theorem usedBlock_eq_blockOf (d : Disk) (inode : Inode) (past : ℕ → BlockNo)
    {start k : ℕ} (hk : start ≤ k) (h : ¬ Misnumbered inode start k) :
    usedBlock d inode past start k = blockOf d inode k := by
  unfold Misnumbered at h
  unfold usedBlock blockOf
  by_cases hs : start < 12
  · rw [if_pos hs] at h ⊢
    rw [if_pos (by omega)]
  · rw [if_neg hs] at h ⊢
    rw [not_or] at h
    rw [if_neg (by omega), if_pos (by omega), tableWords, if_pos (by omega), tableEntry,
      if_neg h.1]

/-- What `read` does from the first 12 + 1024 blocks, in terms of the block
numbers it uses. -/
theorem read_spec {v : Volume} {m : ByteMem} {file : FileT} {buf count : ℕ}
    {past : ℕ → BlockNo}
    (htable : 12 ≤ file.pos / 4096 → v.table = some past) (hbuf : buf ≠ 0)
    (hcount : 0 < count) (hpos : file.pos < (12 + 1024) * 4096)
    (hapart : ApartFrom buf count v.blockBuf 4096) :
    ∃ r m' file', read v m file buf count = some (r, m', file') ∧ 1 ≤ r ∧ r ≤ count ∧
      Delivered v (usedBlock v.disk file.inode past (file.pos / 4096)) file buf r m' file' ∧
      ∀ p, file.pos ≤ p → p < file.pos + count →
        (p < file.pos + r ↔
          Reached v.disk file.inode past (file.pos / 4096) (p / 4096)) := by
  have hblock : file.pos / 4096 % 2 ^ 32 = file.pos / 4096 :=
    Nat.mod_eq_of_lt (by omega)
  unfold read
  simp only [if_neg hbuf, hblock]
  by_cases hs : file.pos / 4096 < 12
  · rw [if_pos hs]
    have hnum : usedBlock v.disk file.inode past (file.pos / 4096) = file.inode.iBlock := by
      funext k
      exact if_pos hs
    obtain ⟨r, m', file', hrun, hr, hdel, -⟩ := readDirectLoop_spec (v := v)
      (e := count + 16) (fun _ _ _ => by omega) (fun _ _ _ => hapart.undisturbed _ _)
      (15 - file.pos / 4096) 0 m file hcount
      (Or.inl rfl) (by simp) (by simp; omega) (Delivered.nothing v _ file buf m)
    simp only [Nat.add_zero] at hrun
    refine ⟨r, m', file', ?_, by omega, by omega, hnum ▸ hdel, ?_⟩
    · rw [readDirect, hblock, hrun]
    · intro p hp hpc
      rw [Reached, if_pos hs]
      omega
  · rw [if_neg hs, if_pos (by omega), readSingleIndirect, htable (by omega)]
    have hnum : ∀ j, usedBlock v.disk file.inode past (file.pos / 4096) (j + 12)
        = tableWords v.disk (file.inode.iBlock 12) past j := by
      intro j
      rw [usedBlock, if_neg hs]
      rfl
    obtain ⟨r, m', file', hrun, -, hle, hprog, hdel, hiff⟩ := readIndirectLoop_spec
      (usedBlock v.disk file.inode past (file.pos / 4096)) hapart (count + 1)
      0 (file.pos / 4096) m file (by omega) (by omega) (by simp) (by omega)
      (Delivered.nothing v _ file buf m) (fun j hj hjk => by omega)
    have hfirst : usedBlock v.disk file.inode past (file.pos / 4096) (file.pos / 4096)
        = tableWords v.disk (file.inode.iBlock 12) past (file.pos / 4096 - 12) := by
      rw [usedBlock, if_neg hs]
    simp only [hnum, hfirst] at hrun
    refine ⟨r, m', file', hrun, hprog hcount, hle, hdel, fun p hp hpc => ?_⟩
    rw [hiff p hp hpc, Reached, if_neg hs]

/-! ## What a read stores to -/

/-- The destination, up to the 16 bytes of a vector behind it, and the scratch block. -/
def readTouches (v : Volume) (buf count : ℕ) : Set ℕ :=
  Set.Ico buf (buf + (count + 16)) ∪ Set.Ico v.blockBuf (v.blockBuf + 4096)

theorem readFileBlock_changesOnly (v : Volume) (m : ByteMem) (file : FileT) (buf : ℕ)
    {count b : ℕ} (hb : b ≤ count) (blockno : BlockNo) :
    ChangesOnly (readTouches v buf count) m
      (readFileBlock v m file (buf + b) (count - b) blockno).2.1 := by
  unfold readFileBlock
  by_cases hz : blockno = 0
  · rw [if_pos hz]
    refine (memset_changesOnly m (buf + b) 0 _).mono (Set.subset_union_of_subset_left ?_ _)
    exact Set.Ico_subset_Ico (by omega) (by omega)
  · rw [if_neg hz]
    dsimp only
    rw [readBlock_eq]
    refine ((store_changesOnly 4096 (blockByte v.disk blockno)).mono
      Set.subset_union_right).trans ?_
    refine (memcpy_changesOnly _ (buf + b) _ _).mono (Set.subset_union_of_subset_left ?_ _)
    exact Set.Ico_subset_Ico (by omega) (by omega)

/-- A round reads at most what is asked for, and something if anything is asked for. -/
theorem readFileBlock_count (v : Volume) (m : ByteMem) (file : FileT) (buf count : ℕ)
    (blockno : BlockNo) :
    (readFileBlock v m file buf count blockno).1 = min count (4096 - file.pos % 4096) ∧
      (readFileBlock v m file buf count blockno).2.2.inode = file.inode := by
  unfold readFileBlock
  by_cases hz : blockno = 0
  · rw [if_pos hz]
    exact ⟨rfl, rfl⟩
  · rw [if_neg hz]
    exact ⟨rfl, rfl⟩

theorem readDirectLoop_changesOnly (v : Volume) (buf count n : ℕ) :
    ∀ (i b : ℕ) (m : ByteMem) (file : FileT), b ≤ count →
      (readDirectLoop v buf count n i b m file).2.2.inode = file.inode ∧
        ChangesOnly (readTouches v buf count) m
          (readDirectLoop v buf count n i b m file).2.1 := by
  induction n with
  | zero => exact fun _ _ m file _ => ⟨rfl, ChangesOnly.refl _ _⟩
  | succ n ih =>
      intro i b m file hb
      obtain ⟨hcount, hinode⟩ :=
        readFileBlock_count v m file (buf + b) (count - b) (file.inode.iBlock i)
      have hround := readFileBlock_changesOnly v m file buf hb (file.inode.iBlock i)
      obtain ⟨⟨r, m', file'⟩, hrun⟩ :
          ∃ s, readFileBlock v m file (buf + b) (count - b) (file.inode.iBlock i) = s :=
        ⟨_, rfl⟩
      rw [hrun] at hcount hinode hround
      dsimp only at hcount hinode hround
      rw [readDirectLoop, hrun]
      dsimp only
      by_cases hdone : b + r ≥ count
      · rw [if_pos hdone]
        exact ⟨hinode, hround⟩
      · rw [if_neg hdone]
        obtain ⟨hrest, hmem⟩ := ih (i + 1) (b + r) m' file' (by omega)
        exact ⟨hrest.trans hinode, hround.trans hmem⟩

theorem readIndirectLoop_changesOnly (v : Volume) (blocks : ℕ → BlockNo) (buf count fuel : ℕ) :
    ∀ (b offset : ℕ) (newBlockno : BlockNo) (m : ByteMem) (file : FileT), b ≤ count →
      count - b < fuel →
      ∃ s, readIndirectLoop v blocks buf count fuel b offset newBlockno m file = some s ∧
        s.2.2.inode = file.inode ∧ ChangesOnly (readTouches v buf count) m s.2.1 := by
  induction fuel with
  | zero => exact fun _ _ _ _ _ _ hfuel => absurd hfuel (Nat.not_lt_zero _)
  | succ fuel ih =>
      intro b offset newBlockno m file hb hfuel
      rw [readIndirectLoop]
      by_cases hlt : b < count
      swap
      · exact ⟨_, if_neg hlt, rfl, ChangesOnly.refl _ _⟩
      obtain ⟨hcount, hinode⟩ :=
        readFileBlock_count v m file (buf + b) (count - b) newBlockno
      have hround := readFileBlock_changesOnly v m file buf hb newBlockno
      obtain ⟨⟨r, m', file'⟩, hread⟩ :
          ∃ s, readFileBlock v m file (buf + b) (count - b) newBlockno = s := ⟨_, rfl⟩
      rw [hread] at hcount hinode hround
      dsimp only at hcount hinode hround
      simp only [if_pos hlt, hread]
      by_cases hstop : blocks (offset + 1) ≥ 128
      · exact ⟨_, if_pos hstop, hinode, hround⟩
      · rw [if_neg hstop]
        obtain ⟨s, hrun, hrest, hmem⟩ := ih (b + r) (offset + 1) (blocks (offset + 1)) m' file'
          (by omega) (by omega)
        exact ⟨s, hrun, hrest.trans hinode, hround.trans hmem⟩

/-- A read that gets its table returns, and stores to its destination and the scratch
block only. -/
theorem read_changesOnly {v : Volume} (htable : v.table ≠ none) (m : ByteMem) (file : FileT)
    (buf count : ℕ) :
    ∃ s, read v m file buf count = some s ∧ s.2.2.inode = file.inode ∧
      ChangesOnly (readTouches v buf count) m s.2.1 := by
  obtain ⟨past, hpast⟩ := Option.ne_none_iff_exists'.mp htable
  unfold read
  by_cases hbuf : buf = 0
  · exact ⟨_, if_pos hbuf, rfl, ChangesOnly.refl _ _⟩
  rw [if_neg hbuf]
  dsimp only
  split
  · exact ⟨_, rfl, readDirectLoop_changesOnly v buf count _ _ 0 m file (Nat.zero_le _)⟩
  split
  · rw [readSingleIndirect, hpast]
    exact readIndirectLoop_changesOnly v _ buf count _ 0 _ _ m file (Nat.zero_le _) (by omega)
  split
  · refine ⟨_, rfl, rfl, ?_⟩
    rw [readDoubleIndirect, readBlock_eq]
    exact (store_changesOnly 4096 _).mono Set.subset_union_right
  split
  · exact ⟨_, rfl, rfl, ChangesOnly.refl _ _⟩
  · exact ⟨_, rfl, rfl, ChangesOnly.refl _ _⟩

/-! ## The contract of `read` -/

/-- `read` returns between 1 and `count` bytes of the file and advances the
position past them. -/
def ReadsFile (v : Volume) (m : ByteMem) (file : FileT) (buf count : ℕ) : Prop :=
  ∃ r m' file', read v m file buf count = some (r, m', file') ∧ 1 ≤ r ∧ r ≤ count ∧
    (∀ j, j < r → m' (buf + j) = fileByte v.disk file.inode (file.pos + j)) ∧
    file' = { file with pos := file.pos + r }

/-- When the read goes right. A read that starts past the direct blocks gets
its table, and a block for which the code takes a wrong number holds the same
bytes as the right one wherever the read comes to it. -/
def ReadOk (v : Volume) (file : FileT) (count : ℕ) : Prop :=
  if file.pos / 4096 < 12 then
    ∀ p, file.pos ≤ p → p < file.pos + count → 12 ≤ p / 4096 → p / 4096 < 15 →
      blockData v.disk (file.inode.iBlock (p / 4096)) (p % 4096)
        = fileByte v.disk file.inode p
  else
    ∃ past, v.table = some past ∧
      ∀ p, file.pos ≤ p → p < file.pos + count →
        Reached v.disk file.inode past (file.pos / 4096) (p / 4096) →
        file.inode.iBlock 12 = 0 ∨ 12 + 1024 ≤ p / 4096 →
        blockData v.disk (tableWords v.disk (file.inode.iBlock 12) past (p / 4096 - 12))
          (p % 4096) = fileByte v.disk file.inode p

theorem readOk_iff (v : Volume) (file : FileT) (count : ℕ) :
    ReadOk v file count ↔
      ∃ past, (12 ≤ file.pos / 4096 → v.table = some past) ∧
        ∀ p, file.pos ≤ p → p < file.pos + count →
          Reached v.disk file.inode past (file.pos / 4096) (p / 4096) →
          Misnumbered file.inode (file.pos / 4096) (p / 4096) →
          blockData v.disk (usedBlock v.disk file.inode past (file.pos / 4096) (p / 4096))
            (p % 4096) = fileByte v.disk file.inode p := by
  unfold ReadOk Reached Misnumbered usedBlock
  by_cases hs : file.pos / 4096 < 12
  · simp only [if_pos hs]
    constructor
    · exact fun h => ⟨fun _ => 0, fun hge => absurd hs (by omega),
        fun p hp hpc hr hm => h p hp hpc hm hr⟩
    · rintro ⟨_, -, h⟩
      exact fun p hp hpc hm hr => h p hp hpc hr hm
  · simp only [if_neg hs]
    constructor
    · rintro ⟨past, htable, h⟩
      exact ⟨past, fun _ => htable, h⟩
    · rintro ⟨past, htable, h⟩
      exact ⟨past, htable (by omega), h⟩

/-- A read from the first 12 + 1024 blocks into a buffer apart from the scratch
block does what `read` promises exactly when `ReadOk` holds. -/
theorem readsFile_iff {v : Volume} {m : ByteMem} {file : FileT} {buf count : ℕ}
    (hbuf : buf ≠ 0) (hcount : 0 < count) (hpos : file.pos < (12 + 1024) * 4096)
    (hapart : ApartFrom buf count v.blockBuf 4096) :
    ReadsFile v m file buf count ↔ ReadOk v file count := by
  rw [readOk_iff]
  constructor
  · rintro ⟨r, m', file', hrun, h1, hle, hbytes, hfile⟩
    have htable : ∃ past, 12 ≤ file.pos / 4096 → v.table = some past := by
      cases ht : v.table with
      | some past => exact ⟨past, fun _ => rfl⟩
      | none =>
          refine ⟨fun _ => 0, fun hge => ?_⟩
          have hblock : file.pos / 4096 % 2 ^ 32 = file.pos / 4096 :=
            Nat.mod_eq_of_lt (by omega)
          rw [read] at hrun
          simp only [if_neg hbuf, hblock] at hrun
          rw [if_neg (by omega), if_pos (by omega), readSingleIndirect, ht] at hrun
          simp at hrun
    obtain ⟨past, htable⟩ := htable
    obtain ⟨r₂, m₂, file₂, hrun₂, -, -, hdel, hiff⟩ :=
      read_spec (m := m) htable hbuf hcount hpos hapart
    rw [hrun, Option.some.injEq, Prod.mk.injEq, Prod.mk.injEq] at hrun₂
    obtain ⟨rfl, rfl, rfl⟩ := hrun₂
    refine ⟨past, htable, fun p hp hpc hr _ => ?_⟩
    have hpr := (hiff p hp hpc).mpr hr
    have hcode := hdel.bytes (p - file.pos) (by omega)
    have hspec := hbytes (p - file.pos) (by omega)
    rw [show file.pos + (p - file.pos) = p by omega] at hcode hspec
    rw [← hcode, hspec]
  · rintro ⟨past, htable, hok⟩
    obtain ⟨r, m', file', hrun, h1, hle, hdel, hiff⟩ :=
      read_spec (m := m) htable hbuf hcount hpos hapart
    refine ⟨r, m', file', hrun, h1, hle, fun j hj => ?_, hdel.file_eq⟩
    have hr := (hiff (file.pos + j) (by omega) (by omega)).mp (by omega)
    rw [hdel.bytes j hj]
    by_cases hm : Misnumbered file.inode (file.pos / 4096) ((file.pos + j) / 4096)
    · exact hok (file.pos + j) (by omega) (by omega) hr hm
    · rw [usedBlock_eq_blockOf _ _ _ (by omega) hm]
      rfl

/-! ## Successive reads -/

structure ReadCall where
  buf : ℕ
  count : ℕ
  table : Option (ℕ → BlockNo)

/-- One read of an open file. The result is what it put into the buffer. -/
def readStep (v : Volume) (s : ByteMem × FileT) (c : ReadCall) :
    Option (List UInt8 × ByteMem × FileT) :=
  match read { v with table := c.table } s.1 s.2 c.buf c.count with
  | none => none
  | some (r, m, file) => some ((List.range r).map fun j => m (c.buf + j), m, file)

structure Admissible (v : Volume) (file : FileT) (c : ReadCall) : Prop where
  buf : c.buf ≠ 0
  count : 0 < c.count
  pos : file.pos < (12 + 1024) * 4096
  apart : ApartFrom c.buf c.count v.blockBuf 4096

def fileBytes (d : Disk) (inode : Inode) (p n : ℕ) : List UInt8 :=
  (List.range n).map fun j => fileByte d inode (p + j)

theorem fileBytes_append (d : Disk) (inode : Inode) (p n k : ℕ) :
    fileBytes d inode p n ++ fileBytes d inode (p + n) k
      = fileBytes d inode p (n + k) := by
  unfold fileBytes
  rw [List.range_add, List.map_append, List.map_map]
  congr 1
  refine List.map_congr_left fun j _ => ?_
  simp only [Function.comp_apply, Nat.add_assoc]

theorem readStep_eq {v : Volume} {m : ByteMem} {file : FileT} {c : ReadCall}
    (hc : Admissible v file c) (hok : ReadOk { v with table := c.table } file c.count) :
    ∃ r m', readStep v (m, file) c
        = some (fileBytes v.disk file.inode file.pos r, m',
            { file with pos := file.pos + r }) ∧ 1 ≤ r ∧ r ≤ c.count := by
  obtain ⟨r, m', file', hrun, h1, hle, hbytes, rfl⟩ :=
    (readsFile_iff (v := { v with table := c.table }) (m := m) hc.buf hc.count hc.pos
      hc.apart).mpr hok
  refine ⟨r, m', ?_, h1, hle⟩
  unfold readStep fileBytes
  simp only [hrun, Option.some.injEq, Prod.mk.injEq, and_true]
  exact List.map_congr_left fun j hj => hbytes j (List.mem_range.mp hj)

/-- Reads that go right concatenate to the file's contents. -/
theorem exec_readStep {v : Volume} (calls : List ReadCall) :
    ∀ (m : ByteMem) (file : FileT),
      Along (readStep v) (fun s c _ _ => Admissible v s.2 c ∧
        ReadOk { v with table := c.table } s.2 c.count) (m, file) calls →
      ∃ ws n m', exec (readStep v) (m, file) calls
          = some (ws, m', { file with pos := file.pos + n }) ∧
        ws.flatten = fileBytes v.disk file.inode file.pos n := by
  induction calls with
  | nil => exact fun m file _ => ⟨[], 0, m, rfl, rfl⟩
  | cons c calls ih =>
      rintro m file ⟨w, s', hstep, ⟨hc, hok⟩, hrest⟩
      obtain ⟨r, m₁, hstep₁, -, -⟩ := readStep_eq (m := m) hc hok
      rw [hstep, Option.some.injEq, Prod.mk.injEq] at hstep₁
      obtain ⟨rfl, rfl⟩ := hstep₁
      obtain ⟨ws, n, m', hexec, hflat⟩ := ih m₁ _ hrest
      refine ⟨fileBytes v.disk file.inode file.pos r :: ws, r + n, m', ?_, ?_⟩
      · rw [exec, hstep]
        simp only [hexec, Option.map_some, Nat.add_assoc]
      · rw [List.flatten_cons, hflat, fileBytes_append]

/-- A read delivers the file's bytes exactly when `ReadOk` holds, and reads
that do concatenate to the file's contents whatever the chunk sizes. -/
theorem read_delivers_iff (v : Volume) :
    (∀ m file buf count, buf ≠ 0 → 0 < count → file.pos < (12 + 1024) * 4096 →
      ApartFrom buf count v.blockBuf 4096 →
        (ReadsFile v m file buf count ↔ ReadOk v file count)) ∧
    ∀ calls m file,
      Along (readStep v) (fun s c _ _ => Admissible v s.2 c ∧
        ReadOk { v with table := c.table } s.2 c.count) (m, file) calls →
      ∃ ws n m', exec (readStep v) (m, file) calls
          = some (ws, m', { file with pos := file.pos + n }) ∧
        ws.flatten = fileBytes v.disk file.inode file.pos n :=
  ⟨fun _ _ _ _ hbuf hcount hpos hapart => readsFile_iff hbuf hcount hpos hapart,
    exec_readStep⟩

/-- A card on which block 5 is a table whose first entry is block 200, and
that block starts with the byte 7. -/
def tableDisk : Disk := fun s i =>
  if s = fsStartSector + 5 * 8 ∧ i = 0 then 200
  else if s = fsStartSector + 200 * 8 ∧ i = 0 then 7
  else 0

/-- A file with the direct blocks 1 to 12 and the table in block 5. -/
def tableFile (pos : ℕ) : FileT :=
  ⟨⟨fun k => if k = 12 then 5 else BitVec.ofNat 32 (k + 1)⟩, pos⟩

def tableVolume : Volume := ⟨tableDisk, 4096, some fun _ => 0⟩

theorem read_delivers_iff_example :
    ReadsFile tableVolume (fun _ => 0) (tableFile 4000) 16384 8192 := by
  refine ((read_delivers_iff tableVolume).1 (fun _ => 0) (tableFile 4000) 16384 8192
    (by decide) (by decide) (by decide) (Or.inr (by decide))).mpr ?_
  rw [ReadOk, if_pos (by decide)]
  intro p hp hpc h12 _
  have hpos : (tableFile 4000).pos = 4000 := rfl
  omega

/-- A read of the last byte of block 11 and the first of block 12 delivers the
first byte of the table instead of the data. -/
theorem read_crosses_direct :
    ¬ ReadsFile tableVolume (fun _ => 0) (tableFile (12 * 4096 - 1)) 16384 2 := by
  intro h
  rw [readsFile_iff (by decide) (by decide) (by decide) (Or.inr (by decide)),
    ReadOk, if_pos (by decide)] at h
  have h12 := h (12 * 4096) (by decide) (by decide) (by decide) (by decide)
  revert h12
  decide

end Rpos
