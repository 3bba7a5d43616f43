import Mathlib.Data.Nat.ModEq
import Rpos.Filesystem.Open
import Rpos.Memory.Mem

/-!
# Reading an inode from the disk

`read_inode` of `disk.c` over the memory that it reads and writes: the descriptors of the
block groups, `rootfs.block_buf` and the buffer of the caller. `filesystem_init` takes the
sizes of a block and of an inode from the superblock. Next to these `inode_to_sector`
counts on blocks of eight sectors and on descriptors of 32 bytes, and the caller's buffer
is an `ext4_inode` of 128.
-/

namespace Rpos

open Base ByteMem

/-- The fields of the superblock that `filesystem_init` reads. -/
structure Superblock where
  sLogBlockSize : BitVec 32
  sInodeSize : BitVec 16
  sInodesPerGroup : BitVec 32
  sDescSize : BitVec 8

/-- The variables of `disk.c`, with the addresses of the tables in memory. -/
structure DiskVars where
  blockSize : ℕ
  inodeSize : ℕ
  inodesPerGroup : ℕ
  gcDescriptorSize : ℕ
  groupDescriptorTable : ℕ
  blockBuf : ℕ

/-- `1024 << s_log_block_size`: a shift of an `int`, which takes its count modulo 32. -/
def shiftedSize (sLogBlockSize : BitVec 32) : ℕ :=
  (((1024 : BitVec 32) <<< (sLogBlockSize.toNat % 32)).signExtend 64).toNat

/-- `filesystem_init`, as far as it sets the variables. -/
def filesystemInit (sb : Superblock) (groupDescriptorTable blockBuf : ℕ) : DiskVars where
  blockSize := shiftedSize sb.sLogBlockSize
  inodeSize := sb.sInodeSize.toNat
  inodesPerGroup := sb.sInodesPerGroup.toNat
  gcDescriptorSize := if sb.sDescSize ≠ 0 then sb.sDescSize.toNat else 32
  groupDescriptorTable := groupDescriptorTable
  blockBuf := blockBuf

/-- `sizeof(ext4_group_desc_t)`. -/
def groupDescSize : ℕ := 32

/-- `inode_to_sector`: the sector, and the offset in the block. -/
def inodeToSectorAt (v : DiskVars) (m : ByteMem) (inodeNum : Word) : ℕ × ℕ :=
  let group := (inodeNum - 1).toNat / v.inodesPerGroup % 2 ^ 32
  let index := (inodeNum - 1).toNat % v.inodesPerGroup % 2 ^ 32
  let inodeOffset := index * v.inodeSize
  let inodeBlockOffset := inodeOffset / v.blockSize
  let inodeOffsetInBlock := inodeOffset % v.blockSize
  let ptr := v.groupDescriptorTable + group * groupDescSize
  let inodeTableBlock := leNat m (ptr + 8) 4
  (fsStartSector.toNat + (inodeTableBlock + inodeBlockOffset) * 8, inodeOffsetInBlock)

/-- `read_inode`. -/
def readInodeAt (d : Disk) (v : DiskVars) (m : ByteMem) (buf : ℕ) (inodeNum : BitVec 32) :
    ByteMem :=
  let sector := (inodeToSectorAt v m (inodeNum.setWidth 64)).1
  let offset := (inodeToSectorAt v m (inodeNum.setWidth 64)).2
  let m := emmcRead d m (BitVec.ofNat 64 sector) v.blockBuf 4096
  memcpy m buf (v.blockBuf + offset) v.inodeSize

/-! ## §1  The layout of the filesystem -/

namespace Superblock

def blockSize (sb : Superblock) : ℕ := 1024 * 2 ^ sb.sLogBlockSize.toNat

def descSize (sb : Superblock) : ℕ := if sb.sDescSize = 0 then 32 else sb.sDescSize.toNat

def group (sb : Superblock) (n : BitVec 32) : ℕ := (n.toNat - 1) / sb.sInodesPerGroup.toNat

def index (sb : Superblock) (n : BitVec 32) : ℕ := (n.toNat - 1) % sb.sInodesPerGroup.toNat

/-- `bg_inode_table` of a group, in the table of descriptors at an address. -/
def inodeTable (sb : Superblock) (m : ByteMem) (table g : ℕ) : ℕ :=
  leNat m (table + g * sb.descSize + 8) 4

def inodePos (sb : Superblock) (m : ByteMem) (table : ℕ) (n : BitVec 32) : ℕ :=
  sb.inodeTable m table (sb.group n) * sb.blockSize + sb.index n * sb.sInodeSize.toNat

end Superblock

def fsByte (d : Disk) (p : ℕ) : UInt8 := d (fsStartSector + BitVec.ofNat 32 (p / 512)) (p % 512)

/-- `read_inode` fetches the first 128 bytes of the inode into the `ext4_inode` at `buf`, and
changes the memory there and in `rootfs.block_buf` only: for every card, every memory with
the group descriptors somewhere, and wherever the two buffers lie. -/
def FetchesInode (sb : Superblock) (n : BitVec 32) : Prop :=
  ∀ (d : Disk) (m : ByteMem) (table blockBuf buf : ℕ),
    buf + 128 ≤ blockBuf ∨ blockBuf + 4096 ≤ buf →
    (∀ i < 128, readInodeAt d (filesystemInit sb table blockBuf) m buf n (buf + i) =
      fsByte d (sb.inodePos m table n + i)) ∧
    ∀ a, a < buf ∨ buf + 128 ≤ a → a < blockBuf ∨ blockBuf + 4096 ≤ a →
      readInodeAt d (filesystemInit sb table blockBuf) m buf n a = m a

/-! ## §2  What `read_inode` copies -/

section Fetch

variable {sb : Superblock} {n : BitVec 32}

theorem inodeToSectorAt_eq (hn : 1 ≤ n.toNat) (m : ByteMem) (table blockBuf : ℕ) :
    inodeToSectorAt (filesystemInit sb table blockBuf) m (n.setWidth 64) =
      (fsStartSector.toNat + (leNat m (table + sb.group n * 32 + 8) 4 +
          sb.index n * sb.sInodeSize.toNat / shiftedSize sb.sLogBlockSize) * 8,
        sb.index n * sb.sInodeSize.toNat % shiftedSize sb.sLogBlockSize) := by
  have hlt := n.isLt
  have hpred : (n.setWidth 64 - 1 : Word).toNat = n.toNat - 1 := by
    rw [BitVec.toNat_sub_of_le (BitVec.le_def.mpr ?_), BitVec.toNat_setWidth,
      Nat.mod_eq_of_lt (by omega)]
    · rfl
    · rw [BitVec.toNat_setWidth, Nat.mod_eq_of_lt (by omega)]
      exact hn
  have hgroup : (n.toNat - 1) / sb.sInodesPerGroup.toNat % 2 ^ 32 = sb.group n :=
    Nat.mod_eq_of_lt ((Nat.div_le_self _ _).trans_lt (by omega))
  have hindex : (n.toNat - 1) % sb.sInodesPerGroup.toNat % 2 ^ 32 = sb.index n :=
    Nat.mod_eq_of_lt ((Nat.mod_le _ _).trans_lt (by omega))
  unfold inodeToSectorAt filesystemInit
  dsimp only
  rw [hpred, hgroup, hindex]
  rfl

/-- The block buffer after the block of an inode has been read. -/
theorem emmcRead_block (d : Disk) (m : ByteMem) (s blockBuf : ℕ) :
    emmcRead d m (BitVec.ofNat 64 s) blockBuf 4096 =
      m.store blockBuf 4096 fun i =>
        d (BitVec.ofNat 32 s + BitVec.ofNat 32 (i / 512)) (i % 512) := by
  unfold emmcRead
  rw [BitVec.setWidth_ofNat_of_le (by decide : 32 ≤ 64)]

/-- `read_inode` copies `s_inode_size` bytes from the block buffer on, unless the
destination lies inside of what is still to be read. -/
theorem readInodeAt_eq (hn : 1 ≤ n.toNat) (d : Disk) (m : ByteMem)
    {table blockBuf buf : ℕ}
    (hforward : Forward buf
      (blockBuf + sb.index n * sb.sInodeSize.toNat % shiftedSize sb.sLogBlockSize)
      sb.sInodeSize.toNat) :
    readInodeAt d (filesystemInit sb table blockBuf) m buf n =
      (m.store blockBuf 4096 fun i => d (BitVec.ofNat 32 (fsStartSector.toNat +
          (leNat m (table + sb.group n * 32 + 8) 4 +
            sb.index n * sb.sInodeSize.toNat / shiftedSize sb.sLogBlockSize) * 8) +
          BitVec.ofNat 32 (i / 512)) (i % 512)).move buf
        (blockBuf + sb.index n * sb.sInodeSize.toNat % shiftedSize sb.sLogBlockSize)
        sb.sInodeSize.toNat := by
  have hsize := sb.sInodeSize.isLt
  unfold readInodeAt
  rw [inodeToSectorAt_eq hn]
  dsimp only
  rw [← emmcRead_block]
  exact memcpy_eq (by
    show sb.sInodeSize.toNat < 2 ^ 32
    omega) hforward

/-- An inode of more than 128 bytes is written past the end of its `ext4_inode`. -/
theorem FetchesInode.size_le (h : FetchesInode sb n) (hn : 1 ≤ n.toNat) :
    sb.sInodeSize.toNat ≤ 128 := by
  by_contra hlarge
  have hsize := sb.sInodeSize.isLt
  -- every byte of the card and behind the start of the block buffer is 1
  set m : ByteMem := fun a => if a < 2 ^ 20 then 0 else 1 with hm
  have hkept := (h (fun _ _ => 1) m 0 (2 ^ 20) 0 (Or.inl (by decide))).2 128
    (Or.inr le_rfl) (Or.inl (by decide))
  rw [readInodeAt_eq hn _ _ (Or.inl (Nat.zero_le _)), move,
    show (128 : ℕ) = 0 + 128 by rfl, store_apply _ _ (Nat.not_le.mp hlarge)] at hkept
  set r := sb.index n * sb.sInodeSize.toNat % shiftedSize sb.sLogBlockSize with hr
  have hone : ∀ bytes : ℕ → UInt8, (∀ i, bytes i = 1) →
      m.store (2 ^ 20) 4096 bytes (2 ^ 20 + r + 128) = 1 := by
    intro bytes hbytes
    unfold store
    split
    · exact hbytes _
    · exact if_neg (by omega)
  rw [hone _ fun _ => rfl] at hkept
  exact absurd hkept (by decide)

/-- Whatever the descriptors are, the sector that is read is the one of the inode. -/
theorem FetchesInode.sector (h : FetchesInode sb n) (hn : 1 ≤ n.toNat)
    (hsize : 128 ≤ sb.sInodeSize.toNat) (descs : ℕ → UInt8) :
    (leNat descs (sb.group n * 32 + 8) 4 +
        sb.index n * sb.sInodeSize.toNat / shiftedSize sb.sLogBlockSize) * 8 +
      sb.index n * sb.sInodeSize.toNat % shiftedSize sb.sLogBlockSize / 512 ≡
    (leNat descs (sb.group n * sb.descSize + 8) 4 * sb.blockSize +
      sb.index n * sb.sInodeSize.toNat) / 512 [MOD 2 ^ 32] := by
  set x := sb.index n * sb.sInodeSize.toNat with hx
  set r := x % shiftedSize sb.sLogBlockSize with hr
  set q := x / shiftedSize sb.sLogBlockSize with hq
  obtain ⟨table, htable⟩ : ∃ t, t = 128 + r + 128 := ⟨_, rfl⟩
  set m : ByteMem := fun a => if table ≤ a then descs (a - table) else 0 with hm
  have hfield : ∀ k, leNat m (table + k + 8) 4 = leNat descs (k + 8) 4 := by
    intro k
    refine leNat_congr 4 fun i _ => ?_
    have hle : table ≤ table + k + 8 + i := by omega
    have hsub : table + k + 8 + i - table = k + 8 + i := by omega
    rw [hm]
    dsimp only
    rw [if_pos hle, hsub]
  -- only the first byte of the inode is 1 on this card
  set p := leNat descs (sb.group n * sb.descSize + 8) 4 * sb.blockSize + x with hp
  have hpos : sb.inodePos m table n = p := by
    unfold Superblock.inodePos Superblock.inodeTable
    rw [hfield]
  set d : Disk := fun s i =>
    if s = fsStartSector + BitVec.ofNat 32 (p / 512) ∧ i = p % 512 then 1 else 0 with hd
  have hfirst := (h d m table 128 0 (Or.inl le_rfl)).1 0 (by decide)
  rw [readInodeAt_eq hn _ _ (Or.inl (Nat.zero_le _)), move, store_apply _ _ (by omega), hpos,
    hfield] at hfirst
  have hbyte : fsByte d (p + 0) = 1 := if_pos ⟨rfl, rfl⟩
  rw [hbyte, ← hx, ← hr, ← hq, Nat.add_zero (128 + r)] at hfirst
  rcases Nat.lt_or_ge r 4096 with hin | hout
  · rw [store_apply _ _ hin] at hfirst
    by_cases hsame : BitVec.ofNat 32 (fsStartSector.toNat +
        (leNat descs (sb.group n * 32 + 8) 4 + q) * 8) + BitVec.ofNat 32 (r / 512) =
        fsStartSector + BitVec.ofNat 32 (p / 512)
    · have hnat := congrArg BitVec.toNat hsame
      simp only [BitVec.toNat_add, BitVec.toNat_ofNat] at hnat
      apply Nat.ModEq.add_left_cancel' fsStartSector.toNat
      unfold Nat.ModEq
      omega
    · rw [hd] at hfirst
      dsimp only at hfirst
      rw [if_neg fun hboth => hsame hboth.1] at hfirst
      exact absurd hfirst (by decide)
  · -- behind the block buffer the memory is 0
    rw [store_other _ _ (Or.inr (by omega))] at hfirst
    have hzero : m (128 + r) = 0 := if_neg (by omega)
    rw [hzero] at hfirst
    exact absurd hfirst (by decide)

theorem blockSize_sectors (sb : Superblock) (t x : ℕ) :
    (t * sb.blockSize + x) / 512 = t * 2 ^ (sb.sLogBlockSize.toNat + 1) + x / 512 := by
  have hsize : t * sb.blockSize + x = 512 * (t * 2 ^ (sb.sLogBlockSize.toNat + 1)) + x := by
    unfold Superblock.blockSize
    ring
  rw [hsize, Nat.mul_add_div (by decide)]

/-- Two descriptor tables tell a block of eight sectors from one of another size. -/
theorem FetchesInode.blockSize_eq (h : FetchesInode sb n) (hn : 1 ≤ n.toNat)
    (hsize : 128 ≤ sb.sInodeSize.toNat) : sb.sLogBlockSize.toNat = 2 := by
  have hfill : ∀ (c : UInt8) (k : ℕ), leNat (fun _ => c) k 4 = c.toNat * 0x01010101 := by
    intro c k
    simp only [leNat]
    ring
  have hzero := h.sector hn hsize fun _ => 0
  have hone := h.sector hn hsize fun _ => 1
  rw [hfill, hfill, blockSize_sectors] at hzero hone
  have hc0 : (0 : UInt8).toNat = 0 := rfl
  have hc1 : (1 : UInt8).toNat = 1 := rfl
  rw [hc0, Nat.zero_mul, Nat.zero_mul, Nat.zero_add, Nat.zero_add] at hzero
  rw [hc1, Nat.one_mul, Nat.add_mul, Nat.add_assoc] at hone
  have hblocks : 0x01010101 * 8 ≡ 0x01010101 * 2 ^ (sb.sLogBlockSize.toNat + 1)
      [MOD 2 ^ 32] := Nat.ModEq.add_right_cancel hzero hone
  have height : 8 ≡ 2 ^ (sb.sLogBlockSize.toNat + 1) [MOD 2 ^ 32] :=
    Nat.ModEq.cancel_left_of_coprime (by decide) hblocks
  rcases Nat.lt_or_ge (sb.sLogBlockSize.toNat + 1) 32 with hlt | hge
  · have hpow : 2 ^ 3 = 2 ^ (sb.sLogBlockSize.toNat + 1) :=
      height.eq_of_lt_of_lt (by decide) (Nat.pow_lt_pow_right (by decide) hlt)
    have hlog := Nat.pow_right_injective le_rfl hpow
    omega
  · have hdvd : 2 ^ (sb.sLogBlockSize.toNat + 1) ≡ 0 [MOD 2 ^ 32] :=
      (Nat.modEq_zero_iff_dvd).mpr (Nat.pow_dvd_pow 2 hge)
    exact absurd (height.trans hdvd) (by decide)

theorem shiftedSize_two {log : BitVec 32} (hlog : log.toNat = 2) : shiftedSize log = 4096 := by
  obtain rfl : log = 2 := BitVec.eq_of_toNat_eq hlog
  decide

/-- A table with one byte set tells descriptors of 32 bytes from others, behind the first. -/
theorem FetchesInode.descSize_eq (h : FetchesInode sb n) (hn : 1 ≤ n.toNat)
    (hsize : 128 ≤ sb.sInodeSize.toNat) (hgroup : sb.group n ≠ 0) : sb.descSize = 32 := by
  by_contra hne
  have hlog := h.blockSize_eq hn hsize
  have hstart : sb.group n * 32 ≠ sb.group n * sb.descSize := fun heq =>
    hne (Nat.eq_of_mul_eq_mul_left (Nat.pos_of_ne_zero hgroup) heq).symm
  generalize hc : sb.group n * 32 = c at hstart
  generalize hs : sb.group n * sb.descSize = s at hstart
  -- a byte of the field of the filesystem that is not one of the field that is read
  obtain ⟨j, hj, hout⟩ : ∃ j < 4, ∀ i < 4, c + 8 + i ≠ s + 8 + j := by
    rcases Nat.lt_or_gt_of_ne hstart with hlt | hgt
    · exact ⟨3, by decide, fun i hi => by omega⟩
    · exact ⟨0, by decide, fun i hi => by omega⟩
  set descs : ℕ → UInt8 := fun a => if a = s + 8 + j then 1 else 0 with hdescs
  have hcode : leNat descs (c + 8) 4 = 0 := by
    have hcongr : leNat descs (c + 8) 4 = leNat (fun _ => 0) 0 4 :=
      leNat_congr 4 fun i hi => if_neg (hout i hi)
    rw [hcongr]
    rfl
  have hspec : leNat descs (s + 8) 4 = 256 ^ j := by
    have hcongr : leNat descs (s + 8) 4 = leNat (fun i => if i = j then 1 else 0) 0 4 := by
      refine leNat_congr 4 fun i _ => ?_
      refine if_congr ?_ rfl rfl
      omega
    have hbyte : ∀ j < 4, leNat (fun i => if i = j then 1 else 0) 0 4 = 256 ^ j := by decide
    rw [hcongr, hbyte j hj]
  have hsector := h.sector hn hsize descs
  rw [hc, hs, hcode, hspec, blockSize_sectors, hlog, shiftedSize_two hlog] at hsector
  have hread : (0 + sb.index n * sb.sInodeSize.toNat / 4096) * 8 +
      sb.index n * sb.sInodeSize.toNat % 4096 / 512 =
      0 + sb.index n * sb.sInodeSize.toNat / 512 := by omega
  rw [hread] at hsector
  have hzero : 0 ≡ 256 ^ j * 2 ^ (2 + 1) [MOD 2 ^ 32] := Nat.ModEq.add_right_cancel' _ hsector
  have hnonzero : ∀ j < 4, ¬ 0 ≡ 256 ^ j * 2 ^ (2 + 1) [MOD 2 ^ 32] := by decide
  exact hnonzero j hj hzero

/-- With blocks of eight sectors, inodes of 128 bytes and the descriptor where the code
looks for it, the inode is fetched. -/
theorem fetchesInode_of (hn : 1 ≤ n.toNat) (hlog : sb.sLogBlockSize.toNat = 2)
    (hsize : sb.sInodeSize.toNat = 128) (hdesc : sb.group n * 32 = sb.group n * sb.descSize) :
    FetchesInode sb n := by
  intro d m table blockBuf buf hapart
  have hforward : Forward buf
      (blockBuf + sb.index n * sb.sInodeSize.toNat % shiftedSize sb.sLogBlockSize)
      sb.sInodeSize.toNat := by
    rw [hsize, shiftedSize_two hlog]
    unfold Forward
    omega
  rw [readInodeAt_eq hn d m hforward, hsize, shiftedSize_two hlog]
  constructor
  · intro i hi
    have hin : sb.index n * 128 % 4096 + i < 4096 := by omega
    rw [move, store_apply _ _ hi, Nat.add_assoc blockBuf, store_apply _ _ hin]
    unfold fsByte Superblock.inodePos Superblock.inodeTable Superblock.blockSize
    rw [hsize, hlog, ← hdesc]
    generalize leNat m (table + sb.group n * 32 + 8) 4 = t
    have hsector : BitVec.ofNat 32 (fsStartSector.toNat +
          (t + sb.index n * 128 / 4096) * 8) +
          BitVec.ofNat 32 ((sb.index n * 128 % 4096 + i) / 512) =
        fsStartSector + BitVec.ofNat 32 ((t * (1024 * 2 ^ 2) + sb.index n * 128 + i) / 512) := by
      apply BitVec.eq_of_toNat_eq
      simp only [BitVec.toNat_add, BitVec.toNat_ofNat]
      omega
    rw [hsector]
    congr 1
    omega
  · intro a hbuf hblock
    rw [move, store_other _ _ hbuf, store_other _ _ hblock]

/-- `read_inode` fetches the inode for the geometries of the developer's card: blocks of
4096 bytes, inodes of 128, and descriptors of 32 bytes or an inode of the first group. -/
theorem fetches_inode_iff (hn : 1 ≤ n.toNat) (hsize : 128 ≤ sb.sInodeSize.toNat) :
    FetchesInode sb n ↔
      sb.sLogBlockSize.toNat = 2 ∧ sb.sInodeSize.toNat = 128 ∧
        (sb.descSize = 32 ∨ sb.group n = 0) := by
  constructor
  · intro h
    refine ⟨h.blockSize_eq hn hsize, le_antisymm (h.size_le hn) hsize, ?_⟩
    rw [or_iff_not_imp_right]
    exact h.descSize_eq hn hsize
  · rintro ⟨hlog, hsize, hdesc | hgroup⟩
    · exact fetchesInode_of hn hlog hsize (by rw [hdesc])
    · exact fetchesInode_of hn hlog hsize (by rw [hgroup, Nat.zero_mul, Nat.zero_mul])

end Fetch

/-- The root directory on a card like the developer's. -/
theorem fetches_inode_iff_example : FetchesInode ⟨2, 128, 8192, 0⟩ 2 :=
  (fetches_inode_iff (by decide) (by decide)).mpr ⟨rfl, rfl, Or.inl rfl⟩

/-- The root directory on a card with inodes of 256 bytes, which `mkfs` makes unless told
otherwise: `read_inode` writes past the end of the `ext4_inode`. -/
theorem read_inode_overruns : ¬ FetchesInode ⟨2, 256, 8192, 0⟩ 2 :=
  fun h => absurd (h.size_le (by decide)) (by decide)

end Rpos
