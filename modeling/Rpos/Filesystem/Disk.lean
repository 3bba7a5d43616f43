import Rpos.Base.BitField
import Rpos.Base.ByteMemory

/-!
# Disk blocks and the block map of a file

`read_block` of `disk.c` over an eMMC card whose 512-byte sectors have 32-bit
numbers, and the classic ext block map: what block of the disk holds block `k`
of a file.
-/

namespace Rpos

open Base ByteMem

abbrev Disk := BitVec 32 → ℕ → UInt8

abbrev BlockNo := BitVec 32

def fsStartSector : BitVec 32 := 0x104000

/-- `emmc_seek_sector(sector)`, then `emmc_read(buf, size)`. -/
def emmcRead (d : Disk) (m : ByteMem) (sector : Word) (buf size : ℕ) : ByteMem :=
  let block : BitVec 32 := sector.setWidth 32
  m.store buf size fun i => d (block + BitVec.ofNat 32 (i / 512)) (i % 512)

def readBlock (d : Disk) (m : ByteMem) (buf : ℕ) (blockNum : BlockNo) : ByteMem :=
  let blockStartSector : Word := (fsStartSector + blockNum * 8).setWidth 64
  emmcRead d m blockStartSector buf 4096

def blockByte (d : Disk) (n : BlockNo) (i : ℕ) : UInt8 :=
  d (fsStartSector + n * 8 + BitVec.ofNat 32 (i / 512)) (i % 512)

theorem readBlock_eq (d : Disk) (m : ByteMem) (buf : ℕ) (n : BlockNo) :
    readBlock d m buf n = m.store buf 4096 (blockByte d n) := by
  unfold readBlock emmcRead
  simp only [BitVec.setWidth_setWidth_of_le _ (by omega : 32 ≤ 64), BitVec.setWidth_eq]
  rfl

/-- `ext4_inode`, as far as reading a file uses it. -/
structure Inode where
  iBlock : ℕ → BlockNo

/-- Byte `i` of a data block; the number 0 is a hole of zeros. -/
def blockData (d : Disk) (n : BlockNo) (i : ℕ) : UInt8 :=
  if n = 0 then 0 else blockByte d n i

def tableWord (d : Disk) (n : BlockNo) (j : ℕ) : BlockNo :=
  BitVec.ofNat 32 (leNat (blockByte d n) (4 * j) 4)

/-- An entry of a table; the number 0 is a hole of empty entries. -/
def tableEntry (d : Disk) (n : BlockNo) (j : ℕ) : BlockNo :=
  if n = 0 then 0 else tableWord d n j

/-- The block map: 12 direct blocks, then a table, a table of tables and a
table of those. -/
def blockOf (d : Disk) (inode : Inode) (k : ℕ) : BlockNo :=
  if k < 12 then inode.iBlock k
  else if k < 12 + 1024 then tableEntry d (inode.iBlock 12) (k - 12)
  else if k < 12 + 1024 + 1024 ^ 2 then
    let j := k - (12 + 1024)
    tableEntry d (tableEntry d (inode.iBlock 13) (j / 1024)) (j % 1024)
  else
    let j := k - (12 + 1024 + 1024 ^ 2)
    tableEntry d (tableEntry d (tableEntry d (inode.iBlock 14) (j / 1024 ^ 2))
      (j / 1024 % 1024)) (j % 1024)

def fileByte (d : Disk) (inode : Inode) (p : ℕ) : UInt8 :=
  blockData d (blockOf d inode (p / 4096)) (p % 4096)

end Rpos
