import Mathlib.Data.List.TakeWhile
import Rpos.Base.Search
import Rpos.Filesystem.Open
import Rpos.Utils.Strings

/-!
# Directories

`inode_from_directory` walks the entries of a directory block by their lengths, which it
takes from the disk. It compares its offset with the block size, and reads a header and a
name from there on.

`lookup` walks the blocks of a directory by the fifteen words of `i_block`. The last three
are not blocks of entries but tables.
-/

namespace Rpos

open Base ByteMem

/-! ## §1  The bytes that the scan reads -/

/-- `rec_len` of the entry at an offset. -/
def dirRecLen (dir : ℕ → UInt8) (o : ℕ) : ℕ := leNat dir (o + 4) 2

def dirInode (dir : ℕ → UInt8) (o : ℕ) : ℕ := leNat dir o 4

/-- Its `name_len`. -/
def dirNameLen (dir : ℕ → UInt8) (o : ℕ) : ℕ := (dir (o + 6)).toNat

def dirName (dir : ℕ → UInt8) (o : ℕ) : List UInt8 := cString dir (o + 8) (dirNameLen dir o)

def byteSpan (a n : ℕ) : List ℕ := (List.range n).map (a + ·)

/-- `inode_from_directory` with the offsets in the directory that it reads, in order.
`name_len` is a byte, so the name fits into `entry_name`. -/
def scanDirectory (dir : ℕ → UInt8) (name : List UInt8) :
    ℕ → ℕ → Option (Option ℕ × List ℕ)
  | 0, _ => none
  | fuel + 1, offset =>
      if offset < 4096 then
        let reads := byteSpan (offset + 4) 2
        if dirRecLen dir offset = 0 then some (none, reads)
        else
          let reads := reads ++ byteSpan offset 4
          if dirInode dir offset = 0 then
            (scanDirectory dir name fuel (offset + dirRecLen dir offset)).map fun r =>
              (r.1, reads ++ r.2)
          else
            let reads := reads ++ byteSpan (offset + 6) 1 ++
              byteSpan (offset + 8) (dirNameLen dir offset)
            if dirName dir offset = name then some (some (dirInode dir offset), reads)
            else
              (scanDirectory dir name fuel (offset + dirRecLen dir offset)).map fun r =>
                (r.1, reads ++ r.2)
      else some (none, [])

/-- The scan gets from one offset to another: it passes entries that have a length and do
not match. -/
inductive ScanReaches (dir : ℕ → UInt8) (name : List UInt8) : ℕ → ℕ → Prop
  | here (o : ℕ) : ScanReaches dir name o o
  | next {o q : ℕ} : o < 4096 → dirRecLen dir o ≠ 0 →
      ¬ (dirInode dir o ≠ 0 ∧ dirName dir o = name) →
      ScanReaches dir name (o + dirRecLen dir o) q → ScanReaches dir name o q

/-- What the scan needs of the entry at an offset lies in the block: its length, and its
name if it has a length and an inode. -/
def EntryInside (dir : ℕ → UInt8) (o : ℕ) : Prop :=
  o + 6 ≤ 4096 ∧ (dirRecLen dir o ≠ 0 → dirInode dir o ≠ 0 →
    o + 7 ≤ 4096 ∧ (dirNameLen dir o ≠ 0 → o + 8 + dirNameLen dir o ≤ 4096))

/-- The scan of a block ends, and reads only bytes of the block. -/
def ScansInside (dir : ℕ → UInt8) (name : List UInt8) : Prop :=
  ∃ fuel result reads, scanDirectory dir name fuel 0 = some (result, reads) ∧
    ∀ o ∈ reads, o < 4096

section Scan

variable {dir : ℕ → UInt8} {name : List UInt8}

theorem byteSpan_inside {a n : ℕ} :
    (∀ o ∈ byteSpan a n, o < 4096) ↔ (n ≠ 0 → a + n ≤ 4096) := by
  unfold byteSpan
  simp only [List.mem_map, List.mem_range, forall_exists_index, and_imp,
    forall_apply_eq_imp_iff₂]
  constructor
  · intro hall hn
    have hlast := hall (n - 1) (by omega)
    omega
  · intro hle i hi
    have := hle (by omega)
    omega

theorem scanReaches_iff (o q : ℕ) :
    ScanReaches dir name o q ↔ q = o ∨ o < 4096 ∧ dirRecLen dir o ≠ 0 ∧
      ¬ (dirInode dir o ≠ 0 ∧ dirName dir o = name) ∧
      ScanReaches dir name (o + dirRecLen dir o) q := by
  constructor
  · rintro (_ | ⟨hlt, hlen, hno, hrest⟩)
    · exact Or.inl rfl
    · exact Or.inr ⟨hlt, hlen, hno, hrest⟩
  · rintro (rfl | ⟨hlt, hlen, hno, hrest⟩)
    · exact .here _
    · exact .next hlt hlen hno hrest

/-- The entries from an offset on lie inside, when the first does and those that the scan
goes on to. -/
theorem entriesInside_iff {o : ℕ} (ho : o < 4096) :
    (∀ q < 4096, ScanReaches dir name o q → EntryInside dir q) ↔
      EntryInside dir o ∧ (dirRecLen dir o ≠ 0 →
        ¬ (dirInode dir o ≠ 0 ∧ dirName dir o = name) →
        ∀ q < 4096, ScanReaches dir name (o + dirRecLen dir o) q → EntryInside dir q) := by
  constructor
  · intro hall
    exact ⟨hall o ho (.here o), fun hlen hno q hq hrest =>
      hall q hq (.next ho hlen hno hrest)⟩
  · rintro ⟨hfirst, hrest⟩ q hq hreach
    rcases (scanReaches_iff o q).mp hreach with rfl | ⟨-, hlen, hno, hreach⟩
    · exact hfirst
    · exact hrest hlen hno q hq hreach

/-- All reads of a scan that has ended are inside exactly when all entries that it came to
are. -/
theorem scanDirectory_inside {fuel : ℕ} : ∀ {offset : ℕ} {result : Option ℕ} {reads : List ℕ},
    scanDirectory dir name fuel offset = some (result, reads) →
    ((∀ o ∈ reads, o < 4096) ↔
      ∀ q < 4096, ScanReaches dir name offset q → EntryInside dir q) := by
  induction fuel with
  | zero => exact fun h => by simp [scanDirectory] at h
  | succ fuel ih =>
      intro offset result reads hscan
      rw [scanDirectory] at hscan
      by_cases hlt : offset < 4096
      swap
      · -- past the end of the block nothing is read
        rw [if_neg hlt] at hscan
        obtain ⟨⟩ := hscan
        refine iff_of_true (fun o ho => absurd ho List.not_mem_nil) fun q hq hreach => ?_
        rcases (scanReaches_iff offset q).mp hreach with rfl | ⟨hlt', -⟩
        · exact absurd hq hlt
        · exact absurd hlt' hlt
      rw [if_pos hlt] at hscan
      dsimp only at hscan
      rw [entriesInside_iff hlt, EntryInside]
      by_cases hlen : dirRecLen dir offset = 0
      · rw [if_pos hlen] at hscan
        obtain ⟨⟩ := hscan
        simp [byteSpan_inside, hlen]
      rw [if_neg hlen] at hscan
      by_cases hinode : dirInode dir offset = 0
      · rw [if_pos hinode, Option.map_eq_some_iff] at hscan
        obtain ⟨⟨result', reads'⟩, hrest, ⟨⟩⟩ := hscan
        rw [← ih hrest]
        simp only [List.forall_mem_append, byteSpan_inside]
        simp [hlen, hinode]
        omega
      rw [if_neg hinode] at hscan
      by_cases hname : dirName dir offset = name
      · rw [if_pos hname] at hscan
        obtain ⟨⟩ := hscan
        simp only [List.forall_mem_append, byteSpan_inside]
        simp [hlen, hinode, hname]
        omega
      · rw [if_neg hname, Option.map_eq_some_iff] at hscan
        obtain ⟨⟨result', reads'⟩, hrest, ⟨⟩⟩ := hscan
        rw [← ih hrest]
        simp only [List.forall_mem_append, byteSpan_inside]
        simp [hlen, hinode, hname]
        omega

/-- Every entry passed is at least a byte long: the scan of a block ends, with the result
of `inodeFromDirectory`. -/
theorem scanDirectory_ends (dir : ℕ → UInt8) (name : List UInt8) {fuel : ℕ} :
    ∀ {offset : ℕ}, 4096 ≤ offset + fuel →
      ∃ reads, scanDirectory dir name (fuel + 1) offset =
        some (inodeFromDirectory dir name fuel offset, reads) := by
  induction fuel with
  | zero =>
      intro offset hfuel
      refine ⟨[], ?_⟩
      rw [scanDirectory, if_neg (by omega)]
      rfl
  | succ fuel ih =>
      intro offset hfuel
      rw [scanDirectory, inodeFromDirectory]
      by_cases hlt : offset < 4096
      swap
      · rw [if_neg hlt, if_neg hlt]
        exact ⟨[], rfl⟩
      rw [if_pos hlt, if_pos hlt]
      dsimp only
      by_cases hlen : dirRecLen dir offset = 0
      · have hlen' : leNat dir (offset + 4) 2 = 0 := hlen
        rw [if_pos hlen, if_pos hlen']
        exact ⟨_, rfl⟩
      have hlen' : ¬ leNat dir (offset + 4) 2 = 0 := hlen
      rw [if_neg hlen, if_neg hlen']
      have hnext : 4096 ≤ offset + dirRecLen dir offset + fuel := by omega
      obtain ⟨reads, hrest⟩ := ih hnext
      by_cases hinode : dirInode dir offset = 0
      · have hinode' : leNat dir offset 4 = 0 := hinode
        rw [if_pos hinode, if_pos hinode', hrest]
        exact ⟨_, rfl⟩
      have hinode' : ¬ leNat dir offset 4 = 0 := hinode
      rw [if_neg hinode, if_neg hinode']
      by_cases hname : dirName dir offset = name
      · have hname' : cString dir (offset + 8) (dir (offset + 6)).toNat = name := hname
        rw [if_pos hname, if_pos hname']
        exact ⟨_, rfl⟩
      · have hname' : ¬ cString dir (offset + 8) (dir (offset + 6)).toNat = name := hname
        rw [if_neg hname, if_neg hname', hrest]
        exact ⟨_, rfl⟩

/-- The scan of a block always ends. It reads bytes of the block only, if and only if every
entry that it comes to before the end of the block lies inside. -/
theorem scan_inside_iff (dir : ℕ → UInt8) (name : List UInt8) :
    (∃ reads, scanDirectory dir name 4097 0 =
      some (inodeFromDirectory dir name 4096 0, reads)) ∧
    (ScansInside dir name ↔
      ∀ o < 4096, ScanReaches dir name 0 o → EntryInside dir o) := by
  have hrounds : 4096 ≤ 0 + 4096 := le_rfl
  obtain ⟨reads, hends⟩ := scanDirectory_ends dir name hrounds
  refine ⟨⟨reads, hends⟩, ?_, fun hall => ?_⟩
  · rintro ⟨fuel, result, reads, hscan, hin⟩
    exact (scanDirectory_inside hscan).mp hin
  · exact ⟨_, _, _, hends, (scanDirectory_inside hends).mpr hall⟩

/-- A block with one unused entry that ends four bytes before the block does. -/
def shortTail : ℕ → UInt8 := fun i => if i = 4 then 0xFC else if i = 5 then 0x0F else 0

/-- The scan of such a block for the name `a` reads the length of an entry from behind the
block. -/
theorem scan_reads_past_block : ¬ ScansInside shortTail [97] := by
  rintro ⟨fuel, result, reads, hscan, hin⟩
  have hlen : dirRecLen shortTail 0 = 4092 := by decide
  have hreach : ScanReaches shortTail [97] 0 4092 := by
    refine .next (by decide) (by rw [hlen]; decide) (fun h => h.1 (by decide)) ?_
    rw [hlen]
    exact .here _
  have hentry := (scanDirectory_inside hscan).mp hin 4092 (by decide) hreach
  exact absurd hentry.1 (by decide)

end Scan

/-! ## §2  Well-formed directory blocks -/

structure DirEntry where
  inode : ℕ
  name : List UInt8

def bytesAt (bytes : ℕ → UInt8) (a n : ℕ) : List UInt8 :=
  (List.range n).map fun i => bytes (a + i)

/-- From an offset to its end the block is divided into these entries. Each has room for
its header and its name, and the name of a live one has no zero byte. -/
inductive DirEntries (bytes : ℕ → UInt8) : ℕ → List DirEntry → Prop
  | nil : DirEntries bytes 4096 []
  | cons {o : ℕ} {es : List DirEntry} : 8 + dirNameLen bytes o ≤ dirRecLen bytes o →
      (dirInode bytes o ≠ 0 → 0 ∉ bytesAt bytes (o + 8) (dirNameLen bytes o)) →
      DirEntries bytes (o + dirRecLen bytes o) es →
      DirEntries bytes o
        (⟨dirInode bytes o, bytesAt bytes (o + 8) (dirNameLen bytes o)⟩ :: es)

def firstLive (name : List UInt8) (es : List DirEntry) : Option ℕ :=
  (es.find? fun e => e.inode ≠ 0 ∧ e.name = name).map DirEntry.inode

section Entries

variable {bytes : ℕ → UInt8} {o : ℕ} {es : List DirEntry}

theorem DirEntries.le_end (h : DirEntries bytes o es) : o ≤ 4096 := by
  induction h with
  | nil => exact le_rfl
  | cons hroom hname hrest ih => exact (Nat.le_add_right _ _).trans ih

theorem dirName_eq (hname : 0 ∉ bytesAt bytes (o + 8) (dirNameLen bytes o)) :
    dirName bytes o = bytesAt bytes (o + 8) (dirNameLen bytes o) := by
  apply List.takeWhile_eq_self_iff.mpr
  intro c hc
  rw [decide_eq_true_eq]
  rintro rfl
  exact hname hc

/-- The scan of a well-formed block finds its first live entry with the name. -/
theorem DirEntries.scan (h : DirEntries bytes o es) (name : List UInt8) :
    ∀ {fuel : ℕ}, 4096 ≤ o + fuel →
      inodeFromDirectory bytes name fuel o = firstLive name es := by
  induction h with
  | nil =>
      intro fuel _
      cases fuel with
      | zero => rfl
      | succ fuel =>
          rw [inodeFromDirectory, if_neg (Nat.lt_irrefl _)]
          rfl
  | @cons o es hroom hname hrest ih =>
      intro fuel hfuel
      have hend := hrest.le_end
      obtain ⟨fuel, rfl⟩ : ∃ f, fuel = f + 1 := ⟨fuel - 1, by omega⟩
      have hnext : 4096 ≤ o + dirRecLen bytes o + fuel := by omega
      have hrest' := ih hnext
      have hlen : ¬ leNat bytes (o + 4) 2 = 0 := by
        show ¬ dirRecLen bytes o = 0
        omega
      rw [inodeFromDirectory, if_pos (by omega)]
      dsimp only
      rw [if_neg hlen, firstLive, List.find?_cons]
      by_cases hinode : dirInode bytes o = 0
      · have hinode' : leNat bytes o 4 = 0 := hinode
        rw [if_pos hinode']
        simp only [hinode, ne_eq, not_true_eq_false, false_and, decide_false]
        exact hrest'
      have hinode' : ¬ leNat bytes o 4 = 0 := hinode
      rw [if_neg hinode']
      have hstring : cString bytes (o + 8) (bytes (o + 6)).toNat =
          bytesAt bytes (o + 8) (dirNameLen bytes o) := dirName_eq (hname hinode)
      rw [hstring]
      by_cases hmatch : bytesAt bytes (o + 8) (dirNameLen bytes o) = name
      · rw [if_pos hmatch, decide_eq_true ⟨hinode, hmatch⟩]
        rfl
      · rw [if_neg hmatch, decide_eq_false fun h => hmatch h.2]
        exact hrest'

end Entries

/-! ### The comparison with `strcmp` -/

/-- `entry_name` after the copy: the bytes of the name and a zero, over what was on the
stack. -/
def entryName (stack : ByteMem) (dir : ℕ → UInt8) (o : ℕ) : ByteMem := fun i =>
  if i < dirNameLen dir o then dir (o + 8 + i)
  else if i = dirNameLen dir o then 0 else stack i

/-- `inode_from_directory` with its name in memory, at `name` in `m`, and the copies of the
names on the stack. NULL is 0. -/
def inodeFromDirectoryAt (stack : ByteMem) (dir : ℕ → UInt8) (m : ByteMem) (name : ℕ) :
    ℕ → ℕ → Option ℕ
  | 0, _ => none
  | fuel + 1, offset =>
      if offset < 4096 then
        if dirRecLen dir offset = 0 then some 0
        else if dirInode dir offset = 0 then
          inodeFromDirectoryAt stack dir m name fuel (offset + dirRecLen dir offset)
        else
          match strcmp (entryName stack dir offset) m 256 0 name with
          | none => none
          | some 0 => some (dirInode dir offset)
          | some _ => inodeFromDirectoryAt stack dir m name fuel (offset + dirRecLen dir offset)
      else some 0

section Strcmp

variable {stack : ByteMem} {dir : ℕ → UInt8} {m : ByteMem} {a : ℕ} {name : List UInt8}

/-- The copy of a name is a string: the name up to its first zero byte. -/
theorem entryName_cStr (stack : ByteMem) (dir : ℕ → UInt8) (o : ℕ) :
    CStr (entryName stack dir o) 0 (dirName dir o) := by
  have hzero : entryName stack dir o (0 + dirNameLen dir o) = 0 := by
    rw [Nat.zero_add, entryName, if_neg (Nat.lt_irrefl _), if_pos rfl]
  have hbytes : (List.range (dirNameLen dir o)).map (fun i => entryName stack dir o (0 + i)) =
      (List.range (dirNameLen dir o)).map fun i => dir (o + 8 + i) := by
    apply List.map_congr_left
    intro i hi
    rw [Nat.zero_add, entryName, if_pos (List.mem_range.mp hi)]
  have hstring := CStr.of_zero hzero
  rw [hbytes] at hstring
  exact hstring

/-- The array has room for the terminator: `name_len` is a byte. -/
theorem dirName_length_lt (dir : ℕ → UInt8) (o : ℕ) : (dirName dir o).length < 256 := by
  calc (dirName dir o).length
      ≤ ((List.range (dirNameLen dir o)).map fun i => dir (o + 8 + i)).length :=
        (List.takeWhile_prefix _).length_le
    _ = dirNameLen dir o := by rw [List.length_map, List.length_range]
    _ < 256 := (dir (o + 6)).toNat_lt

theorem strcmp_entryName (hname : CStr m a name) (o : ℕ) :
    strcmp (entryName stack dir o) m 256 0 a = some (if dirName dir o = name then 0 else 1) :=
  strcmp_eq (entryName_cStr stack dir o) hname (dirName_length_lt dir o)

/-- With the names as strings in memory the scan finds what it finds with the names as
lists. -/
theorem inodeFromDirectoryAt_eq (hname : CStr m a name) {fuel : ℕ} :
    ∀ {offset : ℕ}, 4096 ≤ offset + fuel →
      inodeFromDirectoryAt stack dir m a (fuel + 1) offset =
        some ((inodeFromDirectory dir name fuel offset).getD 0) := by
  induction fuel with
  | zero =>
      intro offset hfuel
      have hend : ¬ offset < 4096 := Nat.not_lt.mpr hfuel
      rw [inodeFromDirectoryAt, if_neg hend]
      rfl
  | succ fuel ih =>
      intro offset hfuel
      rw [inodeFromDirectoryAt, inodeFromDirectory]
      by_cases hlt : offset < 4096
      swap
      · rw [if_neg hlt, if_neg hlt]
        rfl
      rw [if_pos hlt, if_pos hlt]
      dsimp only
      by_cases hlen : dirRecLen dir offset = 0
      · have hlen' : leNat dir (offset + 4) 2 = 0 := hlen
        rw [if_pos hlen, if_pos hlen']
        rfl
      have hlen' : ¬ leNat dir (offset + 4) 2 = 0 := hlen
      have hnext : 4096 ≤ offset + dirRecLen dir offset + fuel := by omega
      have hrest := ih hnext
      rw [if_neg hlen, if_neg hlen']
      by_cases hinode : dirInode dir offset = 0
      · have hinode' : leNat dir offset 4 = 0 := hinode
        rw [if_pos hinode, if_pos hinode']
        exact hrest
      have hinode' : ¬ leNat dir offset 4 = 0 := hinode
      rw [if_neg hinode, if_neg hinode', strcmp_entryName hname]
      by_cases hmatch : dirName dir offset = name
      · have hmatch' : cString dir (offset + 8) (dir (offset + 6)).toNat = name := hmatch
        rw [if_pos hmatch, if_pos hmatch']
        rfl
      · have hmatch' : ¬ cString dir (offset + 8) (dir (offset + 6)).toNat = name := hmatch
        rw [if_neg hmatch, if_neg hmatch']
        exact hrest

/-- On a block of well-formed entries `inode_from_directory` returns the inode of the first
live entry with the name, and 0 if there is none. -/
theorem inodeFromDirectoryAt_exact {es : List DirEntry} (hblock : DirEntries dir 0 es)
    (hname : CStr m a name) :
    inodeFromDirectoryAt stack dir m a 4097 0 = some ((firstLive name es).getD 0) := by
  have hrounds : 4096 ≤ 0 + 4096 := le_rfl
  rw [inodeFromDirectoryAt_eq hname hrounds, hblock.scan name hrounds]

end Strcmp

/-- A block with an unused entry `a`, the entry `b` with the inode 5, and `a` with 7. -/
def threeEntries : ℕ → UInt8 := fun i =>
  ([0, 0, 0, 0, 12, 0, 1, 0, 97, 0, 0, 0, 5, 0, 0, 0, 12, 0, 1, 0, 98, 0, 0, 0,
    7, 0, 0, 0, 232, 15, 1, 0, 97] : List UInt8).getD i 0

/-- A card on which block 5 is a table whose first entry is block 6, block 6 has one entry,
`a` with the inode 7, and block 7 has three. -/
def entryDisk : Disk := fun s i =>
  if s = fsStartSector + 5 * 8 ∧ i = 0 then 6
  else if s = fsStartSector + 6 * 8 then
    if i = 0 then 7 else if i = 5 then 16 else if i = 6 then 1 else if i = 8 then 97 else 0
  else if s = fsStartSector + 7 * 8 then threeEntries i
  else 0

theorem entryDisk_threeEntries :
    DirEntries (blockByte entryDisk 7) 0 [⟨0, [97]⟩, ⟨5, [98]⟩, ⟨7, [97]⟩] := by
  have hend : DirEntries (blockByte entryDisk 7) 4096 [] := .nil
  have hthird : DirEntries (blockByte entryDisk 7) 24 [⟨7, [97]⟩] :=
    .cons (by decide) (fun _ => by decide) hend
  have hsecond : DirEntries (blockByte entryDisk 7) 12 [⟨5, [98]⟩, ⟨7, [97]⟩] :=
    .cons (by decide) (fun _ => by decide) hthird
  exact .cons (by decide) (fun _ => by decide) hsecond

def nameA : ByteMem := fun i => if i = 0 then 97 else 0

theorem inodeFromDirectoryAt_exact_example :
    inodeFromDirectoryAt nameA (blockByte entryDisk 7) nameA 0 4097 0 = some 7 := by
  have hname : CStr nameA 0 [97] := .cons rfl (by decide) (.nil rfl)
  exact inodeFromDirectoryAt_exact entryDisk_threeEntries hname

/-! ## §3  `lookup` and the block map -/

def maxFileBlocks : ℕ := 12 + 1024 + 1024 ^ 2 + 1024 ^ 3

def dirBlocks (dirnode : InodeData) : Inode where
  iBlock i := BitVec.ofNat 32 (leNat dirnode (40 + 4 * i) 4)

/-- What data block `k` of the directory holds for the name, where `entries k` are its
entries. -/
def blockHolds (d : Disk) (dirnode : InodeData) (entries : ℕ → List DirEntry)
    (name : List UInt8) (k : ℕ) : Option ℕ :=
  if blockOf d (dirBlocks dirnode) k = 0 then none else firstLive name (entries k)

/-- What `inode_from_directory` finds in the block of a slot of `i_block`. -/
def slotHolds (d : Disk) (dirnode : InodeData) (name : List UInt8) (i : ℕ) : Option ℕ :=
  if (dirBlocks dirnode).iBlock i = 0 then none
  else inodeFromDirectory (blockByte d ((dirBlocks dirnode).iBlock i)) name 4096 0

/-- `lookup` replaces the directory by the inode of the first live entry with the name in
its data blocks, and returns NULL if there is none. -/
def LookupExact (fs : Rootfs) (dirnode : InodeData) (entries : ℕ → List DirEntry)
    (name : List UInt8) : Prop :=
  (∀ n, FirstAt (blockHolds fs.disk dirnode entries name) 0 maxFileBlocks n →
    lookup fs dirnode name = some (readInode fs dirnode n)) ∧
  ((∀ n, ¬ FirstAt (blockHolds fs.disk dirnode entries name) 0 maxFileBlocks n) →
    lookup fs dirnode name = none)

/-- The three tables, read as blocks of entries, give for the name the inode that the data
blocks behind them hold. -/
def TablesAgree (fs : Rootfs) (dirnode : InodeData) (entries : ℕ → List DirEntry)
    (name : List UInt8) : Prop :=
  (∀ n, FirstAt (blockHolds fs.disk dirnode entries name) 12 maxFileBlocks n →
    ∃ n', FirstAt (slotHolds fs.disk dirnode name) 12 15 n' ∧
      readInode fs dirnode n' = readInode fs dirnode n) ∧
  ((∀ n, ¬ FirstAt (blockHolds fs.disk dirnode entries name) 12 maxFileBlocks n) →
    ∀ n', ¬ FirstAt (slotHolds fs.disk dirnode name) 12 15 n')

section Lookup

variable {fs : Rootfs} {dirnode : InodeData} {entries : ℕ → List DirEntry}
  {name : List UInt8}

theorem lookup_eq (fs : Rootfs) (dirnode : InodeData) (name : List UInt8) :
    lookup fs dirnode name =
      ((List.range 15).findSome? (slotHolds fs.disk dirnode name)).map
        (readInode fs dirnode) := by
  rw [List.map_findSome?]
  unfold lookup
  congr 1
  funext i
  show _ = Option.map _ (slotHolds fs.disk dirnode name i)
  unfold slotHolds
  rw [apply_ite (Option.map (readInode fs dirnode)), Option.map_none]
  rfl

theorem lookup_some {n : ℕ} (h : FirstAt (slotHolds fs.disk dirnode name) 0 15 n) :
    lookup fs dirnode name = some (readInode fs dirnode n) := by
  rw [lookup_eq, h.findSome?, Option.map_some]

theorem lookup_none (h : ∀ n, ¬ FirstAt (slotHolds fs.disk dirnode name) 0 15 n) :
    lookup fs dirnode name = none := by
  rw [lookup_eq, Option.map_eq_none_iff, Option.eq_none_iff_forall_ne_some]
  exact fun n hn => h n (findSome?_range.mp hn)

/-- The direct slots are data blocks, and what the scan finds there is what they hold. -/
theorem slotHolds_direct
    (hblocks : ∀ k < maxFileBlocks, blockOf fs.disk (dirBlocks dirnode) k ≠ 0 →
      DirEntries (blockByte fs.disk (blockOf fs.disk (dirBlocks dirnode) k)) 0 (entries k))
    {k : ℕ} (hk : k < 12) :
    slotHolds fs.disk dirnode name k = blockHolds fs.disk dirnode entries name k := by
  have hslot : blockOf fs.disk (dirBlocks dirnode) k = (dirBlocks dirnode).iBlock k :=
    if_pos hk
  have hmap : k < maxFileBlocks := hk.trans (by decide)
  unfold slotHolds blockHolds
  rw [hslot]
  split
  · rfl
  · rename_i hne
    rw [← hslot] at hne ⊢
    exact (hblocks k hmap hne).scan name le_rfl

/-- For a directory with well-formed data blocks: `lookup` is exact if and only if a direct
block holds the name, or the three tables, read as blocks of entries, agree for the name
with the data blocks behind them. -/
theorem lookup_exact_iff
    (hblocks : ∀ k < maxFileBlocks, blockOf fs.disk (dirBlocks dirnode) k ≠ 0 →
      DirEntries (blockByte fs.disk (blockOf fs.disk (dirBlocks dirnode) k)) 0 (entries k)) :
    LookupExact fs dirnode entries name ↔
      (∃ n, FirstAt (blockHolds fs.disk dirnode entries name) 0 12 n) ∨
        TablesAgree fs dirnode entries name := by
  have hdirect : ∀ k, 0 ≤ k → k < 12 → slotHolds fs.disk dirnode name k =
      blockHolds fs.disk dirnode entries name k := fun k _ hk =>
    slotHolds_direct hblocks hk
  by_cases hheld : ∃ n, FirstAt (blockHolds fs.disk dirnode entries name) 0 12 n
  · refine iff_of_true ?_ (Or.inl hheld)
    obtain ⟨n, hn⟩ := hheld
    have hall := hn.extend (show 12 ≤ maxFileBlocks by decide)
    have hslot := (hn.congr hdirect).extend (show 12 ≤ 15 by decide)
    refine ⟨fun n' hn' => ?_, fun hno => absurd hall (hno n)⟩
    rw [hn'.unique hall]
    exact lookup_some hslot
  · rw [or_iff_right hheld]
    rw [not_exists, not_firstAt_iff] at hheld
    -- what is found is behind the direct slots, on both sides
    have hdata : ∀ n, FirstAt (blockHolds fs.disk dirnode entries name) 0 maxFileBlocks n ↔
        FirstAt (blockHolds fs.disk dirnode entries name) 12 maxFileBlocks n := fun n =>
      firstAt_skip (Nat.zero_le 12) hheld
    have hslots : ∀ n, FirstAt (slotHolds fs.disk dirnode name) 0 15 n ↔
        FirstAt (slotHolds fs.disk dirnode name) 12 15 n := fun n =>
      firstAt_skip (Nat.zero_le 12) fun k hlo hk => (hdirect k hlo hk).trans (hheld k hlo hk)
    unfold LookupExact TablesAgree
    simp only [hdata, ← hslots]
    apply and_congr
    · refine forall₂_congr fun n _ => ⟨fun hfound => ?_, ?_⟩
      · rw [lookup_eq, Option.map_eq_some_iff] at hfound
        obtain ⟨n', hn', hread⟩ := hfound
        exact ⟨n', findSome?_range.mp hn', hread⟩
      · rintro ⟨n', hn', hread⟩
        rw [lookup_some hn', hread]
    · refine imp_congr_right fun _ => ⟨fun hnone n' hn' => ?_, lookup_none⟩
      rw [lookup_some hn'] at hnone
      exact Option.some_ne_none _ hnone

end Lookup

def entryFs : Rootfs := { bareRoot with disk := entryDisk }

/-- A directory with one word of `i_block` that is not 0. -/
def slotDir (slot : ℕ) (block : UInt8) : InodeData := fun i =>
  if i = 40 + 4 * slot then block else 0

theorem entryDisk_entries : DirEntries (blockByte entryDisk 6) 0 [⟨7, [97]⟩] := by
  have hlen : dirRecLen (blockByte entryDisk 6) 0 = 4096 := by decide
  have hrest : DirEntries (blockByte entryDisk 6) (0 + dirRecLen (blockByte entryDisk 6) 0)
      [] := by
    rw [hlen]
    exact .nil
  exact .cons (by decide) (fun _ => by decide) hrest

theorem slotDir_iBlock (slot : ℕ) (block : UInt8) (k : ℕ) :
    (dirBlocks (slotDir slot block)).iBlock k =
      if k = slot then BitVec.ofNat 32 block.toNat else 0 := by
  show BitVec.ofNat 32 (leNat (slotDir slot block) (40 + 4 * k) 4) = _
  have hbyte : ∀ i, slotDir slot block i = if i = 40 + 4 * slot then block else 0 :=
    fun _ => rfl
  have h1 : 40 + 4 * k + 1 ≠ 40 + 4 * slot := by omega
  have h2 : 40 + 4 * k + 1 + 1 ≠ 40 + 4 * slot := by omega
  have h3 : 40 + 4 * k + 1 + 1 + 1 ≠ 40 + 4 * slot := by omega
  simp only [leNat, hbyte, if_neg h1, if_neg h2, if_neg h3]
  by_cases hk : k = slot
  · rw [if_pos (by rw [hk]), if_pos hk]
    rfl
  · rw [if_neg (by omega), if_neg hk]
    rfl

theorem slotDir_direct (d : Disk) (block : UInt8) (k : ℕ) :
    blockOf d (dirBlocks (slotDir 0 block)) k =
      if k = 0 then BitVec.ofNat 32 block.toNat else 0 := by
  have hslot : ∀ i, 12 ≤ i → (dirBlocks (slotDir 0 block)).iBlock i = 0 := fun i hi => by
    rw [slotDir_iBlock, if_neg (by omega)]
  unfold blockOf
  split
  · exact slotDir_iBlock 0 block k
  · have hk : k ≠ 0 := by omega
    rw [hslot 12 le_rfl, hslot 13 (by decide), hslot 14 (by decide), if_neg hk]
    simp [tableEntry]

theorem slotDir_table (d : Disk) (block : UInt8) (k : ℕ) :
    blockOf d (dirBlocks (slotDir 12 block)) k =
      if 12 ≤ k ∧ k < 12 + 1024 then tableEntry d (BitVec.ofNat 32 block.toNat) (k - 12)
      else 0 := by
  have hslot : ∀ i, i ≠ 12 → (dirBlocks (slotDir 12 block)).iBlock i = 0 := fun i hi => by
    rw [slotDir_iBlock, if_neg hi]
  unfold blockOf
  split
  · rename_i hlow
    rw [hslot k (by omega), if_neg (by omega)]
  split
  · rename_i hlow hhigh
    rw [slotDir_iBlock, if_pos rfl, if_pos ⟨Nat.not_lt.mp hlow, hhigh⟩]
  · rename_i hhigh
    have hk : ¬ (12 ≤ k ∧ k < 12 + 1024) := fun h => hhigh h.2
    rw [hslot 13 (by decide), hslot 14 (by decide), if_neg hk]
    simp [tableEntry]

theorem lookup_exact_iff_example :
    LookupExact entryFs (slotDir 0 7) (fun _ => [⟨0, [97]⟩, ⟨5, [98]⟩, ⟨7, [97]⟩]) [97] := by
  apply (lookup_exact_iff ?_).mpr
  · refine Or.inl ⟨7, 0, le_rfl, by decide, ?_, fun j _ hj => absurd hj (Nat.not_lt_zero j)⟩
    unfold blockHolds
    rw [slotDir_direct, if_pos rfl]
    decide
  · intro k _ hk
    rw [slotDir_direct] at hk ⊢
    split at hk
    · rename_i h0
      rw [if_pos h0]
      exact entryDisk_threeEntries
    · exact absurd rfl hk

theorem entryDisk_table {j : ℕ} (hj : j < 1024) :
    tableEntry entryDisk 5 j = if j = 0 then 6 else 0 := by
  have hbyte : ∀ i, i < 4096 → blockByte entryDisk 5 i = if i = 0 then 6 else 0 := by
    intro i hi
    have hsector : ∀ q < 8,
        (fsStartSector + 5 * 8 + BitVec.ofNat 32 q = fsStartSector + 5 * 8 ↔ q = 0) ∧
          fsStartSector + 5 * 8 + BitVec.ofNat 32 q ≠ fsStartSector + 6 * 8 ∧
          fsStartSector + 5 * 8 + BitVec.ofNat 32 q ≠ fsStartSector + 7 * 8 := by
      decide
    obtain ⟨hfirst, hsixth, hseventh⟩ := hsector (i / 512) (by omega)
    show entryDisk (fsStartSector + 5 * 8 + BitVec.ofNat 32 (i / 512)) (i % 512) = _
    rw [entryDisk, if_neg hsixth, if_neg hseventh]
    refine if_congr ?_ rfl rfl
    rw [hfirst]
    omega
  rw [tableEntry, if_neg (by decide), tableWord]
  simp only [leNat]
  rw [hbyte _ (by omega), hbyte _ (by omega), hbyte _ (by omega), hbyte _ (by omega)]
  by_cases h0 : j = 0
  · subst h0
    rfl
  · rw [if_neg (by omega), if_neg (by omega), if_neg (by omega), if_neg (by omega), if_neg h0]
    rfl

/-- The only data block of a directory is behind its table, and holds `a`. `lookup` reads
the table as a block of entries and does not find the name. -/
theorem lookup_misses_entry :
    (∀ k < maxFileBlocks, blockOf entryDisk (dirBlocks (slotDir 12 5)) k ≠ 0 →
      DirEntries (blockByte entryDisk (blockOf entryDisk (dirBlocks (slotDir 12 5)) k)) 0
        [⟨7, [97]⟩]) ∧
    FirstAt (blockHolds entryDisk (slotDir 12 5) (fun _ => [⟨7, [97]⟩]) [97]) 0
      maxFileBlocks 7 ∧
    lookup entryFs (slotDir 12 5) [97] = none ∧
    ¬ LookupExact entryFs (slotDir 12 5) (fun _ => [⟨7, [97]⟩]) [97] := by
  have hmap : ∀ k, blockOf entryDisk (dirBlocks (slotDir 12 5)) k =
      if k = 12 then 6 else 0 := by
    intro k
    have hfive : BitVec.ofNat 32 (5 : UInt8).toNat = 5 := by decide
    rw [slotDir_table, hfive]
    by_cases hk : 12 ≤ k ∧ k < 12 + 1024
    · rw [if_pos hk, entryDisk_table (by omega)]
      refine if_congr ?_ rfl rfl
      omega
    · rw [if_neg hk, if_neg (by omega)]
  have hheld : FirstAt (blockHolds entryDisk (slotDir 12 5) (fun _ => [⟨7, [97]⟩]) [97]) 0
      maxFileBlocks 7 := by
    refine ⟨12, by decide, by decide, ?_, fun j _ hj => ?_⟩
    · unfold blockHolds
      rw [hmap, if_pos rfl]
      decide
    · unfold blockHolds
      rw [hmap, if_neg (show ¬ j = 12 by omega), if_pos rfl]
  have hnone : lookup entryFs (slotDir 12 5) [97] = none := by
    apply lookup_none
    rw [not_firstAt_iff]
    intro k _ _
    unfold slotHolds
    rw [slotDir_iBlock]
    by_cases hk : k = 12
    · -- the length of the first entry is taken from the second word of the table
      rw [if_pos hk]
      decide +kernel
    · rw [if_neg hk, if_pos rfl]
  refine ⟨fun k _ hk => ?_, hheld, hnone, fun hexact => ?_⟩
  · rw [hmap] at hk ⊢
    split at hk
    · rename_i h12
      rw [if_pos h12]
      exact entryDisk_entries
    · exact absurd rfl hk
  · have hfound := hexact.1 7 hheld
    rw [hnone] at hfound
    exact Option.some_ne_none _ hfound.symm

end Rpos
