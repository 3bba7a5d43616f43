import Mathlib.Data.Nat.Log
import Rpos.Filesystem.Read

/-!
# The ELF loader

The loading part of `readelf` of `elf.c`: the headers are read into a block of
their own, each segment's pages are mapped, and its bytes go through the
scratch block to the user's pages. User and kernel addresses are one flat
memory; a freshly mapped page holds whatever it holds.
-/

namespace Rpos

open Base ByteMem

/-- `elf64_program_header`, as far as the loader uses it. -/
structure ProgramHeader where
  pType : ℕ
  pOffset : ℕ
  pVaddr : ℕ
  pFilesz : ℕ
  pMemsz : ℕ
  deriving DecidableEq

def programHeader (bytes : ℕ → UInt8) (a : ℕ) : ProgramHeader where
  pType := leNat bytes a 4
  pOffset := leNat bytes (a + 8) 8
  pVaddr := leNat bytes (a + 16) 8
  pFilesz := leNat bytes (a + 32) 8
  pMemsz := leNat bytes (a + 40) 8

def elfMagic : ℕ := 0x464c457f
def ptLoad : ℕ := 1

/-- The block that `kmalloc` returned for the headers, and what the pages hold
that are mapped for the `i`-th program header. -/
structure ElfEnv where
  block : ℕ
  fresh : ℕ → ByteMem

namespace ProgramHeader

def pages (ph : ProgramHeader) : ℕ := 2 ^ Nat.log2 (ph.pMemsz / 4096)

def base (ph : ProgramHeader) : ℕ := ph.pVaddr / 4096 * 4096

end ProgramHeader

/-- Map the pages of a segment, one by one from the page of `p_vaddr` on. -/
def mapSegment (m fresh : ByteMem) (ph : ProgramHeader) : ByteMem :=
  m.store ph.base (ph.pages * 4096) fun i => fresh (ph.base + i)

def loadSegment (v : Volume) (fresh : ByteMem) (ph : ProgramHeader) (m : ByteMem)
    (file : FileT) : Option (ByteMem × FileT) :=
  let m := mapSegment m fresh ph
  let file := { file with pos := ph.pOffset }
  match read v m file v.blockBuf ph.pFilesz with
  | none => none
  | some (_, m, file) =>
      let inPageOffset := ph.pVaddr % 4096
      some (memcpy m (ph.pVaddr + inPageOffset) v.blockBuf ph.pFilesz, file)

section Image

variable (d : Disk) (inode : Inode)

def elfPhoff : ℕ := leNat (fileByte d inode) 32 8
def elfPhnum : ℕ := leNat (fileByte d inode) 56 2

def elfHeader (i : ℕ) : ProgramHeader :=
  programHeader (fileByte d inode) (elfPhoff d inode + 56 * i)

/-- The memory image of a segment: the bytes of the file, then zeros. -/
structure SegmentLoaded (ph : ProgramHeader) (m : ByteMem) : Prop where
  file : ∀ j, j < ph.pFilesz → m (ph.pVaddr + j) = fileByte d inode (ph.pOffset + j)
  zero : ∀ j, ph.pFilesz ≤ j → j < ph.pMemsz → m (ph.pVaddr + j) = 0

end Image

/-- An ELF file that is opened and about to be loaded: all program headers are
`PT_LOAD`, the file's blocks are direct, the loader maps every page of each
segment and no page for two, and user addresses lie below the kernel's
buffers, which are two objects. -/
structure Loadable (v : Volume) (env : ElfEnv) (file : FileT) : Prop where
  start : file.pos = 0
  magic : leNat (fileByte v.disk file.inode) 0 4 = elfMagic
  load : ∀ i, i < elfPhnum v.disk file.inode →
    (elfHeader v.disk file.inode i).pType = ptLoad
  filesz_le : ∀ i, i < elfPhnum v.disk file.inode →
    (elfHeader v.disk file.inode i).pFilesz ≤ (elfHeader v.disk file.inode i).pMemsz
  direct : ∀ i, i < elfPhnum v.disk file.inode →
    (elfHeader v.disk file.inode i).pOffset < 12 * 4096 ∧
      (elfHeader v.disk file.inode i).pOffset + (elfHeader v.disk file.inode i).pFilesz
        ≤ 12 * 4096
  mapped : ∀ i, i < elfPhnum v.disk file.inode →
    (elfHeader v.disk file.inode i).pVaddr + (elfHeader v.disk file.inode i).pMemsz
      ≤ (elfHeader v.disk file.inode i).base + (elfHeader v.disk file.inode i).pages * 4096
  pages_apart : ∀ i j, i < elfPhnum v.disk file.inode → j < elfPhnum v.disk file.inode →
    i ≠ j → ApartFrom (elfHeader v.disk file.inode i).base
      ((elfHeader v.disk file.inode i).pages * 4096) (elfHeader v.disk file.inode j).base
      ((elfHeader v.disk file.inode j).pages * 4096)
  user : ∀ i, i < elfPhnum v.disk file.inode →
    (elfHeader v.disk file.inode i).base + (elfHeader v.disk file.inode i).pages * 4096
      ≤ 2 ^ 48
  kernel : 2 ^ 48 < v.blockBuf ∧ 2 ^ 48 < env.block
  buffers : ApartFrom env.block 4096 v.blockBuf 4096

/-- What the loader gets right. A segment with bytes in the file starts on a
page boundary; those bytes lie in one block of the file, or every further block
is a hole that is cleared within the scratch block, where `memset` stores 16
bytes at least; and the fresh pages are zero where the file has no bytes. -/
structure SegmentOk (inode : Inode) (fresh : ByteMem) (ph : ProgramHeader) : Prop where
  aligned : ph.pFilesz ≠ 0 → ph.pVaddr % 4096 = 0
  oneBlock : ∀ k, ph.pOffset / 4096 < k → k * 4096 < ph.pOffset + ph.pFilesz →
    inode.iBlock k = 0 ∧ k * 4096 - ph.pOffset
      + max 16 (ph.pOffset + ph.pFilesz - k * 4096) ≤ 4096
  zero : ∀ j, ph.pFilesz ≤ j → j < ph.pMemsz → fresh (ph.pVaddr + j) = 0

/-! ## Reading into the scratch block -/

theorem SegmentOk.filesz_le {inode : Inode} {fresh : ByteMem} {ph : ProgramHeader}
    (h : SegmentOk inode fresh ph) : ph.pFilesz ≤ 4096 := by
  by_contra hlt
  have := h.oneBlock (ph.pOffset / 4096 + 1) (by omega) (by omega)
  omega

theorem fileByte_direct (d : Disk) (inode : Inode) {p : ℕ} (hp : p < 12 * 4096) :
    fileByte d inode p = blockData d (inode.iBlock (p / 4096)) (p % 4096) := by
  unfold fileByte blockOf
  rw [if_pos (by omega)]

/-- A read from the direct blocks that does not disturb its own destination. -/
theorem read_direct {v : Volume} {m : ByteMem} (file : FileT) {buf count e : ℕ}
    (hbuf : buf ≠ 0) (hcount : 0 < count) (hend : file.pos + count ≤ 12 * 4096)
    (he : ∀ b, b < count → b = 0 ∨ (file.pos + b) % 4096 = 0 →
      b + max 16 (count - b) ≤ e)
    (hsafe : ∀ b, b < count → b = 0 ∨ (file.pos + b) % 4096 = 0 →
      Undisturbed v buf count b (file.inode.iBlock ((file.pos + b) / 4096))) :
    ∃ r m' file', read v m file buf count = some (r, m', file') ∧
      file'.inode = file.inode ∧
      (∀ j, j < count → m' (buf + j) = fileByte v.disk file.inode (file.pos + j)) ∧
      ∀ a, a < buf ∨ buf + e ≤ a → a < v.blockBuf ∨ v.blockBuf + 4096 ≤ a → m' a = m a := by
  have hblock : file.pos / 4096 % 2 ^ 32 = file.pos / 4096 :=
    Nat.mod_eq_of_lt (by omega)
  obtain ⟨r, m', file', hrun, hr, hdel, hframe⟩ := readDirectLoop_spec (v := v) he hsafe
    (15 - file.pos / 4096) 0 m file hcount (Or.inl rfl) (by simp) (by simp; omega)
    (Delivered.nothing v _ file buf m)
  simp only [Nat.add_zero] at hrun
  refine ⟨r, m', file', ?_, ?_, fun j hj => ?_, hframe⟩
  · unfold read
    simp only [if_neg hbuf, hblock]
    rw [if_pos (by omega), readDirect, hblock, hrun]
  · rw [hdel.file_eq]
  · rw [fileByte_direct _ _ (by omega)]
    exact hdel.bytes j (by omega)

/-- A read of no bytes into the scratch block touches nothing else. -/
theorem read_nothing {v : Volume} {m : ByteMem} (file : FileT) (hbuf : v.blockBuf ≠ 0)
    (hpos : file.pos < 12 * 4096) :
    ∃ m', read v m file v.blockBuf 0 = some (0, m', file) ∧
      ∀ a, a < v.blockBuf ∨ v.blockBuf + 4096 ≤ a → m' a = m a := by
  have hblock : file.pos / 4096 % 2 ^ 32 = file.pos / 4096 :=
    Nat.mod_eq_of_lt (by omega)
  have hfwd : file.inode.iBlock (file.pos / 4096) ≠ 0 →
      Forward v.blockBuf (v.blockBuf + file.pos % 4096)
        (min 0 (4096 - file.pos % 4096)) := fun _ => Or.inl (by omega)
  obtain ⟨m', hrun, -⟩ := readFileBlock_data (m := m) hfwd
  have hframe := fun a => readFileBlock_frame hfwd hrun (a := a)
  simp only [Nat.zero_min, Nat.add_zero] at hrun
  refine ⟨m', ?_, fun a ha => hframe a (by omega) fun _ => ha⟩
  unfold read
  simp only [if_neg hbuf, hblock]
  rw [if_pos (by omega), readDirect, hblock,
    show 15 - file.pos / 4096 = 14 - file.pos / 4096 + 1 by omega, readDirectLoop,
    Nat.add_zero, Nat.sub_zero, hrun]
  rfl

/-! ## One segment -/

/-- Loading a segment that is `SegmentOk` puts its image in place and touches
only its pages and the scratch block. -/
theorem loadSegment_spec {v : Volume} {m fresh : ByteMem} {file : FileT}
    {ph : ProgramHeader} (hok : SegmentOk file.inode fresh ph)
    (hoffset : ph.pOffset < 12 * 4096) (hdirect : ph.pOffset + ph.pFilesz ≤ 12 * 4096)
    (hle : ph.pFilesz ≤ ph.pMemsz)
    (hmapped : ph.pVaddr + ph.pMemsz ≤ ph.base + ph.pages * 4096)
    (huser : ph.base + ph.pages * 4096 ≤ 2 ^ 48) (hkernel : 2 ^ 48 < v.blockBuf) :
    ∃ m' file', loadSegment v fresh ph m file = some (m', file') ∧
      file'.inode = file.inode ∧ SegmentLoaded v.disk file.inode ph m' ∧
      ∀ a, a < ph.base ∨ ph.base + ph.pages * 4096 ≤ a →
        a < v.blockBuf ∨ v.blockBuf + 4096 ≤ a → m' a = m a := by
  have hbase : ph.base ≤ ph.pVaddr := Nat.div_mul_le_self _ _
  have hsmall := hok.filesz_le
  set m₁ := mapSegment m fresh ph with hm₁
  have hfresh : ∀ j, j < ph.pMemsz → m₁ (ph.pVaddr + j) = fresh (ph.pVaddr + j) := by
    intro j hj
    have hat : m₁ (ph.base + (ph.pVaddr + j - ph.base)) =
        fresh (ph.base + (ph.pVaddr + j - ph.base)) :=
      store_apply (ph.pages * 4096) (fun i => fresh (ph.base + i)) (by omega)
    rw [show ph.base + (ph.pVaddr + j - ph.base) = ph.pVaddr + j by omega] at hat
    exact hat
  have hmap : ∀ a, a < ph.base ∨ ph.base + ph.pages * 4096 ≤ a → m₁ a = m a :=
    fun a ha => store_other _ _ ha
  by_cases hz : ph.pFilesz = 0
  · obtain ⟨m₂, hread, hframe⟩ := read_nothing (v := v) (m := m₁)
      { file with pos := ph.pOffset } (by omega) hoffset
    refine ⟨m₂, { file with pos := ph.pOffset }, ?_, rfl, ⟨fun j hj => ?_, fun j hj hjm => ?_⟩,
      fun a ha hs => ?_⟩
    · unfold loadSegment
      simp only [hz, ← hm₁, hread]
      rw [memcpy_eq (by omega) (show Forward _ _ 0 from le_total _ _), move_zero]
    · omega
    · rw [hframe _ (by omega), hfresh j hjm]
      exact hok.zero j hj hjm
    · rw [hframe a hs, hmap a ha]
  · have haligned := hok.aligned hz
    have hvaddr : ph.pVaddr + ph.pVaddr % 4096 = ph.pVaddr := by omega
    obtain ⟨r, m₂, file₂, hread, hinode, hdata, hframe⟩ := read_direct (v := v) (m := m₁)
      { file with pos := ph.pOffset } (e := 4096) (show v.blockBuf ≠ 0 by omega)
      (show 0 < ph.pFilesz by omega) hdirect
      (fun b hb hstart => by
        rcases hstart with rfl | hstart
        · omega
        · by_cases hb0 : b = 0
          · omega
          · have hblock : (ph.pOffset + b) / 4096 * 4096 = ph.pOffset + b :=
              Nat.div_mul_cancel (Nat.dvd_of_mod_eq_zero hstart)
            have := (hok.oneBlock ((ph.pOffset + b) / 4096) (by omega) (by omega)).2
            rw [hblock] at this
            omega)
      (fun b hb hstart hne => by
        refine Or.inr ⟨rfl, ?_⟩
        rcases hstart with rfl | hstart
        · rfl
        · by_contra hb0
          exact hne (hok.oneBlock ((ph.pOffset + b) / 4096) (by simp only at hstart; omega)
            (by simp only at hstart; omega)).1)
    refine ⟨m₂.move ph.pVaddr v.blockBuf ph.pFilesz, file₂, ?_, hinode,
      ⟨fun j hj => ?_, fun j hj hjm => ?_⟩, fun a ha hs => ?_⟩
    · unfold loadSegment
      simp only [← hm₁, hread, hvaddr]
      rw [memcpy_eq (by omega) (Or.inl (by omega))]
    · rw [move, store_apply _ _ hj]
      exact hdata j hj
    · rw [move, store_other _ _ (by omega), hframe _ (by omega) (by omega), hfresh j hjm]
      exact hok.zero j hj hjm
    · rw [move, store_other _ _ (by omega), hframe a (by omega) hs, hmap a ha]

/-! ## The loader -/

/-- The headers as `readelf` sees them: the first block of the file. -/
def HeaderRead (v : Volume) (env : ElfEnv) (inode : Inode) (m : ByteMem) : Prop :=
  ∀ j, j < 4096 → m (env.block + j) = fileByte v.disk inode j

theorem HeaderRead.leNat {v : Volume} {env : ElfEnv} {inode : Inode} {m : ByteMem}
    (h : HeaderRead v env inode m) {a n : ℕ} (ha : a + n ≤ 4096) :
    leNat m (env.block + a) n = leNat (fileByte v.disk inode) a n := by
  refine leNat_congr n fun i hi => ?_
  rw [Nat.add_assoc]
  exact h (a + i) (by omega)

theorem HeaderRead.programHeader {v : Volume} {env : ElfEnv} {inode : Inode} {m : ByteMem}
    (h : HeaderRead v env inode m) {a : ℕ} (ha : a + 48 ≤ 4096) :
    programHeader m (env.block + a) = programHeader (fileByte v.disk inode) a := by
  unfold Rpos.programHeader
  rw [h.leNat (by omega), Nat.add_assoc, h.leNat (by omega), Nat.add_assoc,
    h.leNat (by omega), Nat.add_assoc, h.leNat (by omega), Nat.add_assoc,
    h.leNat (by omega)]

structure LoaderInv (v : Volume) (env : ElfEnv) (inode : Inode) (i : ℕ) (m : ByteMem)
    (file : FileT) : Prop where
  inode_eq : file.inode = inode
  header : HeaderRead v env inode m
  loaded : ∀ k, k < i → SegmentLoaded v.disk inode (elfHeader v.disk inode k) m

/-- Memory that agrees on the pages of a segment holds the same image. -/
theorem SegmentLoaded.congr {d : Disk} {inode : Inode} {ph : ProgramHeader}
    {m m' : ByteMem} (h : SegmentLoaded d inode ph m) (hle : ph.pFilesz ≤ ph.pMemsz)
    (hm : ∀ j, j < ph.pMemsz → m' (ph.pVaddr + j) = m (ph.pVaddr + j)) :
    SegmentLoaded d inode ph m' where
  file := fun j hj => (hm j (by omega)).trans (h.file j hj)
  zero := fun j hj hjm => (hm j hjm).trans (h.zero j hj hjm)

section Loader

variable {v : Volume} {env : ElfEnv} {file₀ : FileT}

theorem LoaderInv.step (hf : Loadable v env file₀)
    (hok : ∀ i, i < elfPhnum v.disk file₀.inode →
      SegmentOk file₀.inode (env.fresh i) (elfHeader v.disk file₀.inode i))
    {i : ℕ} (hi : i < elfPhnum v.disk file₀.inode) {m : ByteMem} {file : FileT}
    (h : LoaderInv v env file₀.inode i m file) :
    ∃ m' file', loadSegment v (env.fresh i) (elfHeader v.disk file₀.inode i) m file
        = some (m', file') ∧ LoaderInv v env file₀.inode (i + 1) m' file' := by
  obtain ⟨hkb, hke⟩ := hf.kernel
  have hbuffers := hf.buffers
  have huser := hf.user i hi
  have hoki : SegmentOk file.inode (env.fresh i) (elfHeader v.disk file₀.inode i) := by
    rw [h.inode_eq]
    exact hok i hi
  obtain ⟨m', file', hrun, hinode, hload, hframe⟩ := loadSegment_spec (m := m) hoki
    (hf.direct i hi).1 (hf.direct i hi).2 (hf.filesz_le i hi) (hf.mapped i hi) huser hkb
  rw [h.inode_eq] at hload
  refine ⟨m', file', hrun, hinode.trans h.inode_eq, fun j hj => ?_, fun k hk => ?_⟩
  · unfold ApartFrom at hbuffers
    rw [hframe _ (by omega) (by omega)]
    exact h.header j hj
  · by_cases hki : k = i
    · exact hki ▸ hload
    · have hkn : k < elfPhnum v.disk file₀.inode := by omega
      have hapart := hf.pages_apart k i hkn hi hki
      have hmapped := hf.mapped k hkn
      have hukn := hf.user k hkn
      have hbase : (elfHeader v.disk file₀.inode k).base
          ≤ (elfHeader v.disk file₀.inode k).pVaddr := Nat.div_mul_le_self _ _
      refine (h.loaded k (by omega)).congr (hf.filesz_le k hkn) fun j hj => ?_
      unfold ApartFrom at hapart
      exact hframe _ (by omega) (by omega)

end Loader

end Rpos
