import Rpos.Filesystem.Elf
import Rpos.System.Vma

/-!
# The loop over the program headers

Which headers the loop of `readelf` loads, and where it puts the break. The loop
has a counter and a pointer to the header it looks at. The `continue` for a header
of another type leaves the pointer where it is, so that every later round looks at
the same header again. The headers are read from the block that `readelf` has read,
the first 4096 bytes of the file.
-/

namespace Rpos

open Base ByteMem

/-! ## §1  The loop -/

/-- `ALIGN_UP(p_vaddr + p_memsz, PAGE_SIZE)`. -/
def ProgramHeader.brkEnd (ph : ProgramHeader) : ℕ :=
  (alignUpPage (BitVec.ofNat 64 (ph.pVaddr + ph.pMemsz))).toNat

/-- `start_brk`, and the program headers whose segments have been loaded, each with
the address that it was read from, in order. -/
structure Loading where
  startBrk : ℕ
  loaded : List (ℕ × ProgramHeader)
  deriving DecidableEq

def Loading.load (r : Loading) (entry : ℕ × ProgramHeader) : Loading where
  startBrk := max entry.2.brkEnd r.startBrk
  loaded := r.loaded ++ [entry]

/-- Loading the segment leaves the header block alone: the pages that are mapped, the
read into the scratch block and the copy all lie elsewhere. -/
structure ClearOfHeaders (v : Volume) (env : ElfEnv) (ph : ProgramHeader) : Prop where
  pages : ApartFrom env.block 4096 ph.base (ph.pages * 4096)
  scratch : ApartFrom env.block 4096 v.blockBuf (max 4096 (ph.pFilesz + 16))
  copy : ApartFrom env.block 4096 (ph.pVaddr + ph.pVaddr % 4096) ph.pFilesz

theorem ClearOfHeaders.load {v : Volume} {env : ElfEnv} {ph : ProgramHeader}
    (h : ClearOfHeaders v env ph) (htable : v.table ≠ none) (fresh m : ByteMem)
    (file : FileT) :
    ∃ m' file', loadSegment v fresh ph m file = some (m', file') ∧
      file'.inode = file.inode ∧ ∀ j, j < 4096 → m' (env.block + j) = m (env.block + j) := by
  obtain ⟨hpages, hscratch, hcopy⟩ := h
  obtain ⟨⟨n, m', file'⟩, hread, hinode, hmem⟩ := read_changesOnly htable
    (mapSegment m fresh ph) { file with pos := ph.pOffset } v.blockBuf ph.pFilesz
  refine ⟨_, file', by rw [loadSegment, hread], hinode, fun j hj => ?_⟩
  unfold ApartFrom at hpages hscratch hcopy
  have hscratch' : m' (env.block + j) = mapSegment m fresh ph (env.block + j) := by
    apply hmem
    rw [readTouches, Set.mem_union, Set.mem_Ico, Set.mem_Ico]
    omega
  rw [memcpy_changesOnly m' _ v.blockBuf ph.pFilesz _ (by rw [Set.mem_Ico]; omega),
    hscratch']
  exact store_other _ _ (by omega)

/-! ## §3  Which tables are loaded -/

section Table

variable {v : Volume} {env : ElfEnv} {file₀ : FileT}

def ProgramHeader.used (ph : ProgramHeader) : ℕ := if ph.pType = ptLoad then 48 else 4

end Table

end Rpos
