import Mathlib.Logic.Function.Basic
import Rpos.Base.Runs
import Rpos.Filesystem.Disk

/-!
# Opening and closing files

`open` and `close` of `filesystem.c` with the path resolution of `disk.c`, over
the objects that `kmalloc` has handed out. An object is named by its pointer;
which pointer a `kmalloc` returns is left open, except that it is not in use.
-/

namespace Rpos

open Base ByteMem

/-- The bytes of an `ext4_inode`. -/
abbrev InodeData := ℕ → UInt8

/-- `rootfs` and the geometry that `filesystem_init` reads. -/
structure Rootfs where
  disk : Disk
  rootInode : InodeData
  blockSize : ℕ
  inodeSize : ℕ
  inodesPerGroup : ℕ
  inodeTable : ℕ → ℕ

/-- `inode_to_sector`: the sector of an inode and its offset there. -/
def inodeToSector (fs : Rootfs) (inodeNum : ℕ) : ℕ × ℕ :=
  let group := (inodeNum - 1) / fs.inodesPerGroup
  let index := (inodeNum - 1) % fs.inodesPerGroup
  let inodeOffset := index * fs.inodeSize
  (fsStartSector.toNat + (fs.inodeTable group + inodeOffset / fs.blockSize) * 8,
    inodeOffset % fs.blockSize)

def readInode (fs : Rootfs) (buf : InodeData) (inodeNum : ℕ) : InodeData := fun i =>
  let (sector, offset) := inodeToSector fs inodeNum
  if i < fs.inodeSize then
    fs.disk (BitVec.ofNat 32 (sector + (offset + i) / 512)) ((offset + i) % 512)
  else buf i

def cString (bytes : ℕ → UInt8) (a n : ℕ) : List UInt8 :=
  ((List.range n).map fun i => bytes (a + i)).takeWhile (· ≠ 0)

/-- The loop of `inode_from_directory`: an entry has at least one byte, so 4096
rounds are enough. -/
def inodeFromDirectory (dir : ℕ → UInt8) (name : List UInt8) : ℕ → ℕ → Option ℕ
  | 0, _ => none
  | fuel + 1, offset =>
      if offset < 4096 then
        let inode := leNat dir offset 4
        let recLen := leNat dir (offset + 4) 2
        let nameLen := (dir (offset + 6)).toNat
        if recLen = 0 then none
        else if inode = 0 then inodeFromDirectory dir name fuel (offset + recLen)
        else if cString dir (offset + 8) nameLen = name then some inode
        else inodeFromDirectory dir name fuel (offset + recLen)
      else none

/-- `lookup`: the inode that replaces the directory's in the same buffer. -/
def lookup (fs : Rootfs) (dirnode : InodeData) (name : List UInt8) : Option InodeData :=
  (List.range 15).findSome? fun i =>
    let block : BlockNo := BitVec.ofNat 32 (leNat dirnode (40 + 4 * i) 4)
    if block = 0 then none
    else
      (inodeFromDirectory (blockByte fs.disk block) name 4096 0).map
        (readInode fs dirnode)

def delimiter : UInt8 := 47

def tokens (path : List UInt8) : List (List UInt8) :=
  (path.splitOn delimiter).filter (· ≠ [])

def resolve (fs : Rootfs) (path : List UInt8) : Option InodeData :=
  (tokens path).foldlM (lookup fs) fs.rootInode

inductive KObject
  | string (s : List UInt8)
  | inode (x : InodeData)
  | file (inode : ℕ)
  | other

/-- The objects in use, by pointer, and the files that `open` has returned and
`close` has not taken back, each with the inode that its path resolved to. -/
structure OpenState where
  heap : ℕ → Option KObject
  opened : List (ℕ × InodeData)

namespace OpenState

def Fresh (s : OpenState) (p : ℕ) : Prop := p ≠ 0 ∧ s.heap p = none

instance (s : OpenState) (p : ℕ) : Decidable (s.Fresh p) :=
  inferInstanceAs (Decidable (_ ∧ _))

def put (s : OpenState) (p : ℕ) (o : KObject) : OpenState :=
  { s with heap := Function.update s.heap p (some o) }

def kfree (s : OpenState) (p : ℕ) : OpenState :=
  { s with heap := Function.update s.heap p none }

end OpenState

/-- `open`. The pointers are what its three calls of `kmalloc` return, 0 on
failure. The result is the `file_t`, or 0. -/
def openFile (fs : Rootfs) (s : OpenState) (pathname : List UInt8)
    (str nodeptr file : ℕ) : Option (ℕ × OpenState) :=
  if str = 0 then some (0, s)
  else if ¬ s.Fresh str then none
  else
    let s := s.put str (.string pathname)
    if nodeptr = 0 then
      -- the copy of the root inode would go through a null pointer
      if pathname.head? = some delimiter then none else some (0, s)
    else if ¬ s.Fresh nodeptr then none
    else
      let s := s.put nodeptr (.inode fs.rootInode)
      if pathname.head? ≠ some delimiter then some (0, s)
      else
        match resolve fs pathname with
        | none => some (0, s)
        | some x =>
            let s := (s.put nodeptr (.inode x)).kfree str
            if ¬ s.Fresh file then none
            else
              let s := (s.put file (.file nodeptr)).kfree nodeptr
              some (file, { s with opened := (file, x) :: s.opened })

def closeFile (s : OpenState) (file : ℕ) : Option (ℕ × OpenState) :=
  match s.heap file with
  | some (.file inode) =>
      let s := (s.kfree inode).kfree file
      some (0, { s with opened := s.opened.filter fun f => f.1 ≠ file })
  | _ => none

inductive OpenOp
  | open (pathname : List UInt8) (str nodeptr file : ℕ)
  | close (file : ℕ)
  | kmalloc (p : ℕ)
  | kfree (p : ℕ)

/-- One call. A file is closed, and an object freed, by its holder only. -/
def openStep (fs : Rootfs) (s : OpenState) : OpenOp → Option (ℕ × OpenState)
  | .open pathname str nodeptr file => openFile fs s pathname str nodeptr file
  | .close file => if ∃ f ∈ s.opened, f.1 = file then closeFile s file else none
  | .kmalloc p =>
      if p = 0 then some (0, s)
      else if s.Fresh p then some (p, s.put p .other)
      else none
  | .kfree p =>
      match s.heap p with
      | some .other => some (0, s.kfree p)
      | _ => none

/-! ## Ownership -/

/-- Every open file is a live `file_t` whose inode pointer leads to a live
object, its own, that holds the inode its path resolved to. -/
def Owned (s : OpenState) : Prop :=
  ∀ f ∈ s.opened, ∃ inode, s.heap f.1 = some (.file inode) ∧
    s.heap inode = some (.inode f.2)

/-- What `close` frees is live: the `file_t` and, apart from it, its inode. -/
def FreesLive (s : OpenState) : OpenOp → Prop
  | .close file => ∃ inode x, s.heap file = some (.file inode) ∧
      s.heap inode = some (.inode x)
  | _ => True

/-- The call is an `open` whose path is absolute and resolves, and whose copy
of the path can be allocated. -/
def Resolves (fs : Rootfs) : OpenOp → Prop
  | .open pathname str _ _ =>
      str ≠ 0 ∧ pathname.head? = some delimiter ∧ (resolve fs pathname).isSome
  | _ => False

theorem OpenState.fresh_put {s : OpenState} {p q : ℕ} {o : KObject}
    (h : (s.put p o).Fresh q) : q ≠ p := by
  intro heq
  have hnone := h.2
  simp [heq, OpenState.put] at hnone

/-- `open` returns NULL and opens nothing, or it returns a file whose inode it
has just freed. -/
theorem openFile_cases {fs : Rootfs} {s s' : OpenState} {pathname : List UInt8}
    {str nodeptr file w : ℕ}
    (hopen : openFile fs s pathname str nodeptr file = some (w, s')) :
    (¬ Resolves fs (.open pathname str nodeptr file) ∧ s'.opened = s.opened) ∨
    (Resolves fs (.open pathname str nodeptr file) ∧ ∃ x,
      s'.opened = (file, x) :: s.opened ∧ s'.heap nodeptr = none ∧
      s'.heap file = some (.file nodeptr)) := by
  unfold openFile at hopen
  unfold Resolves
  by_cases hstr : str = 0
  · simp only [if_pos hstr, Option.some.injEq, Prod.mk.injEq] at hopen
    exact Or.inl ⟨fun h => h.1 hstr, by rw [← hopen.2]⟩
  rw [if_neg hstr] at hopen
  by_cases hfs : s.Fresh str
  swap
  · simp [hfs] at hopen
  rw [if_neg (not_not.mpr hfs)] at hopen
  simp only at hopen
  by_cases hhead : pathname.head? = some delimiter
  swap
  · refine Or.inl ⟨fun h => hhead h.2.1, ?_⟩
    by_cases hnode : nodeptr = 0
    · simp only [if_pos hnode, if_neg hhead, Option.some.injEq, Prod.mk.injEq] at hopen
      rw [← hopen.2]
      rfl
    · rw [if_neg hnode] at hopen
      split at hopen
      · simp at hopen
      · rw [Option.some.injEq, Prod.mk.injEq] at hopen
        rw [← hopen.2]
        rfl
  by_cases hnode : nodeptr = 0
  · simp [hnode, hhead] at hopen
  rw [if_neg hnode] at hopen
  by_cases hfn : (s.put str (.string pathname)).Fresh nodeptr
  swap
  · simp [hfn] at hopen
  rw [if_neg (not_not.mpr hfn), if_neg (not_not.mpr hhead)] at hopen
  cases hres : resolve fs pathname with
  | none =>
      simp only [hres, Option.some.injEq, Prod.mk.injEq] at hopen
      refine Or.inl ⟨fun h => by simp [hres] at h, ?_⟩
      rw [← hopen.2]
      rfl
  | some x =>
      simp only [hres] at hopen
      split at hopen
      · simp at hopen
      · rename_i hff
        rw [not_not] at hff
        simp only [Option.some.injEq, Prod.mk.injEq] at hopen
        have hns : nodeptr ≠ str := OpenState.fresh_put hfn
        have hfile : file ≠ nodeptr := by
          intro heq
          have hnone := hff.2
          simp only [OpenState.kfree, OpenState.put, heq] at hnone
          rw [Function.update_of_ne hns, Function.update_self] at hnone
          simp at hnone
        refine Or.inr ⟨⟨hstr, hhead, by rw [hres]; rfl⟩, x, ?_⟩
        rw [← hopen.2]
        refine ⟨rfl, Function.update_self _ _ _, ?_⟩
        simp [OpenState.kfree, OpenState.put, hfile]

/-- As long as nothing is open: a call frees only what is live and leaves every
file owned exactly when it opens none. -/
theorem openStep_owned_iff {fs : Rootfs} {s s' : OpenState} {op : OpenOp} {w : ℕ}
    (hs : s.opened = []) (hstep : openStep fs s op = some (w, s')) :
    (Owned s' ∧ FreesLive s op ↔ ¬ Resolves fs op) ∧
      (¬ Resolves fs op → s'.opened = []) := by
  have hlive : FreesLive s op := by
    cases op with
    | close file =>
        have hno : ¬ ∃ f ∈ s.opened, f.1 = file := by simp [hs]
        rw [openStep, if_neg hno] at hstep
        simp at hstep
    | _ => trivial
  rw [and_iff_left hlive]
  have hcases : (¬ Resolves fs op ∧ s'.opened = []) ∨
      (Resolves fs op ∧ ∃ file x inode, s'.opened = [(file, x)] ∧
        s'.heap inode = none ∧ s'.heap file = some (.file inode)) := by
    cases op with
    | «open» pathname str nodeptr file =>
        rcases openFile_cases hstep with ⟨hno, hopened⟩ | ⟨hyes, x, hopened, hfree, hfile⟩
        · exact Or.inl ⟨hno, hopened.trans hs⟩
        · exact Or.inr ⟨hyes, file, x, nodeptr, by rw [hopened, hs], hfree, hfile⟩
    | close file =>
        have hno : ¬ ∃ f ∈ s.opened, f.1 = file := by simp [hs]
        rw [openStep, if_neg hno] at hstep
        simp at hstep
    | kmalloc p =>
        refine Or.inl ⟨fun h => h, ?_⟩
        simp only [openStep] at hstep
        split at hstep
        · simp only [Option.some.injEq, Prod.mk.injEq] at hstep
          rw [← hstep.2, hs]
        · split at hstep
          · simp only [Option.some.injEq, Prod.mk.injEq] at hstep
            rw [← hstep.2]
            exact hs
          · simp at hstep
    | kfree p =>
        refine Or.inl ⟨fun h => h, ?_⟩
        simp only [openStep] at hstep
        split at hstep
        · simp only [Option.some.injEq, Prod.mk.injEq] at hstep
          rw [← hstep.2]
          exact hs
        · simp at hstep
  rcases hcases with ⟨hno, hempty⟩ | ⟨hyes, file, x, inode, hopened, hfree, hfile⟩
  · refine ⟨iff_of_true (fun f hf => ?_) hno, fun _ => hempty⟩
    rw [hempty] at hf
    simp at hf
  · refine ⟨iff_of_false (fun howned => ?_) (not_not.mpr hyes), fun hno => absurd hyes hno⟩
    obtain ⟨i, hi, hnode⟩ := howned (file, x) (by rw [hopened]; exact List.mem_singleton_self _)
    rw [hfile, Option.some.injEq, KObject.file.injEq] at hi
    rw [← hi, hfree] at hnode
    simp at hnode

/-- From a state without open files, in every run: the files own their inodes
after every call, and `close` frees each object once, exactly when no call opens
a file. -/
theorem files_owned_iff (fs : Rootfs) (s₀ : OpenState) (hs₀ : s₀.opened = [])
    (ops : List OpenOp) :
    Along (openStep fs) (fun s op _ s' => Owned s' ∧ FreesLive s op) s₀ ops ↔
      Along (openStep fs) (fun _ op _ _ => ¬ Resolves fs op) s₀ ops := by
  have hstep : ∀ s op w s', s.opened = [] → openStep fs s op = some (w, s') →
      (Owned s' ∧ FreesLive s op ↔ ¬ Resolves fs op) ∧
        (¬ Resolves fs op → s'.opened = []) :=
    fun _ _ _ _ hs hstep => openStep_owned_iff hs hstep
  exact along_iff_of_keeps hstep ops s₀ hs₀

def bareRoot : Rootfs where
  disk := fun _ _ => 0
  rootInode := fun _ => 0
  blockSize := 4096
  inodeSize := 256
  inodesPerGroup := 8192
  inodeTable := fun _ => 5

def noObjects : OpenState where
  heap := fun _ => none
  opened := []

theorem files_owned_iff_example :
    noObjects.opened = [] ∧
      (Along (openStep bareRoot) (fun s op _ s' => Owned s' ∧ FreesLive s op) noObjects
          [.open [97] 1 2 3, .kmalloc 4] ↔
        Along (openStep bareRoot) (fun _ op _ _ => ¬ Resolves bareRoot op) noObjects
          [.open [97] 1 2 3, .kmalloc 4]) :=
  ⟨rfl, files_owned_iff bareRoot noObjects rfl _⟩

/-- `open` of `/` in the fresh kernel returns a file; the next `kmalloc` may
return its inode buffer, and `close` then frees that allocation under its
holder. -/
theorem open_frees_inode :
    ∃ s₁ s₂ s₃, openStep bareRoot noObjects (.open [delimiter] 1 2 3) = some (3, s₁) ∧
      ¬ Owned s₁ ∧
      openStep bareRoot s₁ (.kmalloc 2) = some (2, s₂) ∧
      openStep bareRoot s₂ (.close 3) = some (0, s₃) ∧ s₃.heap 2 = none := by
  refine ⟨_, _, _, rfl, ?_, rfl, rfl, rfl⟩
  intro howned
  obtain ⟨inode, hfile, hlive⟩ := howned (3, fun _ => 0) (List.mem_singleton_self _)
  have hinode : inode = 2 := by
    have h : some (KObject.file 2) = some (KObject.file inode) := hfile
    rw [Option.some.injEq, KObject.file.injEq] at h
    exact h.symm
  rw [hinode] at hlive
  have hnone : (none : Option KObject) = some (.inode fun _ => 0) := hlive
  simp at hnone

/-! ## What `open` leaves behind -/

namespace OpenState

def live (s : OpenState) : Set ℕ := {p | s.heap p ≠ none}

variable {s : OpenState} {p : ℕ}

theorem fresh_iff : s.Fresh p ↔ p ≠ 0 ∧ p ∉ s.live :=
  and_congr_right fun _ => not_not.symm

theorem live_put (s : OpenState) (p : ℕ) (o : KObject) :
    (s.put p o).live = insert p s.live := by
  ext q
  show Function.update s.heap p (some o) q ≠ none ↔ q = p ∨ s.heap q ≠ none
  by_cases hq : q = p
  · rw [hq, Function.update_self]
    exact iff_of_true (Option.some_ne_none o) (Or.inl rfl)
  · rw [Function.update_of_ne hq, or_iff_right hq]

theorem live_kfree (s : OpenState) (p : ℕ) : (s.kfree p).live = s.live \ {p} := by
  ext q
  show Function.update s.heap p none q ≠ none ↔ s.heap q ≠ none ∧ q ≠ p
  by_cases hq : q = p
  · rw [hq, Function.update_self]
    exact iff_of_false (not_not_intro rfl) fun h => h.2 rfl
  · rw [Function.update_of_ne hq, and_iff_left hq]

end OpenState

/-- The path is absolute, and `lookup` finds every component. -/
def PathResolves (fs : Rootfs) (pathname : List UInt8) : Prop :=
  pathname.head? = some delimiter ∧ (resolve fs pathname).isSome

/-- What the three calls of `kmalloc` may return: 0, or an object not in use then. The
copy of the path has been freed before the last of them. -/
structure Allocations (s : OpenState) (str nodeptr file : ℕ) : Prop where
  path : str = 0 ∨ s.Fresh str
  inode : nodeptr = 0 ∨ s.Fresh nodeptr ∧ nodeptr ≠ str
  opened : file = 0 ∨ s.Fresh file ∧ file ≠ nodeptr

/-- `open` returns NULL and leaves the objects in use as they were, or its path resolves
and it adds a `file_t` and the inode of that. -/
def OpenTidy (fs : Rootfs) (s : OpenState) (pathname : List UInt8)
    (str nodeptr file : ℕ) : Prop :=
  ∃ w s', openFile fs s pathname str nodeptr file = some (w, s') ∧
    (w = 0 ∧ s'.live = s.live ∨
      w ≠ 0 ∧ PathResolves fs pathname ∧ ∃ inode, s'.heap w = some (.file inode) ∧
        s'.live = insert w (insert inode s.live))

section Leaks

variable {fs : Rootfs} {s : OpenState} {pathname : List UInt8} {str nodeptr file : ℕ}

/-- A path that does not resolve leaves the copy of the path and the inode buffer. -/
theorem openFile_unresolved (halloc : Allocations s str nodeptr file)
    (hpath : ¬ PathResolves fs pathname) (hstr : str ≠ 0) (hnode : nodeptr ≠ 0) :
    ∃ s', openFile fs s pathname str nodeptr file = some (0, s') ∧
      s'.live = insert nodeptr (insert str s.live) := by
  obtain ⟨hfn, hns⟩ := halloc.inode.resolve_left hnode
  have hfresh : (s.put str (.string pathname)).Fresh nodeptr := by
    rw [OpenState.fresh_iff, OpenState.live_put, Set.mem_insert_iff, not_or]
    exact ⟨hnode, hns, (OpenState.fresh_iff.mp hfn).2⟩
  refine ⟨(s.put str (.string pathname)).put nodeptr (.inode fs.rootInode), ?_, ?_⟩
  · unfold openFile
    rw [if_neg hstr, if_neg (not_not_intro (halloc.path.resolve_left hstr))]
    dsimp only
    rw [if_neg hnode, if_neg (not_not_intro hfresh)]
    by_cases hhead : pathname.head? = some delimiter
    · rw [if_neg (not_not_intro hhead)]
      have hnone : resolve fs pathname = none := by
        rw [← Option.not_isSome_iff_eq_none]
        exact fun hsome => hpath ⟨hhead, hsome⟩
      rw [hnone]
    · rw [if_pos hhead]
  · rw [OpenState.live_put, OpenState.live_put]

/-- A path that resolves adds the `file_t` only: `open` has freed the inode that this
refers to. -/
theorem openFile_resolved (halloc : Allocations s str nodeptr file)
    (hpath : PathResolves fs pathname) (hstr : str ≠ 0) (hnode : nodeptr ≠ 0)
    (hfile : file ≠ 0) :
    ∃ s', openFile fs s pathname str nodeptr file = some (file, s') ∧
      s'.heap file = some (.file nodeptr) ∧ nodeptr ∉ s'.live ∧
      s'.live = insert file s.live := by
  have hfs := halloc.path.resolve_left hstr
  obtain ⟨hfn, hns⟩ := halloc.inode.resolve_left hnode
  obtain ⟨hff, hfile'⟩ := halloc.opened.resolve_left hfile
  obtain ⟨hhead, hsome⟩ := hpath
  obtain ⟨x, hx⟩ := Option.isSome_iff_exists.mp hsome
  have hfresh : (s.put str (.string pathname)).Fresh nodeptr := by
    rw [OpenState.fresh_iff, OpenState.live_put, Set.mem_insert_iff, not_or]
    exact ⟨hnode, hns, (OpenState.fresh_iff.mp hfn).2⟩
  set s₁ := (((s.put str (.string pathname)).put nodeptr (.inode fs.rootInode)).put nodeptr
    (.inode x)).kfree str with hs₁
  have hlive : s₁.live = insert nodeptr s.live := by
    rw [hs₁, OpenState.live_kfree, OpenState.live_put, OpenState.live_put,
      OpenState.live_put, Set.insert_idem, Set.insert_comm,
      Set.insert_sdiff_of_mem _ (Set.mem_singleton str), Set.sdiff_singleton_eq_self]
    rw [Set.mem_insert_iff, not_or]
    exact ⟨hns.symm, (OpenState.fresh_iff.mp hfs).2⟩
  have hfresh₁ : s₁.Fresh file := by
    rw [OpenState.fresh_iff, hlive, Set.mem_insert_iff, not_or]
    exact ⟨hfile, hfile', (OpenState.fresh_iff.mp hff).2⟩
  have hlive₂ : ((s₁.put file (.file nodeptr)).kfree nodeptr).live = insert file s.live := by
    rw [OpenState.live_kfree, OpenState.live_put, hlive, Set.insert_comm,
      Set.insert_sdiff_of_mem _ (Set.mem_singleton nodeptr), Set.sdiff_singleton_eq_self]
    rw [Set.mem_insert_iff, not_or]
    exact ⟨hfile'.symm, (OpenState.fresh_iff.mp hfn).2⟩
  refine ⟨{ (s₁.put file (.file nodeptr)).kfree nodeptr with
    opened := (file, x) :: s₁.opened }, ?_, ?_, ?_, hlive₂⟩
  · unfold openFile
    rw [if_neg hstr, if_neg (not_not_intro hfs)]
    dsimp only
    rw [if_neg hnode, if_neg (not_not_intro hfresh), if_neg (not_not_intro hhead), hx]
    dsimp only
    rw [← hs₁, if_neg (not_not_intro hfresh₁)]
    rfl
  · show Function.update (Function.update s₁.heap file (some (KObject.file nodeptr)))
      nodeptr none file = some (.file nodeptr)
    rw [Function.update_of_ne hfile', Function.update_self]
  · show nodeptr ∉ ((s₁.put file (.file nodeptr)).kfree nodeptr).live
    rw [hlive₂, Set.mem_insert_iff, not_or]
    exact ⟨hfile'.symm, (OpenState.fresh_iff.mp hfn).2⟩

/-- Without memory for the inode or for the file, `open` writes through a null pointer;
a relative path returns before that, and leaves the copy of the path. -/
theorem openFile_no_memory (halloc : Allocations s str nodeptr file) (hstr : str ≠ 0)
    {w : ℕ} {s' : OpenState}
    (hopen : openFile fs s pathname str nodeptr file = some (w, s')) :
    (nodeptr = 0 → w = 0 ∧ s'.live = insert str s.live) ∧
      (PathResolves fs pathname → nodeptr ≠ 0 → file ≠ 0) := by
  unfold openFile at hopen
  rw [if_neg hstr, if_neg (not_not_intro (halloc.path.resolve_left hstr))] at hopen
  dsimp only at hopen
  constructor
  · intro hnode
    rw [if_pos hnode] at hopen
    split at hopen
    · simp at hopen
    · obtain ⟨⟩ := hopen
      exact ⟨rfl, OpenState.live_put _ _ _⟩
  · rintro ⟨hhead, hsome⟩ hnode rfl
    obtain ⟨x, hx⟩ := Option.isSome_iff_exists.mp hsome
    rw [if_neg hnode] at hopen
    split at hopen
    · simp at hopen
    · rw [if_neg (not_not_intro hhead), hx] at hopen
      dsimp only at hopen
      rw [if_pos fun h : OpenState.Fresh _ 0 => h.1 rfl] at hopen
      simp at hopen

/-- `open` is tidy only when there is no memory for the copy of its path. A path that does
not resolve leaves two objects behind, and one that does leaves the `file_t` alone. -/
theorem open_tidy_iff (halloc : Allocations s str nodeptr file) :
    (OpenTidy fs s pathname str nodeptr file ↔ str = 0) ∧
      (¬ PathResolves fs pathname → str ≠ 0 → nodeptr ≠ 0 →
        ∃ s', openFile fs s pathname str nodeptr file = some (0, s') ∧
          s'.live = insert nodeptr (insert str s.live)) ∧
      (PathResolves fs pathname → str ≠ 0 → nodeptr ≠ 0 → file ≠ 0 →
        ∃ s', openFile fs s pathname str nodeptr file = some (file, s') ∧
          s'.live = insert file s.live) := by
  refine ⟨⟨?_, fun hstr => ?_⟩, openFile_unresolved halloc, fun hpath hstr hnode hfile => ?_⟩
  · rintro ⟨w, s', hopen, htidy⟩
    by_contra hstr
    obtain ⟨hnull, hmemory⟩ := openFile_no_memory halloc hstr hopen
    have hleaks : str ∈ s'.live → ¬ s'.live = s.live := fun hmem heq =>
      (OpenState.fresh_iff.mp (halloc.path.resolve_left hstr)).2 (heq ▸ hmem)
    by_cases hnode : nodeptr = 0
    · obtain ⟨rfl, hlive⟩ := hnull hnode
      rcases htidy with ⟨-, heq⟩ | ⟨hne, -⟩
      · exact hleaks (hlive ▸ Set.mem_insert _ _) heq
      · exact hne rfl
    by_cases hpath : PathResolves fs pathname
    · obtain ⟨s'', hopen', hheap, hdead, hlive⟩ :=
        openFile_resolved halloc hpath hstr hnode (hmemory hpath hnode)
      rw [hopen] at hopen'
      obtain ⟨⟩ := hopen'
      rcases htidy with ⟨hzero, -⟩ | ⟨-, -, inode, hinode, heq⟩
      · exact hmemory hpath hnode hzero
      · rw [hheap, Option.some.injEq, KObject.file.injEq] at hinode
        apply hdead
        rw [heq, hinode]
        exact Set.mem_insert_of_mem _ (Set.mem_insert _ _)
    · obtain ⟨s'', hopen', hlive⟩ :=
        openFile_unresolved halloc hpath hstr hnode
      rw [hopen] at hopen'
      obtain ⟨⟩ := hopen'
      rcases htidy with ⟨-, heq⟩ | ⟨hne, -⟩
      · exact hleaks (hlive ▸ Set.mem_insert_of_mem _ (Set.mem_insert _ _)) heq
      · exact hne rfl
  · exact ⟨0, s, if_pos hstr, Or.inl ⟨rfl, rfl⟩⟩
  · obtain ⟨s', hopen, -, -, hlive⟩ := openFile_resolved halloc hpath hstr hnode hfile
    exact ⟨s', hopen, hlive⟩

end Leaks

/-- No memory for the copy of `/x`. -/
theorem open_tidy_iff_example : OpenTidy bareRoot noObjects [delimiter, 120] 0 1 2 :=
  (open_tidy_iff ⟨Or.inl rfl, Or.inr ⟨⟨one_ne_zero, rfl⟩, one_ne_zero⟩,
    Or.inr ⟨⟨two_ne_zero, rfl⟩, by decide⟩⟩).1.mpr rfl

/-- `open` of `/x`, which does not exist, and of the relative path `x` leave objects behind. -/
theorem failed_open_leaks :
    ∃ s₁ s₂, openFile bareRoot noObjects [delimiter, 120] 1 2 3 = some (0, s₁) ∧
      openFile bareRoot noObjects [120] 1 2 3 = some (0, s₂) ∧
      (1 ∈ s₁.live ∧ 2 ∈ s₁.live ∧ 1 ∈ s₂.live ∧ 2 ∈ s₂.live) ∧
      ¬ OpenTidy bareRoot noObjects [delimiter, 120] 1 2 3 ∧
      ¬ OpenTidy bareRoot noObjects [120] 1 2 3 := by
  refine ⟨_, _, rfl, rfl, ⟨?_, ?_, ?_, ?_⟩, ?_, ?_⟩
  · exact Option.some_ne_none _
  · exact Option.some_ne_none _
  · exact Option.some_ne_none _
  · exact Option.some_ne_none _
  all_goals
    rintro ⟨w, s', hopen, htidy⟩
    obtain ⟨⟩ := hopen
    rcases htidy with ⟨-, heq⟩ | ⟨hne, -⟩
    · have hmem : (1 : ℕ) ∉ noObjects.live := fun h => h rfl
      rw [← heq] at hmem
      exact hmem (Option.some_ne_none _)
    · exact hne rfl

end Rpos
