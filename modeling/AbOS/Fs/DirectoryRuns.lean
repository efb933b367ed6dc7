import AbOS.Fs.CreateResolve
import AbOS.Lib.Run

/-!
# Directories over many calls

A directory holds as many linked entries as its size says, in blocks of its own.  This stays so over
any sequence of `create_file` calls none of which has to grow a directory
(`Creating.sound_of_meets`).

A call that grows one breaks it, however the disk looks (`not_sound_of_grows`): the new block goes
one pointer too far, or nowhere, and the block that the directory now counts has the number 0.

The calls of a run are logged beside the disk: the directory, the entry, and the block that the
entry was written to.
-/

set_option autoImplicit false

namespace AbOS

namespace Fs

/-- The block that `create_file` writes the entry to. -/
def insertedBlock (fs : Fs) (path : List UInt8) : Option ℕ :=
  (emptyEntry (fs.grownParent path).2.disk (fs.grownParent path).1
    (bytesToBlocks (grownSize (fs.getParentInode path)))).map
      fun p ↦ (fs.grownParent path).1.directPointers p.1

end Fs

/-- A call of `create_file`. -/
structure CreateCall where
  path : List UInt8
  behind : ByteStore

/-- What a call did: the directory it was to enter, the entry for the inode that was returned, and
the block that was written. -/
structure CreateLog where
  dir : ℕ
  entry : DirEntry
  block : Option ℕ

/-- The file system, and the calls so far. -/
structure Creating where
  fs : Fs
  log : List CreateLog

namespace Creating

/-- One call. -/
def create (s : Creating) (c : CreateCall) : Option Creating :=
  (s.fs.createFile c.path c.behind).map fun r ↦
    { fs := r.2
      log := ⟨(s.fs.getParentInode c.path).iNumber, ⟨r.1.iNumber, getNamePath c.path⟩,
        s.fs.insertedBlock c.path⟩ :: s.log }

/-- What directories promise: the size counts the linked entries, all in the blocks up to the size;
these blocks are distinct, not block 0, owned by one directory only and marked; each file that was
created is linked; and entries were written to blocks of the directory only. -/
structure Sound (s : Creating) (dirs : ℕ → Prop) : Prop where
  size : ∀ k, dirs k →
    (s.fs.node k).size = dirEntryBytes * (s.fs.links (s.fs.node k)).length
  nonzero : ∀ k i, dirs k → i < Fs.blockCount (s.fs.node k) → (s.fs.node k).directPointers i ≠ 0
  owner : ∀ k k' i i', dirs k → dirs k' → i < Fs.blockCount (s.fs.node k) →
    i' < Fs.blockCount (s.fs.node k') →
    (s.fs.node k).directPointers i = (s.fs.node k').directPointers i' → k = k' ∧ i = i'
  ownerFile : ∀ k e, dirs k → e ∈ s.fs.links (s.fs.node k) → ¬ dirs e.iNumber →
    ∀ j, j < 7 → j < Fs.blockCount (s.fs.node e.iNumber) → ∀ k' i, dirs k' →
      i < Fs.blockCount (s.fs.node k') →
      (s.fs.node e.iNumber).directPointers j ≠ (s.fs.node k').directPointers i
  marked : ∀ k i, dirs k → i < Fs.blockCount (s.fs.node k) →
    dataBit s.fs.disk s.fs.superblock
      ((s.fs.node k).directPointers i - s.fs.superblock.firstDataBlock) = true
  created : ∀ c ∈ s.log, c.entry.iNumber ≠ 0 → c.entry ∈ s.fs.links (s.fs.node c.dir)
  written : ∀ c ∈ s.log, ∀ b, c.block = some b →
    ∃ i, i < Fs.blockCount (s.fs.node c.dir) ∧ (s.fs.node c.dir).directPointers i = b

/-- The call does not have to grow a directory, and what it takes is not in use by one. -/
def FitsIn (dirs : ℕ → Prop) (blocks : ℕ) (s : Creating) (c : CreateCall) : Prop :=
  ∃ parent, s.fs.CanCreate dirs blocks c.path parent

/-- The invariant: the disk is well formed, and the log is true. -/
structure Inv (dirs : ℕ → Prop) (blocks : ℕ) (s : Creating) : Prop where
  wellFormed : s.fs.WellFormed dirs blocks
  log : ∀ c ∈ s.log, dirs c.dir ∧ c.entry ∈ s.fs.links (s.fs.node c.dir) ∧
    ∀ b, c.block = some b →
      ∃ i, i < Fs.blockCount (s.fs.node c.dir) ∧ (s.fs.node c.dir).directPointers i = b

variable {dirs : ℕ → Prop} {blocks : ℕ} {s s' : Creating}

theorem Inv.sound (h : s.Inv dirs blocks) : s.Sound dirs := by
  have hw := h.wellFormed
  refine ⟨fun k hk ↦ (hw.size k hk).1, fun k i hk hi hzero ↦ ?_, hw.apart, hw.owned,
    fun k i hk hi ↦ (hw.marked k i hk hi).2, fun c hc _ ↦ (h.log c hc).2.1,
    fun c hc ↦ (h.log c hc).2.2⟩
  -- block 0 lies in front of the data
  have h₁ := (hw.pointer k i hk hi).1
  have h₂ := hw.layout.firstInodeBlock
  have h₃ := hw.layout.firstDataBlock
  omega

/-- The entry goes to a block of the parent. -/
theorem insertedBlock_of_canCreate {fs : Fs} {parent : Inode} {path : List UInt8}
    (h : fs.WellFormed dirs blocks) (hcan : fs.CanCreate dirs blocks path parent) :
    ∃ i, i < Fs.blockCount (fs.node parent.iNumber) ∧
      fs.insertedBlock path = some ((fs.node parent.iNumber).directPointers i) := by
  have hcan' := h.canEnter hcan
  obtain ⟨hgrown, -, -⟩ := h.grownParent_eq hcan' hcan.getParentInode_eq
  obtain ⟨-, -, -, hsame⟩ := h.room hcan'
  obtain ⟨i, j, hempty, hi, -, -⟩ := h.exists_emptyEntry hcan'
  rw [Fs.blockCount, hcan'.copy.fields.2.1] at hi
  refine ⟨i, hi, ?_⟩
  rw [Fs.insertedBlock, hgrown, hcan.getParentInode_eq]
  dsimp only
  rw [hsame, hempty, Option.map_some, hcan'.copy.fields.2.2 i (h.lt_seven hcan'.dir hi)]

/-- **What one call preserves.** -/
theorem Inv.create {c : CreateCall} (h : s.Inv dirs blocks) (hc : FitsIn dirs blocks s c)
    (hcall : s.create c = some s') : s'.Inv dirs blocks := by
  obtain ⟨parent, hcan⟩ := hc
  obtain ⟨⟨inode, fs'⟩, hcreate, rfl⟩ := Option.map_eq_some_iff.mp hcall
  obtain ⟨rfl, hent⟩ := h.wellFormed.entered_of_createFile hcan hcreate
  have hw := h.wellFormed
  have hcan' := hw.canEnter hcan
  -- directories keep their links and their blocks
  have hkept : ∀ {k}, dirs k → (∀ e, e ∈ s.fs.links (s.fs.node k) → e ∈ fs'.links (fs'.node k)) ∧
      ∀ b, (∃ i, i < Fs.blockCount (s.fs.node k) ∧ (s.fs.node k).directPointers i = b) →
        ∃ i, i < Fs.blockCount (fs'.node k) ∧ (fs'.node k).directPointers i = b := fun {k} hk ↦ by
    obtain ⟨-, -, hblocks, hptr⟩ := hw.node_dir hcan' hent hk
    refine ⟨fun e he ↦ (hw.mem_links_after hcan' hent hk).mpr (Or.inl he), ?_⟩
    rintro b ⟨i, hi, rfl⟩
    exact ⟨i, hblocks ▸ hi, hptr i (hw.lt_seven hk hi)⟩
  refine ⟨hw.entered hcan' hent, fun c' hc' ↦ ?_⟩
  rcases List.mem_cons.mp hc' with rfl | hc'
  · obtain ⟨i, hi, hblock⟩ := insertedBlock_of_canCreate hw hcan
    dsimp only
    rw [hcan.getParentInode_eq]
    refine ⟨hcan'.dir, (hw.mem_links_after hcan' hent hcan'.dir).mpr (Or.inr ⟨rfl, rfl⟩),
      fun b hb ↦ (hkept hcan'.dir).2 b ⟨i, hi, ?_⟩⟩
    rw [hblock] at hb
    exact Option.some.inj hb
  · obtain ⟨hdir, hmem, hblock⟩ := h.log c' hc'
    exact ⟨hdir, (hkept hdir).1 _ hmem, fun b hb ↦ (hkept hdir).2 b (hblock b hb)⟩

/-- **Directories stay sound** over every run none of whose calls grows a directory or takes what a
directory uses. -/
theorem sound_of_meets {fs : Fs} (h : fs.WellFormed dirs blocks) {calls : List CreateCall}
    (hC : Run.Meets create (FitsIn dirs blocks) ⟨fs, []⟩ calls)
    (hrun : Run.exec create ⟨fs, []⟩ calls = some s') : s'.Sound dirs :=
  (Run.Meets.invariant (Inv dirs blocks) (fun _ _ _ hs hc hcall ↦ hs.create hc hcall)
    ⟨h, fun _ hc ↦ absurd hc List.not_mem_nil⟩ hC hrun).sound

/-! ## A call that grows its directory -/

/-- The superblock keeps its regions. -/
theorem grownParent_superblock (fs : Fs) (path : List UInt8) :
    ∃ a b, (fs.grownParent path).2.superblock =
      { fs.superblock with firstFreeInodeBit := a, firstFreeDataBit := b } := by
  rw [Fs.grownParent, Fs.growDirectory]
  split <;> exact ⟨_, _, rfl⟩

/-- The parent is stored as the call has it at the end. -/
theorem bytes_node_stored {fs fs' : Fs} {path : List UInt8} {behind : ByteStore} {inode : Inode}
    (h : Layout fs.superblock blocks) (hname : (getNamePath path).length ≤ 59)
    (hnum : (fs.getParentInode path).iNumber < inodeRoom fs.superblock)
    (hcall : fs.createFile path behind = some (inode, fs')) :
    (fs'.node (fs.getParentInode path).iNumber).bytes = (fs.storedParent path).bytes := by
  rw [Fs.createFile_eq hname, Option.some.injEq, Prod.mk.injEq] at hcall
  obtain ⟨a, b, hs⟩ := grownParent_superblock fs path
  have hsuperblock : fs'.superblock = (fs.grownParent path).2.superblock := by rw [← hcall.2]
  have hdisk : fs'.disk = fs.disk.splices (fs.createWrites path behind) := by rw [← hcall.2]
  rw [hs] at hsuperblock
  obtain ⟨haddr, -⟩ := Fs.inodeAddress_of_layout h hnum
  have hfirst := h.firstInodeBlock
  have hlayout : Layout fs'.superblock blocks := by
    rw [hsuperblock]
    exact ⟨h.firstInodeBlock, h.firstDataBlock, h.inodes, h.diskBlocks, h.inodeBitmap, h.dataBitmap,
      h.dataBitmapBlock, h.dataBitmapEnd⟩
  have hsame : inodeAddress fs'.superblock (fs.getParentInode path).iNumber =
      inodeAddress fs.superblock (fs.getParentInode path).iNumber := by
    rw [hsuperblock]
    rfl
  rw [Fs.bytes_node hlayout (by rw [hsuperblock]; exact hnum), hsame, hdisk]
  refine ByteStore.slice_splices_self fs.disk _ [_] (Inode.length_bytes _) fun w hw ↦ ?_
  have hsuper : sectorAddress superblockDiskSector = 4096 := by decide
  rw [List.mem_singleton.mp hw, haddr]
  simp only [length_superblockSector, hsuper]
  rw [fsSector, fsBlock]
  omega

/-- **A directory that grows counts a block that it does not have**, if the pointers it did not use
were 0. -/
theorem not_sound_of_grows {fs : Fs} (h : fs.WellFormed dirs blocks) {c : CreateCall}
    {log : List CreateLog} (hname : (getNamePath c.path).length ≤ 59)
    (hdir : dirs (fs.getParentInode c.path).iNumber) (hcopy : fs.Copy (fs.getParentInode c.path))
    (hfull : (fs.getParentInode c.path).size % fsBlock = 0)
    (hroom : (fs.getParentInode c.path).size < 7 * fsBlock)
    (hunused : (fs.getParentInode c.path).directPointers
      (Fs.blockCount (fs.getParentInode c.path)) = 0)
    (hcall : (⟨fs, log⟩ : Creating).create c = some s') : ¬ s'.Sound dirs := by
  intro hsound
  obtain ⟨⟨inode, fs'⟩, hcreate, rfl⟩ := Option.map_eq_some_iff.mp hcall
  have hbytes := bytes_node_stored h.layout hname (h.number _ hdir).2.1 hcreate
  generalize hp : fs.getParentInode c.path = parent at *
  obtain ⟨q, hq⟩ : ∃ q, parent.size = 4096 * q :=
    ⟨parent.size / 4096, by rw [fsBlock] at hfull; omega⟩
  have hq7 : q < 7 := by rw [fsBlock] at hroom; omega
  have hblocks : bytesToBlocks parent.size = q := by rw [bytesToBlocks_eq]; omega
  have hgrown : Fs.grownSize parent = 4096 * q + 64 := by
    rw [Fs.grownSize, dirEntryBytes]
    omega
  have hnew : bytesToBlocks (Fs.grownSize parent) = q + 1 := by rw [hgrown, bytesToBlocks_eq]; omega
  rw [Fs.blockCount, hblocks] at hunused
  -- the pointer that is set, if any, is the one behind
  have hptr : ∀ i, (fs.storedParent c.path).directPointers i = parent.directPointers i ∨
      (i = q + 1 ∧ (fs.storedParent c.path).directPointers i = fs.allocated.cachedBlock) := by
    intro i
    rw [Fs.storedParent, Fs.grownParent, hp, Fs.growDirectory]
    split
    · dsimp only
      rw [hnew, Function.update_apply]
      split
      · exact Or.inr ⟨‹_›, rfl⟩
      · exact Or.inl rfl
    · exact Or.inl rfl
  have hsize : (fs.storedParent c.path).size = 4096 * q + 64 := by
    rw [Fs.storedParent, hp]
    exact hgrown
  have htype : (fs.storedParent c.path).iNumber = parent.iNumber ∧
      (fs.storedParent c.path).fileType = parent.fileType := by
    rw [Fs.storedParent, Fs.grownParent, hp, Fs.growDirectory]
    split <;> exact ⟨rfl, rfl⟩
  have hrange : (fs.storedParent c.path).InRange := by
    refine ⟨htype.1 ▸ hcopy.1.iNumber, htype.2 ▸ hcopy.1.fileType, by rw [hsize]; omega,
      fun i hi ↦ ?_⟩
    rcases hptr i with he | ⟨-, he⟩
    · rw [he]
      exact hcopy.1.directPointers i hi
    · rw [he]
      exact Nat.mod_lt _ (by decide)
  obtain ⟨-, -, hsize', hptr'⟩ := Inode.fields_of_bytes hbytes (readInode_inRange ..) hrange
  refine hsound.nonzero parent.iNumber q hdir ?_ ?_
  · show q < bytesToBlocks (fs'.node parent.iNumber).size
    rw [hsize', hsize, bytesToBlocks_eq]
    omega
  · show (fs'.node parent.iNumber).directPointers q = 0
    rw [hptr' q hq7]
    rcases hptr q with he | ⟨hlt, -⟩
    · rw [he, hunused]
    · omega

/-- A call in a directory with room. -/
theorem sound_selfLinks : ∃ s',
    Run.exec create ⟨Fs.selfLinks 1, []⟩ [⟨[0x62], fun _ ↦ 0⟩] = some s' ∧ s'.Sound (· = 1) := by
  have h := Fs.selfLinks_wellFormed (n := 1) (by decide) (by decide)
  have hcan := Fs.selfLinks_canCreate (n := 1) (by decide) (by decide) [0x62] (by decide)
    (by decide) (by decide)
  obtain ⟨fs', hcall, -⟩ := h.createFile (h.canEnter hcan) hcan.getParentInode_eq fun _ ↦ 0
  have hstep : (⟨Fs.selfLinks 1, []⟩ : Creating).create ⟨[0x62], fun _ ↦ 0⟩ = some _ :=
    congrArg (Option.map _) hcall
  have hrun : Run.exec create ⟨Fs.selfLinks 1, []⟩ [⟨[0x62], fun _ ↦ 0⟩] = some _ :=
    Run.exec_singleton hstep
  have hmeets : Run.Meets create (FitsIn (· = 1) 16) ⟨Fs.selfLinks 1, []⟩ [⟨[0x62], fun _ ↦ 0⟩] :=
    ⟨⟨_, hcan⟩, fun _ _ ↦ trivial⟩
  exact ⟨_, hrun, sound_of_meets h hmeets hrun⟩

/-- A directory of 64 entries is grown by the next one. -/
theorem not_sound_selfLinks : ∃ s',
    Run.exec create ⟨Fs.selfLinks 64, []⟩ [⟨[0x62], fun _ ↦ 0⟩] = some s' ∧ ¬ s'.Sound (· = 1) := by
  have h := Fs.selfLinks_wellFormed (n := 64) (by decide) (by decide)
  obtain ⟨hnum, -, hsize, -⟩ := Fs.selfLinks_node (n := 64) (by decide)
  have hparent : (Fs.selfLinks 64).getParentInode [0x62] = (Fs.selfLinks 64).node 1 := by
    rw [Fs.getParentInode_eq, Fs.parent, components_of_not_mem (by decide), Fs.startDir,
      if_neg (by decide), Fs.selfLinks_currentDirInode]
    rfl
  have hshort : (getNamePath [0x62]).length ≤ 59 := by decide
  have hcall : (Fs.selfLinks 64).createFile [0x62] (fun _ ↦ 0) = some _ :=
    Fs.createFile_eq hshort fun _ ↦ 0
  have hstep : (⟨Fs.selfLinks 64, []⟩ : Creating).create ⟨[0x62], fun _ ↦ 0⟩ = some _ :=
    congrArg (Option.map _) hcall
  refine ⟨_, Run.exec_singleton hstep,
    not_sound_of_grows h (by decide) ?_ ?_ ?_ ?_ ?_ hstep⟩ <;> dsimp only <;> rw [hparent]
  · exact hnum
  · exact ⟨readInode_inRange .., by rw [hnum]⟩
  · rw [hsize]
    rfl
  · rw [hsize]
    decide
  · have hblocks : Fs.blockCount ((Fs.selfLinks 64).node 1) = 1 := by
      rw [Fs.blockCount, hsize]
      rfl
    rw [hblocks]
    exact Fs.selfLinks_pointer_one 64

end Creating

end AbOS
