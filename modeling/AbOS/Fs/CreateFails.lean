import AbOS.Fs.Caches

/-!
# Calls of `create_file` that cannot succeed

`create_file` has no failure path.  When the parent does not exist, nothing is free, the directory is
full or the name is too long, it performs the same writes as otherwise and returns an inode with the
number it took from the superblock.

`FailsCleanly` is what one would expect of such a call: the number 0 and an unchanged state.  It
never happens (`not_failsCleanly`), since the parent is stored with the size of one entry more.

The exception is a call without a parent that repeats an earlier one: no inode was free then either,
and everything that the call writes is there already (`failsCleanly_iff`).  It leaves its mark in the
record of inode 0, which no file has.
-/

set_option autoImplicit false

namespace AbOS

namespace Fs

/-- There is no way to enter a new file at this path: its parent does not exist, is no directory or
is full, a bit that the call needs is 0 because nothing is free, or the name does not fit into an
entry. -/
def CannotComplete (fs : Fs) (path : List UInt8) : Prop :=
  fs.parent path = none ∨
  (∃ dir, fs.parent path = some dir ∧
    (dir.fileType ≠ fileTypeDir ∨ 7 * fsBlock < dir.size + dirEntryBytes ∨
      (bytesToBlocks dir.size < bytesToBlocks (grownSize dir) ∧
        fs.allocated.superblock.firstFreeDataBit = 0))) ∨
  fs.superblock.firstFreeInodeBit = 0 ∨ fs.superblock.firstFreeDataBit = 0 ∨
  59 < (getNamePath path).length

/-- The call returns an inode with number 0 and leaves the disk, the superblock and the cached
directories as they were. -/
def FailsCleanly (fs : Fs) (path : List UInt8) (behind : ByteStore) : Prop :=
  ∃ inode, fs.createFile path behind = some (inode, fs) ∧ inode.iNumber = 0

/-- The call repeats one that has done its damage before: the cached number is 0, the searches for
free bits give the cached bits again, no cached directory is the parent, unless it is stored
already, and each byte that the call writes holds what it writes there last. -/
structure Repeats (fs : Fs) (path : List UInt8) (behind : ByteStore) : Prop where
  number : fs.superblock.firstFreeInodeBit = 0
  name : (getNamePath path).length ≤ 59
  superblock : (fs.grownParent path).2.superblock = fs.superblock
  rootInode : fs.rootInode.iNumber = (fs.getParentInode path).iNumber →
    fs.rootInode = fs.storedParent path
  currentDirInode : fs.currentDirInode.iNumber = (fs.getParentInode path).iNumber →
    fs.currentDirInode = fs.storedParent path
  disk : ∀ x b, ByteStore.lastWritten x (fs.createWrites path behind) = some b → fs.disk x = b

theorem failsCleanly_iff (fs : Fs) (path : List UInt8) (behind : ByteStore) :
    fs.FailsCleanly path behind ↔ fs.Repeats path behind := by
  constructor
  · rintro ⟨inode, hcall, hzero⟩
    have hname := name_le_of_createFile hcall
    rw [createFile_eq hname, Option.some.injEq, Prod.mk.injEq, Fs.ext_iff] at hcall
    obtain ⟨rfl, hdisk, hsuperblock, hroot, hcurrent⟩ := hcall
    dsimp only at hdisk hsuperblock hroot hcurrent
    exact ⟨hzero, hname, hsuperblock, fun h ↦ hroot.symm.trans (if_pos h),
      fun h ↦ hcurrent.symm.trans (if_pos h), ByteStore.splices_eq_self_iff.mp hdisk⟩
  · intro h
    refine ⟨newInode fs.superblock.firstFreeInodeBit fs.cachedBlock, ?_, h.number⟩
    rw [createFile_eq h.name, Option.some.injEq, Prod.mk.injEq, Fs.ext_iff]
    dsimp only
    refine ⟨rfl, ByteStore.splices_eq_self_iff.mpr h.disk, h.superblock, ?_, ?_⟩
    · exact ite_eq_right_iff.mpr fun hroot ↦ (h.rootInode hroot).symm
    · exact ite_eq_right_iff.mpr fun hcurrent ↦ (h.currentDirInode hcurrent).symm

/-! ## Disks that no such call has marked -/

/-- The inode table lies behind the superblock, the parent, if there is one, is cached or the inode
with its number, and inode 0 is not what a call without a parent and without a free inode has
stored. -/
structure Unmarked (fs : Fs) (path : List UInt8) : Prop where
  table : Table fs.superblock
  parent : ∀ dir, fs.parent path = some dir → (dir = fs.rootInode ∨ dir = fs.currentDirInode) ∨
    SlotFits fs.superblock dir.iNumber ∧ fs.Copy dir
  zeroInode : fs.parent path = none → fs.superblock.firstFreeInodeBit = 0 →
    (fs.node 0).size ≠ dirEntryBytes

section Unmarked

variable {fs : Fs} {path : List UInt8} {behind : ByteStore}

theorem grownSize_ne (dir : Inode) : dir.size ≠ grownSize dir := by
  rw [grownSize, dirEntryBytes]
  omega

/-- The parent is the last inode that the call stores. -/
theorem slice_storedParent (htable : Table fs.superblock)
    (hfits : SlotFits fs.superblock (fs.getParentInode path).iNumber) :
    (fs.disk.splices (fs.createWrites path behind)).slice
      (slotAddress fs.superblock (fs.getParentInode path).iNumber) inodeBytes =
        (fs.storedParent path).bytes := by
  rw [createWrites, inodeAddress_eq_slot hfits]
  refine ByteStore.slice_splices_self fs.disk _ [_] (Inode.length_bytes _) fun w hw ↦ Or.inl ?_
  rw [List.mem_singleton.mp hw, length_superblockSector]
  have hsector : sectorAddress superblockDiskSector = 4096 := by decide
  have hfirst := htable.1
  dsimp only
  rw [hsector, slotAddress, fsSector, fsBlock]
  omega

/-- When nothing changes, the inode with the number of the parent has the size that is stored. -/
theorem Repeats.size_node (h : fs.Repeats path behind) (htable : Table fs.superblock)
    (hfits : SlotFits fs.superblock (fs.getParentInode path).iNumber)
    (hrange : (fs.getParentInode path).InRange) :
    (fs.node (fs.getParentInode path).iNumber).size = grownSize (fs.getParentInode path) := by
  have hbytes : (fs.node (fs.getParentInode path).iNumber).bytes = (fs.storedParent path).bytes := by
    have hstored : (fs.disk.splices (fs.createWrites path behind)).slice _ _ = _ :=
      slice_storedParent htable hfits
    rw [bytes_node_of_slotFits hfits, ← hstored, ByteStore.splices_eq_self_iff.mpr h.disk]
  exact (Inode.fields_of_bytes hbytes (readInode_inRange ..) (storedParent_inRange hrange).2).2.2.1

/-- **No call fails cleanly**: the parent grows by an entry. -/
theorem not_failsCleanly (h : fs.Unmarked path) : ¬ fs.FailsCleanly path behind := by
  rw [failsCleanly_iff]
  intro hrepeats
  have hparent := getParentInode_eq fs path
  cases hfound : fs.parent path with
  | none =>
    rw [hfound, Option.getD_none] at hparent
    have hzero : (fs.getParentInode path).iNumber = 0 := by rw [hparent]; rfl
    refine h.zeroInode hfound hrepeats.number ?_
    rw [← hzero, hrepeats.size_node h.table, hparent]
    · decide
    · rw [hzero, SlotFits, fsBlock, inodeBytes]
      have := h.table.2
      omega
    · exact hparent ▸ zero_inRange
  | some dir =>
    rw [hfound, Option.getD_some] at hparent
    have hsize := hrepeats.size_node h.table
    have hstored : (fs.storedParent path).size = grownSize (fs.getParentInode path) := rfl
    rw [hparent] at hsize hstored
    rcases h.parent dir hfound with (rfl | rfl) | ⟨hfits, hrange, hcopy⟩
    · -- a cached parent is stored in the cache as well
      refine grownSize_ne _ ((congrArg Inode.size (hrepeats.rootInode ?_)).trans hstored)
      rw [hparent]
    · refine grownSize_ne _ ((congrArg Inode.size (hrepeats.currentDirInode ?_)).trans hstored)
      rw [hparent]
    · refine grownSize_ne dir (Eq.trans ?_ (hsize hfits hrange))
      exact (Inode.fields_of_bytes hcopy hrange (readInode_inRange ..)).2.2.1

/-- **`create_file` is atomic** exactly when it can complete. -/
theorem atomic_iff (h : fs.Unmarked path) :
    (fs.CannotComplete path → fs.FailsCleanly path behind) ↔ ¬ fs.CannotComplete path :=
  ⟨fun hatomic hcannot ↦ not_failsCleanly h (hatomic hcannot), fun hcan hcannot ↦ absurd hcannot hcan⟩

end Unmarked

/-- The file `x` can be created in the root directory. -/
theorem atomic_twoDirs : ¬ (twoDirs 100).CannotComplete [0x78] ∧
    ((twoDirs 100).CannotComplete [0x78] → (twoDirs 100).FailsCleanly [0x78] fun _ ↦ 0) := by
  have hparent : (twoDirs 100).parent [0x78] = some (twoDirs 100).currentDirInode := rfl
  have hunmarked : (twoDirs 100).Unmarked [0x78] := by
    refine ⟨twoDirs_table 100, fun dir hdir ↦ ?_, fun hnone ↦ ?_⟩
    · rw [hparent, Option.some.injEq] at hdir
      exact Or.inl (Or.inr hdir.symm)
    · rw [hparent] at hnone
      cases hnone
  have hdir : (twoDirs 100).currentDirInode.fileType = fileTypeDir ∧
      (twoDirs 100).currentDirInode.size = 64 := by decide +kernel
  have hcan : ¬ (twoDirs 100).CannotComplete [0x78] := by
    rintro (hnone | ⟨dir, hfound, hfull⟩ | hbit | hbit | hname)
    · rw [hparent] at hnone
      cases hnone
    · rw [hparent, Option.some.injEq] at hfound
      subst hfound
      rw [hdir.1, hdir.2, grownSize, hdir.2] at hfull
      obtain hne | hlt | ⟨hlt, -⟩ := hfull
      · exact hne rfl
      · exact absurd hlt (by decide)
      · exact absurd hlt (by decide)
    · exact absurd hbit (by decide)
    · exact absurd hbit (by decide)
    · exact absurd hname (by decide)
  exact ⟨hcan, (atomic_iff hunmarked).mpr hcan⟩

/-! ## A parent that does not exist -/

/-- The disk with one file in the root directory, and inode number 5 cached as free. -/
def oneName : Fs :=
  { throughFile with superblock := { throughFile.superblock with firstFreeInodeBit := 5 } }

/-- `n/x`, where there is no `n`. -/
def missingParentPath : List UInt8 := [0x6E] ++ slash :: [0x78]

theorem oneName_parent : oneName.parent missingParentPath = none := by
  have hfirst : oneName.firstEntry throughFileRoot [0x6E] = none := by
    cases he : oneName.firstEntry throughFileRoot [0x6E] with
    | none => rfl
    | some e =>
      obtain ⟨hmem, hlinked, hname⟩ := oneName.firstEntry_some he
      rw [throughFile_root_entry hmem hlinked, throughFile_f_name] at hname
      exact absurd hname (by decide)
  rw [parent, missingParentPath, components_append (by decide) (by decide), List.dropLast_concat,
    components_of_not_mem (by decide), resolve_singleton, child, if_pos (by decide),
    getInodeInDir_eq]
  show found (((oneName.firstEntry throughFileRoot [0x6E]).map _).getD _) = _
  rw [hfirst]
  rfl

/-- The call returns inode 5 for a file whose parent does not exist. -/
theorem not_atomic_oneName :
    ¬ (oneName.CannotComplete missingParentPath →
      oneName.FailsCleanly missingParentPath fun _ ↦ 0) := by
  intro h
  obtain ⟨inode, hcall, hzero⟩ := h (Or.inl oneName_parent)
  rw [createFile_eq (by decide), Option.some.injEq, Prod.mk.injEq] at hcall
  obtain ⟨rfl, -⟩ := hcall
  exact absurd hzero (by decide)

end Fs

end AbOS
