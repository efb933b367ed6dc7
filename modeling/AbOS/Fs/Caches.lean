import AbOS.Fs.Bitmaps
import AbOS.Fs.DirectoryRuns
import AbOS.Fs.Placement

/-!
# The cached directories

The kernel keeps two inodes in memory, the root and the current directory, and loads inode 1 into
both.  `create_file` takes the parent from one of them or from the disk, depending on how the path
is spelled, and stores it on the disk and in each cache that has its number.

So the caches follow inode 1 whenever the parent is inode 1.  When it is another directory, they
stay, and so must the 64 bytes of inode 1 on the disk: `Fs.SparesRoot` says that no write of the call
reaches them.  With it at each call both caches hold inode 1 after every run
(`Fs.coherent_of_meets`).

It does not always hold: `set_data_bitmap` is given the number of a block where it expects the
number of a bit, counts from block 0, and for a block far enough behind sets a bit of the inode
table instead (`Fs.not_coherent_twoDirs`).
-/

set_option autoImplicit false

namespace AbOS

/-- The `n` bytes from `a` on have none in common with inode 1. -/
def Spares (s : Superblock) (a n : ℕ) : Prop :=
  a + n ≤ slotAddress s 1 ∨ slotAddress s 1 + inodeBytes ≤ a

instance (s : Superblock) (a n : ℕ) : Decidable (Spares s a n) := inferInstanceAs (Decidable (_ ∨ _))

namespace Fs

/-- The inode in memory is inode 1 as it is on the disk. -/
def IsRoot (fs : Fs) (inode : Inode) : Prop := inode.iNumber = 1 ∧ fs.Copy inode

/-- Both caches hold inode 1. -/
def Coherent (fs : Fs) : Prop := fs.IsRoot fs.rootInode ∧ fs.IsRoot fs.currentDirInode

/-- A disk with the superblock of `write_superblock`, up to what `create_file` changes and up to where
the data begins, which is behind the inodes.  The slots hold their own number or 0, and the first
two inodes are taken. -/
structure Prepared (fs : Fs) : Prop where
  superblock : ∃ info firstDataBlock firstFreeInodeBit firstFreeDataBit, fs.superblock =
    { writeSuperblock info with firstDataBlock, firstFreeInodeBit, firstFreeDataBit }
  regions : slotAddress fs.superblock fs.superblock.numInodes ≤ fs.superblock.firstDataBlock * fsBlock
  slots : ∀ k, k < fs.superblock.numInodes → (fs.node k).iNumber = k ∨ (fs.node k).iNumber = 0
  taken : ∀ b, b < 2 →
    (fs.disk (fs.superblock.firstInodeBitmapBlock * fsBlock)).toNat.testBit b = true
  free : 2 ≤ fs.superblock.firstFreeInodeBit

/-- `create_file(path)`, for its effect. -/
def create (fs : Fs) (c : CreateCall) : Option Fs := (fs.createFile c.path c.behind).map Prod.snd

/-- The directory needs another block, and gets one. -/
def Grows (dir : Inode) : Prop :=
  bytesToBlocks (grownSize dir) > bytesToBlocks dir.size ∧ bytesToBlocks dir.size < 2

instance (dir : Inode) : Decidable (Grows dir) := inferInstanceAs (Decidable (_ ∧ _))

/-- Nothing is written to inode 1: not the bits of the new inode and of its block, not the new inode
and not the parent.  If the parent grows, nor is any block cleared that the first block of the data
bitmap stands for. -/
structure LeavesRoot (fs : Fs) (parent : Inode) : Prop where
  inodeBit : Spares fs.superblock
    (chunkAddress fs.superblock.firstInodeBitmap fs.superblock.firstFreeInodeBit) 8
  dataBit : Spares fs.superblock (chunkAddress fs.superblock.firstDataBitmap fs.cachedBlock) 8
  inode : Spares fs.superblock (inodeAddress fs.superblock fs.superblock.firstFreeInodeBit) inodeBytes
  stored : Spares fs.superblock (inodeAddress fs.superblock parent.iNumber) inodeBytes
  block : Grows parent → ∀ bit, bit < 32768 → Spares fs.superblock
    (sectorAddress (blockSector ((fs.superblock.firstDataBlock + bit) % 2 ^ 32))) fsBlock

/-- The parent is inode 1, or nothing is written to inode 1. -/
def SparesRoot (fs : Fs) (c : CreateCall) : Prop :=
  (fs.getParentInode c.path).iNumber = 1 ∨ fs.LeavesRoot (fs.getParentInode c.path)

/-! ## Reading the parent -/

variable {fs fs' : Fs}

theorem zero_inRange : Inode.zero.InRange :=
  ⟨by decide, by decide, by decide, fun _ _ ↦ Nat.two_pow_pos 32⟩

theorem resolve_inRange {names : List (List UInt8)} {dir inode : Inode} (hdir : dir.InRange)
    (h : fs.resolve dir names = some inode) : inode.InRange := by
  induction names generalizing dir with
  | nil =>
    rw [resolve_nil, Option.some.injEq] at h
    exact h ▸ hdir
  | cons name names ih =>
    rw [resolve_cons, Option.bind_eq_some_iff] at h
    obtain ⟨next, hnext, h⟩ := h
    refine ih ?_ h
    rw [child] at hnext
    split at hnext
    · rw [found] at hnext
      split at hnext
      · cases hnext
      · cases hnext
        rw [getInodeInDir]
        split
        · exact readInode_inRange ..
        · exact zero_inRange
    · cases hnext

/-- Wherever the parent comes from, it fits into a record. -/
theorem getParentInode_inRange (hroot : fs.rootInode.InRange)
    (hcurrent : fs.currentDirInode.InRange) (path : List UInt8) :
    (fs.getParentInode path).InRange := by
  rw [getParentInode_eq, parent]
  have hstart : (fs.startDir path).InRange := by
    rw [startDir]
    split
    · exact hroot
    · exact hcurrent
  cases h : fs.resolve (fs.startDir path) (components path).dropLast with
  | none => exact zero_inRange
  | some inode => exact resolve_inRange hstart h

/-- The stored parent differs in a pointer and in the size. -/
theorem storedParent_inRange {path : List UInt8} (h : (fs.getParentInode path).InRange) :
    (fs.storedParent path).iNumber = (fs.getParentInode path).iNumber ∧
      (fs.storedParent path).InRange := by
  have hsize : grownSize (fs.getParentInode path) < 2 ^ 32 := Nat.mod_lt _ (by decide)
  rw [storedParent, grownParent, growDirectory]
  split
  · refine ⟨rfl, h.iNumber, h.fileType, hsize, fun i hi ↦ ?_⟩
    dsimp only
    rw [Function.update_apply]
    split
    · exact Nat.mod_lt _ (by decide)
    · exact h.directPointers i hi
  · exact ⟨rfl, h.iNumber, h.fileType, hsize, h.directPointers⟩

/-! ## What the writes reach -/

/-- Where the inode table may begin. -/
def Table (s : Superblock) : Prop := 2 ≤ s.firstInodeBlock ∧ s.firstInodeBlock < 2 ^ 19

theorem writeSuperblock_table (info : FileInfo) : Table (writeSuperblock info) := by
  -- a bitmap for 32-bit numbers
  have hbitmap : ∀ n : ℕ, n % 2 ^ 32 / (fsBlock * 8) +
      (if n % 2 ^ 32 % (fsBlock * 8) ≠ 0 then 1 else 0) ≤ 2 ^ 17 := fun n ↦ by
    rw [fsBlock]
    split <;> omega
  refine ⟨Nat.le_trans (Nat.le_add_right 2 _) (Nat.le_add_right ..), ?_⟩
  dsimp only [writeSuperblock]
  have hinodes := hbitmap (info.numFiles + 2)
  have hdata := hbitmap (bytesToBlocks diskSize + 2 ^ 33 -
    (2 + ((info.numFiles + 2) % 2 ^ 32 / (fsBlock * 8) +
      if (info.numFiles + 2) % 2 ^ 32 % (fsBlock * 8) ≠ 0 then 1 else 0)) -
    (info.numFiles + 2) % 2 ^ 32 / inodesPerBlock - 1)
  omega

theorem Prepared.table (h : fs.Prepared) : Table fs.superblock := by
  obtain ⟨info, _, _, _, hs⟩ := h.superblock
  rw [hs]
  exact writeSuperblock_table info

theorem slotFits_one {s : Superblock} (h : Table s) : SlotFits s 1 := by
  obtain ⟨-, hlt⟩ := h
  rw [SlotFits, fsBlock, inodeBytes]
  omega

/-- An inode is read where it is stored. -/
theorem bytes_node_of_slotFits {k : ℕ} (h : SlotFits fs.superblock k) :
    (fs.node k).bytes = fs.disk.slice (slotAddress fs.superblock k) inodeBytes := by
  rw [node, diskInode_eq, lookupAddress_eq h, bytes_readInode]

theorem iNumber_node_one (h : Table fs.superblock) :
    (fs.node 1).iNumber = fs.disk.readWord (slotAddress fs.superblock 1) := by
  rw [node, diskInode_eq, lookupAddress_eq (slotFits_one h)]
  rfl

/-- The sector of the superblock lies in front of the inodes. -/
theorem spares_superblock {s : Superblock} (h : Table s) :
    Spares s (sectorAddress superblockDiskSector) fsSector := by
  have hsector : sectorAddress superblockDiskSector = 4096 := by decide
  obtain ⟨hle, -⟩ := h
  left
  rw [hsector]
  rw [slotAddress, fsSector, fsBlock]
  omega

/-! ## A call -/

theorem splices_of_spares {s : Superblock} {m : ByteStore} {ws : List (ℕ × List UInt8)}
    (h : ∀ w ∈ ws, Spares s w.1 w.2.length) {k : ℕ} (hk : k < inodeBytes) :
    m.splices ws (slotAddress s 1 + k) = m (slotAddress s 1 + k) :=
  ByteStore.splices_of_not_reached fun w hw hreach ↦ by
    have := h w hw
    rw [Spares] at this
    rw [ByteStore.Reaches] at hreach
    omega

theorem spares_growWrites {parent : Inode} (hleaves : fs.LeavesRoot parent) :
    ∀ w ∈ fs.allocated.growWrites parent, Spares fs.superblock w.1 w.2.length := by
  intro w hw
  rw [growWrites] at hw
  split at hw
  · rename_i hgrows
    rw [List.mem_cons, List.mem_singleton] at hw
    rcases hw with rfl | rfl
    · -- the new block is the next free one
      have hbit : fs.allocated.superblock.firstFreeDataBit < 32768 := findFreeBit_lt ..
      have hblock : (fs.allocated.growDirectory parent).1.directPointers
          (bytesToBlocks (grownSize parent)) = (fs.superblock.firstDataBlock +
            fs.allocated.superblock.firstFreeDataBit) % 2 ^ 32 := by
        rw [growDirectory, if_pos hgrows]
        exact Function.update_self ..
      dsimp only
      rw [hblock, List.length_replicate]
      exact hleaves.block hgrows _ hbit
    · rw [Inode.length_bytes]
      exact hleaves.stored
  · exact absurd hw List.not_mem_nil

/-- An empty entry is not inode 1: both lie at multiples of 64, and inode 1 has a number. -/
theorem spares_entryWrites {s : Superblock} {disk : ByteStore} {dir : Inode} {blocks : ℕ}
    {e : DirEntry} (hname : e.name.length ≤ 59) (hone : disk.readWord (slotAddress s 1) ≠ 0) :
    ∀ w ∈ entryWrites disk dir blocks e, Spares s w.1 w.2.length := by
  intro w hw
  rw [entryWrites] at hw
  split at hw
  · rename_i i j hempty
    obtain ⟨-, -, hzero⟩ := emptyEntry_some hempty
    rw [List.mem_singleton] at hw
    subst hw
    dsimp only
    rw [DirEntry.length_bytes hname]
    have hne : sectorAddress (blockSector (dir.directPointers i)) + j * dirEntryBytes ≠
        slotAddress s 1 := fun he ↦ hone (he ▸ hzero)
    rw [Spares, slotAddress, sectorAddress, fsSector, fsBlock, inodeBytes, dirEntryBytes] at *
    omega
  · exact absurd hw List.not_mem_nil

/-- The writes of a call that leaves inode 1 alone. -/
theorem spares_createWrites {c : CreateCall} (h : Table fs.superblock)
    (hone : (fs.node 1).iNumber = 1) (hname : (getNamePath c.path).length ≤ 59)
    (hleaves : fs.LeavesRoot (fs.getParentInode c.path)) :
    ∀ w ∈ fs.createWrites c.path c.behind, Spares fs.superblock w.1 w.2.length := by
  have hgrow := spares_growWrites hleaves
  have hearly : ∀ w ∈ [(chunkAddress fs.superblock.firstInodeBitmap fs.superblock.firstFreeInodeBit,
        markedChunk fs.disk fs.superblock.firstInodeBitmap fs.superblock.firstFreeInodeBit),
      (chunkAddress fs.superblock.firstDataBitmap fs.cachedBlock,
        markedChunk fs.takeInode.disk fs.superblock.firstDataBitmap fs.cachedBlock),
      (inodeAddress fs.superblock fs.superblock.firstFreeInodeBit,
        (newInode fs.superblock.firstFreeInodeBit fs.cachedBlock).bytes)],
      Spares fs.superblock w.1 w.2.length := by
    simp only [List.forall_mem_cons, List.not_mem_nil, false_imp_iff, implies_true, and_true,
      length_markedChunk, Inode.length_bytes]
    exact ⟨hleaves.inodeBit, hleaves.dataBit, hleaves.inode⟩
  -- inode 1 still has its number when the entry is looked for
  have hword : (fs.grownParent c.path).2.disk.readWord (slotAddress fs.superblock 1) ≠ 0 := by
    rw [grownParent, growDirectory_disk, allocated_disk, ← ByteStore.splices_append,
      ByteStore.readWord_congr fun k hk ↦ splices_of_spares
        (fun w hw ↦ (List.mem_append.mp hw).elim (hearly w) (hgrow w))
        (Nat.lt_trans hk (by decide : 4 < inodeBytes)), ← iNumber_node_one h, hone]
    decide
  intro w hw
  rw [createWrites] at hw
  simp only [List.mem_append] at hw
  rcases hw with ((hw | hw) | hw) | hw
  · exact hearly w hw
  · exact hgrow w hw
  · exact spares_entryWrites hname hword w hw
  · rw [List.mem_cons, List.mem_singleton] at hw
    rcases hw with rfl | rfl
    · dsimp only
      rw [Inode.length_bytes]
      exact hleaves.stored
    · dsimp only
      rw [length_superblockSector]
      exact spares_superblock h

/-- What a call leaves behind. -/
theorem create_cases {c : CreateCall} (hcall : fs.create c = some fs') :
    (getNamePath c.path).length ≤ 59 ∧
    fs'.disk = fs.disk.splices (fs.createWrites c.path c.behind) ∧
    fs'.superblock.firstInodeBlock = fs.superblock.firstInodeBlock ∧
    fs'.rootInode = (if fs.rootInode.iNumber = (fs.getParentInode c.path).iNumber
      then fs.storedParent c.path else fs.rootInode) ∧
    fs'.currentDirInode = (if fs.currentDirInode.iNumber = (fs.getParentInode c.path).iNumber
      then fs.storedParent c.path else fs.currentDirInode) := by
  obtain ⟨r, hcreate, rfl⟩ := Option.map_eq_some_iff.mp hcall
  have hname := name_le_of_createFile hcreate
  rw [createFile_eq hname, Option.some.injEq] at hcreate
  obtain ⟨_, _, hs⟩ := Creating.grownParent_superblock fs c.path
  rw [← hcreate]
  dsimp only
  exact ⟨hname, rfl, by rw [hs], rfl, rfl⟩

/-- The caches hold what inode 1 is on the disk. -/
theorem IsRoot.bytes_eq {inode : Inode} (h : fs.IsRoot inode) : inode.bytes = (fs.node 1).bytes := by
  rw [h.2.2, h.1]

theorem IsRoot.node_one {inode : Inode} (h : fs.IsRoot inode) : (fs.node 1).iNumber = 1 :=
  (Inode.fields_of_bytes h.bytes_eq h.2.1 (readInode_inRange ..)).1.symm.trans h.1

/-- **What one call preserves.** -/
theorem Coherent.create {c : CreateCall} (h : fs.Coherent) (htable : Table fs.superblock)
    (hspares : fs.SparesRoot c) (hcall : fs.create c = some fs') :
    fs'.Coherent ∧ Table fs'.superblock := by
  obtain ⟨hname, hdisk, hfirst, hroot, hcurrent⟩ := create_cases hcall
  have htable' : Table fs'.superblock := by
    rw [Table, hfirst]
    exact htable
  have hnode : (fs'.node 1).bytes = (fs.disk.splices (fs.createWrites c.path c.behind)).slice
      (slotAddress fs.superblock 1) inodeBytes := by
    rw [bytes_node_of_slotFits (slotFits_one htable'), hdisk, slotAddress, hfirst, slotAddress]
  -- it is enough to look at one cache
  suffices hkeep : ∀ cached cached' : Inode, fs.IsRoot cached →
      cached' = (if cached.iNumber = (fs.getParentInode c.path).iNumber then fs.storedParent c.path
        else cached) → fs'.IsRoot cached' from
    ⟨⟨hkeep _ _ h.1 hroot, hkeep _ _ h.2 hcurrent⟩, htable'⟩
  intro cached cached' hcached hcached'
  rw [hcached.1] at hcached'
  by_cases hparent : (fs.getParentInode c.path).iNumber = 1
  · -- the parent is stored last, and in the cache
    obtain ⟨hnum, hrange⟩ :=
      storedParent_inRange (getParentInode_inRange h.1.2.1 h.2.2.1 c.path)
    rw [if_pos hparent.symm] at hcached'
    subst hcached'
    refine ⟨hnum.trans hparent, hrange, ?_⟩
    rw [hnum, hparent, hnode, createWrites, hparent, inodeAddress_eq_slot (slotFits_one htable)]
    refine (ByteStore.slice_splices_self fs.disk _ [_] (Inode.length_bytes _) fun w hw ↦ ?_).symm
    rw [List.mem_singleton.mp hw]
    dsimp only
    rw [length_superblockSector]
    exact spares_superblock htable
  · rw [if_neg fun he ↦ hparent he.symm] at hcached'
    subst hcached'
    have hleaves := hspares.resolve_left hparent
    refine ⟨hcached.1, hcached.2.1, ?_⟩
    rw [hcached.1, hnode, hcached.bytes_eq, bytes_node_of_slotFits (slotFits_one htable)]
    exact (ByteStore.slice_congr fun k hk ↦
      splices_of_spares (spares_createWrites htable h.1.node_one hname hleaves) hk).symm

/-- **The caches hold inode 1** after every run, if no call whose parent is another directory writes
to it. -/
theorem coherent_of_meets (h : fs.Prepared) (hcoherent : fs.Coherent) {calls : List CreateCall}
    (hC : Run.Meets create SparesRoot fs calls) (hrun : Run.exec create fs calls = some fs') :
    fs'.Coherent :=
  (Run.Meets.invariant (fun fs ↦ fs.Coherent ∧ Table fs.superblock)
    (fun _ _ _ hs hc hcall ↦ hs.1.create hs.2 hc hcall) ⟨hcoherent, h.table⟩ hC hrun).1

/-! ## A bit that falls into the inode table -/

/-- The root, with its only entry for the directory `d`, and `d`, with its only entry for itself:
inodes 1 and 2, in the blocks 317 and 318. -/
def twoDirsDisk : ByteStore := fun x ↦
  if x = 8192 then 3
  else if x = 16448 then 1 else if x = 16452 then 1 else if x = 16453 then 64
  else if x = 16481 then 0x3D else if x = 16482 then 1
  else if x = 16512 then 2 else if x = 16516 then 1 else if x = 16517 then 64
  else if x = 16545 then 0x3E else if x = 16546 then 1
  else if x = 1298432 then 2 else if x = 1298436 then 0x64
  else if x = 1302528 then 2 else if x = 1302532 then 0x2E
  else 0

/-- The disk is made for 20030 files with this many blocks. -/
def twoDirs (fileBlocks : ℕ) : Fs where
  disk := twoDirsDisk
  superblock := writeSuperblock ⟨20030, fileBlocks⟩
  rootInode := diskInode twoDirsDisk (writeSuperblock ⟨20030, fileBlocks⟩) 1
  currentDirInode := diskInode twoDirsDisk (writeSuperblock ⟨20030, fileBlocks⟩) 1

/-- `d/x`. -/
def pathInD : List UInt8 := [0x64, slash, 0x78]

/-- The bytes that the definition does not list. -/
theorem twoDirsDisk_out {x : ℕ} (h : x ≠ 8192) (hslots : x < 16448 ∨ 16546 < x)
    (hdata : x < 1298432) : twoDirsDisk x = 0 := by
  rw [twoDirsDisk, if_neg h]
  repeat rw [if_neg (by omega)]

theorem twoDirs_superblock (fileBlocks : ℕ) : (twoDirs fileBlocks).superblock.firstInodeBlock = 4 ∧
    (twoDirs fileBlocks).superblock.firstDataBlock = 317 ∧
    (twoDirs fileBlocks).superblock.numInodes = 20032 ∧
    (twoDirs fileBlocks).superblock.firstFreeInodeBit = 20032 ∧
    (twoDirs fileBlocks).superblock.firstInodeBitmap = 0 ∧
    (twoDirs fileBlocks).superblock.firstDataBitmap = 0 :=
  (show (writeSuperblock ⟨20030, 0⟩).firstInodeBlock = 4 ∧
    (writeSuperblock ⟨20030, 0⟩).firstDataBlock = 317 ∧
    (writeSuperblock ⟨20030, 0⟩).numInodes = 20032 ∧
    (writeSuperblock ⟨20030, 0⟩).firstFreeInodeBit = 20032 ∧
    (writeSuperblock ⟨20030, 0⟩).firstInodeBitmap = 0 ∧
    (writeSuperblock ⟨20030, 0⟩).firstDataBitmap = 0 by decide)

theorem twoDirs_table (fileBlocks : ℕ) : Table (twoDirs fileBlocks).superblock :=
  writeSuperblock_table _

theorem twoDirs_node (fileBlocks : ℕ) {k : ℕ} (hk : k < 20032) :
    (twoDirs fileBlocks).node k = readInode twoDirsDisk (16384 + k * 64) := by
  have hfirst := (twoDirs_superblock fileBlocks).1
  have hfits : SlotFits (twoDirs fileBlocks).superblock k := by
    rw [SlotFits, fsBlock, inodeBytes]
    omega
  rw [node, diskInode_eq, lookupAddress_eq hfits, slotAddress, hfirst]
  rfl

theorem twoDirs_prepared (fileBlocks : ℕ) : (twoDirs fileBlocks).Prepared := by
  obtain ⟨hfirst, hdata, hnum, hfree, -, -⟩ := twoDirs_superblock fileBlocks
  refine ⟨⟨⟨20030, fileBlocks⟩, _, _, _, rfl⟩, ?_, fun k hk ↦ ?_, fun b hb ↦ ?_, by rw [hfree]; decide⟩
  · rw [slotAddress, hfirst, hdata, hnum]
    decide
  · rw [hnum] at hk
    rw [twoDirs_node fileBlocks hk]
    dsimp only [readInode]
    rcases eq_or_ne k 1 with rfl | h₁
    · exact Or.inl (by decide)
    rcases eq_or_ne k 2 with rfl | h₂
    · exact Or.inl (by decide)
    exact Or.inr (ByteStore.readWord_of_zero fun _ _ ↦
      twoDirsDisk_out (by omega) (by omega) (by omega))
  · have hblock : (twoDirs fileBlocks).superblock.firstInodeBitmapBlock = 2 := rfl
    have hbyte : (twoDirs fileBlocks).disk (2 * fsBlock) = 3 :=
      (show twoDirsDisk (2 * fsBlock) = 3 by decide)
    rw [hblock, hbyte]
    obtain rfl | rfl : b = 0 ∨ b = 1 := by omega
    · decide
    · decide

theorem twoDirs_coherent (fileBlocks : ℕ) : (twoDirs fileBlocks).Coherent := by
  have hnode := twoDirs_node fileBlocks (show 1 < 20032 by decide)
  have hone : ((twoDirs fileBlocks).node 1).iNumber = 1 := by
    rw [hnode]
    dsimp only [readInode]
    decide
  have hroot : (twoDirs fileBlocks).IsRoot ((twoDirs fileBlocks).node 1) :=
    ⟨hone, by rw [hnode]; exact readInode_inRange .., by rw [hone]⟩
  have hcached : (twoDirs fileBlocks).rootInode = (twoDirs fileBlocks).node 1 ∧
      (twoDirs fileBlocks).currentDirInode = (twoDirs fileBlocks).node 1 := by
    simp only [twoDirs, node, and_self]
  exact ⟨by rw [hcached.1]; exact hroot, by rw [hcached.2]; exact hroot⟩

/-- The parent of `d/x` does not depend on the size of the disk. -/
theorem twoDirs_parent : ∀ fileBlocks ∈ [100, 130951],
    ((twoDirs fileBlocks).getParentInode pathInD).iNumber = 2 ∧
      ((twoDirs fileBlocks).getParentInode pathInD).size = 64 := by decide +kernel

theorem twoDirs_not_grows {fileBlocks : ℕ} (h : fileBlocks ∈ [100, 130951]) :
    ¬ Grows ((twoDirs fileBlocks).getParentInode pathInD) := by
  have hsize := (twoDirs_parent fileBlocks h).2
  rw [Grows, grownSize, hsize]
  decide

/-- A file in `d` on a small disk: the root stays as it is. -/
theorem coherent_twoDirs : ∃ fs',
    Run.exec create (twoDirs 100) [⟨pathInD, fun _ ↦ 0⟩] = some fs' ∧ fs'.Coherent := by
  have hname : (getNamePath pathInD).length ≤ 59 := by decide
  have hstep : create (twoDirs 100) ⟨pathInD, fun _ ↦ 0⟩ = some _ :=
    congrArg (Option.map Prod.snd) (createFile_eq hname fun _ ↦ 0)
  have hmem : 100 ∈ [100, 130951] := by decide
  have hleaves : (twoDirs 100).LeavesRoot ((twoDirs 100).getParentInode pathInD) := by
    refine ⟨by decide, by decide, by decide, ?_, fun hgrows ↦ absurd hgrows (twoDirs_not_grows hmem)⟩
    rw [(twoDirs_parent 100 hmem).1]
    decide
  have hmeets : Run.Meets create SparesRoot (twoDirs 100) [⟨pathInD, fun _ ↦ 0⟩] :=
    ⟨Or.inr hleaves, fun _ _ ↦ trivial⟩
  exact ⟨_, Run.exec_singleton hstep, coherent_of_meets (twoDirs_prepared 100) (twoDirs_coherent 100)
    hmeets (Run.exec_singleton hstep)⟩

/-- Block 131585 is handed out.  Its bit, counted from block 0, is bit 1 of inode 1. -/
theorem twoDirs_marked (ws : List (ℕ × List UInt8))
    (hws : ∀ w ∈ ws, w.1 + w.2.length ≤ 16448 ∨ 16448 + 8 ≤ w.1) :
    ((twoDirs 130951).disk.splices
      ([(chunkAddress 0 20032, markedChunk (twoDirs 130951).disk 0 20032)] ++
        (chunkAddress 0 131585, markedChunk (twoDirs 130951).takeInode.disk 0 131585) ::
        ws)).readWord 16448 = 3 := by
  obtain ⟨-, -, -, hfree, hbitmap, -⟩ := twoDirs_superblock 130951
  have haddr : chunkAddress 0 131585 = 16448 := by decide
  have hslice : (twoDirs 130951).takeInode.disk.slice 16448 8 = [1, 0, 0, 0, 1, 64, 0, 0] := by
    have hchunk : chunkAddress 0 20032 = 2504 := by decide
    have horig : (twoDirs 130951).disk.slice 16448 8 = [1, 0, 0, 0, 1, 64, 0, 0] :=
      (show twoDirsDisk.slice 16448 8 = _ by decide)
    rw [takeInode, setInodeBitmap, hfree, hbitmap, setBitmap_eq, hchunk,
      ByteStore.slice_splice_of_apart (by rw [length_markedChunk]; decide), horig]
  have hmarked : markedChunk (twoDirs 130951).takeInode.disk 0 131585 =
      [3, 0, 0, 0] ++ [1, 64, 0, 0] := by
    rw [markedChunk, haddr, hslice]
    decide
  have hself := ByteStore.slice_splices_self (twoDirs 130951).disk
    [(chunkAddress 0 20032, markedChunk (twoDirs 130951).disk 0 20032)] ws
    (length_markedChunk (twoDirs 130951).takeInode.disk 0 131585) hws
  rw [ByteStore.slice_append _ _ 4 4, hmarked] at hself
  rw [haddr, hmarked, ByteStore.readWord, (List.append_inj hself (ByteStore.length_slice ..)).1]
  rfl

/-- The writes of `create_file("d/x")`, none of which restores inode 1. -/
theorem twoDirs_createWrites : ∃ ws,
    (twoDirs 130951).createWrites pathInD (fun _ ↦ 0) =
      [(chunkAddress 0 20032, markedChunk (twoDirs 130951).disk 0 20032)] ++
        (chunkAddress 0 131585, markedChunk (twoDirs 130951).takeInode.disk 0 131585) :: ws ∧
    ∀ w ∈ ws, w.1 + w.2.length ≤ 16448 ∨ 16448 + 8 ≤ w.1 := by
  obtain ⟨hfirst, -, -, hfree, hbitmap, hdata⟩ := twoDirs_superblock 130951
  have hblock : (twoDirs 130951).cachedBlock = 131585 := by decide
  have hparent := (twoDirs_parent 130951 (by decide)).1
  have hgrow :
      (twoDirs 130951).allocated.growWrites ((twoDirs 130951).getParentInode pathInD) = [] := by
    rw [growWrites]
    exact if_neg (twoDirs_not_grows (by decide))
  have hnew : inodeAddress (twoDirs 130951).superblock 20032 = 1298432 := by decide
  have hstored : inodeAddress (twoDirs 130951).superblock 2 = 16512 := by decide
  have hslot : slotAddress (twoDirs 130951).superblock 1 = 16448 := by decide
  have hearly : ∀ w ∈ [(1298432, (newInode 20032 131585).bytes)],
      w.1 + w.2.length ≤ 16448 ∨ 16448 + 8 ≤ w.1 := by
    intro w hw
    rw [List.mem_singleton.mp hw]
    exact Or.inr (show 16448 + 8 ≤ 1298432 by decide)
  have hword : ((twoDirs 130951).grownParent pathInD).2.disk.readWord
      (slotAddress (twoDirs 130951).superblock 1) ≠ 0 := by
    have hmarked := twoDirs_marked _ hearly
    rw [grownParent, growDirectory_disk, hgrow, ByteStore.splices_nil, allocated_disk, hfree, hbitmap,
      hdata, hblock, hnew, hslot]
    rw [List.cons_append, List.nil_append] at hmarked
    rw [hmarked]
    decide
  refine ⟨[(1298432, (newInode 20032 131585).bytes)] ++
    entryWrites ((twoDirs 130951).grownParent pathInD).2.disk ((twoDirs 130951).grownParent pathInD).1
      (bytesToBlocks (grownSize ((twoDirs 130951).getParentInode pathInD)))
      ⟨20032, getNamePath pathInD⟩ ++
    [(16512, ((twoDirs 130951).storedParent pathInD).bytes), (sectorAddress superblockDiskSector,
      superblockSector ((twoDirs 130951).grownParent pathInD).2.superblock fun _ ↦ 0)], ?_, ?_⟩
  · rw [createWrites, hgrow, hfree, hbitmap, hdata, hblock, hparent, hnew, hstored, List.append_nil]
    rfl
  · intro w hw
    simp only [List.mem_append] at hw
    rcases hw with (hw | hw) | hw
    · exact hearly w hw
    · have := spares_entryWrites (show (getNamePath pathInD).length ≤ 59 by decide) hword w hw
      rw [Spares, hslot] at this
      exact this.imp_right fun h ↦ Nat.le_trans (by decide) h
    · rw [List.mem_cons, List.mem_singleton] at hw
      rcases hw with rfl | rfl
      · exact Or.inr (show 16448 + 8 ≤ 16512 by decide)
      · left
        dsimp only
        rw [length_superblockSector]
        decide

/-- The root directory loses its number. -/
theorem not_coherent_twoDirs : ∃ fs', (twoDirs 130951).Prepared ∧ (twoDirs 130951).Coherent ∧
    Run.exec create (twoDirs 130951) [⟨pathInD, fun _ ↦ 0⟩] = some fs' ∧ ¬ fs'.Coherent := by
  have hname : (getNamePath pathInD).length ≤ 59 := by decide
  have hstep : create (twoDirs 130951) ⟨pathInD, fun _ ↦ 0⟩ = some _ :=
    congrArg (Option.map Prod.snd) (createFile_eq hname fun _ ↦ 0)
  refine ⟨_, twoDirs_prepared _, twoDirs_coherent _, Run.exec_singleton hstep, fun hcoherent ↦ ?_⟩
  obtain ⟨-, hdisk, hfirst, -, -⟩ := create_cases hstep
  obtain ⟨ws, hwrites, hws⟩ := twoDirs_createWrites
  have htable : Table (twoDirs 130951).superblock := twoDirs_table _
  have hslot : slotAddress (twoDirs 130951).superblock 1 = 16448 := by decide
  have hnum := hcoherent.1.node_one
  rw [iNumber_node_one (by rw [Table, hfirst]; exact htable), hdisk, slotAddress, hfirst,
    ← slotAddress, hslot, hwrites, twoDirs_marked ws hws] at hnum
  exact absurd hnum (by decide)

end Fs

end AbOS
