import AbOS.Fs.Path
import Mathlib.Logic.Function.Basic

/-!
# `create_file`

`create_file` takes the inode number and the data block that the superblock caches as free, writes
the inode, enters it into the parent directory at the first empty entry and stores the parent and
the superblock.  It never looks whether any of this is possible.

Each step of the function is a definition of its own, and each has an equation that says which bytes
of the disk it overwrites (`editBlock_eq`, `setBitmap_eq`, `storeInode_disk`).  The steps together
are a list of writes, `Fs.createWrites`, which `createFile_disk` performs.

`update_superblock` writes a whole sector, of which the superblock is only the beginning.  What
stands behind its nineteen words in memory is the argument `behind` of the model.
-/

set_option autoImplicit false

namespace AbOS

/-! ## Blocks, bitmaps and the superblock -/

/-- Read a block, overwrite some bytes of it, and write it back. -/
def editBlock (disk : ByteStore) (start offset : ℕ) (bs : List UInt8) : ByteStore :=
  let buffer : ByteStore := fun x ↦ disk (sectorAddress start + x)
  let buffer := buffer.splice offset bs
  writeSectors disk start (buffer.slice 0 (sectorsPerBlock * fsSector))

/-- `1 << n` as the machine computes it, in 32 bits and with the count taken modulo 32, and then
extended to the 64 bits of the chunk. -/
def shiftedOne (n : ℕ) : ℕ := if n % 32 = 31 then 0xFFFFFFFF80000000 else 2 ^ (n % 32)

/-- `set_inode_bitmap` and `set_data_bitmap`, which differ in the field that holds `first`. -/
def setBitmap (disk : ByteStore) (first bit : ℕ) (set : Bool) : ByteStore :=
  let start := (first + bit / 32768) * sectorsPerBlock % 2 ^ 32
  let index := bit % 32768
  let chunk := ByteStore.ofLe (disk.slice (sectorAddress start + index / 64 * 8) 8)
  let mask := shiftedOne (index % 64)
  editBlock disk start (index / 64 * 8)
    (ByteStore.leBytes 8 (if set then chunk ||| mask else chunk &&& (2 ^ 64 - 1 - mask)))

def setInodeBitmap (disk : ByteStore) (superblock : Superblock) (bit : ℕ) (set : Bool) : ByteStore :=
  setBitmap disk superblock.firstInodeBitmap bit set

def setDataBitmap (disk : ByteStore) (superblock : Superblock) (bit : ℕ) (set : Bool) : ByteStore :=
  setBitmap disk superblock.firstDataBitmap bit set

/-- The first clear bit of a word. -/
def clearBit (word : ℕ) : Option ℕ :=
  if word = 0xFFFFFFFF then none else (List.range 32).find? fun k ↦ !word.testBit k

/-- `find_free_bit`.  The number of the bitmap's block does not enter into the result. -/
def findFreeBit (disk : ByteStore) (startBlock lengthBlocks : ℕ) : ℕ :=
  ((List.range lengthBlocks).findSome? fun i ↦
    let a := sectorAddress ((startBlock + i) * sectorsPerBlock % 2 ^ 32)
    (List.range (fsBlock / 4)).findSome? fun j ↦
      (clearBit (disk.readWord (a + 4 * j))).map fun k ↦ j * 32 + k).getD 0

/-- The nineteen words of the superblock. -/
def Superblock.words (s : Superblock) : List ℕ :=
  [s.numInodes, s.numInodesBitmap, s.numDataBitmap, s.numInodesPerBlock, s.numInodesPerSector,
    s.numInodeBlocks, s.firstInodeBitmap, s.firstInodeBitmapBlock, s.firstDataBitmapBlock,
    s.firstDataBitmap, s.firstInodeBlock, s.firstDataBlock, s.inodeSize, s.numDatablocks,
    s.maxFileSize, s.rootINumber, s.firstFreeInodeBit, s.firstFreeDataBit, s.deviceNumber]

/-- `SUPERBLOCK_DISK_SECTOR`. -/
def superblockDiskSector : ℕ := 8

/-- The sector at `SUPERBLOCK_ADDRESS` that `update_superblock` writes. -/
def superblockSector (s : Superblock) (behind : ByteStore) : List UInt8 :=
  s.words.flatMap (ByteStore.leBytes 4) ++ behind.slice 0 (fsSector - 19 * 4)

/-- `update_superblock`. -/
def updateSuperblock (disk : ByteStore) (s : Superblock) (behind : ByteStore) : ByteStore :=
  writeSectors disk superblockDiskSector (superblockSector s behind)

theorem editBlock_eq {disk : ByteStore} {start offset : ℕ} {bs : List UInt8}
    (h : offset + bs.length ≤ fsBlock) :
    editBlock disk start offset bs = disk.splice (sectorAddress start + offset) bs :=
  ByteStore.splice_slice_splice h

/-- Where the chunk of a bit lies. -/
def chunkAddress (first bit : ℕ) : ℕ :=
  sectorAddress ((first + bit / 32768) * sectorsPerBlock % 2 ^ 32) + bit % 32768 / 64 * 8

/-- The chunk with the bit set. -/
def markedChunk (disk : ByteStore) (first bit : ℕ) : List UInt8 :=
  ByteStore.leBytes 8 (ByteStore.ofLe (disk.slice (chunkAddress first bit) 8) |||
    shiftedOne (bit % 32768 % 64))

/-- Setting a bit overwrites its chunk. -/
theorem setBitmap_eq (disk : ByteStore) (first bit : ℕ) :
    setBitmap disk first bit true =
      disk.splice (chunkAddress first bit) (markedChunk disk first bit) := by
  have hindex : bit % 32768 / 64 * 8 + 8 ≤ fsBlock := by
    rw [fsBlock]
    omega
  rw [setBitmap, editBlock_eq (by rw [ByteStore.length_leBytes]; exact hindex), if_pos rfl, markedChunk,
    chunkAddress]

@[simp] theorem length_markedChunk (disk : ByteStore) (first bit : ℕ) :
    (markedChunk disk first bit).length = 8 := ByteStore.length_leBytes ..

@[simp] theorem length_superblockSector (s : Superblock) (behind : ByteStore) :
    (superblockSector s behind).length = fsSector := by
  simp [superblockSector, Superblock.words, fsSector]

/-! ## Directory entries -/

/-- The packed entry, as `strcpy` leaves it in a zeroed record. -/
def DirEntry.bytes (e : DirEntry) : List UInt8 :=
  ByteStore.leBytes 4 e.iNumber ++ (e.name ++ List.replicate (60 - e.name.length) 0)

theorem DirEntry.length_bytes {e : DirEntry} (h : e.name.length ≤ 59) :
    e.bytes.length = dirEntryBytes := by
  simp only [DirEntry.bytes, List.length_append, ByteStore.length_leBytes, List.length_replicate,
    dirEntryBytes]
  omega

/-- The first empty entry in the blocks that `create_file` searches. -/
def emptyEntry (disk : ByteStore) (dir : Inode) (blocks : ℕ) : Option (ℕ × ℕ) :=
  (List.range blocks).findSome? fun i ↦
    ((List.range dirEntriesPerBlock).find? fun j ↦
      disk.readWord (sectorAddress (blockSector (dir.directPointers i)) + j * dirEntryBytes) == 0).map
        fun j ↦ (i, j)

/-- The loop that enters the new file: nothing happens when no entry is empty. -/
def insertEntry (disk : ByteStore) (dir : Inode) (blocks : ℕ) (e : DirEntry) : ByteStore :=
  match emptyEntry disk dir blocks with
  | some (i, j) => editBlock disk (blockSector (dir.directPointers i)) (j * dirEntryBytes) e.bytes
  | none => disk

namespace Fs

/-! ## The steps of `create_file` -/

/-- Mark the cached inode number and search for the next one. -/
def takeInode (fs : Fs) : Fs :=
  let disk := setInodeBitmap fs.disk fs.superblock fs.superblock.firstFreeInodeBit true
  { fs with
    disk
    superblock := { fs.superblock with
      firstFreeInodeBit :=
        findFreeBit disk fs.superblock.firstInodeBitmapBlock fs.superblock.numInodesBitmap } }

/-- The block that the cached data bit stands for. -/
def cachedBlock (fs : Fs) : ℕ :=
  (fs.superblock.firstDataBlock + fs.superblock.firstFreeDataBit) % 2 ^ 32

/-- Search for the next data bit. -/
def nextDataBit (fs : Fs) : Fs :=
  { fs with
    superblock := { fs.superblock with
      firstFreeDataBit :=
        findFreeBit fs.disk fs.superblock.firstDataBitmapBlock fs.superblock.numDataBitmap } }

/-- Mark the cached block, by its absolute number, and search for the next data bit. -/
def takeBlock (fs : Fs) : Fs :=
  nextDataBit { fs with disk := setDataBitmap fs.disk fs.superblock fs.cachedBlock true }

/-- `update_inode`. -/
def storeInode (fs : Fs) (inode : Inode) : Fs :=
  { fs with disk := updateInode fs.disk fs.superblock inode }

/-- The new inode. -/
def newInode (iNumber block : ℕ) : Inode :=
  { Inode.zero with
    iNumber
    fileType := fileTypeFile
    size := fsBlock
    directPointers := Function.update (fun _ ↦ 0) 0 block }

/-- `parent_inode.size + sizeof(dir_entry_t)`. -/
def grownSize (dir : Inode) : ℕ := (dir.size + dirEntryBytes) % 2 ^ 32

/-- The new directory block: it is taken and cleared if there are less than two so far, but its
number goes one pointer too far. -/
def growDirectory (fs : Fs) (dir : Inode) : Inode × Fs :=
  let blocks := bytesToBlocks dir.size
  let newBlocks := bytesToBlocks (grownSize dir)
  if newBlocks > blocks ∧ blocks < 2 then
    let dir := { dir with directPointers := Function.update dir.directPointers newBlocks fs.cachedBlock }
    let fs := fs.nextDataBit
    let disk := writeSectors fs.disk (blockSector (dir.directPointers newBlocks))
      (List.replicate fsBlock 0)
    (dir, storeInode { fs with disk } dir)
  else (dir, fs)

/-- Keep the cached copies of the parent up to date. -/
def recache (fs : Fs) (dir : Inode) : Fs :=
  { fs with
    currentDirInode := if fs.currentDirInode.iNumber = dir.iNumber then dir else fs.currentDirInode
    rootInode := if fs.rootInode.iNumber = dir.iNumber then dir else fs.rootInode }

/-- `create_file`.  With a name of 60 bytes or more `strcpy` runs over the end of `new_entry`, onto
the stack, and the model has no result. -/
def createFile (fs : Fs) (path : List UInt8) (behind : ByteStore) : Option (Inode × Fs) :=
  let parent := fs.getParentInode path
  let inode := newInode fs.superblock.firstFreeInodeBit fs.takeInode.cachedBlock
  let fs := fs.takeInode.takeBlock.storeInode inode
  if 60 ≤ (getNamePath path).length then none
  else
    let (dir, fs) := fs.growDirectory parent
    let fs := { fs with
      disk := insertEntry fs.disk dir (bytesToBlocks (grownSize parent))
        ⟨inode.iNumber, getNamePath path⟩ }
    let dir := { dir with size := grownSize parent }
    let fs := (fs.storeInode dir).recache dir
    some (inode, { fs with disk := updateSuperblock fs.disk fs.superblock behind })

/-! ## The writes of a call -/

/-- What `growDirectory` writes. -/
def growWrites (fs : Fs) (dir : Inode) : List (ℕ × List UInt8) :=
  let newBlocks := bytesToBlocks (grownSize dir)
  if newBlocks > bytesToBlocks dir.size ∧ bytesToBlocks dir.size < 2 then
    [(sectorAddress (blockSector ((fs.growDirectory dir).1.directPointers newBlocks)),
        List.replicate fsBlock 0),
      (inodeAddress fs.superblock dir.iNumber, (fs.growDirectory dir).1.bytes)]
  else []

/-- What `insertEntry` writes. -/
def entryWrites (disk : ByteStore) (dir : Inode) (blocks : ℕ) (e : DirEntry) :
    List (ℕ × List UInt8) :=
  match emptyEntry disk dir blocks with
  | some (i, j) =>
    [(sectorAddress (blockSector (dir.directPointers i)) + j * dirEntryBytes, e.bytes)]
  | none => []

theorem growDirectory_disk (fs : Fs) (dir : Inode) :
    (fs.growDirectory dir).2.disk = fs.disk.splices (fs.growWrites dir) := by
  rw [growDirectory, growWrites]
  split
  · simp only [storeInode, updateInode_eq, ByteStore.splices_cons, ByteStore.splices_nil, growDirectory,
      if_pos ‹_›]
    rfl
  · rfl

theorem growDirectory_iNumber (fs : Fs) (dir : Inode) :
    (fs.growDirectory dir).1.iNumber = dir.iNumber := by
  rw [growDirectory]
  split <;> rfl

theorem insertEntry_eq {disk : ByteStore} {dir : Inode} {blocks : ℕ} {e : DirEntry}
    (h : e.name.length ≤ 59) :
    insertEntry disk dir blocks e = disk.splices (entryWrites disk dir blocks e) := by
  rw [insertEntry, entryWrites]
  cases he : emptyEntry disk dir blocks with
  | none => rfl
  | some p =>
    obtain ⟨i, -, hi⟩ := List.exists_of_findSome?_eq_some he
    obtain ⟨j, hj, rfl⟩ := Option.map_eq_some_iff.mp hi
    have hlt := List.mem_range.mp (List.mem_of_find?_eq_some hj)
    rw [dirEntriesPerBlock] at hlt
    refine editBlock_eq ?_
    rw [DirEntry.length_bytes h]
    rw [fsBlock, dirEntryBytes] at *
    omega

/-- The state in which the inode has been written and the parent is about to get its entry. -/
def allocated (fs : Fs) : Fs :=
  fs.takeInode.takeBlock.storeInode (newInode fs.superblock.firstFreeInodeBit fs.cachedBlock)

/-- The parent and the state after the growing of the directory. -/
def grownParent (fs : Fs) (path : List UInt8) : Inode × Fs :=
  fs.allocated.growDirectory (fs.getParentInode path)

/-- The parent as it is stored at the end. -/
def storedParent (fs : Fs) (path : List UInt8) : Inode :=
  { (fs.grownParent path).1 with size := grownSize (fs.getParentInode path) }

/-- All writes of `create_file`, in order. -/
def createWrites (fs : Fs) (path : List UInt8) (behind : ByteStore) : List (ℕ × List UInt8) :=
  let superblock := fs.superblock
  let iNumber := superblock.firstFreeInodeBit
  let blocks := bytesToBlocks (grownSize (fs.getParentInode path))
  [(chunkAddress superblock.firstInodeBitmap iNumber,
      markedChunk fs.disk superblock.firstInodeBitmap iNumber),
    (chunkAddress superblock.firstDataBitmap fs.cachedBlock,
      markedChunk fs.takeInode.disk superblock.firstDataBitmap fs.cachedBlock),
    (inodeAddress superblock iNumber, (newInode iNumber fs.cachedBlock).bytes)] ++
  fs.allocated.growWrites (fs.getParentInode path) ++
  entryWrites (fs.grownParent path).2.disk (fs.grownParent path).1 blocks
    ⟨iNumber, getNamePath path⟩ ++
  [(inodeAddress superblock (fs.getParentInode path).iNumber, (fs.storedParent path).bytes),
    (sectorAddress superblockDiskSector,
      superblockSector (fs.grownParent path).2.superblock behind)]

theorem growDirectory_caches (fs : Fs) (dir : Inode) :
    (fs.growDirectory dir).2.currentDirInode = fs.currentDirInode ∧
      (fs.growDirectory dir).2.rootInode = fs.rootInode := by
  rw [growDirectory]
  split <;> exact ⟨rfl, rfl⟩

theorem growDirectory_inodeAddress (fs : Fs) (dir : Inode) (iNumber : ℕ) :
    inodeAddress (fs.growDirectory dir).2.superblock iNumber = inodeAddress fs.superblock iNumber := by
  rw [growDirectory]
  split <;> rfl

/-- The two marks. -/
theorem takeBlock_disk (fs : Fs) : fs.takeInode.takeBlock.disk = fs.disk.splices
    [(chunkAddress fs.superblock.firstInodeBitmap fs.superblock.firstFreeInodeBit,
        markedChunk fs.disk fs.superblock.firstInodeBitmap fs.superblock.firstFreeInodeBit),
      (chunkAddress fs.superblock.firstDataBitmap fs.cachedBlock,
        markedChunk fs.takeInode.disk fs.superblock.firstDataBitmap fs.cachedBlock)] := by
  have htake : fs.takeInode.disk = fs.disk.splice _ _ := setBitmap_eq ..
  have hblock : fs.takeInode.takeBlock.disk = fs.takeInode.disk.splice
      (chunkAddress fs.superblock.firstDataBitmap fs.cachedBlock)
      (markedChunk fs.takeInode.disk fs.superblock.firstDataBitmap fs.cachedBlock) :=
    setBitmap_eq ..
  rw [hblock, ByteStore.splices_cons, ByteStore.splices_cons, ByteStore.splices_nil, ← htake]

theorem allocated_disk (fs : Fs) : fs.allocated.disk = fs.disk.splices
    [(chunkAddress fs.superblock.firstInodeBitmap fs.superblock.firstFreeInodeBit,
        markedChunk fs.disk fs.superblock.firstInodeBitmap fs.superblock.firstFreeInodeBit),
      (chunkAddress fs.superblock.firstDataBitmap fs.cachedBlock,
        markedChunk fs.takeInode.disk fs.superblock.firstDataBitmap fs.cachedBlock),
      (inodeAddress fs.superblock fs.superblock.firstFreeInodeBit,
        (newInode fs.superblock.firstFreeInodeBit fs.cachedBlock).bytes)] := by
  rw [allocated, storeInode]
  dsimp only
  rw [updateInode_eq, takeBlock_disk]
  rfl

/-- A call returns only if the name fits into an entry. -/
theorem name_le_of_createFile {fs : Fs} {path : List UInt8} {behind : ByteStore} {r : Inode × Fs}
    (h : fs.createFile path behind = some r) : (getNamePath path).length ≤ 59 := by
  by_contra hlong
  rw [createFile, if_pos (by omega)] at h
  exact Option.some_ne_none r h.symm

/-- **What `create_file` returns and leaves behind.**  It fails only by overrunning the name. -/
theorem createFile_eq {fs : Fs} {path : List UInt8} (hname : (getNamePath path).length ≤ 59)
    (behind : ByteStore) :
    fs.createFile path behind = some
      (newInode fs.superblock.firstFreeInodeBit fs.cachedBlock,
        { disk := fs.disk.splices (fs.createWrites path behind)
          superblock := (fs.grownParent path).2.superblock
          rootInode := if fs.rootInode.iNumber = (fs.getParentInode path).iNumber
            then fs.storedParent path else fs.rootInode
          currentDirInode := if fs.currentDirInode.iNumber = (fs.getParentInode path).iNumber
            then fs.storedParent path else fs.currentDirInode }) := by
  obtain ⟨hcurrent, hroot⟩ := fs.allocated.growDirectory_caches (fs.getParentInode path)
  have hnum : (fs.storedParent path).iNumber = (fs.getParentInode path).iNumber := by
    rw [storedParent, grownParent]
    dsimp only
    rw [growDirectory_iNumber]
  have hdisk : fs.disk.splices (fs.createWrites path behind) =
      (((insertEntry (fs.grownParent path).2.disk (fs.grownParent path).1
        (bytesToBlocks (grownSize (fs.getParentInode path)))
        ⟨fs.superblock.firstFreeInodeBit, getNamePath path⟩).splice
        (inodeAddress fs.superblock (fs.getParentInode path).iNumber)
        (fs.storedParent path).bytes).splice (sectorAddress superblockDiskSector)
        (superblockSector (fs.grownParent path).2.superblock behind)) := by
    rw [createWrites, ByteStore.splices_append, ByteStore.splices_append, ByteStore.splices_append,
      ← allocated_disk, ← growDirectory_disk, insertEntry_eq hname]
    rfl
  have haddr : inodeAddress (fs.grownParent path).2.superblock (fs.getParentInode path).iNumber =
      inodeAddress fs.superblock (fs.getParentInode path).iNumber :=
    fs.allocated.growDirectory_inodeAddress ..
  have hstored : { (fs.grownParent path).1 with size := grownSize (fs.getParentInode path) } =
      fs.storedParent path := rfl
  replace hcurrent : (fs.grownParent path).2.currentDirInode = fs.currentDirInode := hcurrent
  replace hroot : (fs.grownParent path).2.rootInode = fs.rootInode := hroot
  have hgrown : (fs.takeInode.takeBlock.storeInode (newInode fs.superblock.firstFreeInodeBit
      fs.takeInode.cachedBlock)).growDirectory (fs.getParentInode path) = fs.grownParent path := rfl
  have hblock : fs.takeInode.cachedBlock = fs.cachedBlock := rfl
  rw [createFile, if_neg (by omega), hdisk, hgrown, hblock]
  generalize fs.grownParent path = g at *
  obtain ⟨dir, fs₁⟩ := g
  dsimp only at haddr hstored hcurrent hroot ⊢
  rw [hstored, storeInode, updateInode_eq, recache]
  dsimp only
  rw [hnum, haddr, hcurrent, hroot]
  rfl

end Fs

end AbOS
