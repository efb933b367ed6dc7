import AbOS.Fs.Layout
import AbOS.Lib.ByteStore

/-!
# Inodes on the disk

The disk is a `ByteStore`.  The kernel reaches it by sectors, with 28-bit addresses, and by blocks
of eight sectors.  An inode is a packed record of 64 bytes: `Inode.bytes` lays it out and
`readInode` reads it back.

`updateInode` rewrites the sector an inode lies in.  What it changes on the disk is the 64 bytes of
the inode (`updateInode_of_not_mem`).
-/

set_option autoImplicit false

namespace AbOS

/-! ## Sectors -/

/-- The byte address of a sector: `rw_sectors` hands 28 bits of its number to the drive. -/
def sectorAddress (sector : ℕ) : ℕ := sector % 2 ^ 28 * fsSector

/-- `rw_sectors(sectors, starting_sector, _, READ)`. -/
def readSectors (disk : ByteStore) (sectors start : ℕ) : List UInt8 :=
  disk.slice (sectorAddress start) (sectors * fsSector)

/-- `rw_sectors(_, starting_sector, _, WRITE)` of the bytes `bs`. -/
def writeSectors (disk : ByteStore) (start : ℕ) (bs : List UInt8) : ByteStore :=
  disk.splice (sectorAddress start) bs

/-- The first sector of a block. -/
def blockSector (block : ℕ) : ℕ := block * sectorsPerBlock % 2 ^ 32

/-- A block of a drive with 28-bit addresses starts where one expects. -/
theorem sectorAddress_blockSector {block : ℕ} (h : block < 2 ^ 25) :
    sectorAddress (blockSector block) = block * fsBlock := by
  rw [sectorAddress, blockSector, sectorsPerBlock, fsSector, fsBlock]
  rw [Nat.mod_eq_of_lt (show block * 8 < 2 ^ 32 by omega),
    Nat.mod_eq_of_lt (show block * 8 < 2 ^ 28 by omega)]
  omega

theorem length_readSectors (disk : ByteStore) (sectors start : ℕ) :
    (readSectors disk sectors start).length = sectors * fsSector :=
  ByteStore.length_slice ..

theorem writeSectors_of_not_mem {disk : ByteStore} {start x : ℕ} {bs : List UInt8}
    (h : x < sectorAddress start ∨ sectorAddress start + bs.length ≤ x) :
    writeSectors disk start bs x = disk x := ByteStore.splice_of_not_mem h

/-! ## Inodes -/

/-- `fs_time_t`. -/
structure FsTime where
  second : ℕ
  minute : ℕ
  hour : ℕ
  day : ℕ
  month : ℕ
  year : ℕ
  padding : ℕ
  deriving DecidableEq, Repr

/-- `(fs_time_t){0}`. -/
def FsTime.zero : FsTime := ⟨0, 0, 0, 0, 0, 0, 0⟩

def FsTime.bytes (t : FsTime) : List UInt8 :=
  [UInt8.ofNat t.second, UInt8.ofNat t.minute, UInt8.ofNat t.hour, UInt8.ofNat t.day,
    UInt8.ofNat t.month] ++ ByteStore.leBytes 2 t.year ++ [UInt8.ofNat t.padding]

def readFsTime (m : ByteStore) (a : ℕ) : FsTime where
  second := (m a).toNat
  minute := (m (a + 1)).toNat
  hour := (m (a + 2)).toNat
  day := (m (a + 3)).toNat
  month := (m (a + 4)).toNat
  year := ByteStore.ofLe (m.slice (a + 5) 2)
  padding := (m (a + 7)).toNat

/-- `inode_t`.  `directPointers i` is what the code reads at index `i`: the first seven are the
inode's own, the others are what lies behind them in memory. -/
@[ext] structure Inode where
  iNumber : ℕ
  fileType : ℕ
  size : ℕ
  timeAccessed : FsTime
  timeModified : FsTime
  timeCreated : FsTime
  directPointers : ℕ → ℕ
  singleIndirectBlock : ℕ
  maxCount : ℕ
  padding : ℕ

/-- `sizeof(inode_t)`. -/
def inodeBytes : ℕ := 64

/-- `INODES_PER_SECTOR`. -/
def inodesPerSector : ℕ := fsSector / inodeBytes

/-- `INODES_PER_BLOCK`. -/
def inodesPerBlock : ℕ := fsBlock / inodeBytes

def fileTypeFile : ℕ := 0

def fileTypeDir : ℕ := 1

namespace Inode

/-- `(inode_t){0}`. -/
def zero : Inode := ⟨0, 0, 0, FsTime.zero, FsTime.zero, FsTime.zero, fun _ ↦ 0, 0, 0, 0⟩

/-- The packed record. -/
def bytes (n : Inode) : List UInt8 :=
  ByteStore.leBytes 4 n.iNumber ++ ([UInt8.ofNat n.fileType] ++ (ByteStore.leBytes 4 n.size ++
    (n.timeAccessed.bytes ++ (n.timeModified.bytes ++ (n.timeCreated.bytes ++
      ((List.range 7).flatMap (fun i ↦ ByteStore.leBytes 4 (n.directPointers i)) ++
        [UInt8.ofNat n.singleIndirectBlock, UInt8.ofNat n.maxCount, UInt8.ofNat n.padding]))))))

end Inode

/-- The inode at `a`. -/
def readInode (m : ByteStore) (a : ℕ) : Inode where
  iNumber := m.readWord a
  fileType := (m (a + 4)).toNat
  size := m.readWord (a + 5)
  timeAccessed := readFsTime m (a + 9)
  timeModified := readFsTime m (a + 17)
  timeCreated := readFsTime m (a + 25)
  directPointers := fun i ↦ m.readWord (a + 33 + 4 * i)
  singleIndirectBlock := (m (a + 61)).toNat
  maxCount := (m (a + 62)).toNat
  padding := (m (a + 63)).toNat

@[simp] theorem FsTime.length_bytes (t : FsTime) : t.bytes.length = 8 := by simp [FsTime.bytes]

@[simp] theorem Inode.length_bytes (n : Inode) : n.bytes.length = inodeBytes := by
  simp [Inode.bytes, inodeBytes, List.range_succ]

/-! ## The record and its fields -/

/-- The fields that the code works with fit into the record. -/
structure Inode.InRange (n : Inode) : Prop where
  iNumber : n.iNumber < 2 ^ 32
  fileType : n.fileType < 2 ^ 8
  size : n.size < 2 ^ 32
  directPointers : ∀ i, i < 7 → n.directPointers i < 2 ^ 32

theorem readInode_inRange (m : ByteStore) (a : ℕ) : (readInode m a).InRange :=
  ⟨m.readWord_lt _, UInt8.toNat_lt _, m.readWord_lt _, fun _ _ ↦ m.readWord_lt _⟩

theorem bytes_readFsTime (m : ByteStore) (a : ℕ) : (readFsTime m a).bytes = m.slice a 8 := by
  have hyear : ByteStore.leBytes 2 (ByteStore.ofLe (m.slice (a + 5) 2)) = m.slice (a + 5) 2 := by
    have h := ByteStore.leBytes_ofLe (m.slice (a + 5) 2)
    rwa [ByteStore.length_slice] at h
  simp only [FsTime.bytes, readFsTime, hyear, UInt8.ofNat_toNat]
  simp [ByteStore.slice, List.range_succ]

/-- Writing out what was read gives the 64 bytes back. -/
theorem bytes_readInode (m : ByteStore) (a : ℕ) : (readInode m a).bytes = m.slice a inodeBytes := by
  have hword : ∀ b, ByteStore.leBytes 4 (m.readWord b) = m.slice b 4 := fun b ↦ by
    have h := ByteStore.leBytes_ofLe (m.slice b 4)
    rwa [ByteStore.length_slice] at h
  simp only [Inode.bytes, readInode, hword, UInt8.ofNat_toNat, bytes_readFsTime]
  simp [ByteStore.slice, List.range_succ, inodeBytes]

/-- The size in a record. -/
theorem readInode_size {m : ByteStore} {a : ℕ} {n : Inode} (h : m.slice a inodeBytes = n.bytes)
    (hsize : n.size < 2 ^ 32) : (readInode m a).size = n.size := by
  have hsplit : m.slice a inodeBytes =
      m.slice a 4 ++ (m.slice (a + 4) 1 ++ (m.slice (a + 5) 4 ++ m.slice (a + 9) 55)) := by
    rw [← ByteStore.slice_append, ← ByteStore.slice_append, ← ByteStore.slice_append]
    rfl
  rw [hsplit, Inode.bytes] at h
  obtain ⟨-, h⟩ := List.append_inj h (by rw [ByteStore.length_slice, ByteStore.length_leBytes])
  obtain ⟨-, h⟩ := List.append_inj h (ByteStore.length_slice ..)
  obtain ⟨hword, -⟩ := List.append_inj h (by rw [ByteStore.length_slice, ByteStore.length_leBytes])
  rw [readInode]
  show ByteStore.ofLe (m.slice (a + 5) 4) = n.size
  rw [hword, ByteStore.ofLe_leBytes]
  exact Nat.mod_eq_of_lt hsize

/-- Pieces of equal lengths can be read off their concatenation. -/
theorem eq_of_flatMap_eq {l : List ℕ} {f g : ℕ → List UInt8}
    (hlen : ∀ i, (f i).length = (g i).length) (h : l.flatMap f = l.flatMap g) {i : ℕ} (hi : i ∈ l) :
    f i = g i := by
  induction l with
  | nil => exact absurd hi List.not_mem_nil
  | cons j l ih =>
    rw [List.flatMap_cons, List.flatMap_cons] at h
    obtain ⟨hj, h⟩ := List.append_inj h (hlen j)
    rcases List.mem_cons.mp hi with rfl | hi
    · exact hj
    · exact ih h hi

/-- The fields are determined by the record. -/
theorem Inode.fields_of_bytes {n n' : Inode} (h : n.bytes = n'.bytes) (hn : n.InRange)
    (hn' : n'.InRange) :
    n.iNumber = n'.iNumber ∧ n.fileType = n'.fileType ∧ n.size = n'.size ∧
      ∀ i, i < 7 → n.directPointers i = n'.directPointers i := by
  have hle : ∀ {v v' : ℕ}, v < 2 ^ 32 → v' < 2 ^ 32 →
      ByteStore.leBytes 4 v = ByteStore.leBytes 4 v' → v = v' := fun {v v'} hv hv' heq ↦ by
    have h := congrArg ByteStore.ofLe heq
    rw [ByteStore.ofLe_leBytes, ByteStore.ofLe_leBytes] at h
    omega
  have hlen : ∀ v v' : ℕ, (ByteStore.leBytes 4 v).length = (ByteStore.leBytes 4 v').length :=
    fun v v' ↦ by rw [ByteStore.length_leBytes, ByteStore.length_leBytes]
  have htime : ∀ t t' : FsTime, t.bytes.length = t'.bytes.length := fun t t' ↦ by
    rw [FsTime.length_bytes, FsTime.length_bytes]
  rw [Inode.bytes, Inode.bytes] at h
  obtain ⟨hnum, h⟩ := List.append_inj h (hlen ..)
  obtain ⟨htype, h⟩ := List.append_inj h rfl
  obtain ⟨hsize, h⟩ := List.append_inj h (hlen ..)
  obtain ⟨-, h⟩ := List.append_inj h (htime ..)
  obtain ⟨-, h⟩ := List.append_inj h (htime ..)
  obtain ⟨-, h⟩ := List.append_inj h (htime ..)
  obtain ⟨hptr, -⟩ := List.append_inj' h rfl
  refine ⟨hle hn.iNumber hn'.iNumber hnum, ?_, hle hn.size hn'.size hsize, fun i hi ↦
    hle (hn.directPointers i hi) (hn'.directPointers i hi) ?_⟩
  · have h := congrArg UInt8.toNat (List.singleton_inj.mp htype)
    rwa [UInt8.toNat_ofNat', UInt8.toNat_ofNat', Nat.mod_eq_of_lt hn.fileType,
      Nat.mod_eq_of_lt hn'.fileType] at h
  · exact eq_of_flatMap_eq (fun i ↦ hlen ..) hptr (List.mem_range.mpr hi)

/-! ## The superblock -/

/-- `superblock_t`; `inode_size`, `max_file_size`, `root_i_number`, `device_number` and the padding
are only carried along. -/
structure Superblock where
  numInodes : ℕ
  numInodesBitmap : ℕ
  numDataBitmap : ℕ
  numInodesPerBlock : ℕ
  numInodesPerSector : ℕ
  numInodeBlocks : ℕ
  firstInodeBitmap : ℕ
  firstInodeBitmapBlock : ℕ
  firstDataBitmapBlock : ℕ
  firstDataBitmap : ℕ
  firstInodeBlock : ℕ
  firstDataBlock : ℕ
  inodeSize : ℕ
  numDatablocks : ℕ
  maxFileSize : ℕ
  rootINumber : ℕ
  firstFreeInodeBit : ℕ
  firstFreeDataBit : ℕ
  deviceNumber : ℕ
  deriving DecidableEq, Repr

/-! ## Writing an inode -/

/-- The sector of an inode in `update_inode`. -/
def updateSector (superblock : Superblock) (iNumber : ℕ) : ℕ :=
  (superblock.firstInodeBlock * sectorsPerBlock + iNumber / inodesPerSector) % 2 ^ 32

/-- `update_inode`: read the sector, replace the inode, write the sector back. -/
def updateInode (disk : ByteStore) (superblock : Superblock) (inode : Inode) : ByteStore :=
  let sector := updateSector superblock inode.iNumber
  let buffer : ByteStore := fun x ↦ disk (sectorAddress sector + x)
  let buffer := buffer.splice (inode.iNumber % inodesPerSector * inodeBytes) inode.bytes
  writeSectors disk sector (buffer.slice 0 fsSector)

/-- Where `update_inode` puts the inode. -/
def inodeAddress (superblock : Superblock) (iNumber : ℕ) : ℕ :=
  sectorAddress (updateSector superblock iNumber) + iNumber % inodesPerSector * inodeBytes

/-- Inodes lie one behind the other, if the drive can address them. -/
theorem inodeAddress_eq {superblock : Superblock} {iNumber : ℕ}
    (h : superblock.firstInodeBlock * fsBlock + iNumber * inodeBytes < 2 ^ 37) :
    inodeAddress superblock iNumber = superblock.firstInodeBlock * fsBlock + iNumber * inodeBytes := by
  rw [inodeAddress, updateSector, sectorAddress, inodesPerSector, sectorsPerBlock]
  rw [fsBlock, inodeBytes] at h ⊢
  rw [fsSector]
  rw [Nat.mod_eq_of_lt (show superblock.firstInodeBlock * 8 + iNumber / (512 / 64) < 2 ^ 32 by omega),
    Nat.mod_eq_of_lt (show superblock.firstInodeBlock * 8 + iNumber / (512 / 64) < 2 ^ 28 by omega)]
  omega

/-- Only the bytes of the inode change. -/
theorem updateInode_eq (disk : ByteStore) (superblock : Superblock) (inode : Inode) :
    updateInode disk superblock inode =
      disk.splice (inodeAddress superblock inode.iNumber) inode.bytes := by
  have hslot : inode.iNumber % inodesPerSector * inodeBytes + inodeBytes ≤ fsSector := by
    rw [inodesPerSector, inodeBytes, fsSector]
    omega
  rw [updateInode, writeSectors, inodeAddress]
  exact ByteStore.splice_slice_splice (by rw [Inode.length_bytes]; exact hslot)

end AbOS
