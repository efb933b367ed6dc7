import AbOS.Fs.CreateFile

/-!
# The formatter

`format_disk.c` turns a directory of the host into a disk image.  It goes through the tree twice:
`get_file_info` counts, for the superblock, and `write_file_data` hands out inode numbers and blocks
and writes the inodes, the directories and the contents of the files.

A host tree is a `Host`, with the entries of each directory in the order in which `readdir` lists
them; `.` and `..` are left out, and counted as two.  The writes go to a log, in order, and the image
is what they leave behind.

The inode bitmap has `superblock.num_inode_bitmap` blocks in the source, a field that `fs.h` calls
`num_inodes_bitmap`.
-/

set_option autoImplicit false

namespace AbOS

/-- What a directory of the host contains: regular files and directories. -/
inductive Host where
  | file (name contents : List UInt8)
  | dir (name : List UInt8) (entries : List Host)

namespace Host

def name : Host → List UInt8
  | file name _ => name
  | dir name _ => name

end Host

/-- `prekernel.bin`. -/
def prekernelBin : List UInt8 :=
  [0x70, 0x72, 0x65, 0x6B, 0x65, 0x72, 0x6E, 0x65, 0x6C, 0x2E, 0x62, 0x69, 0x6E]

/-- `kernel.bin`. -/
def kernelBin : List UInt8 := [0x6B, 0x65, 0x72, 0x6E, 0x65, 0x6C, 0x2E, 0x62, 0x69, 0x6E]

/-- `512*2880`. -/
def diskSize : ℕ := 1474560

/-- The size of a directory of `n` entries and `.` and `..`, in 32 bits. -/
def dirSize (n : ℕ) : ℕ := (2 + n) * dirEntryBytes % 2 ^ 32

/-! ## Counting -/

/-- `num_files` and `file_blocks`. -/
structure FileInfo where
  numFiles : ℕ
  fileBlocks : ℕ
  deriving DecidableEq, Repr

/-- `file_blocks += bytes_to_blocks(bytes)`. -/
def FileInfo.addBlocks (info : FileInfo) (bytes : ℕ) : FileInfo :=
  { info with fileBlocks := (info.fileBlocks + bytesToBlocks (bytes % 2 ^ 32)) % 2 ^ 32 }

/-- `num_files++`. -/
def FileInfo.addFile (info : FileInfo) : FileInfo :=
  { info with numFiles := (info.numFiles + 1) % 2 ^ 32 }

mutual

/-- What `get_file_info` does for one entry. -/
def Host.getFileInfo : Host → FileInfo → FileInfo
  | .file _ contents, info => info.addFile.addBlocks contents.length
  | .dir _ entries, info =>
    (getFileInfoEntries entries info.addFile).addBlocks (dirSize entries.length)

/-- The loop of `get_file_info`. -/
def getFileInfoEntries : List Host → FileInfo → FileInfo
  | [], info => info
  | h :: hs, info => getFileInfoEntries hs (h.getFileInfo info)

end

/-- `get_file_info`. -/
def getFileInfo (entries : List Host) : FileInfo :=
  (getFileInfoEntries entries ⟨0, 0⟩).addBlocks (dirSize entries.length)

/-! ## The metadata -/

/-- `write_superblock`.  `first_inode_bitmap` and `first_data_bitmap` are never set. -/
def writeSuperblock (info : FileInfo) : Superblock :=
  let numInodes := (info.numFiles + 2) % 2 ^ 32
  let numInodesBitmap := numInodes / (fsBlock * 8) + if numInodes % (fsBlock * 8) ≠ 0 then 1 else 0
  let firstDataBitmapBlock := 2 + numInodesBitmap
  let numInodeBlocks := numInodes / inodesPerBlock
  let dataBlocks := (bytesToBlocks diskSize + 2 ^ 33 - firstDataBitmapBlock - numInodeBlocks - 1) % 2 ^ 32
  let numDataBitmap := dataBlocks / (fsBlock * 8) + if dataBlocks % (fsBlock * 8) ≠ 0 then 1 else 0
  let firstInodeBlock := firstDataBitmapBlock + numDataBitmap
  let firstDataBlock := firstInodeBlock + numInodes / inodesPerBlock
  { numInodes, numInodesBitmap, numDataBitmap
    numInodesPerBlock := inodesPerBlock
    numInodesPerSector := inodesPerSector
    numInodeBlocks
    firstInodeBitmap := 0
    firstInodeBitmapBlock := 2
    firstDataBitmapBlock
    firstDataBitmap := 0
    firstInodeBlock, firstDataBlock
    inodeSize := inodeBytes
    numDatablocks := (firstDataBlock + info.fileBlocks) % 2 ^ 32
    maxFileSize := 0xFFFFFFFF
    rootINumber := 0
    firstFreeInodeBit := numInodes
    firstFreeDataBit := (firstDataBlock + info.fileBlocks) % 2 ^ 32
    deviceNumber := 1 }

/-- The words of a bitmap of `blocks` blocks, with the first one given. -/
def bitmapWords (first blocks : ℕ) : List ℕ :=
  first :: List.replicate (blocks * fsBlock / 4 - 1) 0xFFFFFFFF

/-- `write_inode_bitmap`. -/
def inodeBitmapWords (superblock : Superblock) : List ℕ :=
  bitmapWords 0x000000FF superblock.numInodesBitmap

/-- `write_data_bitmap`. -/
def dataBitmapWords (superblock : Superblock) : List ℕ :=
  bitmapWords 0x01FFFFFF superblock.numDataBitmap

/-! ## Files and directories -/

/-- A file or directory on the disk. -/
structure Placed where
  path : List (List UInt8)
  iNumber : ℕ
  fileType : ℕ
  size : ℕ
  blocks : List ℕ

/-- The globals of the formatter, what it has placed and what it has written. -/
structure Formatter where
  superblock : Superblock
  firstBlock : ℕ
  nextInodeId : ℕ
  placed : List Placed
  writes : List (ℕ × List UInt8)

/-- `n` blocks from `start` on. -/
def blocksFrom (start n : ℕ) : List ℕ := (List.range n).map fun i ↦ (start + i) % 2 ^ 32

/-- The time that the formatter gives to directories. -/
def dirTime : FsTime := { FsTime.zero with minute := 40, hour := 15, day := 28, month := 7, year := 2025 }

/-- The time that it gives to files. -/
def fileTime : FsTime :=
  { FsTime.zero with second := 6, minute := 13, hour := 18, day := 28, month := 7, year := 2025 }

/-- The inode that is written for a file or a directory. -/
def Placed.inode (p : Placed) : Inode :=
  { Inode.zero with
    iNumber := p.iNumber
    fileType := p.fileType
    size := p.size
    timeCreated := if p.fileType = fileTypeDir then dirTime else fileTime
    directPointers := fun i ↦ p.blocks.getD i 0 }

/-- Where the formatter writes an inode. -/
def seekInode (superblock : Superblock) (iNumber : ℕ) : ℕ :=
  (superblock.firstInodeBlock + iNumber / inodesPerBlock) * fsBlock % 2 ^ 32 +
    iNumber % inodesPerBlock * inodeBytes

/-- Where it writes the data, with `direct_pointers[0]` for the start. -/
def Placed.start (p : Placed) : ℕ := p.blocks.getD 0 0 * fsBlock % 2 ^ 32

/-- `strcpy` into the name of a directory entry that has been used before. -/
def strcpyName (buffer name : List UInt8) : List UInt8 := name ++ 0 :: buffer.drop (name.length + 1)

namespace Formatter

def write (st : Formatter) (address : ℕ) (bytes : List UInt8) : Formatter :=
  { st with writes := st.writes ++ [(address, bytes)] }

/-- Record the file and write its inode. -/
def place (st : Formatter) (p : Placed) : Formatter :=
  { st with placed := st.placed ++ [p] }.write (seekInode st.superblock p.iNumber) p.inode.bytes

/-- The inode number for a name.  A name that only begins with `prekernel.bin` counts as it. -/
def number (st : Formatter) (name : List UInt8) : ℕ × Formatter :=
  if prekernelBin.isPrefixOf name then (2, st)
  else if name = kernelBin then (3, st)
  else (st.nextInodeId, { st with nextInodeId := (st.nextInodeId + 1) % 2 ^ 32 })

/-- The next `n` blocks. -/
def takeBlocks (st : Formatter) (n : ℕ) : List ℕ × Formatter :=
  (blocksFrom st.firstBlock n, { st with firstBlock := (st.firstBlock + n) % 2 ^ 32 })

/-- The blocks of a regular file: blocks 7 to 13 are left out for the kernel, which gets its blocks
from 7 on. -/
def takeFileBlocks (st : Formatter) (name : List UInt8) (n : ℕ) : List ℕ × Formatter :=
  if name = kernelBin then
    let temp := st.firstBlock
    let (blocks, st) := { st with firstBlock := 7 }.takeBlocks n
    (blocks, if temp ≠ 0 then { st with firstBlock := temp } else st)
  else if st.firstBlock ≤ 13 ∧ 7 ≤ st.firstBlock then
    { st with firstBlock := st.firstBlock + 7 }.takeBlocks n
  else st.takeBlocks n

/-- A regular file: its inode, and its contents with zeros up to the end of the block. -/
def writeFile (st : Formatter) (path : List (List UInt8)) (name : List UInt8) (iNumber : ℕ)
    (contents : List UInt8) : Formatter :=
  let size := contents.length % 2 ^ 32
  let (blocks, st) := st.takeFileBlocks name (bytesToBlocks size)
  let p : Placed := { path, iNumber, fileType := fileTypeFile, size, blocks }
  (st.place p).write p.start
    (contents ++ List.replicate ((fsBlock - contents.length % fsBlock) % fsBlock) 0)

/-- The beginning of a directory: its blocks, its inode, and the entries `.` and `..`. -/
def openDir (st : Formatter) (path : List (List UInt8)) (iNumber parent n : ℕ) : ℕ × Formatter :=
  let (blocks, st) := st.takeBlocks (bytesToBlocks (dirSize n))
  let p : Placed := { path, iNumber, fileType := fileTypeDir, size := dirSize n, blocks }
  (p.start, ((st.place p).write p.start (DirEntry.bytes ⟨iNumber, [0x2E]⟩)).write
    (p.start + dirEntryBytes) (DirEntry.bytes ⟨parent, [0x2E, 0x2E]⟩))

/-- The end of a directory: zeros up to the end of the block. -/
def closeDir (st : Formatter) (start n : ℕ) : Formatter :=
  st.write (start + (2 + n) * dirEntryBytes)
    (List.replicate ((fsBlock - dirSize n % fsBlock) % fsBlock) 0)

end Formatter

mutual

/-- What `write_file_data` does with one entry of the directory `path`, whose number is `parent`,
when the entry has been given the number `iNumber`. -/
def Host.write (path : List (List UInt8)) (parent iNumber : ℕ) : Host → Formatter → Formatter
  | .file name contents, st => st.writeFile (path ++ [name]) name iNumber contents
  | .dir name entries, st =>
    let (start, st) := st.openDir (path ++ [name]) iNumber parent entries.length
    (writeEntries (path ++ [name]) iNumber start (strcpyName (List.replicate 60 0) [0x2E, 0x2E]) 2
      entries st).closeDir start entries.length

/-- The second loop of `write_file_data`, at the entry `i` of the directory that starts at
`start`. -/
def writeEntries (path : List (List UInt8)) (dir start : ℕ) (buffer : List UInt8) (i : ℕ) :
    List Host → Formatter → Formatter
  | [], st => st
  | h :: hs, st =>
    let (iNumber, st) := st.number h.name
    let buffer := strcpyName buffer h.name
    let st := st.write (start + i * dirEntryBytes) (ByteStore.leBytes 4 iNumber ++ buffer)
    writeEntries path dir start buffer (i + 1) hs (h.write path dir iNumber st)

end

/-- `write_file_data`. -/
def writeFileData (path : List (List UInt8)) (entries : List Host) (currInode parentInode : ℕ)
    (st : Formatter) : Formatter :=
  let (start, st) := st.openDir path currInode parentInode entries.length
  (writeEntries path currInode start (strcpyName (List.replicate 60 0) [0x2E, 0x2E]) 2 entries
    st).closeDir start entries.length

/-! ## The image -/

/-- The formatter after `write_file_data` has gone through the whole tree. -/
def formatTree (entries : List Host) : Formatter :=
  let superblock := writeSuperblock (getFileInfo entries)
  writeFileData [] entries 1 1
    { superblock, firstBlock := superblock.firstDataBlock, nextInodeId := 4, placed := [], writes := [] }

/-- How far the writes reach, from `e` on; writing nothing does not extend a file. -/
def writesEnd (e : ℕ) (writes : List (ℕ × List UInt8)) : ℕ :=
  writes.foldl (fun e w ↦ if w.2 = [] then e else max e (w.1 + w.2.length)) e

/-- The end of the image: everything in front of the inode table is written first, and then the
writes of the tree. -/
def imageEnd (st : Formatter) : ℕ :=
  writesEnd (st.superblock.firstInodeBlock * fsBlock) st.writes

/-- The size of the image: `init_inode_data_blocks` appends as many blocks as it has already. -/
def imageBytes (entries : List Host) : ℕ :=
  let e := imageEnd (formatTree entries)
  e + bytesToBlocks (e % 2 ^ 32) * fsBlock

end AbOS
