import AbOS.Fs.Inode

/-!
# Looking up a path

A directory is a file of 64-byte entries, each an inode number and a name.  `get_inode` walks a path
from the root or from the current directory, one component after the other, and answers with the
zero inode when there is none.

Strings are the bytes before the terminating zero, so `strcmp` is equality.  A name that fills its
60 bytes without a zero runs on into the next entry, as it does in the block buffer.
-/

set_option autoImplicit false

namespace AbOS

/-- What the file-system functions work on: the disk, and the globals of `fs_commands.c`. -/
@[ext] structure Fs where
  disk : ByteStore
  superblock : Superblock
  rootInode : Inode
  currentDirInode : Inode

/-- `dir_entry_t`, with its name as a string. -/
structure DirEntry where
  iNumber : ℕ
  name : List UInt8
  deriving DecidableEq, Repr

/-- `sizeof(dir_entry_t)`. -/
def dirEntryBytes : ℕ := 64

/-- `DIR_ENTRIES_PER_BLOCK`. -/
def dirEntriesPerBlock : ℕ := fsBlock / dirEntryBytes

/-- The bytes in front of the terminating zero. -/
def cString (bs : List UInt8) : List UInt8 := bs.takeWhile fun b ↦ b != 0

/-- The entry `j` of the directory block that starts at `a`. -/
def readDirEntry (disk : ByteStore) (a j : ℕ) : DirEntry where
  iNumber := disk.readWord (a + j * dirEntryBytes)
  name := cString (disk.slice (a + j * dirEntryBytes + 4) (fsBlock - (j * dirEntryBytes + 4)))

/-- The entries of a directory, block after block, the empty ones included. -/
def dirEntries (disk : ByteStore) (dir : Inode) : List DirEntry :=
  (List.range (bytesToBlocks dir.size)).flatMap fun i ↦
    (List.range dirEntriesPerBlock).map fun j ↦
      readDirEntry disk (sectorAddress (blockSector (dir.directPointers i))) j

/-- `inode_sector`. -/
def inodeSector (superblock : Superblock) (iNumber : ℕ) : ℕ :=
  (iNumber * inodeBytes + superblock.firstInodeBlock * fsBlock) % 2 ^ 32 / fsSector

/-- The inode that `get_inode_in_dir` reads for a number. -/
def diskInode (disk : ByteStore) (superblock : Superblock) (iNumber : ℕ) : Inode :=
  readInode disk (sectorAddress (inodeSector superblock iNumber) +
    iNumber % inodesPerSector * inodeBytes)

/-- `get_inode_in_dir`. -/
def getInodeInDir (disk : ByteStore) (superblock : Superblock) (currentDir : Inode)
    (file : List UInt8) : Inode :=
  match (dirEntries disk currentDir).find? fun e ↦ e.iNumber != 0 && e.name == file with
  | some e => diskInode disk superblock e.iNumber
  | none => Inode.zero

/-- `'/'`. -/
def slash : UInt8 := 0x2F

namespace Fs

/-- The loop of `get_inode`, with the component read so far. -/
def getInodeFrom (fs : Fs) : Inode → List UInt8 → List UInt8 → Inode
  | current, str, [] =>
    let inode := getInodeInDir fs.disk fs.superblock current str
    if inode.iNumber = 0 then Inode.zero else inode
  | current, str, c :: path =>
    if c = slash then
      let inode := getInodeInDir fs.disk fs.superblock current str
      if inode.iNumber = 0 then Inode.zero else getInodeFrom fs inode [] path
    else if str.length < 59 then getInodeFrom fs current (str ++ [c]) path
    else Inode.zero

/-- `get_inode`. -/
def getInode (fs : Fs) (path : List UInt8) : Inode :=
  match path with
  | [] => fs.getInodeFrom fs.currentDirInode [] []
  | c :: rest =>
    if c = slash then fs.getInodeFrom fs.rootInode [] rest
    else fs.getInodeFrom fs.currentDirInode [] (c :: rest)

end Fs

end AbOS
