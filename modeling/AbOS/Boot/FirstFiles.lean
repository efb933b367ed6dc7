import AbOS.Boot.Loader
import AbOS.Fs.Bitmaps
import AbOS.Fs.DirectoryRuns

/-!
# The first files on a new image

The formatter sets `first_inode_bitmap_block`, and `create_file` searches there for the next free
inode; but it marks an inode through `first_inode_bitmap`, which the formatter leaves at 0, so that
the mark goes into the boot block.  The bitmap that is searched stays as the formatter wrote it, with
eight bits set.

So on the image of any tree the shell's `touch` takes inode numbers as follows (`touch_numbers`): the
first file gets the number behind the inode table, and its record is stored over the first entry of
the root; all others get inode 8, which belongs to a file or directory of the tree.

* `Touching` — what is known of the file system between the calls.
* `Touching.createFile` — one call.
* `Touching.record_stays` — nothing that the call writes afterwards reaches the record.
-/

set_option autoImplicit false

namespace AbOS

open ByteStore

/-! ## Numbers and blocks of a tree -/

/-- Numbers below `n` that are all different and not 0 are all numbers, if there are enough. -/
theorem mem_of_nodup_of_length {l : List ℕ} {n : ℕ} (hl : l.Nodup) (hlt : ∀ k ∈ l, k ≠ 0 ∧ k < n)
    (hlen : l.length + 1 = n) {k : ℕ} (hpos : 0 < k) (hk : k < n) : k ∈ l := by
  have hsub : l ⊆ List.range' 1 (n - 1) := fun i hi ↦
    List.mem_range'_1.mpr ⟨Nat.pos_of_ne_zero (hlt i hi).1, by have := (hlt i hi).2; omega⟩
  have hperm : l.Perm (List.range' 1 (n - 1)) :=
    (List.subperm_of_subset hl hsub).perm_of_length_le (by rw [List.length_range']; omega)
  exact hperm.mem_iff.mpr (List.mem_range'_1.mpr ⟨hpos, by omega⟩)

theorem Readable.numbered {entries : List Host} (h : Readable entries) {k : ℕ} (hpos : 0 < k)
    (hk : k < (treeSuperblock entries).numInodes) : Numbered entries k := by
  have hlen := length_iNumbers entries
  have hall : ∀ i ∈ (formatTree entries).placed.map Placed.iNumber,
      i ≠ 0 ∧ i < (treeSuperblock entries).numInodes := by
    intro i hi
    obtain ⟨p, hp, rfl⟩ := List.mem_map.mp hi
    exact ⟨h.unique.nonzero p hp, h.unique.inRange p hp⟩
  obtain ⟨p, hp, hnum⟩ := List.mem_map.mp (mem_of_nodup_of_length h.unique.distinct hall
    (by rw [hlen, h.numInodes]) hpos hk)
  exact ⟨p, hp, hnum⟩

/-- The cached data bit is a small number. -/
theorem Readable.firstFreeDataBit {entries : List Host} (h : Readable entries) :
    (treeSuperblock entries).firstFreeDataBit < 2 ^ 12 := by
  obtain ⟨hle, hdata⟩ := h.firstDataBlock
  have hblocks := fileBlocks_le h.toIsHostTree
  have hbit : (treeSuperblock entries).firstFreeDataBit =
      ((treeSuperblock entries).firstDataBlock + (getFileInfo entries).fileBlocks) % 2 ^ 32 := rfl
  rw [h.numInodes, inodeBytes, fsBlock] at hdata
  rw [hbit]
  refine Nat.lt_of_le_of_lt (Nat.mod_le _ _) ?_
  omega

/-! ## The search -/

/-- The first word of the bitmap has a clear bit. -/
theorem findFreeBit_of_head {disk : ByteStore} {start blocks k : ℕ} (hblocks : 0 < blocks)
    (h : clearBit (disk.readWord (sectorAddress (start * sectorsPerBlock % 2 ^ 32))) = some k) :
    findFreeBit disk start blocks = k := by
  obtain ⟨n, rfl⟩ := Nat.exists_eq_succ_of_ne_zero (Nat.pos_iff_ne_zero.mp hblocks)
  rw [findFreeBit, List.range_succ_eq_map, List.findSome?_cons]
  dsimp only
  rw [show fsBlock / 4 = 1023 + 1 from rfl, List.range_succ_eq_map, List.findSome?_cons]
  simp only [Nat.mul_zero, Nat.add_zero, Nat.zero_mul, Nat.zero_add, h, Option.map_some,
    Option.getD_some]

/-! ## What a call writes -/

/-- No byte of block 2, where the inode bitmap begins. -/
def AvoidsBitmap (w : ℕ × List UInt8) : Prop :=
  w.1 + w.2.length ≤ 2 * fsBlock ∨ 3 * fsBlock ≤ w.1

theorem readWord_splices_of_avoids {disk : ByteStore} {ws : List (ℕ × List UInt8)}
    (h : ∀ w ∈ ws, AvoidsBitmap w) :
    (disk.splices ws).readWord (2 * fsBlock) = disk.readWord (2 * fsBlock) := by
  refine readWord_congr fun k hk ↦ splices_of_not_reached fun w hw hreach ↦ ?_
  have havoids := h w hw
  rw [AvoidsBitmap, fsBlock] at havoids
  rw [Reaches, fsBlock] at hreach
  omega

/-- A block in front of the bitmap or behind its first block. -/
def Elsewhere (block : ℕ) : Prop := block = 0 ∨ 3 ≤ block ∧ block < 2 ^ 25

theorem Elsewhere.avoids {block off : ℕ} {bs : List UInt8} (h : Elsewhere block)
    (hoff : off + bs.length ≤ fsBlock) :
    AvoidsBitmap (sectorAddress (blockSector block) + off, bs) := by
  have hlt : block < 2 ^ 25 := by
    rcases h with rfl | h
    · decide
    · exact h.2
  rw [AvoidsBitmap, sectorAddress_blockSector hlt]
  dsimp only
  rw [fsBlock] at *
  rcases h with rfl | h <;> omega

theorem Elsewhere.avoids_block {block : ℕ} {bs : List UInt8} (h : Elsewhere block)
    (hbs : bs.length ≤ fsBlock) : AvoidsBitmap (sectorAddress (blockSector block), bs) := by
  have hall := @Elsewhere.avoids block 0 bs h (by rw [Nat.zero_add]; exact hbs)
  rwa [Nat.add_zero] at hall

/-- What is known between the calls. -/
structure Touching (s : Superblock) (fs : Fs) : Prop where
  firstInodeBitmap : fs.superblock.firstInodeBitmap = 0
  firstDataBitmap : fs.superblock.firstDataBitmap = 0
  firstInodeBitmapBlock : fs.superblock.firstInodeBitmapBlock = 2
  numInodesBitmap : 0 < fs.superblock.numInodesBitmap
  firstInodeBlock : 3 ≤ fs.superblock.firstInodeBlock ∧ fs.superblock.firstInodeBlock ≤ 7
  firstDataBlock : 3 ≤ fs.superblock.firstDataBlock ∧ fs.superblock.firstDataBlock ≤ 7
  firstFreeInodeBit : fs.superblock.firstFreeInodeBit = s.numInodes ∨
    fs.superblock.firstFreeInodeBit = 8
  firstFreeDataBit : fs.superblock.firstFreeDataBit < 2 ^ 15
  bitmap : fs.disk.readWord (2 * fsBlock) = 0xFF
  directory : fs.currentDirInode.iNumber = 1
  pointers : ∀ i < 7, Elsewhere (fs.currentDirInode.directPointers i)

namespace Touching

variable {s : Superblock} {fs : Fs} {path : List UInt8} (h : Touching s fs)
include h

theorem slotFits {k : ℕ} (hk : k < 2 ^ 16) : SlotFits fs.superblock k := by
  have htable := h.firstInodeBlock.2
  rw [SlotFits, fsBlock, inodeBytes]
  omega

/-- Inodes lie behind the bitmaps. -/
theorem avoids_inode {k : ℕ} (hk : k < 2 ^ 16) {bs : List UInt8} :
    AvoidsBitmap (inodeAddress fs.superblock k, bs) := by
  have htable := h.firstInodeBlock.1
  refine Or.inr ?_
  dsimp only
  rw [inodeAddress_eq_slot (h.slotFits hk), slotAddress, fsBlock]
  omega

/-- So are the blocks that are taken. -/
theorem elsewhere_cached {b : ℕ} (hb : b < 2 ^ 15) :
    Elsewhere ((fs.superblock.firstDataBlock + b) % 2 ^ 32) := by
  obtain ⟨hlow, hhigh⟩ := h.firstDataBlock
  rw [Nat.mod_eq_of_lt (by omega)]
  exact Or.inr ⟨by omega, by omega⟩

end Touching

/-- The marks go into the first blocks. -/
theorem chunk_le {n b : ℕ} (hn : n ≤ 2 ^ 10) (hb : b < n * 32768) {bs : List UInt8}
    (hbs : bs.length = 8) : chunkAddress 0 b + bs.length ≤ n * fsBlock := by
  rw [hbs, chunkAddress, sectorAddress, sectorsPerBlock, fsSector, fsBlock, Nat.zero_add,
    Nat.mod_eq_of_lt (show b / 32768 * 8 < 2 ^ 32 by omega),
    Nat.mod_eq_of_lt (show b / 32768 * 8 < 2 ^ 28 by omega)]
  omega

/-- The pointer to the block that a directory gets. -/
theorem Fs.growDirectory_new {fs : Fs} {dir : Inode}
    (hgrows : bytesToBlocks (Fs.grownSize dir) > bytesToBlocks dir.size ∧ bytesToBlocks dir.size < 2) :
    (fs.growDirectory dir).1.directPointers (bytesToBlocks (Fs.grownSize dir)) = fs.cachedBlock := by
  rw [Fs.growDirectory, if_pos hgrows]
  exact Function.update_self ..

namespace Touching

variable {s : Superblock} {fs : Fs} {path : List UInt8} (h : Touching s fs)
  (hslash : slash ∉ path)

omit h in
include hslash in
/-- The shell's directory is the parent. -/
theorem parent_eq : fs.getParentInode path = fs.currentDirInode := by
  rw [Fs.getParentInode, strrchr, strrchrFrom_of_not_mem hslash]

include h in
theorem elsewhere_allocated : Elsewhere fs.allocated.cachedBlock :=
  h.elsewhere_cached (findFreeBit_lt ..)

include h hslash in
/-- The directory keeps its pointers, up to one that is new. -/
theorem pointers_grown : ∀ i < 7, Elsewhere ((fs.grownParent path).1.directPointers i) := by
  intro i hi
  rw [Fs.grownParent, parent_eq hslash, Fs.growDirectory]
  split_ifs
  · dsimp only
    by_cases hnew : i = bytesToBlocks (Fs.grownSize fs.currentDirInode)
    · rw [hnew, Function.update_self]
      exact h.elsewhere_allocated
    · rw [Function.update_of_ne hnew]
      exact h.pointers i hi
  · exact h.pointers i hi

include h hslash in
theorem avoids_growWrites {w : ℕ × List UInt8}
    (hw : w ∈ fs.allocated.growWrites (fs.getParentInode path)) : AvoidsBitmap w := by
  rw [parent_eq hslash, Fs.growWrites] at hw
  split_ifs at hw with hgrows
  · rcases List.mem_cons.mp hw with rfl | hw
    · rw [Fs.growDirectory_new hgrows]
      exact h.elsewhere_allocated.avoids_block (Nat.le_of_eq (List.length_replicate ..))
    · rw [List.mem_singleton.mp hw, h.directory]
      exact h.avoids_inode (by decide)
  · exact absurd hw List.not_mem_nil

include h hslash in
theorem avoids_entryWrites {w : ℕ × List UInt8} {disk : ByteStore} {blocks : ℕ} {e : DirEntry}
    (he : e.name.length ≤ 59) (hblocks : blocks ≤ 7)
    (hw : w ∈ Fs.entryWrites disk (fs.grownParent path).1 blocks e) : AvoidsBitmap w := by
  rw [Fs.entryWrites] at hw
  cases hempty : emptyEntry disk (fs.grownParent path).1 blocks with
  | none =>
    rw [hempty] at hw
    exact absurd hw List.not_mem_nil
  | some r =>
    obtain ⟨i, j⟩ := r
    rw [hempty] at hw
    rw [List.mem_singleton.mp hw]
    obtain ⟨hi, hj, -⟩ := emptyEntry_some hempty
    refine (h.pointers_grown hslash i (by omega)).avoids ?_
    rw [DirEntry.length_bytes he]
    rw [dirEntriesPerBlock] at hj
    rw [dirEntryBytes, fsBlock] at *
    omega

include h hslash in
/-- **No write of a call reaches the bitmap that is searched.** -/
theorem avoids (hnum : s.numInodes < 2 ^ 16) (hname : path.length ≤ 59)
    (hsize : fs.currentDirInode.size + dirEntryBytes ≤ 7 * fsBlock) (behind : ByteStore) :
    ∀ w ∈ fs.createWrites path behind, AvoidsBitmap w := by
  have hbit : fs.superblock.firstFreeInodeBit < 2 ^ 16 := by
    rcases h.firstFreeInodeBit with hbit | hbit <;> omega
  have hblocks : bytesToBlocks (Fs.grownSize (fs.getParentInode path)) ≤ 7 := by
    rw [fsBlock, dirEntryBytes] at hsize
    rw [parent_eq hslash, bytesToBlocks_eq, Fs.grownSize, dirEntryBytes, Nat.mod_eq_of_lt (by omega)]
    omega
  have hname' : (getNamePath path).length ≤ 59 := by
    rw [getNamePath, getNamePathFrom_of_not_mem hslash]
    exact hname
  have hparent : (fs.getParentInode path).iNumber < 2 ^ 16 := by
    rw [parent_eq hslash, h.directory]
    decide
  have hcached : fs.cachedBlock < 2 ^ 16 := by
    have hfirst := h.firstDataBlock.2
    have hfree := h.firstFreeDataBit
    rw [Fs.cachedBlock, Nat.mod_eq_of_lt (by omega)]
    omega
  intro w hw
  rw [Fs.createWrites] at hw
  simp only [List.mem_append, List.mem_cons, List.not_mem_nil, or_false] at hw
  rcases hw with ((((rfl | rfl | rfl) | hw) | hw) | rfl | rfl)
  · rw [h.firstInodeBitmap]
    exact Or.inl (chunk_le (by decide) (by omega) (length_markedChunk ..))
  · rw [h.firstDataBitmap]
    exact Or.inl (chunk_le (by decide) (by omega) (length_markedChunk ..))
  · exact h.avoids_inode hbit
  · exact h.avoids_growWrites hslash hw
  · exact h.avoids_entryWrites hslash hname' hblocks hw
  · exact h.avoids_inode hparent
  · refine Or.inl ?_
    dsimp only
    rw [length_superblockSector]
    decide

omit h in
include hslash in
/-- What a call leaves of the superblock. -/
theorem superblock_grown : (∃ a b, (fs.grownParent path).2.superblock =
      { fs.superblock with firstFreeInodeBit := a, firstFreeDataBit := b }) ∧
    (fs.grownParent path).2.superblock.firstFreeInodeBit =
      findFreeBit fs.takeInode.disk fs.superblock.firstInodeBitmapBlock
        fs.superblock.numInodesBitmap ∧
    (fs.grownParent path).2.superblock.firstFreeDataBit < 2 ^ 15 := by
  refine ⟨Creating.grownParent_superblock fs path, ?_, ?_⟩ <;>
    rw [Fs.grownParent, parent_eq hslash, Fs.growDirectory] <;> split_ifs
  · rfl
  · rfl
  · exact findFreeBit_lt ..
  · exact findFreeBit_lt ..

include h hslash in
/-- **One call**: the file gets the number that is cached, and the next one will be 8. -/
theorem createFile (hnum : s.numInodes < 2 ^ 15) (hname : path.length ≤ 59)
    (hsize : fs.currentDirInode.size + dirEntryBytes ≤ 7 * fsBlock) (behind : ByteStore) :
    ∃ inode fs', fs.createFile path behind = some (inode, fs') ∧
      inode.iNumber = fs.superblock.firstFreeInodeBit ∧ fs'.superblock.firstFreeInodeBit = 8 ∧
      fs'.currentDirInode.size = fs.currentDirInode.size + dirEntryBytes ∧ Touching s fs' := by
  have hname' : (getNamePath path).length ≤ 59 := by
    rw [getNamePath, getNamePathFrom_of_not_mem hslash]
    exact hname
  have hbit : fs.superblock.firstFreeInodeBit < 2 ^ 15 := by
    rcases h.firstFreeInodeBit with hbit | hbit <;> omega
  have hcurrent : (if fs.currentDirInode.iNumber = (fs.getParentInode path).iNumber
      then fs.storedParent path else fs.currentDirInode) = fs.storedParent path := by
    rw [parent_eq hslash, if_pos rfl]
  -- the search for the next inode comes right after the mark
  have hmark : fs.takeInode.disk.readWord (2 * fsBlock) = 0xFF := by
    rw [← h.bitmap]
    have hdisk : fs.takeInode.disk = fs.disk.splices
        [(chunkAddress 0 fs.superblock.firstFreeInodeBit,
          markedChunk fs.disk 0 fs.superblock.firstFreeInodeBit)] := by
      rw [Fs.takeInode, setInodeBitmap, h.firstInodeBitmap, setBitmap_eq]
      rfl
    rw [hdisk]
    refine readWord_splices_of_avoids fun w hw ↦ ?_
    rw [List.mem_singleton.mp hw]
    exact Or.inl (chunk_le (by decide) (by omega) (length_markedChunk ..))
  have hnext : findFreeBit fs.takeInode.disk 2 fs.superblock.numInodesBitmap = 8 := by
    refine findFreeBit_of_head h.numInodesBitmap ?_
    rw [show sectorAddress (2 * sectorsPerBlock % 2 ^ 32) = 2 * fsBlock from rfl, hmark]
    rfl
  obtain ⟨hkept, hfree, hdata⟩ := @superblock_grown fs path hslash
  refine ⟨_, _, Fs.createFile_eq hname' behind, rfl,
    hfree.trans (h.firstInodeBitmapBlock ▸ hnext), ?_, ?_⟩
  · dsimp only
    rw [hcurrent, Fs.storedParent, parent_eq hslash]
    rw [fsBlock, dirEntryBytes] at hsize
    exact Nat.mod_eq_of_lt (by rw [dirEntryBytes]; omega)
  · obtain ⟨a, b, hs⟩ := hkept
    rw [hcurrent]
    have hnumber : (fs.storedParent path).iNumber = 1 := by
      rw [Fs.storedParent, Fs.grownParent]
      dsimp only
      rw [Fs.growDirectory_iNumber, parent_eq hslash, h.directory]
    have hfree' : (fs.grownParent path).2.superblock.firstFreeInodeBit = 8 :=
      hfree.trans (h.firstInodeBitmapBlock ▸ hnext)
    have hbitmap : (fs.disk.splices (fs.createWrites path behind)).readWord (2 * fsBlock) = 0xFF :=
      (readWord_splices_of_avoids (h.avoids hslash (by omega) hname hsize behind)).trans h.bitmap
    constructor <;> dsimp only
    case firstFreeInodeBit => exact Or.inr hfree'
    case firstFreeDataBit => exact hdata
    case bitmap => exact hbitmap
    case directory => exact hnumber
    case pointers => exact h.pointers_grown hslash
    all_goals rw [hs]
    case firstInodeBitmap => exact h.firstInodeBitmap
    case firstDataBitmap => exact h.firstDataBitmap
    case firstInodeBitmapBlock => exact h.firstInodeBitmapBlock
    case numInodesBitmap => exact h.numInodesBitmap
    case firstInodeBlock => exact h.firstInodeBlock
    case firstDataBlock => exact h.firstDataBlock

end Touching

/-! ## The record of a new inode -/

/-- The write leaves the record at `a` alone. -/
def SparesRecord (a : ℕ) (w : ℕ × List UInt8) : Prop :=
  w.1 + w.2.length ≤ a ∨ a + inodeBytes ≤ w.1

/-- The number of an inode comes first in its record. -/
theorem readWord_of_record {disk : ByteStore} {a : ℕ} {inode : Inode}
    (h : disk.slice a inodeBytes = inode.bytes) (hlt : inode.iNumber < 2 ^ 32) :
    disk.readWord a = inode.iNumber := by
  rw [inodeBytes, show 64 = 4 + 60 from rfl, slice_append, Inode.bytes] at h
  rw [readWord, (List.append_inj h (by rw [length_slice, length_leBytes])).1, ofLe_leBytes]
  exact Nat.mod_eq_of_lt hlt

namespace Touching

section Record

variable {s : Superblock} {fs : Fs} {path : List UInt8} (h : Touching s fs) (hslash : slash ∉ path)
  (hbit : 2 ≤ fs.superblock.firstFreeInodeBit)
  (hrecord : slotAddress fs.superblock fs.superblock.firstFreeInodeBit =
    fs.superblock.firstDataBlock * fsBlock)
include h hbit hrecord

/-- Inode 1 comes before the record. -/
theorem spares_directory {bs : List UInt8} (hbs : bs.length = inodeBytes) :
    SparesRecord (fs.superblock.firstDataBlock * fsBlock) (inodeAddress fs.superblock 1, bs) := by
  refine Or.inl ?_
  dsimp only
  rw [← hrecord, hbs, inodeAddress_eq_slot (h.slotFits (by decide)), slotAddress, slotAddress]
  have hle := Nat.mul_le_mul_right inodeBytes hbit
  omega

include hslash in
/-- A block that the directory gets is another one. -/
theorem spares_growWrites (hdata : fs.allocated.superblock.firstFreeDataBit ≠ 0)
    {w : ℕ × List UInt8} (hw : w ∈ fs.allocated.growWrites (fs.getParentInode path)) :
    SparesRecord (fs.superblock.firstDataBlock * fsBlock) w := by
  rw [parent_eq hslash, Fs.growWrites] at hw
  split_ifs at hw with hgrows
  · rcases List.mem_cons.mp hw with rfl | hw
    · have hlt : fs.allocated.superblock.firstFreeDataBit < 32768 := findFreeBit_lt ..
      have hfirst := h.firstDataBlock.2
      have hblock : fs.allocated.cachedBlock =
          fs.superblock.firstDataBlock + fs.allocated.superblock.firstFreeDataBit :=
        Nat.mod_eq_of_lt (show fs.superblock.firstDataBlock + _ < 2 ^ 32 by omega)
      refine Or.inr ?_
      dsimp only
      rw [Fs.growDirectory_new hgrows, hblock, sectorAddress_blockSector (by omega), inodeBytes,
        fsBlock]
      omega
    · rw [List.mem_singleton.mp hw, h.directory]
      exact h.spares_directory hbit hrecord (Inode.length_bytes _)
  · exact absurd hw List.not_mem_nil

include hslash in
/-- **The record stays.**  The search for an empty entry passes by it, since it begins with a number
that is not 0. -/
theorem record_stays (hnum : fs.superblock.firstFreeInodeBit < 2 ^ 15) (hname : path.length ≤ 59)
    (hdata : fs.allocated.superblock.firstFreeDataBit ≠ 0) (behind : ByteStore) :
    (fs.disk.splices (fs.createWrites path behind)).slice (fs.superblock.firstDataBlock * fsBlock)
      inodeBytes = (Fs.newInode fs.superblock.firstFreeInodeBit fs.cachedBlock).bytes := by
  have haddr : inodeAddress fs.superblock fs.superblock.firstFreeInodeBit =
      fs.superblock.firstDataBlock * fsBlock := by
    rw [inodeAddress_eq_slot (h.slotFits (by omega)), hrecord]
  have hgrow := fun w hw ↦ h.spares_growWrites hslash hbit hrecord hdata (w := w) hw
  -- in front of the search the record is there
  have hthere : (fs.grownParent path).2.disk.slice (fs.superblock.firstDataBlock * fsBlock)
      inodeBytes = (Fs.newInode fs.superblock.firstFreeInodeBit fs.cachedBlock).bytes := by
    rw [Fs.grownParent, Fs.growDirectory_disk, Fs.allocated_disk, haddr, ← splices_append]
    exact slice_splices_self fs.disk [_, _] _ (Inode.length_bytes _) hgrow
  have hword := readWord_of_record hthere (show fs.superblock.firstFreeInodeBit < 2 ^ 32 by omega)
  have hentry : ∀ w ∈ Fs.entryWrites (fs.grownParent path).2.disk (fs.grownParent path).1
      (bytesToBlocks (Fs.grownSize (fs.getParentInode path)))
      ⟨fs.superblock.firstFreeInodeBit, getNamePath path⟩,
      SparesRecord (fs.superblock.firstDataBlock * fsBlock) w := by
    intro w hw
    have hname' : (getNamePath path).length ≤ 59 := by
      rw [getNamePath, getNamePathFrom_of_not_mem hslash]
      exact hname
    rw [Fs.entryWrites] at hw
    cases hempty : emptyEntry (fs.grownParent path).2.disk (fs.grownParent path).1
        (bytesToBlocks (Fs.grownSize (fs.getParentInode path))) with
    | none =>
      rw [hempty] at hw
      exact absurd hw List.not_mem_nil
    | some r =>
      obtain ⟨i, j⟩ := r
      rw [hempty] at hw
      rw [List.mem_singleton.mp hw]
      obtain ⟨-, -, hzero⟩ := emptyEntry_some hempty
      have hne : sectorAddress (blockSector ((fs.grownParent path).1.directPointers i)) +
          j * dirEntryBytes ≠ fs.superblock.firstDataBlock * fsBlock := fun heq ↦ by
        rw [heq, hword] at hzero
        exact absurd hbit (by rw [show fs.superblock.firstFreeInodeBit = 0 from hzero]; decide)
      rw [SparesRecord, DirEntry.length_bytes hname']
      -- both begin at a multiple of 64
      rw [sectorAddress, fsSector, dirEntryBytes, fsBlock] at hne ⊢
      rw [inodeBytes]
      dsimp only
      omega
  rw [Fs.createWrites, haddr]
  simp only [List.append_assoc, List.cons_append, List.nil_append]
  refine slice_splices_self fs.disk [_, _] _ (Inode.length_bytes _) fun w hw ↦ ?_
  rcases List.mem_append.mp hw with hw | hw
  · exact hgrow w hw
  rcases List.mem_append.mp hw with hw | hw
  · exact hentry w hw
  rcases List.mem_cons.mp hw with rfl | hw
  · rw [parent_eq hslash, h.directory]
    exact h.spares_directory hbit hrecord (Inode.length_bytes _)
  · rw [List.mem_singleton.mp hw]
    have hfirst := h.firstDataBlock.1
    have hsector : sectorAddress superblockDiskSector = 4096 := by decide
    refine Or.inl ?_
    dsimp only
    rw [hsector, length_superblockSector, fsSector, fsBlock]
    omega

end Record

end Touching

/-! ## The new image -/

/-- A word in the middle of what is written at the beginning. -/
theorem readWord_splice_append (pre rest : List UInt8) {v : ℕ} (hv : v < 2 ^ 32) :
    (splice (fun _ ↦ 0) 0 (pre ++ (leBytes 4 v ++ rest))).readWord pre.length = v := by
  rw [splice_append, splice_append, Nat.zero_add, readWord,
    slice_splice_of_apart (Or.inl (by rw [length_leBytes]))]
  have hself := slice_splice_self (splice (fun _ ↦ 0) 0 pre) pre.length (leBytes 4 v)
  rw [length_leBytes] at hself
  rw [hself, ofLe_leBytes]
  exact Nat.mod_eq_of_lt hv

/-- The words of a bitmap fill its blocks. -/
theorem length_bitmapWords {first blocks : ℕ} (hpos : 0 < blocks) :
    ((bitmapWords first blocks).flatMap (leBytes 4)).length = blocks * fsBlock := by
  rw [List.length_flatMap, bitmapWords, fsBlock]
  simp only [length_leBytes, List.map_const', List.length_cons, List.length_replicate,
    List.sum_replicate]
  rw [Nat.nsmul_eq_mul]
  omega

theorem mount_superblock {entries : List Host} {memory : ByteStore}
    (hsuper : readSuperblock memory superblockAddress = treeSuperblock entries) (disk : ByteStore)
    (rootAddress : ℕ) : (mount disk memory rootAddress).superblock =
      { treeSuperblock entries with rootINumber := rootAddress } := by
  rw [← hsuper]
  rfl

/-- The kernel has the superblock of the tree, and the bitmaps are as the formatter wrote them. -/
structure Formatted (entries : List Host) (fs : Fs) : Prop where
  superblock : ∃ rootINumber, fs.superblock = { treeSuperblock entries with rootINumber }
  inodeBitmap : fs.disk.readWord (2 * fsBlock) = 0xFF
  dataBitmap : fs.disk.readWord (3 * fsBlock) = 0x01FFFFFF

section Formatted

variable {entries : List Host} {bootBlock : List UInt8} (hfits : FitsDisk entries)
  (h : IsHostTree entries)
include hfits h

/-- The bitmaps are in front of the tree, with eight bits set and with twenty-five. -/
theorem diskImage_bitmap (hshort : EntryNamesFit entries) (hboot : bootBlock.length = fsBlock) :
    (diskImage bootBlock entries).readWord (2 * fsBlock) = 0xFF ∧
      (diskImage bootBlock entries).readWord (3 * fsBlock) = 0x01FFFFFF := by
  obtain ⟨-, hinodes, -⟩ := hfits.regions h
  have hread : ∀ a, a + 4 ≤ 4 * fsBlock → (diskImage bootBlock entries).readWord a =
      (splice (fun _ ↦ 0) 0 (imageFront bootBlock (treeSuperblock entries))).readWord a :=
    fun a ha ↦ readWord_congr fun k hk ↦ hfits.treeImage_front h hshort _ (by omega)
  have hsuper : (superblockBlock (treeSuperblock entries)).length = fsBlock := by
    rw [superblockBlock, List.length_append, List.length_replicate,
      show ((treeSuperblock entries).words.flatMap (leBytes 4)).length = 19 * 4 from rfl]
    rfl
  have hfront : (bootBlock ++ superblockBlock (treeSuperblock entries)).length = 2 * fsBlock := by
    rw [List.length_append, hboot, hsuper, Nat.two_mul]
  constructor
  · obtain ⟨rest, hrest⟩ : ∃ rest, (inodeBitmapWords (treeSuperblock entries)).flatMap (leBytes 4) =
        leBytes 4 0xFF ++ rest := ⟨_, List.flatMap_cons⟩
    rw [hread _ (by rw [fsBlock]; decide), imageFront, hrest, ← List.append_assoc,
      List.append_assoc (leBytes 4 0xFF), ← hfront]
    exact readWord_splice_append _ _ (by decide)
  · obtain ⟨rest, hrest⟩ : ∃ rest, (dataBitmapWords (treeSuperblock entries)).flatMap (leBytes 4) =
        leBytes 4 0x01FFFFFF ++ rest := ⟨_, List.flatMap_cons⟩
    have hlen : (bootBlock ++ superblockBlock (treeSuperblock entries) ++
        (inodeBitmapWords (treeSuperblock entries)).flatMap (leBytes 4)).length = 3 * fsBlock := by
      rw [List.length_append, hfront, inodeBitmapWords, hinodes, length_bitmapWords Nat.one_pos,
        ← Nat.add_mul]
    rw [hread _ (by rw [fsBlock]; decide), imageFront, hrest, ← List.append_assoc,
      ← List.append_assoc, ← hlen]
    exact readWord_splice_append _ _ (by decide)

theorem mount_formatted (hshort : EntryNamesFit entries) (hboot : bootBlock.length = fsBlock)
    {memory : ByteStore}
    (hsuper : readSuperblock memory superblockAddress = treeSuperblock entries) (rootAddress : ℕ) :
    Formatted entries (mount (diskImage bootBlock entries) memory rootAddress) := by
  obtain ⟨hinodes, hdata⟩ := diskImage_bitmap hfits h hshort hboot
  exact ⟨⟨rootAddress, mount_superblock hsuper _ _⟩, hinodes, hdata⟩

namespace Formatted

variable {fs : Fs} (hfs : Formatted entries fs)
include hfs

/-- What is cached is small enough for the marks to stay in the first three blocks. -/
theorem cached_lt : fs.superblock.firstFreeInodeBit < 2 * 32768 ∧ fs.cachedBlock < 3 * 32768 := by
  obtain ⟨rootINumber, hs⟩ := hfs.superblock
  obtain ⟨hnum, -, -, -, -, hfirst, hlt⟩ := hfits.regions h
  have hblocks := fileBlocks_le h
  have hfree : (treeSuperblock entries).firstFreeInodeBit = (treeSuperblock entries).numInodes := rfl
  have hbit : (treeSuperblock entries).firstFreeDataBit =
      ((treeSuperblock entries).firstDataBlock + (getFileInfo entries).fileBlocks) % 2 ^ 32 := rfl
  rw [Fs.cachedBlock, hs]
  dsimp only
  rw [hfree, hbit]
  omega

/-- **The next number is 8**: it is searched where nothing is marked. -/
theorem firstFreeInodeBit_takeInode : fs.takeInode.superblock.firstFreeInodeBit = 8 := by
  obtain ⟨rootINumber, hs⟩ := hfs.superblock
  obtain ⟨-, hinodes, -⟩ := hfits.regions h
  have hmark : fs.takeInode.disk.readWord (2 * fsBlock) = 0xFF := by
    have hdisk : fs.takeInode.disk = fs.disk.splice
        (chunkAddress fs.superblock.firstInodeBitmap fs.superblock.firstFreeInodeBit)
        (markedChunk fs.disk fs.superblock.firstInodeBitmap fs.superblock.firstFreeInodeBit) :=
      setBitmap_eq ..
    have hfirst : fs.superblock.firstInodeBitmap = 0 := by rw [hs]; rfl
    rw [hdisk, hfirst, ← hfs.inodeBitmap]
    refine readWord_congr fun k hk ↦ splice_of_not_mem (Or.inr ?_)
    exact Nat.le_trans (chunk_le (by decide) (hfs.cached_lt hfits h).1 (length_markedChunk ..))
      (Nat.le_add_right ..)
  show findFreeBit fs.takeInode.disk fs.superblock.firstInodeBitmapBlock
    fs.superblock.numInodesBitmap = 8
  have hblock : fs.superblock.firstInodeBitmapBlock = 2 := by rw [hs]; rfl
  have hcount : fs.superblock.numInodesBitmap = 1 := by rw [hs]; exact hinodes
  rw [hblock, hcount]
  refine findFreeBit_of_head Nat.one_pos ?_
  rw [show sectorAddress (2 * sectorsPerBlock % 2 ^ 32) = 2 * fsBlock from rfl, hmark]
  rfl

/-- **The next data bit is 25.** -/
theorem firstFreeDataBit_allocated : fs.allocated.superblock.firstFreeDataBit = 25 := by
  obtain ⟨rootINumber, hs⟩ := hfs.superblock
  obtain ⟨-, -, hdata, hblock, -⟩ := hfits.regions h
  obtain ⟨hinode, hcached⟩ := hfs.cached_lt hfits h
  have hbitmaps : fs.superblock.firstInodeBitmap = 0 ∧ fs.superblock.firstDataBitmap = 0 := by
    rw [hs]
    exact ⟨rfl, rfl⟩
  -- the marks go into the blocks in front of it
  have hmarked : fs.takeInode.takeBlock.disk.readWord (3 * fsBlock) = 0x01FFFFFF := by
    rw [Fs.takeBlock_disk, hbitmaps.1, hbitmaps.2, ← hfs.dataBitmap]
    refine readWord_congr fun k hk ↦ splices_of_not_reached fun w hw hreach ↦ ?_
    have hlow : w.1 + w.2.length ≤ 3 * fsBlock := by
      rcases List.mem_cons.mp hw with rfl | hw
      · exact chunk_le (by decide) (by omega) (length_markedChunk ..)
      · rw [List.mem_singleton.mp hw]
        exact chunk_le (by decide) hcached (length_markedChunk ..)
    rw [Reaches] at hreach
    omega
  show findFreeBit fs.takeInode.takeBlock.disk fs.superblock.firstDataBitmapBlock
    fs.superblock.numDataBitmap = 25
  have hfirst : fs.superblock.firstDataBitmapBlock = 3 := by rw [hs]; exact hblock
  have hcount : fs.superblock.numDataBitmap = 1 := by rw [hs]; exact hdata
  rw [hfirst, hcount]
  refine findFreeBit_of_head Nat.one_pos ?_
  rw [show sectorAddress (3 * sectorsPerBlock % 2 ^ 32) = 3 * fsBlock from rfl, hmarked]
  rfl

end Formatted

end Formatted

section Image

variable {entries : List Host} {bootBlock : List UInt8} (h : Readable entries)
include h

/-- **The new image is mounted.** -/
theorem mount_touching (hboot : bootBlock.length = fsBlock) {memory : ByteStore}
    (hsuper : readSuperblock memory superblockAddress = treeSuperblock entries) (rootAddress : ℕ) :
    Touching (treeSuperblock entries) (mount (diskImage bootBlock entries) memory rootAddress) ∧
      (mount (diskImage bootBlock entries) memory rootAddress).currentDirInode.size =
        (2 + entries.length) * dirEntryBytes := by
  obtain ⟨hle, -⟩ := h.firstDataBlock
  obtain ⟨-, hbits, -, -, hfirst, -⟩ := h.toFitsDisk.regions h.toIsHostTree
  have htable : (treeSuperblock entries).firstInodeBlock ≤ (treeSuperblock entries).firstDataBlock :=
    Nat.le_add_right ..
  have hthree : 3 ≤ (treeSuperblock entries).firstInodeBlock := by omega
  have hmounted := @mount_mounted entries bootBlock h _ hsuper rootAddress
  have hs := mount_superblock hsuper (diskImage bootBlock entries) rootAddress
  -- the root, as it was placed
  have hstored := h.stored (splice (fun _ ↦ 0) 0 (imageFront bootBlock (treeSuperblock entries)))
  rw [Host.Stored] at hstored
  obtain ⟨p, slots, qs, hps, his, hon, -⟩ := hstored
  have hsound := h.sound p (hps ▸ List.mem_cons_self)
  have hfields := hmounted.current.fields hmounted.table hsound his (hmounted.disk ▸ hon)
    (by decide) (Nat.mod_lt _ (by decide))
  have hsize : p.size = (2 + entries.length) * dirEntryBytes := his.size.trans (dirSize_eq h.root)
  refine ⟨?_, hfields.size.trans hsize⟩
  constructor
  case bitmap => exact (diskImage_bitmap h.toFitsDisk h.toIsHostTree h.short hboot).1
  case directory => exact hfields.iNumber.trans his.iNumber
  case pointers =>
    intro i hi
    obtain ⟨b, k, hk, hblocks, hlow, hhigh⟩ := hsound.blocks
    rw [diskBlocks_eq] at hhigh
    rw [hfields.directPointers i hi, hblocks]
    rcases Nat.lt_or_ge i k with hik | hik
    · rw [List.getD_eq_getElem _ _ (by rwa [List.length_range']), List.getElem_range']
      exact Or.inr ⟨by omega, by omega⟩
    · rw [List.getD_eq_default _ _ (by rwa [List.length_range'])]
      exact Or.inl rfl
  all_goals rw [hs]
  case firstInodeBitmap => rfl
  case firstDataBitmap => rfl
  case firstInodeBitmapBlock => rfl
  case numInodesBitmap => exact Nat.lt_of_lt_of_eq Nat.one_pos hbits.symm
  case firstInodeBlock => exact ⟨hthree, Nat.le_trans htable hle⟩
  case firstDataBlock => exact ⟨Nat.le_trans hthree htable, hle⟩
  case firstFreeInodeBit => exact Or.inl rfl
  case firstFreeDataBit => exact Nat.lt_trans h.firstFreeDataBit (by decide)

/-- The record behind the table is the first entry of the root. -/
theorem root_start : ∃ p ∈ (formatTree entries).placed, p.path = [] ∧ p.fileType = fileTypeDir ∧
    p.start = slotAddress (treeSuperblock entries) (treeSuperblock entries).numInodes := by
  obtain ⟨hle, hdata⟩ := h.firstDataBlock
  obtain ⟨p, hp, howner⟩ := List.mem_map.mp (show ([], fileTypeDir,
      blocksFrom (treeSuperblock entries).firstDataBlock (bytesToBlocks (dirSize entries.length))) ∈
        (formatTree entries).placed.map Placed.owner by
    rw [(formatTree_owners entries).2, treeItems, assign, List.map_cons]
    exact List.mem_cons_self)
  refine ⟨p, hp, congrArg (fun o : Owner ↦ o.1) howner, congrArg (fun o : Owner ↦ o.2.1) howner, ?_⟩
  have hblocks : p.blocks = _ := congrArg (fun o : Owner ↦ o.2.2) howner
  have hcount : 0 < bytesToBlocks (dirSize entries.length) := by
    rw [dirSize_eq h.root, bytesToBlocks_eq, dirEntryBytes]
    omega
  have hfirst : p.blocks.getD 0 0 = (treeSuperblock entries).firstDataBlock := by
    rw [hblocks, blocksFrom, List.getD_eq_getElem _ _ (by simpa using hcount)]
    simp only [List.getElem_map, List.getElem_range, Nat.add_zero]
    exact Nat.mod_eq_of_lt (Nat.lt_of_le_of_lt hle (by decide))
  rw [Placed.start, hfirst, slotAddress, ← hdata, fsBlock]
  exact Nat.mod_eq_of_lt (by omega)

end Image

/-! ## Touching files -/

/-- `create_file` with one path after the other: the numbers of the inodes that it returns. -/
def Fs.touch (fs : Fs) : List CreateCall → Option (List ℕ × Fs)
  | [] => some ([], fs)
  | c :: calls => (fs.createFile c.path c.behind).bind fun r ↦
    (r.2.touch calls).map fun t ↦ (r.1.iNumber :: t.1, t.2)

/-- **The numbers of a run**: the cached one, and then always 8. -/
theorem Touching.touch {s : Superblock} (hnum : s.numInodes < 2 ^ 15) {calls : List CreateCall} :
    ∀ {fs : Fs}, Touching s fs → (∀ c ∈ calls, slash ∉ c.path ∧ c.path.length ≤ 59) →
      fs.currentDirInode.size + calls.length * dirEntryBytes ≤ 7 * fsBlock →
      ∃ fs', fs.touch calls = some ((fs.superblock.firstFreeInodeBit ::
        List.replicate calls.length 8).take calls.length, fs') := by
  induction calls with
  | nil => exact fun _ _ _ ↦ ⟨_, rfl⟩
  | cons c calls ih =>
    intro fs h hcalls hroom
    obtain ⟨hslash, hname⟩ := hcalls c List.mem_cons_self
    rw [List.length_cons, Nat.succ_mul] at hroom
    obtain ⟨inode, fs', hcall, hnumber, hnext, hsize, h'⟩ :=
      h.createFile hslash hnum hname (by omega) c.behind
    obtain ⟨fs'', hrest⟩ := ih h' (fun d hd ↦ hcalls d (List.mem_cons_of_mem _ hd)) (by omega)
    refine ⟨fs'', ?_⟩
    rw [Fs.touch, hcall, Option.bind_some, hrest, Option.map_some, hnumber, hnext,
      ← List.replicate_succ, List.take_replicate, Nat.min_eq_left (Nat.le_succ _), List.length_cons,
      List.take_succ_cons, List.take_replicate, Nat.min_eq_left (Nat.le_succ _)]

/-- **Files that share an inode.**  On a new image, however the tree looks, the first file that is
created in the root gets the number behind the inode table, and its record is stored over the first
entry of the root; every further one gets inode 8, which belongs to the tree. -/
theorem touch_numbers {entries : List Host} {bootBlock : List UInt8} (h : Readable entries)
    (hboot : bootBlock.length = fsBlock) {int13 : Int13}
    (hreads : int13.Reads (diskImage bootBlock entries)) {prekernel kernel : List UInt8}
    (hprekernel : Host.file prekernelBin prekernel ∈ entries)
    (hkernel : Host.file kernelBin kernel ∈ entries) (hppos : 0 < prekernel.length)
    (hqpos : 0 < kernel.length) {memory booted memory' : ByteStore}
    (hbooted : newboot int13 memory = some booted)
    (hsame : memory'.slice superblockAddress (19 * 4) =
      (copyKernel booted).slice superblockAddress (19 * 4)) (rootAddress : ℕ)
    {calls : List CreateCall} (hcalls : ∀ c ∈ calls, slash ∉ c.path ∧ c.path.length ≤ 59)
    (hroom : (2 + entries.length + calls.length) * dirEntryBytes ≤ 7 * fsBlock) :
    (∃ fs', (mount (diskImage bootBlock entries) memory' rootAddress).touch calls =
        some (((treeSuperblock entries).numInodes :: List.replicate calls.length 8).take
          calls.length, fs')) ∧
      (∃ p ∈ (formatTree entries).placed, p.path = [] ∧ p.fileType = fileTypeDir ∧
        ∀ c ∈ calls.head?, ∃ inode fs',
          (mount (diskImage bootBlock entries) memory' rootAddress).createFile c.path c.behind =
            some (inode, fs') ∧ inode.iNumber = (treeSuperblock entries).numInodes ∧
          fs'.disk.slice p.start inodeBytes = inode.bytes) ∧
      Numbered entries 8 := by
  obtain ⟨m, hm, hloads⟩ := newboot_loads h hboot hreads hprekernel hkernel hppos hqpos memory
  obtain rfl : m = booted := Option.some.inj (hm.symm.trans hbooted)
  have hsuper : readSuperblock memory' superblockAddress = treeSuperblock entries :=
    readSuperblock_eq (words_lt _) (hsame.trans hloads.words)
  obtain ⟨hle, hdata⟩ := h.firstDataBlock
  have hnum : (treeSuperblock entries).numInodes < 2 ^ 15 := by
    rw [fsBlock, inodeBytes] at hdata
    omega
  have height : 8 < (treeSuperblock entries).numInodes := by
    have htable := h.table
    rw [h.numInodes]
    rw [inodesPerBlock, fsBlock, inodeBytes] at htable
    omega
  obtain ⟨htouching, hsize⟩ := mount_touching h hboot hsuper rootAddress
  have hbit := (mount_formatted h.toFitsDisk h.toIsHostTree h.short hboot hsuper
    rootAddress).firstFreeDataBit_allocated h.toFitsDisk h.toIsHostTree
  have hs := mount_superblock hsuper (diskImage bootBlock entries) rootAddress
  generalize mount (diskImage bootBlock entries) memory' rootAddress = fs at *
  have hfree : fs.superblock.firstFreeInodeBit = (treeSuperblock entries).numInodes :=
    (congrArg Superblock.firstFreeInodeBit hs :)
  have hfirst : fs.superblock.firstDataBlock = (treeSuperblock entries).firstDataBlock :=
    (congrArg Superblock.firstDataBlock hs :)
  have htable : fs.superblock.firstInodeBlock = (treeSuperblock entries).firstInodeBlock :=
    (congrArg Superblock.firstInodeBlock hs :)
  obtain ⟨fs', hrun⟩ := htouching.touch hnum hcalls (by rw [hsize, ← Nat.add_mul]; exact hroom)
  obtain ⟨p, hp, hpath, htype, hstart⟩ := root_start h
  refine ⟨⟨fs', hfree ▸ hrun⟩, ⟨p, hp, hpath, htype, fun c hc ↦ ?_⟩, h.numbered (by decide) height⟩
  -- the first call
  obtain ⟨hslash, hname⟩ := hcalls c (List.mem_of_head? hc)
  have hname' : (getNamePath c.path).length ≤ 59 := by
    rw [getNamePath, getNamePathFrom_of_not_mem hslash]
    exact hname
  have hrecord : slotAddress fs.superblock fs.superblock.firstFreeInodeBit =
      fs.superblock.firstDataBlock * fsBlock := by
    rw [slotAddress, htable, hfree, hfirst, hdata]
  refine ⟨_, _, Fs.createFile_eq hname' c.behind, hfree, ?_⟩
  have hplace : p.start = fs.superblock.firstDataBlock * fsBlock := by
    rw [hstart, slotAddress, hfirst, hdata]
  have hbits : 2 ≤ fs.superblock.firstFreeInodeBit ∧ fs.superblock.firstFreeInodeBit < 2 ^ 15 := by
    omega
  have hdatabit : fs.allocated.superblock.firstFreeDataBit ≠ 0 := hbit ▸ by decide
  have hstays := htouching.record_stays hslash hbits.1 hrecord hbits.2 hname hdatabit c.behind
  dsimp only
  rw [hplace]
  exact hstays

/-- Three files, on the image of the tree with 64 inodes. -/
theorem touch_numbers_sixtyFour : ∃ booted fs' inode fs'',
    newboot (plainInt13 (diskImage (List.replicate fsBlock 0) sixtyFour)) (fun _ ↦ 0) = some booted ∧
      (mount (diskImage (List.replicate fsBlock 0) sixtyFour) (copyKernel booted) 0).touch
        [⟨[0x78], fun _ ↦ 0⟩, ⟨[0x79], fun _ ↦ 0⟩, ⟨[0x7A], fun _ ↦ 0⟩] = some ([64, 8, 8], fs') ∧
      (mount (diskImage (List.replicate fsBlock 0) sixtyFour) (copyKernel booted) 0).createFile [0x78]
        (fun _ ↦ 0) = some (inode, fs'') ∧ inode.iNumber = 64 := by
  have hboot : (List.replicate fsBlock (0 : UInt8)).length = fsBlock := List.length_replicate
  have hprekernel : Host.file prekernelBin [0xF4] ∈ sixtyFour :=
    List.mem_cons_of_mem _ List.mem_cons_self
  have hkernel : Host.file kernelBin [0xEB, 0xFE] ∈ sixtyFour :=
    List.mem_cons_of_mem _ (List.mem_cons_of_mem _ List.mem_cons_self)
  have hreads := plainInt13_reads (diskImage (List.replicate fsBlock 0) sixtyFour)
  obtain ⟨booted, hbooted, -⟩ := newboot_loads sixtyFour_readable hboot hreads hprekernel hkernel
    (by decide) (by decide) (fun _ ↦ 0)
  have hcalls : ∀ c ∈ ([⟨[0x78], fun _ ↦ 0⟩, ⟨[0x79], fun _ ↦ 0⟩, ⟨[0x7A], fun _ ↦ 0⟩] :
      List CreateCall), slash ∉ c.path ∧ c.path.length ≤ 59 := by decide
  obtain ⟨⟨fs', hrun⟩, ⟨p, -, -, -, hfirst⟩, -⟩ := touch_numbers sixtyFour_readable hboot hreads
    hprekernel hkernel (by decide) (by decide) hbooted rfl 0 hcalls (by decide)
  have hnum : (treeSuperblock sixtyFour).numInodes = 64 := by decide +kernel
  obtain ⟨inode, fs'', hcall, hnumber, -⟩ := hfirst _ rfl
  rw [hnum] at hrun hnumber
  exact ⟨booted, fs', inode, fs'', hbooted, hrun, hcall, hnumber⟩

end AbOS
