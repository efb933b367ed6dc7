import AbOS.Fs.Directory

/-!
# Well-formed disks

A disk is well formed, `Fs.WellFormed`, if its regions lie one behind the other, each inode that is
linked stands where its number says, and the blocks of the directories belong to one directory each.
The directories are given by the set of their inode numbers.

`Fs.Entered` says what `create_file` does to such a disk when it neither has to grow the parent nor
takes an inode or a block that a directory uses: three places change, the inode, the piece of the
parent that was empty, and the inode of the parent (`WellFormed.createFile`).  From this follow the
links of all directories afterwards and that the disk stays well formed
(`WellFormed.entered`).
-/

set_option autoImplicit false

namespace AbOS

/-- The number of inodes the inode table has room for. -/
def inodeRoom (s : Superblock) : ℕ := (s.firstDataBlock - s.firstInodeBlock) * inodesPerBlock

/-- The bit `b` of the data bitmap. -/
def dataBit (disk : ByteStore) (s : Superblock) (b : ℕ) : Bool :=
  (disk (s.firstDataBitmapBlock * fsBlock + b / 8)).toNat.testBit (b % 8)

/-- The regions of the disk: the superblock in block 1 and the bitmaps, the inode table, and the
data up to block `blocks`.  The blocks that the bitmap functions write lie in front of the inode
table too. -/
structure Layout (s : Superblock) (blocks : ℕ) : Prop where
  firstInodeBlock : 2 ≤ s.firstInodeBlock
  firstDataBlock : s.firstInodeBlock ≤ s.firstDataBlock
  inodes : s.firstDataBlock ≤ 2 ^ 20
  diskBlocks : blocks ≤ 2 ^ 25
  inodeBitmap : s.firstInodeBitmap + inodeRoom s / 32768 < s.firstInodeBlock
  dataBitmap : s.firstDataBitmap + blocks / 32768 < s.firstInodeBlock
  dataBitmapBlock : 2 ≤ s.firstDataBitmapBlock
  dataBitmapEnd : s.firstDataBitmapBlock + s.numDataBitmap ≤ s.firstInodeBlock

namespace Fs

/-- The inode on the disk with the number `k`. -/
def node (fs : Fs) (k : ℕ) : Inode := diskInode fs.disk fs.superblock k

/-- The cached inode is the one on the disk. -/
def Copy (fs : Fs) (inode : Inode) : Prop :=
  inode.InRange ∧ inode.bytes = (fs.node inode.iNumber).bytes

/-- The number of blocks a directory takes. -/
def blockCount (inode : Inode) : ℕ := bytesToBlocks inode.size

/-- `dirs` are the numbers of the directories of a disk of `blocks` blocks. -/
structure WellFormed (fs : Fs) (dirs : ℕ → Prop) (blocks : ℕ) : Prop where
  layout : Layout fs.superblock blocks
  rootInode : dirs fs.rootInode.iNumber ∧ fs.Copy fs.rootInode
  currentDirInode : dirs fs.currentDirInode.iNumber ∧ fs.Copy fs.currentDirInode
  number : ∀ k, dirs k → 0 < k ∧ k < inodeRoom fs.superblock ∧ (fs.node k).iNumber = k
  fileType : ∀ k, dirs k → (fs.node k).fileType = fileTypeDir
  /-- The size counts the links, and they fit into the seven blocks. -/
  size : ∀ k, dirs k → (fs.node k).size = dirEntryBytes * (fs.links (fs.node k)).length ∧
    (fs.node k).size ≤ 7 * fsBlock
  pointer : ∀ k i, dirs k → i < blockCount (fs.node k) →
    fs.superblock.firstDataBlock ≤ (fs.node k).directPointers i ∧
      (fs.node k).directPointers i < blocks
  apart : ∀ k k' i i', dirs k → dirs k' → i < blockCount (fs.node k) →
    i' < blockCount (fs.node k') →
    (fs.node k).directPointers i = (fs.node k').directPointers i' → k = k' ∧ i = i'
  marked : ∀ k i, dirs k → i < blockCount (fs.node k) →
    (fs.node k).directPointers i - fs.superblock.firstDataBlock <
        fs.superblock.numDataBitmap * 32768 ∧
      dataBit fs.disk fs.superblock
        ((fs.node k).directPointers i - fs.superblock.firstDataBlock) = true
  link : ∀ k e, dirs k → e ∈ fs.links (fs.node k) →
    e.iNumber < inodeRoom fs.superblock ∧ (fs.node e.iNumber).iNumber = e.iNumber ∧
      e.name.length ≤ 59 ∧ ((fs.node e.iNumber).fileType = fileTypeDir → dirs e.iNumber)
  /-- The blocks of a file are not those of a directory. -/
  owned : ∀ k e, dirs k → e ∈ fs.links (fs.node k) → ¬ dirs e.iNumber →
    ∀ j, j < 7 → j < blockCount (fs.node e.iNumber) → ∀ k' i, dirs k' →
      i < blockCount (fs.node k') →
      (fs.node e.iNumber).directPointers j ≠ (fs.node k').directPointers i

/-! ## Addresses -/

section Addresses

variable {s : Superblock} {blocks : ℕ} (h : Layout s blocks)
include h

/-- Where the inode `k` lies. -/
theorem inodeAddress_of_layout {k : ℕ} (hk : k < inodeRoom s) :
    inodeAddress s k = s.firstInodeBlock * fsBlock + k * inodeBytes ∧
      s.firstInodeBlock * fsBlock + k * inodeBytes + inodeBytes ≤ s.firstDataBlock * fsBlock := by
  have h₁ := h.firstDataBlock
  have h₂ := h.inodes
  have hroom : k < (s.firstDataBlock - s.firstInodeBlock) * 64 := hk
  have hend : s.firstInodeBlock * fsBlock + k * inodeBytes + inodeBytes ≤
      s.firstDataBlock * fsBlock := by
    rw [fsBlock, inodeBytes]
    omega
  refine ⟨inodeAddress_eq ?_, hend⟩
  rw [fsBlock, inodeBytes] at *
  omega

/-- The lookup reads the same place as `update_inode` writes. -/
theorem diskInode_of_layout (disk : ByteStore) {k : ℕ} (hk : k < inodeRoom s) :
    diskInode disk s k = readInode disk (inodeAddress s k) := by
  have h₁ := h.firstDataBlock
  have h₂ := h.inodes
  have hroom : k < (s.firstDataBlock - s.firstInodeBlock) * 64 := hk
  rw [(inodeAddress_of_layout h hk).1, diskInode]
  refine congrArg (readInode disk) ?_
  rw [sectorAddress, inodeSector, inodesPerSector, fsSector, inodeBytes, fsBlock]
  rw [Nat.mod_eq_of_lt (show k * 64 + s.firstInodeBlock * 4096 < 2 ^ 32 by omega)]
  omega

/-- Different inodes lie apart. -/
theorem inodeAddress_apart {k m : ℕ} (hk : k < inodeRoom s) (hm : m < inodeRoom s) (hne : k ≠ m) :
    inodeAddress s k + inodeBytes ≤ inodeAddress s m ∨
      inodeAddress s m + inodeBytes ≤ inodeAddress s k := by
  rw [(inodeAddress_of_layout h hk).1, (inodeAddress_of_layout h hm).1]
  rw [inodeBytes]
  omega

/-- The bits of valid inodes lie in front of the inode table. -/
theorem chunkAddress_inode {k : ℕ} (hk : k < inodeRoom s) :
    chunkAddress s.firstInodeBitmap k + 8 ≤ s.firstInodeBlock * fsBlock := by
  have h₁ := h.inodeBitmap
  have h₂ := h.firstDataBlock
  have h₃ := h.inodes
  have hdiv : k / 32768 ≤ inodeRoom s / 32768 := Nat.div_le_div_right (Nat.le_of_lt hk)
  generalize inodeRoom s / 32768 = r at h₁ hdiv
  rw [chunkAddress, sectorAddress, sectorsPerBlock, fsSector, fsBlock]
  rw [Nat.mod_eq_of_lt (show (s.firstInodeBitmap + k / 32768) * 8 < 2 ^ 32 by omega),
    Nat.mod_eq_of_lt (show (s.firstInodeBitmap + k / 32768) * 8 < 2 ^ 28 by omega)]
  omega

/-- So do the bits of the blocks. -/
theorem chunkAddress_data {b : ℕ} (hb : b < blocks) :
    chunkAddress s.firstDataBitmap b + 8 ≤ s.firstInodeBlock * fsBlock := by
  have h₁ := h.dataBitmap
  have h₂ := h.firstDataBlock
  have h₃ := h.inodes
  have hdiv : b / 32768 ≤ blocks / 32768 := Nat.div_le_div_right (Nat.le_of_lt hb)
  generalize blocks / 32768 = r at h₁ hdiv
  rw [chunkAddress, sectorAddress, sectorsPerBlock, fsSector, fsBlock]
  rw [Nat.mod_eq_of_lt (show (s.firstDataBitmap + b / 32768) * 8 < 2 ^ 32 by omega),
    Nat.mod_eq_of_lt (show (s.firstDataBitmap + b / 32768) * 8 < 2 ^ 28 by omega)]
  omega

end Addresses

/-! ## Setting bits -/

/-- A byte of a little-endian number holds eight of its bits. -/
theorem testBit_leBytes {n v i t : ℕ} (hi : i < n) (ht : t < 8) :
    ((ByteStore.leBytes n v).getD i 0).toNat.testBit t = v.testBit (8 * i + t) := by
  induction n generalizing v i with
  | zero => omega
  | succ n ih =>
    cases i with
    | zero =>
      rw [ByteStore.leBytes, List.getD_cons_zero, UInt8.toNat_ofNat', Nat.mul_zero, Nat.zero_add,
        show (2 : ℕ) ^ 8 = 2 ^ 8 from rfl, Nat.testBit_mod_two_pow, decide_eq_true ht, Bool.true_and]
    | succ i =>
      rw [ByteStore.leBytes, List.getD_cons_succ, ih (by omega), show (256 : ℕ) = 2 ^ 8 from rfl,
        Nat.testBit_div_two_pow]
      congr 1
      omega

/-- Marking a chunk clears no bit. -/
theorem testBit_splice_markedChunk {disk : ByteStore} (first bit : ℕ) {x t : ℕ} (ht : t < 8)
    (h : (disk x).toNat.testBit t = true) :
    ((disk.splice (chunkAddress first bit) (markedChunk disk first bit)) x).toNat.testBit t =
      true := by
  by_cases hx : chunkAddress first bit ≤ x ∧ x < chunkAddress first bit + 8
  · obtain ⟨i, rfl⟩ : ∃ i, x = chunkAddress first bit + i := ⟨x - chunkAddress first bit, by omega⟩
    have hi : i < 8 := by omega
    rw [ByteStore.splice_of_mem (by rw [length_markedChunk]; exact hi), markedChunk,
      testBit_leBytes hi ht, Nat.testBit_or, Bool.or_eq_true]
    refine Or.inl ?_
    have hbytes := ByteStore.leBytes_ofLe (disk.slice (chunkAddress first bit) 8)
    rw [ByteStore.length_slice] at hbytes
    rw [← testBit_leBytes hi ht, hbytes, ByteStore.getD_slice _ _ _ _ hi]
    exact h
  · rwa [ByteStore.splice_of_not_mem (by rw [length_markedChunk]; omega)]

/-! ## What a call does -/

/-- The parent is a directory which does not have to grow, and the cached inode number and block are
not those of a directory. -/
structure CanEnter (fs : Fs) (dirs : ℕ → Prop) (blocks : ℕ) (parent : Inode) (name : List UInt8) :
    Prop where
  dir : dirs parent.iNumber
  copy : fs.Copy parent
  size : parent.size % fsBlock ≠ 0
  short : name.length ≤ 59
  zero : (0 : UInt8) ∉ name
  number : 0 < fs.superblock.firstFreeInodeBit ∧
    fs.superblock.firstFreeInodeBit < inodeRoom fs.superblock ∧
    ¬ dirs fs.superblock.firstFreeInodeBit
  block : fs.superblock.firstDataBlock + fs.superblock.firstFreeDataBit < blocks
  blockFree : ∀ k i, dirs k → i < blockCount (fs.node k) →
    fs.cachedBlock ≠ (fs.node k).directPointers i

/-- The state after a call that entered `name` into `parent`. -/
structure Entered (fs : Fs) (parent : Inode) (name : List UInt8) (fs' : Fs) : Prop where
  superblock : ∃ a b, fs'.superblock =
    { fs.superblock with firstFreeInodeBit := a, firstFreeDataBit := b }
  inode : fs'.disk.slice (inodeAddress fs.superblock fs.superblock.firstFreeInodeBit) inodeBytes =
    (newInode fs.superblock.firstFreeInodeBit fs.cachedBlock).bytes
  parentInode : fs'.disk.slice (inodeAddress fs.superblock parent.iNumber) inodeBytes =
    { parent with size := parent.size + dirEntryBytes }.bytes
  /-- The other inodes keep their bytes. -/
  table : ∀ x, fs.superblock.firstInodeBlock * fsBlock ≤ x →
    x < fs.superblock.firstDataBlock * fsBlock →
    (x < inodeAddress fs.superblock fs.superblock.firstFreeInodeBit ∨
      inodeAddress fs.superblock fs.superblock.firstFreeInodeBit + inodeBytes ≤ x) →
    (x < inodeAddress fs.superblock parent.iNumber ∨
      inodeAddress fs.superblock parent.iNumber + inodeBytes ≤ x) → fs'.disk x = fs.disk x
  /-- Of the data, one empty piece of the parent has changed. -/
  data : ∃ i j, i < blockCount parent ∧ j < dirEntriesPerBlock ∧
    fs.disk.readWord (sectorAddress (blockSector (parent.directPointers i)) + j * dirEntryBytes) = 0 ∧
    ∀ x, fs.superblock.firstDataBlock * fsBlock ≤ x → fs'.disk x =
      fs.disk.splice (sectorAddress (blockSector (parent.directPointers i)) + j * dirEntryBytes)
        (DirEntry.bytes ⟨fs.superblock.firstFreeInodeBit, name⟩) x
  bits : ∀ x t, t < 8 → 2 * fsBlock ≤ x → x < fs.superblock.firstInodeBlock * fsBlock →
    (fs.disk x).toNat.testBit t = true → (fs'.disk x).toNat.testBit t = true
  rootInode : fs'.rootInode = if fs.rootInode.iNumber = parent.iNumber
    then { parent with size := parent.size + dirEntryBytes } else fs.rootInode
  currentDirInode : fs'.currentDirInode = if fs.currentDirInode.iNumber = parent.iNumber
    then { parent with size := parent.size + dirEntryBytes } else fs.currentDirInode

section Entering

variable {fs fs' : Fs} {dirs : ℕ → Prop} {blocks : ℕ} {parent : Inode} {name : List UInt8}

/-- A cached inode has the fields of the one on the disk. -/
theorem Copy.fields {inode : Inode} (h : fs.Copy inode) :
    inode.fileType = (fs.node inode.iNumber).fileType ∧
      inode.size = (fs.node inode.iNumber).size ∧
      ∀ i, i < 7 → inode.directPointers i = (fs.node inode.iNumber).directPointers i :=
  (Inode.fields_of_bytes h.2 h.1 (readInode_inRange ..)).2

/-- A directory is linked from its cached copy as from the disk. -/
theorem WellFormed.links_copy (h : fs.WellFormed dirs blocks) {inode : Inode}
    (hdir : dirs inode.iNumber) (hcopy : fs.Copy inode) :
    fs.links inode = fs.links (fs.node inode.iNumber) := by
  obtain ⟨-, hsize, hptr⟩ := hcopy.fields
  have hle := (h.size _ hdir).2
  refine links_congr (by rw [hsize]) (fun i hi ↦ hptr i ?_) fun _ _ _ _ _ ↦ rfl
  rw [bytesToBlocks_eq] at hi
  rw [fsBlock] at hle
  omega

/-- A directory that does not fill its last block has an empty piece in it, and does not grow. -/
theorem WellFormed.room (h : fs.WellFormed dirs blocks) (hcan : fs.CanEnter dirs blocks parent name) :
    parent.size = dirEntryBytes * (fs.links parent).length ∧
      parent.size + dirEntryBytes ≤ 7 * fsBlock ∧
      grownSize parent = parent.size + dirEntryBytes ∧
      bytesToBlocks (grownSize parent) = bytesToBlocks parent.size := by
  obtain ⟨hsize, hle⟩ := h.size _ hcan.dir
  rw [← hcan.copy.fields.2.1, ← h.links_copy hcan.dir hcan.copy] at hsize
  rw [← hcan.copy.fields.2.1] at hle
  have hmod := hcan.size
  have hgrown : grownSize parent = parent.size + dirEntryBytes := by
    rw [grownSize, dirEntryBytes, fsBlock] at *
    omega
  rw [hgrown, bytesToBlocks_eq, bytesToBlocks_eq]
  rw [dirEntryBytes, fsBlock] at *
  exact ⟨hsize, by omega, rfl, by omega⟩

theorem WellFormed.grown_inRange (h : fs.WellFormed dirs blocks)
    (hcan : fs.CanEnter dirs blocks parent name) :
    ({ parent with size := parent.size + dirEntryBytes } : Inode).InRange := by
  have hr := hcan.copy.1
  have hle := (h.room hcan).2.1
  refine ⟨hr.iNumber, hr.fileType, ?_, hr.directPointers⟩
  dsimp only
  rw [fsBlock] at hle
  omega

/-- Where a block of a directory lies. -/
theorem WellFormed.blockAddress (h : fs.WellFormed dirs blocks) {k i : ℕ} (hk : dirs k)
    (hi : i < blockCount (fs.node k)) :
    sectorAddress (blockSector ((fs.node k).directPointers i)) =
        (fs.node k).directPointers i * fsBlock ∧
      fs.superblock.firstDataBlock * fsBlock ≤ (fs.node k).directPointers i * fsBlock := by
  obtain ⟨h₁, h₂⟩ := h.pointer k i hk hi
  have h₃ := h.layout.diskBlocks
  exact ⟨sectorAddress_blockSector (by omega), Nat.mul_le_mul_right _ h₁⟩

/-- The blocks of two directories are one block or lie apart. -/
theorem WellFormed.block_apart (h : fs.WellFormed dirs blocks) {k k' i i' : ℕ} (hk : dirs k)
    (hk' : dirs k') (hi : i < blockCount (fs.node k)) (hi' : i' < blockCount (fs.node k'))
    (hne : ¬ (k = k' ∧ i = i')) :
    sectorAddress (blockSector ((fs.node k).directPointers i)) + fsBlock ≤
        sectorAddress (blockSector ((fs.node k').directPointers i')) ∨
      sectorAddress (blockSector ((fs.node k').directPointers i')) + fsBlock ≤
        sectorAddress (blockSector ((fs.node k).directPointers i)) := by
  have hptr : (fs.node k).directPointers i ≠ (fs.node k').directPointers i' :=
    fun he ↦ hne (h.apart k k' i i' hk hk' hi hi' he)
  rw [(h.blockAddress hk hi).1, (h.blockAddress hk' hi').1]
  rw [fsBlock]
  omega

theorem WellFormed.lt_seven (h : fs.WellFormed dirs blocks) {k i : ℕ} (hk : dirs k)
    (hi : i < blockCount (fs.node k)) : i < 7 := by
  have hle := (h.size k hk).2
  rw [blockCount, bytesToBlocks_eq] at hi
  rw [fsBlock] at hle
  omega

/-- The cached block is a data block. -/
theorem CanEnter.cachedBlock_eq (h : fs.WellFormed dirs blocks)
    (hcan : fs.CanEnter dirs blocks parent name) :
    fs.cachedBlock = fs.superblock.firstDataBlock + fs.superblock.firstFreeDataBit := by
  have h₁ := h.layout.diskBlocks
  have h₂ := hcan.block
  exact Nat.mod_eq_of_lt (by omega)

/-- Bitmaps and inodes lie in front of the data. -/
theorem WellFormed.allocated_disk_data (h : fs.WellFormed dirs blocks)
    (hcan : fs.CanEnter dirs blocks parent name) {x : ℕ}
    (hx : fs.superblock.firstDataBlock * fsBlock ≤ x) : fs.allocated.disk x = fs.disk x := by
  have h₁ := chunkAddress_inode h.layout hcan.number.2.1
  have h₂ := chunkAddress_data h.layout (b := fs.cachedBlock)
    (by rw [hcan.cachedBlock_eq h]; exact hcan.block)
  obtain ⟨h₃, h₄⟩ := inodeAddress_of_layout h.layout hcan.number.2.1
  have h₅ := Nat.mul_le_mul_right fsBlock h.layout.firstDataBlock
  rw [allocated_disk]
  refine ByteStore.splices_of_not_reached fun w hw ↦ ?_
  rw [ByteStore.Reaches]
  simp only [List.mem_cons, List.not_mem_nil, or_false] at hw
  rcases hw with rfl | rfl | rfl
  · simp only [length_markedChunk]
    omega
  · simp only [length_markedChunk]
    omega
  · simp only [Inode.length_bytes]
    omega

/-- There is an empty piece in the blocks of the parent. -/
theorem WellFormed.exists_emptyEntry (h : fs.WellFormed dirs blocks)
    (hcan : fs.CanEnter dirs blocks parent name) :
    ∃ i j, emptyEntry fs.allocated.disk parent (bytesToBlocks parent.size) = some (i, j) ∧
      i < blockCount parent ∧ j < dirEntriesPerBlock ∧
      fs.disk.readWord (sectorAddress (blockSector (parent.directPointers i)) + j * dirEntryBytes) =
        0 := by
  have hblocks : blockCount parent = blockCount (fs.node parent.iNumber) := by
    rw [blockCount, blockCount, hcan.copy.fields.2.1]
  have hle := (h.size _ hcan.dir).2
  rw [← hcan.copy.fields.2.1] at hle
  have hword : ∀ i j, i < blockCount parent → j < dirEntriesPerBlock → fs.allocated.disk.readWord
      (sectorAddress (blockSector (parent.directPointers i)) + j * dirEntryBytes) =
      fs.disk.readWord
        (sectorAddress (blockSector (parent.directPointers i)) + j * dirEntryBytes) := by
    intro i j hi hj
    have hseven : i < 7 := by
      rw [blockCount, bytesToBlocks_eq] at hi
      rw [fsBlock] at hle
      omega
    obtain ⟨haddr, hdata⟩ := h.blockAddress hcan.dir (hblocks ▸ hi)
    rw [hcan.copy.fields.2.2 i hseven, haddr]
    exact ByteStore.readWord_congr fun k hk ↦ h.allocated_disk_data hcan (by omega)
  cases he : emptyEntry fs.allocated.disk parent (bytesToBlocks parent.size) with
  | some p =>
    obtain ⟨i, j⟩ := p
    obtain ⟨hi, hj, hzero⟩ := emptyEntry_some he
    exact ⟨i, j, rfl, hi, hj, (hword i j hi hj).symm.trans hzero⟩
  | none =>
    -- then the last block is full, and the size is a multiple of the block size
    have hfull := fs.length_links_of_full parent fun i j hi hj ↦ by
      rw [← hword i j hi hj]
      exact emptyEntry_none he hi hj
    have hsize := (h.room hcan).1
    rw [hfull] at hsize
    refine absurd ?_ hcan.size
    rw [hsize]
    generalize bytesToBlocks parent.size = n
    rw [dirEntryBytes, dirEntriesPerBlock, dirEntryBytes, fsBlock]
    omega

/-- Without growth the parent is only stored anew. -/
theorem WellFormed.grownParent_eq (h : fs.WellFormed dirs blocks)
    (hcan : fs.CanEnter dirs blocks parent name) {path : List UInt8}
    (hparent : fs.getParentInode path = parent) :
    fs.grownParent path = (parent, fs.allocated) ∧ fs.allocated.growWrites parent = [] ∧
      fs.storedParent path = { parent with size := parent.size + dirEntryBytes } := by
  obtain ⟨-, -, hgrown, hsame⟩ := h.room hcan
  have hno : ¬ (bytesToBlocks (grownSize parent) > bytesToBlocks parent.size ∧
      bytesToBlocks parent.size < 2) := by omega
  have heq : fs.grownParent path = (parent, fs.allocated) := by
    rw [grownParent, hparent, growDirectory]
    exact if_neg hno
  refine ⟨heq, if_neg hno, ?_⟩
  rw [storedParent, heq, hparent, hgrown]

/-- **What a call does to a well-formed disk.** -/
theorem WellFormed.createFile (h : fs.WellFormed dirs blocks) {path : List UInt8}
    (hcan : fs.CanEnter dirs blocks parent (getNamePath path))
    (hparent : fs.getParentInode path = parent) (behind : ByteStore) :
    ∃ fs', fs.createFile path behind =
        some (newInode fs.superblock.firstFreeInodeBit fs.cachedBlock, fs') ∧
      fs.Entered parent (getNamePath path) fs' := by
  obtain ⟨hgrown, hwrites, hstored⟩ := h.grownParent_eq hcan hparent
  obtain ⟨-, -, hsize, hsame⟩ := h.room hcan
  obtain ⟨i, j, hempty, hi, hj, hzero⟩ := h.exists_emptyEntry hcan
  have hlist : fs.createWrites path behind =
      [(chunkAddress fs.superblock.firstInodeBitmap fs.superblock.firstFreeInodeBit,
        markedChunk fs.disk fs.superblock.firstInodeBitmap fs.superblock.firstFreeInodeBit),
      (chunkAddress fs.superblock.firstDataBitmap fs.cachedBlock,
        markedChunk fs.takeInode.disk fs.superblock.firstDataBitmap fs.cachedBlock),
      (inodeAddress fs.superblock fs.superblock.firstFreeInodeBit,
        (newInode fs.superblock.firstFreeInodeBit fs.cachedBlock).bytes),
      (sectorAddress (blockSector (parent.directPointers i)) + j * dirEntryBytes,
        DirEntry.bytes ⟨fs.superblock.firstFreeInodeBit, getNamePath path⟩),
      (inodeAddress fs.superblock parent.iNumber,
        { parent with size := parent.size + dirEntryBytes }.bytes),
      (sectorAddress superblockDiskSector, superblockSector fs.allocated.superblock behind)] := by
    rw [createWrites, hgrown, hparent, hwrites, hstored, hsame, entryWrites, hempty]
    rfl
  -- where the six places are
  have hffi := chunkAddress_inode h.layout hcan.number.2.1
  have hbit := chunkAddress_data h.layout (b := fs.cachedBlock)
    (by rw [hcan.cachedBlock_eq h]; exact hcan.block)
  obtain ⟨hinode, hinodeEnd⟩ := inodeAddress_of_layout h.layout hcan.number.2.1
  obtain ⟨hnode, hnodeEnd⟩ := inodeAddress_of_layout h.layout (h.number _ hcan.dir).2.1
  have hapart := inodeAddress_apart h.layout hcan.number.2.1 (h.number _ hcan.dir).2.1
    fun he ↦ hcan.number.2.2 (he ▸ hcan.dir)
  have htable := Nat.mul_le_mul_right fsBlock h.layout.firstDataBlock
  have hfirst := Nat.mul_le_mul_right fsBlock h.layout.firstInodeBlock
  have hsuper : sectorAddress superblockDiskSector = 4096 := by decide
  have hdata : fs.superblock.firstDataBlock * fsBlock ≤
      sectorAddress (blockSector (parent.directPointers i)) := by
    have hle := (h.size _ hcan.dir).2
    have hi' := hi
    rw [blockCount, hcan.copy.fields.2.1] at hi'
    have hseven : i < 7 := by
      rw [bytesToBlocks_eq] at hi'
      rw [fsBlock] at hle
      omega
    obtain ⟨haddr, hle⟩ := h.blockAddress hcan.dir hi'
    rw [hcan.copy.fields.2.2 i hseven, haddr]
    exact hle
  have hlen := DirEntry.length_bytes (e := ⟨fs.superblock.firstFreeInodeBit, getNamePath path⟩)
    hcan.short
  rw [← hinode] at hinodeEnd
  rw [← hnode] at hnodeEnd
  have hblock : fsBlock = 4096 := rfl
  have hsector : fsSector = 512 := rfl
  have hinodeBytes : inodeBytes = 64 := rfl
  refine ⟨_, createFile_eq hcan.short behind, ?_⟩
  rw [hparent, hgrown, hstored, hlist]
  refine ⟨⟨_, _, rfl⟩, ?_, ?_, fun x h₁ h₂ h₃ h₄ ↦ ?_, ⟨i, j, hi, hj, hzero, fun x hx ↦ ?_⟩,
    fun x t ht h₁ h₂ hset ↦ ?_, rfl, rfl⟩
  · refine ByteStore.slice_splices_self fs.disk [_, _] [_, _, _] (Inode.length_bytes _)
      fun w hw ↦ ?_
    simp only [List.mem_cons, List.not_mem_nil, or_false] at hw
    rcases hw with rfl | rfl | rfl <;>
      simp only [Inode.length_bytes, length_superblockSector, hlen] <;> omega
  · refine ByteStore.slice_splices_self fs.disk [_, _, _, _] [_] (Inode.length_bytes _)
      fun w hw ↦ ?_
    rw [List.mem_singleton.mp hw]
    simp only [length_superblockSector]
    omega
  · refine ByteStore.splices_of_not_reached fun w hw ↦ ?_
    rw [ByteStore.Reaches]
    simp only [List.mem_cons, List.not_mem_nil, or_false] at hw
    rcases hw with rfl | rfl | rfl | rfl | rfl | rfl <;>
      simp only [length_markedChunk, Inode.length_bytes, length_superblockSector, hlen] <;> omega
  · -- before and after the entry nothing is written there
    have hbefore := h.allocated_disk_data hcan hx
    rw [allocated_disk] at hbefore
    have hafter : ∀ m : ByteStore, m.splices [(inodeAddress fs.superblock parent.iNumber,
        { parent with size := parent.size + dirEntryBytes }.bytes),
        (sectorAddress superblockDiskSector,
          superblockSector fs.allocated.superblock behind)] x = m x := fun m ↦ by
      refine ByteStore.splices_of_not_reached fun w hw ↦ ?_
      rw [ByteStore.Reaches]
      simp only [List.mem_cons, List.not_mem_nil, or_false] at hw
      rcases hw with rfl | rfl <;>
        simp only [Inode.length_bytes, length_superblockSector] <;> omega
    refine (hafter _).trans ?_
    simp only [ByteStore.splice, ByteStore.splices_cons, ByteStore.splices_nil] at hbefore ⊢
    rw [hbefore]
  · have hafter : ∀ m : ByteStore, m.splices
      [(inodeAddress fs.superblock fs.superblock.firstFreeInodeBit,
        (newInode fs.superblock.firstFreeInodeBit fs.cachedBlock).bytes),
      (sectorAddress (blockSector (parent.directPointers i)) + j * dirEntryBytes,
        DirEntry.bytes ⟨fs.superblock.firstFreeInodeBit, getNamePath path⟩),
      (inodeAddress fs.superblock parent.iNumber,
        { parent with size := parent.size + dirEntryBytes }.bytes),
      (sectorAddress superblockDiskSector, superblockSector fs.allocated.superblock behind)] x =
        m x := fun m ↦ by
      refine ByteStore.splices_of_not_reached fun w hw ↦ ?_
      rw [ByteStore.Reaches]
      simp only [List.mem_cons, List.not_mem_nil, or_false] at hw
      rcases hw with rfl | rfl | rfl | rfl <;>
        simp only [Inode.length_bytes, length_superblockSector, hlen] <;> omega
    have htake : fs.takeInode.disk = fs.disk.splice
      (chunkAddress fs.superblock.firstInodeBitmap fs.superblock.firstFreeInodeBit)
      (markedChunk fs.disk fs.superblock.firstInodeBitmap fs.superblock.firstFreeInodeBit) :=
      setBitmap_eq ..
    have hmarked := testBit_splice_markedChunk fs.superblock.firstDataBitmap fs.cachedBlock ht
      (htake ▸ testBit_splice_markedChunk fs.superblock.firstInodeBitmap
        fs.superblock.firstFreeInodeBit ht hset)
    rw [htake] at hmarked
    show ((ByteStore.splices _ _) x).toNat.testBit t = true
    rw [ByteStore.splices_cons, ByteStore.splices_cons]
    rw [hafter]
    rw [htake]
    exact hmarked

end Entering

/-! ## The disk after a call -/

section After

variable {fs fs' : Fs} {dirs : ℕ → Prop} {blocks : ℕ} {parent : Inode} {name : List UInt8}

/-- The bytes of an inode on the disk. -/
theorem bytes_node (h : Layout fs.superblock blocks) {k : ℕ} (hk : k < inodeRoom fs.superblock) :
    (fs.node k).bytes = fs.disk.slice (inodeAddress fs.superblock k) inodeBytes := by
  rw [node, diskInode_of_layout h _ hk, bytes_readInode]

/-- Inodes with the same bytes have the same fields. -/
theorem fields_of_bytes_node {k : ℕ} (h : (fs'.node k).bytes = (fs.node k).bytes) :
    (fs'.node k).iNumber = (fs.node k).iNumber ∧ (fs'.node k).fileType = (fs.node k).fileType ∧
      (fs'.node k).size = (fs.node k).size ∧
      ∀ i, i < 7 → (fs'.node k).directPointers i = (fs.node k).directPointers i :=
  Inode.fields_of_bytes h (readInode_inRange ..) (readInode_inRange ..)

theorem Entered.layout (hent : fs.Entered parent name fs') (h : Layout fs.superblock blocks) :
    Layout fs'.superblock blocks := by
  obtain ⟨a, b, hs⟩ := hent.superblock
  rw [hs]
  exact ⟨h.firstInodeBlock, h.firstDataBlock, h.inodes, h.diskBlocks, h.inodeBitmap, h.dataBitmap,
    h.dataBitmapBlock, h.dataBitmapEnd⟩

theorem Entered.inodeAddress_eq (hent : fs.Entered parent name fs') (k : ℕ) :
    inodeAddress fs'.superblock k = inodeAddress fs.superblock k := by
  obtain ⟨a, b, hs⟩ := hent.superblock
  rw [hs]
  rfl

theorem Entered.inodeRoom_eq (hent : fs.Entered parent name fs') :
    inodeRoom fs'.superblock = inodeRoom fs.superblock := by
  obtain ⟨a, b, hs⟩ := hent.superblock
  rw [hs]
  rfl

variable (h : fs.WellFormed dirs blocks) (hcan : fs.CanEnter dirs blocks parent name)
  (hent : fs.Entered parent name fs')
include h hent

/-- The other inodes stay. -/
theorem WellFormed.bytes_node_other {k : ℕ} (hk : k < inodeRoom fs.superblock)
    (hnew : k ≠ fs.superblock.firstFreeInodeBit)
    (hroom : fs.superblock.firstFreeInodeBit < inodeRoom fs.superblock)
    (hparent : parent.iNumber < inodeRoom fs.superblock) (hne : k ≠ parent.iNumber) :
    (fs'.node k).bytes = (fs.node k).bytes := by
  obtain ⟨haddr, hend⟩ := inodeAddress_of_layout h.layout hk
  have h₁ := inodeAddress_apart h.layout hk hroom hnew
  have h₂ := inodeAddress_apart h.layout hk hparent hne
  rw [bytes_node (hent.layout h.layout) (hent.inodeRoom_eq ▸ hk), bytes_node h.layout hk,
    hent.inodeAddress_eq]
  refine ByteStore.slice_congr fun i hi ↦ hent.table _ ?_ ?_ ?_ ?_ <;> omega

include hcan

theorem WellFormed.bytes_node_new : (fs'.node fs.superblock.firstFreeInodeBit).bytes =
    (newInode fs.superblock.firstFreeInodeBit fs.cachedBlock).bytes := by
  rw [bytes_node (hent.layout h.layout) (hent.inodeRoom_eq ▸ hcan.number.2.1), hent.inodeAddress_eq]
  exact hent.inode

theorem WellFormed.bytes_node_parent : (fs'.node parent.iNumber).bytes =
    { parent with size := parent.size + dirEntryBytes }.bytes := by
  rw [bytes_node (hent.layout h.layout) (hent.inodeRoom_eq ▸ (h.number _ hcan.dir).2.1),
    hent.inodeAddress_eq]
  exact hent.parentInode

/-- The new inode. -/
theorem WellFormed.node_new :
    (fs'.node fs.superblock.firstFreeInodeBit).iNumber = fs.superblock.firstFreeInodeBit ∧
    (fs'.node fs.superblock.firstFreeInodeBit).fileType = fileTypeFile ∧
    (fs'.node fs.superblock.firstFreeInodeBit).size = fsBlock ∧
    (fs'.node fs.superblock.firstFreeInodeBit).directPointers 0 = fs.cachedBlock := by
  have hlayout := h.layout
  have h₁ := hlayout.firstDataBlock
  have h₂ := hlayout.inodes
  have h₃ : fs.superblock.firstFreeInodeBit <
    (fs.superblock.firstDataBlock - fs.superblock.firstInodeBlock) * 64 := hcan.number.2.1
  have hrange : (newInode fs.superblock.firstFreeInodeBit fs.cachedBlock).InRange := by
    refine ⟨?_, show (0 : ℕ) < 2 ^ 8 by decide, show 4096 < 2 ^ 32 by decide, fun i hi ↦ ?_⟩
    · show fs.superblock.firstFreeInodeBit < 2 ^ 32
      omega
    · show Function.update (fun _ ↦ 0) 0 fs.cachedBlock i < 2 ^ 32
      rw [Function.update_apply]
      split
      · exact Nat.mod_lt _ (by decide)
      · decide
  obtain ⟨hnum, htype, hsize, hptr⟩ := Inode.fields_of_bytes
    (h.bytes_node_new hcan hent) (readInode_inRange ..) hrange
  exact ⟨hnum, htype, hsize, hptr 0 (by decide)⟩

/-- The inode of the parent is the old one with a larger size. -/
theorem WellFormed.node_parent : (fs'.node parent.iNumber).iNumber = parent.iNumber ∧
    (fs'.node parent.iNumber).fileType = (fs.node parent.iNumber).fileType ∧
    (fs'.node parent.iNumber).size = (fs.node parent.iNumber).size + dirEntryBytes ∧
    ∀ i, i < 7 →
      (fs'.node parent.iNumber).directPointers i = (fs.node parent.iNumber).directPointers i := by
  obtain ⟨hnum, htype, hsize, hptr⟩ := Inode.fields_of_bytes
    (h.bytes_node_parent hcan hent) (readInode_inRange ..) (h.grown_inRange hcan)
  obtain ⟨htype', hsize', hptr'⟩ := hcan.copy.fields
  exact ⟨hnum, htype.trans htype', hsize.trans (congrArg (· + dirEntryBytes) hsize'),
    fun i hi ↦ (hptr i hi).trans (hptr' i hi)⟩

/-- A directory keeps its number, its type and its blocks. -/
theorem WellFormed.node_dir {k : ℕ} (hk : dirs k) :
    (fs'.node k).iNumber = k ∧ (fs'.node k).fileType = (fs.node k).fileType ∧
      blockCount (fs'.node k) = blockCount (fs.node k) ∧
      ∀ i, i < 7 → (fs'.node k).directPointers i = (fs.node k).directPointers i := by
  by_cases hp : k = parent.iNumber
  · subst hp
    obtain ⟨hnum, htype, hsize, hptr⟩ := h.node_parent hcan hent
    obtain ⟨-, -, hgrown, hsame⟩ := h.room hcan
    refine ⟨hnum, htype, ?_, hptr⟩
    rw [blockCount, blockCount, hsize, ← hcan.copy.fields.2.1, ← hgrown, hsame]
  · obtain ⟨hnum, htype, hsize, hptr⟩ := fields_of_bytes_node (h.bytes_node_other hent
      (h.number k hk).2.1 (fun he ↦ hcan.number.2.2 (he ▸ hk)) hcan.number.2.1
      (h.number _ hcan.dir).2.1 hp)
    exact ⟨hnum.trans (h.number k hk).2.2, htype, by rw [blockCount, blockCount, hsize], hptr⟩

/-- **The links of the other directories stay.** -/
theorem WellFormed.links_other {k : ℕ} (hk : dirs k) (hne : k ≠ parent.iNumber) :
    fs'.links (fs'.node k) = fs.links (fs.node k) := by
  obtain ⟨-, -, hblocks, hptr⟩ := h.node_dir hcan hent hk
  obtain ⟨i, j, hi, hj, -, hdata⟩ := hent.data
  rw [blockCount, hcan.copy.fields.2.1] at hi
  have hlen := DirEntry.length_bytes (e := ⟨fs.superblock.firstFreeInodeBit, name⟩) hcan.short
  refine links_congr hblocks (fun i hi ↦ hptr i (h.lt_seven hk hi)) fun i' x hi' h₁ h₂ ↦ ?_
  obtain ⟨haddr, hle⟩ := h.blockAddress hk hi'
  have hapart := h.block_apart hk hcan.dir hi' hi fun he ↦ hne he.1
  rw [hdata x (by omega), hcan.copy.fields.2.2 i (h.lt_seven hcan.dir hi)]
  refine ByteStore.splice_of_not_mem ?_
  rw [hlen]
  rw [dirEntriesPerBlock, fsBlock, dirEntryBytes] at *
  omega

/-- **The links of the parent are the old ones with the new one among them.** -/
theorem WellFormed.links_parent : ∃ l₁ l₂, fs.links (fs.node parent.iNumber) = l₁ ++ l₂ ∧
    fs'.links (fs'.node parent.iNumber) =
      l₁ ++ ⟨fs.superblock.firstFreeInodeBit, name⟩ :: l₂ := by
  obtain ⟨-, -, hblocks, hptr⟩ := h.node_dir hcan hent hcan.dir
  obtain ⟨i, j, hi, hj, hzero, hdata⟩ := hent.data
  rw [blockCount, hcan.copy.fields.2.1] at hi
  rw [hcan.copy.fields.2.2 i (h.lt_seven hcan.dir hi)] at hzero hdata
  have hroom : fs.superblock.firstFreeInodeBit <
    (fs.superblock.firstDataBlock - fs.superblock.firstInodeBlock) * 64 := hcan.number.2.1
  have hinodes := h.layout.inodes
  refine links_splice hblocks (fun i hi ↦ hptr i (h.lt_seven hcan.dir hi)) hi hj hzero
    (Nat.ne_of_gt hcan.number.1) (by dsimp only; omega) hcan.short hcan.zero
    (fun e he ↦ (h.link _ e hcan.dir he).2.2.1)
    (fun i' hi' hne ↦ h.block_apart hcan.dir hcan.dir hi' hi fun he ↦ hne he.2)
    fun i' x hi' h₁ h₂ ↦ hdata x ?_
  obtain ⟨haddr, hle⟩ := h.blockAddress hcan.dir hi'
  omega

/-- A cached directory follows its inode. -/
theorem WellFormed.copy_after {cached : Inode} (hdir : dirs cached.iNumber) (hcopy : fs.Copy cached) :
    let cached' := if cached.iNumber = parent.iNumber
      then { parent with size := parent.size + dirEntryBytes } else cached
    dirs cached'.iNumber ∧ fs'.Copy cached' := by
  dsimp only
  split
  · exact ⟨hcan.dir, h.grown_inRange hcan, (h.bytes_node_parent hcan hent).symm⟩
  · refine ⟨hdir, hcopy.1, hcopy.2.trans (h.bytes_node_other hent (h.number _ hdir).2.1
      (fun he ↦ hcan.number.2.2 (he ▸ hdir)) hcan.number.2.1 (h.number _ hcan.dir).2.1 ‹_›).symm⟩

/-- A link of the disk is an old one, or the new one in the parent. -/
theorem WellFormed.mem_links_after {k : ℕ} {e : DirEntry} (hk : dirs k) :
    e ∈ fs'.links (fs'.node k) ↔ e ∈ fs.links (fs.node k) ∨
      (k = parent.iNumber ∧ e = ⟨fs.superblock.firstFreeInodeBit, name⟩) := by
  by_cases hp : k = parent.iNumber
  · obtain ⟨l₁, l₂, hold, hnew⟩ := h.links_parent hcan hent
    subst hp
    rw [hold, hnew]
    simp only [List.mem_append, List.mem_cons, true_and]
    exact (or_congr_right or_comm).trans or_assoc.symm
  · rw [h.links_other hcan hent hk hp]
    simp only [hp, false_and, or_false]

/-- What the disk says of a linked inode after the call. -/
theorem WellFormed.node_linked {m : ℕ} (hm : m < inodeRoom fs.superblock)
    (hnum : (fs.node m).iNumber = m) : (fs'.node m).iNumber = m ∧
      ((fs'.node m).fileType = fileTypeDir → (fs.node m).fileType = fileTypeDir) ∧
      (¬ dirs m → ∀ j, j < 7 → j < blockCount (fs'.node m) →
        (m = fs.superblock.firstFreeInodeBit ∧
          (fs'.node m).directPointers j = fs.cachedBlock) ∨
        (j < blockCount (fs.node m) ∧
          (fs'.node m).directPointers j = (fs.node m).directPointers j)) := by
  by_cases hnew : m = fs.superblock.firstFreeInodeBit
  · obtain ⟨hnum', htype, hsize, hptr⟩ := h.node_new hcan hent
    subst hnew
    refine ⟨hnum', fun hd ↦ absurd (htype.symm.trans hd) (by decide), fun _ j _ hj ↦ ?_⟩
    rw [blockCount, hsize] at hj
    obtain rfl : j = 0 := Nat.lt_one_iff.mp hj
    exact Or.inl ⟨rfl, hptr⟩
  · by_cases hp : m = parent.iNumber
    · subst hp
      obtain ⟨hnum', htype, -, -⟩ := h.node_dir hcan hent hcan.dir
      exact ⟨hnum', fun hd ↦ htype.symm.trans hd, fun hno ↦ absurd hcan.dir hno⟩
    · obtain ⟨hnum', htype, hsize, hptr⟩ := fields_of_bytes_node (h.bytes_node_other hent hm hnew
        hcan.number.2.1 (h.number _ hcan.dir).2.1 hp)
      refine ⟨hnum'.trans hnum, fun hd ↦ htype.symm.trans hd, fun _ j hj hjb ↦ Or.inr ⟨?_, hptr j hj⟩⟩
      rwa [blockCount, hsize] at hjb

/-- **A call keeps the disk well formed**, with the same directories. -/
theorem WellFormed.entered : fs'.WellFormed dirs blocks := by
  have hroom := hent.inodeRoom_eq
  have hstart : fs'.superblock.firstDataBlock = fs.superblock.firstDataBlock ∧
      fs'.superblock.numDataBitmap = fs.superblock.numDataBitmap ∧
      fs'.superblock.firstDataBitmapBlock = fs.superblock.firstDataBitmapBlock := by
    obtain ⟨a, b, hs⟩ := hent.superblock
    rw [hs]
    exact ⟨rfl, rfl, rfl⟩
  -- the blocks of the directories are the same as before
  have hsame : ∀ k i, dirs k → i < blockCount (fs'.node k) → i < blockCount (fs.node k) ∧
      (fs'.node k).directPointers i = (fs.node k).directPointers i := fun k i hk hi ↦ by
    obtain ⟨-, -, hblocks, hptr⟩ := h.node_dir hcan hent hk
    rw [hblocks] at hi
    exact ⟨hi, hptr i (h.lt_seven hk hi)⟩
  refine ⟨hent.layout h.layout, ?_, ?_, fun k hk ↦ ?_, fun k hk ↦ ?_, fun k hk ↦ ?_,
    fun k i hk hi ↦ ?_, fun k k' i i' hk hk' hi hi' he ↦ ?_, fun k i hk hi ↦ ?_,
    fun k e hk he ↦ ?_, fun k e hk he hno j hj hjb k' i hk' hi ↦ ?_⟩
  · rw [hent.rootInode]
    exact h.copy_after hcan hent h.rootInode.1 h.rootInode.2
  · rw [hent.currentDirInode]
    exact h.copy_after hcan hent h.currentDirInode.1 h.currentDirInode.2
  · rw [hroom]
    exact ⟨(h.number k hk).1, (h.number k hk).2.1, (h.node_dir hcan hent hk).1⟩
  · exact (h.node_dir hcan hent hk).2.1.trans (h.fileType k hk)
  · by_cases hp : k = parent.iNumber
    · obtain ⟨l₁, l₂, hold, hnew⟩ := h.links_parent hcan hent
      have hsize := (h.size _ hcan.dir).1
      have hle := (h.room hcan).2.1
      subst hp
      rw [(h.node_parent hcan hent).2.2.1, hnew]
      rw [hold] at hsize
      rw [hcan.copy.fields.2.1] at hle
      refine ⟨?_, hle⟩
      rw [hsize]
      simp only [List.length_append, List.length_cons]
      rw [dirEntryBytes]
      omega
    · rw [h.links_other hcan hent hk hp, (fields_of_bytes_node (h.bytes_node_other hent
        (h.number k hk).2.1 (fun he ↦ hcan.number.2.2 (he ▸ hk)) hcan.number.2.1
        (h.number _ hcan.dir).2.1 hp)).2.2.1]
      exact h.size k hk
  · obtain ⟨hi, hptr⟩ := hsame k i hk hi
    rw [hptr, hstart.1]
    exact h.pointer k i hk hi
  · obtain ⟨hi, hptr⟩ := hsame k i hk hi
    obtain ⟨hi', hptr'⟩ := hsame k' i' hk' hi'
    exact h.apart k k' i i' hk hk' hi hi' (hptr.symm.trans (he.trans hptr'))
  · obtain ⟨hi, hptr⟩ := hsame k i hk hi
    obtain ⟨hlt, hset⟩ := h.marked k i hk hi
    have h₁ := h.layout.dataBitmapBlock
    have h₂ := h.layout.dataBitmapEnd
    rw [hptr, hstart.1, hstart.2.1]
    refine ⟨hlt, ?_⟩
    rw [dataBit, hstart.2.2]
    refine hent.bits _ _ (Nat.mod_lt _ (by decide)) ?_ ?_ hset
    · rw [fsBlock]
      omega
    · rw [fsBlock]
      omega
  · rw [hroom]
    rcases (h.mem_links_after hcan hent hk).mp he with he | ⟨-, rfl⟩
    · obtain ⟨h₁, h₂, h₃, h₄⟩ := h.link k e hk he
      obtain ⟨hnum, htype, -⟩ := h.node_linked hcan hent h₁ h₂
      exact ⟨h₁, hnum, h₃, fun hd ↦ h₄ (htype hd)⟩
    · obtain ⟨hnum, htype, -⟩ := h.node_new hcan hent
      exact ⟨hcan.number.2.1, hnum, hcan.short, fun hd ↦ absurd (htype.symm.trans hd) (by decide)⟩
  · obtain ⟨hi, hptr⟩ := hsame k' i hk' hi
    rw [hptr]
    rcases (h.mem_links_after hcan hent hk).mp he with he | ⟨-, rfl⟩
    · obtain ⟨h₁, h₂, -, -⟩ := h.link k e hk he
      rcases (h.node_linked hcan hent h₁ h₂).2.2 hno j hj hjb with ⟨-, hcached⟩ | ⟨hjb, hold⟩
      · rw [hcached]
        exact hcan.blockFree k' i hk' hi
      · rw [hold]
        exact h.owned k e hk he hno j hj hjb k' i hk' hi
    · obtain ⟨-, -, hsize, hcached⟩ := h.node_new hcan hent
      rw [blockCount, hsize] at hjb
      obtain rfl : j = 0 := Nat.lt_one_iff.mp hjb
      rw [hcached]
      exact hcan.blockFree k' i hk' hi

end After

/-! ## A disk with one directory -/

/-- The root directory is inode 1, in block 5, and links itself `n` times under the name `a`. -/
def selfLinksDisk (n : ℕ) : ByteStore := fun x ↦
  if x = 12288 then 1
  else if x = 16448 then 1 else if x = 16452 then 1
  else if x = 16453 then UInt8.ofNat (64 * n) else if x = 16454 then UInt8.ofNat (64 * n / 256)
  else if x = 16481 then 5
  else if 20480 ≤ x ∧ x < 20480 + 64 * n ∧ x % 64 = 0 then 1
  else if 20480 ≤ x ∧ x < 20480 + 64 * n ∧ x % 64 = 4 then 0x61
  else 0

/-- The blocks of the disk are: 2 and 3 for the bitmaps, 4 for the inodes, and the data. -/
def selfLinksSuperblock : Superblock :=
  { numInodes := 64, numInodesBitmap := 1, numDataBitmap := 1, numInodesPerBlock := 64,
    numInodesPerSector := 8, numInodeBlocks := 1, firstInodeBitmap := 2, firstInodeBitmapBlock := 2,
    firstDataBitmapBlock := 3, firstDataBitmap := 3, firstInodeBlock := 4, firstDataBlock := 5,
    inodeSize := 64, numDatablocks := 11, maxFileSize := 28672, rootINumber := 1,
    firstFreeInodeBit := 4, firstFreeDataBit := 5, deviceNumber := 1 }

def selfLinks (n : ℕ) : Fs where
  disk := selfLinksDisk n
  superblock := selfLinksSuperblock
  rootInode := diskInode (selfLinksDisk n) selfLinksSuperblock 1
  currentDirInode := diskInode (selfLinksDisk n) selfLinksSuperblock 1

/-- A byte that the definition lists. -/
theorem selfLinksDisk_out {n x : ℕ} (h : x ≠ 12288) (h₁ : x < 16448 ∨ 16454 < x) (h₂ : x ≠ 16481)
    (h₃ : x < 20480 ∨ 20480 + 64 * n ≤ x ∨ (x % 64 ≠ 0 ∧ x % 64 ≠ 4)) : selfLinksDisk n x = 0 := by
  rw [selfLinksDisk, if_neg h, if_neg (by omega), if_neg (by omega), if_neg (by omega),
    if_neg (by omega), if_neg h₂, if_neg (by omega), if_neg (by omega)]

theorem selfLinks_node_eq (n : ℕ) :
    (selfLinks n).node 1 = readInode (selfLinksDisk n) 16448 := by
  have haddr : sectorAddress (inodeSector selfLinksSuperblock 1) +
    1 % inodesPerSector * inodeBytes = 16448 := by decide
  exact congrArg (readInode (selfLinksDisk n)) haddr

theorem selfLinks_pointer_one (n : ℕ) : ((selfLinks n).node 1).directPointers 1 = 0 := by
  rw [selfLinks_node_eq, readInode]
  dsimp only
  rw [ByteStore.readWord_eq]
  rfl

theorem selfLinks_node {n : ℕ} (hn : n ≤ 64) : ((selfLinks n).node 1).iNumber = 1 ∧
    ((selfLinks n).node 1).fileType = fileTypeDir ∧ ((selfLinks n).node 1).size = 64 * n ∧
    ((selfLinks n).node 1).directPointers 0 = 5 := by
  rw [selfLinks_node_eq, readInode]
  refine ⟨?_, rfl, ?_, ?_⟩
  · dsimp only
    rw [ByteStore.readWord_eq]
    rfl
  · have hbyte : ∀ x, x = 16455 ∨ x = 16456 → selfLinksDisk n x = 0 := fun x hx ↦
      selfLinksDisk_out (by omega) (by omega) (by omega) (by omega)
    have hlow : selfLinksDisk n 16453 = UInt8.ofNat (64 * n) := rfl
    have hhigh : selfLinksDisk n 16454 = UInt8.ofNat (64 * n / 256) := rfl
    dsimp only
    rw [ByteStore.readWord_eq, hlow, hhigh, hbyte _ (Or.inl rfl), hbyte _ (Or.inr rfl),
      UInt8.toNat_ofNat', UInt8.toNat_ofNat']
    show 64 * n % 256 + 0x100 * (64 * n / 256 % 256) + 0x10000 * 0 + 0x1000000 * 0 = 64 * n
    omega
  · dsimp only
    rw [ByteStore.readWord_eq]
    rfl

theorem selfLinks_rootInode (n : ℕ) : (selfLinks n).rootInode = (selfLinks n).node 1 := by
  simp only [selfLinks, node]

theorem selfLinks_currentDirInode (n : ℕ) :
    (selfLinks n).currentDirInode = (selfLinks n).node 1 := by
  simp only [selfLinks, node]

/-- The pieces of the directory. -/
theorem selfLinks_piece {n j : ℕ} (hj : j < 64) :
    (j < n → readDirEntry (selfLinksDisk n) 20480 j = ⟨1, [0x61]⟩) ∧
      (n ≤ j → (readDirEntry (selfLinksDisk n) 20480 j).iNumber = 0) := by
  have hword : (readDirEntry (selfLinksDisk n) 20480 j).iNumber =
      (selfLinksDisk n (20480 + 64 * j)).toNat := by
    show (selfLinksDisk n).readWord (20480 + j * 64) = _
    rw [ByteStore.readWord_eq, selfLinksDisk_out (x := 20480 + j * 64 + 1) (by omega) (by omega)
      (by omega) (by omega), selfLinksDisk_out (x := 20480 + j * 64 + 2) (by omega) (by omega)
      (by omega) (by omega), selfLinksDisk_out (x := 20480 + j * 64 + 3) (by omega) (by omega)
      (by omega) (by omega), Nat.mul_comm j]
    rfl
  refine ⟨fun hlt ↦ ?_, fun hle ↦ ?_⟩
  · have hone : selfLinksDisk n (20480 + 64 * j) = 1 := by
      rw [selfLinksDisk, if_neg (by omega), if_neg (by omega), if_neg (by omega),
        if_neg (by omega), if_neg (by omega), if_neg (by omega), if_pos (by omega)]
    have hletter : selfLinksDisk n (20480 + j * dirEntryBytes + 4) = 0x61 := by
      rw [dirEntryBytes]
      rw [selfLinksDisk, if_neg (by omega), if_neg (by omega), if_neg (by omega),
        if_neg (by omega), if_neg (by omega), if_neg (by omega), if_neg (by omega),
        if_pos (by omega)]
    have hend : selfLinksDisk n (20480 + j * dirEntryBytes + 4 + 1) = 0 := by
      rw [dirEntryBytes]
      exact selfLinksDisk_out (by omega) (by omega) (by omega) (by omega)
    have hname : (readDirEntry (selfLinksDisk n) 20480 j).name = [0x61] := by
      rw [readDirEntry_name (k := 1) (by rw [dirEntryBytes, fsBlock]; omega) hend fun i hi ↦ ?_,
        ByteStore.slice_succ, hletter]
      · rfl
      · rw [Nat.lt_one_iff.mp hi, Nat.add_zero, hletter]
        decide
    rw [hone] at hword
    calc readDirEntry (selfLinksDisk n) 20480 j
        = ⟨(readDirEntry (selfLinksDisk n) 20480 j).iNumber,
            (readDirEntry (selfLinksDisk n) 20480 j).name⟩ := rfl
      _ = ⟨1, [0x61]⟩ := by rw [hword, hname]; rfl
  · rw [hword, selfLinksDisk_out (by omega) (by omega) (by omega) (by omega)]
    rfl

theorem selfLinks_links {n : ℕ} (hpos : 0 < n) (hn : n ≤ 64) :
    (selfLinks n).links ((selfLinks n).node 1) = List.replicate n ⟨1, [0x61]⟩ := by
  obtain ⟨-, -, hsize, hptr⟩ := selfLinks_node hn
  have hblocks : bytesToBlocks ((selfLinks n).node 1).size = 1 := by
    rw [hsize, bytesToBlocks_eq]
    omega
  have haddr : sectorAddress (blockSector 5) = 20480 := by decide
  rw [links_eq, hblocks, List.range_one, List.flatMap_singleton, hptr, haddr, blockLinks]
  have hper : dirEntriesPerBlock = n + (64 - n) := by
    rw [dirEntriesPerBlock, fsBlock, dirEntryBytes]
    omega
  rw [hper, List.range_add, List.map_append, List.filter_append]
  have hfirst : (List.range n).map (readDirEntry (selfLinksDisk n) 20480) =
      List.replicate n ⟨1, [0x61]⟩ := by
    refine List.eq_replicate_iff.mpr ⟨by simp, fun e he ↦ ?_⟩
    obtain ⟨j, hj, rfl⟩ := List.mem_map.mp he
    have := List.mem_range.mp hj
    exact (selfLinks_piece (by omega)).1 this
  have hrest : (((List.range (64 - n)).map (n + ·)).map
      (readDirEntry (selfLinksDisk n) 20480)).filter (fun e ↦ e.iNumber != 0) = [] := by
    refine List.filter_eq_nil_iff.mpr fun e he ↦ ?_
    obtain ⟨j, hj, rfl⟩ := List.mem_map.mp he
    obtain ⟨r, hr, rfl⟩ := List.mem_map.mp hj
    have := List.mem_range.mp hr
    rw [(selfLinks_piece (by omega)).2 (by omega)]
    decide
  show ((List.range n).map (readDirEntry (selfLinksDisk n) 20480)).filter _ ++
    (((List.range (64 - n)).map (n + ·)).map (readDirEntry (selfLinksDisk n) 20480)).filter _ = _
  rw [hfirst, hrest, List.append_nil]
  exact List.filter_eq_self.mpr fun e he ↦ by rw [List.eq_of_mem_replicate he]; decide

/-- The disk is well formed. -/
theorem selfLinks_wellFormed {n : ℕ} (hpos : 0 < n) (hn : n ≤ 64) :
    (selfLinks n).WellFormed (· = 1) 16 := by
  obtain ⟨hnum, htype, hsize, hptr⟩ := selfLinks_node hn
  have hlinks := selfLinks_links hpos hn
  have hlink : ∀ {k e}, k = 1 → e ∈ (selfLinks n).links ((selfLinks n).node k) → e = ⟨1, [0x61]⟩ :=
    fun {k e} hk he ↦ by
      rw [hk, hlinks] at he
      exact List.eq_of_mem_replicate he
  have hone : ∀ {k i}, k = 1 → i < blockCount ((selfLinks n).node k) → i = 0 := fun {k i} hk hi ↦ by
    rw [hk, blockCount, hsize, bytesToBlocks_eq] at hi
    omega
  have hcopy : (selfLinks n).Copy ((selfLinks n).node 1) :=
    ⟨readInode_inRange .., by rw [hnum]⟩
  have hcached : (selfLinks n).rootInode.iNumber = 1 ∧ (selfLinks n).Copy (selfLinks n).rootInode := by
    rw [selfLinks_rootInode]
    exact ⟨hnum, hcopy⟩
  have hlayout : Layout selfLinksSuperblock 16 := by
    refine ⟨?_, ?_, ?_, ?_, ?_, ?_, ?_, ?_⟩ <;> decide
  have hroom : 1 < inodeRoom selfLinksSuperblock := by decide
  have hbit : dataBit (selfLinksDisk n) selfLinksSuperblock 0 = true := by
    have hbyte : selfLinksDisk n 12288 = 1 := rfl
    rw [dataBit, show selfLinksSuperblock.firstDataBitmapBlock * fsBlock + 0 / 8 = 12288 from rfl,
      hbyte]
    rfl
  refine ⟨hlayout, hcached, hcached, fun k hk ↦ ?_, fun k hk ↦ ?_, fun k hk ↦ ?_, fun k i hk hi ↦ ?_,
    fun k k' i i' hk hk' hi hi' _ ↦ ?_, fun k i hk hi ↦ ?_, fun k e hk he ↦ ?_,
    fun k e hk he hno ↦ ?_⟩
  · subst hk
    exact ⟨by decide, hroom, hnum⟩
  · rw [hk, htype]
  · rw [hk, hlinks, hsize, List.length_replicate]
    exact ⟨rfl, by rw [fsBlock]; omega⟩
  · rw [hone hk hi, hk, hptr]
    exact ⟨Nat.le_refl 5, by decide⟩
  · exact ⟨hk.trans hk'.symm, (hone hk hi).trans (hone hk' hi').symm⟩
  · rw [hone hk hi, hk, hptr]
    exact ⟨show 5 - 5 < 1 * 32768 by decide, hbit⟩
  · rw [hlink hk he]
    exact ⟨hroom, hnum, show 1 ≤ 59 by decide, fun _ ↦ rfl⟩
  · rw [hlink hk he] at hno
    exact absurd rfl hno

end Fs

end AbOS
