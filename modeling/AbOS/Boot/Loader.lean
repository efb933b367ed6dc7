import AbOS.Format.BootBlock
import AbOS.Format.Capacity
import AbOS.Format.RoundTrip

/-!
# From the image to the running kernel

`newboot.s` brings the superblock and the two kernel files from the disk into memory, the second
stage moves the kernel to 1 MiB, and `main` takes the superblock and the root inode from where they
are.  The formatter, the loader and the kernel agree about all of this without sharing a line of
code: the loader has the offsets of `first_inode_block` in the superblock and of the size and the
first pointer in an inode as numbers, and it reads as many sectors as the size says from the first
block on, whatever the other pointers say.

The sectors themselves are read by the BIOS.  It is a parameter here, of which `Int13.Reads` is what
is documented.

For a tree that is `Readable` the agreement holds: `newboot_loads` for the files, and
`boot_reads_tree` for every path that does not go on behind a regular file, from the tree of the host
to the running kernel.
-/

set_option autoImplicit false

namespace AbOS

open ByteStore

/-! ## The whole image -/

/-- The block of the superblock. -/
def superblockBlock (s : Superblock) : List UInt8 :=
  s.words.flatMap (leBytes 4) ++ List.replicate (fsBlock - 19 * 4) 0

/-- Everything in front of the inode table, in the order in which it is written. -/
def imageFront (bootBlock : List UInt8) (s : Superblock) : List UInt8 :=
  bootBlock ++ (superblockBlock s ++
    ((inodeBitmapWords s).flatMap (leBytes 4) ++ (dataBitmapWords s).flatMap (leBytes 4)))

/-- The disk image that `format_disk` leaves. -/
def diskImage (bootBlock : List UInt8) (entries : List Host) : ByteStore :=
  treeImage (splice (fun _ ↦ 0) 0 (imageFront bootBlock (treeSuperblock entries))) entries

/-! ## The loader -/

/-- `INT 0x13` with `AH = 0x42`, by the memory before it, the block address, the number of sectors,
and segment and offset of the buffer: the memory after it, or none if carry is set. -/
abbrev Int13 := ByteStore → ℕ → ℕ → ℕ → ℕ → Option ByteStore

/-- From `m` to `m'` the bytes `bs` have come to `address`.  Of the memory from the boot sector to
`0x80000`, which neither the stack nor the BIOS uses, nothing else has changed. -/
structure Fetched (m m' : ByteStore) (address : ℕ) (bs : List UInt8) : Prop where
  there : m'.slice address bs.length = bs
  other : ∀ x, 0x7C00 ≤ x → x < 0x80000 → x < address ∨ address + bs.length ≤ x → m' x = m x

/-- What is documented of the call: with 1 to 127 sectors of the disk and a buffer in one segment, in
memory that is free, it brings the sectors there. -/
def Int13.Reads (int13 : Int13) (disk : ByteStore) : Prop :=
  ∀ memory lba blkcnt segment offset, 1 ≤ blkcnt → blkcnt ≤ 127 →
    (lba + blkcnt) * fsSector ≤ diskSize → offset + blkcnt * fsSector ≤ 2 ^ 16 →
    0x7C00 ≤ segment * 16 + offset → segment * 16 + offset + blkcnt * fsSector ≤ 0x80000 →
    ∃ memory', int13 memory lba blkcnt segment offset = some memory' ∧
      Fetched memory memory' (segment * 16 + offset)
        (disk.slice (lba * fsSector) (blkcnt * fsSector))

/-- A register of 16 bits is loaded. -/
def readHalf (m : ByteStore) (a : ℕ) : ℕ := ofLe (m.slice a 2)

/-- `SUPERBLOCK`. -/
def superblockAddress : ℕ := 0x8C00

/-- `FIRST_INODE_BLOCK`. -/
def firstInodeBlockAddress : ℕ := superblockAddress + 40

/-- `PREKERNEL_INODE`. -/
def prekernelInode : ℕ := 0xB000 + 128

/-- `KERNEL_INODE`. -/
def kernelInode : ℕ := prekernelInode + 64

/-- `inode_table`. -/
def inodeTable (int13 : Int13) (memory : ByteStore) : Option ByteStore :=
  int13 memory (readHalf memory firstInodeBlockAddress * 8) 8 0 0xB000

/-- `load_prekernel` and `load_kernel`, with the address of the inode and the segment.  `DX` still
has the upper half of the product when the size is divided; a quotient of more than 16 bits is a
divide error. -/
def loadInode (int13 : Int13) (memory : ByteStore) (inode segment : ℕ) : Option ByteStore :=
  let lba := readHalf memory (inode + 33) * 8
  let dividend := lba / 2 ^ 16 * 2 ^ 16 + readHalf memory (inode + 5)
  if dividend / 512 < 2 ^ 16 then
    let blkcnt := if dividend % 512 = 0 then dividend / 512 else (dividend / 512 + 1) % 2 ^ 16
    int13 memory lba blkcnt segment 0
  else none

/-- `load_prekernel`. -/
def loadPrekernel (int13 : Int13) (memory : ByteStore) : Option ByteStore :=
  loadInode int13 memory prekernelInode 0x5000

/-- `load_kernel`. -/
def loadKernel (int13 : Int13) (memory : ByteStore) : Option ByteStore :=
  loadInode int13 memory kernelInode 0x1000

/-- `main` of `newboot.s`; it hangs when a call sets carry. -/
def newboot (int13 : Int13) (memory : ByteStore) : Option ByteStore :=
  (((int13 memory 1 15 0 0x7E00).bind (inodeTable int13)).bind (loadPrekernel int13)).bind
    (loadKernel int13)

/-- `PModeMain` of the second stage: `REP MOVSB`. -/
def copyKernel (memory : ByteStore) : ByteStore :=
  memory.splice 0x100000 (memory.slice 0x10000 30000)

/-! ## Mounting the image -/

/-- The superblock at `a`. -/
def readSuperblock (m : ByteStore) (a : ℕ) : Superblock where
  numInodes := m.readWord a
  numInodesBitmap := m.readWord (a + 4)
  numDataBitmap := m.readWord (a + 8)
  numInodesPerBlock := m.readWord (a + 12)
  numInodesPerSector := m.readWord (a + 16)
  numInodeBlocks := m.readWord (a + 20)
  firstInodeBitmap := m.readWord (a + 24)
  firstInodeBitmapBlock := m.readWord (a + 28)
  firstDataBitmapBlock := m.readWord (a + 32)
  firstDataBitmap := m.readWord (a + 36)
  firstInodeBlock := m.readWord (a + 40)
  firstDataBlock := m.readWord (a + 44)
  inodeSize := m.readWord (a + 48)
  numDatablocks := m.readWord (a + 52)
  maxFileSize := m.readWord (a + 56)
  rootINumber := m.readWord (a + 60)
  firstFreeInodeBit := m.readWord (a + 64)
  firstFreeDataBit := m.readWord (a + 68)
  deviceNumber := m.readWord (a + 72)

/-- What `main` sets up before anything else: the superblock that the boot loader has left at
`0x8C00`, and the root inode from the first sector of the inode table. -/
def mount (disk : ByteStore) (memory : ByteStore) (rootAddress : ℕ) : Fs :=
  let superblock := readSuperblock memory 0x8C00
  let buffer := readSectors disk 1 (superblock.firstInodeBlock * 8 % 2 ^ 32)
  let rootInode := readInode (fun x ↦ buffer.getD x 0) 64
  { disk, superblock := { superblock with rootINumber := rootAddress }, rootInode
    currentDirInode := rootInode }

/-! ## The superblock -/

/-- Words that follow each other. -/
theorem readWord_of_words {m : ByteStore} {a : ℕ} {ws : List ℕ} (hlt : ∀ w ∈ ws, w < 2 ^ 32)
    (h : m.slice a (ws.length * 4) = ws.flatMap (leBytes 4)) {i : ℕ} (hi : i < ws.length) :
    m.readWord (a + 4 * i) = ws[i] := by
  induction ws generalizing a i with
  | nil => exact absurd hi (Nat.not_lt_zero i)
  | cons w ws ih =>
    rw [List.length_cons, Nat.succ_mul, Nat.add_comm, slice_append, List.flatMap_cons] at h
    obtain ⟨hhead, htail⟩ := List.append_inj h (by rw [length_slice, length_leBytes])
    cases i with
    | zero =>
      rw [Nat.mul_zero, Nat.add_zero, readWord, hhead, ofLe_leBytes]
      exact Nat.mod_eq_of_lt (hlt w List.mem_cons_self)
    | succ i =>
      rw [show a + 4 * (i + 1) = a + 4 + 4 * i by omega]
      exact ih (fun v hv ↦ hlt v (List.mem_cons_of_mem _ hv)) htail (Nat.lt_of_succ_lt_succ hi)

/-- **The superblock is read back**, field by field. -/
theorem readSuperblock_eq {m : ByteStore} {a : ℕ} {s : Superblock} (hlt : ∀ w ∈ s.words, w < 2 ^ 32)
    (h : m.slice a (19 * 4) = s.words.flatMap (leBytes 4)) : readSuperblock m a = s := by
  have hword : ∀ i < 19, m.readWord (a + 4 * i) = s.words.getD i 0 := fun i hi ↦ by
    rw [readWord_of_words hlt h hi, List.getD_eq_getElem _ _ hi]
  obtain ⟨⟩ := s
  simp only [readSuperblock, Superblock.mk.injEq]
  exact ⟨hword 0 (by decide), hword 1 (by decide), hword 2 (by decide), hword 3 (by decide),
    hword 4 (by decide), hword 5 (by decide), hword 6 (by decide), hword 7 (by decide),
    hword 8 (by decide), hword 9 (by decide), hword 10 (by decide), hword 11 (by decide),
    hword 12 (by decide), hword 13 (by decide), hword 14 (by decide), hword 15 (by decide),
    hword 16 (by decide), hword 17 (by decide), hword 18 (by decide)⟩

/-- The formatter writes words of 32 bits. -/
theorem words_lt (info : FileInfo) : ∀ w ∈ (writeSuperblock info).words, w < 2 ^ 32 := by
  obtain ⟨n, hn⟩ : ∃ n, (info.numFiles + 2) % 2 ^ 32 = n := ⟨_, rfl⟩
  obtain ⟨hnum, hib, hfib, hdb, hblocks, hdata, hfi, hfd⟩ := writeSuperblock_fields hn
  have hd : (360 + 2 ^ 33 - (writeSuperblock info).firstDataBitmapBlock - n / 64 - 1) % 2 ^ 32 <
      2 ^ 32 := Nat.mod_lt _ (by decide)
  have hused : (writeSuperblock info).numDatablocks < 2 ^ 32 := Nat.mod_lt _ (by decide)
  have hfree : (writeSuperblock info).firstFreeDataBit < 2 ^ 32 := Nat.mod_lt _ (by decide)
  have hnlt : n < 2 ^ 32 := hn ▸ Nat.mod_lt _ (by decide)
  have hconst : (writeSuperblock info).numInodesPerBlock < 2 ^ 32 ∧
      (writeSuperblock info).numInodesPerSector < 2 ^ 32 ∧
      (writeSuperblock info).inodeSize < 2 ^ 32 := by
    refine ⟨?_, ?_, ?_⟩
    · show inodesPerBlock < 2 ^ 32
      decide
    · show inodesPerSector < 2 ^ 32
      decide
    · show inodeBytes < 2 ^ 32
      decide
  have hmax : (writeSuperblock info).maxFileSize = 0xFFFFFFFF ∧
      (writeSuperblock info).rootINumber = 0 ∧ (writeSuperblock info).firstInodeBitmap = 0 ∧
      (writeSuperblock info).firstDataBitmap = 0 ∧ (writeSuperblock info).deviceNumber = 1 ∧
      (writeSuperblock info).firstFreeInodeBit = (writeSuperblock info).numInodes :=
    ⟨rfl, rfl, rfl, rfl, rfl, rfl⟩
  simp only [Superblock.words, List.forall_mem_cons, List.not_mem_nil, false_imp_iff, implies_true,
    and_true]
  omega

/-! ## What stands where on the image -/

/-- An entry of a stored list is stored. -/
theorem EntriesStored.mem {disk : ByteStore} {s : Superblock} {dir : ℕ} {entries : List Host}
    {slots : List DirSlot} {ps : List Placed} (h : EntriesStored disk s dir entries slots ps)
    (hfit : EntriesFit entries) {c : Host} (hc : c ∈ entries) :
    ∃ (n : ℕ) (qs : List Placed) (k : ℕ), n = numberFor k c.name ∧ c.Stored disk s dir n qs ∧
      c.Fits ∧ ∀ q ∈ qs, q ∈ ps := by
  induction entries generalizing slots ps with
  | nil => exact absurd hc List.not_mem_nil
  | cons hd hs ih =>
    rw [EntriesStored] at h
    rw [EntriesFit] at hfit
    obtain ⟨n, buffer, slots', qs, qs', rfl, rfl, -, ⟨k, hnumber⟩, hhead, hrest⟩ := h
    rcases List.mem_cons.mp hc with rfl | hc
    · exact ⟨n, qs, k, hnumber, hhead, hfit.1, fun q hq ↦ List.mem_append_left _ hq⟩
    · obtain ⟨n', rs, k', hn', hst, hf, hsub⟩ := ih hrest hfit.2 hc
      exact ⟨n', rs, k', hn', hst, hf, fun q hq ↦ List.mem_append_right _ (hsub q hq)⟩

/-- The words of a superblock behind the boot block. -/
theorem slice_imageFront_words {bootBlock : List UInt8} (hboot : bootBlock.length = fsBlock)
    (s : Superblock) : (splice (fun _ ↦ 0) 0 (imageFront bootBlock s)).slice fsBlock (19 * 4) =
      s.words.flatMap (leBytes 4) := by
  have hlen : (s.words.flatMap (leBytes 4)).length = 19 * 4 := by simp [Superblock.words]
  rw [imageFront, splice_append, Nat.zero_add, hboot, superblockBlock, List.append_assoc,
    splice_append]
  -- what comes behind the words does not reach back
  refine Eq.trans (slice_splice_of_apart (Or.inl (by rw [hlen]))) ?_
  conv_lhs => rw [← hlen]
  exact slice_splice_self ..

/-- They stand at the beginning of block 1, whatever tree is on the disk. -/
theorem diskImage_superblock {entries : List Host} {bootBlock : List UInt8}
    (hfits : FitsDisk entries) (h : IsHostTree entries) (hshort : EntryNamesFit entries)
    (hboot : bootBlock.length = fsBlock) : (diskImage bootBlock entries).slice fsBlock (19 * 4) =
      (treeSuperblock entries).words.flatMap (leBytes 4) := by
  rw [← slice_imageFront_words hboot]
  refine slice_congr fun k hk ↦ hfits.treeImage_front h hshort _ ?_
  rw [fsBlock]
  omega

/-- A kernel with these words in memory has the superblock of the tree. -/
theorem readSuperblock_of_image {entries : List Host} {bootBlock : List UInt8}
    (hfits : FitsDisk entries) (h : IsHostTree entries) (hshort : EntryNamesFit entries)
    (hboot : bootBlock.length = fsBlock) {memory : ByteStore}
    (hmemory : memory.slice superblockAddress (19 * 4) =
      (diskImage bootBlock entries).slice fsBlock (19 * 4)) :
    readSuperblock memory superblockAddress = treeSuperblock entries :=
  readSuperblock_eq (words_lt _) (hmemory.trans (diskImage_superblock hfits h hshort hboot))

section Image

variable {entries : List Host} {bootBlock : List UInt8} (h : Readable entries)
include h

/-- A file of the root with its inode and its contents. -/
theorem diskImage_file (bootBlock : List UInt8) {name contents : List UInt8}
    (hmem : Host.file name contents ∈ entries) :
    ∃ (p : Placed) (n k : ℕ), n = numberFor k name ∧ p.Is n fileTypeFile contents.length ∧
      p.Sound (treeSuperblock entries) ∧
      p.On (diskImage bootBlock entries) (treeSuperblock entries) (padded contents) ∧
      contents.length ≤ 7 * fsBlock := by
  have hstored := h.stored (splice (fun _ ↦ 0) 0 (imageFront bootBlock (treeSuperblock entries)))
  have hsound := h.sound
  rw [Host.Stored] at hstored
  obtain ⟨p₀, slots, qs, hplaced, -, -, hentries⟩ := hstored
  obtain ⟨n, qs', k, hnumber, hfile, hfit, hsub⟩ := hentries.mem h.fits hmem
  rw [Host.Stored] at hfile
  rw [Host.Fits] at hfit
  obtain ⟨p, rfl, his, hon⟩ := hfile
  refine ⟨p, n, k, hnumber, his, hsound p ?_, hon, hfit⟩
  rw [hplaced]
  exact List.mem_cons_of_mem _ (hsub p (List.mem_singleton_self p))

end Image

/-! ## Loading a file -/

theorem readHalf_eq (m : ByteStore) (a : ℕ) : readHalf m a = m.readWord a % 2 ^ 16 := by
  have hlow := ofLe_lt (m.slice a 2)
  rw [readHalf, readWord, show 4 = 2 + 2 from rfl, slice_append]
  simp only [slice, List.range_succ, List.range_zero, List.nil_append, List.cons_append,
    List.map_cons, List.map_nil, ofLe]
  have h₀ := UInt8.toNat_lt (m (a + 0))
  have h₁ := UInt8.toNat_lt (m (a + 1))
  omega

/-- The sectors that the loader reads for a file of `size` bytes. -/
def fileSectors (size : ℕ) : ℕ := if size % 512 = 0 then size / 512 else size / 512 + 1

theorem fileSectors_le (size : ℕ) : fileSectors size ≤ bytesToBlocks size * 8 := by
  rw [bytesToBlocks_eq, fileSectors]
  split_ifs <;> omega

theorem fileSectors_pos {size : ℕ} (hpos : 0 < size) : 1 ≤ fileSectors size := by
  rw [fileSectors]
  split_ifs <;> omega

theorem fileSectors_lt {size : ℕ} (hfit : size ≤ 28672) : fileSectors size ≤ 127 := by
  rw [fileSectors]
  split_ifs <;> omega

theorem le_fileSectors (size : ℕ) : size ≤ fileSectors size * fsSector := by
  rw [fileSectors, fsSector]
  split_ifs <;> omega

section Fetched

variable {m m' disk : ByteStore} {address a n : ℕ} {bs : List UInt8}

/-- A range apart from the buffer. -/
theorem Fetched.slice_other (h : Fetched m m' address bs) (hlow : 0x7C00 ≤ a)
    (hhigh : a + n ≤ 0x80000) (hapart : a + n ≤ address ∨ address + bs.length ≤ a) :
    m'.slice a n = m.slice a n :=
  slice_congr fun _ _ ↦ h.other _ (by omega) (by omega) (by omega)

/-- The beginning of the buffer. -/
theorem Fetched.slice_prefix (h : Fetched m m' address bs) {cs : List UInt8} (hcs : cs <+: bs) :
    m'.slice address cs.length = cs := by
  obtain ⟨rest, rfl⟩ := hcs
  have hthere := h.there
  rw [List.length_append, slice_append] at hthere
  exact (List.append_inj hthere (length_slice ..)).1

/-- A part of the buffer. -/
theorem Fetched.slice_part {b len off : ℕ} (h : Fetched m m' address (disk.slice b len))
    (hin : off + n ≤ len) : m'.slice (address + off) n = disk.slice (b + off) n := by
  have hthere := h.there
  rw [length_slice] at hthere
  refine List.map_congr_left fun i hi ↦ ?_
  have hi := List.mem_range.mp hi
  have hbyte := congrArg (fun l : List UInt8 ↦ l.getD (off + i) 0) hthere
  rw [getD_slice _ _ _ _ (by omega), getD_slice _ _ _ _ (by omega)] at hbyte
  rwa [Nat.add_assoc, Nat.add_assoc]

end Fetched

/-- **A file is loaded** if its record is in memory: the sectors from its first block on begin with
its contents. -/
theorem loadInode_eq {int13 : Int13} {disk memory : ByteStore} (hreads : int13.Reads disk)
    {inode : ℕ} {s : Superblock} {p : Placed} {n : ℕ} {contents : List UInt8}
    (hrecord : memory.slice inode inodeBytes = p.inode.bytes)
    (hsound : p.Sound s) (his : p.Is n fileTypeFile contents.length)
    (hon : p.On disk s (padded contents)) (hfit : contents.length ≤ 7 * fsBlock)
    (hpos : 0 < contents.length) (segment : ℕ) (hlow : 0x7C00 ≤ segment * 16)
    (hhigh : segment * 16 + 7 * fsBlock ≤ 0x80000) :
    ∃ memory' bs, loadInode int13 memory inode segment = some memory' ∧
      Fetched memory memory' (segment * 16) bs ∧ bs.length ≤ 7 * fsBlock ∧ contents <+: bs := by
  have hfields : p.Fields (readInode memory inode) := by
    refine p.fields_of_bytes hsound (his.fileType ▸ by decide) (his.size ▸ size_lt hfit)
      (readInode_inRange _ _) ?_
    rw [bytes_readInode, hrecord]
  obtain ⟨b, k, hk, hblocks, -, hend⟩ := hsound.blocks
  rw [diskBlocks_eq] at hend
  have hlen : k = bytesToBlocks contents.length := by
    rw [← Placed.length_blocks his, hblocks, List.length_range']
  rw [bytesToBlocks_eq] at hlen
  rw [fsBlock] at hfit hhigh
  have hsize : readHalf memory (inode + 5) = contents.length := by
    rw [readHalf_eq]
    show (readInode memory inode).size % 2 ^ 16 = _
    rw [hfields.size, his.size]
    omega
  have hfirst : readHalf memory (inode + 33) = p.blocks.getD 0 0 ∧ p.blocks.getD 0 0 + k ≤ 360 := by
    have hptr : memory.readWord (inode + 33) = p.blocks.getD 0 0 :=
      hfields.directPointers 0 (by omega)
    have hlt : p.blocks.getD 0 0 + k ≤ 360 := by
      rw [hblocks]
      rw [List.getD_eq_getElem _ _ (by rw [List.length_range']; omega), List.getElem_range']
      omega
    exact ⟨by rw [readHalf_eq, hptr]; omega, hlt⟩
  have hsectors := fileSectors_lt hfit
  -- the sectors are those of the file's blocks
  have hinside : (p.blocks.getD 0 0 * 8 + fileSectors contents.length) * fsSector ≤ diskSize := by
    have hle := fileSectors_le contents.length
    rw [← bytesToBlocks_eq] at hlen
    rw [← hlen] at hle
    have hlast := hfirst.2
    rw [fsSector, diskSize]
    omega
  have hbuffer : fileSectors contents.length * fsSector ≤ 28672 := by
    rw [fileSectors, fsSector]
    split_ifs <;> omega
  obtain ⟨memory', hcall, hfetched⟩ := hreads memory (p.blocks.getD 0 0 * 8)
    (fileSectors contents.length) segment 0 (fileSectors_pos hpos) hsectors hinside (by omega)
    (by omega) (by omega)
  refine ⟨memory', _, ?_, hfetched, ?_, ?_⟩
  · rw [loadInode, hsize, hfirst.1]
    dsimp only
    rw [Nat.div_eq_of_lt (show p.blocks.getD 0 0 * 8 < 2 ^ 16 by omega), Nat.zero_mul, Nat.zero_add,
      if_pos (by omega), Nat.mod_eq_of_lt (show contents.length / 512 + 1 < 2 ^ 16 by omega)]
    exact hcall
  · rw [length_slice]
    exact hbuffer
  · have hstart : p.blocks.getD 0 0 * 8 * fsSector = p.start := by
      rw [Placed.start, fsSector, fsBlock, Nat.mod_eq_of_lt (by omega)]
      omega
    have hle : fileSectors contents.length * fsSector ≤ (padded contents).length := by
      rw [length_padded, show fsBlock = 8 * fsSector from rfl, ← Nat.mul_assoc]
      exact Nat.mul_le_mul_right _ (fileSectors_le _)
    obtain ⟨r, hr⟩ := Nat.exists_eq_add_of_le hle
    have hdata := hon.data
    rw [hr, slice_append] at hdata
    rw [hstart]
    have hpadded : contents <+: padded contents := List.prefix_append ..
    refine List.prefix_of_prefix_length_le hpadded ?_
      (by rw [length_slice]; exact le_fileSectors _)
    rw [← hdata]
    exact List.prefix_append ..

/-- What the boot loader and the second stage leave in memory. -/
structure Loads (disk memory : ByteStore) (s : Superblock) (prekernel kernel : List UInt8) :
    Prop where
  stage2 : memory.slice 0x7E00 (7 * fsSector) = disk.slice fsSector (7 * fsSector)
  words : memory.slice superblockAddress (19 * 4) = s.words.flatMap (leBytes 4)
  prekernel : memory.slice 0x50000 prekernel.length = prekernel
  kernel : memory.slice 0x100000 kernel.length = kernel

/-- The inode table, the prekernel, the kernel and its copy leave each other and the first sectors
alone. -/
theorem loads_of_fetched {disk m₁ m₂ m₃ m₄ : ByteStore} {s : Superblock}
    {prekernel kernel bs cs : List UInt8}
    (hstage : m₁.slice 0x7E00 (7 * fsSector) = disk.slice fsSector (7 * fsSector))
    (hwords : m₁.slice superblockAddress (19 * 4) = s.words.flatMap (leBytes 4))
    (hsame : ∀ a n, 0x7C00 ≤ a → a + n ≤ 0xB000 → m₂.slice a n = m₁.slice a n)
    (hpre : Fetched m₂ m₃ (0x5000 * 16) bs) (hker : Fetched m₃ m₄ (0x1000 * 16) cs)
    (hcs : cs.length ≤ 7 * fsBlock) (hpfx : prekernel <+: bs) (hbs : bs.length ≤ 7 * fsBlock)
    (hpfx' : kernel <+: cs) : Loads disk (copyKernel m₄) s prekernel kernel := by
  have hbs' : bs.length ≤ 28672 := hbs
  have hcs' : cs.length ≤ 28672 := hcs
  have hk := hpfx'.length_le
  have hp := hpfx.length_le
  -- below the kernel only the sectors of the boot stage
  have hlow : ∀ a n, 0x7C00 ≤ a → a + n ≤ 0xB000 → (copyKernel m₄).slice a n = m₁.slice a n :=
    fun a n ha han ↦ by
      rw [copyKernel, slice_splice_of_apart (Or.inl (by omega)),
        hker.slice_other ha (by omega) (Or.inl (by omega)),
        hpre.slice_other ha (by omega) (Or.inl (by omega)), hsame a n ha han]
  refine ⟨?_, ?_, ?_, ?_⟩
  · rw [hlow _ _ (by decide) (by decide), hstage]
  · rw [hlow _ _ (by decide) (by decide), hwords]
  · rw [copyKernel, slice_splice_of_apart (Or.inl (by omega)),
      hker.slice_other (by decide) (by omega) (Or.inr (by omega))]
    exact hpre.slice_prefix hpfx
  · obtain ⟨r, hr⟩ := Nat.exists_eq_add_of_le (show kernel.length ≤ 30000 by omega)
    have hthere := hker.slice_prefix hpfx'
    have hself := slice_splice_self m₄ 0x100000 (m₄.slice 0x10000 30000)
    rw [length_slice, hr, slice_append, slice_append m₄ 0x10000 kernel.length r] at hself
    rw [copyKernel, hr, slice_append m₄ 0x10000 kernel.length r]
    exact (List.append_inj hself (by simp)).1.trans hthere

/-- **The boot loader finds what the formatter wrote**: from a readable tree the two kernel files of
the root and the superblock come to their places in memory, whatever was there. -/
theorem newboot_loads {entries : List Host} {bootBlock : List UInt8} (h : Readable entries)
    (hboot : bootBlock.length = fsBlock) {int13 : Int13}
    (hreads : int13.Reads (diskImage bootBlock entries)) {prekernel kernel : List UInt8}
    (hprekernel : Host.file prekernelBin prekernel ∈ entries)
    (hkernel : Host.file kernelBin kernel ∈ entries) (hppos : 0 < prekernel.length)
    (hqpos : 0 < kernel.length) (memory : ByteStore) :
    ∃ memory', newboot int13 memory = some memory' ∧
      Loads (diskImage bootBlock entries) (copyKernel memory') (treeSuperblock entries) prekernel
        kernel := by
  obtain ⟨p, n, k, hn, hpis, hpsound, hpon, hpfit⟩ :=
    diskImage_file h bootBlock hprekernel
  obtain ⟨q, n', k', hn', hqis, hqsound, hqon, hqfit⟩ :=
    diskImage_file h bootBlock hkernel
  have hwords := diskImage_superblock h.toFitsDisk h.toIsHostTree h.short hboot
  obtain ⟨hseven, -⟩ := h.firstDataBlock
  have hF : (treeSuperblock entries).firstInodeBlock ≤ 7 :=
    Nat.le_trans (Nat.le_add_right _ _) hseven
  have hpslot : (diskImage bootBlock entries).slice (slotAddress (treeSuperblock entries) 2)
      inodeBytes = p.inode.bytes := by
    have hnum : p.iNumber = 2 := hpis.iNumber.trans hn
    rw [← hpon.inode, seekInode_eq hpsound.fits, hnum]
  have hqslot : (diskImage bootBlock entries).slice (slotAddress (treeSuperblock entries) 3)
      inodeBytes = q.inode.bytes := by
    have hnum : q.iNumber = 3 := hqis.iNumber.trans hn'
    rw [← hqon.inode, seekInode_eq hqsound.fits, hnum]
  generalize diskImage bootBlock entries = disk at *
  -- the superblock is in memory, so the table is found
  obtain ⟨m₁, hread, hfetched₁⟩ := hreads memory 1 15 0 0x7E00 (by decide) (by decide) (by decide)
    (by decide) (by decide) (by decide)
  have hstage₁ : m₁.slice 0x7E00 (7 * fsSector) = disk.slice fsSector (7 * fsSector) := by
    have hfirst : 0 + 7 * fsSector ≤ 15 * fsSector := by decide
    have hpart := hfetched₁.slice_part hfirst
    rwa [Nat.zero_mul, Nat.zero_add, Nat.add_zero, Nat.one_mul, Nat.add_zero] at hpart
  have hsuper₁ : m₁.slice superblockAddress (19 * 4) =
      (treeSuperblock entries).words.flatMap (leBytes 4) := by
    have hblock : 7 * fsSector + 19 * 4 ≤ 15 * fsSector := by decide
    have hpart := hfetched₁.slice_part hblock
    rw [show superblockAddress = 0 * 16 + 0x7E00 + 7 * fsSector from rfl, hpart, ← hwords,
      show 1 * fsSector + 7 * fsSector = fsBlock from rfl]
  have htable : readHalf m₁ firstInodeBlockAddress = (treeSuperblock entries).firstInodeBlock := by
    have hfirst := congrArg Superblock.firstInodeBlock (readSuperblock_eq (words_lt _) hsuper₁)
    rw [readHalf_eq]
    exact (congrArg (· % 2 ^ 16) hfirst).trans
      (Nat.mod_eq_of_lt (Nat.lt_of_le_of_lt hF (by decide)))
  have hinside : ((treeSuperblock entries).firstInodeBlock * 8 + 8) * fsSector ≤ diskSize := by
    rw [fsSector, diskSize]
    omega
  obtain ⟨m₂, hinodes, hfetched₂⟩ := hreads m₁ ((treeSuperblock entries).firstInodeBlock * 8) 8 0
    0xB000 (by decide) (by decide) hinside (by decide) (by decide) (by decide)
  have hslot₂ : ∀ i < 64, m₂.slice (0xB000 + i * inodeBytes) inodeBytes =
      disk.slice (slotAddress (treeSuperblock entries) i) inodeBytes := fun i hi ↦ by
    have hin : i * inodeBytes + inodeBytes ≤ 8 * fsSector := by
      rw [inodeBytes, fsSector]
      omega
    rw [show 0xB000 = 0 * 16 + 0xB000 from rfl, hfetched₂.slice_part hin, slotAddress,
      show fsBlock = 8 * fsSector from rfl, ← Nat.mul_assoc]
  have hpre₂ : m₂.slice prekernelInode inodeBytes = p.inode.bytes :=
    (hslot₂ 2 (by decide)).trans hpslot
  obtain ⟨m₃, bs, hload, hfetched₃, hbs, hpfx⟩ :=
    loadInode_eq hreads hpre₂ hpsound hpis hpon hpfit hppos 0x5000 (by decide) (by decide)
  have hker₃ : m₃.slice kernelInode inodeBytes = q.inode.bytes := by
    rw [hfetched₃.slice_other (by decide) (by decide) (Or.inl (by decide))]
    exact (hslot₂ 3 (by decide)).trans hqslot
  obtain ⟨m₄, cs, hload', hfetched₄, hcs, hpfx'⟩ :=
    loadInode_eq hreads hker₃ hqsound hqis hqon hqfit hqpos 0x1000 (by decide) (by decide)
  have hsame : ∀ a n, 0x7C00 ≤ a → a + n ≤ 0xB000 → m₂.slice a n = m₁.slice a n :=
    fun a n ha han ↦ hfetched₂.slice_other ha (by omega) (Or.inl (by omega))
  refine ⟨m₄, ?_, loads_of_fetched hstage₁ hsuper₁ hsame hfetched₃ hfetched₄ hcs hpfx hbs hpfx'⟩
  rw [newboot, hread, Option.bind_some, inodeTable, htable, hinodes, Option.bind_some, loadPrekernel,
    hload, Option.bind_some, loadKernel, hload']

/-! ## The mounted image -/

/-- A part of a sector in a buffer. -/
theorem slice_sectorBuffer (disk : ByteStore) (start : ℕ) {a n : ℕ} (h : a + n ≤ fsSector) :
    slice (fun x ↦ (readSectors disk 1 start).getD x 0) a n =
      disk.slice (sectorAddress start + a) n := by
  refine List.map_congr_left fun i hi ↦ ?_
  have hi := List.mem_range.mp hi
  dsimp only
  rw [readSectors, getD_slice _ _ _ _ (by omega), Nat.add_assoc]

/-- The root has number 1, so it is the second record of the first sector of the inode table. -/
theorem mount_rootInode {disk memory : ByteStore} {s : Superblock}
    (hsuper : readSuperblock memory superblockAddress = s) (hF : s.firstInodeBlock < 2 ^ 25)
    (rootAddress : ℕ) :
    (mount disk memory rootAddress).rootInode.bytes = disk.slice (slotAddress s 1) inodeBytes := by
  have hroot : (mount disk memory rootAddress).rootInode.bytes =
      disk.slice (sectorAddress (blockSector s.firstInodeBlock) + 64) inodeBytes := by
    rw [mount, ← hsuper, bytes_readInode]
    exact slice_sectorBuffer _ _ (by decide)
  rw [hroot, sectorAddress_blockSector hF, slotAddress, Nat.one_mul]
  rfl

/-- **The kernel mounts the image** with the superblock that the loader has left. -/
theorem mount_mounted {entries : List Host} {bootBlock : List UInt8} (h : Readable entries)
    {memory : ByteStore} (hsuper : readSuperblock memory superblockAddress = treeSuperblock entries)
    (rootAddress : ℕ) : Mounted (mount (diskImage bootBlock entries) memory rootAddress)
      (splice (fun _ ↦ 0) 0 (imageFront bootBlock (treeSuperblock entries))) entries := by
  obtain ⟨hle, -⟩ := h.firstDataBlock
  have hF : (treeSuperblock entries).firstInodeBlock < 2 ^ 25 :=
    Nat.lt_of_le_of_lt (Nat.le_trans (Nat.le_add_right _ _) hle) (by decide)
  have htable : (mount (diskImage bootBlock entries) memory rootAddress).superblock.firstInodeBlock =
      (treeSuperblock entries).firstInodeBlock := by
    have hfirst := congrArg Superblock.firstInodeBlock hsuper
    exact hfirst
  obtain ⟨p, hp, hnum⟩ := (h.stored (fun _ ↦ 0)).head
  have hfits : SlotFits (treeSuperblock entries) 1 := hnum ▸ (h.sound p hp).fits
  have hshow : Shows (mount (diskImage bootBlock entries) memory rootAddress) 1
      (mount (diskImage bootBlock entries) memory rootAddress).rootInode := by
    refine ⟨?_, readInode_inRange _ _⟩
    rw [node_eq htable, diskInode_eq, bytes_readInode, lookupAddress_eq hfits]
    exact mount_rootInode hsuper hF rootAddress
  exact ⟨rfl, htable, hshow, hshow⟩

/-- **From the tree to the running kernel.**  A tree that is readable is formatted, the image is
booted, and whatever happens to the memory outside the superblock afterwards: the prekernel and the
kernel are in their places, and the kernel finds under every path, if it does not go on behind a
regular file, what the host has there. -/
theorem boot_reads_tree {entries : List Host} {bootBlock : List UInt8} (h : Readable entries)
    (hboot : bootBlock.length = fsBlock) {int13 : Int13}
    (hreads : int13.Reads (diskImage bootBlock entries)) {prekernel kernel : List UInt8}
    (hprekernel : Host.file prekernelBin prekernel ∈ entries)
    (hkernel : Host.file kernelBin kernel ∈ entries) (hppos : 0 < prekernel.length)
    (hqpos : 0 < kernel.length) (memory : ByteStore) :
    ∃ booted, newboot int13 memory = some booted ∧
      (copyKernel booted).slice 0x50000 prekernel.length = prekernel ∧
      (copyKernel booted).slice 0x100000 kernel.length = kernel ∧
      ∀ memory' rootAddress path,
        memory'.slice superblockAddress (19 * 4) =
          (copyKernel booted).slice superblockAddress (19 * 4) →
        throughFile [.dir [] entries] (components path) = false →
        let fs := mount (diskImage bootBlock entries) memory' rootAddress
        (hostWalk [.dir [] entries] (components path) = none ∧ fs.getInode path = Inode.zero) ∨
          ∃ c up, hostWalk [.dir [] entries] (components path) = some (c :: up) ∧
            c.ReadAs fs (fs.getInode path) := by
  obtain ⟨booted, hbooted, hloads⟩ :=
    newboot_loads h hboot hreads hprekernel hkernel hppos hqpos memory
  refine ⟨booted, hbooted, hloads.prekernel, hloads.kernel,
    fun memory' rootAddress path hsame hpath ↦ ?_⟩
  have hsuper : readSuperblock memory' superblockAddress = treeSuperblock entries :=
    readSuperblock_eq (words_lt _) (hsame.trans hloads.words)
  exact (mount_mounted h hsuper rootAddress).getInode h path hpath

/-! ### A tree that fills one block of inodes -/

/-- A directory `d` with a file `f`, the two kernel files, and 58 files of one byte. -/
def sixtyFour : List Host :=
  .dir [0x64] [.file [0x66] [0x68, 0x69]] :: .file prekernelBin [0xF4] ::
    .file kernelBin [0xEB, 0xFE] ::
      (List.range 58).map fun i ↦ .file [0x61, UInt8.ofNat (i + 0x30)] [0x21]

theorem small_fits (l : List ℕ) (b : UInt8) :
    EntriesFit (l.map fun i ↦ .file [0x61, UInt8.ofNat (i + 0x30)] [b]) := by
  induction l with
  | nil => trivial
  | cons i l ih => exact ⟨Nat.le_of_ble_eq_true rfl, ih⟩

theorem namesFit_file {name contents : List UInt8} (h : name.length ≤ 59 ∧ (0 : UInt8) ∉ name) :
    (Host.file name contents).NamesFit := by
  rw [Host.NamesFit]
  exact h

theorem small_namesFit {l : List ℕ} (h : ∀ i ∈ l, UInt8.ofNat (i + 0x30) ≠ 0) (b : UInt8) :
    EntryNamesFit (l.map fun i ↦ .file [0x61, UInt8.ofNat (i + 0x30)] [b]) := by
  induction l with
  | nil => trivial
  | cons i l ih =>
    have hi := h i List.mem_cons_self
    refine ⟨⟨Nat.le_of_ble_eq_true rfl, fun hmem ↦ ?_⟩,
      ih fun j hj ↦ h j (List.mem_cons_of_mem _ hj)⟩
    rcases List.mem_cons.mp hmem with hzero | hmem
    · exact absurd hzero (by decide)
    · exact hi (List.mem_singleton.mp hmem).symm

theorem sixtyFour_readable : Readable sixtyFour where
  names := by decide +kernel
  prekernel := ⟨[0xF4], List.mem_cons_of_mem _ List.mem_cons_self⟩
  kernel := ⟨[0xEB, 0xFE], List.mem_cons_of_mem _ (List.mem_cons_of_mem _ List.mem_cons_self)⟩
  root := by decide +kernel
  fits := by
    refine ⟨⟨by decide, ⟨Nat.le_of_ble_eq_true rfl, trivial⟩⟩, Nat.le_of_ble_eq_true rfl,
      Nat.le_of_ble_eq_true rfl, small_fits _ _⟩
  blocks := by
    have hall : ∀ p ∈ (formatTree sixtyFour).placed, ∀ b ∈ p.blocks, b < bytesToBlocks diskSize := by
      decide +kernel
    rintro b ⟨p, hp, hb⟩
    exact hall p hp b hb
  short := ⟨⟨by decide, ⟨namesFit_file (by decide), trivial⟩⟩, namesFit_file (by decide),
    namesFit_file (by decide), small_namesFit (by decide +kernel) _⟩
  prekernels := by decide +kernel
  kernels := by decide +kernel
  few := by decide +kernel
  table := by decide +kernel
  hole := by
    -- the root and `d` fill the blocks in front of the hole, and `f` comes next
    refine ⟨by decide +kernel, ⟨_, _, (List.take_append_drop 2 _).symm, Or.inr ⟨?_, ?_⟩⟩, ?_⟩
    · decide +kernel
    · decide +kernel
    · decide +kernel

/-- A BIOS that does nothing else than reading the sectors; more than 127 are an error. -/
def plainInt13 (disk : ByteStore) : Int13 := fun memory lba blkcnt segment offset ↦
  if 1 ≤ blkcnt ∧ blkcnt ≤ 127 ∧ (lba + blkcnt) * fsSector ≤ diskSize then
    some (memory.splice (segment * 16 + offset) (disk.slice (lba * fsSector) (blkcnt * fsSector)))
  else none

theorem plainInt13_reads (disk : ByteStore) : (plainInt13 disk).Reads disk :=
  fun _ _ _ _ _ hpos hle hin _ _ _ ↦ ⟨_, if_pos ⟨hpos, hle, hin⟩, slice_splice_self ..,
    fun _ _ _ hx ↦ splice_of_not_mem hx⟩

/-- The file `f` in `d` is found on its image. -/
theorem boot_reads_sixtyFour : ∃ booted,
    newboot (plainInt13 (diskImage (List.replicate fsBlock 0) sixtyFour)) (fun _ ↦ 0) = some booted ∧
      ∃ inode : Inode, inode = (mount (diskImage (List.replicate fsBlock 0) sixtyFour)
        (copyKernel booted) 0).getInode [0x2F, 0x64, 0x2F, 0x66] ∧
      inode.fileType = fileTypeFile ∧ inode.size = 2 := by
  have hboot : (List.replicate fsBlock (0 : UInt8)).length = fsBlock := List.length_replicate
  have hprekernel : Host.file prekernelBin [0xF4] ∈ sixtyFour :=
    List.mem_cons_of_mem _ List.mem_cons_self
  have hkernel : Host.file kernelBin [0xEB, 0xFE] ∈ sixtyFour :=
    List.mem_cons_of_mem _ (List.mem_cons_of_mem _ List.mem_cons_self)
  have hwalk : hostWalk [.dir [] sixtyFour] (components [0x2F, 0x64, 0x2F, 0x66]) =
      some [.file [0x66] [0x68, 0x69], .dir [0x64] [.file [0x66] [0x68, 0x69]],
        .dir [] sixtyFour] := rfl
  obtain ⟨booted, hbooted, -, -, hpaths⟩ := boot_reads_tree sixtyFour_readable hboot
    (plainInt13_reads _) hprekernel hkernel (by decide) (by decide) (fun _ ↦ 0)
  refine ⟨booted, hbooted, _, rfl, ?_⟩
  rcases hpaths (copyKernel booted) 0 [0x2F, 0x64, 0x2F, 0x66] rfl rfl with
    ⟨hnone, -⟩ | ⟨c, up, hsome, hread⟩
  · rw [hwalk] at hnone
    exact absurd hnone (Option.some_ne_none _)
  · rw [hwalk, Option.some.injEq, List.cons.injEq] at hsome
    rw [← hsome.1, Host.ReadAs] at hread
    exact ⟨hread.1, hread.2.1⟩

end AbOS
