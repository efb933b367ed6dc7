import AbOS.Syscalls.Identity
import AbOS.Syscalls.Modes

/-!
# The contents of a file

To its caller a file is a byte array, and `sys_write` writes to it at the offset of the descriptor
(`ByteStore.writeAt`).  `address` points to words, so the buffer is copied to four times the offset,
and so does `sys_read` copy from there: a file is right as long as everything is written and read at
offset 0 (`followsModel_of_meets`), and the second write of one byte is lost
(`not_followsModel_oneByte`).

Each descriptor has pages of its own, so a descriptor for reading shows the file as it was when it
was opened.
-/

set_option autoImplicit false

namespace AbOS

/-- The bytes of a file on the disk, read through its pointers. -/
def fileContents (disk : ByteStore) (inode : Inode) : List UInt8 :=
  ByteStore.slice (fun y ↦ disk (fileByte inode y)) 0 inode.size

/-- What a program finds at `n` virtual addresses. -/
def Vmm.bytesAt (m : Vmm) (v n : ℕ) : List UInt8 :=
  ByteStore.slice (fun k ↦ ((m.translate ((v + k) % 2 ^ 32)).map m.ram).getD 0) 0 n

/-- The kernel, what the file should hold, and the descriptors that have been opened for it since
the last write. -/
structure Editing where
  kernel : Kernel
  contents : List UInt8
  loaded : List ℕ

/-- Writing through the descriptor of the file, opening the file once more, and reading. -/
inductive EditCall
  | sysWrite (buffer length leftover : BitVec 32)
  | sysOpen (path : List UInt8) (flags leftover : BitVec 32)
  | sysRead (c : Kernel.ReadCall)

namespace Kernel

/-- The file of `d` has the contents: the bytes of its blocks, the size in the table and the one in
the inode on the disk. -/
structure Stores (s : Kernel) (d : ℕ) (contents : List UInt8) : Prop where
  bytes : fileContents s.fs.disk (s.inodeOf d) = contents
  size : (s.inodeOf d).size = contents.length
  diskSize : (readInode s.fs.disk
    (inodeAddress s.fs.superblock (s.inodeOf d).iNumber)).size = contents.length

/-- The inode lies in front of the data blocks, its own ones are different data blocks, and the
drive reaches all of them. -/
structure OwnBlocks (superblock : Superblock) (inode : Inode) : Prop where
  firstDataBlock : superblock.firstDataBlock ≤ 2 ^ 25
  record : inodeBlock superblock inode < superblock.firstDataBlock
  data : ∀ i < 7, inode.directPointers i ≠ 0 →
    superblock.firstDataBlock ≤ inode.directPointers i ∧ inode.directPointers i < 2 ^ 25 ∧
      ∀ j < 7, inode.directPointers j = inode.directPointers i → j = i

/-- The frames that new pages have to leave alone: those of files and of the buffer. -/
def WriteFrame (s : Kernel) (buffer length b : ℕ) : Prop :=
  s.FileFrame b ∨ ∃ k < length, ∃ q, s.vmm.translate ((buffer + k) % 2 ^ 32) = some q ∧ q / 4096 = b

/-- A write to the beginning of the file, or of nothing, that the blocks of the file hold; the
buffer is there, and new pages come behind the old ones. -/
structure WritesModel (s : Kernel) (d : ℕ) (buffer length leftover : BitVec 32) : Prop where
  start : length.toNat = 0 ∨ s.writeStart d = 0
  noWrap : s.writeStart d + length.toNat < 2 ^ 32
  fits : FitsOwned s ⟨d, buffer, length, leftover⟩
  saves : leftover.toNat = 0 ∨ max (s.inodeOf d).size (s.writeStart d + length.toNat) = 0
  grows : ∀ bytes, (s.seekToEnd d).growth d length.toNat = some bytes →
    GrowsInside (s.WriteFrame buffer.toNat length.toNat) (s.seekToEnd d) d bytes
  present : ∀ k < length.toNat, ∃ p, s.vmm.translate ((buffer.toNat + k) % 2 ^ 32) = some p ∧
    ¬ BitmapFrame (p / 4096)
  kept : BufferKept (s.WriteFrame buffer.toNat length.toNat) s d buffer.toNat length.toNat

end Kernel

open Kernel

namespace Editing

/-- One call; `d` is the descriptor of the file. -/
def step (d : ℕ) (s : Editing) : EditCall → Option Editing
  | .sysWrite buffer length leftover =>
    (s.kernel.sysWrite d buffer.toNat length.toNat leftover.toNat).map fun (_, kernel) ↦
      { kernel
        contents := ByteStore.writeAt s.contents (s.kernel.writeStart d)
          (s.kernel.vmm.bytesAt buffer.toNat length.toNat)
        loaded := if length.toNat = 0 then s.loaded else [] }
  | .sysOpen path flags leftover =>
    let index := s.kernel.inodeSlot (s.kernel.fs.getInode path).iNumber
    (s.kernel.sysOpen path flags.toNat leftover.toNat).map fun (_, kernel) ↦
      { s with
        kernel
        loaded := (s.kernel.fileSlot index).toList ++ s.loaded }
  | .sysRead c => (s.kernel.read c).map fun kernel ↦ { s with kernel }

/-- A write within the blocks of the file leaves what the byte array has after it, and a read
through a descriptor for reading returns the bytes of the array from its offset on. -/
def FollowsModel (d : ℕ) (s : Editing) : EditCall → Prop
  | .sysWrite buffer length leftover =>
    s.kernel.writeStart d + length.toNat < 2 ^ 32 →
    FitsOwned s.kernel ⟨d, buffer, length, leftover⟩ →
    ∃ t, s.kernel.sysWrite d buffer.toNat length.toNat leftover.toNat =
        some ((length.toNat : ℤ), t) ∧
      t.Stores d (ByteStore.writeAt s.contents (s.kernel.writeStart d)
        (s.kernel.vmm.bytesAt buffer.toNat length.toNat))
  | .sysOpen .. => True
  | .sysRead c => ∀ e : ℕ, c.fileDescriptor = e → e ∈ s.kernel.openFiles →
    ¬ Unreadable (s.kernel.openFileTable e) →
    (s.kernel.inodeOf e).iNumber = (s.kernel.inodeOf d).iNumber →
    (s.kernel.openFileTable e).lseek + c.length.toNat < 2 ^ 32 →
    let bytes := (s.contents.drop (s.kernel.openFileTable e).lseek).take c.length.toNat
    ∃ t, s.kernel.sysRead e c.buffer.toNat c.length.toNat = some ((bytes.length : ℤ), t) ∧
      t.vmm.bytesAt c.buffer.toNat bytes.length = bytes ∧
      (t.openFileTable e).lseek = (s.kernel.openFileTable e).lseek + bytes.length

/-- A read from the beginning, or of nothing, through the descriptor `d` or one that was opened since
the last write.  The buffer is there, in frames of no file and not in the bitmap, and no byte of it
is stored to twice. -/
structure ReadsModel (s : Editing) (d e buffer length : ℕ) : Prop where
  loaded : e = d ∨ e ∈ s.loaded
  readable : ¬ Unreadable (s.kernel.openFileTable e)
  start : (s.kernel.openFileTable e).lseek = 0 ∨ length = 0 ∨
    s.contents.length ≤ (s.kernel.openFileTable e).lseek
  noWrap : (s.kernel.openFileTable e).lseek + length < 2 ^ 32
  present : ∀ k < min length (s.contents.length - (s.kernel.openFileTable e).lseek), ∃ q,
    s.kernel.vmm.translate ((buffer + k) % 2 ^ 32) = some q ∧
      ¬ s.kernel.vmm.IsPaging (q / 4096) ∧ ¬ s.kernel.FileFrame (q / 4096) ∧
      ¬ BitmapFrame (q / 4096)
  apart : ∀ j k, j < k → k < min length (s.contents.length - (s.kernel.openFileTable e).lseek) →
    s.kernel.vmm.translate ((buffer + j) % 2 ^ 32) ≠ s.kernel.vmm.translate ((buffer + k) % 2 ^ 32)

/-- What keeps the file the byte array.  It is opened once more in the first slot, or empty. -/
def KeepsModel (d : ℕ) (s : Editing) : EditCall → Prop
  | .sysWrite buffer length leftover => s.kernel.WritesModel d buffer length leftover
  | .sysOpen path _ leftover =>
    (s.kernel.fs.getInode path).iNumber = (s.kernel.inodeOf d).iNumber ∧
      ((s.kernel.openFileTable d).inodeIndex = 0 ∨ s.contents = []) ∧
      s.kernel.fileVirtualAddress ≠ 0 ∧
      OpensInside s.kernel.FileFrame s.kernel (s.kernel.fs.getInode path) leftover.toNat
  | .sysRead c => ∃ e : ℕ, c.fileDescriptor = e ∧ s.ReadsModel d e c.buffer.toNat c.length.toNat

/-- The pages of a descriptor hold the contents, and its offset is not behind them. -/
structure Holds (s : Kernel) (f : ℕ → ℕ) (contents : List UInt8) (d : ℕ) : Prop where
  isOpen : d ∈ s.openFiles
  lseek : (s.openFileTable d).lseek ≤ contents.length
  fits : contents.length ≤ (s.openFileTable d).pagesAllocated * pageSize
  bytes : ∀ y < contents.length, s.vmm.ram (Vmm.frameByte f y) = contents.getD y 0

/-- The invariant. -/
structure Inv (F : ℕ → ℕ → ℕ) (d : ℕ) (s : Editing) : Prop where
  owns : s.kernel.OwnsPages F
  writable : Writable (s.kernel.openFileTable d)
  address : (s.kernel.openFileTable d).address ≠ 0
  index : (s.kernel.openFileTable d).inodeIndex < tableEntries
  slot : s.kernel.inodeSlot (s.kernel.inodeOf d).iNumber = (s.kernel.openFileTable d).inodeIndex
  iNumber : (s.kernel.inodeOf d).iNumber ≠ 0
  blocks : OwnBlocks s.kernel.fs.superblock (s.kernel.inodeOf d)
  contents : fileContents s.kernel.fs.disk (s.kernel.inodeOf d) = s.contents
  holds : Holds s.kernel (F d) s.contents d
  loaded : ∀ e ∈ s.loaded, e ≠ d ∧ Holds s.kernel (F e) s.contents e ∧
    (s.kernel.openFileTable e).address ≠ 0 ∧
    (s.kernel.openFileTable e).inodeIndex = (s.kernel.openFileTable d).inodeIndex

/-! ## Saving a file -/

/-- **`update_inode` and `save_file`** leave the bytes of the pages, and the size, on the disk. -/
theorem saveFile_spec {disk disk' : ByteStore} {superblock : Superblock} {inode : Inode}
    {m m' : Vmm} {address leftover n : ℕ} {f : ℕ → ℕ} (hblocks : OwnBlocks superblock inode)
    (hsize : inode.size < 2 ^ 32)
    (hown : ∀ i, i * fsBlock < inode.size → i < 7 ∧ inode.directPointers i ≠ 0)
    (hregion : m.Region address n f) (hfits : inode.size ≤ n * pageSize)
    (hleft : leftover = 0 ∨ inode.size = 0)
    (hsave : saveFile (updateInode disk superblock inode) inode m address leftover =
      some (disk', m')) :
    (∀ y < inode.size, disk' (fileByte inode y) = m.ram (Vmm.frameByte f y)) ∧
      (readInode disk' (inodeAddress superblock inode.iNumber)).size = inode.size := by
  have hcount := bytesToBlocks_eq inode.size
  have hdata : ∀ i < bytesToBlocks inode.size, superblock.firstDataBlock ≤ inode.directPointers i ∧
      inode.directPointers i < 2 ^ 25 ∧
        ∀ j < bytesToBlocks inode.size, inode.directPointers j = inode.directPointers i → j = i :=
    fun i hi ↦ by
      have hlt : ∀ j < bytesToBlocks inode.size, j < 7 ∧ inode.directPointers j ≠ 0 :=
        fun j hj ↦ hown j (by rw [fsBlock]; omega)
      obtain ⟨hge, hreach, hne⟩ := hblocks.data i (hlt i hi).1 (hlt i hi).2
      exact ⟨hge, hreach, fun j hj ↦ hne j (hlt j hj).1⟩
  refine ⟨fun y hy ↦ ?_, ?_⟩
  · obtain rfl : leftover = 0 := hleft.resolve_right (by omega)
    obtain ⟨disk₁, hsave', hbytes⟩ := saveBlocks_spec (updateInode disk superblock inode) inode
      hregion (bytesToBlocks inode.size) (by rw [pageSize] at hfits; omega)
      fun i j hij hj x hx z hz ↦ by
        obtain ⟨-, hi, -⟩ := hdata i (by omega)
        obtain ⟨-, hj', hne⟩ := hdata j hj
        rw [sectorAddress_blockSector hi, sectorAddress_blockSector hj']
        have := hne i (by omega)
        rw [fsBlock] at *
        omega
    rw [saveFile, Nat.add_zero, hsave'] at hsave
    obtain rfl : disk₁ = disk' := congrArg Prod.fst (Option.some.inj hsave)
    exact hbytes y (by rw [pageSize]; omega)
  · -- the blocks of the file lie behind its inode
    have hrecord := hblocks.record
    have hlimit := hblocks.firstDataBlock
    rw [inodeBlock] at hrecord
    rw [inodesPerBlock] at hrecord
    have haddress : inodeAddress superblock inode.iNumber =
        superblock.firstInodeBlock * fsBlock + inode.iNumber * inodeBytes :=
      inodeAddress_eq (by rw [fsBlock, inodeBytes] at *; omega)
    refine readInode_size ?_ hsize
    have hself := ByteStore.slice_splice_self disk (inodeAddress superblock inode.iNumber) inode.bytes
    rw [inode.length_bytes] at hself
    refine (ByteStore.slice_congr fun k hk ↦ ?_).trans hself
    rw [saveBlocks_of_not_mem hsave fun i hi ↦ Or.inl ?_, updateInode_eq]
    obtain ⟨hge, hreach, -⟩ := hdata i hi
    rw [haddress, sectorAddress_blockSector hreach]
    rw [fsBlock, inodeBytes] at *
    omega

/-! ## Contents -/

/-- A descriptor whose pages keep their number and their bytes still holds the contents. -/
theorem Holds.congr {s t : Kernel} {f g : ℕ → ℕ} {contents : List UInt8} {d : ℕ}
    (h : Holds s f contents d) (hopen : d ∈ t.openFiles)
    (hlseek : (t.openFileTable d).lseek ≤ contents.length)
    (hpages : (t.openFileTable d).pagesAllocated = (s.openFileTable d).pagesAllocated)
    (hram : ∀ y < (s.openFileTable d).pagesAllocated * pageSize,
      t.vmm.ram (Vmm.frameByte g y) = s.vmm.ram (Vmm.frameByte f y)) :
    Holds t g contents d where
  isOpen := hopen
  lseek := hlseek
  fits := hpages ▸ h.fits
  bytes y hy := by
    rw [hram y (hy.trans_le h.fits)]
    exact h.bytes y hy

variable {s t : Editing} {F : ℕ → ℕ → ℕ} {d : ℕ}

theorem Inv.size (h : s.Inv F d) : (s.kernel.inodeOf d).size = s.contents.length := by
  rw [← h.contents, fileContents, ByteStore.length_slice]

/-- Where the next write starts, and what it takes new pages for. -/
theorem Inv.writeStart_le (h : s.Inv F d) : s.kernel.writeStart d ≤ s.contents.length := by
  rw [writeStart]
  split
  · exact h.size.le
  · exact h.holds.lseek

theorem Inv.growth_eq (h : s.Inv F d) {length : ℕ}
    (hstart : length = 0 ∨ s.kernel.writeStart d = 0) (hlt : length < 2 ^ 32) :
    (s.kernel.seekToEnd d).growth d length =
      if length > (s.kernel.openFileTable d).pagesAllocated * pageSize then
        some (length - s.contents.length) else none := by
  obtain ⟨-, -, htable⟩ := s.kernel.seekToEnd_frame d
  obtain ⟨hsame, -, hinodes, hlseek⟩ := s.kernel.seekToEnd_spec d
  have hsize : ((s.kernel.seekToEnd d).inodeOf d).size = s.contents.length := by
    rw [inodeOf, hinodes, hsame.inodeIndex, ← h.size]
    rfl
  have hpages : ((s.kernel.seekToEnd d).openFileTable d).pagesAllocated =
      (s.kernel.openFileTable d).pagesAllocated := by rw [htable, Function.update_self]
  have hcount := h.owns.count d h.holds.isOpen
  have hfits := h.holds.fits
  have hle := h.writeStart_le
  rw [growth, hlseek, hsize, hpages]
  rw [pageSize] at *
  split_ifs with h₁ h₂ h₂
  · rcases hstart with h0 | h0
    · omega
    · congr 1
      omega
  · rcases hstart with h0 | h0 <;> omega
  · rcases hstart with h0 | h0 <;> omega
  · rfl

/-- The pages after a write hold the file. -/
theorem Inv.le_pagesAfter (h : s.Inv F d) {length : ℕ}
    (hstart : length = 0 ∨ s.kernel.writeStart d = 0) (hlt : length < 2 ^ 32) :
    max s.contents.length (s.kernel.writeStart d + length) ≤
      (s.kernel.seekToEnd d).pagesAfter d length * pageSize := by
  obtain ⟨-, -, htable⟩ := s.kernel.seekToEnd_frame d
  have hpages : ((s.kernel.seekToEnd d).openFileTable d).pagesAllocated =
      (s.kernel.openFileTable d).pagesAllocated := by rw [htable, Function.update_self]
  have hfits := h.holds.fits
  have hle := h.writeStart_le
  rw [pagesAfter, h.growth_eq hstart hlt, hpages]
  rw [pageSize] at *
  split_ifs with hgrow
  · rw [Option.map_some, Option.getD_some, filePageCount]
    have hblocks := bytesToBlocks_eq (length - s.contents.length)
    split_ifs with hzero
    · omega
    · omega
  · rw [Option.map_none, Option.getD_none, Nat.add_zero]
    omega

theorem Inv.writesInside (h : s.Inv F d) {buffer length leftover : BitVec 32}
    (hw : s.kernel.WritesModel d buffer length leftover) :
    WritesInside (s.kernel.WriteFrame buffer.toNat length.toNat) s.kernel d buffer.toNat
      length.toNat leftover.toNat := by
  have hpages := h.le_pagesAfter hw.start length.isLt
  have hstart := hw.start
  have hnoWrap := hw.noWrap
  have hsaves := hw.saves
  rw [h.size] at hsaves
  refine ⟨hw.grows, ?_, hw.present, ?_⟩
  · omega
  · rw [h.size, Nat.mod_eq_of_lt hnoWrap, bytesToBlocks_eq]
    rw [fsBlock, pageSize] at *
    omega

/-! ## Writing -/

theorem getD_bytesAt {m : Vmm} {v n k q : ℕ} (hk : k < n)
    (hq : m.translate ((v + k) % 2 ^ 32) = some q) : (m.bytesAt v n).getD k 0 = m.ram q := by
  rw [Vmm.bytesAt, ByteStore.getD_slice _ _ _ _ hk, Nat.zero_add, hq]
  rfl

/-- A byte that a write leaves alone: it is one in front of the end, and not in the range. -/
theorem Inv.not_touched (h : s.Inv F d) {length y : ℕ}
    (hstart : length = 0 ∨ s.kernel.writeStart d = 0) (hlt : length < 2 ^ 32)
    (hy : y < s.contents.length)
    (hout : ¬ (s.kernel.writeStart d ≤ y ∧ y < s.kernel.writeStart d + length)) :
    ¬ s.kernel.Touched d length y := by
  have hfits := h.holds.fits
  rintro (⟨bytes, hbytes, -, -⟩ | ⟨h₁, h₂⟩)
  · rw [h.growth_eq hstart hlt] at hbytes
    split at hbytes
    · omega
    · cases hbytes
  · omega

/-- The descriptor after a write. -/
theorem Inv.sysWrite_file (h : s.Inv F d) {buffer length leftover : ℕ} {r : ℤ} {t : Kernel}
    (hcall : s.kernel.sysWrite d buffer length leftover = some (r, t)) : ∃ pages,
    t.openFileTable d = { s.kernel.openFileTable d with
      lseek := (s.kernel.writeStart d + length) % 2 ^ 32
      pagesAllocated := pages } := by
  obtain ⟨hneg, -, -⟩ | ⟨-, hflags, -, -⟩ | ⟨-, -, -, pages, htable⟩ := sysWrite_openFileTable hcall
  · omega
  · exact absurd h.writable hflags
  · exact ⟨pages, by rw [htable, Int.toNat_natCast, Function.update_self]⟩

/-- **A write** within the blocks of the file leaves the bytes of the pages on the disk. -/
theorem Inv.exists_sysWrite (h : s.Inv F d) {Keep : ℕ → Prop} {buffer length leftover : BitVec 32}
    (hin : WritesInside Keep s.kernel d buffer.toNat length.toNat leftover.toNat)
    (hfits : FitsOwned s.kernel ⟨d, buffer, length, leftover⟩)
    (hnoWrap : s.kernel.writeStart d + length.toNat < 2 ^ 32)
    (hsaves : leftover.toNat = 0 ∨
      max (s.kernel.inodeOf d).size (s.kernel.writeStart d + length.toNat) = 0) :
    ∃ t G, s.kernel.sysWrite d buffer.toNat length.toNat leftover.toNat =
        some ((length.toNat : ℤ), t) ∧
      Changes Keep d (s.kernel.Touched d length.toNat) s.kernel F t G ∧
      (t.inodeOf d).size = max s.contents.length (s.kernel.writeStart d + length.toNat) ∧
      (t.inodeOf d).size ≤ (t.openFileTable d).pagesAllocated * pageSize ∧
      OwnBlocks t.fs.superblock (t.inodeOf d) ∧
      (∀ y < (t.inodeOf d).size,
        t.fs.disk (fileByte (t.inodeOf d) y) = t.vmm.ram (Vmm.frameByte (G d) y)) ∧
      (readInode t.fs.disk (inodeAddress t.fs.superblock (t.inodeOf d).iNumber)).size =
        (t.inodeOf d).size ∧
      (BufferKept Keep s.kernel d buffer.toNat length.toNat → ∀ k < length.toNat, ∀ q,
        s.kernel.vmm.translate ((buffer.toNat + k) % 2 ^ 32) = some q →
          t.vmm.ram (Vmm.frameByte (G d) (4 * s.kernel.writeStart d + k)) =
            s.kernel.vmm.ram q) := by
  have hopen := h.holds.isOpen
  obtain ⟨t, G, hcall, hchanges, hpages, -, hsize, hsave, hcopied⟩ :=
    h.owns.exists_sysWrite hopen h.writable hin
  obtain ⟨hsame, -⟩ := sysWrite_disk hcall
  obtain ⟨hnum, hptr⟩ := hsame.inodeOf d
  rw [Nat.mod_eq_of_lt hnoWrap] at hsize
  have hopen' : d ∈ t.openFiles := hchanges.isOpen hopen
  have hblocks : OwnBlocks s.kernel.fs.superblock (t.inodeOf d) := by
    refine ⟨h.blocks.firstDataBlock, ?_, ?_⟩
    · rw [inodeBlock, hnum]
      exact h.blocks.record
    · rw [hptr]
      exact h.blocks.data
  have hown : ∀ i, i * fsBlock < (t.inodeOf d).size →
      i < 7 ∧ (t.inodeOf d).directPointers i ≠ 0 := fun i hi ↦ by
    rw [hsize] at hi
    rw [hptr]
    exact hfits h.writable i hi
  have hle : (t.inodeOf d).size ≤ (t.openFileTable d).pagesAllocated * pageSize := by
    have hcopies := hin.copies
    have hfits := h.holds.fits
    have hmore := hchanges.pages
    have hstart := h.writeStart_le
    rw [← hpages] at hcopies
    rw [hsize, h.size]
    rw [pageSize] at *
    omega
  have hcount := hchanges.owns.count d hopen'
  obtain ⟨hdisk, hdiskSize⟩ := saveFile_spec hblocks (by rw [pageSize] at hle; omega) hown
    (hchanges.owns.region d hopen') hle (by rwa [hsize]) hsave
  refine ⟨t, G, hcall, hchanges, by rw [hsize, h.size], hle, ?_, hdisk, ?_, hcopied⟩
  · rw [hsame.superblock]
    exact hblocks
  · rw [hsame.superblock]
    exact hdiskSize

/-- **A write** that follows the model: the pages of the descriptor hold what the byte array has
after it. -/
theorem Inv.sysWrite (h : s.Inv F d) {buffer length leftover : BitVec 32}
    (hw : s.kernel.WritesModel d buffer length leftover) {contents : List UInt8}
    (hcontents : contents = ByteStore.writeAt s.contents (s.kernel.writeStart d)
      (s.kernel.vmm.bytesAt buffer.toNat length.toNat)) :
    ∃ t G, s.kernel.sysWrite d buffer.toNat length.toNat leftover.toNat =
        some ((length.toNat : ℤ), t) ∧ t.Stores d contents ∧
      Vmm.BitmapKept s.kernel.vmm t.vmm ∧
      Inv G d ⟨t, contents, if length.toNat = 0 then s.loaded else []⟩ := by
  have hopen := h.holds.isOpen
  have hfits := h.holds.fits
  have hle := h.writeStart_le
  have hstart := hw.start
  have hnoWrap := hw.noWrap
  obtain ⟨t, G, hcall, hchanges, hsize, hpagesLe, hblocks, hdisk, hdiskSize, hcopied⟩ :=
    h.exists_sysWrite (h.writesInside hw) hw.fits hnoWrap hw.saves
  obtain ⟨hsame, -⟩ := sysWrite_disk hcall
  obtain ⟨hnum, -⟩ := hsame.inodeOf d
  obtain ⟨pages, hfile⟩ := h.sysWrite_file hcall
  have hbuffer : (s.kernel.vmm.bytesAt buffer.toNat length.toNat).length = length.toNat :=
    ByteStore.length_slice ..
  have hlength : contents.length =
      max s.contents.length (s.kernel.writeStart d + length.toNat) := by
    rw [hcontents, ByteStore.length_writeAt, hbuffer]
  rw [← hlength] at hsize
  rw [hsize] at hpagesLe
  have hopen' : d ∈ t.openFiles := hchanges.isOpen hopen
  -- the pages
  have hbytes : ByteStore.slice (fun y ↦ t.vmm.ram (Vmm.frameByte (G d) y)) 0 contents.length =
      contents := by
    rw [hlength, hcontents]
    refine ByteStore.slice_eq_writeAt (by rw [hbuffer]) (fun k hk ↦ ?_) fun y hy hout ↦ ?_
    · rw [hbuffer] at hk
      obtain ⟨q, hq, -⟩ := hw.present k hk
      have hzero : s.kernel.writeStart d = 0 := hstart.resolve_left (by omega)
      rw [getD_bytesAt hk hq, ← hcopied hw.kept k hk q hq, hzero]
    · rw [hbuffer] at hout
      have hyold : y < s.contents.length := by omega
      rw [← h.holds.bytes y hyold]
      exact hchanges.own_ram h.owns hopen (fun j hj ↦ Or.inl (h.owns.fileFrame hopen hj))
        (by omega) (h.not_touched hstart length.isLt hyold hout)
  have hpageBytes := (ByteStore.slice_eq_iff.mp hbytes).2
  have hstores : fileContents t.fs.disk (t.inodeOf d) = contents := by
    rw [fileContents, hsize]
    refine (ByteStore.slice_congr fun y hy ↦ ?_).trans hbytes
    rw [Nat.zero_add]
    exact hdisk y (hsize ▸ hy)
  refine ⟨t, G, hcall, ⟨hstores, hsize, hdiskSize.trans hsize⟩, hchanges.bitmapKept, hchanges.owns,
    ?_, ?_, ?_, ?_, ?_,
    hblocks, hstores, ⟨hopen', ?_, hpagesLe, hpageBytes⟩, fun e he ↦ ?_⟩
  · show Writable (t.openFileTable d)
    rw [hfile]
    exact h.writable
  · show (t.openFileTable d).address ≠ 0
    rw [hfile]
    exact h.address
  · show (t.openFileTable d).inodeIndex < tableEntries
    rw [hsame.inodeIndex]
    exact h.index
  · show t.inodeSlot (t.inodeOf d).iNumber = (t.openFileTable d).inodeIndex
    rw [inodeSlot_congr hsame.iNumber, hnum, hsame.inodeIndex]
    exact h.slot
  · exact hnum.trans_ne h.iNumber
  · show (t.openFileTable d).lseek ≤ contents.length
    rw [hfile, hlength]
    exact (Nat.mod_le ..).trans (Nat.le_max_right ..)
  · -- descriptors that stay current were opened before a write of nothing
    show e ≠ d ∧ Holds t (G e) contents e ∧ (t.openFileTable e).address ≠ 0 ∧
      (t.openFileTable e).inodeIndex = (t.openFileTable d).inodeIndex
    dsimp only at he
    split at he
    · rename_i hzero
      obtain ⟨hne, hholds, haddress, hindex⟩ := h.loaded e he
      have hnothing : contents = s.contents := by
        rw [hcontents, Vmm.bytesAt, hzero]
        exact ByteStore.writeAt_nil hle
      rw [hnothing]
      refine ⟨hne, hholds.congr (hchanges.isOpen hholds.isOpen) ?_ ?_ fun y hy ↦ ?_, ?_, ?_⟩
      · rw [hchanges.others e hne]
        exact hholds.lseek
      · rw [hchanges.others e hne]
      · rw [hchanges.frames e hne]
        exact hchanges.other_ram h.owns hholds.isOpen hne hopen
          (fun j hj ↦ Or.inl (h.owns.fileFrame hholds.isOpen hj)) hy
      · rwa [hchanges.others e hne]
      · rw [hsame.inodeIndex, hsame.inodeIndex]
        exact hindex
    · exact absurd he List.not_mem_nil

/-- What the invariant says of the descriptor and the inode does not read the offset or the count
of an inode table entry. -/
theorem Inv.congr (h : s.Inv F d) {k : Kernel} {G : ℕ → ℕ → ℕ} {loaded : List ℕ} {l c : ℕ}
    (hfile : k.openFileTable d = { s.kernel.openFileTable d with lseek := l })
    (hinode : k.inodeOf d = { s.kernel.inodeOf d with maxCount := c })
    (hnumbers : ∀ i, (k.openInodeTable i).iNumber = (s.kernel.openInodeTable i).iNumber)
    (hfs : k.fs = s.kernel.fs) (howns : k.OwnsPages G) (hholds : Holds k (G d) s.contents d)
    (hloaded : ∀ e ∈ loaded, e ≠ d ∧ Holds k (G e) s.contents e ∧
      (k.openFileTable e).address ≠ 0 ∧
      (k.openFileTable e).inodeIndex = (s.kernel.openFileTable d).inodeIndex) :
    Inv G d ⟨k, s.contents, loaded⟩ where
  owns := howns
  writable := by
    rw [hfile]
    exact h.writable
  address := by
    rw [hfile]
    exact h.address
  index := by
    rw [hfile]
    exact h.index
  slot := by
    show k.inodeSlot (k.inodeOf d).iNumber = (k.openFileTable d).inodeIndex
    rw [inodeSlot_congr hnumbers, hinode, hfile]
    exact h.slot
  iNumber := by
    rw [hinode]
    exact h.iNumber
  blocks := by
    rw [hinode, hfs]
    exact ⟨h.blocks.firstDataBlock, h.blocks.record, h.blocks.data⟩
  contents := by
    rw [hinode, hfs]
    exact h.contents
  holds := hholds
  loaded e he := by
    obtain ⟨hne, hheld, haddress, hindex⟩ := hloaded e he
    refine ⟨hne, hheld, haddress, ?_⟩
    rw [hfile]
    exact hindex

/-! ## Opening once more -/

/-- The slot of the file has its number, so that entering the file again counts it only. -/
theorem Inv.enterInode_eq (h : s.Inv F d) {inode : Inode}
    (hslot : s.kernel.inodeSlot inode.iNumber = (s.kernel.openFileTable d).inodeIndex) :
    s.kernel.enterInode inode = s.kernel.setInode (s.kernel.openFileTable d).inodeIndex
      { s.kernel.inodeOf d with maxCount := ((s.kernel.inodeOf d).maxCount + 1) % 2 ^ 8 } := by
  obtain ⟨-, henter⟩ := (@enterInode_cases s.kernel inode (hslot ▸ h.index)).resolve_right
    fun hh ↦ h.iNumber (by rw [inodeOf, ← hslot]; exact hh.1)
  rw [henter, hslot]
  rfl

/-- The pages that a file has been loaded into hold the contents. -/
theorem Inv.holds_loaded (h : s.Inv F d) {k : Kernel} {f : ℕ → ℕ} {inode : Inode} {e c : ℕ}
    (hopen : e ∈ k.openFiles) (hlseek : (k.openFileTable e).lseek = 0)
    (hpages : (k.openFileTable e).pagesAllocated = filePageCount inode.size)
    (hinode : s.contents = [] ∨ inode = { s.kernel.inodeOf d with maxCount := c })
    (hram : ∀ y < bytesToBlocks inode.size * pageSize,
      k.vmm.ram (Vmm.frameByte f y) = s.kernel.fs.disk (fileByte inode y)) :
    Holds k f s.contents e := by
  have hblocks := bytesToBlocks_eq s.contents.length
  refine ⟨hopen, hlseek ▸ Nat.zero_le _, ?_, fun y hy ↦ ?_⟩
  · rcases hinode with hempty | rfl
    · rw [hempty]
      exact Nat.zero_le _
    · rw [hpages, filePageCount]
      dsimp only
      rw [h.size, pageSize]
      split <;> omega
  · obtain rfl := hinode.resolve_left fun hempty ↦ by
      rw [hempty] at hy
      exact absurd hy (Nat.not_lt_zero y)
    dsimp only at hram
    rw [h.size] at hram
    rw [hram y (by rw [pageSize]; omega)]
    exact (ByteStore.slice_eq_iff.mp h.contents).2 y (h.size.symm ▸ hy)

/-- **Another descriptor** of the file gets pages of its own, with the file in them. -/
theorem Inv.sysOpen (h : s.Inv F d) {path : List UInt8} {flags leftover : BitVec 32}
    (hk : s.KeepsModel d (.sysOpen path flags leftover))
    (hstep : s.step d (.sysOpen path flags leftover) = some t) :
    (∃ G, t.Inv G d) ∧ Vmm.BitmapKept s.kernel.vmm t.kernel.vmm := by
  obtain ⟨hnum, hfirst, hnext, hinside⟩ := hk
  obtain ⟨⟨r, k⟩, hcall, rfl⟩ := Option.map_eq_some_iff.mp hstep
  generalize hinode : s.kernel.fs.getInode path = inode at *
  obtain ⟨hzero, -, -⟩ | ⟨hne, -, e, vmm, he, hload, hopened⟩ := sysOpen_cases hcall hinode
  · exact absurd (hnum.symm.trans hzero) h.iNumber
  obtain ⟨e', vmm', f, ⟨hlt, hfree⟩, he', hload', hpages, hbitmap, howns, hram⟩ :=
    h.owns.sysOpen hinside
  obtain rfl : e' = e := Option.some.inj (he'.symm.trans he)
  obtain rfl : vmm' = vmm := Option.some.inj (hload'.symm.trans hload)
  have hslot : s.kernel.inodeSlot inode.iNumber = (s.kernel.openFileTable d).inodeIndex := by
    rw [hnum]
    exact h.slot
  have henter := h.enterInode_eq hslot
  generalize hc : ((s.kernel.inodeOf d).maxCount + 1) % 2 ^ 8 = c at henter
  -- the tables
  have hinodes : k.openInodeTable = Function.update s.kernel.openInodeTable
      (s.kernel.openFileTable d).inodeIndex { s.kernel.inodeOf d with maxCount := c } := by
    rw [hopened, opened_openInodeTable, henter]
    rfl
  have htable : k.openFileTable = Function.update s.kernel.openFileTable e'
      ⟨(s.kernel.openFileTable d).inodeIndex, 0, s.kernel.fileVirtualAddress, 1, flags.toNat,
        filePageCount (s.kernel.loadedInode inode).size⟩ := by
    rw [hopened, opened_openFileTable, hslot, Nat.mod_eq_of_lt (show _ < 2 ^ 8 from h.index),
      Nat.mod_eq_of_lt hinside.pages]
  have hfs : k.fs = s.kernel.fs := by rw [hopened]; exact (s.kernel.enterInode_frame inode).2.1
  have hvmm : k.vmm = vmm' := by rw [hopened]; rfl
  have hold : ∀ x ∈ s.kernel.openFiles, x ≠ e' := fun x hx heq ↦
    not_mem_openFiles hfree (heq ▸ hx)
  have hopenFiles := openFiles_insert (t := k) hlt Nat.one_ne_zero htable
  have hd := hold d h.holds.isOpen
  have hfile : k.openFileTable d =
      { s.kernel.openFileTable d with lseek := (s.kernel.openFileTable d).lseek } := by
    rw [htable, Function.update_of_ne hd]
  have hof : k.inodeOf d = { s.kernel.inodeOf d with maxCount := c } := by
    rw [inodeOf, htable, Function.update_of_ne hd, hinodes, Function.update_self]
  have hnumbers : ∀ i, (k.openInodeTable i).iNumber = (s.kernel.openInodeTable i).iNumber :=
    fun i ↦ by
      rw [hinodes, Function.update_apply]
      split
      · rename_i hi
        rw [hi]
        rfl
      · rfl
  -- the pages of open files are in use
  have hkept : ∀ x, Holds s.kernel (F x) s.contents x →
      Holds k (growFrames F e' 0 f x) s.contents x := fun x hx ↦ by
    have hne := hold x hx.isOpen
    refine hx.congr (hopenFiles ▸ Finset.mem_insert_of_mem hx.isOpen) ?_ ?_ fun y hy ↦ ?_
    · rw [htable, Function.update_of_ne hne]
      exact hx.lseek
    · rw [htable, Function.update_of_ne hne]
    · have hpage := page_lt hy
      rw [growFrames_of_ne hne, hvmm]
      refine hpages.ram _ ?_ ?_ ?_ <;> rw [Vmm.frameByte_div]
      · exact h.owns.isSet x hx.isOpen _ hpage
      · exact (h.owns.region x hx.isOpen).data _ hpage
      · exact h.owns.fileFrame hx.isOpen hpage
  -- the new pages are loaded from the file
  have hloaded : s.contents = [] ∨
      s.kernel.loadedInode inode = { s.kernel.inodeOf d with maxCount := c } :=
    hfirst.symm.imp_right fun hzero ↦ by
      rw [loadedInode, hslot, henter, hzero]
      exact Function.update_self (β := fun _ ↦ Inode) 0 _ s.kernel.openInodeTable
  have hnew : Holds k f s.contents e' := by
    refine h.holds_loaded (hopenFiles ▸ Finset.mem_insert_self ..) ?_ ?_ hloaded (hvmm ▸ hram)
    · rw [htable, Function.update_self]
    · rw [htable, Function.update_self]
  refine ⟨⟨growFrames F e' 0 f, h.congr hfile hof hnumbers hfs (hopened ▸ howns flags.toNat)
    (hkept d h.holds) fun x hx ↦ ?_⟩, hvmm.symm ▸ hbitmap⟩
  rw [he', Option.toList_some, List.singleton_append, List.mem_cons] at hx
  rcases hx with rfl | hx
  · rw [htable, Function.update_self]
    refine ⟨Ne.symm hd, ?_, hnext, rfl⟩
    rwa [growFrames, Function.update_self]
  · obtain ⟨hne, hholds, haddress, hsame⟩ := h.loaded x hx
    have hxe := hold x hholds.isOpen
    rw [htable, Function.update_of_ne hxe]
    exact ⟨hne, hkept x hholds, haddress, hsame⟩

/-! ## Reading -/

theorem getD_take_drop {bs : List UInt8} {l n y : ℕ} (hy : y < n) :
    ((bs.drop l).take n).getD y 0 = bs.getD (l + y) 0 := by
  simp only [List.getD_eq_getElem?_getD, List.getElem?_take, List.getElem?_drop, if_pos hy]

/-- How far a read goes. -/
theorem Inv.readCount_eq (h : s.Inv F d) {e length : ℕ}
    (hindex : (s.kernel.openFileTable e).inodeIndex = (s.kernel.openFileTable d).inodeIndex)
    (hlseek : (s.kernel.openFileTable e).lseek ≤ s.contents.length)
    (hnoWrap : (s.kernel.openFileTable e).lseek + length < 2 ^ 32) :
    s.kernel.readCount e length =
      ((s.contents.drop (s.kernel.openFileTable e).lseek).take length).length := by
  have hsize : (s.kernel.inodeOf e).size = s.contents.length := by
    rw [inodeOf, hindex]
    exact h.size
  have hcount := h.owns.count d h.holds.isOpen
  have hfits := h.holds.fits
  rw [readCount, hsize, Nat.mod_eq_of_lt hnoWrap, List.length_take, List.length_drop]
  rw [pageSize] at hfits
  split_ifs <;> omega

/-- What a descriptor of the file has in its pages. -/
theorem Inv.holds_of_loaded (h : s.Inv F d) {e : ℕ} (he : e = d ∨ e ∈ s.loaded) :
    Holds s.kernel (F e) s.contents e ∧ (s.kernel.openFileTable e).address ≠ 0 ∧
      (s.kernel.openFileTable e).inodeIndex = (s.kernel.openFileTable d).inodeIndex := by
  rcases he with rfl | he
  · exact ⟨h.holds, h.address, rfl⟩
  · exact (h.loaded e he).2

/-- The copy of a read puts the bytes into the buffer, and changes no page of an open file. -/
theorem Inv.exists_copy (h : s.Inv F d) {e buffer length : ℕ}
    (hr : s.ReadsModel d e buffer length) (hholds : Holds s.kernel (F e) s.contents e)
    {bytes : List UInt8}
    (hbytes : bytes = (s.contents.drop (s.kernel.openFileTable e).lseek).take length) :
    ∃ m, s.kernel.vmm.memcpy buffer ((s.kernel.openFileTable e).address +
        4 * (s.kernel.openFileTable e).lseek) bytes.length = some m ∧
      Vmm.SameTables s.kernel.vmm m ∧ Vmm.BitmapKept s.kernel.vmm m ∧
      m.bytesAt buffer bytes.length = bytes ∧
      ∀ x ∈ s.kernel.openFiles, ∀ y < (s.kernel.openFileTable x).pagesAllocated * pageSize,
        m.ram (Vmm.frameByte (F x) y) = s.kernel.vmm.ram (Vmm.frameByte (F x) y) := by
  have hdir := h.owns.wf.dir_mod
  have hlseek := hholds.lseek
  have hfits := hholds.fits
  have hn : bytes.length = min length (s.contents.length - (s.kernel.openFileTable e).lseek) := by
    rw [hbytes, List.length_take, List.length_drop]
  have hstart : bytes.length = 0 ∨ (s.kernel.openFileTable e).lseek = 0 := by
    have := hr.start
    omega
  have hpresent := hr.present
  have happart := hr.apart
  rw [← hn] at hpresent happart
  choose! P hP hdata hfree hbitmap using hpresent
  -- the frames of open files are none of the buffer
  have hother : ∀ k < bytes.length, ∀ x ∈ s.kernel.openFiles,
      ∀ y < (s.kernel.openFileTable x).pagesAllocated * pageSize,
        Vmm.frameByte (F x) y ≠ P k := fun k hk x hx y hy heq ↦ by
    refine hfree k hk ?_
    rw [← heq, Vmm.frameByte_div]
    exact h.owns.fileFrame hx (page_lt hy)
  have hsource := (h.owns.region e hholds.isOpen).dataAt
    (a := 4 * (s.kernel.openFileTable e).lseek) (k := bytes.length) (by omega)
  obtain ⟨m, hcopy, hsame, hout, hin⟩ := Vmm.memcpy_spec hdir
    (fun k hk ↦ ⟨hP k hk, hdata k hk⟩) fun k hk ↦ (hsource k hk).1
  have hkept : Vmm.BitmapKept s.kernel.vmm m :=
    ⟨h.owns.bitmap.sameTables hdir hsame, fun x hx ↦ hout x fun k hk heq ↦
      hbitmap k hk (heq ▸ hx)⟩
  refine ⟨m, hcopy, hsame, hkept, ByteStore.slice_eq_iff.mpr ⟨rfl, fun k hk ↦ ?_⟩,
    fun x hx y hy ↦ hout _ fun k hk ↦ hother k hk x hx y hy⟩
  have hzero := hstart.resolve_left (by omega)
  rw [hsame.translate hdir (Nat.mod_lt _ (by decide)), hP k hk]
  show m.ram (P k) = bytes.getD k 0
  rw [hin (fun i j hij hj ↦ ?_) (fun i j hij hj ↦ ?_) k hk]
  · rw [hzero, Nat.mul_zero, Nat.zero_add, hholds.bytes k (by omega), hbytes,
      getD_take_drop (by omega), hzero, Nat.zero_add]
  · intro heq
    refine happart i j hij hj ?_
    rw [hP i (by omega), hP j hj, heq]
  · exact hother i (by omega) e hholds.isOpen _ (by omega)

/-- A read that is served moves the offset of its descriptor behind the bytes that it copies. -/
theorem exists_sysRead {s : Kernel} {d buffer length n : ℕ} {m : Vmm}
    (haddress : (s.openFileTable d).address ≠ 0) (hopen : d ∈ s.openFiles)
    (hreadable : ¬ Unreadable (s.openFileTable d)) (hread : s.readCount d length = n)
    (hcopy : s.vmm.memcpy buffer ((s.openFileTable d).address + 4 * (s.openFileTable d).lseek) n =
      some m) :
    ∃ t, s.sysRead d buffer length = some ((n : ℤ), t) ∧ t.vmm = m ∧
      t.openFileTable = Function.update s.openFileTable d
        { s.openFileTable d with lseek := ((s.openFileTable d).lseek + n) % 2 ^ 32 } ∧
      t.openInodeTable = s.openInodeTable ∧ t.fs = s.fs ∧
      t.fileVirtualAddress = s.fileVirtualAddress := by
  rw [Kernel.sysRead, if_neg (Int.not_lt.mpr (Int.natCast_nonneg d)), Int.toNat_natCast]
  dsimp only
  rw [if_neg (not_or.mpr ⟨haddress, (mem_openFiles.mp hopen).2⟩), if_neg hreadable, hread, hcopy]
  exact ⟨_, rfl, rfl, rfl, rfl, rfl, rfl⟩

/-- **A read** returns the bytes from the offset on. -/
theorem Inv.sysRead (h : s.Inv F d) {e buffer length : ℕ} (hr : s.ReadsModel d e buffer length)
    {bytes : List UInt8}
    (hbytes : bytes = (s.contents.drop (s.kernel.openFileTable e).lseek).take length) :
    ∃ t, s.kernel.sysRead e buffer length = some ((bytes.length : ℤ), t) ∧
      t.vmm.bytesAt buffer bytes.length = bytes ∧
      (t.openFileTable e).lseek = (s.kernel.openFileTable e).lseek + bytes.length ∧
      Vmm.BitmapKept s.kernel.vmm t.vmm ∧ Inv F d { s with kernel := t } := by
  obtain ⟨hholds, haddress, hindex⟩ := h.holds_of_loaded hr.loaded
  have hcount := h.owns.count e hholds.isOpen
  have hlseek := hholds.lseek
  have hfits := hholds.fits
  have hn : bytes.length = min length (s.contents.length - (s.kernel.openFileTable e).lseek) := by
    rw [hbytes, List.length_take, List.length_drop]
  have hread : s.kernel.readCount e length = bytes.length := by
    rw [hbytes]
    exact h.readCount_eq hindex hlseek hr.noWrap
  have hle : (s.kernel.openFileTable e).lseek + bytes.length ≤ s.contents.length := by omega
  obtain ⟨m, hcopy, hsame, hbitmap, hcopied, hkept⟩ := h.exists_copy hr hholds hbytes
  obtain ⟨t, ht, rfl, htable, hinodes, hfs, hnext⟩ :=
    exists_sysRead haddress hholds.isOpen hr.readable hread hcopy
  rw [Nat.mod_eq_of_lt (by rw [pageSize] at hfits; omega)] at htable
  generalize (s.kernel.openFileTable e).lseek + bytes.length = last at hle htable ⊢
  have hfile : ∀ x, ∃ l, t.openFileTable x = { s.kernel.openFileTable x with lseek := l } :=
    fun x ↦ by
      rw [htable, Function.update_apply]
      split
      · rename_i hx
        exact ⟨last, by rw [hx]⟩
      · exact ⟨_, rfl⟩
  have hheld : ∀ x, Holds s.kernel (F x) s.contents x → Holds t (F x) s.contents x :=
    fun x hx ↦ by
      obtain ⟨l, hl⟩ := hfile x
      refine hx.congr ?_ ?_ (by rw [hl]) (hkept x hx.isOpen)
      · rw [mem_openFiles, hl]
        exact mem_openFiles.mp hx.isOpen
      · rw [htable, Function.update_apply]
        split
        · exact hle
        · exact hx.lseek
  obtain ⟨l, htabled⟩ := hfile d
  refine ⟨t, ht, hcopied, by rw [htable, Function.update_self], hbitmap, ?_⟩
  have hof : t.inodeOf d =
      { s.kernel.inodeOf d with maxCount := (s.kernel.inodeOf d).maxCount } := by
    rw [inodeOf, inodeOf, htabled, hinodes]
  have howns : t.OwnsPages F := h.owns.congr hsame hnext fun x ↦ by
    obtain ⟨l, hl⟩ := hfile x
    rw [hl]
    exact ⟨rfl, rfl, Iff.rfl⟩
  refine h.congr htabled hof (fun i ↦ by rw [hinodes]) hfs howns (hheld d h.holds) fun x hx ↦ ?_
  obtain ⟨hxd, hxholds, hxaddress, hxindex⟩ := h.loaded x hx
  obtain ⟨l', hl⟩ := hfile x
  rw [hl]
  exact ⟨hxd, hheld x hxholds, hxaddress, hxindex⟩

/-! ## Runs -/

/-- **One call.** -/
theorem Inv.step (h : s.Inv F d) {c : EditCall} (hk : s.KeepsModel d c)
    (hstep : s.step d c = some t) :
    (∃ G, t.Inv G d) ∧ Vmm.BitmapKept s.kernel.vmm t.kernel.vmm := by
  cases c with
  | sysWrite buffer length leftover =>
    obtain ⟨k, G, hcall, -, hkept, hinv⟩ := h.sysWrite hk rfl
    rw [Editing.step, hcall] at hstep
    cases hstep
    exact ⟨⟨G, hinv⟩, hkept⟩
  | sysOpen path flags leftover => exact h.sysOpen hk hstep
  | sysRead c =>
    obtain ⟨e, hfd, hr⟩ := hk
    obtain ⟨k, hcall, -, -, hkept, hinv⟩ := h.sysRead hr rfl
    rw [Editing.step, Kernel.read, hfd, hcall] at hstep
    cases hstep
    exact ⟨⟨F, hinv⟩, hkept⟩

theorem Inv.followsModel (h : s.Inv F d) {c : EditCall} (hk : s.KeepsModel d c) :
    s.FollowsModel d c := by
  cases c with
  | sysWrite buffer length leftover =>
    intro _ _
    obtain ⟨k, G, hcall, hstores, -⟩ := h.sysWrite hk rfl
    exact ⟨k, hcall, hstores⟩
  | sysOpen => trivial
  | sysRead c =>
    intro e hfd _ _ _ _
    obtain ⟨e', hfd', hr⟩ := hk
    obtain rfl : e' = e := Int.ofNat.inj (hfd'.symm.trans hfd)
    obtain ⟨k, hcall, hbytes, hlseek, -⟩ := h.sysRead hr rfl
    exact ⟨k, hcall, hbytes, hlseek⟩

/-- The slot that a file has been entered in is the first one with its number. -/
theorem inodeSlot_of_entered {s t : Kernel} {inode : Inode} {i : ℕ} (hi : i < tableEntries)
    (hnew : ∀ i ≤ tableEntries, (s.openInodeTable i).iNumber ≠ inode.iNumber)
    (ht : t.openInodeTable = Function.update s.openInodeTable i inode) :
    t.inodeSlot inode.iNumber = i := by
  have hle := findSlot_le_of (p := fun j ↦ (t.openInodeTable j).iNumber == inode.iNumber)
    (beq_iff_eq.mpr (by rw [ht, Function.update_self])) hi
  have hlt := hle.trans_lt hi
  rw [inodeSlot_of_found hlt]
  have hfound := iNumber_of_found hlt
  generalize findSlot (fun j ↦ (t.openInodeTable j).iNumber == inode.iNumber) = j at *
  by_contra hne
  rw [ht, Function.update_of_ne hne] at hfound
  exact hnew j hlt.le hfound

/-- The file has just been opened. -/
theorem inv_opened {s : Session} (h : s.Inv F) {path : List UInt8} {flags leftover : BitVec 32}
    (hopen : s.kernel.OpensOnce (.sysOpen path flags leftover))
    (hne : (s.kernel.fs.getInode path).iNumber ≠ 0)
    (hblocks : OwnBlocks s.kernel.fs.superblock (s.kernel.fs.getInode path)) {k : Kernel}
    (hcall : s.kernel.sysOpen path flags.toNat leftover.toNat = some ((d : ℤ), k))
    (hwritable : Writable (k.openFileTable d)) :
    (∃ G, Inv G d ⟨k, fileContents s.kernel.fs.disk (s.kernel.fs.getInode path), []⟩) ∧
      Vmm.BitmapKept s.kernel.vmm k.vmm := by
  obtain ⟨hnew, -, -, -⟩ := hopen hne
  obtain ⟨e, t, G, pages, hcall', htable, hinodes, hkept, hinv⟩ := h.sysOpen hopen hne
  have hfs := sysOpen_fs hcall
  cases hcall'.symm.trans hcall
  generalize s.kernel.fs.getInode path = inode at *
  obtain ⟨d', hd, heq, -⟩ := hinv.selects _ List.mem_cons_self
  obtain rfl : d = d' := Int.ofNat.inj heq
  obtain ⟨hlt, -⟩ := mem_openFiles.mp hd
  obtain ⟨-, haddress, hindex⟩ := hinv.paired.entry d hd
  have hof : k.inodeOf d = inode := by rw [inodeOf, hindex, hinodes, Function.update_self]
  have hentry : k.openInodeTable d = inode := by rw [hinodes, Function.update_self]
  have hlength : (fileContents s.kernel.fs.disk inode).length = inode.size :=
    ByteStore.length_slice ..
  refine ⟨⟨G, hinv.owns, hwritable, haddress, hindex.symm ▸ hlt, ?_, hof.symm ▸ hne, ?_, ?_,
    ⟨hd, ?_, ?_, fun y hy ↦ ?_⟩, fun e he ↦ absurd he List.not_mem_nil⟩, hkept⟩
  · show k.inodeSlot (k.inodeOf d).iNumber = (k.openFileTable d).inodeIndex
    rw [hof, hindex]
    exact inodeSlot_of_entered hlt hnew hinodes
  · show OwnBlocks k.fs.superblock (k.inodeOf d)
    rwa [hof, hfs]
  · show fileContents k.fs.disk (k.inodeOf d) = _
    rw [hof, hfs]
  · rw [htable, Function.update_self]
    exact Nat.zero_le _
  · rw [hlength, ← hentry]
    exact hinv.fits d hd
  · rw [hlength] at hy
    have hloaded := hinv.loaded d hd y
    rw [hentry, hfs] at hloaded
    rw [hloaded hy]
    exact (ByteStore.slice_eq_iff.mp (rfl : fileContents s.kernel.fs.disk inode = _)).2 y hy

/-- **The file is a byte array** in every run that writes and reads it from the beginning, on a
machine whose allocator keeps its bitmap to itself: the file is not open yet, it is opened for
writing, and then each call keeps the model. -/
theorem followsModel_of_meets {k t : Kernel} {s : Session} {opens : List FileCall}
    {path : List UInt8} {flags leftover : BitVec 32} {calls : List EditCall} (hzero : k.Zeroed)
    (hwf : k.vmm.WF) (hkeeps : k.vmm.KeepsBitmap) (hfirst : k.fileVirtualAddress = 0x40000000)
    (hopens : Run.Meets Session.step (fun s ↦ s.kernel.OpensOnce) ⟨k, []⟩ opens)
    (hrun : Run.exec Session.step ⟨k, []⟩ opens = some s)
    (hopen : s.kernel.OpensOnce (.sysOpen path flags leftover))
    (hne : (s.kernel.fs.getInode path).iNumber ≠ 0)
    (hblocks : OwnBlocks s.kernel.fs.superblock (s.kernel.fs.getInode path))
    (hcall : s.kernel.sysOpen path flags.toNat leftover.toNat = some ((d : ℤ), t))
    (hwritable : Writable (t.openFileTable d))
    (hcalls : Run.Meets (Editing.step d) (KeepsModel d)
      ⟨t, fileContents s.kernel.fs.disk (s.kernel.fs.getInode path), []⟩ calls) :
    Run.Meets (Editing.step d) (FollowsModel d)
        ⟨t, fileContents s.kernel.fs.disk (s.kernel.fs.getInode path), []⟩ calls ∧
      ∀ u, Run.exec (Editing.step d)
          ⟨t, fileContents s.kernel.fs.disk (s.kernel.fs.getInode path), []⟩ calls = some u →
        Vmm.BitmapKept k.vmm u.kernel.vmm := by
  obtain ⟨⟨⟨F, hF⟩, hkept⟩, -⟩ :=
    (Session.inv_start hzero hwf hkeeps hfirst).opensFile_of_meets hopens hrun
  obtain ⟨hinv, hkept'⟩ := inv_opened hF hopen hne hblocks hcall hwritable
  exact ⟨hcalls.of_invariant (fun u ↦ ∃ G, Inv G d u)
      (fun _ _ _ ⟨_, h⟩ hc hstep ↦ (Inv.step h hc hstep).1)
      (fun _ _ ⟨_, h⟩ hc ↦ Inv.followsModel h hc) hinv,
    fun _ hu ↦ (hcalls.invariant
      (fun u : Editing ↦ (∃ G, Inv G d u) ∧ Vmm.BitmapKept k.vmm u.kernel.vmm)
      (fun _ _ _ ⟨⟨_, h⟩, hv⟩ hc hstep ↦ (Inv.step h hc hstep).imp_right hv.trans)
      ⟨hinv, hkept.trans hkept'⟩ hu).2⟩

/-! ## Writes at other offsets -/

/-- **A write behind the beginning** does not reach the byte it should start with: what the file had
there stays. -/
theorem Inv.not_stores (h : s.Inv F d) {Keep : ℕ → Prop} {buffer length leftover : BitVec 32}
    (hkeep : ∀ j < (s.kernel.openFileTable d).pagesAllocated, Keep (F d j))
    (hin : WritesInside Keep s.kernel d buffer.toNat length.toNat leftover.toNat)
    (hfits : FitsOwned s.kernel ⟨d, buffer, length, leftover⟩) (hleft : leftover.toNat = 0)
    (hgrowth : (s.kernel.seekToEnd d).growth d length.toNat = none)
    (hpos : 0 < s.kernel.writeStart d) (hlt : s.kernel.writeStart d < s.contents.length)
    (hlength : s.kernel.writeStart d + length.toNat ≤ s.contents.length)
    (hsome : 0 < length.toNat) {q : ℕ}
    (hq : s.kernel.vmm.translate (buffer.toNat % 2 ^ 32) = some q)
    (hother : s.kernel.vmm.ram q ≠ s.contents.getD (s.kernel.writeStart d) 0) :
    ¬ FollowsModel d s (.sysWrite buffer length leftover) := by
  intro hfollows
  have hpages := h.holds.fits
  have hcount := h.owns.count d h.holds.isOpen
  have hnoWrap : s.kernel.writeStart d + length.toNat < 2 ^ 32 := by
    rw [pageSize] at hpages
    omega
  obtain ⟨t, G, hcall, hchanges, hsize, -, -, hdisk, -, -⟩ :=
    h.exists_sysWrite hin hfits hnoWrap (Or.inl hleft)
  obtain ⟨t', hcall', hstores⟩ := hfollows hnoWrap hfits
  cases hcall.symm.trans hcall'
  -- the byte that the model changes
  have hwritten : (ByteStore.writeAt s.contents (s.kernel.writeStart d)
      (s.kernel.vmm.bytesAt buffer.toNat length.toNat)).getD (s.kernel.writeStart d + 0) 0 = _ :=
    ByteStore.getD_writeAt (by rw [Vmm.bytesAt, ByteStore.length_slice]; exact hsome)
  rw [Nat.add_zero] at hwritten
  have hbytes := (ByteStore.slice_eq_iff.mp hstores.bytes).2 (s.kernel.writeStart d)
    (by rw [hsize]; omega)
  rw [hdisk _ (by rw [hsize]; omega), hchanges.own_ram h.owns h.holds.isOpen hkeep (by omega),
    h.holds.bytes _ hlt, hwritten, getD_bytesAt hsome (q := q) (by rwa [Nat.add_zero])] at hbytes
  · exact hother hbytes.symm
  · rintro (⟨bytes, hb, -⟩ | ⟨h₁, -⟩)
    · rw [hgrowth] at hb
      cases hb
    · omega

/-! ## A file of three bytes -/

/-- The file `a` has the inode 4 and the block 7. -/
def threeBytesDisk : ByteStore := fun x ↦
  if x = 0x6000 then 4 else if x = 0x6004 then 0x61
  else if x = 0x4100 then 4 else if x = 0x4105 then 3 else if x = 0x4121 then 7
  else if x = 0x7000 then 0x78 else if x = 0x7001 then 0x7A else if x = 0x7002 then 0x79 else 0

def threeBytes : Kernel :=
  { twoFiles with fs := ⟨threeBytesDisk, oneEntrySuperblock, oneEntryDir, oneEntryDir⟩ }

theorem threeBytes_diskInode : (diskInode threeBytesDisk oneEntrySuperblock 4).iNumber = 4 ∧
    (diskInode threeBytesDisk oneEntrySuperblock 4).size = 3 ∧
    ∀ i < 7, (diskInode threeBytesDisk oneEntrySuperblock 4).directPointers i =
      if i = 0 then 7 else 0 := by
  have haddr : sectorAddress (inodeSector oneEntrySuperblock 4) + 4 % inodesPerSector * inodeBytes =
      0x4100 := by decide
  rw [diskInode, haddr]
  refine ⟨by decide +kernel, by decide +kernel, by decide +kernel⟩

theorem threeBytes_getInode :
    threeBytes.fs.getInode [0x61] = diskInode threeBytesDisk oneEntrySuperblock 4 :=
  oneEntryDir_getInode (by decide +kernel) (by decide +kernel) (by decide +kernel)
    threeBytes_diskInode.1

theorem threeBytes_contents :
    fileContents threeBytesDisk (diskInode threeBytesDisk oneEntrySuperblock 4) =
      [0x78, 0x7A, 0x79] := by
  obtain ⟨-, hsize, hpointers⟩ := threeBytes_diskInode
  refine ByteStore.slice_eq_iff.mpr ⟨hsize.symm, fun y hy ↦ ?_⟩
  rw [hsize] at hy
  have hbyte : fileByte (diskInode threeBytesDisk oneEntrySuperblock 4) y = 0x7000 + y := by
    rw [fileByte, Nat.div_eq_of_lt (show y < fsBlock by rw [fsBlock]; omega),
      hpointers 0 (by decide), if_pos rfl, sectorAddress_blockSector (by decide),
      Nat.mod_eq_of_lt (show y < fsBlock by rw [fsBlock]; omega)]
    rfl
  rw [hbyte]
  exact (show ∀ y < 3, threeBytesDisk (0x7000 + y) = [0x78, 0x7A, 0x79].getD y 0 by decide) y hy

theorem threeBytes_ownBlocks :
    OwnBlocks oneEntrySuperblock (diskInode threeBytesDisk oneEntrySuperblock 4) := by
  obtain ⟨hnum, -, hpointers⟩ := threeBytes_diskInode
  refine ⟨by decide, ?_, fun i hi hne ↦ ?_⟩
  · rw [inodeBlock, hnum]
    decide
  · rw [hpointers i hi] at hne ⊢
    obtain rfl : i = 0 := by_contra fun h ↦ hne (if_neg h)
    refine ⟨by decide, by decide, fun j hj hsame ↦ ?_⟩
    rw [hpointers j hj] at hsame
    by_contra h
    rw [if_neg h] at hsame
    exact absurd hsame (by decide)

/-- The file is opened in the first slot. -/
theorem threeBytes_opensOnce : threeBytes.OpensOnce (.sysOpen [0x61] 0x21 0) := by
  obtain ⟨hnum, hsize, -⟩ := threeBytes_diskInode
  obtain ⟨hslot, hfile⟩ : threeBytes.inodeSlot 4 = 0 ∧ threeBytes.fileSlot 0 = some 0 := twoFiles_slots
  have hnew : ∀ i ≤ tableEntries, (threeBytes.openInodeTable i).iNumber ≠
      (diskInode threeBytesDisk oneEntrySuperblock 4).iNumber :=
    fun i _ ↦ hnum ▸ show (0 : ℕ) ≠ 4 by decide
  have hloaded := loadedInode_of_first hnew rfl
  intro _
  rw [threeBytes_getInode]
  refine ⟨hnew, Or.inl rfl, by decide, ⟨⟨0, by decide, by rw [hnum, hslot]; exact hfile, rfl⟩, ?_,
    ?_, Or.inl rfl⟩⟩
  · rw [hloaded, hsize]
    decide
  · rw [hloaded, hsize]
    exact emptyTable_mapPages 1 (by decide) _

theorem threeBytes_inv : ∃ (d : ℕ) (t : Kernel) (G : ℕ → ℕ → ℕ),
    threeBytes.sysOpen [0x61] 0x21 0 = some ((d : ℤ), t) ∧ Inv G d ⟨t, [0x78, 0x7A, 0x79], []⟩ ∧
    (t.openFileTable d).address = 0x40000000 ∧ (t.openFileTable d).lseek = 0 ∧
    (t.openFileTable d).flags = 0x21 ∧
    t.inodeOf d = diskInode threeBytesDisk oneEntrySuperblock 4 := by
  have hstart : (⟨threeBytes, []⟩ : Session).Inv fun _ _ ↦ 0 :=
    Session.inv_start ⟨fun _ _ ↦ rfl, fun _ _ ↦ rfl, rfl, rfl⟩ emptyTable_wf
      emptyTable_keepsBitmap rfl
  have hne : (threeBytes.fs.getInode [0x61]).iNumber ≠ 0 := by
    rw [threeBytes_getInode, threeBytes_diskInode.1]
    decide
  obtain ⟨d, t, -, pages, hcall, htable, hinodes, -, -⟩ := hstart.sysOpen threeBytes_opensOnce hne
  have hflags : (t.openFileTable d).flags = 0x21 := by
    rw [htable, Function.update_self]
    rfl
  obtain ⟨⟨G, hG⟩, -⟩ := inv_opened hstart threeBytes_opensOnce hne
    (threeBytes_getInode.symm ▸ threeBytes_ownBlocks) hcall (by rw [Writable, hflags]; decide)
  have hcontents : fileContents threeBytes.fs.disk (threeBytes.fs.getInode [0x61]) =
      [0x78, 0x7A, 0x79] := threeBytes_getInode.symm ▸ threeBytes_contents
  rw [hcontents] at hG
  refine ⟨d, t, G, hcall, hG, ?_, ?_, hflags, ?_⟩
  · rw [htable, Function.update_self]
    rfl
  · rw [htable, Function.update_self]
  · rw [inodeOf, htable, Function.update_self, hinodes, ← threeBytes_getInode]
    exact Function.update_self ..

/-- The page of the file has room for one more byte, which is taken from its third one. -/
theorem threeBytes_write (h : s.Inv F d) (hlength : s.contents.length = 3)
    (haddress : (s.kernel.openFileTable d).address = 0x40000000)
    (hflags : (s.kernel.openFileTable d).flags = 0x21)
    (hlseek : (s.kernel.openFileTable d).lseek ≤ 2)
    (hpointers : ∀ i < 7, (s.kernel.inodeOf d).directPointers i = if i = 0 then 7 else 0)
    (Keep : ℕ → Prop) :
    s.kernel.writeStart d = (s.kernel.openFileTable d).lseek ∧
      (s.kernel.seekToEnd d).growth d 1 = none ∧
      WritesInside Keep s.kernel d 0x40000002 1 0 ∧
      FitsOwned s.kernel ⟨d, 0x40000002, 1, 0⟩ ∧
      s.kernel.vmm.translate 0x40000002 = some (Vmm.frameByte (F d) 2) := by
  have hfits := h.holds.fits
  have hsize := h.size
  have hcount := h.owns.count d h.holds.isOpen
  rw [hlength] at hfits hsize
  have hstart : s.kernel.writeStart d = (s.kernel.openFileTable d).lseek := by
    rw [writeStart, hflags]
    rfl
  have hseek : s.kernel.seekToEnd d = s.kernel := by
    rw [seekToEnd, hflags]
    rfl
  have hgrowth : s.kernel.growth d 1 = none := by
    rw [growth, hsize, if_neg]
    rw [pageSize] at *
    omega
  have hpages : s.kernel.pagesAfter d 1 = (s.kernel.openFileTable d).pagesAllocated := by
    rw [pagesAfter, hgrowth]
    rfl
  have hread := ((h.owns.region d h.holds.isOpen).dataAt (a := 2) (k := 1)
    (by rw [pageSize] at *; omega) 0 Nat.one_pos).1
  rw [haddress] at hread
  rw [hseek]
  refine ⟨hstart, hgrowth, ⟨fun bytes hb ↦ ?_, ?_, fun k hk ↦ ?_, ?_⟩, fun _ i hi ↦ ?_, hread⟩
  · rw [hseek, hgrowth] at hb
    cases hb
  · rw [hseek, hpages, hstart]
    rw [pageSize] at *
    omega
  · obtain rfl : k = 0 := by omega
    refine ⟨_, hread, ?_⟩
    rw [Vmm.frameByte_div]
    exact h.owns.notBitmap d h.holds.isOpen _ (page_lt (by rw [pageSize] at *; omega))
  · rw [hseek, hpages, hsize, hstart, Nat.mod_eq_of_lt (by omega), bytesToBlocks_eq]
    rw [pageSize, fsBlock] at *
    omega
  · rw [Int.toNat_natCast, hsize, hstart] at hi
    have hzero : i = 0 := by
      have hone : (1 : BitVec 32).toNat = 1 := rfl
      rw [fsBlock] at hi
      dsimp only at hi
      omega
    rw [hzero, Int.toNat_natCast, hpointers 0 (by decide), if_pos rfl]
    exact ⟨by decide, by decide⟩

theorem threeBytes_keepsModel (h : s.Inv F d) (hlength : s.contents.length = 3)
    (haddress : (s.kernel.openFileTable d).address = 0x40000000)
    (hflags : (s.kernel.openFileTable d).flags = 0x21)
    (hlseek : (s.kernel.openFileTable d).lseek = 0)
    (hpointers : ∀ i < 7, (s.kernel.inodeOf d).directPointers i = if i = 0 then 7 else 0) :
    KeepsModel d s (.sysWrite 0x40000002 1 0) := by
  obtain ⟨hstart, hgrowth, hinside, hfits, -⟩ := threeBytes_write h hlength haddress hflags
    (hlseek.trans_le (by decide)) hpointers fun _ ↦ False
  have hnone : ∀ bytes, (s.kernel.seekToEnd d).growth d 1 = some bytes → False := fun bytes hb ↦ by
    rw [hgrowth] at hb
    cases hb
  rw [hlseek] at hstart
  refine ⟨Or.inr hstart, ?_, hfits, Or.inl rfl, fun bytes hb ↦ (hnone bytes hb).elim,
    hinside.buffer, ⟨fun j k hjk hk ↦ ?_, fun bytes hb ↦ (hnone bytes hb).elim⟩⟩
  · rw [hstart]
    decide
  · have hone : (1 : BitVec 32).toNat = 1 := rfl
    omega

/-- The third byte is written over the first one. -/
theorem followsModel_threeBytes : ∃ (d : ℕ) (t : Kernel),
    threeBytes.sysOpen [0x61] 0x21 0 = some ((d : ℤ), t) ∧
    Run.Meets (Editing.step d) (FollowsModel d)
        ⟨t, fileContents threeBytesDisk (diskInode threeBytesDisk oneEntrySuperblock 4), []⟩
        [.sysWrite 0x40000002 1 0] ∧
      ∀ u, Run.exec (Editing.step d)
          ⟨t, fileContents threeBytesDisk (diskInode threeBytesDisk oneEntrySuperblock 4), []⟩
          [.sysWrite 0x40000002 1 0] = some u →
        Vmm.BitmapKept threeBytes.vmm u.kernel.vmm := by
  obtain ⟨d, t, G, hcall, hG, haddress, hlseek, hflags, hof⟩ := threeBytes_inv
  have hkeeps := threeBytes_keepsModel hG rfl haddress hflags hlseek fun i hi ↦ by
    rw [hof]
    exact threeBytes_diskInode.2.2 i hi
  have hne : (threeBytes.fs.getInode [0x61]).iNumber ≠ 0 := by
    rw [threeBytes_getInode, threeBytes_diskInode.1]
    decide
  have hopens : Run.Meets Session.step (fun s ↦ s.kernel.OpensOnce) ⟨threeBytes, []⟩ [] := trivial
  have hkeeps' : Run.Meets (Editing.step d) (KeepsModel d)
      ⟨t, fileContents threeBytesDisk (threeBytes.fs.getInode [0x61]), []⟩
      [.sysWrite 0x40000002 1 0] := by
    rw [threeBytes_getInode, threeBytes_contents]
    exact ⟨hkeeps, fun _ _ ↦ trivial⟩
  have hfollows := followsModel_of_meets ⟨fun _ _ ↦ rfl, fun _ _ ↦ rfl, rfl, rfl⟩ emptyTable_wf
    emptyTable_keepsBitmap rfl hopens rfl threeBytes_opensOnce hne
    (threeBytes_getInode.symm ▸ threeBytes_ownBlocks) hcall
    hG.writable hkeeps'
  rw [threeBytes_getInode] at hfollows
  exact ⟨d, t, hcall, hfollows⟩

/-- The second write of one byte does not reach the second byte of the file. -/
theorem not_followsModel_oneByte : ∃ (d : ℕ) (t : Kernel) (u : Editing),
    threeBytes.sysOpen [0x61] 0x21 0 = some ((d : ℤ), t) ∧
    Run.exec (Editing.step d)
      ⟨t, fileContents threeBytesDisk (diskInode threeBytesDisk oneEntrySuperblock 4), []⟩
      [.sysWrite 0x40000002 1 0] = some u ∧
    ¬ FollowsModel d u (.sysWrite 0x40000002 1 0) := by
  obtain ⟨d, t, G, hcall, hG, haddress, hlseek, hflags, hof⟩ := threeBytes_inv
  have hpointers := threeBytes_diskInode.2.2
  rw [← hof] at hpointers
  have hkeeps := threeBytes_keepsModel hG rfl haddress hflags hlseek hpointers
  obtain ⟨-, -, -, -, hread⟩ := threeBytes_write hG rfl haddress hflags
    (hlseek.trans_le (by decide)) hpointers fun _ ↦ False
  obtain ⟨u, H, hwrite, hstores, -, hH⟩ := hG.sysWrite hkeeps rfl
  have hstart : t.writeStart d = 0 := by
    rw [writeStart, hflags, hlseek]
    rfl
  -- the third byte of the file is the one that is written
  have hthird : t.vmm.ram (Vmm.frameByte (G d) 2) = 0x79 := hG.holds.bytes 2 (show 2 < 3 by decide)
  have hbuffer : t.vmm.bytesAt 0x40000002 1 = [0x79] := by
    rw [Vmm.bytesAt, ByteStore.slice_succ]
    show [((t.vmm.translate 0x40000002).map t.vmm.ram).getD 0] = _
    rw [hread, Option.map_some, Option.getD_some, hthird]
  have hnew : ByteStore.writeAt [0x78, 0x7A, 0x79] 0 [0x79] = [0x79, 0x7A, 0x79] := by decide
  have hcontents : ByteStore.writeAt [0x78, 0x7A, 0x79] (t.writeStart d)
      (t.vmm.bytesAt (0x40000002 : BitVec 32).toNat (1 : BitVec 32).toNat) =
        [0x79, 0x7A, 0x79] := by
    rw [hstart]
    exact (congrArg (ByteStore.writeAt [0x78, 0x7A, 0x79] 0) hbuffer).trans hnew
  dsimp only at hwrite hH
  rw [hcontents] at hH
  have hstep : Editing.step d ⟨t, [0x78, 0x7A, 0x79], []⟩ (.sysWrite 0x40000002 1 0) =
      some ⟨u, [0x79, 0x7A, 0x79], []⟩ := by
    rw [Editing.step]
    dsimp only
    rw [hwrite, hcontents]
    rfl
  -- and it stays there when it is written once more
  obtain ⟨hsame, -⟩ := sysWrite_disk hwrite
  have hpointers' : ∀ i < 7, (u.inodeOf d).directPointers i = if i = 0 then 7 else 0 := by
    rw [(hsame.inodeOf d).2]
    exact hpointers
  obtain ⟨pages, hfile⟩ := hG.sysWrite_file hwrite
  have hlseek' : (u.openFileTable d).lseek = 1 := by
    rw [hfile, hstart]
    rfl
  obtain ⟨hstart', hgrowth', hinside', hfits', hread'⟩ := threeBytes_write hH rfl
    (by rw [hfile]; exact haddress) (by rw [hfile]; exact hflags)
    (hlseek'.trans_le (by decide)) hpointers' fun _ ↦ True
  have hlast : u.vmm.ram (Vmm.frameByte (H d) 2) = 0x79 := hH.holds.bytes 2 (show 2 < 3 by decide)
  rw [hlseek'] at hstart'
  refine ⟨d, t, ⟨u, [0x79, 0x7A, 0x79], []⟩, hcall, ?_, hH.not_stores (fun _ _ ↦ trivial) hinside'
    hfits' rfl hgrowth' ?_ ?_ ?_ (by decide) hread' ?_⟩
  · rw [threeBytes_contents]
    exact Run.exec_singleton hstep
  · rw [hstart']
    decide
  · rw [hstart']
    exact show 1 < 3 by decide
  · rw [hstart']
    exact show 1 + 1 ≤ 3 by decide
  · rw [hlast, hstart']
    exact show (0x79 : UInt8) ≠ 0x7A by decide

end Editing

end AbOS
