import AbOS.Format.Host

/-!
# Where an inode lies

Four places of the source turn the number of an inode into an address on the disk: `format_disk`
seeks by blocks, `get_inode_in_dir` divides a byte offset by the size of a sector, and
`update_inode` and `print_dir` add sectors to the first one of the table.  As long as the table lies
below 4 GiB they mean the same 64 bytes, for numbers that are multiples of eight as for all others
(`inode_placed`).
-/

set_option autoImplicit false

namespace AbOS

/-! ## Listing a directory -/

/-- Where `print_dir` looks for an inode. -/
def printAddress (superblock : Superblock) (iNumber : ℕ) : ℕ :=
  sectorAddress ((superblock.firstInodeBlock * sectorsPerBlock + iNumber / inodesPerSector) %
    2 ^ 32) + iNumber % inodesPerSector * inodeBytes

namespace Fs

/-- The loops of `print_dir`, with the number of entries printed so far: a line has a name, and says
whether it is that of a file. -/
def printEntries (fs : Fs) (totalEntries : ℕ) : List DirEntry → ℕ → List (List UInt8 × Bool)
  | [], _ => []
  | e :: entries, numEntries =>
    if numEntries < totalEntries then
      if e.iNumber ≠ 0 then
        let inode := readInode fs.disk (printAddress fs.superblock e.iNumber)
        (e.name, inode.fileType == fileTypeFile) ::
          printEntries fs totalEntries entries (numEntries + 1)
      else printEntries fs totalEntries entries numEntries
    else []

/-- The directory that `print_dir` lists.  Without a slash in the path the zero goes to address 0, and
the path stays as it is. -/
def printedDir (fs : Fs) (path : List UInt8) : Inode :=
  match strrchr path slash with
  | some 0 => fs.rootInode
  | some index => fs.getInode (path.take index)
  | none => fs.getInode path

/-- `print_dir`: the lines, or none when it returns false. -/
def printDir (fs : Fs) (path : List UInt8) : Option (List (List UInt8 × Bool)) :=
  let dirInode := fs.printedDir path
  if dirInode.fileType ≠ fileTypeDir then none
  else some (fs.printEntries (dirInode.size / dirEntryBytes) (dirEntries fs.disk dirInode) 0)

end Fs

/-- The entries in use are printed in their order, as many as the size of the directory says. -/
theorem Fs.printEntries_eq (fs : Fs) (totalEntries : ℕ) (entries : List DirEntry) (n : ℕ) :
    fs.printEntries totalEntries entries n =
      ((entries.filter fun e ↦ e.iNumber ≠ 0).take (totalEntries - n)).map fun e ↦
        (e.name, (readInode fs.disk (printAddress fs.superblock e.iNumber)).fileType ==
          fileTypeFile) := by
  induction entries generalizing n with
  | nil => simp [printEntries]
  | cons e entries ih =>
    rw [printEntries]
    split
    · obtain ⟨k, hk⟩ : ∃ k, totalEntries - n = k + 1 := ⟨totalEntries - n - 1, by omega⟩
      by_cases he : e.iNumber = 0
      · simp [he, ih]
      · simp [he, ih, hk, show totalEntries - (n + 1) = k by omega]
    · rw [Nat.sub_eq_zero_of_le (by omega), List.take_zero, List.map_nil]

/-! ## One place for each number -/

/-- Where `get_inode_in_dir` looks for an inode. -/
def lookupAddress (superblock : Superblock) (iNumber : ℕ) : ℕ :=
  sectorAddress (inodeSector superblock iNumber) + iNumber % inodesPerSector * inodeBytes

theorem diskInode_eq (disk : ByteStore) (superblock : Superblock) (iNumber : ℕ) :
    diskInode disk superblock iNumber = readInode disk (lookupAddress superblock iNumber) := rfl

/-- The inodes lie one behind the other. -/
def slotAddress (superblock : Superblock) (iNumber : ℕ) : ℕ :=
  superblock.firstInodeBlock * fsBlock + iNumber * inodeBytes

/-- The slot of the inode ends within 4 GiB. -/
def SlotFits (superblock : Superblock) (iNumber : ℕ) : Prop :=
  superblock.firstInodeBlock * fsBlock + (iNumber + 1) * inodeBytes ≤ 2 ^ 32

section Placement

variable {superblock : Superblock} {i j : ℕ}

theorem seekInode_eq (h : SlotFits superblock i) :
    seekInode superblock i = slotAddress superblock i := by
  rw [SlotFits, fsBlock, inodeBytes] at h
  rw [seekInode, slotAddress, inodesPerBlock, fsBlock, inodeBytes]
  rw [Nat.mod_eq_of_lt (show (superblock.firstInodeBlock + i / (4096 / 64)) * 4096 < 2 ^ 32 by omega)]
  omega

theorem lookupAddress_eq (h : SlotFits superblock i) :
    lookupAddress superblock i = slotAddress superblock i := by
  rw [SlotFits, fsBlock, inodeBytes] at h
  rw [lookupAddress, sectorAddress, inodeSector, slotAddress, inodesPerSector]
  rw [fsBlock, inodeBytes, fsSector]
  rw [Nat.mod_eq_of_lt (show i * 64 + superblock.firstInodeBlock * 4096 < 2 ^ 32 by omega),
    Nat.mod_eq_of_lt (show (i * 64 + superblock.firstInodeBlock * 4096) / 512 < 2 ^ 28 by omega)]
  omega

theorem inodeAddress_eq_slot (h : SlotFits superblock i) :
    inodeAddress superblock i = slotAddress superblock i :=
  inodeAddress_eq (by rw [SlotFits, fsBlock, inodeBytes] at *; omega)

/-- `print_dir` computes the sector as `update_inode` does. -/
theorem printAddress_eq (superblock : Superblock) (i : ℕ) :
    printAddress superblock i = inodeAddress superblock i := rfl

theorem slotAddress_apart (hne : i ≠ j) :
    slotAddress superblock i + inodeBytes ≤ slotAddress superblock j ∨
      slotAddress superblock j + inodeBytes ≤ slotAddress superblock i := by
  simp only [slotAddress, inodeBytes]
  omega

theorem updateInode_eq_slot (disk : ByteStore) {n : Inode} (h : SlotFits superblock n.iNumber) :
    updateInode disk superblock n = disk.splice (slotAddress superblock n.iNumber) n.bytes := by
  rw [updateInode_eq, inodeAddress_eq_slot h]

/-- An inode that has been written is read back. -/
theorem diskInode_updateInode (disk : ByteStore) {n : Inode} (h : SlotFits superblock n.iNumber) :
    (diskInode (updateInode disk superblock n) superblock n.iNumber).bytes = n.bytes := by
  rw [diskInode_eq, lookupAddress_eq h, bytes_readInode, updateInode_eq_slot disk h,
    ← n.length_bytes, ByteStore.slice_splice_self]

/-- The slots of other inodes stay. -/
theorem slice_updateInode (disk : ByteStore) {n : Inode} (h : SlotFits superblock n.iNumber)
    (hj : j ≠ n.iNumber) :
    (updateInode disk superblock n).slice (slotAddress superblock j) inodeBytes =
      disk.slice (slotAddress superblock j) inodeBytes := by
  rw [updateInode_eq_slot disk h]
  refine ByteStore.slice_splice_of_apart ?_
  rw [n.length_bytes]
  exact slotAddress_apart hj

/-- A lookup that finds an entry reads the inode of its number. -/
theorem getInodeInDir_of_find {disk : ByteStore} {dir : Inode} {name : List UInt8} {e : DirEntry}
    (h : (dirEntries disk dir).find? (fun e ↦ e.iNumber != 0 && e.name == name) = some e) :
    getInodeInDir disk superblock dir name = diskInode disk superblock e.iNumber := by
  rw [getInodeInDir, h]

/-- **One inode, one place.**  All four agree about the place, no two inodes share one, and what
`update_inode` writes is what a lookup of the number returns, and changes no other inode. -/
theorem inode_placed (h : SlotFits superblock i) :
    (seekInode superblock i = slotAddress superblock i ∧
      lookupAddress superblock i = slotAddress superblock i ∧
      inodeAddress superblock i = slotAddress superblock i ∧
      printAddress superblock i = slotAddress superblock i) ∧
    (∀ j, j ≠ i → slotAddress superblock i + inodeBytes ≤ slotAddress superblock j ∨
      slotAddress superblock j + inodeBytes ≤ slotAddress superblock i) ∧
    ∀ (disk : ByteStore) (n : Inode), n.iNumber = i →
      (∀ dir name e, (dirEntries (updateInode disk superblock n) dir).find?
          (fun e ↦ e.iNumber != 0 && e.name == name) = some e → e.iNumber = i →
        (getInodeInDir (updateInode disk superblock n) superblock dir name).bytes = n.bytes) ∧
      ∀ j, j ≠ i → (updateInode disk superblock n).slice (slotAddress superblock j) inodeBytes =
        disk.slice (slotAddress superblock j) inodeBytes := by
  refine ⟨⟨seekInode_eq h, lookupAddress_eq h, inodeAddress_eq_slot h,
    (printAddress_eq ..).trans (inodeAddress_eq_slot h)⟩, fun j hj ↦ slotAddress_apart hj.symm,
    fun disk n hn ↦ ?_⟩
  subst hn
  refine ⟨fun dir name e hfind he ↦ ?_, fun j hj ↦ slice_updateInode disk h hj⟩
  rw [getInodeInDir_of_find hfind, he]
  exact diskInode_updateInode disk h

end Placement

/-- Inode 8 is the first one of the second sector, also on an image of the formatter. -/
theorem inode_placed_eight :
    seekInode (writeSuperblock ⟨20, 30⟩) 8 = lookupAddress (writeSuperblock ⟨20, 30⟩) 8 ∧
      inodeAddress (writeSuperblock ⟨20, 30⟩) 8 = 4 * fsBlock + fsSector :=
  have h := (inode_placed (show SlotFits (writeSuperblock ⟨20, 30⟩) 8 by rw [SlotFits]; decide)).1
  ⟨h.1.trans h.2.1.symm, h.2.2.1⟩

end AbOS
