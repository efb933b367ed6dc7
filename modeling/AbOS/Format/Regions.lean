import AbOS.Format.Host
import AbOS.Lib.Extent

/-!
# The regions of the disk

`write_superblock` lays the disk out: a boot block, the superblock, the two bitmaps, the inode table
and the data.  The bitmaps round up to whole blocks.  The inode table does not: the inodes behind
the last full block of 64 have their slots in the first data block.

`regionsFit_iff` says which numbers of files leave the regions as they should be, on a disk that has
room for the data.
-/

set_option autoImplicit false

namespace AbOS

/-- The blocks of the disk. -/
def diskBlocks : ℕ := bytesToBlocks diskSize

/-- Boot block, superblock, inode bitmap, data bitmap, inode table and data. -/
def regions (s : Superblock) : List Extent :=
  [⟨0, 1⟩, ⟨1, 1⟩, ⟨s.firstInodeBitmapBlock, s.numInodesBitmap⟩,
    ⟨s.firstDataBitmapBlock, s.numDataBitmap⟩,
    ⟨s.firstInodeBlock, s.firstDataBlock - s.firstInodeBlock⟩,
    ⟨s.firstDataBlock, diskBlocks - s.firstDataBlock⟩]

/-- The data of all files ends on the disk. -/
def LayoutFits (info : FileInfo) : Prop :=
  (writeSuperblock info).firstDataBlock + info.fileBlocks ≤ diskBlocks

instance (info : FileInfo) : Decidable (LayoutFits info) := inferInstanceAs (Decidable (_ ≤ _))

/-- The regions lie one behind the other and do not overlap, each inode has its slot in the inode
table, the bitmaps have a bit for each inode and each data block, and the number of data blocks is
not below zero. -/
structure RegionsFit (s : Superblock) : Prop where
  consecutive : Extent.Tiles 0 (regions s) diskBlocks
  disjoint : (regions s).Pairwise Extent.Apart
  slots : ∀ i < s.numInodes, s.firstInodeBlock * fsBlock ≤ seekInode s i ∧
    seekInode s i + inodeBytes ≤ s.firstDataBlock * fsBlock
  inodeBits : s.numInodes ≤ s.numInodesBitmap * (fsBlock * 8)
  dataBits : diskBlocks - s.firstDataBlock ≤ s.numDataBitmap * (fsBlock * 8)
  noWrap : s.firstDataBitmapBlock + s.numInodeBlocks + 1 ≤ diskBlocks

theorem diskBlocks_eq : diskBlocks = 360 := by decide

section Layout

variable {info : FileInfo} {n : ℕ}

/-- The rounding up of the bitmaps. -/
theorem blocks_roundUp (n : ℕ) :
    n / 32768 + (if n % 32768 ≠ 0 then 1 else 0) = (n + 32767) / 32768 := by
  split <;> omega

/-- The 32-bit number of data blocks, when `a` blocks are in front of the data bitmap and `t` in the
table. -/
theorem dataBlocks_eq {a t : ℕ} (h : a + t ≤ 360) :
    (360 + 2 ^ 33 - a - t - 1) % 2 ^ 32 = if a + t = 360 then 2 ^ 32 - 1 else 359 - (a + t) := by
  split <;> omega

/-- The fields of the superblock, in numbers. -/
theorem writeSuperblock_fields (hn : (info.numFiles + 2) % 2 ^ 32 = n) :
    let s := writeSuperblock info
    s.numInodes = n ∧ s.numInodesBitmap = (n + 32767) / 32768 ∧ s.firstInodeBitmapBlock = 2 ∧
      s.firstDataBitmapBlock = 2 + s.numInodesBitmap ∧ s.numInodeBlocks = n / 64 ∧
      s.numDataBitmap = ((360 + 2 ^ 33 - s.firstDataBitmapBlock - n / 64 - 1) % 2 ^ 32 + 32767) /
        32768 ∧
      s.firstInodeBlock = s.firstDataBitmapBlock + s.numDataBitmap ∧
      s.firstDataBlock = s.firstInodeBlock + n / 64 := by
  subst hn
  have hblocks : bytesToBlocks diskSize = 360 := diskBlocks_eq
  have hper : inodesPerBlock = 64 := by decide
  have hbits : fsBlock * 8 = 32768 := by decide
  simp only [writeSuperblock, hblocks, hper, hbits, blocks_roundUp, and_self]

/-- On a disk with room for the table and the bitmaps there is no wrapping, and one block of data
bitmap is enough.  It is missing when no data block is left but the one that the table should have
taken. -/
theorem numDataBitmap_of_fits (hn : (info.numFiles + 2) % 2 ^ 32 = n) (hfits : LayoutFits info) :
    (n + 32767) / 32768 + n / 64 + 3 ≤ 360 ∧
      (writeSuperblock info).numDataBitmap =
        if (n + 32767) / 32768 + n / 64 + 3 = 360 then 0 else 1 := by
  obtain ⟨-, hib, -, hdb, -, hdata, hfi, hfd⟩ := writeSuperblock_fields hn
  rw [LayoutFits, diskBlocks_eq] at hfits
  rw [dataBlocks_eq (by omega)] at hdata
  -- a number of data blocks that wraps would need a bitmap that does not fit
  split at hdata <;> split <;> omega

/-- **When the regions do not overlap**: if the inodes fill their blocks, and the disk is not so full
of them that the data bitmap has no block. -/
theorem regionsFit_iff (hfits : LayoutFits info) :
    RegionsFit (writeSuperblock info) ↔
      (info.numFiles + 2) % 64 = 0 ∧ (info.numFiles + 2) % 2 ^ 32 ≠ 22784 := by
  obtain ⟨n, hn⟩ : ∃ n, (info.numFiles + 2) % 2 ^ 32 = n := ⟨_, rfl⟩
  obtain ⟨hnum, hib, hfib, hdb, hblocks, -, hfi, hfd⟩ := writeSuperblock_fields hn
  obtain ⟨hroom, hdata⟩ := numDataBitmap_of_fits hn hfits
  have hmod : (info.numFiles + 2) % 64 = n % 64 := by omega
  rw [hmod, hn]
  have hseek : ∀ i < n, seekInode (writeSuperblock info) i =
      ((writeSuperblock info).firstInodeBlock + i / 64) * 4096 + i % 64 * 64 := fun i hi ↦ by
    have hper : inodesPerBlock = 64 := by decide
    rw [seekInode, hper, fsBlock, inodeBytes, Nat.mod_eq_of_lt]
    split at hdata <;> omega
  constructor
  · intro h
    constructor
    · -- the last inode has its slot in the table
      by_contra hrest
      have hslot := (h.slots (n - 1) (by omega)).2
      rw [hseek _ (by omega), inodeBytes, fsBlock] at hslot
      omega
    · rintro rfl
      have hbits := h.dataBits
      rw [hdata, diskBlocks_eq, fsBlock] at hbits
      rw [if_pos (by decide)] at hdata hbits
      omega
  · rintro ⟨hfull, hne⟩
    have hone : (writeSuperblock info).numDataBitmap = 1 := by
      rw [hdata, if_neg (by omega)]
    have htiles : Extent.Tiles 0 (regions (writeSuperblock info)) diskBlocks := by
      simp only [regions, Extent.Tiles, diskBlocks_eq]
      exact ⟨trivial, trivial, hfib, by omega, by omega, by omega, by omega⟩
    refine ⟨htiles, htiles.pairwise, fun i hi ↦ ?_, ?_, ?_, ?_⟩
    · rw [hnum] at hi
      rw [hseek i hi, inodeBytes, fsBlock]
      omega
    · rw [hnum, hib, fsBlock]
      omega
    · rw [diskBlocks_eq, hone, fsBlock]
      omega
    · rw [diskBlocks_eq]
      omega

theorem regionsFit_62 : RegionsFit (writeSuperblock ⟨62, 100⟩) :=
  (regionsFit_iff (by decide)).mpr (by decide)

/-- With one file the root's inode lies in the first data block. -/
theorem not_regionsFit_1 :
    LayoutFits ⟨1, 2⟩ ∧ ¬ RegionsFit (writeSuperblock ⟨1, 2⟩) := by
  refine ⟨by decide, fun h ↦ ?_⟩
  have hslot := (h.slots 1 (by decide)).2
  exact absurd hslot (by decide)

end Layout

end AbOS
