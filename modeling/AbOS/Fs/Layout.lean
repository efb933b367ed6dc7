import Mathlib.Algebra.GroupWithZero.Nat
import Mathlib.Data.Nat.Basic

/-!
# Sizes of the file system

The constants of `fs.h`, and `bytes_to_blocks`, which the formatter and the kernel both use to turn
the size of a file into a number of blocks.
-/

set_option autoImplicit false

namespace AbOS

/-- `FS_BLOCK`: the bytes of a block. -/
def fsBlock : ℕ := 4096

/-- `FS_SECTOR`: the bytes of a sector. -/
def fsSector : ℕ := 512

/-- `SECTORS_PER_BLOCK`. -/
def sectorsPerBlock : ℕ := 8

/-- The whole sectors of a file, and the rest as one more. -/
def bytesToSectors (bytes : ℕ) : ℕ :=
  if bytes % fsSector > 0 then bytes / fsSector + 1 else bytes / fsSector

/-- `bytes_to_blocks`. -/
def bytesToBlocks (bytes : ℕ) : ℕ :=
  if bytesToSectors bytes % sectorsPerBlock > 0 then bytesToSectors bytes / sectorsPerBlock + 1
  else bytesToSectors bytes / sectorsPerBlock

/-- `bytes_to_blocks` rounds up. -/
theorem bytesToBlocks_eq (bytes : ℕ) : bytesToBlocks bytes = (bytes + 4095) / 4096 := by
  rw [bytesToBlocks, bytesToSectors, fsSector, sectorsPerBlock]
  split <;> split <;> omega

end AbOS
