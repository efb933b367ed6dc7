import AbOS.Format.Image
import AbOS.Format.Numbers
import AbOS.Format.Regions
import AbOS.Fs.Placement

/-!
# Trees whose image can be read

The inodes, directories and contents of a tree must not lie on top of each other.  `Readable` collects
what a tree needs for that: the numbers of the kernel's two files once each, the hole for the kernel,
names that fit into an entry, and an inode table without a partial block, because the formatter gives
the rest of the inodes to the first data block.

Then every file and directory has its place (`Readable.sound`), and no two have a byte in common
(`Readable.separate`).
-/

set_option autoImplicit false

namespace AbOS

/-- The superblock that the formatter writes for a tree. -/
def treeSuperblock (entries : List Host) : Superblock := writeSuperblock (getFileInfo entries)

/-- A tree that fits, with names of 59 bytes at most, no second entry with a name of the kernel's
files, nothing in the hole but the kernel, and a number of inodes that fills the blocks of the
table. -/
structure Readable (entries : List Host) : Prop extends IsHostTree entries, FitsDisk entries where
  short : EntryNamesFit entries
  prekernels : (treeNames entries).countP isPrekernel = 1
  kernels : (treeNames entries).count kernelBin = 1
  few : (treeNames entries).length + 2 < 2 ^ 32
  table : ((treeNames entries).length + 2) % inodesPerBlock = 0
  hole : KeepsHole entries

/-- A file or directory with a slot of the inode table and blocks of its own behind it. -/
structure Placed.Sound (s : Superblock) (p : Placed) : Prop where
  pos : 0 < p.iNumber
  number : p.iNumber < s.numInodes
  fits : SlotFits s p.iNumber
  slot : slotAddress s p.iNumber + inodeBytes ≤ s.firstDataBlock * fsBlock
  blocks : ∃ b k, k ≤ 7 ∧ p.blocks = List.range' b k ∧ s.firstDataBlock ≤ b ∧ b + k ≤ diskBlocks

/-! ## Which bytes belong to a file -/

/-- Blocks that follow each other on the disk lie where their numbers say. -/
theorem Placed.inBlocks_iff_of_range {p : Placed} {b k x : ℕ} (hblocks : p.blocks = List.range' b k)
    (hend : b + k ≤ diskBlocks) : p.InBlocks x ↔ x / fsBlock ∈ p.blocks := by
  rw [diskBlocks_eq] at hend
  rw [Placed.InBlocks, Placed.start, hblocks, List.length_range', List.mem_range'_1, fsBlock]
  rcases Nat.eq_zero_or_pos k with rfl | hpos
  · omega
  · rw [List.getD_eq_getElem _ _ (by rw [List.length_range']; exact hpos), List.getElem_range']
    rw [Nat.mod_eq_of_lt (by omega)]
    omega

namespace Placed.Sound

variable {s : Superblock} {p q : Placed} {x : ℕ}

theorem inSlot_iff (h : p.Sound s) :
    p.InSlot s x ↔ slotAddress s p.iNumber ≤ x ∧ x < slotAddress s p.iNumber + inodeBytes := by
  rw [Placed.InSlot, seekInode_eq h.fits]

/-- The blocks lie where their numbers say. -/
theorem inBlocks_iff (h : p.Sound s) : p.InBlocks x ↔ x / fsBlock ∈ p.blocks := by
  obtain ⟨b, k, hk, hblocks, -, hend⟩ := h.blocks
  exact inBlocks_iff_of_range hblocks hend

theorem split (h : p.Sound s) : p.Split s := fun x hslot hblocks ↦ by
  obtain ⟨b, k, -, heq, hle, -⟩ := h.blocks
  have hmem := h.inBlocks_iff.mp hblocks
  have hlt := (h.inSlot_iff.mp hslot).2
  have hend := h.slot
  rw [heq, List.mem_range'_1] at hmem
  rw [fsBlock] at hmem hend
  omega

/-- Other numbers and other blocks: no byte in common. -/
theorem apart (hp : p.Sound s) (hq : q.Sound s) (hne : p.iNumber ≠ q.iNumber)
    (hblocks : ∀ b ∈ p.blocks, b ∉ q.blocks) : Placed.Apart s p q := by
  have hslotBlocks : ∀ {p q : Placed}, p.Sound s → q.Sound s → ∀ x, p.InSlot s x →
      ¬ q.InBlocks x := fun {p q} hp hq x hslot hx ↦ by
    obtain ⟨b, k, -, heq, hle, -⟩ := hq.blocks
    have hmem := hq.inBlocks_iff.mp hx
    have hlt := (hp.inSlot_iff.mp hslot).2
    have hend := hp.slot
    rw [heq, List.mem_range'_1] at hmem
    rw [fsBlock] at hmem hend
    omega
  rintro x (hx | hx) (hx' | hx')
  · have hx := hp.inSlot_iff.mp hx
    have hx' := hq.inSlot_iff.mp hx'
    have happart := @slotAddress_apart s _ _ hne
    omega
  · exact hslotBlocks hp hq x hx hx'
  · exact hslotBlocks hq hp x hx' hx
  · exact hblocks _ (hp.inBlocks_iff.mp hx) (hq.inBlocks_iff.mp hx')

end Placed.Sound

/-! ## The blocks of a tree -/

theorem mem_assign {its : List Item} {c : ℕ} {r : Item × List ℕ} (hr : r ∈ assign c its) :
    r.1 ∈ its ∧ ∃ c', r.2 = blocksFrom (r.1.start c') r.1.count := by
  induction its generalizing c with
  | nil => exact absurd hr List.not_mem_nil
  | cons it its ih =>
    rcases List.mem_cons.mp hr with rfl | hr
    · exact ⟨List.mem_cons_self, c, rfl⟩
    · obtain ⟨hmem, hrest⟩ := ih hr
      exact ⟨List.mem_cons_of_mem _ hmem, hrest⟩

/-- The blocks of a file or directory: seven at most, that follow each other, and those of the kernel
from 7 on. -/
theorem IsHostTree.placed_blocks {entries : List Host} (h : IsHostTree entries) {p : Placed}
    (hp : p ∈ (formatTree entries).placed) : ∃ b k, k ≤ 7 ∧ p.blocks = blocksFrom b k ∧
      (p.path = [kernelBin] → p.fileType = fileTypeFile → b = 7) := by
  have hmem : p.owner ∈ (formatTree entries).placed.map Placed.owner := List.mem_map.mpr ⟨p, hp, rfl⟩
  rw [(formatTree_owners entries).2] at hmem
  obtain ⟨r, hr, howner⟩ := List.mem_map.mp hmem
  obtain ⟨hit, c, hblocks⟩ := mem_assign hr
  obtain ⟨hpath, hrest⟩ := Prod.mk.inj howner
  obtain ⟨htype, hown⟩ := Prod.mk.inj hrest
  have hsized := h.sized _ hit
  refine ⟨r.1.start c, r.1.count, hsized.count, hown.symm.trans hblocks, fun hk hfile ↦ ?_⟩
  rw [Item.start, if_pos (hsized.kernel (htype.trans hfile) (by rw [hpath, hk]; rfl))]

/-- Blocks that lie on the disk do not wrap. -/
theorem blocksFrom_eq_range' {b k : ℕ} (hk : k ≤ 7)
    (h : ∀ x ∈ blocksFrom b k, x < diskBlocks) : blocksFrom b k = List.range' (b % 2 ^ 32) k := by
  rw [diskBlocks_eq] at h
  have hmem : ∀ i < k, (b + i) % 2 ^ 32 < 360 := fun i hi ↦
    h _ (List.mem_map.mpr ⟨i, List.mem_range.mpr hi, rfl⟩)
  refine List.ext_getElem (by simp [blocksFrom]) fun i h₁ h₂ ↦ ?_
  rw [List.length_range'] at h₂
  have h0 := hmem 0 (by omega)
  have hi := hmem i h₂
  rw [List.getElem_range']
  simp only [blocksFrom, List.getElem_map, List.getElem_range]
  omega

/-- The blocks follow each other on the disk. -/
theorem IsHostTree.placed_range {entries : List Host} (h : IsHostTree entries)
    (hfit : FitsDisk entries) {p : Placed} (hp : p ∈ (formatTree entries).placed) :
    ∃ b k, k ≤ 7 ∧ p.blocks = List.range' b k ∧ b + k ≤ diskBlocks := by
  obtain ⟨b, k, hk, hblocks, -⟩ := h.placed_blocks hp
  have hdisk : ∀ x ∈ p.blocks, x < diskBlocks := fun x hx ↦ hfit.blocks x ⟨p, hp, hx⟩
  rcases Nat.eq_zero_or_pos k with rfl | hpos
  · exact ⟨0, 0, hk, hblocks, Nat.zero_le _⟩
  · have hrange := hblocks.trans (blocksFrom_eq_range' hk fun x hx ↦ hdisk x (hblocks ▸ hx))
    have hlast : b % 2 ^ 32 + (k - 1) ∈ p.blocks := by
      rw [hrange]
      exact List.mem_range'_1.mpr ⟨by omega, by omega⟩
    have := hdisk _ hlast
    exact ⟨b % 2 ^ 32, k, hk, hrange, by omega⟩

/-- The blocks in which the contents lie are among those that are set aside. -/
theorem IsHostTree.blocks_subset_owns {entries : List Host} (h : IsHostTree entries) {p : Placed}
    (hp : p ∈ (formatTree entries).placed) : ∀ b ∈ p.blocks, b ∈ p.owns := by
  intro b hb
  rw [Placed.owns]
  split_ifs with hK
  · obtain ⟨b', k, hk, hblocks, hkernel⟩ := h.placed_blocks hp
    rw [hblocks, hkernel hK.1 hK.2] at hb
    obtain ⟨i, hi, rfl⟩ := List.mem_map.mp hb
    have := List.mem_range.mp hi
    exact List.mem_map.mpr ⟨i, List.mem_range.mpr (by omega), rfl⟩
  · exact hb

/-- Slots in front of block 7 are within 4 GiB. -/
theorem slotFits_of_le {s : Superblock} {i d : ℕ} (hd : d ≤ 7)
    (h : slotAddress s i + inodeBytes ≤ d * fsBlock) : SlotFits s i := by
  rw [SlotFits, Nat.succ_mul, ← Nat.add_assoc]
  exact Nat.le_trans h (Nat.le_trans (Nat.mul_le_mul_right fsBlock hd) (by decide))

namespace Readable

variable {entries : List Host} (h : Readable entries)
include h

theorem numInodes : (treeSuperblock entries).numInodes = (treeNames entries).length + 2 := by
  rw [treeSuperblock, numInodes_eq, Nat.mod_eq_of_lt h.few]

omit h in
theorem superblock_eq : (formatTree entries).superblock = treeSuperblock entries :=
  (formatTree_owners entries).1

theorem unique : UniqueNumbers entries := uniqueNumbers_of_once h.prekernels h.kernels h.few

theorem oneOwner : OneOwner entries := h.toIsHostTree.oneOwner h.hole

/-- The data begins in front of the hole, right behind the last slot of the table. -/
theorem firstDataBlock : (treeSuperblock entries).firstDataBlock ≤ 7 ∧
    (treeSuperblock entries).firstDataBlock * fsBlock =
      (treeSuperblock entries).firstInodeBlock * fsBlock +
        (treeSuperblock entries).numInodes * inodeBytes := by
  refine ⟨superblock_eq ▸ h.hole.hole.le, ?_⟩
  have hfirst : (treeSuperblock entries).firstDataBlock = (treeSuperblock entries).firstInodeBlock +
    (treeSuperblock entries).numInodes / inodesPerBlock := rfl
  have htable := h.table
  rw [← h.numInodes] at htable
  rw [hfirst, inodesPerBlock, inodeBytes, fsBlock] at *
  omega

/-- **Every file and directory has its place.** -/
theorem sound : ∀ p ∈ (formatTree entries).placed, p.Sound (treeSuperblock entries) := by
  intro p hp
  obtain ⟨hle, hdata⟩ := h.firstDataBlock
  have hnum : p.iNumber < (treeSuperblock entries).numInodes := h.unique.inRange p hp
  have hslot : slotAddress (treeSuperblock entries) p.iNumber + inodeBytes ≤
      (treeSuperblock entries).firstDataBlock * fsBlock := by
    rw [slotAddress, hdata, inodeBytes]
    omega
  refine ⟨Nat.pos_of_ne_zero (h.unique.nonzero p hp), hnum, slotFits_of_le hle hslot, hslot, ?_⟩
  obtain ⟨b, k, hk, hrange, hend⟩ := h.toIsHostTree.placed_range h.toFitsDisk hp
  rcases Nat.eq_zero_or_pos k with rfl | hpos
  · exact ⟨7, 0, hk, hrange, hle, by rw [diskBlocks_eq]; omega⟩
  · refine ⟨b, k, hk, hrange, ?_, hend⟩
    have hfirst : b ∈ p.blocks := by
      rw [hrange]
      exact List.mem_range'_1.mpr ⟨Nat.le_refl _, by omega⟩
    rw [← superblock_eq]
    exact h.oneOwner.data b (List.mem_flatMap.mpr
      ⟨p, hp, h.toIsHostTree.blocks_subset_owns hp b hfirst⟩)

/-- **No two of them have a byte in common.** -/
theorem separate : Separate (treeSuperblock entries) (formatTree entries).placed := by
  refine ⟨fun p hp ↦ (h.sound p hp).split, ?_⟩
  have hnumbers : (formatTree entries).placed.Pairwise fun p q ↦ p.iNumber ≠ q.iNumber :=
    List.pairwise_map.mp h.unique.distinct
  have hblocks : (formatTree entries).placed.Pairwise fun p q ↦ List.Disjoint p.owns q.owns :=
    (List.nodup_flatMap.mp h.oneOwner.distinct).2
  refine (hnumbers.and hblocks).imp_of_mem fun {p q} hp hq hpq ↦
    (h.sound p hp).apart (h.sound q hq) hpq.1 fun b hb hb' ↦ ?_
  exact hpq.2 (h.toIsHostTree.blocks_subset_owns hp b hb)
    (h.toIsHostTree.blocks_subset_owns hq b hb')

/-- **The tree is stored on the image.** -/
theorem stored (base : ByteStore) : (Host.dir [] entries).Stored (treeImage base entries)
    (treeSuperblock entries) 1 1 (formatTree entries).placed :=
  treeImage_stored h.root h.fits h.short h.separate base

end Readable

end AbOS
