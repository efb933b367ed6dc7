import AbOS.Format.Readable

/-!
# How much a disk holds

The formatter does not look whether a tree fits on the disk.  If it does, the tree is small: every
directory takes a block for 64 of its entries, so that the files and directories are fewer than 64
times the blocks that are left for them (`FitsDisk.names_le`).

Then the superblock says what was meant (`FitsDisk.regions`): each bitmap takes one block, the inode
table begins in block 4, and nothing of the tree comes in front of it (`FitsDisk.treeImage_front`).

* `Item.next_onDisk` — how far the formatter gets with one item.
* `FitsDisk.totalCount_le` — the blocks of a tree, without those of its kernels.
-/

set_option autoImplicit false

namespace AbOS

/-! ## Blocks -/

/-- An item whose blocks lie on the disk moves the next free block on by as much as it takes. -/
theorem Item.next_onDisk {it : Item} {c : ℕ} (hpos : 0 < c) (hc : c ≤ diskBlocks)
    (hcount : it.count ≤ 7) (hlow : ∀ b ∈ blocksFrom (it.start c) it.count, b < diskBlocks) :
    c ≤ it.next c ∧ it.next c ≤ diskBlocks ∧ (it.kernel = false → c + it.count ≤ it.next c) ∧
      ∀ b ∈ blocksFrom (it.start c) it.count, min c 7 ≤ b := by
  rw [diskBlocks_eq] at *
  cases hk : it.kernel with
  | true =>
    have hstart : it.start c = 7 := by rw [Item.start, if_pos hk]
    have hnext : it.next c = c := by rw [Item.next, if_pos ⟨hk, by omega⟩]
    rw [hnext, hstart]
    refine ⟨Nat.le_refl c, hc, fun h ↦ Bool.noConfusion h, fun b hb ↦ ?_⟩
    obtain ⟨i, hi, rfl⟩ := List.mem_map.mp hb
    have := List.mem_range.mp hi
    omega
  | false =>
    have hkf : ¬ it.kernel = true := by rw [hk]; decide
    have hle := (Item.start_le hk c).1
    have hjump : it.start c ≤ c + 7 ∧ (it.start c = c ∨ c ≤ 13) := by
      rw [Item.start, if_neg hkf]
      split_ifs <;> omega
    have hnext : it.next c = it.start c + it.count := by
      rw [Item.next, if_neg fun h ↦ hkf h.1, Nat.mod_eq_of_lt (by omega)]
    have hend : it.start c + it.count ≤ 360 := by
      rcases Nat.eq_zero_or_pos it.count with hzero | hsome
      · omega
      · have hlast := hlow _ (List.mem_map.mpr
          ⟨it.count - 1, List.mem_range.mpr (by omega), rfl⟩)
        rw [Nat.mod_eq_of_lt (by omega)] at hlast
        omega
    rw [hnext]
    refine ⟨by omega, hend, fun _ ↦ by omega, fun b hb ↦ ?_⟩
    obtain ⟨i, hi, rfl⟩ := List.mem_map.mp hb
    have := List.mem_range.mp hi
    rw [Nat.mod_eq_of_lt (by omega)]
    omega

section Items

variable {its : List Item} (hcount : ∀ it ∈ its, it.count ≤ 7)
include hcount

/-- **Blocks on the disk are not more than are left there.** -/
theorem totalCount_le_of_onDisk {c : ℕ} (hpos : 0 < c) (hc : c ≤ diskBlocks)
    (hlow : ∀ r ∈ assign c its, ∀ b ∈ r.2, b < diskBlocks) :
    c + totalCount (plainItems its) ≤ diskBlocks := by
  induction its generalizing c with
  | nil => exact hc
  | cons it its ih =>
    rw [assign] at hlow
    obtain ⟨hle, hnext, hplain, -⟩ := Item.next_onDisk hpos hc (hcount it List.mem_cons_self)
      (hlow _ List.mem_cons_self)
    have hrest := ih (fun it hit ↦ hcount it (List.mem_cons_of_mem _ hit)) (c := it.next c)
      (by omega) hnext fun r hr ↦ hlow r (List.mem_cons_of_mem _ hr)
    cases hk : it.kernel with
    | true =>
      rw [plainItems_cons_of_kernel hk]
      omega
    | false =>
      have := hplain hk
      rw [plainItems_cons_of_not_kernel hk, totalCount_cons]
      omega

/-- They lie behind the first free one, or in the hole. -/
theorem le_of_mem_assign_onDisk {c : ℕ} (hpos : 0 < c) (hc : c ≤ diskBlocks)
    (hlow : ∀ r ∈ assign c its, ∀ b ∈ r.2, b < diskBlocks) :
    ∀ r ∈ assign c its, ∀ b ∈ r.2, min c 7 ≤ b := by
  induction its generalizing c with
  | nil => exact fun r hr ↦ absurd hr List.not_mem_nil
  | cons it its ih =>
    rw [assign] at hlow ⊢
    obtain ⟨hle, hnext, -, hfirst⟩ := Item.next_onDisk hpos hc (hcount it List.mem_cons_self)
      (hlow _ List.mem_cons_self)
    have hrest := ih (fun it hit ↦ hcount it (List.mem_cons_of_mem _ hit)) (c := it.next c)
      (by omega) hnext fun r hr ↦ hlow r (List.mem_cons_of_mem _ hr)
    intro r hr b hb
    rcases List.mem_cons.mp hr with rfl | hr
    · exact hfirst b hb
    · exact Nat.le_trans (by omega) (hrest r hr b hb)

end Items

/-! ## Names -/

theorem totalCount_plainItems_append (its its' : List Item) :
    totalCount (plainItems (its ++ its')) =
      totalCount (plainItems its) + totalCount (plainItems its') := by
  induction its with
  | nil => exact (Nat.zero_add _).symm
  | cons it its ih =>
    rw [List.cons_append]
    cases hk : it.kernel with
    | true => rw [plainItems_cons_of_kernel hk, plainItems_cons_of_kernel hk, ih]
    | false =>
      rw [plainItems_cons_of_not_kernel hk, plainItems_cons_of_not_kernel hk, totalCount_cons,
        totalCount_cons, ih, Nat.add_assoc]

/-- A directory has a block for 64 entries. -/
theorem entries_le_of_fits {n : ℕ} (h : (2 + n) * dirEntryBytes ≤ 7 * fsBlock) :
    n + 2 ≤ 64 * bytesToBlocks (dirSize n) := by
  rw [dirSize_eq h, bytesToBlocks_eq, dirEntryBytes]
  omega

mutual

/-- What is below an entry takes a block for 64 of its items. -/
theorem Host.length_items_le (path : HostPath) : ∀ h : Host, h.Fits →
    (h.items path).length ≤ 1 + 64 * totalCount (plainItems (h.items path))
  | .file name contents, _ => by
    rw [Host.items, List.length_singleton]
    exact Nat.le_add_right ..
  | .dir name entries, hfit => by
    rw [Host.Fits] at hfit
    rw [Host.items, List.length_cons, plainItems_cons_of_not_kernel rfl, totalCount_cons]
    have hdir := entries_le_of_fits hfit.1
    have hbelow := length_entriesItems_le (path ++ [name]) entries hfit.2
    dsimp only
    omega

/-- The same for a list of entries. -/
theorem length_entriesItems_le (path : HostPath) : ∀ entries : List Host, EntriesFit entries →
    (entriesItems path entries).length ≤
      entries.length + 64 * totalCount (plainItems (entriesItems path entries))
  | [], _ => by
    rw [entriesItems]
    exact Nat.zero_le _
  | h :: hs, hfit => by
    rw [EntriesFit] at hfit
    rw [entriesItems, List.length_append, totalCount_plainItems_append, List.length_cons]
    have hhead := Host.length_items_le path h hfit.1
    have htail := length_entriesItems_le path hs hfit.2
    omega

end

/-! ## The counting pass -/

/-- What a file adds. -/
theorem addBlocks_le (info : FileInfo) {bytes : ℕ} (h : bytes ≤ 7 * fsBlock) :
    (info.addBlocks bytes).fileBlocks ≤ info.fileBlocks + 7 := by
  rw [FileInfo.addBlocks, bytesToBlocks_eq]
  rw [fsBlock] at h
  refine Nat.le_trans (Nat.mod_le _ _) ?_
  omega

mutual

/-- Each item of an entry takes seven blocks at most. -/
theorem Host.fileBlocks_le (path : HostPath) :
    ∀ (h : Host) (info : FileInfo), h.Fits →
      (h.getFileInfo info).fileBlocks ≤ info.fileBlocks + 7 * (h.items path).length
  | .file name contents, info, hfit => by
    rw [Host.Fits] at hfit
    rw [Host.getFileInfo, Host.items, List.length_singleton]
    exact addBlocks_le _ hfit
  | .dir name entries, info, hfit => by
    rw [Host.Fits] at hfit
    rw [Host.getFileInfo, Host.items, List.length_cons]
    have hloop := fileBlocks_getFileInfoEntries_le (path ++ [name]) entries info.addFile hfit.2
    have hsame : info.addFile.fileBlocks = info.fileBlocks := rfl
    have hdir : dirSize entries.length ≤ 7 * fsBlock := by
      rw [dirSize_eq hfit.1]
      exact hfit.1
    have hadd := addBlocks_le (getFileInfoEntries entries info.addFile) hdir
    omega

/-- The same for a list of entries. -/
theorem fileBlocks_getFileInfoEntries_le (path : HostPath) :
    ∀ (entries : List Host) (info : FileInfo), EntriesFit entries →
      (getFileInfoEntries entries info).fileBlocks ≤
        info.fileBlocks + 7 * (entriesItems path entries).length
  | [], info, _ => by
    rw [getFileInfoEntries, entriesItems]
    exact Nat.le_refl _
  | h :: hs, info, hfit => by
    rw [EntriesFit] at hfit
    rw [getFileInfoEntries, entriesItems, List.length_append]
    have hhead := Host.fileBlocks_le path h info hfit.1
    have htail := fileBlocks_getFileInfoEntries_le path hs (h.getFileInfo info) hfit.2
    omega

end

/-- The file blocks that are counted. -/
theorem fileBlocks_le {entries : List Host} (h : IsHostTree entries) :
    (getFileInfo entries).fileBlocks ≤ 7 * ((treeNames entries).length + 1) := by
  have hloop := fileBlocks_getFileInfoEntries_le [] entries ⟨0, 0⟩ h.fits
  have hdir : dirSize entries.length ≤ 7 * fsBlock := by
    rw [dirSize_eq h.root]
    exact h.root
  have hroot := addBlocks_le (getFileInfoEntries entries ⟨0, 0⟩) hdir
  have hnames : (treeNames entries).length = (entriesItems [] entries).length := by
    rw [treeNames, entryPaths, List.length_map, List.length_map]
  rw [getFileInfo]
  dsimp only at hloop
  omega

/-! ## The tree -/

namespace FitsDisk

variable {entries : List Host} (hfits : FitsDisk entries) (h : IsHostTree entries)
include hfits h

omit h in
/-- All blocks that are handed out lie on the disk. -/
theorem onDisk : ∀ r ∈ assign (treeSuperblock entries).firstDataBlock (treeItems entries),
    ∀ b ∈ r.2, b < diskBlocks := by
  intro r hr b hb
  have hmem : Item.owner r ∈ (formatTree entries).placed.map Placed.owner := by
    rw [(formatTree_owners entries).2]
    exact List.mem_map_of_mem hr
  obtain ⟨p, hp, howner⟩ := List.mem_map.mp hmem
  have hblocks : p.blocks = r.2 := congrArg (fun o : Owner ↦ o.2.2) howner
  exact hfits.blocks b ⟨p, hp, hblocks ▸ hb⟩

omit h in
theorem firstDataBlock_le : 0 < (treeSuperblock entries).firstDataBlock ∧
    (treeSuperblock entries).firstDataBlock ≤ diskBlocks :=
  ⟨Nat.lt_of_lt_of_le Nat.two_pos (firstDataBlock_bounds _).1,
    Nat.le_of_lt (hfits.blocks _ hfits.owned_root)⟩

theorem totalCount_le : (treeSuperblock entries).firstDataBlock +
    totalCount (plainItems (treeItems entries)) ≤ diskBlocks := by
  obtain ⟨hpos, hle⟩ := hfits.firstDataBlock_le
  exact totalCount_le_of_onDisk (fun it hit ↦ (h.sized it hit).count) hpos hle hfits.onDisk

/-- **The files and directories are few.** -/
theorem names_le : (treeNames entries).length + 2 ≤
    64 * (diskBlocks - (treeSuperblock entries).firstDataBlock) := by
  have htotal := hfits.totalCount_le h
  rw [treeItems, plainItems_cons_of_not_kernel rfl, totalCount_cons] at htotal
  have hroot := entries_le_of_fits h.root
  have hbelow := length_entriesItems_le [] entries h.fits
  rw [treeNames, entryPaths, List.length_map, List.length_map]
  dsimp only at htotal
  omega

omit h in
/-- What lies on the disk: the image reaches twice as far as the tree. -/
theorem onDisk_of_owned {b c : ℕ} (hb : Owned entries b) (hc : c ≤ 2 * b + 1) :
    OnDisk entries c := by
  have hend := hfits.owned_le hb
  have hlow := hfits.blocks b hb
  rw [show bytesToBlocks diskSize = 360 from diskBlocks_eq] at hlow
  rw [OnDisk, imageBytes]
  generalize imageEnd (formatTree entries) = e at hend ⊢
  rw [bytesToBlocks_eq]
  rw [fsBlock] at hend ⊢
  rcases Nat.lt_or_ge e (2 ^ 32) with he | he
  · have htwice : (c + 1) * 4096 ≤ 2 * (b + 1) * 4096 := Nat.mul_le_mul_right _ (by omega)
    have hround : e ≤ (e + 4095) / 4096 * 4096 := by omega
    rw [Nat.mul_assoc] at htwice
    rw [Nat.mod_eq_of_lt he]
    exact Nat.le_trans htwice (by omega)
  · have hsmall : (c + 1) * 4096 ≤ 720 * 4096 := Nat.mul_le_mul_right _ (by omega)
    exact Nat.le_trans hsmall (Nat.le_trans (show 720 * 4096 ≤ e from Nat.le_trans (by decide) he)
      (Nat.le_add_right e _))

/-- **The regions of the superblock.** -/
theorem regions : (treeSuperblock entries).numInodes = (treeNames entries).length + 2 ∧
    (treeSuperblock entries).numInodesBitmap = 1 ∧ (treeSuperblock entries).numDataBitmap = 1 ∧
    (treeSuperblock entries).firstDataBitmapBlock = 3 ∧
    (treeSuperblock entries).firstInodeBlock = 4 ∧
    (treeSuperblock entries).firstDataBlock = 4 + (treeSuperblock entries).numInodes / 64 ∧
    (treeSuperblock entries).numInodes < 11456 := by
  have hnames := hfits.names_le h
  obtain ⟨-, hle⟩ := hfits.firstDataBlock_le
  rw [diskBlocks_eq] at hnames hle
  have hnum : (treeSuperblock entries).numInodes = (treeNames entries).length + 2 := by
    rw [treeSuperblock, numInodes_eq, Nat.mod_eq_of_lt (by omega)]
  obtain ⟨n, hn⟩ : ∃ n, ((getFileInfo entries).numFiles + 2) % 2 ^ 32 = n := ⟨_, rfl⟩
  obtain ⟨hinodes, hib, -, hfdb, -, hdb, hfi, hfd⟩ := writeSuperblock_fields hn
  rw [← treeSuperblock] at *
  have hblock : (treeSuperblock entries).numInodesBitmap = 1 := by omega
  have hbound : n / 64 ≤ 178 := by omega
  have hdata : (treeSuperblock entries).numDataBitmap = 1 := by omega
  omega

/-- The numbers that are given out are below that of the inodes. -/
theorem iNumber_lt {p : Placed} (hp : p ∈ (formatTree entries).placed) :
    p.iNumber < (treeSuperblock entries).numInodes := by
  obtain ⟨hnum, -, -, -, -, -, hlt⟩ := hfits.regions h
  have hmem : ∀ name, (∃ contents, Host.file name contents ∈ entries) → name ∈ treeNames entries :=
    fun name hname ↦ by
      obtain ⟨contents, hmem⟩ := hname
      exact mem_treeNames (List.mem_map_of_mem hmem)
  have hpre : 0 < (treeNames entries).countP isPrekernel :=
    List.countP_pos_iff.mpr ⟨prekernelBin, hmem _ h.prekernel, by decide⟩
  have hker : 0 < (treeNames entries).count kernelBin :=
    List.count_pos_iff.mpr (hmem _ h.kernel)
  have hcount := length_eq_countP (treeNames entries)
  rcases placed_cases hp with ⟨-, hone⟩ | ⟨-, hrest⟩
  · omega
  · have hother : 4 + ((entryPaths [] entries).map lastName).countP isOther < 2 ^ 32 := by
      rw [← treeNames]
      omega
    have hcases := mem_numbering hother hrest
    rw [← treeNames] at hcases
    dsimp only at hcases
    rcases hcases with ⟨hcase, -⟩ | ⟨hcase, -⟩ | hcase <;> omega

/-- The next number belongs to none of them. -/
theorem not_numbered_numInodes : ¬ Numbered entries (treeSuperblock entries).numInodes := by
  rintro ⟨p, hp, heq⟩
  exact absurd (heq ▸ hfits.iNumber_lt h hp) (Nat.lt_irrefl _)

/-- The blocks lie behind the bitmaps. -/
theorem four_le {p : Placed} (hp : p ∈ (formatTree entries).placed) : ∀ b ∈ p.blocks, 4 ≤ b := by
  intro b hb
  obtain ⟨-, -, -, -, -, hfirst, -⟩ := hfits.regions h
  obtain ⟨hpos, hle⟩ := hfits.firstDataBlock_le
  have hmem : p.owner ∈ (formatTree entries).placed.map Placed.owner := List.mem_map_of_mem hp
  rw [(formatTree_owners entries).2] at hmem
  obtain ⟨r, hr, howner⟩ := List.mem_map.mp hmem
  have hblocks : r.2 = p.blocks := congrArg (fun o : Owner ↦ o.2.2) howner
  have := le_of_mem_assign_onDisk (fun it hit ↦ (h.sized it hit).count) hpos hle hfits.onDisk r hr b
    (hblocks ▸ hb)
  omega

/-- **Nothing of the tree comes in front of the inode table.** -/
theorem treeImage_front (hshort : EntryNamesFit entries) (base : ByteStore) {x : ℕ}
    (hx : x < 4 * fsBlock) : treeImage base entries x = base x := by
  refine treeImage_of_not_covered h.root h.fits hshort base fun p hp hcovers ↦ ?_
  obtain ⟨-, -, -, -, htable, -, hlt⟩ := hfits.regions h
  have hnum := hfits.iNumber_lt h hp
  rcases hcovers with hslot | hblocks
  · have hslotFits : SlotFits (treeSuperblock entries) p.iNumber := by
      rw [SlotFits, htable, fsBlock, inodeBytes]
      omega
    rw [Placed.InSlot, ← treeSuperblock, seekInode_eq hslotFits, slotAddress, htable] at hslot
    exact absurd hslot.1 (by omega)
  · obtain ⟨b, k, -, hrange, hend⟩ := h.placed_range hfits hp
    have := hfits.four_le h hp _ ((Placed.inBlocks_iff_of_range hrange hend).mp hblocks)
    rw [fsBlock] at *
    omega

end FitsDisk

end AbOS
