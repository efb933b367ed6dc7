import AbOS.Fs.Path
import AbOS.Lib.Run
import AbOS.Syscalls.Open
import Mathlib.Data.Finset.Card

/-!
# Who counts the open descriptors

`sys_open` and `sys_close` keep four counts: `max_count` of a descriptor and of an inode, and the
numbers of open files and open inodes.  `RefCounts` says what they are meant to be.

They start from the `max_count` that the disk happens to hold, and only ever grow: `sys_close`
takes neither the descriptor nor the inode off the global counts, and it clears the inode with the
first descriptor that goes.  So the counts are right in the runs that open files whose `max_count`
on the disk is 1, and close nothing (`refCounts_of_meets`).
-/

set_option autoImplicit false

namespace AbOS

namespace Kernel

/-- A call of `sys_open` or of `sys_close`. -/
inductive FileCall
  | sysOpen (path : List UInt8) (flags leftover : BitVec 32)
  | sysClose (fileDescriptor : ℤ)

/-- The state after one call. -/
def serve (s : Kernel) : FileCall → Option Kernel
  | .sysOpen path flags leftover =>
    (s.sysOpen path flags.toNat leftover.toNat).map Prod.snd
  | .sysClose fileDescriptor => some (s.sysClose fileDescriptor).2

/-- The descriptors in use. -/
def openFiles (s : Kernel) : Finset ℕ :=
  (Finset.range tableEntries).filter fun d ↦ (s.openFileTable d).maxCount ≠ 0

/-- The slots of the inode table in use. -/
def openInodes (s : Kernel) : Finset ℕ :=
  (Finset.range tableEntries).filter fun i ↦ (s.openInodeTable i).iNumber ≠ 0

/-- The descriptors in use that refer to a slot of the inode table. -/
def descriptors (s : Kernel) (i : ℕ) : Finset ℕ :=
  s.openFiles.filter fun d ↦ (s.openFileTable d).inodeIndex = i

/-- All counts are right. -/
structure RefCounts (s : Kernel) : Prop where
  occupied : ∀ i < tableEntries, (s.openInodeTable i).iNumber ≠ 0 ↔ (s.descriptors i).Nonempty
  maxCount : ∀ i < tableEntries, (s.openInodeTable i).maxCount = (s.descriptors i).card
  currentOpenFiles : s.currentOpenFiles = s.openFiles.card
  currentOpenInodes : s.currentOpenInodes = s.openInodes.card

/-- `t` has everything but the counts of an inode as `s` has it. -/
def SameButCount (inode inode' : Inode) : Prop :=
  inode' = { inode with maxCount := inode'.maxCount }

/-- A call of `sys_close` leaves all other descriptors, and their inodes, as they are. -/
def KeepsOthers (s : Kernel) : FileCall → Prop
  | .sysOpen .. => True
  | .sysClose fileDescriptor => ∀ d ∈ s.openFiles, (d : ℤ) ≠ fileDescriptor →
    (s.sysClose fileDescriptor).2.openFileTable d = s.openFileTable d ∧
      SameButCount (s.inodeOf d) ((s.sysClose fileDescriptor).2.inodeOf d)

/-- Both tables are zero. -/
structure Zeroed (s : Kernel) : Prop where
  openFileTable : ∀ d < tableEntries, s.openFileTable d = OpenFile.zero
  openInodeTable : ∀ i < tableEntries, s.openInodeTable i = Inode.zero
  currentOpenFiles : s.currentOpenFiles = 0
  currentOpenInodes : s.currentOpenInodes = 0

/-- What keeps the counts right: a file is opened in a free slot of both tables, or in its own slot
of the inode table; it has `max_count` 1 on the disk, and no more than 254 descriptors already; and
nothing is closed. -/
def CountsRight (s : Kernel) : FileCall → Prop
  | .sysOpen path _ _ =>
    let inode := s.fs.getInode path
    let index := s.inodeSlot inode.iNumber
    inode.iNumber ≠ 0 →
      index < tableEntries ∧
      (∃ d < tableEntries, s.fileSlot index = some d ∧ (s.openFileTable d).maxCount = 0) ∧
      (if (s.openInodeTable index).iNumber = inode.iNumber then
        (s.openInodeTable index).maxCount < 255 else inode.maxCount = 1)
  | .sysClose fileDescriptor =>
    fileDescriptor < 0 ∨ (s.inodeOf fileDescriptor.toNat).iNumber = 0 ∨
      (s.openFileTable fileDescriptor.toNat).maxCount = 0

/-! ## The slots that `sys_open` finds -/

variable {s t : Kernel}

/-- Entering a file in the table: it is counted in its own slot, or put into a free one. -/
theorem enterInode_cases {inode : Inode} (h : s.inodeSlot inode.iNumber < tableEntries) :
    ((s.openInodeTable (s.inodeSlot inode.iNumber)).iNumber = inode.iNumber ∧
      s.enterInode inode = s.setInode (s.inodeSlot inode.iNumber)
        { s.openInodeTable (s.inodeSlot inode.iNumber) with
          maxCount := ((s.openInodeTable (s.inodeSlot inode.iNumber)).maxCount + 1) % 2 ^ 8 }) ∨
    ((s.openInodeTable (s.inodeSlot inode.iNumber)).iNumber = 0 ∧
      s.enterInode inode = { s.setInode (s.inodeSlot inode.iNumber) inode with
        currentOpenInodes := (s.currentOpenInodes + 1) % 2 ^ 32 }) := by
  rw [enterInode]
  dsimp only
  by_cases hfound : (s.openInodeTable
      (findSlot fun i ↦ (s.openInodeTable i).iNumber == inode.iNumber)).iNumber = inode.iNumber
  · have hslot : s.inodeSlot inode.iNumber =
        findSlot fun i ↦ (s.openInodeTable i).iNumber == inode.iNumber := if_pos hfound
    rw [if_pos hfound, hslot]
    exact Or.inl ⟨hfound, rfl⟩
  · have hslot : s.inodeSlot inode.iNumber = findSlot fun i ↦ (s.openInodeTable i).iNumber == 0 :=
      if_neg hfound
    rw [if_neg hfound]
    refine Or.inr ⟨?_, rfl⟩
    rw [hslot] at h ⊢
    exact beq_iff_eq.mp (findSlot_lt h)

/-- The numbers of the inodes after one has been entered. -/
theorem enterInode_iNumber {inode : Inode} (hslot : s.inodeSlot inode.iNumber < tableEntries) :
    ((s.enterInode inode).openInodeTable (s.inodeSlot inode.iNumber)).iNumber = inode.iNumber ∧
      ∀ i, (s.openInodeTable i).iNumber ≠ 0 →
        ((s.enterInode inode).openInodeTable i).iNumber = (s.openInodeTable i).iNumber := by
  obtain ⟨hfound, henter⟩ | ⟨hfree, henter⟩ := enterInode_cases hslot
  · rw [henter]
    refine ⟨?_, fun i _ ↦ ?_⟩
    · simp only [setInode, Function.update_self]
      exact hfound
    · by_cases hi : i = s.inodeSlot inode.iNumber
      · simp [setInode, hi]
      · simp [setInode, hi]
  · rw [henter]
    refine ⟨?_, fun i hi ↦ ?_⟩
    · simp only [setInode, Function.update_self]
    · have hne : i ≠ s.inodeSlot inode.iNumber := fun heq ↦ hi (heq ▸ hfree)
      simp only [setInode, Function.update_of_ne hne]

/-! ## Counting -/

theorem mem_openFiles {d : ℕ} :
    d ∈ s.openFiles ↔ d < tableEntries ∧ (s.openFileTable d).maxCount ≠ 0 := by
  rw [openFiles, Finset.mem_filter, Finset.mem_range]

/-- Nothing is open at boot. -/
theorem Zeroed.not_mem_openFiles (h : s.Zeroed) (d : ℕ) : d ∉ s.openFiles := fun hd ↦ by
  obtain ⟨hlt, hcount⟩ := mem_openFiles.mp hd
  rw [h.openFileTable d hlt] at hcount
  exact hcount rfl

theorem mem_descriptors {i d : ℕ} : d ∈ s.descriptors i ↔
    (d < tableEntries ∧ (s.openFileTable d).maxCount ≠ 0) ∧ (s.openFileTable d).inodeIndex = i := by
  rw [descriptors, Finset.mem_filter, mem_openFiles]

/-- One more descriptor. -/
theorem openFiles_insert {d : ℕ} {file : OpenFile} (hd : d < tableEntries)
    (hfile : file.maxCount ≠ 0) (ht : t.openFileTable = Function.update s.openFileTable d file) :
    t.openFiles = insert d s.openFiles := by
  ext x
  rw [Finset.mem_insert, mem_openFiles, mem_openFiles, ht]
  by_cases hx : x = d
  · subst hx
    simp [hd, hfile]
  · simp [hx]

theorem not_mem_openFiles {d : ℕ} (h : (s.openFileTable d).maxCount = 0) : d ∉ s.openFiles :=
  fun hd ↦ (mem_openFiles.mp hd).2 h

/-- It belongs to one slot of the inode table. -/
theorem descriptors_insert {d : ℕ} {file : OpenFile} (hd : d < tableEntries)
    (hfile : file.maxCount ≠ 0) (hfree : (s.openFileTable d).maxCount = 0)
    (ht : t.openFileTable = Function.update s.openFileTable d file) (i : ℕ) :
    t.descriptors i =
      if file.inodeIndex = i then insert d (s.descriptors i) else s.descriptors i := by
  have hnot := not_mem_openFiles hfree
  ext x
  rw [descriptors, openFiles_insert hd hfile ht, Finset.mem_filter, Finset.mem_insert, ht]
  by_cases hx : x = d
  · subst hx
    rw [Function.update_self]
    split_ifs with hi <;> simp [descriptors, hnot, hi]
  · rw [Function.update_of_ne hx]
    split_ifs <;> simp [descriptors, hx]

/-- One more inode. -/
theorem openInodes_insert {i : ℕ} {inode : Inode} (hi : i < tableEntries)
    (hinode : inode.iNumber ≠ 0) (ht : t.openInodeTable = Function.update s.openInodeTable i inode) :
    t.openInodes = insert i s.openInodes := by
  ext x
  simp only [openInodes, Finset.mem_filter, Finset.mem_insert, Finset.mem_range, ht]
  by_cases hx : x = i
  · subst hx
    simp [hi, hinode]
  · simp [hx]

theorem card_openFiles_le (s : Kernel) : s.openFiles.card ≤ tableEntries :=
  (Finset.card_filter_le _ _).trans_eq (Finset.card_range _)

theorem card_openInodes_le (s : Kernel) : s.openInodes.card ≤ tableEntries :=
  (Finset.card_filter_le _ _).trans_eq (Finset.card_range _)

/-- Nothing is counted in a table of zeros. -/
theorem Zeroed.refCounts (h : s.Zeroed) : s.RefCounts := by
  have hfiles : s.openFiles = ∅ := Finset.filter_eq_empty_iff.mpr fun d hd ↦ by
    rw [h.openFileTable d (Finset.mem_range.mp hd)]
    exact not_not.mpr rfl
  have hinodes : s.openInodes = ∅ := Finset.filter_eq_empty_iff.mpr fun i hi ↦ by
    rw [h.openInodeTable i (Finset.mem_range.mp hi)]
    exact not_not.mpr rfl
  have hnone : ∀ i, s.descriptors i = ∅ := fun i ↦ by rw [descriptors, hfiles, Finset.filter_empty]
  refine ⟨fun i hi ↦ ?_, fun i hi ↦ ?_, ?_, ?_⟩
  · rw [hnone, h.openInodeTable i hi]
    exact iff_of_false (not_not.mpr rfl) Finset.not_nonempty_empty
  · rw [hnone, h.openInodeTable i hi]
    rfl
  · rw [hfiles, h.currentOpenFiles]
    rfl
  · rw [hinodes, h.currentOpenInodes]
    rfl

/-- **Opening a file** in free slots. -/
theorem RefCounts.sysOpen (h : s.RefCounts) {path : List UInt8} {flags leftover : BitVec 32}
    (hright : s.CountsRight (.sysOpen path flags leftover))
    (hstep : s.serve (.sysOpen path flags leftover) = some t) : t.RefCounts := by
  obtain ⟨⟨r, t'⟩, hcall, heq⟩ := Option.map_eq_some_iff.mp hstep
  cases heq
  rw [CountsRight] at hright
  generalize hinode : s.fs.getInode path = inode at hright
  rcases sysOpen_cases hcall hinode with ⟨-, -, rfl⟩ | ⟨hne, -, d, vmm, hd, -, rfl⟩
  · exact h
  obtain ⟨hslot, ⟨d', hd', hfound, hfree⟩, hcount⟩ := hright hne
  obtain rfl : d' = d := Option.some.inj (hfound.symm.trans hd)
  have hcases := enterInode_cases (s := s) hslot
  have hfile : (1 : ℕ) ≠ 0 := Nat.one_ne_zero
  have hindex : s.inodeSlot inode.iNumber % 2 ^ 8 = s.inodeSlot inode.iNumber :=
    Nat.mod_eq_of_lt hslot
  generalize ht : s.opened inode flags.toNat d' vmm = t
  generalize hslotEq : s.inodeSlot inode.iNumber = index at *
  have hinodes : t.openInodeTable = (s.enterInode inode).openInodeTable := by rw [← ht, opened]
  have htable : t.openFileTable = Function.update s.openFileTable d'
      ⟨index, 0, s.fileVirtualAddress, 1, flags.toNat,
        filePageCount (s.loadedInode inode).size % 2 ^ 8⟩ := by
    rw [← ht, opened, hslotEq, hindex]
  have hopenFiles := openFiles_insert (t := t) hd' hfile htable
  have hdescriptors := descriptors_insert (t := t) hd' hfile hfree htable
  have hnot := not_mem_openFiles hfree
  have hnotIn : ∀ i, d' ∉ s.descriptors i := fun i hmem ↦
    (mem_descriptors.mp hmem).1.2 hfree
  have hfiles : t.currentOpenFiles = t.openFiles.card := by
    have hle := t.card_openFiles_le
    rw [hopenFiles, Finset.card_insert_of_notMem hnot] at hle ⊢
    rw [← ht, ← h.currentOpenFiles] at *
    exact Nat.mod_eq_of_lt (by rw [tableEntries] at hle; omega)
  rcases hcases with ⟨hown, henter⟩ | ⟨hzero, henter⟩
  · -- another descriptor of an open file
    have hcount := hcount
    rw [if_pos hown, h.maxCount index hslot] at hcount
    replace hinodes : t.openInodeTable = Function.update s.openInodeTable index
        { s.openInodeTable index with
          maxCount := ((s.openInodeTable index).maxCount + 1) % 2 ^ 8 } := by
      rw [hinodes, henter]
      rfl
    have hsame : ∀ i, (t.openInodeTable i).iNumber = (s.openInodeTable i).iNumber := fun i ↦ by
      rw [hinodes, Function.update_apply]
      split_ifs with hi
      · rw [hi]
      · rfl
    have hopen : t.openInodes = s.openInodes := Finset.filter_congr fun i _ ↦ by rw [hsame]
    refine ⟨fun i hi ↦ ?_, fun i hi ↦ ?_, hfiles, ?_⟩
    · rw [hsame, hdescriptors]
      split_ifs with heq
      · rw [← heq, hown]
        exact iff_of_true hne (Finset.insert_nonempty ..)
      · exact h.occupied i hi
    · rw [hinodes, hdescriptors, Function.update_apply]
      by_cases heq : i = index
      · subst heq
        rw [if_pos rfl, if_pos rfl, Finset.card_insert_of_notMem (hnotIn i)]
        dsimp only
        rw [h.maxCount i hi]
        omega
      · rw [if_neg heq, if_neg (Ne.symm heq)]
        exact h.maxCount i hi
    · rw [hopen, ← h.currentOpenInodes, ← ht]
      show (s.enterInode inode).currentOpenInodes = _
      rw [henter]
      rfl
  · -- a file that was not open
    have hcount := hcount
    rw [if_neg fun hh ↦ hne (hh.symm.trans hzero)] at hcount
    replace hinodes : t.openInodeTable = Function.update s.openInodeTable index inode := by
      rw [hinodes, henter]
      rfl
    have hnone : s.descriptors index = ∅ := Finset.not_nonempty_iff_eq_empty.mp fun hn ↦
      (h.occupied index hslot).mpr hn hzero
    have hopen := openInodes_insert (t := t) hslot hne hinodes
    have hfreeSlot : index ∉ s.openInodes := by
      rw [openInodes, Finset.mem_filter, hzero]
      exact fun hh ↦ hh.2 rfl
    refine ⟨fun i hi ↦ ?_, fun i hi ↦ ?_, hfiles, ?_⟩
    · rw [hinodes, hdescriptors, Function.update_apply]
      by_cases heq : i = index
      · rw [if_pos heq, if_pos heq.symm]
        exact iff_of_true hne (Finset.insert_nonempty ..)
      · rw [if_neg heq, if_neg (Ne.symm heq)]
        exact h.occupied i hi
    · rw [hinodes, hdescriptors, Function.update_apply]
      by_cases heq : i = index
      · rw [if_pos heq, if_pos heq.symm, heq, hnone]
        exact hcount
      · rw [if_neg heq, if_neg (Ne.symm heq)]
        exact h.maxCount i hi
    · have hle := t.card_openInodes_le
      rw [hopen, Finset.card_insert_of_notMem hfreeSlot] at hle ⊢
      rw [← ht, ← h.currentOpenInodes] at *
      show (s.enterInode inode).currentOpenInodes = _
      rw [henter]
      exact Nat.mod_eq_of_lt (by rw [tableEntries] at hle; omega)

/-- A call of `sys_close` that is refused. -/
theorem sysClose_of_refused {fileDescriptor : ℤ} (h : s.CountsRight (.sysClose fileDescriptor)) :
    s.sysClose fileDescriptor = (-1, s) := by
  rw [sysClose]
  rcases h with h | h
  · rw [if_pos h]
  · split_ifs
    · rfl
    · exact if_pos h

/-- **Every call that keeps the counts right.** -/
theorem RefCounts.serve {c : FileCall} (h : s.RefCounts) (hright : s.CountsRight c)
    (hstep : s.serve c = some t) : t.RefCounts := by
  cases c with
  | sysOpen path flags leftover => exact h.sysOpen hright hstep
  | sysClose fileDescriptor =>
    rw [Kernel.serve, sysClose_of_refused hright] at hstep
    cases hstep
    exact h

theorem keepsOthers_of_countsRight {c : FileCall} (h : s.CountsRight c) : s.KeepsOthers c := by
  cases c with
  | sysOpen => trivial
  | sysClose fileDescriptor =>
    intro d _ _
    rw [sysClose_of_refused h]
    exact ⟨rfl, rfl⟩

/-- **The counts are right** in every run whose calls keep them right. -/
theorem refCounts_of_meets {calls : List FileCall} (hzero : s.Zeroed)
    (hright : Run.Meets serve CountsRight s calls) (hrun : Run.exec serve s calls = some t) :
    t.RefCounts ∧ Run.Meets serve KeepsOthers s calls :=
  ⟨hright.invariant RefCounts (fun _ _ _ ↦ RefCounts.serve) hzero.refCounts hrun,
    hright.mono fun _ _ _ ↦ keepsOthers_of_countsRight⟩

/-- Closing a descriptor makes them wrong: `sys_close` does not count it off. -/
theorem RefCounts.not_refCounts_sysClose (h : s.RefCounts) {d : ℕ} (hd : d ∈ s.openFiles)
    (hinode : (s.inodeOf d).iNumber ≠ 0) (hindex : (s.openFileTable d).inodeIndex < tableEntries) :
    ¬ (s.sysClose d).2.RefCounts := by
  obtain ⟨hlt, hmax⟩ := mem_openFiles.mp hd
  have hmem : d ∈ s.descriptors (s.openFileTable d).inodeIndex :=
    mem_descriptors.mpr ⟨⟨hlt, hmax⟩, rfl⟩
  have hpos := Finset.card_pos.mpr ⟨d, hmem⟩
  have hfilesPos := Finset.card_pos.mpr ⟨d, hd⟩
  have hcount := h.maxCount _ hindex
  rw [sysClose, if_neg (by omega), Int.toNat_natCast]
  dsimp only
  rw [if_neg (not_or.mpr ⟨hinode, hmax⟩)]
  split_ifs with hlast
  · -- the descriptor is cleared, and still counted
    intro hcon
    generalize ht : Kernel.setFile _ d OpenFile.zero = t at hcon
    have hcleared : t.openFiles = s.openFiles.erase d := by
      ext x
      rw [← ht]
      rw [Finset.mem_erase, mem_openFiles, mem_openFiles]
      by_cases hx : x = d
      · simp [setFile, hx, OpenFile.zero]
      · simp [setFile, setInode, hx]
    have hfiles := hcon.currentOpenFiles
    rw [hcleared, Finset.card_erase_of_mem hd, ← h.currentOpenFiles, ← ht] at hfiles
    rw [← h.currentOpenFiles] at hfilesPos
    change s.currentOpenFiles = s.currentOpenFiles - 1 at hfiles
    omega
  · -- the descriptor is still there, and its inode is counted down
    intro hcon
    generalize ht : Kernel.setInode _ (s.openFileTable d).inodeIndex _ = t at hcon
    have hsame : t.descriptors (s.openFileTable d).inodeIndex =
        s.descriptors (s.openFileTable d).inodeIndex := by
      ext x
      rw [← ht]
      rw [mem_descriptors, mem_descriptors]
      by_cases hx : x = d
      · simp [setFile, setInode, hx, hlast, hmax]
      · simp [setFile, setInode, hx]
    have hdown := hcon.maxCount _ hindex
    rw [hsame, ← hcount, ← ht] at hdown
    simp only [setInode, Function.update_self, inodeOf] at hdown
    omega

/-! ## One file -/

/-- The entry of a directory, in block 6, for an empty file with inode 4. -/
def oneEntryDisk (maxCount : UInt8) : ByteStore := fun x ↦
  if x = 0x6000 then 4 else if x = 0x6004 then 0x61
  else if x = 0x4100 then 4 else if x = 0x413E then maxCount else 0

/-- A directory of one entry. -/
def oneEntryDir : Inode :=
  { Inode.zero with iNumber := 1, fileType := fileTypeDir, size := 64, directPointers := fun _ ↦ 6 }

def oneEntrySuperblock : Superblock := ⟨8, 1, 1, 64, 8, 0, 0, 2, 3, 0, 4, 5, 64, 0, 0, 0, 8, 0, 1⟩

/-- The file is found on every disk with this directory. -/
theorem oneEntryDir_getInode {disk : ByteStore} (hnum : (readDirEntry disk 0x6000 0).iNumber = 4)
    (hname : disk.slice 0x6004 1 = [0x61]) (hend : disk 0x6005 = 0)
    (hinode : (diskInode disk oneEntrySuperblock 4).iNumber = 4) :
    (⟨disk, oneEntrySuperblock, oneEntryDir, oneEntryDir⟩ : Fs).getInode [0x61] =
      diskInode disk oneEntrySuperblock 4 := by
  have hblock : sectorAddress (blockSector (oneEntryDir.directPointers 0)) = 0x6000 := by decide
  have hchar : disk 0x6004 ≠ 0 := by
    rw [ByteStore.slice_succ] at hname
    rw [(List.cons.inj hname).1]
    decide
  have hname' : (readDirEntry disk 0x6000 0).name = [0x61] :=
    (Fs.readDirEntry_name (k := 1) (by decide) hend fun i hi ↦ by
      obtain rfl : i = 0 := by omega
      exact hchar).trans hname
  have hfirst : (⟨disk, oneEntrySuperblock, oneEntryDir, oneEntryDir⟩ : Fs).firstEntry oneEntryDir
      [0x61] = some (readDirEntry disk 0x6000 0) :=
    Fs.firstEntry_of_block _ hblock (by decide) (by decide) (hnum.trans_ne (by decide)) hname'
      fun _ hi ↦ absurd hi (Nat.not_lt_zero _)
  rw [Fs.getInode_of_firstEntry _ (by decide) (by decide) hfirst
    (hnum.symm ▸ hinode.trans_ne (by decide)), hnum]

/-- No file is open yet. -/
def oneEntry (maxCount : UInt8) : Kernel where
  vmm := ⟨fun _ ↦ 0, Vmm.barePmm, 0x1000⟩
  fs := {
    disk := oneEntryDisk maxCount
    superblock := oneEntrySuperblock
    rootInode := oneEntryDir
    currentDirInode := oneEntryDir }
  openFileTable := fun _ ↦ OpenFile.zero
  openInodeTable := fun _ ↦ Inode.zero
  fileVirtualAddress := 0x40000000
  currentOpenFiles := 0
  currentOpenInodes := 0

theorem oneEntry_zeroed (maxCount : UInt8) : (oneEntry maxCount).Zeroed :=
  ⟨fun _ _ ↦ rfl, fun _ _ ↦ rfl, rfl, rfl⟩

theorem oneEntry_diskInode (maxCount : UInt8) :
    (diskInode (oneEntryDisk maxCount) oneEntrySuperblock 4).iNumber = 4 ∧
      (diskInode (oneEntryDisk maxCount) oneEntrySuperblock 4).size = 0 ∧
      (diskInode (oneEntryDisk maxCount) oneEntrySuperblock 4).maxCount = maxCount.toNat := by
  have haddr : sectorAddress (inodeSector oneEntrySuperblock 4) + 4 % inodesPerSector * inodeBytes =
      0x4100 := by decide
  rw [diskInode, haddr]
  refine ⟨?_, ?_, ?_⟩ <;> simp [readInode, ByteStore.readWord_eq, oneEntryDisk]

theorem oneEntry_getInode (maxCount : UInt8) :
    (oneEntry maxCount).fs.getInode [0x61] =
      diskInode (oneEntryDisk maxCount) oneEntrySuperblock 4 :=
  oneEntryDir_getInode rfl rfl rfl (oneEntry_diskInode maxCount).1

theorem oneEntry_new (maxCount : UInt8) {i : ℕ} :
    ((oneEntry maxCount).openInodeTable i).iNumber ≠ 4 := show (0 : ℕ) ≠ 4 by decide

/-- The first slots are free. -/
theorem oneEntry_slots (maxCount : UInt8) :
    (oneEntry maxCount).inodeSlot 4 = 0 ∧ (oneEntry maxCount).fileSlot 0 = some 0 := by
  refine ⟨?_, ?_⟩
  · rw [inodeSlot_of_new fun _ _ ↦ oneEntry_new maxCount]
    exact show findSlot (fun _ ↦ (0 : ℕ) == 0) = 0 by decide
  · obtain ⟨fuel, hfuel⟩ : ∃ fuel, openFileFuel = fuel + 1 :=
      ⟨2 ^ 32 / 15 - 1, by rw [openFileFuel]; rfl⟩
    rw [fileSlot, if_pos (by decide), hfuel, findFile, if_neg]
    exact fun hh ↦ hh.1 rfl

/-- Opening the file puts it into the first slot of both tables. -/
theorem oneEntry_open (maxCount : UInt8) (flags : BitVec 32) : ∃ t,
    Run.exec serve (oneEntry maxCount) [.sysOpen [0x61] flags 0] = some t ∧
      (t.openInodeTable 0).maxCount = maxCount.toNat ∧ t.openFileTable =
        Function.update (fun _ ↦ OpenFile.zero) 0 ⟨0, 0, 0x40000000, 1, flags.toNat, 1⟩ := by
  obtain ⟨hnum, hsize, hcount⟩ := oneEntry_diskInode maxCount
  obtain ⟨hslot, hfile⟩ := oneEntry_slots maxCount
  have hget := oneEntry_getInode maxCount
  generalize diskInode (oneEntryDisk maxCount) oneEntrySuperblock 4 = inode at *
  rw [← hnum] at hslot
  have hnew : ∀ i ≤ tableEntries, ((oneEntry maxCount).openInodeTable i).iNumber ≠ inode.iNumber :=
    fun i _ ↦ hnum ▸ oneEntry_new maxCount
  have henter := enterInode_of_new hnew
  have hloaded : (oneEntry maxCount).loadedInode inode = inode := by
    rw [loadedInode, henter, hslot]
    exact Function.update_self (β := fun _ ↦ Inode) 0 inode fun _ ↦ Inode.zero
  have hload : ∀ vmm, loadFile (oneEntry maxCount).fs.disk inode vmm 0x40000000 0 = some vmm := by
    intro vmm
    rw [loadFile, hsize]
    rfl
  refine ⟨(oneEntry maxCount).opened inode flags.toNat 0 ((oneEntry maxCount).mapped inode),
    Run.exec_singleton ?_, ?_, ?_⟩
  · show ((oneEntry maxCount).sysOpen [0x61] flags.toNat 0).map Prod.snd = _
    rw [sysOpen_eq hget (by rw [hnum]; decide), hslot, hfile, Option.bind_some, hloaded]
    show ((loadFile _ inode _ 0x40000000 0).map _).map _ = _
    rw [hload]
    rfl
  · rw [opened, henter, hslot, ← hcount]
    rfl
  · rw [opened, hslot, hloaded, hsize]
    rfl

theorem oneEntry_openFiles {t : Kernel}
    (ht : t.openFileTable = Function.update (fun _ ↦ OpenFile.zero) 0 ⟨0, 0, 0x40000000, 1, 1, 1⟩) :
    t.descriptors 0 = {0} := by
  ext d
  rw [mem_descriptors, ht, Finset.mem_singleton]
  by_cases hd : d = 0
  · rw [hd]
    exact iff_of_true ⟨⟨by decide, Nat.one_ne_zero⟩, rfl⟩ rfl
  · rw [Function.update_of_ne hd]
    exact iff_of_false (fun hh ↦ hh.1.2 rfl) hd

/-- A file with `max_count` 1 on the disk is counted as it should be. -/
theorem refCounts_oneEntry : ∃ t,
    Run.exec serve (oneEntry 1) [.sysOpen [0x61] 1 0] = some t ∧ t.RefCounts ∧
      Run.Meets serve KeepsOthers (oneEntry 1) [.sysOpen [0x61] 1 0] := by
  obtain ⟨t, hrun, -, -⟩ := oneEntry_open 1 1
  obtain ⟨hnum, -, hcount⟩ := oneEntry_diskInode 1
  obtain ⟨hslot, hfile⟩ := oneEntry_slots 1
  refine ⟨t, hrun, refCounts_of_meets (oneEntry_zeroed 1) ⟨?_, fun _ _ ↦ trivial⟩ hrun⟩
  rw [CountsRight, oneEntry_getInode, hnum, hslot, hfile, if_neg (oneEntry_new 1)]
  exact fun _ ↦ ⟨by decide, ⟨0, by decide, rfl, rfl⟩, hcount⟩

/-- On the images of `format_disk` all files have 0 there. -/
theorem not_refCounts_oneEntry : ∃ t,
    Run.exec serve (oneEntry 0) [.sysOpen [0x61] 1 0] = some t ∧ ¬ t.RefCounts := by
  obtain ⟨t, hrun, hcount, htable⟩ := oneEntry_open 0 1
  refine ⟨t, hrun, fun h ↦ ?_⟩
  have := h.maxCount 0 (by decide)
  rw [hcount, oneEntry_openFiles htable] at this
  exact absurd this (by decide)

end Kernel

end AbOS
