import AbOS.Memory.Initialize
import AbOS.Syscalls.State

/-!
# `sys_open` and `sys_close`

`sys_open` looks for the inode of the file in the inode table, or for a free slot, and stops with
`temp` at that slot and `index` its number.  From there on the two go wrong together: the new
descriptor is entered at `file_index`, but `index` is returned, and the pages and the contents of
the file are taken from `temp[index]`, which is slot `2 * index` of the table.

The flags are read from ECX after a call of `kprintf`, which does not keep that register, so they
are an argument of the model that has nothing to do with the mode the caller asks for.

`sys_close` frees and unmaps as many pages as the size of the file asks for.  `free_page` hands the
address of the frame to `free_blocks`, which takes the number of a block.
-/

set_option autoImplicit false

namespace AbOS

namespace Vmm

/-- `free_page` on the entry of `virt`: the address of the frame is used as the number of a bit. -/
def freePage (m : Vmm) (virt : ℕ) : Vmm :=
  let e := m.pte virt
  let p := frameOf e
  let m := if p ≠ 0 then { m with pmm := m.pmm.freeBlocks p 1 } else m
  m.putPte virt (e &&& 0xFFFFFFFE)

/-- The loop of `sys_close` over the pages from `address` on. -/
def closePages (m : Vmm) (address : ℕ) : ℕ → Vmm
  | 0 => m
  | i + 1 =>
    let virt := (address + i * pageSize) % 2 ^ 32
    ((closePages m address i).freePage virt).unmapPage virt

end Vmm

/-- The entries of a table: a search that does not succeed stops behind the last one. -/
def tableEntries : ℕ := 256

/-- The first entry of a table that is looked for. -/
def findSlot (p : ℕ → Bool) : ℕ := ((List.range tableEntries).find? p).getD tableEntries

/-- How many descriptors there are room for in memory. -/
@[irreducible] def openFileFuel : ℕ := 2 ^ 32 / 15

/-- The search for a free descriptor, which does not look at its own index. -/
def findFile (table : ℕ → OpenFile) : ℕ → ℕ → Option ℕ
  | 0, _ => none
  | fuel + 1, fileIndex =>
    if (table fileIndex).address ≠ 0 ∧ (table fileIndex).maxCount ≠ 0 then
      findFile table fuel (fileIndex + 1)
    else some fileIndex

namespace Kernel

/-- The slot of the inode table that `sys_open` uses for a file: where it is, or a free one. -/
def inodeSlot (s : Kernel) (iNumber : ℕ) : ℕ :=
  let index := findSlot fun i ↦ (s.openInodeTable i).iNumber == iNumber
  if (s.openInodeTable index).iNumber = iNumber then index
  else findSlot fun i ↦ (s.openInodeTable i).iNumber == 0

/-- Enter the inode, or count another descriptor of it. -/
def enterInode (s : Kernel) (inode : Inode) : Kernel :=
  let index := findSlot fun i ↦ (s.openInodeTable i).iNumber == inode.iNumber
  if (s.openInodeTable index).iNumber = inode.iNumber then
    s.setInode index { s.openInodeTable index with
      maxCount := ((s.openInodeTable index).maxCount + 1) % 2 ^ 8 }
  else
    { s.setInode (s.inodeSlot inode.iNumber) inode with
      currentOpenInodes := (s.currentOpenInodes + 1) % 2 ^ 32 }

/-- The descriptor `sys_open` enters.  The search is skipped when `index` is behind the table. -/
def fileSlot (s : Kernel) (index : ℕ) : Option ℕ :=
  if index < tableEntries then findFile s.openFileTable openFileFuel 0 else some 0

/-- The second half of `sys_open`: enter a descriptor for the inode at `index`, map its pages and
load the file.  `temp` points to that inode, so `temp[temp_file->inode_index]` is further on. -/
def enterFile (s : Kernel) (index flags leftover : ℕ) : Option Kernel :=
  (s.fileSlot index).bind fun fileIndex ↦
    let inodeIndex := index % 2 ^ 8
    let inode := s.openInodeTable (index + inodeIndex)
    let s := { s.setFile fileIndex ⟨inodeIndex, 0, s.fileVirtualAddress, 1, flags, 0⟩ with
      currentOpenFiles := (s.currentOpenFiles + 1) % 2 ^ 32 }
    let address := s.fileVirtualAddress
    let s := s.addPages fileIndex (filePageCount inode.size)
    (loadFile s.fs.disk inode s.vmm address leftover).map fun vmm ↦ { s with vmm }

/-- `sys_open`; the first component is what it returns.  `flags` is what it finds in ECX, and not
what the caller has put there: `sys_open` prints a line first.  A missing file is never created,
because `flags & O_CREAT` is `flags & 0`. -/
def sysOpen (s : Kernel) (path : List UInt8) (flags leftover : ℕ) : Option (ℤ × Kernel) :=
  let inode := s.fs.getInode path
  if inode.iNumber = 0 ∧ flags &&& oCreat = 0 then some (-1, s)
  else
    let index := s.inodeSlot inode.iNumber
    ((s.enterInode inode).enterFile index flags leftover).map fun s ↦ (index, s)

/-- `sys_close`; the first component is what it returns. -/
def sysClose (s : Kernel) (fileDescriptor : ℤ) : ℤ × Kernel :=
  if fileDescriptor < 0 then (-1, s)
  else
    let d := fileDescriptor.toNat
    let file := s.openFileTable d
    let inode := s.inodeOf d
    if inode.iNumber = 0 ∨ file.maxCount = 0 then (-1, s)
    else
      let s := s.setFile d { file with maxCount := file.maxCount - 1 }
      let s := s.setInode file.inodeIndex
        { inode with maxCount := (inode.maxCount + (2 ^ 8 - 1)) % 2 ^ 8 }
      if file.maxCount - 1 = 0 then
        let s := { s with vmm := s.vmm.closePages file.address (filePageCount inode.size) }
        (0, (s.setInode file.inodeIndex Inode.zero).setFile d OpenFile.zero)
      else (0, s)

/-! ## What `sys_open` does -/

theorem findSlot_le (p : ℕ → Bool) : findSlot p ≤ tableEntries := by
  rw [findSlot]
  cases h : (List.range tableEntries).find? p with
  | none => exact Nat.le_refl _
  | some i => exact (List.mem_range.mp (List.mem_of_find?_eq_some h)).le

theorem findSlot_lt {p : ℕ → Bool} (h : findSlot p < tableEntries) : p (findSlot p) = true := by
  rw [findSlot] at h ⊢
  cases hf : (List.range tableEntries).find? p with
  | none =>
    rw [hf] at h
    exact absurd h (Nat.lt_irrefl _)
  | some i => exact List.find?_some hf

theorem findSlot_eq {p : ℕ → Bool} (h : findSlot p = tableEntries) {i : ℕ}
    (hi : i < tableEntries) : p i = false := by
  rw [findSlot] at h
  cases hf : (List.range tableEntries).find? p with
  | none => exact Bool.eq_false_iff.mpr (List.find?_eq_none.mp hf i (List.mem_range.mpr hi))
  | some j =>
    rw [hf] at h
    have := List.mem_range.mp (List.mem_of_find?_eq_some hf)
    exact absurd h (Nat.ne_of_lt this)

/-- A search stops at the first entry at the latest that it looks for. -/
theorem findSlot_le_of {p : ℕ → Bool} {i : ℕ} (hp : p i = true) (hi : i < tableEntries) :
    findSlot p ≤ i := by
  rw [findSlot]
  cases hf : (List.range tableEntries).find? p with
  | none =>
    have hnone := List.find?_eq_none.mp hf i (List.mem_range.mpr hi)
    exact absurd hp hnone
  | some j =>
    by_contra hlt
    have hfirst := (List.find?_range_eq_some.mp hf).2.2 i (not_le.mp hlt)
    rw [hp] at hfirst
    exact absurd hfirst (by decide)

theorem openFileFuel_gt : tableEntries < openFileFuel := by
  rw [openFileFuel]
  decide

/-- The search for a free descriptor goes on behind those that are in use. -/
theorem findFile_of_used {table : ℕ → OpenFile} {d : ℕ}
    (hfree : ¬ ((table d).address ≠ 0 ∧ (table d).maxCount ≠ 0)) : ∀ n fuel i, i + n = d →
    n < fuel → (∀ e, i ≤ e → e < d → (table e).address ≠ 0 ∧ (table e).maxCount ≠ 0) →
    findFile table fuel i = some d
  | 0, fuel + 1, i, hi, _, _ => by
    obtain rfl : i = d := hi
    rw [findFile, if_neg hfree]
  | n + 1, fuel + 1, i, hi, hfuel, hused => by
    rw [findFile, if_pos (hused i (Nat.le_refl i) (by omega))]
    exact findFile_of_used hfree n fuel (i + 1) (by omega) (by omega)
      fun e h₁ h₂ ↦ hused e (by omega) h₂

variable {s t : Kernel}

theorem fileSlot_of_used {d index : ℕ} (hindex : index < tableEntries)
    (hused : ∀ e < d, (s.openFileTable e).address ≠ 0 ∧ (s.openFileTable e).maxCount ≠ 0)
    (hfree : (s.openFileTable d).maxCount = 0) (hd : d < tableEntries) :
    s.fileSlot index = some d := by
  rw [fileSlot, if_pos hindex]
  exact findFile_of_used (fun hh ↦ hh.2 hfree) d openFileFuel 0 (Nat.zero_add d)
    (hd.trans openFileFuel_gt) fun e _ he ↦ hused e he

theorem inodeSlot_congr (h : ∀ i, (t.openInodeTable i).iNumber = (s.openInodeTable i).iNumber)
    (iNumber : ℕ) : t.inodeSlot iNumber = s.inodeSlot iNumber := by
  simp only [inodeSlot, h]

/-- A file that is not in the table gets a free slot. -/
theorem inodeSlot_of_new {iNumber : ℕ}
    (hnew : ∀ i ≤ tableEntries, (s.openInodeTable i).iNumber ≠ iNumber) :
    s.inodeSlot iNumber = findSlot fun i ↦ (s.openInodeTable i).iNumber == 0 :=
  if_neg (hnew _ (findSlot_le _))

theorem enterInode_of_new {inode : Inode}
    (hnew : ∀ i ≤ tableEntries, (s.openInodeTable i).iNumber ≠ inode.iNumber) :
    s.enterInode inode = { s.setInode (s.inodeSlot inode.iNumber) inode with
      currentOpenInodes := (s.currentOpenInodes + 1) % 2 ^ 32 } :=
  if_neg (hnew _ (findSlot_le _))

theorem enterInode_frame (s : Kernel) (inode : Inode) :
    (s.enterInode inode).vmm = s.vmm ∧ (s.enterInode inode).fs = s.fs ∧
      (s.enterInode inode).openFileTable = s.openFileTable ∧
      (s.enterInode inode).fileVirtualAddress = s.fileVirtualAddress ∧
      (s.enterInode inode).currentOpenFiles = s.currentOpenFiles := by
  rw [enterInode]
  dsimp only
  split_ifs <;> exact ⟨rfl, rfl, rfl, rfl, rfl⟩

/-- The inode whose size and blocks `sys_open` takes for those of the file. -/
def loadedInode (s : Kernel) (inode : Inode) : Inode :=
  (s.enterInode inode).openInodeTable
    (s.inodeSlot inode.iNumber + s.inodeSlot inode.iNumber % 2 ^ 8)

/-- What is left behind: the inode and the descriptor `d` have been entered, and `vmm` has the pages
of the file. -/
def opened (s : Kernel) (inode : Inode) (flags d : ℕ) (vmm : Vmm) : Kernel :=
  { s.enterInode inode with
    vmm
    openFileTable := Function.update s.openFileTable d
      ⟨s.inodeSlot inode.iNumber % 2 ^ 8, 0, s.fileVirtualAddress, 1, flags,
        filePageCount (s.loadedInode inode).size % 2 ^ 8⟩
    fileVirtualAddress := (s.fileVirtualAddress +
      filePageCount (s.loadedInode inode).size * pageSize) % 2 ^ 32
    currentOpenFiles := (s.currentOpenFiles + 1) % 2 ^ 32 }

/-- The pages that `sys_open` maps. -/
def mapped (s : Kernel) (inode : Inode) : Vmm :=
  s.vmm.mapPages Vmm.freshFrame s.fileVirtualAddress (filePageCount (s.loadedInode inode).size)

/-- **What a call of `sys_open` does** for a file that exists. -/
theorem sysOpen_eq {path : List UInt8} {inode : Inode} (hinode : s.fs.getInode path = inode)
    (hne : inode.iNumber ≠ 0) (flags leftover : ℕ) :
    s.sysOpen path flags leftover = (s.fileSlot (s.inodeSlot inode.iNumber)).bind fun d ↦
      (loadFile s.fs.disk (s.loadedInode inode) (s.mapped inode) s.fileVirtualAddress leftover).map
        fun vmm ↦ ((s.inodeSlot inode.iNumber : ℤ), s.opened inode flags d vmm) := by
  obtain ⟨hvmm, hfs, htable, hfva, hcount⟩ := s.enterInode_frame inode
  rw [sysOpen, hinode, oCreat, Nat.and_zero]
  dsimp only
  rw [if_neg fun hh ↦ hne hh.1, enterFile, fileSlot, htable, ← fileSlot]
  cases s.fileSlot (s.inodeSlot inode.iNumber) with
  | none => rfl
  | some d =>
    simp only [Option.bind_some, Option.map_map, addPages, setFile, opened, mapped, loadedInode,
      Function.update_self, Function.update_idem, htable, hfva, hfs, hvmm, hcount, Nat.zero_add]
    rfl

/-- A call that returns has found nothing, or has opened the file. -/
theorem sysOpen_cases {path : List UInt8} {flags leftover : ℕ} {r : ℤ}
    (h : s.sysOpen path flags leftover = some (r, t)) {inode : Inode}
    (hinode : s.fs.getInode path = inode) :
    (inode.iNumber = 0 ∧ r = -1 ∧ t = s) ∨
    (inode.iNumber ≠ 0 ∧ r = s.inodeSlot inode.iNumber ∧
      ∃ d vmm, s.fileSlot (s.inodeSlot inode.iNumber) = some d ∧
        loadFile s.fs.disk (s.loadedInode inode) (s.mapped inode) s.fileVirtualAddress leftover =
          some vmm ∧ t = s.opened inode flags d vmm) := by
  by_cases hne : inode.iNumber = 0
  · rw [sysOpen, hinode, oCreat, Nat.and_zero] at h
    dsimp only at h
    rw [if_pos ⟨hne, rfl⟩] at h
    cases h
    exact Or.inl ⟨hne, rfl, rfl⟩
  · rw [sysOpen_eq hinode hne] at h
    obtain ⟨d, hd, h⟩ := Option.bind_eq_some_iff.mp h
    obtain ⟨vmm, hload, h⟩ := Option.map_eq_some_iff.mp h
    cases h
    exact Or.inr ⟨hne, rfl, d, vmm, hd, hload, rfl⟩

theorem sysOpen_fs {path : List UInt8} {flags leftover : ℕ} {r : ℤ}
    (h : s.sysOpen path flags leftover = some (r, t)) : t.fs = s.fs := by
  obtain ⟨-, -, rfl⟩ | ⟨-, -, d, vmm, -, -, rfl⟩ := sysOpen_cases h rfl
  · rfl
  · exact (s.enterInode_frame _).2.1

/-- An empty file is opened without reading the disk. -/
theorem sysOpen_empty {path : List UInt8} {inode : Inode} (hinode : s.fs.getInode path = inode)
    (hne : inode.iNumber ≠ 0) {d : ℕ} (hd : s.fileSlot (s.inodeSlot inode.iNumber) = some d)
    (hempty : (s.loadedInode inode).size = 0) (flags leftover : ℕ) :
    s.sysOpen path flags leftover = some ((s.inodeSlot inode.iNumber : ℤ),
      s.opened inode flags d (s.vmm.mapPages Vmm.freshFrame s.fileVirtualAddress 1)) := by
  have hpages : filePageCount (s.loadedInode inode).size = 1 := by
    rw [hempty]
    rfl
  rw [sysOpen_eq hinode hne, hd, Option.bind_some, loadFile, hempty, mapped, hpages]
  rfl

end Kernel

end AbOS
