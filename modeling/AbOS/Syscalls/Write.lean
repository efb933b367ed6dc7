import AbOS.Lib.Run
import AbOS.Syscalls.State

/-!
# `sys_write` and the disk

`sys_write` copies the buffer into the pages of the file, moves the offset and the size, and writes
the inode and the whole file back.  It never gives the file a block: `save_file` takes the number
of blocks from the size, and writes the blocks behind the last one the file owns to wherever the
pointer says, which is block 0 when the pointer was never set (`not_staysOnOwnBlocks_oneFile`).

`sysWrite_disk` says what one call changes on the disk.  Runs in which each file has blocks for what
is written to it stay on their own blocks (`staysOnOwnBlocks_of_meets`).
-/

set_option autoImplicit false

namespace AbOS

namespace Kernel

/-- The flags let `sys_write` through; so do those of `O_RDONLY`. -/
def Writable (file : OpenFile) : Prop :=
  file.flags &&& oWronly ≠ 0 ∨ file.flags &&& oRdwr ≠ 0

instance (file : OpenFile) : Decidable (Writable file) := inferInstanceAs (Decidable (_ ∨ _))

/-- The first step of `sys_write`: with `O_APPEND` it writes behind the end. -/
def seekToEnd (s : Kernel) (d : ℕ) : Kernel :=
  let file := s.openFileTable d
  if file.flags &&& oAppend ≠ 0 then s.setFile d { file with lseek := (s.inodeOf d).size } else s

/-- The second step: new pages when the file grows out of its own.  `address` points to words, so
the clearing starts four times as far behind it as the size says. -/
def growPages (s : Kernel) (d length : ℕ) : Option Kernel :=
  let file := s.openFileTable d
  let inode := s.inodeOf d
  if (file.lseek + length) % 2 ^ 32 > file.pagesAllocated * pageSize then
    let bytesToAllocate := (file.lseek + length + (2 ^ 32 - inode.size)) % 2 ^ 32
    let s := s.addPages d (filePageCount bytesToAllocate)
    (s.vmm.memset (file.address + 4 * inode.size) 0 bytesToAllocate).map fun vmm ↦ { s with vmm }
  else some s

/-- The third step: copy the buffer, to four times the offset, and move on. -/
def copyBuffer (s : Kernel) (d buffer length : ℕ) : Option Kernel :=
  let file := s.openFileTable d
  (s.vmm.memcpy (file.address + 4 * file.lseek) buffer length).map fun vmm ↦
    { s.setFile d { file with lseek := (file.lseek + length) % 2 ^ 32 } with vmm }

/-- The fourth step: the size follows the offset. -/
def growSize (s : Kernel) (d : ℕ) : Kernel :=
  let file := s.openFileTable d
  let inode := s.inodeOf d
  if file.lseek > inode.size then s.setInode file.inodeIndex { inode with size := file.lseek }
  else s

/-- The last step: the inode and the file go to the disk. -/
def writeBack (s : Kernel) (d leftover : ℕ) : Option Kernel :=
  let file := s.openFileTable d
  let inode := s.inodeOf d
  let disk := updateInode s.fs.disk s.fs.superblock inode
  (saveFile disk inode s.vmm file.address leftover).map fun (disk, vmm) ↦
    { s with
      fs := { s.fs with disk }
      vmm }

/-- `sys_write`; the first component is what it returns. -/
def sysWrite (s : Kernel) (fileDescriptor : ℤ) (buffer length leftover : ℕ) :
    Option (ℤ × Kernel) :=
  if fileDescriptor < 0 then some (fileDescriptor, s)
  else
    let d := fileDescriptor.toNat
    if ¬ Writable (s.openFileTable d) then some (-1, s)
    else
      ((s.seekToEnd d).growPages d length).bind fun s ↦
        (s.copyBuffer d buffer length).bind fun s ↦
          ((s.growSize d).writeBack d leftover).map fun s ↦ (length, s)

/-! ## The steps of a call -/

/-- The bytes that `sys_write` allocates pages for, if the file grows out of its own. -/
def growth (s : Kernel) (d length : ℕ) : Option ℕ :=
  let file := s.openFileTable d
  if (file.lseek + length) % 2 ^ 32 > file.pagesAllocated * pageSize then
    some ((file.lseek + length + (2 ^ 32 - (s.inodeOf d).size)) % 2 ^ 32)
  else none

/-- The second step maps the pages of the growth and clears it. -/
theorem growPages_eq (s : Kernel) (d length : ℕ) :
    s.growPages d length = match s.growth d length with
      | some bytes => ((s.addPages d (filePageCount bytes)).vmm.memset
          ((s.openFileTable d).address + 4 * (s.inodeOf d).size) 0 bytes).map fun vmm ↦
            { s.addPages d (filePageCount bytes) with vmm }
      | none => some s := by
  rw [growPages, growth]
  split_ifs <;> rfl

section Steps

variable {s t : Kernel} {d : ℕ}

/-- The tables of `t` are those of `s`, up to what `sys_write` changes. -/
structure SameFiles (s t : Kernel) : Prop where
  superblock : t.fs.superblock = s.fs.superblock
  inodeIndex : ∀ d, (t.openFileTable d).inodeIndex = (s.openFileTable d).inodeIndex
  maxCount : ∀ d, (t.openFileTable d).maxCount = (s.openFileTable d).maxCount
  iNumber : ∀ i, (t.openInodeTable i).iNumber = (s.openInodeTable i).iNumber
  directPointers : ∀ i, (t.openInodeTable i).directPointers = (s.openInodeTable i).directPointers

theorem SameFiles.refl (s : Kernel) : SameFiles s s :=
  ⟨rfl, fun _ ↦ rfl, fun _ ↦ rfl, fun _ ↦ rfl, fun _ ↦ rfl⟩

theorem SameFiles.trans {u : Kernel} (h : SameFiles s t) (h' : SameFiles t u) : SameFiles s u :=
  ⟨h'.superblock.trans h.superblock, fun d ↦ (h'.inodeIndex d).trans (h.inodeIndex d),
    fun d ↦ (h'.maxCount d).trans (h.maxCount d), fun i ↦ (h'.iNumber i).trans (h.iNumber i),
    fun i ↦ (h'.directPointers i).trans (h.directPointers i)⟩

/-- A change of the offset and the pages of one descriptor. -/
theorem sameFiles_setFile {file : OpenFile} (hindex : file.inodeIndex = (s.openFileTable d).inodeIndex)
    (hcount : file.maxCount = (s.openFileTable d).maxCount) : SameFiles s (s.setFile d file) := by
  refine ⟨rfl, fun e ↦ ?_, fun e ↦ ?_, fun _ ↦ rfl, fun _ ↦ rfl⟩ <;>
    simp only [setFile, Function.update_apply] <;> split <;> rename_i he
  · rw [hindex, he]
  · rfl
  · rw [hcount, he]
  · rfl

theorem SameFiles.inodeOf (h : SameFiles s t) (d : ℕ) :
    (t.inodeOf d).iNumber = (s.inodeOf d).iNumber ∧
      (t.inodeOf d).directPointers = (s.inodeOf d).directPointers := by
  rw [Kernel.inodeOf, Kernel.inodeOf, h.inodeIndex, h.iNumber, h.directPointers]
  exact ⟨rfl, rfl⟩

/-- Where a call starts to write. -/
def writeStart (s : Kernel) (d : ℕ) : ℕ :=
  if (s.openFileTable d).flags &&& oAppend ≠ 0 then (s.inodeOf d).size else (s.openFileTable d).lseek

theorem seekToEnd_spec (s : Kernel) (d : ℕ) :
    SameFiles s (s.seekToEnd d) ∧ (s.seekToEnd d).fs = s.fs ∧
      (s.seekToEnd d).openInodeTable = s.openInodeTable ∧
      ((s.seekToEnd d).openFileTable d).lseek = s.writeStart d := by
  rw [seekToEnd, writeStart]
  split
  · exact ⟨sameFiles_setFile rfl rfl, rfl, rfl, by simp [setFile]⟩
  · exact ⟨SameFiles.refl s, rfl, rfl, rfl⟩

theorem seekToEnd_frame (s : Kernel) (d : ℕ) : (s.seekToEnd d).vmm = s.vmm ∧
    (s.seekToEnd d).fileVirtualAddress = s.fileVirtualAddress ∧
      (s.seekToEnd d).openFileTable = Function.update s.openFileTable d
        { s.openFileTable d with lseek := s.writeStart d } := by
  rw [seekToEnd, writeStart]
  split
  · exact ⟨rfl, rfl, rfl⟩
  · exact ⟨rfl, rfl, (Function.update_eq_self d s.openFileTable).symm⟩

theorem growPages_spec {length : ℕ} (h : s.growPages d length = some t) :
    SameFiles s t ∧ t.fs = s.fs ∧ t.openInodeTable = s.openInodeTable ∧
      (t.openFileTable d).lseek = (s.openFileTable d).lseek := by
  rw [growPages] at h
  split at h
  · obtain ⟨vmm, -, rfl⟩ := Option.map_eq_some_iff.mp h
    have hsame : SameFiles s (s.setFile d { s.openFileTable d with
        pagesAllocated := ((s.openFileTable d).pagesAllocated + filePageCount
          (((s.openFileTable d).lseek + length + (2 ^ 32 - (s.inodeOf d).size)) % 2 ^ 32)) %
          2 ^ 8 }) := sameFiles_setFile rfl rfl
    exact ⟨⟨rfl, hsame.inodeIndex, hsame.maxCount, fun _ ↦ rfl, fun _ ↦ rfl⟩, rfl, rfl,
      by simp [addPages, setFile]⟩
  · cases h
    exact ⟨SameFiles.refl s, rfl, rfl, rfl⟩

theorem copyBuffer_spec {buffer length : ℕ} (h : s.copyBuffer d buffer length = some t) :
    SameFiles s t ∧ t.fs = s.fs ∧ t.openInodeTable = s.openInodeTable ∧
      (t.openFileTable d).lseek = ((s.openFileTable d).lseek + length) % 2 ^ 32 := by
  obtain ⟨vmm, -, rfl⟩ := Option.map_eq_some_iff.mp h
  have hsame : SameFiles s (s.setFile d { s.openFileTable d with
      lseek := ((s.openFileTable d).lseek + length) % 2 ^ 32 }) := sameFiles_setFile rfl rfl
  exact ⟨⟨rfl, hsame.inodeIndex, hsame.maxCount, fun _ ↦ rfl, fun _ ↦ rfl⟩, rfl, rfl,
    by simp [setFile]⟩

theorem growSize_spec (s : Kernel) (d : ℕ) :
    SameFiles s (s.growSize d) ∧ (s.growSize d).fs = s.fs ∧
      ((s.growSize d).inodeOf d).size = max (s.inodeOf d).size (s.openFileTable d).lseek := by
  rw [growSize]
  split
  · refine ⟨⟨rfl, fun _ ↦ rfl, fun _ ↦ rfl, fun i ↦ ?_, fun i ↦ ?_⟩, rfl, ?_⟩
    · simp only [setInode, Function.update_apply]
      split
      · rename_i hi
        rw [hi]
        rfl
      · rfl
    · simp only [setInode, Function.update_apply]
      split
      · rename_i hi
        rw [hi]
        rfl
      · rfl
    · simp only [inodeOf, setInode, Function.update_self]
      rw [inodeOf] at *
      omega
  · refine ⟨SameFiles.refl s, rfl, ?_⟩
    omega

theorem growSize_frame (s : Kernel) (d : ℕ) : (s.growSize d).vmm = s.vmm ∧
    (s.growSize d).openFileTable = s.openFileTable ∧
      (s.growSize d).fileVirtualAddress = s.fileVirtualAddress := by
  rw [growSize]
  split <;> exact ⟨rfl, rfl, rfl⟩

/-- The size does not depend on the memory. -/
theorem growSize_vmm (s : Kernel) (vmm : Vmm) (d : ℕ) :
    ({ s with vmm } : Kernel).growSize d = { s.growSize d with vmm } := by
  have heq : ∀ u : Kernel, u.growSize d = { u with
      openInodeTable := if (u.openFileTable d).lseek > (u.inodeOf d).size then
        Function.update u.openInodeTable (u.openFileTable d).inodeIndex
          { u.inodeOf d with size := (u.openFileTable d).lseek } else u.openInodeTable } := fun u ↦ by
    rw [growSize]
    split <;> rfl
  rw [heq, heq]
  rfl

/-- A call that is not refused goes through all of its steps. -/
theorem sysWrite_of_writable (hflags : Writable (s.openFileTable d))
    (buffer length leftover : ℕ) : s.sysWrite d buffer length leftover =
      ((s.seekToEnd d).growPages d length).bind fun s ↦
        (s.copyBuffer d buffer length).bind fun s ↦
          ((s.growSize d).writeBack d leftover).map fun s ↦ ((length : ℤ), s) := by
  rw [sysWrite, if_neg (Int.not_lt.mpr (Int.natCast_nonneg d)), Int.toNat_natCast]
  dsimp only
  rw [if_neg (not_not.mpr hflags)]

/-- Everything a call can do: be refused, or go through its steps. -/
theorem sysWrite_cases {fileDescriptor r : ℤ} {buffer length leftover : ℕ}
    (h : s.sysWrite fileDescriptor buffer length leftover = some (r, t)) :
    (fileDescriptor < 0 ∧ r = fileDescriptor ∧ t = s) ∨
    (0 ≤ fileDescriptor ∧ ¬ Writable (s.openFileTable fileDescriptor.toNat) ∧ r = -1 ∧ t = s) ∨
    ∃ (d : ℕ) (s₂ s₃ : Kernel), fileDescriptor = d ∧ Writable (s.openFileTable d) ∧ r = length ∧
      (s.seekToEnd d).growPages d length = some s₂ ∧ s₂.copyBuffer d buffer length = some s₃ ∧
      (s₃.growSize d).writeBack d leftover = some t := by
  by_cases hneg : fileDescriptor < 0
  · rw [sysWrite, if_pos hneg] at h
    cases h
    exact Or.inl ⟨hneg, rfl, rfl⟩
  obtain ⟨d, rfl⟩ := Int.eq_ofNat_of_zero_le (Int.not_lt.mp hneg)
  by_cases hflags : Writable (s.openFileTable d)
  · rw [sysWrite_of_writable hflags] at h
    obtain ⟨s₂, h₂, h⟩ := Option.bind_eq_some_iff.mp h
    obtain ⟨s₃, h₃, h⟩ := Option.bind_eq_some_iff.mp h
    obtain ⟨s₅, h₅, h⟩ := Option.map_eq_some_iff.mp h
    cases h
    exact Or.inr (Or.inr ⟨d, s₂, s₃, rfl, hflags, rfl, h₂, h₃, h₅⟩)
  · rw [sysWrite, if_neg hneg, Int.toNat_natCast] at h
    dsimp only at h
    rw [if_pos hflags] at h
    cases h
    exact Or.inr (Or.inl ⟨Int.not_lt.mp hneg, hflags, rfl, rfl⟩)

/-- **What a call changes on the disk**: the inode, and the blocks that its pointers name for the
size the file has afterwards. -/
theorem sysWrite_disk {fileDescriptor r : ℤ} {buffer length leftover : ℕ}
    (h : s.sysWrite fileDescriptor buffer length leftover = some (r, t)) :
    SameFiles s t ∧ ∀ x, t.fs.disk x ≠ s.fs.disk x →
      0 ≤ fileDescriptor ∧ Writable (s.openFileTable fileDescriptor.toNat) ∧
      ((inodeAddress s.fs.superblock (s.inodeOf fileDescriptor.toNat).iNumber ≤ x ∧
          x < inodeAddress s.fs.superblock (s.inodeOf fileDescriptor.toNat).iNumber + inodeBytes) ∨
        ∃ i, i < bytesToBlocks (max (s.inodeOf fileDescriptor.toNat).size
            ((s.writeStart fileDescriptor.toNat + length) % 2 ^ 32)) ∧
          sectorAddress (blockSector ((s.inodeOf fileDescriptor.toNat).directPointers i)) ≤ x ∧
          x < sectorAddress (blockSector ((s.inodeOf fileDescriptor.toNat).directPointers i)) +
            fsBlock) := by
  obtain ⟨-, -, rfl⟩ | ⟨-, -, -, rfl⟩ | ⟨d, s₂, s₃, rfl, hflags, -, h₂, h₃, h₅⟩ :=
    sysWrite_cases h
  · exact ⟨SameFiles.refl t, fun x hx ↦ absurd rfl hx⟩
  · exact ⟨SameFiles.refl t, fun x hx ↦ absurd rfl hx⟩
  rw [Int.toNat_natCast]
  obtain ⟨hs₁, hfs₁, hit₁, hl₁⟩ := s.seekToEnd_spec d
  obtain ⟨hs₂, hfs₂, hit₂, hl₂⟩ := growPages_spec h₂
  obtain ⟨hs₃, hfs₃, hit₃, hl₃⟩ := copyBuffer_spec h₃
  obtain ⟨hs₄, hfs₄, hsize⟩ := s₃.growSize_spec d
  have hsame := ((hs₁.trans hs₂).trans hs₃).trans hs₄
  obtain ⟨hnum, hptr⟩ := hsame.inodeOf d
  have hfs : (s₃.growSize d).fs = s.fs := by rw [hfs₄, hfs₃, hfs₂, hfs₁]
  have hsize₃ : (s₃.inodeOf d).size = (s.inodeOf d).size := by
    rw [inodeOf, inodeOf, hit₃, hit₂, hit₁, ((hs₁.trans hs₂).trans hs₃).inodeIndex]
  rw [hsize₃, hl₃, hl₂, hl₁] at hsize
  obtain ⟨⟨disk, vmm⟩, hsave, rfl⟩ := Option.map_eq_some_iff.mp h₅
  rw [saveFile, hsize, hfs] at hsave
  refine ⟨⟨hsame.superblock, hsame.inodeIndex, hsame.maxCount, hsame.iNumber,
    hsame.directPointers⟩, fun x hx ↦ ⟨Int.natCast_nonneg d, hflags, ?_⟩⟩
  by_contra hcon
  rw [not_or, not_exists] at hcon
  obtain ⟨hinode, hblocks⟩ := hcon
  refine hx ?_
  show disk x = s.fs.disk x
  rw [saveBlocks_of_not_mem hsave, updateInode_eq, ByteStore.splice_of_not_mem]
  · rw [Inode.length_bytes, hnum]
    omega
  · intro i hi
    have := hblocks i
    rw [hptr]
    omega

end Steps

/-! ## Runs -/

/-- A call of `sys_write`. -/
structure WriteCall where
  fileDescriptor : ℤ
  buffer : BitVec 32
  length : BitVec 32
  /-- What `save_file` finds in `offset`. -/
  leftover : BitVec 32

/-- The state after one call. -/
def write (s : Kernel) (c : WriteCall) : Option Kernel :=
  (s.sysWrite c.fileDescriptor c.buffer.toNat c.length.toNat c.leftover.toNat).map Prod.snd

/-- The descriptor is one of the table and in use. -/
def Open (s : Kernel) (fileDescriptor : ℤ) : Prop :=
  0 ≤ fileDescriptor ∧ fileDescriptor < 256 ∧ (s.openFileTable fileDescriptor.toNat).maxCount ≠ 0

/-- `b` is a data block of the inode. -/
def Owns (inode : Inode) (b : ℕ) : Prop := ∃ i, i < 7 ∧ inode.directPointers i = b ∧ b ≠ 0

/-- The block in which the inode lies. -/
def inodeBlock (superblock : Superblock) (inode : Inode) : ℕ :=
  superblock.firstInodeBlock + inode.iNumber / inodesPerBlock

/-- The inodes of open files lie in the inode table, their blocks behind it on the disk, and no
block belongs to two of them. -/
structure WellFormed (s : Kernel) : Prop where
  firstInodeBlock : 0 < s.fs.superblock.firstInodeBlock
  firstDataBlock : s.fs.superblock.firstDataBlock ≤ 2 ^ 25
  inode : ∀ fd, s.Open fd →
    inodeBlock s.fs.superblock (s.inodeOf fd.toNat) < s.fs.superblock.firstDataBlock
  data : ∀ fd b, s.Open fd → Owns (s.inodeOf fd.toNat) b →
    s.fs.superblock.firstDataBlock ≤ b ∧ b < 2 ^ 25
  apart : ∀ fd fd' b, s.Open fd → s.Open fd' → Owns (s.inodeOf fd.toNat) b →
    Owns (s.inodeOf fd'.toNat) b → (s.inodeOf fd.toNat).iNumber = (s.inodeOf fd'.toNat).iNumber

/-- The calls change their own blocks only: the block of an inode that was written to, and the
blocks which that inode owns. -/
structure StaysOnOwnBlocks (s : Kernel) (calls : List WriteCall) (t : Kernel) : Prop where
  own : ∀ x, t.fs.disk x ≠ s.fs.disk x → ∃ c ∈ calls,
    x / fsBlock = inodeBlock s.fs.superblock (s.inodeOf c.fileDescriptor.toNat) ∨
      Owns (s.inodeOf c.fileDescriptor.toNat) (x / fsBlock)
  /-- The boot record, the superblock and the bitmaps lie in front of the inodes. -/
  metadata : ∀ x, x / fsBlock < s.fs.superblock.firstInodeBlock → t.fs.disk x = s.fs.disk x
  /-- Files that no call is about keep their blocks. -/
  others : ∀ fd x, s.Open fd → Owns (s.inodeOf fd.toNat) (x / fsBlock) →
    (∀ c ∈ calls, (s.inodeOf c.fileDescriptor.toNat).iNumber ≠ (s.inodeOf fd.toNat).iNumber) →
      t.fs.disk x = s.fs.disk x

/-- The file has blocks for its size and for all that the call writes. -/
def FitsOwned (s : Kernel) (c : WriteCall) : Prop :=
  Writable (s.openFileTable c.fileDescriptor.toNat) →
    ∀ i, i * fsBlock < max (s.inodeOf c.fileDescriptor.toNat).size
        (s.writeStart c.fileDescriptor.toNat + c.length.toNat) →
      i < 7 ∧ (s.inodeOf c.fileDescriptor.toNat).directPointers i ≠ 0

/-- The inode of an open file lies in its block. -/
theorem WellFormed.inode_div {s : Kernel} (h : s.WellFormed) {fd : ℤ} (hfd : s.Open fd) {x : ℕ}
    (h₁ : inodeAddress s.fs.superblock (s.inodeOf fd.toNat).iNumber ≤ x)
    (h₂ : x < inodeAddress s.fs.superblock (s.inodeOf fd.toNat).iNumber + inodeBytes) :
    x / fsBlock = inodeBlock s.fs.superblock (s.inodeOf fd.toNat) := by
  have hlt := h.inode fd hfd
  have hdata := h.firstDataBlock
  rw [inodeBlock] at hlt ⊢
  generalize (s.inodeOf fd.toNat).iNumber = i at h₁ h₂ hlt ⊢
  have haddr : s.fs.superblock.firstInodeBlock * fsBlock + i * inodeBytes < 2 ^ 37 := by
    rw [inodesPerBlock] at hlt
    rw [fsBlock, inodeBytes] at *
    omega
  rw [inodeAddress_eq haddr] at h₁ h₂
  rw [inodesPerBlock]
  rw [fsBlock, inodeBytes] at *
  omega

/-- What a run may have changed so far. -/
def ChangedOwn (s : Kernel) (calls : List WriteCall) (t : Kernel) : Prop :=
  ∀ x, t.fs.disk x ≠ s.fs.disk x → ∃ c ∈ calls,
    x / fsBlock = inodeBlock s.fs.superblock (s.inodeOf c.fileDescriptor.toNat) ∨
      Owns (s.inodeOf c.fileDescriptor.toNat) (x / fsBlock)

/-- One call of a run that started in `s`. -/
theorem WellFormed.write_step {s u v : Kernel} {calls : List WriteCall} (hwf : s.WellFormed)
    {c : WriteCall} (hc : c ∈ calls) (hopen : s.Open c.fileDescriptor) (hsame : SameFiles s u)
    (hchanged : ChangedOwn s calls u) (hfit : FitsOwned u c) (hcall : u.write c = some v) :
    SameFiles s v ∧ ChangedOwn s calls v := by
  obtain ⟨⟨r, v⟩, hret, rfl⟩ := Option.map_eq_some_iff.mp hcall
  obtain ⟨hsame', hdisk⟩ := sysWrite_disk hret
  refine ⟨hsame.trans hsame', fun x hx ↦ ?_⟩
  by_cases hxu : v.fs.disk x = u.fs.disk x
  · exact hchanged x (hxu ▸ hx)
  -- the file is the same in `s` as in the state before the call
  obtain ⟨-, hflags, hx⟩ := hdisk x hxu
  obtain ⟨hnum, hptr⟩ := hsame.inodeOf c.fileDescriptor.toNat
  refine ⟨c, hc, ?_⟩
  rw [hsame.superblock, hnum, hptr] at hx
  rcases hx with ⟨h₁, h₂⟩ | ⟨i, hi, h₁, h₂⟩
  · exact Or.inl (hwf.inode_div hopen h₁ h₂)
  · obtain ⟨hi7, hne⟩ := hfit hflags i (by
      rw [bytesToBlocks_eq] at hi
      rw [fsBlock]
      omega)
    rw [hptr] at hne
    have howns : Owns (s.inodeOf c.fileDescriptor.toNat)
      ((s.inodeOf c.fileDescriptor.toNat).directPointers i) := ⟨i, hi7, rfl, hne⟩
    rw [sectorAddress_blockSector (hwf.data _ _ hopen howns).2] at h₁ h₂
    have hdiv : x / fsBlock = (s.inodeOf c.fileDescriptor.toNat).directPointers i := by
      rw [fsBlock] at *
      omega
    exact Or.inr (hdiv ▸ howns)

/-- **`sys_write` stays on its own blocks** in every run in which each file has blocks for what is
written to it. -/
theorem staysOnOwnBlocks_of_meets {s t : Kernel} {calls : List WriteCall} (hwf : s.WellFormed)
    (hopen : ∀ c ∈ calls, s.Open c.fileDescriptor) (hfits : Run.Meets write FitsOwned s calls)
    (hrun : Run.exec write s calls = some t) : StaysOnOwnBlocks s calls t := by
  have hfits' : Run.Meets write (fun u c ↦ FitsOwned u c ∧ c ∈ calls) s calls :=
    hfits.mono fun u c hc hfit ↦ ⟨hfit, hc⟩
  obtain ⟨-, hown⟩ := hfits'.invariant (fun u ↦ SameFiles s u ∧ ChangedOwn s calls u)
    (fun u c v ⟨hsame, hchanged⟩ ⟨hfit, hc⟩ hcall ↦
      hwf.write_step hc (hopen c hc) hsame hchanged hfit hcall)
    ⟨SameFiles.refl s, fun x hx ↦ absurd rfl hx⟩ hrun
  refine ⟨hown, fun x hx ↦ ?_, fun fd x hfd hx hother ↦ ?_⟩
  · by_contra hne
    obtain ⟨c, hc, hblock | hblock⟩ := hown x hne
    · exact absurd hx (Nat.not_lt.mpr (hblock ▸ Nat.le_add_right ..))
    · have hinode := hwf.inode _ (hopen c hc)
      have hfirst : s.fs.superblock.firstInodeBlock ≤ s.fs.superblock.firstDataBlock :=
        (Nat.le_add_right ..).trans hinode.le
      exact absurd hx (Nat.not_lt.mpr (hfirst.trans (hwf.data _ _ (hopen c hc) hblock).1))
  · by_contra hne
    obtain ⟨c, hc, hblock | hblock⟩ := hown x hne
    · exact absurd (hwf.inode _ (hopen c hc)) (Nat.not_lt.mpr (hblock ▸ (hwf.data _ _ hfd hx).1))
    · exact hother c hc (hwf.apart _ _ _ (hopen c hc) hfd hblock hx)

/-! ## One file -/

/-- One page table, at `0x2000`, that maps `0x40000000` to the frame at `0x3000`. -/
def oneFileVmm : Vmm where
  ram := fun x ↦ if x = 0x1400 then 0x07 else if x = 0x1401 then 0x20 else if x = 0x2000 then 0x07
    else if x = 0x2001 then 0x30 else if x = 0x3064 then 0x2A else 0
  pmm := Vmm.barePmm
  directory := 0x1000

/-- Descriptor 0 is a file of `size` bytes opened for writing. -/
def oneFile (size : ℕ) (directPointers : ℕ → ℕ) : Kernel where
  vmm := oneFileVmm
  fs := {
    disk := fun _ ↦ 0
    superblock := ⟨8, 1, 1, 64, 8, 0, 0, 2, 3, 0, 4, 5, 64, 0, 0, 0, 8, 0, 1⟩
    rootInode := Inode.zero
    currentDirInode := Inode.zero }
  openFileTable := fun d ↦ if d = 0 then ⟨0, 0, 0x40000000, 1, oWronly, 1⟩ else OpenFile.zero
  openInodeTable := fun i ↦ if i = 0 then { Inode.zero with iNumber := 4, size, directPointers }
    else Inode.zero
  fileVirtualAddress := 0x40001000
  currentOpenFiles := 1
  currentOpenInodes := 1

theorem oneFileVmm_translate {k : ℕ} (hk : k < 4096) :
    oneFileVmm.translate ((0x40000000 + k) % 2 ^ 32) = some (0x3000 + k) := by
  have hwalk : oneFileVmm.walk 0x40000000 = some (0x3000, 7) := by decide +kernel
  rw [Nat.mod_eq_of_lt (by omega), Vmm.translate,
    Vmm.walk_page (show (0x40000000 + k) / 4096 = 0x40000000 / 4096 by omega), hwalk, Option.map_some]
  rw [pageSize]
  congr 1
  omega

theorem oneFileVmm_ram {x : ℕ} (hx : x < 0x2000) (h₁ : x ≠ 0x1400) (h₂ : x ≠ 0x1401) :
    oneFileVmm.ram x = 0 := by
  rw [oneFileVmm]
  simp only [if_neg h₁, if_neg h₂, if_neg (show x ≠ 0x2000 by omega),
    if_neg (show x ≠ 0x2001 by omega), if_neg (show x ≠ 0x3064 by omega)]

theorem oneFileVmm_not_isPaging : ¬ oneFileVmm.IsPaging 3 := by
  rintro (h | ⟨i, hi, hne, htable⟩)
  · exact absurd h (by decide)
  · by_cases h256 : i = 256
    · rw [h256] at htable
      exact absurd htable (by decide +kernel)
    · -- the other entries are zero
      refine hne ?_
      have hdir : oneFileVmm.directory = 0x1000 := rfl
      rw [Vmm.entry, hdir]
      exact ByteStore.readWord_of_zero fun _ _ ↦
        oneFileVmm_ram (by omega) (by omega) (by omega)

theorem oneFileVmm_dataAt {a n : ℕ} (h : a + n ≤ 4096) :
    oneFileVmm.DataAt (0x40000000 + a) n fun k ↦ 0x3000 + (a + k) := fun k hk ↦ by
  refine ⟨?_, ?_⟩
  · rw [Nat.add_assoc]
    exact oneFileVmm_translate (by omega)
  · dsimp only
    rw [show (0x3000 + (a + k)) / 4096 = 3 by omega]
    exact oneFileVmm_not_isPaging

/-- Writing back a file of one block. -/
theorem writeBack_one (s : Kernel) (d : ℕ) (bs : List UInt8)
    (hsize : bytesToBlocks (s.inodeOf d).size = 1)
    (hload : s.vmm.loadBytes (s.openFileTable d).address fsBlock = some (bs, s.vmm)) :
    s.writeBack d 0 = some { s with fs := { s.fs with
      disk := writeSectors (updateInode s.fs.disk s.fs.superblock (s.inodeOf d))
        (blockSector ((s.inodeOf d).directPointers 0)) bs } } := by
  rw [writeBack, saveFile, hsize, saveBlocks, saveBlocks, Option.bind_some]
  simp only [Nat.zero_mul, Nat.add_zero]
  rw [hload]
  rfl

/-- A call that stays inside the pages of the descriptor. -/
theorem sysWrite_of_fits {s : Kernel} {d : ℕ} (length : ℕ) (hflags : Writable (s.openFileTable d))
    (happend : (s.openFileTable d).flags &&& oAppend = 0)
    (hfits : ((s.openFileTable d).lseek + length) % 2 ^ 32 ≤
      (s.openFileTable d).pagesAllocated * pageSize) (buffer leftover : ℕ) :
    s.sysWrite d buffer length leftover = (s.copyBuffer d buffer length).bind fun s ↦
      ((s.growSize d).writeBack d leftover).map fun s ↦ ((length : ℤ), s) := by
  have hseek : s.seekToEnd d = s := by rw [seekToEnd, if_neg (not_not.mpr happend)]
  have hgrow : s.growPages d length = some s := by rw [growPages, if_neg (by omega)]
  rw [sysWrite_of_writable hflags, hseek, hgrow, Option.bind_some]

/-- Writing 16 bytes to the file, of at most one block, writes the page of the file to the block
that the first pointer names. -/
theorem oneFile_write (size : ℕ) (hsize : size ≤ 4096) (directPointers : ℕ → ℕ) :
    ∃ t disk bs, (oneFile size directPointers).write ⟨0, 0x40000008, 16, 0⟩ = some t ∧
      t.fs.disk = writeSectors disk (blockSector (directPointers 0)) bs ∧
      bs.getD 0x64 0 = 0x2A ∧ bs.length = 4096 := by
  obtain ⟨vmm, hcopy, hsame, hout, -⟩ := Vmm.memcpy_spec (m := oneFileVmm) (by decide)
    (oneFileVmm_dataAt (a := 0) (n := 16) (by omega))
    (fun k hk ↦ (oneFileVmm_dataAt (a := 8) (n := 16) (by omega) k hk).1)
  have hload := Vmm.loadBytes_spec (m := vmm) (v := 0x40000000) (n := fsBlock)
    (P := fun k ↦ 0x3000 + k) fun k hk ↦ by
      rw [hsame.translate (by decide) (Nat.mod_lt _ (by omega))]
      exact oneFileVmm_translate hk
  have hmem : vmm.ram 0x3064 = 0x2A := by
    rw [hout 0x3064 fun k hk ↦ by omega]
    decide +kernel
  generalize hs : oneFile size directPointers = s
  have hfile : s.openFileTable 0 = ⟨0, 0, 0x40000000, 1, oWronly, 1⟩ := by rw [← hs]; rfl
  have hvmm : s.vmm = oneFileVmm := by rw [← hs]; rfl
  have hinode : (s.inodeOf 0).size = size ∧ (s.inodeOf 0).directPointers = directPointers := by
    rw [← hs]
    exact ⟨rfl, rfl⟩
  have hcopied : ∃ u, s.copyBuffer 0 0x40000008 16 = some u ∧ u.vmm = vmm ∧
      (u.openFileTable 0).address = 0x40000000 := by
    rw [copyBuffer, hfile, hvmm]
    dsimp only
    rw [hcopy]
    exact ⟨_, rfl, rfl, by simp [setFile]⟩
  obtain ⟨u, hu, huvmm, huaddr⟩ := hcopied
  obtain ⟨husame, -, hutable, hulseek⟩ := copyBuffer_spec hu
  obtain ⟨hsame₄, -, hsize₄⟩ := u.growSize_spec 0
  have hgrown : (u.growSize 0).vmm = vmm ∧ ((u.growSize 0).openFileTable 0).address = 0x40000000 := by
    rw [growSize]
    split <;> exact ⟨huvmm, huaddr⟩
  have husize : (u.inodeOf 0).size = size := by
    rw [inodeOf, hutable, husame.inodeIndex]
    exact hinode.1
  have hptr : ((u.growSize 0).inodeOf 0).directPointers = directPointers :=
    ((husame.trans hsame₄).inodeOf 0).2.trans hinode.2
  have hback := writeBack_one (u.growSize 0) 0 ((List.range fsBlock).map fun k ↦
      vmm.ram (0x3000 + k)) (by
        rw [hsize₄, husize, hulseek, hfile, bytesToBlocks_eq]
        dsimp only
        omega)
    (by rw [hgrown.1, hgrown.2]; exact hload)
  rw [hptr] at hback
  have hcall := sysWrite_of_fits (s := s) (d := 0) 16 (by rw [hfile]; decide)
    (by rw [hfile]; decide) (by rw [hfile]; decide) 0x40000008 0
  rw [hu, Option.bind_some, hback] at hcall
  refine ⟨_, _, (List.range fsBlock).map fun k ↦ vmm.ram (0x3000 + k),
    congrArg (Option.map Prod.snd) hcall, rfl, ?_, by rw [List.length_map, List.length_range, fsBlock]⟩
  · rw [List.getD_eq_getElem _ _ (by rw [List.length_map, List.length_range, fsBlock]; decide)]
    rw [List.getElem_map, List.getElem_range]
    exact hmem

/-- A write to a file of one block changes that block and the inode. -/
theorem staysOnOwnBlocks_oneFile :
    ∃ t, Run.exec write (oneFile 100 fun i ↦ if i = 0 then 6 else 0)
        [⟨0, 0x40000008, 16, 0⟩] = some t ∧
      StaysOnOwnBlocks (oneFile 100 fun i ↦ if i = 0 then 6 else 0) [⟨0, 0x40000008, 16, 0⟩] t := by
  obtain ⟨t, -, -, ht, -⟩ := oneFile_write 100 (by omega) fun i ↦ if i = 0 then 6 else 0
  have hrun : Run.exec write (oneFile 100 fun i ↦ if i = 0 then 6 else 0)
      [⟨0, 0x40000008, 16, 0⟩] = some t := Run.exec_singleton ht
  have hopen : ∀ fd, (oneFile 100 fun i ↦ if i = 0 then 6 else 0).Open fd → fd.toNat = 0 := by
    intro fd hfd
    by_contra hne
    exact hfd.2.2 (by simp [oneFile, hne, OpenFile.zero])
  refine ⟨t, hrun, staysOnOwnBlocks_of_meets ⟨by decide, by decide, fun fd hfd ↦ ?_,
    fun fd b hfd ⟨i, hi, hb, hne⟩ ↦ ?_, fun fd fd' b hfd hfd' _ _ ↦ ?_⟩ ?_ ?_ hrun⟩
  · rw [hopen fd hfd]
    decide
  · rw [hopen fd hfd] at hb
    change (if i = 0 then 6 else 0) = b at hb
    split at hb
    · rw [← hb]
      decide
    · exact absurd hb.symm hne
  · rw [hopen fd hfd, hopen fd' hfd']
  · rintro c hc
    rw [List.mem_singleton.mp hc]
    exact ⟨by decide, by decide, by decide⟩
  · refine ⟨fun _ i hi ↦ ?_, fun _ _ ↦ trivial⟩
    change i * 4096 < max 100 (0 + 16) at hi
    obtain rfl : i = 0 := by omega
    exact ⟨by decide, by decide⟩

/-- The first byte written to an empty file goes to block 0. -/
theorem not_staysOnOwnBlocks_oneFile :
    ∃ t, Run.exec write (oneFile 0 fun _ ↦ 0) [⟨0, 0x40000008, 16, 0⟩] = some t ∧
      ¬ StaysOnOwnBlocks (oneFile 0 fun _ ↦ 0) [⟨0, 0x40000008, 16, 0⟩] t := by
  obtain ⟨t, disk, bs, ht, hdisk, hbs, hlen⟩ := oneFile_write 0 (by omega) fun _ ↦ 0
  refine ⟨t, Run.exec_singleton ht, fun hstays ↦ ?_⟩
  have hkept := hstays.metadata 0x64 (by decide)
  have hwritten : writeSectors disk (blockSector 0) bs 0x64 = 0x2A := by
    rw [writeSectors, show sectorAddress (blockSector 0) = 0 by decide]
    exact (ByteStore.splice_of_mem (a := 0) (i := 0x64) (by omega)).trans hbs
  rw [hdisk, hwritten] at hkept
  exact absurd hkept (by decide)

end Kernel

end AbOS
