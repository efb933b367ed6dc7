import AbOS.Syscalls.Write

/-!
# `sys_read`

`sys_read` copies from the pages of the file, from four times the offset on because `address`
points to words, and moves the offset.  It refuses a descriptor that is not open, which `sys_write`
does not do, and one whose flags have the bit of `O_WRONLY`; `O_RDWR` has that bit too.
-/

set_option autoImplicit false

namespace AbOS

namespace Kernel

/-- The flags do not let `sys_read` through. -/
def Unreadable (file : OpenFile) : Prop := file.flags &&& oWronly ≠ 0

instance (file : OpenFile) : Decidable (Unreadable file) := inferInstanceAs (Decidable (_ ≠ _))

/-- How many bytes `sys_read` copies: those up to the end of the file when it is asked for more. -/
def readCount (s : Kernel) (d length : ℕ) : ℕ :=
  let file := s.openFileTable d
  let size := (s.inodeOf d).size
  if size < (file.lseek + length) % 2 ^ 32 then (size + (2 ^ 32 - file.lseek)) % 2 ^ 32 else length

/-- `sys_read`; the first component is what it returns. -/
def sysRead (s : Kernel) (fileDescriptor : ℤ) (buffer length : ℕ) : Option (ℤ × Kernel) :=
  if fileDescriptor < 0 then some (fileDescriptor, s)
  else
    let d := fileDescriptor.toNat
    let file := s.openFileTable d
    if file.address = 0 ∨ file.maxCount = 0 then some (-1, s)
    else if Unreadable file then some (-1, s)
    else
      let size := s.readCount d length
      (s.vmm.memcpy buffer (file.address + 4 * file.lseek) size).map fun vmm ↦
        (size, { s.setFile d { file with lseek := (file.lseek + size) % 2 ^ 32 } with vmm })

/-- A call of `sys_read`. -/
structure ReadCall where
  fileDescriptor : ℤ
  buffer : BitVec 32
  length : BitVec 32

/-- The state after one call. -/
def read (s : Kernel) (c : ReadCall) : Option Kernel :=
  (s.sysRead c.fileDescriptor c.buffer.toNat c.length.toNat).map Prod.snd

variable {s t : Kernel}

/-- A call that returns has been refused, or has copied and moved the offset. -/
theorem sysRead_cases {fileDescriptor r : ℤ} {buffer length : ℕ}
    (h : s.sysRead fileDescriptor buffer length = some (r, t)) :
    (fileDescriptor < 0 ∧ r = fileDescriptor ∧ t = s) ∨
    (0 ≤ fileDescriptor ∧ r = -1 ∧ t = s) ∨
    (0 ≤ fileDescriptor ∧ ¬ Unreadable (s.openFileTable fileDescriptor.toNat) ∧
      r = s.readCount fileDescriptor.toNat length ∧
      ∃ vmm, t = { s.setFile fileDescriptor.toNat { s.openFileTable fileDescriptor.toNat with
        lseek := ((s.openFileTable fileDescriptor.toNat).lseek +
          s.readCount fileDescriptor.toNat length) % 2 ^ 32 } with vmm }) := by
  rw [sysRead] at h
  split at h
  · rename_i hneg
    cases h
    exact Or.inl ⟨hneg, rfl, rfl⟩
  rename_i hneg
  have hpos := Int.not_lt.mp hneg
  dsimp only at h
  split at h
  · cases h
    exact Or.inr (Or.inl ⟨hpos, rfl, rfl⟩)
  split at h
  · cases h
    exact Or.inr (Or.inl ⟨hpos, rfl, rfl⟩)
  rename_i hflags
  obtain ⟨vmm, -, h⟩ := Option.map_eq_some_iff.mp h
  cases h
  exact Or.inr (Or.inr ⟨hpos, hflags, rfl, vmm, rfl⟩)

/-- `sys_read` changes one descriptor at most, and there the offset only. -/
theorem sysRead_sameFiles {fileDescriptor r : ℤ} {buffer length : ℕ}
    (h : s.sysRead fileDescriptor buffer length = some (r, t)) : SameFiles s t ∧ t.fs = s.fs := by
  obtain ⟨-, -, rfl⟩ | ⟨-, -, rfl⟩ | ⟨-, -, -, vmm, rfl⟩ := sysRead_cases h
  · exact ⟨SameFiles.refl t, rfl⟩
  · exact ⟨SameFiles.refl t, rfl⟩
  · have hsame : SameFiles s (s.setFile fileDescriptor.toNat
        { s.openFileTable fileDescriptor.toNat with
          lseek := ((s.openFileTable fileDescriptor.toNat).lseek +
            s.readCount fileDescriptor.toNat length) % 2 ^ 32 }) := sameFiles_setFile rfl rfl
    exact ⟨⟨rfl, hsame.inodeIndex, hsame.maxCount, fun _ ↦ rfl, fun _ ↦ rfl⟩, rfl⟩

end Kernel

end AbOS
