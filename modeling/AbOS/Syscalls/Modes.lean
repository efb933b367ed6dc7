import AbOS.Syscalls.Tables

/-!
# What the open modes allow

A program passes the mode in ECX, and `sys_open` prints a line before it reads that register.  What
it stores is what the `kprintf` has left there, 0x21 in the kernel as it is built, so a descriptor
does not know how it was opened; `Moded` remembers the modes next to the kernel.

The flags are consecutive numbers, and `sys_write` and `sys_read` test them as bits: `O_RDONLY` is 1
and `O_RDWR` is 3, so `flags & O_RDWR` lets a file that is read only be written even when its mode
has been stored.  Whatever is stored, descriptors that were opened in different modes get the same
(`exists_not_honoursMode`).  A negative descriptor is returned as it is.

Runs without such calls honour the modes (`honoursMode_of_meets`).
-/

set_option autoImplicit false

namespace AbOS

/-- The kernel, and the mode that was passed to the call that entered each descriptor. -/
structure Moded where
  kernel : Kernel
  mode : ℕ → ℕ

/-- A call, and the mode that the caller of `open` passes.  The flags of the call are what
`sys_open` finds in the register. -/
structure ModeCall where
  call : Kernel.TableCall
  mode : ℕ

/-- The result of a call is -1, as a number of 32 bits, exactly if it is to be refused, and then the
state is what it was. -/
structure Kernel.Honours (s : Kernel) (result : Option (ℤ × Kernel)) (denied : Prop) : Prop where
  refuses : (∃ r t, result = some (r, t) ∧ BitVec.ofInt 32 r = -1) ↔ denied
  unchanged : ∀ r t, result = some (r, t) → BitVec.ofInt 32 r = -1 → t = s

/-- A read of `length` bytes goes as far as a count of `2 ^ 32 - 1`. -/
def Kernel.ReadsAll (s : Kernel) (d length : ℕ) : Prop :=
  let file := s.openFileTable d
  let size := (s.inodeOf d).size
  if size < (file.lseek + length) % 2 ^ 32 then
    (size + (2 ^ 32 - file.lseek)) % 2 ^ 32 = 2 ^ 32 - 1
  else length = 2 ^ 32 - 1

namespace Moded

/-- The modes after a call: `sys_open` enters one descriptor. -/
def modeAfter (s : Moded) (c : ModeCall) : ℕ → ℕ :=
  match c.call with
  | .sysOpen path _ _ =>
    let iNumber := (s.kernel.fs.getInode path).iNumber
    if iNumber = 0 then s.mode
    else match s.kernel.fileSlot (s.kernel.inodeSlot iNumber) with
      | some d => Function.update s.mode d c.mode
      | none => s.mode
  | _ => s.mode

/-- The state after a call. -/
def step (s : Moded) (c : ModeCall) : Option Moded :=
  (s.kernel.invoke c.call).map fun kernel ↦ ⟨kernel, s.modeAfter c⟩

/-- `sys_write` is to refuse the descriptor. -/
def WriteDenied (s : Moded) (fileDescriptor : ℤ) : Prop :=
  ¬ s.kernel.Open fileDescriptor ∨ s.mode fileDescriptor.toNat = oRdonly

/-- `sys_read` is to refuse the descriptor. -/
def ReadDenied (s : Moded) (fileDescriptor : ℤ) : Prop :=
  ¬ s.kernel.Open fileDescriptor ∨ s.mode fileDescriptor.toNat = oWronly

/-- A call of `sys_write` or `sys_read` honours the mode of its descriptor. -/
def HonoursMode (s : Moded) (c : ModeCall) : Prop :=
  match c.call with
  | .sysWrite c => s.kernel.Honours
    (s.kernel.sysWrite c.fileDescriptor c.buffer.toNat c.length.toNat c.leftover.toNat)
    (s.WriteDenied c.fileDescriptor)
  | .sysRead c => s.kernel.Honours
    (s.kernel.sysRead c.fileDescriptor c.buffer.toNat c.length.toNat)
    (s.ReadDenied c.fileDescriptor)
  | _ => True

/-- The only negative descriptor is -1, what lies behind the table looks refused, and what an open
descriptor holds is let through as the mode says that it was opened in; its address is not 0, and
the count is not `2 ^ 32 - 1`. -/
def ModeKept (s : Moded) (c : ModeCall) : Prop :=
  match c.call with
  | .sysWrite c => c.fileDescriptor = -1 ∨ 0 ≤ c.fileDescriptor ∧
    let file := s.kernel.openFileTable c.fileDescriptor.toNat
    (256 ≤ c.fileDescriptor → ¬ Kernel.Writable file) ∧
      (s.kernel.Open c.fileDescriptor →
        (Kernel.Writable file ↔ s.mode c.fileDescriptor.toNat ≠ oRdonly) ∧
        (Kernel.Writable file → c.length.toNat ≠ 2 ^ 32 - 1))
  | .sysRead c => c.fileDescriptor = -1 ∨ 0 ≤ c.fileDescriptor ∧
    let file := s.kernel.openFileTable c.fileDescriptor.toNat
    let refused := file.address = 0 ∨ file.maxCount = 0 ∨ Kernel.Unreadable file
    (256 ≤ c.fileDescriptor → refused) ∧
      (s.kernel.Open c.fileDescriptor →
        (refused ↔ s.mode c.fileDescriptor.toNat = oWronly) ∧
        (¬ refused → ¬ s.kernel.ReadsAll c.fileDescriptor.toNat c.length.toNat))
  | _ => True

end Moded

namespace Kernel

/-- The entries that are free hold no flags. -/
def FreeFlags (s : Kernel) : Prop :=
  ∀ d < tableEntries, (s.openFileTable d).maxCount = 0 → (s.openFileTable d).flags = 0

/-! ## What the calls do to the tables -/

variable {s t : Kernel}

/-- A write moves the offset and counts pages, and leaves the rest of the table. -/
theorem sysWrite_openFileTable {fileDescriptor r : ℤ} {buffer length leftover : ℕ}
    (h : s.sysWrite fileDescriptor buffer length leftover = some (r, t)) :
    (fileDescriptor < 0 ∧ r = fileDescriptor ∧ t = s) ∨
    (0 ≤ fileDescriptor ∧ ¬ Writable (s.openFileTable fileDescriptor.toNat) ∧ r = -1 ∧ t = s) ∨
    (0 ≤ fileDescriptor ∧ Writable (s.openFileTable fileDescriptor.toNat) ∧ r = length ∧
      ∃ pages, t.openFileTable = Function.update s.openFileTable fileDescriptor.toNat
        { s.openFileTable fileDescriptor.toNat with
          lseek := (s.writeStart fileDescriptor.toNat + length) % 2 ^ 32
          pagesAllocated := pages }) := by
  obtain hneg | hrefused | ⟨d, s₂, s₃, rfl, hflags, rfl, h₂, h₃, h₅⟩ := sysWrite_cases h
  · exact Or.inl hneg
  · exact Or.inr (Or.inl hrefused)
  rw [Int.toNat_natCast]
  obtain ⟨-, -, hseek⟩ := s.seekToEnd_frame d
  have hgrow : ∃ pages, s₂.openFileTable = Function.update s.openFileTable d
      { s.openFileTable d with lseek := s.writeStart d, pagesAllocated := pages } := by
    rw [growPages] at h₂
    split at h₂
    · obtain ⟨vmm, -, rfl⟩ := Option.map_eq_some_iff.mp h₂
      simp only [addPages, setFile, hseek, Function.update_self, Function.update_idem]
      exact ⟨_, rfl⟩
    · cases h₂
      exact ⟨_, hseek⟩
  obtain ⟨pages, hgrow⟩ := hgrow
  have hcopy : s₃.openFileTable = Function.update s.openFileTable d
      { s.openFileTable d with
        lseek := (s.writeStart d + length) % 2 ^ 32
        pagesAllocated := pages } := by
    obtain ⟨vmm, -, rfl⟩ := Option.map_eq_some_iff.mp h₃
    simp only [setFile, hgrow, Function.update_self, Function.update_idem]
  obtain ⟨⟨disk, vmm⟩, -, rfl⟩ := Option.map_eq_some_iff.mp h₅
  exact Or.inr (Or.inr ⟨Int.natCast_nonneg d, hflags, rfl, pages,
    (s₃.growSize_frame d).2.1.trans hcopy⟩)

/-- `sys_close` refuses, or counts the descriptor and its inode down, or clears both. -/
theorem sysClose_tables {fileDescriptor : ℤ} (ht : (s.sysClose fileDescriptor).2 = t) :
    t = s ∨ (t.fs = s.fs ∧ (s.openFileTable fileDescriptor.toNat).maxCount ≠ 0 ∧
      (((s.openFileTable fileDescriptor.toNat).maxCount ≠ 1 ∧
        t.openFileTable = Function.update s.openFileTable fileDescriptor.toNat
          { s.openFileTable fileDescriptor.toNat with
            maxCount := (s.openFileTable fileDescriptor.toNat).maxCount - 1 } ∧
        ∀ i, (t.openInodeTable i).iNumber = (s.openInodeTable i).iNumber) ∨
      ((s.openFileTable fileDescriptor.toNat).maxCount = 1 ∧
        t.openFileTable = Function.update s.openFileTable fileDescriptor.toNat OpenFile.zero ∧
        t.openInodeTable = Function.update s.openInodeTable
          (s.openFileTable fileDescriptor.toNat).inodeIndex Inode.zero))) := by
  rw [sysClose] at ht
  generalize fileDescriptor.toNat = d at ht ⊢
  dsimp only at ht
  split at ht
  · exact Or.inl ht.symm
  split at ht
  · exact Or.inl ht.symm
  rename_i hopen
  obtain ⟨-, hcount⟩ := not_or.mp hopen
  refine Or.inr ?_
  split at ht
  · rename_i hlast
    subst ht
    refine ⟨rfl, hcount, Or.inr ⟨by omega, ?_, ?_⟩⟩
    · simp only [setFile, setInode, Function.update_idem]
    · simp only [setFile, setInode, Function.update_idem]
  · rename_i hlast
    subst ht
    refine ⟨rfl, hcount, Or.inl ⟨by omega, rfl, fun i ↦ ?_⟩⟩
    by_cases hi : i = (s.openFileTable d).inodeIndex
    · simp [setFile, setInode, inodeOf, hi]
    · simp [setFile, setInode, hi]

/-! ## One call -/

theorem ofInt_natCast_ne {n : ℕ} (hlt : n < 2 ^ 32) (hne : n ≠ 2 ^ 32 - 1) :
    BitVec.ofInt 32 (n : ℤ) ≠ -1 := by
  intro h
  rw [BitVec.ofInt_natCast] at h
  have := congrArg BitVec.toNat h
  rw [BitVec.toNat_ofNat, Nat.mod_eq_of_lt hlt] at this
  exact hne this

theorem Honours.of_refused {result : Option (ℤ × Kernel)} {denied : Prop}
    (h : result = some (-1, s)) (hdenied : denied) : s.Honours result denied where
  refuses := iff_of_true ⟨-1, s, h, rfl⟩ hdenied
  unchanged := fun r t hrt _ ↦ by
    rw [h] at hrt
    cases hrt
    rfl

theorem Honours.of_served {result : Option (ℤ × Kernel)} {denied : Prop}
    (h : ∀ r t, result = some (r, t) → BitVec.ofInt 32 r ≠ -1) (hdenied : ¬ denied) :
    s.Honours result denied where
  refuses := iff_of_false (fun ⟨r, t, hrt, hr⟩ ↦ h r t hrt hr) hdenied
  unchanged := fun r t hrt hr ↦ absurd hr (h r t hrt)

/-- A descriptor that is not open is one behind the table, or a free one of it. -/
theorem FreeFlags.free (h : s.FreeFlags) {fileDescriptor : ℤ} (hpos : 0 ≤ fileDescriptor)
    (hclosed : ¬ s.Open fileDescriptor) : 256 ≤ fileDescriptor ∨
      (s.openFileTable fileDescriptor.toNat).maxCount = 0 ∧
        (s.openFileTable fileDescriptor.toNat).flags = 0 := by
  rcases lt_or_ge fileDescriptor 256 with hlt | hge
  · have hcount : (s.openFileTable fileDescriptor.toNat).maxCount = 0 := by
      by_contra hne
      exact hclosed ⟨hpos, hlt, hne⟩
    exact Or.inr ⟨hcount, h _ (by rw [tableEntries]; omega) hcount⟩
  · exact Or.inl hge

theorem sysWrite_of_not_writable {fileDescriptor : ℤ} (hpos : 0 ≤ fileDescriptor)
    (h : ¬ Writable (s.openFileTable fileDescriptor.toNat)) (buffer length leftover : ℕ) :
    s.sysWrite fileDescriptor buffer length leftover = some (-1, s) := by
  rw [sysWrite, if_neg (Int.not_lt.mpr hpos)]
  exact if_pos h

theorem sysRead_of_refused {fileDescriptor : ℤ} (hpos : 0 ≤ fileDescriptor)
    (h : (s.openFileTable fileDescriptor.toNat).address = 0 ∨
      (s.openFileTable fileDescriptor.toNat).maxCount = 0 ∨
        Unreadable (s.openFileTable fileDescriptor.toNat)) (buffer length : ℕ) :
    s.sysRead fileDescriptor buffer length = some (-1, s) := by
  rw [sysRead, if_neg (Int.not_lt.mpr hpos)]
  dsimp only
  split_ifs with h₁ h₂
  · rfl
  · rfl
  · exact absurd (or_assoc.mpr h) (not_or.mpr ⟨h₁, h₂⟩)

/-- A read that is carried out returns its count. -/
theorem sysRead_of_served {c : ReadCall} (hpos : 0 ≤ c.fileDescriptor)
    (hserved : ¬ ((s.openFileTable c.fileDescriptor.toNat).address = 0 ∨
      (s.openFileTable c.fileDescriptor.toNat).maxCount = 0 ∨
        Unreadable (s.openFileTable c.fileDescriptor.toNat)))
    (hall : ¬ s.ReadsAll c.fileDescriptor.toNat c.length.toNat) {r : ℤ}
    (hcall : s.sysRead c.fileDescriptor c.buffer.toNat c.length.toNat = some (r, t)) :
    BitVec.ofInt 32 r ≠ -1 := by
  obtain ⟨hneg, -, -⟩ | ⟨-, rfl, -⟩ | ⟨-, -, rfl, -⟩ := sysRead_cases hcall
  · omega
  · rw [sysRead, if_neg (Int.not_lt.mpr hpos)] at hcall
    dsimp only at hcall
    rw [if_neg fun h ↦ hserved (h.imp_right Or.inl), if_neg fun h ↦ hserved (Or.inr (Or.inr h))]
      at hcall
    obtain ⟨vmm, -, hcall⟩ := Option.map_eq_some_iff.mp hcall
    have := congrArg Prod.fst hcall
    dsimp only at this
    omega
  · have hlength := c.length.isLt
    rw [ReadsAll] at hall
    rw [readCount]
    split at hall
    · rename_i hend
      rw [if_pos hend]
      exact ofInt_natCast_ne (Nat.mod_lt _ (by decide)) hall
    · rename_i hend
      rw [if_neg hend]
      exact ofInt_natCast_ne hlength hall

theorem FreeFlags.update (h : s.FreeFlags) {d : ℕ} {file : OpenFile}
    (ht : t.openFileTable = Function.update s.openFileTable d file)
    (hfile : d < tableEntries → file.maxCount = 0 → file.flags = 0) : t.FreeFlags := by
  intro e he
  rw [ht]
  by_cases hed : e = d
  · subst hed
    rw [Function.update_self]
    exact hfile he
  · rw [Function.update_of_ne hed]
    exact h e he

theorem FreeFlags.invoke (h : s.FreeFlags) {c : TableCall} (hcall : s.invoke c = some t) :
    t.FreeFlags := by
  cases c with
  | sysOpen path flags leftover =>
    obtain ⟨⟨r, t⟩, hret, rfl⟩ := Option.map_eq_some_iff.mp hcall
    obtain ⟨-, -, rfl⟩ | ⟨-, -, d, vmm, -, -, rfl⟩ := sysOpen_cases hret rfl
    · exact h
    · exact h.update rfl fun _ hzero ↦ absurd hzero Nat.one_ne_zero
  | sysClose fileDescriptor =>
    cases hcall
    obtain hsame | ⟨-, hcount, ⟨hmore, htable, -⟩ | ⟨-, htable, -⟩⟩ :=
      sysClose_tables (show (s.sysClose fileDescriptor).2 = _ from rfl)
    · rw [hsame]
      exact h
    · refine h.update htable fun hlt hzero ↦ ?_
      dsimp only at hzero
      omega
    · exact h.update htable fun _ _ ↦ rfl
  | sysWrite c =>
    obtain ⟨⟨r, t⟩, hret, rfl⟩ := Option.map_eq_some_iff.mp hcall
    obtain ⟨-, -, hsame⟩ | ⟨-, -, -, hsame⟩ | ⟨-, -, -, pages, htable⟩ :=
      sysWrite_openFileTable hret
    · rw [hsame]
      exact h
    · rw [hsame]
      exact h
    · exact h.update htable fun hlt ↦ h _ hlt
  | sysRead c =>
    obtain ⟨⟨r, t⟩, hret, rfl⟩ := Option.map_eq_some_iff.mp hcall
    obtain ⟨-, -, hsame⟩ | ⟨-, -, hsame⟩ | ⟨-, -, -, vmm, htable⟩ := sysRead_cases hret
    · rw [hsame]
      exact h
    · rw [hsame]
      exact h
    · rw [htable]
      exact h.update rfl fun hlt ↦ h _ hlt

theorem Zeroed.freeFlags (h : s.Zeroed) : s.FreeFlags := fun d hd _ ↦ by
  rw [h.openFileTable d hd]
  rfl

end Kernel

namespace Moded

open Kernel

variable {s : Moded}

theorem honoursMode_sysWrite (h : s.kernel.FreeFlags) {c : WriteCall} {mode : ℕ}
    (hkept : s.ModeKept ⟨.sysWrite c, mode⟩) : s.HonoursMode ⟨.sysWrite c, mode⟩ := by
  rcases hkept with hneg | ⟨hpos, hbehind, hserved⟩
  · refine Honours.of_refused ?_ (Or.inl fun hopen ↦ by have := hopen.1; omega)
    rw [Kernel.sysWrite, hneg]
    rfl
  by_cases hopen : s.kernel.Open c.fileDescriptor
  · obtain ⟨hmode, hlength⟩ := hserved hopen
    by_cases hflags : Writable (s.kernel.openFileTable c.fileDescriptor.toNat)
    · refine Honours.of_served (fun r t hcall ↦ ?_)
        (not_or.mpr ⟨not_not.mpr hopen, hmode.mp hflags⟩)
      obtain ⟨hneg, -, -⟩ | ⟨-, hnot, -, -⟩ | ⟨-, -, rfl, -⟩ := sysWrite_openFileTable hcall
      · omega
      · exact absurd hflags hnot
      · exact ofInt_natCast_ne c.length.isLt (hlength hflags)
    · exact Honours.of_refused (sysWrite_of_not_writable hpos hflags _ _ _)
        (Or.inr (not_not.mp fun hne ↦ hflags (hmode.mpr hne)))
  · refine Honours.of_refused (sysWrite_of_not_writable hpos ?_ _ _ _) (Or.inl hopen)
    rcases h.free hpos hopen with hge | ⟨-, hflags⟩
    · exact hbehind hge
    · rw [Writable, hflags]
      decide

theorem honoursMode_sysRead (h : s.kernel.FreeFlags) {c : ReadCall} {mode : ℕ}
    (hkept : s.ModeKept ⟨.sysRead c, mode⟩) : s.HonoursMode ⟨.sysRead c, mode⟩ := by
  rcases hkept with hneg | ⟨hpos, hbehind, hserved⟩
  · refine Honours.of_refused ?_ (Or.inl fun hopen ↦ by have := hopen.1; omega)
    rw [Kernel.sysRead, hneg]
    rfl
  by_cases hopen : s.kernel.Open c.fileDescriptor
  · obtain ⟨hmode, hcount⟩ := hserved hopen
    by_cases hrefused : (s.kernel.openFileTable c.fileDescriptor.toNat).address = 0 ∨
        (s.kernel.openFileTable c.fileDescriptor.toNat).maxCount = 0 ∨
          Unreadable (s.kernel.openFileTable c.fileDescriptor.toNat)
    · exact Honours.of_refused (sysRead_of_refused hpos hrefused _ _)
        (Or.inr (hmode.mp hrefused))
    · exact Honours.of_served (fun r t hcall ↦ sysRead_of_served hpos hrefused (hcount hrefused) hcall)
        (not_or.mpr ⟨not_not.mpr hopen, fun heq ↦ hrefused (hmode.mpr heq)⟩)
  · refine Honours.of_refused (sysRead_of_refused hpos ?_ _ _) (Or.inl hopen)
    rcases h.free hpos hopen with hge | ⟨hcount, -⟩
    · exact hbehind hge
    · exact Or.inr (Or.inl hcount)

/-- **One call** of a run. -/
theorem honoursMode (h : s.kernel.FreeFlags) {c : ModeCall} (hkept : s.ModeKept c) :
    s.HonoursMode c := by
  obtain ⟨call, mode⟩ := c
  cases call with
  | sysOpen => trivial
  | sysClose => trivial
  | sysWrite c => exact honoursMode_sysWrite h hkept
  | sysRead c => exact honoursMode_sysRead h hkept

/-- A write that what is stored and what was passed do not agree on. -/
theorem not_honoursMode_sysWrite {c : WriteCall} {mode : ℕ}
    (hopen : s.kernel.Open c.fileDescriptor) (hlength : c.length.toNat ≠ 2 ^ 32 - 1)
    (hmode : ¬ (Writable (s.kernel.openFileTable c.fileDescriptor.toNat) ↔
      s.mode c.fileDescriptor.toNat ≠ oRdonly)) : ¬ s.HonoursMode ⟨.sysWrite c, mode⟩ := by
  intro h
  by_cases hflags : Writable (s.kernel.openFileTable c.fileDescriptor.toNat)
  · have hdenied : s.mode c.fileDescriptor.toNat = oRdonly := by
      by_contra hne
      exact hmode (iff_of_true hflags hne)
    obtain ⟨r, t, hcall, hr⟩ := h.refuses.mpr (Or.inr hdenied)
    obtain ⟨hneg, -, -⟩ | ⟨-, hnot, -, -⟩ | ⟨-, -, rfl, -⟩ := sysWrite_openFileTable hcall
    · have := hopen.1
      omega
    · exact hnot hflags
    · exact ofInt_natCast_ne c.length.isLt hlength hr
  · have hserved : ¬ s.WriteDenied c.fileDescriptor := by
      refine not_or.mpr ⟨not_not.mpr hopen, fun heq ↦ hmode (iff_of_false hflags ?_)⟩
      exact not_not.mpr heq
    exact hserved (h.refuses.mp ⟨-1, _, sysWrite_of_not_writable hopen.1 hflags _ _ _, rfl⟩)

/-- A read of a descriptor that was opened with `O_WRONLY` and looks open for reading. -/
theorem not_honoursMode_sysRead {c : ReadCall} {mode : ℕ} (hpos : 0 ≤ c.fileDescriptor)
    (hserved : ¬ ((s.kernel.openFileTable c.fileDescriptor.toNat).address = 0 ∨
      (s.kernel.openFileTable c.fileDescriptor.toNat).maxCount = 0 ∨
        Unreadable (s.kernel.openFileTable c.fileDescriptor.toNat)))
    (hall : ¬ s.kernel.ReadsAll c.fileDescriptor.toNat c.length.toNat)
    (hmode : s.mode c.fileDescriptor.toNat = oWronly) : ¬ s.HonoursMode ⟨.sysRead c, mode⟩ := by
  intro h
  obtain ⟨r, t, hcall, hr⟩ := h.refuses.mpr (Or.inr hmode)
  exact sysRead_of_served hpos hserved hall hcall hr

/-- **What is stored does not tell the modes apart**: of two descriptors that hold the same flags,
one opened with `O_RDONLY` and the other not, one is not honoured. -/
theorem exists_not_honoursMode {c c' : WriteCall} {mode : ℕ}
    (hopen : s.kernel.Open c.fileDescriptor) (hopen' : s.kernel.Open c'.fileDescriptor)
    (hlength : c.length.toNat ≠ 2 ^ 32 - 1) (hlength' : c'.length.toNat ≠ 2 ^ 32 - 1)
    (hflags : (s.kernel.openFileTable c.fileDescriptor.toNat).flags =
      (s.kernel.openFileTable c'.fileDescriptor.toNat).flags)
    (hread : s.mode c.fileDescriptor.toNat = oRdonly)
    (hwrite : s.mode c'.fileDescriptor.toNat ≠ oRdonly) :
    ¬ (s.HonoursMode ⟨.sysWrite c, mode⟩ ∧ s.HonoursMode ⟨.sysWrite c', mode⟩) := by
  rintro ⟨h, h'⟩
  by_cases hwritable : Writable (s.kernel.openFileTable c.fileDescriptor.toNat)
  · exact not_honoursMode_sysWrite hopen hlength
      (fun hiff ↦ hiff.mp hwritable hread) h
  · rw [Writable, hflags, ← Writable] at hwritable
    exact not_honoursMode_sysWrite hopen' hlength'
      (fun hiff ↦ hwritable (hiff.mpr hwrite)) h'

end Moded

namespace Kernel

/-! ## Files that are opened read only -/

variable {s t : Kernel}

/-- The bytes of the inode `n`, and those of the blocks of `file`. -/
def FileByte (superblock : Superblock) (n : ℕ) (file : Inode) (x : ℕ) : Prop :=
  (inodeAddress superblock n ≤ x ∧ x < inodeAddress superblock n + inodeBytes) ∨
    Owns file (x / fsBlock)

/-- The inode `n` lies in the inode table, and its blocks `file` behind it. -/
structure FilePlaced (s : Kernel) (n : ℕ) (file : Inode) : Prop where
  firstDataBlock : s.fs.superblock.firstDataBlock ≤ 2 ^ 25
  inode : s.fs.superblock.firstInodeBlock + n / inodesPerBlock < s.fs.superblock.firstDataBlock
  data : ∀ b, Owns file b → s.fs.superblock.firstDataBlock ≤ b

/-- The call keeps descriptors and inodes together, and what it writes is no block of `file`: an open
gets a slot of the inode table, a close leaves no other descriptor without its inode, and a write
goes to the inode table and to blocks behind it. -/
def SparesFile (file : Inode) (s : Kernel) : TableCall → Prop
  | .sysOpen path _ _ => (s.fs.getInode path).iNumber ≠ 0 →
    s.inodeSlot (s.fs.getInode path).iNumber < tableEntries
  | .sysClose fileDescriptor => (s.openFileTable fileDescriptor.toNat).maxCount ≠ 0 →
    ∀ d ∈ s.openFiles, d ≠ fileDescriptor.toNat →
      (s.openFileTable d).inodeIndex ≠ (s.openFileTable fileDescriptor.toNat).inodeIndex
  | .sysWrite c =>
    let d := c.fileDescriptor.toNat
    Writable (s.openFileTable d) →
      inodeBlock s.fs.superblock (s.inodeOf d) < s.fs.superblock.firstDataBlock ∧
      ∀ i < bytesToBlocks (max (s.inodeOf d).size ((s.writeStart d + c.length.toNat) % 2 ^ 32)),
        s.fs.superblock.firstDataBlock ≤ (s.inodeOf d).directPointers i ∧
          (s.inodeOf d).directPointers i < 2 ^ 25 ∧ ¬ Owns file ((s.inodeOf d).directPointers i)
  | .sysRead _ => True

theorem opened_openFileTable (s : Kernel) (inode : Inode) (flags d : ℕ) (vmm : Vmm) :
    (s.opened inode flags d vmm).openFileTable = Function.update s.openFileTable d
      ⟨s.inodeSlot inode.iNumber % 2 ^ 8, 0, s.fileVirtualAddress, 1, flags,
        filePageCount (s.loadedInode inode).size % 2 ^ 8⟩ := rfl

theorem opened_openInodeTable (s : Kernel) (inode : Inode) (flags d : ℕ) (vmm : Vmm) :
    (s.opened inode flags d vmm).openInodeTable = (s.enterInode inode).openInodeTable := rfl

/-- **One write** changes no byte of a file that it spares. -/
theorem FilePlaced.sysWrite {n : ℕ} {file : Inode} (hplaced : s.FilePlaced n file)
    {fileDescriptor r : ℤ} {buffer length leftover : ℕ}
    (hne : (s.inodeOf fileDescriptor.toNat).iNumber ≠ n)
    (hinode : inodeBlock s.fs.superblock (s.inodeOf fileDescriptor.toNat) <
      s.fs.superblock.firstDataBlock)
    (hblocks : ∀ i < bytesToBlocks (max (s.inodeOf fileDescriptor.toNat).size
        ((s.writeStart fileDescriptor.toNat + length) % 2 ^ 32)),
      s.fs.superblock.firstDataBlock ≤ (s.inodeOf fileDescriptor.toNat).directPointers i ∧
        (s.inodeOf fileDescriptor.toNat).directPointers i < 2 ^ 25 ∧
        ¬ Owns file ((s.inodeOf fileDescriptor.toNat).directPointers i))
    (hcall : s.sysWrite fileDescriptor buffer length leftover = some (r, t)) {x : ℕ}
    (hx : FileByte s.fs.superblock n file x) : t.fs.disk x = s.fs.disk x := by
  by_contra hchanged
  obtain ⟨-, -, hwhere⟩ := (sysWrite_disk hcall).2 x hchanged
  generalize s.inodeOf fileDescriptor.toNat = inode at *
  have hlimit := hplaced.firstDataBlock
  have hn := hplaced.inode
  rw [inodeBlock] at hinode
  rw [inodesPerBlock] at hinode hn
  rw [fsBlock, inodeBytes] at hinode hn
  have haddress : ∀ i, s.fs.superblock.firstInodeBlock + i / (4096 / 64) <
      s.fs.superblock.firstDataBlock → inodeAddress s.fs.superblock i =
        s.fs.superblock.firstInodeBlock * 4096 + i * 64 := fun i hi ↦ by
    refine inodeAddress_eq ?_
    rw [fsBlock, inodeBytes]
    omega
  -- the block of the byte is in front of the data for an inode, and behind for a block
  have hrecord : ∀ i, s.fs.superblock.firstInodeBlock + i / (4096 / 64) <
      s.fs.superblock.firstDataBlock → inodeAddress s.fs.superblock i ≤ x →
      x < inodeAddress s.fs.superblock i + inodeBytes →
        x / fsBlock < s.fs.superblock.firstDataBlock := fun i hi h₁ h₂ ↦ by
    rw [haddress i hi] at h₁ h₂
    rw [fsBlock, inodeBytes] at *
    omega
  rcases hwhere with ⟨h₁, h₂⟩ | ⟨i, hi, h₁, h₂⟩
  · rcases hx with ⟨h₃, h₄⟩ | howns
    · rw [haddress _ hinode] at h₁ h₂
      rw [haddress _ hn] at h₃ h₄
      rw [inodeBytes] at h₂ h₄
      omega
    · have hbehind := hplaced.data _ howns
      have hfront := hrecord _ hinode h₁ h₂
      omega
  · obtain ⟨hdata, hlt, hnot⟩ := hblocks i hi
    rw [sectorAddress_blockSector hlt] at h₁ h₂
    have hblock : x / fsBlock = inode.directPointers i := by
      rw [fsBlock] at *
      omega
    rcases hx with ⟨h₃, h₄⟩ | howns
    · have hfront := hrecord _ hn h₃ h₄
      omega
    · exact hnot (hblock ▸ howns)

end Kernel

namespace Moded

open Kernel

/-- The file `n` is only opened with `O_RDONLY`. -/
def OpensReadOnly (n : ℕ) (s : Moded) (c : ModeCall) : Prop :=
  match c.call with
  | .sysOpen path _ _ => (s.kernel.fs.getInode path).iNumber = n → c.mode = oRdonly
  | _ => True

/-- Descriptors in use have an inode, and it is not `n` where they are not read only. -/
structure NotWriting (n : ℕ) (s : Moded) : Prop where
  inode : ∀ d ∈ s.kernel.openFiles, (s.kernel.inodeOf d).iNumber ≠ 0
  writer : ∀ d ∈ s.kernel.openFiles, s.mode d ≠ oRdonly → (s.kernel.inodeOf d).iNumber ≠ n

variable {s t : Moded} {n : ℕ}

theorem notWriting_of_zeroed (h : s.kernel.Zeroed) (n : ℕ) : s.NotWriting n := by
  have hnone := h.not_mem_openFiles
  exact ⟨fun d hd ↦ absurd hd (hnone d), fun d hd ↦ absurd hd (hnone d)⟩

/-- It is about who is open, the modes and the numbers of inodes. -/
theorem NotWriting.congr (h : s.NotWriting n) (hsame : SameFiles s.kernel t.kernel)
    (hmode : t.mode = s.mode) : t.NotWriting n := by
  have hopen : ∀ d, d ∈ t.kernel.openFiles → d ∈ s.kernel.openFiles := fun d hd ↦ by
    rwa [mem_openFiles, hsame.maxCount, ← mem_openFiles] at hd
  refine ⟨fun d hd ↦ ?_, fun d hd hwrites ↦ ?_⟩
  · rw [(hsame.inodeOf d).1]
    exact h.inode d (hopen d hd)
  · rw [(hsame.inodeOf d).1]
    exact h.writer d (hopen d hd) (hmode ▸ hwrites)

theorem NotWriting.sysOpen (h : s.NotWriting n) {path : List UInt8} {flags leftover : BitVec 32}
    {mode : ℕ} (hslot : (s.kernel.fs.getInode path).iNumber ≠ 0 →
      s.kernel.inodeSlot (s.kernel.fs.getInode path).iNumber < tableEntries)
    (honly : (s.kernel.fs.getInode path).iNumber = n → mode = oRdonly)
    (hcall : s.step ⟨.sysOpen path flags leftover, mode⟩ = some t) : t.NotWriting n := by
  obtain ⟨kernel, hinvoke, rfl⟩ := Option.map_eq_some_iff.mp hcall
  obtain ⟨⟨r, kernel⟩, hret, rfl⟩ := Option.map_eq_some_iff.mp hinvoke
  obtain ⟨hzero, -, rfl⟩ | ⟨hne, -, d, vmm, hd, -, rfl⟩ := sysOpen_cases hret rfl
  · refine h.congr (SameFiles.refl _) ?_
    rw [modeAfter]
    exact if_pos hzero
  have hmode : s.modeAfter ⟨.sysOpen path flags leftover, mode⟩ =
      Function.update s.mode d mode := by
    rw [modeAfter]
    dsimp only
    rw [if_neg hne, hd]
  rw [hmode]
  clear hmode hcall hinvoke hret
  generalize s.kernel.fs.getInode path = inode at *
  generalize flags.toNat = flags at *
  obtain ⟨hentered, hkept⟩ := enterInode_iNumber (hslot hne)
  have hold : ∀ e, e ≠ d → e ∈ (s.kernel.opened inode flags d vmm).openFiles →
      e ∈ s.kernel.openFiles := fun e hed he ↦ by
    rw [mem_openFiles, opened_openFileTable, Function.update_of_ne hed] at he
    exact mem_openFiles.mpr he
  have hnumber : ∀ e, e ≠ d → e ∈ s.kernel.openFiles →
      ((s.kernel.opened inode flags d vmm).inodeOf e).iNumber = (s.kernel.inodeOf e).iNumber :=
    fun e hed he ↦ by
      rw [inodeOf, opened_openFileTable, opened_openInodeTable, Function.update_of_ne hed]
      exact hkept _ (h.inode e he)
  have hnew : ((s.kernel.opened inode flags d vmm).inodeOf d).iNumber = inode.iNumber := by
    rw [inodeOf, opened_openFileTable, opened_openInodeTable, Function.update_self]
    dsimp only
    rw [Nat.mod_eq_of_lt (show _ < 2 ^ 8 from hslot hne)]
    exact hentered
  refine ⟨fun e he ↦ ?_, fun e he hwrites ↦ ?_⟩
  · by_cases hed : e = d
    · rw [hed, hnew]
      exact hne
    · rw [hnumber e hed (hold e hed he)]
      exact h.inode e (hold e hed he)
  · by_cases hed : e = d
    · rw [hed, hnew]
      intro heq
      refine hwrites ?_
      dsimp only
      rw [hed, Function.update_self]
      exact honly heq
    · rw [hnumber e hed (hold e hed he)]
      refine h.writer e (hold e hed he) ?_
      dsimp only at hwrites
      rwa [Function.update_of_ne hed] at hwrites

theorem NotWriting.sysClose (h : s.NotWriting n) {fileDescriptor : ℤ}
    (halone : (s.kernel.openFileTable fileDescriptor.toNat).maxCount ≠ 0 →
      ∀ d ∈ s.kernel.openFiles, d ≠ fileDescriptor.toNat →
        (s.kernel.openFileTable d).inodeIndex ≠
          (s.kernel.openFileTable fileDescriptor.toNat).inodeIndex)
    (ht : (s.kernel.sysClose fileDescriptor).2 = t.kernel) (hmode : t.mode = s.mode) :
    t.NotWriting n := by
  have hother : ∀ e ∈ t.kernel.openFiles, e ∈ s.kernel.openFiles ∧
      (t.kernel.inodeOf e).iNumber = (s.kernel.inodeOf e).iNumber := by
    obtain hsame | ⟨-, hcount, ⟨-, htable, hinodes⟩ | ⟨-, htable, hinodes⟩⟩ := sysClose_tables ht
    · rw [hsame]
      exact fun e he ↦ ⟨he, rfl⟩
    · -- the descriptor is counted down, and stays open
      intro e he
      rw [mem_openFiles, htable] at he
      rw [inodeOf, inodeOf, hinodes, htable, mem_openFiles]
      by_cases hed : e = fileDescriptor.toNat
      · subst hed
        rw [Function.update_self] at he ⊢
        exact ⟨⟨he.1, hcount⟩, rfl⟩
      · rw [Function.update_of_ne hed] at he ⊢
        exact ⟨he, rfl⟩
    · -- the descriptor is gone, and no other has its inode
      intro e he
      rw [mem_openFiles, htable] at he
      have hed : e ≠ fileDescriptor.toNat := fun hed ↦ by
        rw [hed, Function.update_self] at he
        exact he.2 rfl
      rw [Function.update_of_ne hed] at he
      have hopen := mem_openFiles.mpr he
      rw [inodeOf, inodeOf, hinodes, htable, Function.update_of_ne hed,
        Function.update_of_ne (halone hcount e hopen hed)]
      exact ⟨hopen, rfl⟩
  refine ⟨fun e he ↦ ?_, fun e he hwrites ↦ ?_⟩
  · rw [(hother e he).2]
    exact h.inode e (hother e he).1
  · rw [(hother e he).2]
    exact h.writer e (hother e he).1 (hmode ▸ hwrites)

/-- A write that is let through is to a descriptor in use that was not opened read only. -/
theorem writer_of_modeKept (h : s.kernel.FreeFlags) {c : WriteCall} {mode : ℕ}
    (hkept : s.ModeKept ⟨.sysWrite c, mode⟩) (hpos : 0 ≤ c.fileDescriptor)
    (hflags : Writable (s.kernel.openFileTable c.fileDescriptor.toNat)) :
    c.fileDescriptor.toNat ∈ s.kernel.openFiles ∧ s.mode c.fileDescriptor.toNat ≠ oRdonly := by
  rcases hkept with hneg | ⟨-, hbehind, hserved⟩
  · omega
  by_cases hopen : s.kernel.Open c.fileDescriptor
  · refine ⟨mem_openFiles.mpr ⟨?_, hopen.2.2⟩, (hserved hopen).1.mp hflags⟩
    have := hopen.2.1
    rw [tableEntries]
    omega
  · rcases h.free hpos hopen with hge | ⟨-, hzero⟩
    · exact absurd hflags (hbehind hge)
    · rw [Writable, hzero] at hflags
      exact absurd hflags (by decide)

/-- What a run keeps that opens the file `n` with `O_RDONLY` only and started in `s₀`. -/
structure Untouched (s : Moded) (s₀ : Kernel) (n : ℕ) (file : Inode) : Prop where
  freeFlags : s.kernel.FreeFlags
  notWriting : s.NotWriting n
  superblock : s.kernel.fs.superblock = s₀.fs.superblock
  bytes : ∀ x, FileByte s₀.fs.superblock n file x → s.kernel.fs.disk x = s₀.fs.disk x

theorem Untouched.step {s₀ : Kernel} {file : Inode} (h : s.Untouched s₀ n file)
    (hplaced : s₀.FilePlaced n file) {c : ModeCall} (hkept : s.ModeKept c)
    (honly : OpensReadOnly n s c) (hspares : SparesFile file s.kernel c.call)
    (hcall : s.step c = some t) : t.Untouched s₀ n file := by
  obtain ⟨hfree, hwriting, hsuper, hbytes⟩ := h
  obtain ⟨call, mode⟩ := c
  have hcall' := hcall
  obtain ⟨kernel, hinvoke, rfl⟩ := Option.map_eq_some_iff.mp hcall'
  have hfree' := hfree.invoke hinvoke
  cases call with
  | sysOpen path flags leftover =>
    obtain ⟨⟨r, kernel⟩, hret, rfl⟩ := Option.map_eq_some_iff.mp hinvoke
    have hfs := sysOpen_fs hret
    exact ⟨hfree', hwriting.sysOpen hspares honly hcall, hfs ▸ hsuper, hfs ▸ hbytes⟩
  | sysClose fileDescriptor =>
    cases hinvoke
    have hfs : (s.kernel.sysClose fileDescriptor).2.fs = s.kernel.fs := by
      obtain hsame | ⟨hfs, -⟩ :=
        sysClose_tables (show (s.kernel.sysClose fileDescriptor).2 = _ from rfl)
      · rw [hsame]
      · exact hfs
    exact ⟨hfree', hwriting.sysClose hspares rfl rfl, hfs ▸ hsuper, hfs ▸ hbytes⟩
  | sysWrite c =>
    obtain ⟨⟨r, kernel⟩, hret, rfl⟩ := Option.map_eq_some_iff.mp hinvoke
    have hsame := (sysWrite_disk hret).1
    refine ⟨hfree', hwriting.congr hsame rfl, hsame.superblock.trans hsuper, fun x hx ↦ ?_⟩
    obtain ⟨-, -, rfl⟩ | ⟨-, -, -, rfl⟩ | ⟨hpos, hflags, -⟩ := sysWrite_openFileTable hret
    · exact hbytes x hx
    · exact hbytes x hx
    · obtain ⟨hopen, hwrites⟩ := writer_of_modeKept hfree hkept hpos hflags
      obtain ⟨hinode, hblocks⟩ := hspares hflags
      have hplaced' : s.kernel.FilePlaced n file :=
        ⟨hsuper ▸ hplaced.firstDataBlock, hsuper ▸ hplaced.inode, hsuper ▸ hplaced.data⟩
      rw [← hbytes x hx]
      exact hplaced'.sysWrite (hwriting.writer _ hopen hwrites) hinode hblocks hret (hsuper ▸ hx)
  | sysRead c =>
    obtain ⟨⟨r, kernel⟩, hret, rfl⟩ := Option.map_eq_some_iff.mp hinvoke
    obtain ⟨hsame, hfs⟩ := sysRead_sameFiles hret
    exact ⟨hfree', hwriting.congr hsame rfl, hfs ▸ hsuper, hfs ▸ hbytes⟩

/-- **The modes are honoured** in every run whose calls keep to them, and then the files that it
opens with `O_RDONLY` only stay as they are on the disk. -/
theorem honoursMode_of_meets {calls : List ModeCall} (hzero : s.kernel.Zeroed)
    (hkept : Run.Meets step ModeKept s calls) :
    Run.Meets step HonoursMode s calls ∧
    ∀ n, let file := diskInode s.kernel.fs.disk s.kernel.fs.superblock n
      s.kernel.FilePlaced n file →
      Run.Meets step (OpensReadOnly n) s calls →
      Run.Meets step (fun u c ↦ SparesFile file u.kernel c.call) s calls →
      ∀ t, Run.exec step s calls = some t →
        ∀ x, FileByte s.kernel.fs.superblock n file x → t.kernel.fs.disk x = s.kernel.fs.disk x := by
  have hstep : ∀ (u : Moded) c v, u.kernel.FreeFlags → u.ModeKept c → u.step c = some v →
      v.kernel.FreeFlags := fun u c v hu _ hcall ↦ by
    obtain ⟨kernel, hinvoke, rfl⟩ := Option.map_eq_some_iff.mp hcall
    exact hu.invoke hinvoke
  refine ⟨hkept.of_invariant (fun u ↦ u.kernel.FreeFlags) hstep (fun u c hu h ↦ honoursMode hu h)
    hzero.freeFlags, ?_⟩
  intro n file hplaced honly hspares t hrun
  refine (((hkept.and honly).and hspares).invariant
    (fun u ↦ Untouched u s.kernel n file) ?_ ?_ hrun).bytes
  · intro u c v hu ⟨⟨h, ho⟩, hs⟩ hcall
    exact hu.step hplaced h ho hs hcall
  · exact ⟨hzero.freeFlags, notWriting_of_zeroed hzero n, rfl, fun _ _ ↦ rfl⟩

end Moded

namespace Kernel

/-! ## One file -/

theorem oneEntry_pointers (i : ℕ) (hi : i < 7) :
    (diskInode (oneEntryDisk 0) oneEntrySuperblock 4).directPointers i = 0 := by
  have haddr : sectorAddress (inodeSector oneEntrySuperblock 4) + 4 % inodesPerSector * inodeBytes =
      0x4100 := by decide
  have hzero : ∀ k, k < 64 → k ≠ 0 → oneEntryDisk 0 (0x4100 + k) = 0 := fun k hk hne ↦ by
    rw [oneEntryDisk, if_neg (by omega), if_neg (by omega), if_neg (by omega)]
    exact ite_self 0
  rw [diskInode, haddr, readInode]
  dsimp only
  refine ByteStore.readWord_of_zero fun k hk ↦ ?_
  rw [Nat.add_assoc, Nat.add_assoc]
  exact hzero _ (by omega) (by omega)

end Kernel

namespace Moded

open Kernel

/-- The kernel with one file, and no descriptor opened. -/
def oneEntry : Moded := ⟨Kernel.oneEntry 0, fun _ ↦ 0⟩

/-- `open` of the file; `sys_open` finds 0x21 in the register. -/
def openOneEntry (mode : ℕ) : ModeCall := ⟨.sysOpen [0x61] 0x21 0, mode⟩

/-- The file after it has been opened. -/
theorem oneEntry_step (mode : ℕ) : ∃ t, oneEntry.step (openOneEntry mode) = some t ∧
    t.mode 0 = mode ∧ t.kernel.openFileTable =
      Function.update (fun _ ↦ OpenFile.zero) 0 ⟨0, 0, 0x40000000, 1, 0x21, 1⟩ := by
  obtain ⟨t, hrun, -, htable⟩ := oneEntry_open 0 0x21
  obtain ⟨u, hcall, hrun⟩ := Run.exec_cons.mp hrun
  cases hrun
  refine ⟨_, Option.map_eq_some_iff.mpr ⟨t, hcall, rfl⟩, ?_, htable⟩
  rw [openOneEntry, modeAfter]
  dsimp only
  rw [oneEntry, oneEntry_getInode, (oneEntry_diskInode 0).1, (oneEntry_slots 0).1,
    (oneEntry_slots 0).2]
  exact Function.update_self (β := fun _ ↦ ℕ) 0 mode fun _ ↦ 0

/-- It may be read, and stays as it is. -/
theorem honoursMode_oneEntry :
    Run.Meets step HonoursMode oneEntry [openOneEntry 1, ⟨.sysRead ⟨0, 0, 0⟩, 0⟩] ∧
    ∀ t, Run.exec step oneEntry [openOneEntry 1, ⟨.sysRead ⟨0, 0, 0⟩, 0⟩] = some t →
      ∀ x, FileByte oneEntrySuperblock 4 (diskInode (oneEntryDisk 0) oneEntrySuperblock 4) x →
        t.kernel.fs.disk x = oneEntryDisk 0 x := by
  obtain ⟨u, hcall, hmode, htable⟩ := oneEntry_step 1
  have hkept : Run.Meets step ModeKept oneEntry [openOneEntry 1, ⟨.sysRead ⟨0, 0, 0⟩, 0⟩] := by
    refine Run.Meets.cons trivial hcall ⟨Or.inr ⟨Int.le_refl 0, ?_, fun _ ↦ ?_⟩, fun _ _ ↦ trivial⟩
    · exact fun h ↦ absurd h (by decide)
    · rw [ReadsAll, show (0 : ℤ).toNat = 0 from rfl, htable, hmode, Function.update_self]
      refine ⟨by decide, fun _ ↦ ?_⟩
      dsimp only
      rw [show (0 + BitVec.toNat (0 : BitVec 32)) % 2 ^ 32 = 0 by decide,
        if_neg (Nat.not_lt_zero _)]
      decide
  obtain ⟨hmodes, hkeeps⟩ := honoursMode_of_meets (oneEntry_zeroed 0) hkept
  refine ⟨hmodes, fun t ht ↦ hkeeps 4 ⟨by decide, by decide, ?_⟩ ?_ ?_ t ht⟩
  · rintro b ⟨i, hi, rfl, hne⟩
    exact absurd (oneEntry_pointers i hi) hne
  · exact ⟨fun _ ↦ rfl, fun _ _ ↦ ⟨trivial, fun _ _ ↦ trivial⟩⟩
  · refine ⟨fun _ ↦ ?_, fun _ _ ↦ ⟨trivial, fun _ _ ↦ trivial⟩⟩
    rw [oneEntry, oneEntry_getInode, (oneEntry_diskInode 0).1, (oneEntry_slots 0).1]
    decide

/-- Opened with `O_RDONLY`, it may be written; opened with `O_WRONLY`, it may be read. -/
theorem not_honoursMode_oneEntry :
    (∃ t, Run.exec step oneEntry [openOneEntry oRdonly] = some t ∧
      ¬ t.HonoursMode ⟨.sysWrite ⟨0, 0x40000000, 16, 0⟩, 0⟩) ∧
    ∃ t, Run.exec step oneEntry [openOneEntry oWronly] = some t ∧
      ¬ t.HonoursMode ⟨.sysRead ⟨0, 0x40000000, 0⟩, 0⟩ := by
  refine ⟨?_, ?_⟩
  · obtain ⟨t, hcall, hmode, htable⟩ := oneEntry_step oRdonly
    have hfile : t.kernel.openFileTable (0 : ℤ).toNat = ⟨0, 0, 0x40000000, 1, 0x21, 1⟩ := by
      rw [show (0 : ℤ).toNat = 0 from rfl, htable, Function.update_self]
    refine ⟨t, Run.exec_singleton hcall, not_honoursMode_sysWrite ⟨by decide, by decide, ?_⟩
      (by decide) fun hiff ↦ hiff.mp ?_ hmode⟩
    · rw [hfile]
      decide
    · rw [Writable, hfile]
      decide
  · obtain ⟨t, hcall, hmode, htable⟩ := oneEntry_step oWronly
    have hfile : t.kernel.openFileTable (0 : ℤ).toNat = ⟨0, 0, 0x40000000, 1, 0x21, 1⟩ := by
      rw [show (0 : ℤ).toNat = 0 from rfl, htable, Function.update_self]
    refine ⟨t, Run.exec_singleton hcall, not_honoursMode_sysRead (Int.le_refl 0) ?_ ?_ hmode⟩
    · rw [Unreadable, hfile]
      decide
    · rw [ReadsAll, show (0 : ℤ).toNat = 0 from rfl, htable, Function.update_self]
      dsimp only
      rw [show (0 + BitVec.toNat (0 : BitVec 32)) % 2 ^ 32 = 0 by decide,
        if_neg (Nat.not_lt_zero _)]
      decide

end Moded

end AbOS
