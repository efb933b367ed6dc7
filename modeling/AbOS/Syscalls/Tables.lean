import AbOS.Syscalls.Isolation
import AbOS.Syscalls.Read

/-!
# Which entries of the tables are used

The system calls reach both tables through numbers: the descriptor that the caller passes, the
`inode_index` of an entry, and the counters of three searches.  `fileSlots` and `inodeSlots` are the
numbers that a call uses, in order, and a call changes no other entry (`invoke_of_notMem`).

The searches of `sys_open` end behind the table when there is nothing to find, and then it looks at
the entry there all the same; so it does for every file that is not open yet.  The other calls check
that the descriptor is not negative, and no more than that.
-/

set_option autoImplicit false

namespace AbOS

/-- The descriptors that the search for a free one looks at, and the one `sys_open` enters. -/
def findFileSlots (table : ℕ → OpenFile) : ℕ → ℕ → List ℕ
  | 0, _ => []
  | fuel + 1, fileIndex =>
    fileIndex :: if (table fileIndex).address ≠ 0 ∧ (table fileIndex).maxCount ≠ 0 then
      findFileSlots table fuel (fileIndex + 1)
    else []

namespace Kernel

/-- A system call on files; the flags are those that `sys_open` finds in ECX. -/
inductive TableCall
  | sysOpen (path : List UInt8) (flags leftover : BitVec 32)
  | sysClose (fileDescriptor : ℤ)
  | sysWrite (c : WriteCall)
  | sysRead (c : ReadCall)

/-- The state after a call. -/
def invoke (s : Kernel) : TableCall → Option Kernel
  | .sysOpen path flags leftover => s.serve (.sysOpen path flags leftover)
  | .sysClose fileDescriptor => s.serve (.sysClose fileDescriptor)
  | .sysWrite c => s.write c
  | .sysRead c => s.read c

/-- The descriptors that `sys_open` looks at for an inode entered at `index`. -/
def openFileSlots (s : Kernel) (index : ℕ) : List ℕ :=
  if index < tableEntries then findFileSlots s.openFileTable openFileFuel 0 else [0]

/-- The inodes that `sys_open` looks at.  A search looks at all entries up to the one it stops at,
and the comparison, or the assignment, behind it uses that one; last comes the inode whose size and
blocks are taken. -/
def openInodeSlots (s : Kernel) (iNumber : ℕ) : List ℕ :=
  let found := findSlot fun i ↦ (s.openInodeTable i).iNumber == iNumber
  let index := s.inodeSlot iNumber
  List.range (found + 1) ++
    (if (s.openInodeTable found).iNumber = iNumber then [] else List.range (index + 1)) ++
    [index + index % 2 ^ 8]

/-- The entries of `open_file_table` that a call uses. -/
def fileSlots (s : Kernel) : TableCall → List ℕ
  | .sysOpen path _ _ =>
    let iNumber := (s.fs.getInode path).iNumber
    if iNumber = 0 then [] else s.openFileSlots (s.inodeSlot iNumber)
  | .sysClose fileDescriptor => if fileDescriptor < 0 then [] else [fileDescriptor.toNat]
  | .sysWrite c => if c.fileDescriptor < 0 then [] else [c.fileDescriptor.toNat]
  | .sysRead c => if c.fileDescriptor < 0 then [] else [c.fileDescriptor.toNat]

/-- The entries of `open_inode_table` that a call uses. -/
def inodeSlots (s : Kernel) : TableCall → List ℕ
  | .sysOpen path _ _ =>
    let iNumber := (s.fs.getInode path).iNumber
    if iNumber = 0 then [] else s.openInodeSlots iNumber
  | .sysClose fileDescriptor =>
    if fileDescriptor < 0 then [] else [(s.openFileTable fileDescriptor.toNat).inodeIndex]
  | .sysWrite c =>
    let file := s.openFileTable c.fileDescriptor.toNat
    if c.fileDescriptor < 0 ∨ ¬ Writable file then [] else [file.inodeIndex]
  | .sysRead c =>
    let file := s.openFileTable c.fileDescriptor.toNat
    if c.fileDescriptor < 0 ∨ (file.address = 0 ∨ file.maxCount = 0) ∨ Unreadable file then []
    else [file.inodeIndex]

/-- All descriptors, or all inodes, are in use. -/
def TableFull (s : Kernel) : Prop :=
  (∀ d < tableEntries, (s.openFileTable d).address ≠ 0 ∧ (s.openFileTable d).maxCount ≠ 0) ∨
    ∀ i < tableEntries, (s.openInodeTable i).iNumber ≠ 0

/-- What a call has to do with the tables. -/
structure KeepsTables (s : Kernel) (c : TableCall) : Prop where
  files : ∀ d ∈ s.fileSlots c, d < tableEntries
  inodes : ∀ i ∈ s.inodeSlots c, i < tableEntries
  /-- Nothing is opened when there is no room. -/
  full : ∀ path flags leftover, c = .sysOpen path flags leftover → s.TableFull →
    s.sysOpen path flags.toNat leftover.toNat = some (-1, s)
  /-- The new descriptor has the number of the slot that its inode is in. -/
  inodeIndex : ∀ path flags leftover r t d, c = .sysOpen path flags leftover →
    s.sysOpen path flags.toNat leftover.toNat = some (r, t) →
    (s.fs.getInode path).iNumber ≠ 0 →
    s.fileSlot (s.inodeSlot (s.fs.getInode path).iNumber) = some d →
      (t.openFileTable d).inodeIndex = s.inodeSlot (s.fs.getInode path).iNumber

/-- The descriptor is not behind the table; a file that is opened does not exist, or is open already,
in the first half of the inode table, and neither table is full. -/
def WithinTables (s : Kernel) : TableCall → Prop
  | .sysOpen path _ _ => (s.fs.getInode path).iNumber ≠ 0 →
    (∃ i < 128, (s.openInodeTable i).iNumber = (s.fs.getInode path).iNumber) ∧ ¬ s.TableFull
  | .sysClose fileDescriptor => fileDescriptor < tableEntries
  | .sysWrite c => c.fileDescriptor < tableEntries
  | .sysRead c => c.fileDescriptor < tableEntries

/-- `inode_index` is a byte. -/
def IndexBytes (s : Kernel) : Prop := ∀ d, (s.openFileTable d).inodeIndex < 2 ^ 8

end Kernel

/-! ## The searches -/

/-- The search for a descriptor stays inside the table when there is a free one. -/
theorem findFileSlots_lt_iff {table : ℕ → OpenFile} (n : ℕ) : ∀ fuel i, i + n = tableEntries →
    n < fuel → ((∀ d ∈ findFileSlots table fuel i, d < tableEntries) ↔
      ¬ ∀ d, i ≤ d → d < tableEntries → (table d).address ≠ 0 ∧ (table d).maxCount ≠ 0) := by
  induction n with
  | zero =>
    intro fuel i hi hfuel
    obtain ⟨fuel, rfl⟩ := Nat.exists_eq_add_of_lt hfuel
    rw [findFileSlots, List.forall_mem_cons]
    exact iff_of_false (fun h ↦ absurd h.1 (by omega))
      fun h ↦ h fun d h₁ h₂ ↦ absurd h₂ (by omega)
  | succ n ih =>
    intro fuel i hi hfuel
    obtain ⟨fuel, rfl⟩ := Nat.exists_eq_add_of_lt hfuel
    rw [findFileSlots, List.forall_mem_cons, and_iff_right (by omega : i < tableEntries)]
    by_cases hused : (table i).address ≠ 0 ∧ (table i).maxCount ≠ 0
    · rw [if_pos hused, ih (n + 1 + fuel) (i + 1) (by omega) (by omega)]
      refine not_congr ⟨fun h d h₁ h₂ ↦ ?_, fun h d h₁ h₂ ↦ h d (by omega) h₂⟩
      rcases Nat.eq_or_lt_of_le h₁ with rfl | hlt
      · exact hused
      · exact h d hlt h₂
    · rw [if_neg hused]
      exact iff_of_true (fun d hd ↦ absurd hd List.not_mem_nil)
        fun h ↦ hused (h i (Nat.le_refl i) (by omega))

/-- The descriptor that is found is the last that is looked at. -/
theorem mem_findFileSlots {table : ℕ → OpenFile} {d : ℕ} (fuel : ℕ) :
    ∀ i, findFile table fuel i = some d → d ∈ findFileSlots table fuel i := by
  induction fuel with
  | zero => exact fun i h ↦ absurd h.symm (Option.some_ne_none d)
  | succ fuel ih =>
    intro i h
    rw [findFile] at h
    rw [findFileSlots]
    split at h
    · rename_i hused
      rw [if_pos hused]
      exact List.mem_cons_of_mem _ (ih (i + 1) h)
    · exact List.mem_cons.mpr (Or.inl (Option.some.inj h).symm)

namespace Kernel

variable {s t : Kernel}

theorem iNumber_of_found {iNumber : ℕ}
    (h : findSlot (fun i ↦ (s.openInodeTable i).iNumber == iNumber) < tableEntries) :
    (s.openInodeTable (findSlot fun i ↦ (s.openInodeTable i).iNumber == iNumber)).iNumber =
      iNumber := by
  have hfound := findSlot_lt h
  exact beq_iff_eq.mp hfound

/-- A file that is open is found in its slot. -/
theorem inodeSlot_of_found {iNumber : ℕ}
    (h : findSlot (fun i ↦ (s.openInodeTable i).iNumber == iNumber) < tableEntries) :
    s.inodeSlot iNumber = findSlot fun i ↦ (s.openInodeTable i).iNumber == iNumber :=
  if_pos (iNumber_of_found h)

/-- The searches for an inode stay inside the table when it is in the first half of it already. -/
theorem openInodeSlots_lt_iff {iNumber : ℕ} :
    (∀ i ∈ s.openInodeSlots iNumber, i < tableEntries) ↔
      ∃ i < 128, (s.openInodeTable i).iNumber = iNumber := by
  rw [openInodeSlots]
  constructor
  · intro h
    have hfound : findSlot (fun i ↦ (s.openInodeTable i).iNumber == iNumber) < tableEntries :=
      h _ (List.mem_append_left _ (List.mem_append_left _ (List.mem_range.mpr (Nat.lt_succ_self _))))
    have hlast := h _ (List.mem_append_right _ List.mem_cons_self)
    rw [inodeSlot_of_found hfound, Nat.mod_eq_of_lt (show _ < 2 ^ 8 from hfound)] at hlast
    refine ⟨_, ?_, iNumber_of_found hfound⟩
    rw [tableEntries] at hlast
    omega
  · rintro ⟨j, hj, hnum⟩
    have hle := findSlot_le_of (p := fun i ↦ (s.openInodeTable i).iNumber == iNumber)
      (beq_iff_eq.mpr hnum) (hj.trans (by decide))
    have hfound := lt_of_le_of_lt hle (hj.trans (by decide : 128 < tableEntries))
    rw [if_pos (iNumber_of_found hfound), inodeSlot_of_found hfound]
    intro i hi
    generalize findSlot (fun i ↦ (s.openInodeTable i).iNumber == iNumber) = found at *
    simp only [List.append_nil, List.mem_append, List.mem_range, List.mem_singleton] at hi
    rw [tableEntries] at *
    omega

/-! ## One call -/

/-- `sys_open` of a file that exists never refuses. -/
theorem sysOpen_ne_refused {path : List UInt8} (hne : (s.fs.getInode path).iNumber ≠ 0)
    (flags leftover : ℕ) : s.sysOpen path flags leftover ≠ some (-1, s) := by
  intro h
  obtain ⟨hmissing, -, -⟩ | ⟨-, hr, -⟩ := sysOpen_cases h rfl
  · exact hne hmissing
  · omega

/-- **Opening a file** keeps to the tables when it is in the first half of the inode table and
neither table is full, and only then. -/
theorem keepsTables_sysOpen_iff {path : List UInt8} {flags leftover : BitVec 32} :
    s.KeepsTables (.sysOpen path flags leftover) ↔
      s.WithinTables (.sysOpen path flags leftover) := by
  constructor
  · rintro ⟨hfiles, hinodes, hfull, hindex⟩ hne
    rw [inodeSlots, if_neg hne] at hinodes
    exact ⟨openInodeSlots_lt_iff.mp hinodes,
      fun h ↦ sysOpen_ne_refused hne _ _ (hfull path flags leftover rfl h)⟩
  · intro hwithin
    by_cases hne : (s.fs.getInode path).iNumber = 0
    · refine ⟨fun d hd ↦ ?_, fun i hi ↦ ?_, ?_, ?_⟩
      · rw [fileSlots, if_pos hne] at hd
        exact absurd hd List.not_mem_nil
      · rw [inodeSlots, if_pos hne] at hi
        exact absurd hi List.not_mem_nil
      · rintro _ _ _ ⟨⟩ -
        rw [Kernel.sysOpen]
        exact if_pos ⟨hne, by rw [oCreat, Nat.and_zero]⟩
      · rintro _ _ _ _ _ _ ⟨⟩ - hne'
        exact absurd hne hne'
    · obtain ⟨hfound, hfull⟩ := hwithin hne
      have hinodes := openInodeSlots_lt_iff.mpr hfound
      have hslot : s.inodeSlot (s.fs.getInode path).iNumber < tableEntries :=
        lt_of_le_of_lt (Nat.le_add_right _ _) (hinodes _ (List.mem_append_right _ List.mem_cons_self))
      refine ⟨?_, ?_, ?_, ?_⟩
      · rw [fileSlots, if_neg hne, openFileSlots, if_pos hslot]
        refine (findFileSlots_lt_iff tableEntries _ 0 (Nat.zero_add _) openFileFuel_gt).mpr ?_
        exact fun h ↦ hfull (Or.inl fun d hd ↦ h d (Nat.zero_le d) hd)
      · rwa [inodeSlots, if_neg hne]
      · rintro _ _ _ ⟨⟩ h
        exact absurd h hfull
      · rintro _ _ _ r t d ⟨⟩ hcall - hd
        obtain ⟨hmissing, -, -⟩ | ⟨-, -, d', vmm, hd', -, rfl⟩ := sysOpen_cases hcall rfl
        · exact absurd hmissing hne
        · obtain rfl : d = d' := Option.some.inj (hd.symm.trans hd')
          simp only [opened, Function.update_self]
          exact Nat.mod_eq_of_lt hslot

/-- The other calls use the entry of the descriptor, and that of its inode. -/
theorem keepsTables_descriptor_iff {c : TableCall} {fileDescriptor : ℤ}
    (hopen : ∀ path flags leftover, c ≠ .sysOpen path flags leftover)
    (hfiles : s.fileSlots c = if fileDescriptor < 0 then [] else [fileDescriptor.toNat])
    (hinodes : ∀ i ∈ s.inodeSlots c, i < tableEntries) :
    s.KeepsTables c ↔ fileDescriptor < tableEntries := by
  have hlt : (∀ d ∈ s.fileSlots c, d < tableEntries) ↔ fileDescriptor < tableEntries := by
    rw [hfiles]
    split
    · exact iff_of_true (fun d hd ↦ absurd hd List.not_mem_nil) (by omega)
    · rw [List.forall_mem_singleton]
      omega
  refine ⟨fun h ↦ hlt.mp h.files, fun h ↦ ⟨hlt.mpr h, hinodes, ?_, ?_⟩⟩
  · intro path flags leftover hc
    exact absurd hc (hopen path flags leftover)
  · intro path flags leftover r t d hc
    exact absurd hc (hopen path flags leftover)

/-- **One call.** -/
theorem keepsTables_iff (hbytes : s.IndexBytes) (c : TableCall) :
    s.KeepsTables c ↔ s.WithinTables c := by
  have hindex : ∀ d, ∀ i ∈ [(s.openFileTable d).inodeIndex], i < tableEntries := fun d i hi ↦ by
    rw [List.mem_singleton.mp hi]
    exact hbytes d
  have hnil : ∀ i ∈ ([] : List ℕ), i < tableEntries := fun i hi ↦ absurd hi List.not_mem_nil
  cases c with
  | sysOpen path flags leftover => exact keepsTables_sysOpen_iff
  | sysClose fileDescriptor =>
    refine keepsTables_descriptor_iff (fun _ _ _ h ↦ by cases h) rfl ?_
    rw [inodeSlots]
    split
    · exact hnil
    · exact hindex _
  | sysWrite c =>
    refine keepsTables_descriptor_iff (fun _ _ _ h ↦ by cases h) rfl ?_
    rw [inodeSlots]
    split
    · exact hnil
    · exact hindex _
  | sysRead c =>
    refine keepsTables_descriptor_iff (fun _ _ _ h ↦ by cases h) rfl ?_
    rw [inodeSlots]
    split
    · exact hnil
    · exact hindex _

/-! ## What is not used -/

section Unused

variable {d i : ℕ}

/-- `t` has the tables of `s`, up to one entry of each. -/
structure SameExcept (d i : ℕ) (s t : Kernel) : Prop where
  files : ∀ e ≠ d, t.openFileTable e = s.openFileTable e
  inodes : ∀ j ≠ i, t.openInodeTable j = s.openInodeTable j

theorem SameExcept.refl (d i : ℕ) (s : Kernel) : SameExcept d i s s :=
  ⟨fun _ _ ↦ rfl, fun _ _ ↦ rfl⟩

theorem SameExcept.trans {u : Kernel} (h : SameExcept d i s t) (h' : SameExcept d i t u) :
    SameExcept d i s u :=
  ⟨fun e he ↦ (h'.files e he).trans (h.files e he),
    fun j hj ↦ (h'.inodes j hj).trans (h.inodes j hj)⟩

theorem sameExcept_setFile (s : Kernel) (d i : ℕ) (file : OpenFile) :
    SameExcept d i s (s.setFile d file) :=
  ⟨fun _ he ↦ Function.update_of_ne he _ _, fun _ _ ↦ rfl⟩

theorem sameExcept_setInode (s : Kernel) (d i : ℕ) (inode : Inode) :
    SameExcept d i s (s.setInode i inode) :=
  ⟨fun _ _ ↦ rfl, fun _ hj ↦ Function.update_of_ne hj _ _⟩

/-- The descriptor that `sys_open` enters is one that it looks at. -/
theorem mem_openFileSlots {index : ℕ} (h : s.fileSlot index = some d) :
    d ∈ s.openFileSlots index := by
  rw [fileSlot] at h
  rw [openFileSlots]
  split at h
  · rename_i hindex
    rw [if_pos hindex]
    exact mem_findFileSlots _ 0 h
  · rename_i hindex
    rw [if_neg hindex]
    exact List.mem_singleton.mpr (Option.some.inj h).symm

/-- The slot of the inode is one that `sys_open` looks at. -/
theorem mem_openInodeSlots (s : Kernel) (iNumber : ℕ) :
    s.inodeSlot iNumber ∈ s.openInodeSlots iNumber := by
  rw [openInodeSlots]
  by_cases hfound : (s.openInodeTable
      (findSlot fun i ↦ (s.openInodeTable i).iNumber == iNumber)).iNumber = iNumber
  · refine List.mem_append_left _ (List.mem_append_left _ (List.mem_range.mpr ?_))
    rw [inodeSlot, if_pos hfound]
    exact Nat.lt_succ_self _
  · refine List.mem_append_left _ (List.mem_append_right _ ?_)
    rw [if_neg hfound]
    exact List.mem_range.mpr (Nat.lt_succ_self _)

theorem enterInode_sameExcept (s : Kernel) (d : ℕ) (inode : Inode) :
    SameExcept d (s.inodeSlot inode.iNumber) s (s.enterInode inode) := by
  rw [enterInode]
  dsimp only
  split
  · rename_i hfound
    rw [show s.inodeSlot inode.iNumber = _ from if_pos hfound]
    exact sameExcept_setInode s d _ _
  · exact ⟨fun _ _ ↦ rfl, fun _ hj ↦ Function.update_of_ne hj _ _⟩

/-- `sys_open` changes the slot that it finds for the inode, and the descriptor that it finds. -/
theorem opened_sameExcept (s : Kernel) (inode : Inode) (flags d : ℕ) (vmm : Vmm) :
    SameExcept d (s.inodeSlot inode.iNumber) s (s.opened inode flags d vmm) :=
  ⟨fun _ he ↦ Function.update_of_ne he _ _, (s.enterInode_sameExcept d inode).inodes⟩

/-- The steps of `sys_write` change the descriptor, and the inode that it has the number of. -/
theorem sysWrite_sameExcept {r : ℤ} {buffer length leftover : ℕ}
    (h : s.sysWrite d buffer length leftover = some (r, t)) :
    SameExcept d (s.openFileTable d).inodeIndex s t := by
  obtain ⟨-, -, rfl⟩ | ⟨-, -, -, rfl⟩ | ⟨e, s₂, s₃, he, -, -, h₂, h₃, h₅⟩ := sysWrite_cases h
  · exact SameExcept.refl _ _ _
  · exact SameExcept.refl _ _ _
  obtain rfl : d = e := Int.ofNat_inj.mp he
  obtain ⟨hs₁, -, hit₁, -⟩ := s.seekToEnd_spec d
  obtain ⟨hs₂, -, hit₂, -⟩ := growPages_spec h₂
  obtain ⟨hs₃, -, hit₃, -⟩ := copyBuffer_spec h₃
  have hindex := ((hs₁.trans hs₂).trans hs₃).inodeIndex d
  have hseek : SameExcept d (s.openFileTable d).inodeIndex s (s.seekToEnd d) := by
    refine ⟨fun e he ↦ ?_, fun j _ ↦ by rw [hit₁]⟩
    rw [(s.seekToEnd_frame d).2.2, Function.update_of_ne he]
  have hgrow : SameExcept d (s.openFileTable d).inodeIndex (s.seekToEnd d) s₂ := by
    refine ⟨fun e he ↦ ?_, fun j _ ↦ by rw [hit₂]⟩
    rw [growPages] at h₂
    split at h₂
    · obtain ⟨vmm, -, rfl⟩ := Option.map_eq_some_iff.mp h₂
      exact Function.update_of_ne he _ _
    · cases h₂
      rfl
  have hcopy : SameExcept d (s.openFileTable d).inodeIndex s₂ s₃ := by
    refine ⟨fun e he ↦ ?_, fun j _ ↦ by rw [hit₃]⟩
    obtain ⟨vmm, -, rfl⟩ := Option.map_eq_some_iff.mp h₃
    exact Function.update_of_ne he _ _
  have hsize : SameExcept d (s.openFileTable d).inodeIndex s₃ (s₃.growSize d) := by
    rw [growSize, ← hindex]
    split
    · exact sameExcept_setInode s₃ d _ _
    · exact SameExcept.refl _ _ _
  refine ((hseek.trans hgrow).trans hcopy).trans (hsize.trans ?_)
  obtain ⟨⟨disk, vmm⟩, -, rfl⟩ := Option.map_eq_some_iff.mp h₅
  exact ⟨fun _ _ ↦ rfl, fun _ _ ↦ rfl⟩

theorem sysClose_sameExcept (s : Kernel) (d : ℕ) :
    SameExcept d (s.openFileTable d).inodeIndex s (s.sysClose d).2 := by
  rw [Kernel.sysClose, if_neg (Int.not_lt.mpr (Int.natCast_nonneg d)), Int.toNat_natCast]
  dsimp only
  split
  · exact SameExcept.refl _ _ _
  have hcounted := (sameExcept_setFile s d (s.openFileTable d).inodeIndex
    { s.openFileTable d with maxCount := (s.openFileTable d).maxCount - 1 }).trans
      (sameExcept_setInode _ d _ { s.inodeOf d with
        maxCount := ((s.inodeOf d).maxCount + (2 ^ 8 - 1)) % 2 ^ 8 })
  split
  · refine hcounted.trans (SameExcept.trans ?_ (sameExcept_setFile _ d _ _))
    exact ⟨fun _ _ ↦ rfl, fun _ hj ↦ Function.update_of_ne hj _ _⟩
  · exact hcounted

/-- **A call changes no entry that it does not use.** -/
theorem invoke_of_notMem {c : TableCall} (hcall : s.invoke c = some t) :
    (∀ d ∉ s.fileSlots c, t.openFileTable d = s.openFileTable d) ∧
      ∀ i ∉ s.inodeSlots c, t.openInodeTable i = s.openInodeTable i := by
  -- the call changes one entry of each table, which is one of those that it uses
  have hone : ∀ d i, d ∈ s.fileSlots c → i ∈ s.inodeSlots c → SameExcept d i s t →
      (∀ d ∉ s.fileSlots c, t.openFileTable d = s.openFileTable d) ∧
        ∀ i ∉ s.inodeSlots c, t.openInodeTable i = s.openInodeTable i :=
    fun d i hd hi hsame ↦ ⟨fun e he ↦ hsame.files e (ne_of_mem_of_not_mem hd he).symm,
      fun j hj ↦ hsame.inodes j (ne_of_mem_of_not_mem hi hj).symm⟩
  cases c with
  | sysOpen path flags leftover =>
    obtain ⟨⟨r, t⟩, hret, rfl⟩ := Option.map_eq_some_iff.mp hcall
    obtain ⟨-, -, rfl⟩ | ⟨hne, -, d, vmm, hd, -, rfl⟩ := sysOpen_cases hret rfl
    · exact ⟨fun _ _ ↦ rfl, fun _ _ ↦ rfl⟩
    · refine hone d _ ?_ ?_ (s.opened_sameExcept _ _ d vmm)
      · rw [fileSlots, if_neg hne]
        exact mem_openFileSlots hd
      · rw [inodeSlots, if_neg hne]
        exact s.mem_openInodeSlots _
  | sysClose fileDescriptor =>
    cases hcall
    by_cases hneg : fileDescriptor < 0
    · rw [Kernel.sysClose, if_pos hneg]
      exact ⟨fun _ _ ↦ rfl, fun _ _ ↦ rfl⟩
    obtain ⟨d, rfl⟩ := Int.eq_ofNat_of_zero_le (Int.not_lt.mp hneg)
    refine hone d _ ?_ ?_ (s.sysClose_sameExcept d)
    · rw [fileSlots, if_neg hneg]
      exact List.mem_cons_self
    · rw [inodeSlots, if_neg hneg]
      exact List.mem_cons_self
  | sysWrite c =>
    obtain ⟨⟨r, t⟩, hret, rfl⟩ := Option.map_eq_some_iff.mp hcall
    obtain ⟨-, -, rfl⟩ | ⟨-, -, -, rfl⟩ | ⟨d, s₂, s₃, hd, hflags, -⟩ := sysWrite_cases hret
    · exact ⟨fun _ _ ↦ rfl, fun _ _ ↦ rfl⟩
    · exact ⟨fun _ _ ↦ rfl, fun _ _ ↦ rfl⟩
    have hneg : ¬ c.fileDescriptor < 0 := by omega
    have hto : c.fileDescriptor.toNat = d := by rw [hd, Int.toNat_natCast]
    rw [hd] at hret
    refine hone d _ ?_ ?_ (sysWrite_sameExcept hret)
    · rw [fileSlots, if_neg hneg, hto]
      exact List.mem_cons_self
    · rw [inodeSlots, hto, if_neg (by rw [not_or, not_not]; exact ⟨hneg, hflags⟩)]
      exact List.mem_cons_self
  | sysRead c =>
    obtain ⟨⟨r, t⟩, hret, rfl⟩ := Option.map_eq_some_iff.mp hcall
    obtain ⟨-, -, rfl⟩ | ⟨-, -, rfl⟩ | ⟨hpos, -, -, vmm, rfl⟩ := sysRead_cases hret
    · exact ⟨fun _ _ ↦ rfl, fun _ _ ↦ rfl⟩
    · exact ⟨fun _ _ ↦ rfl, fun _ _ ↦ rfl⟩
    refine ⟨fun e he ↦ Function.update_of_ne ?_ _ _, fun _ _ ↦ rfl⟩
    rw [fileSlots, if_neg (Int.not_lt.mpr hpos), List.mem_singleton] at he
    exact he

end Unused

/-! ## Runs -/

theorem IndexBytes.setFile (h : s.IndexBytes) {d : ℕ} {file : OpenFile}
    (hfile : file.inodeIndex < 2 ^ 8) : (s.setFile d file).IndexBytes := by
  intro e
  rw [Kernel.setFile]
  dsimp only
  by_cases he : e = d
  · rw [he, Function.update_self]
    exact hfile
  · rw [Function.update_of_ne he]
    exact h e

theorem IndexBytes.sameFiles (h : s.IndexBytes) (hsame : SameFiles s t) : t.IndexBytes :=
  fun d ↦ by
    rw [hsame.inodeIndex]
    exact h d

theorem IndexBytes.invoke (h : s.IndexBytes) {c : TableCall} (hcall : s.invoke c = some t) :
    t.IndexBytes := by
  cases c with
  | sysOpen path flags leftover =>
    obtain ⟨⟨r, t⟩, hret, rfl⟩ := Option.map_eq_some_iff.mp hcall
    obtain ⟨-, -, rfl⟩ | ⟨-, -, d, vmm, -, -, rfl⟩ := sysOpen_cases hret rfl
    · exact h
    · exact h.setFile (Nat.mod_lt _ (by decide))
  | sysClose fileDescriptor =>
    cases hcall
    rw [Kernel.sysClose]
    dsimp only
    split
    · exact h
    split
    · exact h
    split
    · have hcounted : (s.setFile fileDescriptor.toNat { s.openFileTable fileDescriptor.toNat with
          maxCount := (s.openFileTable fileDescriptor.toNat).maxCount - 1 }).IndexBytes :=
        h.setFile (h fileDescriptor.toNat)
      exact hcounted.setFile (show OpenFile.zero.inodeIndex < 2 ^ 8 by decide)
    · exact h.setFile (h fileDescriptor.toNat)
  | sysWrite c =>
    obtain ⟨⟨r, t⟩, hret, rfl⟩ := Option.map_eq_some_iff.mp hcall
    exact h.sameFiles (sysWrite_disk hret).1
  | sysRead c =>
    obtain ⟨⟨r, t⟩, hret, rfl⟩ := Option.map_eq_some_iff.mp hcall
    exact h.sameFiles (sysRead_sameFiles hret).1

/-- **All calls of a run keep to the tables** when they all are within the tables, and only then. -/
theorem keepsTables_run_iff (h : s.IndexBytes) (calls : List TableCall) :
    Run.Meets invoke KeepsTables s calls ↔ Run.Meets invoke WithinTables s calls :=
  ⟨fun hkeeps ↦ hkeeps.of_invariant IndexBytes (fun _ _ _ hs _ hcall ↦ hs.invoke hcall)
      (fun _ c hs ↦ (keepsTables_iff hs c).mp) h,
    fun hwithin ↦ hwithin.of_invariant IndexBytes (fun _ _ _ hs _ hcall ↦ hs.invoke hcall)
      (fun _ c hs ↦ (keepsTables_iff hs c).mpr) h⟩

/-! ## One file -/

theorem oneEntry_indexBytes (maxCount : UInt8) : (oneEntry maxCount).IndexBytes := fun _ ↦
  show OpenFile.zero.inodeIndex < 2 ^ 8 by decide

theorem oneOpen_indexBytes : oneOpen.IndexBytes := fun d ↦ by
  rw [oneOpen_tables.1, Function.update_apply]
  split <;> decide

/-- Reading an empty file leaves everything as it is. -/
theorem oneOpen_read : oneOpen.read ⟨0, 0x600000, 1⟩ = some oneOpen := by
  obtain ⟨hfile, hinode⟩ := oneOpen_file
  obtain ⟨-, hsize⟩ := twoFiles_diskInode 0 (by decide)
  have hcount : oneOpen.readCount 0 1 = 0 := by
    rw [readCount, hinode, hsize, hfile]
    rfl
  have hsame : ({ oneOpen.openFileTable 0 with
      lseek := ((oneOpen.openFileTable 0).lseek + 0) % 2 ^ 32 } : OpenFile) =
        oneOpen.openFileTable 0 := by
    rw [hfile]
    rfl
  show (oneOpen.sysRead ((0 : ℕ) : ℤ) 0x600000 1).map Prod.snd = some oneOpen
  rw [sysRead, if_neg (by decide), Int.toNat_natCast]
  dsimp only
  rw [hcount, if_neg (by rw [hfile]; decide), if_neg (by rw [hfile]; decide), hsame, setFile,
    Function.update_eq_self]
  rfl

/-- A file that is open is read, opened once more and closed. -/
theorem keepsTables_run_oneOpen :
    (∃ t, Run.exec invoke oneOpen
      [.sysRead ⟨0, 0x600000, 1⟩, .sysOpen [0x61] 0x21 0, .sysClose 0] = some t) ∧
    Run.Meets invoke KeepsTables oneOpen
      [.sysRead ⟨0, 0x600000, 1⟩, .sysOpen [0x61] 0x21 0, .sysClose 0] := by
  obtain ⟨hslot, k, hagain⟩ := oneOpen_again
  have hget : oneOpen.fs.getInode [0x61] = diskInode twoFilesDisk oneEntrySuperblock 4 := by
    rw [oneOpen_fs]
    exact twoFiles_getInode 0 (by decide)
  obtain ⟨hnum, -⟩ := twoFiles_diskInode 0 (by decide)
  have hread : oneOpen.invoke (.sysRead ⟨0, 0x600000, 1⟩) = some oneOpen := oneOpen_read
  have hopen : oneOpen.invoke (.sysOpen [0x61] 0x21 0) = some k := by
    show (oneOpen.sysOpen [0x61] 0x21 0).map Prod.snd = _
    rw [hagain]
    rfl
  have hclose : k.invoke (.sysClose 0) = some (k.sysClose 0).2 := rfl
  refine ⟨⟨_, Run.exec_cons.mpr ⟨_, hread, Run.exec_cons.mpr ⟨_, hopen, Run.exec_singleton hclose⟩⟩⟩,
    (keepsTables_run_iff oneOpen_indexBytes _).mpr (Run.Meets.cons ?_ hread
      (Run.Meets.cons ?_ hopen (Run.Meets.cons ?_ hclose trivial)))⟩
  · exact show (0 : ℤ) < tableEntries by decide
  · refine fun _ ↦ ⟨⟨0, by decide, ?_⟩, ?_⟩
    · rw [hget, hnum, oneOpen_iNumber, if_pos rfl]
    · rintro (hfiles | hinodes)
      · refine (hfiles 1 (by decide)).1 ?_
        rw [oneOpen_tables.1]
        rfl
      · refine hinodes 1 (by decide) ?_
        rw [oneOpen_iNumber]
        rfl
  · exact show (0 : ℤ) < tableEntries by decide

/-- Closing descriptor 256 uses the entry behind the table, and so does opening the first file. -/
theorem not_keepsTables_oneEntry : ¬ (oneEntry 0).KeepsTables (.sysClose 256) ∧
    ¬ (oneEntry 0).KeepsTables (.sysOpen [0x61] 3 0) := by
  rw [keepsTables_iff (oneEntry_indexBytes 0), keepsTables_iff (oneEntry_indexBytes 0)]
  refine ⟨show ¬ (256 : ℤ) < tableEntries by decide, fun h ↦ ?_⟩
  rw [WithinTables, oneEntry_getInode, (oneEntry_diskInode 0).1] at h
  obtain ⟨⟨i, -, hi⟩, -⟩ := h (by decide)
  exact oneEntry_new 0 hi

end Kernel

end AbOS
