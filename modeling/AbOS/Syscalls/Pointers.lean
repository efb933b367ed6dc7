import AbOS.Format.Blocks
import AbOS.Fs.Placement
import AbOS.Syscalls.Isolation

/-!
# Which block pointers are used

An inode has seven block pointers.  The loops over them run to a number of blocks that is computed
from a size, and none of them looks at the seven.  For each function, `lookupPointers` and the like
are the indices that it uses, in order: what the function does is the same for every inode that has
the same pointers there (`getInodeInDir_congr`, `insertEntry_congr`, `loadFile_saveFile_congr`).

A size of at most `7 * 4096` bytes keeps all of them in range.  `Fits` says so of the sizes that a
call works with, and runs of such calls stay inside the seven pointers (`pointersStay_of_fits`).
-/

set_option autoImplicit false

namespace AbOS

/-- The bytes of seven blocks. -/
def directBytes : ℕ := 7 * fsBlock

theorem bytesToBlocks_le_seven {size : ℕ} : bytesToBlocks size ≤ 7 ↔ size ≤ directBytes := by
  rw [bytesToBlocks_eq, directBytes, fsBlock]
  omega

/-! ## The loops over the pointers -/

/-- The loop of `load_file`, of `save_file` and of `print_dir`. -/
def filePointers (inode : Inode) : List ℕ := List.range (bytesToBlocks inode.size)

/-- The entry of a name is in the block of pointer `i`. -/
def blockHasName (disk : ByteStore) (dir : Inode) (file : List UInt8) (i : ℕ) : Bool :=
  (List.range dirEntriesPerBlock).any fun j ↦
    let e := readDirEntry disk (sectorAddress (blockSector (dir.directPointers i))) j
    e.iNumber != 0 && e.name == file

/-- The loop of `get_inode_in_dir` at pointer `i`, with `n` blocks to go. -/
def lookupPointers (disk : ByteStore) (dir : Inode) (file : List UInt8) : ℕ → ℕ → List ℕ
  | 0, _ => []
  | n + 1, i =>
    i :: if blockHasName disk dir file i then [] else lookupPointers disk dir file n (i + 1)

/-- The block of pointer `i` has an empty entry. -/
def blockHasRoom (disk : ByteStore) (dir : Inode) (i : ℕ) : Bool :=
  (List.range dirEntriesPerBlock).any fun j ↦
    disk.readWord (sectorAddress (blockSector (dir.directPointers i)) + j * dirEntryBytes) == 0

/-- The loop of `create_file` that looks for an empty entry. -/
def insertPointers (disk : ByteStore) (dir : Inode) : ℕ → ℕ → List ℕ
  | 0, _ => []
  | n + 1, i => i :: if blockHasRoom disk dir i then [] else insertPointers disk dir n (i + 1)

/-- The pointers that `format_disk` sets and reads for what it has placed. -/
def formatPointers (entries : List Host) : List ℕ :=
  (formatTree entries).placed.flatMap fun p ↦ List.range p.blocks.length ++ [0]

namespace Fs

/-- The lookups that `get_inode` makes, with the component read so far. -/
def lookupsFrom (fs : Fs) : Inode → List UInt8 → List UInt8 → List (Inode × List UInt8)
  | current, str, [] => [(current, str)]
  | current, str, c :: path =>
    if c = slash then
      let inode := getInodeInDir fs.disk fs.superblock current str
      (current, str) :: if inode.iNumber = 0 then [] else lookupsFrom fs inode [] path
    else if str.length < 59 then lookupsFrom fs current (str ++ [c]) path
    else []

/-- The lookups of `get_inode`. -/
def pathLookups (fs : Fs) (path : List UInt8) : List (Inode × List UInt8) :=
  match path with
  | [] => fs.lookupsFrom fs.currentDirInode [] []
  | c :: rest =>
    if c = slash then fs.lookupsFrom fs.rootInode [] rest
    else fs.lookupsFrom fs.currentDirInode [] (c :: rest)

/-- The lookups of `get_parent_inode`. -/
def parentLookups (fs : Fs) (path : List UInt8) : List (Inode × List UInt8) :=
  match strrchr path slash with
  | none => []
  | some index => if (path.take index).length = 0 then [] else fs.pathLookups (path.take index)

/-- The lookups of `print_dir`. -/
def printLookups (fs : Fs) (path : List UInt8) : List (Inode × List UInt8) :=
  match strrchr path slash with
  | some 0 => []
  | some index => fs.pathLookups (path.take index)
  | none => fs.pathLookups path

/-- The pointers of a list of lookups. -/
def pointersOf (fs : Fs) (lookups : List (Inode × List UInt8)) : List ℕ :=
  lookups.flatMap fun l ↦ lookupPointers fs.disk l.1 l.2 (bytesToBlocks l.1.size) 0

/-- The pointers of `create_file`: those of the new inode, of a new directory block, and of the
search for an empty entry. -/
def createPointers (fs : Fs) (path : List UInt8) : List ℕ :=
  let parent := fs.getParentInode path
  let newBlocks := bytesToBlocks (grownSize parent)
  fs.pointersOf (fs.parentLookups path) ++ 0 ::
    if 60 ≤ (getNamePath path).length then []
    else
      (if newBlocks > bytesToBlocks parent.size ∧ bytesToBlocks parent.size < 2 then [newBlocks]
        else []) ++
      insertPointers (fs.grownParent path).2.disk (fs.grownParent path).1 newBlocks 0

end Fs

/-! ## The calls -/

/-- A call of one of the functions that use the pointers. -/
inductive PointerCall
  | createFile (path : List UInt8) (behind : ByteStore)
  | sysOpen (path : List UInt8) (flags leftover : BitVec 32)
  | sysWrite (c : Kernel.WriteCall)
  | loadFile (inode : Inode) (address leftover : BitVec 32)
  | saveFile (inode : Inode) (address leftover : BitVec 32)
  | getInodeInDir (dir : Inode) (file : List UInt8)
  | printDir (path : List UInt8)

namespace Kernel

/-- The state after a call. -/
def use (s : Kernel) : PointerCall → Option Kernel
  | .createFile path behind => (s.fs.createFile path behind).map fun (_, fs) ↦ { s with fs }
  | .sysOpen path flags leftover => (s.sysOpen path flags.toNat leftover.toNat).map Prod.snd
  | .sysWrite c => s.write c
  | .loadFile inode address leftover =>
    (AbOS.loadFile s.fs.disk inode s.vmm address.toNat leftover.toNat).map fun vmm ↦ { s with vmm }
  | .saveFile inode address leftover =>
    (AbOS.saveFile s.fs.disk inode s.vmm address.toNat leftover.toNat).map fun (disk, vmm) ↦
      { s with
        fs := { s.fs with disk }
        vmm }
  | .getInodeInDir _ _ => some s
  | .printDir _ => some s

/-- The inode that `sys_write` saves at the end, if it gets there. -/
def savedInode (s : Kernel) (c : WriteCall) : Option Inode :=
  let d := c.fileDescriptor.toNat
  if c.fileDescriptor < 0 ∨ ¬ Writable (s.openFileTable d) then none
  else
    ((s.seekToEnd d).growPages d c.length.toNat).bind fun s ↦
      (s.copyBuffer d c.buffer.toNat c.length.toNat).map fun s ↦ (s.growSize d).inodeOf d

/-- The pointers that a call uses. -/
def pointers (s : Kernel) : PointerCall → List ℕ
  | .createFile path _ => s.fs.createPointers path
  | .sysOpen path _ _ =>
    let inode := s.fs.getInode path
    s.fs.pointersOf (s.fs.pathLookups path) ++
      if inode.iNumber = 0 then [] else filePointers (s.loadedInode inode)
  | .sysWrite c => ((s.savedInode c).map filePointers).getD []
  | .loadFile inode _ _ => filePointers inode
  | .saveFile inode _ _ => filePointers inode
  | .getInodeInDir dir file => lookupPointers s.fs.disk dir file (bytesToBlocks dir.size) 0
  | .printDir path => s.fs.pointersOf (s.fs.printLookups path) ++
    if (s.fs.printedDir path).fileType ≠ fileTypeDir then [] else filePointers (s.fs.printedDir path)

/-- The size that a call gives to a file or a directory. -/
def newSize (s : Kernel) : PointerCall → Option ℕ
  | .createFile path _ =>
    if 60 ≤ (getNamePath path).length then none else some (Fs.grownSize (s.fs.getParentInode path))
  | .sysWrite c => (s.savedInode c).map Inode.size
  | _ => none

/-- The call uses the seven pointers only, and makes nothing larger than they allow. -/
def PointersStay (s : Kernel) (c : PointerCall) : Prop :=
  (∀ i ∈ s.pointers c, i < 7) ∧ ∀ size, s.newSize c = some size → size ≤ directBytes

/-- A lookup ends within seven blocks. -/
def LookupFits (disk : ByteStore) (l : Inode × List UInt8) : Prop :=
  l.1.size ≤ directBytes ∨ ∃ i < 7, blockHasName disk l.1 l.2 i = true

/-- The lookups of a call end within seven blocks, and the file or the directory that it works with
has no more of them, nor gets more. -/
def Fits (s : Kernel) : PointerCall → Prop
  | .createFile path _ => (∀ l ∈ s.fs.parentLookups path, LookupFits s.fs.disk l) ∧
    Fs.grownSize (s.fs.getParentInode path) ≤ directBytes
  | .sysOpen path _ _ => (∀ l ∈ s.fs.pathLookups path, LookupFits s.fs.disk l) ∧
    ((s.fs.getInode path).iNumber ≠ 0 → (s.loadedInode (s.fs.getInode path)).size ≤ directBytes)
  | .sysWrite c => 0 ≤ c.fileDescriptor → Writable (s.openFileTable c.fileDescriptor.toNat) →
    (s.inodeOf c.fileDescriptor.toNat).size ≤ directBytes ∧
      (s.writeStart c.fileDescriptor.toNat + c.length.toNat) % 2 ^ 32 ≤ directBytes
  | .loadFile inode _ _ => inode.size ≤ directBytes
  | .saveFile inode _ _ => inode.size ≤ directBytes
  | .getInodeInDir dir file => LookupFits s.fs.disk (dir, file)
  | .printDir path => (∀ l ∈ s.fs.printLookups path, LookupFits s.fs.disk l) ∧
    ((s.fs.printedDir path).fileType = fileTypeDir → (s.fs.printedDir path).size ≤ directBytes)

end Kernel

/-! ## What is not used -/

section Unused

variable {disk : ByteStore} {dir dir' : Inode} {file : List UInt8}

/-- The search goes on behind a block without the name. -/
theorem find?_blocks_congr (n i : ℕ)
    (h : ∀ j ∈ lookupPointers disk dir file n i, dir'.directPointers j = dir.directPointers j) :
    ((List.range' i n).flatMap fun i ↦ (List.range dirEntriesPerBlock).map fun j ↦
        readDirEntry disk (sectorAddress (blockSector (dir'.directPointers i))) j).find?
          (fun e ↦ e.iNumber != 0 && e.name == file) =
      ((List.range' i n).flatMap fun i ↦ (List.range dirEntriesPerBlock).map fun j ↦
        readDirEntry disk (sectorAddress (blockSector (dir.directPointers i))) j).find?
          (fun e ↦ e.iNumber != 0 && e.name == file) := by
  induction n generalizing i with
  | zero => rw [List.range'_zero, List.flatMap_nil, List.flatMap_nil]
  | succ n ih =>
    rw [lookupPointers, List.forall_mem_cons] at h
    rw [List.range'_succ, List.flatMap_cons, List.flatMap_cons, List.find?_append,
      List.find?_append, h.1]
    cases hblock : ((List.range dirEntriesPerBlock).map fun j ↦ readDirEntry disk
        (sectorAddress (blockSector (dir.directPointers i))) j).find?
          (fun e ↦ e.iNumber != 0 && e.name == file) with
    | some e => rw [Option.some_or, Option.some_or]
    | none =>
      have hname : ¬ blockHasName disk dir file i = true := by
        rw [blockHasName, List.any_eq_true]
        rintro ⟨j, hj, hnamed⟩
        exact List.find?_eq_none.mp hblock _ (List.mem_map_of_mem hj) hnamed
      rw [if_neg hname] at h
      rw [Option.none_or, Option.none_or, ih (i + 1) h.2]

/-- **A lookup** depends on the pointers that it uses, and on no other. -/
theorem getInodeInDir_congr (superblock : Superblock) (hsize : dir'.size = dir.size)
    (h : ∀ i ∈ lookupPointers disk dir file (bytesToBlocks dir.size) 0,
      dir'.directPointers i = dir.directPointers i) :
    getInodeInDir disk superblock dir' file = getInodeInDir disk superblock dir file := by
  have hfind := find?_blocks_congr _ 0 h
  rw [← List.range_eq_range'] at hfind
  rw [getInodeInDir, getInodeInDir, dirEntries, dirEntries, hsize, hfind]

/-- The block with the empty entry is the last that is looked at. -/
theorem findSome?_blocks_congr (n i : ℕ)
    (h : ∀ j ∈ insertPointers disk dir n i, dir'.directPointers j = dir.directPointers j) :
    let entry (dir : Inode) (i : ℕ) := ((List.range dirEntriesPerBlock).find? fun j ↦ disk.readWord
      (sectorAddress (blockSector (dir.directPointers i)) + j * dirEntryBytes) == 0).map
        fun j ↦ (i, j)
    (List.range' i n).findSome? (entry dir') = (List.range' i n).findSome? (entry dir) ∧
      ∀ k j, (List.range' i n).findSome? (entry dir) = some (k, j) →
        dir'.directPointers k = dir.directPointers k := by
  intro entry
  induction n generalizing i with
  | zero =>
    rw [List.range'_zero, List.findSome?_nil, List.findSome?_nil]
    exact ⟨rfl, fun _ _ hnone ↦ absurd hnone.symm (Option.some_ne_none _)⟩
  | succ n ih =>
    rw [insertPointers, List.forall_mem_cons] at h
    have hentry : entry dir' i = entry dir i := by
      dsimp only [entry]
      rw [h.1]
    rw [List.range'_succ, List.findSome?_cons, List.findSome?_cons, hentry]
    cases hblock : entry dir i with
    | some e =>
      obtain ⟨j, -, rfl⟩ := Option.map_eq_some_iff.mp hblock
      refine ⟨rfl, fun k j' heq ↦ ?_⟩
      obtain rfl : i = k := (Prod.mk.inj (Option.some.inj heq)).1
      exact h.1
    | none =>
      have hroom : ¬ blockHasRoom disk dir i = true := by
        rw [blockHasRoom, List.any_eq_true]
        rintro ⟨j, hj, hempty⟩
        exact List.find?_eq_none.mp (Option.map_eq_none_iff.mp hblock) j hj hempty
      rw [if_neg hroom] at h
      exact ih (i + 1) h.2

/-- **The new entry** goes into a block whose pointer is used, whatever the others are. -/
theorem insertEntry_congr {blocks : ℕ} (e : DirEntry)
    (h : ∀ i ∈ insertPointers disk dir blocks 0, dir'.directPointers i = dir.directPointers i) :
    insertEntry disk dir' blocks e = insertEntry disk dir blocks e := by
  obtain ⟨hsame, hused⟩ := findSome?_blocks_congr blocks 0 h
  rw [← List.range_eq_range'] at hsame hused
  have hempty : emptyEntry disk dir' blocks = emptyEntry disk dir blocks := hsame
  rw [insertEntry, insertEntry, hempty]
  cases hentry : emptyEntry disk dir blocks with
  | none => rfl
  | some p =>
    dsimp only
    rw [hused p.1 p.2 hentry]

/-- The blocks of a file are those of its pointers. -/
theorem loadBlocks_congr (m : Vmm) (address : ℕ) {n : ℕ}
    (h : ∀ i < n, dir'.directPointers i = dir.directPointers i) :
    loadBlocks disk dir' m address n = loadBlocks disk dir m address n := by
  induction n with
  | zero => rfl
  | succ n ih =>
    rw [loadBlocks, loadBlocks, ih fun i hi ↦ h i (Nat.lt_succ_of_lt hi), h n (Nat.lt_succ_self n)]

theorem saveBlocks_congr (m : Vmm) (address : ℕ) {n : ℕ}
    (h : ∀ i < n, dir'.directPointers i = dir.directPointers i) :
    saveBlocks disk dir' m address n = saveBlocks disk dir m address n := by
  induction n with
  | zero => rfl
  | succ n ih =>
    rw [saveBlocks, saveBlocks, ih fun i hi ↦ h i (Nat.lt_succ_of_lt hi), h n (Nat.lt_succ_self n)]

/-- **Loading and saving** depend on the pointers of a file of that size, and on no others. -/
theorem loadFile_saveFile_congr (m : Vmm) (address leftover : ℕ) (hsize : dir'.size = dir.size)
    (h : ∀ i ∈ filePointers dir, dir'.directPointers i = dir.directPointers i) :
    loadFile disk dir' m address leftover = loadFile disk dir m address leftover ∧
      saveFile disk dir' m address leftover = saveFile disk dir m address leftover := by
  have hblocks : ∀ i < bytesToBlocks dir.size, dir'.directPointers i = dir.directPointers i :=
    fun i hi ↦ h i (List.mem_range.mpr hi)
  rw [loadFile, loadFile, saveFile, saveFile, hsize]
  exact ⟨loadBlocks_congr m _ hblocks, saveBlocks_congr m _ hblocks⟩

end Unused

/-! ## Staying inside -/

theorem filePointers_lt_iff {inode : Inode} :
    (∀ i ∈ filePointers inode, i < 7) ↔ inode.size ≤ directBytes := by
  rw [filePointers, ← bytesToBlocks_le_seven]
  constructor
  · intro h
    by_contra hcon
    exact absurd (h 7 (List.mem_range.mpr (by omega))) (Nat.lt_irrefl 7)
  · intro h i hi
    have := List.mem_range.mp hi
    omega

/-- A lookup goes on to the next pointer until it finds the name. -/
theorem lookupPointers_lt_iff {disk : ByteStore} {dir : Inode} {file : List UInt8} (n : ℕ) :
    ∀ i ≤ 7, (∀ j ∈ lookupPointers disk dir file n i, j < 7) ↔
      i + n ≤ 7 ∨ ∃ j, i ≤ j ∧ j < 7 ∧ blockHasName disk dir file j = true := by
  induction n with
  | zero => exact fun i hi ↦ iff_of_true (fun j hj ↦ absurd hj List.not_mem_nil) (Or.inl hi)
  | succ n ih =>
    intro i hi
    rw [lookupPointers, List.forall_mem_cons]
    rcases Nat.lt_or_ge i 7 with hlt | hge
    · rw [and_iff_right hlt]
      by_cases hname : blockHasName disk dir file i = true
      · rw [if_pos hname]
        exact iff_of_true (fun j hj ↦ absurd hj List.not_mem_nil)
          (Or.inr ⟨i, Nat.le_refl i, hlt, hname⟩)
      · rw [if_neg hname, ih (i + 1) hlt]
        refine or_congr (by omega) (exists_congr fun j ↦ ⟨fun ⟨h₁, h₂⟩ ↦ ⟨by omega, h₂⟩,
          fun ⟨h₁, h₂, h₃⟩ ↦ ⟨?_, h₂, h₃⟩⟩)
        rcases Nat.eq_or_lt_of_le h₁ with rfl | hj
        · exact absurd h₃ hname
        · exact hj
    · exact iff_of_false (fun h ↦ absurd h.1 (by omega)) fun h ↦ by
        rcases h with h | ⟨j, h₁, h₂, -⟩ <;> omega

theorem lookupFits_iff {disk : ByteStore} {dir : Inode} {file : List UInt8} :
    (∀ j ∈ lookupPointers disk dir file (bytesToBlocks dir.size) 0, j < 7) ↔
      Kernel.LookupFits disk (dir, file) := by
  rw [lookupPointers_lt_iff _ 0 (Nat.zero_le 7), Nat.zero_add, bytesToBlocks_le_seven]
  simp only [Kernel.LookupFits, Nat.zero_le, true_and]

theorem Fs.pointersOf_lt_iff {fs : Fs} {lookups : List (Inode × List UInt8)} :
    (∀ j ∈ fs.pointersOf lookups, j < 7) ↔ ∀ l ∈ lookups, Kernel.LookupFits fs.disk l := by
  simp only [pointersOf, List.mem_flatMap, forall_exists_index, and_imp]
  rw [forall_comm]
  refine forall_congr' fun l ↦ ?_
  rw [forall_comm]
  exact forall_congr' fun _ ↦ lookupFits_iff

theorem mem_insertPointers {disk : ByteStore} {dir : Inode} {n i j : ℕ}
    (h : j ∈ insertPointers disk dir n i) : j < i + n := by
  induction n generalizing i with
  | zero => exact absurd h List.not_mem_nil
  | succ n ih =>
    rw [insertPointers, List.mem_cons] at h
    rcases h with rfl | h
    · omega
    · split at h
      · exact absurd h List.not_mem_nil
      · have := ih h
        omega

theorem Fs.createPointers_lt {fs : Fs} {path : List UInt8}
    (hlookups : ∀ l ∈ fs.parentLookups path, Kernel.LookupFits fs.disk l)
    (hsize : grownSize (fs.getParentInode path) ≤ directBytes) :
    ∀ i ∈ fs.createPointers path, i < 7 := by
  intro i hi
  have hblocks := bytesToBlocks_le_seven.mpr hsize
  rw [createPointers, List.mem_append, List.mem_cons] at hi
  rcases hi with hi | rfl | hi
  · exact pointersOf_lt_iff.mpr hlookups i hi
  · decide
  · split at hi
    · exact absurd hi List.not_mem_nil
    · rcases List.mem_append.mp hi with hi | hi
      · -- the new block is the second or the third
        split at hi
        · rename_i hgrow
          obtain rfl := List.mem_singleton.mp hi
          obtain ⟨-, hfew⟩ := hgrow
          rw [bytesToBlocks_eq] at hfew
          rw [grownSize, bytesToBlocks_eq, dirEntryBytes]
          omega
        · exact absurd hi List.not_mem_nil
      · have := mem_insertPointers hi
        omega

namespace Kernel

variable {s t : Kernel}

/-- The size of what `sys_write` saves. -/
theorem savedInode_size {c : WriteCall} {inode : Inode} (h : s.savedInode c = some inode) :
    0 ≤ c.fileDescriptor ∧ Writable (s.openFileTable c.fileDescriptor.toNat) ∧
      inode.size = max (s.inodeOf c.fileDescriptor.toNat).size
        ((s.writeStart c.fileDescriptor.toNat + c.length.toNat) % 2 ^ 32) := by
  rw [savedInode] at h
  generalize c.fileDescriptor.toNat = d at h ⊢
  split at h
  · cases h
  rename_i hrefused
  rw [not_or, not_not, Int.not_lt] at hrefused
  obtain ⟨s₂, h₂, h⟩ := Option.bind_eq_some_iff.mp h
  obtain ⟨s₃, h₃, rfl⟩ := Option.map_eq_some_iff.mp h
  obtain ⟨hs₁, -, hit₁, hl₁⟩ := s.seekToEnd_spec d
  obtain ⟨hs₂, -, hit₂, hl₂⟩ := growPages_spec h₂
  obtain ⟨hs₃, -, hit₃, hl₃⟩ := copyBuffer_spec h₃
  obtain ⟨-, -, hsize⟩ := s₃.growSize_spec d
  refine ⟨hrefused.1, hrefused.2, ?_⟩
  rw [hsize, hl₃, hl₂, hl₁, inodeOf, hit₃, hit₂, hit₁, ((hs₁.trans hs₂).trans hs₃).inodeIndex]
  rfl

/-- A call that is not refused and returns has saved the file. -/
theorem exists_savedInode {c : WriteCall} (hfd : 0 ≤ c.fileDescriptor)
    (hflags : Writable (s.openFileTable c.fileDescriptor.toNat)) (h : s.write c = some t) :
    ∃ inode, s.savedInode c = some inode := by
  obtain ⟨⟨r, t⟩, hcall, -⟩ := Option.map_eq_some_iff.mp h
  obtain ⟨hneg, -⟩ | ⟨-, hnot, -⟩ | ⟨d, s₂, s₃, hd, -, -, h₂, h₃, -⟩ := sysWrite_cases hcall
  · exact absurd hneg (Int.not_lt.mpr hfd)
  · exact absurd hflags hnot
  have hto : c.fileDescriptor.toNat = d := by rw [hd, Int.toNat_natCast]
  refine ⟨(s₃.growSize d).inodeOf d, ?_⟩
  rw [savedInode, if_neg (by rw [not_or, not_not]; exact ⟨Int.not_lt.mpr hfd, hflags⟩), hto, h₂,
    Option.bind_some, h₃]
  rfl

/-- **One call.** -/
theorem Fits.pointersStay {c : PointerCall} (h : s.Fits c) : s.PointersStay c := by
  cases c with
  | createFile path behind =>
    refine ⟨Fs.createPointers_lt h.1 h.2, fun size hsize ↦ ?_⟩
    rw [newSize] at hsize
    split at hsize
    · cases hsize
    · cases hsize
      exact h.2
  | sysOpen path flags leftover =>
    refine ⟨fun i hi ↦ ?_, fun size hsize ↦ by cases hsize⟩
    rcases List.mem_append.mp hi with hi | hi
    · exact Fs.pointersOf_lt_iff.mpr h.1 i hi
    · split at hi
      · exact absurd hi List.not_mem_nil
      · rename_i hne
        exact filePointers_lt_iff.mpr (h.2 hne) i hi
  | sysWrite c =>
    have hsaved : ∀ inode, s.savedInode c = some inode → inode.size ≤ directBytes :=
      fun inode hinode ↦ by
        obtain ⟨hfd, hflags, hsize⟩ := savedInode_size hinode
        rw [hsize]
        exact max_le (h hfd hflags).1 (h hfd hflags).2
    refine ⟨fun i hi ↦ ?_, fun size hsize ↦ ?_⟩
    · rw [pointers] at hi
      cases hinode : s.savedInode c with
      | none =>
        rw [hinode] at hi
        exact absurd hi List.not_mem_nil
      | some inode =>
        rw [hinode] at hi
        exact filePointers_lt_iff.mpr (hsaved inode hinode) i hi
    · obtain ⟨inode, hinode, rfl⟩ := Option.map_eq_some_iff.mp hsize
      exact hsaved inode hinode
  | loadFile inode => exact ⟨filePointers_lt_iff.mpr h, fun size hsize ↦ by cases hsize⟩
  | saveFile inode => exact ⟨filePointers_lt_iff.mpr h, fun size hsize ↦ by cases hsize⟩
  | getInodeInDir dir file => exact ⟨lookupFits_iff.mpr h, fun size hsize ↦ by cases hsize⟩
  | printDir path =>
    refine ⟨fun i hi ↦ ?_, fun size hsize ↦ by cases hsize⟩
    rcases List.mem_append.mp hi with hi | hi
    · exact Fs.pointersOf_lt_iff.mpr h.1 i hi
    · split at hi
      · exact absurd hi List.not_mem_nil
      · rename_i hdir
        exact filePointers_lt_iff.mpr (h.2 (not_not.mp hdir)) i hi

/-- **One call that returns.** -/
theorem PointersStay.fits {c : PointerCall} (h : s.PointersStay c) (hcall : s.use c = some t) :
    s.Fits c := by
  obtain ⟨hlt, hsize⟩ := h
  cases c with
  | createFile path behind =>
    have hname : ¬ 60 ≤ (getNamePath path).length := fun hlong ↦ by
      rw [use, Fs.createFile] at hcall
      dsimp only at hcall
      rw [if_pos hlong] at hcall
      cases hcall
    refine ⟨Fs.pointersOf_lt_iff.mp fun i hi ↦ hlt i (List.mem_append_left _ hi), hsize _ ?_⟩
    rw [newSize, if_neg hname]
  | sysOpen path flags leftover =>
    refine ⟨Fs.pointersOf_lt_iff.mp fun i hi ↦ hlt i (List.mem_append_left _ hi), fun hne ↦ ?_⟩
    refine filePointers_lt_iff.mp fun i hi ↦ hlt i (List.mem_append_right _ ?_)
    rwa [if_neg hne]
  | sysWrite c =>
    intro hfd hflags
    obtain ⟨inode, hinode⟩ := exists_savedInode hfd hflags hcall
    obtain ⟨-, -, hmax⟩ := savedInode_size hinode
    have hle := hsize inode.size (by rw [newSize, hinode]; rfl)
    rw [hmax] at hle
    exact max_le_iff.mp hle
  | loadFile inode => exact filePointers_lt_iff.mp hlt
  | saveFile inode => exact filePointers_lt_iff.mp hlt
  | getInodeInDir dir file => exact lookupFits_iff.mp hlt
  | printDir path =>
    refine ⟨Fs.pointersOf_lt_iff.mp fun i hi ↦ hlt i (List.mem_append_left _ hi), fun hdir ↦ ?_⟩
    refine filePointers_lt_iff.mp fun i hi ↦ hlt i (List.mem_append_right _ ?_)
    rwa [if_neg (not_not.mpr hdir)]

end Kernel

/-! ## The formatter -/

theorem map_count_assign (c : ℕ) (its : List Item) :
    (assign c its).map (fun r ↦ (Item.owner r).2.2.length) = its.map Item.count := by
  induction its generalizing c with
  | nil => rfl
  | cons it its ih =>
    rw [assign, List.map_cons, ih, List.map_cons]
    congr 1
    rw [Item.owner, blocksFrom, List.length_map, List.length_range]

/-- The formatter stays inside if each file and each directory has seven blocks at most. -/
theorem formatPointers_lt_iff {entries : List Host} :
    (∀ i ∈ formatPointers entries, i < 7) ↔ ∀ it ∈ treeItems entries, it.count ≤ 7 := by
  have hcount : (formatTree entries).placed.map (fun p ↦ p.blocks.length) =
      (treeItems entries).map Item.count := by
    have h := congrArg (List.map fun o : Owner ↦ o.2.2.length) (formatTree_owners entries).2
    rw [List.map_map, List.map_map] at h
    exact h.trans (map_count_assign _ _)
  have hitems : (∀ it ∈ treeItems entries, it.count ≤ 7) ↔
      ∀ p ∈ (formatTree entries).placed, p.blocks.length ≤ 7 := by
    rw [← List.forall_mem_map (f := Item.count) (P := (· ≤ 7)), ← hcount, List.forall_mem_map]
  rw [hitems]
  constructor
  · intro h p hp
    by_contra hcon
    exact absurd (h 7 (List.mem_flatMap.mpr ⟨p, hp, List.mem_append_left _
      (List.mem_range.mpr (by omega))⟩)) (Nat.lt_irrefl 7)
  · intro h i hi
    obtain ⟨p, hp, hi⟩ := List.mem_flatMap.mp hi
    have hle := h p hp
    rcases List.mem_append.mp hi with hi | hi
    · exact lt_of_lt_of_le (List.mem_range.mp hi) hle
    · rw [List.mem_singleton.mp hi]
      decide

/-- **Pointers stay in range** when no file or directory of the host needs an eighth block and all
calls fit; in a run whose calls all return, only then. -/
theorem pointersStay_of_fits (entries : List Host) (s : Kernel) (calls : List PointerCall) :
    ((∀ it ∈ treeItems entries, it.count ≤ 7) ∧ Run.Meets Kernel.use Kernel.Fits s calls →
      (∀ i ∈ formatPointers entries, i < 7) ∧
        Run.Meets Kernel.use Kernel.PointersStay s calls) ∧
    ∀ t, Run.exec Kernel.use s calls = some t →
      (∀ i ∈ formatPointers entries, i < 7) ∧ Run.Meets Kernel.use Kernel.PointersStay s calls →
        (∀ it ∈ treeItems entries, it.count ≤ 7) ∧ Run.Meets Kernel.use Kernel.Fits s calls :=
  ⟨fun ⟨htree, hfits⟩ ↦ ⟨formatPointers_lt_iff.mpr htree, hfits.mono fun _ _ _ h ↦ h.pointersStay⟩,
    fun _ hrun ⟨htree, hstay⟩ ↦ ⟨formatPointers_lt_iff.mp htree,
      hstay.mono_of_exec (fun _ _ _ hcall h ↦ h.fits hcall) hrun⟩⟩

/-- A file of one byte more than seven blocks has an eighth pointer, behind the last one. -/
theorem not_pointersStay_largeFile :
    ¬ ∀ i ∈ formatPointers [.file [0x61] (List.replicate 28673 0)], i < 7 := by
  rw [formatPointers_lt_iff]
  intro h
  have hmem : ⟨[[0x61]], fileTypeFile, decide ([0x61] = kernelBin),
      bytesToBlocks ((List.replicate 28673 (0 : UInt8)).length % 2 ^ 32)⟩ ∈
        treeItems [.file [0x61] (List.replicate 28673 0)] := by
    rw [treeItems, entriesItems, Host.items]
    exact List.mem_cons_of_mem _ (List.mem_append_left _ List.mem_cons_self)
  have hcount := h _ hmem
  rw [List.length_replicate] at hcount
  exact absurd hcount (by decide)

end AbOS
