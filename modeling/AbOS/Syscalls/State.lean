import AbOS.Fs.Lookup
import AbOS.Syscalls.VirtualMemory

/-!
# Open files

The kernel keeps two tables of 256 entries, one of open descriptors and one of the inodes they
refer to.  Both are functions here: what lies behind the last entry in memory is an entry like any
other, because some of the loops read that far.  The tables, the globals and the disk buffers are
apart from the pages of files.

`load_file` and `save_file` start at an offset that is never set.  It is an argument of the model,
`leftover`.
-/

set_option autoImplicit false

namespace AbOS

/-- `open_file_t`. -/
structure OpenFile where
  inodeIndex : ℕ
  lseek : ℕ
  address : ℕ
  maxCount : ℕ
  flags : ℕ
  pagesAllocated : ℕ
  deriving DecidableEq, Repr

/-- An entry after `memset(_, 0, sizeof(open_file_t))`. -/
def OpenFile.zero : OpenFile := ⟨0, 0, 0, 0, 0, 0⟩

/-- `flags_t`. -/
def oCreat : ℕ := 0

def oRdonly : ℕ := 1

def oWronly : ℕ := 2

def oRdwr : ℕ := 3

def oAppend : ℕ := 4

/-- The state the system calls on files work on. -/
structure Kernel where
  vmm : Vmm
  fs : Fs
  openFileTable : ℕ → OpenFile
  openInodeTable : ℕ → Inode
  /-- `file_virtual_address`. -/
  fileVirtualAddress : ℕ
  currentOpenFiles : ℕ
  currentOpenInodes : ℕ

namespace Kernel

/-- `open_inode_table[open_file_table[d].inode_index]`. -/
def inodeOf (s : Kernel) (d : ℕ) : Inode := s.openInodeTable (s.openFileTable d).inodeIndex

/-- Replace an entry of the file table. -/
def setFile (s : Kernel) (d : ℕ) (file : OpenFile) : Kernel :=
  { s with openFileTable := Function.update s.openFileTable d file }

/-- Replace an entry of the inode table. -/
def setInode (s : Kernel) (i : ℕ) (inode : Inode) : Kernel :=
  { s with openInodeTable := Function.update s.openInodeTable i inode }

/-- The loop that gives a descriptor `n` new pages, at the address where files go on. -/
def addPages (s : Kernel) (d n : ℕ) : Kernel :=
  let file := s.openFileTable d
  { s.setFile d { file with pagesAllocated := (file.pagesAllocated + n) % 2 ^ 8 } with
    vmm := s.vmm.mapPages Vmm.freshFrame s.fileVirtualAddress n
    fileVirtualAddress := (s.fileVirtualAddress + n * pageSize) % 2 ^ 32 }

end Kernel

/-- The loop of `load_file`. -/
def loadBlocks (disk : ByteStore) (inode : Inode) (m : Vmm) (address : ℕ) : ℕ → Option Vmm
  | 0 => some m
  | i + 1 => (loadBlocks disk inode m address i).bind fun m ↦
    m.storeBytes (address + i * fsBlock)
      (readSectors disk sectorsPerBlock (blockSector (inode.directPointers i)))

/-- `load_file`, which always returns true. -/
def loadFile (disk : ByteStore) (inode : Inode) (m : Vmm) (address leftover : ℕ) : Option Vmm :=
  loadBlocks disk inode m (address + leftover) (bytesToBlocks inode.size)

/-- The loop of `save_file`. -/
def saveBlocks (disk : ByteStore) (inode : Inode) (m : Vmm) (address : ℕ) :
    ℕ → Option (ByteStore × Vmm)
  | 0 => some (disk, m)
  | i + 1 => (saveBlocks disk inode m address i).bind fun (disk, m) ↦
    (m.loadBytes (address + i * fsBlock) fsBlock).map fun (bs, m) ↦
      (writeSectors disk (blockSector (inode.directPointers i)) bs, m)

/-- `save_file`. -/
def saveFile (disk : ByteStore) (inode : Inode) (m : Vmm) (address leftover : ℕ) :
    Option (ByteStore × Vmm) :=
  saveBlocks disk inode m (address + leftover) (bytesToBlocks inode.size)

/-- From pages that are present `save_file` returns, and it leaves them as they are. -/
theorem exists_saveBlocks (disk : ByteStore) (inode : Inode) {m : Vmm} {address n : ℕ} {P : ℕ → ℕ}
    (hP : ∀ k, k < n * fsBlock → m.translate ((address + k) % 2 ^ 32) = some (P k)) :
    ∃ disk', saveBlocks disk inode m address n = some (disk', m) := by
  induction n with
  | zero => exact ⟨disk, rfl⟩
  | succ n ih =>
    rw [Nat.succ_mul] at hP
    obtain ⟨disk', hdisk⟩ := ih fun k hk ↦ hP k (by omega)
    have hload := Vmm.loadBytes_spec (m := m) (v := address + n * fsBlock) (n := fsBlock)
      (P := fun k ↦ P (n * fsBlock + k)) fun k hk ↦ by
        have := hP (n * fsBlock + k) (by omega)
        rwa [← Nat.add_assoc] at this
    rw [saveBlocks, hdisk, Option.bind_some]
    dsimp only
    rw [hload]
    exact ⟨_, rfl⟩

/-- `save_file` writes the blocks its pointers name, and nothing else. -/
theorem saveBlocks_of_not_mem {disk disk' : ByteStore} {inode : Inode} {m m' : Vmm}
    {address n x : ℕ} (h : saveBlocks disk inode m address n = some (disk', m'))
    (hx : ∀ i, i < n → x < sectorAddress (blockSector (inode.directPointers i)) ∨
      sectorAddress (blockSector (inode.directPointers i)) + fsBlock ≤ x) : disk' x = disk x := by
  induction n generalizing disk' m' with
  | zero => cases h; rfl
  | succ n ih =>
    obtain ⟨⟨disk₁, m₁⟩, hsave, h⟩ := Option.bind_eq_some_iff.mp h
    obtain ⟨⟨bs, m₂⟩, hload, h⟩ := Option.map_eq_some_iff.mp h
    cases h
    rw [writeSectors_of_not_mem, ih hsave fun i hi ↦ hx i (by omega)]
    rw [Vmm.length_of_loadBytes hload]
    exact hx n (by omega)

/-- The disk address of byte `x` of a file. -/
def fileByte (inode : Inode) (x : ℕ) : ℕ :=
  sectorAddress (blockSector (inode.directPointers (x / fsBlock))) + x % fsBlock

section Bytes

variable (disk : ByteStore) (inode : Inode) {m : Vmm} {address n : ℕ} {P : ℕ → ℕ}

/-- `load_file` to bytes of data leaves each byte of memory as it is, or puts a byte of the file
there. -/
theorem loadBlocks_written (hdir : m.directory % 4096 = 0) (hP : m.DataAt address (n * fsBlock) P) :
    ∃ m', loadBlocks disk inode m address n = some m' ∧ Vmm.SameTables m m' ∧
      ∀ x, ((∀ y < n * fsBlock, x ≠ P y) ∧ m'.ram x = m.ram x) ∨
        ∃ y < n * fsBlock, P y = x ∧ m'.ram x = disk (fileByte inode y) := by
  induction n with
  | zero =>
    exact ⟨m, rfl, Vmm.SameTables.refl m, fun x ↦ Or.inl ⟨fun y hy ↦ absurd hy (by omega), rfl⟩⟩
  | succ n ih =>
    have hsucc : (n + 1) * fsBlock = n * fsBlock + 4096 := by rw [Nat.succ_mul, fsBlock]
    rw [hsucc] at hP ⊢
    obtain ⟨m₁, hload, hsame, hram⟩ := ih fun y hy ↦ hP y (by omega)
    have hlen : (readSectors disk sectorsPerBlock
        (blockSector (inode.directPointers n))).length = 4096 := length_readSectors ..
    have hdata : m₁.DataAt (address + n * fsBlock) 4096 fun i ↦ P (n * fsBlock + i) :=
      hsame.dataAt hdir fun i hi ↦ by
        have hi' := hP (n * fsBlock + i) (by omega)
        rwa [← Nat.add_assoc] at hi'
    obtain ⟨m₂, hstore, hsame', hram'⟩ := Vmm.storeBytes_written (hsame.directory ▸ hdir)
      (readSectors disk sectorsPerBlock (blockSector (inode.directPointers n)))
      (v := address + n * fsBlock) (by rw [hlen]; exact hdata)
    rw [hlen] at hram'
    refine ⟨m₂, ?_, hsame.trans hdir hsame', fun x ↦ ?_⟩
    · rw [loadBlocks, hload, Option.bind_some]
      exact hstore
    · rcases hram' x with ⟨hne, hx⟩ | ⟨i, hi, hix, hx⟩
      · rw [hx]
        rcases hram x with ⟨hne', hx'⟩ | ⟨y, hy, hyx, hx'⟩
        · refine Or.inl ⟨fun y hy ↦ ?_, hx'⟩
          rcases Nat.lt_or_ge y (n * fsBlock) with hlt | hge
          · exact hne' y hlt
          · obtain ⟨i, rfl⟩ := Nat.exists_eq_add_of_le hge
            exact hne i (by omega)
        · exact Or.inr ⟨y, by omega, hyx, hx'⟩
      · refine Or.inr ⟨n * fsBlock + i, by omega, hix, ?_⟩
        rw [hx, readSectors, ByteStore.getD_slice _ _ _ _
          (show i < sectorsPerBlock * fsSector from hi), fileByte, fsBlock,
          show (n * 4096 + i) / 4096 = n by omega, show (n * 4096 + i) % 4096 = i by omega]

/-- `save_file` from present bytes, to blocks that do not overlap. -/
theorem saveBlocks_bytes (hP : ∀ y < n * fsBlock, m.translate ((address + y) % 2 ^ 32) = some (P y))
    (hapart : ∀ i j, i < j → j < n → ∀ x < fsBlock, ∀ y < fsBlock,
      sectorAddress (blockSector (inode.directPointers i)) + x ≠
        sectorAddress (blockSector (inode.directPointers j)) + y) :
    ∃ disk', saveBlocks disk inode m address n = some (disk', m) ∧
      ∀ y < n * fsBlock, disk' (fileByte inode y) = m.ram (P y) := by
  induction n with
  | zero => exact ⟨disk, rfl, fun y hy ↦ absurd hy (by omega)⟩
  | succ n ih =>
    have hsucc : (n + 1) * fsBlock = n * fsBlock + 4096 := by rw [Nat.succ_mul, fsBlock]
    rw [hsucc] at hP ⊢
    obtain ⟨disk₁, hsave, hin⟩ := ih (fun y hy ↦ hP y (by omega))
      fun i j hij hj ↦ hapart i j hij (by omega)
    have hload := Vmm.loadBytes_spec (m := m) (v := address + n * fsBlock) (n := 4096)
      (P := fun i ↦ P (n * fsBlock + i)) fun i hi ↦ by
        have hi' := hP (n * fsBlock + i) (by omega)
        rwa [← Nat.add_assoc] at hi'
    refine ⟨writeSectors disk₁ (blockSector (inode.directPointers n))
      ((List.range 4096).map fun i ↦ m.ram (P (n * fsBlock + i))), ?_, fun y hy ↦ ?_⟩
    · rw [saveBlocks, hsave, Option.bind_some]
      show ((m.loadBytes (address + n * fsBlock) 4096).map _) = _
      rw [hload]
      rfl
    · rw [writeSectors]
      rcases Nat.lt_or_ge y (n * fsBlock) with hlt | hge
      · rw [ByteStore.splice_of_not_mem, hin y hlt]
        rw [List.length_map, List.length_range]
        by_contra hcon
        have hdiv : y / fsBlock < n := Nat.div_lt_of_lt_mul (by rwa [Nat.mul_comm])
        refine hapart _ _ hdiv (Nat.lt_succ_self n) (y % fsBlock) (Nat.mod_lt _ (by decide))
          (fileByte inode y - sectorAddress (blockSector (inode.directPointers n))) ?_ ?_
        · rw [fsBlock]
          omega
        · change fileByte inode y = _
          omega
      · obtain ⟨i, rfl⟩ := Nat.exists_eq_add_of_le hge
        have hi : i < 4096 := by omega
        have hfile : fileByte inode (n * fsBlock + i) =
            sectorAddress (blockSector (inode.directPointers n)) + i := by
          rw [fileByte, fsBlock, show (n * 4096 + i) / 4096 = n by omega,
            show (n * 4096 + i) % 4096 = i by omega]
        rw [hfile, ByteStore.splice_of_mem (by rwa [List.length_map, List.length_range])]
        rw [List.getD_eq_getElem _ _ (by rwa [List.length_map, List.length_range]),
          List.getElem_map, List.getElem_range]

end Bytes

section Region

variable (disk : ByteStore) (inode : Inode) {m : Vmm} {address n : ℕ} {f : ℕ → ℕ}

/-- The bytes of a region. -/
theorem Vmm.Region.dataAt_zero (h : m.Region address n f) {k : ℕ} (hk : k ≤ n) :
    m.DataAt address (k * pageSize) (frameByte f) := fun y hy ↦ by
  have hdata := (h.mono hk).dataAt (a := 0) (Or.inr (Nat.le_of_eq (Nat.zero_add _))) y hy
  simpa only [Nat.add_zero, Nat.zero_add] using hdata

/-- **`load_file`** into pages of its own. -/
theorem loadBlocks_spec (hdir : m.directory % 4096 = 0) (h : m.Region address n f) (k : ℕ)
    (hk : k ≤ n) : ∃ m', loadBlocks disk inode m address k = some m' ∧ Vmm.SameTables m m' ∧
      (∀ x, (∀ y < k * pageSize, x ≠ Vmm.frameByte f y) → m'.ram x = m.ram x) ∧
      ∀ y < k * pageSize, m'.ram (Vmm.frameByte f y) = disk (fileByte inode y) := by
  obtain ⟨m', hload, hsame, hram⟩ := loadBlocks_written disk inode hdir (h.dataAt_zero hk)
  refine ⟨m', hload, hsame, fun x hx ↦ ?_, fun y hy ↦ ?_⟩
  · rcases hram x with ⟨-, hkeep⟩ | ⟨y, hy, hyx, -⟩
    · exact hkeep
    · exact absurd hyx.symm (hx y hy)
  · rcases hram (Vmm.frameByte f y) with ⟨hne, -⟩ | ⟨z, hz, hzy, hx⟩
    · exact absurd rfl (hne y hy)
    · rcases eq_or_ne z y with rfl | hzne
      · exact hx
      · exact absurd hzy ((h.mono hk).frameByte_ne hzne hz hy)

/-- **`save_file`** from pages of its own, to blocks that do not overlap. -/
theorem saveBlocks_spec (h : m.Region address n f) (k : ℕ) (hk : k ≤ n)
    (hapart : ∀ i j, i < j → j < k → ∀ x < fsBlock, ∀ y < fsBlock,
      sectorAddress (blockSector (inode.directPointers i)) + x ≠
        sectorAddress (blockSector (inode.directPointers j)) + y) :
    ∃ disk', saveBlocks disk inode m address k = some (disk', m) ∧
      ∀ y < k * pageSize, disk' (fileByte inode y) = m.ram (Vmm.frameByte f y) :=
  saveBlocks_bytes disk inode (fun y hy ↦ (h.dataAt_zero hk y hy).1) hapart

end Region

end AbOS
