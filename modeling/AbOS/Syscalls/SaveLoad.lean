import AbOS.Memory.FullyMapped
import AbOS.Syscalls.State

/-!
# Saving and loading a file

`save_file` and `load_file` are the same loop, once from memory to the blocks of a file and once
back.  Each adds a local `offset` to its address that nothing sets before the first block.

The file is what it should be after saving it at `a` and loading it at `b`, whatever the disk and
the memory hold, exactly if both locals happen to be zero (`saveLoadInverse_iff`).  For the converse
the memory must have all the pages that such a local can lead to: it is an `ofPages` memory, in
which the pages behind `a` and `b` have frames of their own.
-/

set_option autoImplicit false

namespace AbOS

/-- The data blocks are different ones. -/
def DistinctBlocks (inode : Inode) : Prop :=
  ∀ i j, i < j → j < bytesToBlocks inode.size →
    sectorAddress (blockSector (inode.directPointers i)) ≠
      sectorAddress (blockSector (inode.directPointers j))

/-- The bytes in the blocks of the file. -/
def blockBytes (inode : Inode) : ℕ := bytesToBlocks inode.size * fsBlock

/-- The memory from `a` on has a byte for each byte of the blocks, with the physical addresses
`P`. -/
def PresentAt (m : Vmm) (inode : Inode) (a : ℕ) (P : ℕ → ℕ) : Prop :=
  ∀ y < blockBytes inode, m.translate ((a + y) % 2 ^ 32) = some (P y)

/-- These are different bytes of data. -/
structure OwnBytes (m : Vmm) (inode : Inode) (b : ℕ) (Q : ℕ → ℕ) : Prop where
  directory : m.directory % 4096 = 0
  data : m.DataAt b (blockBytes inode) Q
  inj : ∀ y z, y < z → z < blockBytes inode → Q y ≠ Q z

/-- The blocks hold the bytes at `P`, and the rest of the disk is the same. -/
structure Saved (inode : Inode) (m : Vmm) (P : ℕ → ℕ) (disk disk' : ByteStore) : Prop where
  bytes : ∀ y < blockBytes inode, disk' (fileByte inode y) = m.ram (P y)
  rest : ∀ x, (∀ y < blockBytes inode, x ≠ fileByte inode y) → disk' x = disk x

/-- The bytes at `Q` are those of the blocks, and the rest of the memory is the same. -/
structure Loaded (inode : Inode) (disk : ByteStore) (Q : ℕ → ℕ) (m m' : Vmm) : Prop where
  bytes : ∀ y < blockBytes inode, m'.ram (Q y) = disk (fileByte inode y)
  rest : ∀ x, (∀ y < blockBytes inode, x ≠ Q y) → m'.ram x = m.ram x
  tables : Vmm.SameTables m m'

/-- `save_file` from `a` and `load_file` to `b` move the blocks of the file and nothing else, and one
after the other they reproduce its bytes. -/
structure SaveLoadInverse (inode : Inode) (a b saveOffset loadOffset : ℕ) : Prop where
  save : ∀ disk m P, PresentAt m inode a P →
    ∃ disk', saveFile disk inode m a saveOffset = some (disk', m) ∧ Saved inode m P disk disk'
  load : ∀ disk m Q, OwnBytes m inode b Q →
    ∃ m', loadFile disk inode m b loadOffset = some m' ∧ Loaded inode disk Q m m'
  reproduces : ∀ disk m P Q, PresentAt m inode a P → OwnBytes m inode b Q →
    ∃ disk' m', saveFile disk inode m a saveOffset = some (disk', m) ∧
      loadFile disk' inode m b loadOffset = some m' ∧
        ∀ y < inode.size, m'.ram (Q y) = m.ram (P y)

/-! ## The bytes of a file -/

section Blocks

variable {inode : Inode}

theorem sectorAddress_mod (block : ℕ) : sectorAddress (blockSector block) % 4096 = 0 := by
  rw [sectorAddress, blockSector, sectorsPerBlock, fsSector]
  omega

theorem size_le_blockBytes (inode : Inode) : inode.size ≤ blockBytes inode := by
  rw [blockBytes, bytesToBlocks_eq, fsBlock]
  omega

theorem DistinctBlocks.apart (h : DistinctBlocks inode) (i j : ℕ) (hij : i < j)
    (hj : j < bytesToBlocks inode.size) (x : ℕ) (hx : x < fsBlock) (y : ℕ) (hy : y < fsBlock) :
    sectorAddress (blockSector (inode.directPointers i)) + x ≠
      sectorAddress (blockSector (inode.directPointers j)) + y := by
  have hne := h i j hij hj
  have hi := sectorAddress_mod (inode.directPointers i)
  have hj := sectorAddress_mod (inode.directPointers j)
  rw [fsBlock] at hx hy
  omega

/-- Different bytes of the file lie in different places. -/
theorem DistinctBlocks.fileByte_inj (h : DistinctBlocks inode) {y z : ℕ}
    (hy : y < blockBytes inode) (hz : z < blockBytes inode)
    (heq : fileByte inode y = fileByte inode z) : y = z := by
  have hdiv : ∀ {x}, x < blockBytes inode → x / fsBlock < bytesToBlocks inode.size := fun hx ↦
    Nat.div_lt_of_lt_mul (by rwa [Nat.mul_comm])
  have hmod : ∀ x, x % fsBlock < fsBlock := fun x ↦ Nat.mod_lt x (by decide)
  rw [fileByte, fileByte] at heq
  rcases Nat.lt_trichotomy (y / fsBlock) (z / fsBlock) with hlt | hpages | hlt
  · exact absurd heq (h.apart _ _ hlt (hdiv hz) _ (hmod y) _ (hmod z))
  · rw [hpages] at heq
    rw [fsBlock] at hpages heq
    omega
  · exact absurd heq.symm (h.apart _ _ hlt (hdiv hy) _ (hmod z) _ (hmod y))

end Blocks

/-! ## With both locals zero -/

section Zero

variable {inode : Inode} {a b offset : ℕ} {m : Vmm} {P Q : ℕ → ℕ}

/-- A multiple of `2 ^ 32` leads back to the same bytes. -/
theorem add_offset_mod (h : offset % 2 ^ 32 = 0) (y : ℕ) :
    (a + offset + y) % 2 ^ 32 = (a + y) % 2 ^ 32 := by omega

theorem saved_of_zero (hdistinct : DistinctBlocks inode) (hoffset : offset % 2 ^ 32 = 0)
    (disk : ByteStore) (hP : PresentAt m inode a P) :
    ∃ disk', saveFile disk inode m a offset = some (disk', m) ∧ Saved inode m P disk disk' := by
  have htranslate : ∀ y < blockBytes inode, m.translate ((a + offset + y) % 2 ^ 32) = some (P y) :=
    fun y hy ↦ by rw [add_offset_mod hoffset]; exact hP y hy
  obtain ⟨disk', hsave, hbytes⟩ := saveBlocks_bytes disk inode htranslate hdistinct.apart
  refine ⟨disk', hsave, hbytes, fun x hx ↦ saveBlocks_of_not_mem hsave fun i hi ↦ ?_⟩
  by_contra hin
  refine hx (i * fsBlock + (x - sectorAddress (blockSector (inode.directPointers i)))) ?_ ?_
  · have hle : (i + 1) * fsBlock ≤ bytesToBlocks inode.size * fsBlock :=
      Nat.mul_le_mul_right fsBlock hi
    rw [Nat.succ_mul] at hle
    rw [blockBytes]
    omega
  · rw [fsBlock] at hin ⊢
    rw [fileByte, fsBlock, Nat.mul_comm i, Nat.mul_add_div (by decide), Nat.mul_add_mod,
      Nat.div_eq_of_lt (by omega), Nat.mod_eq_of_lt (by omega), Nat.add_zero]
    omega

theorem loaded_of_zero (hoffset : offset % 2 ^ 32 = 0) (disk : ByteStore) (hQ : OwnBytes m inode b Q) :
    ∃ m', loadFile disk inode m b offset = some m' ∧ Loaded inode disk Q m m' := by
  have hdata : m.DataAt (b + offset) (blockBytes inode) Q := fun y hy ↦ by
    rw [add_offset_mod hoffset]
    exact hQ.data y hy
  obtain ⟨m', hload, hsame, hram⟩ := loadBlocks_written disk inode hQ.directory hdata
  refine ⟨m', hload, fun y hy ↦ ?_, fun x hx ↦ ?_, hsame⟩
  · rcases hram (Q y) with ⟨hne, -⟩ | ⟨z, hz, hzy, hx⟩
    · exact absurd rfl (hne y hy)
    · rcases Nat.lt_trichotomy z y with hlt | rfl | hgt
      · exact absurd hzy (hQ.inj z y hlt hy)
      · exact hx
      · exact absurd hzy.symm (hQ.inj y z hgt hz)
  · rcases hram x with ⟨-, hkeep⟩ | ⟨y, hy, hyx, -⟩
    · exact hkeep
    · exact absurd hyx.symm (hx y hy)

end Zero

/-! ## A memory with all pages -/

/-- The eight pages from `p₁` on and those from `p₂` on have frames of their own; all other pages
share one. -/
def windowFrames (p₁ p₂ p : ℕ) : ℕ :=
  Vmm.pagingFrames +
    if (p + 2 ^ 20 - p₁) % 2 ^ 20 < 8 then (p + 2 ^ 20 - p₁) % 2 ^ 20
    else if (p + 2 ^ 20 - p₂) % 2 ^ 20 < 8 then 8 + (p + 2 ^ 20 - p₂) % 2 ^ 20
    else 16

/-- The page of an address. -/
def pageOf (v : ℕ) : ℕ := v % 2 ^ 32 / 4096

/-- The memory in which `a` and `b` have eight pages each of their own. -/
def windowMemory (a b : ℕ) (data : ByteStore) : Vmm :=
  .ofPages (windowFrames (pageOf a) (pageOf b)) data

/-- Where an address leads in this memory. -/
def windowByte (a b v : ℕ) : ℕ :=
  windowFrames (pageOf a) (pageOf b) (v % 2 ^ 32 / 4096) * 4096 + v % 4096

section Window

variable {a b : ℕ} (data : ByteStore)

theorem windowFrames_lt (p₁ p₂ p : ℕ) : windowFrames p₁ p₂ p < 2 ^ 20 := by
  rw [windowFrames, Vmm.pagingFrames]
  split_ifs <;> omega

theorem le_windowByte (a b v : ℕ) : Vmm.pagingFrames * 4096 ≤ windowByte a b v := by
  rw [windowByte, windowFrames]
  omega

theorem windowMemory_ram {x : ℕ} (hx : Vmm.pagingFrames * 4096 ≤ x) :
    (windowMemory a b data).ram x = data x := if_neg (by omega)

theorem translate_windowMemory (v : ℕ) :
    (windowMemory a b data).translate (v % 2 ^ 32) = some (windowByte a b v) := by
  rw [Vmm.translate, windowMemory, Vmm.walk_ofPages data (windowFrames_lt _ _)
    (Nat.mod_lt _ (by decide)), Option.map_some, windowByte, pageSize]
  congr 2
  omega

theorem dataAt_windowMemory (v n : ℕ) :
    (windowMemory a b data).DataAt v n fun y ↦ windowByte a b (v + y) := fun y _ ↦ by
  refine ⟨translate_windowMemory data (v + y), ?_⟩
  have hle := le_windowByte a b (v + y)
  rw [windowMemory, Vmm.isPaging_ofPages]
  dsimp only
  omega

/-- The address is less than seven pages behind `a` or `b`. -/
def InWindow (a b v : ℕ) : Prop := ∃ y < 7 * 4096, v = a + y ∨ v = b + y

/-- The bytes of the two windows are reached in one way only. -/
theorem windowByte_inj {v w : ℕ} (hv : InWindow a b v) (h : windowByte a b v = windowByte a b w) :
    v % 2 ^ 32 = w % 2 ^ 32 := by
  obtain ⟨y, hy, hv⟩ := hv
  have hoffset : v % 4096 = w % 4096 := by
    simp only [windowByte] at h
    omega
  have hframes : windowFrames (pageOf a) (pageOf b) (v % 2 ^ 32 / 4096) =
      windowFrames (pageOf a) (pageOf b) (w % 2 ^ 32 / 4096) := by
    simp only [windowByte] at h
    omega
  have hpages : v % 2 ^ 32 / 4096 = w % 2 ^ 32 / 4096 := by
    have hwindow : (v % 2 ^ 32 / 4096 + 2 ^ 20 - pageOf a) % 2 ^ 20 < 8 ∨
        (v % 2 ^ 32 / 4096 + 2 ^ 20 - pageOf b) % 2 ^ 20 < 8 := by
      simp only [pageOf]
      rcases hv with rfl | rfl
      · exact Or.inl (by omega)
      · exact Or.inr (by omega)
    have hpv : v % 2 ^ 32 / 4096 < 2 ^ 20 := by omega
    have hpw : w % 2 ^ 32 / 4096 < 2 ^ 20 := by omega
    have hpa : pageOf a < 2 ^ 20 := by rw [pageOf]; omega
    have hpb : pageOf b < 2 ^ 20 := by rw [pageOf]; omega
    generalize v % 2 ^ 32 / 4096 = p at *
    generalize w % 2 ^ 32 / 4096 = q at *
    simp only [windowFrames] at hframes
    split_ifs at hframes <;> omega
  omega

end Window

/-! ## The locals must be zero -/

section Converse

variable {inode : Inode} {a b saveOffset loadOffset : ℕ}

theorem blockBytes_le (hsize : inode.size ≤ 7 * fsBlock) : blockBytes inode ≤ 7 * 4096 := by
  rw [fsBlock] at hsize
  rw [blockBytes, bytesToBlocks_eq, fsBlock]
  omega

theorem presentAt_windowMemory (data : ByteStore) (v : ℕ) :
    PresentAt (windowMemory a b data) inode v fun y ↦ windowByte a b (v + y) :=
  fun y hy ↦ (dataAt_windowMemory data v (blockBytes inode) y hy).1

theorem ownBytes_windowMemory (hsize : inode.size ≤ 7 * fsBlock) (data : ByteStore) :
    OwnBytes (windowMemory a b data) inode b fun y ↦ windowByte a b (b + y) := by
  refine ⟨rfl, dataAt_windowMemory data b _, fun y z hyz hz heq ↦ ?_⟩
  have hle := blockBytes_le hsize
  have := windowByte_inj ⟨y, by omega, Or.inr rfl⟩ heq
  omega

theorem inWindow_zero (a b : ℕ) : InWindow a b a ∧ InWindow a b b :=
  ⟨⟨0, by omega, Or.inl rfl⟩, ⟨0, by omega, Or.inr rfl⟩⟩

/-- Otherwise the first block gets the byte of another address. -/
theorem SaveLoadInverse.saveOffset_zero (h : SaveLoadInverse inode a b saveOffset loadOffset)
    (hdistinct : DistinctBlocks inode) (hpos : inode.size ≠ 0) : saveOffset % 2 ^ 32 = 0 := by
  -- only the byte at `a` is not zero
  let m := windowMemory a b fun x ↦ if x = windowByte a b a then 1 else 0
  obtain ⟨disk', hsave, hsaved⟩ := h.save (fun _ ↦ 0) m _ (presentAt_windowMemory _ a)
  obtain ⟨disk'', hsave', hbytes⟩ := saveBlocks_bytes (fun _ ↦ 0) inode (m := m)
    (presentAt_windowMemory _ (a + saveOffset)) hdistinct.apart
  obtain rfl : disk' = disk'' := congrArg Prod.fst (Option.some.inj (hsave.symm.trans hsave'))
  have hlt : 0 < blockBytes inode := by
    have := size_le_blockBytes inode
    omega
  have hsame : m.ram (windowByte a b (a + saveOffset)) = m.ram (windowByte a b a) :=
    (hbytes 0 hlt).symm.trans (hsaved.bytes 0 hlt)
  rw [windowMemory_ram _ (le_windowByte ..), windowMemory_ram _ (le_windowByte ..), if_pos rfl]
    at hsame
  have hbyte : windowByte a b a = windowByte a b (a + saveOffset) := by
    by_contra hne
    rw [if_neg fun heq ↦ hne heq.symm] at hsame
    exact absurd hsame (by decide)
  have := windowByte_inj (inWindow_zero a b).1 hbyte
  omega

/-- Otherwise the first byte of the file does not arrive at `b`. -/
theorem SaveLoadInverse.loadOffset_zero (h : SaveLoadInverse inode a b saveOffset loadOffset)
    (hsize : inode.size ≤ 7 * fsBlock) (hdistinct : DistinctBlocks inode) (hpos : inode.size ≠ 0) :
    loadOffset % 2 ^ 32 = 0 := by
  let disk : ByteStore := fun x ↦ if x = fileByte inode 0 then 1 else 0
  let m := windowMemory a b fun _ ↦ 0
  have hlt : 0 < blockBytes inode := by
    have := size_le_blockBytes inode
    omega
  obtain ⟨m', hload, hloaded⟩ := h.load disk m _ (ownBytes_windowMemory hsize _)
  obtain ⟨m'', hload', -, hram⟩ := loadBlocks_written disk inode (m := m) rfl
    (dataAt_windowMemory _ (b + loadOffset) _)
  obtain rfl : m' = m'' := Option.some.inj (hload.symm.trans hload')
  have hone : m'.ram (windowByte a b b) = 1 := (hloaded.bytes 0 hlt).trans (if_pos rfl)
  rcases hram (windowByte a b b) with ⟨-, hkeep⟩ | ⟨y, hy, hyb, hbyte⟩
  · rw [hkeep, windowMemory_ram _ (le_windowByte ..)] at hone
    exact absurd hone (by decide)
  · rw [hone] at hbyte
    have hfirst : fileByte inode y = fileByte inode 0 := by
      by_contra hne
      rw [show disk (fileByte inode y) = 0 from if_neg hne] at hbyte
      exact absurd hbyte (by decide)
    obtain rfl := hdistinct.fileByte_inj hy hlt hfirst
    have := windowByte_inj (inWindow_zero a b).2 hyb.symm
    omega

/-- **When `load_file` undoes `save_file`**: for an empty file, and else if both start at the offset
zero. -/
theorem saveLoadInverse_iff (hsize : inode.size ≤ 7 * fsBlock) (hdistinct : DistinctBlocks inode)
    (a b saveOffset loadOffset : ℕ) :
    SaveLoadInverse inode a b saveOffset loadOffset ↔
      inode.size = 0 ∨ saveOffset % 2 ^ 32 = 0 ∧ loadOffset % 2 ^ 32 = 0 := by
  constructor
  · intro h
    by_cases hpos : inode.size = 0
    · exact Or.inl hpos
    · exact Or.inr ⟨h.saveOffset_zero hdistinct hpos, h.loadOffset_zero hsize hdistinct hpos⟩
  · rintro (hempty | ⟨hsave, hload⟩)
    · have hblocks : bytesToBlocks inode.size = 0 := by
        rw [hempty]
        rfl
      have hnone : ∀ {y}, ¬ y < blockBytes inode := fun {y} ↦ by
        rw [blockBytes, hblocks]
        omega
      have hsaved : ∀ disk (m : Vmm), saveFile disk inode m a saveOffset = some (disk, m) :=
        fun disk m ↦ by rw [saveFile, hblocks, saveBlocks]
      have hloaded : ∀ disk (m : Vmm), loadFile disk inode m b loadOffset = some m :=
        fun disk m ↦ by rw [loadFile, hblocks, loadBlocks]
      exact ⟨fun disk m P _ ↦ ⟨disk, hsaved disk m, fun y hy ↦ absurd hy hnone, fun _ _ ↦ rfl⟩,
        fun disk m Q _ ↦ ⟨m, hloaded disk m, fun y hy ↦ absurd hy hnone, fun _ _ ↦ rfl,
          Vmm.SameTables.refl m⟩,
        fun disk m P Q _ _ ↦ ⟨disk, m, hsaved disk m, hloaded disk m,
          fun y hy ↦ absurd hy (by omega)⟩⟩
    · refine ⟨fun disk m P ↦ saved_of_zero hdistinct hsave disk,
        fun disk m Q ↦ loaded_of_zero hload disk, fun disk m P Q hP hQ ↦ ?_⟩
      obtain ⟨disk', hdisk, hsaved⟩ := saved_of_zero hdistinct hsave disk hP
      obtain ⟨m', hm, hloaded⟩ := loaded_of_zero hload disk' hQ
      refine ⟨disk', m', hdisk, hm, fun y hy ↦ ?_⟩
      have hlt := Nat.lt_of_lt_of_le hy (size_le_blockBytes inode)
      rw [hloaded.bytes y hlt, hsaved.bytes y hlt]

end Converse

/-- A file of two blocks. -/
def twoBlockInode : Inode :=
  { Inode.zero with iNumber := 2, size := 5000, directPointers := fun i ↦ 10 + i }

theorem twoBlockInode_distinct : DistinctBlocks twoBlockInode := by
  intro i j hij hj
  have hblocks : bytesToBlocks twoBlockInode.size = 2 := rfl
  rw [hblocks] at hj
  obtain ⟨rfl, rfl⟩ : i = 0 ∧ j = 1 := by omega
  decide

theorem saveLoadInverse_twoBlockInode :
    SaveLoadInverse twoBlockInode 0xD0000000 0xD0004000 0 0 :=
  (saveLoadInverse_iff (by decide) twoBlockInode_distinct _ _ _ _).mpr (Or.inr ⟨rfl, rfl⟩)

/-- With a local of one `save_file` begins with the second byte. -/
theorem not_saveLoadInverse_offset :
    ¬ SaveLoadInverse twoBlockInode 0xD0000000 0xD0004000 1 0 := fun h ↦
  absurd (h.saveOffset_zero twoBlockInode_distinct (by decide)) (by decide)

end AbOS
