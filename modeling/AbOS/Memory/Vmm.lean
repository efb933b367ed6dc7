import AbOS.Lib.ByteStore
import AbOS.Memory.Pmm
import Mathlib.Data.Nat.Bitwise

/-!
# The virtual memory manager

`virtual_memory_manager.c` keeps a page directory of 1024 entries and page tables of 1024 entries
each, all of them in physical memory and accessed at their physical addresses.  A `Vmm` is that
memory together with the frame allocator and the address of the directory.

`mapAddress` and `createPageTable` call each other: a new page table is itself mapped at its
physical address, which may need another page table.  Each of these calls takes a frame, so
`max_blocks + 1` of them are enough for any recursion (`mapAddress` runs with that much fuel).

`createPageTable` clears the new table through the directory entry it has just written, flag bits
included: `installTable` fills 4096 bytes from `block | flags`, so that the first `flags` bytes of
the table keep what the frame held before and the first `flags` bytes of the *next* frame are
cleared.
-/

set_option autoImplicit false

namespace AbOS

/-- `PAGE_SIZE`. -/
def pageSize : ℕ := 4096

/-- `PTE_PRESENT | PTE_WRITABLE | PTE_USER`, the flags of every mapping the kernel makes. -/
def userFlags : ℕ := 0x01 ||| 0x02 ||| 0x04

theorem userFlags_eq : userFlags = 7 := by decide

/-- `GET_FRAME`, and the `& ~0xFFF` of `map_address`. -/
def frameOf (entry : ℕ) : ℕ := entry &&& 0xFFFFF000

/-- `virt_address >> 22`: the entry of the directory for an address. -/
def pdIndex (virt : ℕ) : ℕ := virt >>> 22

/-- `virt_address << 10 >> 10 >> 12` on 32 bits: the entry of the page table. -/
def ptIndex (virt : ℕ) : ℕ := (virt <<< 10 % 2 ^ 32) >>> 10 >>> 12

/-- Physical memory, the frame allocator and the page directory. -/
structure Vmm where
  /-- Physical memory. -/
  ram : ByteStore
  /-- The frame allocator. -/
  pmm : Pmm
  /-- The physical address of the page directory. -/
  directory : ℕ

namespace Vmm

/-- `pd[i]`. -/
def entry (m : Vmm) (i : ℕ) : ℕ := m.ram.readWord (m.directory + 4 * i)

/-- The address of the page table that `pd[i]` points to. -/
def table (m : Vmm) (i : ℕ) : ℕ := frameOf (m.entry i)

/-- The address of the page-table entry for `v`: what `get_page` returns. -/
def getPage (m : Vmm) (v : ℕ) : ℕ := m.table (pdIndex v) + 4 * ptIndex v

/-- The page-table entry for `v`. -/
def pte (m : Vmm) (v : ℕ) : ℕ := m.ram.readWord (m.getPage v)

/-- Store a page-table entry for `v`. -/
def putPte (m : Vmm) (v e : ℕ) : Vmm := { m with ram := m.ram.writeWord (m.getPage v) e }

/-- What the processor does with `v`: the frame and the flags of its page when both levels are
present. -/
def walk (m : Vmm) (v : ℕ) : Option (ℕ × ℕ) :=
  if m.entry (pdIndex v) % 2 = 1 ∧ m.pte v % 2 = 1 then
    some (frameOf (m.pte v), m.pte v % 4096)
  else none

/-- The part of `create_page_table` after the allocation: enter the table in the directory and
clear it.  The pointer that is cleared through is the entry, with its flag bits. -/
def installTable (m : Vmm) (i block flags : ℕ) : Vmm :=
  let ram := m.ram.writeWord (m.directory + 4 * i) (block ||| flags)
  { m with ram := ram.fill (ram.readWord (m.directory + 4 * i)) 0 pageSize }

/-- `create_page_table`, given the `map_address` it calls; it ignores whether that call failed. -/
def createPageTable (mapAddress : Vmm → ℕ → ℕ → ℕ → Bool × Vmm) (m : Vmm) (virt flags : ℕ) :
    Bool × Vmm :=
  if m.entry (pdIndex virt) = 0 then
    let (block, pmm) := m.pmm.allocateBlocks 1
    if block = 0 then (false, { m with pmm })
    else
      let m := installTable { m with pmm } (pdIndex virt) block flags
      (true, (mapAddress m block block flags).2)
  else (true, m)

/-- `map_address`, cut off after `fuel` nested calls. -/
def mapAddressFuel : ℕ → Vmm → ℕ → ℕ → ℕ → Bool × Vmm
  | 0, m, _, _, _ => (false, m)
  | fuel + 1, m, phys, virt, flags =>
    if m.entry (pdIndex virt) = 0 then
      let (ok, m) := createPageTable (mapAddressFuel fuel) m virt flags
      if ok then (true, m.putPte virt (phys ||| flags)) else (false, m)
    else (true, m.putPte virt (phys ||| flags))

/-- `map_address`. -/
def mapAddress (m : Vmm) (phys virt flags : ℕ) : Bool × Vmm :=
  mapAddressFuel (m.pmm.maxBlocks + 1) m phys virt flags

/-- The page tables a call of `map_address` needs, as pairs of a directory entry and the frame that
becomes its table: the call for entry `i` takes the first free frame unless `i` is already
`present`, and that frame is then itself mapped through entry `b * 4096 >> 22`. -/
def tablesTakenFuel : ℕ → (ℕ → Bool) → Pmm → ℕ → List (ℕ × ℕ)
  | 0, _, _, _ => []
  | fuel + 1, present, pmm, i =>
    if present i then []
    else
      match pmm.findFreeBlocks 1 with
      | none => []
      | some b =>
        (i, b) :: tablesTakenFuel fuel (Function.update present i true) (pmm.allocateBlocks 1).2
          (pdIndex (b * blockSize))

/-- The page tables that mapping `virt` needs, read off the directory and the bitmap. -/
def tablesTaken (m : Vmm) (virt : ℕ) : List (ℕ × ℕ) :=
  tablesTakenFuel (m.pmm.maxBlocks + 1) (fun i ↦ m.entry i ≠ 0) m.pmm (pdIndex virt)

end Vmm

/-! ## The bit fields of addresses and entries -/

theorem frameOf_eq {e : ℕ} (he : e < 2 ^ 32) : frameOf e = e / 4096 * 4096 := by
  rw [frameOf, show (0xFFFFF000 : ℕ) = (2 ^ 20 - 1) <<< 12 by decide,
    show e / 4096 * 4096 = (e >>> 12) <<< 12 by rw [Nat.shiftLeft_eq, Nat.shiftRight_eq_div_pow]]
  apply Nat.eq_of_testBit_eq
  intro i
  simp only [Nat.testBit_and, Nat.testBit_shiftLeft, Nat.testBit_shiftRight,
    Nat.testBit_two_pow_sub_one]
  by_cases hi : 12 ≤ i
  · rw [show 12 + (i - 12) = i by omega]
    by_cases h32 : i < 32
    · simp [hi, show i - 12 < 20 by omega]
    · -- the entry has no bits from 32 on
      have hpow : 2 ^ 32 ≤ 2 ^ i := Nat.pow_le_pow_right (by omega) (by omega)
      rw [Nat.testBit_lt_two_pow (Nat.lt_of_lt_of_le he hpow)]
      simp
  · simp [hi]

/-- Flags fit into the low bits of a page-aligned address. -/
theorem or_flags {p f : ℕ} (hp : p % 4096 = 0) (hf : f < 4096) : p ||| f = p + f := by
  have h := Nat.two_pow_add_eq_or_of_lt (i := 12) (b := f) hf (p / 4096)
  rw [show 2 ^ 12 * (p / 4096) = p by omega] at h
  exact h.symm

theorem frameOf_add {p f : ℕ} (hp : p % 4096 = 0) (hf : f < 4096) (hlt : p < 2 ^ 32) :
    frameOf (p + f) = p := by
  rw [frameOf_eq (by omega)]
  omega

theorem pdIndex_eq (v : ℕ) : pdIndex v = v / 4194304 := Nat.shiftRight_eq_div_pow v 22

theorem ptIndex_eq (v : ℕ) : ptIndex v = v / 4096 % 1024 := by
  simp only [ptIndex, Nat.shiftLeft_eq, Nat.shiftRight_eq_div_pow]
  omega

theorem pdIndex_lt {v : ℕ} (hv : v < 2 ^ 32) : pdIndex v < 1024 := by
  rw [pdIndex_eq]; omega

theorem ptIndex_lt (v : ℕ) : ptIndex v < 1024 := by
  rw [ptIndex_eq]; omega

/-- A page is its directory index and its table index. -/
theorem page_eq_iff (v w : ℕ) :
    v / 4096 = w / 4096 ↔ pdIndex v = pdIndex w ∧ ptIndex v = ptIndex w := by
  rw [pdIndex_eq, pdIndex_eq, ptIndex_eq, ptIndex_eq]
  omega

namespace Vmm

variable {m m' m₁ m₂ : Vmm}

theorem entry_lt (m : Vmm) (i : ℕ) : m.entry i < 2 ^ 32 := m.ram.readWord_lt _

theorem pte_lt (m : Vmm) (v : ℕ) : m.pte v < 2 ^ 32 := m.ram.readWord_lt _

theorem table_eq (m : Vmm) (i : ℕ) : m.table i = m.entry i / 4096 * 4096 :=
  frameOf_eq (m.entry_lt i)

theorem table_mod (m : Vmm) (i : ℕ) : m.table i % 4096 = 0 := by
  rw [table_eq]; omega

theorem table_div (m : Vmm) (i : ℕ) : m.table i / 4096 * 4096 = m.table i := by
  have := m.table_mod i
  omega

/-- A page directory with its page tables, as the kernel builds them: the directory is page
aligned, an entry that is not zero is present, and the directory and the tables lie in different
frames, which are marked as used.  So is the frame in front of the directory, which is the first
of the first three free frames in a row. -/
structure WF (m : Vmm) : Prop where
  maxBlocks_le : m.pmm.maxBlocks ≤ 0xFFFFF
  zero_set : m.pmm.isSet 0 = true
  dir_mod : m.directory % 4096 = 0
  dir_set : m.pmm.isSet (m.directory / 4096) = true
  before_dir : m.pmm.isSet (m.directory / 4096 - 1) = true
  present : ∀ i, i < 1024 → m.entry i ≠ 0 → m.entry i % 2 = 1
  table_set : ∀ i, i < 1024 → m.entry i ≠ 0 → m.pmm.isSet (m.table i / 4096) = true
  table_ne_dir : ∀ i, i < 1024 → m.entry i ≠ 0 → m.table i ≠ m.directory
  table_inj : ∀ i j, i < 1024 → j < 1024 → m.entry i ≠ 0 → m.entry j ≠ 0 →
    m.table i = m.table j → i = j

/-- The frame `b` holds the directory or one of the page tables. -/
def IsPaging (m : Vmm) (b : ℕ) : Prop :=
  b * 4096 = m.directory ∨ ∃ i, i < 1024 ∧ m.entry i ≠ 0 ∧ m.table i = b * 4096

theorem WF.isSet_of_isPaging (h : m.WF) {b : ℕ} (hb : m.IsPaging b) : m.pmm.isSet b = true := by
  rcases hb with hb | ⟨i, hi, hne, hb⟩
  · have := h.dir_set
    rwa [← hb, Nat.mul_div_cancel _ (by omega)] at this
  · have := h.table_set i hi hne
    rwa [hb, Nat.mul_div_cancel _ (by omega)] at this

theorem WF.not_isPaging_of_clear (h : m.WF) {b : ℕ} (hb : m.pmm.isSet b = false) :
    ¬ m.IsPaging b := fun hp ↦ by
  rw [h.isSet_of_isPaging hp] at hb
  exact absurd hb (by simp)

/-- The present walk, with the frame and flags spelled out arithmetically. -/
theorem walk_eq (m : Vmm) (v : ℕ) :
    m.walk v = if m.entry (pdIndex v) % 2 = 1 ∧ m.pte v % 2 = 1 then
      some (m.pte v / 4096 * 4096, m.pte v % 4096) else none := by
  rw [walk, frameOf_eq (m.pte_lt v)]

/-- An absent directory entry leaves nothing to walk. -/
theorem walk_of_entry_zero {v : ℕ} (h : m.entry (pdIndex v) = 0) : m.walk v = none := by
  rw [walk, if_neg (by rw [h]; simp)]

theorem entry_ne_of_walk {v : ℕ} {w : ℕ × ℕ} (h : m.walk v = some w) :
    m.entry (pdIndex v) ≠ 0 := fun h0 ↦ by
  rw [walk_of_entry_zero h0] at h
  exact absurd h (by simp)

/-- A walk depends on the page of the address only. -/
theorem walk_page {v w : ℕ} (h : v / 4096 = w / 4096) : m.walk v = m.walk w := by
  obtain ⟨hpd, hpt⟩ := (page_eq_iff v w).mp h
  rw [walk, walk, pte, pte, getPage, getPage, hpd, hpt]

theorem walk_congr {v : ℕ} (he : m'.entry (pdIndex v) = m.entry (pdIndex v))
    (hp : m'.pte v = m.pte v) : m'.walk v = m.walk v := by
  rw [walk, walk, he, hp]

end Vmm

end AbOS
