import AbOS.Memory.FrameHistory

/-!
# Setting up the frame bitmap at boot

`prekernel_main` marks every block as used, clears the blocks of each available region of the E820
map that the boot loader left in memory, and then reserves three areas again: the first `0x12000`
bytes, the bitmap itself at `MEMMAP_AREA`, and the 81920 bytes of kernel at `0x100000`.

The second reservation is made with `max_blocks / BLOCK_SIZE` bytes, which is 255 and reserves no
block at all.  So the 32 frames under the bitmap stay reserved only where the memory map does not
free them (`neverHandsOut_prekernel_iff`); on an ordinary PC it does, and the allocator gives them
away (`prekernel_handsOut_bitmap`).
-/

set_option autoImplicit false

namespace AbOS

/-- An `SMAP_entry_t`: one region of the E820 memory map. -/
structure SmapEntry where
  baseAddress : BitVec 64
  length : BitVec 64
  /-- 1 for available memory. -/
  type : BitVec 32

/-- `MEMMAP_AREA`, the address of the bitmap. -/
def memmapArea : ℕ := 0x30000

/-- The body of the loop over the memory map; both casts to `uint32_t` truncate. -/
def initEntry (p : Pmm) (e : SmapEntry) : Pmm :=
  if e.type = 1 then
    p.initializeMemoryRegion (e.baseAddress.setWidth 32).toNat (e.length.setWidth 32).toNat
  else p

/-- What `prekernel_main` does to the bitmap, from `initialize_pmm` to the last of its three
`deinit_memory_region` calls.  `memory` is what the bitmap's memory held before. -/
def prekernelRegions (memory : ℕ → BitVec 32) (entries : List SmapEntry) : Pmm :=
  let p := entries.foldl initEntry (Pmm.initializePmm memory)
  let p := p.deinitMemoryRegion 0x0 0x12000
  let p := p.deinitMemoryRegion memmapArea (p.maxBlocks / blockSize)
  p.deinitMemoryRegion 0x100000 81920

/-! ## The bitmap afterwards -/

/-- The entry is available and, truncated to 32 bits and whole blocks, contains block `b`. -/
def SmapEntry.Frees (e : SmapEntry) (b : ℕ) : Prop :=
  e.type = 1 ∧ (e.baseAddress.setWidth 32).toNat / blockSize ≤ b ∧
    b < (e.baseAddress.setWidth 32).toNat / blockSize + (e.length.setWidth 32).toNat / blockSize

instance (e : SmapEntry) (b : ℕ) : Decidable (e.Frees b) :=
  inferInstanceAs (Decidable (_ ∧ _ ∧ _))

theorem isSet_initEntry (p : Pmm) (e : SmapEntry) {b : ℕ} (hb : 0 < b) :
    (initEntry p e).isSet b = (!decide (e.Frees b) && p.isSet b) := by
  rw [initEntry]
  split
  · rename_i h
    rw [Pmm.isSet_initializeMemoryRegion _ _ _ _ hb]
    congr 2
    exact decide_eq_decide.mpr ⟨fun hc ↦ ⟨h, hc⟩, fun hc ↦ hc.2⟩
  · rename_i h
    rw [decide_eq_false (fun hc : e.Frees b ↦ h hc.1)]
    rfl

@[simp] theorem initEntry_maxBlocks (p : Pmm) (e : SmapEntry) :
    (initEntry p e).maxBlocks = p.maxBlocks := by
  rw [initEntry]
  split
  · exact p.initializeMemoryRegion_maxBlocks _ _
  · rfl

theorem isSet_foldl_initEntry (entries : List SmapEntry) (p : Pmm) {b : ℕ} (hb : 0 < b) :
    (entries.foldl initEntry p).isSet b =
      (!decide (∃ e ∈ entries, e.Frees b) && p.isSet b) := by
  induction entries generalizing p with
  | nil => simp
  | cons e entries ih =>
    rw [List.foldl_cons, ih, isSet_initEntry p e hb, ← Bool.and_assoc, ← Bool.not_or,
      ← Bool.decide_or]
    congr 2
    exact decide_eq_decide.mpr (by rw [List.exists_mem_cons_iff]; exact or_comm)

theorem foldl_initEntry_maxBlocks (entries : List SmapEntry) (p : Pmm) :
    (entries.foldl initEntry p).maxBlocks = p.maxBlocks := by
  induction entries generalizing p with
  | nil => rfl
  | cons e entries ih => rw [List.foldl_cons, ih, initEntry_maxBlocks]

theorem prekernelRegions_maxBlocks (memory : ℕ → BitVec 32) (entries : List SmapEntry) :
    (prekernelRegions memory entries).maxBlocks = 0xFFFFF := by
  simp only [prekernelRegions, Pmm.deinitMemoryRegion_maxBlocks, foldl_initEntry_maxBlocks,
    Pmm.initializePmm]
  rfl

/-- The bitmap after `prekernel_main`: a block other than block 0 is clear exactly when some
available entry frees it and neither the low nor the kernel reservation covers it. -/
theorem isSet_prekernelRegions (memory : ℕ → BitVec 32) (entries : List SmapEntry) {b : ℕ}
    (hb : 0 < b) (hlt : b < 0xFFFFF) :
    (prekernelRegions memory entries).isSet b = false ↔
      (∃ e ∈ entries, e.Frees b) ∧ 0x12 ≤ b ∧ ¬ (0x100 ≤ b ∧ b < 0x114) := by
  have hinit : (Pmm.initializePmm memory).isSet b = true := by
    rw [Pmm.initializePmm, Pmm.isSet_deinitMemoryRegion, decide_eq_true (by
      rw [blockSize]; omega)]
    rfl
  have hbitmap : ∀ p : Pmm, p.maxBlocks = 0xFFFFF → p.maxBlocks / blockSize / blockSize = 0 := by
    intro p hp; rw [hp]; decide
  rw [prekernelRegions, Pmm.isSet_deinitMemoryRegion, Pmm.isSet_deinitMemoryRegion,
    Pmm.isSet_deinitMemoryRegion, isSet_foldl_initEntry _ _ hb, hinit,
    hbitmap _ (by
      rw [Pmm.deinitMemoryRegion_maxBlocks, foldl_initEntry_maxBlocks, Pmm.initializePmm,
        Pmm.deinitMemoryRegion_maxBlocks]; rfl)]
  simp only [Bool.or_eq_false_iff, decide_eq_false_iff_not, Bool.and_true, Bool.not_eq_false',
    decide_eq_true_eq]
  simp only [blockSize, memmapArea]
  constructor
  · rintro ⟨h1, -, h2, h3⟩; exact ⟨h3, by omega, by omega⟩
  · rintro ⟨h3, h2, h1⟩; exact ⟨by omega, by omega, by omega, h3⟩

theorem isSet_prekernelRegions_zero (memory : ℕ → BitVec 32) (entries : List SmapEntry) :
    (prekernelRegions memory entries).isSet 0 = true := by
  rw [prekernelRegions, Pmm.isSet_deinitMemoryRegion, Pmm.isSet_deinitMemoryRegion,
    Pmm.isSet_deinitMemoryRegion]
  simp [blockSize]

/-! ## What the allocator must not hand out -/

/-- Frame `b` has a byte in common with the `len` bytes at `lo`. -/
def FrameMeets (b lo len : ℕ) : Prop := b * blockSize < lo + len ∧ lo < (b + 1) * blockSize

/-- The frames the boot code means to keep: below `0x12000`, under the bitmap with its one bit for
each of the `max_blocks` blocks, and under the kernel image. -/
def ReservedBlock (maxBlocks b : ℕ) : Prop :=
  b * blockSize < 0x12000 ∨ FrameMeets b memmapArea ((maxBlocks + 7) / 8) ∨
    FrameMeets b 0x100000 81920

theorem reservedBlock_iff {b : ℕ} :
    ReservedBlock 0xFFFFF b ↔ b < 0x12 ∨ (0x30 ≤ b ∧ b < 0x50) ∨ (0x100 ≤ b ∧ b < 0x114) := by
  rw [ReservedBlock, FrameMeets, FrameMeets, memmapArea, blockSize]
  omega

/-- No history of allocations and matching frees from `p` leads to an allocation that returns an
extent with a block of `R`. -/
def NeverHandsOut (p : Pmm) (R : ℕ → Prop) : Prop :=
  ∀ ops h n address q, Run.exec Ledger.step ⟨p, []⟩ ops = some h →
    h.pmm.allocateBlocks n = (address, q) → address ≠ 0 →
    ∀ b, (⟨address / blockSize, n⟩ : Extent).Covers b → ¬ R b

/-- Blocks that are set at the start are never handed out. -/
theorem neverHandsOut_of_isSet {p : Pmm} {R : ℕ → Prop} (h0 : p.isSet 0 = true)
    (hm : p.maxBlocks ≤ 0xFFFFF) (hR : ∀ b, R b → p.isSet b = true) : NeverHandsOut p R := by
  intro ops h n address q hr ha hne b hb hRb
  have hacc := Ledger.accounts_of_exec h0 hm hr
  obtain ⟨-, ha'⟩ | ⟨s, q', hf, ha', -, -⟩ := h.pmm.allocateBlocks_cases n
  · rw [ha'] at ha; cases ha; exact hne rfl
  · rw [ha'] at ha
    cases ha
    rw [Nat.mul_div_cancel s (by decide)] at hb
    have := ((hacc.of_some h0 hf).2.2.2 b hb).1
    rw [hR b hRb] at this
    exact absurd this (by simp)

/-- A clear block is handed out by some history. -/
theorem not_neverHandsOut_of_clear {p : Pmm} {R : ℕ → Prop} (h0 : p.isSet 0 = true) {b : ℕ}
    (hb : 0 < b) (hclear : p.isSet b = false) (hlt : b < p.maxBlocks) (hR : R b) :
    ¬ NeverHandsOut p R := by
  intro hnever
  obtain ⟨ops, h, q, hr, ha⟩ :=
    Ledger.exists_exec_handsOut b hb _ ⟨p, []⟩ (Nat.le_refl _) h0 hclear hlt
  have hdiv : b * blockSize / blockSize = b := Nat.mul_div_cancel b (by decide)
  refine hnever ops h 1 _ q hr ha ?_ b ?_ hR
  · exact Nat.mul_ne_zero (by omega) (by decide)
  · rw [hdiv]; exact ⟨Nat.le_refl b, Nat.lt_succ_self b⟩

/-- **When the allocator keeps its own bitmap**: exactly when no available entry of the memory map
frees one of the 32 blocks `0x30, …, 0x4F` under it.  The low memory and the kernel image are
protected whatever the map says. -/
theorem neverHandsOut_prekernel_iff (memory : ℕ → BitVec 32) (entries : List SmapEntry) :
    NeverHandsOut (prekernelRegions memory entries) (ReservedBlock 0xFFFFF) ↔
      ∀ e ∈ entries, ∀ b, 0x30 ≤ b → b < 0x50 → ¬ e.Frees b := by
  have h0 := isSet_prekernelRegions_zero memory entries
  have hm := prekernelRegions_maxBlocks memory entries
  constructor
  · intro hnever e he b h1 h2 hfrees
    have hclear := (isSet_prekernelRegions memory entries (b := b) (by omega) (by omega)).mpr
      ⟨⟨e, he, hfrees⟩, by omega, by omega⟩
    exact not_neverHandsOut_of_clear h0 (by omega) hclear (by omega)
      (reservedBlock_iff.mpr (by omega)) hnever
  · intro hentries
    refine neverHandsOut_of_isSet h0 (by omega) fun b hb ↦ ?_
    rw [reservedBlock_iff] at hb
    rcases Nat.eq_zero_or_pos b with rfl | hpos
    · exact h0
    · by_contra hclear
      rw [Bool.not_eq_true, isSet_prekernelRegions memory entries hpos (by omega)] at hclear
      obtain ⟨⟨e, he, hfrees⟩, hlow, hkernel⟩ := hclear
      exact hentries e he b (by omega) (by omega) hfrees

/-- The memory map of a PC: available memory from 0 to `0x9FC00`. -/
def lowMemoryMap : List SmapEntry := [⟨0, 0x9FC00, 1⟩]

/-- On an ordinary memory map a single request for 31 frames is answered with an extent that
reaches into the bitmap. -/
theorem prekernel_handsOut_bitmap :
    ((prekernelRegions (fun _ ↦ 0) lowMemoryMap).allocateBlocks 31).1 = 0x12000 ∧
      (⟨0x12000 / blockSize, 31⟩ : Extent).Covers 0x30 ∧ ReservedBlock 0xFFFFF 0x30 ∧
      ¬ NeverHandsOut (prekernelRegions (fun _ ↦ 0) lowMemoryMap) (ReservedBlock 0xFFFFF) := by
  have h0 := isSet_prekernelRegions_zero (fun _ ↦ 0) lowMemoryMap
  have hm := prekernelRegions_maxBlocks (fun _ ↦ 0) lowMemoryMap
  have hbits := fun b hb hlt ↦ isSet_prekernelRegions (fun _ ↦ 0) lowMemoryMap (b := b) hb hlt
  generalize prekernelRegions (fun _ ↦ 0) lowMemoryMap = p at h0 hm hbits
  have hfrees : ∀ b, b < 0x9F → ∃ e ∈ lowMemoryMap, e.Frees b := fun b hb ↦
    ⟨_, List.mem_singleton_self _, rfl, Nat.zero_le _, hb⟩
  have hrun : p.FreeRun 0x12 31 :=
    ⟨by omega, fun k hk ↦ (hbits _ (by omega) (by omega)).mpr
      ⟨hfrees _ (by omega), by omega, by omega⟩⟩
  have hres : ReservedBlock 0xFFFFF 0x30 := reservedBlock_iff.mpr (by omega)
  refine ⟨?_, by decide, hres, not_neverHandsOut_of_clear h0 (b := 0x30) (by omega)
    ((hbits _ (by omega) (by omega)).mpr ⟨hfrees _ (by omega), by omega, by omega⟩) (by omega)
    hres⟩
  obtain ⟨s, hs, hle⟩ := Pmm.exists_findFreeBlocks (by omega) hrun
  obtain ⟨hf, -⟩ | ⟨s', q, hf, ha, -, -⟩ := p.allocateBlocks_cases 31
  · rw [hs] at hf; exact absurd hf (by simp)
  obtain rfl : s = s' := by rw [hs] at hf; exact Option.some.inj hf
  -- no run starts below block `0x12`, because all those blocks are set
  have hsclear : p.isSet s = false := (Pmm.findFreeBlocks_some hs).2.1.2 0 (by omega)
  have hge : 0x12 ≤ s := by
    rcases Nat.eq_zero_or_pos s with rfl | hpos
    · rw [h0] at hsclear; exact absurd hsclear (by simp)
    · exact ((hbits s hpos (by omega)).mp hsclear).2.1
  rw [ha, show s = 0x12 by omega]
  rfl

end AbOS
