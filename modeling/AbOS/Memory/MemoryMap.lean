import AbOS.Memory.Boot
import Mathlib.Algebra.Order.BigOperators.Group.Finset
import Mathlib.Order.Interval.Finset.Nat

/-!
# What the memory map gives to the allocator

`initialize_memory_region` gets base and length in 32 bits and rounds both down to blocks.  A region
above 4 GiB frees blocks below, and a region that begins inside a block frees that block
(`freesOnlyRegions_iff`).

The counter of used blocks moves by one for each block that is cleared or set, whatever the bit was
before.  The reservations at the end set blocks that were never cleared, and block 0, which was
cleared and set again; on the map of an ordinary PC the two cancel (`usedBlocks_prekernel_iff`).
-/

set_option autoImplicit false

namespace AbOS

/-- The entry is available, and frame `b` lies inside its region. -/
def SmapEntry.Contains (e : SmapEntry) (b : ℕ) : Prop :=
  e.type = 1 ∧ e.baseAddress.toNat ≤ b * blockSize ∧
    (b + 1) * blockSize ≤ e.baseAddress.toNat + e.length.toNat

/-- The entry frees `b` although its region lies above 4 GiB, or begins inside of `b`. -/
def SmapEntry.Misplaces (e : SmapEntry) (b : ℕ) : Prop :=
  e.Frees b ∧ (2 ^ 32 ≤ e.baseAddress.toNat ∨
    e.baseAddress.toNat % blockSize ≠ 0 ∧ b = e.baseAddress.toNat / blockSize)

/-- The blocks that `prekernel_main` reserves after it has gone through the memory map. -/
def reservedLate : Finset ℕ := Finset.range 0x12 ∪ Finset.Ico 0x100 0x114

theorem mem_reservedLate {b : ℕ} : b ∈ reservedLate ↔ b < 0x12 ∨ 0x100 ≤ b ∧ b < 0x114 := by
  rw [reservedLate, Finset.mem_union, Finset.mem_range, Finset.mem_Ico]

theorem SmapEntry.frees_eq {e : SmapEntry} {b : ℕ} : e.Frees b ↔ e.type = 1 ∧
    e.baseAddress.toNat % 2 ^ 32 / 4096 ≤ b ∧
      b < e.baseAddress.toNat % 2 ^ 32 / 4096 + e.length.toNat % 2 ^ 32 / 4096 := by
  rw [SmapEntry.Frees, BitVec.toNat_setWidth, BitVec.toNat_setWidth, blockSize]

/-- What an entry frees lies in its region, or is misplaced. -/
theorem SmapEntry.Frees.contains_or {e : SmapEntry} {b : ℕ} (h : e.Frees b) :
    e.Contains b ∨ e.Misplaces b := by
  obtain ⟨htype, hle, hlt⟩ := frees_eq.mp h
  by_cases hmis : e.Misplaces b
  · exact Or.inr hmis
  rw [SmapEntry.Misplaces, not_and, not_or, not_and] at hmis
  obtain ⟨hbase, hfirst⟩ := hmis h
  refine Or.inl ⟨htype, ?_⟩
  rw [blockSize] at *
  omega

/-- A misplaced frame is not in the region of the entry. -/
theorem SmapEntry.Misplaces.not_contains {e : SmapEntry} {b : ℕ} (h : e.Misplaces b)
    (hb : b < 0xFFFFF) : ¬ e.Contains b := fun hin ↦ by
  obtain ⟨-, hle, -⟩ := hin
  rcases h.2 with habove | ⟨hmod, rfl⟩ <;> rw [blockSize] at * <;> omega

/-- A block is clear if an available entry frees it and it is not reserved afterwards. -/
theorem isSet_prekernelRegions_iff (memory : ℕ → BitVec 32) (entries : List SmapEntry) {b : ℕ}
    (hb : b < 0xFFFFF) : (prekernelRegions memory entries).isSet b = false ↔
      (∃ e ∈ entries, e.Frees b) ∧ b ∉ reservedLate := by
  rw [mem_reservedLate]
  rcases Nat.eq_zero_or_pos b with rfl | hpos
  · rw [isSet_prekernelRegions_zero]
    exact iff_of_false (by decide) fun hh ↦ hh.2 (Or.inl (by decide))
  · rw [isSet_prekernelRegions memory entries hpos hb, not_or, Nat.not_lt]

/-- **Only available frames are free**, exactly when each frame that an entry misplaces is reserved
afterwards or lies inside another available region. -/
theorem freesOnlyRegions_iff (memory : ℕ → BitVec 32) (entries : List SmapEntry) :
    (∀ b < (prekernelRegions memory entries).maxBlocks,
      (prekernelRegions memory entries).isSet b = false → ∃ e ∈ entries, e.Contains b) ↔
    ∀ e ∈ entries, ∀ b < 0xFFFFF, e.Misplaces b →
      b ∈ reservedLate ∨ ∃ e' ∈ entries, e'.Contains b := by
  rw [prekernelRegions_maxBlocks]
  constructor
  · intro hsound e he b hb hmis
    by_cases hres : b ∈ reservedLate
    · exact Or.inl hres
    · exact Or.inr (hsound b hb
        ((isSet_prekernelRegions_iff memory entries hb).mpr ⟨⟨e, he, hmis.1⟩, hres⟩))
  · intro hmis b hb hclear
    obtain ⟨⟨e, he, hfrees⟩, hres⟩ := (isSet_prekernelRegions_iff memory entries hb).mp hclear
    rcases hfrees.contains_or with hin | hout
    · exact ⟨e, he, hin⟩
    · exact (hmis e he b hb hout).resolve_left hres

/-- Low memory, the memory up to 3 GiB, and a GiB that the chipset has put above 4 GiB. -/
def highMemoryMap : List SmapEntry :=
  [⟨0, 0x9FC00, 1⟩, ⟨0x100000, 0xBFF00000, 1⟩, ⟨0x100000000, 0x40000000, 1⟩]

/-- The region above 4 GiB frees the memory of the display, at `0xA0000`. -/
theorem not_freesOnlyRegions_highMemory :
    ¬ ∀ b < (prekernelRegions (fun _ ↦ 0) highMemoryMap).maxBlocks,
      (prekernelRegions (fun _ ↦ 0) highMemoryMap).isSet b = false →
        ∃ e ∈ highMemoryMap, e.Contains b := by
  intro h
  have hclear := (isSet_prekernelRegions_iff (fun _ ↦ 0) highMemoryMap
    (show 0xA0 < 0xFFFFF by decide)).mpr ⟨by decide, by decide⟩
  obtain ⟨e, he, -, hle, hlt⟩ := h 0xA0 (by rw [prekernelRegions_maxBlocks]; decide) hclear
  simp only [highMemoryMap, List.mem_cons, List.not_mem_nil, or_false] at he
  rcases he with rfl | rfl | rfl
  · exact absurd hlt (by decide)
  · exact absurd hle (by decide)
  · exact absurd hle (by decide)

/-! ## Counting -/

/-- The set bits among the blocks that the scan looks at. -/
def Pmm.setCount (p : Pmm) : ℕ := ((Finset.range p.maxBlocks).filter fun b ↦ p.isSet b = true).card

/-- The blocks that an entry frees. -/
def SmapEntry.freed (e : SmapEntry) : Finset ℕ :=
  if e.type = 1 then
    Finset.Ico ((e.baseAddress.setWidth 32).toNat / blockSize)
      ((e.baseAddress.setWidth 32).toNat / blockSize + (e.length.setWidth 32).toNat / blockSize)
  else ∅

theorem SmapEntry.mem_freed {e : SmapEntry} {b : ℕ} : b ∈ e.freed ↔ e.Frees b := by
  rw [freed, Frees]
  split
  · rename_i htype
    rw [Finset.mem_Ico]
    exact (and_iff_right htype).symm
  · rename_i htype
    exact iff_of_false (Finset.notMem_empty b) fun hh ↦ htype hh.1

/-- The blocks that the memory map frees. -/
def freedBlocks (entries : List SmapEntry) : Finset ℕ :=
  entries.foldr (fun e s ↦ e.freed ∪ s) ∅

theorem freedBlocks_cons (e : SmapEntry) (entries : List SmapEntry) :
    freedBlocks (e :: entries) = e.freed ∪ freedBlocks entries := rfl

theorem mem_freedBlocks {entries : List SmapEntry} {b : ℕ} :
    b ∈ freedBlocks entries ↔ ∃ e ∈ entries, e.Frees b := by
  induction entries with
  | nil => simp [freedBlocks]
  | cons e entries ih =>
    rw [freedBlocks_cons, Finset.mem_union, ih, SmapEntry.mem_freed,
      List.exists_mem_cons_iff]

theorem Pmm.usedBlocks_initializeLoop (n a : ℕ) (p : Pmm) :
    (initializeLoop n a p).usedBlocks = p.usedBlocks - BitVec.ofNat 32 n := by
  induction n generalizing a p with
  | zero => simp [initializeLoop]
  | succ n ih =>
    rw [initializeLoop, ih]
    show p.usedBlocks - 1 - BitVec.ofNat 32 n = _
    rw [BitVec.ofNat_add]
    bv_omega

theorem Pmm.usedBlocks_deinitLoop (n a : ℕ) (p : Pmm) :
    (deinitLoop n a p).usedBlocks = p.usedBlocks + BitVec.ofNat 32 n := by
  induction n generalizing a p with
  | zero => simp [deinitLoop]
  | succ n ih =>
    rw [deinitLoop, ih]
    show p.usedBlocks + 1 + BitVec.ofNat 32 n = _
    rw [BitVec.ofNat_add]
    bv_omega

theorem usedBlocks_initEntry (p : Pmm) (e : SmapEntry) :
    (initEntry p e).usedBlocks = p.usedBlocks - BitVec.ofNat 32 e.freed.card := by
  rw [initEntry, SmapEntry.freed]
  split
  · rw [Nat.card_Ico, Nat.add_sub_cancel_left, Pmm.initializeMemoryRegion]
    split
    · rename_i hzero
      rw [hzero]
      simp
    · exact Pmm.usedBlocks_initializeLoop ..
  · simp

theorem usedBlocks_foldl_initEntry (entries : List SmapEntry) (p : Pmm) :
    (entries.foldl initEntry p).usedBlocks =
      p.usedBlocks - BitVec.ofNat 32 (entries.map fun e ↦ e.freed.card).sum := by
  induction entries generalizing p with
  | nil => simp
  | cons e entries ih =>
    rw [List.foldl_cons, ih, usedBlocks_initEntry, List.map_cons, List.sum_cons, BitVec.ofNat_add]
    bv_omega

/-- The counter at the end. -/
theorem usedBlocks_prekernelRegions (memory : ℕ → BitVec 32) (entries : List SmapEntry) :
    (prekernelRegions memory entries).usedBlocks =
      BitVec.ofNat 32 (0xFFFFF + reservedLate.card) -
        BitVec.ofNat 32 (entries.map fun e ↦ e.freed.card).sum := by
  have hmax : ((entries.foldl initEntry (Pmm.initializePmm memory)).deinitMemoryRegion 0x0
      0x12000).maxBlocks = 0xFFFFF := by
    rw [Pmm.deinitMemoryRegion_maxBlocks, foldl_initEntry_maxBlocks, Pmm.initializePmm,
      Pmm.deinitMemoryRegion_maxBlocks]
    rfl
  rw [prekernelRegions, hmax, Pmm.deinitMemoryRegion, Pmm.deinitMemoryRegion, Pmm.deinitMemoryRegion,
    Pmm.usedBlocks_deinitLoop, Pmm.usedBlocks_deinitLoop, Pmm.usedBlocks_deinitLoop,
    usedBlocks_foldl_initEntry, Pmm.initializePmm, Pmm.deinitMemoryRegion,
    Pmm.usedBlocks_deinitLoop]
  have hcard : reservedLate.card = 38 := by decide
  rw [hcard]
  generalize BitVec.ofNat 32 (entries.map fun e ↦ e.freed.card).sum = x
  rw [blockSize]
  bv_omega

/-- The byte `x` is in the region. -/
def SmapEntry.Spans (e : SmapEntry) (x : ℕ) : Prop :=
  e.baseAddress.toNat ≤ x ∧ x < e.baseAddress.toNat + e.length.toNat

/-- The available regions are pairwise disjoint, lie below 4 GiB and have page-aligned bases. -/
structure AlignedMap (entries : List SmapEntry) : Prop where
  aligned : ∀ e ∈ entries, e.type = 1 → e.baseAddress.toNat % blockSize = 0
  below : ∀ e ∈ entries, e.type = 1 → e.baseAddress.toNat + e.length.toNat ≤ 2 ^ 32
  apart : entries.Pairwise fun e e' ↦ e.type = 1 → e'.type = 1 → ∀ x, ¬ (e.Spans x ∧ e'.Spans x)

theorem AlignedMap.contains {entries : List SmapEntry} (h : AlignedMap entries) {e : SmapEntry}
    (he : e ∈ entries) {b : ℕ} (hfrees : e.Frees b) : e.Contains b := by
  refine hfrees.contains_or.resolve_right fun hmis ↦ ?_
  have hbelow := h.below e he hfrees.1
  obtain ⟨-, hle, hlt⟩ := SmapEntry.frees_eq.mp hfrees
  rcases hmis.2 with habove | ⟨hmod, -⟩
  · omega
  · exact hmod (h.aligned e he hfrees.1)

theorem SmapEntry.Contains.spans {e : SmapEntry} {b : ℕ} (h : e.Contains b) :
    e.Spans (b * blockSize) := by
  obtain ⟨-, hle, hlt⟩ := h
  refine ⟨hle, ?_⟩
  rw [blockSize] at *
  omega

/-- No block is freed twice. -/
theorem AlignedMap.card_freedBlocks {entries : List SmapEntry} (h : AlignedMap entries) :
    (entries.map fun e ↦ e.freed.card).sum = (freedBlocks entries).card := by
  induction entries with
  | nil => rfl
  | cons e entries ih =>
    obtain ⟨hhead, hapart⟩ := List.pairwise_cons.mp h.apart
    have htail : AlignedMap entries :=
      ⟨fun e he ↦ h.aligned e (List.mem_cons_of_mem _ he),
        fun e he ↦ h.below e (List.mem_cons_of_mem _ he), hapart⟩
    have hdisjoint : Disjoint e.freed (freedBlocks entries) :=
      Finset.disjoint_left.mpr fun b hb hb' ↦ by
        obtain ⟨e', he', hfrees'⟩ := mem_freedBlocks.mp hb'
        have hin := h.contains List.mem_cons_self (SmapEntry.mem_freed.mp hb)
        have hin' := h.contains (List.mem_cons_of_mem _ he') hfrees'
        exact hhead e' he' hin.1 hin'.1 _ ⟨hin.spans, hin'.spans⟩
    rw [List.map_cons, List.sum_cons, ih htail, freedBlocks_cons,
      Finset.card_union_of_disjoint hdisjoint]

theorem AlignedMap.card_freedBlocks_le {entries : List SmapEntry} (h : AlignedMap entries) :
    (freedBlocks entries).card ≤ 2 ^ 20 := by
  have hsub : freedBlocks entries ⊆ Finset.range (2 ^ 20) := fun b hb ↦ by
    obtain ⟨e, he, hfrees⟩ := mem_freedBlocks.mp hb
    obtain ⟨-, -, hlt⟩ := h.contains he hfrees
    have hbelow := h.below e he hfrees.1
    rw [Finset.mem_range]
    rw [blockSize] at hlt
    omega
  exact (Finset.card_le_card hsub).trans_eq (Finset.card_range _)

/-- The set bits, and the blocks that are freed for good, are all the blocks. -/
theorem setCount_prekernelRegions (memory : ℕ → BitVec 32) (entries : List SmapEntry) :
    (prekernelRegions memory entries).setCount +
      ((freedBlocks entries \ reservedLate).filter (· < 0xFFFFF)).card = 0xFFFFF := by
  have hclear : (Finset.range 0xFFFFF).filter
      (fun b ↦ ¬ (prekernelRegions memory entries).isSet b = true) =
        (freedBlocks entries \ reservedLate).filter (· < 0xFFFFF) := by
    ext b
    rw [Finset.mem_filter, Finset.mem_filter, Finset.mem_range, Finset.mem_sdiff, mem_freedBlocks,
      Bool.not_eq_true, and_comm]
    exact and_congr_left fun hb ↦ isSet_prekernelRegions_iff memory entries hb
  rw [Pmm.setCount, prekernelRegions_maxBlocks, ← hclear, Finset.card_filter_add_card_filter_not,
    Finset.card_range]

/-- The counter, the set bits, the reserved blocks that have never been freed, and the freed blocks
that the bitmap does not have. -/
theorem AlignedMap.usedBlocks_eq {entries : List SmapEntry} (h : AlignedMap entries)
    (memory : ℕ → BitVec 32) : (reservedLate \ freedBlocks entries).card ≤ 38 ∧
      ((freedBlocks entries).filter (0xFFFFF ≤ ·)).card ≤ 2 ^ 20 ∧
      (prekernelRegions memory entries).usedBlocks.toNat =
        ((prekernelRegions memory entries).setCount + (reservedLate \ freedBlocks entries).card +
          2 ^ 32 - ((freedBlocks entries).filter (0xFFFFF ≤ ·)).card) % 2 ^ 32 := by
  have hset := setCount_prekernelRegions memory entries
  have hused := usedBlocks_prekernelRegions memory entries
  rw [h.card_freedBlocks] at hused
  have hle := h.card_freedBlocks_le
  have hcard : reservedLate.card = 38 := by decide
  have hfreed := Finset.card_inter_add_card_sdiff (freedBlocks entries) reservedLate
  have hreserved := Finset.card_inter_add_card_sdiff reservedLate (freedBlocks entries)
  rw [Finset.inter_comm, hcard] at hreserved
  have hparts := Finset.card_filter_add_card_filter_not (s := freedBlocks entries \ reservedLate)
    (· < 0xFFFFF)
  have hbeyond : (freedBlocks entries \ reservedLate).filter (fun b ↦ ¬ b < 0xFFFFF) =
      (freedBlocks entries).filter (0xFFFFF ≤ ·) := by
    ext b
    rw [Finset.mem_filter, Finset.mem_filter, Finset.mem_sdiff, Nat.not_lt, and_assoc]
    refine and_congr_right fun _ ↦ ⟨And.right, fun hb ↦ ⟨fun hres ↦ ?_, hb⟩⟩
    have := mem_reservedLate.mp hres
    omega
  rw [hbeyond] at hparts
  rw [hused, hcard, BitVec.toNat_sub, BitVec.toNat_ofNat, BitVec.toNat_ofNat]
  omega

/-- **The counter of used blocks** is right exactly when as many of the reserved blocks have never
been freed as blocks are freed that the bitmap does not have. -/
theorem usedBlocks_prekernel_iff (memory : ℕ → BitVec 32) {entries : List SmapEntry}
    (h : AlignedMap entries) :
    (prekernelRegions memory entries).usedBlocks.toNat =
        (prekernelRegions memory entries).setCount ↔
      (reservedLate \ freedBlocks entries).card =
        ((freedBlocks entries).filter (0xFFFFF ≤ ·)).card := by
  obtain ⟨hreserved, hbeyond, hused⟩ := h.usedBlocks_eq memory
  have hset := setCount_prekernelRegions memory entries
  omega

/-- The memory map of a PC with 128 MiB. -/
def pcMemoryMap : List SmapEntry := [⟨0, 0x9FC00, 1⟩, ⟨0x100000, 0x7EE0000, 1⟩]

theorem pcMemoryMap_aligned : AlignedMap pcMemoryMap := by
  refine ⟨by simp [pcMemoryMap, blockSize], by simp [pcMemoryMap],
    List.pairwise_pair.mpr fun _ _ x hx ↦ ?_⟩
  obtain ⟨⟨-, hlt⟩, hle, -⟩ := hx
  exact absurd (hle.trans_lt hlt) (by decide)

/-- All that is reserved afterwards has been freed before, and the counter is right. -/
theorem usedBlocks_pcMemory : (prekernelRegions (fun _ ↦ 0) pcMemoryMap).usedBlocks.toNat =
    (prekernelRegions (fun _ ↦ 0) pcMemoryMap).setCount := by
  have hfreed : reservedLate \ freedBlocks pcMemoryMap = ∅ :=
    Finset.sdiff_eq_empty_iff_subset.mpr fun b hb ↦ mem_freedBlocks.mpr <| by
      rcases mem_reservedLate.mp hb with hlow | ⟨hle, hlt⟩
      · exact ⟨_, List.mem_cons_self, rfl, Nat.zero_le _, hlow.trans (by decide)⟩
      · exact ⟨_, List.mem_cons_of_mem _ List.mem_cons_self, rfl, hle, hlt.trans (by decide)⟩
  have hbeyond : (freedBlocks pcMemoryMap).filter (0xFFFFF ≤ ·) = ∅ :=
    Finset.filter_eq_empty_iff.mpr fun b hb hle ↦ by
      obtain ⟨e, he, -, -, hlt⟩ := mem_freedBlocks.mp hb
      simp only [pcMemoryMap, List.mem_cons, List.not_mem_nil, or_false] at he
      rcases he with rfl | rfl <;> exact absurd (hle.trans_lt hlt) (by decide)
  refine (usedBlocks_prekernel_iff _ pcMemoryMap_aligned).mpr ?_
  rw [hfreed, hbeyond]

/-- With low memory only, the blocks of the kernel are counted a second time. -/
theorem usedBlocks_lowMemory : AlignedMap lowMemoryMap ∧
    (prekernelRegions (fun _ ↦ 0) lowMemoryMap).usedBlocks.toNat ≠
      (prekernelRegions (fun _ ↦ 0) lowMemoryMap).setCount := by
  have hmap : AlignedMap lowMemoryMap :=
    ⟨by simp [lowMemoryMap, blockSize], by simp [lowMemoryMap], List.pairwise_singleton ..⟩
  have hfrees : ∀ b ∈ freedBlocks lowMemoryMap, b < 0x9F := fun b hb ↦ by
    obtain ⟨e, he, -, -, hlt⟩ := mem_freedBlocks.mp hb
    obtain rfl := List.mem_singleton.mp he
    exact hlt
  have hkernel : 0x100 ∈ reservedLate \ freedBlocks lowMemoryMap :=
    Finset.mem_sdiff.mpr ⟨by decide, fun hb ↦ absurd (hfrees _ hb) (by decide)⟩
  have hbeyond : (freedBlocks lowMemoryMap).filter (0xFFFFF ≤ ·) = ∅ :=
    Finset.filter_eq_empty_iff.mpr fun b hb hle ↦ absurd (hle.trans_lt (hfrees b hb)) (by decide)
  have hpos : 0 < (reservedLate \ freedBlocks lowMemoryMap).card :=
    Finset.card_pos.mpr ⟨_, hkernel⟩
  obtain ⟨hreserved, -, hused⟩ := hmap.usedBlocks_eq fun _ ↦ 0
  have hset := setCount_prekernelRegions (fun _ ↦ 0) lowMemoryMap
  rw [hbeyond, Finset.card_empty] at hused
  exact ⟨hmap, by omega⟩

end AbOS
