import AbOS.Lib.Run
import Mathlib.Algebra.GroupWithZero.Nat
import Mathlib.Data.Nat.Basic
import Mathlib.Logic.Function.Basic

/-!
# The physical memory manager

`physical_memory_manager.c` keeps one bit for each 4096-byte block of physical memory, packed into
32-bit words, and hands out runs of clear bits by a first-fit scan.  The translation is word by
word: `Pmm.memoryMap i` is `memory_map[i]`, the scan `findFreeBlocksFrom` skips a word that is
entirely set as the source does, and a failing search is `none` where the source returns `-1`.

What the rest of the development uses is the bit view, `Pmm.isSet`, and for each function one
lemma that says what it does to the bits.  `findFreeBlocks_some` and `findFreeBlocks_none` say
that the scan is exactly first fit.
-/

set_option autoImplicit false

namespace AbOS

/-- `BLOCK_SIZE`: a block is one 4 KiB frame. -/
def blockSize : ℕ := 4096

/-- The state of the allocator: the bitmap `memory_map`, `max_blocks` and `used_blocks`. -/
structure Pmm where
  /-- The bitmap, as the 32-bit words the source indexes. -/
  memoryMap : ℕ → BitVec 32
  /-- The number of blocks the scan looks at. -/
  maxBlocks : ℕ
  /-- The running count of blocks in use. -/
  usedBlocks : BitVec 32

namespace Pmm

/-- `memory_map[bit/32] |= (1 << (bit % 32))`. -/
def setBlock (p : Pmm) (bit : ℕ) : Pmm :=
  { p with
    memoryMap := Function.update p.memoryMap (bit / 32)
      (p.memoryMap (bit / 32) ||| (1#32 <<< (bit % 32))) }

/-- `memory_map[bit/32] &= ~(1 << (bit % 32))`. -/
def unsetBlock (p : Pmm) (bit : ℕ) : Pmm :=
  { p with
    memoryMap := Function.update p.memoryMap (bit / 32)
      (p.memoryMap (bit / 32) &&& ~~~(1#32 <<< (bit % 32))) }

/-- The loop of `find_free_blocks` at block `i` with `count` clear blocks just behind it.  `i`
grows in every iteration, so `max_blocks` iterations are enough for any scan. -/
def findFreeBlocksFrom (memoryMap : ℕ → BitVec 32) (maxBlocks numBlocks : ℕ) :
    ℕ → ℕ → ℕ → Option ℕ
  | 0, _, _ => none
  | fuel + 1, i, count =>
    if i < maxBlocks then
      let holder := memoryMap (i / 32)
      if holder = 0xFFFFFFFF#32 then
        -- the source sets `i` to the last block of the word and lets the loop add one
        findFreeBlocksFrom memoryMap maxBlocks numBlocks fuel ((i / 32 + 1) * 32 - 1 + 1) 0
      else if holder &&& (1#32 <<< (i % 32)) = 0#32 then
        if count + 1 = numBlocks then some (i + 1 - numBlocks)
        else findFreeBlocksFrom memoryMap maxBlocks numBlocks fuel (i + 1) (count + 1)
      else findFreeBlocksFrom memoryMap maxBlocks numBlocks fuel (i + 1) 0
    else none

/-- `find_free_blocks`; `none` is the `-1` of the source. -/
def findFreeBlocks (p : Pmm) (numBlocks : ℕ) : Option ℕ :=
  if numBlocks = 0 then none
  else findFreeBlocksFrom p.memoryMap p.maxBlocks numBlocks p.maxBlocks 0 0

/-- The loop of `allocate_blocks`: set `n` blocks from `start`. -/
def setBlocks (p : Pmm) (start : ℕ) : ℕ → Pmm
  | 0 => p
  | n + 1 => (setBlocks p start n).setBlock (start + n)

/-- The loop of `free_blocks`: clear `n` blocks from `bit`. -/
def unsetBlocks (p : Pmm) (bit : ℕ) : ℕ → Pmm
  | 0 => p
  | n + 1 => (unsetBlocks p bit n).unsetBlock ((bit + n) % 2 ^ 32)

/-- `allocate_blocks`: the physical address of the run taken, `0` when there is none. -/
def allocateBlocks (p : Pmm) (numBlocks : ℕ) : ℕ × Pmm :=
  match p.findFreeBlocks numBlocks with
  | none => (0, p)
  | some start =>
    (start * blockSize,
      { p.setBlocks start numBlocks with
        usedBlocks := p.usedBlocks + BitVec.ofNat 32 numBlocks })

/-- `free_blocks(bit, num_blocks)`. -/
def freeBlocks (p : Pmm) (bit numBlocks : ℕ) : Pmm :=
  { p.unsetBlocks bit numBlocks with
    usedBlocks := p.usedBlocks - BitVec.ofNat 32 numBlocks }

/-- The loop of `initialize_memory_region`. -/
def initializeLoop : ℕ → ℕ → Pmm → Pmm
  | 0, _, p => p
  | n + 1, align, p =>
    initializeLoop n (align + 1) { p.unsetBlock align with usedBlocks := p.usedBlocks - 1 }

/-- `initialize_memory_region(base_address, size)`: block 0 is set again after every region that
holds a whole block. -/
def initializeMemoryRegion (p : Pmm) (baseAddress size : ℕ) : Pmm :=
  if size / blockSize = 0 then p
  else (initializeLoop (size / blockSize) (baseAddress / blockSize) p).setBlock 0

/-- The loop of `deinit_memory_region`. -/
def deinitLoop : ℕ → ℕ → Pmm → Pmm
  | 0, _, p => p
  | n + 1, align, p =>
    deinitLoop n (align + 1) { p.setBlock align with usedBlocks := p.usedBlocks + 1 }

/-- `deinit_memory_region(base_address, size)`. -/
def deinitMemoryRegion (p : Pmm) (baseAddress size : ℕ) : Pmm :=
  deinitLoop (size / blockSize) (baseAddress / blockSize) p

/-- `initialize_pmm`, over whatever the bitmap's memory held before. -/
def initializePmm (memory : ℕ → BitVec 32) : Pmm :=
  deinitMemoryRegion
    { memoryMap := memory, maxBlocks := 0xFFFFFFFF / blockSize, usedBlocks := 0 } 0x0 0xFFFFFFFF

/-! ## The bit view -/

/-- Block `b` is marked as in use. -/
def isSet (p : Pmm) (b : ℕ) : Bool := (p.memoryMap (b / 32)).getLsbD (b % 32)

theorem getLsbD_bit {i j : ℕ} (hj : j < 32) : (1#32 <<< j).getLsbD i = decide (i = j) := by
  rw [← BitVec.twoPow_eq, BitVec.getLsbD_twoPow]
  simp only [hj, decide_true, Bool.true_and]
  exact decide_eq_decide.mpr eq_comm

/-- The test the scan makes on a word is the bit of the block. -/
theorem and_bit_eq_zero_iff {w : BitVec 32} {j : ℕ} (hj : j < 32) :
    w &&& (1#32 <<< j) = 0#32 ↔ w.getLsbD j = false := by
  rw [← BitVec.twoPow_eq, BitVec.and_twoPow]
  split
  · rename_i h
    refine ⟨fun h0 ↦ ?_, fun h0 ↦ absurd (h0.symm.trans h) (by simp)⟩
    have := congrArg (fun x ↦ x.getLsbD j) h0
    simp [hj] at this
  · rename_i h
    simpa using h

/-- A word that is all ones marks each of its 32 blocks. -/
theorem isSet_of_word (p : Pmm) {i b : ℕ} (hw : p.memoryMap (i / 32) = 0xFFFFFFFF#32)
    (hb : b / 32 = i / 32) : p.isSet b = true := by
  have : (0xFFFFFFFF#32) = BitVec.allOnes 32 := by decide
  rw [isSet, hb, hw, this, BitVec.getLsbD_allOnes]
  simpa using Nat.mod_lt b (by omega)

theorem isSet_setBlock (p : Pmm) (a b : ℕ) :
    (p.setBlock a).isSet b = (decide (b = a) || p.isSet b) := by
  simp only [isSet, setBlock, Function.update_apply]
  split
  · rename_i hw
    rw [BitVec.getLsbD_or, getLsbD_bit (Nat.mod_lt _ (by omega)), hw, Bool.or_comm]
    congr 1
    exact decide_eq_decide.mpr (by omega)
  · rename_i hw
    have : b ≠ a := by rintro rfl; exact hw rfl
    simp [this]

theorem isSet_unsetBlock (p : Pmm) (a b : ℕ) :
    (p.unsetBlock a).isSet b = (!decide (b = a) && p.isSet b) := by
  simp only [isSet, unsetBlock, Function.update_apply]
  split
  · rename_i hw
    rw [BitVec.getLsbD_and, BitVec.getLsbD_not, getLsbD_bit (Nat.mod_lt _ (by omega)), hw,
      Bool.and_comm]
    have hb : b % 32 < 32 := Nat.mod_lt _ (by omega)
    simp only [hb, decide_true, Bool.true_and]
    congr 2
    exact decide_eq_decide.mpr (by omega)
  · rename_i hw
    have : b ≠ a := by rintro rfl; exact hw rfl
    simp [this]

@[simp] theorem setBlock_maxBlocks (p : Pmm) (a : ℕ) :
    (p.setBlock a).maxBlocks = p.maxBlocks := rfl

@[simp] theorem unsetBlock_maxBlocks (p : Pmm) (a : ℕ) :
    (p.unsetBlock a).maxBlocks = p.maxBlocks := rfl

@[simp] theorem setBlocks_maxBlocks (p : Pmm) (s n : ℕ) :
    (p.setBlocks s n).maxBlocks = p.maxBlocks := by
  induction n with
  | zero => rfl
  | succ n ih => rw [setBlocks, setBlock_maxBlocks, ih]

@[simp] theorem unsetBlocks_maxBlocks (p : Pmm) (s n : ℕ) :
    (p.unsetBlocks s n).maxBlocks = p.maxBlocks := by
  induction n with
  | zero => rfl
  | succ n ih => rw [unsetBlocks, unsetBlock_maxBlocks, ih]

/-- `set_block` over a run sets exactly the run. -/
theorem isSet_setBlocks (p : Pmm) (s n b : ℕ) :
    (p.setBlocks s n).isSet b = (decide (s ≤ b ∧ b < s + n) || p.isSet b) := by
  induction n with
  | zero => simp only [setBlocks]; rw [decide_eq_false (by omega), Bool.false_or]
  | succ n ih =>
    rw [setBlocks, isSet_setBlock, ih, ← Bool.or_assoc, ← Bool.decide_or]
    congr 1
    exact decide_eq_decide.mpr (by omega)

/-- `unset_block` over a run that does not wrap clears exactly the run. -/
theorem isSet_unsetBlocks (p : Pmm) {s n : ℕ} (h : s + n ≤ 2 ^ 32) (b : ℕ) :
    (p.unsetBlocks s n).isSet b = (!decide (s ≤ b ∧ b < s + n) && p.isSet b) := by
  induction n with
  | zero => simp only [unsetBlocks]; rw [decide_eq_false (by omega)]; rfl
  | succ n ih =>
    rw [unsetBlocks, isSet_unsetBlock, ih (by omega), Nat.mod_eq_of_lt (by omega),
      ← Bool.and_assoc, ← Bool.not_or, ← Bool.decide_or]
    congr 2
    exact decide_eq_decide.mpr (by omega)

/-! ## First fit -/

/-- The `n` blocks from `s` on are all below `max_blocks` and clear. -/
def FreeRun (p : Pmm) (s n : ℕ) : Prop :=
  s + n ≤ p.maxBlocks ∧ ∀ k, k < n → p.isSet (s + k) = false

/-- The answer first fit gives: the lowest run of `n` clear blocks, `none` when there is none. -/
def IsFirstFit (p : Pmm) (n : ℕ) : Option ℕ → Prop
  | some s => p.FreeRun s n ∧ ∀ t, t < s → ¬ p.FreeRun t n
  | none => ∀ t, ¬ p.FreeRun t n

/-- What the scan knows at block `i`: the last `count` blocks are clear, and no run of `n` clear
blocks starts before them. -/
structure ScanInv (p : Pmm) (n i count : ℕ) : Prop where
  count_lt : count < n
  count_le : count ≤ i
  clear : ∀ j, i - count ≤ j → j < i → p.isSet j = false
  none_before : ∀ t, t < i - count → ¬ p.FreeRun t n

theorem ScanInv.start {p : Pmm} {n : ℕ} (hn : 0 < n) : ScanInv p n 0 0 :=
  ⟨hn, Nat.le_refl 0, fun j _ h ↦ absurd h (by omega), fun t h ↦ absurd h (by omega)⟩

/-- Past a set block no run reaches, so the count restarts behind any stretch of set blocks. -/
theorem ScanInv.skip {p : Pmm} {n i count i' : ℕ} (h : ScanInv p n i count) (hi : i < i')
    (hset : ∀ j, i ≤ j → j < i' → p.isSet j = true) : ScanInv p n i' 0 := by
  refine ⟨Nat.zero_lt_of_lt h.count_lt, Nat.zero_le _, fun j h1 h2 ↦ absurd h2 (by omega),
    fun t ht hrun ↦ ?_⟩
  have hn := h.count_lt
  rcases Nat.lt_or_ge t (i - count) with hlt | hge
  · exact h.none_before t hlt hrun
  · -- the run from `t` contains `i` or starts at a block of the stretch
    have hmem : p.isSet (max t i) = true := hset _ (Nat.le_max_right ..) (by omega)
    have hfree := hrun.2 (max t i - t) (by omega)
    rw [show t + (max t i - t) = max t i by omega, hmem] at hfree
    exact absurd hfree (by simp)

theorem ScanInv.step {p : Pmm} {n i count : ℕ} (h : ScanInv p n i count)
    (hclear : p.isSet i = false) (hn : count + 1 ≠ n) : ScanInv p n (i + 1) (count + 1) := by
  have := h.count_lt
  refine ⟨by omega, by have := h.count_le; omega, fun j h1 h2 ↦ ?_, fun t ht ↦ ?_⟩
  · rcases Nat.lt_or_ge j i with hj | hj
    · exact h.clear j (by omega) hj
    · rw [show j = i by omega]; exact hclear
  · exact h.none_before t (by omega)

/-- The scan from any point at which its invariant holds finds the first run, or shows that there
is none. -/
theorem findFreeBlocksFrom_spec {p : Pmm} {n : ℕ} : ∀ (fuel i count : ℕ),
    ScanInv p n i count → p.maxBlocks ≤ i + fuel →
    p.IsFirstFit n (findFreeBlocksFrom p.memoryMap p.maxBlocks n fuel i count)
  | 0, i, count, h, hf => by
    rw [findFreeBlocksFrom]
    intro t hrun
    have := h.count_lt
    rcases Nat.lt_or_ge t (i - count) with hlt | hge
    · exact h.none_before t hlt hrun
    · have := hrun.1; omega
  | fuel + 1, i, count, h, hf => by
    have hn := h.count_lt
    rw [findFreeBlocksFrom]
    by_cases hi : i < p.maxBlocks
    · simp only [if_pos hi]
      split
      · rename_i hw
        refine findFreeBlocksFrom_spec fuel _ _ (h.skip (by omega) fun j h1 h2 ↦ ?_) (by omega)
        exact p.isSet_of_word hw (by omega)
      · split
        · rename_i hbit
          have hclear : p.isSet i = false :=
            (and_bit_eq_zero_iff (Nat.mod_lt _ (by omega))).mp hbit
          split
          · rename_i hc
            have := h.count_le
            refine ⟨⟨by omega, fun k hk ↦ ?_⟩, fun t ht ↦ h.none_before t (by omega)⟩
            rcases Nat.lt_or_ge (i + 1 - n + k) i with hlt | hge
            · exact h.clear _ (by omega) hlt
            · rw [show i + 1 - n + k = i by omega]; exact hclear
          · rename_i hc
            exact findFreeBlocksFrom_spec fuel _ _ (h.step hclear hc) (by omega)
        · rename_i hbit
          refine findFreeBlocksFrom_spec fuel _ _ (h.skip (by omega) fun j h1 h2 ↦ ?_) (by omega)
          rw [and_bit_eq_zero_iff (Nat.mod_lt _ (by omega)), Bool.not_eq_false] at hbit
          rw [show j = i by omega]; exact hbit
    · simp only [if_neg hi]
      intro t hrun
      rcases Nat.lt_or_ge t (i - count) with hlt | hge
      · exact h.none_before t hlt hrun
      · have := hrun.1; omega

/-- **First fit**: a successful search returns the lowest run of clear blocks. -/
theorem findFreeBlocks_some {p : Pmm} {n s : ℕ} (h : p.findFreeBlocks n = some s) :
    0 < n ∧ p.FreeRun s n ∧ ∀ t, t < s → ¬ p.FreeRun t n := by
  rw [findFreeBlocks] at h
  split at h
  · exact absurd h (by simp)
  · rename_i hn
    have hspec := findFreeBlocksFrom_spec (p := p) p.maxBlocks 0 0
      (ScanInv.start (Nat.pos_of_ne_zero hn)) (by omega)
    rw [h] at hspec
    exact ⟨Nat.pos_of_ne_zero hn, hspec⟩

/-- A failing search for a positive number of blocks means that there is no run at all. -/
theorem findFreeBlocks_none {p : Pmm} {n : ℕ} (h : p.findFreeBlocks n = none) (hn : 0 < n)
    (t : ℕ) : ¬ p.FreeRun t n := by
  rw [findFreeBlocks, if_neg (by omega)] at h
  have hspec := findFreeBlocksFrom_spec (p := p) p.maxBlocks 0 0 (ScanInv.start hn) (by omega)
  rw [h] at hspec
  exact hspec t

theorem exists_findFreeBlocks {p : Pmm} {n t : ℕ} (hn : 0 < n) (ht : p.FreeRun t n) :
    ∃ s, p.findFreeBlocks n = some s ∧ s ≤ t := by
  cases h : p.findFreeBlocks n with
  | none => exact absurd ht (findFreeBlocks_none h hn t)
  | some s =>
    refine ⟨s, rfl, ?_⟩
    by_contra hlt
    exact (findFreeBlocks_some h).2.2 t (by omega) ht

/-! ## What allocating and freeing do -/

/-- Everything `allocate_blocks` can do: fail and change nothing, or take the first run. -/
theorem allocateBlocks_cases (p : Pmm) (n : ℕ) :
    (p.findFreeBlocks n = none ∧ p.allocateBlocks n = (0, p)) ∨
      ∃ s q, p.findFreeBlocks n = some s ∧ p.allocateBlocks n = (s * blockSize, q) ∧
        q.maxBlocks = p.maxBlocks ∧
        ∀ b, q.isSet b = (decide (s ≤ b ∧ b < s + n) || p.isSet b) := by
  cases h : p.findFreeBlocks n with
  | none => exact Or.inl ⟨rfl, by rw [allocateBlocks, h]⟩
  | some s =>
    simp only [allocateBlocks, h]
    exact Or.inr ⟨s, _, rfl, rfl, p.setBlocks_maxBlocks s n, fun b ↦ p.isSet_setBlocks s n b⟩

@[simp] theorem allocateBlocks_maxBlocks (p : Pmm) (n : ℕ) :
    (p.allocateBlocks n).2.maxBlocks = p.maxBlocks := by
  obtain ⟨-, ha⟩ | ⟨s, q, -, ha, hm, -⟩ := p.allocateBlocks_cases n
  · rw [ha]
  · rw [ha]; exact hm

/-- Allocating frees nothing. -/
theorem isSet_allocateBlocks {p : Pmm} {b : ℕ} (h : p.isSet b = true) (n : ℕ) :
    (p.allocateBlocks n).2.isSet b = true := by
  obtain ⟨-, ha⟩ | ⟨s, q, -, ha, -, hs⟩ := p.allocateBlocks_cases n
  · rw [ha]; exact h
  · rw [ha]
    show q.isSet b = true
    rw [hs, h, Bool.or_true]

/-- An allocation returns the address of a block, or 0. -/
theorem allocateBlocks_fst (p : Pmm) (n : ℕ) :
    ∃ s, (p.allocateBlocks n).1 = s * blockSize ∧ s ≤ p.maxBlocks := by
  obtain ⟨-, ha⟩ | ⟨s, q, hf, ha, -, -⟩ := p.allocateBlocks_cases n
  · rw [ha]; exact ⟨0, by simp, Nat.zero_le _⟩
  · rw [ha]
    have := (findFreeBlocks_some hf).2.1.1
    exact ⟨s, rfl, by omega⟩

/-- The first free block is the one below which all are set. -/
theorem findFreeBlocks_one_lt {p : Pmm} {b : ℕ} (h : p.findFreeBlocks 1 = some b) :
    b < p.maxBlocks ∧ p.isSet b = false ∧ ∀ c, c < b → p.isSet c = true := by
  obtain ⟨-, ⟨hle, hfree⟩, hfirst⟩ := findFreeBlocks_some h
  refine ⟨by omega, hfree 0 (by omega), fun c hc ↦ ?_⟩
  by_contra hset
  rw [Bool.not_eq_true] at hset
  refine hfirst c hc ⟨by omega, fun k hk ↦ ?_⟩
  rwa [show c + k = c by omega]

theorem findFreeBlocks_one_eq {p : Pmm} {b : ℕ} (hb : b < p.maxBlocks) (hclear : p.isSet b = false)
    (hbelow : ∀ c, c < b → p.isSet c = true) : p.findFreeBlocks 1 = some b := by
  obtain ⟨s, hs, hle⟩ := exists_findFreeBlocks (p := p) (n := 1) (t := b) (by omega)
    ⟨by omega, fun k hk ↦ by rwa [show b + k = b by omega]⟩
  rcases Nat.lt_or_ge s b with hlt | hge
  · have := (findFreeBlocks_one_lt hs).2.1
    rw [hbelow s hlt] at this
    exact absurd this (by simp)
  · rwa [show b = s by omega]

/-- Allocating one block takes the first free one. -/
theorem allocateBlocks_one {p : Pmm} {b : ℕ} (h : p.findFreeBlocks 1 = some b) :
    (p.allocateBlocks 1).1 = b * blockSize ∧ (p.allocateBlocks 1).2.maxBlocks = p.maxBlocks ∧
      ∀ c, (p.allocateBlocks 1).2.isSet c = (decide (c = b) || p.isSet c) := by
  obtain ⟨hnone, -⟩ | ⟨s, q, hs, hq, hqmax, hqset⟩ := p.allocateBlocks_cases 1
  · rw [hnone] at h; exact absurd h (by simp)
  obtain rfl : s = b := by rw [hs] at h; exact Option.some.inj h
  rw [hq]
  refine ⟨rfl, hqmax, fun c ↦ ?_⟩
  rw [hqset]
  congr 1
  exact decide_eq_decide.mpr (by omega)

/-- The first free block is above any stretch of taken ones. -/
theorem le_of_findFreeBlocks_one {p : Pmm} {b c : ℕ} (h : p.findFreeBlocks 1 = some b)
    (hset : ∀ d, d < c → p.isSet d = true) : c ≤ b := by
  by_contra hlt
  have hclear := (findFreeBlocks_one_lt h).2.1
  rw [hset b (by omega)] at hclear
  cases hclear

/-- Once it is taken, the stretch reaches past it. -/
theorem isSet_allocateBlocks_one {p : Pmm} {b d : ℕ} (h : p.findFreeBlocks 1 = some b)
    (hd : d < b + 1) : (p.allocateBlocks 1).2.isSet d = true := by
  rw [(allocateBlocks_one h).2.2]
  rcases Nat.lt_succ_iff_lt_or_eq.mp hd with hlt | rfl
  · rw [(findFreeBlocks_one_lt h).2.2 d hlt, Bool.or_true]
  · rw [decide_eq_true rfl, Bool.true_or]

/-- With a block left there is a first one. -/
theorem exists_findFreeBlocks_one {p : Pmm} (h : ∃ b, b < p.maxBlocks ∧ p.isSet b = false) :
    ∃ b, p.findFreeBlocks 1 = some b := by
  obtain ⟨b, hb, hclear⟩ := h
  obtain ⟨s, hs, -⟩ := exists_findFreeBlocks (p := p) (n := 1) (t := b) (by omega)
    ⟨by omega, fun k hk ↦ by rwa [show b + k = b by omega]⟩
  exact ⟨s, hs⟩

theorem isSet_freeBlocks (p : Pmm) {s n : ℕ} (h : s + n ≤ 2 ^ 32) (b : ℕ) :
    (p.freeBlocks s n).isSet b = (!decide (s ≤ b ∧ b < s + n) && p.isSet b) :=
  p.isSet_unsetBlocks h b

@[simp] theorem freeBlocks_maxBlocks (p : Pmm) (s n : ℕ) :
    (p.freeBlocks s n).maxBlocks = p.maxBlocks := p.unsetBlocks_maxBlocks s n

theorem isSet_initializeLoop (n a : ℕ) (p : Pmm) (b : ℕ) :
    (initializeLoop n a p).isSet b = (!decide (a ≤ b ∧ b < a + n) && p.isSet b) := by
  induction n generalizing a p with
  | zero => rw [initializeLoop, decide_eq_false (by omega)]; rfl
  | succ n ih =>
    rw [initializeLoop, ih]
    show (_ && (p.unsetBlock a).isSet b) = _
    rw [isSet_unsetBlock, ← Bool.and_assoc, ← Bool.not_or, ← Bool.decide_or]
    congr 2
    exact decide_eq_decide.mpr (by omega)

@[simp] theorem initializeLoop_maxBlocks (n a : ℕ) (p : Pmm) :
    (initializeLoop n a p).maxBlocks = p.maxBlocks := by
  induction n generalizing a p with
  | zero => rfl
  | succ n ih => rw [initializeLoop, ih]; rfl

/-- `initialize_memory_region` clears the blocks of the region, except block 0. -/
theorem isSet_initializeMemoryRegion (p : Pmm) (base size b : ℕ) (hb : 0 < b) :
    (p.initializeMemoryRegion base size).isSet b =
      (!decide (base / blockSize ≤ b ∧ b < base / blockSize + size / blockSize) && p.isSet b) := by
  rw [initializeMemoryRegion]
  split
  · rename_i h; rw [h, decide_eq_false (by omega)]; rfl
  · rw [isSet_setBlock, isSet_initializeLoop, decide_eq_false (by omega), Bool.false_or]

@[simp] theorem initializeMemoryRegion_maxBlocks (p : Pmm) (base size : ℕ) :
    (p.initializeMemoryRegion base size).maxBlocks = p.maxBlocks := by
  rw [initializeMemoryRegion]
  split
  · rfl
  · rw [setBlock_maxBlocks, initializeLoop_maxBlocks]

theorem isSet_deinitLoop (n a : ℕ) (p : Pmm) (b : ℕ) :
    (deinitLoop n a p).isSet b = (decide (a ≤ b ∧ b < a + n) || p.isSet b) := by
  induction n generalizing a p with
  | zero => rw [deinitLoop, decide_eq_false (by omega)]; rfl
  | succ n ih =>
    rw [deinitLoop, ih]
    show (_ || (p.setBlock a).isSet b) = _
    rw [isSet_setBlock, ← Bool.or_assoc, ← Bool.decide_or]
    congr 1
    exact decide_eq_decide.mpr (by omega)

/-- `deinit_memory_region` sets the blocks of the region. -/
theorem isSet_deinitMemoryRegion (p : Pmm) (base size b : ℕ) :
    (p.deinitMemoryRegion base size).isSet b =
      (decide (base / blockSize ≤ b ∧ b < base / blockSize + size / blockSize) || p.isSet b) :=
  isSet_deinitLoop _ _ p b

@[simp] theorem deinitMemoryRegion_maxBlocks (p : Pmm) (base size : ℕ) :
    (p.deinitMemoryRegion base size).maxBlocks = p.maxBlocks := by
  rw [deinitMemoryRegion]
  generalize base / blockSize = a
  generalize size / blockSize = n
  induction n generalizing a p with
  | zero => rfl
  | succ n ih => rw [deinitLoop, ih]; rfl

end Pmm

end AbOS
