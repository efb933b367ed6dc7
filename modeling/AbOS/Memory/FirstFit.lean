import AbOS.Memory.Pmm

/-!
# The scan on machine words

`Pmm.findFreeBlocks` counts in `ℕ` and has no result for a failing search.  The C function counts
in 32-bit words, `i` unsigned and `count` as an `int`, and returns an `int` that is -1 when the
search fails.  `findFreeBlocksWord` is this function, with a loop that may be cut off.

For a bitmap of up to 0xFFFFF blocks no word overflows, and the loop ends after `max_blocks + 1`
tests of its condition (`findFreeBlocksWord_eq`).  What it returns is the start of the first run, and
what a scan of the single bits returns (`findFreeBlocksWord_firstFit`).
-/

set_option autoImplicit false

namespace AbOS

namespace Pmm

/-- The loop of `find_free_blocks`, cut off after `fuel` tests of its condition.  `count` is compared
as an unsigned number. -/
def findFreeBlocksLoop (memoryMap : ℕ → BitVec 32) (maxBlocks numBlocks : BitVec 32) :
    ℕ → BitVec 32 → BitVec 32 → Option (BitVec 32)
  | 0, _, _ => none
  | fuel + 1, i, count =>
    if i < maxBlocks then
      let holder := memoryMap (i / 32).toNat
      if holder = 0xFFFFFFFF#32 then
        findFreeBlocksLoop memoryMap maxBlocks numBlocks fuel ((i / 32 + 1) * 32 - 1 + 1) 0
      else if holder &&& (1#32 <<< (i % 32)) = 0#32 then
        if count + 1 = numBlocks then some (i - numBlocks + 1)
        else findFreeBlocksLoop memoryMap maxBlocks numBlocks fuel (i + 1) (count + 1)
      else findFreeBlocksLoop memoryMap maxBlocks numBlocks fuel (i + 1) 0
    else some (-1)

/-- `find_free_blocks`, cut off after `fuel` tests of the loop condition. -/
def findFreeBlocksWord (memoryMap : ℕ → BitVec 32) (maxBlocks numBlocks : BitVec 32) (fuel : ℕ) :
    Option (BitVec 32) :=
  if numBlocks ≤ 0 then some (-1)
  else findFreeBlocksLoop memoryMap maxBlocks numBlocks fuel 0 0

/-- The loop without the skip over full words. -/
def scanBitsLoop (memoryMap : ℕ → BitVec 32) (maxBlocks numBlocks : BitVec 32) :
    ℕ → BitVec 32 → BitVec 32 → Option (BitVec 32)
  | 0, _, _ => none
  | fuel + 1, i, count =>
    if i < maxBlocks then
      if memoryMap (i / 32).toNat &&& (1#32 <<< (i % 32)) = 0#32 then
        if count + 1 = numBlocks then some (i - numBlocks + 1)
        else scanBitsLoop memoryMap maxBlocks numBlocks fuel (i + 1) (count + 1)
      else scanBitsLoop memoryMap maxBlocks numBlocks fuel (i + 1) 0
    else some (-1)

/-- The plain scan, bit by bit. -/
def scanBits (memoryMap : ℕ → BitVec 32) (maxBlocks numBlocks : BitVec 32) (fuel : ℕ) :
    Option (BitVec 32) :=
  if numBlocks ≤ 0 then some (-1)
  else scanBitsLoop memoryMap maxBlocks numBlocks fuel 0 0

/-- The answer as an `int`. -/
def resultWord : Option ℕ → BitVec 32
  | none => -1
  | some s => BitVec.ofNat 32 s

/-- What first fit returns for `n` blocks: the smallest start of a run, and -1 when `n` is 0 or when
there is none. -/
def FirstFit (p : Pmm) (n : ℕ) (r : ℤ) : Prop :=
  (r = -1 ∧ (n = 0 ∨ ∀ t, ¬ p.FreeRun t n)) ∨
    ∃ s : ℕ, r = s ∧ 0 < n ∧ p.FreeRun s n ∧ ∀ t < s, ¬ p.FreeRun t n

theorem IsFirstFit.unique {p : Pmm} {n : ℕ} : ∀ {r r' : Option ℕ}, p.IsFirstFit n r →
    p.IsFirstFit n r' → r = r'
  | none, none, _, _ => rfl
  | none, some s, h, h' => absurd h'.1 (h s)
  | some s, none, h, h' => absurd h.1 (h' s)
  | some s, some s', h, h' => by
    have h₁ : ¬ s < s' := fun hlt ↦ h'.2 s hlt h.1
    have h₂ : ¬ s' < s := fun hlt ↦ h.2 s' hlt h'.1
    rw [show s = s' by omega]

/-! ## Words -/

section Words

variable {i n : BitVec 32}

theorem zero_toNat : (0 : BitVec 32).toNat = 0 := rfl

theorem le_zero_iff : n ≤ 0 ↔ n.toNat = 0 := by
  rw [BitVec.le_def, zero_toNat, Nat.le_zero]

theorem toNat_div_thirtyTwo : (i / 32).toNat = i.toNat / 32 := BitVec.toNat_udiv ..

/-- The bit of block `i`, found with words. -/
theorem shift_mod_thirtyTwo : 1#32 <<< (i % 32) = 1#32 <<< (i.toNat % 32) := by
  rw [BitVec.shiftLeft_eq', BitVec.toNat_umod]
  rfl

/-- The next block. -/
theorem toNat_succ (hi : i.toNat < 2 ^ 20) : (i + 1).toNat = i.toNat + 1 := by
  rw [BitVec.toNat_add, show (1 : BitVec 32).toNat = 1 from rfl]
  omega

/-- The first block of the next word. -/
theorem toNat_nextWord (hi : i.toNat < 2 ^ 20) :
    ((i / 32 + 1) * 32 - 1 + 1).toNat = (i.toNat / 32 + 1) * 32 := by
  have hword : (i / 32 + 1).toNat = i.toNat / 32 + 1 := by
    rw [toNat_succ (by rw [toNat_div_thirtyTwo]; omega), toNat_div_thirtyTwo]
  rw [BitVec.sub_add_cancel, BitVec.toNat_mul, hword, show (32 : BitVec 32).toNat = 32 from rfl]
  omega

/-- The start of the run that ends with block `i`. -/
theorem sub_add_one_eq (hn : n.toNat ≤ i.toNat + 1) :
    i - n + 1 = BitVec.ofNat 32 (i.toNat + 1 - n.toNat) := by
  refine BitVec.eq_of_toNat_eq ?_
  rw [BitVec.toNat_add, BitVec.toNat_sub, BitVec.toNat_ofNat, show (1 : BitVec 32).toNat = 1 from rfl]
  omega

end Words

/-! ## The loop -/

/-- **The loop on words** is the loop on numbers, and it ends by its own condition. -/
theorem findFreeBlocksLoop_eq {p : Pmm} {maxBlocks n : BitVec 32} (hmax : maxBlocks.toNat = p.maxBlocks)
    (hle : p.maxBlocks ≤ 0xFFFFF) : ∀ (fuel : ℕ) {i count : BitVec 32},
    i.toNat < 2 ^ 20 + 32 → count.toNat ≤ i.toNat → p.maxBlocks ≤ i.toNat + fuel →
    findFreeBlocksLoop p.memoryMap maxBlocks n (fuel + 1) i count = some (resultWord
      (findFreeBlocksFrom p.memoryMap p.maxBlocks n.toNat (fuel + 1) i.toNat count.toNat))
  | fuel, i, count, hi, hcount, hfuel => by
    have hlt : i < maxBlocks ↔ i.toNat < p.maxBlocks := by rw [BitVec.lt_def, hmax]
    rw [findFreeBlocksLoop, findFreeBlocksFrom]
    by_cases hin : i.toNat < p.maxBlocks
    · have hi' : i.toNat < 2 ^ 20 := by omega
      obtain ⟨fuel, rfl⟩ : ∃ k, fuel = k + 1 := ⟨fuel - 1, by omega⟩
      rw [if_pos (hlt.mpr hin), if_pos hin]
      dsimp only
      rw [toNat_div_thirtyTwo, shift_mod_thirtyTwo]
      have hnext := toNat_succ hi'
      have hword := toNat_nextWord hi'
      by_cases hfull : p.memoryMap (i.toNat / 32) = 0xFFFFFFFF#32
      · rw [if_pos hfull, if_pos hfull, findFreeBlocksLoop_eq hmax hle fuel (by omega)
          (Nat.zero_le _) (by omega), hword]
        rfl
      rw [if_neg hfull, if_neg hfull]
      by_cases hbit : p.memoryMap (i.toNat / 32) &&& 1#32 <<< (i.toNat % 32) = 0#32
      · have hcount' : (count + 1).toNat = count.toNat + 1 := toNat_succ (by omega)
        have hend : count + 1 = n ↔ count.toNat + 1 = n.toNat := by
          rw [← BitVec.toNat_inj, hcount']
        rw [if_pos hbit, if_pos hbit]
        by_cases hlast : count.toNat + 1 = n.toNat
        · rw [if_pos (hend.mpr hlast), if_pos hlast, sub_add_one_eq (by omega)]
          rfl
        · rw [if_neg fun h ↦ hlast (hend.mp h), if_neg hlast, findFreeBlocksLoop_eq hmax hle fuel
            (by omega) (by omega) (by omega), hnext, hcount']
      · rw [if_neg hbit, if_neg hbit, findFreeBlocksLoop_eq hmax hle fuel (by omega)
          (Nat.zero_le _) (by omega), hnext]
        rfl
    · rw [if_neg fun h ↦ hin (hlt.mp h), if_neg hin]
      rfl

/-- **`find_free_blocks` on words** ends, and is the function on numbers. -/
theorem findFreeBlocksWord_eq {p : Pmm} {maxBlocks : BitVec 32} (hmax : maxBlocks.toNat = p.maxBlocks)
    (hle : p.maxBlocks ≤ 0xFFFFF) (n : BitVec 32) {fuel : ℕ} (hfuel : p.maxBlocks < fuel) :
    findFreeBlocksWord p.memoryMap maxBlocks n fuel = some (resultWord (p.findFreeBlocks n.toNat)) := by
  obtain ⟨fuel, rfl⟩ : ∃ k, fuel = k + 1 := ⟨fuel - 1, by omega⟩
  rw [findFreeBlocksWord, findFreeBlocks]
  by_cases hn : n.toNat = 0
  · rw [if_pos (le_zero_iff.mpr hn), if_pos hn]
    rfl
  · rw [if_neg fun h ↦ hn (le_zero_iff.mp h), if_neg hn, findFreeBlocksLoop_eq hmax hle fuel
      (by rw [zero_toNat]; omega) (Nat.le_refl _) (by rw [zero_toNat]; omega), zero_toNat]
    refine congrArg (fun r ↦ some (resultWord r)) ?_
    -- more iterations change nothing
    have hstart : ScanInv p n.toNat 0 0 := ScanInv.start (Nat.pos_of_ne_zero hn)
    exact (findFreeBlocksFrom_spec _ 0 0 hstart (by omega)).unique
      (findFreeBlocksFrom_spec _ 0 0 hstart (by omega))

/-- First fit on words. -/
theorem firstFit_resultWord {p : Pmm} {n : ℕ} (hle : p.maxBlocks ≤ 0xFFFFF) :
    p.FirstFit n (resultWord (p.findFreeBlocks n)).toInt := by
  cases hfind : p.findFreeBlocks n with
  | none =>
    refine Or.inl ⟨rfl, ?_⟩
    rcases Nat.eq_zero_or_pos n with h0 | hn
    · exact Or.inl h0
    · exact Or.inr (findFreeBlocks_none hfind hn)
  | some s =>
    obtain ⟨hn, hrun, hfirst⟩ := findFreeBlocks_some hfind
    have hlt := hrun.1
    refine Or.inr ⟨s, ?_, hn, hrun, hfirst⟩
    rw [resultWord, BitVec.toInt_eq_toNat_of_lt] <;> rw [BitVec.toNat_ofNat, Nat.mod_eq_of_lt] <;>
      omega

/-! ## The plain scan -/

/-- **The plain loop** finds the first run, from any point at which its invariant holds. -/
theorem scanBitsLoop_spec {p : Pmm} {maxBlocks n : BitVec 32} (hmax : maxBlocks.toNat = p.maxBlocks)
    (hle : p.maxBlocks ≤ 0xFFFFF) : ∀ (fuel : ℕ) {i c : BitVec 32},
    ScanInv p n.toNat i.toNat c.toNat → p.maxBlocks ≤ i.toNat + fuel → i.toNat ≤ p.maxBlocks →
    ∃ r, scanBitsLoop p.memoryMap maxBlocks n (fuel + 1) i c = some (resultWord r) ∧
      p.IsFirstFit n.toNat r
  | fuel, i, count, hinv, hfuel, hi => by
    have hlt : i < maxBlocks ↔ i.toNat < p.maxBlocks := by rw [BitVec.lt_def, hmax]
    have hcount := hinv.count_le
    have hn := hinv.count_lt
    rw [scanBitsLoop]
    by_cases hin : i.toNat < p.maxBlocks
    · obtain ⟨fuel, rfl⟩ : ∃ k, fuel = k + 1 := ⟨fuel - 1, by omega⟩
      have hnext := toNat_succ (i := i) (by omega)
      rw [if_pos (hlt.mpr hin), toNat_div_thirtyTwo, shift_mod_thirtyTwo]
      by_cases hbit : p.memoryMap (i.toNat / 32) &&& 1#32 <<< (i.toNat % 32) = 0#32
      · have hclear : p.isSet i.toNat = false :=
          (and_bit_eq_zero_iff (Nat.mod_lt _ (by omega))).mp hbit
        have hcount' : (count + 1).toNat = count.toNat + 1 := toNat_succ (by omega)
        rw [if_pos hbit]
        by_cases hlast : count.toNat + 1 = n.toNat
        · have hend : count + 1 = n := BitVec.eq_of_toNat_eq (hcount'.trans hlast)
          rw [if_pos hend, sub_add_one_eq (by omega)]
          refine ⟨some (i.toNat + 1 - n.toNat), rfl, ⟨by omega, fun k hk ↦ ?_⟩,
            fun t ht ↦ hinv.none_before t (by omega)⟩
          rcases Nat.lt_or_ge (i.toNat + 1 - n.toNat + k) i.toNat with hlt | hge
          · exact hinv.clear _ (by omega) hlt
          · rw [show i.toNat + 1 - n.toNat + k = i.toNat by omega]
            exact hclear
        · have hend : count + 1 ≠ n := fun h ↦ hlast (hcount'.symm.trans (congrArg _ h))
          rw [if_neg hend]
          exact scanBitsLoop_spec hmax hle fuel (by rw [hnext, hcount']; exact hinv.step hclear hlast)
            (by omega) (by omega)
      · rw [if_neg hbit]
        rw [and_bit_eq_zero_iff (Nat.mod_lt _ (by omega)), Bool.not_eq_false] at hbit
        refine scanBitsLoop_spec hmax hle fuel (c := 0) ?_ (by omega) (by omega)
        rw [hnext]
        refine hinv.skip (Nat.lt_succ_self _) fun j h₁ h₂ ↦ ?_
        rw [show j = i.toNat by omega]
        exact hbit
    · rw [if_neg fun h ↦ hin (hlt.mp h)]
      refine ⟨none, rfl, fun t hrun ↦ ?_⟩
      have hend := hrun.1
      exact hinv.none_before t (by omega) hrun

theorem scanBits_eq {p : Pmm} {maxBlocks : BitVec 32} (hmax : maxBlocks.toNat = p.maxBlocks)
    (hle : p.maxBlocks ≤ 0xFFFFF) (n : BitVec 32) {fuel : ℕ} (hfuel : p.maxBlocks < fuel) :
    scanBits p.memoryMap maxBlocks n fuel = some (resultWord (p.findFreeBlocks n.toNat)) := by
  obtain ⟨fuel, rfl⟩ : ∃ k, fuel = k + 1 := ⟨fuel - 1, by omega⟩
  rw [scanBits, findFreeBlocks]
  by_cases hn : n.toNat = 0
  · rw [if_pos (le_zero_iff.mpr hn), if_pos hn]
    rfl
  · have hstart : ScanInv p n.toNat 0 0 := ScanInv.start (Nat.pos_of_ne_zero hn)
    obtain ⟨r, hr, hfirst⟩ := scanBitsLoop_spec hmax hle fuel (i := 0) (c := 0) hstart
      (by rw [zero_toNat]; omega) (Nat.zero_le _)
    rw [if_neg fun h ↦ hn (le_zero_iff.mp h), if_neg hn, hr,
      hfirst.unique (findFreeBlocksFrom_spec p.maxBlocks 0 0 hstart (by omega))]

/-- **First fit**: `find_free_blocks` ends, whatever the bitmap holds, returns the smallest start of a
run or -1, and the skip over full words changes nothing. -/
theorem findFreeBlocksWord_firstFit (memoryMap : ℕ → BitVec 32) (maxBlocks n usedBlocks : BitVec 32)
    (hle : maxBlocks.toNat ≤ 0xFFFFF) : ∃ r : BitVec 32,
    (∀ fuel, maxBlocks.toNat < fuel →
      findFreeBlocksWord memoryMap maxBlocks n fuel = some r ∧
      scanBits memoryMap maxBlocks n fuel = some r) ∧
    (⟨memoryMap, maxBlocks.toNat, usedBlocks⟩ : Pmm).FirstFit n.toNat r.toInt := by
  generalize hp : (⟨memoryMap, maxBlocks.toNat, usedBlocks⟩ : Pmm) = p
  have hmap : p.memoryMap = memoryMap := by rw [← hp]
  have hmax : maxBlocks.toNat = p.maxBlocks := by rw [← hp]
  rw [hmax] at hle
  refine ⟨resultWord (p.findFreeBlocks n.toNat), fun fuel hfuel ↦ ?_, firstFit_resultWord hle⟩
  rw [hmax] at hfuel
  rw [← hmap]
  exact ⟨findFreeBlocksWord_eq hmax hle n hfuel, scanBits_eq hmax hle n hfuel⟩

/-- Block 63 is clear, and so are those behind it. -/
def straddlingMap (i : ℕ) : BitVec 32 :=
  if i = 0 then 0xFFFFFFFF else if i = 1 then 0x7FFFFFFF else 0

/-- The run starts at the end of a word. -/
theorem findFreeBlocksWord_straddling :
    (∀ fuel, 96 < fuel → findFreeBlocksWord straddlingMap 96 4 fuel = some 63 ∧
      scanBits straddlingMap 96 4 fuel = some 63) ∧
    (⟨straddlingMap, 96, 0⟩ : Pmm).FirstFit 4 63 := by
  obtain ⟨r, hr, hfirst⟩ := findFreeBlocksWord_firstFit straddlingMap 96 4 0 (by decide)
  have hrun : findFreeBlocksWord straddlingMap 96 4 97 = some 63 := by decide +kernel
  obtain rfl : r = 63 := Option.some.inj ((hr 97 (by decide)).1.symm.trans hrun)
  exact ⟨hr, hfirst⟩

end Pmm

end AbOS
