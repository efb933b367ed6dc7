import AbOS.Fs.CreateFile
import AbOS.Lib.Bits
import AbOS.Lib.Run
import Mathlib.Data.Nat.Find
import Mathlib.Tactic.Push

/-!
# The bits that the bitmap functions mean

A bit number of a bitmap stands for one bit of the disk, `bitAddress`.  The two writers change the
64-bit chunk around it, with a mask that is shifted in 32 bits: the mask for bit 31 is negative and
reaches to the end of the chunk when it is extended, and the masks for the upper half fall into the
lower half.  `bit_setBitmap` says which bits change, and `changesOneBit_iff` when it is only the one
that was meant.

`find_free_bit` counts from the beginning of the block in which it finds a clear bit.  Its result is
a bit number of the bitmap only in the first block.
-/

set_option autoImplicit false

namespace AbOS

/-- The bit of the disk that a bit number stands for, with 32768 bits to each block from `first`
on. -/
def bitAddress (first bit : ℕ) : ℕ :=
  8 * sectorAddress ((first + bit / 32768) * sectorsPerBlock % 2 ^ 32) + bit % 32768

/-- The bitmaps, each with a writer of its own. -/
inductive Bitmap where
  | inode
  | data
  deriving DecidableEq, Repr

/-- The block at which the bitmap's writer begins. -/
def Bitmap.first (superblock : Superblock) : Bitmap → ℕ
  | inode => superblock.firstInodeBitmap
  | data => superblock.firstDataBitmap

/-- A call of `set_inode_bitmap` or `set_data_bitmap`. -/
structure BitmapCall where
  bitmap : Bitmap
  bit : BitVec 32
  set : Bool
  deriving DecidableEq, Repr

/-- A disk with its bitmaps in blocks 2 and 3. -/
def smallSuperblock : Superblock := ⟨64, 1, 1, 64, 8, 1, 2, 2, 3, 3, 4, 5, 64, 8, 0, 1, 4, 1, 1⟩

namespace BitmapCall

def run (superblock : Superblock) (disk : ByteStore) (call : BitmapCall) : ByteStore :=
  match call.bitmap with
  | .inode => setInodeBitmap disk superblock call.bit.toNat call.set
  | .data => setDataBitmap disk superblock call.bit.toNat call.set

/-- The bit of the disk that the call is meant for. -/
def address (superblock : Superblock) (call : BitmapCall) : ℕ :=
  bitAddress (call.bitmap.first superblock) call.bit.toNat

/-- A call always returns. -/
def step (superblock : Superblock) (disk : ByteStore) (call : BitmapCall) : Option ByteStore :=
  some (call.run superblock disk)

/-- The call changes one bit, the one it is meant for. -/
def ChangesOneBit (superblock : Superblock) (disk : ByteStore) (call : BitmapCall) : Prop :=
  ∀ x, (call.run superblock disk).bit x =
    if x = call.address superblock then call.set else disk.bit x

/-- What the mask does beyond the addressed bit makes no difference.  Bit `k` of the chunk is the
addressed one: from bit 32 on the mask misses it and reaches bit `k - 32`, and the masks for 31
and 63 reach all of bits 31 to 63. -/
def MaskFits (superblock : Superblock) (disk : ByteStore) (call : BitmapCall) : Prop :=
  let k := call.bit.toNat % 64
  let a := call.address superblock - k
  if k % 32 = 31 then ∀ j < 64, 31 ≤ j → j ≠ k → disk.bit (a + j) = call.set
  else 32 ≤ k → disk.bit (a + k) = call.set ∧ disk.bit (a + (k - 32)) = call.set

instance (superblock : Superblock) (disk : ByteStore) (call : BitmapCall) :
    Decidable (MaskFits superblock disk call) := inferInstanceAs (Decidable (ite ..))

/-- The value that the last of the calls for the bit asks for. -/
def lastValue (superblock : Superblock) (x : ℕ) : List BitmapCall → Option Bool
  | [] => none
  | call :: calls => (lastValue superblock x calls).or
      (if x = call.address superblock then some call.set else none)

/-- The calls leave each bit as the last of them asked for it; setting some bits of a bitmap makes
just these set, and clearing a bit undoes setting it. -/
structure Performed (superblock : Superblock) (disk disk' : ByteStore) (calls : List BitmapCall) :
    Prop where
  last : ∀ x, disk'.bit x = (lastValue superblock x calls).getD (disk.bit x)
  exactly : ∀ bitmap (bits : List (BitVec 32)), calls = bits.map (fun bit ↦ ⟨bitmap, bit, true⟩) →
    ∀ bit, disk'.bit (bitAddress (bitmap.first superblock) bit.toNat) =
      (decide (bit ∈ bits) || disk.bit (bitAddress (bitmap.first superblock) bit.toNat))
  undone : ∀ bitmap bit, calls = [⟨bitmap, bit, true⟩, ⟨bitmap, bit, false⟩] →
    disk.bit (bitAddress (bitmap.first superblock) bit.toNat) = false → disk' = disk

end BitmapCall

/-- The drive has `2 ^ 25` blocks. -/
theorem bitAddress_eq (first bit : ℕ) :
    bitAddress first bit = (first + bit / 32768) % 2 ^ 25 * 32768 + bit % 32768 := by
  rw [bitAddress, sectorAddress, sectorsPerBlock, fsSector]
  omega

/-! ## Which bits a writer changes -/

/-- The bits of the mask. -/
theorem testBit_shiftedOne {k j : ℕ} (hj : j < 64) :
    (shiftedOne k).testBit j = if k % 32 = 31 then decide (31 ≤ j) else decide (j = k % 32) := by
  rw [shiftedOne]
  split
  · rw [show 0xFFFFFFFF80000000 = 2 ^ 31 * (2 ^ 33 - 1) from rfl, Nat.testBit_two_pow_mul,
      Nat.testBit_two_pow_sub_one, decide_eq_true (show j - 31 < 33 by omega), Bool.and_true]
  · rw [Nat.testBit_two_pow]
    exact decide_eq_decide.mpr eq_comm

theorem shiftedOne_lt (k : ℕ) : shiftedOne k < 2 ^ 64 := by
  rw [shiftedOne]
  split
  · decide
  · exact Nat.pow_lt_pow_right (by decide) (by omega)

/-- A call overwrites the chunk of its bit. -/
theorem setBitmap_splice (disk : ByteStore) (first bit : ℕ) (set : Bool) :
    setBitmap disk first bit set = disk.splice (chunkAddress first bit) (ByteStore.leBytes 8
      (if set then ByteStore.ofLe (disk.slice (chunkAddress first bit) 8) ||| shiftedOne (bit % 64)
        else ByteStore.ofLe (disk.slice (chunkAddress first bit) 8) &&&
          (2 ^ 64 - 1 - shiftedOne (bit % 64)))) := by
  have hindex : bit % 32768 / 64 * 8 + 8 ≤ fsBlock := by
    rw [fsBlock]
    omega
  rw [setBitmap, editBlock_eq (by rw [ByteStore.length_leBytes]; exact hindex),
    show bit % 32768 % 64 = bit % 64 by omega]
  rfl

/-- **Which bits a call changes**: those of the chunk that the mask reaches. -/
theorem bit_setBitmap (disk : ByteStore) (first bit : ℕ) (set : Bool) (x : ℕ) :
    (setBitmap disk first bit set).bit x =
      if 8 * chunkAddress first bit ≤ x ∧ x < 8 * chunkAddress first bit + 64 ∧
          (shiftedOne (bit % 64)).testBit (x - 8 * chunkAddress first bit) then set
        else disk.bit x := by
  rw [setBitmap_splice, ByteStore.bit_splice_leBytes, Nat.mul_add]
  by_cases hx : 8 * chunkAddress first bit ≤ x ∧ x < 8 * chunkAddress first bit + 8 * 8
  · obtain ⟨j, rfl⟩ := Nat.exists_eq_add_of_le hx.1
    have hj : j < 64 := by omega
    have hbit := ByteStore.testBit_ofLe_slice (m := disk) (a := chunkAddress first bit) (n := 8) hj
    rw [if_pos hx, Nat.add_sub_cancel_left]
    have hin : 8 * chunkAddress first bit ≤ 8 * chunkAddress first bit + j ∧
        8 * chunkAddress first bit + j < 8 * chunkAddress first bit + 64 := by omega
    cases set with
    | true =>
      rw [if_pos rfl, Nat.testBit_or, hbit]
      cases (shiftedOne (bit % 64)).testBit j with
      | true => rw [Bool.or_true, if_pos ⟨hin.1, hin.2, rfl⟩]
      | false => rw [Bool.or_false, if_neg fun h ↦ Bool.false_ne_true h.2.2]
    | false =>
      rw [if_neg Bool.false_ne_true, Nat.testBit_and, hbit, Nat.sub_sub, Nat.add_comm 1,
        Nat.testBit_two_pow_sub_succ (shiftedOne_lt _), decide_eq_true hj, Bool.true_and]
      cases (shiftedOne (bit % 64)).testBit j with
      | true => rw [Bool.not_true, Bool.and_false, if_pos ⟨hin.1, hin.2, rfl⟩]
      | false => rw [Bool.not_false, Bool.and_true, if_neg fun h ↦ Bool.false_ne_true h.2.2]
  · rw [if_neg hx, if_neg fun h ↦ hx ⟨h.1, h.2.1⟩]

namespace BitmapCall

variable {superblock : Superblock} {disk disk' : ByteStore}

/-- The bit lies in its chunk. -/
theorem address_eq (call : BitmapCall) :
    call.address superblock =
      8 * chunkAddress (call.bitmap.first superblock) call.bit.toNat + call.bit.toNat % 64 := by
  rw [address, bitAddress, chunkAddress]
  omega

theorem run_eq (call : BitmapCall) :
    call.run superblock disk =
      setBitmap disk (call.bitmap.first superblock) call.bit.toNat call.set := by
  rw [run]
  cases call.bitmap <;> rfl

/-- A call changes one bit if, bit by bit in the chunk, the mask does what the bit number says. -/
theorem changesOneBit_iff_mask (call : BitmapCall) :
    call.ChangesOneBit superblock disk ↔ ∀ j < 64,
      (if (shiftedOne (call.bit.toNat % 64)).testBit j then call.set
        else disk.bit (call.address superblock - call.bit.toNat % 64 + j)) =
      if j = call.bit.toNat % 64 then call.set
        else disk.bit (call.address superblock - call.bit.toNat % 64 + j) := by
  have haddress : call.address superblock =
      8 * chunkAddress (call.bitmap.first superblock) call.bit.toNat + call.bit.toNat % 64 :=
    call.address_eq
  rw [ChangesOneBit, run_eq, haddress, Nat.add_sub_cancel]
  constructor
  · intro h j hj
    have hx := h (8 * chunkAddress (call.bitmap.first superblock) call.bit.toNat + j)
    rw [bit_setBitmap, Nat.add_sub_cancel_left] at hx
    simpa [hj] using hx
  · intro h x
    rw [bit_setBitmap]
    by_cases hx : 8 * chunkAddress (call.bitmap.first superblock) call.bit.toNat ≤ x ∧
        x < 8 * chunkAddress (call.bitmap.first superblock) call.bit.toNat + 64
    · obtain ⟨j, rfl⟩ := Nat.exists_eq_add_of_le hx.1
      have hj := h j (by omega)
      rw [Nat.add_sub_cancel_left]
      simpa [hx] using hj
    · rw [if_neg fun h ↦ hx ⟨h.1, h.2.1⟩, if_neg (by omega)]

/-- **When a call changes one bit only**. -/
theorem changesOneBit_iff (call : BitmapCall) :
    call.ChangesOneBit superblock disk ↔ call.MaskFits superblock disk := by
  rw [changesOneBit_iff_mask, MaskFits]
  generalize call.address superblock - call.bit.toNat % 64 = a
  have hk : call.bit.toNat % 64 < 64 := Nat.mod_lt _ (by decide)
  generalize call.bit.toNat % 64 = k at hk
  split
  · rename_i h31
    constructor
    · intro h j hj hle hne
      have hbit := h j hj
      rw [testBit_shiftedOne hj, if_pos h31, decide_eq_true hle, if_pos rfl, if_neg hne] at hbit
      exact hbit.symm
    · intro h j hj
      rw [testBit_shiftedOne hj, if_pos h31]
      by_cases hle : 31 ≤ j
      · rw [decide_eq_true hle, if_pos rfl]
        split
        · rfl
        · exact (h j hj hle ‹_›).symm
      · rw [decide_eq_false hle, if_neg Bool.false_ne_true, if_neg (by omega)]
  · rename_i h31
    constructor
    · intro h hle
      have hself := h k hk
      have hlow := h (k - 32) (by omega)
      rw [testBit_shiftedOne hk, if_neg h31, decide_eq_false (by omega), if_neg Bool.false_ne_true,
        if_pos rfl] at hself
      rw [testBit_shiftedOne (by omega), if_neg h31, decide_eq_true (by omega), if_pos rfl,
        if_neg (by omega)] at hlow
      exact ⟨hself, hlow.symm⟩
    · intro h j hj
      rw [testBit_shiftedOne hj, if_neg h31]
      by_cases hmask : j = k % 32
      · rw [decide_eq_true hmask, if_pos rfl]
        split
        · rfl
        · rw [show j = k - 32 by omega, (h (by omega)).2]
      · rw [decide_eq_false hmask, if_neg Bool.false_ne_true]
        split
        · rename_i hself
          rw [hself, (h (by omega)).1]
        · rfl

/-- The masks for the first 31 bits of a chunk are right. -/
theorem maskFits_of_lt {call : BitmapCall} (h : call.bit.toNat % 64 < 31) :
    call.MaskFits superblock disk := by
  rw [MaskFits, if_neg (by omega)]
  exact fun hle ↦ absurd hle (by omega)

/-! ## Lists of calls -/

/-- Two bit numbers of a bitmap stand for two bits. -/
theorem bitAddress_inj {first : ℕ} {bit bit' : BitVec 32}
    (h : bitAddress first bit.toNat = bitAddress first bit'.toNat) : bit = bit' := by
  apply BitVec.eq_of_toNat_eq
  have hlt := bit.isLt
  have hlt' := bit'.isLt
  rw [bitAddress_eq, bitAddress_eq] at h
  omega

/-- Each bit is left as the last call for it asks. -/
theorem bit_of_exec {calls : List BitmapCall}
    (hfits : Run.Meets (step superblock) (MaskFits superblock) disk calls)
    (hrun : Run.exec (step superblock) disk calls = some disk') (x : ℕ) :
    disk'.bit x = (lastValue superblock x calls).getD (disk.bit x) := by
  induction calls generalizing disk with
  | nil =>
    cases hrun
    rfl
  | cons call calls ih =>
    have hone := call.changesOneBit_iff.mpr hfits.1 x
    rw [ih (hfits.2 _ rfl) hrun, lastValue, hone]
    cases lastValue superblock x calls with
    | some value => rfl
    | none =>
      rw [Option.none_or, Option.getD_none]
      split <;> rfl

theorem lastValue_set (bitmap : Bitmap) (bits : List (BitVec 32)) (bit : BitVec 32) :
    lastValue superblock (bitAddress (bitmap.first superblock) bit.toNat)
      (bits.map fun bit ↦ ⟨bitmap, bit, true⟩) = if bit ∈ bits then some true else none := by
  induction bits with
  | nil => rfl
  | cons b bits ih =>
    rw [List.map_cons, lastValue, ih, address]
    by_cases hmem : bit ∈ bits
    · rw [if_pos hmem, Option.some_or, if_pos (List.mem_cons_of_mem _ hmem)]
    · rw [if_neg hmem, Option.none_or]
      by_cases hb : bit = b
      · rw [if_pos (by rw [hb]), if_pos (by rw [hb]; exact List.mem_cons_self)]
      · rw [if_neg fun h ↦ hb (bitAddress_inj h), if_neg]
        exact fun h ↦ (List.mem_cons.mp h).elim hb hmem

/-- **What the bitmap writers do.**  One call changes only its bit exactly if the mask fits, and
calls whose masks fit leave what they ask for. -/
theorem bitmap_calls_exact (superblock : Superblock) :
    (∀ disk (call : BitmapCall),
      call.ChangesOneBit superblock disk ↔ call.MaskFits superblock disk) ∧
    ∀ disk disk' calls, Run.Meets (step superblock) (MaskFits superblock) disk calls →
      Run.exec (step superblock) disk calls = some disk' →
        Performed superblock disk disk' calls := by
  refine ⟨fun disk call ↦ call.changesOneBit_iff, fun disk disk' calls hfits hrun ↦ ?_⟩
  have hlast := bit_of_exec hfits hrun
  refine ⟨hlast, ?_, ?_⟩
  · rintro bitmap bits rfl bit
    rw [hlast, lastValue_set]
    by_cases hmem : bit ∈ bits
    · rw [if_pos hmem, decide_eq_true hmem, Bool.true_or, Option.getD_some]
    · rw [if_neg hmem, decide_eq_false hmem, Bool.false_or, Option.getD_none]
  · rintro bitmap bit rfl hclear
    refine ByteStore.ext_bit fun x ↦ ?_
    rw [hlast, lastValue, lastValue, lastValue, Option.none_or]
    by_cases hx : x = address superblock ⟨bitmap, bit, false⟩
    · rw [if_pos hx, Option.some_or, hx]
      exact hclear.symm
    · rw [if_neg hx, Option.none_or, if_neg (show x ≠ address superblock ⟨bitmap, bit, true⟩ from hx),
        Option.getD_none]

theorem bitmap_calls_exact_two :
    Performed smallSuperblock (fun _ ↦ 0)
      (setInodeBitmap (setInodeBitmap (fun _ ↦ 0) smallSuperblock 5 true) smallSuperblock 70 true)
      [⟨.inode, 5, true⟩, ⟨.inode, 70, true⟩] :=
  (bitmap_calls_exact smallSuperblock).2 _ _ _
    ⟨maskFits_of_lt (by decide), fun _ _ ↦ ⟨maskFits_of_lt (by decide), fun _ _ ↦ trivial⟩⟩ rfl

/-- Setting bit 31 of an empty bitmap sets the 32 bits behind it too. -/
theorem not_changesOneBit_31 :
    ¬ ChangesOneBit smallSuperblock (fun _ ↦ 0) ⟨.inode, 31, true⟩ := by
  rw [changesOneBit_iff]
  decide

end BitmapCall

/-! ## The search for a clear bit -/

/-- The bit is clear, by its number in the bitmap that begins at `start`. -/
def ClearBit (disk : ByteStore) (start bit : ℕ) : Prop := disk.bit (bitAddress start bit) = false

instance (disk : ByteStore) (start bit : ℕ) : Decidable (ClearBit disk start bit) :=
  inferInstanceAs (Decidable (_ = _))

/-- `find_free_bit` returns the first clear bit of the bitmap, or 0 if there is none, and the writer
takes the result for that bit. -/
structure FindsFirstFree (superblock : Superblock) (disk : ByteStore) (start blocks : ℕ) : Prop where
  zero_iff : findFreeBit disk start blocks = 0 ↔ ∀ x < blocks * 32768, ¬ ClearBit disk start x
  first : ∀ x < blocks * 32768, ClearBit disk start x → (∀ y < x, ¬ ClearBit disk start y) →
    findFreeBit disk start blocks = x ∧
      bitAddress superblock.firstInodeBitmap (findFreeBit disk start blocks) = bitAddress start x

/-- What the search finds in the block `i` of the bitmap. -/
def findInBlock (disk : ByteStore) (start i : ℕ) : Option ℕ :=
  let a := sectorAddress ((start + i) * sectorsPerBlock % 2 ^ 32)
  (List.range (fsBlock / 4)).findSome? fun j ↦
    (clearBit (disk.readWord (a + 4 * j))).map fun k ↦ j * 32 + k

theorem isFirst_clearBit (word : ℕ) :
    IsFirst (fun k ↦ word.testBit k = false) 32 (clearBit word) := by
  rw [clearBit]
  split
  · rename_i hfull
    refine ⟨fun _ h ↦ (by cases h), fun _ k hk hclear ↦ ?_⟩
    rw [hfull, show 0xFFFFFFFF = 2 ^ 32 - 1 from rfl, Nat.testBit_two_pow_sub_one,
      decide_eq_true hk] at hclear
    exact Bool.false_ne_true hclear.symm
  · exact (IsFirst.find? _ 32).congr fun k _ ↦ by rw [Bool.not_eq_true']

/-- **In one block** the search finds the first clear bit. -/
theorem isFirst_findInBlock (disk : ByteStore) (start i : ℕ) :
    IsFirst (fun k ↦ ClearBit disk start (i * 32768 + k)) 32768 (findInBlock disk start i) := by
  have hbits : IsFirst
      (fun k ↦ disk.bit (8 * sectorAddress ((start + i) * sectorsPerBlock % 2 ^ 32) + k) = false)
      (fsBlock / 4 * 32) (findInBlock disk start i) := by
    rw [findInBlock]
    refine IsFirst.chunks (n := fsBlock / 4) (w := 32) fun j ↦
      (isFirst_clearBit _).congr fun k hk ↦ ?_
    rw [ByteStore.testBit_readWord hk, Nat.mul_add, Nat.add_assoc, ← Nat.mul_assoc,
      Nat.mul_comm j 32]
  refine hbits.congr fun k hk ↦ ?_
  have hlt : k < 32768 := hk
  rw [ClearBit, bitAddress, show (i * 32768 + k) / 32768 = i by omega,
    show (i * 32768 + k) % 32768 = k by omega]

theorem findFreeBit_eq (disk : ByteStore) (start blocks : ℕ) :
    findFreeBit disk start blocks =
      ((List.range blocks).findSome? fun i ↦ findInBlock disk start i).getD 0 := rfl

variable {superblock : Superblock} {disk : ByteStore} {start blocks : ℕ}

/-- Nothing is found in a bitmap without a clear bit. -/
theorem findFreeBit_of_full (h : ∀ x < blocks * 32768, ¬ ClearBit disk start x) :
    findFreeBit disk start blocks = 0 := by
  rw [findFreeBit_eq, List.findSome?_eq_none_iff.mpr fun i hi ↦ ?_]
  · rfl
  · have hlt := List.mem_range.mp hi
    exact (isFirst_findInBlock disk start i).eq_none_iff.mpr fun k hk ↦ h _ (by omega)

/-- What is found first in the first block is the result. -/
theorem findFreeBit_of_first {x : ℕ} (hblocks : 0 < blocks) (hx : x < 32768)
    (hclear : ClearBit disk start x) (hmin : ∀ y < x, ¬ ClearBit disk start y) :
    findFreeBit disk start blocks = x := by
  obtain ⟨n, rfl⟩ : ∃ n, blocks = n + 1 := ⟨blocks - 1, by omega⟩
  have hfirst : findInBlock disk start 0 = some x :=
    (isFirst_findInBlock disk start 0).eq_some hx
      (by rw [Nat.zero_mul, Nat.zero_add]; exact hclear)
      fun y hy ↦ by rw [Nat.zero_mul, Nat.zero_add]; exact hmin y hy
  rw [findFreeBit_eq, List.range_succ_eq_map, List.findSome?_cons, hfirst]
  rfl

/-- A free bit is one of the first block, whatever block it was found in. -/
theorem findFreeBit_lt (disk : ByteStore) (startBlock lengthBlocks : ℕ) :
    findFreeBit disk startBlock lengthBlocks < 32768 := by
  rw [findFreeBit_eq]
  cases h : (List.range lengthBlocks).findSome? fun i ↦ findInBlock disk startBlock i with
  | none => exact Nat.two_pow_pos 15
  | some k =>
    obtain ⟨i, -, hi⟩ := List.exists_of_findSome?_eq_some h
    exact ((isFirst_findInBlock disk startBlock i).found k hi).1

/-- Both blocks are the same to the drive. -/
theorem bitAddress_eq_iff {first x : ℕ} :
    bitAddress first x = bitAddress start x ↔ first % 2 ^ 25 = start % 2 ^ 25 := by
  rw [bitAddress_eq, bitAddress_eq]
  omega

/-- A clear bit that is not in the first block is not found. -/
theorem not_findsFirstFree_of_first_full (hfull : ∀ x < 32768, ¬ ClearBit disk start x)
    (hclear : ∃ x < blocks * 32768, ClearBit disk start x) :
    ¬ FindsFirstFree superblock disk start blocks := by
  intro h
  classical
  obtain ⟨hlt, hx⟩ := Nat.find_spec hclear
  have hmin : ∀ y < Nat.find hclear, ¬ ClearBit disk start y := fun y hy hc ↦
    Nat.find_min hclear hy ⟨by omega, hc⟩
  have hin := findFreeBit_lt disk start blocks
  rw [(h.first _ hlt hx hmin).1] at hin
  exact hfull _ hin hx

/-- **When the search finds the first free bit** of a bitmap whose bit 0 is set. -/
theorem findFreeBit_exact (superblock : Superblock) {disk : ByteStore} {start : ℕ}
    (hzero : ¬ ClearBit disk start 0) (blocks : ℕ) :
    FindsFirstFree superblock disk start blocks ↔
      (∀ x < blocks * 32768, ¬ ClearBit disk start x) ∨
        (0 < blocks ∧ (∃ x < 32768, ClearBit disk start x) ∧
          superblock.firstInodeBitmap % 2 ^ 25 = start % 2 ^ 25) := by
  constructor
  · intro h
    by_cases hfull : ∀ x < blocks * 32768, ¬ ClearBit disk start x
    · exact .inl hfull
    push Not at hfull
    by_cases hblock : ∀ x < 32768, ¬ ClearBit disk start x
    · exact absurd h (not_findsFirstFree_of_first_full hblock hfull)
    push Not at hblock
    classical
    obtain ⟨hlt, hx⟩ := Nat.find_spec hfull
    have hsame := h.first _ hlt hx fun y hy hc ↦ Nat.find_min hfull hy ⟨by omega, hc⟩
    rw [hsame.1, bitAddress_eq_iff] at hsame
    exact .inr ⟨by omega, hblock, hsame.2⟩
  · rintro (hfull | ⟨hblocks, hclear, hsame⟩)
    · exact ⟨⟨fun _ ↦ hfull, fun _ ↦ findFreeBit_of_full hfull⟩,
        fun x hx hc ↦ absurd hc (hfull x hx)⟩
    · classical
      obtain ⟨hlt, hx⟩ := Nat.find_spec hclear
      have hmin : ∀ y < Nat.find hclear, ¬ ClearBit disk start y := fun y hy hc ↦
        Nat.find_min hclear hy ⟨by omega, hc⟩
      have hfound := findFreeBit_of_first hblocks hlt hx hmin
      refine ⟨⟨fun h0 ↦ ?_, fun hall ↦ absurd hx (hall _ (by omega))⟩, fun y _ hy hminy ↦ ?_⟩
      · rw [hfound] at h0
        rw [h0] at hx
        exact absurd hx hzero
      · have hyx : Nat.find hclear = y := by
          rcases Nat.lt_trichotomy (Nat.find hclear) y with h | h | h
          · exact absurd hx (hminy _ h)
          · exact h
          · exact absurd hy (hmin _ h)
        rw [hfound, hyx]
        exact ⟨rfl, bitAddress_eq_iff.mpr hsame⟩

theorem findFreeBit_exact_small :
    FindsFirstFree smallSuperblock (fun x ↦ if x = 8192 then 1 else 0) 2 1 :=
  (findFreeBit_exact smallSuperblock (by decide) 1).mpr
    (.inr ⟨by decide, ⟨1, by decide, by decide⟩, by decide⟩)

/-- A bitmap of two blocks, of which the first is full. -/
theorem not_findsFirstFree_two :
    ¬ ClearBit (fun x ↦ if x / 4096 = 2 then 0xFF else 0) 2 0 ∧
      ¬ FindsFirstFree smallSuperblock (fun x ↦ if x / 4096 = 2 then 0xFF else 0) 2 2 := by
  have hfull : ∀ x < 32768, ¬ ClearBit (fun x ↦ if x / 4096 = 2 then 0xFF else 0) 2 x := by
    intro x hx hclear
    have hbits : ∀ k < 8, (0xFF : UInt8).toNat.testBit k = true := by decide
    rw [ClearBit, bitAddress_eq, ByteStore.bit, if_pos (by omega), hbits _ (by omega)] at hclear
    exact Bool.false_ne_true hclear.symm
  exact ⟨hfull 0 (by decide), not_findsFirstFree_of_first_full hfull ⟨32768, by decide, by decide⟩⟩

end AbOS
