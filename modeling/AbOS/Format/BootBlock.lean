import AbOS.Fs.Layout
import AbOS.Lib.ByteStore

/-!
# The boot block

`write_boot_block` puts the first sector of `boot.bin` and up to six sectors of `bootstage2.bin`
into the first block of the disk.  `fread` counts whole items, but stores a part of one, too: when the
second stage ends within a sector, the count for it is 0 and `write_boot_block` sets the sector to 0
again.

So the block has the whole sectors of the second stage (`writeBootBlock_eq`), and all of it exactly
if the rest is zeros (`bootBlock_iff`).
-/

set_option autoImplicit false

namespace AbOS

/-- The sectors of `bootstage2.bin` that have room in the boot block. -/
def stage2Sectors : ℕ := 6

/-- `fread` of one sector: the number of whole items, the bytes that it stores, and what is left of
the file. -/
def fread (file : List UInt8) : ℕ × List UInt8 × List UInt8 :=
  (if fsSector ≤ file.length then 1 else 0, file.take fsSector, file.drop fsSector)

/-- `memset(boot_block.sector[i], 0, FS_SECTOR)`. -/
def zeroSector (bootBlock : ByteStore) (i : ℕ) : ByteStore :=
  bootBlock.fill (i * fsSector) 0 fsSector

/-- The loop over the sectors of the second stage, at sector `i`, with `n` of them left. -/
def readStage2 : ℕ → ℕ → ByteStore → List UInt8 → ByteStore
  | 0, _, bootBlock, _ => bootBlock
  | n + 1, i, bootBlock, file =>
    let (check, bytes, file) := fread file
    let bootBlock := bootBlock.splice (i * fsSector) bytes
    if check = 0 then (List.range' (i + 1) n).foldl zeroSector (zeroSector bootBlock i)
    else readStage2 n (i + 1) bootBlock file

/-- `write_boot_block`: the block that it writes.  `none` for a file stands for a failed `fopen`. -/
def writeBootBlock (boot bootstage2 : Option (List UInt8)) : Option (List UInt8) :=
  match boot with
  | none => none
  | some boot =>
    let (check, bytes, _) := fread boot
    if check ≠ 1 then none
    else
      match bootstage2 with
      | none => none
      | some bootstage2 =>
        let bootBlock : ByteStore := fun _ ↦ 0
        some ((readStage2 stage2Sectors 1 (bootBlock.splice 0 bytes) bootstage2).slice 0 fsBlock)

/-- The first sector, the second stage and zeros. -/
def bootBlockOf (boot bootstage2 : List UInt8) : List UInt8 :=
  boot.take fsSector ++ bootstage2 ++ List.replicate (fsBlock - fsSector - bootstage2.length) 0

/-- The whole sectors of a file. -/
def wholeSectors (file : List UInt8) : List UInt8 := file.take (file.length / fsSector * fsSector)

/-! ## The loop -/

/-- Sectors that are set to 0 one by one. -/
theorem foldl_zeroSector (n i : ℕ) (m : ByteStore) :
    (List.range' i n).foldl zeroSector m = m.fill (i * fsSector) 0 (n * fsSector) := by
  induction n generalizing i m with
  | zero =>
    funext x
    rw [List.range'_zero, List.foldl_nil, ByteStore.fill_of_not_mem (by omega)]
  | succ n ih =>
    rw [List.range'_succ, List.foldl_cons, ih, zeroSector, Nat.add_mul, Nat.one_mul, Nat.add_mul,
      Nat.one_mul]
    funext x
    simp only [ByteStore.fill]
    split_ifs <;> first | omega | rfl

theorem wholeSectors_of_lt {file : List UInt8} (h : file.length < fsSector) :
    wholeSectors file = [] := by
  rw [wholeSectors, Nat.div_eq_of_lt h, Nat.zero_mul, List.take_zero]

/-- The first whole sector, and those of the rest. -/
theorem take_wholeSectors {file : List UInt8} (h : fsSector ≤ file.length) (n : ℕ) :
    (wholeSectors file).take ((n + 1) * fsSector) =
      file.take fsSector ++ (wholeSectors (file.drop fsSector)).take (n * fsSector) := by
  have hdiv : file.length / fsSector = (file.length - fsSector) / fsSector + 1 :=
    Nat.div_eq_sub_div (by decide) h
  have hmin (k : ℕ) : min ((n + 1) * fsSector) ((k + 1) * fsSector) =
      fsSector + min (n * fsSector) (k * fsSector) := by
    rw [Nat.add_mul, Nat.add_mul, Nat.one_mul]
    omega
  rw [wholeSectors, wholeSectors, List.take_take, List.take_take, List.length_drop, hdiv, hmin,
    List.take_add]

/-- **The loop** leaves the whole sectors of the file, as far as there is room for them, in sectors
that have been zeros before. -/
theorem readStage2_eq (n i : ℕ) (m : ByteStore) (file : List UInt8)
    (hzero : ∀ x, i * fsSector ≤ x → m x = 0) :
    readStage2 n i m file =
      m.splice (i * fsSector) ((wholeSectors file).take (n * fsSector)) := by
  induction n generalizing i m file with
  | zero =>
    funext x
    rw [readStage2, Nat.zero_mul, List.take_zero,
      ByteStore.splice_of_not_mem (by rw [List.length_nil]; omega)]
  | succ n ih =>
    rw [readStage2, fread]
    have hnext : i * fsSector + fsSector = (i + 1) * fsSector := by rw [Nat.add_mul, Nat.one_mul]
    by_cases hlen : fsSector ≤ file.length
    · have hsector : (file.take fsSector).length = fsSector := by
        rw [List.length_take]
        omega
      rw [take_wholeSectors hlen, ByteStore.splice_append, hsector, hnext]
      simp only [hlen, if_true, Nat.one_ne_zero, if_false]
      refine ih (i + 1) _ _ fun x hx ↦ ?_
      rw [ByteStore.splice_of_not_mem (by omega)]
      exact hzero x (by omega)
    · -- what has been stored lies in the sector that becomes zeros again
      have hpart : (file.take fsSector).length < fsSector := by
        rw [List.length_take]
        omega
      simp only [hlen, if_true, if_false]
      rw [foldl_zeroSector, zeroSector, wholeSectors_of_lt (by omega), List.take_nil]
      funext x
      rw [ByteStore.splice_of_not_mem (by rw [List.length_nil]; omega)]
      by_cases hrest : (i + 1) * fsSector ≤ x ∧ x < (i + 1) * fsSector + n * fsSector
      · rw [ByteStore.fill_of_mem hrest, hzero x (by omega)]
      · rw [ByteStore.fill_of_not_mem (by omega)]
        by_cases hx : i * fsSector ≤ x ∧ x < i * fsSector + fsSector
        · rw [ByteStore.fill_of_mem hx, hzero x hx.1]
        · rw [ByteStore.fill_of_not_mem (by omega), ByteStore.splice_of_not_mem (by omega)]

/-! ## The block -/

section block

variable {boot bootstage2 : List UInt8}

/-- A list on zeros, and zeros behind it. -/
theorem slice_splice_zero {bs : List UInt8} {n : ℕ} (h : bs.length ≤ n) :
    (ByteStore.splice (fun _ ↦ 0) 0 bs).slice 0 n = bs ++ List.replicate (n - bs.length) 0 := by
  refine ByteStore.slice_eq_iff.mpr ⟨?_, fun x hx ↦ ?_⟩
  · rw [List.length_append, List.length_replicate]
    omega
  · by_cases hbs : x < bs.length
    · have hget := ByteStore.splice_of_mem (m := fun _ ↦ 0) (a := 0) hbs
      rw [Nat.zero_add] at hget
      rw [hget, List.getD_append _ _ _ _ hbs]
    · rw [ByteStore.splice_of_not_mem (by omega), List.getD_append_right _ _ _ _ (by omega),
        List.getD_replicate _ (by omega)]

/-- The block has the whole sectors of the second stage. -/
theorem writeBootBlock_eq (hboot : fsSector ≤ boot.length)
    (hstage2 : bootstage2.length ≤ stage2Sectors * fsSector) :
    writeBootBlock (some boot) (some bootstage2) =
      some (bootBlockOf boot (wholeSectors bootstage2)) := by
  have hfirst : (boot.take fsSector).length = fsSector := by
    rw [List.length_take]
    omega
  have hwhole : (wholeSectors bootstage2).length ≤ stage2Sectors * fsSector := by
    rw [wholeSectors, List.length_take]
    omega
  have hroom : fsSector + stage2Sectors * fsSector ≤ fsBlock := by decide
  rw [writeBootBlock]
  simp only [fread, hboot, if_true, ne_eq, not_true_eq_false, if_false, Option.some.injEq]
  rw [readStage2_eq, List.take_of_length_le hwhole, Nat.one_mul]
  · have happend := ByteStore.splice_append (fun _ ↦ 0) 0 (boot.take fsSector)
      (wholeSectors bootstage2)
    rw [hfirst, Nat.zero_add] at happend
    rw [← happend, slice_splice_zero (by rw [List.length_append]; omega), List.length_append,
      hfirst, bootBlockOf, Nat.sub_sub]
  · intro x hx
    exact ByteStore.splice_of_not_mem (by omega)

/-- Nothing is missing if what is missing is zeros. -/
theorem bootBlockOf_wholeSectors (hstage2 : bootstage2.length ≤ stage2Sectors * fsSector) :
    bootBlockOf boot (wholeSectors bootstage2) = bootBlockOf boot bootstage2 ↔
      ∀ b ∈ bootstage2.drop (bootstage2.length / fsSector * fsSector), b = 0 := by
  have hroom : stage2Sectors * fsSector ≤ fsBlock - fsSector := by decide
  have hle := Nat.div_mul_le_self bootstage2.length fsSector
  have hwhole : (wholeSectors bootstage2).length = bootstage2.length / fsSector * fsSector := by
    rw [wholeSectors, List.length_take, Nat.min_eq_left hle]
  have hsplit : bootBlockOf boot bootstage2 = boot.take fsSector ++ (wholeSectors bootstage2 ++
      (bootstage2.drop (bootstage2.length / fsSector * fsSector) ++
        List.replicate (fsBlock - fsSector - bootstage2.length) 0)) := by
    rw [bootBlockOf, wholeSectors, ← List.append_assoc (bootstage2.take _), List.take_append_drop,
      List.append_assoc]
  rw [hsplit, bootBlockOf, List.append_assoc, List.append_cancel_left_eq,
    List.append_cancel_left_eq, hwhole, List.replicate_eq_append_iff]
  constructor
  · rintro ⟨-, hzero, -⟩
    exact (List.eq_replicate_iff.mp hzero).2
  · intro hzero
    refine ⟨?_, List.eq_replicate_iff.mpr ⟨rfl, hzero⟩, ?_⟩
    · rw [List.length_drop, List.length_replicate]
      omega
    · rw [List.length_replicate]

/-- **The boot block** has the first sector of `boot.bin` and all of the second stage exactly if
there is nothing but zeros behind the last whole sector of the second stage. -/
theorem bootBlock_iff (hboot : fsSector ≤ boot.length)
    (hstage2 : bootstage2.length ≤ stage2Sectors * fsSector) :
    writeBootBlock (some boot) (some bootstage2) = some (bootBlockOf boot bootstage2) ↔
      ∀ b ∈ bootstage2.drop (bootstage2.length / fsSector * fsSector), b = 0 := by
  rw [writeBootBlock_eq hboot hstage2, Option.some.injEq, bootBlockOf_wholeSectors hstage2]

/-- A second stage of three bytes, all of them 0. -/
theorem bootBlock_zeros : writeBootBlock (some (List.replicate 512 1)) (some [0, 0, 0]) =
    some (bootBlockOf (List.replicate 512 1) [0, 0, 0]) :=
  (bootBlock_iff (by rw [List.length_replicate]; exact Nat.le_refl 512) (by decide)).mpr
    fun b hb ↦ List.eq_of_mem_replicate (show b ∈ List.replicate 3 0 from hb)

/-- A second stage of one byte, which is lost. -/
theorem not_bootBlock_byte : writeBootBlock (some (List.replicate 512 1)) (some [1]) ≠
    some (bootBlockOf (List.replicate 512 1) [1]) := by
  have hlen : fsSector ≤ (List.replicate 512 (1 : UInt8)).length := by
    rw [List.length_replicate]
    exact Nat.le_refl 512
  rw [writeBootBlock_eq hlen (by decide), ne_eq, Option.some.injEq,
    bootBlockOf_wholeSectors (by decide)]
  exact fun h ↦ absurd (h 1 (List.mem_singleton_self 1)) (by decide)

end block

end AbOS
