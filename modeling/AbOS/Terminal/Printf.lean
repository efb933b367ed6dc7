import AbOS.Lib.Numeral
import AbOS.Lib.X86
import Mathlib.Data.List.GetD

/-!
# Printing numbers

`kprintf` prints a number with `printf_number`: it reads the argument, makes a negative one
positive, and divides it by the base, as 64 bits, until nothing is left.  The division takes two
`DIV` instructions, for the high and the low half; the first remainder is the high half of the
second dividend.

The digits are those of the numeral (`printfNumber_eq`).  What is printed is the numeral of the
argument, except for the `int` and `long` that is its own negation: it stays negative and is widened
with its sign (`printsExactly_iff`).

`int` and `long` have 32 bits, and `long long` has 64.
-/

set_option autoImplicit false

namespace AbOS

/-- The length modifiers: none, `hh`, `h`, `l` and `ll`. -/
inductive PrintfLength where
  | default
  | shortShort
  | short
  | long
  | longLong
  deriving DecidableEq, Repr

/-- The conversions of numbers. -/
inductive Conversion where
  | d
  | i
  | u
  | x
  | X
  | p
  | o
  deriving DecidableEq, Repr

namespace Conversion

/-- `sign`, as `kprintf` sets it. -/
def sign : Conversion → Bool
  | d | i => true
  | u | x | X | p | o => false

/-- `base10`. -/
def base10 : Conversion → BitVec 32
  | d | i | u => 10
  | x | X | p => 16
  | o => 8

end Conversion

/-- `va_list`: the words of the stack, and which one is next. -/
structure VaList where
  words : ℕ → BitVec 32
  next : ℕ

namespace VaList

/-- `va_arg` of an `int` or a `long`. -/
def arg32 (args : VaList) : BitVec 32 × VaList :=
  (args.words args.next, { args with next := args.next + 1 })

/-- `va_arg` of a `long long`. -/
def arg64 (args : VaList) : BitVec 64 × VaList :=
  (args.words (args.next + 1) ++ args.words args.next, { args with next := args.next + 2 })

end VaList

/-- `g_HexChars`, which is `0123456789abcdef`. -/
def gHexChars : List UInt8 :=
  [0x30, 0x31, 0x32, 0x33, 0x34, 0x35, 0x36, 0x37, 0x38, 0x39, 0x61, 0x62, 0x63, 0x64, 0x65, 0x66]

/-! ## Division -/

/-- `_x86_div64_32`: the quotient and the remainder. -/
def x86Div64_32 (dividend : BitVec 64) (divisor : BitVec 32) : Option (BitVec 64 × BitVec 32) :=
  match X86.divide 0 (dividend.extractLsb' 32 32) divisor with
  | none => none
  | some (ebx, edx) =>
    match X86.divide edx (dividend.extractLsb' 0 32) divisor with
    | none => none
    | some (eax, edx) => some (ebx ++ eax, edx)

/-! ## `printf_number` -/

/-- The argument as an `int` or a `long`: `number` and `number_sign`.  The smallest `int` is its own
negation. -/
def number32 (n : BitVec 32) (sign : Bool) : BitVec 64 × ℤ :=
  if sign then
    if n.slt 0 then ((-n).signExtend 64, -1) else (n.signExtend 64, 1)
  else (n.setWidth 64, 1)

/-- The argument as a `long long`. -/
def number64 (n : BitVec 64) (sign : Bool) : BitVec 64 × ℤ :=
  if sign then
    if n.slt 0 then (-n, -1) else (n, 1)
  else (n, 1)

/-- The `switch` over the length. -/
def loadNumber (args : VaList) (length : PrintfLength) (sign : Bool) : (BitVec 64 × ℤ) × VaList :=
  match length with
  | .shortShort | .short | .default => (number32 args.arg32.1 sign, args.arg32.2)
  | .long => (number32 args.arg32.1 sign, args.arg32.2)
  | .longLong => (number64 args.arg64.1 sign, args.arg64.2)

/-- The `do` loop; `buffer` is what has been stored into the array so far, from its start on. -/
def digitLoop (base10 : BitVec 32) : ℕ → BitVec 64 → List UInt8 → Option (List UInt8)
  | 0, _, _ => none
  | fuel + 1, number, buffer =>
    match x86Div64_32 number base10 with
    | none => none
    | some (number, rem) =>
      let buffer := buffer ++ [gHexChars.getD rem.toNat 0]
      if 0 < number.toNat then digitLoop base10 fuel number buffer else some buffer

/-- The last loop: what is printed when `pos` characters are left. -/
def putcBuffer (buffer : List UInt8) : ℕ → List UInt8
  | 0 => []
  | pos + 1 => buffer.getD pos 0 :: putcBuffer buffer pos

/-- What `printf_number` leaves: the characters it has printed and those it has stored, and the
`va_list`. -/
structure PrintedNumber where
  output : List UInt8
  stored : List UInt8
  args : VaList

/-- `printf_number`; the fuel is for its loop. -/
def printfNumber (fuel : ℕ) (args : VaList) (length : PrintfLength) (sign : Bool)
    (base10 : BitVec 32) : Option PrintedNumber :=
  let ((number, numberSign), args) := loadNumber args length sign
  match digitLoop base10 fuel number [] with
  | none => none
  | some buffer =>
    let buffer := if sign ∧ numberSign < 0 then buffer ++ [0x2D] else buffer
    some ⟨putcBuffer buffer buffer.length, buffer, args⟩

/-! ## What is expected -/

/-- The value of the argument. -/
def argValue (args : VaList) (length : PrintfLength) (sign : Bool) : ℤ :=
  match length with
  | .longLong => if sign then args.arg64.1.toInt else args.arg64.1.toNat
  | _ => if sign then args.arg32.1.toInt else args.arg32.1.toNat

/-- The size of the array. -/
def bufferSize : ℕ := 32

/-- The loop ends, the numeral of the argument is printed, and everything has been stored in the
array. -/
def PrintsExactly (args : VaList) (length : PrintfLength) (conversion : Conversion) : Prop :=
  ∀ fuel, 64 ≤ fuel → ∃ r,
    printfNumber fuel args length conversion.sign conversion.base10 = some r ∧
      r.output = Numeral.integer conversion.base10.toNat (argValue args length conversion.sign) ∧
      r.stored.length ≤ bufferSize

/-! ## The division -/

/-- **The division by two `DIV` instructions** is that of the 64 bits. -/
theorem x86Div64_32_eq (dividend : BitVec 64) {divisor : BitVec 32} (h : 0 < divisor.toNat) :
    ∃ q r, x86Div64_32 dividend divisor = some (q, r) ∧
      q.toNat = dividend.toNat / divisor.toNat ∧ r.toNat = dividend.toNat % divisor.toNat := by
  have hhigh : (dividend.extractLsb' 32 32).toNat = dividend.toNat / 2 ^ 32 := by
    rw [BitVec.extractLsb'_toNat, Nat.shiftRight_eq_div_pow]
    have := dividend.isLt
    omega
  have hlow : (dividend.extractLsb' 0 32).toNat = dividend.toNat % 2 ^ 32 := by
    rw [BitVec.extractLsb'_toNat, Nat.shiftRight_zero]
  obtain ⟨ebx, edx, hdiv, hebx, hedx⟩ :=
    X86.divide_eq 0 (dividend.extractLsb' 32 32) divisor h
  have hzero : (0 : BitVec 32).toNat = 0 := rfl
  rw [hzero, Nat.mul_zero, Nat.zero_add, hhigh] at hebx hedx
  have hrem : edx.toNat < divisor.toNat := by
    rw [hedx]
    exact Nat.mod_lt _ h
  obtain ⟨eax, edx', hdiv', heax, hedx'⟩ :=
    X86.divide_eq edx (dividend.extractLsb' 0 32) divisor hrem
  rw [hedx, hlow] at heax hedx'
  -- the dividend of the second division is what the first one has left
  have hsplit : dividend.toNat =
      2 ^ 32 * (dividend.toNat / 2 ^ 32 % divisor.toNat) + dividend.toNat % 2 ^ 32 +
        divisor.toNat * (2 ^ 32 * (dividend.toNat / 2 ^ 32 / divisor.toNat)) := by
    have hhalves := Nat.div_add_mod dividend.toNat (2 ^ 32)
    have hfirst := Nat.mod_add_div (dividend.toNat / 2 ^ 32) divisor.toNat
    calc dividend.toNat
      _ = 2 ^ 32 * (dividend.toNat / 2 ^ 32) + dividend.toNat % 2 ^ 32 := hhalves.symm
      _ = 2 ^ 32 * (dividend.toNat / 2 ^ 32 % divisor.toNat +
            divisor.toNat * (dividend.toNat / 2 ^ 32 / divisor.toNat)) +
          dividend.toNat % 2 ^ 32 := by rw [hfirst]
      _ = _ := by ring
  refine ⟨ebx ++ eax, edx', ?_, ?_, ?_⟩
  · rw [x86Div64_32, hdiv]
    dsimp only
    rw [hdiv']
  · rw [X86.toNat_append32, hebx, heax]
    conv_rhs => rw [hsplit]
    rw [Nat.add_mul_div_left _ _ h, Nat.add_comm]
  · rw [hedx']
    conv_rhs => rw [hsplit]
    rw [Nat.add_mul_mod_self_left]

/-! ## The loops -/

theorem getD_gHexChars : ∀ r < 16, gHexChars.getD r 0 = Numeral.digitChar r := by decide

/-- **The digits** come out from the last one on. -/
theorem digitLoop_eq {base10 : BitVec 32} (hbase : 1 < base10.toNat) (hle : base10.toNat ≤ 16)
    {fuel : ℕ} (hfuel : 0 < fuel) {number : BitVec 64} (hlt : number.toNat < 2 ^ fuel)
    (buffer : List UInt8) :
    digitLoop base10 fuel number buffer = some (buffer ++
      (Numeral.digits base10.toNat number.toNat).map Numeral.digitChar) := by
  induction fuel generalizing number buffer with
  | zero => exact absurd hfuel (Nat.lt_irrefl 0)
  | succ fuel ih =>
    obtain ⟨q, r, hdiv, hq, hr⟩ := x86Div64_32_eq number (Nat.zero_lt_of_lt hbase)
    have hdigit : gHexChars.getD r.toNat 0 =
        Numeral.digitChar (number.toNat % base10.toNat) := by
      rw [hr]
      exact getD_gHexChars _ (Nat.lt_of_lt_of_le (Nat.mod_lt _ (Nat.zero_lt_of_lt hbase)) hle)
    rw [digitLoop, hdiv, Numeral.digits_eq hbase]
    dsimp only
    rw [hdigit, hq]
    by_cases hzero : number.toNat / base10.toNat = 0
    · rw [if_neg (by omega), if_pos hzero]
      rfl
    · have hhalf : q.toNat < 2 ^ fuel := by
        rw [hq]
        refine Nat.div_lt_of_lt_mul (Nat.lt_of_lt_of_le hlt ?_)
        rw [Nat.pow_succ, Nat.mul_comm]
        exact Nat.mul_le_mul_right _ hbase
      have hpos : 0 < fuel := by
        rcases Nat.eq_zero_or_pos fuel with h | h
        · rw [h, hq] at hhalf
          omega
        · exact h
      rw [if_pos (by omega), if_neg hzero, ih hpos hhalf, hq, List.map_cons, List.append_assoc]
      rfl

/-- The last loop prints the buffer backwards. -/
theorem putcBuffer_eq (buffer : List UInt8) {pos : ℕ} (h : pos ≤ buffer.length) :
    putcBuffer buffer pos = (buffer.take pos).reverse := by
  induction pos with
  | zero => rfl
  | succ pos ih =>
    rw [putcBuffer, ih (by omega), List.take_succ_eq_append_getElem (by omega), List.reverse_append,
      List.getD_eq_getElem _ _ (by omega)]
    rfl

/-- **What `printf_number` prints**: the numeral of `number`, with a minus sign if it has been
negated. -/
theorem printfNumber_eq (args : VaList) (length : PrintfLength) (sign : Bool) {base10 : BitVec 32}
    (hbase : 1 < base10.toNat) (hle : base10.toNat ≤ 16) {fuel : ℕ} (hfuel : 64 ≤ fuel) :
    ∃ r, printfNumber fuel args length sign base10 = some r ∧ r.stored = r.output.reverse ∧
      r.output =
        (if sign = true ∧ (loadNumber args length sign).1.2 < 0 then [Numeral.minus] else []) ++
          Numeral.natural base10.toNat (loadNumber args length sign).1.1.toNat := by
  rw [printfNumber]
  rcases loadNumber args length sign with ⟨⟨number, numberSign⟩, args'⟩
  dsimp only
  have hlt : number.toNat < 2 ^ fuel :=
    Nat.lt_of_lt_of_le number.isLt (Nat.pow_le_pow_right (by decide) hfuel)
  rw [digitLoop_eq hbase hle (Nat.lt_of_lt_of_le (by decide) hfuel) hlt, List.nil_append]
  dsimp only
  rw [putcBuffer_eq _ (Nat.le_refl _), List.take_length]
  refine ⟨_, rfl, List.reverse_reverse _ |>.symm, ?_⟩
  dsimp only
  split
  · rw [List.reverse_append]
    rfl
  · rfl

/-! ## The argument -/

theorem toNat_signExtend_of_lt {n : BitVec 32} (h : n.toNat < 2 ^ 31) :
    (n.signExtend 64).toNat = n.toNat := by
  have hmsb : n.msb = false := by
    rw [BitVec.msb_eq_decide]
    exact decide_eq_false (Nat.not_le.mpr h)
  rw [BitVec.toNat_signExtend, hmsb, BitVec.toNat_setWidth]
  exact Nat.mod_eq_of_lt (h.trans (by decide))

/-- An argument of 32 bits: its absolute value, and whether it was negative. -/
theorem number32_of_ne {n : BitVec 32} {sign : Bool}
    (h : ¬ (sign = true ∧ n = BitVec.intMin 32)) :
    (number32 n sign).1.toNat = (if sign then n.toInt else n.toNat).natAbs ∧
      (sign = true ∧ (number32 n sign).2 < 0 ↔ (if sign then n.toInt else (n.toNat : ℤ)) < 0) := by
  have hlt := n.isLt
  rw [number32]
  cases sign with
  | false =>
    simp only [Bool.false_eq_true, if_false, false_and, false_iff]
    refine ⟨?_, by omega⟩
    rw [BitVec.toNat_setWidth, Int.natAbs_natCast]
    exact Nat.mod_eq_of_lt (hlt.trans (by decide))
  | true =>
    have hne : n.toNat ≠ 2 ^ 31 := fun he ↦ h ⟨rfl, BitVec.eq_of_toNat_eq he⟩
    have hint := BitVec.toInt_eq_toNat_cond n
    have hslt : n.slt 0 = true ↔ n.toInt < 0 := BitVec.slt_iff_toInt_lt
    simp only [if_true, true_and]
    by_cases hneg : n.slt 0 = true
    · have hvalue := hslt.mp hneg
      have hlarge : 2 ^ 31 < n.toNat := by
        split at hint <;> omega
      rw [if_pos hneg]
      have hnat : (-n).toNat = 2 ^ 32 - n.toNat := by
        rw [BitVec.toNat_neg]
        exact Nat.mod_eq_of_lt (by omega)
      refine ⟨?_, iff_of_true (show (-1 : ℤ) < 0 by decide) hvalue⟩
      rw [toNat_signExtend_of_lt (by omega), hnat]
      split at hint <;> omega
    · have hvalue := mt hslt.mpr hneg
      have hsmall : n.toNat < 2 ^ 31 := by
        split at hint <;> omega
      rw [if_neg hneg]
      refine ⟨?_, iff_of_false (show ¬ (1 : ℤ) < 0 by decide) hvalue⟩
      rw [toNat_signExtend_of_lt hsmall]
      split at hint <;> omega

/-- An argument of 64 bits: as 64 bits the smallest one is its own absolute value. -/
theorem number64_eq (n : BitVec 64) (sign : Bool) :
    (number64 n sign).1.toNat = (if sign then n.toInt else n.toNat).natAbs ∧
      (sign = true ∧ (number64 n sign).2 < 0 ↔ (if sign then n.toInt else (n.toNat : ℤ)) < 0) := by
  have hlt := n.isLt
  rw [number64]
  cases sign with
  | false =>
    simp only [Bool.false_eq_true, if_false, false_and, false_iff]
    exact ⟨(Int.natAbs_natCast _).symm, by omega⟩
  | true =>
    have hint := BitVec.toInt_eq_toNat_cond n
    have hslt : n.slt 0 = true ↔ n.toInt < 0 := BitVec.slt_iff_toInt_lt
    simp only [if_true, true_and]
    by_cases hneg : n.slt 0 = true
    · have hvalue := hslt.mp hneg
      rw [if_pos hneg]
      have hnat : (-n).toNat = 2 ^ 64 - n.toNat := by
        rw [BitVec.toNat_neg]
        refine Nat.mod_eq_of_lt ?_
        split at hint <;> omega
      refine ⟨?_, iff_of_true (show (-1 : ℤ) < 0 by decide) hvalue⟩
      rw [hnat]
      split at hint <;> omega
    · have hvalue := mt hslt.mpr hneg
      rw [if_neg hneg]
      refine ⟨?_, iff_of_false (show ¬ (1 : ℤ) < 0 by decide) hvalue⟩
      show n.toNat = n.toInt.natAbs
      split at hint <;> omega

/-- The smallest `int` and `long`. -/
def IsSmallest (args : VaList) (length : PrintfLength) (sign : Bool) : Prop :=
  sign = true ∧ length ≠ .longLong ∧ args.arg32.1 = BitVec.intMin 32

/-- What is loaded is the absolute value of the argument, and whether it was negative. -/
theorem loadNumber_of_not_smallest {args : VaList} {length : PrintfLength} {sign : Bool}
    (h : ¬ IsSmallest args length sign) :
    (loadNumber args length sign).1.1.toNat = (argValue args length sign).natAbs ∧
      (sign = true ∧ (loadNumber args length sign).1.2 < 0 ↔ argValue args length sign < 0) := by
  cases length with
  | longLong => exact number64_eq args.arg64.1 sign
  | default => exact number32_of_ne fun hn ↦ h ⟨hn.1, by decide, hn.2⟩
  | shortShort => exact number32_of_ne fun hn ↦ h ⟨hn.1, by decide, hn.2⟩
  | short => exact number32_of_ne fun hn ↦ h ⟨hn.1, by decide, hn.2⟩
  | long => exact number32_of_ne fun hn ↦ h ⟨hn.1, by decide, hn.2⟩

/-- The smallest one is widened with its sign. -/
theorem loadNumber_of_smallest {args : VaList} {length : PrintfLength} {sign : Bool}
    (h : IsSmallest args length sign) :
    (loadNumber args length sign).1 = (BitVec.ofNat 64 (2 ^ 64 - 2 ^ 31), -1) ∧
      argValue args length sign = -2 ^ 31 := by
  obtain ⟨rfl, hlength, harg⟩ := h
  have hload : number32 args.arg32.1 true = (BitVec.ofNat 64 (2 ^ 64 - 2 ^ 31), -1) := by
    rw [harg]
    decide
  have hvalue : args.arg32.1.toInt = -2 ^ 31 := by
    rw [harg]
    decide
  cases length with
  | longLong => exact absurd rfl hlength
  | default | shortShort | short | long => exact ⟨hload, hvalue⟩

/-! ## The numeral -/

theorem Conversion.base10_bounds (conversion : Conversion) :
    8 ≤ conversion.base10.toNat ∧ conversion.base10.toNat ≤ 16 := by
  cases conversion <;> decide

/-- 22 octal digits and a sign. -/
theorem length_natural_le {b : ℕ} (hb : 8 ≤ b) (number : BitVec 64) :
    (Numeral.natural b number.toNat).length ≤ 22 := by
  rw [Numeral.natural, List.length_reverse, List.length_map]
  refine Numeral.length_digits_le (by omega) (by decide) (Nat.lt_of_lt_of_le number.isLt ?_)
  exact Nat.le_trans (by decide) (Nat.pow_le_pow_left hb 22)

/-- The sign and the digits of the absolute value. -/
theorem integer_eq {b : ℕ} {number : BitVec 64 × ℤ} {sign : Bool} {v : ℤ}
    (hnumber : number.1.toNat = v.natAbs) (hsign : sign = true ∧ number.2 < 0 ↔ v < 0) :
    (if sign = true ∧ number.2 < 0 then [Numeral.minus] else []) ++
      Numeral.natural b number.1.toNat = Numeral.integer b v := by
  rw [hnumber, Numeral.integer]
  by_cases hneg : v < 0
  · rw [if_pos (hsign.mpr hneg), if_pos hneg]
    rfl
  · rw [if_neg (mt hsign.mp hneg), if_neg hneg]
    rfl

/-- The smallest `int` is printed as the number that has its bits behind 32 ones. -/
theorem not_printsExactly {args : VaList} {length : PrintfLength} {conversion : Conversion}
    (h : IsSmallest args length conversion.sign) : ¬ PrintsExactly args length conversion := by
  obtain ⟨hbase, hle⟩ := conversion.base10_bounds
  have hbase' : 1 < conversion.base10.toNat := by omega
  intro hexact
  obtain ⟨r, hr, houtput, -⟩ := hexact 64 (Nat.le_refl 64)
  obtain ⟨r', hr', -, houtput'⟩ :=
    printfNumber_eq args length conversion.sign hbase' hle (Nat.le_refl 64)
  rw [hr, Option.some.injEq] at hr'
  obtain ⟨hload, hvalue⟩ := loadNumber_of_smallest h
  rw [← hr', houtput, hload, hvalue, Numeral.integer, if_pos (by decide),
    if_pos ⟨h.1, by decide⟩, List.cons_append, List.nil_append, List.cons.injEq] at houtput'
  exact absurd (Numeral.natural_inj hbase' hle houtput'.2) (by decide)

/-- **Numbers are printed exactly**, unless the argument is the smallest `int` or `long` and is
printed with a sign. -/
theorem printsExactly_iff (args : VaList) (length : PrintfLength) (conversion : Conversion) :
    PrintsExactly args length conversion ↔ ¬ IsSmallest args length conversion.sign := by
  refine ⟨fun hexact hsmallest ↦ not_printsExactly hsmallest hexact, fun h fuel hfuel ↦ ?_⟩
  obtain ⟨hbase, hle⟩ := conversion.base10_bounds
  obtain ⟨r, hr, hstored, houtput⟩ :=
    printfNumber_eq args length conversion.sign (Nat.lt_of_lt_of_le (by decide) hbase) hle hfuel
  obtain ⟨hnumber, hsign⟩ := loadNumber_of_not_smallest h
  have hlength := length_natural_le hbase (loadNumber args length conversion.sign).1.1
  refine ⟨r, hr, ?_, ?_⟩
  · rw [houtput, integer_eq hnumber hsign]
  · have hminus : (if conversion.sign = true ∧ (loadNumber args length conversion.sign).1.2 < 0 then
        [Numeral.minus] else []).length ≤ 1 := by
      split <;> decide
    rw [hstored, List.length_reverse, houtput, List.length_append, bufferSize]
    omega

/-- `%d` of the smallest `int`. -/
theorem not_printsExactly_intMin : ¬ PrintsExactly ⟨fun _ ↦ 0x80000000, 0⟩ .default .d :=
  not_printsExactly ⟨rfl, by decide, rfl⟩

end AbOS
