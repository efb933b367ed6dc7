import Mathlib.Data.Nat.Digits.Lemmas

/-!
# Numerals

The canonical numeral of a number in a base up to 16: its digits without leading zeros, `0` for
zero, and a minus sign in front of the numeral of a negative one.
-/

set_option autoImplicit false

namespace Numeral

/-- The digits of `n`, the last one of the numeral first. -/
def digits (b n : ℕ) : List ℕ := if n = 0 then [0] else Nat.digits b n

/-- The character of a digit. -/
def digitChar (d : ℕ) : UInt8 := if d < 10 then UInt8.ofNat (0x30 + d) else UInt8.ofNat (0x57 + d)

/-- The digit of a character. -/
def digitVal (c : UInt8) : ℕ := if c.toNat < 0x3A then c.toNat - 0x30 else c.toNat - 0x57

/-- The numeral of a natural number. -/
def natural (b n : ℕ) : List UInt8 := ((digits b n).map digitChar).reverse

/-- `-`. -/
def minus : UInt8 := 0x2D

/-- The numeral of an integer. -/
def integer (b : ℕ) (v : ℤ) : List UInt8 :=
  if v < 0 then minus :: natural b v.natAbs else natural b v.natAbs

variable {b n k : ℕ}

/-- The last digit, and those of the rest if there is one. -/
theorem digits_eq (hb : 1 < b) (n : ℕ) :
    digits b n = n % b :: if n / b = 0 then [] else digits b (n / b) := by
  rw [digits]
  split
  · rename_i hn
    rw [hn, Nat.zero_mod, Nat.zero_div, if_pos rfl]
  · rename_i hn
    rw [Nat.digits_def' hb (Nat.pos_of_ne_zero hn)]
    split
    · rename_i hdiv
      rw [hdiv, Nat.digits_zero]
    · rename_i hdiv
      rw [digits, if_neg hdiv]

theorem lt_of_mem_digits (hb : 1 < b) {d : ℕ} (hd : d ∈ digits b n) : d < b := by
  rw [digits] at hd
  split at hd
  · rw [List.mem_singleton.mp hd]
    omega
  · exact Nat.digits_lt_base hb hd

theorem length_digits_le (hb : 1 < b) (hk : 0 < k) (hn : n < b ^ k) : (digits b n).length ≤ k := by
  rw [digits]
  split
  · exact hk
  · exact (Nat.digits_length_le_iff hb n).mpr hn

theorem ofDigits_digits (b n : ℕ) : Nat.ofDigits b (digits b n) = n := by
  rw [digits]
  split
  · rename_i hn
    rw [hn, Nat.ofDigits_singleton]
  · exact Nat.ofDigits_digits b n

theorem digitVal_digitChar : ∀ d < 16, digitVal (digitChar d) = d := by decide

/-- A numeral reads back as its number. -/
theorem ofDigits_natural (hb : 1 < b) (hle : b ≤ 16) (n : ℕ) :
    Nat.ofDigits b ((natural b n).reverse.map digitVal) = n := by
  have hdigits : ((digits b n).map digitChar).map digitVal = digits b n := by
    have hid : ∀ d ∈ digits b n, (digitVal ∘ digitChar) d = id d := fun d hd ↦
      digitVal_digitChar d (Nat.lt_of_lt_of_le (lt_of_mem_digits hb hd) hle)
    rw [List.map_map, List.map_congr_left hid, List.map_id]
  rw [natural, List.reverse_reverse, hdigits, ofDigits_digits]

/-- Different numbers have different numerals. -/
theorem natural_inj (hb : 1 < b) (hle : b ≤ 16) {m : ℕ} (h : natural b m = natural b n) :
    m = n := by
  rw [← ofDigits_natural hb hle m, h, ofDigits_natural hb hle]

end Numeral
