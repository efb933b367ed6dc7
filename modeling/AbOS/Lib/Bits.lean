import AbOS.Lib.ByteStore

/-!
# The bits of a byte store

A bitmap is a byte store read bit by bit: `bit m x` counts from the least significant bit of the
byte at 0.  This is the order of the bits of little-endian numbers, so a word of any size shows the
bits from its address on (`testBit_ofLe_slice`), and storing one puts its bits there
(`bit_splice_leBytes`).

A search for the first index with a property may go chunk by chunk (`IsFirst.chunks`).
-/

set_option autoImplicit false

namespace ByteStore

/-- The bit with the number `x`. -/
def bit (m : ByteStore) (x : ℕ) : Bool := (m (x / 8)).toNat.testBit (x % 8)

/-- A byte store is known by its bits. -/
theorem ext_bit {m m' : ByteStore} (h : ∀ x, m.bit x = m'.bit x) : m = m' := by
  funext a
  apply UInt8.toNat_inj.mp
  apply Nat.eq_of_testBit_eq
  intro j
  by_cases hj : j < 8
  · have hx := h (8 * a + j)
    rw [bit, bit, show (8 * a + j) / 8 = a by omega, show (8 * a + j) % 8 = j by omega] at hx
    exact hx
  · have hpow : 2 ^ 8 ≤ 2 ^ j := Nat.pow_le_pow_right (by decide) (by omega)
    rw [Nat.testBit_lt_two_pow (Nat.lt_of_lt_of_le (m a).toNat_lt hpow),
      Nat.testBit_lt_two_pow (Nat.lt_of_lt_of_le (m' a).toNat_lt hpow)]

/-- Bit `k` of a little-endian number is bit `k % 8` of its byte `k / 8`. -/
theorem testBit_ofLe (bs : List UInt8) (k : ℕ) :
    (ofLe bs).testBit k = (bs.getD (k / 8) 0).toNat.testBit (k % 8) := by
  induction bs generalizing k with
  | nil => rw [ofLe, List.getD_nil]; simp
  | cons b bs ih =>
    rw [ofLe, Nat.add_comm, show 256 = 2 ^ 8 from rfl, Nat.testBit_two_pow_mul_add _ b.toNat_lt]
    split
    · rw [Nat.div_eq_of_lt ‹_›, List.getD_cons_zero, Nat.mod_eq_of_lt ‹_›]
    · rw [ih, show k / 8 = (k - 8) / 8 + 1 by omega, List.getD_cons_succ,
        show (k - 8) % 8 = k % 8 by omega]

theorem testBit_ofLe_slice {m : ByteStore} {a n k : ℕ} (hk : k < 8 * n) :
    (ofLe (m.slice a n)).testBit k = m.bit (8 * a + k) := by
  rw [testBit_ofLe, getD_slice _ _ _ _ (by omega), bit, show (8 * a + k) / 8 = a + k / 8 by omega,
    show (8 * a + k) % 8 = k % 8 by omega]

theorem testBit_readWord {m : ByteStore} {a k : ℕ} (hk : k < 32) :
    (m.readWord a).testBit k = m.bit (8 * a + k) := testBit_ofLe_slice hk

theorem getD_leBytes {n v i : ℕ} (hi : i < n) :
    (leBytes n v).getD i 0 = UInt8.ofNat (v / 256 ^ i) := by
  induction n generalizing v i with
  | zero => exact absurd hi (Nat.not_lt_zero i)
  | succ n ih =>
    rw [leBytes]
    cases i with
    | zero => rw [List.getD_cons_zero, Nat.pow_zero, Nat.div_one]
    | succ i =>
      rw [List.getD_cons_succ, ih (by omega), Nat.div_div_eq_div_mul, Nat.pow_succ,
        Nat.mul_comm 256]

/-- The stored number shows its bits, and all other bits stay as they are. -/
theorem bit_splice_leBytes (m : ByteStore) (a n v x : ℕ) :
    (m.splice a (leBytes n v)).bit x =
      if 8 * a ≤ x ∧ x < 8 * (a + n) then v.testBit (x - 8 * a) else m.bit x := by
  split
  · obtain ⟨k, rfl⟩ : ∃ k, x = 8 * a + k := ⟨x - 8 * a, by omega⟩
    rw [bit, show (8 * a + k) / 8 = a + k / 8 by omega, show (8 * a + k) % 8 = k % 8 by omega,
      splice_of_mem (by rw [length_leBytes]; omega), getD_leBytes (by omega), Nat.add_sub_cancel_left,
      UInt8.toNat_ofNat', show 256 = 2 ^ 8 from rfl, ← Nat.pow_mul, Nat.testBit_mod_two_pow,
      decide_eq_true (Nat.mod_lt k (by decide)), Bool.true_and, Nat.testBit_div_two_pow,
      Nat.mod_add_div]
  · rw [bit, splice_of_not_mem (by rw [length_leBytes]; omega), bit]

end ByteStore

/-! ## The first index -/

/-- The first index below `n` with the property, if there is one. -/
structure IsFirst (p : ℕ → Prop) (n : ℕ) (o : Option ℕ) : Prop where
  found : ∀ k, o = some k → k < n ∧ p k ∧ ∀ l < k, ¬ p l
  absent : o = none → ∀ k < n, ¬ p k

namespace IsFirst

variable {p q : ℕ → Prop} {n : ℕ} {o : Option ℕ}

theorem find? (p : ℕ → Bool) (n : ℕ) :
    IsFirst (fun k ↦ p k = true) n ((List.range n).find? p) := by
  constructor
  · intro k h
    obtain ⟨hp, hk, hmin⟩ := List.find?_range_eq_some.mp h
    refine ⟨List.mem_range.mp hk, hp, fun l hl hpl ↦ ?_⟩
    have hnone := hmin l hl
    rw [hpl] at hnone
    exact Bool.false_ne_true hnone
  · intro h k hk hp
    have hnone := List.find?_range_eq_none.mp h k hk
    rw [hp] at hnone
    exact Bool.false_ne_true hnone

theorem congr (h : IsFirst p n o) (hpq : ∀ k < n, (p k ↔ q k)) : IsFirst q n o := by
  refine ⟨fun k ho ↦ ?_, fun ho k hk hq ↦ h.absent ho k hk ((hpq k hk).mpr hq)⟩
  obtain ⟨hk, hp, hmin⟩ := h.found k ho
  exact ⟨hk, (hpq k hk).mp hp, fun l hl hq ↦ hmin l hl ((hpq l (by omega)).mpr hq)⟩

/-- There is no first index exactly if there is none at all. -/
theorem eq_none_iff (h : IsFirst p n o) : o = none ↔ ∀ k < n, ¬ p k := by
  refine ⟨h.absent, fun hall ↦ ?_⟩
  cases o with
  | none => rfl
  | some k =>
    obtain ⟨hk, hp, -⟩ := h.found k rfl
    exact absurd hp (hall k hk)

theorem eq_some (h : IsFirst p n o) {k : ℕ} (hk : k < n) (hp : p k) (hmin : ∀ l < k, ¬ p l) :
    o = some k := by
  cases o with
  | none => exact absurd hp (h.absent rfl k hk)
  | some l =>
    obtain ⟨-, hl, hminl⟩ := h.found l rfl
    rcases Nat.lt_trichotomy k l with hlt | rfl | hgt
    · exact absurd hp (hminl k hlt)
    · rfl
    · exact absurd hl (hmin l hgt)

/-- **Search by chunks**: the first hit in the first of `n` chunks of width `w` that has one. -/
theorem chunks {w : ℕ} {f : ℕ → Option ℕ} (hf : ∀ i, IsFirst (fun k ↦ p (i * w + k)) w (f i)) :
    IsFirst p (n * w) ((List.range n).findSome? fun i ↦ (f i).map fun k ↦ i * w + k) := by
  induction n with
  | zero => exact ⟨fun _ h ↦ (by cases h), fun _ k hk ↦ absurd hk (by omega)⟩
  | succ n ih =>
    rw [List.range_succ, List.findSome?_append]
    constructor
    · intro k h
      rcases Option.or_eq_some_iff.mp h with hrange | ⟨hrange, hlast⟩
      · obtain ⟨hk, hrest⟩ := ih.found k hrange
        exact ⟨Nat.lt_of_lt_of_le hk (Nat.mul_le_mul_right w (by omega)), hrest⟩
      · rw [List.findSome?_singleton] at hlast
        obtain ⟨k, hn, rfl⟩ := Option.map_eq_some_iff.mp hlast
        obtain ⟨hk, hp, hmin⟩ := (hf n).found k hn
        refine ⟨by rw [Nat.succ_mul]; omega, hp, fun l hl hpl ↦ ?_⟩
        rcases Nat.lt_or_ge l (n * w) with hlt | hge
        · exact ih.absent hrange l hlt hpl
        · obtain ⟨j, rfl⟩ := Nat.exists_eq_add_of_le hge
          exact hmin j (by omega) hpl
    · intro h k hk hp
      obtain ⟨hrange, hlast⟩ := Option.or_eq_none_iff.mp h
      rw [List.findSome?_singleton] at hlast
      rcases Nat.lt_or_ge k (n * w) with hlt | hge
      · exact ih.absent hrange k hlt hp
      · obtain ⟨j, rfl⟩ := Nat.exists_eq_add_of_le hge
        exact (hf n).absent (Option.map_eq_none_iff.mp hlast) j (by rw [Nat.succ_mul] at hk; omega) hp

end IsFirst
