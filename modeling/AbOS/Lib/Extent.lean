import Mathlib.Algebra.GroupWithZero.Nat
import Mathlib.Data.List.Basic

/-!
# Extents

An `Extent` is a run of consecutive numbers: blocks of a disk, frames of memory, bytes of a heap.
What the allocators of this development promise is phrased with two words only, `Extent.Covers`
for membership and `Extent.Apart` for two extents without a common number.

`Tiles a l b` says that the extents of the list `l` lie one behind the other and fill the numbers
from `a` up to `b`, as the blocks of a heap do.
-/

set_option autoImplicit false

/-- The numbers `start, …, start + len - 1`. -/
@[ext] structure Extent where
  /-- The first number of the run. -/
  start : ℕ
  /-- How many there are. -/
  len : ℕ
  deriving DecidableEq, Repr

namespace Extent

/-- `b` is one of the numbers of the extent. -/
def Covers (e : Extent) (b : ℕ) : Prop := e.start ≤ b ∧ b < e.start + e.len

instance (e : Extent) (b : ℕ) : Decidable (e.Covers b) := inferInstanceAs (Decidable (_ ∧ _))

/-- The two extents have no number in common. -/
def Apart (e f : Extent) : Prop := ∀ b, e.Covers b → ¬ f.Covers b

theorem Apart.symm {e f : Extent} (h : e.Apart f) : f.Apart e := fun b hf he ↦ h b he hf

theorem apart_of_le {e f : Extent} (h : e.start + e.len ≤ f.start) : e.Apart f := by
  intro b he hf
  have := he.2
  have := hf.1
  omega

/-- Some extent of the list covers `b`. -/
def Covered (l : List Extent) (b : ℕ) : Prop := ∃ e ∈ l, e.Covers b

instance (l : List Extent) (b : ℕ) : Decidable (Covered l b) :=
  inferInstanceAs (Decidable (∃ e ∈ l, e.Covers b))

@[simp] theorem not_covered_nil (b : ℕ) : ¬ Covered [] b := by simp [Covered]

@[simp] theorem covered_cons {e : Extent} {l : List Extent} {b : ℕ} :
    Covered (e :: l) b ↔ e.Covers b ∨ Covered l b := by simp [Covered]

/-- Taking one extent out of a list of pairwise disjoint ones takes exactly its numbers. -/
theorem covered_eraseIdx {l : List Extent} (hl : l.Pairwise Apart) {i : ℕ} {e : Extent}
    (hi : l[i]? = some e) {b : ℕ} :
    Covered (l.eraseIdx i) b ↔ Covered l b ∧ ¬ e.Covers b := by
  induction l generalizing i with
  | nil => simp at hi
  | cons f l ih =>
    rw [List.pairwise_cons] at hl
    cases i with
    | zero =>
      obtain rfl : f = e := by simpa using hi
      rw [List.eraseIdx_cons_zero, covered_cons]
      constructor
      · rintro ⟨g, hg, hb⟩
        exact ⟨Or.inr ⟨g, hg, hb⟩, fun hf ↦ hl.1 g hg b hf hb⟩
      · rintro ⟨hb, hn⟩
        exact hb.resolve_left hn
    | succ i =>
      have hi' : l[i]? = some e := by simpa using hi
      have hfe : f.Apart e := hl.1 e (List.mem_of_getElem? hi')
      rw [List.eraseIdx_cons_succ, covered_cons, covered_cons, ih hl.2 hi']
      constructor
      · rintro (hf | ⟨hb, hn⟩)
        · exact ⟨Or.inl hf, hfe b hf⟩
        · exact ⟨Or.inr hb, hn⟩
      · rintro ⟨hf | hb, hn⟩
        · exact Or.inl hf
        · exact Or.inr ⟨hb, hn⟩

theorem Apart.mono {e e' f f' : Extent} (h : e.Apart f)
    (he : e.start ≤ e'.start ∧ e'.start + e'.len ≤ e.start + e.len)
    (hf : f.start ≤ f'.start ∧ f'.start + f'.len ≤ f.start + f.len) : e'.Apart f' := by
  intro b hb hb'
  refine h b ⟨?_, ?_⟩ ⟨?_, ?_⟩ <;> have h1 := hb.1 <;> have h2 := hb.2 <;> have h3 := hb'.1 <;>
    have h4 := hb'.2 <;> omega

theorem sum_len_eraseIdx {l : List Extent} {i : ℕ} {e : Extent} (hi : l[i]? = some e) :
    (l.map len).sum = e.len + ((l.eraseIdx i).map len).sum := by
  induction l generalizing i with
  | nil => simp at hi
  | cons f l ih =>
    cases i with
    | zero =>
      obtain rfl : f = e := by simpa using hi
      rfl
    | succ i =>
      have hi' : l[i]? = some e := by simpa using hi
      rw [List.eraseIdx_cons_succ, List.map_cons, List.sum_cons, List.map_cons, List.sum_cons,
        ih hi']
      omega

/-! ## Extents that fill a range -/

/-- The extents of the list fill the numbers from `a` up to `b`, in order. -/
def Tiles : ℕ → List Extent → ℕ → Prop
  | a, [], b => a = b
  | a, e :: l, b => e.start = a ∧ Tiles (a + e.len) l b

theorem tiles_append {l₁ l₂ : List Extent} {a b : ℕ} :
    Tiles a (l₁ ++ l₂) b ↔ ∃ c, Tiles a l₁ c ∧ Tiles c l₂ b := by
  induction l₁ generalizing a with
  | nil => simp [Tiles]
  | cons e l₁ ih =>
    rw [List.cons_append, Tiles, ih]
    constructor
    · rintro ⟨hs, c, h₁, h₂⟩; exact ⟨c, ⟨hs, h₁⟩, h₂⟩
    · rintro ⟨c, ⟨hs, h₁⟩, h₂⟩; exact ⟨hs, c, h₁, h₂⟩

theorem Tiles.le {l : List Extent} {a b : ℕ} (h : Tiles a l b) : a ≤ b := by
  induction l generalizing a with
  | nil => exact Nat.le_of_eq h
  | cons e l ih => exact Nat.le_trans (Nat.le_add_right a e.len) (ih h.2)

/-- Every extent lies inside the range. -/
theorem Tiles.within {l : List Extent} {a b : ℕ} (h : Tiles a l b) {e : Extent} (he : e ∈ l) :
    a ≤ e.start ∧ e.start + e.len ≤ b := by
  induction l generalizing a with
  | nil => exact absurd he List.not_mem_nil
  | cons f l ih =>
    obtain ⟨rfl, h⟩ := h
    rcases List.mem_cons.mp he with rfl | he
    · exact ⟨Nat.le_refl _, h.le⟩
    · have := ih h he
      omega

/-- What lies one behind the other does not overlap. -/
theorem Tiles.pairwise {l : List Extent} {a b : ℕ} (h : Tiles a l b) : l.Pairwise Apart := by
  induction l generalizing a with
  | nil => exact List.Pairwise.nil
  | cons e l ih =>
    obtain ⟨rfl, h⟩ := h
    exact List.pairwise_cons.mpr ⟨fun f hf ↦ apart_of_le (h.within hf).1, ih h⟩

theorem Tiles.sum_len {l : List Extent} {a b : ℕ} (h : Tiles a l b) :
    a + (l.map len).sum = b := by
  induction l generalizing a with
  | nil => exact h
  | cons e l ih =>
    rw [List.map_cons, List.sum_cons, ← Nat.add_assoc]
    exact ih h.2

/-- Nonempty extents are at most as many as the numbers they fill. -/
theorem Tiles.length_le {l : List Extent} {a b : ℕ} (h : Tiles a l b)
    (hpos : ∀ e ∈ l, 0 < e.len) : a + l.length ≤ b := by
  induction l generalizing a with
  | nil => exact h.le
  | cons e l ih =>
    have h₁ := ih h.2 fun f hf ↦ hpos f (List.mem_cons_of_mem _ hf)
    have h₂ := hpos e List.mem_cons_self
    rw [List.length_cons]
    omega

end Extent
