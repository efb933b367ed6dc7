import Mathlib.Data.Nat.Notation
import Mathlib.Logic.Function.Basic

/-!
# A cache that is not told of changes

A table maps keys to values, and a cache holds some of its entries.  The cache takes entries in and
gives them up by itself; of a change of the table it learns only what it is told to drop.  It is
`Coherent` if the table allows what it holds.

* `Coherent.change` — a change of the table is harmless if it is for the table before it, taken for
  a cache.
* `follow_coherent_iff` — a list of changes, between which the cache does what it likes, is harmless
  if and only if each of them is.
* `Coherent.lookup` — what a reader gets through the cache, and what it gets from the table.
-/

set_option autoImplicit false

namespace Cache

universe u v w

variable {κ : Type u} {ν : Type v}

/-- What the cache holds is in the table, or something there that allows no less. -/
def Coherent (le : ν → ν → Prop) (c t : κ → Option ν) : Prop :=
  ∀ k x, c k = some x → ∃ y, t k = some y ∧ le x y

/-- What is left when the keys of `d` are dropped. -/
def drop (d : κ → Bool) (c : κ → Option ν) (k : κ) : Option ν := if d k then none else c k

/-- What a reader gets: from the cache, or else from the table. -/
def lookup (c t : κ → Option ν) (k : κ) : Option ν := (c k).or (t k)

/-- What the cache does by itself. -/
inductive Event (κ : Type u)
  | fill (k : κ)
  | evict (k : κ)

section Events

variable [DecidableEq κ]

def Event.perform (t c : κ → Option ν) : Event κ → κ → Option ν
  | .fill k => Function.update c k (t k)
  | .evict k => Function.update c k none

def perform (t c : κ → Option ν) (es : List (Event κ)) : κ → Option ν :=
  es.foldl (fun c e ↦ e.perform t c) c

/-- The cache through a list of changes: the table is `tables i` before change `i`, after which the
keys of `drops i` are dropped, and then the cache performs `own i`. -/
def follow (tables : ℕ → κ → Option ν) (drops : ℕ → κ → Bool) (own : ℕ → List (Event κ))
    (c : κ → Option ν) : ℕ → κ → Option ν
  | 0 => c
  | i + 1 => perform (tables (i + 1)) (drop (drops i) (follow tables drops own c i)) (own i)

end Events

variable {le : ν → ν → Prop} {c t t' t'' : κ → Option ν} {d : κ → Bool}

theorem coherent_empty (t : κ → Option ν) : Coherent le (fun _ ↦ none) t := by
  rintro k x hx
  cases hx

theorem drop_of_false {k : κ} (h : d k = false) (c : κ → Option ν) : drop d c k = c k := by
  rw [drop, h, if_neg Bool.false_ne_true]

theorem drop_eq_some {k : κ} {x : ν} : drop d c k = some x ↔ d k = false ∧ c k = some x := by
  rw [drop]
  cases d k <;> simp

/-- If nothing is dropped, everything has to stay. -/
theorem coherent_drop_false :
    Coherent le (Cache.drop (fun _ ↦ false) t) t' ↔ Coherent le t t' :=
  forall₂_congr fun k x ↦ by rw [drop_of_false rfl]

theorem coherent_drop_true : Coherent le (Cache.drop (fun _ ↦ true) t) t' := by
  rintro k x hx
  cases (drop_eq_some.mp hx).1

/-- **A change of the table** is harmless if it is for the table before it, taken for a cache. -/
theorem Coherent.change (htrans : ∀ x y z, le x y → le y z → le x z) (h : Coherent le c t)
    (hchange : Coherent le (Cache.drop d t) t') : Coherent le (Cache.drop d c) t' := by
  intro k x hx
  obtain ⟨hd, hx⟩ := drop_eq_some.mp hx
  obtain ⟨y, hy, hxy⟩ := h k x hx
  obtain ⟨z, hz, hyz⟩ := hchange k y (drop_eq_some.mpr ⟨hd, hy⟩)
  exact ⟨z, hz, htrans x y z hxy hyz⟩

/-- **What a reader gets** through the cache agrees with the table, as far as `le` does. -/
theorem Coherent.lookup {α : Type w} {f : ν → α} (hf : ∀ x y, le x y → f x = f y)
    (h : Coherent le c t) (k : κ) : (lookup c t k).map f = (t k).map f := by
  rw [Cache.lookup]
  cases hc : c k with
  | none => rfl
  | some x =>
    obtain ⟨y, hy, hxy⟩ := h k x hc
    rw [hy, Option.some_or, Option.map_some, Option.map_some, hf x y hxy]

section Events

variable [DecidableEq κ] {tables : ℕ → κ → Option ν} {drops : ℕ → κ → Bool}

/-- What the cache does by itself does no harm. -/
theorem Coherent.event (hrefl : ∀ x, le x x) (h : Coherent le c t) (e : Event κ) :
    Coherent le (e.perform t c) t := by
  intro k x hx
  cases e with
  | fill j =>
    rw [Event.perform] at hx
    by_cases hkj : k = j
    · subst hkj
      rw [Function.update_self] at hx
      exact ⟨x, hx, hrefl x⟩
    · rw [Function.update_of_ne hkj] at hx
      exact h k x hx
  | evict j =>
    rw [Event.perform] at hx
    by_cases hkj : k = j
    · subst hkj
      rw [Function.update_self] at hx
      cases hx
    · rw [Function.update_of_ne hkj] at hx
      exact h k x hx

theorem Coherent.perform (hrefl : ∀ x, le x x) (h : Coherent le c t) (es : List (Event κ)) :
    Coherent le (perform t c es) t := by
  induction es generalizing c with
  | nil => exact h
  | cons e es ih => exact ih (h.event hrefl e)

/-- **A list of changes** that are harmless one by one. -/
theorem Coherent.follow (hrefl : ∀ x, le x x) (htrans : ∀ x y z, le x y → le y z → le x z) {n : ℕ}
    (hchange : ∀ i < n, Coherent le (Cache.drop (drops i) (tables i)) (tables (i + 1)))
    (own : ℕ → List (Event κ)) (h : Coherent le c (tables 0)) {i : ℕ} (hi : i ≤ n) :
    Coherent le (follow tables drops own c i) (tables i) := by
  induction i with
  | zero => exact h
  | succ i ih =>
    exact ((ih (Nat.le_of_succ_le hi)).change htrans (hchange i hi)).perform hrefl (own i)

/-- Whatever the cache does between the changes: each of them has to be harmless. -/
theorem follow_coherent_iff (hrefl : ∀ x, le x x) (htrans : ∀ x y z, le x y → le y z → le x z)
    {n : ℕ} : (∀ c own, Coherent le c (tables 0) →
        ∀ i ≤ n, Coherent le (follow tables drops own c i) (tables i)) ↔
      ∀ i < n, Coherent le (Cache.drop (drops i) (tables i)) (tables (i + 1)) := by
  refine ⟨fun h i hi k x hx ↦ ?_, fun h c own hc i hi ↦ hc.follow hrefl htrans h own hi⟩
  obtain ⟨hd, hx⟩ := drop_eq_some.mp hx
  -- a cache that takes the entry in just before the change, and then does nothing
  have hempty : Coherent le (Function.update (fun _ ↦ none) k (tables 0 k)) (tables 0) :=
    (coherent_empty (tables 0)).event hrefl (.fill k)
  have hall := h _ (fun j ↦ if j + 1 = i then [.fill k] else []) hempty (i + 1) hi
  refine hall k x ?_
  rw [Cache.follow, if_neg (by omega)]
  refine drop_eq_some.mpr ⟨hd, ?_⟩
  cases i with
  | zero => rwa [Cache.follow, Function.update_self]
  | succ j =>
    rw [Cache.follow, if_pos rfl]
    exact (Function.update_self ..).trans hx

end Events

end Cache
