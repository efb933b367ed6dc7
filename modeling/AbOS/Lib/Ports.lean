import AbOS.Lib.ByteStore
import Mathlib.Logic.Function.Iterate

/-!
# Port input and output

A device is what its ports do: `Ports` gives the four instructions, and `none` where the device says
nothing about the access.  On top of them are the loops of a polling driver: `poll` waits until bits
of a register are clear, `skip` reads a register for the time that it takes, and `inWords` and
`outWords` move 16-bit words between a port and memory.

Each loop has a rule that leaves the device out: what one access does, for `poll_eq` and `skip_eq`,
or which words the device delivers and takes, for `inWords_of_delivers` and `outWords_of_takes`.

What a device is documented to do is a device with few states, `E`; another one, with any states of
its own, `Follows` it if it gives the documented answers wherever there are any.  A driver then does
to the one what it does to the other.
-/

set_option autoImplicit false

universe u v

/-- The ports of a device with states in `σ`. -/
structure Ports (σ : Type u) where
  inb : σ → ℕ → Option (ℕ × σ)
  outb : σ → ℕ → ℕ → Option σ
  inw : σ → ℕ → Option (ℕ × σ)
  outw : σ → ℕ → ℕ → Option σ

namespace Ports

open ByteStore

variable {σ : Type u} (D : Ports σ)

/-- Write bytes to ports, one after the other. -/
def outs : List (ℕ × ℕ) → σ → Option σ
  | [], s => some s
  | (port, v) :: vs, s => (D.outb s port v).bind (outs vs)

/-- Read the port until the bits of the mask are clear. -/
def poll (port mask : ℕ) : ℕ → σ → Option σ
  | 0, _ => none
  | fuel + 1, s => (D.inb s port).bind fun r ↦
    if r.1 &&& mask ≠ 0 then poll port mask fuel r.2 else some r.2

/-- Read the port `n` times. -/
def skip (port : ℕ) : ℕ → σ → Option σ
  | 0, s => some s
  | n + 1, s => (D.inb s port).bind fun r ↦ skip port n r.2

/-- Store `n` words from the port. -/
def inWords (port : ℕ) : ℕ → ℕ → σ × ByteStore → Option (σ × ByteStore)
  | 0, _, s => some s
  | n + 1, a, (s, m) => (D.inw s port).bind fun r ↦
    inWords port n (a + 2) (r.2, m.splice a (leBytes 2 r.1))

/-- Send `n` words to the port. -/
def outWords (port : ℕ) (m : ByteStore) : ℕ → ℕ → σ → Option σ
  | 0, _, s => some s
  | n + 1, a, s => (D.outw s port (ofLe (m.slice a 2))).bind (outWords port m n (a + 2))

/-- The device hands out the words. -/
def Delivers (port : ℕ) : σ → List ℕ → σ → Prop
  | s, [], s' => s' = s
  | s, w :: ws, s' => ∃ t, D.inw s port = some (w, t) ∧ Delivers port t ws s'

/-- The device takes in the words. -/
def Takes (port : ℕ) : σ → List ℕ → σ → Prop
  | s, [], s' => s' = s
  | s, w :: ws, s' => ∃ t, D.outw s port w = some t ∧ Takes port t ws s'

/-- Wherever `E` answers, `D` gives the same answer, with the states of `D` seen through `view`; of
the bytes only the bits of the mask count. -/
structure Follows {τ : Type v} (E : Ports τ) (mask : ℕ) (view : σ → τ) : Prop where
  inb : ∀ s port w t, E.inb (view s) port = some (w, t) →
    ∃ w' s', D.inb s port = some (w', s') ∧ w' &&& mask = w &&& mask ∧ view s' = t
  outb : ∀ s port w t, E.outb (view s) port w = some t → ∃ s', D.outb s port w = some s' ∧ view s' = t
  inw : ∀ s port w t, E.inw (view s) port = some (w, t) →
    ∃ s', D.inw s port = some (w, s') ∧ view s' = t
  outw : ∀ s port w t, E.outw (view s) port w = some t → ∃ s', D.outw s port w = some s' ∧ view s' = t

/-- A device does what it does. -/
theorem Follows.refl (mask : ℕ) : D.Follows D mask id where
  inb := fun _ _ w t h ↦ ⟨w, t, h, rfl, rfl⟩
  outb := fun _ _ _ t h ↦ ⟨t, h, rfl⟩
  inw := fun _ _ _ t h ↦ ⟨t, h, rfl⟩
  outw := fun _ _ _ t h ↦ ⟨t, h, rfl⟩

variable {D} {port mask : ℕ} {s s' : σ}

/-- **Waiting**: while the bits are set, the time in which they are goes down, and where the device
settles stays the same. -/
theorem poll_eq (busy : σ → ℕ) (settle : σ → σ)
    (hbusy : ∀ s, busy s ≠ 0 → ∃ v t, D.inb s port = some (v, t) ∧ v &&& mask ≠ 0 ∧
      busy t < busy s ∧ settle t = settle s)
    (hready : ∀ s, busy s = 0 → ∃ v, D.inb s port = some (v, settle s) ∧ v &&& mask = 0)
    {fuel : ℕ} (hfuel : busy s < fuel) : D.poll port mask fuel s = some (settle s) := by
  induction fuel generalizing s with
  | zero => exact absurd hfuel (Nat.not_lt_zero _)
  | succ fuel ih =>
    rw [poll]
    by_cases hs : busy s = 0
    · obtain ⟨v, hin, hclear⟩ := hready s hs
      rw [hin, Option.bind_some, if_neg (not_not.mpr hclear)]
    · obtain ⟨v, t, hin, hset, hlt, hsettle⟩ := hbusy s hs
      rw [hin, Option.bind_some, if_pos hset, ih (Nat.lt_of_lt_of_le hlt (Nat.le_of_lt_succ hfuel)),
        hsettle]

/-- With too few turns nothing comes of it. -/
theorem poll_eq_or (busy : σ → ℕ) (settle : σ → σ)
    (hbusy : ∀ s, busy s ≠ 0 → ∃ v t, D.inb s port = some (v, t) ∧ v &&& mask ≠ 0 ∧
      settle t = settle s)
    (hready : ∀ s, busy s = 0 → ∃ v, D.inb s port = some (v, settle s) ∧ v &&& mask = 0)
    (fuel : ℕ) (s : σ) :
    D.poll port mask fuel s = none ∨ D.poll port mask fuel s = some (settle s) := by
  induction fuel generalizing s with
  | zero => exact Or.inl rfl
  | succ fuel ih =>
    rw [poll]
    by_cases hs : busy s = 0
    · obtain ⟨v, hin, hclear⟩ := hready s hs
      rw [hin, Option.bind_some, if_neg (not_not.mpr hclear)]
      exact Or.inr rfl
    · obtain ⟨v, t, hin, hset, hsettle⟩ := hbusy s hs
      rw [hin, Option.bind_some, if_pos hset, ← hsettle]
      exact ih t

/-- More turns change nothing. -/
theorem poll_mono {fuel fuel' : ℕ} (hle : fuel ≤ fuel') (h : D.poll port mask fuel s = some s') :
    D.poll port mask fuel' s = some s' := by
  induction fuel generalizing s fuel' with
  | zero => cases h
  | succ fuel ih =>
    obtain ⟨n, rfl⟩ := Nat.exists_eq_add_of_le hle
    rw [Nat.succ_add]
    obtain ⟨⟨w, t⟩, hin, hrest⟩ := Option.bind_eq_some_iff.mp h
    rw [poll, hin, Option.bind_some]
    dsimp only at hrest ⊢
    by_cases hset : w &&& mask ≠ 0
    · rw [if_pos hset] at hrest ⊢
      exact ih (Nat.le_add_right ..) hrest
    · rwa [if_neg hset] at hrest ⊢

theorem skip_eq (next : σ → σ) (hin : ∀ s, ∃ v, D.inb s port = some (v, next s)) (n : ℕ) (s : σ) :
    D.skip port n s = some (next^[n] s) := by
  induction n generalizing s with
  | zero => rfl
  | succ n ih =>
    obtain ⟨v, hv⟩ := hin s
    rw [skip, hv, Option.bind_some, ih, Function.iterate_succ_apply]

/-- **The words that a device delivers** end up in memory. -/
theorem inWords_of_delivers {ws : List ℕ} (h : D.Delivers port s ws s') (a : ℕ) (m : ByteStore) :
    D.inWords port ws.length a (s, m) = some (s', m.splice a (ws.flatMap (leBytes 2))) := by
  induction ws generalizing s a m with
  | nil =>
    rw [Delivers] at h
    rw [List.length_nil, inWords, h, List.flatMap_nil]
    refine congrArg some (Prod.ext rfl (funext fun x ↦ (splice_of_not_mem ?_).symm))
    rw [List.length_nil]
    omega
  | cons w ws ih =>
    rw [Delivers] at h
    obtain ⟨t, hin, hrest⟩ := h
    rw [List.length_cons, inWords, hin, Option.bind_some, ih hrest, List.flatMap_cons,
      splice_append, length_leBytes]

/-- **The words of memory** go to the device. -/
theorem outWords_of_takes {m : ByteStore} {n a : ℕ}
    (h : D.Takes port s ((List.range n).map fun i ↦ ofLe (m.slice (a + 2 * i) 2)) s') :
    D.outWords port m n a s = some s' := by
  induction n generalizing s a with
  | zero =>
    rw [List.range_zero, List.map_nil, Takes] at h
    rw [outWords, h]
  | succ n ih =>
    rw [List.range_succ_eq_map, List.map_cons, List.map_map, Takes] at h
    obtain ⟨t, hout, hrest⟩ := h
    rw [outWords]
    rw [Nat.mul_zero, Nat.add_zero] at hout
    rw [hout, Option.bind_some]
    have hshift : (List.range n).map ((fun i ↦ ofLe (m.slice (a + 2 * i) 2)) ∘ Nat.succ) =
        (List.range n).map fun i ↦ ofLe (m.slice (a + 2 + 2 * i) 2) :=
      List.map_congr_left fun i _ ↦ by
        rw [Function.comp_apply, show a + 2 + 2 * i = a + 2 * i.succ by omega]
    exact ih (hshift ▸ hrest)

/-! ## Loops over a device that follows another one -/

section Follows

variable {τ : Type v} {E : Ports τ} {view : σ → τ} {t : τ} {fuel n a : ℕ} {m m' : ByteStore}

theorem Follows.outs (h : D.Follows E mask view) {vs : List (ℕ × ℕ)}
    (hrun : E.outs vs (view s) = some t) : ∃ s', D.outs vs s = some s' ∧ view s' = t := by
  induction vs generalizing s with
  | nil => exact ⟨s, rfl, Option.some.inj hrun⟩
  | cons p vs ih =>
    obtain ⟨u, hout, hrest⟩ := Option.bind_eq_some_iff.mp hrun
    obtain ⟨s₁, hout', rfl⟩ := h.outb _ _ _ _ hout
    obtain ⟨s', hrest', hview⟩ := ih hrest
    exact ⟨s', by rw [Ports.outs, hout', Option.bind_some, hrest'], hview⟩

theorem Follows.poll (h : D.Follows E mask view) (hrun : E.poll port mask fuel (view s) = some t) :
    ∃ s', D.poll port mask fuel s = some s' ∧ view s' = t := by
  induction fuel generalizing s with
  | zero => cases hrun
  | succ fuel ih =>
    obtain ⟨⟨w, u⟩, hin, hrest⟩ := Option.bind_eq_some_iff.mp hrun
    obtain ⟨w', s₁, hin', hbits, rfl⟩ := h.inb _ _ _ _ hin
    rw [Ports.poll, hin', Option.bind_some, hbits]
    dsimp only at hrest
    by_cases hset : w &&& mask ≠ 0
    · rw [if_pos hset] at hrest ⊢
      exact ih hrest
    · rw [if_neg hset] at hrest ⊢
      exact ⟨s₁, rfl, Option.some.inj hrest⟩

theorem Follows.skip (h : D.Follows E mask view) (hrun : E.skip port n (view s) = some t) :
    ∃ s', D.skip port n s = some s' ∧ view s' = t := by
  induction n generalizing s with
  | zero => exact ⟨s, rfl, Option.some.inj hrun⟩
  | succ n ih =>
    obtain ⟨⟨w, u⟩, hin, hrest⟩ := Option.bind_eq_some_iff.mp hrun
    obtain ⟨w', s₁, hin', -, rfl⟩ := h.inb _ _ _ _ hin
    obtain ⟨s', hrest', hview⟩ := ih hrest
    exact ⟨s', by rw [Ports.skip, hin', Option.bind_some, hrest'], hview⟩

theorem Follows.inWords (h : D.Follows E mask view)
    (hrun : E.inWords port n a (view s, m) = some (t, m')) :
    ∃ s', D.inWords port n a (s, m) = some (s', m') ∧ view s' = t := by
  induction n generalizing s a m with
  | zero =>
    obtain ⟨rfl, rfl⟩ := Prod.mk.inj (Option.some.inj hrun)
    exact ⟨s, rfl, rfl⟩
  | succ n ih =>
    obtain ⟨⟨w, u⟩, hin, hrest⟩ := Option.bind_eq_some_iff.mp hrun
    obtain ⟨s₁, hin', rfl⟩ := h.inw _ _ _ _ hin
    obtain ⟨s', hrest', hview⟩ := ih hrest
    exact ⟨s', by rw [Ports.inWords, hin', Option.bind_some, hrest'], hview⟩

theorem Follows.outWords (h : D.Follows E mask view)
    (hrun : E.outWords port m n a (view s) = some t) :
    ∃ s', D.outWords port m n a s = some s' ∧ view s' = t := by
  induction n generalizing s a with
  | zero => exact ⟨s, rfl, Option.some.inj hrun⟩
  | succ n ih =>
    obtain ⟨u, hout, hrest⟩ := Option.bind_eq_some_iff.mp hrun
    obtain ⟨s₁, hout', rfl⟩ := h.outw _ _ _ _ hout
    obtain ⟨s', hrest', hview⟩ := ih hrest
    exact ⟨s', by rw [Ports.outWords, hout', Option.bind_some, hrest'], hview⟩

end Follows

end Ports
