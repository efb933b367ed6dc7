import Mathlib.Data.List.Basic

/-!
# Runs of a partial step function

A component that takes one action after another is a partial function `step : σ → α → Option σ`:
`none` means that the action is not possible in that state.  `Run.exec` performs a list of actions
in order, and `Run.Meets` says that a condition on the state and the action holds before each of
them.

The two rules used everywhere are `exec_invariant`, for what every step preserves, and
`Meets.invariant`, for what a step preserves when its condition holds.  `exec_countdown` is the rule
for what happens after a number of steps at the latest.

A recursion that is cut off after some number of nested calls is `f : ℕ → Option α`: where one
more call changes no result, there is one result (`fuel_unique`).

A loop that counts up is a `foldl` over `List.range'`; `loop_invariant` is the rule for it.
-/

set_option autoImplicit false

namespace Run

universe u v

variable {σ : Type u} {α : Type v} (step : σ → α → Option σ)

/-- Perform the actions in order, stopping at the first one that is not possible. -/
def exec : σ → List α → Option σ
  | s, [] => some s
  | s, a :: as => (step s a).bind fun t ↦ exec t as

/-- The condition `C` holds of every action at the moment it is performed. -/
def Meets (C : σ → α → Prop) : σ → List α → Prop
  | _, [] => True
  | s, a :: as => C s a ∧ ∀ t, step s a = some t → Meets C t as

@[simp] theorem exec_nil (s : σ) : exec step s [] = some s := rfl

variable {step}

theorem exec_cons {s s' : σ} {a : α} {as : List α} :
    exec step s (a :: as) = some s' ↔ ∃ t, step s a = some t ∧ exec step t as = some s' := by
  rw [exec, Option.bind_eq_some_iff]

theorem exec_append {s s' : σ} {as bs : List α} :
    exec step s (as ++ bs) = some s' ↔
      ∃ t, exec step s as = some t ∧ exec step t bs = some s' := by
  induction as generalizing s with
  | nil => simp
  | cons a as ih =>
    simp only [List.cons_append, exec_cons, ih]
    constructor
    · rintro ⟨t, ht, u, hu, hs⟩; exact ⟨u, ⟨t, ht, hu⟩, hs⟩
    · rintro ⟨u, ⟨t, ht, hu⟩, hs⟩; exact ⟨t, ht, u, hu, hs⟩

/-- A run of one action. -/
theorem exec_singleton {s s' : σ} {a : α} (ha : step s a = some s') :
    exec step s [a] = some s' := by
  rw [exec, ha, Option.bind_some, exec_nil]

/-- **Invariant rule**: what every step preserves, every run preserves. -/
theorem exec_invariant {Inv : σ → Prop}
    (hstep : ∀ s a t, Inv s → step s a = some t → Inv t) {s s' : σ} {as : List α}
    (hs : Inv s) (h : exec step s as = some s') : Inv s' := by
  induction as generalizing s with
  | nil => cases h; exact hs
  | cons a as ih =>
    obtain ⟨t, ht, hr⟩ := exec_cons.mp h
    exact ih (hstep s a t hs ht) hr

/-- The same for a run of actions of one kind. -/
theorem exec_invariant_of_forall {Inv : σ → Prop} {C : α → Prop}
    (hstep : ∀ s a t, Inv s → C a → step s a = some t → Inv t) {s s' : σ} {as : List α}
    (hs : Inv s) (hC : ∀ a ∈ as, C a) (h : exec step s as = some s') : Inv s' := by
  induction as generalizing s with
  | nil => cases h; exact hs
  | cons a as ih =>
    obtain ⟨t, ht, hr⟩ := exec_cons.mp h
    exact ih (hstep s a t hs (hC a List.mem_cons_self) ht)
      (fun b hb ↦ hC b (List.mem_cons_of_mem _ hb)) hr

/-- **Countdown rule**: if every action either reaches the goal, which is kept, or keeps `Inv`, and
a turn takes the measure down, then a run that has not reached the goal has no more turns than the
measure was. -/
theorem exec_countdown {Inv Goal : σ → Prop} {C : α → Prop} {turn : α → Bool} {m : σ → ℕ}
    (hstep : ∀ s a t, Inv s → C a → step s a = some t →
      Goal t ∨ Inv t ∧ m t + (if turn a = true then 1 else 0) ≤ m s)
    (hgoal : ∀ s a t, Goal s → step s a = some t → Goal t) {s s' : σ} {as : List α}
    (hs : Inv s) (hC : ∀ a ∈ as, C a) (h : exec step s as = some s') :
    Goal s' ∨ Inv s' ∧ m s' + as.countP turn ≤ m s := by
  induction as generalizing s with
  | nil =>
    cases h
    exact Or.inr ⟨hs, Nat.le_refl _⟩
  | cons a as ih =>
    obtain ⟨t, ht, hr⟩ := exec_cons.mp h
    rcases hstep s a t hs (hC a List.mem_cons_self) ht with hreached | ⟨hinv, hturn⟩
    · exact Or.inl (exec_invariant hgoal hreached hr)
    · rcases ih hinv (fun b hb ↦ hC b (List.mem_cons_of_mem _ hb)) hr with hreached | ⟨hinv', hrest⟩
      · exact Or.inl hreached
      · refine Or.inr ⟨hinv', ?_⟩
        rw [List.countP_cons]
        exact Nat.le_trans (Nat.add_assoc .. ▸ Nat.add_le_add_right hrest _) hturn

/-- One action after the other: the condition holds of it, and it leads to the next state. -/
theorem Meets.cons {C : σ → α → Prop} {s t : σ} {a : α} {as : List α} (ha : C s a)
    (ht : step s a = some t) (h : Meets step C t as) : Meets step C s (a :: as) :=
  ⟨ha, fun _ hu ↦ Option.some.inj (ht.symm.trans hu) ▸ h⟩

/-- **Guarded invariant rule**: what every step preserves when its condition holds, every run
whose steps all meet the condition preserves. -/
theorem Meets.invariant {C : σ → α → Prop} (Inv : σ → Prop)
    (hstep : ∀ s a t, Inv s → C s a → step s a = some t → Inv t) {s s' : σ} {as : List α}
    (hs : Inv s) (hC : Meets step C s as) (h : exec step s as = some s') : Inv s' := by
  induction as generalizing s with
  | nil => cases h; exact hs
  | cons a as ih =>
    obtain ⟨t, ht, hr⟩ := exec_cons.mp h
    exact ih (hstep s a t hs hC.1 ht) (hC.2 t ht) hr

/-- What holds of the actions in all states of an invariant holds of the actions of a run. -/
theorem Meets.of_invariant {C D : σ → α → Prop} (Inv : σ → Prop)
    (hstep : ∀ s a t, Inv s → C s a → step s a = some t → Inv t)
    (h : ∀ s a, Inv s → C s a → D s a) {s : σ} {as : List α} (hs : Inv s)
    (hC : Meets step C s as) : Meets step D s as := by
  induction as generalizing s with
  | nil => trivial
  | cons a as ih =>
    exact ⟨h s a hs hC.1, fun t ht ↦ ih (hstep s a t hs hC.1 ht) (hC.2 t ht)⟩

/-- A condition may be weakened, and strengthened by what is known of the actions. -/
theorem Meets.mono {C D : σ → α → Prop} {s : σ} {as : List α} (hC : Meets step C s as)
    (h : ∀ s, ∀ a ∈ as, C s a → D s a) : Meets step D s as := by
  induction as generalizing s with
  | nil => trivial
  | cons a as ih =>
    exact ⟨h s a List.mem_cons_self hC.1, fun t ht ↦
      ih (hC.2 t ht) fun s b hb ↦ h s b (List.mem_cons_of_mem _ hb)⟩

theorem Meets.and {C D : σ → α → Prop} {s : σ} {as : List α} (hC : Meets step C s as)
    (hD : Meets step D s as) : Meets step (fun s a ↦ C s a ∧ D s a) s as := by
  induction as generalizing s with
  | nil => trivial
  | cons a as ih => exact ⟨⟨hC.1, hD.1⟩, fun t ht ↦ ih (hC.2 t ht) (hD.2 t ht)⟩

/-- In a run that is possible, what is known of possible actions may be used. -/
theorem Meets.mono_of_exec {C D : σ → α → Prop}
    (h : ∀ s a t, step s a = some t → C s a → D s a) {s s' : σ} {as : List α}
    (hrun : exec step s as = some s') (hC : Meets step C s as) : Meets step D s as := by
  induction as generalizing s with
  | nil => trivial
  | cons a as ih =>
    obtain ⟨t, ht, hr⟩ := exec_cons.mp hrun
    refine ⟨h s a t ht hC.1, fun u hu ↦ ?_⟩
    obtain rfl : t = u := Option.some.inj (ht.symm.trans hu)
    exact ih hr (hC.2 t ht)

/-! ## Loops that count -/

/-- **Loop rule**: what each turn takes from its number to the next, the loop takes from the first
number to the last. -/
theorem loop_invariant {f : σ → ℕ → σ} (Inv : ℕ → σ → Prop) {first n : ℕ}
    (hstep : ∀ i s, first ≤ i → i < first + n → Inv i s → Inv (i + 1) (f s i)) {s : σ}
    (hs : Inv first s) : Inv (first + n) ((List.range' first n).foldl f s) := by
  induction n with
  | zero => exact hs
  | succ n ih =>
    rw [List.range'_1_concat, List.foldl_append]
    exact hstep _ _ (Nat.le_add_right ..) (Nat.lt_succ_self _)
      (ih fun i s hi hlt ↦ hstep i s hi (Nat.lt_succ_of_lt hlt))

/-! ## Recursion that is cut off -/

section Fuel

variable {f : ℕ → Option α} (hmono : ∀ n r, f n = some r → f (n + 1) = some r) {n k : ℕ} {r r' : α}
include hmono

theorem fuel_le (hle : n ≤ k) (h : f n = some r) : f k = some r := by
  induction hle with
  | refl => exact h
  | step _ ih => exact hmono _ _ ih

/-- One result for all fuel. -/
theorem fuel_unique (h : f n = some r) (h' : f k = some r') : r = r' := by
  have hle := fuel_le hmono (Nat.le_max_left n k) h
  exact Option.some.inj (hle.symm.trans (fuel_le hmono (Nat.le_max_right n k) h'))

end Fuel

end Run
