import AbOS.Lib.Extent
import AbOS.Memory.Pmm

/-!
# Histories of the frame allocator

A `Ledger` is the allocator together with the extents that have been handed out and not yet given
back.  Its actions are the two calls a client can make: `allocate_blocks(n)` for any `n`, and
`free_blocks(address / 4096, n)` for one live extent.

`Ledger.Accounts p₀` is the invariant of every history that starts at the bitmap of `p₀`
(`accounts_of_exec`): the live extents are disjoint, lie inside the bitmap, cover nothing that was
set at the start, and a bit is set exactly when it was set at the start or is covered by one of
them.  `books_of_exec` adds the counter `used_blocks` and what the null address means.

In the other direction, `exists_exec_handsOut` says that the allocator hands out every clear
block sooner or later: allocating single frames reaches it.
-/

set_option autoImplicit false

namespace AbOS

open Extent

/-- The allocator and the extents its clients hold, in blocks. -/
structure Ledger where
  /-- The allocator. -/
  pmm : Pmm
  /-- The extents handed out and not given back. -/
  live : List Extent

/-- What a client can ask of the allocator. -/
inductive FrameOp
  /-- `allocate_blocks(n)`. -/
  | allocate (n : ℕ)
  /-- `free_blocks` of the `i`-th live extent. -/
  | free (i : ℕ)

namespace Ledger

/-- One call.  An allocation that returns the null address adds nothing to the live extents. -/
def step (h : Ledger) : FrameOp → Option Ledger
  | .allocate n =>
    let (address, pmm) := h.pmm.allocateBlocks n
    if address = 0 then some { h with pmm }
    else some ⟨pmm, ⟨address / blockSize, n⟩ :: h.live⟩
  | .free i =>
    (h.live[i]?).map fun e ↦ ⟨h.pmm.freeBlocks e.start e.len, h.live.eraseIdx i⟩

/-- The bookkeeping of a history that started at `p₀`. -/
structure Accounts (p₀ : Pmm) (h : Ledger) : Prop where
  maxBlocks : h.pmm.maxBlocks = p₀.maxBlocks
  inside : ∀ e ∈ h.live, 0 < e.start ∧ 0 < e.len ∧ e.start + e.len ≤ p₀.maxBlocks
  fresh : ∀ e ∈ h.live, ∀ b, e.Covers b → p₀.isSet b = false
  apart : h.live.Pairwise Apart
  isSet : ∀ b, h.pmm.isSet b = (p₀.isSet b || decide (Covered h.live b))

theorem accounts_init (p₀ : Pmm) : Accounts p₀ ⟨p₀, []⟩ :=
  ⟨rfl, by simp, by simp, List.Pairwise.nil, by simp⟩

variable {p₀ : Pmm} {h h' : Ledger}

/-- What a successful allocation can rely on: the run was clear, so it is apart from everything
live and from everything set at the start. -/
theorem Accounts.of_some (hi : Accounts p₀ h) (h0 : p₀.isSet 0 = true) {n s : ℕ}
    (hs : h.pmm.findFreeBlocks n = some s) :
    0 < s ∧ 0 < n ∧ s + n ≤ p₀.maxBlocks ∧
      ∀ b, (⟨s, n⟩ : Extent).Covers b → p₀.isSet b = false ∧ ¬ Covered h.live b := by
  obtain ⟨hn, ⟨hmax, hclear⟩, -⟩ := Pmm.findFreeBlocks_some hs
  have hcov : ∀ b, (⟨s, n⟩ : Extent).Covers b → p₀.isSet b = false ∧ ¬ Covered h.live b := by
    intro b hb
    have hb1 : s ≤ b := hb.1
    have hb2 : b < s + n := hb.2
    have hbit := hclear (b - s) (by omega)
    rw [show s + (b - s) = b by omega, hi.isSet, Bool.or_eq_false_iff, decide_eq_false_iff_not]
      at hbit
    exact hbit
  refine ⟨Nat.pos_of_ne_zero fun hs0 ↦ ?_, hn, hi.maxBlocks ▸ hmax, hcov⟩
  subst hs0
  have := (hcov 0 ⟨Nat.le_refl 0, by simpa using hn⟩).1
  rw [h0] at this
  exact absurd this (by simp)

theorem Accounts.allocate (hi : Accounts p₀ h) (h0 : p₀.isSet 0 = true) {n : ℕ}
    (hs : step h (.allocate n) = some h') : Accounts p₀ h' := by
  rcases h.pmm.allocateBlocks_cases n with ⟨-, ha⟩ | ⟨s, q, hf, ha, hmax, hbits⟩
  · simp only [step, ha, if_pos] at hs
    cases hs
    exact hi
  · obtain ⟨hpos, hn, hle, hcov⟩ := hi.of_some h0 hf
    have hbs : blockSize = 4096 := rfl
    have hne : s * blockSize ≠ 0 := by rw [hbs]; omega
    have hdiv : s * blockSize / blockSize = s := Nat.mul_div_cancel s (by decide)
    simp only [step, ha, if_neg hne, hdiv] at hs
    cases hs
    refine ⟨hmax.trans hi.maxBlocks, ?_, ?_, ?_, fun b ↦ ?_⟩
    · exact List.forall_mem_cons.mpr ⟨⟨hpos, hn, hle⟩, hi.inside⟩
    · exact List.forall_mem_cons.mpr ⟨fun b hb ↦ (hcov b hb).1, hi.fresh⟩
    · exact List.pairwise_cons.mpr ⟨fun e he b hb heb ↦ (hcov b hb).2 ⟨e, he, heb⟩, hi.apart⟩
    · show q.isSet b = (p₀.isSet b || decide (Covered (⟨s, n⟩ :: h.live) b))
      rw [hbits, hi.isSet, Bool.or_left_comm]
      congr 1
      rw [← Bool.decide_or]
      exact decide_eq_decide.mpr (covered_cons (e := ⟨s, n⟩)).symm

theorem Accounts.free (hi : Accounts p₀ h) (hm : p₀.maxBlocks ≤ 0xFFFFF) {i : ℕ}
    (hs : step h (.free i) = some h') : Accounts p₀ h' := by
  simp only [step, Option.map_eq_some_iff] at hs
  obtain ⟨e, he, rfl⟩ := hs
  have hmem : e ∈ h.live := List.mem_of_getElem? he
  have hle := (hi.inside e hmem).2.2
  have hsub : ∀ f ∈ h.live.eraseIdx i, f ∈ h.live := fun f hf ↦ List.mem_of_mem_eraseIdx hf
  refine ⟨(h.pmm.freeBlocks_maxBlocks _ _).trans hi.maxBlocks, fun f hf ↦ hi.inside f (hsub f hf),
    fun f hf ↦ hi.fresh f (hsub f hf), hi.apart.sublist (List.eraseIdx_sublist ..), fun b ↦ ?_⟩
  show (h.pmm.freeBlocks e.start e.len).isSet b = (p₀.isSet b || decide (Covered _ b))
  rw [Pmm.isSet_freeBlocks _ (by omega), hi.isSet]
  show (!decide (e.Covers b) && _) = _
  have hcov := covered_eraseIdx hi.apart he (b := b)
  by_cases hb : e.Covers b
  · -- a block of the extent given back was clear at the start
    simp [hcov, hb, hi.fresh e hmem b hb]
  · simp [hcov, hb]

theorem Accounts.step (hi : Accounts p₀ h) (h0 : p₀.isSet 0 = true)
    (hm : p₀.maxBlocks ≤ 0xFFFFF) {op : FrameOp} (hs : h.step op = some h') :
    Accounts p₀ h' := by
  cases op with
  | allocate n => exact hi.allocate h0 hs
  | free i => exact hi.free hm hs

/-- **Every history keeps its books.** -/
theorem accounts_of_exec (h0 : p₀.isSet 0 = true) (hm : p₀.maxBlocks ≤ 0xFFFFF)
    {ops : List FrameOp} (hr : Run.exec Ledger.step ⟨p₀, []⟩ ops = some h) : Accounts p₀ h :=
  Run.exec_invariant (fun _ _ _ hi hs ↦ hi.step h0 hm hs) (accounts_init p₀) hr

/-! ## The counter and the null address -/

/-- The total size of the live extents. -/
def liveBlocks (h : Ledger) : ℕ := (h.live.map Extent.len).sum

/-- `used_blocks` has moved by the total size of the live extents, up to wrap-around. -/
def Counts (p₀ : Pmm) (h : Ledger) : Prop :=
  h.pmm.usedBlocks = p₀.usedBlocks + BitVec.ofNat 32 h.liveBlocks

theorem counts_init (p₀ : Pmm) : Counts p₀ ⟨p₀, []⟩ := by
  simp [Counts, liveBlocks]

/-- A call adds to the counter what it adds to the live extents. -/
theorem Counts.step (hc : Counts p₀ h) (hi : Accounts p₀ h) (h0 : p₀.isSet 0 = true) {op : FrameOp}
    (hs : h.step op = some h') : Counts p₀ h' := by
  rw [Counts] at hc ⊢
  cases op with
  | allocate n =>
    cases hf : h.pmm.findFreeBlocks n with
    | none =>
      have ha : h.pmm.allocateBlocks n = (0, h.pmm) := by rw [Pmm.allocateBlocks, hf]
      simp only [Ledger.step, ha, if_pos] at hs
      cases hs
      exact hc
    | some s =>
      obtain ⟨hpos, -, -, -⟩ := hi.of_some h0 hf
      have hne : s * blockSize ≠ 0 := Nat.mul_ne_zero (by omega) (by decide)
      simp only [Ledger.step, Pmm.allocateBlocks, hf, if_neg hne] at hs
      cases hs
      show h.pmm.usedBlocks + BitVec.ofNat 32 n =
        p₀.usedBlocks + BitVec.ofNat 32 (n + h.liveBlocks)
      rw [hc, Nat.add_comm n, BitVec.ofNat_add, BitVec.add_assoc]
  | free i =>
    simp only [Ledger.step, Option.map_eq_some_iff] at hs
    obtain ⟨e, he, rfl⟩ := hs
    show h.pmm.usedBlocks - BitVec.ofNat 32 e.len = _
    rw [hc, liveBlocks, sum_len_eraseIdx he, Nat.add_comm e.len, BitVec.ofNat_add,
      ← BitVec.add_assoc, BitVec.add_sub_cancel]
    rfl

/-- In every history the null address means that there is no such run of clear blocks. -/
theorem Accounts.allocateBlocks_eq_zero_iff (hi : Accounts p₀ h) (h0 : p₀.isSet 0 = true) (n : ℕ) :
    (h.pmm.allocateBlocks n).1 = 0 ↔ n = 0 ∨ ∀ t, ¬ h.pmm.FreeRun t n := by
  rw [Pmm.allocateBlocks]
  cases hf : h.pmm.findFreeBlocks n with
  | none =>
    refine iff_of_true rfl ?_
    rcases Nat.eq_zero_or_pos n with hn | hn
    · exact Or.inl hn
    · exact Or.inr (Pmm.findFreeBlocks_none hf hn)
  | some s =>
    obtain ⟨hpos, hn, -, -⟩ := hi.of_some h0 hf
    have hne : s * blockSize ≠ 0 := Nat.mul_ne_zero (by omega) (by decide)
    refine iff_of_false hne ?_
    rintro (rfl | hnone)
    · exact Nat.lt_irrefl 0 hn
    · exact hnone s (Pmm.findFreeBlocks_some hf).2.1

/-- What a client may rely on after any history that started at the bitmap of `p₀`. -/
structure Books (p₀ : Pmm) (h : Ledger) : Prop where
  apart : h.live.Pairwise Apart
  inside : ∀ e ∈ h.live, e.start + e.len ≤ p₀.maxBlocks
  fresh : ∀ e ∈ h.live, ∀ b, e.Covers b → p₀.isSet b = false
  isSet : ∀ b, h.pmm.isSet b = true ↔ p₀.isSet b = true ∨ Covered h.live b
  counts : Counts p₀ h
  null : ∀ n, (h.pmm.allocateBlocks n).1 = 0 ↔ n = 0 ∨ ∀ t, ¬ h.pmm.FreeRun t n

/-- **The allocator is correct over whole histories**: live extents are disjoint, inside the bitmap
and fresh, the bits and the counter say exactly which blocks are out, and the null address is
returned only when nothing fits. -/
theorem books_of_exec (h0 : p₀.isSet 0 = true) (hm : p₀.maxBlocks ≤ 0xFFFFF)
    {ops : List FrameOp} (hr : Run.exec Ledger.step ⟨p₀, []⟩ ops = some h) : Books p₀ h := by
  have hstep : ∀ (g : Ledger) op g', Accounts p₀ g ∧ Counts p₀ g → g.step op = some g' →
      Accounts p₀ g' ∧ Counts p₀ g' :=
    fun _ _ _ hi hs ↦ ⟨hi.1.step h0 hm hs, hi.2.step hi.1 h0 hs⟩
  obtain ⟨hi, hc⟩ := Run.exec_invariant hstep ⟨accounts_init p₀, counts_init p₀⟩ hr
  refine ⟨hi.apart, fun e he ↦ (hi.inside e he).2.2, hi.fresh, fun b ↦ ?_, hc,
    hi.allocateBlocks_eq_zero_iff h0⟩
  rw [hi.isSet, Bool.or_eq_true, decide_eq_true_iff]

/-- Four blocks, of which block 0 is in use. -/
def fourBlocks : Pmm := ⟨fun i ↦ if i = 0 then 1 else 0, 4, 1⟩

/-- Two allocations from four blocks, and the first one given back. -/
theorem books_fourBlocks :
    ∃ h, Run.exec Ledger.step ⟨fourBlocks, []⟩ [.allocate 2, .allocate 1, .free 1] = some h ∧
      h.live.length = 1 ∧ Books fourBlocks h := by
  have hr : (Run.exec Ledger.step ⟨fourBlocks, []⟩ [.allocate 2, .allocate 1, .free 1]).isSome :=
    by decide
  obtain ⟨h, hh⟩ := Option.isSome_iff_exists.mp hr
  refine ⟨h, hh, ?_, books_of_exec (by decide) (by decide) hh⟩
  have hlive : (Run.exec Ledger.step ⟨fourBlocks, []⟩ [.allocate 2, .allocate 1, .free 1]).map
      (fun h ↦ h.live.length) = some 1 := by decide
  rw [hh] at hlive
  exact Option.some.inj hlive

/-! ## Every clear block is handed out sooner or later -/

/-- The number of clear blocks below `b`. -/
def clearBelow (p : Pmm) : ℕ → ℕ
  | 0 => 0
  | b + 1 => clearBelow p b + (if p.isSet b then 0 else 1)

/-- Setting a clear block leaves one clear block less below any later one. -/
theorem clearBelow_lt {p q : Pmm} {s : ℕ} (hs : p.isSet s = false)
    (hq : ∀ b, q.isSet b = (decide (b = s) || p.isSet b)) :
    ∀ b, clearBelow q b = clearBelow p b - (if s < b then 1 else 0) ∧
      (s < b → 0 < clearBelow p b)
  | 0 => ⟨rfl, fun h ↦ absurd h (by omega)⟩
  | b + 1 => by
    obtain ⟨h1, h2⟩ := clearBelow_lt hs hq b
    simp only [clearBelow, hq b, h1]
    rcases Nat.lt_trichotomy s b with hlt | rfl | hgt
    · have := h2 hlt
      simp only [hlt, if_true, decide_eq_false (show ¬ b = s by omega), Bool.false_or,
        if_pos (show s < b + 1 by omega)]
      exact ⟨by omega, fun _ ↦ by omega⟩
    · simp [hs]
    · simp only [if_neg (show ¬ s < b by omega), if_neg (show ¬ s < b + 1 by omega),
        decide_eq_false (show ¬ b = s by omega), Bool.false_or]
      exact ⟨by omega, fun h ↦ absurd h (by omega)⟩

/-- A history of single-frame allocations that ends with block `b` being handed out. -/
theorem exists_exec_handsOut (b : ℕ) (hb : 0 < b) : ∀ (k : ℕ) (h : Ledger),
    clearBelow h.pmm b ≤ k → h.pmm.isSet 0 = true → h.pmm.isSet b = false →
    b < h.pmm.maxBlocks →
    ∃ ops h' q, Run.exec Ledger.step h ops = some h' ∧
      h'.pmm.allocateBlocks 1 = (b * blockSize, q)
  | k, h, hk, h0, hclear, hlt => by
    have hrun : h.pmm.FreeRun b 1 :=
      ⟨by omega, fun j hj ↦ by rw [show j = 0 by omega]; exact hclear⟩
    obtain ⟨s, hs, hle⟩ := Pmm.exists_findFreeBlocks Nat.one_pos hrun
    obtain ⟨hf, ha⟩ | ⟨s', q, hf, ha, hmax, hbits⟩ := h.pmm.allocateBlocks_cases 1
    · rw [hs] at hf; exact absurd hf (by simp)
    obtain rfl : s = s' := by rw [hs] at hf; exact Option.some.inj hf
    rcases Nat.eq_or_lt_of_le hle with rfl | hsb
    · exact ⟨[], h, q, rfl, ha⟩
    -- the first clear block lies below `b`: take it and go on
    have hsclear : h.pmm.isSet s = false := by
      simpa using (Pmm.findFreeBlocks_some hs).2.1.2 0 Nat.one_pos
    have hs0 : s ≠ 0 := by rintro rfl; rw [h0] at hsclear; exact absurd hsclear (by simp)
    have hq : ∀ c, q.isSet c = (decide (c = s) || h.pmm.isSet c) := fun c ↦ by
      rw [hbits]; congr 1; exact decide_eq_decide.mpr (by omega)
    have hbs : blockSize = 4096 := rfl
    have hstep : h.step (.allocate 1) = some ⟨q, ⟨s * blockSize / blockSize, 1⟩ :: h.live⟩ := by
      simp only [Ledger.step, ha, if_neg (show s * blockSize ≠ 0 by rw [hbs]; omega)]
    obtain ⟨hcount, hpos⟩ := clearBelow_lt hsclear hq b
    rw [if_pos hsb] at hcount
    have hpos' := hpos hsb
    cases k with
    | zero => omega
    | succ k =>
      obtain ⟨ops, h', q', hr, hq'⟩ := exists_exec_handsOut b hb k ⟨q, _ :: h.live⟩
        (show clearBelow q b ≤ k by omega) (show q.isSet 0 = true by rw [hq, h0]; simp)
        (show q.isSet b = false by rw [hq, hclear, decide_eq_false (by omega)]; rfl)
        (show b < q.maxBlocks by omega)
      exact ⟨.allocate 1 :: ops, h', q', Run.exec_cons.mpr ⟨_, hstep, hr⟩, hq'⟩

end Ledger

end AbOS
