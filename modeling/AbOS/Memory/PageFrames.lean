import AbOS.Memory.Initialize

/-!
# Frames of page-table entries

`alloc_page` takes a frame for an entry and `free_page` gives it back.  `Accounts` says what a
bitmap and a set of entries have to do with each other: behind the blocks that were in use at the
start, the set bits are the frames of the present entries.

`free_page` hands the *address* of the frame to `free_blocks`, which takes the number of a block, so
the frame is never given back (`not_restores`), and another block is.  `SET_FRAME` leaves bit 31 of
an entry as it is, so an entry that was used for a frame above 2 GiB is no good for one below.  Runs
that avoid both keep the accounts (`accounts_of_meets`).
-/

set_option autoImplicit false

namespace AbOS

/-- `alloc_page` on an entry that holds `e`: whether it succeeds, and the entry afterwards. -/
def allocPage (p : Pmm) (e : ℕ) : Bool × ℕ × Pmm :=
  let (frame, p) := p.allocateBlocks 1
  if frame = 0 then (false, e, p) else (true, setFrame e frame ||| 0x01, p)

/-- `free_page` on an entry that holds `e`. -/
def freePage (p : Pmm) (e : ℕ) : ℕ × Pmm :=
  (e &&& 0xFFFFFFFE, if frameOf e ≠ 0 then p.freeBlocks (frameOf e) 1 else p)

/-- **`free_page` undoes `alloc_page`** on an entry that holds `e`: bitmap and count are as before,
and the entry is not present. -/
def Restores (p : Pmm) (e : ℕ) : Prop :=
  let (_, e', p') := allocPage p e
  let (e'', p'') := freePage p' e'
  (∀ b, p''.isSet b = p.isSet b) ∧ p''.usedBlocks = p.usedBlocks ∧ e'' % 2 = 0

/-- The allocator and a set of entries. -/
structure PageFrames where
  pmm : Pmm
  /-- What each entry holds. -/
  entry : ℕ → ℕ

inductive PageFrameOp
  /-- `alloc_page` on an entry. -/
  | allocPage (i : ℕ)
  /-- `free_page` on an entry. -/
  | freePage (i : ℕ)

namespace PageFrames

/-- One call. -/
def step (s : PageFrames) : PageFrameOp → Option PageFrames
  | .allocPage i =>
    let (_, e, pmm) := AbOS.allocPage s.pmm (s.entry i)
    some ⟨pmm, Function.update s.entry i e⟩
  | .freePage i =>
    let (e, pmm) := AbOS.freePage s.pmm (s.entry i)
    some ⟨pmm, Function.update s.entry i e⟩

/-- **The accounts**: the set bits are those of `p` and the frames of the present entries, and no
bit from `max_blocks` on is touched. -/
def Accounts (p : Pmm) (s : PageFrames) : Prop :=
  (∀ b, s.pmm.isSet b = true ↔
    p.isSet b = true ∨ ∃ i, s.entry i % 2 = 1 ∧ frameOf (s.entry i) = b * blockSize) ∧
  ∀ b, p.maxBlocks ≤ b → s.pmm.isSet b = p.isSet b

/-- An allocation fails, or is for an entry that is not present and has bit 31 clear if the frame
has.  Freed are only entries that are not present and whose stale frame is 0 or does not have, as a
block number, its bit set. -/
def Kept (s : PageFrames) : PageFrameOp → Prop
  | .allocPage i => ∀ b, s.pmm.findFreeBlocks 1 = some b →
    s.entry i % 2 = 0 ∧ (s.entry i < 2 ^ 31 ∨ 2 ^ 31 ≤ b * blockSize)
  | .freePage i => s.entry i % 2 = 0 ∧
    (frameOf (s.entry i) = 0 ∨ s.pmm.isSet (frameOf (s.entry i)) = false)

end PageFrames

/-! ## The macros on an entry -/

section Entry

variable {e a b : ℕ}

theorem or_high {x : ℕ} (hx : x < 2 ^ 20) :
    2 ^ 19 ||| x = if x < 2 ^ 19 then 2 ^ 19 + x else x := by
  have hadd {y : ℕ} (hy : y < 2 ^ 19) : 2 ^ 19 ||| y = 2 ^ 19 + y := by
    have h := Nat.two_pow_add_eq_or_of_lt hy 1
    rw [Nat.mul_one] at h
    exact h.symm
  split
  · rename_i hlt
    exact hadd hlt
  · obtain ⟨y, rfl⟩ : ∃ y, x = 2 ^ 19 + y := ⟨x - 2 ^ 19, by omega⟩
    rw [← hadd (by omega), ← Nat.or_assoc, Nat.or_self]

/-- **`SET_FRAME`** keeps the flags of the entry, and bit 31. -/
theorem setFrame_div (he : e < 2 ^ 32) (ha : a < 2 ^ 32) :
    setFrame e a / 4096 = if e < 2 ^ 31 ∨ 2 ^ 31 ≤ a then a / 4096 else 2 ^ 19 + a / 4096 := by
  have hbit : (e / 4096) &&& 2 ^ 19 = if e < 2 ^ 31 then 0 else 2 ^ 19 := by
    rw [Nat.and_two_pow, Nat.testBit_eq_decide_div_mod_eq]
    split
    · rw [decide_eq_false (by omega)]
      rfl
    · rw [decide_eq_true (by omega)]
      rfl
  rw [setFrame, show 4096 = 2 ^ 12 by decide, Nat.or_div_two_pow, Nat.and_div_two_pow,
    show 0x80000FFF / 2 ^ 12 = 2 ^ 19 by decide, show 2 ^ 12 = 4096 by decide, hbit]
  split
  · rename_i hlt
    rw [if_pos (Or.inl hlt), Nat.zero_or]
  · rename_i hlt
    rw [or_high (by omega)]
    split
    · rw [if_neg (by omega)]
    · rw [if_pos (by omega)]

theorem setFrame_lt (ha : a < 2 ^ 32) : setFrame e a < 2 ^ 32 :=
  Nat.or_lt_two_pow (Nat.lt_of_le_of_lt Nat.and_le_right (by decide)) ha

/-- `SET_ATTRIBUTE` leaves the frame alone. -/
theorem or_flags_div {f : ℕ} (hf : f < 4096) : (e ||| f) / 4096 = e / 4096 := by
  rw [show 4096 = 2 ^ 12 by decide, Nat.or_div_two_pow, Nat.div_eq_of_lt (a := f) hf, Nat.or_zero]

/-- `CLEAR_ATTRIBUTE` of the present bit. -/
theorem clearPresent_eq (he : e < 2 ^ 32) : e &&& 0xFFFFFFFE = e / 2 * 2 := by
  have hdiv : (e &&& 0xFFFFFFFE) / 2 = e / 2 := by
    rw [show 2 = 2 ^ 1 by decide, Nat.and_div_two_pow, show 0xFFFFFFFE / 2 ^ 1 = 2 ^ 31 - 1 by decide,
      Nat.and_two_pow_sub_one_eq_mod, Nat.mod_eq_of_lt (by omega)]
  have hmod : (e &&& 0xFFFFFFFE) % 2 = 0 := by
    rw [show 2 = 2 ^ 1 by decide, Nat.and_mod_two_pow]
    exact Nat.and_zero _
  omega

end Entry

/-! ## One call -/

section Call

variable {p : Pmm} {e b : ℕ}

theorem allocPage_none (h : p.findFreeBlocks 1 = none) : allocPage p e = (false, e, p) := by
  rw [allocPage, Pmm.allocateBlocks, h]
  rfl

theorem allocPage_some (h : p.findFreeBlocks 1 = some b) (hzero : p.isSet 0 = true) :
    allocPage p e = (true, setFrame e (b * blockSize) ||| 0x01, (p.allocateBlocks 1).2) := by
  have hb : b * blockSize ≠ 0 := fun h0 ↦ by
    obtain ⟨-, hclear, -⟩ := Pmm.findFreeBlocks_one_lt h
    obtain rfl : b = 0 := by
      rw [blockSize] at h0
      omega
    rw [hzero] at hclear
    cases hclear
  rw [allocPage]
  dsimp only
  rw [(Pmm.allocateBlocks_one h).1, if_neg hb]

/-- What the entry of a new frame holds. -/
theorem setFrame_or_one (hb : b * blockSize < 2 ^ 32) (he : e < 2 ^ 32) :
    setFrame e (b * blockSize) ||| 0x01 < 2 ^ 32 ∧ (setFrame e (b * blockSize) ||| 0x01) % 2 = 1 ∧
      frameOf (setFrame e (b * blockSize) ||| 0x01) =
        if e < 2 ^ 31 ∨ 2 ^ 31 ≤ b * blockSize then b * blockSize
        else 2 ^ 31 + b * blockSize := by
  have hlt : setFrame e (b * blockSize) ||| 0x01 < 2 ^ 32 :=
    Nat.or_lt_two_pow (setFrame_lt hb) (by decide)
  refine ⟨hlt, ?_, ?_⟩
  · rw [show 2 = 2 ^ 1 by decide, Nat.or_mod_two_pow]
    rcases Nat.mod_two_eq_zero_or_one (setFrame e (b * blockSize)) with h | h <;> rw [h] <;> rfl
  · rw [frameOf_eq hlt, or_flags_div (by decide), setFrame_div he hb, blockSize]
    split <;> omega

/-- **Freeing the page of a new frame** clears another bit. -/
theorem not_restores (hzero : p.isSet 0 = true) (hmax : p.maxBlocks ≤ 0xFFFFF) (he : e < 2 ^ 32)
    (hok : (allocPage p e).1 = true) : ¬ Restores p e := by
  cases hfind : p.findFreeBlocks 1 with
  | none =>
    rw [allocPage_none hfind] at hok
    cases hok
  | some b =>
    obtain ⟨hb, hclear, -⟩ := Pmm.findFreeBlocks_one_lt hfind
    obtain ⟨-, -, hset⟩ := Pmm.allocateBlocks_one hfind
    have hb0 : b ≠ 0 := fun h0 ↦ by
      rw [h0, hzero] at hclear
      cases hclear
    have hb32 : b * blockSize < 2 ^ 32 := by
      rw [blockSize]
      omega
    obtain ⟨hlt, -, hframe⟩ := setFrame_or_one hb32 he
    rw [Restores, allocPage_some hfind hzero]
    dsimp only [freePage]
    generalize setFrame e (b * blockSize) ||| 0x01 = e' at hlt hframe
    rintro ⟨hbits, -⟩
    -- the bit of the frame is still set
    have hbit := hbits b
    rw [hclear] at hbit
    split at hbit
    · rw [Pmm.isSet_freeBlocks _ (by rw [frameOf_eq hlt]; omega), hset, decide_eq_true rfl,
        Bool.true_or, Bool.and_true, decide_eq_false, Bool.not_false] at hbit
      · cases hbit
      · rw [hframe, blockSize]
        split <;> omega
    · rw [hset, decide_eq_true rfl, Bool.true_or] at hbit
      cases hbit

end Call

/-! ## Runs -/

namespace PageFrames

section Runs

variable {p : Pmm} {s t : PageFrames} {entry : ℕ → ℕ} {ops : List PageFrameOp}

/-- The invariant. -/
structure Accounted (p : Pmm) (s : PageFrames) : Prop where
  maxBlocks : s.pmm.maxBlocks = p.maxBlocks
  entry_lt : ∀ i, s.entry i < 2 ^ 32
  accounts : Accounts p s

theorem Accounted.allocPage (h : Accounted p s) (hzero : p.isSet 0 = true)
    (hmax : p.maxBlocks ≤ 0xFFFFF) {i : ℕ} (hkept : Kept s (.allocPage i))
    (hstep : step s (.allocPage i) = some t) : Accounted p t := by
  rw [step] at hstep
  cases hfind : s.pmm.findFreeBlocks 1 with
  | none =>
    rw [allocPage_none hfind, Option.some.injEq] at hstep
    rw [Function.update_eq_self] at hstep
    exact hstep ▸ h
  | some b =>
    have hzero' : s.pmm.isSet 0 = true := (h.accounts.1 0).mpr (Or.inl hzero)
    obtain ⟨hb, hclear, -⟩ := Pmm.findFreeBlocks_one_lt hfind
    obtain ⟨-, hqmax, hqset⟩ := Pmm.allocateBlocks_one hfind
    rw [h.maxBlocks] at hb
    have hb32 : b * blockSize < 2 ^ 32 := by
      rw [blockSize]
      omega
    obtain ⟨hlt, hpresent, hframe⟩ := setFrame_or_one hb32 (h.entry_lt i)
    obtain ⟨hnot, hhigh⟩ := hkept b hfind
    rw [if_pos hhigh] at hframe
    rw [allocPage_some hfind hzero', Option.some.injEq] at hstep
    generalize setFrame (s.entry i) (b * blockSize) ||| 0x01 = e at hlt hpresent hframe hstep
    subst hstep
    refine ⟨hqmax.trans h.maxBlocks, fun j ↦ ?_, fun c ↦ ?_, fun c hc ↦ ?_⟩
    · dsimp only
      rw [Function.update_apply]
      split
      · exact hlt
      · exact h.entry_lt j
    · dsimp only
      rw [hqset, Bool.or_eq_true, decide_eq_true_iff, h.accounts.1]
      constructor
      · rintro (rfl | hold | ⟨j, hj, hjc⟩)
        · exact Or.inr ⟨i, by rwa [Function.update_self], by rwa [Function.update_self]⟩
        · exact Or.inl hold
        · have hji : j ≠ i := fun heq ↦ by
            rw [heq] at hj
            omega
          exact Or.inr ⟨j, by rwa [Function.update_of_ne hji], by rwa [Function.update_of_ne hji]⟩
      · rintro (hold | ⟨j, hj, hjc⟩)
        · exact Or.inr (Or.inl hold)
        · by_cases hji : j = i
          · rw [hji, Function.update_self, hframe] at hjc
            exact Or.inl (Nat.eq_of_mul_eq_mul_right (by decide) hjc).symm
          · rw [Function.update_of_ne hji] at hj hjc
            exact Or.inr (Or.inr ⟨j, hj, hjc⟩)
    · dsimp only
      rw [hqset, decide_eq_false (by omega), Bool.false_or]
      exact h.accounts.2 c hc

theorem Accounted.freePage (h : Accounted p s) {i : ℕ} (hkept : Kept s (.freePage i))
    (hstep : step s (.freePage i) = some t) : Accounted p t := by
  obtain ⟨hnot, hstale⟩ := hkept
  have hlt := h.entry_lt i
  have hsame : s.entry i / 2 * 2 = s.entry i := by omega
  rw [step, AbOS.freePage, clearPresent_eq hlt, hsame, Option.some.injEq] at hstep
  rw [Function.update_eq_self] at hstep
  subst hstep
  split
  · rename_i hframe
    have hclear := hstale.resolve_left hframe
    have hset (c : ℕ) : (s.pmm.freeBlocks (frameOf (s.entry i)) 1).isSet c = s.pmm.isSet c := by
      rw [Pmm.isSet_freeBlocks _ (by rw [frameOf_eq hlt]; omega)]
      by_cases hc : c = frameOf (s.entry i)
      · rw [hc, hclear, Bool.and_false]
      · rw [decide_eq_false (by omega), Bool.not_false, Bool.true_and]
    refine ⟨(Pmm.freeBlocks_maxBlocks ..).trans h.maxBlocks, h.entry_lt, fun c ↦ ?_, fun c hc ↦ ?_⟩
    · rw [hset]
      exact h.accounts.1 c
    · rw [hset]
      exact h.accounts.2 c hc
  · exact h

/-- **Frames of entries**: `free_page` never undoes `alloc_page`, and runs that free no frame and
reuse no high entry keep the accounts. -/
theorem accounts_of_meets (hzero : p.isSet 0 = true) (hmax : p.maxBlocks ≤ 0xFFFFF) :
    (∀ e, e < 2 ^ 32 → (AbOS.allocPage p e).1 = true → ¬ Restores p e) ∧
    ∀ (entry : ℕ → ℕ) (ops : List PageFrameOp) (s : PageFrames),
      (∀ i, entry i < 2 ^ 32 ∧ entry i % 2 = 0) → Run.Meets step Kept ⟨p, entry⟩ ops →
        Run.exec step ⟨p, entry⟩ ops = some s → Accounts p s := by
  refine ⟨fun e he hok ↦ not_restores hzero hmax he hok, fun entry ops s hentry hkept hrun ↦ ?_⟩
  have hstart : Accounted p ⟨p, entry⟩ := by
    refine ⟨rfl, fun i ↦ (hentry i).1, fun b ↦ ⟨Or.inl, ?_⟩, fun _ _ ↦ rfl⟩
    rintro (hold | ⟨i, hi, -⟩)
    · exact hold
    · have := (hentry i).2
      dsimp only at hi
      omega
  refine (hkept.invariant (Accounted p) (fun s op t h hop hstep ↦ ?_) hstart hrun).accounts
  cases op with
  | allocPage i => exact h.allocPage hzero hmax hop hstep
  | freePage i => exact h.freePage hop hstep

/-- A bitmap of eight blocks, of which the first is in use. -/
def eightBlocks : Pmm := ⟨fun i ↦ if i = 0 then 1 else 0, 8, 1⟩

/-- A page is allocated, and an empty entry freed. -/
theorem accounts_eightBlocks : ∃ s, Run.exec step ⟨eightBlocks, fun _ ↦ 0⟩
    [.allocPage 0, .freePage 1] = some s ∧ s.entry 0 = 0x1001 ∧ Accounts eightBlocks s := by
  refine ⟨_, rfl, by decide, (accounts_of_meets (p := eightBlocks) (by decide) (by decide)).2
    (fun _ ↦ 0) [.allocPage 0, .freePage 1] _ (fun _ ↦ ⟨by decide, rfl⟩) ?_ rfl⟩
  refine ⟨fun _ _ ↦ ⟨rfl, Or.inl (by decide)⟩, fun t ht ↦ ?_⟩
  obtain rfl := Option.some.inj ht
  exact ⟨⟨rfl, Or.inl rfl⟩, fun _ _ ↦ trivial⟩

/-- The page that was allocated is freed: block 1 stays marked, and the entry is not present. -/
theorem not_accounts_eightBlocks : (allocPage eightBlocks 0).1 = true ∧
    ¬ Restores eightBlocks 0 ∧
    ∃ s, Run.exec step ⟨eightBlocks, fun _ ↦ 0⟩ [.allocPage 0, .freePage 0] = some s ∧
      s.pmm.isSet 1 = true ∧ ¬ Accounts eightBlocks s := by
  have hok : (allocPage eightBlocks 0).1 = true := by decide
  refine ⟨hok, not_restores (by decide) (by decide) (by decide) hok, _, rfl, by decide, ?_⟩
  rintro ⟨hbits, -⟩
  rcases (hbits 1).mp (by decide) with hold | ⟨i, hi, -⟩
  · exact absurd hold (by decide)
  · -- no entry is present
    by_cases hi0 : i = 0
    · subst hi0
      exact absurd hi (by decide)
    · simp [Function.update_of_ne hi0] at hi

end Runs

end PageFrames

end AbOS
