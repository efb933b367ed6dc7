import AbOS.Memory.Vmm

/-!
# A memory in which every page is present

Many functions of the kernel access memory wherever their arguments say.  What such an access does
to pages that are present is seen best in a memory where all of them are: `Vmm.ofPages T data` has
its directory in frame 0 and its 1024 page tables in the frames behind it, and the page `p` leads to
the frame `T p`.  `walk_ofPages` says so.
-/

set_option autoImplicit false

namespace AbOS

namespace Vmm

/-- The frames of the directory and the page tables. -/
def pagingFrames : ℕ := 1025

/-- The word at `4 * q`: an entry of the directory, and behind these an entry for each page. -/
def pagingWord (T : ℕ → ℕ) (q : ℕ) : ℕ :=
  if q < 1024 then (1 + q) * 4096 + 7 else T (q - 1024) * 4096 + 7

/-- The memory whose page `p` leads to the frame `T p`. -/
def ofPages (T : ℕ → ℕ) (data : ByteStore) : Vmm where
  ram := fun x ↦
    if x < pagingFrames * 4096 then (ByteStore.leBytes 4 (pagingWord T (x / 4))).getD (x % 4) 0
    else data x
  pmm := ⟨fun _ ↦ 0, 0, 0⟩
  directory := 0

variable {T : ℕ → ℕ} (data : ByteStore)

theorem readWord_ofPages {q : ℕ} (hq : q < pagingFrames * 1024) (hword : pagingWord T q < 2 ^ 32) :
    (ofPages T data).ram.readWord (4 * q) = pagingWord T q := by
  have hslice : (ofPages T data).ram.slice (4 * q) 4 = ByteStore.leBytes 4 (pagingWord T q) := by
    refine List.ext_getElem (by simp) fun i h₁ h₂ ↦ ?_
    rw [ByteStore.length_slice] at h₁
    rw [← List.getD_eq_getElem _ 0, ByteStore.getD_slice _ _ _ _ h₁, ← List.getD_eq_getElem _ 0 h₂]
    rw [pagingFrames] at hq
    rw [ofPages]
    dsimp only
    rw [if_pos (by rw [pagingFrames]; omega), show (4 * q + i) / 4 = q by omega,
      show (4 * q + i) % 4 = i by omega]
  rw [ByteStore.readWord, hslice, ByteStore.ofLe_leBytes]
  exact Nat.mod_eq_of_lt hword

theorem entry_ofPages {i : ℕ} (hi : i < 1024) : (ofPages T data).entry i = (1 + i) * 4096 + 7 := by
  have hword : pagingWord T i = (1 + i) * 4096 + 7 := if_pos hi
  have h := readWord_ofPages (T := T) data (q := i) (by rw [pagingFrames]; omega) (by omega)
  rw [entry]
  show (ofPages T data).ram.readWord (0 + 4 * i) = _
  rw [Nat.zero_add, h, hword]

theorem table_ofPages {i : ℕ} (hi : i < 1024) : (ofPages T data).table i = (1 + i) * 4096 := by
  rw [table_eq, entry_ofPages data hi]
  omega

/-- The directory and the tables lie in the first frames. -/
theorem isPaging_ofPages {b : ℕ} : (ofPages T data).IsPaging b ↔ b < pagingFrames := by
  rw [pagingFrames]
  constructor
  · rintro (hb | ⟨i, hi, -, hb⟩)
    · change b * 4096 = 0 at hb
      omega
    · rw [table_ofPages data hi] at hb
      omega
  · intro hb
    rcases Nat.eq_zero_or_pos b with rfl | hpos
    · exact Or.inl rfl
    · refine Or.inr ⟨b - 1, by omega, ?_, ?_⟩
      · rw [entry_ofPages data (by omega)]
        omega
      · rw [table_ofPages data (by omega)]
        omega

variable (hT : ∀ p, T p < 2 ^ 20)
include hT

/-- **Every page is present.** -/
theorem walk_ofPages {v : ℕ} (hv : v < 2 ^ 32) :
    (ofPages T data).walk v = some (T (v / 4096) * 4096, 7) := by
  have hpd := pdIndex_lt hv
  have hindex : (1 + pdIndex v) * 4096 + 4 * ptIndex v = 4 * (1024 + v / 4096) := by
    rw [pdIndex_eq, ptIndex_eq]
    omega
  have hword : pagingWord T (1024 + v / 4096) = T (v / 4096) * 4096 + 7 := by
    rw [pagingWord, if_neg (by omega), Nat.add_sub_cancel_left]
  have hlt := hT (v / 4096)
  have hpte : (ofPages T data).pte v = T (v / 4096) * 4096 + 7 := by
    rw [pte, getPage, table_ofPages data hpd, hindex,
      readWord_ofPages data (by rw [pagingFrames]; omega) (by omega), hword]
  have hflags : (T (v / 4096) * 4096 + 7) / 4096 * 4096 = T (v / 4096) * 4096 ∧
      (T (v / 4096) * 4096 + 7) % 4096 = 7 := by omega
  rw [walk_eq, entry_ofPages data hpd, hpte, if_pos (by omega), hflags.1, hflags.2]

end Vmm

end AbOS
