import AbOS.Syscalls.Isolation
import AbOS.Syscalls.NoFrame
import Mathlib.Data.Finset.Max

/-!
# What closing gives back

The last `sys_close` of a descriptor has to take back what `sys_open` and `sys_write` have mapped for
it.  `free_page` hands the address of a frame to `free_blocks`, which takes the number of a block:
the bit of the frame at `f * 4096` stays set, and bit `f * 4096` is cleared.  The lowest frame of a
file is therefore never given back (`not_closesExactly_of_meets`).

A file without frames of its own can be closed as it should: when no frame is free, its pages lead to
frame 0, and there is nothing to give back (`closesExactly_of_meets`).

The loop is taken apart into what it does to the page tables, `clearPages`, and the bits that it
clears, `freedBits` (`closePages_eq`).
-/

set_option autoImplicit false

namespace AbOS

namespace Vmm

/-- The loop of `sys_close` without the frees. -/
def clearPages (m : Vmm) (address : ℕ) : ℕ → Vmm
  | 0 => m
  | i + 1 =>
    let virt := (address + i * pageSize) % 2 ^ 32
    let m := clearPages m address i
    (m.putPte virt (m.pte virt &&& 0xFFFFFFFE)).unmapPage virt

/-- The bits that the loop clears: the address in each entry that has one. -/
def freedBits (m : Vmm) (address : ℕ) : ℕ → List ℕ
  | 0 => []
  | i + 1 =>
    let p := frameOf ((m.clearPages address i).pte ((address + i * pageSize) % 2 ^ 32))
    freedBits m address i ++ if p ≠ 0 then [p] else []

variable {m : Vmm} {address : ℕ}

/-- **The loop of `sys_close`**, taken apart. -/
theorem closePages_eq (m : Vmm) (address n : ℕ) : m.closePages address n =
    { m.clearPages address n with
      pmm := (m.freedBits address n).foldl (fun p b ↦ p.freeBlocks b 1) m.pmm } := by
  induction n with
  | zero => rfl
  | succ n ih =>
    rw [closePages, ih, freedBits, List.foldl_append, clearPages, freePage]
    dsimp only
    generalize (m.freedBits address n).foldl (fun p b ↦ p.freeBlocks b 1) m.pmm = q
    generalize (address + n * pageSize) % 2 ^ 32 = virt
    have hpte : ({ m.clearPages address n with pmm := q } : Vmm).pte virt =
        (m.clearPages address n).pte virt := rfl
    rw [hpte]
    by_cases hp : frameOf ((m.clearPages address n).pte virt) = 0
    · rw [if_neg (not_not.mpr hp), if_neg (not_not.mpr hp)]
      rfl
    · rw [if_pos hp, if_pos hp]
      rfl

/-- A bit that is cleared is the address in some entry. -/
theorem exists_entry_freedBits {b n : ℕ} (h : b ∈ m.freedBits address n) :
    b ≠ 0 ∧ ∃ e, b = frameOf e := by
  induction n with
  | zero => exact absurd h List.not_mem_nil
  | succ n ih =>
    rw [freedBits, List.mem_append] at h
    rcases h with h | h
    · exact ih h
    · split at h
      · rename_i hne
        rw [List.mem_singleton] at h
        exact ⟨h ▸ hne, _, h⟩
      · exact absurd h List.not_mem_nil

theorem mem_freedBits {b n : ℕ} (h : b ∈ m.freedBits address n) : b ≠ 0 ∧ b < 2 ^ 32 := by
  obtain ⟨hne, e, rfl⟩ := exists_entry_freedBits h
  have hle : frameOf e ≤ 0xFFFFF000 := Nat.and_le_right
  exact ⟨hne, lt_of_le_of_lt hle (by decide)⟩

/-- An entry without the present bit. -/
theorem WF.putPte_walk_clear (h : m.WF) {v e : ℕ} (hv : v < 2 ^ 32)
    (hne : m.entry (pdIndex v) ≠ 0) (he : e < 2 ^ 32) (heven : e % 2 = 0) :
    (m.putPte v e).walk v = none := by
  have hentry := h.putPte_entry hv hne (pdIndex_lt hv) (e := e)
  have hpte : (m.putPte v e).pte v = e :=
    (h.putPte_step hv hne 0 he).pte_stored v e hv List.lookup_cons_self (hentry.trans_ne hne)
  rw [walk_eq, hpte, if_neg fun hodd ↦ absurd (hodd.2.symm.trans heven) (by decide)]

/-- **The pages go, and no others.** -/
theorem WF.clearPages (h : m.WF) {k : ℕ} (hk : k ≤ 2 ^ 20)
    (hwalk : ∀ j < k, m.walk ((address + j * pageSize) % 2 ^ 32) ≠ none) :
    ∀ i ≤ k, (m.clearPages address i).WF ∧
      (∀ b, (m.clearPages address i).IsPaging b ↔ m.IsPaging b) ∧ ∀ v < 2 ^ 32,
        (m.clearPages address i).walk v =
          if ∃ j < i, v / pageSize = (address + j * pageSize) % 2 ^ 32 / pageSize then none
          else m.walk v
  | 0, _ => ⟨h, fun _ ↦ Iff.rfl, fun v _ ↦ (if_neg (by simp)).symm⟩
  | i + 1, hi => by
    obtain ⟨hwf, hpaging, hkeeps⟩ := h.clearPages hk hwalk i (by omega)
    have hv : (address + i * pageSize) % 2 ^ 32 < 2 ^ 32 := Nat.mod_lt _ (by decide)
    have hnew : ¬ ∃ j < i, (address + i * pageSize) % 2 ^ 32 / pageSize =
        (address + j * pageSize) % 2 ^ 32 / pageSize := by
      rintro ⟨j, hj, heq⟩
      rw [pageSize] at heq
      omega
    obtain ⟨w, hw⟩ := Option.ne_none_iff_exists'.mp
      (((hkeeps _ hv).trans (if_neg hnew)).trans_ne (hwalk i (by omega)))
    have hent := entry_ne_of_walk hw
    have hlow : ∀ e : ℕ, e &&& 0xFFFFFFFE < 2 ^ 32 := fun e ↦
      Nat.lt_of_le_of_lt Nat.and_le_right (by decide)
    rw [Vmm.clearPages]
    generalize m.clearPages address i = m₁ at hwf hpaging hkeeps hent
    generalize hpage : (address + i * pageSize) % 2 ^ 32 = page at *
    have hwf₁ := hwf.putPte hv hent (e := m₁.pte page &&& 0xFFFFFFFE)
    have hent₁ : (m₁.putPte page (m₁.pte page &&& 0xFFFFFFFE)).entry (pdIndex page) ≠ 0 := by
      rw [hwf.putPte_entry hv hent (pdIndex_lt hv)]
      exact hent
    rw [unmapPage]
    refine ⟨hwf₁.putPte hv hent₁, fun b ↦ ?_, fun v hlt ↦ ?_⟩
    · rw [hwf₁.putPte_isPaging hv hent₁, hwf.putPte_isPaging hv hent, hpaging]
    by_cases hvp : v / pageSize = page / pageSize
    · rw [if_pos ⟨i, Nat.lt_succ_self i, hvp.trans (by rw [hpage])⟩, walk_page hvp]
      refine hwf₁.putPte_walk_clear hv hent₁ (hlow _) ?_
      rw [← Nat.and_one_is_mod, Nat.and_assoc]
      exact Nat.and_zero _
    · rw [hwf₁.putPte_walk hv hent₁ (hlow _) hlt hvp, hwf.putPte_walk hv hent (hlow _) hlt hvp,
        hkeeps v hlt]
      refine if_congr ?_ rfl rfl
      constructor
      · rintro ⟨j, hj, heq⟩
        exact ⟨j, by omega, heq⟩
      · rintro ⟨j, hj, heq⟩
        rcases Nat.lt_succ_iff_lt_or_eq.mp hj with hj | rfl
        · exact ⟨j, hj, heq⟩
        · exact absurd (heq.trans (by rw [hpage])) hvp

/-- A page keeps its entry until the loop comes to it. -/
theorem WF.clearPages_next (h : m.WF) {k i : ℕ} (hk : k ≤ 2 ^ 20) (hi : i < k)
    (hwalk : ∀ j < k, m.walk ((address + j * pageSize) % 2 ^ 32) ≠ none) :
    (m.clearPages address i).walk ((address + i * pageSize) % 2 ^ 32) =
      m.walk ((address + i * pageSize) % 2 ^ 32) := by
  rw [(h.clearPages hk hwalk i hi.le).2.2 _ (Nat.mod_lt _ (by decide)), if_neg]
  rintro ⟨j, hj, heq⟩
  rw [pageSize] at heq
  omega

/-- Nothing is freed for pages of frame 0. -/
theorem WF.freedBits_zero (h : m.WF) {k : ℕ} (hk : k ≤ 2 ^ 20) (hpages : m.ZeroPages address k) :
    m.freedBits address k = [] := by
  have hmapped : ∀ j < k, m.walk ((address + j * pageSize) % 2 ^ 32) ≠ none := fun j hj ↦ by
    obtain ⟨flags, hw⟩ := hpages.walk j hj
    rw [hw]
    exact Option.some_ne_none _
  have hstep : ∀ i ≤ k, m.freedBits address i = [] := by
    intro i hi
    induction i with
    | zero => rfl
    | succ i ih =>
      obtain ⟨flags, hw⟩ := hpages.walk i hi
      rw [← h.clearPages_next hk hi hmapped] at hw
      rw [Vmm.freedBits, ih (Nat.le_of_succ_le hi), frameOf_pte hw]
      rfl
  exact hstep k (Nat.le_refl k)

/-- For pages with frames the bits are the addresses of the frames. -/
theorem WF.freedBits (h : m.WF) {k : ℕ} (hk : k ≤ 2 ^ 20) {f : ℕ → ℕ}
    (hwalk : ∀ j < k, ∃ fl, m.walk ((address + j * pageSize) % 2 ^ 32) = some (f j * 4096, fl))
    (hpos : ∀ j < k, f j ≠ 0) :
    m.freedBits address k = (List.range k).map fun j ↦ f j * 4096 := by
  have hmapped : ∀ j < k, m.walk ((address + j * pageSize) % 2 ^ 32) ≠ none := fun j hj ↦ by
    obtain ⟨fl, hw⟩ := hwalk j hj
    rw [hw]
    exact Option.some_ne_none _
  have hstep : ∀ i ≤ k, m.freedBits address i = (List.range i).map fun j ↦ f j * 4096 := by
    intro i hi
    induction i with
    | zero => rfl
    | succ i ih =>
      obtain ⟨fl, hw⟩ := hwalk i (by omega)
      rw [← h.clearPages_next hk (by omega) hmapped] at hw
      rw [Vmm.freedBits, ih (by omega), List.range_succ, List.map_append, frameOf_pte hw,
        if_pos (Nat.mul_ne_zero (hpos i (by omega)) (by decide))]
      rfl
  exact hstep k (Nat.le_refl k)

end Vmm

namespace Pmm

theorem isSet_foldl_freeBlocks {l : List ℕ} (h : ∀ b ∈ l, b < 2 ^ 32) (p : Pmm) (b : ℕ) :
    (l.foldl (fun p b ↦ p.freeBlocks b 1) p).isSet b = (!decide (b ∈ l) && p.isSet b) := by
  induction l generalizing p with
  | nil => simp
  | cons c l ih =>
    rw [List.foldl_cons, ih (fun b hb ↦ h b (List.mem_cons_of_mem _ hb)),
      isSet_freeBlocks _ (h c List.mem_cons_self), ← Bool.and_assoc, ← Bool.not_or,
      ← Bool.decide_or]
    congr 2
    refine decide_eq_decide.mpr ?_
    rw [List.mem_cons]
    constructor
    · rintro (hb | hb)
      · exact Or.inr hb
      · exact Or.inl (by omega)
    · rintro (rfl | hb)
      · exact Or.inr (by omega)
      · exact Or.inl hb

end Pmm

namespace Kernel

variable {s : Kernel} {d : ℕ}

/-- The pages that a `sys_close` takes back: the first address, and how many. -/
def closing (s : Kernel) (fileDescriptor : ℤ) : Option (ℕ × ℕ) :=
  if fileDescriptor < 0 then none
  else
    let d := fileDescriptor.toNat
    if (s.inodeOf d).iNumber = 0 ∨ (s.openFileTable d).maxCount ≠ 1 then none
    else some ((s.openFileTable d).address, filePageCount (s.inodeOf d).size)

/-- What the last `sys_close` of a descriptor does to the tables. -/
theorem sysClose_vmm (k : Kernel) (fileDescriptor : ℤ) :
    (k.sysClose fileDescriptor).2.vmm = (k.closing fileDescriptor).elim k.vmm fun c ↦
      k.vmm.closePages c.1 c.2 := by
  rw [sysClose, closing]
  split
  · rfl
  dsimp only
  by_cases hzero : (k.inodeOf fileDescriptor.toNat).iNumber = 0
  · rw [if_pos (Or.inl hzero), if_pos (Or.inl hzero)]
    rfl
  obtain ⟨count, hcount⟩ : ∃ n, n = (k.openFileTable fileDescriptor.toNat).maxCount := ⟨_, rfl⟩
  rw [← hcount]
  rcases count with _ | _ | count
  · rw [if_pos (Or.inr rfl), if_pos (Or.inr (by decide))]
    rfl
  · rw [if_neg (not_or.mpr ⟨hzero, by decide⟩), if_pos rfl,
      if_neg (not_or.mpr ⟨hzero, fun hne ↦ hne rfl⟩)]
    rfl
  · rw [if_neg (not_or.mpr ⟨hzero, Nat.succ_ne_zero _⟩),
      if_neg (show ¬ count + 1 + 1 - 1 = 0 by omega), if_pos (Or.inr (by omega))]
    rfl

theorem closing_last (hinode : (s.inodeOf d).iNumber ≠ 0) (hlast : (s.openFileTable d).maxCount = 1) :
    s.closing d = some ((s.openFileTable d).address, filePageCount (s.inodeOf d).size) := by
  rw [closing, if_neg (Int.not_lt.mpr (Int.natCast_nonneg d)), Int.toNat_natCast]
  exact if_neg (not_or.mpr ⟨hinode, not_not.mpr hlast⟩)

/-! ## Histories of one descriptor -/

/-- Since `s` a file has been opened at `d` and written to, and a `sys_close` in `t` undoes that: of
the pages that have been mapped, `pages_allocated` in number, each is present and goes, and no
other; the frames that have been taken for them are given back, and no others; and the allocator is
where it was in `s`, but for page tables. -/
structure ClosesExactly (s t : Kernel) (d : ℕ) : Prop where
  address : (t.openFileTable d).address = s.fileVirtualAddress
  taken : t.fileVirtualAddress =
    (s.fileVirtualAddress + (t.openFileTable d).pagesAllocated * pageSize) % 2 ^ 32
  present : ∀ j < (t.openFileTable d).pagesAllocated, t.vmm.walk (t.page d j) ≠ none
  pages : ∀ v < 2 ^ 32, (t.sysClose d).2.vmm.walk v =
    if ∃ j < (t.openFileTable d).pagesAllocated, v / pageSize = t.page d j / pageSize then none
    else t.vmm.walk v
  returned : ∀ b, (t.vmm.pmm.isSet b = true ∧ (t.sysClose d).2.vmm.pmm.isSet b = false) ↔
    s.vmm.pmm.isSet b = false ∧ ∃ j < (t.openFileTable d).pagesAllocated, ∃ flags,
      t.vmm.walk (t.page d j) = some (b * 4096, flags)
  frames : ∀ b, ¬ (t.sysClose d).2.vmm.IsPaging b →
    (t.sysClose d).2.vmm.pmm.isSet b = s.vmm.pmm.isSet b
  usedBlocks : ∃ tables : List ℕ, tables.Nodup ∧
    (∀ b ∈ tables, (t.sysClose d).2.vmm.IsPaging b ∧ s.vmm.pmm.isSet b = false) ∧
    (t.sysClose d).2.vmm.pmm.usedBlocks =
      s.vmm.pmm.usedBlocks + BitVec.ofNat 32 tables.length

section Histories

variable {s s₁ t : Kernel} {path : List UInt8} {flags leftover : ℕ} {writes : List WriteCall}

/-- What the last `sys_close` does to the memory. -/
theorem sysClose_vmm_last (hinode : (t.inodeOf d).iNumber ≠ 0)
    (hlast : (t.openFileTable d).maxCount = 1) {n : ℕ}
    (hn : filePageCount (t.inodeOf d).size = n) : (t.sysClose d).2.vmm =
      { t.vmm.clearPages (t.openFileTable d).address n with
        pmm := (t.vmm.freedBits (t.openFileTable d).address n).foldl
          (fun p b ↦ p.freeBlocks b 1) t.vmm.pmm } := by
  rw [sysClose_vmm, closing_last hinode hlast, Option.elim_some, hn, Vmm.closePages_eq]

/-- **A descriptor whose pages lead to frame 0** is closed as it should, if its size still asks for as
many pages as it has. -/
theorem ZeroFile.closesExactly (h : s.ZeroFile d t) (hinode : (t.inodeOf d).iNumber ≠ 0)
    (hlast : (t.openFileTable d).maxCount = 1)
    (hcount : filePageCount (t.inodeOf d).size = (t.openFileTable d).pagesAllocated) :
    ClosesExactly s t d := by
  have hpages := h.pages
  have hlt := h.count
  rw [← h.address] at hpages
  have hclose := sysClose_vmm_last hinode hlast hcount
  rw [h.step.wf.freedBits_zero (by omega) hpages, List.foldl_nil] at hclose
  have hmapped : ∀ j < (t.openFileTable d).pagesAllocated, t.vmm.walk (t.page d j) ≠ none :=
    fun j hj ↦ by
      obtain ⟨fl, hw⟩ := hpages.walk j hj
      rw [page, hw]
      exact Option.some_ne_none _
  obtain ⟨-, hpaging, hwalk⟩ :=
    h.step.wf.clearPages (show _ ≤ 2 ^ 20 by omega) hmapped _ (Nat.le_refl _)
  have hpmm : (t.sysClose d).2.vmm.pmm = t.vmm.pmm := by rw [hclose]
  refine ⟨h.address, h.next, hmapped, fun v hv ↦ ?_, fun b ↦ ?_, fun b _ ↦ ?_,
    [], List.nodup_nil, fun b hb ↦ absurd hb List.not_mem_nil, ?_⟩
  · rw [hclose]
    exact hwalk v hv
  · rw [hpmm]
    refine iff_of_false (fun hh ↦ Bool.false_ne_true (hh.2.symm.trans hh.1)) ?_
    rintro ⟨hclear, j, hj, fl, hw⟩
    -- a page that leads to frame 0
    obtain ⟨fl', hw'⟩ := hpages.walk j hj
    rw [page, hw'] at hw
    have hzero := congrArg Prod.fst (Option.some.inj hw)
    dsimp only at hzero
    obtain rfl : b = 0 := by omega
    rw [← h.step.pmm, h.step.wf.zero_set] at hclear
    cases hclear
  · rw [hpmm, h.step.pmm]
  · rw [hpmm, h.step.pmm]
    exact (BitVec.add_zero _).symm

/-- **Closing undoes opening and writing** when no frame is free at the opening, the page tables are
there, and the size at the end asks for as many pages as have been mapped. -/
theorem closesExactly_of_meets (hs : s.InOrder)
    (hopen : s.sysOpen path flags leftover = some ((d : ℤ), s₁))
    (hopens : OpensFull s (s.fs.getInode path) leftover)
    (hwrites : Run.Meets write (WritesZero d) s₁ writes) (hrun : Run.exec write s₁ writes = some t)
    (hcount : filePageCount (t.inodeOf d).size = (t.openFileTable d).pagesAllocated) :
    ClosesExactly s t d ∧ Vmm.BitmapKept s.vmm t.vmm := by
  obtain ⟨hfile, hmax, hnum⟩ := zeroFile_sysOpen hs hopens hopen
  obtain ⟨hfile, hsame⟩ := hwrites.invariant (fun u ↦ s.ZeroFile d u ∧ SameFiles s₁ u)
    (fun _ _ _ hu hc hstep ↦ (hu.1.write hopens.full hc hstep).imp_right hu.2.trans)
    ⟨hfile, SameFiles.refl s₁⟩ hrun
  refine ⟨hfile.closesExactly ?_ ((hsame.maxCount d).trans hmax) hcount, hfile.step.bitmap⟩
  exact (hsame.inodeOf d).1.trans_ne hnum

/-- The frames of `d` have been taken since `s`. -/
structure TakenSince (s : Kernel) (d : ℕ) (t : Kernel) (F : ℕ → ℕ → ℕ) : Prop where
  owns : t.OwnsPages F
  isOpen : d ∈ t.openFiles
  isSet : ∀ b, s.vmm.pmm.isSet b = true → t.vmm.pmm.isSet b = true
  pos : 0 < (t.openFileTable d).pagesAllocated
  fresh : ∀ j < (t.openFileTable d).pagesAllocated, s.vmm.pmm.isSet (F d j) = false

/-- **Closing never gives back what has been taken**: the bit of the lowest frame stays set. -/
theorem TakenSince.not_closesExactly {F : ℕ → ℕ → ℕ} (h : s.TakenSince d t F)
    (hinode : (t.inodeOf d).iNumber ≠ 0) (hlast : (t.openFileTable d).maxCount = 1)
    (hcount : filePageCount (t.inodeOf d).size ≤ (t.openFileTable d).pagesAllocated) :
    ¬ ClosesExactly s t d := by
  intro hcloses
  have hframes := hcloses.frames
  have hlt := h.owns.count d h.isOpen
  have hregion := h.owns.region d h.isOpen
  rw [sysClose_vmm_last hinode hlast rfl] at hframes
  generalize filePageCount (t.inodeOf d).size = n at hcount hframes
  have hwalk : ∀ j < n, ∃ fl, t.vmm.walk (((t.openFileTable d).address + j * pageSize) % 2 ^ 32) =
      some (F d j * 4096, fl) := fun j hj ↦ hregion.walk j (by omega)
  have hmapped : ∀ j < n, t.vmm.walk (((t.openFileTable d).address + j * pageSize) % 2 ^ 32) ≠ none :=
    fun j hj ↦ by
      obtain ⟨fl, hw⟩ := hwalk j hj
      rw [hw]
      exact Option.some_ne_none _
  have hpos := h.owns.pos d h.isOpen
  have hbits := h.owns.wf.freedBits (by omega) hwalk fun j hj ↦ hpos j (by omega)
  obtain ⟨-, hpaging, -⟩ := h.owns.wf.clearPages (by omega) hmapped n (Nat.le_refl n)
  obtain ⟨j₀, hj₀, hmin⟩ := Finset.exists_min_image
    (Finset.range (t.openFileTable d).pagesAllocated) (F d) ⟨0, Finset.mem_range.mpr h.pos⟩
  rw [Finset.mem_range] at hj₀
  have hkept := hframes (F d j₀) fun hp ↦ hregion.data j₀ hj₀ ((hpaging _).mp hp)
  dsimp only at hkept
  rw [Pmm.isSet_foldl_freeBlocks fun b hb ↦ (Vmm.mem_freedBits hb).2, h.fresh j₀ hj₀,
    h.owns.isSet d h.isOpen j₀ hj₀, Bool.and_true, Bool.not_eq_false', decide_eq_true_eq, hbits,
    List.mem_map] at hkept
  obtain ⟨j, hj, heq⟩ := hkept
  have hle := hmin j (Finset.mem_range.mpr (by have := List.mem_range.mp hj; omega))
  have hne := hpos j₀ hj₀
  omega

/-- A call of `sys_write` on the descriptor that stays inside. -/
def WritesTo (d : ℕ) (t : Kernel) (c : WriteCall) : Prop :=
  c.fileDescriptor = d ∧ t.StaysInside (.write c)

theorem write_sameFiles {u : Kernel} {c : WriteCall} (h : t.write c = some u) : SameFiles t u := by
  obtain ⟨⟨r, w⟩, hcall, rfl⟩ := Option.map_eq_some_iff.mp h
  exact (sysWrite_disk hcall).1

theorem TakenSince.write {u : Kernel} {F : ℕ → ℕ → ℕ} (h : s.TakenSince d t F) {c : WriteCall}
    (hin : WritesTo d t c) (hstep : t.write c = some u) : ∃ G, s.TakenSince d u G := by
  obtain ⟨hfd, hin⟩ := hin
  rcases h.owns.write_cases hin hstep with rfl | ⟨e, -, he, G, hchanges⟩
  · exact ⟨F, h⟩
  obtain rfl : d = e := by
    rw [hfd] at he
    exact_mod_cast he
  refine ⟨G, hchanges.owns, hchanges.isOpen h.isOpen, fun b hb ↦ hchanges.isSet b (h.isSet b hb),
    h.pos.trans_le hchanges.pages, fun j hj ↦ ?_⟩
  rcases Nat.lt_or_ge j (t.openFileTable d).pagesAllocated with hlt | hge
  · rw [hchanges.own j hlt]
    exact h.fresh j hlt
  · by_contra hset
    rw [Bool.not_eq_false] at hset
    exact Bool.false_ne_true ((hchanges.fresh j hge hj).symm.trans (h.isSet _ hset))

/-- The descriptor that is returned is the one that has been entered. -/
theorem takenSince_sysOpen {F : ℕ → ℕ → ℕ} {Keep : ℕ → Prop} (h : s.OwnsPages F)
    (hopens : OpensInside Keep s (s.fs.getInode path) leftover)
    (hslot : s.fileSlot (s.inodeSlot (s.fs.getInode path).iNumber) =
      some (s.inodeSlot (s.fs.getInode path).iNumber))
    (hopen : s.sysOpen path flags leftover = some ((d : ℤ), s₁)) :
    (∃ G, s.TakenSince d s₁ G) ∧ (s₁.openFileTable d).maxCount = 1 ∧
      (s₁.inodeOf d).iNumber ≠ 0 := by
  obtain ⟨-, hneg, -⟩ | ⟨hne, hret, d₁, vmm₁, hd₁, hload₁, rfl⟩ := sysOpen_cases hopen rfl
  · omega
  obtain ⟨d', vmm, f, ⟨hd, -⟩, hd', hload, hnew, -, howns, -⟩ := h.sysOpen hopens
  obtain rfl : vmm = vmm₁ := Option.some.inj (hload.symm.trans hload₁)
  have hlt := hopens.pages
  generalize s.fs.getInode path = inode at *
  have hindex : s.inodeSlot inode.iNumber = d := by exact_mod_cast hret.symm
  rw [hindex] at hslot hd' hd₁
  obtain rfl : d₁ = d := Option.some.inj (hd₁.symm.trans hslot)
  obtain rfl : d' = d₁ := Option.some.inj (hd'.symm.trans hslot)
  obtain ⟨hfile, hnum⟩ := opened_sameSlot hindex hd hlt flags vmm
  refine ⟨⟨_, howns flags, mem_openFiles.mpr ⟨hd, by rw [hfile]; exact Nat.one_ne_zero⟩, hnew.isSet,
    ?_, fun j hj ↦ ?_⟩, by rw [hfile], hnum.trans_ne hne⟩
  · rw [hfile, filePageCount]
    dsimp only
    split <;> omega
  · rw [hfile] at hj
    have hframe := growFrames_add (F := F) (d := d') (n := 0) (i := j) (f := f)
    rw [Nat.zero_add] at hframe
    rw [hframe]
    exact (hnew.fresh j hj).1

/-- **What has been taken stays taken** in every history that finds frames for its pages and stays
inside them. -/
theorem not_closesExactly_of_meets {F : ℕ → ℕ → ℕ} {Keep : ℕ → Prop} (h : s.OwnsPages F)
    (hopens : OpensInside Keep s (s.fs.getInode path) leftover)
    (hslot : s.fileSlot (s.inodeSlot (s.fs.getInode path).iNumber) =
      some (s.inodeSlot (s.fs.getInode path).iNumber))
    (hopen : s.sysOpen path flags leftover = some ((d : ℤ), s₁))
    (hwrites : Run.Meets write (WritesTo d) s₁ writes) (hrun : Run.exec write s₁ writes = some t)
    (hcount : filePageCount (t.inodeOf d).size ≤ (t.openFileTable d).pagesAllocated) :
    ¬ ClosesExactly s t d := by
  obtain ⟨hstart, hmax, hnum⟩ := takenSince_sysOpen h hopens hslot hopen
  obtain ⟨⟨G, hG⟩, hsame⟩ := hwrites.invariant (fun u ↦ (∃ G, s.TakenSince d u G) ∧ SameFiles s₁ u)
    (fun _ _ _ ⟨⟨_, hu⟩, hsame⟩ hc hstep ↦ ⟨hu.write hc hstep, hsame.trans (write_sameFiles hstep)⟩)
    ⟨hstart, SameFiles.refl s₁⟩ hrun
  exact hG.not_closesExactly ((hsame.inodeOf d).1.trans_ne hnum) ((hsame.maxCount d).trans hmax)
    hcount

end Histories

/-! ## An empty file -/

/-- Opening the file `a` and closing it again costs a frame. -/
theorem not_closesExactly_twoFiles : ∃ t, twoFiles.sysOpen [0x61] 0x21 0 = some (((0 : ℕ) : ℤ), t) ∧
    ¬ ClosesExactly twoFiles t 0 := by
  obtain ⟨hopens, -⟩ := twoFiles_opensInside fun _ ↦ False
  obtain ⟨hnum, hsize⟩ := twoFiles_diskInode 0 (by decide)
  obtain ⟨hslot, hfile⟩ := twoFiles_slots
  have hget : twoFiles.fs.getInode [0x61] = _ := twoFiles_getInode 0 (by decide)
  refine ⟨oneOpen, twoFiles_sysOpen, not_closesExactly_of_meets
    (twoFiles_zeroed.ownsPages emptyTable_wf emptyTable_keepsBitmap rfl fun _ _ ↦ 0)
    (hget ▸ hopens) ?_ twoFiles_sysOpen (show Run.Meets write (WritesTo 0) _ [] from trivial) rfl ?_⟩
  · rw [hget, hnum, hslot, hfile]
  · obtain ⟨hopen, hinode⟩ := oneOpen_file
    rw [hinode, hsize, hopen]
    decide

/-- The same disk, with no frame left. -/
def noFrameLeft : Kernel :=
  { twoFiles with vmm := { emptyTable with pmm := { lowPmm with maxBlocks := 0x50 } } }

theorem noFrameLeft_inOrder : noFrameLeft.InOrder where
  wf := { emptyTable_wf with maxBlocks_le := by decide }
  bitmap := ⟨emptyTable_keepsBitmap.used, emptyTable_keepsBitmap.data, emptyTable_keepsBitmap.walk⟩
  aligned := by decide
  lt := by decide

theorem noFrameLeft_full : noFrameLeft.vmm.pmm.findFreeBlocks 1 = none := by
  cases hfind : noFrameLeft.vmm.pmm.findFreeBlocks 1 with
  | none => rfl
  | some b =>
    obtain ⟨hlt, hclear, -⟩ := Pmm.findFreeBlocks_one_lt hfind
    have hset : noFrameLeft.vmm.pmm.isSet b = true := (lowPmm_isSet b).trans (decide_eq_true hlt)
    rw [hset] at hclear
    cases hclear

/-- Here closing the file takes back all that opening it has done. -/
theorem closesExactly_noFrameLeft : ∃ t,
    noFrameLeft.sysOpen [0x61] 0x21 0 = some (((0 : ℕ) : ℤ), t) ∧ ClosesExactly noFrameLeft t 0 ∧
      Vmm.BitmapKept noFrameLeft.vmm t.vmm := by
  obtain ⟨hnum, hsize⟩ := twoFiles_diskInode 0 (by decide)
  obtain ⟨hslot, hfile⟩ := twoFiles_slots
  replace hslot : noFrameLeft.inodeSlot 4 = 0 := hslot
  replace hfile : noFrameLeft.fileSlot 0 = some 0 := hfile
  have hget : noFrameLeft.fs.getInode [0x61] = _ := twoFiles_getInode 0 (by decide)
  have hloaded : (noFrameLeft.loadedInode (diskInode twoFilesDisk oneEntrySuperblock 4)).size = 0 :=
    twoFiles_loaded
  have hopen := sysOpen_empty hget (hnum.trans_ne (by decide)) (d := 0) (by rw [hnum, hslot, hfile])
    hloaded 0x21 0
  rw [hnum, hslot] at hopen
  refine ⟨_, hopen, closesExactly_of_meets noFrameLeft_inOrder hopen ?_
    (show Run.Meets write (WritesZero 0) _ [] from trivial) rfl ?_⟩
  · rw [hget]
    refine ⟨noFrameLeft_full, ?_, by rw [hnum, hslot, hfile], by rw [hloaded]; decide, ?_, Or.inl rfl⟩
    · rintro (hdir | ⟨i, hi, hne, htable⟩)
      · exact absurd hdir (by decide)
      · obtain ⟨-, h⟩ | ⟨-, h⟩ := emptyTable_entry_ne hi hne
        · exact absurd (h.symm.trans htable) (by decide)
        · exact absurd (h.symm.trans htable) (by decide)
    · rw [hloaded]
      intro i hi
      obtain rfl : i = 0 := Nat.lt_one_iff.mp hi
      refine ⟨(emptyTable_entry (show 256 < 1024 by decide)).trans_ne (by decide), ?_⟩
      rw [bitmapFrame_iff]
      decide
  · have hinode : (noFrameLeft.opened (diskInode twoFilesDisk oneEntrySuperblock 4) 0x21 0
        (noFrameLeft.vmm.mapPages Vmm.freshFrame noFrameLeft.fileVirtualAddress 1)).inodeOf 0 =
        noFrameLeft.loadedInode (diskInode twoFilesDisk oneEntrySuperblock 4) := by
      rw [inodeOf, opened, loadedInode, hnum, hslot]
      rfl
    rw [hinode, hloaded, opened, hloaded]
    rfl

end Kernel

end AbOS
