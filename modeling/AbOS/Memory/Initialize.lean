import AbOS.Memory.Boot
import AbOS.Memory.MapAddress

/-!
# The page directory at the end of `prekernel_main`

`initialize_vmm` takes a frame for each of two page tables and three frames in a row for the
directory.  The first table maps `0xC0000000` to the kernel at `0x100000`, the second maps the
first 4 MiB to itself, and `prekernel_main` then unmaps the pages from `0x100000` on again.

`endOfPrekernel_spec` is the description of the result that the rest of the development starts
from: a well-formed directory with two tables, the first megabyte mapped to itself, and no free
frame in front of the directory or of a table.
-/

set_option autoImplicit false

namespace AbOS

/-- `SET_FRAME(entry, address)`: `~0x7FFFF000` on 32 bits keeps the flags and bit 31. -/
def setFrame (entry address : ℕ) : ℕ := (entry &&& 0x80000FFF) ||| address

/-- The two loops of `initialize_vmm`: entry `i` of the table leads to the `i`-th frame from
`frame` on, present and writable. -/
def storeEntries (ram : ByteStore) (table frame : ℕ) : ℕ → ByteStore
  | 0 => ram
  | i + 1 =>
    (storeEntries ram table frame i).writeWord (table + 4 * i) (setFrame 0x03 (frame + i * 4096))

/-- `initialize_vmm`; `none` where it returns early because an allocation failed. -/
def initializeVmm (ram : ByteStore) (pmm : Pmm) : Option Vmm :=
  let (table, pmm) := pmm.allocateBlocks 1
  if table = 0 then none
  else
    let (table2, pmm) := pmm.allocateBlocks 1
    if table2 = 0 then none
    else
      let ram := (ram.fill table 0 4096).fill table2 0 4096
      let ram := storeEntries ram table2 0x0 1024
      let ram := storeEntries ram table 0x100000 1024
      let (dir, pmm) := pmm.allocateBlocks 3
      if dir = 0 then none
      else
        let ram := ram.fill dir 0 4096
        let ram := ram.writeWord (dir + 4 * pdIndex 0xC0000000) (setFrame 0x03 table)
        let ram := ram.writeWord (dir + 4 * pdIndex 0x00000000) (setFrame 0x03 table2)
        some ⟨ram, pmm, dir⟩

namespace Vmm

/-- `unmap_page`: clear the frame of the entry, then its present bit. -/
def unmapPage (m : Vmm) (virt : ℕ) : Vmm :=
  m.putPte virt (setFrame (m.pte virt) 0 &&& 0xFFFFFFFE)

/-- The loop of `prekernel_main` over the pages from `0x100000` on. -/
def unmapPages (m : Vmm) : ℕ → Vmm
  | 0 => m
  | n + 1 => (unmapPages m n).unmapPage (0x100000 + n * pageSize)

end Vmm

/-- The state of the memory managers when `prekernel_main` jumps to the kernel: memory held `ram`
and the bitmap's memory `memory` when it started, and `entries` is the memory map. -/
def endOfPrekernel (ram : ByteStore) (memory : ℕ → BitVec 32) (entries : List SmapEntry) :
    Option Vmm :=
  (initializeVmm ram (prekernelRegions memory entries)).map fun m ↦ m.unmapPages 768

/-! ## The tables -/

/-- Entries with clear high bits and no flags: setting the frame adds it. -/
theorem setFrame_three {p : ℕ} (hp : p % 4096 = 0) : setFrame 0x03 p = p + 3 := by
  rw [setFrame, show (0x03 : ℕ) &&& 0x80000FFF = 3 by decide, Nat.or_comm, or_flags hp (by omega)]

theorem readWord_storeEntries (ram : ByteStore) (table : ℕ) {frame : ℕ} (hf : frame % 4096 = 0)
    (hlt : frame + 1024 * 4096 < 2 ^ 32) : ∀ (n : ℕ), n ≤ 1024 → ∀ i, i < n →
      (storeEntries ram table frame n).readWord (table + 4 * i) = frame + i * 4096 + 3
  | 0, _, _, hi => absurd hi (by omega)
  | n + 1, hn, i, hi => by
    rw [storeEntries, setFrame_three (by omega)]
    rcases Nat.lt_or_ge i n with hin | hin
    · rw [ByteStore.readWord_writeWord_of_apart (by omega)]
      exact readWord_storeEntries ram table hf hlt n (by omega) i hin
    · rw [show i = n by omega, ByteStore.readWord_writeWord (by omega)]

theorem storeEntries_of_not_mem {ram : ByteStore} {table frame : ℕ} {x : ℕ} : ∀ (n : ℕ),
    x < table ∨ table + 4 * n ≤ x → storeEntries ram table frame n x = ram x
  | 0, _ => rfl
  | n + 1, hx => by
    rw [storeEntries, ByteStore.writeWord_of_not_mem (by omega)]
    exact storeEntries_of_not_mem n (by omega)

/-- The directory: cleared, with two entries. -/
theorem readWord_directory {ram : ByteStore} {dir a b i : ℕ} (ha : a < 2 ^ 32) (hb : b < 2 ^ 32)
    (hi : i < 1024) :
    (((ram.fill dir 0 4096).writeWord (dir + 4 * 768) a).writeWord (dir + 4 * 0) b).readWord
      (dir + 4 * i) = if i = 0 then b else if i = 768 then a else 0 := by
  by_cases h0 : i = 0
  · rw [if_pos h0, h0, ByteStore.readWord_writeWord hb]
  · rw [if_neg h0, ByteStore.readWord_writeWord_of_apart (by omega)]
    by_cases h768 : i = 768
    · rw [if_pos h768, h768, ByteStore.readWord_writeWord ha]
    · rw [if_neg h768, ByteStore.readWord_writeWord_of_apart (by omega),
        ByteStore.readWord_fill_zero (by omega)]

/-- What `initialize_vmm` leaves behind: tables in the frames `t` and `t₂`, the directory in `d`. -/
structure Initialized (p : Pmm) (t t₂ d : ℕ) (m : Vmm) : Prop where
  directory : m.directory = d * 4096
  maxBlocks : m.pmm.maxBlocks = p.maxBlocks
  isSet : ∀ b, m.pmm.isSet b = (decide (b = t ∨ b = t₂ ∨ (d ≤ b ∧ b < d + 3)) || p.isSet b)
  lt : t < p.maxBlocks ∧ t₂ < p.maxBlocks ∧ d + 3 ≤ p.maxBlocks
  pos : 0 < t ∧ 0 < t₂ ∧ 0 < d
  apart : t ≠ t₂ ∧ (t < d ∨ d + 3 ≤ t) ∧ (t₂ < d ∨ d + 3 ≤ t₂)
  clear : p.isSet t = false ∧ p.isSet t₂ = false ∧ ∀ k, k < 3 → p.isSet (d + k) = false
  below_t : ∀ b, b < t → p.isSet b = true
  below_t₂ : ∀ b, b < t₂ → b = t ∨ p.isSet b = true
  below_d : ∀ b, b < d → ∃ k, k < 3 ∧ (b + k = t ∨ b + k = t₂ ∨ p.isSet (b + k) = true)
  entry : ∀ i, i < 1024 →
    m.entry i = if i = 0 then t₂ * 4096 + 3 else if i = 768 then t * 4096 + 3 else 0
  identity : ∀ i, i < 1024 → m.ram.readWord (t₂ * 4096 + 4 * i) = i * 4096 + 3

theorem initializeVmm_spec {ram : ByteStore} {p : Pmm} {m : Vmm} (h0 : p.isSet 0 = true)
    (hmax : p.maxBlocks ≤ 0xFFFFF) (h : initializeVmm ram p = some m) :
    ∃ t t₂ d, Initialized p t t₂ d m := by
  obtain ⟨-, ha⟩ | ⟨t, p₁, hf, ha, hm₁, hs₁⟩ := p.allocateBlocks_cases 1
  · simp [initializeVmm, ha] at h
  obtain ⟨-, ha₂⟩ | ⟨t₂, p₂, hf₂, ha₂, hm₂, hs₂⟩ := p₁.allocateBlocks_cases 1
  · simp [initializeVmm, ha, ha₂] at h
  obtain ⟨-, ha₃⟩ | ⟨d, p₃, hf₃, ha₃, hm₃, hs₃⟩ := p₂.allocateBlocks_cases 3
  · simp [initializeVmm, ha, ha₂, ha₃] at h
  obtain ⟨htlt, htclear, htbelow⟩ := Pmm.findFreeBlocks_one_lt hf
  obtain ⟨ht₂lt, ht₂clear, ht₂below⟩ := Pmm.findFreeBlocks_one_lt hf₂
  obtain ⟨-, ⟨hdle, hdfree⟩, hdfirst⟩ := Pmm.findFreeBlocks_some hf₃
  rw [hm₂, hm₁] at hdle
  -- the frames are new, and so apart from each other
  rw [hs₁, Bool.or_eq_false_iff, decide_eq_false_iff_not] at ht₂clear
  have hd : ∀ k, k < 3 → d + k ≠ t ∧ d + k ≠ t₂ ∧ p.isSet (d + k) = false := fun k hk ↦ by
    have := hdfree k hk
    rw [hs₂, hs₁, Bool.or_eq_false_iff, Bool.or_eq_false_iff, decide_eq_false_iff_not,
      decide_eq_false_iff_not] at this
    exact ⟨by omega, by omega, this.2.2⟩
  have hpos : ∀ b, p.isSet b = false → 0 < b := fun b hb ↦ by
    rcases Nat.eq_zero_or_pos b with rfl | hb0
    · rw [h0] at hb; exact absurd hb (by simp)
    · exact hb0
  have htpos := hpos t htclear
  have ht₂pos := hpos t₂ ht₂clear.2
  have hdpos := hpos d (hd 0 (by omega)).2.2
  have hset : ∀ b, p₃.isSet b =
      (decide (b = t ∨ b = t₂ ∨ (d ≤ b ∧ b < d + 3)) || p.isSet b) := fun b ↦ by
    rw [hs₃, hs₂, hs₁, ← Bool.or_assoc, ← Bool.or_assoc, ← Bool.decide_or, ← Bool.decide_or]
    congr 1
    exact decide_eq_decide.mpr (by omega)
  have hne : t * blockSize ≠ 0 ∧ t₂ * blockSize ≠ 0 ∧ d * blockSize ≠ 0 := by
    rw [blockSize]; omega
  simp only [initializeVmm, ha, ha₂, ha₃, if_neg hne.1, if_neg hne.2.1, if_neg hne.2.2,
    Option.some.injEq] at h
  have h1 := hd 0 (by omega)
  have h2 := hd 1 (by omega)
  have h3 := hd 2 (by omega)
  refine ⟨t, t₂, d, ?_⟩
  rw [← h]
  exact {
    directory := rfl
    maxBlocks := by rw [hm₃, hm₂, hm₁]
    isSet := hset
    lt := ⟨htlt, by omega, hdle⟩
    pos := ⟨htpos, ht₂pos, hdpos⟩
    apart := ⟨by omega, by omega, by omega⟩
    clear := ⟨htclear, ht₂clear.2, fun k hk ↦ (hd k hk).2.2⟩
    below_t := htbelow
    below_t₂ := fun b hb ↦ by
      have := ht₂below b hb
      rw [hs₁, Bool.or_eq_true, decide_eq_true_eq] at this
      exact this.imp_left fun h ↦ by omega
    below_d := fun b hb ↦ by
      -- otherwise the run for the directory would have started at `b`
      by_contra hnone
      simp only [not_exists, not_and, not_or, Bool.not_eq_true] at hnone
      refine hdfirst b hb ⟨by omega, fun k hk ↦ ?_⟩
      obtain ⟨hkt, hkt₂, hkp⟩ := hnone k hk
      rw [hs₂, hs₁, hkp, decide_eq_false (by omega), decide_eq_false (by omega)]
      rfl
    entry := fun i hi ↦ by
      have hpd : pdIndex 0xC0000000 = 768 ∧ pdIndex 0x00000000 = 0 := by decide
      rw [Vmm.entry, hpd.1, hpd.2, setFrame_three (by rw [blockSize]; omega),
        setFrame_three (by rw [blockSize]; omega)]
      exact readWord_directory (by rw [blockSize]; omega) (by rw [blockSize]; omega) hi
    identity := fun i hi ↦ by
      have hpd : pdIndex 0xC0000000 = 768 ∧ pdIndex 0x00000000 = 0 := by decide
      rw [hpd.1, hpd.2, ByteStore.readWord_writeWord_of_apart (by rw [blockSize]; omega),
        ByteStore.readWord_writeWord_of_apart (by rw [blockSize]; omega)]
      refine (ByteStore.readWord_congr fun k hk ↦ ?_).trans
        ((readWord_storeEntries ((ram.fill (t * blockSize) 0 4096).fill (t₂ * blockSize) 0 4096)
          (t₂ * blockSize) (Nat.zero_mod _) (by omega) 1024 (by omega) i hi).trans
            (by omega))
      show ByteStore.fill _ _ _ _ (t₂ * blockSize + 4 * i + k) = _
      rw [ByteStore.fill_of_not_mem (by rw [blockSize]; omega),
        storeEntries_of_not_mem 1024 (by rw [blockSize]; omega)]
      rfl }

/-- Five free frames in a row are enough. -/
theorem exists_initializeVmm (ram : ByteStore) {p : Pmm} {b : ℕ} (h0 : p.isSet 0 = true)
    (hfree : p.FreeRun b 5) : ∃ m, initializeVmm ram p = some m := by
  obtain ⟨hle, hclear⟩ := hfree
  have hone : ∀ {q : Pmm} {c : ℕ}, c < q.maxBlocks → q.isSet c = false → q.FreeRun c 1 :=
    fun hc hq ↦ ⟨by omega, fun k hk ↦ by rwa [show k = 0 by omega]⟩
  have hbclear : p.isSet b = false := hclear 0 (by omega)
  obtain ⟨hnone, -⟩ | ⟨t, p₁, hf, ha, hm₁, hs₁⟩ := p.allocateBlocks_cases 1
  · exact absurd (hone (by omega) hbclear) (Pmm.findFreeBlocks_none hnone (by omega) b)
  obtain ⟨htlt, htclear, htbelow⟩ := Pmm.findFreeBlocks_one_lt hf
  have htb : t ≤ b := by
    by_contra hlt
    rw [htbelow b (by omega)] at hbclear
    exact absurd hbclear (by simp)
  have hb₁ : p₁.isSet (b + 1) = false := by
    rw [hs₁, decide_eq_false (by omega), hclear 1 (by omega)]; rfl
  obtain ⟨hnone, -⟩ | ⟨t₂, p₂, hf₂, ha₂, hm₂, hs₂⟩ := p₁.allocateBlocks_cases 1
  · exact absurd (hone (by omega) hb₁) (Pmm.findFreeBlocks_none hnone (by omega) _)
  obtain ⟨ht₂lt, ht₂clear, ht₂below⟩ := Pmm.findFreeBlocks_one_lt hf₂
  have ht₂b : t₂ ≤ b + 1 := by
    by_contra hlt
    rw [ht₂below (b + 1) (by omega)] at hb₁
    exact absurd hb₁ (by simp)
  obtain ⟨hnone, -⟩ | ⟨d, p₃, hf₃, ha₃, -, -⟩ := p₂.allocateBlocks_cases 3
  · refine absurd ⟨by omega, fun k hk ↦ ?_⟩ (Pmm.findFreeBlocks_none hnone (by omega) (b + 2))
    rw [hs₂, hs₁, decide_eq_false (by omega), decide_eq_false (by omega),
      show b + 2 + k = b + (2 + k) by omega, hclear (2 + k) (by omega)]
    rfl
  have hpos : ∀ {q : Pmm} {c : ℕ}, q.isSet c = false → q.isSet 0 = true → 0 < c := fun hq h0 ↦ by
    refine Nat.pos_of_ne_zero fun hc ↦ ?_
    rw [hc, h0] at hq
    exact absurd hq (by simp)
  have h0₁ : p₁.isSet 0 = true := by rw [hs₁, h0, Bool.or_true]
  have hd := (Pmm.findFreeBlocks_some hf₃).2.1.2 0 (by omega)
  have hne : t * blockSize ≠ 0 ∧ t₂ * blockSize ≠ 0 ∧ d * blockSize ≠ 0 := by
    have h1 := hpos htclear h0
    have h2 := hpos ht₂clear h0₁
    have h3 : 0 < d + 0 := hpos hd (by rw [hs₂, h0₁, Bool.or_true])
    rw [blockSize]
    omega
  simp only [initializeVmm, ha, ha₂, ha₃, if_neg hne.1, if_neg hne.2.1, if_neg hne.2.2]
  exact ⟨_, rfl⟩

/-! ## The directory -/

namespace Initialized

variable {p : Pmm} {t t₂ d : ℕ} {m : Vmm}

theorem entry_cases (h : Initialized p t t₂ d m) {i : ℕ} (hi : i < 1024) (hne : m.entry i ≠ 0) :
    (i = 0 ∧ m.entry i = t₂ * 4096 + 3 ∧ m.table i = t₂ * 4096) ∨
      (i = 768 ∧ m.entry i = t * 4096 + 3 ∧ m.table i = t * 4096) := by
  have he := h.entry i hi
  rw [Vmm.table_eq]
  split at he
  · exact Or.inl ⟨‹_›, he, by omega⟩
  · split at he
    · exact Or.inr ⟨‹_›, he, by omega⟩
    · exact absurd he hne

theorem isPaging_iff (h : Initialized p t t₂ d m) {b : ℕ} :
    m.IsPaging b ↔ b = d ∨ b = t₂ ∨ b = t := by
  constructor
  · rintro (hb | ⟨i, hi, hne, hb⟩)
    · rw [h.directory] at hb; omega
    · rcases h.entry_cases hi hne with ⟨-, -, ht⟩ | ⟨-, -, ht⟩ <;> omega
  · rintro (rfl | rfl | rfl)
    · exact Or.inl h.directory.symm
    · have he := h.entry 0 (by omega)
      rw [if_pos rfl] at he
      exact Or.inr ⟨0, by omega, by omega, by rw [Vmm.table_eq]; omega⟩
    · have he := h.entry 768 (by omega)
      rw [if_neg (by omega), if_pos rfl] at he
      exact Or.inr ⟨768, by omega, by omega, by rw [Vmm.table_eq]; omega⟩

/-- No free frame lies in front of a table or of the directory. -/
theorem below (h : Initialized p t t₂ d m) {b : ℕ} (hb : b + 1 = t ∨ b + 1 = t₂ ∨ b + 1 = d) :
    m.pmm.isSet b = true := by
  rw [h.isSet, Bool.or_eq_true, decide_eq_true_eq]
  rcases hb with hb | hb | hb
  · exact Or.inr (h.below_t b (by omega))
  · exact (h.below_t₂ b (by omega)).imp_left Or.inl
  · obtain ⟨k, hk, hor⟩ := h.below_d b (by omega)
    have happ := h.apart
    rcases k with _ | k
    · rcases hor with hor | hor | hor
      · exact Or.inl (Or.inl hor)
      · exact Or.inl (Or.inr (Or.inl hor))
      · exact Or.inr hor
    · -- the later frames of the run are the directory's
      have hclear := h.clear.2.2 k (by omega)
      rw [show b + (k + 1) = d + k by omega, hclear] at hor
      exact absurd hor (by simp; omega)

theorem wf (h : Initialized p t t₂ d m) (h0 : p.isSet 0 = true) (hmax : p.maxBlocks ≤ 0xFFFFF) :
    m.WF := by
  have hpos := h.pos
  have happ := h.apart
  have hdir := h.directory
  have hdiv : m.directory / 4096 = d := by omega
  refine ⟨h.maxBlocks ▸ hmax, by rw [h.isSet, h0, Bool.or_true], by omega, ?_, ?_,
    fun i hi hne ↦ ?_, fun i hi hne ↦ ?_, fun i hi hne ↦ ?_, fun i j hi hj hni hnj hij ↦ ?_⟩
  · rw [hdiv, h.isSet, decide_eq_true (by omega), Bool.true_or]
  · rw [hdiv]; exact h.below (by omega)
  · rcases h.entry_cases hi hne with ⟨-, he, -⟩ | ⟨-, he, -⟩ <;> omega
  · rcases h.entry_cases hi hne with ⟨-, -, ht⟩ | ⟨-, -, ht⟩ <;>
      rw [ht, Nat.mul_div_cancel _ (by omega), h.isSet, decide_eq_true (by omega), Bool.true_or]
  · rcases h.entry_cases hi hne with ⟨-, -, ht⟩ | ⟨-, -, ht⟩ <;> omega
  · rcases h.entry_cases hi hni with ⟨rfl, -, hti⟩ | ⟨rfl, -, hti⟩ <;>
      rcases h.entry_cases hj hnj with ⟨rfl, -, htj⟩ | ⟨rfl, -, htj⟩ <;> omega

/-- The first 4 MiB are mapped to themselves. -/
theorem pte_eq (h : Initialized p t t₂ d m) {v : ℕ} (hv : v < 0x400000) :
    m.pte v = v / 4096 * 4096 + 3 := by
  have hpd : pdIndex v = 0 := by rw [pdIndex_eq]; omega
  have he := h.entry 0 (by omega)
  rw [if_pos rfl] at he
  rw [Vmm.pte, Vmm.getPage, hpd, Vmm.table_eq, he,
    show (t₂ * 4096 + 3) / 4096 * 4096 = t₂ * 4096 by omega, h.identity _ (ptIndex_lt v), ptIndex_eq]
  omega

end Initialized

/-! ## The end of `prekernel_main` -/

namespace Vmm

/-- Unmapping pages from `0x100000` on stores entries of these pages only. -/
theorem WF.unmapPages_step {m : Vmm} (h : m.WF) (h0 : m.entry 0 ≠ 0) : ∀ (n : ℕ), n ≤ 768 →
    ∃ E, MapStep m 3 [] E (m.unmapPages n) ∧ ∀ p, p < 0x100 → E.lookup p = none
  | 0, _ => ⟨[], MapStep.refl h (by simp), by simp⟩
  | n + 1, hn => by
    obtain ⟨E, hstep, hE⟩ := h.unmapPages_step h0 n (by omega)
    have hv : 0x100000 + n * pageSize < 0x400000 := by rw [pageSize]; omega
    have hpd : pdIndex (0x100000 + n * pageSize) = 0 := by rw [pdIndex_eq]; omega
    have hput := hstep.wf.putPte_step (v := 0x100000 + n * pageSize)
      (e := setFrame ((m.unmapPages n).pte (0x100000 + n * pageSize)) 0 &&& 0xFFFFFFFE) (by omega)
      (by rw [hpd]; exact hstep.entry_ne (by omega) h0) 3
      (Nat.lt_of_le_of_lt Nat.and_le_right (by omega))
    refine ⟨_, hstep.trans hput (by omega) (Or.inr rfl), fun p hp ↦ ?_⟩
    have hne : p ≠ (0x100000 + n * pageSize) / 4096 := by rw [pageSize]; omega
    rw [List.cons_append, List.lookup_cons, beq_false_of_ne hne]
    exact hE p hp

end Vmm

/-- What holds when the kernel starts: the directory is well formed, the page tables are there for
the first 4 MiB, the first megabyte is mapped to itself, and the frames in front of the directory
and of the tables are in use. -/
structure Booted (m : Vmm) : Prop where
  wf : m.WF
  entry_zero : m.entry 0 ≠ 0
  walk_low : ∀ v, v < 0x100000 → m.walk v = some (v / 4096 * 4096, 3)
  before : ∀ b, m.IsPaging b → m.pmm.isSet (b - 1) = true

theorem endOfPrekernel_spec {ram : ByteStore} {memory : ℕ → BitVec 32} {entries : List SmapEntry}
    {m : Vmm} (h : endOfPrekernel ram memory entries = some m) : Booted m := by
  have h0 := isSet_prekernelRegions_zero memory entries
  have hmax := prekernelRegions_maxBlocks memory entries
  obtain ⟨m₀, hm₀, rfl⟩ := Option.map_eq_some_iff.mp h
  obtain ⟨t, t₂, d, hinit⟩ := initializeVmm_spec h0 (by omega) hm₀
  have hwf := hinit.wf h0 (by omega)
  have he := hinit.entry 0 (by omega)
  rw [if_pos rfl] at he
  have he0 : m₀.entry 0 ≠ 0 := by omega
  obtain ⟨E, hstep, hE⟩ := hwf.unmapPages_step he0 768 (by omega)
  generalize m₀.unmapPages 768 = m at hstep
  have he0' := hstep.entry_ne (by omega) he0
  refine ⟨hstep.wf, he0', fun v hv ↦ ?_, fun b hb ↦ ?_⟩
  · have hpd : pdIndex v = 0 := by rw [pdIndex_eq]; omega
    have hpte := hstep.pte_of_nil (v := v) (by omega) (by rw [hpd]; exact he0)
      (hE (v / 4096) (by omega))
    rw [hinit.pte_eq (by omega)] at hpte
    rw [Vmm.walk_eq, hpd, hpte, if_pos ⟨hstep.wf.present 0 (by omega) he0', by omega⟩,
      show (v / 4096 * 4096 + 3) / 4096 * 4096 = v / 4096 * 4096 by omega,
      show (v / 4096 * 4096 + 3) % 4096 = 3 by omega]
  · have hb₀ : m₀.IsPaging b := by
      rcases hb with hb | ⟨i, hi, hne, hb⟩
      · exact Or.inl (hb.trans hstep.directory)
      · have hent := hstep.entry_old i hi (by simp)
        exact Or.inr ⟨i, hi, by rwa [← hent], by rwa [Vmm.table, ← hent]⟩
    rw [hstep.isSet, hinit.below (by have := hinit.pos; rw [hinit.isPaging_iff] at hb₀; omega)]
    simp

/-- Where the memory map has nothing but the blocks below `top`, the tables are in the frames `0x12`
and `0x13`, the directory in the next three, and what is left below `top` is free. -/
theorem exists_endOfPrekernel_low {entries : List SmapEntry} {top : ℕ} (htop : 0x17 ≤ top)
    (hkernel : top ≤ 0x100)
    (hfrees : ∀ b, b < 0xFFFFF → ((∃ e ∈ entries, e.Frees b) ↔ b < top)) :
    ∃ m, endOfPrekernel (fun _ ↦ 0) (fun _ ↦ 0) entries = some m ∧
      m.pmm.maxBlocks = 0xFFFFF ∧ (∀ b, m.IsPaging b ↔ b = 0x14 ∨ b = 0x13 ∨ b = 0x12) ∧
      (∀ b, b < 0xFFFFF → m.pmm.isSet b = decide (b < 0x17 ∨ top ≤ b)) ∧
      ∀ i, 0 < i → i < 768 → m.entry i = 0 := by
  have h0 := isSet_prekernelRegions_zero (fun _ ↦ 0) entries
  have hmax := prekernelRegions_maxBlocks (fun _ ↦ 0) entries
  have hbits : ∀ b, b < 0xFFFFF → (prekernelRegions (fun _ ↦ 0) entries).isSet b =
      decide (b < 0x12 ∨ top ≤ b) := by
    intro b hb
    rcases Nat.eq_zero_or_pos b with rfl | hpos
    · rw [h0]; rfl
    · have hiff := isSet_prekernelRegions (fun _ ↦ 0) entries hpos hb
      rw [hfrees b hb] at hiff
      cases hbit : (prekernelRegions (fun _ ↦ 0) entries).isSet b with
      | true =>
        rw [eq_comm, decide_eq_true_eq]
        by_contra hnot
        rw [hiff.mpr (by omega)] at hbit
        exact absurd hbit (by simp)
      | false =>
        rw [eq_comm, decide_eq_false_iff_not]
        have := hiff.mp hbit
        omega
  rw [endOfPrekernel]
  generalize prekernelRegions (fun _ ↦ 0) entries = p at h0 hmax hbits
  obtain ⟨m₀, hm₀⟩ := exists_initializeVmm (fun _ ↦ 0) (b := 0x12) h0
    ⟨by omega, fun k hk ↦ by rw [hbits _ (by omega)]; simp; omega⟩
  obtain ⟨t, t₂, d, hinit⟩ := initializeVmm_spec h0 (by omega) hm₀
  -- first fit takes the lowest frames
  have hlt := hinit.lt
  have hfree : ∀ b, b < 0xFFFFF → (p.isSet b = false ↔ 0x12 ≤ b ∧ b < top) := fun b hb ↦ by
    rw [hbits b hb, decide_eq_false_iff_not]; omega
  have hused : ∀ b, b < 0xFFFFF → p.isSet b = true → b < 0x12 ∨ top ≤ b := fun b hb h ↦ by
    rwa [hbits b hb, decide_eq_true_eq] at h
  have ht := (hfree t (by omega)).mp hinit.clear.1
  have ht₂ := (hfree t₂ (by omega)).mp hinit.clear.2.1
  have hd := (hfree (d + 0) (by omega)).mp (hinit.clear.2.2 0 (by omega))
  have happ := hinit.apart
  obtain rfl : t = 0x12 := by
    by_contra hne
    have := hused 0x12 (by omega) (hinit.below_t 0x12 (by omega))
    omega
  obtain rfl : t₂ = 0x13 := by
    by_contra hne
    rcases hinit.below_t₂ 0x13 (by omega) with h | h
    · omega
    · have := hused 0x13 (by omega) h; omega
  obtain rfl : d = 0x14 := by
    by_contra hne
    obtain ⟨k, hk, h | h | h⟩ := hinit.below_d 0x14 (by omega)
    · omega
    · omega
    · have := hused _ (by omega) h; omega
  have he := hinit.entry 0 (by omega)
  obtain ⟨E, hstep, -⟩ := (hinit.wf h0 (by omega)).unmapPages_step
    (by rw [he]; decide) 768 (by omega)
  refine ⟨m₀.unmapPages 768, by rw [hm₀]; rfl, ?_⟩
  generalize m₀.unmapPages 768 = m at hstep
  have hent : ∀ i, i < 1024 → m.entry i = m₀.entry i := fun i hi ↦
    hstep.entry_old i hi (by simp)
  refine ⟨by rw [hstep.maxBlocks, hinit.maxBlocks, hmax], fun b ↦ ?_, fun b hb ↦ ?_,
    fun i hi0 hi ↦ ?_⟩
  · rw [← hinit.isPaging_iff, Vmm.IsPaging, Vmm.IsPaging, hstep.directory]
    refine or_congr Iff.rfl (exists_congr fun i ↦ and_congr_right fun hi ↦ ?_)
    rw [Vmm.table, Vmm.table, hent i hi]
  · rw [hstep.isSet, hinit.isSet, hbits b hb]
    simp only [List.map_nil, List.not_mem_nil, decide_false, Bool.false_or, ← Bool.decide_or]
    exact decide_eq_decide.mpr (by omega)
  · rw [hent i (by omega), hinit.entry i (by omega), if_neg (by omega), if_neg (by omega)]

/-- The memory map of a PC. -/
theorem exists_endOfPrekernel_lowMemory :
    ∃ m, endOfPrekernel (fun _ ↦ 0) (fun _ ↦ 0) lowMemoryMap = some m ∧
      m.pmm.maxBlocks = 0xFFFFF ∧ (∀ b, m.IsPaging b ↔ b = 0x14 ∨ b = 0x13 ∨ b = 0x12) ∧
      (∀ b, b < 0xFFFFF → m.pmm.isSet b = decide (b < 0x17 ∨ 0x9F ≤ b)) ∧
      ∀ i, 0 < i → i < 768 → m.entry i = 0 := by
  refine exists_endOfPrekernel_low (by decide) (by decide) fun b _ ↦ ?_
  simp only [lowMemoryMap, List.mem_singleton, exists_eq_left]
  exact ⟨fun h ↦ h.2.2, fun h ↦ ⟨rfl, Nat.zero_le _, h⟩⟩

end AbOS
