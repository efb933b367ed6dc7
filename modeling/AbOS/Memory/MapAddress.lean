import AbOS.Memory.Vmm

/-!
# What `map_address` does

A call of `map_address` is a sequence of two kinds of writes: entering and clearing a new page
table, and storing a page-table entry.  `MapStep m flags ts E m'` is what both kinds, and any
sequence of them, do to a well-formed directory: `ts` are the page tables added, each with its
directory entry, and `E` the pages whose entries are stored, each with its value.  Outside the
directory and the stored entries, memory changes only in the ranges that were cleared, and these
reach `flags` bytes past each new table and miss its first `flags` bytes (`Cleared`).

`mapAddressFuel_spec` says that a whole call is such a step, for the tables that `tablesTaken` reads
off the directory and the bitmap.
-/

set_option autoImplicit false

namespace AbOS

namespace Vmm

variable {m m' m₁ m₂ : Vmm} {flags : ℕ} {ts ts₁ ts₂ E E₁ E₂ : List (ℕ × ℕ)}

/-- The byte at `x` was cleared when the frames of `ts` became page tables. -/
def Cleared (ts : List (ℕ × ℕ)) (flags x : ℕ) : Prop :=
  ∃ t ∈ ts, t.2 * 4096 + flags ≤ x ∧ x < t.2 * 4096 + flags + 4096

instance (ts : List (ℕ × ℕ)) (flags x : ℕ) : Decidable (Cleared ts flags x) :=
  inferInstanceAs (Decidable (∃ t ∈ ts, _))

theorem cleared_append {x : ℕ} :
    Cleared (ts₁ ++ ts₂) flags x ↔ Cleared ts₁ flags x ∨ Cleared ts₂ flags x := by
  simp only [Cleared, List.mem_append, or_and_right, exists_or]

@[simp] theorem not_cleared_nil {x : ℕ} : ¬ Cleared [] flags x := by simp [Cleared]

/-- The entry of a page whose place is stored in `m`. -/
def Stored (m : Vmm) (E : List (ℕ × ℕ)) (x : ℕ) : Prop :=
  ∃ v, v < 2 ^ 32 ∧ E.lookup (v / 4096) ≠ none ∧ m.entry (pdIndex v) ≠ 0 ∧
    m.getPage v ≤ x ∧ x < m.getPage v + 4

/-- From `m` to `m'` the pairs `ts` became directory entries and page tables with flags `flags`,
and the entries of the pages `E` were stored, the first pair of `E` last. -/
structure MapStep (m : Vmm) (flags : ℕ) (ts E : List (ℕ × ℕ)) (m' : Vmm) : Prop where
  wf : m'.WF
  directory : m'.directory = m.directory
  maxBlocks : m'.pmm.maxBlocks = m.pmm.maxBlocks
  isSet : ∀ b, m'.pmm.isSet b = (decide (b ∈ ts.map Prod.snd) || m.pmm.isSet b)
  fresh : ∀ i b, (i, b) ∈ ts →
    i < 1024 ∧ m.entry i = 0 ∧ 0 < b ∧ b < m.pmm.maxBlocks ∧ m.pmm.isSet b = false
  entry_old : ∀ i, i < 1024 → i ∉ ts.map Prod.fst → m'.entry i = m.entry i
  entry_new : ∀ i b, (i, b) ∈ ts → m'.entry i = b * 4096 + flags
  pte_stored : ∀ v e, v < 2 ^ 32 → E.lookup (v / 4096) = some e → m'.entry (pdIndex v) ≠ 0 →
    m'.pte v = e
  /-- Everything else is as it was or was cleared. -/
  ram : ∀ x, x / 4096 * 4096 ≠ m.directory → ¬ m'.Stored E x →
    m'.ram x = if Cleared ts flags x then 0 else m.ram x

/-- Nothing happened, and the pages of `E` have no page table. -/
theorem MapStep.refl (h : m.WF)
    (hE : ∀ v, v < 2 ^ 32 → E.lookup (v / 4096) ≠ none → m.entry (pdIndex v) = 0) :
    MapStep m flags [] E m where
  wf := h
  directory := rfl
  maxBlocks := rfl
  isSet := by simp
  fresh := by simp
  entry_old := fun _ _ _ ↦ rfl
  entry_new := by simp
  pte_stored := fun v e hv he hne ↦ absurd (hE v hv (by rw [he]; simp)) hne
  ram := by simp

/-- An entry that was not zero is kept. -/
theorem MapStep.entry_of_ne (h : MapStep m flags ts E m') {i : ℕ} (hi : i < 1024)
    (hne : m.entry i ≠ 0) : m'.entry i = m.entry i := by
  refine h.entry_old i hi fun hmem ↦ ?_
  obtain ⟨⟨i', b⟩, ht, rfl⟩ := List.mem_map.mp hmem
  exact hne (h.fresh _ _ ht).2.1

theorem MapStep.entry_ne (h : MapStep m flags ts E m') {i : ℕ} (hi : i < 1024)
    (hne : m.entry i ≠ 0) : m'.entry i ≠ 0 := by
  rwa [h.entry_of_ne hi hne]

/-- The entry of a page that had a page table stays where it is. -/
theorem MapStep.getPage_of_ne (h : MapStep m flags ts E m') {v : ℕ} (hv : v < 2 ^ 32)
    (hne : m.entry (pdIndex v) ≠ 0) : m'.getPage v = m.getPage v := by
  rw [getPage, getPage, table, table, h.entry_of_ne (pdIndex_lt hv) hne]

theorem MapStep.isPaging_mono (h : MapStep m flags ts E m') {b : ℕ} (hb : m.IsPaging b) :
    m'.IsPaging b := by
  rcases hb with hb | ⟨i, hi, hne, hb⟩
  · exact Or.inl (hb.trans h.directory.symm)
  · exact Or.inr ⟨i, hi, h.entry_ne hi hne, by rw [table, h.entry_of_ne hi hne]; exact hb⟩

/-- The entries of different pages lie at different places. -/
theorem WF.getPage_apart (h : m.WF) {v w : ℕ} (hv : v < 2 ^ 32) (hw : w < 2 ^ 32)
    (hev : m.entry (pdIndex v) ≠ 0) (hew : m.entry (pdIndex w) ≠ 0) (hne : v / 4096 ≠ w / 4096) :
    m.getPage v + 4 ≤ m.getPage w ∨ m.getPage w + 4 ≤ m.getPage v := by
  have h1 := ptIndex_lt v
  have h2 := ptIndex_lt w
  have h3 := m.table_mod (pdIndex v)
  have h4 := m.table_mod (pdIndex w)
  rw [Ne, page_eq_iff] at hne
  rw [getPage, getPage]
  by_cases hpd : pdIndex v = pdIndex w
  · rw [hpd]
    have : ptIndex v ≠ ptIndex w := fun hpt ↦ hne ⟨hpd, hpt⟩
    omega
  · have : m.table (pdIndex v) ≠ m.table (pdIndex w) := fun ht ↦
      hpd (h.table_inj _ _ (pdIndex_lt hv) (pdIndex_lt hw) hev hew ht)
    omega

/-- The bytes of an entry lie in the frame of its table. -/
theorem getPage_div (m : Vmm) (v : ℕ) {k : ℕ} (hk : k < 4) :
    (m.getPage v + k) / 4096 * 4096 = m.table (pdIndex v) := by
  have h1 := ptIndex_lt v
  have h2 := m.table_mod (pdIndex v)
  rw [getPage]
  omega

/-- The bytes of the entry of a page outside `E` are not stored. -/
theorem WF.not_stored (h : m.WF) {v k : ℕ} (hv : v < 2 ^ 32) (hev : m.entry (pdIndex v) ≠ 0)
    (hE : E.lookup (v / 4096) = none) (hk : k < 4) : ¬ m.Stored E (m.getPage v + k) := by
  rintro ⟨w, hw, hEw, hew, h1, h2⟩
  have hne : v / 4096 ≠ w / 4096 := fun heq ↦ hEw (heq ▸ hE)
  have := h.getPage_apart hv hw hev hew hne
  omega

/-- The bytes of the entry of a page outside `E`, in a table that was there before or is new. -/
theorem MapStep.pte_byte (h : MapStep m flags ts E m') {v k : ℕ} (hv : v < 2 ^ 32)
    (hev : m'.entry (pdIndex v) ≠ 0) (hE : E.lookup (v / 4096) = none) (hk : k < 4) :
    m'.ram (m'.getPage v + k) =
      if Cleared ts flags (m'.getPage v + k) then 0 else m.ram (m'.getPage v + k) := by
  refine h.ram _ ?_ (h.wf.not_stored hv hev hE hk)
  rw [getPage_div _ _ hk, ← h.directory]
  exact h.wf.table_ne_dir _ (pdIndex_lt hv) hev

/-- Without new tables the other entries are kept. -/
theorem MapStep.pte_of_nil (h : MapStep m flags [] E m') {v : ℕ} (hv : v < 2 ^ 32)
    (hev : m.entry (pdIndex v) ≠ 0) (hE : E.lookup (v / 4096) = none) : m'.pte v = m.pte v := by
  have hgp := h.getPage_of_ne hv hev
  rw [pte, pte, hgp]
  refine ByteStore.readWord_congr fun k hk ↦ ?_
  have := h.pte_byte hv (h.entry_ne (pdIndex_lt hv) hev) hE hk
  rwa [hgp, if_neg not_cleared_nil] at this

/-- Two steps in a row.  No entry is stored before the last table is added. -/
theorem MapStep.trans (h₁ : MapStep m flags ts₁ E₁ m₁) (h₂ : MapStep m₁ flags ts₂ E₂ m₂)
    (hf : 0 < flags) (hE : E₁ = [] ∨ ts₂ = []) :
    MapStep m flags (ts₁ ++ ts₂) (E₂ ++ E₁) m₂ where
  wf := h₂.wf
  directory := h₂.directory.trans h₁.directory
  maxBlocks := h₂.maxBlocks.trans h₁.maxBlocks
  isSet := fun b ↦ by
    rw [h₂.isSet, h₁.isSet, ← Bool.or_assoc, ← Bool.decide_or]
    congr 1
    exact decide_eq_decide.mpr (by rw [List.map_append, List.mem_append]; exact or_comm)
  fresh := fun i b hb ↦ by
    rcases List.mem_append.mp hb with hb | hb
    · exact h₁.fresh i b hb
    · obtain ⟨hi, h0, hpos, hmax, hset⟩ := h₂.fresh i b hb
      rw [h₁.isSet, Bool.or_eq_false_iff] at hset
      refine ⟨hi, ?_, hpos, h₁.maxBlocks ▸ hmax, hset.2⟩
      by_contra hne
      exact h₁.entry_ne hi hne h0
  entry_old := fun i hi hmem ↦ by
    rw [List.map_append, List.mem_append, not_or] at hmem
    exact (h₂.entry_old i hi hmem.2).trans (h₁.entry_old i hi hmem.1)
  entry_new := fun i b hb ↦ by
    rcases List.mem_append.mp hb with hb | hb
    · have he := h₁.entry_new i b hb
      exact (h₂.entry_of_ne (h₁.fresh i b hb).1 (by omega)).trans he
    · exact h₂.entry_new i b hb
  pte_stored := fun v e hv he hne ↦ by
    rw [List.lookup_append] at he
    cases h2 : E₂.lookup (v / 4096) with
    | some e' =>
      rw [h2] at he
      exact (h₂.pte_stored v e' hv h2 hne).trans (Option.some.inj he)
    | none =>
      rw [h2, Option.none_or] at he
      obtain rfl | rfl := hE
      · exact absurd he (by simp)
      · -- the entry was stored in the first step and the second adds no table
        have hne₁ : m₁.entry (pdIndex v) ≠ 0 := by
          rwa [← h₂.entry_old _ (pdIndex_lt hv) (by simp)]
        exact (h₂.pte_of_nil hv hne₁ h2).trans (h₁.pte_stored v e hv he hne₁)
  ram := fun x hx hst ↦ by
    have hst₂ : ¬ m₂.Stored E₂ x := by
      rintro ⟨v, hv, hl, hrest⟩
      refine hst ⟨v, hv, ?_, hrest⟩
      rw [List.lookup_append]
      cases h2 : E₂.lookup (v / 4096) with
      | none => exact absurd h2 hl
      | some e => simp
    have hst₁ : ¬ m₁.Stored E₁ x := by
      rintro ⟨v, hv, hl, hne, hrest⟩
      rw [← h₂.getPage_of_ne hv hne] at hrest
      refine hst ⟨v, hv, ?_, h₂.entry_ne (pdIndex_lt hv) hne, hrest⟩
      rw [List.lookup_append]
      cases E₂.lookup (v / 4096) with
      | none => simpa using hl
      | some e => simp
    rw [h₂.ram x (by rwa [h₁.directory]) hst₂, h₁.ram x hx hst₁]
    by_cases hc₁ : Cleared ts₁ flags x <;> by_cases hc₂ : Cleared ts₂ flags x <;>
      simp [cleared_append, hc₁, hc₂]

/-! ## Storing an entry -/

section Store

variable {v e : ℕ}

theorem putPte_ram_of_ne {x : ℕ} (hx : x / 4096 * 4096 ≠ m.table (pdIndex v)) :
    (m.putPte v e).ram x = m.ram x := by
  have h1 := ptIndex_lt v
  have h2 := m.table_mod (pdIndex v)
  exact ByteStore.writeWord_of_not_mem (by rw [getPage]; omega)

variable (h : m.WF) (hv : v < 2 ^ 32) (hne : m.entry (pdIndex v) ≠ 0)
include h hv hne

theorem WF.putPte_entry {i : ℕ} (hi : i < 1024) : (m.putPte v e).entry i = m.entry i := by
  have h1 := h.table_ne_dir _ (pdIndex_lt hv) hne
  have h2 := h.dir_mod
  exact ByteStore.readWord_congr fun k hk ↦ putPte_ram_of_ne (by
    show (m.directory + 4 * i + k) / 4096 * 4096 ≠ _
    omega)

theorem WF.putPte : (m.putPte v e).WF := by
  have hent := fun i hi ↦ h.putPte_entry hv hne (e := e) (i := i) hi
  have htab : ∀ i, i < 1024 → (m.putPte v e).table i = m.table i := fun i hi ↦ by
    rw [table, hent i hi]; rfl
  refine ⟨h.maxBlocks_le, h.zero_set, h.dir_mod, h.dir_set, h.before_dir, fun i hi hni ↦ ?_,
    fun i hi hni ↦ ?_, fun i hi hni ↦ ?_, fun i j hi hj hni hnj hij ↦ ?_⟩
  · rw [hent i hi] at hni ⊢; exact h.present i hi hni
  · rw [hent i hi] at hni; rw [htab i hi]; exact h.table_set i hi hni
  · rw [hent i hi] at hni; rw [htab i hi]; exact h.table_ne_dir i hi hni
  · rw [hent i hi] at hni
    rw [hent j hj] at hnj
    rw [htab i hi, htab j hj] at hij
    exact h.table_inj i j hi hj hni hnj hij

theorem WF.putPte_getPage {w : ℕ} (hw : w < 2 ^ 32) :
    (m.putPte v e).getPage w = m.getPage w := by
  rw [getPage, table, h.putPte_entry hv hne (pdIndex_lt hw)]; rfl

/-- Storing one entry is a step. -/
theorem WF.putPte_step (flags : ℕ) (he : e < 2 ^ 32) :
    MapStep m flags [] [(v / 4096, e)] (m.putPte v e) where
  wf := h.putPte hv hne
  directory := rfl
  maxBlocks := rfl
  isSet := fun b ↦ by simp [Vmm.putPte]
  fresh := by simp
  entry_old := fun i hi _ ↦ h.putPte_entry hv hne hi
  entry_new := by simp
  pte_stored := fun w e' hw hl _ ↦ by
    have hpage : w / 4096 = v / 4096 ∧ e = e' := by
      by_cases hwv : w / 4096 = v / 4096
      · rw [hwv, List.lookup_cons_self] at hl
        exact ⟨hwv, Option.some.inj hl⟩
      · rw [List.lookup_cons, beq_false_of_ne hwv] at hl
        exact absurd hl (by simp)
    have hgp : m.getPage w = m.getPage v := by
      rw [getPage, getPage, ((page_eq_iff w v).mp hpage.1).1, ((page_eq_iff w v).mp hpage.1).2]
    rw [pte, h.putPte_getPage hv hne hw, hgp, ← hpage.2]
    exact ByteStore.readWord_writeWord he
  ram := fun x _ hst ↦ by
    rw [if_neg not_cleared_nil]
    refine ByteStore.writeWord_of_not_mem ?_
    by_contra hin
    refine hst ⟨v, hv, by simp, by rwa [h.putPte_entry hv hne (pdIndex_lt hv)], ?_⟩
    rw [h.putPte_getPage hv hne hv]
    omega

end Store

/-! ## Entering a new page table -/

/-- A directory stays well formed when a free frame becomes the table of an entry. -/
theorem WF.addTable (h : m.WF) {i b : ℕ} (hf : flags < 4096)
    (hodd : flags % 2 = 1) (hclear : m.pmm.isSet b = false) (hdir : m'.directory = m.directory)
    (hmax : m'.pmm.maxBlocks = m.pmm.maxBlocks)
    (hset : ∀ c, m'.pmm.isSet c = (decide (c = b) || m.pmm.isSet c))
    (hent : ∀ j, j < 1024 → m'.entry j = if j = i then b * 4096 + flags else m.entry j) :
    m'.WF := by
  have hkeep : ∀ {c}, m.pmm.isSet c = true → m'.pmm.isSet c = true := fun hc ↦ by
    rw [hset, hc]; simp
  have htab : ∀ j, j < 1024 → m'.table j = if j = i then b * 4096 else m.table j := fun j hj ↦ by
    rw [table_eq, hent j hj]
    split
    · omega
    · rw [← table_eq]
  have hnotdir : b * 4096 ≠ m.directory := fun heq ↦ by
    have := h.dir_set
    rw [← heq, Nat.mul_div_cancel _ (by omega), hclear] at this
    exact absurd this (by simp)
  have hnottab : ∀ j, j < 1024 → m.entry j ≠ 0 → m.table j ≠ b * 4096 := fun j hj hne heq ↦ by
    have := h.table_set j hj hne
    rw [heq, Nat.mul_div_cancel _ (by omega), hclear] at this
    exact absurd this (by simp)
  refine ⟨hmax ▸ h.maxBlocks_le, hkeep h.zero_set, by rw [hdir]; exact h.dir_mod,
    by rw [hdir]; exact hkeep h.dir_set, by rw [hdir]; exact hkeep h.before_dir,
    fun j hj hne ↦ ?_, fun j hj hne ↦ ?_, fun j hj hne ↦ ?_, fun j k hj hk hnj hnk hjk ↦ ?_⟩
  · rw [hent j hj] at hne ⊢
    split
    · omega
    · rename_i hji; rw [if_neg hji] at hne; exact h.present j hj hne
  · rw [hent j hj] at hne
    rw [htab j hj]
    split
    · rw [Nat.mul_div_cancel _ (by omega), hset]; simp
    · rename_i hji; rw [if_neg hji] at hne; exact hkeep (h.table_set j hj hne)
  · rw [hent j hj] at hne
    rw [htab j hj, hdir]
    split
    · exact hnotdir
    · rename_i hji; rw [if_neg hji] at hne; exact h.table_ne_dir j hj hne
  · rw [hent j hj] at hnj
    rw [hent k hk] at hnk
    rw [htab j hj, htab k hk] at hjk
    split at hjk <;> split at hjk
    · rename_i hji hki; exact hji.trans hki.symm
    · rename_i hki; rw [if_neg hki] at hnk; exact absurd hjk.symm (hnottab k hk hnk)
    · rename_i hji hki; rw [if_neg hji] at hnj; exact absurd hjk (hnottab j hj hnj)
    · rename_i hji hki
      rw [if_neg hji] at hnj
      rw [if_neg hki] at hnk
      exact h.table_inj j k hj hk hnj hnk hjk

section Install

variable {i b : ℕ}

/-- The word entered in the directory: the frame and the flags. -/
theorem block_or_flags (hf : flags < 4096) : b * 4096 ||| flags = b * 4096 + flags :=
  or_flags (by omega) hf

theorem installTable_directory (m : Vmm) (i block flags : ℕ) :
    (installTable m i block flags).directory = m.directory := by rw [installTable]

theorem installTable_pmm (m : Vmm) (i block flags : ℕ) :
    (installTable m i block flags).pmm = m.pmm := by rw [installTable]

theorem installTable_ram (hb : b < 0xFFFFF) (hf : flags < 4096) (x : ℕ) :
    (installTable m i (b * 4096) flags).ram x =
      if b * 4096 + flags ≤ x ∧ x < b * 4096 + flags + 4096 then 0
      else m.ram.writeWord (m.directory + 4 * i) (b * 4096 + flags) x := by
  rw [installTable, block_or_flags hf, ByteStore.readWord_writeWord (by omega)]
  rfl

variable (h : m.WF) (hb : b < 0xFFFFF) (hf : flags < 4096) (hclear : m.pmm.isSet b = false)
include h hb hf hclear

/-- The clearing stays clear of the directory: neither `b` nor the frame behind it is the
directory's. -/
theorem WF.installTable_entry {j : ℕ} (hj : j < 1024) :
    (installTable m i (b * 4096) flags).entry j =
      if j = i then b * 4096 + flags else m.entry j := by
  have hmod := h.dir_mod
  have hdir : m.directory / 4096 ≠ b := by
    rintro rfl; rw [h.dir_set] at hclear; exact absurd hclear (by simp)
  have hnext : m.directory / 4096 - 1 ≠ b := by
    rintro rfl; rw [h.before_dir] at hclear; exact absurd hclear (by simp)
  have hzero : b ≠ 0 := by
    rintro rfl; rw [h.zero_set] at hclear; exact absurd hclear (by simp)
  have hfill : ∀ k, k < 4 → (installTable m i (b * 4096) flags).ram (m.directory + 4 * j + k) =
      m.ram.writeWord (m.directory + 4 * i) (b * 4096 + flags) (m.directory + 4 * j + k) :=
    fun k hk ↦ by rw [installTable_ram hb hf, if_neg (by omega)]
  rw [entry, entry, installTable_directory, ByteStore.readWord_congr hfill]
  split
  · rename_i hji
    rw [hji, ByteStore.readWord_writeWord (by omega)]
  · exact ByteStore.readWord_writeWord_of_apart (by omega)

end Install

/-- Taking the first free frame for a page table is a step. -/
theorem WF.installTable_step (h : m.WF) {i b : ℕ} (hi : i < 1024) (h0 : m.entry i = 0)
    (hf : flags < 4096) (hodd : flags % 2 = 1) (hfind : m.pmm.findFreeBlocks 1 = some b) :
    MapStep m flags [(i, b)] []
      (installTable { m with pmm := (m.pmm.allocateBlocks 1).2 } i (b * blockSize) flags) := by
  obtain ⟨hlt, hclear, -⟩ := Pmm.findFreeBlocks_one_lt hfind
  obtain ⟨-, hqmax, hqset⟩ := Pmm.allocateBlocks_one hfind
  generalize (m.pmm.allocateBlocks 1).2 = q at hqmax hqset
  have hmax := h.maxBlocks_le
  have hb : b < 0xFFFFF := by omega
  have hpos : 0 < b := by
    rcases Nat.eq_zero_or_pos b with rfl | hpos
    · rw [h.zero_set] at hclear; exact absurd hclear (by simp)
    · exact hpos
  rw [show b * blockSize = b * 4096 from rfl]
  have hent : ∀ j, j < 1024 → (installTable { m with pmm := q } i (b * 4096) flags).entry j =
      if j = i then b * 4096 + flags else m.entry j := fun j hj ↦
    h.installTable_entry hb hf hclear hj
  have hdir : (installTable { m with pmm := q } i (b * 4096) flags).directory = m.directory := by
    rw [installTable_directory]
  exact {
    wf := h.addTable hf hodd hclear hdir hqmax hqset hent
    directory := hdir
    maxBlocks := hqmax
    isSet := fun c ↦ by
      show q.isSet c = _
      rw [hqset]; simp
    fresh := fun j c hmem ↦ by
      obtain ⟨rfl, rfl⟩ := Prod.mk.inj (List.mem_singleton.mp hmem)
      exact ⟨hi, h0, hpos, by omega, hclear⟩
    entry_old := fun j hj hmem ↦ by
      have hji : j ≠ i := by simpa using hmem
      exact (hent j hj).trans (if_neg hji)
    entry_new := fun j c hmem ↦ by
      obtain ⟨rfl, rfl⟩ := Prod.mk.inj (List.mem_singleton.mp hmem)
      exact (hent j hi).trans (if_pos rfl)
    pte_stored := by simp
    ram := fun x hx _ ↦ by
      have hmod := h.dir_mod
      have hram := installTable_ram (m := m) (i := i) hb hf x
      rw [ByteStore.writeWord_of_not_mem (by omega)] at hram
      refine hram.trans ?_
      simp only [Cleared, List.mem_singleton, exists_eq_left] }

/-! ## A whole call -/

/-- The stores of the identity entries of new tables. -/
def identityStores (ts : List (ℕ × ℕ)) (flags : ℕ) : List (ℕ × ℕ) :=
  ts.map fun t ↦ (t.2, t.2 * 4096 + flags)

theorem pdIndex_block_lt {b : ℕ} (hb : b < 0xFFFFF) : pdIndex (b * blockSize) < 1024 :=
  pdIndex_lt (by rw [blockSize]; omega)

/-- Only the 1024 entries of the directory matter. -/
theorem tablesTakenFuel_congr : ∀ (fuel : ℕ) {p p' : ℕ → Bool} {pmm : Pmm} {i : ℕ},
    (∀ j, j < 1024 → p j = p' j) → pmm.maxBlocks ≤ 0xFFFFF → i < 1024 →
    tablesTakenFuel fuel p pmm i = tablesTakenFuel fuel p' pmm i
  | 0, _, _, _, _, _, _, _ => rfl
  | fuel + 1, p, p', pmm, i, hp, hm, hi => by
    rw [tablesTakenFuel, tablesTakenFuel, hp i hi]
    split
    · rfl
    · split
      · rfl
      · rename_i b hb
        have hlt := (Pmm.findFreeBlocks_one_lt hb).1
        refine congrArg _ (tablesTakenFuel_congr fuel (fun j hj ↦ ?_)
          ((Pmm.allocateBlocks_one hb).2.1 ▸ hm) (pdIndex_block_lt (by omega)))
        rw [Function.update_apply, Function.update_apply, hp j hj]

/-- The call that takes `b` for a page table: enter it, map it, store the entry. -/
theorem mapAddressFuel_take (fuel phys flags : ℕ) {virt b : ℕ} (h0 : m.entry (pdIndex virt) = 0)
    (hfind : m.pmm.findFreeBlocks 1 = some b) (hb : 0 < b) :
    mapAddressFuel (fuel + 1) m phys virt flags =
      (true, (mapAddressFuel fuel
        (installTable { m with pmm := (m.pmm.allocateBlocks 1).2 } (pdIndex virt) (b * blockSize)
          flags) (b * blockSize) (b * blockSize) flags).2.putPte virt (phys ||| flags)) := by
  have hblock : (m.pmm.allocateBlocks 1).1 = b * blockSize := by
    rw [Pmm.allocateBlocks, hfind]
  have hne : b * blockSize ≠ 0 := by rw [blockSize]; omega
  simp only [mapAddressFuel, createPageTable, if_pos h0, hblock, if_neg hne, if_true]

theorem tablesTakenFuel_take (fuel : ℕ) {p : ℕ → Bool} {pmm : Pmm} {i b : ℕ} (hp : p i = false)
    (hfind : pmm.findFreeBlocks 1 = some b) :
    tablesTakenFuel (fuel + 1) p pmm i =
      (i, b) :: tablesTakenFuel fuel (Function.update p i true) (pmm.allocateBlocks 1).2
        (pdIndex (b * blockSize)) := by
  rw [tablesTakenFuel, hp, hfind]
  rfl

/-- One level down the frames up to the one that was taken are taken, and the fuel still lasts. -/
theorem installTable_taken {m : Vmm} {b c fuel : ℕ} (hfind : m.pmm.findFreeBlocks 1 = some b)
    (hset : ∀ d, d < c → m.pmm.isSet d = true) (hfuel : m.pmm.maxBlocks < c + (fuel + 1))
    (i block flags : ℕ) :
    let m₁ := installTable { m with pmm := (m.pmm.allocateBlocks 1).2 } i block flags
    b + 1 ≤ m₁.pmm.maxBlocks ∧ (∀ d, d < b + 1 → m₁.pmm.isSet d = true) ∧
      m₁.pmm.maxBlocks < b + 1 + fuel := by
  have hb := (Pmm.findFreeBlocks_one_lt hfind).1
  have hcb := Pmm.le_of_findFreeBlocks_one hfind hset
  have hqmax := (Pmm.allocateBlocks_one hfind).2.1
  dsimp only
  rw [installTable_pmm]
  dsimp only
  exact ⟨by omega, fun d hd ↦ Pmm.isSet_allocateBlocks_one hfind hd, by omega⟩

/-- **A whole call is one step**, for the tables that can be read off the directory and the bitmap,
with every recursion that the number of free frames allows. -/
theorem mapAddressFuel_spec (hf : flags < 4096) (hodd : flags % 2 = 1) :
    ∀ (fuel : ℕ) {m : Vmm} {c : ℕ} (phys virt : ℕ), m.WF → phys % 4096 = 0 → phys < 2 ^ 32 →
      virt < 2 ^ 32 → c ≤ m.pmm.maxBlocks → (∀ b, b < c → m.pmm.isSet b = true) →
      m.pmm.maxBlocks < c + fuel →
      let r := mapAddressFuel fuel m phys virt flags
      let ts := tablesTakenFuel fuel (fun i ↦ m.entry i ≠ 0) m.pmm (pdIndex virt)
      MapStep m flags ts ((virt / 4096, phys + flags) :: identityStores ts flags) r.2 ∧
        (r.1 = true ↔ r.2.entry (pdIndex virt) ≠ 0)
  | 0, m, c, phys, virt, _, _, _, _, hc, _, hfuel => absurd hfuel (by omega)
  | fuel + 1, m, c, phys, virt, h, hp, hplt, hv, hc, hset, hfuel => by
    intro r ts
    have hstore : phys ||| flags = phys + flags := or_flags hp hf
    by_cases h0 : m.entry (pdIndex virt) = 0
    · cases hfind : m.pmm.findFreeBlocks 1 with
      | none =>
        -- no frame for the table: nothing changes
        have hr : r = (false, m) := by
          simp only [r, mapAddressFuel, createPageTable, if_pos h0, Pmm.allocateBlocks, hfind]
          simp
        have hts : ts = [] := by simp [ts, tablesTakenFuel, h0, hfind]
        rw [hr, hts]
        refine ⟨MapStep.refl h fun v _ hl ↦ ?_, by simp [h0]⟩
        by_cases hpage : v / 4096 = virt / 4096
        · rwa [((page_eq_iff v virt).mp hpage).1]
        · rw [identityStores, List.map_nil, List.lookup_cons, beq_false_of_ne hpage] at hl
          exact absurd rfl hl
      | some b =>
        have hb := (Pmm.findFreeBlocks_one_lt hfind).1
        have hmax := h.maxBlocks_le
        have hstep₁ := h.installTable_step (pdIndex_lt hv) h0 hf hodd hfind
        have hpos := (hstep₁.fresh _ _ (List.mem_singleton_self _)).2.2.1
        have hqmax := (Pmm.allocateBlocks_one hfind).2.1
        obtain ⟨hle, htaken, hlast⟩ :=
          installTable_taken hfind hset hfuel (pdIndex virt) (b * blockSize) flags
        -- the nested call, in the state after the clearing
        obtain ⟨hstep₂, -⟩ := mapAddressFuel_spec hf hodd fuel (b * blockSize) (b * blockSize)
          hstep₁.wf (by rw [blockSize]; omega) (by rw [blockSize]; omega)
          (by rw [blockSize]; omega) hle htaken hlast
        have hr := mapAddressFuel_take fuel phys flags h0 hfind hpos
        have hts := tablesTakenFuel_take fuel (p := fun i ↦ m.entry i ≠ 0) (i := pdIndex virt)
          (by simpa using h0) hfind
        generalize (m.pmm.allocateBlocks 1).2 = q at hstep₁ hstep₂ hr hts hqmax
        have hpmm := installTable_pmm { m with pmm := q } (pdIndex virt) (b * blockSize) flags
        generalize installTable { m with pmm := q } (pdIndex virt) (b * blockSize) flags = m₁
          at hstep₁ hstep₂ hr hpmm
        have hcongr : tablesTakenFuel fuel (fun i ↦ m₁.entry i ≠ 0) m₁.pmm
            (pdIndex (b * blockSize)) =
            tablesTakenFuel fuel (Function.update (fun i ↦ decide (m.entry i ≠ 0))
              (pdIndex virt) true) q (pdIndex (b * blockSize)) := by
          rw [hpmm]
          refine tablesTakenFuel_congr fuel (fun j hj ↦ ?_) (hqmax ▸ hmax)
            (pdIndex_block_lt (by omega))
          rw [Function.update_apply]
          split
          · rename_i hj'
            simp [hj', hstep₁.entry_new _ _ (List.mem_singleton_self _), Nat.ne_of_gt hpos]
          · rename_i hj'
            rw [hstep₁.entry_old j hj (by simpa using hj')]
        rw [hcongr] at hstep₂
        have hvirt₁ : m₁.entry (pdIndex virt) ≠ 0 := by
          rw [hstep₁.entry_new _ _ (List.mem_singleton_self _)]; omega
        have hvirt₂ := hstep₂.entry_ne (pdIndex_lt hv) hvirt₁
        have hput := hstep₂.wf.putPte_step hv hvirt₂ (e := phys + flags) flags (by omega)
        have hall := (hstep₁.trans hstep₂ (by omega) (Or.inl rfl)).trans hput (by omega) (Or.inr rfl)
        rw [show r = _ from hr, show ts = _ from hts, hstore]
        refine ⟨?_, by simpa using hput.entry_ne (pdIndex_lt hv) hvirt₂⟩
        simpa [identityStores, blockSize] using hall
    · have hr : r = (true, m.putPte virt (phys + flags)) := by
        simp only [r, mapAddressFuel, if_neg h0, hstore]
      have hts : ts = [] := by simp [ts, tablesTakenFuel, h0]
      rw [hr, hts]
      refine ⟨h.putPte_step hv h0 flags (by omega), ?_⟩
      simpa [h.putPte_entry hv h0 (pdIndex_lt hv)] using h0

/-- `map_address` on a well-formed directory. -/
theorem WF.mapAddress_step (h : m.WF) (phys virt flags : ℕ) (hp : phys % 4096 = 0)
    (hplt : phys < 2 ^ 32) (hv : virt < 2 ^ 32) (hf : flags < 4096) (hodd : flags % 2 = 1) :
    MapStep m flags (m.tablesTaken virt)
        ((virt / 4096, phys + flags) :: identityStores (m.tablesTaken virt) flags)
        (m.mapAddress phys virt flags).2 ∧
      ((m.mapAddress phys virt flags).1 = true ↔
        (m.mapAddress phys virt flags).2.entry (pdIndex virt) ≠ 0) :=
  mapAddressFuel_spec hf hodd (m.pmm.maxBlocks + 1) (c := 0) phys virt h hp hplt hv (Nat.zero_le _)
    (fun _ hb ↦ absurd hb (by omega)) (by omega)

/-- The recursion of `map_address` ends before the fuel does: with more fuel it is the same. -/
theorem mapAddressFuel_congr : ∀ (fuel fuel' : ℕ) {m : Vmm} {c : ℕ} (phys virt flags : ℕ),
    c ≤ m.pmm.maxBlocks → (∀ b, b < c → m.pmm.isSet b = true) → m.pmm.maxBlocks < c + fuel →
    m.pmm.maxBlocks < c + fuel' →
    mapAddressFuel fuel m phys virt flags = mapAddressFuel fuel' m phys virt flags
  | 0, _, _, _, _, _, _, hc, _, hfuel, _ => absurd hfuel (by omega)
  | _ + 1, 0, _, _, _, _, _, hc, _, _, hfuel => absurd hfuel (by omega)
  | fuel + 1, fuel' + 1, m, c, phys, virt, flags, hc, hset, hfuel, hfuel' => by
    by_cases h0 : m.entry (pdIndex virt) = 0
    · cases hfind : m.pmm.findFreeBlocks 1 with
      | none =>
        simp only [mapAddressFuel, createPageTable, if_pos h0, Pmm.allocateBlocks, hfind, if_true]
      | some b =>
        have hblock := (Pmm.allocateBlocks_one hfind).1
        obtain ⟨hle, htaken, hlast⟩ :=
          installTable_taken hfind hset hfuel (pdIndex virt) (b * blockSize) flags
        obtain ⟨-, -, hlast'⟩ :=
          installTable_taken hfind hset hfuel' (pdIndex virt) (b * blockSize) flags
        have hnested := mapAddressFuel_congr fuel fuel' (b * blockSize) (b * blockSize) flags hle
          htaken hlast hlast'
        simp only [mapAddressFuel, createPageTable, if_pos h0, hblock, hnested]
    · rw [mapAddressFuel, mapAddressFuel, if_neg h0, if_neg h0]

theorem mapAddress_eq {fuel phys virt : ℕ} (hfuel : m.pmm.maxBlocks < fuel) :
    mapAddressFuel fuel m phys virt flags = m.mapAddress phys virt flags :=
  mapAddressFuel_congr _ _ (c := 0) phys virt flags (Nat.zero_le _) (fun _ hb ↦ absurd hb (by omega))
    (by omega) (by omega)

end Vmm

end AbOS
