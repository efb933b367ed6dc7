import AbOS.Memory.Translation

/-!
# The page-fault handler

`page_fault_handler` takes a frame and maps it at the faulting address, whatever the cause of the
fault: it does not look at the error code or at the entries of the address.  So a protection fault
on a present page replaces the page by an empty one, a missing page under a directory entry
without user access stays out of reach, and a missing page table comes with everything
`map_address` does to take one.

`pageFaultSound_iff` says for which faults the handler does what it is there for.
-/

set_option autoImplicit false

namespace AbOS

namespace Vmm

variable {m m' : Vmm} {flags : ℕ} {ts E : List (ℕ × ℕ)}

/-- `page_fault_handler`, with the faulting address that `cr2` holds. -/
def pageFaultHandler (m : Vmm) (badAddress _errorCode : ℕ) : Vmm :=
  let (physAddress, pmm) := m.pmm.allocateBlocks 1
  (mapAddress { m with pmm } physAddress badAddress userFlags).2

/-- The handler keeps the translation of every present page, and makes the page of a missing
address present, writable and accessible to the user at both levels, on a frame that was free.
`view` says what counts as a page's translation: its frame, or its frame and flags. -/
structure PageFaultSound {α : Type} (view : ℕ × ℕ → α) (m : Vmm) (badAddress errorCode : ℕ) :
    Prop where
  keeps : ∀ v w, v < 2 ^ 32 → m.walk v = some w →
    ((m.pageFaultHandler badAddress errorCode).walk v).map view = some (view w)
  resolves : m.walk badAddress = none →
    (m.pageFaultHandler badAddress errorCode).entry (pdIndex badAddress) % 8 = 7 ∧
      ∃ f fl, (m.pageFaultHandler badAddress errorCode).walk badAddress = some (f * 4096, fl) ∧
        fl % 8 = 7 ∧ m.pmm.isSet f = false

/-- The frame the handler is given. -/
def faultFrame (m : Vmm) : ℕ := (m.pmm.allocateBlocks 1).1

/-- The page tables the handler takes, after the frame. -/
def faultTables (m : Vmm) (badAddress : ℕ) : List (ℕ × ℕ) :=
  ({ m with pmm := (m.pmm.allocateBlocks 1).2 } : Vmm).tablesTaken badAddress

/-- The faults the handler can deal with. -/
structure FaultHarmless {α : Type} (view : ℕ × ℕ → α) (m : Vmm) (badAddress : ℕ) : Prop where
  /-- A page that is present is replaced by one that looks the same. -/
  present : ∀ w, m.walk badAddress = some w → view (m.faultFrame, userFlags) = view w
  /-- A missing page lies under an entry that is writable and open to the user, ... -/
  absent_page : m.walk badAddress = none → m.entry (pdIndex badAddress) ≠ 0 →
    m.entry (pdIndex badAddress) % 8 = 7
  /-- ... and a missing page table finds another free frame. -/
  absent_table : m.entry (pdIndex badAddress) = 0 → m.faultTables badAddress ≠ []
  /-- No clearing reaches the entry of a present page, ... -/
  lost : ∀ v, v < 2 ^ 32 → Other (m.faultTables badAddress) badAddress (v / 4096) →
    m.walk v ≠ none → ¬ Cleared (m.faultTables badAddress) userFlags (m.getPage v)
  /-- ... and the identity page of a new table was absent or looked the same. -/
  identity : ∀ i b w, (i, b) ∈ m.faultTables badAddress → m.walk (b * 4096) = some w →
    view (b * 4096, userFlags) = view w

/-! ## The handler as a step -/

/-- Taking a frame that was free keeps the directory well formed. -/
theorem WF.allocate (h : m.WF) {q : Pmm} (hmax : q.maxBlocks = m.pmm.maxBlocks)
    (hset : ∀ b, m.pmm.isSet b = true → q.isSet b = true) : ({ m with pmm := q } : Vmm).WF where
  maxBlocks_le := hmax ▸ h.maxBlocks_le
  zero_set := hset _ h.zero_set
  dir_mod := h.dir_mod
  dir_set := hset _ h.dir_set
  before_dir := hset _ h.before_dir
  present := h.present
  table_set := fun i hi hne ↦ hset _ (h.table_set i hi hne)
  table_ne_dir := h.table_ne_dir
  table_inj := h.table_inj

/-- The state in which the handler calls `map_address`. -/
def afterFrame (m : Vmm) : Vmm := { m with pmm := (m.pmm.allocateBlocks 1).2 }

theorem afterFrame_maxBlocks (m : Vmm) : m.afterFrame.pmm.maxBlocks = m.pmm.maxBlocks :=
  m.pmm.allocateBlocks_maxBlocks 1

theorem afterFrame_walk (m : Vmm) (v : ℕ) : m.afterFrame.walk v = m.walk v := rfl

theorem afterFrame_entry (m : Vmm) (i : ℕ) : m.afterFrame.entry i = m.entry i := rfl

/-- Taking the frame and mapping it, with a frame left. -/
theorem WF.pageFault_step (h : m.WF) (hfree : ∃ b, b < m.pmm.maxBlocks ∧ m.pmm.isSet b = false)
    (badAddress : ℕ) (hbad : badAddress < 2 ^ 32) (errorCode : ℕ) :
    m.afterFrame.WF ∧ m.faultFrame % 4096 = 0 ∧ m.pmm.isSet (m.faultFrame / 4096) = false ∧
      MapStep m.afterFrame userFlags (m.faultTables badAddress)
        ((badAddress / 4096, m.faultFrame + userFlags) ::
          identityStores (m.faultTables badAddress) userFlags)
        (m.pageFaultHandler badAddress errorCode) := by
  obtain ⟨f, hf⟩ := Pmm.exists_findFreeBlocks_one hfree
  obtain ⟨hlt, hclear, -⟩ := Pmm.findFreeBlocks_one_lt hf
  obtain ⟨hframe, hqmax, hqset⟩ := Pmm.allocateBlocks_one hf
  replace hframe : m.faultFrame = f * 4096 := hframe
  have hmax := h.maxBlocks_le
  have hwf : m.afterFrame.WF := h.allocate hqmax fun c hc ↦ by rw [hqset, hc, Bool.or_true]
  have hstep := (hwf.mapAddress_step m.faultFrame badAddress userFlags (by rw [hframe]; omega)
    (by rw [hframe]; omega) hbad (by decide) (by decide)).1
  refine ⟨hwf, by rw [hframe]; omega, ?_, hstep⟩
  rwa [hframe, Nat.mul_div_cancel _ (by omega)]

/-- **The handler is sound for the faults that are harmless, and for no others.** -/
theorem pageFaultSound_iff {α : Type} (view : ℕ × ℕ → α) (h : m.WF)
    (hfree : ∃ b, b < m.pmm.maxBlocks ∧ m.pmm.isSet b = false) {badAddress : ℕ}
    (hbad : badAddress < 2 ^ 32) (errorCode : ℕ) :
    PageFaultSound view m badAddress errorCode ↔ FaultHarmless view m badAddress := by
  obtain ⟨hwf, hframe, hclear, hstep⟩ := h.pageFault_step hfree badAddress hbad errorCode
  have hother : ∀ p, ((badAddress / 4096, m.faultFrame + userFlags) ::
      identityStores (m.faultTables badAddress) userFlags).lookup p = none ↔
      Other (m.faultTables badAddress) badAddress p := fun p ↦ lookup_eq_none_iff
  have hvirt := hstep.walk_virt hbad hframe (by decide) (by decide)
  have hident := fun b ↦ hstep.walk_identity (b := b) hwf.maxBlocks_le (by decide) (by decide)
  -- a page table is taken only when there is none
  have hnil : m.entry (pdIndex badAddress) ≠ 0 → m.faultTables badAddress = [] := fun hne ↦
    tablesTaken_of_ne (m := m.afterFrame) hne
  constructor
  · intro hs
    refine ⟨fun w hw ↦ ?_, fun hnone hne ↦ ?_, fun h0 hts ↦ ?_, fun v hv ho hw hc ↦ ?_,
      fun i b w hb hw ↦ ?_⟩
    · have hkeep := hs.keeps _ w hbad hw
      rw [hvirt (hstep.entry_ne (pdIndex_lt hbad) (entry_ne_of_walk hw))] at hkeep
      simpa using hkeep
    · have := (hs.resolves hnone).1
      rwa [hstep.entry_of_ne (pdIndex_lt hbad) hne] at this
    · -- without a page table the page stays absent
      have hent := hstep.entry_old _ (pdIndex_lt hbad) (by rw [hts]; simp)
      obtain ⟨hmod, -⟩ := hs.resolves (walk_of_entry_zero h0)
      rw [hent, afterFrame_entry, h0] at hmod
      exact absurd hmod (by decide)
    · obtain ⟨w, hw⟩ := Option.ne_none_iff_exists'.mp hw
      have hkeep := hs.keeps v w hv hw
      rw [hstep.walk_cleared hv ((hother _).mpr ho) (entry_ne_of_walk hw) hc] at hkeep
      exact absurd hkeep (by simp)
    · have hne := entry_ne_of_walk hw
      have hlt := (hstep.fresh i b hb).2.2.2.1
      have hmax := hwf.maxBlocks_le
      have hblt : b * 4096 < 2 ^ 32 := by omega
      have hbv : b ≠ badAddress / 4096 := fun heq ↦ by
        rw [walk_page (show b * 4096 / 4096 = badAddress / 4096 by omega)] at hw
        rw [hnil (entry_ne_of_walk hw)] at hb
        simp at hb
      have hkeep := hs.keeps _ w hblt hw
      rw [hident b (List.mem_map.mpr ⟨_, hb, rfl⟩) hbv (hstep.entry_ne (pdIndex_lt hblt) hne)]
        at hkeep
      simpa using hkeep
  · intro hharm
    refine ⟨fun v w hv hw ↦ ?_, fun hnone ↦ ?_⟩
    · have hne := hstep.entry_ne (pdIndex_lt hv) (entry_ne_of_walk hw)
      by_cases ho : Other (m.faultTables badAddress) badAddress (v / 4096)
      · have hkept := (hstep.walk_old_iff hwf (by decide) hv ((hother _).mpr ho)
          (entry_ne_of_walk hw)).mpr fun hc ↦
            absurd hc (hharm.lost v hv ho (by rw [hw]; simp))
        rw [hkept, afterFrame_walk, hw, Option.map_some]
      · rcases not_other_iff.mp ho with hpage | hmem
        · rw [walk_page hpage] at hw ⊢
          rw [((page_eq_iff v badAddress).mp hpage).1] at hne
          rw [hvirt hne, Option.map_some, hharm.present w hw]
        · obtain ⟨⟨i, b⟩, hb, hbv⟩ := List.mem_map.mp hmem
          simp only at hbv
          by_cases hpage : v / 4096 = badAddress / 4096
          · rw [walk_page hpage] at hw ⊢
            rw [((page_eq_iff v badAddress).mp hpage).1] at hne
            rw [hvirt hne, Option.map_some, hharm.present w hw]
          · have hvb : v / 4096 = b * 4096 / 4096 := by omega
            rw [walk_page hvb] at hw ⊢
            rw [((page_eq_iff _ _).mp hvb).1] at hne
            rw [hident b (List.mem_map.mpr ⟨_, hb, rfl⟩) (by omega) hne, Option.map_some,
              hharm.identity i b w hb hw]
    · have hmod : (m.pageFaultHandler badAddress errorCode).entry (pdIndex badAddress) % 8 = 7 := by
        by_cases h0 : m.entry (pdIndex badAddress) = 0
        · obtain ⟨⟨i, b⟩, hb, rfl⟩ :=
            List.mem_map.mp (mem_tablesTakenFuel _ (hharm.absent_table h0))
          rw [hstep.entry_new _ _ hb, userFlags_eq]
          omega
        · rw [hstep.entry_of_ne (pdIndex_lt hbad) h0]
          exact hharm.absent_page hnone h0
      refine ⟨hmod, m.faultFrame / 4096, userFlags, ?_, by decide, hclear⟩
      rw [hvirt (by omega), show m.faultFrame / 4096 * 4096 = m.faultFrame by omega]

/-- A missing page table finds a frame when there is one. -/
theorem tablesTaken_ne_nil {virt : ℕ} (h0 : m.entry (pdIndex virt) = 0)
    (hfree : ∃ b, b < m.pmm.maxBlocks ∧ m.pmm.isSet b = false) : m.tablesTaken virt ≠ [] := by
  obtain ⟨f, hf⟩ := Pmm.exists_findFreeBlocks_one hfree
  rw [tablesTaken, tablesTakenFuel_take _ (by simpa using h0) hf]
  simp

theorem zero_ram (x : ℕ) (_ : 0x3000 ≤ x) (_ : x < 0x4000) : (fun _ ↦ 0 : ByteStore) x = 0 := rfl

/-- A fault in an empty directory is resolved. -/
theorem pageFaultSound_bare : PageFaultSound Prod.fst (bareVmm fun _ ↦ 0) 0x2ABC 6 := by
  have hent := fun i hi ↦ bareVmm_entry zero_ram (i := i) hi
  have hnone : ∀ v, v < 2 ^ 32 → (bareVmm fun _ ↦ 0).walk v = none := fun v hv ↦
    walk_of_entry_zero (hent _ (pdIndex_lt hv))
  have hfree : ∃ b, b < barePmm.maxBlocks ∧ barePmm.isSet b = false :=
    ⟨4, by decide, barePmm_isSet 4 (by omega)⟩
  obtain ⟨hwf, -, -, hstep⟩ := (bareVmm_wf zero_ram).pageFault_step hfree 0x2ABC (by decide) 6
  refine (pageFaultSound_iff Prod.fst (bareVmm_wf zero_ram) hfree (by decide) 6).mpr
    ⟨fun w hw ↦ ?_, fun _ hne ↦ absurd (hent _ (by decide)) hne, fun h0 ↦ ?_,
      fun v hv _ hw ↦ absurd (hnone v hv) hw, fun i b w hb hw ↦ ?_⟩
  · rw [hnone _ (by decide)] at hw; exact absurd hw (by simp)
  · refine tablesTaken_ne_nil (m := (bareVmm fun _ ↦ 0).afterFrame) h0 ⟨5, ?_⟩
    obtain ⟨-, hqmax, hqset⟩ := Pmm.allocateBlocks_one (p := barePmm) (b := 4)
      (Pmm.findFreeBlocks_one_eq (by decide : 4 < 0xFFFFF) (barePmm_isSet 4 (by omega)) fun c hc ↦
        (barePmm_isSet c (by omega)).trans (by simpa using hc))
    exact ⟨(by decide : 5 < 0xFFFFF).trans_eq hqmax.symm,
      (hqset 5).trans (by rw [barePmm_isSet 5 (by omega)]; rfl)⟩
  · have hlt := (hstep.fresh i b hb).2.2.2.1
    have hmax := hwf.maxBlocks_le
    rw [hnone _ (by omega)] at hw
    exact absurd hw (by simp)

/-- A write of the user to a present supervisor page, a protection fault with error code 7, replaces
the page: it led to frame 1, and leads to a free frame afterwards. -/
theorem not_pageFaultSound_bare :
    ((bareVmm fun _ ↦ 0).mapAddress 0x1000 0x2000 3).2.walk 0x2000 = some (0x1000, 3) ∧
      ¬ PageFaultSound Prod.fst ((bareVmm fun _ ↦ 0).mapAddress 0x1000 0x2000 3).2 0x2000 7 := by
  have hts := bareVmm_tablesTaken zero_ram 0x2000 (by omega)
  have hstep := ((bareVmm_wf zero_ram).mapAddress_step 0x1000 0x2000 3 (by decide) (by decide)
    (by decide) (by decide) (by decide)).1
  rw [hts] at hstep
  generalize ((bareVmm fun _ ↦ 0).mapAddress 0x1000 0x2000 3).2 = m at hstep
  have hent : m.entry (pdIndex 0x2000) ≠ 0 := by
    rw [show pdIndex 0x2000 = 0 by decide, hstep.entry_new 0 4 (List.mem_singleton_self _)]
    decide
  have hwalk := hstep.walk_virt (by decide) (by decide) (by decide) (by decide) hent
  have hset : ∀ b, b < 8 → m.pmm.isSet b = decide (b < 5) := fun b hb ↦ by
    rw [hstep.isSet]
    show (_ || barePmm.isSet b) = _
    rw [barePmm_isSet b hb, ← Bool.decide_or]
    exact decide_eq_decide.mpr (by simp; omega)
  refine ⟨hwalk, fun hsound ↦ ?_⟩
  have hmax : m.pmm.maxBlocks = 0xFFFFF := hstep.maxBlocks
  obtain ⟨-, hmod, hclear, hfault⟩ := hstep.wf.pageFault_step
    ⟨5, by omega, hset 5 (by omega)⟩ 0x2000 (by decide) 7
  have hkeep := hsound.keeps 0x2000 _ (by decide) hwalk
  rw [hfault.walk_virt (by decide) hmod (by decide) (by decide)
    (hfault.entry_ne (pdIndex_lt (by decide)) hent)] at hkeep
  have hframe : m.faultFrame = 0x1000 := by simpa using hkeep
  rw [hframe, hset _ (by decide)] at hclear
  exact absurd hclear (by decide)

end Vmm

end AbOS
