import AbOS.Syscalls.Open

/-!
# Mapping and unmapping the pages of files

`sys_open` and `sys_write` take one new frame after the other and map it at the next page.  Each of
these mappings is what `page_fault_handler` would do at that page, so it keeps the translations of
all present pages exactly if it is harmless in the sense of `FaultHarmless`.  `NewPages` is what a
loop of harmless mappings does.

`ClosedPages` is what the loop of `sys_close` does, when the bits that `free_page` clears belong to
frames that nobody needs.

Neither of them reaches the frames of the allocator's bitmap.
-/

set_option autoImplicit false

namespace AbOS

namespace Vmm

variable {m m' : Vmm} {F : ℕ → Prop} {virt n : ℕ}

/-! ## New pages -/

/-- Each of the `n` mappings from `virt` on finds a frame and keeps all translations, and no new
page table lies in front of a frame of `F`, whose first bytes would be cleared with the table. -/
def MapsHarmlessly (F : ℕ → Prop) (m : Vmm) (virt : ℕ) : ℕ → Prop
  | 0 => True
  | i + 1 =>
    let m' := m.mapPages freshFrame virt i
    let page := (virt + i * pageSize) % 2 ^ 32
    MapsHarmlessly F m virt i ∧ (∃ b, b < m'.pmm.maxBlocks ∧ m'.pmm.isSet b = false) ∧
      FaultHarmless Prod.fst m' page ∧ ∀ b ∈ (m'.faultTables page).map Prod.snd, ¬ F (b + 1)

/-- The pages from `virt` on lead to new frames, `f i` for the `i`-th, and nothing else has
changed. -/
structure NewPages (F : ℕ → Prop) (m : Vmm) (virt n : ℕ) (f : ℕ → ℕ) (m' : Vmm) : Prop where
  wf : m'.WF
  directory : m'.directory = m.directory
  maxBlocks : m'.pmm.maxBlocks = m.pmm.maxBlocks
  isSet : ∀ b, m.pmm.isSet b = true → m'.pmm.isSet b = true
  keeps : ∀ v w, v < 2 ^ 32 → m.walk v = some w → ∃ fl, m'.walk v = some (w.1, fl)
  paging : ∀ b, m'.IsPaging b → m.IsPaging b ∨ m.pmm.isSet b = false
  walk : ∀ i, i < n → ∃ fl, m'.walk ((virt + i * pageSize) % 2 ^ 32) = some (f i * 4096, fl)
  fresh : ∀ i, i < n → m.pmm.isSet (f i) = false ∧ m'.pmm.isSet (f i) = true ∧ ¬ m'.IsPaging (f i)
  inj : ∀ i j, i < j → j < n → f i ≠ f j
  /-- Frames that were in use keep their contents. -/
  ram : ∀ x, m.pmm.isSet (x / 4096) = true → ¬ m.IsPaging (x / 4096) → F (x / 4096) →
    m'.ram x = m.ram x

theorem NewPages.refl (h : m.WF) (f : ℕ → ℕ) : NewPages F m virt 0 f m where
  wf := h
  directory := rfl
  maxBlocks := rfl
  isSet := fun _ hb ↦ hb
  keeps := fun _ w _ hw ↦ ⟨w.2, hw⟩
  paging := fun _ hb ↦ Or.inl hb
  walk := fun _ hi ↦ absurd hi (Nat.not_lt_zero _)
  fresh := fun _ hi ↦ absurd hi (Nat.not_lt_zero _)
  inj := fun _ _ _ hj ↦ absurd hj (Nat.not_lt_zero _)
  ram := fun _ _ _ _ ↦ rfl

/-- **One new page.** -/
theorem WF.newPage (h : m.WF) (hfree : ∃ b, b < m.pmm.maxBlocks ∧ m.pmm.isSet b = false)
    {page : ℕ} (hpage : page < 2 ^ 32) (hharm : FaultHarmless Prod.fst m page)
    (hF : ∀ b ∈ (m.faultTables page).map Prod.snd, ¬ F (b + 1)) :
    ∃ f, m.pmm.isSet f = false ∧
      (m.pageFaultHandler page 0).WF ∧ (m.pageFaultHandler page 0).directory = m.directory ∧
      (m.pageFaultHandler page 0).pmm.maxBlocks = m.pmm.maxBlocks ∧
      (∀ b, m.pmm.isSet b = true → (m.pageFaultHandler page 0).pmm.isSet b = true) ∧
      (∀ v w, v < 2 ^ 32 → m.walk v = some w →
        ∃ fl, (m.pageFaultHandler page 0).walk v = some (w.1, fl)) ∧
      (∀ b, (m.pageFaultHandler page 0).IsPaging b → m.IsPaging b ∨ m.pmm.isSet b = false) ∧
      (m.pageFaultHandler page 0).walk page = some (f * 4096, userFlags) ∧
      (m.pageFaultHandler page 0).pmm.isSet f = true ∧
      ¬ (m.pageFaultHandler page 0).IsPaging f ∧
      ∀ x, m.pmm.isSet (x / 4096) = true → ¬ m.IsPaging (x / 4096) → F (x / 4096) →
        (m.pageFaultHandler page 0).ram x = m.ram x := by
  obtain ⟨f, hf⟩ := Pmm.exists_findFreeBlocks_one hfree
  obtain ⟨hlt, hclear, -⟩ := Pmm.findFreeBlocks_one_lt hf
  obtain ⟨hframe, -, hafter⟩ := Pmm.allocateBlocks_one hf
  replace hframe : m.faultFrame = f * 4096 := hframe
  replace hafter : ∀ b, m.afterFrame.pmm.isSet b = (decide (b = f) || m.pmm.isSet b) := hafter
  obtain ⟨hwf, hmod, -, hstep⟩ := h.pageFault_step hfree page hpage 0
  have hsound := (pageFaultSound_iff Prod.fst h hfree hpage 0).mpr hharm
  have hisSet : ∀ b, m.pmm.isSet b = true → (m.pageFaultHandler page 0).pmm.isSet b = true :=
    fun b hb ↦ by rw [hstep.isSet, hafter, hb, Bool.or_true, Bool.or_true]
  have hpaging : ∀ b, (m.pageFaultHandler page 0).IsPaging b →
      m.IsPaging b ∨ (m.pmm.isSet b = false ∧ b ≠ f) := fun b hb ↦ by
    rcases hstep.isPaging_cases (by decide) hb with hb | hb
    · exact Or.inl hb
    · obtain ⟨⟨i, b'⟩, ht, rfl⟩ := List.mem_map.mp hb
      have hb' := (hstep.fresh _ _ ht).2.2.2.2
      rw [hafter, Bool.or_eq_false_iff, decide_eq_false_iff_not] at hb'
      exact Or.inr ⟨hb'.2, hb'.1⟩
  -- the page has a page table, its own or a new one
  have hne : (m.pageFaultHandler page 0).entry (pdIndex page) ≠ 0 := by
    by_cases h0 : m.entry (pdIndex page) = 0
    · obtain ⟨⟨i, b⟩, hb, rfl⟩ :=
        List.mem_map.mp (mem_tablesTakenFuel _ (hharm.absent_table h0))
      rw [hstep.entry_new _ _ hb, userFlags_eq]
      omega
    · exact hstep.entry_ne (pdIndex_lt hpage) h0
  refine ⟨f, hclear, hstep.wf, hstep.directory, hstep.maxBlocks.trans m.afterFrame_maxBlocks, hisSet,
    fun v w hv hw ↦ ?_, fun b hb ↦ (hpaging b hb).imp_right And.left, ?_, ?_, fun hp ↦ ?_,
    fun x hx hxp hxF ↦ ?_⟩
  · obtain ⟨w', hw', heq⟩ := Option.map_eq_some_iff.mp (hsound.keeps v w hv hw)
    exact ⟨w'.2, by rw [hw', ← heq]⟩
  · rw [← hframe]
    exact hstep.walk_virt hpage hmod (by decide) (by decide) hne
  · rw [hstep.isSet, hafter, decide_eq_true rfl, Bool.true_or, Bool.or_true]
  · rcases hpaging f hp with hp | hp
    · exact h.not_isPaging_of_clear hclear hp
    · exact hp.2 rfl
  · have hxp' : ¬ (m.pageFaultHandler page 0).IsPaging (x / 4096) := fun hp ↦ by
      rcases hpaging _ hp with hp | hp
      · exact hxp hp
      · exact Bool.false_ne_true (hp.1.symm.trans hx)
    have hcleared : ¬ Cleared (m.faultTables page) userFlags x := by
      rintro ⟨⟨i, b⟩, ht, h₁, h₂⟩
      simp only at h₁ h₂
      rw [userFlags_eq] at h₁ h₂
      have hb := (hstep.fresh i b ht).2.2.2.2
      rw [hafter, Bool.or_eq_false_iff] at hb
      rcases (show x / 4096 = b ∨ x / 4096 = b + 1 by omega) with hxb | hxb
      · rw [hxb, hb.2] at hx
        exact Bool.false_ne_true hx
      · rw [hxb] at hxF
        exact hF b (List.mem_map.mpr ⟨_, ht, rfl⟩) hxF
    rw [hstep.ram x, if_neg hcleared]
    · rfl
    · exact fun heq ↦ hxp (Or.inl heq)
    · intro hst
      obtain ⟨v, hv, -, hent, htable⟩ := hst.table
      exact hxp' (Or.inr ⟨_, pdIndex_lt hv, hent, htable⟩)

/-- **The loop of mappings**, when each of them is harmless. -/
theorem WF.newPages (h : m.WF) (hharm : MapsHarmlessly F m virt n) :
    ∃ f, NewPages F m virt n f (m.mapPages freshFrame virt n) := by
  induction n with
  | zero => exact ⟨fun _ ↦ 0, NewPages.refl h _⟩
  | succ n ih =>
    obtain ⟨hprev, hfree, hpage, hF⟩ := hharm
    obtain ⟨f, hnew⟩ := ih hprev
    rw [mapPages]
    generalize m.mapPages freshFrame virt n = m₁ at hfree hpage hF hnew ⊢
    have hlt : (virt + n * pageSize) % 2 ^ 32 < 2 ^ 32 := Nat.mod_lt _ (by decide)
    obtain ⟨c, hclear, hwf, hdir, hmax, hset, hkeeps, hpaging, hwalk, hcset, hcpaging, hram⟩ :=
      hnew.wf.newPage hfree hlt hpage hF
    show ∃ f, NewPages F m virt (n + 1) f (m₁.pageFaultHandler ((virt + n * pageSize) % 2 ^ 32) 0)
    generalize m₁.pageFaultHandler ((virt + n * pageSize) % 2 ^ 32) 0 = m₂ at *
    have hclear₀ : m.pmm.isSet c = false := by
      by_contra hcon
      rw [Bool.not_eq_false] at hcon
      exact Bool.false_ne_true (hclear.symm.trans (hnew.isSet c hcon))
    have hold : ∀ i, i < n → f i ≠ c := fun i hi heq ↦
      Bool.false_ne_true (hclear.symm.trans (heq ▸ (hnew.fresh i hi).2.1))
    have hupdate : ∀ i, i < n → Function.update f n c i = f i := fun i hi ↦
      Function.update_of_ne (Nat.ne_of_lt hi) ..
    refine ⟨Function.update f n c, hwf, hdir.trans hnew.directory, hmax.trans hnew.maxBlocks,
      fun b hb ↦ hset b (hnew.isSet b hb), fun v w hv hw ↦ ?_, fun b hb ↦ ?_, fun i hi ↦ ?_,
      fun i hi ↦ ?_, fun i j hij hj ↦ ?_, fun x hx hxp hxF ↦ ?_⟩
    · obtain ⟨fl, hw₁⟩ := hnew.keeps v w hv hw
      exact hkeeps v (w.1, fl) hv hw₁
    · rcases hpaging b hb with hb | hb
      · exact hnew.paging b hb
      · refine Or.inr ?_
        by_contra hcon
        rw [Bool.not_eq_false] at hcon
        exact Bool.false_ne_true (hb.symm.trans (hnew.isSet b hcon))
    · rcases Nat.lt_succ_iff_lt_or_eq.mp hi with hi | rfl
      · obtain ⟨fl, hw⟩ := hnew.walk i hi
        rw [hupdate i hi]
        exact hkeeps _ _ (Nat.mod_lt _ (by decide)) hw
      · rw [Function.update_self]
        exact ⟨_, hwalk⟩
    · rcases Nat.lt_succ_iff_lt_or_eq.mp hi with hi | rfl
      · obtain ⟨h₁, h₂, h₃⟩ := hnew.fresh i hi
        rw [hupdate i hi]
        refine ⟨h₁, hset _ h₂, fun hp ↦ ?_⟩
        rcases hpaging _ hp with hp | hp
        · exact h₃ hp
        · exact Bool.false_ne_true (hp.symm.trans h₂)
      · rw [Function.update_self]
        exact ⟨hclear₀, hcset, hcpaging⟩
    · rcases Nat.lt_succ_iff_lt_or_eq.mp hj with hj | rfl
      · rw [hupdate i (hij.trans hj), hupdate j hj]
        exact hnew.inj i j hij hj
      · rw [hupdate i hij, Function.update_self]
        exact hold i hij
    · have hxp₁ : ¬ m₁.IsPaging (x / 4096) := fun hp ↦ by
        rcases hnew.paging _ hp with hp | hp
        · exact hxp hp
        · exact Bool.false_ne_true (hp.symm.trans hx)
      rw [hram x (hnew.isSet _ hx) hxp₁ hxF, hnew.ram x hx hxp hxF]

/-- **Absent pages under a page table**, with all blocks from `b₀` on free: they are mapped
harmlessly, and no other page changes. -/
theorem WF.mapPages_of_table (h : m.WF) (b₀ : ℕ) (hn : n ≤ 2 ^ 20)
    (hent : ∀ i < n, m.entry (pdIndex ((virt + i * pageSize) % 2 ^ 32)) % 8 = 7)
    (hnone : ∀ i < n, m.walk ((virt + i * pageSize) % 2 ^ 32) = none)
    (hroom : b₀ + n ≤ m.pmm.maxBlocks)
    (hfree : ∀ b, b₀ ≤ b → b < m.pmm.maxBlocks → m.pmm.isSet b = false) :
    MapsHarmlessly F m virt n ∧ (m.mapPages freshFrame virt n).WF ∧
      (m.mapPages freshFrame virt n).pmm.maxBlocks = m.pmm.maxBlocks ∧
      (∀ i < 1024, (m.mapPages freshFrame virt n).entry i = m.entry i) ∧
      (∀ v, v < 2 ^ 32 → (∀ i < n, v / 4096 ≠ (virt + i * pageSize) % 2 ^ 32 / 4096) →
        (m.mapPages freshFrame virt n).walk v = m.walk v) ∧
      ∀ b, b₀ + n ≤ b → b < m.pmm.maxBlocks →
        (m.mapPages freshFrame virt n).pmm.isSet b = false := by
  induction n with
  | zero => exact ⟨trivial, h, rfl, fun _ _ ↦ rfl, fun _ _ _ ↦ rfl, fun b hb hlt ↦ hfree b hb hlt⟩
  | succ n ih =>
    obtain ⟨hharm, hwf, hmax, hentry, hwalk, hclear⟩ := ih (by omega)
      (fun i hi ↦ hent i (by omega)) (fun i hi ↦ hnone i (by omega)) (by omega)
    have hlt : (virt + n * pageSize) % 2 ^ 32 < 2 ^ 32 := Nat.mod_lt _ (by decide)
    have hmod := hent n (Nat.lt_succ_self n)
    have habsent := hnone n (Nat.lt_succ_self n)
    rw [← hentry _ (pdIndex_lt hlt)] at hmod
    rw [← hwalk _ hlt fun i hi ↦ by rw [pageSize]; omega] at habsent
    have hstep : ∀ m₁ : Vmm, m.mapPages freshFrame virt n = m₁ →
        m.mapPages freshFrame virt (n + 1) =
          m₁.pageFaultHandler ((virt + n * pageSize) % 2 ^ 32) 0 := fun m₁ h₁ ↦ by
      rw [mapPages, h₁]
      rfl
    rw [MapsHarmlessly]
    generalize hm₁ : m.mapPages freshFrame virt n = m₁ at *
    rw [hstep m₁ rfl]
    generalize hpage : (virt + n * pageSize) % 2 ^ 32 = page at *
    have hne : m₁.entry (pdIndex page) ≠ 0 := fun h0 ↦ by
      rw [h0] at hmod
      exact absurd hmod (by decide)
    have hts : m₁.faultTables page = [] := tablesTaken_of_ne (m := m₁.afterFrame) hne
    have hone : ∃ b, b < m₁.pmm.maxBlocks ∧ m₁.pmm.isSet b = false :=
      ⟨b₀ + n, by omega, hclear _ (Nat.le_refl _) (by omega)⟩
    obtain ⟨f, hf⟩ := Pmm.exists_findFreeBlocks_one hone
    obtain ⟨hflt, -, hbefore⟩ := Pmm.findFreeBlocks_one_lt hf
    obtain ⟨-, -, hafter⟩ := Pmm.allocateBlocks_one hf
    obtain ⟨-, -, -, hfault⟩ := hwf.pageFault_step hone page hlt 0
    rw [hts] at hfault
    have hentry' : ∀ i < 1024, (m₁.pageFaultHandler page 0).entry i = m₁.entry i := fun i hi ↦
      hfault.entry_old i hi (by simp)
    refine ⟨⟨hharm, hone, ⟨fun w hw ↦ ?_, fun _ _ ↦ hmod, fun h0 ↦ absurd h0 hne,
      fun v hv _ _ ↦ ?_, fun i b w hb ↦ ?_⟩, fun b hb ↦ ?_⟩, hfault.wf,
      hfault.maxBlocks.trans (m₁.afterFrame_maxBlocks.trans hmax),
      fun i hi ↦ (hentry' i hi).trans (hentry i hi), fun v hv hvn ↦ ?_, fun b hb hblt ↦ ?_⟩
    · rw [habsent] at hw
      cases hw
    · rw [hts]
      exact not_cleared_nil
    · rw [hts] at hb
      exact absurd hb List.not_mem_nil
    · rw [hts] at hb
      exact absurd hb List.not_mem_nil
    · rw [← hwalk v hv fun i hi ↦ hvn i (by omega)]
      have hother := hvn n (Nat.lt_succ_self n)
      rw [hpage] at hother
      by_cases h0 : m₁.entry (pdIndex v) = 0
      · exact hfault.walk_none hv h0 (by simp)
      · have hlook : ((page / 4096, m₁.faultFrame + userFlags) ::
            identityStores [] userFlags).lookup (v / 4096) = none := by
          rw [List.lookup_cons, beq_false_of_ne hother]
          rfl
        have hafterwf : m₁.afterFrame.WF := hwf.allocate m₁.afterFrame_maxBlocks fun b hb ↦
          Pmm.isSet_allocateBlocks hb 1
        exact (hfault.walk_old_iff hafterwf (by decide) hv hlook h0).mpr fun hc ↦
          absurd hc not_cleared_nil
    · rw [hfault.isSet]
      show (_ || (m₁.pmm.allocateBlocks 1).2.isSet b) = false
      have hle : f ≤ b₀ + n := by
        by_contra hcon
        have := hbefore (b₀ + n) (by omega)
        rw [hclear _ (Nat.le_refl _) (by omega)] at this
        cases this
      rw [hafter, hclear b (by omega) hblt, decide_eq_false (show ¬ b = f by omega)]
      rfl

/-- What a kernel stores to the new pages, and to no page that was in use, changes nothing else. -/
theorem NewPages.sameTables {f : ℕ → ℕ} {m₁ : Vmm} (h : NewPages F m virt n f m₁)
    (hdir : m.directory % 4096 = 0) (hsame : SameTables m₁ m')
    (hout : ∀ x, m.pmm.isSet (x / 4096) = true → m'.ram x = m₁.ram x) :
    NewPages F m virt n f m' := by
  have hdir₁ : m₁.directory % 4096 = 0 := h.directory ▸ hdir
  refine ⟨hsame.wf hdir₁ h.wf, hsame.directory.trans h.directory, hsame.pmm ▸ h.maxBlocks,
    fun b hb ↦ hsame.pmm ▸ h.isSet b hb, fun v w hv hw ↦ ?_, fun b hb ↦ ?_, fun i hi ↦ ?_,
    fun i hi ↦ ?_, h.inj, fun x hx hxp hxF ↦ (hout x hx).trans (h.ram x hx hxp hxF)⟩
  · rw [hsame.walk hdir₁ hv]
    exact h.keeps v w hv hw
  · exact h.paging b ((hsame.isPaging_iff hdir₁).mp hb)
  · rw [hsame.walk hdir₁ (Nat.mod_lt _ (by decide))]
    exact h.walk i hi
  · rw [hsame.pmm, hsame.isPaging_iff hdir₁]
    exact h.fresh i hi

theorem NewPages.region {f : ℕ → ℕ} (h : NewPages F m virt n f m') (hv : virt % pageSize = 0) :
    m'.Region virt n f :=
  ⟨hv, h.walk, fun j hj ↦ (h.fresh j hj).2.2, h.inj⟩

/-- Pages that were there stay. -/
theorem NewPages.region_of_old {f g : ℕ → ℕ} (h : NewPages F m virt n f m') {address k : ℕ}
    (hr : m.Region address k g) (hset : ∀ j < k, m.pmm.isSet (g j) = true) :
    m'.Region address k g := by
  refine ⟨hr.aligned, fun j hj ↦ ?_, fun j hj hp ↦ ?_, hr.inj⟩
  · obtain ⟨fl, hw⟩ := hr.walk j hj
    exact h.keeps _ _ (Nat.mod_lt _ (by decide)) hw
  · rcases h.paging _ hp with hp | hp
    · exact hr.data j hj hp
    · exact Bool.false_ne_true (hp.symm.trans (hset j hj))

/-- **The pages of a file**, mapped and loaded. -/
theorem WF.exists_loadFile (h : m.WF) (hv : virt % pageSize = 0) {inode : Inode}
    (hharm : MapsHarmlessly F m virt (filePageCount inode.size)) {leftover : ℕ}
    (hleft : leftover = 0 ∨ inode.size = 0) (disk : ByteStore) :
    ∃ f vmm, loadFile disk inode (m.mapPages freshFrame virt (filePageCount inode.size)) virt
        leftover = some vmm ∧ NewPages F m virt (filePageCount inode.size) f vmm ∧
      ∀ y < bytesToBlocks inode.size * pageSize,
        vmm.ram (frameByte f y) = disk (fileByte inode y) := by
  obtain ⟨f, hnew⟩ := h.newPages hharm
  generalize m.mapPages freshFrame virt (filePageCount inode.size) = m₁ at hnew ⊢
  have hdir := h.dir_mod
  by_cases hsize : bytesToBlocks inode.size = 0
  · refine ⟨f, m₁, ?_, hnew, fun y hy ↦ absurd hy (by rw [hsize]; omega)⟩
    rw [loadFile, hsize]
    rfl
  · have hzero : leftover = 0 := hleft.resolve_right fun h0 ↦ hsize (by rw [h0]; rfl)
    have hpages : filePageCount inode.size = bytesToBlocks inode.size := if_neg hsize
    obtain ⟨vmm, hload, hsame, hout, hin⟩ := loadBlocks_spec disk inode
      (hnew.directory ▸ hdir) (hnew.region hv) (bytesToBlocks inode.size) hpages.ge
    refine ⟨f, vmm, ?_, hnew.sameTables hdir hsame fun x hx ↦ hout x fun y hy heq ↦ ?_, hin⟩
    · rw [loadFile, hzero]
      exact hload
    · -- the frames of the new pages were not in use
      have hdiv : x / 4096 = f (y / pageSize) := by rw [heq, frameByte_div]
      have hpage : y / pageSize < filePageCount inode.size :=
        Nat.div_lt_of_lt_mul (by rwa [hpages, Nat.mul_comm])
      rw [hdiv, (hnew.fresh _ hpage).1] at hx
      exact Bool.false_ne_true hx

/-! ## Pages that are given back -/

/-- The bit `b`, which `free_page` clears for the frame at `b`, is one of the bitmap, and its block
is none that the page directory needs. -/
def Freeable (m : Vmm) (b : ℕ) : Prop :=
  b < m.pmm.maxBlocks ∧ ¬ m.IsPaging b ∧ b ≠ m.directory / 4096 - 1

/-- The pages from `address` on, which led to the frames `f i`, are gone. -/
structure ClosedPages (m : Vmm) (address n : ℕ) (f : ℕ → ℕ) (m' : Vmm) : Prop where
  wf : m'.WF
  directory : m'.directory = m.directory
  maxBlocks : m'.pmm.maxBlocks = m.pmm.maxBlocks
  isSet : ∀ b, m.pmm.isSet b = true → (∀ i, i < n → f i * 4096 ≠ b) → m'.pmm.isSet b = true
  isPaging : ∀ b, m'.IsPaging b ↔ m.IsPaging b
  walk : ∀ v, v < 2 ^ 32 → (∀ i, i < n → v / 4096 ≠ (address + i * pageSize) % 2 ^ 32 / 4096) →
    m'.walk v = m.walk v
  ram : ∀ x, ¬ m.IsPaging (x / 4096) → m'.ram x = m.ram x

theorem ClosedPages.refl {address : ℕ} {f : ℕ → ℕ} (h : m.WF) : ClosedPages m address 0 f m :=
  ⟨h, rfl, rfl, fun _ hb _ ↦ hb, fun _ ↦ Iff.rfl, fun _ _ _ ↦ rfl, fun _ _ ↦ rfl⟩

theorem WF.putPte_isPaging (h : m.WF) {v e b : ℕ} (hv : v < 2 ^ 32)
    (hne : m.entry (pdIndex v) ≠ 0) : (m.putPte v e).IsPaging b ↔ m.IsPaging b := by
  have hentry : ∀ i, i < 1024 ∧ (m.putPte v e).entry i ≠ 0 ∧ (m.putPte v e).table i = b * 4096 ↔
      i < 1024 ∧ m.entry i ≠ 0 ∧ m.table i = b * 4096 := fun i ↦ and_congr_right fun hi ↦ by
    rw [Vmm.table, h.putPte_entry hv hne hi]
    rfl
  rw [IsPaging, IsPaging]
  simp only [hentry]
  rfl

/-- An entry of another page is not changed. -/
theorem WF.putPte_walk (h : m.WF) {v w e : ℕ} (hv : v < 2 ^ 32) (hne : m.entry (pdIndex v) ≠ 0)
    (he : e < 2 ^ 32) (hw : w < 2 ^ 32) (hwv : w / 4096 ≠ v / 4096) :
    (m.putPte v e).walk w = m.walk w := by
  have hentry := h.putPte_entry hv hne (pdIndex_lt hw) (e := e)
  by_cases h0 : m.entry (pdIndex w) = 0
  · rw [walk_of_entry_zero h0, walk_of_entry_zero (hentry.trans h0)]
  · refine walk_congr hentry ((h.putPte_step hv hne 0 he).pte_of_nil hw h0 ?_)
    rw [List.lookup_cons, beq_false_of_ne hwv, List.lookup_nil]

/-- Other pages stay. -/
theorem ClosedPages.region_of_apart {f g : ℕ → ℕ} {address address' k : ℕ}
    (h : ClosedPages m address' n f m') (hr : m.Region address k g)
    (hapart : ∀ j < k, ∀ i < n,
      (address + j * pageSize) % 2 ^ 32 / 4096 ≠ (address' + i * pageSize) % 2 ^ 32 / 4096) :
    m'.Region address k g := by
  refine ⟨hr.aligned, fun j hj ↦ ?_, fun j hj hp ↦ hr.data j hj ((h.isPaging _).mp hp), hr.inj⟩
  rw [h.walk _ (Nat.mod_lt _ (by decide)) fun i hi ↦ hapart j hj i hi]
  exact hr.walk j hj

/-- Only the page table of the page is stored to. -/
theorem putPte_ram {v e x : ℕ} (hv : v < 2 ^ 32) (hne : m.entry (pdIndex v) ≠ 0)
    (hx : ¬ m.IsPaging (x / 4096)) : (m.putPte v e).ram x = m.ram x := by
  refine ByteStore.writeWord_of_not_mem ?_
  by_contra hcon
  obtain ⟨k, hk, rfl⟩ : ∃ k < 4, x = m.getPage v + k := ⟨x - m.getPage v, by omega, by omega⟩
  exact hx (Or.inr ⟨_, pdIndex_lt hv, hne, (m.getPage_div v hk).symm⟩)

/-- Clearing a bit that the page directory does not need. -/
theorem WF.freeFrame (h : m.WF) {b : ℕ} (hb : b + 1 ≤ 2 ^ 32) (hpos : b ≠ 0) (hfree : m.Freeable b) :
    ({ m with pmm := m.pmm.freeBlocks b 1 } : Vmm).WF := by
  obtain ⟨-, hpaging, hbefore⟩ := hfree
  have hset : ∀ c, c ≠ b → m.pmm.isSet c = true → (m.pmm.freeBlocks b 1).isSet c = true :=
    fun c hc hcset ↦ by
      rw [Pmm.isSet_freeBlocks _ hb, hcset, decide_eq_false (by omega)]
      rfl
  refine ⟨(Pmm.freeBlocks_maxBlocks ..).trans_le h.maxBlocks_le, hset 0 hpos.symm h.zero_set,
    h.dir_mod, hset _ (fun heq ↦ hpaging (Or.inl ?_)) h.dir_set, hset _ hbefore.symm h.before_dir,
    h.present, fun i hi hne ↦ hset _ (fun heq ↦ hpaging (Or.inr ⟨i, hi, hne, ?_⟩))
      (h.table_set i hi hne), h.table_ne_dir, h.table_inj⟩
  · have := h.dir_mod
    change m.directory / 4096 = b at heq
    omega
  · have : m.table i % 4096 = 0 := m.table_mod i
    change m.table i / 4096 = b at heq
    change m.table i = b * 4096
    omega

/-- The entry of a present page has the address of its frame. -/
theorem frameOf_pte {v p fl : ℕ} (h : m.walk v = some (p, fl)) : frameOf (m.pte v) = p := by
  rw [walk] at h
  split at h
  · exact congrArg Prod.fst (Option.some.inj h)
  · cases h

/-- **One page** of the loop. -/
theorem WF.closePage (h : m.WF) {v f fl : ℕ} (hv : v < 2 ^ 32)
    (hwalk : m.walk v = some (f * 4096, fl)) (hf : f ≠ 0) (hfree : m.Freeable (f * 4096)) :
    ClosedPages m v 1 (fun _ ↦ f) ((m.freePage v).unmapPage v) := by
  have hent := entry_ne_of_walk hwalk
  have hframe : frameOf (m.pte v) = f * 4096 := frameOf_pte hwalk
  have hlt : f * 4096 + 1 ≤ 2 ^ 32 := by
    have : frameOf (m.pte v) ≤ 0xFFFFF000 := Nat.and_le_right
    omega
  have hpos : f * 4096 ≠ 0 := by omega
  have hwf₁ := h.freeFrame hlt hpos hfree
  have hpage : m.freePage v =
      { m with pmm := m.pmm.freeBlocks (f * 4096) 1 }.putPte v (m.pte v &&& 0xFFFFFFFE) := by
    rw [freePage, hframe, if_pos hpos]
  rw [hpage]
  have hkept : ∀ b, m.pmm.isSet b = true → f * 4096 ≠ b →
      (m.pmm.freeBlocks (f * 4096) 1).isSet b = true := fun b hb hne ↦ by
    rw [Pmm.isSet_freeBlocks _ hlt, hb, decide_eq_false (by omega)]
    rfl
  generalize hm₁ : ({ m with pmm := m.pmm.freeBlocks (f * 4096) 1 } : Vmm) = m₁ at hwf₁
  have hdir : m₁.directory = m.directory := by rw [← hm₁]
  have hram : m₁.ram = m.ram := by rw [← hm₁]
  have hpaging : ∀ b, m₁.IsPaging b ↔ m.IsPaging b := fun b ↦ by rw [← hm₁]; rfl
  have hwalk₁ : ∀ w, m₁.walk w = m.walk w := fun w ↦ by rw [← hm₁]; rfl
  have hent₁ : m₁.entry (pdIndex v) ≠ 0 := by rw [← hm₁]; exact hent
  have hwf₂ := hwf₁.putPte hv hent₁ (e := m.pte v &&& 0xFFFFFFFE)
  have hent₂ : (m₁.putPte v (m.pte v &&& 0xFFFFFFFE)).entry (pdIndex v) ≠ 0 := by
    rw [hwf₁.putPte_entry hv hent₁ (pdIndex_lt hv)]
    exact hent₁
  have hlow : ∀ e : ℕ, e &&& 0xFFFFFFFE < 2 ^ 32 := fun e ↦
    Nat.lt_of_le_of_lt Nat.and_le_right (by decide)
  rw [unmapPage]
  refine ⟨hwf₂.putPte hv hent₂, hdir, ?_, fun b hb hne ↦ ?_, fun b ↦ ?_, fun w hw hwv ↦ ?_,
    fun x hx ↦ ?_⟩
  · show m₁.pmm.maxBlocks = _
    rw [← hm₁]
    exact Pmm.freeBlocks_maxBlocks ..
  · show m₁.pmm.isSet b = true
    rw [← hm₁]
    exact hkept b hb (hne 0 Nat.one_pos)
  · rw [hwf₂.putPte_isPaging hv hent₂, hwf₁.putPte_isPaging hv hent₁, hpaging]
  · have hne : w / 4096 ≠ v / 4096 := by
      have := hwv 0 Nat.one_pos
      rwa [Nat.zero_mul, Nat.add_zero, Nat.mod_eq_of_lt hv] at this
    rw [hwf₂.putPte_walk hv hent₂ (hlow _) hw hne, hwf₁.putPte_walk hv hent₁ (hlow _) hw hne, hwalk₁]
  · rw [putPte_ram hv hent₂, putPte_ram hv hent₁, hram]
    · rwa [hpaging]
    · rwa [hwf₁.putPte_isPaging hv hent₁, hpaging]

/-- **The loop of `sys_close`.** -/
theorem WF.closePages (h : m.WF) {address : ℕ} {f : ℕ → ℕ} : ∀ n : ℕ, n ≤ 2 ^ 20 →
    (∀ i < n, ∃ fl, m.walk ((address + i * pageSize) % 2 ^ 32) = some (f i * 4096, fl)) →
    (∀ i < n, f i ≠ 0 ∧ m.Freeable (f i * 4096)) →
    ClosedPages m address n f (m.closePages address n)
  | 0, _, _, _ => ClosedPages.refl h
  | n + 1, hn, hwalk, hfree => by
    have hprev := h.closePages n (by omega) (fun i hi ↦ hwalk i (by omega)) fun i hi ↦
      hfree i (by omega)
    obtain ⟨fl, hw⟩ := hwalk n (Nat.lt_succ_self n)
    obtain ⟨hpos, hmax, hpaging, hbefore⟩ := hfree n (Nat.lt_succ_self n)
    have hlt : (address + n * pageSize) % 2 ^ 32 < 2 ^ 32 := Nat.mod_lt _ (by decide)
    -- the page is none of those before
    have hnew : ∀ i < n,
        (address + n * pageSize) % 2 ^ 32 / 4096 ≠ (address + i * pageSize) % 2 ^ 32 / 4096 :=
      fun i hi ↦ by
        rw [pageSize]
        omega
    rw [← hprev.walk _ hlt hnew] at hw
    rw [Vmm.closePages]
    generalize m.closePages address n = m₁ at hprev hw
    have hfree₁ : m₁.Freeable (f n * 4096) :=
      ⟨hprev.maxBlocks ▸ hmax, fun hp ↦ hpaging ((hprev.isPaging _).mp hp),
        hprev.directory ▸ hbefore⟩
    have hlast := hprev.wf.closePage hlt hw hpos hfree₁
    generalize (m₁.freePage ((address + n * pageSize) % 2 ^ 32)).unmapPage
      ((address + n * pageSize) % 2 ^ 32) = m₂ at hlast
    refine ⟨hlast.wf, hlast.directory.trans hprev.directory, hlast.maxBlocks.trans hprev.maxBlocks,
      fun b hb hne ↦ ?_, fun b ↦ (hlast.isPaging b).trans (hprev.isPaging b), fun v hv hvn ↦ ?_,
      fun x hx ↦ ?_⟩
    · exact hlast.isSet b (hprev.isSet b hb fun i hi ↦ hne i (by omega)) fun i hi ↦
        hne n (by omega)
    · rw [hlast.walk v hv fun i hi ↦ ?_, hprev.walk v hv fun i hi ↦ hvn i (by omega)]
      obtain rfl : i = 0 := by omega
      rw [Nat.zero_mul, Nat.add_zero, Nat.mod_eq_of_lt hlt]
      exact hvn n (by omega)
    · rw [hlast.ram x fun hp ↦ hx ((hprev.isPaging _).mp hp), hprev.ram x hx]

/-! ## The frames of the bitmap -/

/-- New page tables are in frames that were free. -/
theorem WF.faultTables_clear (h : m.WF) (hfree : ∃ b, b < m.pmm.maxBlocks ∧ m.pmm.isSet b = false)
    {page b : ℕ} (hpage : page < 2 ^ 32) (hb : b ∈ (m.faultTables page).map Prod.snd) :
    m.pmm.isSet b = false := by
  obtain ⟨⟨i, b⟩, ht, rfl⟩ := List.mem_map.mp hb
  obtain ⟨-, -, -, hstep⟩ := h.pageFault_step hfree page hpage 0
  have hclear : m.afterFrame.pmm.isSet b = false := (hstep.fresh _ _ ht).2.2.2.2
  by_contra hset
  rw [Bool.not_eq_false] at hset
  exact Bool.false_ne_true (hclear.symm.trans (Pmm.isSet_allocateBlocks hset 1))

/-- No new page table lies in front of a frame of the bitmap. -/
theorem MapsHarmlessly.bitmap (h : m.WF) (hkeeps : m.KeepsBitmap) (hharm : MapsHarmlessly F m virt n) :
    MapsHarmlessly (fun b ↦ F b ∨ BitmapFrame b) m virt n := by
  induction n with
  | zero => trivial
  | succ n ih =>
    obtain ⟨hprev, hfree, hpage, hF⟩ := hharm
    obtain ⟨f, hnew⟩ := h.newPages hprev
    refine ⟨ih hprev, hfree, hpage, fun b hb hmem ↦ hmem.elim (hF b hb) fun hbitmap ↦ ?_⟩
    have hclear := hnew.wf.faultTables_clear hfree (Nat.mod_lt _ (by decide)) hb
    rw [bitmapFrame_iff] at hbitmap
    rw [hnew.isSet b (hkeeps.used b (by omega) (by omega))] at hclear
    cases hclear

section NewPages

variable {f : ℕ → ℕ} (h : NewPages F m virt n f m')
include h

theorem NewPages.mono {G : ℕ → Prop} (hG : ∀ b, G b → F b) : NewPages G m virt n f m' :=
  { h with ram := fun x hx hp hk ↦ h.ram x hx hp (hG _ hk) }

theorem NewPages.not_bitmapFrame (hkeeps : m.KeepsBitmap) {i : ℕ} (hi : i < n) :
    ¬ BitmapFrame (f i) := fun hb ↦ by
  have hclear := (h.fresh i hi).1
  rw [(hkeeps.holdsData hb).1] at hclear
  cases hclear

theorem NewPages.keepsBitmap (hkeeps : m.KeepsBitmap) : m'.KeepsBitmap where
  used := fun b hb hlt ↦ h.isSet b (hkeeps.used b hb hlt)
  data := fun b hb hp ↦ (h.paging b hp).elim (hkeeps.data b hb) fun hclear ↦ by
    rw [(hkeeps.holdsData hb).1] at hclear
    cases hclear
  walk := fun b hb ↦ by
    have := bitmapFrame_iff.mp hb
    obtain ⟨flags, hw⟩ := hkeeps.walk b hb
    exact h.keeps _ _ (by omega) hw

theorem NewPages.bitmapKept (hkeeps : m.KeepsBitmap) (hF : ∀ b, BitmapFrame b → F b) :
    BitmapKept m m' :=
  ⟨h.keepsBitmap hkeeps, fun x hx ↦ h.ram x (hkeeps.holdsData hx).1 (hkeeps.holdsData hx).2 (hF _ hx)⟩

end NewPages

/-- Pages that lead elsewhere are none of the bitmap's. -/
theorem Region.not_bitmapPage {address k : ℕ} {f : ℕ → ℕ} (h : m.Region address k f)
    (hkeeps : m.KeepsBitmap) {j : ℕ} (hj : j < k) (hb : ¬ BitmapFrame (f j)) :
    ¬ BitmapFrame ((address + j * pageSize) % 2 ^ 32 / 4096) := fun hpage ↦ by
  obtain ⟨flags, hw⟩ := h.walk j hj
  obtain ⟨flags', hw'⟩ := hkeeps.walk _ hpage
  rw [walk_page (Nat.mul_div_cancel _ (by decide)), hw] at hw'
  have hframe := congrArg Prod.fst (Option.some.inj hw')
  exact hb (Nat.eq_of_mul_eq_mul_right (by decide) hframe ▸ hpage)

/-- The bits that are cleared are far behind those of the bitmap's own frames. -/
theorem ClosedPages.bitmapKept {address : ℕ} {f : ℕ → ℕ} (h : ClosedPages m address n f m')
    (hkeeps : m.KeepsBitmap) (hpos : ∀ i < n, f i ≠ 0)
    (hother : ∀ i < n, ¬ BitmapFrame ((address + i * pageSize) % 2 ^ 32 / 4096)) :
    BitmapKept m m' := by
  refine ⟨⟨fun b hb hlt ↦ h.isSet b (hkeeps.used b hb hlt) fun i hi heq ↦ ?_, fun b hb hp ↦
    hkeeps.data b hb ((h.isPaging b).mp hp), fun b hb ↦ ?_⟩, fun x hx ↦ h.ram x (hkeeps.data _ hx)⟩
  · have := hpos i hi
    omega
  · have hlow := bitmapFrame_iff.mp hb
    rw [h.walk (b * 4096) (by omega) fun i hi heq ↦ hother i hi ?_]
    · exact hkeeps.walk b hb
    · rwa [← heq, Nat.mul_div_cancel _ (by decide)]

end Vmm

end AbOS
