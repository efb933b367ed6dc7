import AbOS.Memory.Clients

/-!
# Mappings that run out of frames

A loop of `map_address` calls needs a frame for each page, and one for each page table it takes.
The loops look at none of the results: without a frame they map the page to frame 0, and without a
page table they leave it unmapped.

`PagesRefused` says that an allocation fails on the way.  When none does, all pages that the loop
has stored are backed by the frames it was given (`WF.backed_freshFrame`, `WF.backed_rangeFrame`).
-/

set_option autoImplicit false

namespace AbOS

namespace Vmm

/-- An allocation that `map_address` needs for entry `i` of the directory fails.  The recursion is
that of `tablesTakenFuel`. -/
def refusedFuel : ℕ → (ℕ → Bool) → Pmm → ℕ → Bool
  | 0, _, _, _ => true
  | fuel + 1, present, pmm, i =>
    if present i then false
    else
      match pmm.findFreeBlocks 1 with
      | none => true
      | some b => refusedFuel fuel (Function.update present i true) (pmm.allocateBlocks 1).2
          (pdIndex (b * blockSize))

/-- An allocation that mapping `virt` needs fails. -/
def TableRefused (m : Vmm) (virt : ℕ) : Prop :=
  refusedFuel (m.pmm.maxBlocks + 1) (fun i ↦ m.entry i ≠ 0) m.pmm (pdIndex virt) = true

/-- In the loop over the pages from `virt` on a page gets no frame, or no page table. -/
def PagesRefused (frame : ℕ → Vmm → ℕ × Vmm) (m : Vmm) (virt : ℕ) : ℕ → Prop
  | 0 => False
  | i + 1 => PagesRefused frame m virt i ∨ (frame i (mapPages frame m virt i)).1 = 0 ∨
    (frame i (mapPages frame m virt i)).2.TableRefused ((virt + i * pageSize) % 2 ^ 32)

/-- The pages that a loop from `m` to `m'` stores: those it was asked for, and the identity pages of
the page tables it took. -/
def Maps (m m' : Vmm) (virt n p : ℕ) : Prop :=
  (∃ i < n, p = (virt + i * pageSize) % 2 ^ 32 / 4096) ∨ (m.Taken m' p ∧ m'.IsPaging p)

/-- They lead to frames that were taken on the way. -/
def Backed (m m' : Vmm) (virt n : ℕ) : Prop :=
  ∀ v w, v < 2 ^ 32 → Maps m m' virt n (v / 4096) → m'.walk v = some w →
    ∃ f, m.Taken m' f ∧ w.1 = f * 4096

/-! ## The frames for page tables -/

/-- When no allocation fails, all entries of the directory that were needed are there. -/
theorem present_of_not_refused : ∀ (fuel : ℕ) {p : ℕ → Bool} {pmm : Pmm} {i : ℕ},
    refusedFuel fuel p pmm i = false →
      (p i = true ∨ i ∈ (tablesTakenFuel fuel p pmm i).map Prod.fst) ∧
      ∀ b ∈ (tablesTakenFuel fuel p pmm i).map Prod.snd, p (pdIndex (b * blockSize)) = true ∨
        pdIndex (b * blockSize) ∈ (tablesTakenFuel fuel p pmm i).map Prod.fst
  | 0, _, _, _, h => absurd h (by simp [refusedFuel])
  | fuel + 1, p, pmm, i, h => by
    rw [refusedFuel] at h
    rw [tablesTakenFuel]
    split at h
    · rename_i hp
      rw [if_pos hp]
      exact ⟨Or.inl hp, fun b hb ↦ absurd hb (by simp)⟩
    · rename_i hp
      rw [if_neg hp]
      cases hfind : pmm.findFreeBlocks 1 with
      | none => simp [hfind] at h
      | some b₀ =>
        simp only [hfind] at h
        obtain ⟨hhead, hrest⟩ := present_of_not_refused fuel h
        -- an entry that is present after the first table was, or is that of the table
        have hcases : ∀ j, Function.update p i true j = true ∨
            j ∈ (tablesTakenFuel fuel (Function.update p i true) (pmm.allocateBlocks 1).2
              (pdIndex (b₀ * blockSize))).map Prod.fst →
            p j = true ∨ j ∈ (((i, b₀) :: tablesTakenFuel fuel (Function.update p i true)
              (pmm.allocateBlocks 1).2 (pdIndex (b₀ * blockSize))).map Prod.fst) := by
          intro j hj
          rw [List.map_cons, List.mem_cons]
          by_cases hji : j = i
          · exact Or.inr (Or.inl hji)
          · rw [Function.update_of_ne hji] at hj
            exact hj.imp_right Or.inr
        refine ⟨Or.inr List.mem_cons_self, fun b hb ↦ ?_⟩
        rw [List.map_cons, List.mem_cons] at hb
        rcases hb with rfl | hb
        · exact hcases _ hhead
        · exact hcases _ (hrest b hb)

variable {m₀ m m' : Vmm} {S : ℕ → Prop}

/-- A page that has a page table needs no frame for it. -/
theorem not_tableRefused {virt : ℕ} (h : m.entry (pdIndex virt) ≠ 0) : ¬ m.TableRefused virt := by
  rw [TableRefused, refusedFuel, if_pos (decide_eq_true h)]
  exact Bool.false_ne_true

/-- What is kept up in the loop: the pages of `S` and the identity pages of the new tables have a
page table, and lead to frames taken since `m₀`. -/
structure BackedSince (m₀ : Vmm) (S : ℕ → Prop) (m : Vmm) : Prop where
  wf : m.WF
  isSet : ∀ b, m₀.pmm.isSet b = true → m.pmm.isSet b = true
  entry : ∀ v, v < 2 ^ 32 → S (v / 4096) ∨ (m₀.Taken m (v / 4096) ∧ m.IsPaging (v / 4096)) →
    m.entry (pdIndex v) ≠ 0
  walk : ∀ v w, v < 2 ^ 32 → S (v / 4096) ∨ (m₀.Taken m (v / 4096) ∧ m.IsPaging (v / 4096)) →
    m.walk v = some w → ∃ f, m₀.Taken m f ∧ w.1 = f * 4096

theorem BackedSince.refl (h : m₀.WF) : BackedSince m₀ (fun _ ↦ False) m₀ where
  wf := h
  isSet := fun _ hb ↦ hb
  entry := fun _ _ hh ↦ absurd (hh.resolve_left id).1.1 (by rw [(hh.resolve_left id).1.2]; simp)
  walk := fun _ _ _ hh ↦ absurd (hh.resolve_left id).1.1 (by rw [(hh.resolve_left id).1.2]; simp)

/-- Taking frames changes no page. -/
theorem BackedSince.allocate (h : BackedSince m₀ S m) {q : Pmm}
    (hmax : q.maxBlocks = m.pmm.maxBlocks) (hset : ∀ b, m.pmm.isSet b = true → q.isSet b = true) :
    BackedSince m₀ S { m with pmm := q } := by
  -- a frame that is in use for paging had been taken before
  have hpaging : ∀ b, m₀.Taken { m with pmm := q } b ∧ ({ m with pmm := q } : Vmm).IsPaging b →
      m₀.Taken m b ∧ m.IsPaging b := fun b ⟨ht, hp⟩ ↦ ⟨⟨ht.1, h.wf.isSet_of_isPaging hp⟩, hp⟩
  refine ⟨h.wf.allocate hmax hset, fun b hb ↦ hset b (h.isSet b hb),
    fun v hv hh ↦ h.entry v hv (hh.imp_right (hpaging _)), fun v w hv hh hw ↦ ?_⟩
  obtain ⟨f, hf, hwf⟩ := h.walk v w hv (hh.imp_right (hpaging _)) hw
  exact ⟨f, ⟨hf.1, hset f hf.2⟩, hwf⟩

/-- **One mapping** to a frame that has been taken. -/
theorem BackedSince.mapAddress (h : BackedSince m₀ S m) {f virt : ℕ} (hf : m₀.Taken m f)
    (hflt : f * 4096 < 2 ^ 32) (hv : virt < 2 ^ 32) (hroom : ¬ m.TableRefused virt) :
    BackedSince m₀ (fun p ↦ S p ∨ p = virt / 4096)
      (m.mapAddress (f * 4096) virt userFlags).2 := by
  have hstep := (h.wf.mapAddress_step (f * 4096) virt userFlags (Nat.mul_mod_left ..) hflt hv
    (by decide) (by decide)).1
  obtain ⟨hneed, hneeds⟩ := present_of_not_refused _ (Bool.not_eq_true _ ▸ hroom)
  change (decide (m.entry (pdIndex virt) ≠ 0) = true ∨
    pdIndex virt ∈ (m.tablesTaken virt).map Prod.fst) at hneed
  change (∀ b ∈ (m.tablesTaken virt).map Prod.snd,
    decide (m.entry (pdIndex (b * blockSize)) ≠ 0) = true ∨
      pdIndex (b * blockSize) ∈ (m.tablesTaken virt).map Prod.fst) at hneeds
  generalize m.tablesTaken virt = ts at hstep hneed hneeds
  generalize (m.mapAddress (f * 4096) virt userFlags).2 = m' at hstep ⊢
  have hset : ∀ b, m.pmm.isSet b = true → m'.pmm.isSet b = true := fun b hb ↦ by
    rw [hstep.isSet, hb, Bool.or_true]
  have hpresent : ∀ v, v < 2 ^ 32 →
      decide (m.entry (pdIndex v) ≠ 0) = true ∨ pdIndex v ∈ ts.map Prod.fst →
        m'.entry (pdIndex v) ≠ 0 := by
    rintro v hv (hne | hmem)
    · exact hstep.entry_ne (pdIndex_lt hv) (decide_eq_true_eq.mp hne)
    · obtain ⟨⟨i, b⟩, ht, hi⟩ := List.mem_map.mp hmem
      rw [← hi, hstep.entry_new i b ht, userFlags_eq]
      omega
  -- a page of the loop was one before, or is stored now
  have hcases : ∀ v, (S (v / 4096) ∨ v / 4096 = virt / 4096) ∨
      (m₀.Taken m' (v / 4096) ∧ m'.IsPaging (v / 4096)) →
      (S (v / 4096) ∨ (m₀.Taken m (v / 4096) ∧ m.IsPaging (v / 4096))) ∨
        v / 4096 = virt / 4096 ∨ v / 4096 ∈ ts.map Prod.snd := by
    rintro v ((hS | heq) | ⟨ht, hp⟩)
    · exact Or.inl (Or.inl hS)
    · exact Or.inr (Or.inl heq)
    · rcases hstep.isPaging_cases (by decide) hp with hp | hp
      · exact Or.inl (Or.inr ⟨⟨ht.1, h.wf.isSet_of_isPaging hp⟩, hp⟩)
      · exact Or.inr (Or.inr hp)
  have hentry : ∀ v, v < 2 ^ 32 → (S (v / 4096) ∨ v / 4096 = virt / 4096) ∨
      (m₀.Taken m' (v / 4096) ∧ m'.IsPaging (v / 4096)) → m'.entry (pdIndex v) ≠ 0 := by
    intro v hvlt hh
    rcases hcases v hh with hold | heq | hmem
    · exact hstep.entry_ne (pdIndex_lt hvlt) (h.entry v hvlt hold)
    · refine hpresent v hvlt ?_
      rw [((page_eq_iff v virt).mp heq).1]
      exact hneed
    · refine hpresent v hvlt ?_
      have hpage : v / 4096 = v / 4096 * blockSize / 4096 := by
        rw [blockSize, Nat.mul_div_cancel _ (by decide)]
      rw [((page_eq_iff _ _).mp hpage).1]
      exact hneeds _ hmem
  refine ⟨hstep.wf, fun b hb ↦ hset b (h.isSet b hb), hentry, fun v w hvlt hh hw ↦ ?_⟩
  by_cases hother : Other ts virt (v / 4096)
  · -- its entry has not been stored; it may have been cleared
    have hold := (hcases v hh).resolve_right (not_or.mpr hother)
    have hlook : ((virt / 4096, f * 4096 + userFlags) :: identityStores ts userFlags).lookup
        (v / 4096) = none := lookup_eq_none_iff.mpr hother
    have hne := h.entry v hvlt hold
    have hkept := hstep.walk_old_iff h.wf (by decide) hvlt hlook hne
    by_cases hc : Cleared ts userFlags (m.getPage v)
    · rw [hstep.walk_cleared hvlt hlook hne hc] at hw
      exact absurd hw (by simp)
    · rw [hkept.mpr fun hc' ↦ absurd hc' hc] at hw
      obtain ⟨g, hg, hwg⟩ := h.walk v w hvlt hold hw
      exact ⟨g, ⟨hg.1, hset g hg.2⟩, hwg⟩
  · -- its entry has been stored now
    by_cases heq : v / 4096 = virt / 4096
    · have hlook : ((virt / 4096, f * 4096 + userFlags) :: identityStores ts userFlags).lookup
          (v / 4096) = some (f * 4096 + userFlags) := by
        rw [heq]
        exact List.lookup_cons_self ..
      rw [hstep.walk_stored hvlt hlook (hentry v hvlt hh) (by rw [userFlags_eq]; omega)] at hw
      refine ⟨f, ⟨hf.1, hset f hf.2⟩, ?_⟩
      rw [← Option.some.inj hw, userFlags_eq]
      dsimp only
      omega
    · have hmem := (not_other_iff.mp hother).resolve_left heq
      have hlook : ((virt / 4096, f * 4096 + userFlags) :: identityStores ts userFlags).lookup
          (v / 4096) = some (v / 4096 * 4096 + userFlags) := by
        rw [List.lookup_cons, beq_false_of_ne heq]
        exact lookup_identityStores hmem
      rw [hstep.walk_stored hvlt hlook (hentry v hvlt hh) (by rw [userFlags_eq]; omega)] at hw
      obtain ⟨⟨i, b⟩, ht, hb⟩ := List.mem_map.mp hmem
      refine ⟨v / 4096, ⟨?_, ?_⟩, ?_⟩
      · -- it was free in `m`, and so in `m₀`
        rw [← hb]
        by_contra hcon
        rw [Bool.not_eq_false] at hcon
        exact Bool.false_ne_true ((hstep.fresh i b ht).2.2.2.2.symm.trans (h.isSet b hcon))
      · rw [hstep.isSet, decide_eq_true hmem, Bool.true_or]
      · rw [← Option.some.inj hw, userFlags_eq]
        dsimp only
        omega

/-- A supply that does not fail takes a frame that was free in `m₀`, or took it before `m₁`. -/
def Supplies (frame : ℕ → Vmm → ℕ × Vmm) (m₀ m₁ : Vmm) (n : ℕ) : Prop :=
  ∀ i < n, ∀ m : Vmm, m.WF → (∀ b, m₁.pmm.isSet b = true → m.pmm.isSet b = true) →
    (frame i m).1 ≠ 0 → ∃ f q, frame i m = (f * 4096, { m with pmm := q }) ∧ f * 4096 < 2 ^ 32 ∧
      q.maxBlocks = m.pmm.maxBlocks ∧ (∀ b, m.pmm.isSet b = true → q.isSet b = true) ∧
      m₀.pmm.isSet f = false ∧ q.isSet f = true

/-- **The loop of mappings**, when no allocation fails. -/
theorem BackedSince.mapPages {frame : ℕ → Vmm → ℕ × Vmm} {m₁ : Vmm}
    (h : BackedSince m₀ (fun _ ↦ False) m₁) (virt : ℕ) : ∀ n : ℕ, Supplies frame m₀ m₁ n →
    ¬ PagesRefused frame m₁ virt n →
    BackedSince m₀ (fun p ↦ ∃ i < n, p = (virt + i * pageSize) % 2 ^ 32 / 4096)
        (m₁.mapPages frame virt n) ∧
      ∀ b, m₁.pmm.isSet b = true → (m₁.mapPages frame virt n).pmm.isSet b = true
  | 0, _, _ => by
    simp only [Nat.not_lt_zero, false_and, exists_false]
    exact ⟨h, fun _ hb ↦ hb⟩
  | n + 1, hsupply, hroom => by
    rw [PagesRefused, not_or, not_or] at hroom
    obtain ⟨hprev, hframe, htable⟩ := hroom
    obtain ⟨hback, hset⟩ := h.mapPages virt n (fun i hi ↦ hsupply i (Nat.lt_succ_of_lt hi)) hprev
    obtain ⟨f, q, heq, hlt, hmax, hmono, hfree, htaken⟩ :=
      hsupply n (Nat.lt_succ_self n) _ hback.wf hset hframe
    rw [heq] at htable
    rw [Vmm.mapPages, heq]
    have hvirt : (virt + n * pageSize) % 2 ^ 32 < 2 ^ 32 := Nat.mod_lt _ (by decide)
    have hstep := (hback.allocate hmax hmono).mapAddress (f := f) ⟨hfree, htaken⟩ hlt hvirt htable
    refine ⟨?_, fun b hb ↦ ?_⟩
    · simp only [Nat.lt_succ_iff_lt_or_eq, or_and_right, exists_or, exists_eq_left]
      exact hstep
    · have hmap := (hback.allocate hmax hmono).wf.mapAddress_step (f * 4096)
        ((virt + n * pageSize) % 2 ^ 32) userFlags (Nat.mul_mod_left ..) hlt hvirt (by decide)
        (by decide)
      rw [hmap.1.isSet]
      show (_ || q.isSet b) = true
      rw [hmono b (hset b hb), Bool.or_true]

/-- A new frame for each page. -/
theorem supplies_freshFrame (m₀ : Vmm) (n : ℕ) : Supplies freshFrame m₀ m₀ n := by
  intro i _ m hwf hset hne
  obtain ⟨-, ha⟩ | ⟨f, q, hf, ha, hmax, hq⟩ := m.pmm.allocateBlocks_cases 1
  · rw [freshFrame, faultFrame, ha] at hne
    exact absurd rfl hne
  · obtain ⟨-, ⟨hle, hclear⟩, -⟩ := Pmm.findFreeBlocks_some hf
    have hmaxle := hwf.maxBlocks_le
    have hmono : ∀ b, m.pmm.isSet b = true → q.isSet b = true := fun b hb ↦ by
      rw [hq, hb, Bool.or_true]
    refine ⟨f, q, ?_, by omega, hmax, hmono, ?_, ?_⟩
    · rw [freshFrame, faultFrame, afterFrame, ha]
      rfl
    · by_contra hcon
      rw [Bool.not_eq_false] at hcon
      have hc := hclear 0 (by omega)
      rw [Nat.add_zero, hset f hcon] at hc
      exact Bool.noConfusion hc
    · rw [hq, decide_eq_true (by omega), Bool.true_or]

/-- The frames of one allocation, which did not fail. -/
theorem supplies_rangeFrame (h : m₀.WF) {n s : ℕ} {q : Pmm} (hs : m₀.pmm.findFreeBlocks n = some s)
    (hq : ∀ b, q.isSet b = (decide (s ≤ b ∧ b < s + n) || m₀.pmm.isSet b)) :
    Supplies (rangeFrame (s * blockSize)) m₀ { m₀ with pmm := q } n := by
  intro i hi m _ hset _
  obtain ⟨-, ⟨hle, hclear⟩, -⟩ := Pmm.findFreeBlocks_some hs
  have hmax := h.maxBlocks_le
  have hframe : (s * blockSize + i * pageSize) % 2 ^ 32 = (s + i) * 4096 := by
    rw [blockSize, pageSize, ← Nat.add_mul]
    exact Nat.mod_eq_of_lt (by omega)
  refine ⟨s + i, m.pmm, ?_, by omega, rfl, fun _ hb ↦ hb, hclear i hi, hset _ ?_⟩
  · rw [rangeFrame, hframe]
  · show q.isSet (s + i) = true
    rw [hq, decide_eq_true (by omega), Bool.true_or]

theorem BackedSince.backed {virt n : ℕ}
    (h : BackedSince m₀ (fun p ↦ ∃ i < n, p = (virt + i * pageSize) % 2 ^ 32 / 4096) m) :
    Backed m₀ m virt n := h.walk

/-- **Files, stacks and faults**: one frame after the other. -/
theorem WF.backed_freshFrame (h : m.WF) {virt n : ℕ} (hroom : ¬ PagesRefused freshFrame m virt n) :
    Backed m (m.mapPages freshFrame virt n) virt n :=
  ((BackedSince.refl h).mapPages virt n (supplies_freshFrame m n) hroom).1.backed

/-- A loop whose first page gets no frame. -/
theorem pagesRefused_of_first {frame : ℕ → Vmm → ℕ × Vmm} {virt : ℕ} (h : (frame 0 m).1 = 0) :
    ∀ n, 0 < n → PagesRefused frame m virt n
  | 1, _ => Or.inr (Or.inl h)
  | n + 2, _ => Or.inl (pagesRefused_of_first h (n + 1) (Nat.succ_pos n))

/-- **The heap**: all frames in one allocation. -/
theorem WF.backed_rangeFrame (h : m.WF) {virt n : ℕ} (hroom : ¬ PagesRefused
      (rangeFrame (m.pmm.allocateBlocks n).1) { m with pmm := (m.pmm.allocateBlocks n).2 } virt n) :
    Backed m ({ m with pmm := (m.pmm.allocateBlocks n).2 }.mapPages
      (rangeFrame (m.pmm.allocateBlocks n).1) virt n) virt n := by
  obtain ⟨hnone, ha⟩ | ⟨s, q, hs, ha, hmax, hq⟩ := m.pmm.allocateBlocks_cases n
  · rw [ha] at hroom ⊢
    rcases Nat.eq_zero_or_pos n with rfl | hpos
    · have hnothing : Supplies (rangeFrame 0) m m 0 := fun i hi ↦ absurd hi (Nat.not_lt_zero i)
      exact ((BackedSince.refl h).mapPages virt 0 hnothing id).1.backed
    · exact absurd (pagesRefused_of_first rfl n hpos) hroom
  · rw [ha] at hroom ⊢
    have hstart := (BackedSince.refl h).allocate hmax fun b hb ↦ by rw [hq, hb, Bool.or_true]
    exact (hstart.mapPages virt n (supplies_rangeFrame h hs hq) hroom).1.backed

/-- The loop keeps the directory well formed, whether it gets its frames or not. -/
theorem WF.mapPages_freshFrame (h : m.WF) (virt : ℕ) :
    ∀ n : ℕ, (m.mapPages freshFrame virt n).WF
  | 0 => h
  | n + 1 => by
    have hwf := h.mapPages_freshFrame virt n
    have hmax := hwf.maxBlocks_le
    obtain ⟨s, hs, hle⟩ := (m.mapPages freshFrame virt n).pmm.allocateBlocks_fst 1
    have hafter : (m.mapPages freshFrame virt n).afterFrame.WF :=
      hwf.allocate (Pmm.allocateBlocks_maxBlocks _ 1) fun b hb ↦ Pmm.isSet_allocateBlocks hb 1
    refine (hafter.mapAddress_step _ _ userFlags (allocateBlocks_aligned _ 1) ?_
      (Nat.mod_lt _ (by decide)) (by decide) (by decide)).1.wf
    show ((m.mapPages freshFrame virt n).pmm.allocateBlocks 1).1 < 2 ^ 32
    rw [hs, blockSize]
    omega

end Vmm

end AbOS
