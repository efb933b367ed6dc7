import AbOS.Memory.MapAddress

/-!
# Which translations `map_address` changes

`map_address` is meant to change one translation, the one asked for, and to add the identity page
of each page table it takes (`MapsExactlyOne`).  It does so exactly when the clearing of the new
tables is harmless (`ClearingHarmless`): what the clearing misses in a new table holds no present
entry, and what it reaches in the frame behind it holds neither a present entry nor other data.
-/

set_option autoImplicit false

namespace AbOS

namespace Vmm

variable {m m' : Vmm} {flags : ℕ} {ts E : List (ℕ × ℕ)}

/-- The frame `b` was free in `m` and is in use in `m'`. -/
def Taken (m m' : Vmm) (b : ℕ) : Prop := m.pmm.isSet b = false ∧ m'.pmm.isSet b = true

/-- What `map_address` is meant to do: when it returns true, `virt` leads to `phys` with the flags
asked for and every other page to what it led to before, except the identity pages of the page
tables it took.  It writes nothing outside the directory, the page tables of these pages and the
frames it took. -/
structure MapsExactlyOne (m : Vmm) (phys virt flags : ℕ) : Prop where
  walk_virt : (m.mapAddress phys virt flags).1 = true →
    (m.mapAddress phys virt flags).2.walk virt = some (phys, flags)
  walk_other : (m.mapAddress phys virt flags).1 = true → ∀ v, v < 2 ^ 32 →
    v / 4096 ≠ virt / 4096 → ¬ m.Taken (m.mapAddress phys virt flags).2 (v / 4096) →
    (m.mapAddress phys virt flags).2.walk v = m.walk v
  ram : ∀ x, x / 4096 * 4096 ≠ m.directory →
    ¬ m.Taken (m.mapAddress phys virt flags).2 (x / 4096) →
    (∀ v, v < 2 ^ 32 →
      v / 4096 = virt / 4096 ∨ m.Taken (m.mapAddress phys virt flags).2 (v / 4096) →
      (m.mapAddress phys virt flags).2.entry (pdIndex v) ≠ 0 →
      (m.mapAddress phys virt flags).2.table (pdIndex v) ≠ x / 4096 * 4096) →
    (m.mapAddress phys virt flags).2.ram x = m.ram x

/-- The page number `p` is neither `virt`'s nor that of a frame taken for a page table. -/
def Other (ts : List (ℕ × ℕ)) (virt p : ℕ) : Prop := p ≠ virt / 4096 ∧ p ∉ ts.map Prod.snd

/-- What has to hold before the call for the clearing of the page tables `ts` to go unnoticed. -/
structure ClearingHarmless (m : Vmm) (ts : List (ℕ × ℕ)) (virt flags : ℕ) : Prop where
  /-- A clearing reaches no present entry of a page table behind the new one. -/
  lost : ∀ v, v < 2 ^ 32 → Other ts virt (v / 4096) → m.entry (pdIndex v) ≠ 0 →
    Cleared ts flags (m.getPage v) → m.pte v % 2 = 0
  /-- The bytes of a new page table that no clearing reaches hold no present entry. -/
  stale : ∀ v b, v < 2 ^ 32 → Other ts virt (v / 4096) → (pdIndex v, b) ∈ ts →
    ¬ Cleared ts flags (b * 4096 + 4 * ptIndex v) →
    (m.ram (b * 4096 + 4 * ptIndex v)).toNat % 2 = 0
  /-- A clearing reaches no other data. -/
  spill : ∀ x, Cleared ts flags x → x / 4096 ∉ ts.map Prod.snd →
    (∀ v, v < 2 ^ 32 → ¬ Other ts virt (v / 4096) → m.entry (pdIndex v) ≠ 0 →
      m.table (pdIndex v) ≠ x / 4096 * 4096) →
    m.ram x = 0

/-! ## What a step does to a walk -/

theorem MapStep.walk_stored (h : MapStep m flags ts E m') {v e : ℕ} (hv : v < 2 ^ 32)
    (he : E.lookup (v / 4096) = some e) (hne : m'.entry (pdIndex v) ≠ 0) (hodd : e % 2 = 1) :
    m'.walk v = some (e / 4096 * 4096, e % 4096) := by
  have hpte := h.pte_stored v e hv he hne
  rw [walk_eq, hpte, if_pos ⟨h.wf.present _ (pdIndex_lt hv) hne, hodd⟩]

/-- The low byte of an entry decides whether it is present. -/
theorem pte_mod (m : Vmm) (v : ℕ) : m.pte v % 2 = (m.ram (m.getPage v)).toNat % 2 := by
  rw [pte, ByteStore.readWord_eq]
  omega

/-- The frames taken are not those of the tables that were there. -/
theorem MapStep.table_ne (h : MapStep m flags ts E m') (hm : m.WF) {i b : ℕ} (hi : i < 1024)
    (hne : m.entry i ≠ 0) (hb : b ∈ ts.map Prod.snd) : m.table i ≠ b * 4096 := by
  obtain ⟨⟨j, b'⟩, ht, rfl⟩ := List.mem_map.mp hb
  intro heq
  have hset := hm.table_set i hi hne
  rw [heq, Nat.mul_div_cancel _ (by omega), (h.fresh _ _ ht).2.2.2.2] at hset
  exact absurd hset (by simp)

/-- A page outside `E` whose entry is cleared is absent afterwards. -/
theorem MapStep.walk_cleared (h : MapStep m flags ts E m') {v : ℕ} (hv : v < 2 ^ 32)
    (hE : E.lookup (v / 4096) = none) (hne : m.entry (pdIndex v) ≠ 0)
    (hc : Cleared ts flags (m.getPage v)) : m'.walk v = none := by
  have hgp := h.getPage_of_ne hv hne
  have hbyte := h.pte_byte (k := 0) hv (h.entry_ne (pdIndex_lt hv) hne) hE (by omega)
  rw [hgp, Nat.add_zero, if_pos hc] at hbyte
  have hzero : m'.pte v % 2 = 0 := by rw [pte_mod, hgp, hbyte]; rfl
  rw [walk_eq, if_neg (by omega)]

/-- A page outside `E` with a page table keeps its translation, unless its entry was present and
cleared. -/
theorem MapStep.walk_old_iff (h : MapStep m flags ts E m') (hm : m.WF) (hf : flags < 4096) {v : ℕ}
    (hv : v < 2 ^ 32) (hE : E.lookup (v / 4096) = none) (hne : m.entry (pdIndex v) ≠ 0) :
    m'.walk v = m.walk v ↔ (Cleared ts flags (m.getPage v) → m.pte v % 2 = 0) := by
  have hent := h.entry_of_ne (pdIndex_lt hv) hne
  have hne' := h.entry_ne (pdIndex_lt hv) hne
  have hgp := h.getPage_of_ne hv hne
  have hodd := hm.present _ (pdIndex_lt hv) hne
  have hbyte := fun k hk ↦ h.pte_byte (k := k) hv hne' hE hk
  rw [hgp] at hbyte
  by_cases hc : Cleared ts flags (m.getPage v)
  · simp only [hc, true_imp_iff]
    rw [h.walk_cleared hv hE hne hc, walk_eq]
    split
    · rename_i hp; simp [hp.2]
    · rename_i hp; simp only [true_iff]; omega
  · simp only [hc, false_imp_iff, iff_true]
    refine walk_congr hent ?_
    rw [pte, pte, hgp]
    refine ByteStore.readWord_congr fun k hk ↦ ?_
    rw [hbyte k hk, if_neg]
    -- a clearing that reaches the later bytes of the entry starts in front of it
    rintro ⟨t, ht, h1, h2⟩
    have hdiv := m.getPage_div v hk
    have hdiv0 := m.getPage_div v (k := 0) (by omega)
    have hmod := m.table_mod (pdIndex v)
    have hfar := h.table_ne hm (pdIndex_lt hv) hne (List.mem_map_of_mem (f := Prod.snd) ht)
    exact hc ⟨t, ht, by omega, by omega⟩

/-- A page outside `E` that got a page table stays absent, unless the frame held a present entry
at its place and no clearing reached it. -/
theorem MapStep.walk_new_iff (h : MapStep m flags ts E m') (hf : flags < 4096)
    (hodd : flags % 2 = 1) {v b : ℕ} (hv : v < 2 ^ 32) (hE : E.lookup (v / 4096) = none)
    (hb : (pdIndex v, b) ∈ ts) :
    m'.walk v = m.walk v ↔ (¬ Cleared ts flags (b * 4096 + 4 * ptIndex v) →
      (m.ram (b * 4096 + 4 * ptIndex v)).toNat % 2 = 0) := by
  have h0 := (h.fresh _ _ hb).2.1
  have hent := h.entry_new _ _ hb
  have hne' : m'.entry (pdIndex v) ≠ 0 := by rw [hent]; omega
  have hgp : m'.getPage v = b * 4096 + 4 * ptIndex v := by
    rw [getPage, table_eq, hent]; omega
  have hbyte := h.pte_byte (k := 0) hv hne' hE (by omega)
  rw [Nat.add_zero, hgp] at hbyte
  rw [walk_of_entry_zero h0, walk_eq, pte_mod, hgp, hbyte, hent]
  by_cases hc : Cleared ts flags (b * 4096 + 4 * ptIndex v)
  · simp [hc]
  · rw [if_neg hc]
    simp only [hc, not_false_eq_true, true_imp_iff]
    split
    · rename_i hp; simp [hp.2]
    · rename_i hp; simp only [true_iff]; omega

/-- A page without a page table before and after is absent. -/
theorem MapStep.walk_none (h : MapStep m flags ts E m') {v : ℕ} (hv : v < 2 ^ 32)
    (h0 : m.entry (pdIndex v) = 0) (hb : pdIndex v ∉ ts.map Prod.fst) :
    m'.walk v = m.walk v := by
  rw [walk_of_entry_zero h0, walk_of_entry_zero ((h.entry_old _ (pdIndex_lt hv) hb).trans h0)]

theorem MapStep.taken_iff (h : MapStep m flags ts E m') (b : ℕ) :
    m.Taken m' b ↔ b ∈ ts.map Prod.snd := by
  rw [Taken, h.isSet]
  constructor
  · rintro ⟨h1, h2⟩
    simpa [h1] using h2
  · intro hb
    obtain ⟨⟨i, b'⟩, ht, rfl⟩ := List.mem_map.mp hb
    exact ⟨(h.fresh _ _ ht).2.2.2.2, by simp [hb]⟩

/-! ## The pages of a call -/

/-- The pages whose entries a call stores are the page asked for and the identity pages of the
new tables. -/
theorem lookup_eq_none_iff {virt e p : ℕ} :
    ((virt / 4096, e) :: identityStores ts flags).lookup p = none ↔ Other ts virt p := by
  rw [List.lookup_eq_none_iff]
  simp only [identityStores, List.mem_cons, List.mem_map, Other]
  constructor
  · intro h
    refine ⟨by simpa using h _ (Or.inl rfl), ?_⟩
    rintro ⟨t, ht, rfl⟩
    simpa using h _ (Or.inr ⟨t, ht, rfl⟩)
  · rintro ⟨h1, h2⟩ q (rfl | ⟨t, ht, rfl⟩)
    · simpa using h1
    · have : p ≠ t.2 := fun heq ↦ h2 ⟨t, ht, heq.symm⟩
      simpa using this

/-- The identity page of a new table is stored with its frame. -/
theorem lookup_identityStores {b : ℕ} (hb : b ∈ ts.map Prod.snd) :
    (identityStores ts flags).lookup b = some (b * 4096 + flags) := by
  induction ts with
  | nil => simp at hb
  | cons t ts ih =>
    rw [identityStores, List.map_cons, List.lookup_cons]
    by_cases hbt : b = t.2
    · simp [hbt]
    · rw [beq_false_of_ne hbt]
      exact ih (by simpa [hbt] using hb)

/-- The page asked for is present afterwards if it has a page table. -/
theorem MapStep.walk_virt {virt phys : ℕ} (h : MapStep m flags ts
    ((virt / 4096, phys + flags) :: identityStores ts flags) m') (hv : virt < 2 ^ 32)
    (hp : phys % 4096 = 0) (hf : flags < 4096) (hodd : flags % 2 = 1)
    (hne : m'.entry (pdIndex virt) ≠ 0) : m'.walk virt = some (phys, flags) := by
  rw [h.walk_stored hv (List.lookup_cons_self ..) hne (by omega),
    show (phys + flags) / 4096 * 4096 = phys by omega, show (phys + flags) % 4096 = flags by omega]

/-- So is the identity page of a new table. -/
theorem MapStep.walk_identity {virt phys b : ℕ} (h : MapStep m flags ts
    ((virt / 4096, phys + flags) :: identityStores ts flags) m') (hmax : m.pmm.maxBlocks ≤ 0xFFFFF)
    (hf : flags < 4096) (hodd : flags % 2 = 1) (hb : b ∈ ts.map Prod.snd) (hbv : b ≠ virt / 4096)
    (hne : m'.entry (pdIndex (b * 4096)) ≠ 0) : m'.walk (b * 4096) = some (b * 4096, flags) := by
  obtain ⟨⟨i, b'⟩, ht, hbb⟩ := List.mem_map.mp hb
  obtain rfl : b' = b := hbb
  have hlt := (h.fresh _ _ ht).2.2.2.1
  have hlook : ((virt / 4096, phys + flags) :: identityStores ts flags).lookup (b' * 4096 / 4096) =
      some (b' * 4096 + flags) := by
    rw [Nat.mul_div_cancel _ (by omega), List.lookup_cons, beq_false_of_ne hbv]
    exact lookup_identityStores hb
  rw [h.walk_stored (by omega) hlook hne (by omega),
    show (b' * 4096 + flags) / 4096 * 4096 = b' * 4096 by omega,
    show (b' * 4096 + flags) % 4096 = flags by omega]

/-- A page with a page table needs no other. -/
theorem tablesTaken_of_ne {virt : ℕ} (hne : m.entry (pdIndex virt) ≠ 0) :
    m.tablesTaken virt = [] := by
  rw [tablesTaken, tablesTakenFuel, if_pos (by simpa using hne)]

theorem not_other_iff {virt p : ℕ} :
    ¬ Other ts virt p ↔ p = virt / 4096 ∨ p ∈ ts.map Prod.snd := by
  rw [Other, not_and_or, not_not, not_not]

/-- A call that takes any frame takes one for the table it was asked for. -/
theorem mem_tablesTakenFuel : ∀ (fuel : ℕ) {p : ℕ → Bool} {pmm : Pmm} {i : ℕ},
    tablesTakenFuel fuel p pmm i ≠ [] → i ∈ (tablesTakenFuel fuel p pmm i).map Prod.fst
  | 0, _, _, _, hne => absurd rfl hne
  | fuel + 1, p, pmm, i, hne => by
    rw [tablesTakenFuel] at hne ⊢
    split at hne
    · exact absurd rfl hne
    · rename_i hp
      rw [if_neg hp]
      split at hne
      · exact absurd rfl hne
      · simp

/-- A stored byte lies in the table of one of the pages stored. -/
theorem Stored.table {x : ℕ} (h : m.Stored E x) : ∃ v, v < 2 ^ 32 ∧
    E.lookup (v / 4096) ≠ none ∧ m.entry (pdIndex v) ≠ 0 ∧ m.table (pdIndex v) = x / 4096 * 4096 := by
  obtain ⟨v, hv, hl, hne, h1, h2⟩ := h
  refine ⟨v, hv, hl, hne, ?_⟩
  rw [← m.getPage_div v (k := x - m.getPage v) (by omega)]
  congr 2
  omega

/-- No clearing reaches the directory. -/
theorem MapStep.cleared_ne_dir (h : MapStep m flags ts E m') (hm : m.WF) (hf : flags < 4096)
    {x : ℕ} (hc : Cleared ts flags x) : x / 4096 * 4096 ≠ m.directory := by
  obtain ⟨⟨i, b⟩, ht, h1, h2⟩ := hc
  obtain ⟨-, -, hpos, -, hclear⟩ := h.fresh i b ht
  have hdir := hm.dir_set
  have hbefore := hm.before_dir
  simp only at h1 h2
  intro heq
  rcases (show x / 4096 = b ∨ x / 4096 = b + 1 by omega) with hx | hx
  · rw [← heq, Nat.mul_div_cancel _ (by omega), hx, hclear] at hdir
    exact absurd hdir (by simp)
  · rw [← heq, Nat.mul_div_cancel _ (by omega), hx, Nat.add_sub_cancel, hclear] at hbefore
    exact absurd hbefore (by simp)

/-- The page tables of `m'` are those of `m` and the frames taken. -/
theorem MapStep.table_cases (h : MapStep m flags ts E m') (hf : flags < 4096) {i : ℕ}
    (hi : i < 1024) (hne : m'.entry i ≠ 0) :
    (m.entry i ≠ 0 ∧ m'.table i = m.table i) ∨
      ∃ b, (i, b) ∈ ts ∧ m'.table i = b * 4096 := by
  by_cases hmem : i ∈ ts.map Prod.fst
  · obtain ⟨⟨j, b⟩, ht, rfl⟩ := List.mem_map.mp hmem
    exact Or.inr ⟨b, ht, by rw [table_eq, h.entry_new _ _ ht]; omega⟩
  · have := h.entry_old i hi hmem
    exact Or.inl ⟨by rwa [this] at hne, by rw [table, table, this]⟩

/-- **`map_address` changes exactly one translation when the clearing is harmless, and only
then.** -/
theorem mapsExactlyOne_iff (h : m.WF) {phys virt : ℕ} (hp : phys % 4096 = 0)
    (hplt : phys < 2 ^ 32) (hv : virt < 2 ^ 32) (hf : flags < 4096) (hodd : flags % 2 = 1) :
    m.MapsExactlyOne phys virt flags ↔ m.ClearingHarmless (m.tablesTaken virt) virt flags := by
  obtain ⟨hstep, hok⟩ := h.mapAddress_step phys virt flags hp hplt hv hf hodd
  have htaken := hstep.taken_iff
  have hother : ∀ p, ((virt / 4096, phys + flags) ::
      identityStores (m.tablesTaken virt) flags).lookup p = none ↔
      Other (m.tablesTaken virt) virt p := fun p ↦ lookup_eq_none_iff
  constructor
  · intro hone
    have hwalk : ∀ v, v < 2 ^ 32 → Other (m.tablesTaken virt) virt (v / 4096) →
        m.tablesTaken virt ≠ [] → (m.mapAddress phys virt flags).2.walk v = m.walk v := by
      intro v hvlt ho hts
      obtain ⟨⟨i, b⟩, ht, rfl⟩ := List.mem_map.mp (mem_tablesTakenFuel _ hts)
      refine hone.walk_other (hok.mpr ?_) v hvlt ho.1 fun ht ↦ ho.2 ((htaken _).mp ht)
      rw [hstep.entry_new _ _ ht]; omega
    refine ⟨fun v hvlt ho hne hc ↦ ?_, fun v b hvlt ho hb ↦ ?_, fun x hc hx hinv ↦ ?_⟩
    · have hts : m.tablesTaken virt ≠ [] := by rintro hnil; rw [hnil] at hc; simp at hc
      exact (hstep.walk_old_iff h hf hvlt ((hother _).mpr ho) hne).mp (hwalk v hvlt ho hts) hc
    · exact (hstep.walk_new_iff hf hodd hvlt ((hother _).mpr ho) hb).mp
        (hwalk v hvlt ho (List.ne_nil_of_mem hb))
    · have hdir := hstep.cleared_ne_dir h hf hc
      have htab : ∀ v, v < 2 ^ 32 → ¬ Other (m.tablesTaken virt) virt (v / 4096) →
          (m.mapAddress phys virt flags).2.entry (pdIndex v) ≠ 0 →
          (m.mapAddress phys virt flags).2.table (pdIndex v) ≠ x / 4096 * 4096 := by
        intro v hvlt hno hne
        rcases hstep.table_cases hf (pdIndex_lt hvlt) hne with ⟨hne₀, heq⟩ | ⟨b, hb, heq⟩
        · rw [heq]; exact hinv v hvlt hno hne₀
        · rw [heq]
          intro hbx
          exact hx (List.mem_map.mpr ⟨_, hb, show b = _ by omega⟩)
      have hsame := hone.ram x hdir (fun ht ↦ hx ((htaken _).mp ht)) fun v hvlt hor hne ↦ by
        refine htab v hvlt (not_other_iff.mpr ?_) hne
        rwa [htaken] at hor
      rw [← hsame, hstep.ram x hdir, if_pos hc]
      intro hst
      obtain ⟨v, hvlt, hl, hne, heq⟩ := hst.table
      exact htab v hvlt (fun ho ↦ hl ((hother _).mpr ho)) hne heq
  · intro hharm
    refine ⟨fun hret ↦ ?_, fun hret v hvlt hpage hnt ↦ ?_, fun x hdir hnt htab ↦ ?_⟩
    · rw [hstep.walk_stored hv (List.lookup_cons_self ..) (hok.mp hret) (by omega),
        show (phys + flags) / 4096 * 4096 = phys by omega,
        show (phys + flags) % 4096 = flags by omega]
    · have ho : Other (m.tablesTaken virt) virt (v / 4096) :=
        ⟨hpage, fun hb ↦ hnt ((htaken _).mpr hb)⟩
      by_cases hne : m.entry (pdIndex v) = 0
      · by_cases hmem : pdIndex v ∈ (m.tablesTaken virt).map Prod.fst
        · obtain ⟨⟨i, b⟩, ht, hi⟩ := List.mem_map.mp hmem
          obtain rfl : i = pdIndex v := hi
          exact (hstep.walk_new_iff hf hodd hvlt ((hother _).mpr ho) ht).mpr
            (hharm.stale v b hvlt ho ht)
        · exact hstep.walk_none hvlt hne hmem
      · exact (hstep.walk_old_iff h hf hvlt ((hother _).mpr ho) hne).mpr
          (hharm.lost v hvlt ho hne)
    · rw [hstep.ram x hdir]
      · split
        · rename_i hc
          refine (hharm.spill x hc (fun hb ↦ hnt ((htaken _).mpr hb)) fun v hvlt hno hne ↦ ?_).symm
          have hent := hstep.entry_of_ne (pdIndex_lt hvlt) hne
          have := htab v hvlt (by rw [htaken]; exact not_other_iff.mp hno) (by rwa [hent])
          rwa [table, hent] at this
        · rfl
      · intro hst
        obtain ⟨v, hvlt, hl, hne, heq⟩ := hst.table
        refine htab v hvlt ?_ hne heq
        rw [htaken]
        exact not_other_iff.mp fun ho ↦ hl ((hother _).mpr ho)

/-- The frames 0 to 3 are in use. -/
def barePmm : Pmm := ⟨fun i ↦ if i = 0 then 0xF else 0, 0xFFFFF, 4⟩

theorem barePmm_isSet : ∀ b, b < 8 → barePmm.isSet b = decide (b < 4) := by decide

/-- An empty directory in frame 3. -/
def bareVmm (ram : ByteStore) : Vmm := ⟨ram, barePmm, 0x3000⟩

section Bare

variable {ram : ByteStore}

variable (hram : ∀ x, 0x3000 ≤ x → x < 0x4000 → ram x = 0)
include hram

theorem bareVmm_entry {i : ℕ} (hi : i < 1024) : (bareVmm ram).entry i = 0 :=
  (ByteStore.readWord_of_zero fun _ _ ↦ hram _ (by omega) (by omega) :
    ram.readWord (0x3000 + 4 * i) = 0)

theorem bareVmm_wf : (bareVmm ram).WF := by
  have hent := fun i hi ↦ bareVmm_entry hram (i := i) hi
  exact ⟨Nat.le_refl _, barePmm_isSet 0 (by omega), (by decide : 0x3000 % 4096 = 0),
    (by decide : barePmm.isSet (0x3000 / 4096) = true),
    (by decide : barePmm.isSet (0x3000 / 4096 - 1) = true), fun i hi hne ↦ absurd (hent i hi) hne,
    fun i hi hne ↦ absurd (hent i hi) hne, fun i hi hne ↦ absurd (hent i hi) hne,
    fun i _ hi _ hne _ _ ↦ absurd (hent i hi) hne⟩

theorem bareVmm_tablesTaken (virt : ℕ) (hv : virt < 0x400000) :
    (bareVmm ram).tablesTaken virt = [(0, 4)] := by
  have hpd : pdIndex virt = 0 := by rw [pdIndex_eq]; omega
  have hfind : (bareVmm ram).pmm.findFreeBlocks 1 = some 4 :=
    Pmm.findFreeBlocks_one_eq (by decide : 4 < 0xFFFFF) (barePmm_isSet 4 (by omega)) fun c hc ↦
      (barePmm_isSet c (by omega)).trans (by simpa using hc)
  rw [tablesTaken, hpd, tablesTakenFuel_take _ (by simp [bareVmm_entry hram]) hfind,
    show (bareVmm ram).pmm.maxBlocks = 1048574 + 1 from rfl, tablesTakenFuel,
    show pdIndex (4 * blockSize) = 0 by decide, if_pos (Function.update_self ..)]

end Bare

/-- With all memory zero the clearing is harmless. -/
theorem mapsExactlyOne_bare : (bareVmm fun _ ↦ 0).MapsExactlyOne 0x7000 0x2000 userFlags :=
  (mapsExactlyOne_iff (bareVmm_wf fun _ _ _ ↦ rfl) (by decide) (by decide) (by decide) (by decide)
    (by decide)).mpr ⟨fun _ _ _ hne _ ↦ absurd (bareVmm_entry (fun _ _ _ ↦ rfl) (pdIndex_lt ‹_›)) hne,
      fun _ _ _ _ _ _ ↦ rfl, fun _ _ _ _ ↦ rfl⟩

/-- Mapping the page at `0x2000` with a fresh page table in frame 4 erases the first byte of the
frame behind it. -/
theorem not_mapsExactlyOne_bare :
    ((bareVmm fun x ↦ if x = 0x5000 then 1 else 0).mapAddress 0x7000 0x2000 userFlags).1 = true ∧
      ((bareVmm fun x ↦ if x = 0x5000 then 1 else 0).mapAddress 0x7000 0x2000 userFlags).2.ram
        0x5000 = 0 ∧
      ¬ (bareVmm fun x ↦ if x = 0x5000 then 1 else 0).MapsExactlyOne 0x7000 0x2000 userFlags := by
  have hram : ∀ x, 0x3000 ≤ x → x < 0x4000 → (if x = 0x5000 then (1 : UInt8) else 0) = 0 :=
    fun x _ _ ↦ if_neg (by omega)
  have hts := bareVmm_tablesTaken hram 0x2000 (by omega)
  obtain ⟨hstep, hok⟩ := (bareVmm_wf hram).mapAddress_step 0x7000 0x2000 userFlags (by decide)
    (by decide) (by decide) (by decide) (by decide)
  have htaken := hstep.taken_iff
  rw [hts] at hstep htaken
  have htab : ∀ v, v < 2 ^ 32 →
      ((bareVmm fun x ↦ if x = 0x5000 then 1 else 0).mapAddress 0x7000 0x2000 userFlags).2.entry
        (pdIndex v) ≠ 0 →
      ((bareVmm fun x ↦ if x = 0x5000 then 1 else 0).mapAddress 0x7000 0x2000 userFlags).2.table
        (pdIndex v) ≠ 0x5000 := by
    intro v hv hne
    rcases hstep.table_cases (by decide) (pdIndex_lt hv) hne with ⟨hne₀, -⟩ | ⟨b, hb, heq⟩
    · exact absurd (bareVmm_entry hram (pdIndex_lt hv)) hne₀
    · obtain ⟨-, rfl⟩ := Prod.mk.inj (List.mem_singleton.mp hb)
      rw [heq]; decide
  have hzero := hstep.ram 0x5000 (by decide : 0x5000 / 4096 * 4096 ≠ 0x3000) fun hst ↦ by
    obtain ⟨v, hv, -, hne, heq⟩ := hst.table
    exact htab v hv hne heq
  rw [if_pos (by decide)] at hzero
  refine ⟨hok.mpr ?_, hzero, fun hone ↦ ?_⟩
  · rw [show pdIndex 0x2000 = 0 by decide, hstep.entry_new 0 4 (List.mem_singleton_self _)]
    decide
  · have hkept := hone.ram 0x5000 (by decide : 0x5000 / 4096 * 4096 ≠ 0x3000)
      (by rw [htaken]; decide) fun v hv _ hne ↦ htab v hv hne
    rw [hzero] at hkept
    exact absurd hkept (by decide)

end Vmm

end AbOS
