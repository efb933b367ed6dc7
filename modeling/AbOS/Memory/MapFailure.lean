import AbOS.Memory.MapPage
import AbOS.Memory.Translation

/-!
# When `map_address` fails

`map_address` fails when no frame is left for the page table of the region it is asked about.
`create_page_table` calls it for the new table and does not look at what it returns, so the
failure of a nested call is not reported: the table stays entered in the directory, and the frame
in the bitmap, without being mapped.

`mapAddressRuns` is `map_address` with what a statement about failure needs: whether an allocation
failed on any level, and the page tables that were installed.  It ends for every directory
(`exists_mapAddressRuns`), and `nestsCleanly_iff` says which calls fail as they should.
-/

set_option autoImplicit false

namespace AbOS

namespace Vmm

/-- `map_address`, cut off after `fuel` nested calls.  It returns what the code does, whether
`allocate_blocks` returned a null pointer on some level, the directory entries and the frames of
the page tables that were installed, and the new state. -/
def mapAddressRuns : ℕ → Vmm → ℕ → ℕ → ℕ → Option (Bool × Bool × List (ℕ × ℕ) × Vmm)
  | 0, _, _, _, _ => none
  | fuel + 1, m, phys, virt, flags =>
    if m.entry (pdIndex virt) = 0 then
      let (block, pmm) := m.pmm.allocateBlocks 1
      if block = 0 then some (false, true, [], { m with pmm })
      else
        let m := installTable { m with pmm } (pdIndex virt) block flags
        -- what the nested call returns is not looked at
        (mapAddressRuns fuel m block block flags).map fun (_, refused, ts, m) ↦
          (true, refused, (pdIndex virt, block / blockSize) :: ts, m.putPte virt (phys ||| flags))
    else some (true, false, [], m.putPte virt (phys ||| flags))

/-- **Failure and nesting**: `map_address` ends, and returns false exactly when it was refused a
frame, on whatever level.  Then nothing has changed.  When it returns true, every page table it
installed is mapped at its physical address. -/
def NestsCleanly (m : Vmm) (phys virt flags : ℕ) : Prop :=
  ∃ (fuel : ℕ) (ok refused : Bool) (ts : List (ℕ × ℕ)) (m' : Vmm),
    mapAddressRuns fuel m phys virt flags = some (ok, refused, ts, m') ∧
    (ok = false ↔ refused = true) ∧
    (ok = false → m' = m) ∧
    (ok = true → ∀ t ∈ ts, ∃ flags',
      m'.walk (t.2 * blockSize) = some (t.2 * blockSize, flags'))

/-- The frame at address 0 is not the one that is found.  If a page table is taken, then the region
of the last one has a table, which may be new.  A frame that is taken and whose address is in the
page asked for is to be mapped there. -/
def NestingFits (m : Vmm) (phys virt : ℕ) : Prop :=
  let ts := m.tablesTaken virt
  let region := pdIndex (lastPage virt ts)
  (m.entry (pdIndex virt) = 0 → m.pmm.findFreeBlocks 1 ≠ some 0) ∧
    (ts = [] ∨ m.entry region ≠ 0 ∨ region ∈ ts.map Prod.fst) ∧
    ∀ t ∈ ts, t.2 = virt / 4096 → phys = t.2 * blockSize

variable {m m' : Vmm} {phys virt flags fuel : ℕ} {ok refused : Bool} {ts : List (ℕ × ℕ)}

/-! ## The levels of a call -/

theorem mapAddressRuns_present (fuel : ℕ) (hne : m.entry (pdIndex virt) ≠ 0) :
    mapAddressRuns (fuel + 1) m phys virt flags =
      some (true, false, [], m.putPte virt (phys ||| flags)) := by
  rw [mapAddressRuns, if_neg hne]

theorem mapAddressRuns_refused (fuel : ℕ) (h0 : m.entry (pdIndex virt) = 0)
    (hblock : (m.pmm.allocateBlocks 1).1 = 0) :
    mapAddressRuns (fuel + 1) m phys virt flags =
      some (false, true, [], { m with pmm := (m.pmm.allocateBlocks 1).2 }) := by
  rw [mapAddressRuns, if_pos h0]
  dsimp only
  rw [if_pos hblock]

theorem mapAddressRuns_take (fuel : ℕ) (h0 : m.entry (pdIndex virt) = 0) {b : ℕ}
    (hfind : m.pmm.findFreeBlocks 1 = some b) (hb : b ≠ 0) :
    mapAddressRuns (fuel + 1) m phys virt flags =
      (mapAddressRuns fuel
        (installTable { m with pmm := (m.pmm.allocateBlocks 1).2 } (pdIndex virt) (b * blockSize)
          flags) (b * blockSize) (b * blockSize) flags).map fun r ↦
        (true, r.2.1, (pdIndex virt, b) :: r.2.2.1, r.2.2.2.putPte virt (phys ||| flags)) := by
  have hblock := (Pmm.allocateBlocks_one hfind).1
  rw [mapAddressRuns, if_pos h0]
  dsimp only
  rw [hblock, if_neg (by rw [blockSize]; omega), Nat.mul_div_cancel _ (by decide)]

/-- A frame is refused when none is free or frame 0 is found. -/
theorem allocateBlocks_refused_or (p : Pmm) :
    (p.findFreeBlocks 1 = none ∨ p.findFreeBlocks 1 = some 0) ∧ (p.allocateBlocks 1).1 = 0 ∨
      ∃ b, p.findFreeBlocks 1 = some b ∧ b ≠ 0 := by
  cases hfind : p.findFreeBlocks 1 with
  | none => exact Or.inl ⟨Or.inl rfl, by rw [Pmm.allocateBlocks, hfind]⟩
  | some b =>
    by_cases hb : b = 0
    · subst hb
      exact Or.inl ⟨Or.inr rfl, by rw [(Pmm.allocateBlocks_one hfind).1, Nat.zero_mul]⟩
    · exact Or.inr ⟨b, rfl, hb⟩

/-- **The recursion ends**, for every directory: each level takes a frame above those of the levels
before. -/
theorem exists_mapAddressRuns : ∀ (fuel : ℕ) {m : Vmm} {c : ℕ} (phys virt flags : ℕ),
    c ≤ m.pmm.maxBlocks → (∀ b, b < c → m.pmm.isSet b = true) → m.pmm.maxBlocks < c + fuel →
    ∃ r, mapAddressRuns fuel m phys virt flags = some r
  | 0, _, _, _, _, _, hc, _, hfuel => absurd hfuel (by omega)
  | fuel + 1, m, c, phys, virt, flags, hc, hset, hfuel => by
    by_cases h0 : m.entry (pdIndex virt) = 0
    · rcases allocateBlocks_refused_or m.pmm with ⟨-, hblock⟩ | ⟨b, hfind, hb0⟩
      · exact ⟨_, mapAddressRuns_refused fuel h0 hblock⟩
      · obtain ⟨hle, htaken, hlast⟩ :=
          installTable_taken hfind hset hfuel (pdIndex virt) (b * blockSize) flags
        rw [mapAddressRuns_take fuel h0 hfind hb0]
        obtain ⟨r, hr⟩ :=
          exists_mapAddressRuns fuel (b * blockSize) (b * blockSize) flags hle htaken hlast
        exact ⟨_, by rw [hr, Option.map_some]⟩
    · exact ⟨_, mapAddressRuns_present _ h0⟩

theorem exists_mapAddressRuns_maxBlocks (m : Vmm) (phys virt flags : ℕ) :
    ∃ r, mapAddressRuns (m.pmm.maxBlocks + 1) m phys virt flags = some r :=
  exists_mapAddressRuns _ (c := 0) phys virt flags (Nat.zero_le _)
    (fun _ hb ↦ absurd hb (Nat.not_lt_zero _)) (by omega)

/-- More fuel changes nothing. -/
theorem mapAddressRuns_mono : ∀ (fuel : ℕ) {m : Vmm} {phys virt : ℕ}
    {r : Bool × Bool × List (ℕ × ℕ) × Vmm}, mapAddressRuns fuel m phys virt flags = some r →
      mapAddressRuns (fuel + 1) m phys virt flags = some r
  | 0, _, _, _, _, h => by cases h
  | fuel + 1, m, phys, virt, r, h => by
    by_cases h0 : m.entry (pdIndex virt) = 0
    · rcases allocateBlocks_refused_or m.pmm with ⟨-, hblock⟩ | ⟨b, hfind, hb0⟩
      · rw [mapAddressRuns_refused _ h0 hblock] at h ⊢
        exact h
      · rw [mapAddressRuns_take _ h0 hfind hb0] at h ⊢
        obtain ⟨r₁, hcall, hr⟩ := Option.map_eq_some_iff.mp h
        rw [mapAddressRuns_mono fuel hcall]
        exact congrArg some hr
    · rw [mapAddressRuns_present _ h0] at h ⊢
      exact h

theorem mapAddressRuns_unique {fuel fuel' : ℕ} {r r' : Bool × Bool × List (ℕ × ℕ) × Vmm}
    (h : mapAddressRuns fuel m phys virt flags = some r)
    (h' : mapAddressRuns fuel' m phys virt flags = some r') : r = r' :=
  Run.fuel_unique (f := fun n ↦ mapAddressRuns n m phys virt flags)
    (fun n _ ↦ mapAddressRuns_mono n) h h'

/-- The call with its history is the call. -/
theorem mapAddressFuel_of_runs : ∀ (fuel : ℕ) {m m' : Vmm} {phys virt : ℕ} {ok refused : Bool}
    {ts : List (ℕ × ℕ)}, mapAddressRuns fuel m phys virt flags = some (ok, refused, ts, m') →
      mapAddressFuel fuel m phys virt flags = (ok, m')
  | 0, _, _, _, _, _, _, _, h => by cases h
  | fuel + 1, m, m', phys, virt, ok, refused, ts, h => by
    by_cases h0 : m.entry (pdIndex virt) = 0
    · rcases allocateBlocks_refused_or m.pmm with ⟨-, hblock⟩ | ⟨b, hfind, hb0⟩
      · rw [mapAddressRuns_refused fuel h0 hblock] at h
        cases h
        simp only [mapAddressFuel, createPageTable, if_pos h0, if_pos hblock, Bool.false_eq_true,
          if_false]
      · rw [mapAddressRuns_take fuel h0 hfind hb0] at h
        obtain ⟨⟨ok₁, refused₁, ts₁, m₁⟩, hcall, hr⟩ := Option.map_eq_some_iff.mp h
        cases hr
        rw [mapAddressFuel_take fuel phys flags h0 hfind (Nat.pos_of_ne_zero hb0),
          mapAddressFuel_of_runs fuel hcall]
    · rw [mapAddressRuns_present fuel h0] at h
      cases h
      rw [mapAddressFuel, if_neg h0]

/-! ## The tables of a call -/

theorem follows_tablesTakenFuel : ∀ (fuel : ℕ) {p : ℕ → Bool} {pmm : Pmm} {virt : ℕ},
    (∀ i, p i = false → m.entry i % 2 ≠ 1) →
    Follows m virt (tablesTakenFuel fuel p pmm (pdIndex virt))
  | 0, _, _, _, _ => trivial
  | fuel + 1, p, pmm, virt, hp => by
    rw [tablesTakenFuel]
    split
    · trivial
    · rename_i hpresent
      split
      · trivial
      · refine ⟨rfl, hp _ (by simpa using hpresent),
          follows_tablesTakenFuel fuel fun i hi ↦ hp i ?_⟩
        rw [Function.update_apply] at hi
        split at hi
        · cases hi
        · exact hi

/-- The tables that a call installs are those that can be read off, and it is refused a frame when
the region of the last page has none of them and no table of its own. -/
theorem mapAddressRuns_spec (hf : flags < 4096) (hodd : flags % 2 = 1) :
    ∀ (fuel : ℕ) {m m' : Vmm} {phys virt : ℕ} {ok refused : Bool} {ts : List (ℕ × ℕ)},
      m.WF → virt < 2 ^ 32 →
      mapAddressRuns fuel m phys virt flags = some (ok, refused, ts, m') →
      ts = tablesTakenFuel fuel (fun i ↦ m.entry i ≠ 0) m.pmm (pdIndex virt) ∧
        lastPage virt ts < 2 ^ 32 ∧
        (refused = true ↔ m.entry (pdIndex (lastPage virt ts)) = 0 ∧
          pdIndex (lastPage virt ts) ∉ ts.map Prod.fst)
  | 0, _, _, _, _, _, _, _, _, _, h => by cases h
  | fuel + 1, m, m', phys, virt, ok, refused, ts, hm, hv, h => by
    by_cases h0 : m.entry (pdIndex virt) = 0
    · rcases allocateBlocks_refused_or m.pmm with ⟨hfind, hblock⟩ | ⟨b, hfind, hb0⟩
      · rw [mapAddressRuns_refused fuel h0 hblock] at h
        cases h
        have hnone : m.pmm.findFreeBlocks 1 = none := hfind.resolve_right fun hzero ↦ by
          have hclear := (Pmm.findFreeBlocks_one_lt hzero).2.1
          rw [hm.zero_set] at hclear
          cases hclear
        refine ⟨?_, hv, fun _ ↦ ⟨h0, List.not_mem_nil⟩, fun _ ↦ rfl⟩
        rw [tablesTakenFuel, if_neg (by simpa using h0), hnone]
      · rw [mapAddressRuns_take fuel h0 hfind hb0] at h
        obtain ⟨⟨ok₁, refused₁, ts₁, m₁⟩, hcall, hr⟩ := Option.map_eq_some_iff.mp h
        cases hr
        have hstep := hm.installTable_step (pdIndex_lt hv) h0 hf hodd hfind
        have hmax := hm.maxBlocks_le
        have hblt := (Pmm.findFreeBlocks_one_lt hfind).1
        have hqmax := (Pmm.allocateBlocks_one hfind).2.1
        have hpage : b * blockSize < 2 ^ 32 := by rw [blockSize]; omega
        obtain ⟨hts, hlast, hrefused⟩ :=
          mapAddressRuns_spec hf hodd fuel hstep.wf hpage hcall
        have htables := tablesTakenFuel_take fuel (p := fun i ↦ m.entry i ≠ 0) (i := pdIndex virt)
          (by simpa using h0) hfind
        generalize (m.pmm.allocateBlocks 1).2 = q at hstep hts hrefused htables hqmax
        have hpmm := installTable_pmm { m with pmm := q } (pdIndex virt) (b * blockSize) flags
        generalize installTable { m with pmm := q } (pdIndex virt) (b * blockSize) flags = m₂
          at hstep hts hrefused hpmm
        have hentry : ∀ i, i < 1024 → (m₂.entry i = 0 ↔ m.entry i = 0 ∧ i ≠ pdIndex virt) := by
          intro i hi
          by_cases heq : i = pdIndex virt
          · rw [heq, hstep.entry_new _ _ (List.mem_singleton_self _)]
            exact ⟨fun hzero ↦ absurd hzero (by omega), fun hcon ↦ absurd rfl hcon.2⟩
          · rw [hstep.entry_old i hi (by simpa using heq)]
            exact ⟨fun hzero ↦ ⟨hzero, heq⟩, And.left⟩
        refine ⟨?_, hlast, ?_⟩
        · rw [htables, hts, hpmm]
          refine congrArg _ (tablesTakenFuel_congr fuel (fun j hj ↦ ?_) (hqmax ▸ hmax)
            (pdIndex_block_lt (by omega)))
          rw [Function.update_apply]
          split
          · rename_i heq
            exact decide_eq_true fun hzero ↦ ((hentry j hj).mp hzero).2 heq
          · rename_i hne
            exact decide_eq_decide.mpr (not_congr ((hentry j hj).trans (and_iff_left hne)))
        · rw [hrefused, hentry _ (pdIndex_lt hlast), lastPage, List.map_cons, List.mem_cons, not_or,
            and_assoc]
    · rw [mapAddressRuns_present fuel h0] at h
      cases h
      refine ⟨?_, hv, fun hcon ↦ (by cases hcon), fun hcon ↦ absurd hcon.1 h0⟩
      rw [tablesTakenFuel, if_pos (by simpa using h0)]

/-! ## Which calls fail as they should -/

theorem nestsCleanly_iff_of_runs
    (h : mapAddressRuns fuel m phys virt flags = some (ok, refused, ts, m')) :
    m.NestsCleanly phys virt flags ↔ (ok = false ↔ refused = true) ∧ (ok = false → m' = m) ∧
      (ok = true → ∀ t ∈ ts, ∃ flags',
        m'.walk (t.2 * blockSize) = some (t.2 * blockSize, flags')) := by
  constructor
  · rintro ⟨fuel', ok', refused', ts', m'', h', hfails⟩
    cases mapAddressRuns_unique h h'
    exact hfails
  · exact fun hfails ↦ ⟨fuel, ok, refused, ts, m', h, hfails⟩

/-- A call for a region with a page table stores the entry and takes nothing. -/
theorem nestsCleanly_of_present (phys flags : ℕ) (hne : m.entry (pdIndex virt) ≠ 0) :
    m.NestsCleanly phys virt flags ∧ m.NestingFits phys virt := by
  refine ⟨(nestsCleanly_iff_of_runs (mapAddressRuns_present 0 hne)).mpr
    ⟨iff_of_false (by decide) (by decide), fun hcon ↦ (by cases hcon), fun _ t ht ↦
      absurd ht List.not_mem_nil⟩, ?_⟩
  rw [NestingFits, tablesTaken_of_ne hne]
  exact ⟨fun h0 ↦ absurd h0 hne, Or.inl rfl, fun t ht ↦ absurd ht List.not_mem_nil⟩

/-- A call that is refused its own page table changes nothing, unless it was given frame 0. -/
theorem nestsCleanly_of_refused (h0 : m.entry (pdIndex virt) = 0)
    (hfind : m.pmm.findFreeBlocks 1 = none ∨ m.pmm.findFreeBlocks 1 = some 0)
    (hblock : (m.pmm.allocateBlocks 1).1 = 0) :
    m.NestsCleanly phys virt flags ↔ m.NestingFits phys virt := by
  rw [nestsCleanly_iff_of_runs (mapAddressRuns_refused 0 h0 hblock)]
  rcases hfind with hnone | hzero
  · have hq : (m.pmm.allocateBlocks 1).2 = m.pmm := by rw [Pmm.allocateBlocks, hnone]
    have hts : m.tablesTaken virt = [] := by
      rw [tablesTaken, tablesTakenFuel, if_neg (by simpa using h0), hnone]
    refine iff_of_true ⟨iff_of_true rfl rfl, fun _ ↦ by rw [hq], fun hcon ↦ (by cases hcon)⟩ ?_
    rw [NestingFits, hts, hnone]
    exact ⟨fun _ hzero ↦ (by cases hzero), Or.inl rfl, fun t ht ↦ absurd ht List.not_mem_nil⟩
  · refine iff_of_false (fun hfails ↦ ?_) fun hfits ↦ hfits.1 h0 hzero
    -- frame 0 is marked as used although the call returns false
    have hset := (Pmm.allocateBlocks_one hzero).2.2 0
    have hpmm : (m.pmm.allocateBlocks 1).2 = m.pmm := congrArg Vmm.pmm (hfails.2.1 rfl)
    rw [hpmm, (Pmm.findFreeBlocks_one_lt hzero).2.1] at hset
    cases hset

/-- The page of a frame that became a page table, when its region has one. -/
theorem MapStep.walk_frame
    (hstep : MapStep m flags ts ((virt / 4096, phys + flags) :: identityStores ts flags) m')
    (hm : m.WF) (hp : phys % 4096 = 0) (hf : flags < 4096) (hodd : flags % 2 = 1) {t : ℕ × ℕ}
    (ht : t ∈ ts) (hne : m'.entry (pdIndex (t.2 * blockSize)) ≠ 0) :
    m'.walk (t.2 * blockSize) =
      some (if t.2 = virt / 4096 then phys else t.2 * blockSize, flags) := by
  have hmax := hm.maxBlocks_le
  have hlt := (hstep.fresh t.1 t.2 ht).2.2.2.1
  split
  · -- it is the page asked for
    rename_i heq
    have hpage : virt / 4096 = t.2 * blockSize / 4096 :=
      heq.symm.trans (Nat.mul_div_cancel _ (by decide)).symm
    rw [hpage] at hstep
    exact hstep.walk_virt (by rw [blockSize]; omega) hp hf hodd hne
  · rename_i hother
    exact hstep.walk_identity hmax hf hodd (List.mem_map_of_mem ht) hother hne

section Taken

variable {b : ℕ} (h : m.WF) (hp : phys % 4096 = 0) (hplt : phys < 2 ^ 32) (hv : virt < 2 ^ 32)
  (hf : flags < 4096) (hodd : flags % 2 = 1)
include h hp hplt hv hf hodd

/-- A call that is given its own page table. -/
theorem WF.nestsCleanly_of_taken (h0 : m.entry (pdIndex virt) = 0)
    (hfind : m.pmm.findFreeBlocks 1 = some b) (hb0 : b ≠ 0) :
    m.NestsCleanly phys virt flags ↔ m.NestingFits phys virt := by
  obtain ⟨⟨ok, refused, ts, m'⟩, hcall⟩ := exists_mapAddressRuns_maxBlocks m phys virt flags
  obtain ⟨hstep, -⟩ := h.mapAddress_step phys virt flags hp hplt hv hf hodd
  obtain ⟨hts, hlast, hrefused⟩ := mapAddressRuns_spec hf hodd _ h hv hcall
  have hfollows : Follows m virt (m.tablesTaken virt) :=
    follows_tablesTakenFuel _ fun i hi ↦ by rw [of_not_not (of_decide_eq_false hi)]; decide
  have hnonempty : m.tablesTaken virt ≠ [] := by
    rw [tablesTaken, tablesTakenFuel_take _ (by simpa using h0) hfind]
    exact List.cons_ne_nil _ _
  rw [mapAddress, mapAddressFuel_of_runs _ hcall] at hstep
  have hok : ok = true := by
    rw [mapAddressRuns_take _ h0 hfind hb0] at hcall
    obtain ⟨_, -, hr⟩ := Option.map_eq_some_iff.mp hcall
    exact (Prod.ext_iff.mp hr).1.symm
  rw [nestsCleanly_iff_of_runs hcall, NestingFits]
  rw [← tablesTaken] at hts
  subst hts hok
  generalize m.tablesTaken virt = ts at hstep hlast hrefused hfollows hnonempty
  constructor
  · rintro ⟨hreported, -, htables⟩
    refine ⟨fun _ hzero ↦ hb0 (Option.some.inj (hfind.symm.trans hzero)), Or.inr ?_,
      fun t ht heq ↦ ?_⟩
    · -- otherwise the nested call was refused a frame, and the outer one returned true
      by_contra hregion
      rw [not_or, not_not] at hregion
      cases hreported.mpr (hrefused.mpr hregion)
    · obtain ⟨flags', hself⟩ := htables rfl t ht
      have hne : m'.entry (pdIndex (t.2 * blockSize)) ≠ 0 := fun hzero ↦ by
        rw [walk_of_entry_zero hzero] at hself
        cases hself
      rw [hstep.walk_frame h hp hf hodd ht hne, if_pos heq] at hself
      exact (Prod.ext_iff.mp (Option.some.inj hself)).1
  · rintro ⟨-, hregion, hphys⟩
    replace hregion := hregion.resolve_left hnonempty
    refine ⟨iff_of_false (by decide) fun hcon ↦ ?_, fun hcon ↦ (by cases hcon), fun _ t ht ↦ ?_⟩
    · obtain ⟨hzero, hmem⟩ := hrefused.mp hcon
      exact hregion.elim (fun hne ↦ hne hzero) hmem
    · have hnew : ∀ i, i ∈ ts.map Prod.fst → m'.entry i ≠ 0 := fun i hi ↦ by
        obtain ⟨u, hu, rfl⟩ := List.mem_map.mp hi
        rw [hstep.entry_new u.1 u.2 hu]
        omega
      have hne : m'.entry (pdIndex (t.2 * blockSize)) ≠ 0 := by
        by_cases htlast : t.2 * blockSize = lastPage virt ts
        · rw [htlast]
          exact hregion.elim (hstep.entry_ne (pdIndex_lt hlast)) (hnew _)
        · obtain ⟨u, hu, heq⟩ := List.mem_map.mp (hfollows.region_mem ht htlast)
          exact hnew _ (List.mem_map.mpr ⟨u, List.mem_of_mem_tail hu, heq⟩)
      refine ⟨flags, ?_⟩
      rw [hstep.walk_frame h hp hf hodd ht hne]
      split
      · rename_i heq
        rw [hphys t ht heq]
      · rfl

end Taken

/-- **`map_address` fails cleanly** exactly when the region of the last page table it takes has a
table, frame 0 is not taken, and no frame it takes is given away as the page asked for. -/
theorem nestsCleanly_iff (m : Vmm) (phys virt flags : ℕ) :
    (∃ fuel r, mapAddressRuns fuel m phys virt flags = some r) ∧
      ((m.pmm.isSet 0 = true → m.WF) → phys % 4096 = 0 → phys < 2 ^ 32 → virt < 2 ^ 32 →
        flags < 4096 → flags % 2 = 1 →
        (m.NestsCleanly phys virt flags ↔ m.NestingFits phys virt)) := by
  refine ⟨⟨m.pmm.maxBlocks + 1, exists_mapAddressRuns_maxBlocks m phys virt flags⟩,
    fun h hp hplt hv hf hodd ↦ ?_⟩
  by_cases h0 : m.entry (pdIndex virt) = 0
  · rcases allocateBlocks_refused_or m.pmm with ⟨hfind, hblock⟩ | ⟨b, hfind, hb0⟩
    · exact nestsCleanly_of_refused h0 hfind hblock
    · have hzero := (Pmm.findFreeBlocks_one_lt hfind).2.2 0 (Nat.pos_of_ne_zero hb0)
      exact (h hzero).nestsCleanly_of_taken hp hplt hv hf hodd h0 hfind hb0
  · obtain ⟨hfails, hfits⟩ := nestsCleanly_of_present phys flags h0
    exact iff_of_true hfails hfits

/-- Frame 4 becomes the table of the second region.  It lies in the first region, for which frame 5
is left. -/
theorem nestsCleanly_fewVmm : (fewVmm fun _ ↦ 0).tablesTaken 0x400000 = [(1, 4), (0, 5)] ∧
    (fewVmm fun _ ↦ 0).NestsCleanly 0x7000 0x400000 userFlags := by
  have hts : (fewVmm fun _ ↦ 0).tablesTaken 0x400000 = [(1, 4), (0, 5)] := by decide +kernel
  refine ⟨hts, ((nestsCleanly_iff _ _ _ _).2 (fun _ ↦ fewVmm_wf (fun _ _ _ ↦ rfl) (Or.inl rfl))
    (by decide) (by decide) (by decide) (by decide) (by decide)).mpr ?_⟩
  rw [NestingFits, hts]
  decide +kernel

/-- An empty directory in frame 3, with frame 5 free and no other. -/
def lastFrameVmm : Vmm := ⟨fun _ ↦ 0, ⟨fun i ↦ if i = 0 then 0x1F else 0, 6, 5⟩, 0x3000⟩

theorem lastFrameVmm_wf : lastFrameVmm.WF :=
  ⟨by decide, by decide, by decide, by decide, by decide, fun _ _ hne ↦ absurd rfl hne,
    fun _ _ hne ↦ absurd rfl hne, fun _ _ hne ↦ absurd rfl hne, fun _ _ _ _ hne ↦ absurd rfl hne⟩

/-- Mapping a page of the second region takes frame 5 for its table.  That frame lies in the first
region, which has no table, and no frame is left for one: the call returns true with a page table
that is not mapped. -/
theorem not_nestsCleanly_lastFrame : lastFrameVmm.WF ∧
    (lastFrameVmm.mapAddress 0x7000 0x400000 userFlags).1 = true ∧
    (lastFrameVmm.mapAddress 0x7000 0x400000 userFlags).2.entry 1 = 0x5007 ∧
    (lastFrameVmm.mapAddress 0x7000 0x400000 userFlags).2.walk 0x5000 = none ∧
    ¬ lastFrameVmm.NestsCleanly 0x7000 0x400000 userFlags := by
  refine ⟨lastFrameVmm_wf, by decide +kernel, by decide +kernel, by decide +kernel, fun hfails ↦ ?_⟩
  have hfits := (lastFrameVmm_wf.nestsCleanly_of_taken (b := 5) (by decide) (by decide) (by decide)
    (by decide) (by decide) rfl (by decide) (by decide)).mp hfails
  have hts : lastFrameVmm.tablesTaken 0x400000 = [(1, 5)] := by decide +kernel
  rw [NestingFits, hts] at hfits
  exact absurd hfits.2.1 (by decide +kernel)

end Vmm

end AbOS
