import Mathlib.Data.List.Nodup
import Mathlib.Data.List.Perm.Subperm
import AbOS.Lib.Run
import AbOS.Memory.PageFault
import AbOS.Memory.PageFrames

/-!
# What `map_page` does

`map_page` is the older sibling of `map_address`.  For an absent region it takes a frame for a page
table, calls itself to map that frame, and only then clears the table and enters it in the
directory.  So the nested calls see the directory as it was: a region that is absent stays absent
on the way down, and its table is taken again for every frame that lies in it.

The frames that a call takes are read off the directory and the bitmap (`mapPageTables`): the free
frames in order, up to the first one whose region is present.  Where the regions are different a
call does what it should, except for the last store (`mapPageStep_of_nodup`).  `mapsPage_iff` puts
this together.
-/

set_option autoImplicit false

namespace AbOS

/-- `map_page` on an entry that holds `e`: three flags are set, then the frame. -/
def mapEntry (e frame : ℕ) : ℕ := setFrame (((e ||| 0x01) ||| 0x02) ||| 0x04) frame

namespace Vmm

/-- The part of `map_page` after the nested call: the table is cleared and entered. -/
def enterTable (m : Vmm) (i table : ℕ) : Vmm :=
  let ram := m.ram.fill table 0 pageSize
  { m with
    ram := ram.writeWord (m.directory + 4 * i)
      (mapEntry (ram.readWord (m.directory + 4 * i)) table) }

/-- `map_page`, cut off after `fuel` nested calls.  The list is for the proofs: the directory
entries and the frames of the page tables that the call installed. -/
def mapPageFuel : ℕ → Vmm → ℕ → ℕ → Option (Bool × List (ℕ × ℕ) × Vmm)
  | 0, _, _, _ => none
  | fuel + 1, m, phys, virt =>
    if m.entry (pdIndex virt) % 2 = 1 then
      some (true, [], m.putPte virt (mapEntry (m.pte virt) phys))
    else
      let (table, pmm) := m.pmm.allocateBlocks 1
      if table = 0 then some (false, [], { m with pmm })
      else
        -- what the nested call returns is not looked at
        (mapPageFuel fuel { m with pmm } table table).map fun (_, ts, m) ↦
          let m := m.enterTable (pdIndex virt) table
          (true, (pdIndex virt, table / blockSize) :: ts,
            m.putPte virt (mapEntry (m.pte virt) phys))

/-- The page tables that a call takes, as pairs of a directory entry and a frame: the first free
frame for entry `i`, unless `i` is `present`, and then what mapping that frame takes. -/
def mapPageTablesFuel : ℕ → (ℕ → Bool) → Pmm → ℕ → List (ℕ × ℕ)
  | 0, _, _, _ => []
  | fuel + 1, present, pmm, i =>
    if present i then []
    else
      match pmm.findFreeBlocks 1 with
      | none => []
      | some b =>
        (i, b) :: mapPageTablesFuel fuel present (pmm.allocateBlocks 1).2 (pdIndex (b * blockSize))

/-- The page tables that mapping `virt` takes, read off the directory and the bitmap. -/
def mapPageTables (m : Vmm) (virt : ℕ) : List (ℕ × ℕ) :=
  mapPageTablesFuel (m.pmm.maxBlocks + 1) (fun i ↦ m.entry i % 2 = 1) m.pmm (pdIndex virt)

/-- **Only what is needed**: `map_page` ends and takes no more frames than there are absent regions.
If it returns true, `virt` leads to `phys`, writable and open to the user on both levels, and each
page table it installed is still in the directory and mapped to itself. -/
def MapsPage (m : Vmm) (phys virt : ℕ) : Prop :=
  ∃ (fuel : ℕ) (ok : Bool) (ts : List (ℕ × ℕ)) (m' : Vmm),
    mapPageFuel fuel m phys virt = some (ok, ts, m') ∧
    (∀ b, m'.pmm.isSet b = (decide (b ∈ ts.map Prod.snd) || m.pmm.isSet b)) ∧
    ts.length ≤ ((List.range 1024).filter fun i ↦ m.entry i % 2 ≠ 1).length ∧
    (ok = true → m'.entry (pdIndex virt) % 8 = 7 ∧
      (∃ flags, m'.walk virt = some (frameOf phys, flags) ∧ flags % 8 = 7) ∧
      ∀ t ∈ ts, m'.table t.1 = t.2 * blockSize ∧
        ∃ flags, m'.walk (t.2 * blockSize) = some (t.2 * blockSize, flags))

/-- The page that the innermost call maps. -/
def lastPage : ℕ → List (ℕ × ℕ) → ℕ
  | page, [] => page
  | _, t :: ts => lastPage (t.2 * blockSize) ts

/-- The regions of the frames that are taken are different, and different from that of `virt`.  If
the last region is present, the entry of the last page has bit 31 clear, unless the frame has it
too, and a region that was present is writable and open to the user.  If it is absent, because
there is no frame left, then no frame was taken, or the last one is `phys` and `virt` its page. -/
def TablesFit (m : Vmm) (phys virt : ℕ) : Prop :=
  let ts := m.mapPageTables virt
  let page := lastPage virt ts
  let frame := lastPage phys ts
  (ts.map Prod.fst).Nodup ∧
  if m.entry (pdIndex page) % 2 = 1 then
    (m.pte page < 2 ^ 31 ∨ 2 ^ 31 ≤ frame) ∧ (ts = [] → m.entry (pdIndex virt) % 8 = 7)
  else ts = [] ∨ page / 4096 = virt / 4096 ∧ frameOf phys = frame

end Vmm

/-! ## The entry that is stored -/

section Entry

variable {e frame : ℕ}

theorem mapEntry_lt (hf : frame < 2 ^ 32) : mapEntry e frame < 2 ^ 32 := setFrame_lt hf

/-- The frame of the new entry. -/
theorem frameOf_mapEntry (he : e < 2 ^ 32) (hf : frame < 2 ^ 32) :
    frameOf (mapEntry e frame) =
      if e < 2 ^ 31 ∨ 2 ^ 31 ≤ frame then frameOf frame else 2 ^ 31 + frameOf frame := by
  have hflags : ((e ||| 0x01) ||| 0x02) ||| 0x04 = e ||| 7 := by
    rw [Nat.or_assoc, Nat.or_assoc]
    rfl
  have hlt : e ||| 7 < 2 ^ 32 := Nat.or_lt_two_pow he (by decide)
  have hdiv := or_flags_div (e := e) (f := 7) (by decide)
  have hhigh : e ||| 7 < 2 ^ 31 ↔ e < 2 ^ 31 := by omega
  rw [frameOf_eq (mapEntry_lt hf), frameOf_eq hf, mapEntry, hflags, setFrame_div hlt hf]
  simp only [hhigh]
  split <;> omega

/-- The flags of the new entry. -/
theorem mapEntry_mod (e frame : ℕ) : mapEntry e frame % 8 = 7 := by
  have hor : ∀ x, x < 8 → 7 ||| x = 7 := by decide
  have hflags : (((e ||| 0x01) ||| 0x02) ||| 0x04) % 2 ^ 3 = 7 := by
    rw [Nat.or_assoc, Nat.or_assoc, Nat.or_mod_two_pow, Nat.or_comm]
    exact hor _ (Nat.mod_lt _ (by decide))
  rw [mapEntry, setFrame, show 8 = 2 ^ 3 by decide, Nat.or_mod_two_pow, Nat.and_mod_two_pow, hflags]
  exact hor _ (Nat.mod_lt _ (by decide))

end Entry

namespace Vmm

/-! ## The recursion ends -/

section Total

variable {m : Vmm}

/-- **The recursion ends** before the fuel does, and installs the tables that can be read off. -/
theorem mapPageFuel_eq : ∀ (fuel : ℕ) {m : Vmm} {c : ℕ} (phys virt : ℕ),
    c ≤ m.pmm.maxBlocks → (∀ b, b < c → m.pmm.isSet b = true) → m.pmm.isSet 0 = true →
    m.pmm.maxBlocks < c + fuel → ∃ ok m',
      mapPageFuel fuel m phys virt = some (ok,
        mapPageTablesFuel fuel (fun i ↦ m.entry i % 2 = 1) m.pmm (pdIndex virt), m') ∧
      (ok = false ↔ m.entry (pdIndex virt) % 2 ≠ 1 ∧
        mapPageTablesFuel fuel (fun i ↦ m.entry i % 2 = 1) m.pmm (pdIndex virt) = [])
  | 0, _, _, _, _, hc, _, _, hfuel => absurd hfuel (by omega)
  | fuel + 1, m, c, phys, virt, hc, hset, hzero, hfuel => by
    rw [mapPageFuel, mapPageTablesFuel]
    by_cases hpresent : m.entry (pdIndex virt) % 2 = 1
    · rw [if_pos hpresent, if_pos (by simpa using hpresent)]
      exact ⟨true, _, rfl, fun hok ↦ (by cases hok), fun hcon ↦ absurd hpresent hcon.1⟩
    rw [if_neg hpresent, if_neg (by simpa using hpresent)]
    cases hfind : m.pmm.findFreeBlocks 1 with
    | none =>
      rw [Pmm.allocateBlocks, hfind]
      exact ⟨false, m, rfl, fun _ ↦ ⟨hpresent, rfl⟩, fun _ ↦ rfl⟩
    | some b =>
      obtain ⟨hb, hclear, -⟩ := Pmm.findFreeBlocks_one_lt hfind
      obtain ⟨hblock, hqmax, hqset⟩ := Pmm.allocateBlocks_one hfind
      have hcb := Pmm.le_of_findFreeBlocks_one hfind hset
      have hb0 : b ≠ 0 := fun h0 ↦ by
        rw [h0, hzero] at hclear
        cases hclear
      -- the nested call, with the frame taken
      obtain ⟨ok, m₁, hcall, -⟩ := mapPageFuel_eq fuel (c := b + 1)
        (m := { m with pmm := (m.pmm.allocateBlocks 1).2 }) (b * blockSize) (b * blockSize)
        (by rw [hqmax]; omega)
        (fun d hd ↦ Pmm.isSet_allocateBlocks_one hfind hd)
        (by rw [hqset, hzero, Bool.or_true]) (by rw [hqmax]; omega)
      dsimp only
      rw [hblock, if_neg (by rw [blockSize]; omega), hcall]
      rw [Option.map_some, Nat.mul_div_cancel _ (by decide)]
      refine ⟨true, _, rfl, fun hok ↦ ?_, fun hcon ↦ ?_⟩
      · cases hok
      · cases hcon.2

/-- More fuel changes nothing. -/
theorem mapPageFuel_mono : ∀ (fuel : ℕ) {m : Vmm} {phys virt : ℕ}
    {r : Bool × List (ℕ × ℕ) × Vmm}, mapPageFuel fuel m phys virt = some r →
      mapPageFuel (fuel + 1) m phys virt = some r
  | 0, _, _, _, _, h => by cases h
  | fuel + 1, m, phys, virt, r, h => by
    rw [mapPageFuel] at h ⊢
    split at h
    · rename_i hpresent
      rw [if_pos hpresent]
      exact h
    · rename_i hpresent
      rw [if_neg hpresent]
      dsimp only at h ⊢
      split at h
      · rename_i htable
        rw [if_pos htable]
        exact h
      · rename_i htable
        rw [if_neg htable]
        obtain ⟨r₁, hcall, hr⟩ := Option.map_eq_some_iff.mp h
        rw [mapPageFuel_mono fuel hcall]
        exact congrArg some hr

theorem mapPageFuel_unique {fuel fuel' phys virt : ℕ} {r r' : Bool × List (ℕ × ℕ) × Vmm}
    (h : mapPageFuel fuel m phys virt = some r) (h' : mapPageFuel fuel' m phys virt = some r') :
    r = r' :=
  Run.fuel_unique (f := fun n ↦ mapPageFuel n m phys virt) (fun n _ ↦ mapPageFuel_mono n) h h'

end Total

/-! ## A call whose regions are different -/

/-- The stores of a call into page tables, the last one first: the pages, and what their entries
then hold. -/
def mapPageStores (m : Vmm) : ℕ → ℕ → List (ℕ × ℕ) → List (ℕ × ℕ)
  | phys, virt, [] =>
    if m.entry (pdIndex virt) % 2 = 1 then [(virt / 4096, mapEntry (m.pte virt) phys)] else []
  | phys, virt, t :: ts =>
    (virt / 4096, mapEntry 0 phys) :: mapPageStores m (t.2 * blockSize) (t.2 * blockSize) ts

/-- From `m` to `m'` the pairs `ts` became directory entries and cleared page tables, and the
entries of the pages `E` were stored. -/
structure MapPageStep (m : Vmm) (ts E : List (ℕ × ℕ)) (m' : Vmm) : Prop where
  directory : m'.directory = m.directory
  isSet : ∀ b, m'.pmm.isSet b = (decide (b ∈ ts.map Prod.snd) || m.pmm.isSet b)
  fresh : ∀ t ∈ ts, t.1 < 1024 ∧ m.entry t.1 = 0 ∧ m.pmm.isSet t.2 = false ∧ t.2 < m.pmm.maxBlocks
  entry_old : ∀ i, i < 1024 → i ∉ ts.map Prod.fst → m'.entry i = m.entry i
  entry_new : ∀ t ∈ ts, m'.entry t.1 = t.2 * 4096 + 7
  stored : ∀ p, E.lookup p ≠ none → p < 2 ^ 20 ∧ m'.entry (p / 1024) ≠ 0
  pte : ∀ v, v < 2 ^ 32 → m'.entry (pdIndex v) ≠ 0 → m'.pte v =
    (E.lookup (v / 4096)).getD (if pdIndex v ∈ ts.map Prod.fst then 0 else m.pte v)

section Step

variable {m m' : Vmm} {ts E : List (ℕ × ℕ)} {i b v : ℕ}

/-- The page of the table that is entered, and the directory, are all that changes. -/
theorem enterTable_ram {x : ℕ} (hi : i < 1024) (hdir : m.directory % 4096 = 0)
    (hx : x / 4096 ≠ b) (hxdir : x / 4096 * 4096 ≠ m.directory) :
    (m.enterTable i (b * blockSize)).ram x = m.ram x := by
  rw [enterTable]
  dsimp only
  rw [ByteStore.writeWord_of_not_mem (by omega),
    ByteStore.fill_of_not_mem (by rw [blockSize, pageSize]; omega)]

/-- The entry of the new table, for an absent region. -/
theorem enterTable_entry (hi : i < 1024) (hdir : m.directory % 4096 = 0)
    (hb : b * 4096 ≠ m.directory) (hlt : b < 2 ^ 20) (h0 : m.entry i = 0) {j : ℕ} (hj : j < 1024) :
    (m.enterTable i (b * blockSize)).entry j = if j = i then b * 4096 + 7 else m.entry j := by
  have hread : ∀ j, j < 1024 → (m.ram.fill (b * blockSize) 0 pageSize).readWord
      (m.directory + 4 * j) = m.entry j := fun j hj ↦
    ByteStore.readWord_fill_of_apart (by rw [blockSize, pageSize]; omega)
  have hentry : mapEntry 0 (b * blockSize) = b * 4096 + 7 := by
    rw [mapEntry, setFrame, show ((0 ||| 0x01 ||| 0x02) ||| 0x04) &&& 0x80000FFF = 7 by decide,
      Nat.or_comm, blockSize, or_flags (Nat.mul_mod_left ..) (by decide)]
  rw [entry, enterTable]
  dsimp only
  rw [hread i hi, h0, hentry]
  split
  · rename_i hji
    rw [hji, ByteStore.readWord_writeWord (by omega)]
  · rw [ByteStore.readWord_writeWord_of_apart (by omega), hread j hj]

/-- A page of another region keeps its entry. -/
theorem enterTable_pte (hi : i < 1024) (hdir : m.directory % 4096 = 0)
    (hb : b * 4096 ≠ m.directory) (hlt : b < 2 ^ 20) (h0 : m.entry i = 0) (hv : v < 2 ^ 32)
    (hvi : pdIndex v ≠ i) (htable : m.table (pdIndex v) ≠ b * 4096)
    (htdir : m.table (pdIndex v) ≠ m.directory) :
    (m.enterTable i (b * blockSize)).getPage v = m.getPage v ∧
      (m.enterTable i (b * blockSize)).pte v = m.pte v := by
  have hgp : (m.enterTable i (b * blockSize)).getPage v = m.getPage v := by
    rw [getPage, getPage, table, table, enterTable_entry hi hdir hb hlt h0 (pdIndex_lt hv),
      if_neg hvi]
  refine ⟨hgp, ?_⟩
  rw [Vmm.pte, Vmm.pte, hgp]
  refine ByteStore.readWord_congr fun k hk ↦ enterTable_ram hi hdir ?_ ?_
  · have := m.getPage_div v hk
    omega
  · rw [m.getPage_div v hk]
    exact htdir

/-- The new table is empty. -/
theorem enterTable_pte_new (hi : pdIndex v < 1024) (hdir : m.directory % 4096 = 0)
    (hb : b * 4096 ≠ m.directory) (hlt : b < 2 ^ 20) (h0 : m.entry (pdIndex v) = 0) :
    (m.enterTable (pdIndex v) (b * blockSize)).getPage v = b * 4096 + 4 * ptIndex v ∧
      (m.enterTable (pdIndex v) (b * blockSize)).pte v = 0 := by
  have hpt := ptIndex_lt v
  have hgp : (m.enterTable (pdIndex v) (b * blockSize)).getPage v = b * 4096 + 4 * ptIndex v := by
    rw [getPage, table, enterTable_entry hi hdir hb hlt h0 hi, if_pos rfl,
      frameOf_add (Nat.mul_mod_left ..) (by decide) (by omega)]
  refine ⟨hgp, ?_⟩
  rw [Vmm.pte, hgp, enterTable]
  dsimp only
  rw [ByteStore.readWord_writeWord_of_apart (by omega)]
  exact ByteStore.readWord_fill_zero (by rw [blockSize, pageSize]; omega)

/-- The page table `b` was entered for the region of `virt`, and `e` stored for its page. -/
structure TableEntered (m : Vmm) (virt b e : ℕ) (m' : Vmm) : Prop where
  directory : m'.directory = m.directory
  pmm : m'.pmm = m.pmm
  entry : ∀ j, j < 1024 → m'.entry j = if j = pdIndex virt then b * 4096 + 7 else m.entry j
  pte_new : ∀ v, pdIndex v = pdIndex virt → m'.pte v = if v / 4096 = virt / 4096 then e else 0
  pte_old : ∀ v, v < 2 ^ 32 → pdIndex v ≠ pdIndex virt → m.entry (pdIndex v) ≠ 0 →
    m'.pte v = m.pte v

theorem tableEntered {virt e : ℕ} (hv : virt < 2 ^ 32) (hdir : m.directory % 4096 = 0)
    (hb : b * 4096 ≠ m.directory) (hlt : b < 2 ^ 20) (h0 : m.entry (pdIndex virt) = 0)
    (hother : ∀ j, j < 1024 → m.entry j ≠ 0 → m.table j ≠ b * 4096 ∧ m.table j ≠ m.directory)
    (he : e < 2 ^ 32) :
    TableEntered m virt b e ((m.enterTable (pdIndex virt) (b * blockSize)).putPte virt e) := by
  have hi := pdIndex_lt hv
  have hpt := ptIndex_lt virt
  have hnew : ∀ v, pdIndex v = pdIndex virt →
      (m.enterTable (pdIndex virt) (b * blockSize)).getPage v = b * 4096 + 4 * ptIndex v ∧
        (m.enterTable (pdIndex virt) (b * blockSize)).pte v = 0 := fun v hvi ↦ by
    rw [← hvi]
    exact enterTable_pte_new (hvi ▸ hi) hdir hb hlt (hvi ▸ h0)
  have hentry := fun j (hj : j < 1024) ↦ enterTable_entry (j := j) hi hdir hb hlt h0 hj
  have hold := fun v (hvlt : v < 2 ^ 32) (hvi : pdIndex v ≠ pdIndex virt)
      (hne : m.entry (pdIndex v) ≠ 0) ↦
    enterTable_pte hi hdir hb hlt h0 hvlt hvi (hother _ (pdIndex_lt hvlt) hne).1
      (hother _ (pdIndex_lt hvlt) hne).2
  have hpmm : (m.enterTable (pdIndex virt) (b * blockSize)).pmm = m.pmm := rfl
  have hdir₂ : (m.enterTable (pdIndex virt) (b * blockSize)).directory = m.directory := rfl
  generalize m.enterTable (pdIndex virt) (b * blockSize) = m₂ at hnew hentry hold hpmm hdir₂
  have hgp := (hnew virt rfl).1
  -- the store reaches the new table only
  have hentry' : ∀ j, j < 1024 → (m₂.putPte virt e).entry j =
      if j = pdIndex virt then b * 4096 + 7 else m.entry j := fun j hj ↦ by
    rw [← hentry j hj, entry, entry, putPte]
    dsimp only
    rw [hgp, ByteStore.readWord_writeWord_of_apart (by omega)]
  refine ⟨hdir₂, hpmm, hentry', fun v hvi ↦ ?_, fun v hvlt hvi hne ↦ ?_⟩
  · obtain ⟨hgpv, hptev⟩ := hnew v hvi
    have hptv := ptIndex_lt v
    have hgp' : (m₂.putPte virt e).getPage v = b * 4096 + 4 * ptIndex v := by
      rw [getPage, hvi, table, hentry' _ hi, if_pos rfl,
        frameOf_add (Nat.mul_mod_left ..) (by decide) (by omega)]
    rw [Vmm.pte, hgpv] at hptev
    rw [Vmm.pte, hgp', putPte, hgp]
    dsimp only
    split
    · rename_i hpage
      rw [((page_eq_iff v virt).mp hpage).2, ByteStore.readWord_writeWord he]
    · rename_i hpage
      have hne : ptIndex v ≠ ptIndex virt := fun heq ↦
        hpage ((page_eq_iff v virt).mpr ⟨hvi, heq⟩)
      rw [ByteStore.readWord_writeWord_of_apart (by omega), hptev]
  · obtain ⟨hgpv, hptev⟩ := hold v hvlt hvi hne
    have hptv := ptIndex_lt v
    have hgp' : (m₂.putPte virt e).getPage v = m₂.getPage v := by
      rw [getPage, getPage, table, table, hentry' _ (pdIndex_lt hvlt), if_neg hvi,
        hentry _ (pdIndex_lt hvlt), if_neg hvi]
    have htab := (hother _ (pdIndex_lt hvlt) hne).1
    have htabmod := m.table_mod (pdIndex v)
    have hgpv' : m₂.getPage v = m.table (pdIndex v) + 4 * ptIndex v := hgpv
    rw [Vmm.pte, hgp', putPte, hgp]
    dsimp only
    rw [ByteStore.readWord_writeWord_of_apart (by omega), ← Vmm.pte, hptev]

theorem mapPageStores_pmm (m : Vmm) (q : Pmm) : ∀ (ts : List (ℕ × ℕ)) (phys virt : ℕ),
    mapPageStores { m with pmm := q } phys virt ts = mapPageStores m phys virt ts
  | [], _, _ => rfl
  | _ :: ts, _, _ => congrArg _ (mapPageStores_pmm m q ts _ _)

theorem MapPageStep.present (h : MapPageStep m ts E m') (hm : m.WF) (hi : i < 1024)
    (hne : m'.entry i ≠ 0) : m'.entry i % 2 = 1 := by
  by_cases hmem : i ∈ ts.map Prod.fst
  · obtain ⟨t, ht, rfl⟩ := List.mem_map.mp hmem
    rw [h.entry_new t ht]
    omega
  · rw [h.entry_old i hi hmem] at hne ⊢
    exact hm.present i hi hne

/-- The tables lie where the old ones were or in the frames that were taken. -/
theorem MapPageStep.table_ne (h : MapPageStep m ts E m') (hm : m.WF) (hi : i < 1024)
    (hne : m'.entry i ≠ 0) (hold : ∀ i, i < 1024 → m.entry i ≠ 0 → m.table i ≠ b * 4096)
    (hb : b ∉ ts.map Prod.snd) : m'.table i ≠ b * 4096 ∧ m'.table i ≠ m'.directory := by
  rw [h.directory]
  by_cases hmem : i ∈ ts.map Prod.fst
  · obtain ⟨t, ht, rfl⟩ := List.mem_map.mp hmem
    obtain ⟨-, -, hfree, hlt⟩ := h.fresh t ht
    have hmax := hm.maxBlocks_le
    have htable : m'.table t.1 = t.2 * 4096 := by
      rw [table, h.entry_new t ht, frameOf_add (Nat.mul_mod_left ..) (by decide) (by omega)]
    rw [htable]
    refine ⟨fun heq ↦ hb ?_, fun heq ↦ ?_⟩
    · exact List.mem_map.mpr ⟨t, ht, by omega⟩
    · have hset := hm.dir_set
      rw [← heq, Nat.mul_div_cancel _ (by decide), hfree] at hset
      cases hset
  · rw [h.entry_old i hi hmem] at hne
    rw [table, h.entry_old i hi hmem]
    exact ⟨hold i hi hne, hm.table_ne_dir i hi hne⟩

/-- Storing the entry of a page with a page table. -/
theorem WF.putPte_mapPageStep (h : m.WF) (hv : v < 2 ^ 32) (hne : m.entry (pdIndex v) ≠ 0) {e : ℕ}
    (he : e < 2 ^ 32) : MapPageStep m [] [(v / 4096, e)] (m.putPte v e) := by
  have hstep := h.putPte_step hv hne 7 he
  have hstored : ∀ p, [(v / 4096, e)].lookup p ≠ none → p = v / 4096 := fun p hp ↦ by
    by_contra hpv
    rw [List.lookup_cons, beq_false_of_ne hpv] at hp
    exact hp rfl
  refine ⟨hstep.directory, hstep.isSet, fun t ht ↦ absurd ht List.not_mem_nil,
    hstep.entry_old, fun t ht ↦ absurd ht List.not_mem_nil, fun p hp ↦ ?_, fun w hw hne' ↦ ?_⟩
  · rw [hstored p hp]
    have hpd := pdIndex_eq v
    refine ⟨by omega, ?_⟩
    rw [show v / 4096 / 1024 = pdIndex v by omega]
    exact hstep.entry_ne (pdIndex_lt hv) hne
  · cases hl : [(v / 4096, e)].lookup (w / 4096) with
    | some e' => exact hstep.pte_stored w e' hw hl hne'
    | none =>
      rw [hstep.entry_old _ (pdIndex_lt hw) List.not_mem_nil] at hne'
      exact hstep.pte_of_nil hw hne' hl

/-- The rest of a call whose nested call is done. -/
theorem MapPageStep.cons {phys virt : ℕ} (h : m.WF) (hv : virt < 2 ^ 32) (hp : phys < 2 ^ 32)
    (h0 : m.entry (pdIndex virt) = 0) (hfind : m.pmm.findFreeBlocks 1 = some b)
    (hstep : MapPageStep { m with pmm := (m.pmm.allocateBlocks 1).2 } ts E m')
    (hnd : pdIndex virt ∉ ts.map Prod.fst) :
    MapPageStep m ((pdIndex virt, b) :: ts) ((virt / 4096, mapEntry 0 phys) :: E)
      ((m'.enterTable (pdIndex virt) (b * blockSize)).putPte virt
        (mapEntry ((m'.enterTable (pdIndex virt) (b * blockSize)).pte virt) phys)) := by
  obtain ⟨hb, hclear, -⟩ := Pmm.findFreeBlocks_one_lt hfind
  obtain ⟨-, hqmax, hqset⟩ := Pmm.allocateBlocks_one hfind
  have hwf : ({ m with pmm := (m.pmm.allocateBlocks 1).2 } : Vmm).WF :=
    h.allocate hqmax fun c hc ↦ Pmm.isSet_allocateBlocks hc 1
  have hmax := h.maxBlocks_le
  have hi := pdIndex_lt hv
  -- the frame is neither the directory nor a page table
  have hdirmod : m'.directory % 4096 = 0 := hstep.directory ▸ h.dir_mod
  have hbdir : b * 4096 ≠ m'.directory := fun heq ↦ by
    have hset := h.dir_set
    rw [← show m'.directory = m.directory from hstep.directory, ← heq,
      Nat.mul_div_cancel _ (by decide), hclear] at hset
    cases hset
  have hbts : b ∉ ts.map Prod.snd := fun hmem ↦ by
    obtain ⟨t, ht, rfl⟩ := List.mem_map.mp hmem
    have hfree := (hstep.fresh t ht).2.2.1
    rw [hqset, decide_eq_true rfl, Bool.true_or] at hfree
    cases hfree
  have hother := fun j (hj : j < 1024) (hne : m'.entry j ≠ 0) ↦
    hstep.table_ne (b := b) hwf hj hne (fun k hk hke heq ↦ by
      have hset := h.table_set k hk hke
      rw [show m.table k = b * 4096 from heq, Nat.mul_div_cancel _ (by decide), hclear] at hset
      cases hset) hbts
  have h0' : m'.entry (pdIndex virt) = 0 := (hstep.entry_old _ hi hnd).trans h0
  have hent := tableEntered hv hdirmod hbdir (by omega) h0' hother (mapEntry_lt (e := 0) hp)
  rw [(enterTable_pte_new hi hdirmod hbdir (by omega) h0').2]
  generalize (m'.enterTable (pdIndex virt) (b * blockSize)).putPte virt (mapEntry 0 phys) = m₃
    at hent
  refine ⟨hent.directory.trans hstep.directory, fun c ↦ ?_, fun t ht ↦ ?_, fun j hj hmem ↦ ?_,
    fun t ht ↦ ?_, fun p hp ↦ ?_, fun v hvlt hne ↦ ?_⟩
  · rw [hent.pmm, hstep.isSet, hqset, ← Bool.or_assoc, ← Bool.decide_or]
    congr 1
    exact decide_eq_decide.mpr (by rw [List.map_cons, List.mem_cons]; exact or_comm)
  · rcases List.mem_cons.mp ht with rfl | ht
    · exact ⟨hi, h0, hclear, hb⟩
    · obtain ⟨htlt, ht0, hfree, htb⟩ := hstep.fresh t ht
      rw [hqset, Bool.or_eq_false_iff] at hfree
      exact ⟨htlt, ht0, hfree.2, hqmax ▸ htb⟩
  · rw [List.map_cons, List.mem_cons, not_or] at hmem
    rw [hent.entry j hj, if_neg hmem.1]
    exact hstep.entry_old j hj hmem.2
  · rcases List.mem_cons.mp ht with rfl | ht
    · rw [hent.entry _ hi, if_pos rfl]
    · have htne : t.1 ≠ pdIndex virt := fun heq ↦ hnd (heq ▸ List.mem_map_of_mem ht)
      rw [hent.entry _ (hstep.fresh t ht).1, if_neg htne]
      exact hstep.entry_new t ht
  · have hpd := pdIndex_eq virt
    rw [List.lookup_cons] at hp
    split at hp
    · rename_i hpv
      obtain rfl : p = virt / 4096 := by simpa using hpv
      rw [show virt / 4096 / 1024 = pdIndex virt by omega, hent.entry _ hi, if_pos rfl]
      omega
    · obtain ⟨hplt, hpe⟩ := hstep.stored p hp
      rw [hent.entry _ (by omega)]
      refine ⟨hplt, ?_⟩
      split
      · exact Nat.succ_ne_zero _
      · exact hpe
  · rw [hent.entry _ (pdIndex_lt hvlt)] at hne
    by_cases hvi : pdIndex v = pdIndex virt
    · -- a page of the new table, in which nothing else is stored
      have hnone : E.lookup (v / 4096) = none := by
        by_contra hl
        have hst := (hstep.stored _ hl).2
        have hpd := pdIndex_eq v
        rw [show v / 4096 / 1024 = pdIndex v by omega, hvi] at hst
        exact hst h0'
      rw [hent.pte_new v hvi, List.lookup_cons, hnone, hvi, List.map_cons, if_pos List.mem_cons_self]
      by_cases hpage : v / 4096 = virt / 4096
      · rw [if_pos hpage, hpage, beq_self_eq_true]
        rfl
      · rw [if_neg hpage, beq_false_of_ne hpage]
        rfl
    · -- a page of another table
      rw [if_neg hvi] at hne
      have hpage : v / 4096 ≠ virt / 4096 := fun heq ↦ hvi ((page_eq_iff v virt).mp heq).1
      rw [hent.pte_old v hvlt hvi hne, hstep.pte v hvlt hne, List.lookup_cons,
        beq_false_of_ne hpage]
      dsimp only
      simp only [List.map_cons, List.mem_cons, hvi, false_or]
      rfl

/-- **A call whose regions are different** takes the tables, clears them, and stores the entries. -/
theorem mapPageStep_of_nodup : ∀ (fuel : ℕ) {m m' : Vmm} {phys virt : ℕ} {ok : Bool}
    {ts : List (ℕ × ℕ)}, m.WF → phys < 2 ^ 32 → virt < 2 ^ 32 →
    mapPageFuel fuel m phys virt = some (ok, ts, m') → (ts.map Prod.fst).Nodup →
    MapPageStep m ts (mapPageStores m phys virt ts) m'
  | 0, _, _, _, _, _, _, _, _, _, hcall, _ => by cases hcall
  | fuel + 1, m, m', phys, virt, ok, ts, h, hp, hv, hcall, hnd => by
    have hi := pdIndex_lt hv
    rw [mapPageFuel] at hcall
    split at hcall
    · rename_i hpresent
      obtain ⟨rfl, rfl, rfl⟩ : true = ok ∧ [] = ts ∧ _ = m' := by simpa using hcall
      rw [mapPageStores, if_pos hpresent]
      exact h.putPte_mapPageStep hv (by omega) (mapEntry_lt hp)
    rename_i hpresent
    have h0 : m.entry (pdIndex virt) = 0 := by
      by_contra hne
      exact hpresent (h.present _ hi hne)
    cases hfind : m.pmm.findFreeBlocks 1 with
    | none =>
      rw [Pmm.allocateBlocks, hfind] at hcall
      obtain ⟨rfl, rfl, rfl⟩ : false = ok ∧ [] = ts ∧ _ = m' := by simpa using hcall
      rw [mapPageStores, if_neg hpresent]
      exact ⟨rfl, fun _ ↦ by simp, fun _ ht ↦ absurd ht List.not_mem_nil, fun _ _ _ ↦ rfl,
        fun _ ht ↦ absurd ht List.not_mem_nil, fun _ hl ↦ absurd rfl hl, fun _ _ _ ↦ rfl⟩
    | some b =>
      obtain ⟨hb, hclear, -⟩ := Pmm.findFreeBlocks_one_lt hfind
      obtain ⟨hblock, hqmax, -⟩ := Pmm.allocateBlocks_one hfind
      have hmax := h.maxBlocks_le
      have hb0 : b ≠ 0 := fun hb0 ↦ by
        rw [hb0, h.zero_set] at hclear
        cases hclear
      dsimp only at hcall
      rw [hblock, if_neg (by rw [blockSize]; omega)] at hcall
      obtain ⟨⟨ok₁, ts₁, m₁⟩, hcall₁, heq⟩ := Option.map_eq_some_iff.mp hcall
      simp only [Prod.mk.injEq] at heq
      obtain ⟨-, rfl, rfl⟩ := heq
      rw [Nat.mul_div_cancel _ (by decide : 0 < blockSize)] at hnd ⊢
      rw [List.map_cons, List.nodup_cons] at hnd
      -- the nested call, with the frame taken
      have hwf : ({ m with pmm := (m.pmm.allocateBlocks 1).2 } : Vmm).WF :=
        h.allocate hqmax fun c hc ↦ Pmm.isSet_allocateBlocks hc 1
      have hstep := mapPageStep_of_nodup fuel hwf (by rw [blockSize]; omega)
        (by rw [blockSize]; omega) hcall₁ hnd.2
      rw [mapPageStores_pmm] at hstep
      exact hstep.cons h hv hp h0 hfind hnd.1

end Step

/-! ## The tables of a call, and its stores -/

/-- Each pair is the absent region of the page before it, and the frame for its table. -/
def Follows (m : Vmm) : ℕ → List (ℕ × ℕ) → Prop
  | _, [] => True
  | virt, t :: ts => t.1 = pdIndex virt ∧ m.entry t.1 % 2 ≠ 1 ∧ Follows m (t.2 * blockSize) ts

section Chain

variable {m : Vmm} {ts : List (ℕ × ℕ)} {t : ℕ × ℕ} {phys virt : ℕ}

theorem mapPageTablesFuel_spec : ∀ (fuel : ℕ) (pmm : Pmm) (virt : ℕ),
    Follows m virt (mapPageTablesFuel fuel (fun i ↦ m.entry i % 2 = 1) pmm (pdIndex virt)) ∧
      ((mapPageTablesFuel fuel (fun i ↦ m.entry i % 2 = 1) pmm (pdIndex virt)).map
        Prod.snd).Nodup ∧
      ∀ t ∈ mapPageTablesFuel fuel (fun i ↦ m.entry i % 2 = 1) pmm (pdIndex virt),
        pmm.isSet t.2 = false ∧ t.2 < pmm.maxBlocks
  | 0, _, _ => ⟨trivial, List.nodup_nil, fun _ ht ↦ absurd ht List.not_mem_nil⟩
  | fuel + 1, pmm, virt => by
    rw [mapPageTablesFuel]
    split
    · exact ⟨trivial, List.nodup_nil, fun _ ht ↦ absurd ht List.not_mem_nil⟩
    rename_i hpresent
    cases hfind : pmm.findFreeBlocks 1 with
    | none => exact ⟨trivial, List.nodup_nil, fun _ ht ↦ absurd ht List.not_mem_nil⟩
    | some b =>
      obtain ⟨hb, hclear, -⟩ := Pmm.findFreeBlocks_one_lt hfind
      obtain ⟨-, hqmax, hqset⟩ := Pmm.allocateBlocks_one hfind
      obtain ⟨hfollows, hnodup, hfresh⟩ :=
        mapPageTablesFuel_spec fuel (pmm.allocateBlocks 1).2 (b * blockSize)
      refine ⟨⟨rfl, by simpa using hpresent, hfollows⟩, ?_, fun t ht ↦ ?_⟩
      · rw [List.map_cons, List.nodup_cons]
        refine ⟨fun hmem ↦ ?_, hnodup⟩
        obtain ⟨t, ht, heq⟩ := List.mem_map.mp hmem
        have hfree := (hfresh t ht).1
        rw [heq, hqset, decide_eq_true rfl, Bool.true_or] at hfree
        cases hfree
      · rcases List.mem_cons.mp ht with rfl | ht
        · exact ⟨hclear, hb⟩
        · obtain ⟨hfree, hlt⟩ := hfresh t ht
          rw [hqset, Bool.or_eq_false_iff] at hfree
          exact ⟨hfree.2, hqmax ▸ hlt⟩

/-- The last page is that of the last table. -/
theorem exists_lastPage : ∀ {ts : List (ℕ × ℕ)} (x : ℕ), ts ≠ [] →
    ∃ t ∈ ts, t.2 * blockSize = lastPage x ts
  | [], _, hne => absurd rfl hne
  | [t], _, _ => ⟨t, List.mem_cons_self, rfl⟩
  | t :: u :: ts, _, _ => by
    obtain ⟨w, hw, heq⟩ := exists_lastPage (t.2 * blockSize) (List.cons_ne_nil u ts)
    refine ⟨w, List.mem_cons_of_mem _ hw, ?_⟩
    rw [lastPage]
    exact heq

/-- The region of a table that is not the last one is that of the next. -/
theorem Follows.region_mem : ∀ {ts : List (ℕ × ℕ)} {virt : ℕ}, Follows m virt ts → t ∈ ts →
    t.2 * blockSize ≠ lastPage virt ts → pdIndex (t.2 * blockSize) ∈ ts.tail.map Prod.fst
  | [], _, _, ht, _ => absurd ht List.not_mem_nil
  | u :: ts, virt, h, ht, hlast => by
    rw [List.tail_cons]
    rcases List.mem_cons.mp ht with heq | ht
    · subst heq
      cases ts with
      | nil => exact absurd rfl hlast
      | cons w ts =>
        rw [← h.2.2.1]
        exact List.mem_cons_self
    · obtain ⟨w, hw, heq⟩ := List.mem_map.mp (h.2.2.region_mem ht hlast)
      exact List.mem_map.mpr ⟨w, List.mem_of_mem_tail hw, heq⟩

/-- The page of a table that is not the last one is mapped to itself. -/
theorem lookup_of_ne_last : ∀ {ts : List (ℕ × ℕ)} (phys : ℕ) {virt : ℕ}, Follows m virt ts →
    (ts.map Prod.fst).Nodup → t ∈ ts → t.2 * blockSize ≠ lastPage virt ts →
    (mapPageStores m phys virt ts).lookup t.2 = some (mapEntry 0 (t.2 * blockSize))
  | [], _, _, _, _, ht, _ => absurd ht List.not_mem_nil
  | u :: ts, phys, virt, h, hnd, ht, hlast => by
    have hmem := h.region_mem ht hlast
    rw [List.map_cons, List.nodup_cons] at hnd
    have hne : t.2 ≠ virt / 4096 := fun heq ↦ by
      have hpd : pdIndex (t.2 * blockSize) = pdIndex virt := by
        rw [pdIndex_eq, pdIndex_eq, heq, blockSize]
        omega
      rw [hpd, ← h.1] at hmem
      exact hnd.1 hmem
    rw [mapPageStores, List.lookup_cons, beq_false_of_ne hne]
    rcases List.mem_cons.mp ht with rfl | ht
    · cases ts with
      | nil => exact absurd rfl hlast
      | cons w ts =>
        dsimp only
        rw [mapPageStores, List.lookup_cons, blockSize, Nat.mul_div_cancel _ (by decide),
          beq_self_eq_true]
    · exact lookup_of_ne_last _ h.2.2 hnd.2 ht hlast

/-- The last page is mapped when its region is present. -/
theorem lookup_last : ∀ {ts : List (ℕ × ℕ)} (phys : ℕ) {virt : ℕ}, Follows m virt ts →
    m.entry (pdIndex (lastPage virt ts)) % 2 = 1 →
    (mapPageStores m phys virt ts).lookup (lastPage virt ts / 4096) =
      some (mapEntry (m.pte (lastPage virt ts)) (lastPage phys ts))
  | [], phys, virt, _, hpresent => by
    rw [lastPage] at hpresent
    rw [mapPageStores, if_pos hpresent, lastPage, lastPage, List.lookup_cons_self]
  | t :: ts, phys, virt, h, hpresent => by
    rw [lastPage] at hpresent
    have hne : lastPage (t.2 * blockSize) ts / 4096 ≠ virt / 4096 := fun heq ↦ by
      rw [((page_eq_iff _ _).mp heq).1, ← h.1] at hpresent
      exact h.2.1 hpresent
    rw [mapPageStores, lastPage, lastPage, List.lookup_cons, beq_false_of_ne hne]
    exact lookup_last _ h.2.2 hpresent

/-- It is not when its region is absent, unless it is the page of `virt`. -/
theorem lookup_last_absent : ∀ {ts : List (ℕ × ℕ)} {phys virt : ℕ}, (ts.map Prod.snd).Nodup →
    m.entry (pdIndex (lastPage virt ts)) % 2 ≠ 1 →
    (∀ t ∈ ts, t.2 ≠ virt / 4096) →
    (mapPageStores m phys virt ts).lookup (lastPage virt ts / 4096) = none
  | [], phys, virt, _, habsent, _ => by
    rw [lastPage] at habsent
    rw [mapPageStores, if_neg habsent]
    rfl
  | t :: ts, phys, virt, hnd, habsent, hvirt => by
    rw [lastPage] at habsent
    obtain ⟨u, hu, hlast⟩ := exists_lastPage virt (List.cons_ne_nil t ts)
    rw [lastPage] at hlast
    rw [List.map_cons, List.nodup_cons] at hnd
    have hpage : lastPage (t.2 * blockSize) ts / 4096 = u.2 := by
      rw [← hlast, blockSize, Nat.mul_div_cancel _ (by decide)]
    rw [mapPageStores, lastPage, List.lookup_cons, beq_false_of_ne (hpage ▸ hvirt u hu)]
    refine lookup_last_absent hnd.2 habsent fun w hw heq ↦ hnd.1 ?_
    rw [blockSize, Nat.mul_div_cancel _ (by decide)] at heq
    exact heq ▸ List.mem_map_of_mem hw

end Chain

/-! ## When a call does what it should -/

section Main

variable {m m' : Vmm} {ts : List (ℕ × ℕ)} {phys virt : ℕ}

/-- The walk of a page whose entry was stored. -/
theorem MapPageStep.walk {E : List (ℕ × ℕ)} (h : MapPageStep m ts E m') (hm : m.WF) {v e f : ℕ}
    (hv : v < 2 ^ 32) (hl : E.lookup (v / 4096) = some (mapEntry e f)) :
    m'.walk v = some (frameOf (mapEntry e f), mapEntry e f % 4096) ∧
      mapEntry e f % 4096 % 8 = 7 := by
  have hmod := mapEntry_mod e f
  have hpd := pdIndex_eq v
  have hne := (h.stored (v / 4096) (by rw [hl]; exact Option.some_ne_none _)).2
  rw [show v / 4096 / 1024 = pdIndex v by omega] at hne
  have hpte := h.pte v hv hne
  rw [hl, Option.getD_some] at hpte
  refine ⟨?_, by omega⟩
  rw [Vmm.walk, hpte, if_pos ⟨h.present hm (pdIndex_lt hv) hne, by omega⟩]

/-- A stored entry leads to its frame when it could be set. -/
theorem frameOf_mapEntry_iff {e f : ℕ} (he : e < 2 ^ 32) (hf : f < 2 ^ 32) :
    frameOf (mapEntry e f) = frameOf f ↔ e < 2 ^ 31 ∨ 2 ^ 31 ≤ f := by
  rw [frameOf_mapEntry he hf]
  split
  · rename_i hhigh
    exact ⟨fun _ ↦ hhigh, fun _ ↦ rfl⟩
  · rename_i hhigh
    exact ⟨fun heq ↦ absurd heq (by omega), fun h ↦ absurd h hhigh⟩

theorem lastPage_eq (hne : ts ≠ []) (x y : ℕ) : lastPage x ts = lastPage y ts := by
  cases ts with
  | nil => exact absurd rfl hne
  | cons t ts => rfl

theorem lookup_virt (m : Vmm) (phys virt : ℕ) (hne : ts ≠ []) :
    (mapPageStores m phys virt ts).lookup (virt / 4096) = some (mapEntry 0 phys) := by
  cases ts with
  | nil => exact absurd rfl hne
  | cons t ts => rw [mapPageStores, List.lookup_cons_self]

theorem frameOf_block {b : ℕ} (hb : b * blockSize < 2 ^ 32) :
    frameOf (b * blockSize) = b * blockSize := by
  rw [blockSize] at hb ⊢
  rw [frameOf_eq hb]
  omega

theorem MapPageStep.length_le {E : List (ℕ × ℕ)} (h : MapPageStep m ts E m')
    (hnd : (ts.map Prod.fst).Nodup) :
    ts.length ≤ ((List.range 1024).filter fun i ↦ m.entry i % 2 ≠ 1).length := by
  rw [← List.length_map (f := Prod.fst)]
  refine (List.subperm_of_subset hnd fun i hi ↦ ?_).length_le
  obtain ⟨t, ht, rfl⟩ := List.mem_map.mp hi
  obtain ⟨hlt, h0, -⟩ := h.fresh t ht
  exact List.mem_filter.mpr ⟨List.mem_range.mpr hlt, by rw [h0]; rfl⟩

/-- With tables that fit, each of them is mapped to itself. -/
theorem MapPageStep.walk_table (hstep : MapPageStep m ts (mapPageStores m phys virt ts) m')
    (h : m.WF) (hp : phys < 2 ^ 32) (hfollows : Follows m virt ts) (hnd : (ts.map Prod.fst).Nodup)
    (hlast : if m.entry (pdIndex (lastPage virt ts)) % 2 = 1 then
      m.pte (lastPage virt ts) < 2 ^ 31 ∨ 2 ^ 31 ≤ lastPage phys ts
      else ts = [] ∨ lastPage virt ts / 4096 = virt / 4096 ∧ frameOf phys = lastPage phys ts)
    {t : ℕ × ℕ} (ht : t ∈ ts) (hlt : t.2 * blockSize < 2 ^ 32) :
    ∃ flags, m'.walk (t.2 * blockSize) = some (t.2 * blockSize, flags) := by
  have hne : ts ≠ [] := List.ne_nil_of_mem ht
  have hpage : t.2 * blockSize / 4096 = t.2 := Nat.mul_div_cancel _ (by decide)
  by_cases hl : t.2 * blockSize = lastPage virt ts
  · have hframe : lastPage phys ts = t.2 * blockSize := (lastPage_eq hne ..).trans hl.symm
    rw [← hl, hframe] at hlast
    split at hlast
    · rename_i hpresent
      have hlookup := lookup_last phys hfollows (hl ▸ hpresent)
      rw [← hl, hframe] at hlookup
      have hw := (hstep.walk h hlt hlookup).1
      rw [(frameOf_mapEntry_iff (m.pte_lt _) hlt).mpr hlast, frameOf_block hlt] at hw
      exact ⟨_, hw⟩
    · obtain ⟨hvirt, hphys⟩ := hlast.resolve_left hne
      have hlookup := lookup_virt m phys virt hne
      rw [← hvirt] at hlookup
      have hw := (hstep.walk h hlt hlookup).1
      rw [(frameOf_mapEntry_iff (by decide) hp).mpr (Or.inl (by decide)), hphys] at hw
      exact ⟨_, hw⟩
  · have hlookup := lookup_of_ne_last phys hfollows hnd ht hl
    rw [← hpage] at hlookup
    have hw := (hstep.walk h hlt hlookup).1
    rw [hpage, (frameOf_mapEntry_iff (by decide) hlt).mpr (Or.inl (by decide)),
      frameOf_block hlt] at hw
    exact ⟨_, hw⟩

/-- Without a frame left for its region the last page is not mapped, unless it is that of `virt`. -/
theorem MapPageStep.of_walk_absent (hstep : MapPageStep m ts (mapPageStores m phys virt ts) m')
    (h : m.WF) (hp : phys < 2 ^ 32) (hfnodup : (ts.map Prod.snd).Nodup) {t : ℕ × ℕ} (ht : t ∈ ts)
    (hlast : t.2 * blockSize = lastPage virt ts)
    (habsent : m.entry (pdIndex (t.2 * blockSize)) % 2 ≠ 1) (hlt : t.2 * blockSize < 2 ^ 32)
    {flags : ℕ} (hself : m'.walk (t.2 * blockSize) = some (t.2 * blockSize, flags)) :
    t.2 * blockSize / 4096 = virt / 4096 ∧ frameOf phys = t.2 * blockSize := by
  have hne : ts ≠ [] := List.ne_nil_of_mem ht
  by_cases hvirt : t.2 * blockSize / 4096 = virt / 4096
  · have hlookup := lookup_virt m phys virt hne
    rw [← hvirt] at hlookup
    have hw := (hstep.walk h hlt hlookup).1
    rw [hself, (frameOf_mapEntry_iff (by decide) hp).mpr (Or.inl (by decide))] at hw
    exact ⟨hvirt, (Prod.ext_iff.mp (Option.some.inj hw)).1.symm⟩
  · exfalso
    -- nothing was stored for the page
    have hnone : (mapPageStores m phys virt ts).lookup (t.2 * blockSize / 4096) = none := by
      obtain ⟨u, us, rfl⟩ := List.exists_cons_of_ne_nil hne
      rw [List.map_cons, List.nodup_cons] at hfnodup
      rw [lastPage] at hlast
      rw [mapPageStores, List.lookup_cons, beq_false_of_ne hvirt]
      dsimp only
      rw [hlast] at habsent ⊢
      refine lookup_last_absent hfnodup.2 habsent fun w hw heq ↦ hfnodup.1 ?_
      rw [blockSize, Nat.mul_div_cancel _ (by decide)] at heq
      exact heq ▸ List.mem_map_of_mem hw
    rw [Vmm.walk] at hself
    split at hself
    · rename_i hboth
      have hpte := hstep.pte _ hlt (by omega)
      rw [hnone, Option.getD_none] at hpte
      split at hpte
      · omega
      · rename_i hmem
        rw [hstep.entry_old _ (pdIndex_lt hlt) hmem] at hboth
        exact habsent hboth.1
    · cases hself

/-- The call ends, with the tables that can be read off. -/
theorem WF.exists_mapPage (h : m.WF) (phys virt : ℕ) : ∃ fuel ok m',
    mapPageFuel fuel m phys virt = some (ok, m.mapPageTables virt, m') ∧
      (ok = false ↔ m.entry (pdIndex virt) % 2 ≠ 1 ∧ m.mapPageTables virt = []) :=
  ⟨m.pmm.maxBlocks + 1, mapPageFuel_eq _ (c := 0) phys virt (Nat.zero_le _)
    (fun _ hb ↦ absurd hb (Nat.not_lt_zero _)) h.zero_set (by omega)⟩

theorem WF.mapPageTables_spec (h : m.WF) (virt : ℕ) : Follows m virt (m.mapPageTables virt) ∧
    ((m.mapPageTables virt).map Prod.snd).Nodup ∧
      ∀ t ∈ m.mapPageTables virt, t.2 * blockSize < 2 ^ 32 := by
  obtain ⟨hfollows, hnd, hfresh⟩ := mapPageTablesFuel_spec (m := m) (m.pmm.maxBlocks + 1) m.pmm virt
  refine ⟨hfollows, hnd, fun t ht ↦ ?_⟩
  have hlt := (hfresh t ht).2
  have hmax := h.maxBlocks_le
  rw [blockSize]
  omega

/-- The page tables of a call that maps are in different regions. -/
theorem nodup_of_tables (hfnodup : (ts.map Prod.snd).Nodup)
    (htables : ∀ t ∈ ts, m'.table t.1 = t.2 * blockSize) : (ts.map Prod.fst).Nodup :=
  List.Nodup.map_on (fun t ht u hu heq ↦ by
    have hframe := htables t ht
    rw [heq, htables u hu] at hframe
    exact Prod.ext heq (Nat.eq_of_mul_eq_mul_right (by decide) hframe).symm)
    (List.Nodup.of_map _ hfnodup)

/-- The entry of the last page was set, if its region was present. -/
theorem MapPageStep.last_of_walk (hstep : MapPageStep m ts (mapPageStores m phys virt ts) m')
    (h : m.WF) (hp : phys < 2 ^ 32) (hv : virt < 2 ^ 32) (hfollows : Follows m virt ts)
    (hlt : ∀ t ∈ ts, t.2 * blockSize < 2 ^ 32)
    (hpresent : m.entry (pdIndex (lastPage virt ts)) % 2 = 1)
    (hwalk : ∃ flags, m'.walk virt = some (frameOf phys, flags))
    (hself : ∀ t ∈ ts, ∃ flags, m'.walk (t.2 * blockSize) = some (t.2 * blockSize, flags)) :
    m.pte (lastPage virt ts) < 2 ^ 31 ∨ 2 ^ 31 ≤ lastPage phys ts := by
  have hlookup := lookup_last phys hfollows hpresent
  by_cases hne : ts = []
  · subst hne
    obtain ⟨flags, hwalk⟩ := hwalk
    rw [lastPage, lastPage] at hlookup ⊢
    have hw := (hstep.walk h hv hlookup).1
    rw [hwalk] at hw
    exact (frameOf_mapEntry_iff (m.pte_lt _) hp).mp (Prod.ext_iff.mp (Option.some.inj hw)).1.symm
  · obtain ⟨t, ht, htlast⟩ := exists_lastPage virt hne
    obtain ⟨flags, hself⟩ := hself t ht
    rw [lastPage_eq hne phys virt, ← htlast] at hlookup ⊢
    have hw := (hstep.walk h (hlt t ht) hlookup).1
    rw [hself] at hw
    have hframe := (Prod.ext_iff.mp (Option.some.inj hw)).1
    exact (frameOf_mapEntry_iff (m.pte_lt _) (hlt t ht)).mp
      (hframe.symm.trans (frameOf_block (hlt t ht)).symm)

theorem MapsPage.tablesFit (hmaps : m.MapsPage phys virt) (h : m.WF) (hp : phys < 2 ^ 32)
    (hv : virt < 2 ^ 32) : m.TablesFit phys virt := by
  obtain ⟨fuel, ok, m', hcall, hok⟩ := h.exists_mapPage phys virt
  obtain ⟨hfollows, hfnodup, hlt⟩ := h.mapPageTables_spec virt
  obtain ⟨fuel', ok', ts', m'', hcall', -, -, hmaps⟩ := hmaps
  rw [TablesFit]
  generalize m.mapPageTables virt = ts at hcall hok hfollows hfnodup hlt
  obtain ⟨rfl, rfl, rfl⟩ : ok = ok' ∧ ts = ts' ∧ m' = m'' := by
    simpa using mapPageFuel_unique hcall hcall'
  cases ok with
  | false =>
    obtain ⟨habsent, rfl⟩ := hok.mp rfl
    refine ⟨List.nodup_nil, ?_⟩
    rw [lastPage, if_neg habsent]
    exact Or.inl rfl
  | true =>
    obtain ⟨hentry, ⟨flags, hwalk, -⟩, htables⟩ := hmaps rfl
    have hnd := nodup_of_tables hfnodup fun t ht ↦ (htables t ht).1
    have hstep := mapPageStep_of_nodup _ h hp hv hcall hnd
    refine ⟨hnd, ?_⟩
    split
    · rename_i hpresent
      refine ⟨hstep.last_of_walk h hp hv hfollows hlt hpresent ⟨flags, hwalk⟩
        fun t ht ↦ (htables t ht).2, fun hts ↦ ?_⟩
      subst hts
      rw [hstep.entry_old _ (pdIndex_lt hv) List.not_mem_nil] at hentry
      exact hentry
    · rename_i habsent
      by_cases hne : ts = []
      · exact Or.inl hne
      · obtain ⟨t, ht, htlast⟩ := exists_lastPage virt hne
        obtain ⟨-, flags', hself⟩ := htables t ht
        rw [lastPage_eq hne phys virt, ← htlast]
        exact Or.inr (hstep.of_walk_absent h hp hfnodup ht htlast (htlast ▸ habsent) (hlt t ht)
          hself)

theorem TablesFit.mapsPage (hfit : m.TablesFit phys virt) (h : m.WF) (hp : phys < 2 ^ 32)
    (hv : virt < 2 ^ 32) : m.MapsPage phys virt := by
  obtain ⟨fuel, ok, m', hcall, hok⟩ := h.exists_mapPage phys virt
  obtain ⟨hfollows, -, hlt⟩ := h.mapPageTables_spec virt
  rw [TablesFit] at hfit
  generalize m.mapPageTables virt = ts at hcall hok hfollows hlt hfit
  obtain ⟨hnd, hlast⟩ := hfit
  have hstep := mapPageStep_of_nodup _ h hp hv hcall hnd
  refine ⟨_, ok, ts, m', hcall, hstep.isSet, hstep.length_le hnd, fun htrue ↦ ?_⟩
  have hpresent : ts = [] → m.entry (pdIndex virt) % 2 = 1 := fun hts ↦ by
    by_contra habsent
    exact absurd (htrue.symm.trans (hok.mpr ⟨habsent, hts⟩)) (by decide)
  refine ⟨?_, ?_, fun t ht ↦ ⟨?_, hstep.walk_table h hp hfollows hnd ?_ ht (hlt t ht)⟩⟩
  · -- the directory entry of `virt`
    by_cases hne : ts = []
    · subst hne
      rw [hstep.entry_old _ (pdIndex_lt hv) List.not_mem_nil]
      rw [lastPage, if_pos (hpresent rfl)] at hlast
      exact hlast.2 rfl
    · obtain ⟨t, ts₁, rfl⟩ := List.exists_cons_of_ne_nil hne
      rw [← hfollows.1, hstep.entry_new t List.mem_cons_self]
      omega
  · -- the page of `virt`
    by_cases hne : ts = []
    · subst hne
      have hlookup := lookup_last phys (show Follows m virt [] from trivial) (hpresent rfl)
      rw [lastPage, lastPage] at hlookup hlast
      rw [if_pos (hpresent rfl)] at hlast
      obtain ⟨hw, hmod⟩ := hstep.walk h hv hlookup
      rw [(frameOf_mapEntry_iff (m.pte_lt _) hp).mpr hlast.1] at hw
      exact ⟨_, hw, hmod⟩
    · obtain ⟨hw, hmod⟩ := hstep.walk h hv (lookup_virt m phys virt hne)
      rw [(frameOf_mapEntry_iff (by decide) hp).mpr (Or.inl (by decide))] at hw
      exact ⟨_, hw, hmod⟩
  · have htlt := hlt t ht
    rw [blockSize] at htlt
    rw [table, hstep.entry_new t ht, frameOf_add (Nat.mul_mod_left ..) (by decide) htlt]
    rfl
  · split at hlast
    · rename_i hpresent
      rw [if_pos hpresent]
      exact hlast.1
    · rename_i habsent
      rw [if_neg habsent]
      exact hlast

/-- **`map_page` takes only what it needs and maps it** exactly when its tables fit. -/
theorem mapsPage_iff (h : m.WF) (hp : phys < 2 ^ 32) (hv : virt < 2 ^ 32) :
    m.MapsPage phys virt ↔ m.TablesFit phys virt :=
  ⟨fun hmaps ↦ hmaps.tablesFit h hp hv, fun hfit ↦ hfit.mapsPage h hp hv⟩

/-- Six frames, of which the last two are free. -/
def fewPmm : Pmm := ⟨fun i ↦ if i = 0 then 0xF else 0, 6, 4⟩

/-- A directory in frame 3. -/
def fewVmm (ram : ByteStore) : Vmm := ⟨ram, fewPmm, 0x3000⟩

theorem fewVmm_wf {ram : ByteStore} (hother : ∀ i, i < 1024 → i ≠ 0 → (fewVmm ram).entry i = 0)
    (hzero : (fewVmm ram).entry 0 = 0 ∨ (fewVmm ram).entry 0 = 0x2007) : (fewVmm ram).WF := by
  have hentry : ∀ i, i < 1024 → (fewVmm ram).entry i ≠ 0 → i = 0 ∧ (fewVmm ram).entry i = 0x2007 :=
    fun i hi hne ↦ by
      by_cases h0 : i = 0
      · subst h0
        exact ⟨rfl, hzero.resolve_left hne⟩
      · exact absurd (hother i hi h0) hne
  have htable : ∀ i, i < 1024 → (fewVmm ram).entry i ≠ 0 → (fewVmm ram).table i = 0x2000 :=
    fun i hi hne ↦ by
      rw [table, (hentry i hi hne).2]
      decide
  refine ⟨(by decide : fewPmm.maxBlocks ≤ 0xFFFFF), (by decide : fewPmm.isSet 0 = true),
    (by decide : 0x3000 % 4096 = 0), (by decide : fewPmm.isSet (0x3000 / 4096) = true),
    (by decide : fewPmm.isSet (0x3000 / 4096 - 1) = true), fun i hi hne ↦ ?_,
    fun i hi hne ↦ ?_, fun i hi hne ↦ ?_, fun i j hi hj hne hne' _ ↦ ?_⟩
  · rw [(hentry i hi hne).2]
  · rw [htable i hi hne]
    exact (by decide : fewPmm.isSet (0x2000 / 4096) = true)
  · rw [htable i hi hne]
    exact (by decide : 0x2000 ≠ 0x3000)
  · exact (hentry i hi hne).1.trans (hentry j hj hne').1.symm

/-- The frame for the table of the second region lies in the first region, which is present. -/
theorem mapsPage_fewVmm :
    (fewVmm (ByteStore.writeWord (fun _ ↦ 0) 0x3000 0x2007)).MapsPage 0x7000 0x400000 := by
  refine (mapsPage_iff (fewVmm_wf (fun i hi h0 ↦ ?_) (Or.inr ?_)) (by decide) (by decide)).mpr ?_
  · rw [entry, fewVmm, ByteStore.readWord_writeWord_of_apart (by dsimp only; omega)]
    rfl
  · exact ByteStore.readWord_writeWord (by decide)
  · have hts : (fewVmm (ByteStore.writeWord (fun _ ↦ 0) 0x3000 0x2007)).mapPageTables 0x400000 =
        [(1, 4)] := by
      decide +kernel
    rw [TablesFit, hts]
    decide +kernel

/-- All frames lie in the region that has no table: `map_page` takes both. -/
theorem not_mapsPage_fewVmm : (fewVmm fun _ ↦ 0).WF ∧
    (fewVmm fun _ ↦ 0).mapPageTables 0x2000 = [(0, 4), (0, 5)] ∧
    ¬ (fewVmm fun _ ↦ 0).MapsPage 0x7000 0x2000 := by
  have hwf : (fewVmm fun _ ↦ 0).WF := fewVmm_wf (fun _ _ _ ↦ rfl) (Or.inl rfl)
  have hts : (fewVmm fun _ ↦ 0).mapPageTables 0x2000 = [(0, 4), (0, 5)] := by decide +kernel
  refine ⟨hwf, hts, ?_⟩
  rintro ⟨fuel, ok', ts', m'', hcall', -, -, hmaps⟩
  obtain ⟨_, ok, m', hcall, hok⟩ := hwf.exists_mapPage 0x7000 0x2000
  rw [hts] at hcall hok
  obtain ⟨rfl, rfl, rfl⟩ : ok = ok' ∧ [(0, 4), (0, 5)] = ts' ∧ m' = m'' := by
    simpa using mapPageFuel_unique hcall hcall'
  cases ok with
  | false => cases (hok.mp rfl).2
  | true =>
    obtain ⟨-, -, htables⟩ := hmaps rfl
    have hfirst := (htables (0, 4) (by decide)).1
    have hsecond := (htables (0, 5) (by decide)).1
    exact absurd (hfirst.symm.trans hsecond) (by decide)

end Main

end Vmm

end AbOS
