import AbOS.Memory.MapPage

/-!
# The last mapping wins

On pages whose page tables exist, `map_page` and `unmap_page` each store one entry.  After a
sequence of calls the entry of a page is the one that the last call on it left (`LastWins`): its
frame, whether it is present, and the flags of the calls before.

`SET_FRAME` clears 19 of the 20 bits of a frame.  So a page that is remapped below 2 GiB or
unmapped keeps bit 31 of its old frame, and the calls of a run must not meet such a page
(`KeepsHigh`).
`unmap_page` does not ask whether there is a page table: without one it works on the word that the
empty directory entry leads to, in the first frame of memory.
-/

set_option autoImplicit false

namespace AbOS

inductive PageOp
  /-- `map_page(phys, virt)`. -/
  | mapPage (phys virt : ℕ)
  /-- `unmap_page(virt)`. -/
  | unmapPage (virt : ℕ)

namespace PageOp

def virt : PageOp → ℕ
  | mapPage _ virt => virt
  | unmapPage virt => virt

/-- The call maps the page. -/
def maps (page : ℕ) : PageOp → Bool
  | mapPage _ virt => virt / 4096 = page
  | unmapPage _ => false

/-- What the call stores in an entry that holds `e`. -/
def stored (e : ℕ) : PageOp → ℕ
  | mapPage phys _ => mapEntry e phys
  | unmapPage _ => setFrame e 0 &&& 0xFFFFFFFE

/-- The page table of the address exists, and the frame is page aligned. -/
def OnTable (m : Vmm) : PageOp → Prop
  | mapPage phys virt =>
    virt < 2 ^ 32 ∧ m.entry (pdIndex virt) % 2 = 1 ∧ phys % 4096 = 0 ∧ phys < 2 ^ 32
  | unmapPage virt => virt < 2 ^ 32 ∧ m.entry (pdIndex virt) % 2 = 1

end PageOp

/-- The last of the calls on the page. -/
def lastOn (page : ℕ) : List PageOp → Option PageOp
  | [] => none
  | op :: ops => (lastOn page ops).or (if op.virt / 4096 = page then some op else none)

namespace Vmm

/-- The directory is page aligned, and its page tables lie in frames of their own. -/
structure Separate (m : Vmm) : Prop where
  dir_mod : m.directory % 4096 = 0
  table_ne_dir : ∀ i, i < 1024 → m.entry i % 2 = 1 → m.table i ≠ m.directory
  table_inj : ∀ i j, i < 1024 → j < 1024 → m.entry i % 2 = 1 → m.entry j % 2 = 1 →
    m.table i = m.table j → i = j

/-- One call. -/
def pageStep (m : Vmm) : PageOp → Option Vmm
  | .mapPage phys virt => (mapPageFuel (m.pmm.maxBlocks + 1) m phys virt).map fun r ↦ r.2.2
  | .unmapPage virt => some (m.unmapPage virt)

/-- **The last mapping wins**: the entry of a page is present, with the frame of the call, when the
last call on the page was a `map_page`, and absent without a frame when it was an `unmap_page`.
Its other flags are kept, and so is all other memory. -/
structure LastWins (m₀ : Vmm) (ops : List PageOp) (m : Vmm) : Prop where
  entry : ∀ i, i < 1024 → m.entry i = m₀.entry i
  last : ∀ v, v < 2 ^ 32 → m₀.entry (pdIndex v) % 2 = 1 →
    match lastOn (v / 4096) ops with
    | none => m.pte v = m₀.pte v
    | some (.mapPage phys _) => m.pte v % 2 = 1 ∧ frameOf (m.pte v) = phys
    | some (.unmapPage _) => m.pte v % 2 = 0 ∧ frameOf (m.pte v) = 0
  flags : ∀ v, v < 2 ^ 32 → m₀.entry (pdIndex v) % 2 = 1 → ∀ j, 1 ≤ j → j < 12 →
    (m.pte v).testBit j =
      ((m₀.pte v).testBit j || (decide (j < 3) && ops.any fun op ↦ op.maps (v / 4096)))
  ram : ∀ x, (∀ op ∈ ops, x < m₀.getPage op.virt ∨ m₀.getPage op.virt + 4 ≤ x) →
    m.ram x = m₀.ram x

/-- The entry has bit 31 clear, or the new frame has it. -/
def KeepsHigh (m : Vmm) : PageOp → Prop
  | .mapPage phys virt => m.pte virt < 2 ^ 31 ∨ 2 ^ 31 ≤ phys
  | .unmapPage virt => m.pte virt < 2 ^ 31

end Vmm

/-! ## What a call stores -/

section Stored

variable {e phys j : ℕ}

theorem unmapEntry_eq (he : e < 2 ^ 32) :
    setFrame e 0 &&& 0xFFFFFFFE < 2 ^ 32 ∧ (setFrame e 0 &&& 0xFFFFFFFE) % 2 = 0 ∧
      (e < 2 ^ 31 → frameOf (setFrame e 0 &&& 0xFFFFFFFE) = 0) := by
  have hlt : setFrame e 0 < 2 ^ 32 := setFrame_lt (by decide)
  rw [clearPresent_eq hlt]
  refine ⟨by omega, by omega, fun hlow ↦ ?_⟩
  have hdiv := setFrame_div (a := 0) he (by decide)
  rw [if_pos (Or.inl hlow)] at hdiv
  rw [frameOf_eq (by omega)]
  omega

/-- The low bits of the masks. -/
theorem testBit_masks : ∀ j < 12, (0x80000FFF : ℕ).testBit j = true ∧
    (0xFFFFFFFE : ℕ).testBit j = decide (1 ≤ j) ∧ (7 : ℕ).testBit j = decide (j < 3) := by
  decide

theorem testBit_mapEntry (hp : phys % 4096 = 0) (hj : j < 12) :
    (mapEntry e phys).testBit j = (e.testBit j || decide (j < 3)) := by
  obtain ⟨hmask, -, hseven⟩ := testBit_masks j hj
  have hzero : phys.testBit j = false := by
    have h := Nat.testBit_mod_two_pow phys 12 j
    rw [show phys % 2 ^ 12 = 0 from hp, Nat.zero_testBit, decide_eq_true hj, Bool.true_and] at h
    exact h.symm
  have hflags : ((e ||| 0x01) ||| 0x02) ||| 0x04 = e ||| 7 := by
    rw [Nat.or_assoc, Nat.or_assoc]
    rfl
  rw [mapEntry, setFrame, hflags, Nat.testBit_or, Nat.testBit_and, Nat.testBit_or, hmask, hzero,
    hseven, Bool.and_true, Bool.or_false]

theorem testBit_unmapEntry (hj1 : 1 ≤ j) (hj : j < 12) :
    (setFrame e 0 &&& 0xFFFFFFFE).testBit j = e.testBit j := by
  obtain ⟨hmask, hclear, -⟩ := testBit_masks j hj
  rw [Nat.testBit_and, setFrame, Nat.testBit_or, Nat.testBit_and, hmask, hclear,
    decide_eq_true hj1, Nat.zero_testBit, Bool.or_false, Bool.and_true, Bool.and_true]

/-- Unmapping leaves an entry as it is when there is nothing to clear. -/
theorem unmapEntry_eq_self_iff (he : e < 2 ^ 32) :
    setFrame e 0 &&& 0xFFFFFFFE = e ↔ e &&& 0x7FFFF001 = 0 := by
  have hmask : setFrame e 0 &&& 0xFFFFFFFE = e &&& 0x80000FFE := by
    rw [setFrame, Nat.or_zero, Nat.and_assoc]
    rfl
  have hall : e &&& 0xFFFFFFFF = e := by
    rw [show (0xFFFFFFFF : ℕ) = 2 ^ 32 - 1 by decide, Nat.and_two_pow_sub_one_eq_mod,
      Nat.mod_eq_of_lt he]
  rw [hmask]
  constructor
  · intro h
    rw [← h, Nat.and_assoc]
    exact Nat.and_zero e
  · intro h
    rw [show (0xFFFFFFFF : ℕ) = 0x80000FFE ||| 0x7FFFF001 by decide, Nat.and_or_distrib_left, h,
      Nat.or_zero] at hall
    exact hall

end Stored

namespace Vmm

/-! ## One call -/

section Step

variable {m m' : Vmm} {op : PageOp} {ops : List PageOp} {v w e : ℕ}

theorem lt_of_onTable (h : op.OnTable m) :
    op.virt < 2 ^ 32 ∧ m.entry (pdIndex op.virt) % 2 = 1 := by
  cases op with
  | mapPage phys virt => exact ⟨h.1, h.2.1⟩
  | unmapPage virt => exact h

theorem stored_lt (h : op.OnTable m) (he : e < 2 ^ 32) : op.stored e < 2 ^ 32 := by
  cases op with
  | mapPage phys virt => exact mapEntry_lt h.2.2.2
  | unmapPage virt => exact (unmapEntry_eq he).1

/-- A call on a page whose table exists stores its entry. -/
theorem pageStep_eq (h : op.OnTable m) :
    pageStep m op = some (m.putPte op.virt (op.stored (m.pte op.virt))) := by
  cases op with
  | mapPage phys virt =>
    rw [pageStep, mapPageFuel, if_pos h.2.1]
    rfl
  | unmapPage virt => rfl

theorem Separate.putPte_entry (h : m.Separate) (hv : v < 2 ^ 32)
    (hpresent : m.entry (pdIndex v) % 2 = 1) {i : ℕ} (hi : i < 1024) :
    (m.putPte v e).entry i = m.entry i := by
  have hne := h.table_ne_dir _ (pdIndex_lt hv) hpresent
  have hmod := h.dir_mod
  refine ByteStore.readWord_congr fun k hk ↦ putPte_ram_of_ne ?_
  show (m.directory + 4 * i + k) / 4096 * 4096 ≠ _
  omega

theorem Separate.putPte (h : m.Separate) (hv : v < 2 ^ 32)
    (hpresent : m.entry (pdIndex v) % 2 = 1) : (m.putPte v e).Separate := by
  have hentry := fun i hi ↦ h.putPte_entry hv hpresent (e := e) (i := i) hi
  have htable : ∀ i, i < 1024 → (m.putPte v e).table i = m.table i := fun i hi ↦ by
    rw [table, hentry i hi]
    rfl
  refine ⟨h.dir_mod, fun i hi hp ↦ ?_, fun i j hi hj hp hp' heq ↦ ?_⟩
  · rw [hentry i hi] at hp
    rw [htable i hi]
    exact h.table_ne_dir i hi hp
  · rw [hentry i hi] at hp
    rw [hentry j hj] at hp'
    rw [htable i hi, htable j hj] at heq
    exact h.table_inj i j hi hj hp hp' heq

theorem Separate.putPte_getPage (h : m.Separate) (hv : v < 2 ^ 32)
    (hpresent : m.entry (pdIndex v) % 2 = 1) (hw : w < 2 ^ 32) :
    (m.putPte v e).getPage w = m.getPage w := by
  rw [getPage, table, h.putPte_entry hv hpresent (pdIndex_lt hw)]
  rfl

/-- The entry of the page is stored, those of other pages stay. -/
theorem Separate.putPte_pte (h : m.Separate) (hv : v < 2 ^ 32)
    (hpresent : m.entry (pdIndex v) % 2 = 1) (he : e < 2 ^ 32) (hw : w < 2 ^ 32)
    (hpresent' : m.entry (pdIndex w) % 2 = 1) :
    (m.putPte v e).pte w = if w / 4096 = v / 4096 then e else m.pte w := by
  rw [pte, h.putPte_getPage hv hpresent hw, Vmm.putPte]
  dsimp only
  split
  · rename_i hpage
    obtain ⟨hpd, hpt⟩ := (page_eq_iff w v).mp hpage
    rw [getPage, getPage, hpd, hpt, ByteStore.readWord_writeWord he]
  · rename_i hpage
    have h₁ := ptIndex_lt v
    have h₂ := ptIndex_lt w
    have h₃ := m.table_mod (pdIndex v)
    have h₄ := m.table_mod (pdIndex w)
    have hapart : m.getPage w + 4 ≤ m.getPage v ∨ m.getPage v + 4 ≤ m.getPage w := by
      rw [getPage, getPage]
      by_cases hpd : pdIndex w = pdIndex v
      · have hpt : ptIndex w ≠ ptIndex v := fun heq ↦ hpage ((page_eq_iff w v).mpr ⟨hpd, heq⟩)
        rw [hpd]
        omega
      · have htable : m.table (pdIndex w) ≠ m.table (pdIndex v) := fun heq ↦
          hpd (h.table_inj _ _ (pdIndex_lt hw) (pdIndex_lt hv) hpresent' hpresent heq)
        omega
    rw [ByteStore.readWord_writeWord_of_apart hapart, pte]

/-- The state that a call leads to has the same page tables. -/
theorem onTable_putPte {op' : PageOp} (h : m.Separate) (hv : v < 2 ^ 32)
    (hpresent : m.entry (pdIndex v) % 2 = 1) (h' : op'.OnTable m) :
    op'.OnTable (m.putPte v e) := by
  have hentry := h.putPte_entry hv hpresent (e := e) (pdIndex_lt (lt_of_onTable h').1)
  cases op' with
  | mapPage phys virt => exact ⟨h'.1, (congrArg (· % 2) hentry).trans h'.2.1, h'.2.2⟩
  | unmapPage virt => exact ⟨h'.1, (congrArg (· % 2) hentry).trans h'.2⟩

end Step

/-! ## Runs -/

section Runs

variable {m m' : Vmm} {op : PageOp} {ops : List PageOp} {v : ℕ}

theorem LastWins.refl (m : Vmm) : LastWins m [] m where
  entry := fun _ _ ↦ rfl
  last := fun _ _ _ ↦ rfl
  flags := fun _ _ _ j _ _ ↦ by simp
  ram := fun _ _ ↦ rfl

/-- What the last call on a page leaves. -/
theorem stored_spec (hop : op.OnTable m) (hkept : KeepsHigh m op) :
    match op with
    | .mapPage phys _ => op.stored (m.pte op.virt) % 2 = 1 ∧
        frameOf (op.stored (m.pte op.virt)) = phys
    | .unmapPage _ => op.stored (m.pte op.virt) % 2 = 0 ∧
        frameOf (op.stored (m.pte op.virt)) = 0 := by
  cases op with
  | mapPage phys virt =>
    obtain ⟨-, -, hmod, hlt⟩ := hop
    have hflags := mapEntry_mod (m.pte virt) phys
    have hframe := (frameOf_mapEntry_iff (m.pte_lt virt) hlt).mpr hkept
    rw [frameOf_eq hlt] at hframe
    exact ⟨by dsimp only [PageOp.stored, PageOp.virt]; omega, hframe.trans (by omega)⟩
  | unmapPage virt =>
    obtain ⟨-, heven, hframe⟩ := unmapEntry_eq (m.pte_lt virt)
    exact ⟨heven, hframe hkept⟩

/-- What a call does to the flags behind the present bit. -/
theorem testBit_stored (hop : op.OnTable m) {e j : ℕ} (hj1 : 1 ≤ j) (hj : j < 12) :
    (op.stored e).testBit j = (e.testBit j || (decide (j < 3) && op.maps (op.virt / 4096))) := by
  cases op with
  | mapPage phys virt =>
    rw [PageOp.stored, testBit_mapEntry hop.2.2.1 hj, PageOp.maps, PageOp.virt, decide_eq_true rfl,
      Bool.and_true]
  | unmapPage virt =>
    rw [PageOp.stored, testBit_unmapEntry hj1 hj, PageOp.maps, Bool.and_false, Bool.or_false]

theorem maps_of_ne {page : ℕ} (h : op.virt / 4096 ≠ page) : op.maps page = false := by
  cases op with
  | mapPage phys virt => exact decide_eq_false h
  | unmapPage virt => rfl

/-- One call in front of a run. -/
theorem LastWins.cons (h : m.Separate) (hop : op.OnTable m) (hops : ∀ op' ∈ ops, op'.OnTable m)
    (hkept : KeepsHigh m op)
    (hrest : LastWins (m.putPte op.virt (op.stored (m.pte op.virt))) ops m') :
    LastWins m (op :: ops) m' := by
  obtain ⟨hv, hpresent⟩ := lt_of_onTable hop
  have he := stored_lt hop (m.pte_lt op.virt)
  have hentry := fun i hi ↦
    h.putPte_entry hv hpresent (e := op.stored (m.pte op.virt)) (i := i) hi
  have hpte := fun w (hw : w < 2 ^ 32) hp ↦ h.putPte_pte hv hpresent he hw hp
  have hsame : ∀ w, w / 4096 = op.virt / 4096 → m.pte op.virt = m.pte w := fun w hpage ↦ by
    obtain ⟨hpd, hpt⟩ := (page_eq_iff w op.virt).mp hpage
    rw [pte, pte, getPage, getPage, hpd, hpt]
  refine ⟨fun i hi ↦ (hrest.entry i hi).trans (hentry i hi), fun w hw hp ↦ ?_,
    fun w hw hp j hj1 hj ↦ ?_, fun x hx ↦ ?_⟩
  · have hlast := hrest.last w hw (by rwa [hentry _ (pdIndex_lt hw)])
    rw [lastOn]
    cases hl : lastOn (w / 4096) ops with
    | some op' =>
      rw [hl] at hlast
      cases op' <;> exact hlast
    | none =>
      rw [hl] at hlast
      rw [Option.none_or]
      have hnow : m'.pte w = _ := hlast
      rw [hpte w hw hp] at hnow
      by_cases hpage : w / 4096 = op.virt / 4096
      · rw [if_pos hpage] at hnow
        rw [if_pos hpage.symm]
        have hspec := stored_spec hop hkept
        rw [← hnow] at hspec
        cases op <;> exact hspec
      · rw [if_neg hpage] at hnow
        rw [if_neg (Ne.symm hpage)]
        exact hnow
  · rw [hrest.flags w hw (by rwa [hentry _ (pdIndex_lt hw)]) j hj1 hj, hpte w hw hp, List.any_cons]
    by_cases hpage : w / 4096 = op.virt / 4096
    · rw [if_pos hpage, testBit_stored hop hj1 hj, hsame w hpage, hpage, Bool.and_or_distrib_left,
        Bool.or_assoc]
    · rw [if_neg hpage, maps_of_ne (Ne.symm hpage), Bool.false_or]
  · rw [hrest.ram x fun op' hop' ↦ ?_]
    · have := hx op List.mem_cons_self
      exact ByteStore.writeWord_of_not_mem (by omega)
    · rw [h.putPte_getPage hv hpresent (lt_of_onTable (hops op' hop')).1]
      exact hx op' (List.mem_cons_of_mem _ hop')

theorem exists_lastWins (h : m.Separate) (hops : ∀ op ∈ ops, op.OnTable m)
    (hkept : Run.Meets pageStep KeepsHigh m ops) :
    ∃ m', Run.exec pageStep m ops = some m' ∧ LastWins m ops m' := by
  induction ops generalizing m with
  | nil => exact ⟨m, rfl, LastWins.refl m⟩
  | cons op ops ih =>
    have hop := hops op List.mem_cons_self
    obtain ⟨hv, hpresent⟩ := lt_of_onTable hop
    have hstep := pageStep_eq hop
    have htail := fun op' hop' ↦ hops op' (List.mem_cons_of_mem _ hop')
    obtain ⟨m', hrun, hrest⟩ := ih (h.putPte hv hpresent)
      (fun op' hop' ↦ onTable_putPte h hv hpresent (htail op' hop')) (hkept.2 _ hstep)
    exact ⟨m', Run.exec_cons.mpr ⟨_, hstep, hrun⟩, hrest.cons h hop htail hkept.1⟩

/-- Without a page table `unmap_page` changes memory unless the word it works on has no frame and is
not present. -/
theorem unmapPage_ram_iff : (m.unmapPage v).ram = m.ram ↔ m.pte v &&& 0x7FFFF001 = 0 := by
  have hlt := (unmapEntry_eq (m.pte_lt v)).1
  rw [← unmapEntry_eq_self_iff (m.pte_lt v), unmapPage, putPte]
  constructor
  · intro hram
    have hread := congrArg (fun ram : ByteStore ↦ ram.readWord (m.getPage v)) hram
    dsimp only at hread
    rwa [ByteStore.readWord_writeWord hlt] at hread
  · intro heq
    dsimp only
    rw [heq, pte, ByteStore.writeWord_readWord]

/-- **The last mapping wins** in every run of calls on existing page tables that loses no high bit,
and a call without a page table is harmless exactly when there is nothing to clear. -/
theorem lastWins_of_meets (m : Vmm) :
    (∀ ops : List PageOp, m.Separate → (∀ op ∈ ops, op.OnTable m) →
      Run.Meets pageStep KeepsHigh m ops →
        ∃ m', Run.exec pageStep m ops = some m' ∧ LastWins m ops m') ∧
    ∀ v, m.entry (pdIndex v) % 2 ≠ 1 →
      ((m.unmapPage v).ram = m.ram ↔ m.pte v &&& 0x7FFFF001 = 0) :=
  ⟨fun _ h hops hkept ↦ exists_lastWins h hops hkept, fun _ _ ↦ unmapPage_ram_iff⟩

/-- The directory of `fewVmm` with a page table for the first region. -/
def oneTable : Vmm := fewVmm (ByteStore.writeWord (fun _ ↦ 0) 0x3000 0x2007)

theorem oneTable_separate : oneTable.Separate := by
  have hother : ∀ i, i < 1024 → i ≠ 0 → oneTable.entry i = 0 := fun i hi h0 ↦ by
    rw [entry, oneTable, fewVmm, ByteStore.readWord_writeWord_of_apart (by dsimp only; omega)]
    rfl
  have hzero : ∀ i, i < 1024 → oneTable.entry i % 2 = 1 → i = 0 := fun i hi hp ↦ by
    by_contra h0
    rw [hother i hi h0] at hp
    cases hp
  refine ⟨by decide, fun i hi hp ↦ ?_, fun i j hi hj hp hp' _ ↦ ?_⟩
  · rw [hzero i hi hp]
    decide +kernel
  · exact (hzero i hi hp).trans (hzero j hj hp').symm

/-- A page is mapped and unmapped. -/
theorem lastWins_oneTable : ∃ m', Run.exec pageStep oneTable
    [.mapPage 0x7000 0x5000, .unmapPage 0x5000] = some m' ∧
      LastWins oneTable [.mapPage 0x7000 0x5000, .unmapPage 0x5000] m' := by
  have hpresent : oneTable.entry (pdIndex 0x5000) % 2 = 1 := by decide +kernel
  have hmap : (PageOp.mapPage 0x7000 0x5000).OnTable oneTable :=
    ⟨by decide, hpresent, by decide, by decide⟩
  refine (lastWins_of_meets oneTable).1 _ oneTable_separate (fun op hop ↦ ?_) ?_
  · rcases List.mem_cons.mp hop with rfl | hop
    · exact hmap
    · obtain rfl := List.mem_singleton.mp hop
      exact ⟨by decide, hpresent⟩
  · refine ⟨Or.inl (by decide +kernel), fun t ht ↦ ⟨?_, fun _ _ ↦ trivial⟩⟩
    obtain rfl := Option.some.inj ((pageStep_eq hmap).symm.trans ht)
    show Vmm.pte _ 0x5000 < 2 ^ 31
    decide +kernel

/-- A page that was mapped above 2 GiB stays there; and with no page table at all, unmapping the
first page changes the first word of memory. -/
theorem not_lastWins_oneTable :
    (∃ m', Run.exec pageStep oneTable
        [.mapPage 0x80007000 0x5000, .mapPage 0x7000 0x5000] = some m' ∧
      frameOf (m'.pte 0x5000) = 0x80007000 ∧
      ¬ LastWins oneTable [.mapPage 0x80007000 0x5000, .mapPage 0x7000 0x5000] m') ∧
    (fewVmm fun x ↦ if x < 0x1000 then 0xFF else 0).entry 0 = 0 ∧
    ((fewVmm fun x ↦ if x < 0x1000 then 0xFF else 0).unmapPage 0).ram 0 = 0xFE := by
  refine ⟨?_, by decide +kernel, by decide +kernel⟩
  have hpresent : oneTable.entry (pdIndex 0x5000) % 2 = 1 := by decide +kernel
  have hhigh : (PageOp.mapPage 0x80007000 0x5000).OnTable oneTable :=
    ⟨by decide, hpresent, by decide, by decide⟩
  have hlow : (PageOp.mapPage 0x7000 0x5000).OnTable
      (oneTable.putPte 0x5000 (mapEntry (oneTable.pte 0x5000) 0x80007000)) :=
    onTable_putPte oneTable_separate (by decide) hpresent
      ⟨by decide, hpresent, by decide, by decide⟩
  have hrun := Run.exec_cons.mpr ⟨_, pageStep_eq hhigh, Run.exec_singleton (pageStep_eq hlow)⟩
  refine ⟨_, hrun, ?_⟩
  have hframe : ∀ m', Run.exec pageStep oneTable
      [.mapPage 0x80007000 0x5000, .mapPage 0x7000 0x5000] = some m' →
        frameOf (m'.pte 0x5000) = 0x80007000 := fun m' hm' ↦ by
    obtain rfl := Option.some.inj (hrun.symm.trans hm')
    decide +kernel
  refine ⟨hframe _ hrun, fun hlast ↦ ?_⟩
  have hlow := (hlast.last 0x5000 (by decide) hpresent).2
  rw [hframe _ hrun] at hlow
  exact absurd hlow (by decide)

end Runs

end Vmm

end AbOS
