import AbOS.Syscalls.Tlb

/-!
# The pages below 1 MiB

When the kernel starts, the first megabyte is mapped to itself, and the kernel goes on to use data
that the boot loader and the first kernel have left there: its own globals, the descriptors of the
processor, the memory map.  `init_malloc` leaves `heap_end` at 0, so the heap grows through the same
addresses.

* `Machine.translate_low_iff` — in a run that keeps the page tables, an address below 1 MiB leads to
  itself as long as the heap ends below its page, and then to a frame that was free at boot.
-/

set_option autoImplicit false

namespace AbOS

namespace Vmm

variable {m₀ m m' : Vmm} {p f flags b : ℕ}

/-! ## One page -/

/-- The page `p` leads to the frame `f`, which is its own or one that was free in `m₀` and holds
data; and what is needed to keep it so. -/
structure LowPage (m₀ : Vmm) (p f flags : ℕ) (m : Vmm) : Prop where
  kept : m.TablesKept
  used : ∀ b, m₀.pmm.isSet b = true → m.pmm.isSet b = true
  walk : m.walk (p * 4096) = some (f * 4096, flags)
  frame : f = p ∨ m₀.pmm.isSet f = false ∧ m.HoldsData f

namespace LowPage

theorem allocate (h : LowPage m₀ p f flags m) {q : Pmm} (hmax : q.maxBlocks = m.pmm.maxBlocks)
    (hset : ∀ b, m.pmm.isSet b = true → q.isSet b = true) :
    LowPage m₀ p f flags { m with pmm := q } where
  kept := h.kept.allocate hmax hset
  used := fun b hb ↦ hset b (h.used b hb)
  walk := h.walk
  frame := h.frame.imp_right fun ⟨hfree, hb, hpaging⟩ ↦ ⟨hfree, hset f hb, hpaging⟩

theorem sameTables (h : LowPage m₀ p f flags m) (hp : p < 0x100) (hsame : SameTables m m') :
    LowPage m₀ p f flags m' := by
  have hdir := h.kept.wf.dir_mod
  have hpaging : ∀ b, m'.IsPaging b ↔ m.IsPaging b := fun _ ↦ hsame.isPaging_iff hdir
  refine ⟨h.kept.sameTables hsame, ?_, ?_, ?_⟩
  · rw [hsame.pmm]
    exact h.used
  · rw [hsame.walk hdir (by omega)]
    exact h.walk
  · rw [HoldsData, hsame.pmm, hpaging]
    exact h.frame

section mapAddress

variable {phys virt : ℕ} (hphys : phys % 4096 = 0) (hlt : phys < 2 ^ 32) (hv : virt < 2 ^ 32)
  (havoid : m.AvoidsTables virt) (hp : p < 0x100)
include hphys hlt hv havoid hp

/-- A mapping of another page leaves the page alone. -/
theorem mapAddress_of_ne (h : LowPage m₀ p f flags m) (hset : m₀.pmm.isSet p = true)
    (hne : p ≠ virt / 4096) : LowPage m₀ p f flags (m.mapAddress phys virt userFlags).2 := by
  have hkept := h.kept.mapAddress hphys hlt hv havoid
  have hstep := (h.kept.wf.mapAddress_step phys virt userFlags hphys hlt hv (by decide)
    (by decide)).1
  generalize (m.mapAddress phys virt userFlags).2 = m' at hkept hstep
  refine ⟨hkept, fun b hb ↦ ?_, ?_,
    h.frame.imp_right fun ⟨hfree, hdata⟩ ↦ ⟨hfree, hstep.holdsData (by decide) hdata⟩⟩
  · rw [hstep.isSet, h.used b hb, Bool.or_true]
  · have hpd : pdIndex (p * 4096) = 0 := by
      rw [pdIndex_eq]
      omega
    have hother : Other (m.tablesTaken virt) virt (p * 4096 / 4096) := by
      rw [Nat.mul_div_cancel _ (by decide)]
      refine ⟨hne, fun hmem ↦ ?_⟩
      have hused := h.used p hset
      rw [((hstep.taken_iff p).mpr hmem).1] at hused
      cases hused
    rw [← h.walk]
    exact (hstep.walk_old_iff h.kept.wf (by decide) (by omega) (lookup_eq_none_iff.mpr hother)
      (hpd ▸ h.kept.entry_zero)).mpr fun hc ↦ absurd hc (h.kept.not_cleared hstep (by decide) hpd)

/-- A mapping of the page itself leads it to the new frame. -/
theorem mapAddress_of_eq (h : LowPage m₀ p f flags m) (heq : p = virt / 4096)
    (hfree : m₀.pmm.isSet (phys / 4096) = false) (hdata : m.HoldsData (phys / 4096)) :
    LowPage m₀ p (phys / 4096) userFlags (m.mapAddress phys virt userFlags).2 := by
  have hkept := h.kept.mapAddress hphys hlt hv havoid
  have hstep := (h.kept.wf.mapAddress_step phys virt userFlags hphys hlt hv (by decide)
    (by decide)).1
  generalize (m.mapAddress phys virt userFlags).2 = m' at hkept hstep
  refine ⟨hkept, fun b hb ↦ ?_, ?_, Or.inr ⟨hfree, hstep.holdsData (by decide) hdata⟩⟩
  · rw [hstep.isSet, h.used b hb, Bool.or_true]
  · have hpd : pdIndex virt = 0 := by
      rw [pdIndex_eq]
      omega
    have hpage : p * 4096 / 4096 = virt / 4096 := by omega
    rw [walk_page hpage, hstep.walk_virt hv hphys (by decide) (by decide) (hpd ▸ hkept.entry_zero),
      Nat.div_mul_cancel (Nat.dvd_of_mod_eq_zero hphys)]

end mapAddress

/-! ## Loops -/

section mapPages

variable {virt : ℕ} (hp : p < 0x100) (hset : m₀.pmm.isSet p = true) (h : LowPage m₀ p f flags m)
include hp hset h

/-- A loop over other pages, each with a new frame. -/
theorem mapPages_fresh {n : ℕ} (havoid : m.PagesAvoidTables freshFrame virt n)
    (hne : ∀ i < n, p ≠ (virt + i * pageSize) % 2 ^ 32 / 4096) :
    LowPage m₀ p f flags (m.mapPages freshFrame virt n) := by
  induction n with
  | zero => exact h
  | succ n ih =>
    have hprev := ih havoid.1 fun i hi ↦ hne i (Nat.lt_succ_of_lt hi)
    have hafter := hprev.allocate (Pmm.allocateBlocks_maxBlocks _ 1) fun b hb ↦
      Pmm.isSet_allocateBlocks hb 1
    exact hafter.mapAddress_of_ne (frameSource_fresh.aligned n _)
      (frameSource_fresh.lt n _ hprev.kept.wf) (Nat.mod_lt _ (by decide)) havoid.2 hp hset
      (hne n (Nat.lt_succ_self n))

/-- A loop over the pages from `virt` on, which lead to the frames from `s` on: these hold data. -/
theorem mapPages_range {s n : ℕ} (hvirt : virt % 4096 = 0) (hroom : virt + n * 4096 < 2 ^ 32)
    (hs : s + n ≤ 0xFFFFF) (hfree : ∀ i < n, m₀.pmm.isSet (s + i) = false)
    (hdata : ∀ i < n, m.HoldsData (s + i)) {k : ℕ} (hk : k ≤ n)
    (havoid : m.PagesAvoidTables (rangeFrame (s * blockSize)) virt k) :
    (∀ i < n, (m.mapPages (rangeFrame (s * blockSize)) virt k).HoldsData (s + i)) ∧
      if virt / 4096 ≤ p ∧ p < virt / 4096 + k then
        LowPage m₀ p (s + (p - virt / 4096)) userFlags
          (m.mapPages (rangeFrame (s * blockSize)) virt k)
      else LowPage m₀ p f flags (m.mapPages (rangeFrame (s * blockSize)) virt k) := by
  induction k with
  | zero =>
    refine ⟨hdata, ?_⟩
    rw [if_neg (by omega)]
    exact h
  | succ k ih =>
    obtain ⟨hkept, hpage⟩ := ih (Nat.le_of_succ_le hk) havoid.1
    have hlt : (s + k) * 4096 < 2 ^ 32 := by omega
    have hpages : k * 4096 ≤ n * 4096 := Nat.mul_le_mul_right _ (Nat.le_of_succ_le hk)
    have hv : virt + k * 4096 < 2 ^ 32 := (Nat.add_le_add_left hpages virt).trans_lt hroom
    have hframe : (s + k) * 4096 / 4096 = s + k := Nat.mul_div_cancel _ (by decide)
    have hphys : (s * blockSize + k * pageSize) % 2 ^ 32 = (s + k) * 4096 := by
      rw [blockSize, pageSize, ← Nat.add_mul, Nat.mod_eq_of_lt hlt]
    have hvirtk : (virt + k * pageSize) % 2 ^ 32 = virt + k * 4096 := Nat.mod_eq_of_lt hv
    have havoidk := havoid.2
    rw [rangeFrame] at havoidk
    rw [mapPages, rangeFrame, hphys]
    rw [hvirtk] at havoidk ⊢
    generalize m.mapPages (rangeFrame (s * blockSize)) virt k = m' at hkept hpage havoidk
    have hmod : (s + k) * 4096 % 4096 = 0 := Nat.mul_mod_left ..
    have hwf : m'.WF := by
      split at hpage <;> exact hpage.kept.wf
    have hstep := (hwf.mapAddress_step _ _ userFlags hmod hlt hv (by decide) (by decide)).1
    refine ⟨fun i hi ↦ hstep.holdsData (by decide) (hkept i hi), ?_⟩
    by_cases hpk : p = virt / 4096 + k
    · rw [if_neg (by omega)] at hpage
      rw [if_pos (by omega)]
      have hnew := hpage.mapAddress_of_eq hmod hlt hv havoidk hp (by omega)
        (hframe.symm ▸ hfree k (by omega)) (hframe.symm ▸ hkept k (by omega))
      have hidx : k = p - virt / 4096 := by omega
      rw [hframe] at hnew
      exact hidx ▸ hnew
    · have hne : p ≠ (virt + k * 4096) / 4096 := by omega
      by_cases hin : virt / 4096 ≤ p ∧ p < virt / 4096 + k
      · rw [if_pos hin] at hpage
        rw [if_pos (by omega)]
        exact hpage.mapAddress_of_ne hmod hlt hv havoidk hp hset hne
      · rw [if_neg hin] at hpage
        rw [if_neg (by omega)]
        exact hpage.mapAddress_of_ne hmod hlt hv havoidk hp hset hne

end mapPages

/-- **The growth of the heap**: the pages that it covers lead to frames that were free. -/
theorem grow {virt n : ℕ} (hp : p < 0x100) (hset : m₀.pmm.isSet p = true)
    (h : LowPage m₀ p f flags m) (hvirt : virt % 4096 = 0) (hend : virt + n * 4096 < 2 ^ 32)
    (hroom : ¬ PagesRefused (rangeFrame (m.pmm.allocateBlocks n).1)
      { m with pmm := (m.pmm.allocateBlocks n).2 } virt n)
    (havoid : PagesAvoidTables (rangeFrame (m.pmm.allocateBlocks n).1)
      { m with pmm := (m.pmm.allocateBlocks n).2 } virt n) :
    ∃ f' flags', LowPage m₀ p f' flags' ({ m with pmm := (m.pmm.allocateBlocks n).2 }.mapPages
        (rangeFrame (m.pmm.allocateBlocks n).1) virt n) ∧
      if virt / 4096 ≤ p ∧ p < virt / 4096 + n then f' ≠ p else f' = f := by
  obtain ⟨-, ha⟩ | ⟨s, q, hs, ha, hmax, hq⟩ := m.pmm.allocateBlocks_cases n
  · rw [ha] at hroom ⊢
    obtain rfl : n = 0 := by
      by_contra hne
      exact hroom (pagesRefused_of_first rfl n (Nat.pos_of_ne_zero hne))
    refine ⟨f, flags, h, ?_⟩
    rw [if_neg (by omega)]
  · rw [ha] at havoid ⊢
    obtain ⟨-, ⟨hle, hclear⟩, -⟩ := Pmm.findFreeBlocks_some hs
    have hmaxle := h.kept.wf.maxBlocks_le
    have hmono : ∀ b, m.pmm.isSet b = true → q.isSet b = true := fun b hb ↦ by
      rw [hq, hb, Bool.or_true]
    -- the frames were free at the start too, and hold no tables
    have hfree : ∀ i < n, m₀.pmm.isSet (s + i) = false := fun i hi ↦ by
      by_contra hcon
      have hused := h.used _ (eq_true_of_ne_false hcon)
      rw [hclear i hi] at hused
      cases hused
    have hdata : ∀ i < n, HoldsData { m with pmm := q } (s + i) := fun i hi ↦ by
      refine ⟨?_, h.kept.wf.not_isPaging_of_clear (hclear i hi)⟩
      show q.isSet (s + i) = true
      rw [hq, decide_eq_true (by omega), Bool.true_or]
    obtain ⟨-, hpage⟩ := (h.allocate hmax hmono).mapPages_range hp hset hvirt hend (by omega)
      hfree hdata (Nat.le_refl n) havoid
    split_ifs at hpage ⊢ with hin
    · refine ⟨_, _, hpage, fun heq ↦ ?_⟩
      have hnew := hfree (p - virt / 4096) (by omega)
      rw [heq, hset] at hnew
      cases hnew
    · exact ⟨f, flags, hpage, rfl⟩

end LowPage

end Vmm

/-! ## Below the page tables -/

/-- The first pages are mapped over no page table when there is none in the way, and they end in front
of those of the bitmap. -/
theorem Vmm.WF.mapPages_low {m : Vmm} (h : m.WF) (h0 : m.entry 0 ≠ 0) {phys n : ℕ}
    (hphys : phys % 4096 = 0) (hn : n ≤ 0x30) (hpaging : ∀ b, m.IsPaging b → n ≤ b)
    (hne : ∀ i < n, (phys + i * pageSize) % 2 ^ 32 ≠ 0) {k : ℕ} (hk : k ≤ n) :
    m.PagesAvoidTables (rangeFrame phys) 0 k ∧ ¬ PagesRefused (rangeFrame phys) m 0 k ∧
      ∀ b, (m.mapPages (rangeFrame phys) 0 k).IsPaging b → m.IsPaging b := by
  induction k with
  | zero => exact ⟨trivial, id, fun _ ↦ id⟩
  | succ k ih =>
    obtain ⟨havoid, hroom, hback⟩ := ih (Nat.le_of_succ_le hk)
    obtain ⟨hwf, hent, -⟩ := h.mapPages_range phys hphys 0 k
    have hpage : (0 + k * pageSize) % 2 ^ 32 = k * 4096 := by
      rw [pageSize]
      omega
    have hpd : pdIndex (k * 4096) = 0 := by
      rw [pdIndex_eq]
      omega
    have hent' := hent 0 (by decide) h0
    generalize hm' : m.mapPages (rangeFrame phys) 0 k = m' at hwf hent' hback
    have hts : m'.tablesTaken (k * 4096) = [] := tablesTaken_of_ne (hpd ▸ hent')
    have hstep := (hwf.mapAddress_step ((phys + k * pageSize) % 2 ^ 32) (k * 4096) userFlags
      (by rw [pageSize]; omega) (Nat.mod_lt _ (by decide)) (by omega) (by decide) (by decide)).1
    rw [hts] at hstep
    refine ⟨⟨havoid, ?_⟩, ?_, fun b hb ↦ ?_⟩
    · rw [hm', hpage]
      show m'.AvoidsTables (k * 4096)
      rw [AvoidsTables, hts, Nat.mul_div_cancel _ (by decide)]
      refine ⟨fun _ hb ↦ absurd hb List.not_mem_nil, fun hb ↦ ?_, List.not_mem_nil, fun hb ↦ ?_⟩
      · have := hpaging k (hback k hb)
        omega
      · rw [bitmapFrame_iff] at hb
        omega
    · rw [PagesRefused, hm', hpage]
      rintro (hprev | hframe | htable)
      · exact hroom hprev
      · exact hne k hk hframe
      · exact not_tableRefused (hpd ▸ hent') htable
    · rw [mapPages, hm', hpage] at hb
      exact hback b ((hstep.isPaging_cases (by decide) hb).resolve_right List.not_mem_nil)

/-! ## Runs -/

namespace Machine

variable {m₀ : Vmm} {p : ℕ} {s t : Machine} {op : MachineOp}

/-- The operation maps over no page table.  The heap gets its frames, and ends below 4 GiB; everything
else is mapped from 1 MiB on. -/
def MapsApart (s : Machine) (op : MachineOp) : Prop :=
  ∀ l, s.loop op = some l → l.start.PagesAvoidTables l.frame l.virt l.count ∧
    match op with
    | .mallocMorePages _ => ¬ l.Refused ∧ l.virt + l.count * pageSize < 2 ^ 32
    | _ => ∀ i < l.count, 0x100000 ≤ (l.virt + i * pageSize) % 2 ^ 32

/-- The invariant: the page `p` leads to itself as long as the heap does not cover it. -/
structure LowInv (m₀ : Vmm) (p : ℕ) (s : Machine) : Prop where
  aligned : s.heapEnd % 4096 = 0
  page : ∃ f flags, Vmm.LowPage m₀ p f flags s.kernel.vmm ∧ (f = p ↔ s.heapEnd ≤ p * 4096)

/-- Only the growth of the heap moves its end. -/
theorem step_heapEnd (hop : ∀ size, op ≠ .mallocMorePages size) {r : Option ℤ}
    (h : s.step op = some (r, t)) : t.heapEnd = s.heapEnd := by
  cases op with
  | sysOpen inode flags =>
    rw [step] at h
    split at h
    · cases h; rfl
    · obtain ⟨d, -, heq⟩ := Option.map_eq_some_iff.mp h
      cases heq
      rfl
  | sysWrite fileDescriptor length =>
    rw [step] at h
    dsimp only at h
    split_ifs at h <;> (cases h; rfl)
  | mallocMorePages size => exact absurd rfl (hop size)
  | exec => cases h; rfl
  | pageFault => cases h; rfl
  | store virt value =>
    obtain ⟨p, -, heq⟩ := Option.map_eq_some_iff.mp h
    cases heq
    rfl

theorem loop_mallocMorePages (s : Machine) (size : BitVec 32) :
    s.loop (.mallocMorePages size) = some
      ⟨Vmm.rangeFrame (s.kernel.vmm.pmm.allocateBlocks (mallocPages size.toNat)).1,
        { s.kernel.vmm with
          pmm := (s.kernel.vmm.pmm.allocateBlocks (mallocPages size.toNat)).2 },
        s.heapEnd, mallocPages size.toNat⟩ := rfl

theorem next_mallocMorePages (s : Machine) (size : BitVec 32) :
    ∃ t, s.next (.mallocMorePages size) = some t ∧
      t.heapEnd = (s.heapEnd + mallocPages size.toNat * pageSize) % 2 ^ 32 ∧
      t.userStack = s.userStack := ⟨_, rfl, rfl, rfl⟩

/-- The other loops take one frame after the other. -/
theorem loop_fresh (hop : ∀ size, op ≠ .mallocMorePages size) {l : MapLoop}
    (hl : s.loop op = some l) (hapart : s.MapsApart op) :
    l.frame = Vmm.freshFrame ∧ l.start = s.kernel.vmm ∧
      ∀ i < l.count, 0x100000 ≤ (l.virt + i * pageSize) % 2 ^ 32 := by
  have hhigh := (hapart l hl).2
  cases op with
  | sysOpen inode flags =>
    rw [loop] at hl
    split_ifs at hl
    cases hl
    exact ⟨rfl, rfl, hhigh⟩
  | sysWrite fileDescriptor length =>
    rw [loop] at hl
    split_ifs at hl
    obtain ⟨bytes, -, rfl⟩ := Option.map_eq_some_iff.mp hl
    exact ⟨rfl, rfl, hhigh⟩
  | mallocMorePages size => exact absurd rfl (hop size)
  | exec => cases hl; exact ⟨rfl, rfl, hhigh⟩
  | pageFault => cases hl; exact ⟨rfl, rfl, hhigh⟩
  | store => cases hl

namespace LowInv

variable (hp : p < 0x100) (hset : m₀.pmm.isSet p = true) (h : LowInv m₀ p s)
include hp hset h

theorem mallocMorePages {size : BitVec 32} (hapart : s.MapsApart (.mallocMorePages size))
    (hnext : s.next (.mallocMorePages size) = some t) : LowInv m₀ p t := by
  obtain ⟨haligned, f, flags, hlow, hf⟩ := h
  obtain ⟨havoid, hroom, hend⟩ := hapart _ rfl
  rw [MapLoop.Refused] at hroom
  dsimp only at havoid hroom hend
  rw [pageSize] at hend
  obtain ⟨f', flags', hlow', hf'⟩ := hlow.grow hp hset haligned hend hroom havoid
  have hheap : t.heapEnd = s.heapEnd + mallocPages size.toNat * 4096 := by
    cases hnext
    exact Nat.mod_eq_of_lt hend
  have hvmm : t.kernel.vmm = { s.kernel.vmm with
      pmm := (s.kernel.vmm.pmm.allocateBlocks (mallocPages size.toNat)).2 }.mapPages
      (Vmm.rangeFrame (s.kernel.vmm.pmm.allocateBlocks (mallocPages size.toNat)).1) s.heapEnd
      (mallocPages size.toNat) := by
    cases hnext
    rfl
  refine ⟨by omega, f', flags', hvmm ▸ hlow', ?_⟩
  rw [hheap]
  split_ifs at hf' with hin
  · exact iff_of_false hf' (by omega)
  · rw [hf', hf]
    omega

theorem other (hop : ∀ size, op ≠ .mallocMorePages size) (hapart : s.MapsApart op)
    (hnext : s.next op = some t) : LowInv m₀ p t := by
  obtain ⟨haligned, f, flags, hlow, hf⟩ := h
  obtain ⟨⟨r, t⟩, hstep, rfl⟩ := Option.map_eq_some_iff.mp hnext
  have hsame := step_vmm hstep
  have hheap := step_heapEnd hop hstep
  have hmapped : Vmm.LowPage m₀ p f flags (s.mapped op) := by
    rw [mapped]
    cases hl : s.loop op with
    | none => exact hlow
    | some l =>
      obtain ⟨havoid, -⟩ := hapart l hl
      obtain ⟨hframe, hstart, hhigh⟩ := loop_fresh hop hl hapart
      rw [Option.map_some, Option.getD_some, MapLoop.run, hframe, hstart]
      rw [hframe, hstart] at havoid
      refine hlow.mapPages_fresh hp hset havoid fun i hi ↦ ?_
      have := hhigh i hi
      omega
  refine ⟨hheap ▸ haligned, f, flags, hmapped.sameTables hp hsame, ?_⟩
  rw [hheap]
  exact hf

theorem step (hapart : s.MapsApart op) (hnext : s.next op = some t) : LowInv m₀ p t := by
  by_cases hop : ∃ size, op = .mallocMorePages size
  · obtain ⟨size, rfl⟩ := hop
    exact h.mallocMorePages hp hset hapart hnext
  · exact h.other hp hset (fun size heq ↦ hop ⟨size, heq⟩) hapart hnext

end LowInv

/-- When the kernel starts, low memory is mapped to itself. -/
theorem lowInv_start (hboot : Booted m₀) (hlow : ∀ b, m₀.IsPaging b → b < 0x100) (hp : p < 0x100)
    (fs : Fs) : LowInv m₀ p (start m₀ fs) := by
  refine ⟨rfl, p, 3, ⟨hboot.tablesKept hlow, fun _ hb ↦ hb, ?_, Or.inl rfl⟩,
    iff_of_true rfl (Nat.zero_le _)⟩
  have hwalk := hboot.walk_low (p * 4096) (by omega)
  rwa [Nat.mul_div_cancel _ (by decide)] at hwalk

theorem LowInv.translate {v : ℕ} (h : LowInv m₀ (v / 4096) s) :
    (s.kernel.vmm.translate v = some v ↔ s.heapEnd ≤ v) ∧
      (v < s.heapEnd → ∃ f, s.kernel.vmm.translate v = some (f * 4096 + v % 4096) ∧
        m₀.pmm.isSet f = false ∧ s.kernel.vmm.HoldsData f) := by
  obtain ⟨haligned, f, flags, hlow, hf⟩ := h
  have htranslate : s.kernel.vmm.translate v = some (f * 4096 + v % 4096) := by
    rw [Vmm.translate, ← Vmm.walk_page (Nat.mul_div_cancel _ (by decide)), hlow.walk]
    rfl
  have hiff : s.heapEnd ≤ v / 4096 * 4096 ↔ s.heapEnd ≤ v := by omega
  rw [hiff] at hf
  refine ⟨?_, fun hv ↦ ⟨f, htranslate, ?_⟩⟩
  · rw [htranslate, ← hf, Option.some_inj]
    omega
  · exact hlow.frame.resolve_left fun heq ↦ absurd (hf.mp heq) (Nat.not_le.mpr hv)

section Run

variable (hboot : Booted m₀) (hlow : ∀ b, m₀.IsPaging b → b < 0x100) (fs : Fs)
  {ops : List MachineOp} (hapart : Run.Meets next MapsApart (start m₀ fs) ops)
  (hrun : Run.exec next (start m₀ fs) ops = some t)
include hboot hlow hapart hrun

theorem lowInv_of_run (hp : p < 0x100) (hset : m₀.pmm.isSet p = true) : LowInv m₀ p t :=
  hapart.invariant (LowInv m₀ p) (fun _ _ _ h hC hnext ↦ h.step hp hset hC hnext)
    (lowInv_start hboot hlow hp fs) hrun

/-- **What the heap has taken over** below 1 MiB: in every run that keeps the page tables and spares
the bitmap, an address that is in use at boot leads to itself exactly from the end of the heap on, and
before it to a frame that was free. -/
theorem translate_low_iff (hkeeps : m₀.KeepsBitmap)
    (hspares : Run.Meets next SparesBitmap (start m₀ fs) ops) {v : ℕ} (hv : v < 0x100000)
    (hset : m₀.pmm.isSet (v / 4096) = true) : Vmm.BitmapKept m₀ t.kernel.vmm ∧
      (t.kernel.vmm.translate v = some v ↔ t.heapEnd ≤ v) ∧
      (v < t.heapEnd → ∃ f, t.kernel.vmm.translate v = some (f * 4096 + v % 4096) ∧
        m₀.pmm.isSet f = false ∧ t.kernel.vmm.HoldsData f) :=
  ⟨bitmapKept_of_run (s := start m₀ fs) hboot.wf hkeeps hspares hrun,
    (lowInv_of_run hboot hlow fs hapart hrun (by omega) hset).translate⟩

end Run

/-! ## On the memory map of a PC -/

theorem start_heapEnd (m : Vmm) (fs : Fs) : (start m fs).heapEnd = 0 := rfl

/-- The first growth of the heap, when it ends below the page tables. -/
theorem mapsApart_of_low (h : s.kernel.vmm.WF) (h0 : s.kernel.vmm.entry 0 ≠ 0)
    (hheap : s.heapEnd = 0) {size : BitVec 32} (hn : mallocPages size.toNat ≤ 0x30)
    (hpaging : ∀ b, s.kernel.vmm.IsPaging b → mallocPages size.toNat ≤ b) {f : ℕ}
    (hfind : s.kernel.vmm.pmm.findFreeBlocks (mallocPages size.toNat) = some f) :
    s.MapsApart (.mallocMorePages size) := by
  intro l hl
  obtain rfl := Option.some.inj ((loop_mallocMorePages s size).symm.trans hl)
  generalize mallocPages size.toNat = n at *
  obtain ⟨hnone, -⟩ | ⟨f', q, hf', ha, hmax, hq⟩ := s.kernel.vmm.pmm.allocateBlocks_cases n
  · rw [hnone] at hfind
    cases hfind
  obtain ⟨-, ⟨hle, hclear⟩, -⟩ := Pmm.findFreeBlocks_some hf'
  have hmaxle := h.maxBlocks_le
  have hpos : f' ≠ 0 := by
    rintro rfl
    have hclear₀ := hclear 0 (Pmm.findFreeBlocks_some hf').1
    rw [h.zero_set] at hclear₀
    cases hclear₀
  have hwf : ({ s.kernel.vmm with pmm := q } : Vmm).WF :=
    h.allocate hmax fun b hb ↦ by rw [hq, hb, Bool.or_true]
  have hframe : ∀ i < n, (f' * blockSize + i * pageSize) % 2 ^ 32 ≠ 0 := fun i hi ↦ by
    rw [blockSize, pageSize]
    omega
  rw [MapLoop.Refused, hheap, ha]
  obtain ⟨havoid, hroom, -⟩ := hwf.mapPages_low h0 (Nat.mul_mod_left ..) hn hpaging hframe
    (Nat.le_refl n)
  refine ⟨havoid, hroom, ?_⟩
  show 0 + n * 4096 < 2 ^ 32
  omega

/-- The heap grows by a few pages. -/
theorem LowMemory.mapsApart {m : Vmm} {top : ℕ} (h : LowMemory top m) (htop : 0x29 ≤ top) (fs : Fs)
    {size : BitVec 32} (hpos : 0 < mallocPages size.toNat) (hle : mallocPages size.toNat ≤ 0x12) :
    (start m fs).MapsApart (.mallocMorePages size) := by
  obtain ⟨f, hfind, -⟩ : ∃ f, m.pmm.findFreeBlocks (mallocPages size.toNat) = some f ∧ f ≤ 0x17 :=
    Pmm.exists_findFreeBlocks hpos ⟨by rw [h.maxBlocks]; omega, fun k hk ↦ by
      rw [h.isSet _ (by omega)]
      exact decide_eq_false (by omega)⟩
  refine mapsApart_of_low h.wf h.entry_zero rfl (by omega) (fun b hb ↦ ?_) hfind
  have := (h.isPaging b).mp hb
  omega

/-- It does not reach the bitmap's pages. -/
theorem sparesBitmap_mallocMorePages (hheap : s.heapEnd = 0) {size : BitVec 32}
    (hle : mallocPages size.toNat ≤ 0x30) : s.SparesBitmap (.mallocMorePages size) where
  stores := fun _ _ _ _ _ heq ↦ by cases heq
  pages := fun l hl i hi ↦ by
    obtain rfl := Option.some.inj ((loop_mallocMorePages s size).symm.trans hl)
    dsimp only at hi ⊢
    rw [hheap, bitmapFrame_iff, pageSize]
    omega

/-- The heap grows by 4 pages: `GDT_ADDRESS` leads to a new frame, and the page behind the heap to
itself. -/
theorem translate_low_lowMemory : ∃ m,
    endOfPrekernel (fun _ ↦ 0) (fun _ ↦ 0) belowBitmapMap = some m ∧ ∀ fs, ∃ t,
      Run.exec next (start m fs) [.mallocMorePages 16384] = some t ∧
      Vmm.BitmapKept m t.kernel.vmm ∧
      (∃ f, t.kernel.vmm.translate 0x1810 = some (f * 4096 + 0x810) ∧ m.pmm.isSet f = false) ∧
      t.kernel.vmm.translate 0x4000 = some 0x4000 := by
  obtain ⟨m, hboot, h, hkeeps⟩ := exists_belowBitmap
  have hpages : mallocPages (16384 : BitVec 32).toNat = 4 := by decide
  have hlow : ∀ b, m.IsPaging b → b < 0x100 := fun b hb ↦ by
    have := (h.isPaging b).mp hb
    omega
  refine ⟨m, hboot, fun fs ↦ ?_⟩
  have hapart : (start m fs).MapsApart (.mallocMorePages 16384) :=
    h.mapsApart (by decide) fs (by rw [hpages]; decide) (by rw [hpages]; decide)
  have hspares : (start m fs).SparesBitmap (.mallocMorePages 16384) :=
    sparesBitmap_mallocMorePages rfl (by rw [hpages]; decide)
  obtain ⟨t, ht, hheap, -⟩ := next_mallocMorePages (start m fs) 16384
  rw [hpages, start_heapEnd, pageSize] at hheap
  have hrun : Run.exec next (start m fs) [.mallocMorePages 16384] = some t := Run.exec_singleton ht
  have hlowIff := fun {v} ↦ @translate_low_iff m t h.toBooted hlow fs [.mallocMorePages 16384]
    ⟨hapart, fun _ _ ↦ trivial⟩ hrun hkeeps ⟨hspares, fun _ _ ↦ trivial⟩ v
  have hset : ∀ b < 0x17, m.pmm.isSet b = true := fun b hb ↦ by
    rw [h.isSet b (by omega)]
    exact decide_eq_true (Or.inl hb)
  obtain ⟨hkept, -, hcovered⟩ := hlowIff (v := 0x1810) (by decide) (hset _ (by decide))
  obtain ⟨f, hf, hfree, -⟩ := hcovered (by rw [hheap]; decide)
  obtain ⟨-, hbehind, -⟩ := hlowIff (v := 0x4000) (by decide) (hset _ (by decide))
  exact ⟨t, hrun, hkept, ⟨f, hf, hfree⟩, hbehind.mpr (by rw [hheap]; decide)⟩

end Machine

end AbOS
