import AbOS.Fs.Layout
import AbOS.Memory.KeptFrames
import AbOS.Memory.PageFault

/-!
# The clients of the memory manager

Heap, files, user stack and page faults all map pages at virtual addresses of their own choice,
while `map_address` reads and writes the directory and the page tables at their physical addresses.
That works as long as each of these frames is mapped to itself (`TablesReachable`).

Each client operation is translated as the allocations and the calls of `map_address` it makes; what
`load_file`, the heap and programs store in their pages are operations of their own.  `heap_end` is
never set by `init_malloc`, so the heap grows from address 0 and can take over the identity page of
a page table (`not_tablesReachable_lowMemory`).  Runs in which no page of a table is mapped over, and
nothing is stored in a table or in the bitmap of the allocator, keep all tables reachable
(`tablesReachable_of_meets`).
-/

set_option autoImplicit false

namespace AbOS

namespace Vmm

/-- A loop of `map_address` calls over the pages from `virt` on; `frame i` supplies the frame for
the `i`-th of them. -/
def mapPages (frame : ℕ → Vmm → ℕ × Vmm) (m : Vmm) (virt : ℕ) : ℕ → Vmm
  | 0 => m
  | i + 1 =>
    let (phys, m) := frame i (mapPages frame m virt i)
    (m.mapAddress phys ((virt + i * pageSize) % 2 ^ 32) userFlags).2

/-- A new frame for each page. -/
def freshFrame (_ : ℕ) (m : Vmm) : ℕ × Vmm := (m.faultFrame, m.afterFrame)

/-- The frames of one allocation at `phys`. -/
def rangeFrame (phys i : ℕ) (m : Vmm) : ℕ × Vmm := ((phys + i * pageSize) % 2 ^ 32, m)

/-- The directory and every page table it refers to are mapped to themselves. -/
def TablesReachable (m : Vmm) : Prop :=
  ∀ b, m.IsPaging b → ∃ flags, m.walk (b * 4096) = some (b * 4096, flags)

/-- Mapping `virt` takes page tables from low memory only, and touches the page neither of the
directory nor of a page table, old or new, nor of the bitmap. -/
def AvoidsTables (m : Vmm) (virt : ℕ) : Prop :=
  (∀ b ∈ (m.tablesTaken virt).map Prod.snd, b < 0x100) ∧ ¬ m.IsPaging (virt / 4096) ∧
    virt / 4096 ∉ (m.tablesTaken virt).map Prod.snd ∧ ¬ BitmapFrame (virt / 4096)

/-- The same for each call of a loop, in the state before the call. -/
def PagesAvoidTables (frame : ℕ → Vmm → ℕ × Vmm) (m : Vmm) (virt : ℕ) : ℕ → Prop
  | 0 => True
  | i + 1 => PagesAvoidTables frame m virt i ∧
    (frame i (mapPages frame m virt i)).2.AvoidsTables ((virt + i * pageSize) % 2 ^ 32)

/-- The page-fault handler is the loop for one page. -/
theorem pageFaultHandler_eq (m : Vmm) {badAddress : ℕ} (h : badAddress < 2 ^ 32) (errorCode : ℕ) :
    m.pageFaultHandler badAddress errorCode = m.mapPages freshFrame badAddress 1 := by
  simp only [mapPages, freshFrame, Nat.zero_mul, Nat.add_zero, Nat.mod_eq_of_lt h]
  rfl

end Vmm

/-- The memory manager and the virtual addresses at which its clients go on. -/
structure Clients where
  vmm : Vmm
  /-- `heap_end`. -/
  heapEnd : ℕ
  /-- `file_virtual_address`. -/
  fileVirtualAddress : ℕ
  /-- `user_stack`. -/
  userStack : ℕ

/-- The operations that map pages, and the stores between them. -/
inductive ClientOp
  /-- `init_malloc`. -/
  | initMalloc
  /-- `malloc_more_pages(size)`. -/
  | mallocMorePages (size : BitVec 32)
  /-- The pages of a file of `bytes` bytes in `sys_open`, or of a growth by so much in `sys_write`. -/
  | filePages (bytes : BitVec 32)
  /-- The stack page that the shell maps before it enters user mode. -/
  | userStack
  /-- `page_fault_handler`. -/
  | pageFault (badAddress : BitVec 32) (errorCode : BitVec 32)
  /-- A store to a present page: by `load_file`, by the heap or by a program. -/
  | store (virt : BitVec 32) (value : UInt8)

/-- `malloc_start`. -/
def mallocStart : ℕ := 0x400000

/-- `total_malloc_pages` in `malloc_more_pages`. -/
def mallocPages (size : ℕ) : ℕ :=
  if size % pageSize > 0 then size / pageSize + 1 else size / pageSize

/-- The pages of a file or of a growth: at least one. -/
def filePageCount (bytes : ℕ) : ℕ := if bytesToBlocks bytes = 0 then 1 else bytesToBlocks bytes

namespace Clients

/-- When the kernel starts; `main` sets `file_virtual_address` before any file is opened. -/
def start (m : Vmm) : Clients := ⟨m, 0, 0x40000000, 0xB0000000⟩

/-- The memory after one operation. -/
def step (s : Clients) : ClientOp → Option Clients
  | .initMalloc => some { s with vmm := s.vmm.mapPages Vmm.freshFrame mallocStart 1 }
  | .mallocMorePages size =>
    let n := mallocPages size.toNat
    let (phys, pmm) := s.vmm.pmm.allocateBlocks n
    some { s with
      vmm := { s.vmm with pmm }.mapPages (Vmm.rangeFrame phys) s.heapEnd n
      heapEnd := (s.heapEnd + n * pageSize) % 2 ^ 32 }
  | .filePages bytes =>
    let n := filePageCount bytes.toNat
    some { s with
      vmm := s.vmm.mapPages Vmm.freshFrame s.fileVirtualAddress n
      fileVirtualAddress := (s.fileVirtualAddress + n * pageSize) % 2 ^ 32 }
  | .userStack =>
    let stack := (s.userStack + pageSize) % 2 ^ 32
    some { s with vmm := s.vmm.mapPages Vmm.freshFrame stack 1, userStack := stack }
  | .pageFault badAddress errorCode =>
    some { s with vmm := s.vmm.pageFaultHandler badAddress.toNat errorCode.toNat }
  | .store virt value =>
    (s.vmm.translate virt.toNat).map fun p ↦ { s with vmm := s.vmm.setRam p value }

/-- No page the operation maps is that of the directory, of a page table or of the bitmap, and it
stores nothing in one of them. -/
def Avoids (s : Clients) : ClientOp → Prop
  | .initMalloc => s.vmm.PagesAvoidTables Vmm.freshFrame mallocStart 1
  | .mallocMorePages size =>
    let n := mallocPages size.toNat
    { s.vmm with pmm := (s.vmm.pmm.allocateBlocks n).2 }.PagesAvoidTables
      (Vmm.rangeFrame (s.vmm.pmm.allocateBlocks n).1) s.heapEnd n
  | .filePages bytes =>
    s.vmm.PagesAvoidTables Vmm.freshFrame s.fileVirtualAddress (filePageCount bytes.toNat)
  | .userStack => s.vmm.PagesAvoidTables Vmm.freshFrame ((s.userStack + pageSize) % 2 ^ 32) 1
  | .pageFault badAddress _ => s.vmm.PagesAvoidTables Vmm.freshFrame badAddress.toNat 1
  | .store virt _ => ∀ p, s.vmm.translate virt.toNat = some p →
    ¬ s.vmm.IsPaging (p / 4096) ∧ ¬ BitmapFrame (p / 4096)

end Clients

/-! ## One mapping -/

namespace Vmm

variable {m m' : Vmm}

/-- Page tables are taken lowest frame first. -/
theorem isSet_below_tablesTakenFuel : ∀ (fuel : ℕ) {p : ℕ → Bool} {pmm : Pmm} {i b c : ℕ},
    b ∈ (tablesTakenFuel fuel p pmm i).map Prod.snd → c < b →
      pmm.isSet c = true ∨ c ∈ (tablesTakenFuel fuel p pmm i).map Prod.snd
  | 0, _, _, _, _, _, hb, _ => absurd hb (by simp [tablesTakenFuel])
  | fuel + 1, p, pmm, i, b, c, hb, hc => by
    rw [tablesTakenFuel] at hb ⊢
    split at hb
    · exact absurd hb (by simp)
    · rename_i hp
      rw [if_neg hp]
      split at hb
      · exact absurd hb (by simp)
      · rename_i b₀ hfind
        obtain ⟨-, -, hbelow⟩ := Pmm.findFreeBlocks_one_lt hfind
        obtain ⟨-, -, hset⟩ := Pmm.allocateBlocks_one hfind
        rw [List.map_cons, List.mem_cons] at hb ⊢
        rcases hb with rfl | hb
        · exact Or.inl (hbelow c hc)
        · rcases isSet_below_tablesTakenFuel fuel hb hc with hsc | hmem
          · rw [hset, Bool.or_eq_true, decide_eq_true_eq] at hsc
            exact hsc.elim (fun h ↦ Or.inr (Or.inl h)) Or.inl
          · exact Or.inr (Or.inr hmem)

/-- The invariant: the tables are low, reachable through the identity mapping of low memory, and
have no free frame in front of them, so that no clearing of a new table reaches them. -/
structure TablesKept (m : Vmm) : Prop where
  wf : m.WF
  entry_zero : m.entry 0 ≠ 0
  low : ∀ b, m.IsPaging b → b < 0x100
  before : ∀ b, m.IsPaging b → m.pmm.isSet (b - 1) = true
  reachable : m.TablesReachable

/-- Allocating keeps the tables. -/
theorem TablesKept.allocate (h : m.TablesKept) {q : Pmm} (hmax : q.maxBlocks = m.pmm.maxBlocks)
    (hset : ∀ b, m.pmm.isSet b = true → q.isSet b = true) :
    ({ m with pmm := q } : Vmm).TablesKept where
  wf := h.wf.allocate hmax hset
  entry_zero := h.entry_zero
  low := h.low
  before := fun b hb ↦ hset _ (h.before b hb)
  reachable := h.reachable

/-- The clearing of a new table does not reach the table of low memory. -/
theorem TablesKept.not_cleared (h : m.TablesKept) {flags v : ℕ} {ts E : List (ℕ × ℕ)}
    (hstep : MapStep m flags ts E m') (hf : flags < 4096) (hpd : pdIndex v = 0) :
    ¬ Cleared ts flags (m.getPage v) := by
  rintro ⟨⟨i, b⟩, ht, h1, h2⟩
  simp only at h1 h2
  have hclear := (hstep.fresh i b ht).2.2.2.2
  have hpaging : m.IsPaging (m.table 0 / 4096) :=
    Or.inr ⟨0, by omega, h.entry_zero, (m.table_div 0).symm⟩
  have hdiv := m.getPage_div v (k := 0) (by omega)
  rw [hpd] at hdiv
  have hset := h.wf.isSet_of_isPaging hpaging
  have hbefore := h.before _ hpaging
  rcases (show m.table 0 / 4096 = b ∨ m.table 0 / 4096 - 1 = b by omega) with hb | hb
  · rw [hb, hclear] at hset; exact absurd hset (by simp)
  · rw [hb, hclear] at hbefore; exact absurd hbefore (by simp)

/-- **One mapping keeps the tables** when it avoids them. -/
theorem TablesKept.mapAddress (h : m.TablesKept) {phys virt : ℕ} (hp : phys % 4096 = 0)
    (hplt : phys < 2 ^ 32) (hv : virt < 2 ^ 32) (havoid : m.AvoidsTables virt) :
    (m.mapAddress phys virt userFlags).2.TablesKept := by
  obtain ⟨hlow, hpage, hnew, -⟩ := havoid
  have hstep := (h.wf.mapAddress_step phys virt userFlags hp hplt hv (by decide) (by decide)).1
  generalize (m.mapAddress phys virt userFlags).2 = m' at hstep
  have hcases := fun b hb ↦ hstep.isPaging_cases (b := b) (by decide) hb
  have hzero := hstep.entry_ne (by omega) h.entry_zero
  have hpd : ∀ b, b < 0x100 → pdIndex (b * 4096) = 0 := fun b hb ↦ by rw [pdIndex_eq]; omega
  refine ⟨hstep.wf, hzero, fun b hb ↦ ?_, fun b hb ↦ ?_, fun b hb ↦ ?_⟩
  · exact (hcases b hb).elim (h.low b) (hlow b)
  · rcases hcases b hb with hb | hb
    · rw [hstep.isSet, h.before b hb, Bool.or_true]
    · -- the frames below a new table were in use or have been taken before it
      obtain ⟨⟨i, b'⟩, ht, hbb⟩ := List.mem_map.mp hb
      have hpos := (hstep.fresh i b' ht).2.2.1
      simp only at hbb
      rw [hstep.isSet, Bool.or_eq_true, decide_eq_true_eq]
      exact (isSet_below_tablesTakenFuel _ hb (by omega)).symm
  · rcases hcases b hb with hb | hb
    · -- an old table: its identity entry is neither stored nor cleared
      have hlt := h.low b hb
      obtain ⟨flags, hwalk⟩ := h.reachable b hb
      have hother : Other (m.tablesTaken virt) virt (b * 4096 / 4096) := by
        rw [Nat.mul_div_cancel _ (by omega)]
        refine ⟨fun heq ↦ hpage (heq ▸ hb), fun hmem ↦ ?_⟩
        have hset := h.wf.isSet_of_isPaging hb
        rw [((hstep.taken_iff b).mpr hmem).1] at hset
        exact absurd hset (by simp)
      have hkept := hstep.walk_old_iff h.wf (by decide) (v := b * 4096) (by omega)
        (lookup_eq_none_iff.mpr hother) (by rw [hpd b hlt]; exact h.entry_zero)
      have hclear := h.not_cleared hstep (by decide) (hpd b hlt)
      exact ⟨flags, (hkept.mpr fun hc ↦ absurd hc hclear).trans hwalk⟩
    · have hne : b ≠ virt / 4096 := fun heq ↦ hnew (heq ▸ hb)
      exact ⟨_, hstep.walk_identity h.wf.maxBlocks_le (by decide) (by decide) hb hne
        (by rwa [hpd b (hlow b hb)])⟩

/-- **A loop of mappings keeps the tables** when each of them avoids them. -/
theorem TablesKept.mapPages {frame : ℕ → Vmm → ℕ × Vmm}
    (hframe : ∀ i m, m.TablesKept → (frame i m).2.TablesKept ∧ (frame i m).1 % 4096 = 0 ∧
      (frame i m).1 < 2 ^ 32) (h : m.TablesKept) (virt : ℕ) : ∀ (n : ℕ),
    m.PagesAvoidTables frame virt n → (m.mapPages frame virt n).TablesKept
  | 0, _ => h
  | n + 1, ⟨havoid, hlast⟩ => by
    obtain ⟨hkept, hp, hplt⟩ := hframe n _ (h.mapPages hframe virt n havoid)
    exact hkept.mapAddress hp hplt (Nat.mod_lt _ (by omega)) hlast

theorem TablesKept.allocateBlocks (h : m.TablesKept) (n : ℕ) :
    ({ m with pmm := (m.pmm.allocateBlocks n).2 } : Vmm).TablesKept :=
  h.allocate (m.pmm.allocateBlocks_maxBlocks n) fun _ hb ↦ Pmm.isSet_allocateBlocks hb n

theorem allocateBlocks_aligned (p : Pmm) (n : ℕ) : (p.allocateBlocks n).1 % 4096 = 0 := by
  obtain ⟨s, hs, -⟩ := p.allocateBlocks_fst n
  rw [hs, blockSize]
  omega

/-- Taking a frame for a page. -/
theorem TablesKept.freshFrame (i : ℕ) (m : Vmm) (h : m.TablesKept) :
    (Vmm.freshFrame i m).2.TablesKept ∧ (Vmm.freshFrame i m).1 % 4096 = 0 ∧
      (Vmm.freshFrame i m).1 < 2 ^ 32 := by
  refine ⟨h.allocateBlocks 1, allocateBlocks_aligned m.pmm 1, ?_⟩
  have hmax := h.wf.maxBlocks_le
  obtain ⟨s, hs, hle⟩ := m.pmm.allocateBlocks_fst 1
  rw [Vmm.freshFrame, faultFrame, hs, blockSize]
  omega

theorem TablesKept.rangeFrame {phys : ℕ} (hp : phys % 4096 = 0) (i : ℕ) (m : Vmm)
    (h : m.TablesKept) : (Vmm.rangeFrame phys i m).2.TablesKept ∧
      (Vmm.rangeFrame phys i m).1 % 4096 = 0 ∧ (Vmm.rangeFrame phys i m).1 < 2 ^ 32 := by
  refine ⟨h, ?_, Nat.mod_lt _ (by omega)⟩
  rw [Vmm.rangeFrame, pageSize]
  simp only
  omega

/-- Stores of data keep the tables. -/
theorem TablesKept.sameTables (h : m.TablesKept) (hsame : SameTables m m') : m'.TablesKept := by
  have hdir := h.wf.dir_mod
  have hpaging : ∀ b, m'.IsPaging b ↔ m.IsPaging b := fun _ ↦ hsame.isPaging_iff hdir
  refine ⟨hsame.wf hdir h.wf, ?_, fun b hb ↦ h.low b ((hpaging b).mp hb), fun b hb ↦ ?_,
    fun b hb ↦ ?_⟩
  · rw [hsame.entry hdir (by decide)]
    exact h.entry_zero
  · rw [hsame.pmm]
    exact h.before b ((hpaging b).mp hb)
  · have hlow := h.low b ((hpaging b).mp hb)
    rw [hsame.walk hdir (by omega)]
    exact h.reachable b ((hpaging b).mp hb)

/-- A loop over the frames of one allocation only adds to the directory, whatever it maps over. -/
theorem WF.mapPages_range (h : m.WF) (phys : ℕ) (hp : phys % 4096 = 0) (virt : ℕ) : ∀ (n : ℕ),
    (m.mapPages (Vmm.rangeFrame phys) virt n).WF ∧
      (∀ i, i < 1024 → m.entry i ≠ 0 → (m.mapPages (Vmm.rangeFrame phys) virt n).entry i ≠ 0) ∧
      ∀ b, m.IsPaging b → (m.mapPages (Vmm.rangeFrame phys) virt n).IsPaging b
  | 0 => ⟨h, fun _ _ hne ↦ hne, fun _ hb ↦ hb⟩
  | n + 1 => by
    obtain ⟨hwf, hent, hpaging⟩ := h.mapPages_range phys hp virt n
    have hstep := (hwf.mapAddress_step ((phys + n * pageSize) % 2 ^ 32)
      ((virt + n * pageSize) % 2 ^ 32) userFlags (by rw [pageSize]; omega)
      (Nat.mod_lt _ (by omega)) (Nat.mod_lt _ (by omega)) (by decide) (by decide)).1
    exact ⟨hstep.wf, fun i hi hne ↦ hstep.entry_ne hi (hent i hi hne),
      fun b hb ↦ hstep.isPaging_mono (hpaging b hb)⟩

/-! ## Loops and frames of data -/

/-- What a loop gets its frames from: nothing changes but the bitmap, in which no bit is cleared. -/
structure FrameSource (frame : ℕ → Vmm → ℕ × Vmm) : Prop where
  wf : ∀ i m, m.WF → (frame i m).2.WF
  same : ∀ i m, ∃ q : Pmm, (frame i m).2 = { m with pmm := q } ∧
    ∀ b, m.pmm.isSet b = true → q.isSet b = true
  aligned : ∀ i m, (frame i m).1 % 4096 = 0
  lt : ∀ i m, m.WF → (frame i m).1 < 2 ^ 32

theorem frameSource_fresh : FrameSource freshFrame where
  wf := fun _ m hm ↦ hm.allocate m.afterFrame_maxBlocks fun _ hb ↦ Pmm.isSet_allocateBlocks hb 1
  same := fun _ _ ↦ ⟨_, rfl, fun _ hb ↦ Pmm.isSet_allocateBlocks hb 1⟩
  aligned := fun _ m ↦ allocateBlocks_aligned m.pmm 1
  lt := fun _ m hm ↦ by
    have hmax := hm.maxBlocks_le
    obtain ⟨s, hs, hle⟩ := m.pmm.allocateBlocks_fst 1
    rw [freshFrame, faultFrame, hs, blockSize]
    omega

theorem frameSource_range {phys : ℕ} (hp : phys % 4096 = 0) : FrameSource (rangeFrame phys) where
  wf := fun _ _ hm ↦ hm
  same := fun _ m ↦ ⟨m.pmm, rfl, fun _ hb ↦ hb⟩
  aligned := fun i _ ↦ by
    show (phys + i * pageSize) % 2 ^ 32 % 4096 = 0
    rw [pageSize]
    omega
  lt := fun _ _ _ ↦ Nat.mod_lt _ (by decide)

/-- A loop of mappings, and a frame of data. -/
theorem WF.mapPages_keepsFrame {frame : ℕ → Vmm → ℕ × Vmm} (hframe : FrameSource frame) {b : ℕ}
    (h : m.WF) (hdata : m.HoldsData b) (virt n : ℕ) :
    (m.mapPages frame virt n).WF ∧ KeepsFrame b m (m.mapPages frame virt n) := by
  induction n with
  | zero => exact ⟨h, KeepsFrame.refl hdata⟩
  | succ n ih =>
    obtain ⟨hwf, hprev⟩ := ih
    have hwf' := hframe.wf n _ hwf
    have hv : (virt + n * pageSize) % 2 ^ 32 < 2 ^ 32 := Nat.mod_lt _ (by decide)
    have haligned := hframe.aligned n (m.mapPages frame virt n)
    have hlt := hframe.lt n _ hwf
    obtain ⟨q, hq, hset⟩ := hframe.same n (m.mapPages frame virt n)
    have hafter := KeepsFrame.allocate hprev.data hset
    rw [← hq] at hafter
    exact ⟨(hwf'.mapAddress_step _ _ userFlags haligned hlt hv (by decide) (by decide)).1.wf,
      hprev.trans (hafter.trans (hwf'.mapAddress_keepsFrame hafter.data haligned hlt hv))⟩

theorem WF.mapPages_bitmapKept {frame : ℕ → Vmm → ℕ × Vmm} (hframe : FrameSource frame)
    (h : m.WF) (hkeeps : m.KeepsBitmap) {virt n : ℕ}
    (hother : ∀ i < n, ¬ BitmapFrame ((virt + i * pageSize) % 2 ^ 32 / 4096)) :
    (m.mapPages frame virt n).WF ∧ BitmapKept m (m.mapPages frame virt n) := by
  induction n with
  | zero => exact ⟨h, BitmapKept.refl hkeeps⟩
  | succ n ih =>
    obtain ⟨hwf, hprev⟩ := ih fun i hi ↦ hother i (Nat.lt_succ_of_lt hi)
    have hwf' := hframe.wf n _ hwf
    have hv : (virt + n * pageSize) % 2 ^ 32 < 2 ^ 32 := Nat.mod_lt _ (by decide)
    have haligned := hframe.aligned n (m.mapPages frame virt n)
    have hlt := hframe.lt n _ hwf
    obtain ⟨q, hq, hset⟩ := hframe.same n (m.mapPages frame virt n)
    have hafter := hprev.keeps.allocate hset
    rw [← hq] at hafter
    exact ⟨(hwf'.mapAddress_step _ _ userFlags haligned hlt hv (by decide) (by decide)).1.wf,
      hprev.trans (hafter.trans (hwf'.mapAddress_bitmapKept hafter.keeps haligned hlt hv
        (hother n (Nat.lt_succ_self n))))⟩

theorem PagesAvoidTables.not_bitmapFrame {frame : ℕ → Vmm → ℕ × Vmm} {virt n : ℕ}
    (h : m.PagesAvoidTables frame virt n) :
    ∀ i < n, ¬ BitmapFrame ((virt + i * pageSize) % 2 ^ 32 / 4096) := by
  induction n with
  | zero => exact fun i hi ↦ absurd hi (Nat.not_lt_zero i)
  | succ n ih =>
    intro i hi
    rcases Nat.lt_succ_iff_lt_or_eq.mp hi with hi | rfl
    · exact ih h.1 i hi
    · exact h.2.2.2.2

end Vmm

theorem Booted.tablesKept {m : Vmm} (h : Booted m) (hlow : ∀ b, m.IsPaging b → b < 0x100) :
    m.TablesKept where
  wf := h.wf
  entry_zero := h.entry_zero
  low := hlow
  before := h.before
  reachable := fun b hb ↦ by
    have hlt := hlow b hb
    have hwalk := h.walk_low (b * 4096) (by omega)
    rw [Nat.mul_div_cancel _ (by omega)] at hwalk
    exact ⟨3, hwalk⟩

namespace Clients

/-- Every operation that avoids the tables keeps them. -/
theorem tablesKept_step {s t : Clients} {op : ClientOp} (h : s.vmm.TablesKept)
    (havoid : s.Avoids op) (hstep : s.step op = some t) : t.vmm.TablesKept := by
  cases op with
  | initMalloc =>
    cases hstep
    exact h.mapPages Vmm.TablesKept.freshFrame _ _ havoid
  | mallocMorePages size =>
    cases hstep
    simp only [Avoids] at havoid
    exact (h.allocateBlocks _).mapPages
      (Vmm.TablesKept.rangeFrame (Vmm.allocateBlocks_aligned s.vmm.pmm _)) _ _ havoid
  | filePages bytes =>
    cases hstep
    exact h.mapPages Vmm.TablesKept.freshFrame _ _ havoid
  | userStack =>
    cases hstep
    exact h.mapPages Vmm.TablesKept.freshFrame _ _ havoid
  | pageFault badAddress errorCode =>
    cases hstep
    show (s.vmm.pageFaultHandler badAddress.toNat errorCode.toNat).TablesKept
    rw [Vmm.pageFaultHandler_eq _ badAddress.isLt]
    exact h.mapPages Vmm.TablesKept.freshFrame _ _ havoid
  | store virt value =>
    obtain ⟨p, hp, rfl⟩ := Option.map_eq_some_iff.mp hstep
    exact h.sameTables (Vmm.sameTables_setRam (havoid p hp).1 value)

/-- Every operation that avoids the tables leaves the bitmap to the allocator. -/
theorem bitmapKept_step {s t : Clients} {op : ClientOp} (h : s.vmm.WF) (hkeeps : s.vmm.KeepsBitmap)
    (havoid : s.Avoids op) (hstep : s.step op = some t) : Vmm.BitmapKept s.vmm t.vmm := by
  have hfresh := fun {virt n} (hn : s.vmm.PagesAvoidTables Vmm.freshFrame virt n) ↦
    (h.mapPages_bitmapKept Vmm.frameSource_fresh hkeeps hn.not_bitmapFrame).2
  cases op with
  | initMalloc => cases hstep; exact hfresh havoid
  | mallocMorePages size =>
    cases hstep
    have hset : ∀ b, s.vmm.pmm.isSet b = true →
        (s.vmm.pmm.allocateBlocks (mallocPages size.toNat)).2.isSet b = true :=
      fun _ hb ↦ Pmm.isSet_allocateBlocks hb _
    have hfirst := hkeeps.allocate hset
    exact hfirst.trans ((h.allocate (Pmm.allocateBlocks_maxBlocks ..) hset).mapPages_bitmapKept
      (Vmm.frameSource_range (Vmm.allocateBlocks_aligned ..)) hfirst.keeps
      (Vmm.PagesAvoidTables.not_bitmapFrame havoid)).2
  | filePages bytes => cases hstep; exact hfresh havoid
  | userStack => cases hstep; exact hfresh havoid
  | pageFault badAddress errorCode =>
    cases hstep
    show Vmm.BitmapKept s.vmm (s.vmm.pageFaultHandler badAddress.toNat errorCode.toNat)
    rw [Vmm.pageFaultHandler_eq _ badAddress.isLt]
    exact hfresh havoid
  | store virt value =>
    obtain ⟨p, hp, rfl⟩ := Option.map_eq_some_iff.mp hstep
    exact h.setRam_bitmapKept hkeeps (havoid p hp).1 (havoid p hp).2 value

/-- **Page tables stay reachable** in every run whose operations map over none of them, on a memory
map that leaves the bitmap to the allocator. -/
theorem tablesReachable_of_meets {ram : ByteStore} {memory : ℕ → BitVec 32}
    {entries : List SmapEntry} {m₀ : Vmm} (hboot : endOfPrekernel ram memory entries = some m₀)
    (hmap : ∀ e ∈ entries, ∀ b, 0x2F ≤ b → b < 0x50 → ¬ e.Frees b)
    (hlow : ∀ b, m₀.IsPaging b → b < 0x100) {ops : List ClientOp} {s : Clients}
    (hmeets : Run.Meets step Avoids (start m₀) ops) (hrun : Run.exec step (start m₀) ops = some s) :
    s.vmm.TablesReachable ∧ Vmm.BitmapKept m₀ s.vmm := by
  obtain ⟨hkept, hbitmap⟩ := hmeets.invariant
    (fun s : Clients ↦ s.vmm.TablesKept ∧ Vmm.BitmapKept m₀ s.vmm)
    (fun s op t hs havoid hstep ↦ ⟨tablesKept_step hs.1 havoid hstep,
      hs.2.trans (bitmapKept_step hs.1.wf hs.2.keeps havoid hstep)⟩)
    ⟨(endOfPrekernel_spec hboot).tablesKept hlow,
      Vmm.BitmapKept.refl (endOfPrekernel_keepsBitmap hboot hmap)⟩ hrun
  exact ⟨hkept.reachable, hbitmap⟩

/-! ## On the memory map of a PC -/

section LowMemory

variable {m : Vmm} {top : ℕ} (htop : 0x20 ≤ top) (hmax : m.pmm.maxBlocks = 0xFFFFF)
  (hset : ∀ b, b < 0xFFFFF → m.pmm.isSet b = decide (b < 0x17 ∨ top ≤ b))
include htop hmax hset

theorem lowMemory_isSet_afterFrame {b : ℕ} (hb : b < 0xFFFFF) :
    m.afterFrame.pmm.isSet b = decide (b < 0x18 ∨ top ≤ b) := by
  have hfind : m.pmm.findFreeBlocks 1 = some 0x17 :=
    Pmm.findFreeBlocks_one_eq (by omega)
      (by rw [hset _ (by omega)]; exact decide_eq_false (by omega)) fun c hc ↦ by
      rw [hset c (by omega)]; simp; omega
  obtain ⟨-, -, hq⟩ := Pmm.allocateBlocks_one hfind
  rw [Vmm.afterFrame, hq, hset b hb, ← Bool.decide_or]
  exact decide_eq_decide.mpr (by omega)

/-- The heap's page at `0x400000` needs one page table, in frame `0x18`. -/
theorem lowMemory_tablesTaken (h0 : m.entry 0 ≠ 0) (h1 : m.entry 1 = 0) :
    m.afterFrame.tablesTaken mallocStart = [(1, 0x18)] := by
  have hqset := fun b hb ↦ lowMemory_isSet_afterFrame htop hmax hset (b := b) hb
  have hqmax : m.afterFrame.pmm.maxBlocks = 1048574 + 1 := m.afterFrame_maxBlocks.trans hmax
  have hfind : m.afterFrame.pmm.findFreeBlocks 1 = some 0x18 :=
    Pmm.findFreeBlocks_one_eq (by omega)
      (by rw [hqset _ (by omega)]; exact decide_eq_false (by omega)) fun c hc ↦ by
      rw [hqset c (by omega)]; simp; omega
  have hpd : pdIndex mallocStart = 1 ∧ pdIndex (0x18 * blockSize) = 0 := by decide
  rw [Vmm.tablesTaken, hpd.1, Vmm.tablesTakenFuel_take _ (by simp [Vmm.afterFrame_entry, h1]) hfind,
    hpd.2, hqmax, Vmm.tablesTakenFuel, if_pos (by simp [Vmm.afterFrame_entry, h0])]

end LowMemory

/-- The heap's first page avoids the tables. -/
theorem lowMemory_avoids {m : Vmm} {top : ℕ} (htop : 0x20 ≤ top)
    (hmax : m.pmm.maxBlocks = 0xFFFFF)
    (hset : ∀ b, b < 0xFFFFF → m.pmm.isSet b = decide (b < 0x17 ∨ top ≤ b))
    (hpaging : ∀ b, m.IsPaging b ↔ b = 0x14 ∨ b = 0x13 ∨ b = 0x12) (h0 : m.entry 0 ≠ 0)
    (h1 : m.entry 1 = 0) : (start m).Avoids .initMalloc := by
  have hpages : m.afterFrame.AvoidsTables mallocStart := by
    rw [Vmm.AvoidsTables, lowMemory_tablesTaken htop hmax hset h0 h1]
    refine ⟨by decide, fun hp ↦ ?_, by decide, by decide⟩
    have := (hpaging _).mp hp
    exact absurd this (by decide)
  exact ⟨trivial, hpages⟩

/-- The heap gets its first page, and a byte is stored in it. -/
theorem tablesReachable_initMalloc :
    ∃ m s, endOfPrekernel (fun _ ↦ 0) (fun _ ↦ 0) belowBitmapMap = some m ∧
      Run.exec step (start m) [.initMalloc, .store 0x400000 1] = some s ∧
      s.vmm.TablesReachable ∧ Vmm.BitmapKept m s.vmm := by
  obtain ⟨m, hboot, -, hmax, hpaging, hset, hent⟩ := exists_endOfPrekernel_belowBitmap
  have h0 := (endOfPrekernel_spec hboot).entry_zero
  have h1 := hent 1 (by omega) (by omega)
  have hlow : ∀ b, m.IsPaging b → b < 0x100 := fun b hb ↦ by have := (hpaging b).mp hb; omega
  have havoid := lowMemory_avoids (by decide) hmax hset hpaging h0 h1
  -- the page leads to frame `0x17`
  have hfind : m.pmm.findFreeBlocks 1 = some 0x17 :=
    Pmm.findFreeBlocks_one_eq (by omega) (by rw [hset _ (by omega)]; rfl) fun c hc ↦ by
      rw [hset c (by omega)]; simp; omega
  have hframe : m.faultFrame = 0x17 * 4096 := (Pmm.allocateBlocks_one hfind).1
  have hsource := Vmm.frameSource_fresh
  have hstep := ((hsource.wf 0 m (endOfPrekernel_spec hboot).wf).mapAddress_step m.faultFrame
    ((mallocStart + 0 * pageSize) % 2 ^ 32) userFlags (hsource.aligned 0 m)
    (hsource.lt 0 m (endOfPrekernel_spec hboot).wf) (by decide) (by decide) (by decide)).1
  have hts := lowMemory_tablesTaken (by decide) hmax hset h0 h1
  replace hstep : Vmm.MapStep m.afterFrame userFlags [(1, 0x18)] _
    (m.mapPages Vmm.freshFrame mallocStart 1) := hts ▸ hstep
  have htranslate : (m.mapPages Vmm.freshFrame mallocStart 1).translate 0x400000 =
      some (0x17 * 4096) := by
    have hentry := hstep.entry_new 1 0x18 (List.mem_singleton_self _)
    have hwalk := hstep.walk_virt (by decide) (hsource.aligned 0 m) (by decide) (by decide)
      (show (m.mapPages Vmm.freshFrame mallocStart 1).entry 1 ≠ 0 by rw [hentry]; decide)
    rw [Vmm.translate]
    exact (congrArg (Option.map _) hwalk).trans (by rw [hframe]; rfl)
  have hdata : ¬ (m.mapPages Vmm.freshFrame mallocStart 1).IsPaging 0x17 := fun hp ↦ by
    rcases hstep.isPaging_cases (by decide) hp with hp | hp
    · exact absurd ((hpaging 0x17).mp hp) (by decide)
    · exact absurd (List.mem_singleton.mp hp) (by decide : (0x17 : ℕ) ≠ 0x18)
  obtain ⟨u, hu, hvmm⟩ : ∃ u, (start m).step .initMalloc = some u ∧
      u.vmm = m.mapPages Vmm.freshFrame mallocStart 1 := ⟨_, rfl, rfl⟩
  obtain ⟨s, hs⟩ : ∃ s, u.step (.store 0x400000 1) = some s := by
    rw [step, hvmm]
    exact ⟨_, congrArg (Option.map _) htranslate⟩
  have hrun : Run.exec step (start m) [.initMalloc, .store 0x400000 1] = some s :=
    Run.exec_cons.mpr ⟨u, hu, Run.exec_singleton hs⟩
  have hmeets : Run.Meets step Avoids (start m) [.initMalloc, .store 0x400000 1] := by
    refine ⟨havoid, fun v hv ↦ ⟨fun p hp ↦ ?_, fun _ _ ↦ trivial⟩⟩
    obtain rfl := Option.some.inj (hu.symm.trans hv)
    rw [hvmm] at hp ⊢
    obtain rfl := Option.some.inj (htranslate.symm.trans hp)
    exact ⟨hdata, by decide⟩
  refine ⟨m, s, hboot, hrun, tablesReachable_of_meets hboot (fun e he b hb _ hf ↦ ?_) hlow hmeets
    hrun⟩
  obtain rfl := List.mem_singleton.mp he
  exact absurd (lt_of_le_of_lt hb hf.2.2) (by decide)

/-- After `init_malloc` the first growth of the heap by 19 pages starts at address 0 and takes over
the page of the page table in frame `0x12`. -/
theorem not_tablesReachable_lowMemory :
    ∃ m s, endOfPrekernel (fun _ ↦ 0) (fun _ ↦ 0) lowMemoryMap = some m ∧
      (∀ b, m.IsPaging b → b < 0x100) ∧
      Run.exec step (start m) [.initMalloc, .mallocMorePages 77824] = some s ∧
      ¬ s.vmm.TablesReachable := by
  obtain ⟨m, hboot, hmax, hpaging, hset, hent⟩ := exists_endOfPrekernel_lowMemory
  have h0 := (endOfPrekernel_spec hboot).entry_zero
  have h1 := hent 1 (by omega) (by omega)
  have hlow : ∀ b, m.IsPaging b → b < 0x100 := fun b hb ↦ by have := (hpaging b).mp hb; omega
  have hkept := (endOfPrekernel_spec hboot).tablesKept hlow
  -- the state after `init_malloc`
  obtain ⟨-, hp, hplt⟩ := Vmm.TablesKept.freshFrame 0 m hkept
  have hkept₁ : ((m.mapPages Vmm.freshFrame mallocStart 1)).TablesKept :=
    tablesKept_step hkept (lowMemory_avoids (by decide) hmax hset hpaging h0 h1) rfl
  have hstep := (Vmm.TablesKept.freshFrame 0 m hkept).1.wf.mapAddress_step _
    ((mallocStart + 0 * pageSize) % 2 ^ 32) userFlags hp hplt (by decide) (by decide)
    (by decide)
  replace hstep : Vmm.MapStep m.afterFrame userFlags [(1, 0x18)] _
    (m.mapPages Vmm.freshFrame mallocStart 1) :=
      lowMemory_tablesTaken (by decide) hmax hset h0 h1 ▸ hstep.1
  have hpaging₁ := hstep.isPaging_mono ((hpaging 0x12).mpr (by omega))
  have hfree : ∀ b, b < 0x9F → 0x18 < b →
      (m.mapPages Vmm.freshFrame mallocStart 1).pmm.isSet b = false := fun b hlt hb ↦ by
    rw [hstep.isSet, lowMemory_isSet_afterFrame (by decide) hmax hset (by omega)]
    simp
    omega
  have hmax₁ : (m.mapPages Vmm.freshFrame mallocStart 1).pmm.maxBlocks = 0xFFFFF :=
    hstep.maxBlocks.trans (m.afterFrame_maxBlocks.trans hmax)
  have hpages : mallocPages (77824 : BitVec 32).toNat = 18 + 1 := by decide
  refine ⟨m, ⟨Vmm.mapPages
    (Vmm.rangeFrame ((m.mapPages Vmm.freshFrame mallocStart 1).pmm.allocateBlocks (18 + 1)).1)
    { m.mapPages Vmm.freshFrame mallocStart 1 with
      pmm := ((m.mapPages Vmm.freshFrame mallocStart 1).pmm.allocateBlocks (18 + 1)).2 } 0 (18 + 1),
    (0 + (18 + 1) * pageSize) % 2 ^ 32, 0x40000000, 0xB0000000⟩, hboot, hlow, ?_, ?_⟩
  · simp only [Run.exec, step, Option.bind_some, hpages, start]
  dsimp only
  generalize m.mapPages Vmm.freshFrame mallocStart 1 = m₁ at hkept₁ hstep hpaging₁ hfree hmax₁
  -- the growth finds 19 frames, and maps the last of them at `0x12000`
  have hkept₂ := hkept₁.allocateBlocks (18 + 1)
  obtain ⟨hnone, -⟩ | ⟨s, q, hf, ha, -, -⟩ := m₁.pmm.allocateBlocks_cases (18 + 1)
  · exact absurd ⟨by omega, fun k hk ↦ hfree _ (by omega) (by omega)⟩
      (Pmm.findFreeBlocks_none hnone (by omega) 0x20)
  rw [ha] at hkept₂ ⊢
  have hspos : 0 < s := by
    refine Nat.pos_of_ne_zero fun hs ↦ ?_
    have hclear := (Pmm.findFreeBlocks_some hf).2.1.2 0 (by omega)
    rw [hs, hkept₁.wf.zero_set] at hclear
    exact absurd hclear (by simp)
  have hsle := (Pmm.findFreeBlocks_some hf).2.1.1
  obtain ⟨hwf, hent₂, hpaging₂⟩ := hkept₂.wf.mapPages_range (s * blockSize)
    (by rw [blockSize]; omega) 0 18
  rw [Vmm.mapPages]
  generalize Vmm.mapPages (Vmm.rangeFrame (s * blockSize)) { m₁ with pmm := q } 0 18 = m₂
    at hwf hent₂ hpaging₂
  have hlast := (hwf.mapAddress_step ((s * blockSize + 18 * pageSize) % 2 ^ 32)
    ((0 + 18 * pageSize) % 2 ^ 32) userFlags
    (by rw [blockSize, pageSize]; omega) (Nat.mod_lt _ (by omega)) (by decide) (by decide)
    (by decide)).1
  have hpd : pdIndex ((0 + 18 * pageSize) % 2 ^ 32) = 0 := by decide
  have hwalk := hlast.walk_virt (by decide) (by rw [blockSize, pageSize]; omega) (by decide)
    (by decide) (hlast.entry_ne (pdIndex_lt (by decide))
      (by rw [hpd]; exact hent₂ 0 (by omega) hkept₂.entry_zero))
  intro hreach
  obtain ⟨flags, hself⟩ := hreach 0x12 (hlast.isPaging_mono (hpaging₂ _ hpaging₁))
  rw [show 0x12 * 4096 = (0 + 18 * pageSize) % 2 ^ 32 by decide] at hself
  have := (Prod.mk.inj (Option.some.inj (hwalk.symm.trans hself))).1
  rw [blockSize, pageSize] at this
  omega

end Clients

end AbOS
