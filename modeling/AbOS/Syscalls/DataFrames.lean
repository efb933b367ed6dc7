import AbOS.Syscalls.LowPages

/-!
# Frames of data

The operations store into page tables, and `create_page_table` clears 4096 bytes from the address of
the new table with its flags in it, so that the last seven are the first bytes of the next frame.
The allocator changes the frames of its bitmap.  Everything else that is in use changes through
stores of data only.

* `Machine.ram_of_run` — what a run without stores into a frame has done to it.
* `Machine.storeEsp0_of_run` — where `exec` stores the stack pointer.
-/

set_option autoImplicit false

namespace AbOS

namespace Machine

variable {b : ℕ} {s t : Machine} {op : MachineOp}

section Run

variable {ops : List MachineOp} (hrun : Run.exec next s ops = some t)
include hrun

theorem keepsFrame_of_run (h : s.kernel.vmm.WF) (hdata : s.kernel.vmm.HoldsData b)
    (helse : Run.Meets next (StoresElsewhere b) s ops) :
    Vmm.KeepsFrame b s.kernel.vmm t.kernel.vmm :=
  (helse.invariant (fun u : Machine ↦ u.kernel.vmm.WF ∧ Vmm.KeepsFrame b s.kernel.vmm u.kernel.vmm)
    (fun u op v hu hop hv ↦ by
      obtain ⟨hwf, hnext⟩ := next_keepsFrame hu.1 hu.2.data hop hv
      exact ⟨hwf, hu.2.trans hnext⟩) ⟨h, Vmm.KeepsFrame.refl hdata⟩ hrun).2

/-- **What a run does to a frame of data** that it does not store into: nothing, except that the
first seven bytes are cleared when the frame in front of it becomes a page table.  The frames of the
bitmap are apart. -/
theorem ram_of_run (h : s.kernel.vmm.WF) (hkeeps : s.kernel.vmm.KeepsBitmap)
    (hspares : Run.Meets next SparesBitmap s ops) (hdata : s.kernel.vmm.HoldsData b)
    (hb : ¬ BitmapFrame b) (helse : Run.Meets next (StoresElsewhere b) s ops) :
    Vmm.BitmapKept s.kernel.vmm t.kernel.vmm ∧ t.kernel.vmm.HoldsData b ∧
      ∀ x, x / 4096 = b → t.kernel.vmm.memory x =
        if x % 4096 < 7 ∧ t.kernel.vmm.IsPaging (b - 1) ∧ ¬ s.kernel.vmm.IsPaging (b - 1) then 0
        else s.kernel.vmm.memory x := by
  have hkept := keepsFrame_of_run hrun h hdata helse
  refine ⟨bitmapKept_of_run h hkeeps hspares hrun, hkept.data, fun x hx ↦ ?_⟩
  have hapart : ¬ BitmapFrame (x / 4096) := hx.symm ▸ hb
  rw [Vmm.memory_of_not hapart, Vmm.memory_of_not hapart]
  exact hkept.ram x hx

end Run

theorem LowMemory.holdsData {m : Vmm} {top : ℕ} (h : LowMemory top m) (hb : b < 0x12) :
    m.HoldsData b := by
  refine ⟨by rw [h.isSet b (by omega)]; exact decide_eq_true (by omega), fun hp ↦ ?_⟩
  have := (h.isPaging b).mp hp
  omega

/-- A program is started with its stack elsewhere. -/
theorem sparesBitmap_exec (hstack : ¬ BitmapFrame ((s.userStack + pageSize) % 2 ^ 32 / 4096)) :
    s.SparesBitmap .exec where
  stores := fun _ _ _ _ _ heq ↦ by cases heq
  pages := fun l hl i hi ↦ by
    obtain ⟨hvirt, hcount⟩ : l.virt = (s.userStack + pageSize) % 2 ^ 32 ∧ l.count = 1 := by
      cases hl
      exact ⟨rfl, rfl⟩
    obtain rfl : i = 0 := by omega
    rwa [hvirt, Nat.zero_mul, Nat.add_zero, Nat.mod_mod]

/-- The heap takes over the kernel's first pages and a program is started; the frame of
`GDT_ADDRESS` is what it was. -/
theorem ram_of_run_lowMemory : ∃ m,
    endOfPrekernel (fun _ ↦ 0) (fun _ ↦ 0) belowBitmapMap = some m ∧ ∀ fs, ∃ t,
      Run.exec next (start m fs) [.mallocMorePages 16384, .exec] = some t ∧
      ∀ x, x / 4096 = 1 → t.kernel.vmm.memory x = m.memory x := by
  obtain ⟨m, hboot, h, hkeeps⟩ := exists_belowBitmap
  refine ⟨m, hboot, fun fs ↦ ?_⟩
  have helse : ∀ b, Run.Meets next (StoresElsewhere b) (start m fs)
      [.mallocMorePages 16384, .exec] := fun b ↦
    ⟨fun _ _ _ heq ↦ (by cases heq), fun _ _ ↦ ⟨fun _ _ _ heq ↦ (by cases heq), fun _ _ ↦ trivial⟩⟩
  have hpages : mallocPages (16384 : BitVec 32).toNat = 4 := by decide
  obtain ⟨u, hu, -, hstack⟩ := next_mallocMorePages (start m fs) 16384
  have hspares : Run.Meets next SparesBitmap (start m fs) [.mallocMorePages 16384, .exec] := by
    refine ⟨sparesBitmap_mallocMorePages rfl (by rw [hpages]; decide), fun v hv ↦
      ⟨sparesBitmap_exec ?_, fun _ _ ↦ trivial⟩⟩
    obtain rfl := Option.some.inj (hu.symm.trans hv)
    rw [hstack]
    show ¬ BitmapFrame ((0xB0000000 + pageSize) % 2 ^ 32 / 4096)
    decide
  have hrun : Run.exec next (start m fs) [.mallocMorePages 16384, .exec] = some _ :=
    Run.exec_cons.mpr ⟨u, hu, Run.exec_singleton rfl⟩
  -- the frame in front of it becomes no page table
  obtain ⟨-, ⟨-, hzero⟩, -⟩ := ram_of_run (b := 0) hrun h.wf hkeeps hspares
    (h.holdsData (by decide)) (by decide) (helse 0)
  obtain ⟨-, -, hram⟩ := ram_of_run (b := 1) hrun h.wf hkeeps hspares
    (h.holdsData (by decide)) (by decide) (helse 1)
  exact ⟨_, hrun, fun x hx ↦ (hram x hx).trans (if_neg fun hc ↦ hzero hc.2.1)⟩

/-! ## What the kernel reads below 1 MiB -/

/-- The frame is below 1 MiB, holds data other than the bitmap, and no page table will lie in front of
it. -/
structure LowData (m : Vmm) (b : ℕ) : Prop where
  lt : b < 0x100
  data : m.HoldsData b
  apart : ¬ BitmapFrame b
  before : m.pmm.isSet (b - 1) = true

section Low

variable {m₀ : Vmm} (hboot : Booted m₀) (hlow : ∀ b, m₀.IsPaging b → b < 0x100) (fs : Fs)
  {ops : List MachineOp} (hapart : Run.Meets next MapsApart (start m₀ fs) ops)
  (hrun : Run.exec next (start m₀ fs) ops = some t)
include hboot hlow hapart hrun

/-- From the end of the heap on the kernel reads what boot has left there. -/
theorem read_low {v : ℕ} (hv : LowData m₀ (v / 4096))
    (helse : Run.Meets next (StoresElsewhere (v / 4096)) (start m₀ fs) ops) (hend : t.heapEnd ≤ v) :
    t.kernel.vmm.translate v = some v ∧ t.kernel.vmm.ram v = m₀.ram v := by
  have hinv := lowInv_of_run hboot hlow fs hapart hrun hv.lt hv.data.1
  have hkept := keepsFrame_of_run hrun hboot.wf hv.data helse
  refine ⟨hinv.translate.1.mpr hend, (hkept.ram v rfl).trans (if_neg fun hc ↦ ?_)⟩
  have hfree := (hkept.old _ hc.2.1).resolve_left hc.2.2
  rw [show (start m₀ fs).kernel.vmm = m₀ from rfl, hv.before] at hfree
  cases hfree

theorem loadBytes_low {v n : ℕ} (hv : ∀ k < n, LowData m₀ ((v + k) / 4096))
    (helse : ∀ k < n, Run.Meets next (StoresElsewhere ((v + k) / 4096)) (start m₀ fs) ops)
    (hend : t.heapEnd ≤ v) :
    t.kernel.vmm.loadBytes v n = some (m₀.ram.slice v n, t.kernel.vmm) := by
  have hread := fun k hk ↦ read_low hboot hlow fs hapart hrun (hv k hk) (helse k hk)
    (hend.trans (Nat.le_add_right v k))
  rw [Vmm.loadBytes_spec (P := (v + ·)) fun k hk ↦ ?_, ByteStore.slice]
  · rw [List.map_congr_left fun k hk ↦ (hread k (List.mem_range.mp hk)).2]
  · have := (hv k hk).lt
    rw [Nat.mod_eq_of_lt (by omega)]
    exact (hread k hk).1

end Low

end Machine

/-! ## The task state segment -/

/-- `GDT_ADDRESS`. -/
def gdtAddress : ℕ := 0x1810

/-- `exec`, with the address of the descriptors: their sixth has the base of the task state segment,
whose second word gets the stack pointer. -/
def Vmm.storeEsp0At (m : Vmm) (gdt : ℕ) (stack : BitVec 32) : Option Vmm :=
  (m.loadBytes ((gdt + 0x2A) % 2 ^ 32) 2).bind fun (base, m) ↦
    m.storeBytes (ByteStore.ofLe base + 4) (ByteStore.leBytes 4 stack.toNat)

/-- `exec`, up to the new page of the stack. -/
def Vmm.storeEsp0 (m : Vmm) (stack : BitVec 32) : Option Vmm :=
  (m.loadBytes gdtAddress 4).bind fun (gdt, m) ↦ m.storeEsp0At (ByteStore.ofLe gdt) stack

namespace Machine

variable {t : Machine}

/-- **Where `exec` stores the stack pointer**: as long as the heap ends below, into the task state
segment that boot has set up; once the heap has grown over `GDT_ADDRESS`, to where the bytes of a
new frame say. -/
theorem storeEsp0_of_run {m₀ : Vmm} (hboot : Booted m₀) (hlow : ∀ b, m₀.IsPaging b → b < 0x100)
    (hkeeps : m₀.KeepsBitmap) (fs : Fs) {ops : List MachineOp}
    (hapart : Run.Meets next MapsApart (start m₀ fs) ops)
    (hspares : Run.Meets next SparesBitmap (start m₀ fs) ops)
    (hrun : Run.exec next (start m₀ fs) ops = some t)
    (haddress : LowData m₀ (gdtAddress / 4096))
    (helse : Run.Meets next (StoresElsewhere (gdtAddress / 4096)) (start m₀ fs) ops)
    (hbase : ∀ k < 2, LowData m₀ ((m₀.ram.readWord gdtAddress + 0x2A + k) / 4096))
    (helse' : ∀ k < 2, Run.Meets next
      (StoresElsewhere ((m₀.ram.readWord gdtAddress + 0x2A + k) / 4096)) (start m₀ fs) ops)
    (stack : BitVec 32) : Vmm.BitmapKept m₀ t.kernel.vmm ∧
    (t.heapEnd ≤ gdtAddress → t.heapEnd ≤ m₀.ram.readWord gdtAddress + 0x2A →
      t.kernel.vmm.storeEsp0 stack = t.kernel.vmm.storeBytes
        (ByteStore.ofLe (m₀.ram.slice (m₀.ram.readWord gdtAddress + 0x2A) 2) + 4)
        (ByteStore.leBytes 4 stack.toNat)) ∧
      (gdtAddress < t.heapEnd → ∃ f, m₀.pmm.isSet f = false ∧ t.kernel.vmm.HoldsData f ∧
        ¬ BitmapFrame f ∧ t.kernel.vmm.storeEsp0 stack =
          t.kernel.vmm.storeEsp0At (t.kernel.vmm.ram.readWord (f * 4096 + 0x810)) stack) := by
  have hpage : ∀ k < 4, (gdtAddress + k) / 4096 = gdtAddress / 4096 ∧
      (gdtAddress + k) % 4096 = 0x810 + k ∧ gdtAddress + k < 2 ^ 32 := fun k hk ↦ by
    rw [gdtAddress]
    omega
  refine ⟨bitmapKept_of_run (s := start m₀ fs) hboot.wf hkeeps hspares hrun, fun hend hend' ↦ ?_,
    fun hend ↦ ?_⟩
  · rw [Vmm.storeEsp0, loadBytes_low hboot hlow fs hapart hrun
      (fun k hk ↦ (hpage k hk).1.symm ▸ haddress) (fun k hk ↦ (hpage k hk).1.symm ▸ helse) hend,
      Option.bind_some]
    have hlt := (hbase 0 (by decide)).lt
    show t.kernel.vmm.storeEsp0At (m₀.ram.readWord gdtAddress) stack = _
    rw [Vmm.storeEsp0At, Nat.mod_eq_of_lt (by omega),
      loadBytes_low hboot hlow fs hapart hrun hbase helse' hend', Option.bind_some]
  · obtain ⟨haligned, f, flags, hfirst, hf⟩ :=
      lowInv_of_run hboot hlow fs hapart hrun haddress.lt haddress.data.1
    have hnew : f ≠ gdtAddress / 4096 := fun heq ↦ by
      have := hf.mp heq
      rw [gdtAddress] at hend this
      omega
    obtain ⟨hfree, hholds⟩ := hfirst.frame.resolve_left hnew
    have htranslate : ∀ k < 4, t.kernel.vmm.translate ((gdtAddress + k) % 2 ^ 32) =
        some (f * 4096 + 0x810 + k) := fun k hk ↦ by
      obtain ⟨hdiv, hmod, hlt⟩ := hpage k hk
      have hsame : gdtAddress / 4096 * 4096 / 4096 = (gdtAddress + k) / 4096 :=
        (Nat.mul_div_cancel _ (by decide)).trans hdiv.symm
      rw [Nat.mod_eq_of_lt hlt, Vmm.translate, ← Vmm.walk_page hsame, hfirst.walk, pageSize,
        hmod, Nat.add_assoc]
      rfl
    refine ⟨f, hfree, hholds, fun hb ↦ ?_, ?_⟩
    · rw [(hkeeps.holdsData hb).1] at hfree
      cases hfree
    rw [Vmm.storeEsp0, Vmm.loadBytes_spec htranslate, Option.bind_some]
    rfl

/-- Other data in memory. -/
theorem LowMemory.sameTables {m m' : Vmm} {top : ℕ} (h : LowMemory top m)
    (hsame : Vmm.SameTables m m') : LowMemory top m' := by
  have hdir := h.wf.dir_mod
  have hpaging : ∀ b, m'.IsPaging b ↔ m.IsPaging b := fun _ ↦ hsame.isPaging_iff hdir
  refine ⟨⟨hsame.wf hdir h.wf, ?_, fun v hv ↦ ?_, fun b hb ↦ ?_⟩, ?_, fun b ↦ ?_, fun b hb ↦ ?_,
    fun i hi hlt ↦ ?_⟩
  · rw [hsame.entry hdir (by decide)]
    exact h.entry_zero
  · rw [hsame.walk hdir (by omega)]
    exact h.walk_low v hv
  · rw [hsame.pmm]
    exact h.before b ((hpaging b).mp hb)
  · rw [hsame.pmm]
    exact h.maxBlocks
  · rw [hpaging, h.isPaging]
  · rw [hsame.pmm, h.isSet b hb]
  · rw [hsame.entry hdir (by omega)]
    exact h.absent i hi hlt

theorem LowMemory.lowData {m : Vmm} {top : ℕ} (h : LowMemory top m) {b : ℕ} (hb : b < 0x12) :
    LowData m b where
  lt := by omega
  data := h.holdsData hb
  apart := fun hbitmap ↦ by
    rw [bitmapFrame_iff] at hbitmap
    omega
  before := by
    rw [h.isSet _ (by omega)]
    exact decide_eq_true (by omega)

/-- The second stage has left the descriptors at `0x8000` and the task state segment at `0x7F00`. -/
theorem storeEsp0_of_run_lowMemory : ∃ m, LowMemory 0x2F m ∧ m.KeepsBitmap ∧ ∀ fs stack,
    (∃ t, Run.exec next (start m fs) [.mallocMorePages 4096] = some t ∧
      t.kernel.vmm.storeEsp0 stack =
        t.kernel.vmm.storeBytes 0x7F04 (ByteStore.leBytes 4 stack.toNat)) ∧
    ∃ t f, Run.exec next (start m fs) [.mallocMorePages 16384] = some t ∧
      m.pmm.isSet f = false ∧ t.kernel.vmm.storeEsp0 stack =
        t.kernel.vmm.storeEsp0At (t.kernel.vmm.ram.readWord (f * 4096 + 0x810)) stack := by
  obtain ⟨m₁, -, h₁, hkeeps₁⟩ := exists_belowBitmap
  obtain ⟨m, hm⟩ : ∃ m : Vmm, m = { m₁ with ram :=
      (m₁.ram.writeWord gdtAddress 0x8000).splice 0x802A (ByteStore.leBytes 2 0x7F00) } := ⟨_, rfl⟩
  have hsame : Vmm.SameTables m₁ m := by
    rw [hm]
    refine ⟨rfl, rfl, fun x hx ↦ ?_⟩
    have hpaging := (h₁.isPaging _).mp hx
    have haddress : x < 0x802A ∨ 0x802C ≤ x := by omega
    have hword : gdtAddress + 4 ≤ x := by
      rw [gdtAddress]
      omega
    exact (ByteStore.splice_of_not_mem haddress).trans
      (ByteStore.writeWord_of_not_mem (Or.inr hword))
  have h := h₁.sameTables hsame
  have hkeeps := hkeeps₁.sameTables h₁.wf.dir_mod hsame
  have hgdt : m.ram.readWord gdtAddress = 0x8000 := by
    rw [hm]
    refine (ByteStore.readWord_congr fun k hk ↦ ByteStore.splice_of_not_mem (Or.inl ?_)).trans
      (ByteStore.readWord_writeWord (by decide))
    rw [gdtAddress]
    omega
  have hbase : ByteStore.ofLe (m.ram.slice (0x8000 + 0x2A) 2) = 0x7F00 := by
    rw [hm]
    exact (congrArg ByteStore.ofLe (ByteStore.slice_splice_self _ 0x802A
      (ByteStore.leBytes 2 0x7F00))).trans (ByteStore.ofLe_leBytes 2 0x7F00)
  have hlow : ∀ b, m.IsPaging b → b < 0x100 := fun b hb ↦ by
    have := (h.isPaging b).mp hb
    omega
  have hpages : mallocPages (4096 : BitVec 32).toNat = 1 ∧
      mallocPages (16384 : BitVec 32).toNat = 4 := by decide
  refine ⟨m, h, hkeeps, fun fs stack ↦ ?_⟩
  -- the heap grows once, and nothing is stored
  have hgrow : ∀ size : BitVec 32, 0 < mallocPages size.toNat → mallocPages size.toNat ≤ 0x12 →
      ∃ t, Run.Meets next MapsApart (start m fs) [.mallocMorePages size] ∧
        Run.Meets next SparesBitmap (start m fs) [.mallocMorePages size] ∧
        Run.exec next (start m fs) [.mallocMorePages size] = some t ∧
        t.heapEnd = mallocPages size.toNat * 4096 := fun size hpos hle ↦ by
    obtain ⟨t, ht, hheap, -⟩ := next_mallocMorePages (start m fs) size
    refine ⟨t, ⟨h.mapsApart (by decide) fs hpos hle, fun _ _ ↦ trivial⟩,
      ⟨sparesBitmap_mallocMorePages rfl (by omega), fun _ _ ↦ trivial⟩, Run.exec_singleton ht, ?_⟩
    rw [hheap, start_heapEnd, pageSize]
    omega
  have helse : ∀ b (size : BitVec 32), Run.Meets next (StoresElsewhere b) (start m fs)
      [.mallocMorePages size] := fun _ _ ↦ ⟨fun _ _ _ heq ↦ (by cases heq), fun _ _ ↦ trivial⟩
  have hframes : ∀ k < 2, LowData m ((m.ram.readWord gdtAddress + 0x2A + k) / 4096) := fun k hk ↦
    h.lowData (by rw [hgdt]; omega)
  obtain ⟨t, hapart, hspares, hrun, hend⟩ :=
    hgrow 4096 (by rw [hpages.1]; decide) (by rw [hpages.1]; decide)
  obtain ⟨t', hapart', hspares', hrun', hend'⟩ := hgrow 16384 (by rw [hpages.2]; decide)
    (by rw [hpages.2]; decide)
  rw [hpages.1] at hend
  rw [hpages.2] at hend'
  obtain ⟨-, hbelow, -⟩ := storeEsp0_of_run h.toBooted hlow hkeeps fs hapart hspares hrun
    (h.lowData (by decide)) (helse _ _) hframes (fun _ _ ↦ helse _ _) stack
  obtain ⟨-, -, habove⟩ := storeEsp0_of_run h.toBooted hlow hkeeps fs hapart' hspares' hrun'
    (h.lowData (by decide)) (helse _ _) hframes (fun _ _ ↦ helse _ _) stack
  rw [hgdt, hbase] at hbelow
  obtain ⟨f, hfree, -, -, hstore⟩ := habove (by rw [hend']; decide)
  refine ⟨⟨t, hrun, hbelow ?_ ?_⟩, t', f, hrun', hfree, hstore⟩ <;> rw [hend] <;> decide

end Machine

end AbOS
