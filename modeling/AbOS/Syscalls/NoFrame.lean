import AbOS.Syscalls.OwnPages

/-!
# Files when no frame is free

When all blocks are in use, `allocate_blocks` returns 0, and neither `sys_open` nor `sys_write` looks
at that: they map the pages of a file to frame 0.  Nothing is taken from the allocator then, and when
`sys_close` comes to such a page, `free_page` leaves the bits alone, because the address is 0.

`ZeroStep` is what mapping such a page and storing to it can do.  `ZeroFile` says of a descriptor
that all its pages lead to frame 0, and that nothing has been taken since an earlier state; opening a
file (`zeroFile_sysOpen`) and writing to it (`ZeroFile.write`) keep this if the page tables are there
and all stores stay inside the pages.
-/

set_option autoImplicit false

namespace AbOS

namespace Vmm

variable {m m' m'' : Vmm} {virt address n k : ℕ}

/-! ## Pages in frame 0 -/

/-- The `n` pages from `address` on lead to frame 0. -/
structure ZeroPages (m : Vmm) (address n : ℕ) : Prop where
  aligned : address % pageSize = 0
  walk : ∀ j < n, ∃ flags, m.walk ((address + j * pageSize) % 2 ^ 32) = some (0, flags)

/-- The bytes of the pages, as `Region.dataAt` has them for frames of their own. -/
theorem ZeroPages.dataAt (h : m.ZeroPages address n) (hzero : ¬ m.IsPaging 0) {a : ℕ}
    (hak : k = 0 ∨ a + k ≤ n * pageSize) :
    m.DataAt (address + a) k fun i ↦ (a + i) % pageSize := fun i hi ↦ by
  have hal := h.aligned
  rw [pageSize] at hal hak
  obtain ⟨flags, hwalk⟩ := h.walk ((a + i) / 4096) (by omega)
  have hsame : (address + a + i) % 2 ^ 32 / 4096 =
      (address + (a + i) / 4096 * pageSize) % 2 ^ 32 / 4096 := by
    rw [pageSize]
    omega
  have hoffset : (address + a + i) % 2 ^ 32 % 4096 = (a + i) % 4096 := by omega
  have hframe : (a + i) % pageSize / 4096 = 0 := Nat.div_eq_of_lt (Nat.mod_lt _ (by decide))
  refine ⟨?_, by rwa [hframe]⟩
  rw [translate, walk_page hsame, hwalk, Option.map_some, pageSize, hoffset, Nat.zero_add]

/-- Pages behind one another. -/
theorem ZeroPages.append (h : m.ZeroPages address k)
    (hnew : m.ZeroPages ((address + k * pageSize) % 2 ^ 32) n) : m.ZeroPages address (k + n) := by
  refine ⟨h.aligned, fun j hj ↦ ?_⟩
  rcases Nat.lt_or_ge j k with hlt | hge
  · exact h.walk j hlt
  · obtain ⟨i, rfl⟩ := Nat.exists_eq_add_of_le hge
    have hpage : (address + (k + i) * pageSize) % 2 ^ 32 =
        ((address + k * pageSize) % 2 ^ 32 + i * pageSize) % 2 ^ 32 := by
      rw [Nat.add_mul]
      omega
    rw [hpage]
    exact hnew.walk i (by omega)

/-- From `m` to `m'` pages have been mapped to frame 0, and something may have been stored there. -/
structure ZeroStep (m m' : Vmm) : Prop where
  wf : m'.WF
  directory : m'.directory = m.directory
  pmm : m'.pmm = m.pmm
  entry : ∀ i < 1024, m'.entry i = m.entry i
  walk : ∀ v < 2 ^ 32, m'.walk v = m.walk v ∨ ∃ flags, m'.walk v = some (0, flags)
  bitmap : BitmapKept m m'

theorem ZeroStep.refl (h : m.WF) (hkeeps : m.KeepsBitmap) : ZeroStep m m :=
  ⟨h, rfl, rfl, fun _ _ ↦ rfl, fun _ _ ↦ Or.inl rfl, BitmapKept.refl hkeeps⟩

section ZeroStep

variable (h : ZeroStep m m')
include h

theorem ZeroStep.trans (h' : ZeroStep m' m'') : ZeroStep m m'' where
  wf := h'.wf
  directory := h'.directory.trans h.directory
  pmm := h'.pmm.trans h.pmm
  entry := fun i hi ↦ (h'.entry i hi).trans (h.entry i hi)
  walk := fun v hv ↦ (h'.walk v hv).elim
    (fun heq ↦ (h.walk v hv).imp heq.trans fun ⟨flags, hw⟩ ↦ ⟨flags, heq.trans hw⟩) Or.inr
  bitmap := h.bitmap.trans h'.bitmap

theorem ZeroStep.isPaging_iff {b : ℕ} : m'.IsPaging b ↔ m.IsPaging b := by
  have hentry : ∀ i, i < 1024 ∧ m'.entry i ≠ 0 ∧ m'.table i = b * 4096 ↔
      i < 1024 ∧ m.entry i ≠ 0 ∧ m.table i = b * 4096 := fun i ↦
    and_congr_right fun hi ↦ by rw [table, h.entry i hi]; rfl
  rw [IsPaging, IsPaging, h.directory]
  simp only [hentry]

/-- Pages that lead to frame 0 stay there. -/
theorem ZeroStep.zeroPages (hpages : m.ZeroPages address n) : m'.ZeroPages address n :=
  ⟨hpages.aligned, fun j hj ↦ (h.walk _ (Nat.mod_lt _ (by decide))).elim
    (fun heq ↦ heq ▸ hpages.walk j hj) id⟩

/-- Pages that were present stay present. -/
theorem ZeroStep.translate_ne {v : ℕ} (hv : v < 2 ^ 32) (hp : ∃ p, m.translate v = some p) :
    ∃ p, m'.translate v = some p := by
  obtain ⟨p, hp⟩ := hp
  obtain ⟨w, hw, -⟩ := Option.map_eq_some_iff.mp hp
  rcases h.walk v hv with heq | ⟨flags, heq⟩
  · exact ⟨_, by rw [translate, heq, hw]; rfl⟩
  · exact ⟨_, by rw [translate, heq]; rfl⟩

end ZeroStep

/-- What is stored to the pages lies in frame 0. -/
theorem WF.zeroStep_of_stores (h : m.WF) (hkeeps : m.KeepsBitmap) (hsame : SameTables m m')
    (hram : ∀ x, x / 4096 ≠ 0 → m'.ram x = m.ram x) : ZeroStep m m' where
  wf := hsame.wf h.dir_mod h
  directory := hsame.directory
  pmm := hsame.pmm
  entry := fun _ hi ↦ hsame.entry h.dir_mod hi
  walk := fun _ hv ↦ Or.inl (hsame.walk h.dir_mod hv)
  bitmap := ⟨hkeeps.sameTables h.dir_mod hsame, fun x hx ↦ hram x fun h0 ↦ by
    rw [bitmapFrame_iff] at hx
    omega⟩

/-- The entry that has been stored. -/
theorem WF.putPte_walk_self (h : m.WF) {v e : ℕ} (hv : v < 2 ^ 32) (hne : m.entry (pdIndex v) ≠ 0)
    (he : e < 2 ^ 32) (hodd : e % 2 = 1) :
    (m.putPte v e).walk v = some (e / 4096 * 4096, e % 4096) := by
  have hentry := h.putPte_entry hv hne (pdIndex_lt hv) (e := e)
  have hpte : (m.putPte v e).pte v = e :=
    (h.putPte_step hv hne 0 he).pte_stored v e hv List.lookup_cons_self (hentry.trans_ne hne)
  rw [walk_eq, hpte, hentry, if_pos ⟨h.present _ (pdIndex_lt hv) hne, hodd⟩]

/-- **One page** that is mapped to frame 0. -/
theorem WF.zeroStep_putPte (h : m.WF) (hkeeps : m.KeepsBitmap) {v : ℕ} (hv : v < 2 ^ 32)
    (hne : m.entry (pdIndex v) ≠ 0) (hother : ¬ BitmapFrame (v / 4096)) :
    ZeroStep m (m.putPte v userFlags) ∧ (m.putPte v userFlags).walk v = some (0, userFlags) := by
  have hself := h.putPte_walk_self hv hne (show userFlags < 2 ^ 32 by decide) (by decide)
  have hwalk : ∀ w < 2 ^ 32, w / 4096 ≠ v / 4096 → (m.putPte v userFlags).walk w = m.walk w :=
    fun w hw hwv ↦ h.putPte_walk hv hne (by decide) hw hwv
  have hpaging : ∀ b, (m.putPte v userFlags).IsPaging b ↔ m.IsPaging b := fun b ↦
    h.putPte_isPaging hv hne
  refine ⟨⟨h.putPte hv hne, rfl, rfl, fun i hi ↦ h.putPte_entry hv hne hi, fun w hw ↦ ?_,
    ⟨hkeeps.used, fun b hb hp ↦ hkeeps.data b hb ((hpaging b).mp hp), fun b hb ↦ ?_⟩,
    fun x hx ↦ putPte_ram hv hne (hkeeps.data _ hx)⟩, hself⟩
  · by_cases hwv : w / 4096 = v / 4096
    · exact Or.inr ⟨_, (walk_page hwv).trans hself⟩
    · exact Or.inl (hwalk w hw hwv)
  · have hlow := bitmapFrame_iff.mp hb
    rw [hwalk (b * 4096) (by omega) fun heq ↦ hother ?_]
    · exact hkeeps.walk b hb
    · rwa [← heq, Nat.mul_div_cancel _ (by decide)]

/-- Each of the `n` pages from `virt` on has a page table, and none is a page of the bitmap. -/
def HasTables (m : Vmm) (virt n : ℕ) : Prop :=
  ∀ i < n, m.entry (pdIndex ((virt + i * pageSize) % 2 ^ 32)) ≠ 0 ∧
    ¬ BitmapFrame ((virt + i * pageSize) % 2 ^ 32 / 4096)

/-- **The loop of mappings** when no frame is free. -/
theorem WF.mapPages_full (h : m.WF) (hkeeps : m.KeepsBitmap)
    (hfull : m.pmm.findFreeBlocks 1 = none) (hv : virt % pageSize = 0)
    (htables : m.HasTables virt n) : ZeroStep m (m.mapPages freshFrame virt n) ∧
      (m.mapPages freshFrame virt n).ZeroPages virt n := by
  induction n with
  | zero => exact ⟨ZeroStep.refl h hkeeps, hv, fun _ hj ↦ absurd hj (Nat.not_lt_zero _)⟩
  | succ n ih =>
    obtain ⟨hprev, hpages⟩ := ih fun i hi ↦ htables i (by omega)
    obtain ⟨hent, hother⟩ := htables n (Nat.lt_succ_self n)
    have hlt : (virt + n * pageSize) % 2 ^ 32 < 2 ^ 32 := Nat.mod_lt _ (by decide)
    rw [mapPages]
    generalize m.mapPages freshFrame virt n = m₁ at hprev hpages ⊢
    -- the allocation is refused, and the page table is there
    have hrefused : m₁.pmm.allocateBlocks 1 = (0, m₁.pmm) := by
      rw [Pmm.allocateBlocks, hprev.pmm, hfull]
    have hfresh : freshFrame n m₁ = (0, m₁) := by rw [freshFrame, faultFrame, afterFrame, hrefused]
    rw [← hprev.entry _ (pdIndex_lt hlt)] at hent
    obtain ⟨hstep, hself⟩ := hprev.wf.zeroStep_putPte hprev.bitmap.keeps hlt hent hother
    rw [hfresh]
    dsimp only
    rw [mapAddress, mapAddressFuel, if_neg hent, Nat.zero_or]
    refine ⟨hprev.trans hstep, hv, fun j hj ↦ ?_⟩
    rcases Nat.lt_succ_iff_lt_or_eq.mp hj with hj | rfl
    · exact (hstep.zeroPages hpages).walk j hj
    · exact ⟨_, hself⟩

end Vmm

namespace Kernel

variable {s t u : Kernel} {d : ℕ}

/-! ## Files with such pages -/

/-- All pages of `d`, from where `s` would have put them up to the next one, lead to frame 0, and the
allocator is where it was in `s`. -/
structure ZeroFile (s : Kernel) (d : ℕ) (t : Kernel) : Prop where
  step : Vmm.ZeroStep s.vmm t.vmm
  zero : ¬ t.vmm.IsPaging 0
  address : (t.openFileTable d).address = s.fileVirtualAddress
  count : (t.openFileTable d).pagesAllocated < 2 ^ 8
  next : t.fileVirtualAddress =
    (s.fileVirtualAddress + (t.openFileTable d).pagesAllocated * pageSize) % 2 ^ 32
  pages : t.vmm.ZeroPages s.fileVirtualAddress (t.openFileTable d).pagesAllocated

/-- A call that stores to frame 0, if anywhere. -/
theorem ZeroFile.congr (h : s.ZeroFile d t) (hstep : Vmm.ZeroStep t.vmm u.vmm)
    (hnext : u.fileVirtualAddress = t.fileVirtualAddress)
    (hfile : (u.openFileTable d).address = (t.openFileTable d).address ∧
      (u.openFileTable d).pagesAllocated = (t.openFileTable d).pagesAllocated) :
    s.ZeroFile d u := by
  obtain ⟨haddress, hpages⟩ := hfile
  exact ⟨h.step.trans hstep, hstep.isPaging_iff.not.mpr h.zero, haddress.trans h.address,
    hpages ▸ h.count, by rw [hnext, hpages]; exact h.next, hpages ▸ hstep.zeroPages h.pages⟩

/-- The bytes of the file. -/
theorem ZeroFile.dataAt (h : s.ZeroFile d t) {a k : ℕ}
    (hak : k = 0 ∨ a + k ≤ (t.openFileTable d).pagesAllocated * pageSize) :
    t.vmm.DataAt ((t.openFileTable d).address + a) k fun i ↦ (a + i) % pageSize := by
  rw [h.address]
  exact h.pages.dataAt h.zero hak

/-- Addresses in a page are those of frame 0. -/
theorem ne_mod_pageSize {x : ℕ} (hx : x / 4096 ≠ 0) (y : ℕ) : x ≠ y % pageSize := fun heq ↦ by
  rw [heq, pageSize] at hx
  omega

/-- The `n` new pages of `d`, behind those that it has, find their page tables. -/
structure GrowsFull (t : Kernel) (d bytes : ℕ) : Prop where
  pages : (t.openFileTable d).pagesAllocated + filePageCount bytes < 2 ^ 8
  tables : t.vmm.HasTables t.fileVirtualAddress (filePageCount bytes)
  clears : bytes = 0 ∨ 4 * (t.inodeOf d).size + bytes ≤
    ((t.openFileTable d).pagesAllocated + filePageCount bytes) * pageSize

/-- More pages. -/
theorem ZeroFile.addPages (h : s.ZeroFile d t) (hfull : s.vmm.pmm.findFreeBlocks 1 = none) {n : ℕ}
    (hlt : (t.openFileTable d).pagesAllocated + n < 2 ^ 8)
    (htables : t.vmm.HasTables t.fileVirtualAddress n) :
    s.ZeroFile d (t.addPages d n) ∧ Vmm.ZeroStep t.vmm (t.addPages d n).vmm ∧
      (t.addPages d n).openFileTable d = { t.openFileTable d with
        pagesAllocated := (t.openFileTable d).pagesAllocated + n } := by
  have hfile : (t.addPages d n).openFileTable d = { t.openFileTable d with
      pagesAllocated := (t.openFileTable d).pagesAllocated + n } := by
    rw [← Nat.mod_eq_of_lt hlt]
    exact Function.update_self ..
  have hal := h.pages.aligned
  have hnext := h.next
  obtain ⟨hstep, hpages⟩ := h.step.wf.mapPages_full h.step.bitmap.keeps (h.step.pmm ▸ hfull)
    (by rw [hnext]; rw [pageSize] at *; omega) htables
  refine ⟨⟨h.step.trans hstep, hstep.isPaging_iff.not.mpr h.zero, by rw [hfile]; exact h.address,
    by rw [hfile]; exact hlt, ?_, ?_⟩, hstep, hfile⟩
  · show (t.fileVirtualAddress + n * pageSize) % 2 ^ 32 = _
    rw [hfile, hnext]
    dsimp only
    rw [Nat.add_mul]
    omega
  · rw [hfile]
    exact (hstep.zeroPages h.pages).append (hnext ▸ hpages)

/-- The second step of `sys_write`. -/
theorem ZeroFile.growPages (h : s.ZeroFile d t) (hfull : s.vmm.pmm.findFreeBlocks 1 = none)
    {length : ℕ} (hgrow : ∀ bytes, t.growth d length = some bytes → GrowsFull t d bytes)
    (hcall : t.growPages d length = some u) : s.ZeroFile d u ∧ Vmm.ZeroStep t.vmm u.vmm ∧
      (u.openFileTable d).pagesAllocated = t.pagesAfter d length := by
  rw [growPages_eq] at hcall
  rw [pagesAfter]
  cases hbytes : t.growth d length with
  | none =>
    rw [hbytes] at hcall
    cases hcall
    exact ⟨h, Vmm.ZeroStep.refl h.step.wf h.step.bitmap.keeps, rfl⟩
  | some bytes =>
    obtain ⟨hlt, htables, hclear⟩ := hgrow bytes hbytes
    obtain ⟨hgrown, hstep, hfile⟩ := h.addPages hfull hlt htables
    rw [hbytes] at hcall
    dsimp only at hcall
    rw [Option.map_some, Option.getD_some]
    generalize t.addPages d (filePageCount bytes) = t₁ at hcall hgrown hstep hfile
    obtain ⟨vmm, hset, rfl⟩ := Option.map_eq_some_iff.mp hcall
    have hdata := hgrown.dataAt (a := 4 * (t.inodeOf d).size) (k := bytes) (by rwa [hfile])
    rw [hfile] at hdata
    obtain ⟨vmm', hset', hsame, hout⟩ := Vmm.memset_spec hgrown.step.wf.dir_mod hdata 0
    obtain rfl : vmm' = vmm := Option.some.inj (hset'.symm.trans hset)
    have hstores := hgrown.step.wf.zeroStep_of_stores hgrown.step.bitmap.keeps hsame
      fun x hx ↦ hout x fun _ _ ↦ ne_mod_pageSize hx _
    exact ⟨hgrown.congr hstores rfl ⟨rfl, rfl⟩, hstep.trans hstores, by rw [hfile]⟩

/-- The third step. -/
theorem ZeroFile.copyBuffer (h : s.ZeroFile d t) {buffer length : ℕ}
    (hfits : length = 0 ∨ 4 * (t.openFileTable d).lseek + length ≤
      (t.openFileTable d).pagesAllocated * pageSize)
    (hbuffer : ∀ k < length, ∃ p, t.vmm.translate ((buffer + k) % 2 ^ 32) = some p)
    (hcall : t.copyBuffer d buffer length = some u) : s.ZeroFile d u ∧
      (u.openFileTable d).pagesAllocated = (t.openFileTable d).pagesAllocated := by
  choose! Q hQ using hbuffer
  obtain ⟨vmm, hcopy, rfl⟩ := Option.map_eq_some_iff.mp hcall
  obtain ⟨vmm', hcopy', hsame, hout, -⟩ := Vmm.memcpy_spec h.step.wf.dir_mod (h.dataAt hfits) hQ
  obtain rfl : vmm' = vmm := Option.some.inj (hcopy'.symm.trans hcopy)
  refine ⟨h.congr (h.step.wf.zeroStep_of_stores h.step.bitmap.keeps hsame
    fun x hx ↦ hout x fun _ _ ↦ ne_mod_pageSize hx _) rfl ?_, ?_⟩ <;> simp [setFile]

/-- The last step only reads. -/
theorem ZeroFile.writeBack (h : s.ZeroFile d t) {leftover : ℕ}
    (hsaves : bytesToBlocks (t.inodeOf d).size = 0 ∨
      leftover + bytesToBlocks (t.inodeOf d).size * fsBlock ≤
        (t.openFileTable d).pagesAllocated * pageSize)
    (hcall : t.writeBack d leftover = some u) : s.ZeroFile d u := by
  obtain ⟨⟨disk, vmm⟩, hsave, rfl⟩ := Option.map_eq_some_iff.mp hcall
  have hpages := h.dataAt (a := leftover) (hsaves.imp (fun h0 ↦ by rw [h0, Nat.zero_mul]) id)
  obtain ⟨disk', hdisk⟩ := exists_saveBlocks
    (updateInode t.fs.disk t.fs.superblock (t.inodeOf d)) (t.inodeOf d) fun k hk ↦ (hpages k hk).1
  rw [saveFile] at hsave
  obtain ⟨-, rfl⟩ : disk' = disk ∧ t.vmm = vmm := by
    simpa using hdisk.symm.trans hsave
  exact h.congr (Vmm.ZeroStep.refl h.step.wf h.step.bitmap.keeps) rfl ⟨rfl, rfl⟩

/-- The pages of the descriptor, and those that a growth adds, hold all that a call stores and saves,
and the buffer is there. -/
structure WritesFull (t : Kernel) (d buffer length leftover : ℕ) : Prop where
  grows : ∀ bytes, (t.seekToEnd d).growth d length = some bytes → GrowsFull (t.seekToEnd d) d bytes
  copies : length = 0 ∨
    4 * t.writeStart d + length ≤ (t.seekToEnd d).pagesAfter d length * pageSize
  buffer : ∀ k < length, ∃ p, t.vmm.translate ((buffer + k) % 2 ^ 32) = some p
  saves : bytesToBlocks (max (t.inodeOf d).size ((t.writeStart d + length) % 2 ^ 32)) = 0 ∨
    leftover + bytesToBlocks (max (t.inodeOf d).size ((t.writeStart d + length) % 2 ^ 32)) *
      fsBlock ≤ (t.seekToEnd d).pagesAfter d length * pageSize

/-- A call on the descriptor that is refused, or stays inside its pages. -/
def WritesZero (d : ℕ) (t : Kernel) (c : WriteCall) : Prop :=
  c.fileDescriptor = d ∧ (Writable (t.openFileTable d) →
    WritesFull t d c.buffer.toNat c.length.toNat c.leftover.toNat)

/-- **A call of `sys_write`** on such a file. -/
theorem ZeroFile.write (h : s.ZeroFile d t) (hfull : s.vmm.pmm.findFreeBlocks 1 = none)
    {c : WriteCall} (hin : WritesZero d t c) (hcall : t.write c = some u) :
    s.ZeroFile d u ∧ SameFiles t u := by
  obtain ⟨hfd, hin⟩ := hin
  obtain ⟨⟨r, v⟩, hcall', rfl⟩ := Option.map_eq_some_iff.mp hcall
  refine ⟨?_, (sysWrite_disk hcall').1⟩
  obtain ⟨-, -, rfl⟩ | ⟨-, -, -, rfl⟩ | ⟨d', t₂, t₃, hd', hflags, -, h₂, h₃, h₅⟩ :=
    sysWrite_cases hcall'
  · exact h
  · exact h
  obtain rfl : d = d' := by
    rw [hfd] at hd'
    exact_mod_cast hd'
  obtain ⟨hgrows, hcopies, hbuffer, hsaves⟩ := hin hflags
  obtain ⟨hs₁, -, hit₁, hl₁⟩ := t.seekToEnd_spec d
  obtain ⟨hvmm₁, hnext₁, htable₁⟩ := t.seekToEnd_frame d
  have h₁ : s.ZeroFile d (t.seekToEnd d) :=
    h.congr (by rw [hvmm₁]; exact Vmm.ZeroStep.refl h.step.wf h.step.bitmap.keeps) hnext₁
      (by rw [htable₁, Function.update_self]; exact ⟨rfl, rfl⟩)
  -- the growth and the copy
  obtain ⟨hz₂, hstep₂, hpages₂⟩ := h₁.growPages hfull hgrows h₂
  obtain ⟨hs₂, -, hit₂, hl₂⟩ := growPages_spec h₂
  obtain ⟨hz₃, hpages₃⟩ := hz₂.copyBuffer (by rw [hl₂, hl₁, hpages₂]; exact hcopies)
    (fun k hk ↦ hstep₂.translate_ne (Nat.mod_lt _ (by decide)) (hvmm₁ ▸ hbuffer k hk)) h₃
  obtain ⟨hs₃, -, hit₃, hl₃⟩ := copyBuffer_spec h₃
  -- the size and the disk
  obtain ⟨-, -, hsize₄⟩ := t₃.growSize_spec d
  obtain ⟨hvmm₄, htable₄, hnext₄⟩ := t₃.growSize_frame d
  have h₄ : s.ZeroFile d (t₃.growSize d) :=
    hz₃.congr (by rw [hvmm₄]; exact Vmm.ZeroStep.refl hz₃.step.wf hz₃.step.bitmap.keeps) hnext₄
      (by rw [htable₄]; exact ⟨rfl, rfl⟩)
  have hsize : ((t₃.growSize d).inodeOf d).size =
      max (t.inodeOf d).size ((t.writeStart d + c.length.toNat) % 2 ^ 32) := by
    rw [hsize₄, hl₃, hl₂, hl₁, inodeOf, hit₃, hit₂, hit₁, ((hs₁.trans hs₂).trans hs₃).inodeIndex]
    rfl
  refine h₄.writeBack ?_ h₅
  rw [hsize, htable₄, hpages₃, hpages₂]
  exact hsaves

/-! ## Opening -/

/-- No frame is free, the inode is entered at the descriptor that the call returns, and its pages find
their page tables. -/
structure OpensFull (s : Kernel) (inode : Inode) (leftover : ℕ) : Prop where
  full : s.vmm.pmm.findFreeBlocks 1 = none
  zero : ¬ s.vmm.IsPaging 0
  slot : s.fileSlot (s.inodeSlot inode.iNumber) = some (s.inodeSlot inode.iNumber)
  pages : filePageCount (s.loadedInode inode).size < 2 ^ 8
  tables : s.vmm.HasTables s.fileVirtualAddress (filePageCount (s.loadedInode inode).size)
  loads : leftover = 0 ∨ (s.loadedInode inode).size = 0

/-- Paging and the bitmap are in order, and the next page for a file begins a page. -/
structure InOrder (s : Kernel) : Prop where
  wf : s.vmm.WF
  bitmap : s.vmm.KeepsBitmap
  aligned : s.fileVirtualAddress % pageSize = 0
  lt : s.fileVirtualAddress < 2 ^ 32

/-- The contents of a file go to frame 0. -/
theorem zeroStep_loadFile {m m' : Vmm} {inode : Inode} {address n leftover : ℕ} {disk : ByteStore}
    (hwf : m.WF) (hkeeps : m.KeepsBitmap) (hzero : ¬ m.IsPaging 0) (h : m.ZeroPages address n)
    (hn : bytesToBlocks inode.size ≤ n) (hloads : leftover = 0 ∨ inode.size = 0)
    (hload : loadFile disk inode m address leftover = some m') : Vmm.ZeroStep m m' := by
  rw [loadFile] at hload
  by_cases hsize : inode.size = 0
  · rw [hsize] at hload
    obtain rfl : m = m' := Option.some.inj hload
    exact Vmm.ZeroStep.refl hwf hkeeps
  · rw [hloads.resolve_right hsize] at hload
    have hdata := h.dataAt hzero (a := 0) (k := bytesToBlocks inode.size * fsBlock)
      (Or.inr (by rw [Nat.zero_add]; exact Nat.mul_le_mul_right _ hn))
    obtain ⟨m₁, hload', hsame, hram⟩ := loadBlocks_written disk inode hwf.dir_mod hdata
    obtain rfl : m₁ = m' := Option.some.inj (hload'.symm.trans hload)
    refine hwf.zeroStep_of_stores hkeeps hsame fun x hx ↦ ?_
    rcases hram x with ⟨-, hkeep⟩ | ⟨y, -, hy, -⟩
    · exact hkeep
    · exact absurd hy.symm (ne_mod_pageSize hx _)

/-- A file whose descriptor has the number of its inode's slot. -/
theorem opened_sameSlot {inode : Inode} (hindex : s.inodeSlot inode.iNumber = d)
    (hd : d < tableEntries) (hlt : filePageCount (s.loadedInode inode).size < 2 ^ 8) (flags : ℕ)
    (vmm : Vmm) : (s.opened inode flags d vmm).openFileTable d =
        ⟨d, 0, s.fileVirtualAddress, 1, flags, filePageCount (s.loadedInode inode).size⟩ ∧
      ((s.opened inode flags d vmm).inodeOf d).iNumber = inode.iNumber := by
  have hfile : (s.opened inode flags d vmm).openFileTable d =
      ⟨d, 0, s.fileVirtualAddress, 1, flags, filePageCount (s.loadedInode inode).size⟩ := by
    rw [opened, hindex, Nat.mod_eq_of_lt (show d < 2 ^ 8 from hd), Nat.mod_eq_of_lt hlt]
    exact Function.update_self ..
  refine ⟨hfile, ?_⟩
  rw [inodeOf, hfile]
  have hnum := (@enterInode_iNumber s inode (by rwa [hindex])).1
  rwa [hindex] at hnum

/-- **A call of `sys_open`** when no frame is free. -/
theorem zeroFile_sysOpen (h : s.InOrder) {path : List UInt8} {flags leftover : ℕ}
    (hin : OpensFull s (s.fs.getInode path) leftover)
    (hcall : s.sysOpen path flags leftover = some ((d : ℤ), t)) :
    s.ZeroFile d t ∧ (t.openFileTable d).maxCount = 1 ∧ (t.inodeOf d).iNumber ≠ 0 := by
  obtain ⟨-, hneg, -⟩ | ⟨hne, hret, d', vmm, hslot, hload, rfl⟩ := sysOpen_cases hcall rfl
  · omega
  obtain ⟨hfull, hzero, hdesc, hlt, htables, hloads⟩ := hin
  generalize s.fs.getInode path = inode at *
  -- the descriptor that is returned is the one that has been entered
  have hindex : s.inodeSlot inode.iNumber = d := by exact_mod_cast hret.symm
  rw [hindex] at hdesc hslot
  obtain rfl : d' = d := Option.some.inj (hslot.symm.trans hdesc)
  have hd : d' < tableEntries := by
    by_contra hge
    rw [fileSlot, if_neg hge, Option.some.injEq] at hdesc
    exact hge (hdesc ▸ by decide)
  obtain ⟨hstep, hpages⟩ := h.wf.mapPages_full h.bitmap hfull h.aligned htables
  have hzero₁ := hstep.isPaging_iff.not.mpr hzero
  have hblocks : bytesToBlocks (s.loadedInode inode).size ≤
      filePageCount (s.loadedInode inode).size := by
    rw [filePageCount]
    split <;> omega
  have hloaded := zeroStep_loadFile hstep.wf hstep.bitmap.keeps hzero₁ hpages hblocks hloads hload
  obtain ⟨hfile, hnum⟩ := opened_sameSlot hindex hd hlt flags vmm
  exact ⟨⟨hstep.trans hloaded, hloaded.isPaging_iff.not.mpr hzero₁, by rw [hfile],
    by rwa [hfile], by rw [hfile]; rfl, by rw [hfile]; exact hloaded.zeroPages hpages⟩,
    by rw [hfile], hnum.trans_ne hne⟩

end Kernel

end AbOS
