import AbOS.Syscalls.Isolation

/-!
# Which file a descriptor selects

`sys_open` returns the number of the slot its inode is in, and enters the descriptor in the first
free slot of the other table.  As long as no file is open twice, the two tables have the same slots
in use (`Paired`), so the numbers agree.  The pages are loaded from the inode in slot `2 * index`,
which is that of the file when `index` is 0.

`Session` keeps what a caller knows: the descriptors it got and has not closed, and the files it
asked for.  In runs that open no file twice, and files with contents in the first slot only, each of
them selects its own file (`identified_of_meets`).  A file that is opened again gets the number of
its first descriptor (`not_identified_twoFiles`).
-/

set_option autoImplicit false

namespace AbOS

/-- The kernel, and the descriptors that were returned and are not closed, each with the inode of
the path it was opened for. -/
structure Session where
  kernel : Kernel
  opened : List (ℤ × Inode)

namespace Kernel

/-- The descriptor `d` is in use and selects the file of `inode`, and its pages hold the file. -/
structure Selects (s : Kernel) (d : ℕ) (inode : Inode) : Prop where
  isOpen : d ∈ s.openFiles
  iNumber : (s.inodeOf d).iNumber = inode.iNumber
  contents : ∀ y < inode.size, ∃ p,
    s.vmm.translate (((s.openFileTable d).address + y) % 2 ^ 32) = some p ∧
      s.vmm.ram p = s.fs.disk (fileByte inode y)

/-- A call of `sys_open` for a file that exists, with a free slot left in both tables, returns the
entry that it fills. -/
def OpensFile (s : Kernel) : FileCall → Prop
  | .sysOpen path flags leftover =>
    (s.fs.getInode path).iNumber ≠ 0 →
    (∃ d < tableEntries, (s.openFileTable d).maxCount = 0) →
    (∃ i < tableEntries, (s.openInodeTable i).iNumber = 0) →
    ∃ (d : ℕ) (t : Kernel) (inodeIndex pages : ℕ),
      s.sysOpen path flags.toNat leftover.toNat = some ((d : ℤ), t) ∧
      t.openFileTable = Function.update s.openFileTable d
        ⟨inodeIndex, 0, s.fileVirtualAddress, 1, flags.toNat, pages⟩ ∧
      t.Selects d (s.fs.getInode path)
  | .sysClose _ => True

/-- A file is opened that is not open, and that is empty or comes into the first slot.  Its pages
are new ones, and it is loaded to the first of them.  A descriptor that is closed gives back pages
of its own. -/
def OpensOnce (s : Kernel) : FileCall → Prop
  | .sysOpen path _ leftover =>
    let inode := s.fs.getInode path
    inode.iNumber ≠ 0 →
      (∀ i ≤ tableEntries, (s.openInodeTable i).iNumber ≠ inode.iNumber) ∧
      ((s.openInodeTable 0).iNumber = 0 ∨ inode.size = 0) ∧ s.fileVirtualAddress ≠ 0 ∧
      OpensInside s.FileFrame s inode leftover.toNat
  | .sysClose fileDescriptor => s.StaysInside (.call (.sysClose fileDescriptor))

/-- The same slots of both tables are in use, and a descriptor refers to the inode in its slot. -/
structure Paired (s : Kernel) : Prop where
  occupied : ∀ i < tableEntries,
    (s.openFileTable i).maxCount ≠ 0 ↔ (s.openInodeTable i).iNumber ≠ 0
  entry : ∀ d ∈ s.openFiles, (s.openFileTable d).maxCount = 1 ∧ (s.openFileTable d).address ≠ 0 ∧
    (s.openFileTable d).inodeIndex = d

end Kernel

namespace Session

/-- One call. -/
def step (s : Session) : Kernel.FileCall → Option Session
  | .sysOpen path flags leftover =>
    (s.kernel.sysOpen path flags.toNat leftover.toNat).map fun (r, kernel) ↦
      ⟨kernel, if r < 0 then s.opened else (r, s.kernel.fs.getInode path) :: s.opened⟩
  | .sysClose fileDescriptor =>
    let (r, kernel) := s.kernel.sysClose fileDescriptor
    some ⟨kernel, if r < 0 then s.opened else s.opened.filter fun o ↦ o.1 ≠ fileDescriptor⟩

/-- Descriptors that are open at the same time are different numbers, and each selects its own
file. -/
structure Identified (s : Session) : Prop where
  nodup : (s.opened.map Prod.fst).Nodup
  selects : ∀ o ∈ s.opened, ∃ d : ℕ, o.1 = d ∧ s.kernel.Selects d o.2

/-- The invariant: the descriptors of the caller are open, with their files in the pages that they
own. -/
structure Inv (F : ℕ → ℕ → ℕ) (s : Session) : Prop where
  owns : s.kernel.OwnsPages F
  paired : s.kernel.Paired
  nodup : (s.opened.map Prod.fst).Nodup
  selects : ∀ o ∈ s.opened, ∃ d ∈ s.kernel.openFiles, o.1 = d ∧ s.kernel.openInodeTable d = o.2
  fits : ∀ d ∈ s.kernel.openFiles,
    (s.kernel.openInodeTable d).size ≤ (s.kernel.openFileTable d).pagesAllocated * pageSize
  loaded : ∀ d ∈ s.kernel.openFiles, ∀ y < (s.kernel.openInodeTable d).size,
    s.kernel.vmm.ram (Vmm.frameByte (F d) y) =
      s.kernel.fs.disk (fileByte (s.kernel.openInodeTable d) y)

end Session

open Kernel

/-! ## The slots -/

namespace Kernel

variable {s t : Kernel}

/-- **The same slot is the first free one of both tables.** -/
theorem Paired.fileSlot (h : s.Paired) {index : ℕ} (hindex : index < tableEntries)
    (hfirst : index = findSlot fun i ↦ (s.openInodeTable i).iNumber == 0) :
    s.fileSlot index = some index ∧ (s.openFileTable index).maxCount = 0 := by
  have hfree : (s.openFileTable index).maxCount = 0 := by
    have hzero := findSlot_lt (p := fun i ↦ (s.openInodeTable i).iNumber == 0) (hfirst ▸ hindex)
    rw [← hfirst] at hzero
    by_contra hne
    exact (h.occupied index hindex).mp hne (beq_iff_eq.mp hzero)
  refine ⟨fileSlot_of_used hindex (fun e he ↦ ?_) hfree hindex, hfree⟩
  have hused : (s.openFileTable e).maxCount ≠ 0 := by
    refine (h.occupied e (he.trans hindex)).mpr fun hzero ↦ ?_
    have := findSlot_le_of (p := fun i ↦ (s.openInodeTable i).iNumber == 0)
      (beq_iff_eq.mpr hzero) (he.trans hindex)
    omega
  exact ⟨(h.entry e (mem_openFiles.mpr ⟨he.trans hindex, hused⟩)).2.1, hused⟩

/-- A file that is not open gets the first free slot. -/
theorem Paired.inodeSlot_lt (h : s.Paired) {Keep : ℕ → Prop} {inode : Inode} {leftover : ℕ}
    (hnew : ∀ i ≤ tableEntries, (s.openInodeTable i).iNumber ≠ inode.iNumber)
    (hin : OpensInside Keep s inode leftover) : s.inodeSlot inode.iNumber < tableEntries := by
  have hslot := inodeSlot_of_new hnew
  refine lt_of_le_of_ne (hslot ▸ findSlot_le _) fun hfull ↦ ?_
  -- the search for a descriptor is skipped, and the first one is in use
  obtain ⟨d, -, hd, hfree⟩ := hin.slot
  rw [Kernel.fileSlot, hfull, if_neg (Nat.lt_irrefl _)] at hd
  obtain rfl : 0 = d := Option.some.inj hd
  have hused := findSlot_eq (hslot.symm.trans hfull) (show 0 < tableEntries by decide)
  exact (h.occupied 0 (by decide)).mpr (bne_iff_ne.mp (by rw [bne, hused]; rfl)) hfree

/-- The pages of a file are loaded from the file when it comes into slot 0. -/
theorem loadedInode_of_first {inode : Inode}
    (hnew : ∀ i ≤ tableEntries, (s.openInodeTable i).iNumber ≠ inode.iNumber)
    (hfirst : (s.openInodeTable 0).iNumber = 0) : s.loadedInode inode = inode := by
  have hzero : s.inodeSlot inode.iNumber = 0 := by
    rw [inodeSlot_of_new hnew]
    exact Nat.le_zero.mp (findSlot_le_of (beq_iff_eq.mpr hfirst) (by decide))
  rw [loadedInode, enterInode_of_new hnew, hzero]
  exact Function.update_self (β := fun _ ↦ Inode) 0 inode s.openInodeTable

/-- **Opening a file** that is not open: its slot in both tables, and its pages. -/
theorem Paired.sysOpen (h : s.Paired) {F : ℕ → ℕ → ℕ} (hF : s.OwnsPages F) {Keep : ℕ → Prop}
    {path : List UInt8} {inode : Inode} {leftover : ℕ} (flags : ℕ)
    (hinode : s.fs.getInode path = inode) (hne : inode.iNumber ≠ 0)
    (hnew : ∀ i ≤ tableEntries, (s.openInodeTable i).iNumber ≠ inode.iNumber)
    (hfirst : (s.openInodeTable 0).iNumber = 0 ∨ inode.size = 0)
    (hin : OpensInside Keep s inode leftover) : ∃ d n t f, d < tableEntries ∧
      (s.openFileTable d).maxCount = 0 ∧ s.sysOpen path flags leftover = some ((d : ℤ), t) ∧
      t.openFileTable = Function.update s.openFileTable d
        ⟨d, 0, s.fileVirtualAddress, 1, flags, n⟩ ∧
      t.openInodeTable = Function.update s.openInodeTable d inode ∧ t.fs = s.fs ∧
      Vmm.NewPages Keep s.vmm s.fileVirtualAddress n f t.vmm ∧
      Vmm.BitmapKept s.vmm t.vmm ∧ t.OwnsPages (growFrames F d 0 f) ∧ inode.size ≤ n * pageSize ∧
      ∀ y < inode.size, t.vmm.ram (Vmm.frameByte f y) = s.fs.disk (fileByte inode y) := by
  have hlt := h.inodeSlot_lt hnew hin
  obtain ⟨hfile, hfree⟩ := h.fileSlot hlt (inodeSlot_of_new hnew)
  obtain ⟨d, vmm, f, -, hd, hload, hpages, hkept, howns, hram⟩ := hF.sysOpen hin
  obtain rfl : s.inodeSlot inode.iNumber = d := Option.some.inj (hfile.symm.trans hd)
  have hcount := hin.pages
  have hbytes := bytesToBlocks_eq inode.size
  have hloaded : inode.size = 0 ∨ s.loadedInode inode = inode :=
    hfirst.symm.imp_right (loadedInode_of_first hnew)
  refine ⟨_, filePageCount (s.loadedInode inode).size, s.opened inode flags _ vmm, f, hlt, hfree,
    ?_, ?_, ?_, (s.enterInode_frame inode).2.1, hpages, hkept, howns flags, ?_, fun y hy ↦ ?_⟩
  · rw [sysOpen_eq hinode hne, hfile, Option.bind_some, hload]
    rfl
  · show Function.update s.openFileTable _ _ = _
    rw [Nat.mod_eq_of_lt (show _ < 2 ^ 8 from hlt), Nat.mod_eq_of_lt hcount]
  · show (s.enterInode inode).openInodeTable = _
    rw [enterInode_of_new hnew]
    rfl
  · rcases hloaded with h0 | hsame
    · omega
    · rw [hsame, filePageCount, pageSize]
      split <;> omega
  · have hsame := hloaded.resolve_left (by omega)
    rw [← hsame] at hy hbytes
    rw [← congrArg (fileByte · y) hsame]
    exact hram y (by rw [pageSize]; omega)

/-- The last close of a descriptor clears both of its slots. -/
theorem sysClose_last {d : ℕ} (hinode : (s.inodeOf d).iNumber ≠ 0)
    (hcount : (s.openFileTable d).maxCount = 1) : s.sysClose d = (0, { s with
      vmm := s.vmm.closePages (s.openFileTable d).address (filePageCount (s.inodeOf d).size)
      openFileTable := Function.update s.openFileTable d OpenFile.zero
      openInodeTable :=
        Function.update s.openInodeTable (s.openFileTable d).inodeIndex Inode.zero }) := by
  rw [sysClose, if_neg (Int.not_lt.mpr (Int.natCast_nonneg d)), Int.toNat_natCast]
  dsimp only
  rw [if_neg (not_or.mpr ⟨hinode, by rw [hcount]; decide⟩), if_pos (by rw [hcount])]
  simp only [setFile, setInode, Function.update_idem]

end Kernel

/-! ## The invariant -/

namespace Session

variable {s t : Session} {F : ℕ → ℕ → ℕ}

theorem Inv.identified (h : s.Inv F) : s.Identified := by
  refine ⟨h.nodup, fun o ho ↦ ?_⟩
  obtain ⟨d, hd, hfd, hinode⟩ := h.selects o ho
  have hof : s.kernel.inodeOf d = o.2 := by rw [inodeOf, (h.paired.entry d hd).2.2, hinode]
  refine ⟨d, hfd, hd, by rw [hof], fun y hy ↦ ?_⟩
  rw [← hinode] at hy ⊢
  have hbyte : y + 1 ≤ (s.kernel.openFileTable d).pagesAllocated * pageSize :=
    hy.trans_le (h.fits d hd)
  have hdata := (h.owns.region d hd).dataAt (Or.inr hbyte) 0 Nat.one_pos
  exact ⟨_, hdata.1, h.loaded d hd y hy⟩

/-- **Opening a file** that is not open. -/
theorem Inv.sysOpen (h : s.Inv F) {path : List UInt8} {flags leftover : BitVec 32}
    (hin : s.kernel.OpensOnce (.sysOpen path flags leftover))
    (hne : (s.kernel.fs.getInode path).iNumber ≠ 0) :
    ∃ (d : ℕ) (t : Kernel) (G : ℕ → ℕ → ℕ) (pages : ℕ),
      s.kernel.sysOpen path flags.toNat leftover.toNat = some ((d : ℤ), t) ∧
      t.openFileTable = Function.update s.kernel.openFileTable d
        ⟨d, 0, s.kernel.fileVirtualAddress, 1, flags.toNat, pages⟩ ∧
      t.openInodeTable = Function.update s.kernel.openInodeTable d (s.kernel.fs.getInode path) ∧
      Vmm.BitmapKept s.kernel.vmm t.vmm ∧
      Inv G ⟨t, ((d : ℤ), s.kernel.fs.getInode path) :: s.opened⟩ := by
  obtain ⟨hnew, hfirst, hnext, hinside⟩ := hin hne
  generalize hinode : s.kernel.fs.getInode path = inode at *
  obtain ⟨d, n, t, f, hd, hfree, hcall, htable, hinodes, hfs, hpages, hkept, howns, hfits, hram⟩ :=
    h.paired.sysOpen h.owns flags.toNat hinode hne hnew hfirst hinside
  have hopen := openFiles_insert (t := t) hd Nat.one_ne_zero htable
  have hnot := not_mem_openFiles hfree
  have hold : ∀ e ∈ s.kernel.openFiles, e ≠ d := fun e he heq ↦ hnot (heq ▸ he)
  have hcases : ∀ e ∈ t.openFiles, e = d ∨ (e ≠ d ∧ e ∈ s.kernel.openFiles) := fun e he ↦ by
    rw [hopen, Finset.mem_insert] at he
    exact he.imp_right fun he ↦ ⟨hold e he, he⟩
  refine ⟨d, t, growFrames F d 0 f, n, hcall, htable, hinodes, hkept, howns,
    ⟨fun i hi ↦ ?_, fun e he ↦ ?_⟩, ?_, ?_, fun e he ↦ ?_, fun e he y hy ↦ ?_⟩
  · rw [htable, hinodes]
    by_cases hi : i = d
    · rw [hi, Function.update_self, Function.update_self]
      exact iff_of_true Nat.one_ne_zero hne
    · rw [Function.update_of_ne hi, Function.update_of_ne hi]
      exact h.paired.occupied i ‹_›
  · rw [htable]
    rcases hcases e he with rfl | ⟨hed, hes⟩
    · rw [Function.update_self]
      exact ⟨rfl, hnext, rfl⟩
    · rw [Function.update_of_ne hed]
      exact h.paired.entry e hes
  · refine List.nodup_cons.mpr ⟨fun hmem ↦ ?_, h.nodup⟩
    obtain ⟨o, ho, hfd⟩ := List.mem_map.mp hmem
    obtain ⟨e, he, hfe, -⟩ := h.selects o ho
    exact hold e he (by omega)
  · rw [List.forall_mem_cons, hinodes]
    refine ⟨⟨d, hopen ▸ Finset.mem_insert_self .., rfl, Function.update_self ..⟩, fun o ho ↦ ?_⟩
    obtain ⟨e, he, hfe, hsame⟩ := h.selects o ho
    exact ⟨e, hopen ▸ Finset.mem_insert_of_mem he, hfe,
      (Function.update_of_ne (hold e he) ..).trans hsame⟩
  · rw [hinodes, htable]
    rcases hcases e he with rfl | ⟨hed, hes⟩
    · rw [Function.update_self, Function.update_self]
      exact hfits
    · rw [Function.update_of_ne hed, Function.update_of_ne hed]
      exact h.fits e hes
  · rw [hinodes] at hy ⊢
    rw [hfs]
    rcases hcases e he with rfl | ⟨hed, hes⟩
    · rw [Function.update_self] at hy ⊢
      rw [← hram y hy, growFrames, Function.update_self]
      rfl
    · -- the pages of other files are in use
      rw [Function.update_of_ne hed] at hy ⊢
      have hpage := page_lt (hy.trans_le (h.fits e hes))
      rw [growFrames_of_ne hed, ← h.loaded e hes y hy]
      refine hpages.ram _ ?_ ?_ ?_ <;> rw [Vmm.frameByte_div]
      · exact h.owns.isSet e hes _ hpage
      · exact (h.owns.region e hes).data _ hpage
      · exact h.owns.fileFrame hes hpage

/-- **Closing a descriptor.** -/
theorem Inv.sysClose (h : s.Inv F) {fileDescriptor : ℤ}
    (hin : s.kernel.OpensOnce (.sysClose fileDescriptor))
    (hstep : s.step (.sysClose fileDescriptor) = some t) :
    t.Inv F ∧ Vmm.BitmapKept s.kernel.vmm t.kernel.vmm := by
  rw [step] at hstep
  by_cases hrefused : s.kernel.CountsRight (.sysClose fileDescriptor)
  · rw [sysClose_of_refused hrefused] at hstep
    cases hstep
    exact ⟨h, Vmm.BitmapKept.refl h.owns.bitmap⟩
  obtain ⟨hpos, hinode, hcount⟩ : 0 ≤ fileDescriptor ∧
      (s.kernel.inodeOf fileDescriptor.toNat).iNumber ≠ 0 ∧
      (s.kernel.openFileTable fileDescriptor.toNat).maxCount ≠ 0 := by
    rw [CountsRight, not_or, not_or] at hrefused
    exact ⟨Int.not_lt.mp hrefused.1, hrefused.2⟩
  obtain ⟨hd, hinside⟩ := hin hpos hinode hcount
  obtain ⟨d, rfl⟩ := Int.eq_ofNat_of_zero_le hpos
  rw [Int.toNat_natCast] at hinode hcount hd hinside
  have hopen : d ∈ s.kernel.openFiles := mem_openFiles.mpr ⟨hd, hcount⟩
  obtain ⟨hone, -, hindex⟩ := h.paired.entry d hopen
  obtain ⟨howns, hkept⟩ := h.owns.sysClose fun _ _ ↦ ⟨hd, hinside⟩
  obtain ⟨hclosed, -⟩ := h.owns.closePages hopen hinside
  rw [sysClose_last hinode hone, hindex] at hstep howns hkept
  generalize ht : ({ s.kernel with
    vmm := s.kernel.vmm.closePages (s.kernel.openFileTable d).address
      (filePageCount (s.kernel.inodeOf d).size)
    openFileTable := Function.update s.kernel.openFileTable d OpenFile.zero
    openInodeTable := Function.update s.kernel.openInodeTable d Inode.zero } : Kernel) = u
    at hstep howns hkept
  have htable : u.openFileTable = Function.update s.kernel.openFileTable d OpenFile.zero := by
    rw [← ht]
  have hinodes : u.openInodeTable = Function.update s.kernel.openInodeTable d Inode.zero := by
    rw [← ht]
  have hfs : u.fs = s.kernel.fs := by rw [← ht]
  have hcases : ∀ e ∈ u.openFiles, e ≠ d ∧ e ∈ s.kernel.openFiles := fun e he ↦ by
    rw [mem_openFiles, htable] at he
    have hne : e ≠ d := fun heq ↦ by
      rw [heq, Function.update_self] at he
      exact he.2 rfl
    rw [Function.update_of_ne hne] at he
    exact ⟨hne, mem_openFiles.mpr he⟩
  dsimp only at hstep howns hkept
  rw [if_neg (by decide)] at hstep
  obtain rfl := Option.some.inj hstep
  refine ⟨⟨howns, ⟨fun i hi ↦ ?_, fun e he ↦ ?_⟩, ?_, fun o ho ↦ ?_, fun e he ↦ ?_,
    fun e he y hy ↦ ?_⟩, hkept⟩
  · rw [htable, hinodes]
    by_cases hid : i = d
    · rw [hid, Function.update_self, Function.update_self]
      exact iff_of_false (not_not.mpr rfl) (not_not.mpr rfl)
    · rw [Function.update_of_ne hid, Function.update_of_ne hid]
      exact h.paired.occupied i hi
  · obtain ⟨hne, hes⟩ := hcases e he
    rw [htable, Function.update_of_ne hne]
    exact h.paired.entry e hes
  · exact h.nodup.sublist (List.filter_sublist.map Prod.fst)
  · obtain ⟨ho, hne⟩ := List.mem_filter.mp ho
    obtain ⟨e, he, hfe, hsame⟩ := h.selects o ho
    have hed : e ≠ d := fun heq ↦ of_decide_eq_true hne (by rw [hfe, heq])
    refine ⟨e, ?_, hfe, by rw [hinodes, Function.update_of_ne hed, hsame]⟩
    rw [mem_openFiles, htable, Function.update_of_ne hed]
    exact mem_openFiles.mp he
  · obtain ⟨hne, hes⟩ := hcases e he
    rw [htable, hinodes, Function.update_of_ne hne, Function.update_of_ne hne]
    exact h.fits e hes
  · obtain ⟨hne, hes⟩ := hcases e he
    rw [hinodes, Function.update_of_ne hne] at hy ⊢
    rw [hfs, ← h.loaded e hes y hy, ← ht]
    refine hclosed.ram _ ?_
    rw [Vmm.frameByte_div]
    exact (h.owns.region e hes).data _ (page_lt (hy.trans_le (h.fits e hes)))

/-! ## Runs -/

/-- Nothing is open yet. -/
theorem inv_start {k : Kernel} (hzero : k.Zeroed) (hwf : k.vmm.WF) (hkeeps : k.vmm.KeepsBitmap)
    (hfirst : k.fileVirtualAddress = 0x40000000) : Inv (fun _ _ ↦ 0) ⟨k, []⟩ := by
  have hnone := hzero.not_mem_openFiles
  refine ⟨hzero.ownsPages hwf hkeeps hfirst _, ⟨fun i hi ↦ ?_, fun d hd ↦ absurd hd (hnone d)⟩,
    List.nodup_nil, fun o ho ↦ absurd ho List.not_mem_nil, fun d hd ↦ absurd hd (hnone d),
    fun d hd ↦ absurd hd (hnone d)⟩
  rw [hzero.openFileTable i hi, hzero.openInodeTable i hi]
  exact iff_of_false (not_not.mpr rfl) (not_not.mpr rfl)

/-- **One call.** -/
theorem Inv.step (h : s.Inv F) {c : FileCall} (hin : s.kernel.OpensOnce c)
    (hstep : s.step c = some t) : (∃ G, t.Inv G) ∧ Vmm.BitmapKept s.kernel.vmm t.kernel.vmm := by
  cases c with
  | sysOpen path flags leftover =>
    obtain ⟨⟨r, kernel⟩, hcall, rfl⟩ := Option.map_eq_some_iff.mp hstep
    by_cases hne : (s.kernel.fs.getInode path).iNumber = 0
    · obtain ⟨-, rfl, rfl⟩ := (sysOpen_cases hcall rfl).resolve_right fun hh ↦ hh.1 hne
      exact ⟨⟨F, h⟩, Vmm.BitmapKept.refl h.owns.bitmap⟩
    · obtain ⟨d, u, G, pages, hopen, -, -, hkept, hinv⟩ := h.sysOpen hin hne
      cases hopen.symm.trans hcall
      refine ⟨⟨G, ?_⟩, hkept⟩
      dsimp only
      rwa [if_neg (Int.not_lt.mpr (Int.natCast_nonneg d))]
  | sysClose fileDescriptor => exact (h.sysClose hin hstep).imp_left fun hinv ↦ ⟨F, hinv⟩

theorem Inv.opensFile (h : s.Inv F) {c : FileCall} (hin : s.kernel.OpensOnce c) :
    s.kernel.OpensFile c := by
  cases c with
  | sysOpen path flags leftover =>
    intro hne _ _
    obtain ⟨d, t, G, pages, hcall, htable, -, -, hinv⟩ := h.sysOpen hin hne
    obtain ⟨e, he, hselects⟩ := hinv.identified.selects _ List.mem_cons_self
    obtain rfl : d = e := Int.ofNat.inj he
    exact ⟨d, t, d, pages, hcall, htable, hselects⟩
  | sysClose => trivial

theorem Inv.opensFile_of_meets {calls : List FileCall} (h : s.Inv F)
    (hin : Run.Meets Session.step (fun s ↦ s.kernel.OpensOnce) s calls)
    (hrun : Run.exec Session.step s calls = some t) :
    ((∃ G, t.Inv G) ∧ Vmm.BitmapKept s.kernel.vmm t.kernel.vmm) ∧
      Run.Meets Session.step (fun s ↦ s.kernel.OpensFile) s calls :=
  ⟨hin.invariant (fun u : Session ↦ (∃ G, u.Inv G) ∧ Vmm.BitmapKept s.kernel.vmm u.kernel.vmm)
      (fun _ _ _ ⟨⟨_, hu⟩, hkept⟩ hc hv ↦ (hu.step hc hv).imp_right hkept.trans)
      ⟨⟨F, h⟩, Vmm.BitmapKept.refl h.owns.bitmap⟩ hrun,
    hin.of_invariant (fun s ↦ ∃ F, s.Inv F) (fun _ _ _ ⟨_, h⟩ hc ht ↦ (h.step hc ht).1)
      (fun _ _ ⟨_, h⟩ hc ↦ h.opensFile hc) ⟨F, h⟩⟩

/-- **Descriptors select their files** in every run that opens no file twice, on a machine whose
allocator keeps its bitmap to itself. -/
theorem identified_of_meets {k : Kernel} {calls : List FileCall} (hzero : k.Zeroed)
    (hwf : k.vmm.WF) (hkeeps : k.vmm.KeepsBitmap) (hfirst : k.fileVirtualAddress = 0x40000000)
    (hin : Run.Meets step (fun s ↦ s.kernel.OpensOnce) ⟨k, []⟩ calls)
    (hrun : Run.exec step ⟨k, []⟩ calls = some t) :
    t.Identified ∧ Vmm.BitmapKept k.vmm t.kernel.vmm ∧
      Run.Meets step (fun s ↦ s.kernel.OpensFile) ⟨k, []⟩ calls := by
  obtain ⟨⟨⟨G, hG⟩, hkept⟩, hopens⟩ :=
    (inv_start hzero hwf hkeeps hfirst).opensFile_of_meets hin hrun
  exact ⟨hG.identified, hkept, hopens⟩

theorem step_sysOpen (s : Session) (path : List UInt8) (flags leftover : BitVec 32) {d : ℕ}
    {k : Kernel}
    (hcall : s.kernel.sysOpen path flags.toNat leftover.toNat = some ((d : ℤ), k)) :
    s.step (.sysOpen path flags leftover) =
      some ⟨k, ((d : ℤ), s.kernel.fs.getInode path) :: s.opened⟩ := by
  rw [step, hcall, Option.map_some]
  dsimp only
  rw [if_neg (Int.not_lt.mpr (Int.natCast_nonneg d))]

/-- Two empty files, in the first two slots. -/
theorem identified_twoFiles : ∃ t, Run.exec step ⟨twoFiles, []⟩
      [.sysOpen [0x61] 0x21 0, .sysOpen [0x62] 0x21 0] = some t ∧ t.Identified ∧
    Vmm.BitmapKept twoFiles.vmm t.kernel.vmm ∧
    Run.Meets step (fun s ↦ s.kernel.OpensFile) ⟨twoFiles, []⟩
      [.sysOpen [0x61] 0x21 0, .sysOpen [0x62] 0x21 0] := by
  obtain ⟨hopens, -⟩ := twoFiles_opensInside twoFiles.FileFrame
  obtain ⟨-, hopens'⟩ := twoFiles_opensInside oneOpen.FileFrame
  have hget : twoFiles.fs.getInode [0x61] = diskInode twoFilesDisk oneEntrySuperblock 4 :=
    twoFiles_getInode 0 (by decide)
  have hget' : oneOpen.fs.getInode [0x62] = diskInode twoFilesDisk oneEntrySuperblock 5 := by
    rw [oneOpen_fs]
    exact twoFiles_getInode 1 (by decide)
  obtain ⟨hnum, -⟩ := twoFiles_diskInode 0 (by decide)
  obtain ⟨hnum', hsize'⟩ := twoFiles_diskInode 1 (by decide)
  have hstep := step_sysOpen ⟨twoFiles, []⟩ [0x61] 0x21 0 (d := 0) twoFiles_sysOpen
  generalize hsession : (⟨oneOpen, _⟩ : Session) = u at hstep
  have hkernel : u.kernel = oneOpen := by rw [← hsession]
  have hstep' := step_sysOpen u [0x62] 0x21 0 (d := 1) (k := bothOpen)
    (hkernel ▸ oneOpen_sysOpen)
  have hrun := Run.exec_cons.mpr ⟨u, hstep, Run.exec_singleton hstep'⟩
  refine ⟨_, hrun, identified_of_meets twoFiles_zeroed emptyTable_wf emptyTable_keepsBitmap rfl
    (Run.Meets.cons (fun _ ↦ ?_) hstep (Run.Meets.cons (fun _ ↦ ?_) hstep' trivial)) hrun⟩
  · refine ⟨fun i _ ↦ ?_, Or.inl rfl, by decide, hget ▸ hopens⟩
    rw [hget, hnum]
    exact show (0 : ℕ) ≠ 4 by decide
  · rw [hkernel]
    refine ⟨fun i _ ↦ ?_, Or.inr (hget' ▸ hsize'), ?_, hget' ▸ hopens'⟩
    · rw [hget', hnum', oneOpen_iNumber]
      split <;> decide
    · rw [oneOpen_tables.2.2]
      decide

/-- A file that is opened again gets the number of its first descriptor again. -/
theorem not_identified_twoFiles : ∃ t, Run.exec step ⟨twoFiles, []⟩
      [.sysOpen [0x61] 0x21 0, .sysOpen [0x61] 0x21 0] = some t ∧ ¬ t.Identified := by
  obtain ⟨-, k, hagain⟩ := oneOpen_again
  have hstep := step_sysOpen ⟨twoFiles, []⟩ [0x61] 0x21 0 (d := 0) twoFiles_sysOpen
  generalize hsession : (⟨oneOpen, _⟩ : Session) = u at hstep
  have hkernel : u.kernel = oneOpen := by rw [← hsession]
  have hopened : u.opened.map Prod.fst = [0] := by rw [← hsession]; rfl
  have hstep' := step_sysOpen u [0x61] 0x21 0 (d := 0) (k := k) (hkernel ▸ hagain)
  refine ⟨_, Run.exec_cons.mpr ⟨u, hstep, Run.exec_singleton hstep'⟩, fun h ↦ ?_⟩
  have hnodup := h.nodup
  rw [List.map_cons, hopened] at hnodup
  exact (List.nodup_cons.mp hnodup).1 List.mem_cons_self

end Session

end AbOS
