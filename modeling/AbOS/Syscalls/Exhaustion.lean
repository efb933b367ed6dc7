import AbOS.Lib.Run
import AbOS.Memory.Backed
import AbOS.Syscalls.Open
import AbOS.Syscalls.Write

/-!
# Running out of memory

`sys_open`, `sys_write`, `malloc_more_pages`, the shell and `page_fault_handler` take frames and map
them, and none of them looks at what `allocate_blocks` returns.  This module is about the mappings,
and about the tables and lists that the operations keep.  The bytes that an operation moves into
its pages are stores that come after it, with page faults of their own.

An operation that gets all its frames maps its pages to them (`allBacked_of_meets`), as long as
nobody but the allocator changes which frames are free.  One that does
not goes on all the same: the growth of the heap by more frames than there are maps its pages to
the frames from 0 on (`not_allBacked_lowMemory`).
-/

set_option autoImplicit false

namespace AbOS

/-- The kernel, with the globals of the heap and the shell. -/
structure Machine where
  kernel : Kernel
  /-- `heap_end`. -/
  heapEnd : ℕ
  /-- The addresses of the nodes from `malloc_head` on. -/
  heapList : List ℕ
  /-- `user_stack`. -/
  userStack : ℕ

/-- The operations that take frames, and the stores between them. -/
inductive MachineOp
  /-- `sys_open`, with the inode that `get_inode` finds. -/
  | sysOpen (inode : Inode) (flags : BitVec 32)
  | sysWrite (fileDescriptor : ℤ) (length : BitVec 32)
  | mallocMorePages (size : BitVec 32)
  /-- `exec` of the shell, behind its call of `sys_open`. -/
  | exec
  | pageFault (badAddress errorCode : BitVec 32)
  /-- A store of data, by one of these operations or by a program. -/
  | store (virt : BitVec 32) (value : UInt8)

/-- A loop of mappings. -/
structure MapLoop where
  frame : ℕ → Vmm → ℕ × Vmm
  start : Vmm
  virt : ℕ
  count : ℕ

namespace MapLoop

def run (l : MapLoop) : Vmm := l.start.mapPages l.frame l.virt l.count

/-- `allocate_blocks` returns 0 on the way. -/
def Refused (l : MapLoop) : Prop := l.start.PagesRefused l.frame l.virt l.count

end MapLoop

namespace Machine

/-- The mappings of an operation. -/
def loop (s : Machine) : MachineOp → Option MapLoop
  | .sysOpen inode _ =>
    if inode.iNumber = 0 then none
    else some ⟨Vmm.freshFrame, s.kernel.vmm, s.kernel.fileVirtualAddress,
      filePageCount (s.kernel.loadedInode inode).size⟩
  | .sysWrite fileDescriptor length =>
    if fileDescriptor < 0 ∨ ¬ Kernel.Writable (s.kernel.openFileTable fileDescriptor.toNat) then none
    else
      ((s.kernel.seekToEnd fileDescriptor.toNat).growth fileDescriptor.toNat length.toNat).map
        fun bytes ↦
          ⟨Vmm.freshFrame, s.kernel.vmm, s.kernel.fileVirtualAddress, filePageCount bytes⟩
  | .mallocMorePages size =>
    let n := mallocPages size.toNat
    let (phys, pmm) := s.kernel.vmm.pmm.allocateBlocks n
    some ⟨Vmm.rangeFrame phys, { s.kernel.vmm with pmm }, s.heapEnd, n⟩
  | .exec => some ⟨Vmm.freshFrame, s.kernel.vmm, (s.userStack + pageSize) % 2 ^ 32, 1⟩
  | .pageFault badAddress _ => some ⟨Vmm.freshFrame, s.kernel.vmm, badAddress.toNat, 1⟩
  | .store .. => none

/-- The memory after the mappings. -/
def mapped (s : Machine) (op : MachineOp) : Vmm := ((s.loop op).map MapLoop.run).getD s.kernel.vmm

/-- The physical address of `virt`, if its page is present and leads to data. -/
def dataAddress (s : Machine) (virt : ℕ) : Option ℕ :=
  (s.kernel.vmm.translate virt).filter fun p ↦ ¬ s.kernel.vmm.IsPaging (p / 4096)

/-- An operation, and what it returns if it returns anything.  A node at address 0 ends the heap
list like no node. -/
def step (s : Machine) (op : MachineOp) : Option (Option ℤ × Machine) :=
  match op with
  | .sysOpen inode flags =>
    if inode.iNumber = 0 then some (some (-1), s)
    else
      let index := s.kernel.inodeSlot inode.iNumber
      (s.kernel.fileSlot index).map fun d ↦
        (some index, { s with kernel := s.kernel.opened inode flags.toNat d (s.mapped op) })
  | .sysWrite fileDescriptor length =>
    if fileDescriptor < 0 then some (some fileDescriptor, s)
    else
      let d := fileDescriptor.toNat
      if ¬ Kernel.Writable (s.kernel.openFileTable d) then some (some (-1), s)
      else
        let k := s.kernel.seekToEnd d
        let k := match k.growth d length.toNat with
          | some bytes => k.addPages d (filePageCount bytes)
          | none => k
        let file := k.openFileTable d
        let k := k.setFile d { file with lseek := (file.lseek + length.toNat) % 2 ^ 32 }
        some (some length.toNat, { s with kernel := k.growSize d })
  | .mallocMorePages size =>
    some (some s.heapEnd, { s with
      kernel := { s.kernel with vmm := s.mapped op }
      heapEnd := (s.heapEnd + mallocPages size.toNat * pageSize) % 2 ^ 32
      heapList := if s.heapEnd = 0 then s.heapList else s.heapList ++ [s.heapEnd] })
  | .exec =>
    some (none, { s with
      kernel := { s.kernel with vmm := s.mapped op }
      userStack := (s.userStack + pageSize) % 2 ^ 32 })
  | .pageFault .. => some (none, { s with kernel := { s.kernel with vmm := s.mapped op } })
  | .store virt value =>
    (s.dataAddress virt.toNat).map fun p ↦
      (none, { s with kernel := { s.kernel with vmm := s.kernel.vmm.setRam p value } })

/-- The operation reports that it has failed. -/
def Failed : MachineOp → Option ℤ → Prop
  | .sysOpen .., r => r = some (-1)
  | .sysWrite .., r => ∃ k < 0, r = some k
  | .mallocMorePages _, r => r = some 0
  | _, _ => False

/-- The pages that an operation maps lead to frames it has been given; and if it is not given one,
it reports failure and leaves the directory, the heap list and the tables as they were. -/
structure Sound (s : Machine) (op : MachineOp) : Prop where
  backed : ∀ l, s.loop op = some l → Vmm.Backed s.kernel.vmm l.run l.virt l.count
  refused : ∀ l r t, s.loop op = some l → l.Refused → s.step op = some (r, t) →
    Failed op r ∧ (∀ v, v < 2 ^ 32 → t.kernel.vmm.walk v = s.kernel.vmm.walk v) ∧
      t.heapList = s.heapList ∧ t.kernel.openFileTable = s.kernel.openFileTable ∧
      t.kernel.openInodeTable = s.kernel.openInodeTable

/-- `allocate_blocks` finds a free block whenever the operation calls it. -/
def HasFrames (s : Machine) (op : MachineOp) : Prop := ∀ l, s.loop op = some l → ¬ l.Refused

/-- The operation stores no data in the frame `b`. -/
def StoresElsewhere (b : ℕ) (s : Machine) (op : MachineOp) : Prop :=
  ∀ virt value p, op = .store virt value → s.dataAddress virt.toNat = some p → p / 4096 ≠ b

/-- The operation stores no data in the bitmap, and maps none of the pages at which the kernel finds
it. -/
structure SparesBitmap (s : Machine) (op : MachineOp) : Prop where
  stores : ∀ b, BitmapFrame b → s.StoresElsewhere b op
  pages : ∀ l, s.loop op = some l → ∀ i < l.count,
    ¬ BitmapFrame ((l.virt + i * pageSize) % 2 ^ 32 / 4096)

/-- The state after an operation. -/
def next (s : Machine) (op : MachineOp) : Option Machine := (s.step op).map Prod.snd

/-! ## The full system calls -/

variable {s t : Machine}

/-- The mappings are those of the full `sys_open`, which goes on to load the file. -/
theorem step_sysOpen {path : List UInt8} {flags : BitVec 32} {leftover : ℕ} {r : ℤ} {k : Kernel}
    (h : s.kernel.sysOpen path flags.toNat leftover = some (r, k)) :
    s.step (.sysOpen (s.kernel.fs.getInode path) flags) =
      some (some r, { s with kernel :=
        { k with vmm := s.mapped (.sysOpen (s.kernel.fs.getInode path) flags) } }) := by
  rcases Kernel.sysOpen_cases h rfl with ⟨hzero, rfl, rfl⟩ | ⟨hne, rfl, d, vmm, hd, -, rfl⟩
  · rw [step, if_pos hzero, mapped, loop, if_pos hzero]
    rfl
  · rw [step, if_neg hne]
    dsimp only
    rw [hd]
    rfl

/-- The mappings and the tables are those of the full `sys_write`, which moves the bytes and writes
them to the disk. -/
theorem step_sysWrite {fileDescriptor : ℤ} {buffer : ℕ} {length : BitVec 32} {leftover : ℕ} {r : ℤ}
    {k : Kernel}
    (h : s.kernel.sysWrite fileDescriptor buffer length.toNat leftover = some (r, k)) :
    s.step (.sysWrite fileDescriptor length) = some (some r, { s with kernel :=
      { k with vmm := s.mapped (.sysWrite fileDescriptor length), fs := s.kernel.fs } }) := by
  rw [step, mapped, loop]
  obtain ⟨hneg, rfl, rfl⟩ | ⟨hpos, hflags, rfl, rfl⟩ | ⟨d, s₂, s₃, rfl, hflags, rfl, h₂, h₃, h₄⟩ :=
    Kernel.sysWrite_cases h
  · rw [if_pos hneg, if_pos (Or.inl hneg)]
    rfl
  · dsimp only
    rw [if_neg (Int.not_lt.mpr hpos), if_pos hflags, if_pos (Or.inr hflags)]
    rfl
  dsimp only
  rw [Int.toNat_natCast, if_neg (Int.not_lt.mpr (Int.natCast_nonneg d)),
    if_neg (not_not.mpr hflags), if_neg (not_or.mpr ⟨Int.not_lt.mpr (Int.natCast_nonneg d),
      not_not.mpr hflags⟩)]
  obtain ⟨hvmm, hnext, -⟩ := s.kernel.seekToEnd_frame d
  obtain ⟨-, hfs, -⟩ := s.kernel.seekToEnd_spec d
  rw [Kernel.growPages_eq] at h₂
  -- the kernel behind the mappings, and `s₂` with the bytes that have been cleared
  obtain ⟨k₀, hk₀, hmapped, hfs₀, vmm₂, rfl⟩ : ∃ k₀ : Kernel,
      (match (s.kernel.seekToEnd d).growth d length.toNat with
        | some bytes => (s.kernel.seekToEnd d).addPages d (filePageCount bytes)
        | none => s.kernel.seekToEnd d) = k₀ ∧
      k₀.vmm = ((((s.kernel.seekToEnd d).growth d length.toNat).map fun bytes ↦
        (⟨Vmm.freshFrame, s.kernel.vmm, s.kernel.fileVirtualAddress, filePageCount bytes⟩ :
          MapLoop)).map MapLoop.run).getD s.kernel.vmm ∧
      k₀.fs = s.kernel.fs ∧ ∃ vmm₂, s₂ = { k₀ with vmm := vmm₂ } := by
    cases hgrowth : (s.kernel.seekToEnd d).growth d length.toNat with
    | none =>
      rw [hgrowth] at h₂
      exact ⟨_, rfl, hvmm, hfs, _, (Option.some.inj h₂).symm⟩
    | some bytes =>
      rw [hgrowth] at h₂
      obtain ⟨vmm₂, -, rfl⟩ := Option.map_eq_some_iff.mp h₂
      refine ⟨_, rfl, ?_, hfs, vmm₂, rfl⟩
      show ((s.kernel.seekToEnd d).addPages d (filePageCount bytes)).vmm = _
      rw [Kernel.addPages, hvmm, hnext]
      rfl
  rw [hk₀, ← hmapped]
  obtain ⟨vmm₃, -, rfl⟩ := Option.map_eq_some_iff.mp h₃
  obtain ⟨⟨disk, vmm⟩, -, rfl⟩ := Option.map_eq_some_iff.mp h₄
  obtain ⟨u, hu⟩ : ∃ u, u = k₀.setFile d { k₀.openFileTable d with
    lseek := ((k₀.openFileTable d).lseek + length.toNat) % 2 ^ 32 } := ⟨_, rfl⟩
  obtain ⟨hvmmu, hfsu⟩ : u.vmm = k₀.vmm ∧ u.fs = k₀.fs := by rw [hu]; exact ⟨rfl, rfl⟩
  have hkernel : ({ ({ u with vmm := vmm₃ } : Kernel).growSize d with
      vmm := k₀.vmm, fs := s.kernel.fs } : Kernel) = u.growSize d := by
    rw [Kernel.growSize_vmm, ← hfs₀, ← hvmmu, ← hfsu, ← (u.growSize_frame d).1,
      ← (u.growSize_spec d).2.1]
  rw [hu] at hkernel
  exact congrArg (fun k : Kernel ↦ some (some (length.toNat : ℤ), ({ s with kernel := k } : Machine)))
    hkernel.symm

/-! ## What an operation maps -/

/-- The directory after an operation is that after its mappings, up to a byte of data. -/
theorem step_vmm {op : MachineOp} {r : Option ℤ} (h : s.step op = some (r, t)) :
    Vmm.SameTables (s.mapped op) t.kernel.vmm := by
  cases op with
  | sysOpen inode flags =>
    rw [step] at h
    split at h
    · rename_i hzero
      cases h
      rw [mapped, loop, if_pos hzero]
      exact Vmm.SameTables.refl _
    · obtain ⟨d, -, heq⟩ := Option.map_eq_some_iff.mp h
      cases heq
      exact Vmm.SameTables.refl _
  | sysWrite fileDescriptor length =>
    rw [step] at h
    by_cases hrefused : fileDescriptor < 0 ∨
        ¬ Kernel.Writable (s.kernel.openFileTable fileDescriptor.toNat)
    · have hsame : t = s := by
        split_ifs at h with hfd
        · cases h; rfl
        · dsimp only at h
          rw [if_pos (hrefused.resolve_left hfd)] at h
          cases h
          rfl
      rw [mapped, loop, if_pos hrefused, hsame]
      exact Vmm.SameTables.refl _
    · obtain ⟨hfd, hwritable⟩ := not_or.mp hrefused
      rw [if_neg hfd] at h
      dsimp only at h
      rw [if_neg hwritable] at h
      obtain ⟨-, ht⟩ := Prod.mk.inj (Option.some.inj h)
      rw [mapped, loop, if_neg hrefused, ← ht]
      generalize fileDescriptor.toNat = d
      obtain ⟨hvmm, hfva, -⟩ := s.kernel.seekToEnd_frame d
      cases (s.kernel.seekToEnd d).growth d length.toNat with
      | none =>
        dsimp only [Option.map_none, Option.getD_none]
        rw [(Kernel.growSize_frame ..).1, Kernel.setFile, hvmm]
        exact Vmm.SameTables.refl _
      | some bytes =>
        dsimp only [Option.map_some, Option.getD_some]
        rw [(Kernel.growSize_frame ..).1, Kernel.setFile, Kernel.addPages, hvmm, hfva]
        exact Vmm.SameTables.refl _
  | mallocMorePages size => cases h; exact Vmm.SameTables.refl _
  | exec => cases h; exact Vmm.SameTables.refl _
  | pageFault => cases h; exact Vmm.SameTables.refl _
  | store virt value =>
    obtain ⟨p, hp, heq⟩ := Option.map_eq_some_iff.mp h
    cases heq
    exact Vmm.sameTables_setRam (of_decide_eq_true (Option.filter_eq_some_iff.mp hp).2) value

/-- Each loop is one of two kinds. -/
theorem loop_cases {op : MachineOp} {l : MapLoop} (h : s.loop op = some l) :
    (l.frame = Vmm.freshFrame ∧ l.start = s.kernel.vmm) ∨
      (l.frame = Vmm.rangeFrame (s.kernel.vmm.pmm.allocateBlocks l.count).1 ∧
        l.start = { s.kernel.vmm with pmm := (s.kernel.vmm.pmm.allocateBlocks l.count).2 }) := by
  cases op with
  | sysOpen inode flags =>
    rw [loop] at h
    split_ifs at h
    cases h
    exact Or.inl ⟨rfl, rfl⟩
  | sysWrite fileDescriptor length =>
    rw [loop] at h
    split_ifs at h
    obtain ⟨bytes, -, rfl⟩ := Option.map_eq_some_iff.mp h
    exact Or.inl ⟨rfl, rfl⟩
  | mallocMorePages size => cases h; exact Or.inr ⟨rfl, rfl⟩
  | exec => cases h; exact Or.inl ⟨rfl, rfl⟩
  | pageFault => cases h; exact Or.inl ⟨rfl, rfl⟩
  | store => cases h

theorem loop_source (h : s.kernel.vmm.WF) {op : MachineOp} {l : MapLoop} (hl : s.loop op = some l) :
    Vmm.FrameSource l.frame ∧ l.start.WF ∧ ∃ q : Pmm, l.start = { s.kernel.vmm with pmm := q } ∧
      ∀ b, s.kernel.vmm.pmm.isSet b = true → q.isSet b = true := by
  rcases loop_cases hl with ⟨hframe, hstart⟩ | ⟨hframe, hstart⟩
  · rw [hframe, hstart]
    exact ⟨Vmm.frameSource_fresh, h, _, rfl, fun _ hb ↦ hb⟩
  · rw [hframe, hstart]
    exact ⟨Vmm.frameSource_range (Vmm.allocateBlocks_aligned ..),
      h.allocate (Pmm.allocateBlocks_maxBlocks ..) fun _ hb ↦ Pmm.isSet_allocateBlocks hb _, _, rfl,
      fun _ hb ↦ Pmm.isSet_allocateBlocks hb _⟩

theorem mapped_keepsFrame (h : s.kernel.vmm.WF) {b : ℕ} (hdata : s.kernel.vmm.HoldsData b)
    (op : MachineOp) : Vmm.KeepsFrame b s.kernel.vmm (s.mapped op) := by
  rw [mapped]
  cases hl : s.loop op with
  | none => exact Vmm.KeepsFrame.refl hdata
  | some l =>
    obtain ⟨hsource, hwf, q, hq, hset⟩ := loop_source h hl
    have hstart := Vmm.KeepsFrame.allocate hdata hset
    rw [← hq] at hstart
    rw [Option.map_some, Option.getD_some, MapLoop.run]
    exact hstart.trans (hwf.mapPages_keepsFrame hsource hstart.data l.virt l.count).2

theorem WF_mapped (h : s.kernel.vmm.WF) (op : MachineOp) : (s.mapped op).WF := by
  rw [mapped]
  cases hl : s.loop op with
  | none => exact h
  | some l =>
    rw [Option.map_some, Option.getD_some, MapLoop.run]
    rcases loop_cases hl with ⟨hframe, hstart⟩ | ⟨hframe, hstart⟩ <;> rw [hframe, hstart]
    · exact h.mapPages_freshFrame l.virt l.count
    · refine (Vmm.WF.mapPages_range ?_ _ (Vmm.allocateBlocks_aligned _ _) l.virt l.count).1
      exact h.allocate (Pmm.allocateBlocks_maxBlocks _ _) fun b hb ↦
        Pmm.isSet_allocateBlocks hb _

/-- The memory after an operation that stores no data. -/
theorem step_mapped {op : MachineOp} (hop : ∀ virt value, op ≠ .store virt value) {r : Option ℤ}
    (h : s.step op = some (r, t)) : t.kernel.vmm = s.mapped op := by
  cases op with
  | sysOpen inode flags =>
    rw [step] at h
    rw [mapped, loop]
    split_ifs at h ⊢ with hzero
    · cases h
      rfl
    · obtain ⟨d, -, heq⟩ := Option.map_eq_some_iff.mp h
      cases heq
      rw [mapped, loop, if_neg hzero]
      rfl
  | sysWrite fileDescriptor length =>
    rw [step] at h
    dsimp only at h
    rw [mapped, loop]
    split_ifs at h with hfd hwritable
    · cases h
      rw [if_pos (Or.inl hfd)]
      rfl
    · obtain ⟨-, rfl⟩ := Prod.mk.inj (Option.some.inj h)
      rw [if_neg (not_or.mpr ⟨hfd, not_not.mpr hwritable⟩)]
      generalize fileDescriptor.toNat = d
      obtain ⟨hvmm, hfva, -⟩ := s.kernel.seekToEnd_frame d
      rw [(Kernel.growSize_frame ..).1, Kernel.setFile]
      cases (s.kernel.seekToEnd d).growth d length.toNat with
      | none => exact hvmm
      | some bytes =>
        dsimp only
        rw [Kernel.addPages, hvmm, hfva]
        rfl
    · cases h
      rw [if_pos (Or.inr hwritable)]
      rfl
  | mallocMorePages size => cases h; rfl
  | exec => cases h; rfl
  | pageFault => cases h; rfl
  | store virt value => exact absurd rfl (hop virt value)

/-- An operation stores a byte of data, or its mappings are all that happens to the memory. -/
theorem next_cases {op : MachineOp} (h : s.kernel.vmm.WF) (hnext : s.next op = some t) :
    t.kernel.vmm.WF ∧ ((∃ virt value p, op = .store virt value ∧
        s.dataAddress virt.toNat = some p ∧ ¬ s.kernel.vmm.IsPaging (p / 4096) ∧
        t.kernel.vmm = s.kernel.vmm.setRam p value) ∨ t.kernel.vmm = s.mapped op) := by
  obtain ⟨⟨r, t⟩, hstep, rfl⟩ := Option.map_eq_some_iff.mp hnext
  have hwf := WF_mapped h op
  refine ⟨(step_vmm hstep).wf hwf.dir_mod hwf, ?_⟩
  by_cases hop : ∃ virt value, op = .store virt value
  · obtain ⟨virt, value, rfl⟩ := hop
    obtain ⟨p, hp, heq⟩ := Option.map_eq_some_iff.mp hstep
    cases heq
    exact Or.inl ⟨virt, value, p, rfl, hp,
      of_decide_eq_true (Option.filter_eq_some_iff.mp hp).2, rfl⟩
  · exact Or.inr (step_mapped (fun virt value heq ↦ hop ⟨virt, value, heq⟩) hstep)

/-- **One operation**, and a frame of data that it does not store into. -/
theorem next_keepsFrame {b : ℕ} {op : MachineOp} (h : s.kernel.vmm.WF)
    (hdata : s.kernel.vmm.HoldsData b) (helse : s.StoresElsewhere b op) (hnext : s.next op = some t) :
    t.kernel.vmm.WF ∧ Vmm.KeepsFrame b s.kernel.vmm t.kernel.vmm := by
  obtain ⟨hwf, ⟨virt, value, p, rfl, hp, hdata', hram⟩ | hmapped⟩ := next_cases h hnext
  · rw [hram] at hwf ⊢
    exact ⟨hwf, h.setRam_keepsFrame hdata hdata' (helse virt value p rfl hp) value⟩
  · rw [hmapped] at hwf ⊢
    exact ⟨hwf, mapped_keepsFrame h hdata op⟩

/-- **One operation** that spares the bitmap. -/
theorem next_bitmapKept {op : MachineOp} (h : s.kernel.vmm.WF) (hkeeps : s.kernel.vmm.KeepsBitmap)
    (hspares : s.SparesBitmap op) (hnext : s.next op = some t) :
    t.kernel.vmm.WF ∧ Vmm.BitmapKept s.kernel.vmm t.kernel.vmm := by
  obtain ⟨hwf, ⟨virt, value, p, rfl, hp, hdata, hram⟩ | hmapped⟩ := next_cases h hnext
  · rw [hram] at hwf ⊢
    exact ⟨hwf, h.setRam_bitmapKept hkeeps hdata
      (fun hb ↦ hspares.stores _ hb virt value p rfl hp rfl) value⟩
  refine ⟨hwf, ?_⟩
  rw [hmapped, mapped]
  cases hl : s.loop op with
  | none => exact Vmm.BitmapKept.refl hkeeps
  | some l =>
    obtain ⟨hsource, hwf, q, hq, hset⟩ := loop_source h hl
    have hstart := hkeeps.allocate hset
    rw [← hq] at hstart
    rw [Option.map_some, Option.getD_some, MapLoop.run]
    exact hstart.trans (hwf.mapPages_bitmapKept hsource hstart.keeps (hspares.pages l hl)).2

/-- The allocator keeps its bitmap to itself in every run that spares it. -/
theorem bitmapKept_of_run {ops : List MachineOp} (h : s.kernel.vmm.WF)
    (hkeeps : s.kernel.vmm.KeepsBitmap) (hspares : Run.Meets next SparesBitmap s ops)
    (hrun : Run.exec next s ops = some t) : Vmm.BitmapKept s.kernel.vmm t.kernel.vmm :=
  (hspares.invariant
    (fun u : Machine ↦ u.kernel.vmm.WF ∧ Vmm.BitmapKept s.kernel.vmm u.kernel.vmm)
    (fun _ _ _ hu hop hv ↦ by
      obtain ⟨hwf, hkept⟩ := next_bitmapKept hu.1 hu.2.keeps hop hv
      exact ⟨hwf, hu.2.trans hkept⟩)
    ⟨h, Vmm.BitmapKept.refl hkeeps⟩ hrun).2

/-- **One operation** that gets its frames. -/
theorem sound_of_hasFrames (h : s.kernel.vmm.WF) {op : MachineOp} (hframes : s.HasFrames op) :
    s.Sound op := by
  refine ⟨fun l hl ↦ ?_, fun l r t hl hrefused ↦ absurd hrefused (hframes l hl)⟩
  have hroom := hframes l hl
  rw [MapLoop.Refused] at hroom
  rw [MapLoop.run]
  rcases loop_cases hl with ⟨hframe, hstart⟩ | ⟨hframe, hstart⟩ <;> rw [hframe, hstart] at hroom ⊢
  · exact h.backed_freshFrame hroom
  · exact h.backed_rangeFrame hroom

/-- **Every page that is mapped has a frame** in every run whose operations get their frames, on a
machine whose allocator keeps its bitmap to itself. -/
theorem allBacked_of_meets {ops : List MachineOp} (h : s.kernel.vmm.WF)
    (hkeeps : s.kernel.vmm.KeepsBitmap) (hframes : Run.Meets next HasFrames s ops)
    (hspares : Run.Meets next SparesBitmap s ops) : Run.Meets next Sound s ops ∧
      ∀ t, Run.exec next s ops = some t → Vmm.BitmapKept s.kernel.vmm t.kernel.vmm :=
  ⟨hframes.of_invariant (fun s : Machine ↦ s.kernel.vmm.WF)
    (fun _ _ _ hs _ ht ↦ (next_cases hs ht).1)
    (fun _ _ hs hC ↦ sound_of_hasFrames hs hC) h,
    fun _ hrun ↦ bitmapKept_of_run h hkeeps hspares hrun⟩

/-! ## On the memory map of a PC -/

/-- When the kernel starts. -/
def start (m : Vmm) (fs : Fs) : Machine where
  kernel := {
    vmm := m
    fs
    openFileTable := fun _ ↦ OpenFile.zero
    openInodeTable := fun _ ↦ Inode.zero
    fileVirtualAddress := 0x40000000
    currentOpenFiles := 0
    currentOpenInodes := 0 }
  heapEnd := 0
  heapList := [mallocStart]
  userStack := 0xB0000000

/-- The heap grows by one page. -/
theorem allBacked_lowMemory :
    ∃ m, endOfPrekernel (fun _ ↦ 0) (fun _ ↦ 0) belowBitmapMap = some m ∧
      ∀ fs, Run.Meets next Sound (start m fs) [.mallocMorePages 4096] ∧
        ∀ t, Run.exec next (start m fs) [.mallocMorePages 4096] = some t →
          Vmm.BitmapKept m t.kernel.vmm := by
  obtain ⟨m, hboot, hkeeps, hmax, -, hset, -⟩ := exists_endOfPrekernel_belowBitmap
  have hfind : m.pmm.findFreeBlocks 1 = some 0x17 :=
    Pmm.findFreeBlocks_one_eq (by omega) (by rw [hset _ (by omega)]; rfl) fun c hc ↦ by
      rw [hset c (by omega)]; simp; omega
  obtain ⟨hframe, hblocks, -⟩ := Pmm.allocateBlocks_one hfind
  have hpages : mallocPages (4096 : BitVec 32).toNat = 1 := by decide
  have hroom : ¬ Vmm.PagesRefused (Vmm.rangeFrame (m.pmm.allocateBlocks 1).1)
      { m with pmm := (m.pmm.allocateBlocks 1).2 } 0 1 := by
    rintro (hrefused | hzero | htable)
    · exact hrefused
    · rw [hframe] at hzero
      exact absurd (show (0x17 * blockSize + 0 * pageSize) % 2 ^ 32 = 0 from hzero) (by decide)
    · -- the table of the lowest pages is there
      exact Vmm.not_tableRefused (endOfPrekernel_spec hboot).entry_zero htable
  refine ⟨m, hboot, fun fs ↦ allBacked_of_meets (endOfPrekernel_spec hboot).wf hkeeps
    ⟨fun l hl ↦ ?_, fun _ _ ↦ trivial⟩
    ⟨⟨fun _ _ _ _ _ heq ↦ (by cases heq), fun l hl i hi ↦ ?_⟩, fun _ _ ↦ trivial⟩⟩
  · cases hl
    rw [MapLoop.Refused, hpages]
    exact hroom
  · obtain ⟨hvirt, hcount⟩ : l.virt = 0 ∧ l.count = 1 := by cases hl; exact ⟨rfl, hpages⟩
    obtain rfl : i = 0 := by omega
    rw [hvirt, bitmapFrame_iff]
    omega

/-- **Exhaustion goes unnoticed**: the growth of the heap by 256 frames, when 136 are free, maps the
page at `0xFF000` to frame 255. -/
theorem not_allBacked_lowMemory :
    ∃ m, endOfPrekernel (fun _ ↦ 0) (fun _ ↦ 0) lowMemoryMap = some m ∧
      ∀ fs, ¬ Run.Meets next Sound (start m fs) [.mallocMorePages 0x100000] := by
  obtain ⟨m, hboot, hmax, -, hset, -⟩ := exists_endOfPrekernel_lowMemory
  have hwf := (endOfPrekernel_spec hboot).wf
  have hpages : mallocPages (0x100000 : BitVec 32).toNat = 255 + 1 := by decide
  -- no 256 frames in a row are free
  have hnone : m.pmm.findFreeBlocks (255 + 1) = none := by
    cases hfind : m.pmm.findFreeBlocks (255 + 1) with
    | none => rfl
    | some s =>
      obtain ⟨hle, hclear⟩ := (Pmm.findFreeBlocks_some hfind).2.1
      have hfirst := hclear 0 (by omega)
      rw [hset _ (by omega), decide_eq_false_iff_not] at hfirst
      have hlast := hclear (0x9F - s) (by omega)
      rw [hset _ (by omega), decide_eq_false_iff_not] at hlast
      omega
  refine ⟨m, hboot, fun fs hmeets ↦ ?_⟩
  have hbacked := hmeets.1.backed
    ⟨Vmm.rangeFrame (m.pmm.allocateBlocks (mallocPages (0x100000 : BitVec 32).toNat)).1,
      { m with pmm := (m.pmm.allocateBlocks (mallocPages (0x100000 : BitVec 32).toNat)).2 }, 0,
      mallocPages (0x100000 : BitVec 32).toNat⟩ rfl
  rw [hpages, MapLoop.run] at hbacked
  obtain ⟨-, ha⟩ | ⟨s, q, hs, -⟩ := m.pmm.allocateBlocks_cases (255 + 1)
  swap
  · rw [hnone] at hs
    cases hs
  rw [ha] at hbacked
  dsimp only at hbacked
  -- the last page leads to frame 255, which was not free
  obtain ⟨hwf₁, hent, -⟩ := hwf.mapPages_range 0 rfl 0 255
  have hlast := (hwf₁.mapAddress_step ((0 + 255 * pageSize) % 2 ^ 32)
    ((0 + 255 * pageSize) % 2 ^ 32) userFlags (by decide) (Nat.mod_lt _ (by omega)) (by decide)
    (by decide) (by decide)).1
  have hpd : pdIndex ((0 + 255 * pageSize) % 2 ^ 32) = 0 := by decide
  have hwalk := hlast.walk_virt (by decide) (by decide) (by decide) (by decide)
    (hlast.entry_ne (pdIndex_lt (by decide))
      (by rw [hpd]; exact hent 0 (by omega) (endOfPrekernel_spec hboot).entry_zero))
  obtain ⟨f, ⟨hfree, -⟩, hf⟩ := hbacked _ _ (by decide) (Or.inl ⟨255, by omega, rfl⟩) hwalk
  obtain rfl : f = 255 := by
    rw [pageSize] at hf
    omega
  rw [show (start m fs).kernel.vmm.pmm = m.pmm from rfl, hset 255 (by omega)] at hfree
  exact absurd hfree (by decide)

end Machine

end AbOS
