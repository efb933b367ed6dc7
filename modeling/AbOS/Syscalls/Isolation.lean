import AbOS.Lib.Run
import AbOS.Syscalls.OwnPages

/-!
# Whose pages are whose

Runs of calls that stay inside the pages of their descriptors keep these pages apart, and a write
leaves those of the others alone (`isolated_of_meets`).  When two files are open and the first one
grows, its pages are those of the second (`not_isolated_twoFiles`).
-/

set_option autoImplicit false

namespace AbOS

namespace Kernel

/-- The pages of open descriptors are mapped, each to a frame that is in no other of them. -/
structure Isolated (s : Kernel) : Prop where
  mapped : ∀ d ∈ s.openFiles, ∀ j < (s.openFileTable d).pagesAllocated,
    ∃ w, s.vmm.walk (s.page d j) = some w
  apart : ∀ d ∈ s.openFiles, ∀ e ∈ s.openFiles, ∀ j < (s.openFileTable d).pagesAllocated,
    ∀ k < (s.openFileTable e).pagesAllocated, ∀ w w', s.vmm.walk (s.page d j) = some w →
      s.vmm.walk (s.page e k) = some w' → w.1 = w'.1 → d = e

variable {s t : Kernel} {F : ℕ → ℕ → ℕ}

theorem OwnsPages.isolated (h : s.OwnsPages F) : s.Isolated where
  mapped := fun d hd j hj ↦ by
    obtain ⟨flags, hw⟩ := (h.region d hd).walk j hj
    exact ⟨_, hw⟩
  apart := fun d hd e he j hj k hk w w' hw hw' heq ↦ by
    obtain ⟨flags, hd'⟩ := (h.region d hd).walk j hj
    obtain ⟨flags', he'⟩ := (h.region e he).walk k hk
    rw [← Option.some.inj (hd'.symm.trans hw), ← Option.some.inj (he'.symm.trans hw')] at heq
    by_contra hne
    exact h.apart d hd e he hne j hj k hk (Nat.eq_of_mul_eq_mul_right (by decide) heq)

/-! ## Runs -/

/-- A call that opens, closes or writes. -/
inductive FileOp
  | call (c : FileCall)
  | write (c : WriteCall)

/-- The state after one of them. -/
def perform (s : Kernel) : FileOp → Option Kernel
  | .call c => s.serve c
  | .write c => s.write c

/-- A write changes no byte in the pages of another open descriptor. -/
def WritesOwn (s : Kernel) : FileOp → Prop
  | .call _ => True
  | .write c => ∀ t, s.write c = some t → ∀ e ∈ s.openFiles, (e : ℤ) ≠ c.fileDescriptor →
    ∀ k < (s.openFileTable e).pagesAllocated * pageSize, ∀ p,
      s.vmm.translate (((s.openFileTable e).address + k) % 2 ^ 32) = some p →
      t.vmm.translate (((s.openFileTable e).address + k) % 2 ^ 32) = some p ∧
        t.vmm.ram p = s.vmm.ram p

/-- The call stays inside the pages of its descriptor, or it is refused. -/
def StaysInside (s : Kernel) : FileOp → Prop
  | .call (.sysOpen path _ leftover) => (s.fs.getInode path).iNumber ≠ 0 →
    OpensInside (fun _ ↦ False) s (s.fs.getInode path) leftover.toNat
  | .call (.sysClose fileDescriptor) => 0 ≤ fileDescriptor →
    (s.inodeOf fileDescriptor.toNat).iNumber ≠ 0 →
    (s.openFileTable fileDescriptor.toNat).maxCount ≠ 0 →
      fileDescriptor.toNat < tableEntries ∧ ClosesInside s fileDescriptor.toNat
  | .write c => 0 ≤ c.fileDescriptor → Writable (s.openFileTable c.fileDescriptor.toNat) →
    c.fileDescriptor.toNat ∈ s.openFiles ∧ WritesInside s.FileFrame s c.fileDescriptor.toNat
      c.buffer.toNat c.length.toNat c.leftover.toNat

/-- A call of `sys_write` is refused, or changes the pages of its descriptor. -/
theorem OwnsPages.write_cases (h : s.OwnsPages F) {c : WriteCall} (hin : s.StaysInside (.write c))
    (hstep : s.write c = some t) : t = s ∨ ∃ d ∈ s.openFiles, c.fileDescriptor = d ∧ ∃ G,
      Changes s.FileFrame d (s.Touched d c.length.toNat) s F t G := by
  obtain ⟨⟨r, t⟩, hcall, rfl⟩ := Option.map_eq_some_iff.mp hstep
  obtain ⟨-, -, rfl⟩ | ⟨-, -, -, rfl⟩ | ⟨d, -, -, hfd, hflags, -⟩ := sysWrite_cases hcall
  · exact Or.inl rfl
  · exact Or.inl rfl
  · have hd : c.fileDescriptor.toNat = d := by rw [hfd, Int.toNat_natCast]
    rw [← hd] at hflags
    obtain ⟨hopen, hinside⟩ := hin (by rw [hfd]; exact Int.natCast_nonneg d) hflags
    obtain ⟨t', G, hcall', hchanges, -⟩ := h.exists_sysWrite hopen hflags hinside
    rw [hd] at hcall' hopen hchanges
    rw [hfd, hcall'] at hcall
    cases hcall
    exact Or.inr ⟨d, hopen, hfd, G, hchanges⟩

/-- **One call** that stays inside. -/
theorem OwnsPages.perform (h : s.OwnsPages F) {op : FileOp} (hin : s.StaysInside op)
    (hstep : s.perform op = some t) : (∃ G, t.OwnsPages G) ∧ Vmm.BitmapKept s.vmm t.vmm := by
  cases op with
  | call c =>
    cases c with
    | sysOpen path flags leftover =>
      obtain ⟨⟨r, t⟩, hcall, rfl⟩ := Option.map_eq_some_iff.mp hstep
      rcases sysOpen_cases hcall rfl with ⟨-, -, rfl⟩ | ⟨hne, -, d, vmm, hd, hload, rfl⟩
      · exact ⟨⟨F, h⟩, Vmm.BitmapKept.refl h.bitmap⟩
      · obtain ⟨d', vmm', f, -, hd', hload', -, hkept, hopened, -⟩ := h.sysOpen (hin hne)
        obtain rfl : d' = d := Option.some.inj (hd'.symm.trans hd)
        obtain rfl : vmm' = vmm := Option.some.inj (hload'.symm.trans hload)
        exact ⟨⟨_, hopened flags.toNat⟩, hkept⟩
    | sysClose fileDescriptor =>
      cases hstep
      by_cases hneg : fileDescriptor < 0
      · rw [Kernel.sysClose, if_pos hneg]
        exact ⟨⟨F, h⟩, Vmm.BitmapKept.refl h.bitmap⟩
      · have hfd : fileDescriptor = fileDescriptor.toNat := by omega
        rw [hfd]
        obtain ⟨howns, hkept⟩ := h.sysClose (hin (Int.not_lt.mp hneg))
        exact ⟨⟨F, howns⟩, hkept⟩
  | write c =>
    rcases h.write_cases hin hstep with rfl | ⟨d, -, -, G, hchanges⟩
    · exact ⟨⟨F, h⟩, Vmm.BitmapKept.refl h.bitmap⟩
    · exact ⟨⟨G, hchanges.owns⟩, hchanges.bitmapKept⟩

theorem OwnsPages.writesOwn (h : s.OwnsPages F) {op : FileOp} (hin : s.StaysInside op) :
    s.WritesOwn op := by
  cases op with
  | call => trivial
  | write c =>
    intro t hstep e he hne k hk p hp
    rcases h.write_cases hin hstep with rfl | ⟨d, hd, hfd, G, hchanges⟩
    · exact ⟨hp, rfl⟩
    · have hed : e ≠ d := fun heq ↦ hne (by rw [hfd, heq])
      have hbyte := ((h.region e he).dataAt (Or.inr (Nat.succ_le_of_lt hk)) 0 Nat.one_pos).1
      rw [Nat.add_zero, hp] at hbyte
      refine ⟨hchanges.translate _ _ (Nat.mod_lt _ (by decide)) hp, ?_⟩
      rw [Option.some.inj hbyte]
      exact hchanges.other_ram h he hed hd (fun j hj ↦ h.fileFrame he hj) hk

/-- **Open files are isolated** in every run whose calls stay inside the pages of their
descriptors, on a machine whose allocator keeps its bitmap to itself. -/
theorem isolated_of_meets {ops : List FileOp} (hzero : s.Zeroed) (hwf : s.vmm.WF)
    (hkeeps : s.vmm.KeepsBitmap) (hfirst : s.fileVirtualAddress = 0x40000000)
    (hin : Run.Meets perform StaysInside s ops) (hrun : Run.exec perform s ops = some t) :
    t.Isolated ∧ Vmm.BitmapKept s.vmm t.vmm ∧ Run.Meets perform WritesOwn s ops := by
  have hstart : ∃ F, s.OwnsPages F := ⟨fun _ _ ↦ 0, hzero.ownsPages hwf hkeeps hfirst _⟩
  obtain ⟨⟨G, hG⟩, hkept⟩ := hin.invariant
    (fun u : Kernel ↦ (∃ F, u.OwnsPages F) ∧ Vmm.BitmapKept s.vmm u.vmm)
    (fun _ _ _ ⟨⟨_, h⟩, hkept⟩ hop hv ↦ (h.perform hop hv).imp_right hkept.trans)
    ⟨hstart, Vmm.BitmapKept.refl hkeeps⟩ hrun
  exact ⟨hG.isolated, hkept, hin.of_invariant (fun s ↦ ∃ F, s.OwnsPages F)
    (fun _ _ _ ⟨_, h⟩ hop ht ↦ (h.perform hop ht).1)
    (fun _ _ ⟨_, h⟩ hop ↦ h.writesOwn hop) hstart⟩

/-! ## Growing in front of another file -/

/-- What a call of `sys_write` that grows the file does to the table. -/
theorem sysWrite_files {d bytes : ℕ} {r : ℤ} {buffer length leftover : ℕ}
    (hflags : Writable (s.openFileTable d))
    (hgrowth : (s.seekToEnd d).growth d length = some bytes)
    (hcall : s.sysWrite d buffer length leftover = some (r, t)) (e : ℕ) :
    (t.openFileTable e).address = (s.openFileTable e).address ∧
      (t.openFileTable e).maxCount = (s.openFileTable e).maxCount ∧
      (t.openFileTable e).pagesAllocated =
        if e = d then ((s.openFileTable d).pagesAllocated + filePageCount bytes) % 2 ^ 8
        else (s.openFileTable e).pagesAllocated := by
  rw [sysWrite_of_writable hflags] at hcall
  obtain ⟨s₂, h₂, hcall⟩ := Option.bind_eq_some_iff.mp hcall
  obtain ⟨s₃, h₃, hcall⟩ := Option.bind_eq_some_iff.mp hcall
  obtain ⟨s₅, h₅, hcall⟩ := Option.map_eq_some_iff.mp hcall
  cases hcall
  obtain ⟨⟨disk, vmm⟩, -, rfl⟩ := Option.map_eq_some_iff.mp h₅
  obtain ⟨vmm₃, -, rfl⟩ := Option.map_eq_some_iff.mp h₃
  rw [growPages_eq, hgrowth] at h₂
  obtain ⟨vmm₂, -, rfl⟩ := Option.map_eq_some_iff.mp h₂
  have hseek : ∀ c, ((s.seekToEnd d).openFileTable c).address = (s.openFileTable c).address ∧
      ((s.seekToEnd d).openFileTable c).maxCount = (s.openFileTable c).maxCount ∧
      ((s.seekToEnd d).openFileTable c).pagesAllocated = (s.openFileTable c).pagesAllocated :=
    fun c ↦ by
      rw [seekToEnd]
      split
      · simp only [setFile, Function.update_apply]
        split
        · rename_i hc
          rw [hc]
          exact ⟨rfl, rfl, rfl⟩
        · exact ⟨rfl, rfl, rfl⟩
      · exact ⟨rfl, rfl, rfl⟩
  dsimp only
  rw [(growSize_frame ..).2.1]
  simp only [setFile, addPages, Function.update_apply]
  by_cases he : e = d
  · rw [he]
    simp only [if_true, hseek d, true_and]
  · simp only [if_neg he, hseek e, true_and]

/-- A call that grows the file returns if the pages from its first one on, old and new, hold all that
it stores and saves. -/
theorem exists_sysWrite_of_region {d bytes buffer length leftover n : ℕ} {f : ℕ → ℕ}
    (hflags : Writable (s.openFileTable d)) (hseek : s.seekToEnd d = s)
    (hgrowth : s.growth d length = some bytes)
    (hdir : (s.addPages d (filePageCount bytes)).vmm.directory % 4096 = 0)
    (hregion : (s.addPages d (filePageCount bytes)).vmm.Region (s.openFileTable d).address n f)
    (hclear : 4 * (s.inodeOf d).size + bytes ≤ n * pageSize)
    (hcopies : 4 * (s.openFileTable d).lseek + length ≤ n * pageSize)
    (hbuffer : ∀ k < length, ∃ p, (s.addPages d (filePageCount bytes)).vmm.translate
      ((buffer + k) % 2 ^ 32) = some p)
    (hsaves : leftover + bytesToBlocks (max (s.inodeOf d).size
      (((s.openFileTable d).lseek + length) % 2 ^ 32)) * fsBlock ≤ n * pageSize) :
    ∃ t r, s.sysWrite d buffer length leftover = some (r, t) := by
  choose! Q hQ using hbuffer
  obtain ⟨m₁, hset, hsame, -⟩ := Vmm.memset_spec hdir (hregion.dataAt (Or.inr hclear)) 0
  have hregion₁ := hregion.sameTables hsame hdir
  have hdir₁ : m₁.directory % 4096 = 0 := hsame.directory ▸ hdir
  obtain ⟨m₂, hcopy, hsame', -⟩ := Vmm.memcpy_spec hdir₁ (hregion₁.dataAt (Or.inr hcopies))
    fun k hk ↦ (hsame.translate hdir (Nat.mod_lt _ (by decide))).trans (hQ k hk)
  have hregion₂ := hregion₁.sameTables hsame' hdir₁
  -- the growth
  obtain ⟨s₂, h₂, hvmm₂, haddress₂⟩ : ∃ s₂, s.growPages d length = some s₂ ∧ s₂.vmm = m₁ ∧
      (s₂.openFileTable d).address = (s.openFileTable d).address := by
    rw [growPages_eq, hgrowth]
    dsimp only
    rw [hset]
    exact ⟨_, rfl, rfl, by simp [addPages, setFile]⟩
  obtain ⟨hs₂, -, hit₂, hl₂⟩ := growPages_spec h₂
  -- the copy
  obtain ⟨s₃, h₃, hvmm₃, haddress₃⟩ : ∃ s₃, s₂.copyBuffer d buffer length = some s₃ ∧
      s₃.vmm = m₂ ∧ (s₃.openFileTable d).address = (s.openFileTable d).address := by
    rw [copyBuffer, hvmm₂, haddress₂, hl₂, hcopy]
    exact ⟨_, rfl, rfl, by simp [setFile]⟩
  obtain ⟨hs₃, -, hit₃, hl₃⟩ := copyBuffer_spec h₃
  -- the size and the disk
  obtain ⟨-, -, hsize₄⟩ := s₃.growSize_spec d
  obtain ⟨hvmm₄, htable₄, -⟩ := s₃.growSize_frame d
  have hsize : ((s₃.growSize d).inodeOf d).size =
      max (s.inodeOf d).size (((s.openFileTable d).lseek + length) % 2 ^ 32) := by
    rw [hsize₄, hl₃, hl₂, inodeOf, hit₃, hit₂, (hs₂.trans hs₃).inodeIndex]
    rfl
  rw [← hsize] at hsaves
  have hdata := hregion₂.dataAt (Or.inr hsaves)
  obtain ⟨disk, hdisk⟩ := exists_saveBlocks (updateInode (s₃.growSize d).fs.disk
    (s₃.growSize d).fs.superblock ((s₃.growSize d).inodeOf d)) ((s₃.growSize d).inodeOf d)
    fun k hk ↦ (hdata k hk).1
  rw [sysWrite_of_writable hflags, hseek, h₂, Option.bind_some, h₃, Option.bind_some, writeBack,
    saveFile, hvmm₄, htable₄, hvmm₃, haddress₃, hdisk]
  exact ⟨_, _, rfl⟩

/-- **Growing over the pages behind**: if the page behind those of `d` is the first one of `e`, a
growth of `d` makes it one of `d` as well. -/
theorem not_isolated_of_growth {d e bytes : ℕ} {r : ℤ} {buffer length leftover : ℕ}
    (hd : d ∈ s.openFiles) (he : e ∈ s.openFiles) (hne : d ≠ e)
    (hbehind : s.page d (s.openFileTable d).pagesAllocated = s.page e 0)
    (hpages : 0 < (s.openFileTable e).pagesAllocated) (hflags : Writable (s.openFileTable d))
    (hgrowth : (s.seekToEnd d).growth d length = some bytes)
    (hlt : (s.openFileTable d).pagesAllocated + filePageCount bytes < 2 ^ 8)
    (hcall : s.sysWrite d buffer length leftover = some (r, t)) : ¬ t.Isolated := by
  intro h
  have hfile := sysWrite_files hflags hgrowth hcall
  have hmore : 0 < filePageCount bytes := by
    rw [filePageCount]
    split <;> omega
  have hopen : ∀ c ∈ s.openFiles, c ∈ t.openFiles := fun c hc ↦ by
    rw [mem_openFiles, (hfile c).2.1]
    exact mem_openFiles.mp hc
  have hpage : ∀ c j, t.page c j = s.page c j := fun c j ↦ by rw [page, page, (hfile c).1]
  have hj : (s.openFileTable d).pagesAllocated < (t.openFileTable d).pagesAllocated := by
    rw [(hfile d).2.2, if_pos rfl, Nat.mod_eq_of_lt hlt]
    omega
  have hk : 0 < (t.openFileTable e).pagesAllocated := by
    rw [(hfile e).2.2, if_neg (Ne.symm hne)]
    exact hpages
  obtain ⟨w, hw⟩ := h.mapped e (hopen e he) 0 hk
  refine hne (h.apart d (hopen d hd) e (hopen e he) _ hj 0 hk w w ?_ hw rfl)
  rw [← hw, hpage, hpage, hbehind]

/-! ## Two files -/

/-- The directory, in block 6, holds the empty files `a` and `b` with the inodes 4 and 5. -/
def twoFilesDisk : ByteStore := fun x ↦
  if x = 0x6000 then 4 else if x = 0x6004 then 0x61 else if x = 0x6040 then 5
  else if x = 0x6044 then 0x62 else if x = 0x4100 then 4 else if x = 0x4140 then 5 else 0

/-- The frames up to those of the bitmap are in use. -/
def lowPmm : Pmm := ⟨fun i ↦ if i < 2 then 0xFFFFFFFF else if i = 2 then 0xFFFF else 0, 0xFFFFF, 80⟩

/-- The page table at `0x3000` maps low memory to itself, and the one at `0x2000` is for the pages of
files; none of them is there. -/
def emptyTable : Vmm where
  ram := fun x ↦
    if x = 0x1000 then 0x03 else if x = 0x1001 then 0x30
    else if x = 0x1400 then 0x07 else if x = 0x1401 then 0x20
    else if x / 4096 = 3 then ByteStore.words 0x3000 (fun i ↦ i * 4096 + 3) x else 0
  pmm := lowPmm
  directory := 0x1000

def twoFiles : Kernel where
  vmm := emptyTable
  fs := {
    disk := twoFilesDisk
    superblock := oneEntrySuperblock
    rootInode := { oneEntryDir with size := 128 }
    currentDirInode := { oneEntryDir with size := 128 } }
  openFileTable := fun _ ↦ OpenFile.zero
  openInodeTable := fun _ ↦ Inode.zero
  fileVirtualAddress := 0x40000000
  currentOpenFiles := 0
  currentOpenInodes := 0

theorem twoFiles_zeroed : twoFiles.Zeroed := ⟨fun _ _ ↦ rfl, fun _ _ ↦ rfl, rfl, rfl⟩

theorem lowPmm_isSet (b : ℕ) : lowPmm.isSet b = decide (b < 0x50) := by
  by_cases hb : b < 96
  · exact (by decide : ∀ b < 96, lowPmm.isSet b = decide (b < 0x50)) b hb
  · have hword : lowPmm.memoryMap (b / 32) = 0 := by
      show (if b / 32 < 2 then 0xFFFFFFFF else if b / 32 = 2 then 0xFFFF else 0 : BitVec 32) = 0
      rw [if_neg (by omega), if_neg (by omega)]
    rw [Pmm.isSet, hword, decide_eq_false (by omega)]
    exact BitVec.getLsbD_zero

theorem emptyTable_ram {x : ℕ} (h : 0x1402 ≤ x ∧ x < 0x3000 ∨ 0x1002 ≤ x ∧ x < 0x1400) :
    emptyTable.ram x = 0 := by
  have hne : x / 4096 ≠ 3 := by omega
  show (if x = 0x1000 then 0x03 else if x = 0x1001 then 0x30 else if x = 0x1400 then 0x07
    else if x = 0x1401 then 0x20 else _ : UInt8) = 0
  rw [if_neg (by omega), if_neg (by omega), if_neg (by omega), if_neg (by omega), if_neg hne]

theorem emptyTable_entry {i : ℕ} (hi : i < 1024) :
    emptyTable.entry i = if i = 0 then 0x3003 else if i = 256 then 0x2007 else 0 := by
  have hdir : emptyTable.directory = 0x1000 := rfl
  split
  · rename_i h
    rw [h]
    decide +kernel
  split
  · rename_i h
    rw [h]
    decide +kernel
  · rw [Vmm.entry, hdir]
    exact ByteStore.readWord_of_zero fun k hk ↦ emptyTable_ram (by omega)

theorem emptyTable_entry_ne {i : ℕ} (hi : i < 1024) (hne : emptyTable.entry i ≠ 0) :
    (i = 0 ∧ emptyTable.table i = 0x3000) ∨ (i = 256 ∧ emptyTable.table i = 0x2000) := by
  have htables : emptyTable.table 0 = 0x3000 ∧ emptyTable.table 256 = 0x2000 := by decide +kernel
  rw [emptyTable_entry hi] at hne
  split_ifs at hne with h₀ h₁
  · exact Or.inl ⟨h₀, h₀ ▸ htables.1⟩
  · exact Or.inr ⟨h₁, h₁ ▸ htables.2⟩
  · exact absurd rfl hne

theorem emptyTable_walk {v : ℕ} (hv : 0x400000 ≤ v) (hlt : v < 2 ^ 32) :
    emptyTable.walk v = none := by
  by_cases h0 : emptyTable.entry (pdIndex v) = 0
  · exact Vmm.walk_of_entry_zero h0
  · obtain ⟨hi, -⟩ | ⟨-, htable⟩ := emptyTable_entry_ne (pdIndex_lt hlt) h0
    · rw [pdIndex_eq] at hi
      omega
    have hpte : emptyTable.pte v = 0 := by
      rw [Vmm.pte, Vmm.getPage, htable, ptIndex_eq]
      exact ByteStore.readWord_of_zero fun _ _ ↦ emptyTable_ram (by omega)
    rw [Vmm.walk, hpte, if_neg fun hh ↦ absurd hh.2 (by decide)]

/-- Low memory. -/
theorem emptyTable_walk_low {b : ℕ} (hb : b < 1024) :
    emptyTable.walk (b * 4096) = some (b * 4096, 3) := by
  have hpd : pdIndex (b * 4096) = 0 := by
    rw [pdIndex_eq]
    omega
  have hpt : ptIndex (b * 4096) = b := by
    rw [ptIndex_eq]
    omega
  have htable : emptyTable.table 0 = 0x3000 := by decide +kernel
  have hpte : emptyTable.pte (b * 4096) = b * 4096 + 3 := by
    rw [Vmm.pte, Vmm.getPage, hpd, hpt, htable]
    refine (ByteStore.readWord_congr (m := ByteStore.words 0x3000 fun i ↦ i * 4096 + 3)
      fun k hk ↦ ?_).trans (ByteStore.readWord_words (by omega))
    show (if _ then _ else if _ then _ else if _ then _ else if _ then _ else if _ then _ else _ : UInt8) = _
    rw [if_neg (by omega), if_neg (by omega), if_neg (by omega), if_neg (by omega),
      if_pos (by omega)]
  have hlow : (b * 4096 + 3) / 4096 * 4096 = b * 4096 ∧ (b * 4096 + 3) % 4096 = 3 ∧
      (b * 4096 + 3) % 2 = 1 := by omega
  rw [Vmm.walk_eq, hpte, hpd, emptyTable_entry (by decide), hlow.1, hlow.2.1, hlow.2.2]
  rfl

theorem emptyTable_wf : emptyTable.WF := by
  have hset : ∀ b < 0x50, emptyTable.pmm.isSet b = true := fun b hb ↦
    (lowPmm_isSet b).trans (decide_eq_true hb)
  refine ⟨Nat.le_refl _, hset 0 (by decide), by decide, hset 1 (by decide), hset 0 (by decide),
    fun i hi hne ↦ ?_, fun i hi hne ↦ ?_, fun i hi hne ↦ ?_, fun i j hi hj hni hnj hij ↦ ?_⟩
  · obtain ⟨h, -⟩ | ⟨h, -⟩ := emptyTable_entry_ne hi hne <;> rw [h, emptyTable_entry (by decide)] <;>
      rfl
  · obtain ⟨-, h⟩ | ⟨-, h⟩ := emptyTable_entry_ne hi hne <;> rw [h]
    · exact hset 3 (by decide)
    · exact hset 2 (by decide)
  · obtain ⟨-, h⟩ | ⟨-, h⟩ := emptyTable_entry_ne hi hne <;> rw [h] <;> decide
  · obtain ⟨hi', h⟩ | ⟨hi', h⟩ := emptyTable_entry_ne hi hni <;>
      obtain ⟨hj', h'⟩ | ⟨hj', h'⟩ := emptyTable_entry_ne hj hnj <;> rw [h, h'] at hij <;> omega

theorem emptyTable_keepsBitmap : emptyTable.KeepsBitmap where
  used := fun b _ hlt ↦ (lowPmm_isSet b).trans (decide_eq_true hlt)
  data := fun b hb hp ↦ by
    rw [bitmapFrame_iff] at hb
    obtain hdir | ⟨i, hi, hne, htable⟩ := hp
    · exact absurd (show b * 4096 = 0x1000 from hdir) (by omega)
    · obtain ⟨-, h⟩ | ⟨-, h⟩ := emptyTable_entry_ne hi hne <;> omega
  walk := fun b hb ↦ by
    have := bitmapFrame_iff.mp hb
    exact ⟨3, emptyTable_walk_low (by omega)⟩

/-- The first pages of files. -/
theorem emptyTable_mapPages (n : ℕ) (hn : n ≤ 1024) (Keep : ℕ → Prop) :
    Vmm.MapsHarmlessly Keep emptyTable 0x40000000 n := by
  refine (emptyTable_wf.mapPages_of_table 0x50 (by omega) (fun i hi ↦ ?_)
    (fun i hi ↦ emptyTable_walk (by rw [pageSize]; omega) (Nat.mod_lt _ (by decide)))
    (show 0x50 + n ≤ 0xFFFFF by omega)
    fun b hb _ ↦ (lowPmm_isSet b).trans (decide_eq_false (by omega))).1
  have hpd : pdIndex ((0x40000000 + i * pageSize) % 2 ^ 32) = 256 := by
    rw [pdIndex_eq, pageSize]
    omega
  rw [hpd, emptyTable_entry (by decide)]
  rfl

theorem twoFiles_diskInode (j : ℕ) (hj : j < 2) :
    (diskInode twoFilesDisk oneEntrySuperblock (4 + j)).iNumber = 4 + j ∧
      (diskInode twoFilesDisk oneEntrySuperblock (4 + j)).size = 0 := by
  have haddr : sectorAddress (inodeSector oneEntrySuperblock (4 + j)) +
      (4 + j) % inodesPerSector * inodeBytes = 0x4100 + j * 64 := by
    obtain rfl | rfl : j = 0 ∨ j = 1 := by omega
    · decide
    · decide
  rw [diskInode, haddr]
  obtain rfl | rfl : j = 0 ∨ j = 1 := by omega
  · refine ⟨?_, ?_⟩ <;> simp [readInode, ByteStore.readWord_eq, twoFilesDisk]
  · refine ⟨?_, ?_⟩ <;> simp [readInode, ByteStore.readWord_eq, twoFilesDisk]

theorem twoFiles_getInode (j : ℕ) (hj : j < 2) :
    twoFiles.fs.getInode [UInt8.ofNat (0x61 + j)] =
      diskInode twoFilesDisk oneEntrySuperblock (4 + j) := by
  have hblock : sectorAddress (blockSector (oneEntryDir.directPointers 0)) = 0x6000 := by decide
  have hnum : ∀ i < 2, (readDirEntry twoFilesDisk 0x6000 i).iNumber = 4 + i := by decide
  have hname : ∀ i < 2, (readDirEntry twoFilesDisk 0x6000 i).name = [UInt8.ofNat (0x61 + i)] := by
    intro i hi
    have hchar : ∀ i < 2, twoFilesDisk (0x6000 + i * dirEntryBytes + 4 + 1) = 0 ∧
        twoFilesDisk (0x6000 + i * dirEntryBytes + 4) ≠ 0 ∧
        twoFilesDisk.slice (0x6000 + i * dirEntryBytes + 4) 1 = [UInt8.ofNat (0x61 + i)] := by
      decide
    obtain ⟨hzero, hne, hslice⟩ := hchar i hi
    rw [Fs.readDirEntry_name (k := 1) (by rw [dirEntryBytes, fsBlock]; omega) hzero fun l hl ↦ by
      obtain rfl : l = 0 := by omega
      exact hne]
    exact hslice
  have hne : ∀ j < 2, ∀ i < j, [UInt8.ofNat (0x61 + i)] ≠ [UInt8.ofNat (0x61 + j)] := by decide
  have hfirst : twoFiles.fs.firstEntry { oneEntryDir with size := 128 } [UInt8.ofNat (0x61 + j)] =
      some (readDirEntry twoFilesDisk 0x6000 j) :=
    Fs.firstEntry_of_block _ hblock (by decide) (show j < 64 by omega)
      ((hnum j hj).trans_ne (by omega)) (hname j hj) fun i hi heq ↦
        hne j hj i hi ((hname i (by omega)).symm.trans heq)
  have hslash : ∀ j < 2, slash ∉ [UInt8.ofNat (0x61 + j)] := by decide
  rw [Fs.getInode_of_firstEntry _ (hslash j hj) (show 1 ≤ 59 by decide) hfirst] <;> rw [hnum j hj]
  · rfl
  · exact (twoFiles_diskInode j hj).1.trans_ne (by omega)

/-- The file `a` has been opened. -/
def oneOpen : Kernel :=
  twoFiles.opened (diskInode twoFilesDisk oneEntrySuperblock 4) 0x21 0
    (emptyTable.mapPages Vmm.freshFrame 0x40000000 1)

/-- So has `b`. -/
def bothOpen : Kernel :=
  oneOpen.opened (diskInode twoFilesDisk oneEntrySuperblock 5) 0x21 1
    (emptyTable.mapPages Vmm.freshFrame 0x40000000 2)

theorem twoFiles_slots : twoFiles.inodeSlot 4 = 0 ∧ twoFiles.fileSlot 0 = some 0 := by
  refine ⟨?_, fileSlot_of_used (by decide) (fun e he ↦ absurd he (Nat.not_lt_zero e)) rfl
    (by decide)⟩
  rw [inodeSlot_of_new fun _ _ ↦ show (0 : ℕ) ≠ 4 by decide]
  exact show findSlot (fun _ ↦ (0 : ℕ) == 0) = 0 by decide

theorem twoFiles_loaded :
    (twoFiles.loadedInode (diskInode twoFilesDisk oneEntrySuperblock 4)).size = 0 := by
  obtain ⟨hnum, hsize⟩ := twoFiles_diskInode 0 (by decide)
  obtain ⟨hslot, -⟩ := twoFiles_slots
  rw [Nat.add_zero] at hnum hsize
  rw [loadedInode, enterInode_of_new fun _ _ ↦ hnum.symm ▸ (by decide : (0 : ℕ) ≠ 4), hnum, hslot]
  exact hsize

theorem twoFiles_sysOpen :
    twoFiles.sysOpen [0x61] 0x21 0 = some (0, oneOpen) := by
  have hget : twoFiles.fs.getInode [0x61] = diskInode twoFilesDisk oneEntrySuperblock 4 :=
    twoFiles_getInode 0 (by decide)
  obtain ⟨hnum, -⟩ := twoFiles_diskInode 0 (by decide)
  obtain ⟨hslot, hfile⟩ := twoFiles_slots
  rw [Nat.add_zero] at hnum
  rw [sysOpen_empty hget (by rw [hnum]; decide) (by rw [hnum, hslot]; exact hfile)
    twoFiles_loaded, hnum, hslot]
  rfl

theorem oneOpen_tables : oneOpen.openFileTable =
      Function.update (fun _ ↦ OpenFile.zero) 0 ⟨0, 0, 0x40000000, 1, 0x21, 1⟩ ∧
    oneOpen.openInodeTable = Function.update (fun _ ↦ Inode.zero) 0
      (diskInode twoFilesDisk oneEntrySuperblock 4) ∧
    oneOpen.fileVirtualAddress = 0x40001000 := by
  obtain ⟨hnum, -⟩ := twoFiles_diskInode 0 (by decide)
  obtain ⟨hslot, -⟩ := twoFiles_slots
  rw [Nat.add_zero] at hnum
  have hpages := twoFiles_loaded
  rw [oneOpen, opened, enterInode_of_new fun _ _ ↦ hnum.symm ▸ (by decide : (0 : ℕ) ≠ 4), hnum,
    hslot, hpages]
  exact ⟨rfl, rfl, rfl⟩

theorem oneOpen_file : oneOpen.openFileTable 0 = ⟨0, 0, 0x40000000, 1, 0x21, 1⟩ ∧
    oneOpen.inodeOf 0 = diskInode twoFilesDisk oneEntrySuperblock 4 := by
  obtain ⟨htable, hinodes, -⟩ := oneOpen_tables
  have hfile : oneOpen.openFileTable 0 = ⟨0, 0, 0x40000000, 1, 0x21, 1⟩ := by
    rw [htable, Function.update_self]
  refine ⟨hfile, ?_⟩
  rw [inodeOf, hfile, hinodes]
  exact Function.update_self ..

theorem oneOpen_iNumber (i : ℕ) :
    (oneOpen.openInodeTable i).iNumber = if i = 0 then 4 else 0 := by
  rw [oneOpen_tables.2.1, Function.update_apply]
  split
  · exact (twoFiles_diskInode 0 (by decide)).1
  · rfl

theorem oneOpen_slots : oneOpen.inodeSlot 5 = 1 ∧ oneOpen.fileSlot 1 = some 1 := by
  obtain ⟨htable, -, -⟩ := oneOpen_tables
  refine ⟨?_, fileSlot_of_used (by decide) (fun e he ↦ ?_) ?_ (by decide)⟩
  · rw [inodeSlot_of_new fun i _ ↦ by rw [oneOpen_iNumber]; split <;> decide]
    simp only [oneOpen_iNumber]
    decide
  · obtain rfl : e = 0 := by omega
    rw [htable, Function.update_self]
    decide
  · rw [htable, Function.update_of_ne Nat.one_ne_zero]
    rfl

/-- The slot that the size of `b` is read from is free. -/
theorem oneOpen_loaded :
    (oneOpen.loadedInode (diskInode twoFilesDisk oneEntrySuperblock 5)).size = 0 ∧
    (oneOpen.enterInode (diskInode twoFilesDisk oneEntrySuperblock 5)).openInodeTable 0 =
      diskInode twoFilesDisk oneEntrySuperblock 4 := by
  obtain ⟨-, hinodes, -⟩ := oneOpen_tables
  obtain ⟨hnum, -⟩ := twoFiles_diskInode 0 (by decide)
  obtain ⟨hnum', -⟩ := twoFiles_diskInode 1 (by decide)
  obtain ⟨hslot, -⟩ := oneOpen_slots
  have hnew : ∀ i ≤ tableEntries, (oneOpen.openInodeTable i).iNumber ≠
      (diskInode twoFilesDisk oneEntrySuperblock 5).iNumber := fun i _ ↦ by
    rw [oneOpen_iNumber, hnum']
    split <;> decide
  rw [loadedInode, enterInode_of_new hnew, hnum', hslot]
  simp only [setInode, hinodes]
  exact ⟨rfl, rfl⟩

theorem oneOpen_fs : oneOpen.fs = twoFiles.fs := (twoFiles.enterInode_frame _).2.1

theorem oneOpen_sysOpen : oneOpen.sysOpen [0x62] 0x21 0 = some (1, bothOpen) := by
  have hget : oneOpen.fs.getInode [0x62] = diskInode twoFilesDisk oneEntrySuperblock 5 := by
    rw [oneOpen_fs]
    exact twoFiles_getInode 1 (by decide)
  obtain ⟨hnum, -⟩ := twoFiles_diskInode 1 (by decide)
  obtain ⟨hslot, hfile⟩ := oneOpen_slots
  obtain ⟨-, -, haddress⟩ := oneOpen_tables
  rw [sysOpen_empty hget (by rw [hnum]; decide) (by rw [hnum, hslot]; exact hfile)
    oneOpen_loaded.1, hnum, hslot, haddress]
  rfl

/-- Opened again, `a` is found in the first slot, and gets the second descriptor. -/
theorem oneOpen_again : oneOpen.inodeSlot 4 = 0 ∧
    ∃ k, oneOpen.sysOpen [0x61] 0x21 0 = some (((0 : ℕ) : ℤ), k) := by
  have hget : oneOpen.fs.getInode [0x61] = diskInode twoFilesDisk oneEntrySuperblock 4 := by
    rw [oneOpen_fs]
    exact twoFiles_getInode 0 (by decide)
  obtain ⟨hnum, hsize⟩ := twoFiles_diskInode 0 (by decide)
  rw [Nat.add_zero] at hnum hsize
  have hslot : oneOpen.inodeSlot 4 = 0 := by
    rw [inodeSlot]
    simp only [oneOpen_iNumber]
    decide
  have hfile : oneOpen.fileSlot 0 = some 1 :=
    ((if_pos (by decide)).trans (if_pos (by decide)).symm).trans oneOpen_slots.2
  have hown := @enterInode_cases oneOpen (diskInode twoFilesDisk oneEntrySuperblock 4)
    (by rw [hnum, hslot]; decide)
  rw [hnum, hslot] at hown
  obtain ⟨-, henter⟩ := hown.resolve_right fun hh ↦ by
    rw [oneOpen_iNumber, if_pos rfl] at hh
    exact absurd hh.1 (by decide)
  have hloaded : (oneOpen.loadedInode (diskInode twoFilesDisk oneEntrySuperblock 4)).size = 0 := by
    rw [loadedInode, hnum, hslot, henter, ← hsize]
    show (oneOpen.openInodeTable 0).size = _
    rw [oneOpen_tables.2.1]
    rfl
  have hcall := sysOpen_empty (d := 1) hget (by rw [hnum]; decide) (by rw [hnum, hslot]; exact hfile)
    hloaded 0x21 0
  rw [hnum, hslot] at hcall
  exact ⟨hslot, _, hcall⟩

/-- Each has one page, and `b` has the one behind that of `a`. -/
theorem bothOpen_tables : bothOpen.openFileTable 0 = ⟨0, 0, 0x40000000, 1, 0x21, 1⟩ ∧
    bothOpen.openFileTable 1 = ⟨1, 0, 0x40001000, 1, 0x21, 1⟩ ∧
    (bothOpen.inodeOf 0).size = 0 ∧ bothOpen.fileVirtualAddress = 0x40002000 := by
  obtain ⟨htable, -, haddress⟩ := oneOpen_tables
  obtain ⟨hsize, hinode⟩ := oneOpen_loaded
  obtain ⟨hnum, -⟩ := twoFiles_diskInode 1 (by decide)
  obtain ⟨hslot, -⟩ := oneOpen_slots
  have hfile : bothOpen.openFileTable 0 = ⟨0, 0, 0x40000000, 1, 0x21, 1⟩ := by
    rw [bothOpen, opened, htable]
    rfl
  refine ⟨hfile, ?_, ?_, ?_⟩
  · rw [bothOpen, opened, hnum, hslot, hsize, haddress]
    rfl
  · rw [inodeOf, hfile]
    exact (congrArg Inode.size hinode).trans (twoFiles_diskInode 0 (by decide)).2
  · rw [bothOpen, opened, hsize, haddress]
    rfl

theorem twoFiles_serve : perform twoFiles (.call (.sysOpen [0x61] 0x21 0)) = some oneOpen ∧
    perform oneOpen (.call (.sysOpen [0x62] 0x21 0)) = some bothOpen := by
  refine ⟨?_, ?_⟩
  · show (twoFiles.sysOpen [0x61] 0x21 0).map Prod.snd = _
    rw [twoFiles_sysOpen]
    rfl
  · show (oneOpen.sysOpen [0x62] 0x21 0).map Prod.snd = _
    rw [oneOpen_sysOpen]
    rfl

/-- Both files are opened in free slots, with new pages. -/
theorem twoFiles_opensInside (Keep : ℕ → Prop) :
    OpensInside Keep twoFiles (diskInode twoFilesDisk oneEntrySuperblock 4) 0 ∧
    OpensInside Keep oneOpen (diskInode twoFilesDisk oneEntrySuperblock 5) 0 := by
  obtain ⟨hnum, -⟩ := twoFiles_diskInode 0 (by decide)
  obtain ⟨hnum', -⟩ := twoFiles_diskInode 1 (by decide)
  obtain ⟨hslot, hfile⟩ := twoFiles_slots
  obtain ⟨hslot', hfile'⟩ := oneOpen_slots
  obtain ⟨htable, -, haddress⟩ := oneOpen_tables
  refine ⟨⟨⟨0, by decide, by rw [hnum, hslot]; exact hfile, rfl⟩, ?_, ?_, ?_⟩,
    ⟨⟨1, by decide, by rw [hnum', hslot']; exact hfile', ?_⟩, ?_, ?_, ?_⟩⟩
  · rw [twoFiles_loaded]
    decide
  · rw [twoFiles_loaded]
    exact emptyTable_mapPages 1 (by decide) _
  · exact Or.inl rfl
  · rw [htable]
    rfl
  · rw [oneOpen_loaded.1]
    decide
  · rw [oneOpen_loaded.1, haddress]
    have hsecond := (emptyTable_mapPages 2 (by decide) Keep).2
    rw [show (0x40000000 + 1 * pageSize) % 2 ^ 32 = (0x40001000 + 0 * pageSize) % 2 ^ 32 by
      decide] at hsecond
    exact ⟨trivial, hsecond⟩
  · exact Or.inl rfl

theorem twoFiles_stays : twoFiles.StaysInside (.call (.sysOpen [0x61] 0x21 0)) ∧
    oneOpen.StaysInside (.call (.sysOpen [0x62] 0x21 0)) := by
  obtain ⟨hopens, hopens'⟩ := twoFiles_opensInside fun _ ↦ False
  refine ⟨fun _ ↦ ?_, fun _ ↦ ?_⟩
  · have hget := twoFiles_getInode 0 (by decide)
    exact hget ▸ hopens
  · have hget := twoFiles_getInode 1 (by decide)
    rw [oneOpen_fs]
    exact hget ▸ hopens'

theorem bothOpen_owns : ∃ F, bothOpen.OwnsPages F := by
  have hstart := twoFiles_zeroed.ownsPages emptyTable_wf emptyTable_keepsBitmap rfl fun _ _ ↦ 0
  obtain ⟨⟨F, hone⟩, -⟩ := hstart.perform twoFiles_stays.1 twoFiles_serve.1
  exact (hone.perform twoFiles_stays.2 twoFiles_serve.2).1

/-- Both have their own page, and writing to that of `a` keeps it so. -/
theorem isolated_bothOpen : ∃ t, Run.exec perform twoFiles
      [.call (.sysOpen [0x61] 0x21 0), .call (.sysOpen [0x62] 0x21 0), .write ⟨0, 0x40000000, 16, 0⟩] =
        some t ∧ t.Isolated ∧ Vmm.BitmapKept twoFiles.vmm t.vmm ∧ Run.Meets perform WritesOwn twoFiles
      [.call (.sysOpen [0x61] 0x21 0), .call (.sysOpen [0x62] 0x21 0),
        .write ⟨0, 0x40000000, 16, 0⟩] := by
  obtain ⟨hserve, hserve'⟩ := twoFiles_serve
  obtain ⟨hstay, hstay'⟩ := twoFiles_stays
  obtain ⟨hfile, -, hsize, -⟩ := bothOpen_tables
  obtain ⟨F, hF⟩ := bothOpen_owns
  have hopen : 0 ∈ bothOpen.openFiles :=
    mem_openFiles.mpr ⟨by decide, by rw [hfile]; exact Nat.one_ne_zero⟩
  have hflags : Writable (bothOpen.openFileTable 0) := by
    rw [hfile]
    decide
  have hseek : bothOpen.seekToEnd 0 = bothOpen := by
    rw [seekToEnd, hfile]
    rfl
  have hstart : bothOpen.writeStart 0 = 0 := by
    rw [writeStart, hfile]
    rfl
  have hgrowth : bothOpen.growth 0 16 = none := by
    rw [growth, hfile]
    rfl
  have hpage : bothOpen.pagesAfter 0 16 = 1 := by
    rw [pagesAfter, hgrowth, hfile]
    rfl
  have hinside : WritesInside bothOpen.FileFrame bothOpen 0 0x40000000 16 0 := by
    refine ⟨fun bytes hb ↦ ?_, ?_, fun k hk ↦ ?_, ?_⟩
    · rw [hseek, hgrowth] at hb
      cases hb
    · rw [hseek, hstart, hpage]
      exact Or.inr (by decide)
    · have hregion := hF.region 0 hopen
      rw [hfile] at hregion
      refine ⟨_, (hregion.dataAt (Or.inr (show 0 + 16 ≤ 1 * pageSize by decide)) k hk).1, ?_⟩
      rw [Vmm.frameByte_div]
      exact hF.notBitmap 0 hopen _ (by rw [hfile]; exact page_lt (show 0 + k < 1 * 4096 by omega))
    · rw [hseek, hstart, hsize, hpage]
      exact Or.inr (by decide)
  obtain ⟨t, G, hcall, -⟩ := hF.exists_sysWrite hopen hflags hinside
  have hrun : Run.exec perform twoFiles [.call (.sysOpen [0x61] 0x21 0),
      .call (.sysOpen [0x62] 0x21 0), .write ⟨0, 0x40000000, 16, 0⟩] = some t := by
    rw [Run.exec, hserve, Option.bind_some, Run.exec, hserve', Option.bind_some]
    refine Run.exec_singleton ?_
    show (bothOpen.sysWrite 0 0x40000000 16 0).map Prod.snd = _
    exact congrArg (Option.map Prod.snd) hcall
  refine ⟨t, hrun, isolated_of_meets twoFiles_zeroed emptyTable_wf emptyTable_keepsBitmap rfl
    ⟨hstay, fun u hu ↦ ?_⟩ hrun⟩
  obtain rfl : oneOpen = u := Option.some.inj (hserve.symm.trans hu)
  refine ⟨hstay', fun u hu ↦ ?_⟩
  obtain rfl : bothOpen = u := Option.some.inj (hserve'.symm.trans hu)
  exact ⟨fun _ _ ↦ ⟨hopen, hinside⟩, fun _ _ ↦ trivial⟩

/-- The pages that `a` grows by come behind that of `b`, and `a` takes that of `b` for its own. -/
theorem not_isolated_twoFiles : ∃ t, Run.exec perform twoFiles
      [.call (.sysOpen [0x61] 0x21 0), .call (.sysOpen [0x62] 0x21 0),
        .write ⟨0, 0x40000000, 4097, 0⟩] = some t ∧ ¬ t.Isolated := by
  obtain ⟨hserve, hserve'⟩ := twoFiles_serve
  obtain ⟨hfile, hfile', hsize, haddress⟩ := bothOpen_tables
  have hopen : 0 ∈ bothOpen.openFiles :=
    mem_openFiles.mpr ⟨by decide, by rw [hfile]; exact Nat.one_ne_zero⟩
  have hopen' : 1 ∈ bothOpen.openFiles :=
    mem_openFiles.mpr ⟨by decide, by rw [hfile']; exact Nat.one_ne_zero⟩
  have hflags : Writable (bothOpen.openFileTable 0) := by
    rw [hfile]
    decide
  have hseek : bothOpen.seekToEnd 0 = bothOpen := by
    rw [seekToEnd, hfile]
    rfl
  have hgrowth : bothOpen.growth 0 4097 = some 4097 := by
    rw [growth, hfile, hsize]
    rfl
  -- the pages from the first one of `a` on
  obtain ⟨f, hnew⟩ := emptyTable_wf.newPages (emptyTable_mapPages 4 (by decide) fun _ ↦ False)
  have hregion := hnew.region (by decide)
  have hdir : emptyTable.directory % 4096 = 0 := emptyTable_wf.dir_mod
  rw [← hnew.directory] at hdir
  have hgrown : (bothOpen.addPages 0 2).vmm =
      Vmm.mapPages Vmm.freshFrame emptyTable 0x40000000 4 := by
    rw [addPages, haddress]
    rfl
  have hdata := hregion.dataAt (Or.inr (show 0 + 4097 ≤ 4 * pageSize by decide))
  have hregion' : (bothOpen.addPages 0 (filePageCount 4097)).vmm.Region
      (bothOpen.openFileTable 0).address 4 f := by
    rw [hfile]
    exact hgrown ▸ hregion
  obtain ⟨t, r, hcall⟩ : ∃ t r, bothOpen.sysWrite (0 : ℕ) 0x40000000 4097 0 = some (r, t) := by
    refine exists_sysWrite_of_region hflags hseek hgrowth (hgrown ▸ hdir) hregion' ?_ ?_
      (fun k hk ↦ ⟨Vmm.frameByte f (0 + k), ?_⟩) ?_
    · rw [hsize]
      decide
    · rw [hfile]
      decide
    · exact hgrown ▸ (hdata k hk).1
    · rw [hsize, hfile]
      decide
  refine ⟨t, ?_, not_isolated_of_growth hopen hopen' Nat.zero_ne_one ?_ ?_ hflags
    (hseek.symm ▸ hgrowth) ?_ hcall⟩
  · rw [Run.exec, hserve, Option.bind_some, Run.exec, hserve', Option.bind_some]
    refine Run.exec_singleton ?_
    show (bothOpen.sysWrite 0 0x40000000 4097 0).map Prod.snd = _
    exact congrArg (Option.map Prod.snd) hcall
  · rw [page, page, hfile, hfile']
    rfl
  · rw [hfile']
    decide
  · rw [hfile]
    decide

end Kernel

end AbOS
