import AbOS.Boot.FirstFiles
import AbOS.Boot.ReadBack
import AbOS.Fs.Caches

/-!
# What new files are given

`create_file` never looks whether the inode number and the blocks that it hands out are free.  It
relies on the two cached bits of the superblock and on the bitmaps from which it takes the next ones.
On an image of the formatter neither says what is free: the cached data bit counts from block 0 and
not from `first_data_block`, and what is marked goes into the boot block, so that the search always
ends at the same bit.

So a new image is good for one file.  The second one gets inode 8 and a block that is 25 behind the
first data block, and so does every further one; in a tree that has an inode 8 that is too late
(`handsOut_exact`).

* `Handing.create` — a call, and what it hands out.
* `Handing.AllNew` — nothing is handed out twice, and nothing that the tree has.
* `Formatted.create_first`, `Handing.create_second` — the first two calls.
-/

set_option autoImplicit false

namespace AbOS

open ByteStore

/-! ## Calls -/

/-- The block that the directory gets if it needs another one. -/
def Fs.addedBlocks (fs : Fs) (path : List UInt8) : List ℕ :=
  let dir := fs.getParentInode path
  if Fs.Grows dir then
    [(fs.grownParent path).1.directPointers (bytesToBlocks (Fs.grownSize dir))] else []

/-- The file system, and the inode numbers and blocks that were handed out. -/
structure Handing where
  fs : Fs
  numbers : List ℕ
  blocks : List ℕ

/-- A block of the data that lies on the disk and belongs to no file or directory. -/
structure Spare (entries : List Host) (b : ℕ) : Prop where
  data : (treeSuperblock entries).firstDataBlock ≤ b
  onDisk : OnDisk entries b
  unowned : ¬ Owned entries b

/-- The block that the image has as the next free one. -/
def imageBlock (entries : List Host) : ℕ :=
  ((treeSuperblock entries).firstDataBlock + (treeSuperblock entries).firstFreeDataBit) % 2 ^ 32

/-- The block of the first bit that is clear in the data bitmap. -/
def bitmapBlock (entries : List Host) : ℕ := (treeSuperblock entries).firstDataBlock + 25

namespace Handing

/-- One call of `create_file`. -/
def create (s : Handing) (c : CreateCall) : Option Handing :=
  (s.fs.createFile c.path c.behind).map fun r ↦
    { fs := r.2
      numbers := r.1.iNumber :: s.numbers
      blocks := s.fs.addedBlocks c.path ++ r.1.directPointers 0 :: s.blocks }

/-- Nothing was handed out twice, and nothing that the tree has. -/
structure AllNew (entries : List Host) (s : Handing) : Prop where
  numbers : s.numbers.Nodup
  unnumbered : ∀ k ∈ s.numbers, ¬ Numbered entries k
  blocks : s.blocks.Nodup
  spare : ∀ b ∈ s.blocks, Spare entries b

/-- When the next call hands out something new.  For the first file the block that the image has as
the next one must be free, and if the directory grows, the one that the bitmap has.  A second file
gets the latter, with the number 8, and a third one the same again. -/
def StillNew (entries : List Host) (s : Handing) (c : CreateCall) : Prop :=
  match s.numbers with
  | [] => Spare entries (imageBlock entries) ∧ (Fs.Grows (s.fs.getParentInode c.path) →
      Spare entries (bitmapBlock entries) ∧ bitmapBlock entries ≠ imageBlock entries)
  | [_] => (treeSuperblock entries).numInodes ≠ 8 ∧ ¬ Numbered entries 8 ∧
      Spare entries (bitmapBlock entries) ∧ bitmapBlock entries ∉ s.blocks ∧
      ¬ Fs.Grows (s.fs.getParentInode c.path)
  | _ :: _ :: _ => False

variable {s s' : Handing} {c : CreateCall}

/-- What a call does. -/
theorem create_cases (hcall : s.create c = some s') :
    s'.fs.superblock = (s.fs.grownParent c.path).2.superblock ∧
      s'.numbers = s.fs.superblock.firstFreeInodeBit :: s.numbers ∧
      s'.blocks = s.fs.addedBlocks c.path ++ s.fs.cachedBlock :: s.blocks := by
  obtain ⟨r, hcreate, rfl⟩ := Option.map_eq_some_iff.mp hcall
  rw [Fs.createFile_eq (Fs.name_le_of_createFile hcreate), Option.some.injEq] at hcreate
  subst hcreate
  exact ⟨rfl, rfl, rfl⟩

theorem create_of_name (hname : (getNamePath c.path).length ≤ 59) : ∃ s', s.create c = some s' :=
  ⟨_, congrArg (Option.map _) (Fs.createFile_eq hname c.behind)⟩

/-- What was handed out is not taken back. -/
theorem numbers_suffix {calls : List CreateCall} (hrun : Run.exec create s calls = some s') :
    s.numbers <:+ s'.numbers := by
  have hstep : ∀ t d t', s.numbers <:+ t.numbers → create t d = some t' →
      s.numbers <:+ t'.numbers := fun t d t' h hcall ↦ by
    rw [(create_cases hcall).2.1]
    exact h.trans (List.suffix_cons ..)
  exact Run.exec_invariant hstep (List.suffix_refl _) hrun

theorem addedBlocks_eq_nil {fs : Fs} {path : List UInt8}
    (h : ¬ Fs.Grows (fs.getParentInode path)) : fs.addedBlocks path = [] := if_neg h

/-- **The second call.** -/
theorem create_second (hnumber : s.fs.superblock.firstFreeInodeBit = 8)
    (hgrows : ¬ Fs.Grows (s.fs.getParentInode c.path)) (hcall : s.create c = some s') :
    s'.numbers = 8 :: s.numbers ∧ s'.blocks = s.fs.cachedBlock :: s.blocks := by
  obtain ⟨-, hnumbers, hblocks⟩ := create_cases hcall
  rw [hnumber] at hnumbers
  rw [addedBlocks_eq_nil hgrows, List.nil_append] at hblocks
  exact ⟨hnumbers, hblocks⟩

end Handing

/-! ## The first call -/

section Tree

variable {entries : List Host} {fs : Fs} (hfits : FitsDisk entries) (h : IsHostTree entries)
  (hfs : Formatted entries fs)
include hfits h hfs

/-- What is cached. -/
theorem Formatted.cached :
    fs.superblock.firstFreeInodeBit = (treeSuperblock entries).numInodes ∧
      fs.cachedBlock = imageBlock entries ∧ fs.allocated.cachedBlock = bitmapBlock entries := by
  obtain ⟨rootINumber, hs⟩ := hfs.superblock
  obtain ⟨-, -, -, -, -, hfirst, hlt⟩ := hfits.regions h
  have hbit := hfs.firstFreeDataBit_allocated hfits h
  have hdata : fs.superblock.firstDataBlock = (treeSuperblock entries).firstDataBlock := by rw [hs]
  refine ⟨by rw [hs]; rfl, by rw [Fs.cachedBlock, hs]; rfl, ?_⟩
  have hsame : fs.allocated.superblock.firstDataBlock = fs.superblock.firstDataBlock := rfl
  rw [Fs.cachedBlock, hbit, hsame, hdata, bitmapBlock]
  exact Nat.mod_eq_of_lt (by omega)

/-- **The first call**: what it hands out, and what the next one will. -/
theorem Formatted.create_first {c : CreateCall} {s : Handing}
    (hcall : Handing.create ⟨fs, [], []⟩ c = some s) :
    s.numbers = [(treeSuperblock entries).numInodes] ∧
      s.blocks = (if Fs.Grows (fs.getParentInode c.path) then [bitmapBlock entries] else []) ++
        [imageBlock entries] ∧
      s.fs.superblock.firstFreeInodeBit = 8 ∧
      (¬ Fs.Grows (fs.getParentInode c.path) → s.fs.cachedBlock = bitmapBlock entries) := by
  obtain ⟨hnumber, himage, hbitmap⟩ := hfs.cached hfits h
  obtain ⟨hsuper, hnumbers, hblocks⟩ := Handing.create_cases hcall
  have hnext : fs.allocated.superblock.firstFreeInodeBit = 8 :=
    hfs.firstFreeInodeBit_takeInode hfits h
  rw [hnumber] at hnumbers
  rw [himage] at hblocks
  refine ⟨hnumbers, ?_, ?_, fun hgrows ↦ ?_⟩
  · rw [hblocks, Fs.addedBlocks]
    dsimp only
    split_ifs with hgrows
    · rw [Fs.grownParent, Fs.growDirectory_new hgrows, hbitmap]
    · rfl
  · rw [hsuper, Fs.grownParent, Fs.growDirectory]
    split_ifs <;> exact hnext
  · have hsame : (fs.grownParent c.path).2 = fs.allocated := by
      rw [Fs.grownParent, Fs.growDirectory]
      exact congrArg Prod.snd (if_neg hgrows)
    rw [← hbitmap, Fs.cachedBlock, hsuper, hsame, Fs.cachedBlock]

/-! ## All calls -/

namespace Handing

variable {s : Handing} {c d : CreateCall} {calls : List CreateCall}

/-- One file, exactly. -/
theorem allNew_first (hcall : create ⟨fs, [], []⟩ c = some s) :
    s.AllNew entries ↔ StillNew entries ⟨fs, [], []⟩ c := by
  obtain ⟨hnumbers, hblocks, -, -⟩ := hfs.create_first hfits h hcall
  have hfresh := hfits.not_numbered_numInodes h
  constructor
  · intro hnew
    have hnodup := hnew.blocks
    have hspare := hnew.spare
    rw [hblocks] at hnodup hspare
    refine ⟨hspare _ (List.mem_append_right _ (List.mem_singleton_self _)), fun hgrows ↦ ?_⟩
    rw [if_pos hgrows, List.singleton_append] at hnodup hspare
    exact ⟨hspare _ List.mem_cons_self,
      fun heq ↦ (List.nodup_cons.mp hnodup).1 (heq ▸ List.mem_singleton_self _)⟩
  · rintro ⟨himage, hbitmap⟩
    refine ⟨hnumbers ▸ List.nodup_singleton _, fun k hk ↦ ?_, ?_, ?_⟩
    · rw [hnumbers, List.mem_singleton] at hk
      exact hk ▸ hfresh
    · rw [hblocks]
      split_ifs with hgrows
      · exact List.nodup_cons.mpr ⟨fun hmem ↦ (hbitmap hgrows).2 (List.mem_singleton.mp hmem),
          List.nodup_singleton _⟩
      · exact List.nodup_singleton _
    · rw [hblocks]
      intro b hb
      rcases List.mem_append.mp hb with hb | hb
      · split_ifs at hb with hgrows
        · exact List.mem_singleton.mp hb ▸ (hbitmap hgrows).1
        · exact absurd hb List.not_mem_nil
      · exact List.mem_singleton.mp hb ▸ himage

/-- A second one. -/
theorem allNew_second {s' : Handing} (hcall : create ⟨fs, [], []⟩ c = some s)
    (hnew : s.AllNew entries) (hcall' : s.create d = some s') (hstill : StillNew entries s d) :
    s'.AllNew entries := by
  obtain ⟨hnumbers, hblocks, hnext, hcached⟩ := hfs.create_first hfits h hcall
  rw [StillNew, hnumbers] at hstill
  obtain ⟨height, hunused, hspare, hnot, hgrows⟩ := hstill
  have hfirst : ¬ Fs.Grows (fs.getParentInode c.path) := fun hg ↦ hnot (by
    rw [hblocks, if_pos hg]
    exact List.mem_cons_self)
  obtain ⟨hnumbers', hblocks'⟩ := create_second hnext hgrows hcall'
  rw [hcached hfirst] at hblocks'
  refine ⟨?_, fun k hk ↦ ?_, ?_, fun b hb ↦ ?_⟩
  · rw [hnumbers', hnumbers]
    exact List.nodup_cons.mpr ⟨fun hmem ↦ height (List.mem_singleton.mp hmem).symm,
      List.nodup_singleton _⟩
  · rw [hnumbers'] at hk
    rcases List.mem_cons.mp hk with rfl | hk
    · exact hunused
    · exact hnew.unnumbered k hk
  · rw [hblocks']
    exact List.nodup_cons.mpr ⟨hnot, hnew.blocks⟩
  · rw [hblocks'] at hb
    rcases List.mem_cons.mp hb with rfl | hb
    · exact hspare
    · exact hnew.spare b hb

/-- What a run hands out is new while each call does. -/
theorem allNew_of_meets {s' : Handing}
    (hC : Run.Meets create (StillNew entries) ⟨fs, [], []⟩ calls)
    (hrun : Run.exec create ⟨fs, [], []⟩ calls = some s') : s'.AllNew entries := by
  cases calls with
  | nil =>
    cases hrun
    exact ⟨List.nodup_nil, fun k hk ↦ absurd hk List.not_mem_nil, List.nodup_nil,
      fun b hb ↦ absurd hb List.not_mem_nil⟩
  | cons c calls =>
    obtain ⟨s, hcall, hrun⟩ := Run.exec_cons.mp hrun
    have hnew := (allNew_first hfits h hfs hcall).mpr hC.1
    have hC := hC.2 s hcall
    cases calls with
    | nil =>
      cases hrun
      exact hnew
    | cons d calls =>
      obtain ⟨t, hcall', hrun⟩ := Run.exec_cons.mp hrun
      have hnew' := allNew_second hfits h hfs hcall hnew hcall' hC.1
      have hC := hC.2 t hcall'
      cases calls with
      | nil =>
        cases hrun
        exact hnew'
      | cons e calls =>
        -- two numbers are all there are
        have hstill := hC.1
        rw [StillNew, (create_cases hcall').2.1, (hfs.create_first hfits h hcall).1] at hstill
        exact hstill.elim

/-- Inode 8 is not good for a second file if the tree has it, or the first file. -/
theorem meets_of_allNew {s' : Handing}
    (height : (treeSuperblock entries).numInodes = 8 ∨ Numbered entries 8)
    (hrun : Run.exec create ⟨fs, [], []⟩ calls = some s') (hnew : s'.AllNew entries) :
    Run.Meets create (StillNew entries) ⟨fs, [], []⟩ calls := by
  cases calls with
  | nil => trivial
  | cons c calls =>
    obtain ⟨s, hcall, hrun⟩ := Run.exec_cons.mp hrun
    obtain ⟨hnumbers, -, hnext, -⟩ := hfs.create_first hfits h hcall
    cases calls with
    | nil =>
      cases hrun
      exact ⟨(allNew_first hfits h hfs hcall).mp hnew, fun _ _ ↦ trivial⟩
    | cons d calls =>
      obtain ⟨t, hcall', hrun⟩ := Run.exec_cons.mp hrun
      have hsecond : t.numbers = [8, (treeSuperblock entries).numInodes] := by
        rw [(create_cases hcall').2.1, hnext, hnumbers]
      have hsuffix := numbers_suffix hrun
      rw [hsecond] at hsuffix
      rcases height with height | height
      · have hnodup := hnew.numbers.sublist hsuffix.sublist
        exact absurd (height ▸ List.mem_singleton_self _) (List.nodup_cons.mp hnodup).1
      · exact absurd height (hnew.unnumbered 8 (hsuffix.subset List.mem_cons_self))

end Handing

end Tree

/-- **What new files are given**, on the image of any tree that fits: in a run whose calls all meet
`StillNew`, everything is new; and in a tree in which the number 8 is taken, by one of its files or by
the first new one, in no other run. -/
theorem handsOut_exact {entries : List Host} {bootBlock : List UInt8} (hfits : FitsDisk entries)
    (h : IsHostTree entries) (hshort : EntryNamesFit entries) (hboot : bootBlock.length = fsBlock)
    {memory : ByteStore} (hmemory : memory.slice superblockAddress (19 * 4) =
      (diskImage bootBlock entries).slice fsBlock (19 * 4)) (rootAddress : ℕ)
    {calls : List CreateCall} {s : Handing} (hrun : Run.exec Handing.create
      ⟨mount (diskImage bootBlock entries) memory rootAddress, [], []⟩ calls = some s) :
    (Run.Meets Handing.create (Handing.StillNew entries)
      ⟨mount (diskImage bootBlock entries) memory rootAddress, [], []⟩ calls → s.AllNew entries) ∧
    ((treeSuperblock entries).numInodes = 8 ∨ Numbered entries 8 → s.AllNew entries →
      Run.Meets Handing.create (Handing.StillNew entries)
        ⟨mount (diskImage bootBlock entries) memory rootAddress, [], []⟩ calls) := by
  have hsuper := readSuperblock_of_image hfits h hshort hboot hmemory
  have hfs := mount_formatted hfits h hshort hboot hsuper rootAddress
  exact ⟨fun hC ↦ Handing.allNew_of_meets hfits h hfs hC hrun,
    fun height hnew ↦ Handing.meets_of_allNew hfits h hfs height hrun hnew⟩

/-! ### Two files -/

theorem blankFiles_superblock : (treeSuperblock blankFiles).numInodes = 64 ∧
    (treeSuperblock blankFiles).firstDataBlock = 5 ∧ imageBlock blankFiles = 74 := by
  decide +kernel

/-- The block behind the last file is free. -/
theorem spare_imageBlock : Spare blankFiles (imageBlock blankFiles) := by
  obtain ⟨-, hfirst, hblock⟩ := blankFiles_superblock
  rw [hblock]
  have howned : ∃ p ∈ (formatTree blankFiles).placed, 73 ∈ p.blocks := by decide +kernel
  have hnone : ∀ p ∈ (formatTree blankFiles).placed, 74 ∉ p.blocks := by decide +kernel
  exact ⟨hfirst ▸ by decide, blankFiles_readable.toFitsDisk.onDisk_of_owned howned (by decide),
    fun ⟨p, hp, hmem⟩ ↦ hnone p hp hmem⟩

/-- The root has room for one more entry. -/
theorem not_grows_blankFiles {memory : ByteStore} (hmemory : memory.slice superblockAddress (19 * 4) =
    (diskImage (List.replicate fsBlock 0) blankFiles).slice fsBlock (19 * 4)) :
    ¬ Fs.Grows ((mount (diskImage (List.replicate fsBlock 0) blankFiles) memory 0).getParentInode
      [0x78]) := by
  have h := blankFiles_readable
  have hboot : (List.replicate fsBlock (0 : UInt8)).length = fsBlock := List.length_replicate
  have hsuper := readSuperblock_of_image h.toFitsDisk h.toIsHostTree h.short hboot hmemory
  obtain ⟨-, hsize⟩ := mount_touching h hboot hsuper 0
  have hlen : (2 + blankFiles.length) * dirEntryBytes = 4032 := by decide +kernel
  rw [Touching.parent_eq (by decide), Fs.Grows, Fs.grownSize, hsize, hlen]
  decide

/-- One file in the root. -/
theorem allNew_blankFiles : ∃ memory s, Run.exec Handing.create
    ⟨mount (diskImage (List.replicate fsBlock 0) blankFiles) memory 0, [], []⟩
      [⟨[0x78], fun _ ↦ 0⟩] = some s ∧ s.AllNew blankFiles := by
  obtain ⟨memory, hmemory⟩ := exists_memory (diskImage (List.replicate fsBlock 0) blankFiles)
  have h := blankFiles_readable
  obtain ⟨s, hcall⟩ := Handing.create_of_name
    (s := ⟨mount (diskImage (List.replicate fsBlock 0) blankFiles) memory 0, [], []⟩)
    (c := ⟨[0x78], fun _ ↦ 0⟩) (by decide)
  have hrun := Run.exec_singleton hcall
  refine ⟨memory, s, hrun, (handsOut_exact h.toFitsDisk h.toIsHostTree h.short
    List.length_replicate hmemory 0 hrun).1 ⟨⟨spare_imageBlock, fun hgrows ↦ ?_⟩, fun _ _ ↦ trivial⟩⟩
  exact absurd hgrows (not_grows_blankFiles hmemory)

/-- Two files in the root, whose names are new there: the second one gets an inode of the tree. -/
theorem not_allNew_blankFiles : IsHostTree blankFiles ∧ FitsDisk blankFiles ∧
    EntryNamesFit blankFiles ∧ [0x78] ∉ blankFiles.map Host.name ∧
    [0x79] ∉ blankFiles.map Host.name ∧ ∃ memory s, memory.slice superblockAddress (19 * 4) =
      (diskImage (List.replicate fsBlock 0) blankFiles).slice fsBlock (19 * 4) ∧
    Run.exec Handing.create
      ⟨mount (diskImage (List.replicate fsBlock 0) blankFiles) memory 0, [], []⟩
        [⟨[0x78], fun _ ↦ 0⟩, ⟨[0x79], fun _ ↦ 0⟩] = some s ∧ ¬ s.AllNew blankFiles := by
  obtain ⟨memory, hmemory⟩ := exists_memory (diskImage (List.replicate fsBlock 0) blankFiles)
  have h := blankFiles_readable
  have hboot : (List.replicate fsBlock (0 : UInt8)).length = fsBlock := List.length_replicate
  have hsuper := readSuperblock_of_image h.toFitsDisk h.toIsHostTree h.short hboot hmemory
  have hfs := mount_formatted h.toFitsDisk h.toIsHostTree h.short hboot hsuper 0
  obtain ⟨s, hcall⟩ := Handing.create_of_name
    (s := ⟨mount (diskImage (List.replicate fsBlock 0) blankFiles) memory 0, [], []⟩)
    (c := ⟨[0x78], fun _ ↦ 0⟩) (by decide)
  obtain ⟨t, hcall'⟩ := Handing.create_of_name (s := s) (c := ⟨[0x79], fun _ ↦ 0⟩) (by decide)
  have hrun := Run.exec_cons.mpr ⟨s, hcall, Run.exec_singleton hcall'⟩
  have height : Numbered blankFiles 8 :=
    h.numbered (by decide) (blankFiles_superblock.1 ▸ by decide)
  refine ⟨h.toIsHostTree, h.toFitsDisk, h.short, by decide +kernel, by decide +kernel, memory, t,
    hmemory, hrun, fun hnew ↦ hnew.unnumbered 8 ?_ height⟩
  rw [(Handing.create_cases hcall').2.1, (hfs.create_first h.toFitsDisk h.toIsHostTree hcall).2.2.1]
  exact List.mem_cons_self

end AbOS
