import AbOS.Fs.WellFormed
import Mathlib.Data.List.Nodup

/-!
# Created files and paths

After `create_file` the path should lead to the new inode, and every other path where it led before.
On a well-formed disk, and in a directory that has room for another entry, this is so exactly if the
directory does not have the name yet (`createResolves_iff`): `create_file` never looks for it, so it
enters it a second time.

A path leads through directories, `Fs.Leads`: each name but the last one is linked from a directory.
-/

set_option autoImplicit false

namespace AbOS

namespace Fs

/-- The names lead from `dir` to the inode, through directories. -/
inductive Leads (fs : Fs) : Inode → List (List UInt8) → Inode → Prop
  | here (dir : Inode) : Leads fs dir [] dir
  | step {dir next inode : Inode} {name : List UInt8} {names : List (List UInt8)}
      (htype : dir.fileType = fileTypeDir) (hchild : fs.child dir name = some next)
      (hrest : Leads fs next names inode) : Leads fs dir (name :: names) inode

/-- The path leads to the inode. -/
def LeadsTo (fs : Fs) (path : List UInt8) (inode : Inode) : Prop :=
  fs.Leads (fs.startDir path) (components path) inode

/-- No directory links the inode number. -/
def Unlinked (fs : Fs) (dirs : ℕ → Prop) (n : ℕ) : Prop :=
  ∀ k e, dirs k → e ∈ fs.links (fs.node k) → e.iNumber ≠ n

/-- The name is linked from the directory. -/
def HasName (fs : Fs) (dir : Inode) (name : List UInt8) : Prop := ∃ e ∈ fs.links dir, e.name = name

/-- No directory has a name twice. -/
def NamesDistinct (fs : Fs) (dirs : ℕ → Prop) : Prop :=
  ∀ k, dirs k → ((fs.links (fs.node k)).map DirEntry.name).Nodup

/-- What one expects of the call that turned `fs` into `fs'` and returned `inode`: the path is that
of the new inode, paths to other inodes than the parent lead to the same 64 bytes, and no directory
has a name twice. -/
structure CreateResolves (fs : Fs) (dirs : ℕ → Prop) (parent : Inode) (path : List UInt8)
    (inode : Inode) (fs' : Fs) : Prop where
  created : (fs'.getInode path).bytes = inode.bytes
  kept : ∀ p m, fs.LeadsTo p m → m.iNumber ≠ 0 → m.iNumber ≠ parent.iNumber →
    (fs'.getInode p).bytes = m.bytes
  distinct : fs'.NamesDistinct dirs

variable {fs fs' : Fs} {dirs : ℕ → Prop} {blocks : ℕ} {parent : Inode} {name : List UInt8}

/-! ## Lookups -/

theorem Leads.resolve {dir inode : Inode} {names : List (List UInt8)}
    (h : fs.Leads dir names inode) : fs.resolve dir names = some inode := by
  induction h with
  | here dir => rfl
  | step htype hchild hrest ih => rw [resolve_cons, hchild, Option.bind_some, ih]

theorem getInode_of_leadsTo {path : List UInt8} {inode : Inode} (h : fs.LeadsTo path inode) :
    fs.getInode path = inode := by
  rw [getInode_eq, Leads.resolve h, Option.getD_some]

/-- What a directory has as a child is the inode of its first link of that name. -/
theorem child_eq_some {dir next : Inode} (hname : name.length ≤ 59) :
    fs.child dir name = some next ↔ ∃ e, (fs.links dir).find? (fun e ↦ e.name == name) = some e ∧
      next = fs.node e.iNumber ∧ next.iNumber ≠ 0 := by
  rw [child, if_pos hname, getInodeInDir_eq, firstEntry_eq_find?, found]
  cases (fs.links dir).find? fun e ↦ e.name == name with
  | none =>
    simp only [Option.map_none, Option.getD_none]
    rw [if_pos (by rfl)]
    simp
  | some e =>
    simp only [Option.map_some, Option.getD_some, Option.some.injEq, exists_eq_left']
    show (if (fs.node e.iNumber).iNumber = 0 then none else some (fs.node e.iNumber)) = some next ↔ _
    by_cases hzero : (fs.node e.iNumber).iNumber = 0
    · rw [if_pos hzero]
      constructor
      · simp
      · rintro ⟨rfl, hne⟩
        exact absurd hzero hne
    · rw [if_neg hzero, Option.some.injEq]
      constructor
      · rintro rfl
        exact ⟨rfl, hzero⟩
      · exact fun he ↦ he.1.symm

/-- An inode that a path leads to: it is a copy of a valid one on the disk. -/
structure Known (fs : Fs) (dirs : ℕ → Prop) (inode : Inode) : Prop where
  copy : fs.Copy inode
  room : inode.iNumber < inodeRoom fs.superblock
  dir : inode.fileType = fileTypeDir → dirs inode.iNumber

/-- Linked inodes are known. -/
theorem WellFormed.known_of_link (h : fs.WellFormed dirs blocks) {k : ℕ} {e : DirEntry}
    (hk : dirs k) (he : e ∈ fs.links (fs.node k)) : fs.Known dirs (fs.node e.iNumber) := by
  obtain ⟨hroom, hnum, -, hdir⟩ := h.link k e hk he
  refine ⟨⟨readInode_inRange .., by rw [hnum]⟩, by rwa [hnum], fun htype ↦ ?_⟩
  rw [hnum]
  exact hdir htype

theorem WellFormed.known_startDir (h : fs.WellFormed dirs blocks) (path : List UInt8) :
    fs.Known dirs (fs.startDir path) ∧ dirs (fs.startDir path).iNumber := by
  have hdir : dirs (fs.startDir path).iNumber ∧ fs.Copy (fs.startDir path) := by
    rw [startDir]
    split
    · exact h.rootInode
    · exact h.currentDirInode
  exact ⟨⟨hdir.2, (h.number _ hdir.1).2.1, fun _ ↦ hdir.1⟩, hdir.1⟩

/-- A lookup in a directory gives a linked inode. -/
theorem WellFormed.child_known (h : fs.WellFormed dirs blocks) {dir next : Inode}
    (hdir : fs.Known dirs dir) (htype : dir.fileType = fileTypeDir)
    (hchild : fs.child dir name = some next) :
    name.length ≤ 59 ∧ ∃ e ∈ fs.links (fs.node dir.iNumber),
      (fs.links (fs.node dir.iNumber)).find? (fun e ↦ e.name == name) = some e ∧
      next = fs.node e.iNumber ∧ next.iNumber = e.iNumber := by
  have hname : name.length ≤ 59 := by
    by_contra hlong
    rw [child, if_neg hlong] at hchild
    exact absurd hchild (by simp)
  obtain ⟨e, hfind, rfl, -⟩ := (child_eq_some hname).mp hchild
  rw [h.links_copy (hdir.dir htype) hdir.copy] at hfind
  have hmem := List.mem_of_find?_eq_some hfind
  exact ⟨hname, e, hmem, hfind, rfl, (h.link _ e (hdir.dir htype) hmem).2.1⟩

theorem WellFormed.known_of_leads (h : fs.WellFormed dirs blocks) {dir inode : Inode}
    {names : List (List UInt8)} (hdir : fs.Known dirs dir) (hleads : fs.Leads dir names inode) :
    fs.Known dirs inode := by
  induction hleads with
  | here dir => exact hdir
  | step htype hchild hrest ih =>
    obtain ⟨-, e, hmem, -, rfl, -⟩ := h.child_known hdir htype hchild
    exact ih (h.known_of_link (hdir.dir htype) hmem)

/-- A number that is not linked and that no directory has is not led to. -/
theorem WellFormed.leads_ne (h : fs.WellFormed dirs blocks) {n : ℕ}
    (hunlinked : fs.Unlinked dirs n) {dir inode : Inode}
    {names : List (List UInt8)} (hdir : fs.Known dirs dir) (hne : dir.iNumber ≠ n)
    (hleads : fs.Leads dir names inode) : inode.iNumber ≠ n := by
  induction hleads with
  | here dir => exact hne
  | step htype hchild hrest ih =>
    obtain ⟨-, e, hmem, -, rfl, hnum⟩ := h.child_known hdir htype hchild
    exact ih (h.known_of_link (hdir.dir htype) hmem)
      (by rw [hnum]; exact hunlinked _ e (hdir.dir htype) hmem)

/-! ## Paths after a call -/

/-- Searching passes over an element that does not fit. -/
theorem find?_insert {l₁ l₂ : List DirEntry} {e : DirEntry} {p : DirEntry → Bool} (he : p e = false) :
    (l₁ ++ e :: l₂).find? p = (l₁ ++ l₂).find? p := by
  rw [List.find?_append, List.find?_append, List.find?_cons_of_neg (by rw [he]; decide)]

section After

variable (h : fs.WellFormed dirs blocks) (hcan : fs.CanEnter dirs blocks parent name)
  (hent : fs.Entered parent name fs')
  (hfresh : ¬ fs.HasName parent name)
include h hcan hent

theorem WellFormed.startDir_after (path : List UInt8) : fs'.Known dirs (fs'.startDir path) ∧
    (fs'.startDir path).iNumber = (fs.startDir path).iNumber := by
  refine ⟨((h.entered hcan hent).known_startDir path).1, ?_⟩
  rw [startDir, startDir, hent.rootInode, hent.currentDirInode]
  split
  · split
    · exact (‹_ = parent.iNumber›).symm
    · rfl
  · split
    · exact (‹_ = parent.iNumber›).symm
    · rfl

/-- The new inode is what the parent has under the new name. -/
theorem WellFormed.child_new (hfresh : ¬ fs.HasName parent name) {parent' : Inode}
    (hknown : fs'.Known dirs parent') (hnum : parent'.iNumber = parent.iNumber) :
    fs'.child parent' name = some (fs'.node fs.superblock.firstFreeInodeBit) := by
  obtain ⟨l₁, l₂, hold, hnew⟩ := h.links_parent hcan hent
  refine (child_eq_some hcan.short).mpr ⟨⟨fs.superblock.firstFreeInodeBit, name⟩, ?_, rfl, ?_⟩
  · rw [(h.entered hcan hent).links_copy (hnum ▸ hcan.dir) hknown.copy, hnum, hnew, List.find?_append]
    have hnone : l₁.find? (fun e ↦ e.name == name) = none := by
      refine List.find?_eq_none.mpr fun e he hname ↦ hfresh ⟨e, ?_, beq_iff_eq.mp hname⟩
      rw [h.links_copy hcan.dir hcan.copy, hold]
      exact List.mem_append_left _ he
    rw [hnone, Option.none_or]
    exact List.find?_cons_of_pos (beq_iff_eq.mpr rfl)
  · rw [(h.node_new hcan hent).1]
    exact Nat.ne_of_gt hcan.number.1

include hfresh

/-- What a directory has under a name, it has afterwards too. -/
theorem WellFormed.child_after {dir dir' next : Inode} {name' : List UInt8}
    (hdir : fs.Known dirs dir) (hdir' : fs'.Known dirs dir') (hnum : dir'.iNumber = dir.iNumber)
    (htype : dir.fileType = fileTypeDir) (hchild : fs.child dir name' = some next) :
    ∃ next', fs'.child dir' name' = some next' ∧ fs'.Known dirs next' ∧
      next'.iNumber = next.iNumber := by
  obtain ⟨hname, e, hmem, hfind, rfl, hnext⟩ := h.child_known hdir htype hchild
  have hk := hdir.dir htype
  have hnum' := (h.node_linked hcan hent (h.link _ e hk hmem).1 (h.link _ e hk hmem).2.1).1
  have hmem' : e ∈ fs'.links (fs'.node dir.iNumber) :=
    (h.mem_links_after hcan hent hk).mpr (Or.inl hmem)
  refine ⟨fs'.node e.iNumber, (child_eq_some hname).mpr ⟨e, ?_, rfl, ?_⟩,
    (h.entered hcan hent).known_of_link hk hmem', hnum'.trans hnext.symm⟩
  · rw [(h.entered hcan hent).links_copy (hnum ▸ hk) hdir'.copy, hnum]
    by_cases hp : dir.iNumber = parent.iNumber
    · rw [hp] at hfind hmem ⊢
      obtain ⟨l₁, l₂, hold, hnew⟩ := h.links_parent hcan hent
      have hfound : e.name = name' := by
        have := List.find?_some hfind
        exact beq_iff_eq.mp this
      -- the new name is not the one that was found
      have hne : name ≠ name' := fun he ↦ hfresh
        ⟨e, by rw [h.links_copy hcan.dir hcan.copy]; exact hmem, hfound.trans he.symm⟩
      have hskip : (name == name') = false := beq_eq_false_iff_ne.mpr hne
      rw [hnew]
      refine (find?_insert (p := fun e ↦ e.name == name') hskip).trans ?_
      rw [← hold, hfind]
    · rw [h.links_other hcan hent hk hp, hfind]
  · rw [hnum']
    exact (fs.mem_links.mp hmem).2

/-- **A path leads to the same inode afterwards.** -/
theorem WellFormed.leads_after {dir dir' inode : Inode} {names : List (List UInt8)}
    (hdir : fs.Known dirs dir) (hdir' : fs'.Known dirs dir') (hnum : dir'.iNumber = dir.iNumber)
    (hleads : fs.Leads dir names inode) :
    ∃ inode', fs'.resolve dir' names = some inode' ∧ fs'.Known dirs inode' ∧
      inode'.iNumber = inode.iNumber := by
  induction hleads generalizing dir' with
  | here dir => exact ⟨dir', rfl, hdir', hnum⟩
  | step htype hchild hrest ih =>
    obtain ⟨-, e, hmem, -, heq, -⟩ := h.child_known hdir htype hchild
    obtain ⟨next', hchild', hknown, hnext⟩ :=
      h.child_after hcan hent hfresh hdir hdir' hnum htype hchild
    have hnextKnown := heq ▸ h.known_of_link (hdir.dir htype) hmem
    obtain ⟨inode', hres, hk, hn⟩ := ih hnextKnown hknown hnext
    exact ⟨inode', by rw [resolve_cons, hchild', Option.bind_some, hres], hk, hn⟩

end After

/-! ## The call -/

/-- The call can enter a file: the parent of the path is a directory with room in its last block, and
the cached inode number and block are not those of a directory. -/
structure CanCreate (fs : Fs) (dirs : ℕ → Prop) (blocks : ℕ) (path : List UInt8) (parent : Inode) :
    Prop where
  leads : fs.Leads (fs.startDir path) (components path).dropLast parent
  dir : parent.fileType = fileTypeDir
  size : parent.size % fsBlock ≠ 0
  short : (getNamePath path).length ≤ 59
  zero : (0 : UInt8) ∉ getNamePath path
  number : 0 < fs.superblock.firstFreeInodeBit ∧
    fs.superblock.firstFreeInodeBit < inodeRoom fs.superblock ∧
    ¬ dirs fs.superblock.firstFreeInodeBit
  block : fs.superblock.firstDataBlock + fs.superblock.firstFreeDataBit < blocks
  blockFree : ∀ k i, dirs k → i < blockCount (fs.node k) →
    fs.cachedBlock ≠ (fs.node k).directPointers i

theorem CanCreate.getParentInode_eq {path : List UInt8}
    (hcan : fs.CanCreate dirs blocks path parent) : fs.getParentInode path = parent := by
  rw [Fs.getParentInode_eq, Fs.parent, hcan.leads.resolve, Option.getD_some]

section Call

variable {path : List UInt8} (h : fs.WellFormed dirs blocks)
  (hcan : fs.CanCreate dirs blocks path parent)
include h hcan

theorem WellFormed.canEnter : fs.CanEnter dirs blocks parent (getNamePath path) := by
  have hknown := h.known_of_leads (h.known_startDir path).1 hcan.leads
  exact ⟨hknown.dir hcan.dir, hknown.copy, hcan.size, hcan.short, hcan.zero, hcan.number, hcan.block,
    hcan.blockFree⟩

/-- What the call returns, and what it does. -/
theorem WellFormed.entered_of_createFile {behind : ByteStore} {inode : Inode}
    (hcall : fs.createFile path behind = some (inode, fs')) :
    inode = newInode fs.superblock.firstFreeInodeBit fs.cachedBlock ∧
      fs.Entered parent (getNamePath path) fs' := by
  obtain ⟨fs₁, hcall', hent⟩ :=
    h.createFile (h.canEnter hcan) hcan.getParentInode_eq behind
  rw [hcall, Option.some.injEq, Prod.mk.injEq] at hcall'
  exact ⟨hcall'.1, hcall'.2 ▸ hent⟩

variable (hent : fs.Entered parent (getNamePath path) fs')
include hent

/-- A name that the directory has already is there twice afterwards. -/
theorem WellFormed.not_namesDistinct_of_hasName (hname : fs.HasName parent (getNamePath path)) :
    ¬ fs'.NamesDistinct dirs := by
  intro hdistinct
  have hcan' := h.canEnter hcan
  obtain ⟨e, he, hen⟩ := hname
  obtain ⟨l₁, l₂, hold, hnew⟩ := h.links_parent hcan' hent
  have hnodup := hdistinct parent.iNumber hcan'.dir
  rw [h.links_copy hcan'.dir hcan'.copy, hold] at he
  rw [hnew, List.map_append, List.map_cons, List.nodup_middle, List.nodup_cons,
    ← List.map_append] at hnodup
  exact hnodup.1 (List.mem_map.mpr ⟨e, he, hen⟩)

/-- A new name keeps names distinct. -/
theorem WellFormed.namesDistinct_of_not_hasName (hnames : fs.NamesDistinct dirs)
    (hfresh : ¬ fs.HasName parent (getNamePath path)) : fs'.NamesDistinct dirs := by
  intro k hk
  have hcan' := h.canEnter hcan
  by_cases hp : k = parent.iNumber
  · obtain ⟨l₁, l₂, hold, hnew⟩ := h.links_parent hcan' hent
    have hnodup := hnames k hk
    rw [hp, hnew, List.map_append, List.map_cons, List.nodup_middle, List.nodup_cons,
      ← List.map_append, ← hold]
    refine ⟨fun hmem ↦ hfresh ?_, hp ▸ hnodup⟩
    obtain ⟨e, he, hen⟩ := List.mem_map.mp hmem
    exact ⟨e, by rw [h.links_copy hcan'.dir hcan'.copy]; exact he, hen⟩
  · rw [h.links_other hcan' hent hk hp]
    exact hnames k hk

/-- The path is that of the new inode. -/
theorem WellFormed.getInode_created (hfresh : ¬ fs.HasName parent (getNamePath path)) :
    (fs'.getInode path).bytes =
      (newInode fs.superblock.firstFreeInodeBit fs.cachedBlock).bytes := by
  have hcan' := h.canEnter hcan
  obtain ⟨hstart, hnum⟩ := h.startDir_after hcan' hent path
  obtain ⟨parent', hres, hknown, hpnum⟩ := h.leads_after hcan' hent hfresh
    (h.known_startDir path).1 hstart hnum hcan.leads
  have hparent : fs'.parent path = some parent' := hres
  rw [getInode_eq_child, hparent, Option.bind_some, h.child_new hcan' hent hfresh hknown hpnum,
    Option.getD_some, h.bytes_node_new hcan' hent]

/-- Other paths lead where they led. -/
theorem WellFormed.getInode_kept
    (hunlinked : fs.Unlinked dirs fs.superblock.firstFreeInodeBit)
    (hfresh : ¬ fs.HasName parent (getNamePath path)) {p : List UInt8} {m : Inode}
    (hleads : fs.LeadsTo p m) (hne : m.iNumber ≠ parent.iNumber) :
    (fs'.getInode p).bytes = m.bytes := by
  have hcan' := h.canEnter hcan
  obtain ⟨hstart, hnum⟩ := h.startDir_after hcan' hent p
  obtain ⟨m', hres, hknown', hnum'⟩ := h.leads_after hcan' hent hfresh
    (h.known_startDir p).1 hstart hnum hleads
  have hknown := h.known_of_leads (h.known_startDir p).1 hleads
  have hunused : m.iNumber ≠ fs.superblock.firstFreeInodeBit :=
    h.leads_ne hunlinked (h.known_startDir p).1
      (fun he ↦ hcan.number.2.2 (he ▸ (h.known_startDir p).2)) hleads
  rw [getInode_eq, hres, Option.getD_some, hknown'.copy.2, hnum', hknown.copy.2]
  exact h.bytes_node_other hent hknown.room hunused hcan.number.2.1 (h.number _ hcan'.dir).2.1 hne

end Call

/-- **Created files resolve, and other paths as before**, on a well-formed disk and in a directory
whose last block has room, exactly if the directory does not have the name yet. -/
theorem createResolves_iff (h : fs.WellFormed dirs blocks) (hnames : fs.NamesDistinct dirs)
    {path : List UInt8} (hcan : fs.CanCreate dirs blocks path parent)
    (hunlinked : fs.Unlinked dirs fs.superblock.firstFreeInodeBit) {behind : ByteStore}
    {inode : Inode} (hcall : fs.createFile path behind = some (inode, fs')) :
    fs.CreateResolves dirs parent path inode fs' ↔ ¬ fs.HasName parent (getNamePath path) := by
  obtain ⟨rfl, hent⟩ := h.entered_of_createFile hcan hcall
  constructor
  · intro hres hname
    exact h.not_namesDistinct_of_hasName hcan hent hname hres.distinct
  · intro hfresh
    exact ⟨h.getInode_created hcan hent hfresh,
      fun p m hleads _ hne ↦ h.getInode_kept hcan hent hunlinked hfresh hleads hne,
      h.namesDistinct_of_not_hasName hcan hent hnames hfresh⟩

/-! ### A name that is there already -/

theorem selfLinks_canCreate {n : ℕ} (hpos : 0 < n) (hn : n < 64) (name : List UInt8)
    (hslash : slash ∉ name) (hshort : name.length ≤ 59) (hzero : (0 : UInt8) ∉ name) :
    (selfLinks n).CanCreate (· = 1) 16 name ((selfLinks n).node 1) := by
  obtain ⟨hnum, htype, hsize, hptr⟩ := selfLinks_node (n := n) (by omega)
  have hname : getNamePath name = name := getNamePathFrom_of_not_mem hslash
  have hroom : 4 < inodeRoom selfLinksSuperblock := by decide
  have hblock : (selfLinks n).cachedBlock = 10 := rfl
  have hstart : (selfLinks n).startDir name = (selfLinks n).node 1 := by
    rw [startDir, if_neg fun hh ↦ hslash (List.mem_of_head? hh), selfLinks_currentDirInode]
  refine ⟨?_, htype, ?_, ?_, ?_, ⟨show 0 < 4 by decide, hroom, show ¬ 4 = 1 by decide⟩,
    show 5 + 5 < 16 by decide, fun k i hk hi ↦ ?_⟩
  · rw [hstart, components_of_not_mem hslash]
    exact Leads.here _
  · rw [hsize]
    rw [fsBlock]
    omega
  · rwa [hname]
  · rwa [hname]
  · rw [hk, blockCount, hsize, bytesToBlocks_eq] at hi
    obtain rfl : i = 0 := by omega
    rw [hk, hptr, hblock]
    decide

/-- A second file of the name `a` is entered beside the first link of that name. -/
theorem not_createResolves_selfLinks : ∃ inode fs',
    (selfLinks 1).createFile [0x61] (fun _ ↦ 0) = some (inode, fs') ∧ inode.iNumber ≠ 0 ∧
      ¬ (selfLinks 1).CreateResolves (· = 1) ((selfLinks 1).node 1) [0x61] inode fs' := by
  have h := selfLinks_wellFormed (n := 1) (by decide) (by decide)
  have hcan := selfLinks_canCreate (n := 1) (by decide) (by decide) [0x61] (by decide)
    (by decide) (by decide)
  obtain ⟨fs', hcall, hent⟩ := h.createFile (h.canEnter hcan) hcan.getParentInode_eq fun _ ↦ 0
  refine ⟨_, fs', hcall, show (4 : ℕ) ≠ 0 by decide, fun hres ↦ ?_⟩
  refine h.not_namesDistinct_of_hasName hcan hent ⟨⟨1, [0x61]⟩, ?_, rfl⟩ hres.distinct
  rw [selfLinks_links (by decide) (by decide)]
  exact List.mem_singleton_self _

/-- A file of the name `b` can be created. -/
theorem createResolves_selfLinks : ∃ inode fs',
    (selfLinks 1).createFile [0x62] (fun _ ↦ 0) = some (inode, fs') ∧
      (selfLinks 1).CreateResolves (· = 1) ((selfLinks 1).node 1) [0x62] inode fs' := by
  have h := selfLinks_wellFormed (n := 1) (by decide) (by decide)
  have hlinks := selfLinks_links (n := 1) (by decide) (by decide)
  have hcan := selfLinks_canCreate (n := 1) (by decide) (by decide) [0x62] (by decide)
    (by decide) (by decide)
  obtain ⟨fs', hcall, -⟩ := h.createFile (h.canEnter hcan) hcan.getParentInode_eq fun _ ↦ 0
  refine ⟨_, fs', hcall, (createResolves_iff h (fun k hk ↦ ?_) hcan (fun k e hk he ↦ ?_) hcall).mpr ?_⟩
  · rw [hk, hlinks]
    exact List.nodup_singleton _
  · rw [hk, hlinks] at he
    rw [List.eq_of_mem_replicate he]
    show 1 ≠ 4
    decide
  · rintro ⟨e, he, hname⟩
    rw [hlinks] at he
    rw [List.eq_of_mem_replicate he] at hname
    exact absurd hname (by decide)

end Fs

end AbOS
