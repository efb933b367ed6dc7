import AbOS.Boot.Loader

/-!
# Formatting and reading back

`ReadsBack` is the contract of the disk format as a whole: what `format_disk` writes for a tree is
what `get_inode` reads, for every path, whether the host has something there or not.

`get_inode` does not look at the type of what it searches.  When a path goes on behind a regular
file, every 64 bytes of the file are taken for an entry, and a number found there for that of an
inode, wherever on the disk this would lie.  In a readable tree this is all that can go wrong: its
paths are read back exactly if each such place begins with a zero (`readsBack_iff`).

A tree of less than 62 files and directories is not readable.  Its inodes are in the block that the
root is given for its entries, and `..` is written over the root's inode: no such tree is read back
(`SmallTree.not_readsBack`).

* `throughFile_split` — where a path goes on behind a file.
* `child_of_entriesIn` — what is found there.
* `FilesLeadNowhere` — nothing is.
* `Host.Plain` — a condition on the contents alone that is enough for this.
* `SmallTree.root_overwritten` — what stands in the place of the root's inode.
-/

set_option autoImplicit false

namespace AbOS

open ByteStore

/-! ## Walks through a file -/

/-- A path that goes on behind a file leads to the file first. -/
theorem throughFile_split {names : List (List UInt8)} : ∀ {trail : List Host},
    throughFile trail names = true → ∃ before name after fileName contents up,
      names = before ++ name :: after ∧ throughFile trail before = false ∧
        hostWalk trail before = some (.file fileName contents :: up) := by
  induction names with
  | nil =>
    intro trail h
    rw [throughFile] at h
    exact Bool.noConfusion h
  | cons name names ih =>
    intro trail h
    rcases trail with _ | ⟨⟨fileName, contents⟩ | ⟨dirName, entries⟩, up⟩
    · exact Bool.noConfusion h
    · exact ⟨[], name, names, fileName, contents, up, rfl, rfl, rfl⟩
    · rw [throughFile] at h
      · cases henter : Host.enter (.dir dirName entries :: up) name with
        | none =>
          rw [henter] at h
          exact Bool.noConfusion h
        | some trail =>
          rw [henter] at h
          obtain ⟨before, name', after, fileName, contents, up', rfl, hbefore, hwalk⟩ := ih h
          refine ⟨name :: before, name', after, fileName, contents, up', rfl, ?_, ?_⟩
          · rw [throughFile]
            · rw [henter]
              exact hbefore
            · intro _ _ _ heq
              cases heq
          · rw [hostWalk, List.foldlM_cons, henter]
            exact hwalk
      · intro _ _ _ heq
        cases heq

/-- On the host nothing is behind a file. -/
theorem hostWalk_of_file {trail up : List Host} {before after : List (List UInt8)}
    {name fileName contents : List UInt8}
    (h : hostWalk trail before = some (.file fileName contents :: up)) :
    hostWalk trail (before ++ name :: after) = none := by
  rw [hostWalk, List.foldlM_append]
  show (hostWalk trail before).bind _ = none
  rw [h, Option.bind_some, List.foldlM_cons]
  rfl

/-- A walk that leads somewhere does not go on behind a file. -/
theorem throughFile_of_hostWalk {names : List (List UInt8)} {trail trail' : List Host}
    (h : hostWalk trail names = some trail') : throughFile trail names = false := by
  cases hthrough : throughFile trail names with
  | false => rfl
  | true =>
    obtain ⟨before, name, after, fileName, contents, up, rfl, -, hwalk⟩ :=
      throughFile_split hthrough
    rw [hostWalk_of_file hwalk] at h
    exact absurd h.symm (Option.some_ne_none _)

/-! ## Files that are searched -/

/-- What a lookup in a file with these contents takes for its entries. -/
def entriesIn (contents : List UInt8) : List DirEntry :=
  (List.range (bytesToBlocks contents.length)).flatMap fun i ↦
    (List.range dirEntriesPerBlock).map fun j ↦
      readDirEntry (fun y ↦ contents.getD y 0) (i * fsBlock) j

/-- The entry at which a lookup of the name would stop. -/
def entryIn (contents name : List UInt8) : Option DirEntry :=
  ((entriesIn contents).filter fun e ↦ e.iNumber != 0).find? fun e ↦ e.name == name

section File

variable {fs : Fs} {inode : Inode} {name fileName contents : List UInt8}

/-- A lookup goes over the bytes that the inode leads to, whatever they are. -/
theorem dirEntries_eq_entriesIn {disk : ByteStore}
    (hblocks : bytesToBlocks inode.size = bytesToBlocks contents.length)
    (hbytes : ∀ y < bytesToBlocks contents.length * fsBlock,
      disk (fileByte inode y) = contents.getD y 0) :
    dirEntries disk inode = entriesIn contents := by
  rw [dirEntries, entriesIn, hblocks]
  refine List.flatMap_congr fun i hi ↦ List.map_congr_left fun j hj ↦ ?_
  have hi := List.mem_range.mp hi
  have hj : j < 64 := List.mem_range.mp hj
  -- the record lies in the block `i`
  have hbyte : ∀ k < fsBlock, disk (sectorAddress (blockSector (inode.directPointers i)) + k) =
      contents.getD (i * fsBlock + k) 0 := fun k hk ↦ by
    rw [← hbytes (i * fsBlock + k) (by rw [fsBlock] at *; omega), fileByte]
    have hblock : (i * fsBlock + k) / fsBlock = i := by rw [fsBlock] at *; omega
    have hrest : (i * fsBlock + k) % fsBlock = k := by rw [fsBlock] at *; omega
    rw [hblock, hrest]
  rw [readDirEntry, readDirEntry, readWord, readWord, dirEntryBytes]
  rw [fsBlock] at *
  have hslice : ∀ k n, j * 64 + k + n ≤ 4096 →
      disk.slice (sectorAddress (blockSector (inode.directPointers i)) + j * 64 + k) n =
        slice (fun y ↦ contents.getD y 0) (i * 4096 + j * 64 + k) n := fun k n hn ↦
    List.map_congr_left fun x hx ↦ by
      have hx := List.mem_range.mp hx
      rw [show sectorAddress (blockSector (inode.directPointers i)) + j * 64 + k + x =
        sectorAddress (blockSector (inode.directPointers i)) + (j * 64 + k + x) by omega,
        hbyte _ (by omega), show i * 4096 + (j * 64 + k + x) = i * 4096 + j * 64 + k + x by omega]
  have hword := hslice 0 4 (by omega)
  rw [Nat.add_zero, Nat.add_zero] at hword
  rw [hword, hslice 4 (4096 - (j * 64 + 4)) (by omega)]

/-- **What is found**: the inode of the number that stands beside the name. -/
theorem child_of_entriesIn (h : dirEntries fs.disk inode = entriesIn contents)
    (hname : name.length ≤ 59) :
    fs.child inode name = (entryIn contents name).bind fun e ↦ found (fs.node e.iNumber) := by
  rw [Fs.child, if_pos hname, Fs.getInodeInDir_eq, Fs.firstEntry_eq_find?, Fs.links, h, ← entryIn]
  cases entryIn contents name with
  | none => rfl
  | some e => rfl

/-- A file is searched as if its contents were entries. -/
theorem dirEntries_of_file (h : (Host.file fileName contents).ReadAs fs inode) :
    dirEntries fs.disk inode = entriesIn contents :=
  dirEntries_eq_entriesIn (by rw [h.2.1]) h.2.2

end File

/-! ## Paths -/

/-- No component of a path has a slash. -/
theorem slash_notMem_splitOn (bs : List UInt8) : ∀ name ∈ bs.splitOn slash, slash ∉ name := by
  induction bs with
  | nil =>
    rw [List.splitOn_nil]
    intro name hname
    rw [List.mem_singleton.mp hname]
    exact List.not_mem_nil
  | cons b bs ih =>
    obtain ⟨first, rest, hsplit⟩ := List.exists_cons_of_ne_nil (List.splitOn_ne_nil slash bs)
    rw [List.splitOn_cons_eq_if_modifyHead]
    rw [hsplit] at ih ⊢
    intro name hname
    split at hname
    · rcases List.mem_cons.mp hname with rfl | hname
      · exact List.not_mem_nil
      · exact ih name hname
    · rename_i hne
      rw [List.modifyHead_cons] at hname
      rcases List.mem_cons.mp hname with rfl | hname
      · intro hmem
        rcases List.mem_cons.mp hmem with heq | hmem
        · exact hne (beq_iff_eq.mpr heq.symm)
        · exact ih first List.mem_cons_self hmem
      · exact ih name (List.mem_cons_of_mem _ hname)

theorem slash_notMem_components (path : List UInt8) : ∀ name ∈ components path, slash ∉ name :=
  slash_notMem_splitOn _

/-- Names without a slash are the components of a path. -/
theorem components_intercalate {names : List (List UInt8)} (h : ∀ name ∈ names, slash ∉ name)
    (hne : names ≠ []) : components (slash :: [slash].intercalate names) = names := by
  rw [components, List.head?_cons, if_pos rfl, List.tail_cons]
  exact List.splitOn_intercalate slash h hne

/-! ## Format, then read -/

/-- The kernel, with the superblock of the image in memory, finds under every path what the host has
there, and the zero inode where the host has nothing. -/
def ReadsBack (bootBlock : List UInt8) (entries : List Host) : Prop :=
  ∀ (memory : ByteStore) (rootAddress : ℕ) (path : List UInt8),
    memory.slice superblockAddress (19 * 4) =
      (diskImage bootBlock entries).slice fsBlock (19 * 4) →
    let fs := mount (diskImage bootBlock entries) memory rootAddress
    (hostWalk [.dir [] entries] (components path) = none ∧ fs.getInode path = Inode.zero) ∨
      ∃ c up, hostWalk [.dir [] entries] (components path) = some (c :: up) ∧
        c.ReadAs fs (fs.getInode path)

/-- The mounted image of a readable tree. -/
theorem mounted_of_superblock {entries : List Host} {bootBlock : List UInt8} (h : Readable entries)
    (hboot : bootBlock.length = fsBlock) {memory : ByteStore} (rootAddress : ℕ)
    (hmemory : memory.slice superblockAddress (19 * 4) =
      (diskImage bootBlock entries).slice fsBlock (19 * 4)) :
    Mounted (mount (diskImage bootBlock entries) memory rootAddress)
      (splice (fun _ ↦ 0) 0 (imageFront bootBlock (treeSuperblock entries))) entries :=
  mount_mounted h (readSuperblock_of_image h.toFitsDisk h.toIsHostTree h.short hboot hmemory)
    rootAddress

/-- Nothing is found behind a file: when a lookup in its contents stops at an entry, there is a zero
on this disk where the inode of that number would be. -/
def FilesLeadNowhere (disk : ByteStore) (s : Superblock) (entries : List Host) : Prop :=
  ∀ (names : List (List UInt8)) (name fileName contents : List UInt8) (up : List Host),
    (∀ n ∈ names, slash ∉ n) → name.length ≤ 59 → slash ∉ name →
    hostWalk [.dir [] entries] names = some (.file fileName contents :: up) →
    ∀ e, entryIn contents name = some e → disk.readWord (lookupAddress s e.iNumber) = 0

section Mounted

variable {entries : List Host} {bootBlock : List UInt8}

theorem lookupAddress_congr {s s' : Superblock} (h : s.firstInodeBlock = s'.firstInodeBlock)
    (k : ℕ) : lookupAddress s k = lookupAddress s' k := by
  rw [lookupAddress, lookupAddress, inodeSector, inodeSector, h]

variable {fs : Fs} {base : ByteStore}

/-- The inode of a file that a path comes to. -/
theorem Mounted.resolve_of_file (hfs : Mounted fs base entries) (h : Readable entries)
    (path : List UInt8) {names : List (List UInt8)} {fileName contents : List UInt8}
    {up : List Host} (hthrough : throughFile [.dir [] entries] names = false)
    (hwalk : hostWalk [.dir [] entries] names = some (.file fileName contents :: up)) :
    ∃ inode, fs.resolve (fs.startDir path) names = some inode ∧
      (Host.file fileName contents).ReadAs fs inode := by
  rcases resolve_of_trail hfs.table names (hfs.trail h) (hfs.startDir path) hthrough with
    ⟨hnone, -⟩ | ⟨trail, m, inode, hsome, hres, ht, hinode⟩
  · rw [hwalk] at hnone
    exact absurd hnone (Option.some_ne_none _)
  · obtain rfl := Option.some.inj (hwalk.symm.trans hsome)
    exact ⟨inode, hres, readAs_of_trail ht hfs.table hinode⟩

/-- One name behind a file, on the mounted image. -/
theorem Mounted.child_eq_none_iff (hfs : Mounted fs base entries) {inode : Inode}
    {name fileName contents : List UInt8} (hread : (Host.file fileName contents).ReadAs fs inode)
    (hname : name.length ≤ 59) : fs.child inode name = none ↔ ∀ e, entryIn contents name = some e →
      fs.disk.readWord (lookupAddress (treeSuperblock entries) e.iNumber) = 0 := by
  rw [child_of_entriesIn (dirEntries_of_file hread) hname]
  cases entryIn contents name with
  | none => exact iff_of_true rfl fun e he ↦ absurd he.symm (Option.some_ne_none e)
  | some e =>
    have hnumber : (fs.node e.iNumber).iNumber =
        fs.disk.readWord (lookupAddress (treeSuperblock entries) e.iNumber) := by
      rw [← lookupAddress_congr hfs.table]
      rfl
    rw [Option.bind_some, found, ite_eq_left_iff, hnumber]
    constructor
    · intro h e' he'
      obtain rfl := Option.some.inj he'
      exact Classical.not_not.mp fun hne ↦ Option.some_ne_none _ (h hne)
    · exact fun h hne ↦ absurd (h e rfl) hne

/-- A path that goes on behind a file, on the mounted image. -/
theorem Mounted.getInode_of_file (hfs : Mounted fs base entries) (h : Readable entries)
    {path name fileName contents : List UInt8} {names after : List (List UInt8)} {up : List Host}
    (hpath : components path = names ++ name :: after)
    (hwalk : hostWalk [.dir [] entries] names = some (.file fileName contents :: up)) :
    ∃ inode, (Host.file fileName contents).ReadAs fs inode ∧ fs.getInode path =
      ((fs.child inode name).bind fun next ↦ fs.resolve next after).getD Inode.zero := by
  obtain ⟨inode, hres, hread⟩ :=
    hfs.resolve_of_file h path (throughFile_of_hostWalk hwalk) hwalk
  refine ⟨inode, hread, ?_⟩
  rw [Fs.getInode_eq, hpath, Fs.resolve_append, hres, Option.bind_some, Fs.resolve_cons]

/-- The superblock is brought to its place. -/
theorem exists_memory (disk : ByteStore) : ∃ memory : ByteStore,
    memory.slice superblockAddress (19 * 4) = disk.slice fsBlock (19 * 4) := by
  have h := slice_splice_self (fun _ ↦ 0) superblockAddress (disk.slice fsBlock (19 * 4))
  rw [length_slice] at h
  exact ⟨_, h⟩

/-- Whatever is found behind a file has a number, and the host has nothing there. -/
theorem filesLeadNowhere_of_readsBack (h : Readable entries) (hboot : bootBlock.length = fsBlock)
    (hreads : ReadsBack bootBlock entries) :
    FilesLeadNowhere (diskImage bootBlock entries) (treeSuperblock entries) entries := by
  intro names name fileName contents up hnames hname hslash hwalk
  obtain ⟨memory, hmemory⟩ := exists_memory (diskImage bootBlock entries)
  have hfs := mounted_of_superblock h hboot 0 hmemory
  have hall : ∀ n ∈ names ++ [name], slash ∉ n := fun n hn ↦ by
    rcases List.mem_append.mp hn with hn | hn
    · exact hnames n hn
    · rw [List.mem_singleton.mp hn]
      exact hslash
  have hpath := components_intercalate hall
    (List.append_ne_nil_of_right_ne_nil _ (List.cons_ne_nil name []))
  obtain ⟨inode, hread, hget⟩ := hfs.getInode_of_file h hpath hwalk
  have hback := hreads memory 0 (slash :: [slash].intercalate (names ++ [name])) hmemory
  dsimp only at hback
  rw [hget, hpath, hostWalk_of_file hwalk] at hback
  refine (hfs.child_eq_none_iff hread hname).mp ?_
  rcases hback with ⟨-, hzero⟩ | ⟨c, up', hsome, -⟩
  · cases hchild : (mount (diskImage bootBlock entries) memory 0).child inode name with
    | none => rfl
    | some next =>
      rw [hchild] at hzero
      obtain ⟨e, -, -, hne⟩ := (Fs.child_eq_some hname).mp hchild
      rw [show next = Inode.zero from hzero] at hne
      exact absurd rfl hne
  · exact absurd hsome.symm (Option.some_ne_none _)

/-- **What is formatted is read back**, from a readable tree, exactly if nothing is found behind its
files. -/
theorem readsBack_iff (h : Readable entries) (hboot : bootBlock.length = fsBlock) :
    ReadsBack bootBlock entries ↔
      FilesLeadNowhere (diskImage bootBlock entries) (treeSuperblock entries) entries := by
  refine ⟨filesLeadNowhere_of_readsBack h hboot, ?_⟩
  intro hnowhere memory rootAddress path hmemory
  have hfs := mounted_of_superblock h hboot rootAddress hmemory
  cases hthrough : throughFile [.dir [] entries] (components path) with
  | false => exact hfs.getInode h path hthrough
  | true =>
    obtain ⟨before, name, after, fileName, contents, up, hpath, -, hwalk⟩ :=
      throughFile_split hthrough
    obtain ⟨inode, hread, hget⟩ := hfs.getInode_of_file h hpath hwalk
    have hslash := slash_notMem_components path
    rw [hpath] at hslash
    have hchild : (mount (diskImage bootBlock entries) memory rootAddress).child inode name =
        none := by
      by_cases hshort : name.length ≤ 59
      · refine (hfs.child_eq_none_iff hread hshort).mpr ?_
        exact hnowhere before name fileName contents up
          (fun n hn ↦ hslash n (List.mem_append_left _ hn)) hshort
          (hslash name (List.mem_append_right _ List.mem_cons_self)) hwalk
      · rw [Fs.child, if_neg hshort]
    refine Or.inl ⟨hpath ▸ hostWalk_of_file hwalk, ?_⟩
    rw [hget, hchild]
    rfl

end Mounted

/-! ## Files without entries -/

/-- A lookup can stop at the entry: it has a number, and its name can stand in a path. -/
def DirEntry.Findable (e : DirEntry) : Prop := e.iNumber ≠ 0 ∧ e.name.length ≤ 59 ∧ slash ∉ e.name

instance (e : DirEntry) : Decidable e.Findable := inferInstanceAs (Decidable (_ ∧ _))

mutual

/-- Nothing in the contents of the files can be taken for an entry. -/
def Host.Plain : Host → Prop
  | .file _ contents => ∀ e ∈ entriesIn contents, ¬ e.Findable
  | .dir _ entries => EntriesPlain entries

/-- Each of them. -/
def EntriesPlain : List Host → Prop
  | [] => True
  | h :: hs => h.Plain ∧ EntriesPlain hs

end

theorem EntriesPlain.mem {entries : List Host} (h : EntriesPlain entries) :
    ∀ c ∈ entries, c.Plain := by
  induction entries with
  | nil => exact fun c hc ↦ absurd hc List.not_mem_nil
  | cons c cs ih =>
    rw [EntriesPlain] at h
    intro c' hc'
    rcases List.mem_cons.mp hc' with rfl | hc'
    · exact h.1
    · exact ih h.2 c' hc'

/-- What a walk comes to is a part of the tree. -/
theorem plain_of_enter {trail trail' : List Host} {name : List UInt8} (h : ∀ c ∈ trail, c.Plain)
    (henter : Host.enter trail name = some trail') : ∀ c ∈ trail', c.Plain := by
  match trail with
  | [] => exact absurd (show none = some trail' from henter) (Option.some_ne_none _).symm
  | .file _ _ :: _ =>
    exact absurd (show none = some trail' from henter) (Option.some_ne_none _).symm
  | .dir dirName entries :: up =>
    rw [Host.enter_dir] at henter
    split at henter
    · rw [← Option.some.inj henter]
      exact h
    split at henter
    · rw [← Option.some.inj henter]
      split
      · exact fun c hc ↦ h c (List.mem_singleton.mp hc ▸ List.mem_cons_self)
      · exact fun c hc ↦ h c (List.mem_cons_of_mem _ hc)
    obtain ⟨c, hc, rfl⟩ := Option.map_eq_some_iff.mp henter
    have hdir := h _ List.mem_cons_self
    rw [Host.Plain] at hdir
    intro c' hc'
    rcases List.mem_cons.mp hc' with rfl | hc'
    · exact hdir.mem c' (List.mem_of_find?_eq_some hc)
    · exact h c' hc'

theorem plain_of_hostWalk {names : List (List UInt8)} : ∀ {trail trail' : List Host},
    (∀ c ∈ trail, c.Plain) → hostWalk trail names = some trail' → ∀ c ∈ trail', c.Plain := by
  induction names with
  | nil =>
    intro trail trail' h hwalk
    cases hwalk
    exact h
  | cons name names ih =>
    intro trail trail' h hwalk
    rw [hostWalk, List.foldlM_cons] at hwalk
    obtain ⟨next, henter, hwalk⟩ := Option.bind_eq_some_iff.mp hwalk
    exact ih (plain_of_enter h henter) hwalk

/-- **Plain files lead nowhere.** -/
theorem filesLeadNowhere_of_plain {entries : List Host} (h : EntriesPlain entries)
    (disk : ByteStore) (s : Superblock) : FilesLeadNowhere disk s entries := by
  intro names name fileName contents up _ hname hslash hwalk e he
  have hall : ∀ c ∈ [Host.dir [] entries], c.Plain := fun c hc ↦ by
    rw [List.mem_singleton.mp hc, Host.Plain]
    exact h
  have hfile := plain_of_hostWalk hall hwalk _ List.mem_cons_self
  rw [Host.Plain] at hfile
  obtain ⟨hmem, hlinked⟩ := List.mem_filter.mp (List.mem_of_find?_eq_some he)
  have heq : e.name = name :=
    beq_iff_eq.mp (List.find?_some (p := fun e : DirEntry ↦ e.name == name) he)
  exact absurd ⟨bne_iff_ne.mp hlinked, heq ▸ hname, heq ▸ hslash⟩ (hfile e hmem)

/-- Zeros are no entries. -/
theorem iNumber_of_zeros {contents : List UInt8} (h : ∀ b ∈ contents, b = 0) :
    ∀ e ∈ entriesIn contents, e.iNumber = 0 := by
  intro e he
  obtain ⟨i, -, he⟩ := List.mem_flatMap.mp he
  obtain ⟨j, -, rfl⟩ := List.mem_map.mp he
  have hzero : ∀ y, contents.getD y 0 = 0 := fun y ↦ by
    rcases Nat.lt_or_ge y contents.length with hlt | hge
    · rw [List.getD_eq_getElem _ _ hlt]
      exact h _ (List.getElem_mem hlt)
    · exact List.getD_eq_default _ _ hge
  simp only [readDirEntry, hzero]
  rfl

theorem entryIn_of_zeros {contents : List UInt8} (h : ∀ b ∈ contents, b = 0) (name : List UInt8) :
    entryIn contents name = none := by
  have hnil : (entriesIn contents).filter (fun e ↦ e.iNumber != 0) = [] :=
    List.filter_eq_nil_iff.mpr fun e he ↦ by
      rw [iNumber_of_zeros h e he]
      decide
  rw [entryIn, hnil]
  rfl

/-! ## Trees of less than 62 files and directories -/

/-- A tree whose inodes do not fill the first block of the table; all of its numbers and blocks are
different. -/
structure SmallTree (entries : List Host) : Prop extends IsHostTree entries, FitsDisk entries where
  short : EntryNamesFit entries
  unique : UniqueNumbers entries
  oneOwner : OneOwner entries
  small : (treeSuperblock entries).numInodes < 64

namespace SmallTree

variable {entries : List Host} (h : SmallTree entries)
include h

/-- The data begins where the inodes do, in block 4. -/
theorem blocks_eq : (treeSuperblock entries).firstInodeBlock = 4 ∧
    (treeSuperblock entries).firstDataBlock = 4 := by
  obtain ⟨-, -, -, -, htable, hfirst, -⟩ := h.toFitsDisk.regions h.toIsHostTree
  have hsmall := h.small
  omega

/-- What lies on a byte: an inode of block 4, or blocks of the data. -/
theorem covers {q : Placed} (hq : q ∈ (formatTree entries).placed) {x : ℕ}
    (hx : q.Covers (treeSuperblock entries) x) :
    (4 * fsBlock + q.iNumber * inodeBytes ≤ x ∧ x < 4 * fsBlock + (q.iNumber + 1) * inodeBytes) ∨
      x / fsBlock ∈ q.blocks := by
  obtain ⟨htable, -⟩ := h.blocks_eq
  have hnum : q.iNumber < 64 := (h.unique.inRange q hq).trans h.small
  rcases hx with hx | hx
  · have hfits : SlotFits (treeSuperblock entries) q.iNumber := by
      rw [SlotFits, htable, fsBlock, inodeBytes]
      omega
    rw [Placed.InSlot, seekInode_eq hfits, slotAddress, htable] at hx
    refine Or.inl ⟨hx.1, ?_⟩
    have := hx.2
    rw [inodeBytes] at *
    omega
  · obtain ⟨b, k, -, hblocks, hend⟩ := h.toIsHostTree.placed_range h.toFitsDisk hq
    exact Or.inr ((Placed.inBlocks_iff_of_range hblocks hend).mp hx)

/-- **The root is lost**: `..` stands where its inode should be. -/
theorem root_overwritten (base : ByteStore) :
    (treeImage base entries).slice (4 * fsBlock + inodeBytes) inodeBytes =
      DirEntry.bytes ⟨1, [0x2E, 0x2E]⟩ := by
  obtain ⟨p, slots, qs, ws, his, hstart, hwritten, hplaced, hwrites⟩ :=
    formatTree_root h.toIsHostTree.fits h.short
  have hmem : ∀ q ∈ p :: qs, q ∈ (formatTree entries).placed := fun q hq ↦ hplaced ▸ hq
  have hp := hmem p List.mem_cons_self
  have hpos : 0 < bytesToBlocks (dirSize entries.length) := by
    rw [dirSize_eq h.toIsHostTree.root, bytesToBlocks_eq, dirEntryBytes]
    omega
  obtain ⟨n, hn⟩ := Nat.exists_eq_succ_of_ne_zero (Nat.pos_iff_ne_zero.mp hpos)
  have hfour : p.start = 4 * fsBlock := by
    rw [hstart, hn,
      show (writeSuperblock (getFileInfo entries)).firstDataBlock = 4 from h.blocks_eq.2,
      blocksFrom, List.range_succ_eq_map, List.map_cons, List.getD_cons_zero]
    decide
  -- the root has block 4
  have hblock : 4 ∈ p.blocks := by
    obtain ⟨b, k, -, hblocks, hend⟩ := h.toIsHostTree.placed_range h.toFitsDisk hp
    refine (Placed.inBlocks_iff_of_range (x := 4 * fsBlock) hblocks hend).mp ⟨hfour.le, ?_⟩
    rw [hfour, Placed.length_blocks his, hn, fsBlock]
    omega
  have hdistinct : ∀ q ∈ qs, q.iNumber ≠ 1 ∧ 4 ∉ q.blocks := fun q hq ↦ by
    have hnumbers := h.unique.distinct
    have howns := h.oneOwner.distinct
    rw [hplaced, List.map_cons, List.nodup_cons] at hnumbers
    rw [hplaced, List.flatMap_cons] at howns
    refine ⟨fun hone ↦ hnumbers.1 (List.mem_map.mpr ⟨q, hq, hone.trans his.iNumber.symm⟩),
      fun hfour ↦ ?_⟩
    exact (List.disjoint_of_nodup_append howns) (h.toIsHostTree.blocks_subset_owns hp 4 hblock)
      (List.mem_flatMap.mpr
        ⟨q, hq, h.toIsHostTree.blocks_subset_owns (hmem q (List.mem_cons_of_mem _ hq)) 4 hfour⟩)
  have hopen := slice_splices_self base
    [(seekInode (writeSuperblock (getFileInfo entries)) p.iNumber, p.inode.bytes),
      (p.start, DirEntry.bytes ⟨1, [0x2E]⟩)] [] (a := p.start + dirEntryBytes) (length_dots 1 1).2
    fun w hw ↦ absurd hw List.not_mem_nil
  rw [treeImage, hwrites, splices_append, ← hfour]
  refine Eq.trans (slice_congr fun k hk ↦ splices_of_not_reached fun w hw hreach ↦ ?_) hopen
  rw [inodeBytes] at hk hreach
  have hblockOf : (p.start + 64 + k) / fsBlock = 4 := by
    rw [hfour]
    rw [fsBlock]
    omega
  -- nothing that is written afterwards comes there
  rcases List.mem_append.mp hw with hw | hw
  · rcases hwritten.within _ w hw hreach with ⟨hlow, -⟩ | ⟨q, hq, hcovers⟩
    · rw [dirEntryBytes] at hlow
      omega
    · obtain ⟨hnum, hfour'⟩ := hdistinct q hq
      rcases h.covers (hmem q (List.mem_cons_of_mem _ hq)) hcovers with hslot | hin
      · rw [hfour, inodeBytes] at hslot
        omega
      · rw [hblockOf] at hin
        exact hfour' hin
  · rw [List.mem_singleton.mp hw, Reaches, closeWrite, dirEntryBytes] at hreach
    dsimp only at hreach
    omega

/-- The boot block is on the image. -/
theorem bootBlock {bootBlock : List UInt8} (hboot : bootBlock.length = fsBlock) {y : ℕ}
    (hy : y < fsBlock) : diskImage bootBlock entries y = bootBlock.getD y 0 := by
  have hlt : y < (imageFront bootBlock (treeSuperblock entries)).length := by
    rw [imageFront, List.length_append, hboot]
    omega
  have hfront := splice_of_mem (m := fun _ ↦ 0) (a := 0) hlt
  rw [Nat.zero_add] at hfront
  rw [diskImage, h.toFitsDisk.treeImage_front h.toIsHostTree h.short _
    (by rw [fsBlock] at *; omega), hfront, imageFront,
    List.getD_append _ _ _ _ (hboot ▸ hy)]

/-- The inode that is read for the root. -/
def lostRoot : Inode := { Inode.zero with iNumber := 1, fileType := 0x2E, size := 0x2E }

omit h in
theorem lostRoot_bytes : lostRoot.bytes = DirEntry.bytes ⟨1, [0x2E, 0x2E]⟩ := by decide

omit h in
theorem lostRoot_inRange : lostRoot.InRange := by
  refine ⟨by decide, by decide, by decide, fun i _ ↦ ?_⟩
  exact Nat.two_pow_pos 32

/-- **A small tree is not read back**: the root has no block but the boot block, in which the kernel
looks for all names. -/
theorem not_readsBack {bootBlock : List UInt8} (hboot : bootBlock.length = fsBlock)
    (hnone : entryIn bootBlock [0x2E] = none) : ¬ ReadsBack bootBlock entries := by
  intro hreads
  obtain ⟨memory, hmemory⟩ := exists_memory (diskImage bootBlock entries)
  have hsuper := readSuperblock_of_image h.toFitsDisk h.toIsHostTree h.short hboot hmemory
  obtain ⟨htable, -⟩ := h.blocks_eq
  have hroot := @mount_rootInode (diskImage bootBlock entries) _ _ hsuper
    (by rw [htable]; decide) 0
  rw [slotAddress, htable, Nat.one_mul, diskImage, h.root_overwritten, ← lostRoot_bytes,
    ← diskImage] at hroot
  have hback := hreads memory 0 [0x2E] hmemory
  dsimp only at hback
  obtain ⟨fs, hfs⟩ : ∃ fs, fs = mount (diskImage bootBlock entries) memory 0 := ⟨_, rfl⟩
  rw [← hfs] at hroot hback
  have hdisk : fs.disk = diskImage bootBlock entries := by rw [hfs]; rfl
  have hcurrent : fs.currentDirInode = fs.rootInode := by rw [hfs]; rfl
  have hin : fs.rootInode.InRange := by rw [hfs]; exact readInode_inRange _ _
  obtain ⟨-, -, hsize, hpointers⟩ := Inode.fields_of_bytes hroot hin lostRoot_inRange
  have hblocks : bytesToBlocks bootBlock.length = 1 := by rw [hboot]; rfl
  have hentries : dirEntries fs.disk fs.rootInode = entriesIn bootBlock := by
    refine dirEntries_eq_entriesIn (by rw [hsize, hblocks]; rfl) fun y hy ↦ ?_
    rw [hblocks, Nat.one_mul] at hy
    rw [fileByte, Nat.div_eq_of_lt hy, Nat.mod_eq_of_lt hy, hpointers 0 (by decide), hdisk,
      ← h.bootBlock hboot hy]
    exact congrArg _ (Nat.zero_add y)
  have hget : fs.getInode [0x2E] = Inode.zero := by
    have hstart : fs.startDir [0x2E] = fs.rootInode := hcurrent
    rw [Fs.getInode_eq, hstart, show components [0x2E] = [[0x2E]] from rfl, Fs.resolve_singleton,
      child_of_entriesIn hentries (by decide), hnone]
    rfl
  have hwalk : hostWalk [.dir [] entries] (components [0x2E]) = some [.dir [] entries] := rfl
  rw [hwalk, hget] at hback
  rcases hback with ⟨hnone', -⟩ | ⟨c, up, hsome, hread⟩
  · exact Option.some_ne_none _ hnone'
  · obtain ⟨rfl, -⟩ := List.cons.inj (Option.some.inj hsome)
    rw [Host.ReadAs] at hread
    exact absurd hread.1 (by decide)

end SmallTree

/-! ### Two trees -/

/-- The two kernel files. -/
def twoBinaries : List Host := [.file prekernelBin [0xF4], .file kernelBin [0xEB, 0xFE]]

theorem twoBinaries_isHostTree : IsHostTree twoBinaries where
  names := by decide
  prekernel := ⟨[0xF4], List.mem_cons_self⟩
  kernel := ⟨[0xEB, 0xFE], List.mem_cons_of_mem _ List.mem_cons_self⟩
  root := by decide
  fits := ⟨Nat.le_of_ble_eq_true rfl, Nat.le_of_ble_eq_true rfl, trivial⟩

theorem twoBinaries_small : SmallTree twoBinaries where
  toIsHostTree := twoBinaries_isHostTree
  blocks := by
    have hall : ∀ p ∈ (formatTree twoBinaries).placed, ∀ b ∈ p.blocks,
        b < bytesToBlocks diskSize := by decide +kernel
    rintro b ⟨p, hp, hb⟩
    exact hall p hp b hb
  short := ⟨namesFit_file (by decide), namesFit_file (by decide), trivial⟩
  unique := uniqueNumbers_of_once (by decide +kernel) (by decide +kernel) (by decide +kernel)
  oneOwner := by
    -- the root and the prekernel end in front of the hole
    refine twoBinaries_isHostTree.oneOwner ⟨by decide +kernel, ⟨_, [], (List.append_nil _).symm,
      Or.inl ⟨rfl, ?_⟩⟩, ?_⟩
    · decide +kernel
    · decide +kernel
  small := by decide +kernel

/-- The two kernel files alone, behind an empty boot block. -/
theorem not_readsBack_twoBinaries : IsHostTree twoBinaries ∧ FitsDisk twoBinaries ∧
    EntryNamesFit twoBinaries ∧ ¬ ReadsBack (List.replicate fsBlock 0) twoBinaries :=
  ⟨twoBinaries_isHostTree, twoBinaries_small.toFitsDisk, twoBinaries_small.short,
    twoBinaries_small.not_readsBack List.length_replicate
      (entryIn_of_zeros (fun _ hb ↦ List.eq_of_mem_replicate hb) _)⟩

/-- As many files as fill one block of inodes, with zeros in them; the kernel has two blocks. -/
def blankFiles : List Host :=
  .dir [0x64] [.file [0x66] [0, 0]] :: .file prekernelBin [0] ::
    .file kernelBin (List.replicate 4097 0) ::
      (List.range 58).map fun i ↦ .file [0x61, UInt8.ofNat (i + 0x30)] [0]

theorem blankFiles_readable : Readable blankFiles where
  names := by decide +kernel
  prekernel := ⟨[0], List.mem_cons_of_mem _ List.mem_cons_self⟩
  kernel := ⟨_, List.mem_cons_of_mem _ (List.mem_cons_of_mem _ List.mem_cons_self)⟩
  root := by decide +kernel
  fits := by
    have hkernel : (List.replicate 4097 (0 : UInt8)).length ≤ 7 * fsBlock := by
      rw [List.length_replicate]
      decide
    exact ⟨⟨by decide, ⟨Nat.le_of_ble_eq_true rfl, trivial⟩⟩, Nat.le_of_ble_eq_true rfl, hkernel,
      small_fits _ _⟩
  blocks := by
    have hall : ∀ p ∈ (formatTree blankFiles).placed, ∀ b ∈ p.blocks,
        b < bytesToBlocks diskSize := by decide +kernel
    rintro b ⟨p, hp, hb⟩
    exact hall p hp b hb
  short := ⟨⟨by decide, ⟨namesFit_file (by decide), trivial⟩⟩, namesFit_file (by decide),
    namesFit_file (by decide), small_namesFit (by decide +kernel) _⟩
  prekernels := by decide +kernel
  kernels := by decide +kernel
  few := by decide +kernel
  table := by decide +kernel
  hole := by
    -- the root and `d` fill the blocks in front of the hole, and `f` comes next
    refine ⟨by decide +kernel, ⟨_, _, (List.take_append_drop 2 _).symm, Or.inr ⟨?_, ?_⟩⟩, ?_⟩
    · decide +kernel
    · decide +kernel
    · decide +kernel

theorem plain_of_zeros {name contents : List UInt8} (h : ∀ b ∈ contents, b = 0) :
    (Host.file name contents).Plain := by
  rw [Host.Plain]
  exact fun e he hfindable ↦ hfindable.1 (iNumber_of_zeros h e he)

theorem small_plain (l : List ℕ) :
    EntriesPlain (l.map fun i ↦ .file [0x61, UInt8.ofNat (i + 0x30)] [0]) := by
  induction l with
  | nil => trivial
  | cons i l ih => exact ⟨plain_of_zeros (List.forall_mem_singleton.mpr rfl), ih⟩

theorem blankFiles_plain : EntriesPlain blankFiles := by
  have hzero : ∀ b ∈ [(0 : UInt8)], b = 0 := List.forall_mem_singleton.mpr rfl
  have hzeros : ∀ b ∈ [(0 : UInt8), 0], b = 0 := List.forall_mem_cons.mpr ⟨rfl, hzero⟩
  exact ⟨⟨plain_of_zeros hzeros, trivial⟩, plain_of_zeros hzero,
    plain_of_zeros fun _ hb ↦ List.eq_of_mem_replicate hb, small_plain _⟩

theorem readsBack_blankFiles : ReadsBack (List.replicate fsBlock 0) blankFiles :=
  (readsBack_iff blankFiles_readable List.length_replicate).mpr
    (filesLeadNowhere_of_plain blankFiles_plain _ _)

end AbOS
