import AbOS.Fs.CreateResolve
import AbOS.Fs.Placement

/-!
# Listing and lookup

`print_dir` has code of its own for what the lookup does: it cuts the path at the last slash, goes
over the blocks of the directory, and computes the place of each inode.  It cuts with
`temp[index] = '\0'`, and when the path has no slash, `index` is the negated address of the string:
the zero goes to address 0, and the path is looked up as a whole.

With a slash in the path the two agree on a well-formed disk (`listing_iff`).  The size of a
directory counts its links there, so the loop does not stop too early; only a path that goes on from
a file, which is searched like a directory, can lead to something of which this is not known.
-/

set_option autoImplicit false

namespace AbOS

/-- `strrchr(path, '/') - path`, for a path at the address `base`. -/
def printIndex (base : ℕ) (path : List UInt8) : ℕ :=
  (((strrchr path slash).map (base + ·)).getD 0 + 2 ^ 32 - base) % 2 ^ 32

/-- Where `print_dir` stores the zero. -/
def cutAddress (base : ℕ) (path : List UInt8) : ℕ := (base + printIndex base path) % 2 ^ 32

/-- The path after that: a zero in the string ends it. -/
def cutPath (base : ℕ) (path : List UInt8) : List UInt8 :=
  if base ≤ cutAddress base path ∧ cutAddress base path < base + path.length then
    path.take (cutAddress base path - base)
  else path

namespace Fs

/-- What is expected of `print_dir` for a path at the address `base`. -/
structure ListsLikeLookup (fs : Fs) (base : ℕ) (path : List UInt8) : Prop where
  dir : fs.printedDir path = fs.getParentInode path
  /-- It stores into the string. -/
  inside : base ≤ cutAddress base path ∧ cutAddress base path ≤ base + path.length
  refuses : (fs.getParentInode path).fileType ≠ fileTypeDir → fs.printDir path = none
  /-- Every entry in use is printed, in the order on the disk. -/
  entries : (fs.getParentInode path).fileType = fileTypeDir →
    ∃ lines, fs.printDir path = some lines ∧
      lines.map Prod.fst = (fs.links (fs.getParentInode path)).map DirEntry.name
  /-- What is printed is what a lookup finds. -/
  names : ∀ lines, fs.printDir path = some lines → ∀ name, name ∈ lines.map Prod.fst ↔
    (getInodeInDir fs.disk fs.superblock (fs.getParentInode path) name).iNumber ≠ 0

/-- A directory of the disk, or the cached copy of one. -/
def DiskDirectory (fs : Fs) (dirs : ℕ → Prop) (dir : Inode) : Prop := dirs dir.iNumber ∧ fs.Copy dir

/-- The size has room for the links, and each of their names leads to an inode. -/
structure Counted (fs : Fs) (dir : Inode) : Prop where
  size : dirEntryBytes * (fs.links dir).length ≤ dir.size
  leads : ∀ e ∈ fs.links dir, (getInodeInDir fs.disk fs.superblock dir e.name).iNumber ≠ 0

variable {fs : Fs} {dirs : ℕ → Prop} {blocks base : ℕ} {path : List UInt8}

/-- The loop does not stop too early. -/
theorem Counted.take_links {dir : Inode} (h : fs.Counted dir) :
    (fs.links dir).take (dir.size / dirEntryBytes) = fs.links dir := by
  refine List.take_of_length_le ((Nat.le_div_iff_mul_le (by decide)).mpr ?_)
  rw [Nat.mul_comm]
  exact h.size

/-! ## The path -/

theorem cutAddress_of_not_mem (h : slash ∉ path) (hbase : base < 2 ^ 32) :
    cutAddress base path = 0 := by
  rw [cutAddress, printIndex, strrchr, strrchrFrom_of_not_mem h, Option.map_none, Option.getD_none]
  omega

theorem strrchr_append {temp name : List UInt8} (h : slash ∉ name) :
    strrchr (temp ++ slash :: name) slash = some temp.length := by
  rw [strrchr, strrchrFrom_append h, Nat.zero_add]

theorem printIndex_append {temp name : List UInt8} (h : slash ∉ name)
    (hfits : base + (temp ++ slash :: name).length < 2 ^ 32) :
    printIndex base (temp ++ slash :: name) = temp.length := by
  rw [List.length_append] at hfits
  rw [printIndex, strrchr_append h, Option.map_some, Option.getD_some]
  omega

theorem cutAddress_append {temp name : List UInt8} (h : slash ∉ name)
    (hfits : base + (temp ++ slash :: name).length < 2 ^ 32) :
    cutAddress base (temp ++ slash :: name) = base + temp.length := by
  rw [cutAddress, printIndex_append h hfits]
  rw [List.length_append] at hfits
  omega

/-- The directory that is listed, as the code finds it. -/
theorem printedDir_eq (fs : Fs) (hbase : 0 < base) (hfits : base + path.length < 2 ^ 32) :
    fs.printedDir path = if printIndex base path = 0 then fs.rootInode
      else fs.getInode (cutPath base path) := by
  rcases exists_last_slash path with h | ⟨temp, name, h, rfl⟩
  · have hindex : printIndex base path ≠ 0 := by
      rw [printIndex, strrchr, strrchrFrom_of_not_mem h, Option.map_none, Option.getD_none]
      omega
    rw [if_neg hindex, printedDir, strrchr, strrchrFrom_of_not_mem h, cutPath,
      cutAddress_of_not_mem h (by omega), if_neg (by omega)]
  · have hin : base ≤ base + temp.length ∧
        base + temp.length < base + (temp ++ slash :: name).length := by
      rw [List.length_append, List.length_cons]
      omega
    rw [printIndex_append h hfits, printedDir, strrchr_append h, cutPath, cutAddress_append h hfits,
      if_pos hin, Nat.add_sub_cancel_left]
    rcases Nat.eq_zero_or_pos temp.length with hzero | hpos
    · rw [hzero, if_pos rfl]
      rfl
    · rw [if_neg (by omega)]
      obtain ⟨k, hk⟩ := Nat.exists_eq_succ_of_ne_zero (Nat.ne_of_gt hpos)
      rw [hk]
      rfl

/-- With a slash in the path, it is the directory that `get_parent_inode` finds. -/
theorem printedDir_of_slash (fs : Fs) (h : slash ∈ path) :
    fs.printedDir path = fs.getParentInode path := by
  rcases exists_last_slash path with hno | ⟨temp, name, hname, rfl⟩
  · exact absurd h hno
  · rw [printedDir, getParentInode, strrchr_append hname]
    dsimp only
    rw [List.take_left]
    cases temp with
    | nil => rfl
    | cons c temp =>
      rw [List.length_cons, if_neg (Nat.succ_ne_zero _)]
      show fs.getInode (((c :: temp) ++ slash :: name).take (c :: temp).length) = _
      rw [List.take_left]

/-! ## The lines -/

/-- The names in the lines: those of the links, as many as the size of the directory says. -/
theorem printDir_eq (fs : Fs) (h : slash ∈ path)
    (htype : (fs.getParentInode path).fileType = fileTypeDir) :
    fs.printDir path = some (((fs.links (fs.getParentInode path)).take
      ((fs.getParentInode path).size / dirEntryBytes)).map fun e ↦
        (e.name, (readInode fs.disk (printAddress fs.superblock e.iNumber)).fileType ==
          fileTypeFile)) := by
  have hfilter : ((dirEntries fs.disk (fs.getParentInode path)).filter fun e ↦ e.iNumber ≠ 0) =
      fs.links (fs.getParentInode path) := by
    rw [links]
    refine List.filter_congr fun e _ ↦ ?_
    rw [Bool.eq_iff_iff, decide_eq_true_iff, bne_iff_ne]
  rw [printDir, printedDir_of_slash fs h, if_neg (not_not_intro htype), printEntries_eq,
    Nat.sub_zero, hfilter]

/-- A lookup that finds an inode has found a link. -/
theorem mem_of_getInodeInDir {dir : Inode} {name : List UInt8}
    (h : (getInodeInDir fs.disk fs.superblock dir name).iNumber ≠ 0) :
    name ∈ (fs.links dir).map DirEntry.name := by
  rw [getInodeInDir_eq, firstEntry_eq_find?] at h
  cases hfind : (fs.links dir).find? fun e ↦ e.name == name with
  | none =>
    rw [hfind] at h
    exact absurd rfl h
  | some e =>
    have hname := List.find?_some hfind
    exact List.mem_map.mpr ⟨e, List.mem_of_find?_eq_some hfind, beq_iff_eq.mp hname⟩

/-- The size of a directory of the disk counts its links, and they lead to inodes. -/
theorem WellFormed.counted (h : fs.WellFormed dirs blocks) {dir : Inode}
    (hdir : fs.DiskDirectory dirs dir) : fs.Counted dir := by
  have hlinks := h.links_copy hdir.1 hdir.2
  refine ⟨?_, fun e he ↦ ?_⟩
  · rw [hdir.2.fields.2.1, hlinks, (h.size _ hdir.1).1]
  · rw [getInodeInDir_eq, firstEntry_eq_find?]
    cases hfind : (fs.links dir).find? fun e' ↦ e'.name == e.name with
    | none =>
      exact absurd (beq_iff_eq.mpr rfl) (List.find?_eq_none.mp hfind e he)
    | some e' =>
      have hmem := List.mem_of_find?_eq_some hfind
      have hnum := (h.link _ e' hdir.1 (hlinks ▸ hmem)).2.1
      show (fs.node e'.iNumber).iNumber ≠ 0
      rw [hnum]
      exact ((mem_links fs).mp hmem).2

/-- Listing and lookup agree where the links are counted. -/
theorem listsLikeLookup_of_counted (hslash : slash ∈ path) (hfits : base + path.length < 2 ^ 32)
    (hcounted : (fs.getParentInode path).fileType = fileTypeDir →
      fs.Counted (fs.getParentInode path)) : fs.ListsLikeLookup base path := by
  have hrefuses (htype : (fs.getParentInode path).fileType ≠ fileTypeDir) :
      fs.printDir path = none := by
    rw [printDir, printedDir_of_slash fs hslash]
    exact if_pos htype
  refine ⟨printedDir_of_slash fs hslash, ?_, hrefuses, fun htype ↦ ?_, fun lines hlines name ↦ ?_⟩
  · rcases exists_last_slash path with hno | ⟨temp, name, hname, rfl⟩
    · exact absurd hslash hno
    · rw [cutAddress_append hname hfits, List.length_append]
      omega
  · refine ⟨_, printDir_eq fs hslash htype, ?_⟩
    rw [(hcounted htype).take_links, List.map_map]
    rfl
  · by_cases htype : (fs.getParentInode path).fileType = fileTypeDir
    · rw [printDir_eq fs hslash htype, (hcounted htype).take_links, Option.some.injEq] at hlines
      rw [← hlines, List.map_map]
      constructor
      · intro hname
        obtain ⟨e, he, rfl⟩ := List.mem_map.mp hname
        exact (hcounted htype).leads e he
      · exact mem_of_getInodeInDir
    · rw [hrefuses htype] at hlines
      exact absurd hlines (by simp)

/-- What agrees has counted its links. -/
theorem ListsLikeLookup.counted (h : fs.ListsLikeLookup base path) (hslash : slash ∈ path)
    (htype : (fs.getParentInode path).fileType = fileTypeDir) :
    fs.Counted (fs.getParentInode path) := by
  obtain ⟨lines, hlines, hnames⟩ := h.entries htype
  refine ⟨?_, fun e he ↦ ?_⟩
  · rw [printDir_eq fs hslash htype, Option.some.injEq] at hlines
    have hlength := congrArg List.length hnames
    rw [← hlines, List.length_map, List.length_map, List.length_map, List.length_take] at hlength
    have hle : (fs.links (fs.getParentInode path)).length ≤
        (fs.getParentInode path).size / dirEntryBytes := by omega
    rw [Nat.mul_comm]
    exact (Nat.le_div_iff_mul_le (by decide)).mp hle
  · refine (h.names lines hlines e.name).mp ?_
    rw [hnames]
    exact List.mem_map_of_mem he

/-- **Listing agrees with lookup** exactly if the path has a slash; should the path lead to
something that calls itself a directory and is none of the disk, then its links have to be counted,
too. -/
theorem listing_iff (h : fs.WellFormed dirs blocks) (hbase : 0 < base)
    (hfits : base + path.length < 2 ^ 32) :
    fs.ListsLikeLookup base path ↔ slash ∈ path ∧
      ∀ dir, fs.parent path = some dir → dir.fileType = fileTypeDir → ¬ fs.DiskDirectory dirs dir →
        fs.Counted dir := by
  have hparent := getParentInode_eq fs path
  constructor
  · intro hlists
    have hslash : slash ∈ path := by
      by_contra hno
      have hinside := hlists.inside.1
      rw [cutAddress_of_not_mem hno (by omega)] at hinside
      omega
    refine ⟨hslash, fun dir hdir htype _ ↦ ?_⟩
    rw [hdir, Option.getD_some] at hparent
    exact hparent ▸ hlists.counted hslash (by rw [hparent]; exact htype)
  · rintro ⟨hslash, hstray⟩
    refine listsLikeLookup_of_counted hslash hfits fun htype ↦ ?_
    cases hdir : fs.parent path with
    | none =>
      -- the zero inode is that of a file
      rw [hparent, hdir, Option.getD_none] at htype
      exact absurd htype (by decide)
    | some dir =>
      rw [hdir, Option.getD_some] at hparent
      rw [hparent] at htype ⊢
      by_cases hon : fs.DiskDirectory dirs dir
      · exact h.counted hon
      · exact hstray dir hdir htype hon

/-- The root of a small disk. -/
theorem listing_root : (selfLinks 1).ListsLikeLookup 4096 [slash] := by
  have hwf := selfLinks_wellFormed (n := 1) (by decide) (by decide)
  have hparent : (selfLinks 1).parent [slash] = some (selfLinks 1).rootInode := by
    rw [parent, components_slash_cons List.not_mem_nil]
    rfl
  refine (listing_iff hwf (by decide) (by decide)).mpr
    ⟨List.mem_singleton_self slash, fun dir hdir _ hno ↦ ?_⟩
  rw [hparent, Option.some.injEq] at hdir
  exact absurd (hdir ▸ hwf.rootInode) hno

/-- A name without a slash: the zero goes to address 0. -/
theorem not_listing_name : (selfLinks 1).WellFormed (· = 1) 16 ∧ cutAddress 4096 [0x61] = 0 ∧
    ¬ (selfLinks 1).ListsLikeLookup 4096 [0x61] := by
  have hcut : cutAddress 4096 [0x61] = 0 := by decide
  refine ⟨selfLinks_wellFormed (by decide) (by decide), hcut, fun h ↦ ?_⟩
  have hinside := h.inside.1
  rw [hcut] at hinside
  exact absurd hinside (by decide)

/-- **A path through directories**: every link has its line, which says of what type the inode is
that a lookup finds. -/
theorem WellFormed.printDir_of_leads (h : fs.WellFormed dirs blocks) (hslash : slash ∈ path)
    {dir : Inode} (hleads : fs.Leads (fs.startDir path) (components path).dropLast dir)
    (htype : dir.fileType = fileTypeDir) :
    fs.printDir path = some ((fs.links dir).map fun e ↦
      (e.name, (fs.node e.iNumber).fileType == fileTypeFile)) := by
  have hparent : fs.getParentInode path = dir := by
    rw [getParentInode_eq, parent, hleads.resolve, Option.getD_some]
  have hknown := h.known_of_leads (h.known_startDir path).1 hleads
  have hdirs := hknown.dir htype
  have hcounted := h.counted ⟨hdirs, hknown.copy⟩
  rw [printDir_eq fs hslash (hparent ▸ htype), hparent, hcounted.take_links, Option.some.injEq]
  refine List.map_congr_left fun e he ↦ ?_
  rw [h.links_copy hdirs hknown.copy] at he
  rw [printAddress_eq, node, diskInode_of_layout h.layout _ (h.link _ e hdirs he).1]

end Fs

end AbOS
