import AbOS.Fs.Lookup

/-!
# Parent and name of a path

`get_inode` walks a whole path.  `get_parent_inode` and `get_name_path` split it at the last slash,
for the callers that want to enter the name into the parent directory.

Both are compared with one abstract reading of a path: `components` is the list of names between
the slashes, and `Fs.resolve` follows such a list from a directory, one lookup after the other.
`getInode_eq`, `getParentInode_eq` and `getNamePath_eq` say that the three functions of the source
follow all the components, all but the last one, and only give the last one
(`splitsAlike_iff`).

They differ in one point: `get_inode` gives up on a component of 60 bytes or more, and
`get_name_path` does not.  No entry of a directory has such a name, but nothing checks that the
parent is a directory: a file is searched like one, and 64 bytes of it can spell any name
(`not_splitsAlike_throughFile`).
-/

set_option autoImplicit false

namespace AbOS

/-- The loop of `strrchr` at offset `i`, with the last hit in `p`. -/
def strrchrFrom (c : UInt8) : List UInt8 → ℕ → Option ℕ → Option ℕ
  | [], _, p => p
  | b :: str, i, p => strrchrFrom c str (i + 1) (if b = c then some i else p)

/-- `strrchr`, as the offset into the string. -/
def strrchr (str : List UInt8) (c : UInt8) : Option ℕ := strrchrFrom c str 0 none

/-- The loop of `get_name_path`, with what follows the last slash so far. -/
def getNamePathFrom : List UInt8 → List UInt8 → List UInt8
  | temp2, [] => temp2
  | temp2, c :: temp => getNamePathFrom (if c = slash then temp else temp2) temp

/-- `get_name_path`. -/
def getNamePath (path : List UInt8) : List UInt8 := getNamePathFrom path path

namespace Fs

/-- `get_parent_inode`. -/
def getParentInode (fs : Fs) (path : List UInt8) : Inode :=
  match strrchr path slash with
  | none => fs.currentDirInode
  | some index =>
    let temp := path.take index
    if temp.length = 0 then fs.rootInode else fs.getInode temp

end Fs

/-! ## Splitting at the last slash -/

theorem strrchrFrom_of_not_mem {c : UInt8} {str : List UInt8} (h : c ∉ str) (i : ℕ) (p : Option ℕ) :
    strrchrFrom c str i p = p := by
  induction str generalizing i with
  | nil => rfl
  | cons b str ih =>
    rw [List.mem_cons, not_or] at h
    rw [strrchrFrom, if_neg fun hb ↦ h.1 hb.symm, ih h.2]

theorem strrchrFrom_append {c : UInt8} {name : List UInt8} (h : c ∉ name) (temp : List UInt8) (i : ℕ)
    (p : Option ℕ) : strrchrFrom c (temp ++ c :: name) i p = some (i + temp.length) := by
  induction temp generalizing i p with
  | nil => rw [List.nil_append, strrchrFrom, if_pos rfl, strrchrFrom_of_not_mem h]; rfl
  | cons b temp ih =>
    rw [List.cons_append, strrchrFrom, ih, List.length_cons]
    congr 1
    omega

theorem getNamePathFrom_of_not_mem {path temp2 : List UInt8} (h : slash ∉ path) :
    getNamePathFrom temp2 path = temp2 := by
  induction path with
  | nil => rfl
  | cons c path ih =>
    rw [List.mem_cons, not_or] at h
    rw [getNamePathFrom, if_neg fun hc ↦ h.1 hc.symm, ih h.2]

theorem getNamePathFrom_append {name : List UInt8} (h : slash ∉ name) (temp temp2 : List UInt8) :
    getNamePathFrom temp2 (temp ++ slash :: name) = name := by
  induction temp generalizing temp2 with
  | nil => rw [List.nil_append, getNamePathFrom, if_pos rfl, getNamePathFrom_of_not_mem h]
  | cons c temp ih => rw [List.cons_append, getNamePathFrom, ih]

/-- A path without a slash is a name; every other one has a last slash. -/
theorem exists_last_slash (path : List UInt8) :
    slash ∉ path ∨ ∃ temp name, slash ∉ name ∧ path = temp ++ slash :: name := by
  induction path with
  | nil => exact Or.inl List.not_mem_nil
  | cons c path ih =>
    rcases ih with h | ⟨temp, name, h, rfl⟩
    · by_cases hc : c = slash
      · exact Or.inr ⟨[], path, h, by rw [hc]; rfl⟩
      · exact Or.inl fun hmem ↦ (List.mem_cons.mp hmem).elim (fun he ↦ hc he.symm) h
    · exact Or.inr ⟨c :: temp, name, h, rfl⟩

/-! ## Components -/

/-- The names between the slashes of a path.  A leading slash only says where to start. -/
def components (path : List UInt8) : List (List UInt8) :=
  (if path.head? = some slash then path.tail else path).splitOn slash

theorem components_ne_nil (path : List UInt8) : components path ≠ [] := by
  rw [components]
  exact List.splitOn_ne_nil slash _

theorem components_of_not_mem {path : List UInt8} (h : slash ∉ path) : components path = [path] := by
  have hhead : path.head? ≠ some slash := fun hh ↦ h (List.mem_of_head? hh)
  rw [components, if_neg hhead, List.splitOn_eq_singleton h]

theorem components_slash_cons {name : List UInt8} (h : slash ∉ name) :
    components (slash :: name) = [name] := by
  rw [components, List.head?_cons, if_pos rfl, List.tail_cons, List.splitOn_eq_singleton h]

theorem components_append {temp name : List UInt8} (ht : temp ≠ []) (h : slash ∉ name) :
    components (temp ++ slash :: name) = components temp ++ [name] := by
  obtain ⟨c, temp, rfl⟩ := List.exists_cons_of_ne_nil ht
  rw [components, components, List.cons_append, List.head?_cons, List.head?_cons]
  by_cases hc : c = slash
  · rw [if_pos (congrArg some hc), if_pos (congrArg some hc), List.tail_cons, List.tail_cons,
      List.splitOn_append_cons_self, List.splitOn_eq_singleton h]
  · have hne : some c ≠ some slash := fun he ↦ hc (Option.some.inj he)
    rw [if_neg hne, if_neg hne, ← List.cons_append, List.splitOn_append_cons_self,
      List.splitOn_eq_singleton h]

/-- `get_name_path` gives the last component. -/
theorem getNamePath_eq (path : List UInt8) :
    getNamePath path = (components path).getLast (components_ne_nil path) := by
  rcases exists_last_slash path with h | ⟨temp, name, h, rfl⟩
  · simp only [components_of_not_mem h, List.getLast_singleton]
    exact getNamePathFrom_of_not_mem h
  · rw [getNamePath, getNamePathFrom_append h]
    rcases eq_or_ne temp [] with rfl | ht
    · simp only [List.nil_append, components_slash_cons h, List.getLast_singleton]
    · simp only [components_append ht h, List.getLast_concat]

/-! ## Following a path -/

/-- An inode, unless it is the zero inode of a lookup that failed. -/
def found (inode : Inode) : Option Inode := if inode.iNumber = 0 then none else some inode

namespace Fs

variable (fs : Fs)

/-- One step of `get_inode`: the file of that name in `dir`.  Names of 60 bytes or more are not even
looked up. -/
def child (dir : Inode) (name : List UInt8) : Option Inode :=
  if name.length ≤ 59 then found (getInodeInDir fs.disk fs.superblock dir name) else none

/-- Follow the names from `dir` on. -/
def resolve (dir : Inode) (names : List (List UInt8)) : Option Inode := names.foldlM fs.child dir

/-- Where a path starts. -/
def startDir (path : List UInt8) : Inode :=
  if path.head? = some slash then fs.rootInode else fs.currentDirInode

@[simp] theorem resolve_nil (dir : Inode) : fs.resolve dir [] = some dir := rfl

theorem resolve_cons (dir : Inode) (name : List UInt8) (names : List (List UInt8)) :
    fs.resolve dir (name :: names) = (fs.child dir name).bind fun d ↦ fs.resolve d names := by
  rw [resolve, List.foldlM_cons]; rfl

theorem resolve_append (dir : Inode) (names names' : List (List UInt8)) :
    fs.resolve dir (names ++ names') =
      (fs.resolve dir names).bind fun d ↦ fs.resolve d names' := by
  rw [resolve, List.foldlM_append]; rfl

theorem resolve_singleton (dir : Inode) (name : List UInt8) :
    fs.resolve dir [name] = fs.child dir name := by
  rw [resolve_cons]
  exact Option.bind_fun_some _

theorem modifyHead_nil_append (names : List (List UInt8)) : names.modifyHead ([] ++ ·) = names := by
  cases names <;> rfl

/-- What a lookup found, or the zero inode. -/
theorem found_getD (inode : Inode) :
    (found inode).getD Inode.zero = if inode.iNumber = 0 then Inode.zero else inode := by
  rw [found]
  split <;> rfl

/-- The loop of `get_inode` follows the components, the first of which it has begun to read. -/
theorem getInodeFrom_eq (dir : Inode) (str path : List UInt8) (hstr : str.length ≤ 59) :
    fs.getInodeFrom dir str path =
      (fs.resolve dir ((path.splitOn slash).modifyHead (str ++ ·))).getD Inode.zero := by
  induction path generalizing dir str with
  | nil =>
    rw [getInodeFrom, List.splitOn_nil, List.modifyHead_cons, List.append_nil, resolve_singleton,
      child, if_pos hstr, found_getD]
  | cons c path ih =>
    rw [getInodeFrom, List.splitOn_cons_eq_if_modifyHead]
    by_cases hc : c = slash
    · rw [if_pos hc, if_pos (beq_iff_eq.mpr hc), List.modifyHead_cons, List.append_nil, resolve_cons,
        child, if_pos hstr, found]
      dsimp only
      split
      · rfl
      · rw [ih _ _ (Nat.zero_le _), Option.bind_some, modifyHead_nil_append]
    · have hbeq : ¬ (c == slash) = true := by rwa [beq_iff_eq]
      rw [if_neg hc, if_neg hbeq, List.modifyHead_modifyHead]
      have hcomp : ((str ++ ·) ∘ List.cons c : List UInt8 → List UInt8) = ((str ++ [c]) ++ ·) :=
        funext fun l ↦ by simp
      rw [hcomp]
      split
      · rename_i hlt
        exact ih _ _ (by rw [List.length_append]; exact hlt)
      · -- the component that has begun is too long, whatever follows
        rename_i hlt
        obtain ⟨name, names, hsplit⟩ := List.exists_cons_of_ne_nil (List.splitOn_ne_nil slash path)
        have hlong : ¬ (str ++ [c] ++ name).length ≤ 59 := by
          simp only [List.length_append, List.length_singleton]
          omega
        rw [hsplit, List.modifyHead_cons, resolve_cons, child, if_neg hlong]
        rfl

/-- **`get_inode` follows all components of the path.** -/
theorem getInode_eq (path : List UInt8) :
    fs.getInode path = (fs.resolve (fs.startDir path) (components path)).getD Inode.zero := by
  have hfrom : ∀ dir rest, fs.getInodeFrom dir [] rest =
      (fs.resolve dir (rest.splitOn slash)).getD Inode.zero := fun dir rest ↦ by
    rw [getInodeFrom_eq fs dir [] rest (Nat.zero_le _), modifyHead_nil_append]
  cases path with
  | nil => exact hfrom ..
  | cons c rest =>
    simp only [getInode, startDir, components, List.head?_cons, Option.some.injEq, List.tail_cons]
    split
    · exact hfrom ..
    · exact hfrom ..

/-- The directory that a path puts its last component into, if there is one. -/
def parent (path : List UInt8) : Option Inode :=
  fs.resolve (fs.startDir path) (components path).dropLast

/-- **`get_parent_inode` follows all components but the last one.** -/
theorem getParentInode_eq (path : List UInt8) :
    fs.getParentInode path = (fs.parent path).getD Inode.zero := by
  rcases exists_last_slash path with h | ⟨temp, name, h, rfl⟩
  · have hhead : path.head? ≠ some slash := fun hh ↦ h (List.mem_of_head? hh)
    rw [getParentInode, strrchr, strrchrFrom_of_not_mem h, parent, components_of_not_mem h,
      startDir, if_neg hhead]
    rfl
  · rw [getParentInode, strrchr, strrchrFrom_append h, Nat.zero_add]
    dsimp only
    rw [List.take_left]
    rcases eq_or_ne temp [] with rfl | ht
    · rw [parent, List.nil_append, components_slash_cons h, startDir, List.head?_cons, if_pos rfl]
      rfl
    · have hstart : fs.startDir (temp ++ slash :: name) = fs.startDir temp := by
        obtain ⟨c, temp, rfl⟩ := List.exists_cons_of_ne_nil ht
        rfl
      rw [if_neg fun h0 ↦ ht (List.length_eq_zero_iff.mp h0), getInode_eq, parent,
        components_append ht h, List.dropLast_concat, hstart]

/-- In terms of parent and name, `get_inode` is one more step. -/
theorem getInode_eq_child (path : List UInt8) :
    fs.getInode path =
      ((fs.parent path).bind fun dir ↦ fs.child dir (getNamePath path)).getD Inode.zero := by
  have hsplit := resolve_append fs (fs.startDir path) (components path).dropLast
    [(components path).getLast (components_ne_nil path)]
  rw [List.dropLast_concat_getLast] at hsplit
  rw [getInode_eq, hsplit, parent, getNamePath_eq]
  simp only [resolve_singleton]

/-! ## Both ways mean the same file -/

/-- The directories of the disk: the cached ones, and those linked from another one. -/
inductive IsDirectory : Inode → Prop
  | root : IsDirectory fs.rootInode
  | current : IsDirectory fs.currentDirInode
  | child {dir : Inode} {e : DirEntry} (hdir : IsDirectory dir) (he : e ∈ dirEntries fs.disk dir)
      (hlinked : e.iNumber ≠ 0)
      (htype : (diskInode fs.disk fs.superblock e.iNumber).fileType = fileTypeDir) :
      IsDirectory (diskInode fs.disk fs.superblock e.iNumber)

/-- Linked inodes are where their number says, and names end within their 60 bytes. -/
structure WellLinked : Prop where
  number : ∀ dir e, fs.IsDirectory dir → e ∈ dirEntries fs.disk dir → e.iNumber ≠ 0 →
    (diskInode fs.disk fs.superblock e.iNumber).iNumber = e.iNumber
  name : ∀ dir e, fs.IsDirectory dir → e ∈ dirEntries fs.disk dir → e.iNumber ≠ 0 →
    e.name.length ≤ 59

/-- Both ways to read a path find nothing, or the same inode. -/
def SplitsAlike (path : List UInt8) : Prop :=
  let whole := fs.getInode path
  let split := getInodeInDir fs.disk fs.superblock (fs.getParentInode path) (getNamePath path)
  (whole.iNumber = 0 ∧ split.iNumber = 0) ∨ whole = split

/-- The entry that a lookup of `name` in `dir` stops at. -/
def firstEntry (dir : Inode) (name : List UInt8) : Option DirEntry :=
  (dirEntries fs.disk dir).find? fun e ↦ e.iNumber != 0 && e.name == name

/-- The last component has at most 59 bytes, or the path does not put it into a file whose data
spells it where a directory would have an entry. -/
def NameFits (path : List UInt8) : Prop :=
  let name := (components path).getLast (components_ne_nil path)
  name.length ≤ 59 ∨ ∀ f e, fs.parent path = some f → ¬ fs.IsDirectory f →
    fs.firstEntry f name = some e → (diskInode fs.disk fs.superblock e.iNumber).iNumber = 0

theorem getInodeInDir_eq (dir : Inode) (name : List UInt8) :
    getInodeInDir fs.disk fs.superblock dir name =
      ((fs.firstEntry dir name).map fun e ↦ diskInode fs.disk fs.superblock e.iNumber).getD
        Inode.zero := by
  rw [getInodeInDir, firstEntry]
  cases (dirEntries fs.disk dir).find? fun e ↦ e.iNumber != 0 && e.name == name <;> rfl

/-- Nothing is found in the zero inode, which has no block. -/
theorem getInodeInDir_zero (name : List UInt8) :
    getInodeInDir fs.disk fs.superblock Inode.zero name = Inode.zero := by
  have h : dirEntries fs.disk Inode.zero = [] := rfl
  rw [getInodeInDir_eq, firstEntry, h]
  rfl

/-- What a lookup stops at is linked and has the name. -/
theorem firstEntry_some {dir : Inode} {name : List UInt8} {e : DirEntry}
    (h : fs.firstEntry dir name = some e) :
    e ∈ dirEntries fs.disk dir ∧ e.iNumber ≠ 0 ∧ e.name = name := by
  have hp := List.find?_some h
  rw [Bool.and_eq_true, bne_iff_ne, beq_iff_eq] at hp
  exact ⟨List.mem_of_find?_eq_some h, hp⟩

variable {fs}

/-- A directory has no name of 60 bytes. -/
theorem WellLinked.firstEntry_of_long (h : fs.WellLinked) {dir : Inode} (hdir : fs.IsDirectory dir)
    {name : List UInt8} (hname : 59 < name.length) : fs.firstEntry dir name = none := by
  cases he : fs.firstEntry dir name with
  | none => rfl
  | some e =>
    obtain ⟨hmem, hlinked, rfl⟩ := fs.firstEntry_some he
    exact absurd (h.name dir e hdir hmem hlinked) (by omega)

/-- With a short name both ways agree, and with a long one if the name is not found. -/
theorem splitsAlike_iff_short (path : List UInt8) :
    fs.SplitsAlike path ↔ (getNamePath path).length ≤ 59 ∨ ∀ f, fs.parent path = some f →
      (getInodeInDir fs.disk fs.superblock f (getNamePath path)).iNumber = 0 := by
  rw [SplitsAlike, getInode_eq_child, getParentInode_eq]
  cases fs.parent path with
  | none =>
    refine iff_of_true (Or.inl ⟨rfl, ?_⟩) (Or.inr fun f hf ↦ absurd hf (by simp))
    rw [Option.getD_none, getInodeInDir_zero]
    rfl
  | some f =>
    simp only [Option.bind_some, Option.getD_some, Option.some.injEq, forall_eq', child]
    generalize getInodeInDir fs.disk fs.superblock f (getNamePath path) = j
    by_cases hshort : (getNamePath path).length ≤ 59
    · rw [if_pos hshort, found_getD]
      refine iff_of_true ?_ (Or.inl hshort)
      split
      · rename_i hj
        exact Or.inl ⟨rfl, hj⟩
      · exact Or.inr rfl
    · rw [if_neg hshort, Option.getD_none]
      constructor
      · rintro (⟨-, hj⟩ | hj)
        · exact Or.inr hj
        · exact Or.inr (hj ▸ rfl)
      · rintro (hle | hj)
        · exact absurd hle hshort
        · exact Or.inl ⟨rfl, hj⟩

/-- **Parent and name mean what the path means**, on a disk whose links are well formed, exactly if
the last component fits into an entry or is not looked up in the data of a file. -/
theorem splitsAlike_iff (h : fs.WellLinked) (path : List UInt8) :
    fs.SplitsAlike path ↔ fs.NameFits path := by
  rw [splitsAlike_iff_short, NameFits, ← getNamePath_eq]
  refine or_congr_right' fun hlong ↦ forall_congr' fun f ↦ ?_
  rw [Nat.not_le] at hlong
  rw [getInodeInDir_eq]
  constructor
  · intro hzero e hf hdir he
    have := hzero hf
    rwa [he] at this
  · intro hpiece hf
    by_cases hdir : fs.IsDirectory f
    · rw [h.firstEntry_of_long hdir hlong]
      rfl
    · cases he : fs.firstEntry f (getNamePath path) with
      | none => rfl
      | some e => exact hpiece e hf hdir he

/-! ### A name that only a file can spell -/

variable (fs)

/-- The entries of a directory are the 64-byte pieces of its blocks. -/
theorem mem_dirEntries {dir : Inode} {e : DirEntry} :
    e ∈ dirEntries fs.disk dir ↔ ∃ i, i < bytesToBlocks dir.size ∧ ∃ j, j < dirEntriesPerBlock ∧
      readDirEntry fs.disk (sectorAddress (blockSector (dir.directPointers i))) j = e := by
  simp only [dirEntries, List.mem_flatMap, List.mem_map, List.mem_range]

/-- A lookup stops at the first piece that matches, here in the first block. -/
theorem firstEntry_of_block {dir : Inode} {name : List UInt8} {a j : ℕ}
    (ha : sectorAddress (blockSector (dir.directPointers 0)) = a)
    (hsize : 0 < bytesToBlocks dir.size) (hj : j < dirEntriesPerBlock)
    (hnum : (readDirEntry fs.disk a j).iNumber ≠ 0) (hname : (readDirEntry fs.disk a j).name = name)
    (hbefore : ∀ i < j, (readDirEntry fs.disk a i).name ≠ name) :
    fs.firstEntry dir name = some (readDirEntry fs.disk a j) := by
  obtain ⟨n, hn⟩ := Nat.exists_eq_succ_of_ne_zero (Nat.ne_of_gt hsize)
  have hfind : (List.range dirEntriesPerBlock).find? ((fun e : DirEntry ↦
      e.iNumber != 0 && e.name == name) ∘ readDirEntry fs.disk a) = some j := by
    rw [List.find?_range_eq_some]
    refine ⟨?_, List.mem_range.mpr hj, fun i hi ↦ ?_⟩
    · rw [Function.comp, Bool.and_eq_true, bne_iff_ne, beq_iff_eq]
      exact ⟨hnum, hname⟩
    · rw [Function.comp, beq_false_of_ne (hbefore i hi), Bool.and_false]
      rfl
  rw [firstEntry, dirEntries, hn, List.range_succ_eq_map, List.flatMap_cons, List.find?_append, ha,
    List.find?_map, hfind]
  rfl

/-- The first piece of a file is the first one a lookup compares. -/
theorem firstEntry_zero {dir : Inode} {name : List UInt8} (hsize : 0 < bytesToBlocks dir.size)
    (hnum : fs.disk.readWord (sectorAddress (blockSector (dir.directPointers 0))) ≠ 0)
    (hname : (readDirEntry fs.disk
      (sectorAddress (blockSector (dir.directPointers 0))) 0).name = name) :
    fs.firstEntry dir name =
      some (readDirEntry fs.disk (sectorAddress (blockSector (dir.directPointers 0))) 0) :=
  fs.firstEntry_of_block rfl hsize (by decide)
    (by simpa only [readDirEntry, Nat.zero_mul, Nat.add_zero] using hnum) hname
    fun _ hi ↦ absurd hi (Nat.not_lt_zero _)

/-- A path of one name is looked up in the current directory. -/
theorem getInode_of_firstEntry {name : List UInt8} {e : DirEntry} (hslash : slash ∉ name)
    (hlen : name.length ≤ 59) (hfirst : fs.firstEntry fs.currentDirInode name = some e)
    (hne : (diskInode fs.disk fs.superblock e.iNumber).iNumber ≠ 0) :
    fs.getInode name = diskInode fs.disk fs.superblock e.iNumber := by
  have hhead : name.head? ≠ some slash := fun hh ↦ hslash (List.mem_of_head? hh)
  rw [getInode_eq, startDir, if_neg hhead, components_of_not_mem hslash, resolve_singleton, child,
    if_pos hlen, getInodeInDir_eq, hfirst, Option.map_some, Option.getD_some, found, if_neg hne,
    Option.getD_some]

/-- A name is what stands in front of the zero byte. -/
theorem cString_slice {m : ByteStore} {a n k : ℕ} (hk : k < n) (hzero : m (a + k) = 0)
    (hne : ∀ i, i < k → m (a + i) ≠ 0) : cString (m.slice a n) = m.slice a k := by
  obtain ⟨r, rfl⟩ : ∃ r, n = k + (r + 1) := ⟨n - k - 1, by omega⟩
  rw [ByteStore.slice_append, cString, ByteStore.slice_succ (m) (a + k), List.takeWhile_append_of_pos,
    hzero, List.takeWhile_cons_of_neg (by decide), List.append_nil]
  intro b hb
  obtain ⟨i, hi, rfl⟩ := List.mem_map.mp hb
  exact bne_iff_ne.mpr (hne i (List.mem_range.mp hi))

theorem readDirEntry_name {disk : ByteStore} {a j k : ℕ} (hk : j * dirEntryBytes + 4 + k < fsBlock)
    (hzero : disk (a + j * dirEntryBytes + 4 + k) = 0)
    (hne : ∀ i, i < k → disk (a + j * dirEntryBytes + 4 + i) ≠ 0) :
    (readDirEntry disk a j).name = disk.slice (a + j * dirEntryBytes + 4) k :=
  cString_slice (by omega) hzero hne

/-- The root directory, in block 5, holds the file `f`; inode 2 says that its data is block 6, and
that block begins like an entry for inode 2 with a name of 60 letters. -/
def throughFileDisk : ByteStore := fun x ↦
  if x = 16512 then 2 else if x = 16517 then 64 else if x = 16545 then 6
  else if x = 20480 then 2 else if x = 20484 then 0x66
  else if x = 24576 then 2 else if 24580 ≤ x ∧ x < 24640 then 0x61 else 0

/-- A root directory of one entry. -/
def throughFileRoot : Inode :=
  { Inode.zero with iNumber := 1, fileType := fileTypeDir, size := 64, directPointers := fun _ ↦ 5 }

def throughFile : Fs where
  disk := throughFileDisk
  superblock := ⟨0, 0, 0, 0, 0, 0, 0, 0, 0, 0, 4, 5, 0, 0, 0, 0, 0, 0, 0⟩
  rootInode := throughFileRoot
  currentDirInode := throughFileRoot

/-- `f/aaa…`, with sixty letters. -/
def throughFilePath : List UInt8 := [0x66] ++ slash :: List.replicate 60 0x61

theorem throughFileRoot_block (i : ℕ) :
    sectorAddress (blockSector (throughFileRoot.directPointers i)) = 20480 := by
  have h : sectorAddress (blockSector 5) = 20480 := by decide
  exact h

theorem throughFile_root_entry {e : DirEntry}
    (he : e ∈ dirEntries throughFile.disk throughFileRoot) (hlinked : e.iNumber ≠ 0) :
    e = readDirEntry throughFileDisk 20480 0 := by
  obtain ⟨i, -, j, hj, rfl⟩ := throughFile.mem_dirEntries.mp he
  rw [throughFileRoot_block] at hlinked ⊢
  rcases Nat.eq_zero_or_pos j with rfl | hpos
  · rfl
  · -- the rest of the block is empty
    have hj' : j < 64 := hj
    have hout : ∀ x, 20484 < x → x < 24576 → throughFileDisk x = 0 := fun x h₁ h₂ ↦ by
      simp only [throughFileDisk]
      split_ifs <;> first | omega | rfl
    refine absurd ?_ hlinked
    show throughFileDisk.readWord (20480 + j * 64) = 0
    exact ByteStore.readWord_of_zero fun k hk ↦ hout _ (by omega) (by omega)

theorem throughFile_f_name : (readDirEntry throughFileDisk 20480 0).name = [0x66] := by
  rw [readDirEntry_name (k := 1) (by decide) (by decide) (by decide)]
  decide

theorem throughFile_isDirectory {dir : Inode} (h : throughFile.IsDirectory dir) :
    dir = throughFileRoot := by
  induction h with
  | root => rfl
  | current => rfl
  | child hdir he hlinked htype ih =>
    rw [ih] at he
    rw [throughFile_root_entry he hlinked] at htype
    exact absurd htype (by decide)

theorem throughFile_wellLinked : throughFile.WellLinked := by
  refine ⟨fun dir e hdir he hlinked ↦ ?_, fun dir e hdir he hlinked ↦ ?_⟩ <;>
    rw [throughFile_isDirectory hdir] at he <;>
    rw [throughFile_root_entry he hlinked]
  · decide
  · rw [throughFile_f_name]
    decide

/-- On this disk the path names nothing, but its parent and its name together name the file. -/
theorem not_splitsAlike_throughFile :
    throughFile.WellLinked ∧ ¬ throughFile.SplitsAlike throughFilePath := by
  refine ⟨throughFile_wellLinked, fun hsplit ↦ ?_⟩
  have hletters : slash ∉ List.replicate 60 (0x61 : UInt8) := by decide
  have hname : getNamePath throughFilePath = List.replicate 60 0x61 :=
    getNamePathFrom_append hletters [0x66] _
  have hparent : throughFile.parent throughFilePath =
      some (diskInode throughFileDisk throughFile.superblock 2) := by
    have hfirst : throughFile.firstEntry throughFileRoot [0x66] =
        some (readDirEntry throughFileDisk 20480 0) := by
      rw [← throughFileRoot_block 0]
      refine throughFile.firstEntry_zero (by decide) (by decide) ?_
      rw [throughFileRoot_block]
      exact throughFile_f_name
    have hnum : (readDirEntry throughFileDisk 20480 0).iNumber = 2 := by decide
    rw [parent, throughFilePath, components_append (by decide) hletters, List.dropLast_concat,
      components_of_not_mem (by decide), resolve_singleton, child, if_pos (by decide),
      getInodeInDir_eq]
    show found (((throughFile.firstEntry throughFileRoot [0x66]).map _).getD _) = _
    rw [hfirst, Option.map_some, Option.getD_some, hnum]
    exact if_neg (by decide)
  rw [splitsAlike_iff_short, hname] at hsplit
  rcases hsplit with hshort | hnone
  · exact absurd hshort (by decide)
  · refine absurd (hnone _ hparent) ?_
    rw [getInodeInDir_eq, firstEntry_zero _ (by decide) (by decide) ?_]
    · decide
    · exact (readDirEntry_name (k := 60) (by decide) (by decide) (by decide)).trans (by decide)

/-- The path of the file itself is read alike. -/
theorem splitsAlike_throughFile : throughFile.SplitsAlike [0x66] :=
  (splitsAlike_iff throughFile_wellLinked [0x66]).mpr (Or.inl (by decide))

end Fs

end AbOS
