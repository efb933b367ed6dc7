import AbOS.Format.Blocks
import Mathlib.Data.List.Count
import Mathlib.Data.List.Perm.Subperm

/-!
# Which inode numbers the formatter hands out

`write_file_data` numbers the entries in the order of its walk.  A name that begins with
`prekernel.bin` means inode 2 and the name `kernel.bin` means inode 3, in every directory; all
others get the next number, from 4 on.  `numbering` does this along a list of paths, and
`formatTree_numbers` says that the walk does it along the paths of the tree.

The numbers are different ones exactly if no second entry of the tree has such a name
(`uniqueNumbers_iff`).
-/

set_option autoImplicit false

namespace AbOS

/-- A path of the host, below the directory that is formatted. -/
abbrev HostPath := List (List UInt8)

/-- The name at the end of a path. -/
def lastName (path : HostPath) : List UInt8 := path.getLast?.getD []

/-- The name begins with `prekernel.bin`. -/
def isPrekernel (name : List UInt8) : Bool := prekernelBin.isPrefixOf name

/-- The inode number for a name, when `c` is the next free one. -/
def numberFor (c : ℕ) (name : List UInt8) : ℕ :=
  if isPrekernel name then 2 else if name = kernelBin then 3 else c

/-- The next free number after that. -/
def nextNumber (c : ℕ) (name : List UInt8) : ℕ :=
  if isPrekernel name then c else if name = kernelBin then c else (c + 1) % 2 ^ 32

/-- The paths with their numbers. -/
def numbering : ℕ → List HostPath → List (HostPath × ℕ)
  | _, [] => []
  | c, path :: paths =>
    (path, numberFor c (lastName path)) :: numbering (nextNumber c (lastName path)) paths

/-- The next free number behind the paths. -/
def numberAfter (c : ℕ) (paths : List HostPath) : ℕ :=
  paths.foldl (fun c path ↦ nextNumber c (lastName path)) c

/-- The paths of the entries of a directory and of everything below them, in the order of the
walk. -/
def entryPaths (path : HostPath) (entries : List Host) : List HostPath :=
  (entriesItems path entries).map Item.path

/-- What lies below an entry. -/
def Host.innerPaths (path : HostPath) : Host → List HostPath
  | .file _ _ => []
  | .dir name entries => entryPaths (path ++ [name]) entries

/-- Everything that the tree contains, without the root. -/
def treeNames (entries : List Host) : List (List UInt8) := (entryPaths [] entries).map lastName

/-- Path and inode number. -/
def Placed.numbered (p : Placed) : HostPath × ℕ := (p.path, p.iNumber)

/-- Everything in the tree has a number of its own below the number of inodes, which is not 0, and
the root, its `prekernel.bin` and its `kernel.bin` have 1, 2 and 3. -/
structure UniqueNumbers (entries : List Host) : Prop where
  all : (formatTree entries).placed.map Placed.path = [] :: entryPaths [] entries
  distinct : ((formatTree entries).placed.map Placed.iNumber).Nodup
  nonzero : ∀ p ∈ (formatTree entries).placed, p.iNumber ≠ 0
  root : ∀ p ∈ (formatTree entries).placed, p.path = [] → p.iNumber = 1
  prekernel : ∀ p ∈ (formatTree entries).placed, p.path = [prekernelBin] → p.iNumber = 2
  kernel : ∀ p ∈ (formatTree entries).placed, p.path = [kernelBin] → p.iNumber = 3
  inRange : ∀ p ∈ (formatTree entries).placed,
    p.iNumber < (writeSuperblock (getFileInfo entries)).numInodes

/-! ## The walk -/

theorem numbering_append (c : ℕ) (paths paths' : List HostPath) :
    numbering c (paths ++ paths') =
      numbering c paths ++ numbering (numberAfter c paths) paths' := by
  induction paths generalizing c with
  | nil => rfl
  | cons path paths ih =>
    rw [List.cons_append, numbering, ih, numbering, List.cons_append]
    rfl

theorem numberAfter_append (c : ℕ) (paths paths' : List HostPath) :
    numberAfter c (paths ++ paths') = numberAfter (numberAfter c paths) paths' := List.foldl_append

theorem entryPaths_cons (path : HostPath) (h : Host) (hs : List Host) :
    entryPaths path (h :: hs) =
      (path ++ [h.name]) :: (h.innerPaths path ++ entryPaths path hs) := by
  rw [entryPaths, entriesItems, List.map_append]
  cases h with
  | file name contents => rw [Host.items]; rfl
  | dir name entries => rw [Host.items]; rfl

theorem lastName_concat (path : HostPath) (name : List UInt8) :
    lastName (path ++ [name]) = name := by
  rw [lastName, List.getLast?_concat, Option.getD_some]

/-- The formatter has placed `front` and then the paths, with the next numbers. -/
structure Formatter.Numbers (st : Formatter) (front : List (HostPath × ℕ)) (paths : List HostPath)
    (st' : Formatter) : Prop where
  placed : st'.placed.map Placed.numbered =
    st.placed.map Placed.numbered ++ (front ++ numbering st.nextInodeId paths)
  next : st'.nextInodeId = numberAfter st.nextInodeId paths

namespace Formatter

variable {st st' st'' : Formatter} {front : List (HostPath × ℕ)} {paths paths' : List HostPath}

theorem Numbers.append (h : st.Numbers front paths st') (h' : st'.Numbers [] paths' st'') :
    st.Numbers front (paths ++ paths') st'' := by
  refine ⟨?_, ?_⟩
  · rw [h'.placed, h.placed, h.next, numbering_append, List.nil_append, List.append_assoc,
      List.append_assoc]
  · rw [h'.next, h.next, numberAfter_append]

theorem number_spec (st : Formatter) (name : List UInt8) :
    (st.number name).1 = numberFor st.nextInodeId name ∧
      (st.number name).2.nextInodeId = nextNumber st.nextInodeId name ∧
      (st.number name).2.placed = st.placed := by
  rw [number, numberFor, nextNumber, isPrekernel]
  split_ifs <;> exact ⟨rfl, rfl, rfl⟩

/-- A regular file. -/
theorem numbers_writeFile (st : Formatter) (path : HostPath) (name : List UInt8) (iNumber : ℕ)
    (contents : List UInt8) :
    st.Numbers [(path, iNumber)] [] (st.writeFile path name iNumber contents) := by
  rw [writeFile, takeFileBlocks_eq st path]
  refine ⟨?_, rfl⟩
  show List.map Placed.numbered (st.placed ++ [_]) = _
  rw [List.map_append]
  rfl

/-- The beginning of a directory. -/
theorem numbers_openDir (st : Formatter) (path : HostPath) (iNumber parent n : ℕ) :
    st.Numbers [(path, iNumber)] [] (st.openDir path iNumber parent n).2 := by
  refine ⟨?_, rfl⟩
  show List.map Placed.numbered (st.placed ++ [_]) = _
  rw [List.map_append]
  rfl

end Formatter

mutual

/-- **One entry** keeps the number it has been given, and what lies below it gets the next ones. -/
theorem Host.numbers_write (path : HostPath) (parent iNumber : ℕ) :
    ∀ (h : Host) (st : Formatter),
      st.Numbers [(path ++ [h.name], iNumber)] (h.innerPaths path) (h.write path parent iNumber st)
  | .file name contents, st => by
    rw [Host.innerPaths, Host.write]
    exact st.numbers_writeFile ..
  | .dir name entries, st => by
    rw [Host.innerPaths, Host.write]
    have hopen := st.numbers_openDir (path ++ [name]) iNumber parent entries.length
    have hloop := numbers_writeEntries (path ++ [name]) iNumber
      (st.openDir (path ++ [name]) iNumber parent entries.length).1
      (strcpyName (List.replicate 60 0) [0x2E, 0x2E]) 2 entries
      (st.openDir (path ++ [name]) iNumber parent entries.length).2
    exact ⟨(hopen.append hloop).placed, (hopen.append hloop).next⟩

/-- A list of entries is numbered in order. -/
theorem numbers_writeEntries (path : HostPath) (dir start : ℕ) :
    ∀ (buffer : List UInt8) (i : ℕ) (entries : List Host) (st : Formatter),
      st.Numbers [] (entryPaths path entries) (writeEntries path dir start buffer i entries st)
  | buffer, i, [], st => by
    rw [writeEntries]
    exact ⟨(List.append_nil _).symm, rfl⟩
  | buffer, i, h :: hs, st => by
    rw [entryPaths_cons, writeEntries]
    obtain ⟨hnumber, hnext, hplaced⟩ := st.number_spec h.name
    have hhead := Host.numbers_write path dir (st.number h.name).1 h
      ((st.number h.name).2.write (start + i * dirEntryBytes)
        (ByteStore.leBytes 4 (st.number h.name).1 ++ strcpyName buffer h.name))
    have hrest := numbers_writeEntries path dir start (strcpyName buffer h.name) (i + 1) hs
      (h.write path dir (st.number h.name).1 ((st.number h.name).2.write (start + i * dirEntryBytes)
        (ByteStore.leBytes 4 (st.number h.name).1 ++ strcpyName buffer h.name)))
    have hboth := hhead.append hrest
    refine ⟨?_, ?_⟩
    · rw [numbering, lastName_concat, List.nil_append, ← hnumber, ← hnext, ← hplaced]
      exact hboth.placed
    · rw [numberAfter, List.foldl_cons, lastName_concat, ← hnext]
      exact hboth.next

end

/-- **The numbers of the tree.** -/
theorem formatTree_numbers (entries : List Host) :
    (formatTree entries).placed.map Placed.numbered =
      ([], 1) :: numbering 4 (entryPaths [] entries) := by
  rw [formatTree]
  generalize hst : (Formatter.mk (writeSuperblock (getFileInfo entries))
    (writeSuperblock (getFileInfo entries)).firstDataBlock 4 [] []) = st
  have hopen := st.numbers_openDir [] 1 1 entries.length
  have hloop := numbers_writeEntries [] 1 (st.openDir [] 1 1 entries.length).1
    (strcpyName (List.replicate 60 0) [0x2E, 0x2E]) 2 entries (st.openDir [] 1 1 entries.length).2
  have hplaced := (hopen.append hloop).placed
  have hempty : st.placed = [] ∧ st.nextInodeId = 4 := by
    rw [← hst]
    exact ⟨rfl, rfl⟩
  rw [hempty.1, hempty.2] at hplaced
  exact hplaced

/-! ## Counting -/

mutual

/-- `num_files` grows by the items of the entry. -/
theorem Host.numFiles_getFileInfo (path : HostPath) :
    ∀ (h : Host) (info : FileInfo),
      (h.getFileInfo info).numFiles % 2 ^ 32 = (info.numFiles + (h.items path).length) % 2 ^ 32
  | .file name contents, info => by
    rw [Host.getFileInfo, Host.items]
    exact Nat.mod_mod _ _
  | .dir name entries, info => by
    rw [Host.getFileInfo, Host.items, List.length_cons]
    have hloop := numFiles_getFileInfoEntries (path ++ [name]) entries info.addFile
    have hadd : info.addFile.numFiles = (info.numFiles + 1) % 2 ^ 32 := rfl
    show (getFileInfoEntries entries info.addFile).numFiles % 2 ^ 32 = _
    rw [hloop, hadd, Nat.mod_add_mod, Nat.add_assoc, Nat.add_comm 1]

/-- The same for a list of entries. -/
theorem numFiles_getFileInfoEntries (path : HostPath) :
    ∀ (entries : List Host) (info : FileInfo),
      (getFileInfoEntries entries info).numFiles % 2 ^ 32 =
        (info.numFiles + (entriesItems path entries).length) % 2 ^ 32
  | [], info => by
    rw [getFileInfoEntries, entriesItems]
    rfl
  | h :: hs, info => by
    rw [getFileInfoEntries, entriesItems, List.length_append,
      numFiles_getFileInfoEntries path hs, ← Nat.mod_add_mod,
      Host.numFiles_getFileInfo path h info, Nat.mod_add_mod, Nat.add_assoc]

end

/-- The number of inodes, from the counting pass. -/
theorem numInodes_eq (entries : List Host) :
    (writeSuperblock (getFileInfo entries)).numInodes =
      ((treeNames entries).length + 2) % 2 ^ 32 := by
  have hloop := numFiles_getFileInfoEntries [] entries ⟨0, 0⟩
  show ((getFileInfoEntries entries ⟨0, 0⟩).numFiles + 2) % 2 ^ 32 = _
  rw [← Nat.mod_add_mod, hloop, Nat.mod_add_mod, Nat.zero_add, treeNames, entryPaths,
    List.length_map, List.length_map]

/-! ## Which numbers there are -/

section numbering

variable {c : ℕ} {paths : List HostPath} {r : HostPath × ℕ}

theorem map_fst_numbering (c : ℕ) (paths : List HostPath) :
    (numbering c paths).map Prod.fst = paths := by
  induction paths generalizing c with
  | nil => rfl
  | cons path paths ih => rw [numbering, List.map_cons, ih]

/-- Every path has got its number from its name. -/
theorem exists_numberFor (hr : r ∈ numbering c paths) :
    ∃ c', r.2 = numberFor c' (lastName r.1) := by
  induction paths generalizing c with
  | nil => exact absurd hr List.not_mem_nil
  | cons path paths ih =>
    rw [numbering] at hr
    rcases List.mem_cons.mp hr with rfl | hr
    · exact ⟨c, rfl⟩
    · exact ih hr

/-- If all names of a kind get the number `k`, then it occurs at least as often as they do. -/
theorem countP_le_count {p : List UInt8 → Bool} {k : ℕ}
    (h : ∀ c name, p name = true → numberFor c name = k) (c : ℕ) (paths : List HostPath) :
    (paths.map lastName).countP p ≤ ((numbering c paths).map Prod.snd).count k := by
  induction paths generalizing c with
  | nil => exact Nat.le_refl 0
  | cons path paths ih =>
    rw [numbering, List.map_cons, List.map_cons, List.countP_cons, List.count_cons]
    refine Nat.add_le_add (ih _) ?_
    split
    · rename_i hp
      rw [if_pos (beq_iff_eq.mpr (h c _ hp))]
    · exact Nat.zero_le _

/-- A name that is neither. -/
def isOther (name : List UInt8) : Bool := !isPrekernel name && name != kernelBin

theorem not_isPrekernel_kernelBin : isPrekernel kernelBin = false := by decide

/-- The three kinds of names, and what becomes of each. -/
theorem name_cases (c : ℕ) (name : List UInt8) :
    (isPrekernel name = true ∧ name ≠ kernelBin ∧ isOther name = false ∧
        numberFor c name = 2 ∧ nextNumber c name = c) ∨
      (isPrekernel name = false ∧ name = kernelBin ∧ isOther name = false ∧
        numberFor c name = 3 ∧ nextNumber c name = c) ∨
      (isPrekernel name = false ∧ name ≠ kernelBin ∧ isOther name = true ∧
        numberFor c name = c ∧ nextNumber c name = (c + 1) % 2 ^ 32) := by
  rw [isOther, numberFor, nextNumber]
  cases hp : isPrekernel name with
  | true =>
    have hk : name ≠ kernelBin := fun h ↦ by
      rw [h, not_isPrekernel_kernelBin] at hp
      exact Bool.noConfusion hp
    exact Or.inl ⟨rfl, hk, rfl, if_pos rfl, if_pos rfl⟩
  | false =>
    rw [if_neg Bool.false_ne_true, if_neg Bool.false_ne_true]
    by_cases hk : name = kernelBin
    · rw [if_pos hk, if_pos hk, hk]
      exact Or.inr (Or.inl ⟨rfl, rfl, by decide, rfl, rfl⟩)
    · rw [if_neg hk, if_neg hk, bne_iff_ne.mpr hk]
      exact Or.inr (Or.inr ⟨rfl, hk, rfl, rfl, rfl⟩)

theorem length_eq_countP (names : List (List UInt8)) :
    names.length = names.countP isPrekernel + names.count kernelBin + names.countP isOther := by
  induction names with
  | nil => rfl
  | cons name names ih =>
    rw [List.length_cons, List.countP_cons, List.count_cons, List.countP_cons]
    rcases name_cases 0 name with ⟨hp, hk, ho, -⟩ | ⟨hp, rfl, ho, -⟩ | ⟨hp, hk, ho, -⟩
    · simp only [hp, hk, ho, beq_iff_eq, if_true, if_false, Bool.false_eq_true]
      omega
    · simp only [hp, ho, beq_self_eq_true, if_true, if_false, Bool.false_eq_true]
      omega
    · simp only [hp, hk, ho, beq_iff_eq, if_true, if_false, Bool.false_eq_true]
      omega

/-- A number is 2 or 3, for the kernel's two files, or one of the next ones. -/
theorem mem_numbering (hlt : c + (paths.map lastName).countP isOther < 2 ^ 32)
    (hr : r ∈ numbering c paths) :
    (r.2 = 2 ∧ isPrekernel (lastName r.1) = true) ∨ (r.2 = 3 ∧ lastName r.1 = kernelBin) ∨
      (c ≤ r.2 ∧ r.2 < c + (paths.map lastName).countP isOther) := by
  induction paths generalizing c with
  | nil => exact absurd hr List.not_mem_nil
  | cons path paths ih =>
    rw [numbering] at hr
    rw [List.map_cons, List.countP_cons] at hlt ⊢
    rcases name_cases c (lastName path) with
      ⟨hp, -, ho, hn, hx⟩ | ⟨-, hk, ho, hn, hx⟩ | ⟨-, -, ho, hn, hx⟩ <;>
      rw [hn, hx] at hr <;> rw [ho] at hlt ⊢ <;> rcases List.mem_cons.mp hr with rfl | hr
    · exact Or.inl ⟨rfl, hp⟩
    · exact ih hlt hr
    · exact Or.inr (Or.inl ⟨rfl, hk⟩)
    · exact ih hlt hr
    · rw [if_pos rfl]
      exact Or.inr (Or.inr (by omega))
    · rw [if_pos rfl] at hlt ⊢
      rw [Nat.mod_eq_of_lt (by omega)] at hr
      rcases ih (by omega) hr with h | h | h
      · exact Or.inl h
      · exact Or.inr (Or.inl h)
      · exact Or.inr (Or.inr (by omega))

/-- The numbers are different ones, if each of the kernel's two names occurs once at most. -/
theorem nodup_numbering (hc : 4 ≤ c) (hlt : c + (paths.map lastName).countP isOther < 2 ^ 32)
    (hpre : (paths.map lastName).countP isPrekernel ≤ 1)
    (hkernel : (paths.map lastName).count kernelBin ≤ 1) :
    ((numbering c paths).map Prod.snd).Nodup := by
  induction paths generalizing c with
  | nil => exact List.nodup_nil
  | cons path paths ih =>
    -- what another path with the number of this one would have to be
    have hmem : ∀ {d n}, d + (paths.map lastName).countP isOther < 2 ^ 32 →
        n ∈ (numbering d paths).map Prod.snd →
        (n = 2 ∧ 0 < (paths.map lastName).countP isPrekernel) ∨
          (n = 3 ∧ 0 < (paths.map lastName).count kernelBin) ∨ d ≤ n := by
      intro d n hd hn
      obtain ⟨r, hr, rfl⟩ := List.mem_map.mp hn
      have hpath : lastName r.1 ∈ paths.map lastName := by
        rw [← map_fst_numbering d paths]
        exact List.mem_map.mpr ⟨r.1, List.mem_map.mpr ⟨r, hr, rfl⟩, rfl⟩
      rcases mem_numbering hd hr with ⟨h, hp⟩ | ⟨h, hp⟩ | h
      · exact Or.inl ⟨h, List.countP_pos_iff.mpr ⟨_, hpath, hp⟩⟩
      · exact Or.inr (Or.inl ⟨h, List.count_pos_iff.mpr (hp ▸ hpath)⟩)
      · exact Or.inr (Or.inr h.1)
    rw [List.map_cons, List.countP_cons] at hlt hpre
    rw [List.map_cons, List.count_cons] at hkernel
    rw [numbering, List.map_cons, List.nodup_cons]
    rcases name_cases c (lastName path) with
      ⟨hp, -, ho, hn, hx⟩ | ⟨-, hk, ho, hn, hx⟩ | ⟨-, -, ho, hn, hx⟩ <;> rw [hn, hx]
    · rw [if_pos hp] at hpre
      refine ⟨fun hmem' ↦ ?_, ih hc (by omega) (by omega) (by omega)⟩
      rcases hmem (by omega) hmem' with h | h | h <;> omega
    · rw [if_pos (beq_iff_eq.mpr hk)] at hkernel
      refine ⟨fun hmem' ↦ ?_, ih hc (by omega) (by omega) (by omega)⟩
      rcases hmem (by omega) hmem' with h | h | h <;> omega
    · rw [if_pos ho] at hlt
      rw [Nat.mod_eq_of_lt (by omega)]
      refine ⟨fun hmem' ↦ ?_, ih (by omega) (by omega) (by omega) (by omega)⟩
      rcases hmem (by omega) hmem' with h | h | h <;> omega

end numbering

/-! ## The numbers of the tree -/

section tree

variable {entries : List Host}

theorem placed_paths (entries : List Host) :
    (formatTree entries).placed.map Placed.path = [] :: entryPaths [] entries := by
  have hpaths := congrArg (List.map Prod.fst) (formatTree_numbers entries)
  rw [List.map_map, List.map_cons, map_fst_numbering] at hpaths
  exact hpaths

theorem placed_iNumbers (entries : List Host) :
    (formatTree entries).placed.map Placed.iNumber =
      1 :: (numbering 4 (entryPaths [] entries)).map Prod.snd := by
  have hnumbers := congrArg (List.map Prod.snd) (formatTree_numbers entries)
  rw [List.map_map, List.map_cons] at hnumbers
  exact hnumbers

/-- The root, or an entry with a number that it has got from its name. -/
theorem placed_cases {p : Placed} (hp : p ∈ (formatTree entries).placed) :
    (p.path = [] ∧ p.iNumber = 1) ∨
      (p.path ≠ [] ∧ (p.path, p.iNumber) ∈ numbering 4 (entryPaths [] entries)) := by
  have hmem : p.numbered ∈ (formatTree entries).placed.map Placed.numbered :=
    List.mem_map.mpr ⟨p, hp, rfl⟩
  rw [formatTree_numbers] at hmem
  rcases List.mem_cons.mp hmem with h | h
  · exact Or.inl ⟨congrArg Prod.fst h, congrArg Prod.snd h⟩
  · have hpath : p.path ∈ entryPaths [] entries := by
      rw [← map_fst_numbering 4 (entryPaths [] entries)]
      exact List.mem_map.mpr ⟨_, h, rfl⟩
    obtain ⟨it, hit, hpath⟩ := List.mem_map.mp hpath
    have hlen := (prefix_entriesItems [] entries it hit).2
    refine Or.inr ⟨fun hnil ↦ ?_, h⟩
    rw [hpath, hnil] at hlen
    exact absurd hlen (Nat.lt_irrefl 0)

/-- What has the path of the kernel or of its loader has its number, in every tree. -/
theorem iNumber_of_path {p : Placed} (hp : p ∈ (formatTree entries).placed) {name : List UInt8}
    (hpath : p.path = [name]) : ∃ c, p.iNumber = numberFor c name := by
  rcases placed_cases hp with ⟨h, -⟩ | ⟨-, h⟩
  · rw [hpath] at h
    exact absurd h (List.cons_ne_nil _ _)
  · obtain ⟨c, hc⟩ := exists_numberFor h
    rw [hpath] at hc
    exact ⟨c, hc⟩

theorem mem_treeNames {name : List UInt8} (h : name ∈ entries.map Host.name) :
    name ∈ treeNames entries := by
  have hpaths : ∀ hs : List Host, name ∈ hs.map Host.name →
      name ∈ (entryPaths [] hs).map lastName := by
    intro hs
    induction hs with
    | nil => exact fun h ↦ absurd h List.not_mem_nil
    | cons h hs ih =>
      intro hname
      rw [entryPaths_cons, List.map_cons, List.map_append, lastName_concat]
      rcases List.mem_cons.mp hname with heq | hname
      · exact List.mem_cons.mpr (Or.inl heq)
      · exact List.mem_cons_of_mem _ (List.mem_append_right _ (ih hname))
  exact hpaths entries h

/-- All numbers below `n` and none of them 0: there are fewer than `n`. -/
theorem length_lt_of_nodup {l : List ℕ} (hnodup : l.Nodup) (hpos : ∀ k ∈ l, k ≠ 0) {n : ℕ}
    (hlt : ∀ k ∈ l, k < n) (hn : 0 < n) : l.length < n := by
  have hsub : 0 :: l ⊆ List.range n := by
    intro k hk
    rcases List.mem_cons.mp hk with rfl | hk
    · exact List.mem_range.mpr hn
    · exact List.mem_range.mpr (hlt k hk)
  have hcons : (0 :: l).Nodup := List.nodup_cons.mpr ⟨fun h ↦ hpos 0 h rfl, hnodup⟩
  have hle := (List.subperm_of_subset hcons hsub).length_le
  rw [List.length_cons, List.length_range] at hle
  exact hle

theorem UniqueNumbers.countP_le (h : UniqueNumbers entries) {p : List UInt8 → Bool} {k : ℕ}
    (hp : ∀ c name, p name = true → numberFor c name = k) : (treeNames entries).countP p ≤ 1 := by
  have hdistinct := h.distinct
  rw [placed_iNumbers] at hdistinct
  exact (countP_le_count hp 4 (entryPaths [] entries)).trans
    (List.nodup_iff_count_le_one.mp (List.nodup_cons.mp hdistinct).2 k)

theorem UniqueNumbers.countP_prekernel (h : UniqueNumbers entries) :
    (treeNames entries).countP isPrekernel ≤ 1 :=
  h.countP_le (k := 2) fun _ _ hp ↦ if_pos hp

theorem UniqueNumbers.count_kernel (h : UniqueNumbers entries) :
    (treeNames entries).count kernelBin ≤ 1 :=
  h.countP_le (k := 3) fun c name hp ↦ by
    rw [beq_iff_eq.mp hp]
    rfl

theorem length_iNumbers (entries : List Host) :
    ((formatTree entries).placed.map Placed.iNumber).length = (treeNames entries).length + 1 := by
  rw [List.length_map, ← List.length_map (f := Placed.path), placed_paths, List.length_cons,
    treeNames, List.length_map]

/-- Different numbers that are not 0 and below `num_inodes`: the count has not wrapped. -/
theorem UniqueNumbers.length_lt (h : UniqueNumbers entries) :
    (treeNames entries).length + 2 < 2 ^ 32 := by
  have hnumber : ∀ k ∈ (formatTree entries).placed.map Placed.iNumber,
      k ≠ 0 ∧ k < ((treeNames entries).length + 2) % 2 ^ 32 := by
    intro k hk
    obtain ⟨p, hp, rfl⟩ := List.mem_map.mp hk
    exact ⟨h.nonzero p hp, numInodes_eq entries ▸ h.inRange p hp⟩
  obtain ⟨k, hk⟩ : ∃ k, k ∈ (formatTree entries).placed.map Placed.iNumber :=
    List.exists_mem_of_length_pos (by rw [length_iNumbers]; exact Nat.succ_pos _)
  have hlt := length_lt_of_nodup h.distinct (fun k hk ↦ (hnumber k hk).1)
    (fun k hk ↦ (hnumber k hk).2) (Nat.zero_lt_of_lt (hnumber k hk).2)
  rw [length_iNumbers] at hlt
  have hmod := Nat.mod_lt ((treeNames entries).length + 2) (Nat.two_pow_pos 32)
  have hle := Nat.mod_le ((treeNames entries).length + 2) (2 ^ 32)
  omega

/-- A tree in which each of the two names occurs once. -/
theorem uniqueNumbers_of_once (hpre : (treeNames entries).countP isPrekernel = 1)
    (hker : (treeNames entries).count kernelBin = 1)
    (hlt : (treeNames entries).length + 2 < 2 ^ 32) : UniqueNumbers entries := by
  have hcount := length_eq_countP (treeNames entries)
  have hother : 4 + ((entryPaths [] entries).map lastName).countP isOther < 2 ^ 32 := by
    rw [← treeNames]
    omega
  have hnumber : ∀ p ∈ (formatTree entries).placed,
      p.iNumber ≠ 0 ∧ p.iNumber < (treeNames entries).length + 2 := by
    intro p hp
    rcases placed_cases hp with ⟨-, h⟩ | ⟨-, h⟩
    · omega
    · have hcases := mem_numbering hother h
      rw [← treeNames] at hcases
      simp only at hcases
      rcases hcases with ⟨h, -⟩ | ⟨h, -⟩ | h <;> omega
  refine ⟨placed_paths entries, ?_, fun p hp ↦ (hnumber p hp).1, ?_, ?_, ?_, ?_⟩
  · rw [placed_iNumbers, List.nodup_cons]
    refine ⟨fun hmem ↦ ?_,
      nodup_numbering (Nat.le_refl 4) hother (Nat.le_of_eq hpre) (Nat.le_of_eq hker)⟩
    obtain ⟨r, hr, h1⟩ := List.mem_map.mp hmem
    rcases mem_numbering hother hr with ⟨h, -⟩ | ⟨h, -⟩ | h <;> omega
  · intro p hp hpath
    rcases placed_cases hp with ⟨-, h⟩ | ⟨h, -⟩
    · exact h
    · exact absurd hpath h
  · intro p hp hpath
    obtain ⟨c, hc⟩ := iNumber_of_path hp hpath
    rw [hc]
    rfl
  · intro p hp hpath
    obtain ⟨c, hc⟩ := iNumber_of_path hp hpath
    rw [hc]
    rfl
  · intro p hp
    rw [numInodes_eq, Nat.mod_eq_of_lt hlt]
    exact (hnumber p hp).2

/-- **The numbers of a tree** that has the kernel's two files at its root are different ones and in
range exactly if no other entry of the tree has a name that begins with `prekernel.bin` or the name
`kernel.bin`, and there are fewer than 2³² of them. -/
theorem uniqueNumbers_iff (hprekernel : prekernelBin ∈ entries.map Host.name)
    (hkernel : kernelBin ∈ entries.map Host.name) :
    UniqueNumbers entries ↔
      (treeNames entries).countP isPrekernel = 1 ∧ (treeNames entries).count kernelBin = 1 ∧
        (treeNames entries).length + 2 < 2 ^ 32 := by
  have hpre : 0 < (treeNames entries).countP isPrekernel :=
    List.countP_pos_iff.mpr ⟨_, mem_treeNames hprekernel, by decide⟩
  have hker : 0 < (treeNames entries).count kernelBin :=
    List.count_pos_iff.mpr (mem_treeNames hkernel)
  constructor
  · intro h
    exact ⟨Nat.le_antisymm h.countP_prekernel hpre, Nat.le_antisymm h.count_kernel hker,
      h.length_lt⟩
  · rintro ⟨hpre1, hker1, hlt⟩
    exact uniqueNumbers_of_once hpre1 hker1 hlt

/-- The two files of the kernel and a directory with one file. -/
theorem uniqueNumbers_small : UniqueNumbers [.file prekernelBin [], .file kernelBin [],
    .dir [0x62, 0x69, 0x6E] [.file [0x6C, 0x73] []]] :=
  (uniqueNumbers_iff (List.mem_cons_self ..)
    (List.mem_cons_of_mem _ (List.mem_cons_self ..))).mpr
    ⟨by decide, by decide, by decide⟩

/-- A subdirectory with another `kernel.bin`. -/
theorem not_uniqueNumbers_two : ¬ UniqueNumbers [.file prekernelBin [], .file kernelBin [],
    .dir [0x62, 0x69, 0x6E] [.file kernelBin []]] := by
  intro h
  exact absurd h.count_kernel (by decide)

end tree

end AbOS
