import AbOS.Format.Host
import Mathlib.Data.List.Nodup
import Mathlib.Order.Interval.Finset.Nat

/-!
# Which blocks the formatter hands out

For the blocks, a host tree is the list of its files and directories in the order in which
`write_file_data` comes to them, `treeItems`, each with the number of blocks it needs.  `assign` hands
out the blocks along this list (`formatTree_owners`).

The blocks 7 to 13 belong to the `kernel.bin` of the root.  They stay with it alone exactly if the
other blocks leave the hole (`ownersDistinct_iff`): `write_file_data` skips the hole only for a
regular file that happens to start in it.
-/

set_option autoImplicit false

namespace AbOS

/-- A file or directory of the tree, and the number of blocks it needs. -/
structure Item where
  path : List (List UInt8)
  fileType : ℕ
  /-- It is a regular file called `kernel.bin`. -/
  kernel : Bool
  count : ℕ

mutual

/-- The items of an entry of the directory `path`, in the order of the walk. -/
def Host.items (path : List (List UInt8)) : Host → List Item
  | .file name contents =>
    [⟨path ++ [name], fileTypeFile, decide (name = kernelBin),
      bytesToBlocks (contents.length % 2 ^ 32)⟩]
  | .dir name entries =>
    ⟨path ++ [name], fileTypeDir, false, bytesToBlocks (dirSize entries.length)⟩ ::
      entriesItems (path ++ [name]) entries

/-- The items of a list of entries. -/
def entriesItems (path : List (List UInt8)) : List Host → List Item
  | [] => []
  | h :: hs => h.items path ++ entriesItems path hs

end

/-- The items of the tree. -/
def treeItems (entries : List Host) : List Item :=
  ⟨[], fileTypeDir, false, bytesToBlocks (dirSize entries.length)⟩ :: entriesItems [] entries

namespace Item

/-- The first block of the item, when the next free block is `c`. -/
def start (it : Item) (c : ℕ) : ℕ :=
  if it.kernel then 7 else if it.fileType = fileTypeFile ∧ 7 ≤ c ∧ c ≤ 13 then c + 7 else c

/-- The next free block behind it. -/
def next (it : Item) (c : ℕ) : ℕ :=
  if it.kernel ∧ c ≠ 0 then c else (it.start c + it.count) % 2 ^ 32

end Item

/-- The items with their blocks. -/
def assign : ℕ → List Item → List (Item × List ℕ)
  | _, [] => []
  | c, it :: its => (it, blocksFrom (it.start c) it.count) :: assign (it.next c) its

/-- The next free block behind the items. -/
def cursor (c : ℕ) (its : List Item) : ℕ := its.foldl (fun c it ↦ it.next c) c

theorem assign_append (c : ℕ) (its its' : List Item) :
    assign c (its ++ its') = assign c its ++ assign (cursor c its) its' := by
  induction its generalizing c with
  | nil => rfl
  | cons it its ih =>
    rw [List.cons_append, assign, ih, assign, List.cons_append]
    rfl

theorem cursor_append (c : ℕ) (its its' : List Item) :
    cursor c (its ++ its') = cursor (cursor c its) its' := List.foldl_append

/-! ## The walk -/

/-- Path, type and blocks. -/
abbrev Owner := List (List UInt8) × ℕ × List ℕ

def Placed.owner (p : Placed) : Owner := (p.path, p.fileType, p.blocks)

def Item.owner (r : Item × List ℕ) : Owner := (r.1.path, r.1.fileType, r.2)

/-- The formatter has gone over the items: it has placed them, and stands behind them. -/
structure Formatter.Walked (st : Formatter) (its : List Item) (st' : Formatter) : Prop where
  owners : st'.placed.map Placed.owner =
    st.placed.map Placed.owner ++ (assign st.firstBlock its).map Item.owner
  firstBlock : st'.firstBlock = cursor st.firstBlock its
  superblock : st'.superblock = st.superblock

namespace Formatter

variable {st st' st'' : Formatter} {its its' : List Item}

theorem Walked.append (h : st.Walked its st') (h' : st'.Walked its' st'') :
    st.Walked (its ++ its') st'' := by
  refine ⟨?_, ?_, h'.superblock.trans h.superblock⟩
  · rw [h'.owners, h.owners, h.firstBlock, assign_append, List.map_append, List.append_assoc]
  · rw [h'.firstBlock, h.firstBlock, cursor_append]

/-- Only the placed files and the next free block matter. -/
theorem Walked.of_eq (hplaced : st'.placed = st.placed) (hfirst : st'.firstBlock = st.firstBlock)
    (hsuper : st'.superblock = st.superblock) : st.Walked [] st' :=
  ⟨by rw [hplaced, assign, List.map_nil, List.append_nil], hfirst, hsuper⟩

theorem number_eq (st : Formatter) (name : List UInt8) :
    (st.number name).2.placed = st.placed ∧ (st.number name).2.firstBlock = st.firstBlock ∧
      (st.number name).2.superblock = st.superblock := by
  rw [number]
  split_ifs <;> exact ⟨rfl, rfl, rfl⟩

theorem takeFileBlocks_eq (st : Formatter) (path : List (List UInt8)) (name : List UInt8) (n : ℕ) :
    st.takeFileBlocks name n =
      (blocksFrom (Item.start ⟨path, fileTypeFile, decide (name = kernelBin), n⟩ st.firstBlock) n,
        { st with firstBlock :=
            Item.next ⟨path, fileTypeFile, decide (name = kernelBin), n⟩ st.firstBlock }) := by
  rw [takeFileBlocks, Item.next, Item.start]
  by_cases hk : name = kernelBin
  · simp only [hk, decide_true, if_true, true_and, takeBlocks]
    split_ifs <;> rfl
  · by_cases hc : st.firstBlock ≤ 13 ∧ 7 ≤ st.firstBlock
    · simp only [hk, hc, decide_false, Bool.false_eq_true, if_false, false_and, and_self, if_true,
        takeBlocks]
    · have hc' : ¬ (7 ≤ st.firstBlock ∧ st.firstBlock ≤ 13) := fun h ↦ hc h.symm
      simp only [hk, hc, hc', decide_false, Bool.false_eq_true, if_false, false_and, and_false,
        takeBlocks]

/-- A regular file. -/
theorem walked_writeFile (st : Formatter) (path : List (List UInt8)) (name : List UInt8)
    (iNumber : ℕ) (contents : List UInt8) :
    st.Walked [⟨path, fileTypeFile, decide (name = kernelBin),
      bytesToBlocks (contents.length % 2 ^ 32)⟩] (st.writeFile path name iNumber contents) := by
  rw [writeFile, takeFileBlocks_eq st path]
  refine ⟨?_, rfl, rfl⟩
  show List.map Placed.owner (st.placed ++ [_]) = _
  rw [List.map_append]
  rfl

/-- The beginning of a directory. -/
theorem walked_openDir (st : Formatter) (path : List (List UInt8)) (iNumber parent n : ℕ) :
    st.Walked [⟨path, fileTypeDir, false, bytesToBlocks (dirSize n)⟩]
      (st.openDir path iNumber parent n).2 := by
  have hstart : ∀ c, Item.start ⟨path, fileTypeDir, false, bytesToBlocks (dirSize n)⟩ c = c :=
    fun c ↦ by
      rw [Item.start]
      simp [fileTypeDir, fileTypeFile]
  refine ⟨?_, ?_, rfl⟩
  · show List.map Placed.owner (st.placed ++ [_]) = _
    rw [List.map_append, assign, assign, hstart]
    rfl
  · rw [cursor, List.foldl_cons, List.foldl_nil, Item.next, hstart]
    rfl

end Formatter

mutual

/-- **One entry of a directory is walked.** -/
theorem Host.walked_write (path : List (List UInt8)) (parent iNumber : ℕ) :
    ∀ (h : Host) (st : Formatter), st.Walked (h.items path) (h.write path parent iNumber st)
  | .file name contents, st => by
    rw [Host.items, Host.write]
    exact st.walked_writeFile ..
  | .dir name entries, st => by
    rw [Host.items, Host.write]
    have hopen := st.walked_openDir (path ++ [name]) iNumber parent entries.length
    have hloop := walked_writeEntries (path ++ [name]) iNumber
      (st.openDir (path ++ [name]) iNumber parent entries.length).1
      (strcpyName (List.replicate 60 0) [0x2E, 0x2E]) 2 entries
      (st.openDir (path ++ [name]) iNumber parent entries.length).2
    exact ⟨(hopen.append hloop).owners, (hopen.append hloop).firstBlock,
      (hopen.append hloop).superblock⟩

/-- So is a list of them. -/
theorem walked_writeEntries (path : List (List UInt8)) (dir start : ℕ) :
    ∀ (buffer : List UInt8) (i : ℕ) (entries : List Host) (st : Formatter),
      st.Walked (entriesItems path entries) (writeEntries path dir start buffer i entries st)
  | buffer, i, [], st => by
    rw [entriesItems, writeEntries]
    exact Formatter.Walked.of_eq rfl rfl rfl
  | buffer, i, h :: hs, st => by
    rw [entriesItems, writeEntries]
    obtain ⟨hplaced, hfirst, hsuper⟩ := st.number_eq h.name
    have hhead := Host.walked_write path dir (st.number h.name).1 h
      ((st.number h.name).2.write (start + i * dirEntryBytes)
        (ByteStore.leBytes 4 (st.number h.name).1 ++ strcpyName buffer h.name))
    have hnumber : st.Walked [] ((st.number h.name).2.write (start + i * dirEntryBytes)
        (ByteStore.leBytes 4 (st.number h.name).1 ++ strcpyName buffer h.name)) :=
      Formatter.Walked.of_eq hplaced hfirst hsuper
    have hrest := walked_writeEntries path dir start (strcpyName buffer h.name) (i + 1) hs
      (h.write path dir (st.number h.name).1 ((st.number h.name).2.write (start + i * dirEntryBytes)
        (ByteStore.leBytes 4 (st.number h.name).1 ++ strcpyName buffer h.name)))
    exact (hnumber.append hhead).append hrest

end

/-- **The blocks of the tree** are handed out along its items. -/
theorem formatTree_owners (entries : List Host) :
    (formatTree entries).superblock = writeSuperblock (getFileInfo entries) ∧
      (formatTree entries).placed.map Placed.owner =
        (assign (writeSuperblock (getFileInfo entries)).firstDataBlock (treeItems entries)).map
          Item.owner := by
  rw [formatTree, treeItems]
  generalize hst : (Formatter.mk (writeSuperblock (getFileInfo entries))
    (writeSuperblock (getFileInfo entries)).firstDataBlock 4 [] []) = st
  have hopen := st.walked_openDir [] 1 1 entries.length
  have hloop := walked_writeEntries [] 1 (st.openDir [] 1 1 entries.length).1
    (strcpyName (List.replicate 60 0) [0x2E, 0x2E]) 2 entries (st.openDir [] 1 1 entries.length).2
  obtain ⟨howners, -, hsuper⟩ := hopen.append hloop
  have hfirst : st.firstBlock = (writeSuperblock (getFileInfo entries)).firstDataBlock := by rw [← hst]
  have hplaced : st.placed = [] := by rw [← hst]
  rw [hfirst, hplaced, List.map_nil, List.nil_append] at howners
  exact ⟨hsuper.trans (by rw [← hst]), howners⟩

/-! ## The hole -/

/-- The blocks that a file or directory owns.  Those of the `kernel.bin` of the root are set aside. -/
def Placed.owns (p : Placed) : List ℕ :=
  if p.path = [kernelBin] ∧ p.fileType = fileTypeFile then blocksFrom 7 7 else p.blocks

/-- No block has two owners, and all are data blocks. -/
structure OneOwner (entries : List Host) : Prop where
  distinct : ((formatTree entries).placed.flatMap Placed.owns).Nodup
  data : ∀ b ∈ (formatTree entries).placed.flatMap Placed.owns,
    (formatTree entries).superblock.firstDataBlock ≤ b

/-- The items that are not regular files called `kernel.bin`. -/
def plainItems (its : List Item) : List Item := its.filter fun it ↦ !it.kernel

/-- The blocks that items need together. -/
def totalCount (its : List Item) : ℕ := (its.map Item.count).sum

/-- Handing out blocks from `c` on leaves the hole: they all end in front of it, or they fill the
blocks up to it and a regular file comes next. -/
def LeavesHole (c : ℕ) (its : List Item) : Prop :=
  ∃ l₁ l₂, its = l₁ ++ l₂ ∧ ((l₂ = [] ∧ c + totalCount l₁ ≤ 7) ∨
    (c + totalCount l₁ = 7 ∧ ∃ it ∈ l₂.head?, it.fileType = fileTypeFile))

/-- The tree keeps blocks 7 to 13 for the kernel: no other nonempty file is called `kernel.bin`, the
other files and directories leave the hole, and block numbers do not overflow. -/
structure KeepsHole (entries : List Host) : Prop where
  kernels : ∀ it ∈ treeItems entries, it.kernel = true → it.path ≠ [kernelBin] → it.count = 0
  hole : LeavesHole (formatTree entries).superblock.firstDataBlock (plainItems (treeItems entries))
  few : (formatTree entries).superblock.firstDataBlock + 7 +
    totalCount (plainItems (treeItems entries)) ≤ 2 ^ 32

/-! ### Without overflow -/

namespace Item

/-- The item of the root's `kernel.bin`. -/
def IsKernel (it : Item) : Prop := it.path = [kernelBin] ∧ it.fileType = fileTypeFile

instance (it : Item) : Decidable it.IsKernel := inferInstanceAs (Decidable (_ ∧ _))

/-- `next` without overflow. -/
def nextNat (it : Item) (c : ℕ) : ℕ := if it.kernel then c else it.start c + it.count

end Item

/-- `assign` without overflow. -/
def assignNat : ℕ → List Item → List (Item × List ℕ)
  | _, [] => []
  | c, it :: its => (it, List.range' (it.start c) it.count) :: assignNat (it.nextNat c) its

theorem blocksFrom_eq {start n : ℕ} (h : start + n ≤ 2 ^ 32) :
    blocksFrom start n = List.range' start n := by
  rw [blocksFrom, List.range'_eq_map_range]
  refine List.map_congr_left fun i hi ↦ Nat.mod_eq_of_lt ?_
  have := List.mem_range.mp hi
  omega

theorem plainItems_cons_of_kernel {it : Item} (h : it.kernel = true) (its : List Item) :
    plainItems (it :: its) = plainItems its := by
  rw [plainItems, List.filter_cons_of_neg (by rw [h]; decide), plainItems]

theorem plainItems_cons_of_not_kernel {it : Item} (h : it.kernel = false) (its : List Item) :
    plainItems (it :: its) = it :: plainItems its := by
  rw [plainItems, List.filter_cons_of_pos (by rw [h]; decide), plainItems]

theorem totalCount_cons (it : Item) (its : List Item) :
    totalCount (it :: its) = it.count + totalCount its := List.sum_cons

/-- Items that need no blocks get none, wherever one stands. -/
theorem assign_of_totalCount_zero {its : List Item} (h : totalCount (plainItems its) = 0) (c c' : ℕ)
    (hcount : ∀ it ∈ its, it.kernel = true → 7 + it.count ≤ 2 ^ 32) :
    assign c its = assignNat c' its := by
  induction its generalizing c c' with
  | nil => rfl
  | cons it its ih =>
    rw [assign, assignNat]
    cases hk : it.kernel with
    | true =>
      rw [plainItems_cons_of_kernel hk] at h
      rw [ih h _ (it.nextNat c') fun it hit ↦ hcount it (List.mem_cons_of_mem _ hit),
        Item.start, if_pos hk, Item.start, if_pos hk,
        blocksFrom_eq (hcount it List.mem_cons_self hk)]
    | false =>
      rw [plainItems_cons_of_not_kernel hk, totalCount_cons] at h
      have hzero : it.count = 0 := by omega
      rw [ih (by omega) _ (it.nextNat c') fun it hit ↦ hcount it (List.mem_cons_of_mem _ hit), hzero]
      rfl

/-- How far the next file can jump. -/
def hole (c : ℕ) : ℕ := if c ≤ 13 then 7 else 0

/-- **Without overflow** the blocks are those of the natural numbers. -/
theorem assign_eq_assignNat {its : List Item} {c : ℕ} (hpos : 0 < c) (hlt : c < 2 ^ 32)
    (h : c + hole c + totalCount (plainItems its) ≤ 2 ^ 32)
    (hcount : ∀ it ∈ its, it.kernel = true → 7 + it.count ≤ 2 ^ 32) :
    assign c its = assignNat c its := by
  induction its generalizing c with
  | nil => rfl
  | cons it its ih =>
    rw [assign, assignNat]
    have hrest : ∀ it ∈ its, it.kernel = true → 7 + it.count ≤ 2 ^ 32 := fun it hit ↦
      hcount it (List.mem_cons_of_mem _ hit)
    cases hk : it.kernel with
    | true =>
      rw [plainItems_cons_of_kernel hk] at h
      have hnext : it.next c = c ∧ it.nextNat c = c := by
        rw [Item.next, Item.nextNat, if_pos ⟨hk, by omega⟩, if_pos hk]
        exact ⟨rfl, rfl⟩
      rw [hnext.1, hnext.2, ih hpos hlt h hrest, Item.start, if_pos hk,
        blocksFrom_eq (hcount it List.mem_cons_self hk)]
    | false =>
      rw [plainItems_cons_of_not_kernel hk, totalCount_cons] at h
      have hkf : ¬ it.kernel = true := by rw [hk]; decide
      have hnext : it.next c = (it.start c + it.count) % 2 ^ 32 ∧
          it.nextNat c = it.start c + it.count := by
        rw [Item.next, Item.nextNat, if_neg fun hh ↦ hkf hh.1, if_neg hkf]
        exact ⟨rfl, rfl⟩
      -- one file jumps over the hole, and then none does
      have hstart : c ≤ it.start c ∧ it.start c + hole (it.start c + it.count) ≤ c + hole c := by
        rw [Item.start, if_neg hkf, hole, hole]
        split_ifs <;> omega
      rw [hnext.1, hnext.2, blocksFrom_eq (by omega)]
      by_cases hend : it.start c + it.count < 2 ^ 32
      · rw [Nat.mod_eq_of_lt hend, ih (by omega) hend (by omega) hrest]
      · rw [assign_of_totalCount_zero (by omega) _ (it.start c + it.count) hrest]

/-! ### Where the blocks are -/

theorem Item.start_le {it : Item} (hk : it.kernel = false) (c : ℕ) :
    c ≤ it.start c ∧ it.nextNat c = it.start c + it.count := by
  have hkf : ¬ it.kernel = true := by rw [hk]; decide
  rw [Item.nextNat, if_neg hkf, Item.start, if_neg hkf]
  refine ⟨?_, rfl⟩
  split_ifs <;> omega

theorem Item.nextNat_of_kernel {it : Item} (hk : it.kernel = true) (c : ℕ) : it.nextNat c = c := by
  rw [Item.nextNat, if_pos hk]

/-- All other blocks come after `c`. -/
theorem le_of_mem_assignNat {its : List Item} {c : ℕ} {r : Item × List ℕ}
    (hr : r ∈ assignNat c its) (hk : r.1.kernel = false) : ∀ x ∈ r.2, c ≤ x := by
  induction its generalizing c with
  | nil => exact absurd hr List.not_mem_nil
  | cons it its ih =>
    rcases List.mem_cons.mp hr with rfl | hr
    · intro x hx
      have hstart : c ≤ it.start c := (Item.start_le hk c).1
      exact Nat.le_trans hstart (List.mem_range'_1.mp hx).1
    · intro x hx
      have hle : c ≤ it.nextNat c := by
        cases hk' : it.kernel with
        | true => rw [Item.nextNat_of_kernel hk']
        | false =>
          have := Item.start_le hk' c
          omega
      exact Nat.le_trans hle (ih hr x hx)

/-- The other blocks stay out of the hole. -/
def AvoidsHole (c : ℕ) (its : List Item) : Prop :=
  ∀ r ∈ assignNat c its, r.1.kernel = false → ∀ x ∈ r.2, x ∉ List.range' 7 7

theorem avoidsHole_cons_of_kernel {it : Item} (hk : it.kernel = true) (c : ℕ) (its : List Item) :
    AvoidsHole c (it :: its) ↔ AvoidsHole c its := by
  rw [AvoidsHole, AvoidsHole, assignNat, Item.nextNat_of_kernel hk]
  constructor
  · exact fun h r hr ↦ h r (List.mem_cons_of_mem _ hr)
  · intro h r hr hrk
    rcases List.mem_cons.mp hr with rfl | hr
    · exact absurd (hrk.symm.trans hk) (by decide)
    · exact h r hr hrk

theorem avoidsHole_cons_of_not_kernel {it : Item} (hk : it.kernel = false) (c : ℕ)
    (its : List Item) : AvoidsHole c (it :: its) ↔
      (∀ x ∈ List.range' (it.start c) it.count, x ∉ List.range' 7 7) ∧
        AvoidsHole (it.start c + it.count) its := by
  rw [AvoidsHole, AvoidsHole, assignNat, (Item.start_le hk c).2]
  constructor
  · exact fun h ↦ ⟨h _ List.mem_cons_self hk, fun r hr ↦ h r (List.mem_cons_of_mem _ hr)⟩
  · rintro ⟨hhead, htail⟩ r hr hrk
    rcases List.mem_cons.mp hr with rfl | hr
    · exact hhead
    · exact htail r hr hrk

/-- Behind the hole nothing reaches into it. -/
theorem avoidsHole_of_le {c : ℕ} (h : 14 ≤ c) (its : List Item) : AvoidsHole c its :=
  fun _ hr hk x hx hmem ↦ by
    have := le_of_mem_assignNat hr hk x hx
    have := (List.mem_range'_1.mp hmem).2
    omega

theorem leavesHole_cons {it : Item} {c : ℕ} (hlt : c < 7) (its : List Item) :
    LeavesHole c (it :: its) ↔ c + it.count ≤ 7 ∧ LeavesHole (c + it.count) its := by
  constructor
  · rintro ⟨l₁, l₂, heq, hsplit⟩
    cases l₁ with
    | nil =>
      rcases hsplit with ⟨rfl, -⟩ | ⟨hsum, -⟩
      · exact absurd heq (by simp)
      · change c + 0 = 7 at hsum
        omega
    | cons it' l₁ =>
      rw [List.cons_append, List.cons.injEq] at heq
      obtain ⟨rfl, rfl⟩ := heq
      rw [totalCount_cons] at hsplit
      exact ⟨by omega, l₁, l₂, rfl, by rw [Nat.add_assoc]; exact hsplit⟩
  · rintro ⟨-, l₁, l₂, rfl, hsplit⟩
    exact ⟨it :: l₁, l₂, rfl, by rw [totalCount_cons, ← Nat.add_assoc]; exact hsplit⟩

/-- **The other blocks stay out of the hole** exactly if the items leave it. -/
theorem avoidsHole_iff {its : List Item} {c : ℕ} (hc : c ≤ 7)
    (hdir : ∀ it ∈ its, it.fileType ≠ fileTypeFile → 0 < it.count) :
    AvoidsHole c its ↔ LeavesHole c (plainItems its) := by
  induction its generalizing c with
  | nil =>
    refine iff_of_true (fun r hr ↦ absurd hr List.not_mem_nil) ⟨[], [], rfl, Or.inl ⟨rfl, hc⟩⟩
  | cons it its ih =>
    have ih' := fun {c} hc ↦ ih (c := c) hc fun it hit ↦ hdir it (List.mem_cons_of_mem _ hit)
    cases hk : it.kernel with
    | true => rw [avoidsHole_cons_of_kernel hk, plainItems_cons_of_kernel hk, ih' hc]
    | false =>
      have hkf : ¬ it.kernel = true := by rw [hk]; decide
      rw [avoidsHole_cons_of_not_kernel hk, plainItems_cons_of_not_kernel hk]
      rcases Nat.lt_or_eq_of_le hc with hlt | rfl
      · have hstart : it.start c = c := by
          rw [Item.start, if_neg hkf, if_neg (by omega)]
        rw [hstart, leavesHole_cons hlt]
        constructor
        · rintro ⟨hhead, htail⟩
          have hle : c + it.count ≤ 7 := by
            by_contra hgt
            exact hhead 7 (List.mem_range'_1.mpr (by omega)) (List.mem_range'_1.mpr (by omega))
          exact ⟨hle, (ih' hle).mp htail⟩
        · rintro ⟨hle, htail⟩
          refine ⟨fun x hx hmem ↦ ?_, (ih' hle).mpr htail⟩
          have h₁ := List.mem_range'_1.mp hx
          have h₂ := List.mem_range'_1.mp hmem
          omega
      · -- at the beginning of the hole a file jumps over it, and a directory takes it
        by_cases hfile : it.fileType = fileTypeFile
        · have hstart : it.start 7 = 14 := by
            rw [Item.start, if_neg hkf, if_pos ⟨hfile, by decide⟩]
          rw [hstart]
          refine iff_of_true ⟨fun x hx hmem ↦ ?_, avoidsHole_of_le (by omega) its⟩
            ⟨[], it :: plainItems its, rfl, Or.inr ⟨rfl, it, rfl, hfile⟩⟩
          have h₁ := List.mem_range'_1.mp hx
          have h₂ := List.mem_range'_1.mp hmem
          omega
        · have hstart : it.start 7 = 7 := by
            rw [Item.start, if_neg hkf, if_neg fun hh ↦ hfile hh.1]
          have hpos := hdir it List.mem_cons_self hfile
          rw [hstart]
          refine iff_of_false (fun h ↦ h.1 7 (List.mem_range'_1.mpr (by omega))
            (List.mem_range'_1.mpr (by omega))) ?_
          rintro ⟨l₁, l₂, heq, hsplit⟩
          cases l₁ with
          | nil =>
            subst heq
            rcases hsplit with ⟨hnil, -⟩ | ⟨-, it', hit', htype⟩
            · exact absurd hnil (by simp)
            · rw [List.head?_cons, Option.mem_some_iff] at hit'
              exact hfile (hit' ▸ htype)
          | cons it' l₁ =>
            rw [List.cons_append, List.cons.injEq] at heq
            rw [totalCount_cons, ← heq.1] at hsplit
            omega

/-! ### Owners -/

/-- The blocks that an item owns. -/
def Item.own (r : Item × List ℕ) : List ℕ := if r.1.IsKernel then List.range' 7 7 else r.2

theorem mem_assignNat {its : List Item} {c : ℕ} {r : Item × List ℕ} (hr : r ∈ assignNat c its) :
    r.1 ∈ its ∧ r.2.length = r.1.count ∧ (r.1.kernel = true → r.2 = List.range' 7 r.1.count) := by
  induction its generalizing c with
  | nil => exact absurd hr List.not_mem_nil
  | cons it its ih =>
    rcases List.mem_cons.mp hr with rfl | hr
    · refine ⟨List.mem_cons_self, List.length_range', fun hk ↦ ?_⟩
      dsimp only at hk ⊢
      rw [Item.start, if_pos hk]
    · obtain ⟨hmem, hrest⟩ := ih hr
      exact ⟨List.mem_cons_of_mem _ hmem, hrest⟩

theorem exists_mem_assignNat {its : List Item} {it : Item} (hit : it ∈ its) (c : ℕ) :
    ∃ r ∈ assignNat c its, r.1 = it := by
  induction its generalizing c with
  | nil => exact absurd hit List.not_mem_nil
  | cons it' its ih =>
    rcases List.mem_cons.mp hit with rfl | hit
    · exact ⟨_, List.mem_cons_self, rfl⟩
    · obtain ⟨r, hr, heq⟩ := ih hit (it'.nextNat c)
      exact ⟨r, List.mem_cons_of_mem _ hr, heq⟩

section Owners

variable {its : List Item}

/-- **Distinct owners**: if the hole is left alone, no block has two owners. -/
theorem nodup_own {c : ℕ} (havoid : AvoidsHole c its)
    (hempty : ∀ it ∈ its, it.kernel = true → ¬ it.IsKernel → it.count = 0)
    (hflag : ∀ it ∈ its, it.IsKernel → it.kernel = true)
    (hunique : its.Pairwise fun a b ↦ ¬ (a.IsKernel ∧ b.IsKernel)) :
    ((assignNat c its).flatMap Item.own).Nodup := by
  induction its generalizing c with
  | nil => exact List.nodup_nil
  | cons it its ih =>
    obtain ⟨hhead, hunique⟩ := List.pairwise_cons.mp hunique
    have hempty' := fun it hit ↦ hempty it (List.mem_cons_of_mem _ hit)
    have hflag' := fun it hit ↦ hflag it (List.mem_cons_of_mem _ hit)
    -- what another file called `kernel.bin` owns
    have hnone : ∀ {c r}, r ∈ assignNat c its → r.1.kernel = true → ¬ r.1.IsKernel →
        Item.own r = [] := fun {c r} hr hk hno ↦ by
      obtain ⟨hmem, hlen, -⟩ := mem_assignNat hr
      rw [Item.own, if_neg hno]
      exact List.eq_nil_of_length_eq_zero (hlen.trans (hempty' _ hmem hk hno))
    rw [assignNat, List.flatMap_cons, List.nodup_append]
    cases hk : it.kernel with
    | true =>
      rw [avoidsHole_cons_of_kernel hk] at havoid
      rw [Item.nextNat_of_kernel hk]
      refine ⟨?_, ih havoid hempty' hflag' hunique, fun x hx y hy hxy ↦ ?_⟩
      · rw [Item.own]
        split_ifs
        · exact List.nodup_range'
        · exact List.nodup_range'
      · obtain ⟨r, hr, hy⟩ := List.mem_flatMap.mp hy
        by_cases hK : it.IsKernel
        · rw [Item.own, if_pos hK] at hx
          by_cases hrK : r.1.IsKernel
          · exact hhead _ (mem_assignNat hr).1 ⟨hK, hrK⟩
          · cases hrk : r.1.kernel with
            | true =>
              rw [hnone hr hrk hrK] at hy
              exact absurd hy List.not_mem_nil
            | false =>
              rw [Item.own, if_neg hrK] at hy
              exact havoid r hr hrk y hy (hxy ▸ hx)
        · rw [Item.own, if_neg hK, hempty it List.mem_cons_self hk hK] at hx
          exact absurd hx List.not_mem_nil
    | false =>
      have hK : ¬ it.IsKernel := fun hK ↦ by
        have := hflag it List.mem_cons_self hK
        rw [hk] at this
        exact absurd this (by decide)
      rw [avoidsHole_cons_of_not_kernel hk] at havoid
      rw [(Item.start_le hk c).2, Item.own, if_neg hK]
      refine ⟨List.nodup_range', ih havoid.2 hempty' hflag' hunique, fun x hx y hy hxy ↦ ?_⟩
      obtain ⟨r, hr, hy⟩ := List.mem_flatMap.mp hy
      by_cases hrK : r.1.IsKernel
      · rw [Item.own, if_pos hrK] at hy
        exact havoid.1 x hx (hxy ▸ hy)
      · cases hrk : r.1.kernel with
        | true =>
          rw [hnone hr hrk hrK] at hy
          exact absurd hy List.not_mem_nil
        | false =>
          rw [Item.own, if_neg hrK] at hy
          have h₁ := le_of_mem_assignNat hr hrk y hy
          have h₂ := (List.mem_range'_1.mp hx).2
          omega

/-- The owners have at least the blocks they need, and the kernel seven. -/
theorem totalCount_le_length (hflag : ∀ it ∈ its, it.IsKernel → it.kernel = true) (c : ℕ) :
    totalCount (plainItems its) + 7 * its.countP (fun it ↦ decide it.IsKernel) ≤
      ((assign c its).flatMap Item.own).length := by
  induction its generalizing c with
  | nil => exact Nat.le_refl 0
  | cons it its ih =>
    have ih' := ih (fun it hit ↦ hflag it (List.mem_cons_of_mem _ hit)) (it.next c)
    rw [assign, List.flatMap_cons, List.length_append, List.countP_cons]
    by_cases hK : it.IsKernel
    · rw [plainItems_cons_of_kernel (hflag it List.mem_cons_self hK), if_pos (decide_eq_true hK),
        Item.own, if_pos hK, List.length_range']
      omega
    · rw [if_neg (by simpa using hK), Item.own, if_neg hK, blocksFrom, List.length_map,
        List.length_range]
      cases hk : it.kernel with
      | true =>
        rw [plainItems_cons_of_kernel hk]
        omega
      | false =>
        rw [plainItems_cons_of_not_kernel hk, totalCount_cons]
        omega

theorem LeavesHole.le {c : ℕ} (h : LeavesHole c its) : c ≤ 7 := by
  obtain ⟨l₁, l₂, -, hsplit⟩ := h
  omega

/-- Blocks are numbers of 32 bits. -/
theorem lt_of_mem_assign {c b : ℕ} {r : Item × List ℕ} (hr : r ∈ assign c its) (hb : b ∈ r.2) :
    b < 2 ^ 32 := by
  induction its generalizing c with
  | nil => exact absurd hr List.not_mem_nil
  | cons it its ih =>
    rcases List.mem_cons.mp hr with rfl | hr
    · obtain ⟨i, -, rfl⟩ := List.mem_map.mp hb
      exact Nat.mod_lt _ (by decide)
    · exact ih hr

theorem lt_of_mem_own {c b : ℕ} (hb : b ∈ (assign c its).flatMap Item.own) : b < 2 ^ 32 := by
  obtain ⟨r, hr, hb⟩ := List.mem_flatMap.mp hb
  rw [Item.own] at hb
  split_ifs at hb
  · have := (List.mem_range'_1.mp hb).2
    omega
  · exact lt_of_mem_assign hr hb

variable {c : ℕ} (hpos : 0 < c) (hlt : c < 2 ^ 32)
  (hflag : ∀ it ∈ its, it.IsKernel → it.kernel = true)
  (hdir : ∀ it ∈ its, it.fileType ≠ fileTypeFile → 0 < it.count)
  (hcount : ∀ it ∈ its, it.kernel = true → 7 + it.count ≤ 2 ^ 32)
include hpos hlt hflag hdir hcount

/-- If no block has two owners, the items leave the hole. -/
theorem leavesHole_of_nodup (hkernel : ∃ it ∈ its, it.IsKernel)
    (hnodup : ((assign c its).flatMap Item.own).Nodup)
    (hdata : ∀ b ∈ (assign c its).flatMap Item.own, c ≤ b) :
    (∀ it ∈ its, it.kernel = true → ¬ it.IsKernel → it.count = 0) ∧
      LeavesHole c (plainItems its) ∧ c + 7 + totalCount (plainItems its) ≤ 2 ^ 32 := by
  obtain ⟨itK, hitK, hK⟩ := hkernel
  -- count the blocks
  have hfew : c + 7 + totalCount (plainItems its) ≤ 2 ^ 32 := by
    have hone : 0 < its.countP fun it ↦ decide it.IsKernel :=
      List.countP_pos_iff.mpr ⟨itK, hitK, decide_eq_true hK⟩
    have hlen := totalCount_le_length hflag c
    have hcard : ((assign c its).flatMap Item.own).length ≤ 2 ^ 32 - c := by
      rw [← List.toFinset_card_of_nodup hnodup, ← Nat.card_Ico]
      refine Finset.card_le_card fun b hb ↦ ?_
      have hb := List.mem_toFinset.mp hb
      exact Finset.mem_Ico.mpr ⟨hdata b hb, lt_of_mem_own hb⟩
    omega
  have hnat : assign c its = assignNat c its :=
    assign_eq_assignNat hpos hlt (by rw [hole]; split_ifs <;> omega) hcount
  rw [hnat] at hnodup hdata
  obtain ⟨rK, hrK, hrKeq⟩ := exists_mem_assignNat hitK c
  have hown : Item.own rK = List.range' 7 7 := by rw [Item.own, if_pos (hrKeq ▸ hK)]
  have hseven : c ≤ 7 := hdata 7 (List.mem_flatMap.mpr
    ⟨rK, hrK, by rw [hown]; exact List.mem_range'_1.mpr (by omega)⟩)
  -- who owns a block of the hole is the kernel
  have hsame : ∀ r ∈ assignNat c its, ∀ x ∈ Item.own r, x ∈ List.range' 7 7 → r = rK := by
    intro r hr x hx hx'
    by_contra hne
    have hpair := (List.nodup_flatMap.mp hnodup).2
    have hsymm : Std.Symm (Function.onFun List.Disjoint Item.own) := ⟨fun a b h ↦ h.symm⟩
    exact hpair.forall hr hrK hne hx (by rw [hown]; exact hx')
  refine ⟨fun it hit hk hno ↦ ?_, (avoidsHole_iff hseven hdir).mp fun r hr hk x hx hx' ↦ ?_, hfew⟩
  · by_contra hne
    obtain ⟨r, hr, rfl⟩ := exists_mem_assignNat hit c
    have hr7 : (7 : ℕ) ∈ Item.own r := by
      rw [Item.own, if_neg hno, (mem_assignNat hr).2.2 hk]
      exact List.mem_range'_1.mpr (by omega)
    have := hsame r hr 7 hr7 (List.mem_range'_1.mpr (by omega))
    exact hno (this ▸ hrKeq ▸ hK)
  · have hno : ¬ r.1.IsKernel := fun hrK' ↦ by
      have := hflag r.1 (mem_assignNat hr).1 hrK'
      rw [hk] at this
      exact absurd this (by decide)
    have := hsame r hr x (by rw [Item.own, if_neg hno]; exact hx) hx'
    exact hno (this ▸ hrKeq ▸ hK)

/-- If the items leave the hole, no block has two owners. -/
theorem nodup_of_leavesHole
    (hunique : its.Pairwise fun a b ↦ ¬ (a.IsKernel ∧ b.IsKernel))
    (hempty : ∀ it ∈ its, it.kernel = true → ¬ it.IsKernel → it.count = 0)
    (hhole : LeavesHole c (plainItems its))
    (hfew : c + 7 + totalCount (plainItems its) ≤ 2 ^ 32) :
    ((assign c its).flatMap Item.own).Nodup ∧ ∀ b ∈ (assign c its).flatMap Item.own, c ≤ b := by
  have hseven := hhole.le
  have havoid := (avoidsHole_iff hseven hdir).mpr hhole
  rw [assign_eq_assignNat hpos hlt (by rw [hole, if_pos (by omega)]; exact hfew) hcount]
  refine ⟨nodup_own havoid hempty hflag hunique, fun b hb ↦ ?_⟩
  obtain ⟨r, hr, hb⟩ := List.mem_flatMap.mp hb
  rw [Item.own] at hb
  split_ifs at hb with hK
  · exact Nat.le_trans hseven (List.mem_range'_1.mp hb).1
  · cases hk : r.1.kernel with
    | true =>
      obtain ⟨hmem, hlen, -⟩ := mem_assignNat hr
      rw [List.eq_nil_of_length_eq_zero (hlen.trans (hempty _ hmem hk hK))] at hb
      exact absurd hb List.not_mem_nil
    | false => exact le_of_mem_assignNat hr hk b hb

end Owners

/-! ## The tree -/

mutual

/-- The file, or the directory with all that is in it, fits into the direct pointers of an inode. -/
def Host.Fits : Host → Prop
  | .file _ contents => contents.length ≤ 7 * fsBlock
  | .dir _ entries => (2 + entries.length) * dirEntryBytes ≤ 7 * fsBlock ∧ EntriesFit entries

/-- All entries fit. -/
def EntriesFit : List Host → Prop
  | [] => True
  | h :: hs => h.Fits ∧ EntriesFit hs

end

/-- The tree that is formatted: `prekernel.bin` and `kernel.bin` are files of the root, in which each
name occurs once, and everything fits. -/
structure IsHostTree (entries : List Host) : Prop where
  names : (entries.map Host.name).Nodup
  prekernel : ∃ contents, Host.file prekernelBin contents ∈ entries
  kernel : ∃ contents, Host.file kernelBin contents ∈ entries
  root : (2 + entries.length) * dirEntryBytes ≤ 7 * fsBlock
  fits : EntriesFit entries

/-- What the items of a tree that fits have in common. -/
structure Item.Sized (it : Item) : Prop where
  dir : it.fileType ≠ fileTypeFile → 0 < it.count
  count : it.count ≤ 7
  file : it.kernel = true → it.fileType = fileTypeFile
  kernel : it.fileType = fileTypeFile → it.path.getLast? = some kernelBin → it.kernel = true

theorem sized_dir {path : List (List UInt8)} {n : ℕ} (h : (2 + n) * dirEntryBytes ≤ 7 * fsBlock) :
    Item.Sized ⟨path, fileTypeDir, false, bytesToBlocks (dirSize n)⟩ := by
  rw [dirEntryBytes, fsBlock] at h
  have hsize : dirSize n = (2 + n) * 64 := Nat.mod_eq_of_lt (by rw [dirEntryBytes]; omega)
  refine ⟨fun _ ↦ ?_, ?_, fun hh ↦ absurd hh Bool.false_ne_true,
    fun hh ↦ absurd hh (show ¬ fileTypeDir = fileTypeFile by decide)⟩ <;>
    dsimp only <;>
    rw [hsize, bytesToBlocks_eq] <;> omega

mutual

theorem Host.sized (path : List (List UInt8)) :
    ∀ h : Host, h.Fits → ∀ it ∈ h.items path, it.Sized
  | .file name contents, hfit, it, hit => by
    rw [Host.Fits] at hfit
    rw [Host.items, List.mem_singleton] at hit
    subst hit
    rw [fsBlock] at hfit
    refine ⟨fun hh ↦ absurd rfl hh, ?_, fun _ ↦ rfl, fun _ hlast ↦ ?_⟩
    · dsimp only
      rw [Nat.mod_eq_of_lt (by omega), bytesToBlocks_eq]
      omega
    · dsimp only at hlast ⊢
      rw [List.getLast?_concat, Option.some.injEq] at hlast
      exact decide_eq_true hlast
  | .dir name entries, hfit, it, hit => by
    rw [Host.Fits] at hfit
    rw [Host.items] at hit
    rcases List.mem_cons.mp hit with rfl | hit
    · exact sized_dir hfit.1
    · exact entriesSized (path ++ [name]) entries hfit.2 it hit

theorem entriesSized (path : List (List UInt8)) :
    ∀ entries : List Host, EntriesFit entries → ∀ it ∈ entriesItems path entries, it.Sized
  | [], _, it, hit => by
    rw [entriesItems] at hit
    exact absurd hit List.not_mem_nil
  | h :: hs, hfit, it, hit => by
    rw [EntriesFit] at hfit
    rw [entriesItems] at hit
    rcases List.mem_append.mp hit with hit | hit
    · exact Host.sized path h hfit.1 it hit
    · exact entriesSized path hs hfit.2 it hit

end

mutual

/-- The path of an item goes on from where the walk began. -/
theorem Host.prefix_items (path : List (List UInt8)) :
    ∀ h : Host, ∀ it ∈ h.items path, path ++ [h.name] <+: it.path
  | .file name contents, it, hit => by
    rw [Host.items, List.mem_singleton] at hit
    subst hit
    exact List.prefix_rfl
  | .dir name entries, it, hit => by
    rw [Host.items] at hit
    rcases List.mem_cons.mp hit with rfl | hit
    · exact List.prefix_rfl
    · exact (prefix_entriesItems (path ++ [name]) entries it hit).1

theorem prefix_entriesItems (path : List (List UInt8)) :
    ∀ entries : List Host, ∀ it ∈ entriesItems path entries,
      path <+: it.path ∧ path.length < it.path.length
  | [], it, hit => by
    rw [entriesItems] at hit
    exact absurd hit List.not_mem_nil
  | h :: hs, it, hit => by
    rw [entriesItems] at hit
    rcases List.mem_append.mp hit with hit | hit
    · have hpre := Host.prefix_items path h it hit
      refine ⟨(List.prefix_append _ _).trans hpre, ?_⟩
      have := hpre.length_le
      rw [List.length_append, List.length_singleton] at this
      omega
    · exact prefix_entriesItems path hs it hit

end

/-- The kernel's item comes from the kernel in the root. -/
theorem Host.isKernel_items {h : Host} {it : Item} (hit : it ∈ h.items []) (hK : it.IsKernel) :
    h.name = kernelBin ∧ h.items [] = [it] := by
  have hpre := h.prefix_items [] it hit
  rw [hK.1, List.nil_append] at hpre
  have hname : h.name = kernelBin := List.singleton_inj.mp (hpre.eq_of_length rfl)
  refine ⟨hname, ?_⟩
  cases h with
  | file name contents =>
    rw [Host.items, List.mem_singleton] at hit
    rw [Host.items, hit]
  | dir name entries =>
    rw [Host.items] at hit
    rcases List.mem_cons.mp hit with rfl | hit
    · exact absurd hK.2 (show ¬ fileTypeDir = fileTypeFile by decide)
    · have := (prefix_entriesItems ([] ++ [name]) entries it hit).2
      rw [hK.1] at this
      exact absurd this (by simp)

/-- There is only one. -/
theorem pairwise_entriesItems {entries : List Host} (h : (entries.map Host.name).Nodup) :
    (entriesItems [] entries).Pairwise fun a b ↦ ¬ (a.IsKernel ∧ b.IsKernel) := by
  induction entries with
  | nil =>
    rw [entriesItems]
    exact List.Pairwise.nil
  | cons hd hs ih =>
    rw [List.map_cons, List.nodup_cons] at h
    rw [entriesItems, List.pairwise_append]
    refine ⟨?_, ih h.2, fun a ha b hb ⟨haK, hbK⟩ ↦ ?_⟩
    · by_cases hex : ∃ it ∈ hd.items [], it.IsKernel
      · obtain ⟨it, hit, hK⟩ := hex
        rw [(Host.isKernel_items hit hK).2]
        exact List.pairwise_singleton ..
      · exact List.Pairwise.imp_of_mem (fun ha _ _ hh ↦ hex ⟨_, ha, hh.1⟩)
          (List.pairwise_of_forall (R := fun _ _ ↦ True) fun _ _ ↦ trivial)
    · have hmem : ∀ {hs : List Host}, b ∈ entriesItems [] hs → kernelBin ∈ hs.map Host.name := by
        intro hs hb
        induction hs with
        | nil =>
          rw [entriesItems] at hb
          exact absurd hb List.not_mem_nil
        | cons h' hs ih' =>
          rw [entriesItems] at hb
          rw [List.map_cons, List.mem_cons]
          rcases List.mem_append.mp hb with hb | hb
          · exact Or.inl (Host.isKernel_items hb hbK).1.symm
          · exact Or.inr (ih' hb)
      exact h.1 ((Host.isKernel_items ha haK).1 ▸ hmem hb)

theorem mem_entriesItems {entries : List Host} {h : Host} (hh : h ∈ entries)
    {path : List (List UInt8)} {it : Item} (hit : it ∈ h.items path) :
    it ∈ entriesItems path entries := by
  induction entries with
  | nil => exact absurd hh List.not_mem_nil
  | cons hd hs ih =>
    rw [entriesItems]
    rcases List.mem_cons.mp hh with rfl | hh
    · exact List.mem_append_left _ hit
    · exact List.mem_append_right _ (ih hh)

/-- The data begins behind the superblock, at a number of 32 bits. -/
theorem firstDataBlock_bounds (info : FileInfo) :
    2 ≤ (writeSuperblock info).firstDataBlock ∧ (writeSuperblock info).firstDataBlock < 2 ^ 32 := by
  have hinodes : (info.numFiles + 2) % 2 ^ 32 < 2 ^ 32 := Nat.mod_lt _ (by decide)
  rw [writeSuperblock]
  dsimp only
  generalize (info.numFiles + 2) % 2 ^ 32 = numInodes at hinodes ⊢
  generalize hdata : (bytesToBlocks diskSize + 2 ^ 33 - _ - _ - 1) % 2 ^ 32 = dataBlocks
  have hblocks : dataBlocks < 2 ^ 32 := by
    rw [← hdata]
    exact Nat.mod_lt _ (by decide)
  rw [inodesPerBlock, inodeBytes, fsBlock]
  split_ifs <;> omega

/-- What the files and directories own, in terms of the items. -/
theorem owns_formatTree (entries : List Host) : (formatTree entries).placed.flatMap Placed.owns =
    (assign (writeSuperblock (getFileInfo entries)).firstDataBlock (treeItems entries)).flatMap
      Item.own := by
  have hseven : blocksFrom 7 7 = List.range' 7 7 := blocksFrom_eq (by decide)
  let own : Owner → List ℕ := fun o ↦
    if o.1 = [kernelBin] ∧ o.2.1 = fileTypeFile then List.range' 7 7 else o.2.2
  calc (formatTree entries).placed.flatMap Placed.owns
      = ((formatTree entries).placed.map Placed.owner).flatMap own := by
        rw [List.flatMap_map]
        refine List.flatMap_congr fun p _ ↦ ?_
        rw [Placed.owns, hseven]
        rfl
    _ = _ := by
        rw [(formatTree_owners entries).2, List.flatMap_map]
        rfl

namespace IsHostTree

variable {entries : List Host} (h : IsHostTree entries)
include h

theorem sized : ∀ it ∈ treeItems entries, it.Sized := fun it hit ↦ by
  rcases List.mem_cons.mp hit with rfl | hit
  · exact sized_dir h.root
  · exact entriesSized [] entries h.fits it hit

theorem kernel_of_isKernel : ∀ it ∈ treeItems entries, it.IsKernel → it.kernel = true :=
  fun it hit hK ↦ (h.sized it hit).kernel hK.2 (by rw [hK.1]; rfl)

theorem pairwise_not_isKernel :
    (treeItems entries).Pairwise fun a b ↦ ¬ (a.IsKernel ∧ b.IsKernel) :=
  List.pairwise_cons.mpr ⟨fun _ _ hh ↦ absurd hh.1.1 (by simp), pairwise_entriesItems h.names⟩

theorem exists_isKernel : ∃ it ∈ treeItems entries, it.IsKernel := by
  obtain ⟨contents, hmem⟩ := h.kernel
  refine ⟨⟨[kernelBin], fileTypeFile, decide (kernelBin = kernelBin),
    bytesToBlocks (contents.length % 2 ^ 32)⟩,
    List.mem_cons_of_mem _ (mem_entriesItems hmem ?_), rfl, rfl⟩
  rw [Host.items, List.mem_singleton]
  rfl

theorem count_le : ∀ it ∈ treeItems entries, it.kernel = true → 7 + it.count ≤ 2 ^ 32 :=
  fun it hit _ ↦ by
    have := (h.sized it hit).count
    omega

/-- Where no block has two owners, the tree keeps the hole for the kernel. -/
theorem keepsHole (hone : OneOwner entries) : KeepsHole entries := by
  have hsuper := (formatTree_owners entries).1
  have howned := owns_formatTree entries
  obtain ⟨hpos, hlt⟩ := firstDataBlock_bounds (getFileInfo entries)
  obtain ⟨hempty, hhole, hfew⟩ := leavesHole_of_nodup (by omega) hlt h.kernel_of_isKernel
    (fun it hit ↦ (h.sized it hit).dir) h.count_le h.exists_isKernel (howned ▸ hone.distinct)
    (by rw [← howned, ← hsuper]; exact hone.data)
  exact ⟨fun it hit hk hne ↦ hempty it hit hk fun hK ↦ hne hK.1, hsuper ▸ hhole, hsuper ▸ hfew⟩

/-- A tree that keeps the hole has one owner for each block. -/
theorem oneOwner (hkeeps : KeepsHole entries) : OneOwner entries := by
  have hsuper := (formatTree_owners entries).1
  have howned := owns_formatTree entries
  obtain ⟨hpos, hlt⟩ := firstDataBlock_bounds (getFileInfo entries)
  have hempty : ∀ it ∈ treeItems entries, it.kernel = true → ¬ it.IsKernel → it.count = 0 :=
    fun it hit hk hno ↦ hkeeps.kernels it hit hk fun hpath ↦ hno ⟨hpath, (h.sized it hit).file hk⟩
  obtain ⟨hnodup, hdata⟩ := nodup_of_leavesHole (by omega) hlt h.kernel_of_isKernel
    (fun it hit ↦ (h.sized it hit).dir) h.count_le h.pairwise_not_isKernel hempty
    (hsuper ▸ hkeeps.hole) (by rw [← hsuper]; exact hkeeps.few)
  exact ⟨by rw [howned]; exact hnodup, by rw [howned, hsuper]; exact hdata⟩

end IsHostTree

/-- **Who owns which block.**  On a fresh image no block has two owners exactly if the tree keeps the
hole for the kernel. -/
theorem oneOwner_iff {entries : List Host} (h : IsHostTree entries) :
    OneOwner entries ↔ KeepsHole entries := ⟨h.keepsHole, h.oneOwner⟩

/-- A root directory of the two kernels, the first of `n` bytes. -/
def twoKernels (n : ℕ) : List Host :=
  [.file prekernelBin (List.replicate n 0x90), .file kernelBin [0x90]]

theorem twoKernels_isHostTree {n : ℕ} (h : n ≤ 7 * fsBlock) : IsHostTree (twoKernels n) := by
  have hnames : [prekernelBin, kernelBin].Nodup := by decide
  have hroot : (2 + 2) * dirEntryBytes ≤ 7 * fsBlock := by decide
  refine ⟨hnames, ⟨_, List.mem_cons_self⟩, ⟨_, List.mem_cons_of_mem _ List.mem_cons_self⟩, hroot, ?_⟩
  rw [twoKernels, EntriesFit, EntriesFit, EntriesFit, Host.Fits, Host.Fits, List.length_replicate]
  exact ⟨h, by decide, trivial⟩

theorem firstDataBlock_of_two {info : FileInfo} (h : info.numFiles = 2) :
    (writeSuperblock info).firstDataBlock = 4 := by
  rw [writeSuperblock]
  rw [h]
  rfl

theorem twoKernels_firstDataBlock (n : ℕ) :
    (formatTree (twoKernels n)).superblock.firstDataBlock = 4 := by
  rw [(formatTree_owners _).1]
  refine firstDataBlock_of_two ?_
  rw [getFileInfo, twoKernels, getFileInfoEntries, getFileInfoEntries, getFileInfoEntries,
    Host.getFileInfo, Host.getFileInfo]
  rfl

theorem twoKernels_plainItems {n : ℕ} (h : n < 2 ^ 32) : plainItems (treeItems (twoKernels n)) =
    [⟨[], fileTypeDir, false, 1⟩, ⟨[prekernelBin], fileTypeFile, false, (n + 4095) / 4096⟩] := by
  have hone : bytesToBlocks (dirSize 2) = 1 := by decide
  have hname : decide (prekernelBin = kernelBin) = false := by decide
  have hn : bytesToBlocks (n % 2 ^ 32) = (n + 4095) / 4096 := by
    rw [Nat.mod_eq_of_lt h, bytesToBlocks_eq]
  rw [treeItems, twoKernels, entriesItems, entriesItems, entriesItems, Host.items, Host.items,
    List.length_replicate, hn, hname]
  show plainItems [⟨[], fileTypeDir, false, bytesToBlocks (dirSize 2)⟩, _, _] = _
  rw [hone]
  rfl

/-- The two kernels fit around the hole if the first has two blocks. -/
theorem oneOwner_twoKernels : OneOwner (twoKernels 8192) := by
  refine (oneOwner_iff (twoKernels_isHostTree (by decide))).mpr ⟨fun it hit hk hne ↦ ?_, ?_, ?_⟩
  · have hmem : it ∈ (treeItems (twoKernels 8192)).filter fun it ↦ it.kernel :=
      List.mem_filter.mpr ⟨hit, hk⟩
    have hitems : ((treeItems (twoKernels 8192)).filter fun it ↦ it.kernel) =
        [⟨[kernelBin], fileTypeFile, true, 1⟩] := by
      rw [treeItems, twoKernels, entriesItems, entriesItems, entriesItems, Host.items, Host.items]
      rfl
    rw [hitems, List.mem_singleton] at hmem
    exact absurd (congrArg Item.path hmem) hne
  · rw [twoKernels_firstDataBlock, twoKernels_plainItems (by decide)]
    exact ⟨_, [], (List.append_nil _).symm, Or.inl ⟨rfl, by decide⟩⟩
  · rw [twoKernels_firstDataBlock, twoKernels_plainItems (by decide)]
    decide

/-- With four blocks it reaches into the kernel. -/
theorem not_oneOwner_twoKernels : IsHostTree (twoKernels 16384) ∧ ¬ OneOwner (twoKernels 16384) := by
  have h : IsHostTree (twoKernels 16384) := twoKernels_isHostTree (by decide)
  refine ⟨h, fun hone ↦ ?_⟩
  obtain ⟨l₁, l₂, heq, hsplit⟩ := (h.keepsHole hone).hole
  rw [twoKernels_firstDataBlock] at hsplit
  rw [twoKernels_plainItems (by decide)] at heq
  match l₁, heq with
  | [], heq =>
    rcases hsplit with ⟨rfl, -⟩ | ⟨hsum, -⟩
    · exact absurd heq (by simp)
    · exact absurd hsum (by decide)
  | [a], heq =>
    rw [List.cons_append, List.nil_append, List.cons.injEq] at heq
    obtain ⟨rfl, rfl⟩ := heq
    rcases hsplit with ⟨hnil, -⟩ | ⟨hsum, -⟩
    · exact absurd hnil (by simp)
    · exact absurd hsum (by decide)
  | a :: b :: l, heq =>
    rw [List.cons_append, List.cons_append, List.cons.injEq, List.cons.injEq] at heq
    obtain ⟨rfl, rfl, -⟩ := heq
    rw [totalCount_cons, totalCount_cons] at hsplit
    dsimp only at hsplit
    omega

end AbOS
