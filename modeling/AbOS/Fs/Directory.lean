import AbOS.Fs.CreateFile
import Mathlib.Data.List.Basic
import Mathlib.Data.List.TakeWhile
import Mathlib.Data.Nat.Find

/-!
# The links of a directory

What matters of a directory are its linked entries, in the order in which a lookup meets them:
`blockLinks` for one block, `Fs.links` for all of them.  A lookup searches this list
(`firstEntry_eq_find?`).

A write that does not touch a block leaves its links alone, and writing an entry over an empty piece
inserts it into the list (`blockLinks_splice`, `Fs.links_splice`).  Names must end within their 60
bytes for this: otherwise the name of one entry reaches into the next.
-/

set_option autoImplicit false

namespace AbOS

/-- The linked entries of the block at `a`, in order. -/
def blockLinks (disk : ByteStore) (a : ℕ) : List DirEntry :=
  ((List.range dirEntriesPerBlock).map (readDirEntry disk a)).filter fun e ↦ e.iNumber != 0

namespace Fs

/-- The linked entries of a directory, in the order in which a lookup meets them. -/
def links (fs : Fs) (dir : Inode) : List DirEntry :=
  (dirEntries fs.disk dir).filter fun e ↦ e.iNumber != 0

variable (fs : Fs)

theorem mem_links {dir : Inode} {e : DirEntry} :
    e ∈ fs.links dir ↔ e ∈ dirEntries fs.disk dir ∧ e.iNumber ≠ 0 := by
  rw [links, List.mem_filter, bne_iff_ne]

theorem links_eq (dir : Inode) : fs.links dir = (List.range (bytesToBlocks dir.size)).flatMap fun i ↦
    blockLinks fs.disk (sectorAddress (blockSector (dir.directPointers i))) := by
  rw [links, dirEntries, List.filter_flatMap]
  rfl

/-- A lookup stops at the first link of that name. -/
theorem firstEntry_eq_find? (dir : Inode) (name : List UInt8) :
    fs.firstEntry dir name = (fs.links dir).find? fun e ↦ e.name == name := by
  rw [firstEntry, links, List.find?_filter]
  simp only [Bool.decide_and, Bool.decide_eq_true]

end Fs

/-! ## Names -/

/-- The first zero byte ends a name. -/
theorem cString_slice_cases (m : ByteStore) (a n : ℕ) :
    (∃ k, k < n ∧ m (a + k) = 0 ∧ (∀ i, i < k → m (a + i) ≠ 0) ∧
      cString (m.slice a n) = m.slice a k) ∨ cString (m.slice a n) = m.slice a n := by
  by_cases h : ∃ k, k < n ∧ m (a + k) = 0
  · obtain ⟨hk, hzero⟩ := Nat.find_spec h
    have hne : ∀ i, i < Nat.find h → m (a + i) ≠ 0 := fun i hi hz ↦
      Nat.find_min h hi ⟨by omega, hz⟩
    exact Or.inl ⟨_, hk, hzero, hne, Fs.cString_slice hk hzero hne⟩
  · refine Or.inr (List.takeWhile_eq_self_iff.mpr fun b hb ↦ ?_)
    obtain ⟨i, hi, rfl⟩ := List.mem_map.mp hb
    exact bne_iff_ne.mpr fun hz ↦ h ⟨i, List.mem_range.mp hi, hz⟩

/-- A name that ends within 60 bytes depends on these bytes only. -/
theorem cString_slice_congr {m m' : ByteStore} {a n : ℕ} (hn : 60 ≤ n)
    (hlen : (cString (m.slice a n)).length ≤ 59) (h : ∀ i, i < 60 → m' (a + i) = m (a + i)) :
    cString (m'.slice a n) = cString (m.slice a n) := by
  rcases cString_slice_cases m a n with ⟨k, hk, hzero, hne, heq⟩ | heq
  · rw [heq, ByteStore.length_slice] at hlen
    rw [heq, Fs.cString_slice hk (by rw [h k (by omega)]; exact hzero) fun i hi ↦ by
      rw [h i (by omega)]; exact hne i hi]
    exact ByteStore.slice_congr fun i hi ↦ h i (by omega)
  · rw [heq, ByteStore.length_slice] at hlen
    omega

/-! ## One block -/

/-- The links of a block depend on the bytes of the block only. -/
theorem readDirEntry_congr {disk disk' : ByteStore} {a j : ℕ} (hj : j < dirEntriesPerBlock)
    (h : ∀ x, a ≤ x → x < a + fsBlock → disk' x = disk x) :
    readDirEntry disk' a j = readDirEntry disk a j := by
  have hper : dirEntriesPerBlock = 64 := rfl
  rw [fsBlock] at h
  rw [readDirEntry, readDirEntry]
  rw [dirEntryBytes, fsBlock]
  congr 1
  · exact ByteStore.readWord_congr fun k hk ↦ h _ (by omega) (by omega)
  · exact congrArg cString (ByteStore.slice_congr fun k hk ↦ h _ (by omega) (by omega))

theorem blockLinks_congr {disk disk' : ByteStore} {a : ℕ}
    (h : ∀ x, a ≤ x → x < a + fsBlock → disk' x = disk x) : blockLinks disk' a = blockLinks disk a := by
  rw [blockLinks, blockLinks, List.map_congr_left fun j hj ↦
    readDirEntry_congr (List.mem_range.mp hj) h]

/-- Functions that agree where they pass a filter have the same filtered values. -/
theorem filter_map_congr {l : List ℕ} {f f' : ℕ → DirEntry} {p : DirEntry → Bool}
    (h : ∀ j ∈ l, p (f' j) = p (f j) ∧ (p (f j) = true → f' j = f j)) :
    (l.map f').filter p = (l.map f).filter p := by
  induction l with
  | nil => rfl
  | cons j l ih =>
    obtain ⟨hp, heq⟩ := h j List.mem_cons_self
    have hl := ih fun i hi ↦ h i (List.mem_cons_of_mem _ hi)
    rw [List.map_cons, List.map_cons, List.filter_cons, List.filter_cons, hp, hl]
    by_cases hj : p (f j) = true
    · rw [if_pos hj, if_pos hj, heq hj]
    · rw [if_neg hj, if_neg hj]

/-- What stands at an entry that has just been written. -/
theorem readDirEntry_splice (disk : ByteStore) (a : ℕ) {j : ℕ} {e : DirEntry}
    (hj : j < dirEntriesPerBlock) (hnum : e.iNumber < 2 ^ 32) (hname : e.name.length ≤ 59)
    (hzero : (0 : UInt8) ∉ e.name) :
    readDirEntry (disk.splice (a + j * dirEntryBytes) e.bytes) a j = e := by
  have hlen := e.length_bytes hname
  have hper : dirEntriesPerBlock = 64 := rfl
  rw [dirEntryBytes] at *
  have hget : ∀ i, i < 60 → disk.splice (a + j * 64) e.bytes (a + j * 64 + 4 + i) =
      (e.name ++ List.replicate (60 - e.name.length) 0).getD i 0 := fun i hi ↦ by
    rw [Nat.add_assoc, ByteStore.splice_of_mem (by omega), DirEntry.bytes,
      List.getD_append_right _ _ _ _ (by rw [ByteStore.length_leBytes]; omega),
      ByteStore.length_leBytes, Nat.add_sub_cancel_left]
  have hname' : ∀ i, i < e.name.length →
      disk.splice (a + j * 64) e.bytes (a + j * 64 + 4 + i) = e.name.getD i 0 := fun i hi ↦ by
    rw [hget i (by omega), List.getD_append _ _ _ _ hi]
  have hend : disk.splice (a + j * 64) e.bytes (a + j * 64 + 4 + e.name.length) = 0 := by
    rw [hget _ (by omega), List.getD_append_right _ _ _ _ (Nat.le_refl _), Nat.sub_self]
    rw [List.getD_eq_getElem _ _ (by rw [List.length_replicate]; omega), List.getElem_replicate]
  obtain ⟨number, name⟩ := e
  rw [readDirEntry]
  rw [dirEntryBytes, fsBlock]
  congr 1
  · have hword := ByteStore.slice_splice_self disk (a + j * 64) (DirEntry.bytes ⟨number, name⟩)
    rw [hlen, show 64 = 4 + 60 from rfl, ByteStore.slice_append, DirEntry.bytes] at hword
    obtain ⟨hword, -⟩ := List.append_inj hword (by
      rw [ByteStore.length_slice, ByteStore.length_leBytes])
    rw [ByteStore.readWord, DirEntry.bytes, hword, ByteStore.ofLe_leBytes]
    exact Nat.mod_eq_of_lt hnum
  · dsimp only at hname hname' hend hzero hlen ⊢
    rw [Fs.cString_slice (k := name.length) (by omega) hend fun i hi ↦ ?_]
    · refine List.ext_getElem (by simp) fun i h₁ h₂ ↦ ?_
      rw [← List.getD_eq_getElem _ 0 h₁, ByteStore.getD_slice _ _ _ _ h₂, hname' i h₂,
        List.getD_eq_getElem _ _ h₂]
    · rw [hname' i hi, List.getD_eq_getElem _ _ hi]
      exact fun hz ↦ hzero (hz ▸ List.getElem_mem hi)

/-- **An entry written over an empty piece is inserted into the links of the block.** -/
theorem blockLinks_splice {disk : ByteStore} {a j : ℕ} {e : DirEntry} (hj : j < dirEntriesPerBlock)
    (hempty : disk.readWord (a + j * dirEntryBytes) = 0) (hnum : e.iNumber ≠ 0)
    (hnum' : e.iNumber < 2 ^ 32) (hname : e.name.length ≤ 59) (hzero : (0 : UInt8) ∉ e.name)
    (hnames : ∀ e' ∈ blockLinks disk a, e'.name.length ≤ 59) :
    ∃ l₁ l₂, blockLinks disk a = l₁ ++ l₂ ∧
      blockLinks (disk.splice (a + j * dirEntryBytes) e.bytes) a = l₁ ++ e :: l₂ := by
  have hlen := e.length_bytes hname
  have hnew := readDirEntry_splice disk a hj hnum' hname hzero
  have hper : dirEntriesPerBlock = 64 := rfl
  generalize hdisk : disk.splice (a + j * dirEntryBytes) e.bytes = disk' at hnew ⊢
  have hout : ∀ x, x < a + j * 64 ∨ a + j * 64 + 64 ≤ x → disk' x = disk x := fun x hx ↦ by
    rw [← hdisk]
    exact ByteStore.splice_of_not_mem (by rw [hlen]; exact hx)
  -- entries at other places are linked as before, and then they are the same
  have hother : ∀ i, i < 64 → i ≠ j →
      ((readDirEntry disk' a i).iNumber != 0) = ((readDirEntry disk a i).iNumber != 0) ∧
      (((readDirEntry disk a i).iNumber != 0) = true →
        readDirEntry disk' a i = readDirEntry disk a i) := fun i hi hij ↦ by
    have hword : (readDirEntry disk' a i).iNumber = (readDirEntry disk a i).iNumber :=
      ByteStore.readWord_congr fun k hk ↦ hout _ (by rw [dirEntryBytes]; omega)
    refine ⟨by rw [hword], fun hlinked ↦ ?_⟩
    have hshort : (readDirEntry disk a i).name.length ≤ 59 :=
      hnames _ (List.mem_filter.mpr ⟨List.mem_map_of_mem (List.mem_range.mpr hi), hlinked⟩)
    have hsame : (readDirEntry disk' a i).name = (readDirEntry disk a i).name :=
      cString_slice_congr (by rw [fsBlock, dirEntryBytes]; omega) hshort fun k hk ↦
        hout _ (by rw [dirEntryBytes]; omega)
    calc readDirEntry disk' a i
        = ⟨(readDirEntry disk' a i).iNumber, (readDirEntry disk' a i).name⟩ := rfl
      _ = readDirEntry disk a i := by rw [hword, hsame]
  have hsplit : List.range dirEntriesPerBlock =
      List.range j ++ j :: (List.range (63 - j)).map (j + 1 + ·) := by
    rw [hper, show (64 : ℕ) = j + (1 + (63 - j)) by omega, List.range_add, List.range_add]
    simp [List.map_map, Function.comp_def, Nat.add_assoc]
  have hold : (readDirEntry disk a j).iNumber = 0 := hempty
  refine ⟨((List.range j).map (readDirEntry disk a)).filter fun e ↦ e.iNumber != 0,
    (((List.range (63 - j)).map (j + 1 + ·)).map (readDirEntry disk a)).filter
      fun e ↦ e.iNumber != 0, ?_, ?_⟩
  · rw [blockLinks, hsplit, List.map_append, List.filter_append, List.map_cons,
      List.filter_cons_of_neg (by rw [hold]; decide)]
  · rw [blockLinks, hsplit, List.map_append, List.filter_append, List.map_cons, hnew,
      List.filter_cons_of_pos (by rwa [bne_iff_ne])]
    congr 1
    · exact filter_map_congr fun i hi ↦ by
        have := List.mem_range.mp hi
        exact hother i (by omega) (by omega)
    · congr 1
      refine filter_map_congr fun i hi ↦ ?_
      obtain ⟨r, hr, rfl⟩ := List.mem_map.mp hi
      have := List.mem_range.mp hr
      exact hother _ (by omega) (by omega)

/-! ## The empty entry -/

theorem emptyEntry_some {disk : ByteStore} {dir : Inode} {blocks i j : ℕ}
    (h : emptyEntry disk dir blocks = some (i, j)) : i < blocks ∧ j < dirEntriesPerBlock ∧
      disk.readWord (sectorAddress (blockSector (dir.directPointers i)) + j * dirEntryBytes) = 0 := by
  obtain ⟨i', hi, hfind⟩ := List.exists_of_findSome?_eq_some h
  obtain ⟨j', hj, heq⟩ := Option.map_eq_some_iff.mp hfind
  cases heq
  have hzero := List.find?_some hj
  exact ⟨List.mem_range.mp hi, List.mem_range.mp (List.mem_of_find?_eq_some hj),
    beq_iff_eq.mp hzero⟩

theorem emptyEntry_none {disk : ByteStore} {dir : Inode} {blocks : ℕ}
    (h : emptyEntry disk dir blocks = none) {i j : ℕ} (hi : i < blocks)
    (hj : j < dirEntriesPerBlock) :
    disk.readWord (sectorAddress (blockSector (dir.directPointers i)) + j * dirEntryBytes) ≠ 0 := by
  have hnone := List.findSome?_eq_none_iff.mp h i (List.mem_range.mpr hi)
  rw [Option.map_eq_none_iff] at hnone
  have := List.find?_eq_none.mp hnone j (List.mem_range.mpr hj)
  rwa [beq_iff_eq] at this

namespace Fs

variable {fs fs' : Fs} {dir dir' : Inode}

/-- Without an empty piece all entries are linked. -/
theorem length_links_of_full (dir : Inode)
    (h : ∀ i j, i < bytesToBlocks dir.size → j < dirEntriesPerBlock → fs.disk.readWord
      (sectorAddress (blockSector (dir.directPointers i)) + j * dirEntryBytes) ≠ 0) :
    (fs.links dir).length = bytesToBlocks dir.size * dirEntriesPerBlock := by
  have hall : (dirEntries fs.disk dir).filter (fun e ↦ e.iNumber != 0) = dirEntries fs.disk dir := by
    refine List.filter_eq_self.mpr fun e he ↦ ?_
    obtain ⟨i, hi, j, hj, rfl⟩ := fs.mem_dirEntries.mp he
    exact bne_iff_ne.mpr (h i j hi hj)
  rw [links, hall, dirEntries, List.length_flatMap]
  simp only [List.length_map, List.length_range, List.map_const', List.sum_replicate_nat]

/-- The links depend on the number of blocks, the pointers to them and what stands in them. -/
theorem links_congr (hsize : bytesToBlocks dir'.size = bytesToBlocks dir.size)
    (hptr : ∀ i, i < bytesToBlocks dir.size → dir'.directPointers i = dir.directPointers i)
    (hdata : ∀ i x, i < bytesToBlocks dir.size →
      sectorAddress (blockSector (dir.directPointers i)) ≤ x →
      x < sectorAddress (blockSector (dir.directPointers i)) + fsBlock → fs'.disk x = fs.disk x) :
    fs'.links dir' = fs.links dir := by
  rw [links_eq, links_eq, hsize]
  refine List.flatMap_congr fun i hi ↦ ?_
  have hi' := List.mem_range.mp hi
  rw [hptr i hi']
  exact blockLinks_congr fun x h₁ h₂ ↦ hdata i x hi' h₁ h₂

/-- **Writing an entry over an empty piece of a directory inserts it into its links.** -/
theorem links_splice {i j : ℕ} {e : DirEntry}
    (hsize : bytesToBlocks dir'.size = bytesToBlocks dir.size)
    (hptr : ∀ i, i < bytesToBlocks dir.size → dir'.directPointers i = dir.directPointers i)
    (hi : i < bytesToBlocks dir.size) (hj : j < dirEntriesPerBlock)
    (hempty : fs.disk.readWord
      (sectorAddress (blockSector (dir.directPointers i)) + j * dirEntryBytes) = 0)
    (hnum : e.iNumber ≠ 0) (hnum' : e.iNumber < 2 ^ 32) (hname : e.name.length ≤ 59)
    (hzero : (0 : UInt8) ∉ e.name) (hnames : ∀ e' ∈ fs.links dir, e'.name.length ≤ 59)
    (hapart : ∀ i', i' < bytesToBlocks dir.size → i' ≠ i →
      sectorAddress (blockSector (dir.directPointers i')) + fsBlock ≤
          sectorAddress (blockSector (dir.directPointers i)) ∨
        sectorAddress (blockSector (dir.directPointers i)) + fsBlock ≤
          sectorAddress (blockSector (dir.directPointers i')))
    (hdata : ∀ i' x, i' < bytesToBlocks dir.size →
      sectorAddress (blockSector (dir.directPointers i')) ≤ x →
      x < sectorAddress (blockSector (dir.directPointers i')) + fsBlock → fs'.disk x =
        fs.disk.splice (sectorAddress (blockSector (dir.directPointers i)) + j * dirEntryBytes)
          e.bytes x) :
    ∃ l₁ l₂, fs.links dir = l₁ ++ l₂ ∧ fs'.links dir' = l₁ ++ e :: l₂ := by
  have hper : dirEntriesPerBlock = 64 := rfl
  have hlen := e.length_bytes hname
  obtain ⟨A, hAi⟩ : ∃ A : ℕ → ℕ, ∀ i, sectorAddress (blockSector (dir.directPointers i)) = A i :=
    ⟨_, fun _ ↦ rfl⟩
  simp only [hAi] at hempty hapart hdata
  have hlinks : fs.links dir =
      (List.range (bytesToBlocks dir.size)).flatMap fun i ↦ blockLinks fs.disk (A i) := by
    rw [links_eq]
    exact List.flatMap_congr fun i _ ↦ by rw [hAi]
  have hlinks' : fs'.links dir' =
      (List.range (bytesToBlocks dir.size)).flatMap fun i' ↦ blockLinks
        (fs.disk.splice (A i + j * dirEntryBytes) e.bytes) (A i') := by
    rw [links_eq, hsize]
    refine List.flatMap_congr fun i' hi' ↦ ?_
    have hi' := List.mem_range.mp hi'
    rw [hptr i' hi', hAi]
    exact blockLinks_congr fun x h₁ h₂ ↦ hdata i' x hi' h₁ h₂
  have hsplit : List.range (bytesToBlocks dir.size) =
      List.range i ++ i :: (List.range (bytesToBlocks dir.size - i - 1)).map (i + 1 + ·) := by
    rw [show bytesToBlocks dir.size = i + (1 + (bytesToBlocks dir.size - i - 1)) by omega,
      List.range_add, List.range_add]
    simp [List.map_map, Function.comp_def, Nat.add_assoc]
  -- the links of the other blocks
  have hother : ∀ i', i' < bytesToBlocks dir.size → i' ≠ i →
      blockLinks (fs.disk.splice (A i + j * dirEntryBytes) e.bytes) (A i') =
        blockLinks fs.disk (A i') := fun i' hi' hne ↦ by
    refine blockLinks_congr fun x h₁ h₂ ↦ ByteStore.splice_of_not_mem ?_
    have := hapart i' hi' hne
    rw [hlen]
    rw [fsBlock, dirEntryBytes] at *
    omega
  obtain ⟨l₁, l₂, hold, hnew⟩ := blockLinks_splice (e := e) hj hempty hnum hnum' hname hzero
    fun e' he' ↦ hnames e' (by
      rw [hlinks]
      exact List.mem_flatMap.mpr ⟨i, List.mem_range.mpr hi, he'⟩)
  refine ⟨((List.range i).flatMap fun i ↦ blockLinks fs.disk (A i)) ++ l₁,
    l₂ ++ ((List.range (bytesToBlocks dir.size - i - 1)).map (i + 1 + ·)).flatMap
      fun i ↦ blockLinks fs.disk (A i), ?_, ?_⟩
  · rw [hlinks, hsplit, List.flatMap_append, List.flatMap_cons, hold]
    simp only [List.append_assoc]
  · rw [hlinks', hsplit, List.flatMap_append, List.flatMap_cons, hnew]
    rw [List.flatMap_congr fun i' hi' ↦ hother i' ?_ ?_,
      List.flatMap_congr fun i' hi' ↦ hother i' ?_ ?_]
    · simp only [List.append_assoc, List.cons_append]
    · obtain ⟨r, hr, rfl⟩ := List.mem_map.mp hi'
      have := List.mem_range.mp hr
      omega
    · obtain ⟨r, hr, rfl⟩ := List.mem_map.mp hi'
      omega
    · have := List.mem_range.mp hi'
      omega
    · have := List.mem_range.mp hi'
      omega

end Fs

end AbOS
