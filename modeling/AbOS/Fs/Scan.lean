import AbOS.Fs.Path
import AbOS.Lib.Extent

/-!
# The component buffer of `get_inode`

`get_inode` collects one component after the other in `str_buffer`, an array of 60 bytes on its
stack, and terminates it before each lookup.  `Fs.getInodeFrom` keeps the component as a list; here
it is read back from the buffer, and every store is recorded.

The buffer holds the component, which has no zero byte and at most 59 others (`Scan.Holds`).  So
both forms of the loop agree, and no store leaves the buffer (`scanInode_eq`).
-/

set_option autoImplicit false

namespace AbOS

/-- `sizeof(str_buffer)`. -/
def strBufferBytes : ℕ := 60

/-- The locals of `get_inode`.  Offsets count from the beginning of `str_buffer`, and `stores` are the
ranges that have been written. -/
structure Scan where
  currentInode : Inode
  strBuffer : ByteStore
  strIndex : ℕ
  stores : List Extent

namespace Scan

/-- `memset(str_buffer, 0, sizeof(str_buffer))`. -/
def memset (s : Scan) : Scan :=
  { s with
    strBuffer := s.strBuffer.fill 0 0 strBufferBytes
    stores := s.stores ++ [⟨0, strBufferBytes⟩] }

/-- `str_buffer[str_index] = c`. -/
def store (s : Scan) (c : UInt8) : Scan :=
  { s with
    strBuffer := s.strBuffer.splice s.strIndex [c]
    stores := s.stores ++ [⟨s.strIndex, 1⟩] }

/-- A character of the component. -/
def push (s : Scan) (c : UInt8) : Scan := { s.store c with strIndex := s.strIndex + 1 }

/-- The next component, to be looked up in `inode`. -/
def restart (s : Scan) (inode : Inode) : Scan :=
  { s.memset with currentInode := inode, strIndex := 0 }

/-- The string that a lookup compares with. -/
def name (s : Scan) : List UInt8 := cString (s.strBuffer.slice 0 strBufferBytes)

/-- The lookup of the component in the buffer. -/
def lookup (fs : Fs) (s : Scan) : Inode :=
  getInodeInDir fs.disk fs.superblock s.currentInode s.name

end Scan

namespace Fs

/-- The loop of `get_inode` and the lookup behind it: the result and all stores. -/
def scanFrom (fs : Fs) : Scan → List UInt8 → Inode × List Extent
  | s, [] =>
    let s := s.store 0
    (if (s.lookup fs).iNumber = 0 then Inode.zero else s.lookup fs, s.stores)
  | s, c :: index =>
    if c = slash then
      let s := s.store 0
      if (s.lookup fs).iNumber = 0 then (Inode.zero, s.stores)
      else fs.scanFrom (s.restart (s.lookup fs)) index
    else if s.strIndex < strBufferBytes - 1 then fs.scanFrom (s.push c) index
    else (Inode.zero, s.stores)

/-- `get_inode`, with what the stack held before. -/
def scanInode (fs : Fs) (stack : ByteStore) (path : List UInt8) : Inode × List Extent :=
  match path with
  | [] => fs.scanFrom (Scan.memset ⟨fs.currentDirInode, stack, 0, []⟩) []
  | c :: index =>
    if c = slash then fs.scanFrom (Scan.memset ⟨fs.rootInode, stack, 0, []⟩) index
    else fs.scanFrom (Scan.memset ⟨fs.currentDirInode, stack, 0, []⟩) (c :: index)

end Fs

namespace Scan

/-- The buffer holds the component as far as it has been read, and all stores were inside. -/
structure Holds (s : Scan) (str : List UInt8) : Prop where
  component : s.strBuffer.slice 0 s.strIndex = str
  nonzero : (0 : UInt8) ∉ str
  index : s.strIndex < strBufferBytes
  inside : ∀ e ∈ s.stores, e.start + e.len ≤ strBufferBytes

variable {s : Scan} {str : List UInt8}

theorem Holds.length (h : s.Holds str) : str.length = s.strIndex := by
  rw [← h.component, ByteStore.length_slice]

theorem inside_append {l : List Extent} {e : Extent}
    (hl : ∀ e ∈ l, e.start + e.len ≤ strBufferBytes) (he : e.start + e.len ≤ strBufferBytes) :
    ∀ f ∈ l ++ [e], f.start + f.len ≤ strBufferBytes := by
  intro f hf
  rcases List.mem_append.mp hf with hf | hf
  · exact hl f hf
  · rw [List.mem_singleton.mp hf]
    exact he

/-- A store at the index is inside. -/
theorem Holds.store_inside (h : s.Holds str) (c : UInt8) :
    ∀ e ∈ (s.store c).stores, e.start + e.len ≤ strBufferBytes :=
  inside_append h.inside h.index

/-- Behind the component the terminating zero has been stored. -/
theorem Holds.name_store (h : s.Holds str) : (s.store 0).name = str := by
  have hindex := h.index
  have hzero : (s.store 0).strBuffer (0 + s.strIndex) = 0 := by
    rw [store, Nat.zero_add]
    exact ByteStore.splice_of_mem (i := 0) (show 0 < [(0 : UInt8)].length by decide)
  have hkeep : (s.store 0).strBuffer.slice 0 s.strIndex = str := by
    rw [store, ByteStore.slice_splice_of_apart (Or.inl (by omega)), h.component]
  rw [name, Fs.cString_slice hindex hzero ?_, hkeep]
  intro i hi hz
  refine h.nonzero ?_
  rw [← hkeep, ByteStore.slice]
  exact List.mem_map.mpr ⟨i, List.mem_range.mpr hi, hz⟩

theorem Holds.lookup (h : s.Holds str) (fs : Fs) :
    (s.store 0).lookup fs = getInodeInDir fs.disk fs.superblock s.currentInode str := by
  rw [Scan.lookup, h.name_store]
  rfl

/-- After a separator the buffer is empty. -/
theorem Holds.restart (h : s.Holds str) (inode : Inode) : ((s.store 0).restart inode).Holds [] :=
  ⟨rfl, List.not_mem_nil, Nat.succ_pos 59, inside_append (h.store_inside 0) (Nat.le_refl _)⟩

/-- A character that fits is appended. -/
theorem Holds.push (h : s.Holds str) {c : UInt8} (hc : c ≠ 0) (hroom : s.strIndex < 59) :
    (s.push c).Holds (str ++ [c]) := by
  refine ⟨?_, ?_, Nat.succ_lt_succ hroom, h.store_inside c⟩
  · have hlast := ByteStore.splice_of_mem (m := s.strBuffer) (a := s.strIndex) (i := 0)
      (show 0 < [c].length from Nat.one_pos)
    dsimp only [Scan.push, store]
    rw [ByteStore.slice_append, ByteStore.slice_splice_of_apart (Or.inl (by omega)), h.component,
      Nat.zero_add, ByteStore.slice_succ]
    exact congrArg (fun b ↦ str ++ [b]) hlast
  · intro hmem
    rcases List.mem_append.mp hmem with hmem | hmem
    · exact h.nonzero hmem
    · exact hc (List.mem_singleton.mp hmem).symm

end Scan

namespace Fs

variable (fs : Fs)

/-- The loop over the buffer is the loop over the component. -/
theorem scanFrom_eq {s : Scan} {str : List UInt8} (h : s.Holds str) {path : List UInt8}
    (hpath : (0 : UInt8) ∉ path) :
    (fs.scanFrom s path).1 = fs.getInodeFrom s.currentInode str path ∧
      ∀ e ∈ (fs.scanFrom s path).2, e.start + e.len ≤ strBufferBytes := by
  induction path generalizing s str with
  | nil =>
    rw [scanFrom, getInodeFrom]
    dsimp only
    rw [h.lookup]
    exact ⟨rfl, h.store_inside 0⟩
  | cons c index ih =>
    rw [List.mem_cons, not_or] at hpath
    rw [scanFrom, getInodeFrom]
    dsimp only
    rw [h.lookup, h.length]
    by_cases hc : c = slash
    · rw [if_pos hc, if_pos hc]
      split
      · exact ⟨rfl, h.store_inside 0⟩
      · exact ih (h.restart _) hpath.2
    · rw [if_neg hc, if_neg hc]
      by_cases hroom : s.strIndex < 59
      · rw [if_pos hroom, if_pos (show s.strIndex < strBufferBytes - 1 from hroom)]
        exact ih (h.push (fun h0 ↦ hpath.1 h0.symm) hroom) hpath.2
      · rw [if_neg hroom, if_neg (show ¬ s.strIndex < strBufferBytes - 1 from hroom)]
        exact ⟨rfl, h.inside⟩

theorem holds_memset (dir : Inode) (stack : ByteStore) :
    (Scan.memset ⟨dir, stack, 0, []⟩).Holds [] :=
  ⟨rfl, List.not_mem_nil, Nat.succ_pos 59,
    Scan.inside_append (fun _ he ↦ absurd he List.not_mem_nil) (Nat.le_refl _)⟩

/-- **`get_inode` follows the components of the path**, from the root or from the current directory,
and stores nothing outside its buffer. -/
theorem scanInode_eq (stack : ByteStore) {path : List UInt8} (hpath : (0 : UInt8) ∉ path) :
    (fs.scanInode stack path).1 =
        (fs.resolve (fs.startDir path) (components path)).getD Inode.zero ∧
      ∀ e ∈ (fs.scanInode stack path).2, e.start + e.len ≤ strBufferBytes := by
  have hscan : (fs.scanInode stack path).1 = fs.getInode path ∧
      ∀ e ∈ (fs.scanInode stack path).2, e.start + e.len ≤ strBufferBytes := by
    cases path with
    | nil => exact fs.scanFrom_eq (holds_memset ..) hpath
    | cons c index =>
      rw [scanInode, getInode]
      split
      · exact fs.scanFrom_eq (holds_memset ..) fun h ↦ hpath (List.mem_cons_of_mem _ h)
      · exact fs.scanFrom_eq (holds_memset ..) hpath
  rw [← getInode_eq]
  exact hscan

/-- A path of two components. -/
theorem scanInode_eq_throughFile :
    (throughFile.scanInode (fun _ ↦ 0xCC) [0x66, slash, 0x67]).1 =
        (throughFile.resolve throughFileRoot [[0x66], [0x67]]).getD Inode.zero ∧
      ∀ e ∈ (throughFile.scanInode (fun _ ↦ 0xCC) [0x66, slash, 0x67]).2,
        e.start + e.len ≤ strBufferBytes :=
  scanInode_eq throughFile (fun _ ↦ 0xCC) (by decide)

end Fs

end AbOS
