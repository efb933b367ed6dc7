import AbOS.Format.Readable
import AbOS.Fs.CreateResolve
import AbOS.Syscalls.State

/-!
# Reading back what the formatter wrote

The kernel looks up a path on the disk; the host looks it up in the tree.  For a tree that is
`Readable` both agree (`Mounted.getInode`): the path of a file leads to an inode with its size whose
blocks hold its contents, the path of a directory to one with its entries, and any other path leads
nowhere.

On the host a path is a trail of directories back to the root, `Host.enter`, so that `..` has
something to go back to; on the disk it is the number of an inode.  `Trail` relates the two, and one
lookup keeps the relation (`child_of_trail`).

The kernel does not check that what it searches is a directory.  A path that goes on behind a regular
file is left out (`throughFile`): its contents would be read as entries.
-/

set_option autoImplicit false

namespace AbOS

open ByteStore

/-! ## Records of a directory -/

/-- The entry that a slot stands for. -/
def DirSlot.entry (slot : DirSlot) : DirEntry := ⟨slot.1, cString slot.2⟩

/-- The slot fills its 64 bytes, and its name ends in it. -/
structure DirSlot.Closed (slot : DirSlot) : Prop where
  number : slot.1 < 2 ^ 32
  length : slot.2.length = 60
  zero : (0 : UInt8) ∈ slot.2

section Records

variable {disk : ByteStore} {a j k : ℕ} {slot : DirSlot} {slots : List DirSlot}

/-- A name that ends within a prefix. -/
theorem cString_append {bs cs : List UInt8} (h : (0 : UInt8) ∈ bs) :
    cString (bs ++ cs) = cString bs := by
  rw [cString, cString, List.takeWhile_append, if_neg]
  intro hlen
  have hall := List.takeWhile_eq_self_iff.mp ((List.takeWhile_prefix _).eq_of_length hlen)
  exact absurd (hall 0 h) (by decide)

/-- A record is read as its entry. -/
theorem readDirEntry_of_slot (hclosed : slot.Closed) (hj : j < dirEntriesPerBlock)
    (h : disk.slice (a + j * dirEntryBytes) dirEntryBytes = slot.bytes) :
    readDirEntry disk a j = slot.entry := by
  have hper : dirEntriesPerBlock = 64 := rfl
  rw [dirEntryBytes] at h
  rw [show 64 = 4 + 60 from rfl, slice_append, DirSlot.bytes] at h
  obtain ⟨hword, hname⟩ := List.append_inj h (by rw [length_slice, length_leBytes])
  rw [readDirEntry, DirSlot.entry, dirEntryBytes, fsBlock]
  congr 1
  · rw [readWord, hword, ofLe_leBytes]
    exact Nat.mod_eq_of_lt hclosed.number
  · obtain ⟨r, hr⟩ : ∃ r, 4096 - (j * 64 + 4) = 60 + r := ⟨4096 - (j * 64 + 4) - 60, by omega⟩
    rw [hr, slice_append, hname]
    exact cString_append hclosed.zero

/-- Records that follow each other. -/
theorem slice_record (hslots : ∀ slot ∈ slots, slot.2.length = 60)
    (h : disk.slice a (slots.length * dirEntryBytes) = slots.flatMap DirSlot.bytes) {t : ℕ}
    (ht : t < slots.length) :
    disk.slice (a + t * dirEntryBytes) dirEntryBytes = slots[t].bytes := by
  induction slots generalizing a t with
  | nil => exact absurd ht (Nat.not_lt_zero t)
  | cons slot slots ih =>
    have hlen : slot.bytes.length = dirEntryBytes :=
      DirSlot.length_bytes (hslots slot List.mem_cons_self)
    rw [List.length_cons, Nat.succ_mul, Nat.add_comm, slice_append, List.flatMap_cons] at h
    obtain ⟨hhead, htail⟩ := List.append_inj h (by rw [length_slice, hlen])
    cases t with
    | zero =>
      rw [Nat.zero_mul, Nat.add_zero]
      exact hhead
    | succ t =>
      rw [Nat.succ_mul, Nat.add_comm _ dirEntryBytes, ← Nat.add_assoc]
      exact ih (fun s hs ↦ hslots s (List.mem_cons_of_mem _ hs)) htail (Nat.lt_of_succ_lt_succ ht)

/-- Going over the records block by block. -/
theorem flatMap_range_map {α : Type} (f : ℕ → α) (n k : ℕ) :
    ((List.range k).flatMap fun i ↦ (List.range n).map fun j ↦ f (i * n + j)) =
      (List.range (k * n)).map f := by
  induction k with
  | zero => rw [Nat.zero_mul]; rfl
  | succ k ih =>
    rw [List.range_succ, List.flatMap_append, ih, List.flatMap_singleton, Nat.succ_mul,
      List.range_add, List.map_append, List.map_map]
    rfl

/-- **The entries of a directory are its records**, if its blocks follow each other. -/
theorem dirEntries_of_slots {dir : Inode} (hk : k = bytesToBlocks dir.size)
    (hblocks : ∀ i < k, sectorAddress (blockSector (dir.directPointers i)) = a + i * fsBlock)
    (hlen : slots.length = k * dirEntriesPerBlock) (hclosed : ∀ slot ∈ slots, slot.Closed)
    (h : disk.slice a (slots.length * dirEntryBytes) = slots.flatMap DirSlot.bytes) :
    dirEntries disk dir = slots.map DirSlot.entry := by
  have hper : dirEntriesPerBlock = 64 := rfl
  let f : ℕ → DirEntry := fun t ↦ (slots.getD t (0, [])).entry
  have hentry : ∀ i < k, (List.range dirEntriesPerBlock).map
      (fun j ↦ readDirEntry disk (sectorAddress (blockSector (dir.directPointers i))) j) =
      (List.range dirEntriesPerBlock).map fun j ↦ f (i * dirEntriesPerBlock + j) := fun i hi ↦ by
    refine List.map_congr_left fun j hj ↦ ?_
    have hj := List.mem_range.mp hj
    have ht : i * dirEntriesPerBlock + j < slots.length := by
      have := Nat.mul_le_mul_right dirEntriesPerBlock (show i + 1 ≤ k by omega)
      rw [Nat.succ_mul] at this
      omega
    have hslot := slice_record (fun s hs ↦ (hclosed s hs).length) h ht
    show _ = (slots.getD _ (0, [])).entry
    rw [List.getD_eq_getElem _ _ ht, hblocks i hi]
    refine readDirEntry_of_slot (hclosed _ (List.getElem_mem ht)) hj ?_
    rw [← hslot, hper, fsBlock, dirEntryBytes]
    congr 1
    omega
  have hall : dirEntries disk dir = (List.range k).flatMap fun i ↦
      (List.range dirEntriesPerBlock).map fun j ↦ f (i * dirEntriesPerBlock + j) := by
    rw [dirEntries, ← hk]
    exact List.flatMap_congr fun i hi ↦ hentry i (List.mem_range.mp hi)
  rw [hall, flatMap_range_map, ← hlen]
  refine List.ext_getElem (by simp) fun t h₁ h₂ ↦ ?_
  rw [List.length_map] at h₂
  simp only [List.getElem_map, List.getElem_range, f]
  rw [List.getD_eq_getElem _ _ h₂]

end Records

/-! ## The records of a written directory -/

/-- `.` and `..` as slots. -/
def dotSlots (iNumber parent : ℕ) : List DirSlot :=
  [(iNumber, 0x2E :: List.replicate 59 0), (parent, 0x2E :: 0x2E :: List.replicate 58 0)]

/-- The empty slots at the end of the last block. -/
def freeSlots (n : ℕ) : List DirSlot :=
  List.replicate (bytesToBlocks (dirSize n) * dirEntriesPerBlock - (2 + n)) (0, List.replicate 60 0)

theorem flatMap_replicate_free (k : ℕ) :
    (List.replicate k ((0, List.replicate 60 0) : DirSlot)).flatMap DirSlot.bytes =
      List.replicate (k * dirEntryBytes) 0 := by
  induction k with
  | zero => rw [Nat.zero_mul]; rfl
  | succ k ih =>
    rw [List.replicate_succ, List.flatMap_cons, ih, Nat.succ_mul, Nat.add_comm,
      List.replicate_add]
    rfl

/-- A directory as the formatter writes it is a list of records. -/
theorem dirData_eq (iNumber parent : ℕ) {n : ℕ} {slots : List DirSlot} (hn : slots.length = n)
    (hslots : ∀ slot ∈ slots, slot.2.length = 60) (hfit : (2 + n) * dirEntryBytes ≤ 7 * fsBlock) :
    dirData iNumber parent slots =
      (dotSlots iNumber parent ++ (slots ++ freeSlots n)).flatMap DirSlot.bytes := by
  obtain ⟨hdot, hdots⟩ := length_dots iNumber parent
  have hsize := dirSize_eq hfit
  have hper : dirEntriesPerBlock = 64 := rfl
  rw [List.flatMap_append, List.flatMap_append, freeSlots, flatMap_replicate_free, dirData, padded,
    List.length_append, List.length_append, hdot, hdots, length_flatMap_bytes hslots, hn, hsize,
    bytesToBlocks_eq, hper]
  rw [dirEntryBytes, fsBlock] at *
  have hzeros : (4096 - (64 + (64 + n * 64)) % 4096) % 4096 =
      (((2 + n) * 64 + 4095) / 4096 * 64 - (2 + n)) * 64 := by omega
  rw [hzeros, List.append_assoc, List.append_assoc]
  rfl

/-! ## Inodes -/

/-- The fields that a lookup works with. -/
structure Placed.Fields (p : Placed) (inode : Inode) : Prop where
  iNumber : inode.iNumber = p.iNumber
  fileType : inode.fileType = p.fileType
  size : inode.size = p.size
  directPointers : ∀ i < 7, inode.directPointers i = p.blocks.getD i 0

section Fields

variable {s : Superblock} {p : Placed} {inode : Inode} {disk : ByteStore} {data : List UInt8}
  {n fileType size : ℕ}

/-- The number of blocks of a file that fits. -/
theorem Placed.Sound.blocks_le (h : p.Sound s) : p.blocks.length ≤ 7 := by
  obtain ⟨b, k, hk, hblocks, -⟩ := h.blocks
  rw [hblocks, List.length_range']
  exact hk

theorem Placed.inode_inRange (h : p.Sound s) (htype : p.fileType < 2 ^ 8) (hsize : p.size < 2 ^ 32) :
    p.inode.InRange := by
  obtain ⟨b, k, hk, hblocks, -, hend⟩ := h.blocks
  have hfits := h.fits
  rw [SlotFits, fsBlock, inodeBytes] at hfits
  rw [diskBlocks_eq] at hend
  refine ⟨show p.iNumber < 2 ^ 32 by omega, htype, hsize, fun i _ ↦ ?_⟩
  show p.blocks.getD i 0 < 2 ^ 32
  rw [hblocks]
  rcases Nat.lt_or_ge i k with hi | hi
  · rw [List.getD_eq_getElem _ _ (by rwa [List.length_range']), List.getElem_range']
    omega
  · rw [List.getD_eq_default _ _ (by rwa [List.length_range'])]
    exact Nat.two_pow_pos 32

/-- A record that is the one that was written has its fields. -/
theorem Placed.fields_of_bytes (h : p.Sound s) (htype : p.fileType < 2 ^ 8) (hsize : p.size < 2 ^ 32)
    (hin : inode.InRange) (hbytes : inode.bytes = p.inode.bytes) : p.Fields inode := by
  obtain ⟨hnum, htype, hsize, hptr⟩ :=
    Inode.fields_of_bytes hbytes hin (p.inode_inRange h htype hsize)
  exact ⟨hnum, htype, hsize, hptr⟩

/-- What a lookup of the number reads. -/
theorem Placed.On.bytes_diskInode (h : p.On disk s data) (hsound : p.Sound s) :
    (diskInode disk s p.iNumber).bytes = p.inode.bytes := by
  rw [diskInode_eq, lookupAddress_eq hsound.fits, bytes_readInode, ← seekInode_eq hsound.fits]
  exact h.inode

/-- The blocks of the inode follow each other from the start of the data. -/
theorem Placed.Fields.blockAddress (h : p.Fields inode) (hsound : p.Sound s) {i : ℕ}
    (hi : i < p.blocks.length) :
    sectorAddress (blockSector (inode.directPointers i)) = p.start + i * fsBlock := by
  have hlt := hsound.blocks_le
  obtain ⟨b, k, hk, hblocks, -, hend⟩ := hsound.blocks
  rw [diskBlocks_eq] at hend
  rw [h.directPointers i (by omega), Placed.start]
  rw [hblocks, List.length_range'] at hi
  rw [hblocks, List.getD_eq_getElem _ _ (by rwa [List.length_range']),
    List.getD_eq_getElem _ _ (by rw [List.length_range']; omega), List.getElem_range',
    List.getElem_range', sectorAddress_blockSector (by omega), fsBlock]
  rw [Nat.mod_eq_of_lt (by omega)]
  omega

/-- **The bytes of a file** are those that were written behind its start. -/
theorem Placed.On.fileByte (h : p.On disk s data) (hsound : p.Sound s) (hfields : p.Fields inode)
    (hlen : data.length = p.blocks.length * fsBlock) {y : ℕ} (hy : y < data.length) :
    disk (AbOS.fileByte inode y) = data.getD y 0 := by
  have hblock : y / fsBlock < p.blocks.length :=
    Nat.div_lt_of_lt_mul (by rw [Nat.mul_comm, ← hlen]; exact hy)
  have hdata : disk (p.start + y) = data.getD y 0 := by
    rw [← getD_slice disk p.start data.length y hy, h.data]
  rw [AbOS.fileByte, hfields.blockAddress hsound hblock, ← hdata]
  congr 1
  rw [fsBlock]
  omega

end Fields

/-! ## Directories -/

/-- The slots of a directory lead to inodes. -/
structure DirSlot.Linked (slot : DirSlot) : Prop extends DirSlot.Closed slot where
  pos : 0 < slot.1

/-- **The links of a written directory**: `.`, `..` and its entries. -/
theorem links_of_on {fs : Fs} {s : Superblock} {p : Placed} {inode : Inode} {slots : List DirSlot}
    {n parent : ℕ} (hon : p.On fs.disk s (dirData n parent slots)) (hsound : p.Sound s)
    (his : p.Is n fileTypeDir (dirSize slots.length)) (hfields : p.Fields inode)
    (hfit : (2 + slots.length) * dirEntryBytes ≤ 7 * fsBlock) (hslots : ∀ slot ∈ slots, slot.Linked)
    (hn : 0 < n ∧ n < 2 ^ 32) (hparent : 0 < parent ∧ parent < 2 ^ 32) :
    fs.links inode = ⟨n, [0x2E]⟩ :: ⟨parent, [0x2E, 0x2E]⟩ :: slots.map DirSlot.entry := by
  have hper : dirEntriesPerBlock = 64 := rfl
  have hlens : ∀ slot ∈ slots, slot.2.length = 60 := fun slot h ↦ (hslots slot h).length
  have hdata := dirData_eq n parent rfl hlens hfit
  have hlen := length_dirData n parent rfl hlens hfit
  have hblocks : p.blocks.length = bytesToBlocks (dirSize slots.length) := Placed.length_blocks his
  have hsize : inode.size = dirSize slots.length := hfields.size.trans his.size
  have htotal : (dotSlots n parent ++ (slots ++ freeSlots slots.length)).length =
      bytesToBlocks (dirSize slots.length) * dirEntriesPerBlock := by
    rw [List.length_append, List.length_append, dotSlots, freeSlots, List.length_replicate,
      bytesToBlocks_eq, dirSize_eq hfit, hper, dirEntryBytes]
    simp only [List.length_cons, List.length_nil]
    omega
  have hclosed : ∀ slot ∈ dotSlots n parent ++ (slots ++ freeSlots slots.length), slot.Closed := by
    intro slot hslot
    rcases List.mem_append.mp hslot with hslot | hslot
    · rcases List.mem_cons.mp hslot with rfl | hslot
      · exact ⟨hn.2, rfl, by simp⟩
      · rw [List.mem_singleton.mp hslot]
        exact ⟨hparent.2, rfl, by simp⟩
    · rcases List.mem_append.mp hslot with hslot | hslot
      · exact (hslots slot hslot).toClosed
      · rw [List.eq_of_mem_replicate hslot]
        exact ⟨Nat.two_pow_pos 32, rfl, by simp⟩
  have hentries : dirEntries fs.disk inode =
      (dotSlots n parent ++ (slots ++ freeSlots slots.length)).map DirSlot.entry := by
    refine dirEntries_of_slots (a := p.start) (by rw [hsize]) (fun i hi ↦ ?_) htotal hclosed ?_
    · exact hfields.blockAddress hsound (by rw [hblocks]; exact hi)
    · rw [htotal, ← hdata, ← hon.data, hlen]
      congr 1
      rw [hper, dirEntryBytes, fsBlock]
      omega
  have hkeep : (slots.map DirSlot.entry).filter (fun e ↦ e.iNumber != 0) =
      slots.map DirSlot.entry := by
    rw [List.filter_eq_self]
    intro e he
    obtain ⟨slot, hslot, rfl⟩ := List.mem_map.mp he
    exact bne_iff_ne.mpr (Nat.ne_of_gt (hslots slot hslot).pos)
  have hdrop : ((freeSlots slots.length).map DirSlot.entry).filter (fun e ↦ e.iNumber != 0) = [] := by
    rw [List.filter_eq_nil_iff]
    intro e he
    obtain ⟨slot, hslot, rfl⟩ := List.mem_map.mp he
    rw [List.eq_of_mem_replicate hslot]
    decide
  rw [Fs.links, hentries, List.map_append, List.map_append, List.filter_append, List.filter_append,
    hkeep, hdrop, List.append_nil]
  have hdots : ((dotSlots n parent).map DirSlot.entry).filter (fun e ↦ e.iNumber != 0) =
      [⟨n, [0x2E]⟩, ⟨parent, [0x2E, 0x2E]⟩] := by
    rw [List.filter_eq_self.mpr]
    · rfl
    · intro e he
      rcases List.mem_cons.mp he with rfl | he
      · exact bne_iff_ne.mpr (Nat.ne_of_gt hn.1)
      · rw [List.mem_singleton.mp he]
        exact bne_iff_ne.mpr (Nat.ne_of_gt hparent.1)
  rw [hdots]
  rfl

/-- Some file or directory has the number of a stored entry. -/
theorem Host.Stored.head {disk : ByteStore} {s : Superblock} {parent n : ℕ} {h : Host}
    {ps : List Placed} (hstored : h.Stored disk s parent n ps) : ∃ p ∈ ps, p.iNumber = n := by
  cases h with
  | file name contents =>
    rw [Host.Stored] at hstored
    obtain ⟨p, rfl, his, -⟩ := hstored
    exact ⟨p, List.mem_singleton_self p, his.iNumber⟩
  | dir name entries =>
    rw [Host.Stored] at hstored
    obtain ⟨p, slots, qs, rfl, his, -⟩ := hstored
    exact ⟨p, List.mem_cons_self, his.iNumber⟩

theorem Placed.Sound.iNumber_lt {s : Superblock} {p : Placed} (h : p.Sound s) :
    p.iNumber < 2 ^ 32 := by
  have hfits := h.fits
  rw [SlotFits, fsBlock, inodeBytes] at hfits
  omega

section Stored

variable {disk : ByteStore} {s : Superblock} {dir : ℕ} {entries : List Host} {slots : List DirSlot}
  {ps : List Placed}

theorem EntriesStored.linked (h : EntriesStored disk s dir entries slots ps)
    (hsound : ∀ p ∈ ps, p.Sound s) : ∀ slot ∈ slots, slot.Linked := by
  induction entries generalizing slots ps with
  | nil =>
    rw [EntriesStored] at h
    rw [h.1]
    exact fun _ hm ↦ absurd hm List.not_mem_nil
  | cons hd hs ih =>
    rw [EntriesStored] at h
    obtain ⟨n, buffer, slots', qs, qs', rfl, rfl, hbuffer, hnumber, hhead, hrest⟩ := h
    intro slot hslot
    rcases List.mem_cons.mp hslot with rfl | hslot
    · obtain ⟨p, hp, rfl⟩ := hhead.head
      have hp := hsound p (List.mem_append_left _ hp)
      exact ⟨⟨hp.iNumber_lt, hbuffer.1, hbuffer.2.1⟩, hp.pos⟩
    · exact ih hrest (fun p hp ↦ hsound p (List.mem_append_right _ hp)) slot hslot

/-- The names of the slots are those of the entries. -/
theorem EntriesStored.names (h : EntriesStored disk s dir entries slots ps) :
    slots.map (DirEntry.name ∘ DirSlot.entry) = entries.map Host.name := by
  induction entries generalizing slots ps with
  | nil =>
    rw [EntriesStored] at h
    rw [h.1]
    rfl
  | cons hd hs ih =>
    rw [EntriesStored] at h
    obtain ⟨n, buffer, slots', qs, qs', rfl, rfl, hbuffer, hnumber, hhead, hrest⟩ := h
    rw [List.map_cons, List.map_cons, ih hrest, ← hbuffer.2.2]
    rfl

/-- **Host and disk find the same entry.** -/
theorem EntriesStored.find? (h : EntriesStored disk s dir entries slots ps)
    (hfit : EntriesFit entries) (name : List UInt8) :
    (entries.find? (fun c ↦ c.name == name) = none ∧
      (slots.map DirSlot.entry).find? (fun e ↦ e.name == name) = none) ∨
    ∃ c n qs, entries.find? (fun c ↦ c.name == name) = some c ∧
      (slots.map DirSlot.entry).find? (fun e ↦ e.name == name) = some ⟨n, name⟩ ∧
      (∃ k, n = numberFor k name) ∧ c.Stored disk s dir n qs ∧ c.Fits ∧ ∀ q ∈ qs, q ∈ ps := by
  induction entries generalizing slots ps with
  | nil =>
    rw [EntriesStored] at h
    rw [h.1]
    exact Or.inl ⟨rfl, rfl⟩
  | cons hd hs ih =>
    rw [EntriesStored] at h
    rw [EntriesFit] at hfit
    obtain ⟨n, buffer, slots', qs, qs', rfl, rfl, hbuffer, hnumber, hhead, hrest⟩ := h
    rw [List.find?_cons, List.map_cons, List.find?_cons, DirSlot.entry, hbuffer.2.2]
    dsimp only
    by_cases hname : hd.name = name
    · rw [hname, beq_self_eq_true]
      exact Or.inr ⟨hd, n, qs, rfl, rfl, hname ▸ hnumber, hhead, hfit.1,
        fun q hq ↦ List.mem_append_left _ hq⟩
    · rw [beq_eq_false_iff_ne.mpr hname]
      rcases ih hrest hfit.2 with hnone | ⟨c, n', rs, hc, he, hk, hs', hf, hrs⟩
      · exact Or.inl hnone
      · exact Or.inr ⟨c, n', rs, hc, he, hk, hs', hf, fun q hq ↦ List.mem_append_right _ (hrs q hq)⟩

end Stored

/-! ## Paths on the host and on the disk -/

/-- What a name leads to from the end of a trail of directories, innermost first. -/
def Host.enter : List Host → List UInt8 → Option (List Host)
  | .dir dirName entries :: up, name =>
    if name = [0x2E] then some (.dir dirName entries :: up)
    else if name = [0x2E, 0x2E] then some (if up.isEmpty then [.dir dirName entries] else up)
    else (entries.find? fun h ↦ h.name == name).map (· :: .dir dirName entries :: up)
  | _, _ => none

theorem Host.enter_dir (dirName : List UInt8) (entries up : List Host) (name : List UInt8) :
    Host.enter (.dir dirName entries :: up) name =
      if name = [0x2E] then some (.dir dirName entries :: up)
      else if name = [0x2E, 0x2E] then
        some (if up.isEmpty then [.dir dirName entries] else up)
      else (entries.find? fun h ↦ h.name == name).map (· :: .dir dirName entries :: up) := rfl

/-- Follow the names. -/
def hostWalk (trail : List Host) (names : List (List UInt8)) : Option (List Host) :=
  names.foldlM Host.enter trail

/-- The names lead on behind a regular file. -/
def throughFile : List Host → List (List UInt8) → Bool
  | _, [] => false
  | .file _ _ :: _, _ :: _ => true
  | trail, name :: names =>
    match Host.enter trail name with
    | some trail' => throughFile trail' names
    | none => false

/-- The trail is stored on the disk, and ends at the number; all of it lies where it should. -/
def Trail (fs : Fs) (s : Superblock) : List Host → ℕ → Prop
  | [], _ => False
  | [h], n => n = 1 ∧ ∃ ps, h.Stored fs.disk s 1 1 ps ∧ h.Fits ∧ ∀ p ∈ ps, p.Sound s
  | h :: d :: up, n => ∃ m ps, h.Stored fs.disk s m n ps ∧ h.Fits ∧ (∀ p ∈ ps, p.Sound s) ∧
      Trail fs s (d :: up) m

/-- The inode shows what the disk has under the number. -/
structure Shows (fs : Fs) (n : ℕ) (inode : Inode) : Prop where
  bytes : inode.bytes = (fs.node n).bytes
  inRange : inode.InRange

/-- The inode is read as the file or directory of the host. -/
def Host.ReadAs (fs : Fs) (inode : Inode) : Host → Prop
  | .file _ contents => inode.fileType = fileTypeFile ∧ inode.size = contents.length ∧
      ∀ y < bytesToBlocks contents.length * fsBlock,
        fs.disk (fileByte inode y) = contents.getD y 0
  | .dir _ entries => inode.fileType = fileTypeDir ∧
      inode.size = (2 + entries.length) * dirEntryBytes ∧
      (fs.links inode).map DirEntry.name = [0x2E] :: [0x2E, 0x2E] :: entries.map Host.name

section Trail

variable {fs : Fs} {s : Superblock} {h : Host} {up : List Host} {n : ℕ} {inode : Inode}

/-- The end of a trail, and what is above it. -/
theorem Trail.cons_iff : Trail fs s (h :: up) n ↔ ∃ m ps, h.Stored fs.disk s m n ps ∧ h.Fits ∧
    (∀ p ∈ ps, p.Sound s) ∧ ((up = [] ∧ m = 1 ∧ n = 1) ∨ (up ≠ [] ∧ Trail fs s up m)) := by
  cases up with
  | nil =>
    rw [Trail]
    constructor
    · rintro ⟨rfl, ps, hstored, hfit, hsound⟩
      exact ⟨1, ps, hstored, hfit, hsound, Or.inl ⟨rfl, rfl, rfl⟩⟩
    · rintro ⟨m, ps, hstored, hfit, hsound, ⟨-, rfl, rfl⟩ | ⟨hne, -⟩⟩
      · exact ⟨rfl, ps, hstored, hfit, hsound⟩
      · exact absurd rfl hne
  | cons d up =>
    rw [Trail]
    constructor
    · rintro ⟨m, ps, hstored, hfit, hsound, hup⟩
      exact ⟨m, ps, hstored, hfit, hsound, Or.inr ⟨List.cons_ne_nil _ _, hup⟩⟩
    · rintro ⟨m, ps, hstored, hfit, hsound, ⟨hnil, -⟩ | ⟨-, hup⟩⟩
      · exact absurd hnil (List.cons_ne_nil _ _)
      · exact ⟨m, ps, hstored, hfit, hsound, hup⟩

/-- Numbers on a trail are inode numbers. -/
theorem Trail.number (ht : Trail fs s (h :: up) n) : 0 < n ∧ n < 2 ^ 32 := by
  obtain ⟨m, ps, hstored, -, hsound, -⟩ := Trail.cons_iff.mp ht
  obtain ⟨p, hp, rfl⟩ := hstored.head
  exact ⟨(hsound p hp).pos, (hsound p hp).iNumber_lt⟩

/-- The lookup depends on where the inode table begins. -/
theorem node_eq (hs : fs.superblock.firstInodeBlock = s.firstInodeBlock) (n : ℕ) :
    fs.node n = diskInode fs.disk s n := by
  rw [Fs.node, diskInode, diskInode, inodeSector, inodeSector, hs]

/-- What shows the number of something placed has its fields. -/
theorem Shows.fields (hshow : Shows fs n inode) {p : Placed} {data : List UInt8} {fileType size : ℕ}
    (hs : fs.superblock.firstInodeBlock = s.firstInodeBlock) (hsound : p.Sound s)
    (his : p.Is n fileType size) (hon : p.On fs.disk s data) (htype : fileType < 2 ^ 8)
    (hsize : size < 2 ^ 32) : p.Fields inode := by
  refine p.fields_of_bytes hsound (his.fileType ▸ htype) (his.size ▸ hsize) hshow.inRange ?_
  rw [hshow.bytes, node_eq hs, ← his.iNumber]
  exact hon.bytes_diskInode hsound

theorem Shows.node (fs : Fs) (n : ℕ) : Shows fs n (fs.node n) := ⟨rfl, readInode_inRange _ _⟩

/-- A file that fits has a size of 32 bits. -/
theorem size_lt {n : ℕ} (h : n ≤ 7 * fsBlock) : n < 2 ^ 32 := by
  rw [fsBlock] at h
  omega

/-- A stored entry is found under its number. -/
theorem Host.Stored.iNumber_node {parent : ℕ} {ps : List Placed}
    (hstored : h.Stored fs.disk s parent n ps) (hfit : h.Fits) (hsound : ∀ p ∈ ps, p.Sound s)
    (hs : fs.superblock.firstInodeBlock = s.firstInodeBlock) : (fs.node n).iNumber = n := by
  cases h with
  | file name contents =>
    rw [Host.Stored] at hstored
    rw [Host.Fits] at hfit
    obtain ⟨p, rfl, his, hon⟩ := hstored
    have hfields := (Shows.node fs n).fields hs (hsound p (List.mem_singleton_self p)) his hon
      (by decide) (size_lt hfit)
    exact hfields.iNumber.trans his.iNumber
  | dir name entries =>
    rw [Host.Stored] at hstored
    rw [Host.Fits] at hfit
    obtain ⟨p, slots, qs, rfl, his, hon, -⟩ := hstored
    have hfields := (Shows.node fs n).fields hs (hsound p List.mem_cons_self) his hon (by decide)
      (dirSize_eq hfit.1 ▸ size_lt hfit.1)
    exact hfields.iNumber.trans his.iNumber

/-- **A directory at the end of a trail**, with what the kernel finds in it. -/
theorem Trail.links {name : List UInt8} {entries : List Host}
    (ht : Trail fs s (.dir name entries :: up) n)
    (hs : fs.superblock.firstInodeBlock = s.firstInodeBlock) (hshow : Shows fs n inode) :
    ∃ m slots qs, EntriesStored fs.disk s n entries slots qs ∧ EntriesFit entries ∧
      (∀ q ∈ qs, q.Sound s) ∧ ((up = [] ∧ m = 1 ∧ n = 1) ∨ (up ≠ [] ∧ Trail fs s up m)) ∧
      inode.fileType = fileTypeDir ∧ inode.size = (2 + entries.length) * dirEntryBytes ∧
      fs.links inode = ⟨n, [0x2E]⟩ :: ⟨m, [0x2E, 0x2E]⟩ :: slots.map DirSlot.entry := by
  have hn := ht.number
  obtain ⟨m, ps, hstored, hfit, hsound, hup⟩ := Trail.cons_iff.mp ht
  rw [Host.Stored] at hstored
  rw [Host.Fits] at hfit
  obtain ⟨p, slots, qs, rfl, his, hon, hrest⟩ := hstored
  obtain ⟨hlen, -⟩ := hrest.slots
  have hqs : ∀ q ∈ qs, q.Sound s := fun q hq ↦ hsound q (List.mem_cons_of_mem _ hq)
  have hfields := hshow.fields hs (hsound p List.mem_cons_self) his hon (by decide)
    (dirSize_eq hfit.1 ▸ size_lt hfit.1)
  have hm : 0 < m ∧ m < 2 ^ 32 := by
    rcases hup with ⟨-, rfl, -⟩ | ⟨hne, hup⟩
    · decide
    · obtain ⟨d, up, rfl⟩ := List.exists_cons_of_ne_nil hne
      exact hup.number
  refine ⟨m, slots, qs, hrest, hfit.2, hqs, hup, hfields.fileType.trans his.fileType,
    (hfields.size.trans his.size).trans (dirSize_eq hfit.1), ?_⟩
  rw [← hlen] at his hfit
  exact links_of_on hon (hsound p List.mem_cons_self) his hfields hfit.1 (hrest.linked hqs) hn hm

/-- Names on the disk have at most 59 bytes. -/
theorem EntriesStored.length_le {disk : ByteStore} {dir : ℕ} {entries : List Host}
    {slots : List DirSlot} {ps : List Placed} (hst : EntriesStored disk s dir entries slots ps)
    (hsound : ∀ p ∈ ps, p.Sound s) {name : List UInt8} {e : DirEntry}
    (he : (slots.map DirSlot.entry).find? (fun e ↦ e.name == name) = some e) : name.length ≤ 59 := by
  obtain ⟨slot, hslot, rfl⟩ := List.mem_map.mp (List.mem_of_find?_eq_some he)
  have hname : cString slot.2 = name := beq_iff_eq.mp (List.find?_some (p := fun e : DirEntry ↦
    e.name == name) he)
  have hlinked := hst.linked hsound slot hslot
  by_contra hlong
  have hwhole : cString slot.2 = slot.2 := (List.takeWhile_prefix _).eq_of_length_le
    (by rw [hlinked.length, ← cString, hname]; omega)
  have hall := List.takeWhile_eq_self_iff.mp hwhole 0 hlinked.zero
  exact absurd hall (by decide)

/-- **One lookup.**  From a directory, the kernel and the host find the same thing under a name, or
nothing. -/
theorem child_of_trail {dirName : List UInt8} {entries : List Host}
    (ht : Trail fs s (.dir dirName entries :: up) n)
    (hs : fs.superblock.firstInodeBlock = s.firstInodeBlock) (hshow : Shows fs n inode)
    (name : List UInt8) :
    (Host.enter (.dir dirName entries :: up) name = none ∧ fs.child inode name = none) ∨
      ∃ trail m, Host.enter (.dir dirName entries :: up) name = some trail ∧
        fs.child inode name = some (fs.node m) ∧ Trail fs s trail m := by
  obtain ⟨m, slots, qs, hstored, hfit, hqs, hup, -, -, hlinks⟩ := ht.links hs hshow
  have hnode : ∀ {t : List Host} {k : ℕ}, Trail fs s t k → (fs.node k).iNumber = k := by
    intro t k htrail
    cases t with
    | nil => exact absurd htrail (by rw [Trail]; exact fun hf ↦ hf)
    | cons d t =>
      obtain ⟨m', ps, hst, hf, hsd, -⟩ := Trail.cons_iff.mp htrail
      exact hst.iNumber_node hf hsd hs
  -- a link of that name, and a trail to its number
  have hfound : ∀ (k : ℕ) (bs : List UInt8) {t : List Host}, name.length ≤ 59 →
      (fs.links inode).find? (fun e ↦ e.name == name) = some ⟨k, bs⟩ → Trail fs s t k →
      fs.child inode name = some (fs.node k) := fun k bs {t} hshort hfind htrail ↦ by
    have hnum := hnode htrail
    cases t with
    | nil => exact absurd htrail (by rw [Trail]; exact fun hf ↦ hf)
    | cons d t =>
      exact (Fs.child_eq_some hshort).mpr ⟨⟨k, bs⟩, hfind, rfl, by
        rw [hnum]; exact Nat.ne_of_gt htrail.number.1⟩
  rw [hlinks] at hfound
  rw [Host.enter_dir]
  by_cases hdot : name = [0x2E]
  · rw [if_pos hdot]
    have hfind := List.find?_cons_of_pos (a := (⟨n, [0x2E]⟩ : DirEntry))
      (l := ⟨m, [0x2E, 0x2E]⟩ :: slots.map DirSlot.entry) (p := fun e ↦ e.name == name)
      (by rw [hdot]; rfl)
    exact Or.inr ⟨_, n, rfl, hfound n _ (by rw [hdot]; decide) hfind ht, ht⟩
  rw [if_neg hdot]
  have hskip : ((⟨n, [0x2E]⟩ : DirEntry) :: ⟨m, [0x2E, 0x2E]⟩ :: slots.map DirSlot.entry).find?
      (fun e ↦ e.name == name) = ((⟨m, [0x2E, 0x2E]⟩ : DirEntry) :: slots.map DirSlot.entry).find?
      (fun e ↦ e.name == name) :=
    List.find?_cons_of_neg (by rw [beq_iff_eq]; exact fun he ↦ hdot he.symm)
  by_cases hdots : name = [0x2E, 0x2E]
  · rw [if_pos hdots]
    have hfind := hskip.trans (List.find?_cons_of_pos (a := (⟨m, [0x2E, 0x2E]⟩ : DirEntry))
      (l := slots.map DirSlot.entry) (p := fun e ↦ e.name == name) (by rw [hdots]; rfl))
    rcases hup with ⟨rfl, rfl, rfl⟩ | ⟨hne, hup⟩
    · exact Or.inr ⟨_, 1, rfl, hfound 1 _ (by rw [hdots]; decide) hfind ht, ht⟩
    · obtain ⟨d, up, rfl⟩ := List.exists_cons_of_ne_nil hne
      exact Or.inr ⟨_, m, rfl, hfound m _ (by rw [hdots]; decide) hfind hup, hup⟩
  rw [if_neg hdots]
  have hskip' := hskip.trans (List.find?_cons_of_neg (a := (⟨m, [0x2E, 0x2E]⟩ : DirEntry))
    (l := slots.map DirSlot.entry) (p := fun e ↦ e.name == name)
    (by rw [beq_iff_eq]; exact fun he ↦ hdots he.symm))
  rcases hstored.find? hfit name with ⟨hnone, hnone'⟩ | ⟨c, k, rs, hc, he, -, hst, hf, hrs⟩
  · refine Or.inl ⟨by rw [hnone]; rfl, ?_⟩
    by_cases hshort : name.length ≤ 59
    · cases hchild : fs.child inode name with
      | none => rfl
      | some next =>
        obtain ⟨e, hfind, -⟩ := (Fs.child_eq_some hshort).mp hchild
        rw [hlinks, hskip', hnone'] at hfind
        exact absurd hfind (by simp)
    · rw [Fs.child, if_neg hshort]
  · have htrail : Trail fs s (c :: .dir dirName entries :: up) k := by
      rw [Trail]
      exact ⟨n, rs, hst, hf, fun q hq ↦ hqs q (hrs q hq), ht⟩
    exact Or.inr ⟨_, k, by rw [hc]; rfl,
      hfound k _ (hstored.length_le hqs he) (hskip'.trans he) htrail, htrail⟩

/-- **A whole path.** -/
theorem resolve_of_trail (hs : fs.superblock.firstInodeBlock = s.firstInodeBlock)
    (names : List (List UInt8)) : ∀ {trail : List Host} {n : ℕ} {inode : Inode}, Trail fs s trail n →
      Shows fs n inode → throughFile trail names = false →
      (hostWalk trail names = none ∧ fs.resolve inode names = none) ∨
        ∃ trail' m inode', hostWalk trail names = some trail' ∧
          fs.resolve inode names = some inode' ∧ Trail fs s trail' m ∧ Shows fs m inode' := by
  induction names with
  | nil => exact fun {trail n inode} ht hshow _ ↦ Or.inr ⟨trail, n, inode, rfl, rfl, ht, hshow⟩
  | cons name names ih =>
    intro trail n inode ht hshow hfile
    cases trail with
    | nil => exact absurd ht (by rw [Trail]; exact fun hf ↦ hf)
    | cons h up =>
      cases h with
      | file fileName contents =>
        rw [throughFile] at hfile
        exact Bool.noConfusion hfile
      | dir dirName entries =>
        rw [throughFile] at hfile
        · rw [hostWalk, List.foldlM_cons, Fs.resolve_cons]
          rcases child_of_trail ht hs hshow name with ⟨henter, hchild⟩ | ⟨t, m, henter, hchild, ht'⟩
          · rw [henter, hchild]
            exact Or.inl ⟨rfl, rfl⟩
          · rw [henter] at hfile ⊢
            rw [hchild]
            exact ih ht' (Shows.node fs m) hfile
        · intro _ _ _ heq
          cases heq

/-- What stands at the end of a trail is read as what it is. -/
theorem readAs_of_trail (ht : Trail fs s (h :: up) n)
    (hs : fs.superblock.firstInodeBlock = s.firstInodeBlock) (hshow : Shows fs n inode) :
    h.ReadAs fs inode := by
  cases h with
  | file name contents =>
    obtain ⟨m, ps, hstored, hfit, hsound, -⟩ := Trail.cons_iff.mp ht
    rw [Host.Stored] at hstored
    rw [Host.Fits] at hfit
    obtain ⟨p, rfl, his, hon⟩ := hstored
    have hp := hsound p (List.mem_singleton_self p)
    have hfields := hshow.fields hs hp his hon (by decide) (size_lt hfit)
    rw [Host.ReadAs]
    refine ⟨hfields.fileType.trans his.fileType, hfields.size.trans his.size, fun y hy ↦ ?_⟩
    rw [hon.fileByte hp hfields (by rw [length_padded, Placed.length_blocks his])
      (by rw [length_padded]; exact hy), padded]
    rcases Nat.lt_or_ge y contents.length with hlt | hge
    · rw [List.getD_append _ _ _ _ hlt]
    · rw [List.getD_append_right _ _ _ _ hge, List.getD_eq_default contents _ hge]
      rcases Nat.lt_or_ge (y - contents.length)
          ((fsBlock - contents.length % fsBlock) % fsBlock) with hin | hout
      · exact List.getD_replicate 0 hin
      · exact List.getD_eq_default _ _ (by rwa [List.length_replicate])
  | dir name entries =>
    obtain ⟨m, slots, qs, hstored, -, -, -, htype, hsize, hlinks⟩ := ht.links hs hshow
    rw [Host.ReadAs]
    refine ⟨htype, hsize, ?_⟩
    rw [hlinks, List.map_cons, List.map_cons, List.map_map]
    exact congrArg _ (congrArg _ hstored.names)

end Trail

/-! ## The mounted image -/

/-- The file system works on the image of the tree, with the root for both cached directories. -/
structure Mounted (fs : Fs) (base : ByteStore) (entries : List Host) : Prop where
  disk : fs.disk = treeImage base entries
  table : fs.superblock.firstInodeBlock = (treeSuperblock entries).firstInodeBlock
  root : Shows fs 1 fs.rootInode
  current : Shows fs 1 fs.currentDirInode

section Mounted

variable {fs : Fs} {base : ByteStore} {entries : List Host} (hfs : Mounted fs base entries)
include hfs

/-- The root is the trail that every path starts from. -/
theorem Mounted.trail (h : Readable entries) :
    Trail fs (treeSuperblock entries) [.dir [] entries] 1 := by
  rw [Trail, hfs.disk]
  exact ⟨rfl, _, h.stored base, by rw [Host.Fits]; exact ⟨h.root, h.fits⟩, h.sound⟩

theorem Mounted.startDir (path : List UInt8) : Shows fs 1 (fs.startDir path) := by
  rw [Fs.startDir]
  split
  · exact hfs.root
  · exact hfs.current

/-- **Paths are read back as they were written**: the kernel finds what the host has at the path, or
nothing if it has nothing there. -/
theorem Mounted.getInode (h : Readable entries) (path : List UInt8)
    (hpath : throughFile [.dir [] entries] (components path) = false) :
    (hostWalk [.dir [] entries] (components path) = none ∧ fs.getInode path = Inode.zero) ∨
      ∃ c up, hostWalk [.dir [] entries] (components path) = some (c :: up) ∧
        c.ReadAs fs (fs.getInode path) := by
  rw [Fs.getInode_eq]
  rcases resolve_of_trail hfs.table (components path) (hfs.trail h) (hfs.startDir path) hpath with
    ⟨hwalk, hres⟩ | ⟨trail, m, inode, hwalk, hres, ht, hinode⟩
  · rw [hres]
    exact Or.inl ⟨hwalk, rfl⟩
  · cases trail with
    | nil => exact absurd ht (by rw [Trail]; exact fun hf ↦ hf)
    | cons c up =>
      rw [hres]
      exact Or.inr ⟨c, up, hwalk, readAs_of_trail ht hfs.table hinode⟩

end Mounted

end AbOS
