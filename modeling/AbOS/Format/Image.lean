import AbOS.Format.FreeBits
import AbOS.Format.Numbers

/-!
# What the formatter leaves on the disk

The formatter writes inodes, directories and contents in one walk, and the writes of a directory
come before, between and behind those of what it contains.  `Host.Stored` says what the disk holds in
the end: for each file its inode and its contents, for each directory its inode and its entries, and
the same for everything below.

## What is here

* `Placed.Covers` — the bytes that belong to a file or directory: the slot of its inode and its
  blocks.
* `Host.written_write` — writing an entry reaches only bytes of what it places (`Within`), and if
  these are apart from each other (`Separate`), the entry is stored.
* `Host.Stored.congr` — what is stored stays, as long as its bytes do.
* `treeImage_stored`, `treeImage_of_not_covered` — the same for the whole tree, and what stays of the
  disk.
-/

set_option autoImplicit false

namespace AbOS

open ByteStore

/-! ## Contents of files and directories -/

/-- A directory entry: the inode number and the 60 bytes that hold the name. -/
abbrev DirSlot := ℕ × List UInt8

def DirSlot.bytes (slot : DirSlot) : List UInt8 := leBytes 4 slot.1 ++ slot.2

/-- A directory: `.`, `..` and the entries, with zeros up to the end of the last block. -/
def dirData (iNumber parent : ℕ) (slots : List DirSlot) : List UInt8 :=
  padded (DirEntry.bytes ⟨iNumber, [0x2E]⟩ ++
    (DirEntry.bytes ⟨parent, [0x2E, 0x2E]⟩ ++ slots.flatMap DirSlot.bytes))

namespace Placed

variable {s : Superblock} {p q : Placed} {x : ℕ}

/-- A file or directory of that number, type and size, in blocks that follow each other. -/
structure Is (p : Placed) (iNumber fileType size : ℕ) : Prop where
  iNumber : p.iNumber = iNumber
  fileType : p.fileType = fileType
  size : p.size = size
  blocks : ∃ b, p.blocks = blocksFrom b (bytesToBlocks p.size)

/-- The disk has the inode, and the data from the first block on. -/
structure On (p : Placed) (disk : ByteStore) (s : Superblock) (data : List UInt8) : Prop where
  inode : disk.slice (seekInode s p.iNumber) inodeBytes = p.inode.bytes
  data : disk.slice p.start data.length = data

/-- The byte lies in the slot of the inode. -/
def InSlot (p : Placed) (s : Superblock) (x : ℕ) : Prop :=
  seekInode s p.iNumber ≤ x ∧ x < seekInode s p.iNumber + inodeBytes

/-- The byte lies in the blocks. -/
def InBlocks (p : Placed) (x : ℕ) : Prop :=
  p.start ≤ x ∧ x < p.start + p.blocks.length * fsBlock

/-- The byte belongs to the file or directory. -/
def Covers (p : Placed) (s : Superblock) (x : ℕ) : Prop := p.InSlot s x ∨ p.InBlocks x

/-- The two have no byte in common. -/
def Apart (s : Superblock) (p q : Placed) : Prop := ∀ x, p.Covers s x → ¬ q.Covers s x

/-- The inode does not lie in its own blocks. -/
def Split (s : Superblock) (p : Placed) : Prop := ∀ x, p.InSlot s x → ¬ p.InBlocks x

theorem Apart.symm (h : Apart s p q) : Apart s q p := fun x hq hp ↦ h x hp hq

theorem length_blocks {iNumber fileType size : ℕ} (h : p.Is iNumber fileType size) :
    p.blocks.length = bytesToBlocks size := by
  obtain ⟨b, hb⟩ := h.blocks
  rw [hb, blocksFrom, List.length_map, List.length_range, h.size]

/-- What is on the disk stays there, as long as its bytes do. -/
theorem On.congr {disk disk' : ByteStore} {data : List UInt8} (h : p.On disk s data)
    (hlen : data.length = p.blocks.length * fsBlock) (heq : ∀ x, p.Covers s x → disk' x = disk x) :
    p.On disk' s data := by
  refine ⟨?_, ?_⟩
  · rw [← h.inode]
    exact slice_congr fun k hk ↦ heq _ (Or.inl ⟨by omega, by omega⟩)
  · conv_rhs => rw [← h.data]
    exact slice_congr fun k hk ↦ heq _ (Or.inr ⟨by omega, by omega⟩)

end Placed

/-! ## What is stored -/

mutual

/-- The disk holds the entry, which is `ps` with everything below it. -/
def Host.Stored (disk : ByteStore) (s : Superblock) (parent iNumber : ℕ) :
    Host → List Placed → Prop
  | .file _ contents, ps => ∃ p, ps = [p] ∧ p.Is iNumber fileTypeFile contents.length ∧
      p.On disk s (padded contents)
  | .dir _ entries, ps => ∃ p slots qs, ps = p :: qs ∧
      p.Is iNumber fileTypeDir (dirSize entries.length) ∧
      p.On disk s (dirData iNumber parent slots) ∧ EntriesStored disk s iNumber entries slots qs

/-- The disk holds the entries of the directory `dir`, which has them in these slots. -/
def EntriesStored (disk : ByteStore) (s : Superblock) (dir : ℕ) :
    List Host → List DirSlot → List Placed → Prop
  | [], slots, ps => slots = [] ∧ ps = []
  | h :: hs, slots, ps => ∃ (iNumber : ℕ) (buffer : List UInt8) (slots' : List DirSlot)
      (qs qs' : List Placed), slots = (iNumber, buffer) :: slots' ∧ ps = qs ++ qs' ∧
      (buffer.length = 60 ∧ (0 : UInt8) ∈ buffer ∧ cString buffer = h.name) ∧
      (∃ c, iNumber = numberFor c h.name) ∧ h.Stored disk s dir iNumber qs ∧
      EntriesStored disk s dir hs slots' qs'

end

mutual

/-- All names fit into an entry. -/
def Host.NamesFit : Host → Prop
  | .file name _ => name.length ≤ 59 ∧ (0 : UInt8) ∉ name
  | .dir name entries => (name.length ≤ 59 ∧ (0 : UInt8) ∉ name) ∧ EntryNamesFit entries

/-- All names of a list of entries do. -/
def EntryNamesFit : List Host → Prop
  | [] => True
  | h :: hs => h.NamesFit ∧ EntryNamesFit hs

end

theorem Host.NamesFit.name {h : Host} (hfit : h.NamesFit) :
    h.name.length ≤ 59 ∧ (0 : UInt8) ∉ h.name := by
  cases h with
  | file name contents => rw [Host.NamesFit] at hfit; exact hfit
  | dir name entries => rw [Host.NamesFit] at hfit; exact hfit.1

/-! ### Lengths -/

/-- Filled up, the data takes whole blocks. -/
theorem DirSlot.length_bytes {slot : DirSlot} (h : slot.2.length = 60) :
    slot.bytes.length = dirEntryBytes := by
  rw [DirSlot.bytes, List.length_append, length_leBytes, h, dirEntryBytes]

theorem EntriesStored.slots {disk : ByteStore} {s : Superblock} {dir : ℕ} {entries : List Host}
    {slots : List DirSlot} {ps : List Placed} (h : EntriesStored disk s dir entries slots ps) :
    slots.length = entries.length ∧ ∀ slot ∈ slots, slot.2.length = 60 := by
  induction entries generalizing slots ps with
  | nil =>
    rw [EntriesStored] at h
    rw [h.1]
    exact ⟨rfl, fun _ hm ↦ absurd hm List.not_mem_nil⟩
  | cons hd hs ih =>
    rw [EntriesStored] at h
    obtain ⟨n, buffer, slots', qs, qs', rfl, -, hbuffer, -, -, hrest⟩ := h
    obtain ⟨hlen, hall⟩ := ih hrest
    refine ⟨by rw [List.length_cons, List.length_cons, hlen], fun slot hslot ↦ ?_⟩
    rcases List.mem_cons.mp hslot with rfl | hslot
    · exact hbuffer.1
    · exact hall slot hslot

theorem length_flatMap_bytes {slots : List DirSlot} (h : ∀ slot ∈ slots, slot.2.length = 60) :
    (slots.flatMap DirSlot.bytes).length = slots.length * dirEntryBytes := by
  induction slots with
  | nil => rw [List.flatMap_nil, List.length_nil, List.length_nil, Nat.zero_mul]
  | cons slot slots ih =>
    rw [List.flatMap_cons, List.length_append, List.length_cons,
      DirSlot.length_bytes (h _ List.mem_cons_self),
      ih fun _ hm ↦ h _ (List.mem_cons_of_mem _ hm), Nat.add_mul, Nat.one_mul, Nat.add_comm]

theorem length_dots (i j : ℕ) : (DirEntry.bytes ⟨i, [0x2E]⟩).length = dirEntryBytes ∧
    (DirEntry.bytes ⟨j, [0x2E, 0x2E]⟩).length = dirEntryBytes :=
  ⟨DirEntry.length_bytes (show 1 ≤ 59 by decide), DirEntry.length_bytes (show 2 ≤ 59 by decide)⟩

/-- A directory that fits has the size of its entries. -/
theorem dirSize_eq {n : ℕ} (h : (2 + n) * dirEntryBytes ≤ 7 * fsBlock) :
    dirSize n = (2 + n) * dirEntryBytes := by
  rw [dirEntryBytes, fsBlock] at h
  exact Nat.mod_eq_of_lt (by rw [dirEntryBytes]; omega)

theorem length_dirData (iNumber parent : ℕ) {n : ℕ} {slots : List DirSlot} (hn : slots.length = n)
    (hslots : ∀ slot ∈ slots, slot.2.length = 60) (hfit : (2 + n) * dirEntryBytes ≤ 7 * fsBlock) :
    (dirData iNumber parent slots).length = bytesToBlocks (dirSize n) * fsBlock := by
  obtain ⟨hdot, hdots⟩ := length_dots iNumber parent
  rw [dirData, length_padded, List.length_append, List.length_append, hdot, hdots,
    length_flatMap_bytes hslots, hn, dirSize_eq hfit, dirEntryBytes]
  congr 2
  omega

/-! ### Frames -/

mutual

/-- What is stored stays, as long as its bytes do. -/
theorem Host.Stored.congr {disk disk' : ByteStore} {s : Superblock} {parent iNumber : ℕ} :
    ∀ (h : Host) (ps : List Placed), h.Stored disk s parent iNumber ps → h.Fits →
      (∀ x, (∃ p ∈ ps, p.Covers s x) → disk' x = disk x) → h.Stored disk' s parent iNumber ps
  | .file name contents, ps, hstored, _, heq => by
    rw [Host.Stored] at hstored ⊢
    obtain ⟨p, rfl, his, hon⟩ := hstored
    refine ⟨p, rfl, his, hon.congr ?_ fun x hx ↦ heq x ⟨p, List.mem_singleton_self p, hx⟩⟩
    rw [length_padded, Placed.length_blocks his]
  | .dir name entries, ps, hstored, hfit, heq => by
    rw [Host.Stored] at hstored ⊢
    rw [Host.Fits] at hfit
    obtain ⟨p, slots, qs, rfl, his, hon, hrest⟩ := hstored
    obtain ⟨hlen, hslots⟩ := hrest.slots
    refine ⟨p, slots, qs, rfl, his, hon.congr ?_ fun x hx ↦ heq x ⟨p, List.mem_cons_self, hx⟩,
      EntriesStored.congr entries slots qs hrest hfit.2 fun x hx ↦ heq x ?_⟩
    · rw [length_dirData _ _ hlen hslots hfit.1, Placed.length_blocks his]
    · obtain ⟨q, hq, hx⟩ := hx
      exact ⟨q, List.mem_cons_of_mem _ hq, hx⟩

theorem EntriesStored.congr {disk disk' : ByteStore} {s : Superblock} {dir : ℕ} :
    ∀ (entries : List Host) (slots : List DirSlot) (ps : List Placed),
      EntriesStored disk s dir entries slots ps → EntriesFit entries →
      (∀ x, (∃ p ∈ ps, p.Covers s x) → disk' x = disk x) →
      EntriesStored disk' s dir entries slots ps
  | [], slots, ps, hstored, _, _ => by
    rw [EntriesStored] at hstored ⊢
    exact hstored
  | h :: hs, slots, ps, hstored, hfit, heq => by
    rw [EntriesStored] at hstored ⊢
    rw [EntriesFit] at hfit
    obtain ⟨n, buffer, slots', qs, qs', rfl, rfl, hbuffer, hnumber, hhead, hrest⟩ := hstored
    refine ⟨n, buffer, slots', qs, qs', rfl, rfl, hbuffer, hnumber,
      Host.Stored.congr h qs hhead hfit.1 fun x hx ↦ heq x ?_,
      EntriesStored.congr hs slots' qs' hrest hfit.2 fun x hx ↦ heq x ?_⟩
    · obtain ⟨q, hq, hx⟩ := hx
      exact ⟨q, List.mem_append_left _ hq, hx⟩
    · obtain ⟨q, hq, hx⟩ := hx
      exact ⟨q, List.mem_append_right _ hq, hx⟩

end

/-! ## The walk -/

/-- The step places `ps` and writes `ws`. -/
structure Formatter.Adds (st : Formatter) (ps : List Placed) (ws : List (ℕ × List UInt8))
    (st' : Formatter) : Prop where
  superblock : st'.superblock = st.superblock
  placed : st'.placed = st.placed ++ ps
  writes : st'.writes = st.writes ++ ws

theorem Formatter.Adds.append {st st' st'' : Formatter} {ps ps' : List Placed}
    {ws ws' : List (ℕ × List UInt8)} (h : st.Adds ps ws st') (h' : st'.Adds ps' ws' st'') :
    st.Adds (ps ++ ps') (ws ++ ws') st'' :=
  ⟨h'.superblock.trans h.superblock, by rw [h'.placed, h.placed, List.append_assoc],
    by rw [h'.writes, h.writes, List.append_assoc]⟩

/-- The writes stay between `lo` and `hi`, and within what belongs to `ps`. -/
def Within (s : Superblock) (lo hi : ℕ) (ps : List Placed) (ws : List (ℕ × List UInt8)) : Prop :=
  ∀ x w, w ∈ ws → Reaches w x → (lo ≤ x ∧ x < hi) ∨ ∃ p ∈ ps, p.Covers s x

/-- No byte between `lo` and `hi` belongs to one of `ps`. -/
def Clear (s : Superblock) (lo hi : ℕ) (ps : List Placed) : Prop :=
  ∀ x, lo ≤ x → x < hi → ∀ p ∈ ps, ¬ p.Covers s x

section walk

variable {s : Superblock} {lo hi : ℕ} {ps qs : List Placed} {ws : List (ℕ × List UInt8)}

/-- Writes within something else do not change what is stored. -/
theorem Within.splices_eq (h : Within s lo hi ps ws) (m : ByteStore) {x : ℕ}
    (hout : ¬ (lo ≤ x ∧ x < hi)) (hps : ∀ p ∈ ps, ¬ p.Covers s x) : m.splices ws x = m x := by
  refine splices_of_not_reached fun w hw hreach ↦ ?_
  rcases h x w hw hreach with hx | ⟨p, hp, hx⟩
  · exact hout hx
  · exact hps p hp hx

theorem cString_strcpyName {buffer name : List UInt8} (hzero : (0 : UInt8) ∉ name) :
    cString (strcpyName buffer name) = name := by
  rw [cString, strcpyName, List.takeWhile_append_of_pos fun b hb ↦ ?_, List.takeWhile_cons_of_neg,
    List.append_nil]
  · decide
  · rw [bne_iff_ne]
    rintro rfl
    exact hzero hb

theorem length_strcpyName {buffer name : List UInt8} (hbuffer : buffer.length = 60)
    (hname : name.length ≤ 59) : (strcpyName buffer name).length = 60 := by
  rw [strcpyName, List.length_append, List.length_cons, List.length_drop]
  omega

/-- A regular file. -/
theorem Formatter.adds_writeFile (st : Formatter) (path : List (List UInt8)) (name : List UInt8)
    (iNumber : ℕ) {contents : List UInt8} (hfit : contents.length ≤ 7 * fsBlock) :
    ∃ p : Placed, p.Is iNumber fileTypeFile contents.length ∧
      st.Adds [p] [(seekInode st.superblock p.iNumber, p.inode.bytes), (p.start, padded contents)]
        (st.writeFile path name iNumber contents) := by
  rw [fsBlock] at hfit
  have hsize : contents.length % 2 ^ 32 = contents.length := Nat.mod_eq_of_lt (by omega)
  rw [Formatter.writeFile, Formatter.takeFileBlocks_eq st path, hsize]
  refine ⟨_, ⟨rfl, rfl, rfl, _, rfl⟩, rfl, rfl, ?_⟩
  simp only [Formatter.write, Formatter.place, List.append_assoc]
  rfl

/-- The beginning of a directory. -/
theorem Formatter.adds_openDir (st : Formatter) (path : List (List UInt8)) (iNumber parent n : ℕ) :
    ∃ p : Placed, p.Is iNumber fileTypeDir (dirSize n) ∧
      (st.openDir path iNumber parent n).1 = p.start ∧
      st.Adds [p] [(seekInode st.superblock p.iNumber, p.inode.bytes),
        (p.start, DirEntry.bytes ⟨iNumber, [0x2E]⟩),
        (p.start + dirEntryBytes, DirEntry.bytes ⟨parent, [0x2E, 0x2E]⟩)]
        (st.openDir path iNumber parent n).2 := by
  refine ⟨⟨path, iNumber, fileTypeDir, dirSize n,
    blocksFrom st.firstBlock (bytesToBlocks (dirSize n))⟩, ⟨rfl, rfl, rfl, _, rfl⟩, rfl, rfl, rfl, ?_⟩
  simp only [Formatter.openDir, Formatter.takeBlocks, Formatter.write, Formatter.place,
    List.append_assoc]
  rfl

/-- The number for an entry, and the entry itself. -/
theorem Formatter.adds_number (st : Formatter) (name : List UInt8) (address : ℕ)
    (bytes : List UInt8) :
    st.Adds [] [(address, bytes)] ((st.number name).2.write address bytes) := by
  have hnumber : (st.number name).2.superblock = st.superblock ∧
      (st.number name).2.placed = st.placed ∧ (st.number name).2.writes = st.writes := by
    rw [Formatter.number]
    split_ifs <;> exact ⟨rfl, rfl, rfl⟩
  exact ⟨hnumber.1, by rw [List.append_nil]; exact hnumber.2.1,
    by rw [Formatter.write, hnumber.2.2]⟩

theorem Within.append {ws' : List (ℕ × List UInt8)} (h : Within s lo hi ps ws)
    (h' : Within s lo hi ps ws') : Within s lo hi ps (ws ++ ws') := fun x w hw hreach ↦
  (List.mem_append.mp hw).elim (fun hw ↦ h x w hw hreach) fun hw ↦ h' x w hw hreach

theorem Within.mono {lo' hi' : ℕ} (h : Within s lo hi ps ws) (hps : ∀ p ∈ ps, p ∈ qs)
    (hrange : ∀ x, lo ≤ x → x < hi → (lo' ≤ x ∧ x < hi') ∨ ∃ p ∈ qs, p.Covers s x) :
    Within s lo' hi' qs ws := fun x w hw hreach ↦ by
  rcases h x w hw hreach with ⟨hle, hlt⟩ | ⟨p, hp, hx⟩
  · exact hrange x hle hlt
  · exact Or.inr ⟨p, hps p hp, hx⟩

/-- A single write. -/
theorem Within.singleton {a : ℕ} {bs : List UInt8}
    (h : ∀ x, a ≤ x → x < a + bs.length → (lo ≤ x ∧ x < hi) ∨ ∃ p ∈ ps, p.Covers s x) :
    Within s lo hi ps [(a, bs)] := fun x w hw hreach ↦ by
  rw [List.mem_singleton.mp hw] at hreach
  exact h x hreach.1 hreach.2

/-! ### A regular file -/

section file

variable {p : Placed} {contents : List UInt8} {iNumber : ℕ}
  (his : p.Is iNumber fileTypeFile contents.length)
include his

theorem within_writeFile : Within s 0 0 [p]
    [(seekInode s p.iNumber, p.inode.bytes), (p.start, padded contents)] := by
  have hp : p ∈ [p] := List.mem_singleton_self p
  refine (Within.singleton fun x hle hlt ↦ Or.inr ⟨p, hp, Or.inl ⟨hle, ?_⟩⟩).append
    (Within.singleton fun x hle hlt ↦ Or.inr ⟨p, hp, Or.inr ⟨hle, ?_⟩⟩)
  · rwa [Inode.length_bytes] at hlt
  · rwa [length_padded, ← Placed.length_blocks his] at hlt

theorem on_writeFile (hsplit : p.Split s) (m : ByteStore) : p.On
    (m.splices [(seekInode s p.iNumber, p.inode.bytes), (p.start, padded contents)]) s
    (padded contents) := by
  have hlen : (padded contents).length = p.blocks.length * fsBlock := by
    rw [length_padded, Placed.length_blocks his]
  refine ⟨?_, ?_⟩
  · rw [splices_cons, splices_cons, splices_nil]
    dsimp only
    rw [← p.inode.length_bytes]
    refine Eq.trans (slice_congr fun k hk ↦ ?_) (slice_splice_self m _ p.inode.bytes)
    rw [p.inode.length_bytes] at hk
    refine splice_of_not_mem ?_
    have := hsplit (seekInode s p.iNumber + k) ⟨by omega, by omega⟩
    rw [Placed.InBlocks] at this
    omega
  · exact slice_splices_self m [(seekInode s p.iNumber, p.inode.bytes)] [] rfl
      fun w hw ↦ absurd hw List.not_mem_nil

end file

/-! ### A directory -/

section directory

variable {p : Placed} {iNumber parent n : ℕ} {slots : List DirSlot}

/-- The writes at the beginning of a directory. -/
def openWrites (s : Superblock) (p : Placed) (iNumber parent : ℕ) : List (ℕ × List UInt8) :=
  [(seekInode s p.iNumber, p.inode.bytes), (p.start, DirEntry.bytes ⟨iNumber, [0x2E]⟩),
    (p.start + dirEntryBytes, DirEntry.bytes ⟨parent, [0x2E, 0x2E]⟩)]

/-- The write at its end. -/
def closeWrite (p : Placed) (n : ℕ) : ℕ × List UInt8 :=
  (p.start + (2 + n) * dirEntryBytes, List.replicate ((fsBlock - dirSize n % fsBlock) % fsBlock) 0)

variable (his : p.Is iNumber fileTypeDir (dirSize n))
  (hfit : (2 + n) * dirEntryBytes ≤ 7 * fsBlock)
include his hfit

/-- The entries and the zeros behind them fill the blocks. -/
theorem closeWrite_end : (2 + n) * dirEntryBytes + (closeWrite p n).2.length =
    p.blocks.length * fsBlock := by
  rw [Placed.length_blocks his, closeWrite, List.length_replicate, bytesToBlocks_eq, dirSize_eq hfit,
    dirEntryBytes, fsBlock]
  omega

theorem within_openWrites : Within s 0 0 [p] (openWrites s p iNumber parent) := by
  have hp : p ∈ [p] := List.mem_singleton_self p
  obtain ⟨hdot, hdots⟩ := length_dots iNumber parent
  have hend := closeWrite_end his hfit
  have htwo : 2 * dirEntryBytes ≤ (2 + n) * dirEntryBytes := Nat.mul_le_mul_right _ (by omega)
  refine (Within.singleton fun x hle hlt ↦ Or.inr ⟨p, hp, Or.inl ⟨hle, ?_⟩⟩).append
    ((Within.singleton fun x hle hlt ↦ Or.inr ⟨p, hp, Or.inr ⟨hle, ?_⟩⟩).append
    (Within.singleton fun x hle hlt ↦ Or.inr ⟨p, hp, Or.inr ⟨?_, ?_⟩⟩))
  · rwa [Inode.length_bytes] at hlt
  · rw [hdot] at hlt
    omega
  · omega
  · rw [hdots] at hlt
    omega

/-- The directory is on the disk, when its entries stand in its blocks and everything else that is
written stays off it. -/
theorem on_writeDir (hsplit : p.Split s) (hlen : slots.length = n)
    (hslots : ∀ slot ∈ slots, slot.2.length = 60)
    (hwithin : Within s (p.start + 2 * dirEntryBytes) (p.start + (2 + n) * dirEntryBytes) qs ws)
    (hapart : ∀ q ∈ qs, Placed.Apart s p q) (m : ByteStore)
    (hentries : ((m.splices (openWrites s p iNumber parent)).splices ws).slice
      (p.start + 2 * dirEntryBytes) (n * dirEntryBytes) = slots.flatMap DirSlot.bytes) :
    p.On (m.splices (openWrites s p iNumber parent ++ (ws ++ [closeWrite p n]))) s
      (dirData iNumber parent slots) := by
  obtain ⟨hdot, hdots⟩ := length_dots iNumber parent
  have hend := closeWrite_end his hfit
  rw [splices_append, splices_append, splices_cons, splices_nil]
  generalize hm₁ : m.splices (openWrites s p iNumber parent) = m₁ at hentries ⊢
  -- the inode and the blocks lie apart, and the loop leaves both alone outside its range
  have hloop : ∀ x, p.Covers s x → ¬ (p.start + 2 * dirEntryBytes ≤ x ∧
      x < p.start + (2 + n) * dirEntryBytes) → m₁.splices ws x = m₁ x := fun x hx hout ↦
    hwithin.splices_eq m₁ hout fun q hq ↦ hapart q hq x hx
  have hle : (2 + n) * dirEntryBytes = dirEntryBytes + (dirEntryBytes + n * dirEntryBytes) := by
    rw [dirEntryBytes]
    omega
  have hpos : 0 < inodeBytes ∧ 0 < dirEntryBytes := by decide
  have hsep : seekInode s p.iNumber + inodeBytes ≤ p.start ∨
      p.start + p.blocks.length * fsBlock ≤ seekInode s p.iNumber := by
    by_contra hno
    exact hsplit (max (seekInode s p.iNumber) p.start) ⟨by omega, by omega⟩ ⟨by omega, by omega⟩
  refine ⟨?_, ?_⟩
  · have hopen : m₁.slice (seekInode s p.iNumber) inodeBytes = p.inode.bytes := by
      rw [← hm₁]
      refine slice_splices_self m [] _ p.inode.length_bytes fun w hw ↦ ?_
      rcases List.mem_cons.mp hw with rfl | hw
      · dsimp only
        rw [hdot]
        omega
      · rw [List.mem_singleton.mp hw]
        dsimp only
        rw [hdots]
        omega
    rw [← hopen]
    refine slice_congr fun k hk ↦ ?_
    rw [splice_of_not_mem, hloop]
    · exact Or.inl ⟨by omega, by omega⟩
    · omega
    · rw [closeWrite] at hend ⊢
      dsimp only at hend ⊢
      omega
  · have hpadded : dirData iNumber parent slots = DirEntry.bytes ⟨iNumber, [0x2E]⟩ ++
        (DirEntry.bytes ⟨parent, [0x2E, 0x2E]⟩ ++ (slots.flatMap DirSlot.bytes ++
          (closeWrite p n).2)) := by
      rw [dirData, padded, List.length_append, List.length_append, hdot, hdots,
        length_flatMap_bytes hslots, hlen, ← hle, closeWrite, dirSize_eq hfit, List.append_assoc,
        List.append_assoc]
    have hout : ∀ x, x < p.start + (2 + n) * dirEntryBytes →
        (m₁.splices ws).splice (closeWrite p n).1 (closeWrite p n).2 x = m₁.splices ws x :=
      fun x hx ↦ splice_of_not_mem (Or.inl hx)
    have hdotSlice : m₁.slice p.start dirEntryBytes = DirEntry.bytes ⟨iNumber, [0x2E]⟩ := by
      rw [← hm₁]
      refine slice_splices_self m [(seekInode s p.iNumber, p.inode.bytes)] _ hdot fun w hw ↦ ?_
      rw [List.mem_singleton.mp hw]
      exact Or.inr (Nat.le_refl _)
    have hdotsSlice : m₁.slice (p.start + dirEntryBytes) dirEntryBytes =
        DirEntry.bytes ⟨parent, [0x2E, 0x2E]⟩ := by
      rw [← hm₁]
      exact slice_splices_self m [(seekInode s p.iNumber, p.inode.bytes),
        (p.start, DirEntry.bytes ⟨iNumber, [0x2E]⟩)] [] hdots fun w hw ↦ absurd hw List.not_mem_nil
    rw [hpadded, List.length_append, List.length_append, List.length_append, hdot, hdots,
      length_flatMap_bytes hslots, hlen, slice_append, slice_append, slice_append]
    refine congrArg₂ _ ?_ (congrArg₂ _ ?_ (congrArg₂ _ ?_ ?_))
    · rw [← hdotSlice]
      refine slice_congr fun k hk ↦ ?_
      rw [hout _ (by omega), hloop _ (Or.inr ⟨by omega, by omega⟩) (by omega)]
    · rw [← hdotsSlice]
      refine slice_congr fun k hk ↦ ?_
      rw [hout _ (by omega), hloop _ (Or.inr ⟨by omega, by omega⟩) (by omega)]
    · rw [← hentries, show p.start + dirEntryBytes + dirEntryBytes = p.start + 2 * dirEntryBytes by
        omega]
      exact slice_congr fun k hk ↦ hout _ (by omega)
    · have hstart : p.start + dirEntryBytes + dirEntryBytes + n * dirEntryBytes =
          (closeWrite p n).1 := by
        rw [closeWrite]
        dsimp only
        omega
      rw [hstart]
      exact slice_splice_self ..

end directory

/-- What is placed stands on the disk, if nothing of it shares a byte. -/
def Separate (s : Superblock) (ps : List Placed) : Prop :=
  (∀ p ∈ ps, p.Split s) ∧ ps.Pairwise (Placed.Apart s)

theorem Separate.append (h : Separate s (ps ++ qs)) :
    Separate s ps ∧ Separate s qs ∧ ∀ p ∈ ps, ∀ q ∈ qs, Placed.Apart s p q := by
  obtain ⟨hsplit, hpair⟩ := h
  rw [List.pairwise_append] at hpair
  exact ⟨⟨fun p hp ↦ hsplit p (List.mem_append_left _ hp), hpair.1⟩,
    ⟨fun q hq ↦ hsplit q (List.mem_append_right _ hq), hpair.2.1⟩, hpair.2.2⟩

end walk

/-- The entry `h` has been written: `ps` and `ws` are what it placed and wrote. -/
structure Host.Written (h : Host) (s : Superblock) (parent iNumber : ℕ) (ps : List Placed)
    (ws : List (ℕ × List UInt8)) : Prop where
  within : Within s 0 0 ps ws
  stored : Separate s ps → ∀ m : ByteStore, h.Stored (m.splices ws) s parent iNumber ps

/-- The entries have been written from `lo` on. -/
structure EntriesWritten (entries : List Host) (s : Superblock) (dir lo : ℕ)
    (slots : List DirSlot) (ps : List Placed) (ws : List (ℕ × List UInt8)) : Prop where
  length : slots.length = entries.length
  buffers : ∀ slot ∈ slots, slot.2.length = 60
  within : Within s lo (lo + entries.length * dirEntryBytes) ps ws
  stored : Separate s ps → Clear s lo (lo + entries.length * dirEntryBytes) ps →
    ∀ m : ByteStore, EntriesStored (m.splices ws) s dir entries slots ps ∧
      (m.splices ws).slice lo (entries.length * dirEntryBytes) = slots.flatMap DirSlot.bytes

/-- A directory whose entries have been written. -/
theorem dirWritten {s : Superblock} {name : List UInt8} {entries : List Host} {iNumber parent : ℕ}
    {p : Placed} {slots : List DirSlot} {qs : List Placed} {ws : List (ℕ × List UInt8)}
    (his : p.Is iNumber fileTypeDir (dirSize entries.length))
    (hfit : (2 + entries.length) * dirEntryBytes ≤ 7 * fsBlock) (hentriesFit : EntriesFit entries)
    (hentries : EntriesWritten entries s iNumber (p.start + 2 * dirEntryBytes) slots qs ws) :
    (Host.dir name entries).Written s parent iNumber (p :: qs)
      (openWrites s p iNumber parent ++ (ws ++ [closeWrite p entries.length])) := by
  have hend := closeWrite_end his hfit
  have hrange : p.start + 2 * dirEntryBytes + entries.length * dirEntryBytes =
      p.start + (2 + entries.length) * dirEntryBytes := by
    rw [dirEntryBytes]
    omega
  have hp : p ∈ p :: qs := List.mem_cons_self
  refine ⟨?_, fun hsep m ↦ ?_⟩
  · refine ((within_openWrites his hfit).mono (fun q hq ↦ List.mem_singleton.mp hq ▸ hp)
      fun x hle hlt ↦ Or.inl ⟨hle, hlt⟩).append (Within.append ?_ ?_)
    · exact hentries.within.mono (fun q hq ↦ List.mem_cons_of_mem _ hq)
        fun x hle hlt ↦ Or.inr ⟨p, hp, Or.inr ⟨by omega, by omega⟩⟩
    · refine Within.singleton fun x hle hlt ↦ Or.inr ⟨p, hp, Or.inr ⟨?_, ?_⟩⟩ <;>
      · rw [closeWrite] at hend
        dsimp only at hend
        omega
  · obtain ⟨⟨hsplit, -⟩, hqs, hpq⟩ := (List.singleton_append ▸ hsep : Separate _ ([p] ++ _)).append
    have hpq := fun q hq ↦ hpq p (List.mem_singleton_self p) q hq
    have hp := hsplit p (List.mem_singleton_self p)
    have hclear : ∀ x, p.start ≤ x → x < p.start + p.blocks.length * fsBlock → ∀ q ∈ qs,
        ¬ q.Covers s x := fun x hle hlt q hq ↦ hpq q hq x (Or.inr ⟨hle, hlt⟩)
    obtain ⟨hstored, hslice⟩ := hentries.stored hqs
      (fun x hle hlt q hq ↦ hclear x (by omega) (by omega) q hq)
      (m.splices (openWrites s p iNumber parent))
    rw [Host.Stored]
    refine ⟨p, slots, qs, rfl, his, on_writeDir his hfit hp hentries.length hentries.buffers
      (hrange ▸ hentries.within) hpq m hslice, hstored.congr entries slots qs hentriesFit
      fun x hx ↦ ?_⟩
    obtain ⟨q, hq, hx⟩ := hx
    -- the zeros behind the last entry are no bytes of what lies below
    rw [splices_append, splices_append, splices_cons, splices_nil]
    refine splice_of_not_mem ?_
    by_contra hin
    refine hclear x ?_ ?_ q hq hx <;>
    · rw [closeWrite] at hend hin
      dsimp only at hend hin
      omega

/-- An entry and the ones behind it. -/
theorem entriesWritten_cons {h : Host} {hs : List Host} {s : Superblock} {dir lo iNumber : ℕ}
    {buffer : List UInt8} {slots : List DirSlot} {qs qs' : List Placed}
    {ws ws' : List (ℕ × List UInt8)} (hbuffer : buffer.length = 60) (hzero : (0 : UInt8) ∈ buffer)
    (hfit : h.Fits) (hname : cString buffer = h.name) (hnumber : ∃ c, iNumber = numberFor c h.name)
    (hhead : h.Written s dir iNumber qs ws)
    (hrest : EntriesWritten hs s dir (lo + dirEntryBytes) slots qs' ws') :
    EntriesWritten (h :: hs) s dir lo ((iNumber, buffer) :: slots) ([] ++ qs ++ qs')
      ([(lo, DirSlot.bytes (iNumber, buffer))] ++ ws ++ ws') := by
  have hlen : (DirSlot.bytes (iNumber, buffer)).length = dirEntryBytes :=
    DirSlot.length_bytes hbuffer
  have hrange : lo + (h :: hs).length * dirEntryBytes =
      lo + dirEntryBytes + hs.length * dirEntryBytes := by
    rw [List.length_cons, dirEntryBytes]
    omega
  refine ⟨by rw [List.length_cons, hrest.length, List.length_cons], fun slot hslot ↦ ?_, ?_,
    fun hsep hclear m ↦ ?_⟩
  · rcases List.mem_cons.mp hslot with rfl | hslot
    · exact hbuffer
    · exact hrest.buffers slot hslot
  · refine ((Within.singleton fun x hle hlt ↦ Or.inl ⟨hle, ?_⟩).append
      (hhead.within.mono (fun q hq ↦ List.mem_append_left _ hq) fun x _ hlt ↦ ?_)).append
      (hrest.within.mono (fun q hq ↦ List.mem_append_right _ hq) fun x hle hlt ↦
        Or.inl ⟨by omega, by omega⟩)
    · rw [hlen] at hlt
      omega
    · omega
  · obtain ⟨hqs, hqs', happart⟩ := hsep.append
    rw [hrange] at hclear
    obtain ⟨hstored', hslice'⟩ := hrest.stored hqs'
      (fun x hle hlt q hq ↦ hclear x (by omega) hlt q (List.mem_append_right _ hq))
      ((m.splice lo (DirSlot.bytes (iNumber, buffer))).splices ws)
    rw [splices_append, splices_append, splices_cons, splices_nil]
    refine ⟨?_, ?_⟩
    · rw [EntriesStored]
      refine ⟨iNumber, buffer, slots, qs, qs', rfl, rfl, ⟨hbuffer, hzero, hname⟩, hnumber,
        Host.Stored.congr h qs
          (hhead.stored hqs (m.splice lo (DirSlot.bytes (iNumber, buffer)))) hfit fun x hx ↦ ?_,
        hstored'⟩
      obtain ⟨q, hq, hx⟩ := hx
      -- the entries behind do not touch what lies below this one
      exact hrest.within.splices_eq _
        (fun hin ↦ hclear x (by omega) hin.2 q (List.mem_append_left _ hq) hx)
        fun q' hq' hx' ↦ happart q hq q' hq' x hx hx'
    · rw [List.flatMap_cons, List.length_cons, Nat.add_mul, Nat.one_mul, Nat.add_comm, slice_append,
        hslice', ← hlen]
      congr 1
      refine Eq.trans (slice_congr fun k hk ↦ ?_)
        (slice_splice_self m lo (DirSlot.bytes (iNumber, buffer)))
      rw [hlen] at hk
      rw [hrest.within.splices_eq _ (by omega) fun q hq ↦
          hclear _ (by omega) (by omega) q (List.mem_append_right _ hq),
        hhead.within.splices_eq _ (by omega) fun q hq ↦
          hclear _ (by omega) (by omega) q (List.mem_append_left _ hq)]

mutual

/-- **An entry is written**, with everything below it. -/
theorem Host.written_write (path : List (List UInt8)) (parent iNumber : ℕ) :
    ∀ (h : Host) (st : Formatter), h.Fits → h.NamesFit →
      ∃ ps ws, st.Adds ps ws (h.write path parent iNumber st) ∧
        h.Written st.superblock parent iNumber ps ws
  | .file name contents, st, hfit, _ => by
    rw [Host.Fits] at hfit
    obtain ⟨p, his, hadds⟩ := st.adds_writeFile (path ++ [name]) name iNumber hfit
    refine ⟨_, _, by rw [Host.write]; exact hadds, within_writeFile his, fun hsep m ↦ ?_⟩
    rw [Host.Stored]
    exact ⟨p, rfl, his, on_writeFile his (hsep.1 p (List.mem_singleton_self p)) m⟩
  | .dir name entries, st, hfit, hnames => by
    rw [Host.Fits] at hfit
    rw [Host.NamesFit] at hnames
    obtain ⟨p, his, hstart, hopen⟩ :=
      st.adds_openDir (path ++ [name]) iNumber parent entries.length
    obtain ⟨slots, qs, ws, hadds, hwritten⟩ := written_writeEntries (path ++ [name]) iNumber p.start
      (strcpyName (List.replicate 60 0) [0x2E, 0x2E]) 2 entries
      (st.openDir (path ++ [name]) iNumber parent entries.length).2 (by decide) hfit.2 hnames.2
    rw [hopen.superblock] at hwritten
    refine ⟨p :: qs, _, ?_, dirWritten his hfit.1 hfit.2 hwritten⟩
    rw [Host.write]
    dsimp only
    rw [hstart]
    have hboth := hopen.append hadds
    refine ⟨hboth.superblock, hboth.placed, ?_⟩
    rw [Formatter.closeDir, Formatter.write, hboth.writes, List.append_assoc, List.append_assoc]
    rfl

/-- A list of entries is written from the entry `i` on. -/
theorem written_writeEntries (path : List (List UInt8)) (dir start : ℕ) :
    ∀ (buffer : List UInt8) (i : ℕ) (entries : List Host) (st : Formatter), buffer.length = 60 →
      EntriesFit entries → EntryNamesFit entries →
      ∃ slots ps ws, st.Adds ps ws (writeEntries path dir start buffer i entries st) ∧
        EntriesWritten entries st.superblock dir (start + i * dirEntryBytes) slots ps ws
  | buffer, i, [], st, _, _, _ => by
    refine ⟨[], [], [], ?_, rfl, fun _ hm ↦ absurd hm List.not_mem_nil,
      fun _ _ hm ↦ absurd hm List.not_mem_nil, fun _ _ m ↦ ⟨?_, ?_⟩⟩
    · rw [writeEntries]
      exact ⟨rfl, (List.append_nil _).symm, (List.append_nil _).symm⟩
    · rw [EntriesStored]
      exact ⟨rfl, rfl⟩
    · rw [List.length_nil, Nat.zero_mul]
      rfl
  | buffer, i, h :: hs, st, hbuffer, hfit, hnames => by
    rw [EntriesFit] at hfit
    rw [EntryNamesFit] at hnames
    obtain ⟨hshort, hzero⟩ := hnames.1.name
    have hbuffer' := length_strcpyName hbuffer hshort
    obtain ⟨st₁, hst₁⟩ : ∃ st₁, st₁ = (st.number h.name).2.write (start + i * dirEntryBytes)
      (DirSlot.bytes ((st.number h.name).1, strcpyName buffer h.name)) := ⟨_, rfl⟩
    have hnumber := st.adds_number h.name (start + i * dirEntryBytes)
      (DirSlot.bytes ((st.number h.name).1, strcpyName buffer h.name))
    rw [← hst₁] at hnumber
    obtain ⟨qs, ws, hadds, hwritten⟩ :=
      Host.written_write path dir (st.number h.name).1 h st₁ hfit.1 hnames.1
    obtain ⟨slots', qs', ws', hadds', hwritten'⟩ := written_writeEntries path dir start
      (strcpyName buffer h.name) (i + 1) hs (h.write path dir (st.number h.name).1 st₁) hbuffer'
      hfit.2 hnames.2
    rw [hnumber.superblock] at hwritten
    rw [hadds.superblock, hnumber.superblock, Nat.add_mul, Nat.one_mul, ← Nat.add_assoc]
      at hwritten'
    refine ⟨_, _, _, ?_, entriesWritten_cons hbuffer'
      (List.mem_append_right _ List.mem_cons_self) hfit.1 (cString_strcpyName hzero)
      ⟨_, (st.number_spec h.name).1⟩ hwritten hwritten'⟩
    rw [writeEntries]
    dsimp only
    rw [hst₁] at hnumber hadds hadds'
    exact (hnumber.append hadds).append hadds'

end

/-! ## The tree -/

/-- What the tree leaves on a disk that has held `base` before. -/
def treeImage (base : ByteStore) (entries : List Host) : ByteStore :=
  base.splices (formatTree entries).writes

/-- The root is written first: its inode with `.` and `..`, then all that is below it, and then the
zeros behind its entries. -/
theorem formatTree_root {entries : List Host} (hfit : EntriesFit entries)
    (hnames : EntryNamesFit entries) :
    ∃ (p : Placed) (slots : List DirSlot) (qs : List Placed) (ws : List (ℕ × List UInt8)),
      p.Is 1 fileTypeDir (dirSize entries.length) ∧
      p.start = (blocksFrom (writeSuperblock (getFileInfo entries)).firstDataBlock
        (bytesToBlocks (dirSize entries.length))).getD 0 0 * fsBlock % 2 ^ 32 ∧
      EntriesWritten entries (writeSuperblock (getFileInfo entries)) 1
        (p.start + 2 * dirEntryBytes) slots qs ws ∧
      (formatTree entries).placed = p :: qs ∧
      (formatTree entries).writes = openWrites (writeSuperblock (getFileInfo entries)) p 1 1 ++
        (ws ++ [closeWrite p entries.length]) := by
  rw [formatTree]
  generalize hst : (Formatter.mk (writeSuperblock (getFileInfo entries))
    (writeSuperblock (getFileInfo entries)).firstDataBlock 4 [] []) = st
  have hempty : st.superblock = writeSuperblock (getFileInfo entries) ∧ st.placed = [] ∧
      st.writes = [] := by
    rw [← hst]
    exact ⟨rfl, rfl, rfl⟩
  obtain ⟨p, his, hstart, hopen⟩ := st.adds_openDir [] 1 1 entries.length
  obtain ⟨slots, qs, ws, hadds, hwritten⟩ := written_writeEntries [] 1 p.start
    (strcpyName (List.replicate 60 0) [0x2E, 0x2E]) 2 entries (st.openDir [] 1 1 entries.length).2
    (by decide) hfit hnames
  have hboth := hopen.append hadds
  rw [hopen.superblock, hempty.1] at hwritten
  refine ⟨p, slots, qs, ws, his, ?_, hwritten, ?_, ?_⟩
  · rw [← hstart, ← hst]
    rfl
  · rw [writeFileData]
    dsimp only
    rw [hstart]
    exact hboth.placed.trans (by rw [hempty.2.1]; rfl)
  · rw [writeFileData]
    dsimp only
    rw [hstart, Formatter.closeDir, Formatter.write, hboth.writes, hempty.2.2, List.nil_append,
      List.append_assoc, hempty.1]
    rfl

/-- **The whole tree is written**, as a directory with the number 1 that is its own parent. -/
theorem formatTree_written {entries : List Host}
    (hroot : (2 + entries.length) * dirEntryBytes ≤ 7 * fsBlock) (hfit : EntriesFit entries)
    (hnames : EntryNamesFit entries) :
    (Host.dir [] entries).Written (writeSuperblock (getFileInfo entries)) 1 1
      (formatTree entries).placed (formatTree entries).writes := by
  obtain ⟨p, slots, qs, ws, his, -, hwritten, hplaced, hwrites⟩ := formatTree_root hfit hnames
  rw [hplaced, hwrites]
  exact dirWritten his hroot hfit hwritten

/-- The tree is stored on the image, if its parts lie apart. -/
theorem treeImage_stored {entries : List Host}
    (hroot : (2 + entries.length) * dirEntryBytes ≤ 7 * fsBlock) (hfit : EntriesFit entries)
    (hnames : EntryNamesFit entries)
    (hsep : Separate (writeSuperblock (getFileInfo entries)) (formatTree entries).placed)
    (base : ByteStore) :
    (Host.dir [] entries).Stored (treeImage base entries) (writeSuperblock (getFileInfo entries)) 1 1
      (formatTree entries).placed :=
  (formatTree_written hroot hfit hnames).stored hsep base

/-- What does not belong to the tree is left as it was. -/
theorem treeImage_of_not_covered {entries : List Host}
    (hroot : (2 + entries.length) * dirEntryBytes ≤ 7 * fsBlock) (hfit : EntriesFit entries)
    (hnames : EntryNamesFit entries) (base : ByteStore) {x : ℕ}
    (hx : ∀ p ∈ (formatTree entries).placed,
      ¬ p.Covers (writeSuperblock (getFileInfo entries)) x) :
    treeImage base entries x = base x :=
  (formatTree_written hroot hfit hnames).within.splices_eq base (by omega) hx

end AbOS
