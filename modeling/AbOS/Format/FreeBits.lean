import AbOS.Format.Blocks

/-!
# What a fresh image offers as free

The kernel takes a zero bit of a bitmap for a free inode number or a free data block.  The formatter
writes both bitmaps without looking at the tree: all bits are set, but for 8 to 31 of the inodes and
25 to 31 of the data.

This agrees with no tree at all (`not_freeAgrees`).  The image ends with as many empty blocks as it
has others, and the seven data bits cannot stand for all of them.
-/

set_option autoImplicit false

namespace AbOS

/-- The bit `k` of a bitmap. -/
def wordsBit (words : List ℕ) (k : ℕ) : Bool := (words.getD (k / 32) 0).testBit (k % 32)

/-- A bit that `find_free_bit` can offer. -/
def Offered (words : List ℕ) (k : ℕ) : Prop := k < 32 * words.length ∧ wordsBit words k = false

/-- The block lies on the disk. -/
def OnDisk (entries : List Host) (b : ℕ) : Prop := (b + 1) * fsBlock ≤ imageBytes entries

/-- A file or directory owns the block. -/
def Owned (entries : List Host) (b : ℕ) : Prop := ∃ p ∈ (formatTree entries).placed, b ∈ p.blocks

/-- A file or directory has the inode number. -/
def Numbered (entries : List Host) (k : ℕ) : Prop :=
  ∃ p ∈ (formatTree entries).placed, p.iNumber = k

/-- The bitmaps and the superblock say what is free: the bits that are offered are the unused inode
numbers and the unowned data blocks, and the cached bits are among them. -/
structure FreeAgrees (entries : List Host) (s : Superblock) : Prop where
  inodeUnused : ∀ k, Offered (inodeBitmapWords s) k → ¬ Numbered entries k
  inodeOffered : ∀ k, 0 < k → k < inodesPerBlock * (s.firstDataBlock - s.firstInodeBlock) →
    ¬ Numbered entries k → Offered (inodeBitmapWords s) k
  dataUnowned : ∀ b, Offered (dataBitmapWords s) b →
    OnDisk entries (s.firstDataBlock + b) ∧ ¬ Owned entries (s.firstDataBlock + b)
  dataOffered : ∀ b, OnDisk entries (s.firstDataBlock + b) →
    ¬ Owned entries (s.firstDataBlock + b) → Offered (dataBitmapWords s) b
  firstFreeInodeBit : Offered (inodeBitmapWords s) s.firstFreeInodeBit
  firstFreeDataBit : Offered (dataBitmapWords s) s.firstFreeDataBit

/-- The tree fits: its directories and files into seven blocks each, and all of them on the disk. -/
structure FitsDisk (entries : List Host) : Prop where
  root : (2 + entries.length) * dirEntryBytes ≤ 7 * fsBlock
  fits : EntriesFit entries
  blocks : ∀ b, Owned entries b → b < bytesToBlocks diskSize

/-! ## The bits -/

/-- All bits behind the first word are set. -/
theorem offered_bitmapWords {first blocks k : ℕ} (h : Offered (bitmapWords first blocks) k) :
    k < 32 ∧ first.testBit k = false := by
  obtain ⟨hlt, hbit⟩ := h
  rw [wordsBit, bitmapWords] at hbit
  rw [bitmapWords, List.length_cons, List.length_replicate] at hlt
  rcases Nat.lt_or_ge k 32 with hk | hk
  · rw [Nat.div_eq_of_lt hk, Nat.mod_eq_of_lt hk, List.getD_cons_zero] at hbit
    exact ⟨hk, hbit⟩
  · obtain ⟨m, hm⟩ : ∃ m, k / 32 = m + 1 := ⟨k / 32 - 1, by omega⟩
    rw [hm, List.getD_cons_succ, List.getD_eq_getElem _ _ (by rw [List.length_replicate]; omega),
      List.getElem_replicate, show 0xFFFFFFFF = 2 ^ 32 - 1 from rfl, Nat.testBit_two_pow_sub_one,
      decide_eq_false_iff_not] at hbit
    exact absurd (Nat.mod_lt _ (by decide)) hbit

theorem offered_of_testBit {first blocks k : ℕ} (hk : k < 32) (h : first.testBit k = false) :
    Offered (bitmapWords first blocks) k := by
  refine ⟨by rw [bitmapWords, List.length_cons]; omega, ?_⟩
  rw [wordsBit, bitmapWords, Nat.div_eq_of_lt hk, Nat.mod_eq_of_lt hk, List.getD_cons_zero]
  exact h

/-- **The seven data bits.** -/
theorem offered_data_iff (s : Superblock) (b : ℕ) :
    Offered (dataBitmapWords s) b ↔ 25 ≤ b ∧ b < 32 := by
  have hbit : ∀ b < 32, ((0x01FFFFFF : ℕ).testBit b = false ↔ 25 ≤ b) := by decide
  constructor
  · intro h
    obtain ⟨hlt, hb⟩ := offered_bitmapWords h
    exact ⟨(hbit b hlt).mp hb, hlt⟩
  · rintro ⟨hle, hlt⟩
    exact offered_of_testBit hlt ((hbit b hlt).mpr hle)

/-! ## How far the image reaches -/

theorem writesEnd_append (e : ℕ) (ws ws' : List (ℕ × List UInt8)) :
    writesEnd e (ws ++ ws') = writesEnd (writesEnd e ws) ws' := List.foldl_append

theorem le_writesEnd (e : ℕ) (ws : List (ℕ × List UInt8)) : e ≤ writesEnd e ws := by
  induction ws generalizing e with
  | nil => exact Nat.le_refl e
  | cons w ws ih =>
    refine Nat.le_trans ?_ (ih _)
    dsimp only
    split_ifs
    · exact Nat.le_refl e
    · exact Nat.le_max_left ..

/-- A write that stands in the log is reached. -/
theorem le_writesEnd_of_mem {e : ℕ} {ws : List (ℕ × List UInt8)} {w : ℕ × List UInt8} (hw : w ∈ ws)
    (hne : w.2 ≠ []) : w.1 + w.2.length ≤ writesEnd e ws := by
  induction ws generalizing e with
  | nil => exact absurd hw List.not_mem_nil
  | cons v ws ih =>
    rcases List.mem_cons.mp hw with rfl | hw
    · refine Nat.le_trans ?_ (le_writesEnd _ ws)
      dsimp only
      rw [if_neg hne]
      exact Nat.le_max_right ..
    · exact ih hw

theorem writesEnd_mono {e : ℕ} {ws ws' : List (ℕ × List UInt8)} (h : ws <+: ws') :
    writesEnd e ws ≤ writesEnd e ws' := by
  obtain ⟨rest, rfl⟩ := h
  rw [writesEnd_append]
  exact le_writesEnd ..

/-- The later state has what the earlier one had. -/
structure Formatter.Extends (st st' : Formatter) : Prop where
  writes : st.writes <+: st'.writes
  placed : st.placed <+: st'.placed

namespace Formatter

theorem Extends.trans {st st' st'' : Formatter} (h : st.Extends st') (h' : st'.Extends st'') :
    st.Extends st'' := ⟨h.writes.trans h'.writes, h.placed.trans h'.placed⟩

theorem extends_write (st : Formatter) (address : ℕ) (bytes : List UInt8) :
    st.Extends (st.write address bytes) := ⟨List.prefix_append .., List.prefix_rfl⟩

theorem extends_place (st : Formatter) (p : Placed) : st.Extends (st.place p) :=
  ⟨List.prefix_append .., List.prefix_append ..⟩

theorem number_writes (st : Formatter) (name : List UInt8) : st.Extends (st.number name).2 := by
  rw [number]
  split_ifs <;> exact ⟨List.prefix_rfl, List.prefix_rfl⟩

theorem takeFileBlocks_writes (st : Formatter) (name : List UInt8) (n : ℕ) :
    (st.takeFileBlocks name n).2.writes = st.writes ∧
      (st.takeFileBlocks name n).2.placed = st.placed := by
  rw [takeFileBlocks_eq st []]
  exact ⟨rfl, rfl⟩

theorem extends_writeFile (st : Formatter) (path : List (List UInt8)) (name : List UInt8)
    (iNumber : ℕ) (contents : List UInt8) :
    st.Extends (st.writeFile path name iNumber contents) := by
  obtain ⟨hwrites, hplaced⟩ :=
    st.takeFileBlocks_writes name (bytesToBlocks (contents.length % 2 ^ 32))
  have htake : st.Extends (st.takeFileBlocks name (bytesToBlocks (contents.length % 2 ^ 32))).2 :=
    ⟨hwrites ▸ List.prefix_rfl, hplaced ▸ List.prefix_rfl⟩
  exact (htake.trans (extends_place ..)).trans (extends_write ..)

theorem extends_openDir (st : Formatter) (path : List (List UInt8)) (iNumber parent n : ℕ) :
    st.Extends (st.openDir path iNumber parent n).2 := by
  have htake : st.Extends (st.takeBlocks (bytesToBlocks (dirSize n))).2 :=
    ⟨List.prefix_rfl, List.prefix_rfl⟩
  exact ((htake.trans (extends_place ..)).trans (extends_write ..)).trans (extends_write ..)

end Formatter

mutual

theorem Host.extends_write (path : List (List UInt8)) (parent iNumber : ℕ) :
    ∀ (h : Host) (st : Formatter), st.Extends (h.write path parent iNumber st)
  | .file name contents, st => by
    rw [Host.write]
    exact st.extends_writeFile ..
  | .dir name entries, st => by
    rw [Host.write]
    exact ((st.extends_openDir (path ++ [name]) iNumber parent entries.length).trans
      (extends_writeEntries (path ++ [name]) iNumber _ _ 2 entries _)).trans
      (Formatter.extends_write ..)

theorem extends_writeEntries (path : List (List UInt8)) (dir start : ℕ) :
    ∀ (buffer : List UInt8) (i : ℕ) (entries : List Host) (st : Formatter),
      st.Extends (writeEntries path dir start buffer i entries st)
  | buffer, i, [], st => by
    rw [writeEntries]
    exact ⟨List.prefix_rfl, List.prefix_rfl⟩
  | buffer, i, h :: hs, st => by
    rw [writeEntries]
    exact (((st.number_writes h.name).trans (Formatter.extends_write ..)).trans
      (Host.extends_write path dir _ h _)).trans (extends_writeEntries path dir start _ (i + 1) hs _)

end

/-- The entries of a directory are written up to the last one. -/
theorem le_writesEnd_writeEntries (path : List (List UInt8)) (dir start : ℕ) (buffer : List UInt8)
    (hbuffer : 60 ≤ buffer.length) (i : ℕ) (entries : List Host) (st : Formatter)
    (h : start + i * dirEntryBytes ≤ writesEnd 0 st.writes) :
    start + (i + entries.length) * dirEntryBytes ≤
      writesEnd 0 (writeEntries path dir start buffer i entries st).writes := by
  induction entries generalizing buffer i st with
  | nil =>
    rw [writeEntries]
    exact h
  | cons hd hs ih =>
    have hlen : 60 ≤ (strcpyName buffer hd.name).length := by
      rw [strcpyName, List.length_append, List.length_cons, List.length_drop]
      omega
    have hwrite : start + (i + 1) * dirEntryBytes ≤ writesEnd 0
        ((st.number hd.name).2.write (start + i * dirEntryBytes)
          (ByteStore.leBytes 4 (st.number hd.name).1 ++ strcpyName buffer hd.name)).writes := by
      have := le_writesEnd_of_mem (e := 0) (List.mem_append_right (st.number hd.name).2.writes
        (List.mem_singleton_self (start + i * dirEntryBytes,
          ByteStore.leBytes 4 (st.number hd.name).1 ++ strcpyName buffer hd.name)))
        (List.append_ne_nil_of_right_ne_nil _ (List.ne_nil_of_length_pos (by omega)))
      dsimp only at this
      rw [List.length_append, ByteStore.length_leBytes] at this
      rw [dirEntryBytes] at this ⊢
      refine Nat.le_trans ?_ this
      omega
    rw [writeEntries, List.length_cons, show i + (hs.length + 1) = i + 1 + hs.length by omega]
    exact ih _ hlen (i + 1) _ (Nat.le_trans hwrite
      (writesEnd_mono (Host.extends_write path dir (st.number hd.name).1 hd _).writes))

/-- The image reaches up to the end of the blocks, if they lie on the disk. -/
def Placed.Covered (p : Placed) (e : ℕ) : Prop :=
  (∀ x ∈ p.blocks, x < bytesToBlocks diskSize) → ∀ x ∈ p.blocks, (x + 1) * fsBlock ≤ e

theorem Placed.Covered.mono {p : Placed} {e e' : ℕ} (h : p.Covered e) (hle : e ≤ e') : p.Covered e' :=
  fun hlow x hx ↦ Nat.le_trans (h hlow x hx) hle

/-- Blocks that follow each other are covered by writes up to their end. -/
theorem Placed.covered_of_le {p : Placed} {s n e : ℕ} (hblocks : p.blocks = blocksFrom s n)
    (h : 0 < n → p.start + n * fsBlock ≤ e) : p.Covered e := by
  intro hlow x hx
  have hdisk : bytesToBlocks diskSize = 360 := by decide
  obtain ⟨i, hi, rfl⟩ := List.mem_map.mp (hblocks ▸ hx)
  have hi := List.mem_range.mp hi
  have hfirst : p.blocks.getD 0 0 = s % 2 ^ 32 := by
    rw [hblocks, List.getD_eq_getElem _ _ (by
      rw [blocksFrom, List.length_map, List.length_range]
      omega)]
    simp [blocksFrom]
  have hmem : s % 2 ^ 32 ∈ p.blocks := by
    rw [hblocks]
    exact List.mem_map.mpr ⟨0, List.mem_range.mpr (by omega), by rw [Nat.add_zero]⟩
  have hle := h (by omega)
  have hlt := hlow _ hmem
  have hx' := hlow _ hx
  rw [Placed.start, hfirst] at hle
  rw [fsBlock] at hle ⊢
  omega

/-- The contents of a file, with zeros up to the end of the last block. -/
def padded (bs : List UInt8) : List UInt8 :=
  bs ++ List.replicate ((fsBlock - bs.length % fsBlock) % fsBlock) 0

theorem length_padded (bs : List UInt8) :
    (padded bs).length = bytesToBlocks bs.length * fsBlock := by
  rw [padded, List.length_append, List.length_replicate, bytesToBlocks_eq]
  rw [fsBlock]
  omega

/-- What `writeFile` leaves behind. -/
theorem writeFile_eq (st : Formatter) (path : List (List UInt8)) (name : List UInt8) (iNumber : ℕ)
    (contents : List UInt8) : ∃ (s : ℕ) (st' : Formatter) (p : Placed), st'.placed = st.placed ∧
      p.blocks = blocksFrom s (bytesToBlocks (contents.length % 2 ^ 32)) ∧
      st.writeFile path name iNumber contents =
        (st'.place p).write p.start (padded contents) := by
  generalize hit : (⟨path, fileTypeFile, decide (name = kernelBin),
    bytesToBlocks (contents.length % 2 ^ 32)⟩ : Item) = it
  refine ⟨it.start st.firstBlock, { st with firstBlock := it.next st.firstBlock },
    ⟨path, iNumber, fileTypeFile, contents.length % 2 ^ 32,
      blocksFrom (it.start st.firstBlock) (bytesToBlocks (contents.length % 2 ^ 32))⟩, rfl, rfl, ?_⟩
  rw [Formatter.writeFile, Formatter.takeFileBlocks_eq st path, hit]
  rfl

theorem covered_writeFile (st : Formatter) (path : List (List UInt8)) (name : List UInt8)
    (iNumber : ℕ) {contents : List UInt8} (hfit : contents.length ≤ 7 * fsBlock) (p : Placed)
    (hp : p ∈ (st.writeFile path name iNumber contents).placed) :
    p ∈ st.placed ∨ p.Covered (writesEnd 0 (st.writeFile path name iNumber contents).writes) := by
  obtain ⟨s, st', p', hplaced, hblocks, heq⟩ := writeFile_eq st path name iNumber contents
  rw [fsBlock] at hfit
  rw [Nat.mod_eq_of_lt (by omega)] at hblocks
  rw [heq] at hp ⊢
  rcases List.mem_append.mp hp with hp | hp
  · exact Or.inl (hplaced ▸ hp)
  · rw [List.mem_singleton.mp hp]
    refine Or.inr (Placed.covered_of_le hblocks fun hpos ↦ ?_)
    have hlen := length_padded contents
    rw [← hlen]
    refine le_writesEnd_of_mem (w := (_, _)) (List.mem_append_right _
      (List.mem_singleton_self _)) (List.ne_nil_of_length_pos ?_)
    show 0 < (padded contents).length
    rw [hlen]
    exact Nat.mul_pos hpos (by decide)

/-- What `openDir` leaves behind: the directory, with `.` and `..` in it. -/
theorem openDir_eq (st : Formatter) (path : List (List UInt8)) (iNumber parent n : ℕ) :
    ∃ p : Placed, (st.openDir path iNumber parent n).1 = p.start ∧
      p.blocks = blocksFrom st.firstBlock (bytesToBlocks (dirSize n)) ∧
      (st.openDir path iNumber parent n).2.placed = st.placed ++ [p] ∧
      p.start + 2 * dirEntryBytes ≤ writesEnd 0 (st.openDir path iNumber parent n).2.writes := by
  refine ⟨⟨path, iNumber, fileTypeDir, dirSize n,
    blocksFrom st.firstBlock (bytesToBlocks (dirSize n))⟩, rfl, rfl, rfl, ?_⟩
  have hlen : (DirEntry.bytes ⟨parent, [0x2E, 0x2E]⟩).length = dirEntryBytes :=
    DirEntry.length_bytes (show 2 ≤ 59 by decide)
  have hdots : ∀ (ws : List (ℕ × List UInt8)) (a : ℕ), a + 2 * dirEntryBytes ≤
      writesEnd 0 (ws ++ [(a + dirEntryBytes, DirEntry.bytes ⟨parent, [0x2E, 0x2E]⟩)]) := by
    intro ws a
    have := le_writesEnd_of_mem (e := 0) (List.mem_append_right ws (List.mem_singleton_self
      (a + dirEntryBytes, DirEntry.bytes ⟨parent, [0x2E, 0x2E]⟩)))
      (List.ne_nil_of_length_pos (by dsimp only; rw [hlen]; decide))
    dsimp only at this
    rw [hlen] at this
    omega
  exact hdots ..

/-- A directory: the entries, and zeros up to the end of the block. -/
theorem covered_dir (st : Formatter) (path : List (List UInt8)) (iNumber parent : ℕ)
    {entries : List Host} (hfit : (2 + entries.length) * dirEntryBytes ≤ 7 * fsBlock)
    (hentries : ∀ st : Formatter, ∀ start, ∀ p ∈ (writeEntries path iNumber start
        (strcpyName (List.replicate 60 0) [0x2E, 0x2E]) 2 entries st).placed,
      p ∈ st.placed ∨ p.Covered (writesEnd 0 (writeEntries path iNumber start
        (strcpyName (List.replicate 60 0) [0x2E, 0x2E]) 2 entries st).writes)) (p : Placed)
    (hp : p ∈ (writeFileData path entries iNumber parent st).placed) :
    p ∈ st.placed ∨ p.Covered (writesEnd 0 (writeFileData path entries iNumber parent st).writes) := by
  rw [dirEntryBytes, fsBlock] at hfit
  have hsize : dirSize entries.length = (2 + entries.length) * dirEntryBytes :=
    Nat.mod_eq_of_lt (by rw [dirEntryBytes]; omega)
  obtain ⟨p', hstart, hblocks, hplaced, hdots⟩ := openDir_eq st path iNumber parent entries.length
  rw [writeFileData] at hp ⊢
  generalize st.openDir path iNumber parent entries.length = opened at *
  obtain ⟨start, st₁⟩ := opened
  dsimp only at hstart hplaced hdots hp ⊢
  subst hstart
  have hloop := le_writesEnd_writeEntries path iNumber p'.start
    (strcpyName (List.replicate 60 0) [0x2E, 0x2E]) (by decide) 2 entries st₁ hdots
  have hext := extends_writeEntries path iNumber p'.start
    (strcpyName (List.replicate 60 0) [0x2E, 0x2E]) 2 entries st₁
  have hcover := hentries st₁ p'.start p
  generalize writeEntries path iNumber p'.start (strcpyName (List.replicate 60 0) [0x2E, 0x2E]) 2
    entries st₁ = st₂ at *
  have hclose : writesEnd 0 st₂.writes ≤ writesEnd 0 (st₂.closeDir p'.start entries.length).writes :=
    writesEnd_mono (st₂.extends_write ..).writes
  rcases hcover hp with hp | hp
  · rw [hplaced, List.mem_append, List.mem_singleton] at hp
    rcases hp with hp | rfl
    · exact Or.inl hp
    · refine Or.inr (Placed.covered_of_le hblocks fun hpos ↦ ?_)
      rw [hsize, bytesToBlocks_eq]
      by_cases hpad : (fsBlock - dirSize entries.length % fsBlock) % fsBlock = 0
      · refine Nat.le_trans ?_ (Nat.le_trans hloop hclose)
        rw [hsize] at hpad
        rw [fsBlock, dirEntryBytes] at *
        omega
      · have := le_writesEnd_of_mem (e := 0) (List.mem_append_right st₂.writes (List.mem_singleton_self
          (p.start + (2 + entries.length) * dirEntryBytes,
            List.replicate ((fsBlock - dirSize entries.length % fsBlock) % fsBlock) (0 : UInt8))))
          (List.ne_nil_of_length_pos (by dsimp only; rw [List.length_replicate]; omega))
        dsimp only at this
        rw [List.length_replicate] at this
        refine Nat.le_trans ?_ this
        rw [hsize]
        rw [fsBlock, dirEntryBytes] at *
        omega
  · exact Or.inr (hp.mono hclose)

mutual

/-- **The image reaches up to the end of everything placed.** -/
theorem Host.covered (path : List (List UInt8)) (parent iNumber : ℕ) :
    ∀ h : Host, h.Fits → ∀ (st : Formatter), ∀ p ∈ (h.write path parent iNumber st).placed,
      p ∈ st.placed ∨ p.Covered (writesEnd 0 (h.write path parent iNumber st).writes)
  | .file name contents, hfit, st, p, hp => by
    rw [Host.Fits] at hfit
    rw [Host.write] at hp ⊢
    exact covered_writeFile st _ name iNumber hfit p hp
  | .dir name entries, hfit, st, p, hp => by
    rw [Host.Fits] at hfit
    rw [Host.write] at hp ⊢
    exact covered_dir st (path ++ [name]) iNumber parent hfit.1 (fun st start ↦
      entriesCovered (path ++ [name]) iNumber start _ 2 entries hfit.2 st) p hp

theorem entriesCovered (path : List (List UInt8)) (dir start : ℕ) :
    ∀ (buffer : List UInt8) (i : ℕ) (entries : List Host), EntriesFit entries → ∀ (st : Formatter),
      ∀ p ∈ (writeEntries path dir start buffer i entries st).placed, p ∈ st.placed ∨
        p.Covered (writesEnd 0 (writeEntries path dir start buffer i entries st).writes)
  | buffer, i, [], _, st, p, hp => by
    rw [writeEntries] at hp
    exact Or.inl hp
  | buffer, i, h :: hs, hfit, st, p, hp => by
    rw [EntriesFit] at hfit
    rw [writeEntries] at hp ⊢
    rcases entriesCovered path dir start _ (i + 1) hs hfit.2 _ p hp with hp | hp
    · rcases Host.covered path dir _ h hfit.1 _ p hp with hp | hp
      · exact Or.inl ((st.number_eq h.name).1 ▸ hp)
      · exact Or.inr (hp.mono (writesEnd_mono (extends_writeEntries ..).writes))
    · exact Or.inr hp

end

theorem writesEnd_le_of_le {e e' : ℕ} (h : e ≤ e') (ws : List (ℕ × List UInt8)) :
    writesEnd e ws ≤ writesEnd e' ws := by
  induction ws generalizing e e' with
  | nil => exact h
  | cons w ws ih =>
    refine ih ?_
    dsimp only
    split_ifs
    · exact h
    · exact max_le_max_right _ h

/-- What is owned lies in front of the end of the image. -/
theorem FitsDisk.owned_le {entries : List Host} (h : FitsDisk entries) {b : ℕ}
    (hb : Owned entries b) : (b + 1) * fsBlock ≤ imageEnd (formatTree entries) := by
  obtain ⟨p, hp, hmem⟩ := hb
  have hcover : p.Covered (writesEnd 0 (formatTree entries).writes) := by
    rcases covered_dir _ [] 1 1 h.root (fun st start ↦
      entriesCovered [] 1 start _ 2 entries h.fits st) p hp with hp | hp
    · exact absurd hp List.not_mem_nil
    · exact hp
  exact Nat.le_trans (hcover (fun x hx ↦ h.blocks x ⟨p, hp, hx⟩) b hmem)
    (writesEnd_le_of_le (Nat.zero_le _) _)

/-- The root owns the first data block. -/
theorem FitsDisk.owned_root {entries : List Host} (h : FitsDisk entries) :
    Owned entries (writeSuperblock (getFileInfo entries)).firstDataBlock := by
  have hroot := h.root
  rw [dirEntryBytes, fsBlock] at hroot
  have hsize : dirSize entries.length = (2 + entries.length) * 64 :=
    Nat.mod_eq_of_lt (by rw [dirEntryBytes]; omega)
  obtain ⟨p, hp, howner⟩ := List.mem_map.mp (show ([], fileTypeDir,
      blocksFrom (writeSuperblock (getFileInfo entries)).firstDataBlock
        (bytesToBlocks (dirSize entries.length))) ∈ (formatTree entries).placed.map Placed.owner by
    rw [(formatTree_owners entries).2, treeItems, assign, List.map_cons]
    exact List.mem_cons_self)
  refine ⟨p, hp, ?_⟩
  rw [show p.blocks = _ from congrArg (fun o : Owner ↦ o.2.2) howner, hsize, bytesToBlocks_eq]
  refine List.mem_map.mpr ⟨0, List.mem_range.mpr (by omega), ?_⟩
  exact Nat.mod_eq_of_lt (firstDataBlock_bounds _).2

/-- Two free blocks that are too far apart for the data bits. -/
theorem FitsDisk.exists_free {entries : List Host} (h : FitsDisk entries)
    (hlarge : OnDisk entries ((writeSuperblock (getFileInfo entries)).firstDataBlock + 31)) :
    ∃ b, OnDisk entries ((writeSuperblock (getFileInfo entries)).firstDataBlock + b) ∧
      ¬ Owned entries ((writeSuperblock (getFileInfo entries)).firstDataBlock + b) ∧
      OnDisk entries ((writeSuperblock (getFileInfo entries)).firstDataBlock + (b + 8)) ∧
      ¬ Owned entries ((writeSuperblock (getFileInfo entries)).firstDataBlock + (b + 8)) := by
  have hdisk : bytesToBlocks diskSize = 360 := by decide
  obtain ⟨hpos, -⟩ := firstDataBlock_bounds (getFileInfo entries)
  have hroot := h.owned_le h.owned_root
  have hrootLow := h.blocks _ h.owned_root
  unfold OnDisk imageBytes at hlarge ⊢
  dsimp only at hlarge ⊢
  have howned : ∀ b, Owned entries b → (b + 1) * fsBlock ≤ imageEnd (formatTree entries) :=
    fun b ↦ h.owned_le
  have hlow := h.blocks
  generalize (writeSuperblock (getFileInfo entries)).firstDataBlock = first at *
  generalize imageEnd (formatTree entries) = e at *
  rw [bytesToBlocks_eq] at hlarge ⊢
  rw [fsBlock] at *
  rw [hdisk] at hlow hrootLow
  clear hdisk
  by_cases he : e < 2 ^ 32
  · -- the first two blocks behind the end of the tree that are 8 blocks apart
    rw [Nat.mod_eq_of_lt he] at hlarge ⊢
    obtain ⟨hlo, hhi⟩ : (e + 4095) / 4096 * 4096 < e + 4096 ∧ e ≤ (e + 4095) / 4096 * 4096 := by
      omega
    obtain ⟨d, hd⟩ : ∃ d, (e + 4095) / 4096 = first + d :=
      ⟨(e + 4095) / 4096 - first, by omega⟩
    have hback : ∀ x, first + d ≤ x → ¬ Owned entries x := fun x hx ho ↦ by
      have := howned x ho
      omega
    rw [hd] at hlo hhi hlarge ⊢
    have hlate : 17 ≤ first + d := by omega
    have hnear : (first + d + 9) * 4096 ≤ e + (first + d) * 4096 := by
      clear hlarge hroot
      omega
    have hdisk : ∀ x ≤ first + d + 8, (x + 1) * 4096 ≤ e + (first + d) * 4096 := fun x hx ↦
      Nat.le_trans (Nat.mul_le_mul_right 4096 (show x + 1 ≤ first + d + 9 by omega)) hnear
    exact ⟨d, hdisk _ (by omega), hback _ (by omega), hdisk _ (by omega), hback _ (by omega)⟩
  · obtain ⟨d, hd⟩ : ∃ d, 400 = first + d := ⟨400 - first, by omega⟩
    have hback : ∀ x, 400 ≤ x → ¬ Owned entries x := fun x hx ho ↦ by
      have := hlow x ho
      omega
    have hfar : 409 * 4096 ≤ e := Nat.le_trans (show 409 * 4096 ≤ 2 ^ 32 by decide) (not_lt.mp he)
    have hdisk : ∀ x ≤ 408, (x + 1) * 4096 ≤ e + (e % 2 ^ 32 + 4095) / 4096 * 4096 := fun x hx ↦
      Nat.le_trans (Nat.le_trans (Nat.mul_le_mul_right 4096 (show x + 1 ≤ 409 by omega)) hfar)
        (Nat.le_add_right e _)
    exact ⟨d, hdisk _ (by omega), hback _ (by omega), hdisk _ (by omega), hback _ (by omega)⟩

theorem FitsDisk.false_of_freeAgrees {entries : List Host} (h : FitsDisk entries)
    (hfree : FreeAgrees entries (writeSuperblock (getFileInfo entries))) : False := by
  obtain ⟨b, hdisk, hfirst, hdisk', hsecond⟩ := h.exists_free
    (hfree.dataUnowned 31 ((offered_data_iff _ _).mpr (by decide))).1
  have hb := (offered_data_iff _ _).mp (hfree.dataOffered b hdisk hfirst)
  have hb' := (offered_data_iff _ _).mp (hfree.dataOffered (b + 8) hdisk' hsecond)
  omega

/-- **What is free** is not what the image offers as free. -/
theorem not_freeAgrees {entries : List Host} (h : FitsDisk entries) :
    ¬ FreeAgrees entries (writeSuperblock (getFileInfo entries)) := h.false_of_freeAgrees

/-- The two kernels take the blocks 4 to 7. -/
theorem twoKernels_owners {n : ℕ} (h : bytesToBlocks (n % 2 ^ 32) = 2) :
    (formatTree (twoKernels n)).placed.map Placed.owner =
      [([], fileTypeDir, [4]), ([prekernelBin], fileTypeFile, [5, 6]),
        ([kernelBin], fileTypeFile, [7])] := by
  have hone : bytesToBlocks (dirSize 2) = 1 := by decide
  have hname : decide (prekernelBin = kernelBin) = false := by decide
  rw [(formatTree_owners _).2, ← (formatTree_owners _).1, twoKernels_firstDataBlock, treeItems,
    twoKernels, entriesItems, entriesItems, entriesItems, Host.items, Host.items,
    List.length_replicate, hname, h]
  show (assign 4 [⟨[], fileTypeDir, false, bytesToBlocks (dirSize 2)⟩, _, _]).map Item.owner = _
  rw [hone]
  rfl

theorem twoKernels_fitsDisk : FitsDisk (twoKernels 8192) where
  root := (twoKernels_isHostTree (by decide)).root
  fits := (twoKernels_isHostTree (by decide)).fits
  blocks := by
    rintro b ⟨p, hp, hb⟩
    have hmem := List.mem_map_of_mem (f := Placed.owner) hp
    rw [twoKernels_owners (by decide)] at hmem
    have hall : ∀ o ∈ [(([] : List (List UInt8)), fileTypeDir, [4]),
        ([prekernelBin], fileTypeFile, [5, 6]), ([kernelBin], fileTypeFile, [7])],
        ∀ x ∈ o.2.2, x < bytesToBlocks diskSize := by decide
    exact hall _ hmem b hb

theorem not_freeAgrees_twoKernels :
    ¬ FreeAgrees (twoKernels 8192) (writeSuperblock (getFileInfo (twoKernels 8192))) :=
  not_freeAgrees twoKernels_fitsDisk

/-- Two kernels fit, and formatter and kernel disagree on what they leave free. -/
theorem twoKernels_disagree : IsHostTree (twoKernels 8192) ∧ FitsDisk (twoKernels 8192) ∧
    ¬ FreeAgrees (twoKernels 8192) (writeSuperblock (getFileInfo (twoKernels 8192))) :=
  ⟨twoKernels_isHostTree (by decide), twoKernels_fitsDisk, twoKernels_fitsDisk.false_of_freeAgrees⟩

end AbOS
