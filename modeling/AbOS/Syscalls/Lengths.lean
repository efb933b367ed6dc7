import AbOS.Syscalls.Read
import AbOS.Syscalls.SaveLoad

/-!
# Lengths near the limit

`sys_read` and `sys_write` compare a 32-bit sum of offset and length with the size of the file and
with the bytes of its pages.  When the sum wraps, the read copies as many bytes as it was asked for,
and the write believes that it fits.

The write goes wrong much earlier, because it copies to four times the offset, and because the
count of pages has eight bits: `WriteFits` is the exact bound.  `sysWriteInside` is `sys_write` with
a copy that stops at the first byte that it would store outside the pages of the file; a write is
right when the two do the same in every memory.
-/

set_option autoImplicit false

namespace AbOS

/-- `memcpy`, but it gives up at a byte that it would store outside the `n` bytes from `base` on. -/
def Vmm.memcpyInside (m : Vmm) (base n dst src : ℕ) : ℕ → Option Vmm
  | 0 => some m
  | i + 1 => (memcpyInside m base n dst src i).bind fun m ↦
    (m.touch ((src + i) % 2 ^ 32)).bind fun (p, m) ↦
      let b := m.ram p
      if ∃ j < n, (dst + i) % 2 ^ 32 = (base + j) % 2 ^ 32 then
        (m.touch ((dst + i) % 2 ^ 32)).map fun (q, m) ↦ m.setRam q b
      else none

namespace Kernel

/-- The descriptor is open, with its offset inside the file. -/
structure OpenDescriptor (s : Kernel) (d : ℕ) : Prop where
  address : (s.openFileTable d).address ≠ 0
  maxCount : (s.openFileTable d).maxCount ≠ 0
  lseek : (s.openFileTable d).lseek ≤ (s.inodeOf d).size
  size : (s.inodeOf d).size < 2 ^ 32
  pagesAllocated : (s.openFileTable d).pagesAllocated < 2 ^ 8

/-- The bytes that a read should copy: those asked for, or those up to the end of the file. -/
def restCount (s : Kernel) (d length : ℕ) : ℕ :=
  min length ((s.inodeOf d).size - (s.openFileTable d).lseek)

/-- In any memory the read copies these bytes to any buffer, returns their number and advances the
offset by it, inside the file. -/
structure ReadsExactly (s : Kernel) (d length : ℕ) : Prop where
  copies : ∀ vmm buffer, { s with vmm }.sysRead d buffer length =
    (vmm.memcpy buffer ((s.openFileTable d).address + 4 * (s.openFileTable d).lseek)
      (s.restCount d length)).map fun vmm ↦ ((s.restCount d length : ℤ),
        { s.setFile d { s.openFileTable d with
          lseek := (s.openFileTable d).lseek + s.restCount d length } with vmm })
  inside : (s.openFileTable d).lseek + s.restCount d length ≤ (s.inodeOf d).size

/-- `copyBuffer`, but it gives up at a byte outside the pages that the descriptor counts. -/
def copyInside (s : Kernel) (d buffer length : ℕ) : Option Kernel :=
  let file := s.openFileTable d
  (s.vmm.memcpyInside file.address (file.pagesAllocated * pageSize) (file.address + 4 * file.lseek)
    buffer length).map fun vmm ↦
      { s.setFile d { file with lseek := (file.lseek + length) % 2 ^ 32 } with vmm }

/-- `sys_write` with that copy. -/
def sysWriteInside (s : Kernel) (fileDescriptor : ℤ) (buffer length leftover : ℕ) :
    Option (ℤ × Kernel) :=
  if fileDescriptor < 0 then some (fileDescriptor, s)
  else
    let d := fileDescriptor.toNat
    if ¬ Writable (s.openFileTable d) then some (-1, s)
    else
      ((s.seekToEnd d).growPages d length).bind fun s ↦
        (s.copyInside d buffer length).bind fun s ↦
          ((s.growSize d).writeBack d leftover).map fun s ↦ (length, s)

/-- In any memory `sys_write` copies to the pages of the descriptor only, from any buffer. -/
def WritesOwnPages (s : Kernel) (d length : ℕ) : Prop :=
  ∀ vmm buffer leftover, { s with vmm }.sysWrite d buffer length leftover =
    { s with vmm }.sysWriteInside d buffer length leftover

/-- Four times the offset and the length together fit into the pages: those of the descriptor when
the end of the write, in 32 bits, is inside them, and else, in an eight-bit count, also those for the
distance from the size to that end. -/
def WriteFits (s : Kernel) (d length : ℕ) : Prop :=
  let pages := (s.openFileTable d).pagesAllocated
  let L := s.writeStart d
  length = 0 ∨ 4 * L % 2 ^ 32 + length ≤
    (if (L + length) % 2 ^ 32 ≤ pages * pageSize then pages
      else (pages + filePageCount ((L + length + (2 ^ 32 - (s.inodeOf d).size)) % 2 ^ 32)) % 2 ^ 8) *
        pageSize

instance (s : Kernel) (d length : ℕ) : Decidable (s.WriteFits d length) :=
  inferInstanceAs (Decidable (_ ∨ _))

variable {s : Kernel} {d : ℕ}

/-! ## Reading -/

/-- In a memory with all pages the right number of bytes is returned. -/
theorem ReadsExactly.returns {length : ℕ} (hread : s.ReadsExactly d length) :
    ∃ vmm t, { s with vmm }.sysRead d 0 length = some ((s.restCount d length : ℤ), t) := by
  obtain ⟨vmm, hcopy, -⟩ := Vmm.memcpy_spec (m := windowMemory 0 0 fun _ ↦ 0) rfl
    (dataAt_windowMemory (fun _ ↦ 0) 0 (s.restCount d length))
    fun k hk ↦ (dataAt_windowMemory (fun _ ↦ 0)
      ((s.openFileTable d).address + 4 * (s.openFileTable d).lseek) _ k hk).1
  have hret := hread.copies (windowMemory 0 0 fun _ ↦ 0) 0
  rw [hcopy] at hret
  exact ⟨_, _, hret⟩

section Read

variable (h : s.OpenDescriptor d)
include h

/-- Without wrapping the comparison finds the end of the file. -/
theorem readCount_of_lt {length : ℕ} (hsum : (s.openFileTable d).lseek + length < 2 ^ 32) :
    s.readCount d length = s.restCount d length := by
  have hlseek := h.lseek
  have hsize := h.size
  rw [readCount, restCount]
  rw [Nat.mod_eq_of_lt hsum]
  split <;> omega

/-- When the sum wraps, it is in front of the offset. -/
theorem readCount_of_wrap {length : ℕ} (hlength : length < 2 ^ 32)
    (hsum : 2 ^ 32 ≤ (s.openFileTable d).lseek + length) :
    s.readCount d length = length ∧ s.restCount d length < length := by
  have hlseek := h.lseek
  have hsize := h.size
  rw [readCount, restCount]
  rw [if_neg (by omega)]
  exact ⟨rfl, by omega⟩

/-- What a read that is not refused does. -/
theorem sysRead_of_readable (hflags : ¬ Unreadable (s.openFileTable d)) (vmm : Vmm)
    (buffer length : ℕ) : { s with vmm }.sysRead d buffer length =
      (vmm.memcpy buffer ((s.openFileTable d).address + 4 * (s.openFileTable d).lseek)
        (s.readCount d length)).map fun vmm ↦ ((s.readCount d length : ℤ),
          { s.setFile d { s.openFileTable d with
            lseek := ((s.openFileTable d).lseek + s.readCount d length) % 2 ^ 32 } with vmm }) := by
  rw [sysRead, if_neg (Int.not_lt.mpr (Int.natCast_nonneg d)), Int.toNat_natCast]
  dsimp only
  rw [if_neg (not_or.mpr ⟨h.address, h.maxCount⟩), if_neg hflags]
  rfl

theorem sysRead_of_unreadable (hflags : Unreadable (s.openFileTable d)) (vmm : Vmm)
    (buffer length : ℕ) : { s with vmm }.sysRead d buffer length = some (-1, { s with vmm }) := by
  rw [sysRead, if_neg (Int.not_lt.mpr (Int.natCast_nonneg d)), Int.toNat_natCast]
  dsimp only
  rw [if_neg (not_or.mpr ⟨h.address, h.maxCount⟩), if_pos hflags]

/-- **When a read copies what it should**. -/
theorem readsExactly_iff {length : ℕ} (hlength : length < 2 ^ 32) :
    s.ReadsExactly d length ↔
      ¬ Unreadable (s.openFileTable d) ∧ (s.openFileTable d).lseek + length < 2 ^ 32 := by
  constructor
  · intro hread
    obtain ⟨vmm, t, hret⟩ := hread.returns
    by_cases hflags : Unreadable (s.openFileTable d)
    · rw [sysRead_of_unreadable h hflags] at hret
      have := congrArg Prod.fst (Option.some.inj hret)
      dsimp only at this
      omega
    · refine ⟨hflags, ?_⟩
      by_contra hwrap
      obtain ⟨hcount, hlt⟩ := readCount_of_wrap h hlength (Nat.not_lt.mp hwrap)
      rw [sysRead_of_readable h hflags, hcount] at hret
      obtain ⟨vmm', -, heq⟩ := Option.map_eq_some_iff.mp hret
      have := congrArg Prod.fst heq
      dsimp only at this
      omega
  · rintro ⟨hflags, hsum⟩
    have hlseek := h.lseek
    have hsize := h.size
    have hinside : (s.openFileTable d).lseek + s.restCount d length ≤ (s.inodeOf d).size := by
      rw [restCount]
      omega
    refine ⟨fun vmm buffer ↦ ?_, hinside⟩
    rw [sysRead_of_readable h hflags, readCount_of_lt h hsum, Nat.mod_eq_of_lt (by omega)]

end Read

/-! ## Writing -/

/-- The state in which `sys_write` copies. -/
theorem growPages_file {length : ℕ} {t : Kernel}
    (ht : (s.seekToEnd d).growPages d length = some t) :
    t.openFileTable d = { s.openFileTable d with
      lseek := s.writeStart d
      pagesAllocated := if (s.writeStart d + length) % 2 ^ 32 ≤ (s.openFileTable d).pagesAllocated *
          pageSize then (s.openFileTable d).pagesAllocated
        else ((s.openFileTable d).pagesAllocated +
          filePageCount ((s.writeStart d + length + (2 ^ 32 - (s.inodeOf d).size)) % 2 ^ 32)) %
            2 ^ 8 } := by
  obtain ⟨-, -, hfile⟩ := s.seekToEnd_frame d
  obtain ⟨hsame, -, hinode, -⟩ := s.seekToEnd_spec d
  have hfile' : (s.seekToEnd d).openFileTable d =
      { s.openFileTable d with lseek := s.writeStart d } := by rw [hfile, Function.update_self]
  have hsize : ((s.seekToEnd d).inodeOf d).size = (s.inodeOf d).size := by
    rw [inodeOf, inodeOf, hinode, hsame.inodeIndex]
  rw [growPages, hfile', hsize] at ht
  dsimp only at ht
  split at ht
  · obtain ⟨vmm, -, rfl⟩ := Option.map_eq_some_iff.mp ht
    rw [if_neg (by omega)]
    simp only [addPages, setFile, Function.update_self, hfile']
  · obtain rfl := Option.some.inj ht
    rw [if_pos (by omega), hfile']

/-- A range that begins at `a` modulo `2 ^ 32` lies below `b` exactly if its end does. -/
theorem range_below_iff {a b n : ℕ} (hb : b < 2 ^ 32) :
    (∀ k < n, (a + k) % 2 ^ 32 < b) ↔ n = 0 ∨ a % 2 ^ 32 + n ≤ b := by
  constructor
  · intro h
    by_contra hcon
    rw [not_or] at hcon
    have hfirst := h 0 (by omega)
    have hend := h (b - a % 2 ^ 32) (by omega)
    omega
  · rintro (rfl | hle) k hk
    · exact absurd hk (Nat.not_lt_zero k)
    · omega

/-- A write whose bytes are all stored inside the pages of the descriptor. -/
theorem writeFits_iff (h : s.OpenDescriptor d) {length : ℕ} {t : Kernel}
    (ht : (s.seekToEnd d).growPages d length = some t) : s.WriteFits d length ↔
      ∀ k < length, ∃ j < (t.openFileTable d).pagesAllocated * pageSize,
        ((t.openFileTable d).address + 4 * (t.openFileTable d).lseek + k) % 2 ^ 32 =
          ((t.openFileTable d).address + j) % 2 ^ 32 := by
  rw [WriteFits, growPages_file ht]
  dsimp only
  have hpages := h.pagesAllocated
  generalize hn : (if (s.writeStart d + length) % 2 ^ 32 ≤ (s.openFileTable d).pagesAllocated *
    pageSize then (s.openFileTable d).pagesAllocated
    else ((s.openFileTable d).pagesAllocated + filePageCount
      ((s.writeStart d + length + (2 ^ 32 - (s.inodeOf d).size)) % 2 ^ 32)) % 2 ^ 8) = n
  have hlt : n < 2 ^ 8 := by
    rw [← hn]
    split
    · exact hpages
    · exact Nat.mod_lt _ (by decide)
  rw [← range_below_iff (show n * pageSize < 2 ^ 32 by rw [pageSize]; omega)]
  refine forall_congr' fun k ↦ imp_congr_right fun _ ↦ ?_
  constructor
  · intro hk
    exact ⟨_, hk, by omega⟩
  · rintro ⟨j, hj, heq⟩
    rw [pageSize] at hj ⊢
    omega

section Copy

variable {m : Vmm} {base dst src : ℕ}

theorem memcpyInside_of_inside {n : ℕ} : ∀ {i : ℕ},
    (∀ k < i, ∃ j < n, (dst + k) % 2 ^ 32 = (base + j) % 2 ^ 32) →
      m.memcpyInside base n dst src i = m.memcpy dst src i
  | 0, _ => rfl
  | i + 1, h => by
    rw [Vmm.memcpyInside, memcpyInside_of_inside fun k hk ↦ h k (by omega), Vmm.memcpy]
    simp only [if_pos (h i (Nat.lt_succ_self i))]

/-- Once a byte would lie outside, there is no result. -/
theorem memcpyInside_of_outside {n k : ℕ}
    (hk : ¬ ∃ j < n, (dst + k) % 2 ^ 32 = (base + j) % 2 ^ 32) : ∀ {i : ℕ}, k < i →
      m.memcpyInside base n dst src i = none
  | i + 1, hlt => by
    rcases Nat.lt_succ_iff_lt_or_eq.mp hlt with hlt | rfl
    · rw [Vmm.memcpyInside, memcpyInside_of_outside hk hlt]
      rfl
    · rw [Vmm.memcpyInside]
      simp only [if_neg hk, Option.bind_fun_none]

end Copy

/-! ### A memory in which every call returns -/

/-- All entries of the directory lead to one table, and the pages of that to data.  No frame is
free, so new pages are those of frame 0. -/
structure AllPresent (m : Vmm) : Prop where
  directory : m.directory = 0x1000
  full : m.pmm.findFreeBlocks 1 = none
  entry : ∀ i < 1024, m.entry i = 0x2007
  walk : ∀ v < 2 ^ 32, ∃ f flags, m.walk v = some (f, flags) ∧ (f = 0 ∨ f = 0x3000)

/-- The one where all pages lead to frame 3. -/
def oneTableVmm : Vmm where
  ram := fun x ↦
    if x / 4096 = 1 then (ByteStore.leBytes 4 0x2007).getD (x % 4) 0
    else if x / 4096 = 2 then (ByteStore.leBytes 4 0x3007).getD (x % 4) 0
    else 0
  pmm := ⟨fun _ ↦ 0, 0, 0⟩
  directory := 0x1000

theorem oneTableVmm_readWord {a w : ℕ} (hw : w < 2 ^ 32)
    (hram : ∀ k < 4, oneTableVmm.ram (a + k) = (ByteStore.leBytes 4 w).getD k 0) :
    oneTableVmm.ram.readWord a = w := by
  have hslice : oneTableVmm.ram.slice a 4 = ByteStore.leBytes 4 w := by
    refine List.ext_getElem (by simp) fun i h₁ h₂ ↦ ?_
    rw [ByteStore.length_slice] at h₁
    rw [← List.getD_eq_getElem _ 0, ByteStore.getD_slice _ _ _ _ h₁, ← List.getD_eq_getElem _ 0 h₂]
    exact hram i h₁
  rw [ByteStore.readWord, hslice, ByteStore.ofLe_leBytes]
  exact Nat.mod_eq_of_lt hw

theorem oneTableVmm_allPresent : AllPresent oneTableVmm := by
  have hentry : ∀ i < 1024, oneTableVmm.entry i = 0x2007 := fun i hi ↦ by
    refine oneTableVmm_readWord (by decide) fun k hk ↦ ?_
    change (if (0x1000 + 4 * i + k) / 4096 = 1 then
      (ByteStore.leBytes 4 0x2007).getD ((0x1000 + 4 * i + k) % 4) 0 else _) = _
    rw [if_pos (by omega), show (0x1000 + 4 * i + k) % 4 = k by omega]
  refine ⟨rfl, rfl, hentry, fun v hv ↦ ?_⟩
  have hpt := ptIndex_lt v
  have hpage : oneTableVmm.getPage v = 0x2000 + 4 * ptIndex v := by
    rw [Vmm.getPage, Vmm.table_eq, hentry _ (pdIndex_lt hv)]
  have hpte : oneTableVmm.pte v = 0x3007 := by
    rw [Vmm.pte, hpage]
    refine oneTableVmm_readWord (by decide) fun k hk ↦ ?_
    change (if (0x2000 + 4 * ptIndex v + k) / 4096 = 1 then _ else if _ then _ else _) = _
    rw [if_neg (by omega), if_pos (by omega), show (0x2000 + 4 * ptIndex v + k) % 4 = k by omega]
  refine ⟨0x3000, 7, ?_, Or.inr rfl⟩
  rw [Vmm.walk_eq, hentry _ (pdIndex_lt hv), hpte]
  decide

section AllPresent

variable {m m' : Vmm} (h : AllPresent m)
include h

theorem AllPresent.table {i : ℕ} (hi : i < 1024) : m.table i = 0x2000 := by
  rw [Vmm.table_eq, h.entry i hi]

theorem AllPresent.not_isPaging {b : ℕ} (hb : b = 0 ∨ b = 3) : ¬ m.IsPaging b := by
  rintro (hdir | ⟨i, hi, -, htable⟩)
  · rw [h.directory] at hdir
    omega
  · rw [h.table hi] at htable
    omega

theorem AllPresent.dataAt (v n : ℕ) : ∃ P, m.DataAt v n P := by
  refine ⟨fun k ↦ (m.translate ((v + k) % 2 ^ 32)).getD 0, fun k _ ↦ ?_⟩
  obtain ⟨f, flags, hwalk, hf⟩ := h.walk ((v + k) % 2 ^ 32) (Nat.mod_lt _ (by decide))
  dsimp only
  rw [Vmm.translate, hwalk]
  refine ⟨rfl, h.not_isPaging ?_⟩
  rw [Option.map_some, Option.getD_some, pageSize]
  omega

theorem AllPresent.sameTables (hsame : Vmm.SameTables m m') : AllPresent m' where
  directory := hsame.directory.trans h.directory
  full := hsame.pmm ▸ h.full
  entry := fun i hi ↦ (hsame.entry (by rw [h.directory]) hi).trans (h.entry i hi)
  walk := fun v hv ↦ by
    rw [hsame.walk (by rw [h.directory]) hv]
    exact h.walk v hv

/-- A new page is one of frame 0. -/
theorem AllPresent.mapPages (virt : ℕ) : ∀ n, AllPresent (m.mapPages Vmm.freshFrame virt n)
  | 0 => h
  | n + 1 => by
    have h' := AllPresent.mapPages virt n
    rw [Vmm.mapPages]
    generalize m.mapPages Vmm.freshFrame virt n = u at h'
    generalize hv : (virt + n * pageSize) % 2 ^ 32 = v
    have hlt : v < 2 ^ 32 := hv ▸ Nat.mod_lt _ (by decide)
    have hframe : Vmm.freshFrame n u = (0, u) := by
      rw [Vmm.freshFrame, Vmm.faultFrame, Vmm.afterFrame, Pmm.allocateBlocks, h'.full]
    have hmap : (u.mapAddress 0 v userFlags).2 = u.putPte v 7 := by
      rw [Vmm.mapAddress, Vmm.mapAddressFuel, if_neg (by rw [h'.entry _ (pdIndex_lt hlt)]; decide)]
      rfl
    rw [hframe]
    dsimp only
    rw [hmap]
    have hpage : ∀ w < 2 ^ 32, u.getPage w = 0x2000 + 4 * ptIndex w := fun w hw ↦ by
      rw [Vmm.getPage, h'.table (pdIndex_lt hw)]
    have hptv := ptIndex_lt v
    have hentry : ∀ i < 1024, (u.putPte v 7).entry i = u.entry i := fun i hi ↦ by
      have hdir : (u.putPte v 7).directory = 0x1000 := h'.directory
      rw [Vmm.entry, Vmm.entry, hdir, h'.directory, Vmm.putPte, hpage v hlt]
      exact ByteStore.readWord_writeWord_of_apart (by omega)
    refine ⟨h'.directory, h'.full, fun i hi ↦ (hentry i hi).trans (h'.entry i hi), fun w hw ↦ ?_⟩
    have hptw := ptIndex_lt w
    have htable : (u.putPte v 7).getPage w = u.getPage w := by
      rw [Vmm.getPage, Vmm.getPage, Vmm.table, hentry _ (pdIndex_lt hw)]
      rfl
    by_cases hsame : ptIndex w = ptIndex v
    · have hpte : (u.putPte v 7).pte w = 7 := by
        rw [Vmm.pte, htable, hpage w hw, hsame, Vmm.putPte, hpage v hlt]
        exact ByteStore.readWord_writeWord (by decide)
      refine ⟨0, 7, ?_, Or.inl rfl⟩
      rw [Vmm.walk_eq, hentry _ (pdIndex_lt hw), h'.entry _ (pdIndex_lt hw), hpte]
      decide
    · rw [Vmm.walk_congr (hentry _ (pdIndex_lt hw)) (by
        rw [Vmm.pte, Vmm.pte, htable, hpage w hw, Vmm.putPte, hpage v hlt]
        exact ByteStore.readWord_writeWord_of_apart (by omega))]
      exact h'.walk w hw

end AllPresent

/-- There `sys_write` always returns, in the state that the growth has led to. -/
theorem exists_sysWrite_of_allPresent (h : AllPresent s.vmm)
    (hflags : Writable (s.openFileTable d)) (buffer length : ℕ) :
    ∃ t u, (s.seekToEnd d).growPages d length = some t ∧
      s.sysWrite d buffer length 0 = some ((length : ℤ), u) := by
  have hseek : AllPresent (s.seekToEnd d).vmm := (s.seekToEnd_frame d).1 ▸ h
  generalize hs : s.seekToEnd d = s₁ at hseek
  obtain ⟨t, hgrow, ht⟩ : ∃ t, s₁.growPages d length = some t ∧ AllPresent t.vmm := by
    rw [growPages]
    dsimp only
    split
    · generalize (s₁.openFileTable d).lseek + length + (2 ^ 32 - (s₁.inodeOf d).size) = bytes
      have hadd : AllPresent (s₁.addPages d (filePageCount (bytes % 2 ^ 32))).vmm :=
        hseek.mapPages s₁.fileVirtualAddress _
      obtain ⟨P, hP⟩ := hadd.dataAt ((s₁.openFileTable d).address + 4 * (s₁.inodeOf d).size)
        (bytes % 2 ^ 32)
      obtain ⟨vmm, hset, hsame, -⟩ := Vmm.memset_spec (by rw [hadd.directory]) hP 0
      rw [hset]
      exact ⟨_, rfl, hadd.sameTables hsame⟩
    · exact ⟨s₁, rfl, hseek⟩
  obtain ⟨P, hP⟩ := ht.dataAt ((t.openFileTable d).address + 4 * (t.openFileTable d).lseek) length
  obtain ⟨Q, hQ⟩ := ht.dataAt buffer length
  obtain ⟨vmm, hcopy, hsame, -⟩ :=
    Vmm.memcpy_spec (by rw [ht.directory]) hP fun k hk ↦ (hQ k hk).1
  have hvmm := ht.sameTables hsame
  have hcopied : ∃ u, t.copyBuffer d buffer length = some u ∧ u.vmm = vmm := by
    rw [copyBuffer]
    dsimp only
    rw [hcopy]
    exact ⟨_, rfl, rfl⟩
  obtain ⟨u, hu, rfl⟩ := hcopied
  have hback : ∃ w, (u.growSize d).writeBack d 0 = some w := by
    rw [writeBack, saveFile]
    dsimp only
    obtain ⟨R, hR⟩ := hvmm.dataAt (((u.growSize d).openFileTable d).address + 0)
      (bytesToBlocks ((u.growSize d).inodeOf d).size * fsBlock)
    rw [← (u.growSize_frame d).1] at hR
    obtain ⟨disk', hsave⟩ := exists_saveBlocks
      (updateInode (u.growSize d).fs.disk (u.growSize d).fs.superblock ((u.growSize d).inodeOf d))
      ((u.growSize d).inodeOf d) fun k hk ↦ (hR k hk).1
    rw [hsave]
    exact ⟨_, rfl⟩
  obtain ⟨w, hw⟩ := hback
  refine ⟨t, w, hgrow, ?_⟩
  rw [sysWrite_of_writable hflags, hs, hgrow, Option.bind_some, hu, Option.bind_some, hw]
  rfl

/-- A call that is let through. -/
theorem sysWriteInside_of_writable (hflags : Writable (s.openFileTable d))
    (buffer length leftover : ℕ) : s.sysWriteInside d buffer length leftover =
      ((s.seekToEnd d).growPages d length).bind fun s ↦
        (s.copyInside d buffer length).bind fun s ↦
          ((s.growSize d).writeBack d leftover).map fun s ↦ ((length : ℤ), s) := by
  rw [sysWriteInside, if_neg (Int.not_lt.mpr (Int.natCast_nonneg d)), Int.toNat_natCast]
  dsimp only
  rw [if_neg (not_not.mpr hflags)]

/-- **When a write stays inside the pages of the file**: it is refused, or it fits. -/
theorem writesOwnPages_iff (h : s.OpenDescriptor d) (length : ℕ) :
    s.WritesOwnPages d length ↔ ¬ Writable (s.openFileTable d) ∨ s.WriteFits d length := by
  have hopen : ∀ vmm, { s with vmm }.OpenDescriptor d := fun _ ↦
    ⟨h.address, h.maxCount, h.lseek, h.size, h.pagesAllocated⟩
  constructor
  · intro hinside
    by_contra hcon
    obtain ⟨hflags, hfits⟩ := not_or.mp hcon
    rw [not_not] at hflags
    obtain ⟨t, u, hgrow, hcall⟩ := exists_sysWrite_of_allPresent (s := { s with vmm := oneTableVmm })
      oneTableVmm_allPresent hflags 0 length
    -- in this memory the call returns, but one of its bytes is stored outside
    have houtside := mt (writeFits_iff (hopen oneTableVmm) hgrow).mpr hfits
    push Not at houtside
    obtain ⟨k, hk, hout⟩ := houtside
    have hnone : t.copyInside d 0 length = none := by
      rw [copyInside]
      dsimp only
      rw [memcpyInside_of_outside (fun ⟨j, hj, heq⟩ ↦ hout j hj heq) hk]
      rfl
    have hsame := hinside oneTableVmm 0 0
    rw [hcall, sysWriteInside_of_writable (s := { s with vmm := oneTableVmm }) hflags, hgrow,
      Option.bind_some, hnone] at hsame
    exact absurd hsame (by simp)
  · intro hor vmm buffer leftover
    by_cases hflags : Writable (s.openFileTable d)
    · rw [sysWrite_of_writable (s := { s with vmm }) hflags,
        sysWriteInside_of_writable (s := { s with vmm }) hflags]
      refine Option.bind_congr fun t ht ↦ ?_
      have hfits := (writeFits_iff (hopen vmm) ht).mp (hor.resolve_left (not_not.mpr hflags))
      rw [copyBuffer, copyInside]
      dsimp only
      rw [memcpyInside_of_inside hfits]
    · rw [sysWrite, sysWriteInside, if_neg (Int.not_lt.mpr (Int.natCast_nonneg d)),
        if_neg (Int.not_lt.mpr (Int.natCast_nonneg d)), Int.toNat_natCast]
      dsimp only
      rw [if_pos hflags, if_pos hflags]

/-- **What near the limit still is right**, for a read and for a write. -/
theorem lengths_exact (h : s.OpenDescriptor d) (length : BitVec 32) :
    (s.ReadsExactly d length.toNat ↔
      ¬ Unreadable (s.openFileTable d) ∧ (s.openFileTable d).lseek + length.toNat < 2 ^ 32) ∧
    (s.WritesOwnPages d length.toNat ↔
      ¬ Writable (s.openFileTable d) ∨ s.WriteFits d length.toNat) :=
  ⟨readsExactly_iff h length.isLt, writesOwnPages_iff h length.toNat⟩

/-- A file of one byte, read to its end. -/
def atEnd : Kernel := (oneFile 1 fun _ ↦ 0).setFile 0 ⟨0, 1, 0x40000000, 1, 0x21, 1⟩

theorem atEnd_open : atEnd.OpenDescriptor 0 :=
  ⟨by decide, by decide, by decide, by decide, by decide⟩

theorem lengths_exact_atEnd : atEnd.ReadsExactly 0 100 ∧ atEnd.WritesOwnPages 0 100 :=
  ⟨(lengths_exact atEnd_open 100).1.mpr ⟨by decide, by decide⟩,
    (lengths_exact atEnd_open 100).2.mpr (Or.inr (by decide))⟩

/-- Reading or writing `2 ^ 32 - 1` bytes there. -/
theorem not_lengths_atEnd :
    ¬ atEnd.ReadsExactly 0 0xFFFFFFFF ∧ ¬ atEnd.WritesOwnPages 0 0xFFFFFFFF := by
  refine ⟨fun h ↦ ?_, fun h ↦ ?_⟩
  · exact absurd ((readsExactly_iff atEnd_open (by decide)).mp h).2 (by decide)
  · exact absurd ((writesOwnPages_iff atEnd_open _).mp h) (by decide)

end Kernel

end AbOS
