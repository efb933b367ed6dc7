import AbOS.Syscalls.FilePages
import AbOS.Syscalls.RefCounts
import AbOS.Syscalls.Write

/-!
# The pages that a descriptor owns

Opening a file and letting it grow both take the next pages at `file_virtual_address`.  A descriptor
records only its first page and how many there are, so its pages are its own as long as nobody else
has taken pages in between.

`OwnsPages` gives each open descriptor frames of its own, apart from those of the allocator's bitmap.
Opening (`OwnsPages.sysOpen`), writing (`OwnsPages.exists_sysWrite`) and closing
(`OwnsPages.sysClose`) keep it under conditions on the pages they are about.  `Changes` is what one
call does to the pages of one descriptor.
-/

set_option autoImplicit false

namespace AbOS

namespace Kernel

/-- Page `j` of a descriptor. -/
def page (s : Kernel) (d j : ℕ) : ℕ := ((s.openFileTable d).address + j * pageSize) % 2 ^ 32

/-- The frames `F d j` of the pages of open descriptors: all different, in use, and none of them a
page table or one of the bitmap. -/
structure OwnsPages (s : Kernel) (F : ℕ → ℕ → ℕ) : Prop where
  wf : s.vmm.WF
  aligned : s.fileVirtualAddress % pageSize = 0
  lt : s.fileVirtualAddress < 2 ^ 32
  count : ∀ d ∈ s.openFiles, (s.openFileTable d).pagesAllocated < 2 ^ 8
  region : ∀ d ∈ s.openFiles, s.vmm.Region (s.openFileTable d).address
    (s.openFileTable d).pagesAllocated (F d)
  isSet : ∀ d ∈ s.openFiles, ∀ j < (s.openFileTable d).pagesAllocated,
    s.vmm.pmm.isSet (F d j) = true
  pos : ∀ d ∈ s.openFiles, ∀ j < (s.openFileTable d).pagesAllocated, F d j ≠ 0
  apart : ∀ d ∈ s.openFiles, ∀ e ∈ s.openFiles, d ≠ e →
    ∀ j < (s.openFileTable d).pagesAllocated, ∀ k < (s.openFileTable e).pagesAllocated,
      F d j ≠ F e k
  bitmap : s.vmm.KeepsBitmap
  notBitmap : ∀ d ∈ s.openFiles, ∀ j < (s.openFileTable d).pagesAllocated, ¬ BitmapFrame (F d j)

/-- The frame `b` belongs to an open descriptor. -/
def FileFrame (s : Kernel) (b : ℕ) : Prop :=
  ∃ d ∈ s.openFiles, ∃ j < (s.openFileTable d).pagesAllocated, ∃ flags,
    s.vmm.walk (s.page d j) = some (b * 4096, flags)

variable {s t : Kernel} {F : ℕ → ℕ → ℕ}

theorem OwnsPages.fileFrame (h : s.OwnsPages F) {d j : ℕ} (hd : d ∈ s.openFiles)
    (hj : j < (s.openFileTable d).pagesAllocated) : s.FileFrame (F d j) :=
  ⟨d, hd, j, hj, (h.region d hd).walk j hj⟩

/-- It is about the pages that the table names, and their translations. -/
theorem OwnsPages.congr (h : s.OwnsPages F) (hsame : Vmm.SameTables s.vmm t.vmm)
    (haddress : t.fileVirtualAddress = s.fileVirtualAddress)
    (hfile : ∀ d, (t.openFileTable d).address = (s.openFileTable d).address ∧
      (t.openFileTable d).pagesAllocated = (s.openFileTable d).pagesAllocated ∧
      ((t.openFileTable d).maxCount ≠ 0 ↔ (s.openFileTable d).maxCount ≠ 0)) : t.OwnsPages F := by
  have hdir := h.wf.dir_mod
  have hopen : ∀ d, d ∈ t.openFiles ↔ d ∈ s.openFiles := fun d ↦ by
    rw [mem_openFiles, mem_openFiles, (hfile d).2.2]
  refine ⟨hsame.wf hdir h.wf, haddress ▸ h.aligned, haddress ▸ h.lt,
    fun d hd ↦ (hfile d).2.1 ▸ h.count d ((hopen d).mp hd), fun d hd ↦ ?_,
    fun d hd j hj ↦ ?_, fun d hd j hj ↦ h.pos d ((hopen d).mp hd) j ((hfile d).2.1 ▸ hj),
    fun d hd e he hne j hj k hk ↦ ?_, h.bitmap.sameTables hdir hsame,
    fun d hd j hj ↦ h.notBitmap d ((hopen d).mp hd) j ((hfile d).2.1 ▸ hj)⟩
  · rw [(hfile d).1, (hfile d).2.1]
    exact (h.region d ((hopen d).mp hd)).sameTables hsame hdir
  · rw [hsame.pmm]
    exact h.isSet d ((hopen d).mp hd) j ((hfile d).2.1 ▸ hj)
  · exact h.apart d ((hopen d).mp hd) e ((hopen e).mp he) hne j ((hfile d).2.1 ▸ hj) k
      ((hfile e).2.1 ▸ hk)

/-! ## New pages -/

/-- The frames after the descriptor `d` has got the frames `f` behind its first `n`. -/
def growFrames (F : ℕ → ℕ → ℕ) (d n : ℕ) (f : ℕ → ℕ) : ℕ → ℕ → ℕ :=
  Function.update F d fun j ↦ if j < n then F d j else f (j - n)

theorem growFrames_of_ne {d e n : ℕ} {f : ℕ → ℕ} (h : e ≠ d) : growFrames F d n f e = F e :=
  Function.update_of_ne h ..

theorem growFrames_of_lt {d n j : ℕ} {f : ℕ → ℕ} (h : j < n) : growFrames F d n f d j = F d j := by
  rw [growFrames, Function.update_self, if_pos h]

theorem growFrames_add {d n i : ℕ} {f : ℕ → ℕ} : growFrames F d n f d (n + i) = f i := by
  rw [growFrames, Function.update_self, if_neg (by omega), Nat.add_sub_cancel_left]

/-- A page is an old one of the same descriptor, or a new one of `d`. -/
theorem growFrames_cases {d old n : ℕ} (f : ℕ → ℕ)
    (hothers : ∀ e, e ≠ d → t.openFileTable e = s.openFileTable e)
    (hold : old = 0 ∨ (d ∈ s.openFiles ∧ (s.openFileTable d).pagesAllocated = old ∧
      (t.openFileTable d).address = (s.openFileTable d).address))
    (hpages : (t.openFileTable d).pagesAllocated = old + n) {e : ℕ} (he : e ∈ t.openFiles) {j : ℕ}
    (hj : j < (t.openFileTable e).pagesAllocated) :
    (e ∈ s.openFiles ∧ j < (s.openFileTable e).pagesAllocated ∧ (e = d → j < old) ∧
        (t.openFileTable e).address = (s.openFileTable e).address ∧
        growFrames F d old f e j = F e j) ∨
      ∃ i < n, e = d ∧ j = old + i ∧ growFrames F d old f e j = f i := by
  by_cases hed : e = d
  · subst hed
    by_cases hlt : j < old
    · obtain ⟨hd, hp, haddr⟩ := hold.resolve_left (by omega)
      exact Or.inl ⟨hd, hp ▸ hlt, fun _ ↦ hlt, haddr, growFrames_of_lt hlt⟩
    · obtain ⟨i, rfl⟩ := Nat.exists_eq_add_of_le (Nat.not_lt.mp hlt)
      exact Or.inr ⟨i, by omega, rfl, rfl, growFrames_add⟩
  · rw [mem_openFiles, hothers e hed] at he
    rw [hothers e hed] at hj
    exact Or.inl ⟨mem_openFiles.mpr he, hj, fun h ↦ absurd h hed, by rw [hothers e hed],
      by rw [growFrames_of_ne hed]⟩

/-- **New pages behind the old ones.**  The descriptor `d` had `old` pages, none if it was not in
use, and the next page is the one behind them. -/
theorem OwnsPages.extend (h : s.OwnsPages F) {d old n : ℕ} {Keep : ℕ → Prop} {f : ℕ → ℕ}
    (hnew : Vmm.NewPages Keep s.vmm s.fileVirtualAddress n f t.vmm)
    (hnext : t.fileVirtualAddress = (s.fileVirtualAddress + n * pageSize) % 2 ^ 32)
    (hothers : ∀ e, e ≠ d → t.openFileTable e = s.openFileTable e)
    (hold : old = 0 ∨ (d ∈ s.openFiles ∧ (s.openFileTable d).pagesAllocated = old ∧
      (t.openFileTable d).address = (s.openFileTable d).address))
    (hpages : (t.openFileTable d).pagesAllocated = old + n) (hlt : old + n < 2 ^ 8)
    (hlast : ((t.openFileTable d).address + old * pageSize) % 2 ^ 32 = s.fileVirtualAddress) :
    t.OwnsPages (growFrames F d old f) := by
  have hpage := fun {e} (he : e ∈ t.openFiles) {j} hj ↦
    growFrames_cases (F := F) f hothers hold hpages he (j := j) hj
  -- the frames of old pages were in use, those of new ones were not
  have hfresh : ∀ e ∈ s.openFiles, ∀ j < (s.openFileTable e).pagesAllocated, ∀ k < n,
      F e j ≠ f k := fun e he j hj k hk heq ↦ by
    have hset := h.isSet e he j hj
    rw [heq, (hnew.fresh k hk).1] at hset
    exact Bool.false_ne_true hset
  have hregion := fun e he ↦ hnew.region_of_old (h.region e he) (h.isSet e he)
  have hal := h.aligned
  refine ⟨hnew.wf, by rw [hnext]; rw [pageSize] at *; omega,
    hnext ▸ Nat.mod_lt _ (by decide), fun e he ↦ ?_, fun e he ↦ ?_, fun e he j hj ↦ ?_,
    fun e he j hj ↦ ?_, fun e he e' he' hne j hj k hk ↦ ?_, hnew.keepsBitmap h.bitmap,
    fun e he j hj ↦ ?_⟩
  · by_cases hed : e = d
    · rw [hed, hpages]
      exact hlt
    · rw [mem_openFiles, hothers e hed] at he
      rw [hothers e hed]
      exact h.count e (mem_openFiles.mpr he)
  · by_cases hed : e = d
    · subst hed
      refine ⟨by rw [pageSize] at *; omega, fun j hj ↦ ?_, fun j hj ↦ ?_, fun i j hij hj ↦ ?_⟩
      · rcases hpage he hj with ⟨hes, hjp, -, haddr, hF⟩ | ⟨i, hi, -, rfl, hF⟩ <;> rw [hF]
        · rw [haddr]
          exact (hregion e hes).walk j hjp
        · have haddr : ((t.openFileTable e).address + (old + i) * pageSize) % 2 ^ 32 =
              (s.fileVirtualAddress + i * pageSize) % 2 ^ 32 := by
            rw [← hlast, Nat.add_mul]
            omega
          rw [haddr]
          exact hnew.walk i hi
      · rcases hpage he hj with ⟨hes, hjp, -, -, hF⟩ | ⟨i, hi, -, rfl, hF⟩ <;> rw [hF]
        · exact (hregion e hes).data j hjp
        · exact (hnew.fresh i hi).2.2
      · rcases hpage he (hij.trans hj) with ⟨hes, hip, -, -, hF⟩ | ⟨k, hk, -, rfl, hF⟩ <;>
          rcases hpage he hj with ⟨hes', hjp, hjo, -, hF'⟩ | ⟨l, hl, -, rfl, hF'⟩ <;> rw [hF, hF']
        · exact (h.region e hes).inj i j hij hjp
        · exact hfresh e hes i hip l hl
        · exact absurd (hjo rfl) (by omega)
        · exact hnew.inj k l (by omega) hl
    · rw [mem_openFiles, hothers e hed] at he
      rw [hothers e hed, growFrames_of_ne hed]
      exact hregion e (mem_openFiles.mpr he)
  · rcases hpage he hj with ⟨hes, hjp, -, -, hF⟩ | ⟨i, hi, -, -, hF⟩ <;> rw [hF]
    · exact hnew.isSet _ (h.isSet e hes j hjp)
    · exact (hnew.fresh i hi).2.1
  · rcases hpage he hj with ⟨hes, hjp, -, -, hF⟩ | ⟨i, hi, -, -, hF⟩ <;> rw [hF]
    · exact h.pos e hes j hjp
    · intro hzero
      have hclear := (hnew.fresh i hi).1
      rw [hzero, h.wf.zero_set] at hclear
      exact Bool.false_ne_true hclear.symm
  · rcases hpage he hj with ⟨hes, hjp, -, -, hF⟩ | ⟨i, hi, hed, -, hF⟩ <;>
      rcases hpage he' hk with ⟨hes', hkp, -, -, hF'⟩ | ⟨l, hl, hed', -, hF'⟩ <;> rw [hF, hF']
    · exact h.apart e hes e' hes' hne j hjp k hkp
    · exact hfresh e hes j hjp l hl
    · exact (hfresh e' hes' k hkp i hi).symm
    · exact absurd (hed.trans hed'.symm) hne
  · rcases hpage he hj with ⟨hes, hjp, -, -, hF⟩ | ⟨i, hi, -, -, hF⟩ <;> rw [hF]
    · exact h.notBitmap e hes j hjp
    · exact hnew.not_bitmapFrame h.bitmap hi

/-- **Opening** puts new pages behind none. -/
theorem OwnsPages.opened (h : s.OwnsPages F) {inode : Inode} {flags d n : ℕ} {vmm : Vmm}
    {Keep : ℕ → Prop} {f : ℕ → ℕ} (hn : filePageCount (s.loadedInode inode).size = n)
    (hlt : n < 2 ^ 8) (hnew : Vmm.NewPages Keep s.vmm s.fileVirtualAddress n f vmm) :
    (s.opened inode flags d vmm).OwnsPages (growFrames F d 0 f) := by
  have hfile : (s.opened inode flags d vmm).openFileTable d =
      ⟨s.inodeSlot inode.iNumber % 2 ^ 8, 0, s.fileVirtualAddress, 1, flags, n⟩ := by
    rw [Kernel.opened, hn, Nat.mod_eq_of_lt hlt]
    exact Function.update_self ..
  refine h.extend hnew (by rw [← hn]; rfl) (fun e he ↦ Function.update_of_ne he ..)
    (Or.inl rfl) ?_ (by omega) ?_ <;> rw [hfile]
  · rw [Nat.zero_add]
  · rw [Nat.zero_mul, Nat.add_zero]
    exact Nat.mod_eq_of_lt h.lt

/-- **Growing** puts new pages behind the old ones if the last page that has been taken is the last
one of the descriptor. -/
theorem OwnsPages.grown (h : s.OwnsPages F) {d n : ℕ} {Keep : ℕ → Prop} {f : ℕ → ℕ}
    (hd : d ∈ s.openFiles)
    (hlast : ((s.openFileTable d).address + (s.openFileTable d).pagesAllocated * pageSize) %
      2 ^ 32 = s.fileVirtualAddress)
    (hfile : (s.addPages d n).openFileTable d = { s.openFileTable d with
      pagesAllocated := (s.openFileTable d).pagesAllocated + n })
    (hlt : (s.openFileTable d).pagesAllocated + n < 2 ^ 8)
    (hnew : Vmm.NewPages Keep s.vmm s.fileVirtualAddress n f (s.addPages d n).vmm) :
    (s.addPages d n).OwnsPages (growFrames F d (s.openFileTable d).pagesAllocated f) := by
  refine h.extend hnew rfl (fun e he ↦ Function.update_of_ne he ..) (Or.inr ⟨hd, rfl, ?_⟩) ?_ hlt
    ?_ <;> rw [hfile]
  exact hlast

/-! ## Closing -/

/-- None of the pages that go is one of the bitmap. -/
theorem OwnsPages.closed_bitmapKept (h : s.OwnsPages F) {d n : ℕ} (hd : d ∈ s.openFiles)
    (hn : n ≤ (s.openFileTable d).pagesAllocated) {m : Vmm}
    (hclosed : Vmm.ClosedPages s.vmm (s.openFileTable d).address n (F d) m) :
    Vmm.BitmapKept s.vmm m :=
  hclosed.bitmapKept h.bitmap (fun j hj ↦ h.pos d hd j (hj.trans_le hn)) fun j hj ↦
    (h.region d hd).not_bitmapPage h.bitmap (hj.trans_le hn) (h.notBitmap d hd j (hj.trans_le hn))

/-- **Closing**: the pages of the descriptor go, and the bits that are cleared for them belong to no
other. -/
theorem OwnsPages.closed (h : s.OwnsPages F) {d n : ℕ} (hd : d ∈ s.openFiles)
    (hn : n ≤ (s.openFileTable d).pagesAllocated)
    (hclosed : Vmm.ClosedPages s.vmm (s.openFileTable d).address n (F d) t.vmm)
    (hfree : ∀ j < n, ¬ ∃ e ∈ s.openFiles, e ≠ d ∧ ∃ k < (s.openFileTable e).pagesAllocated,
      F e k = F d j * 4096)
    (hnext : t.fileVirtualAddress = s.fileVirtualAddress)
    (hothers : ∀ e, e ≠ d → t.openFileTable e = s.openFileTable e)
    (hnone : (t.openFileTable d).maxCount = 0) : t.OwnsPages F := by
  have hcases : ∀ e ∈ t.openFiles, e ≠ d ∧ e ∈ s.openFiles := fun e he ↦ by
    have hne : e ≠ d := fun heq ↦ (mem_openFiles.mp he).2 (heq ▸ hnone)
    rw [mem_openFiles, hothers e hne] at he
    exact ⟨hne, mem_openFiles.mpr he⟩
  refine ⟨hclosed.wf, hnext ▸ h.aligned, hnext ▸ h.lt, fun e he ↦ ?_, fun e he ↦ ?_,
    fun e he j hj ↦ ?_, fun e he j hj ↦ ?_, fun e he e' he' hne j hj k hk ↦ ?_,
    (h.closed_bitmapKept hd hn hclosed).keeps, fun e he j hj ↦ ?_⟩ <;>
    obtain ⟨hed, hes⟩ := hcases e he
  · rw [hothers e hed]
    exact h.count e hes
  · rw [hothers e hed]
    refine hclosed.region_of_apart (h.region e hes) fun j hj i hi heq ↦ ?_
    -- one page leads to one frame
    obtain ⟨fl, hw⟩ := (h.region e hes).walk j hj
    obtain ⟨fl', hw'⟩ := (h.region d hd).walk i (by omega)
    rw [Vmm.walk_page heq, hw'] at hw
    have hframe := congrArg Prod.fst (Option.some.inj hw)
    exact h.apart e hes d hd hed j hj i (by omega)
      (Nat.eq_of_mul_eq_mul_right (by decide) hframe.symm)
  · rw [hothers e hed] at hj
    exact hclosed.isSet _ (h.isSet e hes j hj) fun i hi heq ↦
      hfree i hi ⟨e, hes, hed, j, hj, heq.symm⟩
  · rw [hothers e hed] at hj
    exact h.pos e hes j hj
  · obtain ⟨hed', hes'⟩ := hcases e' he'
    rw [hothers e hed] at hj
    rw [hothers e' hed'] at hk
    exact h.apart e hes e' hes' hne j hj k hk
  · rw [hothers e hed] at hj
    exact h.notBitmap e hes j hj

/-! ## What a call changes -/

/-- The call stores to the bytes `T` of the pages of `d`.  It may have given `d` more pages; other
descriptors, and other data in frames of `Keep`, stay as they are. -/
structure Changes (Keep : ℕ → Prop) (d : ℕ) (T : ℕ → Prop) (s : Kernel) (F : ℕ → ℕ → ℕ)
    (t : Kernel) (G : ℕ → ℕ → ℕ) : Prop where
  owns : t.OwnsPages G
  others : ∀ e, e ≠ d → t.openFileTable e = s.openFileTable e
  address : (t.openFileTable d).address = (s.openFileTable d).address
  maxCount : (t.openFileTable d).maxCount = (s.openFileTable d).maxCount
  pages : (s.openFileTable d).pagesAllocated ≤ (t.openFileTable d).pagesAllocated
  frames : ∀ e, e ≠ d → G e = F e
  own : ∀ j < (s.openFileTable d).pagesAllocated, G d j = F d j
  fresh : ∀ j, (s.openFileTable d).pagesAllocated ≤ j → j < (t.openFileTable d).pagesAllocated →
    s.vmm.pmm.isSet (G d j) = false
  translate : ∀ v p, v < 2 ^ 32 → s.vmm.translate v = some p → t.vmm.translate v = some p
  isSet : ∀ b, s.vmm.pmm.isSet b = true → t.vmm.pmm.isSet b = true
  data : ∀ b, s.vmm.pmm.isSet b = true → ¬ s.vmm.IsPaging b → ¬ t.vmm.IsPaging b
  ram : ∀ x, s.vmm.pmm.isSet (x / 4096) = true → ¬ s.vmm.IsPaging (x / 4096) → Keep (x / 4096) →
    (∀ y, T y → y < (t.openFileTable d).pagesAllocated * pageSize →
      x ≠ Vmm.frameByte (G d) y) → t.vmm.ram x = s.vmm.ram x
  bitmap : ∀ x, BitmapFrame (x / 4096) → t.vmm.ram x = s.vmm.ram x

section Changes

variable {u : Kernel} {G H : ℕ → ℕ → ℕ} {Keep T T' : ℕ → Prop} {d : ℕ}

theorem frameByte_congr {f g : ℕ → ℕ} {x : ℕ} (h : f (x / pageSize) = g (x / pageSize)) :
    Vmm.frameByte f x = Vmm.frameByte g x := by
  rw [Vmm.frameByte, Vmm.frameByte, h]

theorem page_lt {x n : ℕ} (h : x < n * pageSize) : x / pageSize < n :=
  Nat.div_lt_of_lt_mul (by rwa [Nat.mul_comm])

/-- The pages of files do not reach the bitmap. -/
theorem OwnsPages.frameByte_ne (h : s.OwnsPages F) (hd : d ∈ s.openFiles) {x y : ℕ}
    (hx : BitmapFrame (x / 4096)) (hy : y < (s.openFileTable d).pagesAllocated * pageSize) :
    x ≠ Vmm.frameByte (F d) y := fun heq ↦ by
  rw [heq, Vmm.frameByte_div] at hx
  exact h.notBitmap d hd _ (page_lt hy) hx

theorem Changes.isOpen (h : Changes Keep d T s F t G) {e : ℕ} (he : e ∈ s.openFiles) :
    e ∈ t.openFiles := by
  rcases eq_or_ne e d with rfl | hne
  · rw [mem_openFiles, h.maxCount]
    exact mem_openFiles.mp he
  · rw [mem_openFiles, h.others e hne]
    exact mem_openFiles.mp he

/-- The pages that the descriptor had are where they were. -/
theorem Changes.translate_own (h : Changes Keep d T s F t G) (howns : s.OwnsPages F)
    (hd : d ∈ s.openFiles) {y : ℕ} (hy : y < (s.openFileTable d).pagesAllocated * pageSize) :
    s.vmm.translate (((s.openFileTable d).address + y) % 2 ^ 32) =
      some (Vmm.frameByte (G d) y) := by
  rw [frameByte_congr (h.own _ (page_lt hy))]
  exact ((howns.region d hd).dataAt (Or.inr (Nat.succ_le_of_lt hy)) 0 Nat.one_pos).1

/-- The frames of its new pages were not in use. -/
theorem Changes.ne_frameByte (h : Changes Keep d T s F t G) {q y : ℕ}
    (hset : s.vmm.pmm.isSet (q / 4096) = true)
    (hge : (s.openFileTable d).pagesAllocated * pageSize ≤ y)
    (hy : y < (t.openFileTable d).pagesAllocated * pageSize) : q ≠ Vmm.frameByte (G d) y :=
  fun heq ↦ by
    have hpage : (s.openFileTable d).pagesAllocated ≤ y / pageSize :=
      (Nat.le_div_iff_mul_le (by decide)).mpr hge
    rw [heq, Vmm.frameByte_div, h.fresh _ hpage (page_lt hy)] at hset
    exact Bool.false_ne_true hset

/-- Stores to pages that are there. -/
theorem OwnsPages.changes_of_stores (h : s.OwnsPages F) (hsame : Vmm.SameTables s.vmm t.vmm)
    (hnext : t.fileVirtualAddress = s.fileVirtualAddress)
    (hothers : ∀ e, e ≠ d → t.openFileTable e = s.openFileTable e)
    (hfile : (t.openFileTable d).address = (s.openFileTable d).address ∧
      (t.openFileTable d).pagesAllocated = (s.openFileTable d).pagesAllocated ∧
      (t.openFileTable d).maxCount = (s.openFileTable d).maxCount)
    (hbitmap : ∀ x, BitmapFrame (x / 4096) → t.vmm.ram x = s.vmm.ram x)
    (hout : ∀ x, (∀ y, T y → y < (s.openFileTable d).pagesAllocated * pageSize →
      x ≠ Vmm.frameByte (F d) y) → t.vmm.ram x = s.vmm.ram x) : Changes Keep d T s F t F := by
  have hdir := h.wf.dir_mod
  refine ⟨h.congr hsame hnext fun e ↦ ?_, hothers, hfile.1, hfile.2.2, hfile.2.1.ge, fun _ _ ↦ rfl,
    fun _ _ ↦ rfl, fun j hj hlt ↦ absurd hlt (by omega),
    fun v p hv hp ↦ (hsame.translate hdir hv).trans hp, fun b hb ↦ hsame.pmm ▸ hb,
    fun b _ hp ↦ (hsame.isPaging_iff hdir).not.mpr hp, fun x _ _ _ hT ↦ ?_, hbitmap⟩
  · by_cases he : e = d
    · rw [he, hfile.2.2]
      exact ⟨hfile.1, hfile.2.1, Iff.rfl⟩
    · rw [hothers e he]
      exact ⟨rfl, rfl, Iff.rfl⟩
  · rw [hfile.2.1] at hT
    exact hout x hT

/-- A call that leaves the memory alone. -/
theorem OwnsPages.changes_of_vmm (h : s.OwnsPages F) (hvmm : t.vmm = s.vmm)
    (hnext : t.fileVirtualAddress = s.fileVirtualAddress)
    (hothers : ∀ e, e ≠ d → t.openFileTable e = s.openFileTable e)
    (hfile : (t.openFileTable d).address = (s.openFileTable d).address ∧
      (t.openFileTable d).pagesAllocated = (s.openFileTable d).pagesAllocated ∧
      (t.openFileTable d).maxCount = (s.openFileTable d).maxCount) :
    Changes Keep d (fun _ ↦ False) s F t F :=
  h.changes_of_stores (hvmm ▸ Vmm.SameTables.refl _) hnext hothers hfile (fun _ _ ↦ by rw [hvmm])
    fun _ _ ↦ by rw [hvmm]

/-- One call after the other. -/
theorem Changes.trans (h : Changes Keep d T s F u G) (h' : Changes Keep d T' u G t H) :
    Changes Keep d (fun y ↦ T y ∨ T' y) s F t H where
  owns := h'.owns
  others := fun e he ↦ (h'.others e he).trans (h.others e he)
  address := h'.address.trans h.address
  maxCount := h'.maxCount.trans h.maxCount
  pages := h.pages.trans h'.pages
  frames := fun e he ↦ (h'.frames e he).trans (h.frames e he)
  own := fun j hj ↦ (h'.own j (hj.trans_le h.pages)).trans (h.own j hj)
  fresh := fun j hj hlt ↦ by
    by_cases hju : j < (u.openFileTable d).pagesAllocated
    · rw [h'.own j hju]
      exact h.fresh j hj hju
    · by_contra hcon
      rw [Bool.not_eq_false] at hcon
      exact Bool.false_ne_true ((h'.fresh j (by omega) hlt).symm.trans (h.isSet _ hcon))
  translate := fun v p hv hp ↦ h'.translate v p hv (h.translate v p hv hp)
  isSet := fun b hb ↦ h'.isSet b (h.isSet b hb)
  data := fun b hb hp ↦ h'.data b (h.isSet b hb) (h.data b hb hp)
  ram := fun x hx hp hk hT ↦ by
    rw [h'.ram x (h.isSet _ hx) (h.data _ hx hp) hk fun y hy hlt ↦ hT y (Or.inr hy) hlt]
    refine h.ram x hx hp hk fun y hy hlt ↦ ?_
    have hpages := Nat.mul_le_mul_right pageSize h'.pages
    rw [← frameByte_congr (h'.own _ (page_lt hlt))]
    exact hT y (Or.inl hy) (hlt.trans_le hpages)
  bitmap := fun x hx ↦ (h'.bitmap x hx).trans (h.bitmap x hx)

theorem Changes.mono (h : Changes Keep d T s F t G) (hT : ∀ y, T y → T' y) :
    Changes Keep d T' s F t G :=
  { h with ram := fun x hx hp hk hT' ↦ h.ram x hx hp hk fun y hy ↦ hT' y (hT y hy) }

theorem Changes.bitmapKept (h : Changes Keep d T s F t G) : Vmm.BitmapKept s.vmm t.vmm :=
  ⟨h.owns.bitmap, h.bitmap⟩

/-- Bytes of the pages that the call does not store to. -/
theorem Changes.own_ram (h : Changes Keep d T s F t G) (hs : s.OwnsPages F) (hd : d ∈ s.openFiles)
    (hkeep : ∀ j < (s.openFileTable d).pagesAllocated, Keep (F d j)) {y : ℕ}
    (hy : y < (s.openFileTable d).pagesAllocated * pageSize) (hT : ¬ T y) :
    t.vmm.ram (Vmm.frameByte (G d) y) = s.vmm.ram (Vmm.frameByte (F d) y) := by
  have hpage := page_lt hy
  rw [frameByte_congr (h.own _ hpage)]
  refine h.ram _ ?_ ?_ ?_ fun z hz hlt heq ↦ ?_
  · rw [Vmm.frameByte_div]
    exact hs.isSet d hd _ hpage
  · rw [Vmm.frameByte_div]
    exact (hs.region d hd).data _ hpage
  · rw [Vmm.frameByte_div]
    exact hkeep _ hpage
  · have hpages := Nat.mul_le_mul_right pageSize h.pages
    rw [← frameByte_congr (h.own _ hpage)] at heq
    exact (h.owns.region d (h.isOpen hd)).frameByte_ne (fun (hyz : y = z) ↦ hT (hyz ▸ hz))
      (hy.trans_le hpages) hlt heq

/-- Bytes of other descriptors. -/
theorem Changes.other_ram (h : Changes Keep d T s F t G) (hs : s.OwnsPages F) {e : ℕ}
    (he : e ∈ s.openFiles) (hne : e ≠ d) (hd : d ∈ s.openFiles)
    (hkeep : ∀ j < (s.openFileTable e).pagesAllocated, Keep (F e j)) {y : ℕ}
    (hy : y < (s.openFileTable e).pagesAllocated * pageSize) :
    t.vmm.ram (Vmm.frameByte (F e) y) = s.vmm.ram (Vmm.frameByte (F e) y) := by
  have hpage := page_lt hy
  have hopen : ∀ c, c ∈ s.openFiles → c ∈ t.openFiles := fun c hc ↦ by
    rw [mem_openFiles] at hc ⊢
    by_cases hcd : c = d
    · rw [hcd, h.maxCount]
      exact hcd ▸ hc
    · rwa [h.others c hcd]
  refine h.ram _ ?_ ?_ ?_ fun z _ hlt heq ↦ ?_
  · rw [Vmm.frameByte_div]
    exact hs.isSet e he _ hpage
  · rw [Vmm.frameByte_div]
    exact (hs.region e he).data _ hpage
  · rw [Vmm.frameByte_div]
    exact hkeep _ hpage
  · have hdiv : Vmm.frameByte (F e) y / 4096 = Vmm.frameByte (G d) z / 4096 := by rw [heq]
    rw [Vmm.frameByte_div, Vmm.frameByte_div, ← h.frames e hne] at hdiv
    exact h.owns.apart e (hopen e he) d (hopen d hd) hne _ (by rwa [h.others e hne]) _
      (page_lt hlt) hdiv

end Changes

/-! ## Writing -/

/-- The growth of a file by `bytes` bytes gets pages behind its own, and clears no others. -/
structure GrowsInside (Keep : ℕ → Prop) (s : Kernel) (d bytes : ℕ) : Prop where
  last : ((s.openFileTable d).address + (s.openFileTable d).pagesAllocated * pageSize) % 2 ^ 32 =
    s.fileVirtualAddress
  pages : (s.openFileTable d).pagesAllocated + filePageCount bytes < 2 ^ 8
  harmless : Vmm.MapsHarmlessly Keep s.vmm s.fileVirtualAddress (filePageCount bytes)
  clears : bytes = 0 ∨ 4 * (s.inodeOf d).size + bytes ≤
    ((s.openFileTable d).pagesAllocated + filePageCount bytes) * pageSize

/-- The pages of the descriptor after a call. -/
def pagesAfter (s : Kernel) (d length : ℕ) : ℕ :=
  (s.openFileTable d).pagesAllocated + ((s.growth d length).map filePageCount).getD 0

section Writing

variable {Keep : ℕ → Prop} {d length : ℕ}

/-- New pages change nothing else. -/
theorem OwnsPages.changes_of_grown (h : s.OwnsPages F) {n : ℕ} {f : ℕ → ℕ} (hd : d ∈ s.openFiles)
    (hlast : ((s.openFileTable d).address + (s.openFileTable d).pagesAllocated * pageSize) %
      2 ^ 32 = s.fileVirtualAddress)
    (hfile : (s.addPages d n).openFileTable d = { s.openFileTable d with
      pagesAllocated := (s.openFileTable d).pagesAllocated + n })
    (hlt : (s.openFileTable d).pagesAllocated + n < 2 ^ 8)
    (hnew : Vmm.NewPages (fun b ↦ Keep b ∨ BitmapFrame b) s.vmm s.fileVirtualAddress n f
      (s.addPages d n).vmm) :
    Changes Keep d (fun _ ↦ False) s F (s.addPages d n)
      (growFrames F d (s.openFileTable d).pagesAllocated f) where
  owns := h.grown hd hlast hfile hlt hnew
  others := fun e he ↦ Function.update_of_ne he ..
  address := by rw [hfile]
  maxCount := by rw [hfile]
  pages := by rw [hfile]; exact Nat.le_add_right ..
  frames := fun e he ↦ growFrames_of_ne he
  own := fun j hj ↦ growFrames_of_lt hj
  fresh := fun j hj hlt ↦ by
    obtain ⟨i, rfl⟩ := Nat.exists_eq_add_of_le hj
    rw [hfile] at hlt
    rw [growFrames_add]
    exact (hnew.fresh i (by dsimp only at hlt; omega)).1
  translate := fun v p hv hp ↦ by
    obtain ⟨w, hw, rfl⟩ := Option.map_eq_some_iff.mp hp
    obtain ⟨flags, hw'⟩ := hnew.keeps v w hv hw
    rw [Vmm.translate, hw', Option.map_some]
  isSet := hnew.isSet
  data := fun b hb hp hp' ↦
    (hnew.paging b hp').elim hp fun hc ↦ Bool.false_ne_true (hc.symm.trans hb)
  ram := fun x hx hp hk _ ↦ hnew.ram x hx hp (Or.inl hk)
  bitmap := (hnew.bitmapKept h.bitmap fun _ ↦ Or.inr).ram

/-- The second step of `sys_write`. -/
theorem OwnsPages.exists_growPages (h : s.OwnsPages F) (hd : d ∈ s.openFiles)
    (hgrow : ∀ bytes, s.growth d length = some bytes → GrowsInside Keep s d bytes) :
    ∃ t G, s.growPages d length = some t ∧
      (t.openFileTable d).pagesAllocated = s.pagesAfter d length ∧
      Changes Keep d (fun y ↦ ∃ bytes, s.growth d length = some bytes ∧
        4 * (s.inodeOf d).size ≤ y ∧ y < 4 * (s.inodeOf d).size + bytes) s F t G := by
  rw [growPages_eq, pagesAfter]
  cases hbytes : s.growth d length with
  | none =>
    exact ⟨s, F, rfl, rfl, (h.changes_of_vmm rfl rfl (fun _ _ ↦ rfl) ⟨rfl, rfl, rfl⟩).mono
      fun _ hf ↦ hf.elim⟩
  | some bytes =>
    obtain ⟨hlast, hpages, hharm, hclear⟩ := hgrow bytes hbytes
    obtain ⟨f, hnew⟩ := h.wf.newPages (hharm.bitmap h.wf h.bitmap)
    rw [Option.map_some, Option.getD_some]
    dsimp only
    have hfile : (s.addPages d (filePageCount bytes)).openFileTable d = { s.openFileTable d with
        pagesAllocated := (s.openFileTable d).pagesAllocated + filePageCount bytes } := by
      rw [← Nat.mod_eq_of_lt hpages]
      exact Function.update_self ..
    have hgrown := h.changes_of_grown hd hlast hfile hpages hnew
    generalize s.addPages d (filePageCount bytes) = u at hfile hgrown ⊢
    have hopen : d ∈ u.openFiles := by
      rw [mem_openFiles, hfile]
      exact mem_openFiles.mp hd
    have hregion := hgrown.owns.region d hopen
    rw [hfile] at hregion
    obtain ⟨vmm, hset, hsame, hout⟩ := Vmm.memset_spec hgrown.owns.wf.dir_mod
      (hregion.dataAt hclear) 0
    have hstores : Changes Keep d
        (fun y ↦ 4 * (s.inodeOf d).size ≤ y ∧ y < 4 * (s.inodeOf d).size + bytes) u _
        { u with vmm } _ :=
      hgrown.owns.changes_of_stores hsame rfl (fun _ _ ↦ rfl) ⟨rfl, rfl, rfl⟩
        (fun x hx ↦ hout x fun k hk ↦
          hgrown.owns.frameByte_ne hopen hx (by rw [hfile]; dsimp only; omega))
        fun x hx ↦ hout x fun k hk ↦
          hx _ ⟨Nat.le_add_right .., by omega⟩ (by rw [hfile]; dsimp only; omega)
    refine ⟨{ u with vmm }, _, by rw [hset]; rfl, by rw [hfile], (hgrown.trans hstores).mono
      fun y hy ↦ ⟨bytes, rfl, hy.resolve_left id⟩⟩

/-- The third step. -/
theorem OwnsPages.exists_copyBuffer (h : s.OwnsPages F) (hd : d ∈ s.openFiles)
    (hfits : length = 0 ∨ 4 * (s.openFileTable d).lseek + length ≤
      (s.openFileTable d).pagesAllocated * pageSize) (Keep : ℕ → Prop) {buffer : ℕ} {Q : ℕ → ℕ}
    (hQ : ∀ k < length, s.vmm.translate ((buffer + k) % 2 ^ 32) = some (Q k)) :
    ∃ t, s.copyBuffer d buffer length = some t ∧
      (t.openFileTable d).pagesAllocated = (s.openFileTable d).pagesAllocated ∧
      Changes Keep d (fun y ↦ 4 * (s.openFileTable d).lseek ≤ y ∧
        y < 4 * (s.openFileTable d).lseek + length) s F t F ∧
      ((∀ j k, j < k → k < length →
          Q k ≠ Vmm.frameByte (F d) (4 * (s.openFileTable d).lseek + j)) →
        ∀ k < length, t.vmm.ram (Vmm.frameByte (F d) (4 * (s.openFileTable d).lseek + k)) =
          s.vmm.ram (Q k)) := by
  have hdir := h.wf.dir_mod
  have hregion := h.region d hd
  obtain ⟨vmm, hcopy, hsame, hout, hin⟩ := Vmm.memcpy_spec hdir (hregion.dataAt hfits) hQ
  obtain ⟨t, ht, hvmm, hnext, htable⟩ : ∃ t, s.copyBuffer d buffer length = some t ∧
      t.vmm = vmm ∧ t.fileVirtualAddress = s.fileVirtualAddress ∧
      t.openFileTable = Function.update s.openFileTable d { s.openFileTable d with
        lseek := ((s.openFileTable d).lseek + length) % 2 ^ 32 } := by
    rw [copyBuffer, hcopy]
    exact ⟨_, rfl, rfl, rfl, rfl⟩
  have hfile : t.openFileTable d = { s.openFileTable d with
      lseek := ((s.openFileTable d).lseek + length) % 2 ^ 32 } := by
    rw [htable, Function.update_self]
  rw [← hvmm] at hsame hout hin
  refine ⟨t, ht, by rw [hfile], h.changes_of_stores hsame hnext
    (fun e he ↦ by rw [htable, Function.update_of_ne he]) (by rw [hfile]; exact ⟨rfl, rfl, rfl⟩)
    (fun x hx ↦ hout x fun k hk ↦ h.frameByte_ne hd hx (by omega))
    fun x hx ↦ hout x fun k hk ↦ hx _ ⟨Nat.le_add_right .., by omega⟩ (by omega),
    fun hapart k hk ↦ ?_⟩
  exact hin (fun i j hij hj ↦ hregion.frameByte_ne (by omega) (by omega) (by omega)) hapart k hk

/-- The last step. -/
theorem OwnsPages.exists_writeBack (h : s.OwnsPages F) (hd : d ∈ s.openFiles) {leftover : ℕ}
    (hsaves : bytesToBlocks (s.inodeOf d).size = 0 ∨
      leftover + bytesToBlocks (s.inodeOf d).size * fsBlock ≤
        (s.openFileTable d).pagesAllocated * pageSize) :
    ∃ disk, s.writeBack d leftover = some { s with fs := { s.fs with disk } } ∧
      saveFile (updateInode s.fs.disk s.fs.superblock (s.inodeOf d)) (s.inodeOf d) s.vmm
        (s.openFileTable d).address leftover = some (disk, s.vmm) := by
  have hpages := (h.region d hd).dataAt (hsaves.imp (fun h0 ↦ by rw [h0, Nat.zero_mul]) id)
  obtain ⟨disk, hdisk⟩ := exists_saveBlocks
    (updateInode s.fs.disk s.fs.superblock (s.inodeOf d)) (s.inodeOf d) fun k hk ↦ (hpages k hk).1
  rw [writeBack, saveFile, hdisk]
  exact ⟨disk, rfl, rfl⟩

end Writing

/-- The pages of the descriptor hold all that a call stores and saves, the buffer is there and not in
the bitmap, and a growth gets the pages behind. -/
structure WritesInside (Keep : ℕ → Prop) (s : Kernel) (d buffer length leftover : ℕ) : Prop where
  grows : ∀ bytes, (s.seekToEnd d).growth d length = some bytes →
    GrowsInside Keep (s.seekToEnd d) d bytes
  copies : length = 0 ∨
    4 * s.writeStart d + length ≤ (s.seekToEnd d).pagesAfter d length * pageSize
  buffer : ∀ k < length, ∃ p, s.vmm.translate ((buffer + k) % 2 ^ 32) = some p ∧
    ¬ BitmapFrame (p / 4096)
  saves : bytesToBlocks (max (s.inodeOf d).size ((s.writeStart d + length) % 2 ^ 32)) = 0 ∨
    leftover + bytesToBlocks (max (s.inodeOf d).size ((s.writeStart d + length) % 2 ^ 32)) *
      fsBlock ≤ (s.seekToEnd d).pagesAfter d length * pageSize

/-- The bytes of its pages that a call stores to: those it clears, and those it copies to. -/
def Touched (s : Kernel) (d length y : ℕ) : Prop :=
  (∃ bytes, (s.seekToEnd d).growth d length = some bytes ∧
    4 * (s.inodeOf d).size ≤ y ∧ y < 4 * (s.inodeOf d).size + bytes) ∨
  (4 * s.writeStart d ≤ y ∧ y < 4 * s.writeStart d + length)

/-- No byte of the buffer is stored to before it is copied.  When the call takes new pages, the
buffer lies in frames of `Keep` that are in use and hold data, and none of it is cleared. -/
structure BufferKept (Keep : ℕ → Prop) (s : Kernel) (d buffer length : ℕ) : Prop where
  copied : ∀ j k, j < k → k < length →
    4 * s.writeStart d + j < (s.openFileTable d).pagesAllocated * pageSize →
    s.vmm.translate ((buffer + k) % 2 ^ 32) ≠
      s.vmm.translate (((s.openFileTable d).address + (4 * s.writeStart d + j)) % 2 ^ 32)
  cleared : ∀ bytes, (s.seekToEnd d).growth d length = some bytes → ∀ k < length, ∀ q,
    s.vmm.translate ((buffer + k) % 2 ^ 32) = some q →
      (s.vmm.pmm.isSet (q / 4096) = true ∧ ¬ s.vmm.IsPaging (q / 4096) ∧ Keep (q / 4096)) ∧
      ∀ y, 4 * (s.inodeOf d).size ≤ y → y < 4 * (s.inodeOf d).size + bytes →
        y < (s.openFileTable d).pagesAllocated * pageSize →
          s.vmm.translate (((s.openFileTable d).address + y) % 2 ^ 32) ≠ some q

theorem seekToEnd_changes (h : s.OwnsPages F) (Keep : ℕ → Prop) (d : ℕ) :
    Changes Keep d (fun _ ↦ False) s F (s.seekToEnd d) F := by
  rw [seekToEnd]
  split
  · exact h.changes_of_vmm rfl rfl (fun e he ↦ Function.update_of_ne he ..)
      (by simp [setFile])
  · exact h.changes_of_vmm rfl rfl (fun _ _ ↦ rfl) ⟨rfl, rfl, rfl⟩

section Buffer

variable {Keep : ℕ → Prop} {d buffer length : ℕ} {G : ℕ → ℕ → ℕ} {T : ℕ → Prop}

/-- The pages that a write takes are none of its buffer. -/
theorem BufferKept.ne_frameByte (h : BufferKept Keep s d buffer length)
    (hchanges : Changes Keep d T s F t G)
    (hpages : (t.openFileTable d).pagesAllocated = (s.seekToEnd d).pagesAfter d length)
    {k q y : ℕ} (hk : k < length) (hq : s.vmm.translate ((buffer + k) % 2 ^ 32) = some q)
    (hge : (s.openFileTable d).pagesAllocated * pageSize ≤ y)
    (hy : y < (t.openFileTable d).pagesAllocated * pageSize) : q ≠ Vmm.frameByte (G d) y := by
  cases hbytes : (s.seekToEnd d).growth d length with
  | none =>
    obtain ⟨-, -, hseek⟩ := s.seekToEnd_frame d
    rw [hpages, pagesAfter, hbytes, hseek, Function.update_self] at hy
    exact absurd hge (Nat.not_le.mpr hy)
  | some bytes =>
    obtain ⟨⟨hset, -, -⟩, -⟩ := h.cleared bytes hbytes k hk q hq
    exact hchanges.ne_frameByte hset hge hy

/-- **The growth of a write** leaves its buffer. -/
theorem BufferKept.ram_growPages (h : BufferKept Keep s d buffer length) (howns : s.OwnsPages F)
    (hd : d ∈ s.openFiles)
    (hchanges : Changes Keep d (fun y ↦ False ∨ ∃ bytes,
      (s.seekToEnd d).growth d length = some bytes ∧ 4 * ((s.seekToEnd d).inodeOf d).size ≤ y ∧
        y < 4 * ((s.seekToEnd d).inodeOf d).size + bytes) s F t G)
    (hgrow : (s.seekToEnd d).growPages d length = some t)
    (hpages : (t.openFileTable d).pagesAllocated = (s.seekToEnd d).pagesAfter d length)
    {k q : ℕ} (hk : k < length) (hq : s.vmm.translate ((buffer + k) % 2 ^ 32) = some q) :
    t.vmm.ram q = s.vmm.ram q := by
  obtain ⟨hs₁, -, hit₁, -⟩ := s.seekToEnd_spec d
  have hsize : ((s.seekToEnd d).inodeOf d).size = (s.inodeOf d).size := by
    rw [inodeOf, inodeOf, hit₁, hs₁.inodeIndex]
  cases hbytes : (s.seekToEnd d).growth d length with
  | none =>
    rw [growPages_eq, hbytes] at hgrow
    rw [← Option.some.inj hgrow, (s.seekToEnd_frame d).1]
  | some bytes =>
    obtain ⟨⟨hset, hdata, hkeep⟩, hclear⟩ := h.cleared bytes hbytes k hk q hq
    refine hchanges.ram q hset hdata hkeep fun y hy hlt heq ↦ ?_
    rcases Nat.lt_or_ge y ((s.openFileTable d).pagesAllocated * pageSize) with hold | hnew
    · obtain ⟨b, hb, h₁, h₂⟩ := hy.resolve_left id
      rw [hsize] at h₁ h₂
      obtain rfl : bytes = b := Option.some.inj (hbytes.symm.trans hb)
      exact hclear y h₁ h₂ hold
        ((hchanges.translate_own howns hd hold).trans (congrArg some heq.symm))
    · exact h.ne_frameByte hchanges hpages hk hq hnew hlt heq

end Buffer

/-- **A call of `sys_write`** that stays inside the pages of its descriptor. -/
theorem OwnsPages.exists_sysWrite {Keep : ℕ → Prop} {d buffer length leftover : ℕ}
    (h : s.OwnsPages F) (hd : d ∈ s.openFiles) (hflags : Writable (s.openFileTable d))
    (hin : WritesInside Keep s d buffer length leftover) :
    ∃ t G, s.sysWrite d buffer length leftover = some ((length : ℤ), t) ∧
      Changes Keep d (s.Touched d length) s F t G ∧
      (t.openFileTable d).pagesAllocated = (s.seekToEnd d).pagesAfter d length ∧
      (t.openFileTable d).lseek = (s.writeStart d + length) % 2 ^ 32 ∧
      (t.inodeOf d).size = max (s.inodeOf d).size ((s.writeStart d + length) % 2 ^ 32) ∧
      saveFile (updateInode s.fs.disk s.fs.superblock (t.inodeOf d)) (t.inodeOf d) t.vmm
        (t.openFileTable d).address leftover = some (t.fs.disk, t.vmm) ∧
      (BufferKept Keep s d buffer length → ∀ k < length, ∀ q,
        s.vmm.translate ((buffer + k) % 2 ^ 32) = some q →
          t.vmm.ram (Vmm.frameByte (G d) (4 * s.writeStart d + k)) = s.vmm.ram q) := by
  choose! Q hQ using fun k hk ↦ (hin.buffer k hk).imp fun _ ↦ And.left
  obtain ⟨hs₁, hfs₁, hit₁, hl₁⟩ := s.seekToEnd_spec d
  have hc₁ := seekToEnd_changes h Keep d
  have hd₁ := hc₁.isOpen hd
  have hsize₁ : ((s.seekToEnd d).inodeOf d).size = (s.inodeOf d).size := by
    rw [inodeOf, inodeOf, hit₁, hs₁.inodeIndex]
  -- the growth
  obtain ⟨s₂, G, h₂, hpages₂, hc₂⟩ := hc₁.owns.exists_growPages hd₁ hin.grows
  obtain ⟨hs₂, hfs₂, hit₂, hl₂⟩ := growPages_spec h₂
  have hd₂ := hc₂.isOpen hd₁
  have hc₁₂ := hc₁.trans hc₂
  -- the copy
  obtain ⟨s₃, h₃, hpages₃, hc₃, hcopied⟩ := hc₂.owns.exists_copyBuffer hd₂
    (by rw [hl₂, hl₁, hpages₂]; exact hin.copies) Keep
    fun k hk ↦ hc₁₂.translate _ _ (Nat.mod_lt _ (by decide)) (hQ k hk)
  obtain ⟨hs₃, hfs₃, hit₃, hl₃⟩ := copyBuffer_spec h₃
  have hd₃ := hc₃.isOpen hd₂
  have hc₁₃ := hc₁₂.trans hc₃
  -- the size and the disk
  obtain ⟨hs₄, hfs₄, hsize₄⟩ := s₃.growSize_spec d
  obtain ⟨hvmm₄, htable₄, hnext₄⟩ := s₃.growSize_frame d
  have hc₄ : Changes Keep d (fun _ ↦ False) s₃ G (s₃.growSize d) G :=
    hc₃.owns.changes_of_vmm hvmm₄ hnext₄ (fun _ _ ↦ by rw [htable₄])
      (by rw [htable₄]; exact ⟨rfl, rfl, rfl⟩)
  have hd₄ := hc₄.isOpen hd₃
  have hsize : ((s₃.growSize d).inodeOf d).size =
      max (s.inodeOf d).size ((s.writeStart d + length) % 2 ^ 32) := by
    rw [hsize₄, hl₃, hl₂, hl₁, inodeOf, hit₃, hit₂, hit₁, ((hs₁.trans hs₂).trans hs₃).inodeIndex]
    rfl
  have hpages : (s₃.openFileTable d).pagesAllocated = (s.seekToEnd d).pagesAfter d length :=
    hpages₃.trans hpages₂
  have hsaves := hin.saves
  rw [← hsize, ← hpages, ← htable₄] at hsaves
  obtain ⟨disk, hback, hsave⟩ := hc₄.owns.exists_writeBack hd₄ hsaves
  have hcall : s.sysWrite d buffer length leftover = some ((length : ℤ),
      { s₃.growSize d with fs := { (s₃.growSize d).fs with disk } }) := by
    rw [sysWrite_of_writable hflags, h₂, Option.bind_some, h₃, Option.bind_some, hback]
    rfl
  have hlast : Changes Keep d (fun _ ↦ False) (s₃.growSize d) G
      { s₃.growSize d with fs := { (s₃.growSize d).fs with disk } } G :=
    hc₄.owns.changes_of_vmm rfl rfl (fun _ _ ↦ rfl) ⟨rfl, rfl, rfl⟩
  have hfs : (s₃.growSize d).fs = s.fs := by rw [hfs₄, hfs₃, hfs₂, hfs₁]
  rw [hfs] at hsave
  refine ⟨_, G, hcall, ((hc₁₃.trans hc₄).trans hlast).mono fun y hy ↦ ?_, ?_, ?_, hsize, hsave,
    fun hkept k hk q hq ↦ ?_⟩
  · rw [hl₂, hl₁, hsize₁] at hy
    rcases hy with (((hf | hgrow) | hcopy) | hf) | hf
    · exact hf.elim
    · exact Or.inl hgrow
    · exact Or.inr hcopy
    · exact hf.elim
    · exact hf.elim
  · show ((s₃.growSize d).openFileTable d).pagesAllocated = _
    rw [htable₄, hpages]
  · show ((s₃.growSize d).openFileTable d).lseek = _
    rw [htable₄, hl₃, hl₂, hl₁]
  · obtain rfl : Q k = q := Option.some.inj ((hQ k hk).symm.trans hq)
    have hcopies := hin.copies
    rw [← hpages₂] at hcopies
    rw [hl₂, hl₁] at hcopied
    rw [← hkept.ram_growPages h hd hc₁₂ h₂ hpages₂ hk hq, ← hcopied (fun j i hij hi heq ↦ ?_) k hk]
    · exact congrArg (Vmm.ram · _) hvmm₄
    · rcases Nat.lt_or_ge (4 * s.writeStart d + j)
        ((s.openFileTable d).pagesAllocated * pageSize) with hold | hnew
      · refine hkept.copied j i hij hi hold ?_
        rw [hQ i hi, hc₁₂.translate_own h hd hold, heq]
      · exact hkept.ne_frameByte hc₁₂ hpages₂ hi (hQ i hi) hnew (by omega) heq

/-! ## Opening and closing -/

/-- A file is opened in a free slot, with new pages, and loaded to the first of them. -/
structure OpensInside (Keep : ℕ → Prop) (s : Kernel) (inode : Inode) (leftover : ℕ) : Prop where
  slot : ∃ d < tableEntries, s.fileSlot (s.inodeSlot inode.iNumber) = some d ∧
    (s.openFileTable d).maxCount = 0
  pages : filePageCount (s.loadedInode inode).size < 2 ^ 8
  harmless : Vmm.MapsHarmlessly Keep s.vmm s.fileVirtualAddress
    (filePageCount (s.loadedInode inode).size)
  loads : leftover = 0 ∨ (s.loadedInode inode).size = 0

/-- The pages that a descriptor gives back are its own, and the bits that are cleared for them belong
to no page table and to no other descriptor. -/
structure ClosesInside (s : Kernel) (d : ℕ) : Prop where
  pages : filePageCount (s.inodeOf d).size ≤ (s.openFileTable d).pagesAllocated
  freeable : ∀ j < filePageCount (s.inodeOf d).size, ∀ w, s.vmm.walk (s.page d j) = some w →
    s.vmm.Freeable w.1 ∧ ∀ e ∈ s.openFiles, e ≠ d → ∀ k < (s.openFileTable e).pagesAllocated,
      ∀ w', s.vmm.walk (s.page e k) = some w' → w'.1 ≠ w.1 * 4096

theorem OwnsPages.sysOpen (h : s.OwnsPages F) {Keep : ℕ → Prop} {inode : Inode} {leftover : ℕ}
    (hin : OpensInside Keep s inode leftover) : ∃ d vmm f,
      (d < tableEntries ∧ (s.openFileTable d).maxCount = 0) ∧
      s.fileSlot (s.inodeSlot inode.iNumber) = some d ∧
      loadFile s.fs.disk (s.loadedInode inode) (s.mapped inode) s.fileVirtualAddress leftover =
        some vmm ∧
      Vmm.NewPages Keep s.vmm s.fileVirtualAddress (filePageCount (s.loadedInode inode).size) f vmm ∧
      Vmm.BitmapKept s.vmm vmm ∧
      (∀ flags, (s.opened inode flags d vmm).OwnsPages (growFrames F d 0 f)) ∧
      ∀ y < bytesToBlocks (s.loadedInode inode).size * pageSize,
        vmm.ram (Vmm.frameByte f y) = s.fs.disk (fileByte (s.loadedInode inode) y) := by
  obtain ⟨⟨d, hd, hslot, hfree⟩, hpages, hharm, hloads⟩ := hin
  obtain ⟨f, vmm, hload, hnew, hram⟩ :=
    h.wf.exists_loadFile h.aligned (hharm.bitmap h.wf h.bitmap) hloads s.fs.disk
  exact ⟨d, vmm, f, ⟨hd, hfree⟩, hslot, hload, hnew.mono (G := Keep) fun _ ↦ Or.inl,
    hnew.bitmapKept h.bitmap fun _ ↦ Or.inr, fun flags ↦ h.opened rfl hpages hnew, hram⟩

/-- The pages that a descriptor gives back, and the bits that are cleared for them. -/
theorem OwnsPages.closePages (h : s.OwnsPages F) {d : ℕ} (hopen : d ∈ s.openFiles)
    (hin : ClosesInside s d) :
    Vmm.ClosedPages s.vmm (s.openFileTable d).address (filePageCount (s.inodeOf d).size) (F d)
      (s.vmm.closePages (s.openFileTable d).address (filePageCount (s.inodeOf d).size)) ∧
    ∀ j < filePageCount (s.inodeOf d).size, ∀ e ∈ s.openFiles, e ≠ d →
      ∀ k < (s.openFileTable e).pagesAllocated, F e k ≠ F d j * 4096 := by
  obtain ⟨hpages, hfreeable⟩ := hin
  have hcount := h.count d hopen
  have hregion := h.region d hopen
  have hframe : ∀ j < filePageCount (s.inodeOf d).size, s.vmm.Freeable (F d j * 4096) ∧
      ∀ e ∈ s.openFiles, e ≠ d → ∀ k < (s.openFileTable e).pagesAllocated,
        F e k ≠ F d j * 4096 := fun j hj ↦ by
    obtain ⟨flags, hw⟩ := hregion.walk j (by omega)
    obtain ⟨hfree, hothers⟩ := hfreeable j hj _ hw
    refine ⟨hfree, fun e he hed k hk heq ↦ ?_⟩
    obtain ⟨flags', hw'⟩ := (h.region e he).walk k hk
    exact hothers e he hed k hk _ hw' (by rw [heq])
  exact ⟨h.wf.closePages _ (by omega) (fun j hj ↦ hregion.walk j (by omega))
    fun j hj ↦ ⟨h.pos d hopen j (by omega), (hframe j hj).1⟩, fun j hj ↦ (hframe j hj).2⟩

theorem OwnsPages.sysClose (h : s.OwnsPages F) {d : ℕ}
    (hin : (s.inodeOf d).iNumber ≠ 0 → (s.openFileTable d).maxCount ≠ 0 →
      d < tableEntries ∧ ClosesInside s d) :
    (s.sysClose d).2.OwnsPages F ∧ Vmm.BitmapKept s.vmm (s.sysClose d).2.vmm := by
  rw [Kernel.sysClose, if_neg (Int.not_lt.mpr (Int.natCast_nonneg d)), Int.toNat_natCast]
  dsimp only
  split
  · exact ⟨h, Vmm.BitmapKept.refl h.bitmap⟩
  rename_i hrefused
  rw [not_or] at hrefused
  obtain ⟨hd, hinside⟩ := hin hrefused.1 hrefused.2
  have hopen : d ∈ s.openFiles := mem_openFiles.mpr ⟨hd, hrefused.2⟩
  split
  · -- the last use of the descriptor
    obtain ⟨hclosed, hothers⟩ := h.closePages hopen hinside
    refine ⟨h.closed hopen hinside.pages hclosed (fun j hj hpage ↦ ?_) rfl (fun e he ↦ ?_) ?_,
      h.closed_bitmapKept hopen hinside.pages hclosed⟩
    · obtain ⟨e, he, hed, k, hk, heq⟩ := hpage
      exact hothers j hj e he hed k hk heq
    · exact (Function.update_of_ne he ..).trans (Function.update_of_ne he ..)
    · show (Function.update (Function.update s.openFileTable d _) d OpenFile.zero d).maxCount = 0
      rw [Function.update_self]
      rfl
  · rename_i hmore
    refine ⟨h.congr (Vmm.SameTables.refl _) rfl fun e ↦ ?_, Vmm.BitmapKept.refl h.bitmap⟩
    show (Function.update s.openFileTable d _ e).address = _ ∧
      (Function.update s.openFileTable d _ e).pagesAllocated = _ ∧
      ((Function.update s.openFileTable d _ e).maxCount ≠ 0 ↔ _)
    by_cases he : e = d
    · rw [he, Function.update_self]
      exact ⟨rfl, rfl, iff_of_true hmore hrefused.2⟩
    · rw [Function.update_of_ne he]
      exact ⟨rfl, rfl, Iff.rfl⟩

/-- Nothing is open yet. -/
theorem Zeroed.ownsPages (h : s.Zeroed) (hwf : s.vmm.WF) (hkeeps : s.vmm.KeepsBitmap)
    (hfirst : s.fileVirtualAddress = 0x40000000) (F : ℕ → ℕ → ℕ) : s.OwnsPages F := by
  have hnone := h.not_mem_openFiles
  exact ⟨hwf, by rw [hfirst]; decide, by rw [hfirst]; decide, fun d hd ↦ absurd hd (hnone d),
    fun d hd ↦ absurd hd (hnone d), fun d hd ↦ absurd hd (hnone d), fun d hd ↦ absurd hd (hnone d),
    fun d hd ↦ absurd hd (hnone d), hkeeps, fun d hd ↦ absurd hd (hnone d)⟩

end Kernel

end AbOS
