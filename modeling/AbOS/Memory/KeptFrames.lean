import AbOS.Memory.Initialize
import AbOS.Memory.Translation

/-!
# Frames that are left alone

Stores of data change no page table (`SameTables`).  A mapping stores into page tables, and
`create_page_table` clears 4096 bytes from the address of the new table with its flags in it, so that
the last seven are the first bytes of the next frame.  It leaves everything else that is in use alone
(`KeepsFrame`).

`memory_map` itself lies in memory: its bits are the 32 frames from `MEMMAP_AREA` on, and `Pmm` holds
them apart from `ram`.  They are the same bits as long as the pages at `MEMMAP_AREA` lead to these
frames and only the allocator changes them.  That is so where the memory map of the machine frees
none of them, and not the frame in front of them either, in which a page table would clear the first
bits: then mappings of other pages leave the bitmap alone (`BitmapKept`), and stores do if they go
elsewhere.
-/

set_option autoImplicit false

namespace AbOS

namespace Vmm

variable {m m' m'' : Vmm} {b p : ℕ}

/-- Store a byte in physical memory. -/
def setRam (m : Vmm) (p : ℕ) (b : UInt8) : Vmm := { m with ram := Function.update m.ram p b }

/-! ## Stores of data -/

/-- The directory, the page tables and the allocator are the same. -/
structure SameTables (m m' : Vmm) : Prop where
  directory : m'.directory = m.directory
  pmm : m'.pmm = m.pmm
  ram : ∀ x, m.IsPaging (x / 4096) → m'.ram x = m.ram x

theorem SameTables.refl (m : Vmm) : SameTables m m := ⟨rfl, rfl, fun _ _ ↦ rfl⟩

section SameTables

variable (h : SameTables m m') (hdir : m.directory % 4096 = 0)
include h hdir

theorem SameTables.entry {i : ℕ} (hi : i < 1024) : m'.entry i = m.entry i := by
  rw [Vmm.entry, Vmm.entry, h.directory]
  exact ByteStore.readWord_congr fun k hk ↦ h.ram _ (Or.inl (by omega))

theorem SameTables.table {i : ℕ} (hi : i < 1024) : m'.table i = m.table i := by
  rw [Vmm.table, h.entry hdir hi]
  rfl

theorem SameTables.isPaging_iff {b : ℕ} : m'.IsPaging b ↔ m.IsPaging b := by
  have hentry : ∀ i, i < 1024 ∧ m'.entry i ≠ 0 ∧ m'.table i = b * 4096 ↔
      i < 1024 ∧ m.entry i ≠ 0 ∧ m.table i = b * 4096 := fun i ↦
    and_congr_right fun hi ↦ by rw [h.entry hdir hi, h.table hdir hi]
  rw [IsPaging, IsPaging, h.directory]
  simp only [hentry]

theorem SameTables.trans (h' : SameTables m' m'') : SameTables m m'' :=
  ⟨h'.directory.trans h.directory, h'.pmm.trans h.pmm, fun x hx ↦
    (h'.ram x ((h.isPaging_iff hdir).mpr hx)).trans (h.ram x hx)⟩

theorem SameTables.walk {v : ℕ} (hv : v < 2 ^ 32) : m'.walk v = m.walk v := by
  by_cases h0 : m.entry (pdIndex v) = 0
  · rw [walk_of_entry_zero h0, walk_of_entry_zero (h.entry hdir (pdIndex_lt hv) ▸ h0)]
  · have hpage : m'.getPage v = m.getPage v := by
      rw [getPage, getPage, h.table hdir (pdIndex_lt hv)]
    refine walk_congr (h.entry hdir (pdIndex_lt hv)) ?_
    rw [pte, pte, hpage]
    refine ByteStore.readWord_congr fun k hk ↦ h.ram _ (Or.inr ⟨_, pdIndex_lt hv, h0, ?_⟩)
    exact (getPage_div m v hk).symm

theorem SameTables.wf (hm : m.WF) : m'.WF := by
  have hentry := fun i hi ↦ h.entry hdir (i := i) hi
  have htable := fun i hi ↦ h.table hdir (i := i) hi
  refine ⟨?_, ?_, ?_, ?_, ?_, fun i hi hne ↦ ?_, fun i hi hne ↦ ?_, fun i hi hne ↦ ?_,
    fun i j hi hj hni hnj hij ↦ ?_⟩
  · rw [h.pmm]; exact hm.maxBlocks_le
  · rw [h.pmm]; exact hm.zero_set
  · rw [h.directory]; exact hm.dir_mod
  · rw [h.pmm, h.directory]; exact hm.dir_set
  · rw [h.pmm, h.directory]; exact hm.before_dir
  · rw [hentry i hi] at hne ⊢; exact hm.present i hi hne
  · rw [hentry i hi] at hne; rw [h.pmm, htable i hi]; exact hm.table_set i hi hne
  · rw [hentry i hi] at hne; rw [h.directory, htable i hi]; exact hm.table_ne_dir i hi hne
  · rw [hentry i hi] at hni
    rw [hentry j hj] at hnj
    rw [htable i hi, htable j hj] at hij
    exact hm.table_inj i j hi hj hni hnj hij

end SameTables

/-- Storing a byte of data changes no translation. -/
theorem sameTables_setRam {p : ℕ} (hp : ¬ m.IsPaging (p / 4096)) (b : UInt8) :
    SameTables m (m.setRam p b) :=
  ⟨rfl, rfl, fun _ hx ↦ Function.update_of_ne (fun heq ↦ hp (by rwa [← heq])) ..⟩

/-- The physical address of `v`, if its page is present. -/
def translate (m : Vmm) (v : ℕ) : Option ℕ := (m.walk v).map fun w ↦ w.1 + v % pageSize

theorem SameTables.translate (h : SameTables m m') (hdir : m.directory % 4096 = 0) {v : ℕ}
    (hv : v < 2 ^ 32) : m'.translate v = m.translate v := by
  rw [Vmm.translate, Vmm.translate, h.walk hdir hv]

/-! ## Mappings -/

/-- The tables after a step are those before it and the new ones. -/
theorem MapStep.isPaging_cases {flags b : ℕ} {ts E : List (ℕ × ℕ)} (h : MapStep m flags ts E m')
    (hf : flags < 4096) (hb : m'.IsPaging b) : m.IsPaging b ∨ b ∈ ts.map Prod.snd := by
  rcases hb with hb | ⟨i, hi, hne, hb⟩
  · exact Or.inl (Or.inl (hb.trans h.directory))
  · rcases h.table_cases hf hi hne with ⟨hne₀, heq⟩ | ⟨b', hb', heq⟩
    · exact Or.inl (Or.inr ⟨i, hi, hne₀, heq ▸ hb⟩)
    · exact Or.inr (List.mem_map.mpr ⟨_, hb', show b' = b by omega⟩)

instance (m : Vmm) (b : ℕ) : Decidable (m.IsPaging b) :=
  inferInstanceAs (Decidable (b * 4096 = m.directory ∨
    ∃ i < 1024, m.entry i ≠ 0 ∧ m.table i = b * 4096))

/-- The frame is in use, and not for paging. -/
def HoldsData (m : Vmm) (b : ℕ) : Prop := m.pmm.isSet b = true ∧ ¬ m.IsPaging b

/-- Frames in use stay so, and become no page tables. -/
theorem MapStep.holdsData {flags : ℕ} {ts E : List (ℕ × ℕ)} (h : MapStep m flags ts E m')
    (hf : flags < 4096) (hb : m.HoldsData b) : m'.HoldsData b := by
  obtain ⟨hset, hpaging⟩ := hb
  refine ⟨by rw [h.isSet, hset, Bool.or_true], fun hb ↦ ?_⟩
  refine (h.isPaging_cases hf hb).elim hpaging fun hmem ↦ ?_
  rw [((h.taken_iff b).mpr hmem).1] at hset
  cases hset

/-- From `m` to `m'` the frame of data is left alone, except that a new page table in the frame in
front of it clears its first bytes. -/
structure KeepsFrame (b : ℕ) (m m' : Vmm) : Prop where
  data : m'.HoldsData b
  mono : ∀ c, m.IsPaging c → m'.IsPaging c
  used : ∀ c, m.pmm.isSet c = true → m'.pmm.isSet c = true
  old : ∀ c, m'.IsPaging c → m.IsPaging c ∨ m.pmm.isSet c = false
  ram : ∀ x, x / 4096 = b → m'.ram x =
    if x % 4096 < userFlags ∧ m'.IsPaging (b - 1) ∧ ¬ m.IsPaging (b - 1) then 0 else m.ram x

namespace KeepsFrame

theorem refl (h : m.HoldsData b) : KeepsFrame b m m where
  data := h
  mono := fun _ ↦ id
  used := fun _ ↦ id
  old := fun _ ↦ Or.inl
  ram := fun _ _ ↦ (if_neg fun hc ↦ hc.2.2 hc.2.1).symm

/-- Allocating changes the bitmap only. -/
theorem allocate (h : m.HoldsData b) {q : Pmm}
    (hset : ∀ c, m.pmm.isSet c = true → q.isSet c = true) :
    KeepsFrame b m { m with pmm := q } where
  data := ⟨hset b h.1, h.2⟩
  mono := fun _ ↦ id
  used := hset
  old := fun _ ↦ Or.inl
  ram := fun _ _ ↦ (if_neg fun hc ↦ hc.2.2 hc.2.1).symm

theorem trans (h : KeepsFrame b m m') (h' : KeepsFrame b m' m'') : KeepsFrame b m m'' := by
  refine ⟨h'.data, fun c hc ↦ h'.mono c (h.mono c hc), fun c hc ↦ h'.used c (h.used c hc),
    fun c hc ↦ ?_, fun x hx ↦ ?_⟩
  · rcases h'.old c hc with hold | hfree
    · exact h.old c hold
    · refine Or.inr (eq_false_of_ne_true fun hused ↦ ?_)
      rw [h.used c hused] at hfree
      cases hfree
  rw [h'.ram x hx, h.ram x hx]
  by_cases hlow : x % 4096 < userFlags
  · by_cases hbefore : m.IsPaging (b - 1)
    · have hmiddle := h.mono _ hbefore
      rw [if_neg fun hc ↦ hc.2.2 hmiddle, if_neg fun hc ↦ hc.2.2 hbefore,
        if_neg fun hc ↦ hc.2.2 hbefore]
    · by_cases hmiddle : m'.IsPaging (b - 1)
      · rw [if_neg fun hc ↦ hc.2.2 hmiddle, if_pos ⟨hlow, hmiddle, hbefore⟩,
          if_pos ⟨hlow, h'.mono _ hmiddle, hbefore⟩]
      · simp only [hmiddle, hbefore, false_and, and_false, if_false]
  · rw [if_neg fun hc ↦ hlow hc.1, if_neg fun hc ↦ hlow hc.1, if_neg fun hc ↦ hlow hc.1]

end KeepsFrame

/-- A new page table is one. -/
theorem MapStep.isPaging_new {flags : ℕ} {ts E : List (ℕ × ℕ)} (h : MapStep m flags ts E m')
    (hf : flags < 4096) (hb : b ∈ ts.map Prod.snd) : m'.IsPaging b := by
  obtain ⟨⟨i, c⟩, ht, rfl⟩ := List.mem_map.mp hb
  obtain ⟨hi, -, hpos, -⟩ := h.fresh i c ht
  have hentry := h.entry_new i c ht
  refine Or.inr ⟨i, hi, ?_, ?_⟩
  · rw [hentry]
    omega
  · rw [table_eq, hentry]
    omega

/-- **One mapping**, and a frame of data. -/
theorem WF.mapAddress_keepsFrame (h : m.WF) (hdata : m.HoldsData b) {phys virt : ℕ}
    (hphys : phys % 4096 = 0) (hlt : phys < 2 ^ 32) (hv : virt < 2 ^ 32) :
    KeepsFrame b m (m.mapAddress phys virt userFlags).2 := by
  have hstep := (h.mapAddress_step phys virt userFlags hphys hlt hv (by decide) (by decide)).1
  generalize (m.mapAddress phys virt userFlags).2 = m' at hstep
  have hdata' := hstep.holdsData (by decide) hdata
  have hfree : ∀ c ∈ (m.tablesTaken virt).map Prod.snd, m.pmm.isSet c = false := fun c hc ↦
    ((hstep.taken_iff c).mpr hc).1
  -- the tables that were taken are those that there were not before
  have hnew : ∀ c, c ∈ (m.tablesTaken virt).map Prod.snd ↔ m'.IsPaging c ∧ ¬ m.IsPaging c :=
    fun c ↦ ⟨fun hc ↦ ⟨hstep.isPaging_new (by decide) hc, h.not_isPaging_of_clear (hfree c hc)⟩,
      fun hc ↦ (hstep.isPaging_cases (by decide) hc.1).resolve_left hc.2⟩
  refine ⟨hdata', fun _ hc ↦ hstep.isPaging_mono hc, fun c hc ↦ ?_, fun c hc ↦
    (hstep.isPaging_cases (by decide) hc).imp_right (hfree c), fun x hx ↦ ?_⟩
  · rw [hstep.isSet, hc, Bool.or_true]
  have hdir : x / 4096 * 4096 ≠ m.directory := fun heq ↦ hdata.2 (Or.inl (hx ▸ heq))
  have hstored : ¬ m'.Stored ((virt / 4096, phys + userFlags) ::
      identityStores (m.tablesTaken virt) userFlags) x := by
    rintro ⟨v, hvlt, -, hent, hlo, hhi⟩
    obtain ⟨k, hk, rfl⟩ : ∃ k < 4, x = m'.getPage v + k := ⟨x - m'.getPage v, by omega, by omega⟩
    exact hdata'.2 (Or.inr ⟨_, pdIndex_lt hvlt, hent, by rw [← hx, m'.getPage_div v hk]⟩)
  rw [hstep.ram x hdir hstored]
  refine if_congr (Iff.trans ?_ (and_congr_right fun _ ↦ hnew (b - 1))) rfl rfl
  rw [userFlags_eq]
  constructor
  · rintro ⟨⟨i, c⟩, ht, hlo, hhi⟩
    have hc := List.mem_map_of_mem (f := Prod.snd) ht
    have hne : c ≠ b := fun heq ↦ by
      have := hfree c hc
      rw [heq, hdata.1] at this
      cases this
    dsimp only at hlo hhi hc
    obtain rfl : c = b - 1 := by omega
    exact ⟨by omega, hc⟩
  · rintro ⟨hlow, hmem⟩
    obtain ⟨⟨i, c⟩, ht, hc⟩ := List.mem_map.mp hmem
    have hpos := (hstep.fresh i c ht).2.2.1
    dsimp only at hc
    refine ⟨_, ht, ?_, ?_⟩ <;> dsimp only <;> omega

/-- A store of data to another frame. -/
theorem WF.setRam_keepsFrame (h : m.WF) (hdata : m.HoldsData b) (hp : ¬ m.IsPaging (p / 4096))
    (hne : p / 4096 ≠ b) (value : UInt8) : KeepsFrame b m (m.setRam p value) := by
  have hpaging : ∀ c, (m.setRam p value).IsPaging c ↔ m.IsPaging c := fun _ ↦
    (sameTables_setRam hp value).isPaging_iff h.dir_mod
  refine ⟨⟨hdata.1, fun hc ↦ hdata.2 ((hpaging b).mp hc)⟩, fun c hc ↦ (hpaging c).mpr hc,
    fun _ ↦ id, fun c hc ↦ Or.inl ((hpaging c).mp hc), fun x hx ↦ ?_⟩
  rw [if_neg fun hc ↦ hc.2.2 ((hpaging _).mp hc.2.1)]
  exact Function.update_of_ne (fun heq : x = p ↦ hne (heq ▸ hx)) ..

end Vmm

/-! ## The frames of the bitmap -/

/-- The frames of `memory_map`, with one bit for each of the `max_blocks` blocks. -/
def BitmapFrame (b : ℕ) : Prop := FrameMeets b memmapArea ((0xFFFFF + 7) / 8)

theorem bitmapFrame_iff {b : ℕ} : BitmapFrame b ↔ 0x30 ≤ b ∧ b < 0x50 := by
  rw [BitmapFrame, FrameMeets, memmapArea, blockSize]
  omega

instance (b : ℕ) : Decidable (BitmapFrame b) := inferInstanceAs (Decidable (_ ∧ _))

namespace Vmm

variable {m m' m'' : Vmm} {b p : ℕ}

/-- The frames of the bitmap, and the one in front of them, are in use; those of the bitmap hold no
page table, and the kernel finds them at their addresses. -/
structure KeepsBitmap (m : Vmm) : Prop where
  used : ∀ b, 0x2F ≤ b → b < 0x50 → m.pmm.isSet b = true
  data : ∀ b, BitmapFrame b → ¬ m.IsPaging b
  walk : ∀ b, BitmapFrame b → ∃ flags, m.walk (b * 4096) = some (b * 4096, flags)

/-- What physical memory holds: the frames of the bitmap have the allocator's. -/
def memory (m : Vmm) : ByteStore := fun x ↦
  if BitmapFrame (x / 4096) then ByteStore.words memmapArea (fun i ↦ (m.pmm.memoryMap i).toNat) x
  else m.ram x

theorem memory_of_not (h : ¬ BitmapFrame (p / 4096)) : m.memory p = m.ram p := if_neg h

/-- **The words of `memory_map`** that the kernel reads at `MEMMAP_AREA` are those of the allocator. -/
theorem KeepsBitmap.readWord_memory (h : m.KeepsBitmap) {i : ℕ} (hi : i < 0x8000) :
    (∀ k < 4, m.translate (memmapArea + 4 * i + k) = some (memmapArea + 4 * i + k)) ∧
      m.memory.readWord (memmapArea + 4 * i) = (m.pmm.memoryMap i).toNat := by
  have hframe : ∀ k < 4, BitmapFrame ((memmapArea + 4 * i + k) / 4096) := fun k hk ↦ by
    rw [bitmapFrame_iff, memmapArea]
    omega
  refine ⟨fun k hk ↦ ?_, ?_⟩
  · obtain ⟨flags, hwalk⟩ := h.walk _ (hframe k hk)
    rw [translate, ← walk_page (Nat.mul_div_cancel _ (by decide)), hwalk]
    exact congrArg some (Nat.div_add_mod' _ 4096)
  · refine (ByteStore.readWord_congr fun k hk ↦ if_pos (hframe k hk)).trans ?_
    exact ByteStore.readWord_words (w := fun i ↦ (m.pmm.memoryMap i).toNat) (m.pmm.memoryMap i).isLt

/-- From `m` to `m'` only the allocator has changed the frames of the bitmap. -/
structure BitmapKept (m m' : Vmm) : Prop where
  keeps : m'.KeepsBitmap
  ram : ∀ x, BitmapFrame (x / 4096) → m'.ram x = m.ram x

theorem KeepsBitmap.holdsData (h : m.KeepsBitmap) (hb : BitmapFrame b) : m.HoldsData b := by
  refine ⟨?_, h.data b hb⟩
  rw [bitmapFrame_iff] at hb
  exact h.used b (by omega) hb.2

theorem BitmapKept.refl (h : m.KeepsBitmap) : BitmapKept m m := ⟨h, fun _ _ ↦ rfl⟩

theorem BitmapKept.trans (h : BitmapKept m m') (h' : BitmapKept m' m'') : BitmapKept m m'' :=
  ⟨h'.keeps, fun x hx ↦ (h'.ram x hx).trans (h.ram x hx)⟩

/-- What keeps every frame of data keeps those of the bitmap: no page table comes to lie in front of
one of them. -/
theorem KeepsBitmap.kept (h : m.KeepsBitmap) (hkeeps : ∀ b, BitmapFrame b → KeepsFrame b m m')
    (hwalk : ∀ b, BitmapFrame b → m'.walk (b * 4096) = m.walk (b * 4096)) : BitmapKept m m' := by
  have hframe := hkeeps 0x30 (bitmapFrame_iff.mpr (by decide))
  refine ⟨⟨fun b hb hlt ↦ hframe.used b (h.used b hb hlt), fun b hb ↦ (hkeeps b hb).data.2,
    fun b hb ↦ (hwalk b hb).symm ▸ h.walk b hb⟩, fun x hx ↦ ?_⟩
  rw [(hkeeps _ hx).ram x rfl, if_neg]
  rintro ⟨-, hnew, hold⟩
  have hfree := ((hkeeps _ hx).old _ hnew).resolve_left hold
  rw [bitmapFrame_iff] at hx
  rw [h.used _ (by omega) (by omega)] at hfree
  cases hfree

theorem KeepsBitmap.allocate (h : m.KeepsBitmap) {q : Pmm}
    (hset : ∀ b, m.pmm.isSet b = true → q.isSet b = true) : BitmapKept m { m with pmm := q } :=
  h.kept (fun _ hb ↦ KeepsFrame.allocate (h.holdsData hb) hset) fun _ _ ↦ rfl

/-- Stores of data. -/
theorem KeepsBitmap.sameTables (h : m.KeepsBitmap) (hdir : m.directory % 4096 = 0)
    (hsame : SameTables m m') : m'.KeepsBitmap where
  used := fun b hb hlt ↦ hsame.pmm ▸ h.used b hb hlt
  data := fun b hb hp ↦ h.data b hb ((hsame.isPaging_iff hdir).mp hp)
  walk := fun b hb ↦ by
    have := bitmapFrame_iff.mp hb
    rw [hsame.walk hdir (by omega)]
    exact h.walk b hb

/-- A mapping of another page. -/
theorem WF.mapAddress_bitmapKept (h : m.WF) (hkeeps : m.KeepsBitmap) {phys virt : ℕ}
    (hphys : phys % 4096 = 0) (hlt : phys < 2 ^ 32) (hv : virt < 2 ^ 32)
    (hother : ¬ BitmapFrame (virt / 4096)) : BitmapKept m (m.mapAddress phys virt userFlags).2 := by
  refine hkeeps.kept (fun _ hb ↦ h.mapAddress_keepsFrame (hkeeps.holdsData hb) hphys hlt hv)
    fun b hb ↦ ?_
  have hstep := (h.mapAddress_step phys virt userFlags hphys hlt hv (by decide) (by decide)).1
  obtain ⟨flags, hwalk⟩ := hkeeps.walk b hb
  have hent := entry_ne_of_walk hwalk
  have hlow := bitmapFrame_iff.mp hb
  have hvb : b * 4096 < 2 ^ 32 := by omega
  have hpage : b * 4096 / 4096 = b := Nat.mul_div_cancel _ (by decide)
  have hnew : ∀ c ∈ (m.tablesTaken virt).map Prod.snd, m.pmm.isSet c = false := fun c hc ↦
    ((hstep.taken_iff c).mpr hc).1
  refine (hstep.walk_old_iff h (by decide) hvb (lookup_eq_none_iff.mpr ⟨?_, fun hmem ↦ ?_⟩)
    hent).mpr fun hcleared ↦ ?_
  · rw [hpage]
    exact fun heq ↦ hother (heq ▸ hb)
  · have hfree := hnew _ hmem
    rw [hpage, (hkeeps.holdsData hb).1] at hfree
    cases hfree
  · -- the entry is none of the first two of its table, which alone a clearing can reach
    obtain ⟨⟨i, c⟩, ht, hlo, hhi⟩ := hcleared
    have hset : m.pmm.isSet (m.getPage (b * 4096) / 4096) = true := by
      have hdiv := m.getPage_div (b * 4096) (k := 0) (by decide)
      refine h.isSet_of_isPaging (Or.inr ⟨_, pdIndex_lt hvb, hent, ?_⟩)
      exact hdiv.symm
    have hfree := hnew c (List.mem_map_of_mem (f := Prod.snd) ht)
    have hmod := m.table_mod (pdIndex (b * 4096))
    rw [userFlags_eq] at hlo hhi
    rw [getPage, ptIndex_eq, hpage] at hlo hhi hset
    dsimp only at hlo hhi
    obtain rfl : c = (m.table (pdIndex (b * 4096)) + 4 * (b % 1024)) / 4096 := by omega
    rw [hset] at hfree
    cases hfree

theorem WF.setRam_bitmapKept (h : m.WF) (hkeeps : m.KeepsBitmap) (hp : ¬ m.IsPaging (p / 4096))
    (hbitmap : ¬ BitmapFrame (p / 4096)) (value : UInt8) : BitmapKept m (m.setRam p value) := by
  refine hkeeps.kept (fun _ hb ↦ h.setRam_keepsFrame (hkeeps.holdsData hb) hp
    (fun heq ↦ hbitmap (heq ▸ hb)) value) fun b hb ↦ ?_
  have := bitmapFrame_iff.mp hb
  exact (sameTables_setRam hp value).walk h.dir_mod (by omega)

end Vmm

/-- **Where the allocator keeps its bitmap**: no available entry of the memory map frees one of the
blocks under it, or the one in front of them. -/
theorem endOfPrekernel_keepsBitmap {ram : ByteStore} {memory : ℕ → BitVec 32}
    {entries : List SmapEntry} {m : Vmm} (h : endOfPrekernel ram memory entries = some m)
    (hmap : ∀ e ∈ entries, ∀ b, 0x2F ≤ b → b < 0x50 → ¬ e.Frees b) : m.KeepsBitmap := by
  have h0 := isSet_prekernelRegions_zero memory entries
  have hmax := prekernelRegions_maxBlocks memory entries
  have hlow := (endOfPrekernel_spec h).walk_low
  have hused : ∀ b, 0x2F ≤ b → b < 0x50 → (prekernelRegions memory entries).isSet b = true :=
    fun b hb hlt ↦ by
      by_contra hclear
      rw [Bool.not_eq_true, isSet_prekernelRegions memory entries (by omega) (by omega)] at hclear
      obtain ⟨⟨e, he, hfrees⟩, -⟩ := hclear
      exact hmap e he b hb hlt hfrees
  obtain ⟨m₀, hm₀, rfl⟩ := Option.map_eq_some_iff.mp h
  obtain ⟨t, t₂, d, hinit⟩ := initializeVmm_spec h0 (by omega) hm₀
  have he := hinit.entry 0 (by decide)
  rw [if_pos rfl] at he
  obtain ⟨E, hstep, -⟩ := (hinit.wf h0 (by omega)).unmapPages_step (by omega) 768 (by decide)
  refine ⟨fun b hb hlt ↦ ?_, fun b hb hp ↦ ?_, fun b hb ↦ ⟨3, ?_⟩⟩
  · rw [hstep.isSet, hinit.isSet, hused b hb hlt, Bool.or_true, Bool.or_true]
  · -- the tables are in frames that were free
    rw [bitmapFrame_iff] at hb
    have hset := hused b (by omega) hb.2
    obtain ⟨ht, ht₂, hd⟩ := hinit.clear
    have hpaging := (hstep.isPaging_cases (by decide) hp).resolve_right List.not_mem_nil
    rcases hinit.isPaging_iff.mp hpaging with rfl | rfl | rfl
    · rw [← Nat.add_zero b, hd 0 (by decide)] at hset
      cases hset
    · rw [ht₂] at hset
      cases hset
    · rw [ht] at hset
      cases hset
  · have := bitmapFrame_iff.mp hb
    rw [hlow _ (by omega), Nat.mul_div_cancel _ (by decide)]

/-- The memory map of a machine whose available memory ends in front of the bitmap. -/
def belowBitmapMap : List SmapEntry := [⟨0, 0x2F000, 1⟩]

theorem exists_endOfPrekernel_belowBitmap :
    ∃ m, endOfPrekernel (fun _ ↦ 0) (fun _ ↦ 0) belowBitmapMap = some m ∧ m.KeepsBitmap ∧
      m.pmm.maxBlocks = 0xFFFFF ∧ (∀ b, m.IsPaging b ↔ b = 0x14 ∨ b = 0x13 ∨ b = 0x12) ∧
      (∀ b, b < 0xFFFFF → m.pmm.isSet b = decide (b < 0x17 ∨ 0x2F ≤ b)) ∧
      ∀ i, 0 < i → i < 768 → m.entry i = 0 := by
  have hfrees : ∀ b, (∃ e ∈ belowBitmapMap, e.Frees b) ↔ b < 0x2F := fun b ↦ by
    simp only [belowBitmapMap, List.mem_singleton, exists_eq_left]
    exact ⟨fun h ↦ h.2.2, fun h ↦ ⟨rfl, Nat.zero_le _, h⟩⟩
  obtain ⟨m, hboot, hrest⟩ := exists_endOfPrekernel_low (show 0x17 ≤ 0x2F by decide) (by decide)
    fun b _ ↦ hfrees b
  refine ⟨m, hboot, endOfPrekernel_keepsBitmap hboot fun e he b hb _ hf ↦ ?_, hrest⟩
  have := (hfrees b).mp ⟨e, he, hf⟩
  omega

end AbOS
