import AbOS.Interrupts.Delivery

/-!
# Interrupts while the kernel starts

`main` sets up the table and the controllers with interrupts enabled from `initIDT` on, so a request
may be served between any two of its accesses to the hardware.

* `entered_of_run` — if only the timer and the keyboard make requests, then whatever the controllers
  and the table hold at first, and however the events are interleaved, only `PIT_handler` and
  `keyboard_handler` are entered, each through its own descriptor; no line stays in service when
  no handler runs, and the timer counts its interrupts.
* `pending_served` — once `main` is through, a pending request is served within eight accesses and
  interrupts, in whatever order things happen, as long as no more urgent request comes.
* `other_line_enters_stub` — a request from another line of the first controller, between the last
  word of the initialisation and the restored mask, leads through a word behind `isr_stub_table`.
-/

set_option autoImplicit false

namespace AbOS

/-! ## The code of `main` -/

/-- Loops of `initIDT`, with the interrupt flag clear. -/
theorem setDescriptors_safe {H : Handlers} {Q : Pc → Prop} {stub : ℕ → ℕ} {k : Code}
    (hk : ∀ p : Pc, p.interruptFlag = false → p.master.icw = 0 →
      (∀ i < 8, p.master.imr.testBit i = true) → k.Safe H Q p) (vector n : ℕ) (p : Pc)
    (hflag : p.interruptFlag = false) (hicw : p.master.icw = 0)
    (hmask : ∀ i < 8, p.master.imr.testBit i = true) :
    (setDescriptors stub vector n k).Safe H Q p := by
  induction n generalizing vector p with
  | zero => exact hk p hflag hicw hmask
  | succ n ih =>
    rw [setDescriptors, Code.Safe]
    exact ⟨fun _ _ ↦ Or.inl hmask, ih (vector + 1) _ hflag hicw hmask⟩

/-- The mask of a chip that is not being initialised. -/
theorem Pc.outb_mask {p : Pc} (h : p.master.icw = 0) (v : ℕ) :
    p.outb 0x21 v = { p with master := { p.master with imr := v } } := by
  have hdata : p.master.data v = { p.master with imr := v } := by
    rw [Chip.data, if_neg (by rw [h]; decide), if_neg (by rw [h]; decide),
      if_neg (by rw [h]; decide)]
  rw [← hdata]
  rfl

/-- A chip without requests asks for nothing. -/
theorem Chip.request_of_quiet {c : Chip} (h : ∀ i, c.irr i = false) : c.request = none := by
  have hfind : ((List.range 8).find? fun i ↦ c.irr i && !c.imr.testBit i) = none :=
    List.find?_eq_none.mpr fun i _ ↦ by rw [h i, Bool.false_and]; exact Bool.false_ne_true
  rw [Chip.request, hfind, Option.filter_none, ite_self]

/-- The controllers have been initialised, and the gates of the two handlers are set. -/
structure Pc.Remapped (H : Handlers) (p : Pc) : Prop where
  interruptFlag : p.interruptFlag = true
  icw : p.master.icw = 0
  irr : ∀ i, p.master.irr i = false
  slave : ∀ i, p.slave.irr i = false
  offset : p.master.offset = 0x20
  pitGate : p.gate 0x20 = H.pitGate
  keyboardGate : p.gate 0x21 = H.keyboardGate

theorem Pc.calm_of_masked {H : Handlers} {p : Pc}
    (hmask : ∀ i < 8, p.master.imr.testBit i = true) : p.Calm H := fun _ _ ↦ Or.inl hmask

theorem Pc.calm_of_icw {H : Handlers} {p : Pc} (h : p.master.icw ≠ 0) : p.Calm H :=
  fun _ hicw ↦ absurd hicw h

theorem Pc.calm_of_flag {H : Handlers} {p : Pc} (h : p.interruptFlag = false) : p.Calm H :=
  fun hflag ↦ by rw [h] at hflag; cases hflag

theorem Pc.calm_of_quiet {H : Handlers} {p : Pc} (hirr : ∀ i, p.master.irr i = false)
    (hslave : ∀ i, p.slave.irr i = false) (hoffset : p.master.offset = 0x20)
    (hpit : p.gate 0x20 = H.pitGate) (hkey : p.gate 0x21 = H.keyboardGate) : p.Calm H := fun _ _ ↦
  Or.inr ⟨fun i _ ↦ hirr i, Chip.request_of_quiet hslave, hoffset, hpit, hkey⟩

theorem Pc.Remapped.calm {H : Handlers} {p : Pc} (h : p.Remapped H) : p.Calm H :=
  Pc.calm_of_quiet h.irr h.slave h.offset h.pitGate h.keyboardGate

/-- **`PIC_remap`**, all lines masked before it. -/
theorem picRemap_safe {H : Handlers} {Q : Pc → Prop} {p : Pc} {k : Code}
    (hflag : p.interruptFlag = true) (hmask : ∀ i < 8, p.master.imr.testBit i = true)
    (hpit : p.gate 0x20 = H.pitGate) (hkey : p.gate 0x21 = H.keyboardGate)
    (hk : ∀ q : Pc, q.Remapped H → q.master.imr = p.master.imr → k.Safe H Q q) :
    (picRemap 0x20 k).Safe H Q p := by
  have hmasked : p.Calm H := Pc.calm_of_masked hmask
  refine ⟨hmasked, Or.inl rfl, hmasked, Or.inr rfl, hmasked, fun _ ↦ rfl, ?_⟩
  -- the words of the initialisation, to one chip and the other
  refine ⟨Pc.calm_of_icw (show (2 : ℕ) ≠ 0 by decide), fun h ↦ absurd h (by decide), ?_⟩
  refine ⟨Pc.calm_of_icw (show (2 : ℕ) ≠ 0 by decide), fun h ↦ absurd h (by decide), ?_⟩
  refine ⟨Pc.calm_of_icw (show (3 : ℕ) ≠ 0 by decide), fun h ↦ absurd h (by decide), ?_⟩
  refine ⟨Pc.calm_of_icw (show (3 : ℕ) ≠ 0 by decide), fun h ↦ absurd h (by decide), ?_⟩
  refine ⟨Pc.calm_of_icw (show (4 : ℕ) ≠ 0 by decide), fun h ↦ absurd h (by decide), ?_⟩
  refine ⟨Pc.calm_of_icw (show (4 : ℕ) ≠ 0 by decide), fun h ↦ absurd h (by decide), ?_⟩
  -- now the first chip asks again, with nothing masked
  refine ⟨Pc.calm_of_quiet (fun _ ↦ rfl) (fun _ ↦ rfl) rfl hpit hkey,
    fun h ↦ absurd h (by decide), ?_⟩
  refine ⟨Pc.calm_of_quiet (fun _ ↦ rfl) (fun _ ↦ rfl) rfl hpit hkey,
    fun h ↦ absurd h (by decide), ?_⟩
  refine ⟨Pc.calm_of_quiet (fun _ ↦ rfl) (fun _ ↦ rfl) rfl hpit hkey,
    fun h ↦ absurd h (by decide), ?_⟩
  exact hk _ ⟨hflag, rfl, fun _ ↦ rfl, fun _ ↦ rfl, rfl, hpit, hkey⟩ rfl

/-- **`IRQ_clear_mask`** of a line of the first chip. -/
theorem irqClearMask_safe {H : Handlers} {Q : Pc → Prop} {p : Pc} {line : ℕ} {k : Code}
    (hline : line < 8) (h : p.Remapped H)
    (hk : ∀ q : Pc, q.Remapped H →
      q.master.imr = (p.master.imr &&& (2 ^ 32 - 1 - 1 <<< line)) % 2 ^ 8 → k.Safe H Q q) :
    (irqClearMask line k).Safe H Q p := by
  rw [irqClearMask, if_pos hline, if_pos hline]
  refine ⟨h.calm, Or.inl rfl, h.calm, fun hport ↦ absurd hport (by decide), ?_⟩
  rw [Pc.outb_mask h.icw]
  exact hk _ ⟨h.interruptFlag, h.icw, h.irr, h.slave, h.offset, h.pitGate, h.keyboardGate⟩ rfl

/-- The state in which `main` leaves the hardware. -/
structure Pc.Started (H : Handlers) (p : Pc) : Prop extends p.Remapped H where
  timer : p.master.imr.testBit 0 = false
  keyboard : p.master.imr.testBit 1 = false

/-- **`main` alone**: from controllers that are not being initialised, with the flag clear. -/
theorem mainInterrupts_safe (H : Handlers) {p : Pc} (hflag : p.interruptFlag = false)
    (hmaster : p.master.icw = 0) : (mainInterrupts H).Safe H (Pc.Started H) p := by
  have hclear : p.Calm H := Pc.calm_of_flag hflag
  rw [mainInterrupts, picDisable, initIDT]
  refine ⟨hclear, fun h ↦ absurd h (by decide), ?_⟩
  rw [Pc.outb_mask hmaster]
  refine ⟨Pc.calm_of_flag hflag, fun h ↦ absurd h (by decide), ?_⟩
  refine setDescriptors_safe (fun q hflag hicw hmask ↦ setDescriptors_safe (fun q hflag hicw hmask ↦
    setDescriptors_safe (fun q hflag hicw hmask ↦ ?_) _ _ q hflag hicw hmask) _ _ q hflag hicw hmask)
    _ _ _ hflag hmaster ?_
  · have hmasked : ∀ idt : ByteStore, Pc.Calm H { q with interruptFlag := true, idt } :=
      fun _ ↦ Pc.calm_of_masked hmask
    refine ⟨Pc.calm_of_flag hflag, hmasked _, hmasked _, hmasked _, hmasked _, hmasked _,
      hmasked _, ?_⟩
    refine picRemap_safe rfl hmask ?_ ?_ fun r hr _ ↦ ?_
    · rw [gate_setDescriptor, if_neg (by decide), gate_setDescriptor, if_neg (by decide),
        gate_setDescriptor, if_neg (by decide), gate_setDescriptor, if_neg (by decide),
        gate_setDescriptor, if_pos rfl, Nat.mod_eq_of_lt H.pit_lt]
      rfl
    · rw [gate_setDescriptor, if_neg (by decide), gate_setDescriptor, if_neg (by decide),
        gate_setDescriptor, if_neg (by decide), gate_setDescriptor, if_pos rfl,
        Nat.mod_eq_of_lt H.keyboard_lt]
      rfl
    refine irqClearMask_safe (by decide) hr fun r₀ hr₀ hmask₀ ↦ ?_
    refine irqClearMask_safe (by decide) hr₀ fun r₁ hr₁ hmask₁ ↦ ?_
    -- the timer is set with the flag clear
    have htimer : r₁.master.imr.testBit 0 = false := by
      rw [hmask₁, hmask₀, Nat.testBit_mod_two_pow, Nat.testBit_and, Nat.testBit_mod_two_pow,
        Nat.testBit_and, show (2 ^ 32 - 1 - 1 <<< 0).testBit 0 = false from rfl]
      simp
    have hkeyboard : r₁.master.imr.testBit 1 = false := by
      rw [hmask₁, Nat.testBit_mod_two_pow, Nat.testBit_and,
        show (2 ^ 32 - 1 - 1 <<< 1).testBit 1 = false from rfl]
      simp
    refine ⟨hr₁.calm, Pc.calm_of_flag rfl, fun h ↦ absurd h (by decide), Pc.calm_of_flag rfl,
      fun h ↦ absurd h (by decide), Pc.calm_of_flag rfl, fun h ↦ absurd h (by decide),
      Pc.calm_of_flag rfl, ?_⟩
    have hlast : ({ r₁ with interruptFlag := true } : Pc).Remapped H :=
      ⟨rfl, hr₁.icw, hr₁.irr, hr₁.slave, hr₁.offset, hr₁.pitGate, hr₁.keyboardGate⟩
    exact ⟨hlast.calm, hlast, htimer, hkeyboard⟩
  · show ∀ i < 8, (0xFF : ℕ).testBit i = true
    decide

/-- The state in which `main` begins: the flag is clear, and the first controller is neither being
initialised nor serving a line. -/
structure Interruptible.Begins (H : Handlers) (s : Interruptible) : Prop where
  code : s.code = mainInterrupts H
  handler : s.handler = none
  entered : s.entered = []
  ticks : s.pc.ticks = 0
  interruptFlag : s.pc.interruptFlag = false
  icw : s.pc.master.icw = 0
  isr : s.pc.master.isr = fun _ ↦ false

/-- The second controller serves no line either. -/
structure Interruptible.BeginsIdle (H : Handlers) (s : Interruptible) : Prop extends s.Begins H where
  slaveIsr : s.pc.slave.isr = fun _ ↦ false

/-- Some addresses. -/
def someHandlers : Handlers where
  divBy0 := 0x20000
  pit := 0x20100
  keyboard := 0x20200
  pageFault := 0x20300
  syscall := 0x20400
  gpf := 0x20500
  stub i := 0x21000 + 16 * i
  pit_lt := by decide
  keyboard_lt := by decide
  distinct := by decide

/-- The machine as the BIOS leaves it. -/
def afterBios : Interruptible where
  pc := ⟨⟨fun _ ↦ false, fun _ ↦ false, 0xB8, 8, 0, false, true⟩,
    ⟨fun _ ↦ false, fun _ ↦ false, 0x8E, 0x70, 0, false, true⟩, fun _ ↦ 0, false, 0, 0⟩
  code := mainInterrupts someHandlers
  handler := none
  entered := []

theorem afterBios_begins : afterBios.BeginsIdle someHandlers :=
  ⟨⟨rfl, rfl, rfl, rfl, rfl, rfl, rfl⟩, rfl⟩

/-! ## The code without interrupts -/

/-- The code alone comes from one state to the other. -/
def Interruptible.Comes (H : Handlers) (s t : Interruptible) : Prop :=
  ∃ n, Run.exec (Interruptible.step H) s (List.replicate n .cpu) = some t

theorem Interruptible.Comes.trans {H : Handlers} {s t u : Interruptible} (h : s.Comes H t)
    (h' : t.Comes H u) : s.Comes H u := by
  obtain ⟨n, hn⟩ := h
  obtain ⟨k, hk⟩ := h'
  exact ⟨n + k, List.replicate_add n k IrqEvent.cpu ▸ Run.exec_append.mpr ⟨t, hn, hk⟩⟩

section Alone

variable {H : Handlers} {s : Interruptible} {p : Pc} {k : Code} {entered : List (ℕ × Gate)}

/-- A loop of `initIDT`, and the descriptors after it. -/
theorem comes_setDescriptors (stub : ℕ → ℕ) (vector n : ℕ) :
    ∃ q : Pc, Interruptible.Comes H ⟨p, setDescriptors stub vector n k, none, entered⟩
        ⟨q, k, none, entered⟩ ∧
      (q.master = p.master ∧ q.interruptFlag = p.interruptFlag) ∧
      ∀ w, q.gate w =
        if vector ≤ w ∧ w < vector + n then ⟨stub w % 2 ^ 32, 8, 0x8E⟩ else p.gate w := by
  induction n generalizing vector p with
  | zero => exact ⟨p, ⟨0, rfl⟩, ⟨rfl, rfl⟩, fun w ↦ (if_neg (by omega)).symm⟩
  | succ n ih =>
    obtain ⟨q, hcomes, ⟨hmaster, hflag⟩, hgate⟩ :=
      ih (p := p.setDescriptor vector (stub vector) 0x8E) (vector + 1)
    refine ⟨q, Interruptible.Comes.trans ⟨1, rfl⟩ hcomes, ⟨hmaster, hflag⟩, fun w ↦ ?_⟩
    rw [hgate, gate_setDescriptor]
    split_ifs with h₁ h₂ h₃ h₄ h₅ <;> first | rfl | omega | rw [h₃]

/-- **`initIDT`**: every vector leads to what `isr_stub_table`, or the memory after it, has for
it. -/
theorem comes_initIDT (stub : ℕ → ℕ) :
    ∃ q : Pc, Interruptible.Comes H ⟨p, initIDT stub k, none, entered⟩ ⟨q, k, none, entered⟩ ∧
      q.master = p.master ∧ q.interruptFlag = true ∧
      ∀ w < 256, q.gate w = ⟨stub w % 2 ^ 32, 8, 0x8E⟩ := by
  obtain ⟨q₁, hcomes₁, ⟨hmaster₁, -⟩, hgate₁⟩ := @comes_setDescriptors H p
    (setDescriptors stub 32 16 (setDescriptors stub 48 208 (.sti k))) entered stub 0 32
  obtain ⟨q₂, hcomes₂, ⟨hmaster₂, -⟩, hgate₂⟩ := @comes_setDescriptors H q₁
    (setDescriptors stub 48 208 (.sti k)) entered stub 32 16
  obtain ⟨q₃, hcomes₃, ⟨hmaster₃, -⟩, hgate₃⟩ := @comes_setDescriptors H q₂ (.sti k)
    entered stub 48 208
  refine ⟨{ q₃ with interruptFlag := true }, hcomes₁.trans (hcomes₂.trans (hcomes₃.trans ⟨1, rfl⟩)),
    hmaster₃.trans (hmaster₂.trans hmaster₁), rfl, fun w hw ↦ ?_⟩
  show q₃.gate w = _
  rw [hgate₃, hgate₂, hgate₁]
  split_ifs <;> first | rfl | omega

/-- A chip after its four words. -/
def Chip.initialised (offset : ℕ) : Chip := ⟨fun _ ↦ false, fun _ ↦ false, 0, offset, 0, false, true⟩

/-- **`PIC_remap`**, up to the last word of the initialisation. -/
theorem comes_picRemap : ∃ q : Pc,
    Interruptible.Comes H ⟨p, picRemap 0x20 k, none, entered⟩
        ⟨q, .outb 0xA1 0x01 (.outb 0x21 p.master.imr (.outb 0xA1 p.slave.imr k)), none, entered⟩ ∧
      (q.outb 0xA1 0x01).master = Chip.initialised 0x20 ∧
      (q.outb 0xA1 0x01).slave = Chip.initialised 0x28 ∧ q.idt = p.idt ∧
      q.interruptFlag = p.interruptFlag :=
  ⟨_, ⟨9, rfl⟩, rfl, rfl, rfl, rfl⟩

/-- What `main` still does with the hardware when the controllers are initialised: the masks come
first. -/
def restoreMasks (masterMask slaveMask : ℕ) : Code :=
  .outb 0x21 masterMask <| .outb 0xA1 slaveMask <| irqClearMask 0 <| irqClearMask 1 <|
    setPit 0 2 11931 .done

/-- **`main`**, up to the last word of the initialisation. -/
theorem Interruptible.Begins.comes (h : s.Begins H) : ∃ (p : Pc) (masterMask slaveMask : ℕ),
    s.Comes H ⟨p, .outb 0xA1 0x01 (restoreMasks masterMask slaveMask), none, []⟩ ∧
      (p.outb 0xA1 0x01).master = Chip.initialised 0x20 ∧
      (p.outb 0xA1 0x01).slave = Chip.initialised 0x28 ∧ p.interruptFlag = true ∧
      ∀ w, 0x21 < w → w < 0x80 → p.gate w = ⟨H.stub w % 2 ^ 32, 8, 0x8E⟩ := by
  obtain ⟨p, code, handler, entered⟩ := s
  obtain rfl : code = mainInterrupts H := h.code
  obtain rfl : handler = none := h.handler
  obtain rfl : entered = [] := h.entered
  obtain ⟨k, hk⟩ : ∃ k, k = irqClearMask 0 (irqClearMask 1 (setPit 0 2 11931 .done)) := ⟨_, rfl⟩
  rw [mainInterrupts, ← hk]
  obtain ⟨q, hidt, -, hflag, hgate⟩ := @comes_initIDT H ((p.outb 0x21 0xFF).outb 0xA1 0xFF)
    (.setDescriptor 0 H.divBy0 0x8E <|
      .setDescriptor 0x20 H.pit 0x8E <| .setDescriptor 0x21 H.keyboard 0x8E <|
      .setDescriptor 0x0E H.pageFault 0x8E <| .setDescriptor 0x80 H.syscall 0xEE <|
      .setDescriptor 0x0D H.gpf 0x8E <| picRemap 0x20 k) [] H.stub
  obtain ⟨r, hr⟩ : ∃ r, r = (((((q.setDescriptor 0 H.divBy0 0x8E).setDescriptor 0x20 H.pit
    0x8E).setDescriptor 0x21 H.keyboard 0x8E).setDescriptor 0x0E H.pageFault 0x8E).setDescriptor
    0x80 H.syscall 0xEE).setDescriptor 0x0D H.gpf 0x8E := ⟨_, rfl⟩
  obtain ⟨u, hremap, hmaster, hslave, hsame, hflag'⟩ := @comes_picRemap H r k []
  have hsix := hidt.trans ⟨6, show _ = some ⟨r, picRemap 0x20 k, none, []⟩ by rw [hr]; rfl⟩
  subst hk
  refine ⟨u, r.master.imr, r.slave.imr, Interruptible.Comes.trans ⟨2, rfl⟩ (hsix.trans hremap),
    hmaster, hslave, hflag'.trans (hr ▸ hflag), fun w hlow hhigh ↦ (Pc.gate_congr hsame w).trans ?_⟩
  rw [hr, gate_setDescriptor, if_neg (by omega), gate_setDescriptor, if_neg (by omega),
    gate_setDescriptor, if_neg (by omega), gate_setDescriptor, if_neg (by omega),
    gate_setDescriptor, if_neg (by omega), gate_setDescriptor, if_neg (by omega),
    hgate _ (by omega)]

/-- A request of another line, as it is taken then. -/
theorem acknowledge_initialised (hmaster : p.master = Chip.initialised 0x20)
    (hslave : p.slave = Chip.initialised 0x28) {line : ℕ} (hlow : 2 < line) (hhigh : line < 8) :
    ∃ q : Pc, (p.raise line).acknowledge = some (0x20 + line, q) ∧ q.idt = p.idt := by
  have hreq : ({ Chip.initialised 0x20 with
      irr := Function.update (Function.update (fun _ ↦ false) line true) 2
        (Chip.initialised 0x28).request.isSome } : Chip).request = some line := by
    rcases (show line = 3 ∨ line = 4 ∨ line = 5 ∨ line = 6 ∨ line = 7 by omega) with
      rfl | rfl | rfl | rfl | rfl <;> decide
  have hirr : (Chip.initialised 0x20).irr = fun _ ↦ false := rfl
  rw [Pc.acknowledge, Pc.raise, if_pos hhigh, hmaster, hslave]
  dsimp only
  rw [hirr, hreq]
  dsimp only
  rw [if_neg (by omega)]
  exact ⟨_, rfl, rfl⟩

/-- **`main` ends**, if nothing comes between. -/
theorem Interruptible.Begins.ends (h : s.Begins H) :
    ∃ p : Pc, s.Comes H ⟨p, .done, none, []⟩ := by
  obtain ⟨p, masterMask, slaveMask, hcomes, -⟩ := h.comes
  obtain ⟨q, hq⟩ : ∃ q : Pc, Interruptible.Comes H
      ⟨p, .outb 0xA1 0x01 (restoreMasks masterMask slaveMask), none, []⟩ ⟨q, .done, none, []⟩ :=
    ⟨_, 12, rfl⟩
  exact ⟨q, hcomes.trans hq⟩

/-- **Where another request leads**, between the last word of the initialisation and the mask that
is restored: through the word that stands for its vector behind `isr_stub_table`. -/
theorem other_line_enters_stub (h : s.Begins H) {line : ℕ} (hlow : 2 < line) (hhigh : line < 8) :
    ∃ (n masterMask slaveMask : ℕ) (s₀ s₁ s' : Interruptible),
      Run.exec (Interruptible.step H) s (List.replicate n .cpu) = some s₀ ∧
      s₀.code = .outb 0xA1 0x01 (restoreMasks masterMask slaveMask) ∧
      Run.exec (Interruptible.step H) s (List.replicate (n + 1) .cpu) = some s₁ ∧
      s₁.code = restoreMasks masterMask slaveMask ∧
      Run.exec (Interruptible.step H) s
        (List.replicate (n + 1) .cpu ++ [.raise line, .deliver]) = some s' ∧
      s'.entered = [(0x20 + line, ⟨H.stub (0x20 + line) % 2 ^ 32, 8, 0x8E⟩)] := by
  obtain ⟨p₀, masterMask, slaveMask, ⟨n, hcomes⟩, hmaster, hslave, hflag, hgate⟩ := h.comes
  obtain ⟨p, hp⟩ : ∃ p, p = p₀.outb 0xA1 0x01 := ⟨_, rfl⟩
  obtain ⟨hidt₀, hflag₀, -⟩ := p₀.outb_rest 0xA1 0x01
  rw [← hp] at hmaster hslave hidt₀ hflag₀
  obtain ⟨q, hack, hidt⟩ := acknowledge_initialised hmaster hslave hlow hhigh
  have hflag' : (p.raise line).interruptFlag = true := by
    rw [Pc.raise, if_pos hhigh]
    exact hflag₀.trans hflag
  have hdeliver : ∀ k : Code, Interruptible.step H ⟨p.raise line, k, none, []⟩ .deliver = some
      ⟨q, k, some (H.codeAt (q.gate (0x20 + line)).handler),
        [(0x20 + line, q.gate (0x20 + line))]⟩ := by
    intro k
    rw [Interruptible.step, Interruptible.deliver, if_pos ⟨rfl, hflag'⟩, hack, Option.map_some]
  have hlast : Run.exec (Interruptible.step H) s (List.replicate (n + 1) .cpu) =
      some ⟨p, restoreMasks masterMask slaveMask, none, []⟩ := by
    rw [List.replicate_succ']
    exact Run.exec_append.mpr ⟨_, hcomes, hp ▸ rfl⟩
  refine ⟨n, masterMask, slaveMask, _, _, _, hcomes, rfl, hlast, rfl,
    Run.exec_append.mpr ⟨_, hlast, Run.exec_cons.mpr ⟨_, rfl, Run.exec_singleton (hdeliver _)⟩⟩, ?_⟩
  dsimp only
  rw [Pc.gate_congr (hidt.trans hidt₀), hgate _ (by omega) (by omega)]

end Alone

theorem other_line_afterBios : ∃ (n masterMask slaveMask : ℕ) (s₁ s' : Interruptible),
    Run.exec (Interruptible.step someHandlers) afterBios (List.replicate (n + 1) .cpu) = some s₁ ∧
      s₁.code = restoreMasks masterMask slaveMask ∧
      Run.exec (Interruptible.step someHandlers) afterBios
        (List.replicate (n + 1) .cpu ++ [.raise 7, .deliver]) = some s' ∧
      s'.entered = [(0x27, ⟨0x21270, 8, 0x8E⟩)] := by
  obtain ⟨n, masterMask, slaveMask, _, s₁, s', -, -, hlast, hcode, hexec, hentered⟩ :=
    other_line_enters_stub afterBios_begins.toBegins (show 2 < 7 by decide) (by decide)
  exact ⟨n, masterMask, slaveMask, s₁, s', hlast, hcode, hexec, hentered⟩

/-! ## Runs -/

/-- Requests come from the timer and the keyboard only. -/
def Quiet : IrqEvent → Prop
  | .raise line => line < 2
  | _ => True

instance : DecidablePred Quiet
  | .cpu => isTrue trivial
  | .raise line => inferInstanceAs (Decidable (line < 2))
  | .deliver => isTrue trivial

/-- With interrupts, the state is one that the code alone comes to. -/
def Interruptible.Runs (H : Handlers) (s : Interruptible) : Prop :=
  ∃ p, Follows H p s ∧ s.code.Safe H (Pc.Started H) p

section Runs

variable {H : Handlers} {s s' : Interruptible}

theorem Interruptible.BeginsIdle.runs (h : s.BeginsIdle H) : s.Runs H := by
  have hentered : ∀ e ∈ s.entered, e = (0x20, H.pitGate) ∨ e = (0x21, H.keyboardGate) := by
    rw [h.entered]
    exact fun e he ↦ absurd he List.not_mem_nil
  have hticks : s.pc.ticks + owedTick s.handler =
      UInt64.ofNat (s.entered.countP fun e ↦ e.1 == 0x20) := by
    rw [h.handler, h.entered, h.ticks]
    rfl
  exact ⟨s.pc, ⟨Chip.Like.refl _, rfl, rfl, rfl, Or.inl ⟨h.handler, h.isr⟩, h.slaveIsr, hentered,
    hticks⟩, h.code ▸ mainInterrupts_safe H h.interruptFlag h.icw⟩

/-- **One event.** -/
theorem Interruptible.Runs.step (h : s.Runs H) {e : IrqEvent} (he : Quiet e)
    (hstep : s.step H e = some s') : s'.Runs H := by
  obtain ⟨p, hfollows, hsafe⟩ := h
  cases e with
  | cpu =>
    cases hhandler : s.handler with
    | none => exact hfollows.code_step hsafe hhandler hstep
    | some c =>
      obtain ⟨hfollows', hcode⟩ := hfollows.handler_step hhandler hstep
      exact ⟨p, hfollows', hcode ▸ hsafe⟩
  | raise line =>
    obtain rfl := Option.some.inj hstep
    exact ⟨p, hfollows.raise he, hsafe⟩
  | deliver =>
    obtain ⟨hfollows', hcode⟩ := hfollows.deliver hsafe.calm hstep
    exact ⟨p, hfollows', hcode ▸ hsafe⟩

/-- So is every state of a run. -/
theorem Interruptible.BeginsIdle.runs_of_exec (h : s.BeginsIdle H) {es : List IrqEvent}
    (hes : ∀ e ∈ es, Quiet e) (hexec : Run.exec (Interruptible.step H) s es = some s') :
    s'.Runs H :=
  Run.exec_invariant_of_forall (fun _ _ _ hruns he hstep ↦ hruns.step he hstep) h.runs hes hexec

end Runs

/-! ## What is pending is served -/

/-- The gate of a line's handler. -/
def Handlers.lineGate (H : Handlers) (line : ℕ) : Gate :=
  if line = 0 then H.pitGate else H.keyboardGate

theorem Pc.Remapped.lineGate {H : Handlers} {p : Pc} (h : p.Remapped H) {line : ℕ}
    (hline : line < 2) : p.gate (0x20 + line) = H.lineGate line := by
  rcases (show line = 0 ∨ line = 1 by omega) with rfl | rfl
  · exact h.pitGate
  · exact h.keyboardGate

/-- Since `s`, the line's handler has been entered through its gate. -/
def Interruptible.Served (H : Handlers) (line : ℕ) (s t : Interruptible) : Prop :=
  ∃ rest, s.entered <:+ rest ∧ (0x20 + line, H.lineGate line) :: rest <:+ t.entered

/-- An access, or an interrupt that is taken, is a turn; a request is not. -/
def IrqEvent.isTurn : IrqEvent → Bool
  | .raise _ => false
  | _ => true

/-- How many accesses a handler still makes. -/
def accessesLeft : Option Code → ℕ
  | none => 0
  | some .iret => 1
  | some (.outb _ _ _) => 2
  | some _ => 3

section Pending

variable {H : Handlers} {p : Pc} {s s' : Interruptible}

/-- A handler makes its next access, and leaves the requests alone. -/
theorem Follows.handler_next (h : Follows H p s) {c : Code} (hc : s.handler = some c) :
    ∃ t, s.cpu = some t ∧ t.entered = s.entered ∧ t.pc.master.irr = s.pc.master.irr ∧
      accessesLeft s.handler = accessesLeft t.handler + 1 := by
  obtain ⟨hnone, -⟩ | ⟨c', hc', hserv⟩ := h.service
  · rw [hnone] at hc
    cases hc
  obtain ⟨isr, hisr⟩ : ∃ isr, isr = s.pc.master.isr := ⟨_, rfl⟩
  rw [← hisr] at hserv
  rw [Interruptible.cpu, hc']
  cases hserv with
  | pit => exact ⟨_, rfl, rfl, rfl, rfl⟩
  | keyboard => exact ⟨_, rfl, rfl, rfl, rfl⟩
  | endOfInterrupt hline =>
    refine ⟨_, rfl, rfl, ?_, rfl⟩
    have hmaster : (s.pc.outb 0x20 0x20).master = s.pc.master.endOfInterrupt := rfl
    dsimp only
    rw [hmaster, Chip.endOfInterrupt]
    split <;> rfl
  | iret => exact ⟨_, rfl, rfl, rfl, rfl⟩

/-- **A handler ends.** -/
theorem Follows.handler_ends (h : Follows H p s) : ∃ t,
    Run.exec (Interruptible.step H) s (List.replicate (accessesLeft s.handler) .cpu) = some t ∧
      Follows H p t ∧ t.code = s.code ∧ t.handler = none ∧ t.entered = s.entered ∧
      t.pc.master.irr = s.pc.master.irr := by
  obtain ⟨k, hk⟩ : ∃ k, k = accessesLeft s.handler := ⟨_, rfl⟩
  rw [← hk]
  induction k generalizing s with
  | zero =>
    cases hc : s.handler with
    | none => exact ⟨s, rfl, h, rfl, hc, rfl, rfl⟩
    | some c =>
      obtain ⟨t, -, -, -, hleft⟩ := h.handler_next hc
      omega
  | succ k ih =>
    cases hc : s.handler with
    | none =>
      rw [hc] at hk
      exact absurd hk (Nat.succ_ne_zero k)
    | some c =>
      obtain ⟨t, hstep, hentered, hirr, hleft⟩ := h.handler_next hc
      obtain ⟨hfollows, hcode⟩ := h.handler_step hc hstep
      obtain ⟨u, hexec, hu, hcode', hnone, hentered', hirr'⟩ := ih hfollows (by omega)
      exact ⟨u, Run.exec_cons.mpr ⟨t, hstep, hexec⟩, hu, hcode'.trans hcode, hnone,
        hentered'.trans hentered, hirr'.trans hirr⟩

/-- **The first request is taken.** -/
theorem Follows.takes (h : Follows H p s) (hp : p.Started H) (hnone : s.handler = none) {line : ℕ}
    (hline : line < 2) (hirr : s.pc.master.irr line = true)
    (hfirst : ∀ i < line, s.pc.master.irr i = false) :
    ∃ t, s.deliver H = some t ∧ t.entered = (0x20 + line, H.lineGate line) :: s.entered ∧
      t.handler = some (H.codeAt (H.lineGate line).handler) ∧
      t.pc.master.irr = Function.update (Function.update s.pc.master.irr 2 false) line false := by
  have hisr := h.isr_of_none hnone
  have hslave : s.pc.slave.request = none := h.slave ▸ Chip.request_of_quiet hp.slave
  obtain ⟨master, hm⟩ : ∃ master, master =
      { s.pc.master with irr := Function.update s.pc.master.irr 2 false } := ⟨_, rfl⟩
  have hunmasked : s.pc.master.imr.testBit line = false := by
    rw [h.master.imr]
    rcases (show line = 0 ∨ line = 1 by omega) with rfl | rfl
    · exact hp.timer
    · exact hp.keyboard
  have hother : ∀ i < 2, master.irr i = s.pc.master.irr i := fun i hi ↦ by
    rw [hm]
    exact Function.update_of_ne (by omega) _ _
  have hfind : ((List.range 8).find? fun i ↦ master.irr i && !master.imr.testBit i) = some line := by
    refine List.find?_range_eq_some.mpr ⟨?_, List.mem_range.mpr (by omega), fun i hi ↦ ?_⟩
    · rw [hother line hline, hirr, hm, hunmasked]
      rfl
    · rw [hother i (by omega), hfirst i hi]
      rfl
  have hreq : master.request = some line := by
    have hicw : master.icw = 0 := by rw [hm, h.master.icw, hp.icw]
    have hmisr : master.isr = fun _ ↦ false := by rw [hm, hisr]
    have hidle : ((List.range (line + 1)).any fun _ ↦ false) = false :=
      List.any_eq_false.mpr fun _ _ ↦ Bool.false_ne_true
    rw [Chip.request, if_pos hicw, hfind, hmisr, Option.filter_some, hidle]
    rfl
  have hack : s.pc.acknowledge = some (0x20 + line, { s.pc with master := master.serve line }) := by
    rw [Pc.acknowledge, hslave]
    dsimp only [Option.isSome_none]
    rw [← hm, hreq]
    dsimp only
    rw [ite_self, h.master.offset, hp.offset]
  have hgate : ({ s.pc with master := master.serve line } : Pc).gate (0x20 + line) =
      H.lineGate line := (Pc.gate_congr h.idt _).trans (hp.lineGate hline)
  refine ⟨{ s with
    pc := { s.pc with master := master.serve line }
    handler := some (H.codeAt (H.lineGate line).handler)
    entered := (0x20 + line, H.lineGate line) :: s.entered }, ?_, rfl, rfl, ?_⟩
  · rw [Interruptible.deliver, if_pos ⟨by rw [hnone]; rfl, h.interruptFlag.trans hp.interruptFlag⟩,
      hack, Option.map_some, hgate]
  · rw [hm]
    rfl

theorem accessesLeft_le (c : Option Code) : accessesLeft c ≤ 3 := by
  unfold accessesLeft
  split <;> omega

/-- The handler ends, and then the first request is taken. -/
theorem Follows.serves (h : Follows H p s) (hp : p.Started H) {line : ℕ} (hline : line < 2)
    (hirr : s.pc.master.irr line = true) (hfirst : ∀ i < line, s.pc.master.irr i = false) :
    ∃ t, Run.exec (Interruptible.step H) s
        (List.replicate (accessesLeft s.handler) .cpu ++ [.deliver]) = some t ∧ Follows H p t ∧
      t.code = s.code ∧ t.entered = (0x20 + line, H.lineGate line) :: s.entered ∧
      t.handler = some (H.codeAt (H.lineGate line).handler) ∧
      t.pc.master.irr = Function.update (Function.update s.pc.master.irr 2 false) line false := by
  obtain ⟨u, hexec, hu, hcode, hnone, hentered, hsame⟩ := h.handler_ends
  obtain ⟨t, hdeliver, hfirst', hhandler, hirr'⟩ :=
    hu.takes hp hnone hline (hsame ▸ hirr) (hsame ▸ hfirst)
  obtain ⟨hfollows, hcode'⟩ := hu.deliver hp.calm hdeliver
  exact ⟨t, Run.exec_append.mpr ⟨u, hexec, Run.exec_singleton
      (show Interruptible.step H u .deliver = some t from hdeliver)⟩,
    hfollows, hcode'.trans hcode, hentered ▸ hfirst', hhandler, hsame ▸ hirr'⟩

/-- **Which interrupts come while the kernel starts, and after.**  Those of the timer and of the
keyboard, each through its own descriptor; when no handler runs no line of either controller is in
service, and the timer has counted its interrupts, in 64 bits. -/
theorem entered_of_run (h : s.BeginsIdle H) {es : List IrqEvent} (hes : ∀ e ∈ es, Quiet e)
    (hexec : Run.exec (Interruptible.step H) s es = some s') :
    (∀ e ∈ s'.entered, e = (0x20, H.pitGate) ∨ e = (0x21, H.keyboardGate)) ∧
      (s'.handler = none → s'.pc.master.isr = (fun _ ↦ false) ∧ s'.pc.slave.isr = (fun _ ↦ false) ∧
        s'.pc.ticks = UInt64.ofNat (s'.entered.countP fun e ↦ e.1 == 0x20)) := by
  obtain ⟨p, hfollows, -⟩ := h.runs_of_exec hes hexec
  refine ⟨hfollows.entered, fun hnone ↦
    ⟨hfollows.isr_of_none hnone, hfollows.slaveService, ?_⟩⟩
  have hticks := hfollows.ticks
  rw [hnone] at hticks
  exact (UInt64.add_zero _).symm.trans hticks

/-- The timer asks after `main`. -/
theorem afterBios_asks : ∃ (es : List IrqEvent) (p : Pc), (∀ e ∈ es, Quiet e) ∧
    Run.exec (Interruptible.step someHandlers) afterBios es = some ⟨p, .done, none, []⟩ ∧
      p.master.irr 0 = true := by
  obtain ⟨p, n, hp⟩ := afterBios_begins.ends
  refine ⟨List.replicate n .cpu ++ [.raise 0], p.raise 0,
    List.forall_mem_append.mpr ⟨fun e he ↦ ?_, by decide⟩,
    Run.exec_append.mpr ⟨_, hp, Run.exec_singleton rfl⟩, rfl⟩
  rw [List.eq_of_mem_replicate he]
  trivial

theorem entered_afterBios : ∃ (es : List IrqEvent) (s' : Interruptible),
    Run.exec (Interruptible.step someHandlers) afterBios es = some s' ∧
      s'.entered = [(0x20, someHandlers.pitGate)] := by
  obtain ⟨es, p, hquiet, hexec, hirr⟩ := afterBios_asks
  obtain ⟨q, hfollows, -, hq⟩ := afterBios_begins.runs_of_exec hquiet hexec
  obtain ⟨t, hdeliver, hentered, -⟩ :=
    hfollows.takes hq rfl (show 0 < 2 by decide) hirr fun i hi ↦ absurd hi (Nat.not_lt_zero i)
  have hrun := Run.exec_append.mpr ⟨_, hexec, Run.exec_singleton
    (show Interruptible.step someHandlers _ .deliver = some t from hdeliver)⟩
  have hquiet' : ∀ e ∈ es ++ [.deliver], Quiet e :=
    List.forall_mem_append.mpr ⟨hquiet, by decide⟩
  have hfirst := (entered_of_run afterBios_begins hquiet' hrun).1
    (0x20 + 0, someHandlers.lineGate 0) (hentered ▸ List.mem_cons_self)
  rcases hfirst with heq | heq
  · exact ⟨_, t, hrun, by rw [hentered, heq]⟩
  · exact absurd (show (0x20 : ℕ) = 0x21 from congrArg Prod.fst heq) (by decide)

/-- A line has been waiting since `s`, `main` being through. -/
structure Interruptible.Waits (H : Handlers) (p : Pc) (line : ℕ) (s t : Interruptible) : Prop where
  follows : Follows H p t
  code : t.code = .done
  pending : t.pc.master.irr line = true
  since : s.entered <:+ t.entered

/-- The turns until the line is served: those of the handler that runs, of the timer if it comes first,
and the interrupt. -/
def turnsLeft (line : ℕ) (s : Interruptible) : ℕ :=
  accessesLeft s.handler + (if line = 1 ∧ s.pc.master.irr 0 = true then 4 else 0) + 1

theorem turnsLeft_le (line : ℕ) (s : Interruptible) : turnsLeft line s ≤ 8 := by
  have hhandler := accessesLeft_le s.handler
  rw [turnsLeft]
  split_ifs <;> omega

/-- The handlers that have been entered stay entered. -/
theorem Interruptible.entered_step {e : IrqEvent} (hstep : s.step H e = some s') :
    s.entered <:+ s'.entered := by
  cases e with
  | cpu =>
    rw [Interruptible.step, Interruptible.cpu] at hstep
    split at hstep
    · obtain rfl := Option.some.inj hstep
      exact List.suffix_rfl
    · obtain ⟨r, -, rfl⟩ := Option.map_eq_some_iff.mp hstep
      exact List.suffix_rfl
    · obtain ⟨r, -, rfl⟩ := Option.map_eq_some_iff.mp hstep
      exact List.suffix_rfl
  | raise line =>
    obtain rfl := Option.some.inj hstep
    exact List.suffix_rfl
  | deliver =>
    rw [Interruptible.step, Interruptible.deliver] at hstep
    split_ifs at hstep
    obtain ⟨r, -, rfl⟩ := Option.map_eq_some_iff.mp hstep
    exact List.suffix_cons ..

namespace Interruptible.Waits

variable {line : ℕ} {t u : Interruptible}

/-- Which line is served next. -/
theorem first (h : Waits H p line s t) (hline : line < 2) :
    (∀ i < line, t.pc.master.irr i = false) ∨ line = 1 ∧ t.pc.master.irr 0 = true := by
  rcases (show line = 0 ∨ line = 1 by omega) with rfl | rfl
  · exact Or.inl fun i hi ↦ absurd hi (Nat.not_lt_zero i)
  · cases hzero : t.pc.master.irr 0 with
    | true => exact Or.inr ⟨rfl, rfl⟩
    | false =>
      refine Or.inl fun i hi ↦ ?_
      rw [show i = 0 by omega, hzero]

/-- **One event**: the line is served, or a turn has passed. -/
theorem step (h : Waits H p line s t) (hp : p.Started H) (hline : line < 2) {e : IrqEvent}
    (he : Quiet e ∧ (line = 1 → e ≠ .raise 0)) (hstep : t.step H e = some u) :
    s.Served H line u ∨ Waits H p line s u ∧
      turnsLeft line u + (if e.isTurn = true then 1 else 0) ≤ turnsLeft line t := by
  have hsince := h.since.trans (Interruptible.entered_step hstep)
  cases e with
  | cpu =>
    cases hc : t.handler with
    | none =>
      have hstuck : t.cpu = none := by rw [Interruptible.cpu, hc, h.code]; rfl
      rw [Interruptible.step, hstuck] at hstep
      cases hstep
    | some c =>
      obtain ⟨u', hcpu, -, hirr, hleft⟩ := h.follows.handler_next hc
      obtain rfl : u' = u := Option.some.inj (hcpu.symm.trans hstep)
      obtain ⟨hfollows, hcode⟩ := h.follows.handler_step hc hstep
      refine Or.inr ⟨⟨hfollows, hcode.trans h.code, hirr ▸ h.pending, hsince⟩, ?_⟩
      rw [if_pos (show IrqEvent.cpu.isTurn = true from rfl), turnsLeft, turnsLeft, hirr, hleft]
      omega
  | raise line' =>
    obtain ⟨hquiet, hless⟩ := he
    obtain rfl := Option.some.inj hstep
    have hraise : (t.pc.raise line').master.irr = Function.update t.pc.master.irr line' true := by
      have hlow : line' < 2 := hquiet
      rw [Pc.raise, if_pos (by omega)]
    refine Or.inr ⟨⟨h.follows.raise hquiet, h.code, ?_, hsince⟩, Nat.le_of_eq ?_⟩
    · dsimp only
      rw [hraise]
      by_cases hsame : line = line'
      · rw [hsame, Function.update_self]
      · rw [Function.update_of_ne hsame, h.pending]
    · rw [if_neg (show ¬ (IrqEvent.raise line').isTurn = true from Bool.false_ne_true), Nat.add_zero,
        turnsLeft, turnsLeft]
      dsimp only
      rw [hraise]
      by_cases hone : line = 1
      · rw [Function.update_of_ne fun hzero : 0 = line' ↦ hless hone (hzero ▸ rfl)]
      · rw [if_neg fun hand ↦ hone hand.1, if_neg fun hand ↦ hone hand.1]
  | deliver =>
    have hnone : t.handler = none := by
      rw [Interruptible.step, Interruptible.deliver] at hstep
      split_ifs at hstep with hcan
      exact Option.isNone_iff_eq_none.mp hcan.1
    obtain ⟨hfollows, hcode⟩ := h.follows.deliver hp.calm hstep
    rcases h.first hline with hfirst | ⟨rfl, hzero⟩
    · obtain ⟨u', hdeliver, hentered, -⟩ := h.follows.takes hp hnone hline h.pending hfirst
      obtain rfl : u' = u := Option.some.inj (hdeliver.symm.trans hstep)
      exact Or.inl ⟨t.entered, h.since, hentered ▸ List.suffix_rfl⟩
    · -- the timer comes first
      obtain ⟨u', hdeliver, -, -, hirr⟩ := h.follows.takes hp hnone (show 0 < 2 by decide) hzero
        fun i hi ↦ absurd hi (Nat.not_lt_zero i)
      obtain rfl : u' = u := Option.some.inj (hdeliver.symm.trans hstep)
      refine Or.inr ⟨⟨hfollows, hcode.trans h.code, ?_, hsince⟩, ?_⟩
      · rw [hirr, Function.update_of_ne (by decide), Function.update_of_ne (by decide), h.pending]
      · have hthree := accessesLeft_le u'.handler
        rw [if_pos (show IrqEvent.deliver.isTurn = true from rfl), turnsLeft, turnsLeft, hirr,
          Function.update_self, if_neg (by decide), if_pos ⟨rfl, hzero⟩]
        omega

/-- **There is always a turn.** -/
theorem next (h : Waits H p line s t) (hp : p.Started H) (hline : line < 2) :
    ∃ e u, (e = .cpu ∨ e = .deliver) ∧ t.step H e = some u := by
  cases hc : t.handler with
  | some c =>
    obtain ⟨u, hcpu, -⟩ := h.follows.handler_next hc
    exact ⟨.cpu, u, Or.inl rfl, hcpu⟩
  | none =>
    rcases h.first hline with hfirst | ⟨rfl, hzero⟩
    · obtain ⟨u, hdeliver, -⟩ := h.follows.takes hp hc hline h.pending hfirst
      exact ⟨.deliver, u, Or.inr rfl, hdeliver⟩
    · obtain ⟨u, hdeliver, -⟩ := h.follows.takes hp hc (show 0 < 2 by decide) hzero
        fun i hi ↦ absurd hi (Nat.not_lt_zero i)
      exact ⟨.deliver, u, Or.inr rfl, hdeliver⟩

end Interruptible.Waits

/-- **A pending request is served**: `main` being through, however things go on without requests that
are more urgent, the line's handler has been entered through its gate, or there were fewer than eight
accesses and interrupts, and another one is possible. -/
theorem pending_served (h : s.BeginsIdle H) {es : List IrqEvent} (hes : ∀ e ∈ es, Quiet e)
    (hexec : Run.exec (Interruptible.step H) s es = some s') (hdone : s'.code = .done) {line : ℕ}
    (hline : line < 2) (hirr : s'.pc.master.irr line = true) {es' : List IrqEvent}
    (hes' : ∀ e ∈ es', Quiet e ∧ (line = 1 → e ≠ .raise 0)) {t : Interruptible}
    (hexec' : Run.exec (Interruptible.step H) s' es' = some t) :
    s'.Served H line t ∨ es'.countP IrqEvent.isTurn < 8 ∧
      ∃ e u, (e = .cpu ∨ e = .deliver) ∧ t.step H e = some u := by
  obtain ⟨p, hfollows, hsafe⟩ := h.runs_of_exec hes hexec
  rw [hdone] at hsafe
  obtain ⟨-, hp⟩ := hsafe
  have hcount := Run.exec_countdown
    (fun _ _ _ hwaits he hstep ↦ Interruptible.Waits.step hwaits hp hline he hstep)
    (fun _ _ _ ⟨rest, hsince, hnew⟩ hstep ↦
      ⟨rest, hsince, hnew.trans (Interruptible.entered_step hstep)⟩)
    (⟨hfollows, hdone, hirr, List.suffix_rfl⟩ : Interruptible.Waits H p line s' s') hes' hexec'
  rcases hcount with hserved | ⟨hwaits, hturns⟩
  · exact Or.inl hserved
  · refine Or.inr ⟨?_, hwaits.next hp hline⟩
    have hspent : turnsLeft line t + es'.countP IrqEvent.isTurn ≤ turnsLeft line s' := hturns
    have hbound := turnsLeft_le line s'
    have hleft : 1 ≤ turnsLeft line t := Nat.succ_le_succ (Nat.zero_le _)
    omega

/-- The keyboard asks while the timer's handler runs, and the timer asks again. -/
theorem pending_afterBios : ∃ (es : List IrqEvent) (s t : Interruptible),
    Run.exec (Interruptible.step someHandlers) afterBios es = some s ∧
      s.handler = some .pitHandler ∧ s.pc.master.irr 0 = true ∧ s.pc.master.irr 1 = true ∧
      Run.exec (Interruptible.step someHandlers) s
        [.cpu, .cpu, .cpu, .deliver, .cpu, .cpu, .cpu, .deliver] = some t ∧
      s.Served someHandlers 1 t := by
  obtain ⟨es, p, hquiet, hexec, hirr⟩ := afterBios_asks
  obtain ⟨q, hfollows, -, hq⟩ := afterBios_begins.runs_of_exec hquiet hexec
  obtain ⟨s, hdeliver, -, hhandler, -⟩ :=
    hfollows.takes hq rfl (show 0 < 2 by decide) hirr fun i hi ↦ absurd hi (Nat.not_lt_zero i)
  obtain ⟨hs, hcode⟩ := hfollows.deliver hq.calm hdeliver
  have hs' := (hs.raise (show 0 < 2 by decide)).raise (show 1 < 2 by decide)
  obtain ⟨s', hs's⟩ : ∃ s' : Interruptible, s' = { s with pc := (s.pc.raise 0).raise 1 } := ⟨_, rfl⟩
  rw [← hs's] at hs'
  have hrun := Run.exec_append.mpr ⟨_, hexec, Run.exec_cons.mpr
    ⟨s, (show Interruptible.step someHandlers _ .deliver = some s from hdeliver),
      (show Run.exec (Interruptible.step someHandlers) s [.raise 0, .raise 1] = some s' from
        hs's ▸ rfl)⟩⟩
  have hquiet' : ∀ e ∈ es ++ [.deliver, .raise 0, .raise 1], Quiet e :=
    List.forall_mem_append.mpr ⟨hquiet, by decide⟩
  have hpit : s'.handler = some .pitHandler := hs's ▸ hhandler.trans (congrArg some (if_pos rfl))
  have hturns : ∀ {u : Interruptible}, u.handler = some .pitHandler →
      List.replicate (accessesLeft u.handler) IrqEvent.cpu = [.cpu, .cpu, .cpu] := fun hu ↦ by
    rw [hu]
    rfl
  have hzero : s'.pc.master.irr 0 = true := hs's ▸ rfl
  have hone : s'.pc.master.irr 1 = true := hs's ▸ rfl
  obtain ⟨t, hexec₁, ht, -, -, hhandler₁, hirr₁⟩ := hs'.serves hq (show 0 < 2 by decide) hzero
    fun i hi ↦ absurd hi (Nat.not_lt_zero i)
  have hpit₁ : t.handler = some .pitHandler := hhandler₁.trans (congrArg some (if_pos rfl))
  obtain ⟨u, hexec₂, -⟩ := ht.serves hq (show 1 < 2 by decide)
    (by rw [hirr₁]; exact hone) fun i hi ↦ by rw [hirr₁, show i = 0 by omega, Function.update_self]
  rw [hturns hpit] at hexec₁
  rw [hturns hpit₁] at hexec₂
  have hboth : Run.exec (Interruptible.step someHandlers) s'
      [.cpu, .cpu, .cpu, .deliver, .cpu, .cpu, .cpu, .deliver] = some u :=
    Run.exec_append.mpr ⟨t, hexec₁, hexec₂⟩
  refine ⟨_, s', u, hrun, hpit, hzero, hone, hboth, ?_⟩
  rcases pending_served afterBios_begins hquiet' hrun (hs's ▸ hcode) (show 1 < 2 by decide) hone
    (by decide) hboth with hserved | ⟨hfew, -⟩
  · exact hserved
  · exact absurd hfew (by decide)

end Pending

end AbOS
