import AbOS.Interrupts.Pic
import AbOS.Lib.Run

/-!
# Code that is interrupted

`Interruptible` is code, the handler that has interrupted it, and everything the two share; an event is
one access to the hardware, a request by a device, or the processor taking one.

* `Follows.handler_step`, `Follows.raise`, `Follows.deliver`, `Follows.code_step` — what each event
  does to the relation between the state with interrupts and the one that the code alone would be in.

They rest on what the code before an interrupt and after it can tell: `Code.Safe` looks at the code
alone, as it runs without interrupts, and asks in every state that an interrupt that may come there is
harmless (`Pc.Calm`).
-/

set_option autoImplicit false

namespace AbOS

/-! ## Code and interrupts -/

/-- Code, the handler that has interrupted it, and the descriptors through which handlers have been
entered, last first. -/
structure Interruptible where
  pc : Pc
  code : Code
  handler : Option Code
  entered : List (ℕ × Gate)

/-- One thing after the other. -/
inductive IrqEvent where
  | cpu
  | raise (line : ℕ)
  | deliver
  deriving DecidableEq

/-- The code at an address; there is no telling what another address leads to. -/
def Handlers.codeAt (H : Handlers) (address : ℕ) : Code :=
  if address = H.pit then .pitHandler
  else if address = H.keyboard then .keyboardHandler
  else .done

namespace Interruptible

variable (H : Handlers)

/-- The next access of the handler, or of the code; `IRET` goes back to it. -/
def cpu (s : Interruptible) : Option Interruptible :=
  match s.handler with
  | some .iret => some { s with handler := none }
  | some c => (c.next s.pc).map fun r ↦ { s with pc := r.1, handler := some r.2 }
  | none => (s.code.next s.pc).map fun r ↦ { s with pc := r.1, code := r.2 }

/-- The processor takes a request.  All gates are interrupt gates: in a handler the flag is clear. -/
def deliver (s : Interruptible) : Option Interruptible :=
  if s.handler.isNone ∧ s.pc.interruptFlag = true then
    s.pc.acknowledge.map fun r ↦
      { s with
        pc := r.2
        handler := some (H.codeAt (r.2.gate r.1).handler)
        entered := (r.1, r.2.gate r.1) :: s.entered }
  else none

def step (s : Interruptible) : IrqEvent → Option Interruptible
  | .cpu => s.cpu
  | .raise line => some { s with pc := s.pc.raise line }
  | .deliver => s.deliver H

end Interruptible

/-! ## The code alone -/

/-- The gates of the two handlers. -/
def Handlers.pitGate (H : Handlers) : Gate := ⟨H.pit, 8, 0x8E⟩

def Handlers.keyboardGate (H : Handlers) : Gate := ⟨H.keyboard, 8, 0x8E⟩

/-- Either no interrupt can come, or one from the timer or the keyboard finds its handler, and no
other line makes a request. -/
def Pc.Calm (H : Handlers) (p : Pc) : Prop :=
  p.interruptFlag = true → p.master.icw = 0 →
    (∀ i < 8, p.master.imr.testBit i = true) ∨
      ((∀ i, 2 ≤ i → p.master.irr i = false) ∧ p.slave.request = none ∧ p.master.offset = 0x20 ∧
        p.gate 0x20 = H.pitGate ∧ p.gate 0x21 = H.keyboardGate)

/-- The code may be interrupted in every state that it comes to by itself, it reads of the controllers
nothing but the masks, it does not end interrupts, and in the end `Q` holds. -/
def Code.Safe (H : Handlers) (Q : Pc → Prop) : Code → Pc → Prop
  | .done, p => p.Calm H ∧ Q p
  | .inb port k, p => p.Calm H ∧ (port = 0x21 ∨ port = 0xA1) ∧ (k (p.inb port)).Safe H Q p
  | .outb port v k, p =>
    p.Calm H ∧ (port = 0x20 → v.testBit 4 = true) ∧ k.Safe H Q (p.outb port v)
  | .setDescriptor vector isr flags k, p =>
    p.Calm H ∧ k.Safe H Q (p.setDescriptor vector isr flags)
  | .cli k, p => p.Calm H ∧ k.Safe H Q { p with interruptFlag := false }
  | .sti k, p => p.Calm H ∧ k.Safe H Q { p with interruptFlag := true }
  | .tick _, _ => False
  | .iret, _ => False

theorem Code.Safe.calm {H : Handlers} {Q : Pc → Prop} {c : Code} {p : Pc} (h : c.Safe H Q p) :
    p.Calm H := by
  cases c with
  | tick k => exact h.elim
  | iret => exact h.elim
  | _ => exact h.1

/-! ## With interrupts -/

/-- The same chip, up to the requests of the timer and the keyboard and what is in service. -/
structure Chip.Like (c d : Chip) : Prop where
  irr : ∀ i, 2 ≤ i → c.irr i = d.irr i
  imr : c.imr = d.imr
  offset : c.offset = d.offset
  icw : c.icw = d.icw
  single : c.single = d.single
  icw4 : c.icw4 = d.icw4

/-- How far the handler is, and the line in service. -/
inductive Servicing : Code → (ℕ → Bool) → Prop where
  | pit : Servicing .pitHandler (· == 0)
  | keyboard : Servicing .keyboardHandler (· == 1)
  | endOfInterrupt {line : ℕ} (h : line < 2) : Servicing (.outb 0x20 0x20 .iret) (· == line)
  | iret : Servicing .iret fun _ ↦ false

/-- The timer's handler has not counted yet. -/
def owedTick : Option Code → UInt64
  | some (.tick _) => 1
  | _ => 0

/-- The state with interrupts, and the one that the code alone would be in. -/
structure Follows (H : Handlers) (p : Pc) (s : Interruptible) : Prop where
  master : s.pc.master.Like p.master
  slave : s.pc.slave = p.slave
  idt : s.pc.idt = p.idt
  interruptFlag : s.pc.interruptFlag = p.interruptFlag
  service : (s.handler = none ∧ s.pc.master.isr = fun _ ↦ false) ∨
    ∃ c, s.handler = some c ∧ Servicing c s.pc.master.isr
  slaveService : s.pc.slave.isr = fun _ ↦ false
  entered : ∀ e ∈ s.entered, e = (0x20, H.pitGate) ∨ e = (0x21, H.keyboardGate)
  ticks : s.pc.ticks + owedTick s.handler = UInt64.ofNat (s.entered.countP fun e ↦ e.1 == 0x20)

section Chips

variable {c d : Chip}

theorem Chip.Like.refl (c : Chip) : c.Like c := ⟨fun _ _ ↦ rfl, rfl, rfl, rfl, rfl, rfl⟩

/-- A request of the timer or the keyboard, or its end, does not show. -/
theorem Chip.Like.update (h : c.Like d) {line : ℕ} (hline : line < 2) (b : Bool)
    (isr : ℕ → Bool) : Chip.Like { c with irr := Function.update c.irr line b, isr } d :=
  ⟨fun i hi ↦ (Function.update_of_ne (by omega) _ _).trans (h.irr i hi), h.imr, h.offset, h.icw,
    h.single, h.icw4⟩

theorem Chip.Like.data (h : c.Like d) (v : ℕ) : (c.data v).Like (d.data v) := by
  obtain ⟨hirr, himr, hoffset, hicw, hsingle, hicw4⟩ := h
  rw [Chip.data, Chip.data, hicw, hsingle, hicw4]
  split_ifs <;> constructor <;> first | rfl | assumption

theorem Chip.Like.command (h : c.Like d) {v : ℕ} (hv : v.testBit 4 = true) :
    (c.command v).Like (d.command v) := by
  rw [Chip.command, Chip.command, if_pos hv, if_pos hv]
  exact ⟨fun _ _ ↦ rfl, rfl, h.offset, rfl, rfl, rfl⟩

/-- No command brings a line into service. -/
theorem Chip.isr_command (h : c.isr = fun _ ↦ false) (v : ℕ) :
    (c.command v).isr = fun _ ↦ false := by
  have hnone : (List.range 8).find? c.isr = none :=
    List.find?_eq_none.mpr fun i _ ↦ by rw [h]; exact Bool.false_ne_true
  rw [Chip.command, Chip.endOfInterrupt, hnone]
  split_ifs
  · rfl
  · exact h
  · exact h
  · exact h

theorem Chip.isr_data (c : Chip) (v : ℕ) : (c.data v).isr = c.isr := by
  rw [Chip.data]
  split_ifs <;> rfl

/-- The end of the only interrupt. -/
theorem Chip.endOfInterrupt_eq {line : ℕ} (hline : line < 2) (h : c.isr = (· == line)) :
    (c.endOfInterrupt).isr = (fun _ ↦ false) ∧ (c.endOfInterrupt).Like c := by
  have hfind : (List.range 8).find? c.isr = some line := by
    rw [h]
    rcases (show line = 0 ∨ line = 1 by omega) with rfl | rfl <;> rfl
  rw [Chip.endOfInterrupt, hfind]
  refine ⟨funext fun i ↦ ?_, ⟨fun _ _ ↦ rfl, rfl, rfl, rfl, rfl, rfl⟩⟩
  dsimp only
  by_cases hi : i = line
  · rw [hi, Function.update_self]
  · rw [Function.update_of_ne hi, h]
    exact beq_false_of_ne hi

end Chips

theorem Pc.gate_congr {p q : Pc} (h : p.idt = q.idt) (vector : ℕ) : p.gate vector = q.gate vector := by
  rw [Pc.gate, Pc.gate, h]

/-- A port of the controllers leaves the rest alone. -/
theorem Pc.outb_rest (p : Pc) (port v : ℕ) : (p.outb port v).idt = p.idt ∧
    (p.outb port v).interruptFlag = p.interruptFlag ∧ (p.outb port v).ticks = p.ticks := by
  rw [Pc.outb]
  split_ifs <;> exact ⟨rfl, rfl, rfl⟩

/-- A port does the same to chips that are alike, and no line comes into service. -/
theorem Pc.outb_like {p q : Pc} (hmaster : q.master.Like p.master) (hslave : q.slave = p.slave)
    {port v : ℕ} (hport : port = 0x20 → v.testBit 4 = true)
    (hisr : q.master.isr = fun _ ↦ false) (hisr' : q.slave.isr = fun _ ↦ false) :
    (q.outb port v).master.Like (p.outb port v).master ∧
      (q.outb port v).slave = (p.outb port v).slave ∧
      ((q.outb port v).master.isr = fun _ ↦ false) ∧ (q.outb port v).slave.isr = fun _ ↦ false := by
  rw [Pc.outb, Pc.outb]
  split_ifs with h₁ h₂ h₃ h₄
  · exact ⟨hmaster.command (hport h₁), hslave, Chip.isr_command hisr v, hisr'⟩
  · exact ⟨hmaster.data v, hslave, (Chip.isr_data ..).trans hisr, hisr'⟩
  · exact ⟨hmaster, congrArg (Chip.command · v) hslave, hisr, Chip.isr_command hisr' v⟩
  · exact ⟨hmaster, congrArg (Chip.data · v) hslave, hisr, (Chip.isr_data ..).trans hisr'⟩
  · exact ⟨hmaster, hslave, hisr, hisr'⟩

section Step

variable {H : Handlers} {p : Pc} {s s' : Interruptible}

/-- **An access of a handler.** -/
theorem Follows.handler_step (h : Follows H p s) {c : Code} (hc : s.handler = some c)
    (hstep : s.cpu = some s') : Follows H p s' ∧ s'.code = s.code := by
  obtain ⟨hnone, -⟩ | ⟨c', hc', hserv⟩ := h.service
  · rw [hnone] at hc
    cases hc
  have hticks := h.ticks
  obtain ⟨isr, hisr⟩ : ∃ isr, isr = s.pc.master.isr := ⟨_, rfl⟩
  rw [hc'] at hticks
  rw [← hisr] at hserv
  rw [Interruptible.cpu, hc'] at hstep
  cases hserv with
  | pit =>
    obtain rfl := Option.some.inj hstep
    refine ⟨⟨h.master, h.slave, h.idt, h.interruptFlag, Or.inr ⟨_, rfl, ?_⟩, h.slaveService,
      h.entered, (UInt64.add_zero _).trans hticks⟩, rfl⟩
    exact hisr ▸ Servicing.endOfInterrupt (by decide)
  | keyboard =>
    obtain rfl := Option.some.inj hstep
    refine ⟨⟨h.master, h.slave, h.idt, h.interruptFlag, Or.inr ⟨_, rfl, ?_⟩, h.slaveService,
      h.entered, hticks⟩, rfl⟩
    exact hisr ▸ Servicing.endOfInterrupt (by decide)
  | endOfInterrupt hline =>
    obtain rfl := Option.some.inj hstep
    obtain ⟨hclear, hlike⟩ := Chip.endOfInterrupt_eq hline hisr.symm
    have hmaster : s.pc.outb 0x20 0x20 = { s.pc with master := s.pc.master.endOfInterrupt } := rfl
    have hlike' : s.pc.master.endOfInterrupt.Like p.master :=
      ⟨fun i hi ↦ (hlike.irr i hi).trans (h.master.irr i hi), hlike.imr.trans h.master.imr,
        hlike.offset.trans h.master.offset, hlike.icw.trans h.master.icw,
        hlike.single.trans h.master.single, hlike.icw4.trans h.master.icw4⟩
    rw [hmaster]
    exact ⟨⟨hlike', h.slave, h.idt, h.interruptFlag, Or.inr ⟨_, rfl, hclear ▸ Servicing.iret⟩,
      h.slaveService, h.entered, hticks⟩, rfl⟩
  | iret =>
    obtain rfl := Option.some.inj hstep
    exact ⟨⟨h.master, h.slave, h.idt, h.interruptFlag, Or.inl ⟨rfl, hisr.symm⟩,
      h.slaveService, h.entered, hticks⟩, rfl⟩

/-- **A request.** -/
theorem Follows.raise (h : Follows H p s) {line : ℕ} (hline : line < 2) :
    Follows H p { s with pc := s.pc.raise line } := by
  have hraise : s.pc.raise line =
      { s.pc with master := { s.pc.master with irr := Function.update s.pc.master.irr line true } } :=
    if_pos (by omega)
  rw [hraise]
  exact ⟨h.master.update hline true _, h.slave, h.idt, h.interruptFlag, h.service, h.slaveService,
    h.entered, h.ticks⟩

/-- Where nothing else can come, the request is one of the two. -/
theorem Pc.Calm.request (hcalm : p.Calm H) (hflag : p.interruptFlag = true) {c : Chip}
    (hlike : c.Like p.master) {i : ℕ}
    (hreq : ({ c with irr := Function.update c.irr 2 p.slave.request.isSome } : Chip).request =
      some i) : i < 2 ∧ p.slave.request = none ∧ p.master.irr 2 = false ∧ p.master.offset = 0x20 ∧
        p.gate 0x20 = H.pitGate ∧ p.gate 0x21 = H.keyboardGate := by
  rw [Chip.request] at hreq
  split_ifs at hreq with hicw
  obtain ⟨hfind, -⟩ := Option.filter_eq_some_iff.mp hreq
  have hmem := List.mem_range.mp (List.mem_of_find?_eq_some hfind)
  have hbits := List.find?_some hfind
  rw [Bool.and_eq_true, Bool.not_eq_true'] at hbits
  rcases hcalm hflag (hlike.icw ▸ hicw) with hmasked | ⟨hquiet, hslave, hoffset, hpit, hkey⟩
  · have hmask := hbits.2
    dsimp only at hmask
    rw [hlike.imr, hmasked i hmem] at hmask
    cases hmask
  · refine ⟨?_, hslave, hquiet 2 (Nat.le_refl 2), hoffset, hpit, hkey⟩
    by_contra hge
    have hirr := hbits.1
    dsimp only at hirr
    by_cases htwo : i = 2
    · rw [htwo, Function.update_self, hslave] at hirr
      cases hirr
    · rw [Function.update_of_ne htwo, hlike.irr i (by omega), hquiet i (by omega)] at hirr
      cases hirr

/-- The request is acknowledged. -/
theorem Follows.acknowledge (h : Follows H p s) (hcalm : p.Calm H)
    (hflag : s.pc.interruptFlag = true) {r : ℕ × Pc} (hack : s.pc.acknowledge = some r) :
    ∃ i < 2, ∃ master : Chip, r = (0x20 + i, { s.pc with master }) ∧ master.Like p.master ∧
      master.isr = Function.update s.pc.master.isr i true ∧
      p.gate 0x20 = H.pitGate ∧ p.gate 0x21 = H.keyboardGate := by
  rw [Pc.acknowledge] at hack
  dsimp only at hack
  split at hack
  · cases hack
  · rename_i i hreq
    rw [h.slave] at hreq
    obtain ⟨hi, hslave, htwo, hoffset, hpit, hkey⟩ :=
      hcalm.request (h.interruptFlag ▸ hflag) h.master hreq
    rw [if_neg (show i ≠ 2 by omega)] at hack
    obtain rfl := Option.some.inj hack
    refine ⟨i, hi, Chip.serve
      { s.pc.master with irr := Function.update s.pc.master.irr 2 s.pc.slave.request.isSome } i,
      by rw [← hoffset, ← h.master.offset], ⟨fun j hj ↦ ?_, h.master.imr, h.master.offset,
        h.master.icw, h.master.single, h.master.icw4⟩, rfl, hpit, hkey⟩
    rw [Chip.serve, h.slave, hslave]
    dsimp only
    rw [Function.update_of_ne (by omega)]
    by_cases hj' : j = 2
    · rw [hj', Function.update_self, htwo]
      rfl
    · rw [Function.update_of_ne hj']
      exact h.master.irr j hj

/-- When no handler runs, no line of the first controller is in service. -/
theorem Follows.isr_of_none (h : Follows H p s) (hnone : s.handler = none) :
    s.pc.master.isr = fun _ ↦ false := by
  obtain ⟨-, hisr⟩ | ⟨c, hc, -⟩ := h.service
  · exact hisr
  · rw [hnone] at hc
    cases hc

/-- **An interrupt is taken.** -/
theorem Follows.deliver (h : Follows H p s) (hcalm : p.Calm H) (hstep : s.deliver H = some s') :
    Follows H p s' ∧ s'.code = s.code := by
  rw [Interruptible.deliver] at hstep
  split_ifs at hstep with hcan
  obtain ⟨hhandler, hflag⟩ := hcan
  have hnone := Option.isNone_iff_eq_none.mp hhandler
  have hisr := h.isr_of_none hnone
  have hticks := h.ticks
  rw [hnone] at hticks
  obtain ⟨r, hack, rfl⟩ := Option.map_eq_some_iff.mp hstep
  obtain ⟨i, hi, master, rfl, hlike, hserve, hpit, hkey⟩ := h.acknowledge hcalm hflag hack
  have hone : Function.update s.pc.master.isr i true = (· == i) := funext fun j ↦ by
    by_cases hj : j = i
    · rw [hj, Function.update_self, beq_self_eq_true]
    · rw [Function.update_of_ne hj, hisr, beq_false_of_ne hj]
  obtain ⟨q, hq⟩ : ∃ q : Pc, q = { s.pc with master } := ⟨_, rfl⟩
  have hidt : q.idt = p.idt := hq ▸ h.idt
  have hgate := Pc.gate_congr hidt
  dsimp only
  rw [← hq, hgate]
  have hlike' : q.master.Like p.master := hq ▸ hlike
  have hisr' : q.master.isr = (· == i) := by rw [hq, ← hone, ← hserve]
  have hsame : q.slave = s.pc.slave ∧ q.interruptFlag = s.pc.interruptFlag ∧ q.ticks = s.pc.ticks := by
    rw [hq]
    exact ⟨rfl, rfl, rfl⟩
  have hpitCode : H.codeAt H.pitGate.handler = .pitHandler := if_pos rfl
  have hkeyCode : H.codeAt H.keyboardGate.handler = .keyboardHandler :=
    (if_neg fun heq ↦ H.distinct heq.symm).trans (if_pos rfl)
  refine ⟨⟨hlike', hsame.1.trans h.slave, hidt, hsame.2.1.trans h.interruptFlag,
    Or.inr ⟨_, rfl, ?_⟩, hsame.1 ▸ h.slaveService, fun e he ↦ ?_, ?_⟩, rfl⟩
  · rw [hisr']
    rcases (show i = 0 ∨ i = 1 by omega) with rfl | rfl
    · rw [Nat.add_zero, hpit, hpitCode]
      exact .pit
    · rw [hkey, hkeyCode]
      exact .keyboard
  · rcases List.mem_cons.mp he with rfl | he
    · rcases (show i = 0 ∨ i = 1 by omega) with rfl | rfl
      · exact Or.inl (by rw [Nat.add_zero, hpit])
      · exact Or.inr (by rw [hkey])
    · exact h.entered e he
  · dsimp only
    rw [hsame.2.2, List.countP_cons]
    rcases (show i = 0 ∨ i = 1 by omega) with rfl | rfl
    · have hone : ((0x20 + 0, p.gate (0x20 + 0)).1 == 0x20) = true := rfl
      rw [if_pos hone, UInt64.ofNat_add, ← hticks, Nat.add_zero, hpit, hpitCode]
      exact congrArg (· + 1) (UInt64.add_zero s.pc.ticks).symm
    · have hother : ¬((0x20 + 1, H.keyboardGate).1 == 0x20) = true := Bool.false_ne_true
      rw [hkey, hkeyCode, if_neg hother, Nat.add_zero, ← hticks]
      rfl

/-- **An access of the code.** -/
theorem Follows.code_step (h : Follows H p s) {Q : Pc → Prop} (hsafe : s.code.Safe H Q p)
    (hnone : s.handler = none) (hstep : s.cpu = some s') :
    ∃ p', Follows H p' s' ∧ s'.code.Safe H Q p' := by
  have hisr := h.isr_of_none hnone
  rw [Interruptible.cpu, hnone] at hstep
  dsimp only at hstep
  obtain ⟨c, hc⟩ : ∃ c, c = s.code := ⟨_, rfl⟩
  obtain ⟨hmaster, hslave, hidt, hflag, -, hslaveIsr, hentered, hticks⟩ := h
  rw [hnone] at hticks
  rw [← hc] at hsafe hstep
  cases c with
  | done => cases hstep
  | inb port k =>
    obtain rfl := Option.some.inj hstep
    obtain ⟨-, hport, hrest⟩ := hsafe
    have hread : s.pc.inb port = p.inb port := by
      rcases hport with rfl | rfl
      · exact hmaster.imr
      · exact congrArg Chip.imr hslave
    exact ⟨p, ⟨hmaster, hslave, hidt, hflag, Or.inl ⟨rfl, hisr⟩, hslaveIsr, hentered,
      hticks⟩, hread ▸ hrest⟩
  | outb port v k =>
    obtain rfl := Option.some.inj hstep
    obtain ⟨-, hport, hrest⟩ := hsafe
    obtain ⟨hmaster', hslave', hisr', hslaveIsr'⟩ :=
      Pc.outb_like hmaster hslave hport hisr hslaveIsr
    obtain ⟨hidt', hflag', hticks'⟩ := s.pc.outb_rest port v
    obtain ⟨hidt'', hflag'', -⟩ := p.outb_rest port v
    exact ⟨p.outb port v, ⟨hmaster', hslave', (hidt'.trans hidt).trans hidt''.symm,
      (hflag'.trans hflag).trans hflag''.symm, Or.inl ⟨rfl, hisr'⟩, hslaveIsr', hentered,
      by rw [hticks']; exact hticks⟩, hrest⟩
  | setDescriptor vector isr flags k =>
    obtain rfl := Option.some.inj hstep
    exact ⟨p.setDescriptor vector isr flags, ⟨hmaster, hslave,
      congrArg (fun idt : ByteStore ↦ idt.splice (vector * 8) (Pc.descriptor isr flags)) hidt, hflag,
      Or.inl ⟨rfl, hisr⟩, hslaveIsr, hentered, hticks⟩, hsafe.2⟩
  | cli k =>
    obtain rfl := Option.some.inj hstep
    exact ⟨{ p with interruptFlag := false }, ⟨hmaster, hslave, hidt, rfl, Or.inl ⟨rfl, hisr⟩,
      hslaveIsr, hentered, hticks⟩, hsafe.2⟩
  | sti k =>
    obtain rfl := Option.some.inj hstep
    exact ⟨{ p with interruptFlag := true }, ⟨hmaster, hslave, hidt, rfl, Or.inl ⟨rfl, hisr⟩,
      hslaveIsr, hentered, hticks⟩, hsafe.2⟩
  | tick k => exact hsafe.elim
  | iret => exact hsafe.elim

end Step

end AbOS
