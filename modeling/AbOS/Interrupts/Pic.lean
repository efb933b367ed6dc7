import AbOS.Lib.ByteStore
import Mathlib.Logic.Function.Basic

/-!
# The interrupt controllers and the descriptor table

Two 8259 chips collect the requests of sixteen lines, and the descriptor table says which code the
processor enters for each vector.  This file has the chips, the table, and the code of the kernel that
sets them up: `pic.c`, `idt.c` and the part of `main` that calls them, as programs (`Code`) whose
accesses to the hardware can be told apart, since an interrupt may come between any two.

An ICW1 clears the mask register, the requests and the lines in service, and makes the chip expect
three more words; until they have come it requests nothing.

* `gate_setDescriptor` — what the processor reads from a descriptor is what `idt_set_descriptor` was
  given, and the other descriptors stay.
-/

set_option autoImplicit false

namespace AbOS

open ByteStore

/-! ## An 8259 -/

/-- An interrupt controller: requests, lines in service, mask, and the word of the initialisation
that it expects (0 if it is not being initialised). -/
structure Chip where
  irr : ℕ → Bool
  isr : ℕ → Bool
  imr : ℕ
  offset : ℕ
  icw : ℕ
  single : Bool
  icw4 : Bool

namespace Chip

/-- The line that the chip asks to be served: the first request that is not masked, unless a line as
urgent is in service. -/
def request (c : Chip) : Option ℕ :=
  if c.icw = 0 then
    ((List.range 8).find? fun i ↦ c.irr i && !c.imr.testBit i).filter fun i ↦
      !(List.range (i + 1)).any c.isr
  else none

/-- The request is taken. -/
def serve (c : Chip) (line : ℕ) : Chip :=
  { c with irr := Function.update c.irr line false, isr := Function.update c.isr line true }

/-- The end of the interrupt: the most urgent line is no longer in service. -/
def endOfInterrupt (c : Chip) : Chip :=
  match (List.range 8).find? c.isr with
  | some i => { c with isr := Function.update c.isr i false }
  | none => c

/-- A write to the command port: ICW1, OCW3 (which chooses what is read from this port) or OCW2. -/
def command (c : Chip) (v : ℕ) : Chip :=
  if v.testBit 4 then
    { c with
      irr := fun _ ↦ false
      isr := fun _ ↦ false
      imr := 0
      icw := 2
      single := v.testBit 1
      icw4 := v.testBit 0 }
  else if v.testBit 3 then c
  else if v &&& 0xE0 = 0x20 then c.endOfInterrupt
  else c

/-- A write to the data port: ICW2, ICW3, ICW4 or the mask. -/
def data (c : Chip) (v : ℕ) : Chip :=
  if c.icw = 2 then
    { c with offset := v / 8 * 8, icw := if c.single then (if c.icw4 then 4 else 0) else 3 }
  else if c.icw = 3 then { c with icw := if c.icw4 then 4 else 0 }
  else if c.icw = 4 then { c with icw := 0 }
  else { c with imr := v }

end Chip

/-! ## What code and interrupts share -/

/-- The two chips, the descriptor table, the interrupt flag of the code that is interrupted, the
counter of the timer, and the byte in the keyboard's port. -/
structure Pc where
  master : Chip
  slave : Chip
  idt : ByteStore
  interruptFlag : Bool
  ticks : UInt64
  scancode : ℕ

/-- What the processor takes from a descriptor. -/
structure Gate where
  handler : ℕ
  segsel : ℕ
  attributes : UInt8
  deriving DecidableEq

namespace Pc

/-- `inb`. -/
def inb (p : Pc) (port : ℕ) : ℕ :=
  if port = 0x21 then p.master.imr else if port = 0xA1 then p.slave.imr else p.scancode

/-- `outb`; the timer's ports do not matter here. -/
def outb (p : Pc) (port v : ℕ) : Pc :=
  if port = 0x20 then { p with master := p.master.command v }
  else if port = 0x21 then { p with master := p.master.data v }
  else if port = 0xA0 then { p with slave := p.slave.command v }
  else if port = 0xA1 then { p with slave := p.slave.data v }
  else p

/-- The bytes of an `idt_entry_t`. -/
def descriptor (isr : ℕ) (flags : UInt8) : List UInt8 :=
  leBytes 2 (isr &&& 0xFFFF) ++ (leBytes 2 0x08 ++ ([0, flags] ++ leBytes 2 (isr >>> 16)))

/-- `idt_set_descriptor`. -/
def setDescriptor (p : Pc) (vector isr : ℕ) (flags : UInt8) : Pc :=
  { p with idt := p.idt.splice (vector * 8) (descriptor isr flags) }

/-- The descriptor as the processor reads it. -/
def gate (p : Pc) (vector : ℕ) : Gate where
  handler := ofLe (p.idt.slice (vector * 8) 2) + ofLe (p.idt.slice (vector * 8 + 6) 2) * 2 ^ 16
  segsel := ofLe (p.idt.slice (vector * 8 + 2) 2)
  attributes := p.idt (vector * 8 + 5)

/-- The processor acknowledges a request: the vector, and what the chips do.  The second chip is on
line 2 of the first. -/
def acknowledge (p : Pc) : Option (ℕ × Pc) :=
  let master :=
    { p.master with irr := Function.update p.master.irr 2 p.slave.request.isSome }
  match master.request with
  | none => none
  | some i =>
    match if i = 2 then p.slave.request else none with
    | some j =>
      some (p.slave.offset + j, { p with master := master.serve i, slave := p.slave.serve j })
    | none => some (master.offset + i, { p with master := master.serve i })

/-- A device asks for an interrupt. -/
def raise (p : Pc) (line : ℕ) : Pc :=
  if line < 8 then
    { p with master := { p.master with irr := Function.update p.master.irr line true } }
  else
    { p with slave := { p.slave with irr := Function.update p.slave.irr (line - 8) true } }

end Pc

/-! ## Programs -/

/-- Code, as a sequence of accesses to what is shared. -/
inductive Code where
  | done
  | inb (port : ℕ) (k : ℕ → Code)
  | outb (port v : ℕ) (k : Code)
  | setDescriptor (vector isr : ℕ) (flags : UInt8) (k : Code)
  | cli (k : Code)
  | sti (k : Code)
  | tick (k : Code)
  | iret

/-- The next access, and what comes after it. -/
def Code.next (p : Pc) : Code → Option (Pc × Code)
  | .done => none
  | .inb port k => some (p, k (p.inb port))
  | .outb port v k => some (p.outb port v, k)
  | .setDescriptor vector isr flags k => some (p.setDescriptor vector isr flags, k)
  | .cli k => some ({ p with interruptFlag := false }, k)
  | .sti k => some ({ p with interruptFlag := true }, k)
  | .tick k => some ({ p with ticks := p.ticks + 1 }, k)
  | .iret => none

/-- `PIC_sendEOI`. -/
def picSendEOI (irq : ℕ) (k : Code) : Code :=
  if 8 ≤ irq then .outb 0xA0 0x20 (.outb 0x20 0x20 k) else .outb 0x20 0x20 k

/-- `PIC_remap`. -/
def picRemap (offset1 : ℕ) (k : Code) : Code :=
  .inb 0x21 fun masterMask ↦ .inb 0xA1 fun slaveMask ↦
    .outb 0x20 0x11 <| .outb 0xA0 0x11 <|
    .outb 0x21 offset1 <| .outb 0xA1 ((offset1 + 0x08) % 2 ^ 8) <|
    .outb 0x21 0x04 <| .outb 0xA1 0x02 <|
    .outb 0x21 0x01 <| .outb 0xA1 0x01 <|
    .outb 0x21 masterMask <| .outb 0xA1 slaveMask k

/-- `pic_disable`. -/
def picDisable (k : Code) : Code := .outb 0x21 0xFF <| .outb 0xA1 0xFF k

/-- `IRQ_set_mask`. -/
def irqSetMask (line : ℕ) (k : Code) : Code :=
  let port := if line < 8 then 0x21 else 0xA1
  let line := if line < 8 then line else line - 8
  .inb port fun v ↦ .outb port ((v ||| 1 <<< line) % 2 ^ 8) k

/-- `IRQ_clear_mask`. -/
def irqClearMask (line : ℕ) (k : Code) : Code :=
  let port := if line < 8 then 0x21 else 0xA1
  let line := if line < 8 then line else line - 8
  .inb port fun v ↦ .outb port ((v &&& (2 ^ 32 - 1 - 1 <<< line)) % 2 ^ 8) k

/-- `set_PIT`. -/
def setPit (channel operatingMode frequency : ℕ) (k : Code) : Code :=
  if 2 < channel then k
  else
    .cli <| .outb 0x43 ((channel <<< 6 ||| 0x3 <<< 4 ||| operatingMode <<< 1) % 2 ^ 8) <|
    .outb (0x40 + channel) (frequency % 2 ^ 8) <|
    .outb (0x40 + channel) (frequency >>> 8 % 2 ^ 8) <| .sti k

/-- A loop of `initIDT`. -/
def setDescriptors (stub : ℕ → ℕ) : ℕ → ℕ → Code → Code
  | _, 0, k => k
  | vector, n + 1, k =>
    .setDescriptor vector (stub vector) 0x8E (setDescriptors stub (vector + 1) n k)

/-- `initIDT`.  Until `lidt` there is no table, but there are no interrupts either. -/
def initIDT (stub : ℕ → ℕ) (k : Code) : Code :=
  setDescriptors stub 0 32 <| setDescriptors stub 32 16 <| setDescriptors stub 48 208 <| .sti k

/-- Where the handlers are.  `stub` is what stands at `isr_stub_table`, which has 32 words, and
after it. -/
structure Handlers where
  divBy0 : ℕ
  pit : ℕ
  keyboard : ℕ
  pageFault : ℕ
  syscall : ℕ
  gpf : ℕ
  stub : ℕ → ℕ
  pit_lt : pit < 2 ^ 32
  keyboard_lt : keyboard < 2 ^ 32
  distinct : pit ≠ keyboard

/-- What `main` does with the hardware of interrupts. -/
def mainInterrupts (H : Handlers) : Code :=
  picDisable <| initIDT H.stub <|
  .setDescriptor 0 H.divBy0 0x8E <|
  .setDescriptor 0x20 H.pit 0x8E <|
  .setDescriptor 0x21 H.keyboard 0x8E <|
  .setDescriptor 0x0E H.pageFault 0x8E <|
  .setDescriptor 0x80 H.syscall 0xEE <|
  .setDescriptor 0x0D H.gpf 0x8E <|
  picRemap 0x20 <| irqClearMask 0 <| irqClearMask 1 <| setPit 0 2 11931 .done

/-- `PIT_handler`. -/
def Code.pitHandler : Code := .tick <| picSendEOI 0 .iret

/-- `keyboard_handler`, which does nothing else to what is shared. -/
def Code.keyboardHandler : Code := .inb 0x60 fun _ ↦ picSendEOI 1 .iret

/-! ## Descriptors -/

theorem length_descriptor (isr : ℕ) (flags : UInt8) : (Pc.descriptor isr flags).length = 8 := by
  simp [Pc.descriptor]

/-- The fields of a descriptor whose bytes are in the table. -/
theorem gate_of_bytes {p : Pc} {vector isr : ℕ} {flags : UInt8}
    (h : p.idt.slice (vector * 8) 8 = Pc.descriptor isr flags) :
    p.gate vector = ⟨isr % 2 ^ 32, 8, flags⟩ := by
  have hsplit : p.idt.slice (vector * 8) 8 = p.idt.slice (vector * 8) 2 ++
      (p.idt.slice (vector * 8 + 2) 2 ++ ([p.idt (vector * 8 + 4), p.idt (vector * 8 + 5)] ++
        p.idt.slice (vector * 8 + 6) 2)) := rfl
  rw [hsplit, Pc.descriptor] at h
  obtain ⟨hlow, h⟩ := List.append_inj h (by rw [length_slice, length_leBytes])
  obtain ⟨hseg, h⟩ := List.append_inj h (by rw [length_slice, length_leBytes])
  obtain ⟨hattr, hhigh⟩ := List.append_inj h rfl
  rw [Pc.gate, hlow, hseg, hhigh, ofLe_leBytes, ofLe_leBytes, ofLe_leBytes]
  refine Gate.mk.injEq .. ▸ ⟨?_, rfl, ?_⟩
  · rw [show (0xFFFF : ℕ) = 2 ^ 16 - 1 from rfl, Nat.and_two_pow_sub_one_eq_mod,
      Nat.shiftRight_eq_div_pow]
    omega
  · exact (List.cons.inj (List.cons.inj hattr).2).1

/-- **What is set is what is read**, and the other descriptors stay. -/
theorem gate_setDescriptor (p : Pc) (vector isr : ℕ) (flags : UInt8) (w : ℕ) :
    (p.setDescriptor vector isr flags).gate w =
      if w = vector then ⟨isr % 2 ^ 32, 8, flags⟩ else p.gate w := by
  by_cases hw : w = vector
  · rw [if_pos hw, hw]
    refine gate_of_bytes ?_
    rw [Pc.setDescriptor, ← length_descriptor isr flags]
    exact slice_splice_self ..
  · have hout : ∀ i < 8, (p.setDescriptor vector isr flags).idt (w * 8 + i) = p.idt (w * 8 + i) :=
      fun i hi ↦ splice_of_not_mem (by rw [length_descriptor]; omega)
    have hslice : ∀ off n, off + n ≤ 8 →
        (p.setDescriptor vector isr flags).idt.slice (w * 8 + off) n =
          p.idt.slice (w * 8 + off) n := fun off n hn ↦
      slice_congr fun k hk ↦ by
        rw [Nat.add_assoc]
        exact hout _ (by omega)
    rw [if_neg hw, Pc.gate, Pc.gate, hout 5 (by decide), hslice 2 2 (by decide),
      hslice 6 2 (by decide), show w * 8 = w * 8 + 0 from rfl, hslice 0 2 (by decide)]

end AbOS
