import AbOS.Fs.Path

/-!
# The keyboard

`keyboard_handler` turns a scan code into a character, with a table and the state of the modifier
keys, and edits the line in `input_buffer`.  `decode` is the first half, which only depends on the
codes so far, and `Input.edit` the second.

What the line should be is said by `Typed`: the finished lines, and the text since the last Enter,
from which a backspace takes the last character.  As long as the buffer holds this text
(`Input.Holds`), an edit keeps it so (`Input.Holds.edit`).

The handler does not look at the size of the buffer.  A character that would be written behind it
has no result in the model.
-/

set_option autoImplicit false

namespace AbOS

/-! ## From scan codes to characters -/

def lshiftMake : UInt8 := 0x2A

def rshiftMake : UInt8 := 0x36

def lshiftBreak : UInt8 := 0xAA

def rshiftBreak : UInt8 := 0xB6

def lctrlMake : UInt8 := 0x1D

def lctrlBreak : UInt8 := 0x9D

def capslock : UInt8 := 0x3A

/-- The code that announces another one; nothing is done with it. -/
def extended : UInt8 := 0xE0

/-- The character of the backspace key. -/
def backspace : UInt8 := 0x08

/-- The character of the enter key. -/
def newline : UInt8 := 0x0A

/-- `key_info_t`, whose field `key` is not used. -/
structure KeyInfo where
  shift : Bool
  ctrl : Bool
  caps : Bool
  deriving DecidableEq, Repr

/-- The static variables of the handler. -/
structure Keys where
  info : KeyInfo
  e0 : Bool
  deriving DecidableEq, Repr

/-- No key is held down. -/
def Keys.released : Keys := ⟨⟨false, false, false⟩, false⟩

/-- The characters of the scan codes; the codes behind have none. -/
def keymap : List UInt8 :=
  [0x00, 0x1B, 0x31, 0x32, 0x33, 0x34, 0x35, 0x36, 0x37, 0x38, 0x39, 0x30, 0x2D, 0x3D, 0x08, 0x09,
    0x71, 0x77, 0x65, 0x72, 0x74, 0x79, 0x75, 0x69, 0x6F, 0x70, 0x5B, 0x5D, 0x0A, 0x00, 0x61, 0x73,
    0x64, 0x66, 0x67, 0x68, 0x6A, 0x6B, 0x6C, 0x3B, 0x27, 0x60, 0x00, 0x5C, 0x7A, 0x78, 0x63, 0x76,
    0x62, 0x6E, 0x6D, 0x2C, 0x2E, 0x2F, 0x00, 0x2A, 0x00, 0x20, 0x00]

/-- `num_row_shifts`. -/
def numRowShifts : List UInt8 := [0x29, 0x21, 0x40, 0x23, 0x24, 0x25, 0x5E, 0x26, 0x2A, 0x28]

/-- The modifiers after a scan code. -/
def KeyInfo.update (info : KeyInfo) (key : UInt8) : KeyInfo :=
  if key = lshiftMake ∨ key = rshiftMake then { info with shift := true }
  else if key = lshiftBreak ∨ key = rshiftBreak then { info with shift := false }
  else if key = lctrlMake then { info with ctrl := true }
  else if key = lctrlBreak then { info with ctrl := false }
  else if key = capslock ∧ info.caps = true then { info with caps := false }
  else if key = capslock ∧ info.caps = false then { info with caps := true }
  else info

/-- The character of a key under shift or caps lock. -/
def shiftedKey (keypressed : UInt8) : UInt8 :=
  if 0x61 ≤ keypressed ∧ keypressed ≤ 0x7A then keypressed - 0x20
  else if 0x30 ≤ keypressed ∧ keypressed ≤ 0x39 then
    numRowShifts.getD (keypressed - 0x30).toNat 0
  else
    let keypressed := if keypressed = 0x3D then 0x2B else keypressed
    if keypressed = 0x2F then 0x3F else keypressed

/-- The first half of `keyboard_handler`: the modifiers and the character, or 0 if there is none. -/
def decode (keys : Keys) (key : UInt8) : Keys × UInt8 :=
  if key = 0 then (keys, 0)
  else
    let info := keys.info.update key
    -- only reached when the code is no modifier, and it is none
    let e0 := keys.e0 || key == extended
    let keypressed :=
      if key < 0x80 ∧ e0 = false then
        let keypressed := keymap.getD key.toNat 0
        if info.shift = true ∨ info.caps = true then shiftedKey keypressed else keypressed
      else 0
    (⟨info, false⟩, keypressed)

/-! ## The buffer -/

/-- `INPUT_BUFFER_SIZE`. -/
def inputBufferSize : ℕ := 256

/-- `input_buffer`, `input_pos` and `input_ready`. -/
structure Input where
  buffer : ByteStore
  pos : ℕ
  ready : Bool

namespace Input

/-- The second half of `keyboard_handler`: a character is entered into the buffer. -/
def edit (s : Input) (keypressed : UInt8) : Option Input :=
  if keypressed = 0 then some s
  else if keypressed = backspace then
    if 0 < s.pos then some { s with pos := s.pos - 1, buffer := s.buffer.splice (s.pos - 1) [0] }
    else some s
  else if keypressed = newline then some { s with ready := true, pos := 0 }
  else if s.pos + 1 < inputBufferSize then
    some { s with buffer := s.buffer.splice s.pos [keypressed, 0], pos := s.pos + 1 }
  else none

/-- The string at `input_buffer`. -/
def line (s : Input) : List UInt8 := cString (s.buffer.slice 0 inputBufferSize)

/-- The text up to the current position is in the buffer, and ends there. -/
structure Holds (s : Input) (text : List UInt8) : Prop where
  pos : s.pos < inputBufferSize
  text : s.buffer.slice 0 s.pos = text
  nonzero : ∀ i, i < s.pos → s.buffer i ≠ 0
  sentinel : s.buffer s.pos = 0

end Input

/-! ## What was typed -/

/-- The lines that Enter has finished, and what was typed since. -/
structure Typed where
  lines : List (List UInt8)
  pending : List UInt8
  deriving DecidableEq, Repr

/-- One more character is typed. -/
def Typed.type (t : Typed) (keypressed : UInt8) : Typed :=
  if keypressed = 0 then t
  else if keypressed = backspace then { t with pending := t.pending.dropLast }
  else if keypressed = newline then ⟨t.lines ++ [t.pending], []⟩
  else { t with pending := t.pending ++ [keypressed] }

namespace Input

variable {s s' : Input} {text : List UInt8}

/-- Only a character behind the buffer has no result. -/
theorem edit_eq_none_iff {keypressed : UInt8} : s.edit keypressed = none ↔
    keypressed ≠ 0 ∧ keypressed ≠ backspace ∧ keypressed ≠ newline ∧ inputBufferSize ≤ s.pos + 1 := by
  rw [edit]
  split
  · simp [*]
  · split
    · split <;> simp [*]
    · split
      · simp [*]
      · split
        · simp [*]
        · simp [*]
          omega

/-- A reader of the buffer finds the text. -/
theorem Holds.line_eq (h : s.Holds text) : s.line = text := by
  have hzero : s.buffer (0 + s.pos) = 0 := by rw [Nat.zero_add]; exact h.sentinel
  have hne : ∀ i, i < s.pos → s.buffer (0 + i) ≠ 0 := fun i hi ↦ by
    rw [Nat.zero_add]
    exact h.nonzero i hi
  rw [line, Fs.cString_slice h.pos hzero hne, h.text]

theorem Holds.length_eq (h : s.Holds text) : text.length = s.pos := by
  rw [← h.text, ByteStore.length_slice]

/-- The empty text. -/
theorem holds_nil (hpos : s.pos = 0) (hzero : s.buffer 0 = 0) : s.Holds [] := by
  refine ⟨by rw [hpos]; decide, by rw [hpos]; rfl, fun i hi ↦ ?_, by rw [hpos, hzero]⟩
  rw [hpos] at hi
  exact absurd hi (Nat.not_lt_zero i)

/-- A character and the new end behind the text. -/
theorem Holds.push {keypressed : UInt8} (h : s.Holds text) (hroom : s.pos + 1 < inputBufferSize)
    (hnonzero : keypressed ≠ 0) :
    ({ s with buffer := s.buffer.splice s.pos [keypressed, 0], pos := s.pos + 1 } : Input).Holds
      (text ++ [keypressed]) := by
  have hbefore : ∀ i, i < s.pos → s.buffer.splice s.pos [keypressed, 0] i = s.buffer i :=
    fun i hi ↦ ByteStore.splice_of_not_mem (Or.inl hi)
  have hat : s.buffer.splice s.pos [keypressed, 0] s.pos = keypressed :=
    ByteStore.splice_of_mem (i := 0) Nat.two_pos
  refine ⟨hroom, ?_, fun i hi ↦ ?_, ByteStore.splice_of_mem (i := 1) Nat.one_lt_two⟩
  · have hslice : (s.buffer.splice s.pos [keypressed, 0]).slice 0 s.pos = text := by
      rw [← h.text]
      exact ByteStore.slice_congr fun k hk ↦ hbefore _ (by omega)
    have hone : (s.buffer.splice s.pos [keypressed, 0]).slice (0 + s.pos) 1 = [keypressed] := by
      rw [ByteStore.slice_succ, Nat.zero_add, hat]
      rfl
    dsimp only
    rw [ByteStore.slice_append, hslice, hone]
  · dsimp only at hi ⊢
    rcases Nat.lt_succ_iff_lt_or_eq.mp hi with hlt | rfl
    · rw [hbefore i hlt]
      exact h.nonzero i hlt
    · rw [hat]
      exact hnonzero

/-- The end moves to the last character. -/
theorem Holds.pop (h : s.Holds text) (hpos : 0 < s.pos) :
    ({ s with pos := s.pos - 1, buffer := s.buffer.splice (s.pos - 1) [0] } : Input).Holds
      text.dropLast := by
  have hbefore : ∀ i, i < s.pos - 1 → s.buffer.splice (s.pos - 1) [0] i = s.buffer i :=
    fun i hi ↦ ByteStore.splice_of_not_mem (Or.inl hi)
  refine ⟨Nat.lt_of_le_of_lt (Nat.sub_le ..) h.pos, ?_, fun i hi ↦ ?_,
    ByteStore.splice_of_mem (i := 0) (by decide)⟩
  · have hslice : (s.buffer.splice (s.pos - 1) [0]).slice 0 (s.pos - 1) =
        s.buffer.slice 0 (s.pos - 1) :=
      ByteStore.slice_congr fun k hk ↦ hbefore _ (by omega)
    obtain ⟨n, hn⟩ : ∃ n, s.pos = n + 1 := ⟨s.pos - 1, by omega⟩
    dsimp only
    rw [hslice, ← h.text, hn, Nat.add_sub_cancel, ByteStore.slice_append]
    exact (List.dropLast_concat ..).symm
  · dsimp only at hi ⊢
    rw [hbefore i hi]
    exact h.nonzero i (by omega)

/-- **The buffer follows the text**, up to the next Enter. -/
theorem Holds.edit {t : Typed} {keypressed : UInt8} (h : s.Holds t.pending)
    (hline : keypressed ≠ newline) (hedit : s.edit keypressed = some s') :
    s'.Holds (t.type keypressed).pending ∧ (t.type keypressed).lines = t.lines ∧
      s'.ready = s.ready := by
  rw [Input.edit] at hedit
  rw [Typed.type]
  by_cases hnone : keypressed = 0
  · rw [if_pos hnone, Option.some.injEq] at hedit
    rw [if_pos hnone, ← hedit]
    exact ⟨h, rfl, rfl⟩
  rw [if_neg hnone] at hedit ⊢
  by_cases hback : keypressed = backspace
  · rw [if_pos hback] at hedit ⊢
    by_cases hpos : 0 < s.pos
    · rw [if_pos hpos, Option.some.injEq] at hedit
      rw [← hedit]
      exact ⟨h.pop hpos, rfl, rfl⟩
    · -- there is nothing to take back
      have hempty : t.pending = [] := List.length_eq_zero_iff.mp (by rw [h.length_eq]; omega)
      rw [if_neg hpos, Option.some.injEq] at hedit
      rw [hempty] at h ⊢
      rw [← hedit]
      exact ⟨h, rfl, rfl⟩
  · rw [if_neg hback, if_neg hline] at hedit ⊢
    split at hedit
    · cases hedit
      exact ⟨h.push ‹_› hnone, rfl, rfl⟩
    · cases hedit

end Input

end AbOS
