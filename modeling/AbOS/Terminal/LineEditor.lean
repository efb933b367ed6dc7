import AbOS.Terminal.Console
import AbOS.Terminal.Kprintf

/-!
# The line editor

`keyboard_handler` shows on the screen what it does to the line: the character, a backspace, or a
new line.  `Editor` has the variables of the handler and the console, and counts the characters that
a backspace takes back from the screen.

What the line should be is said by `Edited`, which is given the same scan codes and has its own
modifiers.  It skips the code that follows `0xE0`, whatever it is.  The handler means to do this,
too: it sets `e0` and looks at it before it decodes a code.  But it also clears `e0` at the end of
the same interrupt, so that the next code is decoded as usual.

One interrupt keeps the two together unless a code that follows `0xE0` has an effect
(`Follows.step_iff`), and so does a run of interrupts (`edits_of_harmless`).
-/

set_option autoImplicit false

namespace AbOS

/-! ## The handler -/

/-- The console, and how many characters have been taken back from it. -/
structure Echo where
  console : Console
  removed : ℕ

namespace Echo

/-- `putc`; a backspace takes a character back if there is one in front of the cursor. -/
def putc (fuel : ℕ) (s : Echo) (c : UInt8) : Option Echo :=
  match Console.putc fuel s.console c with
  | none => none
  | some console =>
    some ⟨console, if c = backspace ∧ 0 < s.console.position then s.removed + 1 else s.removed⟩

/-- `kprintf`, with a format that takes no string. -/
def kprintf (fuel : ℕ) (s : Echo) (fmt : List UInt8) (args : VaList) : Option Echo :=
  match AbOS.kprintf fuel (fun _ ↦ 0) fmt args with
  | none => none
  | some (output, _) => Run.exec (putc fuel) s output

end Echo

/-- The static variables of the handler, the buffer and the screen. -/
structure Editor where
  keys : Keys
  input : Input
  echo : Echo

namespace Editor

/-- What the second half of `keyboard_handler` prints. -/
def print (fuel : ℕ) (s : Editor) (keypressed : UInt8) : Option Echo :=
  if keypressed = 0 then some s.echo
  else if keypressed = backspace then
    if 0 < s.input.pos then s.echo.kprintf fuel [backspace] ⟨fun _ ↦ 0, 0⟩ else some s.echo
  else if keypressed = newline then s.echo.kprintf fuel [newline] ⟨fun _ ↦ 0, 0⟩
  else
    -- a `char` is passed as an `int`
    s.echo.kprintf fuel [percent, 0x63] ⟨fun _ ↦ keypressed.toBitVec.signExtend 32, 0⟩

/-- `keyboard_handler`. -/
def keyboardHandler (fuel : ℕ) (s : Editor) (key : UInt8) : Option Editor :=
  let (keys, keypressed) := decode s.keys key
  match s.input.edit keypressed with
  | none => none
  | some input =>
    match s.print fuel keypressed with
    | none => none
    | some echo => some ⟨keys, input, echo⟩

/-- The assignments of `readline`; the characters on the screen are counted from here on. -/
def readline (s : Editor) : Editor :=
  ⟨s.keys, ⟨s.input.buffer.splice 0 [0], 0, false⟩, s.echo.console, 0⟩

/-- What is known between two interrupts. -/
structure Idle (s : Editor) : Prop where
  e0 : s.keys.e0 = false
  onScreen : s.echo.console.OnScreen

end Editor

/-! ## The line -/

/-- The modifiers after a scan code: a make code presses a key, and a break code releases it. -/
def KeyInfo.after (info : KeyInfo) (key : UInt8) : KeyInfo :=
  if key < 0x80 then
    ⟨info.shift || key == lshiftMake || key == rshiftMake, info.ctrl || key == lctrlMake,
      info.caps != (key == capslock)⟩
  else
    ⟨info.shift && key != lshiftBreak && key != rshiftBreak, info.ctrl && key != lctrlBreak,
      info.caps⟩

/-- The character of a make code; a break code has none. -/
def KeyInfo.character (info : KeyInfo) (key : UInt8) : UInt8 :=
  if key < 0x80 then
    if info.shift = true ∨ info.caps = true then shiftedKey (keymap.getD key.toNat 0)
    else keymap.getD key.toNat 0
  else 0

/-- Shift and caps lock are the same; only they decide about characters. -/
def KeyInfo.Agrees (info info' : KeyInfo) : Prop :=
  info.shift = info'.shift ∧ info.caps = info'.caps

instance (info info' : KeyInfo) : Decidable (info.Agrees info') :=
  inferInstanceAs (Decidable (_ ∧ _))

/-- The text, how many characters were taken back from it, and whether Enter was pressed. -/
structure EditedLine where
  text : List UInt8
  removed : ℕ
  entered : Bool
  deriving DecidableEq, Repr

/-- A character is typed. -/
def EditedLine.type (line : EditedLine) (keypressed : UInt8) : EditedLine :=
  if keypressed = 0 then line
  else if keypressed = backspace then
    ⟨line.text.dropLast, if line.text = [] then line.removed else line.removed + 1, line.entered⟩
  else if keypressed = newline then { line with entered := true }
  else { line with text := line.text ++ [keypressed] }

/-- The line with the modifiers; `skips` if the next code is skipped. -/
structure Edited where
  info : KeyInfo
  skips : Bool
  line : EditedLine
  deriving DecidableEq, Repr

namespace Edited

/-- Nothing was typed. -/
def start (info : KeyInfo) (skips : Bool) : Edited := ⟨info, skips, ⟨[], 0, false⟩⟩

/-- One scan code; behind `0xE0` it is skipped. -/
def step (r : Edited) (key : UInt8) : Edited :=
  if r.skips = true then { r with skips := false }
  else
    ⟨r.info.after key, key == extended, r.line.type ((r.info.after key).character key)⟩

/-- Enter was not pressed before, and the text stays shorter than the buffer. -/
def Fits (r : Edited) (key : UInt8) : Prop :=
  r.line.entered = false ∧ (r.step key).line.text.length < inputBufferSize

/-- If the code follows `0xE0`, it changes neither shift nor caps lock, and its character, if it has
one, is a backspace that takes back nothing. -/
def Harmless (r : Edited) (key : UInt8) : Prop :=
  r.skips = true → (r.info.after key).Agrees r.info ∧
    (r.info.character key = 0 ∨ r.info.character key = backspace ∧ r.line.text = [])

instance (r : Edited) (key : UInt8) : Decidable (r.Fits key) := inferInstanceAs (Decidable (_ ∧ _))

instance (r : Edited) (key : UInt8) : Decidable (r.Harmless key) :=
  inferInstanceAs (Decidable (_ → _))

/-- The condition holds of every code at the moment when it is delivered. -/
abbrev Meets (C : Edited → UInt8 → Prop) (r : Edited) (codes : List UInt8) : Prop :=
  Run.Meets (fun r key ↦ some (r.step key)) C r codes

end Edited

/-- **The line editor has done what it should**: the line is finished when Enter was pressed, the
buffer then holds the text and its terminator, and as many characters were taken back from the
screen as from the text. -/
structure Editor.Edits (s : Editor) (line : EditedLine) : Prop where
  ready : s.input.ready = line.entered
  text : line.entered = true →
    s.input.buffer.slice 0 (line.text.length + 1) = line.text ++ [0]
  removed : s.echo.removed = line.removed

/-! ## Decoding -/

section decoding

variable {info info' info'' : KeyInfo} {keys : Keys} {c : UInt8}

theorem KeyInfo.update_eq_after (info : KeyInfo) (key : UInt8) :
    info.update key = info.after key := by
  by_cases hmodifier : key ∈
      [lshiftMake, rshiftMake, lshiftBreak, rshiftBreak, lctrlMake, lctrlBreak, capslock]
  · have hall : ∀ shift ctrl caps : Bool, ∀ key ∈
        [lshiftMake, rshiftMake, lshiftBreak, rshiftBreak, lctrlMake, lctrlBreak, capslock],
        (⟨shift, ctrl, caps⟩ : KeyInfo).update key = (⟨shift, ctrl, caps⟩ : KeyInfo).after key := by
      decide +kernel
    exact hall info.shift info.ctrl info.caps key hmodifier
  · simp only [List.mem_cons, List.not_mem_nil, or_false, not_or] at hmodifier
    obtain ⟨h1, h2, h3, h4, h5, h6, h7⟩ := hmodifier
    have hnone : info.update key = info := by simp [update, h1, h2, h3, h4, h5, h6, h7]
    rw [hnone, after]
    simp only [bne, beq_false_of_ne h1, beq_false_of_ne h2, beq_false_of_ne h3, beq_false_of_ne h4,
      beq_false_of_ne h5, beq_false_of_ne h6, beq_false_of_ne h7, Bool.or_false, Bool.not_false,
      Bool.and_true]
    obtain ⟨shift, ctrl, caps⟩ := info
    split <;> cases caps <;> rfl

theorem KeyInfo.Agrees.symm (h : info.Agrees info') : info'.Agrees info := ⟨h.1.symm, h.2.symm⟩

theorem KeyInfo.Agrees.trans (h : info.Agrees info') (h' : info'.Agrees info'') :
    info.Agrees info'' :=
  ⟨h.1.trans h'.1, h.2.trans h'.2⟩

theorem KeyInfo.Agrees.after (h : info.Agrees info') (key : UInt8) :
    (info.after key).Agrees (info'.after key) := by
  rw [KeyInfo.after, KeyInfo.after, h.1, h.2]
  split <;> exact ⟨rfl, rfl⟩

theorem KeyInfo.Agrees.character_eq (h : info.Agrees info') (key : UInt8) :
    info.character key = info'.character key := by
  rw [character, character, h.1, h.2]

/-- **Decoding** does not depend on the codes before, except for the modifiers. -/
theorem decode_eq (h : keys.e0 = false) (key : UInt8) :
    decode keys key =
      (⟨keys.info.after key, false⟩, (keys.info.after key).character key) := by
  obtain ⟨⟨shift, ctrl, caps⟩, e0⟩ := keys
  obtain rfl : e0 = false := h
  by_cases hzero : key = 0
  · rw [hzero]
    cases shift <;> cases ctrl <;> cases caps <;> rfl
  rw [decode, if_neg hzero]
  dsimp only
  rw [KeyInfo.update_eq_after, Bool.false_or, KeyInfo.character]
  by_cases hmake : key < 0x80
  · have hother : (key == extended) = false := beq_false_of_ne fun he ↦ by
      rw [he] at hmake
      exact absurd hmake (by decide)
    rw [if_pos ⟨hmake, hother⟩, if_pos hmake]
  · rw [if_neg fun hc ↦ hmake hc.1, if_neg hmake]

/-- No key has the character of a carriage return. -/
theorem KeyInfo.character_ne (info : KeyInfo) (key : UInt8) :
    info.character key ≠ Console.carriageReturn := by
  have hall : ∀ c ∈ keymap, c ≠ Console.carriageReturn ∧ shiftedKey c ≠ Console.carriageReturn := by
    decide +kernel
  have hmem : keymap.getD key.toNat 0 ∈ keymap := by
    rcases Nat.lt_or_ge key.toNat keymap.length with hlt | hge
    · rw [List.getD_eq_getElem _ _ hlt]
      exact List.getElem_mem hlt
    · rw [List.getD_eq_default _ _ hge]
      decide
  rw [character]
  split
  · split
    · exact (hall _ hmem).2
    · exact (hall _ hmem).1
  · decide

end decoding

/-! ## One character -/

section character

variable {line : EditedLine} {s : Input} {c : UInt8}

/-- A character leaves the line as it is, takes the last character back, finishes the line, or is
appended. -/
theorem EditedLine.type_cases (line : EditedLine) (c : UInt8) :
    (c = 0 ∨ c = backspace ∧ line.text = []) ∧ line.type c = line ∨
      (c = backspace ∧ line.text ≠ [] ∧
        line.type c = ⟨line.text.dropLast, line.removed + 1, line.entered⟩) ∨
      (c = newline ∧ line.type c = { line with entered := true }) ∨
      (c ≠ 0 ∧ c ≠ backspace ∧ c ≠ newline) ∧
        line.type c = { line with text := line.text ++ [c] } := by
  rw [type]
  by_cases hnone : c = 0
  · exact Or.inl ⟨Or.inl hnone, if_pos hnone⟩
  rw [if_neg hnone]
  by_cases hback : c = backspace
  · rw [if_pos hback]
    by_cases hempty : line.text = []
    · refine Or.inl ⟨Or.inr ⟨hback, hempty⟩, ?_⟩
      obtain ⟨text, removed, entered⟩ := line
      obtain rfl : text = [] := hempty
      rfl
    · exact Or.inr (Or.inl ⟨hback, hempty, by rw [if_neg hempty]⟩)
  rw [if_neg hback]
  by_cases hline : c = newline
  · exact Or.inr (Or.inr (Or.inl ⟨hline, if_pos hline⟩))
  · exact Or.inr (Or.inr (Or.inr ⟨⟨hnone, hback, hline⟩, if_neg hline⟩))

theorem EditedLine.type_same (h : c = 0 ∨ c = backspace ∧ line.text = []) :
    line.type c = line := by
  rcases line.type_cases c with ⟨-, htype⟩ | ⟨rfl, hne, -⟩ | ⟨rfl, -⟩ | ⟨⟨hnone, hback, -⟩, -⟩
  · exact htype
  · exact absurd (h.resolve_left (by decide)).2 hne
  · exact absurd h (not_or.mpr ⟨by decide, fun hc ↦ absurd hc.1 (by decide)⟩)
  · exact absurd h (not_or.mpr ⟨hnone, fun hc ↦ hback hc.1⟩)

/-- There is a character in front of the position if and only if there is one in the text. -/
theorem Input.Holds.pos_iff {text : List UInt8} (h : s.Holds text) : 0 < s.pos ↔ text ≠ [] := by
  rw [← h.length_eq, List.length_pos_iff]

/-- Neither the buffer nor the screen changes. -/
theorem Input.Holds.edit_same {text : List UInt8} (h : s.Holds text)
    (hc : c = 0 ∨ c = backspace ∧ text = []) : s.edit c = some s := by
  rw [Input.edit]
  rcases hc with hnone | ⟨hback, hempty⟩
  · rw [if_pos hnone]
  · rw [if_neg (by rw [hback]; decide), if_pos hback, if_neg (mt h.pos_iff.mp (not_not.mpr hempty))]

theorem Input.Holds.print_same {fuel : ℕ} {keys : Keys} {echo : Echo} {text : List UInt8}
    (h : s.Holds text) (hc : c = 0 ∨ c = backspace ∧ text = []) :
    Editor.print fuel ⟨keys, s, echo⟩ c = some echo := by
  rw [Editor.print]
  rcases hc with hnone | ⟨hback, hempty⟩
  · rw [if_pos hnone]
  · rw [if_neg (by rw [hback]; decide), if_pos hback, if_neg (mt h.pos_iff.mp (not_not.mpr hempty))]

end character

/-! ## The screen -/

/-- The screen after `line` was typed: as many characters were taken back from it, and there are at
least as many cells in front of the cursor as characters in the text. -/
structure Echo.Shows (s : Echo) (line : EditedLine) : Prop where
  onScreen : s.console.OnScreen
  removed : s.removed = line.removed
  behind : (line.text.length : ℤ) ≤ s.console.position

section screen

variable {fuel : ℕ} {s t : Echo} {c : UInt8} {args : VaList}

/-- A character that is no directive is printed. -/
theorem Echo.kprintf_literal (hzero : c ≠ 0) (hpercent : c ≠ percent) :
    s.kprintf fuel [c] args = s.putc fuel c := by
  have hprintf : AbOS.kprintf fuel (fun _ ↦ 0) [c] args = some ([c], args) := by
    simp [AbOS.kprintf, Kprintf.loop, Kprintf.step, hzero, hpercent]
  rw [Echo.kprintf, hprintf]
  exact Option.bind_fun_some _

/-- `%c` of an `int` is its low byte. -/
theorem Echo.kprintf_char (words : ℕ → BitVec 32) (hwords : words 0 = c.toBitVec.signExtend 32) :
    s.kprintf fuel [percent, 0x63] ⟨words, 0⟩ = s.putc fuel c := by
  have hprintf : AbOS.kprintf fuel (fun _ ↦ 0) [percent, 0x63] ⟨words, 0⟩ =
      some ([UInt8.ofNat (words 0).toNat], ⟨words, 1⟩) := rfl
  have hbyte : UInt8.ofNat (c.toBitVec.signExtend 32).toNat = c := by
    apply UInt8.toBitVec_inj.mp
    apply BitVec.eq_of_toNat_eq
    have hlt := c.toBitVec.isLt
    rw [UInt8.toBitVec_ofNat', BitVec.toNat_ofNat, BitVec.toNat_signExtend, BitVec.toNat_setWidth]
    split <;> omega
  rw [Echo.kprintf, hprintf, hwords, hbyte]
  exact Option.bind_fun_some _

variable {line : EditedLine}

/-- A character stays on the screen. -/
theorem Echo.Shows.putc_other (h : s.Shows line) (hline : c ≠ newline)
    (hreturn : c ≠ Console.carriageReturn) (hback : c ≠ backspace)
    (hfit : line.text.length + 1 < inputBufferSize) (hfuel : 6 ≤ fuel) :
    ∃ t, s.putc fuel c = some t ∧ t.Shows { line with text := line.text ++ [c] } := by
  obtain ⟨t, ht, hon, hadvances⟩ : ∃ t, Console.putc fuel s.console c = some t ∧ t.OnScreen ∧
      s.console.Advances t := by
    by_cases htab : c = Console.tab
    · obtain ⟨t, ht, hon, -, hadvances⟩ := h.onScreen.putc_tab hfuel
      exact ⟨t, htab ▸ ht, hon, hadvances⟩
    · obtain ⟨fuel, rfl⟩ := Console.exists_fuel hfuel
      obtain ⟨t, ht, hwrapped⟩ := h.onScreen.putc_other fuel hline htab hreturn hback
      refine ⟨t, ht, hwrapped.onScreen, hwrapped.advances ?_⟩
      rw [Console.position_typed]
      omega
  refine ⟨⟨t, s.removed⟩, ?_, hon, h.removed, ?_⟩
  · rw [Echo.putc, ht]
    dsimp only
    rw [if_neg fun hc ↦ hback hc.1]
  · have hbehind := h.behind
    rw [Console.Advances] at hadvances
    rw [inputBufferSize] at hfit
    show ((line.text ++ [c]).length : ℤ) ≤ t.position
    rw [List.length_append, List.length_singleton]
    omega

/-- A backspace takes a character back, and there is one in front of the cursor. -/
theorem Echo.Shows.putc_backspace (h : s.Shows line) (hne : line.text ≠ []) (hfuel : 6 ≤ fuel) :
    ∃ t, s.putc fuel backspace = some t ∧
      t.Shows ⟨line.text.dropLast, line.removed + 1, line.entered⟩ := by
  obtain ⟨fuel, rfl⟩ := Console.exists_fuel hfuel
  obtain ⟨t, ht, hon, hposition, -⟩ := h.onScreen.putc_backspace fuel
  have hbehind := h.behind
  have hpos := List.length_pos_of_ne_nil hne
  refine ⟨⟨t, s.removed + 1⟩, ?_, hon, congrArg (· + 1) h.removed, ?_⟩
  · rw [Echo.putc, ht]
    dsimp only
    rw [if_pos ⟨rfl, by omega⟩]
  · show (line.text.dropLast.length : ℤ) ≤ t.position
    rw [List.length_dropLast, hposition]
    omega

theorem Echo.Shows.putc_newline (h : s.Shows line) (hfit : line.text.length < inputBufferSize)
    (hfuel : 6 ≤ fuel) :
    ∃ t, s.putc fuel newline = some t ∧ t.Shows { line with entered := true } := by
  obtain ⟨fuel, rfl⟩ := Console.exists_fuel hfuel
  obtain ⟨t, ht, hwrapped⟩ := h.onScreen.putc_newline fuel
  refine ⟨⟨t, s.removed⟩, ?_, hwrapped.onScreen, h.removed, ?_⟩
  · rw [Echo.putc, ht]
    dsimp only
    rw [if_neg fun hc ↦ absurd hc.1 (by decide)]
  · have hbehind := h.behind
    have hright := h.onScreen.right
    have hposition := hwrapped.position
    rw [inputBufferSize] at hfit
    rw [Console.position] at hbehind
    show (line.text.length : ℤ) ≤ t.position
    rw [hposition, Console.position]
    dsimp only
    split <;> omega

/-- **The screen** after one more character. -/
theorem Echo.Shows.print {keys : Keys} {input : Input} (h : s.Shows line)
    (hholds : input.Holds line.text) (hreturn : c ≠ Console.carriageReturn)
    (hfit : (line.type c).text.length < inputBufferSize) (hfuel : 6 ≤ fuel) :
    ∃ t, Editor.print fuel ⟨keys, input, s⟩ c = some t ∧ t.Shows (line.type c) := by
  rcases line.type_cases c with
    ⟨hsame, htype⟩ | ⟨rfl, hne, htype⟩ | ⟨rfl, htype⟩ | ⟨⟨hnone, hback, hline⟩, htype⟩ <;>
    rw [htype] at hfit ⊢
  · exact ⟨s, hholds.print_same hsame, h⟩
  · rw [Editor.print, if_neg (by decide), if_pos rfl, if_pos (hholds.pos_iff.mpr hne),
      Echo.kprintf_literal (by decide) (by decide)]
    exact h.putc_backspace hne hfuel
  · rw [Editor.print, if_neg (by decide), if_neg (by decide), if_pos rfl,
      Echo.kprintf_literal (by decide) (by decide)]
    exact h.putc_newline hfit hfuel
  · rw [Editor.print, if_neg hnone, if_neg hback, if_neg hline, Echo.kprintf_char _ rfl]
    have hlength : (line.text ++ [c]).length < inputBufferSize := hfit
    rw [List.length_append, List.length_singleton] at hlength
    exact h.putc_other hline hreturn hback hlength hfuel

end screen

/-! ## The buffer -/

/-- The buffer of an editor, as it should be. -/
structure Input.Follows (s : Input) (line : EditedLine) : Prop where
  ready : s.ready = line.entered
  text : line.entered = true → s.buffer.slice 0 (line.text.length + 1) = line.text ++ [0]
  holds : line.entered = false → s.Holds line.text

theorem Input.Holds.slice_eq {s : Input} {text : List UInt8} (h : s.Holds text) :
    s.buffer.slice 0 (text.length + 1) = text ++ [0] := by
  rw [h.length_eq, ByteStore.slice_append, h.text, ByteStore.slice_succ, Nat.zero_add, h.sentinel]
  rfl

/-- **The buffer** after one more character. -/
theorem Input.Follows.edit {s : Input} {line : EditedLine} {c : UInt8} (h : s.Follows line)
    (hopen : line.entered = false) (hfit : (line.type c).text.length < inputBufferSize) :
    ∃ t, s.edit c = some t ∧ t.Follows (line.type c) := by
  have hholds := h.holds hopen
  have hclosed : line.entered ≠ true := fun he ↦ Bool.noConfusion (hopen.symm.trans he)
  rcases line.type_cases c with
    ⟨hsame, htype⟩ | ⟨rfl, hne, htype⟩ | ⟨rfl, htype⟩ | ⟨⟨hnone, hback, hline⟩, htype⟩ <;>
    rw [htype] at hfit ⊢
  · exact ⟨s, hholds.edit_same hsame, h⟩
  · have hpos := hholds.pos_iff.mpr hne
    rw [Input.edit, if_neg (by decide), if_pos rfl, if_pos hpos]
    exact ⟨_, rfl, h.ready, fun he ↦ absurd he hclosed, fun _ ↦ hholds.pop hpos⟩
  · rw [Input.edit, if_neg (by decide), if_neg (by decide), if_pos rfl]
    exact ⟨_, rfl, rfl, fun _ ↦ hholds.slice_eq, fun he ↦ Bool.noConfusion he⟩
  · have hlength : (line.text ++ [c]).length < inputBufferSize := hfit
    rw [List.length_append, List.length_singleton, hholds.length_eq] at hlength
    rw [Input.edit, if_neg hnone, if_neg hback, if_neg hline, if_pos hlength]
    exact ⟨_, rfl, h.ready, fun he ↦ absurd he hclosed, fun _ ↦ hholds.push hlength hnone⟩

/-- Nothing else leaves the buffer as it is. -/
theorem Input.Follows.same {s t : Input} {line : EditedLine} {c : UInt8} (h : s.Follows line)
    (hopen : line.entered = false) (hedit : s.edit c = some t) (ht : t.Follows line) :
    c = 0 ∨ c = backspace ∧ line.text = [] := by
  have hlength := (h.holds hopen).length_eq
  have hlength' := (ht.holds hopen).length_eq
  have hready := ht.ready
  rw [Input.edit] at hedit
  by_cases hnone : c = 0
  · exact Or.inl hnone
  rw [if_neg hnone] at hedit
  by_cases hback : c = backspace
  · rw [if_pos hback] at hedit
    split at hedit
    · cases hedit
      dsimp only at hlength'
      omega
    · exact Or.inr ⟨hback, List.length_eq_zero_iff.mp (by omega)⟩
  rw [if_neg hback] at hedit
  split at hedit
  · cases hedit
    exact Bool.noConfusion (hready.trans hopen)
  · split at hedit
    · cases hedit
      dsimp only at hlength'
      omega
    · cases hedit

/-! ## One interrupt -/

namespace Editor

/-- The handler and its reference are in step. -/
structure Follows (s : Editor) (r : Edited) : Prop where
  e0 : s.keys.e0 = false
  keys : s.keys.info.Agrees r.info
  input : s.input.Follows r.line
  echo : s.echo.Shows r.line

section interrupt

variable {fuel : ℕ} {s t : Editor} {r : Edited} {key : UInt8}

theorem Follows.edits (h : s.Follows r) : s.Edits r.line :=
  ⟨h.input.ready, h.input.text, h.echo.removed⟩

/-- The character of the code is typed. -/
theorem Follows.keyboardHandler (h : s.Follows r) (hopen : r.line.entered = false)
    (hfit : (r.line.type ((s.keys.info.after key).character key)).text.length < inputBufferSize)
    (hfuel : 6 ≤ fuel) : ∃ t, s.keyboardHandler fuel key = some t ∧
      t.keys = ⟨s.keys.info.after key, false⟩ ∧
      t.input.Follows (r.line.type ((s.keys.info.after key).character key)) ∧
      t.echo.Shows (r.line.type ((s.keys.info.after key).character key)) := by
  have hreturn := (s.keys.info.after key).character_ne key
  obtain ⟨input, hedit, hinput⟩ := h.input.edit hopen hfit
  obtain ⟨echo, hprint, hecho⟩ := h.echo.print (h.input.holds hopen) hreturn hfit hfuel
  refine ⟨⟨_, input, echo⟩, ?_, rfl, hinput, hecho⟩
  rw [Editor.keyboardHandler, decode_eq h.e0]
  dsimp only
  rw [hedit]
  dsimp only
  rw [hprint]

/-- What an interrupt does. -/
theorem keyboardHandler_cases (h : s.keys.e0 = false) (ht : s.keyboardHandler fuel key = some t) :
    t.keys = ⟨s.keys.info.after key, false⟩ ∧
      s.input.edit ((s.keys.info.after key).character key) = some t.input ∧
      s.print fuel ((s.keys.info.after key).character key) = some t.echo := by
  rw [Editor.keyboardHandler, decode_eq h] at ht
  dsimp only at ht
  split at ht
  · cases ht
  · rename_i hedit
    split at ht
    · cases ht
    · rename_i hprint
      cases ht
      exact ⟨rfl, hedit, hprint⟩

/-- What is printed is the character, or nothing. -/
theorem print_cases {c : UInt8} {echo : Echo} (h : s.print fuel c = some echo) :
    echo = s.echo ∨ s.echo.putc fuel c = some echo := by
  rw [print] at h
  by_cases hnone : c = 0
  · rw [if_pos hnone, Option.some.injEq] at h
    exact Or.inl h.symm
  rw [if_neg hnone] at h
  by_cases hback : c = backspace
  · rw [if_pos hback] at h
    split at h
    · rw [Echo.kprintf_literal (by decide) (by decide)] at h
      exact Or.inr (hback ▸ h)
    · cases h
      exact Or.inl rfl
  rw [if_neg hback] at h
  by_cases hline : c = newline
  · rw [if_pos hline, Echo.kprintf_literal (by decide) (by decide)] at h
    exact Or.inr (hline ▸ h)
  · rw [if_neg hline, Echo.kprintf_char _ rfl] at h
    exact Or.inr h

/-- Between interrupts `e0` is clear, and the cursor on the screen. -/
theorem Idle.keyboardHandler (h : s.Idle) (hfuel : 6 ≤ fuel)
    (ht : s.keyboardHandler fuel key = some t) : t.Idle := by
  obtain ⟨hkeys, -, hprint⟩ := keyboardHandler_cases h.e0 ht
  refine ⟨by rw [hkeys], ?_⟩
  rcases print_cases hprint with hecho | hputc
  · rw [hecho]
    exact h.onScreen
  · obtain ⟨console, hconsole, hon, -⟩ :=
      h.onScreen.putc ((s.keys.info.after key).character key) hfuel
    rw [Echo.putc, hconsole, Option.some.injEq] at hputc
    rw [← hputc]
    exact hon

/-- **One interrupt** keeps the handler in step with its reference if and only if the code is
harmless. -/
theorem Follows.step_iff (h : s.Follows r) (hfits : r.Fits key) (hfuel : 6 ≤ fuel) :
    (∃ t, s.keyboardHandler fuel key = some t ∧ t.Follows (r.step key)) ↔ r.Harmless key := by
  cases hskips : r.skips with
  | false =>
    have hstep : r.step key =
        ⟨r.info.after key, key == extended, r.line.type ((r.info.after key).character key)⟩ := by
      rw [Edited.step, if_neg (by rw [hskips]; decide)]
    refine iff_of_true ?_ fun hskips' ↦ Bool.noConfusion (hskips.symm.trans hskips')
    have hafter := h.keys.after key
    have hfit := hfits.2
    rw [hstep, ← hafter.character_eq key] at hfit
    obtain ⟨t, ht, hkeys, hinput, hecho⟩ := h.keyboardHandler hfits.1 hfit hfuel
    rw [hstep, ← hafter.character_eq key]
    exact ⟨t, ht, by rw [hkeys], by rw [hkeys]; exact hafter, hinput, hecho⟩
  | true =>
    have hstep : r.step key = { r with skips := false } := by rw [Edited.step, if_pos hskips]
    rw [hstep]
    constructor
    · rintro ⟨t, ht, hfollows⟩ -
      obtain ⟨hkeys, hedit, -⟩ := keyboardHandler_cases h.e0 ht
      have hagrees := hfollows.keys
      rw [hkeys] at hagrees
      refine ⟨(h.keys.after key).symm.trans hagrees, ?_⟩
      rw [← hagrees.character_eq key]
      exact h.input.same hfits.1 hedit hfollows.input
    · intro hharmless
      obtain ⟨hafter, hchar⟩ := hharmless hskips
      have hagrees := (h.keys.after key).trans hafter
      rw [← hagrees.character_eq key] at hchar
      have htype := EditedLine.type_same hchar
      have hholds := h.input.holds hfits.1
      have hfit : r.line.text.length < inputBufferSize := by
        rw [hholds.length_eq]
        exact hholds.pos
      obtain ⟨t, ht, hkeys, hinput, hecho⟩ := h.keyboardHandler hfits.1 (htype.symm ▸ hfit) hfuel
      rw [htype] at hinput hecho
      exact ⟨t, ht, by rw [hkeys], by rw [hkeys]; exact hagrees, hinput, hecho⟩

end interrupt

/-! ## Runs -/

section runs

variable {fuel : ℕ} {s : Editor} {r : Edited} {codes : List UInt8}

/-- What one interrupt preserves, a run of them does. -/
theorem Follows.exec (h : s.Follows r) (hfits : Edited.Meets Edited.Fits r codes)
    (hharmless : Edited.Meets Edited.Harmless r codes) (hfuel : 6 ≤ fuel) :
    ∃ t, Run.exec (Editor.keyboardHandler fuel) s codes = some t ∧
      t.Follows (codes.foldl Edited.step r) := by
  induction codes generalizing s r with
  | nil => exact ⟨s, rfl, h⟩
  | cons key codes ih =>
    obtain ⟨t, ht, hfollows⟩ := (h.step_iff hfits.1 hfuel).mpr hharmless.1
    obtain ⟨u, hu, hfollows'⟩ := ih hfollows (hfits.2 _ rfl) (hharmless.2 _ rfl)
    exact ⟨u, Run.exec_cons.mpr ⟨t, ht, hu⟩, hfollows'⟩

/-- `readline` starts with an empty line. -/
theorem Idle.follows_readline (h : s.Idle) (skips : Bool) :
    s.readline.Follows (.start s.keys.info skips) := by
  have hzero : s.input.buffer.splice 0 [0] 0 = 0 := ByteStore.splice_of_mem (i := 0) (by decide)
  refine ⟨h.e0, ⟨rfl, rfl⟩, ⟨rfl, fun he ↦ Bool.noConfusion he, fun _ ↦ ?_⟩, h.onScreen, rfl, ?_⟩
  · exact Input.holds_nil rfl hzero
  · exact h.onScreen.position_nonneg

/-- **The line editor does what it should** in every run in which no code that follows `0xE0` has an
effect, in every state up to the first Enter. -/
theorem edits_of_harmless (h : s.Idle) (skips : Bool)
    (hfits : Edited.Meets Edited.Fits (.start s.keys.info skips) codes)
    (hharmless : Edited.Meets Edited.Harmless (.start s.keys.info skips) codes)
    (hfuel : 6 ≤ fuel) : ∃ t, Run.exec (Editor.keyboardHandler fuel) s.readline codes = some t ∧
      t.Edits (codes.foldl Edited.step (.start s.keys.info skips)).line := by
  obtain ⟨t, ht, hfollows⟩ := (h.follows_readline skips).exec hfits hharmless hfuel
  exact ⟨t, ht, hfollows.edits⟩

/-- The machine after its start. -/
def started : Editor := ⟨.released, ⟨fun _ ↦ 0, 0, false⟩, ⟨fun _ ↦ 0, 0, 0, 0, []⟩, 0⟩

theorem idle_started : started.Idle := ⟨rfl, by decide, by decide, by decide, by decide⟩

/-- `a`, a backspace, a cursor key, `b` and Enter. -/
theorem edits_of_harmless_cursorKey :
    ∃ t, Run.exec (Editor.keyboardHandler 6) started.readline
        [0x1E, 0x0E, 0xE0, 0x48, 0xE0, 0xC8, 0x30, 0x1C] = some t ∧ t.Edits ⟨[0x62], 1, true⟩ :=
  edits_of_harmless idle_started false
    (.cons (by decide) rfl (.cons (by decide) rfl (.cons (by decide) rfl (.cons (by decide) rfl
      (.cons (by decide) rfl (.cons (by decide) rfl (.cons (by decide) rfl (.cons (by decide) rfl
        trivial))))))))
    (.cons (by decide) rfl (.cons (by decide) rfl (.cons (by decide) rfl (.cons (by decide) rfl
      (.cons (by decide) rfl (.cons (by decide) rfl (.cons (by decide) rfl (.cons (by decide) rfl
        trivial))))))))
    (Nat.le_refl 6)

/-- The slash of the number pad, and Enter: the slash is in the line. -/
theorem not_edits_slash :
    ∃ t, Run.exec (Editor.keyboardHandler 6) started.readline [0xE0, 0x35, 0x1C] = some t ∧
      Edited.Meets Edited.Fits (.start started.keys.info false) [0xE0, 0x35, 0x1C] ∧
      [0xE0, 0x35, 0x1C].foldl Edited.step (.start started.keys.info false) =
        ⟨⟨false, false, false⟩, false, ⟨[], 0, true⟩⟩ ∧
      t.input.buffer.slice 0 2 = [0x2F, 0] ∧ ¬ t.Edits ⟨[], 0, true⟩ := by
  refine ⟨_, rfl, ?_, by decide, by decide, fun h ↦ ?_⟩
  · exact .cons (by decide) rfl (.cons (by decide) rfl (.cons (by decide) rfl trivial))
  · exact absurd (h.text rfl) (by decide)

end runs

end Editor

end AbOS
