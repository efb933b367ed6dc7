import AbOS.Terminal.Keyboard
import AbOS.Lib.Run

/-!
# Reading lines under interrupts

`readline` resets the buffer, waits for Enter and hands out the buffer itself.  The shell then works
on the line, in place, until it calls `readline` again.  Keyboard interrupts may come between any two
of these steps, and the handler always edits the same buffer.

A `Terminal` is the state of both, and a ghost: what was typed, and how many lines were taken.  The
interrupts are harmless as long as no key arrives that means something outside the wait for its
line, from the last assignment of `readline` on up to the first Enter (`Terminal.Timely`).  In every
run of such interrupts the shell acts on the lines that were typed, one after the other
(`Terminal.faithful_of_meets`).

Any other key is lost, or ends up in the line that the shell is working on: when the shell waits
again, the buffer is not what was typed (`Terminal.exists_not_faithful`).
-/

set_option autoImplicit false

namespace AbOS

/-- What the shell does next: one of the three assignments of `readline`, the loop, or its work on
the line.  `cat` reads the file into the buffer, when it has opened it; the line is then
`overwritten`. -/
inductive Phase where
  | resetPos
  | resetBuffer
  | resetReady
  | waiting
  | working
  | overwritten
  deriving DecidableEq, Repr

/-- A keyboard interrupt, a step of the shell, or `read(fd, command, _)` of the bytes `bs`. -/
inductive TerminalEvent where
  | key (code : UInt8)
  | shell
  | overwrite (bs : List UInt8)

/-- The buffer, the static variables of the handler, and the shell; beside it what was typed since
the shell was started, and how many lines `readline` has returned. -/
structure Terminal where
  input : Input
  keys : Keys
  phase : Phase
  typed : Typed
  taken : ℕ

namespace Terminal

/-- The shell is started. -/
def started : Terminal where
  input := ⟨fun _ ↦ 0, 0, false⟩
  keys := Keys.released
  phase := Phase.resetPos
  typed := ⟨[], []⟩
  taken := 0

/-- `keyboard_handler`. -/
def keyboardHandler (s : Terminal) (key : UInt8) : Option Terminal :=
  (s.input.edit (decode s.keys key).2).map fun input ↦
    { s with input, keys := (decode s.keys key).1, typed := s.typed.type (decode s.keys key).2 }

/-- The next step of `readline`, or the next call of it. -/
def shell (s : Terminal) : Terminal :=
  match s.phase with
  | .resetPos => { s with input := { s.input with pos := 0 }, phase := .resetBuffer }
  | .resetBuffer =>
    { s with input := { s.input with buffer := s.input.buffer.splice 0 [0] }, phase := .resetReady }
  | .resetReady => { s with input := { s.input with ready := false }, phase := .waiting }
  | .waiting => if s.input.ready = true then { s with phase := .working, taken := s.taken + 1 } else s
  | .working => { s with phase := .resetPos }
  | .overwritten => { s with phase := .resetPos }

/-- One event.  What `read` puts behind the buffer has no result. -/
def step (s : Terminal) : TerminalEvent → Option Terminal
  | .key code => s.keyboardHandler code
  | .shell => some s.shell
  | .overwrite bs =>
    if (s.phase = .working ∨ s.phase = .overwritten) ∧ bs.length ≤ inputBufferSize then
      some { s with
        input := { s.input with buffer := s.input.buffer.splice 0 bs }, phase := .overwritten }
    else none

/-- While the shell acts on a line, the buffer holds the line that was typed next after those taken
before; and while it waits, the buffer holds all that was typed since. -/
structure Faithful (s : Terminal) : Prop where
  line : s.phase = .working → s.typed.lines[s.taken - 1]? = some s.input.line
  kept : s.phase = .waiting → s.input.ready = false →
    s.typed.lines.length = s.taken ∧ s.input.Holds s.typed.pending

/-- The shell is about to wait, or waits, and the line is not finished. -/
def Listens (s : Terminal) : Prop :=
  s.phase = .resetReady ∨ s.phase = .waiting ∧ s.input.ready = false

/-- The key has no character, or takes back nothing; or its character fits into the buffer of a shell
that listens, which for Enter has to be waiting already. -/
def Timely (s : Terminal) : TerminalEvent → Prop
  | .key code =>
    let keypressed := (decode s.keys code).2
    keypressed = 0 ∨ (keypressed = backspace ∧ s.input.pos = 0) ∨
      (keypressed = newline ∧ s.phase = .waiting ∧ s.input.ready = false) ∨
      (keypressed ≠ newline ∧ s.Listens ∧
        (keypressed = backspace ∨ s.input.pos + 1 < inputBufferSize))
  | _ => True

instance (s : Terminal) : Decidable s.Listens := inferInstanceAs (Decidable (_ ∨ _))

/-! ## The invariant -/

/-- All typed lines were taken, and nothing was typed since. -/
structure Idle (input : Input) (typed : Typed) (taken : ℕ) : Prop where
  taken : typed.lines.length = taken
  pending : typed.pending = []
  pos : input.pos = 0

/-- All typed lines were taken, and the buffer holds what was typed since. -/
structure Open (input : Input) (typed : Typed) (taken : ℕ) : Prop where
  taken : typed.lines.length = taken
  holds : input.Holds typed.pending

/-- All but the last line were taken, and the buffer holds the last one. -/
structure Ready (input : Input) (typed : Typed) (taken : ℕ) : Prop where
  pending : typed.pending = []
  pos : input.pos = 0
  line : ∃ lines, typed.lines = lines ++ [input.line] ∧ lines.length = taken

/-- What holds at each step of the shell. -/
def Inv (s : Terminal) : Prop :=
  match s.phase with
  | .resetPos | .resetBuffer | .overwritten => Idle s.input s.typed s.taken
  | .resetReady => Open s.input s.typed s.taken
  | .waiting =>
    if s.input.ready = true then Ready s.input s.typed s.taken else Open s.input s.typed s.taken
  | .working =>
    Idle s.input s.typed s.taken ∧ s.typed.lines[s.taken - 1]? = some s.input.line

variable {s s' : Terminal}

theorem inv_started : started.Inv := ⟨rfl, rfl, rfl⟩

theorem Inv.faithful (h : s.Inv) : s.Faithful := by
  constructor
  · intro hphase
    rw [Inv, hphase] at h
    exact h.2
  · intro hphase hready
    rw [Inv, hphase] at h
    dsimp only at h
    rw [if_neg (by rw [hready]; decide)] at h
    exact ⟨h.taken, h.holds⟩

/-! ## The shell -/

/-- A step of the shell. -/
theorem Inv.shell (h : s.Inv) : s.shell.Inv := by
  rw [Terminal.shell]
  rw [Inv] at h
  cases hphase : s.phase <;> rw [hphase] at h <;> dsimp only at h ⊢
  · exact ⟨h.taken, h.pending, rfl⟩
  · refine ⟨h.taken, ?_⟩
    show Input.Holds _ s.typed.pending
    rw [h.pending]
    have hzero : s.input.buffer.splice 0 [0] 0 = 0 := ByteStore.splice_of_mem (i := 0) (by decide)
    exact Input.holds_nil h.pos hzero
  · exact ⟨h.taken, h.holds.pos, h.holds.text, h.holds.nonzero, h.holds.sentinel⟩
  · by_cases hready : s.input.ready = true
    · rw [if_pos hready] at h ⊢
      obtain ⟨lines, hlines, hlen⟩ := h.line
      refine ⟨⟨?_, h.pending, h.pos⟩, ?_⟩
      · dsimp only
        rw [hlines, List.length_append, hlen, List.length_singleton]
      · dsimp only
        rw [hlines, Nat.add_sub_cancel, ← hlen, List.getElem?_concat_length]
    · rw [if_neg hready, Inv, hphase]
      exact h
  · exact h.1
  · exact h

/-- The buffer is given up. -/
theorem Inv.overwrite {bs : List UInt8} (h : s.Inv)
    (hphase : s.phase = .working ∨ s.phase = .overwritten) :
    ({ s with
      input := { s.input with buffer := s.input.buffer.splice 0 bs }
      phase := .overwritten } : Terminal).Inv := by
  have hidle : Idle s.input s.typed s.taken := by
    rw [Inv] at h
    rcases hphase with hphase | hphase <;> rw [hphase] at h
    · exact h.1
    · exact h
  exact ⟨hidle.taken, hidle.pending, hidle.pos⟩

/-! ## The keyboard -/

/-- At the start of the buffer nothing is pending. -/
theorem Inv.pending_eq (h : s.Inv) (hpos : s.input.pos = 0) : s.typed.pending = [] := by
  have hopen : Open s.input s.typed s.taken → s.typed.pending = [] := fun ho ↦
    List.length_eq_zero_iff.mp (ho.holds.length_eq.trans hpos)
  rw [Inv] at h
  cases hphase : s.phase <;> rw [hphase] at h <;> dsimp only at h
  · exact h.pending
  · exact h.pending
  · exact hopen h
  · split at h
    · exact h.pending
    · exact hopen h
  · exact h.1.pending
  · exact h.pending

theorem Inv.open_of_listens (h : s.Inv) (hlistens : s.Listens) : Open s.input s.typed s.taken := by
  rw [Inv] at h
  rcases hlistens with hphase | ⟨hphase, hready⟩ <;> rw [hphase] at h
  · exact h
  · dsimp only at h
    rwa [if_neg (by rw [hready]; decide)] at h

/-- An interrupt that is harmless. -/
theorem Inv.keyboardHandler {code : UInt8} (h : s.Inv) (htimely : s.Timely (.key code))
    (hstep : s.keyboardHandler code = some s') : s'.Inv := by
  obtain ⟨input, hedit, rfl⟩ := Option.map_eq_some_iff.mp hstep
  generalize hkeys : (decode s.keys code).1 = keys
  have htimely' : _ ∨ _ ∨ _ ∨ _ := htimely
  generalize (decode s.keys code).2 = keypressed at *
  -- when neither the buffer nor the text change
  have hsame : input = s.input → s.typed.type keypressed = s.typed →
      ({ s with input, keys, typed := s.typed.type keypressed } : Terminal).Inv := by
    intro hinput htyped
    rw [hinput, htyped]
    exact h
  rcases htimely' with hnone | ⟨hback, hpos⟩ | ⟨hline, hphase, hready⟩ | ⟨hline, hlistens, -⟩
  · rw [Input.edit, if_pos hnone, Option.some.injEq] at hedit
    exact hsame hedit.symm (by rw [Typed.type, if_pos hnone])
  · have hempty := h.pending_eq hpos
    subst hback
    rw [Input.edit, if_neg (by decide), if_pos rfl, if_neg (by omega), Option.some.injEq] at hedit
    refine hsame hedit.symm ?_
    rw [Typed.type, if_neg (by decide), if_pos rfl, hempty, List.dropLast_nil, ← hempty]
  · have hopen := h.open_of_listens (Or.inr ⟨hphase, hready⟩)
    subst hline
    rw [Input.edit, if_neg (by decide), if_neg (by decide), if_pos rfl, Option.some.injEq] at hedit
    subst hedit
    have htype : s.typed.type newline = ⟨s.typed.lines ++ [s.typed.pending], []⟩ := rfl
    have hline : ({ s.input with ready := true, pos := 0 } : Input).line = s.typed.pending :=
      hopen.holds.line_eq
    rw [Inv, hphase, htype]
    dsimp only
    rw [if_pos rfl]
    exact ⟨rfl, rfl, s.typed.lines, by rw [hline], hopen.taken⟩
  · have hopen := h.open_of_listens hlistens
    obtain ⟨hholds, hlines, hready⟩ := hopen.holds.edit hline hedit
    have hopen' : Open input (s.typed.type keypressed) s.taken := ⟨hlines ▸ hopen.taken, hholds⟩
    rw [Inv]
    rcases hlistens with hphase | ⟨hphase, hlow⟩ <;> rw [hphase]
    · exact hopen'
    · dsimp only
      rw [if_neg (by rw [hready, hlow]; decide)]
      exact hopen'

/-! ## Runs -/

/-- **What one event preserves.** -/
theorem Inv.step {e : TerminalEvent} (h : s.Inv) (htimely : s.Timely e) (hstep : s.step e = some s') :
    s'.Inv := by
  cases e with
  | key code => exact h.keyboardHandler htimely hstep
  | shell =>
    cases hstep
    exact h.shell
  | overwrite bs =>
    rw [Terminal.step] at hstep
    split at hstep
    · rename_i hallowed
      cases hstep
      exact h.overwrite hallowed.1
    · cases hstep

/-- Interrupts that are harmless are possible. -/
theorem exists_step_of_timely {code : UInt8} (htimely : s.Timely (.key code)) :
    ∃ s', s.step (.key code) = some s' := by
  cases hedit : s.input.edit (decode s.keys code).2 with
  | some input => exact ⟨_, congrArg (Option.map _) hedit⟩
  | none =>
    obtain ⟨hnone, hback, hline, hroom⟩ := Input.edit_eq_none_iff.mp hedit
    have htimely' : _ ∨ _ ∨ _ ∨ _ := htimely
    rcases htimely' with h | h | h | ⟨-, -, h | h⟩
    · exact absurd h hnone
    · exact absurd h.1 hback
    · exact absurd h.1 hline
    · exact absurd h hback
    · omega

/-- **The shell acts on the lines that were typed**, and keeps what is typed next, in every run in
which no key with an effect comes when the shell does not listen. -/
theorem faithful_of_meets {events : List TerminalEvent} (hC : Run.Meets step Timely started events)
    (hrun : Run.exec step started events = some s') : s'.Faithful :=
  (Run.Meets.invariant Inv (fun _ _ _ hs hc hstep ↦ hs.step hc hstep) inv_started hC hrun).faithful

/-- `a` and Enter, while `readline` waits. -/
def typeLine : List TerminalEvent := [.shell, .shell, .shell, .key 0x1E, .key 0x1C, .shell]

theorem meets_typeLine : Run.Meets step Timely started typeLine := by
  refine .cons trivial rfl (.cons trivial rfl (.cons trivial rfl (.cons ?_ rfl (.cons ?_ rfl
    (.cons trivial rfl trivial)))))
  · exact Or.inr (Or.inr (Or.inr ⟨by decide, Or.inr ⟨rfl, rfl⟩, Or.inr (by decide)⟩))
  · exact Or.inr (Or.inr (Or.inl ⟨by decide, rfl, rfl⟩))

/-- The shell acts on `a`. -/
theorem faithful_typeLine : ∃ s, Run.exec step started typeLine = some s ∧ s.phase = .working ∧
    s.Faithful :=
  ⟨_, rfl, rfl, faithful_of_meets meets_typeLine rfl⟩

/-! ## Keys at other times -/

/-- Left alone, a shell that does not listen comes back to an empty buffer, with what was typed and
the number of lines as they are now, or with one line more if it was about to take one. -/
theorem exists_shell_waiting (hlistens : ¬ s.Listens) : ∃ n t,
    Run.exec step s (List.replicate n .shell) = some t ∧ t.phase = .waiting ∧
    t.input.ready = false ∧ t.input.buffer 0 = 0 ∧ t.typed = s.typed ∧
    t.taken = (if s.phase = .waiting then s.taken + 1 else s.taken) := by
  obtain ⟨⟨buffer, pos, ready⟩, keys, phase, typed, taken⟩ := s
  have hzero : buffer.splice 0 [0] 0 = 0 := ByteStore.splice_of_mem (i := 0) (by decide)
  cases phase with
  | resetPos => exact ⟨3, _, rfl, rfl, rfl, hzero, rfl, rfl⟩
  | resetBuffer => exact ⟨2, _, rfl, rfl, rfl, hzero, rfl, rfl⟩
  | resetReady => exact absurd (Or.inl rfl) hlistens
  | waiting =>
    cases ready with
    | false => exact absurd (Or.inr ⟨rfl, rfl⟩) hlistens
    | true => exact ⟨5, _, rfl, rfl, rfl, hzero, rfl, rfl⟩
  | working => exact ⟨4, _, rfl, rfl, rfl, hzero, rfl, rfl⟩
  | overwritten => exact ⟨4, _, rfl, rfl, rfl, hzero, rfl, rfl⟩

/-- A shell that does not listen has taken all lines, or is about to. -/
theorem Inv.of_not_listens (h : s.Inv) (hlistens : ¬ s.Listens) :
    s.typed.pending = [] ∧ s.input.pos = 0 ∧
      s.typed.lines.length = (if s.phase = .waiting then s.taken + 1 else s.taken) := by
  rw [Inv] at h
  cases hphase : s.phase <;> rw [hphase] at h <;> dsimp only at h
  · exact ⟨h.pending, h.pos, h.taken⟩
  · exact ⟨h.pending, h.pos, h.taken⟩
  · exact absurd (Or.inl hphase) hlistens
  · have hready : s.input.ready = true := by
      by_contra hlow
      exact hlistens (Or.inr ⟨hphase, Bool.eq_false_iff.mpr hlow⟩)
    rw [if_pos hready] at h
    obtain ⟨lines, hlines, hlen⟩ := h.line
    refine ⟨h.pending, h.pos, ?_⟩
    rw [hlines, List.length_append, hlen]
    rfl
  · exact ⟨h.1.pending, h.1.pos, h.1.taken⟩
  · exact ⟨h.pending, h.pos, h.taken⟩

/-- **Every other key does harm**: once the shell waits again, a line or a character is missing. -/
theorem exists_not_faithful {e : TerminalEvent} (h : s.Inv) (huntimely : ¬ s.Timely e)
    (hstep : s.step e = some s') : ∃ n t,
      Run.exec step s' (List.replicate n .shell) = some t ∧ ¬ t.Faithful := by
  cases e with
  | shell => exact absurd trivial huntimely
  | overwrite bs => exact absurd trivial huntimely
  | key code =>
    obtain ⟨input, hedit, rfl⟩ := Option.map_eq_some_iff.mp hstep
    have hnot : ¬ (_ ∨ _ ∨ _ ∨ _) := huntimely
    generalize (decode s.keys code).1 = keys
    generalize (decode s.keys code).2 = keypressed at *
    simp only [not_or] at hnot
    obtain ⟨hnone, hback, henter, htext⟩ := hnot
    by_cases hline : keypressed = newline
    · subst hline
      rw [Input.edit, if_neg (by decide), if_neg (by decide), if_pos rfl, Option.some.injEq] at hedit
      subst hedit
      have htype : s.typed.type newline = ⟨s.typed.lines ++ [s.typed.pending], []⟩ := rfl
      rw [htype]
      by_cases hlistens : s.Listens
      · -- the flag is cleared right after
        have hphase : s.phase = .resetReady := hlistens.resolve_right fun hw ↦ henter ⟨rfl, hw⟩
        refine ⟨1, _, rfl, fun hfaithful ↦ ?_⟩
        have hkept := (hfaithful.kept (by simp [Terminal.shell, hphase])
          (by simp [Terminal.shell, hphase])).1
        simp only [Terminal.shell, hphase, List.length_append, List.length_singleton] at hkept
        have := (h.open_of_listens hlistens).taken
        omega
      · have hlistens' : ¬ ({ s with
            input := { s.input with ready := true, pos := 0 }, keys
            typed := ⟨s.typed.lines ++ [s.typed.pending], []⟩ } : Terminal).Listens :=
          fun hl ↦ hl.elim (fun hp ↦ hlistens (Or.inl hp)) fun hw ↦ Bool.noConfusion hw.2
        obtain ⟨n, t, hrun, hphase, hready, -, htyped, htaken⟩ := exists_shell_waiting hlistens'
        refine ⟨n, t, hrun, fun hfaithful ↦ ?_⟩
        have hkept := (hfaithful.kept hphase hready).1
        rw [htyped, htaken, List.length_append, (h.of_not_listens hlistens).2.2] at hkept
        exact Nat.succ_ne_self _ hkept
    · by_cases hlistens : s.Listens
      · -- the character does not fit
        have hfull := not_and.mp (not_and.mp htext hline) hlistens
        rw [not_or, Nat.not_lt] at hfull
        rw [Input.edit_eq_none_iff.mpr ⟨hnone, hfull.1, hline, hfull.2⟩] at hedit
        cases hedit
      · obtain ⟨hpending, hpos, -⟩ := h.of_not_listens hlistens
        have hchar : keypressed ≠ backspace := fun hb ↦ hback ⟨hb, hpos⟩
        have htype : s.typed.type keypressed = ⟨s.typed.lines, [keypressed]⟩ := by
          rw [Typed.type, if_neg hnone, if_neg hchar, if_neg hline, hpending]
          rfl
        have hsame : input.ready = s.input.ready := by
          rw [Input.edit, if_neg hnone, if_neg hchar, if_neg hline, if_pos (by rw [hpos]; decide),
            Option.some.injEq] at hedit
          rw [← hedit]
        have hlistens' : ¬ ({ s with
            input, keys, typed := s.typed.type keypressed } : Terminal).Listens :=
          fun hl ↦ hlistens (hl.imp_right fun hw ↦ ⟨hw.1, hsame.symm.trans hw.2⟩)
        obtain ⟨n, t, hrun, hphase, hready, hzero, htyped, -⟩ := exists_shell_waiting hlistens'
        refine ⟨n, t, hrun, fun hfaithful ↦ ?_⟩
        have hholds := (hfaithful.kept hphase hready).2
        rw [htyped, htype] at hholds
        exact hholds.nonzero 0 (by rw [← hholds.length_eq]; exact Nat.one_pos) hzero

/-- `b` is typed while the shell acts on the line `a`: the line changes, and the key is gone when the
shell waits again. -/
theorem not_faithful_early : ∃ s t, Run.exec step started (typeLine ++ [.key 0x30]) = some s ∧
    s.typed = ⟨[[0x61]], [0x62]⟩ ∧ s.phase = .working ∧ s.input.line = [0x62] ∧ ¬ s.Faithful ∧
    Run.exec step s [.shell, .shell, .shell, .shell] = some t ∧
    t.phase = .waiting ∧ t.typed = ⟨[[0x61]], [0x62]⟩ ∧ t.input.line = [] ∧ ¬ t.Faithful := by
  refine ⟨_, _, rfl, by decide, by decide, by decide +kernel, fun h ↦ ?_, rfl, by decide, by decide,
    by decide +kernel, fun h ↦ ?_⟩
  · exact absurd (h.line (by decide)) (by decide +kernel)
  · have hholds := (h.kept (by decide) (by decide)).2
    exact absurd hholds.line_eq (by decide +kernel)

end Terminal

end AbOS
