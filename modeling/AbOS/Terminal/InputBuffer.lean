import AbOS.Lib.Extent
import AbOS.Lib.Run
import AbOS.Terminal.Keyboard

/-!
# Accesses to the input buffer

`shell` works on the line in `input_buffer` itself: it compares it with the names of the commands,
hands it to the string functions of the file system as a path, lets `cat` read a file over it and
`editfile` write it to one.  Keyboard interrupts edit the same buffer in between, one after any byte
that is looked at.

A `Shell` is the buffer with the place of the shell's thread in this code.  `Shell.act` is one
event, together with the bytes of the buffer that it touches, as offsets from `input_buffer`.  What
the file system answers is a part of the event: whether a name was found, which bytes `sys_read`
copies, whether `sys_write` refuses.

A string function that has come to a byte stays inside because a terminator follows
(`Input.NulFrom`).  An edit inside the buffer moves terminators only to the right, past any byte
(`Input.NulFrom.handle`).  So the events that leave the buffer, or leave it without a terminator,
are those that bring a length of their own (`Shell.Guarded`), and no others
(`Shell.staysInside_iff`).
-/

set_option autoImplicit false

namespace AbOS

/-! ## The shell -/

/-- Where `input_buffer` is. -/
structure BufferAddress where
  address : ℕ
  pos : 0 < address
  le : address + inputBufferSize ≤ 2 ^ 32

/-- The commands of `shell`. -/
inductive Command where
  | printmem
  | ls
  | exit
  | clear
  | exec
  | help
  | touch
  | cat
  | editfile
  | printregisters
  deriving DecidableEq, Repr

/-- What the line is compared with, without the terminator. -/
def Command.name : Command → List UInt8
  | .printmem => [0x70, 0x72, 0x69, 0x6E, 0x74, 0x6D, 0x65, 0x6D]
  | .ls => [0x6C, 0x73]
  | .exit => [0x65, 0x78, 0x69, 0x74]
  | .clear => [0x63, 0x6C, 0x65, 0x61, 0x72]
  | .exec => [0x65, 0x78, 0x65, 0x63]
  | .help => [0x68, 0x65, 0x6C, 0x70]
  | .touch => [0x74, 0x6F, 0x75, 0x63, 0x68]
  | .cat => [0x63, 0x61, 0x74]
  | .editfile => [0x65, 0x64, 0x69, 0x74, 0x66, 0x69, 0x6C, 0x65]
  | .printregisters =>
    [0x70, 0x72, 0x69, 0x6E, 0x74, 0x72, 0x65, 0x67, 0x69, 0x73, 0x74, 0x65, 0x72, 0x73]

/-- The next `else if`. -/
def Command.next : Command → Option Command
  | .printmem => some .ls
  | .ls => some .exit
  | .exit => some .clear
  | .clear => some .exec
  | .exec => some .help
  | .help => some .touch
  | .touch => some .cat
  | .cat => some .editfile
  | .editfile => some .printregisters
  | .printregisters => none

/-- What a line is read for: a command, the path that it works on, or the text for `editfile`. -/
inductive Prompt where
  | command
  | ls
  | exec
  | touch
  | cat
  | edit
  | text
  deriving DecidableEq, Repr

/-- The functions that walk along the line up to its terminator, by their callers: `strrchr` and
`get_inode` in `print_dir`; `get_inode` in `sys_open`, for `exec`, `cat` and `editfile`; `strlen`,
`strcpy` and `strrchr` twice in `get_parent_inode`, then `get_name_path` and `strcpy` in
`create_file`; `kprintf` in `cat`. -/
inductive Walk where
  | lsSlash
  | lsInode
  | execInode
  | touchLength
  | touchCopy
  | touchSlash
  | touchHasSlash
  | touchName
  | touchEntry
  | catInode
  | catPrint
  | editInode
  deriving DecidableEq, Repr

/-- The function is `get_inode`. -/
def Walk.looksUp : Walk → Bool
  | .lsInode | .execInode | .catInode | .editInode => true
  | _ => false

/-- The next byte of a walk, the last slash in front of it, and the characters since. -/
structure Cursor where
  index : ℕ
  slash : Option ℕ
  length : ℕ
  deriving DecidableEq, Repr

/-- A walk starts. -/
def Cursor.start (index : ℕ) : Cursor := ⟨index, none, 0⟩

/-- The character `/`. -/
def slashChar : UInt8 := 0x2F

/-- One byte further. -/
def Cursor.next (c : Cursor) (byte : UInt8) : Cursor :=
  if byte = slashChar then ⟨c.index + 1, some c.index, 0⟩ else ⟨c.index + 1, c.slash, c.length + 1⟩

/-- Where the thread of the shell is: in `readline`, in `strcmp`, in another string function, at the
assignment of `print_dir`, at the calls of `read` and `write`, or in the program of `exec`. -/
inductive Point where
  | resetPos (p : Prompt)
  | resetBuffer (p : Prompt)
  | resetReady (p : Prompt)
  | waiting (p : Prompt)
  | compare (c : Command) (index : ℕ)
  | walk (w : Walk) (c : Cursor)
  | cut (slash : Option ℕ)
  | read
  | write
  | running
  deriving DecidableEq, Repr

/-- The first thing done with a line. -/
def Prompt.point : Prompt → Point
  | .command => .compare .printmem 0
  | .ls => .walk .lsSlash (.start 0)
  | .exec => .walk .execInode (.start 0)
  | .touch => .walk .touchLength (.start 0)
  | .cat => .walk .catInode (.start 0)
  | .edit => .walk .editInode (.start 0)
  | .text => .write

/-- The branch of a command. -/
def Command.point : Command → Point
  | .ls => .resetPos .ls
  | .exec => .resetPos .exec
  | .touch => .resetPos .touch
  | .cat => .resetPos .cat
  | .editfile => .resetPos .edit
  | _ => .resetPos .command

/-- What follows a function that has stopped at `c`; `get_inode` has `found` the file or not. -/
def Walk.after (c : Cursor) (found : Bool) : Walk → Point
  | .lsSlash => .cut c.slash
  | .execInode => if found then .running else .resetPos .command
  | .touchLength => .walk .touchCopy (.start 0)
  | .touchCopy => .walk .touchSlash (.start 0)
  | .touchSlash => .walk .touchHasSlash (.start 0)
  | .touchHasSlash => .walk .touchName (.start 0)
  | .touchName => .walk .touchEntry (.start ((c.slash.map (· + 1)).getD 0))
  | .catInode => if found then .read else .resetPos .command
  | .editInode => if found then .resetPos .text else .resetPos .command
  | .lsInode | .touchEntry | .catPrint => .resetPos .command

/-- A keyboard interrupt; a step of the shell; a step that looks a name up in a directory; the call
`read(fd, command, 4096)`, which copies `bs`; the call `write(fd, command, 4096)`. -/
inductive ShellEvent where
  | key (code : UInt8)
  | shell
  | lookup (found : Bool)
  | read (bs : List UInt8)
  | write (refused : Bool)

structure Shell where
  input : Input
  keys : Keys
  point : Point

/-- The second half of `keyboard_handler`, wherever `input_pos` is, and the bytes it writes. -/
def Input.handle (s : Input) (keypressed : UInt8) : List Extent × Input :=
  if keypressed = 0 then ([], s)
  else if keypressed = backspace then
    if 0 < s.pos then
      ([⟨s.pos - 1, 1⟩], { s with pos := s.pos - 1, buffer := s.buffer.splice (s.pos - 1) [0] })
    else ([], s)
  else if keypressed = newline then ([], { s with ready := true, pos := 0 })
  else
    ([⟨s.pos, 1⟩, ⟨s.pos + 1, 1⟩],
      { s with buffer := s.buffer.splice s.pos [keypressed, 0], pos := s.pos + 1 })

namespace Shell

/-- The kernel calls `shell(false)`. -/
def started : Shell := ⟨⟨fun _ ↦ 0, 0, false⟩, Keys.released, .resetPos .command⟩

/-- The shell goes on at another place. -/
def goto (s : Shell) (point : Point) : Shell := { s with point }

/-- A byte of a string function.  `get_inode` skips a slash in front, looks a name up at every other
slash and at the end, and gives up on a name of 60 characters. -/
def walk (s : Shell) (w : Walk) (c : Cursor) : Option Point :=
  let byte := s.input.buffer c.index
  if w.looksUp = true then
    if byte = 0 ∨ byte = slashChar ∧ 0 < c.index then none
    else if byte ≠ slashChar ∧ 59 ≤ c.length then some (w.after c false)
    else some (.walk w (c.next byte))
  else if byte = 0 then some (w.after c true)
  else some (.walk w (c.next byte))

/-- A byte at which `get_inode` looks a name up. -/
def lookup (s : Shell) (w : Walk) (c : Cursor) (found : Bool) : Option Point :=
  let byte := s.input.buffer c.index
  if w.looksUp = true then
    if byte = 0 then some (w.after c found)
    else if byte = slashChar ∧ 0 < c.index then
      if found then some (.walk w (c.next byte)) else some (w.after c false)
    else none
  else none

/-- A byte of `strcmp`, and the branch when it is the last. -/
def compare (s : Shell) (c : Command) (index : ℕ) : Point :=
  let byte := s.input.buffer index
  if byte ≠ 0 ∧ byte = c.name.getD index 0 then .compare c (index + 1)
  else if byte = c.name.getD index 0 then c.point
  else
    match c.next with
    | some c' => .compare c' 0
    | none => .resetPos .command

/-- The index at which `print_dir` cuts the path off: the last slash, or, without one, the
difference of a null pointer and the path. -/
def cutIndex (base : BufferAddress) (slash : Option ℕ) : ℕ := slash.getD (2 ^ 32 - base.address)

/-- One event, and what it touches. -/
def act (base : BufferAddress) (s : Shell) : ShellEvent → Option (List Extent × Shell)
  | .key code =>
    let (touched, input) := s.input.handle (decode s.keys code).2
    some (touched, { s with input, keys := (decode s.keys code).1 })
  | .shell =>
    match s.point with
    | .resetPos p =>
      some ([], { s with input := { s.input with pos := 0 }, point := .resetBuffer p })
    | .resetBuffer p =>
      some ([⟨0, 1⟩], { s with
        input := { s.input with buffer := s.input.buffer.splice 0 [0] }, point := .resetReady p })
    | .resetReady p =>
      some ([], { s with input := { s.input with ready := false }, point := .waiting p })
    | .waiting p => some ([], if s.input.ready = true then s.goto p.point else s)
    | .compare c index => some ([⟨index, 1⟩], s.goto (s.compare c index))
    | .walk w c => (s.walk w c).map fun point ↦ ([⟨c.index, 1⟩], s.goto point)
    | .cut slash =>
      some ([⟨cutIndex base slash, 1⟩], { s with
        input := { s.input with buffer := s.input.buffer.splice (cutIndex base slash) [0] }
        -- the directory `/` is not looked up
        point :=
          if cutIndex base slash = 0 then .resetPos .command else .walk .lsInode (.start 0) })
    | .read => none
    | .write => none
    | .running => some ([], s.goto (.resetPos .command))
  | .lookup found =>
    match s.point with
    | .walk w c => (s.lookup w c found).map fun point ↦ ([⟨c.index, 1⟩], s.goto point)
    | _ => none
  | .read bs =>
    if s.point = .read then
      some ([⟨0, bs.length⟩], { s with
        input := { s.input with buffer := s.input.buffer.splice 0 bs }
        point := .walk .catPrint (.start 0) })
    else none
  | .write refused =>
    if s.point = .write then
      some (if refused then [] else [⟨0, 4096⟩], s.goto (.resetPos .command))
    else none

/-- One event. -/
def step (base : BufferAddress) (s : Shell) (e : ShellEvent) : Option Shell :=
  (s.act base e).map Prod.snd

end Shell

/-- A terminator lies in the buffer, not in front of `i`. -/
def Input.NulFrom (s : Input) (i : ℕ) : Prop :=
  ∃ j, i ≤ j ∧ j < inputBufferSize ∧ s.buffer j = 0

namespace Shell

/-- **The event stays inside the buffer**, which has a terminator before and after it. -/
def StaysInside (base : BufferAddress) (s : Shell) (e : ShellEvent) : Prop :=
  s.input.NulFrom 0 ∧ ∀ touched s', s.act base e = some (touched, s') →
    (∀ x ∈ touched, x.start + x.len ≤ inputBufferSize) ∧ s'.input.NulFrom 0

/-- A character that is entered leaves room for the terminator behind it; the path of `ls` has a
slash; what `cat` reads fits into the buffer and leaves a terminator in it; and what `editfile`
writes is refused. -/
def Guarded (s : Shell) : ShellEvent → Prop
  | .key code =>
    let keypressed := (decode s.keys code).2
    keypressed = 0 ∨ keypressed = backspace ∨ keypressed = newline ∨
      s.input.pos + 1 < inputBufferSize
  | .shell => s.point ≠ .cut none
  | .lookup _ => True
  | .read bs =>
    s.point = .read → bs.length ≤ inputBufferSize ∧ (0 ∈ bs ∨ s.input.NulFrom bs.length)
  | .write refused => s.point = .write → refused = true

/-- What is known at each place of the thread. -/
def PointInv (s : Input) : Point → Prop
  | .compare _ index => s.NulFrom index
  | .walk _ c => s.NulFrom c.index ∧ ∀ i, c.slash = some i → i < c.index
  | .cut (some i) => i < inputBufferSize
  | _ => True

/-- The position is in the buffer, there is a terminator, and one follows the byte that is looked
at. -/
structure Inv (s : Shell) : Prop where
  pos : s.input.pos < inputBufferSize
  nul : s.input.NulFrom 0
  point : PointInv s.input s.point

end Shell

/-! ## Terminators -/

namespace Input

variable {s : Input} {i j : ℕ} {keypressed : UInt8}

theorem NulFrom.mono (h : s.NulFrom j) (hij : i ≤ j) : s.NulFrom i := by
  obtain ⟨k, hk, hrest⟩ := h
  exact ⟨k, Nat.le_trans hij hk, hrest⟩

theorem NulFrom.lt (h : s.NulFrom i) : i < inputBufferSize := by
  obtain ⟨k, hk, hlt, -⟩ := h
  exact Nat.lt_of_le_of_lt hk hlt

/-- A byte that is no terminator is followed by one. -/
theorem NulFrom.succ (h : s.NulFrom i) (hne : s.buffer i ≠ 0) : s.NulFrom (i + 1) := by
  obtain ⟨k, hk, hlt, hzero⟩ := h
  refine ⟨k, Nat.lt_of_le_of_ne hk fun heq ↦ hne ?_, hlt, hzero⟩
  rw [heq, hzero]

/-- It does not matter where the other one was. -/
theorem NulFrom.cut (h : s.NulFrom j) :
    ({ s with buffer := s.buffer.splice i [0] } : Input).NulFrom j := by
  obtain ⟨k, hk, hlt, hzero⟩ := h
  refine ⟨k, hk, hlt, ?_⟩
  by_cases hki : k = i
  · rw [hki]
    exact ByteStore.splice_of_mem (i := 0) (by decide)
  · exact (ByteStore.splice_of_not_mem (by simp only [List.length_singleton]; omega)).trans hzero

/-- A character with a new terminator behind it: the one that it overwrites moves on. -/
theorem NulFrom.push (h : s.NulFrom j) (hroom : i + 1 < inputBufferSize) :
    ({ s with buffer := s.buffer.splice i [keypressed, 0] } : Input).NulFrom j := by
  obtain ⟨k, hk, hlt, hzero⟩ := h
  have hnew : s.buffer.splice i [keypressed, 0] (i + 1) = 0 :=
    ByteStore.splice_of_mem (i := 1) Nat.one_lt_two
  by_cases hki : k = i ∨ k = i + 1
  · exact ⟨i + 1, by omega, hroom, hnew⟩
  · refine ⟨k, hk, hlt, (ByteStore.splice_of_not_mem ?_).trans hzero⟩
    simp only [List.length_cons, List.length_nil]
    omega

/-- An interrupt that does not leave the buffer. -/
structure Keeps (s : Input) (r : List Extent × Input) : Prop where
  touched : ∀ x ∈ r.1, x.start + x.len ≤ inputBufferSize
  pos : r.2.pos < inputBufferSize
  nul : ∀ i, s.NulFrom i → r.2.NulFrom i

/-- **An interrupt stays inside the buffer** and leaves a terminator behind every byte that had one
behind it, when its character has room. -/
theorem keeps_handle (hpos : s.pos < inputBufferSize)
    (hroom : keypressed = 0 ∨ keypressed = backspace ∨ keypressed = newline ∨
      s.pos + 1 < inputBufferSize) : s.Keeps (s.handle keypressed) := by
  have hsame : s.Keeps ([], s) := ⟨fun _ hx ↦ absurd hx List.not_mem_nil, hpos, fun _ h ↦ h⟩
  rw [handle]
  split
  · exact hsame
  split
  · split
    · refine ⟨fun x hx ↦ ?_, Nat.lt_of_le_of_lt (Nat.sub_le ..) hpos, fun i h ↦ h.cut⟩
      rw [List.mem_singleton.mp hx]
      dsimp only
      omega
    · exact hsame
  split
  · exact ⟨fun _ hx ↦ absurd hx List.not_mem_nil, Nat.lt_of_le_of_lt (Nat.zero_le _) hpos,
      fun _ h ↦ h⟩
  · rename_i hnone hback hline
    replace hroom := ((hroom.resolve_left hnone).resolve_left hback).resolve_left hline
    refine ⟨fun x hx ↦ ?_, hroom, fun i h ↦ h.push hroom⟩
    rcases List.mem_cons.mp hx with rfl | hx
    · exact hpos
    · rw [List.mem_singleton.mp hx]
      exact hroom

/-- Without room the terminator is written behind the buffer. -/
theorem handle_overflow (hroom : ¬ (keypressed = 0 ∨ keypressed = backspace ∨ keypressed = newline ∨
    s.pos + 1 < inputBufferSize)) :
    ∃ x ∈ (s.handle keypressed).1, inputBufferSize < x.start + x.len := by
  rw [not_or, not_or, not_or, Nat.not_lt] at hroom
  obtain ⟨hnone, hback, hline, hfull⟩ := hroom
  rw [handle, if_neg hnone, if_neg hback, if_neg hline]
  exact ⟨⟨s.pos + 1, 1⟩, List.mem_cons_of_mem _ List.mem_cons_self, Nat.lt_succ_of_le hfull⟩

/-- `Input.edit` is the same for the interrupts that stay inside, and no result for the others. -/
theorem edit_eq_handle (s : Input) (keypressed : UInt8) :
    s.edit keypressed =
      if keypressed = 0 ∨ keypressed = backspace ∨ keypressed = newline ∨
        s.pos + 1 < inputBufferSize then some (s.handle keypressed).2 else none := by
  rw [edit, handle]
  by_cases hnone : keypressed = 0
  · rw [if_pos hnone, if_pos hnone, if_pos (Or.inl hnone)]
  rw [if_neg hnone, if_neg hnone]
  by_cases hback : keypressed = backspace
  · rw [if_pos hback, if_pos hback, if_pos (Or.inr (Or.inl hback))]
    split <;> rfl
  rw [if_neg hback, if_neg hback]
  by_cases hline : keypressed = newline
  · rw [if_pos hline, if_pos hline, if_pos (Or.inr (Or.inr (Or.inl hline)))]
  rw [if_neg hline, if_neg hline]
  simp only [hnone, hback, hline, false_or]

/-- A terminator after bytes that were copied to the front. -/
theorem nulFrom_copy_iff {bs : List UInt8} (hlen : bs.length ≤ inputBufferSize) :
    ({ s with buffer := s.buffer.splice 0 bs } : Input).NulFrom 0 ↔
      0 ∈ bs ∨ s.NulFrom bs.length := by
  have hcopied : ∀ k, k < bs.length → s.buffer.splice 0 bs k = bs.getD k 0 := fun k hk ↦ by
    have := ByteStore.splice_of_mem (m := s.buffer) (a := 0) hk
    rwa [Nat.zero_add] at this
  constructor
  · rintro ⟨k, -, hlt, hzero⟩
    by_cases hk : k < bs.length
    · left
      have hget : bs.getD k 0 = 0 := (hcopied k hk).symm.trans hzero
      rw [List.getD_eq_getElem _ _ hk] at hget
      exact List.mem_of_getElem hget
    · right
      exact ⟨k, by omega, hlt, (ByteStore.splice_of_not_mem (by omega)).symm.trans hzero⟩
  · rintro (hmem | ⟨k, hk, hlt, hzero⟩)
    · obtain ⟨k, hk, heq⟩ := List.getElem_of_mem hmem
      refine ⟨k, Nat.zero_le k, Nat.lt_of_lt_of_le hk hlen, (hcopied k hk).trans ?_⟩
      rw [List.getD_eq_getElem _ _ hk, heq]
    · exact ⟨k, Nat.zero_le k, hlt, (ByteStore.splice_of_not_mem (Or.inr (by omega))).trans hzero⟩

end Input

namespace Shell

variable {base : BufferAddress} {s s' : Shell} {touched : List Extent}

theorem inv_started : started.Inv :=
  ⟨by decide, ⟨0, Nat.le_refl 0, by decide, rfl⟩, trivial⟩

/-! ## Where the thread goes -/

/-- A place at which nothing more is known than that there is a terminator. -/
theorem pointInv_prompt {s : Input} (h : s.NulFrom 0) (p : Prompt) : PointInv s p.point := by
  have hstart : ∀ w, PointInv s (.walk w (.start 0)) := fun w ↦ ⟨h, fun _ hi ↦ by cases hi⟩
  cases p
  · exact h
  · exact hstart _
  · exact hstart _
  · exact hstart _
  · exact hstart _
  · exact hstart _
  · trivial

theorem pointInv_command (s : Input) (c : Command) : PointInv s c.point := by
  cases c <;> trivial

theorem pointInv_compare {c : Command} {index : ℕ} (h : s.Inv)
    (hindex : s.input.NulFrom index) : PointInv s.input (s.compare c index) := by
  rw [compare]
  split
  · rename_i hmatch
    exact hindex.succ hmatch.1
  · split
    · exact pointInv_command _ _
    · split
      · exact h.nul
      · trivial

/-- The functions that follow begin at the start of the line, behind its last slash or at it. -/
theorem pointInv_after {s : Input} {w : Walk} {c : Cursor} (hnul : s.NulFrom 0)
    (hindex : s.NulFrom c.index) (hslash : ∀ i, c.slash = some i → i < c.index) (found : Bool) :
    PointInv s (w.after c found) := by
  have hstart : ∀ w, PointInv s (.walk w (.start 0)) := fun w ↦ ⟨hnul, fun _ hi ↦ by cases hi⟩
  cases w
  case lsSlash =>
    cases hc : c.slash with
    | none =>
      rw [Walk.after, hc]
      trivial
    | some i =>
      rw [Walk.after, hc]
      exact Nat.lt_trans (hslash i hc) hindex.lt
  case touchLength => exact hstart _
  case touchCopy => exact hstart _
  case touchSlash => exact hstart _
  case touchHasSlash => exact hstart _
  case touchName =>
    refine ⟨?_, fun _ hi ↦ by cases hi⟩
    cases hc : c.slash with
    | none => exact hnul
    | some i => exact hindex.mono (hslash i hc)
  all_goals cases found <;> trivial

theorem pointInv_next {s : Input} {w : Walk} {c : Cursor} (hindex : s.NulFrom c.index)
    (hslash : ∀ i, c.slash = some i → i < c.index) (hbyte : s.buffer c.index ≠ 0) :
    PointInv s (.walk w (c.next (s.buffer c.index))) := by
  rw [Cursor.next]
  split
  · refine ⟨hindex.succ hbyte, fun i hi ↦ ?_⟩
    cases hi
    exact Nat.lt_succ_self _
  · exact ⟨hindex.succ hbyte, fun i hi ↦ Nat.lt_succ_of_lt (hslash i hi)⟩

/-- A step of a string function, with a name looked up or not. -/
theorem pointInv_walk {w : Walk} {c : Cursor} {point : Point} (h : s.Inv)
    (hindex : s.input.NulFrom c.index) (hslash : ∀ i, c.slash = some i → i < c.index)
    (hwalk : s.walk w c = some point ∨ ∃ found, s.lookup w c found = some point) :
    PointInv s.input point := by
  have hafter := fun found ↦ pointInv_after (w := w) h.nul hindex hslash found
  have hnext := pointInv_next (w := w) hindex hslash
  rcases hwalk with hwalk | ⟨found, hwalk⟩
  · rw [walk] at hwalk
    split at hwalk
    · split at hwalk
      · cases hwalk
      · rename_i hbyte
        rw [not_or] at hbyte
        split at hwalk <;> cases hwalk
        · exact hafter false
        · exact hnext hbyte.1
    · split at hwalk <;> cases hwalk
      · exact hafter true
      · exact hnext ‹_›
  · rw [lookup] at hwalk
    split at hwalk
    · split at hwalk
      · cases hwalk
        exact hafter found
      · split at hwalk
        · split at hwalk <;> cases hwalk
          · exact hnext ‹_›
          · exact hafter false
        · cases hwalk
    · cases hwalk

/-! ## One event -/

/-- What is known at a place survives an edit that keeps terminators. -/
theorem PointInv.mono {r r' : Input} {point : Point} (h : PointInv r point)
    (hkeep : ∀ i, r.NulFrom i → r'.NulFrom i) : PointInv r' point := by
  cases point with
  | compare c index => exact hkeep _ h
  | walk w c => exact ⟨hkeep _ h.1, h.2⟩
  | cut slash => cases slash <;> exact h
  | _ => trivial

theorem cutIndex_none (base : BufferAddress) : inputBufferSize ≤ cutIndex base none := by
  have := base.le
  rw [cutIndex, Option.getD_none]
  omega

/-- A byte at which something is known lies in the buffer. -/
theorem touched_one {i : ℕ} (hi : i < inputBufferSize) :
    ∀ x ∈ [(⟨i, 1⟩ : Extent)], x.start + x.len ≤ inputBufferSize := by
  intro x hx
  rw [List.mem_singleton.mp hx]
  exact hi

theorem Inv.goto {point : Point} (h : s.Inv) (hpoint : PointInv s.input point) :
    (s.goto point).Inv := ⟨h.pos, h.nul, hpoint⟩

/-- The step of the shell at each place. -/
theorem Inv.act_shell (h : s.Inv) (hguard : s.Guarded .shell)
    (hact : s.act base .shell = some (touched, s')) :
    s'.Inv ∧ ∀ x ∈ touched, x.start + x.len ≤ inputBufferSize := by
  have hnone : ∀ x ∈ ([] : List Extent), x.start + x.len ≤ inputBufferSize :=
    fun _ hx ↦ absurd hx List.not_mem_nil
  have hpoint := h.point
  rw [Guarded] at hguard
  rw [act] at hact
  cases hplace : s.point <;> rw [hplace] at hact hpoint hguard <;> dsimp only at hact
  case resetPos p =>
    cases hact
    exact ⟨⟨Nat.lt_of_le_of_lt (Nat.zero_le _) h.pos, h.nul, trivial⟩, hnone⟩
  case resetBuffer p =>
    cases hact
    exact ⟨⟨h.pos, h.nul.cut, trivial⟩, touched_one (by decide)⟩
  case resetReady p =>
    cases hact
    exact ⟨⟨h.pos, h.nul, trivial⟩, hnone⟩
  case waiting p =>
    cases hact
    refine ⟨?_, hnone⟩
    split
    · exact h.goto (pointInv_prompt h.nul p)
    · exact h
  case compare c index =>
    cases hact
    exact ⟨h.goto (pointInv_compare h hpoint), touched_one hpoint.lt⟩
  case walk w c =>
    obtain ⟨point, hwalk, hr⟩ := Option.map_eq_some_iff.mp hact
    cases hr
    exact ⟨h.goto (pointInv_walk h hpoint.1 hpoint.2 (Or.inl hwalk)), touched_one hpoint.1.lt⟩
  case cut slash =>
    cases hact
    cases slash with
    | none => exact absurd rfl hguard
    | some i =>
      refine ⟨⟨h.pos, h.nul.cut, ?_⟩, touched_one hpoint⟩
      dsimp only
      split
      · trivial
      · exact ⟨h.nul.cut, fun _ hi ↦ by cases hi⟩
  case read => cases hact
  case write => cases hact
  case running =>
    cases hact
    exact ⟨h.goto trivial, hnone⟩

/-- **What one event preserves**, and that it stays inside the buffer. -/
theorem Inv.act {e : ShellEvent} (h : s.Inv) (hguard : s.Guarded e)
    (hact : s.act base e = some (touched, s')) :
    s'.Inv ∧ ∀ x ∈ touched, x.start + x.len ≤ inputBufferSize := by
  cases e with
  | key code =>
    have hkeeps := Input.keeps_handle h.pos hguard
    cases hact
    exact ⟨⟨hkeeps.pos, hkeeps.nul 0 h.nul, h.point.mono hkeeps.nul⟩, hkeeps.touched⟩
  | shell => exact h.act_shell hguard hact
  | lookup found =>
    have hpoint := h.point
    rw [Shell.act] at hact
    split at hact
    · rename_i w c hplace
      rw [hplace] at hpoint
      obtain ⟨point, hwalk, hr⟩ := Option.map_eq_some_iff.mp hact
      cases hr
      exact ⟨h.goto (pointInv_walk h hpoint.1 hpoint.2 (Or.inr ⟨found, hwalk⟩)),
        touched_one hpoint.1.lt⟩
    · cases hact
  | read bs =>
    rw [Shell.act] at hact
    split at hact
    · rename_i hplace
      obtain ⟨hlen, hnul⟩ := hguard hplace
      cases hact
      have hnul' := (Input.nulFrom_copy_iff hlen).mpr hnul
      refine ⟨⟨h.pos, hnul', hnul', fun _ hi ↦ by cases hi⟩, fun x hx ↦ ?_⟩
      rw [List.mem_singleton.mp hx, Nat.zero_add]
      exact hlen
    · cases hact
  | write refused =>
    rw [Shell.act] at hact
    split at hact
    · rename_i hplace
      rw [hguard hplace] at hact
      cases hact
      exact ⟨h.goto trivial, fun _ hx ↦ absurd hx List.not_mem_nil⟩
    · cases hact

/-- Every other event leaves the buffer, or takes the last terminator away. -/
theorem guarded_of_staysInside {e : ShellEvent} (h : s.StaysInside base e) : s.Guarded e := by
  obtain ⟨hnul, hstays⟩ := h
  cases e with
  | key code =>
    by_contra hroom
    obtain ⟨x, hx, hlt⟩ := Input.handle_overflow hroom
    exact absurd ((hstays _ _ rfl).1 x hx) (Nat.not_le.mpr hlt)
  | shell =>
    intro hplace
    obtain ⟨t, hact⟩ : ∃ t, s.act base .shell = some ([⟨cutIndex base none, 1⟩], t) := by
      rw [act, hplace]
      exact ⟨_, rfl⟩
    have hlt := (hstays _ _ hact).1 _ List.mem_cons_self
    exact absurd (cutIndex_none base) (Nat.not_le.mpr hlt)
  | lookup found => trivial
  | read bs =>
    intro hplace
    have hact : s.act base (.read bs) = some ([⟨0, bs.length⟩], { s with
        input := { s.input with buffer := s.input.buffer.splice 0 bs }
        point := .walk .catPrint (.start 0) }) := by
      rw [act, if_pos hplace]
    obtain ⟨hlen, hnul'⟩ := hstays _ _ hact
    replace hlen := hlen _ List.mem_cons_self
    rw [Nat.zero_add] at hlen
    exact ⟨hlen, (Input.nulFrom_copy_iff hlen).mp hnul'⟩
  | write refused =>
    intro hplace
    cases refused with
    | true => rfl
    | false =>
      have hact : s.act base (.write false) = some ([⟨0, 4096⟩], s.goto (.resetPos .command)) := by
        rw [act, if_pos hplace]
        rfl
      exact absurd ((hstays _ _ hact).1 _ List.mem_cons_self) (by decide)

/-! ## Runs -/

/-- **The buffer is not left** in a run exactly when every character has room for the terminator
behind it, every path for `ls` has a slash, what `cat` reads fits and leaves a terminator, and
`editfile` writes nothing. -/
theorem staysInside_iff (base : BufferAddress) (events : List ShellEvent) :
    Run.Meets (step base) (StaysInside base) started events ↔
      Run.Meets (step base) Guarded started events := by
  have hstep : ∀ (s : Shell) e t, s.Inv → s.Guarded e → s.step base e = some t → t.Inv := by
    intro s e t h hguard hstep
    obtain ⟨⟨touched, t'⟩, hact, rfl⟩ := Option.map_eq_some_iff.mp hstep
    exact (h.act hguard hact).1
  constructor
  · refine Run.Meets.of_invariant Inv (fun s e t h hstays ↦ ?_) (fun s e _ ↦ ?_) inv_started
    · exact hstep s e t h (guarded_of_staysInside hstays)
    · exact guarded_of_staysInside
  · refine Run.Meets.of_invariant Inv hstep (fun s e h hguard ↦ ⟨h.nul, fun touched s' hact ↦ ?_⟩)
      inv_started
    obtain ⟨hinv, htouched⟩ := h.act hguard hact
    exact ⟨htouched, hinv.nul⟩

/-- The key `a`, held down: each repetition moves the position on. -/
theorem exec_replicate (base : BufferAddress) : ∀ (n : ℕ) {s : Shell}, s.keys = Keys.released →
    ∃ t, Run.exec (step base) s (List.replicate n (.key 0x1E)) = some t ∧
      t.input.pos = s.input.pos + n ∧ t.keys = Keys.released ∧ t.point = s.point
  | 0, s, hkeys => ⟨s, rfl, rfl, hkeys, rfl⟩
  | n + 1, s, hkeys => by
    have hdecode : decode s.keys 0x1E = (Keys.released, 0x61) := by rw [hkeys]; decide
    obtain ⟨t, hstep, hpos, hreleased, hpoint⟩ : ∃ t, s.step base (.key 0x1E) = some t ∧
        t.input.pos = s.input.pos + 1 ∧ t.keys = Keys.released ∧ t.point = s.point := by
      rw [step, act, hdecode]
      exact ⟨_, rfl, rfl, rfl, rfl⟩
    obtain ⟨u, hrun, hpos', hreleased', hpoint'⟩ := exec_replicate base n hreleased
    refine ⟨u, Run.exec_cons.mpr ⟨t, hstep, hrun⟩, ?_, hreleased', hpoint'.trans hpoint⟩
    rw [hpos', hpos]
    omega

/-- A buffer at 1 MiB. -/
def lowBuffer : BufferAddress := ⟨0x100000, by decide, by decide⟩

/-- The key `a` 256 times at the first prompt: the last terminator is written behind the buffer. -/
theorem not_staysInside_long : ∃ s,
    Run.exec (step lowBuffer) started
      ([.shell, .shell, .shell] ++ List.replicate 255 (.key 0x1E)) = some s ∧
    s.point = .waiting .command ∧
    (s.act lowBuffer (.key 0x1E)).map Prod.fst = some [⟨255, 1⟩, ⟨256, 1⟩] ∧
    ¬ s.StaysInside lowBuffer (.key 0x1E) := by
  obtain ⟨t, hstart, hpos, hkeys, hpoint⟩ : ∃ t,
      Run.exec (step lowBuffer) started [.shell, .shell, .shell] = some t ∧ t.input.pos = 0 ∧
        t.keys = Keys.released ∧ t.point = .waiting .command := ⟨_, rfl, rfl, rfl, rfl⟩
  obtain ⟨s, hrun, hpos', hkeys', hpoint'⟩ := exec_replicate lowBuffer 255 hkeys
  rw [hpos] at hpos'
  refine ⟨s, Run.exec_append.mpr ⟨t, hstart, hrun⟩, hpoint'.trans hpoint, ?_, fun hstays ↦ ?_⟩
  · have hdecode : decode s.keys 0x1E = (Keys.released, 0x61) := by rw [hkeys']; decide
    rw [act, hdecode]
    show some [(⟨s.input.pos, 1⟩ : Extent), ⟨s.input.pos + 1, 1⟩] = _
    rw [hpos']
  · have hguard := guarded_of_staysInside hstays
    rw [Guarded, hkeys', hpos'] at hguard
    exact absurd hguard (by decide)

end Shell

end AbOS
