import AbOS.Lib.Run
import AbOS.Terminal.Keyboard
import Mathlib.Algebra.Group.Int.Defs

/-!
# The console

`putc` writes a character into the video memory at the cursor and moves the cursor on.  Behind the
last row `scrollback` copies each row over the one above it.  A tab is written as spaces, by `putc`
itself; how many is decided again after each of them.

The cursor is two `int`s, and the width and the height of the screen are `unsigned`.  `unsigned` is
the conversion in the comparisons and in the offsets.  `Console.touched` remembers the offsets of
all accesses to the video memory.

From a position on the screen every string of bytes leads to one, and nothing behind the screen is
accessed (`Console.putc_staysOnScreen`).
-/

set_option autoImplicit false

namespace AbOS

/-- An `int` as an `unsigned`. -/
def unsigned (n : ℤ) : ℕ := (n % 2 ^ 32).toNat

def vgaWidth : ℕ := 80

def vgaHeight : ℕ := 25

def defaultColor : UInt8 := 0x07

/-- The bytes of the screen: a character and a color for each cell. -/
def screenBytes : ℕ := 4000

/-- The video memory from `VGA_PTR` on, `g_ScreenX` and `g_ScreenY`, and the cursor location that
the video card was given; beside it the offsets from `VGA_PTR` that were accessed, the last one
first. -/
structure Console where
  video : ByteStore
  gScreenX : ℤ
  gScreenY : ℤ
  cursor : ℕ
  touched : List ℕ

namespace Console

def tab : UInt8 := 0x09

def carriageReturn : UInt8 := 0x0D

def space : UInt8 := 0x20

/-! ## The video memory -/

def load (s : Console) (offset : ℕ) : UInt8 × Console :=
  (s.video offset, { s with touched := offset :: s.touched })

def store (s : Console) (offset : ℕ) (byte : UInt8) : Console :=
  { s with video := Function.update s.video offset byte, touched := offset :: s.touched }

/-- The offset of a character. -/
def charOffset (x y : ℤ) : ℕ := unsigned (2 * (y * vgaWidth + x))

/-- The offset of its color. -/
def colorOffset (x y : ℤ) : ℕ := unsigned (2 * (y * vgaWidth + x) + 1)

def putchar (s : Console) (x y : ℤ) (c : UInt8) : Console := s.store (charOffset x y) c

def putcolor (s : Console) (x y : ℤ) (color : UInt8) : Console := s.store (colorOffset x y) color

def getchr (s : Console) (x y : ℤ) : UInt8 × Console := s.load (charOffset x y)

def getcolor (s : Console) (x y : ℤ) : UInt8 × Console := s.load (colorOffset x y)

/-- The video card gets the low and the high byte of the position. -/
def setcursor (s : Console) (x y : ℤ) : Console :=
  let pos := unsigned (y * vgaWidth + x)
  { s with cursor := pos % 2 ^ 8 + 2 ^ 8 * (pos / 2 ^ 8 % 2 ^ 8) }

/-- The numbers of `for(int i = first; i < limit; i++)`, for an `unsigned` limit. -/
def countUp (first : ℤ) (limit : ℕ) : List ℕ :=
  List.range' (unsigned first) (limit - unsigned first)

/-- The inner loop of `scrollback`, at one cell. -/
def copyCell (lines : ℤ) (y : ℕ) (s : Console) (x : ℕ) : Console :=
  let (c, s) := s.getchr x y
  let s := s.putchar x (y - lines) c
  let (color, s) := s.getcolor x y
  s.putcolor x (y - lines) color

/-- The inner loop of `clrscr`, at one cell. -/
def clearCell (y : ℕ) (s : Console) (x : ℕ) : Console :=
  (s.putchar x y 0).putcolor x y defaultColor

/-- The inner loop of `scrollback`. -/
def copyRow (lines : ℤ) (s : Console) (y : ℕ) : Console :=
  (countUp 0 vgaWidth).foldl (copyCell lines y) s

/-- The inner loop of `clrscr`. -/
def clearRow (s : Console) (y : ℕ) : Console := (countUp 0 vgaWidth).foldl (clearCell y) s

def scrollback (s : Console) (lines : ℤ) : Console :=
  let s := (countUp lines vgaHeight).foldl (copyRow lines) s
  let s := (countUp (vgaHeight - lines) vgaHeight).foldl clearRow s
  { s with gScreenY := s.gScreenY - lines }

def clrscr (s : Console) : Console :=
  let s := (countUp 0 vgaHeight).foldl clearRow s
  { s with gScreenX := 0, gScreenY := 0 }.setcursor 0 0

/-! ## Characters -/

/-- The first `if` behind the `switch` of `putc`: the row is full. -/
def wrapRow (s : Console) : Console :=
  if vgaWidth ≤ unsigned s.gScreenX then { s with gScreenY := s.gScreenY + 1, gScreenX := 0 } else s

/-- The second one: the screen is full. -/
def wrapScreen (s : Console) : Console :=
  if vgaHeight ≤ unsigned s.gScreenY then s.scrollback 1 else s

/-- What `putc` does behind its `switch`. -/
def wrap (s : Console) : Console :=
  let s := s.wrapRow.wrapScreen
  s.setcursor s.gScreenX s.gScreenY

/-- The loop for a tab, at `i`; the condition reads the column that the last space has left. -/
def tabLoop (putc : Console → UInt8 → Option Console) : ℕ → ℤ → Console → Option Console
  | 0, _, _ => none
  | fuel + 1, i, s =>
    if i < 4 - s.gScreenX.tmod 4 then
      match putc s space with
      | none => none
      | some s => tabLoop putc fuel (i + 1) s
    else some s

/-- The cursor goes back, from the beginning of a row to the end of the one above. -/
def stepBack (s : Console) : Console :=
  if 0 < s.gScreenX then { s with gScreenX := s.gScreenX - 1 }
  else if 0 < s.gScreenY then { s with gScreenY := s.gScreenY - 1, gScreenX := vgaWidth - 1 }
  else s

/-- `putc`; the fuel is for the calls of itself and for their loop. -/
def putc : ℕ → Console → UInt8 → Option Console
  | 0, _, _ => none
  | fuel + 1, s, c =>
    if c = newline then some (wrap { s with gScreenX := 0, gScreenY := s.gScreenY + 1 })
    else if c = tab then (tabLoop (putc fuel) fuel 0 s).map wrap
    else if c = carriageReturn then some (wrap { s with gScreenX := 0 })
    else if c = backspace then
      let s := s.stepBack
      some (wrap (s.putchar s.gScreenX s.gScreenY space))
    else
      let s := s.putchar s.gScreenX s.gScreenY c
      some (wrap { s with gScreenX := s.gScreenX + 1 })

/-- `puts`, of the string that is given by its characters. -/
def puts (fuel : ℕ) : Console → List UInt8 → Option Console
  | s, [] => some s
  | s, c :: str =>
    if c = 0 then some s
    else
      match putc fuel s c with
      | none => none
      | some s => puts fuel s str

/-! ## What is accessed -/

/-- The accesses between `s` and `t` are accesses to the screen. -/
def Stays (s t : Console) : Prop := ∀ a ∈ t.touched, a ∈ s.touched ∨ a < screenBytes

section accesses

variable {s t u : Console}

theorem Stays.refl (s : Console) : s.Stays s := fun _ ha ↦ Or.inl ha

theorem Stays.trans (h : s.Stays t) (h' : t.Stays u) : s.Stays u := fun a ha ↦
  (h' a ha).elim (h a) Or.inr

theorem stays_load {offset : ℕ} (h : offset < screenBytes) : s.Stays (s.load offset).2 :=
  fun _ ha ↦ (List.mem_cons.mp ha).elim (fun he ↦ Or.inr (he ▸ h)) Or.inl

theorem stays_store {offset : ℕ} (h : offset < screenBytes) (byte : UInt8) :
    s.Stays (s.store offset byte) :=
  fun _ ha ↦ (List.mem_cons.mp ha).elim (fun he ↦ Or.inr (he ▸ h)) Or.inl

end accesses

/-! ## Offsets -/

theorem unsigned_of_lt {n : ℤ} (h0 : 0 ≤ n) (h : n < 2 ^ 32) : unsigned n = n.toNat := by
  rw [unsigned, Int.emod_eq_of_lt h0 h]

theorem charOffset_eq {x y : ℤ} {i : ℕ} (h : 2 * (y * 80 + x) = i) (hi : i < 4000) :
    charOffset x y = i := by
  rw [charOffset, unsigned, vgaWidth]
  omega

theorem colorOffset_eq {x y : ℤ} {i : ℕ} (h : 2 * (y * 80 + x) + 1 = i) (hi : i < 4000) :
    colorOffset x y = i := by
  rw [colorOffset, unsigned, vgaWidth]
  omega

/-- A position on the screen has two bytes. -/
theorem cursor_setcursor (s : Console) {x y : ℤ} {i : ℕ} (h : y * 80 + x = i) (hi : i < 2 ^ 16) :
    (s.setcursor x y).cursor = i := by
  have hpos : unsigned (y * vgaWidth + x) = i := by
    rw [unsigned, vgaWidth]
    omega
  rw [setcursor, hpos]
  dsimp only
  omega

/-! ## Scrolling -/

/-- `t` is `s` after the bytes in front of `n` have been copied from the row below them. -/
structure Copied (s : Console) (n : ℕ) (t : Console) : Prop where
  video : ∀ o, t.video o = if o < n then s.video (o + 160) else s.video o
  gScreenX : t.gScreenX = s.gScreenX
  gScreenY : t.gScreenY = s.gScreenY
  stays : s.Stays t

/-- `t` is `s` after the bytes from `first` on and in front of `last` have been cleared. -/
structure Cleared (s : Console) (first last : ℕ) (t : Console) : Prop where
  video : ∀ o, t.video o =
    if first ≤ o ∧ o < last then if o % 2 = 0 then 0 else defaultColor else s.video o
  gScreenX : t.gScreenX = s.gScreenX
  gScreenY : t.gScreenY = s.gScreenY
  stays : s.Stays t

section scrolling

variable {s t : Console}

theorem Copied.copyCell {y x : ℕ} (h : s.Copied (160 * y + 2 * x) t) (hy : y + 1 < 25)
    (hx : x < 80) : s.Copied (160 * y + 2 * (x + 1)) (t.copyCell 1 (y + 1) x) := by
  have hread : charOffset x (y + 1 : ℕ) = 160 * y + 2 * x + 160 :=
    charOffset_eq (by omega) (by omega)
  have hwrite : charOffset x ((y + 1 : ℕ) - 1) = 160 * y + 2 * x :=
    charOffset_eq (by omega) (by omega)
  have hreadColor : colorOffset x (y + 1 : ℕ) = 160 * y + 2 * x + 161 :=
    colorOffset_eq (by omega) (by omega)
  have hwriteColor : colorOffset x ((y + 1 : ℕ) - 1) = 160 * y + 2 * x + 1 :=
    colorOffset_eq (by omega) (by omega)
  have hlt : 160 * y + 2 * x + 161 < screenBytes := by
    rw [screenBytes]
    omega
  simp only [Console.copyCell, getchr, putchar, getcolor, putcolor, hread, hwrite, hreadColor,
    hwriteColor]
  rw [Nat.mul_add, ← Nat.add_assoc, Nat.mul_one]
  generalize 160 * y + 2 * x = n at h hlt
  refine ⟨fun o ↦ ?_, h.gScreenX, h.gScreenY, h.stays.trans ?_⟩
  · -- the color is read after the character has been written, at another offset
    have hchar := h.video (n + 160)
    have hcolor := h.video (n + 161)
    have hold := h.video o
    simp only [load, store, Function.update_apply]
    rw [if_neg (by omega)] at hchar hcolor
    rw [if_neg (show n + 161 ≠ n by omega), hcolor, hchar, hold]
    rcases Nat.lt_trichotomy o n with ho | rfl | ho
    · rw [if_neg (by omega), if_neg (by omega), if_pos ho, if_pos (by omega)]
    · rw [if_neg (by omega), if_pos rfl, if_pos (by omega)]
    · by_cases h1 : o = n + 1
      · rw [if_pos h1, if_pos (by omega), h1]
      · rw [if_neg h1, if_neg (by omega), if_neg (by omega), if_neg (by omega)]
  · exact (stays_load (by omega)).trans ((stays_store (by omega) _).trans
      ((stays_load (by omega)).trans (stays_store (by omega) _)))

/-- The row above is the row `y + 1` of before. -/
theorem Copied.copyRow {y : ℕ} (h : s.Copied (160 * y) t) (hy : y + 1 < 25) :
    s.Copied (160 * (y + 1)) (t.copyRow 1 (y + 1)) := by
  have hrow : s.Copied (160 * y + 2 * (0 + 80))
      ((List.range' 0 80).foldl (Console.copyCell 1 (y + 1)) t) :=
    Run.loop_invariant (fun x u ↦ s.Copied (160 * y + 2 * x) u)
      (fun x u _ hx hu ↦ hu.copyCell hy (by omega)) h
  exact hrow

theorem Cleared.clearCell {first y x : ℕ} (h : s.Cleared first (160 * y + 2 * x) t)
    (hfirst : first ≤ 160 * y + 2 * x) (hy : y < 25) (hx : x < 80) :
    s.Cleared first (160 * y + 2 * (x + 1)) (t.clearCell y x) := by
  have hchar : charOffset x y = 160 * y + 2 * x := charOffset_eq (by omega) (by omega)
  have hcolor : colorOffset x y = 160 * y + 2 * x + 1 := colorOffset_eq (by omega) (by omega)
  have hlt : 160 * y + 2 * x + 1 < screenBytes := by
    rw [screenBytes]
    omega
  have heven : (160 * y + 2 * x) % 2 = 0 := by omega
  simp only [Console.clearCell, putchar, putcolor, hchar, hcolor]
  rw [Nat.mul_add, ← Nat.add_assoc, Nat.mul_one]
  generalize 160 * y + 2 * x = n at h hlt hfirst heven
  refine ⟨fun o ↦ ?_, h.gScreenX, h.gScreenY, h.stays.trans ?_⟩
  · have hold := h.video o
    simp only [store, Function.update_apply]
    rw [hold]
    by_cases h1 : o = n + 1
    · rw [if_pos h1, if_pos (by omega), if_neg (by omega)]
    · rw [if_neg h1]
      by_cases h0 : o = n
      · rw [if_pos h0, if_pos (by omega), if_pos (by omega)]
      · rw [if_neg h0]
        exact if_congr (by omega) rfl rfl
  · exact (stays_store (by omega) _).trans (stays_store (by omega) _)

theorem Cleared.clearRow {first y : ℕ} (h : s.Cleared first (160 * y) t) (hfirst : first ≤ 160 * y)
    (hy : y < 25) : s.Cleared first (160 * (y + 1)) (t.clearRow y) := by
  have hrow : s.Cleared first (160 * y + 2 * (0 + 80))
      ((List.range' 0 80).foldl (Console.clearCell y) t) :=
    Run.loop_invariant (fun x u ↦ s.Cleared first (160 * y + 2 * x) u)
      (fun x u _ hx hu ↦ hu.clearCell (by omega) hy (by omega)) h
  exact hrow

/-- The rows from `first` on are cleared. -/
theorem cleared_rows (s : Console) {first n : ℕ} (hn : first + n ≤ 25) :
    s.Cleared (160 * first) (160 * (first + n)) ((List.range' first n).foldl Console.clearRow s) :=
  Run.loop_invariant (fun y u ↦ s.Cleared (160 * first) (160 * y) u)
    (fun y u hy hlt hu ↦ hu.clearRow (by omega) (by omega))
    ⟨fun o ↦ by rw [if_neg (by omega)], rfl, rfl, Stays.refl s⟩

/-- Every row is the one that was below it, and the last one is empty. -/
structure Scrolled (video video' : ByteStore) : Prop where
  rows : ∀ o < 3840, video' o = video (o + 160)
  last : ∀ o, 3840 ≤ o → o < 4000 → video' o = if o % 2 = 0 then 0 else defaultColor

/-- **Scrolling by one row.** -/
theorem scrollback_spec (s : Console) :
    Scrolled s.video (s.scrollback 1).video ∧ (s.scrollback 1).gScreenX = s.gScreenX ∧
      (s.scrollback 1).gScreenY = s.gScreenY - 1 ∧ s.Stays (s.scrollback 1) := by
  have hcopied : s.Copied (160 * (1 + 24 - 1)) ((List.range' 1 24).foldl (Console.copyRow 1) s) :=
    Run.loop_invariant (fun y u ↦ s.Copied (160 * (y - 1)) u)
      (fun y u hy hlt hu ↦ by
        obtain ⟨k, rfl⟩ := Nat.exists_eq_add_of_le' hy
        exact hu.copyRow (by omega))
      ⟨fun o ↦ by rw [if_neg (by omega)], rfl, rfl, Stays.refl s⟩
  have hcleared : ∀ t : Console,
      t.Cleared (160 * 24) (160 * (24 + 1)) ((List.range' 24 1).foldl Console.clearRow t) :=
    fun t ↦ t.cleared_rows (by omega)
  have hscroll : s.scrollback 1 =
      let t := (List.range' 24 1).foldl Console.clearRow
        ((List.range' 1 24).foldl (Console.copyRow 1) s)
      { t with gScreenY := t.gScreenY - 1 } := rfl
  rw [hscroll]
  generalize (List.range' 1 24).foldl (Console.copyRow 1) s = t at hcopied
  replace hcleared := hcleared t
  generalize (List.range' 24 1).foldl Console.clearRow t = u at hcleared
  refine ⟨⟨fun o ho ↦ ?_, fun o h1 h2 ↦ ?_⟩, hcleared.gScreenX.trans hcopied.gScreenX, ?_,
    hcopied.stays.trans hcleared.stays⟩
  · show u.video o = _
    rw [hcleared.video, if_neg (by omega), hcopied.video, if_pos (by omega)]
  · show u.video o = _
    rw [hcleared.video, if_pos (by omega)]
  · show u.gScreenY - 1 = _
    rw [hcleared.gScreenY, hcopied.gScreenY]

/-- An empty screen, and the cursor at its beginning. -/
theorem clrscr_spec (s : Console) :
    (∀ o < 4000, s.clrscr.video o = if o % 2 = 0 then 0 else defaultColor) ∧
      s.clrscr.gScreenX = 0 ∧ s.clrscr.gScreenY = 0 ∧ s.clrscr.cursor = 0 ∧ s.Stays s.clrscr := by
  have hcleared : s.Cleared (160 * 0) (160 * (0 + 25))
      ((List.range' 0 25).foldl Console.clearRow s) := cleared_rows s (by omega)
  have hclear : s.clrscr = setcursor
      { (List.range' 0 25).foldl Console.clearRow s with gScreenX := 0, gScreenY := 0 } 0 0 := rfl
  rw [hclear]
  generalize (List.range' 0 25).foldl Console.clearRow s = t at hcleared
  refine ⟨fun o ho ↦ ?_, rfl, rfl, cursor_setcursor (i := 0) _ rfl (by omega), hcleared.stays⟩
  show t.video o = _
  rw [hcleared.video, if_pos (by omega)]

end scrolling

/-! ## The cursor -/

/-- The cursor is at a cell of the screen. -/
structure OnScreen (s : Console) : Prop where
  left : 0 ≤ s.gScreenX
  right : s.gScreenX < 80
  top : 0 ≤ s.gScreenY
  bottom : s.gScreenY < 25

/-- The number of cells in front of the cursor. -/
def position (s : Console) : ℤ := 80 * s.gScreenY + s.gScreenX

/-- The cursor is on the screen, or in the row behind it, or behind the end of a row. -/
structure Near (s : Console) : Prop where
  left : 0 ≤ s.gScreenX
  right : s.gScreenX ≤ 80
  top : 0 ≤ s.gScreenY
  bottom : s.gScreenY ≤ 25
  corner : s.gScreenX = 80 → s.gScreenY < 25

/-- What `wrap` makes of `s`. -/
structure Wrapped (s t : Console) : Prop where
  onScreen : t.OnScreen
  position : t.position = if s.position < 2000 then s.position else s.position - 80
  kept : s.position < 2000 → t.video = s.video
  scrolled : 2000 ≤ s.position → Scrolled s.video t.video
  cursor : (t.cursor : ℤ) = t.position
  stays : s.Stays t

section cursor

variable {s t u : Console}

theorem OnScreen.near (h : s.OnScreen) : s.Near :=
  ⟨h.left, Int.le_of_lt h.right, h.top, Int.le_of_lt h.bottom, fun _ ↦ h.bottom⟩

theorem OnScreen.position_nonneg (h : s.OnScreen) : 0 ≤ s.position := by
  have := h.left
  have := h.top
  rw [Console.position]
  omega

theorem OnScreen.position_lt (h : s.OnScreen) : s.position < 2000 := by
  have := h.right
  have := h.bottom
  rw [Console.position]
  omega

theorem OnScreen.setcursor (h : s.OnScreen) (x y : ℤ) : (s.setcursor x y).OnScreen :=
  ⟨h.left, h.right, h.top, h.bottom⟩

/-- The cursor location of the video card. -/
theorem OnScreen.cursor_setcursor (h : s.OnScreen) :
    ((s.setcursor s.gScreenX s.gScreenY).cursor : ℤ) = s.position := by
  have hlt := h.position_lt
  have hpos : s.gScreenY * 80 + s.gScreenX = s.position.toNat := by
    rw [Int.toNat_of_nonneg h.position_nonneg, position, Int.mul_comm]
  rw [Console.cursor_setcursor s hpos (by omega), Int.toNat_of_nonneg h.position_nonneg]

/-- The end of a row is the beginning of the next one. -/
theorem Near.wrapRow (h : s.Near) : s.wrapRow.Near ∧ s.wrapRow.gScreenX < 80 ∧
    s.wrapRow.position = s.position ∧ s.wrapRow.video = s.video ∧
      s.wrapRow.touched = s.touched := by
  obtain ⟨hleft, hright, htop, hbottom, hcorner⟩ := h
  rw [Console.wrapRow, unsigned_of_lt hleft (by omega), vgaWidth]
  split
  · have hend : s.gScreenX = 80 := by omega
    have hlt := hcorner hend
    refine ⟨⟨Int.le_refl 0, show (0 : ℤ) ≤ 80 by decide, show 0 ≤ s.gScreenY + 1 by omega,
      show s.gScreenY + 1 ≤ 25 by omega, fun hx ↦ absurd hx (show (0 : ℤ) ≠ 80 by decide)⟩,
      show (0 : ℤ) < 80 by decide, ?_, rfl, rfl⟩
    show 80 * (s.gScreenY + 1) + 0 = 80 * s.gScreenY + s.gScreenX
    omega
  · exact ⟨⟨hleft, hright, htop, hbottom, hcorner⟩, by omega, rfl, rfl, rfl⟩

/-- Behind the last row the screen is scrolled. -/
theorem Near.wrapScreen (h : s.Near) (hX : s.gScreenX < 80) : s.wrapScreen.OnScreen ∧
    s.wrapScreen.position = (if s.position < 2000 then s.position else s.position - 80) ∧
      (s.position < 2000 → s.wrapScreen.video = s.video) ∧
      (2000 ≤ s.position → Scrolled s.video s.wrapScreen.video) ∧ s.Stays s.wrapScreen := by
  obtain ⟨hleft, -, htop, hbottom, -⟩ := h
  have hposition : s.position = 80 * s.gScreenY + s.gScreenX := rfl
  rw [Console.wrapScreen, unsigned_of_lt htop (by omega), vgaHeight]
  split
  · obtain ⟨hscrolled, hscrollX, hscrollY, hstays⟩ := scrollback_spec s
    refine ⟨⟨by omega, by omega, by omega, by omega⟩, ?_, fun hlt ↦ by omega, fun _ ↦ hscrolled,
      hstays⟩
    rw [if_neg (by omega), position, hscrollX, hscrollY]
    omega
  · exact ⟨⟨hleft, hX, htop, by omega⟩, by rw [if_pos (by omega)], fun _ ↦ rfl,
      fun hge ↦ by omega, Stays.refl s⟩

/-- **The wrap.** -/
theorem Near.wrapped (h : s.Near) : s.Wrapped s.wrap := by
  obtain ⟨hnear, hX, hposition, hvideo, htouched⟩ := h.wrapRow
  obtain ⟨hon, hposition', hkept, hscrolled, hstays⟩ := hnear.wrapScreen hX
  rw [hposition] at hposition' hkept hscrolled
  rw [hvideo] at hkept hscrolled
  rw [wrap]
  generalize s.wrapRow.wrapScreen = u at *
  exact ⟨hon.setcursor _ _, hposition', hkept, hscrolled, hon.cursor_setcursor, fun a ha ↦
    htouched ▸ hstays a ha⟩

end cursor

/-! ## One character -/

/-- The cursor has moved on, or is in the last row. -/
def Advances (s t : Console) : Prop := s.position < t.position ∨ 1920 ≤ t.position

section characters

variable {s t u : Console} {fuel : ℕ}

theorem Advances.trans (h : s.Advances t) (h' : t.Advances u) : s.Advances u := by
  rw [Advances] at *
  omega

theorem Wrapped.advances (h : s.Wrapped t) (hlt : u.position < s.position) : u.Advances t := by
  have hposition := h.position
  rw [Advances]
  split at hposition <;> omega

/-- The offset of the cell at the cursor. -/
theorem OnScreen.charOffset_eq (h : s.OnScreen) :
    charOffset s.gScreenX s.gScreenY = 2 * s.position.toNat := by
  have hnonneg := h.position_nonneg
  have hlt := h.position_lt
  rw [position] at *
  exact Console.charOffset_eq (by omega) (by omega)

theorem OnScreen.stays_putchar (h : s.OnScreen) (c : UInt8) :
    s.Stays (s.putchar s.gScreenX s.gScreenY c) := by
  have hlt := h.position_lt
  refine stays_store ?_ c
  rw [h.charOffset_eq, screenBytes]
  omega

/-- The console with a character at the cursor, and the cursor behind it. -/
def typed (s : Console) (c : UInt8) : Console :=
  { s.putchar s.gScreenX s.gScreenY c with gScreenX := s.gScreenX + 1 }

theorem OnScreen.near_typed (h : s.OnScreen) (c : UInt8) : (s.typed c).Near := by
  obtain ⟨hleft, hright, htop, hbottom⟩ := h
  exact ⟨show 0 ≤ s.gScreenX + 1 by omega, show s.gScreenX + 1 ≤ 80 by omega, htop,
    show s.gScreenY ≤ 25 by omega, fun _ ↦ hbottom⟩

theorem position_typed (s : Console) (c : UInt8) : (s.typed c).position = s.position + 1 := by
  show 80 * s.gScreenY + (s.gScreenX + 1) = 80 * s.gScreenY + s.gScreenX + 1
  omega

/-- **A character** that stands for itself. -/
theorem OnScreen.putc_other (h : s.OnScreen) (fuel : ℕ) {c : UInt8} (hline : c ≠ newline)
    (htab : c ≠ tab) (hreturn : c ≠ carriageReturn) (hback : c ≠ backspace) :
    ∃ t, putc (fuel + 1) s c = some t ∧ (s.typed c).Wrapped t := by
  refine ⟨_, ?_, (h.near_typed c).wrapped⟩
  rw [putc, if_neg hline, if_neg htab, if_neg hreturn, if_neg hback]
  rfl

/-- A new line. -/
theorem OnScreen.putc_newline (h : s.OnScreen) (fuel : ℕ) :
    ∃ t, putc (fuel + 1) s newline = some t ∧
      ({ s with gScreenX := 0, gScreenY := s.gScreenY + 1 } : Console).Wrapped t := by
  obtain ⟨hleft, hright, htop, hbottom⟩ := h
  refine ⟨_, by rw [putc, if_pos rfl], Near.wrapped ?_⟩
  exact ⟨Int.le_refl 0, show (0 : ℤ) ≤ 80 by decide, show 0 ≤ s.gScreenY + 1 by omega,
    show s.gScreenY + 1 ≤ 25 by omega, fun hx ↦ absurd hx (show (0 : ℤ) ≠ 80 by decide)⟩

theorem OnScreen.putc_carriageReturn (h : s.OnScreen) (fuel : ℕ) :
    ∃ t, putc (fuel + 1) s carriageReturn = some t ∧
      ({ s with gScreenX := 0 } : Console).Wrapped t := by
  obtain ⟨hleft, hright, htop, hbottom⟩ := h
  refine ⟨_, by rw [putc, if_neg (by decide), if_neg (by decide), if_pos rfl], Near.wrapped ?_⟩
  exact ⟨Int.le_refl 0, show (0 : ℤ) ≤ 80 by decide, htop, show s.gScreenY ≤ 25 by omega,
    fun hx ↦ absurd hx (show (0 : ℤ) ≠ 80 by decide)⟩

/-- The cell in front of the cursor, if there is one. -/
theorem OnScreen.stepBack (h : s.OnScreen) : s.stepBack.OnScreen ∧
    s.stepBack.position = max (s.position - 1) 0 ∧ s.stepBack.touched = s.touched := by
  obtain ⟨hleft, hright, htop, hbottom⟩ := h
  rw [Console.stepBack]
  split
  · refine ⟨⟨show 0 ≤ s.gScreenX - 1 by omega, show s.gScreenX - 1 < 80 by omega, htop, hbottom⟩,
      ?_, rfl⟩
    show 80 * s.gScreenY + (s.gScreenX - 1) = max (80 * s.gScreenY + s.gScreenX - 1) 0
    omega
  · split
    · refine ⟨⟨show (0 : ℤ) ≤ 79 by decide, show (79 : ℤ) < 80 by decide,
        show 0 ≤ s.gScreenY - 1 by omega, show s.gScreenY - 1 < 25 by omega⟩, ?_, rfl⟩
      show 80 * (s.gScreenY - 1) + 79 = max (80 * s.gScreenY + s.gScreenX - 1) 0
      omega
    · refine ⟨⟨hleft, hright, htop, hbottom⟩, ?_, rfl⟩
      show 80 * s.gScreenY + s.gScreenX = max (80 * s.gScreenY + s.gScreenX - 1) 0
      omega

/-- **A backspace** takes the last cell back. -/
theorem OnScreen.putc_backspace (h : s.OnScreen) (fuel : ℕ) :
    ∃ t, putc (fuel + 1) s backspace = some t ∧ t.OnScreen ∧
      t.position = max (s.position - 1) 0 ∧ s.Stays t := by
  obtain ⟨hon, hposition, htouched⟩ := h.stepBack
  have hputc : putc (fuel + 1) s backspace =
      some (wrap (s.stepBack.putchar s.stepBack.gScreenX s.stepBack.gScreenY space)) := by
    rw [putc, if_neg (by decide), if_neg (by decide), if_neg (by decide), if_pos rfl]
  have hstays : s.Stays s.stepBack := fun a ha ↦ Or.inl (htouched ▸ ha)
  have hput := hon.stays_putchar space
  generalize s.stepBack = u at *
  have hon' : (u.putchar u.gScreenX u.gScreenY space).OnScreen :=
    ⟨hon.left, hon.right, hon.top, hon.bottom⟩
  have hwrapped := hon'.near.wrapped
  refine ⟨_, hputc, hwrapped.onScreen, ?_, hstays.trans (hput.trans hwrapped.stays)⟩
  rw [hwrapped.position, if_pos hon'.position_lt, ← hposition]
  rfl

/-- The loop for a tab ends: there are never more than four turns. -/
theorem tabLoop_spec {putc : Console → UInt8 → Option Console}
    (hspace : ∀ s : Console, s.OnScreen →
      ∃ t, putc s space = some t ∧ t.OnScreen ∧ s.Stays t ∧ s.Advances t) :
    ∀ (fuel : ℕ) (i : ℤ) (s : Console), i ≤ 4 → 4 < fuel + i → s.OnScreen →
      ∃ t, tabLoop putc fuel i s = some t ∧ t.OnScreen ∧ s.Stays t ∧
        (s.Advances t ∨ t = s ∧ ¬ i < 4 - s.gScreenX.tmod 4)
  | 0, i, s, hi, hfuel, _ => by omega
  | fuel + 1, i, s, hi, hfuel, h => by
    rw [tabLoop]
    by_cases hturn : i < 4 - s.gScreenX.tmod 4
    · have hnonneg := Int.tmod_nonneg 4 h.left
      obtain ⟨t, hput, ht, hstays, hadvances⟩ := hspace s h
      obtain ⟨u, hloop, hu, hstays', hrest⟩ :=
        tabLoop_spec hspace fuel (i + 1) t (by omega) (by omega) ht
      rw [if_pos hturn, hput]
      refine ⟨u, hloop, hu, hstays.trans hstays', Or.inl ?_⟩
      rcases hrest with hrest | ⟨rfl, -⟩
      · exact hadvances.trans hrest
      · exact hadvances
    · rw [if_neg hturn]
      exact ⟨s, rfl, h, Stays.refl s, Or.inr ⟨rfl, hturn⟩⟩

/-- **A tab**: the calls of `putc` for its spaces end. -/
theorem OnScreen.putc_tab (h : s.OnScreen) (hfuel : 6 ≤ fuel) :
    ∃ t, putc fuel s tab = some t ∧ t.OnScreen ∧ s.Stays t ∧ s.Advances t := by
  obtain ⟨fuel, rfl⟩ := Nat.exists_eq_add_of_le' hfuel
  have hspace : ∀ s : Console, s.OnScreen →
      ∃ t, putc (fuel + 5) s space = some t ∧ t.OnScreen ∧ s.Stays t ∧ s.Advances t := by
    intro s h
    obtain ⟨t, ht, hwrapped⟩ := h.putc_other (fuel + 4) (c := space) (by decide) (by decide)
      (by decide) (by decide)
    refine ⟨t, ht, hwrapped.onScreen, (h.stays_putchar space).trans hwrapped.stays,
      hwrapped.advances ?_⟩
    rw [position_typed]
    omega
  obtain ⟨t, hloop, ht, hstays, hadvances⟩ :=
    tabLoop_spec hspace (fuel + 5) 0 s (by decide) (by omega) h
  have hfirst : s.Advances t := by
    rcases hadvances with hadvances | ⟨-, hturn⟩
    · exact hadvances
    · have hlt := Int.tmod_lt_of_pos s.gScreenX (show (0 : ℤ) < 4 by decide)
      omega
  have hwrapped := ht.near.wrapped
  refine ⟨t.wrap, ?_, hwrapped.onScreen, hstays.trans hwrapped.stays, ?_⟩
  · rw [putc, if_neg (by decide), if_pos rfl, hloop]
    rfl
  · have hposition := hwrapped.position
    rw [if_pos ht.position_lt] at hposition
    rw [Advances, hposition]
    exact hfirst

theorem exists_fuel (hfuel : 6 ≤ fuel) : ∃ n, fuel = n + 1 := ⟨fuel - 1, by omega⟩

/-- **One call of `putc`.** -/
theorem OnScreen.putc (h : s.OnScreen) (c : UInt8) (hfuel : 6 ≤ fuel) :
    ∃ t, putc fuel s c = some t ∧ t.OnScreen ∧ s.Stays t := by
  by_cases htab : c = tab
  · obtain ⟨t, ht, hon, hstays, -⟩ := h.putc_tab hfuel
    exact ⟨t, htab ▸ ht, hon, hstays⟩
  obtain ⟨fuel, rfl⟩ := exists_fuel hfuel
  by_cases hline : c = newline
  · obtain ⟨t, ht, hwrapped⟩ := h.putc_newline fuel
    exact ⟨t, hline ▸ ht, hwrapped.onScreen, hwrapped.stays⟩
  by_cases hreturn : c = carriageReturn
  · obtain ⟨t, ht, hwrapped⟩ := h.putc_carriageReturn fuel
    exact ⟨t, hreturn ▸ ht, hwrapped.onScreen, hwrapped.stays⟩
  by_cases hback : c = backspace
  · obtain ⟨t, ht, hon, -, hstays⟩ := h.putc_backspace fuel
    exact ⟨t, hback ▸ ht, hon, hstays⟩
  · obtain ⟨t, ht, hwrapped⟩ := h.putc_other fuel hline htab hreturn hback
    exact ⟨t, ht, hwrapped.onScreen, (h.stays_putchar c).trans hwrapped.stays⟩

/-- **The console stays on the screen**: every string of bytes is printed, the cursor is on the
screen again, and nothing behind the screen has been accessed. -/
theorem putc_staysOnScreen (h : s.OnScreen) (bytes : List UInt8) (hfuel : 6 ≤ fuel) :
    ∃ t, Run.exec (Console.putc fuel) s bytes = some t ∧ t.OnScreen ∧
      ∀ a ∈ t.touched, a ∈ s.touched ∨ a < screenBytes := by
  show ∃ t, _ ∧ _ ∧ s.Stays t
  induction bytes generalizing s with
  | nil => exact ⟨s, rfl, h, Stays.refl s⟩
  | cons c bytes ih =>
    obtain ⟨t, ht, hon, hstays⟩ := h.putc c hfuel
    obtain ⟨u, hu, hon', hstays'⟩ := ih hon
    exact ⟨u, Run.exec_cons.mpr ⟨t, ht, hu⟩, hon', hstays.trans hstays'⟩

/-- The cursor is at the last cell. -/
def lastCell : Console := ⟨fun _ ↦ 0, 79, 24, 1999, []⟩

/-- A tab, a backspace, a carriage return and two new lines there. -/
theorem putc_staysOnScreen_lastCell :
    ∃ t, Run.exec (Console.putc 6) lastCell [0x09, 0x08, 0x0D, 0x0A, 0x0A] = some t ∧ t.OnScreen ∧
      ∀ a ∈ t.touched, a ∈ lastCell.touched ∨ a < screenBytes :=
  putc_staysOnScreen ⟨by decide, by decide, by decide, by decide⟩ _ (Nat.le_refl 6)

end characters

end Console

end AbOS
