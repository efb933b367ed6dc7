import AbOS.Lib.Lines
import AbOS.Terminal.Console

/-!
# What the console shows

A text that is printed with `puts` on an empty screen is wrapped at 80 characters.  The screen shows
the last 25 of these rows (`Console.puts_shows`).

The console knows nothing of the text: it has a screen, a cursor and a rule for the end of a row.
`Console.Shows` relates them to the rows of the whole text.  A character at the end of the last row
keeps the relation (`Shows.other`) and so does a new row, whether the screen is scrolled for it
(`Displays.scroll`) or not (`Displays.newRow`).
-/

set_option autoImplicit false

namespace AbOS

/-- A character that is no control character. -/
def Printable (c : UInt8) : Prop := 0x20 ≤ c

instance (c : UInt8) : Decidable (Printable c) := inferInstanceAs (Decidable (_ ≤ _))

namespace Console

/-- The cells of the screen are the last 25 rows, and 0 behind the end of a row and behind the last
row. -/
def Displays (video : ByteStore) (rows : List (List UInt8)) : Prop :=
  ∀ r < 25, ∀ c < 80, video (2 * (80 * r + c)) = ((Lines.last 25 rows).getD r []).getD c 0

/-- The screen shows the rows, and the cursor is behind the last one. -/
structure Shows (s : Console) (rows : List (List UInt8)) : Prop where
  cells : Displays s.video rows
  gScreenX : s.gScreenX = (rows.getLast?.getD []).length
  gScreenY : s.gScreenY = min rows.length 25 - 1
  cursor : (s.cursor : ℤ) = 80 * s.gScreenY + s.gScreenX

/-! ## The rows -/

section rows

variable {video video' : ByteStore} {rows front : List (List UInt8)} {row : List UInt8}

theorem displays_iff : Displays video rows ↔ ∀ r < 25, ∀ c < 80,
    video (2 * (80 * r + c)) = (rows.getD (rows.length - 25 + r) []).getD c 0 := by
  rw [Displays]
  simp only [Lines.getD_last]

/-- A character is written behind the last row. -/
theorem Displays.write (h : Displays video (front ++ [row])) (hrow : row.length < 80) {offset : ℕ}
    (hoffset : offset = 2 * (80 * (min (front.length + 1) 25 - 1) + row.length)) (byte : UInt8) :
    Displays (Function.update video offset byte) (front ++ [row ++ [byte]]) := by
  rw [displays_iff] at h ⊢
  intro r hr c hc
  have hold := h r hr c hc
  have hlength : ∀ l : List UInt8, (front ++ [l]).length = front.length + 1 := fun l ↦
    List.length_append
  rw [hlength, Lines.getD_concat] at hold ⊢
  rw [Function.update_apply]
  by_cases hlast : front.length + 1 - 25 + r = front.length
  · -- the last row
    rw [if_pos hlast] at hold ⊢
    rw [Lines.getD_concat, hold]
    exact if_congr (by omega) rfl rfl
  · rw [if_neg hlast] at hold ⊢
    rw [if_neg (by omega), hold]

/-- An empty row is added, and there is room for it. -/
theorem Displays.newRow (h : Displays video rows) (hroom : rows.length < 25) :
    Displays video (rows ++ [[]]) := by
  rw [displays_iff] at h ⊢
  intro r hr c hc
  have hindex : (rows ++ [[]]).length - 25 + r = rows.length - 25 + r := by
    rw [List.length_append, List.length_singleton]
    omega
  rw [h r hr c hc, hindex, Lines.getD_concat]
  split
  · rw [List.getD_eq_default rows _ (by omega)]
  · rfl

/-- An empty row is added, and the screen is scrolled for it. -/
theorem Displays.scroll (h : Displays video rows) (hfull : 25 ≤ rows.length)
    (hscrolled : Scrolled video video') : Displays video' (rows ++ [[]]) := by
  rw [displays_iff] at h ⊢
  intro r hr c hc
  have hindex : (rows ++ [[]]).length - 25 + r = rows.length - 25 + (r + 1) := by
    rw [List.length_append, List.length_singleton]
    omega
  rw [hindex, Lines.getD_concat]
  split
  · -- the row that has been cleared
    rw [hscrolled.last _ (by omega) (by omega), if_pos (by omega)]
    rfl
  · rw [hscrolled.rows _ (by omega), ← h (r + 1) (by omega) c hc]
    exact congrArg video (by omega)

end rows

/-! ## The text -/

section text

variable {s t u : Console} {front : List (List UInt8)} {row : List UInt8} {fuel : ℕ}

theorem OnScreen.eq_of_position (h : s.OnScreen) {x y : ℤ} (hposition : s.position = 80 * y + x)
    (h0 : 0 ≤ x) (hlt : x < 80) : s.gScreenX = x ∧ s.gScreenY = y := by
  obtain ⟨hleft, hright, htop, hbottom⟩ := h
  rw [position] at hposition
  omega

/-- The cursor is behind the last row. -/
theorem Shows.cursor_eq (h : s.Shows (front ++ [row])) :
    s.gScreenX = row.length ∧ s.gScreenY = min (front.length + 1) 25 - 1 := by
  have hX := h.gScreenX
  have hY := h.gScreenY
  rw [List.getLast?_concat, Option.getD_some] at hX
  rw [List.length_append, List.length_singleton] at hY
  exact ⟨hX, by omega⟩

theorem Shows.onScreen (h : s.Shows (front ++ [row])) (hrow : row.length < 80) : s.OnScreen := by
  obtain ⟨hX, hY⟩ := h.cursor_eq
  exact ⟨by omega, by omega, by omega, by omega⟩

/-- The cells and the position behind the last row are all there is to it. -/
theorem shows_of_position (hcells : Displays s.video (front ++ [row])) (hrow : row.length < 80)
    (hon : s.OnScreen) (hposition : s.position = 80 * (min (front.length + 1) 25 - 1) + row.length)
    (hcursor : (s.cursor : ℤ) = s.position) : s.Shows (front ++ [row]) := by
  obtain ⟨hX, hY⟩ := hon.eq_of_position hposition (by omega) (by omega)
  refine ⟨hcells, ?_, ?_, hcursor⟩
  · rw [List.getLast?_concat, Option.getD_some]
    exact hX
  · rw [List.length_append, List.length_singleton]
    omega

/-- The cursor comes to the beginning of a new row. -/
theorem shows_newRow (hwrapped : s.Wrapped t) {rows : List (List UInt8)}
    (hcells : Displays s.video rows) (hposition : s.position = 80 * min rows.length 25) :
    t.Shows (rows ++ [[]]) := by
  have hposition' := hwrapped.position
  by_cases hroom : rows.length < 25
  · rw [if_pos (by omega)] at hposition'
    refine shows_of_position ?_ (by decide) hwrapped.onScreen ?_ hwrapped.cursor
    · rw [hwrapped.kept (by omega)]
      exact hcells.newRow hroom
    · rw [List.length_nil]
      omega
  · rw [if_neg (by omega)] at hposition'
    refine shows_of_position ?_ (by decide) hwrapped.onScreen ?_ hwrapped.cursor
    · exact hcells.scroll (by omega) (hwrapped.scrolled (by omega))
    · rw [List.length_nil]
      omega

/-- **A new line.** -/
theorem Shows.newline (h : s.Shows (front ++ [row]))
    (hwrapped : ({ s with gScreenX := 0, gScreenY := s.gScreenY + 1 } : Console).Wrapped t) :
    t.Shows (front ++ [row, []]) := by
  obtain ⟨-, hY⟩ := h.cursor_eq
  have hrows : front ++ [row, []] = (front ++ [row]) ++ [[]] := by
    rw [List.append_assoc, List.singleton_append]
  rw [hrows]
  refine shows_newRow hwrapped h.cells ?_
  show 80 * (s.gScreenY + 1) + 0 = _
  rw [List.length_append, List.length_singleton]
  omega

/-- **A character**, and a new row if that is full. -/
theorem Shows.other (h : s.Shows (front ++ [row])) (hrow : row.length < 80) {c : UInt8}
    (hwrapped : (s.typed c).Wrapped t) : t.Shows
      (if row.length + 1 = 80 then front ++ [row ++ [c], []] else front ++ [row ++ [c]]) := by
  obtain ⟨hX, hY⟩ := h.cursor_eq
  have hon := h.onScreen hrow
  have hoffset := hon.charOffset_eq
  have hposition := position_typed s c
  have hbefore : s.position = 80 * (min (front.length + 1) 25 - 1) + row.length := by
    rw [position]
    omega
  have hcells : Displays (s.typed c).video (front ++ [row ++ [c]]) :=
    h.cells.write hrow (by omega) c
  split
  · have hrows : front ++ [row ++ [c], []] = (front ++ [row ++ [c]]) ++ [[]] := by
      rw [List.append_assoc, List.singleton_append]
    rw [hrows]
    refine shows_newRow hwrapped hcells ?_
    rw [List.length_append, List.length_singleton]
    omega
  · have hposition' := hwrapped.position
    rw [if_pos (by omega)] at hposition'
    refine shows_of_position ?_ ?_ hwrapped.onScreen ?_ hwrapped.cursor
    · rw [hwrapped.kept (by omega)]
      exact hcells
    · rw [List.length_append, List.length_singleton]
      omega
    · rw [List.length_append, List.length_singleton]
      omega

/-- An empty text. -/
theorem shows_clrscr (s : Console) : s.clrscr.Shows [[]] := by
  obtain ⟨hcells, hX, hY, hcursor, -⟩ := clrscr_spec s
  refine ⟨fun r hr c hc ↦ ?_, hX, hY, by rw [hcursor, hX, hY]; rfl⟩
  rw [hcells _ (by omega), if_pos (by omega)]
  cases r <;> rfl

/-- The rows of a text, and then one character more. -/
theorem Shows.putc {text : List UInt8} (h : s.Shows (Lines.wrapped 80 AbOS.newline text))
    (fuel : ℕ) {c : UInt8} (hc : c = AbOS.newline ∨ Printable c) :
    ∃ t, putc (fuel + 1) s c = some t ∧
      t.Shows (Lines.wrapped 80 AbOS.newline (text ++ [c])) := by
  obtain ⟨front, row, hrows, hlt, hline, hchar⟩ :=
    Lines.exists_wrapped (w := 80) (by decide) AbOS.newline text
  rw [hrows] at h
  have hon := h.onScreen hlt
  by_cases hnew : c = AbOS.newline
  · obtain ⟨t, ht, hwrapped⟩ := hon.putc_newline fuel
    rw [hnew, hline]
    exact ⟨t, ht, h.newline hwrapped⟩
  · have hprintable := hc.resolve_left hnew
    have hcontrol : ∀ b : UInt8, ¬ Printable b → c ≠ b := fun b hb he ↦ hb (he ▸ hprintable)
    obtain ⟨t, ht, hwrapped⟩ := hon.putc_other fuel hnew (hcontrol _ (by decide))
      (hcontrol _ (by decide)) (hcontrol _ (by decide))
    rw [hchar c hnew]
    exact ⟨t, ht, h.other hlt hwrapped⟩

/-- The same for several characters. -/
theorem Shows.puts {done text : List UInt8} (h : s.Shows (Lines.wrapped 80 AbOS.newline done))
    (fuel : ℕ) (htext : ∀ c ∈ text, c = AbOS.newline ∨ Printable c) :
    ∃ t, puts (fuel + 1) s text = some t ∧
      t.Shows (Lines.wrapped 80 AbOS.newline (done ++ text)) := by
  induction text generalizing s done with
  | nil => exact ⟨s, rfl, (List.append_nil done).symm ▸ h⟩
  | cons c text ih =>
    have hc := htext c List.mem_cons_self
    have hzero : c ≠ 0 := by
      rintro rfl
      exact absurd hc (by decide)
    obtain ⟨t, ht, hshows⟩ := h.putc fuel hc
    obtain ⟨u, hu, hshows'⟩ := ih hshows fun d hd ↦ htext d (List.mem_cons_of_mem c hd)
    refine ⟨u, ?_, ?_⟩
    · rw [Console.puts, if_neg hzero, ht]
      exact hu
    · rwa [List.append_assoc, List.singleton_append] at hshows'

/-- **The screen shows the tail of the text** that is printed on it when it was empty: the last 25
rows of the text in rows of 80 characters, and the cursor behind them. -/
theorem puts_shows (s : Console) {text : List UInt8}
    (htext : ∀ c ∈ text, c = AbOS.newline ∨ Printable c) (hfuel : 0 < fuel) :
    ∃ t, Console.puts fuel s.clrscr text = some t ∧
      t.Shows (Lines.wrapped 80 AbOS.newline text) := by
  obtain ⟨fuel, rfl⟩ := Nat.exists_eq_add_of_lt hfuel
  have hempty : s.clrscr.Shows (Lines.wrapped 80 AbOS.newline []) := shows_clrscr s
  rw [Nat.zero_add]
  exact hempty.puts fuel htext

/-- `a` and `b` in two lines. -/
theorem puts_shows_twoLines : ∃ t, Console.puts 1 lastCell.clrscr [0x61, 0x0A, 0x62] = some t ∧
    t.Shows (Lines.wrapped 80 AbOS.newline [0x61, 0x0A, 0x62]) :=
  puts_shows lastCell (by decide +kernel) Nat.one_pos

end text

end Console

end AbOS
