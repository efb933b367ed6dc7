import AbOS.Lib.ByteStore
import AbOS.Terminal.Printf

/-!
# `kprintf`

`kprintf` reads its format one character at a time, as a machine with five states.  The characters
that no length modifier begins with jump from three of these states into the code of the last one,
which performs the conversion and sets everything back.

The format language is a grammar (`Grammar`): characters that stand for themselves, directives with
at most one length modifier, and at the end of the string a directive without a conversion.  Every
format has one reading in it (`existsUnique_grammar`), and `kprintf` prints this reading with the
arguments, one for each directive that takes one (`kprintf_exact`).
-/

set_option autoImplicit false

namespace AbOS

/-- The character `%`. -/
def percent : UInt8 := 0x25

/-- The character `h`. -/
def charH : UInt8 := 0x68

/-- The character `l`. -/
def charL : UInt8 := 0x6C

/-- `PRINTF_STATE_NORMAL` and so on. -/
inductive PrintfState where
  | normal
  | length
  | lengthShort
  | lengthLong
  | spec
  deriving DecidableEq, Repr

/-- The variables of `kprintf`, and what was printed. -/
structure Kprintf where
  state : PrintfState
  length : PrintfLength
  base10 : BitVec 32
  sign : Bool
  args : VaList
  output : List UInt8

/-- `puts`: the characters that are printed of the string at `str`. -/
def putsString (mem : ByteStore) : ℕ → BitVec 32 → Option (List UInt8)
  | 0, _ => none
  | fuel + 1, str =>
    if mem str.toNat = 0 then some []
    else
      match putsString mem fuel (str + 1) with
      | none => none
      | some cs => some (mem str.toNat :: cs)

namespace Kprintf

/-- The call of `printf_number`. -/
def number (fuel : ℕ) (s : Kprintf) : Option Kprintf :=
  match printfNumber fuel s.args s.length s.sign s.base10 with
  | none => none
  | some r => some { s with output := s.output ++ r.output, args := r.args }

/-- The `switch` over the conversion. -/
def convert (fuel : ℕ) (mem : ByteStore) (s : Kprintf) (c : UInt8) : Option Kprintf :=
  if c = 0x63 then
    let (w, args) := s.args.arg32
    some { s with output := s.output ++ [UInt8.ofNat w.toNat], args }
  else if c = 0x73 then
    let (str, args) := s.args.arg32
    match putsString mem fuel str with
    | none => none
    | some cs => some { s with output := s.output ++ cs, args }
  else if c = percent then some { s with output := s.output ++ [percent] }
  else if c = 0x64 ∨ c = 0x69 then number fuel { s with base10 := 10, sign := true }
  else if c = 0x75 then number fuel { s with base10 := 10, sign := false }
  else if c = 0x58 ∨ c = 0x78 ∨ c = 0x70 then number fuel { s with base10 := 16, sign := false }
  else if c = 0x6F then number fuel { s with base10 := 8, sign := false }
  else some s

/-- `PRINTF_STATE_SPEC_`. -/
def spec (fuel : ℕ) (mem : ByteStore) (s : Kprintf) (c : UInt8) : Option Kprintf :=
  match convert fuel mem s c with
  | none => none
  | some s => some { s with state := .normal, length := .default, base10 := 10, sign := false }

/-- The `switch` over the state, for one character. -/
def step (fuel : ℕ) (mem : ByteStore) (s : Kprintf) (c : UInt8) : Option Kprintf :=
  match s.state with
  | .normal =>
    if c = percent then some { s with state := .length }
    else some { s with output := s.output ++ [c] }
  | .length =>
    if c = charH then some { s with length := .short, state := .lengthShort }
    else if c = charL then some { s with length := .long, state := .lengthLong }
    else spec fuel mem s c
  | .lengthShort =>
    if c = charH then some { s with length := .shortShort, state := .spec }
    else spec fuel mem s c
  | .lengthLong =>
    if c = charL then some { s with length := .longLong, state := .spec }
    else spec fuel mem s c
  | .spec => spec fuel mem s c

/-- The loop over the format, which is given by its characters. -/
def loop (fuel : ℕ) (mem : ByteStore) : Kprintf → List UInt8 → Option Kprintf
  | s, [] => some s
  | s, c :: fmt =>
    if c = 0 then some s
    else
      match step fuel mem s c with
      | none => none
      | some s => loop fuel mem s fmt

end Kprintf

/-- `kprintf`: what it prints, and the `va_list` behind the last argument that it has read.  The
fuel is for the loops of `puts` and of `printf_number`. -/
def kprintf (fuel : ℕ) (mem : ByteStore) (fmt : List UInt8) (args : VaList) :
    Option (List UInt8 × VaList) :=
  (Kprintf.loop fuel mem ⟨.normal, .default, 10, false, args, []⟩ fmt).map fun s ↦
    (s.output, s.args)

/-! ## The format language -/

/-- The characters of a length modifier. -/
def PrintfLength.text : PrintfLength → List UInt8
  | .default => []
  | .shortShort => [charH, charH]
  | .short => [charH]
  | .long => [charL]
  | .longLong => [charL, charL]

/-- The modifier goes on with this character. -/
def PrintfLength.Continues (length : PrintfLength) (c : UInt8) : Prop :=
  match length with
  | .default => c = charH ∨ c = charL
  | .short => c = charH
  | .long => c = charL
  | .shortShort | .longLong => False

/-- A character for itself, a directive, or one without a conversion. -/
inductive FormatItem where
  | literal (c : UInt8)
  | directive (length : PrintfLength) (conversion : UInt8)
  | cutOff (length : PrintfLength)
  deriving DecidableEq, Repr

/-- How a format is read. -/
inductive Grammar : List UInt8 → List FormatItem → Prop
  | nil : Grammar [] []
  | literal {c : UInt8} {fmt : List UInt8} {items : List FormatItem} :
    c ≠ percent → Grammar fmt items → Grammar (c :: fmt) (.literal c :: items)
  | directive {length : PrintfLength} {c : UInt8} {fmt : List UInt8} {items : List FormatItem} :
    ¬ length.Continues c → Grammar fmt items →
      Grammar (percent :: (length.text ++ c :: fmt)) (.directive length c :: items)
  | cutOff (length : PrintfLength) : Grammar (percent :: length.text) [.cutOff length]

/-! ## Arguments -/

/-- The character of a conversion of numbers. -/
def Conversion.char : Conversion → UInt8
  | .d => 0x64
  | .i => 0x69
  | .u => 0x75
  | .x => 0x78
  | .X => 0x58
  | .p => 0x70
  | .o => 0x6F

/-- The conversion of numbers with this character. -/
def conversionOf (c : UInt8) : Option Conversion :=
  [Conversion.d, .i, .u, .x, .X, .p, .o].find? fun conversion ↦ conversion.char = c

/-- An argument: an `int` or a `long`, a `long long`, or a pointer with the string that it points
to. -/
inductive Arg where
  | int (w : BitVec 32)
  | longLong (w : BitVec 64)
  | string (str : BitVec 32) (cs : List UInt8)

/-- The types of arguments. -/
inductive ArgType where
  | int
  | longLong
  | string
  deriving DecidableEq, Repr

namespace Arg

def type : Arg → ArgType
  | int _ => .int
  | longLong _ => .longLong
  | string _ _ => .string

/-- The words on the stack. -/
def words : Arg → List (BitVec 32)
  | int w => [w]
  | longLong w => [w.extractLsb' 0 32, w.extractLsb' 32 32]
  | string str _ => [str]

end Arg

/-- The string at `str`, with its terminator. -/
def IsString (mem : ByteStore) : BitVec 32 → List UInt8 → Prop
  | str, [] => mem str.toNat = 0
  | str, c :: cs => c ≠ 0 ∧ mem str.toNat = c ∧ IsString mem (str + 1) cs

/-- The string of an argument is in memory. -/
def Arg.InMemory (mem : ByteStore) : Arg → Prop
  | .string str cs => IsString mem str cs
  | _ => True

/-- The string of an argument. -/
def Arg.chars : Arg → List UInt8
  | .string _ cs => cs
  | _ => []

/-- The next words of the `va_list`. -/
def VaList.Holds (va : VaList) : List (BitVec 32) → Prop
  | [] => True
  | w :: ws => va.words va.next = w ∧ Holds { va with next := va.next + 1 } ws

/-! ## What is printed -/

/-- The number that a conversion prints for an `int`: its value, but the smallest one with a sign stays
negative and is widened to 64 bits. -/
def Conversion.intValue (conversion : Conversion) (w : BitVec 32) : ℤ :=
  if conversion.sign = true then if w = BitVec.intMin 32 then -(2 ^ 64 - 2 ^ 31) else w.toInt
  else w.toNat

/-- The number that a conversion prints for a `long long`. -/
def Conversion.longLongValue (conversion : Conversion) (w : BitVec 64) : ℤ :=
  if conversion.sign = true then w.toInt else w.toNat

namespace FormatItem

/-- The type of the argument that is taken, if any is. -/
def takes : FormatItem → Option ArgType
  | literal _ | cutOff _ => none
  | directive length c =>
    if c = 0x63 then some .int
    else if c = 0x73 then some .string
    else (conversionOf c).map fun _ ↦ if length = .longLong then .longLong else .int

/-- What is printed, with the argument that is taken. -/
def rendered (arg : Option Arg) : FormatItem → List UInt8
  | literal c => [c]
  | cutOff _ => []
  | directive _ c =>
    match arg with
    | none => if c = percent then [percent] else []
    | some (.string _ cs) => cs
    | some (.int w) =>
      match conversionOf c with
      | none => [UInt8.ofNat w.toNat]
      | some conversion => Numeral.integer conversion.base10.toNat (conversion.intValue w)
    | some (.longLong w) =>
      match conversionOf c with
      | none => []
      | some conversion => Numeral.integer conversion.base10.toNat (conversion.longLongValue w)

end FormatItem

/-- What the items print, one after the other; each takes the next argument, or none. -/
def printed : List FormatItem → List Arg → List UInt8
  | [], _ => []
  | item :: items, args =>
    match item.takes with
    | none => item.rendered none ++ printed items args
    | some _ => item.rendered args.head? ++ printed items args.tail

/-- The arguments are those that the items take. -/
def Matches (items : List FormatItem) (args : List Arg) : Prop :=
  args.map Arg.type = items.filterMap FormatItem.takes

/-! ## The grammar -/

section grammar

variable {length length' : PrintfLength} {c c' : UInt8} {fmt fmt' : List UInt8}
  {items items' : List FormatItem}

theorem charH_ne_charL : charH ≠ charL := by decide

/-- Where a modifier ends. -/
theorem PrintfLength.text_append_inj (h : ¬ length.Continues c) (h' : ¬ length'.Continues c')
    (heq : length.text ++ c :: fmt = length'.text ++ c' :: fmt') :
    length = length' ∧ c = c' ∧ fmt = fmt' := by
  cases length <;> cases length' <;>
    simp_all [text, Continues, charH_ne_charL, charH_ne_charL.symm]

/-- A conversion does not belong to the modifier. -/
theorem PrintfLength.text_append_ne (h : ¬ length.Continues c) :
    length.text ++ c :: fmt ≠ length'.text := by
  cases length <;> cases length' <;>
    simp_all [text, Continues, charH_ne_charL, charH_ne_charL.symm]

theorem PrintfLength.text_inj (h : length.text = length'.text) : length = length' := by
  cases length <;> cases length' <;> first | rfl | exact absurd h (by decide)

/-- A modifier and what follows it. -/
theorem exists_modifier (fmt : List UInt8) : ∃ length : PrintfLength, fmt = length.text ∨
    ∃ c rest, ¬ length.Continues c ∧ fmt = length.text ++ c :: rest := by
  rcases fmt with - | ⟨c₁, fmt⟩
  · exact ⟨.default, Or.inl rfl⟩
  by_cases hh : c₁ = charH
  · rw [hh]
    rcases fmt with - | ⟨c₂, fmt⟩
    · exact ⟨.short, Or.inl rfl⟩
    by_cases hh₂ : c₂ = charH
    · rw [hh₂]
      rcases fmt with - | ⟨c₃, fmt⟩
      · exact ⟨.shortShort, Or.inl rfl⟩
      · exact ⟨.shortShort, Or.inr ⟨c₃, fmt, not_false, rfl⟩⟩
    · exact ⟨.short, Or.inr ⟨c₂, fmt, hh₂, rfl⟩⟩
  by_cases hl : c₁ = charL
  · rw [hl]
    rcases fmt with - | ⟨c₂, fmt⟩
    · exact ⟨.long, Or.inl rfl⟩
    by_cases hl₂ : c₂ = charL
    · rw [hl₂]
      rcases fmt with - | ⟨c₃, fmt⟩
      · exact ⟨.longLong, Or.inl rfl⟩
      · exact ⟨.longLong, Or.inr ⟨c₃, fmt, not_false, rfl⟩⟩
    · exact ⟨.long, Or.inr ⟨c₂, fmt, hl₂, rfl⟩⟩
  · exact ⟨.default, Or.inr ⟨c₁, fmt, not_or.mpr ⟨hh, hl⟩, rfl⟩⟩

/-- What can follow a `%`. -/
theorem Grammar.percent_cases (h : Grammar (percent :: fmt) items) :
    (∃ length c rest items', ¬ PrintfLength.Continues length c ∧ fmt = length.text ++ c :: rest ∧
      items = .directive length c :: items' ∧ Grammar rest items') ∨
      ∃ length : PrintfLength, fmt = length.text ∧ items = [.cutOff length] := by
  generalize hs : percent :: fmt = s at h
  cases h with
  | nil => cases hs
  | literal hc _ => exact absurd (List.cons.inj hs).1.symm hc
  | directive hc h => exact Or.inl ⟨_, _, _, _, hc, (List.cons.inj hs).2, rfl, h⟩
  | cutOff length => exact Or.inr ⟨length, (List.cons.inj hs).2, rfl⟩

/-- A format has one reading at most. -/
theorem Grammar.unique (h : Grammar fmt items) (h' : Grammar fmt items') : items = items' := by
  induction h generalizing items' with
  | nil =>
    cases h'
    rfl
  | literal hc _ ih =>
    cases h' with
    | literal _ h' => rw [ih h']
    | directive _ _ => exact absurd rfl hc
    | cutOff _ => exact absurd rfl hc
  | directive hc h ih =>
    rcases h'.percent_cases with ⟨_, _, _, _, hc', heq, rfl, h'⟩ | ⟨_, heq, -⟩
    · obtain ⟨rfl, rfl, rfl⟩ := PrintfLength.text_append_inj hc hc' heq
      rw [ih h']
    · exact absurd heq (PrintfLength.text_append_ne hc)
  | cutOff length =>
    rcases h'.percent_cases with ⟨_, _, _, _, hc', heq, -⟩ | ⟨_, heq, rfl⟩
    · exact absurd heq.symm (PrintfLength.text_append_ne hc')
    · rw [PrintfLength.text_inj heq]

/-- Every format has a reading. -/
theorem exists_grammar (fmt : List UInt8) : ∃ items, Grammar fmt items := by
  induction hn : fmt.length using Nat.strong_induction_on generalizing fmt with
  | h n ih =>
    rcases fmt with - | ⟨c, fmt⟩
    · exact ⟨[], .nil⟩
    rw [List.length_cons] at hn
    by_cases hc : c = percent
    · rw [hc]
      obtain ⟨length, rfl | ⟨c, rest, hc, rfl⟩⟩ := exists_modifier fmt
      · exact ⟨_, .cutOff length⟩
      · rw [List.length_append, List.length_cons] at hn
        obtain ⟨items, h⟩ := ih rest.length (by omega) rest rfl
        exact ⟨_, .directive hc h⟩
    · obtain ⟨items, h⟩ := ih fmt.length (by omega) fmt rfl
      exact ⟨_, .literal hc h⟩

/-- **Every format has one reading.** -/
theorem existsUnique_grammar (fmt : List UInt8) : ∃! items, Grammar fmt items := by
  obtain ⟨items, h⟩ := exists_grammar fmt
  exact ⟨items, h, fun _ h' ↦ h'.unique h⟩

end grammar

/-! ## One conversion -/

/-- `va_list` behind `n` words more. -/
def VaList.skip (va : VaList) (n : ℕ) : VaList := { va with next := va.next + n }

/-- The numeral of a number that was loaded with its sign. -/
def numberText (conversion : Conversion) (number : BitVec 64 × ℤ) : List UInt8 :=
  (if conversion.sign = true ∧ number.2 < 0 then [Numeral.minus] else []) ++
    Numeral.natural conversion.base10.toNat number.1.toNat

/-- An `int` is printed as the number that the conversion takes it for. -/
theorem numberText_number32 (conversion : Conversion) (w : BitVec 32) :
    numberText conversion (number32 w conversion.sign) =
      Numeral.integer conversion.base10.toNat (conversion.intValue w) := by
  rw [Conversion.intValue]
  by_cases h : conversion.sign = true ∧ w = BitVec.intMin 32
  · obtain ⟨hsign, rfl⟩ := h
    have hload : number32 (BitVec.intMin 32) true = (BitVec.ofNat 64 (2 ^ 64 - 2 ^ 31), -1) := by
      decide
    rw [if_pos hsign, if_pos rfl, numberText, hsign, hload]
    rfl
  · have hvalue : (if conversion.sign = true then
        if w = BitVec.intMin 32 then -(2 ^ 64 - 2 ^ 31) else w.toInt else (w.toNat : ℤ)) =
          if conversion.sign = true then w.toInt else w.toNat := by
      split_ifs with hsign hmin
      · exact absurd ⟨hsign, hmin⟩ h
      · rfl
      · rfl
    rw [hvalue]
    exact integer_eq (number32_of_ne h).1 (number32_of_ne h).2

/-- A `long long` is printed as its numeral. -/
theorem numberText_number64 (conversion : Conversion) (w : BitVec 64) :
    numberText conversion (number64 w conversion.sign) =
      Numeral.integer conversion.base10.toNat (conversion.longLongValue w) :=
  integer_eq (number64_eq w _).1 (number64_eq w _).2

/-- What `kprintf` starts with, and comes back to behind every directive. -/
def Kprintf.fresh (args : VaList) (output : List UInt8) : Kprintf :=
  ⟨.normal, .default, 10, false, args, output⟩

section conversion

variable {mem : ByteStore} {fuel : ℕ} {s : Kprintf} {va : VaList} {ws : List (BitVec 32)}

theorem putsString_eq {str : BitVec 32} {cs : List UInt8} (h : IsString mem str cs)
    (hfuel : cs.length < fuel) : putsString mem fuel str = some cs := by
  induction cs generalizing str fuel with
  | nil =>
    obtain ⟨fuel, rfl⟩ := Nat.exists_eq_add_of_lt hfuel
    rw [putsString, if_pos (show mem str.toNat = 0 from h)]
  | cons c cs ih =>
    obtain ⟨hc, hmem, hrest⟩ := h
    obtain ⟨fuel, rfl⟩ : ∃ n, fuel = n + 1 := ⟨fuel - 1, by omega⟩
    rw [List.length_cons] at hfuel
    rw [putsString, hmem, if_neg hc, ih hrest (by omega)]

/-- Where `printf_number` leaves the `va_list`. -/
theorem printfNumber_args {args : VaList} {length : PrintfLength} {sign : Bool}
    {base10 : BitVec 32} {r : PrintedNumber}
    (h : printfNumber fuel args length sign base10 = some r) :
    r.args = (loadNumber args length sign).2 := by
  rw [printfNumber] at h
  dsimp only at h
  split at h
  · cases h
  · cases h
    rfl

/-- The call of `printf_number` for a conversion. -/
theorem number_eq (conversion : Conversion) (hsign : s.sign = conversion.sign)
    (hbase10 : s.base10 = conversion.base10) (hfuel : 64 ≤ fuel) :
    s.number fuel = some { s with
      output := s.output ++ numberText conversion (loadNumber s.args s.length conversion.sign).1
      args := (loadNumber s.args s.length conversion.sign).2 } := by
  obtain ⟨hbase, hle⟩ := conversion.base10_bounds
  obtain ⟨r, hr, -, houtput⟩ := printfNumber_eq s.args s.length conversion.sign
    (Nat.lt_of_lt_of_le (by decide) hbase) hle hfuel
  rw [Kprintf.number, hsign, hbase10, hr]
  dsimp only
  rw [houtput, printfNumber_args hr]
  rfl

/-- The conversions of numbers. -/
theorem convert_char (fuel : ℕ) (mem : ByteStore) (s : Kprintf) (conversion : Conversion) :
    s.convert fuel mem conversion.char =
      Kprintf.number fuel { s with base10 := conversion.base10, sign := conversion.sign } := by
  cases conversion <;> rfl

theorem char_of_conversionOf {c : UInt8} {conversion : Conversion}
    (h : conversionOf c = some conversion) : c = conversion.char := by
  rw [conversionOf] at h
  have hchar := List.find?_some h
  exact (of_decide_eq_true hchar).symm

theorem conversionOf_char (conversion : Conversion) :
    conversionOf conversion.char = some conversion := by
  cases conversion <;> rfl

/-- The other characters, of which only `%` prints anything. -/
theorem convert_of_none {c : UInt8} (hchar : c ≠ 0x63) (hstring : c ≠ 0x73)
    (hnone : conversionOf c = none) : s.convert fuel mem c =
      some { s with output := s.output ++ if c = percent then [percent] else [] } := by
  have hne : ∀ conversion : Conversion, c ≠ conversion.char := fun conversion he ↦ by
    rw [he, conversionOf_char] at hnone
    cases hnone
  have hsigned : ¬ (c = 0x64 ∨ c = 0x69) := not_or.mpr ⟨hne .d, hne .i⟩
  have hunsigned : c ≠ 0x75 := hne .u
  have hhex : ¬ (c = 0x58 ∨ c = 0x78 ∨ c = 0x70) :=
    not_or.mpr ⟨hne .X, not_or.mpr ⟨hne .x, hne .p⟩⟩
  have hoctal : c ≠ 0x6F := hne .o
  rw [Kprintf.convert, if_neg hchar, if_neg hstring]
  by_cases hpercent : c = percent
  · rw [if_pos hpercent, if_pos hpercent]
  · rw [if_neg hpercent, if_neg hpercent, if_neg hsigned, if_neg hunsigned, if_neg hhex,
      if_neg hoctal, List.append_nil]

/-- A directive that takes no argument. -/
theorem spec_of_takes_none {length : PrintfLength} {c : UInt8}
    (h : (FormatItem.directive length c).takes = none) :
    s.spec fuel mem c = some (Kprintf.fresh s.args
      (s.output ++ (FormatItem.directive length c).rendered none)) := by
  rw [FormatItem.takes] at h
  by_cases hchar : c = 0x63
  · rw [if_pos hchar] at h
    cases h
  by_cases hstring : c = 0x73
  · rw [if_neg hchar, if_pos hstring] at h
    cases h
  · rw [if_neg hchar, if_neg hstring, Option.map_eq_none_iff] at h
    rw [Kprintf.spec, convert_of_none hchar hstring h]
    rfl

theorem extractLsb'_append (w : BitVec 64) : w.extractLsb' 32 32 ++ w.extractLsb' 0 32 = w := by
  apply BitVec.eq_of_toNat_eq
  rw [X86.toNat_append32, BitVec.extractLsb'_toNat, BitVec.extractLsb'_toNat,
    Nat.shiftRight_eq_div_pow, Nat.shiftRight_zero]
  have := w.isLt
  omega

/-- The argument of a conversion of numbers. -/
theorem loadNumber_eq {length : PrintfLength} {a : Arg}
    (htype : a.type = if length = .longLong then .longLong else .int)
    (hwords : va.Holds (a.words ++ ws)) (conversion : Conversion) :
    (loadNumber va length conversion.sign).2 = va.skip a.words.length ∧
      (va.skip a.words.length).Holds ws ∧ ∀ c, conversionOf c = some conversion →
        (FormatItem.directive length c).rendered (some a) =
          numberText conversion (loadNumber va length conversion.sign).1 := by
  split at htype
  · rename_i hlength
    cases a with
    | longLong w =>
      obtain ⟨hlow, hhigh, hrest⟩ := hwords
      rw [hlength]
      refine ⟨rfl, hrest, fun c hc ↦ ?_⟩
      have harg : va.arg64.1 = w := by
        rw [VaList.arg64]
        dsimp only at hlow hhigh ⊢
        rw [hlow, hhigh, extractLsb'_append]
      rw [FormatItem.rendered, loadNumber, harg, hc, numberText_number64]
    | int w => cases htype
    | string str cs => cases htype
  · rename_i hlength
    cases a with
    | int w =>
      obtain ⟨hw, hrest⟩ := hwords
      have hload : loadNumber va length conversion.sign =
          (number32 va.arg32.1 conversion.sign, va.arg32.2) := by
        cases length with
        | longLong => exact absurd rfl hlength
        | default | shortShort | short | long => rfl
      rw [hload]
      refine ⟨rfl, hrest, fun c hc ↦ ?_⟩
      have harg : va.arg32.1 = w := hw
      rw [FormatItem.rendered, harg, hc, numberText_number32]
    | longLong w => cases htype
    | string str cs => cases htype

/-- A directive that takes an argument. -/
theorem spec_of_takes {c : UInt8} {a : Arg}
    (h : (FormatItem.directive s.length c).takes = some a.type) (hmem : a.InMemory mem)
    (hwords : s.args.Holds (a.words ++ ws)) (hfuel : 64 ≤ fuel)
    (hlt : a.chars.length < fuel) :
    s.spec fuel mem c = some (Kprintf.fresh (s.args.skip a.words.length)
      (s.output ++ (FormatItem.directive s.length c).rendered (some a))) ∧
      (s.args.skip a.words.length).Holds ws := by
  rw [FormatItem.takes] at h
  by_cases hchar : c = 0x63
  · rw [if_pos hchar] at h
    cases a with
    | int w =>
      obtain ⟨hw, hrest⟩ := hwords
      refine ⟨?_, hrest⟩
      rw [Kprintf.spec, Kprintf.convert, if_pos hchar, VaList.arg32, hw, hchar]
      rfl
    | longLong w => cases h
    | string str cs => cases h
  rw [if_neg hchar] at h
  by_cases hstring : c = 0x73
  · rw [if_pos hstring] at h
    cases a with
    | string str cs =>
      obtain ⟨hstr, hrest⟩ := hwords
      refine ⟨?_, hrest⟩
      rw [Kprintf.spec, Kprintf.convert, if_neg hchar, if_pos hstring, VaList.arg32, hstr]
      dsimp only
      rw [putsString_eq hmem hlt]
      rfl
    | int w => cases h
    | longLong w => cases h
  · rw [if_neg hstring] at h
    obtain ⟨conversion, hconversion, htype⟩ := Option.map_eq_some_iff.mp h
    obtain ⟨hargs, hrest, hrendered⟩ := loadNumber_eq htype.symm hwords conversion
    refine ⟨?_, hrest⟩
    rw [hrendered c hconversion, Kprintf.spec, char_of_conversionOf hconversion, convert_char,
      number_eq conversion rfl rfl hfuel]
    dsimp only
    rw [hargs]
    rfl

end conversion

/-! ## The whole format -/

/-- The arguments of a call: their words are on the stack, and their strings in memory. -/
structure Passed (mem : ByteStore) (va : VaList) (args : List Arg) : Prop where
  words : va.Holds (args.flatMap Arg.words)
  strings : ∀ a ∈ args, a.InMemory mem

section format

variable {mem : ByteStore} {fuel : ℕ} {va : VaList} {fmt output : List UInt8}
  {items : List FormatItem} {args : List Arg} {a : Arg}

theorem Passed.tail (h : Passed mem va (a :: args))
    (hwords : (va.skip a.words.length).Holds (args.flatMap Arg.words)) :
    Passed mem (va.skip a.words.length) args :=
  ⟨hwords, fun b hb ↦ h.strings b (List.mem_cons_of_mem a hb)⟩

/-- The modifier of a directive is read, and its conversion is performed. -/
theorem loop_directive {length : PrintfLength} {c : UInt8} (hc : ¬ length.Continues c)
    (hzero : c ≠ 0) : ∃ state,
    Kprintf.loop fuel mem (Kprintf.fresh va output) (percent :: (length.text ++ c :: fmt)) =
      match Kprintf.spec fuel mem ⟨state, length, 10, false, va, output⟩ c with
      | none => none
      | some s => Kprintf.loop fuel mem s fmt := by
  cases length with
  | default =>
    refine ⟨.length, ?_⟩
    show Kprintf.loop fuel mem ⟨.length, .default, 10, false, va, output⟩ (c :: fmt) = _
    obtain ⟨hh, hl⟩ := not_or.mp hc
    rw [Kprintf.loop, if_neg hzero, Kprintf.step]
    dsimp only
    rw [if_neg hh, if_neg hl]
  | shortShort =>
    refine ⟨.spec, ?_⟩
    show Kprintf.loop fuel mem ⟨.spec, .shortShort, 10, false, va, output⟩ (c :: fmt) = _
    rw [Kprintf.loop, if_neg hzero]
    rfl
  | short =>
    refine ⟨.lengthShort, ?_⟩
    show Kprintf.loop fuel mem ⟨.lengthShort, .short, 10, false, va, output⟩ (c :: fmt) = _
    rw [Kprintf.loop, if_neg hzero, Kprintf.step]
    dsimp only
    rw [if_neg (show c ≠ charH from hc)]
  | long =>
    refine ⟨.lengthLong, ?_⟩
    show Kprintf.loop fuel mem ⟨.lengthLong, .long, 10, false, va, output⟩ (c :: fmt) = _
    rw [Kprintf.loop, if_neg hzero, Kprintf.step]
    dsimp only
    rw [if_neg (show c ≠ charL from hc)]
  | longLong =>
    refine ⟨.spec, ?_⟩
    show Kprintf.loop fuel mem ⟨.spec, .longLong, 10, false, va, output⟩ (c :: fmt) = _
    rw [Kprintf.loop, if_neg hzero]
    rfl

/-- A directive without a conversion prints nothing. -/
theorem loop_cutOff (fuel : ℕ) (mem : ByteStore) (length : PrintfLength) : ∃ state,
    Kprintf.loop fuel mem (Kprintf.fresh va output) (percent :: length.text) =
      some ⟨state, length, 10, false, va, output⟩ := by
  cases length <;> exact ⟨_, rfl⟩

/-- **The loop** prints the items of the format, from one to the next. -/
theorem loop_eq (h : Grammar fmt items) (hzero : 0 ∉ fmt) (hmatches : Matches items args)
    (hpassed : Passed mem va args) (hfuel : 64 ≤ fuel)
    (hlt : ∀ a ∈ args, a.chars.length < fuel) : ∃ s,
    Kprintf.loop fuel mem (Kprintf.fresh va output) fmt = some s ∧
      s.output = output ++ printed items args ∧
      s.args = va.skip (args.flatMap Arg.words).length := by
  induction h generalizing va output args with
  | nil =>
    obtain rfl : args = [] := List.map_eq_nil_iff.mp hmatches
    exact ⟨_, rfl, (List.append_nil _).symm, rfl⟩
  | @literal c fmt items hc h ih =>
    have hc0 : c ≠ 0 := Ne.symm (List.ne_of_not_mem_cons hzero)
    have hstep : Kprintf.loop fuel mem (Kprintf.fresh va output) (c :: fmt) =
        Kprintf.loop fuel mem (Kprintf.fresh va (output ++ [c])) fmt := by
      rw [Kprintf.loop, if_neg hc0, Kprintf.fresh, Kprintf.step]
      dsimp only
      rw [if_neg hc]
      rfl
    rw [hstep]
    obtain ⟨s, hloop, houtput, hargs⟩ :=
      ih (List.not_mem_of_not_mem_cons hzero) hmatches hpassed hlt
    refine ⟨s, hloop, ?_, hargs⟩
    rw [houtput, List.append_assoc]
    rfl
  | @directive length c fmt items hc h ih =>
    have hzero' : c ≠ 0 ∧ 0 ∉ fmt := by
      refine ⟨fun he ↦ hzero ?_, fun hmem ↦ hzero ?_⟩
      · rw [he]
        exact List.mem_cons_of_mem _ (List.mem_append_right _ List.mem_cons_self)
      · exact List.mem_cons_of_mem _ (List.mem_append_right _ (List.mem_cons_of_mem _ hmem))
    obtain ⟨state, hstate⟩ := loop_directive hc hzero'.1
    cases htakes : (FormatItem.directive length c).takes with
    | none =>
      have hrest : Matches items args := by
        rw [Matches, List.filterMap_cons, htakes] at hmatches
        exact hmatches
      rw [hstate, spec_of_takes_none htakes]
      dsimp only
      obtain ⟨s, hloop, houtput, hargs⟩ := ih hzero'.2 hrest hpassed hlt
      refine ⟨s, hloop, ?_, hargs⟩
      rw [houtput, printed, htakes, List.append_assoc]
    | some type =>
      rw [Matches, List.filterMap_cons, htakes] at hmatches
      obtain ⟨a, args, rfl, rfl, hrest⟩ := List.map_eq_cons_iff.mp hmatches
      have hwords := hpassed.words
      rw [List.flatMap_cons] at hwords
      have ha : a ∈ a :: args := List.mem_cons_self
      obtain ⟨hspec, hwords⟩ := spec_of_takes (s := ⟨state, length, 10, false, va, output⟩) htakes
        (hpassed.strings a ha) hwords hfuel (hlt a ha)
      rw [hstate, hspec]
      dsimp only
      obtain ⟨s, hloop, houtput, hargs⟩ := ih hzero'.2 hrest (hpassed.tail hwords)
        fun b hb ↦ hlt b (List.mem_cons_of_mem a hb)
      refine ⟨s, hloop, ?_, ?_⟩
      · rw [houtput, printed, htakes, List.append_assoc]
        rfl
      · rw [hargs, List.flatMap_cons, List.length_append]
        exact congrArg (VaList.mk va.words) (Nat.add_assoc _ _ _)
  | cutOff length =>
    obtain rfl : args = [] := List.map_eq_nil_iff.mp hmatches
    obtain ⟨state, hloop⟩ := loop_cutOff fuel mem length
    exact ⟨_, hloop, (List.append_nil _).symm, rfl⟩

/-- **`kprintf` accepts its directive grammar.**  A format has one reading, and when it is called
with the arguments of this reading, `kprintf` prints the items one after the other and reads the
arguments one after the other, and no word behind them. -/
theorem kprintf_exact (fmt : List UInt8) (hzero : 0 ∉ fmt) :
    (∃! items, Grammar fmt items) ∧
      ∀ items args, Grammar fmt items → Matches items args →
        ∀ mem va fuel, Passed mem va args → 64 ≤ fuel → (∀ a ∈ args, a.chars.length < fuel) →
          kprintf fuel mem fmt va =
            some (printed items args, va.skip (args.flatMap Arg.words).length) := by
  refine ⟨existsUnique_grammar fmt, ?_⟩
  intro items args hgrammar hmatches mem va fuel hpassed hfuel hlt
  obtain ⟨s, hloop, houtput, hargs⟩ := loop_eq hgrammar hzero hmatches hpassed hfuel hlt
  show (Kprintf.loop fuel mem (Kprintf.fresh va []) fmt).map _ = _
  rw [hloop, Option.map_some, houtput, hargs, List.nil_append]

end format

/-- `a%s%lld%` with an `s` that is `ok`: the last `%` has no conversion. -/
theorem kprintf_exact_stringNumber :
    kprintf 64 (fun a ↦ if a = 0 then 0x6F else if a = 1 then 0x6B else 0)
        [0x61, percent, 0x73, percent, charL, charL, 0x64, percent]
        ⟨fun i ↦ if i = 0 then 0 else if i = 1 then 0xFFFFFFF9 else 0xFFFFFFFF, 0⟩ =
      some ([0x61, 0x6F, 0x6B, 0x2D, 0x37],
        ⟨fun i ↦ if i = 0 then 0 else if i = 1 then 0xFFFFFFF9 else 0xFFFFFFFF, 3⟩) := by
  have hgrammar : Grammar [0x61, percent, 0x73, percent, charL, charL, 0x64, percent]
      [.literal 0x61, .directive .default 0x73, .directive .longLong 0x64, .cutOff .default] :=
    .literal (by decide) (@Grammar.directive .default _ _ _ (not_or.mpr ⟨by decide, by decide⟩)
      (@Grammar.directive .longLong _ _ _ not_false (.cutOff .default)))
  have hpassed : Passed (fun a ↦ if a = 0 then 0x6F else if a = 1 then 0x6B else 0)
      ⟨fun i ↦ if i = 0 then 0 else if i = 1 then 0xFFFFFFF9 else 0xFFFFFFFF, 0⟩
      [.string 0 [0x6F, 0x6B], .longLong 0xFFFFFFFFFFFFFFF9] :=
    ⟨⟨rfl, rfl, rfl, trivial⟩, List.forall_mem_cons.mpr
      ⟨⟨by decide, rfl, by decide, rfl, rfl⟩, List.forall_mem_cons.mpr
        ⟨trivial, List.forall_mem_nil _⟩⟩⟩
  have hmatches : Matches
      [.literal 0x61, .directive .default 0x73, .directive .longLong 0x64, .cutOff .default]
      [.string 0 [0x6F, 0x6B], .longLong 0xFFFFFFFFFFFFFFF9] := rfl
  have hprinted : printed
      [.literal 0x61, .directive .default 0x73, .directive .longLong 0x64, .cutOff .default]
      [.string 0 [0x6F, 0x6B], .longLong 0xFFFFFFFFFFFFFFF9] = [0x61, 0x6F, 0x6B, 0x2D, 0x37] := by
    decide
  rw [(kprintf_exact _ (by decide)).2 _ _ hgrammar hmatches _ _ 64 hpassed (Nat.le_refl 64)
    (by decide), hprinted]
  rfl

end AbOS
