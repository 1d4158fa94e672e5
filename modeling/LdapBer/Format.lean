import LdapBer.Text

/-! Formatted text.

A format is text with conversions. `%d` and its like write the next argument: flags and a
width say how it is laid out, and what is written follows the type of the argument, so that
the letter only chooses between decimal, octal and hexadecimal numbers and between words and
numbers for truth values. `%2$d` names its argument, and `%2%` writes it in the style of the
conversion before. A width is used up by the next thing written, which may come later than
its own conversion if that has no argument. -/
namespace LdapBer.Format

inductive Argument where
  | int64 (v : Int)
  | uint64 (v : Nat)
  | int32 (v : Int)
  | uint32 (v : Nat)
  | text (s : Bytes)
  | bool (b : Bool)
  | char (c : UInt8)
deriving DecidableEq, Repr

inductive Base where
  | octal
  | decimal
  | hexadecimal
deriving DecidableEq, Repr

structure Style where
  base : Base := .decimal
  alignLeft : Bool := false
  showBase : Bool := false
  showPlus : Bool := false
  capitals : Bool := false
  boolWords : Bool := false
  fill : UInt8 := 32
deriving DecidableEq, Repr

/-- How a conversion names its argument: the one after the last, or by number from 1. -/
inductive Selector where
  | following
  | numbered (n : Nat)
deriving DecidableEq, Repr

inductive Directive where
  | literal (c : UInt8)
  | percent
  | sameStyle (n : Nat)
  | convert (selector : Selector) (style : Style) (width : Option Nat)
deriving DecidableEq, Repr

/-! ### Reading formats -/

/-- Flags change the style, each on its own. -/
def readFlags (style : Style) : Bytes → Style × Bytes
  | [] => (style, [])
  | c :: s =>
    if c = 45 then readFlags {style with alignLeft := true} s
    else if c = 35 then readFlags {style with showBase := true} s
    else if c = 43 then readFlags {style with showPlus := true} s
    else if c = 48 then readFlags {style with fill := 48} s
    else (style, c :: s)

def readWidth (s : Bytes) : Option Nat × Bytes :=
  let digits := s.takeWhile isDigit
  (if digits.isEmpty then none else some (ofDigits digits), s.dropWhile isDigit)

def dropSign : Bytes → Bytes
  | [] => []
  | c :: s => if c = 43 ∨ c = 45 then s else c :: s

/-- A precision is a point and possibly a number with blanks and a sign in front. It has no
effect on any argument. -/
def dropPrecision : Bytes → Bytes
  | [] => []
  | c :: s =>
    if c = 46 then
      let digits := dropSign (s.dropWhile isBlank)
      if (digits.takeWhile isDigit).isEmpty then s else digits.dropWhile isDigit
    else c :: s

/-- The letters `h l j z t L` of sizes mean nothing here. -/
def isSizeLetter (c : UInt8) : Bool :=
  c == 104 || c == 108 || c == 106 || c == 122 || c == 116 || c == 76

/-- The letter of a conversion. A format may end before it. -/
def readLetter (style : Style) : Bytes → Style × Bytes
  | [] => (style, [])
  | c :: s =>
    if c = 111 then ({style with base := .octal}, s)
    else if c = 120 then ({style with base := .hexadecimal}, s)
    else if c = 88 then ({style with base := .hexadecimal, capitals := true}, s)
    else if c = 115 then ({style with boolWords := true}, s)
    else (style, s)

/-- A conversion after its selector. -/
def readConversion (selector : Selector) (s : Bytes) : Directive × Bytes :=
  let (style, s) := readFlags {} s
  let (width, s) := readWidth s
  let (style, s) := readLetter style ((dropPrecision s).dropWhile isSizeLetter)
  (.convert selector style width, s)

/-- What follows a percent sign. Digits are the number of an argument if `%` or `$` follows, or
else flags and width. -/
def readDirective (s : Bytes) : Directive × Bytes :=
  let digits := s.takeWhile isDigit
  if digits.isEmpty then readConversion .following s
  else
    match s.dropWhile isDigit with
    | [] => readConversion .following s
    | c :: rest =>
      if c = 37 then (.sameStyle (ofDigits digits), rest)
      else if c = 36 then readConversion (.numbered (ofDigits digits)) rest
      else readConversion .following s

theorem length_dropWhile_le (p : UInt8 → Bool) (s : Bytes) :
    (s.dropWhile p).length ≤ s.length :=
  (List.dropWhile_suffix p).length_le

theorem length_readFlags_le (style : Style) (s : Bytes) :
    (readFlags style s).2.length ≤ s.length := by
  induction s generalizing style with
  | nil => exact Nat.le_refl _
  | cons c s ih =>
    have h := fun style => Nat.le_succ_of_le (ih style)
    unfold readFlags
    split
    · exact h _
    · split
      · exact h _
      · split
        · exact h _
        · split
          · exact h _
          · exact Nat.le_refl _

theorem length_dropPrecision_le (s : Bytes) : (dropPrecision s).length ≤ s.length := by
  have hsign : ∀ s, (dropSign s).length ≤ s.length := by
    intro s
    unfold dropSign
    split
    · exact Nat.le_refl _
    · split
      · exact Nat.le_succ _
      · exact Nat.le_refl _
  unfold dropPrecision
  split
  · exact Nat.le_refl _
  · next c s =>
    have h₁ := length_dropWhile_le isBlank s
    have h₂ := hsign (s.dropWhile isBlank)
    have h₃ := length_dropWhile_le isDigit (dropSign (s.dropWhile isBlank))
    dsimp only
    split
    · split
      · exact Nat.le_succ _
      · simp only [List.length_cons]
        omega
    · exact Nat.le_refl _

theorem length_readLetter_le (style : Style) (s : Bytes) :
    (readLetter style s).2.length ≤ s.length := by
  unfold readLetter
  split
  · exact Nat.le_refl _
  · repeat' split
    all_goals exact Nat.le_succ _

theorem length_readConversion_le (selector : Selector) (s : Bytes) :
    (readConversion selector s).2.length ≤ s.length := by
  have h₁ := length_readFlags_le {} s
  have h₂ := length_dropWhile_le isDigit (readFlags {} s).2
  have h₃ := length_dropPrecision_le ((readFlags {} s).2.dropWhile isDigit)
  have h₄ := length_dropWhile_le isSizeLetter
    (dropPrecision ((readFlags {} s).2.dropWhile isDigit))
  have h₅ := length_readLetter_le (readFlags {} s).1
    ((dropPrecision ((readFlags {} s).2.dropWhile isDigit)).dropWhile isSizeLetter)
  simp only [readConversion, readWidth]
  omega

theorem length_readDirective_le (s : Bytes) : (readDirective s).2.length ≤ s.length := by
  have hd := length_dropWhile_le isDigit s
  unfold readDirective
  dsimp only
  split
  · exact length_readConversion_le _ s
  · split
    · exact length_readConversion_le _ s
    · next c rest hc =>
      rw [hc, List.length_cons] at hd
      split
      · dsimp only
        omega
      · split
        · have := length_readConversion_le (.numbered (ofDigits (s.takeWhile isDigit))) rest
          omega
        · exact length_readConversion_le _ s

def parse : Bytes → List Directive
  | [] => []
  | c :: s =>
    if c ≠ 37 then .literal c :: parse s
    else if s.head? = some 37 then .percent :: parse (s.drop 1)
    else
      have := length_readDirective_le s
      (readDirective s).1 :: parse (readDirective s).2
termination_by s => s.length

/-! ### Writing arguments -/

/-- The digits of a number in base 8 or 16. -/
def digits (base : Nat) (capitals : Bool) (n : Nat) : Bytes :=
  if base < 2 ∨ n < base then [hexDigit capitals n]
  else digits base capitals (n / base) ++ [hexDigit capitals (n % base)]
termination_by n
decreasing_by exact Nat.div_lt_self (by omega) (by omega)

/-- A number in octal or hexadecimal digits. A negative one has the digits of its two's
complement in `size` bytes, and zero has no mark of the base. -/
def unsignedText (style : Style) (base : Nat) (mark : Bytes) (size : Nat) (v : Int) : Bytes :=
  (if style.showBase && v != 0 then mark else []) ++
    digits base style.capitals (v % byteRange size).toNat

/-- A number in the base of the style. A plus is for decimal numbers of signed types only. -/
def numberText (style : Style) (isSigned : Bool) (size : Nat) (v : Int) : Bytes :=
  match style.base with
  | .decimal =>
    (if style.showPlus && isSigned && 0 ≤ v then ascii "+" else []) ++ decimalInt v
  | .octal => unsignedText style 8 (ascii "0") size v
  | .hexadecimal =>
    unsignedText style 16 (ascii (if style.capitals then "0X" else "0x")) size v

def Argument.render (style : Style) : Argument → Bytes
  | int64 v => numberText style true 8 v
  | uint64 v => numberText style false 8 v
  | int32 v => numberText style true 4 v
  | uint32 v => numberText style false 4 v
  | text s => s
  | bool b =>
    if style.boolWords then ascii (if b then "true" else "false")
    else numberText style true 8 (if b then 1 else 0)
  | char c => [c]

def pad (style : Style) (width : Nat) (s : Bytes) : Bytes :=
  let padding := List.replicate (width - s.length) style.fill
  if style.alignLeft then s ++ padding else padding ++ s

/-- What one directive leaves to the next: the style, a width that is not used up and the number
of the argument that came last. -/
structure State where
  style : Style := {}
  width : Nat := 0
  last : Int := 0
deriving DecidableEq, Repr

/-- Numbers of arguments have 32 bits; what is beyond the largest of 64 bits counts as that. -/
def argumentNumber (n : Nat) : Int :=
  Int.bmod (if n < 0x7FFFFFFFFFFFFFFF then n else 0x7FFFFFFFFFFFFFFF) 0x100000000

/-- Writes the argument with a number, if there is one; only then is the width used up. -/
def writeArgument (args : List Argument) (state : State) (number : Int) : State × Bytes :=
  let state := {state with last := number}
  match if 0 < number then args[(number - 1).toNat]? else none with
  | some a => ({state with width := 0}, pad state.style state.width (a.render state.style))
  | none => (state, [])

def write (args : List Argument) (state : State) : Directive → State × Bytes
  | .literal c => (state, [c])
  | .percent => ({state with width := 0}, pad state.style state.width (ascii "%"))
  | .sameStyle n => writeArgument args state (argumentNumber n)
  | .convert selector style width =>
    let number :=
      match selector with
      | .following => state.last + 1
      | .numbered n => argumentNumber n
    writeArgument args {state with style := style, width := width.getD state.width} number

def writeAll (args : List Argument) (state : State) : List Directive → Bytes
  | [] => []
  | d :: ds =>
    let (state, s) := write args state d
    s ++ writeAll args state ds

/-- A format without arguments is text as it stands. -/
def render (fmt : Bytes) (args : List Argument) : Bytes :=
  if args.isEmpty then fmt else writeAll args {} (parse fmt)

end LdapBer.Format
