import LdapBer.Text

/-! Blocks of bytes as hexadecimal digits.

A block is shown on one line behind a label, two capital digits a byte, with a space behind
each group of bytes. It is read back from digits of either case with blanks anywhere. -/
namespace LdapBer.HexBlock

/-- Is the byte at index `i` the last of its group? The remainder is not negative, so groups of
negative size never end. -/
def endsGroup (group : Int) (i : Nat) : Bool :=
  (i : Int).tmod group == group - 1

/-- The digits of the bytes from index `i` on. -/
def digits (group : Int) (i : Nat) : Bytes → Bytes
  | [] => []
  | b :: s =>
    hexDigit true (b.toNat / 16) :: hexDigit true (b.toNat % 16) ::
      ((if endsGroup group i then ascii " " else []) ++ digits group (i + 1) s)

def render (label : Bytes) (group : Int) (s : Bytes) : Bytes :=
  label ++ ascii ": " ++ digits group 0 s ++ ascii "\n"

/-- What a hexadecimal digit counts. -/
def hexValue (c : UInt8) : Option Nat :=
  if isDigit c then some (c.toNat - 48)
  else if 97 ≤ c && c ≤ 102 then some (c.toNat - 87)
  else if 65 ≤ c && c ≤ 70 then some (c.toNat - 55)
  else none

/-- The bytes that were read and the text behind the last digit, unless that was the first of
a byte. -/
structure Reading where
  bytes : Bytes
  rest : Option Bytes
deriving DecidableEq, Repr

/-- How many bytes were read, or -1 if there was a digit too many. -/
def Reading.count (r : Reading) : Int :=
  if r.rest.isSome then r.bytes.length else -1

/-- Reads on with the first digit of a byte in hand or without. -/
def readFrom : Option Nat → Bytes → Reading
  | none, [] => ⟨[], some []⟩
  | some _, [] => ⟨[], none⟩
  | high, c :: s =>
    if isBlank c then readFrom high s
    else
      match hexValue c, high with
      | some v, none => readFrom (some v) s
      | some v, some h =>
        let reading := readFrom none s
        {reading with bytes := (h * 16 + v).toUInt8 :: reading.bytes}
      | none, none => ⟨[], some (c :: s)⟩
      | none, some _ => ⟨[], none⟩

def read (s : Bytes) : Reading :=
  readFrom none s

end LdapBer.HexBlock
