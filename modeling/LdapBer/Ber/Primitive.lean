import LdapBer.Ber.Header

/-! Contents of BOOLEAN, INTEGER and ENUMERATED elements.

A BOOLEAN is one byte and everything but zero is true. An INTEGER has one to eight bytes in
two's complement, most significant first. It is read into a word of 64 bits, which is filled with
the sign before the bytes are shifted in, and it is written as the last bytes of such a word;
`integerLength` is the least number of bytes that hold a value. -/
namespace LdapBer

/-- Why contents are no value of the type or none in range. -/
inductive ContentError where
  | booleanSize (size : Nat)
  | integerSize (size : Nat)
  | integerRange (value low high : Int)
deriving DecidableEq, Repr

def ContentError.message : ContentError → Bytes
  | booleanSize n => ascii s!"a BOOLEAN must have exactly one byte, found {n}"
  | integerSize n => ascii s!"an INTEGER must have between 1 and 8 bytes, found {n}"
  | integerRange v low high =>
    ascii "the INTEGER " ++ decimalInt v ++ ascii " is out of the range [" ++ decimalInt low ++
      ascii ", " ++ decimalInt high ++ ascii "]"

def readBoolean (s : Bytes) : Except ContentError Bool :=
  match s with
  | [b] => .ok (b != 0)
  | _ => .error (.booleanSize s.length)

/-- The word in which every bit is the first bit of the bytes. -/
def signWord : Bytes → UInt64
  | [] => 0
  | b :: _ => if b &&& 0x80 != 0 then 0xFFFFFFFFFFFFFFFF else 0

/-- Shifts bytes into a word. What stood eight bytes before them is lost. -/
def shiftBytes (word : UInt64) (s : Bytes) : UInt64 :=
  s.foldl (fun word b => word <<< 8 ||| b.toUInt64) word

/-- Reads an integer that has to lie between `low` and `high`. -/
def readInteger (low high : Int) (s : Bytes) : Except ContentError Int :=
  if s.length = 0 ∨ s.length > 8 then .error (.integerSize s.length)
  else
    let v := (shiftBytes (signWord s) s).toInt64.toInt
    if v < low ∨ v > high then .error (.integerRange v low high) else .ok v

/-- Of the values of `n` bytes one half stands for what is negative. -/
def fitsBytes (v : Int) (n : Nat) : Bool :=
  -(byteRange n : Int) ≤ 2 * v && 2 * v < byteRange n

/-- The least number of bytes, up to eight, that hold a value. -/
def integerLength (v : Int) : Nat :=
  ((List.range' 1 7).find? (fitsBytes v)).getD 8

/-- The shortest contents of an integer: the last bytes of its word of 64 bits. -/
def integerBytes (v : Int) : Bytes :=
  bigEndian (integerLength v) (v % 0x10000000000000000).toNat

@[simp] theorem length_integerBytes (v : Int) : (integerBytes v).length = integerLength v := by
  simp [integerBytes]

end LdapBer
