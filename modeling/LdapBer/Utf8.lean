import LdapBer.Text

/-! Text that can be printed.

Bytes are printable if they are UTF-8 in the shortest form, without surrogates, and have no
control character but tab and newline. -/
namespace LdapBer.Utf8

/-- What a first byte above 0x7F announces: the number of bytes that follow, its own part of
the code point and the least code point that needs this form. -/
structure Lead where
  count : Nat
  part : UInt32
  least : UInt32
deriving DecidableEq, Repr

def lead (b : UInt8) : Option Lead :=
  if b &&& 0xE0 = 0xC0 then some ⟨1, (b &&& 0x1F).toUInt32, 0x80⟩
  else if b &&& 0xF0 = 0xE0 then some ⟨2, (b &&& 0x0F).toUInt32, 0x800⟩
  else if b &&& 0xF8 = 0xF0 then some ⟨3, (b &&& 0x07).toUInt32, 0x10000⟩
  else none

def isTail (b : UInt8) : Bool :=
  b &&& 0xC0 == 0x80

/-- The code point of a first byte's part and the bytes that follow, six bits of each. -/
def codePoint (part : UInt32) (tail : Bytes) : UInt32 :=
  tail.foldl (fun n b => n <<< 6 ||| (b &&& 0x3F).toUInt32) part

/-- Neither a surrogate nor beyond the last code point. -/
def isScalar (n : UInt32) : Bool :=
  (n < 0xD800 || 0xE000 ≤ n) && n ≤ 0x10FFFF

/-- Tab, newline and what has a graphic. -/
def isPlain (b : UInt8) : Bool :=
  (0x20 ≤ b || b == 9 || b == 10) && b != 0x7F

def isPrintable : Bytes → Bool
  | [] => true
  | b :: s =>
    if b < 0x80 then isPlain b && isPrintable s
    else
      match lead b with
      | none => false
      | some l =>
        match h : splitExact l.count s with
        | none => false
        | some (tail, rest) =>
          have : rest.length ≤ s.length := by
            obtain ⟨rfl, -⟩ := splitExact_eq_some_iff.mp h
            simp
          let n := codePoint l.part tail
          tail.all isTail && l.least ≤ n && isScalar n && isPrintable rest
termination_by s => s.length

end LdapBer.Utf8
