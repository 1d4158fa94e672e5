import LdapBer.Text

/-! Base 64.

Three bytes make four letters. One or two bytes at the end make two or three letters, filled
up to four with `=` on request. Wrapped text has a newline behind every 72 letters. -/
namespace LdapBer.Base64

/-- The letters for the numbers of six bits, in their order. -/
def alphabet : Bytes :=
  ascii "ABCDEFGHIJKLMNOPQRSTUVWXYZabcdefghijklmnopqrstuvwxyz0123456789+/"

/-- The letter for six bits. -/
def letter (n : UInt32) : UInt8 :=
  alphabet.getD n.toNat 0

/-- The letters of three bytes. -/
def group (a b c : UInt8) : Bytes :=
  let n := a.toUInt32 <<< 16 ||| b.toUInt32 <<< 8 ||| c.toUInt32
  [letter (n >>> 18), letter (n >>> 12 &&& 0x3F), letter (n >>> 6 &&& 0x3F), letter (n &&& 0x3F)]

/-- The letters of the last two bytes. -/
def pair (a b : UInt8) : Bytes :=
  [letter (a.toUInt32 >>> 2), letter ((a.toUInt32 <<< 4 ||| b.toUInt32 >>> 4) &&& 0x3F),
    letter ((b.toUInt32 &&& 0x0F) <<< 2)]

/-- The letters of the last byte. -/
def single (a : UInt8) : Bytes :=
  [letter (a.toUInt32 >>> 2), letter ((a.toUInt32 &&& 0x03) <<< 4)]

def lineLength : Nat := 72

/-- Encodes with `column` letters on the line already. Only whole groups are wrapped. -/
def encodeFrom (wrap padded : Bool) (column : Nat) : Bytes → Bytes
  | a :: b :: c :: s =>
    if wrap && lineLength ≤ column + 4 then group a b c ++ 10 :: encodeFrom wrap padded 0 s
    else group a b c ++ encodeFrom wrap padded (column + 4) s
  | [a, b] => pair a b ++ if padded then ascii "=" else []
  | [a] => single a ++ if padded then ascii "==" else []
  | [] => []

def encode (wrap padded : Bool) (s : Bytes) : Bytes :=
  encodeFrom wrap padded 0 s

end LdapBer.Base64
