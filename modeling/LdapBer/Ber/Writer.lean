import LdapBer.Ber.Primitive
import LdapBer.EncodeError
import LdapBer.Oid.Binary

/-! Writing elements into reserved room.

What is to be written is laid out first, as a list of pieces: the tag, the length field and
the value of each element, or the reason why a piece cannot be written. A writer appends
the pieces one by one and stops at the first that is a reason or exceeds its room. So a
failure never loses or tears a piece that was written before it. -/
namespace LdapBer

abbrev Layout := List (Except EncodeError Bytes)

namespace Layout

def ofTag (tag : UInt8) : Layout :=
  [.ok [tag]]

def ofLength (n : Nat) : Layout :=
  [if n < 0x100000000 then .ok (lengthBytes n) else .error (.lengthTooLarge n)]

def header (tag : UInt8) (n : Nat) : Layout :=
  ofTag tag ++ ofLength n

def raw (s : Bytes) : Layout :=
  [.ok s]

def octets (tag : UInt8) (value : Bytes) : Layout :=
  header tag value.length ++ raw value

/-- True is always written as 0xFF. -/
def boolean (tag : UInt8) (b : Bool) : Layout :=
  header tag 1 ++ raw [if b then 0xFF else 0x00]

def integer (tag : UInt8) (v : Int) : Layout :=
  header tag (integerLength v) ++ raw (integerBytes v)

def oid (tag : UInt8) (o : Oid) : Layout :=
  header tag o.encodedLength ++ raw o.toBytes

end Layout

/-- The bytes written so far and how many more may follow. -/
structure Writer where
  out : Bytes
  remaining : Nat
deriving DecidableEq, Repr

namespace Writer

/-- A writer behind bytes that are there already, with no room yet. -/
def after (out : Bytes) : Writer :=
  ⟨out, 0⟩

/-- The room becomes `n` bytes from here on, even if there turns out to be no buffer for it
together with the bytes that are there. -/
def reserve (w : Writer) (n : Nat) : Writer × Option EncodeError :=
  ({w with remaining := n},
    (Buffer.refusal ((w.out.length + n) % lengthModulus)).map EncodeError.noRoom)

def write (w : Writer) : Layout → Writer × Option EncodeError
  | [] => (w, none)
  | .error e :: _ => (w, some e)
  | .ok piece :: rest =>
    if piece.length ≤ w.remaining then
      write ⟨w.out ++ piece, w.remaining - piece.length⟩ rest
    else (w, some (.overrun piece.length w.remaining))

end Writer

/-- The bytes of a layout, written into `size` bytes of room. -/
def Layout.bytes (size : Nat) (l : Layout) : Except EncodeError Bytes :=
  match (Writer.after []).reserve size with
  | (_, some e) => .error e
  | (w, none) =>
    match w.write l with
    | (w, none) => .ok w.out
    | (_, some e) => .error e

end LdapBer
