import LdapBer.Text

/-! Object identifiers.

An identifier is a path of at least two arcs below 2^64. The first arc is 0, 1 or 2, and
under 0 and 1 the second is at most 39, so that the two are told apart when they are
written as the one number `40 * first + second`. That number has 64 bits as well, which
bounds the second arc under 2. -/
namespace LdapBer

/-- Where the arcs of an identifier have to lie. -/
def Oid.Admissible : List Nat → Prop
  | first :: second :: rest =>
    first ≤ 2 ∧ (first < 2 → second ≤ 39) ∧ second ≤ 0xFFFFFFFFFFFFFFAF ∧
      ∀ a ∈ rest, a < 0x10000000000000000
  | _ => False

instance : DecidablePred Oid.Admissible
  | first :: second :: rest =>
    inferInstanceAs (Decidable (first ≤ 2 ∧ (first < 2 → second ≤ 39) ∧
      second ≤ 0xFFFFFFFFFFFFFFAF ∧ ∀ a ∈ rest, a < 0x10000000000000000))
  | [] => .isFalse id
  | [_] => .isFalse id

structure Oid where
  arcs : List Nat
  admissible : Oid.Admissible arcs
deriving DecidableEq

/-- Why a text or a byte string is no identifier. -/
inductive OidError where
  | emptyText (text : Bytes)
  | emptyArc (text : Bytes)
  | invalidCharacter (text : Bytes)
  | arcTooLarge (text : Bytes)
  | trailingDot (text : Bytes)
  | tooFewArcs (text : Bytes)
  | firstArc (text : Bytes)
  | secondArc (text : Bytes)
  | emptyBinary
  | binaryArcTooLarge (index : Nat)
  | binaryUnfinished
deriving DecidableEq, Repr

namespace OidError

def wording : OidError → Bytes
  | emptyText s => ascii "empty object identifier: " ++ quoted s
  | emptyArc s => ascii "empty arc in object identifier: " ++ quoted s
  | invalidCharacter s => ascii "invalid character in object identifier: " ++ quoted s
  | arcTooLarge s => ascii "arc of object identifier too large: " ++ quoted s
  | trailingDot s => ascii "trailing dot in object identifier: " ++ quoted s
  | tooFewArcs s => ascii "an object identifier needs at least two arcs: " ++ quoted s
  | firstArc s => ascii "the first arc of an object identifier must be 0, 1 or 2: " ++ quoted s
  | secondArc s =>
    ascii "the second arc must be at most 39 when the first is 0 or 1: " ++ quoted s
  | emptyBinary => ascii "empty binary object identifier"
  | binaryArcTooLarge i => ascii s!"arc of binary object identifier too large at byte {i}"
  | binaryUnfinished => ascii "binary object identifier ends in the middle of an arc"

/-- The message of an error stops at a NUL of the text that it quotes. -/
def message (e : OidError) : Bytes :=
  untilNul e.wording

end OidError

namespace Oid

/-- The dotted text: the arcs in decimal. -/
def toText (o : Oid) : Bytes :=
  (ascii ".").intercalate (o.arcs.map decimal)

/-- Mixes the high and the low half of each arc, modulo 2^64. -/
def hash (o : Oid) : UInt64 :=
  o.arcs.foldl
    (fun h a => (h * 17 + (a / 0x100000000).toUInt64) * 17 + (a % 0x100000000).toUInt64) 37

/-- Identifiers are ordered arc by arc, a path before its extensions. -/
instance : LT Oid := ⟨fun a b => a.arcs < b.arcs⟩

instance (a b : Oid) : Decidable (a < b) :=
  inferInstanceAs (Decidable (a.arcs < b.arcs))

end Oid

end LdapBer
