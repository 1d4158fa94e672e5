import LdapBer.Oid

/-! Distinguished names.

A name is a sequence of relative names, the most specific first, each with one or more
assertions `type=value`. The parts keep the text they were read from, so that the name as
given can be put together again, and a normal form in which types are compared. -/
namespace LdapBer

/-- An assertion `type=value`. Its raw text includes the blanks around its parts. -/
structure Ava where
  type : Bytes
  normalizedType : Bytes
  rawValue : Bytes
  normalizedValue : Bytes
  rawText : Bytes
deriving DecidableEq, Repr

/-- A relative name and the separator behind it, which the last one of a name lacks. -/
structure Rdn where
  avas : List Ava
  rawText : Bytes
  separator : Option UInt8
deriving DecidableEq, Repr

structure Dn where
  rdns : List Rdn
  given : Bytes
deriving DecidableEq, Repr

namespace Dn

/-- The raw texts of the relative names with their separators. -/
def toText (dn : Dn) : Bytes :=
  dn.rdns.flatMap fun rdn => rdn.rawText ++ rdn.separator.toList

def normalizedAva (ava : Ava) : Bytes :=
  ava.normalizedType ++ ascii "=" ++ ava.normalizedValue

/-- Normal types and values with a comma between relative names and a plus between the
assertions of one. -/
def normalized (dn : Dn) : Bytes :=
  (ascii ",").intercalate
    (dn.rdns.map fun rdn => (ascii "+").intercalate (rdn.avas.map normalizedAva))

end Dn

/-- Why a text is no name. Positions count bytes from 0. -/
inductive DnError where
  | unexpectedEnd (pos : Nat)
  | typeStart (c : UInt8) (pos : Nat)
  | typeCharacter (c : UInt8) (pos : Nat)
  | oidCharacter (c : UInt8) (pos : Nat)
  | afterLeadingZero (c : UInt8) (pos : Nat)
  | invalidOid (oid : Bytes) (pos : Nat)
  | expectedEquals (c : UInt8) (pos : Nat)
  | expectedSeparator (c : UInt8) (pos : Nat)
deriving DecidableEq, Repr

namespace DnError

def pos : DnError → Nat
  | unexpectedEnd p | typeStart _ p | typeCharacter _ p | oidCharacter _ p
  | afterLeadingZero _ p | invalidOid _ p | expectedEquals _ p | expectedSeparator _ p => p

def complaint (what : String) (c : UInt8) (pos : Nat) : Bytes :=
  ascii what ++ ascii " '" ++ [c] ++ ascii s!"' at position {pos}"

def wording : DnError → Bytes
  | unexpectedEnd p => ascii s!"unexpected end of the DN at position {p}"
  | typeStart c p => complaint "invalid start of attribute type" c p
  | typeCharacter c p => complaint "invalid character in attribute type" c p
  | oidCharacter c p => complaint "invalid character in numeric OID" c p
  | afterLeadingZero c p =>
    complaint "invalid character after a leading zero in numeric OID" c p
  | invalidOid s p =>
    ascii "invalid numeric OID " ++ quoted s ++ ascii s!" at position {p}"
  | expectedEquals c p => complaint "expected '=' but found" c p
  | expectedSeparator c p => complaint "expected ',' or ';' but found" c p

/-- The message of an error stops at a NUL of the text that it quotes. -/
def message (e : DnError) : Bytes :=
  untilNul e.wording

end DnError

/-- What the reading of a name may fail with: an error of the name, or one of an identifier in it
of which the normal form is taken. -/
inductive DnFailure where
  | name (e : DnError)
  | identifier (e : OidError)
deriving DecidableEq, Repr

def DnFailure.message : DnFailure → Bytes
  | name e => e.message
  | identifier e => e.message

end LdapBer
