import LdapBer.Dn.Scan
import LdapBer.Proofs.Oid.Dotted

/-! Simple names as a language.

A name is a row of assertions with separators between them, each spaces, a type, spaces, `=`,
spaces, a value, spaces (`IsLaidOut`). `AreRdns` says which text stands for which relative names,
and `IsTooComplex` which text begins as a name and goes on with something that is not simple. Both
are said without the reader. -/
namespace LdapBer.Dn

def AreSpaces (s : Bytes) : Prop :=
  ∀ c ∈ s, isSpace c = true

instance : DecidablePred AreSpaces :=
  fun s => List.decidableBAll _ s

/-- A letter, then letters, digits, hyphens and underscores. -/
structure IsWord (s : Bytes) : Prop where
  first : ∃ c ∈ s.head?, isAlpha c = true
  parts : ∀ c ∈ s, isWordPart c = true

/-- A group of digits that is zero or starts with another digit. -/
structure IsNumeral (g : Bytes) : Prop extends Oid.IsDigits g where
  lead : g.head? = some 48 → g = [48]

/-- A dotted identifier with one dot at least and no needless zeros. -/
structure IsOid (s : Bytes) : Prop where
  groups : ∃ gs, s = (ascii ".").intercalate gs ∧ 2 ≤ gs.length ∧ ∀ g ∈ gs, IsNumeral g
  valid : Oid.isValid s = true

def IsType (s : Bytes) : Prop :=
  IsWord s ∨ IsOid s

/-- Text without separators and without what would have to be unescaped. -/
def IsPlain (s : Bytes) : Prop :=
  ∀ c ∈ s, isSeparator c = false ∧ isSpecial c = false

/-- Plain text with no spaces around it. -/
structure IsValue (s : Bytes) : Prop where
  plain : IsPlain s
  front : s.head? ≠ some 32
  back : s.getLast? ≠ some 32

/-- Spaces, a type, spaces, `=`, spaces, a value, spaces. -/
def IsLaidOut (type value s : Bytes) : Prop :=
  ∃ lead gap before after, AreSpaces lead ∧ AreSpaces gap ∧ AreSpaces before ∧ AreSpaces after ∧
    s = lead ++ type ++ gap ++ ascii "=" ++ before ++ value ++ after

/-- An assertion with its text. Types are compared in small letters, of which identifiers have
none. -/
structure IsAva (ava : Ava) : Prop where
  type : IsType ava.type
  value : IsValue ava.rawValue
  text : IsLaidOut ava.type ava.rawValue ava.rawText
  normalType : ava.normalizedType = ava.type.map lowercase
  normalValue : ava.normalizedValue = ava.rawValue

/-- The relative names of a text: assertions with a separator behind each but the last. -/
inductive AreRdns : Bytes → List Rdn → Prop
  | last {ava : Ava} (h : IsAva ava) : AreRdns ava.rawText [⟨[ava], ava.rawText, none⟩]
  | more {ava : Ava} {b : UInt8} {s : Bytes} {rdns : List Rdn} (h : IsAva ava)
      (hb : isSeparator b = true) (hrest : AreRdns s rdns) :
      AreRdns (ava.rawText ++ b :: s) (⟨[ava], ava.rawText, some b⟩ :: rdns)

/-- The name that a text stands for. Spaces alone are the name of no relative names. -/
def IsName (text : Bytes) (rdns : List Rdn) : Prop :=
  AreSpaces text ∧ rdns = [] ∨ AreRdns text rdns

/-- The text goes on with a word and a dot, or with a value in which something has to be
unescaped. -/
inductive BreaksOff : Bytes → Prop
  | word {lead word rest : Bytes} (hlead : AreSpaces lead) (hword : IsWord word) :
      BreaksOff (lead ++ word ++ ascii "." ++ rest)
  | value {lead type gap plain rest : Bytes} {b : UInt8} (hlead : AreSpaces lead)
      (htype : IsType type) (hgap : AreSpaces gap) (hplain : IsPlain plain)
      (hb : isSpecial b = true) :
      BreaksOff (lead ++ type ++ gap ++ ascii "=" ++ plain ++ b :: rest)

/-- After assertions with their separators the text goes on with something that is not simple. -/
inductive IsTooComplex : Bytes → Prop
  | here {s : Bytes} (h : BreaksOff s) : IsTooComplex s
  | later {ava : Ava} {b : UInt8} {s : Bytes} (h : IsAva ava) (hb : isSeparator b = true)
      (hrest : IsTooComplex s) : IsTooComplex (ava.rawText ++ b :: s)

end LdapBer.Dn
