import LdapBer.Oid

/-! Reading the dotted text of an object identifier.

The text is read from left to right and the first fault decides: a character that is no
digit, an arc that outgrows 64 bits, a dot with no arc behind it. Only then are the number
of arcs and the bounds of the first two looked at. -/
namespace LdapBer.Oid

/-- The arcs of a dotted text. `arc` holds the value of the digits read since the last dot,
if there were any. Whether another digit fits is asked before it is taken, since the value would
not be known after an overflow. -/
def readArcs (text : Bytes) : Option Nat → Bytes → Except OidError (List Nat)
  | none, [] => .error (.trailingDot text)
  | some arc, [] => .ok [arc]
  | none, c :: s =>
    if isDigit c then readArcs text (some (digitValue c)) s
    else if c = 46 then .error (.emptyArc text)
    else .error (.invalidCharacter text)
  | some arc, c :: s =>
    if isDigit c then
      if (0xFFFFFFFFFFFFFFFF - digitValue c) / 10 < arc then .error (.arcTooLarge text)
      else readArcs text (some (arc * 10 + digitValue c)) s
    else if c = 46 then (arc :: ·) <$> readArcs text none s
    else .error (.invalidCharacter text)

/-- The complaint about arcs that are not admissible. Arcs after the second are only bounded
by their size, which the reading has checked. -/
def arcsFault (text : Bytes) : List Nat → OidError
  | first :: second :: _ =>
    if first > 2 then .firstArc text
    else if first < 2 ∧ second > 39 then .secondArc text
    else .arcTooLarge text
  | _ => .tooFewArcs text

def ofText (text : Bytes) : Except OidError Oid :=
  if text.isEmpty then .error (.emptyText text)
  else
    match readArcs text none text with
    | .error e => .error e
    | .ok arcs =>
      if h : Admissible arcs then .ok ⟨arcs, h⟩ else .error (arcsFault text arcs)

def isValid (text : Bytes) : Bool :=
  (ofText text).toOption.isSome

end LdapBer.Oid
