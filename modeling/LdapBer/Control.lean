import LdapBer.Ber.Writer

/-! Controls.

A control names itself by an object identifier, may be critical and may carry a value that
is opaque here. It is written in two passes: `measure` fixes the lengths, and `layout` writes
by them. The criticality is written only if it is true and the value only if it is not
empty. -/
namespace LdapBer

structure Control where
  oid : Bytes := []
  critical : Bool := false
  value : Option Bytes := none
deriving DecidableEq, Repr

namespace Control

def valueBytes (c : Control) : Bytes :=
  c.value.getD []

/-- Controls are the same if they agree up to the case of the letters in their identifiers. -/
def same (a b : Control) : Bool :=
  a.oid.map lowercase == b.oid.map lowercase && a.critical == b.critical && a.value == b.value

/-- The lengths fixed for a control: of its value and of all inside its outer header. -/
structure Measure where
  value : Nat
  content : Nat
deriving DecidableEq, Repr

/-- Measures a control whose value is said to have `value` bytes. -/
def measureWith (c : Control) (value : Nat) : Measure :=
  ⟨value, (elementSize c.oid.length + (if c.critical then 3 else 0) +
    (if value = 0 then 0 else elementSize value)) % lengthModulus⟩

def measure (c : Control) : Measure :=
  c.measureWith c.valueBytes.length

/-- The size of the control with its outer header. -/
def Measure.size (m : Measure) : Nat :=
  elementSize m.content % lengthModulus

/-- Lays a control out by lengths that were fixed before. The control may have changed since,
and only a change of the size of its value is noticed. -/
def layout (c : Control) : Option Measure → Layout
  | none => [.error .controlUnmeasured]
  | some m =>
    if m.value ≠ c.valueBytes.length then
      [.error (.controlValueChanged c.valueBytes.length m.value)]
    else
      Layout.header Tag.sequence m.content ++ Layout.octets Tag.octetString c.oid ++
        (if c.critical then Layout.boolean Tag.boolean true else []) ++
        (if m.value = 0 then [] else Layout.octets Tag.octetString c.valueBytes)

def encode (c : Control) : Except EncodeError Bytes :=
  (c.layout (some c.measure)).bytes c.measure.size

/-- A control that an encoder refers to: what the reference shows now, and the lengths that were
fixed when it was taken. -/
structure Recorded where
  control : Control
  measure : Measure
deriving DecidableEq, Repr

def record (c : Control) : Recorded :=
  ⟨c, c.measure⟩

def Recorded.layout (r : Recorded) : Layout :=
  r.control.layout (some r.measure)

end Control

end LdapBer
