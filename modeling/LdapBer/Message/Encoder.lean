import LdapBer.Message
import LdapBer.Oid.Dotted

/-! Writing LDAP messages.

A message is written in two passes. `measure` checks it and fixes the lengths of its nested
elements; `layout` writes by them. An encoder keeps what was measured, so the two passes may
see different messages: then the old lengths stand before the new data. To each control that
was measured the encoder keeps a reference, and by these it writes the controls, not by the
list that the message has when it is written: a control that was added since is not written,
and one that was moved out of the message still is. -/
namespace LdapBer.Message

/-- The lengths that were fixed, each of what is inside the header. -/
structure Encoder where
  messageLength : Nat := 0
  operationLength : Nat := 0
  referralLength : Nat := 0
  controlsLength : Nat := 0
  controls : List Control.Recorded := []
  isMeasured : Bool := false
deriving DecidableEq, Repr

/-- The size of texts written as octet strings. -/
def textsSize (texts : List Bytes) : Nat :=
  total (texts.map fun t => elementSize t.length)

def resultLength (r : Result) : Nat :=
  elementSize (integerLength r.code) + elementSize r.matchedDn.length +
    elementSize r.diagnostic.length +
    (if r.referrals.isEmpty then 0 else elementSize (textsSize r.referrals))

/-- The length of the operation, which has to be one that can be written. -/
def operationLength (m : Message) : Except EncodeError Nat :=
  match m.operation with
  | .unbindRequest => .ok 0
  | .deleteRequest => .ok m.dn.length
  | .abandonRequest =>
    if isNumber m.abandonedId then .ok (integerLength m.abandonedId)
    else .error (.abandonedId m.abandonedId)
  | .searchResultDone | .deleteResponse | .compareResponse =>
    if isNumber m.result.code then .ok (resultLength m.result)
    else .error (.resultCode m.result.code)
  | .searchResultReference =>
    if m.urls.isEmpty then .error .noUrl else .ok (textsSize m.urls)
  | .none => .error .noOperation

/-- The length of the referrals, which only a result has. -/
def referralLength (m : Message) : Nat :=
  if m.operation.hasResult then textsSize m.result.referrals else 0

/-- The controls before the first whose identifier is not valid, and that identifier. -/
def measureControls : List Control → List Control.Recorded × Option EncodeError
  | [] => ([], none)
  | c :: cs =>
    if Oid.isValid c.oid then
      let (recorded, error) := measureControls cs
      (c.record :: recorded, error)
    else ([], some (.controlType c.oid))

def controlsSize (recorded : List Control.Recorded) : Nat :=
  total (recorded.map fun r => r.measure.size)

namespace Encoder

/-- Checks a message, fixes its lengths and returns the size of the whole. What is wrong is
found in the order of the fields, and what was fixed before stays fixed. -/
def measure (e : Encoder) (m : Message) : Encoder × Except EncodeError Nat :=
  if !isNumber m.id then (e, .error (.messageId m.id))
  else
    match m.operationLength with
    | .error err => ({e with referralLength := 0}, .error err)
    | .ok operationLength =>
      let (controls, error) := measureControls m.controls
      let e :=
        {e with
          operationLength := operationLength
          referralLength := m.referralLength
          controlsLength := controlsSize controls
          controls := controls}
      match error with
      | some err => (e, .error err)
      | none =>
        let messageLength :=
          elementSize (integerLength m.id) + elementSize operationLength +
            (if controls.isEmpty then 0 else elementSize (controlsSize controls))
        ({e with messageLength := messageLength, isMeasured := true},
          .ok (elementSize messageLength))

def texts (ts : List Bytes) : Layout :=
  ts.flatMap (Layout.octets Tag.octetString)

def operation (e : Encoder) (m : Message) : Layout :=
  let tag := m.operation.tag
  match m.operation with
  | .unbindRequest => Layout.header tag 0
  | .deleteRequest => Layout.octets tag m.dn
  | .abandonRequest => Layout.integer tag m.abandonedId
  | .searchResultDone | .deleteResponse | .compareResponse =>
    Layout.header tag e.operationLength ++ Layout.integer Tag.enumerated m.result.code ++
      Layout.octets Tag.octetString m.result.matchedDn ++
      Layout.octets Tag.octetString m.result.diagnostic ++
      (if m.result.referrals.isEmpty then []
        else Layout.header referralTag e.referralLength ++ texts m.result.referrals)
  | .searchResultReference => Layout.header tag e.operationLength ++ texts m.urls
  | .none => []

/-- Lays a message out by the lengths that were fixed last. -/
def layout (e : Encoder) (m : Message) : Layout :=
  if !e.isMeasured then [.error .messageUnmeasured]
  else
    Layout.header Tag.sequence e.messageLength ++ Layout.integer Tag.integer m.id ++
      e.operation m ++
      (if e.controls.isEmpty then []
        else
          Layout.header controlsTag e.controlsLength ++
            e.controls.flatMap Control.Recorded.layout)

/-- The encoder when the controls that it refers to have changed: `shown i` is what the `i`th of
its references shows now. -/
def refer (e : Encoder) (shown : Nat → Control) : Encoder :=
  {e with controls := e.controls.mapIdx fun i r => {r with control := shown i}}

end Encoder

/-- The size of a message on the wire. -/
def size (m : Message) : Except EncodeError Nat :=
  (Encoder.measure {} m).2

def encode (m : Message) : Except EncodeError Bytes :=
  match Encoder.measure {} m with
  | (_, .error err) => .error err
  | (e, .ok size) => (e.layout m).bytes size

end LdapBer.Message
