import LdapBer.Ber.Writer
import LdapBer.Decode.Whole

/-! The request control for server side sorting.

Its value is a list of keys, each an attribute type, optionally the rule by which the values
are ordered, and whether the order is reversed. A flag tells whether there is a rule; without
it the rule is not written. The reversal is written only if it is true. -/
namespace LdapBer

structure SortKey where
  attributeType : Bytes
  hasOrderingRule : Bool := false
  orderingRule : Bytes := []
  reverseOrder : Bool := false
deriving DecidableEq, Repr

structure SortRequest where
  keys : List SortKey := []
deriving DecidableEq, Repr

namespace SortRequest

/-- The identifier of the control. -/
def controlType : String := "1.2.840.113556.1.4.473"

def orderingRuleTag : UInt8 := Tag.context 0 false

def reverseOrderTag : UInt8 := Tag.context 1 false

/-! ### Decoding -/

inductive State where
  | start
  | keyList
  | key
  | attributeType
  | orderingRule
  | reverseOrder
  | keyDone
deriving DecidableEq, Repr

namespace State

def all : List State :=
  [start, keyList, key, attributeType, orderingRule, reverseOrder, keyDone]

def name : State → String
  | start => "START"
  | keyList => "KEY_LIST"
  | key => "KEY"
  | attributeType => "ATTRIBUTE_TYPE"
  | orderingRule => "ORDERING_RULE"
  | reverseOrder => "REVERSE_ORDER"
  | keyDone => "KEY_DONE"

def label (s : State) : StateLabel :=
  ⟨all.idxOf s, ascii s.name⟩

end State

def addKey : Action State SortRequest := fun e r =>
  if e.value.isEmpty then .error (.refuse .emptyAttributeType)
  else .ok (⟨r.keys ++ [{attributeType := e.value}]⟩, true)

def storeOrderingRule : Action State SortRequest := fun e r =>
  let store (k : SortKey) := {k with hasOrderingRule := true, orderingRule := e.value}
  .ok (⟨modifyLast store r.keys⟩, true)

def storeReverseOrder : Action State SortRequest := fun e r =>
  match readBoolean e.value with
  | .ok b => .ok (⟨modifyLast (fun k => {k with reverseOrder := b}) r.keys⟩, true)
  | .error err => .error (.refuse (.content err))

/-- The tags that may come next, by state. -/
def row : State → List (UInt8 × Transition State SortRequest)
  | .start => [(Tag.sequence, ⟨.keyList, none⟩)]
  | .keyList | .keyDone => [(Tag.sequence, ⟨.key, none⟩)]
  | .key => [(Tag.octetString, ⟨.attributeType, some addKey⟩)]
  | .attributeType =>
    [(orderingRuleTag, ⟨.orderingRule, some storeOrderingRule⟩),
      (reverseOrderTag, ⟨.reverseOrder, some storeReverseOrder⟩)]
  | .orderingRule => [(reverseOrderTag, ⟨.reverseOrder, some storeReverseOrder⟩)]
  | .reverseOrder => []

def closeOf : State → Option (Close State)
  | .key => some ⟨.keyDone, true⟩
  | _ => none

def grammar : Grammar State SortRequest where
  name := ascii "SortKeyList"
  blank := {}
  start := .start
  states := State.all
  label := State.label
  transition s t := (row s).lookup t
  close := closeOf

def decode (s : Bytes) : Except DecodeError SortRequest :=
  grammar.decode none s

/-! ### Encoding -/

def keyLength (k : SortKey) : Nat :=
  elementSize k.attributeType.length +
    (if k.hasOrderingRule then elementSize k.orderingRule.length else 0) +
    (if k.reverseOrder then 3 else 0)

def listLength (r : SortRequest) : Nat :=
  total (r.keys.map fun k => elementSize (keyLength k))

def keyLayout (k : SortKey) : Layout :=
  Layout.header Tag.sequence (keyLength k) ++ Layout.octets Tag.octetString k.attributeType ++
    (if k.hasOrderingRule then Layout.octets orderingRuleTag k.orderingRule else []) ++
    (if k.reverseOrder then Layout.boolean reverseOrderTag true else [])

def encode (r : SortRequest) : Except EncodeError Bytes :=
  if r.keys.isEmpty then .error .noSortKey
  else
    (Layout.header Tag.sequence r.listLength ++ r.keys.flatMap keyLayout).bytes
      (elementSize r.listLength)

end SortRequest

end LdapBer
