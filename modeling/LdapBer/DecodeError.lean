import LdapBer.Ber.Primitive
import LdapBer.Dn
import LdapBer.Failure

/-! Why input is not decoded.

An error names its cause and the position in the stream where it was found. There are three
families: faults of the framing, which no grammar could accept, elements that the grammar
does not admit where they stand, and values that are refused for their content. -/
namespace LdapBer

/-- Why the content of an element is turned down. -/
inductive Refusal where
  | content (e : ContentError)
  | name (e : DnFailure)
  | emptyUrl
  | unbindContent (size : Nat)
  | controlType (oid : Bytes)
  | emptyAttributeType
  | uuidSize (size : Nat)
  | rejected (size : Nat)
  | notOk
deriving DecidableEq, Repr

namespace Refusal

def wording : Refusal → Bytes
  | content e => e.message
  | name e => e.message
  | emptyUrl => ascii "empty LDAP URL"
  | unbindContent n => ascii s!"an UnbindRequest must be empty, found {n} bytes"
  | controlType oid => ascii "the control type " ++ quoted oid ++ ascii " is not a valid OID"
  | emptyAttributeType => ascii "empty attribute type in sort key"
  | uuidSize n => ascii s!"a syncUUID must have 16 bytes, found {n}"
  | rejected n => ascii s!"rejected value of {n} bytes"
  | notOk => ascii "not ok"

/-- The message of a refusal stops at a NUL of the text that it quotes. -/
def message (r : Refusal) : Bytes :=
  untilNul r.wording

end Refusal

/-- A state as errors show it. -/
structure StateLabel where
  number : Nat
  name : Bytes
deriving DecidableEq, Repr

inductive DecodeError where
  | header (e : HeaderError)
  | pduTooLong (length limit : Nat) (offset : UInt64)
  | beyondContainer (valueEnd containerEnd : UInt64) (offset : UInt64)
  | rejectedFrame (offset : UInt64)
  | truncated (grammar : Bytes) (offset : UInt64)
  | trailingBytes (grammar : Bytes) (count : Nat) (offset : UInt64)
  | incompleteElement (grammar : Bytes) (count : Nat) (offset : UInt64)
  | unexpectedTag (grammar : Bytes) (tag : UInt8) (state : StateLabel) (offset : UInt64)
  | endNotAllowed (grammar openedIn : Bytes) (state : StateLabel) (offset : UInt64)
  | truncatedMessage (grammar : Bytes) (state : StateLabel) (offset : UInt64)
  | incompleteMessage (grammar : Bytes) (state : StateLabel) (offset : UInt64)
  | refused (grammar : Bytes) (tag : UInt8) (stateName : Bytes) (offset : UInt64)
      (cause : Refusal)
deriving DecidableEq, Repr

namespace DecodeError

inductive Family where
  | framing
  | grammar
  | action
deriving DecidableEq, Repr

def family : DecodeError → Family
  | header _ | pduTooLong .. | beyondContainer .. | rejectedFrame _ | truncated ..
  | trailingBytes .. | incompleteElement .. => .framing
  | unexpectedTag .. | endNotAllowed .. | truncatedMessage .. | incompleteMessage .. => .grammar
  | refused .. => .action

def offset : DecodeError → UInt64
  | header e => e.offset
  | pduTooLong _ _ o | beyondContainer _ _ o | rejectedFrame o | truncated _ o
  | trailingBytes _ _ o | incompleteElement _ _ o | unexpectedTag _ _ _ o
  | endNotAllowed _ _ _ o | truncatedMessage _ _ o | incompleteMessage _ _ o
  | refused _ _ _ o _ => o

/-- The offending tag, if the grammar has met one. -/
def tag? : DecodeError → Option UInt8
  | unexpectedTag _ t _ _ => some t
  | _ => none

/-- The state in which the grammar stopped. -/
def state? : DecodeError → Option StateLabel
  | unexpectedTag _ _ s _ | endNotAllowed _ _ s _ | truncatedMessage _ s _
  | incompleteMessage _ s _ => some s
  | _ => none

def headerWording : HeaderFault → Bytes
  | .highTag t => ascii "high tag numbers are not supported (tag " ++ hexByte t ++ ascii ")"
  | .indefiniteLength => ascii "indefinite length is not supported"
  | .lengthTooWide n => ascii s!"length of {n} bytes is too large"

def atOffset (o : UInt64) : Bytes :=
  ascii s!" at offset {o}"

def message : DecodeError → Bytes
  | header e => headerWording e.fault ++ atOffset e.offset
  | pduTooLong n limit o =>
    ascii s!"the PDU length {n} exceeds the maximum of {limit}" ++ atOffset o
  | beyondContainer stop containerEnd o =>
    ascii s!"the TLV ends at {stop}, beyond the end {containerEnd} of its container" ++
      atOffset o
  | rejectedFrame o => ascii "rejected frame" ++ atOffset o
  | truncated g o => g ++ ascii ": truncated value" ++ atOffset o
  | trailingBytes g n o => g ++ ascii s!": {n} trailing bytes after the value" ++ atOffset o
  | incompleteElement g n o =>
    g ++ ascii s!": the input ended with {n} bytes of an incomplete TLV" ++ atOffset o
  | unexpectedTag g t s o =>
    g ++ ascii ": unexpected tag " ++ hexByte t ++ ascii " in state " ++ s.name ++ atOffset o
  | endNotAllowed g openedIn s o =>
    g ++ ascii ": value opened in " ++ openedIn ++ ascii " ended in state " ++ s.name ++
      atOffset o
  | truncatedMessage g s _ => g ++ ascii ": the value is truncated in state " ++ s.name
  | incompleteMessage g s o =>
    g ++ ascii ": the input ended inside a message in state " ++ s.name ++ atOffset o
  | refused g t stateName o _ =>
    g ++ ascii ": invalid value of tag " ++ hexByte t ++ ascii " in state " ++ stateName ++
      atOffset o

/-- A refused value is the only error with a cause behind it. -/
def failure : DecodeError → Failure
  | e@(refused _ _ _ _ cause) => .nested e.message (.reason cause.message)
  | e => .reason e.message

end DecodeError

end LdapBer
