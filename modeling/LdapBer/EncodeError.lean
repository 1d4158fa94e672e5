import LdapBer.Buffer

/-! Why a value is not written.

A value can be unfit for the wire, it can be larger than its length fields or than the room
that was reserved for it, there may be no such room, and an encoder can be asked to write what
it has not measured. -/
namespace LdapBer

inductive EncodeError where
  | overrun (size reserved : Nat)
  | noRoom (e : BufferError)
  | lengthTooLarge (length : Nat)
  | messageId (id : Int)
  | abandonedId (id : Int)
  | resultCode (code : Int)
  | noUrl
  | noOperation
  | controlType (oid : Bytes)
  | noSortKey
  | messageUnmeasured
  | controlUnmeasured
  | controlValueChanged (size measured : Nat)
deriving DecidableEq, Repr

namespace EncodeError

/-- The errors of a writer or an encoder that is used wrongly, not of the value. -/
def isMisuse : EncodeError → Bool
  | noRoom .tooLarge | messageUnmeasured | controlUnmeasured | controlValueChanged .. => true
  | _ => false

def wording : EncodeError → Bytes
  | overrun n left => ascii s!"writing {n} bytes with only {left} reserved"
  | noRoom .tooLarge => ascii "vector::reserve"
  | noRoom .noMemory => Buffer.noMemoryText
  | lengthTooLarge n => ascii s!"the length {n} does not fit in 4 bytes"
  | messageId id => ascii "the message id " ++ decimalInt id ++ ascii " is out of range"
  | abandonedId id =>
    ascii "the abandoned message id " ++ decimalInt id ++ ascii " is out of range"
  | resultCode code => ascii "the result code " ++ decimalInt code ++ ascii " is out of range"
  | noUrl => ascii "a SearchResultReference needs at least one URL"
  | noOperation => ascii "the message has no operation"
  | controlType oid =>
    ascii "the control type " ++ quoted oid ++ ascii " is not a valid OID"
  | noSortKey => ascii "a sort request needs at least one key"
  | messageUnmeasured => ascii "Message_encoder::encode() called before compute_length()"
  | controlUnmeasured => ascii "Control_encoder::encode() called before compute_length()"
  | controlValueChanged n measured =>
    ascii s!"the control value has {n} bytes but {measured} were computed"

/-- The message of an error stops at a NUL of the text that it quotes. -/
def message (e : EncodeError) : Bytes :=
  untilNul e.wording

end EncodeError

end LdapBer
