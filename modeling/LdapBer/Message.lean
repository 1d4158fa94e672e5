import LdapBer.Control

/-! LDAP messages.

A message has an id, one operation and controls. The operations here are those that carry no
search filters or attribute lists. Each uses some of the fields: the three responses the
result, a delete request the name, an abandon request the other id and a reference the
URLs. The fields of other operations stay as they are by default. -/
namespace LdapBer

inductive Operation where
  | none
  | unbindRequest
  | searchResultDone
  | deleteRequest
  | deleteResponse
  | compareResponse
  | abandonRequest
  | searchResultReference
deriving DecidableEq, Repr

namespace Operation

def all : List Operation :=
  [none, unbindRequest, searchResultDone, deleteRequest, deleteResponse, compareResponse,
    abandonRequest, searchResultReference]

def name : Operation → String
  | none => "none"
  | unbindRequest => "UnbindRequest"
  | searchResultDone => "SearchResultDone"
  | deleteRequest => "DelRequest"
  | deleteResponse => "DelResponse"
  | compareResponse => "CompareResponse"
  | abandonRequest => "AbandonRequest"
  | searchResultReference => "SearchResultReference"

/-- The tag of the operation in a message. -/
def tag : Operation → UInt8
  | none => 0
  | unbindRequest => Tag.application 2 false
  | searchResultDone => Tag.application 5 true
  | deleteRequest => Tag.application 10 false
  | deleteResponse => Tag.application 11 true
  | compareResponse => Tag.application 15 true
  | abandonRequest => Tag.application 16 false
  | searchResultReference => Tag.application 19 true

/-- The operations whose content is a result. -/
def hasResult : Operation → Bool
  | searchResultDone | deleteResponse | compareResponse => true
  | _ => false

end Operation

/-- The outcome of an operation. Referrals are written only if there are any. -/
structure Result where
  code : Int := 0
  matchedDn : Bytes := []
  diagnostic : Bytes := []
  referrals : List Bytes := []
deriving DecidableEq, Repr

structure Message where
  id : Int := 0
  operation : Operation := .none
  result : Result := {}
  dn : Bytes := []
  abandonedId : Int := 0
  urls : List Bytes := []
  controls : List Control := []
deriving DecidableEq, Repr

namespace Message

/-- The largest message id and result code. -/
def maxNumber : Int := 0x7FFFFFFF

def isNumber (n : Int) : Bool :=
  0 ≤ n && n ≤ maxNumber

def referralTag : UInt8 := Tag.context 3 true

def controlsTag : UInt8 := Tag.context 0 true

end Message

end LdapBer
