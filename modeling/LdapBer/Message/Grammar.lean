import LdapBer.Message
import LdapBer.Dn.Scan
import LdapBer.Grammar

/-! The grammar of LDAP messages.

A message is a sequence of its id, an operation and, optionally, controls. Each state is named
after the element that came last or, where an element has just been opened, after that. -/
namespace LdapBer.Message

inductive State where
  | start
  | message
  | messageId
  | opDone
  | result
  | resultCode
  | matchedDn
  | diagnostic
  | referral
  | referralUrl
  | resultDone
  | reference
  | referenceUrl
  | controls
  | control
  | controlType
  | criticality
  | controlValue
  | controlsNext
  | done
deriving DecidableEq, Repr

namespace State

def all : List State :=
  [start, message, messageId, opDone, result, resultCode, matchedDn, diagnostic, referral,
    referralUrl, resultDone, reference, referenceUrl, controls, control, controlType,
    criticality, controlValue, controlsNext, done]

def name : State → String
  | start => "START"
  | message => "MESSAGE"
  | messageId => "MESSAGE_ID"
  | opDone => "OP_DONE"
  | result => "RESULT"
  | resultCode => "RESULT_CODE"
  | matchedDn => "MATCHED_DN"
  | diagnostic => "DIAGNOSTIC_MESSAGE"
  | referral => "REFERRAL"
  | referralUrl => "REFERRAL_URL"
  | resultDone => "RESULT_DONE"
  | reference => "REFERENCE"
  | referenceUrl => "REFERENCE_URL"
  | controls => "CONTROLS"
  | control => "CONTROL"
  | controlType => "CONTROL_TYPE"
  | criticality => "CRITICALITY"
  | controlValue => "CONTROL_VALUE"
  | controlsNext => "CONTROLS_NEXT"
  | done => "MESSAGE_DONE"

def label (s : State) : StateLabel :=
  ⟨all.idxOf s, ascii s.name⟩

end State

/-- Hands an id or a code on to `set`. -/
def withNumber (e : Element State) (set : Int → Message × Bool) :
    Except Objection (Message × Bool) :=
  match readInteger 0 maxNumber e.value with
  | .ok n => .ok (set n)
  | .error err => .error (.refuse (.content err))

/-- Hands a URL, which may not be empty, on to `set`. -/
def withUrl (e : Element State) (set : Bytes → Message) : Except Objection (Message × Bool) :=
  if e.value.isEmpty then .error (.refuse .emptyUrl) else .ok (set e.value, true)

def storeId : Action State Message := fun e m =>
  withNumber e fun n => ({m with id := n}, false)

def storeUnbind : Action State Message := fun e m =>
  if e.value.isEmpty then .ok ({m with operation := .unbindRequest}, true)
  else .error (.refuse (.unbindContent e.value.length))

/-- A name that is too complex to be scanned is taken as it is. -/
def storeDelete : Action State Message := fun e m =>
  match Dn.scan e.value with
  | .ok _ => .ok ({m with operation := .deleteRequest, dn := e.value}, true)
  | .error err => .error (.refuse (.name err))

def storeAbandon : Action State Message := fun e m =>
  withNumber e fun n => ({m with operation := .abandonRequest, abandonedId := n}, true)

def begin (op : Operation) : Action State Message := fun _ m =>
  .ok ({m with operation := op}, false)

def storeCode : Action State Message := fun e m =>
  withNumber e fun n => ({m with result := {m.result with code := n}}, false)

def storeMatchedDn : Action State Message := fun e m =>
  .ok ({m with result := {m.result with matchedDn := e.value}}, false)

def storeDiagnostic : Action State Message := fun e m =>
  .ok ({m with result := {m.result with diagnostic := e.value}}, true)

def addReferral : Action State Message := fun e m =>
  withUrl e fun url => {m with result := {m.result with referrals := m.result.referrals ++ [url]}}

def addUrl : Action State Message := fun e m =>
  withUrl e fun url => {m with urls := m.urls ++ [url]}

def beginControl : Action State Message := fun _ m =>
  .ok ({m with controls := m.controls ++ [{}]}, false)

def storeControlType : Action State Message := fun e m =>
  if Oid.isValid e.value then
    .ok ({m with controls := modifyLast (fun c => {c with oid := e.value}) m.controls}, true)
  else .error (.refuse (.controlType e.value))

def storeCriticality : Action State Message := fun e m =>
  match readBoolean e.value with
  | .ok b =>
    .ok ({m with controls := modifyLast (fun c => {c with critical := b}) m.controls}, true)
  | .error err => .error (.refuse (.content err))

def storeControlValue : Action State Message := fun e m =>
  .ok ({m with controls := modifyLast (fun c => {c with value := some e.value}) m.controls}, true)

/-- The tags that may come next, by state. -/
def row : State → List (UInt8 × Transition State Message)
  | .start => [(Tag.sequence, ⟨.message, none⟩)]
  | .message => [(Tag.integer, ⟨.messageId, some storeId⟩)]
  | .messageId =>
    [(Operation.unbindRequest.tag, ⟨.opDone, some storeUnbind⟩),
      (Operation.deleteRequest.tag, ⟨.opDone, some storeDelete⟩),
      (Operation.abandonRequest.tag, ⟨.opDone, some storeAbandon⟩),
      (Operation.searchResultDone.tag, ⟨.result, some (begin .searchResultDone)⟩),
      (Operation.deleteResponse.tag, ⟨.result, some (begin .deleteResponse)⟩),
      (Operation.compareResponse.tag, ⟨.result, some (begin .compareResponse)⟩),
      (Operation.searchResultReference.tag,
        ⟨.reference, some (begin .searchResultReference)⟩)]
  | .result => [(Tag.enumerated, ⟨.resultCode, some storeCode⟩)]
  | .resultCode => [(Tag.octetString, ⟨.matchedDn, some storeMatchedDn⟩)]
  | .matchedDn => [(Tag.octetString, ⟨.diagnostic, some storeDiagnostic⟩)]
  | .diagnostic => [(referralTag, ⟨.referral, none⟩)]
  | .referral | .referralUrl => [(Tag.octetString, ⟨.referralUrl, some addReferral⟩)]
  | .reference | .referenceUrl => [(Tag.octetString, ⟨.referenceUrl, some addUrl⟩)]
  | .opDone => [(controlsTag, ⟨.controls, none⟩)]
  | .controls | .controlsNext => [(Tag.sequence, ⟨.control, some beginControl⟩)]
  | .control => [(Tag.octetString, ⟨.controlType, some storeControlType⟩)]
  | .controlType =>
    [(Tag.boolean, ⟨.criticality, some storeCriticality⟩),
      (Tag.octetString, ⟨.controlValue, some storeControlValue⟩)]
  | .criticality => [(Tag.octetString, ⟨.controlValue, some storeControlValue⟩)]
  | .resultDone | .controlValue | .done => []

def closeOf : State → Option (Close State)
  | .referral => some ⟨.resultDone, true⟩
  | .result => some ⟨.opDone, true⟩
  | .reference => some ⟨.opDone, true⟩
  | .control => some ⟨.controlsNext, true⟩
  | .controls => some ⟨.done, true⟩
  | _ => none

def grammar : Grammar State Message where
  name := ascii "LDAPMessage"
  blank := {}
  start := .start
  states := State.all
  label := State.label
  transition s t := (row s).lookup t
  close := closeOf

end LdapBer.Message
