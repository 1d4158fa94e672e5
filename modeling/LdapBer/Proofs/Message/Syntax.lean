import Mathlib.Data.List.Forall2
import LdapBer.Message.Grammar
import LdapBer.Proofs.Ber.Integer
import LdapBer.Proofs.Decode.Tree

/-! The syntax of LDAP messages.

Each notion of the language relates a value to the trees that stand for it. The bytes of a length
field do not matter here: they are whatever a well-formed tree has. Optional parts are relations
between a value and the row of trees, empty or not, that stands for it. -/
namespace LdapBer.Message

/-! ### Contents -/

/-- A number from 0 to 2^31 - 1 in one to eight bytes, which need not be the fewest. -/
inductive IsNumber (tag : UInt8) (n : Int) : Tree → Prop
  | mk (field value : Bytes) (hsize : 1 ≤ value.length ∧ value.length ≤ 8)
      (hvalue : ofTwosComplement value = n) (hrange : 0 ≤ n ∧ n ≤ 0x7FFFFFFF) :
      IsNumber tag n (.leaf tag field value)

inductive IsText (text : Bytes) : Tree → Prop
  | mk (field : Bytes) : IsText text (.leaf 0x04 field text)

def IsUrl (url : Bytes) (t : Tree) : Prop :=
  IsText url t ∧ url ≠ []

/-- One or more URLs in a row. -/
def AreUrls (urls : List Bytes) (ts : List Tree) : Prop :=
  urls ≠ [] ∧ List.Forall₂ IsUrl urls ts

/-! ### Operations -/

inductive AreReferrals : List Bytes → List Tree → Prop
  | absent : AreReferrals [] []
  | present (field : Bytes) {urls : List Bytes} {ts : List Tree} (h : AreUrls urls ts) :
      AreReferrals urls [.node 0xA3 field ts]

inductive AreResult : Result → List Tree → Prop
  | mk {code : Int} {matchedDn diagnostic : Bytes} {referrals : List Bytes} {t u v : Tree}
      {ts : List Tree} (hcode : IsNumber 0x0A code t) (hmatchedDn : IsText matchedDn u)
      (hdiagnostic : IsText diagnostic v) (hreferrals : AreReferrals referrals ts) :
      AreResult ⟨code, matchedDn, diagnostic, referrals⟩ (t :: u :: v :: ts)

/-- The responses and their tags. -/
inductive ResponseTag : Operation → UInt8 → Prop
  | searchResultDone : ResponseTag .searchResultDone 0x65
  | deleteResponse : ResponseTag .deleteResponse 0x6B
  | compareResponse : ResponseTag .compareResponse 0x6F

/-- The operation of a message. Here a message has nothing else than its operation. -/
inductive IsOperation : Message → Tree → Prop
  | unbindRequest (field : Bytes) :
      IsOperation {operation := .unbindRequest} (.leaf 0x42 field [])
  | deleteRequest (field : Bytes) {dn : Bytes} (hdn : ∃ name, Dn.scan dn = .ok name) :
      IsOperation {operation := .deleteRequest, dn := dn} (.leaf 0x4A field dn)
  | abandonRequest {id : Int} {t : Tree} (hid : IsNumber 0x50 id t) :
      IsOperation {operation := .abandonRequest, abandonedId := id} t
  | response {op : Operation} {tag : UInt8} (htag : ResponseTag op tag) (field : Bytes)
      {r : Result} {ts : List Tree} (hresult : AreResult r ts) :
      IsOperation {operation := op, result := r} (.node tag field ts)
  | searchResultReference (field : Bytes) {urls : List Bytes} {ts : List Tree}
      (hurls : AreUrls urls ts) :
      IsOperation {operation := .searchResultReference, urls := urls} (.node 0x73 field ts)

/-! ### Controls -/

/-- A flag has one byte, and any but zero is true. Without it the flag is false. -/
inductive AreFlag : Bool → List Tree → Prop
  | absent : AreFlag false []
  | present (field : Bytes) (b : UInt8) : AreFlag (b != 0) [.leaf 0x01 field [b]]

inductive AreValue : Option Bytes → List Tree → Prop
  | absent : AreValue none []
  | present {value : Bytes} {t : Tree} (h : IsText value t) : AreValue (some value) [t]

inductive AreControlParts : Control → List Tree → Prop
  | mk {oid : Bytes} {critical : Bool} {value : Option Bytes} {t : Tree} {ts us : List Tree}
      (hoid : IsText oid t) (hvalid : Oid.isValid oid = true) (hcritical : AreFlag critical ts)
      (hvalue : AreValue value us) : AreControlParts ⟨oid, critical, value⟩ (t :: (ts ++ us))

inductive IsControl (c : Control) : Tree → Prop
  | mk (field : Bytes) {ts : List Tree} (h : AreControlParts c ts) :
      IsControl c (.node 0x30 field ts)

inductive AreControls : List Control → List Tree → Prop
  | absent : AreControls [] []
  | present (field : Bytes) {cs : List Control} {ts : List Tree} (hne : cs ≠ [])
      (h : List.Forall₂ IsControl cs ts) : AreControls cs [.node 0xA0 field ts]

/-! ### Messages -/

inductive AreMessageParts : Message → List Tree → Prop
  | mk {id : Int} {op : Message} {controls : List Control} {t u : Tree} {ts : List Tree}
      (hid : IsNumber 0x02 id t) (hop : IsOperation op u) (hcontrols : AreControls controls ts) :
      AreMessageParts {op with id := id, controls := controls} (t :: u :: ts)

/-- What is not part of a message is as by default. -/
inductive IsMessage (m : Message) : Tree → Prop
  | mk (field : Bytes) {ts : List Tree} (h : AreMessageParts m ts) :
      IsMessage m (.node 0x30 field ts)

end LdapBer.Message
