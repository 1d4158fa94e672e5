import LdapBer.Proofs.Decode.Rows

/-! The syntax of control values.

A sort request and the information about a synchronisation are each related to the trees that stand
for them. The bytes of a length field do not matter here: they are whatever a well-formed tree
has. -/
namespace LdapBer

/-- A flag has one byte, and any but zero is true. -/
def IsFlag (b : Bool) (value : Bytes) : Prop :=
  ∃ x : UInt8, value = [x] ∧ b = (x != 0)

/-- A flag that may be left out. -/
abbrev AreOptionalFlag (tag : UInt8) (default : Bool) : Bool → List Tree → Prop :=
  AreOptional tag IsFlag default

/-- All bytes are octets. -/
def IsOctets (octets : Option Bytes) (value : Bytes) : Prop :=
  octets = some value

/-- Octets that may be left out. -/
abbrev AreOptionalOctets (tag : UInt8) : Option Bytes → List Tree → Prop :=
  AreOptional tag IsOctets none

/-! ### Sort requests -/

/-- A key with these parts. -/
def SortKey.ofParts (attributeType : Bytes) (rule : Option Bytes) (reverse : Bool) : SortKey :=
  { attributeType := attributeType
    hasOrderingRule := rule.isSome
    orderingRule := rule.getD []
    reverseOrder := reverse }

namespace SortRequest

inductive AreKeyParts : SortKey → List Tree → Prop
  | mk (field : Bytes) {attributeType : Bytes} {rule : Option Bytes} {reverse : Bool}
      {ts us : List Tree} (hne : attributeType ≠ []) (hrule : AreOptionalOctets 0x80 rule ts)
      (hreverse : AreOptionalFlag 0x81 false reverse us) :
      AreKeyParts (.ofParts attributeType rule reverse)
        (.leaf 0x04 field attributeType :: (ts ++ us))

inductive IsKey (k : SortKey) : Tree → Prop
  | mk (field : Bytes) {ts : List Tree} (h : AreKeyParts k ts) : IsKey k (.node 0x30 field ts)

inductive IsSortRequest (r : SortRequest) : Tree → Prop
  | mk (field : Bytes) {ts : List Tree} (hne : r.keys ≠ []) (h : List.Forall₂ IsKey r.keys ts) :
      IsSortRequest r (.node 0x30 field ts)

end SortRequest

/-! ### Synchronisation -/

namespace SyncInfo

/-- A message with these parts, and the others as by default. -/
def refresh (kind : SyncKind) (cookie : Option Bytes) (done : Bool) : SyncInfo :=
  { kind := kind
    hasCookie := cookie.isSome
    cookie := cookie.getD []
    refreshDone := done }

def idSet (cookie : Option Bytes) (deletes : Bool) (uuids : List Uuid) : SyncInfo :=
  { kind := .idSet
    hasCookie := cookie.isSome
    cookie := cookie.getD []
    refreshDeletes := deletes
    uuids := uuids }

inductive IsUuid (u : Uuid) : Tree → Prop
  | mk (field : Bytes) : IsUuid u (.leaf 0x04 field u.bytes)

/-- The refresh kinds and their tags. -/
inductive RefreshTag : SyncKind → UInt8 → Prop
  | refreshDelete : RefreshTag .refreshDelete 0xA1
  | refreshPresent : RefreshTag .refreshPresent 0xA2

/-- Of a set of identifiers only the UUIDs have to be there, and they come last. -/
inductive IsSyncInfo : SyncInfo → Tree → Prop
  | newCookie (field cookie : Bytes) :
      IsSyncInfo {kind := .newCookie, hasCookie := true, cookie := cookie} (.leaf 0x80 field cookie)
  | refresh {kind : SyncKind} {tag : UInt8} (htag : RefreshTag kind tag) (field : Bytes)
      {cookie : Option Bytes} {done : Bool} {ts us : List Tree}
      (hcookie : AreOptionalOctets 0x04 cookie ts) (hdone : AreOptionalFlag 0x01 true done us) :
      IsSyncInfo (.refresh kind cookie done) (.node tag field (ts ++ us))
  | idSet (field setField : Bytes) {cookie : Option Bytes} {deletes : Bool} {uuids : List Uuid}
      {ts us vs : List Tree} (hcookie : AreOptionalOctets 0x04 cookie ts)
      (hdeletes : AreOptionalFlag 0x01 false deletes us) (huuids : List.Forall₂ IsUuid uuids vs) :
      IsSyncInfo (.idSet cookie deletes uuids)
        (.node 0xA3 field (ts ++ (us ++ [.node 0x31 setField vs])))

end SyncInfo

end LdapBer
