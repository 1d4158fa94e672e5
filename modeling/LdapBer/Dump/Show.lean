import LdapBer.Base64
import LdapBer.Message
import LdapBer.SortRequest
import LdapBer.SyncInfo
import LdapBer.Utf8

/-! Messages as a report shows them.

A line tells the id and the operation; what belongs to the operation and the controls follow
on indented lines. Bytes that are no printable text are shown in base 64. The values of the
two known controls are decoded. -/
namespace LdapBer.Dump

def line (s : Bytes) : Bytes :=
  s ++ ascii "\n"

def showBytes (label : String) (s : Bytes) : Bytes :=
  let text := if Utf8.isPrintable s then quoted s else ascii "base64 " ++ Base64.encode false true s
  line (ascii "      " ++ ascii label ++ ascii ": " ++ text)

def showSortKey (k : SortKey) : Bytes :=
  line (ascii "      sort key " ++ k.attributeType ++
    (if k.hasOrderingRule then ascii " ordering rule " ++ k.orderingRule else []) ++
    (if k.reverseOrder then ascii " reverse" else []))

def boolText (b : Bool) : Bytes :=
  ascii (if b then "true" else "false")

def showSyncInfo (i : SyncInfo) : Bytes :=
  line (ascii "      " ++ ascii i.kind.name ++
    (match i.kind with
      | .newCookie => []
      | .refreshDelete | .refreshPresent => ascii " refreshDone " ++ boolText i.refreshDone
      | .idSet =>
        ascii " refreshDeletes " ++ boolText i.refreshDeletes ++ ascii ", " ++
          decimal i.uuids.length ++ ascii " UUIDs")) ++
    (if i.hasCookie then showBytes "cookie" i.cookie else [])

/-- A value that cannot be decoded is shown as it is, behind the reason. -/
def showUndecodable (e : DecodeError) (value : Bytes) : Bytes :=
  ascii "      undecodable value. " ++ e.failure.explain ++ showBytes "value" value

def showControlValue (oid value : Bytes) : Bytes :=
  if oid = ascii SortRequest.controlType then
    match SortRequest.decode value with
    | .ok request => request.keys.flatMap showSortKey
    | .error e => showUndecodable e value
  else if oid = ascii SyncInfo.messageType then
    match SyncInfo.decode value with
    | .ok info => showSyncInfo info
    | .error e => showUndecodable e value
  else showBytes "value" value

def showControl (c : Control) : Bytes :=
  line (ascii "   control " ++ c.oid ++ (if c.critical then ascii " critical" else [])) ++
    (match c.value with
      | some value => showControlValue c.oid value
      | none => [])

def showResult (r : Result) : Bytes :=
  line (ascii "   result code " ++ decimalInt r.code ++
    (if r.matchedDn.isEmpty then [] else ascii ", matched " ++ quoted r.matchedDn) ++
    (if r.diagnostic.isEmpty then [] else ascii ", " ++ quoted r.diagnostic)) ++
    r.referrals.flatMap fun url => line (ascii "   referral " ++ url)

def showMessage (m : Message) : Bytes :=
  line (ascii "message " ++ decimalInt m.id ++ ascii ": " ++ ascii m.operation.name ++
    (match m.operation with
      | .deleteRequest => ascii " " ++ quoted m.dn
      | .abandonRequest => ascii " of message " ++ decimalInt m.abandonedId
      | _ => [])) ++
    (if m.operation.hasResult then showResult m.result else []) ++
    (m.urls.flatMap fun url => line (ascii "   url " ++ url)) ++
    m.controls.flatMap showControl

end LdapBer.Dump
