import LdapBer.Ber.Writer
import LdapBer.Decode.Whole

/-! Messages about the state of content synchronisation.

There are four kinds. A new cookie is just that. The two refresh kinds may carry a cookie and
say whether the refresh is done, which it is unless they deny it. A set of identifiers may
carry a cookie, says whether the entries are deleted, which they are not by default, and
lists their UUIDs. -/
namespace LdapBer

/-- An identifier of 16 bytes. -/
structure Uuid where
  bytes : Bytes
  length_bytes : bytes.length = 16
deriving DecidableEq, Repr

inductive SyncKind where
  | newCookie
  | refreshDelete
  | refreshPresent
  | idSet
deriving DecidableEq, Repr

def SyncKind.all : List SyncKind :=
  [newCookie, refreshDelete, refreshPresent, idSet]

def SyncKind.name : SyncKind → String
  | newCookie => "newcookie"
  | refreshDelete => "refreshDelete"
  | refreshPresent => "refreshPresent"
  | idSet => "syncIdSet"

structure SyncInfo where
  kind : SyncKind := .newCookie
  hasCookie : Bool := false
  cookie : Bytes := []
  refreshDone : Bool := true
  refreshDeletes : Bool := false
  uuids : List Uuid := []
deriving DecidableEq, Repr

namespace SyncInfo

/-- The identifier of the message. -/
def messageType : String := "1.3.6.1.4.1.4203.1.9.1.4"

/-- The tag of each kind: only the new cookie is primitive. -/
def kindTag : SyncKind → UInt8
  | .newCookie => Tag.context 0 false
  | .refreshDelete => Tag.context 1 true
  | .refreshPresent => Tag.context 2 true
  | .idSet => Tag.context 3 true

/-! ### Decoding -/

inductive State where
  | start
  | newCookie
  | refresh
  | refreshCookie
  | refreshDone
  | idSet
  | idSetCookie
  | refreshDeletes
  | uuids
  | uuid
  | idSetDone
deriving DecidableEq, Repr

namespace State

def all : List State :=
  [start, newCookie, refresh, refreshCookie, refreshDone, idSet, idSetCookie, refreshDeletes,
    uuids, uuid, idSetDone]

def name : State → String
  | start => "START"
  | newCookie => "NEW_COOKIE"
  | refresh => "REFRESH"
  | refreshCookie => "REFRESH_COOKIE"
  | refreshDone => "REFRESH_DONE"
  | idSet => "SYNC_ID_SET"
  | idSetCookie => "SYNC_ID_SET_COOKIE"
  | refreshDeletes => "REFRESH_DELETES"
  | uuids => "SYNC_UUIDS"
  | uuid => "SYNC_UUID"
  | idSetDone => "SYNC_ID_SET_DONE"

def label (s : State) : StateLabel :=
  ⟨all.idxOf s, ascii s.name⟩

end State

def storeNewCookie : Action State SyncInfo := fun e i =>
  .ok ({i with kind := .newCookie, hasCookie := true, cookie := e.value}, true)

/-- Both parts of a refresh are optional, so it may end at once. -/
def beginRefresh (kind : SyncKind) : Action State SyncInfo := fun _ i =>
  .ok ({i with kind := kind}, true)

def storeCookie : Action State SyncInfo := fun e i =>
  .ok ({i with hasCookie := true, cookie := e.value}, true)

/-- The UUIDs of a set are required, so it may not end before them. -/
def storeSetCookie : Action State SyncInfo := fun e i =>
  .ok ({i with hasCookie := true, cookie := e.value}, false)

def storeRefreshDone : Action State SyncInfo := fun e i =>
  match readBoolean e.value with
  | .ok b => .ok ({i with refreshDone := b}, true)
  | .error err => .error (.refuse (.content err))

def beginIdSet : Action State SyncInfo := fun _ i =>
  .ok ({i with kind := .idSet}, false)

def storeRefreshDeletes : Action State SyncInfo := fun e i =>
  match readBoolean e.value with
  | .ok b => .ok ({i with refreshDeletes := b}, false)
  | .error err => .error (.refuse (.content err))

def beginUuids : Action State SyncInfo := fun _ i =>
  .ok (i, true)

def addUuid : Action State SyncInfo := fun e i =>
  if h : e.value.length = 16 then .ok ({i with uuids := i.uuids ++ [⟨e.value, h⟩]}, true)
  else .error (.refuse (.uuidSize e.value.length))

/-- The tags that may come next, by state. -/
def row : State → List (UInt8 × Transition State SyncInfo)
  | .start =>
    [(kindTag .newCookie, ⟨.newCookie, some storeNewCookie⟩),
      (kindTag .refreshDelete, ⟨.refresh, some (beginRefresh .refreshDelete)⟩),
      (kindTag .refreshPresent, ⟨.refresh, some (beginRefresh .refreshPresent)⟩),
      (kindTag .idSet, ⟨.idSet, some beginIdSet⟩)]
  | .refresh =>
    [(Tag.octetString, ⟨.refreshCookie, some storeCookie⟩),
      (Tag.boolean, ⟨.refreshDone, some storeRefreshDone⟩)]
  | .refreshCookie => [(Tag.boolean, ⟨.refreshDone, some storeRefreshDone⟩)]
  | .idSet =>
    [(Tag.octetString, ⟨.idSetCookie, some storeSetCookie⟩),
      (Tag.boolean, ⟨.refreshDeletes, some storeRefreshDeletes⟩),
      (Tag.set, ⟨.uuids, some beginUuids⟩)]
  | .idSetCookie =>
    [(Tag.boolean, ⟨.refreshDeletes, some storeRefreshDeletes⟩),
      (Tag.set, ⟨.uuids, some beginUuids⟩)]
  | .refreshDeletes => [(Tag.set, ⟨.uuids, some beginUuids⟩)]
  | .uuids | .uuid => [(Tag.octetString, ⟨.uuid, some addUuid⟩)]
  | .newCookie | .refreshDone | .idSetDone => []

def closeOf : State → Option (Close State)
  | .uuids => some ⟨.idSetDone, true⟩
  | _ => none

def grammar : Grammar State SyncInfo where
  name := ascii "syncInfoValue"
  blank := {}
  start := .start
  states := State.all
  label := State.label
  transition s t := (row s).lookup t
  close := closeOf

def decode (s : Bytes) : Except DecodeError SyncInfo :=
  grammar.decode none s

/-! ### Encoding -/

def cookieLayout (i : SyncInfo) : Layout :=
  if i.hasCookie then Layout.octets Tag.octetString i.cookie else []

def cookieSize (i : SyncInfo) : Nat :=
  if i.hasCookie then elementSize i.cookie.length else 0

def uuidsLength (i : SyncInfo) : Nat :=
  i.uuids.length * elementSize 16

/-- The length of what is inside the outer header. -/
def contentLength (i : SyncInfo) : Nat :=
  match i.kind with
  | .newCookie => i.cookie.length
  | .refreshDelete | .refreshPresent => i.cookieSize + (if i.refreshDone then 0 else 3)
  | .idSet => i.cookieSize + (if i.refreshDeletes then 3 else 0) + elementSize i.uuidsLength

/-- What has its default value is not written. A new cookie is written even if it is empty. -/
def contentLayout (i : SyncInfo) : Layout :=
  match i.kind with
  | .newCookie => Layout.raw i.cookie
  | .refreshDelete | .refreshPresent =>
    i.cookieLayout ++ (if i.refreshDone then [] else Layout.boolean Tag.boolean false)
  | .idSet =>
    i.cookieLayout ++
      (if i.refreshDeletes then Layout.boolean Tag.boolean true else []) ++
      Layout.header Tag.set i.uuidsLength ++
      i.uuids.flatMap fun u => Layout.octets Tag.octetString u.bytes

def encode (i : SyncInfo) : Except EncodeError Bytes :=
  (Layout.header (kindTag i.kind) i.contentLength ++ i.contentLayout).bytes
    (elementSize i.contentLength)

end SyncInfo

end LdapBer
