import LdapBer.Proofs.Ber.Room
import LdapBer.Proofs.ControlValue.Syntax

/-! What is written for control values.

A sort request and the information about a synchronisation each have one tree in which all lengths
are the shortest and no part has its default value. The lengths that are fixed before anything is
written are those of this tree, so it is what is written (`SortRequest.encode_eq_ok_iff`,
`SyncInfo.encode_eq_ok_iff`), as long as its content is short enough for a length field
(`SortRequest.wellFormed_tree`, `SyncInfo.wellFormed_tree`). -/
namespace LdapBer

/-! ### Optional parts -/

namespace Tree

def octetParts (tag : UInt8) : Option Bytes → List Tree
  | some octets => [.primitive tag octets]
  | none => []

/-- A flag is left out if it is what it is by default. -/
def flagParts (tag : UInt8) (default b : Bool) : List Tree :=
  if b = default then [] else [.primitive tag [if b then 0xFF else 0x00]]

section
variable {tag : UInt8}

theorem sizeSuffices_octetParts (hnumber : Tag.number tag ≠ 31)
    (htag : Tag.isConstructed tag = false) (octets : Option Bytes) :
    SizeSuffices (octetParts tag octets) := by
  cases octets with
  | none => exact sizeSuffices_nil
  | some octets => exact sizeSuffices_primitive hnumber htag octets

theorem sizeSuffices_flagParts (hnumber : Tag.number tag ≠ 31)
    (htag : Tag.isConstructed tag = false) (default b : Bool) :
    SizeSuffices (flagParts tag default b) := by
  rw [flagParts]
  split
  · exact sizeSuffices_nil
  · exact sizeSuffices_primitive hnumber htag _

/-- Octets that a flag tells to be there. -/
theorem length_octetParts (b : Bool) (octets : Bytes) :
    (bytesAll (octetParts tag (if b then some octets else none))).length =
      if b then elementSize octets.length else 0 := by
  cases b with
  | false => rfl
  | true =>
    rw [if_pos rfl, if_pos rfl, octetParts, bytesAll, bytesAll, List.append_nil,
      length_bytes_primitive]

theorem length_flagParts (default b : Bool) :
    (bytesAll (flagParts tag default b)).length = if b = default then 0 else 3 := by
  rw [flagParts]
  split
  · rfl
  · rw [bytesAll, bytesAll, List.append_nil, length_bytes_primitive]
    rfl

end

end Tree

namespace Layout
variable {tag : UInt8}

/-- Octets that a flag tells to be there. -/
theorem writes_octetParts (hnumber : Tag.number tag ≠ 31) (htag : Tag.isConstructed tag = false)
    (b : Bool) (value : Bytes) :
    Writes (if b then octets tag value else [])
      (Tree.octetParts tag (if b then some value else none)) := by
  cases b with
  | false => exact writes_nil
  | true => exact writes_octets hnumber htag value

/-- A flag that is false by default. -/
theorem writes_flagParts_false (hnumber : Tag.number tag ≠ 31)
    (htag : Tag.isConstructed tag = false) (b : Bool) :
    Writes (if b then boolean tag true else []) (Tree.flagParts tag false b) := by
  cases b with
  | false => exact writes_nil
  | true => exact writes_boolean hnumber htag true

/-- A flag that is true by default. -/
theorem writes_flagParts_true (hnumber : Tag.number tag ≠ 31)
    (htag : Tag.isConstructed tag = false) (b : Bool) :
    Writes (if b then [] else boolean tag false) (Tree.flagParts tag true b) := by
  cases b with
  | false => exact writes_boolean hnumber htag false
  | true => exact writes_nil

end Layout

/-! ### Sort requests -/

/-- An ordering rule without its flag is not written. -/
def SortKey.writtenRule (k : SortKey) : Option Bytes :=
  if k.hasOrderingRule then some k.orderingRule else none

namespace SortRequest
open LdapBer.Tree (octetParts flagParts)

def keyParts (k : SortKey) : List Tree :=
  .primitive 0x04 k.attributeType ::
    (octetParts 0x80 k.writtenRule ++ flagParts 0x81 false k.reverseOrder)

def keyTree (k : SortKey) : Tree :=
  .constructed 0x30 (keyParts k)

def tree (r : SortRequest) : Tree :=
  .constructed 0x30 (r.keys.map keyTree)

theorem sizeSuffices_keyParts (k : SortKey) : Tree.SizeSuffices (keyParts k) := by
  have htype : Tree.SizeSuffices [.primitive 0x04 k.attributeType] :=
    Tree.sizeSuffices_primitive (by decide) rfl k.attributeType
  have hrule : Tree.SizeSuffices (octetParts 0x80 k.writtenRule) :=
    Tree.sizeSuffices_octetParts (by decide) rfl k.writtenRule
  have hreverse : Tree.SizeSuffices (flagParts 0x81 false k.reverseOrder) :=
    Tree.sizeSuffices_flagParts (by decide) rfl false k.reverseOrder
  exact htype.append (hrule.append hreverse)

theorem wellFormed_tree {r : SortRequest} (h : r.tree.content.length ≤ 0xFFFFFFFF) :
    r.tree.WellFormed := by
  have hkeys : Tree.SizeSuffices (r.keys.map keyTree) :=
    Tree.sizeSuffices_map (fun k => (sizeSuffices_keyParts k).constructed (by decide) rfl) r.keys
  exact hkeys.wellFormed (by decide) rfl h

theorem keyLength_eq (k : SortKey) : keyLength k = (Tree.bytesAll (keyParts k)).length := by
  rw [keyParts, Tree.bytesAll, Tree.bytesAll_append, List.length_append, List.length_append,
    Tree.length_bytes_primitive, SortKey.writtenRule, Tree.length_octetParts,
    Tree.length_flagParts, keyLength]
  cases k.reverseOrder <;> simp [Nat.add_assoc]

theorem listLength_eq (r : SortRequest) : r.listLength = r.tree.content.length := by
  rw [listLength, tree, Tree.constructed, Tree.content]
  induction r.keys with
  | nil => rfl
  | cons k keys ih =>
    rw [List.map_cons, List.map_cons, total_cons, Tree.bytesAll, List.length_append, ih, keyTree,
      Tree.length_bytes_constructed, keyLength_eq]

theorem writes_key (k : SortKey) : Layout.Writes (keyLayout k) [keyTree k] := by
  have htype : Layout.Writes (Layout.octets Tag.octetString k.attributeType)
      [.primitive 0x04 k.attributeType] :=
    Layout.writes_octets (by decide) rfl k.attributeType
  have hrule : Layout.Writes
      (if k.hasOrderingRule then Layout.octets orderingRuleTag k.orderingRule else [])
      (octetParts 0x80 k.writtenRule) :=
    Layout.writes_octetParts (by decide) rfl k.hasOrderingRule k.orderingRule
  have hreverse : Layout.Writes
      (if k.reverseOrder then Layout.boolean reverseOrderTag true else [])
      (flagParts 0x81 false k.reverseOrder) :=
    Layout.writes_flagParts_false (by decide) rfl k.reverseOrder
  have hnode : Layout.Writes (Layout.header Tag.sequence (keyLength k) ++ _) [keyTree k] :=
    (htype.append (hrule.append hreverse)).node (by decide) rfl fun _ => keyLength_eq k
  simp only [keyLayout, List.append_assoc] at hnode ⊢
  exact hnode

theorem writes_tree (r : SortRequest) :
    Layout.Writes (Layout.header Tag.sequence r.listLength ++ r.keys.flatMap keyLayout)
      [r.tree] :=
  (Layout.writes_flatMap fun k _ => writes_key k).node (by decide) rfl fun _ => r.listLength_eq

theorem elementSize_listLength (r : SortRequest) :
    elementSize r.listLength = r.tree.bytes.length := by
  rw [listLength_eq, tree, Tree.length_bytes_constructed]
  rfl

/-- The encoder writes the tree of a request that has a key. -/
theorem encode_eq_ok_iff {r : SortRequest} {b : Bytes} :
    encode r = .ok b ↔ r.keys ≠ [] ∧ r.tree.WellFormed ∧ r.tree.bytes = b := by
  rw [encode]
  by_cases hkeys : r.keys = []
  · simp [hkeys]
  · rw [if_neg (mt List.isEmpty_iff.mp hkeys),
      r.writes_tree.bytes_eq_ok_iff fun _ => r.elementSize_listLength]
    exact (and_iff_right hkeys).symm

end SortRequest

/-! ### Synchronisation -/

namespace SyncInfo
open LdapBer.Tree (octetParts flagParts)

/-- A cookie without its flag is not written, except as a new cookie. -/
def writtenCookie (i : SyncInfo) : Option Bytes :=
  if i.hasCookie then some i.cookie else none

def uuidTree (u : Uuid) : Tree :=
  .primitive 0x04 u.bytes

def refreshParts (i : SyncInfo) : List Tree :=
  octetParts 0x04 i.writtenCookie ++ flagParts 0x01 true i.refreshDone

def idSetParts (i : SyncInfo) : List Tree :=
  octetParts 0x04 i.writtenCookie ++
    (flagParts 0x01 false i.refreshDeletes ++ [.constructed 0x31 (i.uuids.map uuidTree)])

def tree (i : SyncInfo) : Tree :=
  match i.kind with
  | .newCookie => .primitive 0x80 i.cookie
  | .refreshDelete => .constructed 0xA1 i.refreshParts
  | .refreshPresent => .constructed 0xA2 i.refreshParts
  | .idSet => .constructed 0xA3 i.idSetParts

section
variable {i : SyncInfo}

theorem sizeSuffices_refreshParts : Tree.SizeSuffices i.refreshParts :=
  (Tree.sizeSuffices_octetParts (by decide) rfl i.writtenCookie).append
    (Tree.sizeSuffices_flagParts (by decide) rfl true i.refreshDone)

theorem sizeSuffices_idSetParts : Tree.SizeSuffices i.idSetParts := by
  have hcookie : Tree.SizeSuffices (octetParts 0x04 i.writtenCookie) :=
    Tree.sizeSuffices_octetParts (by decide) rfl i.writtenCookie
  have hdeletes : Tree.SizeSuffices (flagParts 0x01 false i.refreshDeletes) :=
    Tree.sizeSuffices_flagParts (by decide) rfl false i.refreshDeletes
  have huuid (u : Uuid) : Tree.SizeSuffices [uuidTree u] :=
    Tree.sizeSuffices_primitive (by decide) rfl u.bytes
  have huuids := Tree.sizeSuffices_map huuid i.uuids
  exact hcookie.append (hdeletes.append (huuids.constructed (by decide) rfl))

theorem wellFormed_tree (h : i.tree.content.length ≤ 0xFFFFFFFF) : i.tree.WellFormed := by
  rw [tree] at h ⊢
  cases hkind : i.kind with
  | newCookie =>
    rw [hkind] at h
    exact (Tree.wellFormed_primitive_iff (by decide) rfl).mpr (Nat.lt_succ_of_le h)
  | refreshDelete | refreshPresent =>
    rw [hkind] at h
    exact sizeSuffices_refreshParts.wellFormed (by decide) rfl h
  | idSet =>
    rw [hkind] at h
    exact sizeSuffices_idSetParts.wellFormed (by decide) rfl h

theorem length_cookieParts (i : SyncInfo) :
    (Tree.bytesAll (octetParts 0x04 i.writtenCookie)).length = i.cookieSize :=
  Tree.length_octetParts i.hasCookie i.cookie

/-- The length of the UUIDs is a product, since all are equally long. -/
theorem uuidsLength_eq (i : SyncInfo) :
    i.uuidsLength = (Tree.bytesAll (i.uuids.map uuidTree)).length := by
  rw [uuidsLength]
  induction i.uuids with
  | nil => exact Nat.zero_mul _
  | cons u uuids ih =>
    rw [List.length_cons, Nat.succ_mul, ih, List.map_cons, Tree.bytesAll, List.length_append,
      uuidTree, Tree.length_bytes_primitive, u.length_bytes, Nat.add_comm]

theorem contentLength_eq (i : SyncInfo) : i.contentLength = i.tree.content.length := by
  have hcookie := i.length_cookieParts
  rw [contentLength, tree]
  cases i.kind with
  | newCookie => rfl
  | refreshDelete | refreshPresent =>
    simp only [Tree.constructed, Tree.content, refreshParts, Tree.bytesAll_append,
      List.length_append, hcookie, Tree.length_flagParts]
  | idSet =>
    simp only [Tree.constructed, Tree.content, idSetParts, Tree.bytesAll_append,
      List.length_append, hcookie, Tree.length_flagParts, uuidsLength_eq]
    rw [Tree.bytesAll, Tree.bytesAll, List.append_nil, ← Tree.constructed,
      Tree.length_bytes_constructed]
    cases i.refreshDeletes <;> simp [Nat.add_assoc]

theorem elementSize_contentLength (i : SyncInfo) :
    elementSize i.contentLength = i.tree.bytes.length := by
  rw [contentLength_eq, tree]
  cases i.kind with
  | newCookie => exact (Tree.length_bytes_primitive _ _).symm
  | refreshDelete | refreshPresent | idSet => exact (Tree.length_bytes_constructed _ _).symm

theorem writes_cookie (i : SyncInfo) :
    Layout.Writes i.cookieLayout (octetParts 0x04 i.writtenCookie) :=
  Layout.writes_octetParts (by decide) rfl i.hasCookie i.cookie

theorem writes_refresh (i : SyncInfo) :
    Layout.Writes (i.cookieLayout ++
      (if i.refreshDone then [] else Layout.boolean Tag.boolean false)) i.refreshParts :=
  i.writes_cookie.append (Layout.writes_flagParts_true (by decide) rfl i.refreshDone)

theorem writes_idSet (i : SyncInfo) :
    Layout.Writes (i.cookieLayout ++
      (if i.refreshDeletes then Layout.boolean Tag.boolean true else []) ++
      Layout.header Tag.set i.uuidsLength ++
      i.uuids.flatMap fun u => Layout.octets Tag.octetString u.bytes) i.idSetParts := by
  have hdeletes : Layout.Writes
      (if i.refreshDeletes then Layout.boolean Tag.boolean true else [])
      (flagParts 0x01 false i.refreshDeletes) :=
    Layout.writes_flagParts_false (by decide) rfl i.refreshDeletes
  have huuids : Layout.Writes
      (i.uuids.flatMap fun u => Layout.octets Tag.octetString u.bytes) (i.uuids.map uuidTree) :=
    Layout.writes_flatMap fun u _ => Layout.writes_octets (by decide) rfl u.bytes
  have hset : Layout.Writes (Layout.header Tag.set i.uuidsLength ++ _)
      [.constructed 0x31 (i.uuids.map uuidTree)] :=
    huuids.node (by decide) rfl fun _ => i.uuidsLength_eq
  have hparts := i.writes_cookie.append (hdeletes.append hset)
  simp only [List.append_assoc] at hparts ⊢
  exact hparts

theorem writes_tree (i : SyncInfo) :
    Layout.Writes (Layout.header (kindTag i.kind) i.contentLength ++ i.contentLayout) [i.tree] := by
  have hlength := i.contentLength_eq
  rw [tree] at hlength ⊢
  rw [contentLayout]
  cases hkind : i.kind with
  | newCookie =>
    rw [hkind] at hlength
    rw [hlength]
    exact Layout.writes_octets (by decide) rfl i.cookie
  | refreshDelete | refreshPresent =>
    rw [hkind] at hlength
    exact i.writes_refresh.node (by decide) rfl fun _ => hlength
  | idSet =>
    rw [hkind] at hlength
    exact i.writes_idSet.node (by decide) rfl fun _ => hlength

/-- The encoder writes the tree of a message. -/
theorem encode_eq_ok_iff {b : Bytes} :
    encode i = .ok b ↔ i.tree.WellFormed ∧ i.tree.bytes = b :=
  i.writes_tree.bytes_eq_ok_iff fun _ => i.elementSize_contentLength

end

end SyncInfo

end LdapBer
