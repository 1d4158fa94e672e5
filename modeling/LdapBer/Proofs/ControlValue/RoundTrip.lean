import LdapBer.Proofs.ControlValue.Encoding
import LdapBer.Proofs.ControlValue.SyncInfo

/-! Control values on the wire and back.

A value whose content is short enough for a length field is written, into exactly the room that was
asked for. Information about a synchronisation always comes back, without what its kind does not
write (`SyncInfo.normal_roundTrip`). A sort request comes back unless an attribute type is empty,
which is written but not read again (`SortRequest.keys_roundTrip`). -/
namespace LdapBer

/-! ### Optional parts -/

theorem areOptional_octetParts (tag : UInt8) (octets : Option Bytes) :
    AreOptionalOctets tag octets (Tree.octetParts tag octets) := by
  cases octets with
  | none => exact .absent
  | some octets => exact .present _ rfl

theorem areOptional_flagParts (tag : UInt8) (default b : Bool) :
    AreOptionalFlag tag default b (Tree.flagParts tag default b) := by
  rw [Tree.flagParts]
  by_cases hb : b = default
  · rw [if_pos hb, hb]
    exact .absent
  · rw [if_neg hb]
    refine .present _ ⟨_, rfl, ?_⟩
    cases b <;> rfl

/-! ### Synchronisation -/

namespace SyncInfo

/-- What is written of a message: of the parts of its kind, a cookie without its flag is not. -/
def normal (i : SyncInfo) : SyncInfo :=
  match i.kind with
  | .newCookie => {kind := .newCookie, hasCookie := true, cookie := i.cookie}
  | .refreshDelete => refresh .refreshDelete i.writtenCookie i.refreshDone
  | .refreshPresent => refresh .refreshPresent i.writtenCookie i.refreshDone
  | .idSet => idSet i.writtenCookie i.refreshDeletes i.uuids

theorem decode_bytes_iff {t : Tree} (ht : t.WellFormed) {i : SyncInfo} :
    decode t.bytes = .ok i ↔ IsSyncInfo i t := by
  rw [decode, decode_bytes ht]
  exact read_iff_isSyncInfo ht

theorem forall₂_isUuid_tree (uuids : List Uuid) :
    List.Forall₂ IsUuid uuids (uuids.map uuidTree) := by
  rw [List.forall₂_map_right_iff, List.forall₂_same]
  exact fun u _ => .mk _

theorem isSyncInfo_tree (i : SyncInfo) : IsSyncInfo i.normal i.tree := by
  have hcookie := areOptional_octetParts 0x04 i.writtenCookie
  rw [normal, tree]
  cases i.kind with
  | newCookie => exact .newCookie _ i.cookie
  | refreshDelete =>
    exact .refresh .refreshDelete _ hcookie (areOptional_flagParts 0x01 true i.refreshDone)
  | refreshPresent =>
    exact .refresh .refreshPresent _ hcookie (areOptional_flagParts 0x01 true i.refreshDone)
  | idSet =>
    exact .idSet _ _ hcookie (areOptional_flagParts 0x01 false i.refreshDeletes)
      (forall₂_isUuid_tree i.uuids)

/-- **Every message comes back.** A message whose content is short enough for a length field is
written, into exactly the room that was asked for, and decoded again to what was written of it. -/
theorem normal_roundTrip {i : SyncInfo} (h : i.tree.content.length ≤ 0xFFFFFFFF) :
    ∃ b, encode i = .ok b ∧ b.length = elementSize i.contentLength ∧ decode b = .ok i.normal := by
  have ht := wellFormed_tree h
  refine ⟨i.tree.bytes, encode_eq_ok_iff.mpr ⟨ht, rfl⟩, i.elementSize_contentLength.symm, ?_⟩
  exact (decode_bytes_iff ht).mpr i.isSyncInfo_tree

/-- A set of identifiers whose cookie lacks its flag and that says that a refresh is not done. -/
theorem normal_roundTrip_idSet :
    let u : Uuid := ⟨List.replicate 16 0x2A, rfl⟩
    let i : SyncInfo := ⟨.idSet, false, [0x61], false, true, [u, u]⟩
    i.tree.content.length ≤ 0xFFFFFFFF ∧
      ∃ b, encode i = .ok b ∧ b.length = 43 ∧
        decode b = .ok ⟨.idSet, false, [], true, true, [u, u]⟩ := by
  intro u i
  have h : i.tree.content.length ≤ 0xFFFFFFFF := by decide
  exact ⟨h, normal_roundTrip h⟩

end SyncInfo

/-! ### Sort requests -/

/-- What is written of a key: a rule without its flag is not. -/
def SortKey.normal (k : SortKey) : SortKey :=
  .ofParts k.attributeType k.writtenRule k.reverseOrder

theorem SortKey.normal_eq (k : SortKey) :
    k.normal = {k with orderingRule := if k.hasOrderingRule then k.orderingRule else []} := by
  rw [normal, writtenRule, ofParts]
  cases hrule : k.hasOrderingRule <;> simp

namespace SortRequest
variable {k k' : SortKey} {r r' : SortRequest}

/-- What is written of a request. -/
def normal (r : SortRequest) : SortRequest :=
  ⟨r.keys.map SortKey.normal⟩

theorem decode_bytes_iff {t : Tree} (ht : t.WellFormed) :
    decode t.bytes = .ok r ↔ IsSortRequest r t := by
  rw [decode, decode_bytes ht]
  exact read_iff_isSortRequest ht

theorem isKey_tree (h : k.attributeType ≠ []) : IsKey k.normal (keyTree k) :=
  .mk _ (.mk _ h (areOptional_octetParts 0x80 k.writtenRule)
    (areOptional_flagParts 0x81 false k.reverseOrder))

theorem isSortRequest_tree (hne : r.keys ≠ []) (h : ∀ k ∈ r.keys, k.attributeType ≠ []) :
    IsSortRequest r.normal r.tree := by
  refine .mk _ (mt List.map_eq_nil_iff.mp hne) ?_
  rw [normal, List.forall₂_map_left_iff, List.forall₂_map_right_iff, List.forall₂_same]
  exact fun k hk => isKey_tree (h k hk)

/-- An empty attribute type is not read. -/
theorem ne_nil_of_isKey (h : IsKey k' (keyTree k)) : k.attributeType ≠ [] := by
  obtain ⟨_, hparts⟩ := h
  generalize hts : keyParts k = ts at hparts
  obtain ⟨field, hne, -, -⟩ := hparts
  have hhead := congrArg Tree.content (List.head_eq_of_cons_eq hts)
  have hhead : k.attributeType = _ := hhead
  rwa [hhead]

theorem ne_nil_of_isSortRequest (h : IsSortRequest r' r.tree) :
    ∀ k ∈ r.keys, k.attributeType ≠ [] := by
  obtain ⟨_, -, hkeys⟩ := h
  generalize r.keys = keys at hkeys ⊢
  generalize r'.keys = read at hkeys
  induction keys generalizing read with
  | nil => exact nofun
  | cons k keys ih =>
    cases hkeys with
    | cons hk hrest => exact List.forall_mem_cons.mpr ⟨ne_nil_of_isKey hk, ih _ hrest⟩

/-- What was written of a request is decoded to nothing else. -/
theorem decode_tree_iff (ht : r.tree.WellFormed) (hne : r.keys ≠ []) :
    decode r.tree.bytes = .ok r' ↔ (∀ k ∈ r.keys, k.attributeType ≠ []) ∧ r' = r.normal := by
  have hread (h : ∀ k ∈ r.keys, k.attributeType ≠ []) : decode r.tree.bytes = .ok r.normal :=
    (decode_bytes_iff ht).mpr (isSortRequest_tree hne h)
  refine ⟨fun h => ?_, fun h => ?_⟩
  · have hkeys := ne_nil_of_isSortRequest ((decode_bytes_iff ht).mp h)
    rw [hread hkeys] at h
    exact ⟨hkeys, (Except.ok.inj h).symm⟩
  · obtain ⟨hkeys, rfl⟩ := h
    exact hread hkeys

/-- **Requests come back unless an attribute type is empty.** A request that has a key and whose
content is short enough for a length field is written, into exactly the room that was asked for. It
is decoded again exactly if no attribute type is empty, and then its keys are the same, in the same
order, but that an ordering rule without its flag is cleared. -/
theorem keys_roundTrip {r : SortRequest} (hne : r.keys ≠ [])
    (h : r.tree.content.length ≤ 0xFFFFFFFF) :
    ∃ b, encode r = .ok b ∧ b.length = elementSize r.listLength ∧
      ((∃ r', decode b = .ok r') ↔ ∀ k ∈ r.keys, k.attributeType ≠ []) ∧
      ∀ r', decode b = .ok r' → r'.keys = r.keys.map fun k =>
        {k with orderingRule := if k.hasOrderingRule then k.orderingRule else []} := by
  have ht := wellFormed_tree h
  refine ⟨r.tree.bytes, encode_eq_ok_iff.mpr ⟨hne, ht, rfl⟩, r.elementSize_listLength.symm, ?_,
    fun r' hr' => ?_⟩
  · simp only [decode_tree_iff ht hne, exists_and_left, exists_eq, and_true]
  · obtain ⟨-, rfl⟩ := (decode_tree_iff ht hne).mp hr'
    exact List.map_congr_left fun k _ => k.normal_eq

/-- Two keys, of which the second has a rule without its flag. -/
theorem keys_roundTrip_two :
    let r : SortRequest := ⟨[⟨[0x63, 0x6E], true, [], true⟩, ⟨[0x6F], false, [0x61], false⟩]⟩
    r.keys ≠ [] ∧ r.tree.content.length ≤ 0xFFFFFFFF ∧
      ∃ b, encode r = .ok b ∧ b.length = 18 ∧
        ((∃ r', decode b = .ok r') ↔ ∀ k ∈ r.keys, k.attributeType ≠ []) ∧
        ∀ r', decode b = .ok r' →
          r'.keys = [⟨[0x63, 0x6E], true, [], true⟩, ⟨[0x6F], false, [], false⟩] := by
  intro r
  have hne : r.keys ≠ [] := List.cons_ne_nil _ _
  have h : r.tree.content.length ≤ 0xFFFFFFFF := by decide
  exact ⟨hne, h, keys_roundTrip hne h⟩

end SortRequest

end LdapBer
