import LdapBer.Proofs.ControlValue.SortRequest

/-! Synchronisation messages are decoded from their syntax.

The four kinds share their parts but not the permission to end: a refresh may end before and behind
each of its parts, a set of identifiers only behind its UUIDs (`ends_refresh`, `ends_idSet`). What
is decoded is told by `decode_iff_isSyncInfo`. -/
namespace LdapBer.SyncInfo
open Grammar (ends_cons ends_step ends_list_cons)

section
variable {frames : List (Frame State)} {offset : UInt64} {s : State} {i i' : SyncInfo}
  {b : Bool} {c' : Cursor State SyncInfo} {kind : SyncKind} {cookie : Option Bytes} {t : Tree}
  {ts : List Tree}

/-! ### Refreshes -/

theorem storeCookie_eq_ok_iff {e : Element State} :
    storeCookie e (.refresh kind none true) = .ok (i', b) ↔
      ∃ cookie, IsOctets cookie e.value ∧ i' = .refresh kind cookie true ∧ b = true := by
  simp [storeCookie, refresh, IsOctets, eq_comm]

theorem storeRefreshDone_eq_ok_iff {e : Element State} :
    storeRefreshDone e (.refresh kind cookie true) = .ok (i', b) ↔
      ∃ done, IsFlag done e.value ∧ i' = .refresh kind cookie done ∧ b = true := by
  rw [storeRefreshDone]
  simp only [← readBoolean_eq_ok_iff]
  cases readBoolean e.value <;> simp [refresh, eq_comm]

theorem ends_refreshCookie (hts : Tree.AllWellFormed ts) :
    grammar.Ends frames offset ⟨.refreshCookie, .refresh kind cookie true, true⟩ ts i ↔
      ∃ done, AreOptionalFlag 0x01 true done ts ∧ i = .refresh kind cookie done := by
  have hrow : row .refreshCookie =
      (0x01, ⟨.refreshDone, some storeRefreshDone⟩) :: row .refreshDone := rfl
  refine (hasRows.ends_optional hrow rfl (refresh kind cookie)
    (fun _ _ _ => storeRefreshDone_eq_ok_iff) (fun _ _ _ _ => hasRows.ends_of_row_nil rfl)
    hts).trans ⟨fun h => ?_, fun h => ?_⟩
  · obtain ⟨done, us, _, rfl, hdone, rfl, rfl⟩ := h
    exact ⟨done, by rwa [List.append_nil], rfl⟩
  · obtain ⟨done, hdone, rfl⟩ := h
    exact ⟨done, ts, [], (List.append_nil ts).symm, hdone, rfl, rfl⟩

theorem ends_refresh (hts : Tree.AllWellFormed ts) :
    grammar.Ends frames offset ⟨.refresh, .refresh kind none true, true⟩ ts i ↔
      ∃ cookie done us vs, ts = us ++ vs ∧ AreOptionalOctets 0x04 cookie us ∧
        AreOptionalFlag 0x01 true done vs ∧ i = .refresh kind cookie done := by
  have hrow : row .refresh =
      (0x04, ⟨.refreshCookie, some storeCookie⟩) :: row .refreshCookie := rfl
  refine (hasRows.ends_optional hrow rfl (refresh kind · true)
    (fun _ _ _ => storeCookie_eq_ok_iff) (fun _ _ _ => ends_refreshCookie)
    hts).trans ⟨fun h => ?_, fun h => ?_⟩
  · obtain ⟨cookie, us, vs, rfl, hcookie, done, hdone, rfl⟩ := h
    exact ⟨cookie, done, us, vs, rfl, hcookie, hdone, rfl⟩
  · obtain ⟨cookie, done, us, vs, rfl, hcookie, hdone, rfl⟩ := h
    exact ⟨cookie, us, vs, rfl, hcookie, done, hdone, rfl⟩

/-! ### Sets of identifiers -/

theorem walk_uuid (hrow : row s = [(0x04, ⟨.uuid, some addUuid⟩)]) (ht : t.WellFormed) :
    grammar.walk frames offset ⟨s, i, b⟩ t = .ok c' ↔
      ∃ u, IsUuid u t ∧ c' = ⟨.uuid, {i with uuids := i.uuids ++ [u]}, true⟩ := by
  rw [hasRows.walk_leaf hrow rfl ht]
  refine ⟨fun h => ?_, fun h => ?_⟩
  · obtain ⟨field, value, rfl, _, _, hact, rfl⟩ := h
    by_cases hsize : value.length = 16
    · simp only [addUuid, Tree.element, hsize, dite_true] at hact
      cases hact
      exact ⟨⟨value, hsize⟩, .mk field, rfl⟩
    · simp [addUuid, Tree.element, hsize] at hact
  · obtain ⟨u, ⟨field⟩, rfl⟩ := h
    exact ⟨field, u.bytes, rfl, _, _, by simp [addUuid, Tree.element, u.length_bytes], rfl⟩

theorem foldl_addUuid (uuids : List Uuid) (i : SyncInfo) :
    uuids.foldl (fun i u => {i with uuids := i.uuids ++ [u]}) i =
      {i with uuids := i.uuids ++ uuids} := by
  induction uuids generalizing i with
  | nil => simp
  | cons u uuids ih => simp [ih]

theorem ends_uuids (hts : Tree.AllWellFormed ts) :
    grammar.Ends frames offset ⟨.uuids, i, true⟩ ts i' ↔
      ∃ uuids, List.Forall₂ IsUuid uuids ts ∧ i' = {i with uuids := i.uuids ++ uuids} := by
  rw [ends_list_cons (s := .uuids) (fun _ _ _ _ _ => walk_uuid rfl)
    (fun _ _ _ _ _ => walk_uuid rfl) hts]
  simp only [foldl_addUuid, or_true, true_and]

/-- The UUIDs are the end of a set, which is not allowed to end before them. -/
theorem ends_refreshDeletes {deletes : Bool} (hts : Tree.AllWellFormed ts) :
    grammar.Ends frames offset ⟨.refreshDeletes, .idSet cookie deletes [], false⟩ ts i ↔
      ∃ field vs uuids, ts = [.node 0x31 field vs] ∧ List.Forall₂ IsUuid uuids vs ∧
        i = .idSet cookie deletes uuids := by
  have hrow : row .refreshDeletes = [(0x31, ⟨.uuids, some beginUuids⟩)] := rfl
  refine ⟨fun h => ?_, fun h => ?_⟩
  · obtain ⟨t, us, rfl, _, hwalk, h⟩ := ends_step.mp h
    obtain ⟨field, vs, rfl, hvs, _, hinside, rfl⟩ :=
      (hasRows.walk_node hrow rfl hts.1 (fun _ => rfl) rfl).mp hwalk
    obtain ⟨uuids, huuids, rfl⟩ := (ends_uuids hvs).mp hinside
    obtain ⟨rfl, rfl⟩ := (hasRows.ends_of_row_nil rfl).mp h
    exact ⟨field, vs, uuids, rfl, huuids, rfl⟩
  · obtain ⟨field, vs, uuids, rfl, huuids, rfl⟩ := h
    have hvs := hts.1.2.2.2
    refine ends_cons.mpr ⟨_, (hasRows.walk_node hrow rfl hts.1 (fun _ => rfl) rfl).mpr
      ⟨field, vs, rfl, hvs, _, (ends_uuids hvs).mpr ⟨uuids, huuids, rfl⟩, rfl⟩, ?_⟩
    exact (hasRows.ends_of_row_nil rfl).mpr ⟨rfl, rfl⟩

theorem storeRefreshDeletes_eq_ok_iff {e : Element State} :
    storeRefreshDeletes e (.idSet cookie false []) = .ok (i', b) ↔
      ∃ deletes, IsFlag deletes e.value ∧ i' = .idSet cookie deletes [] ∧ b = false := by
  rw [storeRefreshDeletes]
  simp only [← readBoolean_eq_ok_iff]
  cases readBoolean e.value <;> simp [idSet, eq_comm]

theorem storeSetCookie_eq_ok_iff {e : Element State} :
    storeSetCookie e (.idSet none false []) = .ok (i', b) ↔
      ∃ cookie, IsOctets cookie e.value ∧ i' = .idSet cookie false [] ∧ b = false := by
  simp [storeSetCookie, idSet, IsOctets, eq_comm]

theorem ends_idSetCookie (hts : Tree.AllWellFormed ts) :
    grammar.Ends frames offset ⟨.idSetCookie, .idSet cookie false [], false⟩ ts i ↔
      ∃ deletes us vs, ts = us ++ vs ∧ AreOptionalFlag 0x01 false deletes us ∧
        ∃ field ws uuids, vs = [.node 0x31 field ws] ∧ List.Forall₂ IsUuid uuids ws ∧
          i = .idSet cookie deletes uuids := by
  have hrow : row .idSetCookie =
      (0x01, ⟨.refreshDeletes, some storeRefreshDeletes⟩) :: row .refreshDeletes := rfl
  exact hasRows.ends_optional hrow rfl (idSet cookie · [])
    (fun _ _ _ => storeRefreshDeletes_eq_ok_iff) (fun _ _ _ => ends_refreshDeletes) hts

theorem ends_idSet (hts : Tree.AllWellFormed ts) :
    grammar.Ends frames offset ⟨.idSet, .idSet none false [], false⟩ ts i ↔
      ∃ cookie us vs, ts = us ++ vs ∧ AreOptionalOctets 0x04 cookie us ∧
        ∃ deletes us' vs', vs = us' ++ vs' ∧ AreOptionalFlag 0x01 false deletes us' ∧
          ∃ field ws uuids, vs' = [.node 0x31 field ws] ∧ List.Forall₂ IsUuid uuids ws ∧
            i = .idSet cookie deletes uuids := by
  have hrow : row .idSet = (0x04, ⟨.idSetCookie, some storeSetCookie⟩) :: row .idSetCookie := rfl
  exact hasRows.ends_optional hrow rfl (idSet · false []) (fun _ _ _ => storeSetCookie_eq_ok_iff)
    (fun _ _ _ => ends_idSetCookie) hts

/-! ### Messages -/

theorem row_start :
    row .start =
      [(0x80, ⟨.newCookie, some storeNewCookie⟩),
        (0xA1, ⟨.refresh, some (beginRefresh .refreshDelete)⟩),
        (0xA2, ⟨.refresh, some (beginRefresh .refreshPresent)⟩),
        (0xA3, ⟨.idSet, some beginIdSet⟩)] := rfl

theorem RefreshTag.isConstructed {tag : UInt8} (h : RefreshTag kind tag) :
    Tag.isConstructed tag = true := by
  cases h <;> rfl

theorem RefreshTag.mem_row {tag : UInt8} (h : RefreshTag kind tag) :
    (tag, ⟨.refresh, some (beginRefresh kind)⟩) ∈ row .start := by
  rw [row_start]
  cases h <;> simp

theorem read_newCookie {field value : Bytes} :
    grammar.read 0 (.leaf 0x80 field value) = .ok i ↔
      i = {kind := .newCookie, hasCookie := true, cookie := value} := by
  have hmem : (0x80, ⟨.newCookie, some storeNewCookie⟩) ∈ row .start := .head _
  rw [hasRows.read_leaf hmem]
  simp [storeNewCookie, Tree.element, grammar, eq_comm]

theorem read_refresh {tag : UInt8} (htag : RefreshTag kind tag) {field : Bytes}
    (hts : Tree.AllWellFormed ts) :
    grammar.read 0 (.node tag field ts) = .ok i ↔
      ∃ cookie done us vs, ts = us ++ vs ∧ AreOptionalOctets 0x04 cookie us ∧
        AreOptionalFlag 0x01 true done vs ∧ i = .refresh kind cookie done :=
  (hasRows.read_node htag.mem_row fun _ => rfl).trans (ends_refresh hts)

theorem isSyncInfo_of_refresh {tag : UInt8} (htag : RefreshTag kind tag) (ht : t.WellFormed)
    (heq : t.tag = tag) (h : grammar.read 0 t = .ok i) : IsSyncInfo i t := by
  obtain ⟨field, ts, rfl, hts⟩ := Tree.node_of_tag ht heq htag.isConstructed
  obtain ⟨cookie, done, us, vs, rfl, hcookie, hdone, rfl⟩ := (read_refresh htag hts).mp h
  exact .refresh htag field hcookie hdone

theorem read_idSet {field : Bytes} (hts : Tree.AllWellFormed ts) :
    grammar.read 0 (.node 0xA3 field ts) = .ok i ↔
      ∃ cookie us vs, ts = us ++ vs ∧ AreOptionalOctets 0x04 cookie us ∧
        ∃ deletes us' vs', vs = us' ++ vs' ∧ AreOptionalFlag 0x01 false deletes us' ∧
          ∃ setField ws uuids, vs' = [.node 0x31 setField ws] ∧
            List.Forall₂ IsUuid uuids ws ∧ i = .idSet cookie deletes uuids := by
  have hmem : (0xA3, ⟨.idSet, some beginIdSet⟩) ∈ row .start := by simp [row_start]
  exact (hasRows.read_node hmem fun _ => rfl).trans (ends_idSet hts)

theorem read_iff_isSyncInfo (ht : t.WellFormed) : grammar.read 0 t = .ok i ↔ IsSyncInfo i t := by
  refine ⟨fun h => ?_, fun h => ?_⟩
  · obtain ⟨tr, hmem⟩ := hasRows.mem_row_of_read h
    simp only [grammar, row_start, List.mem_cons, Prod.mk.injEq, List.not_mem_nil, or_false] at hmem
    rcases hmem with ⟨htag, -⟩ | ⟨htag, -⟩ | ⟨htag, -⟩ | ⟨htag, -⟩
    · obtain ⟨field, value, rfl⟩ := Tree.leaf_of_tag ht htag rfl
      obtain rfl := read_newCookie.mp h
      exact .newCookie field value
    · exact isSyncInfo_of_refresh .refreshDelete ht htag h
    · exact isSyncInfo_of_refresh .refreshPresent ht htag h
    · obtain ⟨field, ts, rfl, hts⟩ := Tree.node_of_tag ht htag rfl
      obtain ⟨cookie, us, _, rfl, hcookie, deletes, vs, _, rfl, hdeletes, setField, ws, uuids, rfl,
        huuids, rfl⟩ := (read_idSet hts).mp h
      exact .idSet field setField hcookie hdeletes huuids
  · cases h with
    | newCookie field cookie => exact read_newCookie.mpr rfl
    | refresh htag field hcookie hdone =>
      exact (read_refresh htag ht.2.2.2).mpr ⟨_, _, _, _, rfl, hcookie, hdone, rfl⟩
    | idSet field setField hcookie hdeletes huuids =>
      have hts := ht.2.2.2
      exact (read_idSet hts).mpr ⟨_, _, _, rfl, hcookie, _, _, _, rfl, hdeletes, setField, _, _,
        rfl, huuids, rfl⟩

end

/-- **Decoding accepts the syntax of synchronisation messages.** A byte string is decoded to a
message exactly if it is one tree that stands for the message. -/
theorem decode_iff_isSyncInfo {b : Bytes} {i : SyncInfo} :
    decode b = .ok i ↔ ∃ t : Tree, t.WellFormed ∧ t.bytes = b ∧ IsSyncInfo i t :=
  Grammar.decode_iff_of_read read_iff_isSyncInfo

end LdapBer.SyncInfo
