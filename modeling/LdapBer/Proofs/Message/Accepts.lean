import LdapBer.Proofs.Decode.Whole
import LdapBer.Proofs.Message.Steps

/-! The grammar of LDAP messages accepts their syntax.

For each notion of the syntax one statement says what the grammar makes of a tree, or of a row of
trees, in the state where the notion is expected: it goes on exactly if the tree is one, and then
with its value. For whole messages this is `decode_eq_ok_iff`. -/
namespace LdapBer.Message
open Grammar (ends_nil ends_cons ends_step ends_list_pos)

section
variable {frames : List (Frame State)} {offset : UInt64} {s : State} {m m' : Message} {b : Bool}
  {c' : Cursor State Message} {tag : UInt8} {t : Tree} {ts : List Tree}

/-! ### References and results -/

theorem foldl_addUrl (urls : List Bytes) (m : Message) :
    urls.foldl (fun m url => {m with urls := m.urls ++ [url]}) m =
      {m with urls := m.urls ++ urls} := by
  induction urls generalizing m with
  | nil => simp
  | cons url urls ih => simp [ih]

theorem foldl_addReferral (urls : List Bytes) (m : Message) :
    urls.foldl
        (fun m url => {m with result := {m.result with referrals := m.result.referrals ++ [url]}})
        m =
      {m with result := {m.result with referrals := m.result.referrals ++ urls}} := by
  induction urls generalizing m with
  | nil => simp
  | cons url urls ih => simp [ih]

theorem ends_reference (hts : Tree.AllWellFormed ts) :
    grammar.Ends frames offset ⟨.reference, m, false⟩ ts m' ↔
      ∃ urls, AreUrls urls ts ∧ m' = {m with urls := m.urls ++ urls} := by
  rw [ends_list_pos (fun _ _ _ _ _ => walk_url rfl fun _ => rfl)
    (fun _ _ _ _ _ => walk_url rfl fun _ => rfl) hts]
  simp only [AreUrls, foldl_addUrl, and_assoc]

theorem ends_referral (hts : Tree.AllWellFormed ts) :
    grammar.Ends frames offset ⟨.referral, m, false⟩ ts m' ↔
      ∃ urls, AreUrls urls ts ∧
        m' = {m with result := {m.result with referrals := m.result.referrals ++ urls}} := by
  rw [ends_list_pos (fun _ _ _ _ _ => walk_url rfl fun _ => rfl)
    (fun _ _ _ _ _ => walk_url rfl fun _ => rfl) hts]
  simp only [AreUrls, foldl_addReferral, and_assoc]

theorem ends_diagnostic (hm : m.result.referrals = []) (hts : Tree.AllWellFormed ts) :
    grammar.Ends frames offset ⟨.diagnostic, m, true⟩ ts m' ↔
      ∃ urls, AreReferrals urls ts ∧
        m' = {m with result := {m.result with referrals := urls}} := by
  cases ts with
  | nil =>
    rw [ends_nil]
    refine ⟨fun h => ?_, fun h => ?_⟩
    · obtain ⟨_, rfl⟩ := h
      exact ⟨[], .absent, by rw [← hm]⟩
    · obtain ⟨_, _ | _, rfl⟩ := h
      exact ⟨rfl, by rw [← hm]⟩
  | cons t ts =>
    rw [ends_cons]
    simp only [hasRows.walk_node (s := .diagnostic) (m := m) rfl rfl hts.1 (fun _ => rfl) rfl]
    refine ⟨fun h => ?_, fun h => ?_⟩
    · obtain ⟨_, ⟨field, children, rfl, hchildren, m₁, hinside, rfl⟩, hrest⟩ := h
      obtain ⟨urls, hurls, rfl⟩ := (ends_referral hchildren).mp hinside
      obtain ⟨rfl, rfl⟩ := (hasRows.ends_of_row_nil rfl).mp hrest
      exact ⟨urls, .present field hurls, by rw [hm]; rfl⟩
    · obtain ⟨urls, hurls, rfl⟩ := h
      obtain _ | ⟨field, hurls⟩ := hurls
      refine ⟨_, ⟨field, _, rfl, hts.1.2.2.2, _, (ends_referral hts.1.2.2.2).mpr ⟨urls, hurls, rfl⟩,
        rfl⟩, (hasRows.ends_of_row_nil rfl).mpr ⟨rfl, by rw [hm]; rfl⟩⟩

theorem walk_code (ht : t.WellFormed) :
    grammar.walk frames offset ⟨.result, m, b⟩ t = .ok c' ↔
      ∃ n, IsNumber 0x0A n t ∧
        c' = ⟨.resultCode, {m with result := {m.result with code := n}}, false⟩ :=
  walk_number rfl rfl (fun _ => rfl) ht

theorem walk_matchedDn (ht : t.WellFormed) :
    grammar.walk frames offset ⟨.resultCode, m, b⟩ t = .ok c' ↔
      ∃ text, IsText text t ∧
        c' = ⟨.matchedDn, {m with result := {m.result with matchedDn := text}}, false⟩ :=
  walk_text (fun text => {m with result := {m.result with matchedDn := text}}) rfl
    (fun _ => rfl) ht

theorem walk_diagnostic (ht : t.WellFormed) :
    grammar.walk frames offset ⟨.matchedDn, m, b⟩ t = .ok c' ↔
      ∃ text, IsText text t ∧
        c' = ⟨.diagnostic, {m with result := {m.result with diagnostic := text}}, true⟩ :=
  walk_text (fun text => {m with result := {m.result with diagnostic := text}}) rfl
    (fun _ => rfl) ht

theorem ends_result (hm : m.result = {}) (hts : Tree.AllWellFormed ts) :
    grammar.Ends frames offset ⟨.result, m, false⟩ ts m' ↔
      ∃ r, AreResult r ts ∧ m' = {m with result := r} := by
  have hreferrals : m.result.referrals = [] := by rw [hm]
  refine ⟨fun h => ?_, fun h => ?_⟩
  · obtain ⟨t, us, rfl, _, hwalk, h⟩ := ends_step.mp h
    obtain ⟨ht, hus⟩ := hts
    obtain ⟨code, hcode, rfl⟩ := (walk_code ht).mp hwalk
    obtain ⟨u, vs, rfl, _, hwalk, h⟩ := ends_step.mp h
    obtain ⟨hu, hvs⟩ := hus
    obtain ⟨matchedDn, hmatchedDn, rfl⟩ := (walk_matchedDn hu).mp hwalk
    obtain ⟨v, rest, rfl, _, hwalk, h⟩ := ends_step.mp h
    obtain ⟨hv, hrest⟩ := hvs
    obtain ⟨diagnostic, hdiagnostic, rfl⟩ := (walk_diagnostic hv).mp hwalk
    obtain ⟨referrals, hurls, rfl⟩ := (ends_diagnostic (by exact hreferrals) hrest).mp h
    exact ⟨⟨code, matchedDn, diagnostic, referrals⟩, ⟨hcode, hmatchedDn, hdiagnostic, hurls⟩, rfl⟩
  · obtain ⟨_, ⟨hcode, hmatchedDn, hdiagnostic, hurls⟩, rfl⟩ := h
    obtain ⟨ht, hu, hv, hrest⟩ := hts
    refine ends_cons.mpr ⟨_, (walk_code ht).mpr ⟨_, hcode, rfl⟩, ?_⟩
    refine ends_cons.mpr ⟨_, (walk_matchedDn hu).mpr ⟨_, hmatchedDn, rfl⟩, ?_⟩
    refine ends_cons.mpr ⟨_, (walk_diagnostic hv).mpr ⟨_, hdiagnostic, rfl⟩, ?_⟩
    exact (ends_diagnostic (by exact hreferrals) hrest).mpr ⟨_, hurls, rfl⟩

/-! ### Operations -/

theorem row_messageId :
    row .messageId =
      [(0x42, ⟨.opDone, some storeUnbind⟩), (0x4A, ⟨.opDone, some storeDelete⟩),
        (0x50, ⟨.opDone, some storeAbandon⟩), (0x65, ⟨.result, some (begin .searchResultDone)⟩),
        (0x6B, ⟨.result, some (begin .deleteResponse)⟩),
        (0x6F, ⟨.result, some (begin .compareResponse)⟩),
        (0x73, ⟨.reference, some (begin .searchResultReference)⟩)] := rfl

theorem ResponseTag.isConstructed {op : Operation} (h : ResponseTag op tag) :
    Tag.isConstructed tag = true := by
  cases h <;> rfl

theorem ResponseTag.mem_row {op : Operation} (h : ResponseTag op tag) :
    (tag, ⟨.result, some (begin op)⟩) ∈ row .messageId := by
  rw [row_messageId]
  cases h <;> simp

theorem walk_response {op : Operation} (hop : ResponseTag op tag) {id : Int} {field : Bytes}
    (hts : Tree.AllWellFormed ts) :
    grammar.walk frames offset ⟨.messageId, {id := id}, b⟩ (.node tag field ts) = .ok c' ↔
      ∃ r, AreResult r ts ∧ c' = ⟨.opDone, {id := id, operation := op, result := r}, true⟩ := by
  rw [hasRows.walk_node_of_mem hop.mem_row (fun _ => rfl) rfl]
  simp only [ends_result (m := {id := id, operation := op}) rfl hts]
  refine ⟨fun h => ?_, fun h => ?_⟩
  · obtain ⟨_, ⟨r, hr, rfl⟩, rfl⟩ := h
    exact ⟨r, hr, rfl⟩
  · obtain ⟨r, hr, rfl⟩ := h
    exact ⟨_, ⟨r, hr, rfl⟩, rfl⟩

theorem isOperation_of_response {op : Operation} (hop : ResponseTag op tag) {id : Int}
    (ht : t.WellFormed) (htag : t.tag = tag)
    (h : grammar.walk frames offset ⟨.messageId, {id := id}, b⟩ t = .ok c') :
    ∃ op, IsOperation op t ∧ c' = ⟨.opDone, {op with id := id}, true⟩ := by
  obtain ⟨field, ts, rfl, hts⟩ := Tree.node_of_tag ht htag hop.isConstructed
  obtain ⟨r, hr, rfl⟩ := (walk_response hop hts).mp h
  exact ⟨_, .response hop field hr, rfl⟩

theorem walk_reference {id : Int} {field : Bytes} (hts : Tree.AllWellFormed ts) :
    grammar.walk frames offset ⟨.messageId, {id := id}, b⟩ (.node 0x73 field ts) = .ok c' ↔
      ∃ urls, AreUrls urls ts ∧
        c' = ⟨.opDone, {id := id, operation := .searchResultReference, urls := urls}, true⟩ := by
  have hmem : (0x73, ⟨.reference, some (begin .searchResultReference)⟩) ∈ row .messageId := by
    simp [row_messageId]
  rw [hasRows.walk_node_of_mem hmem (fun _ => rfl) rfl]
  simp only [ends_reference hts]
  refine ⟨fun h => ?_, fun h => ?_⟩
  · obtain ⟨_, ⟨urls, hurls, rfl⟩, rfl⟩ := h
    exact ⟨urls, hurls, rfl⟩
  · obtain ⟨urls, hurls, rfl⟩ := h
    exact ⟨_, ⟨urls, hurls, rfl⟩, rfl⟩

theorem walk_unbind {id : Int} {field value : Bytes} :
    grammar.walk frames offset ⟨.messageId, {id := id}, b⟩ (.leaf 0x42 field value) = .ok c' ↔
      value = [] ∧ c' = ⟨.opDone, {id := id, operation := .unbindRequest}, true⟩ := by
  have hmem : (0x42, ⟨.opDone, some storeUnbind⟩) ∈ row .messageId := by simp [row_messageId]
  rw [hasRows.walk_leaf_of_mem hmem]
  cases value <;> simp [storeUnbind, Tree.element]

theorem walk_delete {id : Int} {field value : Bytes} :
    grammar.walk frames offset ⟨.messageId, {id := id}, b⟩ (.leaf 0x4A field value) = .ok c' ↔
      (∃ name, Dn.scan value = .ok name) ∧
        c' = ⟨.opDone, {id := id, operation := .deleteRequest, dn := value}, true⟩ := by
  have hmem : (0x4A, ⟨.opDone, some storeDelete⟩) ∈ row .messageId := by simp [row_messageId]
  rw [hasRows.walk_leaf_of_mem hmem]
  cases hscan : Dn.scan value <;> simp [storeDelete, Tree.element, hscan]

theorem walk_abandon {id : Int} {field value : Bytes} :
    grammar.walk frames offset ⟨.messageId, {id := id}, b⟩ (.leaf 0x50 field value) = .ok c' ↔
      ∃ n, readInteger 0 maxNumber value = .ok n ∧
        c' = ⟨.opDone, {id := id, operation := .abandonRequest, abandonedId := n}, true⟩ := by
  have hmem : (0x50, ⟨.opDone, some storeAbandon⟩) ∈ row .messageId := by simp [row_messageId]
  rw [hasRows.walk_leaf_of_mem hmem]
  simp only [storeAbandon, withNumber_eq_ok_iff, Tree.element]
  refine ⟨fun h => ?_, fun h => ?_⟩
  · obtain ⟨_, _, ⟨n, hn, heq⟩, rfl⟩ := h
    cases heq
    exact ⟨n, hn, rfl⟩
  · obtain ⟨n, hn, rfl⟩ := h
    exact ⟨_, _, ⟨n, hn, rfl⟩, rfl⟩

theorem walk_operation (ht : t.WellFormed) {id : Int} :
    grammar.walk frames offset ⟨.messageId, {id := id}, b⟩ t = .ok c' ↔
      ∃ op, IsOperation op t ∧ c' = ⟨.opDone, {op with id := id}, true⟩ := by
  refine ⟨fun h => ?_, fun h => ?_⟩
  · obtain ⟨tr, hmem⟩ := hasRows.mem_row_of_walk h
    simp only [row_messageId, List.mem_cons, Prod.mk.injEq, List.not_mem_nil, or_false] at hmem
    rcases hmem with ⟨htag, -⟩ | ⟨htag, -⟩ | ⟨htag, -⟩ | ⟨htag, -⟩ | ⟨htag, -⟩ | ⟨htag, -⟩ |
      ⟨htag, -⟩
    · obtain ⟨field, value, rfl⟩ := Tree.leaf_of_tag ht htag rfl
      obtain ⟨rfl, rfl⟩ := walk_unbind.mp h
      exact ⟨_, .unbindRequest field, rfl⟩
    · obtain ⟨field, value, rfl⟩ := Tree.leaf_of_tag ht htag rfl
      obtain ⟨hdn, rfl⟩ := walk_delete.mp h
      exact ⟨_, .deleteRequest field hdn, rfl⟩
    · obtain ⟨field, value, rfl⟩ := Tree.leaf_of_tag ht htag rfl
      obtain ⟨n, hn, rfl⟩ := walk_abandon.mp h
      exact ⟨_, .abandonRequest (isNumber_iff.mpr ⟨field, value, rfl, hn⟩), rfl⟩
    · exact isOperation_of_response .searchResultDone ht htag h
    · exact isOperation_of_response .deleteResponse ht htag h
    · exact isOperation_of_response .compareResponse ht htag h
    · obtain ⟨field, ts, rfl, hts⟩ := Tree.node_of_tag ht htag rfl
      obtain ⟨urls, hurls, rfl⟩ := (walk_reference hts).mp h
      exact ⟨_, .searchResultReference field hurls, rfl⟩
  · obtain ⟨op, hop, rfl⟩ := h
    cases hop with
    | unbindRequest field => exact walk_unbind.mpr ⟨rfl, rfl⟩
    | deleteRequest field hdn => exact walk_delete.mpr ⟨hdn, rfl⟩
    | abandonRequest hid =>
      obtain ⟨field, value, rfl, hn⟩ := isNumber_iff.mp hid
      exact walk_abandon.mpr ⟨_, hn, rfl⟩
    | response htag field hresult =>
      exact (walk_response htag ht.2.2.2).mpr ⟨_, hresult, rfl⟩
    | searchResultReference field hurls =>
      exact (walk_reference ht.2.2.2).mpr ⟨_, hurls, rfl⟩

/-! ### Controls -/

section
variable {cs : List Control} {c : Control} {field value : Bytes}

theorem walk_controlType (ht : t.WellFormed) :
    grammar.walk frames offset ⟨.control, {m with controls := cs ++ [c]}, b⟩ t = .ok c' ↔
      ∃ oid, IsText oid t ∧ Oid.isValid oid = true ∧
        c' = ⟨.controlType, {m with controls := cs ++ [{c with oid := oid}]}, true⟩ := by
  simp only [hasRows.walk_leaf (s := .control) rfl rfl ht, isText_iff]
  refine ⟨fun h => ?_, fun h => ?_⟩
  · obtain ⟨field, oid, rfl, _, _, hact, rfl⟩ := h
    cases hvalid : Oid.isValid oid with
    | false => simp [storeControlType, Tree.element, hvalid] at hact
    | true =>
      simp only [storeControlType, Tree.element, hvalid, if_true, modifyLast_concat] at hact
      cases hact
      exact ⟨oid, ⟨field, rfl⟩, hvalid, rfl⟩
  · obtain ⟨oid, ⟨field, rfl⟩, hvalid, rfl⟩ := h
    exact ⟨field, oid, rfl, _, _, by simp [storeControlType, Tree.element, hvalid], rfl⟩

theorem walk_criticality :
    grammar.walk frames offset ⟨.controlType, {m with controls := cs ++ [c]}, b⟩
        (.leaf 0x01 field value) = .ok c' ↔
      ∃ x, value = [x] ∧
        c' = ⟨.criticality, {m with controls := cs ++ [{c with critical := x != 0}]}, true⟩ := by
  have hmem : (0x01, ⟨.criticality, some storeCriticality⟩) ∈ row .controlType := .head _
  rw [hasRows.walk_leaf_of_mem hmem]
  match value with
  | [] => simp [storeCriticality, Tree.element, readBoolean]
  | [x] => simp [storeCriticality, Tree.element, readBoolean]
  | x :: y :: rest => simp [storeCriticality, Tree.element, readBoolean]

/-- The value of a control is the last of its parts. -/
theorem walk_controlValue (hmem : (0x04, ⟨.controlValue, some storeControlValue⟩) ∈ row s) :
    grammar.walk frames offset ⟨s, {m with controls := cs ++ [c]}, b⟩ (.leaf 0x04 field value) =
        .ok c' ↔
      c' = ⟨.controlValue, {m with controls := cs ++ [{c with value := some value}]}, true⟩ := by
  rw [hasRows.walk_leaf_of_mem hmem]
  simp [storeControlValue, Tree.element]

theorem ends_criticality (hc : c.value = none) (hts : Tree.AllWellFormed ts) :
    grammar.Ends frames offset ⟨.criticality, {m with controls := cs ++ [c]}, true⟩ ts m' ↔
      ∃ value, AreValue value ts ∧
        m' = {m with controls := cs ++ [{c with value := value}]} := by
  refine ⟨fun h => ?_, fun h => ?_⟩
  · cases ts with
    | nil =>
      obtain ⟨_, rfl⟩ := ends_nil.mp h
      exact ⟨none, .absent, by rw [← hc]⟩
    | cons t ts =>
      obtain ⟨_, hwalk, h⟩ := ends_cons.mp h
      obtain ⟨tr, hmem⟩ := hasRows.mem_row_of_walk hwalk
      obtain ⟨htag, -⟩ := Prod.mk.inj (List.mem_singleton.mp hmem)
      obtain ⟨field, value, rfl⟩ := Tree.leaf_of_tag hts.1 htag rfl
      cases (walk_controlValue (.head _)).mp hwalk
      obtain ⟨rfl, rfl⟩ := (hasRows.ends_of_row_nil rfl).mp h
      exact ⟨some value, .present (.mk field), rfl⟩
  · obtain ⟨_, hvalue, rfl⟩ := h
    cases hvalue with
    | absent => exact ends_nil.mpr ⟨rfl, by rw [← hc]⟩
    | present htext =>
      obtain ⟨field⟩ := htext
      exact ends_cons.mpr ⟨_, (walk_controlValue (.head _)).mpr rfl,
        (hasRows.ends_of_row_nil rfl).mpr ⟨rfl, rfl⟩⟩

theorem ends_controlType (hcritical : c.critical = false) (hvalue : c.value = none)
    (hts : Tree.AllWellFormed ts) :
    grammar.Ends frames offset ⟨.controlType, {m with controls := cs ++ [c]}, true⟩ ts m' ↔
      ∃ critical value us vs, ts = us ++ vs ∧ AreFlag critical us ∧ AreValue value vs ∧
        m' = {m with controls := cs ++ [⟨c.oid, critical, value⟩]} := by
  refine ⟨fun h => ?_, fun h => ?_⟩
  · cases ts with
    | nil =>
      obtain ⟨_, rfl⟩ := ends_nil.mp h
      exact ⟨false, none, [], [], rfl, .absent, .absent, by rw [← hcritical, ← hvalue]⟩
    | cons t ts =>
      obtain ⟨_, hwalk, h⟩ := ends_cons.mp h
      obtain ⟨tr, hmem⟩ := hasRows.mem_row_of_walk hwalk
      simp only [row, List.mem_cons, Prod.mk.injEq, List.not_mem_nil, or_false] at hmem
      obtain ⟨htag, -⟩ | ⟨htag, -⟩ := hmem
      · obtain ⟨field, content, rfl⟩ := Tree.leaf_of_tag hts.1 htag rfl
        obtain ⟨x, rfl, rfl⟩ := walk_criticality.mp hwalk
        obtain ⟨value, hv, rfl⟩ := (ends_criticality (by exact hvalue) hts.2).mp h
        exact ⟨_, value, [_], ts, rfl, .present field x, hv, rfl⟩
      · obtain ⟨field, value, rfl⟩ := Tree.leaf_of_tag hts.1 htag rfl
        cases (walk_controlValue (.tail _ (.head _))).mp hwalk
        obtain ⟨rfl, rfl⟩ := (hasRows.ends_of_row_nil rfl).mp h
        exact ⟨false, some value, [], [_], rfl, .absent, .present (.mk field),
          by rw [← hcritical]⟩
  · obtain ⟨critical, value, us, vs, rfl, hflag, hv, rfl⟩ := h
    cases hflag with
    | present field x =>
      exact ends_cons.mpr ⟨_, walk_criticality.mpr ⟨x, rfl, rfl⟩,
        (ends_criticality (by exact hvalue) hts.2).mpr ⟨value, hv, rfl⟩⟩
    | absent =>
      cases hv with
      | absent => exact ends_nil.mpr ⟨rfl, by rw [← hcritical, ← hvalue]⟩
      | present htext =>
        obtain ⟨field⟩ := htext
        exact ends_cons.mpr ⟨_, (walk_controlValue (.tail _ (.head _))).mpr rfl,
          (hasRows.ends_of_row_nil rfl).mpr ⟨rfl, by rw [← hcritical]⟩⟩

theorem ends_control (hts : Tree.AllWellFormed ts) :
    grammar.Ends frames offset ⟨.control, {m with controls := cs ++ [{}]}, false⟩ ts m' ↔
      ∃ c, AreControlParts c ts ∧ m' = {m with controls := cs ++ [c]} := by
  refine ⟨fun h => ?_, fun h => ?_⟩
  · obtain ⟨t, us, rfl, _, hwalk, h⟩ := ends_step.mp h
    obtain ⟨oid, hoid, hvalid, rfl⟩ := (walk_controlType hts.1).mp hwalk
    obtain ⟨critical, value, us, vs, rfl, hflag, hv, rfl⟩ :=
      (ends_controlType rfl rfl hts.2).mp h
    exact ⟨⟨oid, critical, value⟩, ⟨hoid, hvalid, hflag, hv⟩, rfl⟩
  · obtain ⟨_, ⟨hoid, hvalid, hflag, hv⟩, rfl⟩ := h
    exact ends_cons.mpr ⟨_, (walk_controlType hts.1).mpr ⟨_, hoid, hvalid, rfl⟩,
      (ends_controlType rfl rfl hts.2).mpr ⟨_, _, _, _, rfl, hflag, hv, rfl⟩⟩

end

theorem walk_control (hrow : row s = [(0x30, ⟨.control, some beginControl⟩)])
    (ht : t.WellFormed) :
    grammar.walk frames offset ⟨s, m, b⟩ t = .ok c' ↔
      ∃ c, IsControl c t ∧ c' = ⟨.controlsNext, {m with controls := m.controls ++ [c]}, true⟩ := by
  rw [hasRows.walk_node hrow rfl ht (fun _ => rfl) rfl]
  refine ⟨fun h => ?_, fun h => ?_⟩
  · obtain ⟨field, children, rfl, hchildren, _, h, rfl⟩ := h
    obtain ⟨c, hc, rfl⟩ := (ends_control hchildren).mp h
    exact ⟨c, .mk field hc, rfl⟩
  · obtain ⟨c, ⟨field, hc⟩, rfl⟩ := h
    exact ⟨field, _, rfl, ht.2.2.2, _, (ends_control ht.2.2.2).mpr ⟨c, hc, rfl⟩, rfl⟩

theorem foldl_addControl (cs : List Control) (m : Message) :
    cs.foldl (fun m c => {m with controls := m.controls ++ [c]}) m =
      {m with controls := m.controls ++ cs} := by
  induction cs generalizing m with
  | nil => simp
  | cons c cs ih => simp [ih]

theorem ends_controls (hts : Tree.AllWellFormed ts) :
    grammar.Ends frames offset ⟨.controls, m, false⟩ ts m' ↔
      ∃ cs, (cs ≠ [] ∧ List.Forall₂ IsControl cs ts) ∧
        m' = {m with controls := m.controls ++ cs} := by
  rw [ends_list_pos (s := .controls) (fun _ _ _ _ _ => walk_control rfl)
    (fun _ _ _ _ _ => walk_control rfl) hts]
  simp only [foldl_addControl, and_assoc]

theorem ends_opDone (hm : m.controls = []) (hts : Tree.AllWellFormed ts) :
    grammar.Ends frames offset ⟨.opDone, m, true⟩ ts m' ↔
      ∃ cs, AreControls cs ts ∧ m' = {m with controls := cs} := by
  refine ⟨fun h => ?_, fun h => ?_⟩
  · cases ts with
    | nil =>
      obtain ⟨_, rfl⟩ := ends_nil.mp h
      exact ⟨[], .absent, by rw [← hm]⟩
    | cons t ts =>
      obtain ⟨_, hwalk, h⟩ := ends_cons.mp h
      obtain ⟨field, children, rfl, hchildren, _, hinside, rfl⟩ :=
        (hasRows.walk_node (s := .opDone) rfl rfl hts.1 (fun _ => rfl) rfl).mp hwalk
      obtain ⟨cs, ⟨hne, hcs⟩, rfl⟩ := (ends_controls hchildren).mp hinside
      obtain ⟨rfl, rfl⟩ := (hasRows.ends_of_row_nil rfl).mp h
      exact ⟨cs, .present field hne hcs, by rw [hm]; rfl⟩
  · obtain ⟨cs, hcs, rfl⟩ := h
    cases hcs with
    | absent => exact ends_nil.mpr ⟨rfl, by rw [← hm]⟩
    | present field hne hcs =>
      have hchildren := hts.1.2.2.2
      refine ends_cons.mpr ⟨_, (hasRows.walk_node (s := .opDone) rfl rfl hts.1 (fun _ => rfl)
        rfl).mpr ⟨field, _, rfl, hchildren, _, ?_, rfl⟩,
          (hasRows.ends_of_row_nil rfl).mpr ⟨rfl, rfl⟩⟩
      exact (ends_controls hchildren).mpr ⟨cs, ⟨hne, hcs⟩, by rw [hm]; rfl⟩

/-! ### Messages -/

theorem walk_id (ht : t.WellFormed) :
    grammar.walk frames offset ⟨.message, m, b⟩ t = .ok c' ↔
      ∃ n, IsNumber 0x02 n t ∧ c' = ⟨.messageId, {m with id := n}, false⟩ :=
  walk_number rfl rfl (fun _ => rfl) ht

theorem IsOperation.controls_eq_nil {op : Message} (h : IsOperation op t) : op.controls = [] := by
  cases h <;> rfl

theorem ends_message (hts : Tree.AllWellFormed ts) :
    grammar.Ends frames offset ⟨.message, {}, false⟩ ts m ↔ AreMessageParts m ts := by
  refine ⟨fun h => ?_, fun h => ?_⟩
  · obtain ⟨t, us, rfl, _, hwalk, h⟩ := ends_step.mp h
    obtain ⟨ht, hus⟩ := hts
    obtain ⟨id, hid, rfl⟩ := (walk_id ht).mp hwalk
    obtain ⟨u, rest, rfl, _, hwalk, h⟩ := ends_step.mp h
    obtain ⟨hu, hrest⟩ := hus
    obtain ⟨op, hop, rfl⟩ := (walk_operation hu).mp hwalk
    obtain ⟨cs, hcs, rfl⟩ := (ends_opDone (by exact hop.controls_eq_nil) hrest).mp h
    have hparts : AreMessageParts {op with id := id, controls := cs} _ := .mk hid hop hcs
    exact hparts
  · obtain ⟨hid, hop, hcs⟩ := h
    obtain ⟨ht, hu, hrest⟩ := hts
    refine ends_cons.mpr ⟨_, (walk_id ht).mpr ⟨_, hid, rfl⟩, ?_⟩
    refine ends_cons.mpr ⟨_, (walk_operation hu).mpr ⟨_, hop, rfl⟩, ?_⟩
    exact (ends_opDone (by exact hop.controls_eq_nil) hrest).mpr ⟨_, hcs, rfl⟩

theorem read_eq_ok_iff (ht : t.WellFormed) : grammar.read 0 t = .ok m ↔ IsMessage m t := by
  have hmem : (0x30, (⟨.message, none⟩ : Transition State Message)) ∈ row .start := .head _
  refine ⟨fun h => ?_, fun h => ?_⟩
  · obtain ⟨tr, htr⟩ := hasRows.mem_row_of_read h
    obtain ⟨htag, -⟩ := Prod.mk.inj (List.mem_singleton.mp htr)
    obtain ⟨field, children, rfl, hchildren⟩ := Tree.node_of_tag ht htag rfl
    exact .mk field ((ends_message hchildren).mp ((hasRows.read_node hmem fun _ => rfl).mp h))
  · obtain @⟨field, children, hparts⟩ := h
    exact (hasRows.read_node hmem fun _ => rfl).mpr ((ends_message ht.2.2.2).mpr hparts)

theorem decode_bytes_iff (ht : t.WellFormed) :
    grammar.decode none t.bytes = .ok m ↔ IsMessage m t := by
  rw [decode_bytes ht]
  exact read_eq_ok_iff ht

/-- **Decoding accepts the syntax.** A byte string is decoded to a message exactly if it is one
tree that stands for the message. -/
theorem decode_eq_ok_iff {bytes : Bytes} :
    grammar.decode none bytes = .ok m ↔
      ∃ t : Tree, t.WellFormed ∧ t.bytes = bytes ∧ IsMessage m t := by
  refine ⟨fun h => ?_, fun h => ?_⟩
  · obtain ⟨t, ht, rfl, _⟩ := tree_of_decode h
    exact ⟨t, ht, rfl, (decode_bytes_iff ht).mp h⟩
  · obtain ⟨t, ht, rfl, hm⟩ := h
    exact (decode_bytes_iff ht).mpr hm

end

end LdapBer.Message
