import LdapBer.Proofs.Message.Accepts
import LdapBer.Proofs.Message.Encoding

/-! Messages on the wire and back.

What comes back is the message without what was not written: the fields of other operations, and
the presence of control values that are empty (`Message.normal`). It comes back unless a URL is
empty or the name of a delete request is malformed. Both are written, but not read again
(`decodes_encoded_iff`). -/
namespace LdapBer

def Control.normal (c : Control) : Control :=
  {c with value := if c.value = some [] then none else c.value}

namespace Message

/-- What is written of a message. -/
def normal (m : Message) : Message where
  id := m.id
  operation := m.operation
  result := if m.operation.hasResult then m.result else {}
  dn := if m.operation = .deleteRequest then m.dn else []
  abandonedId := if m.operation = .abandonRequest then m.abandonedId else 0
  urls := if m.operation = .searchResultReference then m.urls else []
  controls := m.controls.map Control.normal

def writtenUrls (m : Message) : List Bytes :=
  if m.operation.hasResult then m.result.referrals
  else if m.operation = .searchResultReference then m.urls
  else []

/-- The URLs and the name that are written can be read. -/
structure Readable (m : Message) : Prop where
  urls : ∀ url ∈ m.writtenUrls, url ≠ []
  dn : m.operation = .deleteRequest → ∃ name, Dn.scan m.dn = .ok name

/-! ### The tree stands for the message -/

theorem isNumber_number {n : Int} (h : isNumber n = true) (tag : UInt8) :
    IsNumber tag n (.number tag n) := by
  have hrange : 0 ≤ n ∧ n ≤ maxNumber := by simpa [isNumber] using h
  have hint : IsInt64 n := by
    unfold IsInt64 maxNumber at *
    omega
  refine .mk _ _ ?_ (ofTwosComplement_integerBytes hint) hrange
  rw [length_integerBytes]
  exact integerLength_bounds n

theorem isText_text (s : Bytes) : IsText s (.text s) :=
  .mk _

theorem areUrls_text {urls : List Bytes} (hne : urls ≠ []) (h : ∀ url ∈ urls, url ≠ []) :
    AreUrls urls (urls.map .text) := by
  refine ⟨hne, ?_⟩
  clear hne
  induction urls with
  | nil => exact .nil
  | cons url urls ih =>
    have hurl : IsUrl url (.text url) := ⟨isText_text url, h url List.mem_cons_self⟩
    exact .cons hurl (ih fun u hu => h u (List.mem_cons_of_mem url hu))

theorem areReferrals_parts {urls : List Bytes} (h : ∀ url ∈ urls, url ≠ []) :
    AreReferrals urls (referralParts urls) := by
  rw [referralParts]
  by_cases hurls : urls = []
  · rw [if_pos hurls, hurls]
    exact .absent
  · rw [if_neg hurls]
    exact .present _ (areUrls_text hurls h)

theorem areResult_parts {r : Result} (hcode : isNumber r.code = true)
    (h : ∀ url ∈ r.referrals, url ≠ []) : AreResult r (resultParts r) :=
  .mk (isNumber_number hcode 0x0A) (isText_text r.matchedDn) (isText_text r.diagnostic)
    (areReferrals_parts h)

theorem areControlParts_parts {c : Control} (h : Oid.isValid c.oid = true) :
    AreControlParts c.normal c.parts := by
  have hcritical : AreFlag c.critical
      (if c.critical then [.primitive 0x01 [0xFF]] else []) := by
    cases c.critical with
    | false => exact .absent
    | true => exact .present _ 0xFF
  have hvalue : AreValue c.normal.value
      (if c.valueBytes = [] then [] else [.text c.valueBytes]) := by
    rw [Control.normal, Control.valueBytes]
    match c.value with
    | none => exact .absent
    | some [] => exact .absent
    | some (x :: rest) => exact .present (isText_text (x :: rest))
  rw [Control.parts, List.append_assoc, List.singleton_append]
  exact .mk (isText_text c.oid) h hcritical hvalue

theorem areControls_parts {cs : List Control} (h : ∀ c ∈ cs, Oid.isValid c.oid = true) :
    AreControls (cs.map Control.normal) (controlParts cs) := by
  have hall : List.Forall₂ IsControl (cs.map Control.normal) (cs.map Control.tree) := by
    rw [List.forall₂_map_left_iff, List.forall₂_map_right_iff, List.forall₂_same]
    exact fun c hc => .mk _ (areControlParts_parts (h c hc))
  rw [controlParts]
  cases cs with
  | nil => exact .absent
  | cons c cs => exact .present _ (List.cons_ne_nil _ _) hall

section
variable {m : Message}

theorem isOperation_tree (hm : m.Operable) (h : m.Readable) :
    ∃ op, IsOperation op m.operationTree ∧
      {op with id := m.id, controls := m.controls.map Control.normal} = m.normal := by
  have hurls := h.urls
  rw [Operable] at hm
  rw [operationTree, normal]
  rw [writtenUrls] at hurls
  cases hop : m.operation with
  | none =>
    rw [hop] at hm
    exact hm.elim
  | unbindRequest => exact ⟨_, .unbindRequest _, rfl⟩
  | deleteRequest => exact ⟨_, .deleteRequest _ (h.dn hop), rfl⟩
  | abandonRequest =>
    rw [hop] at hm
    exact ⟨_, .abandonRequest (isNumber_number hm 0x50), rfl⟩
  | searchResultDone | deleteResponse | compareResponse =>
    rw [hop] at hm hurls
    exact ⟨_, .response (by constructor) _ (areResult_parts hm hurls), rfl⟩
  | searchResultReference =>
    rw [hop] at hm hurls
    exact ⟨_, .searchResultReference _ (areUrls_text hm hurls), rfl⟩

theorem isMessage_tree (hm : m.Writable) (h : m.Readable) : IsMessage m.normal m.tree := by
  obtain ⟨op, hop, hnormal⟩ := isOperation_tree hm.operation h
  rw [← hnormal]
  exact .mk _ (.mk (isNumber_number hm.id 0x02) hop (areControls_parts hm.controls))

/-! ### Nothing else makes it readable -/

theorem ne_nil_of_areUrls {read urls : List Bytes} (h : AreUrls read (urls.map .text)) :
    ∀ url ∈ urls, url ≠ [] := by
  have hall := h.2
  clear h
  induction urls generalizing read with
  | nil => exact nofun
  | cons url urls ih =>
    intro u hu
    obtain _ | ⟨⟨htext, hne⟩, hrest⟩ := hall
    rcases List.mem_cons.mp hu with rfl | hu
    · cases htext
      exact hne
    · exact ih hrest u hu

theorem ne_nil_of_areResult {read r : Result} (h : AreResult read (resultParts r)) :
    ∀ url ∈ r.referrals, url ≠ [] := by
  obtain ⟨_, _, _, hurls⟩ := h
  by_cases hempty : r.referrals = []
  · rw [hempty]
    exact nofun
  · rw [referralParts, if_neg hempty] at hurls
    obtain _ | ⟨_, hurls⟩ := hurls
    exact ne_nil_of_areUrls hurls

theorem IsOperation.scan_dn {op : Message} {field dn : Bytes}
    (h : IsOperation op (.leaf 0x4A field dn)) : ∃ name, Dn.scan dn = .ok name := by
  generalize htag : (0x4A : UInt8) = tag at h
  cases h with
  | unbindRequest => exact absurd htag (by decide)
  | deleteRequest _ hdn => exact hdn
  | abandonRequest hid =>
    cases hid
    exact absurd htag (by decide)

theorem IsOperation.areUrls {op : Message} {field : Bytes} {ts : List Tree}
    (h : IsOperation op (.node 0x73 field ts)) : ∃ urls, AreUrls urls ts := by
  generalize htag : (0x73 : UInt8) = tag at h
  cases h with
  | abandonRequest hid => cases hid
  | response hresponse => cases hresponse <;> exact absurd htag (by decide)
  | searchResultReference _ hurls => exact ⟨_, hurls⟩

theorem IsOperation.areResult {op : Message} {tag : UInt8} {field : Bytes} {ts : List Tree}
    (h : IsOperation op (.node tag field ts)) (htag : tag ≠ 0x73) : ∃ r, AreResult r ts := by
  cases h with
  | abandonRequest hid => cases hid
  | response _ _ hresult => exact ⟨_, hresult⟩
  | searchResultReference => exact absurd rfl htag

theorem readable_of_isOperation {op : Message} (h : IsOperation op m.operationTree) :
    m.Readable := by
  rw [operationTree] at h
  cases hop : m.operation with
  | none | unbindRequest | abandonRequest =>
    exact ⟨by simp [writtenUrls, hop, Operation.hasResult], by simp [hop]⟩
  | deleteRequest =>
    rw [hop] at h
    exact ⟨by simp [writtenUrls, hop, Operation.hasResult], fun _ => h.scan_dn⟩
  | searchResultDone | deleteResponse | compareResponse =>
    rw [hop] at h
    obtain ⟨r, hr⟩ := h.areResult (by decide)
    refine ⟨?_, by simp [hop]⟩
    rw [writtenUrls, hop]
    exact ne_nil_of_areResult hr
  | searchResultReference =>
    rw [hop] at h
    obtain ⟨urls, hurls⟩ := h.areUrls
    refine ⟨?_, by simp [hop]⟩
    rw [writtenUrls, hop]
    exact ne_nil_of_areUrls hurls

theorem readable_of_isMessage {read : Message} (h : IsMessage read m.tree) : m.Readable := by
  obtain ⟨_, _, hop, _⟩ := h
  exact readable_of_isOperation hop

/-! ### Round trip -/

/-- **What is written is read back.** If its URLs and its name can be read, a message that was
written is decoded to what was written of it. -/
theorem decode_encode {b : Bytes} (h : encode m = .ok b) (hm : m.Readable) :
    grammar.decode none b = .ok m.normal := by
  obtain ⟨hwritable, ht, rfl⟩ := encode_eq_ok_iff.mp h
  exact (decode_bytes_iff ht).mpr (isMessage_tree hwritable hm)

/-- A response with a referral, and a critical control with an empty value. -/
theorem decode_encode_response :
    let m : Message :=
      { id := 7
        operation := .deleteResponse
        result := ⟨10, [], [0x6F], [[0x6C]]⟩
        dn := [0x3D]
        controls := [⟨[0x31, 0x2E, 0x32], true, some []⟩] }
    let b : Bytes :=
      [0x30, 0x1E, 0x02, 0x01, 0x07, 0x6B, 0x0D, 0x0A, 0x01, 0x0A, 0x04, 0x00, 0x04, 0x01, 0x6F,
        0xA3, 0x03, 0x04, 0x01, 0x6C, 0xA0, 0x0A, 0x30, 0x08, 0x04, 0x03, 0x31, 0x2E, 0x32, 0x01,
        0x01, 0xFF]
    encode m = .ok b ∧ m.Readable ∧
      grammar.decode none b =
        .ok {m with dn := [], controls := [⟨[0x31, 0x2E, 0x32], true, none⟩]} := by
  intro m b
  have hencode : encode m = .ok b := by decide
  have hm : m.Readable := ⟨by decide, nofun⟩
  exact ⟨hencode, hm, decode_encode hencode hm⟩

/-- **Not all that is written can be read.** What was written is decoded exactly if the URLs are
not empty and the name of a delete request is not malformed. -/
theorem decodes_encoded_iff {b : Bytes} (h : encode m = .ok b) :
    (∃ read, grammar.decode none b = .ok read) ↔ m.Readable := by
  obtain ⟨hwritable, ht, rfl⟩ := encode_eq_ok_iff.mp h
  refine ⟨fun ⟨read, hread⟩ => ?_, fun hm => ?_⟩
  · exact readable_of_isMessage ((decode_bytes_iff ht).mp hread)
  · exact ⟨m.normal, (decode_bytes_iff ht).mpr (isMessage_tree hwritable hm)⟩

/-- A delete request whose name is a comma. -/
theorem decodes_encoded_comma :
    let m : Message := {id := 1, operation := .deleteRequest, dn := [0x2C]}
    let b : Bytes := [0x30, 0x06, 0x02, 0x01, 0x01, 0x4A, 0x01, 0x2C]
    encode m = .ok b ∧ ((∃ read, grammar.decode none b = .ok read) ↔ m.Readable) := by
  intro m b
  have hencode : encode m = .ok b := by decide
  exact ⟨hencode, decodes_encoded_iff hencode⟩

/-- A reference to an empty URL is written and not read. -/
theorem not_all_encoded_decode :
    ¬ ∀ (m : Message) (b : Bytes), encode m = .ok b →
      ∃ read, grammar.decode none b = .ok read := by
  intro h
  have hencode : encode {id := 1, operation := .searchResultReference, urls := [[]]} =
      .ok [0x30, 0x07, 0x02, 0x01, 0x01, 0x73, 0x02, 0x04, 0x00] := by decide
  have hdecode : grammar.decode none [0x30, 0x07, 0x02, 0x01, 0x01, 0x73, 0x02, 0x04, 0x00] =
      .error (.refused (ascii "LDAPMessage") 0x04 (ascii "REFERENCE_URL") 7 .emptyUrl) := by
    decide +kernel
  obtain ⟨read, hread⟩ := h _ _ hencode
  rw [hdecode] at hread
  cases hread

end

end Message

end LdapBer
