import LdapBer.Proofs.Message.Encoding

/-! Room for what is written.

The lengths of a message are fixed in one pass and its bytes are written in another. As long as the
content of the whole can have its length written so can the content of all that is inside
(`Tree.SizeSuffices`), and then the two passes agree to the byte: there is room for a message in
exactly as many bytes as were measured, and not in fewer (`fits_of_measure`). -/
namespace LdapBer

namespace Tree

theorem sizeSuffices_text (s : Bytes) : SizeSuffices [.text s] :=
  sizeSuffices_primitive (by decide) rfl s

end Tree

/-! ### Controls and messages -/

namespace Control

theorem sizeSuffices_parts (c : Control) : Tree.SizeSuffices c.parts := by
  have hcritical : Tree.SizeSuffices (if c.critical then [.primitive 0x01 [0xFF]] else []) := by
    split
    · exact Tree.sizeSuffices_primitive (by decide) rfl [0xFF]
    · exact Tree.sizeSuffices_nil
  have hvalue : Tree.SizeSuffices (if c.valueBytes = [] then [] else [.text c.valueBytes]) := by
    split
    · exact Tree.sizeSuffices_nil
    · exact Tree.sizeSuffices_text c.valueBytes
  exact ((Tree.sizeSuffices_text c.oid).append hcritical).append hvalue

theorem wellFormed_tree {c : Control} (h : c.tree.content.length ≤ 0xFFFFFFFF) :
    c.tree.WellFormed :=
  c.sizeSuffices_parts.wellFormed (by decide) rfl h

end Control

namespace Message

theorem sizeSuffices_resultParts (r : Result) : Tree.SizeSuffices (resultParts r) := by
  have hcode : Tree.SizeSuffices [.number 0x0A r.code] :=
    Tree.sizeSuffices_primitive (by decide) rfl _
  have hreferrals : Tree.SizeSuffices (referralParts r.referrals) := by
    rw [referralParts]
    split
    · exact Tree.sizeSuffices_nil
    · exact (Tree.sizeSuffices_map Tree.sizeSuffices_text r.referrals).constructed (by decide) rfl
  exact ((hcode.append (Tree.sizeSuffices_text r.matchedDn)).append
    (Tree.sizeSuffices_text r.diagnostic)).append hreferrals

theorem sizeSuffices_operationTree (m : Message) : Tree.SizeSuffices [m.operationTree] := by
  rw [operationTree]
  cases m.operation with
  | none | unbindRequest | deleteRequest | abandonRequest =>
    exact Tree.sizeSuffices_primitive (by decide) rfl _
  | searchResultDone | deleteResponse | compareResponse =>
    exact (sizeSuffices_resultParts m.result).constructed (by decide) rfl
  | searchResultReference =>
    exact (Tree.sizeSuffices_map Tree.sizeSuffices_text m.urls).constructed (by decide) rfl

theorem sizeSuffices_parts (m : Message) : Tree.SizeSuffices m.parts := by
  have hid : Tree.SizeSuffices [.number 0x02 m.id] :=
    Tree.sizeSuffices_primitive (by decide) rfl _
  have hcontrols : Tree.SizeSuffices (controlParts m.controls) := by
    rw [controlParts]
    split
    · exact Tree.sizeSuffices_nil
    · have htrees : Tree.SizeSuffices (m.controls.map Control.tree) :=
        Tree.sizeSuffices_map (fun c => c.sizeSuffices_parts.constructed (by decide) rfl) m.controls
      exact htrees.constructed (by decide) rfl
  exact (hid.append (sizeSuffices_operationTree m)).append hcontrols

theorem wellFormed_tree {m : Message} (h : m.tree.content.length ≤ 0xFFFFFFFF) :
    m.tree.WellFormed :=
  m.sizeSuffices_parts.wellFormed (by decide) rfl h

/-- A control is written in as many bytes as were measured. -/
theorem fits_control {c : Control} (h : c.tree.content.length ≤ 0xFFFFFFFF) :
    (c.layout (some c.measure)).Fits c.measure.size := by
  have htree := Control.wellFormed_tree h
  rw [measure_size htree]
  exact (writes_control c).fits htree

/-- A message is written in as many bytes as were measured, whatever the encoder measured before. -/
theorem fits_message {before e : Encoder} {m : Message} {size : Nat}
    (hmeasure : before.measure m = (e, .ok size)) (h : m.tree.content.length ≤ 0xFFFFFFFF) :
    (e.layout m).Fits size := by
  have htree := wellFormed_tree h
  have hm := writable_of_measure hmeasure
  obtain ⟨e', hmeasure', he⟩ := measure_of_writable hm before
  rw [hmeasure] at hmeasure'
  cases hmeasure'
  have hsize : elementSize e.messageLength = m.tree.bytes.length := by
    rw [he.message_eq htree.2.2.2, tree, Tree.length_bytes_constructed]
  rw [hsize]
  exact (writes_layout he hm.operation).fits htree

/-- A message that has been measured is refused only if its length cannot be written. -/
theorem size_or_content_of_encode {m : Message} {err : EncodeError} (h : encode m = .error err) :
    (∃ err, m.size = .error err) ∨ 0xFFFFFFFF < m.tree.content.length := by
  by_cases hcontent : m.tree.content.length ≤ 0xFFFFFFFF
  · refine .inl ?_
    cases hsize : m.size with
    | error err => exact ⟨err, rfl⟩
    | ok size =>
      have hmeasure : Encoder.measure {} m = ((Encoder.measure {} m).1, .ok size) :=
        Prod.ext rfl hsize
      have hm := writable_of_measure hmeasure
      have hencode : encode m = .ok m.tree.bytes :=
        encode_eq_ok_iff.mpr ⟨hm, wellFormed_tree hcontent, rfl⟩
      rw [h] at hencode
      cases hencode
  · exact .inr (Nat.lt_of_not_le hcontent)

/-- **What was measured is what is written.** Let the length of a message, or of a control, be fixed
and the content be short enough for a length field. Then as many bytes of room are filled exactly,
and less room is refused. So a message that has been measured is written unless its content is too
long. -/
theorem fits_of_measure :
    (∀ (before : Encoder) (m : Message) (e : Encoder) (size : Nat),
      before.measure m = (e, .ok size) → m.tree.content.length ≤ 0xFFFFFFFF →
        (e.layout m).Fits size) ∧
    (∀ c : Control, c.tree.content.length ≤ 0xFFFFFFFF →
      (c.layout (some c.measure)).Fits c.measure.size) ∧
    ∀ (m : Message) (err : EncodeError), encode m = .error err →
      (∃ err, m.size = .error err) ∨ 0xFFFFFFFF < m.tree.content.length :=
  ⟨fun _ _ _ _ => fits_message, fun _ => fits_control, fun _ _ => size_or_content_of_encode⟩

/-- A critical control has 10 bytes and a search result with a referral 19. A message without an
operation is not measured. -/
theorem fits_of_measure_result :
    let c : Control := ⟨[0x31, 0x2E, 0x32], true, none⟩
    let m : Message := {id := 1, operation := .searchResultDone, result := {referrals := [[0x61]]}}
    let e := (Encoder.measure {} m).1
    (c.layout (some c.measure)).Fits 10 ∧ (e.layout m).Fits 19 ∧
      ((∃ err, ({} : Message).size = .error err) ∨
        0xFFFFFFFF < ({} : Message).tree.content.length) := by
  intro c m e
  have hcontrol : c.measure.size = 10 := by decide
  have hmessage : Encoder.measure {} m = (e, .ok 19) := rfl
  have hrefused : encode {} = .error .noOperation := rfl
  obtain ⟨hmessages, hcontrols, hencode⟩ := fits_of_measure
  refine ⟨?_, hmessages {} m e 19 hmessage (by decide), hencode {} _ hrefused⟩
  rw [← hcontrol]
  exact hcontrols c (by decide)

end Message

end LdapBer
