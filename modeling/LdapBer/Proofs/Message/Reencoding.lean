import LdapBer.Proofs.Decode.Parse
import LdapBer.Proofs.Message.Canonical
import LdapBer.Proofs.Message.RoundTrip

/-! Messages read and written again.

A message that was decoded has passed all that is checked before a message is written, and nothing
is left in it that is not written but the presence of empty control values. So it can be written,
and comes back but for these (`reencode_decoded`); and what is written is the bytes that it was
decoded from exactly if these were canonical (`encode_eq_iff_canonical`). What is written is never
longer, and it is canonical: from the second time on nothing changes (`reencode_canonicalises`). -/
namespace LdapBer.Message

/-! ### What was decoded can be written and read -/

section
variable {m : Message} {t : Tree}

theorem IsNumber.isNumber {n : Int} {tag : UInt8} (h : IsNumber tag n t) :
    isNumber n = true := by
  obtain ⟨_, _, _, _, hlow, hhigh⟩ := h
  simp [Message.isNumber, maxNumber, hlow, hhigh]

theorem IsOperation.operable {op : Message} (h : IsOperation op t) : op.Operable := by
  cases h with
  | unbindRequest | deleteRequest => trivial
  | abandonRequest hid => exact hid.isNumber
  | response htag _ hresult =>
    obtain ⟨hcode⟩ := hresult
    cases htag <;> exact hcode.isNumber
  | searchResultReference _ hurls => exact hurls.1

theorem IsControl.isValid {c : Control} (h : IsControl c t) : Oid.isValid c.oid = true := by
  obtain ⟨_, ⟨_, hvalid⟩⟩ := h
  exact hvalid

theorem AreControls.isValid {cs : List Control} {ts : List Tree} (h : AreControls cs ts) :
    ∀ c ∈ cs, Oid.isValid c.oid = true := by
  cases h with
  | absent => exact nofun
  | present _ hne hcontrols =>
    clear hne
    induction hcontrols with
    | nil => exact nofun
    | cons hc _ ih => exact List.forall_mem_cons.mpr ⟨hc.isValid, ih⟩

theorem IsMessage.writable (h : IsMessage m t) : m.Writable := by
  obtain ⟨_, hid, hop, hcontrols⟩ := h
  exact ⟨hid.isNumber, hop.operable, hcontrols.isValid⟩

theorem ne_nil_of_isUrl {urls : List Bytes} {ts : List Tree} (h : List.Forall₂ IsUrl urls ts) :
    ∀ url ∈ urls, url ≠ [] := by
  induction h with
  | nil => exact nofun
  | cons hurl _ ih => exact List.forall_mem_cons.mpr ⟨hurl.2, ih⟩

theorem AreReferrals.ne_nil {urls : List Bytes} {ts : List Tree} (h : AreReferrals urls ts) :
    ∀ url ∈ urls, url ≠ [] := by
  cases h with
  | absent => exact nofun
  | present _ hurls => exact ne_nil_of_isUrl hurls.2

theorem IsOperation.readable {op : Message} (h : IsOperation op t) : op.Readable := by
  cases h with
  | unbindRequest | abandonRequest => exact ⟨nofun, nofun⟩
  | deleteRequest _ hdn => exact ⟨nofun, fun _ => hdn⟩
  | response htag _ hresult =>
    obtain ⟨_, _, _, hreferrals⟩ := hresult
    cases htag <;> exact ⟨hreferrals.ne_nil, nofun⟩
  | searchResultReference _ hurls => exact ⟨ne_nil_of_isUrl hurls.2, nofun⟩

theorem IsMessage.readable (h : IsMessage m t) : m.Readable := by
  obtain ⟨_, _, hop, _⟩ := h
  exact ⟨hop.readable.urls, hop.readable.dn⟩

/-- A message that was decoded has nothing else than its operation. -/
theorem IsOperation.normal_eq {op : Message} (h : IsOperation op t) : op.normal = op := by
  cases h with
  | unbindRequest | deleteRequest | abandonRequest | searchResultReference => rfl
  | response htag => cases htag <;> rfl

theorem IsMessage.normal_eq (h : IsMessage m t) :
    m.normal = {m with controls := m.controls.map Control.normal} := by
  obtain @⟨_, _, @⟨n, op, controls, _, _, _, _, hop, _⟩⟩ := h
  have hnormal := congrArg
    (fun op : Message => {op with id := n, controls := controls.map Control.normal}) hop.normal_eq
  exact hnormal

theorem encode_of_isMessage (h : IsMessage m t) (ht : t.WellFormed) :
    encode m = .ok m.tree.bytes :=
  encode_eq_ok_iff.mpr ⟨h.writable, (canonicalises_message h ht).wellFormed.1, rfl⟩

/-- What was decoded can be written, whatever bounded it. -/
theorem exists_encode_of_decode {limit : Option Nat} {b : Bytes}
    (h : grammar.decode limit b = .ok m) : ∃ e, encode m = .ok e := by
  obtain ⟨t, ht, -, -, hread⟩ := fitting_tree_of_decode h
  exact ⟨m.tree.bytes, encode_of_isMessage ((read_eq_ok_iff ht).mp hread) ht⟩

/-! ### Writing what was decoded -/

/-- **Writing loses only empty control values.** What was decoded can be written, and is decoded
again to the same message, but for control values that are present and empty: they are absent. -/
theorem reencode_decoded {b : Bytes} (h : grammar.decode none b = .ok m) :
    ∃ e, encode m = .ok e ∧
      grammar.decode none e = .ok {m with controls := m.controls.map Control.normal} := by
  obtain ⟨t, ht, rfl, -⟩ := tree_of_decode h
  have hm := (decode_bytes_iff ht).mp h
  have hcanonical := canonicalises_message hm ht
  refine ⟨m.tree.bytes, encode_of_isMessage hm ht, ?_⟩
  rw [decode_bytes_iff hcanonical.wellFormed.1, ← hm.normal_eq]
  exact isMessage_tree hm.writable hm.readable

/-- An unbind request with a long length, an id of two bytes and an empty control value. -/
theorem reencode_decoded_unbind :
    let m : Message :=
      {id := 1, operation := .unbindRequest, controls := [⟨[0x31, 0x2E, 0x32], false, some []⟩]}
    let b : Bytes :=
      [0x30, 0x81, 0x11, 0x02, 0x02, 0x00, 0x01, 0x42, 0x00, 0xA0, 0x09, 0x30, 0x07, 0x04, 0x03,
        0x31, 0x2E, 0x32, 0x04, 0x00]
    grammar.decode none b = .ok m ∧ ∃ e, encode m = .ok e ∧
      grammar.decode none e = .ok {m with controls := [⟨[0x31, 0x2E, 0x32], false, none⟩]} := by
  intro m b
  have hdecode : grammar.decode none b = .ok m := by decide +kernel
  exact ⟨hdecode, reencode_decoded hdecode⟩

/-- **Writing makes a message canonical.** What was decoded can be written, and is then no longer
than it was. It is decoded and written again as it stands. -/
theorem reencode_canonicalises {b : Bytes} (h : grammar.decode none b = .ok m) :
    ∃ e n, encode m = .ok e ∧ e.length ≤ b.length ∧
      grammar.decode none e = .ok n ∧ encode n = .ok e := by
  obtain ⟨t, ht, rfl, -⟩ := tree_of_decode h
  have hm := (decode_bytes_iff ht).mp h
  have hcanonical := canonicalises_message hm ht
  have htree : m.tree.WellFormed := hcanonical.wellFormed.1
  have hagain : IsMessage m.normal m.tree := isMessage_tree hm.writable hm.readable
  -- the tree that is written is its own canonical form
  have hfixed : [m.tree] = [m.normal.tree] :=
    (canonicalises_message hagain htree).eq hcanonical.canonical
  have hle : m.tree.bytes.length ≤ t.bytes.length := by
    simpa only [Tree.bytesAll, List.append_nil] using hcanonical.le
  refine ⟨m.tree.bytes, m.normal, encode_of_isMessage hm ht, hle, ?_, ?_⟩
  · exact (decode_bytes_iff htree).mpr hagain
  · rw [encode_of_isMessage hagain htree, List.singleton_inj.mp hfixed]

/-- A deletion with a long length, an id of two bytes, a criticality that is false and one that is
true but not 0xFF. -/
theorem reencode_canonicalises_deletion :
    let m : Message :=
      { id := 3
        operation := .deleteRequest
        dn := [0x61, 0x3D, 0x62]
        controls := [⟨[0x31, 0x2E, 0x32], false, none⟩, ⟨[0x31, 0x2E, 0x33], true, some []⟩] }
    let b : Bytes :=
      [0x30, 0x81, 0x21, 0x02, 0x02, 0x00, 0x03, 0x4A, 0x03, 0x61, 0x3D, 0x62, 0xA0, 0x16, 0x30,
        0x08, 0x04, 0x03, 0x31, 0x2E, 0x32, 0x01, 0x01, 0x00, 0x30, 0x0A, 0x04, 0x03, 0x31, 0x2E,
        0x33, 0x01, 0x01, 0x7F, 0x04, 0x00]
    grammar.decode none b = .ok m ∧ ∃ e n, encode m = .ok e ∧ e.length ≤ b.length ∧
      grammar.decode none e = .ok n ∧ encode n = .ok e := by
  intro m b
  have hdecode : grammar.decode none b = .ok m := by decide +kernel
  exact ⟨hdecode, reencode_canonicalises hdecode⟩

/-- Messages are the same if they agree in every field, controls up to the case of the letters in
their identifiers. -/
structure Same (m n : Message) : Prop where
  fields : {m with controls := []} = {n with controls := []}
  controls : List.Forall₂ (fun c d => c.same d = true) m.controls n.controls

/-- A control value that is present and empty is decoded, and lost when it is written. -/
theorem not_all_reencoded_same :
    ¬ ∀ (b : Bytes) (m : Message), grammar.decode none b = .ok m →
      ∃ e n, encode m = .ok e ∧ grammar.decode none e = .ok n ∧ n.Same m := by
  intro h
  have hdecode : grammar.decode none
      [0x30, 0x10, 0x02, 0x01, 0x01, 0x42, 0x00, 0xA0, 0x09, 0x30, 0x07, 0x04, 0x03, 0x31, 0x2E,
        0x32, 0x04, 0x00] =
      .ok ⟨1, .unbindRequest, {}, [], 0, [], [⟨[0x31, 0x2E, 0x32], false, some []⟩]⟩ := by
    decide +kernel
  have hwritten : encode
      ⟨1, .unbindRequest, {}, [], 0, [], [⟨[0x31, 0x2E, 0x32], false, some []⟩]⟩ =
      .ok [0x30, 0x0E, 0x02, 0x01, 0x01, 0x42, 0x00, 0xA0, 0x07, 0x30, 0x05, 0x04, 0x03, 0x31,
        0x2E, 0x32] := by
    decide
  have hread : grammar.decode none
      [0x30, 0x0E, 0x02, 0x01, 0x01, 0x42, 0x00, 0xA0, 0x07, 0x30, 0x05, 0x04, 0x03, 0x31, 0x2E,
        0x32] =
      .ok ⟨1, .unbindRequest, {}, [], 0, [], [⟨[0x31, 0x2E, 0x32], false, none⟩]⟩ := by
    decide +kernel
  obtain ⟨e, n, hencode, hagain, hsame⟩ := h _ _ hdecode
  obtain rfl := Except.ok.inj (hwritten.symm.trans hencode)
  obtain rfl := Except.ok.inj (hread.symm.trans hagain)
  cases hsame.controls with
  | cons hcontrol => exact absurd hcontrol (by decide)

/-- **What is canonical is written as it came, and nothing else is.** -/
theorem encode_eq_iff_canonical {b : Bytes} (h : grammar.decode none b = .ok m) :
    encode m = .ok b ↔ ∃ t, Tree.Parses b t ∧ IsCanonical t := by
  obtain ⟨u, hu, rfl, -⟩ := tree_of_decode h
  have hm := (decode_bytes_iff hu).mp h
  have hcanonical := canonicalises_message hm hu
  refine ⟨fun hencode => ?_, fun ⟨t, ht, htree⟩ => ?_⟩
  · obtain ⟨-, ht, hbytes⟩ := encode_eq_ok_iff.mp hencode
    exact ⟨m.tree, ⟨ht, hbytes⟩, areCanonical_singleton.mp hcanonical.canonical⟩
  · have hsame : t = u := Tree.Parses.unique ⟨hu, rfl⟩ ht
    subst hsame
    have heq := hcanonical.eq (areCanonical_singleton.mpr htree)
    rw [encode_of_isMessage hm hu, List.singleton_inj.mp heq]

/-- An abandon request with a critical control. -/
theorem encode_iff_canonical_abandon :
    let m : Message :=
      { id := 7
        operation := .abandonRequest
        abandonedId := 5
        controls := [⟨[0x31, 0x2E, 0x32], true, some [0x61]⟩] }
    let b : Bytes :=
      [0x30, 0x15, 0x02, 0x01, 0x07, 0x50, 0x01, 0x05, 0xA0, 0x0D, 0x30, 0x0B, 0x04, 0x03, 0x31,
        0x2E, 0x32, 0x01, 0x01, 0xFF, 0x04, 0x01, 0x61]
    grammar.decode none b = .ok m ∧
      (encode m = .ok b ↔ ∃ t, Tree.Parses b t ∧ IsCanonical t) := by
  intro m b
  have hdecode : grammar.decode none b = .ok m := by decide +kernel
  exact ⟨hdecode, encode_eq_iff_canonical hdecode⟩

end

end LdapBer.Message
