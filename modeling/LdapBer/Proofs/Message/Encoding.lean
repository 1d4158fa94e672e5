import LdapBer.Message.Encoder
import LdapBer.Proofs.Ber.Room

/-! What the encoder writes.

A message has one tree in which all lengths are the shortest and optional parts stand only where
they say something. The encoder finds the lengths in one pass and writes by them in another; what
comes out is this tree (`encode_eq_ok_iff`), or nothing if the message is not fit to be written or
a length does not fit into its field. -/
namespace LdapBer

namespace Tree

def text (s : Bytes) : Tree :=
  primitive 0x04 s

def number (tag : UInt8) (n : Int) : Tree :=
  primitive tag (integerBytes n)

end Tree

/-! ### The tree of a message -/

namespace Control

def parts (c : Control) : List Tree :=
  [.text c.oid] ++ (if c.critical then [.primitive 0x01 [0xFF]] else []) ++
    (if c.valueBytes = [] then [] else [.text c.valueBytes])

def tree (c : Control) : Tree :=
  .constructed 0x30 c.parts

end Control

namespace Message

def referralParts (urls : List Bytes) : List Tree :=
  if urls = [] then [] else [.constructed 0xA3 (urls.map .text)]

def resultParts (r : Result) : List Tree :=
  [.number 0x0A r.code, .text r.matchedDn, .text r.diagnostic] ++ referralParts r.referrals

/-- Only messages with an operation are written. -/
def operationTree (m : Message) : Tree :=
  match m.operation with
  | .none | .unbindRequest => .primitive 0x42 []
  | .deleteRequest => .primitive 0x4A m.dn
  | .abandonRequest => .number 0x50 m.abandonedId
  | .searchResultDone | .deleteResponse | .compareResponse =>
    .constructed m.operation.tag (resultParts m.result)
  | .searchResultReference => .constructed 0x73 (m.urls.map .text)

def controlParts (cs : List Control) : List Tree :=
  if cs = [] then [] else [.constructed 0xA0 (cs.map Control.tree)]

def parts (m : Message) : List Tree :=
  [.number 0x02 m.id, m.operationTree] ++ controlParts m.controls

def tree (m : Message) : Tree :=
  .constructed 0x30 m.parts

/-! ### Messages fit to be written -/

/-- The operation has what it needs, and its number is in range. -/
def Operable (m : Message) : Prop :=
  match m.operation with
  | .none => False
  | .unbindRequest | .deleteRequest => True
  | .abandonRequest => isNumber m.abandonedId = true
  | .searchResultDone | .deleteResponse | .compareResponse => isNumber m.result.code = true
  | .searchResultReference => m.urls ≠ []

/-- What is checked before a message is written. -/
structure Writable (m : Message) : Prop where
  id : isNumber m.id = true
  operation : m.Operable
  controls : ∀ c ∈ m.controls, Oid.isValid c.oid = true

/-! ### The lengths that are fixed -/

theorem textsSize_eq (texts : List Bytes) :
    textsSize texts = (Tree.bytesAll (texts.map .text)).length := by
  induction texts with
  | nil => rfl
  | cons s texts ih =>
    simp only [textsSize, List.map_cons, total_cons, Tree.bytesAll, List.length_append] at ih ⊢
    rw [ih, Tree.text, Tree.length_bytes_primitive]

theorem resultLength_eq (r : Result) :
    resultLength r = (Tree.bytesAll (resultParts r)).length := by
  rw [resultLength, resultParts, referralParts, textsSize_eq]
  by_cases hurls : r.referrals = []
  · simp [hurls, Tree.bytesAll, Tree.number, Tree.text, Tree.length_bytes_primitive]
    omega
  · simp [hurls, Tree.bytesAll, Tree.number, Tree.text, Tree.length_bytes_primitive,
      Tree.length_bytes_constructed]
    omega

/-- The length of the operation, once it is fit to be written. -/
theorem operationLength_eq_ok_iff {m : Message} {n : Nat} :
    m.operationLength = .ok n ↔ m.Operable ∧ n = m.operationTree.content.length := by
  rw [operationLength, Operable, operationTree]
  cases m.operation with
  | none => simp
  | unbindRequest => simp [Tree.primitive, Tree.content, eq_comm]
  | deleteRequest => simp [Tree.primitive, Tree.content, eq_comm]
  | abandonRequest =>
    cases isNumber m.abandonedId <;>
      simp [Tree.number, Tree.primitive, Tree.content, eq_comm]
  | searchResultDone | deleteResponse | compareResponse =>
    cases isNumber m.result.code <;>
      simp [Tree.constructed, Tree.content, resultLength_eq, eq_comm]
  | searchResultReference =>
    cases m.urls <;> simp [Tree.constructed, Tree.content, textsSize_eq, eq_comm]

theorem length_bytes_operationTree (m : Message) :
    m.operationTree.bytes.length = elementSize m.operationTree.content.length := by
  rw [operationTree]
  cases m.operation with
  | none | unbindRequest | deleteRequest => exact Tree.length_bytes_primitive _ _
  | abandonRequest => exact Tree.length_bytes_primitive _ _
  | searchResultDone | deleteResponse | compareResponse | searchResultReference =>
    exact Tree.length_bytes_constructed _ _

/-- The parts of a control that can be written are far shorter than 2^64 bytes. -/
theorem measure_content {c : Control} (h : Tree.AllWellFormed c.parts) :
    c.measure.content = (Tree.bytesAll c.parts).length := by
  rw [Control.measure, Control.measureWith]
  rw [Control.parts] at h ⊢
  have hoid := Tree.length_bytes_lt (Tree.allWellFormed_append.mp
    (Tree.allWellFormed_append.mp h).1).1.1
  rw [Tree.text, Tree.length_bytes_primitive] at hoid
  have hflag : (Tree.bytesAll (if c.critical then [.primitive 0x01 [0xFF]] else [])).length =
      if c.critical then 3 else 0 := by
    cases c.critical <;> rfl
  by_cases hempty : c.valueBytes = []
  · simp only [Tree.bytesAll_append, List.length_append, hflag, hempty, if_true, List.length_nil,
      Tree.bytesAll, List.append_nil, Tree.text, Tree.length_bytes_primitive, Nat.add_zero]
    apply mod_lengthModulus
    split <;> omega
  · have hvalue := (Tree.allWellFormed_append.mp h).2
    rw [if_neg hempty] at hvalue
    have hlt := Tree.length_bytes_lt hvalue.1
    rw [Tree.text, Tree.length_bytes_primitive] at hlt
    have hpos : c.valueBytes.length ≠ 0 := fun h0 => hempty (List.length_eq_zero_iff.mp h0)
    simp only [Tree.bytesAll_append, List.length_append, hflag, hempty, hpos, if_false,
      Tree.bytesAll, List.append_nil, Tree.text, Tree.length_bytes_primitive]
    apply mod_lengthModulus
    split <;> omega

theorem measure_size {c : Control} (h : c.tree.WellFormed) :
    c.measure.size = c.tree.bytes.length := by
  have hlt := Tree.length_bytes_lt h
  rw [Control.tree, Tree.length_bytes_constructed] at hlt ⊢
  rw [Control.Measure.size, measure_content h.2.2.2]
  apply mod_lengthModulus
  omega

theorem controlsSize_eq {cs : List Control} (h : Tree.AllWellFormed (cs.map Control.tree)) :
    controlsSize (cs.map Control.record) = (Tree.bytesAll (cs.map Control.tree)).length := by
  induction cs with
  | nil => rfl
  | cons c cs ih =>
    have hrest := ih h.2
    simp only [controlsSize, List.map_cons, total_cons, Tree.bytesAll, List.length_append]
      at hrest ⊢
    rw [hrest, Control.record, measure_size h.1]

theorem measureControls_eq {cs : List Control} (h : ∀ c ∈ cs, Oid.isValid c.oid = true) :
    measureControls cs = (cs.map Control.record, none) := by
  induction cs with
  | nil => rfl
  | cons c cs ih =>
    rw [measureControls, h c List.mem_cons_self, ih fun d hd => h d (List.mem_cons_of_mem c hd)]
    rfl

theorem isValid_of_measureControls {cs : List Control} (h : (measureControls cs).2 = none) :
    ∀ c ∈ cs, Oid.isValid c.oid = true := by
  induction cs with
  | nil => exact nofun
  | cons c cs ih =>
    rw [measureControls] at h
    split at h
    · next hvalid =>
      intro d hd
      rcases List.mem_cons.mp hd with rfl | hd
      · exact hvalid
      · exact ih h d hd
    · cases h

/-! ### The layout -/

theorem writes_text (s : Bytes) :
    Layout.Writes (Layout.octets Tag.octetString s) [.text s] :=
  Layout.writes_octets (by decide) rfl s

theorem writes_texts (texts : List Bytes) :
    Layout.Writes (Encoder.texts texts) (texts.map .text) :=
  Layout.writes_flatMap fun s _ => writes_text s

theorem writes_control (c : Control) : Layout.Writes (c.layout (some c.measure)) [c.tree] := by
  have hoid := writes_text c.oid
  have hcritical : Layout.Writes (if c.critical then Layout.boolean Tag.boolean true else [])
      (if c.critical then [.primitive 0x01 [0xFF]] else []) := by
    cases c.critical with
    | false => exact Layout.writes_nil
    | true => exact Layout.writes_boolean (by decide) rfl true
  have hvalue : Layout.Writes
      (if c.measure.value = 0 then [] else Layout.octets Tag.octetString c.valueBytes)
      (if c.valueBytes = [] then [] else [.text c.valueBytes]) := by
    have hmeasure : c.measure.value = 0 ↔ c.valueBytes = [] := List.length_eq_zero_iff
    by_cases hempty : c.valueBytes = []
    · rw [if_pos hempty, if_pos (hmeasure.mpr hempty)]
      exact Layout.writes_nil
    · rw [if_neg hempty, if_neg (mt hmeasure.mp hempty)]
      exact writes_text c.valueBytes
  have hnode : Layout.Writes (Layout.header Tag.sequence c.measure.content ++ _) [c.tree] :=
    ((hoid.append hcritical).append hvalue).node (by decide) rfl measure_content
  have hsame : ¬ c.measure.value ≠ c.valueBytes.length := not_not_intro rfl
  simp only [Control.layout, hsame, if_false, List.append_assoc] at hnode ⊢
  exact hnode

theorem writes_controls (cs : List Control) :
    Layout.Writes ((cs.map Control.record).flatMap Control.Recorded.layout)
      (cs.map Control.tree) := by
  rw [List.flatMap_map]
  exact Layout.writes_flatMap fun c _ => writes_control c

/-- A list is written with a header in front, or not at all if it is empty. -/
theorem writes_optional {α : Type} {as : List α} {l : Layout} {tree : α → Tree} {tag : UInt8}
    {n : Nat} (h : Layout.Writes l (as.map tree)) (hnumber : Tag.number tag ≠ 31)
    (htag : Tag.isConstructed tag = true)
    (hn : Tree.AllWellFormed (as.map tree) → n = (Tree.bytesAll (as.map tree)).length) :
    Layout.Writes (if as.isEmpty then [] else Layout.header tag n ++ l)
      (if as = [] then [] else [.constructed tag (as.map tree)]) := by
  cases as with
  | nil => exact Layout.writes_nil
  | cons a as => exact h.node hnumber htag hn

section
variable {m : Message} {e : Encoder}

theorem writes_result (hm : m.operation.hasResult = true)
    (hoperation : e.operationLength = resultLength m.result)
    (hreferral : e.referralLength = m.referralLength) {tag : UInt8}
    (hnumber : Tag.number tag ≠ 31) (htag : Tag.isConstructed tag = true) :
    Layout.Writes
      (Layout.header tag e.operationLength ++ Layout.integer Tag.enumerated m.result.code ++
        Layout.octets Tag.octetString m.result.matchedDn ++
        Layout.octets Tag.octetString m.result.diagnostic ++
        (if m.result.referrals.isEmpty then []
          else Layout.header referralTag e.referralLength ++ Encoder.texts m.result.referrals))
      [.constructed tag (resultParts m.result)] := by
  have hcode : Layout.Writes (Layout.integer Tag.enumerated m.result.code)
      [.number 0x0A m.result.code] := Layout.writes_integer (by decide) rfl m.result.code
  have hlength : e.referralLength = textsSize m.result.referrals := by
    rw [hreferral, referralLength, if_pos hm]
  have hurls : Layout.Writes _ (referralParts m.result.referrals) :=
    writes_optional (writes_texts m.result.referrals) (by decide) rfl fun _ =>
      hlength.trans (textsSize_eq m.result.referrals)
  have hparts := ((hcode.append (writes_text m.result.matchedDn)).append
    (writes_text m.result.diagnostic)).append hurls
  have hnode := hparts.node hnumber htag fun _ => hoperation.trans (resultLength_eq m.result)
  simp only [List.append_assoc] at hnode ⊢
  exact hnode

/-- The encoder has the lengths of the message. -/
structure Encoder.Measured (e : Encoder) (m : Message) : Prop where
  isMeasured : e.isMeasured = true
  operation : e.operationLength = m.operationTree.content.length
  referral : e.referralLength = m.referralLength
  controls : e.controls = m.controls.map Control.record
  controlsLength : e.controlsLength = controlsSize e.controls
  message : e.messageLength = elementSize (integerLength m.id) + elementSize e.operationLength +
    if e.controls.isEmpty then 0 else elementSize e.controlsLength

theorem writes_operation (he : e.Measured m) (hm : m.Operable) :
    Layout.Writes (e.operation m) [m.operationTree] := by
  have hoperation := he.operation
  rw [Operable] at hm
  rw [operationTree] at hoperation ⊢
  rw [Encoder.operation]
  cases hop : m.operation with
  | none =>
    rw [hop] at hm
    exact hm.elim
  | unbindRequest => exact Layout.writes_empty (by decide) rfl
  | deleteRequest => exact Layout.writes_octets (by decide) rfl m.dn
  | abandonRequest => exact Layout.writes_integer (by decide) rfl m.abandonedId
  | searchResultDone | deleteResponse | compareResponse =>
    rw [hop] at hoperation
    exact writes_result (by rw [hop]; rfl) (hoperation.trans (resultLength_eq m.result).symm)
      he.referral (by decide) rfl
  | searchResultReference =>
    rw [hop] at hoperation
    exact (writes_texts m.urls).node (by decide) rfl fun _ => hoperation

theorem Encoder.Measured.controls_eq (he : e.Measured m)
    (h : Tree.AllWellFormed (m.controls.map Control.tree)) :
    e.controlsLength = (Tree.bytesAll (m.controls.map Control.tree)).length := by
  rw [he.controlsLength, he.controls, controlsSize_eq h]

theorem Encoder.Measured.message_eq (he : e.Measured m) (h : Tree.AllWellFormed m.parts) :
    e.messageLength = (Tree.bytesAll m.parts).length := by
  have hempty : e.controls.isEmpty = m.controls.isEmpty := by
    rw [he.controls, List.isEmpty_map]
  rw [he.message, he.operation, ← length_bytes_operationTree, hempty]
  rw [parts] at h ⊢
  have hcontrols := (Tree.allWellFormed_append.mp h).2
  simp only [List.cons_append, List.nil_append, Tree.bytesAll, List.length_append, Tree.number,
    Tree.length_bytes_primitive, length_integerBytes, Nat.add_assoc]
  congr 2
  rw [controlParts] at hcontrols ⊢
  cases hcs : m.controls with
  | nil => rfl
  | cons c cs =>
    rw [hcs] at hcontrols
    rw [he.controls_eq (hcs ▸ hcontrols.1.2.2.2), hcs]
    simp [Tree.bytesAll, Tree.length_bytes_constructed]

theorem writes_layout (he : e.Measured m) (hm : m.Operable) :
    Layout.Writes (e.layout m) [m.tree] := by
  have hid : Layout.Writes (Layout.integer Tag.integer m.id) [.number 0x02 m.id] :=
    Layout.writes_integer (by decide) rfl m.id
  have hcontrols : Layout.Writes _ (controlParts m.controls) :=
    writes_optional (writes_controls m.controls) (by decide) rfl he.controls_eq
  have hnode : Layout.Writes (Layout.header Tag.sequence e.messageLength ++ _) [m.tree] :=
    ((hid.append (writes_operation he hm)).append hcontrols).node (by decide) rfl he.message_eq
  simp only [Encoder.layout, he.isMeasured, he.controls, List.isEmpty_map, Bool.not_true,
    Bool.false_eq_true, if_false, List.append_assoc] at hnode ⊢
  exact hnode

/-- A message fit to be written is measured. -/
theorem measure_of_writable (h : m.Writable) (before : Encoder) :
    ∃ e, before.measure m = (e, .ok (elementSize e.messageLength)) ∧ e.Measured m := by
  have hoperation := operationLength_eq_ok_iff.mpr ⟨h.operation, rfl⟩
  simp only [Encoder.measure, h.id, hoperation, measureControls_eq h.controls]
  exact ⟨_, rfl, ⟨rfl, rfl, rfl, rfl, rfl, rfl⟩⟩

/-- Only a message fit to be written is measured. -/
theorem writable_of_measure {before : Encoder} {size : Nat}
    (h : before.measure m = (e, .ok size)) : m.Writable := by
  rw [Encoder.measure] at h
  cases hid : isNumber m.id with
  | false => simp [hid] at h
  | true =>
    cases hoperation : m.operationLength with
    | error err => simp [hid, hoperation] at h
    | ok n =>
      cases hcontrols : (measureControls m.controls).2 with
      | some err => simp [hid, hoperation, hcontrols] at h
      | none =>
        exact ⟨hid, (operationLength_eq_ok_iff.mp hoperation).1,
          isValid_of_measureControls hcontrols⟩

/-- With its lengths fixed, the tree of a message is written into the room that they ask for. -/
theorem bytes_layout_eq_ok_iff (he : e.Measured m) (hm : m.Operable) {b : Bytes} :
    (e.layout m).bytes (elementSize e.messageLength) = .ok b ↔
      m.tree.WellFormed ∧ m.tree.bytes = b := by
  refine (writes_layout he hm).bytes_eq_ok_iff fun ht => ?_
  rw [he.message_eq ht.2.2.2, tree, Tree.length_bytes_constructed]

/-- The encoder writes the tree of a message. -/
theorem encode_eq_ok_iff {b : Bytes} :
    encode m = .ok b ↔ m.Writable ∧ m.tree.WellFormed ∧ m.tree.bytes = b := by
  refine ⟨fun h => ?_, fun ⟨hm, ht⟩ => ?_⟩
  · rw [encode] at h
    split at h
    · cases h
    · next e size hmeasure =>
      have hm := writable_of_measure hmeasure
      obtain ⟨e', hmeasure', he⟩ := measure_of_writable hm {}
      rw [hmeasure] at hmeasure'
      cases hmeasure'
      exact ⟨hm, (bytes_layout_eq_ok_iff he hm.operation).mp h⟩
  · obtain ⟨e, hmeasure, he⟩ := measure_of_writable hm {}
    rw [encode, hmeasure]
    exact (bytes_layout_eq_ok_iff he hm.operation).mpr ht

end

end Message

end LdapBer
