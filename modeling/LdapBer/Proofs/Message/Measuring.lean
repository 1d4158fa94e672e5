import LdapBer.Message.Encoder
import LdapBer.Proofs.Ber.Writer

/-! Messages that change between measuring and writing.

A message and its encoder go through changes, measurements and writing in any order. A measurement
that fails leaves an encoder with the size that was measured before (`lastSize_measure`), so what
counts behind a whole history is the last measurement that succeeded, not the last one
(`lastSize_run`). Writing is refused if there is none. Otherwise the message is written as it is
now, with the controls that the encoder refers to, behind the length that was measured then, unless
something in it has become too large or the value of such a control has another size
(`encode_by_lastSize`). -/
namespace LdapBer

/-! ### Reasons in a layout -/

/-- Nothing but a length of more than four bytes is a reason not to write the layout. -/
def Layout.OnlyTooLarge (l : Layout) : Prop :=
  ∀ e, .error e ∈ l → ∃ n, 0xFFFFFFFF < n ∧ e = .lengthTooLarge n

namespace Layout

theorem onlyTooLarge_nil : OnlyTooLarge [] :=
  nofun

theorem OnlyTooLarge.append {l l' : Layout} (h : l.OnlyTooLarge) (h' : l'.OnlyTooLarge) :
    (l ++ l').OnlyTooLarge := by
  intro e he
  rcases List.mem_append.mp he with he | he
  · exact h e he
  · exact h' e he

theorem OnlyTooLarge.ite {c : Prop} [Decidable c] {l l' : Layout} (h : l.OnlyTooLarge)
    (h' : l'.OnlyTooLarge) : OnlyTooLarge (if c then l else l') := by
  split
  · exact h
  · exact h'

theorem onlyTooLarge_flatMap {α : Type} {layout : α → Layout} {as : List α}
    (h : ∀ a ∈ as, (layout a).OnlyTooLarge) : OnlyTooLarge (as.flatMap layout) := by
  intro e he
  obtain ⟨a, ha, he⟩ := List.mem_flatMap.mp he
  exact h a ha e he

theorem onlyTooLarge_header (tag : UInt8) (n : Nat) : OnlyTooLarge (header tag n) :=
  fun _ he => ⟨n, error_mem_header_iff.mp he⟩

theorem onlyTooLarge_octets (tag : UInt8) (value : Bytes) : OnlyTooLarge (octets tag value) :=
  fun _ he => ⟨value.length, error_mem_octets_iff.mp he⟩

theorem onlyTooLarge_integer (tag : UInt8) (v : Int) : OnlyTooLarge (integer tag v) := by
  rw [integer_eq_octets]
  exact onlyTooLarge_octets tag (integerBytes v)

end Layout

namespace Control.Recorded

/-- A control is written by the lengths that it had if its value has kept its size. -/
theorem onlyTooLarge_layout {r : Recorded} (h : r.control.valueBytes.length = r.measure.value) :
    r.layout.OnlyTooLarge := by
  have hhead := (Layout.onlyTooLarge_header Tag.sequence r.measure.content).append
    (Layout.onlyTooLarge_octets Tag.octetString r.control.oid)
  have hcritical : Layout.OnlyTooLarge
      (if r.control.critical then Layout.boolean Tag.boolean true else []) :=
    (Layout.onlyTooLarge_octets Tag.boolean [0xFF]).ite Layout.onlyTooLarge_nil
  have hvalue := Layout.onlyTooLarge_octets Tag.octetString r.control.valueBytes
  rw [layout, Control.layout, if_neg (not_not.mpr h.symm)]
  exact (hhead.append hcritical).append (Layout.onlyTooLarge_nil.ite hvalue)

theorem error_mem_layout {r : Recorded} (h : r.control.valueBytes.length ≠ r.measure.value) :
    .error (.controlValueChanged r.control.valueBytes.length r.measure.value) ∈ r.layout := by
  rw [layout, Control.layout, if_pos h.symm]
  exact List.mem_cons_self

end Control.Recorded

namespace Message

namespace Encoder

variable {e : Encoder} {m : Message}

theorem onlyTooLarge_texts (ts : List Bytes) : (texts ts).OnlyTooLarge :=
  Layout.onlyTooLarge_flatMap fun t _ => Layout.onlyTooLarge_octets Tag.octetString t

theorem onlyTooLarge_result (tag : UInt8) (n k : Nat) (r : Result) :
    Layout.OnlyTooLarge
      (Layout.header tag n ++ Layout.integer Tag.enumerated r.code ++
        Layout.octets Tag.octetString r.matchedDn ++ Layout.octets Tag.octetString r.diagnostic ++
        (if r.referrals.isEmpty then []
          else Layout.header referralTag k ++ texts r.referrals)) := by
  have hcode := (Layout.onlyTooLarge_header tag n).append
    (Layout.onlyTooLarge_integer Tag.enumerated r.code)
  have hmatchedDn := hcode.append (Layout.onlyTooLarge_octets Tag.octetString r.matchedDn)
  have hdiagnostic := hmatchedDn.append (Layout.onlyTooLarge_octets Tag.octetString r.diagnostic)
  have hreferrals := (Layout.onlyTooLarge_header referralTag k).append
    (onlyTooLarge_texts r.referrals)
  exact hdiagnostic.append (Layout.onlyTooLarge_nil.ite hreferrals)

theorem onlyTooLarge_operation (e : Encoder) (m : Message) : (e.operation m).OnlyTooLarge := by
  rw [operation]
  cases m.operation with
  | none => exact Layout.onlyTooLarge_nil
  | unbindRequest => exact Layout.onlyTooLarge_header _ 0
  | deleteRequest => exact Layout.onlyTooLarge_octets _ m.dn
  | abandonRequest => exact Layout.onlyTooLarge_integer _ m.abandonedId
  | searchResultDone | deleteResponse | compareResponse =>
    exact onlyTooLarge_result _ e.operationLength e.referralLength m.result
  | searchResultReference =>
    exact (Layout.onlyTooLarge_header _ e.operationLength).append (onlyTooLarge_texts m.urls)

/-- All reasons not to write a message that was measured are lengths, if the values of the controls
have kept their sizes. -/
theorem onlyTooLarge_layout (hmeasured : e.isMeasured = true)
    (hsizes : ∀ r ∈ e.controls, r.control.valueBytes.length = r.measure.value) :
    (e.layout m).OnlyTooLarge := by
  have hhead := (Layout.onlyTooLarge_header Tag.sequence e.messageLength).append
    (Layout.onlyTooLarge_integer Tag.integer m.id)
  have hcontrols := (Layout.onlyTooLarge_header controlsTag e.controlsLength).append
    (Layout.onlyTooLarge_flatMap fun r hr => Control.Recorded.onlyTooLarge_layout (hsizes r hr))
  rw [layout, hmeasured]
  exact (hhead.append (onlyTooLarge_operation e m)).append
    (Layout.onlyTooLarge_nil.ite hcontrols)

/-- A control whose value has another size is a reason not to write the message. -/
theorem error_mem_layout {r : Control.Recorded} (hr : r ∈ e.controls)
    (hne : r.control.valueBytes.length ≠ r.measure.value) : ∃ err, .error err ∈ e.layout m := by
  cases hmeasured : e.isMeasured with
  | false =>
    rw [layout, hmeasured]
    exact ⟨_, List.mem_cons_self⟩
  | true =>
    have hcontrols : e.controls.isEmpty = false :=
      List.isEmpty_eq_false_iff_exists_mem.mpr ⟨r, hr⟩
    rw [layout, hmeasured, hcontrols]
    exact ⟨_, List.mem_append_right _ (List.mem_append_right _
      (List.mem_flatMap.mpr ⟨r, hr, Control.Recorded.error_mem_layout hne⟩))⟩

/-! ### What an encoder remembers -/

/-- The size that was measured last, by what is left of it. -/
def lastSize (e : Encoder) : Option Nat :=
  if e.isMeasured then some (elementSize e.messageLength) else none

theorem lastSize_eq_none_iff : e.lastSize = none ↔ e.isMeasured = false := by
  rw [lastSize]
  cases e.isMeasured <;> simp

/-- A measurement that fails does not make the encoder forget the one before. -/
theorem lastSize_measure (e : Encoder) (m : Message) :
    (e.measure m).1.lastSize = (e.measure m).2.toOption.or e.lastSize := by
  rw [measure]
  cases hid : isNumber m.id with
  | false => rfl
  | true =>
    cases hoperation : m.operationLength with
    | error err => rfl
    | ok n =>
      cases hcontrols : (measureControls m.controls).2 with
      | some err => simp [hcontrols, lastSize, Except.toOption]
      | none => simp [hcontrols, lastSize, Except.toOption]

end Encoder

/-! ### Histories -/

/-- A message together with its encoder. -/
structure Encoding where
  message : Message
  encoder : Encoder := {}

namespace Encoding

/-- What can be done next: to change the message, to measure it or to write it. Behind a change
`shown i` is what the `i`th of the controls is that the encoder refers to, be it still in the
message or moved out of it. For a control that the change has destroyed it is anything: writing is
undefined then, until the encoder refers to other controls. -/
inductive Call where
  | change (m : Message) (shown : Nat → Control)
  | measure
  | encode (w : Writer)

def encode (s : Encoding) (w : Writer) : Writer × Option EncodeError :=
  w.write (s.encoder.layout s.message)

/-- Writing does not change what an encoder remembers. -/
def step (s : Encoding) : Call → Encoding
  | .change m shown => {message := m, encoder := s.encoder.refer shown}
  | .measure => {s with encoder := (s.encoder.measure s.message).1}
  | .encode _ => s

def run (s : Encoding) : List Call → Encoding
  | [] => s
  | c :: calls => run (s.step c) calls

/-- The answers of the measurements, in their order. -/
def sizes (s : Encoding) : List Call → List (Except EncodeError Nat)
  | [] => []
  | .measure :: calls => (s.encoder.measure s.message).2 :: sizes (s.step .measure) calls
  | c :: calls => sizes (s.step c) calls

/-- The answer of the last measurement that succeeded. -/
def lastSize (s : Encoding) (calls : List Call) : Option Nat :=
  ((s.sizes calls).filterMap Except.toOption).getLast?

/-- An encoder remembers the last measurement that succeeded, whatever has happened since. -/
theorem lastSize_run (s : Encoding) (calls : List Call) :
    (s.run calls).encoder.lastSize = (s.lastSize calls).or s.encoder.lastSize := by
  induction calls generalizing s with
  | nil => rfl
  | cons c calls ih =>
    cases c with
    | change m shown => exact ih (s.step (.change m shown))
    | encode w => exact ih s
    | measure =>
      have hstep : (s.step .measure).encoder.lastSize =
          (s.encoder.measure s.message).2.toOption.or s.encoder.lastSize :=
        Encoder.lastSize_measure s.encoder s.message
      have hlast : s.lastSize (.measure :: calls) =
          ((s.step .measure).lastSize calls).or (s.encoder.measure s.message).2.toOption := by
        rw [lastSize, sizes, List.filterMap_cons]
        cases (s.encoder.measure s.message).2 with
        | error err => exact (Option.or_none).symm
        | ok size => exact List.getLast?_cons.trans Option.or_some.symm
      rw [run, ih, hstep, hlast, Option.or_assoc]

section
variable {s : Encoding}

/-- Nothing is written before a measurement has succeeded. -/
theorem encode_of_unmeasured (h : s.encoder.lastSize = none) (w : Writer) :
    s.encode w = (w, some .messageUnmeasured) := by
  rw [encode, Encoder.layout, Encoder.lastSize_eq_none_iff.mp h]
  rfl

theorem refused_iff :
    (∀ w, (s.encode w).2 ≠ none) ↔
      s.encoder.lastSize = none ∨
        (∃ r ∈ s.encoder.controls, r.control.valueBytes.length ≠ r.measure.value) ∨
        ∃ w n, 0xFFFFFFFF < n ∧ (s.encode w).2 = some (.lengthTooLarge n) := by
  refine ⟨fun h => ?_, fun h => ?_⟩
  · by_cases hlast : s.encoder.lastSize = none
    · exact .inl hlast
    by_cases hresized : ∃ r ∈ s.encoder.controls, r.control.valueBytes.length ≠ r.measure.value
    · exact .inr (.inl hresized)
    have hsizes : ∀ r ∈ s.encoder.controls, r.control.valueBytes.length = r.measure.value := by
      simpa using hresized
    obtain ⟨room, hroom⟩ := Layout.exists_room (s.encoder.layout s.message)
    obtain ⟨err, herr⟩ := Option.ne_none_iff_exists'.mp (h ⟨[], room⟩)
    have hmem := hroom _ err (Nat.le_refl room) herr
    have hmeasured : s.encoder.isMeasured = true := by
      simpa [Encoder.lastSize_eq_none_iff] using hlast
    obtain ⟨n, hn, rfl⟩ := Encoder.onlyTooLarge_layout hmeasured hsizes err hmem
    exact .inr (.inr ⟨_, n, hn, herr⟩)
  · rcases h with hlast | ⟨r, hr, hne⟩ | ⟨w, n, -, herr⟩
    · intro w
      rw [encode_of_unmeasured hlast]
      nofun
    · exact Layout.refused_iff.mpr (Encoder.error_mem_layout hr hne)
    · obtain ⟨_, _, hoverrun⟩ | hmem := Layout.error_of_write herr
      · cases hoverrun
      · exact Layout.refused_iff.mpr ⟨_, hmem⟩

/-- What is written starts with the length that was measured. -/
theorem header_of_encode {w w' : Writer} (h : s.encode w = (w', none)) :
    ∃ n behind, s.encoder.lastSize = some (elementSize n) ∧
      w'.out = w.out ++ (Header.bytes Tag.sequence n ++ behind) := by
  obtain ⟨b, hspells, -, rfl⟩ := Layout.write_eq_none_iff.mp h
  cases hmeasured : s.encoder.isMeasured with
  | false =>
    rw [Encoder.layout, hmeasured] at hspells
    exact absurd hspells Layout.not_spells_error
  | true =>
    rw [Encoder.layout, hmeasured] at hspells
    simp only [Bool.not_true, Bool.false_eq_true, if_false, List.append_assoc,
      Layout.spells_append, Layout.spells_header] at hspells
    obtain ⟨_, behind, ⟨-, rfl⟩, -, rfl⟩ := hspells
    exact ⟨s.encoder.messageLength, behind, if_pos hmeasured, rfl⟩

end

/-- **Writing goes by the last measurement that succeeded.** Let a message be changed, measured and
written in any order. If no measurement has succeeded, writing is refused and nothing is written. In
all it is refused whatever the room exactly if that is so, if the value of a control that the
encoder refers to has another size than when it was measured or if a length takes more than four
bytes: whether the last measurement failed does not come into it. And what is written starts with
the length that was measured last with success, not with one of the message as it is. -/
theorem encode_by_lastSize (m : Message) (calls : List Call) :
    let s := run ⟨m, {}⟩ calls
    let size := lastSize ⟨m, {}⟩ calls
    (size = none → ∀ w, s.encode w = (w, some .messageUnmeasured)) ∧
      ((∀ w, (s.encode w).2 ≠ none) ↔
        size = none ∨
          (∃ r ∈ s.encoder.controls, r.control.valueBytes.length ≠ r.measure.value) ∨
          ∃ w n, 0xFFFFFFFF < n ∧ (s.encode w).2 = some (.lengthTooLarge n)) ∧
      ∀ w w', s.encode w = (w', none) →
        ∃ n behind, size = some (elementSize n) ∧
          w'.out = w.out ++ (Header.bytes Tag.sequence n ++ behind) := by
  intro s size
  have hsize : size = s.encoder.lastSize :=
    ((lastSize_run ⟨m, {}⟩ calls).trans Option.or_none).symm
  rw [hsize]
  exact ⟨encode_of_unmeasured, refused_iff, fun w w' => header_of_encode⟩

/-- A delete request that is given a longer name and an id that is refused: it is written with the
length that it had. -/
theorem encode_by_lastSize_deletion :
    let m : Message := {id := 1, operation := .deleteRequest, dn := [0x61]}
    let changed : Message := {m with id := -1, dn := [0x61, 0x62]}
    let calls : List Call := [.measure, .change changed fun _ => {}, .measure]
    let out : Bytes := [0x30, 0x06, 0x02, 0x01, 0xFF, 0x4A, 0x02, 0x61, 0x62]
    sizes ⟨m, {}⟩ calls = [.ok 8, .error (.messageId (-1))] ∧
      (run ⟨m, {}⟩ calls).encode ⟨[], 9⟩ = (⟨out, 0⟩, none) ∧
      (∃ n behind, elementSize n = 8 ∧ out = Header.bytes Tag.sequence n ++ behind) ∧
      ∀ w, (run ⟨m, {}⟩ []).encode w = (w, some .messageUnmeasured) := by
  intro m changed calls out
  have hwrite : (run ⟨m, {}⟩ calls).encode ⟨[], 9⟩ = (⟨out, 0⟩, none) := by decide
  obtain ⟨-, -, hheader⟩ := encode_by_lastSize m calls
  obtain ⟨n, behind, hn, hout⟩ := hheader _ _ hwrite
  obtain ⟨hunmeasured, -⟩ := encode_by_lastSize m []
  exact ⟨by decide, hwrite, ⟨n, behind, (Option.some.inj hn).symm, hout⟩, hunmeasured rfl⟩

/-- A control that is moved out of the message is written all the same. -/
example :
    let c : Control := {oid := [0x31, 0x2E, 0x32]}
    let m : Message := {id := 1, operation := .unbindRequest, controls := [c]}
    let out : Bytes := [0x30, 0x0E, 0x02, 0x01, 0x01, 0x42, 0x00, 0xA0, 0x07] ++
      [0x30, 0x05, 0x04, 0x03, 0x31, 0x2E, 0x32]
    (run ⟨m, {}⟩ [.measure, .change {m with controls := []} fun _ => c]).encode ⟨[], 16⟩ =
      (⟨out, 0⟩, none) := by
  decide

/-- A measurement that fails does not always keep the message from being written. -/
theorem not_all_failures_refuse :
    ¬ ∀ (m : Message) (calls : List Call) (err : EncodeError),
      (sizes ⟨m, {}⟩ calls).getLast? = some (.error err) →
        ∀ w, ((run ⟨m, {}⟩ calls).encode w).2 ≠ none := by
  intro h
  let changed : Message := {id := -1, operation := .deleteRequest, dn := [0x61, 0x62]}
  have hrefused := h {id := 1, operation := .deleteRequest, dn := [0x61]}
    [.measure, .change changed fun _ => {}, .measure] (.messageId (-1)) (by decide) ⟨[], 9⟩
  exact hrefused (by decide)

end Encoding

end Message

end LdapBer
