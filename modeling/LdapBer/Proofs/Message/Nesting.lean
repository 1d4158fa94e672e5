import LdapBer.Proofs.Decode.Nesting
import LdapBer.Proofs.Message.Steps
import LdapBer.SortRequest

/-! What is open while a message is decoded.

A message is nested three elements deep at most, and its state tells which elements are open. Some
actions store into the control, or into the sort key, that was begun last. They are called only
where one has been begun (`nested_of_session`). -/
namespace LdapBer

theorem modifyLast_ne_nil {α : Type} {f : α → α} {l : List α} (h : l ≠ []) :
    modifyLast f l ≠ [] := by
  obtain rfl | ⟨init, a, rfl⟩ := l.eq_nil_or_concat
  · exact absurd rfl h
  · rw [List.concat_eq_append, modifyLast_concat]
    exact List.concat_ne_nil _ _

/-! ### Messages -/

namespace Message

/-- The states in which the elements around a state were opened, the innermost first. -/
def enclosing : State → List State
  | .start => []
  | .message | .messageId | .opDone | .done => [.message]
  | .result | .resultCode | .matchedDn | .diagnostic | .resultDone => [.result, .message]
  | .referral | .referralUrl => [.referral, .result, .message]
  | .reference | .referenceUrl => [.reference, .message]
  | .controls | .controlsNext => [.controls, .message]
  | .control | .controlType | .criticality | .controlValue => [.control, .controls, .message]

theorem enclosing_of_mem_row (s : State) : ∀ entry ∈ row s,
    enclosing entry.2.next =
      if Tag.isConstructed entry.1 then entry.2.next :: enclosing s else enclosing s := by
  cases s <;> decide

theorem nested_grammar : grammar.Nested enclosing where
  start := rfl
  transition ht := enclosing_of_mem_row _ _ (hasRows.transition_eq_some_iff.mp ht)
  close {s} _ _ h := by cases s <;> cases h <;> rfl

/-- The actions that store into the control that was begun last. -/
def controlActions : List (Action State Message) :=
  [storeControlType, storeCriticality, storeControlValue]

/-- Two dots are no identifier, no boolean and no name, but they are a number and a value, so what
is made of them tells the actions that store into a control from all others. -/
theorem control_of_sample (s : State) : ∀ entry ∈ row s,
    let taken := sample ⟨⟨Tag.octetString, 2, 0, 2⟩, [0x2E, 0x2E], []⟩ {controls := [{}]}
    taken entry.2.action ∈ controlActions.map (fun act => taken (some act)) →
      .control ∈ enclosing s := by
  cases s <;> decide +kernel

theorem action_of_control (s : State) : ∀ entry ∈ row s, .control ∈ enclosing entry.2.next →
    entry.2.action = some beginControl ∨
      .control ∈ enclosing s ∧ ∃ act ∈ controlActions, entry.2.action = some act := by
  cases s <;> simp [row, enclosing, controlActions]

theorem controls_of_controlAction {act : Action State Message} (hmem : act ∈ controlActions)
    {e : Element State} {m m' : Message} {b : Bool} (h : act e m = .ok (m', b))
    (hm : m.controls ≠ []) : m'.controls ≠ [] := by
  simp only [controlActions, List.mem_cons, List.not_mem_nil, or_false] at hmem
  rcases hmem with rfl | rfl | rfl
  · rw [storeControlType] at h
    split at h
    · cases h
      exact modifyLast_ne_nil hm
    · cases h
  · rw [storeCriticality] at h
    split at h
    · cases h
      exact modifyLast_ne_nil hm
    · cases h
  · cases h
    exact modifyLast_ne_nil hm

/-- Inside a control there is one that was begun last. -/
theorem stores_controls :
    grammar.Stores (fun s => .control ∈ enclosing s) (fun m => m.controls ≠ []) beginControl
      controlActions where
  start := nofun
  enter ht := action_of_control _ _ (hasRows.transition_eq_some_iff.mp ht)
  close {opened close} hclose := by cases opened <;> cases hclose <;> decide
  only {s tag t act} ht hmem haction :=
    control_of_sample s _ (hasRows.transition_eq_some_iff.mp ht) (sample_mem hmem haction _ _)
  begins h := by
    cases h
    exact List.concat_ne_nil _ _
  keeps hmem h hm := controls_of_controlAction hmem h hm

end Message

/-! ### Sort requests -/

namespace SortRequest

/-- The states of a key whose attribute type has been read. -/
def keyStates : List State :=
  [.attributeType, .orderingRule, .reverseOrder]

/-- The actions that store into the key that was begun last. -/
def keyActions : List (Action State SortRequest) :=
  [storeOrderingRule, storeReverseOrder]

theorem keyState_of_sample (s : State) : ∀ entry ∈ row s,
    let taken := sample ⟨⟨Tag.octetString, 2, 0, 2⟩, [0x2E, 0x2E], []⟩ {}
    taken entry.2.action ∈ keyActions.map (fun act => taken (some act)) → s ∈ keyStates := by
  cases s <;> decide +kernel

theorem action_of_keyState (s : State) : ∀ entry ∈ row s, entry.2.next ∈ keyStates →
    entry.2.action = some addKey ∨
      s ∈ keyStates ∧ ∃ act ∈ keyActions, entry.2.action = some act := by
  cases s <;> simp [row, keyStates, keyActions]

theorem keys_of_keyAction {act : Action State SortRequest} (hmem : act ∈ keyActions)
    {e : Element State} {r r' : SortRequest} {b : Bool} (h : act e r = .ok (r', b))
    (hr : r.keys ≠ []) : r'.keys ≠ [] := by
  simp only [keyActions, List.mem_cons, List.not_mem_nil, or_false] at hmem
  rcases hmem with rfl | rfl
  · cases h
    exact modifyLast_ne_nil hr
  · rw [storeReverseOrder] at h
    split at h
    · cases h
      exact modifyLast_ne_nil hr
    · cases h

/-- Behind an attribute type there is a key that was begun last. -/
theorem stores_keys :
    grammar.Stores (fun s => s ∈ keyStates) (fun r => r.keys ≠ []) addKey keyActions where
  start := by decide
  enter ht := action_of_keyState _ _ (hasRows.transition_eq_some_iff.mp ht)
  close {opened close} hclose := by
    cases opened <;> cases hclose
    decide
  only {s tag t act} ht hmem haction :=
    keyState_of_sample s _ (hasRows.transition_eq_some_iff.mp ht) (sample_mem hmem haction _ _)
  begins h := by
    rw [addKey] at h
    split at h
    · cases h
    · cases h
      exact List.concat_ne_nil _ _
  keeps hmem h hr := keys_of_keyAction hmem h hr

end SortRequest

/-! ### Sessions -/

/-- **The state of a message and what is open agree.** Where the engine waits, the state tells which
elements are open, and never are more than three. What is stored into a control, or into a sort
key, finds one that was begun. -/
theorem nested_of_session :
    (∀ {limit : Option Nat} {start : Nat} {message : Bytes} {c : Container Message.State Message},
      Session Message.grammar limit start message c → ∀ s : Bytes,
        let o := advance Message.grammar limit c s
        o.status = .needMore →
          o.container.frames.map Frame.opened = Message.enclosing o.container.state) ∧
    (∀ {limit : Option Nat} {c : Container Message.State Message} {s : Bytes},
      Reaches Message.grammar limit (c, s) → c.frames.length ≤ 3) ∧
    (∀ {limit : Option Nat} {t : Transition Message.State Message} {e : Element Message.State}
      {m : Message}, Acts Message.grammar limit t e m →
        ∀ act ∈ Message.controlActions, t.action = some act → m.controls ≠ []) ∧
    ∀ {limit : Option Nat} {t : Transition SortRequest.State SortRequest}
      {e : Element SortRequest.State} {r : SortRequest}, Acts SortRequest.grammar limit t e r →
        ∀ act ∈ SortRequest.keyActions, t.action = some act → r.keys ≠ [] := by
  refine ⟨fun h s hwaits => ?_, fun h => ?_, fun h act => ?_, fun h act => ?_⟩
  · exact Message.nested_grammar.opened_of_waits h hwaits
  · have hplaced := Message.nested_grammar.invariant.reaches h
    exact hplaced.length_le fun s => by cases s <;> decide
  · exact Message.stores_controls.begun_of_acts h
  · exact SortRequest.stores_keys.begun_of_acts h

/-- A message that stops short of the type of its control and a sort request that stops short of an
ordering rule. Both are stored when they come. -/
theorem nested_of_session_control :
    let o := advance Message.grammar none (.fresh Message.grammar 0)
      [0x30, 0x0E, 0x02, 0x01, 0x01, 0x42, 0x00, 0xA0, 0x07, 0x30, 0x05, 0x04]
    let p := advance SortRequest.grammar none (.fresh SortRequest.grammar 0)
      [0x30, 0x08, 0x30, 0x06, 0x04, 0x01, 0x61, 0x80, 0x01]
    o.container.frames.map Frame.opened = [.control, .controls, .message] ∧
      o.container.frames.length ≤ 3 ∧
      (∃ e, Acts Message.grammar none ⟨.controlType, some Message.storeControlType⟩ e
        o.container.message ∧ o.container.message.controls ≠ []) ∧
      ∃ e, Acts SortRequest.grammar none ⟨.orderingRule, some SortRequest.storeOrderingRule⟩ e
        p.container.message ∧ p.container.message.keys ≠ [] := by
  intro o p
  have hwaits : o.status = .needMore := by decide +kernel
  have hcontainer : o.container =
      ⟨{id := 1, operation := .unbindRequest, controls := [{}]}, .control,
        [⟨.control, 16⟩, ⟨.controls, 16⟩, ⟨.message, 16⟩], false, true, 11⟩ := by decide +kernel
  have hsession : Session Message.grammar none 0 _ o.container :=
    .input .begin _ fun e => hwaits ▸ nofun
  have hacts : Acts Message.grammar none ⟨.controlType, some Message.storeControlType⟩
      ⟨⟨0x04, 3, 11, 2⟩, [0x31, 0x2E, 0x32], o.container.frames⟩ o.container.message := by
    refine ⟨o.container, [0x04, 0x03, 0x31, 0x2E, 0x32], [], .rounds hsession _ .refl, ?_⟩
    rw [hcontainer]
    exact ⟨rfl, rfl, rfl, rfl⟩
  have hwaits' : p.status = .needMore := by decide +kernel
  have hcontainer' : p.container =
      ⟨⟨[{attributeType := [0x61]}]⟩, .attributeType, [⟨.key, 10⟩, ⟨.keyList, 10⟩], true, true,
        7⟩ := by decide +kernel
  have hsession' : Session SortRequest.grammar none 0 _ p.container :=
    .input .begin _ fun e => hwaits' ▸ nofun
  have hacts' : Acts SortRequest.grammar none ⟨.orderingRule, some SortRequest.storeOrderingRule⟩
      ⟨⟨0x80, 1, 7, 2⟩, [0x62], p.container.frames⟩ p.container.message := by
    refine ⟨p.container, [0x80, 0x01, 0x62], [], .rounds hsession' _ .refl, ?_⟩
    rw [hcontainer']
    exact ⟨rfl, rfl, rfl, rfl⟩
  obtain ⟨hopened, hdepth, hcontrols, hkeys⟩ := nested_of_session
  have hopened := hopened .begin _ hwaits
  refine ⟨?_, hdepth (.rounds hsession [] .refl), ⟨_, hacts, ?_⟩, _, hacts', ?_⟩
  · rw [hcontainer] at hopened ⊢
    exact hopened
  · exact hcontrols hacts _ List.mem_cons_self rfl
  · exact hkeys hacts' _ List.mem_cons_self rfl

end LdapBer
