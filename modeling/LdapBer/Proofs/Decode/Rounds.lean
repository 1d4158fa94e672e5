import LdapBer.Decode.Advance
import LdapBer.Proofs.Ber.Length

/-! What a round can come to.

A round stops in front of the next element or acts on it, and then the element ends the decode with
an error, is passed, or completes the message (`round_effect`). An element that is acted on has been
taken off the input and has its place in the grammar (`inFront_of_nextElement`), and one that is
waited for is not all there (`short_of_nextElement`). All that is said of the engine elsewhere is
read off these three. -/
namespace LdapBer
variable {σ M : Type}

namespace Container

/-- A container behind an element, or behind the header of a constructed one, which is open now. -/
def passElement (c : Container σ M) (t : Transition σ M) (e : Element σ) (message : M)
    (endAllowed : Bool) : Container σ M :=
  if e.header.isConstructed then
    ⟨message, t.next, ⟨t.next, e.header.valueEnd⟩ :: c.frames, endAllowed, true,
      e.header.valueOffset⟩
  else ⟨message, t.next, c.frames, endAllowed, true, e.header.valueEnd⟩

section
variable (c : Container σ M) (t : Transition σ M) (e : Element σ) (m : M) (b : Bool)

@[simp] theorem started_passElement : (c.passElement t e m b).started = true := by
  rw [passElement]
  split <;> rfl

@[simp] theorem state_passElement : (c.passElement t e m b).state = t.next := by
  rw [passElement]
  split <;> rfl

@[simp] theorem message_passElement : (c.passElement t e m b).message = m := by
  rw [passElement]
  split <;> rfl

end

end Container

section
variable {g : Grammar σ M} {limit : Option Nat}

/-- An element in front of the engine: what is taken of it, and that it has its place. -/
structure InFront (g : Grammar σ M) (limit : Option Nat) (c : Container σ M) (s : Bytes)
    (t : Transition σ M) (e : Element σ) (rest : Bytes) : Prop where
  number : Tag.number e.header.tag ≠ 31
  transition : g.transition c.state e.header.tag = some t
  offset : e.header.offset = c.offset
  fits : checkFits limit c.frames e.header = .ok ()
  bytes : ∃ field, LengthField e.header.length field ∧ e.header.size = 1 + field.length ∧
    s = e.header.tag :: (field ++ e.value) ++ rest
  value : if e.header.isConstructed then e.value = [] else e.value.length = e.header.length

theorem inFront_of_nextElement {c : Container σ M} {s rest : Bytes} {t : Transition σ M}
    {e : Element σ} (h : nextElement g limit c s = .ok (some (t, e, rest))) :
    InFront g limit c s t e rest := by
  unfold nextElement at h
  split at h
  · cases h
  · cases h
  · next hd rest' hr =>
    obtain ⟨field, hfield, hnumber, hoffset, hsize, rfl⟩ := Header.field_of_read hr
    split at h
    · cases h
    · next hfits =>
      split at h
      · cases h
      · next tr htr =>
        split at h
        · next hconstructed =>
          cases h
          exact ⟨hnumber, htr, hoffset, hfits, ⟨field, hfield, hsize, by simp⟩,
            by rw [if_pos hconstructed]⟩
        · next hprimitive =>
          split at h
          · cases h
          · next value rest'' hs =>
            cases h
            obtain ⟨rfl, hlength⟩ := splitExact_eq_some_iff.mp hs
            exact ⟨hnumber, htr, hoffset, hfits, ⟨field, hfield, hsize, by simp⟩,
              by rw [if_neg hprimitive, hlength]⟩

/-- What there is of an element that the engine waits for: a part of the header, or the header of a
primitive element that fits and has its place, and a part of the value. -/
theorem short_of_nextElement {c : Container σ M} {s : Bytes}
    (h : nextElement g limit c s = .ok none) :
    Header.read c.offset s = .ok none ∨
      ∃ hd value t, Header.read c.offset s = .ok (some (hd, value)) ∧
        checkFits limit c.frames hd = .ok () ∧ g.transition c.state hd.tag = some t ∧
        hd.isConstructed = false ∧ value.length < hd.length := by
  unfold nextElement at h
  split at h
  · cases h
  · next hr => exact .inl hr
  · next hd value hr =>
    split at h
    · cases h
    · next hfits =>
      split at h
      · cases h
      · next t ht =>
        split at h
        · cases h
        · next hprimitive =>
          split at h
          · next hs =>
            exact .inr ⟨hd, value, t, hr, hfits, ht, eq_false_of_ne_true hprimitive,
              splitExact_eq_none_iff.mp hs⟩
          · cases h

/-- What can be wrong with an element that is entered: the action objects to it, or it is all of the
message and does not allow the end. -/
inductive EntryFault (g : Grammar σ M) (c : Container σ M) (t : Transition σ M) (e : Element σ) :
    DecodeError → Prop
  | content {o : Objection} (hact : t.act e c.message = .error o) :
      EntryFault g c t e (o.located g t.next e.header)
  | unended (hprimitive : e.header.isConstructed = false) :
      EntryFault g c t e
        (.endNotAllowed g.name (ascii "top level") (g.label t.next) e.header.valueEnd)

/-- An element ends the decode with an error, or its action leads behind it. At the top level a
primitive element is the end of a message. -/
theorem enter_cases (c : Container σ M) (t : Transition σ M) (e : Element σ) (rest : Bytes) :
    (∃ o err, enter g c t e rest = .halt o ∧ o.status = .failed err ∧
      o.container.started = true ∧ EntryFault g c t e err) ∨
      ∃ m b events, t.act e c.message = .ok (m, b) ∧
        (enter g c t e rest = .more (c.passElement t e m b) rest events ∨
          enter g c t e rest = .halt ⟨c.passElement t e m b, rest, events, .done⟩ ∧
            (c.passElement t e m b).isComplete = true) := by
  cases hact : t.act e c.message with
  | error o =>
    simp only [enter, hact]
    exact .inl ⟨_, _, rfl, rfl, rfl, .content hact⟩
  | ok acted =>
    obtain ⟨m, b⟩ := acted
    simp only [enter, hact, Container.passElement]
    by_cases hconstructed : e.header.isConstructed = true
    · simp only [hconstructed, if_true]
      exact .inr ⟨m, b, _, rfl, .inl rfl⟩
    · simp only [hconstructed]
      cases hframes : c.frames with
      | cons frame outer => exact .inr ⟨m, b, _, rfl, .inl rfl⟩
      | nil =>
        cases b with
        | false => exact .inl ⟨_, _, rfl, rfl, rfl, .unended (eq_false_of_ne_true hconstructed)⟩
        | true => exact .inr ⟨m, true, _, rfl, .inr ⟨rfl, rfl⟩⟩

/-- What can be wrong in a round: a frame may not end here, there is no element to act on, or there
is something wrong with the element. -/
inductive Fault (g : Grammar σ M) (limit : Option Nat) (c : Container σ M) (s : Bytes) :
    DecodeError → Prop
  | close {err : DecodeError} (herror : (c.settle g).error = some err) : Fault g limit c s err
  | element {err : DecodeError}
      (hnext : nextElement g limit (c.settle g).container s = .error err) : Fault g limit c s err
  | entry {t : Transition σ M} {e : Element σ} {rest : Bytes} {err : DecodeError}
      (hnext : nextElement g limit (c.settle g).container s = .ok (some (t, e, rest)))
      (hentry : EntryFault g (c.settle g).container t e err) : Fault g limit c s err

/-- What a round comes to, in front of the input `s`. -/
inductive RoundEffect (g : Grammar σ M) (limit : Option Nat) (c : Container σ M) (s : Bytes) :
    Round σ M → Prop
  | stops {status : Status}
      (hdone : status = .done → (c.settle g).container.isComplete = true)
      (hwaits : status = .needMore →
        (c.settle g).error = none ∧ (c.settle g).container.isComplete = false ∧
          nextElement g limit (c.settle g).container s = .ok none)
      (hfault : ∀ err, status = .failed err → Fault g limit c s err) :
      RoundEffect g limit c s (.halt ⟨(c.settle g).container, s, (c.settle g).events, status⟩)
  | fails {o : Outcome σ M} {err : DecodeError} (hstarted : o.container.started = true)
      (hstatus : o.status = .failed err) (hfault : Fault g limit c s err) :
      RoundEffect g limit c s (.halt o)
  | passes {t : Transition σ M} {e : Element σ} {rest : Bytes} {m : M} {b : Bool}
      {events : List (Event σ)} (hopen : (c.settle g).container.isComplete = false)
      (hnext : nextElement g limit (c.settle g).container s = .ok (some (t, e, rest)))
      (hact : t.act e (c.settle g).container.message = .ok (m, b)) :
      RoundEffect g limit c s (.more ((c.settle g).container.passElement t e m b) rest events)
  | completes {t : Transition σ M} {e : Element σ} {rest : Bytes} {m : M} {b : Bool}
      {events : List (Event σ)} (hopen : (c.settle g).container.isComplete = false)
      (hnext : nextElement g limit (c.settle g).container s = .ok (some (t, e, rest)))
      (hact : t.act e (c.settle g).container.message = .ok (m, b))
      (hcomplete : ((c.settle g).container.passElement t e m b).isComplete = true) :
      RoundEffect g limit c s
        (.halt ⟨(c.settle g).container.passElement t e m b, rest, events, .done⟩)

theorem round_effect (g : Grammar σ M) (limit : Option Nat) (c : Container σ M) (s : Bytes) :
    RoundEffect g limit c s (round g limit c s) := by
  unfold round
  dsimp only
  split
  · next err herror =>
    refine .stops nofun nofun fun _ h => ?_
    cases h
    exact .close herror
  · next hsettle =>
    split
    · next hcomplete => exact .stops (fun _ => hcomplete) nofun nofun
    · next hincomplete =>
      have hopen : (c.settle g).container.isComplete = false := eq_false_of_ne_true hincomplete
      split
      · next err hnext =>
        refine .stops nofun nofun fun _ h => ?_
        cases h
        exact .element hnext
      · next hnext => exact .stops nofun (fun _ => ⟨hsettle, hopen, hnext⟩) nofun
      · next t e rest hnext =>
        obtain ⟨o, err, henter, hstatus, hstarted, hentry⟩ |
          ⟨m, b, events, hact, henter | henter⟩ :=
            enter_cases (g := g) (c.settle g).container t e rest
        · rw [henter]
          exact .fails hstarted hstatus (.entry hnext hentry)
        · rw [henter]
          exact .passes hopen hnext hact
        · rw [henter.1]
          exact .completes hopen hnext hact henter.2

end

end LdapBer
