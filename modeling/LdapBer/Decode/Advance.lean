import LdapBer.Decode.Container

/-! Decoding what is there.

`advance` takes elements off the front of the input until the message is complete, the input
runs out or something is wrong. It works in rounds: close what ends here, then act on the
next header. A header that is cut short, or a primitive value that is, stays in the input.
Every round that goes on leaves less input than it found (`length_lt_of_round`). -/
namespace LdapBer

inductive Status where
  | needMore
  | done
  | failed (e : DecodeError)
deriving DecidableEq, Repr

/-- How far a decode came: what it holds, the bytes that are left and what happened. -/
structure Outcome (σ M : Type) where
  container : Container σ M
  rest : Bytes
  events : List (Event σ)
  status : Status

def Outcome.after {σ M : Type} (events : List (Event σ)) (o : Outcome σ M) : Outcome σ M :=
  {o with events := events ++ o.events}

/-- A round ends the decode or goes on with the next one. -/
inductive Round (σ M : Type) where
  | more (container : Container σ M) (rest : Bytes) (events : List (Event σ))
  | halt (outcome : Outcome σ M)

section
variable {σ M : Type}

/-- A top level element is held against the limit, any other against the frame around it. -/
def checkFits (limit : Option Nat) (frames : List (Frame σ)) (h : Header) :
    Except DecodeError Unit :=
  match frames with
  | [] =>
    match limit with
    | some n => if h.length > n then .error (.pduTooLong h.length n h.offset) else .ok ()
    | none => .ok ()
  | frame :: _ =>
    if h.valueEnd > frame.stop then .error (.beyondContainer h.valueEnd frame.stop h.offset)
    else .ok ()

/-- The next element, the transition it takes and the input behind it: behind the value of a
primitive element and behind the header of a constructed one. -/
def nextElement (g : Grammar σ M) (limit : Option Nat) (c : Container σ M) (s : Bytes) :
    Except DecodeError (Option (Transition σ M × Element σ × Bytes)) :=
  match Header.read c.offset s with
  | .error e => .error (.header e)
  | .ok none => .ok none
  | .ok (some (h, rest)) =>
    match checkFits limit c.frames h with
    | .error e => .error e
    | .ok () =>
      match g.transition c.state h.tag with
      | none => .error (.unexpectedTag g.name h.tag (g.label c.state) h.offset)
      | some t =>
        if h.isConstructed then .ok (some (t, ⟨h, [], c.frames⟩, rest))
        else
          match splitExact h.length rest with
          | none => .ok none
          | some (value, rest) => .ok (some (t, ⟨h, value, c.frames⟩, rest))

/-- An objection as an error of the decode. -/
def Objection.located (g : Grammar σ M) (next : σ) (h : Header) : Objection → DecodeError
  | .refuse r => .refused g.name h.tag (g.stateName next) h.offset r
  | .reject e => e

/-- Acts on an element. A primitive element at the top level is a whole message, so it has to
allow the end itself. -/
def enter (g : Grammar σ M) (c : Container σ M) (t : Transition σ M) (e : Element σ)
    (rest : Bytes) : Round σ M :=
  let moved : Event σ := .moved c.state t.next e.header
  let entered := {c with state := t.next, endAllowed := false, started := true}
  match t.act e c.message with
  | .error o => .halt ⟨entered, rest, [moved], .failed (o.located g t.next e.header)⟩
  | .ok (message, endAllowed) =>
    let acted := {entered with message := message, endAllowed := endAllowed}
    if e.header.isConstructed then
      let frame := ⟨t.next, e.header.valueEnd⟩
      .more {acted with frames := frame :: c.frames, offset := e.header.valueOffset} rest [moved]
    else
      let passed := {acted with offset := e.header.valueEnd}
      if c.frames.isEmpty then
        if endAllowed then .halt ⟨passed, rest, [moved], .done⟩
        else
          .halt ⟨passed, rest, [moved],
            .failed (.endNotAllowed g.name (ascii "top level") (g.label t.next) passed.offset)⟩
      else .more passed rest [moved]

def Round.after (events : List (Event σ)) : Round σ M → Round σ M
  | .more c rest es => .more c rest (events ++ es)
  | .halt o => .halt (o.after events)

def round (g : Grammar σ M) (limit : Option Nat) (c : Container σ M) (s : Bytes) : Round σ M :=
  let settled := c.settle g
  let c := settled.container
  match settled.error with
  | some e => .halt ⟨c, s, settled.events, .failed e⟩
  | none =>
    if c.isComplete then .halt ⟨c, s, settled.events, .done⟩
    else
      match nextElement g limit c s with
      | .error e => .halt ⟨c, s, settled.events, .failed e⟩
      | .ok none => .halt ⟨c, s, settled.events, .needMore⟩
      | .ok (some (t, e, rest)) => (enter g c t e rest).after settled.events

theorem length_lt_of_nextElement {g : Grammar σ M} {limit : Option Nat} {c : Container σ M}
    {s rest : Bytes} {t : Transition σ M} {e : Element σ}
    (h : nextElement g limit c s = .ok (some (t, e, rest))) : rest.length < s.length := by
  unfold nextElement at h
  split at h
  · cases h
  · cases h
  · next hd rest' hr =>
    have hlen := Header.length_of_read hr
    have hsize := Header.two_le_size_of_read hr
    split at h
    · cases h
    · split at h
      · cases h
      · split at h
        · cases h
          omega
        · split at h
          · cases h
          · next hs =>
            cases h
            obtain ⟨rfl, _⟩ := splitExact_eq_some_iff.mp hs
            simp only [List.length_append] at hlen
            omega

/-- Acting on an element leaves the input behind it as it is. -/
theorem rest_of_enter_more {g : Grammar σ M} {c c' : Container σ M} {t : Transition σ M}
    {e : Element σ} {rest rest' : Bytes} {events : List (Event σ)}
    (h : enter g c t e rest = .more c' rest' events) : rest' = rest := by
  unfold enter at h
  dsimp only at h
  split at h
  · cases h
  · split at h
    · cases h
      rfl
    · split at h
      · split at h <;> cases h
      · cases h
        rfl

theorem rest_of_enter_halt {g : Grammar σ M} {c : Container σ M} {t : Transition σ M}
    {e : Element σ} {rest : Bytes} {o : Outcome σ M}
    (h : enter g c t e rest = .halt o) : o.rest = rest := by
  unfold enter at h
  dsimp only at h
  split at h
  · cases h
    rfl
  · split at h
    · cases h
    · split at h
      · split at h
        · cases h
          rfl
        · cases h
          rfl
      · cases h

theorem length_lt_of_round {g : Grammar σ M} {limit : Option Nat} {c c' : Container σ M}
    {s rest : Bytes} {events : List (Event σ)}
    (h : round g limit c s = .more c' rest events) : rest.length < s.length := by
  unfold round at h
  dsimp only at h
  split at h
  · cases h
  · split at h
    · cases h
    · split at h
      · cases h
      · cases h
      · next t e rest' hn =>
        cases he : enter g (c.settle g).container t e rest' with
        | halt o =>
          rw [he] at h
          cases h
        | more c₁ r₁ es₁ =>
          rw [he] at h
          cases h
          rw [rest_of_enter_more he]
          exact length_lt_of_nextElement hn

/-- Takes elements off the input until the message is complete or more input is needed. -/
def advance (g : Grammar σ M) (limit : Option Nat) (c : Container σ M) (s : Bytes) :
    Outcome σ M :=
  match hr : round g limit c s with
  | .halt o => o
  | .more c rest events =>
    have := length_lt_of_round hr
    (advance g limit c rest).after events
termination_by s.length

theorem started_closeFrames (g : Grammar σ M) (c : Container σ M) (frames : List (Frame σ)) :
    (c.closeFrames g frames).container.started = c.started := by
  induction frames generalizing c with
  | nil => rfl
  | cons frame outer ih =>
    unfold Container.closeFrames
    split
    · split
      · split
        · exact ih c
        · exact ih _
      · rfl
    · rfl

theorem length_le_of_advance (g : Grammar σ M) (limit : Option Nat) (c : Container σ M)
    (s : Bytes) : (advance g limit c s).rest.length ≤ s.length := by
  fun_induction advance g limit c s with
  | case1 c s o ho =>
    unfold round at ho
    dsimp only at ho
    split at ho
    · cases ho
      exact Nat.le_refl _
    · split at ho
      · cases ho
        exact Nat.le_refl _
      · split at ho
        · cases ho
          exact Nat.le_refl _
        · cases ho
          exact Nat.le_refl _
        · next t e rest hn =>
          cases he : enter g (c.settle g).container t e rest with
          | more c₁ r₁ es₁ =>
            rw [he] at ho
            cases ho
          | halt o₁ =>
            rw [he] at ho
            cases ho
            have hr : o₁.rest = rest := rest_of_enter_halt he
            have := length_lt_of_nextElement hn
            simp only [Outcome.after, hr]
            omega
  | case2 c s c' rest events hr hlt ih =>
    simp only [Outcome.after]
    omega

/-- A message that had not started takes some input until it is complete. -/
theorem length_lt_of_advance_done {g : Grammar σ M} {limit : Option Nat} {c : Container σ M}
    {s : Bytes} (hc : c.started = false) (hd : (advance g limit c s).status = .done) :
    (advance g limit c s).rest.length < s.length := by
  unfold advance at hd ⊢
  split at hd
  · next o ho =>
    unfold round at ho
    dsimp only at ho
    split at ho
    · cases ho
      cases hd
    · split at ho
      · next hcomplete =>
        have := started_closeFrames g c c.frames
        rw [hc] at this
        simp [Container.isComplete, Container.settle, this] at hcomplete
      · split at ho
        · cases ho
          cases hd
        · cases ho
          cases hd
        · next t e rest hn =>
          cases he : enter g (c.settle g).container t e rest with
          | more c₁ r₁ es₁ =>
            rw [he] at ho
            cases ho
          | halt o₁ =>
            rw [he] at ho
            cases ho
            simp only [Outcome.after, rest_of_enter_halt he]
            exact length_lt_of_nextElement hn
  · next c' rest events hr =>
    have hlt := length_lt_of_round hr
    have hle := length_le_of_advance g limit c' rest
    simp only [Outcome.after]
    omega

end

end LdapBer
