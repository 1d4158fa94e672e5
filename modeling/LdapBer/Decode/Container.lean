import LdapBer.Grammar

/-! The state of a decode.

Between two elements a decode holds the message so far, the state of the grammar, the
constructed elements that are open and the position in the stream. `settle` closes the
elements that end at this position; each has to be allowed to end when its turn comes. -/
namespace LdapBer

/-- Frames are listed from the innermost outwards. -/
structure Container (σ M : Type) where
  message : M
  state : σ
  frames : List (Frame σ)
  endAllowed : Bool
  started : Bool
  offset : UInt64
deriving DecidableEq, Repr

/-- What a trace tells: a transition taken, or a close. -/
inductive Event (σ : Type) where
  | moved (source target : σ) (header : Header)
  | closed (opened target : σ) (offset : UInt64)
deriving DecidableEq, Repr

namespace Event
variable {σ M : Type}

def line (g : Grammar σ M) : Event σ → Bytes
  | moved source target h =>
    g.name ++ ascii ": " ++ g.stateName source ++ ascii " -> " ++ g.stateName target ++
      ascii " tag " ++ hexByte h.tag ++ ascii s!" length {h.length} at offset {h.offset}\n"
  | closed opened target offset =>
    g.name ++ ascii ": close " ++ g.stateName opened ++ ascii " -> " ++ g.stateName target ++
      ascii s!" at offset {offset}\n"

def lines (g : Grammar σ M) (events : List (Event σ)) : Bytes :=
  events.flatMap (line g)

end Event

/-- A container after closing what ends at its position. -/
structure Settled (σ M : Type) where
  container : Container σ M
  events : List (Event σ)
  error : Option DecodeError

namespace Container
variable {σ M : Type}

/-- A decode that has not met its first element. -/
def fresh (g : Grammar σ M) (offset : UInt64) : Container σ M :=
  ⟨g.blank, g.start, [], false, false, offset⟩

/-- Drops the message. The position is kept. -/
def reset (g : Grammar σ M) (c : Container σ M) : Container σ M :=
  fresh g c.offset

/-- Closes those of the frames that end at the position, from the innermost outwards. -/
def closeFrames (g : Grammar σ M) (c : Container σ M) : List (Frame σ) → Settled σ M
  | [] => ⟨{c with frames := []}, [], none⟩
  | frame :: outer =>
    if frame.stop = c.offset then
      if c.endAllowed then
        match g.close frame.opened with
        | none => closeFrames g c outer
        | some close =>
          let settled :=
            closeFrames g {c with state := close.next, endAllowed := close.endAllowed} outer
          {settled with events := .closed frame.opened close.next c.offset :: settled.events}
      else
        ⟨{c with frames := frame :: outer}, [],
          some (.endNotAllowed g.name (g.stateName frame.opened) (g.label c.state) c.offset)⟩
    else ⟨{c with frames := frame :: outer}, [], none⟩

def settle (g : Grammar σ M) (c : Container σ M) : Settled σ M :=
  closeFrames g c c.frames

/-- A message that was started is complete when nothing is open. -/
def isComplete (c : Container σ M) : Bool :=
  c.started && c.frames.isEmpty

end Container

end LdapBer
