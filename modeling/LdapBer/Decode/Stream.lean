import LdapBer.Decode.Advance

/-! Decoding a stream of messages.

A decoder is fed chunks of any size. Each message is handed to the callback when its last
byte has come, together with the position behind it; the callback keeps a state of its own
and may fail. What no element has taken yet is pending and comes before the next chunk.
After a failure the decoder refuses to go on until it is reset. -/
namespace LdapBer

/-- A callback gets the position behind a message, the message and its own state. -/
abbrev Callback (M S ε : Type) := UInt64 → M → S → S × Option ε

/-- Why a call of a decoder fails. `ε` is what a callback fails with. -/
inductive StreamError (ε : Type) where
  | decode (e : DecodeError)
  | callback (e : ε)
  | unusable
deriving DecidableEq, Repr

def StreamError.unusableText : Bytes :=
  ascii "the decoder failed and has not been reset"

structure Decoder (σ M S ε : Type) where
  grammar : Grammar σ M
  limit : Option Nat
  callback : Option (Callback M S ε)
  container : Container σ M
  pending : Bytes
  isFailed : Bool

/-- What a call tells its caller: the state of the callback, the trace and, if it failed, why. -/
structure Reply (σ S ε : Type) where
  state : S
  events : List (Event σ)
  error : Option (StreamError ε)

/-- What a run over the input leaves: the container, the bytes that no element has taken and
what a call tells its caller. -/
structure Fed (σ M S ε : Type) where
  container : Container σ M
  rest : Bytes
  state : S
  events : List (Event σ)
  error : Option (StreamError ε)

section
variable {σ M S ε : Type}

def Fed.after (events : List (Event σ)) (f : Fed σ M S ε) : Fed σ M S ε :=
  {f with events := events ++ f.events}

/-- Hands a message to the callback, if there is one. -/
def notify (callback : Option (Callback M S ε)) (c : Container σ M) (state : S) :
    S × Option ε :=
  match callback with
  | some f => f c.offset c.message state
  | none => (state, none)

/-- What bounds the messages that are still to come: a message takes input, except that one
which was started before may be complete at once. -/
def todo (c : Container σ M) (s : Bytes) : Nat :=
  2 * s.length + c.started.toNat

theorem todo_reset_lt {g : Grammar σ M} {limit : Option Nat} {c c' : Container σ M}
    {s rest : Bytes} {events : List (Event σ)}
    (ha : advance g limit c s = ⟨c', rest, events, .done⟩) :
    todo (c'.reset g) rest < todo c s := by
  have hle := length_le_of_advance g limit c s
  rw [ha] at hle
  unfold todo
  cases hc : c.started with
  | true =>
    simp only [Container.reset, Container.fresh, Bool.toNat_false, Bool.toNat_true] at hle ⊢
    omega
  | false =>
    have hlt := length_lt_of_advance_done hc (congrArg Outcome.status ha)
    rw [ha] at hlt
    simp only [Container.reset, Container.fresh, Bool.toNat_false] at hlt ⊢
    omega

/-- Decodes message after message until the input runs out or something fails. -/
def feed (g : Grammar σ M) (limit : Option Nat) (callback : Option (Callback M S ε))
    (c : Container σ M) (s : Bytes) (state : S) : Fed σ M S ε :=
  match ha : advance g limit c s with
  | ⟨c', rest, events, .needMore⟩ => ⟨c', rest, state, events, none⟩
  | ⟨c', rest, events, .failed e⟩ => ⟨c', rest, state, events, some (.decode e)⟩
  | ⟨c', rest, events, .done⟩ =>
    match notify callback c' state with
    | (state, some e) => ⟨c', rest, state, events, some (.callback e)⟩
    | (state, none) =>
      have := todo_reset_lt ha
      (feed g limit callback (c'.reset g) rest state).after events
termination_by todo c s

namespace Decoder

def new (g : Grammar σ M) (limit : Option Nat) (callback : Option (Callback M S ε)) :
    Decoder σ M S ε :=
  ⟨g, limit, callback, .fresh g 0, [], false⟩

def setCallback (d : Decoder σ M S ε) (callback : Option (Callback M S ε)) : Decoder σ M S ε :=
  {d with callback := callback}

/-- Drops the pending bytes and the message and clears a failure. Positions count from 0 again. -/
def reset (d : Decoder σ M S ε) : Decoder σ M S ε :=
  {d with
    container := {d.container.reset d.grammar with offset := 0}
    pending := []
    isFailed := false}

theorem reset_eq_new (d : Decoder σ M S ε) : d.reset = new d.grammar d.limit d.callback := rfl

/-- Feeds a chunk. A failure that strikes while bytes were pending leaves them pending, together
with the chunk; otherwise the chunk is dropped. -/
def decode (d : Decoder σ M S ε) (chunk : Bytes) (state : S) :
    Decoder σ M S ε × Reply σ S ε :=
  if d.isFailed then (d, ⟨state, [], some .unusable⟩)
  else
    let input := d.pending ++ chunk
    let fed := feed d.grammar d.limit d.callback d.container input state
    let pending :=
      if fed.error.isNone then fed.rest
      else if d.pending.isEmpty then []
      else input
    ({d with container := fed.container, pending := pending, isFailed := fed.error.isSome},
      ⟨fed.state, fed.events, fed.error⟩)

/-- Declares the end of the input, which has to fall between two messages. -/
def finish (d : Decoder σ M S ε) : Decoder σ M S ε × Option (StreamError ε) :=
  if d.isFailed then (d, some .unusable)
  else if d.container.started then
    ({d with isFailed := true},
      some (.decode (.incompleteMessage d.grammar.name (d.grammar.label d.container.state)
        d.container.offset)))
  else if d.pending.isEmpty then (d, none)
  else
    ({d with isFailed := true},
      some (.decode (.incompleteElement d.grammar.name d.pending.length d.container.offset)))

end Decoder

end

end LdapBer
