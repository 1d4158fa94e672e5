import LdapBer.Decode.Advance

/-! Decoding a byte string that holds one message. -/
namespace LdapBer
variable {σ M : Type}

/-- Judges how far a decode from the start came in `size` bytes: the message has to be complete
and nothing may be left. -/
def Outcome.whole (g : Grammar σ M) (size : Nat) (o : Outcome σ M) : Except DecodeError M :=
  match o.status with
  | .failed e => .error e
  | .needMore =>
    if o.container.started then
      .error (.truncatedMessage g.name (g.label o.container.state) size.toUInt64)
    else .error (.truncated g.name size.toUInt64)
  | .done =>
    if o.rest.isEmpty then .ok o.container.message
    else
      .error (.trailingBytes g.name o.rest.length (size - o.rest.length).toUInt64)

/-- A decode of a byte string from the start of a message. -/
def Grammar.run (g : Grammar σ M) (limit : Option Nat) (s : Bytes) : Outcome σ M :=
  advance g limit (.fresh g 0) s

/-- The message that a byte string holds, all of it. -/
def Grammar.decode (g : Grammar σ M) (limit : Option Nat) (s : Bytes) : Except DecodeError M :=
  (g.run limit s).whole g s.length

end LdapBer
