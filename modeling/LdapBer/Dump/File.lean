import LdapBer.Decode.Stream
import LdapBer.Dump.Show
import LdapBer.HexBlock
import LdapBer.Message.Encoder
import LdapBer.Message.Grammar

/-! The report on one file.

The file is read in chunks and decoded as a stream. Each message is shown, encoded again and
held against the bytes it was read from. For that a window keeps the bytes that were read
since the start of the message under way. The report ends with the number of messages and
of those that are encoded otherwise, or with the reason why the file was abandoned. -/
namespace LdapBer.Dump

/-- What a read of a file meets: that it cannot be opened, or its bytes and possibly an error
behind the last one. -/
inductive Source where
  | closed (reason : Bytes)
  | opened (content : Bytes) (readError : Option Bytes)
deriving DecidableEq, Repr

structure Settings where
  /-- How many bytes are read at once. -/
  chunk : Nat := 4096
  limit : Option Nat := none
  trace : Bool := false
  hex : Bool := false
deriving DecidableEq, Repr

/-- What the callback of the decoder keeps. `out` holds the parts of the report, the latest
first, and `window` the bytes of the file from `windowStart` on. -/
structure Progress where
  window : Bytes := []
  windowStart : UInt64 := 0
  messageStart : UInt64 := 0
  count : UInt32 := 0
  mismatches : UInt32 := 0
  out : List Bytes := []
deriving DecidableEq, Repr

/-- Why a file is abandoned. -/
inductive Abandonment where
  | cannotOpen (name reason : Bytes)
  | noBuffer (e : BufferError)
  | cannotRead (name reason : Bytes)
  | stream (e : StreamError EncodeError)

def Abandonment.failure : Abandonment → Failure
  | cannotOpen name reason =>
    .reason (ascii "could not open the file " ++ name ++ ascii " for reading: " ++ reason)
  | noBuffer .tooLarge =>
    .reason (ascii "cannot create std::vector larger than max_size()")
  | noBuffer .noMemory => .reason Buffer.noMemoryText
  | cannotRead name reason =>
    .reason (ascii "error reading " ++ name ++ ascii ": " ++ reason)
  | stream (.decode e) => e.failure
  | stream (.callback e) => .reason e.message
  | stream .unusable => .reason StreamError.unusableText

namespace Progress

def say (p : Progress) (s : Bytes) : Progress :=
  {p with out := s :: p.out}

/-- The report so far. -/
def text (p : Progress) : Bytes :=
  p.out.reverse.flatten

/-- The bytes of the message that ends at `stop`. -/
def received (p : Progress) (stop : UInt64) : Bytes :=
  (p.window.drop (p.messageStart - p.windowStart).toNat).take (stop - p.messageStart).toNat

/-- Holds the encoding of a message against the bytes it was read from. -/
def compare (hex : Bool) (m : Message) (encoded received : Bytes) (p : Progress) : Progress :=
  let p := if hex then p.say (HexBlock.render (ascii "   pdu") 4 encoded) else p
  if encoded = received then p
  else
    {p with mismatches := p.mismatches + 1}.say
      (line (ascii "   the encoding of message " ++ decimalInt m.id ++
          ascii " differs from the input") ++
        HexBlock.render (ascii "   read   ") 4 received ++
        HexBlock.render (ascii "   encoded") 4 encoded)

/-- Takes a message that ends at `stop`. -/
def take (hex : Bool) : Callback Message Progress EncodeError := fun stop m p =>
  let p := {p with count := p.count + 1}.say (showMessage m)
  match m.encode with
  | .error e => (p, some e)
  | .ok encoded => ({compare hex m encoded (p.received stop) p with messageStart := stop}, none)

def appendChunk (p : Progress) (chunk : Bytes) : Progress :=
  {p with window := p.window ++ chunk}

/-- Drops the messages that are complete from the window. -/
def slide (p : Progress) : Progress :=
  {p with
    window := p.window.drop (p.messageStart - p.windowStart).toNat
    windowStart := p.messageStart}

end Progress

/-- The chunks in which a file is read. A chunk of no bytes ends the reading at once. -/
def chunks (n : Nat) (s : Bytes) : List Bytes :=
  if n = 0 ∨ s = [] then [] else s.take n :: chunks n (s.drop n)
termination_by s.length
decreasing_by
  rename_i h
  have : s.length ≠ 0 := fun h0 => h (Or.inr (List.length_eq_zero_iff.mp h0))
  simp only [List.length_drop]
  omega

abbrev FileDecoder := Decoder Message.State Message Progress EncodeError

def FileDecoder.new (settings : Settings) : FileDecoder :=
  Decoder.new Message.grammar settings.limit (some (Progress.take settings.hex))

/-- The decoding of a file: where it stands, the trace and, if it was abandoned, why. -/
structure Decoding where
  decoder : FileDecoder
  progress : Progress
  events : List (Event Message.State)
  error : Option (StreamError EncodeError)

def decodeChunks (d : FileDecoder) (p : Progress) : List Bytes → Decoding
  | [] => ⟨d, p, [], none⟩
  | chunk :: rest =>
    let (d, reply) := d.decode chunk (p.appendChunk chunk)
    match reply.error with
    | some e => ⟨d, reply.state, reply.events, some e⟩
    | none =>
      let decoding := decodeChunks d reply.state.slide rest
      {decoding with events := reply.events ++ decoding.events}

/-- A single read takes a number of 32 bits. -/
def readModulus : Nat := 0x100000000

/-- Decodes a file if there is a buffer for its chunks. A read error strikes when all bytes before
it were decoded. -/
def decodeSource (settings : Settings) (name : Bytes) (source : Source) :
    Decoding × Option Abandonment :=
  let decoder := FileDecoder.new settings
  let unread : Decoding := ⟨decoder, {}, [], none⟩
  match source with
  | .closed reason => (unread, some (.cannotOpen name reason))
  | .opened content readError =>
    match Buffer.refusal settings.chunk with
    | some e => (unread, some (.noBuffer e))
    | none =>
      let size := settings.chunk % readModulus
      let decoding := decodeChunks decoder {} (chunks size content)
      match decoding.error, readError with
      | some e, _ => (decoding, some (.stream e))
      | none, some reason =>
        if size = 0 then (decoding, none) else (decoding, some (.cannotRead name reason))
      | none, none =>
        (decoding, (decoding.decoder.finish.2).map Abandonment.stream)

/-- The report on a file, its trace and whether every message was encoded as it was read. -/
structure FileReport where
  out : Bytes
  trace : Bytes
  isClean : Bool
deriving DecidableEq, Repr

def summary (name : Bytes) (p : Progress) : Option Abandonment → Bytes
  | some a =>
    line (name ++ ascii s!": decoding abandoned after {p.count} messages") ++ a.failure.explain
  | none =>
    line (name ++ ascii s!": {p.count} messages, {p.mismatches} encoding differences")

def dumpFile (settings : Settings) (name : Bytes) (source : Source) : FileReport :=
  let (decoding, abandoned) := decodeSource settings name source
  let p := decoding.progress
  { out := line (name ++ ascii ":") ++ p.text ++ summary name p abandoned
    trace := if settings.trace then Event.lines Message.grammar decoding.events else []
    isClean := abandoned.isNone && p.mismatches == 0 }

end LdapBer.Dump
