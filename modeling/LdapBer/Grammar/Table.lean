import LdapBer.Grammar

/-! Grammars given as tables.

The states of a table are numbers, the message is the list of the elements that were met,
and the actions come from a fixed stock. Of two entries for the same place the later one
counts, and an entry that leads nowhere takes the earlier ones back. -/
namespace LdapBer

/-- An element that was met. The value is absent if it is constructed. -/
structure Record where
  tag : UInt8
  offset : UInt64
  length : Nat
  depth : Nat
  value : Option Bytes
deriving DecidableEq, Repr

def Element.record {σ : Type} (e : Element σ) : Record :=
  ⟨e.header.tag, e.header.offset, e.header.length, e.frames.length,
    if e.header.isConstructed then none else some e.value⟩

/-- The stock of actions. -/
inductive Deed where
  /-- Nothing happens. -/
  | pass
  /-- The element is recorded. -/
  | record
  /-- The element is recorded and the one around it may end. -/
  | finish
  /-- The content is refused. -/
  | refuse
  /-- The frame is rejected where the element starts. -/
  | reject
  /-- The content has to be `ok`, and then the element around it may end. -/
  | expectOk
  /-- The content has to be an integer from -100 to 100; then as `finish`. -/
  | expectInteger
deriving DecidableEq, Repr

def Deed.action : Deed → Option (Action Nat (List Record))
  | pass => none
  | record => some fun e m => .ok (m ++ [e.record], false)
  | finish => some fun e m => .ok (m ++ [e.record], true)
  | refuse => some fun e _ => .error (.refuse (.rejected e.value.length))
  | reject => some fun e _ => .error (.reject (.rejectedFrame e.header.offset))
  | expectOk => some fun e m =>
    if e.value = ascii "ok" then .ok (m, true) else .error (.refuse .notOk)
  | expectInteger => some fun e m =>
    match readInteger (-100) 100 e.value with
    | .ok _ => .ok (m ++ [e.record], true)
    | .error err => .error (.refuse (.content err))

/-- An entry for the tag in state `source`. -/
structure TableTransition where
  source : Nat
  tag : UInt8
  target : Option Nat
  deed : Deed
deriving DecidableEq, Repr

structure TableClose where
  opened : Nat
  target : Option Nat
  endAllowed : Bool
deriving DecidableEq, Repr

structure Table where
  name : Bytes
  stateNames : List Bytes
  start : Nat
  transitions : List TableTransition
  closes : List TableClose
deriving DecidableEq, Repr

namespace Table

/-- The last entry for a state and a tag, if it leads anywhere. -/
def transition (t : Table) (state : Nat) (tag : UInt8) : Option (Transition Nat (List Record)) :=
  match t.transitions.reverse.find? fun e => e.source == state && e.tag == tag with
  | some e => e.target.map fun next => ⟨next, e.deed.action⟩
  | none => none

def close (t : Table) (opened : Nat) : Option (Close Nat) :=
  match t.closes.reverse.find? fun e => e.opened == opened with
  | some e => e.target.map fun next => ⟨next, e.endAllowed⟩
  | none => none

/-- Names in a table end at a NUL. -/
def grammar (t : Table) : Grammar Nat (List Record) where
  name := untilNul t.name
  blank := []
  start := t.start
  states := List.range t.stateNames.length
  label s := ⟨s, ((t.stateNames[s]?).map untilNul).getD Grammar.unnamed⟩
  transition := t.transition
  close := t.close

end Table

end LdapBer
