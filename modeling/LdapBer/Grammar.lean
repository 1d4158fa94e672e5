import LdapBer.DecodeError

/-! Grammars of messages.

A grammar says for each state which tags may come next, where they lead and what they do to
the message. An action sees one element and may change the message, allow the element around
it to end here, or object; it touches nothing else of a decode. When a constructed element
ends the state stays, unless the grammar has a close for the state in which the element was
opened. -/
namespace LdapBer

/-- A constructed element being decoded: the state when it was opened and the position where
it ends. -/
structure Frame (σ : Type) where
  opened : σ
  stop : UInt64
deriving DecidableEq, Repr

/-- What an action sees: the header, the value of a primitive element (a constructed one has
none yet) and the constructed elements that are open around it, the innermost first. -/
structure Element (σ : Type) where
  header : Header
  value : Bytes
  frames : List (Frame σ)
deriving DecidableEq, Repr

/-- An action refuses the content, and the decode says where, or it rejects with an error that
is located already. -/
inductive Objection where
  | refuse (r : Refusal)
  | reject (e : DecodeError)
deriving DecidableEq, Repr

/-- An action returns the message and whether the element around it may end here. -/
abbrev Action (σ M : Type) := Element σ → M → Except Objection (M × Bool)

structure Transition (σ M : Type) where
  next : σ
  action : Option (Action σ M)

structure Close (σ : Type) where
  next : σ
  endAllowed : Bool
deriving DecidableEq, Repr

structure Grammar (σ M : Type) where
  name : Bytes
  /-- The message before its first element. -/
  blank : M
  start : σ
  states : List σ
  label : σ → StateLabel
  transition : σ → UInt8 → Option (Transition σ M)
  close : σ → Option (Close σ)

namespace Grammar
variable {σ M : Type}

/-- Names of states stand for themselves; what has no name is shown so. -/
def unnamed : Bytes :=
  ascii "?"

def stateName (g : Grammar σ M) (s : σ) : Bytes :=
  (g.label s).name

def tags : List UInt8 :=
  (List.range 256).map (·.toUInt8)

/-- All transitions, by state and tag. -/
def transitions (g : Grammar σ M) : List (σ × UInt8 × Transition σ M) :=
  g.states.flatMap fun s => tags.filterMap fun t => (g.transition s t).map fun tr => (s, t, tr)

/-- All closes, by the state in which the element was opened. -/
def closes (g : Grammar σ M) : List (σ × Close σ) :=
  g.states.filterMap fun s => (g.close s).map fun cl => (s, cl)

end Grammar

/-- Changes the item of a list that was begun last, if there is one. -/
def modifyLast {α : Type} (f : α → α) (l : List α) : List α :=
  l.dropLast ++ (l.getLast?.map f).toList

@[simp] theorem modifyLast_concat {α : Type} (f : α → α) (l : List α) (a : α) :
    modifyLast f (l ++ [a]) = l ++ [f a] := by
  simp [modifyLast]

/-- What a transition without an action does: the message stays and no end is allowed. -/
def Transition.act {σ M : Type} (t : Transition σ M) : Action σ M :=
  t.action.getD fun _ m => .ok (m, false)

end LdapBer
