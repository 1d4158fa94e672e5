import LdapBer.Decode.Advance
import LdapBer.Proofs.Ber.Length

/-! Trees of elements and what a grammar makes of them.

A byte string of nested elements is a tree by its constructed bits and lengths alone
(`Tree.WellFormed`). The walk of a grammar visits the tree from the left: an element takes the
transition of its tag and acts on the message; a constructed one then has its children visited,
has to be allowed to end and is closed. This is what a grammar means, told by recursion instead
of offsets and a stack. -/
namespace LdapBer

/-- An element with the bytes of its length field. -/
inductive Tree where
  | leaf (tag : UInt8) (field value : Bytes)
  | node (tag : UInt8) (field : Bytes) (children : List Tree)

namespace Tree

mutual

def bytes : Tree → Bytes
  | leaf tag field value => tag :: (field ++ value)
  | node tag field children => tag :: (field ++ bytesAll children)

def bytesAll : List Tree → Bytes
  | [] => []
  | t :: ts => bytes t ++ bytesAll ts

end

mutual

/-- Tags have one byte and tell leaves from nodes, and every element is as long as it says. -/
def WellFormed : Tree → Prop
  | leaf tag field value =>
    Tag.number tag ≠ 31 ∧ Tag.isConstructed tag = false ∧ LengthField value.length field
  | node tag field children =>
    Tag.number tag ≠ 31 ∧ Tag.isConstructed tag = true ∧
      LengthField (bytesAll children).length field ∧ AllWellFormed children

def AllWellFormed : List Tree → Prop
  | [] => True
  | t :: ts => WellFormed t ∧ AllWellFormed ts

end

def tag : Tree → UInt8
  | leaf tag _ _ | node tag _ _ => tag

def isNode : Tree → Bool
  | leaf .. => false
  | node .. => true

/-- The bytes behind the header. -/
def content : Tree → Bytes
  | leaf _ _ value => value
  | node _ _ children => bytesAll children

/-- The header of an element that starts at `offset`. -/
def header (offset : UInt64) : Tree → Header
  | leaf tag field value => ⟨tag, value.length, offset, 1 + field.length⟩
  | node tag field children => ⟨tag, (bytesAll children).length, offset, 1 + field.length⟩

/-- What an action sees of an element: of a constructed one the header only. -/
def element {σ : Type} (offset : UInt64) (frames : List (Frame σ)) : Tree → Element σ
  | leaf tag field value => ⟨(leaf tag field value).header offset, value, frames⟩
  | node tag field children => ⟨(node tag field children).header offset, [], frames⟩

@[simp] theorem header_element {σ : Type} (t : Tree) (offset : UInt64) (frames : List (Frame σ)) :
    (t.element offset frames).header = t.header offset := by
  cases t <;> rfl

@[simp] theorem tag_header (t : Tree) (offset : UInt64) : (t.header offset).tag = t.tag := by
  cases t <;> rfl

@[simp] theorem offset_header (t : Tree) (offset : UInt64) : (t.header offset).offset = offset := by
  cases t <;> rfl

/-- The tag of a well-formed element tells leaves from nodes. -/
theorem leaf_of_tag {t : Tree} {tag : UInt8} (ht : t.WellFormed) (htag : t.tag = tag)
    (h : Tag.isConstructed tag = false) : ∃ field value, t = leaf tag field value := by
  subst htag
  cases t with
  | leaf tag field value => exact ⟨field, value, rfl⟩
  | node tag field children => exact absurd (ht.2.1.symm.trans h) nofun

theorem node_of_tag {t : Tree} {tag : UInt8} (ht : t.WellFormed) (htag : t.tag = tag)
    (h : Tag.isConstructed tag = true) :
    ∃ field children, t = node tag field children ∧ AllWellFormed children := by
  subst htag
  cases t with
  | leaf tag field value => exact absurd (ht.2.1.symm.trans h) nofun
  | node tag field children => exact ⟨field, children, rfl, ht.2.2.2⟩

/-- A length field bounds the element. -/
theorem length_bytes_lt {t : Tree} (ht : t.WellFormed) : t.bytes.length < 0x100000006 := by
  cases t with
  | leaf tag field value =>
    have hle := ht.2.2.length_le
    have hlt := ht.2.2.lt
    simp only [bytes, List.length_cons, List.length_append]
    omega
  | node tag field children =>
    have hle := ht.2.2.1.length_le
    have hlt := ht.2.2.1.lt
    simp only [bytes, List.length_cons, List.length_append]
    omega

theorem bytesAll_append (ts us : List Tree) : bytesAll (ts ++ us) = bytesAll ts ++ bytesAll us := by
  induction ts with
  | nil => rfl
  | cons t ts ih => simp [bytesAll, ih]

theorem allWellFormed_append {ts us : List Tree} :
    AllWellFormed (ts ++ us) ↔ AllWellFormed ts ∧ AllWellFormed us := by
  induction ts with
  | nil => simp [AllWellFormed]
  | cons t ts ih => simp [AllWellFormed, ih, and_assoc]

end Tree

/-! ### The walk -/

/-- What a walk carries from element to element. -/
structure Cursor (σ M : Type) where
  state : σ
  message : M
  endAllowed : Bool

namespace Grammar
variable {σ M : Type}

/-- Takes the transition of an element and acts on the message. -/
def visit (g : Grammar σ M) (c : Cursor σ M) (e : Element σ) :
    Except DecodeError (Cursor σ M) :=
  match g.transition c.state e.header.tag with
  | none => .error (.unexpectedTag g.name e.header.tag (g.label c.state) e.header.offset)
  | some t =>
    match t.act e c.message with
    | .error o => .error (o.located g t.next e.header)
    | .ok (message, endAllowed) => .ok ⟨t.next, message, endAllowed⟩

/-- Ends a constructed element that was opened in the state `opened`. -/
def leave (g : Grammar σ M) (opened : σ) (stop : UInt64) (c : Cursor σ M) :
    Except DecodeError (Cursor σ M) :=
  if c.endAllowed then
    match g.close opened with
    | none => .ok c
    | some close => .ok ⟨close.next, c.message, close.endAllowed⟩
  else .error (.endNotAllowed g.name (g.stateName opened) (g.label c.state) stop)

mutual

/-- Visits an element and all that is inside. `frames` are the elements around it, which actions
may look at. -/
def walk (g : Grammar σ M) : List (Frame σ) → UInt64 → Cursor σ M → Tree →
    Except DecodeError (Cursor σ M)
  | frames, offset, c, .leaf tag field value =>
    g.visit c ((Tree.leaf tag field value).element offset frames)
  | frames, offset, c, .node tag field children =>
    match g.visit c ((Tree.node tag field children).element offset frames) with
    | .error e => .error e
    | .ok opened =>
      let h := (Tree.node tag field children).header offset
      match walkAll g (⟨opened.state, h.valueEnd⟩ :: frames) h.valueOffset opened children with
      | .error e => .error e
      | .ok c => g.leave opened.state h.valueEnd c

/-- Visits elements one behind the other. -/
def walkAll (g : Grammar σ M) : List (Frame σ) → UInt64 → Cursor σ M → List Tree →
    Except DecodeError (Cursor σ M)
  | _, _, c, [] => .ok c
  | frames, offset, c, t :: ts =>
    match walk g frames offset c t with
    | .error e => .error e
    | .ok c => walkAll g frames (t.header offset).valueEnd c ts

end

def begin (g : Grammar σ M) : Cursor σ M :=
  ⟨g.start, g.blank, false⟩

/-- The message that a tree at `offset` holds. A leaf has to allow the end itself. -/
def read (g : Grammar σ M) (offset : UInt64) (t : Tree) : Except DecodeError M :=
  match walk g [] offset g.begin t with
  | .error e => .error e
  | .ok c =>
    if t.isNode || c.endAllowed then .ok c.message
    else
      .error
        (.endNotAllowed g.name (ascii "top level") (g.label c.state) (t.header offset).valueEnd)

/-! ### Success, step by step -/

section
variable {g : Grammar σ M} {frames : List (Frame σ)} {offset : UInt64} {c c' : Cursor σ M}

theorem visit_eq_ok_iff {e : Element σ} :
    g.visit c e = .ok c' ↔
      ∃ tr, g.transition c.state e.header.tag = some tr ∧
        ∃ m b, tr.act e c.message = .ok (m, b) ∧ c' = ⟨tr.next, m, b⟩ := by
  rw [visit]
  cases g.transition c.state e.header.tag with
  | none => simp
  | some tr =>
    cases hact : tr.act e c.message with
    | error o => simp [hact]
    | ok acted =>
      obtain ⟨m, b⟩ := acted
      simp only [hact, Except.ok.injEq, Option.some.injEq, Prod.mk.injEq, exists_eq_left', eq_comm]
      refine ⟨fun h => ?_, fun h => ?_⟩
      · obtain rfl := h
        exact ⟨m, b, ⟨rfl, rfl⟩, rfl⟩
      · obtain ⟨_, _, ⟨rfl, rfl⟩, h⟩ := h
        exact h

theorem leave_eq_ok_iff {opened : σ} {stop : UInt64} :
    g.leave opened stop c = .ok c' ↔
      c.endAllowed = true ∧
        c' = (g.close opened).elim c fun close => ⟨close.next, c.message, close.endAllowed⟩ := by
  rw [leave]
  cases c.endAllowed with
  | false => simp
  | true => cases g.close opened <;> simp [eq_comm]

theorem walk_node_eq_ok_iff {tag : UInt8} {field : Bytes} {children : List Tree} :
    g.walk frames offset c (.node tag field children) = .ok c' ↔
      let h := (Tree.node tag field children).header offset
      ∃ opened inside,
        g.visit c ((Tree.node tag field children).element offset frames) = .ok opened ∧
        g.walkAll (⟨opened.state, h.valueEnd⟩ :: frames) h.valueOffset opened children =
          .ok inside ∧
        g.leave opened.state h.valueEnd inside = .ok c' := by
  rw [walk]
  cases g.visit c ((Tree.node tag field children).element offset frames) with
  | error e => simp
  | ok opened =>
    dsimp only
    cases hwalk : g.walkAll
        (⟨opened.state, ((Tree.node tag field children).header offset).valueEnd⟩ :: frames)
        ((Tree.node tag field children).header offset).valueOffset opened children with
    | error e => simp [hwalk]
    | ok inside => simp [hwalk]

theorem walkAll_nil_eq_ok_iff : g.walkAll frames offset c [] = .ok c' ↔ c = c' := by
  simp [walkAll]

theorem walkAll_cons_eq_ok_iff {t : Tree} {ts : List Tree} :
    g.walkAll frames offset c (t :: ts) = .ok c' ↔
      ∃ d, g.walk frames offset c t = .ok d ∧
        g.walkAll frames (t.header offset).valueEnd d ts = .ok c' := by
  rw [walkAll]
  cases g.walk frames offset c t with
  | error e => simp
  | ok d => simp

theorem read_eq_ok_iff {t : Tree} {m : M} :
    g.read offset t = .ok m ↔
      ∃ c, g.walk [] offset g.begin t = .ok c ∧ (t.isNode || c.endAllowed) = true ∧
        c.message = m := by
  rw [read]
  cases g.walk [] offset g.begin t with
  | error e => simp
  | ok c => by_cases hend : (t.isNode || c.endAllowed) = true <;> simp_all

end

end Grammar

end LdapBer
