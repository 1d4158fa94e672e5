import Mathlib.Logic.Relation
import LdapBer.Proofs.Decode.Resume

/-! The steps of the engine.

All that a decode does to its container is to close the innermost frame, where it ends, or to act
on the element in front of it (`Step`). A call of the engine is made of such steps unless it fails
(`stopsAt_of_advance`), and what every step preserves holds wherever a session comes
(`Invariant.session`, `Invariant.reaches`). A session is any use of the engine: it is given inputs,
of which it may leave some, and it may be told to drop its message. -/
namespace LdapBer
variable {σ M : Type}

/-! ### One step -/

namespace Container

/-- A container behind the end of its innermost frame. -/
def closeFrame (g : Grammar σ M) (c : Container σ M) (frame : Frame σ)
    (outer : List (Frame σ)) : Container σ M :=
  match g.close frame.opened with
  | none => {c with frames := outer}
  | some close => {c with frames := outer, state := close.next, endAllowed := close.endAllowed}

section
variable (g : Grammar σ M) (c : Container σ M) (frame : Frame σ) (outer : List (Frame σ))

@[simp] theorem frames_closeFrame : (c.closeFrame g frame outer).frames = outer := by
  rw [closeFrame]
  cases g.close frame.opened <;> rfl

@[simp] theorem offset_closeFrame : (c.closeFrame g frame outer).offset = c.offset := by
  rw [closeFrame]
  cases g.close frame.opened <;> rfl

@[simp] theorem started_closeFrame : (c.closeFrame g frame outer).started = c.started := by
  rw [closeFrame]
  cases g.close frame.opened <;> rfl

@[simp] theorem message_closeFrame : (c.closeFrame g frame outer).message = c.message := by
  rw [closeFrame]
  cases g.close frame.opened <;> rfl

end

end Container

/-- A step from a container and the input in front of it. -/
inductive Step (g : Grammar σ M) (limit : Option Nat) :
    Container σ M × Bytes → Container σ M × Bytes → Prop
  | close {c : Container σ M} {s : Bytes} {frame : Frame σ} {outer : List (Frame σ)}
      (hframes : c.frames = frame :: outer) (hstop : frame.stop = c.offset) :
      Step g limit (c, s) (c.closeFrame g frame outer, s)
  | element {c : Container σ M} {s rest : Bytes} {t : Transition σ M} {e : Element σ} {m : M}
      {b : Bool} (hopen : c.isComplete = false)
      (hnext : nextElement g limit c s = .ok (some (t, e, rest)))
      (hact : t.act e c.message = .ok (m, b)) :
      Step g limit (c, s) (c.passElement t e m b, rest)

abbrev Steps (g : Grammar σ M) (limit : Option Nat) :
    Container σ M × Bytes → Container σ M × Bytes → Prop :=
  Relation.ReflTransGen (Step g limit)

section
variable {g : Grammar σ M} {limit : Option Nat}

/-- A step leaves what it does not take. -/
theorem append_of_step {x y : Container σ M × Bytes} (h : Step g limit x y) :
    ∃ bytes, x.2 = bytes ++ y.2 := by
  cases h with
  | close => exact ⟨[], rfl⟩
  | element _ hnext _ =>
    obtain ⟨_, _, _, hs⟩ := (inFront_of_nextElement hnext).bytes
    exact ⟨_, hs⟩

theorem append_of_steps {x y : Container σ M × Bytes} (h : Steps g limit x y) :
    ∃ bytes, x.2 = bytes ++ y.2 := by
  induction h with
  | refl => exact ⟨[], rfl⟩
  | tail _ hstep ih =>
    obtain ⟨first, hfirst⟩ := ih
    obtain ⟨second, hsecond⟩ := append_of_step hstep
    exact ⟨first ++ second, by rw [hfirst, hsecond, List.append_assoc]⟩

/-- What holds of a container and the bytes it has taken is preserved along steps if it is by every
step, with the bytes that this takes. -/
theorem preserved_of_steps {P : Bytes → Container σ M → Prop}
    (hstep : ∀ {message bytes rest : Bytes} {c c' : Container σ M},
      Step g limit (c, bytes ++ rest) (c', rest) → P message c → P (message ++ bytes) c')
    {x y : Container σ M × Bytes} (h : Steps g limit x y) {message bytes : Bytes}
    (hx : P message x.1) (hbytes : x.2 = bytes ++ y.2) : P (message ++ bytes) y.1 := by
  induction h generalizing bytes with
  | refl =>
    rw [List.self_eq_append_left.mp hbytes, List.append_nil]
    exact hx
  | @tail y z hxy hlast ih =>
    obtain ⟨first, hfirst⟩ := append_of_steps hxy
    obtain ⟨second, hsecond⟩ := append_of_step hlast
    rw [hfirst, hsecond, ← List.append_assoc] at hbytes
    obtain rfl := List.append_cancel_right hbytes
    obtain ⟨c, s⟩ := y
    obtain ⟨c', rest⟩ := z
    cases hsecond
    rw [← List.append_assoc]
    exact hstep hlast (ih hfirst)

/-! ### The steps of a round -/

theorem steps_closeFrames (c : Container σ M) (frames : List (Frame σ)) (s : Bytes) :
    Steps g limit ({c with frames := frames}, s) ((c.closeFrames g frames).container, s) := by
  induction frames generalizing c with
  | nil => exact .refl
  | cons frame outer ih =>
    by_cases hstop : frame.stop = c.offset
    · by_cases hend : c.endAllowed = true
      · have hstep : Step g limit ({c with frames := frame :: outer}, s) _ := .close rfl hstop
        cases hclose : g.close frame.opened with
        | none =>
          rw [closeFrames_kept hstop hend hclose]
          simp only [Container.closeFrame, hclose] at hstep
          exact .head hstep (ih c)
        | some close =>
          rw [closeFrames_closed hstop hend hclose]
          simp only [Container.closeFrame, hclose] at hstep
          exact .head hstep (ih {c with state := close.next, endAllowed := close.endAllowed})
      · rw [closeFrames_refused hstop (eq_false_of_ne_true hend)]
    · rw [closeFrames_open hstop]

theorem steps_settle (c : Container σ M) (s : Bytes) :
    Steps g limit (c, s) ((c.settle g).container, s) :=
  steps_closeFrames c c.frames s

/-- What is open after closing does not end here. -/
theorem stop_ne_of_closeFrames (c : Container σ M) (frames : List (Frame σ))
    (h : (c.closeFrames g frames).error = none) {frame : Frame σ} {outer : List (Frame σ)}
    (hframes : (c.closeFrames g frames).container.frames = frame :: outer) :
    frame.stop ≠ (c.closeFrames g frames).container.offset := by
  induction frames generalizing c with
  | nil => cases hframes
  | cons inner frames ih =>
    by_cases hstop : inner.stop = c.offset
    · cases hend : c.endAllowed with
      | false => simp [closeFrames_refused hstop hend] at h
      | true =>
        cases hclose : g.close inner.opened with
        | none =>
          rw [closeFrames_kept hstop hend hclose] at h hframes ⊢
          exact ih c h hframes
        | some close =>
          rw [closeFrames_closed hstop hend hclose] at h hframes ⊢
          exact ih _ h hframes
    · rw [closeFrames_open hstop] at hframes ⊢
      cases hframes
      exact hstop

/-- Steps lead from `x` to where the engine stopped without an error: it waits before the ends of
the open frames, or it has closed all. -/
structure StopsAt (g : Grammar σ M) (limit : Option Nat) (x : Container σ M × Bytes)
    (o : Outcome σ M) : Prop where
  steps : Steps g limit x (o.container, o.rest)
  open_of_waits : o.status = .needMore → o.container.isComplete = false
  waits : o.status = .needMore → ∀ frame outer, o.container.frames = frame :: outer →
    frame.stop ≠ o.container.offset
  done : o.status = .done → o.container.isComplete = true

theorem steps_of_round_more {c c' : Container σ M} {s rest : Bytes} {events : List (Event σ)}
    (h : round g limit c s = .more c' rest events) : Steps g limit (c, s) (c', rest) := by
  have heffect := round_effect g limit c s
  rw [h] at heffect
  cases heffect with
  | passes hopen hnext hact => exact (steps_settle c s).tail (.element hopen hnext hact)

theorem stopsAt_of_round_halt {c : Container σ M} {s : Bytes} {o : Outcome σ M}
    (h : round g limit c s = .halt o) (hok : ∀ e, o.status ≠ .failed e) :
    StopsAt g limit (c, s) o := by
  have heffect := round_effect g limit c s
  rw [h] at heffect
  cases heffect with
  | stops hdone hwaits =>
    refine ⟨steps_settle c s, fun hs => (hwaits hs).2.1, fun hs _ _ => ?_, hdone⟩
    exact stop_ne_of_closeFrames c c.frames (hwaits hs).1
  | fails _ hstatus => exact absurd hstatus (hok _)
  | completes hopen hnext hact hcomplete =>
    exact ⟨(steps_settle c s).tail (.element hopen hnext hact), nofun, nofun, fun _ => hcomplete⟩

/-- A call of the engine that does not fail is made of steps. -/
theorem stopsAt_of_advance (c : Container σ M) (s : Bytes)
    (hok : ∀ e, (advance g limit c s).status ≠ .failed e) :
    StopsAt g limit (c, s) (advance g limit c s) := by
  fun_induction advance g limit c s with
  | case1 c s o ho => exact stopsAt_of_round_halt ho hok
  | case2 c s c' rest events hr _ ih =>
    have hstops := ih hok
    exact ⟨(steps_of_round_more hr).trans hstops.steps, hstops.open_of_waits, hstops.waits,
      hstops.done⟩

/-! ### Sessions -/

/-- What a call of the engine takes off its input. -/
def taken (g : Grammar σ M) (limit : Option Nat) (c : Container σ M) (s : Bytes) : Bytes :=
  s.take (s.length - (advance g limit c s).rest.length)

theorem taken_append (c : Container σ M) (s : Bytes)
    (hok : ∀ e, (advance g limit c s).status ≠ .failed e) :
    taken g limit c s ++ (advance g limit c s).rest = s := by
  obtain ⟨bytes, hs⟩ := append_of_steps (stopsAt_of_advance c s hok).steps
  have hs : s = bytes ++ (advance g limit c s).rest := hs
  have hlength := congrArg List.length hs
  rw [List.length_append] at hlength
  rw [taken, Nat.sub_eq_of_eq_add hlength]
  conv => lhs; arg 1; rw [hs]
  rw [List.take_left, ← hs]

end

/-- A container is used from position 0 on: it is given inputs, each of which starts with whatever
the caller likes, and it is reset now and then. No call fails. At the last reset it stood at
position `start`, and `message` is what it has taken since. -/
inductive Session (g : Grammar σ M) (limit : Option Nat) :
    (start : Nat) → (message : Bytes) → Container σ M → Prop
  | begin : Session g limit 0 [] (.fresh g 0)
  | reset {start : Nat} {message : Bytes} {c : Container σ M}
      (h : Session g limit start message c) :
      Session g limit (start + message.length) [] (c.reset g)
  | input {start : Nat} {message : Bytes} {c : Container σ M}
      (h : Session g limit start message c) (s : Bytes)
      (hok : ∀ e, (advance g limit c s).status ≠ .failed e) :
      Session g limit start (message ++ taken g limit c s) (advance g limit c s).container

/-- Within a call the engine comes from one container and input to another, round by round. -/
abbrev Rounds (g : Grammar σ M) (limit : Option Nat) :
    Container σ M × Bytes → Container σ M × Bytes → Prop :=
  Relation.ReflTransGen fun x y => ∃ events, round g limit x.1 x.2 = .more y.1 y.2 events

theorem steps_of_rounds {g : Grammar σ M} {limit : Option Nat} {x y : Container σ M × Bytes}
    (h : Rounds g limit x y) : Steps g limit x y := by
  induction h with
  | refl => exact .refl
  | tail _ hround ih =>
    obtain ⟨events, hround⟩ := hround
    exact ih.trans (steps_of_round_more hround)

/-- Where a session comes, also within a call: a container and the input in front of it. -/
inductive Reaches (g : Grammar σ M) (limit : Option Nat) : Container σ M × Bytes → Prop
  | rounds {start : Nat} {message : Bytes} {c : Container σ M} {x : Container σ M × Bytes}
      (h : Session g limit start message c) (s : Bytes) (hrounds : Rounds g limit (c, s) x) :
      Reaches g limit x

/-- Somewhere in a session the action of the transition is called, with this element and this
message, whatever comes of it. -/
def Acts (g : Grammar σ M) (limit : Option Nat) (t : Transition σ M) (e : Element σ) (m : M) :
    Prop :=
  ∃ c s rest, Reaches g limit (c, s) ∧ (c.settle g).error = none ∧
    (c.settle g).container.isComplete = false ∧
    nextElement g limit (c.settle g).container s = .ok (some (t, e, rest)) ∧
    (c.settle g).container.message = m

/-! ### Invariants -/

/-- Holds at the start of a message and is preserved by every step. -/
structure Invariant (g : Grammar σ M) (limit : Option Nat) (P : Container σ M → Prop) : Prop where
  fresh : ∀ offset, P (.fresh g offset)
  step : ∀ {x y}, Step g limit x y → P x.1 → P y.1

namespace Invariant
variable {g : Grammar σ M} {limit : Option Nat} {P : Container σ M → Prop}

theorem steps (hP : Invariant g limit P) {x y : Container σ M × Bytes} (h : Steps g limit x y)
    (hx : P x.1) : P y.1 := by
  induction h with
  | refl => exact hx
  | tail _ hstep ih => exact hP.step hstep ih

theorem session (hP : Invariant g limit P) {start : Nat} {message : Bytes} {c : Container σ M}
    (h : Session g limit start message c) : P c := by
  induction h with
  | begin => exact hP.fresh 0
  | @reset _ _ c _ _ => exact hP.fresh c.offset
  | @input _ _ c _ s hok ih => exact hP.steps (stopsAt_of_advance c s hok).steps ih

theorem reaches (hP : Invariant g limit P) {x : Container σ M × Bytes} (h : Reaches g limit x) :
    P x.1 := by
  obtain ⟨hsession, s, hrounds⟩ := h
  exact hP.steps (steps_of_rounds hrounds) (hP.session hsession)

/-- Actions are called where the invariant holds, in a state that has a transition for them. -/
theorem acts (hP : Invariant g limit P) {t : Transition σ M} {e : Element σ} {m : M}
    (h : Acts g limit t e m) :
    ∃ c, P c ∧ c.message = m ∧ g.transition c.state e.header.tag = some t := by
  obtain ⟨c, s, rest, hreaches, -, -, hnext, hmessage⟩ := h
  exact ⟨(c.settle g).container, hP.steps (steps_settle c s) (hP.reaches hreaches), hmessage,
    (inFront_of_nextElement hnext).transition⟩

end Invariant

end LdapBer
