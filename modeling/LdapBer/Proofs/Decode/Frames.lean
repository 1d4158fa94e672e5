import LdapBer.Message.Grammar
import LdapBer.Proofs.Decode.Steps
import LdapBer.Proofs.Decode.Whole

/-! Frames and the ends of messages.

A frame is closed where the position is exactly its end, so no element may overshoot. As long as
positions stay 2^33 bytes below 2^64 none does: the frames are nested, none is passed, and the
outermost one ends where the header of the message says (`Tracks`). So a message is complete when
its header and as many bytes as this announces are taken, and no more (`ends_of_session`). -/
namespace LdapBer
variable {σ M : Type} {g : Grammar σ M} {limit : Option Nat}

/-! ### Frames around a position -/

namespace Container

/-- Where the outermost frame ends, or the position if nothing is open. -/
def outermost (c : Container σ M) : UInt64 :=
  (c.frames.map Frame.stop).getLastD c.offset

section
variable (c : Container σ M) (frame : Frame σ) (outer : List (Frame σ))

theorem outermost_closeFrame (hframes : c.frames = frame :: outer) (hstop : frame.stop = c.offset) :
    (c.closeFrame g frame outer).outermost = c.outermost := by
  rw [outermost, outermost, frames_closeFrame, offset_closeFrame, hframes, List.map_cons,
    List.getLastD_cons, hstop]

variable (t : Transition σ M) (e : Element σ) (m : M) (b : Bool)

/-- Once something is open, the outermost end is fixed. -/
theorem outermost_passElement (hframes : c.frames ≠ []) :
    (c.passElement t e m b).outermost = c.outermost := by
  rw [passElement, outermost, outermost]
  cases hc : c.frames with
  | nil => exact absurd hc hframes
  | cons frame outer => split <;> simp only [List.map_cons, List.getLastD_cons]

theorem outermost_passElement_nil (hframes : c.frames = []) :
    (c.passElement t e m b).outermost = e.header.valueEnd := by
  rw [passElement, outermost, hframes]
  split <;> rfl

end

end Container

/-! ### The invariant -/

/-- The container stands where it has taken the bytes `message` since position `start`. The frames
are nested and end at the position or behind it. What has been taken begins with a header that the
limit admits, and the outermost frame ends where this header says. -/
structure Tracks (limit : Option Nat) (start : Nat) (message : Bytes) (c : Container σ M) :
    Prop where
  offset : c.offset.toNat = start + message.length
  nested : c.frames.Pairwise fun inner outer => inner.stop ≤ outer.stop
  ahead : ∀ frame ∈ c.frames, c.offset ≤ frame.stop
  unstarted : c.started = false → message = [] ∧ c.frames = []
  started : c.started = true → ∃ h content,
    Header.read start.toUInt64 message = .ok (some (h, content)) ∧
      (∀ m, limit = some m → h.length ≤ m) ∧ c.outermost.toNat = start + h.size + h.length

section
variable {start : Nat} {message : Bytes} {c : Container σ M} {s rest : Bytes}

theorem tracks_fresh {offset : UInt64} (h : offset.toNat = start) :
    Tracks limit start [] (.fresh g offset) :=
  ⟨h, .nil, nofun, fun _ => ⟨rfl, rfl⟩, nofun⟩

theorem Tracks.close (h : Tracks limit start message c) {frame : Frame σ} {outer : List (Frame σ)}
    (hframes : c.frames = frame :: outer) (hstop : frame.stop = c.offset) :
    Tracks limit start message (c.closeFrame g frame outer) where
  offset := by rw [Container.offset_closeFrame, h.offset]
  nested := by
    rw [Container.frames_closeFrame]
    exact (List.pairwise_cons.mp (hframes ▸ h.nested)).2
  ahead := by
    rw [Container.frames_closeFrame, Container.offset_closeFrame]
    exact fun f hf => h.ahead f (hframes ▸ List.mem_cons_of_mem frame hf)
  unstarted := by
    rw [Container.started_closeFrame]
    intro hstarted
    have hnil := (h.unstarted hstarted).2
    rw [hframes] at hnil
    cases hnil
  started := by
    rw [Container.started_closeFrame, c.outermost_closeFrame frame outer hframes hstop]
    exact h.started

/-- An element that fits into the innermost frame fits into all of them. -/
theorem Tracks.valueEnd_le (h : Tracks limit start message c) {hd : Header}
    (hfits : checkFits limit c.frames hd = .ok ()) :
    ∀ frame ∈ c.frames, hd.valueEnd ≤ frame.stop := by
  have hnested := h.nested
  cases hframes : c.frames with
  | nil => exact nofun
  | cons inner outer =>
    rw [hframes] at hfits hnested
    have hle : hd.valueEnd ≤ inner.stop := UInt64.le_iff_toNat_le.mpr (valueEnd_le_of_fits hfits)
    intro frame hframe
    rcases List.mem_cons.mp hframe with rfl | hframe
    · exact hle
    · exact UInt64.le_trans hle ((List.pairwise_cons.mp hnested).1 frame hframe)

/-- Behind an element the frames are nested as before, with one more in them if it is open now. -/
theorem Tracks.frames_passElement (h : Tracks limit start message c) {t : Transition σ M}
    {e : Element σ} (hfits : checkFits limit c.frames e.header = .ok ())
    (hle : e.header.valueOffset ≤ e.header.valueEnd) (m : M) (b : Bool) :
    (c.passElement t e m b).frames.Pairwise (fun inner outer => inner.stop ≤ outer.stop) ∧
      ∀ frame ∈ (c.passElement t e m b).frames, (c.passElement t e m b).offset ≤ frame.stop := by
  have hstop := h.valueEnd_le hfits
  rw [Container.passElement]
  split
  · refine ⟨List.pairwise_cons.mpr ⟨hstop, h.nested⟩, List.forall_mem_cons.mpr ⟨hle, ?_⟩⟩
    exact fun frame hframe => UInt64.le_trans hle (hstop frame hframe)
  · exact ⟨h.nested, hstop⟩

/-- The first element of a message is the one whose header counts. -/
theorem Tracks.started_passElement (h : Tracks limit start message c) (hopen : c.isComplete = false)
    {t : Transition σ M} {e : Element σ} {field : Bytes} (hnumber : Tag.number e.header.tag ≠ 31)
    (hfits : checkFits limit c.frames e.header = .ok ())
    (hfield : LengthField e.header.length field) (hsize : e.header.size = 1 + field.length)
    (hend : e.header.valueEnd.toNat = start + message.length + e.header.size + e.header.length)
    (m : M) (b : Bool) :
    ∃ hd content,
      Header.read start.toUInt64 (message ++ e.header.tag :: (field ++ e.value)) =
          .ok (some (hd, content)) ∧
        (∀ m, limit = some m → hd.length ≤ m) ∧
        (c.passElement t e m b).outermost.toNat = start + hd.size + hd.length := by
  cases hstarted : c.started with
  | false =>
    obtain ⟨rfl, hframes⟩ := h.unstarted hstarted
    rw [c.outermost_passElement_nil t e m b hframes]
    refine ⟨_, _, Header.read_field hnumber hfield start.toUInt64 e.value, ?_, ?_⟩
    · rw [hframes, checkFits_nil_iff] at hfits
      exact hfits
    · simpa [hsize] using hend
  | true =>
    have hframes : c.frames ≠ [] := by
      intro hnil
      simp [Container.isComplete, hstarted, hnil] at hopen
    obtain ⟨hd, content, hread, hadmitted, houtermost⟩ := h.started hstarted
    rw [c.outermost_passElement t e m b hframes]
    refine ⟨hd, content ++ e.header.tag :: (field ++ e.value), ?_, hadmitted, houtermost⟩
    rw [Header.read_append _ _ _ (by simp [hread]), hread]
    rfl

/-- Positions from here on may wrap: up to 2^33 bytes are left before 2^64. -/
def positionLimit : Nat := 0xFFFFFFFE00000000

theorem Tracks.element {bytes : Bytes} (h : Tracks limit start message c)
    (hopen : c.isComplete = false) {t : Transition σ M} {e : Element σ}
    (hfront : InFront g limit c (bytes ++ rest) t e rest)
    (hlt : start + message.length + bytes.length < positionLimit) (m : M) (b : Bool) :
    Tracks limit start (message ++ bytes) (c.passElement t e m b) := by
  obtain ⟨field, hfield, hsize, hbytes⟩ := hfront.bytes
  obtain rfl := List.append_cancel_right hbytes
  have hoffset : e.header.offset.toNat = start + message.length := by rw [hfront.offset, h.offset]
  rw [positionLimit] at hlt
  obtain ⟨hvalue, hend, -⟩ := toNat_valueEnd hfield hsize (by omega)
  have hle : e.header.valueOffset ≤ e.header.valueEnd := UInt64.le_iff_toNat_le.mpr (by omega)
  obtain ⟨hnested, hahead⟩ := h.frames_passElement (t := t) hfront.fits hle m b
  refine ⟨?_, hnested, hahead, ?_, fun _ => ?_⟩
  · have hvalueLength := hfront.value
    rw [Container.passElement]
    split at hvalueLength
    · next hconstructed =>
      rw [if_pos hconstructed, hvalueLength]
      simp only [List.append_nil, List.length_append, List.length_cons]
      omega
    · next hprimitive =>
      rw [if_neg hprimitive]
      simp only [List.length_append, List.length_cons]
      omega
  · intro hstarted
    rw [Container.started_passElement] at hstarted
    cases hstarted
  · exact h.started_passElement hopen hfront.number hfront.fits hfield hsize (by omega) m b

/-! ### Runs -/

/-- The bytes that a step takes off the input are those behind which the container then stands. -/
theorem Tracks.step {x y : Container σ M × Bytes} {bytes : Bytes}
    (h : Tracks limit start message x.1) (hstep : Step g limit x y) (hbytes : x.2 = bytes ++ y.2)
    (hlt : start + message.length + bytes.length < positionLimit) :
    Tracks limit start (message ++ bytes) y.1 := by
  cases hstep with
  | close hframes hstop =>
    rw [List.self_eq_append_left.mp hbytes, List.append_nil]
    exact h.close hframes hstop
  | element hopen hnext hact =>
    dsimp only at hbytes
    subst hbytes
    exact h.element hopen (inFront_of_nextElement hnext) hlt _ _

theorem Tracks.steps {x y : Container σ M × Bytes} (h : Tracks limit start message x.1)
    (hsteps : Steps g limit x y) {bytes : Bytes} (hbytes : x.2 = bytes ++ y.2)
    (hlt : start + message.length + bytes.length < positionLimit) :
    Tracks limit start (message ++ bytes) y.1 := by
  -- what has been taken only grows, so it was below the limit before every step
  have hend : start + (message ++ bytes).length < positionLimit →
      Tracks limit start (message ++ bytes) y.1 := by
    refine preserved_of_steps (P := fun message c =>
      start + message.length < positionLimit → Tracks limit start message c)
      (fun hstep hc hlt => ?_) hsteps (fun _ => h) hbytes
    rw [List.length_append, ← Nat.add_assoc] at hlt
    exact (hc (by omega)).step hstep rfl hlt
  exact hend (by rwa [List.length_append, ← Nat.add_assoc])

/-- A call that does not fail leaves the container behind what it has taken. -/
theorem Tracks.advance (h : Tracks limit start message c)
    (hok : ∀ e, (advance g limit c s).status ≠ .failed e)
    (hlt : start + (message ++ taken g limit c s).length < positionLimit) :
    Tracks limit start (message ++ taken g limit c s) (LdapBer.advance g limit c s).container := by
  rw [List.length_append, ← Nat.add_assoc] at hlt
  exact h.steps (stopsAt_of_advance c s hok).steps (taken_append c s hok).symm hlt

theorem tracks_of_session (h : Session g limit start message c)
    (hlt : start + message.length < positionLimit) : Tracks limit start message c := by
  induction h with
  | begin => exact tracks_fresh rfl
  | @reset start message c _ ih =>
    rw [List.length_nil, Nat.add_zero] at hlt
    exact tracks_fresh (ih hlt).offset
  | @input start message c _ s hok ih =>
    refine (ih ?_).advance hok hlt
    rw [List.length_append] at hlt
    omega

/-- Where no frame ends at the position, all end behind it. -/
theorem Tracks.lt_stop (h : Tracks limit start message c)
    (hopen : ∀ frame outer, c.frames = frame :: outer → frame.stop ≠ c.offset) :
    ∀ frame ∈ c.frames, c.offset < frame.stop := by
  have hnested := h.nested
  have hahead := h.ahead
  cases hframes : c.frames with
  | nil => exact nofun
  | cons inner outer =>
    rw [hframes] at hnested hahead
    have hlt : c.offset < inner.stop :=
      UInt64.lt_of_le_of_ne (hahead inner List.mem_cons_self) (hopen inner outer hframes).symm
    intro frame hframe
    rcases List.mem_cons.mp hframe with rfl | hframe
    · exact hlt
    · exact UInt64.lt_of_lt_of_le hlt ((List.pairwise_cons.mp hnested).1 frame hframe)

/-- Where a message is complete, its header and what this announces have been taken. -/
theorem Tracks.content (h : Tracks limit start message c) (hcomplete : c.isComplete = true) :
    c.frames = [] ∧ ∃ hd content, Header.read start.toUInt64 message = .ok (some (hd, content)) ∧
      content.length = hd.length := by
  obtain ⟨hstarted, hempty⟩ := Bool.and_eq_true_iff.mp hcomplete
  have hframes := List.isEmpty_iff.mp hempty
  obtain ⟨hd, content, hread, -, houtermost⟩ := h.started hstarted
  refine ⟨hframes, hd, content, hread, ?_⟩
  have hlength := Header.length_of_read hread
  have hoffset := h.offset
  rw [Container.outermost, hframes] at houtermost
  have houtermost : c.offset.toNat = start + hd.size + hd.length := houtermost
  omega

end

/-- **Every message ends where its header says.** Whatever the engine is given below the limit of
positions: while it waits, the open frames are nested, the inner ones end first, and all end behind
the position, which is the number of bytes that have been taken. When a message is complete nothing
is open, and what has been taken of it is a header and as many bytes as this announces. Nowhere
within a call has the position passed the end of an open frame. -/
theorem ends_of_session {start : Nat} {message : Bytes} {c : Container σ M}
    (h : Session g limit start message c) {s : Bytes}
    (hsize : start + message.length + s.length < positionLimit) :
    let o := advance g limit c s
    let got := message ++ taken g limit c s
    (o.status = .needMore →
      o.container.offset.toNat = start + got.length ∧
        o.container.frames.Pairwise (fun inner outer => inner.stop ≤ outer.stop) ∧
        ∀ frame ∈ o.container.frames, o.container.offset < frame.stop) ∧
    (o.status = .done →
      o.container.offset.toNat = start + got.length ∧ o.container.frames = [] ∧
        ∃ hd content, Header.read start.toUInt64 got = .ok (some (hd, content)) ∧
          content.length = hd.length) ∧
    ∀ c' rest, Rounds g limit (c, s) (c', rest) →
      ∀ frame ∈ c'.frames, c'.offset ≤ frame.stop := by
  intro o got
  have hstart := tracks_of_session h (by omega)
  have htaken : start + got.length < positionLimit := by
    simp only [got, taken, List.length_append, List.length_take]
    omega
  refine ⟨fun hwaits => ?_, fun hdone => ?_, fun c' rest hrounds => ?_⟩
  · have hok : ∀ e, o.status ≠ .failed e := by
      intro e hfailed
      cases hwaits.symm.trans hfailed
    have hend := hstart.advance hok htaken
    exact ⟨hend.offset, hend.nested, hend.lt_stop ((stopsAt_of_advance c s hok).waits hwaits)⟩
  · have hok : ∀ e, o.status ≠ .failed e := by
      intro e hfailed
      cases hdone.symm.trans hfailed
    have hend := hstart.advance hok htaken
    exact ⟨hend.offset, hend.content ((stopsAt_of_advance c s hok).done hdone)⟩
  · have hsteps := steps_of_rounds hrounds
    obtain ⟨bytes, hbytes⟩ := append_of_steps hsteps
    have hlength := congrArg List.length hbytes
    rw [List.length_append] at hlength
    exact (hstart.steps hsteps hbytes (by dsimp only at hlength; omega)).ahead

/-- The rest of a message of seven bytes, of which two have been taken. -/
theorem ends_of_session_unbind :
    let c := (advance Message.grammar none (.fresh Message.grammar 0) [0x30, 0x05, 0x02]).container
    let s : Bytes := [0x02, 0x01, 0x02, 0x42, 0x00, 0x30]
    (advance Message.grammar none c s).status = .done ∧
      ∃ hd content, Header.read 0 ([0x30, 0x05] ++ taken Message.grammar none c s) =
          .ok (some (hd, content)) ∧ content.length = hd.length := by
  intro c s
  have hwaits : (advance Message.grammar none (.fresh Message.grammar 0)
      [0x30, 0x05, 0x02]).status = .needMore := by decide +kernel
  have htaken : taken Message.grammar none (.fresh Message.grammar 0) [0x30, 0x05, 0x02] =
      [0x30, 0x05] := by decide +kernel
  have hsession : Session Message.grammar none 0 [0x30, 0x05] c :=
    htaken ▸ .input .begin [0x30, 0x05, 0x02] fun e => hwaits ▸ nofun
  have hdone : (advance Message.grammar none c s).status = .done := by decide +kernel
  exact ⟨hdone, ((ends_of_session hsession (by decide)).2.1 hdone).2.2⟩

end LdapBer
