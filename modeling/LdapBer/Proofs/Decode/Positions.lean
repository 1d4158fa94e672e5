import LdapBer.Proofs.Decode.Runs

/-! Positions that wrap.

A position has 64 bits, and nothing keeps a stream from being longer. Then the open frames need not
be nested any more, but the position is still the number of bytes that were taken, modulo 2^64, and
the outermost frame of a message still ends less than 2^33 bytes behind its start (`Anchored`). So
the size of a message that a caller computes from two positions is small, and never more than what
was taken of the message (`Session.size_of_done`). -/
namespace LdapBer
variable {σ M : Type} {g : Grammar σ M} {limit : Option Nat} {c c' : Container σ M}

/-! ### The invariant -/

/-- The container stands where it has taken the bytes `message` since position `start`, and the
message began with a header that announces a length of 32 bits. -/
structure Anchored (start : Nat) (message : Bytes) (c : Container σ M) : Prop where
  offset : c.offset = (start + message.length).toUInt64
  unstarted : c.started = false → message = [] ∧ c.frames = []
  started : c.started = true → (c.outermost - start.toUInt64).toNat < 0x200000000

section
variable {start : Nat} {message bytes rest : Bytes}

theorem anchored_fresh {offset : UInt64} (h : offset = start.toUInt64) :
    Anchored start [] (.fresh g offset) :=
  ⟨h, fun _ => ⟨rfl, rfl⟩, nofun⟩

theorem Anchored.close (h : Anchored start message c) {frame : Frame σ} {outer : List (Frame σ)}
    (hframes : c.frames = frame :: outer) (hstop : frame.stop = c.offset) :
    Anchored start message (c.closeFrame g frame outer) where
  offset := by rw [Container.offset_closeFrame, h.offset]
  unstarted := by
    rw [Container.started_closeFrame]
    intro hstarted
    have hnil := (h.unstarted hstarted).2
    rw [hframes] at hnil
    cases hnil
  started := by
    rw [Container.started_closeFrame, c.outermost_closeFrame frame outer hframes hstop]
    exact h.started

theorem Header.valueEnd_eq (h : Header) : h.valueEnd = h.offset + (h.size + h.length).toUInt64 := by
  rw [valueEnd, valueOffset, UInt64.add_assoc, ← toUInt64_add]

/-- Behind an element the position is the one in front of it and the bytes that were taken. -/
theorem InFront.offset_passElement {t : Transition σ M} {e : Element σ}
    (h : InFront g limit c (bytes ++ rest) t e rest) (m : M) (b : Bool) :
    (c.passElement t e m b).offset = c.offset + bytes.length.toUInt64 := by
  obtain ⟨field, -, hsize, hbytes⟩ := h.bytes
  obtain rfl := List.append_cancel_right hbytes
  have hvalue := h.value
  have hlength : (e.header.tag :: (field ++ e.value)).length = e.header.size + e.value.length := by
    rw [hsize, List.length_cons, List.length_append]
    omega
  rw [Container.passElement, hlength, ← h.offset]
  split at hvalue
  · next hconstructed =>
    rw [if_pos hconstructed, hvalue]
    rfl
  · next hprimitive =>
    rw [if_neg hprimitive, hvalue]
    exact e.header.valueEnd_eq

/-- What is open was opened by the first element of the message, or inside it. -/
theorem Anchored.started_passElement (h : Anchored start message c) (hopen : c.isComplete = false)
    {s : Bytes} {t : Transition σ M} {e : Element σ} (hfront : InFront g limit c s t e rest) (m : M)
    (b : Bool) : ((c.passElement t e m b).outermost - start.toUInt64).toNat < 0x200000000 := by
  obtain ⟨field, hfield, hsize, -⟩ := hfront.bytes
  have hle := hfield.length_le
  have hlt := hfield.lt
  cases hstarted : c.started with
  | false =>
    obtain ⟨rfl, hframes⟩ := h.unstarted hstarted
    have hoffset : e.header.offset = start.toUInt64 := hfront.offset.trans h.offset
    rw [c.outermost_passElement_nil t e m b hframes, Header.valueEnd_eq, hoffset, ← toUInt64_add,
      toUInt64_add_sub, toNat_toUInt64 (by omega)]
    omega
  | true =>
    have hframes : c.frames ≠ [] := by
      intro hnil
      simp [Container.isComplete, hstarted, hnil] at hopen
    rw [c.outermost_passElement t e m b hframes]
    exact h.started hstarted

theorem Anchored.element (h : Anchored start message c) (hopen : c.isComplete = false)
    {t : Transition σ M} {e : Element σ} (hfront : InFront g limit c (bytes ++ rest) t e rest)
    (m : M) (b : Bool) : Anchored start (message ++ bytes) (c.passElement t e m b) where
  offset := by
    rw [hfront.offset_passElement, h.offset, ← toUInt64_add, List.length_append, Nat.add_assoc]
  unstarted := by
    rw [Container.started_passElement]
    intro hstarted
    cases hstarted
  started _ := h.started_passElement hopen hfront m b

theorem Anchored.step (h : Anchored start message c)
    (hstep : Step g limit (c, bytes ++ rest) (c', rest)) :
    Anchored start (message ++ bytes) c' := by
  generalize hs : bytes ++ rest = s at hstep
  cases hstep with
  | close hframes hstop =>
    rw [List.self_eq_append_left.mp hs.symm, List.append_nil]
    exact h.close hframes hstop
  | element hopen hnext =>
    subst hs
    exact h.element hopen (inFront_of_nextElement hnext) _ _

/-! ### Sessions -/

theorem anchored_of_session (h : Session g limit start message c) : Anchored start message c := by
  induction h with
  | begin => exact anchored_fresh rfl
  | reset _ ih => exact anchored_fresh ih.offset
  | @input start message c _ s hok ih =>
    exact preserved_of_steps (fun hstep hc => hc.step hstep) (stopsAt_of_advance c s hok).steps ih
      (taken_append c s hok).symm

/-- The size of a message, computed from the positions before and behind it, is what was taken of
it, or less if this is 2^64 bytes or more. -/
theorem Session.size_of_done (h : Session g limit start message c) {s : Bytes}
    {events : List (Event σ)} (ha : LdapBer.advance g limit c s = ⟨c', rest, events, .done⟩) :
    ∃ bytes, s = bytes ++ rest ∧ Session g limit start (message ++ bytes) c' ∧
      (c'.offset - start.toUInt64).toNat < 0x200000000 ∧
      (c'.offset - start.toUInt64).toNat ≤ message.length + bytes.length := by
  obtain ⟨bytes, hs, hsession⟩ := h.advance ha nofun
  have hanchored := anchored_of_session hsession
  have hcomplete : c'.isComplete = true := by
    have hok : ∀ e, (LdapBer.advance g limit c s).status ≠ .failed e := by
      rw [ha]
      exact nofun
    have hstops := stopsAt_of_advance c s hok
    rw [ha] at hstops
    exact hstops.done rfl
  obtain ⟨hstarted, hempty⟩ := Bool.and_eq_true_iff.mp hcomplete
  have houtermost : c'.outermost = c'.offset := by
    rw [Container.outermost, List.isEmpty_iff.mp hempty]
    rfl
  have hsmall := hanchored.started hstarted
  rw [houtermost] at hsmall
  have hsize : (c'.offset - start.toUInt64).toNat ≤ (message ++ bytes).length := by
    rw [hanchored.offset, toUInt64_add_sub, UInt64.toNat_ofNat']
    exact Nat.mod_le _ _
  exact ⟨bytes, hs, hsession, hsmall, by rwa [List.length_append] at hsize⟩

end

end LdapBer
