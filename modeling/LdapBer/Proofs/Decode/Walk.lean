import LdapBer.Decode.Whole
import LdapBer.Proofs.Decode.Resume
import LdapBer.Proofs.Decode.Tree

/-! The engine walks the tree.

The engine has no recursion: it holds positions against a stack of frames. On the bytes of a tree
it still does what the walk does, errors included (`decode_bytes`). Inside a frame one statement
carries this, `leads_walkAll`: behind the elements of a list the engine stands where the walk
stands, whatever follows. -/
namespace LdapBer
variable {σ M : Type}

/-! ### Positions -/

theorem Tree.length_bytes (t : Tree) (offset : UInt64) :
    t.bytes.length = (t.header offset).size + (t.header offset).length := by
  cases t <;> simp [bytes, header] <;> omega

theorem Tree.valueEnd_header (t : Tree) (offset : UInt64) :
    (t.header offset).valueEnd = offset + t.bytes.length.toUInt64 := by
  rw [Header.valueEnd, Header.valueOffset, t.offset_header, t.length_bytes offset,
    UInt64.add_assoc]
  congr 1
  exact (UInt64.ofNat_add _ _).symm

theorem Tree.length_bytes_pos (t : Tree) : 0 < t.bytes.length := by
  cases t <;> simp [bytes]

theorem toNat_add_of_lt {offset : UInt64} {n : Nat} (h : offset.toNat + n < 0x10000000000000000) :
    (offset + n.toUInt64).toNat = offset.toNat + n := by
  have hn : n.toUInt64.toNat = n := by
    rw [UInt64.toNat_ofNat']
    exact Nat.mod_eq_of_lt (by omega)
  rw [UInt64.toNat_add, hn]
  exact Nat.mod_eq_of_lt h

/-! ### What the engine makes of a step of the walk -/

section
variable {g : Grammar σ M} {limit : Option Nat}

/-- A cursor of the walk as a container of the engine. -/
def Cursor.within (c : Cursor σ M) (frames : List (Frame σ)) (offset : UInt64) :
    Container σ M :=
  ⟨c.message, c.state, frames, c.endAllowed, true, offset⟩

/-- A container of the engine as a cursor of the walk. -/
def Container.cursor (c : Container σ M) : Cursor σ M :=
  ⟨c.state, c.message, c.endAllowed⟩

/-- From `c` the engine gets through the input `s`, up to `rest`, as `result` says: to another
container or to an error. -/
def Leads (g : Grammar σ M) (limit : Option Nat) (c : Container σ M) (s rest : Bytes) :
    Except DecodeError (Container σ M) → Prop
  | .ok c' => ∃ events, advance g limit c s = (advance g limit c' rest).after events
  | .error e => (advance g limit c s).status = .failed e

theorem Leads.here {c c' : Container σ M} {s : Bytes} (h : c = c') :
    Leads g limit c s s (.ok c') :=
  ⟨[], h ▸ rfl⟩

theorem Leads.trans {c c' : Container σ M} {s t u : Bytes}
    {result : Except DecodeError (Container σ M)} (h : Leads g limit c s t (.ok c'))
    (h' : Leads g limit c' t u result) : Leads g limit c s u result := by
  obtain ⟨events, he⟩ := h
  cases result with
  | ok c'' =>
    obtain ⟨events', he'⟩ := h'
    exact ⟨events ++ events', by rw [he, he', Outcome.after_after]⟩
  | error e =>
    have hstatus : (advance g limit c' t).status = .failed e := h'
    show (advance g limit c s).status = .failed e
    rw [he]
    exact hstatus

/-- Nothing ends at a position before the end of the innermost frame. -/
theorem settle_open {c : Container σ M} {frame : Frame σ} {outer : List (Frame σ)}
    (hframes : c.frames = frame :: outer) (h : frame.stop ≠ c.offset) :
    c.settle g = ⟨c, [], none⟩ := by
  rw [Container.settle, hframes, closeFrames_open h, ← hframes]

theorem round_of_refused {c : Container σ M} {e : DecodeError}
    (h : c.settle g = ⟨c, [], some e⟩) (s : Bytes) :
    round g limit c s = .halt ⟨c, s, [], .failed e⟩ := by
  simp only [round, h]

theorem round_of_open {c : Container σ M} (h : c.settle g = ⟨c, [], none⟩)
    (hc : c.isComplete = false) (s : Bytes) :
    round g limit c s =
      match nextElement g limit c s with
      | .error e => .halt ⟨c, s, [], .failed e⟩
      | .ok none => .halt ⟨c, s, [], .needMore⟩
      | .ok (some (t, e, rest)) => enter g c t e rest := by
  have hnone (r : Round σ M) : r.after [] = r := by cases r <;> rfl
  simp only [round, h, hc, hnone]
  rfl

/-- What the engine takes off the bytes of a tree, if it fits: a leaf as a whole, of a node the
header only. -/
theorem nextElement_bytes {c : Container σ M} {t : Tree} (ht : t.WellFormed)
    (hfits : checkFits limit c.frames (t.header c.offset) = .ok ()) (rest : Bytes) :
    nextElement g limit c (t.bytes ++ rest) =
      match g.transition c.state t.tag with
      | none => .error (.unexpectedTag g.name t.tag (g.label c.state) c.offset)
      | some tr =>
        .ok (some (tr, t.element c.offset c.frames, (if t.isNode then t.content else []) ++ rest))
    := by
  cases t with
  | leaf tag field value =>
    obtain ⟨hnumber, hprimitive, hfield⟩ := ht
    have hread := Header.read_field hnumber hfield c.offset (value ++ rest)
    have hsplit : splitExact value.length (value ++ rest) = some (value, rest) :=
      splitExact_eq_some_iff.mpr ⟨rfl, rfl⟩
    simp only [Tree.header] at hfits
    simp only [Tree.bytes, List.cons_append, List.append_assoc, nextElement, hread, hfits,
      Header.isConstructed, hprimitive, hsplit, Tree.tag, Tree.element, Tree.header, Tree.isNode,
      Tree.content]
    rfl
  | node tag field children =>
    obtain ⟨hnumber, hconstructed, hfield, _⟩ := ht
    have hread := Header.read_field hnumber hfield c.offset (Tree.bytesAll children ++ rest)
    simp only [Tree.header] at hfits
    simp only [Tree.bytes, List.cons_append, List.append_assoc, nextElement, hread, hfits,
      Header.isConstructed, hconstructed, Tree.tag, Tree.element, Tree.header, Tree.isNode,
      Tree.content]
    rfl

/-! ### The round of an element -/

section
variable {c : Container σ M} {t : Tree}

theorem visit_of_none (h : g.transition c.state t.tag = none) :
    g.visit c.cursor (t.element c.offset c.frames) =
      .error (.unexpectedTag g.name t.tag (g.label c.state) c.offset) := by
  simp only [Grammar.visit, Container.cursor, Tree.header_element, Tree.tag_header, h,
    Tree.offset_header]

/-- What becomes of an element that is entered, in terms of the walk. -/
theorem enter_of_visit (ht : t.WellFormed) {tr : Transition σ M}
    (htr : g.transition c.state t.tag = some tr) (rest : Bytes) :
    enter g c tr (t.element c.offset c.frames) rest =
      let h := t.header c.offset
      let moved : Event σ := .moved c.state tr.next h
      match g.visit c.cursor (t.element c.offset c.frames) with
      | .error e =>
        .halt ⟨{c with state := tr.next, endAllowed := false, started := true}, rest, [moved],
          .failed e⟩
      | .ok c' =>
        if t.isNode then
          .more (c'.within (⟨c'.state, h.valueEnd⟩ :: c.frames) h.valueOffset) rest [moved]
        else if c.frames.isEmpty then
          if c'.endAllowed then .halt ⟨c'.within c.frames h.valueEnd, rest, [moved], .done⟩
          else
            .halt ⟨c'.within c.frames h.valueEnd, rest, [moved],
              .failed (.endNotAllowed g.name (ascii "top level") (g.label c'.state) h.valueEnd)⟩
        else .more (c'.within c.frames h.valueEnd) rest [moved] := by
  have hconstructed : (t.header c.offset).isConstructed = t.isNode := by
    cases t with
    | leaf tag field value => exact ht.2.1
    | node tag field children => exact ht.2.1
  simp only [enter, Grammar.visit, Container.cursor, Tree.header_element, Tree.tag_header, htr,
    hconstructed]
  cases tr.act (t.element c.offset c.frames) c.message with
  | error o => rfl
  | ok acted => rfl

/-- What is in front of the engine while it is between two elements: nothing to close, and an
element that fits. -/
structure Faces (g : Grammar σ M) (limit : Option Nat) (c : Container σ M) (t : Tree) :
    Prop where
  wellFormed : t.WellFormed
  settled : c.settle g = ⟨c, [], none⟩
  incomplete : c.isComplete = false
  fits : checkFits limit c.frames (t.header c.offset) = .ok ()

theorem Faces.round (h : Faces g limit c t) (rest : Bytes) :
    LdapBer.round g limit c (t.bytes ++ rest) =
      match g.transition c.state t.tag with
      | none =>
        .halt ⟨c, t.bytes ++ rest, [],
          .failed (.unexpectedTag g.name t.tag (g.label c.state) c.offset)⟩
      | some tr =>
        enter g c tr (t.element c.offset c.frames) ((if t.isNode then t.content else []) ++ rest)
    := by
  rw [round_of_open h.settled h.incomplete, nextElement_bytes h.wellFormed h.fits]
  cases g.transition c.state t.tag <;> rfl

theorem Faces.halts (h : Faces g limit c t) {e : DecodeError}
    (hvisit : g.visit c.cursor (t.element c.offset c.frames) = .error e) (rest : Bytes) :
    (advance g limit c (t.bytes ++ rest)).status = .failed e := by
  have hround := h.round rest
  cases htr : g.transition c.state t.tag with
  | none =>
    rw [visit_of_none htr] at hvisit
    cases hvisit
    rw [htr] at hround
    rw [advance_of_halt hround]
  | some tr =>
    rw [htr] at hround
    dsimp only at hround
    rw [enter_of_visit h.wellFormed htr, hvisit] at hround
    rw [advance_of_halt hround]

theorem Faces.goes_on (h : Faces g limit c t) {c' : Cursor σ M}
    (hvisit : g.visit c.cursor (t.element c.offset c.frames) = .ok c') (rest : Bytes) :
    ∃ moved, LdapBer.round g limit c (t.bytes ++ rest) =
      if t.isNode then
        .more (c'.within (⟨c'.state, (t.header c.offset).valueEnd⟩ :: c.frames)
          (t.header c.offset).valueOffset) (t.content ++ rest) moved
      else if c.frames.isEmpty then
        if c'.endAllowed then
          .halt ⟨c'.within c.frames (t.header c.offset).valueEnd, rest, moved, .done⟩
        else
          .halt ⟨c'.within c.frames (t.header c.offset).valueEnd, rest, moved,
            .failed (.endNotAllowed g.name (ascii "top level") (g.label c'.state)
              (t.header c.offset).valueEnd)⟩
      else .more (c'.within c.frames (t.header c.offset).valueEnd) rest moved := by
  have hround := h.round rest
  cases htr : g.transition c.state t.tag with
  | none =>
    rw [visit_of_none htr] at hvisit
    cases hvisit
  | some tr =>
    rw [htr] at hround
    dsimp only at hround
    rw [enter_of_visit h.wellFormed htr, hvisit] at hround
    refine ⟨[.moved c.state tr.next (t.header c.offset)], hround.trans ?_⟩
    cases t with
    | leaf tag field value => rfl
    | node tag field children => rfl

end

/-! ### Inside a frame -/

/-- Which frames a container holds does not matter for closing those that are given. -/
theorem closeFrames_frames (c : Container σ M) (held frames : List (Frame σ)) :
    Container.closeFrames g {c with frames := held} frames = c.closeFrames g frames := by
  induction frames generalizing c held with
  | nil => rfl
  | cons frame outer ih =>
    simp only [Container.closeFrames]
    split
    · split
      · cases g.close frame.opened with
        | none => exact ih c held
        | some close =>
          exact congrArg (Settled.after [.closed frame.opened close.next c.offset])
            (ih {c with state := close.next, endAllowed := close.endAllowed} held)
      · rfl
    · rfl

/-- At the end of the innermost frame the engine leaves it, before it looks at the input. -/
theorem leads_leave (c : Cursor σ M) (frame : Frame σ) (outer : List (Frame σ)) (s : Bytes) :
    Leads g limit (c.within (frame :: outer) frame.stop) s s
      ((g.leave frame.opened frame.stop c).map fun c => c.within outer frame.stop) := by
  cases hend : c.endAllowed with
  | false =>
    have hsettle := closeFrames_refused (g := g) (c := c.within (frame :: outer) frame.stop)
      rfl hend outer
    simp only [Grammar.leave, hend, Leads, Except.map]
    rw [advance_of_halt (round_of_refused hsettle s)]
    rfl
  | true =>
    cases hclose : g.close frame.opened with
    | none =>
      have hsettle : (c.within (frame :: outer) frame.stop).settle g =
          ((c.within outer frame.stop).settle g).after [] := by
        refine (closeFrames_kept rfl hend hclose outer).trans ?_
        exact closeFrames_frames (c.within outer frame.stop) (frame :: outer) outer
      simp only [Grammar.leave, hend, hclose, Leads, Except.map, if_true]
      exact ⟨[], advance_of_settle hsettle s⟩
    | some close =>
      let closed : Cursor σ M := ⟨close.next, c.message, close.endAllowed⟩
      have hsettle : (c.within (frame :: outer) frame.stop).settle g =
          ((closed.within outer frame.stop).settle g).after
            [.closed frame.opened close.next frame.stop] := by
        refine (closeFrames_closed rfl hend hclose outer).trans ?_
        exact congrArg (Settled.after _)
          (closeFrames_frames (closed.within outer frame.stop) (frame :: outer) outer)
      simp only [Grammar.leave, hend, hclose, Leads, Except.map, if_true]
      exact ⟨_, advance_of_settle hsettle s⟩

theorem checkFits_within {t : Tree} {frame : Frame σ} {offset : UInt64}
    (h : offset.toNat + t.bytes.length ≤ frame.stop.toNat) (outer : List (Frame σ)) :
    checkFits limit (frame :: outer) (t.header offset) = .ok () := by
  have hend : (t.header offset).valueEnd.toNat = offset.toNat + t.bytes.length := by
    rw [t.valueEnd_header]
    have := frame.stop.toNat_lt
    exact toNat_add_of_lt (by omega)
  have hle : ¬ (t.header offset).valueEnd > frame.stop := by
    rw [gt_iff_lt, UInt64.lt_iff_toNat_lt, hend]
    omega
  simp only [checkFits, hle, if_false]

theorem faces_within {t : Tree} (ht : t.WellFormed) (c : Cursor σ M) {frame : Frame σ}
    {offset : UInt64} (hfits : offset.toNat + t.bytes.length ≤ frame.stop.toNat)
    (outer : List (Frame σ)) : Faces g limit (c.within (frame :: outer) offset) t where
  wellFormed := ht
  settled := by
    have hpos := t.length_bytes_pos
    have hopen : frame.stop ≠ offset := by
      intro h
      obtain rfl := h
      omega
    exact settle_open rfl hopen
  incomplete := rfl
  fits := checkFits_within hfits outer

/-- An element inside a frame is visited, and then the engine stands behind it or, if it is
constructed, at its first child. -/
theorem leads_visit {t : Tree} (ht : t.WellFormed) (c : Cursor σ M) {frame : Frame σ}
    {offset : UInt64} (hfits : offset.toNat + t.bytes.length ≤ frame.stop.toNat)
    (outer : List (Frame σ)) (s : Bytes) :
    Leads g limit (c.within (frame :: outer) offset) (t.bytes ++ s)
      ((if t.isNode then t.content else []) ++ s)
      ((g.visit c (t.element offset (frame :: outer))).map fun c =>
        if t.isNode then
          c.within (⟨c.state, (t.header offset).valueEnd⟩ :: frame :: outer)
            (t.header offset).valueOffset
        else c.within (frame :: outer) (t.header offset).valueEnd) := by
  have hfaces : Faces g limit (c.within (frame :: outer) offset) t :=
    faces_within ht c hfits outer
  cases hvisit : g.visit c (t.element offset (frame :: outer)) with
  | error e => exact hfaces.halts hvisit s
  | ok c' =>
    obtain ⟨moved, hround⟩ := hfaces.goes_on hvisit s
    cases t with
    | leaf tag field value => exact ⟨moved, advance_of_more hround⟩
    | node tag field children => exact ⟨moved, advance_of_more hround⟩

/-- The children of an element that ends below 2^64 fit into it. -/
theorem Tree.children_fit {tag : UInt8} {field : Bytes} {children : List Tree} {offset : UInt64}
    (h : offset.toNat + (node tag field children).bytes.length < 0x10000000000000000) :
    ((node tag field children).header offset).valueOffset.toNat + (bytesAll children).length ≤
      ((node tag field children).header offset).valueEnd.toNat := by
  have hlength := (node tag field children).length_bytes offset
  rw [Tree.valueEnd_header, toNat_add_of_lt h]
  simp only [Header.valueOffset, header] at hlength ⊢
  rw [toNat_add_of_lt (by omega)]
  omega

/-- Once it is behind the children of an element the engine leaves it. -/
theorem leads_inside {tag : UInt8} {field : Bytes} {children : List Tree} {offset : UInt64}
    {c opened : Cursor σ M} {outer : List (Frame σ)} {s : Bytes}
    (hvisit : g.visit c ((Tree.node tag field children).element offset outer) = .ok opened)
    (hchildren :
      let h := (Tree.node tag field children).header offset
      let frames := ⟨opened.state, h.valueEnd⟩ :: outer
      Leads g limit (opened.within frames h.valueOffset) (Tree.bytesAll children ++ s) s
        ((g.walkAll frames h.valueOffset opened children).map fun c =>
          c.within frames h.valueEnd)) :
    let h := (Tree.node tag field children).header offset
    Leads g limit (opened.within (⟨opened.state, h.valueEnd⟩ :: outer) h.valueOffset)
      (Tree.bytesAll children ++ s) s
      ((g.walk outer offset c (.node tag field children)).map fun c =>
        c.within outer h.valueEnd) := by
  dsimp only at hchildren ⊢
  simp only [Grammar.walk, hvisit]
  cases hwalk : g.walkAll
      (⟨opened.state, ((Tree.node tag field children).header offset).valueEnd⟩ :: outer)
      ((Tree.node tag field children).header offset).valueOffset opened children with
  | error e =>
    rw [hwalk] at hchildren
    exact hchildren
  | ok c' =>
    rw [hwalk] at hchildren
    exact hchildren.trans (leads_leave c' ⟨opened.state, _⟩ outer s)

mutual

/-- Behind an element the engine stands where the walk stands, whatever follows. -/
theorem leads_walk (t : Tree) (ht : t.WellFormed) (c : Cursor σ M) (frame : Frame σ)
    (outer : List (Frame σ)) (offset : UInt64) (s : Bytes)
    (hfits : offset.toNat + t.bytes.length ≤ frame.stop.toNat) :
    Leads g limit (c.within (frame :: outer) offset) (t.bytes ++ s) s
      ((g.walk (frame :: outer) offset c t).map fun c =>
        c.within (frame :: outer) (t.header offset).valueEnd) :=
  match t, ht with
  | .leaf tag field value, ht => leads_visit ht c hfits outer s
  | .node tag field children, ht => by
    have hvisit : Leads g limit _ _ _ _ := leads_visit ht c hfits outer s
    cases hopened : g.visit c ((Tree.node tag field children).element offset (frame :: outer)) with
    | error e =>
      rw [hopened] at hvisit
      rw [Grammar.walk, hopened]
      exact hvisit
    | ok opened =>
      rw [hopened] at hvisit
      refine hvisit.trans (leads_inside hopened ?_)
      exact leads_walkAll children ht.2.2.2 opened _ (frame :: outer) _ s
        (Tree.children_fit (Nat.lt_of_le_of_lt hfits frame.stop.toNat_lt))

/-- Behind elements in a row the engine stands where the walk stands, whatever follows. -/
theorem leads_walkAll (ts : List Tree) (hts : Tree.AllWellFormed ts) (c : Cursor σ M)
    (frame : Frame σ) (outer : List (Frame σ)) (offset : UInt64) (s : Bytes)
    (hfits : offset.toNat + (Tree.bytesAll ts).length ≤ frame.stop.toNat) :
    Leads g limit (c.within (frame :: outer) offset) (Tree.bytesAll ts ++ s) s
      ((g.walkAll (frame :: outer) offset c ts).map fun c =>
        c.within (frame :: outer) (offset + (Tree.bytesAll ts).length.toUInt64)) :=
  match ts, hts with
  | [], _ => Leads.here (by simp [Tree.bytesAll])
  | t :: ts, ⟨ht, hts⟩ => by
    have hlt := frame.stop.toNat_lt
    simp only [Tree.bytesAll, List.length_append] at hfits
    have hhead := leads_walk t ht c frame outer offset (Tree.bytesAll ts ++ s) (by omega)
    have hend : (t.header offset).valueEnd.toNat = offset.toNat + t.bytes.length := by
      rw [t.valueEnd_header, toNat_add_of_lt (by omega)]
    rw [Grammar.walkAll, Tree.bytesAll, List.append_assoc]
    cases hwalk : g.walk (frame :: outer) offset c t with
    | error e =>
      rw [hwalk] at hhead
      exact hhead
    | ok c' =>
      rw [hwalk] at hhead
      have htail := leads_walkAll ts hts c' frame outer (t.header offset).valueEnd s (by omega)
      rw [show offset + (t.bytes ++ Tree.bytesAll ts).length.toUInt64 =
        (t.header offset).valueEnd + (Tree.bytesAll ts).length.toUInt64 by
          rw [t.valueEnd_header, UInt64.add_assoc, List.length_append]
          exact congrArg _ (UInt64.ofNat_add _ _)]
      exact hhead.trans htail

end

end

end LdapBer
