import LdapBer.Proofs.Decode.Walk

/-! Whole messages.

At the top level the engine decodes the bytes of a tree to what the walk makes of it, and stops
behind them (`advance_bytes`, `decode_bytes`). There is nothing else that it decodes: where it
comes to the end of a message it has taken the bytes of a tree (`tree_of_done`). -/
namespace LdapBer
variable {σ M : Type} {g : Grammar σ M} {limit : Option Nat}

/-! ### Trees are decoded -/

/-- With nothing open the engine has come to the end of a message. -/
theorem advance_complete (c : Cursor σ M) (offset : UInt64) (s : Bytes) :
    advance g limit (c.within [] offset) s = ⟨c.within [] offset, s, [], .done⟩ :=
  advance_of_halt rfl

theorem faces_fresh {t : Tree} (ht : t.WellFormed) {offset : UInt64}
    (hfits : checkFits limit ([] : List (Frame σ)) (t.header offset) = .ok ()) :
    Faces g limit (.fresh g offset) t :=
  ⟨ht, rfl, rfl, hfits⟩

/-- From the start of a message the engine comes to the end of a tree as the walk does. -/
theorem advance_bytes {t : Tree} (ht : t.WellFormed) {offset : UInt64}
    (hfits : checkFits limit ([] : List (Frame σ)) (t.header offset) = .ok ())
    (hlt : offset.toNat + t.bytes.length < 0x10000000000000000) (s : Bytes) :
    match g.read offset t with
    | .error e => (advance g limit (.fresh g offset) (t.bytes ++ s)).status = .failed e
    | .ok m =>
      ∃ (c : Cursor σ M) (events : List (Event σ)), c.message = m ∧
        advance g limit (.fresh g offset) (t.bytes ++ s) =
          ⟨c.within [] (t.header offset).valueEnd, s, events, .done⟩ := by
  have hfaces : Faces g limit (.fresh g offset) t := faces_fresh ht hfits
  cases t with
  | leaf tag field value =>
    rw [Grammar.read, Grammar.walk]
    cases hvisit : g.visit g.begin ((Tree.leaf tag field value).element offset []) with
    | error e => exact hfaces.halts hvisit s
    | ok c =>
      obtain ⟨moved, hround⟩ := hfaces.goes_on hvisit s
      cases hend : c.endAllowed with
      | false =>
        simp only [hend] at hround ⊢
        exact congrArg Outcome.status (advance_of_halt hround)
      | true =>
        simp only [hend] at hround ⊢
        exact ⟨c, moved, rfl, advance_of_halt hround⟩
  | node tag field children =>
    cases hvisit : g.visit g.begin ((Tree.node tag field children).element offset []) with
    | error e =>
      rw [Grammar.read, Grammar.walk, hvisit]
      exact hfaces.halts hvisit s
    | ok opened =>
      obtain ⟨moved, hround⟩ := hfaces.goes_on hvisit s
      have hadvance := advance_of_more hround
      have hinside : Leads g limit _ _ s _ := leads_inside hvisit
        (leads_walkAll children ht.2.2.2 opened _ [] _ s (Tree.children_fit hlt))
      rw [Grammar.read]
      cases hwalk : g.walk [] offset g.begin (.node tag field children) with
      | error e =>
        rw [hwalk] at hinside
        exact (congrArg Outcome.status hadvance).trans hinside
      | ok c =>
        rw [hwalk] at hinside
        obtain ⟨events, hevents⟩ := hinside
        refine ⟨c, moved ++ events, rfl, hadvance.trans ?_⟩
        refine (congrArg (Outcome.after moved) hevents).trans ?_
        rw [advance_complete, Outcome.after_after]
        simp [Outcome.after]

/-- At the top level it is the length in the header that is held against the limit. -/
theorem checkFits_nil_iff {h : Header} :
    checkFits limit ([] : List (Frame σ)) h = .ok () ↔ ∀ m, limit = some m → h.length ≤ m := by
  cases limit with
  | none => simp [checkFits]
  | some m => simp [checkFits]

/-- A tree that fits fits wherever it stands. -/
theorem Tree.checkFits_header {t : Tree} {offset : UInt64}
    (hfits : checkFits limit ([] : List (Frame σ)) (t.header offset) = .ok ()) (offset' : UInt64) :
    checkFits limit ([] : List (Frame σ)) (t.header offset') = .ok () := by
  rw [checkFits_nil_iff] at hfits ⊢
  cases t <;> exact hfits

/-- A byte string that is one tree is decoded to what the walk makes of the tree, if it fits. -/
theorem decode_bytes_of_fits {t : Tree} (ht : t.WellFormed)
    (hfits : checkFits limit ([] : List (Frame σ)) (t.header 0) = .ok ()) :
    g.decode limit t.bytes = g.read 0 t := by
  have hlt := Tree.length_bytes_lt ht
  have hadvance := advance_bytes (g := g) ht hfits (by simp only [UInt64.toNat_zero]; omega) []
  rw [List.append_nil] at hadvance
  rw [Grammar.decode, Grammar.run]
  cases hread : g.read 0 t with
  | error e =>
    rw [hread] at hadvance
    rw [Outcome.whole, hadvance]
  | ok m =>
    rw [hread] at hadvance
    obtain ⟨c, events, rfl, ha⟩ := hadvance
    rw [Outcome.whole, ha]
    rfl

theorem decode_bytes {t : Tree} (ht : t.WellFormed) : g.decode none t.bytes = g.read 0 t :=
  decode_bytes_of_fits ht rfl

/-! ### Nothing else is decoded -/

/-- The next element is a leaf, taken as a whole, or a node of which the header was taken. -/
theorem element_of_next {c : Container σ M} {s rest : Bytes} {tr : Transition σ M}
    {e : Element σ} (h : nextElement g limit c s = .ok (some (tr, e, rest))) :
    (∃ t : Tree, t.WellFormed ∧ checkFits limit c.frames (t.header c.offset) = .ok () ∧
      s = t.bytes ++ rest) ∨
    ∃ field : Bytes, Tag.number e.header.tag ≠ 31 ∧ e.header.isConstructed = true ∧
      LengthField e.header.length field ∧ e.header.offset = c.offset ∧
      e.header.size = 1 + field.length ∧ checkFits limit c.frames e.header = .ok () ∧
      s = e.header.tag :: (field ++ rest) := by
  have hfront := inFront_of_nextElement h
  obtain ⟨field, hfield, hsize, hs⟩ := hfront.bytes
  have hvalue := hfront.value
  by_cases hconstructed : e.header.isConstructed = true
  · rw [if_pos hconstructed] at hvalue
    rw [hvalue, List.append_nil] at hs
    exact .inr ⟨field, hfront.number, hconstructed, hfield, hfront.offset, hsize, hfront.fits, hs⟩
  · rw [if_neg hconstructed] at hvalue
    refine .inl ⟨.leaf e.header.tag field e.value, ⟨hfront.number, ?_, hvalue ▸ hfield⟩, ?_, hs⟩
    · exact eq_false_of_ne_true hconstructed
    · rw [Tree.header, hvalue, ← hfront.offset, ← hsize]
      exact hfront.fits

/-- A constructed element ends the decode early or is opened. -/
theorem enter_constructed (c : Container σ M) (tr : Transition σ M) {e : Element σ} (rest : Bytes)
    (h : e.header.isConstructed = true) :
    (∃ o, enter g c tr e rest = .halt o ∧ o.status ≠ .done) ∨
    ∃ (opened : Cursor σ M) (events : List (Event σ)), enter g c tr e rest =
      .more (opened.within (⟨opened.state, e.header.valueEnd⟩ :: c.frames) e.header.valueOffset)
        rest events := by
  simp only [enter, h, if_true]
  cases tr.act e c.message with
  | error o => exact .inl ⟨_, rfl, by simp⟩
  | ok acted => exact .inr ⟨⟨tr.next, acted.1, acted.2⟩, _, rfl⟩

theorem valueEnd_le_of_fits {frame : Frame σ} {outer : List (Frame σ)} {h : Header}
    (hfits : checkFits limit (frame :: outer) h = .ok ()) :
    h.valueEnd.toNat ≤ frame.stop.toNat := by
  simp only [checkFits] at hfits
  split at hfits
  · cases hfits
  · next hle =>
    rw [gt_iff_lt, UInt64.lt_iff_toNat_lt] at hle
    omega

/-- A header and what it announces are less than 2^33 bytes, so positions that stay that far
from 2^64 do not wrap. -/
theorem toNat_valueEnd {h : Header} {field : Bytes} (hfield : LengthField h.length field)
    (hsize : h.size = 1 + field.length)
    (hoffset : h.offset.toNat + 0x200000000 ≤ 0x10000000000000000) :
    h.valueOffset.toNat = h.offset.toNat + h.size ∧
      h.valueEnd.toNat = h.valueOffset.toNat + h.length ∧
      h.valueEnd.toNat < h.offset.toNat + 0x100000006 := by
  have hle := hfield.length_le
  have hlt := hfield.lt
  have hvalue : h.valueOffset.toNat = h.offset.toNat + h.size := toNat_add_of_lt (by omega)
  have hend : h.valueEnd.toNat = h.valueOffset.toNat + h.length := toNat_add_of_lt (by omega)
  omega

/-- Where the engine comes from a position between two elements to the end of a message, a tree
is in front of it, provided that the same is known of what is inside an element that it opens. -/
theorem tree_of_inside {c : Container σ M} {s : Bytes}
    (hoffset : c.offset.toNat + 0x200000000 ≤ 0x10000000000000000)
    (hsettle : c.settle g = ⟨c, [], none⟩) (hincomplete : c.isComplete = false)
    (h : (advance g limit c s).status = .done)
    (inside : ∀ (hd : Header) (opened : Cursor σ M) (rest : Bytes), rest.length < s.length →
      hd.valueOffset.toNat ≤ hd.valueEnd.toNat →
      hd.valueEnd.toNat < c.offset.toNat + 0x100000006 →
      checkFits limit c.frames hd = .ok () →
      (advance g limit
        (opened.within (⟨opened.state, hd.valueEnd⟩ :: c.frames) hd.valueOffset) rest).status =
          .done →
      ∃ (ts : List Tree) (rest' : Bytes), Tree.AllWellFormed ts ∧
        rest = Tree.bytesAll ts ++ rest' ∧
        hd.valueOffset.toNat + (Tree.bytesAll ts).length = hd.valueEnd.toNat) :
    ∃ (t : Tree) (rest : Bytes), t.WellFormed ∧
      checkFits limit c.frames (t.header c.offset) = .ok () ∧ s = t.bytes ++ rest := by
  have hround : round g limit c s = _ := round_of_open hsettle hincomplete s
  cases hn : nextElement g limit c s with
  | error e =>
    rw [hn] at hround
    rw [advance_of_halt hround] at h
    cases h
  | ok next =>
    rw [hn] at hround
    obtain _ | ⟨tr, e, rest⟩ := next
    · rw [advance_of_halt hround] at h
      cases h
    · dsimp only at hround
      obtain ⟨t, ht, hfits, hs⟩ |
        ⟨field, hnumber, hconstructed, hfield, hoff, hsize, hfits, hs⟩ := element_of_next hn
      · exact ⟨t, rest, ht, hfits, hs⟩
      · obtain ⟨o, ho, hne⟩ | ⟨opened, events, hmore⟩ :=
          enter_constructed (g := g) c tr rest hconstructed
        · rw [advance_of_halt (hround.trans ho)] at h
          exact absurd h hne
        · rw [advance_of_more (hround.trans hmore)] at h
          rw [← hoff] at hoffset
          obtain ⟨-, hend, hlt⟩ := toNat_valueEnd hfield hsize hoffset
          rw [hoff] at hlt
          have hshorter : rest.length < s.length := by
            rw [hs, List.length_cons, List.length_append]
            omega
          obtain ⟨ts, rest', hts, hrest, hlength⟩ :=
            inside e.header opened rest hshorter (by omega) hlt hfits h
          have hn : e.header.length = (Tree.bytesAll ts).length := by omega
          refine ⟨.node e.header.tag field ts, rest', ⟨hnumber, hconstructed, hn ▸ hfield, hts⟩,
            ?_, ?_⟩
          · rw [Tree.header, ← hn, ← hoff, ← hsize]
            exact hfits
          · rw [hs, hrest]
            simp [Tree.bytes]

/-- Where the engine comes to the end of a message inside a frame it has taken trees that fill
the frame. -/
theorem trees_of_done (c : Cursor σ M) (frame : Frame σ) (outer : List (Frame σ))
    (offset : UInt64) (s : Bytes) (hle : offset.toNat ≤ frame.stop.toNat)
    (hstop : frame.stop.toNat + 0x200000000 ≤ 0x10000000000000000)
    (h : (advance g limit (c.within (frame :: outer) offset) s).status = .done) :
    ∃ (ts : List Tree) (rest : Bytes), Tree.AllWellFormed ts ∧ s = Tree.bytesAll ts ++ rest ∧
      offset.toNat + (Tree.bytesAll ts).length = frame.stop.toNat := by
  by_cases hend : frame.stop = offset
  · exact ⟨[], s, trivial, rfl, congrArg UInt64.toNat hend.symm⟩
  · have hoffset : offset.toNat + 0x200000000 ≤ 0x10000000000000000 := by omega
    obtain ⟨t, rest, ht, hfits, hs⟩ := tree_of_inside
      (c := c.within (frame :: outer) offset) hoffset (settle_open rfl hend) rfl h
      fun hd opened rest hshorter hinside _ hfits hdone =>
        have hbound := valueEnd_le_of_fits hfits
        trees_of_done opened _ (frame :: outer) hd.valueOffset rest hinside (by dsimp only; omega)
          hdone
    have hpos := t.length_bytes_pos
    have hlt := Tree.length_bytes_lt ht
    have hvalueEnd : (t.header offset).valueEnd.toNat = offset.toNat + t.bytes.length := by
      rw [t.valueEnd_header, toNat_add_of_lt (by omega)]
    have hbound : (t.header offset).valueEnd.toNat ≤ frame.stop.toNat :=
      valueEnd_le_of_fits hfits
    have hlead : Leads g limit _ _ _ _ :=
      leads_walk t ht c frame outer offset rest (hvalueEnd ▸ hbound)
    rw [← hs] at hlead
    cases hwalk : g.walk (frame :: outer) offset c t with
    | error e =>
      rw [hwalk] at hlead
      exact absurd (hlead.symm.trans h) nofun
    | ok c' =>
      rw [hwalk] at hlead
      obtain ⟨events, hevents⟩ := hlead
      rw [hevents] at h
      have hshorter : rest.length < s.length := by
        rw [hs, List.length_append]
        omega
      obtain ⟨ts, rest', hts, hrest, hlength⟩ := trees_of_done c' frame outer _ rest
        hbound hstop h
      refine ⟨t :: ts, rest', ⟨ht, hts⟩, ?_, ?_⟩
      · rw [hs, hrest, Tree.bytesAll, List.append_assoc]
      · rw [Tree.bytesAll, List.length_append]
        omega
termination_by s.length

/-- A decode of a byte string succeeds where the message is complete and nothing is left. -/
theorem whole_eq_ok {b : Bytes} {m : M} (h : g.decode limit b = .ok m) :
    (g.run limit b).status = .done ∧ (g.run limit b).rest = [] ∧
      (g.run limit b).container.message = m := by
  rw [Grammar.decode, Outcome.whole] at h
  split at h
  · cases h
  · split at h <;> cases h
  · next hdone =>
    split at h
    · next hrest =>
      cases h
      exact ⟨hdone, List.isEmpty_iff.mp hrest, rfl⟩
    · cases h

/-- Where the engine comes to the end of a message it has taken a tree. -/
theorem tree_of_done {offset : UInt64} {s : Bytes}
    (hoffset : offset.toNat + 0x400000000 ≤ 0x10000000000000000)
    (h : (advance g limit (.fresh g offset) s).status = .done) :
    ∃ (t : Tree) (rest : Bytes), t.WellFormed ∧
      checkFits limit ([] : List (Frame σ)) (t.header offset) = .ok () ∧ s = t.bytes ++ rest := by
  have hclear : offset.toNat + 0x200000000 ≤ 0x10000000000000000 := by omega
  exact tree_of_inside (c := .fresh g offset) hclear rfl rfl h
    fun hd opened rest _ hinside hbound _ hdone =>
      have hbound : hd.valueEnd.toNat < offset.toNat + 0x100000006 := hbound
      trees_of_done opened _ [] hd.valueOffset rest hinside (by dsimp only; omega) hdone

/-- A byte string that is decoded is one tree, and the tree fits. -/
theorem fitting_tree_of_decode {b : Bytes} {m : M} (h : g.decode limit b = .ok m) :
    ∃ t : Tree, t.WellFormed ∧ checkFits limit ([] : List (Frame σ)) (t.header 0) = .ok () ∧
      t.bytes = b ∧ g.read 0 t = .ok m := by
  obtain ⟨hdone, hrest, hm⟩ := whole_eq_ok h
  obtain ⟨t, rest, ht, hfits, rfl⟩ := tree_of_done (by decide) hdone
  have hlt := Tree.length_bytes_lt ht
  have hadvance := advance_bytes (g := g) ht hfits
    (by simp only [UInt64.toNat_zero]; omega) rest
  simp only [Grammar.run] at hdone hrest hm
  cases hread : g.read 0 t with
  | error e =>
    rw [hread] at hadvance
    exact absurd (hadvance.symm.trans hdone) nofun
  | ok m' =>
    rw [hread] at hadvance
    obtain ⟨c, events, rfl, ha⟩ := hadvance
    rw [ha] at hrest hm
    cases hrest
    cases hm
    exact ⟨t, ht, hfits, (List.append_nil _).symm, hread⟩

theorem length_pos_of_decode {b : Bytes} {m : M} (h : g.decode limit b = .ok m) : 0 < b.length := by
  obtain ⟨t, -, -, rfl, -⟩ := fitting_tree_of_decode h
  exact t.length_bytes_pos

theorem tree_of_decode {b : Bytes} {m : M} (h : g.decode none b = .ok m) :
    ∃ t : Tree, t.WellFormed ∧ t.bytes = b ∧ g.read 0 t = .ok m := by
  obtain ⟨t, ht, -, hread⟩ := fitting_tree_of_decode h
  exact ⟨t, ht, hread⟩

end LdapBer
