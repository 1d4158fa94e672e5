import LdapBer.Proofs.Decode.Runs

/-! What a decoder retains between two calls.

A decoder keeps the bytes that no element has taken and puts them in front of the next chunk. As
long as its calls return normally nothing is lost and nothing is kept twice: the position and the
number of pending bytes add up to what was fed, and what is pending is the end of it, the beginning
of a single element (`retained_of_given`). Under a limit on messages this bounds the memory that a
peer can make the decoder use, since an element inside a message ends where the message does. -/
namespace LdapBer
variable {σ M S ε : Type} {g : Grammar σ M} {limit : Option Nat} {c : Container σ M}

/-! ### The beginning of an element -/

/-- The beginning of an element that may come next in state `s`: up to five bytes of a header, or
the header of a primitive element that has its place there and a part of the value. -/
inductive BeginsElement (g : Grammar σ M) (s : σ) : Bytes → Prop
  | header {tag : UInt8} {n : Nat} {field kept more : Bytes} (hnumber : Tag.number tag ≠ 31)
      (hfield : LengthField n field) (hkept : kept ++ more = tag :: field) (hmore : more ≠ [])
      (hlength : kept.length ≤ 5) : BeginsElement g s kept
  | value {tag : UInt8} {n : Nat} {field value : Bytes} {t : Transition σ M}
      (hnumber : Tag.number tag ≠ 31) (hfield : LengthField n field)
      (hprimitive : Tag.isConstructed tag = false) (ht : g.transition s tag = some t)
      (hlt : value.length < n) : BeginsElement g s (tag :: (field ++ value))

/-- Whatever is read as a part of a header can be completed to one. -/
theorem Header.completes_of_read {offset : UInt64} {s : Bytes} (h : read offset s = .ok none) :
    ∃ (tag : UInt8) (n : Nat) (field more : Bytes), Tag.number tag ≠ 31 ∧ LengthField n field ∧
      s ++ more = tag :: field ∧ more ≠ [] := by
  have hzero : LengthField 0 [0] := .short (by decide)
  match s with
  | [] => exact ⟨0, 0, [0], [0, 0], by decide, hzero, rfl, by decide⟩
  | [tag] =>
    by_cases hnumber : Tag.number tag = 31
    · simp [read, hnumber] at h
    · exact ⟨tag, 0, [0], [0], hnumber, hzero, rfl, by decide⟩
  | tag :: first :: digits =>
    by_cases hnumber : Tag.number tag = 31
    · simp [read, hnumber] at h
    · by_cases hshort : first < 0x80
      · simp [read, hnumber, hshort] at h
      · simp only [read, hnumber, hshort, if_false] at h
        split at h
        · cases h
        · next hpos =>
          split at h
          · cases h
          · next hle =>
            split at h
            · next hs =>
              have hlt := splitExact_eq_none_iff.mp hs
              let missing : Bytes := .replicate (first.toNat - 0x80 - digits.length) 0
              have hlength : (digits ++ missing).length = first.toNat - 0x80 := by
                simp only [missing, List.length_append, List.length_replicate]
                omega
              have hmissing : missing ≠ [] := by
                simp only [missing, ne_eq, List.replicate_eq_nil_iff]
                omega
              exact ⟨tag, _, _, missing, hnumber,
                .of_count hshort hlength (by omega) (by omega), rfl, hmissing⟩
            · cases h

/-- A header has six bytes at most. -/
theorem Header.length_le_of_read {offset : UInt64} {s : Bytes} (h : read offset s = .ok none) :
    s.length ≤ 5 := by
  obtain ⟨tag, n, field, more, -, hfield, hkept, hmore⟩ := completes_of_read h
  have hlength := congrArg List.length hkept
  have hpos := List.length_pos_iff.mpr hmore
  have hle := hfield.length_le
  rw [List.length_append, List.length_cons] at hlength
  omega

theorem Waits.beginsElement {s : Bytes} (h : Waits g limit c s) : BeginsElement g c.state s := by
  obtain hr | ⟨hd, value, t, hr, -, ht, hprimitive, hlt⟩ := short_of_nextElement h.short
  · obtain ⟨tag, n, field, more, hnumber, hfield, hkept, hmore⟩ := Header.completes_of_read hr
    exact .header hnumber hfield hkept hmore (Header.length_le_of_read hr)
  · obtain ⟨field, hfield, hnumber, -, -, rfl⟩ := Header.field_of_read hr
    exact .value hnumber hfield hprimitive ht hlt

/-! ### How long it is -/

theorem BeginsElement.length_lt {s : σ} {kept : Bytes} (h : BeginsElement g s kept) :
    kept.length < 0x200000000 := by
  cases h with
  | header _ _ _ _ hlength => omega
  | value _ hfield _ _ hlt =>
    have hle := hfield.length_le
    have hlength := hfield.lt
    rw [List.length_cons, List.length_append]
    omega

/-- The outermost end is that of a frame. -/
theorem Container.exists_stop_eq_outermost (hframes : c.frames ≠ []) :
    ∃ frame ∈ c.frames, frame.stop = c.outermost := by
  refine ⟨c.frames.getLast hframes, List.getLast_mem hframes, ?_⟩
  rw [outermost, List.getLastD_eq_getLast?, List.getLast?_map,
    List.getLast?_eq_some_getLast hframes]
  rfl

/-- Under a limit on messages no element that fits announces more than this. One at the top level is
the message, which the limit admits, and any other ends where the message does, or before. -/
theorem Tracks.length_le {m start : Nat} {message field : Bytes} {hd : Header}
    (h : Tracks (some m) start message c) (hlt : start + message.length < 0x8000000000000000)
    (hfits : checkFits (some m) c.frames hd = .ok ()) (hposition : hd.offset = c.offset)
    (hfield : LengthField hd.length field) (hsize : hd.size = 1 + field.length) :
    hd.length ≤ m := by
  by_cases hframes : c.frames = []
  · rw [hframes] at hfits
    exact checkFits_nil_iff.mp hfits m rfl
  · obtain ⟨frame, hframe, hstop⟩ := Container.exists_stop_eq_outermost hframes
    have hwithin := UInt64.le_iff_toNat_le.mp (h.valueEnd_le hfits frame hframe)
    have hstarted : c.started = true := by
      by_contra hunstarted
      exact hframes (h.unstarted (eq_false_of_ne_true hunstarted)).2
    obtain ⟨top, content, hread, hadmitted, houtermost⟩ := h.started hstarted
    have hadmitted : top.length ≤ m := hadmitted m rfl
    have htop := Header.length_of_read hread
    have hoffset := h.offset
    obtain ⟨hvalue, hend, -⟩ := toNat_valueEnd hfield hsize (by rw [hposition]; omega)
    rw [hstop, houtermost] at hwithin
    rw [hposition] at hvalue
    omega

theorem Waits.length_le {m start : Nat} {message s : Bytes} (h : Waits g (some m) c s)
    (htracks : Tracks (some m) start message c)
    (hlt : start + message.length < 0x8000000000000000) : s.length ≤ m + 5 := by
  obtain hr | ⟨hd, value, t, hr, hfits, -, -, hshort⟩ := short_of_nextElement h.short
  · have hle := Header.length_le_of_read hr
    omega
  · have hlength := Header.length_of_read hr
    obtain ⟨field, hfield, -, hposition, hsize, -⟩ := Header.field_of_read hr
    have hadmitted := htracks.length_le hlt hfits hposition hfield hsize
    have hle := hfield.length_le
    omega

/-! ### What was given -/

namespace Decoder

/-- The decoder was given these bytes since it was made or reset, and all calls returned
normally. -/
inductive Given : Bytes → Decoder σ M S ε → Prop
  | new (g : Grammar σ M) (limit : Option Nat) (callback : Option (Callback M S ε)) :
      Given [] (new g limit callback)
  | reset (d : Decoder σ M S ε) : Given [] d.reset
  | setCallback {input : Bytes} {d : Decoder σ M S ε} (h : Given input d)
      (callback : Option (Callback M S ε)) : Given input (d.setCallback callback)
  | decode {input : Bytes} {d : Decoder σ M S ε} (h : Given input d) (chunk : Bytes) (state : S)
      (hok : (d.decode chunk state).2.error = none) :
      Given (input ++ chunk) (d.decode chunk state).1
  | finish {input : Bytes} {d : Decoder σ M S ε} (h : Given input d) (hok : d.finish.2 = none) :
      Given input d.finish.1

variable {d : Decoder σ M S ε} {input : Bytes}

/-- A decoder stands in a session that has consumed all but the pending bytes of what was given. -/
structure Stands (input : Bytes) (d : Decoder σ M S ε) : Prop where
  usable : d.isFailed = false
  waits : Waits d.grammar d.limit d.container d.pending
  session : ∃ start message consumed, Session d.grammar d.limit start message d.container ∧
    input = consumed ++ d.pending ∧ start + message.length = consumed.length

theorem stands_new (g : Grammar σ M) (limit : Option Nat) (callback : Option (Callback M S ε)) :
    (new g limit callback).Stands [] :=
  ⟨rfl, ⟨rfl, rfl, rfl⟩, 0, [], [], .begin, rfl, rfl⟩

theorem Stands.decode (h : d.Stands input) {chunk : Bytes} {state : S}
    (hok : (d.decode chunk state).2.error = none) :
    (d.decode chunk state).1.Stands (input ++ chunk) := by
  obtain ⟨start, message, consumed, hsession, rfl, hconsumed⟩ := h.session
  rw [reply_of_decode h.usable] at hok
  rw [decode_eq h.usable hok]
  obtain ⟨hwaits, start', message', bytes, hsession', hinput, hlength⟩ :=
    session_of_feed hsession (d.pending ++ chunk) state hok
  refine ⟨h.usable, hwaits, start', message', consumed ++ bytes, hsession', ?_, ?_⟩
  · rw [List.append_assoc, hinput, List.append_assoc]
    rfl
  · rw [hlength, hconsumed, List.length_append]

theorem Given.stands (h : d.Given input) : d.Stands input := by
  induction h with
  | new g limit callback => exact stands_new g limit callback
  | reset d => exact stands_new d.grammar d.limit d.callback
  | setCallback _ callback ih => exact ⟨ih.usable, ih.waits, ih.session⟩
  | decode _ chunk state hok ih => exact ih.decode hok
  | @finish input d _ hok ih =>
    have hfinish : d.finish.1 = d := by rw [finish_eq, hok, Option.isSome_none, ← ih.usable]
    rw [hfinish]
    exact ih

/-- **Nothing is lost, and little is kept.** While the calls of a decoder return normally, the
position and the number of pending bytes add up to what it was given. The pending bytes are the end
of that, and they are the beginning of one element that may come next: of its header, or its header,
if that is of a primitive element, and a part of the value. So under a limit on messages no more
than this and five bytes are ever pending. -/
theorem retained_of_given (h : d.Given input) (hsize : input.length < 0x8000000000000000) :
    d.container.offset.toNat + d.pending.length = input.length ∧ d.pending <:+ input ∧
      BeginsElement d.grammar d.container.state d.pending ∧
      ∀ m, d.limit = some m → d.pending.length ≤ m + 5 := by
  have hstands := h.stands
  obtain ⟨start, message, consumed, hsession, hinput, hconsumed⟩ := hstands.session
  have hlength := congrArg List.length hinput
  rw [List.length_append] at hlength
  have hlt : start + message.length < positionLimit := by
    rw [positionLimit]
    omega
  have htracks := tracks_of_session hsession hlt
  refine ⟨?_, hinput ▸ List.suffix_append .., hstands.waits.beginsElement, fun m hm => ?_⟩
  · rw [htracks.offset]
    omega
  · have hwaits := hstands.waits
    rw [hm] at hwaits htracks
    exact hwaits.length_le htracks (by omega)

/-- A decoder that admits ten bytes is given the start of an unbind request in two pieces. -/
theorem retained_of_given_unbind :
    let d := (((new Message.grammar (some 10) (none : Option (Callback Message Unit Empty))).decode
      [0x30] ()).1.decode [0x05, 0x02, 0x01] ()).1
    d.pending = [0x02, 0x01] ∧ d.container.offset.toNat + d.pending.length = 4 ∧
      BeginsElement d.grammar d.container.state d.pending ∧ d.pending.length ≤ 15 := by
  intro d
  have hgiven : d.Given [0x30, 0x05, 0x02, 0x01] :=
    ((Given.new Message.grammar (some 10) none).decode [0x30] () (by decide +kernel)).decode
      [0x05, 0x02, 0x01] () (by decide +kernel)
  obtain ⟨hlength, -, hbegins, hbound⟩ := retained_of_given hgiven (by decide)
  exact ⟨by decide +kernel, hlength, hbegins, hbound 10 (by simp [d, new])⟩

end Decoder

end LdapBer
