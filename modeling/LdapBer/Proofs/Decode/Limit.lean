import Mathlib.Data.List.Infix
import LdapBer.Proofs.Decode.Runs

/-! What a limit on messages does.

A decoder holds the header of every message against its limit, as soon as this is complete, and no
other header. So a limit does not show in a stream without a message above it, and else it cuts the
stream in front of the first one (`limit_cuts`). -/
namespace LdapBer
variable {σ M S ε : Type} {g : Grammar σ M} {limit limit' : Option Nat} {c : Container σ M}

/-! ### The engine -/

/-- Inside a message the limit is not asked. -/
theorem nextElement_inside (h : c.frames ≠ []) (s : Bytes) :
    nextElement g limit c s = nextElement g limit' c s := by
  unfold nextElement
  cases hframes : c.frames with
  | nil => exact absurd hframes h
  | cons frame outer => rfl

theorem round_inside (h : c.started = true) (s : Bytes) :
    round g limit c s = round g limit' c s := by
  unfold round
  dsimp only
  split
  · rfl
  · split
    · rfl
    · next hopen =>
      have hframes : (c.settle g).container.frames ≠ [] := by
        intro hnil
        have hstarted := (started_closeFrames g c c.frames).trans h
        exact hopen (by simp [Container.isComplete, Container.settle, hstarted, ← hnil])
      rw [nextElement_inside hframes]

theorem advance_inside (h : c.started = true) (s : Bytes) :
    advance g limit c s = advance g limit' c s := by
  fun_induction advance g limit c s with
  | case1 c s o ho => exact (advance_of_halt ((round_inside h s).symm.trans ho)).symm
  | case2 c s c' rest events hr _ ih =>
    rw [ih (started_of_round_more hr)]
    exact (advance_of_more ((round_inside h s).symm.trans hr)).symm

/-- At the start of a message the limit is asked for what the header announces. -/
theorem nextElement_admitted {offset : UInt64} {m : Nat} {s : Bytes}
    (h : ∀ hd rest, Header.read offset s = .ok (some (hd, rest)) → hd.length ≤ m) :
    nextElement g (some m) (.fresh g offset) s = nextElement g none (.fresh g offset) s := by
  have hoffset : (Container.fresh g offset).offset = offset := rfl
  have hframes : (Container.fresh g offset).frames = [] := rfl
  unfold nextElement
  rw [hoffset, hframes]
  split
  · rfl
  · rfl
  · next hd rest hr =>
    have hle := h hd rest hr
    rw [checkFits, checkFits, if_neg (Nat.not_lt.mpr hle)]

theorem advance_admitted {offset : UInt64} {m : Nat} {s : Bytes}
    (h : ∀ hd rest, Header.read offset s = .ok (some (hd, rest)) → hd.length ≤ m) :
    advance g (some m) (.fresh g offset) s = advance g none (.fresh g offset) s := by
  have hround : round g (some m) (.fresh g offset) s = round g none (.fresh g offset) s := by
    rw [round_of_open rfl rfl, round_of_open rfl rfl, nextElement_admitted h]
  cases hr : round g none (.fresh g offset) s with
  | halt o => rw [advance_of_halt hr, advance_of_halt (hround.trans hr)]
  | more c rest events =>
    rw [advance_of_more hr, advance_of_more (hround.trans hr),
      advance_inside (started_of_round_more hr)]

/-- A message above the limit is refused as soon as its header is there. -/
theorem advance_oversized {offset : UInt64} {m : Nat} {s rest : Bytes} {hd : Header}
    (hr : Header.read offset s = .ok (some (hd, rest))) (hm : m < hd.length) :
    advance g (some m) (.fresh g offset) s =
      ⟨.fresh g offset, s, [], .failed (.pduTooLong hd.length m offset)⟩ := by
  obtain ⟨_, _, _, hoffset, _, _⟩ := Header.field_of_read hr
  have hnext : nextElement g (some m) (.fresh g offset) s =
      .error (.pduTooLong hd.length m offset) := by
    have hfits : checkFits (some m) ([] : List (Frame σ)) hd =
        .error (.pduTooLong hd.length m offset) := by
      rw [checkFits, if_pos hm, hoffset]
    simp only [nextElement, Container.fresh, hr, hfits]
  exact advance_of_halt (by rw [round_of_open rfl rfl, hnext])

/-- The header is there when its last byte is. -/
theorem Header.read_take {offset : UInt64} {s rest : Bytes} {hd : Header}
    (hr : read offset s = .ok (some (hd, rest))) (k : Nat) :
    read offset (s.take k) =
      if k < hd.size then .ok none else .ok (some (hd, rest.take (k - hd.size))) := by
  split
  · next hlt =>
    by_contra hread
    have happend := read_append offset (s.take k) (s.drop k) hread
    rw [List.take_append_drop, hr] at happend
    cases hcut : read offset (s.take k) with
    | error e =>
      rw [hcut] at happend
      cases happend
    | ok answer =>
      rw [hcut] at happend
      obtain _ | ⟨hd', rest'⟩ := answer
      · exact hread hcut
      · cases happend
        have hlength := length_of_read hcut
        rw [List.length_take] at hlength
        dsimp only at hlt
        omega
  · next hle =>
    obtain ⟨field, hfield, hnumber, rfl, hsize, rfl⟩ := field_of_read hr
    obtain ⟨j, rfl⟩ : ∃ j, k = hd.size + j := Nat.exists_eq_add_of_le (Nat.le_of_not_lt hle)
    have htake : (hd.tag :: (field ++ rest)).take (hd.size + j) =
        hd.tag :: (field ++ rest.take j) := by
      rw [← List.cons_append, hsize, Nat.add_comm 1, ← List.length_cons,
        List.take_length_add_append]
      rfl
    rw [htake, read_field hnumber hfield, Nat.add_sub_cancel_left, ← hsize]

/-! ### Starts of messages -/

/-- A decoder without a limit takes the first `n` bytes and the end of the input behind them: there
it stands at the start of a message. -/
def StartsMessage (g : Grammar σ M) (callback : Option (Callback M S ε)) (state : S) (s : Bytes)
    (n : Nat) : Prop :=
  n ≤ s.length ∧ ((Decoder.new g none callback).decode (s.take n) state).2.error = none ∧
    ((Decoder.new g none callback).decode (s.take n) state).1.finish.2 = none

/-- A message starts at `n` whose header is there and announces more than `m` bytes. -/
structure Oversized (g : Grammar σ M) (callback : Option (Callback M S ε)) (state : S) (m : Nat)
    (s : Bytes) (n : Nat) (hd : Header) : Prop where
  start : StartsMessage g callback state s n
  header : ∃ rest, Header.read n.toUInt64 (s.drop n) = .ok (some (hd, rest))
  length : m < hd.length

section
variable {callback : Option (Callback M S ε)} {state : S} {m n : Nat} {hd : Header} {s : Bytes}

theorem startsMessage_iff : StartsMessage g callback state s n ↔
    n ≤ s.length ∧ (feed g none callback (.fresh g 0) (s.take n) state).Completes := by
  rw [StartsMessage, Decoder.decode_new_iff]

theorem Oversized.append (h : Oversized g callback state m s n hd) (t : Bytes) :
    Oversized g callback state m (s ++ t) n hd := by
  obtain ⟨hle, hstart⟩ := h.start
  obtain ⟨rest, hr⟩ := h.header
  refine ⟨⟨?_, ?_⟩, ⟨rest ++ t, ?_⟩, h.length⟩
  · rw [List.length_append]
    omega
  · rw [List.take_append_of_le_length hle]
    exact hstart
  · rw [List.drop_append_of_le_length hle, Header.read_append _ _ _ (by simp [hr]), hr]
    rfl

/-- A run that has come to the start of a message stands in a session where a decoder would that has
just been made, the position apart. -/
theorem session_of_completes {p : Bytes}
    (h : (feed g limit callback (.fresh g 0) p state).Completes) (hlt : p.length < positionLimit) :
    (feed g limit callback (.fresh g 0) p state).container = .fresh g p.length.toUInt64 ∧
      ∃ start message, Session g limit start message (.fresh g p.length.toUInt64) ∧
        start + message.length = p.length := by
  obtain ⟨-, start, message, bytes, hsession, hp, hlength⟩ := session_of_feed .begin p state h.error
  rw [h.rest, List.append_nil] at hp
  rw [← hp, List.length_nil, Nat.zero_add] at hlength
  have hoffset := offset_of_session hsession (by omega)
  have hcontainer : (feed g limit callback (.fresh g 0) p state).container =
      .fresh g p.length.toUInt64 := by
    rw [fresh_of_session hsession h.unstarted]
    congr 1
    rw [← UInt64.toNat_inj, hoffset, hlength, toNat_toUInt64]
    rw [positionLimit] at hlt
    omega
  exact ⟨hcontainer, start, message, hcontainer ▸ hsession, hlength⟩

theorem feed_short {offset : UInt64} (h : Header.read offset s = .ok none) :
    feed g limit callback (.fresh g offset) s state = ⟨.fresh g offset, s, state, [], none⟩ := by
  have hnext : nextElement g limit (.fresh g offset) s = .ok none := by
    simp only [nextElement, Container.fresh, h]
  rw [feed_eq, advance_of_halt (by rw [round_of_open rfl rfl, hnext])]

theorem feed_oversized {offset : UInt64} {rest : Bytes}
    (hr : Header.read offset s = .ok (some (hd, rest))) (hm : m < hd.length) :
    feed g (some m) callback (.fresh g offset) s state =
      ⟨.fresh g offset, s, state, [], some (.decode (.pduTooLong hd.length m offset))⟩ := by
  rw [feed_eq, advance_oversized hr hm]

/-- Where a message is done and the callback takes it, a run may be cut. -/
theorem feed_cut {rest : Bytes} {c' : Container σ M} {events : List (Event σ)} {state' : S}
    (ha : advance g limit c s = ⟨c', rest, events, .done⟩)
    (hn : notify callback c' state = (state', none)) :
    ∃ bytes, s = bytes ++ rest ∧
      feed g limit callback c bytes state = ⟨c'.reset g, [], state', events, none⟩ := by
  obtain ⟨bytes, hs, hcut⟩ := advance_cut ha
  have ha := hcut []
  rw [List.append_nil] at ha
  refine ⟨bytes, hs, ?_⟩
  rw [feed_eq, ha]
  dsimp only
  rw [hn]
  dsimp only
  rw [Container.reset, feed_short rfl, Fed.after, List.append_nil]

/-! ### Streams without an oversized message -/

/-- At the start of a message that is not oversized the limit does not show. -/
theorem advance_behind {p t : Bytes} {st : S} {events : List (Event σ)}
    (hp : feed g none callback (.fresh g 0) p state = ⟨c, [], st, events, none⟩)
    (hc : c.started = false) (hsize : (p ++ t).length < 0x8000000000000000)
    (hover : ∀ n hd, ¬ Oversized g callback state m (p ++ t) n hd) :
    advance g (some m) c t = advance g none c t := by
  rw [List.length_append] at hsize
  have hcompletes : (feed g none callback (.fresh g 0) p state).Completes := hp ▸ ⟨rfl, hc, rfl⟩
  obtain ⟨hcontainer, -⟩ := session_of_completes hcompletes (by rw [positionLimit]; omega)
  rw [hp] at hcontainer
  dsimp only at hcontainer
  subst hcontainer
  refine advance_admitted fun hd rest hr => ?_
  by_contra hm
  refine hover p.length hd ⟨startsMessage_iff.mpr ⟨?_, ?_⟩, ⟨rest, ?_⟩, Nat.lt_of_not_le hm⟩
  · rw [List.length_append]
    omega
  · rwa [List.take_left]
  · rwa [List.drop_left]

/-- Where the runs agree up to the start of a message, they agree behind it. -/
theorem feed_behind {p t : Bytes} {st : S} {events : List (Event σ)}
    (hp : feed g none callback (.fresh g 0) p state = ⟨c, [], st, events, none⟩)
    (hc : c.started = false) (hsize : (p ++ t).length < 0x8000000000000000)
    (hover : ∀ n hd, ¬ Oversized g callback state m (p ++ t) n hd) :
    feed g (some m) callback c t st = feed g none callback c t st := by
  fun_induction feed g none callback c t st generalizing p events with
  | case1 c t st c' rest moved ha => rw [feed_eq, advance_behind hp hc hsize hover, ha]
  | case2 c t st c' rest moved e ha => rw [feed_eq, advance_behind hp hc hsize hover, ha]
  | case3 c t st c' rest moved ha st' e hn =>
    rw [feed_eq, advance_behind hp hc hsize hover, ha]
    dsimp only
    rw [hn]
  | case4 c t st c' rest moved ha st' hn _ ih =>
    rw [feed_eq, advance_behind hp hc hsize hover, ha]
    dsimp only
    rw [hn]
    dsimp only
    -- up to the end of the message the run has taken `p` and the bytes of the message
    obtain ⟨bytes, rfl, hcut⟩ := feed_cut ha hn
    have hresume := feed_resume (.fresh g 0) p bytes state (congrArg Fed.error hp)
    rw [hp] at hresume
    dsimp only at hresume
    rw [List.nil_append, hcut, Fed.after] at hresume
    rw [← List.append_assoc] at hsize hover
    rw [ih hresume rfl hsize hover]

theorem feed_admitted (hsize : s.length < 0x8000000000000000)
    (hover : ∀ n hd, ¬ Oversized g callback state m s n hd) :
    feed g (some m) callback (.fresh g 0) s state = feed g none callback (.fresh g 0) s state :=
  feed_behind (feed_short rfl) rfl hsize hover

/-! ### The first oversized message -/

/-- Up to the first oversized message the runs agree, and there they stand at the start of it. -/
theorem feed_before (hsize : s.length < 0x8000000000000000)
    (hn : Oversized g callback state m s n hd)
    (hfirst : ∀ n' hd', Oversized g callback state m s n' hd' → n ≤ n') :
    feed g (some m) callback (.fresh g 0) (s.take n) state =
        feed g none callback (.fresh g 0) (s.take n) state ∧
      (∃ st events, feed g none callback (.fresh g 0) (s.take n) state =
        ⟨.fresh g n.toUInt64, [], st, events, none⟩) ∧
      ∃ start message, Session g none start message (.fresh g n.toUInt64) ∧
        start + message.length = n := by
  obtain ⟨hle, hcompletes⟩ := startsMessage_iff.mp hn.start
  have hlength : (s.take n).length = n := by
    rw [List.length_take]
    omega
  obtain ⟨hcontainer, hsession⟩ :=
    session_of_completes hcompletes (by rw [positionLimit]; omega)
  rw [hlength] at hcontainer hsession
  refine ⟨feed_admitted (by omega) fun n' hd' hn' => ?_, ?_, hsession⟩
  · have hle' := hn'.start.1
    have hwhole := hn'.append (s.drop n)
    rw [List.take_append_drop] at hwhole
    -- nothing is read at the end of what comes before
    obtain rfl : n' = n := by
      have hge := hfirst n' hd' hwhole
      omega
    obtain ⟨rest, hr⟩ := hn'.header
    rw [List.drop_of_length_le (by omega)] at hr
    cases hr
  · have hfree := hcompletes.eq
    rw [hcontainer] at hfree
    exact ⟨_, _, hfree⟩

/-- The limited run fails when it has the header of the first oversized message, and not before. -/
theorem feed_take (hsize : s.length < 0x8000000000000000)
    (hn : Oversized g callback state m s n hd)
    (hfirst : ∀ n' hd', Oversized g callback state m s n' hd' → n ≤ n') (k : Nat) :
    (feed g (some m) callback (.fresh g 0) (s.take k) state).error =
        (if k < n + hd.size then none else some (.decode (.pduTooLong hd.length m n.toUInt64))) ∧
      (n ≤ k → (feed g (some m) callback (.fresh g 0) (s.take k) state).state =
        (feed g none callback (.fresh g 0) (s.take n) state).state) := by
  obtain ⟨hsame, ⟨st, events, hfree⟩, -⟩ := feed_before hsize hn hfirst
  obtain ⟨rest, hr⟩ := hn.header
  rw [hfree] at hsame
  rcases Nat.lt_or_ge k n with hlt | hge
  · refine ⟨?_, fun hge => absurd hlt (Nat.not_lt.mpr hge)⟩
    rw [if_pos (by omega)]
    by_contra hfails
    have happend := feed_append (.fresh g 0) (s.take k) ((s.drop k).take (n - k)) state hfails
    rw [← List.take_add, Nat.add_sub_cancel' (Nat.le_of_lt hlt), hsame] at happend
    exact hfails (congrArg Fed.error happend).symm
  · obtain ⟨j, rfl⟩ := Nat.exists_eq_add_of_le hge
    have hresume := feed_resume (.fresh g 0) (s.take n) ((s.drop n).take j) state
      (congrArg Fed.error hsame)
    rw [← List.take_add, hsame] at hresume
    dsimp only at hresume
    rw [List.nil_append] at hresume
    have hread := Header.read_take hr j
    rw [hresume, hfree]
    by_cases hj : j < hd.size
    · rw [if_pos hj] at hread
      rw [if_pos (by omega), feed_short hread]
      exact ⟨rfl, fun _ => rfl⟩
    · rw [if_neg hj] at hread
      rw [if_neg (by omega), feed_oversized hread hn.length]
      exact ⟨rfl, fun _ => rfl⟩

/-! ### What is delivered -/

theorem oversized_watched :
    Oversized g (some (watched callback)) (state, []) m s n hd ↔
      Oversized g callback state m s n hd := by
  have hstart : StartsMessage g (some (watched callback)) (state, []) s n ↔
      StartsMessage g callback state s n := by
    rw [startsMessage_iff, startsMessage_iff, feed_watched]
    exact and_congr_right fun _ => ⟨fun h => ⟨h.error, h.unstarted, h.rest⟩,
      fun h => ⟨h.error, h.unstarted, h.rest⟩⟩
  exact ⟨fun h => ⟨hstart.mp h.start, h.header, h.length⟩,
    fun h => ⟨hstart.mpr h.start, h.header, h.length⟩⟩

/-- What the unlimited run delivers of the messages up to the first oversized one is what ends there
at the latest. -/
theorem calls_before (hsize : s.length < 0x8000000000000000)
    (hn : Oversized g callback state m s n hd)
    (hfirst : ∀ n' hd', Oversized g callback state m s n' hd' → n ≤ n') :
    calls g none callback (.fresh g 0) (s.take n) state =
      (calls g none callback (.fresh g 0) s state).filter fun d => d.stop.toNat ≤ n := by
  obtain ⟨-, ⟨st, events, hfree⟩, start, message, hsession, hposition⟩ :=
    feed_before hsize hn hfirst
  have hle := hn.start.1
  have hlength : (s.take n).length = n := by
    rw [List.length_take]
    omega
  let before := calls g none callback (.fresh g 0) (s.take n) state
  let behind := calls g none callback (.fresh g n.toUInt64) (s.drop n) st
  have hends : ∀ d ∈ before, d.stop.toNat ≤ n := by
    intro d hd
    have hstops := stops_of_session .begin rfl (s.take n) state
      (by rw [List.length_nil, hlength, positionLimit]; omega) d hd
    rw [List.length_nil, hlength] at hstops
    omega
  have hstarts : ∀ d ∈ behind, n < d.stop.toNat := by
    intro d hd
    have hstops := stops_of_session hsession rfl (s.drop n) st
      (by rw [hposition, List.length_drop, positionLimit]; omega) d hd
    omega
  have happend := calls_append (.fresh g 0) (s.take n) (s.drop n) state (congrArg Fed.error hfree)
  rw [List.take_append_drop, hfree] at happend
  dsimp only at happend
  rw [List.nil_append] at happend
  have hearly : before.filter (fun d => d.stop.toNat ≤ n) = before :=
    List.filter_eq_self.mpr fun d hd => decide_eq_true (hends d hd)
  have hlate : behind.filter (fun d => d.stop.toNat ≤ n) = [] :=
    List.filter_eq_nil_iff.mpr fun d hd => by simpa using hstarts d hd
  rw [happend, List.filter_append, hearly, hlate, List.append_nil]

end

/-! ### Chunks -/

theorem Fed.after_inj {events : List (Event σ)} {f f' : Fed σ M S ε} :
    f.after events = f'.after events ↔ f = f' := by
  cases f
  cases f'
  simp [Fed.after]

namespace Decoder

theorem decode_limited {d : Decoder σ M S ε} {limit : Option Nat} {chunk : Bytes} {state : S}
    (h : ({d with limit := limit} : Decoder σ M S ε).fed chunk state = d.fed chunk state) :
    ({d with limit := limit} : Decoder σ M S ε).decode chunk state =
      ({(d.decode chunk state).1 with limit := limit}, (d.decode chunk state).2) := by
  unfold fed at h
  unfold decode
  split
  · rfl
  · dsimp only
    rw [h]

/-- Decoders that differ in the limit do the same if their runs do, however much input there is. -/
theorem decodeAll_limited {d : Decoder σ M S ε} (hd : d.isFailed = false) {limit : Option Nat}
    (chunks : List Bytes) (state : S)
    (h : ∀ k, ({d with limit := limit} : Decoder σ M S ε).fed (chunks.flatten.take k) state =
      d.fed (chunks.flatten.take k) state) :
    ({d with limit := limit} : Decoder σ M S ε).decodeAll chunks state =
      ({(d.decodeAll chunks state).1 with limit := limit}, (d.decodeAll chunks state).2) := by
  induction chunks generalizing d state with
  | nil => rfl
  | cons chunk chunks ih =>
    let bound : Decoder σ M S ε := {d with limit := limit}
    have hbound : bound.isFailed = false := hd
    have hchunk := h chunk.length
    rw [List.flatten_cons, List.take_left] at hchunk
    have hdecode := decode_limited hchunk
    by_cases herror : (d.fed chunk state).error = none
    · have herror' : (bound.fed chunk state).error = none := hchunk ▸ herror
      have hd' : (d.decode chunk state).1.isFailed = false := by rw [decode_eq hd herror]; exact hd
      rw [decodeAll_cons_of_ok hd herror, decodeAll_cons_of_ok hbound herror', hdecode, hchunk]
      rw [ih hd' (d.fed chunk state).state fun k => ?_]
      -- the runs over more input agree, so they do behind the chunk
      have hmore := h (chunk.length + k)
      rw [List.flatten_cons, List.take_length_add_append, fed_resume hd _ _ _ herror,
        fed_resume hbound _ _ _ herror', hdecode, hchunk] at hmore
      exact Fed.after_inj.mp hmore
    · have herror' : (bound.fed chunk state).error ≠ none := hchunk ▸ herror
      rw [decodeAll_cons_of_error hd herror, decodeAll_cons_of_error hbound herror', hdecode]

end Decoder

/-- **A limit cuts the stream at the first oversized message and does nothing else.** Take a decoder
with a limit and one without. If no message starts, where the decoder without a limit comes, with a
header that announces more than the limit, the two do the same, message by message, and end in the
same state. Otherwise the limited decoder delivers what ends where the first such message starts, or
before, and then it fails and names that position. It does so in the call that has the last byte of
the header, whatever comes behind it. -/
theorem limit_cuts (g : Grammar σ M) (callback : Option (Callback M S ε)) (state : S) (m : Nat)
    (chunks : List Bytes) (hsize : chunks.flatten.length < 0x8000000000000000) :
    let free := Decoder.new g none callback
    let bound := Decoder.new g (some m) callback
    ((∀ n hd, ¬ Oversized g callback state m chunks.flatten n hd) →
      bound.decodeAll chunks state =
          ({(free.decodeAll chunks state).1 with limit := some m},
            (free.decodeAll chunks state).2) ∧
        bound.delivered chunks state = free.delivered chunks state) ∧
    ∀ n hd, Oversized g callback state m chunks.flatten n hd →
      (∀ n' hd', Oversized g callback state m chunks.flatten n' hd' → n ≤ n') →
      (∀ k, (bound.decodeAll (chunks.take k) state).2.error =
        if (chunks.take k).flatten.length < n + hd.size then none
        else some (.decode (.pduTooLong hd.length m n.toUInt64))) ∧
      (bound.decodeAll chunks state).2.state =
        (free.decode (chunks.flatten.take n) state).2.state ∧
      bound.delivered chunks state =
        (free.delivered chunks state).filter fun d => d.stop.toNat ≤ n := by
  intro free bound
  refine ⟨fun hover => ⟨?_, ?_⟩, fun n hd hn hfirst => ?_⟩
  · have hfree : free.isFailed = false := rfl
    refine Decoder.decodeAll_limited hfree chunks state fun k => ?_
    have htake : (chunks.flatten.take k).length < 0x8000000000000000 := by
      rw [List.length_take]
      omega
    refine feed_admitted htake fun n hd hn => hover n hd ?_
    rw [← List.take_append_drop k chunks.flatten]
    exact hn.append _
  · rw [Decoder.delivered_new, Decoder.delivered_new, calls, calls,
      feed_admitted hsize fun n hd hn => hover n hd (oversized_watched.mp hn)]
  · have hfirst' : ∀ n' hd',
        Oversized g (some (watched callback)) (state, []) m chunks.flatten n' hd' → n ≤ n' :=
      fun n' hd' hn' => hfirst n' hd' (oversized_watched.mp hn')
    refine ⟨fun k => ?_, ?_, ?_⟩
    · have hprefix : (chunks.take k).flatten <+: chunks.flatten :=
        (List.take_prefix k chunks).flatten
      have htake := (feed_take hsize hn hfirst (chunks.take k).flatten.length).1
      rw [← List.prefix_iff_eq_take.mp hprefix] at htake
      rw [Decoder.reply_of_decodeAll_new]
      exact htake
    · have htake := (feed_take hsize hn hfirst chunks.flatten.length).2 hn.start.1
      rw [List.take_length] at htake
      rw [Decoder.reply_of_decodeAll_new, Decoder.reply_of_decode rfl, Decoder.fed_new]
      exact htake
    · have htake :=
        (feed_take hsize (oversized_watched.mpr hn) hfirst' chunks.flatten.length).2 hn.start.1
      rw [List.take_length] at htake
      rw [Decoder.delivered_new, Decoder.delivered_new, calls, htake]
      exact calls_before hsize hn hfirst

/-- The limit admits an unbind request of five bytes. The request behind it announces six, and it is
refused with its length byte. -/
theorem limit_cuts_unbind :
    let quiet : Option (Callback Message Unit Empty) := none
    let chunks : List Bytes := [[0x30, 0x05, 0x02, 0x01, 0x02, 0x42], [0x00, 0x30], [0x06], [0x02]]
    let bound := Decoder.new Message.grammar (some 5) quiet
    chunks.flatten.length < 0x8000000000000000 ∧
      Oversized Message.grammar quiet () 5 chunks.flatten 7 ⟨0x30, 6, 7, 2⟩ ∧
      (bound.decodeAll (chunks.take 2) ()).2.error = none ∧
      (bound.decodeAll (chunks.take 3) ()).2.error = some (.decode (.pduTooLong 6 5 7)) ∧
      bound.delivered chunks () = [⟨7, {id := 2, operation := .unbindRequest}, ()⟩] := by
  intro quiet chunks bound
  have hsize : chunks.flatten.length < 0x8000000000000000 := by decide
  have hn : Oversized Message.grammar quiet () 5 chunks.flatten 7 ⟨0x30, 6, 7, 2⟩ :=
    ⟨⟨by decide, by decide +kernel, by decide +kernel⟩, ⟨[0x02], rfl⟩, by decide⟩
  have hfirst : ∀ n' hd', Oversized Message.grammar quiet () 5 chunks.flatten n' hd' → 7 ≤ n' := by
    intro n' hd' hn'
    by_contra hlt
    rcases Nat.eq_zero_or_pos n' with rfl | hpos
    · have hread : Header.read 0 chunks.flatten =
          .ok (some (⟨0x30, 5, 0, 2⟩, chunks.flatten.drop 2)) := rfl
      obtain ⟨rest, hr⟩ := hn'.header
      cases hr.symm.trans hread
      exact absurd hn'.length (by decide)
    · have hinside : ∀ k < 7, 0 < k → ((Decoder.new Message.grammar none quiet).decode
          (chunks.flatten.take k) ()).1.finish.2 ≠ none := by decide +kernel
      exact hinside n' (Nat.lt_of_not_le hlt) hpos hn'.start.2.2
  obtain ⟨herror, -, hdelivered⟩ :=
    (limit_cuts Message.grammar quiet () 5 chunks hsize).2 7 ⟨0x30, 6, 7, 2⟩ hn hfirst
  refine ⟨hsize, hn, herror 2, herror 3, hdelivered.trans ?_⟩
  decide +kernel

end LdapBer
