import LdapBer.Proofs.Decode.Deliveries
import LdapBer.Proofs.Decode.Frames

/-! Runs as sessions.

A run over the input uses the engine as a session does: it gives it what is left of the input and
resets it behind every message (`session_of_feed`). So what holds in a session holds along a run,
first of all that the position counts the bytes that were taken. Where a run stops without an error
the engine waits for an element that is not all there (`Waits`). Where it has come to the end of a
message it has looked at the bytes of the message and at none behind them (`advance_cut`). -/
namespace LdapBer
variable {σ M S ε : Type} {g : Grammar σ M} {limit : Option Nat} {c c' : Container σ M}

/-! ### Waiting -/

/-- The engine has closed what ends here and waits for an element of which `s` is all there is. -/
structure Waits (g : Grammar σ M) (limit : Option Nat) (c : Container σ M) (s : Bytes) : Prop where
  settled : c.settle g = ⟨c, [], none⟩
  incomplete : c.isComplete = false
  short : nextElement g limit c s = .ok none

theorem waits_of_advance (c : Container σ M) (s : Bytes)
    (h : (advance g limit c s).status = .needMore) :
    Waits g limit (advance g limit c s).container (advance g limit c s).rest := by
  fun_induction advance g limit c s with
  | case1 c s o ho =>
    have heffect := round_effect g limit c s
    rw [ho] at heffect
    cases heffect with
    | stops _ hwaits =>
      obtain ⟨hsettle, hopen, hshort⟩ := hwaits h
      exact ⟨settle_again c hsettle, hopen, hshort⟩
    | fails _ hstatus => cases h.symm.trans hstatus
    | completes => cases h
  | case2 c s c' rest events hr _ ih => exact ih h

/-! ### The bytes of a message -/

/-- What is taken of an element is all that the engine waits for. -/
theorem InFront.decided {bytes rest : Bytes} {t : Transition σ M} {e : Element σ}
    (h : InFront g limit c (bytes ++ rest) t e rest) : nextElement g limit c bytes ≠ .ok none := by
  obtain ⟨field, hfield, hsize, hbytes⟩ := h.bytes
  obtain rfl := List.append_cancel_right hbytes
  have hread := Header.read_field h.number hfield c.offset e.value
  intro hshort
  obtain hr | ⟨hd, value, -, hr, -, -, hprimitive, hlt⟩ := short_of_nextElement hshort
  · cases hr.symm.trans hread
  · cases hr.symm.trans hread
    have hopen : ¬ e.header.isConstructed = true := ne_true_of_eq_false hprimitive
    have hvalue := h.value
    rw [if_neg hopen] at hvalue
    exact absurd hvalue (Nat.ne_of_lt hlt)

/-- What is taken of an element does not depend on what is behind it. -/
theorem nextElement_cut {bytes rest : Bytes} {t : Transition σ M} {e : Element σ}
    (h : nextElement g limit c (bytes ++ rest) = .ok (some (t, e, rest))) (s : Bytes) :
    nextElement g limit c (bytes ++ s) = .ok (some (t, e, s)) := by
  have hnext := (inFront_of_nextElement h).decided
  have happend := nextElement_append bytes rest hnext
  rw [nextElement_append bytes s hnext]
  cases hcut : nextElement g limit c bytes with
  | error err =>
    rw [h, hcut] at happend
    cases happend
  | ok next =>
    rw [h, hcut] at happend
    obtain _ | ⟨t', e', rest'⟩ := next
    · exact absurd hcut hnext
    · simp only [Except.map, Option.map, Except.ok.injEq, Option.some.injEq,
        Prod.mk.injEq] at happend
      obtain ⟨rfl, rfl, hrest⟩ := happend
      rw [List.self_eq_append_left.mp hrest]
      rfl

/-- An element that is in front with more input reaches into what has been added. -/
theorem Waits.length_lt_of_nextElement {s t rest : Bytes} (h : Waits g limit c s)
    {tr : Transition σ M} {e : Element σ}
    (hnext : nextElement g limit c (s ++ t) = .ok (some (tr, e, rest))) :
    rest.length < t.length := by
  by_contra hle
  obtain ⟨_, _, _, hbytes⟩ := (inFront_of_nextElement hnext).bytes
  obtain ⟨more, rfl⟩ := List.suffix_of_suffix_length_le (List.suffix_append s t)
    (hbytes ▸ List.suffix_append _ rest) (Nat.le_of_not_lt hle)
  rw [← List.append_assoc] at hbytes
  obtain rfl := List.append_cancel_right hbytes
  rw [List.append_assoc] at hnext
  cases h.short.symm.trans (nextElement_cut hnext more)

/-- An engine that waits takes what it waits for before it comes to the end of a message. -/
theorem Waits.length_rest_lt {s t : Bytes} (h : Waits g limit c s)
    (hdone : (advance g limit c (s ++ t)).status = .done) :
    (advance g limit c (s ++ t)).rest.length < t.length := by
  have hround : round g limit c (s ++ t) = _ := round_of_open h.settled h.incomplete (s ++ t)
  cases hnext : nextElement g limit c (s ++ t) with
  | error err =>
    rw [hnext] at hround
    cases (congrArg Outcome.status (advance_of_halt hround)).symm.trans hdone
  | ok next =>
    rw [hnext] at hround
    obtain _ | ⟨tr, e, rest⟩ := next
    · cases (congrArg Outcome.status (advance_of_halt hround)).symm.trans hdone
    · have hlt := h.length_lt_of_nextElement hnext
      dsimp only at hround
      cases henter : enter g c tr e rest with
      | halt o =>
        rw [henter] at hround
        rw [advance_of_halt hround, rest_of_enter_halt henter]
        exact hlt
      | more c' rest' events =>
        obtain rfl := rest_of_enter_more henter
        rw [henter] at hround
        rw [advance_of_more hround]
        exact Nat.lt_of_le_of_lt (length_le_of_advance g limit c' _) hlt

/-- Where the engine comes to the end of a message it has looked at no byte behind it. -/
theorem advance_cut {s rest : Bytes} {events : List (Event σ)}
    (h : advance g limit c s = ⟨c', rest, events, .done⟩) :
    ∃ bytes, s = bytes ++ rest ∧
      ∀ t, advance g limit c (bytes ++ t) = ⟨c', t, events, .done⟩ := by
  have hok : ∀ e, (advance g limit c s).status ≠ .failed e := by
    intro e hfailed
    rw [h] at hfailed
    cases hfailed
  obtain ⟨bytes, hbytes⟩ := append_of_steps (stopsAt_of_advance c s hok).steps
  rw [h] at hbytes
  dsimp only at hbytes
  subst hbytes
  have hdecided : (advance g limit c bytes).status ≠ .needMore := by
    intro hwaits
    have hresume := advance_resume c bytes rest hwaits
    rw [h] at hresume
    have hdone := congrArg Outcome.status hresume
    have hrest := congrArg (List.length ∘ Outcome.rest) hresume
    have hlt := (waits_of_advance c bytes hwaits).length_rest_lt hdone.symm
    exact absurd hrest (Nat.ne_of_gt hlt)
  have happend := advance_append c bytes rest hdecided
  rw [h] at happend
  refine ⟨bytes, rfl, fun t => ?_⟩
  rw [advance_append c bytes t hdecided]
  generalize advance g limit c bytes = o at happend ⊢
  obtain ⟨c₁, rest₁, events₁, status₁⟩ := o
  simp only [Outcome.extend, Outcome.mk.injEq] at happend ⊢
  obtain ⟨rfl, hrest, rfl, rfl⟩ := happend
  rw [List.self_eq_append_left.mp hrest]
  exact ⟨rfl, rfl, rfl, rfl⟩

/-! ### Sessions -/

theorem Session.advance {start : Nat} {message : Bytes} (h : Session g limit start message c)
    {s rest : Bytes} {events : List (Event σ)} {status : Status}
    (ha : LdapBer.advance g limit c s = ⟨c', rest, events, status⟩)
    (hok : ∀ e, status ≠ .failed e) :
    ∃ bytes, s = bytes ++ rest ∧ Session g limit start (message ++ bytes) c' := by
  have hok' : ∀ e, (LdapBer.advance g limit c s).status ≠ .failed e := by
    intro e hfailed
    rw [ha] at hfailed
    exact hok e hfailed
  have htaken := taken_append c s hok'
  have hinput := h.input s hok'
  rw [ha] at htaken hinput
  exact ⟨taken g limit c s, htaken.symm, hinput⟩

/-- A run that does not fail is a part of a session, at the end of which the engine waits. -/
theorem session_of_feed {callback : Option (Callback M S ε)} {start : Nat} {message : Bytes}
    (h : Session g limit start message c) (s : Bytes) (state : S)
    (hok : (feed g limit callback c s state).error = none) :
    let f := feed g limit callback c s state
    Waits g limit f.container f.rest ∧
      ∃ start' message' bytes, Session g limit start' message' f.container ∧
        s = bytes ++ f.rest ∧ start' + message'.length = start + message.length + bytes.length := by
  fun_induction feed g limit callback c s state generalizing start message with
  | case1 c s state c' rest events ha =>
    obtain ⟨bytes, hs, hsession⟩ := h.advance ha (by simp)
    have hwaits := waits_of_advance c s (congrArg Outcome.status ha)
    rw [ha] at hwaits
    refine ⟨hwaits, start, message ++ bytes, bytes, hsession, hs, ?_⟩
    rw [List.length_append, Nat.add_assoc]
  | case2 c s state c' rest events e ha => cases hok
  | case3 c s state c' rest events ha state' e hn => cases hok
  | case4 c s state c' rest events ha state' hn _ ih =>
    obtain ⟨bytes, hs, hsession⟩ := h.advance ha (by simp)
    obtain ⟨hwaits, start', message', bytes', hsession', hrest, hlength⟩ := ih hsession.reset hok
    refine ⟨hwaits, start', message', bytes ++ bytes', hsession', ?_, ?_⟩
    · calc
        s = bytes ++ rest := hs
        _ = bytes ++ (bytes' ++ _) := congrArg (bytes ++ ·) hrest
        _ = bytes ++ bytes' ++ _ := (List.append_assoc ..).symm
    · rw [hlength]
      simp only [List.length_append, List.length_nil]
      omega

theorem offset_of_session {start : Nat} {message : Bytes} (h : Session g limit start message c)
    (hlt : start + message.length < positionLimit) : c.offset.toNat = start + message.length :=
  (tracks_of_session h hlt).offset

/-- A message that has not started takes bytes before it is done. -/
theorem Session.done {start : Nat} {message : Bytes} (h : Session g limit start message c)
    (hc : c.started = false) {s rest : Bytes} {events : List (Event σ)}
    (ha : LdapBer.advance g limit c s = ⟨c', rest, events, .done⟩)
    (hlt : start + message.length + s.length < positionLimit) :
    ∃ bytes, Session g limit start (message ++ bytes) c' ∧
      s.length = bytes.length + rest.length ∧ 0 < bytes.length ∧
      c'.offset.toNat = start + message.length + bytes.length := by
  have hless := length_lt_of_advance_done hc (congrArg Outcome.status ha)
  rw [ha] at hless
  obtain ⟨bytes, rfl, hsession⟩ := h.advance ha (by simp)
  simp only [List.length_append] at hless hlt
  have hoffset := offset_of_session hsession (by rw [List.length_append]; omega)
  rw [List.length_append, ← Nat.add_assoc] at hoffset
  exact ⟨bytes, hsession, List.length_append, by omega, hoffset⟩

/-- Before the first element of a message the container is as it was made. -/
theorem fresh_of_session {start : Nat} {message : Bytes} (h : Session g limit start message c)
    (hstarted : c.started = false) : c = .fresh g c.offset := by
  induction h with
  | begin => rfl
  | reset => rfl
  | @input start message c _ s _ ih =>
    obtain hinside | ⟨hsettled, -⟩ := started_or_settle_of_advance (g := g) limit c s
    · cases hinside.symm.trans hstarted
    · rw [hsettled] at hstarted ⊢
      have hc := ih ((started_closeFrames g c c.frames).symm.trans hstarted)
      rw [hc]
      rfl

/-! ### What a run delivers -/

/-- From the start of a message on, what is delivered ends behind the start and within the input. -/
theorem stops_of_session {callback : Option (Callback M S ε)} {start : Nat} {message : Bytes}
    (h : Session g limit start message c) (hc : c.started = false) (s : Bytes) (state : S)
    (hlt : start + message.length + s.length < positionLimit) :
    ∀ d ∈ calls g limit callback c s state, start + message.length < d.stop.toNat ∧
      d.stop.toNat ≤ start + message.length + s.length := by
  fun_induction feed g limit callback c s state generalizing start message with
  | case1 c s state c' rest events ha | case2 c s state c' rest events e ha =>
    rw [calls_of_not_done (by simp [ha])]
    exact List.forall_mem_nil _
  | case3 c s state c' rest events ha state' e hn =>
    obtain ⟨bytes, -, hlength, hpos, hoffset⟩ := h.done hc ha hlt
    rw [calls_of_error ha hn, List.forall_mem_singleton]
    dsimp only
    omega
  | case4 c s state c' rest events ha state' hn _ ih =>
    obtain ⟨bytes, hsession, hlength, hpos, hoffset⟩ := h.done hc ha hlt
    have hrest := ih hsession.reset rfl (by
      simp only [List.length_append, List.length_nil]
      omega)
    rw [calls_of_ok ha hn]
    refine List.forall_mem_cons.mpr ⟨?_, fun d hd => ?_⟩
    · dsimp only
      omega
    · have hd := hrest d hd
      simp only [List.length_append, List.length_nil] at hd
      omega

end LdapBer
