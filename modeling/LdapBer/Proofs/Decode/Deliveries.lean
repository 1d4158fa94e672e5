import LdapBer.Proofs.Decode.Pipeline

/-! What a callback is called with.

A callback is `watched` if everything it is called with is kept beside its state. That changes
nothing else in a run (`feed_watched`), so there are the `calls` of a run, and what a decoder that
is fed chunks has `delivered`, chunk by chunk (`Decoder.callsAll`). The cuts between the chunks do
not show in it (`Decoder.delivered_new`). -/
namespace LdapBer
variable {σ M S ε : Type}

/-- A call of a callback: the position behind a message, the message and what the callback had kept
until then. -/
structure Delivery (M S : Type) where
  stop : UInt64
  message : M
  kept : S
deriving DecidableEq

/-- A callback that keeps its calls beside the state of another. -/
def watched (callback : Option (Callback M S ε)) : Callback M (S × List (Delivery M S)) ε :=
  fun stop m kept =>
    match callback with
    | some f => (((f stop m kept.1).1, kept.2 ++ [⟨stop, m, kept.1⟩]), (f stop m kept.1).2)
    | none => ((kept.1, kept.2 ++ [⟨stop, m, kept.1⟩]), none)

theorem notify_watched (callback : Option (Callback M S ε)) (c : Container σ M) (state : S)
    (log : List (Delivery M S)) :
    notify (some (watched callback)) c (state, log) =
      (((notify callback c state).1, log ++ [⟨c.offset, c.message, state⟩]),
        (notify callback c state).2) := by
  cases callback <;> rfl

/-! ### Runs -/

section
variable {g : Grammar σ M} {limit : Option Nat} {callback : Option (Callback M S ε)}
  {c c' : Container σ M} {s rest : Bytes} {events : List (Event σ)} {state state' : S}

/-- The calls that a run over the input makes. -/
def calls (g : Grammar σ M) (limit : Option Nat) (callback : Option (Callback M S ε))
    (c : Container σ M) (s : Bytes) (state : S) : List (Delivery M S) :=
  (feed g limit (some (watched callback)) c s (state, [])).state.2

theorem feed_watched_calls (g : Grammar σ M) (limit : Option Nat)
    (callback : Option (Callback M S ε)) (c : Container σ M) (s : Bytes) (state : S) :
    let f := feed g limit callback c s state
    ∃ more, ∀ log, feed g limit (some (watched callback)) c s (state, log) =
      ⟨f.container, f.rest, (f.state, log ++ more), f.events, f.error⟩ := by
  fun_induction feed g limit callback c s state with
  | case1 c s state c' rest events ha =>
    refine ⟨[], fun log => ?_⟩
    rw [feed_eq, ha, List.append_nil]
  | case2 c s state c' rest events e ha =>
    refine ⟨[], fun log => ?_⟩
    rw [feed_eq, ha, List.append_nil]
  | case3 c s state c' rest events ha state' e hn =>
    refine ⟨[⟨c'.offset, c'.message, state⟩], fun log => ?_⟩
    rw [feed_eq, ha]
    dsimp only
    rw [notify_watched, hn]
  | case4 c s state c' rest events ha state' hn _ ih =>
    obtain ⟨more, hmore⟩ := ih
    refine ⟨⟨c'.offset, c'.message, state⟩ :: more, fun log => ?_⟩
    rw [feed_eq, ha]
    dsimp only
    rw [notify_watched, hn]
    dsimp only
    rw [hmore, List.append_assoc]
    rfl

/-- Watching does not change the run. -/
theorem feed_watched (c : Container σ M) (s : Bytes) (state : S) (log : List (Delivery M S)) :
    let f := feed g limit callback c s state
    feed g limit (some (watched callback)) c s (state, log) =
      ⟨f.container, f.rest, (f.state, log ++ calls g limit callback c s state), f.events,
        f.error⟩ := by
  obtain ⟨more, hmore⟩ := feed_watched_calls g limit callback c s state
  rw [calls, hmore, hmore]
  rfl

theorem calls_of_not_done (h : (advance g limit c s).status ≠ .done) :
    calls g limit callback c s state = [] := by
  rw [calls, feed_eq]
  rcases ha : advance g limit c s with ⟨c', rest, events, _ | _ | e⟩
  · rfl
  · exact absurd (congrArg Outcome.status ha) h
  · rfl

theorem calls_of_ok (ha : advance g limit c s = ⟨c', rest, events, .done⟩)
    (hn : notify callback c' state = (state', none)) :
    calls g limit callback c s state =
      ⟨c'.offset, c'.message, state⟩ :: calls g limit callback (c'.reset g) rest state' := by
  rw [calls, feed_eq, ha]
  dsimp only
  rw [notify_watched, hn]
  dsimp only
  rw [feed_watched]
  rfl

theorem calls_of_error {e : ε} (ha : advance g limit c s = ⟨c', rest, events, .done⟩)
    (hn : notify callback c' state = (state', some e)) :
    calls g limit callback c s state = [⟨c'.offset, c'.message, state⟩] := by
  rw [calls, feed_eq, ha]
  dsimp only
  rw [notify_watched, hn]
  rfl

/-- Behind a run without an error the calls go on as those of a run over the rest. -/
theorem calls_append (c : Container σ M) (s t : Bytes) (state : S)
    (h : (feed g limit callback c s state).error = none) :
    let f := feed g limit callback c s state
    calls g limit callback c (s ++ t) state =
      calls g limit callback c s state ++
        calls g limit callback f.container (f.rest ++ t) f.state := by
  intro f
  have hwatched : feed g limit (some (watched callback)) c s (state, []) = _ :=
    feed_watched c s state []
  have herror : (feed g limit (some (watched callback)) c s (state, [])).error = none := by
    rw [hwatched]
    exact h
  rw [calls, feed_resume c s t (state, []) herror, hwatched, feed_watched]
  rfl

end

/-! ### Chunks -/

namespace Decoder

/-- The calls for a chunk. -/
def calls (d : Decoder σ M S ε) (chunk : Bytes) (state : S) : List (Delivery M S) :=
  LdapBer.calls d.grammar d.limit d.callback d.container (d.pending ++ chunk) state

/-- The calls for chunks that are fed one by one up to the first that fails. -/
def callsAll (d : Decoder σ M S ε) : List Bytes → S → List (Delivery M S)
  | [], _ => []
  | chunk :: chunks, state =>
    let (d', reply) := d.decode chunk state
    d.calls chunk state ++ if reply.error.isSome then [] else d'.callsAll chunks reply.state

/-- A decoder of which the callback is watched. -/
def watching (d : Decoder σ M S ε) : Decoder σ M (S × List (Delivery M S)) ε where
  grammar := d.grammar
  limit := d.limit
  callback := some (watched d.callback)
  container := d.container
  pending := d.pending
  isFailed := d.isFailed

/-- What a decoder hands to its callback in the course of the chunks: each message with the position
behind it and what the callback had kept until then. -/
def delivered (d : Decoder σ M S ε) (chunks : List Bytes) (state : S) : List (Delivery M S) :=
  (d.watching.decodeAll chunks (state, [])).2.state.2

theorem fed_watching (d : Decoder σ M S ε) (chunk : Bytes) (state : S)
    (log : List (Delivery M S)) :
    let f := d.fed chunk state
    d.watching.fed chunk (state, log) =
      ⟨f.container, f.rest, (f.state, log ++ d.calls chunk state), f.events, f.error⟩ :=
  feed_watched d.container (d.pending ++ chunk) state log

theorem decode_watching {d : Decoder σ M S ε} (hd : d.isFailed = false) {chunk : Bytes} {state : S}
    (h : (d.fed chunk state).error = none) (log : List (Delivery M S)) :
    (d.watching.decode chunk (state, log)).1 = (d.decode chunk state).1.watching := by
  have hfed := d.fed_watching chunk state log
  have hwatching : (d.watching.fed chunk (state, log)).error = none := by rw [hfed]; exact h
  rw [decode_eq (by exact hd) hwatching, decode_eq hd h, hfed]
  rfl

theorem callsAll_cons_of_ok {d : Decoder σ M S ε} (hd : d.isFailed = false) {chunk : Bytes}
    {state : S} (h : (d.fed chunk state).error = none) (chunks : List Bytes) :
    d.callsAll (chunk :: chunks) state =
      d.calls chunk state ++
        (d.decode chunk state).1.callsAll chunks (d.fed chunk state).state := by
  rw [callsAll]
  dsimp only
  rw [reply_of_decode hd, h]
  rfl

theorem callsAll_cons_of_error {d : Decoder σ M S ε} (hd : d.isFailed = false) {chunk : Bytes}
    {state : S} (h : (d.fed chunk state).error ≠ none) (chunks : List Bytes) :
    d.callsAll (chunk :: chunks) state = d.calls chunk state := by
  obtain ⟨e, he⟩ := Option.ne_none_iff_exists'.mp h
  rw [callsAll]
  dsimp only
  rw [reply_of_decode hd, he]
  exact List.append_nil _

/-- What a watched decoder has kept is its calls. -/
theorem state_of_watching {d : Decoder σ M S ε} (hd : d.isFailed = false) (chunks : List Bytes)
    (state : S) (log : List (Delivery M S)) :
    (d.watching.decodeAll chunks (state, log)).2.state.2 = log ++ d.callsAll chunks state := by
  induction chunks generalizing d state log with
  | nil => exact (List.append_nil log).symm
  | cons chunk chunks ih =>
    have hwatching : d.watching.isFailed = false := hd
    have hfed := d.fed_watching chunk state log
    by_cases h : (d.fed chunk state).error = none
    · have herror : (d.watching.fed chunk (state, log)).error = none := by rw [hfed]; exact h
      have hd' : (d.decode chunk state).1.isFailed = false := by rw [decode_eq hd h]; exact hd
      rw [decodeAll_cons_of_ok hwatching herror, callsAll_cons_of_ok hd h, decode_watching hd h log,
        hfed, ← List.append_assoc]
      exact ih hd' (d.fed chunk state).state (log ++ d.calls chunk state)
    · have herror : (d.watching.fed chunk (state, log)).error ≠ none := by rw [hfed]; exact h
      rw [decodeAll_cons_of_error hwatching herror, callsAll_cons_of_error hd h,
        reply_of_decode hwatching, hfed]

/-- However the input is cut, the callback gets the calls of the run over all of it. -/
theorem delivered_new (g : Grammar σ M) (limit : Option Nat) (callback : Option (Callback M S ε))
    (chunks : List Bytes) (state : S) :
    (new g limit callback).delivered chunks state =
      LdapBer.calls g limit callback (.fresh g 0) chunks.flatten state :=
  congrArg (fun reply => reply.state.2)
    (reply_of_decodeAll_new g limit (some (watched callback)) chunks (state, []))

theorem callsAll_new (g : Grammar σ M) (limit : Option Nat) (callback : Option (Callback M S ε))
    (chunks : List Bytes) (state : S) :
    (new g limit callback).callsAll chunks state =
      LdapBer.calls g limit callback (.fresh g 0) chunks.flatten state := by
  have hkept := state_of_watching (d := new g limit callback) rfl chunks state []
  exact hkept.symm.trans (delivered_new g limit callback chunks state)

end Decoder

end LdapBer
