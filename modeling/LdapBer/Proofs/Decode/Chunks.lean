import LdapBer.Decode.Stream
import LdapBer.Proofs.Decode.Resume

/-! What the chunks of a stream do not change.

A stream arrives in chunks of any size, also empty ones, cut inside headers and values.
`decodeAll_new` says that the cuts do not show: a fresh decoder that is fed the chunks up to the
first error hands the same messages with the same positions to its callback, traces the same
events and fails with the same error as one that is fed the whole input at once, and if nothing
fails the two decoders end up equal. The rest of the file gets there from what two pieces of input
do (`feed_append`, `feed_resume`, `decode_append`, `decode_resume`). -/
namespace LdapBer
variable {σ M S ε : Type}

/-! ### Feeding two pieces -/

section
variable {g : Grammar σ M} {limit : Option Nat} {callback : Option (Callback M S ε)}

theorem feed_eq (c : Container σ M) (s : Bytes) (state : S) :
    feed g limit callback c s state =
      match advance g limit c s with
      | ⟨c', rest, events, .needMore⟩ => ⟨c', rest, state, events, none⟩
      | ⟨c', rest, events, .failed e⟩ => ⟨c', rest, state, events, some (.decode e)⟩
      | ⟨c', rest, events, .done⟩ =>
        match notify callback c' state with
        | (state, some e) => ⟨c', rest, state, events, some (.callback e)⟩
        | (state, none) => (feed g limit callback (c'.reset g) rest state).after events := by
  conv => lhs; unfold feed
  split
  · next ha => rw [ha]
  · next ha => rw [ha]
  · next c' rest events ha =>
    rcases hnotify : notify callback c' state with ⟨state', _ | e⟩ <;> simp only [ha, hnotify]

theorem Fed.after_after (first second : List (Event σ)) (f : Fed σ M S ε) :
    (f.after second).after first = f.after (first ++ second) := by
  simp [Fed.after]

/-- A run that fails does so whatever comes behind the input. -/
theorem feed_append (c : Container σ M) (s t : Bytes) (state : S)
    (h : (feed g limit callback c s state).error ≠ none) :
    feed g limit callback c (s ++ t) state =
      {feed g limit callback c s state with
        rest := (feed g limit callback c s state).rest ++ t} := by
  fun_induction feed g limit callback c s state with
  | case1 c s state c' rest events ha => exact absurd rfl h
  | case2 c s state c' rest events e ha =>
    rw [feed_eq, advance_append c s t (by rw [ha]; exact nofun), ha]
    rfl
  | case3 c s state c' rest events ha state' e hn =>
    rw [feed_eq, advance_append c s t (by rw [ha]; exact nofun), ha]
    simp only [Outcome.extend, hn]
  | case4 c s state c' rest events ha state' hn _ ih =>
    rw [feed_eq, advance_append c s t (by rw [ha]; exact nofun), ha]
    simp only [Outcome.extend, hn]
    rw [ih h]
    rfl

/-- A run that does not fail goes on, when there is more input, from where it stopped. -/
theorem feed_resume (c : Container σ M) (s t : Bytes) (state : S)
    (h : (feed g limit callback c s state).error = none) :
    feed g limit callback c (s ++ t) state =
      (feed g limit callback (feed g limit callback c s state).container
        ((feed g limit callback c s state).rest ++ t)
        (feed g limit callback c s state).state).after
        (feed g limit callback c s state).events := by
  fun_induction feed g limit callback c s state with
  | case1 c s state c' rest events ha =>
    have hresume := advance_resume c s t (congrArg Outcome.status ha)
    rw [ha] at hresume
    rw [feed_eq, hresume]
    dsimp only
    rw [feed_eq c' (rest ++ t)]
    rcases advance g limit c' (rest ++ t) with ⟨c'', rest', events', _ | _ | e⟩
    · rfl
    · simp only [Outcome.after]
      split
      · rfl
      · exact (Fed.after_after events events' _).symm
    · rfl
  | case2 c s state c' rest events e ha => cases h
  | case3 c s state c' rest events ha state' e hn => cases h
  | case4 c s state c' rest events ha state' hn _ ih =>
    rw [feed_eq, advance_append c s t (by rw [ha]; exact nofun), ha]
    simp only [Outcome.extend, hn]
    rw [ih h, Fed.after_after]
    rfl

end

/-! ### Chunks -/

def Reply.after (events : List (Event σ)) (r : Reply σ S ε) : Reply σ S ε :=
  {r with events := events ++ r.events}

namespace Decoder

/-- Feeds chunks one by one up to the first that fails. -/
def decodeAll (d : Decoder σ M S ε) : List Bytes → S → Decoder σ M S ε × Reply σ S ε
  | [], state => (d, ⟨state, [], none⟩)
  | chunk :: chunks, state =>
    match d.decode chunk state with
    | (d, ⟨state, events, none⟩) =>
      let (d, reply) := decodeAll d chunks state
      (d, reply.after events)
    | (d, reply) => (d, reply)

/-- The run over the input that a call makes. -/
def fed (d : Decoder σ M S ε) (chunk : Bytes) (state : S) : Fed σ M S ε :=
  feed d.grammar d.limit d.callback d.container (d.pending ++ chunk) state

theorem fed_new (g : Grammar σ M) (limit : Option Nat) (callback : Option (Callback M S ε))
    (chunk : Bytes) (state : S) :
    (new g limit callback).fed chunk state = feed g limit callback (.fresh g 0) chunk state := rfl

section
variable (d : Decoder σ M S ε) (chunk : Bytes) (state : S)

/-! A call leaves alone what the decoder was made of. -/

@[simp] theorem grammar_decode : (d.decode chunk state).1.grammar = d.grammar := by
  rw [decode]
  split <;> rfl

@[simp] theorem limit_decode : (d.decode chunk state).1.limit = d.limit := by
  rw [decode]
  split <;> rfl

@[simp] theorem callback_decode : (d.decode chunk state).1.callback = d.callback := by
  rw [decode]
  split <;> rfl

end

theorem isFailed_decode (d : Decoder σ M S ε) (chunk : Bytes) (state : S) :
    (d.decode chunk state).1.isFailed = (d.decode chunk state).2.error.isSome := by
  rw [decode]
  split
  · next hd => exact hd
  · rfl

/-- The end of the input changes no more than that the decoder may be failed. -/
theorem finish_eq (d : Decoder σ M S ε) : d.finish.1 = {d with isFailed := d.finish.2.isSome} := by
  rw [finish]
  split
  · next hd => rw [Option.isSome_some, ← hd]
  · next hd =>
    split
    · rfl
    · split
      · rw [Option.isSome_none, ← eq_false_of_ne_true hd]
      · rfl

theorem reply_of_decode {d : Decoder σ M S ε} (hd : d.isFailed = false) (chunk : Bytes)
    (state : S) :
    (d.decode chunk state).2 =
      ⟨(d.fed chunk state).state, (d.fed chunk state).events, (d.fed chunk state).error⟩ := by
  simp [decode, hd, fed]

/-- After a call that does not fail, the decoder holds what the run left. -/
theorem decode_eq {d : Decoder σ M S ε} (hd : d.isFailed = false) {chunk : Bytes} {state : S}
    (h : (d.fed chunk state).error = none) :
    (d.decode chunk state).1 =
      {d with container := (d.fed chunk state).container, pending := (d.fed chunk state).rest} := by
  unfold fed at h
  simp [decode, hd, fed, h]

/-- A call that fails tells its caller the same, whatever comes behind its chunk. -/
theorem decode_append {d : Decoder σ M S ε} (hd : d.isFailed = false) (s t : Bytes) (state : S)
    (h : (d.fed s state).error ≠ none) :
    (d.decode (s ++ t) state).2 = (d.decode s state).2 := by
  have happend : d.fed (s ++ t) state = {d.fed s state with rest := (d.fed s state).rest ++ t} := by
    unfold fed at h ⊢
    rw [← List.append_assoc, feed_append _ _ _ _ h]
  rw [reply_of_decode hd, reply_of_decode hd, happend]

/-- The run over two chunks is the run over the first and then, if that does not fail, the run
of the decoder that it leaves. -/
theorem fed_resume {d : Decoder σ M S ε} (hd : d.isFailed = false) (s t : Bytes) (state : S)
    (h : (d.fed s state).error = none) :
    d.fed (s ++ t) state =
      ((d.decode s state).1.fed t (d.fed s state).state).after (d.fed s state).events := by
  rw [decode_eq hd h]
  unfold fed at h ⊢
  rw [← List.append_assoc, feed_resume _ _ _ _ h]

theorem decode_resume {d : Decoder σ M S ε} (hd : d.isFailed = false) (s t : Bytes) (state : S)
    (h : (d.fed s state).error = none)
    (ht : ((d.decode s state).1.fed t (d.fed s state).state).error = none) :
    (d.decode (s ++ t) state).1 = ((d.decode s state).1.decode t (d.fed s state).state).1 := by
  have hfirst := decode_eq hd h
  have hd' : (d.decode s state).1.isFailed = false := by rw [hfirst]; exact hd
  have hresume := fed_resume hd s t state h
  have hboth : (d.fed (s ++ t) state).error = none := by rw [hresume]; exact ht
  have hsecond := decode_eq hd' ht
  rw [decode_eq hd hboth, hsecond, hresume]
  rw [hfirst]
  rfl

theorem decodeAll_cons_of_ok {d : Decoder σ M S ε} (hd : d.isFailed = false) {chunk : Bytes}
    {state : S} (h : (d.fed chunk state).error = none) (chunks : List Bytes) :
    d.decodeAll (chunk :: chunks) state =
      (((d.decode chunk state).1.decodeAll chunks (d.fed chunk state).state).1,
        (((d.decode chunk state).1.decodeAll chunks (d.fed chunk state).state).2).after
          (d.fed chunk state).events) := by
  have hreply := reply_of_decode hd chunk state
  rw [h] at hreply
  rw [decodeAll]
  generalize d.decode chunk state = answer at hreply ⊢
  obtain ⟨d', reply⟩ := answer
  cases hreply
  rfl

theorem decodeAll_cons_of_error {d : Decoder σ M S ε} (hd : d.isFailed = false) {chunk : Bytes}
    {state : S} (h : (d.fed chunk state).error ≠ none) (chunks : List Bytes) :
    d.decodeAll (chunk :: chunks) state = d.decode chunk state := by
  have hreply := reply_of_decode hd chunk state
  obtain ⟨e, he⟩ := Option.ne_none_iff_exists'.mp h
  rw [he] at hreply
  rw [decodeAll]
  generalize d.decode chunk state = answer at hreply ⊢
  obtain ⟨d', reply⟩ := answer
  cases hreply
  rfl

/-- Chunks that are fed up to the first failure do what one call with all of them does. What is
left pending after a failure depends on the cuts, so the decoders are compared only if there
is none. -/
theorem decodeAll_cons {d : Decoder σ M S ε} (hd : d.isFailed = false) (chunk : Bytes)
    (chunks : List Bytes) (state : S) :
    (d.decodeAll (chunk :: chunks) state).2 = (d.decode (chunk ++ chunks.flatten) state).2 ∧
      ((d.decode (chunk ++ chunks.flatten) state).2.error = none →
        (d.decodeAll (chunk :: chunks) state).1 =
          (d.decode (chunk ++ chunks.flatten) state).1) := by
  induction chunks generalizing d chunk state with
  | nil =>
    rw [List.flatten_nil, List.append_nil]
    by_cases h : (d.fed chunk state).error = none
    · rw [decodeAll_cons_of_ok hd h, reply_of_decode hd]
      refine ⟨?_, fun _ => rfl⟩
      simp [decodeAll, Reply.after, h]
    · rw [decodeAll_cons_of_error hd h]
      exact ⟨rfl, fun _ => rfl⟩
  | cons next chunks ih =>
    by_cases h : (d.fed chunk state).error = none
    · have hfirst := decode_eq hd h
      have hd' : (d.decode chunk state).1.isFailed = false := by rw [hfirst]; exact hd
      have hresume := fed_resume hd chunk (next ++ chunks.flatten) state h
      obtain ⟨hreply, hdecoder⟩ := ih hd' next (d.fed chunk state).state
      rw [decodeAll_cons_of_ok hd h, List.flatten_cons, reply_of_decode hd, hreply,
        reply_of_decode hd', hresume]
      refine ⟨rfl, fun herror => ?_⟩
      rw [decode_resume hd _ _ _ h herror]
      exact hdecoder (by rw [reply_of_decode hd']; exact herror)
    · rw [decodeAll_cons_of_error hd h, List.flatten_cons, decode_append hd _ _ _ h]
      refine ⟨rfl, fun herror => ?_⟩
      rw [reply_of_decode hd] at herror
      exact absurd herror h

/-- A fresh decoder that is fed no bytes stays as it is. -/
theorem decode_new_nil (g : Grammar σ M) (limit : Option Nat)
    (callback : Option (Callback M S ε)) (state : S) :
    (new g limit callback).decode [] state = (new g limit callback, ⟨state, [], none⟩) := by
  have ha : advance g limit (.fresh g 0) [] = ⟨.fresh g 0, [], [], .needMore⟩ :=
    advance_of_halt rfl
  simp [decode, new, feed_eq, ha]

/-- The answers to the chunks of an input are told by the run over the input. -/
theorem reply_of_decodeAll_new (g : Grammar σ M) (limit : Option Nat)
    (callback : Option (Callback M S ε)) (chunks : List Bytes) (state : S) :
    let f := feed g limit callback (.fresh g 0) chunks.flatten state
    ((new g limit callback).decodeAll chunks state).2 = ⟨f.state, f.events, f.error⟩ := by
  intro f
  have hreply : ((new g limit callback).decode chunks.flatten state).2 =
      ⟨f.state, f.events, f.error⟩ := reply_of_decode rfl chunks.flatten state
  rw [← hreply]
  cases chunks with
  | nil => rw [List.flatten_nil, decode_new_nil, decodeAll]
  | cons chunk chunks => exact (decodeAll_cons rfl chunk chunks state).1

theorem decoder_of_decodeAll_new {g : Grammar σ M} {limit : Option Nat}
    {callback : Option (Callback M S ε)} (chunks : List Bytes) {state : S}
    (h : ((new g limit callback).decode chunks.flatten state).2.error = none) :
    ((new g limit callback).decodeAll chunks state).1 =
      ((new g limit callback).decode chunks.flatten state).1 := by
  cases chunks with
  | nil => rw [List.flatten_nil, decode_new_nil, decodeAll]
  | cons chunk chunks => exact (decodeAll_cons rfl chunk chunks state).2 h

/-- **The cuts between chunks do not show.** However the input is cut, up to the first failure the
callback gets the same messages with the same positions, the trace tells the same events, and the
error is the same or there is none. If there is none, the decoder is left in the same state: the
container, the pending bytes and so all that can be asked of it, also what `finish` answers. -/
theorem decodeAll_new (g : Grammar σ M) (limit : Option Nat) (callback : Option (Callback M S ε))
    (chunks : List Bytes) (state : S) :
    ((new g limit callback).decodeAll chunks state).2 =
        ((new g limit callback).decode chunks.flatten state).2 ∧
      (((new g limit callback).decode chunks.flatten state).2.error = none →
        ((new g limit callback).decodeAll chunks state).1 =
          ((new g limit callback).decode chunks.flatten state).1) := by
  cases chunks with
  | nil =>
    rw [List.flatten_nil, decode_new_nil]
    exact ⟨rfl, fun _ => rfl⟩
  | cons chunk chunks =>
    rw [List.flatten_cons]
    exact decodeAll_cons rfl chunk chunks state

end Decoder

end LdapBer
