import Mathlib.Data.List.Basic
import LdapBer.Message.Grammar
import LdapBer.Proofs.Decode.Chunks
import LdapBer.Proofs.Decode.Whole
import LdapBer.SortRequest
import LdapBer.SyncInfo

/-! Messages in a row.

A decoder takes message after message off a stream. If the actions of a grammar do not look at
where an element stands, a message is decoded in a stream as it is alone (`advance_message`,
`message_of_done`). So a run hands to its callback what the parts of the input hold, each decoded
on its own (`feed_parts`, `parts_of_feed`), and that is all that is delivered of a stream which ends
between two messages (`collects_iff`). -/
namespace LdapBer
variable {σ M S ε : Type}

/-! ### Grammars that do not look at positions -/

/-- Of an element the action sees no more than the value. -/
def Transition.IgnoresPosition (tr : Transition σ M) : Prop :=
  ∀ e e' : Element σ, e.value = e'.value → tr.act e = tr.act e'

namespace Grammar

def IgnoresPosition (g : Grammar σ M) : Prop :=
  ∀ s tag tr, g.transition s tag = some tr → tr.IgnoresPosition

section
variable {g : Grammar σ M} {frames frames' : List (Frame σ)} {offset offset' : UInt64}
  {c c' : Cursor σ M}

theorem visit_elsewhere (hg : g.IgnoresPosition) {t : Tree}
    (h : g.visit c (t.element offset frames) = .ok c') :
    g.visit c (t.element offset' frames') = .ok c' := by
  have hvalue : (t.element offset frames).value = (t.element offset' frames').value := by
    cases t <;> rfl
  obtain ⟨tr, htr, m, b, hact, rfl⟩ := visit_eq_ok_iff.mp h
  rw [hg _ _ tr htr _ _ hvalue] at hact
  rw [Tree.header_element, Tree.tag_header] at htr
  exact visit_eq_ok_iff.mpr ⟨tr, by rwa [Tree.header_element, Tree.tag_header], m, b, hact, rfl⟩

theorem leave_elsewhere {opened : σ} {stop stop' : UInt64} (h : g.leave opened stop c = .ok c') :
    g.leave opened stop' c = .ok c' :=
  leave_eq_ok_iff.mpr (leave_eq_ok_iff.mp h)

mutual

theorem walk_elsewhere (hg : g.IgnoresPosition) (t : Tree) {frames frames' : List (Frame σ)}
    {offset offset' : UInt64} {c c' : Cursor σ M} (h : g.walk frames offset c t = .ok c') :
    g.walk frames' offset' c t = .ok c' := by
  match t with
  | .leaf tag field value => exact visit_elsewhere hg h
  | .node tag field children =>
    obtain ⟨opened, inside, hvisit, hinside, hleave⟩ := walk_node_eq_ok_iff.mp h
    exact walk_node_eq_ok_iff.mpr ⟨opened, inside, visit_elsewhere hg hvisit,
      walkAll_elsewhere hg children hinside, leave_elsewhere hleave⟩

theorem walkAll_elsewhere (hg : g.IgnoresPosition) (ts : List Tree)
    {frames frames' : List (Frame σ)} {offset offset' : UInt64} {c c' : Cursor σ M}
    (h : g.walkAll frames offset c ts = .ok c') : g.walkAll frames' offset' c ts = .ok c' := by
  match ts with
  | [] => exact h
  | t :: ts =>
    obtain ⟨d, hwalk, hrest⟩ := walkAll_cons_eq_ok_iff.mp h
    exact walkAll_cons_eq_ok_iff.mpr ⟨d, walk_elsewhere hg t hwalk, walkAll_elsewhere hg ts hrest⟩

end

/-- A tree holds the same message wherever it stands. -/
theorem read_elsewhere (hg : g.IgnoresPosition) {t : Tree} {m : M} (h : g.read offset t = .ok m) :
    g.read offset' t = .ok m := by
  obtain ⟨c, hwalk, hend, hm⟩ := read_eq_ok_iff.mp h
  exact read_eq_ok_iff.mpr ⟨c, walk_elsewhere hg t hwalk, hend, hm⟩

end

/-- The grammars of the messages and values that are decoded here. -/
inductive Builtin : {σ M : Type} → Grammar σ M → Prop
  | message : Builtin Message.grammar
  | sortRequest : Builtin SortRequest.grammar
  | syncInfo : Builtin SyncInfo.grammar

end Grammar

/-- It is enough to look at the rows of the table. -/
theorem Grammar.forall_of_row {g : Grammar σ M} {P : Transition σ M → Prop}
    {row : σ → List (UInt8 × Transition σ M)}
    (hg : ∀ s tag, g.transition s tag = (row s).lookup tag)
    (h : ∀ s, ∀ entry ∈ row s, P entry.2) : ∀ s tag tr, g.transition s tag = some tr → P tr := by
  intro s tag tr htr
  rw [hg] at htr
  obtain ⟨before, behind, hrow, -⟩ := List.lookup_eq_some_iff.mp htr
  have hmem : (tag, tr) ∈ row s := hrow ▸ List.mem_append_right before List.mem_cons_self
  exact h s _ hmem

theorem Grammar.Builtin.ignoresPosition {g : Grammar σ M} (hg : g.Builtin) :
    g.IgnoresPosition := by
  cases hg
  all_goals
    refine forall_of_row (fun _ _ => rfl) fun s => ?_
    -- every action is a function of the value of the element
    cases s <;> simp only [Message.row, SortRequest.row, SyncInfo.row, List.forall_mem_cons,
      List.not_mem_nil, false_implies, implies_true, and_true] <;> and_intros
  all_goals
    rintro ⟨_, value, _⟩ ⟨_, _, _⟩ rfl
    rfl

/-! ### One message of a stream -/

section
variable {g : Grammar σ M} {limit : Option Nat}

/-- Wherever it begins, the engine gets through a tree that holds a message and no further. -/
theorem advance_tree {t : Tree} (ht : t.WellFormed) {m : M} {n : Nat}
    (hfits : checkFits limit ([] : List (Frame σ)) (t.header n.toUInt64) = .ok ())
    (hread : g.read n.toUInt64 t = .ok m) (hsize : n + t.bytes.length < 0x10000000000000000)
    (rest : Bytes) :
    ∃ (c : Cursor σ M) (events : List (Event σ)), c.message = m ∧
      advance g limit (.fresh g n.toUInt64) (t.bytes ++ rest) =
        ⟨c.within [] (n + t.bytes.length).toUInt64, rest, events, .done⟩ := by
  have hn : n.toUInt64.toNat = n := toNat_toUInt64 (by omega)
  have hadvance := advance_bytes (g := g) ht hfits (by rw [hn]; exact hsize) rest
  rw [hread, t.valueEnd_header, ← toUInt64_add] at hadvance
  exact hadvance

/-- A byte string that holds a message is decoded in a stream as it is alone. -/
theorem advance_message (hg : g.IgnoresPosition) {b : Bytes} {m : M} (h : g.decode limit b = .ok m)
    {n : Nat} (hsize : n + b.length < 0x10000000000000000) (rest : Bytes) :
    ∃ (c : Cursor σ M) (events : List (Event σ)), c.message = m ∧
      advance g limit (.fresh g n.toUInt64) (b ++ rest) =
        ⟨c.within [] (n + b.length).toUInt64, rest, events, .done⟩ := by
  obtain ⟨t, ht, hfits, rfl, hread⟩ := fitting_tree_of_decode h
  exact advance_tree ht (Tree.checkFits_header hfits _) (Grammar.read_elsewhere hg hread) hsize rest

/-- Where the engine comes to the end of a message in a stream, the bytes up to there hold it. -/
theorem message_of_done (hg : g.IgnoresPosition) {n : Nat} {s : Bytes}
    (hsize : n + s.length < 0x8000000000000000)
    (h : (advance g limit (.fresh g n.toUInt64) s).status = .done) :
    ∃ (b rest : Bytes) (m : M), s = b ++ rest ∧ b ≠ [] ∧ g.decode limit b = .ok m := by
  have hn : n.toUInt64.toNat = n := toNat_toUInt64 (by omega)
  obtain ⟨t, rest, ht, hfits, rfl⟩ := tree_of_done (by omega) h
  rw [List.length_append] at hsize
  have hadvance := advance_bytes (g := g) ht hfits (by omega) rest
  cases hread : g.read n.toUInt64 t with
  | error e =>
    rw [hread] at hadvance
    exact absurd (hadvance.symm.trans h) nofun
  | ok m =>
    refine ⟨t.bytes, rest, m, rfl, List.ne_nil_of_length_pos t.length_bytes_pos, ?_⟩
    rw [decode_bytes_of_fits ht (Tree.checkFits_header hfits 0)]
    exact Grammar.read_elsewhere hg hread

/-! ### Between two messages -/

/-- A round that goes on has acted on an element. -/
theorem started_of_round_more {limit : Option Nat} {c c' : Container σ M} {s rest : Bytes}
    {events : List (Event σ)} (h : round g limit c s = .more c' rest events) :
    c'.started = true := by
  have heffect := round_effect g limit c s
  rw [h] at heffect
  cases heffect with
  | passes => exact Container.started_passElement ..

/-- A round that ends the decode has acted on an element, or it has only closed what ends here. -/
theorem started_or_settle_of_round_halt {limit : Option Nat} {c : Container σ M} {s : Bytes}
    {o : Outcome σ M} (h : round g limit c s = .halt o) :
    o.container.started = true ∨ o.container = (c.settle g).container ∧ o.rest = s := by
  have heffect := round_effect g limit c s
  rw [h] at heffect
  cases heffect with
  | stops => exact .inr ⟨rfl, rfl⟩
  | fails hstarted => exact .inl hstarted
  | completes => exact .inl (Container.started_passElement ..)

/-- Where a decode stops, its message has started, or it has only closed what ends here. -/
theorem started_or_settle_of_advance (limit : Option Nat) (c : Container σ M) (s : Bytes) :
    (advance g limit c s).container.started = true ∨
      (advance g limit c s).container = (c.settle g).container ∧
        (advance g limit c s).rest = s := by
  fun_induction advance g limit c s with
  | case1 c s o ho => exact started_or_settle_of_round_halt ho
  | case2 c s c' rest events hr _ ih =>
    have hstarted := started_of_round_more hr
    rcases ih with hinside | ⟨hsettled, -⟩
    · exact .inl hinside
    · refine .inl ((congrArg Container.started hsettled).trans ?_)
      exact (started_closeFrames g c' c'.frames).trans hstarted

/-! ### Messages one by one -/

/-- A run that has taken all its input and stands between two messages. -/
structure Fed.Completes (f : Fed σ M S ε) : Prop where
  error : f.error = none
  unstarted : f.container.started = false
  rest : f.rest = []

theorem Fed.Completes.eq {f : Fed σ M S ε} (h : f.Completes) :
    f = ⟨f.container, [], f.state, f.events, none⟩ := by
  obtain ⟨herror, -, hrest⟩ := h
  rw [← herror, ← hrest]

/-- What the callback of a run failed with, if it did. -/
def Fed.objection (f : Fed σ M S ε) : Option ε :=
  match f.error with
  | some (.callback e) => some e
  | _ => none

/-- Hands messages in a row to a callback, up to the first that it fails on. The first of them
begins at `n`. -/
def handOver (f : Callback M S ε) : Nat → List (Bytes × M) → S → S × Option ε
  | _, [], state => (state, none)
  | n, (b, m) :: parts, state =>
    match f (n + b.length).toUInt64 m state with
    | (state, some e) => (state, some e)
    | (state, none) => handOver f (n + b.length) parts state

section
variable {f : Callback M S ε}

theorem handOver_cons_of_ok {n : Nat} {b : Bytes} {m : M} {state state' : S}
    (h : f (n + b.length).toUInt64 m state = (state', none)) (parts : List (Bytes × M)) :
    handOver f n ((b, m) :: parts) state = handOver f (n + b.length) parts state' := by
  rw [handOver, h]

theorem handOver_cons_of_error {n : Nat} {b : Bytes} {m : M} {state state' : S} {e : ε}
    (h : f (n + b.length).toUInt64 m state = (state', some e)) (parts : List (Bytes × M)) :
    handOver f n ((b, m) :: parts) state = (state', some e) := by
  rw [handOver, h]

/-- A message in front of the engine is handed to the callback, and the run goes on behind it unless
the callback fails. -/
theorem feed_message (hg : g.IgnoresPosition) {b : Bytes} {m : M} (h : g.decode limit b = .ok m)
    {n : Nat} (hsize : n + b.length < 0x10000000000000000) (rest : Bytes) (state : S) :
    ∃ (c : Container σ M) (events : List (Event σ)),
      feed g limit (some f) (.fresh g n.toUInt64) (b ++ rest) state =
        match f (n + b.length).toUInt64 m state with
        | (state, some e) => ⟨c, rest, state, events, some (.callback e)⟩
        | (state, none) =>
          (feed g limit (some f) (.fresh g (n + b.length).toUInt64) rest state).after events := by
  obtain ⟨c, events, rfl, hadvance⟩ := advance_message hg h hsize rest
  refine ⟨c.within [] (n + b.length).toUInt64, events, ?_⟩
  rw [feed_eq, hadvance]
  rfl

/-- A run over messages in a row hands them over, and takes all of them if the callback does. -/
theorem feed_parts (hg : g.IgnoresPosition) (parts : List (Bytes × M)) (n : Nat) {state state' : S}
    (hparts : ∀ part ∈ parts, g.decode limit part.1 = .ok part.2)
    (hsize : n + (parts.map Prod.fst).flatten.length < 0x8000000000000000)
    (hf : handOver f n parts state = (state', none)) :
    let r := feed g limit (some f) (.fresh g n.toUInt64) (parts.map Prod.fst).flatten state
    r.Completes ∧ r.state = state' := by
  induction parts generalizing n state with
  | nil =>
    have hadvance : advance g limit (.fresh g n.toUInt64) [] =
        ⟨.fresh g n.toUInt64, [], [], .needMore⟩ := advance_of_halt rfl
    cases hf
    rw [List.map_nil, List.flatten_nil, feed_eq, hadvance]
    exact ⟨⟨rfl, rfl, rfl⟩, rfl⟩
  | cons part parts ih =>
    obtain ⟨b, m⟩ := part
    have hb : g.decode limit b = .ok m := hparts (b, m) List.mem_cons_self
    simp only [List.map_cons, List.flatten_cons, List.length_append] at hsize ⊢
    obtain ⟨c, events, hfeed⟩ := feed_message (f := f) hg hb (n := n) (by omega)
      (parts.map Prod.fst).flatten state
    rcases hcall : f (n + b.length).toUInt64 m state with ⟨st, _ | e⟩
    · rw [handOver_cons_of_ok hcall] at hf
      obtain ⟨hcompletes, hstate⟩ := ih (n + b.length)
        (fun part hpart => hparts part (List.mem_cons_of_mem (b, m) hpart)) (by omega) hf
      rw [hfeed, hcall]
      exact ⟨⟨hcompletes.error, hcompletes.unstarted, hcompletes.rest⟩, hstate⟩
    · rw [handOver_cons_of_error hcall] at hf
      cases hf

/-- What a run hands to its callback are messages in a row, with which the input begins. If the run
comes to stand between two messages with all its input taken, there is nothing else in it. -/
theorem parts_of_feed (hg : g.IgnoresPosition) (limit : Option Nat) (n : Nat) (s : Bytes)
    (state : S) (hsize : n + s.length < 0x8000000000000000) :
    let r := feed g limit (some f) (.fresh g n.toUInt64) s state
    ∃ (parts : List (Bytes × M)) (behind : Bytes), s = (parts.map Prod.fst).flatten ++ behind ∧
      (∀ part ∈ parts, g.decode limit part.1 = .ok part.2) ∧
      handOver f n parts state = (r.state, r.objection) ∧ (r.Completes → behind = []) := by
  intro r
  rcases hadvance : advance g limit (.fresh g n.toUInt64) s with ⟨c, rest, events, status⟩
  have htaken := started_or_settle_of_advance (g := g) limit (.fresh g n.toUInt64) s
  have hr : r = _ := feed_eq _ s state
  rw [hadvance] at hr htaken
  cases status with
  | failed e =>
    rw [hr]
    exact ⟨[], s, rfl, List.forall_mem_nil _, rfl, fun h => nomatch h.error⟩
  | needMore =>
    rw [hr]
    refine ⟨[], s, rfl, List.forall_mem_nil _, rfl, fun h => ?_⟩
    rcases htaken with hstarted | ⟨-, rfl⟩
    · exact absurd (hstarted.symm.trans h.unstarted) Bool.noConfusion
    · exact h.rest
  | done =>
    have hdone := message_of_done hg hsize (congrArg Outcome.status hadvance)
    obtain ⟨b, behind, m, rfl, hne, hb⟩ := hdone
    have hpos := List.length_pos_iff.mpr hne
    rw [List.length_append] at hsize
    obtain ⟨c', events', hfeed⟩ := feed_message (f := f) hg hb (n := n) (by omega) behind state
    rcases hcall : f (n + b.length).toUInt64 m state with ⟨st, _ | e⟩
    · obtain ⟨parts, behind', hbehind, hparts, hhanded, hcompletes⟩ :=
        parts_of_feed hg limit (n + b.length) behind st (by omega)
      have hr : r = _ := hfeed
      rw [hcall] at hr
      rw [hr]
      refine ⟨(b, m) :: parts, behind', ?_, List.forall_mem_cons.mpr ⟨hb, hparts⟩, ?_, fun h => ?_⟩
      · rw [List.map_cons, List.flatten_cons, List.append_assoc, ← hbehind]
      · rw [handOver_cons_of_ok hcall, hhanded]
        rfl
      · exact hcompletes ⟨h.error, h.unstarted, h.rest⟩
    · have hr : r = _ := hfeed
      rw [hcall] at hr
      rw [hr]
      refine ⟨[(b, m)], behind, by simp, List.forall_mem_singleton.mpr hb, ?_, fun h => ?_⟩
      · rw [handOver_cons_of_error hcall]
        rfl
      · cases h.error
termination_by s.length
decreasing_by
  subst_vars
  simp only [List.length_append]
  omega

end

/-- Keeps the messages, each with the position behind it. -/
def collect : Callback M (List (UInt64 × M)) Empty :=
  fun offset m got => (got ++ [(offset, m)], none)

/-- What a callback gets of messages in a row of which the first begins at `n`. -/
def deliveries (n : Nat) : List (Bytes × M) → List (UInt64 × M)
  | [] => []
  | (b, m) :: parts => ((n + b.length).toUInt64, m) :: deliveries (n + b.length) parts

theorem handOver_collect (n : Nat) (parts : List (Bytes × M)) (got : List (UInt64 × M)) :
    handOver collect n parts got = (got ++ deliveries n parts, none) := by
  induction parts generalizing n got with
  | nil => rw [deliveries, List.append_nil, handOver]
  | cons part parts ih =>
    obtain ⟨b, m⟩ := part
    have hcall : collect (n + b.length).toUInt64 m got =
        (got ++ [((n + b.length).toUInt64, m)], none) := rfl
    rw [handOver_cons_of_ok hcall, ih, deliveries, List.append_assoc]
    rfl

/-! ### Streams -/

namespace Decoder

/-- The decoder takes the chunks and the end of the input after them without an error, and `got`
is what it has delivered. -/
def Collects (d : Decoder σ M (List (UInt64 × M)) Empty) (chunks : List Bytes)
    (got : List (UInt64 × M)) : Prop :=
  (d.decodeAll chunks []).2.error = none ∧ (d.decodeAll chunks []).1.finish.2 = none ∧
    (d.decodeAll chunks []).2.state = got

/-- The end of the input may be declared where nothing is begun and nothing pending. -/
theorem finish_eq_none_iff {d : Decoder σ M S ε} (hd : d.isFailed = false) :
    d.finish.2 = none ↔ d.container.started = false ∧ d.pending = [] := by
  rw [finish, hd]
  cases d.container.started <;> cases d.pending <;> simp

/-- A fresh decoder takes a chunk and the end of the input behind it if the run over the chunk
completes. -/
theorem decode_new_iff {limit : Option Nat} {callback : Option (Callback M S ε)} {s : Bytes}
    {state : S} :
    ((new g limit callback).decode s state).2.error = none ∧
        ((new g limit callback).decode s state).1.finish.2 = none ↔
      (feed g limit callback (.fresh g 0) s state).Completes := by
  have hfailed : (new g limit callback).isFailed = false := rfl
  rw [reply_of_decode hfailed, ← fed_new]
  refine ⟨fun ⟨herror, hfinish⟩ => ?_, fun hcompletes => ⟨hcompletes.error, ?_⟩⟩
  · rw [decode_eq hfailed herror, finish_eq_none_iff (by exact hfailed)] at hfinish
    exact ⟨herror, hfinish.1, hfinish.2⟩
  · rw [decode_eq hfailed hcompletes.error, finish_eq_none_iff (by exact hfailed)]
    exact ⟨hcompletes.unstarted, hcompletes.rest⟩

theorem collects_new_iff {chunks : List Bytes} {got : List (UInt64 × M)} :
    (new g none (some collect)).Collects chunks got ↔
      (feed g none (some collect) (.fresh g 0) chunks.flatten []).Completes ∧
        (feed g none (some collect) (.fresh g 0) chunks.flatten []).state = got := by
  have hstate : ((new g none (some collect)).decode chunks.flatten []).2.state =
      (feed g none (some collect) (.fresh g 0) chunks.flatten []).state := by
    rw [reply_of_decode rfl, fed_new]
  rw [← decode_new_iff, ← hstate, and_assoc, Collects]
  cases chunks with
  | nil => rw [List.flatten_nil, decode_new_nil, decodeAll]
  | cons chunk chunks =>
    have hd : (new g none (some (@collect M))).isFailed = false := rfl
    obtain ⟨hreply, hdecoder⟩ := decodeAll_cons hd chunk chunks []
    rw [hreply, List.flatten_cons]
    refine and_congr_right fun herror => ?_
    rw [hdecoder herror]

end Decoder

/-- **A stream is decoded message by message.** A decoder gets through the input and its end
without an error exactly if the input is cut into byte strings that are each decoded on their own.
It delivers what they are decoded to, in order, each with the position where its bytes end. -/
theorem collects_iff (hg : g.Builtin) {chunks : List Bytes}
    (hsize : chunks.flatten.length < 0x8000000000000000) {got : List (UInt64 × M)} :
    (Decoder.new g none (some collect)).Collects chunks got ↔
      ∃ parts : List (Bytes × M), (parts.map Prod.fst).flatten = chunks.flatten ∧
        (∀ part ∈ parts, g.decode none part.1 = .ok part.2) ∧ got = deliveries 0 parts := by
  rw [Decoder.collects_new_iff]
  generalize chunks.flatten = s at hsize ⊢
  refine ⟨fun ⟨hcompletes, hstate⟩ => ?_, fun h => ?_⟩
  · obtain ⟨parts, behind, rfl, hparts, hhanded, hall⟩ :=
      parts_of_feed (f := collect) hg.ignoresPosition none 0 s [] (by omega)
    obtain rfl := hall hcompletes
    rw [handOver_collect] at hhanded
    exact ⟨parts, (List.append_nil _).symm, hparts,
      hstate.symm.trans (congrArg Prod.fst hhanded).symm⟩
  · obtain ⟨parts, rfl, hparts, rfl⟩ := h
    exact feed_parts hg.ignoresPosition parts 0 hparts (by omega) (handOver_collect 0 parts [])

end

/-- An unbind and an abandon request, cut inside a header and inside a value. -/
theorem collects_unbind_abandon :
    let chunks : List Bytes :=
      [[0x30], [0x05, 0x02, 0x01, 0x02, 0x42, 0x00, 0x30, 0x06, 0x02, 0x01], [],
        [0x05, 0x50, 0x01, 0x03]]
    Message.grammar.Builtin ∧ chunks.flatten.length < 0x8000000000000000 ∧
      (Decoder.new Message.grammar none (some collect)).Collects chunks
        [(7, {id := 2, operation := .unbindRequest}),
          (15, {id := 5, operation := .abandonRequest, abandonedId := 3})] := by
  intro chunks
  have hsize : chunks.flatten.length < 0x8000000000000000 := by decide
  let parts : List (Bytes × Message) :=
    [([0x30, 0x05, 0x02, 0x01, 0x02, 0x42, 0x00], {id := 2, operation := .unbindRequest}),
      ([0x30, 0x06, 0x02, 0x01, 0x05, 0x50, 0x01, 0x03],
        {id := 5, operation := .abandonRequest, abandonedId := 3})]
  have hparts : ∀ part ∈ parts, Message.grammar.decode none part.1 = .ok part.2 := by
    decide +kernel
  exact ⟨.message, hsize, (collects_iff .message hsize).mpr ⟨parts, rfl, hparts, rfl⟩⟩

end LdapBer
