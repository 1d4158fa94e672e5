import LdapBer.Proofs.Decode.Steps

/-! States, what is open around them and what the message has in them.

The engine keeps a state and a stack of open elements and ties neither to the other. A grammar does
so if each transition and each close leads to a state that fits (`Grammar.Nested`): then the state
alone tells what is open (`Grammar.Nested.opened_of_waits`). In the same way a state can tell
something about the message (`Grammar.Ensures`), such as that a list has a last item for an action
to store into (`Grammar.Stores.begun_of_acts`). All this is checked on the tables of the grammar and
holds in every session. -/
namespace LdapBer
variable {σ M : Type} {g : Grammar σ M} {limit : Option Nat}

/-! ### What is open around a state -/

/-- `enclosing s` tells in which states the elements around state `s` were opened, the innermost
first. A constructed element is opened in the state that it leads to. A close leads back to what is
around the element that it closes, and only the outermost element needs none. -/
structure Grammar.Nested (g : Grammar σ M) (enclosing : σ → List σ) : Prop where
  start : enclosing g.start = []
  transition : ∀ {s tag t}, g.transition s tag = some t →
    enclosing t.next = if Tag.isConstructed tag then t.next :: enclosing s else enclosing s
  close : ∀ {s opened outer}, enclosing s = opened :: outer →
    match g.close opened with
    | none => outer = []
    | some close => enclosing close.next = outer

/-- Until the message is complete, the open elements are those around its state. -/
structure Placed (enclosing : σ → List σ) (c : Container σ M) : Prop where
  started : c.frames ≠ [] → c.started = true
  opened : c.isComplete = false → c.frames.map Frame.opened = enclosing c.state

section
variable {enclosing : σ → List σ} {c : Container σ M}

theorem isComplete_of_cons {frame : Frame σ} {outer : List (Frame σ)}
    (hframes : c.frames = frame :: outer) : c.isComplete = false := by
  rw [Container.isComplete, hframes, List.isEmpty_cons, Bool.and_false]

theorem Placed.close (h : Placed enclosing c) (hg : g.Nested enclosing) {frame : Frame σ}
    {outer : List (Frame σ)} (hframes : c.frames = frame :: outer) :
    Placed enclosing (c.closeFrame g frame outer) := by
  have hstarted : c.started = true := h.started (hframes ▸ List.cons_ne_nil frame outer)
  have hopened := h.opened (isComplete_of_cons hframes)
  rw [hframes, List.map_cons] at hopened
  have hclose := hg.close hopened.symm
  refine ⟨fun _ => by rw [Container.started_closeFrame, hstarted], fun hopen => ?_⟩
  rw [Container.frames_closeFrame]
  cases hcase : g.close frame.opened with
  | some close =>
    rw [hcase] at hclose
    rw [Container.closeFrame, hcase]
    exact hclose.symm
  | none =>
    -- behind the outermost element the message is complete
    rw [hcase] at hclose
    rw [Container.isComplete, Container.started_closeFrame, Container.frames_closeFrame, hstarted,
      List.map_eq_nil_iff.mp hclose] at hopen
    cases hopen

theorem Placed.element (h : Placed enclosing c) (hg : g.Nested enclosing)
    (hopen : c.isComplete = false) {t : Transition σ M} {e : Element σ}
    (ht : g.transition c.state e.header.tag = some t) (m : M) (b : Bool) :
    Placed enclosing (c.passElement t e m b) := by
  refine ⟨fun _ => Container.started_passElement c t e m b, fun _ => ?_⟩
  rw [Container.state_passElement, hg.transition ht, Container.passElement, Header.isConstructed]
  split
  · rw [List.map_cons, h.opened hopen]
  · exact h.opened hopen

theorem Grammar.Nested.invariant (hg : g.Nested enclosing) :
    Invariant g limit (Placed enclosing) where
  fresh _ := ⟨fun h => absurd rfl h, fun _ => hg.start.symm⟩
  step hstep h := by
    cases hstep with
    | close hframes hstop => exact h.close hg hframes
    | element hopen hnext hact =>
      exact h.element hg hopen (inFront_of_nextElement hnext).transition _ _

/-- Where the engine waits, the state tells what is open. -/
theorem Grammar.Nested.opened_of_waits (hg : g.Nested enclosing) {start : Nat} {message : Bytes}
    (h : Session g limit start message c) {s : Bytes}
    (hwaits : (advance g limit c s).status = .needMore) :
    (advance g limit c s).container.frames.map Frame.opened =
      enclosing (advance g limit c s).container.state := by
  have hok : ∀ e, (advance g limit c s).status ≠ .failed e := by
    rw [hwaits]
    exact nofun
  have hplaced : Placed enclosing (advance g limit c s).container :=
    hg.invariant.session (h.input s hok)
  exact hplaced.opened ((stopsAt_of_advance c s hok).open_of_waits hwaits)

/-- No more is open than around some state. -/
theorem Placed.length_le (h : Placed enclosing c) {depth : Nat}
    (hdepth : ∀ s, (enclosing s).length ≤ depth) : c.frames.length ≤ depth := by
  cases hopen : c.isComplete with
  | false =>
    rw [← List.length_map (f := Frame.opened), h.opened hopen]
    exact hdepth c.state
  | true =>
    rw [List.isEmpty_iff.mp (Bool.and_eq_true_iff.mp hopen).2]
    exact Nat.zero_le depth

end

/-! ### What a state ensures -/

/-- `K s m` holds whenever the state is `s` and the message is `m`. -/
structure Grammar.Ensures (g : Grammar σ M) (K : σ → M → Prop) : Prop where
  start : K g.start g.blank
  act : ∀ {s t e m m' b}, g.transition s e.header.tag = some t → K s m →
    t.act e m = .ok (m', b) → K t.next m'
  close : ∀ {s opened close m}, g.close opened = some close → K s m → K close.next m

theorem Grammar.Ensures.invariant {K : σ → M → Prop} (hg : g.Ensures K) :
    Invariant g limit fun c => K c.state c.message where
  fresh _ := hg.start
  step hstep h := by
    cases hstep with
    | @close c s frame outer hframes hstop =>
      dsimp only at h ⊢
      rw [Container.message_closeFrame, Container.closeFrame]
      cases hclose : g.close frame.opened with
      | none => exact h
      | some close => exact hg.close hclose h
    | @element c s rest t e m b hopen hnext hact =>
      dsimp only at h ⊢
      rw [Container.message_passElement, Container.state_passElement]
      exact hg.act (inFront_of_nextElement hnext).transition h hact

/-! ### Storing into what was begun -/

/-- Items are begun by one action and then stored into by others. Only the former leads inside an
item from elsewhere, and the latter stand nowhere else. -/
structure Grammar.Stores (g : Grammar σ M) (inside : σ → Prop) (begun : M → Prop)
    (opening : Action σ M) (stores : List (Action σ M)) : Prop where
  start : ¬ inside g.start
  enter : ∀ {s tag t}, g.transition s tag = some t → inside t.next →
    t.action = some opening ∨ inside s ∧ ∃ act ∈ stores, t.action = some act
  close : ∀ {opened close}, g.close opened = some close → ¬ inside close.next
  only : ∀ {s tag t act}, g.transition s tag = some t → act ∈ stores → t.action = some act →
    inside s
  begins : ∀ {e m m' b}, opening e m = .ok (m', b) → begun m'
  keeps : ∀ {act e m m' b}, act ∈ stores → act e m = .ok (m', b) → begun m → begun m'

section
variable {inside : σ → Prop} {begun : M → Prop} {opening : Action σ M} {stores : List (Action σ M)}

theorem Grammar.Stores.ensures (hg : g.Stores inside begun opening stores) :
    g.Ensures fun s m => inside s → begun m where
  start := fun h => absurd h hg.start
  act {s t e m m' b} ht h hact hnext := by
    obtain hopening | ⟨hs, act, hmem, haction⟩ := hg.enter ht hnext
    · rw [Transition.act, hopening] at hact
      exact hg.begins hact
    · rw [Transition.act, haction] at hact
      exact hg.keeps hmem hact (h hs)
  close hclose _ hnext := absurd hnext (hg.close hclose)

/-- Wherever something is stored an item has been begun. -/
theorem Grammar.Stores.begun_of_acts (hg : g.Stores inside begun opening stores)
    {t : Transition σ M} {e : Element σ} {m : M} (h : Acts g limit t e m) {act : Action σ M}
    (hmem : act ∈ stores) (haction : t.action = some act) : begun m := by
  obtain ⟨c, hc, rfl, ht⟩ := hg.ensures.invariant.acts h
  exact hc (hg.only ht hmem haction)

end

/-- What an action makes of one element and message. It can tell actions apart. -/
def sample (e : Element σ) (m : M) (action : Option (Action σ M)) :
    Option (Except Objection (M × Bool)) :=
  action.map fun act => act e m

theorem sample_mem {actions : List (Action σ M)} {act : Action σ M} (hmem : act ∈ actions)
    {action : Option (Action σ M)} (haction : action = some act) (e : Element σ) (m : M) :
    sample e m action ∈ actions.map fun act => sample e m (some act) := by
  rw [haction]
  exact List.mem_map.mpr ⟨act, hmem, rfl⟩

end LdapBer
