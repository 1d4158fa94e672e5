import LdapBer.Proofs.Decode.Rounds

/-! Resuming a decode.

A decode that runs out of input can go on when more of it has come. Two facts carry this. What
was decided on a part of the input does not depend on the rest (`nextElement_append`,
`round_append`, `advance_append`), and what was left undecided is taken up again with the bytes
that were kept (`advance_resume`): closing what ends at a position closes nothing the second time,
and a header that was cut short is read again from its first byte. -/
namespace LdapBer

/-! ### Elements -/

section
variable {σ M : Type} {g : Grammar σ M} {limit : Option Nat} {c : Container σ M}

theorem nextElement_append (s t : Bytes) (h : nextElement g limit c s ≠ .ok none) :
    nextElement g limit c (s ++ t) =
      (nextElement g limit c s).map
        (Option.map fun next => (next.1, next.2.1, next.2.2 ++ t)) := by
  have hread : Header.read c.offset s ≠ .ok none := fun hr => h (by simp [nextElement, hr])
  unfold nextElement at h ⊢
  rw [Header.read_append c.offset s t hread]
  cases hr : Header.read c.offset s with
  | error e => rfl
  | ok answer =>
    cases answer with
    | none => exact absurd hr hread
    | some answer =>
      obtain ⟨hd, rest⟩ := answer
      simp only [hr] at h
      simp only [Except.map, Option.map]
      cases hfits : checkFits limit c.frames hd with
      | error e => rfl
      | ok _ =>
        simp only [hfits] at h
        dsimp only
        cases htransition : g.transition c.state hd.tag with
        | none => rfl
        | some tr =>
          simp only [htransition] at h
          dsimp only
          by_cases hc : hd.isConstructed = true
          · simp only [hc, if_true]
          · simp only [hc] at h ⊢
            cases hs : splitExact hd.length rest with
            | none => simp [hs] at h
            | some parts =>
              rw [splitExact_append hs t]
              rfl

/-! ### Closing twice -/

def Settled.after (events : List (Event σ)) (settled : Settled σ M) : Settled σ M :=
  {settled with events := events ++ settled.events}

theorem closeFrames_open {c : Container σ M} {frame : Frame σ} (h : frame.stop ≠ c.offset)
    (outer : List (Frame σ)) :
    c.closeFrames g (frame :: outer) = ⟨{c with frames := frame :: outer}, [], none⟩ := by
  simp [Container.closeFrames, h]

theorem closeFrames_refused {c : Container σ M} {frame : Frame σ} (h : frame.stop = c.offset)
    (hend : c.endAllowed = false) (outer : List (Frame σ)) :
    c.closeFrames g (frame :: outer) =
      ⟨{c with frames := frame :: outer}, [],
        some (.endNotAllowed g.name (g.stateName frame.opened) (g.label c.state) c.offset)⟩ := by
  simp [Container.closeFrames, h, hend]

theorem closeFrames_kept {c : Container σ M} {frame : Frame σ} (h : frame.stop = c.offset)
    (hend : c.endAllowed = true) (hclose : g.close frame.opened = none)
    (outer : List (Frame σ)) :
    c.closeFrames g (frame :: outer) = c.closeFrames g outer := by
  simp [Container.closeFrames, h, hend, hclose]

theorem closeFrames_closed {c : Container σ M} {frame : Frame σ} (h : frame.stop = c.offset)
    (hend : c.endAllowed = true) {close : Close σ} (hclose : g.close frame.opened = some close)
    (outer : List (Frame σ)) :
    c.closeFrames g (frame :: outer) =
      (Container.closeFrames g {c with state := close.next, endAllowed := close.endAllowed}
        outer).after [.closed frame.opened close.next c.offset] := by
  simp [Container.closeFrames, h, hend, hclose, Settled.after]

/-- Frames that are left open do not end at the position, so nothing is closed again. -/
theorem closeFrames_again (c : Container σ M) (frames : List (Frame σ))
    (h : (c.closeFrames g frames).error = none) :
    (c.closeFrames g frames).container.closeFrames g (c.closeFrames g frames).container.frames =
      ⟨(c.closeFrames g frames).container, [], none⟩ := by
  induction frames generalizing c with
  | nil => rfl
  | cons frame outer ih =>
    by_cases hstop : frame.stop = c.offset
    · cases hend : c.endAllowed with
      | false => simp [closeFrames_refused hstop hend] at h
      | true =>
        cases hclose : g.close frame.opened with
        | none =>
          rw [closeFrames_kept hstop hend hclose] at h ⊢
          exact ih c h
        | some close =>
          rw [closeFrames_closed hstop hend hclose] at h ⊢
          exact ih _ h
    · rw [closeFrames_open hstop]
      exact closeFrames_open (c := {c with frames := frame :: outer}) hstop outer

theorem settle_again (c : Container σ M) (h : (c.settle g).error = none) :
    (c.settle g).container.settle g = ⟨(c.settle g).container, [], none⟩ :=
  closeFrames_again c c.frames h

/-! ### Rounds -/

/-- An outcome with bytes behind those that it left. -/
def Outcome.extend (t : Bytes) (o : Outcome σ M) : Outcome σ M :=
  {o with rest := o.rest ++ t}

def Round.extend (t : Bytes) : Round σ M → Round σ M
  | .more c rest events => .more c (rest ++ t) events
  | .halt o => .halt (o.extend t)

theorem Outcome.after_after (first second : List (Event σ)) (o : Outcome σ M) :
    (o.after second).after first = o.after (first ++ second) := by
  simp [Outcome.after]

theorem Round.after_after (first second : List (Event σ)) (r : Round σ M) :
    (r.after second).after first = r.after (first ++ second) := by
  cases r <;> simp [Round.after, Outcome.after]

theorem enter_append (c : Container σ M) (tr : Transition σ M) (e : Element σ) (rest t : Bytes) :
    enter g c tr e (rest ++ t) = (enter g c tr e rest).extend t := by
  unfold enter
  dsimp only
  split
  · rfl
  · split
    · rfl
    · split
      · split <;> rfl
      · rfl

theorem extend_after (events : List (Event σ)) (t : Bytes) (r : Round σ M) :
    (r.extend t).after events = (r.after events).extend t := by
  cases r <;> rfl

/-- A round that does not wait for input does the same on every longer input. -/
theorem round_append (c : Container σ M) (s t : Bytes)
    (h : ∀ o, round g limit c s = .halt o → o.status ≠ .needMore) :
    round g limit c (s ++ t) = (round g limit c s).extend t := by
  unfold round at h ⊢
  dsimp only at h ⊢
  cases herror : (c.settle g).error with
  | some e => rfl
  | none =>
    simp only [herror] at h ⊢
    by_cases hcomplete : (c.settle g).container.isComplete = true
    · simp only [hcomplete, if_true]
      rfl
    · simp only [hcomplete] at h ⊢
      by_cases hnext : nextElement g limit (c.settle g).container s = .ok none
      · simp only [hnext] at h
        exact absurd rfl (h _ rfl)
      · rw [nextElement_append s t hnext]
        match hn : nextElement g limit (c.settle g).container s with
        | .error e => rfl
        | .ok none => exact absurd hn hnext
        | .ok (some (tr, e, rest)) =>
          simp only [Except.map, Option.map, enter_append, extend_after]
          rfl

/-- A round that waits has closed what ends here and has taken nothing. -/
theorem round_waits {c : Container σ M} {s : Bytes} {o : Outcome σ M}
    (h : round g limit c s = .halt o) (hs : o.status = .needMore) :
    (c.settle g).error = none ∧
      o = ⟨(c.settle g).container, s, (c.settle g).events, .needMore⟩ := by
  have heffect := round_effect g limit c s
  rw [h] at heffect
  cases heffect with
  | stops _ hwaits =>
    subst hs
    exact ⟨(hwaits rfl).1, rfl⟩
  | fails _ hstatus =>
    rw [hstatus] at hs
    cases hs
  | completes => cases hs

/-- Containers that are the same after closing go through the same round. -/
theorem round_of_settle {c c' : Container σ M} {events : List (Event σ)}
    (h : c.settle g = (c'.settle g).after events) (s : Bytes) :
    round g limit c s = (round g limit c' s).after events := by
  unfold round
  rw [h]
  simp only [Settled.after]
  cases (c'.settle g).error with
  | some e => rfl
  | none =>
    dsimp only
    by_cases hcomplete : (c'.settle g).container.isComplete = true
    · simp only [hcomplete, if_true]
      rfl
    · simp only [hcomplete]
      cases nextElement g limit (c'.settle g).container s with
      | error e => rfl
      | ok next =>
        cases next with
        | none => rfl
        | some next =>
          obtain ⟨tr, e, rest⟩ := next
          exact (Round.after_after _ _ _).symm

/-! ### Running until input is missing -/

theorem advance_of_halt {c : Container σ M} {s : Bytes} {o : Outcome σ M}
    (h : round g limit c s = .halt o) : advance g limit c s = o := by
  unfold advance
  split
  · next o' ho =>
    rw [h] at ho
    cases ho
    rfl
  · next hm =>
    rw [h] at hm
    cases hm

theorem advance_of_more {c c' : Container σ M} {s rest : Bytes} {events : List (Event σ)}
    (h : round g limit c s = .more c' rest events) :
    advance g limit c s = (advance g limit c' rest).after events := by
  conv => lhs; unfold advance
  split
  · next ho =>
    rw [h] at ho
    cases ho
  · next hm =>
    rw [h] at hm
    cases hm
    rfl

theorem advance_of_settle {c c' : Container σ M} {events : List (Event σ)}
    (h : c.settle g = (c'.settle g).after events) (s : Bytes) :
    advance g limit c s = (advance g limit c' s).after events := by
  have hround : round g limit c s = (round g limit c' s).after events := round_of_settle h s
  cases hr : round g limit c' s with
  | halt o =>
    rw [hr] at hround
    rw [advance_of_halt hr, advance_of_halt hround]
  | more c'' rest events' =>
    rw [hr] at hround
    rw [advance_of_more hr, advance_of_more hround, Outcome.after_after]

/-- A decode that does not run out of input goes the same way on every longer input. -/
theorem advance_append (c : Container σ M) (s t : Bytes)
    (h : (advance g limit c s).status ≠ .needMore) :
    advance g limit c (s ++ t) = (advance g limit c s).extend t := by
  fun_induction advance g limit c s with
  | case1 c s o ho =>
    have happend : round g limit c (s ++ t) = (round g limit c s).extend t := by
      apply round_append
      intro o' ho'
      rw [ho] at ho'
      cases ho'
      exact h
    rw [ho] at happend
    exact advance_of_halt happend
  | case2 c s c' rest events hr _ ih =>
    have happend : round g limit c (s ++ t) = (round g limit c s).extend t := by
      apply round_append
      intro o' ho'
      rw [hr] at ho'
      cases ho'
    rw [hr] at happend
    rw [advance_of_more happend, ih h]
    rfl

/-- A decode that runs out of input goes on, when there is more, from where it stopped and with
the bytes that it left. -/
theorem advance_resume (c : Container σ M) (s t : Bytes)
    (h : (advance g limit c s).status = .needMore) :
    advance g limit c (s ++ t) =
      (advance g limit (advance g limit c s).container ((advance g limit c s).rest ++ t)).after
        (advance g limit c s).events := by
  fun_induction advance g limit c s with
  | case1 c s o ho =>
    obtain ⟨herror, rfl⟩ := round_waits ho h
    apply advance_of_settle
    rw [settle_again c herror]
    simp only [Settled.after, List.append_nil]
    rw [← herror]
  | case2 c s c' rest events hr _ ih =>
    have happend : round g limit c (s ++ t) = (round g limit c s).extend t := by
      apply round_append
      intro o' ho'
      rw [hr] at ho'
      cases ho'
    rw [hr] at happend
    rw [advance_of_more happend, ih h, Outcome.after_after]
    rfl

end

end LdapBer
