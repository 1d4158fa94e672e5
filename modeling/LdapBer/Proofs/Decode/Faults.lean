import LdapBer.Proofs.Decode.Runs

/-! Where faults are found.

An error of a decode names a position. It is found in different ways, at the header of an element or
in it, behind a value, or at the end of a frame, but never behind what has been read
(`Fault.offset_le`). So a decoder that fails names a position within its input, and nothing was
wrong with what comes before (`fault_within`). -/
namespace LdapBer
variable {σ M S ε : Type} {g : Grammar σ M} {limit : Option Nat} {c : Container σ M}

/-! ### Grammars that leave it to the engine where a fault is -/

/-- The action objects to contents only. -/
def Transition.Refuses (tr : Transition σ M) : Prop :=
  ∀ e m o, tr.act e m = .error o → ∃ r, o = .refuse r

namespace Grammar

def Refuses (g : Grammar σ M) : Prop :=
  ∀ s tag tr, g.transition s tag = some tr → tr.Refuses

theorem Builtin.refuses {g : Grammar σ M} (hg : g.Builtin) : g.Refuses := by
  cases hg
  all_goals
    refine forall_of_row (fun _ _ => rfl) fun s => ?_
    cases s <;> simp only [Message.row, SortRequest.row, SyncInfo.row, List.forall_mem_cons,
      List.not_mem_nil, false_implies, implies_true, and_true] <;> and_intros
  all_goals
    intro e m o h
    simp only [Transition.act, Option.getD_some, Option.getD_none, Message.storeId,
      Message.storeUnbind, Message.storeDelete, Message.storeAbandon, Message.begin,
      Message.storeCode, Message.storeMatchedDn, Message.storeDiagnostic, Message.addReferral,
      Message.addUrl, Message.beginControl, Message.storeControlType, Message.storeCriticality,
      Message.storeControlValue, Message.withNumber, Message.withUrl, SortRequest.addKey,
      SortRequest.storeOrderingRule, SortRequest.storeReverseOrder, SyncInfo.storeNewCookie,
      SyncInfo.beginRefresh, SyncInfo.storeCookie, SyncInfo.storeSetCookie,
      SyncInfo.storeRefreshDone, SyncInfo.beginIdSet, SyncInfo.storeRefreshDeletes,
      SyncInfo.beginUuids, SyncInfo.addUuid] at h
    -- an action accepts everything, or there is one thing that it refuses
    first
    | cases h
    | split at h <;> cases h
      exact ⟨_, rfl⟩

end Grammar

/-! ### The positions of faults -/

/-- A call of the engine that fails comes to a fault. -/
theorem fault_of_advance (c : Container σ M) (s : Bytes) {err : DecodeError}
    (h : (advance g limit c s).status = .failed err) :
    ∃ c' s', Rounds g limit (c, s) (c', s') ∧ Fault g limit c' s' err := by
  fun_induction advance g limit c s with
  | case1 c s o ho =>
    have heffect := round_effect g limit c s
    rw [ho] at heffect
    refine ⟨c, s, .refl, ?_⟩
    cases heffect with
    | stops _ _ hfault => exact hfault err h
    | fails _ hstatus hfault =>
      cases hstatus.symm.trans h
      exact hfault
    | completes => cases h
  | case2 c s c' rest events hr _ ih =>
    obtain ⟨c₁, s₁, hrounds, hfault⟩ := ih h
    exact ⟨c₁, s₁, .head ⟨events, hr⟩ hrounds, hfault⟩

theorem offset_of_closeFrames_error (c : Container σ M) (frames : List (Frame σ))
    {err : DecodeError} (h : (c.closeFrames g frames).error = some err) :
    err.offset = c.offset := by
  induction frames generalizing c with
  | nil => cases h
  | cons frame outer ih =>
    by_cases hstop : frame.stop = c.offset
    · cases hend : c.endAllowed with
      | false =>
        rw [closeFrames_refused hstop hend] at h
        cases h
        rfl
      | true =>
        cases hclose : g.close frame.opened with
        | none =>
          rw [closeFrames_kept hstop hend hclose] at h
          exact ih c h
        | some close =>
          rw [closeFrames_closed hstop hend hclose] at h
          exact ih {c with state := close.next, endAllowed := close.endAllowed} h
    · rw [closeFrames_open hstop] at h
      cases h

/-- A bad tag is found where it stands, and a bad length where its first byte stands. -/
theorem Header.offset_le_of_read {offset : UInt64} {s : Bytes} {e : HeaderError}
    (h : read offset s = .error e) (hlt : offset.toNat + s.length < 0x10000000000000000) :
    e.offset.toNat ≤ offset.toNat + s.length := by
  unfold read at h
  split at h
  · cases h
  · next tag s =>
    split at h
    · cases h
      exact Nat.le_add_right _ _
    · split at h
      · cases h
      · next first s =>
        simp only [List.length_cons] at hlt ⊢
        have hsecond : (offset + 1).toNat = offset.toNat + 1 := toNat_add_of_lt (n := 1) (by omega)
        have hle : (offset + 1).toNat ≤ offset.toNat + (s.length + 1 + 1) := by omega
        split at h
        · cases h
        · dsimp only at h
          split at h
          · cases h
            exact hle
          · split at h
            · cases h
              exact hle
            · split at h <;> cases h

theorem offset_of_checkFits {frames : List (Frame σ)} {hd : Header} {err : DecodeError}
    (h : checkFits limit frames hd = .error err) : err.offset = hd.offset := by
  unfold checkFits at h
  split at h
  · split at h
    · split at h <;> cases h
      rfl
    · cases h
  · split at h <;> cases h
    rfl

theorem offset_le_of_nextElement {s : Bytes} {err : DecodeError}
    (h : nextElement g limit c s = .error err)
    (hlt : c.offset.toNat + s.length < 0x10000000000000000) :
    err.offset.toNat ≤ c.offset.toNat + s.length := by
  unfold nextElement at h
  split at h
  · next e hr =>
    cases h
    exact Header.offset_le_of_read hr hlt
  · cases h
  · next hd rest hr =>
    obtain ⟨_, _, _, hoffset, _, _⟩ := Header.field_of_read hr
    have hle : hd.offset.toNat ≤ c.offset.toNat + s.length := hoffset ▸ Nat.le_add_right _ _
    split at h
    · next e hfits =>
      cases h
      have hposition := offset_of_checkFits hfits
      rwa [hposition]
    · split at h
      · cases h
        exact hle
      · split at h
        · cases h
        · split at h <;> cases h

/-- No fault is found behind the input. -/
theorem Fault.offset_le (hg : g.Refuses) {start : Nat} {message s : Bytes} {err : DecodeError}
    (h : Fault g limit c s err) (htracks : Tracks limit start message c)
    (hlt : start + message.length + s.length < positionLimit) :
    err.offset.toNat ≤ start + message.length + s.length := by
  have hsettled : Tracks limit start (message ++ []) (c.settle g).container :=
    htracks.steps (steps_settle c s) rfl (by rw [List.length_nil]; omega)
  have hoffset := hsettled.offset
  rw [List.append_nil] at hoffset
  rw [positionLimit] at hlt
  cases h with
  | close herror =>
    rw [offset_of_closeFrames_error c c.frames herror, htracks.offset]
    exact Nat.le_add_right _ _
  | element hnext =>
    have hle := offset_le_of_nextElement hnext (by omega)
    omega
  | entry hnext hentry =>
    have hfront := inFront_of_nextElement hnext
    have hposition := hfront.offset
    cases hentry with
    | content hact =>
      obtain ⟨r, rfl⟩ := hg _ _ _ hfront.transition _ _ _ hact
      rw [Objection.located, DecodeError.offset, hposition, hoffset]
      exact Nat.le_add_right _ _
    | unended hprimitive =>
      obtain ⟨field, hfield, hsize, rfl⟩ := hfront.bytes
      obtain ⟨hvalue, hend, -⟩ := toNat_valueEnd hfield hsize (by
        simp only [List.length_append, List.length_cons] at hlt
        rw [hposition, hoffset]
        omega)
      have hlength := hfront.value
      rw [hprimitive, if_neg Bool.false_ne_true] at hlength
      rw [DecodeError.offset, hend, hvalue, hposition, hoffset, hsize]
      simp only [List.length_append, List.length_cons]
      omega

/-! ### Decoding -/

/-- If the callback takes every message, a run fails with an error of the engine, which names a
position within the input. -/
theorem fault_of_feed (hg : g.Refuses) {callback : Option (Callback M S ε)}
    (htakes : ∀ (c : Container σ M) state, (notify callback c state).2 = none) {start : Nat}
    {message : Bytes} (h : Session g limit start message c) (s : Bytes) (state : S)
    (hlt : start + message.length + s.length < positionLimit) {err : StreamError ε}
    (herror : (feed g limit callback c s state).error = some err) :
    ∃ e, err = .decode e ∧ e.offset.toNat ≤ start + message.length + s.length := by
  fun_induction feed g limit callback c s state generalizing start message with
  | case1 c s state c' rest events ha => cases herror
  | case2 c s state c' rest events e ha =>
    cases herror
    obtain ⟨c₁, s₁, hrounds, hfault⟩ := fault_of_advance c s (congrArg Outcome.status ha)
    have hsteps := steps_of_rounds hrounds
    obtain ⟨bytes, hbytes⟩ := append_of_steps hsteps
    dsimp only at hbytes
    subst hbytes
    rw [List.length_append] at hlt ⊢
    have htracks : Tracks limit start (message ++ bytes) c₁ :=
      (tracks_of_session h (by omega)).steps hsteps rfl (by omega)
    have hle := hfault.offset_le hg htracks (by rw [List.length_append]; omega)
    rw [List.length_append] at hle
    exact ⟨e, rfl, by omega⟩
  | case3 c s state c' rest events ha state' e hn =>
    have hnone := htakes c' state
    rw [hn] at hnone
    cases hnone
  | case4 c s state c' rest events ha state' hn _ ih =>
    obtain ⟨bytes, rfl, hsession⟩ := h.advance ha (by simp)
    rw [List.length_append] at hlt ⊢
    obtain ⟨e, rfl, hle⟩ := ih hsession.reset (by
      simp only [List.length_append, List.length_nil]
      omega) herror
    simp only [List.length_append, List.length_nil] at hle
    exact ⟨e, rfl, by omega⟩

namespace Decoder

/-- **Errors are located.** If a decoder fails on an input, though its callback takes every message,
it fails with an error of the decoding, also where the content of an element is refused. The error
names a position within the input, and the decoder does not fail on a part of the input that ends
before this position. -/
theorem fault_within (hg : g.Builtin) (limit : Option Nat) (callback : Option (Callback M S ε))
    (htakes : ∀ f, callback = some f → ∀ offset m state, (f offset m state).2 = none) (state : S)
    {s : Bytes} (hsize : s.length < 0x8000000000000000) {err : StreamError ε}
    (herror : ((new g limit callback).decode s state).2.error = some err) :
    ∃ e, err = .decode e ∧ e.offset.toNat ≤ s.length ∧
      ∀ p, p <+: s → p.length < e.offset.toNat →
        ((new g limit callback).decode p state).2.error = none := by
  have htakes' : ∀ (c : Container σ M) state, (notify callback c state).2 = none := by
    intro c state
    cases callback with
    | none => rfl
    | some f => exact htakes f rfl c.offset c.message state
  have hwithin : ∀ p : Bytes, p.length ≤ s.length → ∀ err,
      ((new g limit callback).decode p state).2.error = some err →
        ∃ e, err = .decode e ∧ e.offset.toNat ≤ p.length := by
    intro p hle err h
    rw [reply_of_decode rfl, fed_new] at h
    obtain ⟨e, he, hoffset⟩ := fault_of_feed hg.refuses htakes' .begin p state
      (by rw [List.length_nil, positionLimit]; omega) h
    rw [List.length_nil, Nat.zero_add] at hoffset
    exact ⟨e, he, hoffset⟩
  obtain ⟨e, rfl, hle⟩ := hwithin s (Nat.le_refl _) err herror
  refine ⟨e, rfl, hle, ?_⟩
  rintro p ⟨t, rfl⟩ hlt
  by_contra hfails
  -- what fails on a part fails on the whole, with the same error
  have hfed : ((new g limit callback).fed p state).error ≠ none := by
    rwa [reply_of_decode rfl] at hfails
  rw [decode_append rfl p t state hfed] at herror
  obtain ⟨e', he, hle'⟩ := hwithin p (by rw [List.length_append]; omega) _ herror
  cases he
  omega

/-- The length byte of a message id is bad, and no fault is found before it. -/
theorem fault_within_messageId :
    let s : Bytes := [0x30, 0x05, 0x02, 0x80, 0x42, 0x00, 0x00]
    let d := new Message.grammar (some 100) (some (@collect Message))
    (d.decode s []).2.error = some (.decode (.header ⟨.indefiniteLength, 3⟩)) ∧
      ∀ p, p <+: s → p.length < 3 → (d.decode p []).2.error = none := by
  intro s d
  have herror : (d.decode s []).2.error = some (.decode (.header ⟨.indefiniteLength, 3⟩)) := by
    decide +kernel
  have htakes : ∀ f, d.callback = some f → ∀ offset m got, (f offset m got).2 = none := by
    rintro f ⟨⟩ offset m got
    rfl
  obtain ⟨e, he, -, hbefore⟩ :=
    fault_within .message (some 100) (some collect) htakes [] (by decide) herror
  cases he
  exact ⟨herror, hbefore⟩

end Decoder

end LdapBer
