import LdapBer.Proofs.Ber.Integer
import LdapBer.Proofs.Decode.Rows
import LdapBer.Proofs.Message.Syntax

/-! The steps of the grammar of LDAP messages.

Most states have one transition, which takes a number, a text or a URL and puts it into the message
(`walk_number`, `walk_text`, `walk_url`). -/
namespace LdapBer.Message

section
variable {frames : List (Frame State)} {offset : UInt64} {s next : State} {m m' : Message}
  {b : Bool} {c' : Cursor State Message} {tag : UInt8} {t : Tree} {ts : List Tree}

/-! ### Contents -/

theorem isNumber_iff {n : Int} :
    IsNumber tag n t ↔
      ∃ field value, t = .leaf tag field value ∧ readInteger 0 maxNumber value = .ok n := by
  refine ⟨fun h => ?_, fun h => ?_⟩
  · obtain ⟨field, value, hsize, hvalue, hrange⟩ := h
    exact ⟨field, value, rfl, readInteger_eq_ok_iff.mpr ⟨hsize, hvalue, hrange⟩⟩
  · obtain ⟨field, value, rfl, h⟩ := h
    obtain ⟨hsize, hvalue, hrange⟩ := readInteger_eq_ok_iff.mp h
    exact ⟨field, value, hsize, hvalue, hrange⟩

theorem isText_iff {text : Bytes} : IsText text t ↔ ∃ field, t = .leaf 0x04 field text := by
  refine ⟨fun h => ?_, fun h => ?_⟩
  · obtain ⟨field⟩ := h
    exact ⟨field, rfl⟩
  · obtain ⟨field, rfl⟩ := h
    exact ⟨field⟩

theorem withNumber_eq_ok_iff {e : Element State} {set : Int → Message × Bool}
    {acted : Message × Bool} :
    withNumber e set = .ok acted ↔
      ∃ n, readInteger 0 maxNumber e.value = .ok n ∧ acted = set n := by
  rw [withNumber]
  cases readInteger 0 maxNumber e.value <;> simp [eq_comm]

theorem withUrl_eq_ok_iff {e : Element State} {set : Bytes → Message} {acted : Message × Bool} :
    withUrl e set = .ok acted ↔ e.value ≠ [] ∧ acted = (set e.value, true) := by
  rw [withUrl]
  cases e.value <;> simp [eq_comm]

theorem walk_number {act : Action State Message} {put : Int → Message}
    (hrow : row s = [(tag, ⟨next, some act⟩)]) (htag : Tag.isConstructed tag = false)
    (hact : ∀ e, act e m = withNumber e fun n => (put n, false)) (ht : t.WellFormed) :
    grammar.walk frames offset ⟨s, m, b⟩ t = .ok c' ↔
      ∃ n, IsNumber tag n t ∧ c' = ⟨next, put n, false⟩ := by
  simp only [hasRows.walk_leaf hrow htag ht, hact, withNumber_eq_ok_iff, isNumber_iff]
  refine ⟨fun h => ?_, fun h => ?_⟩
  · obtain ⟨field, value, rfl, _, _, ⟨n, hn, heq⟩, rfl⟩ := h
    cases heq
    exact ⟨n, ⟨field, value, rfl, hn⟩, rfl⟩
  · obtain ⟨n, ⟨field, value, rfl, hn⟩, rfl⟩ := h
    exact ⟨field, value, rfl, _, _, ⟨n, hn, rfl⟩, rfl⟩

theorem walk_text {act : Action State Message} (put : Bytes → Message) {allow : Bool}
    (hrow : row s = [(0x04, ⟨next, some act⟩)])
    (hact : ∀ e, act e m = .ok (put e.value, allow)) (ht : t.WellFormed) :
    grammar.walk frames offset ⟨s, m, b⟩ t = .ok c' ↔
      ∃ text, IsText text t ∧ c' = ⟨next, put text, allow⟩ := by
  simp only [hasRows.walk_leaf hrow rfl ht, hact, isText_iff]
  refine ⟨fun h => ?_, fun h => ?_⟩
  · obtain ⟨field, value, rfl, _, _, heq, rfl⟩ := h
    cases heq
    exact ⟨value, ⟨field, rfl⟩, rfl⟩
  · obtain ⟨text, ⟨field, rfl⟩, rfl⟩ := h
    exact ⟨field, text, rfl, _, _, rfl, rfl⟩

theorem walk_url {act : Action State Message} {put : Bytes → Message}
    (hrow : row s = [(0x04, ⟨next, some act⟩)]) (hact : ∀ e, act e m = withUrl e put)
    (ht : t.WellFormed) :
    grammar.walk frames offset ⟨s, m, b⟩ t = .ok c' ↔
      ∃ url, IsUrl url t ∧ c' = ⟨next, put url, true⟩ := by
  simp only [hasRows.walk_leaf hrow rfl ht, hact, withUrl_eq_ok_iff, IsUrl, isText_iff]
  refine ⟨fun h => ?_, fun h => ?_⟩
  · obtain ⟨field, value, rfl, _, _, ⟨hne, heq⟩, rfl⟩ := h
    cases heq
    exact ⟨value, ⟨⟨field, rfl⟩, hne⟩, rfl⟩
  · obtain ⟨url, ⟨⟨field, rfl⟩, hne⟩, rfl⟩ := h
    exact ⟨field, url, rfl, _, _, ⟨hne, rfl⟩, rfl⟩

end

end LdapBer.Message
