import LdapBer.Proofs.ControlValue.Syntax

/-! Sort requests are decoded from their syntax.

The list and each of its keys are sequences. A key belongs to the request as soon as its attribute
type is there, and the parts behind it are stored into the last key of the request; that this is the
key that is open is told by the grammar alone (`ends_attributeType`). For whole requests this is
`decode_iff_isSortRequest`. -/
namespace LdapBer

theorem readBoolean_eq_ok_iff {value : Bytes} {b : Bool} :
    readBoolean value = .ok b ↔ IsFlag b value := by
  match value with
  | [] => simp [readBoolean, IsFlag]
  | [x] => simp [readBoolean, IsFlag, eq_comm]
  | x :: y :: rest => simp [readBoolean, IsFlag]

namespace SortRequest
open Grammar (ends_cons ends_step ends_list_pos)

section
variable {frames : List (Frame State)} {offset : UInt64} {s : State} {r r' : SortRequest}
  {b : Bool} {c' : Cursor State SortRequest} {ks : List SortKey} {k : SortKey} {t : Tree}
  {ts : List Tree}

/-! ### Keys -/

theorem storeReverseOrder_eq_ok_iff {e : Element State} :
    storeReverseOrder e ⟨ks ++ [k]⟩ = .ok (r', b) ↔
      ∃ reverse, IsFlag reverse e.value ∧ r' = ⟨ks ++ [{k with reverseOrder := reverse}]⟩ ∧
        b = true := by
  rw [storeReverseOrder]
  simp only [← readBoolean_eq_ok_iff]
  cases readBoolean e.value <;> simp [eq_comm]

theorem storeOrderingRule_eq_ok_iff {e : Element State} {attributeType : Bytes} :
    storeOrderingRule e ⟨ks ++ [.ofParts attributeType none false]⟩ = .ok (r', b) ↔
      ∃ rule, IsOctets rule e.value ∧ r' = ⟨ks ++ [.ofParts attributeType rule false]⟩ ∧
        b = true := by
  simp [storeOrderingRule, IsOctets, SortKey.ofParts, eq_comm]

theorem ends_orderingRule {attributeType : Bytes} {rule : Option Bytes}
    (hts : Tree.AllWellFormed ts) :
    grammar.Ends frames offset
        ⟨.orderingRule, ⟨ks ++ [.ofParts attributeType rule false]⟩, true⟩ ts r' ↔
      ∃ reverse, AreOptionalFlag 0x81 false reverse ts ∧
        r' = ⟨ks ++ [.ofParts attributeType rule reverse]⟩ := by
  have hrow : row .orderingRule =
      (0x81, ⟨.reverseOrder, some storeReverseOrder⟩) :: row .reverseOrder := rfl
  let put (reverse : Bool) : SortRequest := ⟨ks ++ [.ofParts attributeType rule reverse]⟩
  refine (hasRows.ends_optional hrow rfl put (fun _ _ _ => storeReverseOrder_eq_ok_iff)
    (fun _ _ _ _ => hasRows.ends_of_row_nil rfl) hts).trans ⟨fun h => ?_, fun h => ?_⟩
  · obtain ⟨reverse, us, _, rfl, hreverse, rfl, rfl⟩ := h
    exact ⟨reverse, by rwa [List.append_nil], rfl⟩
  · obtain ⟨reverse, hreverse, rfl⟩ := h
    exact ⟨reverse, ts, [], (List.append_nil ts).symm, hreverse, rfl, rfl⟩

/-- What follows the attribute type is stored into the key that this has begun. -/
theorem ends_attributeType {attributeType : Bytes} (hts : Tree.AllWellFormed ts) :
    grammar.Ends frames offset
        ⟨.attributeType, ⟨ks ++ [.ofParts attributeType none false]⟩, true⟩ ts r' ↔
      ∃ rule reverse us vs, ts = us ++ vs ∧ AreOptionalOctets 0x80 rule us ∧
        AreOptionalFlag 0x81 false reverse vs ∧
        r' = ⟨ks ++ [.ofParts attributeType rule reverse]⟩ := by
  have hrow : row .attributeType =
      (0x80, ⟨.orderingRule, some storeOrderingRule⟩) :: row .orderingRule := rfl
  let put (rule : Option Bytes) : SortRequest := ⟨ks ++ [.ofParts attributeType rule false]⟩
  refine (hasRows.ends_optional hrow rfl put (fun _ _ _ => storeOrderingRule_eq_ok_iff)
    (fun _ _ _ => ends_orderingRule) hts).trans ⟨fun h => ?_, fun h => ?_⟩
  · obtain ⟨rule, us, vs, rfl, hrule, reverse, hreverse, rfl⟩ := h
    exact ⟨rule, reverse, us, vs, rfl, hrule, hreverse, rfl⟩
  · obtain ⟨rule, reverse, us, vs, rfl, hrule, hreverse, rfl⟩ := h
    exact ⟨rule, us, vs, rfl, hrule, reverse, hreverse, rfl⟩

theorem walk_attributeType (ht : t.WellFormed) :
    grammar.walk frames offset ⟨.key, r, b⟩ t = .ok c' ↔
      ∃ field attributeType, t = .leaf 0x04 field attributeType ∧ attributeType ≠ [] ∧
        c' = ⟨.attributeType, ⟨r.keys ++ [.ofParts attributeType none false]⟩, true⟩ := by
  rw [hasRows.walk_leaf (s := .key) rfl rfl ht]
  refine ⟨fun h => ?_, fun h => ?_⟩
  · obtain ⟨field, value, rfl, _, _, hact, rfl⟩ := h
    cases value with
    | nil => simp [addKey, Tree.element] at hact
    | cons x value =>
      cases hact
      exact ⟨field, x :: value, rfl, List.cons_ne_nil x value, rfl⟩
  · obtain ⟨field, attributeType, rfl, hne, rfl⟩ := h
    exact ⟨field, attributeType, rfl, _, _,
      by simp [addKey, SortKey.ofParts, Tree.element, hne], rfl⟩

theorem ends_key (hts : Tree.AllWellFormed ts) :
    grammar.Ends frames offset ⟨.key, ⟨ks⟩, false⟩ ts r' ↔
      ∃ k, AreKeyParts k ts ∧ r' = ⟨ks ++ [k]⟩ := by
  refine ⟨fun h => ?_, fun h => ?_⟩
  · obtain ⟨t, us, rfl, _, hwalk, h⟩ := ends_step.mp h
    obtain ⟨field, attributeType, rfl, hne, rfl⟩ := (walk_attributeType hts.1).mp hwalk
    obtain ⟨rule, reverse, us, vs, rfl, hrule, hreverse, rfl⟩ := (ends_attributeType hts.2).mp h
    exact ⟨_, .mk field hne hrule hreverse, rfl⟩
  · obtain ⟨_, ⟨field, hne, hrule, hreverse⟩, rfl⟩ := h
    exact ends_cons.mpr ⟨_, (walk_attributeType hts.1).mpr ⟨_, _, rfl, hne, rfl⟩,
      (ends_attributeType hts.2).mpr ⟨_, _, _, _, rfl, hrule, hreverse, rfl⟩⟩

/-! ### Requests -/

theorem walk_key (hrow : row s = [(0x30, ⟨.key, none⟩)]) (ht : t.WellFormed) :
    grammar.walk frames offset ⟨s, r, b⟩ t = .ok c' ↔
      ∃ k, IsKey k t ∧ c' = ⟨.keyDone, ⟨r.keys ++ [k]⟩, true⟩ := by
  rw [hasRows.walk_node hrow rfl ht (fun _ => rfl) rfl]
  refine ⟨fun h => ?_, fun h => ?_⟩
  · obtain ⟨field, children, rfl, hchildren, _, h, rfl⟩ := h
    obtain ⟨k, hk, rfl⟩ := (ends_key hchildren).mp h
    exact ⟨k, .mk field hk, rfl⟩
  · obtain ⟨k, ⟨field, hk⟩, rfl⟩ := h
    exact ⟨field, _, rfl, ht.2.2.2, _, (ends_key ht.2.2.2).mpr ⟨k, hk, rfl⟩, rfl⟩

theorem foldl_concat (ks : List SortKey) (r : SortRequest) :
    ks.foldl (fun r k => ⟨r.keys ++ [k]⟩) r = ⟨r.keys ++ ks⟩ := by
  induction ks generalizing r with
  | nil => simp
  | cons k ks ih => simp [ih]

theorem ends_keyList (hts : Tree.AllWellFormed ts) :
    grammar.Ends frames offset ⟨.keyList, {}, false⟩ ts r ↔
      r.keys ≠ [] ∧ List.Forall₂ IsKey r.keys ts := by
  rw [ends_list_pos (s := .keyList) (fun _ _ _ _ _ => walk_key rfl)
    (fun _ _ _ _ _ => walk_key rfl) hts]
  simp only [foldl_concat, List.nil_append]
  refine ⟨fun h => ?_, fun h => ?_⟩
  · obtain ⟨ks, hne, hks, rfl⟩ := h
    exact ⟨hne, hks⟩
  · exact ⟨r.keys, h.1, h.2, rfl⟩

theorem read_iff_isSortRequest (ht : t.WellFormed) :
    grammar.read 0 t = .ok r ↔ IsSortRequest r t := by
  have hmem : (0x30, (⟨.keyList, none⟩ : Transition State SortRequest)) ∈ row .start := .head _
  refine ⟨fun h => ?_, fun h => ?_⟩
  · obtain ⟨tr, htr⟩ := hasRows.mem_row_of_read h
    obtain ⟨htag, -⟩ := Prod.mk.inj (List.mem_singleton.mp htr)
    obtain ⟨field, children, rfl, hchildren⟩ := Tree.node_of_tag ht htag rfl
    obtain ⟨hne, hkeys⟩ :=
      (ends_keyList hchildren).mp ((hasRows.read_node hmem fun _ => rfl).mp h)
    exact .mk field hne hkeys
  · obtain ⟨field, hne, hkeys⟩ := h
    exact (hasRows.read_node hmem fun _ => rfl).mpr ((ends_keyList ht.2.2.2).mpr ⟨hne, hkeys⟩)

end

/-- **Decoding accepts the syntax of sort requests.** A byte string is decoded to a request exactly
if it is one tree that stands for the request. -/
theorem decode_iff_isSortRequest {b : Bytes} {r : SortRequest} :
    decode b = .ok r ↔ ∃ t : Tree, t.WellFormed ∧ t.bytes = b ∧ IsSortRequest r t :=
  Grammar.decode_iff_of_read read_iff_isSortRequest

end SortRequest

end LdapBer
