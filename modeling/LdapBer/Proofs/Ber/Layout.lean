import LdapBer.Ber.Writer
import LdapBer.Proofs.Ber.Length
import LdapBer.Proofs.Decode.Tree

/-! Layouts and the trees that they write.

A layout spells a byte string if none of its pieces is a reason not to be written. It writes a row
of trees if it spells their bytes, provided that the trees are well-formed, and nothing else
(`Writes`): so a layout fails exactly if a length does not fit into its field. Layouts that write
trees are put together as the trees are. -/
namespace LdapBer

/-! ### Trees with the shortest length fields -/

namespace Tree

def primitive (tag : UInt8) (value : Bytes) : Tree :=
  leaf tag (lengthBytes value.length) value

def constructed (tag : UInt8) (children : List Tree) : Tree :=
  node tag (lengthBytes (bytesAll children).length) children

theorem bytes_primitive (tag : UInt8) (value : Bytes) :
    (primitive tag value).bytes = tag :: (lengthBytes value.length ++ value) := rfl

theorem bytes_constructed (tag : UInt8) (children : List Tree) :
    (constructed tag children).bytes =
      tag :: (lengthBytes (bytesAll children).length ++ bytesAll children) := rfl

theorem length_bytes_primitive (tag : UInt8) (value : Bytes) :
    (primitive tag value).bytes.length = elementSize value.length := by
  simp only [bytes_primitive, List.length_cons, List.length_append, length_lengthBytes,
    elementSize]
  omega

theorem length_bytes_constructed (tag : UInt8) (children : List Tree) :
    (constructed tag children).bytes.length = elementSize (bytesAll children).length := by
  simp only [bytes_constructed, List.length_cons, List.length_append, length_lengthBytes,
    elementSize]
  omega

theorem wellFormed_primitive_iff {tag : UInt8} {value : Bytes} (hnumber : Tag.number tag ≠ 31)
    (htag : Tag.isConstructed tag = false) :
    (primitive tag value).WellFormed ↔ value.length < 0x100000000 := by
  constructor
  · exact fun h => h.2.2.lt
  · exact fun h => ⟨hnumber, htag, lengthField_lengthBytes h⟩

theorem wellFormed_constructed_iff {tag : UInt8} {children : List Tree}
    (hnumber : Tag.number tag ≠ 31) (htag : Tag.isConstructed tag = true) :
    (constructed tag children).WellFormed ↔
      (bytesAll children).length < 0x100000000 ∧ AllWellFormed children := by
  constructor
  · exact fun h => ⟨h.2.2.1.lt, h.2.2.2⟩
  · exact fun h => ⟨hnumber, htag, lengthField_lengthBytes h.1, h.2⟩

end Tree

namespace Layout

/-! ### What a layout spells -/

def Spells (l : Layout) (b : Bytes) : Prop :=
  ∃ pieces : List Bytes, l = pieces.map .ok ∧ b = pieces.flatten

theorem spells_nil {b : Bytes} : Spells [] b ↔ b = [] := by
  refine ⟨fun h => ?_, fun h => ?_⟩
  · obtain ⟨pieces, hl, rfl⟩ := h
    rw [List.map_eq_nil_iff.mp hl.symm]
    rfl
  · obtain rfl := h
    exact ⟨[], rfl, rfl⟩

theorem spells_ok {piece b : Bytes} {l : Layout} :
    Spells (.ok piece :: l) b ↔ ∃ c, l.Spells c ∧ b = piece ++ c := by
  refine ⟨fun h => ?_, fun h => ?_⟩
  · obtain ⟨_ | ⟨first, pieces⟩, hl, rfl⟩ := h
    · cases hl
    · cases hl
      exact ⟨pieces.flatten, ⟨pieces, rfl, rfl⟩, rfl⟩
  · obtain ⟨_, ⟨pieces, rfl, rfl⟩, rfl⟩ := h
    exact ⟨piece :: pieces, rfl, rfl⟩

theorem not_spells_error {e : EncodeError} {b : Bytes} {l : Layout} :
    ¬ Spells (.error e :: l) b := by
  intro h
  obtain ⟨_ | ⟨first, pieces⟩, hl, _⟩ := h <;> cases hl

theorem spells_append {l l' : Layout} {b : Bytes} :
    (l ++ l').Spells b ↔ ∃ c c', l.Spells c ∧ l'.Spells c' ∧ b = c ++ c' := by
  refine ⟨fun h => ?_, fun h => ?_⟩
  · obtain ⟨pieces, hl, rfl⟩ := h
    obtain ⟨first, second, rfl, rfl, rfl⟩ := List.append_eq_map_iff.mp hl
    exact ⟨_, _, ⟨first, rfl, rfl⟩, ⟨second, rfl, rfl⟩, List.flatten_append⟩
  · obtain ⟨_, _, ⟨first, rfl, rfl⟩, ⟨second, rfl, rfl⟩, rfl⟩ := h
    exact ⟨first ++ second, List.map_append.symm, List.flatten_append.symm⟩

/-- A layout has bytes unless there is a reason in it. -/
theorem exists_spells_iff {l : Layout} : (∃ b, l.Spells b) ↔ ∀ e, .error e ∉ l := by
  induction l with
  | nil => exact iff_of_true ⟨[], spells_nil.mpr rfl⟩ nofun
  | cons piece l ih =>
    cases piece with
    | error e =>
      refine iff_of_false ?_ fun h => h e List.mem_cons_self
      rintro ⟨b, hb⟩
      exact not_spells_error hb
    | ok piece =>
      simp only [spells_ok, List.mem_cons, reduceCtorEq, false_or]
      rw [← ih]
      refine ⟨fun h => ?_, fun h => ?_⟩
      · obtain ⟨_, c, hc, -⟩ := h
        exact ⟨c, hc⟩
      · obtain ⟨c, hc⟩ := h
        exact ⟨_, c, hc, rfl⟩

/-- The bytes of a layout are spelt in one way. -/
theorem Spells.unique {l : Layout} {b c : Bytes} (hb : l.Spells b) (hc : l.Spells c) : b = c := by
  obtain ⟨first, rfl, rfl⟩ := hb
  obtain ⟨second, heq, rfl⟩ := hc
  rw [(List.map_inj_right fun _ _ h => Except.ok.inj h).mp heq]

theorem spells_header {tag : UInt8} {n : Nat} {b : Bytes} :
    (header tag n).Spells b ↔ n < 0x100000000 ∧ b = tag :: lengthBytes n := by
  by_cases hn : n < 0x100000000
  · simp [header, ofTag, ofLength, hn, spells_ok, spells_nil]
  · simp [header, ofTag, ofLength, hn, spells_ok, not_spells_error]

theorem spells_octets {tag : UInt8} {value b : Bytes} :
    (octets tag value).Spells b ↔
      value.length < 0x100000000 ∧ b = Header.bytes tag value.length ++ value := by
  have hraw : ∀ c, (raw value).Spells c ↔ c = value := by simp [raw, spells_ok, spells_nil]
  simp only [octets, spells_append, spells_header, hraw]
  refine ⟨fun h => ?_, fun h => ?_⟩
  · obtain ⟨_, _, ⟨hlt, rfl⟩, rfl, hb⟩ := h
    exact ⟨hlt, hb⟩
  · exact ⟨_, value, ⟨h.1, rfl⟩, rfl, h.2⟩

theorem error_mem_header_iff {tag : UInt8} {n : Nat} {e : EncodeError} :
    .error e ∈ header tag n ↔ 0xFFFFFFFF < n ∧ e = .lengthTooLarge n := by
  simp only [header, ofTag, ofLength, List.mem_append, List.mem_singleton, reduceCtorEq, false_or]
  split
  · next hlt => exact iff_of_false nofun fun h => absurd h.1 (by omega)
  · next hle =>
    refine ⟨fun h => ⟨by omega, Except.error.inj h⟩, fun h => ?_⟩
    rw [h.2]

theorem error_mem_octets_iff {tag : UInt8} {value : Bytes} {e : EncodeError} :
    .error e ∈ octets tag value ↔ 0xFFFFFFFF < value.length ∧ e = .lengthTooLarge value.length := by
  simp only [octets, raw, List.mem_append, List.mem_singleton, reduceCtorEq, or_false,
    error_mem_header_iff]

theorem integer_eq_octets (tag : UInt8) (v : Int) :
    integer tag v = octets tag (integerBytes v) := by
  rw [integer, octets, length_integerBytes]

/-- Writing succeeds if there are bytes to be written and room for them. -/
theorem write_eq_none_iff {w w' : Writer} {l : Layout} :
    w.write l = (w', none) ↔
      ∃ b, l.Spells b ∧ b.length ≤ w.remaining ∧
        w' = ⟨w.out ++ b, w.remaining - b.length⟩ := by
  induction l generalizing w with
  | nil => simp [Writer.write, spells_nil, eq_comm]
  | cons piece l ih =>
    cases piece with
    | error e => simp [Writer.write, not_spells_error]
    | ok piece =>
      simp only [Writer.write, spells_ok]
      by_cases hfits : piece.length ≤ w.remaining
      · simp only [hfits, if_true, ih]
        refine ⟨fun h => ?_, fun h => ?_⟩
        · obtain ⟨c, hc, hroom, rfl⟩ := h
          refine ⟨_, ⟨c, hc, rfl⟩, ?_, ?_⟩
          · rw [List.length_append]
            omega
          · rw [List.append_assoc, List.length_append, Nat.sub_add_eq]
        · obtain ⟨_, ⟨c, hc, rfl⟩, hroom, rfl⟩ := h
          rw [List.length_append] at hroom
          refine ⟨c, hc, by omega, ?_⟩
          rw [List.append_assoc, List.length_append, Nat.sub_add_eq]
      · simp only [hfits, if_false, Prod.mk.injEq, reduceCtorEq, and_false, false_iff]
        intro h
        obtain ⟨_, ⟨c, _, rfl⟩, hroom, _⟩ := h
        rw [List.length_append] at hroom
        omega

/-- A layout is refused whatever the room exactly if there is a reason in it. -/
theorem refused_iff {l : Layout} :
    (∀ w : Writer, (w.write l).2 ≠ none) ↔ ∃ e, .error e ∈ l := by
  have hspells : (∃ w : Writer, (w.write l).2 = none) ↔ ∃ b, l.Spells b := by
    refine ⟨fun h => ?_, fun h => ?_⟩
    · obtain ⟨w, hw⟩ := h
      have hwrite : w.write l = ((w.write l).1, none) := Prod.ext rfl hw
      obtain ⟨b, hb, -⟩ := write_eq_none_iff.mp hwrite
      exact ⟨b, hb⟩
    · obtain ⟨b, hb⟩ := h
      have hwrite : Writer.write ⟨[], b.length⟩ l = (_, none) :=
        write_eq_none_iff.mpr ⟨b, hb, Nat.le_refl _, rfl⟩
      exact ⟨⟨[], b.length⟩, congrArg Prod.snd hwrite⟩
  rw [← not_exists, hspells, exists_spells_iff, not_forall_not]

/-- A layout is refused for want of room or for a reason in it. -/
theorem error_of_write {w : Writer} {l : Layout} {e : EncodeError} (h : (w.write l).2 = some e) :
    (∃ size left, e = .overrun size left) ∨ .error e ∈ l := by
  induction l generalizing w with
  | nil => cases h
  | cons piece l ih =>
    cases piece with
    | error e' =>
      cases h
      exact .inr List.mem_cons_self
    | ok piece =>
      rw [Writer.write] at h
      split at h
      · exact (ih h).imp_right (List.mem_cons_of_mem _)
      · cases h
        exact .inl ⟨_, _, rfl⟩

/-- A layout that is refused although there is room is refused for a reason in it. -/
theorem exists_room (l : Layout) :
    ∃ room, ∀ (w : Writer) (e : EncodeError), room ≤ w.remaining → (w.write l).2 = some e →
      .error e ∈ l := by
  induction l with
  | nil => exact ⟨0, nofun⟩
  | cons piece l ih =>
    cases piece with
    | error e' =>
      refine ⟨0, fun w e _ h => ?_⟩
      cases h
      exact List.mem_cons_self
    | ok piece =>
      obtain ⟨room, hroom⟩ := ih
      refine ⟨piece.length + room, fun w e hle h => ?_⟩
      have hpiece : piece.length ≤ w.remaining := by omega
      have hrest : room ≤ w.remaining - piece.length := by omega
      rw [Writer.write, if_pos hpiece] at h
      exact List.mem_cons_of_mem _ (hroom _ e hrest h)

theorem write_octets {tag : UInt8} {value : Bytes} {w : Writer} (h : value.length < 0x100000000)
    (hroom : elementSize value.length ≤ w.remaining) :
    w.write (octets tag value) =
      (⟨w.out ++ (Header.bytes tag value.length ++ value),
        w.remaining - elementSize value.length⟩, none) := by
  have hsize : (Header.bytes tag value.length ++ value).length = elementSize value.length := by
    rw [List.length_append, Header.length_bytes, elementSize]
  refine write_eq_none_iff.mpr ⟨_, spells_octets.mpr ⟨h, rfl⟩, ?_, ?_⟩
  · rwa [hsize]
  · rw [hsize]

theorem bytes_eq_ok_iff {l : Layout} {size : Nat} {b : Bytes} :
    l.bytes size = .ok b ↔
      Buffer.refusal (size % lengthModulus) = none ∧ l.Spells b ∧ b.length ≤ size := by
  simp only [Layout.bytes, Writer.reserve, Writer.after, List.length_nil, Nat.zero_add]
  cases hrefusal : Buffer.refusal (size % lengthModulus) with
  | some e => simp
  | none =>
    simp only [Option.map_none, true_and]
    cases hwrite : Writer.write ⟨[], size⟩ l with
    | mk w error =>
      cases error with
      | some e =>
        simp only [reduceCtorEq, false_iff]
        intro h
        obtain ⟨hb, hroom⟩ := h
        have hok : Writer.write ⟨[], size⟩ l = (_, none) :=
          write_eq_none_iff.mpr ⟨b, hb, hroom, rfl⟩
        rw [hwrite] at hok
        cases hok
      | none =>
        obtain ⟨c, hc, hroom, rfl⟩ := write_eq_none_iff.mp hwrite
        simp only [List.nil_append, Except.ok.injEq]
        refine ⟨fun h => ?_, fun h => ?_⟩
        · obtain rfl := h
          exact ⟨hc, hroom⟩
        · obtain ⟨hb, _⟩ := h
          exact hc.unique hb

/-! ### Writing trees -/

/-- The layout writes the trees, if their lengths can be written, and nothing else. -/
def Writes (l : Layout) (ts : List Tree) : Prop :=
  ∀ b, l.Spells b ↔ Tree.AllWellFormed ts ∧ b = Tree.bytesAll ts

theorem writes_nil : Writes [] [] := by
  intro b
  simp [spells_nil, Tree.AllWellFormed, Tree.bytesAll]

theorem Writes.append {l l' : Layout} {ts ts' : List Tree} (h : Writes l ts)
    (h' : Writes l' ts') : Writes (l ++ l') (ts ++ ts') := by
  intro b
  simp only [spells_append, h _, h' _, Tree.allWellFormed_append, Tree.bytesAll_append]
  refine ⟨fun hr => ?_, fun hr => ?_⟩
  · obtain ⟨_, _, ⟨hts, rfl⟩, ⟨hts', rfl⟩, rfl⟩ := hr
    exact ⟨⟨hts, hts'⟩, rfl⟩
  · obtain ⟨⟨hts, hts'⟩, rfl⟩ := hr
    exact ⟨_, _, ⟨hts, rfl⟩, ⟨hts', rfl⟩, rfl⟩

theorem writes_flatMap {α : Type} {layout : α → Layout} {tree : α → Tree} {as : List α}
    (h : ∀ a ∈ as, Writes (layout a) [tree a]) : Writes (as.flatMap layout) (as.map tree) := by
  induction as with
  | nil => exact writes_nil
  | cons a as ih =>
    rw [List.flatMap_cons]
    exact (h a List.mem_cons_self).append (ih fun b hb => h b (List.mem_cons_of_mem a hb))

theorem writes_octets {tag : UInt8} (hnumber : Tag.number tag ≠ 31)
    (htag : Tag.isConstructed tag = false) (value : Bytes) :
    Writes (octets tag value) [.primitive tag value] := by
  intro b
  rw [Tree.AllWellFormed, Tree.wellFormed_primitive_iff hnumber htag, spells_octets]
  simp only [Tree.AllWellFormed, and_true, Tree.bytesAll, Tree.bytes_primitive, List.append_nil,
    Header.bytes, List.cons_append]

/-- An empty value is not written. -/
theorem writes_empty {tag : UInt8} (hnumber : Tag.number tag ≠ 31)
    (htag : Tag.isConstructed tag = false) : Writes (header tag 0) [.primitive tag []] := by
  intro b
  rw [spells_header, Tree.AllWellFormed, Tree.wellFormed_primitive_iff hnumber htag]
  simp [Tree.AllWellFormed, Tree.bytesAll, Tree.bytes_primitive]

theorem writes_integer {tag : UInt8} (hnumber : Tag.number tag ≠ 31)
    (htag : Tag.isConstructed tag = false) (v : Int) :
    Writes (integer tag v) [.primitive tag (integerBytes v)] := by
  rw [integer_eq_octets]
  exact writes_octets hnumber htag (integerBytes v)

theorem writes_boolean {tag : UInt8} (hnumber : Tag.number tag ≠ 31)
    (htag : Tag.isConstructed tag = false) (b : Bool) :
    Writes (boolean tag b) [.primitive tag [if b then 0xFF else 0x00]] :=
  writes_octets hnumber htag [if b then 0xFF else 0x00]

/-- The length in front of the children has to be theirs only if they are written. -/
theorem Writes.node {l : Layout} {ts : List Tree} {n : Nat} (h : Writes l ts) {tag : UInt8}
    (hnumber : Tag.number tag ≠ 31) (htag : Tag.isConstructed tag = true)
    (hn : Tree.AllWellFormed ts → n = (Tree.bytesAll ts).length) :
    Writes (header tag n ++ l) [.constructed tag ts] := by
  intro b
  simp only [spells_append, spells_header, h _, Tree.AllWellFormed,
    Tree.wellFormed_constructed_iff hnumber htag, and_true, Tree.bytesAll, Tree.bytes_constructed,
    List.append_nil]
  refine ⟨fun hr => ?_, fun hr => ?_⟩
  · obtain ⟨_, _, ⟨hlt, rfl⟩, ⟨hts, rfl⟩, rfl⟩ := hr
    rw [hn hts] at hlt ⊢
    exact ⟨⟨hlt, hts⟩, rfl⟩
  · obtain ⟨⟨hlt, hts⟩, rfl⟩ := hr
    rw [← hn hts] at hlt ⊢
    exact ⟨_, _, ⟨hlt, rfl⟩, ⟨hts, rfl⟩, rfl⟩

end Layout

end LdapBer
