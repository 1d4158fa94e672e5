import LdapBer.Proofs.Ber.Header
import LdapBer.Proofs.Oid.Binary

/-! Writers and the room that was reserved.

A writer appends to bytes that are there already and never takes more room than was reserved for it:
what it has written and what remains add up to the reservation, also behind a write that failed half
way (`Extends`). An element is refused exactly if it is too large for what remains or for a length
field. If none was refused, what was appended is read back element by element
(`run_keeps_reservation`). -/
namespace LdapBer

namespace Writer

/-! ### Elements to be written -/

/-- One element that a writer can be told to write. Texts are octets. -/
inductive Item where
  | octets (tag : UInt8) (value : Bytes)
  | boolean (tag : UInt8) (b : Bool)
  | integer (tag : UInt8) (v : Int)
  | oid (tag : UInt8) (o : Oid)

namespace Item

def tag : Item → UInt8
  | octets tag _ | boolean tag _ | integer tag _ | oid tag _ => tag

def value : Item → Bytes
  | octets _ value => value
  | boolean _ b => [if b then 0xFF else 0x00]
  | integer _ v => integerBytes v
  | oid _ o => o.toBytes

def layout : Item → Layout
  | octets tag value => Layout.octets tag value
  | boolean tag b => Layout.boolean tag b
  | integer tag v => Layout.integer tag v
  | oid tag o => Layout.oid tag o

def bytes (i : Item) : Bytes :=
  Header.bytes i.tag i.value.length ++ i.value

/-- Whatever its type, an element is laid out as the octets of its value. -/
theorem layout_eq (i : Item) : i.layout = Layout.octets i.tag i.value := by
  cases i with
  | octets tag value => rfl
  | boolean tag b => rfl
  | integer tag v => exact Layout.integer_eq_octets tag v
  | oid tag o => rw [layout, Layout.oid, Item.tag, value, Layout.octets, o.length_toBytes]

theorem length_bytes (i : Item) : i.bytes.length = elementSize i.value.length := by
  rw [bytes, List.length_append, Header.length_bytes, elementSize]

end Item

/-! ### Running a writer -/

/-- The writer behind elements that it was told to write, whether they were refused or not. -/
def run (w : Writer) : List Item → Writer
  | [] => w
  | i :: items => run (w.write i.layout).1 items

def errors (w : Writer) : List Item → List (Option EncodeError)
  | [] => []
  | i :: items => (w.write i.layout).2 :: errors (w.write i.layout).1 items

/-- The bytes that were there are still there, and what came behind them was taken off the room. -/
def Extends (w w' : Writer) (written : Bytes) : Prop :=
  w'.out = w.out ++ written ∧ written.length + w'.remaining = w.remaining

theorem Extends.refl (w : Writer) : Extends w w [] :=
  ⟨(List.append_nil _).symm, Nat.zero_add _⟩

theorem Extends.trans {w w' w'' : Writer} {s t : Bytes} (h : Extends w w' s)
    (h' : Extends w' w'' t) : Extends w w'' (s ++ t) := by
  refine ⟨?_, ?_⟩
  · rw [h'.1, h.1, List.append_assoc]
  · rw [List.length_append, Nat.add_assoc, h'.2, h.2]

/-- Piece by piece, as far as the writer gets. -/
theorem extends_write (w : Writer) (l : Layout) : ∃ s, Extends w (w.write l).1 s := by
  induction l generalizing w with
  | nil => exact ⟨[], Extends.refl w⟩
  | cons piece l ih =>
    cases piece with
    | error e => exact ⟨[], Extends.refl w⟩
    | ok piece =>
      rw [write]
      split
      · next hroom =>
        obtain ⟨s, hs⟩ := ih ⟨w.out ++ piece, w.remaining - piece.length⟩
        have hpiece : Extends w ⟨w.out ++ piece, w.remaining - piece.length⟩ piece :=
          ⟨rfl, Nat.add_sub_cancel' hroom⟩
        exact ⟨piece ++ s, hpiece.trans hs⟩
      · exact ⟨[], Extends.refl w⟩

theorem extends_run (w : Writer) (items : List Item) : ∃ s, Extends w (w.run items) s := by
  induction items generalizing w with
  | nil => exact ⟨[], Extends.refl w⟩
  | cons i items ih =>
    obtain ⟨s, hs⟩ := w.extends_write i.layout
    obtain ⟨t, ht⟩ := ih (w.write i.layout).1
    exact ⟨s ++ t, hs.trans ht⟩

/-! ### Refusals -/

theorem error_of_write_item {w : Writer} {i : Item} {e : EncodeError}
    (h : (w.write i.layout).2 = some e) :
    (∃ size left, e = .overrun size left) ∨ e = .lengthTooLarge i.value.length := by
  refine (Layout.error_of_write h).imp_right fun hmem => ?_
  rw [i.layout_eq] at hmem
  exact (Layout.error_mem_octets_iff.mp hmem).2

/-- An element is written if it fits. -/
theorem write_item {w : Writer} {i : Item} (hlength : i.value.length < 0x100000000)
    (hroom : elementSize i.value.length ≤ w.remaining) :
    w.write i.layout =
      (⟨w.out ++ i.bytes, w.remaining - elementSize i.value.length⟩, none) := by
  rw [i.layout_eq]
  exact Layout.write_octets hlength hroom

theorem write_item_eq_none_iff {w : Writer} {i : Item} :
    (w.write i.layout).2 = none ↔
      i.value.length < 0x100000000 ∧ elementSize i.value.length ≤ w.remaining := by
  refine ⟨fun h => ?_, fun h => ?_⟩
  · have hwrite : w.write i.layout = ((w.write i.layout).1, none) := Prod.ext rfl h
    rw [i.layout_eq] at hwrite
    obtain ⟨b, hspells, hroom, -⟩ := Layout.write_eq_none_iff.mp hwrite
    obtain ⟨hlength, rfl⟩ := Layout.spells_octets.mp hspells
    exact ⟨hlength, i.length_bytes ▸ hroom⟩
  · rw [write_item h.1 h.2]

/-- What was written if nothing was refused. -/
theorem out_of_run {w : Writer} {items : List Item} (h : ∀ e ∈ w.errors items, e = none) :
    (w.run items).out = w.out ++ items.flatMap Item.bytes ∧
      ∀ i ∈ items, i.value.length < 0x100000000 := by
  induction items generalizing w with
  | nil => exact ⟨(List.append_nil _).symm, nofun⟩
  | cons i items ih =>
    rw [errors, List.forall_mem_cons] at h
    obtain ⟨hlength, hroom⟩ := write_item_eq_none_iff.mp h.1
    obtain ⟨hout, hlengths⟩ := ih h.2
    refine ⟨?_, List.forall_mem_cons.mpr ⟨hlength, hlengths⟩⟩
    rw [run, hout, write_item hlength hroom, List.flatMap_cons, List.append_assoc]

end Writer

/-! ### Reading what was written -/

theorem length_lt_of_read {offset : UInt64} {s rest value behind : Bytes} {h : Header} {n : Nat}
    (hread : Header.read offset s = .ok (some (h, rest)))
    (hsplit : splitExact n rest = some (value, behind)) : behind.length < s.length := by
  have hlength := Header.length_of_read hread
  have hsize := Header.two_le_size_of_read hread
  obtain ⟨rfl, -⟩ := splitExact_eq_some_iff.mp hsplit
  rw [List.length_append] at hlength
  omega

/-- The tags and the values of elements in a row, of which nothing must be left over. -/
def readElements (offset : UInt64) (s : Bytes) : Option (List (UInt8 × Bytes)) :=
  if s = [] then some []
  else
    match hread : Header.read offset s with
    | .ok (some (h, rest)) =>
      match hsplit : splitExact h.length rest with
      | some (value, behind) =>
        have : behind.length < s.length := length_lt_of_read hread hsplit
        (readElements h.valueEnd behind).map ((h.tag, value) :: ·)
      | none => none
    | _ => none
termination_by s.length

theorem readElements_append {offset : UInt64} {s rest value behind : Bytes} {h : Header}
    (hread : Header.read offset s = .ok (some (h, rest)))
    (hsplit : splitExact h.length rest = some (value, behind)) :
    readElements offset s = (readElements h.valueEnd behind).map ((h.tag, value) :: ·) := by
  have hs : s ≠ [] := by
    rintro rfl
    cases hread
  rw [readElements, if_neg hs]
  split
  · next h' rest' hread' =>
    obtain ⟨rfl, rfl⟩ : h = h' ∧ rest = rest' := by
      simpa using hread.symm.trans hread'
    split
    · next value' behind' hsplit' =>
      obtain ⟨rfl, rfl⟩ : value = value' ∧ behind = behind' := by
        simpa using hsplit.symm.trans hsplit'
      rfl
    · next hnone => cases hsplit.symm.trans hnone
  · next hother => exact absurd hread (hother _ _)

namespace Writer

/-- Elements that were written one behind the other are read one after the other. -/
theorem readElements_flatMap {items : List Item} (htags : ∀ i ∈ items, Tag.number i.tag ≠ 31)
    (hlengths : ∀ i ∈ items, i.value.length < 0x100000000) (offset : UInt64) :
    readElements offset (items.flatMap Item.bytes) =
      some (items.map fun i => (i.tag, i.value)) := by
  induction items generalizing offset with
  | nil => rw [List.flatMap_nil, readElements, if_pos rfl, List.map_nil]
  | cons i items ih =>
    rw [List.forall_mem_cons] at htags hlengths
    have hread := Header.read_bytes htags.1 hlengths.1 offset
      (i.value ++ items.flatMap Item.bytes)
    have hsplit : splitExact i.value.length (i.value ++ items.flatMap Item.bytes) =
        some (i.value, items.flatMap Item.bytes) := splitExact_eq_some_iff.mpr ⟨rfl, rfl⟩
    rw [List.flatMap_cons, Item.bytes, List.append_assoc, readElements_append hread hsplit,
      ih htags.2 hlengths.2]
    rfl

/-- **A writer keeps to its reservation, and what it writes is read back.** Let room be reserved
behind any bytes and elements of any types be written. Then the bytes are still there, no more was
appended than was reserved, and what remains is the difference, which does not wrap around in 64
bits either. This holds behind elements that were refused as well, and one is refused exactly if it
is larger than what remains or if its length takes more than four bytes. If none was refused, what
was appended is read as the tags and the values of the elements. -/
theorem run_keeps_reservation (out : Bytes) (room : Nat) (items : List Item)
    (hroom : out.length + room < 0x8000000000000000)
    (htags : ∀ i ∈ items, Tag.number i.tag < 31) :
    let w := ((after out).reserve room).1
    (∃ written, (w.run items).out = out ++ written ∧ written.length ≤ room ∧
      (w.run items).remaining = room - written.length ∧
      ((out.length + room).toUInt64 - (w.run items).out.length.toUInt64).toNat =
        (w.run items).remaining ∧
      ((∀ e ∈ w.errors items, e = none) →
        readElements out.length.toUInt64 written = some (items.map fun i => (i.tag, i.value)))) ∧
    ∀ (before : List Item) (i : Item),
      (((w.run before).write i.layout).2 ≠ none ↔
        (w.run before).remaining < elementSize i.value.length ∨ 0xFFFFFFFF < i.value.length) ∧
      ∀ e, ((w.run before).write i.layout).2 = some e →
        (∃ size left, e = .overrun size left) ∨ e = .lengthTooLarge i.value.length := by
  intro w
  have hne : ∀ i ∈ items, Tag.number i.tag ≠ 31 := fun i hi => UInt8.ne_of_lt (htags i hi)
  obtain ⟨written, hout, hremaining⟩ := w.extends_run items
  have hremaining : written.length + (w.run items).remaining = room := hremaining
  refine ⟨⟨written, hout, by omega, by omega, ?_, fun hnone => ?_⟩, fun before i => ?_⟩
  · have hlimit : out.length + room = (w.run items).out.length + (w.run items).remaining := by
      rw [hout, List.length_append, Nat.add_assoc, hremaining]
      rfl
    rw [hlimit, toUInt64_add_sub, toNat_toUInt64 (by omega)]
  · obtain ⟨hwritten, hlengths⟩ := out_of_run hnone
    have heq : written = items.flatMap Item.bytes :=
      List.append_cancel_left (hout.symm.trans hwritten)
    rw [heq]
    exact readElements_flatMap hne hlengths _
  · refine ⟨?_, fun e => error_of_write_item⟩
    rw [ne_eq, write_item_eq_none_iff]
    omega

/-- Five octets are refused behind their header, and there is room for a BOOLEAN still. Without them
nothing is refused. -/
theorem run_keeps_reservation_refused :
    let refused : Item := .octets 0x04 [1, 2, 3, 4, 5]
    let items : List Item := [.integer 0x02 300, refused, .boolean 0x01 true]
    let accepted : List Item := [.integer 0x02 300, .boolean 0x01 true]
    let w := ((after [0xAA]).reserve 10).1
    (∀ i ∈ items, Tag.number i.tag < 31) ∧
      w.run items = ⟨[0xAA, 0x02, 0x02, 0x01, 0x2C, 0x04, 0x05, 0x01, 0x01, 0xFF], 1⟩ ∧
      (∃ written, (w.run items).out = [0xAA] ++ written ∧ written.length ≤ 10 ∧
        (w.run items).remaining = 10 - written.length) ∧
      (((w.run [.integer 0x02 300]).write refused.layout).2 ≠ none ↔
        (w.run [.integer 0x02 300]).remaining < elementSize refused.value.length ∨
          0xFFFFFFFF < refused.value.length) ∧
      ∃ written, (w.run accepted).out = [0xAA] ++ written ∧
        readElements 1 written = some [(0x02, [0x01, 0x2C]), (0x01, [0xFF])] := by
  intro refused items accepted w
  have htags : ∀ i ∈ items, Tag.number i.tag < 31 := by decide
  have haccepted : ∀ i ∈ accepted, Tag.number i.tag < 31 := by decide
  obtain ⟨⟨written, hout, hle, hremaining, -⟩, hrefused⟩ :=
    run_keeps_reservation [0xAA] 10 items (by decide) htags
  obtain ⟨⟨written', hout', -, -, -, hread⟩, -⟩ :=
    run_keeps_reservation [0xAA] 10 accepted (by decide) haccepted
  have hread := hread (by decide)
  exact ⟨htags, by decide, ⟨written, hout, hle, hremaining⟩, (hrefused _ refused).1,
    written', hout', hread⟩

end Writer

end LdapBer
