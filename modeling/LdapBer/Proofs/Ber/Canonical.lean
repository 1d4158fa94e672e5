import Mathlib.Data.List.Forall2
import LdapBer.Proofs.Ber.Layout
import LdapBer.Proofs.Ber.Shortest

/-! Canonical forms of trees.

What is canonical is said of the elements of a tree one by one, by a property that asks for the
shortest length field and for whatever else a format does. Trees in a row are the canonical form of
others if they can be written, have the property throughout, are no longer, and are the same if
those had it already (`Canonicalises`). Canonical forms are put together as the trees are. -/
namespace LdapBer.Tree

/-! ### The elements of a tree -/

/-- The bytes of the length field. -/
def field : Tree → Bytes
  | leaf _ field _ | node _ field _ => field

mutual

/-- The element itself and all that is inside, at any depth. -/
def elements : Tree → List Tree
  | leaf tag field value => [leaf tag field value]
  | node tag field children => node tag field children :: elementsAll children

def elementsAll : List Tree → List Tree
  | [] => []
  | t :: ts => elements t ++ elementsAll ts

end

theorem elementsAll_append (ts us : List Tree) :
    elementsAll (ts ++ us) = elementsAll ts ++ elementsAll us := by
  induction ts with
  | nil => rfl
  | cons t ts ih => simp [elementsAll, ih]

theorem elementsAll_singleton (t : Tree) : elementsAll [t] = t.elements := by
  rw [elementsAll, elementsAll, List.append_nil]

/-! ### Canonical forms -/

/-- The trees `us` can be written, have the property and are no longer than `ts`. -/
structure Compacts (P : Tree → Prop) (ts us : List Tree) : Prop where
  wellFormed : AllWellFormed us
  le : (bytesAll us).length ≤ (bytesAll ts).length
  canonical : ∀ e ∈ elementsAll us, P e

/-- The trees `us` are the canonical form of `ts`. -/
structure Canonicalises (P : Tree → Prop) (ts us : List Tree) : Prop extends Compacts P ts us where
  eq : (∀ e ∈ elementsAll ts, P e) → ts = us

/-- The property asks for the shortest length field. -/
def Shortens (P : Tree → Prop) : Prop :=
  ∀ e, P e → IsShortestField e.content.length e.field

section
variable {P : Tree → Prop} {ts ts' us us' : List Tree} {t u : Tree} {tag : UInt8}
  {field value : Bytes}

theorem compacts_nil (ts : List Tree) : Compacts P ts [] :=
  ⟨trivial, Nat.zero_le _, nofun⟩

theorem canonicalises_nil : Canonicalises P [] [] :=
  ⟨compacts_nil [], fun _ => rfl⟩

theorem Compacts.append (h : Compacts P ts us) (h' : Compacts P ts' us') :
    Compacts P (ts ++ ts') (us ++ us') where
  wellFormed := allWellFormed_append.mpr ⟨h.wellFormed, h'.wellFormed⟩
  le := by
    rw [bytesAll_append, bytesAll_append, List.length_append, List.length_append]
    exact Nat.add_le_add h.le h'.le
  canonical := by
    rw [elementsAll_append, List.forall_mem_append]
    exact ⟨h.canonical, h'.canonical⟩

theorem Canonicalises.append (h : Canonicalises P ts us) (h' : Canonicalises P ts' us') :
    Canonicalises P (ts ++ ts') (us ++ us') where
  toCompacts := h.toCompacts.append h'.toCompacts
  eq := by
    intro hcanonical
    rw [elementsAll_append, List.forall_mem_append] at hcanonical
    rw [h.eq hcanonical.1, h'.eq hcanonical.2]

/-- The canonical form of trees that each stand for a value, by that of each. -/
theorem canonicalises_map {α : Type} {R : α → Tree → Prop} {tree : α → Tree} {as : List α}
    (h : List.Forall₂ R as ts) (hts : AllWellFormed ts)
    (hR : ∀ a t, R a t → t.WellFormed → Canonicalises P [t] [tree a]) :
    Canonicalises P ts (as.map tree) := by
  induction h with
  | nil => exact canonicalises_nil
  | cons ha _ ih => exact (hR _ _ ha hts.1).append (ih hts.2)

theorem isShortestField_lengthBytes {n : Nat} (h : n < 0x100000000) :
    IsShortestField n (lengthBytes n) :=
  (isShortestField_iff (lengthField_lengthBytes h)).mpr rfl

/-- Shorter contents make a shorter element. -/
theorem elementSize_le {n k : Nat} (h : LengthField n field) (hk : k ≤ n) :
    elementSize k ≤ 1 + (field.length + n) := by
  have hsize := lengthSize_mono hk
  have hfield := h.lengthSize_le
  unfold elementSize
  omega

/-- The canonical form of a leaf, by that of its value. -/
theorem canonicalises_leaf (hP : Shortens P) {value' : Bytes}
    (ht : (leaf tag field value).WellFormed) (hle : value'.length ≤ value.length)
    (hcanonical : value'.length < 0x100000000 → P (primitive tag value'))
    (heq : P (leaf tag field value) → value = value') :
    Canonicalises P [leaf tag field value] [primitive tag value'] := by
  obtain ⟨htag, hprimitive, hfield⟩ := ht
  have hlt : value'.length < 0x100000000 := Nat.lt_of_le_of_lt hle hfield.lt
  refine ⟨⟨⟨?_, trivial⟩, ?_, ?_⟩, ?_⟩
  · exact (wellFormed_primitive_iff htag hprimitive).mpr hlt
  · simp only [bytesAll, List.append_nil, length_bytes_primitive, bytes, List.length_cons,
      List.length_append]
    have hsize := elementSize_le hfield hle
    omega
  · rw [elementsAll_singleton]
    exact List.forall_mem_singleton.mpr (hcanonical hlt)
  · intro hall
    have hleaf := hall _ List.mem_cons_self
    have hvalue := heq hleaf
    have hfield' := (isShortestField_iff hfield).mp (hP _ hleaf)
    have hfield' : field = lengthBytes value.length := hfield'
    rw [primitive, ← hvalue, ← hfield']

theorem Compacts.content_lt (h : Compacts P ts us) (ht : (node tag field ts).WellFormed) :
    (bytesAll us).length < 0x100000000 :=
  Nat.lt_of_le_of_lt h.le ht.2.2.1.lt

theorem Compacts.node (h : Compacts P ts us) (ht : (node tag field ts).WellFormed)
    (hcanonical : P (constructed tag us)) :
    Compacts P [node tag field ts] [constructed tag us] := by
  have hlt := h.content_lt ht
  obtain ⟨htag, hconstructed, hfield, -⟩ := ht
  refine ⟨⟨?_, trivial⟩, ?_, ?_⟩
  · exact (wellFormed_constructed_iff htag hconstructed).mpr ⟨hlt, h.wellFormed⟩
  · simp only [bytesAll, List.append_nil, length_bytes_constructed, bytes, List.length_cons,
      List.length_append]
    have hsize := elementSize_le hfield h.le
    omega
  · rw [elementsAll_singleton]
    exact List.forall_mem_cons.mpr ⟨hcanonical, h.canonical⟩

/-- A canonical node is the one with its canonical children. -/
theorem eq_constructed (hP : Shortens P) (ht : (node tag field ts).WellFormed)
    (heq : (∀ e ∈ elementsAll ts, P e) → ts = us) (h : ∀ e ∈ (node tag field ts).elements, P e) :
    node tag field ts = constructed tag us := by
  obtain ⟨hnode, hchildren⟩ := List.forall_mem_cons.mp h
  have hfield := (isShortestField_iff ht.2.2.1).mp (hP _ hnode)
  rw [constructed, ← heq hchildren]
  exact congrArg (node tag · ts) hfield

/-- The canonical form of a node, by that of its children. -/
theorem Canonicalises.node (hP : Shortens P) (h : Canonicalises P ts us)
    (ht : (node tag field ts).WellFormed) (hcanonical : P (constructed tag us)) :
    Canonicalises P [node tag field ts] [constructed tag us] where
  toCompacts := h.toCompacts.node ht hcanonical
  eq := by
    intro hall
    rw [elementsAll_singleton] at hall
    rw [eq_constructed hP ht h.eq hall]

end

end LdapBer.Tree
