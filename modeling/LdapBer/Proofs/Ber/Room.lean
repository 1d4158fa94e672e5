import LdapBer.Proofs.Ber.Layout

/-! Room for trees.

The length of a tree stands in front of what is inside. If the content of the whole can have its
length written, so can the content of all that is inside (`Tree.SizeSuffices`). A layout that writes
the tree then fills exactly as many bytes of room as the tree has (`Layout.Writes.fits`), and what
is written into this room is the tree (`Layout.Writes.bytes_eq_ok_iff`). -/
namespace LdapBer

/-! ### Lengths inside -/

namespace Tree

/-- If all bytes together are few enough, the lengths of what is inside can be written too. -/
def SizeSuffices (ts : List Tree) : Prop :=
  (bytesAll ts).length < 0x100000000 → AllWellFormed ts

section
variable {ts us : List Tree} {tag : UInt8}

theorem sizeSuffices_nil : SizeSuffices [] :=
  fun _ => trivial

theorem SizeSuffices.append (hts : SizeSuffices ts) (hus : SizeSuffices us) :
    SizeSuffices (ts ++ us) := by
  intro hlt
  rw [bytesAll_append, List.length_append] at hlt
  exact allWellFormed_append.mpr ⟨hts (by omega), hus (by omega)⟩

theorem le_elementSize (n : Nat) : n ≤ elementSize n := by
  unfold elementSize
  omega

theorem sizeSuffices_primitive (hnumber : Tag.number tag ≠ 31)
    (htag : Tag.isConstructed tag = false) (value : Bytes) :
    SizeSuffices [.primitive tag value] := by
  intro hlt
  rw [bytesAll, bytesAll, List.append_nil, length_bytes_primitive] at hlt
  have hvalue := Nat.lt_of_le_of_lt (le_elementSize value.length) hlt
  exact ⟨(wellFormed_primitive_iff hnumber htag).mpr hvalue, trivial⟩

theorem SizeSuffices.wellFormed (h : SizeSuffices ts) (hnumber : Tag.number tag ≠ 31)
    (htag : Tag.isConstructed tag = true) (hle : (constructed tag ts).content.length ≤ 0xFFFFFFFF) :
    (constructed tag ts).WellFormed := by
  have hlt : (bytesAll ts).length < 0x100000000 := Nat.lt_succ_of_le hle
  exact (wellFormed_constructed_iff hnumber htag).mpr ⟨hlt, h hlt⟩

theorem SizeSuffices.constructed (h : SizeSuffices ts) (hnumber : Tag.number tag ≠ 31)
    (htag : Tag.isConstructed tag = true) : SizeSuffices [.constructed tag ts] := by
  intro hlt
  rw [bytesAll, bytesAll, List.append_nil, length_bytes_constructed] at hlt
  have hchildren := Nat.lt_of_le_of_lt (le_elementSize (bytesAll ts).length) hlt
  exact ⟨h.wellFormed hnumber htag (Nat.le_of_lt_succ hchildren), trivial⟩

theorem sizeSuffices_map {α : Type} {tree : α → Tree} (h : ∀ a, SizeSuffices [tree a])
    (as : List α) : SizeSuffices (as.map tree) := by
  induction as with
  | nil => exact sizeSuffices_nil
  | cons a as ih => exact (h a).append ih

end

end Tree

/-! ### Exact room -/

theorem mod_lengthModulus {n : Nat} (h : n < 0x10000000000000000) : n % lengthModulus = n :=
  Nat.mod_eq_of_lt h

theorem refusal_mod_of_lt {n : Nat} (h : n < 0x100000006) :
    Buffer.refusal (n % lengthModulus) = none := by
  have hmemory : n < Buffer.memory := by
    rw [Buffer.memory]
    omega
  rw [mod_lengthModulus (by omega), Buffer.refusal_of_lt hmemory]

namespace Layout

/-- A layout fills `size` bytes of room, and is refused less. -/
def Fits (l : Layout) (size : Nat) : Prop :=
  ∀ w : Writer,
    (w.remaining = size → ∃ b : Bytes, b.length = size ∧ w.write l = (⟨w.out ++ b, 0⟩, none)) ∧
    (w.remaining < size → ∃ w' n left, w.write l = (w', some (.overrun n left)))

theorem write_of_lt {l : Layout} {b : Bytes} (h : l.Spells b) {w : Writer}
    (hlt : w.remaining < b.length) : ∃ w' n left, w.write l = (w', some (.overrun n left)) := by
  cases hwrite : w.write l with
  | mk w' error =>
    cases error with
    | none =>
      obtain ⟨c, hc, hroom, -⟩ := write_eq_none_iff.mp hwrite
      rw [h.unique hc] at hlt
      exact absurd hroom (Nat.not_le.mpr hlt)
    | some e =>
      obtain ⟨n, left, rfl⟩ | hmem := error_of_write (congrArg Prod.snd hwrite)
      · exact ⟨w', n, left, rfl⟩
      · exact absurd hmem (exists_spells_iff.mp ⟨b, h⟩ e)

theorem Spells.fits {l : Layout} {b : Bytes} (h : l.Spells b) : l.Fits b.length := by
  intro w
  refine ⟨fun hroom => ⟨b, rfl, ?_⟩, write_of_lt h⟩
  exact write_eq_none_iff.mpr ⟨b, h, Nat.le_of_eq hroom.symm, by rw [hroom, Nat.sub_self]⟩

theorem Writes.fits {l : Layout} {t : Tree} (h : l.Writes [t]) (ht : t.WellFormed) :
    l.Fits t.bytes.length := by
  have hspells : l.Spells (Tree.bytesAll [t]) := (h _).mpr ⟨⟨ht, trivial⟩, rfl⟩
  rw [Tree.bytesAll, Tree.bytesAll, List.append_nil] at hspells
  exact hspells.fits

/-- What is written into the room that a tree needs is the tree. -/
theorem Writes.bytes_eq_ok_iff {l : Layout} {t : Tree} {size : Nat} {b : Bytes} (h : l.Writes [t])
    (hsize : t.WellFormed → size = t.bytes.length) :
    l.bytes size = .ok b ↔ t.WellFormed ∧ t.bytes = b := by
  have hspells (c : Bytes) : l.Spells c ↔ t.WellFormed ∧ t.bytes = c := by
    rw [h c]
    simp only [Tree.AllWellFormed, and_true, Tree.bytesAll, List.append_nil, eq_comm]
  rw [Layout.bytes_eq_ok_iff, hspells]
  refine ⟨fun h => h.2.1, fun h => ?_⟩
  obtain ⟨ht, rfl⟩ := h
  rw [hsize ht]
  exact ⟨refusal_mod_of_lt (Tree.length_bytes_lt ht), ⟨ht, rfl⟩, Nat.le_refl _⟩

end Layout

end LdapBer
