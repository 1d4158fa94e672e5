import LdapBer.Proofs.Decode.Whole

/-! The one tree of a byte string.

Constructed bits and lengths alone say where elements begin and end, so the bytes of a tree
determine it, and also where it ends in a longer string (`Tree.eq_of_append`). What a grammar
decodes from a byte string is what the recursive walk makes of its one tree
(`decode_eq_ok_iff_walk`). -/
namespace LdapBer

/-- A length field determines the length, and where it ends in a longer string. -/
theorem LengthField.eq_of_append {m n : Nat} {field field' rest rest' : Bytes}
    (h : LengthField m field) (h' : LengthField n field')
    (heq : field ++ rest = field' ++ rest') : m = n ∧ field = field' ∧ rest = rest' := by
  have hread := Header.read_field (by decide : Tag.number 0 ≠ 31) h 0 rest
  rw [heq, Header.read_field (by decide) h' 0 rest'] at hread
  simp only [Except.ok.injEq, Option.some.injEq, Prod.mk.injEq, Header.mk.injEq, true_and,
    Nat.add_left_cancel_iff] at hread
  obtain ⟨⟨hlength, hsize⟩, -⟩ := hread
  obtain ⟨hfield, hrest⟩ := List.append_inj heq hsize.symm
  exact ⟨hlength.symm, hfield, hrest⟩

namespace Tree

/-- Elements that begin alike have the same tag, and their contents are equally long. -/
theorem head_eq_of_append {tag tag' : UInt8} {field field' content content' rest rest' : Bytes}
    (h : LengthField content.length field) (h' : LengthField content'.length field')
    (heq : tag :: (field ++ content) ++ rest = tag' :: (field' ++ content') ++ rest') :
    tag = tag' ∧ field = field' ∧ content = content' ∧ rest = rest' := by
  simp only [List.cons_append, List.append_assoc, List.cons.injEq] at heq
  obtain ⟨htag, heq⟩ := heq
  obtain ⟨hlength, hfield, heq⟩ := h.eq_of_append h' heq
  obtain ⟨hcontent, hrest⟩ := List.append_inj heq hlength
  exact ⟨htag, hfield, hcontent, hrest⟩

mutual

/-- The bytes of a tree determine it, and where it ends in a longer string. -/
theorem eq_of_append (t u : Tree) (ht : t.WellFormed) (hu : u.WellFormed) {rest rest' : Bytes}
    (h : t.bytes ++ rest = u.bytes ++ rest') : t = u ∧ rest = rest' := by
  match t, u, ht, hu with
  | leaf tag field value, leaf tag' field' value', ht, hu =>
    obtain ⟨rfl, rfl, rfl, rfl⟩ := head_eq_of_append ht.2.2 hu.2.2 h
    exact ⟨rfl, rfl⟩
  | node tag field children, node tag' field' children', ht, hu =>
    obtain ⟨rfl, rfl, hchildren, rfl⟩ := head_eq_of_append ht.2.2.1 hu.2.2.1 h
    rw [eq_of_bytesAll children children' ht.2.2.2 hu.2.2.2 hchildren]
    exact ⟨rfl, rfl⟩
  | leaf tag field value, node tag' field' children, ht, hu =>
    obtain ⟨rfl, -⟩ := head_eq_of_append ht.2.2 hu.2.2.1 h
    exact absurd (ht.2.1.symm.trans hu.2.1) nofun
  | node tag field children, leaf tag' field' value, ht, hu =>
    obtain ⟨rfl, -⟩ := head_eq_of_append ht.2.2.1 hu.2.2 h
    exact absurd (ht.2.1.symm.trans hu.2.1) nofun

/-- So do the bytes of trees in a row. -/
theorem eq_of_bytesAll (ts us : List Tree) (hts : AllWellFormed ts) (hus : AllWellFormed us)
    (h : bytesAll ts = bytesAll us) : ts = us := by
  match ts, us, hts, hus with
  | [], [], _, _ => rfl
  | [], u :: us, _, _ =>
    have hpos := u.length_bytes_pos
    have hlength := congrArg List.length h
    simp only [bytesAll, List.length_nil, List.length_append] at hlength
    omega
  | t :: ts, [], _, _ =>
    have hpos := t.length_bytes_pos
    have hlength := congrArg List.length h
    simp only [bytesAll, List.length_nil, List.length_append] at hlength
    omega
  | t :: ts, u :: us, ⟨ht, hts⟩, ⟨hu, hus⟩ =>
    obtain ⟨rfl, hrest⟩ := eq_of_append t u ht hu h
    rw [eq_of_bytesAll ts us hts hus hrest]

end

/-- The byte string is one tree, with nothing left over. -/
def Parses (b : Bytes) (t : Tree) : Prop :=
  t.WellFormed ∧ t.bytes = b

theorem Parses.unique {b : Bytes} {t u : Tree} (ht : Parses b t) (hu : Parses b u) : u = t := by
  have h : u.bytes ++ [] = t.bytes ++ [] := by rw [ht.2, hu.2]
  exact (eq_of_append u t hu.1 ht.1 h).1

end Tree

/-- **Decoding is a walk over the tree.** A byte string is decoded to a message exactly if by its
constructed bits and lengths alone it is one tree, and only one, and the walk of the grammar over
this tree ends with the message. -/
theorem decode_eq_ok_iff_walk {σ M : Type} {g : Grammar σ M} {b : Bytes} {m : M} :
    g.decode none b = .ok m ↔
      ∃ t, Tree.Parses b t ∧ (∀ u, Tree.Parses b u → u = t) ∧ g.read 0 t = .ok m := by
  refine ⟨fun h => ?_, fun h => ?_⟩
  · obtain ⟨t, ht, hb, hread⟩ := tree_of_decode h
    have hparses : Tree.Parses b t := ⟨ht, hb⟩
    exact ⟨t, hparses, fun u hu => hparses.unique hu, hread⟩
  · obtain ⟨t, ⟨ht, rfl⟩, -, hread⟩ := h
    rw [decode_bytes ht]
    exact hread

end LdapBer
