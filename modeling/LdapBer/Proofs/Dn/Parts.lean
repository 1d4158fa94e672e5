import Mathlib.Data.List.TakeWhile
import LdapBer.Proofs.Dn.Syntax

/-! Reading the parts of an assertion.

For every part it is said which text is read from a place on, and up to which place (`…_eq_ok_iff`),
when the text is left to a reader of the full syntax (`…_tooComplex_iff`), and that nothing else but
an error within the text can happen (`fault_of_…`). A value is told apart by what stands behind its
plain text (`value_cases`). -/
namespace LdapBer.Dn

/-! ### Places -/

namespace Cursor
variable {c d e : Cursor} {s t : Bytes}

/-- Where the text ends. -/
def stop (c : Cursor) : Nat :=
  c.pos + c.rest.length

theorem pos_le_stop (c : Cursor) : c.pos ≤ c.stop :=
  Nat.le_add_right c.pos _

theorem Reads.stop_eq (h : c.Reads s d) : d.stop = c.stop := by
  rw [stop, stop, h.rest, h.pos, List.length_append, Nat.add_assoc]

theorem Reads.eq_advance (h : c.Reads s d) : c.advance s.length = d := by
  obtain ⟨pos, rest⟩ := d
  obtain ⟨hrest, rfl⟩ := h
  rw [advance, hrest, List.drop_left]

theorem reads_append_iff : c.Reads (s ++ t) e ↔ ∃ d, c.Reads s d ∧ d.Reads t e := by
  refine ⟨fun h => ?_, fun h => ?_⟩
  · have hs : c.rest = s ++ (t ++ e.rest) := by rw [h.rest, List.append_assoc]
    have hfirst := reads_advance hs
    exact ⟨_, hfirst, rest_advance hs, by rw [h.pos, hfirst.pos, List.length_append, Nat.add_assoc]⟩
  · obtain ⟨d, hs, ht⟩ := h
    exact hs.append ht

end Cursor

/-- Spaces are passed up to the first byte that is none. -/
theorem Cursor.Reads.skipSpaces_eq {c d : Cursor} {s : Bytes} (h : c.Reads s d) (hs : AreSpaces s)
    (hd : ∀ b ∈ d.rest.head?, isSpace b = false) : c.skipSpaces = d := by
  rw [skipSpaces, h.rest, takeWhile_of_append hs hd, h.eq_advance]

theorem areSpaces_takeWhile (s : Bytes) : AreSpaces (s.takeWhile isSpace) :=
  fun _ => List.mem_takeWhile_imp

theorem rest_skipSpaces (c : Cursor) : c.skipSpaces.rest = c.rest.dropWhile isSpace :=
  Cursor.rest_advance List.takeWhile_append_dropWhile.symm

theorem front_skipSpaces (c : Cursor) : ∀ b ∈ c.skipSpaces.rest.head?, isSpace b = false := by
  intro b hb
  have hfront := List.head?_dropWhile_not isSpace c.rest
  rw [← rest_skipSpaces, hb] at hfront
  exact hfront

/-! ### Failures -/

/-- An error of the name, found within the text, that is not a missing separator. -/
inductive Stop.IsFault (stop : Nat) : Stop → Prop
  | name {e : DnError} (hpos : e.pos ≤ stop) (hseparator : ∀ b p, e ≠ .expectedSeparator b p) :
      IsFault stop (.name e)

/-! ### Words -/

/-- What holds of neither a space nor the sign does not hold where a type ends. -/
theorem eq_false_of_isTypeEnd {p : UInt8 → Bool} {b : UInt8} (h : isTypeEnd b = true)
    (hspace : p 32 = false) (hsign : p 61 = false) : p b = false := by
  obtain rfl | rfl : b = 32 ∨ b = 61 := by simpa [isTypeEnd] using h
  · exact hspace
  · exact hsign

/-- The word ends where its bytes do, and what stands there decides. -/
theorem scanWord_cases (c : Cursor) :
    ∃ word d, c.Reads word d ∧ (∀ b ∈ word, isWordPart b = true) ∧
      ((∀ b ∈ d.rest.head?, isTypeEnd b = true) ∧ scanWord c = .ok (word, d) ∨
        (∃ s, d.rest = 46 :: s) ∧ scanWord c = .error .tooComplex ∨
        ∃ b, scanWord c = .error (.name (.typeCharacter b d.pos))) := by
  have hreads := Cursor.reads_advance
    (List.takeWhile_append_dropWhile (p := isWordPart) (l := c.rest)).symm
  refine ⟨_, _, hreads, fun _ => List.mem_takeWhile_imp, ?_⟩
  unfold scanWord
  dsimp only
  split
  · next hrest => exact .inl ⟨by simp [hrest], rfl⟩
  · next b s hrest =>
    split
    · next hb => exact .inl ⟨hrest ▸ forall_head_cons.mpr hb, rfl⟩
    · split
      · next hb => exact .inr (.inl ⟨⟨s, hb ▸ hrest⟩, rfl⟩)
      · exact .inr (.inr ⟨b, rfl⟩)

theorem scanWord_eq_ok_iff {c d : Cursor} {word : Bytes} :
    scanWord c = .ok (word, d) ↔
      c.Reads word d ∧ (∀ b ∈ word, isWordPart b = true) ∧
        ∀ b ∈ d.rest.head?, isTypeEnd b = true := by
  refine ⟨fun h => ?_, fun h => ?_⟩
  · obtain ⟨word', d', hreads, hword, ⟨hend, heq⟩ | ⟨-, heq⟩ | ⟨_, heq⟩⟩ := scanWord_cases c
    · cases heq.symm.trans h
      exact ⟨hreads, hword, hend⟩
    · cases heq.symm.trans h
    · cases heq.symm.trans h
  · obtain ⟨hreads, hword, hend⟩ := h
    have htake := takeWhile_of_append hword fun b hb => eq_false_of_isTypeEnd (hend b hb) rfl rfl
    rw [← hreads.rest] at htake
    unfold scanWord
    dsimp only
    rw [htake, hreads.eq_advance]
    split
    · rfl
    · next b t hrest =>
      have hb : isTypeEnd b = true := forall_head_cons.mp (hrest ▸ hend)
      rw [if_pos hb]

theorem scanWord_tooComplex_iff {c : Cursor} :
    scanWord c = .error .tooComplex ↔
      ∃ word rest, c.rest = word ++ 46 :: rest ∧ ∀ b ∈ word, isWordPart b = true := by
  refine ⟨fun h => ?_, fun h => ?_⟩
  · obtain ⟨word, d, hreads, hword, ⟨-, heq⟩ | ⟨⟨rest, hrest⟩, -⟩ | ⟨_, heq⟩⟩ := scanWord_cases c
    · cases heq.symm.trans h
    · exact ⟨word, rest, hrest ▸ hreads.rest, hword⟩
    · cases heq.symm.trans h
  · obtain ⟨word, rest, hrest, hword⟩ := h
    have htake : c.rest.takeWhile isWordPart = word := by
      rw [hrest]
      exact takeWhile_of_append hword (forall_head_cons.mpr rfl)
    unfold scanWord
    dsimp only
    rw [htake, Cursor.rest_advance hrest]
    rfl

theorem fault_of_scanWord {c : Cursor} {e : Stop} (h : scanWord c = .error e) :
    e = .tooComplex ∨ e.IsFault c.stop := by
  obtain ⟨word, d, hreads, -, ⟨-, heq⟩ | ⟨-, heq⟩ | ⟨b, heq⟩⟩ := scanWord_cases c
  · cases heq.symm.trans h
  · exact .inl (Except.error.inj (heq.symm.trans h)).symm
  · cases heq.symm.trans h
    exact .inr ⟨hreads.stop_eq ▸ d.pos_le_stop, by simp⟩

/-! ### Identifiers -/

theorem isNumeral_group {b : UInt8} {s : Bytes} (hb : isDigit b = true) :
    IsNumeral (b :: groupTail b s) := by
  unfold groupTail
  split
  · next hzero =>
    subst hzero
    exact ⟨⟨List.cons_ne_nil _ _, List.forall_mem_singleton.mpr hb⟩, fun _ => rfl⟩
  · next hne =>
    exact ⟨⟨List.cons_ne_nil _ _, List.forall_mem_cons.mpr ⟨hb, fun _ => List.mem_takeWhile_imp⟩⟩,
      fun h => absurd (Option.some.inj h) hne⟩

theorem IsNumeral.groupTail_append {b : UInt8} {g t : Bytes} (h : IsNumeral (b :: g))
    (ht : ∀ d ∈ t.head?, isDigit d = false) : groupTail b (g ++ t) = g := by
  unfold groupTail
  split
  · next hzero =>
    subst hzero
    exact (List.cons.inj (h.lead rfl)).2.symm
  · exact takeWhile_of_append (List.forall_mem_cons.mp h.digits).2 ht

/-- A group is passed as a whole. -/
theorem IsNumeral.advance_groupTail {g : Bytes} (hg : IsNumeral g) {c after : Cursor}
    (h : c.Reads g after) (hafter : ∀ d ∈ after.rest.head?, isDigit d = false) :
    ∃ pos b s, c = ⟨pos, b :: s⟩ ∧ isDigit b = true ∧
      Cursor.advance ⟨pos + 1, s⟩ (groupTail b s).length = after := by
  obtain ⟨b, g, rfl⟩ := List.exists_cons_of_ne_nil hg.ne_nil
  obtain ⟨pos, rest⟩ := c
  obtain rfl : rest = b :: (g ++ after.rest) := h.rest
  refine ⟨pos, b, g ++ after.rest, rfl, (List.forall_mem_cons.mp hg.digits).1, ?_⟩
  rw [hg.groupTail_append hafter]
  refine Cursor.Reads.eq_advance ⟨rfl, ?_⟩
  rw [h.pos, List.length_cons, Nat.add_comm g.length, ← Nat.add_assoc]

theorem scanGroups_intercalate {gs : List Bytes} (hne : gs ≠ []) (h : ∀ g ∈ gs, IsNumeral g)
    {c d : Cursor} (hreads : c.Reads ((ascii ".").intercalate gs) d)
    (hend : ∀ b ∈ d.rest.head?, isTypeEnd b = true) (dots : Nat) :
    scanGroups dots c = .ok (dots + gs.length - 1, d) := by
  induction gs generalizing c dots with
  | nil => exact absurd rfl hne
  | cons g gs ih =>
    obtain ⟨hg, hgs⟩ := List.forall_mem_cons.mp h
    cases gs with
    | nil =>
      rw [List.intercalate_singleton] at hreads
      obtain ⟨pos, b, s, rfl, hb, hafter⟩ :=
        hg.advance_groupTail hreads fun b hb => eq_false_of_isTypeEnd (hend b hb) rfl rfl
      rw [scanGroups, if_pos hb]
      dsimp only
      rw [hafter]
      split
      · rfl
      · next e t hrest =>
        have he : isTypeEnd e = true := forall_head_cons.mp (hrest ▸ hend)
        have hdot : e ≠ 46 := by
          rintro rfl
          exact absurd he (by decide)
        rw [if_neg hdot, if_pos he]
        rfl
    | cons g' gs =>
      rw [List.intercalate_cons_cons, Cursor.reads_append_iff] at hreads
      obtain ⟨behind, hreads, hrest⟩ := hreads
      obtain ⟨after, hreads, hdot⟩ := Cursor.reads_append_iff.mp hreads
      have hfront : after.rest = 46 :: behind.rest := hdot.rest
      obtain ⟨pos, b, s, rfl, hb, hafter⟩ :=
        hg.advance_groupTail hreads (hfront ▸ forall_head_cons.mpr rfl)
      rw [scanGroups, if_pos hb]
      dsimp only
      rw [hafter, hfront]
      dsimp only
      rw [if_pos rfl]
      have hbehind : after.advance 1 = behind := hdot.eq_advance
      have hcount : dots + 1 + (g' :: gs).length - 1 = dots + (g :: g' :: gs).length - 1 := by
        simp only [List.length_cons]
        omega
      rw [hbehind, ih (List.cons_ne_nil _ _) hgs hrest, hcount]

theorem fault_of_scanGroups {dots : Nat} {c : Cursor} {e : Stop}
    (h : scanGroups dots c = .error e) : e.IsFault c.stop := by
  fun_induction scanGroups dots c with
  | case1 | case7 =>
    cases h
    exact ⟨Nat.le_add_right _ _, by simp⟩
  | case2 | case4 => cases h
  | case3 _ pos b s _ _ _ _ hafter ih =>
    have hpassed := (reads_group pos b s).append (reads_one hafter)
    exact hpassed.stop_eq ▸ ih h
  | case5 | case6 =>
    cases h
    exact ⟨(reads_group _ _ _).stop_eq ▸ Cursor.pos_le_stop _, by simp⟩

theorem scanOid_eq_ok_iff {c d : Cursor} {oid : Bytes} :
    scanOid c = .ok (oid, d) ↔
      c.Reads oid d ∧ IsOid oid ∧ ∀ b ∈ d.rest.head?, isTypeEnd b = true := by
  refine ⟨fun h => ?_, fun h => ?_⟩
  · obtain ⟨⟨dots, after⟩, hgroups, h⟩ := bind_eq_ok_iff.mp h
    obtain ⟨gs, -, hcount, hgs, hreads, hend⟩ := reads_scanGroups hgroups
    dsimp only at h
    rw [hreads.upTo_eq] at h
    split at h
    · cases h
    · next hvalid =>
      cases h
      simp only [Bool.or_eq_true, decide_eq_true_eq, Bool.not_eq_true', not_or,
        Bool.not_eq_false] at hvalid
      obtain ⟨hdots, hvalid⟩ := hvalid
      refine ⟨hreads, ⟨⟨gs, rfl, by omega, fun g hg => ?_⟩, hvalid⟩, hend⟩
      obtain ⟨b, s, hb, rfl⟩ := hgs g hg
      exact isNumeral_group hb
  · obtain ⟨hreads, ⟨⟨gs, rfl, htwo, hgs⟩, hvalid⟩, hend⟩ := h
    have hne : gs ≠ [] := by
      rintro rfl
      exact absurd htwo (by decide)
    have hdots : 0 + gs.length - 1 ≠ 0 := by omega
    refine bind_eq_ok_iff.mpr ⟨_, scanGroups_intercalate hne hgs hreads hend 0, ?_⟩
    dsimp only
    rw [hreads.upTo_eq, hvalid, decide_eq_false hdots]
    rfl

theorem fault_of_scanOid {c : Cursor} {e : Stop} (h : scanOid c = .error e) : e.IsFault c.stop := by
  obtain h | ⟨⟨dots, after⟩, -, h⟩ := bind_eq_error_iff.mp h
  · exact fault_of_scanGroups h
  · dsimp only at h
    split at h
    · cases h
      exact ⟨c.pos_le_stop, by simp⟩
    · cases h

/-! ### Types -/

theorem isAlpha_iff {b : UInt8} :
    isAlpha b = true ↔ 65 ≤ b.toNat ∧ b.toNat ≤ 90 ∨ 97 ≤ b.toNat ∧ b.toNat ≤ 122 := by
  simp [isAlpha, UInt8.le_iff_toNat_le]

theorem isDigit_of_isAlpha {b : UInt8} (h : isAlpha b = true) : isDigit b = false := by
  rw [isAlpha_iff] at h
  rw [Bool.eq_false_iff, Ne, isDigit_iff]
  omega

theorem IsWord.exists_cons {s : Bytes} (h : IsWord s) :
    ∃ b t, s = b :: t ∧ isAlpha b = true := by
  obtain ⟨b, hb, halpha⟩ := h.first
  obtain ⟨t, rfl⟩ := List.head?_eq_some_iff.mp hb
  exact ⟨b, t, rfl, halpha⟩

theorem IsOid.exists_cons {s : Bytes} (h : IsOid s) : ∃ b t, s = b :: t ∧ isDigit b = true := by
  obtain ⟨gs, rfl, htwo, hgs⟩ := h.groups
  match gs, htwo with
  | g :: g' :: gs, _ =>
    obtain ⟨hg, -⟩ := List.forall_mem_cons.mp hgs
    obtain ⟨b, g, rfl⟩ := List.exists_cons_of_ne_nil hg.ne_nil
    rw [List.intercalate_cons_cons]
    exact ⟨b, _, rfl, (List.forall_mem_cons.mp hg.digits).1⟩

theorem scanType_of_isAlpha {c : Cursor} {b : UInt8} {t : Bytes} (hrest : c.rest = b :: t)
    (hb : isAlpha b = true) : scanType c = scanWord c := by
  unfold scanType
  rw [hrest]
  exact if_pos hb

theorem scanType_of_isDigit {c : Cursor} {b : UInt8} {t : Bytes} (hrest : c.rest = b :: t)
    (hb : isDigit b = true) : scanType c = scanOid c := by
  have halpha : ¬ isAlpha b = true := by
    intro h
    rw [isDigit_of_isAlpha h] at hb
    cases hb
  unfold scanType
  rw [hrest]
  exact (if_neg halpha).trans (if_pos hb)

/-- What stands at the front decides what is read. -/
theorem scanType_cases (c : Cursor) :
    (∃ b t, c.rest = b :: t ∧ isAlpha b = true ∧ scanType c = scanWord c) ∨ scanType c = scanOid c ∨
      ∃ e, scanType c = .error e ∧ e.IsFault c.stop := by
  unfold scanType
  split
  · exact .inr (.inr ⟨_, rfl, c.pos_le_stop, by simp⟩)
  · next b t hrest =>
    split
    · next hb => exact .inl ⟨b, t, hrest, hb, rfl⟩
    · split
      · exact .inr (.inl rfl)
      · exact .inr (.inr ⟨_, rfl, c.pos_le_stop, by simp⟩)

/-- The word at the front of a text that starts with a letter has that letter. -/
theorem isWord_of_append {b : UInt8} {t word rest : Bytes} (hb : isAlpha b = true)
    (hrest : b :: t = word ++ rest) (hword : ∀ c ∈ word, isWordPart c = true)
    (hend : ∀ c ∈ rest.head?, isAlpha c = false) : IsWord word := by
  refine ⟨?_, hword⟩
  cases word with
  | nil =>
    rw [List.nil_append] at hrest
    rw [hend b (by rw [← hrest]; rfl)] at hb
    cases hb
  | cons c word =>
    obtain ⟨rfl, -⟩ := List.cons.inj hrest
    exact ⟨b, rfl, hb⟩

theorem scanType_eq_ok_iff {c d : Cursor} {type : Bytes} :
    scanType c = .ok (type, d) ↔
      c.Reads type d ∧ IsType type ∧ ∀ b ∈ d.rest.head?, isTypeEnd b = true := by
  refine ⟨fun h => ?_, fun h => ?_⟩
  · obtain ⟨b, t, hrest, hb, heq⟩ | heq | ⟨e, heq, -⟩ := scanType_cases c
    · obtain ⟨hreads, hword, hend⟩ := scanWord_eq_ok_iff.mp (heq ▸ h)
      have htype := isWord_of_append hb (hrest.symm.trans hreads.rest) hword
        fun b hb => eq_false_of_isTypeEnd (hend b hb) rfl rfl
      exact ⟨hreads, .inl htype, hend⟩
    · obtain ⟨hreads, hoid, hend⟩ := scanOid_eq_ok_iff.mp (heq ▸ h)
      exact ⟨hreads, .inr hoid, hend⟩
    · rw [heq] at h
      cases h
  · obtain ⟨hreads, hword | hoid, hend⟩ := h
    · obtain ⟨b, t, rfl, hb⟩ := hword.exists_cons
      rw [scanType_of_isAlpha hreads.rest hb, scanWord_eq_ok_iff]
      exact ⟨hreads, hword.parts, hend⟩
    · obtain ⟨b, t, rfl, hb⟩ := hoid.exists_cons
      rw [scanType_of_isDigit hreads.rest hb, scanOid_eq_ok_iff]
      exact ⟨hreads, hoid, hend⟩

theorem scanType_tooComplex_iff {c : Cursor} :
    scanType c = .error .tooComplex ↔ ∃ word rest, IsWord word ∧ c.rest = word ++ 46 :: rest := by
  refine ⟨fun h => ?_, fun h => ?_⟩
  · obtain ⟨b, t, hrest, hb, heq⟩ | heq | ⟨e, heq, he⟩ := scanType_cases c
    · obtain ⟨word, rest, hcut, hword⟩ := scanWord_tooComplex_iff.mp (heq ▸ h)
      have htype := isWord_of_append hb (hrest.symm.trans hcut) hword (forall_head_cons.mpr rfl)
      exact ⟨word, rest, htype, hcut⟩
    · cases fault_of_scanOid (heq ▸ h)
    · obtain rfl := Except.error.inj (heq.symm.trans h)
      cases he
  · obtain ⟨word, rest, hword, hrest⟩ := h
    obtain ⟨b, t, rfl, hb⟩ := hword.exists_cons
    rw [scanType_of_isAlpha hrest hb, scanWord_tooComplex_iff]
    exact ⟨_, rest, hrest, hword.parts⟩

theorem fault_of_scanType {c : Cursor} {e : Stop} (h : scanType c = .error e) :
    e = .tooComplex ∨ e.IsFault c.stop := by
  obtain ⟨b, t, hrest, hb, heq⟩ | heq | ⟨e', heq, he⟩ := scanType_cases c
  · exact fault_of_scanWord (heq ▸ h)
  · exact .inr (fault_of_scanOid (heq ▸ h))
  · rw [heq] at h
    cases h
    exact .inr he

/-! ### Normal types -/

theorem isCapital_iff {b : UInt8} : (65 ≤ b && b ≤ 90) = true ↔ 65 ≤ b.toNat ∧ b.toNat ≤ 90 := by
  simp [UInt8.le_iff_toNat_le]

theorem lowercase_of_isDigit {b : UInt8} (h : isDigit b = true) : lowercase b = b := by
  have hrange := isDigit_iff.mp h
  refine if_neg fun hcapital => ?_
  rw [isCapital_iff] at hcapital
  omega

theorem forall_mem_intercalate {p : UInt8 → Prop} {sep : Bytes} {gs : List Bytes}
    (hsep : ∀ b ∈ sep, p b) (hgs : ∀ g ∈ gs, ∀ b ∈ g, p b) : ∀ b ∈ sep.intercalate gs, p b := by
  induction gs with
  | nil => nofun
  | cons g gs ih =>
    obtain ⟨hg, hgs⟩ := List.forall_mem_cons.mp hgs
    cases gs with
    | nil => rwa [List.intercalate_singleton]
    | cons g' gs =>
      rw [List.intercalate_cons_cons]
      exact List.forall_mem_append.mpr ⟨List.forall_mem_append.mpr ⟨hg, hsep⟩, ih hgs⟩

/-- An identifier has no letters. -/
theorem IsOid.map_lowercase {s : Bytes} (h : IsOid s) : s.map lowercase = s := by
  obtain ⟨gs, rfl, -, hgs⟩ := h.groups
  have hfixed : ∀ b ∈ (ascii ".").intercalate gs, lowercase b = id b :=
    forall_mem_intercalate (List.forall_mem_singleton.mpr rfl) fun g hg b hb =>
      lowercase_of_isDigit ((hgs g hg).digits b hb)
  rw [List.map_inj_left.mpr hfixed, List.map_id]

theorem IsOid.normalType_eq {s : Bytes} (h : IsOid s) : normalType s = .ok s := by
  obtain ⟨b, t, hs, hb⟩ := h.exists_cons
  obtain ⟨gs, htext, -, hgs⟩ := h.groups
  obtain ⟨o, ho⟩ := Oid.isValid_iff.mp h.valid
  have hwritten : o.toText = s :=
    Oid.toText_of_ofText ⟨htext, fun g hg => (hgs g hg).toIsDigits⟩ (fun g hg => (hgs g hg).lead) ho
  subst hs
  unfold normalType
  dsimp only
  rw [if_pos hb, ho, ← hwritten]

/-- The normal form is never refused. -/
theorem IsType.normalType_eq {s : Bytes} (h : IsType s) : normalType s = .ok (s.map lowercase) := by
  obtain hword | hoid := h
  · obtain ⟨b, t, rfl, hb⟩ := hword.exists_cons
    unfold normalType
    dsimp only
    rw [isDigit_of_isAlpha hb]
    rfl
  · rw [hoid.normalType_eq, hoid.map_lowercase]

/-! ### The sign between a type and its value -/

theorem passEquals_eq_ok_iff {c d : Cursor} : passEquals c = .ok d ↔ c.Reads [61] d := by
  refine ⟨reads_passEquals, fun h => ?_⟩
  unfold passEquals
  rw [h.rest]
  exact (if_pos rfl).trans (congrArg Except.ok h.eq_advance)

theorem fault_of_passEquals {c : Cursor} {e : Stop} (h : passEquals c = .error e) :
    e.IsFault c.stop := by
  unfold passEquals at h
  split at h
  · cases h
    exact ⟨c.pos_le_stop, by simp⟩
  · split at h
    · cases h
    · cases h
      exact ⟨c.pos_le_stop, by simp⟩

/-! ### Values -/

/-- The text ends, or goes on with a separator. -/
def EndsAva (s : Bytes) : Prop :=
  ∀ b ∈ s.head?, isSeparator b = true

theorem isPlain_of_areSpaces {s : Bytes} (h : AreSpaces s) : IsPlain s := by
  intro b hb
  obtain rfl : b = 32 := by simpa [isSpace] using h b hb
  decide

theorem valueLength_plain {plain : Bytes} (hplain : IsPlain plain) (n k : Nat) (s : Bytes) :
    ∃ k', valueLength n k (plain ++ s) = valueLength (n + plain.length) k' s := by
  induction plain generalizing n k with
  | nil => exact ⟨k, rfl⟩
  | cons b plain ih =>
    obtain ⟨⟨hseparator, hspecial⟩, hplain⟩ := List.forall_mem_cons.mp hplain
    obtain ⟨k', hk'⟩ := ih hplain (n + 1) (if isSpace b then k + 1 else 0)
    refine ⟨k', ?_⟩
    rw [List.cons_append, valueLength, hspecial, hseparator, List.length_cons,
      Nat.add_comm plain.length, ← Nat.add_assoc]
    exact hk'

/-- A byte that is no space takes those before it into the value. -/
theorem valueLength_value {value : Bytes} (hplain : IsPlain value)
    (hback : value.getLast? ≠ some 32) (n : Nat) (s : Bytes) :
    valueLength n 0 (value ++ s) = valueLength (n + value.length) 0 s := by
  cases value using List.reverseRecOn with
  | nil => rfl
  | append_singleton lead b =>
    obtain ⟨hlead, hb⟩ := List.forall_mem_append.mp hplain
    obtain ⟨hseparator, hspecial⟩ := hb b List.mem_cons_self
    have hspace : isSpace b = false := by simpa [isSpace] using hback
    obtain ⟨k, hk⟩ := valueLength_plain hlead n 0 ([b] ++ s)
    rw [List.append_assoc, hk, List.singleton_append, valueLength, hspecial, hseparator, hspace,
      List.length_append, ← Nat.add_assoc]
    rfl

/-- The spaces in front of a separator are given back. -/
theorem valueLength_spaces {spaces tail : Bytes} (hspaces : AreSpaces spaces) (htail : EndsAva tail)
    (n k : Nat) : valueLength (n + k) k (spaces ++ tail) = .ok n := by
  induction spaces generalizing k with
  | nil =>
    rw [List.nil_append]
    cases tail with
    | nil => rw [valueLength, Nat.add_sub_cancel]
    | cons b tail =>
      have hb : isSeparator b = true := forall_head_cons.mp htail
      have hspecial : isSpecial b = false := by
        obtain rfl | rfl : b = 44 ∨ b = 59 := by simpa [isSeparator] using hb
        all_goals decide
      rw [valueLength, hspecial, hb, Nat.add_sub_cancel]
      rfl
  | cons b spaces ih =>
    obtain ⟨hb, hspaces⟩ := List.forall_mem_cons.mp hspaces
    obtain ⟨hseparator, hspecial⟩ := isPlain_of_areSpaces (List.forall_mem_singleton.mpr hb) b
      List.mem_cons_self
    rw [List.cons_append, valueLength, hspecial, hseparator, hb, Nat.add_assoc]
    exact ih hspaces (k + 1)

theorem scanValue_of_reads {c d : Cursor} {value spaces tail : Bytes} (hreads : c.Reads value d)
    (hplain : IsPlain value) (hback : value.getLast? ≠ some 32) (hspaces : AreSpaces spaces)
    (htail : EndsAva tail) (hrest : d.rest = spaces ++ tail) : scanValue c = .ok (value, d) := by
  have hlength : valueLength 0 0 c.rest = .ok value.length := by
    rw [hreads.rest, hrest, valueLength_value hplain hback, Nat.zero_add]
    exact valueLength_spaces hspaces htail value.length 0
  refine bind_eq_ok_iff.mpr ⟨_, hlength, ?_⟩
  dsimp only
  rw [hreads.eq_advance, hreads.upTo_eq]
  rfl

theorem scanValue_of_special {c : Cursor} {plain rest : Bytes} {b : UInt8} (hplain : IsPlain plain)
    (hb : isSpecial b = true) (hrest : c.rest = plain ++ b :: rest) :
    scanValue c = .error .tooComplex := by
  obtain ⟨k, hk⟩ := valueLength_plain hplain 0 0 (b :: rest)
  refine bind_eq_error_iff.mpr (.inl ?_)
  rw [hrest, hk, valueLength, if_pos hb]

theorem exists_trim (s : Bytes) :
    ∃ value spaces, s = value ++ spaces ∧ value.getLast? ≠ some 32 ∧ AreSpaces spaces := by
  induction s using List.reverseRecOn with
  | nil => exact ⟨[], [], rfl, nofun, nofun⟩
  | append_singleton s b ih =>
    by_cases hb : b = 32
    · obtain ⟨value, spaces, rfl, hback, hspaces⟩ := ih
      exact ⟨value, spaces ++ [b], List.append_assoc .., hback,
        List.forall_mem_append.mpr ⟨hspaces, List.forall_mem_singleton.mpr (hb ▸ rfl)⟩⟩
    · exact ⟨s ++ [b], [], (List.append_nil _).symm, by simpa using hb, nofun⟩

theorem exists_plain (s : Bytes) :
    ∃ plain rest, s = plain ++ rest ∧ IsPlain plain ∧
      ∀ b ∈ rest.head?, isSeparator b = true ∨ isSpecial b = true := by
  induction s with
  | nil => exact ⟨[], [], rfl, nofun, nofun⟩
  | cons b s ih =>
    by_cases hb : isSeparator b = true ∨ isSpecial b = true
    · exact ⟨[], b :: s, rfl, nofun, forall_head_cons.mpr hb⟩
    · obtain ⟨plain, rest, rfl, hplain, hrest⟩ := ih
      simp only [not_or, Bool.not_eq_true] at hb
      exact ⟨b :: plain, rest, rfl, List.forall_mem_cons.mpr ⟨hb, hplain⟩, hrest⟩

/-- The spaces in front of plain text are a part of it. -/
theorem plain_skipSpaces {c : Cursor} {plain rest : Bytes} {b : UInt8} (hplain : IsPlain plain)
    (hb : isSpace b = false) (hrest : c.rest = plain ++ b :: rest) :
    ∃ plain', IsPlain plain' ∧ c.skipSpaces.rest = plain' ++ b :: rest := by
  have hdrop : (b :: rest).dropWhile isSpace = b :: rest :=
    List.dropWhile_cons_of_neg (by rw [hb]; exact Bool.false_ne_true)
  rw [rest_skipSpaces, hrest, List.dropWhile_append, hdrop]
  split
  · exact ⟨[], nofun, rfl⟩
  · exact ⟨_, fun d hd => hplain d (List.dropWhile_sublist isSpace |>.mem hd), rfl⟩

/-- Any text is a value and the spaces behind it, up to a separator or to what is not plain. -/
theorem value_cases (s : Bytes) :
    (∃ value spaces tail, s = value ++ (spaces ++ tail) ∧ IsPlain value ∧ value.getLast? ≠ some 32 ∧
      AreSpaces spaces ∧ EndsAva tail) ∨
    ∃ plain b rest, s = plain ++ b :: rest ∧ IsPlain plain ∧ isSpecial b = true := by
  obtain ⟨plain, rest, rfl, hplain, hrest⟩ := exists_plain s
  by_cases htail : EndsAva rest
  · obtain ⟨value, spaces, rfl, hback, hspaces⟩ := exists_trim plain
    exact .inl ⟨value, spaces, rest, List.append_assoc .., (List.forall_mem_append.mp hplain).1,
      hback, hspaces, htail⟩
  · cases rest with
    | nil => exact absurd nofun htail
    | cons b rest =>
      obtain hb | hb : isSeparator b = true ∨ isSpecial b = true := forall_head_cons.mp hrest
      · exact absurd (forall_head_cons.mpr hb) htail
      · exact .inr ⟨plain, b, rest, rfl, hplain, hb⟩

theorem scanValue_eq_ok_iff {c d : Cursor} {value : Bytes} :
    scanValue c = .ok (value, d) ↔
      c.Reads value d ∧ IsPlain value ∧ value.getLast? ≠ some 32 ∧
        ∃ spaces tail, d.rest = spaces ++ tail ∧ AreSpaces spaces ∧ EndsAva tail := by
  refine ⟨fun h => ?_, fun h => ?_⟩
  · obtain ⟨value', spaces, tail, hrest, hplain, hback, hspaces, htail⟩ |
      ⟨plain, b, rest, hrest, hplain, hb⟩ := value_cases c.rest
    · have hreads := Cursor.reads_advance hrest
      have hbehind := Cursor.rest_advance hrest
      obtain ⟨rfl, rfl⟩ := Prod.mk.inj (Except.ok.inj
        ((scanValue_of_reads hreads hplain hback hspaces htail hbehind).symm.trans h))
      exact ⟨hreads, hplain, hback, spaces, tail, hbehind, hspaces, htail⟩
    · rw [scanValue_of_special hplain hb hrest] at h
      cases h
  · obtain ⟨hreads, hplain, hback, spaces, tail, hrest, hspaces, htail⟩ := h
    exact scanValue_of_reads hreads hplain hback hspaces htail hrest

theorem special_of_scanValue {c : Cursor} {e : Stop} (h : scanValue c = .error e) :
    e = .tooComplex ∧ ∃ plain b rest, c.rest = plain ++ b :: rest ∧ IsPlain plain ∧
      isSpecial b = true := by
  obtain ⟨value, spaces, tail, hrest, hplain, hback, hspaces, htail⟩ |
    ⟨plain, b, rest, hrest, hplain, hb⟩ := value_cases c.rest
  · have hreads := Cursor.reads_advance hrest
    rw [scanValue_of_reads hreads hplain hback hspaces htail (Cursor.rest_advance hrest)] at h
    cases h
  · rw [scanValue_of_special hplain hb hrest] at h
    exact ⟨(Except.error.inj h).symm, plain, b, rest, hrest, hplain, hb⟩

end LdapBer.Dn
