import LdapBer.Proofs.Dn.Parts

/-! Which texts are simple names.

An assertion is read exactly if it is one and the text ends behind it or goes on with a separator
(`scanAva_eq_ok_iff`). By the recursion of the reader this carries over to rows of assertions, and
the same goes for the texts that are left to a reader of the full syntax. What is neither is an
error of the name (`scan_decides`). -/
namespace LdapBer.Dn

/-! ### Assertions -/

/-- What does not hold of a space holds of no space. -/
theorem isSpace_eq_false {p : UInt8 → Bool} {b : UInt8} (h : p b = true) (hspace : p 32 = false) :
    isSpace b = false := by
  by_contra hb
  obtain rfl : b = 32 := by simpa [isSpace] using hb
  rw [hspace] at h
  cases h

theorem EndsAva.front {s : Bytes} (h : EndsAva s) : ∀ b ∈ s.head?, isSpace b = false :=
  fun b hb => isSpace_eq_false (h b hb) rfl

/-- No type starts with a space, whatever stands behind it. -/
theorem IsType.front {type : Bytes} (h : IsType type) (s : Bytes) :
    ∀ b ∈ (type ++ s).head?, isSpace b = false := by
  obtain hword | hoid := h
  · obtain ⟨b, t, rfl, hb⟩ := hword.exists_cons
    exact forall_head_cons.mpr (isSpace_eq_false hb rfl)
  · obtain ⟨b, t, rfl, hb⟩ := hoid.exists_cons
    exact forall_head_cons.mpr (isSpace_eq_false hb rfl)

/-- Behind a type stand spaces and the sign. -/
theorem isTypeEnd_of_gap {gap : Bytes} (hgap : AreSpaces gap) (s : Bytes) :
    ∀ b ∈ (gap ++ 61 :: s).head?, isTypeEnd b = true := by
  cases gap with
  | nil => exact forall_head_cons.mpr rfl
  | cons b gap =>
    obtain ⟨hb, -⟩ := List.forall_mem_cons.mp hgap
    exact forall_head_cons.mpr (Bool.or_eq_true_iff.mpr (.inl hb))

/-- The way from the start of an assertion to the place behind its sign. -/
theorem scan_left_iff {c d : Cursor} {type : Bytes} :
    (∃ e, scanType c.skipSpaces = .ok (type, e) ∧ passEquals e.skipSpaces = .ok d) ↔
      IsType type ∧ ∃ lead gap, AreSpaces lead ∧ AreSpaces gap ∧
        c.Reads (lead ++ type ++ gap ++ ascii "=") d := by
  refine ⟨fun h => ?_, fun h => ?_⟩
  · obtain ⟨e, htype, hequals⟩ := h
    obtain ⟨hreads, histype, -⟩ := scanType_eq_ok_iff.mp htype
    have hsign := passEquals_eq_ok_iff.mp hequals
    exact ⟨histype, _, _, areSpaces_takeWhile _, areSpaces_takeWhile _,
      ((c.reads_skipSpaces.append hreads).append e.reads_skipSpaces).append hsign⟩
  · obtain ⟨histype, lead, gap, hlead, hgap, hreads⟩ := h
    obtain ⟨c₃, hreads, hsign⟩ := Cursor.reads_append_iff.mp hreads
    obtain ⟨c₂, hreads, hpassed⟩ := Cursor.reads_append_iff.mp hreads
    obtain ⟨c₁, hpassedLead, hreads⟩ := Cursor.reads_append_iff.mp hreads
    have hrest₃ : c₃.rest = 61 :: d.rest := hsign.rest
    have hstart : c.skipSpaces = c₁ :=
      hpassedLead.skipSpaces_eq hlead (hreads.rest ▸ histype.front c₂.rest)
    have hgapped : c₂.skipSpaces = c₃ :=
      hpassed.skipSpaces_eq hgap (hrest₃ ▸ forall_head_cons.mpr rfl)
    have hbehind : ∀ b ∈ c₂.rest.head?, isTypeEnd b = true := by
      rw [hpassed.rest, hrest₃]
      exact isTypeEnd_of_gap hgap d.rest
    exact ⟨c₂, hstart ▸ scanType_eq_ok_iff.mpr ⟨hreads, histype, hbehind⟩,
      hgapped ▸ passEquals_eq_ok_iff.mpr hsign⟩

/-- The way from behind the sign to the end of an assertion. -/
theorem scan_right_iff {c d : Cursor} {value : Bytes} :
    (∃ e, scanValue c.skipSpaces = .ok (value, e) ∧ e.skipSpaces = d) ↔
      IsValue value ∧ EndsAva d.rest ∧ ∃ before after, AreSpaces before ∧ AreSpaces after ∧
        c.Reads (before ++ value ++ after) d := by
  refine ⟨fun h => ?_, fun h => ?_⟩
  · obtain ⟨e, hvalue, rfl⟩ := h
    obtain ⟨hreads, hplain, hback, spaces, tail, hrest, hspaces, htail⟩ :=
      scanValue_eq_ok_iff.mp hvalue
    have hfront : value.head? ≠ some 32 := by
      intro h
      have hhead : c.skipSpaces.rest.head? = some 32 := by
        rw [hreads.rest, List.head?_append, h]
        rfl
      exact absurd (front_skipSpaces c 32 hhead) (by decide)
    have hend : e.skipSpaces = e.advance spaces.length :=
      (Cursor.reads_advance hrest).skipSpaces_eq hspaces (Cursor.rest_advance hrest ▸ htail.front)
    refine ⟨⟨hplain, hfront, hback⟩, ?_, _, _, areSpaces_takeWhile _, areSpaces_takeWhile _,
      (c.reads_skipSpaces.append hreads).append e.reads_skipSpaces⟩
    rw [hend, Cursor.rest_advance hrest]
    exact htail
  · obtain ⟨⟨hplain, hfront, hback⟩, hend, before, after, hbefore, hafter, hreads⟩ := h
    cases value with
    | nil =>
      -- The spaces before and behind nothing are one run, which is passed before the value is read.
      rw [List.append_nil] at hreads
      have hspaces : c.skipSpaces = d :=
        hreads.skipSpaces_eq (List.forall_mem_append.mpr ⟨hbefore, hafter⟩) hend.front
      have hempty : scanValue d = .ok ([], d) :=
        scanValue_of_reads (.nil d) nofun nofun (List.forall_mem_nil _) hend rfl
      exact ⟨d, by rw [hspaces, hempty], (Cursor.Reads.nil d).skipSpaces_eq nofun hend.front⟩
    | cons b value =>
      obtain ⟨c₂, hreads, hpassed⟩ := Cursor.reads_append_iff.mp hreads
      obtain ⟨c₁, hpassedBefore, hreads⟩ := Cursor.reads_append_iff.mp hreads
      have hb : isSpace b = false := by simpa [isSpace] using hfront
      have hstart : c.skipSpaces = c₁ :=
        hpassedBefore.skipSpaces_eq hbefore (hreads.rest ▸ forall_head_cons.mpr hb)
      exact ⟨c₂, hstart ▸ scanValue_of_reads hreads hplain hback hafter hend hpassed.rest,
        hpassed.skipSpaces_eq hafter hend.front⟩

theorem scanAva_eq_ok_iff {c d : Cursor} {ava : Ava} :
    scanAva c = .ok (ava, d) ↔ IsAva ava ∧ c.Reads ava.rawText d ∧ EndsAva d.rest := by
  refine ⟨fun h => ?_, fun h => ?_⟩
  · have hraw := reads_ava h
    obtain ⟨⟨type, afterType⟩, htype, h⟩ := bind_eq_ok_iff.mp h
    obtain ⟨afterEquals, hequals, h⟩ := bind_eq_ok_iff.mp h
    obtain ⟨⟨value, afterValue⟩, hvalue, h⟩ := bind_eq_ok_iff.mp h
    obtain ⟨histype, lead, gap, hlead, hgap, hleft⟩ := scan_left_iff.mp ⟨_, htype, hequals⟩
    obtain ⟨hisvalue, hend, before, after, hbefore, hafter, hright⟩ :=
      scan_right_iff.mp ⟨_, hvalue, rfl⟩
    obtain ⟨normal, hnormal, h⟩ := bind_eq_ok_iff.mp h
    rw [histype.normalType_eq] at hnormal
    cases hnormal
    cases h
    have htext : c.upTo afterValue.skipSpaces =
        lead ++ type ++ gap ++ ascii "=" ++ before ++ value ++ after := by
      rw [(hleft.append hright).upTo_eq]
      simp only [List.append_assoc]
    exact ⟨⟨histype, hisvalue, ⟨lead, gap, before, after, hlead, hgap, hbefore, hafter, htext⟩, rfl,
      rfl⟩, hraw, hend⟩
  · obtain ⟨⟨histype, hisvalue, hlaid, hnormal, hnormalValue⟩, hraw, hend⟩ := h
    obtain ⟨lead, gap, before, after, hlead, hgap, hbefore, hafter, htext⟩ := hlaid
    have hparts : c.Reads ((lead ++ ava.type ++ gap ++ ascii "=") ++
        (before ++ ava.rawValue ++ after)) d := by
      rw [htext] at hraw
      simpa only [List.append_assoc] using hraw
    obtain ⟨afterEquals, hleft, hright⟩ := Cursor.reads_append_iff.mp hparts
    obtain ⟨afterType, htype, hequals⟩ :=
      scan_left_iff.mpr ⟨histype, lead, gap, hlead, hgap, hleft⟩
    obtain ⟨afterValue, hvalue, rfl⟩ :=
      scan_right_iff.mpr ⟨hisvalue, hend, before, after, hbefore, hafter, hright⟩
    refine bind_eq_ok_iff.mpr ⟨_, htype, bind_eq_ok_iff.mpr ⟨_, hequals, bind_eq_ok_iff.mpr
      ⟨_, hvalue, bind_eq_ok_iff.mpr ⟨ava.type.map lowercase, ?_, ?_⟩⟩⟩⟩
    · rw [histype.normalType_eq]
      rfl
    · obtain ⟨type, normalizedType, rawValue, normalizedValue, rawText⟩ := ava
      obtain rfl : normalizedType = type.map lowercase := hnormal
      obtain rfl : normalizedValue = rawValue := hnormalValue
      obtain rfl : c.upTo afterValue.skipSpaces = rawText := hraw.upTo_eq
      rfl

/-- An assertion that is left to a reader of the full syntax stops behind its word, or in its
value. -/
theorem scanAva_tooComplex_iff {c : Cursor} :
    scanAva c = .error .tooComplex ↔ BreaksOff c.rest := by
  refine ⟨fun h => ?_, fun h => ?_⟩
  · obtain htype | ⟨⟨type, afterType⟩, htype, h⟩ := bind_eq_error_iff.mp h
    · obtain ⟨word, rest, hword, hrest⟩ := scanType_tooComplex_iff.mp htype
      have hbreaks : BreaksOff (c.rest.takeWhile isSpace ++ word ++ ascii "." ++ rest) :=
        .word (areSpaces_takeWhile c.rest) hword
      rw [List.append_assoc, List.append_assoc] at hbreaks
      rw [c.reads_skipSpaces.rest, hrest]
      exact hbreaks
    obtain hequals | ⟨afterEquals, hequals, h⟩ := bind_eq_error_iff.mp h
    · cases fault_of_passEquals hequals
    obtain hvalue | ⟨⟨value, afterValue⟩, hvalue, h⟩ := bind_eq_error_iff.mp h
    · obtain ⟨histype, lead, gap, hlead, hgap, hleft⟩ := scan_left_iff.mp ⟨_, htype, hequals⟩
      obtain ⟨-, plain, b, rest, hrest, hplain, hb⟩ := special_of_scanValue hvalue
      have hspaces := isPlain_of_areSpaces (areSpaces_takeWhile afterEquals.rest)
      have hbreaks : BreaksOff (lead ++ type ++ gap ++ ascii "=" ++
          (afterEquals.rest.takeWhile isSpace ++ plain) ++ b :: rest) :=
        .value hlead histype hgap (List.forall_mem_append.mpr ⟨hspaces, hplain⟩) hb
      rw [hleft.rest, afterEquals.reads_skipSpaces.rest, hrest]
      simpa only [List.append_assoc] using hbreaks
    · obtain ⟨-, histype, -⟩ := scanType_eq_ok_iff.mp htype
      dsimp only at h
      rw [histype.normalType_eq] at h
      cases h
  · generalize htext : c.rest = text at h
    cases h with
    | @word lead word rest hlead hword =>
      have hcut : c.rest = lead ++ (word ++ 46 :: rest) := by
        rw [htext]
        simp only [List.append_assoc]
        rfl
      have hstart : c.skipSpaces = c.advance lead.length :=
        (Cursor.reads_advance hcut).skipSpaces_eq hlead
          (Cursor.rest_advance hcut ▸ IsType.front (.inl hword) _)
      refine bind_eq_error_iff.mpr (.inl (scanType_tooComplex_iff.mpr ⟨word, rest, hword, ?_⟩))
      rw [hstart, Cursor.rest_advance hcut]
    | @value lead type gap plain rest b hlead htype hgap hplain hb =>
      have hcut : c.rest = (lead ++ type ++ gap ++ ascii "=") ++ (plain ++ b :: rest) := by
        rw [htext]
        simp only [List.append_assoc]
      obtain ⟨afterType, htype, hequals⟩ :=
        scan_left_iff.mpr ⟨htype, lead, gap, hlead, hgap, Cursor.reads_advance hcut⟩
      obtain ⟨plain', hplain', hrest⟩ :=
        plain_skipSpaces hplain (isSpace_eq_false hb rfl) (Cursor.rest_advance hcut)
      exact bind_eq_error_iff.mpr (.inr ⟨_, htype, bind_eq_error_iff.mpr (.inr ⟨_, hequals,
        bind_eq_error_iff.mpr (.inl (scanValue_of_special hplain' hb hrest))⟩)⟩)

theorem fault_of_scanAva {c : Cursor} {e : Stop} (h : scanAva c = .error e) :
    e = .tooComplex ∨ e.IsFault c.stop := by
  have hlead := c.reads_skipSpaces.stop_eq
  obtain htype | ⟨⟨type, afterType⟩, htype, h⟩ := bind_eq_error_iff.mp h
  · exact hlead ▸ fault_of_scanType htype
  have hgap := ((reads_scanType htype).append afterType.reads_skipSpaces).stop_eq
  obtain hequals | ⟨afterEquals, hequals, h⟩ := bind_eq_error_iff.mp h
  · exact .inr (hlead ▸ hgap ▸ fault_of_passEquals hequals)
  obtain hvalue | ⟨⟨value, afterValue⟩, hvalue, h⟩ := bind_eq_error_iff.mp h
  · exact .inl (special_of_scanValue hvalue).1
  · obtain ⟨-, histype, -⟩ := scanType_eq_ok_iff.mp htype
    dsimp only at h
    rw [histype.normalType_eq] at h
    cases h

/-! ### Names -/

theorem scanRdns_of_error {c : Cursor} {e : Stop} (h : scanAva c = .error e) :
    scanRdns c = .error e := by
  rw [scanRdns]
  split
  · next he => rw [← Except.error.inj (h.symm.trans he)]
  · next hava => cases h.symm.trans hava
  · next hava => cases h.symm.trans hava

theorem scanRdns_last {c : Cursor} {ava : Ava} (hava : IsAva ava) (hrest : c.rest = ava.rawText) :
    scanRdns c = .ok [⟨[ava], ava.rawText, none⟩] := by
  have hcut : c.rest = ava.rawText ++ [] := hrest.trans (List.append_nil _).symm
  have hread : scanAva c = .ok (ava, ⟨c.pos + ava.rawText.length, []⟩) :=
    scanAva_eq_ok_iff.mpr ⟨hava, ⟨hcut, rfl⟩, nofun⟩
  rw [scanRdns]
  split
  · next he => cases hread.symm.trans he
  · next h =>
    cases hread.symm.trans h
    rfl
  · next h => cases hread.symm.trans h

theorem scanRdns_more {c : Cursor} {ava : Ava} {b : UInt8} {s : Bytes} (hava : IsAva ava)
    (hb : isSeparator b = true) (hrest : c.rest = ava.rawText ++ b :: s) :
    ∃ d, d.rest = s ∧ scanRdns c = (⟨[ava], ava.rawText, some b⟩ :: ·) <$> scanRdns d := by
  have hread : scanAva c = .ok (ava, ⟨c.pos + ava.rawText.length, b :: s⟩) :=
    scanAva_eq_ok_iff.mpr ⟨hava, ⟨hrest, rfl⟩, forall_head_cons.mpr hb⟩
  refine ⟨⟨c.pos + ava.rawText.length + 1, s⟩, rfl, ?_⟩
  rw [scanRdns]
  split
  · next he => cases hread.symm.trans he
  · next h => cases hread.symm.trans h
  · next h =>
    cases hread.symm.trans h
    exact if_pos hb

/-- The relative names of a text are what is read from it. -/
theorem scanRdns_eq_ok_iff {c : Cursor} {rdns : List Rdn} :
    scanRdns c = .ok rdns ↔ AreRdns c.rest rdns := by
  refine ⟨fun h => ?_, fun h => ?_⟩
  · fun_induction scanRdns c generalizing rdns with
    | case1 | case4 => cases h
    | case2 c ava pos hava =>
      obtain ⟨hisava, hreads, -⟩ := scanAva_eq_ok_iff.mp hava
      cases h
      rw [hreads.rest, List.append_nil]
      exact .last hisava
    | case3 c ava pos b s hava hb ih =>
      obtain ⟨hisava, hreads, -⟩ := scanAva_eq_ok_iff.mp hava
      obtain ⟨rest, hrest, rfl⟩ := map_eq_ok_iff.mp h
      rw [hreads.rest]
      exact .more hisava hb (ih hrest)
  · generalize htext : c.rest = text at h
    induction h generalizing c with
    | last hisava => exact scanRdns_last hisava htext
    | more hisava hb _ ih =>
      obtain ⟨d, hd, heq⟩ := scanRdns_more hisava hb htext
      exact heq ▸ map_eq_ok_iff.mpr ⟨_, ih hd, rfl⟩

theorem scanRdns_tooComplex_iff {c : Cursor} :
    scanRdns c = .error .tooComplex ↔ IsTooComplex c.rest := by
  refine ⟨fun h => ?_, fun h => ?_⟩
  · fun_induction scanRdns c with
    | case1 c e hava =>
      cases h
      exact .here (scanAva_tooComplex_iff.mp hava)
    | case2 | case4 => cases h
    | case3 c ava pos b s hava hb ih =>
      obtain ⟨hisava, hreads, -⟩ := scanAva_eq_ok_iff.mp hava
      rw [hreads.rest]
      exact .later hisava hb (ih (map_eq_error_iff.mp h))
  · generalize htext : c.rest = text at h
    induction h generalizing c with
    | here hbreaks => exact scanRdns_of_error (scanAva_tooComplex_iff.mpr (htext ▸ hbreaks))
    | later hisava hb _ ih =>
      obtain ⟨d, hd, heq⟩ := scanRdns_more hisava hb htext
      exact heq ▸ map_eq_error_iff.mpr (ih hd)

/-- What is not read is too complex or an error within the text. Behind an assertion there is always
a separator, or the end. -/
theorem fault_of_scanRdns {c : Cursor} {e : Stop} (h : scanRdns c = .error e) :
    e = .tooComplex ∨ e.IsFault c.stop := by
  fun_induction scanRdns c with
  | case1 c e' hava =>
    cases h
    exact fault_of_scanAva hava
  | case2 => cases h
  | case3 c ava pos b s hava hb ih =>
    have hreads := (reads_ava hava).append (reads_one (rfl : Cursor.rest ⟨pos, b :: s⟩ = b :: s))
    exact hreads.stop_eq ▸ ih (map_eq_error_iff.mp h)
  | case4 c ava pos b s hava hb =>
    obtain ⟨-, -, hend⟩ := scanAva_eq_ok_iff.mp hava
    exact absurd (forall_head_cons.mp hend) hb

/-! ### Texts -/

theorem not_areSpaces {s : Bytes} {b : UInt8} (hmem : b ∈ s) (hb : isSpace b = false) :
    ¬ AreSpaces s := by
  intro h
  rw [h b hmem] at hb
  cases hb

theorem IsAva.equals_mem {ava : Ava} (h : IsAva ava) : 61 ∈ ava.rawText := by
  obtain ⟨lead, gap, before, after, -, -, -, -, htext⟩ := h.text
  have hsign : 61 ∈ ascii "=" := List.mem_singleton.mpr rfl
  rw [htext]
  simp only [List.mem_append, hsign, or_true, true_or]

theorem AreRdns.not_areSpaces {text : Bytes} {rdns : List Rdn} (h : AreRdns text rdns) :
    ¬ AreSpaces text := by
  cases h with
  | last hava => exact Dn.not_areSpaces hava.equals_mem rfl
  | more hava _ _ => exact Dn.not_areSpaces (List.mem_append_left _ hava.equals_mem) rfl

theorem IsTooComplex.not_areSpaces {text : Bytes} (h : IsTooComplex text) : ¬ AreSpaces text := by
  cases h with
  | later hava _ _ => exact Dn.not_areSpaces (List.mem_append_left _ hava.equals_mem) rfl
  | here hbreaks =>
    cases hbreaks with
    | word _ _ => exact Dn.not_areSpaces (b := 46) (by simp [ascii]) rfl
    | value _ _ _ _ _ => exact Dn.not_areSpaces (b := 61) (by simp [ascii]) rfl

theorem scan_of_areSpaces {text : Bytes} (h : AreSpaces text) :
    scan text = .ok (true, ⟨[], text⟩) :=
  if_pos (List.all_eq_true.mpr h)

theorem scan_of_not_areSpaces {text : Bytes} (h : ¬ AreSpaces text) :
    scan text =
      match scanRdns ⟨0, text⟩ with
      | .ok rdns => .ok (true, ⟨rdns, text⟩)
      | .error .tooComplex => .ok (false, ⟨[], text⟩)
      | .error (.name e) => .error (.name e)
      | .error (.identifier e) => .error (.identifier e) :=
  if_neg fun hall => h (List.all_eq_true.mp hall)

theorem scan_eq_simple_iff {text : Bytes} {dn : Dn} :
    scan text = .ok (true, dn) ↔ dn.given = text ∧ IsName text dn.rdns := by
  obtain ⟨rdns, given⟩ := dn
  by_cases hspaces : AreSpaces text
  · have hnone : ¬ AreRdns text rdns := fun h => h.not_areSpaces hspaces
    rw [scan_of_areSpaces hspaces]
    simp only [IsName, hspaces, hnone, Except.ok.injEq, Prod.mk.injEq, Dn.mk.injEq, true_and,
      or_false]
    rw [and_comm, eq_comm (a := text), eq_comm (a := [])]
  · have hread : scanRdns ⟨0, text⟩ = .ok rdns ↔ AreRdns text rdns := scanRdns_eq_ok_iff
    rw [scan_of_not_areSpaces hspaces]
    simp only [IsName, hspaces, false_and, false_or, ← hread]
    split <;> simp [*, and_comm, eq_comm]

theorem scan_eq_complex_iff {text : Bytes} {dn : Dn} :
    scan text = .ok (false, dn) ↔ dn = ⟨[], text⟩ ∧ IsTooComplex text := by
  by_cases hspaces : AreSpaces text
  · have hsimple : ¬ IsTooComplex text := fun h => h.not_areSpaces hspaces
    simp [scan_of_areSpaces hspaces, hsimple]
  · have hread : scanRdns ⟨0, text⟩ = .error .tooComplex ↔ IsTooComplex text :=
      scanRdns_tooComplex_iff
    rw [scan_of_not_areSpaces hspaces, ← hread]
    split <;> simp [*, eq_comm]

/-- A refusal is an error of the name, at a place in the text, and never a missing separator. -/
theorem fault_of_scan {text : Bytes} {failure : DnFailure} (h : scan text = .error failure) :
    ∃ e, failure = .name e ∧ e.pos ≤ text.length ∧ ∀ b p, e ≠ .expectedSeparator b p := by
  by_cases hspaces : AreSpaces text
  · rw [scan_of_areSpaces hspaces] at h
    cases h
  · rw [scan_of_not_areSpaces hspaces] at h
    have hstop : Cursor.stop ⟨0, text⟩ = text.length := Nat.zero_add _
    split at h
    · cases h
    · cases h
    · next e he =>
      obtain hcomplex | ⟨hpos, hseparator⟩ := fault_of_scanRdns he
      · cases hcomplex
      · exact ⟨e, (Except.error.inj h).symm, hstop ▸ hpos, hseparator⟩
    · next e he =>
      obtain hcomplex | hfault := fault_of_scanRdns he
      · cases hcomplex
      · cases hfault

/-- **The reader decides its grammar.** A text is read if it is a name, with the relative names that
it stands for. It is left to a reader of the full syntax, with no relative names, if it begins with
assertions and goes on with something that is not simple. Every other text is an error of the name,
at a place in the text; an identifier that has been accepted as a type is never refused later. -/
theorem scan_decides (text : Bytes) :
    (∀ dn, scan text = .ok (true, dn) ↔ dn.given = text ∧ IsName text dn.rdns) ∧
    (∀ dn, scan text = .ok (false, dn) ↔ dn = ⟨[], text⟩ ∧ IsTooComplex text) ∧
    ((∃ e : DnError, scan text = .error (.name e) ∧ e.pos ≤ text.length) ↔
      (∀ rdns, ¬ IsName text rdns) ∧ ¬ IsTooComplex text) ∧
    ∀ e, scan text ≠ .error (.identifier e) := by
  refine ⟨fun dn => scan_eq_simple_iff, fun dn => scan_eq_complex_iff,
    ⟨fun h => ?_, fun h => ?_⟩, fun e h => ?_⟩
  · obtain ⟨e, he, -⟩ := h
    refine ⟨fun rdns hname => ?_, fun hcomplex => ?_⟩
    · have hread : scan text = .ok (true, ⟨rdns, text⟩) := scan_eq_simple_iff.mpr ⟨rfl, hname⟩
      cases he.symm.trans hread
    · cases he.symm.trans (scan_eq_complex_iff.mpr ⟨rfl, hcomplex⟩)
  · obtain ⟨hname, hcomplex⟩ := h
    match hscan : scan text with
    | .ok (true, dn) => exact absurd (scan_eq_simple_iff.mp hscan).2 (hname dn.rdns)
    | .ok (false, dn) => exact absurd (scan_eq_complex_iff.mp hscan).2 hcomplex
    | .error failure =>
      obtain ⟨e, rfl, hpos, -⟩ := fault_of_scan hscan
      exact ⟨e, rfl, hpos⟩
  · obtain ⟨_, hname, -⟩ := fault_of_scan h
    cases hname

-- Of two things that are not simple, the first decides.
example : scan (ascii "cn=a+sn=b,=c") = .ok (false, ⟨[], ascii "cn=a+sn=b,=c"⟩) := by
  decide +kernel

example : scan (ascii "=c,cn=a+sn=b") = .error (.name (.typeStart 61 0)) := by decide +kernel

end LdapBer.Dn
