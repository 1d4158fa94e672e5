import LdapBer.Proofs.Dn.Accepts

/-! The normal form of names.

The normal form of a name is made of the types as they are compared and of the values, a pair for
each relative name (`normalized_eq`). It is a name again, of the same pairs
(`exists_scan_normalized`), so the pairs can be read back from it: two names have the same normal
form exactly if they have the same pairs (`normalized_canonical`). -/
namespace LdapBer.Dn

/-! ### Small letters -/

/-- A byte that is changed was a letter and is a small one now. -/
theorem lowercase_cases (b : UInt8) :
    lowercase b = b ∨
      isAlpha b = true ∧ isAlpha (lowercase b) = true ∧ lowercase (lowercase b) = lowercase b := by
  by_cases hb : (65 ≤ b && b ≤ 90) = true
  · obtain ⟨hlow, hhigh⟩ := isCapital_iff.mp hb
    have hsmall : lowercase b = b + 32 := if_pos hb
    have hvalue : (b + 32).toNat = b.toNat + 32 := by
      rw [UInt8.toNat_add]
      have h32 : (32 : UInt8).toNat = 32 := rfl
      omega
    have hkept : ¬ (65 ≤ b + 32 && b + 32 ≤ 90) = true := by
      rw [isCapital_iff, hvalue]
      omega
    rw [hsmall, isAlpha_iff, isAlpha_iff, hvalue]
    exact .inr ⟨.inl ⟨hlow, hhigh⟩, .inr (by omega), if_neg hkept⟩
  · exact .inl (if_neg hb)

theorem isAlpha_lowercase (b : UInt8) : isAlpha (lowercase b) = isAlpha b := by
  obtain hsame | ⟨hbefore, hafter, -⟩ := lowercase_cases b
  · rw [hsame]
  · rw [hbefore, hafter]

theorem isWordPart_lowercase (b : UInt8) : isWordPart (lowercase b) = isWordPart b := by
  obtain hsame | ⟨hbefore, hafter, -⟩ := lowercase_cases b
  · rw [hsame]
  · rw [isWordPart, isWordPart, hbefore, hafter]
    rfl

theorem lowercase_lowercase (b : UInt8) : lowercase (lowercase b) = lowercase b := by
  obtain hsame | ⟨-, -, hstable⟩ := lowercase_cases b
  · rw [hsame, hsame]
  · exact hstable

theorem IsWord.map_lowercase {s : Bytes} (h : IsWord s) : IsWord (s.map lowercase) := by
  obtain ⟨b, hb, halpha⟩ := h.first
  refine ⟨⟨lowercase b, ?_, (isAlpha_lowercase b).trans halpha⟩,
    List.forall_mem_map.mpr fun c hc => ?_⟩
  · rw [List.head?_map, Option.mem_def.mp hb]
    rfl
  · rw [isWordPart_lowercase, h.parts c hc]

theorem IsType.map_lowercase {s : Bytes} (h : IsType s) : IsType (s.map lowercase) := by
  obtain hword | hoid := h
  · exact .inl hword.map_lowercase
  · exact .inr (hoid.map_lowercase.symm ▸ hoid)

/-! ### Pairs -/

/-- A word in small letters, or an identifier. -/
def foldedType (type : Bytes) : Bytes :=
  if type.head?.any isDigit then type else type.map lowercase

/-- The pairs that the normal form of a name is made of. -/
def normalPairs (dn : Dn) : List (Bytes × Bytes) :=
  dn.rdns.flatMap fun rdn => rdn.avas.map fun ava => (ava.normalizedType, ava.normalizedValue)

/-- What tells names apart, whatever the spaces, the separators and the letter case of types. -/
def foldedPairs (dn : Dn) : List (Bytes × Bytes) :=
  dn.rdns.flatMap fun rdn => rdn.avas.map fun ava => (foldedType ava.type, ava.rawValue)

theorem IsType.foldedType_eq {s : Bytes} (h : IsType s) : foldedType s = s.map lowercase := by
  unfold foldedType
  obtain hword | hoid := h
  · obtain ⟨b, t, rfl, hb⟩ := hword.exists_cons
    exact if_neg (by simp [isDigit_of_isAlpha hb])
  · rw [hoid.map_lowercase, ite_self]

/-- The assertion that the normal form has for one. -/
def normalAva (ava : Ava) : Ava :=
  ⟨ava.normalizedType, ava.normalizedType, ava.normalizedValue, ava.normalizedValue,
    normalizedAva ava⟩

theorem IsAva.normalAva {ava : Ava} (h : IsAva ava) : IsAva (Dn.normalAva ava) where
  type := by
    rw [Dn.normalAva, h.normalType]
    exact h.type.map_lowercase
  value := by
    rw [Dn.normalAva, h.normalValue]
    exact h.value
  text := ⟨[], [], [], [], nofun, nofun, nofun, nofun, by simp [Dn.normalAva, normalizedAva]⟩
  normalType := by
    simp only [Dn.normalAva, h.normalType, List.map_map, Function.comp_def, lowercase_lowercase]
  normalValue := rfl

/-! ### Names as rows of assertions -/

/-- The relative names have one assertion each, those of the row. -/
def AreSingle (rdns : List Rdn) (avas : List Ava) : Prop :=
  rdns.map Rdn.avas = avas.map ([·])

section Rows
variable {text given : Bytes} {rdns : List Rdn} {avas : List Ava}

theorem IsName.exists_avas (h : IsName text rdns) :
    ∃ avas, AreSingle rdns avas ∧ ∀ ava ∈ avas, IsAva ava := by
  obtain ⟨-, rfl⟩ | hrdns := h
  · exact ⟨[], rfl, nofun⟩
  · induction hrdns with
    | @last ava hava => exact ⟨[ava], rfl, List.forall_mem_singleton.mpr hava⟩
    | @more ava _ _ _ hava _ _ ih =>
      obtain ⟨avas, hrdns, havas⟩ := ih
      exact ⟨ava :: avas, congrArg _ hrdns, List.forall_mem_cons.mpr ⟨hava, havas⟩⟩

/-- Assertions with commas between them are a name. -/
theorem isName_intercalate (h : ∀ ava ∈ avas, IsAva ava) :
    ∃ rdns, IsName ((ascii ",").intercalate (avas.map Ava.rawText)) rdns ∧ AreSingle rdns avas := by
  induction avas with
  | nil => exact ⟨[], .inl ⟨nofun, rfl⟩, rfl⟩
  | cons ava avas ih =>
    obtain ⟨hava, havas⟩ := List.forall_mem_cons.mp h
    obtain ⟨rdns, hname, hrdns⟩ := ih havas
    cases avas with
    | nil =>
      rw [List.map_singleton, List.intercalate_singleton]
      exact ⟨_, .inr (.last hava), rfl⟩
    | cons next avas =>
      obtain ⟨-, rfl⟩ | hrest := hname
      · cases hrdns
      · rw [List.map_cons, List.map_cons, List.intercalate_cons_cons, List.append_assoc]
        exact ⟨_, .inr (.more hava rfl hrest), congrArg _ hrdns⟩

theorem AreSingle.flatMap_eq {α : Type} (h : AreSingle rdns avas) (f : Ava → α) :
    (rdns.flatMap fun rdn => rdn.avas.map f) = avas.map f := by
  calc (rdns.flatMap fun rdn => rdn.avas.map f)
      = (rdns.map Rdn.avas).flatMap (List.map f) := (List.flatMap_map ..).symm
    _ = (avas.map ([·])).flatMap (List.map f) := by rw [h]
    _ = avas.flatMap fun ava => [f ava] := List.flatMap_map ..
    _ = avas.map f := List.map_eq_flatMap.symm

theorem AreSingle.length_eq (h : AreSingle rdns avas) : rdns.length = avas.length := by
  have hlength := congrArg List.length h
  rwa [List.length_map, List.length_map] at hlength

theorem AreSingle.normalized_eq (h : AreSingle rdns avas) :
    normalized ⟨rdns, given⟩ = (ascii ",").intercalate (avas.map normalizedAva) := by
  have hparts := congrArg (List.map fun avas => (ascii "+").intercalate (avas.map normalizedAva)) h
  simp only [List.map_map, Function.comp_def, List.map_singleton, List.intercalate_singleton]
    at hparts
  exact congrArg _ hparts

end Rows

/-! ### The normal form -/

theorem folded_eq_normal {text given : Bytes} {rdns : List Rdn} (h : IsName text rdns) :
    foldedPairs ⟨rdns, given⟩ = normalPairs ⟨rdns, given⟩ := by
  obtain ⟨avas, hsingle, havas⟩ := h.exists_avas
  have hpairs : ∀ ava ∈ avas, (foldedType ava.type, ava.rawValue) =
      (ava.normalizedType, ava.normalizedValue) := by
    intro ava hava
    have hisava := havas ava hava
    rw [hisava.normalType, hisava.normalValue, hisava.type.foldedType_eq]
  rw [foldedPairs, normalPairs, hsingle.flatMap_eq, hsingle.flatMap_eq,
    List.map_inj_left.mpr hpairs]

/-- The normal form is put together from the pairs alone. -/
theorem normalized_eq {text : Bytes} {dn : Dn} (h : IsName text dn.rdns) :
    dn.normalized =
      (ascii ",").intercalate ((normalPairs dn).map fun pair => pair.1 ++ ascii "=" ++ pair.2) := by
  obtain ⟨avas, hsingle, -⟩ := h.exists_avas
  rw [normalPairs, hsingle.flatMap_eq, List.map_map]
  exact hsingle.normalized_eq

/-- The normal form of a name is a name, which has as many relative names and the same pairs. -/
theorem exists_scan_normalized {text : Bytes} {dn : Dn} (h : scan text = .ok (true, dn)) :
    ∃ again, scan dn.normalized = .ok (true, again) ∧ again.rdns.length = dn.rdns.length ∧
      normalPairs again = normalPairs dn ∧ again.normalized = dn.normalized := by
  obtain ⟨-, hname⟩ := scan_eq_simple_iff.mp h
  obtain ⟨avas, hsingle, havas⟩ := hname.exists_avas
  obtain ⟨rdns, hagain, hrdns⟩ :=
    isName_intercalate (List.forall_mem_map.mpr fun ava hava => (havas ava hava).normalAva)
  have htext : (ascii ",").intercalate ((avas.map normalAva).map Ava.rawText) = dn.normalized := by
    rw [List.map_map]
    exact hsingle.normalized_eq.symm
  have hpairs : normalPairs ⟨rdns, dn.normalized⟩ = normalPairs dn := by
    rw [normalPairs, normalPairs, hrdns.flatMap_eq, hsingle.flatMap_eq, List.map_map]
    rfl
  have hlength : rdns.length = dn.rdns.length := by
    rw [hrdns.length_eq, hsingle.length_eq, List.length_map]
  rw [htext] at hagain
  have hform : normalized ⟨rdns, dn.normalized⟩ = dn.normalized := by
    refine (normalized_eq hagain).trans ?_
    rw [hpairs, ← normalized_eq hname]
  exact ⟨⟨rdns, dn.normalized⟩, scan_eq_simple_iff.mpr ⟨rfl, hagain⟩, hlength, hpairs, hform⟩

/-- **The normal form tells names apart.** The normal form of a name is read again, as a name of as
many relative names with the same normal types and values, which has the same normal form. Two
names have the same normal form exactly if they have the same types, in small letters where they are
words, and the same values. -/
theorem normalized_canonical {text : Bytes} {dn : Dn} (h : scan text = .ok (true, dn)) :
    (∃ again, scan dn.normalized = .ok (true, again) ∧ again.rdns.length = dn.rdns.length ∧
      normalPairs again = normalPairs dn ∧ again.normalized = dn.normalized) ∧
    ∀ text' dn', scan text' = .ok (true, dn') →
      (dn.normalized = dn'.normalized ↔ foldedPairs dn = foldedPairs dn') := by
  refine ⟨exists_scan_normalized h, fun text' dn' h' => ?_⟩
  obtain ⟨-, hname⟩ := scan_eq_simple_iff.mp h
  obtain ⟨-, hname'⟩ := scan_eq_simple_iff.mp h'
  rw [folded_eq_normal hname, folded_eq_normal hname']
  refine ⟨fun hsame => ?_, fun hpairs => ?_⟩
  · -- The pairs of either name are what is read from the one text.
    obtain ⟨again, hread, -, hpairs, -⟩ := exists_scan_normalized h
    obtain ⟨again', hread', -, hpairs', -⟩ := exists_scan_normalized h'
    rw [hsame, hread'] at hread
    obtain rfl : again' = again := (Prod.mk.inj (Except.ok.inj hread)).2
    rw [← hpairs, hpairs']
  · rw [normalized_eq hname, normalized_eq hname', hpairs]

/-- Two texts for a name, one of whose values has a sign in it and the other of which is empty. -/
theorem normalized_canonical_spaces :
    let text := ascii " CN = a=b  c ;2.5.4.3="
    let text' := ascii "cn=a=b  c, 2.5.4.3 = "
    let dn : Dn := ⟨[
      ⟨[⟨ascii "CN", ascii "cn", ascii "a=b  c", ascii "a=b  c", ascii " CN = a=b  c "⟩],
        ascii " CN = a=b  c ", some 59⟩,
      ⟨[⟨ascii "2.5.4.3", ascii "2.5.4.3", [], [], ascii "2.5.4.3="⟩],
        ascii "2.5.4.3=", none⟩], text⟩
    let dn' : Dn := ⟨[
      ⟨[⟨ascii "cn", ascii "cn", ascii "a=b  c", ascii "a=b  c", ascii "cn=a=b  c"⟩],
        ascii "cn=a=b  c", some 44⟩,
      ⟨[⟨ascii "2.5.4.3", ascii "2.5.4.3", [], [], ascii " 2.5.4.3 = "⟩],
        ascii " 2.5.4.3 = ", none⟩], text'⟩
    scan text = .ok (true, dn) ∧ scan text' = .ok (true, dn') ∧
      (∃ again, scan dn.normalized = .ok (true, again) ∧ again.rdns.length = 2 ∧
        normalPairs again = normalPairs dn ∧ again.normalized = dn.normalized) ∧
      (dn.normalized = dn'.normalized ↔ foldedPairs dn = foldedPairs dn') := by
  intro text text' dn dn'
  have h : scan text = .ok (true, dn) := by decide +kernel
  have h' : scan text' = .ok (true, dn') := by decide +kernel
  obtain ⟨hagain, hequal⟩ := normalized_canonical h
  exact ⟨h, h', hagain, hequal text' dn' h'⟩

end LdapBer.Dn
