import Mathlib.Data.List.Induction
import LdapBer.Failure
import LdapBer.Oid.Dotted

/-! Identifiers in dotted text.

The text of an identifier is a row of groups of digits with a dot between any two (`IsDotted`).
Reading goes from digit to digit and asks before each whether the arc has room for it; a row of
groups is read if every group stands for a number of 64 bits (`readArcs_intercalate`). Writing makes
the groups that have no needless zeros in front (`decimal_ofDigits`), from which the identifier is
read again (`ofText_inverts_toText`). -/
namespace LdapBer.Oid

/-! ### Groups of digits -/

structure IsDigits (g : Bytes) : Prop where
  ne_nil : g ≠ []
  digits : ∀ c ∈ g, isDigit c = true

/-- Groups of digits, separated by single dots. -/
structure IsDotted (gs : List Bytes) (s : Bytes) : Prop where
  text : s = (ascii ".").intercalate gs
  groups : ∀ g ∈ gs, IsDigits g

/-- The digits from the first that is not zero on. A zero that stands last is kept. -/
def withoutLeadingZeros : Bytes → Bytes
  | [] => []
  | [c] => [c]
  | c :: d :: s => if c = 48 then withoutLeadingZeros (d :: s) else c :: d :: s

theorem digitValue_lt {c : UInt8} (h : isDigit c = true) : digitValue c < 10 := by
  rw [isDigit_iff] at h
  unfold digitValue
  omega

theorem ofDigits_concat (s : Bytes) (c : UInt8) :
    ofDigits (s ++ [c]) = ofDigits s * 10 + digitValue c := by
  simp [ofDigits]

theorem digitValue_toUInt8 {d : Nat} (h : d < 10) : digitValue (48 + d).toUInt8 = d := by
  rw [digitValue, UInt8.toNat_ofNat']
  omega

theorem isDigit_toUInt8 {d : Nat} (h : d < 10) : isDigit (48 + d).toUInt8 = true := by
  rw [isDigit_iff, UInt8.toNat_ofNat']
  omega

theorem toUInt8_digitValue {c : UInt8} (h : isDigit c = true) :
    (48 + digitValue c).toUInt8 = c := by
  rw [isDigit_iff] at h
  apply UInt8.toNat_inj.mp
  rw [UInt8.toNat_ofNat', digitValue]
  omega

/-! ### Writing -/

theorem decimal_of_lt {n : Nat} (h : n < 10) : decimal n = [(48 + n).toUInt8] := by
  rw [decimal, if_pos h]

theorem decimal_of_le {n : Nat} (h : 10 ≤ n) :
    decimal n = decimal (n / 10) ++ [(48 + n % 10).toUInt8] := by
  rw [decimal, if_neg (Nat.not_lt.mpr h)]

theorem isDigits_decimal (n : Nat) : IsDigits (decimal n) := by
  induction n using Nat.strongRecOn with
  | ind n ih =>
    by_cases hn : n < 10
    · rw [decimal_of_lt hn]
      exact ⟨nofun, List.forall_mem_singleton.mpr (isDigit_toUInt8 hn)⟩
    · rw [decimal_of_le (by omega)]
      have hlast := isDigit_toUInt8 (Nat.mod_lt n (by decide : 0 < 10))
      exact ⟨by simp, List.forall_mem_append.mpr
        ⟨(ih (n / 10) (by omega)).digits, List.forall_mem_singleton.mpr hlast⟩⟩

theorem ofDigits_decimal (n : Nat) : ofDigits (decimal n) = n := by
  induction n using Nat.strongRecOn with
  | ind n ih =>
    by_cases hn : n < 10
    · rw [decimal_of_lt hn, ← List.nil_append [_], ofDigits_concat, digitValue_toUInt8 hn]
      exact Nat.zero_add n
    · rw [decimal_of_le (by omega), ofDigits_concat, ih (n / 10) (by omega),
        digitValue_toUInt8 (Nat.mod_lt n (by decide))]
      omega

/-- A group without needless zeros is what is written for its number. -/
theorem IsDigits.decimal_of_head {g : Bytes} (hg : IsDigits g)
    (hhead : g.head? = some 48 → g = [48]) : decimal (ofDigits g) = g := by
  induction g using List.reverseRecOn with
  | nil => exact absurd rfl hg.ne_nil
  | append_singleton lead c ih =>
    obtain ⟨hlead, hlast⟩ := List.forall_mem_append.mp hg.digits
    have hc : isDigit c = true := hlast c List.mem_cons_self
    have hdigit := digitValue_lt hc
    rw [ofDigits_concat]
    by_cases hnil : lead = []
    · subst hnil
      have hzero : ofDigits [] = 0 := rfl
      rw [hzero, Nat.zero_mul, Nat.zero_add, decimal_of_lt hdigit, toUInt8_digitValue hc]
      rfl
    · have hne : lead.head? ≠ some 48 := by
        intro h
        have hsingle : lead ++ [c] = [48] := hhead (by rw [List.head?_append, h]; rfl)
        exact hnil (List.append_eq_singleton_iff.mp hsingle |>.elim And.left nofun)
      have hfront := ih ⟨hnil, hlead⟩ fun h => absurd h hne
      have hpos : ofDigits lead ≠ 0 := by
        intro hzero
        rw [hzero, decimal_of_lt (by decide)] at hfront
        exact hne (by rw [← hfront]; rfl)
      have hdiv : (ofDigits lead * 10 + digitValue c) / 10 = ofDigits lead := by omega
      have hmod : (ofDigits lead * 10 + digitValue c) % 10 = digitValue c := by omega
      rw [decimal_of_le (by omega), hdiv, hmod, hfront, toUInt8_digitValue hc]

theorem ofDigits_zero_cons (s : Bytes) : ofDigits (48 :: s) = ofDigits s := rfl

theorem withoutLeadingZeros_spec {g : Bytes} (hg : IsDigits g) :
    IsDigits (withoutLeadingZeros g) ∧ ofDigits (withoutLeadingZeros g) = ofDigits g ∧
      ((withoutLeadingZeros g).head? = some 48 → withoutLeadingZeros g = [48]) := by
  fun_induction withoutLeadingZeros g with
  | case1 => exact absurd rfl hg.ne_nil
  | case2 c =>
    refine ⟨hg, rfl, fun h => ?_⟩
    rw [Option.some.inj h]
  | case3 d s ih =>
    have hrest : IsDigits (d :: s) := ⟨nofun, (List.forall_mem_cons.mp hg.digits).2⟩
    obtain ⟨hdigits, hvalue, hhead⟩ := ih hrest
    exact ⟨hdigits, hvalue.trans (ofDigits_zero_cons _).symm, hhead⟩
  | case4 c d s hc => exact ⟨hg, rfl, fun h => absurd (Option.some.inj h) hc⟩

theorem decimal_ofDigits {g : Bytes} (hg : IsDigits g) :
    decimal (ofDigits g) = withoutLeadingZeros g := by
  obtain ⟨hdigits, hvalue, hhead⟩ := withoutLeadingZeros_spec hg
  rw [← hvalue, hdigits.decimal_of_head hhead]

/-- A group without needless zeros is left as it is. -/
theorem IsDigits.withoutLeadingZeros_of_head {g : Bytes} (hg : IsDigits g)
    (hhead : g.head? = some 48 → g = [48]) : withoutLeadingZeros g = g :=
  (decimal_ofDigits hg).symm.trans (hg.decimal_of_head hhead)

/-! ### Reading -/

/-- Digits are taken while the arc has room for them, that is if there is room for the number that
they make of it. -/
theorem readArcs_digits {g : Bytes} (hg : ∀ c ∈ g, isDigit c = true) {text s : Bytes} {n : Nat}
    {l : List Nat} (hn : n < 0x10000000000000000) :
    readArcs text (some n) (g ++ s) = .ok l ↔
      g.foldl (fun n c => n * 10 + digitValue c) n < 0x10000000000000000 ∧
        readArcs text (some (g.foldl (fun n c => n * 10 + digitValue c) n)) s = .ok l := by
  induction g generalizing n with
  | nil => simp [hn]
  | cons c g ih =>
    obtain ⟨hc, hg⟩ := List.forall_mem_cons.mp hg
    have hdigit := digitValue_lt hc
    rw [List.cons_append, readArcs, if_pos hc, List.foldl_cons]
    split
    · next hfull =>
      have hle := le_foldl_digits (by decide : 0 < 10) digitValue g (n * 10 + digitValue c)
      simp only [reduceCtorEq, false_iff, not_and]
      intro hlt
      omega
    · exact ih hg (by omega)

theorem IsDigits.readArcs_append {g : Bytes} (hg : IsDigits g) {text s : Bytes} {l : List Nat} :
    readArcs text none (g ++ s) = .ok l ↔
      ofDigits g < 0x10000000000000000 ∧ readArcs text (some (ofDigits g)) s = .ok l := by
  obtain ⟨c, g, rfl⟩ := List.exists_cons_of_ne_nil hg.ne_nil
  obtain ⟨hc, hdigits⟩ := List.forall_mem_cons.mp hg.digits
  have hfirst : ofDigits (c :: g) = g.foldl (fun n c => n * 10 + digitValue c) (digitValue c) := by
    rw [ofDigits, List.foldl_cons, Nat.zero_mul, Nat.zero_add]
  have hlt := digitValue_lt hc
  rw [List.cons_append, readArcs, if_pos hc, hfirst]
  exact readArcs_digits hdigits (by omega)

theorem readArcs_intercalate {gs : List Bytes} (hne : gs ≠ []) (h : ∀ g ∈ gs, IsDigits g)
    {text : Bytes} {l : List Nat} :
    readArcs text none ((ascii ".").intercalate gs) = .ok l ↔
      (∀ g ∈ gs, ofDigits g < 0x10000000000000000) ∧ l = gs.map ofDigits := by
  induction gs generalizing l with
  | nil => exact absurd rfl hne
  | cons g gs ih =>
    obtain ⟨hg, hgs⟩ := List.forall_mem_cons.mp h
    cases gs with
    | nil =>
      rw [List.intercalate_singleton, ← List.append_nil g, hg.readArcs_append, List.append_nil]
      simp [readArcs, eq_comm]
    | cons g' gs =>
      have hdot :
          readArcs text (some (ofDigits g)) (ascii "." ++ (ascii ".").intercalate (g' :: gs)) =
            (ofDigits g :: ·) <$> readArcs text none ((ascii ".").intercalate (g' :: gs)) := rfl
      rw [List.intercalate_cons_cons, List.append_assoc, hg.readArcs_append, hdot, map_eq_ok_iff,
        List.forall_mem_cons, List.map_cons, and_assoc]
      simp only [ih nofun hgs]
      refine and_congr_right fun _ => ⟨fun h => ?_, fun h => ?_⟩
      · obtain ⟨rest, ⟨hrest, rfl⟩, rfl⟩ := h
        exact ⟨hrest, rfl⟩
      · obtain ⟨hrest, rfl⟩ := h
        exact ⟨_, ⟨hrest, rfl⟩, rfl⟩

theorem intercalate_cons (c : UInt8) (sep g : Bytes) (gs : List Bytes) :
    sep.intercalate ((c :: g) :: gs) = c :: sep.intercalate (g :: gs) := by
  cases gs <;> simp [List.intercalate_cons_cons]

/-- What is read is a row of groups, the first of which goes on from the digits of `arc`. -/
theorem groups_of_readArcs {text s : Bytes} {arc : Option Nat} {l : List Nat}
    (h : readArcs text arc s = .ok l) :
    ∃ g gs, s = (ascii ".").intercalate (g :: gs) ∧ (∀ c ∈ g, isDigit c = true) ∧
      (arc = none → g ≠ []) ∧ ∀ g ∈ gs, IsDigits g := by
  fun_induction readArcs text arc s generalizing l with
  | case1 | case4 | case5 | case6 | case9 => cases h
  | case2 arc => exact ⟨[], [], rfl, nofun, nofun, nofun⟩
  | case3 c s hc ih =>
    obtain ⟨g, gs, rfl, hg, -, hgs⟩ := ih h
    exact ⟨c :: g, gs, (intercalate_cons c _ g gs).symm, List.forall_mem_cons.mpr ⟨hc, hg⟩, nofun,
      hgs⟩
  | case7 arc c s hc _ ih =>
    obtain ⟨g, gs, rfl, hg, -, hgs⟩ := ih h
    exact ⟨c :: g, gs, (intercalate_cons c _ g gs).symm, List.forall_mem_cons.mpr ⟨hc, hg⟩, nofun,
      hgs⟩
  | case8 arc s _ ih =>
    obtain ⟨rest, hrest, rfl⟩ := map_eq_ok_iff.mp h
    obtain ⟨g, gs, rfl, hg, hne, hgs⟩ := ih hrest
    exact ⟨[], g :: gs, rfl, nofun, nofun, List.forall_mem_cons.mpr ⟨⟨hne rfl, hg⟩, hgs⟩⟩

/-- The arcs of a text are the numbers of its groups, which are the arcs' own if they have 64
bits. -/
theorem readArcs_eq_ok_iff {text s : Bytes} {l : List Nat} :
    readArcs text none s = .ok l ↔
      ∃ gs, gs ≠ [] ∧ IsDotted gs s ∧ (∀ g ∈ gs, ofDigits g < 0x10000000000000000) ∧
        l = gs.map ofDigits := by
  refine ⟨fun h => ?_, fun h => ?_⟩
  · obtain ⟨g, gs, rfl, hg, hne, hgs⟩ := groups_of_readArcs h
    have hgroups : ∀ g' ∈ g :: gs, IsDigits g' := List.forall_mem_cons.mpr ⟨⟨hne rfl, hg⟩, hgs⟩
    exact ⟨g :: gs, List.cons_ne_nil g gs, ⟨rfl, hgroups⟩,
      (readArcs_intercalate (List.cons_ne_nil g gs) hgroups).mp h⟩
  · obtain ⟨gs, hne, ⟨rfl, hgroups⟩, hvalues⟩ := h
    exact (readArcs_intercalate hne hgroups).mpr hvalues

/-! ### Identifiers -/

/-- Where the numbers of the groups of an identifier have to lie. -/
def ArcsInRange : List Bytes → Prop
  | first :: second :: rest =>
    ofDigits first ≤ 2 ∧ (ofDigits first < 2 → ofDigits second ≤ 39) ∧
      (ofDigits first = 2 → ofDigits second ≤ 0xFFFFFFFFFFFFFFAF) ∧
      ∀ g ∈ first :: second :: rest, ofDigits g < 0x10000000000000000
  | _ => False

theorem arcsInRange_iff {gs : List Bytes} : ArcsInRange gs ↔ Admissible (gs.map ofDigits) := by
  match gs with
  | [] | [_] => exact Iff.rfl
  | first :: second :: rest =>
    simp only [ArcsInRange, Admissible, List.map_cons, List.forall_mem_cons, List.forall_mem_map]
    refine ⟨fun h => ?_, fun h => ?_⟩
    · obtain ⟨hfirst, hunder, hsecond, -, -, hrest⟩ := h
      exact ⟨hfirst, hunder, by omega, hrest⟩
    · obtain ⟨hfirst, hunder, hsecond, hrest⟩ := h
      exact ⟨hfirst, hunder, fun _ => hsecond, by omega, by omega, hrest⟩

theorem lt_of_mem_arcs (o : Oid) : ∀ a ∈ o.arcs, a < 0x10000000000000000 := by
  obtain ⟨arcs, h⟩ := o
  match arcs, h with
  | first :: second :: rest, h =>
    obtain ⟨hfirst, -, hsecond, hrest⟩ := h
    simp only [List.forall_mem_cons]
    exact ⟨by omega, by omega, hrest⟩

theorem arcs_ne_nil (o : Oid) : o.arcs ≠ [] := by
  intro h
  have hadmissible := o.admissible
  rw [h] at hadmissible
  exact hadmissible

/-- An identifier is read if its arcs are. -/
theorem ofText_eq_ok_iff {s : Bytes} {o : Oid} :
    ofText s = .ok o ↔ readArcs s none s = .ok o.arcs := by
  have hadmissible := o.admissible
  unfold ofText
  split
  · next hempty =>
    obtain rfl := List.isEmpty_iff.mp hempty
    simp [readArcs]
  · split
    · next he => simp [he]
    · next arcs harcs =>
      rw [harcs]
      split
      · refine ⟨fun h => ?_, fun h => ?_⟩
        · rw [← Except.ok.inj h]
        · obtain ⟨_, _⟩ := o
          obtain rfl := Except.ok.inj h
          rfl
      · next hnot =>
        simp only [reduceCtorEq, false_iff]
        intro h
        rw [← Except.ok.inj h] at hadmissible
        exact hnot hadmissible

theorem ofText_dotted_iff {s : Bytes} {o : Oid} :
    ofText s = .ok o ↔ ∃ gs, IsDotted gs s ∧ ArcsInRange gs ∧ o.arcs = gs.map ofDigits := by
  rw [ofText_eq_ok_iff, readArcs_eq_ok_iff]
  refine ⟨fun h => ?_, fun h => ?_⟩
  · obtain ⟨gs, -, hdotted, -, harcs⟩ := h
    exact ⟨gs, hdotted, arcsInRange_iff.mpr (harcs ▸ o.admissible), harcs⟩
  · obtain ⟨gs, hdotted, -, harcs⟩ := h
    refine ⟨gs, ?_, hdotted, ?_, harcs⟩
    · rintro rfl
      exact o.arcs_ne_nil harcs
    · rw [← List.forall_mem_map (P := (· < 0x10000000000000000)), ← harcs]
      exact o.lt_of_mem_arcs

theorem IsDotted.toText_eq {s : Bytes} {gs : List Bytes} {o : Oid} (h : IsDotted gs s)
    (harcs : o.arcs = gs.map ofDigits) :
    o.toText = (ascii ".").intercalate (gs.map withoutLeadingZeros) := by
  have hgroups : gs.map (fun g => decimal (ofDigits g)) = gs.map withoutLeadingZeros :=
    List.map_inj_left.mpr fun g hg => decimal_ofDigits (h.groups g hg)
  rw [toText, harcs, List.map_map, ← hgroups]
  rfl

/-- The text of an identifier without needless zeros is written again. -/
theorem toText_of_ofText {gs : List Bytes} {s : Bytes} {o : Oid} (h : IsDotted gs s)
    (hhead : ∀ g ∈ gs, g.head? = some 48 → g = [48]) (ho : ofText s = .ok o) : o.toText = s := by
  have hne : gs ≠ [] := by
    rintro rfl
    rw [h.text] at ho
    cases ho
  obtain ⟨-, harcs⟩ := (readArcs_intercalate hne h.groups).mp (h.text ▸ ofText_eq_ok_iff.mp ho)
  have hgroups : gs.map withoutLeadingZeros = gs.map id := List.map_inj_left.mpr fun g hg =>
    (h.groups g hg).withoutLeadingZeros_of_head (hhead g hg)
  rw [h.toText_eq harcs, hgroups, List.map_id, ← h.text]

theorem ofText_toText (o : Oid) : ofText o.toText = .ok o := by
  have hdotted : IsDotted (o.arcs.map decimal) o.toText :=
    ⟨rfl, List.forall_mem_map.mpr fun n _ => isDigits_decimal n⟩
  have hvalues : (o.arcs.map decimal).map ofDigits = o.arcs := by
    simp only [List.map_map, Function.comp_def, ofDigits_decimal, List.map_id_fun', id]
  exact ofText_dotted_iff.mpr
    ⟨_, hdotted, arcsInRange_iff.mpr (hvalues.symm ▸ o.admissible), hvalues.symm⟩

theorem isValid_iff {s : Bytes} : isValid s = true ↔ ∃ o, ofText s = .ok o := by
  unfold isValid
  cases ofText s <;> simp [Except.toOption]

/-- **Reading takes dotted groups of digits, and inverts writing.** A text is an identifier exactly
if it consists of groups of digits with single dots between them, of which there are two at least,
that stand for numbers of 64 bits, the first two within their bounds. These numbers are its arcs,
and its text is written with the needless zeros of each group left out. Every identifier is read
back from its text. -/
theorem ofText_inverts_toText :
    (∀ s : Bytes,
      (isValid s = true ↔ ∃ gs, IsDotted gs s ∧ ArcsInRange gs) ∧
      ((∃ o, ofText s = .ok o) ↔ ∃ gs, IsDotted gs s ∧ ArcsInRange gs) ∧
      ∀ o, ofText s = .ok o ↔
        ∃ gs, IsDotted gs s ∧ ArcsInRange gs ∧ o.arcs = gs.map ofDigits ∧
          o.toText = (ascii ".").intercalate (gs.map withoutLeadingZeros)) ∧
    ∀ o : Oid, ofText o.toText = .ok o := by
  have hread : ∀ s, (∃ o, ofText s = .ok o) ↔ ∃ gs, IsDotted gs s ∧ ArcsInRange gs := by
    intro s
    refine ⟨fun h => ?_, fun h => ?_⟩
    · obtain ⟨o, ho⟩ := h
      obtain ⟨gs, hdotted, hrange, -⟩ := ofText_dotted_iff.mp ho
      exact ⟨gs, hdotted, hrange⟩
    · obtain ⟨gs, hdotted, hrange⟩ := h
      exact ⟨⟨gs.map ofDigits, arcsInRange_iff.mp hrange⟩,
        ofText_dotted_iff.mpr ⟨gs, hdotted, hrange, rfl⟩⟩
  refine ⟨fun s => ⟨isValid_iff.trans (hread s), hread s, fun o => ?_⟩, ofText_toText⟩
  rw [ofText_dotted_iff]
  refine ⟨fun h => ?_, fun h => ?_⟩
  · obtain ⟨gs, hdotted, hrange, harcs⟩ := h
    exact ⟨gs, hdotted, hrange, harcs, hdotted.toText_eq harcs⟩
  · obtain ⟨gs, hdotted, hrange, harcs, -⟩ := h
    exact ⟨gs, hdotted, hrange, harcs⟩

-- The second arc behind 2 is bounded so that the joint number of the binary form has 64 bits.
example : isValid (ascii "2.18446744073709551535") = true := by decide +kernel

example : isValid (ascii "2.18446744073709551536") = false := by decide +kernel

end LdapBer.Oid
