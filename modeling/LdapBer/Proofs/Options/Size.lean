import Mathlib.Data.List.TakeWhile
import LdapBer.Options

/-! Sizes as values of options.

A size is a row of digits, and a letter behind it that stands for a factor (`IsSize`). More than
that is read as one: a number (`Numeral`) may have blanks and a sign in front. One of more than 64
bits becomes the largest, and a negative one and a product of more bits are taken modulo 2^64
(`readSize_numeral`). So every size is read as what it is (`readSize_of_isSize`), but there are
other numbers that are read (`readSize_decides`). -/
namespace LdapBer.Options

/-! ### Sizes -/

/-- The factor that a text behind the digits stands for. -/
def factorOf : Bytes → Option Nat
  | [] => some 1
  | [c] =>
    if c = 107 ∨ c = 75 then some 1024
    else if c = 109 ∨ c = 77 then some (1024 * 1024)
    else none
  | _ => none

/-- Digits and a letter or none behind them, which spell a number of 64 bits. -/
def IsSize (s : Bytes) (n : Nat) : Prop :=
  ∃ digits behind f, s = digits ++ behind ∧ digits ≠ [] ∧ (∀ c ∈ digits, isDigit c = true) ∧
    factorOf behind = some f ∧ n = ofDigits digits * f ∧ n < 0x10000000000000000

inductive Sign where
  | none
  | plus
  | minus
deriving DecidableEq, Repr

def Sign.text : Sign → Bytes
  | none => []
  | plus => ascii "+"
  | minus => ascii "-"

/-- The parts of a text that has a number in front. -/
structure Numeral (s : Bytes) where
  blanks : Bytes
  sign : Sign
  digits : Bytes
  behind : Bytes
  text : s = blanks ++ (sign.text ++ (digits ++ behind))
  areBlanks : ∀ c ∈ blanks, isBlank c = true
  ne_nil : digits ≠ []
  areDigits : ∀ c ∈ digits, isDigit c = true
  ends : ∀ c ∈ behind.head?, isDigit c = false

namespace Numeral

variable {s : Bytes}

/-- What the digits spell, whatever is in front of them. -/
def magnitude (p : Numeral s) : Nat :=
  ofDigits p.digits

/-- The word that the number is read as. -/
def word (p : Numeral s) : Nat :=
  if sizeModulus ≤ p.magnitude then sizeModulus - 1
  else if p.sign = .minus then (sizeModulus - p.magnitude) % sizeModulus
  else p.magnitude

/-- Nothing in front, and a size of 64 bits. -/
structure IsPlain (p : Numeral s) (f : Nat) : Prop where
  blanks : p.blanks = []
  sign : p.sign = .none
  size : p.magnitude * f < 0x10000000000000000

end Numeral

/-- A digit is neither a blank nor a sign. -/
theorem ne_of_isDigit {c : UInt8} (h : isDigit c = true) :
    isBlank c = false ∧ c ≠ 43 ∧ c ≠ 45 := by
  rw [isDigit_iff] at h
  simp [isBlank, ← UInt8.toNat_inj, UInt8.le_iff_toNat_le]
  omega

/-! ### Factors -/

theorem factorOf_eq_some_iff {s : Bytes} {f : Nat} :
    factorOf s = some f ↔ readFactor s = (f, []) := by
  rcases s with _ | ⟨c, _ | ⟨d, s⟩⟩
  · simp [factorOf, readFactor]
  · simp only [factorOf, readFactor]
    split
    · simp
    · split <;> simp
  · simp only [factorOf, readFactor]
    split
    · simp
    · split <;> simp

/-- What may stand behind the digits. -/
theorem factorOf_cases {s : Bytes} {f : Nat} (h : factorOf s = some f) :
    (s = [] ∧ f = 1) ∨ ((s = [107] ∨ s = [75]) ∧ f = 1024) ∨
      ((s = [109] ∨ s = [77]) ∧ f = 1024 * 1024) := by
  rcases s with _ | ⟨c, _ | ⟨d, s⟩⟩
  · cases h
    exact .inl ⟨rfl, rfl⟩
  · unfold factorOf at h
    dsimp only at h
    split at h
    · next hc =>
      cases h
      exact .inr (.inl ⟨by simpa using hc, rfl⟩)
    · split at h
      · next hc =>
        cases h
        exact .inr (.inr ⟨by simpa using hc, rfl⟩)
      · cases h
  · cases h

theorem pos_of_factorOf {s : Bytes} {f : Nat} (h : factorOf s = some f) : 0 < f := by
  rcases factorOf_cases h with ⟨-, rfl⟩ | ⟨-, rfl⟩ | ⟨-, rfl⟩ <;> decide

theorem ends_of_factorOf {s : Bytes} {f : Nat} (h : factorOf s = some f) :
    ∀ c ∈ s.head?, isDigit c = false := by
  rcases factorOf_cases h with ⟨rfl, -⟩ | ⟨rfl | rfl, -⟩ | ⟨rfl | rfl, -⟩
  · nofun
  all_goals
    rintro c ⟨⟩
    rfl

/-! ### Numbers -/

namespace Numeral

variable {s : Bytes} (p : Numeral s)

theorem exists_digit : ∃ d ds, p.digits = d :: ds ∧ isDigit d = true := by
  obtain ⟨d, ds, hdigits⟩ := List.exists_cons_of_ne_nil p.ne_nil
  exact ⟨d, ds, hdigits, p.areDigits d (hdigits ▸ List.mem_cons_self)⟩

theorem dropWhile_isBlank :
    s.dropWhile isBlank = p.sign.text ++ (p.digits ++ p.behind) := by
  obtain ⟨d, ds, hdigits, hd⟩ := p.exists_digit
  have hblank := (ne_of_isDigit hd).1
  refine (congrArg (List.dropWhile isBlank) p.text).trans (dropWhile_of_append p.areBlanks ?_)
  cases p.sign with
  | none => simpa [Sign.text, hdigits] using hblank
  | plus | minus =>
    rintro c ⟨⟩
    rfl

/-- The first byte behind the blanks tells the sign. -/
theorem head_sign :
    ((s.dropWhile isBlank).head? = some 45 ↔ p.sign = .minus) ∧
      ((s.dropWhile isBlank).head? = some 43 ↔ p.sign = .plus) := by
  obtain ⟨d, ds, hdigits, hd⟩ := p.exists_digit
  obtain ⟨-, hplus, hminus⟩ := ne_of_isDigit hd
  rw [p.dropWhile_isBlank]
  cases p.sign <;> simp [Sign.text, hdigits, ascii, hplus, hminus]

theorem readNumber_eq : readNumber s = some (p.word, p.behind) := by
  obtain ⟨hminus, hplus⟩ := p.head_sign
  rw [p.dropWhile_isBlank] at hminus hplus
  have htake : (p.digits ++ p.behind).takeWhile isDigit = p.digits :=
    takeWhile_of_append p.areDigits p.ends
  have hdrop : (p.digits ++ p.behind).dropWhile isDigit = p.behind :=
    dropWhile_of_append p.areDigits p.ends
  have hsign : (if p.sign = .minus ∨ p.sign = .plus then
      (p.sign.text ++ (p.digits ++ p.behind)).drop 1
      else p.sign.text ++ (p.digits ++ p.behind)) = p.digits ++ p.behind := by
    cases p.sign <;> rfl
  unfold readNumber
  simp only [hminus, hplus, p.dropWhile_isBlank, Bool.or_eq_true, decide_eq_true_eq, hsign, htake,
    hdrop, List.isEmpty_iff, p.ne_nil, if_false]
  rw [word, magnitude]
  split <;> rfl

/-- There is one way to take a text apart. -/
theorem eq (q : Numeral s) : p = q := by
  have hblanks : ∀ r : Numeral s, r.blanks = s.takeWhile isBlank := fun r => by
    have hsplit := (List.takeWhile_append_dropWhile (p := isBlank) (l := s)).trans r.text
    rw [r.dropWhile_isBlank] at hsplit
    exact (List.append_cancel_right hsplit).symm
  have hrest := p.dropWhile_isBlank.symm.trans q.dropWhile_isBlank
  have hsign : p.sign = q.sign := by
    have hminus := p.head_sign.1.symm.trans q.head_sign.1
    have hplus := p.head_sign.2.symm.trans q.head_sign.2
    revert hminus hplus
    cases p.sign <;> cases q.sign <;> simp
  rw [hsign] at hrest
  have hnumber := List.append_cancel_left hrest
  have hdigits : p.digits = q.digits := by
    rw [← takeWhile_of_append p.areDigits p.ends, hnumber, takeWhile_of_append q.areDigits q.ends]
  have hbehind : p.behind = q.behind := by
    rw [hdigits] at hnumber
    exact List.append_cancel_left hnumber
  have hfront := (hblanks p).trans (hblanks q).symm
  cases p
  cases q
  cases hfront
  cases hsign
  cases hdigits
  cases hbehind
  rfl

end Numeral

/-- A sign is told by the first byte. -/
theorem exists_sign (t : Bytes) :
    ∃ (sign : Sign) (u : Bytes), t = sign.text ++ u ∧
      (if t.head? = some 45 ∨ t.head? = some 43 then t.drop 1 else t) = u := by
  rcases t with _ | ⟨c, t⟩
  · exact ⟨.none, [], rfl, rfl⟩
  · by_cases hminus : c = 45
    · subst hminus
      exact ⟨.minus, t, rfl, rfl⟩
    by_cases hplus : c = 43
    · subst hplus
      exact ⟨.plus, t, rfl, rfl⟩
    · exact ⟨.none, c :: t, rfl, by simp [hminus, hplus]⟩

theorem exists_numeral {s : Bytes} (h : readNumber s ≠ none) : Nonempty (Numeral s) := by
  obtain ⟨sign, t, hsign, ht⟩ := exists_sign (s.dropWhile isBlank)
  have hdigits : t.takeWhile isDigit ≠ [] := by
    intro hnil
    apply h
    unfold readNumber
    simp only [Bool.or_eq_true, decide_eq_true_eq, ht, hnil]
    rfl
  refine ⟨⟨s.takeWhile isBlank, sign, t.takeWhile isDigit, t.dropWhile isDigit, ?_,
    fun _ => List.mem_takeWhile_imp, hdigits, fun _ => List.mem_takeWhile_imp, fun c hc => ?_⟩⟩
  · rw [List.takeWhile_append_dropWhile, ← hsign, List.takeWhile_append_dropWhile]
  · have hfront := List.head?_dropWhile_not isDigit t
    rw [Option.mem_def.mp hc] at hfront
    simpa using hfront

/-! ### Values -/

theorem readSize_numeral (option : Bytes) {s : Bytes} (p : Numeral s) :
    readSize option s =
      match factorOf p.behind with
      | some f => .ok (p.word * f % sizeModulus)
      | none => .error (.trailing option s) := by
  unfold readSize
  simp only [p.readNumber_eq]
  cases hfactor : factorOf p.behind with
  | some f =>
    simp [factorOf_eq_some_iff.mp hfactor, sizeModulus]
  | none =>
    have hrest : (readFactor p.behind).2 ≠ [] := fun hrest => by
      have hsome := factorOf_eq_some_iff.mpr (Prod.ext rfl hrest)
      exact Option.some_ne_none _ (hsome.symm.trans hfactor)
    simp [hrest]

theorem readSize_of_not_numeral (option : Bytes) {s : Bytes} (h : ¬ Nonempty (Numeral s)) :
    readSize option s = .error (.notNumber option s) := by
  have hnone : readNumber s = none :=
    Classical.byContradiction fun hsome => h (exists_numeral hsome)
  unfold readSize
  rw [hnone]

/-- A size is a number with nothing in front that has room in 64 bits. -/
theorem isSize_iff {s : Bytes} {n : Nat} :
    IsSize s n ↔
      ∃ (p : Numeral s) (f : Nat), factorOf p.behind = some f ∧ p.IsPlain f ∧
        n = p.magnitude * f := by
  constructor
  · rintro ⟨digits, behind, f, rfl, hne, hdigits, hfactor, rfl, hn⟩
    exact ⟨⟨[], .none, digits, behind, rfl, nofun, hne, hdigits, ends_of_factorOf hfactor⟩, f,
      hfactor, ⟨rfl, rfl, hn⟩, rfl⟩
  · rintro ⟨p, f, hfactor, hplain, rfl⟩
    have htext := p.text
    rw [hplain.blanks, hplain.sign] at htext
    exact ⟨p.digits, p.behind, f, htext, p.ne_nil, p.areDigits, hfactor, rfl, hplain.size⟩

/-- The size that a number stands for comes out if it has 64 bits and is not negative. Of negative
ones two are their own opposite. -/
theorem Numeral.word_mul_eq_iff {s : Bytes} (p : Numeral s) {f : Nat} (hf : 0 < f) :
    p.word * f % sizeModulus = p.magnitude * f ↔
      p.magnitude * f < 0x10000000000000000 ∧
        (p.sign = .minus → p.magnitude * f = 0 ∨ p.magnitude * f = 0x8000000000000000) := by
  have hmodulus : sizeModulus = 0x10000000000000000 := rfl
  have hmod : p.word * f % sizeModulus < sizeModulus := Nat.mod_lt _ (by decide)
  have hle : p.magnitude ≤ p.magnitude * f := Nat.le_mul_of_pos_right _ hf
  by_cases hlarge : sizeModulus ≤ p.magnitude
  · omega
  by_cases hminus : p.sign = .minus
  · rw [word, if_neg hlarge, if_pos hminus]
    rcases Nat.eq_zero_or_pos p.magnitude with hzero | hpos
    · simp [hzero]
    · have hopposite : (sizeModulus - p.magnitude) * f + p.magnitude * f = sizeModulus * f := by
        rw [← Nat.add_mul, Nat.sub_add_cancel (by omega)]
      have hword : (sizeModulus - p.magnitude) % sizeModulus = sizeModulus - p.magnitude :=
        Nat.mod_eq_of_lt (by omega)
      rw [hword]
      rw [hmodulus] at hopposite ⊢
      simp only [hminus, forall_const]
      omega
  · rw [word, if_neg hlarge, if_neg hminus, Nat.mod_eq_iff_lt (by decide)]
    simp [hminus, hmodulus]

theorem readSize_of_isSize (option : Bytes) {s : Bytes} {n : Nat} (h : IsSize s n) :
    readSize option s = .ok n := by
  obtain ⟨p, f, hfactor, hplain, rfl⟩ := isSize_iff.mp h
  have hword := (p.word_mul_eq_iff (pos_of_factorOf hfactor)).mpr
    ⟨hplain.size, fun hminus => Sign.noConfusion (hplain.sign.symm.trans hminus)⟩
  rw [readSize_numeral option p, hfactor, ← hword]

/-- Only a size is read from a text, unless it has a number that is not plain. -/
theorem readSize_isSize_iff (option s : Bytes) :
    (∀ n, readSize option s = .ok n → IsSize s n) ↔
      ∀ (p : Numeral s) (f : Nat), factorOf p.behind = some f → p.IsPlain f := by
  constructor
  · intro h p f hfactor
    have hread := readSize_numeral option p
    rw [hfactor] at hread
    obtain ⟨q, g, hg, hplain, -⟩ := isSize_iff.mp (h _ hread)
    obtain rfl := p.eq q
    obtain rfl := Option.some.inj (hfactor.symm.trans hg)
    exact hplain
  · intro h n hn
    by_cases hnumber : Nonempty (Numeral s)
    · obtain ⟨p⟩ := hnumber
      cases hfactor : factorOf p.behind with
      | none =>
        rw [readSize_numeral option p, hfactor] at hn
        cases hn
      | some f =>
        have hsize := isSize_iff.mpr ⟨p, f, hfactor, h p f hfactor, rfl⟩
        rw [readSize_of_isSize option hsize] at hn
        cases hn
        exact hsize
    · rw [readSize_of_not_numeral option hnumber] at hn
      cases hn

/-- **What is read as a size.** A text without a number is refused as such, and a number with more
than a letter for a factor behind it because of that. Any other number is read as a word: it keeps
the size that it stands for exactly if this has 64 bits and no sign has turned it into another. So
every size is read as what it is, and a text that is none is refused, unless it is a number with
blanks or a sign in front or with a size of more than 64 bits. -/
theorem readSize_decides (option value : Bytes) :
    (¬ Nonempty (Numeral value) → readSize option value = .error (.notNumber option value)) ∧
      (∀ p : Numeral value,
        readSize option value =
          match factorOf p.behind with
          | some f => .ok (p.word * f % sizeModulus)
          | none => .error (.trailing option value)) ∧
      (∀ (p : Numeral value) (f : Nat), factorOf p.behind = some f →
        (readSize option value = .ok (p.magnitude * f) ↔
          p.magnitude * f < 0x10000000000000000 ∧
            (p.sign = .minus → p.magnitude * f = 0 ∨ p.magnitude * f = 0x8000000000000000))) ∧
      (∀ n, IsSize value n → readSize option value = .ok n) ∧
      ((∀ n, readSize option value = .ok n → IsSize value n) ↔
        ∀ (p : Numeral value) (f : Nat), factorOf p.behind = some f → p.IsPlain f) := by
  refine ⟨readSize_of_not_numeral option, readSize_numeral option, ?_,
    fun _ => readSize_of_isSize option, readSize_isSize_iff option value⟩
  intro p f hfactor
  rw [readSize_numeral option p, hfactor, ← p.word_mul_eq_iff (pos_of_factorOf hfactor)]
  exact ⟨fun h => Except.ok.inj h, fun h => congrArg Except.ok h⟩

/-- Eight times 1024 is a size, and read as that with a plus in front too; a negative number is read
as another and a letter is no number. -/
theorem readSize_decides_eight :
    readSize (ascii "-c") (ascii "8k") = .ok 8192 ∧
      readSize (ascii "-c") (ascii " +8k") = .ok 8192 ∧
      readSize (ascii "-m") (ascii "-1k") = .ok (0x10000000000000000 - 1024) ∧
      readSize (ascii "-m") (ascii "k") = .error (.notNumber (ascii "-m") (ascii "k")) := by
  have height : IsSize (ascii "8k") 8192 :=
    ⟨ascii "8", ascii "k", 1024, rfl, by decide, by decide +kernel, rfl, rfl, by decide⟩
  let p : Numeral (ascii "-1k") :=
    ⟨[], .minus, ascii "1", ascii "k", rfl, nofun, by decide, by decide +kernel, by decide +kernel⟩
  let q : Numeral (ascii " +8k") :=
    ⟨ascii " ", .plus, ascii "8", ascii "k", rfl, by decide +kernel, by decide, by decide +kernel,
      by decide +kernel⟩
  have hempty : ¬ Nonempty (Numeral (ascii "k")) := fun ⟨p⟩ =>
    Option.some_ne_none _ (p.readNumber_eq.symm.trans (by decide +kernel))
  obtain ⟨-, -, -, hsize, -⟩ := readSize_decides (ascii "-c") (ascii "8k")
  obtain ⟨-, -, hkept, -⟩ := readSize_decides (ascii "-c") (ascii " +8k")
  obtain ⟨-, hnumeral, -⟩ := readSize_decides (ascii "-m") (ascii "-1k")
  obtain ⟨hnone, -⟩ := readSize_decides (ascii "-m") (ascii "k")
  have hplus := hkept q 1024 rfl
  rw [show q.magnitude = 8 by decide +kernel] at hplus
  refine ⟨hsize 8192 height, hplus.mpr ⟨by decide, nofun⟩, (hnumeral p).trans ?_, hnone hempty⟩
  decide +kernel

/-- A size of more than 64 bits is read as a smaller one. -/
theorem not_only_sizes_read :
    ¬ ∀ (option value : Bytes) (n : Nat), readSize option value = .ok n ↔ IsSize value n := by
  intro h
  have hread : readSize (ascii "-m") (ascii "17592186044417m") = .ok 1048576 := by decide +kernel
  let p : Numeral (ascii "17592186044417m") :=
    ⟨[], .none, ascii "17592186044417", ascii "m", rfl, nofun, by decide, by decide +kernel,
      by decide +kernel⟩
  obtain ⟨q, f, hfactor, hplain, -⟩ := isSize_iff.mp ((h _ _ _).mp hread)
  obtain rfl := p.eq q
  obtain rfl : 1024 * 1024 = f := Option.some.inj hfactor
  have hsize := hplain.size
  revert hsize
  decide +kernel

end LdapBer.Options
