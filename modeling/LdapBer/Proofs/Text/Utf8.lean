import Mathlib.Algebra.Group.Nat.Defs
import Mathlib.Data.List.Induction
import LdapBer.Utf8

/-! Printable text is encoded text.

A code point is spelled by a first byte, which has the highest bits of it behind a mark, and a tail
of digits in base 64, each with a mark of its own (`tailBytes`). The marks tell how many bytes there
are (`lead_eq_some_iff`), the bits give the code point back (`toNat_codePoint_tailBytes`), and the
least code point of each form leaves one form for each. So what is accepted behind a first byte
makes it the encoding of one character (`exists_char_of_accepts`, `accepts_of_char`), and what is
printable is the encoding of a text without control characters but tab and newline
(`isPrintable_iff_encoded`). -/
namespace LdapBer.Utf8

/-! ### Marks and bits -/

theorem and_marks (b : UInt8) :
    (b &&& 0xC0 = 0x80 ↔ 0x80 ≤ b.toNat ∧ b.toNat < 0xC0) ∧
      (b &&& 0xE0 = 0xC0 ↔ 0xC0 ≤ b.toNat ∧ b.toNat < 0xE0) ∧
      (b &&& 0xF0 = 0xE0 ↔ 0xE0 ≤ b.toNat ∧ b.toNat < 0xF0) ∧
      (b &&& 0xF8 = 0xF0 ↔ 0xF0 ≤ b.toNat ∧ b.toNat < 0xF8) := by
  have hbits : ∀ n < 256,
      (n &&& 0xC0 = 0x80 ↔ 0x80 ≤ n ∧ n < 0xC0) ∧ (n &&& 0xE0 = 0xC0 ↔ 0xC0 ≤ n ∧ n < 0xE0) ∧
        (n &&& 0xF0 = 0xE0 ↔ 0xE0 ≤ n ∧ n < 0xF0) ∧
        (n &&& 0xF8 = 0xF0 ↔ 0xF0 ≤ n ∧ n < 0xF8) := by
    decide +kernel
  simp only [← UInt8.toNat_inj, UInt8.toNat_and]
  exact hbits _ b.toNat_lt

theorem isTail_iff {b : UInt8} : isTail b = true ↔ 0x80 ≤ b.toNat ∧ b.toNat < 0xC0 := by
  simp only [isTail, beq_iff_eq]
  exact (and_marks b).1

/-- The lowest bits of a byte are its remainder. -/
theorem toNat_low (b : UInt8) :
    (b &&& 0x1F).toUInt32.toNat = b.toNat % 32 ∧ (b &&& 0x0F).toUInt32.toNat = b.toNat % 16 ∧
      (b &&& 0x07).toUInt32.toNat = b.toNat % 8 ∧ (b &&& 0x3F).toUInt32.toNat = b.toNat % 64 := by
  have hlow := Nat.and_two_pow_sub_one_eq_mod b.toNat
  simp only [UInt8.toNat_toUInt32, UInt8.toNat_and]
  exact ⟨hlow 5, hlow 4, hlow 3, hlow 6⟩

/-- The three forms of a first byte. -/
theorem lead_eq_some_iff {b : UInt8} {l : Lead} :
    lead b = some l ↔
      (l.count = 1 ∧ l.least = 0x80 ∧ b.toNat = 0xC0 + l.part.toNat ∧ l.part.toNat < 32) ∨
      (l.count = 2 ∧ l.least = 0x800 ∧ b.toNat = 0xE0 + l.part.toNat ∧ l.part.toNat < 16) ∨
      (l.count = 3 ∧ l.least = 0x10000 ∧ b.toNat = 0xF0 + l.part.toNat ∧ l.part.toNat < 8) := by
  obtain ⟨-, htwo, hthree, hfour⟩ := and_marks b
  obtain ⟨hlow₅, hlow₄, hlow₃, -⟩ := toNat_low b
  obtain ⟨count, part, least⟩ := l
  simp only [lead, htwo, hthree, hfour]
  split
  · simp only [Option.some.injEq, Lead.mk.injEq, ← UInt32.toNat_inj, hlow₅, UInt32.reduceToNat]
    omega
  · split
    · simp only [Option.some.injEq, Lead.mk.injEq, ← UInt32.toNat_inj, hlow₄, UInt32.reduceToNat]
      omega
    · split
      · simp only [Option.some.injEq, Lead.mk.injEq, ← UInt32.toNat_inj, hlow₃,
          UInt32.reduceToNat]
        omega
      · simp only [reduceCtorEq, false_iff]
        omega

/-! ### Digits in base 64 -/

/-- The bytes that spell the last `k` digits of a number in base 64. -/
def tailBytes : Nat → Nat → Bytes
  | 0, _ => []
  | k + 1, n => tailBytes k (n / 64) ++ [(n % 64 + 0x80).toUInt8]

@[simp] theorem length_tailBytes (k n : Nat) : (tailBytes k n).length = k := by
  induction k generalizing n with
  | zero => rfl
  | succ k ih => simp [tailBytes, ih]

theorem toNat_digit (n : Nat) : (n % 64 + 0x80).toUInt8.toNat = n % 64 + 0x80 := by
  rw [UInt8.toNat_ofNat']
  omega

theorem isTail_of_mem_tailBytes {k n : Nat} : ∀ b ∈ tailBytes k n, isTail b = true := by
  induction k generalizing n with
  | zero => nofun
  | succ k ih =>
    intro b hb
    rcases List.mem_append.mp hb with hb | hb
    · exact ih b hb
    · obtain rfl := List.mem_singleton.mp hb
      rw [isTail_iff, toNat_digit]
      omega

theorem codePoint_concat (part : UInt32) (t : Bytes) (b : UInt8) :
    codePoint part (t ++ [b]) = codePoint part t <<< 6 ||| (b &&& 0x3F).toUInt32 := by
  simp [codePoint]

/-- Six bits that are shifted in become the last digit, where the word has room for one. -/
theorem toNat_shift_or {n : UInt32} (hn : n.toNat < 0x4000000) (b : UInt8) :
    (n <<< 6 ||| (b &&& 0x3F).toUInt32).toNat = n.toNat * 64 + b.toNat % 64 := by
  obtain ⟨-, -, -, hlow⟩ := toNat_low b
  have hdigit : b.toNat % 64 < 2 ^ 6 := Nat.mod_lt _ (by decide)
  have hshifted : (n <<< 6).toNat = n.toNat <<< 6 := by
    rw [UInt32.toNat_shiftLeft, Nat.shiftLeft_eq, Nat.shiftLeft_eq]
    change n.toNat * 64 % 0x100000000 = n.toNat * 64
    omega
  rw [UInt32.toNat_or, hlow, hshifted, ← Nat.shiftLeft_add_eq_or_of_lt hdigit, Nat.shiftLeft_eq]

/-- The digits of a number behind the rest of it give the number back. -/
theorem toNat_codePoint_tailBytes {k n : Nat} {part : UInt32} (hn : n < 0x100000000)
    (hpart : part.toNat = n / 64 ^ k) : (codePoint part (tailBytes k n)).toNat = n := by
  induction k generalizing n with
  | zero => simpa [codePoint, tailBytes] using hpart
  | succ k ih =>
    have hlead : part.toNat = n / 64 / 64 ^ k := by
      rw [hpart, Nat.pow_succ', Nat.div_div_eq_div_mul]
    have hfront := ih (n := n / 64) (by omega) hlead
    rw [tailBytes, codePoint_concat, toNat_shift_or (by omega), hfront, toNat_digit]
    omega

/-- Bytes with the mark of a tail are digits, those of the number that they make. -/
theorem tailBytes_codePoint {t : Bytes} (ht : ∀ b ∈ t, isTail b = true) {part : UInt32}
    (hroom : (part.toNat + 1) * 64 ^ t.length ≤ 0x100000000) :
    tailBytes t.length (codePoint part t).toNat = t ∧
      (codePoint part t).toNat / 64 ^ t.length = part.toNat := by
  induction t using List.reverseRecOn with
  | nil => simp [tailBytes, codePoint]
  | append_singleton t b ih =>
    obtain ⟨hfront, hlast⟩ := List.forall_mem_append.mp ht
    have hb := isTail_iff.mp (hlast b List.mem_cons_self)
    rw [List.length_append, List.length_singleton, Nat.pow_succ', Nat.mul_left_comm] at hroom
    have hpos : 0 < 64 ^ t.length := Nat.pow_pos (by decide)
    obtain ⟨hdigits, hrest⟩ := ih hfront (by omega)
    -- what is there before the last shift leaves room for one more digit
    have hlt : (codePoint part t).toNat < (part.toNat + 1) * 64 ^ t.length := by
      rw [← Nat.div_lt_iff_lt_mul hpos, hrest]
      exact Nat.lt_succ_self _
    have hvalue : (codePoint part (t ++ [b])).toNat =
        (codePoint part t).toNat * 64 + b.toNat % 64 := by
      rw [codePoint_concat, toNat_shift_or (by omega)]
    have hdiv : ((codePoint part t).toNat * 64 + b.toNat % 64) / 64 = (codePoint part t).toNat := by
      omega
    have hdigit : (((codePoint part t).toNat * 64 + b.toNat % 64) % 64 + 0x80).toUInt8 = b := by
      apply UInt8.toNat_inj.mp
      rw [toNat_digit]
      omega
    rw [hvalue, List.length_append, List.length_singleton]
    constructor
    · rw [tailBytes, hdiv, hdigits, hdigit]
    · rw [Nat.pow_succ', ← Nat.div_div_eq_div_mul, hdiv, hrest]

/-! ### Characters -/

theorem toNat_le (c : Char) : c.toNat ≤ 0x10FFFF := by
  have hvalid := c.valid
  change c.toNat < 0xD800 ∨ 0xDFFF < c.toNat ∧ c.toNat < 0x110000 at hvalid
  omega

/-- The four forms of a character. -/
theorem utf8EncodeChar_eq (c : Char) :
    String.utf8EncodeChar c =
      if c.toNat < 0x80 then [c.toNat.toUInt8]
      else if c.toNat < 0x800 then (c.toNat / 64 + 0xC0).toUInt8 :: tailBytes 1 c.toNat
      else if c.toNat < 0x10000 then (c.toNat / 64 ^ 2 + 0xE0).toUInt8 :: tailBytes 2 c.toNat
      else (c.toNat / 64 ^ 3 + 0xF0).toUInt8 :: tailBytes 3 c.toNat := by
  have hmax := toNat_le c
  have hvalue : c.val.toNat = c.toNat := rfl
  have hdigit : c.toNat / 4096 = c.toNat / 64 / 64 := by omega
  simp only [String.utf8EncodeChar, hvalue]
  split
  · rw [if_pos (by omega)]
  · split
    · have hlead : c.toNat / 64 % 0x20 = c.toNat / 64 := by omega
      rw [if_neg (by omega), if_pos (by omega), hlead]
      rfl
    · split
      · have hlead : c.toNat / 4096 % 0x10 = c.toNat / 64 ^ 2 := by omega
        rw [if_neg (by omega), if_neg (by omega), if_pos (by omega), hlead]
        rfl
      · have hlead : c.toNat / 262144 % 0x08 = c.toNat / 64 ^ 3 := by omega
        rw [if_neg (by omega), if_neg (by omega), if_neg (by omega), hlead, hdigit]
        rfl

/-- The bytes that spell a character of more than seven bits: a first byte that has the number of
the others and the highest bits, and the digits of the rest. -/
theorem utf8EncodeChar_of_lead {b : UInt8} {l : Lead} {c : Char} (hl : lead b = some l)
    (hpart : l.part.toNat = c.toNat / 64 ^ l.count) (hleast : l.least.toNat ≤ c.toNat) :
    String.utf8EncodeChar c = b :: tailBytes l.count c.toNat := by
  have hfirst : ∀ n, b.toNat = n → n.toUInt8 = b := by
    rintro n rfl
    exact UInt8.ofNat_toNat
  rw [utf8EncodeChar_eq]
  rcases lead_eq_some_iff.mp hl with ⟨hcount, hl, hb, hlt⟩ | ⟨hcount, hl, hb, hlt⟩ |
    ⟨hcount, hl, hb, hlt⟩
  · have hmin : 0x80 ≤ c.toNat := by simpa [hl] using hleast
    rw [hcount] at hpart ⊢
    rw [if_neg (by omega), if_pos (by omega), hfirst _ (by omega)]
  · have hmin : 0x800 ≤ c.toNat := by simpa [hl] using hleast
    rw [hcount] at hpart ⊢
    rw [if_neg (by omega), if_neg (by omega), if_pos (by omega), hfirst _ (by omega)]
  · have hmin : 0x10000 ≤ c.toNat := by simpa [hl] using hleast
    rw [hcount] at hpart ⊢
    rw [if_neg (by omega), if_neg (by omega), if_neg (by omega), hfirst _ (by omega)]

/-- Every character of more than seven bits has a first byte. -/
theorem exists_lead {c : Char} (hc : 0x80 ≤ c.toNat) :
    ∃ b l, lead b = some l ∧ l.part.toNat = c.toNat / 64 ^ l.count ∧ l.least.toNat ≤ c.toNat := by
  have hmax := toNat_le c
  have hbyte : ∀ n < 0x100, n.toUInt8.toNat = n := fun n hn => by
    rw [UInt8.toNat_ofNat', Nat.mod_eq_of_lt hn]
  have hword : ∀ n < 0x100000000, n.toUInt32.toNat = n := fun n hn => by
    rw [UInt32.toNat_ofNat', Nat.mod_eq_of_lt hn]
  by_cases htwo : c.toNat < 0x800
  · have hpart := hword (c.toNat / 64) (by omega)
    refine ⟨(0xC0 + c.toNat / 64).toUInt8, ⟨1, (c.toNat / 64).toUInt32, 0x80⟩,
      lead_eq_some_iff.mpr (.inl ⟨rfl, rfl, ?_, ?_⟩), hpart, hc⟩
    · rw [hpart, hbyte _ (by omega)]
    · rw [hpart]
      omega
  by_cases hthree : c.toNat < 0x10000
  · have hpart := hword (c.toNat / 64 ^ 2) (by omega)
    refine ⟨(0xE0 + c.toNat / 64 ^ 2).toUInt8, ⟨2, (c.toNat / 64 ^ 2).toUInt32, 0x800⟩,
      lead_eq_some_iff.mpr (.inr (.inl ⟨rfl, rfl, ?_, ?_⟩)), hpart, Nat.not_lt.mp htwo⟩
    · rw [hpart, hbyte _ (by omega)]
    · rw [hpart]
      omega
  · have hpart := hword (c.toNat / 64 ^ 3) (by omega)
    refine ⟨(0xF0 + c.toNat / 64 ^ 3).toUInt8, ⟨3, (c.toNat / 64 ^ 3).toUInt32, 0x10000⟩,
      lead_eq_some_iff.mpr (.inr (.inr ⟨rfl, rfl, ?_, ?_⟩)), hpart, Nat.not_lt.mp hthree⟩
    · rw [hpart, hbyte _ (by omega)]
    · rw [hpart]
      omega

/-- What is asked of the bytes behind a first byte. -/
structure Accepts (l : Lead) (t : Bytes) : Prop where
  marked : ∀ b ∈ t, isTail b = true
  least : l.least ≤ codePoint l.part t
  scalar : isScalar (codePoint l.part t) = true

theorem isScalar_iff {n : UInt32} : isScalar n = true ↔ n.toNat.isValidChar := by
  simp [isScalar, Nat.isValidChar, UInt32.lt_iff_toNat_lt, UInt32.le_iff_toNat_le]
  omega

theorem bounds_of_lead {b : UInt8} {l : Lead} (h : lead b = some l) :
    0xC0 ≤ b.toNat ∧ 0x80 ≤ l.least.toNat ∧
      (l.part.toNat + 1) * 64 ^ l.count ≤ 0x100000000 := by
  rcases lead_eq_some_iff.mp h with ⟨hcount, hl, hb, hlt⟩ | ⟨hcount, hl, hb, hlt⟩ |
    ⟨hcount, hl, hb, hlt⟩
  all_goals
    rw [hcount, hl]
    exact ⟨by omega, by decide, by omega⟩

/-- What is accepted behind a first byte makes it the encoding of a character. -/
theorem exists_char_of_accepts {b : UInt8} {l : Lead} {t : Bytes} (hl : lead b = some l)
    (hcount : t.length = l.count) (h : Accepts l t) :
    ∃ c : Char, 0x80 ≤ c.toNat ∧ String.utf8EncodeChar c = b :: t := by
  obtain ⟨-, hlow, hroom⟩ := bounds_of_lead hl
  rw [← hcount] at hroom
  obtain ⟨hdigits, hrest⟩ := tailBytes_codePoint h.marked hroom
  let c : Char := Char.ofNatAux (codePoint l.part t).toNat (isScalar_iff.mp h.scalar)
  have hleast : l.least.toNat ≤ c.toNat := h.least
  have hpart : l.part.toNat = c.toNat / 64 ^ l.count := by
    rw [← hrest, hcount]
    rfl
  refine ⟨c, Nat.le_trans hlow hleast, ?_⟩
  rw [utf8EncodeChar_of_lead hl hpart hleast, ← hcount]
  exact congrArg (b :: ·) hdigits

/-- The encoding of a character of more than seven bits is accepted. -/
theorem accepts_of_char {c : Char} (hc : 0x80 ≤ c.toNat) :
    ∃ b l t, String.utf8EncodeChar c = b :: t ∧ lead b = some l ∧ t.length = l.count ∧
      Accepts l t := by
  obtain ⟨b, l, hl, hpart, hleast⟩ := exists_lead hc
  have hmax := toNat_le c
  have hvalue := toNat_codePoint_tailBytes (by omega) hpart
  refine ⟨b, l, _, utf8EncodeChar_of_lead hl hpart hleast, hl, length_tailBytes _ _,
    isTail_of_mem_tailBytes, ?_, ?_⟩
  · rwa [UInt32.le_iff_toNat_le, hvalue]
  · rw [isScalar_iff, hvalue]
    exact c.valid

/-! ### Texts -/

/-- No control character of seven bits but tab and newline. -/
def IsPlainChar (c : Char) : Prop :=
  (0x20 ≤ c.toNat ∨ c = '\t' ∨ c = '\n') ∧ c.toNat ≠ 0x7F

theorem isPlainChar_of_le {c : Char} (h : 0x80 ≤ c.toNat) : IsPlainChar c :=
  ⟨.inl (by omega), by omega⟩

theorem isPlain_iff {b : UInt8} {c : Char} (h : b.toNat = c.toNat) :
    isPlain b = true ↔ IsPlainChar c := by
  have htab : c = '\t' ↔ c.toNat = 9 := Char.toNat_inj.symm
  have hnewline : c = '\n' ↔ c.toNat = 10 := Char.toNat_inj.symm
  simp [isPlain, IsPlainChar, htab, hnewline, ← h, UInt8.le_iff_toNat_le, ← UInt8.toNat_inj,
    or_assoc]

theorem isPrintable_of_lt {b : UInt8} (hb : b < 0x80) (s : Bytes) :
    isPrintable (b :: s) = true ↔ isPlain b = true ∧ isPrintable s = true := by
  rw [isPrintable, if_pos hb, Bool.and_eq_true]

/-- Behind a first byte, the bytes that it announces are looked at together. -/
theorem isPrintable_of_lead {b : UInt8} {l : Lead} {t s : Bytes} (hl : lead b = some l)
    (hcount : t.length = l.count) :
    isPrintable (b :: (t ++ s)) = true ↔ Accepts l t ∧ isPrintable s = true := by
  have hb : ¬ b < 0x80 := Nat.not_lt.mpr (Nat.le_trans (by decide) (bounds_of_lead hl).1)
  have hsplit : splitExact l.count (t ++ s) = some (t, s) :=
    splitExact_eq_some_iff.mpr ⟨rfl, hcount⟩
  have hopen : isPrintable (b :: (t ++ s)) = true ↔
      t.all isTail = true ∧ l.least ≤ codePoint l.part t ∧
        isScalar (codePoint l.part t) = true ∧ isPrintable s = true := by
    rw [isPrintable, if_neg hb]
    simp only [hl]
    split
    · next hnone => simp [hsplit] at hnone
    · next tail rest hsome =>
      obtain ⟨rfl, rfl⟩ := Prod.mk.inj (Option.some.inj (hsplit.symm.trans hsome))
      simp [and_assoc]
  rw [hopen, List.all_eq_true]
  refine ⟨fun h => ?_, fun h => ?_⟩
  · obtain ⟨hmarked, hleast, hscalar, hs⟩ := h
    exact ⟨⟨hmarked, hleast, hscalar⟩, hs⟩
  · obtain ⟨⟨hmarked, hleast, hscalar⟩, hs⟩ := h
    exact ⟨hmarked, hleast, hscalar, hs⟩

theorem isPrintable_append (c : Char) (s : Bytes) :
    isPrintable (String.utf8EncodeChar c ++ s) = true ↔ IsPlainChar c ∧ isPrintable s = true := by
  by_cases hc : c.toNat < 0x80
  · have hb : c.toNat.toUInt8.toNat = c.toNat := by
      rw [UInt8.toNat_ofNat']
      omega
    rw [utf8EncodeChar_eq, if_pos hc, List.singleton_append,
      isPrintable_of_lt (by rwa [UInt8.lt_iff_toNat_lt, hb]), isPlain_iff hb]
  · obtain ⟨b, l, t, hbytes, hl, hcount, haccepts⟩ := accepts_of_char (Nat.not_lt.mp hc)
    have hplain := isPlainChar_of_le (Nat.not_lt.mp hc)
    rw [hbytes, List.cons_append, isPrintable_of_lead hl hcount]
    simp [haccepts, hplain]

/-- What is printable can be taken apart into characters, each from its first byte on. -/
theorem exists_text_of_isPrintable {s : Bytes} (h : isPrintable s = true) :
    ∃ text : List Char, (∀ c ∈ text, IsPlainChar c) ∧
      s = text.flatMap String.utf8EncodeChar := by
  fun_induction isPrintable s with
  | case1 => exact ⟨[], nofun, rfl⟩
  | case2 b s hb ih =>
    obtain ⟨hplain, hs⟩ := Bool.and_eq_true_iff.mp h
    obtain ⟨text, htext, rfl⟩ := ih hs
    have hvalid : b.toNat.isValidChar := .inl (Nat.lt_trans b.toNat_lt (by decide))
    let c : Char := Char.ofNatAux b.toNat hvalid
    have hc : c.toNat = b.toNat := rfl
    refine ⟨c :: text, List.forall_mem_cons.mpr ⟨(isPlain_iff hc.symm).mp hplain, htext⟩, ?_⟩
    rw [List.flatMap_cons, utf8EncodeChar_eq, if_pos (show c.toNat < 0x80 from hb), hc,
      List.singleton_append]
    exact congrArg (· :: _) UInt8.ofNat_toNat.symm
  | case3 | case4 => cases h
  | case5 b s hb l hl tail rest hsplit _ n ih =>
    obtain ⟨rfl, hcount⟩ := splitExact_eq_some_iff.mp hsplit
    simp only [Bool.and_eq_true, List.all_eq_true, decide_eq_true_eq] at h
    obtain ⟨⟨⟨hmarked, hleast⟩, hscalar⟩, hrest⟩ := h
    obtain ⟨text, htext, rfl⟩ := ih hrest
    obtain ⟨c, hc, hbytes⟩ := exists_char_of_accepts hl hcount ⟨hmarked, hleast, hscalar⟩
    refine ⟨c :: text, List.forall_mem_cons.mpr ⟨isPlainChar_of_le hc, htext⟩, ?_⟩
    rw [List.flatMap_cons, hbytes, List.cons_append]

/-- **Printable is what encodes a text without control characters.** A byte string is printable
exactly if it is the encoding, one behind the other and each in its shortest form, of Unicode scalar
values of which none is less than a space, unless it is a tab or a newline, and none is a delete. -/
theorem isPrintable_iff_encoded (s : Bytes) :
    isPrintable s = true ↔
      ∃ text : List Char, (∀ c ∈ text, IsPlainChar c) ∧
        s = text.flatMap String.utf8EncodeChar := by
  refine ⟨exists_text_of_isPrintable, ?_⟩
  rintro ⟨text, htext, rfl⟩
  induction text with
  | nil => simp [isPrintable]
  | cons c text ih =>
    obtain ⟨hc, htext⟩ := List.forall_mem_cons.mp htext
    rw [List.flatMap_cons, isPrintable_append]
    exact ⟨hc, ih htext⟩

-- A surrogate and a form that is longer than needed are no text.
example : isPrintable [0xED, 0xA0, 0x80] = false := by decide +kernel

example : isPrintable [0xE0, 0x80, 0xAF] = false := by decide +kernel

end LdapBer.Utf8
