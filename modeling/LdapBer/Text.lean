/-! Texts as byte strings.

Names, values and reports are strings of bytes, not of characters: an octet string of a
message may hold anything, so nothing here decodes. Fixed wording is ASCII and is lifted
by `ascii`; numbers are written in decimal or hexadecimal digits. -/
namespace LdapBer

abbrev Bytes := List UInt8

/-- The bytes of an ASCII text. -/
def ascii (s : String) : Bytes :=
  s.toList.map fun c => c.toNat.toUInt8

/-- The part before the first NUL, where the texts that end at one stop. -/
def untilNul (s : Bytes) : Bytes :=
  s.takeWhile (· != 0)

def quoted (s : Bytes) : Bytes :=
  ascii "\"" ++ s ++ ascii "\""

def isDigit (c : UInt8) : Bool :=
  48 ≤ c && c ≤ 57

theorem isDigit_iff {c : UInt8} : isDigit c = true ↔ 48 ≤ c.toNat ∧ c.toNat ≤ 57 := by
  simp [isDigit, UInt8.le_iff_toNat_le]

/-- What an ASCII digit counts. -/
def digitValue (c : UInt8) : Nat :=
  c.toNat - 48

/-- The number that decimal digits spell. -/
def ofDigits (s : Bytes) : Nat :=
  s.foldl (fun n c => n * 10 + digitValue c) 0

/-- Further digits only make a number larger, whatever its base. -/
theorem le_foldl_digits {base : Nat} (h : 0 < base) (digit : UInt8 → Nat) (s : Bytes) (n : Nat) :
    n ≤ s.foldl (fun n c => n * base + digit c) n := by
  induction s generalizing n with
  | nil => exact Nat.le_refl n
  | cons c s ih =>
    calc n ≤ n * base := Nat.le_mul_of_pos_right n h
      _ ≤ n * base + digit c := Nat.le_add_right _ _
      _ ≤ (c :: s).foldl (fun n c => n * base + digit c) n := ih _

def isAlpha (c : UInt8) : Bool :=
  (65 ≤ c && c ≤ 90) || (97 ≤ c && c ≤ 122)

/-- The ASCII capitals become small letters and every other byte stays. -/
def lowercase (c : UInt8) : UInt8 :=
  if 65 ≤ c && c ≤ 90 then c + 32 else c

/-- Blanks of a line of text: space, tab, newline, vertical tab, form feed and return. -/
def isBlank (c : UInt8) : Bool :=
  c == 32 || (9 ≤ c && c ≤ 13)

/-- The digit of a number below 16, in capitals or in small letters. -/
def hexDigit (capitals : Bool) (n : Nat) : UInt8 :=
  if n < 10 then (48 + n).toUInt8 else if capitals then (55 + n).toUInt8 else (87 + n).toUInt8

/-- Decimal digits without leading zeros. -/
def decimal (n : Nat) : Bytes :=
  if n < 10 then [(48 + n).toUInt8] else decimal (n / 10) ++ [(48 + n % 10).toUInt8]

def decimalInt (n : Int) : Bytes :=
  if n < 0 then ascii "-" ++ decimal n.natAbs else decimal n.natAbs

/-- A byte as `0x` and two capital digits. -/
def hexByte (b : UInt8) : Bytes :=
  ascii "0x" ++ [hexDigit true (b.toNat / 16), hexDigit true (b.toNat % 16)]

/-- How many values `n` bytes have. -/
def byteRange : Nat → Nat
  | 0 => 1
  | n + 1 => 256 * byteRange n

/-- The sum of a list of sizes. -/
def total (sizes : List Nat) : Nat :=
  sizes.foldr (· + ·) 0

@[simp] theorem total_nil : total [] = 0 := rfl

@[simp] theorem total_cons (n : Nat) (sizes : List Nat) : total (n :: sizes) = n + total sizes :=
  rfl

/-- A front of bytes that hold and a byte behind it that does not are told apart. -/
theorem takeWhile_of_append {p : UInt8 → Bool} {s t : Bytes} (hs : ∀ c ∈ s, p c = true)
    (ht : ∀ c ∈ t.head?, p c = false) : (s ++ t).takeWhile p = s := by
  rw [List.takeWhile_append_of_pos hs]
  cases t with
  | nil => exact List.append_nil s
  | cons c t => simp [ht c rfl]

theorem dropWhile_of_append {p : UInt8 → Bool} {s t : Bytes} (hs : ∀ c ∈ s, p c = true)
    (ht : ∀ c ∈ t.head?, p c = false) : (s ++ t).dropWhile p = t := by
  rw [List.dropWhile_append_of_pos hs]
  cases t with
  | nil => rfl
  | cons c t => simp [ht c rfl]

/-- The first `n` bytes and the rest, if there are that many. -/
def splitExact (n : Nat) (s : Bytes) : Option (Bytes × Bytes) :=
  if (s.take n).length = n then some (s.take n, s.drop n) else none

theorem splitExact_eq_some_iff {n : Nat} {s a b : Bytes} :
    splitExact n s = some (a, b) ↔ s = a ++ b ∧ a.length = n := by
  unfold splitExact
  constructor
  · intro h
    split at h
    · next hn =>
      simp only [Option.some.injEq, Prod.mk.injEq] at h
      obtain ⟨rfl, rfl⟩ := h
      exact ⟨(List.take_append_drop n s).symm, hn⟩
    · cases h
  · rintro ⟨rfl, rfl⟩
    simp

theorem splitExact_eq_none_iff {n : Nat} {s : Bytes} : splitExact n s = none ↔ s.length < n := by
  unfold splitExact
  simp only [List.length_take, ite_eq_right_iff, reduceCtorEq, imp_false]
  omega

theorem splitExact_append {n : Nat} {s a b : Bytes} (h : splitExact n s = some (a, b))
    (t : Bytes) : splitExact n (s ++ t) = some (a, b ++ t) := by
  obtain ⟨rfl, hl⟩ := splitExact_eq_some_iff.mp h
  exact splitExact_eq_some_iff.mpr ⟨List.append_assoc a b t, hl⟩

end LdapBer
