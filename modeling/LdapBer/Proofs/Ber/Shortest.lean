import LdapBer.Proofs.Ber.Integer
import LdapBer.Proofs.Ber.Length

/-! The shortest forms of lengths and integers.

A length has fields of one to five bytes, and an integer stands in any number of bytes that can
hold it. In each case one form has the fewest bytes, and this is the one that is written
(`isShortestField_iff`, `isShortestInteger_iff`). -/
namespace LdapBer

/-! ### Length fields -/

/-- No other field of the length has fewer bytes. -/
def IsShortestField (n : Nat) (field : Bytes) : Prop :=
  ∀ other, LengthField n other → field.length ≤ other.length

theorem lengthSize_mono {m n : Nat} (h : m ≤ n) : lengthSize m ≤ lengthSize n := by
  unfold lengthSize
  grind

/-- A number of `k` digits has a field of one more byte at most. -/
theorem lengthSize_le_of_lt {n k : Nat} (hpos : 1 ≤ k) (hle : k ≤ 4) (h : n < byteRange k) :
    lengthSize n ≤ 1 + k := by
  obtain rfl | rfl | rfl | rfl : k = 1 ∨ k = 2 ∨ k = 3 ∨ k = 4 := by omega
  all_goals
    simp only [byteRange] at h
    unfold lengthSize
    grind

namespace LengthField
variable {n : Nat} {field : Bytes}

theorem lengthSize_le (h : LengthField n field) : lengthSize n ≤ field.length := by
  cases h with
  | short hshort => simp [lengthSize, hshort]
  | long digits hpos hle =>
    have hdigits := lengthSize_le_of_lt hpos hle (ofBigEndian_lt digits)
    rw [List.length_cons]
    omega

/-- Only one field has as few bytes as the length allows. -/
theorem eq_lengthBytes (h : LengthField n field) (hsize : field.length ≤ lengthSize n) :
    field = lengthBytes n := by
  cases h with
  | short hshort => simp only [lengthBytes, hshort, if_true]
  | long digits hpos hle =>
    have hdigits := lengthSize_le_of_lt hpos hle (ofBigEndian_lt digits)
    rw [List.length_cons] at hsize
    have hsize : lengthSize (ofBigEndian digits) = 1 + digits.length := by omega
    have hlong : ¬ ofBigEndian digits < 0x80 := by
      intro hshort
      rw [lengthSize, if_pos hshort] at hsize
      omega
    have hcount : 0x7F + (1 + digits.length) = 0x80 + digits.length := by omega
    rw [lengthBytes, if_neg hlong, hsize, Nat.add_sub_cancel_left, bigEndian_ofBigEndian, hcount]

end LengthField

theorem isShortestField_iff {n : Nat} {field : Bytes} (h : LengthField n field) :
    IsShortestField n field ↔ field = lengthBytes n := by
  refine ⟨fun hshortest => ?_, fun heq => ?_⟩
  · have hle := hshortest _ (lengthField_lengthBytes h.lt)
    rw [length_lengthBytes] at hle
    exact h.eq_lengthBytes hle
  · intro other hother
    rw [heq, length_lengthBytes]
    exact hother.lengthSize_le

/-! ### Integers -/

/-- No other bytes that stand for the same integer are fewer. -/
def IsShortestInteger (s : Bytes) : Prop :=
  ∀ other, other ≠ [] → ofTwosComplement other = ofTwosComplement s → s.length ≤ other.length

/-- The integer that bytes stand for fits them. -/
theorem fitsBytes_ofTwosComplement {s : Bytes} (hs : s ≠ []) :
    fitsBytes (ofTwosComplement s) s.length = true := by
  match s with
  | b :: s =>
    have hfirst := first_lt_iff b s
    have hlt := ofBigEndian_lt (b :: s)
    rw [fitsBytes_iff, ofTwosComplement]
    by_cases hb : b < 0x80
    · have hhalf := hfirst.mp hb
      rw [if_pos hb]
      omega
    · have hhalf := mt hfirst.mpr hb
      rw [if_neg hb]
      omega

/-- Modulo what the bytes can spell, the integer is the number that they do. -/
theorem ofTwosComplement_emod (s : Bytes) :
    (ofTwosComplement s % byteRange s.length).toNat = ofBigEndian s := by
  have hlt := ofBigEndian_lt s
  match s with
  | [] => rfl
  | b :: s =>
    have hresidue : (ofBigEndian (b :: s) : Int) % byteRange (b :: s).length =
        ofBigEndian (b :: s) := Int.emod_eq_of_lt (by omega) (by omega)
    rw [ofTwosComplement]
    split
    · rw [hresidue, Int.toNat_natCast]
    · rw [Int.sub_emod_right, hresidue, Int.toNat_natCast]

theorem integerLength_le {v : Int} {n : Nat} (hn : 1 ≤ n) (h : fitsBytes v n = true) :
    integerLength v ≤ n := by
  have hbounds := integerLength_bounds v
  by_cases hlarge : 8 ≤ n
  · omega
  · unfold integerLength
    have hmem : n ∈ List.range' 1 7 := List.mem_range'_1.mpr (by omega)
    cases hfind : (List.range' 1 7).find? (fitsBytes v) with
    | none => exact absurd h (List.find?_eq_none.mp hfind n hmem)
    | some k =>
      obtain ⟨_, _, hleast⟩ := List.find?_range'_eq_some.mp hfind
      rw [Option.getD_some]
      refine Nat.le_of_not_lt fun hlt => ?_
      have hnot := hleast n hn hlt
      rw [h] at hnot
      cases hnot

theorem integerLength_ofTwosComplement_le {s : Bytes} (hs : s ≠ []) :
    integerLength (ofTwosComplement s) ≤ s.length :=
  integerLength_le (List.length_pos_iff.mpr hs) (fitsBytes_ofTwosComplement hs)

theorem isInt64_ofTwosComplement {s : Bytes} (hs : s ≠ []) (hle : s.length ≤ 8) :
    IsInt64 (ofTwosComplement s) := by
  obtain ⟨hlow, hhigh⟩ := fitsBytes_iff.mp (fitsBytes_ofTwosComplement hs)
  have hrange := byteRange_le hle
  unfold IsInt64
  omega

/-- Bytes are what is written for their integer if they are as many. -/
theorem integerBytes_eq_self_iff {s : Bytes} :
    integerBytes (ofTwosComplement s) = s ↔ integerLength (ofTwosComplement s) = s.length := by
  refine ⟨fun h => ?_, fun h => ?_⟩
  · rw [← length_integerBytes, h]
  · rw [integerBytes_eq, h, ofTwosComplement_emod, bigEndian_ofBigEndian]

theorem isShortestInteger_iff {s : Bytes} (hs : s ≠ []) (hle : s.length ≤ 8) :
    IsShortestInteger s ↔ s = integerBytes (ofTwosComplement s) := by
  have hint := isInt64_ofTwosComplement hs hle
  refine ⟨fun hshortest => ?_, fun heq => ?_⟩
  · have hbytes : integerBytes (ofTwosComplement s) ≠ [] := by
      apply List.ne_nil_of_length_pos
      rw [length_integerBytes]
      exact (integerLength_bounds _).1
    have hle := hshortest _ hbytes (ofTwosComplement_integerBytes hint)
    rw [length_integerBytes] at hle
    have hlength := Nat.le_antisymm (integerLength_ofTwosComplement_le hs) hle
    exact (integerBytes_eq_self_iff.mpr hlength).symm
  · intro other hother hvalue
    rw [heq, length_integerBytes, ← hvalue]
    exact integerLength_ofTwosComplement_le hother

end LdapBer
