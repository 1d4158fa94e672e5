import Mathlib.Data.List.Induction
import LdapBer.Ber.Header

/-! Length fields and the headers they belong to.

`LengthField n field` says that the bytes `field` stand for the length `n`, in the shortest form
or in a longer one. Reading a header takes such a field off the input, whichever form it has
(`read_field`), and takes nothing else (`field_of_read`). Once it has been decided, what comes
behind does not matter (`read_append`). What is written for a length of 32 bits is one of its fields
(`lengthField_lengthBytes`). -/
namespace LdapBer

/-! ### Numbers in 64 bits -/

theorem toUInt64_add (m n : Nat) : (m + n).toUInt64 = m.toUInt64 + n.toUInt64 :=
  UInt64.ofNat_add m n

theorem toNat_toUInt64 {n : Nat} (h : n < 0x10000000000000000) : n.toUInt64.toNat = n := by
  rw [UInt64.toNat_ofNat']
  exact Nat.mod_eq_of_lt h

theorem toUInt64_add_sub (m n : Nat) : (m + n).toUInt64 - m.toUInt64 = n.toUInt64 := by
  rw [toUInt64_add, UInt64.add_comm, UInt64.add_sub_cancel]

theorem toUInt64_add_toNat_sub (n : Nat) (x : UInt64) :
    (n + (x - n.toUInt64).toNat).toUInt64 = x := by
  have hdifference : (x - n.toUInt64).toNat.toUInt64 = x - n.toUInt64 := UInt64.ofNat_toNat
  rw [toUInt64_add, hdifference, UInt64.add_comm, UInt64.sub_add_cancel]

/-! ### Numbers in base 256 -/

theorem byteRange_succ (n : Nat) : byteRange (n + 1) = 256 * byteRange n := rfl

theorem byteRange_pos (n : Nat) : 0 < byteRange n := by
  induction n with
  | zero => decide
  | succ n ih =>
    rw [byteRange_succ]
    omega

theorem byteRange_dvd {m n : Nat} (h : m ≤ n) : byteRange m ∣ byteRange n := by
  induction h with
  | refl => exact Nat.dvd_refl _
  | step _ ih =>
    rw [byteRange_succ]
    exact Nat.dvd_mul_left_of_dvd ih 256

theorem byteRange_mono {m n : Nat} (h : m ≤ n) : byteRange m ≤ byteRange n :=
  Nat.le_of_dvd (byteRange_pos n) (byteRange_dvd h)

theorem ofBigEndian_concat (s : Bytes) (b : UInt8) :
    ofBigEndian (s ++ [b]) = ofBigEndian s * 256 + b.toNat := by
  simp [ofBigEndian]

theorem ofBigEndian_cons (b : UInt8) (s : Bytes) :
    ofBigEndian (b :: s) = b.toNat * byteRange s.length + ofBigEndian s := by
  suffices ∀ n, s.foldl (fun n b => n * 256 + b.toNat) n =
      n * byteRange s.length + ofBigEndian s by
    simpa [ofBigEndian] using this b.toNat
  induction s with
  | nil => simp [ofBigEndian, byteRange]
  | cons c s ih =>
    intro n
    have hc := ih c.toNat
    simp only [ofBigEndian, List.foldl_cons, List.length_cons, byteRange_succ] at hc ih ⊢
    rw [ih, Nat.zero_mul, Nat.zero_add, hc, Nat.add_mul, Nat.mul_assoc, Nat.add_assoc]

theorem ofBigEndian_lt (s : Bytes) : ofBigEndian s < byteRange s.length := by
  induction s with
  | nil => decide
  | cons b s ih =>
    have hb := b.toNat_lt
    have hle : (b.toNat + 1) * byteRange s.length ≤ 256 * byteRange s.length :=
      Nat.mul_le_mul_right _ (by omega)
    rw [Nat.add_mul] at hle
    rw [ofBigEndian_cons, List.length_cons, byteRange_succ]
    omega

/-- The last `k` digits of a number spell what is left of it modulo `256 ^ k`. -/
theorem ofBigEndian_bigEndian (k n : Nat) : ofBigEndian (bigEndian k n) = n % byteRange k := by
  induction k generalizing n with
  | zero => simp [bigEndian, ofBigEndian, byteRange, Nat.mod_one]
  | succ k ih =>
    rw [bigEndian, ofBigEndian_concat, ih, byteRange_succ, Nat.mod_mul]
    have hbyte : n.toUInt8.toNat = n % 256 := by simp
    rw [hbyte]
    omega

/-- Bytes are the digits of the number that they spell. -/
theorem bigEndian_ofBigEndian (s : Bytes) : bigEndian s.length (ofBigEndian s) = s := by
  induction s using List.reverseRecOn with
  | nil => rfl
  | append_singleton s b ih =>
    have hb := b.toNat_lt
    have hrest : (ofBigEndian s * 256 + b.toNat) / 256 = ofBigEndian s := by omega
    have hlast : (ofBigEndian s * 256 + b.toNat).toUInt8 = b := by
      apply UInt8.toNat_inj.mp
      rw [UInt8.toNat_ofNat']
      omega
    rw [List.length_append, List.length_singleton, bigEndian, ofBigEndian_concat, hrest, ih, hlast]

/-- Only the last `k` digits of a number are written. -/
theorem bigEndian_mod (k n : Nat) : bigEndian k (n % byteRange k) = bigEndian k n := by
  have hdigits := bigEndian_ofBigEndian (bigEndian k n)
  rwa [length_bigEndian, ofBigEndian_bigEndian] at hdigits

/-! ### Length fields -/

/-- The bytes that stand for a length: one byte below 0x80, or a byte that counts one to four
bytes and then these, which may start with needless zeros. -/
inductive LengthField : Nat → Bytes → Prop where
  | short {n : Nat} (h : n < 0x80) : LengthField n [n.toUInt8]
  | long (digits : Bytes) (hpos : 1 ≤ digits.length) (hle : digits.length ≤ 4) :
      LengthField (ofBigEndian digits) ((0x80 + digits.length).toUInt8 :: digits)

namespace LengthField

theorem length_le {n : Nat} {field : Bytes} (h : LengthField n field) : field.length ≤ 5 := by
  cases h with
  | short _ => simp
  | long digits _ hle =>
    simp only [List.length_cons]
    omega

theorem lt {n : Nat} {field : Bytes} (h : LengthField n field) : n < 0x100000000 := by
  cases h with
  | short h => omega
  | long digits _ hle =>
    exact Nat.lt_of_lt_of_le (ofBigEndian_lt digits) (byteRange_mono hle)

/-- A byte from 0x80 on counts the digits behind it. -/
theorem of_count {first : UInt8} {digits : Bytes} (hlong : ¬ first < 0x80)
    (hlength : digits.length = first.toNat - 0x80) (hpos : 1 ≤ digits.length)
    (hle : digits.length ≤ 4) : LengthField (ofBigEndian digits) (first :: digits) := by
  rw [UInt8.lt_iff_toNat_lt] at hlong
  have hfirst : (0x80 + digits.length).toUInt8 = first := by
    rw [hlength, Nat.add_sub_cancel' (by simpa using hlong)]
    exact UInt8.ofNat_toNat
  have hfield := LengthField.long digits hpos hle
  rwa [hfirst] at hfield

end LengthField

/-- The shortest field of a length stands for it. -/
theorem lengthField_lengthBytes {n : Nat} (h : n < 0x100000000) :
    LengthField n (lengthBytes n) := by
  by_cases hshort : n < 0x80
  · simp only [lengthBytes, hshort, if_true]
    exact .short hshort
  · -- the digits of a longer field, as many as `lengthSize` allows for
    have hdigits : ∀ k, 1 ≤ k → k ≤ 4 → n < byteRange k →
        LengthField n ((0x80 + k).toUInt8 :: bigEndian k n) := by
      intro k hpos hle hn
      have hfield := LengthField.long (bigEndian k n) (by simpa using hpos)
        (by simpa using hle)
      rwa [ofBigEndian_bigEndian, Nat.mod_eq_of_lt hn, length_bigEndian] at hfield
    simp only [lengthBytes, lengthSize, hshort, if_false]
    split
    · exact hdigits 1 (by decide) (by decide) (by simpa [byteRange] using ‹n < 0x100›)
    · split
      · exact hdigits 2 (by decide) (by decide) (by simpa [byteRange] using ‹n < 0x10000›)
      · split
        · exact hdigits 3 (by decide) (by decide) (by simpa [byteRange] using ‹n < 0x1000000›)
        · exact hdigits 4 (by decide) (by decide) (by simpa [byteRange] using h)

/-! ### Headers -/

namespace Header

/-- A tag and a length field are read as a header, whatever follows them. -/
theorem read_field {tag : UInt8} {n : Nat} {field : Bytes} (htag : Tag.number tag ≠ 31)
    (h : LengthField n field) (offset : UInt64) (rest : Bytes) :
    read offset (tag :: (field ++ rest)) =
      .ok (some (⟨tag, n, offset, 1 + field.length⟩, rest)) := by
  cases h with
  | short h =>
    have hn : n.toUInt8.toNat = n := by simp; omega
    have hlt : n.toUInt8 < 0x80 := by
      rw [UInt8.lt_iff_toNat_lt, hn]
      exact h
    simp [read, htag, hlt, hn]
  | long digits hpos hle =>
    have hcount : (0x80 + digits.length).toUInt8.toNat = 0x80 + digits.length := by
      simp; omega
    have hlt : ¬ (0x80 + digits.length).toUInt8 < 0x80 := by
      rw [UInt8.lt_iff_toNat_lt, hcount]
      simp
    have hsub : 0x80 + digits.length - 0x80 = digits.length := by omega
    have hsplit : splitExact digits.length (digits ++ rest) = some (digits, rest) :=
      splitExact_eq_some_iff.mpr ⟨rfl, rfl⟩
    have hzero : digits.length ≠ 0 := by omega
    have hwide : ¬ digits.length > 4 := by omega
    have hsize : 2 + digits.length = 1 + (digits.length + 1) := by omega
    simp only [read, htag, List.cons_append, hlt, hcount, hsub, hsplit, hzero, hwide, if_false,
      List.length_cons, hsize]

/-- A header that is read is a tag and a length field at the front of the input. -/
theorem field_of_read {offset : UInt64} {s rest : Bytes} {h : Header}
    (hr : read offset s = .ok (some (h, rest))) :
    ∃ field, LengthField h.length field ∧ Tag.number h.tag ≠ 31 ∧ h.offset = offset ∧
      h.size = 1 + field.length ∧ s = h.tag :: (field ++ rest) := by
  unfold read at hr
  split at hr
  · cases hr
  · split at hr
    · cases hr
    · next htag =>
      split at hr
      · cases hr
      · next first s =>
        split at hr
        · next hshort =>
          cases hr
          rw [UInt8.lt_iff_toNat_lt] at hshort
          have hfield := LengthField.short hshort
          rw [show first.toNat.toUInt8 = first from UInt8.ofNat_toNat] at hfield
          exact ⟨[first], hfield, htag, rfl, rfl, rfl⟩
        · next hlong =>
          dsimp only at hr
          split at hr
          · cases hr
          · next hzero =>
            split at hr
            · cases hr
            · next hwide =>
              split at hr
              · cases hr
              · next digits rest' hs =>
                cases hr
                obtain ⟨rfl, hl⟩ := splitExact_eq_some_iff.mp hs
                have hfield := LengthField.of_count hlong hl (by omega) (by omega)
                exact ⟨first :: digits, hfield, htag, rfl, by simp [hl]; omega, rfl⟩

/-- An answer other than that bytes are missing is the same for every longer input. -/
theorem read_append (offset : UInt64) (s t : Bytes) (h : read offset s ≠ .ok none) :
    read offset (s ++ t) =
      (read offset s).map (Option.map fun answer => (answer.1, answer.2 ++ t)) := by
  match s with
  | [] => exact absurd rfl h
  | [tag] =>
    by_cases htag : Tag.number tag = 31
    · simp only [read, htag, if_true, List.cons_append]
      rfl
    · simp [read, htag] at h
  | tag :: first :: s =>
    by_cases htag : Tag.number tag = 31
    · simp only [read, htag, if_true, List.cons_append]
      rfl
    · by_cases hshort : first < 0x80
      · simp only [read, htag, hshort, if_true, if_false, List.cons_append]
        rfl
      · simp only [read, htag, hshort, if_false, List.cons_append] at h ⊢
        by_cases hzero : first.toNat - 0x80 = 0
        · simp only [hzero, if_true]
          rfl
        · by_cases hwide : first.toNat - 0x80 > 4
          · simp only [hzero, hwide, if_true, if_false]
            rfl
          · simp only [hzero, hwide, if_false] at h ⊢
            cases hs : splitExact (first.toNat - 0x80) s with
            | none => simp [hs] at h
            | some parts =>
              rw [splitExact_append hs t]
              rfl

end Header

end LdapBer
