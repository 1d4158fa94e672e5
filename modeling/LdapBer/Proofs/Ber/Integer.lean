import LdapBer.Ber.Primitive
import LdapBer.Proofs.Ber.Length

/-! Integers in two's complement.

Up to eight bytes that are shifted into a word filled with their sign leave the value that they
stand for in it (`toInt_shiftBytes`). A value that fits `n` bytes is spelled by the last `n` bytes
of its residue, and the first of them tells its sign (`ofTwosComplement_bigEndian`). Every value of
64 bits fits the bytes that `integerLength` gives it, so what is written for it is read back
(`readInteger_integerBytes`). -/
namespace LdapBer

/-- The value of bytes in two's complement. -/
def ofTwosComplement (s : Bytes) : Int :=
  match s with
  | [] => 0
  | b :: _ => if b < 0x80 then ofBigEndian s else (ofBigEndian s : Int) - byteRange s.length

/-- The first byte tells the sign: with it the bytes spell less than half of what they can. -/
theorem first_lt_iff (b : UInt8) (s : Bytes) :
    b < 0x80 ↔ 2 * ofBigEndian (b :: s) < byteRange (b :: s).length := by
  have hs := ofBigEndian_lt s
  have hb := b.toNat_lt
  rw [ofBigEndian_cons, List.length_cons, byteRange_succ, UInt8.lt_iff_toNat_lt]
  refine ⟨fun h => ?_, fun h => ?_⟩
  · have hb' : b.toNat + 1 ≤ 128 := h
    have := Nat.mul_le_mul_right (byteRange s.length) hb'
    rw [Nat.add_mul] at this
    omega
  · refine Nat.lt_of_not_le fun hge => ?_
    have hb' : 128 ≤ b.toNat := hge
    have := Nat.mul_le_mul_right (byteRange s.length) hb'
    omega

/-! ### Words -/

theorem byteRange_eight : byteRange 8 = 0x10000000000000000 := by decide

theorem byteRange_le {n : Nat} (h : n ≤ 8) : byteRange n ≤ 0x10000000000000000 :=
  byteRange_eight ▸ byteRange_mono h

/-- A byte that is shifted into a word becomes its last digit. -/
theorem toNat_shiftLeft_or (word : UInt64) (b : UInt8) :
    (word <<< 8 ||| b.toUInt64).toNat = (word.toNat * 256 + b.toNat) % 0x10000000000000000 := by
  have hb := b.toNat_lt
  have hshifted : (word <<< 8).toNat = (word.toNat % 0x100000000000000) <<< 8 := by
    rw [UInt64.toNat_shiftLeft, Nat.shiftLeft_eq, Nat.shiftLeft_eq]
    change word.toNat * 256 % 0x10000000000000000 = word.toNat % 0x100000000000000 * 256
    omega
  rw [UInt64.toNat_or, UInt8.toNat_toUInt64, hshifted,
    ← Nat.shiftLeft_add_eq_or_of_lt hb, Nat.shiftLeft_eq]
  omega

theorem toNat_shiftBytes (word : UInt64) (s : Bytes) :
    (shiftBytes word s).toNat =
      (word.toNat * byteRange s.length + ofBigEndian s) % 0x10000000000000000 := by
  induction s generalizing word with
  | nil =>
    have hnil : word.toNat * byteRange 0 + ofBigEndian [] = word.toNat := by
      simp [byteRange, ofBigEndian]
    rw [List.length_nil, hnil, Nat.mod_eq_of_lt word.toNat_lt]
    rfl
  | cons b s ih =>
    have hstep : shiftBytes word (b :: s) = shiftBytes (word <<< 8 ||| b.toUInt64) s := rfl
    have hvalue : word.toNat * byteRange (b :: s).length + ofBigEndian (b :: s) =
        (word.toNat * 256 + b.toNat) * byteRange s.length + ofBigEndian s := by
      rw [ofBigEndian_cons, List.length_cons, byteRange_succ, Nat.add_mul, Nat.mul_assoc,
        Nat.add_assoc]
    rw [hstep, ih, toNat_shiftLeft_or, hvalue, Nat.add_mod, Nat.mod_mul_mod, ← Nat.add_mod]

theorem toNat_signWord (b : UInt8) (s : Bytes) :
    (signWord (b :: s)).toNat = if b < 0x80 then 0 else 0xFFFFFFFFFFFFFFFF := by
  have hbits : ∀ n, n < 256 → (n &&& 128 = 0 ↔ n < 128) := by decide +kernel
  have hsign : b &&& 0x80 = 0 ↔ b < 0x80 := by
    rw [← UInt8.toNat_inj, UInt8.toNat_and, UInt8.lt_iff_toNat_lt]
    exact hbits _ b.toNat_lt
  by_cases hb : b < 0x80
  · simp [signWord, hsign.mpr hb, hb]
  · simp [signWord, mt hsign.mp hb, hb]

theorem toInt_toInt64 (word : UInt64) :
    word.toInt64.toInt = Int.bmod word.toNat 0x10000000000000000 := by
  rw [← Int64.toInt_toBitVec]
  simp [BitVec.toInt_eq_toNat_bmod]

/-- Behind their sign, bytes make the word of the value that they stand for. -/
theorem toInt_shiftBytes {s : Bytes} (h : s.length ≤ 8) :
    (shiftBytes (signWord s) s).toInt64.toInt = ofTwosComplement s := by
  match s with
  | [] => rfl
  | b :: s =>
    have hrange := byteRange_le h
    have hlt := ofBigEndian_lt (b :: s)
    have hfirst := first_lt_iff b s
    rw [toInt_toInt64, toNat_shiftBytes, toNat_signWord, ofTwosComplement]
    generalize ofBigEndian (b :: s) = n at hlt hfirst
    generalize byteRange (b :: s).length = range at hlt hfirst hrange
    by_cases hb : b < 0x80
    · have hhalf := hfirst.mp hb
      rw [if_pos hb, if_pos hb, Nat.zero_mul, Nat.zero_add, Nat.mod_eq_of_lt (by omega)]
      exact Int.bmod_eq_of_le (by omega) (by omega)
    · have hhalf := mt hfirst.mpr hb
      rw [if_neg hb, if_neg hb]
      -- modulo 2^64, the sign that is shifted to the left takes the range off
      have hword : (0xFFFFFFFFFFFFFFFF * range + n) % 0x10000000000000000 =
          0x10000000000000000 - range + n := by omega
      rw [hword, Int.bmod]
      omega

/-! ### Values -/

theorem fitsBytes_iff {v : Int} {n : Nat} :
    fitsBytes v n = true ↔ -(byteRange n : Int) ≤ 2 * v ∧ 2 * v < byteRange n := by
  simp [fitsBytes]

/-- The bytes of a value that fits them stand for it. -/
theorem ofTwosComplement_bigEndian {v : Int} {n : Nat} (hn : 1 ≤ n) (h : fitsBytes v n = true) :
    ofTwosComplement (bigEndian n (v % byteRange n).toNat) = v := by
  obtain ⟨hlow, hhigh⟩ := fitsBytes_iff.mp h
  have hpos : (0 : Int) < byteRange n := by exact_mod_cast byteRange_pos n
  have hnonneg := Int.emod_nonneg v (Int.ne_of_gt hpos)
  have hmod := Int.emod_lt_of_pos v hpos
  have hspell : (ofBigEndian (bigEndian n (v % byteRange n).toNat) : Int) = v % byteRange n := by
    rw [ofBigEndian_bigEndian, Nat.mod_eq_of_lt (by omega)]
    omega
  have hlength := length_bigEndian n (v % byteRange n).toNat
  generalize bigEndian n (v % byteRange n).toNat = s at hspell hlength
  match s with
  | [] =>
    simp only [List.length_nil] at hlength
    omega
  | b :: s =>
    have hfirst := first_lt_iff b s
    rw [hlength] at hfirst
    simp only [ofTwosComplement]
    by_cases hv : 0 ≤ v
    · have hresidue : v % byteRange n = v := Int.emod_eq_of_lt hv (by omega)
      rw [if_pos (hfirst.mpr (by omega)), hspell, hresidue]
    · have hresidue : v % byteRange n = v + byteRange n := by
        rw [← Int.add_emod_right, Int.emod_eq_of_lt (by omega) (by omega)]
      rw [if_neg (fun hb => absurd (hfirst.mp hb) (by omega)), hspell, hlength, hresidue]
      omega

/-- A value of 64 bits. -/
def IsInt64 (v : Int) : Prop :=
  -0x8000000000000000 ≤ v ∧ v ≤ 0x7FFFFFFFFFFFFFFF

theorem integerLength_bounds (v : Int) : 1 ≤ integerLength v ∧ integerLength v ≤ 8 := by
  unfold integerLength
  cases h : (List.range' 1 7).find? (fitsBytes v) with
  | none => simp
  | some n =>
    have hmem := List.mem_of_find?_eq_some h
    rw [List.mem_range'_1] at hmem
    simp only [Option.getD_some]
    omega

theorem fitsBytes_integerLength {v : Int} (h : IsInt64 v) :
    fitsBytes v (integerLength v) = true := by
  unfold integerLength
  cases hfind : (List.range' 1 7).find? (fitsBytes v) with
  | none =>
    obtain ⟨hlow, hhigh⟩ := h
    rw [Option.getD_none, fitsBytes_iff, byteRange_eight]
    omega
  | some n => exact List.find?_some hfind

/-- Of the word of a value, what is written depends only on the residue. -/
theorem integerBytes_eq (v : Int) :
    integerBytes v = bigEndian (integerLength v) (v % byteRange (integerLength v)).toNat := by
  have hdvd : (byteRange (integerLength v) : Int) ∣ (0x10000000000000000 : Nat) := by
    rw [← byteRange_eight]
    exact Int.natCast_dvd_natCast.mpr (byteRange_dvd (integerLength_bounds v).2)
  have hresidue : (v % 0x10000000000000000).toNat % byteRange (integerLength v) =
      (v % byteRange (integerLength v)).toNat := by
    rw [← Int.emod_emod_of_dvd v hdvd]
    have hword : 0 ≤ v % (0x10000000000000000 : Nat) := Int.emod_nonneg v (by decide)
    obtain ⟨n, hn⟩ := Int.eq_ofNat_of_zero_le hword
    rw [hn]
    exact congrArg (fun w : Int => w.toNat % _) hn
  rw [integerBytes, ← bigEndian_mod, hresidue]

theorem ofTwosComplement_integerBytes {v : Int} (h : IsInt64 v) :
    ofTwosComplement (integerBytes v) = v := by
  rw [integerBytes_eq]
  exact ofTwosComplement_bigEndian (integerLength_bounds v).1 (fitsBytes_integerLength h)

theorem readInteger_eq_ok_iff {low high v : Int} {s : Bytes} :
    readInteger low high s = .ok v ↔
      (1 ≤ s.length ∧ s.length ≤ 8) ∧ ofTwosComplement s = v ∧ low ≤ v ∧ v ≤ high := by
  unfold readInteger
  split
  · simp only [reduceCtorEq, false_iff]
    omega
  · dsimp only
    rw [toInt_shiftBytes (by omega)]
    split
    · simp only [reduceCtorEq, false_iff]
      omega
    · simp only [Except.ok.injEq]
      constructor
      · intro h
        obtain rfl := h
        omega
      · exact fun h => h.2.1

/-- What is written for a value of 64 bits is read back wherever the value is allowed. -/
theorem readInteger_integerBytes {low high v : Int} (h : IsInt64 v) (hlow : low ≤ v)
    (hhigh : v ≤ high) : readInteger low high (integerBytes v) = .ok v := by
  rw [readInteger_eq_ok_iff, length_integerBytes]
  exact ⟨integerLength_bounds v, ofTwosComplement_integerBytes h, hlow, hhigh⟩

end LdapBer
