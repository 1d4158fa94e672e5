import LdapBer.Proofs.Ber.Layout
import LdapBer.Proofs.Ber.Shortest

/-! Integers without a needless byte.

The first byte of an integer is needless if it only repeats the sign that the second byte has. The
bytes behind it then have room for the value, and in no other case (`fitsBytes_tail_iff`). So the
bytes that are written for a value can be told by their first nine bits
(`readInteger_inverts_integerBytes`). -/
namespace LdapBer

/-- One byte, or more of which the first nine bits are neither all 0 nor all 1. -/
def IsMinimalInteger : Bytes → Prop
  | [] => False
  | [_] => True
  | a :: b :: _ => ¬ (a = 0x00 ∧ b < 0x80) ∧ ¬ (a = 0xFF ∧ ¬ b < 0x80)

theorem fitsBytes_mono {v : Int} {m n : Nat} (h : fitsBytes v m = true) (hle : m ≤ n) :
    fitsBytes v n = true := by
  have hrange := byteRange_mono hle
  rw [fitsBytes_iff] at h ⊢
  omega

/-- What fits some bytes needs one byte more exactly if it does not fit one byte less. -/
theorem integerLength_eq_succ_iff {v : Int} {n : Nat} (hv : IsInt64 v) (hn : 1 ≤ n)
    (h : fitsBytes v (n + 1) = true) : integerLength v = n + 1 ↔ ¬ fitsBytes v n = true := by
  have hle := integerLength_le (Nat.le_add_left 1 n) h
  refine ⟨fun heq hfits => ?_, fun hnot => ?_⟩
  · have := integerLength_le hn hfits
    omega
  · by_contra hne
    exact hnot (fitsBytes_mono (fitsBytes_integerLength hv) (by omega))

/-- The bytes behind the first have room for the value if the first is nothing but their sign. -/
theorem fitsBytes_tail_iff (a b : UInt8) (s : Bytes) :
    fitsBytes (ofTwosComplement (a :: b :: s)) (b :: s).length = true ↔
      (a = 0x00 ∧ b < 0x80) ∨ (a = 0xFF ∧ ¬ b < 0x80) := by
  have hzero : a = 0x00 ↔ a.toNat = 0 := by rw [← UInt8.toNat_inj]; rfl
  have hones : a = 0xFF ↔ a.toNat = 0xFF := by rw [← UInt8.toNat_inj]; rfl
  have ha := a.toNat_lt
  have hrest := ofBigEndian_lt (b :: s)
  have hsign := first_lt_iff b s
  have hvalue := ofBigEndian_cons a (b :: s)
  have hrange : byteRange (a :: b :: s).length = 256 * byteRange (b :: s).length := rfl
  rw [fitsBytes_iff, ofTwosComplement, hvalue, hrange, hzero, hones, hsign]
  generalize ofBigEndian (b :: s) = rest at hrest
  generalize byteRange (b :: s).length = range at hrest
  by_cases hpositive : a < 0x80
  · have hfirst : a.toNat < 0x80 := hpositive
    rw [if_pos hpositive]
    by_cases h0 : a.toNat = 0
    · rw [h0, Nat.zero_mul]
      omega
    · have hlarge : range ≤ a.toNat * range := Nat.le_mul_of_pos_left range (by omega)
      omega
  · have hfirst : ¬ a.toNat < 0x80 := hpositive
    rw [if_neg hpositive]
    by_cases h255 : a.toNat = 0xFF
    · rw [h255]
      omega
    · have hsmall : a.toNat * range ≤ 254 * range := Nat.mul_le_mul_right range (by omega)
      omega

theorem isMinimalInteger_iff {s : Bytes} (hs : s ≠ []) (hle : s.length ≤ 8) :
    IsMinimalInteger s ↔ integerLength (ofTwosComplement s) = s.length := by
  match s with
  | [a] =>
    have hlength := integerLength_ofTwosComplement_le hs
    have hbounds := integerLength_bounds (ofTwosComplement [a])
    have heq : integerLength (ofTwosComplement [a]) = 1 := Nat.le_antisymm hlength hbounds.1
    exact iff_of_true trivial heq
  | a :: b :: s =>
    have hfits := fitsBytes_ofTwosComplement hs
    have hsucc : integerLength (ofTwosComplement (a :: b :: s)) = (a :: b :: s).length ↔
        ¬ fitsBytes (ofTwosComplement (a :: b :: s)) (b :: s).length = true :=
      integerLength_eq_succ_iff (isInt64_ofTwosComplement hs hle) (Nat.le_add_left 1 _) hfits
    rw [hsucc, fitsBytes_tail_iff, not_or]
    rfl

/-- Writing an integer that was read gives the same bytes if they are minimal. -/
theorem integerBytes_eq_iff {low high v : Int} {s : Bytes} (h : readInteger low high s = .ok v) :
    integerBytes v = s ↔ IsMinimalInteger s := by
  obtain ⟨⟨hpos, hle⟩, rfl, -⟩ := readInteger_eq_ok_iff.mp h
  rw [integerBytes_eq_self_iff, isMinimalInteger_iff (List.ne_nil_of_length_pos hpos) hle]

theorem integerLength_le_of_read {low high v : Int} {s : Bytes}
    (h : readInteger low high s = .ok v) : integerLength v ≤ s.length := by
  obtain ⟨⟨hpos, -⟩, rfl, -⟩ := readInteger_eq_ok_iff.mp h
  exact integerLength_ofTwosComplement_le (List.ne_nil_of_length_pos hpos)

/-- **Integers are read from what is written, which is the fewest bytes.** For every value of 64
bits as many bytes are written as `integerLength` says; they are read back in every range that
has the value in it, and no fewer bytes are ever read as the value. A byte string is read in a range
exactly if it has one to eight bytes and the range has its value in two's complement, and it is
written again as it came exactly if its first byte is not needless. -/
theorem readInteger_inverts_integerBytes :
    (∀ v : Int, IsInt64 v →
      (∀ (tag : UInt8) (w : Writer), elementSize (integerLength v) ≤ w.remaining →
        w.write (Layout.integer tag v) =
          (⟨w.out ++ (Header.bytes tag (integerLength v) ++ integerBytes v),
            w.remaining - elementSize (integerLength v)⟩, none)) ∧
      (integerBytes v).length = integerLength v ∧
      (∀ low high, low ≤ v → v ≤ high → readInteger low high (integerBytes v) = .ok v) ∧
      ∀ s, readInteger (-0x8000000000000000) 0x7FFFFFFFFFFFFFFF s = .ok v →
        integerLength v ≤ s.length) ∧
    ∀ (low high v : Int) (s : Bytes),
      (readInteger low high s = .ok v ↔
        (1 ≤ s.length ∧ s.length ≤ 8) ∧ ofTwosComplement s = v ∧ low ≤ v ∧ v ≤ high) ∧
      (readInteger low high s = .ok v → (integerBytes v = s ↔ IsMinimalInteger s)) := by
  refine ⟨fun v hv => ⟨fun tag w hroom => ?_, length_integerBytes v, fun low high => ?_,
    fun s => integerLength_le_of_read⟩, fun low high v s => ⟨readInteger_eq_ok_iff,
    integerBytes_eq_iff⟩⟩
  · have hbounds := integerLength_bounds v
    have hlt : (integerBytes v).length < 0x100000000 := by
      rw [length_integerBytes]
      omega
    rw [Layout.integer_eq_octets, ← length_integerBytes]
    exact Layout.write_octets hlt (by rwa [length_integerBytes])
  · exact readInteger_integerBytes hv

/-- The least value of 64 bits, and the least of two bytes with a needless one in front. -/
theorem readInteger_inverts_integerBytes_least :
    let least : Int := -0x8000000000000000
    let padded : Bytes := [0xFF, 0x80, 0x00]
    IsInt64 least ∧ elementSize (integerLength least) ≤ 12 ∧
      (Writer.mk [0x05] 12).write (Layout.integer 0x02 least) =
        (⟨[0x05, 0x02, 0x08, 0x80, 0, 0, 0, 0, 0, 0, 0], 2⟩, none) ∧
      readInteger least 0 (integerBytes least) = .ok least ∧
      readInteger least 0x7FFFFFFFFFFFFFFF padded = .ok (-0x8000) ∧
      integerLength (-0x8000) ≤ padded.length ∧
      (integerBytes (-0x8000) = padded ↔ IsMinimalInteger padded) := by
  intro least padded
  have hleast : IsInt64 least := ⟨by decide, by decide⟩
  have hvalue : IsInt64 (-0x8000) := ⟨by decide, by decide⟩
  have hroom : elementSize (integerLength least) ≤ 12 := by decide
  have hread : readInteger least 0x7FFFFFFFFFFFFFFF padded = .ok (-0x8000) := by decide
  obtain ⟨hwritten, hgiven⟩ := readInteger_inverts_integerBytes
  obtain ⟨hwrite, -, hback, -⟩ := hwritten least hleast
  obtain ⟨-, -, -, hfewest⟩ := hwritten (-0x8000) hvalue
  obtain ⟨-, hsame⟩ := hgiven least 0x7FFFFFFFFFFFFFFF (-0x8000) padded
  exact ⟨hleast, hroom, (hwrite 0x02 ⟨[0x05], 12⟩ hroom).trans (by decide),
    hback least 0 (by decide) (by decide), hread, hfewest padded hread, hsame hread⟩

end LdapBer
