import Mathlib.Algebra.Group.Nat.Defs
import LdapBer.Base64

/-! Base 64 regroups bits.

The bits of the bytes, eight for each, are cut into letters of six bits each. A number has the same
bits however they are grouped (`bits_add`), so the letters of a group, of a pair and of a single
byte spell the bits of their bytes, with zeros behind the last (`letterBits_encodeFrom`). What comes
in between, newlines and padding, is told from the letters, and as a line takes whole groups of
letters it is full exactly when it is wrapped (`isWrapped_encodeFrom`). Together these make up
`encode_spells`. -/
namespace LdapBer.Base64

/-! ### Bits -/

/-- The last `k` bits of a number, the highest of them first. -/
def bits : Nat → Nat → List Bool
  | 0, _ => []
  | k + 1, n => bits k (n / 2) ++ [n % 2 == 1]

/-- The number that bits spell. -/
def ofBits (s : List Bool) : Nat :=
  s.foldl (fun n b => 2 * n + b.toNat) 0

@[simp] theorem length_bits (k n : Nat) : (bits k n).length = k := by
  induction k generalizing n with
  | zero => rfl
  | succ k ih => simp [bits, ih]

/-- The bits of a number in two parts. -/
theorem bits_add (j k n : Nat) : bits (j + k) n = bits j (n / 2 ^ k) ++ bits k n := by
  induction k generalizing n with
  | zero => simp [bits]
  | succ k ih => rw [← Nat.add_assoc, bits, ih, bits, Nat.pow_succ', ← Nat.div_div_eq_div_mul,
      List.append_assoc]

theorem bits_mod (k n : Nat) : bits k (n % 2 ^ k) = bits k n := by
  induction k generalizing n with
  | zero => rfl
  | succ k ih =>
    have hrest : n % 2 ^ (k + 1) / 2 = n / 2 % 2 ^ k := by
      rw [Nat.pow_succ', Nat.mod_mul_right_div_self]
    have hlast : n % 2 ^ (k + 1) % 2 = n % 2 := by
      rw [Nat.pow_succ', Nat.mod_mul_right_mod]
    rw [bits, bits, hrest, hlast, ih]

theorem bits_zero (k : Nat) : bits k 0 = List.replicate k false := by
  induction k with
  | zero => rfl
  | succ k ih => rw [bits, ih, List.replicate_succ']; rfl

theorem ofBits_concat (s : List Bool) (b : Bool) : ofBits (s ++ [b]) = 2 * ofBits s + b.toNat := by
  simp [ofBits]

theorem ofBits_bits (k n : Nat) : ofBits (bits k n) = n % 2 ^ k := by
  induction k generalizing n with
  | zero => simp [bits, ofBits, Nat.mod_one]
  | succ k ih =>
    have hlast : (n % 2 == 1).toNat = n % 2 := by
      rcases Nat.mod_two_eq_zero_or_one n with h | h <;> simp [h]
    rw [bits, ofBits_concat, ih, hlast, Nat.pow_succ', Nat.mod_mul, Nat.add_comm]

theorem bits_congr {k m n : Nat} (h : m % 2 ^ k = n % 2 ^ k) : bits k m = bits k n := by
  rw [← bits_mod k m, h, bits_mod]

/-! ### Decoding -/

/-- The number that a letter stands for. -/
def letterValue (c : UInt8) : Option Nat :=
  if 65 ≤ c && c ≤ 90 then some (c.toNat - 65)
  else if 97 ≤ c && c ≤ 122 then some (c.toNat - 97 + 26)
  else if 48 ≤ c && c ≤ 57 then some (c.toNat - 48 + 52)
  else if c = 43 then some 62
  else if c = 47 then some 63
  else none

/-- The bits of letters, six for each. -/
def letterBits : Bytes → Option (List Bool)
  | [] => some []
  | c :: s =>
    match letterValue c, letterBits s with
    | some n, some rest => some (bits 6 n ++ rest)
    | _, _ => none

/-- The bytes that bits spell, eight bits for each. Fewer than the bits of a letter may be left
over, if they are zeros. -/
def octets (s : List Bool) : Option Bytes :=
  if s.length < 8 then
    if s.length < 6 ∧ s.all (!·) then some [] else none
  else (octets (s.drop 8)).map ((ofBits (s.take 8)).toUInt8 :: ·)
termination_by s.length

/-- The bytes that letters spell, if all are letters and the bits that are left over are zeros. -/
def decode (letters : Bytes) : Option Bytes :=
  (letterBits letters).bind octets

theorem octets_bits (s : Bytes) {z : Nat} (hz : z < 6) :
    octets ((s.flatMap fun b => bits 8 b.toNat) ++ List.replicate z false) = some s := by
  induction s with
  | nil =>
    rw [List.flatMap_nil, List.nil_append, octets, List.length_replicate, if_pos (by omega)]
    simp [hz]
  | cons b s ih =>
    have hbyte : (ofBits (bits 8 b.toNat)).toUInt8 = b := by
      rw [ofBits_bits, Nat.mod_eq_of_lt b.toNat_lt]
      exact UInt8.ofNat_toNat
    have hlength := length_bits 8 b.toNat
    rw [List.flatMap_cons, List.append_assoc, octets, if_neg (by simp), List.drop_left' hlength,
      List.take_left' hlength, ih, hbyte]
    rfl

theorem letterValue_letter {n : UInt32} (h : n.toNat < 64) :
    letterValue (letter n) = some n.toNat := by
  have hletters : ∀ i < 64, letterValue (alphabet.getD i 0) = some i := by decide +kernel
  exact hletters n.toNat h

theorem letterBits_letter {n : UInt32} (h : n.toNat < 64) (s : Bytes) :
    letterBits (letter n :: s) = (letterBits s).map (bits 6 n.toNat ++ ·) := by
  rw [letterBits, letterValue_letter h]
  cases letterBits s <;> rfl

theorem letterBits_append {s : Bytes} {bs : List Bool} (h : letterBits s = some bs) (t : Bytes) :
    letterBits (s ++ t) = (letterBits t).map (bs ++ ·) := by
  induction s generalizing bs with
  | nil =>
    cases h
    simp
  | cons c s ih =>
    unfold letterBits at h
    split at h
    · next n rest hvalue hrest =>
      cases h
      rw [List.cons_append, letterBits, hvalue, ih hrest]
      cases letterBits t <;> simp
    · cases h

/-- Neither a newline nor padding stands for bits. -/
theorem ne_of_letterBits {s : Bytes} {bs : List Bool} (h : letterBits s = some bs) :
    ∀ c ∈ s, c ≠ 10 ∧ c ≠ 61 := by
  induction s generalizing bs with
  | nil => nofun
  | cons c s ih =>
    unfold letterBits at h
    split at h
    · next n rest hvalue hrest =>
      refine List.forall_mem_cons.mpr ⟨⟨?_, ?_⟩, ih hrest⟩
      · rintro rfl
        cases hvalue
      · rintro rfl
        cases hvalue
    · cases h

/-! ### Words -/

section Words

variable {m n k : UInt32} {i : Nat}

theorem toNat_shiftLeft (hk : k.toNat = i) (hi : i < 32) (hn : n.toNat * 2 ^ i < 2 ^ 32) :
    (n <<< k).toNat = n.toNat * 2 ^ i := by
  rw [UInt32.toNat_shiftLeft, hk, Nat.mod_eq_of_lt hi, Nat.shiftLeft_eq, Nat.mod_eq_of_lt hn]

theorem toNat_shiftRight (hk : k.toNat = i) (hi : i < 32) : (n >>> k).toNat = n.toNat / 2 ^ i := by
  rw [UInt32.toNat_shiftRight, hk, Nat.mod_eq_of_lt hi, Nat.shiftRight_eq_div_pow]

theorem toNat_mask (hm : m.toNat = 2 ^ i - 1) : (n &&& m).toNat = n.toNat % 2 ^ i := by
  rw [UInt32.toNat_and, hm, Nat.and_two_pow_sub_one_eq_mod]

/-- Bits that are put behind others add to them. -/
theorem toNat_or {q : Nat} (hm : m.toNat = q * 2 ^ i) (hn : n.toNat < 2 ^ i) :
    (m ||| n).toNat = q * 2 ^ i + n.toNat := by
  rw [UInt32.toNat_or, hm, ← Nat.shiftLeft_eq, Nat.shiftLeft_add_eq_or_of_lt hn]

end Words

/-- The word of three bytes. -/
theorem toNat_word (a b c : UInt8) :
    (a.toUInt32 <<< 16 ||| b.toUInt32 <<< 8 ||| c.toUInt32).toNat =
      (a.toNat * 2 ^ 8 + b.toNat) * 2 ^ 8 + c.toNat := by
  have ha := a.toNat_lt
  have hb := b.toNat_lt
  have hc := c.toNat_lt
  have hfirst : (a.toUInt32 <<< 16).toNat = a.toNat * 2 ^ 16 :=
    toNat_shiftLeft rfl (by decide) (by rw [UInt8.toNat_toUInt32]; omega)
  have hsecond : (b.toUInt32 <<< 8).toNat = b.toNat * 2 ^ 8 :=
    toNat_shiftLeft rfl (by decide) (by rw [UInt8.toNat_toUInt32]; omega)
  have hfront : (a.toUInt32 <<< 16 ||| b.toUInt32 <<< 8).toNat =
      (a.toNat * 2 ^ 8 + b.toNat) * 2 ^ 8 := by
    rw [toNat_or hfirst (by omega), hsecond]
    omega
  rw [toNat_or hfront (by rwa [UInt8.toNat_toUInt32]), UInt8.toNat_toUInt32]

/-! ### Letters of bytes -/

theorem letterBits_group (a b c : UInt8) :
    letterBits (group a b c) = some (bits 8 a.toNat ++ bits 8 b.toNat ++ bits 8 c.toNat) := by
  have hword := toNat_word a b c
  have ha := a.toNat_lt
  have hb := b.toNat_lt
  have hc := c.toNat_lt
  unfold group
  dsimp only
  generalize a.toUInt32 <<< 16 ||| b.toUInt32 <<< 8 ||| c.toUInt32 = n at hword ⊢
  have hfirst : (n >>> 18).toNat = n.toNat / 2 ^ 18 := toNat_shiftRight rfl (by decide)
  have hsecond : (n >>> 12 &&& 0x3F).toNat = n.toNat / 2 ^ 12 % 2 ^ 6 := by
    rw [toNat_mask (i := 6) rfl, toNat_shiftRight (i := 12) rfl (by decide)]
  have hthird : (n >>> 6 &&& 0x3F).toNat = n.toNat / 2 ^ 6 % 2 ^ 6 := by
    rw [toNat_mask (i := 6) rfl, toNat_shiftRight (i := 6) rfl (by decide)]
  have hfourth : (n &&& 0x3F).toNat = n.toNat % 2 ^ 6 := toNat_mask rfl
  have hbytes : bits (8 + 8 + 8) n.toNat = bits 8 a.toNat ++ bits 8 b.toNat ++ bits 8 c.toNat := by
    rw [bits_add, bits_add, bits_congr (n := a.toNat) (by omega),
      bits_congr (m := n.toNat / 2 ^ 8) (n := b.toNat) (by omega),
      bits_congr (m := n.toNat) (n := c.toNat) (by omega)]
  have hletters : bits (6 + 6 + 6 + 6) n.toNat =
      bits 6 (n.toNat / 2 ^ 18) ++ bits 6 (n.toNat / 2 ^ 12) ++ bits 6 (n.toNat / 2 ^ 6) ++
        bits 6 n.toNat := by
    simp only [bits_add, Nat.div_div_eq_div_mul, Nat.reducePow, Nat.reduceMul]
  rw [letterBits_letter (by omega), letterBits_letter (by omega), letterBits_letter (by omega),
    letterBits_letter (by omega), hfirst, hsecond, hthird, hfourth]
  simp only [bits_mod]
  rw [← hbytes, show bits (8 + 8 + 8) n.toNat = bits (6 + 6 + 6 + 6) n.toNat from rfl, hletters]
  simp [letterBits]

/-- The bits of two bytes, and two zeros that make them up to three letters. -/
theorem letterBits_pair (a b : UInt8) :
    letterBits (pair a b) = some (bits 8 a.toNat ++ bits 8 b.toNat ++ List.replicate 2 false) := by
  have ha := a.toNat_lt
  have hb := b.toNat_lt
  have hfirst : (a.toUInt32 >>> 2).toNat = a.toNat / 2 ^ 2 := toNat_shiftRight rfl (by decide)
  have hhigh : (b.toUInt32 >>> 4).toNat = b.toNat / 2 ^ 4 := toNat_shiftRight rfl (by decide)
  have hfront : (a.toUInt32 <<< 4).toNat = a.toNat * 2 ^ 4 :=
    toNat_shiftLeft rfl (by decide) (by rw [UInt8.toNat_toUInt32]; omega)
  have hsecond : ((a.toUInt32 <<< 4 ||| b.toUInt32 >>> 4) &&& 0x3F).toNat =
      (a.toNat * 2 ^ 4 + b.toNat / 2 ^ 4) % 2 ^ 6 := by
    rw [toNat_mask (i := 6) rfl, toNat_or hfront (by omega), hhigh]
  have hlow : (b.toUInt32 &&& 0x0F).toNat = b.toNat % 2 ^ 4 := toNat_mask rfl
  have hthird : ((b.toUInt32 &&& 0x0F) <<< 2).toNat = b.toNat % 2 ^ 4 * 2 ^ 2 := by
    rw [toNat_shiftLeft (i := 2) rfl (by decide) (by omega), hlow]
  generalize hn : (a.toNat * 2 ^ 8 + b.toNat) * 2 ^ 2 = n
  have hbytes : bits (8 + 8 + 2) n =
      bits 8 a.toNat ++ bits 8 b.toNat ++ List.replicate 2 false := by
    rw [bits_add, bits_add, ← bits_zero, bits_congr (n := a.toNat) (by omega),
      bits_congr (m := n / 2 ^ 2) (n := b.toNat) (by omega),
      bits_congr (m := n) (n := 0) (by omega)]
  have hletters : bits (6 + 6 + 6) n =
      bits 6 (a.toNat / 2 ^ 2) ++ bits 6 (a.toNat * 2 ^ 4 + b.toNat / 2 ^ 4) ++
        bits 6 (b.toNat % 2 ^ 4 * 2 ^ 2) := by
    rw [bits_add, bits_add, bits_congr (n := a.toNat / 2 ^ 2) (by omega),
      bits_congr (m := n / 2 ^ 6) (n := a.toNat * 2 ^ 4 + b.toNat / 2 ^ 4) (by omega),
      bits_congr (m := n) (n := b.toNat % 2 ^ 4 * 2 ^ 2) (by omega)]
  unfold pair
  rw [letterBits_letter (by omega), letterBits_letter (by omega), letterBits_letter (by omega),
    hfirst, hsecond, hthird, bits_mod, ← hbytes,
    show bits (8 + 8 + 2) n = bits (6 + 6 + 6) n from rfl, hletters]
  simp [letterBits]

/-- The bits of a byte, and four zeros that make them up to two letters. -/
theorem letterBits_single (a : UInt8) :
    letterBits (single a) = some (bits 8 a.toNat ++ List.replicate 4 false) := by
  have ha := a.toNat_lt
  have hfirst : (a.toUInt32 >>> 2).toNat = a.toNat / 2 ^ 2 := toNat_shiftRight rfl (by decide)
  have hlow : (a.toUInt32 &&& 0x03).toNat = a.toNat % 2 ^ 2 := toNat_mask rfl
  have hsecond : ((a.toUInt32 &&& 0x03) <<< 4).toNat = a.toNat % 2 ^ 2 * 2 ^ 4 := by
    rw [toNat_shiftLeft (i := 4) rfl (by decide) (by omega), hlow]
  generalize hn : a.toNat * 2 ^ 4 = n
  have hbytes : bits (8 + 4) n = bits 8 a.toNat ++ List.replicate 4 false := by
    rw [bits_add, ← bits_zero, bits_congr (n := a.toNat) (by omega),
      bits_congr (m := n) (n := 0) (by omega)]
  have hletters : bits (6 + 6) n =
      bits 6 (a.toNat / 2 ^ 2) ++ bits 6 (a.toNat % 2 ^ 2 * 2 ^ 4) := by
    rw [bits_add, bits_congr (n := a.toNat / 2 ^ 2) (by omega),
      bits_congr (m := n) (n := a.toNat % 2 ^ 2 * 2 ^ 4) (by omega)]
  unfold single
  rw [letterBits_letter (by omega), letterBits_letter (by omega), hfirst, hsecond, ← hbytes,
    show bits (8 + 4) n = bits (6 + 6) n from rfl, hletters]
  simp [letterBits]

/-! ### Whole texts -/

/-- The letters of a text without its newlines and its padding. -/
def letters (out : Bytes) : Bytes :=
  out.filter fun c => c != 10 && c != 61

theorem letters_eq {s : Bytes} {bs : List Bool} (h : letterBits s = some bs) : letters s = s := by
  refine List.filter_eq_self.mpr fun c hc => ?_
  simpa using ne_of_letterBits h c hc

theorem letters_append (s t : Bytes) : letters (s ++ t) = letters s ++ letters t :=
  List.filter_append s t

/-- The letters of an encoded text spell the bits of the bytes, and less zeros than a letter has. -/
theorem letterBits_encodeFrom (wrap padded : Bool) (column : Nat) (s : Bytes) :
    ∃ z < 6, letterBits (letters (encodeFrom wrap padded column s)) =
      some ((s.flatMap fun b => bits 8 b.toNat) ++ List.replicate z false) := by
  fun_induction encodeFrom wrap padded column s with
  | case1 column a b c s _ ih =>
    obtain ⟨z, hz, ih⟩ := ih
    refine ⟨z, hz, ?_⟩
    have hnewline : letters (10 :: encodeFrom wrap padded 0 s) =
        letters (encodeFrom wrap padded 0 s) :=
      List.filter_cons_of_neg (by simp)
    rw [letters_append, letters_eq (letterBits_group a b c), hnewline,
      letterBits_append (letterBits_group a b c), ih]
    simp
  | case2 column a b c s _ ih =>
    obtain ⟨z, hz, ih⟩ := ih
    refine ⟨z, hz, ?_⟩
    rw [letters_append, letters_eq (letterBits_group a b c),
      letterBits_append (letterBits_group a b c), ih]
    simp
  | case3 column a b =>
    have hpadding : letters (if padded then ascii "=" else []) = [] := by cases padded <;> rfl
    refine ⟨2, by decide, ?_⟩
    rw [letters_append, letters_eq (letterBits_pair a b), hpadding, List.append_nil,
      letterBits_pair]
    simp
  | case4 column a =>
    have hpadding : letters (if padded then ascii "==" else []) = [] := by cases padded <;> rfl
    refine ⟨4, by decide, ?_⟩
    rw [letters_append, letters_eq (letterBits_single a), hpadding, List.append_nil,
      letterBits_single]
    simp
  | case5 => exact ⟨0, by decide, rfl⟩

theorem not_mem_of_letterBits {s : Bytes} {bs : List Bool} (h : letterBits s = some bs) : 10 ∉ s :=
  fun hc => (ne_of_letterBits h 10 hc).1 rfl

theorem not_mem_pair (padded : Bool) (a b : UInt8) :
    10 ∉ pair a b ++ if padded then ascii "=" else [] := by
  have hpadding : 10 ∉ if padded then ascii "=" else [] := by cases padded <;> decide
  exact List.not_mem_append (not_mem_of_letterBits (letterBits_pair a b)) hpadding

theorem not_mem_single (padded : Bool) (a : UInt8) :
    10 ∉ single a ++ if padded then ascii "==" else [] := by
  have hpadding : 10 ∉ if padded then ascii "==" else [] := by cases padded <;> decide
  exact List.not_mem_append (not_mem_of_letterBits (letterBits_single a)) hpadding

theorem filter_of_not_mem {s : Bytes} (h : 10 ∉ s) : s.filter (· != 10) = s := by
  refine List.filter_eq_self.mpr fun c hc => ?_
  simpa using ne_of_mem_of_not_mem hc h

/-- How many characters there are besides the newlines. -/
theorem length_encodeFrom (wrap padded : Bool) (column : Nat) (s : Bytes) :
    ((encodeFrom wrap padded column s).filter (· != 10)).length =
      if padded then 4 * ((s.length + 2) / 3) else (4 * s.length + 2) / 3 := by
  fun_induction encodeFrom wrap padded column s with
  | case1 column a b c s _ ih =>
    have hgroup := not_mem_of_letterBits (letterBits_group a b c)
    rw [List.filter_append, filter_of_not_mem hgroup, List.filter_cons_of_neg (by simp),
      List.length_append, ih]
    cases padded <;> simp [group] <;> omega
  | case2 column a b c s _ ih =>
    have hgroup := not_mem_of_letterBits (letterBits_group a b c)
    rw [List.filter_append, filter_of_not_mem hgroup, List.length_append, ih]
    cases padded <;> simp [group] <;> omega
  | case3 column a b =>
    rw [filter_of_not_mem (not_mem_pair padded a b)]
    cases padded <;> simp [pair, ascii]
  | case4 column a =>
    rw [filter_of_not_mem (not_mem_single padded a)]
    cases padded <;> simp [single, ascii]
  | case5 => cases padded <;> rfl

theorem not_mem_encodeFrom (padded : Bool) (column : Nat) (s : Bytes) :
    10 ∉ encodeFrom false padded column s := by
  fun_induction encodeFrom false padded column s with
  | case1 _ _ _ _ _ hfull => simp at hfull
  | case2 column a b c s _ ih =>
    exact List.not_mem_append (not_mem_of_letterBits (letterBits_group a b c)) ih
  | case3 column a b => exact not_mem_pair padded a b
  | case4 column a => exact not_mem_single padded a
  | case5 => nofun

/-- Lines of 72 characters, but for the last, which is no longer. -/
def IsWrapped (out : Bytes) : Prop :=
  ∃ lines last, out.splitOn 10 = lines ++ [last] ∧ (∀ line ∈ lines, line.length = 72) ∧
    last.length ≤ 72

theorem isWrapped_of_not_mem {s : Bytes} (h : 10 ∉ s) (hs : s.length ≤ 72) : IsWrapped s :=
  ⟨[], s, List.splitOn_eq_singleton h, nofun, hs⟩

theorem isWrapped_cons {line s : Bytes} (h : 10 ∉ line) (hline : line.length = 72)
    (hs : IsWrapped s) : IsWrapped (line ++ 10 :: s) := by
  obtain ⟨lines, last, hsplit, hlines, hlast⟩ := hs
  refine ⟨line :: lines, last, ?_, List.forall_mem_cons.mpr ⟨hline, hlines⟩, hlast⟩
  rw [List.splitOn_append_cons_self_of_not_mem h, hsplit, List.cons_append]

/-- A line has whole groups in front of what is still to be encoded, so there is room for one more
unless it is full. -/
theorem isWrapped_encodeFrom (padded : Bool) {front : Bytes} {column : Nat} (s : Bytes)
    (hfront : 10 ∉ front) (hcolumn : front.length = column) (hgroups : column % 4 = 0)
    (hroom : column < 72) : IsWrapped (front ++ encodeFrom true padded column s) := by
  fun_induction encodeFrom true padded column s generalizing front with
  | case1 column a b c s hfull ih =>
    have hline : 10 ∉ front ++ group a b c :=
      List.not_mem_append hfront (not_mem_of_letterBits (letterBits_group a b c))
    have hlength : (front ++ group a b c).length = 72 := by
      simp [lineLength, group] at hfull ⊢
      omega
    have hrest := ih (List.not_mem_nil (a := 10)) rfl rfl (by decide)
    rw [← List.append_assoc]
    exact isWrapped_cons hline hlength hrest
  | case2 column a b c s hfull ih =>
    have hline : 10 ∉ front ++ group a b c :=
      List.not_mem_append hfront (not_mem_of_letterBits (letterBits_group a b c))
    have hlength : (front ++ group a b c).length = column + 4 := by
      rw [List.length_append, hcolumn]
      rfl
    simp [lineLength] at hfull
    rw [← List.append_assoc]
    exact ih hline hlength (by omega) (by omega)
  | case3 column a b =>
    refine isWrapped_of_not_mem (List.not_mem_append hfront (not_mem_pair padded a b)) ?_
    cases padded <;> simp [pair, ascii] <;> omega
  | case4 column a =>
    refine isWrapped_of_not_mem (List.not_mem_append hfront (not_mem_single padded a)) ?_
    cases padded <;> simp [single, ascii] <;> omega
  | case5 => exact isWrapped_of_not_mem (by simpa using hfront) (by simp; omega)

/-- **Encoding keeps the bytes, on full lines.** Whatever the bytes, wrapped or not and padded or
not, the letters of the text decode to them with zeros for the bits that are left over. Padded text
has four characters for every three bytes or fewer, besides the newlines. Wrapped text has 72
characters on every line but the last and no more on that; text that is not wrapped has no
newline. -/
theorem encode_spells (wrap padded : Bool) (s : Bytes) :
    decode (letters (encode wrap padded s)) = some s ∧
      ((encode wrap padded s).filter (· != 10)).length =
        (if padded then 4 * ((s.length + 2) / 3) else (4 * s.length + 2) / 3) ∧
      (if wrap then IsWrapped (encode wrap padded s) else 10 ∉ encode wrap padded s) := by
  refine ⟨?_, length_encodeFrom wrap padded 0 s, ?_⟩
  · obtain ⟨z, hz, hbits⟩ := letterBits_encodeFrom wrap padded 0 s
    rw [decode, encode, hbits]
    exact octets_bits s hz
  · cases wrap with
    | true => exact isWrapped_encodeFrom padded s (List.not_mem_nil (a := 10)) rfl rfl (by decide)
    | false => exact not_mem_encodeFrom padded 0 s

example : encode true true (ascii "Base") = ascii "QmFzZQ==" := by decide +kernel

end LdapBer.Base64
