import LdapBer.HexBlock

/-! Blocks are read back as they were shown.

What is read is the longest front of the text that has digits and blanks only. The digits of it are
what counts, wherever the blanks are (`values`): two of them make a byte, and one that is left over
makes the block invalid (`readFrom_eq`). A block that was shown has the two digits of every byte,
with blanks between some and behind the last (`values_digits`), so the same bytes come back
(`read_block`). -/
namespace LdapBer.HexBlock

/-! ### Digits and blanks -/

/-- What a digit of either case stands for. -/
def digitOf (c : UInt8) : Option Nat :=
  (ascii "0123456789abcdef").idxOf? (lowercase c)

/-- A digit or a blank. -/
def isPart (c : UInt8) : Bool :=
  isBlank c || (digitOf c).isSome

/-- What the digits at the front of a text stand for. -/
def values (s : Bytes) : List Nat :=
  (s.takeWhile isPart).filterMap digitOf

/-- The bytes that digits make, two digits each. -/
def pairs : List Nat → Bytes
  | [] | [_] => []
  | high :: low :: vs => (high * 16 + low).toUInt8 :: pairs vs

/-- The two digits of each byte. -/
def halves (s : Bytes) : List Nat :=
  s.flatMap fun b => [b.toNat / 16, b.toNat % 16]

/-- The outcome for these digits, with this text behind them. -/
def Reading.ofDigits (vs : List Nat) (behind : Bytes) : Reading :=
  ⟨pairs vs, if vs.length % 2 = 0 then some behind else none⟩

theorem forall_byte {p : UInt8 → Prop} (h : ∀ n < 256, p n.toUInt8) (c : UInt8) : p c := by
  have hc := h c.toNat c.toNat_lt
  rwa [show c.toNat.toUInt8 = c from UInt8.ofNat_toNat] at hc

theorem hexValue_eq (c : UInt8) : hexValue c = digitOf c :=
  forall_byte (p := fun c => hexValue c = digitOf c) (by decide +kernel) c

theorem digitOf_of_isBlank {c : UInt8} (h : isBlank c = true) : digitOf c = none :=
  forall_byte (p := fun c => isBlank c = true → digitOf c = none) (by decide +kernel) c h

theorem digitOf_hexDigit {n : Nat} (h : n < 16) : digitOf (hexDigit true n) = some n := by
  have hdigits : ∀ i < 16, digitOf (hexDigit true i) = some i := by decide +kernel
  exact hdigits n h

theorem front_of_isBlank {c : UInt8} (h : isBlank c = true) (s : Bytes) :
    values (c :: s) = values s ∧ (c :: s).dropWhile isPart = s.dropWhile isPart := by
  simp [values, isPart, h, digitOf_of_isBlank h]

theorem front_of_digitOf {c : UInt8} {v : Nat} (h : digitOf c = some v) (s : Bytes) :
    values (c :: s) = v :: values s ∧ (c :: s).dropWhile isPart = s.dropWhile isPart := by
  simp [values, isPart, h]

theorem front_of_neither {c : UInt8} (hblank : ¬ isBlank c = true) (hdigit : digitOf c = none)
    (s : Bytes) : values (c :: s) = [] ∧ (c :: s).dropWhile isPart = c :: s := by
  simp [values, isPart, hblank, hdigit]

/-! ### Reading -/

theorem Reading.ofDigits_cons_cons (high low : Nat) (vs : List Nat) (behind : Bytes) :
    Reading.ofDigits (high :: low :: vs) behind =
      { Reading.ofDigits vs behind with
        bytes := (high * 16 + low).toUInt8 :: (Reading.ofDigits vs behind).bytes } := by
  have heven : (vs.length + 2) % 2 = vs.length % 2 := by omega
  simp [Reading.ofDigits, pairs, heven]

/-- What reading comes to, with the first digit of a byte in hand or without. -/
theorem readFrom_eq (high : Option Nat) (s : Bytes) :
    readFrom high s = .ofDigits (high.toList ++ values s) (s.dropWhile isPart) := by
  fun_induction readFrom high s with
  | case1 => rfl
  | case2 => rfl
  | case3 high c s hc ih =>
    obtain ⟨hvalues, hrest⟩ := front_of_isBlank hc s
    rw [ih, hvalues, hrest]
  | case4 c s _ v hv ih =>
    rw [hexValue_eq] at hv
    obtain ⟨hvalues, hrest⟩ := front_of_digitOf hv s
    rw [ih, hvalues, hrest]
    rfl
  | case5 c s _ v high hv reading ih =>
    rw [hexValue_eq] at hv
    obtain ⟨hvalues, hrest⟩ := front_of_digitOf hv s
    rw [hvalues, hrest]
    show _ = Reading.ofDigits (high :: v :: values s) _
    rw [Reading.ofDigits_cons_cons]
    simp only [reading, ih]
    rfl
  | case6 c s hc hv =>
    rw [hexValue_eq] at hv
    obtain ⟨hvalues, hrest⟩ := front_of_neither hc hv s
    rw [hvalues, hrest]
    rfl
  | case7 c s hc high hv =>
    rw [hexValue_eq] at hv
    rw [(front_of_neither hc hv s).1]
    rfl

/-! ### Showing -/

theorem halves_cons (b : UInt8) (s : Bytes) :
    halves (b :: s) = b.toNat / 16 :: b.toNat % 16 :: halves s :=
  rfl

theorem pairs_halves (s : Bytes) : pairs (halves s) = s := by
  induction s with
  | nil => rfl
  | cons b s ih =>
    have hbyte : (b.toNat / 16 * 16 + b.toNat % 16).toUInt8 = b := by
      rw [Nat.div_add_mod']
      exact UInt8.ofNat_toNat
    rw [halves_cons, pairs, hbyte, ih]

theorem length_halves (s : Bytes) : (halves s).length = 2 * s.length := by
  induction s with
  | nil => rfl
  | cons b s ih =>
    simp only [halves_cons, List.length_cons]
    omega

/-- A block that was shown has the digits of its bytes and nothing else to stop at, whatever the
size of its groups. -/
theorem values_digits (group : Int) (i : Nat) (s : Bytes) :
    values (digits group i s ++ ascii "\n") = halves s ∧
      (digits group i s ++ ascii "\n").dropWhile isPart = [] := by
  induction s generalizing i with
  | nil => exact ⟨rfl, rfl⟩
  | cons b s ih =>
    obtain ⟨hvalues, hrest⟩ := ih (i + 1)
    have hhigh := digitOf_hexDigit (n := b.toNat / 16) (by have := b.toNat_lt; omega)
    have hlow := digitOf_hexDigit (n := b.toNat % 16) (Nat.mod_lt _ (by decide))
    -- nothing but a blank comes between a byte and the next, at the end of a group
    have hbehind : ∀ t, values ((if endsGroup group i then ascii " " else []) ++ t) = values t ∧
        ((if endsGroup group i then ascii " " else []) ++ t).dropWhile isPart =
          t.dropWhile isPart := by
      intro t
      split
      · exact front_of_isBlank rfl t
      · exact ⟨rfl, rfl⟩
    simp only [digits, List.cons_append, List.append_assoc]
    constructor
    · rw [(front_of_digitOf hhigh _).1, (front_of_digitOf hlow _).1, (hbehind _).1, hvalues,
        halves_cons]
    · rw [(front_of_digitOf hhigh _).2, (front_of_digitOf hlow _).2, (hbehind _).2, hrest]

/-- A block that was shown is read back, whatever its label and the size of its groups. -/
theorem read_render (label : Bytes) (group : Int) (s : Bytes) :
    read ((render label group s).drop (label.length + 2)) = ⟨s, some []⟩ := by
  have hlabel : (label ++ ascii ": ").length = label.length + 2 := List.length_append
  obtain ⟨hvalues, hrest⟩ := values_digits group 0 s
  rw [render, List.append_assoc, List.drop_left' hlabel, read, readFrom_eq, hrest]
  show Reading.ofDigits (values _) _ = _
  rw [hvalues, Reading.ofDigits, pairs_halves, length_halves, if_pos (by omega)]

theorem length_pairs (vs : List Nat) : (pairs vs).length = vs.length / 2 := by
  fun_induction pairs vs with
  | case1 | case2 => simp
  | case3 high low vs ih =>
    simp only [List.length_cons, ih]
    omega

theorem count_ofDigits (vs : List Nat) (behind : Bytes) :
    (Reading.ofDigits vs behind).count =
      if vs.length % 2 = 1 then (-1 : Int) else (vs.length / 2 : Nat) := by
  rw [Reading.count, Reading.ofDigits, length_pairs]
  rcases Nat.mod_two_eq_zero_or_one vs.length with h | h <;> simp [h]

/-- **Blocks in hexadecimal.** Of every text the longest front of digits and blanks is read. If it
has an odd number of digits the count is -1; otherwise the count is the half of the number, the
bytes are those of two digits each, and what is behind that front remains. So a block that was shown
is read back behind its label, whatever that and the size of its groups, to the end of the text. -/
theorem read_block (text label : Bytes) (group : Int) (s : Bytes) :
    (if (values text).length % 2 = 1 then (read text).count = -1
      else (read text).count = ((values text).length / 2 : Nat) ∧
        (read text).bytes = pairs (values text) ∧
        (read text).rest = some (text.dropWhile isPart)) ∧
      (read ((render label group s).drop (label.length + 2))).count = s.length ∧
      read ((render label group s).drop (label.length + 2)) = ⟨s, some []⟩ := by
  have htext : read text = .ofDigits (values text) (text.dropWhile isPart) := readFrom_eq none text
  refine ⟨?_, ?_, read_render label group s⟩
  · rw [htext, count_ofDigits]
    split
    · rfl
    · next heven =>
      refine ⟨rfl, rfl, ?_⟩
      rw [Reading.ofDigits, if_pos (by omega)]
  · rw [read_render]
    rfl

-- Blanks may stand between the two digits of a byte, and a third digit is one too many.
example : read (ascii " 4 a.4a4") = ⟨[0x4a], some (ascii ".4a4")⟩ := by decide +kernel

example : (read (ascii "4a4.")).count = -1 := by decide +kernel

end LdapBer.HexBlock
