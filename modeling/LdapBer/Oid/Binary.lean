import LdapBer.Oid

/-! The binary form of an object identifier.

The first two arcs become the one number `40 * first + second`, and each number is written
in base 128, most significant digit first, with the bit 0x80 on every byte but its last.
The length is computed first and the bytes are written to a buffer of that length, each
number from its last digit on. Reading inverts this for every identifier (`ofBytes` after
`toBytes`), but also accepts numbers that start with needless zero digits. -/
namespace LdapBer.Oid

/-- The number that stands for the first two arcs, in 64 bits, then the other arcs. -/
def subidentifiers (o : Oid) : List Nat :=
  match o.arcs with
  | first :: second :: rest => (first * 40 + second) % 0x10000000000000000 :: rest
  | arcs => arcs

/-! ### Writing -/

/-- How many digits a number has in base 128. Zero has none. -/
def digitCount (n : Nat) : Nat :=
  if n = 0 then 0 else digitCount (n / 128) + 1

/-- How many bytes a number takes. The digits above the fifth are counted. -/
def base128Length (n : Nat) : Nat :=
  if n < 0x80 then 1
  else if n < 0x4000 then 2
  else if n < 0x200000 then 3
  else if n < 0x10000000 then 4
  else 5 + digitCount (n / 0x800000000)

def encodedLength (o : Oid) : Nat :=
  total (o.subidentifiers.map base128Length)

/-- Writes a digit to each of the first bytes of a buffer, from the last of them on. The digit
at the position `last` is not continued. -/
def putDigits (last : Nat) : Nat → Nat → Bytes → Bytes
  | 0, _, dest => dest
  | i + 1, n, dest =>
    let digit := if i = last then n % 128 else 128 + n % 128
    putDigits last i (n / 128) (dest.set i digit.toUInt8)

/-- Writes numbers in a row to a buffer. The number of bytes that this takes is returned beside
the buffer. -/
def writeNumbers : List Nat → Bytes → Nat × Bytes
  | [], dest => (0, dest)
  | n :: numbers, dest =>
    let length := base128Length n
    let dest := putDigits (length - 1) length n dest
    let (more, behind) := writeNumbers numbers (dest.drop length)
    (length + more, dest.take length ++ behind)

/-- Writes an identifier to the front of a buffer, which has to have as many bytes as
`encodedLength` says. -/
def writeBytes (o : Oid) (dest : Bytes) : Nat × Bytes :=
  writeNumbers o.subidentifiers dest

def toBytes (o : Oid) : Bytes :=
  (o.writeBytes (List.replicate o.encodedLength 0)).2

/-! ### Reading -/

/-- The numbers of a byte string in base 128. `acc` is the value of the digits read since the
last complete number, `midway` tells whether there were any and `i` counts the bytes. A number
that already has more than 57 bits cannot take another digit. -/
def readNumbers (acc : Nat) (midway : Bool) (i : Nat) : Bytes → Except OidError (List Nat)
  | [] => if midway then .error .binaryUnfinished else .ok []
  | b :: s =>
    if 0x200000000000000 ≤ acc then .error (.binaryArcTooLarge i)
    else
      let grown := acc * 128 + b.toNat % 128
      if 128 ≤ b.toNat then readNumbers grown true (i + 1) s
      else (grown :: ·) <$> readNumbers 0 false (i + 1) s

/-- The arcs behind a first number and the numbers after it. -/
def arcsOf (first : Nat) (rest : List Nat) : List Nat :=
  if first < 40 then 0 :: first :: rest
  else if first < 80 then 1 :: (first - 40) :: rest
  else 2 :: (first - 80) :: rest

theorem readNumbers_lt {acc : Nat} {midway : Bool} {i : Nat} {s : Bytes} {l : List Nat}
    (h : readNumbers acc midway i s = .ok l) : ∀ a ∈ l, a < 0x10000000000000000 := by
  induction s generalizing acc midway i l with
  | nil =>
    unfold readNumbers at h
    split at h
    · cases h
    · cases h
      simp
  | cons b s ih =>
    unfold readNumbers at h
    split at h
    · cases h
    · next hacc =>
      dsimp only at h
      split at h
      · exact ih h
      · cases hr : readNumbers 0 false (i + 1) s with
        | error e =>
          rw [hr] at h
          cases h
        | ok rest =>
          rw [hr] at h
          cases h
          intro a ha
          rcases List.mem_cons.mp ha with rfl | ha
          · omega
          · exact ih hr a ha

theorem admissible_arcsOf {first : Nat} {rest : List Nat}
    (h : ∀ a ∈ first :: rest, a < 0x10000000000000000) : Admissible (arcsOf first rest) := by
  have hfirst := h first List.mem_cons_self
  have hrest := fun a ha => h a (List.mem_cons_of_mem first ha)
  unfold arcsOf
  split
  · exact ⟨by omega, fun _ => by omega, by omega, hrest⟩
  · split
    · exact ⟨by omega, fun _ => by omega, by omega, hrest⟩
    · exact ⟨by omega, fun h2 => absurd h2 (by omega), by omega, hrest⟩

def ofBytes (s : Bytes) : Except OidError Oid :=
  match h : readNumbers 0 false 0 s with
  | .error e => .error e
  | .ok [] => .error .emptyBinary
  | .ok (first :: rest) => .ok ⟨arcsOf first rest, admissible_arcsOf (readNumbers_lt h)⟩

end LdapBer.Oid
