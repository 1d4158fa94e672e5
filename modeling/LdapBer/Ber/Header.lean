import LdapBer.Ber.Tag

/-! Headers of elements: a tag and a definite length.

A length below 0x80 is one byte. A longer one is preceded by a byte that counts the bytes
of the length, up to four, and need not be the shortest. `read` takes a header off the
front of the input or says that it is not all there yet; `bytes` is what is written, with the
shortest length. -/
namespace LdapBer

/-- The bytes of the last `k` base 256 digits of a number, most significant first. -/
def bigEndian : Nat → Nat → Bytes
  | 0, _ => []
  | k + 1, n => bigEndian k (n / 256) ++ [n.toUInt8]

/-- The number that bytes spell in base 256. -/
def ofBigEndian (s : Bytes) : Nat :=
  s.foldl (fun n b => n * 256 + b.toNat) 0

@[simp] theorem length_bigEndian (k n : Nat) : (bigEndian k n).length = k := by
  induction k generalizing n with
  | zero => rfl
  | succ k ih => simp [bigEndian, ih]

/-- A header read from a stream. `offset` is the position of its tag. -/
structure Header where
  tag : UInt8
  length : Nat
  offset : UInt64
  size : Nat
deriving DecidableEq, Repr

inductive HeaderFault where
  | highTag (tag : UInt8)
  | indefiniteLength
  | lengthTooWide (count : Nat)
deriving DecidableEq, Repr

/-- A fault and the position of the byte that shows it. -/
structure HeaderError where
  fault : HeaderFault
  offset : UInt64
deriving DecidableEq, Repr

namespace Header

def isConstructed (h : Header) : Bool :=
  Tag.isConstructed h.tag

def valueOffset (h : Header) : UInt64 :=
  h.offset + h.size.toUInt64

def valueEnd (h : Header) : UInt64 :=
  h.valueOffset + h.length.toUInt64

/-- Reads the header at `offset` off the front of the input. The answer is `none` while bytes
of it are missing. A bad tag is refused before any length byte is asked for. -/
def read (offset : UInt64) : Bytes → Except HeaderError (Option (Header × Bytes))
  | [] => .ok none
  | tag :: s =>
    if Tag.number tag = 31 then .error ⟨.highTag tag, offset⟩
    else
      match s with
      | [] => .ok none
      | first :: s =>
        if first < 0x80 then .ok (some (⟨tag, first.toNat, offset, 2⟩, s))
        else
          let count := first.toNat - 0x80
          if count = 0 then .error ⟨.indefiniteLength, offset + 1⟩
          else if count > 4 then .error ⟨.lengthTooWide count, offset + 1⟩
          else
            match splitExact count s with
            | none => .ok none
            | some (digits, s) => .ok (some (⟨tag, ofBigEndian digits, offset, 2 + count⟩, s))

/-- What is left after a header is the input without the `size` bytes of the header. -/
theorem length_of_read {offset : UInt64} {s rest : Bytes} {h : Header}
    (hr : read offset s = .ok (some (h, rest))) : s.length = h.size + rest.length := by
  unfold read at hr
  split at hr
  · cases hr
  · split at hr
    · cases hr
    · split at hr
      · cases hr
      · split at hr
        · cases hr
          simp
          omega
        · dsimp only at hr
          split at hr
          · cases hr
          · split at hr
            · cases hr
            · split at hr
              · cases hr
              · next hs =>
                cases hr
                obtain ⟨rfl, hl⟩ := splitExact_eq_some_iff.mp hs
                simp
                omega

theorem two_le_size_of_read {offset : UInt64} {s rest : Bytes} {h : Header}
    (hr : read offset s = .ok (some (h, rest))) : 2 ≤ h.size := by
  unfold read at hr
  split at hr
  · cases hr
  · split at hr
    · cases hr
    · split at hr
      · cases hr
      · split at hr
        · cases hr
          exact Nat.le_refl 2
        · dsimp only at hr
          split at hr
          · cases hr
          · split at hr
            · cases hr
            · split at hr
              · cases hr
              · cases hr
                exact Nat.le_add_right 2 _

end Header

/-- Lengths have 64 bits. -/
def lengthModulus : Nat := 0x10000000000000000

/-- How many bytes the shortest length field of a value of `n` bytes takes. -/
def lengthSize (n : Nat) : Nat :=
  if n < 0x80 then 1
  else if n < 0x100 then 2
  else if n < 0x10000 then 3
  else if n < 0x1000000 then 4
  else 5

/-- The shortest length field. Of a length that needs more than four bytes only the last four
are written. -/
def lengthBytes (n : Nat) : Bytes :=
  if n < 0x80 then [n.toUInt8]
  else (0x7F + lengthSize n).toUInt8 :: bigEndian (lengthSize n - 1) n

/-- The size of an element whose value has `n` bytes. -/
def elementSize (n : Nat) : Nat :=
  1 + lengthSize n + n

@[simp] theorem length_lengthBytes (n : Nat) : (lengthBytes n).length = lengthSize n := by
  unfold lengthBytes
  split
  · next h => simp [lengthSize, h]
  · have : 1 ≤ lengthSize n := by
      unfold lengthSize
      split
      · exact Nat.le_refl 1
      · split
        · omega
        · split
          · omega
          · split <;> omega
    simp
    omega

namespace Header

/-- The bytes of a header that is written in front of a value of `n` bytes. -/
def bytes (tag : UInt8) (n : Nat) : Bytes :=
  tag :: lengthBytes n

@[simp] theorem length_bytes (tag : UInt8) (n : Nat) :
    (bytes tag n).length = 1 + lengthSize n := by
  rw [bytes, List.length_cons, length_lengthBytes, Nat.add_comm]

end Header

end LdapBer
