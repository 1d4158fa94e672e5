import LdapBer.Text

/-! Buffers.

A buffer is asked for by its size. There are sizes that no buffer can have and sizes that there
is no memory for: to ask for one of the first is a mistake, to ask for one of the others is
bad luck, and the two are reported differently. -/
namespace LdapBer

/-- Why there is no buffer of a size. -/
inductive BufferError where
  | tooLarge
  | noMemory
deriving DecidableEq, Repr

namespace Buffer

/-- The largest size that can be asked for. -/
def sizeLimit : Nat := 0x7FFFFFFFFFFFFFFF

/-- What there is memory for is up to the machine, not to the program. This stands for a machine
that has memory for every buffer of less than 32 GiB, which is more than any element takes, and for
no larger one. -/
def memory : Nat := 0x800000000

/-- Why there is no buffer of `size` bytes, unless there is one. -/
def refusal (size : Nat) : Option BufferError :=
  if sizeLimit < size then some .tooLarge
  else if memory ≤ size then some .noMemory
  else none

theorem refusal_of_lt {size : Nat} (h : size < memory) : refusal size = none := by
  have hlimit : ¬ sizeLimit < size := by
    rw [memory] at h
    rw [sizeLimit]
    omega
  rw [refusal, if_neg hlimit, if_neg (Nat.not_le.mpr h)]

def noMemoryText : Bytes :=
  ascii "std::bad_alloc"

end Buffer

end LdapBer
