import LdapBer.Text

/-! Tags of one byte.

The two high bits give the class, the next bit tells a constructed element from a primitive
one and the low five bits are the number. Number 31 announces a longer tag, which LDAP does
not use. -/
namespace LdapBer.Tag

def boolean : UInt8 := 0x01

def integer : UInt8 := 0x02

def octetString : UInt8 := 0x04

def enumerated : UInt8 := 0x0A

/-- Sequences and sets are always constructed, so their tags have that bit set. -/
def sequence : UInt8 := 0x30

def set : UInt8 := 0x31

def isConstructed (tag : UInt8) : Bool :=
  tag &&& 0x20 != 0

def number (tag : UInt8) : UInt8 :=
  tag &&& 0x1F

def classBits (tag : UInt8) : UInt8 :=
  tag &&& 0xC0

def constructedBit (constructed : Bool) : UInt8 :=
  if constructed then 0x20 else 0

/-- The tag `[n]`. -/
def context (n : UInt8) (constructed : Bool) : UInt8 :=
  0x80 ||| constructedBit constructed ||| n

/-- The tag `[APPLICATION n]`. -/
def application (n : UInt8) (constructed : Bool) : UInt8 :=
  0x40 ||| constructedBit constructed ||| n

end LdapBer.Tag
