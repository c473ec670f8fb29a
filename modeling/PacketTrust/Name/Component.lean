import PacketTrust.Tlv.Number
import PacketTrust.Tlv.Types

/-! Name components: a type and a value, in the canonical order of type, length and value. -/

namespace PacketTrust

structure Component where
  type : UInt64
  value : Bytes
deriving DecidableEq, Repr, Inhabited

namespace Component

def generic (value : Bytes) : Component := ⟨Tlv.Types.generic, value⟩

/-- A generic component that holds an integer. -/
def ofNumber (n : UInt64) : Component := generic (Tlv.encodeNumber n)

def version (n : UInt64) : Component := ⟨Tlv.Types.version, Tlv.encodeNumber n⟩

/-- The component that names a packet by the digest of its wire. -/
def implicitDigest (digest : Bytes) : Component := ⟨Tlv.Types.implicitDigest, digest⟩

def isGeneric (c : Component) : Bool := c.type = Tlv.Types.generic

def isImplicitDigest (c : Component) : Bool :=
  c.type = Tlv.Types.implicitDigest && c.value.length = 32

/-- The integer that the component holds. -/
def number (c : Component) : Except Tlv.Error UInt64 := Tlv.decodeNumber c.value

def encode (c : Component) : Bytes := Tlv.encode c.type c.value

/-- A component that the wire decoder lets pass: its type has 16 bits, and a digest has 32
octets. -/
def check (c : Component) : Except Tlv.Error Unit :=
  if c.type = 0 ∨ c.type > 0xffff then .error (.malformed (.componentType c.type))
  else if c.type = Tlv.Types.implicitDigest ∧ c.value.length ≠ 32 then
    .error (.malformed .digestLength)
  else .ok ()

/-- Canonical order: by type, then by length, then by the octets of the value. -/
def cmp : Component → Component → Ordering :=
  compareLex (compareOn (·.type))
    (compareLex (compareOn (·.value.length)) (compareOn (·.value)))

instance : Std.TransCmp cmp :=
  inferInstanceAs (Std.TransCmp (compareLex _ (compareLex _ _)))

instance : Std.LawfulEqCmp cmp where
  eq_of_compare {a b} h := by
    simp only [cmp, compareLex, compareOn, Ordering.then_eq_eq] at h
    cases a
    cases b
    simp_all

end Component

end PacketTrust
