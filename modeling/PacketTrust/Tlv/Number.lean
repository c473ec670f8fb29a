import PacketTrust.Bytes
import PacketTrust.Tlv.Error

/-! Numbers on the wire: the variable-length numbers in which types and lengths are written, the
integers of 1, 2, 4 or 8 octets that elements hold as values, and whole elements built from them. -/

namespace PacketTrust.Tlv

/-- A type or length: one octet up to 252, else a marker octet and 2, 4 or 8 octets. -/
def encodeVar (n : UInt64) : Bytes :=
  if n < 253 then [n.toUInt8]
  else if n ≤ 0xffff then 253 :: Bytes.bigEndian 2 n.toNat
  else if n ≤ 0xffffffff then 254 :: Bytes.bigEndian 4 n.toNat
  else 255 :: Bytes.bigEndian 8 n.toNat

/-- An element: its type, the length of its value, its value. -/
def encode (type : UInt64) (value : Bytes) : Bytes :=
  encodeVar type ++ encodeVar (UInt64.ofNat value.length) ++ value

/-- The shortest of the four forms of an integer value. -/
def encodeNumber (n : UInt64) : Bytes :=
  if n ≤ 0xff then Bytes.bigEndian 1 n.toNat
  else if n ≤ 0xffff then Bytes.bigEndian 2 n.toNat
  else if n ≤ 0xffffffff then Bytes.bigEndian 4 n.toNat
  else Bytes.bigEndian 8 n.toNat

/-- The integer that a value holds; any of the four lengths will do. -/
def decodeNumber (bytes : Bytes) : Except Error UInt64 :=
  match bytes.length with
  | 1 | 2 | 4 | 8 => .ok (UInt64.ofNat (Bytes.toNat bytes))
  | length => .error (.numberLength length)

/-- An element that holds an integer. -/
def encodeNumberElement (type n : UInt64) : Bytes :=
  encode type (encodeNumber n)

end PacketTrust.Tlv
