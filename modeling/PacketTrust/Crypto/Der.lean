import PacketTrust.Bytes

/-! The distinguished encoding of keys and signatures: items of a tag, a shortest length and a
value. Only one-octet tags and lengths below 2^32 are read. -/

namespace PacketTrust.Der

def integerTag : UInt8 := 0x02
def bitStringTag : UInt8 := 0x03
def nullTag : UInt8 := 0x05
def identifierTag : UInt8 := 0x06
def sequenceTag : UInt8 := 0x30

/-- The octets of a number, without zeros in front; none for zero. -/
def octets (n : Nat) : Bytes :=
  if n = 0 then [] else octets (n / 256) ++ [UInt8.ofNat n]

def encodeLength (n : Nat) : Bytes :=
  if n < 128 then [UInt8.ofNat n]
  else UInt8.ofNat (0x80 + (octets n).length) :: octets n

def encode (tag : UInt8) (value : Bytes) : Bytes :=
  tag :: encodeLength value.length ++ value

/-- A number that is not negative; a zero octet keeps the sign bit clear. -/
def encodeNatural (n : Nat) : Bytes :=
  match octets n with
  | [] => encode integerTag [0]
  | b :: rest => encode integerTag (if b < 128 then b :: rest else 0 :: b :: rest)

/-- Reads a length in its shortest form. -/
def length? : Bytes → Option (Nat × Bytes)
  | [] => none
  | b :: rest =>
    if b < 128 then some (b.toNat, rest)
    else
      let size := b.toNat - 128
      let n := Bytes.toNat (rest.take size)
      if 1 ≤ size ∧ size ≤ 4 ∧ size ≤ rest.length ∧ encodeLength n = b :: rest.take size then
        some (n, rest.drop size)
      else none

/-- Reads an item of a tag: its value, and what follows it. -/
def item? (tag : UInt8) : Bytes → Option (Bytes × Bytes)
  | [] => none
  | b :: rest =>
    if b = tag then do
      let (n, rest) ← length? rest
      if n ≤ rest.length then pure (rest.take n, rest.drop n) else none
    else none

/-- The value of an item that nothing follows. -/
def whole? (tag : UInt8) (bytes : Bytes) : Option Bytes := do
  let (value, rest) ← item? tag bytes
  if rest.isEmpty then pure value else none

/-- Reads a number that is not negative, in its shortest form. -/
def natural? (bytes : Bytes) : Option (Nat × Bytes) := do
  let (value, rest) ← item? integerTag bytes
  let n := Bytes.toNat value
  if encode integerTag value = encodeNatural n then pure (n, rest) else none

/-- Reads two numbers in a sequence that nothing follows. -/
def naturals? (bytes : Bytes) : Option (Nat × Nat) := do
  let value ← whole? sequenceTag bytes
  let (a, rest) ← natural? value
  let (b, rest) ← natural? rest
  if rest.isEmpty then pure (a, b) else none

/-- The algorithm of a public key with its parameters, and the octets of the key. -/
structure PublicKeyInfo where
  algorithm : Bytes
  parameters : Bytes
  key : Bytes
deriving DecidableEq, Repr

/-- Reads a public key whose octets are whole. -/
def publicKeyInfo? (bytes : Bytes) : Option PublicKeyInfo := do
  let value ← whole? sequenceTag bytes
  let (identifier, rest) ← item? sequenceTag value
  let bits ← whole? bitStringTag rest
  let (algorithm, parameters) ← item? identifierTag identifier
  match bits with
  | 0 :: key => pure ⟨algorithm, parameters, key⟩
  | _ => none

def PublicKeyInfo.encode (info : PublicKeyInfo) : Bytes :=
  Der.encode sequenceTag
    (Der.encode sequenceTag (Der.encode identifierTag info.algorithm ++ info.parameters) ++
      Der.encode bitStringTag (0 :: info.key))

end PacketTrust.Der
