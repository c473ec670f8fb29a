import PacketTrust.Time.Stamp

/-! Why octets are not a packet, or not a part of one. -/

namespace PacketTrust.Tlv

/-- Faults in the meaning of a well-framed element. -/
inductive Malformation where
  | trailing (count : Nat) (type : UInt64)
  | componentType (type : UInt64)
  | digestLength
  | nonceLength
  | keyLocatorType (type : UInt64)
  | timeNotText
  | time (text : String) (problem : Stamp.Problem)
  | unsignedName
deriving DecidableEq, Repr

def Malformation.message : Malformation → String
  | trailing count type => s!"{count} trailing bytes after element of type {type}"
  | componentType type => s!"Invalid name component type {type}"
  | digestLength => "ImplicitSha256DigestComponent must be 32 octets"
  | nonceLength => "Nonce must be 4 octets"
  | keyLocatorType type => s!"Unsupported KeyLocator type {type}"
  | timeNotText => "ValidityPeriod time is not ASCII"
  | time text problem => s!"Invalid ValidityPeriod time `{text}`: {problem.message}"
  | unsignedName => "Signed Interest name is too short"

inductive Error where
  | truncated (offset : Nat)
  | unexpectedType (expected actual : UInt64)
  | missing (type : UInt64)
  | unrecognizedCritical (type : UInt64)
  | numberLength (length : Nat)
  | malformed (fault : Malformation)
deriving DecidableEq, Repr

def Error.message : Error → String
  | truncated offset => s!"Unexpected end of input at offset {offset}"
  | unexpectedType expected actual => s!"Expected TLV type {expected}, got {actual}"
  | missing type => s!"Missing required element of type {type}"
  | unrecognizedCritical type => s!"Unrecognized critical element of type {type}"
  | numberLength length => s!"Invalid nonNegativeInteger length {length}"
  | malformed fault => fault.message

end PacketTrust.Tlv
