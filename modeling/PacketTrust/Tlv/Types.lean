/-! Assigned numbers of the packet format. -/

namespace PacketTrust.Tlv

namespace Types

def implicitDigest : UInt64 := 0x01
def interest : UInt64 := 0x05
def data : UInt64 := 0x06
def name : UInt64 := 0x07
def generic : UInt64 := 0x08
def nonce : UInt64 := 0x0a
def interestLifetime : UInt64 := 0x0c
def mustBeFresh : UInt64 := 0x12
def metaInfo : UInt64 := 0x14
def content : UInt64 := 0x15
def signatureInfo : UInt64 := 0x16
def signatureValue : UInt64 := 0x17
def contentType : UInt64 := 0x18
def freshnessPeriod : UInt64 := 0x19
def signatureType : UInt64 := 0x1b
def keyLocator : UInt64 := 0x1c
def keyDigest : UInt64 := 0x1d
def forwardingHint : UInt64 := 0x1e
def canBePrefix : UInt64 := 0x21
def version : UInt64 := 0x36
def validityPeriod : UInt64 := 0xfd
def notBefore : UInt64 := 0xfe
def notAfter : UInt64 := 0xff

end Types

/-- Content types: plain octets and public keys. -/
def ContentType.blob : UInt64 := 0
def ContentType.key : UInt64 := 2

/-- Signature types. -/
def SignatureType.digestSha256 : UInt64 := 0
def SignatureType.sha256WithRsa : UInt64 := 1
def SignatureType.sha256WithEcdsa : UInt64 := 3
def SignatureType.hmacWithSha256 : UInt64 := 4

/-- A decoder that does not know an element must refuse it if its type is at most 31 or odd. -/
def isCritical (type : UInt64) : Bool :=
  type ≤ 31 || type % 2 = 1

end PacketTrust.Tlv
