import PacketTrust.Packet.KeyLocator
import PacketTrust.Packet.Validity

/-! Signatures: how one was made, by which key, for which period, and its value. A plain digest has
no key and no period, and a keyed digest has no period. -/

namespace PacketTrust

inductive SignatureInfo where
  | digestSha256
  | sha256WithRsa (keyLocator : Option KeyLocator) (validity : Option Validity)
  | sha256WithEcdsa (keyLocator : Option KeyLocator) (validity : Option Validity)
  | hmacWithSha256 (keyLocator : Option KeyLocator)
  | generic (type : UInt64) (keyLocator : Option KeyLocator) (validity : Option Validity)
deriving DecidableEq, Repr

namespace SignatureInfo

def type : SignatureInfo → UInt64
  | digestSha256 => Tlv.SignatureType.digestSha256
  | sha256WithRsa .. => Tlv.SignatureType.sha256WithRsa
  | sha256WithEcdsa .. => Tlv.SignatureType.sha256WithEcdsa
  | hmacWithSha256 .. => Tlv.SignatureType.hmacWithSha256
  | generic type .. => type

def keyLocator? : SignatureInfo → Option KeyLocator
  | digestSha256 => none
  | sha256WithRsa k _ | sha256WithEcdsa k _ | hmacWithSha256 k | generic _ k _ => k

def validity? : SignatureInfo → Option Validity
  | digestSha256 | hmacWithSha256 _ => none
  | sha256WithRsa _ v | sha256WithEcdsa _ v | generic _ _ v => v

/-- The information for a type, which drops what the type has no place for. -/
def ofParts (type : UInt64) (k : Option KeyLocator) (v : Option Validity) : SignatureInfo :=
  if type = Tlv.SignatureType.digestSha256 then digestSha256
  else if type = Tlv.SignatureType.sha256WithRsa then sha256WithRsa k v
  else if type = Tlv.SignatureType.sha256WithEcdsa then sha256WithEcdsa k v
  else if type = Tlv.SignatureType.hmacWithSha256 then hmacWithSha256 k
  else generic type k v

def encodeValue (s : SignatureInfo) : Bytes :=
  Tlv.encodeNumberElement Tlv.Types.signatureType s.type ++
    (s.keyLocator?.elim [] KeyLocator.encode ++ s.validity?.elim [] Validity.encode)

def encode (s : SignatureInfo) : Bytes := Tlv.encode Tlv.Types.signatureInfo s.encodeValue

/-- What the elements behind the signature type have told so far. -/
structure Parts where
  keyLocator : Option KeyLocator := none
  validity : Option Validity := none
deriving DecidableEq, Repr

/-- Takes in one element; a later one of the same type wins. -/
def Parts.take (p : Parts) (e : Tlv.Element) : Except Tlv.Error Parts :=
  if e.type = Tlv.Types.keyLocator then do
    pure { p with keyLocator := some (← KeyLocator.decodeValue e.value) }
  else if e.type = Tlv.Types.validityPeriod then do
    pure { p with validity := some (← Validity.decodeValue e.value) }
  else if Tlv.isCritical e.type then throw (.unrecognizedCritical e.type)
  else pure p

def Parts.takeAll (p : Parts) : Tlv.Elements → Except Tlv.Error Parts
  | .done => .ok p
  | .broken e => .error e
  | .next element rest => do takeAll (← p.take element) rest

def decodeValue (value : Bytes) : Except Tlv.Error SignatureInfo :=
  match Tlv.Read.expected Tlv.Types.signatureType (.start value) with
  | .error e _ => .error e
  | .ok first c => do
    let type ← Tlv.decodeNumber first.value
    let parts ← Parts.takeAll {} (.read c)
    pure (ofParts type parts.keyLocator parts.validity)

end SignatureInfo

structure Signature where
  info : SignatureInfo := .digestSha256
  value : Bytes := []
deriving DecidableEq, Repr

namespace Signature

def encodeValue (s : Signature) : Bytes := Tlv.encode Tlv.Types.signatureValue s.value

/-- Reads a signature from the wires of its information and of its value. -/
def decode (info value : Bytes) : Except Tlv.Error Signature := do
  let info ← Tlv.single Tlv.Types.signatureInfo info
  let value ← Tlv.single Tlv.Types.signatureValue value
  pure ⟨← SignatureInfo.decodeValue info.value, value.value⟩

end Signature

end PacketTrust
