import PacketTrust.Crypto.Sha256
import PacketTrust.Packet.MetaInfo
import PacketTrust.Packet.Signature

/-! Data packets: named, signed content. A packet that was received keeps its wire, with the range
that its signature covers, until one of its fields is set; two packets are the same if their wires
are. -/

namespace PacketTrust

/-- The wire a packet came in, and the range of it from the name to the signature information. -/
structure Received where
  wire : Bytes
  signedStart : Nat
  signedStop : Nat
deriving DecidableEq, Repr

def Received.signedPortion (r : Received) : Bytes :=
  (r.wire.take r.signedStop).drop r.signedStart

structure Data where
  name : Name
  metaInfo : MetaInfo := {}
  content : Bytes := []
  signature : Signature := {}
  received : Option Received := none
deriving DecidableEq, Repr

namespace Data

def setName (d : Data) (name : Name) : Data := { d with name, received := none }

def setMetaInfo (d : Data) (metaInfo : MetaInfo) : Data := { d with metaInfo, received := none }

def setContent (d : Data) (content : Bytes) : Data := { d with content, received := none }

def setSignatureInfo (d : Data) (info : SignatureInfo) : Data :=
  { d with signature.info := info, received := none }

def setSignatureValue (d : Data) (value : Bytes) : Data :=
  { d with signature.value := value, received := none }

/-- The encodings of the fields that a signature covers; defaults are left out. -/
def encodeSigned (d : Data) : Bytes :=
  d.name.encode ++
    ((if d.metaInfo.isDefault then [] else d.metaInfo.encode) ++
      ((if d.content.isEmpty then [] else Tlv.encode Tlv.Types.content d.content) ++
        d.signature.info.encode))

/-- The octets that the signature covers. -/
def signedPortion (d : Data) : Bytes :=
  match d.received with
  | some r => r.signedPortion
  | none => d.encodeSigned

def encode (d : Data) : Bytes :=
  match d.received with
  | some r => r.wire
  | none => Tlv.encode Tlv.Types.data (d.encodeSigned ++ d.signature.encodeValue)

/-- Packets are the same if their wires are. -/
def same (d e : Data) : Bool := d.encode == e.encode

/-- What the elements behind the name have told so far. -/
structure Parts where
  metaInfo : MetaInfo := {}
  content : Bytes := []
  info : Option SignatureInfo := none
  /-- Where the last signature information ends. -/
  signedStop : Option Nat := none
deriving DecidableEq, Repr

/-- Takes in one element before the signature value; a later one of the same type wins. -/
def Parts.take (p : Parts) (e : Tlv.Element) : Except Tlv.Error Parts :=
  if e.type = Tlv.Types.metaInfo then do
    pure { p with metaInfo := ← MetaInfo.decodeValue e.value }
  else if e.type = Tlv.Types.content then pure { p with content := e.value }
  else if e.type = Tlv.Types.signatureInfo then do
    pure { p with info := some (← SignatureInfo.decodeValue e.value), signedStop := some e.stop }
  else if Tlv.isCritical e.type then throw (.unrecognizedCritical e.type)
  else pure p

/-- Reads up to the signature value; what stands behind it counts for nothing. -/
def Parts.takeAll (p : Parts) : Tlv.Elements → Except Tlv.Error (Parts × Option Bytes)
  | .done => .ok (p, none)
  | .broken e => .error e
  | .next element rest =>
    if element.type = Tlv.Types.signatureValue then .ok (p, some element.value)
    else do takeAll (← p.take element) rest

def decode (wire : Bytes) : Except Tlv.Error Data := do
  let outer ← Tlv.single Tlv.Types.data wire
  let offset := outer.stop - outer.value.length
  match Tlv.Read.expected Tlv.Types.name (.start outer.value) with
  | .error e _ => throw e
  | .ok first c =>
    let name ← Name.decodeValue first.value
    let (parts, value) ← Parts.takeAll {} (.read c)
    match parts.info, parts.signedStop, value with
    | some info, some stop, some value =>
      pure { name, metaInfo := parts.metaInfo, content := parts.content, signature := ⟨info, value⟩
             received := some ⟨wire, offset + first.start, offset + stop⟩ }
    | some _, some _, none => throw (.missing Tlv.Types.signatureValue)
    | _, _, _ => throw (.missing Tlv.Types.signatureInfo)

/-- The name with the digest of the wire behind it. -/
def fullName (d : Data) : Name := d.name.push (.implicitDigest (Sha256.digest d.encode))

end Data

end PacketTrust
