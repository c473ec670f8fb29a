import PacketTrust.Bytes.Base64
import PacketTrust.Name.Uri
import PacketTrust.Packet.Data

/-! Certificates: Data packets whose content is a public key. Their names end in the marker KEY, the
key identifier, the issuer identifier and the version, and the signature information holds the
period in which the key may be relied on. -/

namespace PacketTrust

inductive CertificateError where
  | invalidName (name : Name)
  | contentType (type : UInt64)
  | emptyContent
  | missingValidity
  | decode (error : Tlv.Error)
  | base64
deriving DecidableEq, Repr

def CertificateError.message : CertificateError → String
  | invalidName n => s!"Name `{n.uri}` does not follow the naming convention for certificates"
  | contentType type => s!"Expecting ContentType Key, got {type}"
  | emptyContent => "Certificate content is empty"
  | missingValidity => "Certificate is missing a ValidityPeriod"
  | decode error => s!"Failed to decode certificate: {error.message}"
  | base64 => "Certificate is not valid base64"

structure Certificate where
  data : Data
  validity : Validity
deriving DecidableEq, Repr

namespace Certificate

/-- The component that marks names of keys: the three letters KEY. -/
def keyMark : Component := .generic [0x4b, 0x45, 0x59]

/-- The fourth component from the end is the marker. -/
def isName (n : Name) : Bool := n.get? (-4) = some keyMark

/-- The name of a key of an identity. -/
def keyNameOf (identity : Name) (keyId : Component) : Name := (identity.push keyMark).push keyId

/-- Accepts a packet as a certificate. -/
def ofData (d : Data) : Except CertificateError Certificate :=
  if !isName d.name then .error (.invalidName d.name)
  else if d.metaInfo.contentType ≠ Tlv.ContentType.key then
    .error (.contentType d.metaInfo.contentType)
  else if d.content.isEmpty then .error .emptyContent
  else match d.signature.info.validity? with
    | some validity => .ok ⟨d, validity⟩
    | none => .error .missingValidity

def decode (wire : Bytes) : Except CertificateError Certificate :=
  match Data.decode wire with
  | .ok d => ofData d
  | .error e => .error (.decode e)

/-- Reads a certificate from Base64 with blanks anywhere. -/
def ofBase64 (text : String) : Except CertificateError Certificate :=
  match Base64.decode? (Text.withoutBlanks text.toList) with
  | some wire => decode wire
  | none => .error .base64

def encode (c : Certificate) : Bytes := c.data.encode

def toBase64 (c : Certificate) : String := String.ofList (Base64.encode c.encode)

def name (c : Certificate) : Name := c.data.name

def keyName (c : Certificate) : Name := c.name.take (-2)

/-- The name of the owner of the key. -/
def identity (c : Certificate) : Name := c.name.take (-4)

def keyId (c : Certificate) : Option Component := c.name.get? (-3)

def issuerId (c : Certificate) : Option Component := c.name.get? (-2)

def publicKey (c : Certificate) : Bytes := c.data.content

def ValidAt (c : Certificate) (t : Instant) : Prop := c.validity.Contains t

instance (c : Certificate) (t : Instant) : Decidable (c.ValidAt t) :=
  inferInstanceAs (Decidable (Validity.Contains _ _))

/-- The name of the key that signed the certificate, if it is told by name. -/
def issuerKeyName (c : Certificate) : Option Name :=
  match c.data.signature.info.keyLocator? with
  | some (.name n) => some n
  | _ => none

def isSelfSigned (c : Certificate) : Bool :=
  c.issuerKeyName.any c.name.startsWith

end Certificate

end PacketTrust
