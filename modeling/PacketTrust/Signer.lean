import PacketTrust.Certificate
import PacketTrust.Crypto.Ecdsa
import PacketTrust.Packet.Interest

/-! Signing with named keys on the curve P-256: Data packets, Interests and certificates, and
command Interests, whose timestamps grow from one to the next. -/

namespace PacketTrust

structure Signer where
  keyName : Name
  secret : Nat
deriving DecidableEq, Repr

namespace Signer

def identity (s : Signer) : Name := s.keyName.take (-2)

def publicKey (s : Signer) : Bytes := Ecdsa.publicKey s.secret

def sign (s : Signer) (message : Bytes) : Bytes := Ecdsa.sign s.secret message

/-- Signatures tell the key by its name. -/
def info (s : Signer) (validity : Option Validity) : SignatureInfo :=
  .sha256WithEcdsa (some (.name s.keyName)) validity

/-- Signs a packet; the period that it has is kept. -/
def signData (s : Signer) (d : Data) : Data :=
  let d := d.setSignatureInfo (s.info d.signature.info.validity?)
  d.setSignatureValue (s.sign d.signedPortion)

/-- Signs an Interest: the signature becomes the two last components of its name. -/
def signInterest (s : Signer) (i : Interest) : Interest :=
  let named := i.name.push (.generic (s.info none).encode)
  let value := s.sign named.encodeComponents
  { i with name := named.push (.generic (Tlv.encode Tlv.Types.signatureValue value)) }

def selfIssuer : Component := .generic [0x73, 0x65, 0x6c, 0x66]

/-- A certificate for a key, signed by this one. -/
def certify (s : Signer) (subject : Name) (issuer : Component) (publicKey : Bytes)
    (validity : Validity) (version : UInt64) : Except CertificateError Certificate :=
  let d : Data := { name := (subject.push issuer).push (.version version) }
  let d := d.setMetaInfo { contentType := Tlv.ContentType.key, freshness := some (.ofSeconds 3600) }
  let d := (d.setContent publicKey).setSignatureInfo (s.info (some validity))
  Certificate.ofData (s.signData d)

/-- A certificate for another key; the issuer is told by the last component of the signing key. -/
def issue (s : Signer) (subject : Name) (publicKey : Bytes) (validity : Validity)
    (version : UInt64) : Except CertificateError Certificate :=
  s.certify subject ((s.keyName.get? (-1)).getD selfIssuer) publicKey validity version

def selfSign (s : Signer) (validity : Validity) (version : UInt64) :
    Except CertificateError Certificate :=
  s.certify s.keyName selfIssuer s.publicKey validity version

end Signer

/-- How the failure to issue a certificate reads. -/
def CertificateError.issuing (e : CertificateError) : String :=
  s!"Issued certificate is invalid: {e.message}"

/-- A signer of command Interests with the last timestamp that it chose. -/
structure CommandSigner where
  signer : Signer
  last : Option UInt64 := none
deriving DecidableEq, Repr

namespace CommandSigner

/-- The milliseconds of the clock, or one more than last time if those are not later. -/
def nextTimestamp (s : CommandSigner) (now : Instant) : UInt64 :=
  let ms := UInt64.ofNat now.toMillis.toNat
  match s.last with
  | some last => if ms ≤ last then last + 1 else ms
  | none => ms

/-- A command Interest: the name, a timestamp, a nonce, and the signature. -/
def makeAt (s : CommandSigner) (name : Name) (timestamp : UInt64) (nonce : Bytes)
    (packetNonce : UInt32) : Interest :=
  s.signer.signInterest
    { name := (name.push (.ofNumber timestamp)).push (.generic nonce), nonce := some packetNonce }

/-- A command Interest with the next timestamp. -/
def make (s : CommandSigner) (now : Instant) (name : Name) (nonce : Bytes)
    (packetNonce : UInt32) : Interest × CommandSigner :=
  let timestamp := s.nextTimestamp now
  (s.makeAt name timestamp nonce packetNonce, { s with last := some timestamp })

end CommandSigner

end PacketTrust
