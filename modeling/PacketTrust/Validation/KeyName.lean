import PacketTrust.Packet.Interest
import PacketTrust.Validation.Error

/-! The key name that a signature tells, and the request for a certificate of that key. -/

namespace PacketTrust

namespace SignatureInfo

def keyName (s : SignatureInfo) : Except ValidationError Name :=
  match s.keyLocator? with
  | some (.name n) => .ok n
  | some (.digest _) => .error ⟨.keyLocator, "KeyLocator type is not Name"⟩
  | none => .error ⟨.keyLocator, "KeyLocator is missing"⟩

end SignatureInfo

namespace Interest

/-- The key name that the signature of a signed Interest tells. -/
def keyName (i : Interest) : Except ValidationError Name :=
  if i.name.length < 2 then .error ⟨.keyLocator, "Invalid signed Interest: name too short"⟩
  else match i.signature with
    | .ok s => s.info.keyName
    | .error e => .error ⟨.keyLocator, s!"Invalid signed Interest: {e.message}"⟩

end Interest

/-- An Interest for a certificate, and how to go on when it is not answered. -/
structure CertificateRequest where
  interest : Interest
  /-- Attempts left after a timeout or a refusal; none once this is negative. -/
  retriesLeft : Int := 3
  /-- The pause after a refusal, which doubles each time. -/
  pause : Duration := .ofMillis 500
deriving DecidableEq, Repr

namespace CertificateRequest

/-- Key names are beginnings of certificate names, so any name that begins so will do. -/
def ofName (n : Name) : CertificateRequest := { interest := { name := n, canBePrefix := true } }

def name (r : CertificateRequest) : Name := r.interest.name

end CertificateRequest

end PacketTrust
