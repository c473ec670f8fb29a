import PacketTrust.Certificate
import PacketTrust.Crypto.Ecdsa
import PacketTrust.Crypto.Rsa
import PacketTrust.Packet.Interest

/-! Verification of signatures under public keys. A verifier only answers whether a signature fits;
what may be trusted is decided elsewhere. It is told how often it was asked before, so that one
whose answers change over time is a verifier too. -/

namespace PacketTrust

structure Verifier where
  /-- The signature fits the signed octets and the public key. -/
  accepts : (call : Nat) → (signed : Bytes) → Signature → (publicKey : Bytes) → Bool

namespace Verifier

/-- Signatures on the curve P-256, RSA signatures and plain digests; no other kind is accepted. -/
def acceptsStandard (signed : Bytes) (s : Signature) (publicKey : Bytes) : Bool :=
  match s.info with
  | .sha256WithEcdsa .. => Ecdsa.verify signed s.value publicKey
  | .sha256WithRsa .. => Rsa.verify signed s.value publicKey
  | .digestSha256 => Sha256.digest signed == s.value
  | .hmacWithSha256 .. | .generic .. => false

def standard : Verifier := ⟨fun _ => acceptsStandard⟩

/-- The answer for a Data packet, and the number of calls after it. -/
def checkData (v : Verifier) (calls : Nat) (d : Data) (signer : Certificate) : Bool × Nat :=
  (v.accepts calls d.signedPortion d.signature signer.publicKey, calls + 1)

/-- The answer for an Interest; one without a readable signature is refused unasked. -/
def checkInterest (v : Verifier) (calls : Nat) (i : Interest) (signer : Certificate) :
    Bool × Nat :=
  match i.signature with
  | .ok s => (v.accepts calls i.signedPortion s signer.publicKey, calls + 1)
  | .error _ => (false, calls)

end Verifier

end PacketTrust
