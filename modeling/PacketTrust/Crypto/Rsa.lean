import PacketTrust.Crypto.Der
import PacketTrust.Crypto.Modular
import PacketTrust.Crypto.Sha256

/-! RSA signatures over SHA-256 digests, with the padding that fixes every octet of the signed
block. -/

namespace PacketTrust.Rsa

/-- The object identifier of RSA keys, and the parameters that stand behind it. -/
def algorithm : Bytes := [0x2a, 0x86, 0x48, 0x86, 0xf7, 0x0d, 0x01, 0x01, 0x01]
def parameters : Bytes := Der.encode Der.nullTag []

/-- What precedes a SHA-256 digest in a signed block. -/
def digestMark : Bytes :=
  [0x30, 0x31, 0x30, 0x0d, 0x06, 0x09, 0x60, 0x86, 0x48, 0x01, 0x65, 0x03, 0x04, 0x02, 0x01, 0x05,
   0x00, 0x04, 0x20]

structure Key where
  modulus : Nat
  exponent : Nat
deriving DecidableEq, Repr

/-- Odd moduli of at most 4096 bits, with odd exponents of three at least and of 33 bits at most. -/
def key? (publicKey : Bytes) : Option Key := do
  let info ← Der.publicKeyInfo? publicKey
  if info.algorithm = algorithm ∧ info.parameters = parameters then
    let (n, e) ← Der.naturals? info.key
    if n % 2 = 1 ∧ n.log2 < 4096 ∧ e % 2 = 1 ∧ 3 ≤ e ∧ e.log2 < 33 then pure ⟨n, e⟩ else none
  else none

/-- The block of a size that stands for a message, if the size has room for it. -/
def block? (size : Nat) (message : Bytes) : Option Bytes :=
  let tail := digestMark ++ Sha256.digest message
  if tail.length + 11 ≤ size then
    some ([0, 1] ++ List.replicate (size - tail.length - 3) 0xff ++ [0] ++ tail)
  else none

def verify (message signature publicKey : Bytes) : Bool :=
  match key? publicKey with
  | none => false
  | some key =>
    let size := (Der.octets key.modulus).length
    let s := Bytes.toNat signature
    signature.length == size && s < key.modulus &&
      block? size message == some (Bytes.bigEndian size (Modular.pow key.modulus s key.exponent))

end PacketTrust.Rsa
