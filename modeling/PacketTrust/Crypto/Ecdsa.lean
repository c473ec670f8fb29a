import PacketTrust.Crypto.Der
import PacketTrust.Crypto.P256
import PacketTrust.Crypto.Sha256

/-! Signatures on the curve P-256 over SHA-256 digests, as pairs of numbers in distinguished
encoding. The secret number of each signature is derived from key and message, so signing is a
function. -/

namespace PacketTrust.Ecdsa

open P256 (order)

/-- The object identifiers of elliptic curve keys and of the curve. -/
def algorithm : Bytes := [0x2a, 0x86, 0x48, 0xce, 0x3d, 0x02, 0x01]
def curve : Bytes := [0x2a, 0x86, 0x48, 0xce, 0x3d, 0x03, 0x01, 0x07]

/-- The digest of a message as a number below the order. -/
def hash (message : Bytes) : Nat := Bytes.toNat (Sha256.digest message) % order

/-- The state of the generator of secret numbers. -/
structure Generator where
  key : Bytes
  value : Bytes

namespace Generator

def stir (g : Generator) (mark : UInt8) (seed : Bytes) : Generator :=
  let key := Sha256.hmac g.key (g.value ++ [mark] ++ seed)
  ⟨key, Sha256.hmac key g.value⟩

def start (secret hash : Nat) : Generator :=
  let seed := Bytes.bigEndian 32 secret ++ Bytes.bigEndian 32 hash
  (stir (stir ⟨List.replicate 32 0, List.replicate 32 1⟩ 0 seed) 1 seed)

/-- The first suitable number among the next `tries`. -/
def next (g : Generator) : (tries : Nat) → Nat
  | 0 => 1
  | tries + 1 =>
    let value := Sha256.hmac g.key g.value
    let k := Bytes.toNat value
    if 0 < k ∧ k < order then k
    else next (stir ⟨g.key, value⟩ 0 []) tries

end Generator

/-- The pair of numbers that signs a message. -/
def signPair (secret : Nat) (message : Bytes) : Nat × Nat :=
  let z := hash message
  let k := (Generator.start secret z).next 128
  let r := (((P256.Point.base.scale k).affine?).elim 0 (·.1)) % order
  (r, Modular.inverse order k * (z + r * secret) % order)

def sign (secret : Nat) (message : Bytes) : Bytes :=
  let (r, s) := signPair secret message
  Der.encode Der.sequenceTag (Der.encodeNatural r ++ Der.encodeNatural s)

/-- The public key of a secret number. -/
def publicKey (secret : Nat) : Bytes :=
  Der.PublicKeyInfo.encode
    ⟨algorithm, Der.encode Der.identifierTag curve, (P256.Point.base.scale secret).encode⟩

/-- The point that a public key holds. -/
def point? (publicKey : Bytes) : Option P256.Point := do
  let info ← Der.publicKeyInfo? publicKey
  if info.algorithm = algorithm ∧ Der.whole? Der.identifierTag info.parameters = some curve then
    P256.Point.decode? info.key
  else none

/-- The pair of numbers signs the message under the key. -/
def verifyPair (q : P256.Point) (message : Bytes) (r s : Nat) : Bool :=
  let i := Modular.inverse order s
  let u := (P256.Point.base.scale (hash message * i % order)).add (q.scale (r * i % order))
  match u.affine? with
  | some (x, _) => x % order == r
  | none => false

def verify (message signature publicKey : Bytes) : Bool :=
  match point? publicKey, Der.naturals? signature with
  | some q, some (r, s) =>
    0 < r && r < order && 0 < s && s < order && verifyPair q message r s
  | _, _ => false

end PacketTrust.Ecdsa
