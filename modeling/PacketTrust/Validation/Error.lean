/-! Why a packet was found not to be valid: a numbered reason and what is known about it. -/

namespace PacketTrust

inductive Reason where
  | noError
  | invalidSignature
  | noSignature
  | cannotRetrieve
  | expired
  | loop
  | malformedCertificate
  | depthLimit
  | keyLocator
  | policy
  | implementation
  /-- A reason of an application, numbered from 256 on. -/
  | custom (code : Nat)
deriving DecidableEq, Repr

namespace Reason

/-- The first number that applications may use. -/
def firstCustom : Nat := 256

def code : Reason → Nat
  | noError => 0
  | invalidSignature => 1
  | noSignature => 2
  | cannotRetrieve => 3
  | expired => 4
  | loop => 5
  | malformedCertificate => 6
  | depthLimit => 7
  | keyLocator => 8
  | policy => 9
  | implementation => 255
  | custom code => code

/-- The reason of a number, if one is assigned. -/
def ofCode? (n : Nat) : Option Reason :=
  match n with
  | 0 => some noError
  | 1 => some invalidSignature
  | 2 => some noSignature
  | 3 => some cannotRetrieve
  | 4 => some expired
  | 5 => some loop
  | 6 => some malformedCertificate
  | 7 => some depthLimit
  | 8 => some keyLocator
  | 9 => some policy
  | 255 => some implementation
  | n => if firstCustom ≤ n then some (custom n) else none

def message : Reason → String
  | noError => "No error"
  | invalidSignature => "Invalid signature"
  | noSignature => "Missing signature"
  | cannotRetrieve => "Cannot retrieve certificate"
  | expired => "Certificate expired"
  | loop => "Loop detected in certification chain"
  | malformedCertificate => "Malformed certificate"
  | depthLimit => "Exceeded validation depth limit"
  | keyLocator => "Key locator violates validation policy"
  | policy => "Validation policy error"
  | implementation => "Internal implementation error"
  | custom code => s!"Custom error code {code}"

end Reason

structure ValidationError where
  reason : Reason
  info : String := ""
deriving DecidableEq, Repr

namespace ValidationError

/-- The reason, and behind a colon what is known about it. -/
def message (e : ValidationError) : String :=
  if e.info.isEmpty then e.reason.message else s!"{e.reason.message}: {e.info}"

end ValidationError

end PacketTrust
