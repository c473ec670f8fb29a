import PacketTrust.Validation.Fetch
import PacketTrust.Validation.Session

/-! The validator. A session asks the policies about its packet, then for the certificate of the
signer, then the policies about that one, and so on until a trusted certificate is found; from there
the signatures are checked back to the packet. -/

namespace PacketTrust

structure Validator where
  verifier : Verifier
  reach : Reach
  /-- The longest chain of certificates that is followed. -/
  maxDepth : Nat

/-- A session has ended, or it waits. -/
inductive Status where
  | ended
  | waiting (pending : Pending)
deriving DecidableEq, Repr

namespace Validator

open Scene

/-- The fetcher of a validator has its storage. -/
def fetcher (v : Validator) : Fetcher := { reach := v.reach }

/-- Asks the policies, and leaves their hooks with the session. -/
def ask (s : Subject) : Act Scene Verdict := do
  let (verdict, hooks) ← onWorld (Act.ofFunction (·.checkPolicy s))
  addHooks hooks
  return verdict

/-- Ends the session from a trusted certificate, and remembers the certificates that were
verified. -/
def conclude (v : Validator) (trusted : Certificate) : Act Scene Unit := do
  match ← verifyChain v.verifier trusted with
  | some signer => verifyPacket v.verifier signer
  | none => pure ()
  let chain := (← get).session.chain
  modify fun s =>
    { session := { s.session with chain := [] }
      world := chain.foldl World.cacheVerified s.world }

/-- Takes a retrieved certificate into the chain, which then needs the one of its signer; nothing if
the session has ended instead. -/
def accept (c : Certificate) : Act Scene (Option CertificateRequest) := do
  if ¬ c.ValidAt (← onWorld World.readClock) then
    fail ⟨.expired, s!"Retrieved certificate is not yet valid or expired `{c.name.uri}`"⟩
    return none
  match ← ask (.certificate c) with
  | .request r =>
    updateSession (·.addCertificate c)
    return some r
  | .accept =>
    fail ⟨.policy,
      s!"Validation policy is not allowed to designate `{c.name.uri}` as a trust anchor"⟩
    return none
  | .reject e =>
    fail e
    return none
  | .pass =>
    fail ⟨.implementation, s!"Policy chain deferred on `{c.name.uri}`"⟩
    return none

/-- Goes on from where a retrieval has got to; a request that follows from it is left to `next`. -/
def settle (next : CertificateRequest → Act Scene Status) : Progress → Act Scene Status
  | .found c => do
    match ← accept c with
    | some r => next r
    | none => return .ended
  | .failed e => do
    fail e
    return .ended
  | .pending p => return .waiting p

/-- Looks for a requested certificate, and for those that it leads to, as far as storage holds them.
The chain has room for so many more. -/
def pursue (v : Validator) : (room : Nat) → CertificateRequest → Act Scene Status
  | 0, _ => do
    fail ⟨.depthLimit, toString v.maxDepth⟩
    return .ended
  | room + 1, r => do
    if (← get).session.hasSeen r.name then
      fail ⟨.loop, s!"`{r.name.uri}`"⟩
      return .ended
    updateSession (·.addSeen r.name)
    match ← onWorld (World.findTrusted r.interest) with
    | some trusted =>
      v.conclude trusted
      return .ended
    | none => settle (v.pursue room) (← onWorld (v.fetcher.fetch r))

/-- The room that the chain of the session has. -/
def room (v : Validator) : Act Scene Nat := do
  return v.maxDepth - (← get).session.depth

/-- Goes on from where a retrieval has got to. -/
def proceed (v : Validator) : Progress → Act Scene Status :=
  settle fun r => do v.pursue (← v.room) r

/-- Runs a session from its beginning until it ends or waits. -/
def start (v : Validator) : Act Scene Status := do
  match ← ask (← get).session.packet.subject with
  | .accept =>
    succeed
    return .ended
  | .reject e =>
    fail e
    return .ended
  | .request r => v.pursue (← v.room) r
  | .pass =>
    fail ⟨.implementation, "Policy chain deferred without a decision"⟩
    return .ended

/-- Runs a session from the answer to its request until it ends or waits again. -/
def receive (v : Validator) (a : Attempt) (response : Response) : Act Scene Status := do
  v.proceed (← onWorld (v.fetcher.receive a response))

/-- Runs a session from the end of its pause until it ends or waits again. -/
def wake (v : Validator) (a : Attempt) : Act Scene Status := do
  v.proceed (← onWorld (v.fetcher.wake a))

end Validator

end PacketTrust
