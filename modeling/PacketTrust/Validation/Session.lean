import PacketTrust.Validation.World
import PacketTrust.Verifier

/-! A validation session: a packet, the certificates collected for it, and the callbacks that are
told how it ends. The outcome is set once; then one callback runs, and after the success of an
Interest its hooks do. A callback that goes wrong disturbs nothing else. -/

namespace PacketTrust

inductive Packet where
  | data (data : Data)
  | interest (interest : Interest)
deriving DecidableEq, Repr

namespace Packet

def name : Packet → Name
  | data d => d.name
  | interest i => i.name

def kind : Packet → String
  | data _ => "data"
  | interest _ => "interest"

def subject : Packet → Subject
  | data d => .data d
  | interest i => .interest i

/-- Data packets are the same by their wires, Interests by what they hold. -/
def same : Packet → Packet → Bool
  | data d, data e => d.same e
  | interest i, interest j => i = j
  | _, _ => false

end Packet

/-- A callback that has not run yet; it may go wrong. -/
structure Callback where
  fails : Bool := false
deriving DecidableEq, Repr

structure Session where
  packet : Packet
  onSuccess : Option Callback := some {}
  onFailure : Option Callback := some {}
  hooks : List Hook := []
  /-- The certificates collected so far; the first is nearest to a trust anchor. -/
  chain : List Certificate := []
  /-- The names of certificates that were asked for or collected. -/
  seen : List Name := []
  outcome : Option Bool := none
deriving DecidableEq, Repr

/-- A session in the world that it shares with others. -/
structure Scene where
  session : Session
  world : World

namespace Session

def name (s : Session) : Name := s.packet.name

def depth (s : Session) : Nat := s.chain.length

def hasSeen (s : Session) (n : Name) : Bool := s.seen.contains n

def addSeen (s : Session) (n : Name) : Session :=
  if s.hasSeen n then s else { s with seen := s.seen ++ [n] }

/-- Puts a certificate before all others of the chain. -/
def addCertificate (s : Session) (c : Certificate) : Session :=
  { s.addSeen c.name with chain := c :: s.chain }

end Session

namespace Scene

/-- Changes the session alone. -/
def updateSession (f : Session → Session) : Act Scene Unit :=
  modify fun s => { s with session := f s.session }

def onWorld {α : Type} (act : Act World α) : Act Scene α :=
  act.within (·.world) fun s world => { s with world }

def emit (e : Event) : Act Scene Unit :=
  modify fun s => { s with world := s.world.emit e }

/-- Runs an action and goes on after it whether or not it goes wrong. -/
def guarded (act : Act Scene Unit) : Act Scene Unit := fun s =>
  match act s with
  | .ok () s => .ok () s
  | .error _ s => .ok () s

def setOutcome (outcome : Bool) : Act Scene Unit := do
  let s := (← get).session
  match s.outcome with
  | some previous => throw (.outcomeSet s.name previous)
  | none => updateSession fun s => { s with outcome := some outcome }

/-- Runs a callback, which is then used up. -/
def call (c : Option Callback) (e : Event) : Act Scene Unit :=
  match c with
  | none => pure ()
  | some c => guarded do
    emit e
    if c.fails then throw .callback

/-- Leaves hooks with the session; only Interests have them. -/
def addHooks (hooks : List Hook) : Act Scene Unit := do
  match (← get).session.packet, hooks with
  | _, [] => pure ()
  | .data d, _ => throw (.hooksOnData d.name)
  | .interest _, hooks => updateSession fun s => { s with hooks := s.hooks ++ hooks }

def runHook (n : Name) : Hook → Act Scene Unit
  | .record place keyName timestamp =>
    modify fun s => { s with world := s.world.record place keyName timestamp }
  | .call label fails => do
    emit (.hook label n)
    if fails then throw .callback

/-- Runs hooks in their order, each whether or not those before it went wrong. -/
def runHooks (n : Name) : List Hook → Act Scene Unit
  | [] => pure ()
  | hook :: rest => do
    guarded (runHook n hook)
    runHooks n rest

/-- Ends the session with an error. -/
def fail (e : ValidationError) : Act Scene Unit := do
  setOutcome false
  let s := (← get).session
  updateSession fun s => { s with onFailure := none }
  call s.onFailure (.failure s.name e)

/-- Ends the session with success. -/
def succeed : Act Scene Unit := do
  setOutcome true
  let s := (← get).session
  updateSession fun s => { s with onSuccess := none, hooks := [] }
  call s.onSuccess (.success s.name)
  runHooks s.name s.hooks

/-- Asks the verifier about the packet of the session. -/
def packetVerified (v : Verifier) (signer : Certificate) : Act Scene Bool := do
  let s ← get
  let (verified, calls) := match s.session.packet with
    | .data d => v.checkData s.world.calls d signer
    | .interest i => v.checkInterest s.world.calls i signer
  set { s with world.calls := calls }
  return verified

def certificateVerified (v : Verifier) (c signer : Certificate) : Act Scene Bool := do
  let s ← get
  let (verified, calls) := v.checkData s.world.calls c.data signer
  set { s with world.calls := calls }
  return verified

/-- Ends the session by the signature of its packet. -/
def verifyPacket (v : Verifier) (signer : Certificate) : Act Scene Unit := do
  if ← packetVerified v signer then succeed
  else
    let s := (← get).session
    fail ⟨.invalidSignature, s!"Invalid signature of {s.packet.kind} `{s.name.uri}`"⟩

/-- Follows the chain from a trusted signer on, each certificate being signed by the one before
it. -/
def verifyFrom (v : Verifier) (signer : Certificate) (checked : List Certificate) :
    List Certificate → Act Scene (Option Certificate)
  | [] => return some signer
  | c :: rest => do
    if ← certificateVerified v c signer then verifyFrom v c (checked ++ [c]) rest
    else
      updateSession fun s => { s with chain := checked }
      fail ⟨.invalidSignature, s!"Invalid signature of certificate `{c.name.uri}`"⟩
      return none

/-- The certificate that signed the packet, if each of the chain verifies. Else the chain is cut off
before the first that does not, and the session has failed. -/
def verifyChain (v : Verifier) (trusted : Certificate) : Act Scene (Option Certificate) := do
  verifyFrom v trusted [] (← get).session.chain

end Scene

end PacketTrust
