import PacketTrust.Certificate
import PacketTrust.Fault
import PacketTrust.Time.Clock
import PacketTrust.Validation.KeyName
import PacketTrust.Validation.Records

/-! Policies. A policy looks at a packet and accepts it, rejects it, asks for the certificate of its
signer, or leaves it to the next policy of the chain. It may also leave hooks, to be run when the
packet turns out to be valid. -/

namespace PacketTrust

inductive Verdict where
  /-- The next policy decides. -/
  | pass
  /-- Valid whatever the signature. -/
  | accept
  | reject (error : ValidationError)
  /-- Valid if this certificate is retrieved, is valid and verifies the signature. -/
  | request (request : CertificateRequest)
deriving DecidableEq, Repr

/-- What a policy is asked about. -/
inductive Subject where
  | data (data : Data)
  | interest (interest : Interest)
  | certificate (certificate : Certificate)
deriving DecidableEq, Repr

def Subject.name : Subject → Name
  | data d => d.name
  | interest i => i.name
  | certificate c => c.name

/-- What is done when an Interest turns out to be valid. -/
inductive Hook where
  /-- Record the timestamp of a key with the policy at a place of the chain. -/
  | record (place : Nat) (keyName : Name) (timestamp : UInt64)
  /-- Call back under a label; the callback may go wrong. -/
  | call (label : String) (fails : Bool)
deriving DecidableEq, Repr

inductive Policy where
  | acceptAll
  /-- Signers must own a name that the packet's name begins with. -/
  | hierarchy
  /-- Timestamps of command Interests must be near the clock and rise for each key. -/
  | command (options : CommandOptions) (records : Records)
  /-- A policy of an application, whose answers may change from call to call. -/
  | custom (rule : (call : Nat) → Subject → Verdict × List Hook) (calls : Nat := 0)

namespace Policy

/-- Under the hierarchy a key without its last two components begins the packet's name. -/
def checkHierarchy (kind : String) (n : Name) (keyName : Except ValidationError Name) : Verdict :=
  match keyName with
  | .error e => .reject e
  | .ok k =>
    if n.startsWith (k.take (-2)) then .request (.ofName k)
    else .reject ⟨.keyLocator, s!"{kind} signing policy violation for `{n.uri}` by `{k.uri}`"⟩

/-- The key name and the timestamp of a command Interest. -/
def commandParts (i : Interest) : Except ValidationError (Name × UInt64) :=
  if i.name.length < 4 then
    .error ⟨.policy, s!"Command interest name `{i.name.uri}` is too short"⟩
  else match (i.name.get? (-4)).map Component.number with
    | some (.ok timestamp) => do pure (← i.keyName, timestamp)
    | _ =>
      .error ⟨.policy, s!"Command interest `{i.name.uri}` doesn't include timestamp component"⟩

/-- The verdict on a timestamp, given the records as they are after cleaning up. -/
def checkTimestamp (o : CommandOptions) (records : Records) (now : Instant) (place : Nat)
    (keyName : Name) (timestamp : UInt64) : Verdict × List Hook :=
  let stamp : Int := timestamp.toNat
  if stamp < now.toMillis - o.graceMillis ∨ now.toMillis + o.graceMillis < stamp then
    (.reject ⟨.policy, s!"Timestamp is outside the grace period for key `{keyName.uri}`"⟩, [])
  else if (records.find? keyName).any fun r => timestamp ≤ r.timestamp then
    (.reject ⟨.policy, s!"Timestamp is reordered for key `{keyName.uri}`"⟩, [])
  else (.pass, [.record place keyName timestamp])

/-- The verdict of a policy at a place of the chain and the hooks that it leaves; then what becomes
of the policy and of the clock. -/
def check (p : Policy) (clock : Clock) (place : Nat) (s : Subject) :
    (Verdict × List Hook) × Policy × Clock :=
  match p with
  | acceptAll => ((.accept, []), p, clock)
  | hierarchy =>
    let verdict := match s with
      | .data d => checkHierarchy "Data" d.name d.signature.info.keyName
      | .certificate c => checkHierarchy "Data" c.name c.data.signature.info.keyName
      | .interest i => checkHierarchy "Interest" i.name i.keyName
    ((verdict, []), p, clock)
  | command o records =>
    match s with
    | .data _ | .certificate _ => ((.pass, []), p, clock)
    | .interest i =>
      match commandParts i with
      | .error e => ((.reject e, []), p, clock)
      | .ok (keyName, timestamp) =>
        let records := records.cleanUp o clock.now
        let clock := clock.next
        (checkTimestamp o records clock.now place keyName timestamp, command o records, clock.next)
  | custom rule calls => (rule calls s, custom rule (calls + 1), clock)

/-- Records a timestamp, if the policy keeps any. -/
def record (p : Policy) (keyName : Name) (timestamp : UInt64) (now : Instant) : Policy :=
  match p with
  | command o records => command o (records.insert keyName timestamp now)
  | _ => p

/-- Drops the records that are too old or too many. -/
def cleanUp (p : Policy) (now : Instant) : Policy :=
  match p with
  | command o records => command o (records.cleanUp o now)
  | _ => p

/-- The number of keys that the policy remembers, if it keeps any. -/
def recordCount? : Policy → Option Nat
  | command _ records => some records.length
  | _ => none

end Policy

abbrev PolicyChain := List Policy

namespace PolicyChain

/-- Asks the policies from a place on until one decides. -/
def checkFrom (s : Subject) : (clock : Clock) → (place : Nat) → PolicyChain →
    (Verdict × List Hook) × PolicyChain × Clock
  | clock, _, [] =>
    let info := s!"No policy in the chain made a decision for `{s.name.uri}`"
    ((.reject ⟨.implementation, info⟩, []), [], clock)
  | clock, place, p :: rest =>
    match p.check clock place s with
    | ((.pass, hooks), p, clock) =>
      let ((verdict, more), rest, clock) := checkFrom s clock (place + 1) rest
      ((verdict, hooks ++ more), p :: rest, clock)
    | (answer, p, clock) => (answer, p :: rest, clock)

/-- The first decision of a policy in the chain, and all hooks left on the way. -/
def check (chain : PolicyChain) (clock : Clock) (s : Subject) :
    (Verdict × List Hook) × PolicyChain × Clock :=
  checkFrom s clock 0 chain

/-- A chain has at least one policy. -/
def ofList (policies : List Policy) : Except Fault PolicyChain :=
  if policies.isEmpty then .error .emptyChain else .ok policies

end PolicyChain

end PacketTrust
