import PacketTrust.Storage.Basic
import PacketTrust.Time.Clock
import PacketTrust.Validation.Policy

/-! What the sessions of a validator share, and the record of the callbacks that ran. The clock is
read once for each thing that depends on it, so between any two of them time may have passed. -/

namespace PacketTrust

inductive Event where
  | success (name : Name)
  | failure (name : Name) (error : ValidationError)
  | hook (label : String) (name : Name)
deriving DecidableEq, Repr

structure World where
  clock : Clock
  files : Files := {}
  storage : Storage := {}
  chain : PolicyChain := []
  /-- How often the verifier was asked. -/
  calls : Nat := 0
  /-- The callbacks that ran, in their order. -/
  events : List Event := []

namespace World

/-- What the next reading of the clock shows. -/
def now (w : World) : Instant := w.clock.now

/-- Stops the clock at a moment. -/
def setTime (t : Instant) (w : World) : World := { w with clock := .still t }

/-- Stops the clock some milliseconds later. -/
def advance (ms : Int) : Act World Unit := do
  match (← get).now.add? (.ofMillis ms) with
  | some t => modify (setTime t)
  | none => throw .dateRange

def readClock : Act World Instant :=
  Act.ofFunction fun w => (w.now, { w with clock := w.clock.next })

/-- The sources of all groups find the same files. -/
abbrev disk (w : World) : Disk := fun _ => w.files

/-- Does something with storage that depends on the files and on one reading of the clock. -/
def onStorage {α : Type} (act : Disk → Instant → Act Storage α) : Act World α := do
  let now ← readClock
  (act (← get).disk now).within (·.storage) fun w storage => { w with storage }

/-- A certificate that answers an Interest, among the anchors, else among the verified. -/
def findTrusted (i : Interest) : Act World (Option Certificate) := do
  match ← onStorage fun disk now => Storage.onAnchors (Anchors.findInterest disk now i) with
  | some c => return some c
  | none => onStorage fun _ now => Storage.onVerified (·.findInterest now i)

/-- Some anchor or cached certificate has a name that begins with the given one. -/
def isKnown (n : Name) : Act World Bool := do
  let anchor ← onStorage fun disk now => Storage.onAnchors (Anchors.find disk now n)
  if anchor.isSome then return true
  let verified ← onStorage fun _ now => Storage.onVerified (·.find now n)
  if verified.isSome then return true
  let unverified ← onStorage fun _ now => Storage.onUnverified (·.find now n)
  return unverified.isSome

def cacheVerified (w : World) (c : Certificate) : World :=
  { w with storage := w.storage.cacheVerified w.now c, clock := w.clock.next }

def cacheUnverified (w : World) (c : Certificate) : World :=
  { w with storage := w.storage.cacheUnverified w.now c, clock := w.clock.next }

/-- Puts a certificate among the unverified ones a number of times, each at its own reading of the
clock. -/
def stock (c : Certificate) : (times : Nat) → World → World
  | 0, w => w
  | times + 1, w => stock c times (w.cacheUnverified c)

/-- Asks the policies about a packet. -/
def checkPolicy (w : World) (s : Subject) : (Verdict × List Hook) × World :=
  let (answer, chain, clock) := w.chain.check w.clock s
  (answer, { w with chain, clock })

/-- Records a timestamp with the policy at a place of the chain. -/
def record (w : World) (place : Nat) (keyName : Name) (timestamp : UInt64) : World :=
  { w with
    chain := w.chain.modify place fun p => p.record keyName timestamp w.now
    clock := w.clock.next }

def emit (w : World) (e : Event) : World := { w with events := w.events ++ [e] }

end World

end PacketTrust
