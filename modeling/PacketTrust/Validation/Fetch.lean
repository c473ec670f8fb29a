import PacketTrust.Validation.World

/-! Retrieval of certificates: first from the unverified ones in storage, then, if the fetcher
reaches it, from the network. A request that is not answered is repeated until its attempts are used
up; after a refusal a pause comes first. -/

namespace PacketTrust

/-- What the network makes of an Interest. -/
inductive Response where
  | data (data : Data)
  | timeout
  | refused
deriving DecidableEq, Repr

/-- Where certificates are looked for that are not in storage. -/
inductive Reach where
  | network
  | offline
deriving DecidableEq, Repr

structure Fetcher where
  reach : Reach
  /-- The fetcher was given the storage to look in. -/
  wired : Bool := true
deriving DecidableEq, Repr

/-- A request under way. -/
structure Attempt where
  request : CertificateRequest
  /-- How many fetches wait for what the request comes to. On the way back each of them puts it
  among the unverified certificates. -/
  levels : Nat := 1
deriving DecidableEq, Repr

/-- What a retrieval waits for. -/
inductive Pending where
  /-- The request was sent, and its answer is due. -/
  | answer (attempt : Attempt)
  /-- The request is to be sent again after its pause. -/
  | pause (attempt : Attempt)
deriving DecidableEq, Repr

def Pending.attempt : Pending → Attempt
  | answer a => a
  | pause a => a

/-- Where a retrieval has got to. -/
inductive Progress where
  | found (certificate : Certificate)
  | failed (error : ValidationError)
  | pending (pending : Pending)
deriving DecidableEq, Repr

/-- How often a retrieval waits at most before it ends: for the answer to each attempt that is left,
and for the pause before it. -/
def Progress.waits : Progress → Nat
  | found _ | failed _ => 0
  | pending p => 2 * p.attempt.request.retriesLeft.toNat + 2

namespace Fetcher

/-- Gives the storage to the fetcher, which takes only one. -/
def wire (f : Fetcher) : Except Fault Fetcher :=
  if f.wired then .error .storageSet else .ok { f with wired := true }

/-- Goes for a certificate that is not in storage. -/
def send (f : Fetcher) (a : Attempt) : Progress :=
  match f.reach with
  | .network => .pending (.answer a)
  | .offline =>
    .failed ⟨.cannotRetrieve,
      s!"Cannot fetch certificate `{a.request.name.uri}` in offline mode"⟩

/-- Goes for a certificate without a look into storage. -/
def fetchDirectly (f : Fetcher) (r : CertificateRequest) : Progress :=
  f.send { request := r, levels := 0 }

/-- A certificate among the unverified ones that answers a request. -/
def lookup (f : Fetcher) (r : CertificateRequest) : Act World (Option Certificate) :=
  if f.wired then
    World.onStorage fun _ now => Storage.onUnverified (·.findInterest now r.interest)
  else throw .storageMissing

/-- Looks among the unverified certificates, else goes for one. -/
def fetch (f : Fetcher) (r : CertificateRequest) : Act World Progress := do
  match ← f.lookup r with
  | some c => return .found c
  | none => return f.send { request := r }

/-- Ends a retrieval with a certificate, which each fetch that waits for it puts into storage. -/
def keep (a : Attempt) (c : Certificate) : Act World Progress := do
  modify (World.stock c a.levels)
  return .found c

/-- Starts over with the attempts that are left, in a fetch within the one before. -/
def again (f : Fetcher) (a : Attempt) : Act World Progress := do
  match ← f.lookup a.request with
  | some c => keep a c
  | none => return f.send { a with levels := a.levels + 1 }

def exhausted (r : CertificateRequest) : ValidationError :=
  ⟨.cannotRetrieve, s!"Cannot fetch certificate after all retries `{r.name.uri}`"⟩

/-- The attempt after this one, if there is another. -/
def next? (a : Attempt) : Option Attempt :=
  let retriesLeft := a.request.retriesLeft - 1
  if 0 ≤ retriesLeft then some { a with request.retriesLeft := retriesLeft } else none

/-- Goes on with the answer to a request. -/
def receive (f : Fetcher) (a : Attempt) : Response → Act World Progress
  | .data d =>
    match Certificate.ofData d with
    | .ok c => keep a c
    | .error e =>
      return .failed ⟨.malformedCertificate,
        s!"Fetched a malformed certificate `{d.name.uri}` ({e.message})"⟩
  | .timeout =>
    match next? a with
    | some a => f.again a
    | none => return .failed (exhausted a.request)
  | .refused =>
    match next? a with
    | some a => return .pending (.pause a)
    | none => return .failed (exhausted a.request)

/-- Goes on after a pause; the next one will be twice as long. -/
def wake (f : Fetcher) (a : Attempt) : Act World Progress := do
  let pause := a.request.pause.twice
  if pause.inRange then f.again { a with request.pause := pause } else throw .durationRange

end Fetcher

end PacketTrust
