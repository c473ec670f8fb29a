import PacketTrust.Storage.Anchors
import PacketTrust.Storage.Cache

/-! What a validator knows of certificates: the trust anchors, those verified up to an anchor, and
those only retrieved. Anchors and verified certificates are trusted. -/

namespace PacketTrust

structure Storage where
  anchors : Anchors := {}
  verified : Cache := { lifetime := .ofMillis 3600000 }
  unverified : Cache := { lifetime := .ofMillis 300000 }

namespace Storage

/-- Storage whose caches keep entries for at most these milliseconds. -/
def ofLifetimes (verified unverified : Int) : Storage :=
  { verified := { lifetime := .ofMillis verified },
    unverified := { lifetime := .ofMillis unverified } }

def onAnchors {α : Type} (act : Act Anchors α) : Act Storage α :=
  act.within (·.anchors) fun s anchors => { s with anchors }

def onVerified {α : Type} (f : Cache → α × Cache) : Act Storage α :=
  (Act.ofFunction f).within (·.verified) fun s verified => { s with verified }

def onUnverified {α : Type} (f : Cache → α × Cache) : Act Storage α :=
  (Act.ofFunction f).within (·.unverified) fun s unverified => { s with unverified }

def cacheVerified (s : Storage) (now : Instant) (c : Certificate) : Storage :=
  { s with verified := s.verified.insert now c }

def cacheUnverified (s : Storage) (now : Instant) (c : Certificate) : Storage :=
  { s with unverified := s.unverified.insert now c }

end Storage

/-- What may be done with a part of storage. -/
inductive StorageOperation where
  | anchors (operation : AnchorOperation)
  | verified (operation : CacheOperation)
  | unverified (operation : CacheOperation)
deriving DecidableEq, Repr

/-- Carries an operation out; a search also tells what it found. -/
def StorageOperation.run (disk : Disk) (now : Instant) :
    StorageOperation → Act Storage (Except AnchorError (Option Certificate))
  | anchors op => Storage.onAnchors (op.run disk now)
  | verified op => return .ok (← Storage.onVerified fun c => op.run now c)
  | unverified op => return .ok (← Storage.onUnverified fun c => op.run now c)

end PacketTrust
