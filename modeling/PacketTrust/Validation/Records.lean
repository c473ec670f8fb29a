import PacketTrust.Name.Basic
import PacketTrust.Options.Basic
import PacketTrust.Time.Instant

/-! The last timestamps of the keys that signed command Interests, in the order in which they were
recorded. Records leave the list at its front, when they are too old or too many. -/

namespace PacketTrust

structure TimestampRecord where
  keyName : Name
  timestamp : UInt64
  /-- When the timestamp was recorded. -/
  recorded : Instant
deriving DecidableEq, Repr

abbrev Records := List TimestampRecord

namespace Records

def find? (l : Records) (keyName : Name) : Option TimestampRecord :=
  List.find? (·.keyName = keyName) l

/-- Records a timestamp at the back, unless one as great is recorded for the key. -/
def insert (l : Records) (keyName : Name) (timestamp : UInt64) (now : Instant) : Records :=
  match l.find? keyName with
  | some r =>
    if timestamp ≤ r.timestamp then l
    else l.filter (·.keyName ≠ keyName) ++ [⟨keyName, timestamp, now⟩]
  | none => l ++ [⟨keyName, timestamp, now⟩]

/-- The record was made as long ago as records live. -/
def tooOld (o : CommandOptions) (now : Instant) (r : TimestampRecord) : Bool :=
  (now.add? (-.ofMillis o.recordMillis)).any fun t => r.recorded ≤ t

def tooMany (o : CommandOptions) (count : Nat) : Bool :=
  o.maxRecords.any fun limit => limit < count

/-- Drops records from the front while they are too old or too many. -/
def cleanUp (o : CommandOptions) (now : Instant) : Records → Records
  | [] => []
  | r :: rest =>
    if tooOld o now r || tooMany o (rest.length + 1) then cleanUp o now rest
    else r :: rest

end Records

end PacketTrust
