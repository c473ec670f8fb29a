import PacketTrust.Time.Instant

/-! A clock that is read again and again. Its readings are any sequence of moments: it may stand
still, run, jump or go back. -/

namespace PacketTrust

structure Clock where
  /-- What each reading shows. -/
  shows : (reading : Nat) → Instant
  /-- How often the clock was read. -/
  readings : Nat := 0

namespace Clock

/-- A clock that stands still. -/
def still (t : Instant) : Clock := { shows := fun _ => t }

/-- A clock that runs: each reading is a millisecond later than the one before. -/
def running (t : Instant) : Clock := { shows := fun n => .ofMillis (t.toMillis + n) }

/-- What the next reading shows. -/
def now (c : Clock) : Instant := c.shows c.readings

/-- The clock after one more reading. -/
def next (c : Clock) : Clock := { c with readings := c.readings + 1 }

end Clock

end PacketTrust
