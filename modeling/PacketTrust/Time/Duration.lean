/-! Lengths of time to the nanosecond: durations, which are never negative, and spans, which may
be. -/

namespace PacketTrust

structure Duration where
  nanoseconds : Nat
deriving DecidableEq, Repr, Inhabited

namespace Duration

def ofSeconds (n : Nat) : Duration := ⟨n * 1000000000⟩

def ofMillis (n : Nat) : Duration := ⟨n * 1000000⟩

/-- Whole seconds. -/
def seconds (d : Duration) : Nat := d.nanoseconds / 1000000000

/-- What is left of a second. -/
def subsecond (d : Duration) : Nat := d.nanoseconds % 1000000000

/-- Whole milliseconds. -/
def millis (d : Duration) : Nat := d.nanoseconds / 1000000

/-- Durations have at most 2^64 - 1 whole seconds. -/
def inRange (d : Duration) : Bool := d.seconds < UInt64.size

def twice (d : Duration) : Duration := ⟨d.nanoseconds * 2⟩

@[simp] theorem millis_ofMillis (n : Nat) : (ofMillis n).millis = n := by
  simp [millis, ofMillis]

end Duration

structure Span where
  nanoseconds : Int
deriving DecidableEq, Repr, Inhabited

namespace Span

def ofMillis (n : Int) : Span := ⟨n * 1000000⟩

def ofDuration (d : Duration) : Span := ⟨d.nanoseconds⟩

/-- Whole milliseconds. -/
def millis (s : Span) : Int := s.nanoseconds / 1000000

instance : Neg Span := ⟨fun s => ⟨-s.nanoseconds⟩⟩

end Span

end PacketTrust
