import PacketTrust.Time.Duration

/-! Settings of a validator, each with its default, and the longest period that settings may
name. -/

namespace PacketTrust

inductive OptionsError where
  | invalid (key value : String)
  | syntaxError
  | unreadable
deriving DecidableEq, Repr

def OptionsError.message : OptionsError → String
  | invalid key value => s!"Invalid value `{value}` for {key}"
  | syntaxError => "Failed to parse configuration"
  | unreadable => "Failed to read configuration"

/-- The longest period, a hundred years of 365 days, in seconds and in milliseconds. -/
def maxPeriodSeconds : Nat := 100 * 365 * 24 * 60 * 60
def maxPeriodMillis : Nat := maxPeriodSeconds * 1000

/-- What the policy on command Interests allows and remembers. -/
structure CommandOptions where
  /-- How far a timestamp may lie from the clock, in milliseconds. -/
  gracePeriod : Nat := 2 * 60 * 1000
  /-- How many keys are remembered at most. -/
  maxRecords : Option Nat := some 1000
  /-- How long a key is remembered, in seconds. -/
  recordLifetime : Nat := 3600
deriving DecidableEq, Repr

/-- Periods in seconds. -/
structure Options where
  maxDepth : Nat := 25
  verifiedLifetime : Nat := 3600
  unverifiedLifetime : Nat := 300
  anchorRefresh : Nat := 3600
  command : CommandOptions := {}
deriving DecidableEq, Repr

/-- Seconds in milliseconds, at most the longest period. -/
def cappedMillis (seconds : Nat) : Int := (min seconds maxPeriodSeconds) * 1000

namespace CommandOptions

def graceMillis (o : CommandOptions) : Int := min o.gracePeriod maxPeriodMillis

def recordMillis (o : CommandOptions) : Int := cappedMillis o.recordLifetime

end CommandOptions

namespace Options

def verifiedMillis (o : Options) : Int := cappedMillis o.verifiedLifetime

def unverifiedMillis (o : Options) : Int := cappedMillis o.unverifiedLifetime

def anchorRefreshPeriod (o : Options) : Duration := .ofSeconds o.anchorRefresh

/-- Refuses a period that is too long. -/
def checkPeriod (key : String) (value limit : Nat) : Except OptionsError Nat :=
  if value > limit then .error (.invalid key (toString value)) else .ok value

end Options

end PacketTrust
