import PacketTrust.Options.Basic
import PacketTrust.Text.Blank
import PacketTrust.Text.Decimal

/-! Settings from variables. A variable that is not set leaves the default in place. -/

namespace PacketTrust.Options

/-- What a variable is set to. -/
abbrev Variables := String → Option String

/-- The number that a variable holds between blanks. -/
def number (vars : Variables) (key : String) (default : Nat) : Except OptionsError Nat :=
  match vars key with
  | none => .ok default
  | some text =>
    match Decimal.natural? (UInt64.size - 1) (Text.trim text.toList) with
    | some n => .ok n
    | none => .error (.invalid key text)

def period (vars : Variables) (key : String) (default limit : Nat) : Except OptionsError Nat := do
  checkPeriod key (← number vars key default) limit

/-- The number of records, for which there may be no limit. -/
def recordLimit (vars : Variables) (default : Option Nat) : Except OptionsError (Option Nat) :=
  let key := "NDN_COMMAND_MAX_RECORDS"
  match vars key with
  | none => .ok default
  | some text =>
    let word := String.ofList (Text.trim text.toList)
    if word = "unlimited" ∨ word = "-1" then .ok none
    else do pure (some (← number vars key 0))

def ofVariables (vars : Variables) : Except OptionsError Options := do
  let d : Options := {}
  let maxRecords ← recordLimit vars d.command.maxRecords
  let maxDepth ← number vars "NDN_MAX_DEPTH" d.maxDepth
  let verifiedLifetime ←
    period vars "NDN_VERIFIED_CACHE_LIFETIME_SECS" d.verifiedLifetime maxPeriodSeconds
  let unverifiedLifetime ←
    period vars "NDN_UNVERIFIED_CACHE_LIFETIME_SECS" d.unverifiedLifetime maxPeriodSeconds
  let anchorRefresh ← period vars "NDN_ANCHOR_REFRESH_SECS" d.anchorRefresh maxPeriodSeconds
  let gracePeriod ←
    period vars "NDN_COMMAND_GRACE_PERIOD_MS" d.command.gracePeriod maxPeriodMillis
  let recordLifetime ←
    period vars "NDN_COMMAND_RECORD_LIFETIME_SECS" d.command.recordLifetime maxPeriodSeconds
  pure { maxDepth, verifiedLifetime, unverifiedLifetime, anchorRefresh
         command := { gracePeriod, maxRecords, recordLifetime } }

/-- The variables that settings are read from. -/
def variableNames : List String :=
  ["NDN_MAX_DEPTH", "NDN_VERIFIED_CACHE_LIFETIME_SECS", "NDN_UNVERIFIED_CACHE_LIFETIME_SECS",
    "NDN_ANCHOR_REFRESH_SECS", "NDN_COMMAND_GRACE_PERIOD_MS", "NDN_COMMAND_MAX_RECORDS",
    "NDN_COMMAND_RECORD_LIFETIME_SECS"]

end PacketTrust.Options
