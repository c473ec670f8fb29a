import PacketTrust.Json
import PacketTrust.Options.Basic
import PacketTrust.Text.Decimal
import PacketTrust.Text.Utf8

/-! Settings from a JSON document: an object of the settings by name, or an array of them in
their order. A setting that is left out keeps its default, and an object may have members of
other names. -/

namespace PacketTrust.Options

/-- The natural number of 64 bits that a value is. -/
def natural? : Json → Option Nat
  | .number text => if text.all Char.isDigit then Decimal.natural? (UInt64.size - 1) text else none
  | _ => none

/-- A natural number or nothing. -/
def optional? : Json → Option (Option Nat)
  | .null => some none
  | j => (natural? j).map some

/-- The values of the named settings, in the order of the names. -/
def settings? (keys : List String) : Json → Option (List (Option Json))
  | .array items =>
    if items.length ≤ keys.length then
      some (items.map some ++ List.replicate (keys.length - items.length) none)
    else none
  | .object members =>
    if members.all fun m => m.1.isSome then
      keys.mapM fun key =>
        match members.filter fun m => m.1 = some key.toList with
        | [] => some none
        | [m] => some (some m.2)
        | _ => none
    else none
  | _ => none

/-- Reads a setting that may be left out. -/
def setting? {α : Type} (read : Json → Option α) (default : α) : Option Json → Option α
  | none => some default
  | some j => read j

def command? (j : Json) : Option CommandOptions := do
  let d : CommandOptions := {}
  match ← settings? ["grace_period_ms", "max_records", "record_lifetime_secs"] j with
  | [grace, records, lifetime] =>
    let gracePeriod ← setting? natural? d.gracePeriod grace
    let maxRecords ← setting? optional? d.maxRecords records
    let recordLifetime ← setting? natural? d.recordLifetime lifetime
    pure { gracePeriod, maxRecords, recordLifetime }
  | _ => none

def ofJson? (j : Json) : Option Options := do
  let d : Options := {}
  let keys := ["max_depth", "verified_cache_lifetime_secs", "unverified_cache_lifetime_secs",
    "anchor_refresh_secs", "command_interest"]
  match ← settings? keys j with
  | [depth, verified, unverified, refresh, commands] =>
    let maxDepth ← setting? natural? d.maxDepth depth
    let verifiedLifetime ← setting? natural? d.verifiedLifetime verified
    let unverifiedLifetime ← setting? natural? d.unverifiedLifetime unverified
    let anchorRefresh ← setting? natural? d.anchorRefresh refresh
    let command ← setting? command? d.command commands
    pure { maxDepth, verifiedLifetime, unverifiedLifetime, anchorRefresh, command }
  | _ => none

/-- Refuses settings with a period that is too long. -/
def check (o : Options) : Except OptionsError Unit := do
  let _ ← checkPeriod "verified_cache_lifetime_secs" o.verifiedLifetime maxPeriodSeconds
  let _ ← checkPeriod "unverified_cache_lifetime_secs" o.unverifiedLifetime maxPeriodSeconds
  let _ ← checkPeriod "anchor_refresh_secs" o.anchorRefresh maxPeriodSeconds
  let _ ← checkPeriod "command_interest.grace_period_ms" o.command.gracePeriod maxPeriodMillis
  let _ ← checkPeriod "command_interest.record_lifetime_secs" o.command.recordLifetime
    maxPeriodSeconds

def ofDocument (text : String) : Except OptionsError Options :=
  match (Json.ofText? text).bind ofJson? with
  | none => .error .syntaxError
  | some o => do
    o.check
    pure o

/-- Settings from the content of a file, which may be missing. -/
def ofFile : Option Bytes → Except OptionsError Options
  | none => .error .unreadable
  | some content =>
    match Utf8.decode? content with
    | none => .error .unreadable
    | some text => ofDocument (String.ofList text)

end PacketTrust.Options
