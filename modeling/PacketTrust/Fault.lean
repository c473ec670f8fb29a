import PacketTrust.Name.Uri

/-! Faults: misuse by a caller, or numbers beyond their range. An action that meets one stops there,
and what it did before stands. -/

namespace PacketTrust

inductive Fault where
  /-- A moment would lie outside the supported years. -/
  | dateRange
  /-- A pause would grow too long. -/
  | durationRange
  | outcomeSet (name : Name) (outcome : Bool)
  | hooksOnData (name : Name)
  | emptyChain
  | storageSet
  | storageMissing
  /-- A callback went wrong. -/
  | callback
deriving DecidableEq, Repr

def Fault.message : Fault → String
  | dateRange => "`DateTime + TimeDelta` overflowed"
  | durationRange => "overflow when multiplying duration by scalar"
  | outcomeSet name outcome => s!"Validation outcome for {name.uri} already set to {outcome}"
  | hooksOnData name => s!"Success hooks are not supported for Data {name.uri}"
  | emptyChain => "Policy chain must not be empty"
  | storageSet => "Certificate storage can only be set once"
  | storageMissing => "Certificate storage must be set before fetching"
  | callback => "callback failed"

/-- An action on a state; a fault keeps the state that it was met in. -/
abbrev Act (σ : Type) := EStateM Fault σ

/-- An action on a part of a state. -/
def Act.within {σ τ α : Type} (part : σ → τ) (put : σ → τ → σ) (act : Act τ α) : Act σ α :=
  fun s =>
    match act (part s) with
    | .ok a t => .ok a (put s t)
    | .error e t => .error e (put s t)

/-- A computation of a result and the next state. -/
def Act.ofFunction {σ α : Type} (f : σ → α × σ) : Act σ α :=
  fun s => .ok (f s).1 (f s).2

end PacketTrust
