import PacketTrust.Text.Utf8
import PacketTrust.Time.Stamp
import PacketTrust.Tlv.Elements
import PacketTrust.Tlv.Types

/-! The period in which a certificate may be relied on; both of its ends belong to it. -/

namespace PacketTrust

structure Validity where
  notBefore : Instant
  notAfter : Instant
deriving DecidableEq, Repr

namespace Validity

/-- The period between the seconds that two moments lie in. -/
def ofInstants (notBefore notAfter : Instant) : Validity :=
  ⟨notBefore.floorSecond, notAfter.floorSecond⟩

def Contains (v : Validity) (t : Instant) : Prop := v.notBefore ≤ t ∧ t ≤ v.notAfter

instance (v : Validity) (t : Instant) : Decidable (v.Contains t) :=
  inferInstanceAs (Decidable (_ ∧ _))

def encodeValue (v : Validity) : Bytes :=
  Tlv.encode Tlv.Types.notBefore (Utf8.encode (Stamp.render v.notBefore)) ++
    Tlv.encode Tlv.Types.notAfter (Utf8.encode (Stamp.render v.notAfter))

def encode (v : Validity) : Bytes := Tlv.encode Tlv.Types.validityPeriod v.encodeValue

def decodeTime (value : Bytes) : Except Tlv.Error Instant :=
  match Utf8.decode? value with
  | none => .error (.malformed .timeNotText)
  | some text =>
    match Stamp.parse text with
    | .ok t => .ok t
    | .error problem => .error (.malformed (.time (String.ofList text) problem))

/-- Reads the two times in their order; what stands behind them counts for nothing. -/
def decodeValue (value : Bytes) : Except Tlv.Error Validity :=
  match Tlv.Read.expected Tlv.Types.notBefore (.start value) with
  | .error e _ => .error e
  | .ok first c => do
    let notBefore ← decodeTime first.value
    let second ← (Tlv.Read.expected Tlv.Types.notAfter).result c
    pure ⟨notBefore, ← decodeTime second.value⟩

end Validity

end PacketTrust
