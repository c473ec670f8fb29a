import PacketTrust.Time.Duration
import PacketTrust.Tlv.Elements
import PacketTrust.Tlv.Types

/-! What a Data packet says about its content: its type and how long it stays fresh. -/

namespace PacketTrust

structure MetaInfo where
  contentType : UInt64 := Tlv.ContentType.blob
  freshness : Option Duration := none
deriving DecidableEq, Repr

namespace MetaInfo

/-- The meta information of packets that have none on the wire. -/
def isDefault (m : MetaInfo) : Bool :=
  m.contentType = Tlv.ContentType.blob && m.freshness.isNone

def encodeValue (m : MetaInfo) : Bytes :=
  (if m.contentType = Tlv.ContentType.blob then []
    else Tlv.encodeNumberElement Tlv.Types.contentType m.contentType) ++
  match m.freshness with
  | none => []
  | some d => Tlv.encodeNumberElement Tlv.Types.freshnessPeriod (UInt64.ofNat d.millis)

def encode (m : MetaInfo) : Bytes := Tlv.encode Tlv.Types.metaInfo m.encodeValue

/-- Takes in one element; a later one of the same type wins, and other types count for nothing. -/
def take (m : MetaInfo) (e : Tlv.Element) : Except Tlv.Error MetaInfo :=
  if e.type = Tlv.Types.contentType then do
    pure { m with contentType := ← Tlv.decodeNumber e.value }
  else if e.type = Tlv.Types.freshnessPeriod then do
    let n ← Tlv.decodeNumber e.value
    pure { m with freshness := some (.ofMillis n.toNat) }
  else pure m

def takeAll (m : MetaInfo) : Tlv.Elements → Except Tlv.Error MetaInfo
  | .done => .ok m
  | .broken e => .error e
  | .next element rest => do takeAll (← m.take element) rest

def decodeValue (value : Bytes) : Except Tlv.Error MetaInfo :=
  takeAll {} (Tlv.Elements.ofBytes value)

end MetaInfo

end PacketTrust
