import PacketTrust.Name.Basic

/-! The key that a signature was made with: by its name or by its digest. -/

namespace PacketTrust

inductive KeyLocator where
  | name (name : Name)
  | digest (digest : Bytes)
deriving DecidableEq, Repr

namespace KeyLocator

def encodeValue : KeyLocator → Bytes
  | name n => n.encode
  | digest d => Tlv.encode Tlv.Types.keyDigest d

def encode (k : KeyLocator) : Bytes := Tlv.encode Tlv.Types.keyLocator k.encodeValue

/-- Reads the first element; what stands behind it counts for nothing. -/
def decodeValue (value : Bytes) : Except Tlv.Error KeyLocator := do
  let e ← Tlv.Read.element.result (.start value)
  if e.type = Tlv.Types.name then pure (.name (← Name.decodeValue e.value))
  else if e.type = Tlv.Types.keyDigest then pure (.digest e.value)
  else throw (.malformed (.keyLocatorType e.type))

end KeyLocator

end PacketTrust
