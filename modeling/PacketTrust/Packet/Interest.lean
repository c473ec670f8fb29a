import PacketTrust.Packet.Data

/-! Interests: requests for Data by name. A signed Interest carries the wires of its signature
information and of its signature value in the last two components of its name. -/

namespace PacketTrust

structure Interest where
  name : Name
  canBePrefix : Bool := false
  mustBeFresh : Bool := false
  /-- The four octets that tell equal Interests apart. -/
  nonce : Option UInt32 := none
  lifetime : Duration := .ofSeconds 4
deriving DecidableEq, Repr

namespace Interest

def defaultLifetime : Duration := .ofSeconds 4

/-- The packet answers the Interest: by full name, else by beginning or equality of names. -/
def matchesData (i : Interest) (d : Data) : Bool :=
  if i.name.length = d.name.length + 1 &&
      (i.name.get? (-1)).any Component.isImplicitDigest then
    i.name = d.fullName
  else if i.canBePrefix then d.name.startsWith i.name
  else i.name = d.name

/-- The octets that the signature covers: every component but the last. -/
def signedPortion (i : Interest) : Bytes := (i.name.take (-1)).encodeComponents

def signature (i : Interest) : Except Tlv.Error Signature :=
  match i.name.get? (-2), i.name.get? (-1) with
  | some info, some value => Signature.decode info.value value.value
  | _, _ => .error (.malformed .unsignedName)

/-- The elements behind the name; `fresh` stands in for a nonce that is not set. -/
def encodeRest (i : Interest) (fresh : UInt32) : Bytes :=
  (if i.canBePrefix then Tlv.encode Tlv.Types.canBePrefix [] else []) ++
    ((if i.mustBeFresh then Tlv.encode Tlv.Types.mustBeFresh [] else []) ++
      (Tlv.encode Tlv.Types.nonce (Bytes.bigEndian 4 (i.nonce.getD fresh).toNat) ++
        (if i.lifetime = defaultLifetime then []
          else Tlv.encodeNumberElement Tlv.Types.interestLifetime
            (UInt64.ofNat i.lifetime.millis))))

def encode (i : Interest) (fresh : UInt32) : Bytes :=
  Tlv.encode Tlv.Types.interest (i.name.encode ++ i.encodeRest fresh)

/-- Takes in one element behind the name; a later one of the same type wins. -/
def takeElement (i : Interest) (e : Tlv.Element) : Except Tlv.Error Interest :=
  if e.type = Tlv.Types.canBePrefix then pure { i with canBePrefix := true }
  else if e.type = Tlv.Types.mustBeFresh then pure { i with mustBeFresh := true }
  else if e.type = Tlv.Types.nonce then
    if e.value.length = 4 then
      pure { i with nonce := some (UInt32.ofNat (Bytes.toNat e.value)) }
    else throw (.malformed .nonceLength)
  else if e.type = Tlv.Types.interestLifetime then do
    let n ← Tlv.decodeNumber e.value
    pure { i with lifetime := .ofMillis n.toNat }
  else if e.type = Tlv.Types.forwardingHint then pure i
  else if Tlv.isCritical e.type then throw (.unrecognizedCritical e.type)
  else pure i

def takeAll (i : Interest) : Tlv.Elements → Except Tlv.Error Interest
  | .done => .ok i
  | .broken e => .error e
  | .next element rest => do takeAll (← i.takeElement element) rest

def decode (wire : Bytes) : Except Tlv.Error Interest := do
  let outer ← Tlv.single Tlv.Types.interest wire
  match Tlv.Read.expected Tlv.Types.name (.start outer.value) with
  | .error e _ => throw e
  | .ok first c =>
    let name ← Name.decodeValue first.value
    takeAll { name } (.read c)

end Interest

end PacketTrust
