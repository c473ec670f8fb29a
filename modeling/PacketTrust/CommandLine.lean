import PacketTrust.Options.Document
import PacketTrust.Options.Variables
import PacketTrust.Validation.Run

/-! The command that validates one packet from a file, against trust anchors in files and without a
network. It says on one line whether the packet is valid; anything that keeps it from finding out
ends it with a failure and nothing said. -/

namespace PacketTrust.CommandLine

/-- What stands at a path. -/
inductive Node where
  | missing
  | file (content : Bytes)
  /-- A directory with the files directly in it. -/
  | directory (files : List (String × Bytes))
deriving DecidableEq, Repr

namespace Node

def content? : Node → Option Bytes
  | file content => some content
  | _ => none

def isDirectory : Node → Bool
  | directory _ => true
  | _ => false

/-- What stands in a tree where a text leads. -/
def find (files : Files) (text : String) : Node :=
  match files.path? text with
  | none => missing
  | some p =>
    if files.isDirectory p then directory (files.inDirectory p)
    else (files.content? p).elim missing file

/-- The tree that holds a node alone, under a path. -/
def toFiles (p : Path) : Node → Files
  | missing => {}
  | file content => { files := [(p, content)] }
  | directory files =>
    { files := files.map fun e => (p ++ [e.1], e.2), directories := [p] }

end Node

/-- What the command is run with. -/
structure Setting where
  arguments : List String
  environment : Options.Variables
  look : String → Node
  clock : Clock

structure Result where
  code : Nat
  output : String
deriving DecidableEq, Repr

namespace Result

/-- The packet was not looked at, or not to its end. -/
def broken : Result := ⟨1, ""⟩

/-- The command met a fault. -/
def faulted : Result := ⟨101, ""⟩

def ofFinding : Finding → Result
  | .valid p => ⟨0, s!"OK {p.name.uri}\n"⟩
  | .invalid e => ⟨1, s!"FAIL {e.reason.code} ({e.message})\n"⟩

end Result

def packetVariable : String := "PACKET_PATH"
def anchorVariable : String := "TRUST_ANCHOR_PATH"
def certificateVariable : String := "CERTIFICATE_DIR"
def configVariable : String := "CONFIG_PATH"

/-- The variables that the command reads. -/
def variableNames : List String :=
  [packetVariable, anchorVariable, certificateVariable, configVariable] ++ Options.variableNames

namespace Setting

/-- The first argument, else the variable for it. -/
def packetPath? (s : Setting) : Option String := s.arguments.head? <|> s.environment packetVariable

def anchorPath (s : Setting) : String := (s.environment anchorVariable).getD "trust-anchors"

def options (s : Setting) : Except OptionsError Options :=
  match s.environment configVariable with
  | some path => Options.ofFile (s.look path).content?
  | none => Options.ofVariables s.environment

/-- The places that the command looks at. -/
def places (s : Setting) : List String :=
  s.packetPath?.toList ++ s.anchorPath :: (s.environment certificateVariable).toList ++
    (s.environment configVariable).toList

end Setting

/-- The wire in a file that holds it as it is or in Base64. -/
def wire? (content : Bytes) : Option Bytes :=
  let plain := content.head?.any fun b =>
    b.toUInt64 = Tlv.Types.data || b.toUInt64 = Tlv.Types.interest
  if plain then some content
  else do Base64.decode? (Text.withoutBlanks (← Utf8.decode? content))

def packet? (content : Bytes) : Option Packet := do
  let wire ← wire? content
  let type ← wire.head?
  if type.toUInt64 = Tlv.Types.data then (Data.decode wire).toOption.map .data
  else if type.toUInt64 = Tlv.Types.interest then (Interest.decode wire).toOption.map .interest
  else none

/-- Data must be signed by the owner of a name above its own; Interests must be commands besides. -/
def chainFor (o : Options) : Packet → PolicyChain
  | .data _ => [.hierarchy]
  | .interest _ => [.command o.command [], .hierarchy]

def anchorGroup : String := "ndn-validate"
def anchorRoot : Path := ["anchors"]

/-- Storage with the anchors in a node and the certificates in a directory. -/
def storage (s : Setting) (o : Options) : Act World (Option Unit) := do
  let directory := (s.look s.anchorPath).isDirectory
  let loaded ← World.onStorage fun disk now => Storage.onAnchors
    (Anchors.insertPath disk now anchorGroup anchorRoot o.anchorRefreshPeriod directory)
  match loaded, (s.environment certificateVariable).map s.look with
  | .error _, _ => return none
  | .ok _, none => return some ()
  | .ok _, some (.directory files) =>
    for c in files.filterMap fun e => AnchorGroup.certificate? e.2 do
      modify (·.cacheUnverified c)
    return some ()
  | .ok _, some _ => return none

def validate (s : Setting) (o : Options) (p : Packet) : Result :=
  let world : World :=
    { clock := s.clock, files := (s.look s.anchorPath).toFiles anchorRoot, chain := chainFor o p
      storage := .ofLifetimes o.verifiedMillis o.unverifiedMillis }
  let v : Validator := { verifier := .standard, reach := .offline, maxDepth := o.maxDepth }
  match storage s o world with
  | .error _ _ => .faulted
  | .ok none _ => .broken
  | .ok (some ()) world =>
    match Run.check v 0 p { world } with
    | (.ok finding, _) => .ofFinding finding
    | (.error _, _) => .faulted

def run (s : Setting) : Result :=
  match s.packetPath?, s.options with
  | some path, .ok o =>
    match (s.look path).content?.bind packet? with
    | some p => validate s o p
    | none => .broken
  | _, _ => .broken

end PacketTrust.CommandLine
