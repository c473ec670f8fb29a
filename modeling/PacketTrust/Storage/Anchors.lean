import PacketTrust.Certificate
import PacketTrust.Fault
import PacketTrust.Name.Map
import PacketTrust.Packet.Interest
import PacketTrust.Storage.Files
import PacketTrust.Time.Duration

/-! Trust anchors in named groups. A static group holds what was put into it; a dynamic group
follows a file or a directory, which is read again whenever the period of the group has passed. An
anchor stays for as long as some group holds its name. -/

namespace PacketTrust

inductive AnchorError where
  | notStatic (group : String)
  | groupExists (group : String)
  | refreshPeriod (group : String)
deriving DecidableEq, Repr

def AnchorError.message : AnchorError → String
  | notStatic group => s!"Cannot add static anchor to non-static anchor group `{group}`"
  | groupExists group => s!"Cannot create dynamic group, because group `{group}` already exists"
  | refreshPeriod group => s!"Invalid refresh period for group `{group}`"

/-- What the files are when the source of a group is read, by the identifier of the group. -/
abbrev Disk := String → Files

/-- What a dynamic group follows. -/
structure AnchorSource where
  path : Path
  directory : Bool
  /-- The time from one reading to the next. -/
  period : Duration
  /-- When the next reading is due. -/
  due : Instant
deriving DecidableEq, Repr

structure AnchorGroup where
  id : String
  /-- Nothing for a static group. -/
  source : Option AnchorSource
  names : NameMap Unit := .empty

/-- An anchor with the number of the groups that hold it. -/
structure Anchor where
  certificate : Certificate
  holders : Nat
deriving DecidableEq, Repr

/-- The anchors of all groups, by name. -/
abbrev AnchorIndex := NameMap Anchor

namespace AnchorIndex

/-- One more group holds the name; the certificate that came first is kept. -/
def retain (index : AnchorIndex) (c : Certificate) : AnchorIndex :=
  match index.get? c.name with
  | some a => index.insert c.name { a with holders := a.holders + 1 }
  | none => index.insert c.name ⟨c, 1⟩

/-- One group fewer holds the name. -/
def release (index : AnchorIndex) (name : Name) : AnchorIndex :=
  match index.get? name with
  | some a => if a.holders = 1 then index.erase name
      else index.insert name { a with holders := a.holders - 1 }
  | none => index

end AnchorIndex

namespace AnchorGroup

/-- The certificate in a file, written in Base64. -/
def certificate? (content : Bytes) : Option Certificate := do
  let text ← Utf8.decode? content
  (Certificate.ofBase64 (String.ofList text)).toOption

/-- The certificates that a source shows, by name; of two with one name the later file counts. -/
def load (files : Files) (s : AnchorSource) : NameMap Certificate :=
  let contents := if s.directory then (files.inDirectory s.path).map (·.2)
    else (files.content? s.path).toList
  .ofList ((contents.filterMap certificate?).map fun c => (c.name, c))

/-- Lets go of the names that were not loaded. -/
def drop (g : AnchorGroup) (loaded : NameMap Certificate) (index : AnchorIndex) :
    AnchorGroup × AnchorIndex :=
  let stale := g.names.keys.filter (!loaded.contains ·)
  ({ g with names := g.names.filter fun n _ => loaded.contains n },
    stale.foldl AnchorIndex.release index)

/-- Takes in a certificate whose name the group does not hold yet. -/
def add (g : AnchorGroup) (index : AnchorIndex) (c : Certificate) : AnchorGroup × AnchorIndex :=
  if g.names.contains c.name then (g, index)
  else ({ g with names := g.names.insert c.name () }, index.retain c)

/-- Takes over what the source shows: first lets go, then takes in. -/
def follow (g : AnchorGroup) (loaded : NameMap Certificate) (index : AnchorIndex) :
    AnchorGroup × AnchorIndex :=
  (loaded.entries.map (·.2)).foldl (fun s c => s.1.add s.2 c) (g.drop loaded index)

/-- Reads the source now; nothing if the next reading would lie outside the supported years. -/
def reload? (files : Files) (now : Instant) (g : AnchorGroup) (index : AnchorIndex) :
    Option (AnchorGroup × AnchorIndex) :=
  match g.source with
  | none => some (g, index)
  | some s => do
    let due ← now.add? (.ofDuration s.period)
    pure ({ g with source := some { s with due } }.follow (load files s) index)

/-- The group is dynamic, and its next reading is due. -/
def isDue (g : AnchorGroup) (now : Instant) : Bool :=
  g.source.any fun s => s.due ≤ now

end AnchorGroup

structure Anchors where
  groups : List AnchorGroup := []
  index : AnchorIndex := .empty

namespace Anchors

def size (a : Anchors) : Nat := a.index.size

def group? (a : Anchors) (id : String) : Option AnchorGroup := a.groups.find? (·.id = id)

/-- Puts a group in the place of the one with its identifier, or behind all others. -/
def setGroup (a : Anchors) (g : AnchorGroup) : List AnchorGroup :=
  if a.groups.any (·.id = g.id) then a.groups.map fun h => if h.id = g.id then g else h
  else a.groups ++ [g]

/-- Puts a certificate into a static group, which is made if there is none of that name. -/
def insert (a : Anchors) (id : String) (c : Certificate) : Except AnchorError Anchors :=
  let g := (a.group? id).getD { id, source := none }
  if g.source.isSome then .error (.notStatic id)
  else
    let (g, index) := g.add a.index c
    .ok { groups := a.setGroup g, index }

/-- The longest period between readings. -/
def maxPeriod : Duration := .ofMillis 0x7fffffffffffffff

/-- Makes a dynamic group and reads its source for the first time. -/
def insertPath (disk : Disk) (now : Instant) (id : String) (path : Path) (period : Duration)
    (directory : Bool) : Act Anchors (Except AnchorError Unit) := do
  let a ← get
  if (a.group? id).isSome then return .error (.groupExists id)
  if period.nanoseconds > maxPeriod.nanoseconds then return .error (.refreshPeriod id)
  let source := { path, directory, period, due := now }
  match AnchorGroup.reload? (disk id) now { id, source := some source } a.index with
  | some (g, index) =>
    set { groups := a.groups ++ [g], index : Anchors }
    return .ok ()
  | none => throw .dateRange

def clear (_ : Anchors) : Anchors := {}

/-- Reads the sources of the groups that are due, one after the other; stops at a fault. -/
def refreshGroups (disk : Disk) (now : Instant) :
    List AnchorGroup → AnchorIndex → Option Fault × List AnchorGroup × AnchorIndex
  | [], index => (none, [], index)
  | g :: rest, index =>
    if g.isDue now then
      match g.reload? (disk g.id) now index with
      | none => (some .dateRange, g :: rest, index)
      | some (g, index) =>
        let (fault, rest, index) := refreshGroups disk now rest index
        (fault, g :: rest, index)
    else
      let (fault, rest, index) := refreshGroups disk now rest index
      (fault, g :: rest, index)

def refresh (disk : Disk) (now : Instant) : Act Anchors Unit := fun a =>
  match refreshGroups disk now a.groups a.index with
  | (none, groups, index) => .ok () { groups, index }
  | (some fault, groups, index) => .error fault { groups, index }

/-- The first anchor whose name begins with the given one. -/
def find (disk : Disk) (now : Instant) (name : Name) : Act Anchors (Option Certificate) := do
  refresh disk now
  return ((← get).index.findUnder name).map (·.certificate)

/-- The first anchor that answers an Interest. -/
def findInterest (disk : Disk) (now : Instant) (i : Interest) :
    Act Anchors (Option Certificate) := do
  refresh disk now
  return ((← get).index.findUnderWith i.name fun a => i.matchesData a.certificate.data).map
    (·.certificate)

end Anchors

/-- What may be done with trust anchors. -/
inductive AnchorOperation where
  | insert (group : String) (certificate : Certificate)
  | insertPath (group : String) (path : Path) (period : Duration) (directory : Bool)
  | clear
  | refresh
  | find (name : Name)
  | findInterest (interest : Interest)
deriving DecidableEq, Repr

/-- Carries an operation out; a search also tells what it found. -/
def AnchorOperation.run (disk : Disk) (now : Instant) :
    AnchorOperation → Act Anchors (Except AnchorError (Option Certificate))
  | insert group certificate => do
    match (← get).insert group certificate with
    | .ok anchors =>
      set anchors
      return .ok none
    | .error e => return .error e
  | insertPath group path period directory => do
    return (← Anchors.insertPath disk now group path period directory).map fun _ => none
  | clear => do
    modify (·.clear)
    return .ok none
  | refresh => do
    Anchors.refresh disk now
    return .ok none
  | find name => return .ok (← Anchors.find disk now name)
  | findInterest interest => return .ok (← Anchors.findInterest disk now interest)

end PacketTrust
