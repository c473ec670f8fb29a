import PacketTrust.Bytes
import PacketTrust.Text.Segments

/-! The files that trust anchors are read from: a tree of directories with contents at its
leaves. -/

namespace PacketTrust

/-- The names of the directories on the way, then the last name. -/
abbrev Path := List String

structure Files where
  files : List (Path × Bytes) := []
  directories : List Path := []
deriving DecidableEq, Repr

namespace Files

def content? (f : Files) (p : Path) : Option Bytes :=
  (f.files.find? (·.1 = p)).map (·.2)

/-- The root, a directory that was made, or one on the way to something. -/
def isDirectory (f : Files) (p : Path) : Bool :=
  p.isEmpty || f.directories.any p.isPrefixOf ||
    f.files.any fun e => p.isPrefixOf e.1 && p.length < e.1.length

/-- One step from a directory: a name leads on, two periods lead back, but not out of the tree. -/
def step? (f : Files) (p : Path) (part : String) : Option Path :=
  if !f.isDirectory p then none
  else if part = "" ∨ part = "." then some p
  else if part = ".." then if p.isEmpty then none else some p.dropLast
  else some (p ++ [part])

/-- The path that a text names from the root of the tree on. -/
def path? (f : Files) (text : String) : Option Path :=
  if text.isEmpty ∨ text.startsWith "/" then none
  else ((Text.segments text.toList).map String.ofList).foldlM f.step? []

def write (f : Files) (p : Path) (content : Bytes) : Files :=
  { f with files := f.files.filter (·.1 ≠ p) ++ [(p, content)] }

def makeDirectory (f : Files) (p : Path) : Files :=
  { f with directories := f.directories ++ [p] }

/-- Removes a file; also tells whether there was one. -/
def remove (f : Files) (p : Path) : Bool × Files :=
  (f.files.any (·.1 = p), { f with files := f.files.filter (·.1 ≠ p) })

/-- The files directly in a directory, by rising name. -/
def inDirectory (f : Files) (p : Path) : List (String × Bytes) :=
  let inside := f.files.filterMap fun e =>
    match p.isPrefixOf e.1, e.1.drop p.length with
    | true, [last] => some (last, e.2)
    | _, _ => none
  inside.mergeSort fun a b => a.1 ≤ b.1

end Files

end PacketTrust
