import BoundedMerge.Command.Run

/-!
A file tree, as far as a run of the program sees it. A path is followed name by name, from the
root or from the working directory. It is refused if it is too long, where it goes on behind
something that is no directory, and where it leads to nothing, unless a file is made there.
-/

namespace BoundedMerge

inductive FileNode
  | directory
  /-- A directory that takes no new entries. -/
  | sealed
  /-- A file with the bytes that are read from it. -/
  | file (bytes : List UInt8)
  /-- A device from which nothing is read and that has no room for a single byte. -/
  | full
deriving DecidableEq, Repr

def FileNode.isDirectory : FileNode → Bool
  | directory | sealed => true
  | file _ | full => false

/-- What stands where, under the root. A place is the list of the names that lead to it. -/
structure FileTree where
  nodes : List (List String × FileNode)
  workingDirectory : List String := []
  /-- The most bytes that a temporary file takes. -/
  longestFile : Nat := lengthBound - 1

namespace FileTree

def longestName : Nat := 255

def longestPath : Nat := 4095

def node? (t : FileTree) (place : List String) : Option FileNode :=
  if place.isEmpty then some .directory else t.nodes.lookup place

def enter (t : FileTree) (place : List String) (name : String) :
    Except DiskError (List String) :=
  match t.node? place with
  | none => .error .noSuchFile
  | some node =>
    let next := place ++ [name]
    if !node.isDirectory then .error .notDirectory
    else if name = "" ∨ name = "." then .ok place
    else if name = ".." then .ok place.dropLast
    else if node = .sealed ∧ t.node? next = none then .error .noSuchFile
    else if longestName < name.utf8ByteSize then .error .nameTooLong
    else .ok next

def start (t : FileTree) (path : String) : Except DiskError (List String) :=
  if path.isEmpty then .error .noSuchFile
  else if longestPath < path.utf8ByteSize then .error .nameTooLong
  else .ok (if path.startsWith "/" then [] else t.workingDirectory)

def names (path : String) : List String := path.splitOn "/"

def frontNames (path : String) : List String :=
  (((names path).reverse.dropWhile (·.isEmpty)).drop 1).reverse

/-- The place that a path leads to, whether anything stands there or not. -/
def locate (t : FileTree) (path : String) : Except DiskError (List String) := do
  (names path).foldlM t.enter (← t.start path)

def find (t : FileTree) (path : String) : Except DiskError FileNode := do
  match t.node? (← t.locate path) with
  | some node => return node
  | none => throw .noSuchFile

def read (t : FileTree) (path : String) : Except DiskError (List UInt8) := do
  match ← t.find path with
  | .directory | .sealed => throw .isDirectory
  | .file bytes => return bytes
  | .full => return []

/-- Tells whether a file can be made, or the one that is there emptied. A path that ends with a
slash asks for a directory, and that is refused if the path is good up to its last name. -/
def make (t : FileTree) (path : String) : Except DiskError Unit := do
  if path.endsWith "/" then
    let place ← (frontNames path).foldlM t.enter (← t.start path)
    let _ ← t.enter place ""
    throw .isDirectory
  let node := t.node? (← t.locate path)
  if node.any (·.isDirectory) then throw .isDirectory

def scratchPath (path : String) : String :=
  path ++ (if path.isEmpty ∨ path.endsWith "/" then "" else "/") ++ ".tmp000000"

def openScratch (t : FileTree) (path : String) : Except DiskError Scratch := do
  let _ ← t.locate (scratchPath path)
  return .limited t.longestFile

def save (t : FileTree) (path text : String) : Except DiskError Unit := do
  let place ← t.locate path
  if t.node? place = some .full ∧ text ≠ "" then throw .noSpace

/-- The surroundings of a run that works in a file tree. The temporary files of one that chooses
no directory for them are served. -/
def surroundings (t : FileTree) (seed : UInt64) : Command.Surroundings Id where
  openInput path := (t.find path).map fun _ => ()
  makeOutput := t.make
  openScratch path := path.elim (.ok (.limited t.longestFile)) t.openScratch
  seed
  readInput := t.read
  saveOutput := t.save

end FileTree

end BoundedMerge
