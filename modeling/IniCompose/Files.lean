import IniCompose.Fault
import IniCompose.OrderedMap

/-!
# Files

The files below the current directory, by path. A path is walked component by component, so that a
component below a regular file is told apart from one that is absent. The directories above the
current one exist, and nothing is known of what else they hold.
-/
namespace IniCompose

inductive FileNode
  | file (content : ByteArray)
  | directory

/-- Where a walk through directories has arrived, seen from the current directory: the names to go
down, outermost first, after as many `..` as it takes to go up. -/
abbrev Place := List String

namespace Place

/-- Whether a place is the current directory or one above it. -/
def isAbove (place : Place) : Bool := place.all (· = "..")

def parent (place : Place) : Place :=
  if place.isAbove then place ++ [".."] else place.dropLast

/-- The place that a component of a path leads to. -/
def step (place : Place) (component : String) : Place :=
  if component = "" ∨ component = "." then place
  else if component = ".." then place.parent
  else place ++ [component]

def path (place : Place) : String := "/".intercalate place

end Place

/-- Files and directories by the paths of their places. -/
structure Files where
  nodes : OrderedMap FileNode := ∅

namespace Files

/-- The bytes that a component may have. -/
def maxName : Nat := 255

/-- The bytes that a path may have. -/
def maxPath : Nat := 4095

def components (path : String) : List String := (path.toList.splitOn '/').map .ofList

def node? (files : Files) (place : Place) : Option FileNode :=
  if place.isAbove then some .directory else files.nodes.get? place.path

/-- Follows the components of a path from a directory on. -/
def follow (files : Files) (directory : Place) : List String → Except IoError FileNode
  | [] => .ok .directory
  | component :: rest =>
    let place := directory.step component
    if maxName < component.utf8ByteSize then .error .nameTooLong
    else
      match files.node? place with
      | none => .error .absent
      | some .directory => files.follow place rest
      | some (.file content) => if rest.isEmpty then .ok (.file content) else .error .notDirectory

/-- What a path names. The empty path names nothing, and of the absolute ones only the root is
known. -/
def nodeAt (files : Files) (path : String) : Except IoError FileNode :=
  if path.contains '\x00' then .error .nulInName
  else if maxPath < path.utf8ByteSize then .error .nameTooLong
  else
    match components path with
    | [""] => .error .absent
    | "" :: rest =>
      if rest.all (· ∈ ["", ".", ".."]) then .ok .directory else .error .absent
    | parts => files.follow [] parts

/-- Whether a path names a file or a directory. -/
def has (files : Files) (path : String) : Bool := (files.nodeAt path).isOk

def readText (files : Files) (path : String) : Except IoError String :=
  match files.nodeAt path with
  | .error error => .error error
  | .ok .directory => .error .isDirectory
  | .ok (.file content) =>
    match String.fromUTF8? content with
    | some text => .ok text
    | none => .error .invalidUtf8

/-- Makes a directory where there is nothing yet. -/
def makeDirectory (files : Files) (place : Place) : Files :=
  match files.node? place with
  | some _ => files
  | none => ⟨files.nodes.insert place.path .directory⟩

/-- Puts a node where components lead from a directory on; directories on the way are made. -/
def putFrom (files : Files) (node : FileNode) (directory : Place) : List String → Files
  | [] => files
  | [last] => ⟨files.nodes.insert (directory.step last).path node⟩
  | component :: rest =>
    let place := directory.step component
    (files.makeDirectory place).putFrom node place rest

def put (files : Files) (path : String) (node : FileNode) : Files :=
  files.putFrom node [] (components path)

end Files

end IniCompose
