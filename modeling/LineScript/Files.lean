/-
# Files

A tree of directories and files, held by their clean absolute paths. Paths given to it are followed
segment by segment: every segment but the last has to name a directory, whether or not a later double
dot leaves it again.
-/

import LineScript.Cache
import LineScript.Files.Path

namespace LineScript

open LineScript.Text (Bytes)

/-- What is found at a path. -/
inductive Files.Node where
  | directory
  | file (content : Bytes)
  /-- A file that holds the rows of a cache. -/
  | database (rows : Dict Cache.Row)

/-- A tree of directories and files. The root is always there. -/
structure Files where
  nodes : Dict Files.Node := ∅

namespace Files

/-- What keeps an operation on a file from being done. -/
inductive Obstacle where
  | noEntry
  | notDirectory
  | isDirectory
  | nameTooLong
  /-- The path has a zero in it. -/
  | invalid
  deriving DecidableEq, Repr

/-- The wording of an obstacle. -/
def Obstacle.text : Obstacle → String
  | noEntry => "no such file or directory"
  | notDirectory => "not a directory"
  | isDirectory => "is a directory"
  | nameTooLong => "file name too long"
  | invalid => "invalid argument"

/-- What was being done to a file. -/
inductive Action where
  | opening
  | reading
  | making
  deriving DecidableEq, Repr

/-- The word for an action. -/
def Action.text : Action → String
  | opening => "open"
  | reading => "read"
  | making => "mkdir"

/-- A failed operation on a file, with the path as it was given. -/
structure Error where
  action : Action
  path : String
  obstacle : Obstacle
  deriving DecidableEq, Repr

/-- The wording of a failed operation. -/
def Error.message (e : Error) : String :=
  e.action.text ++ " " ++ e.path ++ ": " ++ e.obstacle.text

/-- The path of segments below the root. -/
def pathOf (segments : List String) : String := "/" ++ Text.joined "/" segments

/-- What is found at the segments below the root. -/
def at? (fs : Files) (segments : List String) : Option Node :=
  if segments.isEmpty then some .directory else fs.nodes.get? (pathOf segments)

/-- How many bytes a name may have. -/
def maxName : Nat := 255

/-- How many bytes a path may have. -/
def maxPath : Nat := 4095

/-- What is wrong with a path as a text. -/
def pathFault? (path : String) : Option Obstacle :=
  if path.toList.contains '\x00' then some .invalid
  else if path = "" then some .noEntry
  else if maxPath < path.utf8ByteSize then some .nameTooLong
  else none

/-- Follows a path from a place, given as segments last first. The place reached need not exist. -/
def follow (fs : Files) : List String → List String → Except Obstacle (List String)
  | place, [] => .ok place
  | place, segment :: rest =>
    match fs.at? place.reverse with
    | none => .error .noEntry
    | some .directory =>
      if segment = "" || segment = "." then fs.follow place rest
      else if segment = ".." then fs.follow place.tail rest
      else if maxName < segment.utf8ByteSize then .error .nameTooLong
      else fs.follow (segment :: place) rest
    | some _ => .error .notDirectory

/-- The place that a path leads to from a directory, as segments below the root. -/
def resolve (fs : Files) (cwd path : String) : Except Obstacle (List String) :=
  match pathFault? path with
  | some obstacle => .error obstacle
  | none =>
    let start := if Path.isAbsolute path then [] else (Path.segments cwd).reverse
    (fs.follow start (Path.rawSegments path)).map List.reverse

/-- Whether anything is found at a path. -/
def exists? (fs : Files) (cwd path : String) : Bool :=
  match fs.resolve cwd path with
  | .ok place => (fs.at? place).isSome
  | .error _ => false

/-- The bytes at the front of a file that holds a cache. What follows them is of no interest to any
reader of scripts, because they end in a zero. -/
def databaseHeader : Bytes := Text.encode "SQLite format 3" ++ [0]

/-- Reads a file. -/
def read (fs : Files) (cwd path : String) : Except Error Bytes :=
  match fs.resolve cwd path with
  | .error obstacle => .error ⟨.opening, path, obstacle⟩
  | .ok place =>
    match fs.at? place with
    | none => .error ⟨.opening, path, .noEntry⟩
    | some .directory => .error ⟨.reading, path, .isDirectory⟩
    | some (.file content) => .ok content
    | some (.database _) => .ok databaseHeader

/-- Puts a node at a place. -/
def place (fs : Files) (segments : List String) (node : Node) : Files :=
  { fs with nodes := fs.nodes.insert (pathOf segments) node }

/-- Writes a file in a directory that is there. -/
def write (fs : Files) (cwd path : String) (content : Bytes) : Except Error Files :=
  match fs.resolve cwd path with
  | .error obstacle => .error ⟨.opening, path, obstacle⟩
  | .ok place =>
    match fs.at? place with
    | some .directory => .error ⟨.opening, path, .isDirectory⟩
    | _ =>
      match fs.at? place.dropLast with
      | some .directory => .ok (fs.place place (.file content))
      | some _ => .error ⟨.opening, path, .notDirectory⟩
      | none => .error ⟨.opening, path, .noEntry⟩

/-- Makes the directories of a clean path that are missing, the outer ones first. `shown` are the
paths of the directories on the way as they are reported, with the places they lead to. -/
def makeEach (fs : Files) : List (String × List String) → Except Error Files
  | [] => .ok fs
  | (shown, place) :: rest =>
    match fs.resolve "/" (pathOf place) with
    | .error obstacle => .error ⟨.making, shown, obstacle⟩
    | .ok _ =>
      match fs.at? place with
      | some .directory => fs.makeEach rest
      | some _ => .error ⟨.making, shown, .notDirectory⟩
      | none => (fs.place place .directory).makeEach rest

/-- The directories on the way to a clean path, the outer ones first, the path itself last: each as it
is reported and as the place that it leads to. -/
def onTheWay (cwd path : String) : List (String × List String) :=
  let segments := Path.segments path
  let rooted := Path.isAbsolute path
  (List.range segments.length).map fun i =>
    let front := segments.take (i + 1)
    let shown := (if rooted then "/" else "") ++ Text.joined "/" front
    (shown, Path.segments (Path.absolute cwd shown))

/-- Makes a directory and the directories it is in, as far as they are missing. -/
def makeDirectories (fs : Files) (cwd path : String) : Except Error Files :=
  fs.makeEach (onTheWay cwd (Path.clean path))

/-- A tree with one more file, whose directories are made as needed. -/
def withFile (fs : Files) (path : String) (content : Bytes) : Files :=
  let made := match fs.makeDirectories "/" (Path.directory path) with
    | .ok fs => fs
    | .error _ => fs
  made.place (Path.segments path) (.file content)

/-- A tree with one more directory. -/
def withDirectory (fs : Files) (path : String) : Files :=
  match fs.makeDirectories "/" path with
  | .ok fs => fs
  | .error _ => fs

/-- Whether one list of segments lies directly below another. -/
def isChild (parent child : List String) : Bool :=
  child.length == parent.length + 1 && parent.isPrefixOf child

/-- The names in a directory with what they name, in the order of the names. -/
def list (fs : Files) (segments : List String) : List (String × Node) :=
  let found := fs.nodes.toList.filterMap fun (path, node) =>
    let child := Path.segments path
    if isChild segments child then child.getLast?.map (·, node) else none
  (Dict.ofList found).toList

end Files

end LineScript
