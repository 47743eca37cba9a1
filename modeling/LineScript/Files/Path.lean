/-
# Paths

Paths as texts with slashes. A clean path has no empty segments, no single dots, and double dots only
at the front of a path that does not begin at the root. Cleaning is done on the text alone and does
not look at any files.
-/

import LineScript.Text.Hex

namespace LineScript.Path

/-- Whether a path begins at the root. -/
def isAbsolute (path : String) : Bool :=
  path.toList.head? == some '/'

/-- The segments between the slashes, empty ones included. -/
def rawSegments (path : String) : List String :=
  (Text.splitOnChar '/' path.toList).map String.ofList

/-- The segments of a clean path, last first, given those before. A double dot takes back the segment
before it; at the root there is nothing to take back. -/
def cleanSegments (rooted : Bool) : List String → List String → List String
  | done, [] => done
  | done, segment :: rest =>
    if segment = "" || segment = "." then cleanSegments rooted done rest
    else if segment = ".." then
      match done with
      | [] => if rooted then cleanSegments rooted [] rest else cleanSegments rooted [".."] rest
      | last :: before =>
        if last = ".." then cleanSegments rooted (".." :: done) rest
        else cleanSegments rooted before rest
    else cleanSegments rooted (segment :: done) rest

/-- The segments of a path once it is clean. -/
def segments (path : String) : List String :=
  (cleanSegments (isAbsolute path) [] (rawSegments path)).reverse

/-- The shortest path that is equal to a path as a text. -/
def clean (path : String) : String :=
  let body := Text.joined "/" (segments path)
  if isAbsolute path then "/" ++ body else if body = "" then "." else body

/-- One path below another. -/
def join (parent child : String) : String :=
  if parent = "" then (if child = "" then "" else clean child)
  else if child = "" then clean parent
  else clean (parent ++ "/" ++ child)

/-- The text up to and with the last slash. -/
def upToSlash (path : String) : String :=
  String.ofList (path.toList.reverse.dropWhile (· ≠ '/')).reverse

/-- The text after the last slash. -/
def afterSlash (path : String) : String :=
  String.ofList (path.toList.reverse.takeWhile (· ≠ '/')).reverse

/-- The directory that a path is in. -/
def directory (path : String) : String := clean (upToSlash path)

/-- The last segment of a path. -/
def base (path : String) : String :=
  let trimmed := String.ofList (path.toList.reverse.dropWhile (· == '/')).reverse
  if path = "" then "." else if trimmed = "" then "/" else afterSlash trimmed

/-- The last dot of a file's name and what follows it. -/
def extension (path : String) : String :=
  let name := (afterSlash path).toList
  if name.contains '.' then String.ofList ('.' :: (name.reverse.takeWhile (· ≠ '.')).reverse) else ""

/-- A path seen from a directory, clean. -/
def absolute (directory path : String) : String :=
  if isAbsolute path then clean path else join directory path

end LineScript.Path
