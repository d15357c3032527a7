/-!
# Paths

A path is a text of segments between slashes.  Different texts may mean the same path: repeated
slashes and segments `.` do not matter, except for `.` at the very start.  Paths are compared by
their steps; what is cut out of a path keeps its spelling.
-/

namespace Reify

namespace Path

/-- Cuts a text at its slashes. -/
def splitChars : List Char → List (List Char)
  | [] => [[]]
  | c :: cs =>
    if c = '/' then [] :: splitChars cs
    else
      match splitChars cs with
      | [] => [[c]]
      | s :: ss => (c :: s) :: ss

/-- The texts between the slashes of a path. -/
def segments (path : String) : List String := (splitChars path.toList).map String.ofList

/-- Segments with slashes between them. -/
def ofSegments (segments : List String) : String := "/".intercalate segments

/-- Whether a segment is no step. -/
def isBlank (segment : String) : Bool := segment == "" || segment == "."

/-- Leaves out the segments at the end that are no steps. -/
def trimEnd (segments : List String) : List String := (segments.reverse.dropWhile isBlank).reverse

/-- Leaves out the segments at both ends that are no steps. -/
def trim (segments : List String) : List String := trimEnd (segments.dropWhile isBlank)

/-- Where a path starts. -/
inductive Anchor where
  /-- At the root: `/a`. -/
  | root
  /-- At the current directory, spelled out: `./a`. -/
  | here
  /-- At the current directory: `a`. -/
  | implicit
deriving DecidableEq, Repr, Inhabited

/-- Where a path starts and the segments that follow. -/
def parts (path : String) : Anchor × List String :=
  match segments path with
  | "." :: rest => (.here, rest)
  | "" :: next :: rest => (.root, next :: rest)
  | segments => (.implicit, segments)

/-- The start of a path as it is written. -/
def Anchor.text : Anchor → String
  | root => "/"
  | here => "."
  | implicit => ""

/-- A path as it is written, from its start and its segments. -/
def ofParts : Anchor → List String → String
  | anchor, [] => anchor.text
  | .here, segments => "./" ++ ofSegments segments
  | anchor, segments => anchor.text ++ ofSegments segments

/-- The steps of a list of segments. -/
def stepsOf (segments : List String) : List String := segments.filter fun s => !isBlank s

/-- The steps of a path after its start. -/
def steps (path : String) : List String := stepsOf (parts path).2

/-- Whether a path starts at the root. -/
def isAbsolute (path : String) : Bool := (parts path).1 = .root

/-- Whether two texts mean the same path. -/
def same (p q : String) : Bool := (parts p).1 = (parts q).1 && steps p = steps q

/-- Follows steps through segments and gives the segments behind them. -/
def dropSteps : List String → List String → Option (List String)
  | [], segments => some segments
  | _ :: _, [] => none
  | step :: rest, segment :: segments =>
    if isBlank segment then dropSteps (step :: rest) segments
    else if segment = step then dropSteps rest segments
    else none

/-- What follows a base in a path, as it is written there but without slashes and `.` at its ends;
nothing if the path does not start with the base. -/
def relativeTo? (base path : String) : Option String :=
  let (baseAnchor, _) := parts base
  let (anchor, segments) := parts path
  match baseAnchor, steps base with
  | .implicit, [] => some (ofParts anchor (trimEnd segments))
  | _, steps =>
    if baseAnchor = anchor then (dropSteps steps segments).map fun rest => ofSegments (trim rest)
    else none

/-- Whether a path is a base or lies below it. -/
def startsWith (path base : String) : Bool := (relativeTo? base path).isSome

/-- A path read from a directory.  An absolute path stands for itself. -/
def join (directory path : String) : String :=
  if isAbsolute path then path
  else if directory.isEmpty || directory.endsWith "/" then directory ++ path
  else directory ++ "/" ++ path

/-- The last step of a path, unless it leads upwards. -/
def fileName? (path : String) : Option String := (steps path).getLast?.filter (· != "..")

/-- The path without its last step.  The root has no parent, and neither has the empty path. -/
def parent? (path : String) : Option String :=
  let (anchor, segments) := parts path
  match trimEnd segments with
  | [] => if anchor = .here then some "" else none
  | trimmed => some (ofParts anchor (trimEnd trimmed.dropLast))

end Path

/-- Where a unit is staged: at its path below the base, in the staging directory.  Of a unit
elsewhere only the file name is kept, and a staged unit stays where it is. -/
def stagingPath (base tempDir path : String) : String :=
  if Path.startsWith path tempDir then path
  else
    match Path.relativeTo? base path with
    | some relative => Path.join tempDir relative
    | none => Path.join tempDir ((Path.fileName? path).getD path)

end Reify
